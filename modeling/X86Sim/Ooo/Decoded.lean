import X86Sim.Ooo.Registers

/-!
# Decoded code

What the core relies on of the decoder: the uops of an instruction stand together,
from the one marked `som` to the one marked `eom`, a branch is the last of its
instruction, a result never goes to the zero or a flag register alone, and loads and
stores set no flags.
-/

namespace X86Sim

/-- The uops `ops` continue an instruction stream that stands at the start of an
instruction if `b`, and leave it so if `e`. -/
def Linked : Bool → List TransOp → Bool → Prop
  | b, [], e => b = e
  | b, op :: ops, e => op.som = b ∧ Linked op.eom ops e

/-- A decoded uop. -/
structure TransOp.WF (op : TransOp) : Prop where
  branch_eom : isbranch op.opcode = true → op.eom = true
  rd_zero : op.rd ≠ Reg.zero
  rd_flags : op.rd ≠ Reg.zf ∧ op.rd ≠ Reg.cf ∧ op.rd ≠ Reg.of
  mem_flags : (isload op.opcode || isstore op.opcode) = true → op.setflags = SetFlags.none

/-- A decoded block: whole instructions, at least one. -/
structure BasicBlock.WF (bb : BasicBlock) : Prop where
  ne_nil : bb.transops ≠ []
  linked : Linked true bb.transops true
  ops : ∀ op ∈ bb.transops, op.WF

/-- The cache after some of its blocks were dropped. -/
def BasicBlockCache.Shrunk (c c' : BasicBlockCache) : Prop :=
  ∀ rip b', c'.blocks rip = some b' → ∃ b, c.blocks rip = some b ∧ b.bb = b'.bb

theorem BasicBlockCache.Shrunk.refl (c : BasicBlockCache) : c.Shrunk c :=
  fun _ _ h => ⟨_, h, rfl⟩

theorem BasicBlockCache.Shrunk.trans {c c' c'' : BasicBlockCache} (h : c.Shrunk c')
    (h' : c'.Shrunk c'') : c.Shrunk c'' := by
  intro rip b'' hb
  obtain ⟨b', hb', heq'⟩ := h' rip b'' hb
  obtain ⟨b, hb, heq⟩ := h rip b' hb'
  exact ⟨b, hb, heq.trans heq'⟩

section Linked

variable {b e f : Bool} {ops ops' : List TransOp} {op : TransOp}

@[simp] theorem linked_nil : Linked b [] e ↔ b = e := Iff.rfl

@[simp] theorem linked_cons : Linked b (op :: ops) e ↔ op.som = b ∧ Linked op.eom ops e := Iff.rfl

theorem linked_append : Linked b (ops ++ ops') e ↔ ∃ f, Linked b ops f ∧ Linked f ops' e := by
  induction ops generalizing b with
  | nil => simp
  | cons op ops ih => simp [ih, and_assoc]

/-- Two streams with the same marks are linked alike. -/
theorem linked_congr (h : ops.map (fun op => (op.som, op.eom)) = ops'.map fun op => (op.som, op.eom)) :
    Linked b ops e ↔ Linked b ops' e := by
  induction ops generalizing b ops' with
  | nil =>
    cases ops' with
    | nil => rfl
    | cons op' ops' => simp at h
  | cons op ops ih =>
    cases ops' with
    | nil => simp at h
    | cons op' ops' =>
      simp only [List.map_cons, List.cons.injEq, Prod.mk.injEq] at h
      obtain ⟨⟨hs, he⟩, hrest⟩ := h
      rw [linked_cons, linked_cons, hs, he, ih hrest]

theorem Linked.unique (h : Linked b ops e) (h' : Linked b ops f) : e = f := by
  induction ops generalizing b with
  | nil => exact h.symm.trans h'
  | cons op ops ih => exact ih h.2 h'.2

/-- A stream ends as its last uop does. -/
theorem linked_concat : Linked b (ops ++ [op]) e ↔ Linked b ops op.som ∧ op.eom = e := by
  rw [linked_append]
  constructor
  · rintro ⟨f, h, rfl, he⟩; exact ⟨h, he⟩
  · rintro ⟨h, he⟩; exact ⟨op.som, h, rfl, he⟩

/-- After a uop comes one that starts an instruction just if that uop ended one. -/
theorem Linked.next (h : Linked b ops e) {k : ℕ} (hk : ops[k]? = some op) :
    (ops[k + 1]?.map (·.som)).getD e = op.eom := by
  induction ops generalizing b k with
  | nil => simp at hk
  | cons a ops ih =>
    obtain ⟨-, hrest⟩ := h
    cases k with
    | zero =>
      simp only [List.getElem?_cons_zero, Option.some.injEq] at hk
      rw [← hk]
      cases ops with
      | nil => exact hrest.symm
      | cons a' ops => exact hrest.1
    | succ k =>
      simp only [List.getElem?_cons_succ] at hk ⊢
      exact ih hrest hk

theorem Linked.som_next {a op : TransOp} (h : Linked b (ops ++ a :: op :: ops') e) : op.som = a.eom := by
  rw [linked_append] at h
  obtain ⟨f, -, -, h, -⟩ := h
  exact h

theorem Linked.first (h : Linked b ops e) (hne : ops ≠ []) : (ops[0]?.map (·.som)).getD true = b := by
  cases ops with
  | nil => exact absurd rfl hne
  | cons a ops => exact h.1

end Linked
end X86Sim
