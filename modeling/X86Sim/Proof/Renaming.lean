import X86Sim.Proof.FetchOrder
import X86Sim.Proof.RegReset

/-!
# Register renaming

`RegsRenamed`: the rename tables, the operands in flight, the states and the reference
counts of the physical registers agree. The speculative table is the committed one with
the destinations in flight on top, in program order; the count of a register is the
number of its names; and a register is free, pending, the destination of one entry in
flight, or the committed value of one architectural register. In particular no register
that anything names is free, so a rename never hands out one that is still in use.

* `Core.RegsRenamed.move`: what one move keeps.
* `rule_regsRenamed`: every run.
-/

namespace X86Sim.Ooo

open Names Regs

/-- The flags have no register of their own: they name the result of the last uop that
set them. -/
def FlagReg (a : Reg) : Prop := a = Reg.zf ∨ a = Reg.cf ∨ a = Reg.of

/-- The register is the destination of an entry in flight, or was committed. -/
def PhysState.InFlight (st : PhysState) : Prop := st = .waiting ∨ st = .bypass ∨ st = .written
def PhysState.Committed (st : PhysState) : Prop := st = .arch ∨ st = .pendingfree

namespace Core

variable (c : Core)

/-- The committed table with the destinations of the entries `l` on top. -/
def replayed (l : List ℕ) : Reg → PhysReg :=
  l.foldl (fun t i => mapTable (c.uop i).op (c.regs.physreg i) t) c.regs.commitrrt

/-- The value `p` stands for comes from the committed state or from an entry of `X`. -/
def Source (X : List ℕ) (p : PhysReg) : Prop :=
  (∃ st, c.regs.state p = some st ∧ st.Committed) ∨ ∃ k ∈ X, c.regs.physreg k = p

end Core

/-- The registers are in order, with the speculative table at the entries `kept`. -/
structure RenamedAt (kept : List ℕ) (c : Core) : Prop where
  lists_wf : ∀ f, (c.regs.lists f).WF
  range : ∀ p, c.regs.state p = none ↔ FileId.size p.rfid ≤ p.idx
  counted : ∀ p, p.nonnull = true → c.regs.slack c.order p = 0
  zeros : ∀ f, c.regs.state ⟨f, 0⟩ = some .arch
  dest : ∀ i ∈ c.order, ∃ st, c.regs.state (c.regs.physreg i) = some st ∧ st.InFlight
  inj : ∀ i ∈ c.order, ∀ k ∈ c.order, c.regs.physreg i = c.regs.physreg k → i = k
  inflight : ∀ p st, c.regs.state p = some st → st.InFlight → ∃ i ∈ c.order, c.regs.physreg i = p
  committed : ∀ a, ∃ st, c.regs.state (c.regs.commitrrt a) = some st ∧ st.Committed
  arch : ∀ a, ¬FlagReg a → c.regs.state (c.regs.commitrrt a) = some .arch
  arch_inj : ∀ a b, ¬FlagReg a → ¬FlagReg b → c.regs.commitrrt a = c.regs.commitrrt b →
    (c.regs.commitrrt a).nonnull = true → a = b
  arch_named : ∀ p, p.nonnull = true → c.regs.state p = some .arch →
    ∃ a, ¬FlagReg a ∧ c.regs.commitrrt a = p
  spec : c.regs.specrrt = c.replayed kept
  older : ∀ X i Y, c.order = X ++ i :: Y → ∀ o, c.Source X (c.regs.operands i o)
  rs_mem : ∀ i ∈ c.order, c.ls.lsq i = none → (c.regs.operands i RS).nonnull = false

/-- What waits to be dispatched has no `rs` operand yet. -/
def Core.EarlyNull (c : Core) (S : List ℕ) : Prop :=
  ∀ i ∈ c.order, i ∉ S → c.Early i → (c.regs.operands i RS).nonnull = false

section

variable {c c' : Core} {i k : ℕ} {p q : PhysReg} {st : PhysState} {X Y l kept order : List ℕ}
  {a : Reg} {o : Operand}

theorem PhysState.InFlight.not_committed (h : st.InFlight) : ¬st.Committed := by
  rintro (rfl | rfl) <;> rcases h with h | h | h <;> cases h

theorem replayed_cases (c : Core) (l : List ℕ) (a : Reg) :
    c.replayed l a = c.regs.commitrrt a ∨ ∃ k ∈ l, c.regs.physreg k = c.replayed l a := by
  induction l using List.reverseRecOn with
  | nil => exact .inl rfl
  | append_singleton l i ih =>
    have heq : c.replayed (l ++ [i]) a =
        if a ∈ destRegs (c.uop i).op then c.regs.physreg i else c.replayed l a := by
      unfold Core.replayed
      rw [List.foldl_append, List.foldl_cons, List.foldl_nil, mapTable_cases]
    rw [heq]
    split
    · exact .inr ⟨i, by simp, rfl⟩
    · rcases ih with h | ⟨k, hk, h⟩
      · exact .inl h
      · exact .inr ⟨k, List.mem_append_left _ hk, h⟩

theorem replayed_congr (hcommit : c'.regs.commitrrt = c.regs.commitrrt)
    (h : ∀ k ∈ l, destRegs (c'.uop k).op = destRegs (c.uop k).op ∧
      c'.regs.physreg k = c.regs.physreg k) : c'.replayed l = c.replayed l := by
  induction l using List.reverseRecOn with
  | nil => exact hcommit
  | append_singleton l i ih =>
    have ih := ih fun k hk => h k (List.mem_append_left _ hk)
    unfold Core.replayed at ih ⊢
    rw [List.foldl_append, List.foldl_append, ih]
    obtain ⟨hd, hp⟩ := h i (by simp)
    simp only [List.foldl_cons, List.foldl_nil, mapTable, hd, hp]

namespace RenamedAt

/-- A name of the speculative table. -/
theorem source_spec (h : RenamedAt kept c) (a : Reg) : c.Source kept (c.regs.specrrt a) := by
  rw [h.spec]
  rcases replayed_cases c kept a with ha | ⟨k, hk, hka⟩
  · rw [ha]; exact .inl (h.committed a)
  · exact .inr ⟨k, hk, hka⟩

theorem state_source (h : RenamedAt kept c) (hX : ∀ k ∈ X, k ∈ c.order) (hp : c.Source X p) :
    ∃ st, c.regs.state p = some st ∧ (st.InFlight ∨ st.Committed) := by
  rcases hp with ⟨st, hst, hc⟩ | ⟨k, hk, rfl⟩
  · exact ⟨st, hst, .inr hc⟩
  · obtain ⟨st, hst, hi⟩ := h.dest k (hX k hk)
    exact ⟨st, hst, .inl hi⟩

theorem null_state (h : RenamedAt kept c) (hp : p.nonnull = false) : c.regs.state p = some .arch := by
  obtain ⟨f, n⟩ := p
  have h0 : n = 0 := by simpa [PhysReg.nonnull] using hp
  rw [h0]
  exact h.zeros f

theorem refcount_uses (h : RenamedAt kept c) (hp : p.nonnull = true) :
    c.regs.refcount p = c.regs.uses c.order p := by
  have := h.counted p hp
  unfold Regs.slack at this
  omega

/-- Nothing names a register that is not allocated. -/
theorem unnamed (h : RenamedAt kept c) (hkept : ∀ k ∈ kept, k ∈ c.order)
    (hst : c.regs.state p = none ∨ c.regs.state p = some .free) :
    (∀ a, c.regs.specrrt a ≠ p) ∧ (∀ a, c.regs.commitrrt a ≠ p) ∧
      ∀ i ∈ c.order, c.regs.physreg i ≠ p ∧ ∀ o, c.regs.operands i o ≠ p := by
  -- what is named is in flight or committed
  have hne : ∀ X q, (∀ k ∈ X, k ∈ c.order) → c.Source X q → q ≠ p := by
    rintro X q hX hq rfl
    obtain ⟨st, hs, hf⟩ := h.state_source hX hq
    rcases hst with hst | hst
    · rw [hst] at hs; cases hs
    · rw [hst] at hs
      rw [← Option.some.inj hs] at hf
      rcases hf with (hf | hf | hf) | (hf | hf) <;> cases hf
  refine ⟨fun a => hne kept _ hkept (h.source_spec a), fun a => hne [] _ (by simp) (.inl (h.committed a)),
    fun i hi => ⟨hne c.order _ (fun _ hk => hk) (.inr ⟨i, hi, rfl⟩), fun o => ?_⟩⟩
  obtain ⟨A, B, hAB⟩ := List.append_of_mem hi
  exact hne A _ (fun k hk => by rw [hAB]; exact List.mem_append_left _ hk) (h.older A i B hAB o)

/-- The registers stay as they are. -/
theorem frame (h : RenamedAt kept c) (hord : c'.order = c.order)
    (huop : ∀ k, SameRole (c.uop k) (c'.uop k)) (hlsq : c'.ls.lsq = c.ls.lsq)
    (hregs : c'.regs = c.regs) : RenamedAt kept c' := by
  have hsrc : ∀ X p, c'.Source X p ↔ c.Source X p := fun X p => by unfold Core.Source; rw [hregs]
  refine ⟨hregs ▸ h.lists_wf, hregs ▸ h.range, by rw [hregs, hord]; exact h.counted, hregs ▸ h.zeros,
    by rw [hregs, hord]; exact h.dest, by rw [hregs, hord]; exact h.inj,
    by rw [hregs, hord]; exact h.inflight, hregs ▸ h.committed, hregs ▸ h.arch, hregs ▸ h.arch_inj,
    hregs ▸ h.arch_named, ?_, fun X i Y hc o => ?_, by rw [hregs, hord, hlsq]; exact h.rs_mem⟩
  · rw [hregs, h.spec]
    exact (replayed_congr (by rw [hregs]) fun k _ => ⟨(huop k).destRegs, by rw [hregs]⟩).symm
  · rw [hregs, hsrc]
    exact h.older X i Y (hord ▸ hc) o

/-- Names move between entries of the same list of sources. -/
theorem operands (h : RenamedAt kept c) (hord : c'.order = c.order)
    (huop : ∀ k, SameRole (c.uop k) (c'.uop k)) (hlists : c'.regs.lists = c.regs.lists)
    (hcommit : c'.regs.commitrrt = c.regs.commitrrt) (hspec : c'.regs.specrrt = c.regs.specrrt)
    (hphys : c'.regs.physreg = c.regs.physreg)
    (hslack : ∀ p, p.nonnull = true → c'.regs.slack c.order p = c.regs.slack c.order p)
    (hops : ∀ X i Y, c.order = X ++ i :: Y → ∀ o, c'.regs.operands i o = c.regs.operands i o ∨
      c.Source X (c'.regs.operands i o))
    (hrs : ∀ i ∈ c.order, c'.ls.lsq i = none → (c'.regs.operands i RS).nonnull = false) :
    RenamedAt kept c' := by
  have hstate : ∀ p, c'.regs.state p = c.regs.state p := fun p => by unfold Regs.state; rw [hlists]
  have hsrc : ∀ X p, c'.Source X p ↔ c.Source X p := fun X p => by
    unfold Core.Source; rw [hphys]; simp only [hstate]
  constructor
  case lists_wf => exact hlists ▸ h.lists_wf
  case range =>
    intro p
    rw [hstate]
    exact h.range p
  case counted =>
    intro p hp
    rw [hord, hslack p hp]
    exact h.counted p hp
  case zeros =>
    intro f
    rw [hstate]
    exact h.zeros f
  case dest =>
    intro i hi
    rw [hord] at hi; rw [hstate, hphys]; exact h.dest i hi
  case inj =>
    rw [hord, hphys]
    exact h.inj
  case inflight =>
    intro p st hst hf
    rw [hstate] at hst; rw [hord, hphys]; exact h.inflight p st hst hf
  case committed =>
    intro a
    rw [hstate, hcommit]
    exact h.committed a
  case arch =>
    intro a ha
    rw [hstate, hcommit]
    exact h.arch a ha
  case arch_inj =>
    rw [hcommit]
    exact h.arch_inj
  case arch_named =>
    intro p hp hst
    rw [hstate] at hst; rw [hcommit]; exact h.arch_named p hp hst
  case spec =>
    rw [hspec, h.spec]
    exact (replayed_congr hcommit fun k _ => ⟨(huop k).destRegs, by rw [hphys]⟩).symm
  case older =>
    intro X i Y hc o
    rw [hord] at hc
    rw [hsrc]
    rcases hops X i Y hc o with heq | hs
    · rw [heq]; exact h.older X i Y hc o
    · exact hs
  case rs_mem =>
    rw [hord]
    exact hrs

/-- The result of an entry in flight moves on. -/
theorem settle (h : RenamedAt kept c) (hord : c'.order = c.order)
    (huop : ∀ k, SameRole (c.uop k) (c'.uop k)) (hlsq : c'.ls.lsq = c.ls.lsq) (hi : i ∈ c.order)
    (hst : st.InFlight) (hregs : c'.regs = c.regs.changestate (c.regs.physreg i) st) :
    RenamedAt kept c' := by
  obtain ⟨st₀, hst₀, hf₀⟩ := h.dest i hi
  have hstate : ∀ p, c'.regs.state p = if p = c.regs.physreg i then some st else c.regs.state p :=
    fun p => by rw [hregs]; exact state_changestate _ p st
  have hother : ∀ p st', c.regs.state p = some st' → ¬st'.InFlight → c'.regs.state p = some st' := by
    intro p st' hp hn
    rw [hstate, if_neg]
    · exact hp
    · rintro rfl
      rw [hst₀] at hp
      exact hn (Option.some.inj hp ▸ hf₀)
  -- only the register of `i` changes, and it is in flight before and after
  have hkeep : ∀ p st', c.regs.state p = some st' → st'.Committed → c'.regs.state p = some st' :=
    fun p st' hp hc => hother p st' hp fun hf => hf.not_committed hc
  have hback : ∀ p st', c'.regs.state p = some st' → ¬st'.InFlight → c.regs.state p = some st' := by
    intro p st' hp hn
    rw [hstate] at hp
    split at hp
    · exact absurd (Option.some.inj hp ▸ hst) hn
    · exact hp
  have hphys : c'.regs.physreg = c.regs.physreg := by rw [hregs]; rfl
  have hsrc : ∀ X p, c.Source X p → c'.Source X p := by
    rintro X p (⟨st', hp, hc⟩ | hp)
    · exact .inl ⟨st', hkeep p st' hp hc, hc⟩
    · exact .inr (by rw [hphys]; exact hp)
  have harch : ¬PhysState.InFlight .arch := fun hf => hf.not_committed (.inl rfl)
  constructor
  case lists_wf => rw [hregs]; exact lists_wf_changestate h.lists_wf _ _
  case range =>
    intro p
    rw [hstate]
    split
    · rename_i hpi
      subst hpi
      have := h.range (c.regs.physreg i)
      rw [hst₀] at this
      simpa using this
    · exact h.range p
  case counted =>
    intro p hp
    rw [hregs, hord]
    exact h.counted p hp
  case zeros => exact fun f => hother _ _ (h.zeros f) harch
  case dest =>
    intro k hk
    rw [hord] at hk
    rw [hphys, hstate]
    split
    · exact ⟨st, rfl, hst⟩
    · exact h.dest k hk
  case inj => rw [hord, hphys]; exact h.inj
  case inflight =>
    intro p st' hp hf
    rw [hstate] at hp
    rw [hord, hphys]
    split at hp
    · rename_i hpi; exact ⟨i, hi, hpi.symm⟩
    · exact h.inflight p st' hp hf
  case committed =>
    intro a
    obtain ⟨st', hp, hc⟩ := h.committed a
    rw [hregs] at *
    exact ⟨st', hkeep _ st' hp hc, hc⟩
  case arch =>
    intro a ha
    rw [show c'.regs.commitrrt = c.regs.commitrrt by rw [hregs]; rfl]
    exact hother _ _ (h.arch a ha) harch
  case arch_inj =>
    rw [show c'.regs.commitrrt = c.regs.commitrrt by rw [hregs]; rfl]
    exact h.arch_inj
  case arch_named =>
    intro p hp hst'
    rw [show c'.regs.commitrrt = c.regs.commitrrt by rw [hregs]; rfl]
    exact h.arch_named p hp (hback p _ hst' harch)
  case spec =>
    rw [show c'.regs.specrrt = c.regs.specrrt by rw [hregs]; rfl, h.spec]
    exact (replayed_congr (by rw [hregs]; rfl) fun k _ => ⟨(huop k).destRegs, by rw [hphys]⟩).symm
  case older =>
    intro X k Y hc o
    rw [hord] at hc
    rw [show c'.regs.operands = c.regs.operands by rw [hregs]; rfl]
    exact hsrc X _ (h.older X k Y hc o)
  case rs_mem =>
    rw [hord, hlsq, show c'.regs.operands = c.regs.operands by rw [hregs]; rfl]
    exact h.rs_mem

/-- A committed register that nothing names is freed. -/
theorem freeUnused (h : RenamedAt kept c) (hord : c'.order = c.order)
    (huop : c'.uop = c.uop) (hlsq : c'.ls.lsq = c.ls.lsq) (hp : c.regs.state p = some .pendingfree)
    (hu : c.regs.uses c.order p = 0) (hregs : c'.regs = c.regs.free p) : RenamedAt kept c' := by
  obtain ⟨-, hcommit, hops⟩ := Regs.not_named hu
  have hstate : ∀ q, c'.regs.state q = if q = p then some .free else c.regs.state q :=
    fun q => by rw [hregs]; exact state_free p q
  have hother : ∀ q, q ≠ p → c'.regs.state q = c.regs.state q := fun q hq => by rw [hstate, if_neg hq]
  -- a register in any other state is another one than the freed one
  have hne : ∀ q st', c.regs.state q = some st' → st' ≠ .pendingfree → q ≠ p := by
    rintro q st' hq hn rfl
    rw [hp] at hq
    exact hn (Option.some.inj hq).symm
  have hphys : c'.regs.physreg = c.regs.physreg := by rw [hregs]; rfl
  have hcom : c'.regs.commitrrt = c.regs.commitrrt := by rw [hregs]; rfl
  have hoper : c'.regs.operands = c.regs.operands := by rw [hregs]; rfl
  have hinf : ∀ q st', c.regs.state q = some st' → st'.InFlight → q ≠ p := fun q st' hq hf =>
    hne q st' hq (by rintro rfl; exact hf.not_committed (.inr rfl))
  constructor
  case lists_wf => rw [hregs]; exact lists_wf_changestate h.lists_wf _ _
  case range =>
    intro q
    rw [hstate]
    split
    · rename_i hqp
      subst hqp
      have := h.range q
      rw [hp] at this
      simpa using this
    · exact h.range q
  case counted =>
    intro q hq
    rw [hregs, hord, slack_free hu]
    split
    · rfl
    · exact h.counted q hq
  case zeros =>
    intro f
    rw [hother _ (hne _ _ (h.zeros f) (by simp))]; exact h.zeros f
  case dest =>
    intro k hk
    rw [hord] at hk
    obtain ⟨st', hst', hf⟩ := h.dest k hk
    rw [hphys, hother _ (hinf _ _ hst' hf)]
    exact ⟨st', hst', hf⟩
  case inj => rw [hord, hphys]; exact h.inj
  case inflight =>
    intro q st' hq hf
    rw [hstate] at hq
    rw [hord, hphys]
    split at hq
    · rw [← Option.some.inj hq] at hf
      rcases hf with hf | hf | hf <;> cases hf
    · exact h.inflight q st' hq hf
  case committed =>
    intro a
    rw [hcom, hother _ (hcommit a)]; exact h.committed a
  case arch =>
    intro a ha
    rw [hcom, hother _ (hcommit a)]; exact h.arch a ha
  case arch_inj => rw [hcom]; exact h.arch_inj
  case arch_named =>
    intro q hq hst'
    rw [hstate] at hst'
    rw [hcom]
    split at hst'
    · cases hst'
    · exact h.arch_named q hq hst'
  case spec =>
    rw [show c'.regs.specrrt = c.regs.specrrt by rw [hregs]; rfl, h.spec]
    exact (replayed_congr hcom fun k _ => ⟨by rw [huop], by rw [hphys]⟩).symm
  case older =>
    intro X k Y hc o
    rw [hord] at hc
    have hk : k ∈ c.order := by rw [hc]; simp
    rw [hoper]
    rcases h.older X k Y hc o with ⟨st', hst', hcm⟩ | hs
    · exact .inl ⟨st', by rw [hother _ (hops k hk o)]; exact hst', hcm⟩
    · exact .inr (by rw [hphys]; exact hs)
  case rs_mem => rw [hord, hlsq, hoper]; exact h.rs_mem

/-- The pending registers nothing refers to are freed. -/
theorem recycle (h : RenamedAt kept c) : RenamedAt kept { c with regs := c.regs.recycle } := by
  have hfile : ∀ (f : FileId) (l : List ℕ) (r : Regs), l.Nodup → RenamedAt kept { c with regs := r } →
      (∀ i ∈ l, r.state ⟨f, i⟩ = some .pendingfree) →
      RenamedAt kept { c with
        regs := l.foldl (fun r i => if r.referenced ⟨f, i⟩ then r else r.free ⟨f, i⟩) r } := by
    intro f l
    induction l with
    | nil => exact fun r _ hr _ => hr
    | cons i l ih =>
      intro r hnd hr hl
      obtain ⟨hi, hnd⟩ := List.nodup_cons.1 hnd
      have hpi := hl i List.mem_cons_self
      rw [List.foldl_cons]
      split
      · exact ih r hnd hr fun j hj => hl j (List.mem_cons_of_mem i hj)
      · rename_i href
        have hnn : PhysReg.nonnull ⟨f, i⟩ = true := by
          unfold PhysReg.nonnull
          rw [bne_iff_ne]
          rintro h0
          dsimp only at h0
          subst h0
          have := hr.zeros f
          change r.state ⟨f, 0⟩ = _ at this
          rw [hpi] at this
          cases this
        have hc := hr.counted ⟨f, i⟩ hnn
        -- no reference is counted and the count is exact, so nothing in flight names the register
        have hu : r.uses c.order ⟨f, i⟩ = 0 := by
          unfold Regs.referenced at href
          unfold Regs.slack at hc
          change r.refcount ⟨f, i⟩ - (r.uses c.order ⟨f, i⟩ : ℤ) = 0 at hc
          simp only [gt_iff_lt, decide_eq_true_eq, not_lt] at href
          omega
        refine ih _ hnd (hr.freeUnused (c := { c with regs := r }) rfl rfl rfl hpi hu rfl) fun j hj => ?_
        rw [state_free, if_neg]
        · exact hl j (List.mem_cons_of_mem i hj)
        · rintro heq
          rw [PhysReg.mk.injEq] at heq
          exact hi (heq.2 ▸ hj)
  have hall : ∀ (l : List FileId) (r : Regs), RenamedAt kept { c with regs := r } →
      RenamedAt kept { c with regs := l.foldl (fun r f => r.recycleFile f) r } := by
    intro l
    induction l with
    | nil => exact fun r hr => hr
    | cons f l ih =>
      intro r hr
      exact ih _ (hfile f _ r ((hr.lists_wf f).nodup _) hr fun i hi => ((hr.lists_wf f).mem_iff i _).1 hi)
  exact hall _ c.regs h

/-! ### Rename -/

theorem peekFree_state (h : RenamedAt kept c) {f : FileId} (hp : c.regs.peekFree f = some p) :
    c.regs.state p = some .free := by
  obtain ⟨i, hi, rfl⟩ := Option.map_eq_some_iff.1 hp
  exact ((h.lists_wf f).mem_iff i _).1 (List.mem_of_mem_head? hi)

theorem lsq_renameLsq (c : Core) (t : ℕ) (op : TransOp) (hk : k ≠ t) :
    (c.renameLsq t op).lsq k = c.ls.lsq k := by
  cases hm : (isload op.opcode || isstore op.opcode) with
  | false => rw [(renameLsq_other c t hm).2.1, Function.update_of_ne hk]
  | true => rw [(renameLsq_slot c t hm).2.1, Function.update_of_ne hk]

/-- What the renaming of an entry at the tail `t` into the free register `p` leaves. -/
structure Renames (c c' : Core) (t : ℕ) (op : TransOp) (p : PhysReg) : Prop where
  order' : c'.order = c.order ++ [t]
  ne : ∀ k ∈ c.order, k ≠ t
  free : c.regs.state p = some .free
  uop : (c'.uop t).op = op
  uop_ne : ∀ k, k ≠ t → c'.uop k = c.uop k
  lsq : ∀ k, k ≠ t → c'.ls.lsq k = c.ls.lsq k
  specrrt : c'.regs.specrrt = mapTable op p c.regs.specrrt
  commitrrt : c'.regs.commitrrt = c.regs.commitrrt
  physreg : c'.regs.physreg = Function.update c.regs.physreg t p
  operands_ne : ∀ k, k ≠ t → c'.regs.operands k = c.regs.operands k
  operands_new : ∀ o, c'.regs.operands t o = PhysReg.null ∨ ∃ a, c'.regs.operands t o = c.regs.specrrt a
  operands_rs : c'.regs.operands t RS = PhysReg.null
  lists_wf : ∀ f, (c'.regs.lists f).WF
  slack : ∀ q, c'.regs.slack (c.order ++ [t]) q = c.regs.slack c.order q
  state : ∀ q, c'.regs.state q = if q = p then some .waiting else c.regs.state q

theorem renames (h : RenamedAt c.order c) (hring : c.ring.WF ROB_SIZE)
    (hroom : 0 < c.ring.remaining ROB_SIZE) (uop : FetchBufferEntry) (rest : List FetchBufferEntry)
    (hp : c.regs.state p = some .free) :
    Renames c (c.renameUop uop rest p) c.ring.tail uop.op p := by
  obtain ⟨hnew, hold⟩ := renameUop_uop (c := c) uop rest p
  obtain ⟨hspec, hcom, hlists, hphys, hoper⟩ := renameEntry_eq (r := c.regs) c.ring.tail uop.op p
  have hslack : ∀ q, Regs.slack (c.renameUop uop rest p).regs (c.order ++ [c.ring.tail]) q =
      c.regs.slack c.order q := slack_renameEntry hring.tail_not_mem uop.op p
  have hregs : (c.renameUop uop rest p).regs = c.regs.renameEntry c.ring.tail uop.op p := rfl
  rw [← hregs] at hspec hcom hlists hphys hoper
  have hstate : ∀ q, (c.renameUop uop rest p).regs.state q =
      if q = p then some .waiting else c.regs.state q := by
    intro q
    rw [← state_changestate]
    unfold Regs.state
    rw [hlists]
  exact {
    order' := renameUop_order hring hroom uop rest p
    ne := fun k hk hkt => hring.tail_not_mem (hkt ▸ hk)
    free := hp
    uop := by rw [hnew]
    uop_ne := hold
    lsq := fun k hk => lsq_renameLsq c c.ring.tail uop.op hk
    specrrt := hspec
    commitrrt := hcom
    physreg := hphys
    operands_ne := fun k hk => by rw [hoper, Function.update_of_ne hk]
    operands_new := by
      intro o
      rw [hoper, Function.update_self]
      split
      · exact .inr ⟨_, rfl⟩
      split
      · exact .inr ⟨_, rfl⟩
      split
      · exact .inr ⟨_, rfl⟩
      · exact .inl rfl
    operands_rs := by
      rw [hoper, Function.update_self]
      rfl
    lists_wf := by
      rw [hlists]
      exact lists_wf_changestate h.lists_wf _ _
    slack := hslack
    state := hstate }

namespace Renames

variable {t : ℕ} {op : TransOp} (hd : Renames c c' t op p)

include hd

theorem state_new : c'.regs.state p = some .waiting := by
  rw [hd.state, if_pos rfl]

theorem state_other {q : PhysReg} {st' : PhysState} (hq : c.regs.state q = some st')
    (hn : st' ≠ .free) : c'.regs.state q = some st' := by
  rw [hd.state, if_neg]
  · exact hq
  · rintro rfl
    rw [hd.free] at hq
    exact hn (Option.some.inj hq).symm

theorem state_committed {q : PhysReg} {st' : PhysState} (hq : c.regs.state q = some st')
    (hc : st'.Committed) : c'.regs.state q = some st' :=
  hd.state_other hq (by rcases hc with rfl | rfl <;> simp)

theorem physreg_new : c'.regs.physreg t = p := by
  rw [hd.physreg, Function.update_self]

theorem physreg_ne (hk : k ≠ t) : c'.regs.physreg k = c.regs.physreg k := by
  rw [hd.physreg, Function.update_of_ne hk]

theorem mem_cases (hk : k ∈ c'.order) : k ∈ c.order ∨ k = t := by
  rw [hd.order', List.mem_append, List.mem_singleton] at hk
  exact hk

/-- What the older entries name they still name. -/
theorem source {X : List ℕ} {q : PhysReg} (hX : ∀ k ∈ X, k ≠ t) (hq : c.Source X q) :
    c'.Source X q := by
  rcases hq with ⟨st', hq, hc⟩ | ⟨k, hk, hkq⟩
  · exact .inl ⟨st', hd.state_committed hq hc, hc⟩
  · exact .inr ⟨k, hk, by rw [hd.physreg_ne (hX k hk)]; exact hkq⟩

variable (h : RenamedAt c.order c)

include h

/-- The register taken is no entry's: those are in flight. -/
theorem physreg_ne_new (hk : k ∈ c.order) : c.regs.physreg k ≠ p := by
  intro hkp
  obtain ⟨st', hst', hf⟩ := h.dest k hk
  rw [hkp, hd.free] at hst'
  rcases hf with hf | hf | hf <;> · rw [hf] at hst'; cases hst'

theorem range (q : PhysReg) : c'.regs.state q = none ↔ FileId.size q.rfid ≤ q.idx := by
  rw [hd.state]
  split
  · rename_i hqp
    subst hqp
    have := h.range q
    rw [hd.free] at this
    simpa using this
  · exact h.range q

theorem dest (hk : k ∈ c'.order) :
    ∃ st', c'.regs.state (c'.regs.physreg k) = some st' ∧ st'.InFlight := by
  rcases hd.mem_cases hk with hk | rfl
  · obtain ⟨st', hst', hf⟩ := h.dest k hk
    have hfree : st' ≠ .free := by rcases hf with rfl | rfl | rfl <;> simp
    exact ⟨st', by rw [hd.physreg_ne (hd.ne k hk)]; exact hd.state_other hst' hfree, hf⟩
  · exact ⟨.waiting, by rw [hd.physreg_new]; exact hd.state_new, .inl rfl⟩

theorem inj {k m : ℕ} (hk : k ∈ c'.order) (hm : m ∈ c'.order)
    (hkm : c'.regs.physreg k = c'.regs.physreg m) : k = m := by
  rcases hd.mem_cases hk with hk | rfl <;> rcases hd.mem_cases hm with hm | rfl
  · rw [hd.physreg_ne (hd.ne k hk), hd.physreg_ne (hd.ne m hm)] at hkm
    exact h.inj k hk m hm hkm
  · rw [hd.physreg_ne (hd.ne k hk), hd.physreg_new] at hkm
    exact absurd hkm (hd.physreg_ne_new h hk)
  · rw [hd.physreg_ne (hd.ne m hm), hd.physreg_new] at hkm
    exact absurd hkm.symm (hd.physreg_ne_new h hm)
  · rfl

theorem inflight {q : PhysReg} {st' : PhysState} (hq : c'.regs.state q = some st')
    (hf : st'.InFlight) : ∃ k ∈ c'.order, c'.regs.physreg k = q := by
  rw [hd.state] at hq
  rw [hd.order']
  split at hq
  · rename_i hqp
    exact ⟨t, by simp, by rw [hd.physreg_new, hqp]⟩
  · obtain ⟨k, hk, hkq⟩ := h.inflight q st' hq hf
    exact ⟨k, List.mem_append_left _ hk, by rw [hd.physreg_ne (hd.ne k hk)]; exact hkq⟩

theorem committed (a : Reg) :
    ∃ st', c'.regs.state (c'.regs.commitrrt a) = some st' ∧ st'.Committed := by
  obtain ⟨st', hst', hc⟩ := h.committed a
  rw [hd.commitrrt]
  exact ⟨st', hd.state_committed hst' hc, hc⟩

theorem arch_named {q : PhysReg} (hq : q.nonnull = true) (hqa : c'.regs.state q = some .arch) :
    ∃ a, ¬FlagReg a ∧ c'.regs.commitrrt a = q := by
  rw [hd.commitrrt]
  rw [hd.state] at hqa
  split at hqa
  · cases hqa
  · exact h.arch_named q hq hqa

/-- The new entry is the last of the replay. -/
theorem spec : c'.regs.specrrt = c'.replayed c'.order := by
  have hrep : c'.replayed c.order = c.replayed c.order :=
    replayed_congr hd.commitrrt fun k hk =>
      ⟨by rw [hd.uop_ne k (hd.ne k hk)], hd.physreg_ne (hd.ne k hk)⟩
  rw [hd.specrrt, h.spec, hd.order', ← hrep]
  unfold Core.replayed
  rw [List.foldl_append, List.foldl_cons, List.foldl_nil, hd.uop, hd.physreg_new]

/-- The new entry reads what the speculative table names. -/
theorem source_new (o : Operand) : c'.Source c.order (c'.regs.operands t o) := by
  refine hd.source hd.ne ?_
  rcases hd.operands_new o with ho | ⟨a, ho⟩
  · rw [ho]
    exact .inl ⟨.arch, h.zeros fileInt, .inl rfl⟩
  · rw [ho]
    exact h.source_spec a

theorem older {X Y : List ℕ} (hc : c'.order = X ++ k :: Y) (o : Operand) :
    c'.Source X (c'.regs.operands k o) := by
  rw [hd.order'] at hc
  rcases Y.eq_nil_or_concat with rfl | ⟨Y, y, rfl⟩
  · obtain ⟨rfl, hkt⟩ := List.append_inj' hc rfl
    rw [List.cons.injEq] at hkt
    obtain ⟨rfl, -⟩ := hkt
    exact hd.source_new h o
  · have hc' : c.order ++ [t] = (X ++ k :: Y) ++ [y] := by rw [hc]; simp
    obtain ⟨hXY, -⟩ := List.append_inj' hc' rfl
    have hk : k ∈ c.order := by rw [hXY]; simp
    have hX : ∀ j ∈ X, j ≠ t := fun j hj => hd.ne j (by rw [hXY]; exact List.mem_append_left _ hj)
    rw [hd.operands_ne k (hd.ne k hk)]
    exact hd.source hX (h.older X k Y hXY o)

theorem rs_mem (hk : k ∈ c'.order) (hl : c'.ls.lsq k = none) :
    (c'.regs.operands k RS).nonnull = false := by
  rcases hd.mem_cases hk with hk | rfl
  · rw [hd.lsq k (hd.ne k hk)] at hl
    rw [hd.operands_ne k (hd.ne k hk)]
    exact h.rs_mem k hk hl
  · rw [hd.operands_rs]
    rfl

end Renames

/-- The new entry waits in the register it takes and reads what the speculative table names. -/
theorem rename (h : RenamedAt c.order c) (hring : c.ring.WF ROB_SIZE)
    (hroom : 0 < c.ring.remaining ROB_SIZE) {uop : FetchBufferEntry} {rest : List FetchBufferEntry}
    (hp : c.regs.state p = some .free) :
    RenamedAt (c.renameUop uop rest p).order (c.renameUop uop rest p) := by
  have hd := h.renames hring hroom uop rest hp
  constructor
  case lists_wf => exact hd.lists_wf
  case range => exact hd.range h
  case counted =>
    intro q hq
    rw [hd.order', hd.slack]
    exact h.counted q hq
  case zeros => exact fun f => hd.state_other (h.zeros f) (by simp)
  case dest => exact fun k hk => hd.dest h hk
  case inj => exact fun k hk m hm hkm => hd.inj h hk hm hkm
  case inflight => exact fun q st' hq hf => hd.inflight h hq hf
  case committed => exact hd.committed h
  case arch =>
    intro a ha
    rw [hd.commitrrt]
    exact hd.state_other (h.arch a ha) (by simp)
  case arch_inj =>
    rw [hd.commitrrt]
    exact h.arch_inj
  case arch_named => exact fun q hq hqa => hd.arch_named h hq hqa
  case spec => exact hd.spec h
  case older => exact fun X k Y hc o => hd.older h hc o
  case rs_mem => exact fun k hk hl => hd.rs_mem h hk hl

/-! ### Commit -/

theorem mem_destRegs {op : TransOp} (ha : a ∈ destRegs op) : a = op.rd ∨ FlagReg a := by
  unfold destRegs flagRegs FlagReg at *
  rcases List.mem_append.1 ha with ha | ha
  · split at ha
    · exact .inl (List.mem_singleton.1 ha)
    · cases ha
  · split at ha
    · cases ha
    · simp only [List.mem_append] at ha
      rcases ha with (ha | ha) | ha <;>
        · split at ha <;> simp_all

theorem rd_mem_destRegs {op : TransOp} (hrd : op.rd ≠ Reg.zero) : op.rd ∈ destRegs op := by
  simp [destRegs, archdestCanCommit, hrd]

theorem lsq_giveBack (ls : LoadStore) (i : ℕ) (op : TransOp) (ring : CircQueue) :
    (ls.giveBack i op ring).lsq = ls.lsq := by
  unfold LoadStore.giveBack
  split
  · rfl
  · split
    · dsimp only; split <;> rfl
    · rfl

/-- A commit gives back the slot of its own entry only. -/
theorem lsq_retire (c : Core) (hk : k ≠ i) : (c.retire i).ls.lsq k = c.ls.lsq k := by
  obtain ⟨-, -, -, -, -, hls, -⟩ := retire_frame c i
  rw [hls]
  show Function.update (c.ls.giveBack i _ _).lsq i none k = _
  rw [Function.update_of_ne hk, lsq_giveBack]

/-- What the commit of the head `i` leaves: its register holds the committed value of its
destinations, and the register that its `rd` named before is in the state `st`. -/
structure Retires (c c' : Core) (i : ℕ) (rest : List ℕ) (st : PhysState) : Prop where
  order : c.order = i :: rest
  order' : c'.order = rest
  ne : ∀ k ∈ rest, k ≠ i
  wf : (c.uop i).op.WF
  uop : c'.uop = c.uop
  lsq : ∀ k, k ≠ i → c'.ls.lsq k = c.ls.lsq k
  specrrt : c'.regs.specrrt = c.regs.specrrt
  commitrrt : c'.regs.commitrrt = mapTable (c.uop i).op (c.regs.physreg i) c.regs.commitrrt
  physreg : c'.regs.physreg = c.regs.physreg
  operands : c'.regs.operands = c.regs.operands
  lists_wf : ∀ f, (c'.regs.lists f).WF
  counted : ∀ q, q.nonnull = true → c'.regs.slack rest q = 0
  state : ∀ q, c'.regs.state q = if q = c.regs.physreg i then some .arch
    else if q = c.regs.commitrrt (c.uop i).op.rd ∧ q.nonnull = true then some st else c.regs.state q
  left : st = .pendingfree ∨ st = .free ∧
    (∀ a, c'.regs.commitrrt a ≠ c.regs.commitrrt (c.uop i).op.rd) ∧
      ∀ k ∈ c.order, ∀ o, c.regs.operands k o ≠ c.regs.commitrrt (c.uop i).op.rd

theorem retires (h : RenamedAt c.order c) (hring : c.ring.WF ROB_SIZE) {rest : List ℕ}
    (hord : c.order = i :: rest) (hwf : (c.uop i).op.WF) : ∃ st, Retires c (c.retire i) i rest st := by
  obtain ⟨-, huop, -, hregs, -⟩ := retire_frame c i
  obtain ⟨hspec, hcom, hphys, hoper, hlists, hslack, st, hstate, hst⟩ := commitEntry_spec c.regs i
    hwf.rd_zero hwf.mem_flags (by rw [hord] : c.order.Perm (i :: rest)) h.lists_wf h.counted
  rw [← hregs] at hspec hcom hphys hoper hlists hslack hstate
  rw [← hcom] at hst
  have hirest : ∀ k ∈ rest, k ≠ i := by
    have hnd : c.order.Nodup := hring.nodup_order
    rw [hord] at hnd
    exact fun k hk hki => (List.nodup_cons.1 hnd).1 (hki ▸ hk)
  exact ⟨st, hord, retire_order hring hord, hirest, hwf, huop, fun k hk => lsq_retire c hk, hspec, hcom, hphys, hoper,
    hlists, hslack, hstate, hst⟩

namespace Retires

variable {rest : List ℕ} (hd : Retires c c' i rest st)

include hd

theorem mem : i ∈ c.order := by
  rw [hd.order]
  exact List.mem_cons_self

theorem mem_rest (hk : k ∈ rest) : k ∈ c.order := by
  rw [hd.order]
  exact List.mem_cons_of_mem i hk

theorem committed_cases (a : Reg) : c'.regs.commitrrt a =
    if a ∈ destRegs (c.uop i).op then c.regs.physreg i else c.regs.commitrrt a := by
  rw [hd.commitrrt, mapTable_cases]

theorem state_self : c'.regs.state (c.regs.physreg i) = some .arch := by
  rw [hd.state, if_pos rfl]

theorem rd_not_flag : ¬FlagReg (c.uop i).op.rd := by
  rintro (hf | hf | hf)
  · exact hd.wf.rd_flags.1 hf
  · exact hd.wf.rd_flags.2.1 hf
  · exact hd.wf.rd_flags.2.2 hf

theorem not_inFlight : ¬st.InFlight := by
  rcases hd.left with rfl | ⟨rfl, -⟩ <;> · rintro (hf | hf | hf) <;> cases hf

variable (h : RenamedAt c.order c)

include h

/-- A committed register is not the head's, which is still in flight. -/
theorem ne_physreg {q : PhysReg} {st' : PhysState} (hq : c.regs.state q = some st')
    (hc : st'.Committed) : q ≠ c.regs.physreg i := by
  rintro rfl
  obtain ⟨stp, hstp, hpf⟩ := h.dest i hd.mem
  rw [hstp] at hq
  exact hpf.not_committed (Option.some.inj hq ▸ hc)

theorem state_old : c.regs.state (c.regs.commitrrt (c.uop i).op.rd) = some .arch :=
  h.arch _ hd.rd_not_flag

/-- What is named stays committed. -/
theorem keeps {q : PhysReg} {st' : PhysState} (hq : c.regs.state q = some st') (hc : st'.Committed)
    (hn : st = .free → q = c.regs.commitrrt (c.uop i).op.rd → False) :
    ∃ st'', c'.regs.state q = some st'' ∧ st''.Committed := by
  rw [hd.state, if_neg (hd.ne_physreg h hq hc)]
  split
  · rename_i hqo
    rcases hd.left with hst | ⟨hst, -⟩
    · exact ⟨st, rfl, .inr hst⟩
    · exact absurd hqo.1 (hn hst)
  · exact ⟨st', hq, hc⟩

/-- The registers in flight are neither the head's nor the one it replaces. -/
theorem flight (hk : k ∈ rest) :
    c'.regs.state (c.regs.physreg k) = c.regs.state (c.regs.physreg k) := by
  have hne : c.regs.physreg k ≠ c.regs.physreg i := fun heq =>
    hd.ne k hk (h.inj k (hd.mem_rest hk) i hd.mem heq)
  rw [hd.state, if_neg hne, if_neg]
  rintro ⟨heq, -⟩
  obtain ⟨st', hst', hf⟩ := h.dest k (hd.mem_rest hk)
  rw [heq, hd.state_old h] at hst'
  exact hf.not_committed (Option.some.inj hst' ▸ .inl rfl)

theorem range (q : PhysReg) : c'.regs.state q = none ↔ FileId.size q.rfid ≤ q.idx := by
  rw [hd.state]
  split
  · rename_i hqp
    subst hqp
    obtain ⟨stp, hstp, -⟩ := h.dest i hd.mem
    have := h.range (c.regs.physreg i)
    rw [hstp] at this
    simpa using this
  · split
    · rename_i hqo
      have := h.range q
      rw [hqo.1, hd.state_old h] at this
      rw [hqo.1]
      simpa using this
    · exact h.range q

theorem zeros (f : FileId) : c'.regs.state ⟨f, 0⟩ = some .arch := by
  rw [hd.state, if_neg (hd.ne_physreg h (h.zeros f) (.inl rfl)), if_neg]
  · exact h.zeros f
  · rintro ⟨-, hn⟩
    cases hn

theorem dest (hk : k ∈ c'.order) :
    ∃ st', c'.regs.state (c'.regs.physreg k) = some st' ∧ st'.InFlight := by
  rw [hd.order'] at hk
  rw [hd.physreg, hd.flight h hk]
  exact h.dest k (hd.mem_rest hk)

theorem inj {k m : ℕ} (hk : k ∈ c'.order) (hm : m ∈ c'.order)
    (hkm : c'.regs.physreg k = c'.regs.physreg m) : k = m := by
  rw [hd.order'] at hk hm
  rw [hd.physreg] at hkm
  exact h.inj k (hd.mem_rest hk) m (hd.mem_rest hm) hkm

theorem inflight {q : PhysReg} {st' : PhysState} (hq : c'.regs.state q = some st')
    (hf : st'.InFlight) : ∃ k ∈ c'.order, c'.regs.physreg k = q := by
  rw [hd.state] at hq
  rw [hd.order', hd.physreg]
  split at hq
  · exact absurd (Option.some.inj hq ▸ hf) fun hf => hf.not_committed (.inl rfl)
  · rename_i hqp
    split at hq
    · exact absurd (Option.some.inj hq ▸ hf) hd.not_inFlight
    · obtain ⟨k, hk, hkq⟩ := h.inflight q st' hq hf
      rw [hd.order, List.mem_cons] at hk
      rcases hk with rfl | hk
      · exact absurd hkq.symm hqp
      · exact ⟨k, hk, hkq⟩

theorem committed (a : Reg) :
    ∃ st', c'.regs.state (c'.regs.commitrrt a) = some st' ∧ st'.Committed := by
  by_cases ha : a ∈ destRegs (c.uop i).op
  · rw [hd.committed_cases, if_pos ha]
    exact ⟨.arch, hd.state_self, .inl rfl⟩
  · have heq : c'.regs.commitrrt a = c.regs.commitrrt a := by rw [hd.committed_cases, if_neg ha]
    obtain ⟨st', hst', hc⟩ := h.committed a
    rw [heq]
    refine hd.keeps h hst' hc fun hf ho => ?_
    rcases hd.left with hst | ⟨-, hn, -⟩
    · rw [hst] at hf
      cases hf
    · exact hn a (heq.trans ho)

theorem arch (a : Reg) (ha : ¬FlagReg a) : c'.regs.state (c'.regs.commitrrt a) = some .arch := by
  rw [hd.committed_cases]
  split
  · exact hd.state_self
  · rename_i had
    rw [hd.state, if_neg (hd.ne_physreg h (h.arch a ha) (.inl rfl)), if_neg]
    · exact h.arch a ha
    · rintro ⟨heq, hn⟩
      have := h.arch_inj a _ ha hd.rd_not_flag heq hn
      exact had (this ▸ rd_mem_destRegs hd.wf.rd_zero)

theorem arch_inj {a b : Reg} (ha : ¬FlagReg a) (hb : ¬FlagReg b)
    (hab : c'.regs.commitrrt a = c'.regs.commitrrt b) (hn : (c'.regs.commitrrt a).nonnull = true) :
    a = b := by
  -- of the destinations only `rd` is no flag
  have hrd : ∀ {x}, ¬FlagReg x → x ∈ destRegs (c.uop i).op → x = (c.uop i).op.rd := fun hx hm =>
    (mem_destRegs hm).resolve_right hx
  rw [hd.committed_cases] at hab hn
  rw [hd.committed_cases] at hab
  split at hab <;> rename_i had <;> split at hab <;> rename_i hbd
  · rw [hrd ha had, hrd hb hbd]
  · exact absurd hab.symm (hd.ne_physreg h (h.arch b hb) (.inl rfl))
  · exact absurd hab (hd.ne_physreg h (h.arch a ha) (.inl rfl))
  · rw [if_neg had] at hn
    exact h.arch_inj a b ha hb hab hn

theorem arch_named {q : PhysReg} (hq : q.nonnull = true) (hqa : c'.regs.state q = some .arch) :
    ∃ a, ¬FlagReg a ∧ c'.regs.commitrrt a = q := by
  rw [hd.state] at hqa
  split at hqa
  · rename_i hqp
    refine ⟨_, hd.rd_not_flag, ?_⟩
    rw [hd.committed_cases, if_pos (rd_mem_destRegs hd.wf.rd_zero), hqp]
  · split at hqa
    · rcases hd.left with rfl | ⟨rfl, -⟩ <;> cases hqa
    · rename_i hqo
      obtain ⟨a, ha, haq⟩ := h.arch_named q hq hqa
      refine ⟨a, ha, ?_⟩
      rw [hd.committed_cases, if_neg]
      · exact haq
      · intro had
        rcases mem_destRegs had with rfl | hf
        · exact hqo ⟨haq.symm, hq⟩
        · exact ha hf

/-- The head's destinations move from the replay into the table it starts from. -/
theorem spec : c'.regs.specrrt = c'.replayed rest := by
  rw [hd.specrrt, h.spec]
  unfold Core.replayed
  rw [hd.order, List.foldl_cons, hd.commitrrt, hd.uop, hd.physreg]

/-- What read the head's register reads a committed one now. -/
theorem older {X Y : List ℕ} (hc : c'.order = X ++ k :: Y) (o : Operand) :
    c'.Source X (c'.regs.operands k o) := by
  rw [hd.order'] at hc
  have hk : k ∈ c.order := hd.mem_rest (by rw [hc]; simp)
  have hc' : c.order = (i :: X) ++ k :: Y := by rw [hd.order, hc]; rfl
  rw [hd.operands]
  rcases h.older (i :: X) k Y hc' o with ⟨st', hst', hcm⟩ | ⟨j, hj, hjo⟩
  · refine .inl (hd.keeps h hst' hcm fun hf heq => ?_)
    rcases hd.left with hst | ⟨-, -, hn⟩
    · rw [hst] at hf
      cases hf
    · exact hn k hk o heq
  · rcases List.mem_cons.1 hj with rfl | hj
    · exact .inl ⟨.arch, hjo ▸ hd.state_self, .inl rfl⟩
    · exact .inr ⟨j, hj, by rw [hd.physreg]; exact hjo⟩

theorem rs_mem (hk : k ∈ c'.order) (hl : c'.ls.lsq k = none) :
    (c'.regs.operands k RS).nonnull = false := by
  rw [hd.order'] at hk
  rw [hd.lsq k (hd.ne k hk)] at hl
  rw [hd.operands]
  exact h.rs_mem k (hd.mem_rest hk) hl

end Retires

/-- The head commits: its register becomes the committed value of its destination, and
the register before it is pending or free. -/
theorem retire (h : RenamedAt c.order c) (hring : c.ring.WF ROB_SIZE) {rest : List ℕ}
    (hord : c.order = i :: rest) (hwf : (c.uop i).op.WF) : RenamedAt rest (c.retire i) := by
  obtain ⟨st, hd⟩ := h.retires hring hord hwf
  constructor
  case lists_wf => exact hd.lists_wf
  case range => exact hd.range h
  case counted =>
    intro q hq
    rw [hd.order']
    exact hd.counted q hq
  case zeros => exact hd.zeros h
  case dest => exact fun k hk => hd.dest h hk
  case inj => exact fun k hk m hm hkm => hd.inj h hk hm hkm
  case inflight => exact fun q st' hq hf => hd.inflight h hq hf
  case committed => exact hd.committed h
  case arch => exact hd.arch h
  case arch_inj => exact fun a b ha hb hab hn => hd.arch_inj h ha hb hab hn
  case arch_named => exact fun q hq hqa => hd.arch_named h hq hqa
  case spec => exact hd.spec h
  case older => exact fun X k Y hc o => hd.older h hc o
  case rs_mem => exact fun k hk hl => hd.rs_mem h hk hl

/-! ### Annulment -/

/-- After pass 2 the speculative table is that of the entries kept. -/
theorem restore (h : RenamedAt kept c) (X : List ℕ) (s : Sched) : RenamedAt X { c with
    sched := s
    regs := X.foldl (fun r i => r.mapSpec (c.uop i).op (r.physreg i)) c.regs.restoreSpec } := by
  obtain ⟨hs0, hc0, hsame0⟩ := restoreSpec_tables c.regs
  -- mapping the survivors again touches the speculative table and the counts that cancel in it
  have hfold : ∀ (l : List ℕ) (r : Regs),
      SameRegs r (l.foldl (fun r i => r.mapSpec (c.uop i).op (r.physreg i)) r) ∧
      (l.foldl (fun r i => r.mapSpec (c.uop i).op (r.physreg i)) r).commitrrt = r.commitrrt ∧
      (l.foldl (fun r i => r.mapSpec (c.uop i).op (r.physreg i)) r).specrrt =
        l.foldl (fun t i => mapTable (c.uop i).op (r.physreg i) t) r.specrrt ∧
      ∀ order q, (l.foldl (fun r i => r.mapSpec (c.uop i).op (r.physreg i)) r).slack order q =
        r.slack order q := by
    intro l
    induction l with
    | nil => exact fun r => ⟨.refl r, rfl, rfl, fun _ _ => rfl⟩
    | cons i l ih =>
      intro r
      obtain ⟨h1, h2, h3, h4⟩ := ih (r.mapSpec (c.uop i).op (r.physreg i))
      have hm := sameRegs_mapSpec (r := r) (c.uop i).op (r.physreg i)
      obtain ⟨hms, hmc⟩ := specrrt_mapSpec (r := r) (c.uop i).op (r.physreg i)
      refine ⟨hm.trans h1, h2.trans hmc, ?_, fun order q => (h4 order q).trans (slack_mapSpec _ _ _)⟩
      rw [List.foldl_cons, h3, hms, hm.physreg]
      rfl
  obtain ⟨h1, h2, h3, h4⟩ := hfold X c.regs.restoreSpec
  have hsame := hsame0.trans h1
  have hstate : ∀ p, Regs.state (X.foldl (fun r i => r.mapSpec (c.uop i).op (r.physreg i))
      c.regs.restoreSpec) p = c.regs.state p := hsame.state
  have hcom := h2.trans hc0
  rw [hs0, hsame0.physreg] at h3
  have hslack : ∀ q, _ = c.regs.slack c.order q := fun q => (h4 c.order q).trans (slack_restoreSpec q)
  generalize X.foldl (fun r i => r.mapSpec (c.uop i).op (r.physreg i)) c.regs.restoreSpec = r at *
  have hsrc : ∀ Z p, c.Source Z p → Core.Source { c with sched := s, regs := r } Z p := by
    intro Z p hp
    unfold Core.Source at *
    dsimp only
    rw [hsame.physreg]
    simp only [hstate]
    exact hp
  constructor
  case lists_wf => exact hsame.lists ▸ h.lists_wf
  case range =>
    intro p
    rw [hstate]
    exact h.range p
  case counted =>
    intro q hq
    exact (hslack q).trans (h.counted q hq)
  case zeros =>
    intro f
    rw [hstate]
    exact h.zeros f
  case dest =>
    intro i hi
    rw [hstate, hsame.physreg]
    exact h.dest i hi
  case inj =>
    rw [hsame.physreg]
    exact h.inj
  case inflight =>
    intro p st hst hf
    rw [hstate] at hst; rw [hsame.physreg]; exact h.inflight p st hst hf
  case committed =>
    intro a
    rw [hstate, hcom]
    exact h.committed a
  case arch =>
    intro a ha
    rw [hstate, hcom]
    exact h.arch a ha
  case arch_inj =>
    rw [hcom]
    exact h.arch_inj
  case arch_named =>
    intro p hp hst
    rw [hstate] at hst; rw [hcom]; exact h.arch_named p hp hst
  case spec =>
    rw [h3]
    unfold Core.replayed
    dsimp only
    rw [hcom, hsame.physreg]
  case older =>
    intro Z i Y hc o
    dsimp only
    rw [hsame.operands]
    exact hsrc Z _ (h.older Z i Y hc o)
  case rs_mem =>
    rw [hsame.operands]
    exact h.rs_mem

theorem lsq_annulEntry (c : Core) (hk : k ≠ i) : (c.annulEntry i).ls.lsq k = c.ls.lsq k := by
  show Function.update (c.ls.giveBack i _ _).lsq i none k = _
  rw [Function.update_of_ne hk, lsq_giveBack]

/-- What is named before the youngest entry is not its register. -/
theorem source_ne_last (h : RenamedAt kept c) (hring : c.ring.WF ROB_SIZE) (hord : c.order = X ++ [i])
    {Z : List ℕ} (hZ : ∀ k ∈ Z, k ∈ X) (hq : c.Source Z q) : q ≠ c.regs.physreg i := by
  have hi : i ∈ c.order := by rw [hord]; simp
  obtain ⟨stp, hstp, hpf⟩ := h.dest i hi
  rintro rfl
  rcases hq with ⟨st', hq, hc⟩ | ⟨k, hk, hki⟩
  · rw [hstp] at hq
    exact hpf.not_committed (Option.some.inj hq ▸ hc)
  · have hkX := hZ k hk
    have hki : k = i := h.inj k (by rw [hord]; exact List.mem_append_left _ hkX) i hi hki
    have hnd : c.order.Nodup := hring.nodup_order
    rw [hord] at hnd
    exact (List.disjoint_of_nodup_append hnd) (hki ▸ hkX) List.mem_cons_self

/-- The youngest entry is annulled with its register, which only younger ones named. -/
theorem annulEntry (h : RenamedAt kept c) (hring : c.ring.WF ROB_SIZE) (hord : c.order = X ++ [i])
    (hkept : ∀ k ∈ kept, k ∈ X) : RenamedAt kept (c.annulEntry i) := by
  have hord' := annulEntry_order hring hord
  have hX : ∀ k ∈ X, k ∈ c.order := fun k hk => by rw [hord]; exact List.mem_append_left _ hk
  have hi : i ∈ c.order := by rw [hord]; simp
  have hne : ∀ k ∈ X, k ≠ i := by
    have hnd : c.order.Nodup := hring.nodup_order
    rw [hord] at hnd
    exact fun k hk hki => (List.disjoint_of_nodup_append hnd) (hki ▸ hk) List.mem_cons_self
  -- nothing that stays names the register
  have hcom : ∀ a, c.regs.commitrrt a ≠ c.regs.physreg i := fun a =>
    h.source_ne_last hring hord (Z := []) (by simp) (.inl (h.committed a))
  have hspec : ∀ a, c.regs.specrrt a ≠ c.regs.physreg i := fun a =>
    h.source_ne_last hring hord hkept (h.source_spec a)
  have hops : ∀ k ∈ X, ∀ o, c.regs.operands k o ≠ c.regs.physreg i := by
    intro k hk o
    obtain ⟨A, B, hAB⟩ := List.append_of_mem hk
    refine h.source_ne_last hring hord (Z := A) (fun j hj => by rw [hAB]; exact List.mem_append_left _ hj)
      (h.older A k (B ++ [i]) (by rw [hord, hAB]; simp) o)
  have hu : (c.regs.unrefOperands i).uses X (c.regs.physreg i) = 0 := Regs.uses_eq_zero hspec hcom hops
  have hstate : ∀ q, (c.annulEntry i).regs.state q =
      if q = c.regs.physreg i then some .free else c.regs.state q := state_free (c.regs.physreg i)
  have hother : ∀ q, q ≠ c.regs.physreg i → (c.annulEntry i).regs.state q = c.regs.state q :=
    fun q hq => by rw [hstate, if_neg hq]
  constructor
  case lists_wf => exact lists_wf_changestate h.lists_wf _ _
  case range =>
    intro q
    rw [hstate]
    split
    · rename_i hqp
      subst hqp
      obtain ⟨stp, hstp, -⟩ := h.dest i hi
      have := h.range (c.regs.physreg i)
      rw [hstp] at this
      simpa using this
    · exact h.range q
  case counted =>
    -- its operands give their references back, and its register has none left
    intro q hq
    rw [hord']
    show ((c.regs.unrefOperands i).free (c.regs.physreg i)).slack X q = 0
    rw [slack_free hu]
    split
    · rfl
    · rw [slack_unrefOperands
        (by rw [hord]; exact List.perm_append_singleton i X : c.order.Perm (i :: X))]
      exact h.counted q hq
  case zeros =>
    intro f
    rw [hother]
    · exact h.zeros f
    · exact h.source_ne_last hring hord (Z := []) (by simp) (.inl ⟨.arch, h.zeros f, .inl rfl⟩)
  case dest =>
    intro k hk
    rw [hord'] at hk
    show ∃ st, (c.annulEntry i).regs.state (c.regs.physreg k) = some st ∧ _
    rw [hother _ fun heq => hne k hk (h.inj k (hX k hk) i hi heq)]
    exact h.dest k (hX k hk)
  case inj =>
    intro k hk m hm hkm
    rw [hord'] at hk hm
    exact h.inj k (hX k hk) m (hX m hm) hkm
  case inflight =>
    intro q st' hq hf
    rw [hstate] at hq
    rw [hord']
    split at hq
    · rw [← Option.some.inj hq] at hf
      rcases hf with hf | hf | hf <;> cases hf
    · rename_i hqp
      obtain ⟨k, hk, hkq⟩ := h.inflight q st' hq hf
      rw [hord, List.mem_append, List.mem_singleton] at hk
      rcases hk with hk | rfl
      · exact ⟨k, hk, hkq⟩
      · exact absurd hkq.symm hqp
  case committed =>
    intro a
    obtain ⟨st', hst', hc⟩ := h.committed a
    exact ⟨st', (hother _ (hcom a)).trans hst', hc⟩
  case arch => exact fun a ha => (hother _ (hcom a)).trans (h.arch a ha)
  case arch_inj => exact h.arch_inj
  case arch_named =>
    intro q hq hqa
    rw [hstate] at hqa
    split at hqa
    · cases hqa
    · exact h.arch_named q hq hqa
  case spec => exact h.spec
  case older =>
    intro Z k Y hc o
    rw [hord'] at hc
    have hk : k ∈ X := by rw [hc]; simp
    rcases h.older Z k (Y ++ [i]) (by rw [hord, hc]; simp) o with ⟨st', hst', hcm⟩ | hs
    · exact .inl ⟨st', (hother _ (hops k hk o)).trans hst', hcm⟩
    · exact .inr hs
  case rs_mem =>
    intro k hk hl
    rw [hord'] at hk
    rw [lsq_annulEntry c (hne k hk)] at hl
    exact h.rs_mem k (hX k hk) hl

theorem annul (h : RenamedAt kept c) (hring : c.ring.WF ROB_SIZE) (rc : ℕ → Bool) {e : ℕ}
    (hord : c.order = X ++ e :: Y) : RenamedAt (c.annulFrom rc e).order (c.annulFrom rc e) := by
  obtain ⟨-, hord', h'⟩ := annulFrom_ind (P := RenamedAt X) rc hring hord (fun s _ => h.restore X s)
    fun _ M _ hr ho hc => hc.annulEntry hr ho fun k hk => List.mem_append_left M hk
  rw [hord']
  exact h'

/-! ### The recovery of an overtaken store -/

/-- The operand of a fence is added to one that is null. -/
theorem addOperand (h : RenamedAt kept c) (hring : c.ring.WF ROB_SIZE) (hi : i ∈ c.order)
    (hord : c'.order = c.order) (huop : ∀ k, SameRole (c.uop k) (c'.uop k))
    (hslots : c'.ls.lsq = c.ls.lsq) (hregs : c'.regs = c.regs.addOperand i RS p)
    (hnull : (c.regs.operands i RS).nonnull = false)
    (hsrc : ∀ X Y, c.order = X ++ i :: Y → c.Source X p) (hlsq : c.ls.lsq i ≠ none) :
    RenamedAt kept c' := by
  have hoper : c'.regs.operands = Function.update c.regs.operands i
      (Function.update (c.regs.operands i) RS p) := by rw [hregs]; rfl
  refine h.operands hord huop (by rw [hregs]; rfl) (by rw [hregs]; rfl) (by rw [hregs]; rfl)
    (by rw [hregs]; rfl) (fun q hq => ?_) (fun X m Y hc o => ?_) fun m hm hl => ?_
  · have hnd : c.order.Nodup := hring.nodup_order
    have hu : c'.regs.uses c.order q + here (c.regs.operands i RS) q =
        c.regs.uses c.order q + here p q :=
      uses_operand hnd hi RS _ q (by rw [hregs]; rfl) (by rw [hregs]; rfl) hoper
    have hne : c.regs.operands i RS ≠ q := by
      rintro rfl
      rw [hnull] at hq
      cases hq
    have hc : c'.regs.refcount q = c.regs.refcount q + here p q := by
      rw [hregs]
      exact refcount_addref _ q
    rw [here_of_ne hne] at hu
    unfold Regs.slack
    rw [hc]
    omega
  · rw [hoper]
    by_cases hmi : m = i
    · subst hmi
      rw [Function.update_self]
      by_cases ho : o = RS
      · subst ho; rw [Function.update_self]; exact .inr (hsrc X Y hc)
      · rw [Function.update_of_ne ho]; exact .inl rfl
    · rw [Function.update_of_ne hmi]; exact .inl rfl
  · rw [hslots] at hl
    have hmi : m ≠ i := by
      rintro rfl
      exact hlsq hl
    rw [hoper, Function.update_of_ne hmi]
    exact h.rs_mem m hm hl

/-- An operand of an entry is set to a source before it. -/
theorem setOperand (h : RenamedAt kept c) (hring : c.ring.WF ROB_SIZE) (hi : i ∈ c.order)
    (hord : c'.order = c.order) (huop : ∀ k, SameRole (c.uop k) (c'.uop k))
    (hlsq : c'.ls.lsq = c.ls.lsq) (hregs : c'.regs = c.regs.setOperand i o p)
    (hsrc : ∀ X Y, c.order = X ++ i :: Y → c.Source X p)
    (hmem : o = RS → p.nonnull = true → c.ls.lsq i ≠ none) : RenamedAt kept c' := by
  have hoper : c'.regs.operands = Function.update c.regs.operands i
      (Function.update (c.regs.operands i) o p) := by rw [hregs]; rfl
  refine h.operands hord huop (by rw [hregs]; rfl) (by rw [hregs]; rfl) (by rw [hregs]; rfl)
    (by rw [hregs]; rfl) (fun q _ => ?_) (fun X k Y hc o' => ?_) fun k hk hl => ?_
  · rw [hregs]; exact slack_setOperand hring.nodup_order hi o p q
  · rw [hoper]
    by_cases hki : k = i
    · subst hki
      rw [Function.update_self]
      by_cases ho : o' = o
      · subst ho; rw [Function.update_self]; exact .inr (hsrc X Y hc)
      · rw [Function.update_of_ne ho]; exact .inl rfl
    · rw [Function.update_of_ne hki]; exact .inl rfl
  · rw [hlsq] at hl
    rw [hoper]
    by_cases hki : k = i
    · subst hki
      rw [Function.update_self]
      by_cases ho : RS = o
      · subst ho
        rw [Function.update_self]
        cases hn : p.nonnull with
        | false => rfl
        | true => exact absurd hl (hmem rfl hn)
      · rw [Function.update_of_ne ho]; exact h.rs_mem k hk hl
    · rw [Function.update_of_ne hki]; exact h.rs_mem k hk hl

/-- One entry goes back to dispatch: it no longer names a store, and waits for its result. -/
theorem redispatch (h : RenamedAt kept c) (hring : c.ring.WF ROB_SIZE) (hi : i ∈ c.order)
    (prev : Option ℕ) : RenamedAt kept (c.redispatch i prev) ∧
      (∀ k, k ≠ i → (c.redispatch i prev).regs.operands k = c.regs.operands k) ∧
      ((c.redispatch i prev).regs.operands i RS).nonnull = false := by
  have hlsq : (c.redispatch i prev).ls.lsq = c.ls.lsq := (sameSlots_redispatch c.ls i).lsq
  cases hb : (c.ls.lsq i).isSome && (c.regs.operands i RS).nonnull with
  | true =>
    have hregs : (c.redispatch i prev).regs =
        (c.regs.setOperand i RS PhysReg.null).changestate (c.regs.physreg i) .waiting := by
      simp only [Core.redispatch, hb, if_true]
    have h1 : RenamedAt kept { c with regs := c.regs.setOperand i RS PhysReg.null } :=
      h.setOperand hring hi rfl (fun _ => .refl _) rfl rfl
        (fun _ _ _ => .inl ⟨.arch, h.zeros fileInt, .inl rfl⟩) fun _ hn => by cases hn
    have h2 : RenamedAt kept (c.redispatch i prev) :=
      h1.settle rfl (fun _ => .refl _) hlsq hi (.inl rfl) hregs
    refine ⟨h2, fun k hk => ?_, ?_⟩
    · rw [hregs]; exact Function.update_of_ne hk _ _
    · rw [hregs]
      show PhysReg.nonnull (Function.update c.regs.operands i
        (Function.update (c.regs.operands i) RS PhysReg.null) i RS) = false
      rw [Function.update_self, Function.update_self]
      rfl
  | false =>
    have hregs : (c.redispatch i prev).regs = c.regs.changestate (c.regs.physreg i) .waiting := by
      simp only [Core.redispatch, hb, Bool.false_eq_true, if_false]
    refine ⟨h.settle rfl (fun _ => .refl _) hlsq hi (.inl rfl) hregs, fun k _ => by rw [hregs]; rfl, ?_⟩
    rw [hregs]
    show (c.regs.operands i RS).nonnull = false
    cases hl : c.ls.lsq i with
    | none => exact h.rs_mem i hi hl
    | some j => simpa [hl] using hb

theorem redispatchLoop {this : ℕ} (hst : isstore (c.uop this).op.opcode = true)
    (h : RenamedAt kept c) (hring : c.ring.WF ROB_SIZE) (hl : ∀ i ∈ l, i ∈ c.order)
    (he : c.EarlyNull l) (depmap : List ℕ) (prev : Option ℕ) :
    RenamedAt kept (Core.redispatchLoop this l depmap prev c) ∧
      (Core.redispatchLoop this l depmap prev c).EarlyNull [] := by
  induction l generalizing c depmap prev with
  | nil => exact ⟨h, he⟩
  | cons i l ih =>
    have hall : Core.redispatchLoop this (i :: l) depmap prev c =
        Core.redispatchLoop this l (i :: depmap) (some i) (c.redispatch i prev) := by
      rw [Core.redispatchLoop, if_pos (by simp [hst])]
    rw [hall]
    obtain ⟨h1, hother, hnull⟩ := h.redispatch hring (hl i List.mem_cons_self) prev
    refine ih (c := c.redispatch i prev) hst h1 hring (fun j hj => hl j (List.mem_cons_of_mem i hj))
      (fun k hk hkl hearly => ?_) _ _
    by_cases hki : k = i
    · subst hki; exact hnull
    · rw [hother k hki]
      refine he k hk (by simp [hki, hkl]) ?_
      have hcur : (c.redispatch i prev).sched.lists.current k = c.sched.lists.current k := by
        show (c.sched.redispatch i prev).lists.current k = _
        unfold Sched.redispatch
        dsimp only
        rw [(Sched.redispatchIqSlot_eq _ i).1, StateLists.current_changestateAfter, if_neg hki]
      unfold Core.Early at hearly ⊢
      rwa [hcur] at hearly

/-- An entry after another in the order has it among the older ones. -/
theorem mem_before (hnd : order.Nodup) {X Y Z W : List ℕ} {i k : ℕ} (hi : order = X ++ i :: Y)
    (hk : k ∈ Y) (hord : order = Z ++ k :: W) : i ∈ Z := by
  obtain ⟨P, Q, rfl⟩ := List.append_of_mem hk
  have hsplit : order = (X ++ i :: P) ++ k :: Q := by rw [hi]; simp
  have hnd' := hnd
  rw [hsplit] at hnd'
  have hkP : k ∉ X ++ i :: P := fun hm => (List.disjoint_of_nodup_append hnd') hm List.mem_cons_self
  have hkQ : k ∉ Q := (List.nodup_cons.1 (List.nodup_append.1 hnd').2.1).1
  rw [hsplit] at hord
  obtain ⟨hZ, -, -⟩ := (List.append_cons_inj_of_notMem hkP hkQ).1 hord
  rw [← hZ]
  simp

/-- What is before an entry in one split of the order is so in every split. -/
theorem before_eq (hnd : order.Nodup) {X Y Z W : List ℕ} {i : ℕ} (hi : order = X ++ i :: Y)
    (hord : order = Z ++ i :: W) : Z = X := by
  have hnd' := hnd
  rw [hi] at hnd'
  have hX : i ∉ X := fun hm => (List.disjoint_of_nodup_append hnd') hm List.mem_cons_self
  have hY : i ∉ Y := (List.nodup_cons.1 (List.nodup_append.1 hnd').2.1).1
  rw [hi] at hord
  exact ((List.append_cons_inj_of_notMem hX hY).1 hord).1.symm

theorem aliased (h : RenamedAt kept c) (hq : c.LsqInOrder) (hring : c.ring.WF ROB_SIZE)
    (he : c.EarlyNull []) {j k : ℕ} (hi : i ∈ c.order) (hj : c.ls.lsq i = some j)
    (hk : k ∈ c.ls.ring.forwardAfter LSQ_SIZE j) (hst : isstore (c.uop i).op.opcode = true) :
    RenamedAt kept (c.aliasRedispatch i j k) ∧ (c.aliasRedispatch i j k).EarlyNull [] := by
  obtain ⟨X, Y, hord, -, hY⟩ := hq.split hring hj
  obtain ⟨hkY, hkl⟩ := hY k hk
  have hslots : SameSlots c.ls (c.aliasMark i j k).ls := .setEntry c.ls j _ rfl rfl
  have hregs : (c.aliasMark i j k).regs =
      c.regs.setOperand (c.ls.entry k).rob RS (c.regs.physreg i) := by
    rw [← hslots.rob k]
    rfl
  have hm : (c.ls.entry k).rob ∈ c.order := by rw [hord]; simp [hkY]
  have h1 : RenamedAt kept (c.aliasMark i j k) :=
    h.setOperand hring hm rfl (fun _ => .refl _) hslots.lsq hregs
      (fun Z W hZ => .inr ⟨i, mem_before hring.nodup_order hord hkY hZ, rfl⟩)
      fun _ _ => by rw [hkl]; simp
  have hfrom : c.ring.forwardFrom ROB_SIZE i = i :: Y := by
    rw [hring.forwardFrom_cons hi, (hring.cut hord).2]
  have hl : ∀ m ∈ i :: Y, m ∈ c.order := fun m hm => by
    rw [hord]; exact List.mem_append_right X hm
  unfold Core.aliasRedispatch Core.redispatchDependents
  rw [show (c.aliasMark i j k).ring = c.ring from rfl, hfrom]
  refine RenamedAt.redispatchLoop (c := c.aliasMark i j k) hst h1 hring hl (fun m hm hml hearly => ?_) _ _
  have hmk : m ≠ (c.ls.entry k).rob := by
    rintro rfl
    exact hml (List.mem_cons_of_mem i hkY)
  rw [hregs]
  show PhysReg.nonnull (Function.update c.regs.operands _ _ m RS) = false
  rw [Function.update_of_ne hmk]
  exact he m hm (by simp) hearly

end RenamedAt

/-! ### The flush -/

/-- What a flush relies on: what is allocated is that of an entry in flight, or committed. -/
structure RegsIdle (c : Core) : Prop where
  lists_wf : ∀ f, (c.regs.lists f).WF
  range : ∀ p, c.regs.state p = none ↔ FileId.size p.rfid ≤ p.idx
  flight : ∀ p st, c.regs.state p = some st → st = .free ∨ st.Committed ∨
    ∃ i ∈ c.order, c.regs.physreg i = p
  refcount : ∀ p, p.nonnull = true → c.regs.state p = none ∨ c.regs.state p = some .free →
    c.regs.refcount p = 0
  dest : ∀ i ∈ c.order, c.regs.state (c.regs.physreg i) ≠ none

theorem RegsIdle.fresh (h : RegsIdle c) : c.flushPipeline.regs.Fresh := by
  have hfreed := freed_flush (r := c.regs) c.order h.lists_wf h.range (fun p st hst => by
    rcases h.flight p st hst with hf | (hc | hc) | hi
    · exact .inl hf
    · exact .inr (.inl hc)
    · exact .inr (.inr (.inl hc))
    · exact .inr (.inr (.inr hi))) h.refcount h.dest
  rw [flushPipeline_regs]
  exact hfreed.fresh

theorem RegsIdle.flush (h : RegsIdle c) : RenamedAt c.flushPipeline.order c.flushPipeline := by
  have hfresh := h.fresh
  rw [flushPipeline_order]
  have hord := flushPipeline_order c
  generalize c.flushPipeline = c' at hfresh hord ⊢
  have hnone : ∀ p st, c'.regs.state p = some st → ¬st.InFlight := by
    intro p st hst hf
    cases hn : p.nonnull with
    | true =>
      rcases hfresh.rest p st hst hn with rfl | ⟨rfl, -⟩ <;> rcases hf with hf | hf | hf <;> cases hf
    | false =>
      have hp : p = ⟨p.rfid, 0⟩ := by
        have h0 : p.idx = 0 := by simpa [PhysReg.nonnull] using hn
        cases p
        simp_all
      rw [hp, hfresh.zeros] at hst
      rw [← Option.some.inj hst] at hf
      rcases hf with hf | hf | hf <;> cases hf
  constructor
  case lists_wf => exact hfresh.lists_wf
  case range => exact hfresh.range
  case counted =>
    intro p hp
    unfold Regs.slack Regs.uses
    rw [hfresh.counted p hp, hord, hfresh.spec]
    simp only [List.map_nil, List.sum_nil]
    push_cast
    omega
  case zeros => exact hfresh.zeros
  case dest => simp [hord]
  case inj => simp [hord]
  case inflight => exact fun p st hst hf => absurd hf (hnone p st hst)
  case committed => exact fun a => ⟨.arch, hfresh.committed a, .inl rfl⟩
  case arch => exact fun a _ => hfresh.committed a
  case arch_inj => exact hfresh.inj
  case arch_named =>
    intro p hp hst
    rcases hfresh.rest p .arch hst hp with hf | ⟨-, ha⟩
    · cases hf
    · exact ha
  case spec => exact hfresh.spec
  case older =>
    intro X i Y hc o
    rw [hord] at hc
    simp at hc
  case rs_mem => simp [hord]

theorem RenamedAt.idle (h : RenamedAt c.order c) : RegsIdle c where
  lists_wf := h.lists_wf
  range := h.range
  flight p st hst := by
    cases hs : st with
    | free => exact .inl rfl
    | arch => exact .inr (.inl (.inl rfl))
    | pendingfree => exact .inr (.inl (.inr rfl))
    | waiting => exact .inr (.inr (h.inflight p st hst (by rw [hs]; exact .inl rfl)))
    | bypass => exact .inr (.inr (h.inflight p st hst (by rw [hs]; exact .inr (.inl rfl))))
    | written => exact .inr (.inr (h.inflight p st hst (by rw [hs]; exact .inr (.inr rfl))))
  refcount p hp hst := by
    obtain ⟨hspec, hcommit, hops⟩ := h.unnamed (fun _ hk => hk) hst
    rw [h.refcount_uses hp, Regs.uses_eq_zero hspec hcommit fun i hi => (hops i hi).2]
    rfl
  dest i hi hn := by
    obtain ⟨st, hst, -⟩ := h.dest i hi
    rw [hn] at hst
    cases hst

/-! ### Every move -/

/-- The registers of the pipeline are in order. -/
structure Core.RegsRenamed (c : Core) : Prop where
  renamed : RenamedAt c.order c
  lsq : c.LsqInOrder
  early : c.EarlyNull []

theorem Core.EarlyNull.frame (h : c.EarlyNull []) (hf : Frame c c')
    (hops : ∀ i ∈ c.order, c'.Early i →
      (c'.regs.operands i RS).nonnull = false ∨ c'.regs.operands i RS = c.regs.operands i RS) :
    c'.EarlyNull [] := by
  intro i hi _ he
  rw [hf.order] at hi
  rcases hops i hi he with hn | heq
  · exact hn
  · rw [heq]; exact h i hi (by simp) (hf.early i he)

theorem Core.EarlyNull.rename (h : c.EarlyNull []) (hring : c.ring.WF ROB_SIZE)
    (hroom : 0 < c.ring.remaining ROB_SIZE) (uop : FetchBufferEntry) (rest : List FetchBufferEntry)
    (p : PhysReg) : (c.renameUop uop rest p).EarlyNull [] := by
  intro i hi _ he
  obtain ⟨-, -, -, -, hoper⟩ := renameEntry_eq (r := c.regs) c.ring.tail uop.op p
  rw [renameUop_order hring hroom, List.mem_append, List.mem_singleton] at hi
  show ((c.regs.renameEntry c.ring.tail uop.op p).operands i RS).nonnull = false
  rw [hoper]
  rcases hi with hi | rfl
  · have hit : i ≠ c.ring.tail := by rintro rfl; exact hring.tail_not_mem hi
    rw [Function.update_of_ne hit]
    refine h i hi (by simp) ?_
    have hcur : (c.renameUop uop rest p).sched.lists.current i = c.sched.lists.current i :=
      (StateLists.current_changestate _ _ _).trans (if_neg hit)
    unfold Core.Early at he ⊢
    rwa [hcur] at he
  · rw [Function.update_self]
    rfl

theorem Core.EarlyNull.retire (h : c.EarlyNull []) {st : PhysState}
    (hd : RenamedAt.Retires c (c.retire k) k Y st) : (c.retire k).EarlyNull [] := by
  obtain ⟨-, -, hsched, -⟩ := retire_frame c k
  intro m hm _ he
  rw [hd.order'] at hm
  rw [hd.operands]
  refine h m (hd.mem_rest hm) (by simp) ?_
  have hcur : (c.retire k).sched.lists.current m = c.sched.lists.current m := by
    rw [hsched]
    exact (StateLists.current_changestate _ _ _).trans (if_neg (hd.ne m hm))
  unfold Core.Early at he ⊢
  rwa [hcur] at he

theorem Core.EarlyNull.annul (h : c.EarlyNull []) (hring : c.ring.WF ROB_SIZE) (rc : ℕ → Bool)
    (hord : c.order = X ++ k :: Y) : (c.annulFrom rc k).EarlyNull [] := by
  let P (c' : Core) : Prop := ∀ m ∈ X, m ∈ c'.order → c'.Early m →
    (c'.regs.operands m RS).nonnull = false
  have hstart : ∀ s, s.lists = c.sched.lists → P { c with
      sched := s
      regs := X.foldl (fun r i => r.mapSpec (c.uop i).op (r.physreg i)) c.regs.restoreSpec } := by
    intro s hs m hm hmo he
    have hfold : ∀ (l : List ℕ) (r : Regs), SameRegs r
        (l.foldl (fun r i => r.mapSpec (c.uop i).op (r.physreg i)) r) := by
      intro l
      induction l with
      | nil => exact fun r => .refl r
      | cons i l ih => exact fun r => (sameRegs_mapSpec _ _).trans (ih _)
    dsimp only
    rw [((restoreSpec_tables c.regs).2.2.trans (hfold X _)).operands]
    refine h m hmo (by simp) ?_
    unfold Core.Early at he ⊢
    dsimp only at he
    rwa [hs] at he
  have hstep : ∀ (c : Core) M i, c.ring.WF ROB_SIZE → c.order = (X ++ M) ++ [i] → P c →
      P (c.annulEntry i) := by
    intro c M i hr ho hc m hm hmo he
    have hmi : m ≠ i := by
      have hnd : c.order.Nodup := hr.nodup_order
      rw [ho] at hnd
      rintro rfl
      exact (List.disjoint_of_nodup_append hnd) (List.mem_append_left M hm) List.mem_cons_self
    have hcur : (c.annulEntry i).sched.lists.current m = c.sched.lists.current m :=
      (StateLists.current_changestate _ _ _).trans (if_neg hmi)
    refine hc m hm (by rw [ho]; exact List.mem_append_left _ (List.mem_append_left _ hm)) ?_
    unfold Core.Early at he ⊢
    rwa [hcur] at he
  obtain ⟨-, hord', he⟩ := annulFrom_ind (P := P) rc hring hord hstart hstep
  intro m hm _ hearly
  exact he m (by rwa [hord'] at hm) hm hearly

/-- What leaves the entries and the registers alone keeps all. -/
theorem Core.RegsRenamed.outside (h : c.RegsRenamed) (hq : c'.LsqInOrder) (hring : c'.ring = c.ring)
    (huop : c'.uop = c.uop) (hsched : c'.sched = c.sched) (hregs : c'.regs = c.regs)
    (hls : c'.ls = c.ls) : c'.RegsRenamed := by
  have hord : c'.order = c.order := by
    unfold Core.order
    rw [hring]
  constructor
  case renamed =>
    rw [hord]
    exact h.renamed.frame hord (fun k => by rw [huop]; exact .refl _) (by rw [hls]) hregs
  case lsq => exact hq
  case early =>
    intro i hi _ he
    rw [hord] at hi
    rw [hregs]
    unfold Core.Early at he
    rw [hsched] at he
    exact h.early i hi (by simp) he

theorem Core.RegsRenamed.move (h : c.RegsRenamed) (hring : c.ring.WF ROB_SIZE) (hm : Move c c') :
    c'.RegsRenamed := by
  have hq := h.lsq.move hring hm
  cases hm with
  | kept hf hregs =>
    refine ⟨?_, hq, h.early.frame hf fun i _ _ => .inr (by rw [hregs])⟩
    rw [hf.order]
    exact h.renamed.frame hf.order hf.uop hf.slots.lsq hregs
  | settle i st hf hi hst hregs =>
    refine ⟨?_, hq, h.early.frame hf fun i _ _ => .inr (by rw [hregs]; rfl)⟩
    rw [hf.order]
    refine h.renamed.settle hf.order hf.uop hf.slots.lsq hi ?_ hregs
    rcases hst with rfl | rfl
    · exact .inr (.inl rfl)
    · exact .inr (.inr rfl)
  | forward i j sfra hf hi hlate hlsq hsfra hregs =>
    refine ⟨?_, hq, h.early.frame hf fun k _ hk => .inr ?_⟩
    · rw [hf.order]
      refine h.renamed.setOperand hring hi hf.order hf.uop hf.slots.lsq hregs (fun X Y hord => ?_)
        fun _ _ => by rw [hlsq]; simp
      -- a load that waits on a store names that store, which is before it in both queues
      cases sfra with
      | none => exact .inl ⟨.arch, h.renamed.zeros fileInt, .inl rfl⟩
      | some k =>
        obtain ⟨X', Y', hord', hX, -⟩ := h.lsq.split hring hlsq
        have := RenamedAt.before_eq hring.nodup_order hord' hord
        subst this
        exact .inr ⟨_, (hX k (hsfra k rfl)).1, rfl⟩
    · -- the operand set is the fourth of a late entry, so no early one sees it
      have hki : k ≠ i := by
        rintro rfl
        exact hlate (hf.early k hk)
      rw [hregs]
      show Function.update c.regs.operands i _ k RS = _
      rw [Function.update_of_ne hki]
  | fence i j k hf hi hearly hlate hlsq hk hregs =>
    obtain ⟨X', Y', hord', hX, -⟩ := h.lsq.split hring hlsq
    have hoper : c'.regs.operands = Function.update c.regs.operands i
        (Function.update (c.regs.operands i) RS (c.regs.physreg (c.ls.entry k).rob)) := by rw [hregs]; rfl
    refine ⟨?_, hq, h.early.frame hf fun m _ hm => .inr ?_⟩
    · rw [hf.order]
      refine h.renamed.addOperand hring hi hf.order hf.uop hf.slots.lsq hregs
        (h.early i hi (by simp) hearly) (fun X Y hord => ?_) (by rw [hlsq]; simp)
      have := RenamedAt.before_eq hring.nodup_order hord' hord
      subst this
      exact .inr ⟨_, (hX k hk).1, rfl⟩
    · have hmi : m ≠ i := by
        rintro rfl
        exact hlate hm
      rw [hoper, Function.update_of_ne hmi]
  | recycle =>
    refine ⟨h.renamed.recycle, hq, fun i hi _ he => ?_⟩
    rw [(Regs.recycled h.renamed.lists_wf).operands]
    exact h.early i hi (by simp) he
  | aliased i j k hi hlsq hk hst =>
    have hord : (c.aliasRedispatch i j k).order = c.order := by
      unfold Core.order; rw [(aliasRedispatch_frame c i j k).1]
    obtain ⟨h1, h2⟩ := h.renamed.aliased h.lsq hring h.early hi hlsq hk hst
    exact ⟨by rw [hord]; exact h1, hq, h2⟩
  | @rename uop rest p hq' hroom hp hlsq =>
    exact ⟨h.renamed.rename hring hroom (RenamedAt.peekFree_state h.renamed hp), hq,
      h.early.rename hring hroom uop rest p⟩
  | @retire i rest hord hwf hready =>
    obtain ⟨st, hd⟩ := h.renamed.retires hring hord hwf
    have h' := h.renamed.retire hring hord hwf
    rw [← hd.order'] at h'
    exact ⟨h', hq, h.early.retire hd⟩
  | @annul rc X Y e hord =>
    exact ⟨h.renamed.annul hring rc hord, hq, h.early.annul hring rc hord⟩
  | resetFetch rip =>
    have hr := fetchReset c rip
    exact h.outside hq hr.ring hr.uop hr.sched hr.regs hr.ls
  | fetch u hr huop hsched hregs hls => exact h.outside hq hr huop hsched hregs hls
  | flush =>
    refine ⟨h.renamed.idle.flush, hq, fun i hi => ?_⟩
    rw [flushPipeline_order] at hi
    cases hi

/-! ### Runs -/

theorem regsIdle_construct (ctx : Context) (mach : Machine) : RegsIdle (Core.construct ctx mach) := by
  have hcur : ∀ p : PhysReg, (Core.construct ctx mach).regs.state p =
      if p.idx < FileId.size p.rfid then some .free else none :=
    fun p => StateLists.current_fill PhysState.free (FileId.size p.rfid) p.idx
  refine ⟨fun f => StateLists.wf_empty.fill PhysState.free (FileId.size f), fun p => ?_, fun p st hst => ?_,
    fun _ _ _ => rfl, fun i hi => ?_⟩
  · rw [hcur]
    split <;> simp <;> omega
  · rw [hcur] at hst
    split at hst
    · exact .inl (Option.some.inj hst).symm
    · cases hst
  · rw [show (Core.construct ctx mach).order = [] from CircQueue.order_empty ROB_SIZE] at hi
    cases hi

/-- Nothing the start of a run relies on is reset by it. -/
theorem RegsIdle.reset (h : RegsIdle c) (ctx : Context) (space : AddressSpace)
    (bbcache : BasicBlockCache) (n : ℕ) : RegsIdle (Core.reset { c with
      ctx := ctx
      mach := { c.mach with
        space := space, bbcache := bbcache, stopped := false, stopAtUserInsns := n } }) :=
  ⟨h.lists_wf, h.range, h.flight, h.refcount, h.dest⟩

theorem RegsIdle.started (h : RegsIdle c) (ctx : Context) (space : AddressSpace)
    (bbcache : BasicBlockCache) (n : ℕ) : (c.started ctx space bbcache n).RegsRenamed := by
  refine ⟨(h.reset ctx space bbcache n).flush, .empty (flushPipeline_order _) (flushPipeline_ls _), fun i hi => ?_⟩
  unfold Core.started at hi
  rw [flushPipeline_order] at hi
  cases hi

theorem rule_regsRenamed (env : Env) (ok : RunState → CycleInput → Prop) :
    Rule env ok RegsIdle Core.RegsRenamed :=
  rule_of_moves env ok (fun _ _ hr h hm => h.move hr hm) regsIdle_construct
    (fun _ ctx space bbcache n h => h.started ctx space bbcache n) fun _ h => h.renamed.idle

theorem AtStage.regsRenamed {env : Env} (hc : AtStage env anyInput c) : c.RegsRenamed :=
  ((rule_regsRenamed env anyInput).atStage hc).2

/-- It holds within the rename stage too, after each of its turns. -/
theorem AtStage.renameTurns {env : Env} (hc : AtStage env anyInput c) (n : ℕ) :
    (loopWhile Core.renameTurn n c).RegsRenamed := by
  obtain ⟨hb, h⟩ := (rule_regsRenamed env anyInput).atStage hc
  obtain ⟨s, inp, -⟩ := hc
  have hsteps : Steps env inp (· = .work) c (loopWhile Core.renameTurn n c) := renameTurns_steps n c
  exact ((rule_regsRenamed env anyInput).steps (s := s) trivial hb h hsteps).2

/-- The speculative table is the committed one with the destinations of the entries in
flight on top, from the oldest to the youngest: also after an annulment, which rebuilds it. -/
theorem spec_replays (env : Env) (hc : AtStage env anyInput c) : c.regs.specrrt = c.replayed c.order :=
  hc.regsRenamed.renamed.spec

theorem spec_replays_loadLoop :
    (loadLoopRun 2).core.regs.specrrt = (loadLoopRun 2).core.replayed (loadLoopRun 2).core.order :=
  spec_replays Env.loadLoop atStage_loadLoop

/-- A reference count is the number of the names of its register: in the two tables, and
in the operands of the entries in flight. -/
theorem refcounts_exact (env : Env) (hc : AtStage env anyInput c) (hp : p.nonnull = true) :
    c.regs.refcount p = c.regs.uses c.order p :=
  hc.regsRenamed.renamed.refcount_uses hp

theorem refcounts_exact_loadLoop : (loadLoopRun 2).core.regs.refcount ⟨fileInt, 23⟩ =
    (loadLoopRun 2).core.regs.uses (loadLoopRun 2).core.order ⟨fileInt, 23⟩ :=
  refcounts_exact Env.loadLoop atStage_loadLoop rfl

/-- The register a rename takes is one that no table, no operand and no destination of an
entry in flight names, in every turn of the rename loop. -/
theorem rename_takes_unnamed (env : Env) (hc : AtStage env anyInput c) {n : ℕ}
    (hturns : loopWhile Core.renameTurn n c = c') {f : FileId} (hp : c'.regs.peekFree f = some p) :
    p.nonnull = true ∧ c'.regs.refcount p = 0 ∧
      (∀ a, c'.regs.specrrt a ≠ p) ∧ (∀ a, c'.regs.commitrrt a ≠ p) ∧
      ∀ i ∈ c'.order, c'.regs.physreg i ≠ p ∧ ∀ o, c'.regs.operands i o ≠ p := by
  subst hturns
  have h := (hc.renameTurns n).renamed
  have hfree := h.peekFree_state hp
  have hnn : p.nonnull = true := by
    cases hn : p.nonnull with
    | true => rfl
    | false =>
      have hnull := h.null_state hn
      rw [hfree] at hnull
      cases hnull
  obtain ⟨hspec, hcommit, hops⟩ := h.unnamed (fun _ hk => hk) (.inr hfree)
  refine ⟨hnn, ?_, hspec, hcommit, hops⟩
  rw [h.refcount_uses hnn, Regs.uses_eq_zero hspec hcommit fun i hi => (hops i hi).2]
  rfl

/-- The third turn of a cycle, with the two uops just renamed in flight. -/
theorem rename_takes_unnamed_fenceCode : (fenceCodeTurn 2).regs.refcount ⟨fileInt, 24⟩ = 0 ∧
    ∀ i ∈ [0, 1, 2, 3, 4, 5], (fenceCodeTurn 2).regs.physreg i ≠ ⟨fileInt, 24⟩ := by
  obtain ⟨-, -, -, -, hord, hfree⟩ := fenceCode_flight
  have hturns : loopWhile Core.renameTurn 2 fenceCodeRename = fenceCodeTurn 2 := rfl
  obtain ⟨-, hcount, -, -, hnot⟩ := rename_takes_unnamed Env.fenceCode atStage_fenceCodeRename hturns hfree
  exact ⟨hcount, fun i hi => (hnot i (hord ▸ hi)).1⟩

/-- Every register of a file is in a state, and no other is. -/
theorem has_state_iff (env : Env) (hc : AtStage env anyInput c) (p : PhysReg) :
    (∃ st, c.regs.state p = some st) ↔ p.idx < FileId.size p.rfid := by
  have hrange := hc.regsRenamed.renamed.range p
  constructor
  · rintro ⟨st, hst⟩
    by_contra hge
    rw [hrange.2 (Nat.le_of_not_lt hge)] at hst
    cases hst
  · intro hlt
    cases hst : c.regs.state p with
    | none => exact absurd (hrange.1 hst) (Nat.not_le.2 hlt)
    | some st => exact ⟨st, rfl⟩

/-- Every register is accounted for: it is free, and then nothing names it; it is the
destination of one entry in flight; it is the committed value of one architectural
register; or it waits for its last name to go, and the next `recycle` frees it then. -/
theorem registers_accounted (env : Env) (hc : AtStage env anyInput c) (hp : p.nonnull = true)
    (hst : c.regs.state p = some st) :
    (st = .free ∧ c.regs.refcount p = 0 ∧ c.regs.uses c.order p = 0) ∨
    (st.InFlight ∧ ∃ i ∈ c.order, c.regs.physreg i = p ∧ ∀ k ∈ c.order, c.regs.physreg k = p → k = i) ∨
    (st = .arch ∧ ∃ a, ¬FlagReg a ∧ c.regs.commitrrt a = p ∧
      ∀ b, ¬FlagReg b → c.regs.commitrrt b = p → b = a) ∨
    (st = .pendingfree ∧
      (0 < c.regs.uses c.order p ∨ c.regs.recycle.state p = some .free)) := by
  have h := hc.regsRenamed.renamed
  have hflight : st.InFlight → ∃ i ∈ c.order, c.regs.physreg i = p ∧
      ∀ k ∈ c.order, c.regs.physreg k = p → k = i := by
    intro hf
    obtain ⟨i, hi, hip⟩ := h.inflight p st hst hf
    exact ⟨i, hi, hip, fun k hk hkp => h.inj k hk i hi (hkp.trans hip.symm)⟩
  cases st with
  | free =>
    obtain ⟨hspec, hcommit, hops⟩ := h.unnamed (fun _ hk => hk) (.inr hst)
    have hu : c.regs.uses c.order p = 0 := Regs.uses_eq_zero hspec hcommit fun i hi => (hops i hi).2
    exact .inl ⟨rfl, by rw [h.refcount_uses hp, hu]; rfl, hu⟩
  | waiting => exact .inr (.inl ⟨.inl rfl, hflight (.inl rfl)⟩)
  | bypass => exact .inr (.inl ⟨.inr (.inl rfl), hflight (.inr (.inl rfl))⟩)
  | written => exact .inr (.inl ⟨.inr (.inr rfl), hflight (.inr (.inr rfl))⟩)
  | arch =>
    obtain ⟨a, ha, hap⟩ := h.arch_named p hp hst
    refine .inr (.inr (.inl ⟨rfl, a, ha, hap, fun b hb hbp => ?_⟩))
    exact h.arch_inj b a hb ha (hbp.trans hap.symm) (by rw [hbp]; exact hp)
  | pendingfree =>
    refine .inr (.inr (.inr ⟨rfl, ?_⟩))
    by_cases hu : 0 < c.regs.uses c.order p
    · exact .inl hu
    · refine .inr ((Regs.recycled h.lists_wf).freed p hst ?_)
      unfold Regs.referenced
      rw [h.refcount_uses hp]
      simpa using hu

theorem registers_accounted_loadLoop :
    ∃ i ∈ (loadLoopRun 2).core.order, (loadLoopRun 2).core.regs.physreg i = ⟨fileInt, 23⟩ := by
  rcases registers_accounted Env.loadLoop atStage_loadLoop rfl loadLoop_flight.2.2.2 with
    h | ⟨-, i, hi, hp, -⟩ | h | h
  · cases h.1
  · exact ⟨i, hi, hp⟩
  · cases h.1
  · cases h.1

/-- Whatever an entry in flight reads was committed, or is the destination of an older
entry in flight: the dependences never form a cycle, whatever is redispatched. -/
theorem producers_older (env : Env) (hc : AtStage env anyInput c) (hord : c.order = X ++ i :: Y)
    (o : Operand) : (∃ st, c.regs.state (c.regs.operands i o) = some st ∧ st.Committed) ∨
      ∃ k ∈ X, c.regs.physreg k = c.regs.operands i o :=
  hc.regsRenamed.renamed.older X i Y hord o

/-- The load waits for the store or for the fence before it. -/
theorem producers_older_fenceCode :
    ∃ k ∈ [0, 1], fenceCodeRename.regs.physreg k = fenceCodeRename.regs.operands 2 RS := by
  obtain ⟨-, -, -, ⟨hord, hst⟩, -⟩ := fenceCode_flight
  rcases producers_older Env.fenceCode atStage_fenceCodeRename (X := [0, 1]) (Y := [3]) hord RS with
    ⟨st, hst', hcommitted⟩ | h
  · rw [hst, Option.some.injEq] at hst'
    rcases hcommitted with rfl | rfl <;> cases hst'
  · exact h

end
end X86Sim.Ooo
