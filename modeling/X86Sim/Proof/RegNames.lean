import X86Sim.Lib.Names
import X86Sim.Ooo.Registers

/-!
# The names of the physical registers

A physical register is named by the two rename tables and by the operands of the
entries in the reorder buffer (`Regs.uses`). `Regs.slack` is what its reference count
is above that; the operations that take over a name move the count along with it and
leave the slack alone.

`Regs.state_*` say what the operations do to the states.
-/

namespace X86Sim.Ooo

open Names

namespace Regs

variable (r : Regs)

/-- The names `p` has in the operands of entry `i`. -/
def opNames (i : ℕ) (p : PhysReg) : ℕ := names (List.finRange 4) (r.operands i) p

def tableNames (t : Reg → PhysReg) (p : PhysReg) : ℕ := names (List.finRange 80) t p

/-- The names of `p`, with the entries of `order` in the buffer. -/
def uses (order : List ℕ) (p : PhysReg) : ℕ :=
  tableNames r.specrrt p + tableNames r.commitrrt p + (order.map fun i => r.opNames i p).sum

/-- What the count of `p` is above the number of its names. -/
def slack (order : List ℕ) (p : PhysReg) : ℤ := r.refcount p - r.uses order p

section

variable {r} {r' : Regs} {order : List ℕ} {p q : PhysReg} {a : Reg} {i : ℕ} {o : Operand}

/-! ### States -/

theorem state_changestate (p q : PhysReg) (st : PhysState) :
    (r.changestate p st).state q = if q = p then some st else r.state q := by
  unfold state changestate
  dsimp only
  by_cases hf : q.rfid = p.rfid
  · rw [hf, Function.update_self, StateLists.current_changestate]
    by_cases hi : q.idx = p.idx
    · have hqp : q = p := by cases p; cases q; simp_all
      rw [if_pos hi, if_pos hqp]
    · rw [if_neg hi, if_neg (by rintro rfl; exact hi rfl)]
  · rw [Function.update_of_ne hf, if_neg (by rintro rfl; exact hf rfl)]

theorem lists_wf_changestate (h : ∀ f, (r.lists f).WF) (p : PhysReg) (st : PhysState) :
    ∀ f, ((r.changestate p st).lists f).WF := by
  intro f
  unfold changestate
  dsimp only
  by_cases hf : f = p.rfid
  · subst hf; rw [Function.update_self]; exact (h p.rfid).changestate p.idx st
  · rw [Function.update_of_ne hf]; exact h f

theorem state_free (p q : PhysReg) : (r.free p).state q = if q = p then some .free else r.state q :=
  state_changestate p q .free

/-- Everything but the tables and the counts. -/
structure SameRegs (r r' : Regs) : Prop where
  lists : r'.lists = r.lists
  physreg : r'.physreg = r.physreg
  operands : r'.operands = r.operands

theorem SameRegs.refl (r : Regs) : SameRegs r r := ⟨rfl, rfl, rfl⟩

theorem SameRegs.trans {r'' : Regs} (h : SameRegs r r') (h' : SameRegs r' r'') : SameRegs r r'' :=
  ⟨h'.lists.trans h.lists, h'.physreg.trans h.physreg, h'.operands.trans h.operands⟩

theorem SameRegs.state (h : SameRegs r r') (p : PhysReg) : r'.state p = r.state p := by
  unfold Regs.state; rw [h.lists]

theorem sameRegs_setSpec (a : Reg) (p : PhysReg) : SameRegs r (r.setSpec a p) := ⟨rfl, rfl, rfl⟩
theorem sameRegs_setCommit (a : Reg) (p : PhysReg) : SameRegs r (r.setCommit a p) := ⟨rfl, rfl, rfl⟩

theorem sameRegs_mapSpec (op : TransOp) (p : PhysReg) : SameRegs r (r.mapSpec op p) := by
  unfold mapSpec
  induction destRegs op generalizing r with
  | nil => exact .refl r
  | cons a l ih => exact (sameRegs_setSpec a p).trans ih

/-! ### Tables -/

/-- The table with the destinations of a uop on its register. -/
def mapTable (op : TransOp) (p : PhysReg) (t : Reg → PhysReg) : Reg → PhysReg :=
  (destRegs op).foldl (fun t a => Function.update t a p) t

theorem specrrt_mapSpec (op : TransOp) (p : PhysReg) :
    (r.mapSpec op p).specrrt = mapTable op p r.specrrt ∧ (r.mapSpec op p).commitrrt = r.commitrrt := by
  unfold mapSpec mapTable
  induction destRegs op generalizing r with
  | nil => exact ⟨rfl, rfl⟩
  | cons a l ih => exact ih

/-- A table entry is an old one or the new register. -/
theorem mapTable_cases (op : TransOp) (p : PhysReg) (t : Reg → PhysReg) (a : Reg) :
    mapTable op p t a = if a ∈ destRegs op then p else t a := by
  unfold mapTable
  induction destRegs op generalizing t with
  | nil => simp
  | cons b l ih =>
    rw [List.foldl_cons, ih]
    by_cases hal : a ∈ l
    · simp [hal]
    · by_cases hab : a = b
      · subst hab; simp
      · simp [hal, hab]

/-! ### Counts -/

theorem names_finRange_update {n : ℕ} (t : Fin n → PhysReg) (a : Fin n) (q p : PhysReg) :
    names (List.finRange n) (Function.update t a q) p + here (t a) p =
      names (List.finRange n) t p + here q p :=
  names_update (List.nodup_finRange n) (List.mem_finRange a) q p

theorem refcount_unref (q p : PhysReg) : (r.unref q).refcount p = r.refcount p - here q p := by
  unfold unref here
  by_cases h : q = p
  · subst h; simp
  · simp [h, Function.update_of_ne (Ne.symm h)]

theorem refcount_addref (q p : PhysReg) : (r.addref q).refcount p = r.refcount p + here q p := by
  unfold addref here
  by_cases h : q = p
  · subst h; simp
  · simp [h, Function.update_of_ne (Ne.symm h)]

theorem slack_setSpec (a : Reg) (q p : PhysReg) : (r.setSpec a q).slack order p = r.slack order p := by
  have hn := names_finRange_update r.specrrt a q p
  have hc : (r.setSpec a q).refcount p = r.refcount p - here (r.specrrt a) p + here q p := by
    unfold setSpec
    rw [refcount_addref]
    show (r.unref (r.specrrt a)).refcount p + _ = _
    rw [refcount_unref]
  have hu : (r.setSpec a q).uses order p + here (r.specrrt a) p = r.uses order p + here q p := by
    show tableNames (Function.update r.specrrt a q) p + tableNames r.commitrrt p + _ + _ = _
    unfold uses tableNames at *
    change _ + _ + (order.map fun i => r.opNames i p).sum + _ = _
    omega
  unfold slack
  rw [hc]
  omega

theorem slack_setCommit (a : Reg) (q p : PhysReg) :
    (r.setCommit a q).slack order p = r.slack order p := by
  have hn := names_finRange_update r.commitrrt a q p
  have hc : (r.setCommit a q).refcount p = r.refcount p - here (r.commitrrt a) p + here q p := by
    unfold setCommit
    rw [refcount_addref]
    show (r.unref (r.commitrrt a)).refcount p + _ = _
    rw [refcount_unref]
  have hu : (r.setCommit a q).uses order p + here (r.commitrrt a) p = r.uses order p + here q p := by
    show tableNames r.specrrt p + tableNames (Function.update r.commitrrt a q) p + _ + _ = _
    unfold uses tableNames at *
    change _ + _ + (order.map fun i => r.opNames i p).sum + _ = _
    omega
  unfold slack
  rw [hc]
  omega

theorem slack_mapSpec (op : TransOp) (q p : PhysReg) :
    (r.mapSpec op q).slack order p = r.slack order p := by
  unfold mapSpec
  induction destRegs op generalizing r with
  | nil => rfl
  | cons a l ih => rw [List.foldl_cons, ih, slack_setSpec]

theorem uses_congr (hspec : r'.specrrt = r.specrrt) (hcommit : r'.commitrrt = r.commitrrt)
    (hops : ∀ i ∈ order, r'.operands i = r.operands i) : r'.uses order p = r.uses order p := by
  unfold uses
  rw [hspec, hcommit]
  congr 2
  refine List.map_congr_left fun i hi => ?_
  unfold opNames
  rw [hops i hi]

/-- What nothing names has no uses. -/
theorem uses_eq_zero (hspec : ∀ a, r.specrrt a ≠ p) (hcommit : ∀ a, r.commitrrt a ≠ p)
    (hops : ∀ i ∈ order, ∀ o, r.operands i o ≠ p) : r.uses order p = 0 := by
  have h1 : tableNames r.specrrt p = 0 := names_eq_zero.2 fun a _ => hspec a
  have h2 : tableNames r.commitrrt p = 0 := names_eq_zero.2 fun a _ => hcommit a
  have h3 : (order.map fun i => r.opNames i p) = order.map fun _ => 0 :=
    List.map_congr_left fun i hi => names_eq_zero.2 fun o _ => hops i hi o
  unfold uses
  rw [h1, h2, h3]
  simp

theorem not_named (hu : r.uses order p = 0) :
    (∀ a, r.specrrt a ≠ p) ∧ (∀ a, r.commitrrt a ≠ p) ∧ ∀ i ∈ order, ∀ o, r.operands i o ≠ p := by
  unfold uses at hu
  have h1 : tableNames r.specrrt p = 0 := by omega
  have h2 : tableNames r.commitrrt p = 0 := by omega
  have h3 : (order.map fun i => r.opNames i p).sum = 0 := by omega
  refine ⟨fun a => names_eq_zero.1 h1 a (List.mem_finRange a),
    fun a => names_eq_zero.1 h2 a (List.mem_finRange a), fun i hi o => ?_⟩
  have := List.sum_eq_zero_iff_forall_eq_nat.1 h3 _ (List.mem_map_of_mem hi)
  exact names_eq_zero.1 this o (List.mem_finRange o)

/-- One operand changes. -/
theorem uses_operand (hnd : order.Nodup) (hi : i ∈ order) (o : Operand) (q p : PhysReg)
    (hspec : r'.specrrt = r.specrrt) (hcommit : r'.commitrrt = r.commitrrt)
    (hops : r'.operands = Function.update r.operands i (Function.update (r.operands i) o q)) :
    r'.uses order p + here (r.operands i o) p = r.uses order p + here q p := by
  have hrow : r'.opNames i p + here (r.operands i o) p = r.opNames i p + here q p := by
    unfold opNames
    rw [hops, Function.update_self]
    exact names_finRange_update (r.operands i) o q p
  have hsum := sum_row_update (f := fun k => r'.opNames k p) (g := fun k => r.opNames k p) hnd hi
    fun k _ hk => by unfold opNames; rw [hops, Function.update_of_ne hk]
  unfold uses
  rw [hspec, hcommit]
  omega

theorem slack_setOperand (hnd : order.Nodup) (hi : i ∈ order) (o : Operand) (q p : PhysReg) :
    (r.setOperand i o q).slack order p = r.slack order p := by
  have hu : (r.setOperand i o q).uses order p + here (r.operands i o) p = r.uses order p + here q p :=
    uses_operand hnd hi o q p rfl rfl rfl
  have hc : (r.setOperand i o q).refcount p = r.refcount p - here (r.operands i o) p + here q p := by
    unfold setOperand
    rw [refcount_addref]
    show (r.unref (r.operands i o)).refcount p + _ = _
    rw [refcount_unref]
  unfold slack
  rw [hc]
  omega

/-- Every entry of the speculative table is dropped, or taken. -/
theorem foldl_unref (l : List Reg) (r : Regs) :
    (l.foldl (fun r a => r.unref (r.specrrt a)) r).refcount p = r.refcount p - names l r.specrrt p ∧
      (l.foldl (fun r a => r.unref (r.specrrt a)) r).specrrt = r.specrrt ∧
      (l.foldl (fun r a => r.unref (r.specrrt a)) r).commitrrt = r.commitrrt ∧
      SameRegs r (l.foldl (fun r a => r.unref (r.specrrt a)) r) := by
  induction l generalizing r with
  | nil => exact ⟨by simp [names], rfl, rfl, .refl r⟩
  | cons a l ih =>
    obtain ⟨h1, h2, h3, h4⟩ := ih (r.unref (r.specrrt a))
    have h0 : SameRegs r (r.unref (r.specrrt a)) := ⟨rfl, rfl, rfl⟩
    refine ⟨?_, h2, h3, h0.trans h4⟩
    rw [List.foldl_cons, h1, refcount_unref, names_cons]
    show r.refcount p - _ - (names l r.specrrt p : ℤ) = _
    omega

theorem foldl_addref (l : List Reg) (r : Regs) :
    (l.foldl (fun r a => r.addref (r.specrrt a)) r).refcount p = r.refcount p + names l r.specrrt p ∧
      (l.foldl (fun r a => r.addref (r.specrrt a)) r).specrrt = r.specrrt ∧
      (l.foldl (fun r a => r.addref (r.specrrt a)) r).commitrrt = r.commitrrt ∧
      SameRegs r (l.foldl (fun r a => r.addref (r.specrrt a)) r) := by
  induction l generalizing r with
  | nil => exact ⟨by simp [names], rfl, rfl, .refl r⟩
  | cons a l ih =>
    obtain ⟨h1, h2, h3, h4⟩ := ih (r.addref (r.specrrt a))
    have h0 : SameRegs r (r.addref (r.specrrt a)) := ⟨rfl, rfl, rfl⟩
    refine ⟨?_, h2, h3, h0.trans h4⟩
    rw [List.foldl_cons, h1, refcount_addref, names_cons]
    show r.refcount p + _ + (names l r.specrrt p : ℤ) = _
    omega

theorem restoreSpec_tables (r : Regs) : r.restoreSpec.specrrt = r.commitrrt ∧
    r.restoreSpec.commitrrt = r.commitrrt ∧ SameRegs r r.restoreSpec := by
  obtain ⟨-, -, h3, h4⟩ := foldl_unref (p := PhysReg.null) (List.finRange 80) r
  unfold restoreSpec
  dsimp only
  generalize (List.finRange 80).foldl (fun r a => r.unref (r.specrrt a)) r = r₁ at h3 h4 ⊢
  obtain ⟨-, k2, k3, k4⟩ := foldl_addref (p := PhysReg.null) (List.finRange 80)
    { r₁ with specrrt := r₁.commitrrt }
  exact ⟨k2.trans h3, k3.trans h3, h4.trans ⟨k4.lists, k4.physreg, k4.operands⟩⟩

/-- Pass 2 of an annulment takes the references of the committed table. -/
theorem slack_restoreSpec (p : PhysReg) : r.restoreSpec.slack order p = r.slack order p := by
  obtain ⟨hs, hcm, hsame⟩ := restoreSpec_tables r
  have hc : r.restoreSpec.refcount p =
      r.refcount p - tableNames r.specrrt p + tableNames r.commitrrt p := by
    obtain ⟨h1, -, h3, -⟩ := foldl_unref (p := p) (List.finRange 80) r
    unfold restoreSpec
    dsimp only
    generalize (List.finRange 80).foldl (fun r a => r.unref (r.specrrt a)) r = r₁ at h1 h3 ⊢
    rw [(foldl_addref (p := p) (List.finRange 80) { r₁ with specrrt := r₁.commitrrt }).1]
    show r₁.refcount p + (names _ r₁.commitrrt p : ℤ) = _
    rw [h1, h3]
    rfl
  have hu : r.restoreSpec.uses order p + tableNames r.specrrt p =
      r.uses order p + tableNames r.commitrrt p := by
    unfold uses opNames
    rw [hs, hcm, hsame.operands]
    omega
  unfold slack
  rw [hc]
  omega

theorem opNames_eq (r : Regs) (i : ℕ) (p : PhysReg) : r.opNames i p =
    here (r.operands i RA) p + here (r.operands i RB) p + here (r.operands i RC) p +
      here (r.operands i RS) p := by
  show names [RA, RB, RC, RS] (r.operands i) p = _
  simp only [names_cons]
  simp only [names, List.countP_nil]
  omega

/-- An entry leaves the buffer and drops its references. -/
theorem slack_unrefOperands {order' : List ℕ} (hperm : order.Perm (i :: order')) (p : PhysReg) :
    (r.unrefOperands i).slack order' p = r.slack order p := by
  have hc : (r.unrefOperands i).refcount p = r.refcount p - r.opNames i p := by
    rw [opNames_eq]
    unfold unrefOperands
    simp only [refcount_unref]
    omega
  have hu : r.uses order p = (r.unrefOperands i).uses order' p + r.opNames i p := by
    unfold uses
    rw [(hperm.map _).sum_eq, List.map_cons, List.sum_cons]
    show _ = tableNames r.specrrt p + tableNames r.commitrrt p + (order'.map fun i => r.opNames i p).sum + _
    omega
  unfold slack
  rw [hc, hu]
  omega

/-- An unnamed register is freed. -/
theorem slack_free (hq : r.uses order q = 0) (p : PhysReg) :
    (r.free q).slack order p = if p = q then 0 else r.slack order p := by
  have hu : (r.free q).uses order p = r.uses order p := uses_congr rfl rfl fun _ _ => rfl
  unfold slack
  rw [hu]
  show Function.update r.refcount q 0 p - _ = _
  by_cases h : p = q
  · subst h; rw [Function.update_self, if_pos rfl, hq]; rfl
  · rw [Function.update_of_ne h, if_neg h]

theorem slack_changestate (q : PhysReg) (st : PhysState) (p : PhysReg) :
    (r.changestate q st).slack order p = r.slack order p := rfl

/-- The tables, registers and operands after a rename. -/
theorem renameEntry_eq (i : ℕ) (op : TransOp) (p : PhysReg) :
    (r.renameEntry i op p).specrrt = mapTable op p r.specrrt ∧
      (r.renameEntry i op p).commitrrt = r.commitrrt ∧
      (r.renameEntry i op p).lists = (r.changestate p .waiting).lists ∧
      (r.renameEntry i op p).physreg = Function.update r.physreg i p ∧
      (r.renameEntry i op p).operands = Function.update r.operands i fun o =>
        if o = RA then r.specrrt op.ra else if o = RB then r.specrrt op.rb
        else if o = RC then r.specrrt op.rc else PhysReg.null := by
  unfold renameEntry
  dsimp only
  exact ⟨(specrrt_mapSpec op p).1, (specrrt_mapSpec op p).2, (sameRegs_mapSpec op p).lists,
    (sameRegs_mapSpec op p).physreg, (sameRegs_mapSpec op p).operands⟩

/-- The new entry takes references for its operands and its destinations. -/
theorem slack_renameEntry (hi : i ∉ order) (op : TransOp) (q p : PhysReg) :
    (r.renameEntry i op q).slack (order ++ [i]) p = r.slack order p := by
  obtain ⟨ops, hops⟩ : ∃ ops : Operand → PhysReg, ops = fun o =>
      if o = RA then r.specrrt op.ra else if o = RB then r.specrrt op.rb
      else if o = RC then r.specrrt op.rc else PhysReg.null := ⟨_, rfl⟩
  have heq : r.renameEntry i op q = Regs.mapSpec { (((({ r with
      operands := Function.update r.operands i ops } : Regs).addref (ops RA)).addref (ops RB)).addref
        (ops RC)).addref (ops RS) with
      lists := (r.changestate q .waiting).lists
      rob := Function.update r.rob q (some i)
      physreg := Function.update r.physreg i q } op q := by rw [hops]; rfl
  rw [heq, slack_mapSpec]
  unfold slack
  have hu : r.uses order p + (here (ops RA) p + here (ops RB) p + here (ops RC) p + here (ops RS) p) =
      tableNames r.specrrt p + tableNames r.commitrrt p + ((order ++ [i]).map fun k =>
        names (List.finRange 4) (Function.update r.operands i ops k) p).sum := by
    have hold : (order.map fun k => names (List.finRange 4) (Function.update r.operands i ops k) p) =
        order.map fun k => r.opNames k p :=
      List.map_congr_left fun k hk => by
        rw [Function.update_of_ne (by rintro rfl; exact hi hk)]; rfl
    have hnew : names (List.finRange 4) ops p =
        here (ops RA) p + here (ops RB) p + here (ops RC) p + here (ops RS) p :=
      opNames_eq { r with operands := fun _ => ops } i p
    rw [List.map_append, List.sum_append, hold, List.map_singleton, List.sum_singleton,
      Function.update_self, hnew]
    unfold uses
    omega
  have hc : ((((({ r with operands := Function.update r.operands i ops } : Regs).addref (ops RA)).addref
      (ops RB)).addref (ops RC)).addref (ops RS)).refcount p =
      r.refcount p + here (ops RA) p + here (ops RB) p + here (ops RC) p + here (ops RS) p := by
    simp only [refcount_addref]
  show Regs.refcount (Regs.addref _ (ops RS)) p - (tableNames r.specrrt p + tableNames r.commitrrt p +
    ((order ++ [i]).map fun k => names (List.finRange 4) (Function.update r.operands i ops k) p).sum : ℕ) = _
  rw [hc, ← hu]
  omega

/-! ### Commit -/

theorem foldl_setCommit (order : List ℕ) (l : List Reg) (p q : PhysReg) (r : Regs) :
    SameRegs r (l.foldl (fun r a => r.setCommit a p) r) ∧
      (l.foldl (fun r a => r.setCommit a p) r).specrrt = r.specrrt ∧
      (l.foldl (fun r a => r.setCommit a p) r).commitrrt =
        l.foldl (fun t a => Function.update t a p) r.commitrrt ∧
      (l.foldl (fun r a => r.setCommit a p) r).slack order q = r.slack order q := by
  induction l generalizing r with
  | nil => exact ⟨.refl r, rfl, rfl, rfl⟩
  | cons a l ih =>
    obtain ⟨h1, h2, h3, h4⟩ := ih (r.setCommit a p)
    exact ⟨(sameRegs_setCommit a p).trans h1, h2, h3, h4.trans (slack_setCommit a p q)⟩

/-- The commit of entry `i`: its destinations name its register, and the register its
destination named before goes, at once if nothing else names it. -/
theorem commitEntry_spec (r : Regs) (i : ℕ) {op : TransOp} (hrd : op.rd ≠ Reg.zero)
    (hmem : (isload op.opcode || isstore op.opcode) = true → op.setflags = SetFlags.none)
    {rest : List ℕ} (hperm : order.Perm (i :: rest)) (hwf : ∀ f, (r.lists f).WF)
    (hslack : ∀ p, p.nonnull = true → r.slack order p = 0) :
    (r.commitEntry i op).specrrt = r.specrrt ∧
      (r.commitEntry i op).commitrrt = mapTable op (r.physreg i) r.commitrrt ∧
      (r.commitEntry i op).physreg = r.physreg ∧ (r.commitEntry i op).operands = r.operands ∧
      (∀ f, ((r.commitEntry i op).lists f).WF) ∧
      (∀ q, q.nonnull = true → (r.commitEntry i op).slack rest q = 0) ∧
      ∃ st, (∀ q, (r.commitEntry i op).state q = if q = r.physreg i then some .arch
          else if q = r.commitrrt op.rd ∧ q.nonnull = true then some st else r.state q) ∧
        (st = .pendingfree ∨ st = .free ∧ (∀ a, mapTable op (r.physreg i) r.commitrrt a ≠ r.commitrrt op.rd) ∧
          ∀ k ∈ order, ∀ o, r.operands k o ≠ r.commitrrt op.rd) := by
  have hdest : archdestCanCommit op.rd = true := by simpa [archdestCanCommit] using hrd
  have hregs : destRegs op = op.rd :: flagRegs op := by simp [destRegs, hdest]
  -- a load or store sets no flags
  obtain ⟨r₁, hr₁⟩ : ∃ r₁ : Regs, r₁ = { r.setCommit op.rd (r.physreg i) with
    rob := Function.update (r.setCommit op.rd (r.physreg i)).rob (r.physreg i) none } := ⟨_, rfl⟩
  obtain ⟨r₂, hr₂⟩ : ∃ r₂ : Regs, r₂ = (flagRegs op).foldl (fun r' a => r'.setCommit a (r.physreg i)) r₁ :=
    ⟨_, rfl⟩
  have hflags : (if isload op.opcode || isstore op.opcode then r₁
      else (flagRegs op).foldl (fun r' a => r'.setCommit a (r.physreg i)) r₁) = r₂ := by
    rw [hr₂]
    split
    · rename_i hm
      have : flagRegs op = [] := by
        unfold flagRegs
        rw [hmem hm]
        split <;> rfl
      rw [this, List.foldl_nil]
    · rfl
  have heq : r.commitEntry i op = ((if (r.commitrrt op.rd).nonnull then
      if r₂.referenced (r.commitrrt op.rd) then r₂.changestate (r.commitrrt op.rd) .pendingfree
      else r₂.free (r.commitrrt op.rd) else r₂).changestate (r.physreg i) .arch).unrefOperands i := by
    rw [← hflags, hr₁]
    simp only [commitEntry, hdest, if_true]
  have h₂ : SameRegs r r₂ ∧ r₂.specrrt = r.specrrt ∧
      r₂.commitrrt = mapTable op (r.physreg i) r.commitrrt ∧ ∀ q, r₂.slack order q = r.slack order q := by
    obtain ⟨k1, k2, k3, -⟩ := foldl_setCommit order (flagRegs op) (r.physreg i) PhysReg.null r₁
    have k4 := fun q => (foldl_setCommit order (flagRegs op) (r.physreg i) q r₁).2.2.2
    rw [← hr₂] at k1 k2 k3 k4
    have hs₁ : SameRegs r r₁ := by rw [hr₁]; exact ⟨rfl, rfl, rfl⟩
    refine ⟨hs₁.trans k1, by rw [k2, hr₁]; rfl, ?_, fun q => ?_⟩
    · rw [k3, hr₁]
      unfold mapTable
      rw [hregs]
      rfl
    · rw [k4, hr₁]
      exact slack_setCommit op.rd (r.physreg i) q
  obtain ⟨hsame, hspec, hcom, hsl⟩ := h₂
  -- the register named before
  obtain ⟨r₃, hr₃⟩ : ∃ r₃ : Regs, r₃ = if (r.commitrrt op.rd).nonnull then
      if r₂.referenced (r.commitrrt op.rd) then r₂.changestate (r.commitrrt op.rd) .pendingfree
      else r₂.free (r.commitrrt op.rd) else r₂ := ⟨_, rfl⟩
  rw [← hr₃] at heq
  have h₃ : r₃.specrrt = r₂.specrrt ∧ r₃.commitrrt = r₂.commitrrt ∧ r₃.physreg = r₂.physreg ∧
      r₃.operands = r₂.operands ∧ (∀ f, (r₃.lists f).WF) ∧
      (∀ q, q.nonnull = true → r₃.slack order q = 0) ∧ ∃ st, (∀ q, r₃.state q =
          if q = r.commitrrt op.rd ∧ q.nonnull = true then some st else r.state q) ∧
        (st = .pendingfree ∨ st = .free ∧ r₂.uses order (r.commitrrt op.rd) = 0) := by
    have hwf₂ : ∀ f, (r₂.lists f).WF := by rw [hsame.lists]; exact hwf
    have hsl₂ : ∀ q, q.nonnull = true → r₂.slack order q = 0 := fun q hq => by rw [hsl]; exact hslack q hq
    rw [hr₃]
    split
    · rename_i hnn
      have hif : ∀ (q : PhysReg) (st : PhysState), (if q = r.commitrrt op.rd then some st else r₂.state q) =
          if q = r.commitrrt op.rd ∧ q.nonnull = true then some st else r.state q := by
        intro q st
        by_cases hq : q = r.commitrrt op.rd
        · subst hq; simp [hnn]
        · simp [hq, hsame.state]
      split
      · exact ⟨rfl, rfl, rfl, rfl, lists_wf_changestate hwf₂ _ _, hsl₂, .pendingfree,
          fun q => by rw [state_changestate, hif], .inl rfl⟩
      · rename_i href
        have hu : r₂.uses order (r.commitrrt op.rd) = 0 := by
          have := hsl₂ _ hnn
          unfold slack at this
          unfold referenced at href
          simp only [gt_iff_lt, decide_eq_true_eq, not_lt] at href
          omega
        refine ⟨rfl, rfl, rfl, rfl, lists_wf_changestate hwf₂ _ _, fun q hq => ?_, .free,
          fun q => by rw [state_free, hif], .inr ⟨rfl, hu⟩⟩
        rw [slack_free hu]
        split
        · rfl
        · exact hsl₂ q hq
    · rename_i hnn
      refine ⟨rfl, rfl, rfl, rfl, hwf₂, hsl₂, .pendingfree, fun q => ?_, .inl rfl⟩
      rw [hsame.state, if_neg]
      rintro ⟨rfl, hq⟩
      exact hnn hq
  obtain ⟨k1, k2, k3, k4, k5, k6, st, k7, k8⟩ := h₃
  rw [heq]
  refine ⟨k1.trans hspec, k2.trans hcom, k3.trans hsame.physreg, k4.trans hsame.operands,
    lists_wf_changestate k5 _ _, fun q hq => ?_, st, fun q => ?_, k8.imp id fun ⟨hst, hu⟩ => ?_⟩
  · rw [slack_unrefOperands hperm, slack_changestate]
    exact k6 q hq
  · show (r₃.changestate (r.physreg i) .arch).state q = _
    rw [state_changestate, k7]
  · obtain ⟨-, hc, ho⟩ := not_named hu
    rw [hcom] at hc
    rw [hsame.operands] at ho
    exact ⟨hst, hc, ho⟩

/-! ### Recycling -/

/-- `r'` is `r` with the registers of `S` nothing refers to freed. -/
structure Recycled (S : Set PhysReg) (r r' : Regs) : Prop where
  lists_wf : ∀ f, (r'.lists f).WF
  referenced : ∀ q, r'.referenced q = r.referenced q
  operands : r'.operands = r.operands
  commitrrt : r'.commitrrt = r.commitrrt
  physreg : r'.physreg = r.physreg
  freed : ∀ q ∈ S, r.referenced q = false → r'.state q = some .free
  kept : ∀ q, q ∉ S ∨ r.referenced q = true → r'.state q = r.state q

theorem Recycled.single (hwf : ∀ f, (r.lists f).WF) (p : PhysReg) :
    Recycled {p} r (if r.referenced p then r else r.free p) := by
  cases hp : r.referenced p with
  | true =>
    rw [if_pos rfl]
    refine ⟨hwf, fun _ => rfl, rfl, rfl, rfl, fun q hq hr => ?_, fun _ _ => rfl⟩
    rw [Set.mem_singleton_iff.1 hq, hp] at hr
    cases hr
  | false =>
    rw [if_neg (by simp)]
    refine ⟨lists_wf_changestate hwf _ _, fun q => ?_, rfl, rfl, rfl, fun q hq _ => ?_, fun q hq => ?_⟩
    · by_cases hqp : q = p
      · subst hqp
        rw [hp]
        simp [Regs.referenced, free]
      · simp [Regs.referenced, free, changestate, Function.update_of_ne hqp]
    · rw [state_free, if_pos (Set.mem_singleton_iff.1 hq)]
    · rw [state_free, if_neg]
      rintro rfl
      rcases hq with hq | hq
      · exact hq rfl
      · rw [hp] at hq; cases hq

theorem Recycled.trans {S T : Set PhysReg} {r'' : Regs} (h : Recycled S r r')
    (h' : Recycled T r' r'') : Recycled (S ∪ T) r r'' := by
  refine ⟨h'.lists_wf, fun q => (h'.referenced q).trans (h.referenced q),
    h'.operands.trans h.operands, h'.commitrrt.trans h.commitrrt, h'.physreg.trans h.physreg,
    fun q hq hr => ?_, fun q hq => ?_⟩
  · by_cases hT : q ∈ T
    · exact h'.freed q hT ((h.referenced q).trans hr)
    · rw [h'.kept q (.inl hT)]
      exact h.freed q (hq.resolve_right hT) hr
  · rw [h'.kept q (hq.imp (fun hn hT => hn (.inr hT)) (h.referenced q).trans),
      h.kept q (hq.imp_left fun hn hS => hn (.inl hS))]

theorem Recycled.of_iff {S T : Set PhysReg} (h : Recycled S r r') (hST : ∀ q, q ∈ T ↔ q ∈ S) :
    Recycled T r r' :=
  ⟨h.lists_wf, h.referenced, h.operands, h.commitrrt, h.physreg, fun q hq => h.freed q ((hST q).1 hq),
    fun q hq => h.kept q (hq.imp_left fun hn hS => hn ((hST q).2 hS))⟩

theorem recycled_file (hwf : ∀ f, (r.lists f).WF) (f : FileId) :
    Recycled {q | q.rfid = f ∧ r.state q = some .pendingfree} r (r.recycleFile f) := by
  have hfold : ∀ (l : List ℕ) (r : Regs), (∀ f, (r.lists f).WF) →
      Recycled {q | q.rfid = f ∧ q.idx ∈ l} r
        (l.foldl (fun r i => if r.referenced ⟨f, i⟩ then r else r.free ⟨f, i⟩) r) := by
    intro l
    induction l with
    | nil => exact fun r hr => ⟨hr, fun _ => rfl, rfl, rfl, rfl, fun q hq => by simp at hq, fun _ _ => rfl⟩
    | cons i l ih =>
      intro r hr
      have h1 := Recycled.single hr ⟨f, i⟩
      refine (h1.trans (ih _ h1.lists_wf)).of_iff fun ⟨g, n⟩ => ?_
      simp only [Set.mem_ofPred_eq, List.mem_cons, Set.mem_union, Set.mem_singleton_iff,
        PhysReg.mk.injEq]
      tauto
  refine (hfold _ r hwf).of_iff fun q => ?_
  simp only [Set.mem_ofPred_eq]
  refine and_congr_right fun hf => ?_
  rw [← hf]
  exact ((hwf q.rfid).mem_iff q.idx .pendingfree).symm

/-- `recycle` frees the pending registers nothing refers to, and no other. -/
theorem recycled (hwf : ∀ f, (r.lists f).WF) :
    Recycled {q | r.state q = some .pendingfree} r r.recycle := by
  have hfold : ∀ (l : List FileId) (r : Regs), l.Nodup → (∀ f, (r.lists f).WF) →
      Recycled {q | q.rfid ∈ l ∧ r.state q = some .pendingfree} r
        (l.foldl (fun r f => r.recycleFile f) r) := by
    intro l
    induction l with
    | nil =>
      exact fun r _ hr => ⟨hr, fun _ => rfl, rfl, rfl, rfl, fun q hq => by simp at hq, fun _ _ => rfl⟩
    | cons f l ih =>
      intro r hnd hr
      obtain ⟨hf, hnd⟩ := List.nodup_cons.1 hnd
      have h1 := recycled_file hr f
      refine (h1.trans (ih _ hnd h1.lists_wf)).of_iff fun q => ?_
      -- the files still to come are as they were
      have hrest : q.rfid ∈ l → (r.recycleFile f).state q = r.state q := fun hq =>
        h1.kept q (.inl fun h => hf (h.1 ▸ hq))
      simp only [Set.mem_ofPred_eq, List.mem_cons, Set.mem_union]
      constructor
      · rintro ⟨hq | hq, hst⟩
        · exact .inl ⟨hq, hst⟩
        · exact .inr ⟨hq, (hrest hq).trans hst⟩
      · rintro (⟨hq, hst⟩ | ⟨hq, hst⟩)
        · exact ⟨.inl hq, hst⟩
        · exact ⟨.inr hq, (hrest hq).symm.trans hst⟩
  exact (hfold _ r (List.nodup_finRange 4) hwf).of_iff fun q => by
    simp [List.mem_finRange]

end
end Regs
end X86Sim.Ooo
