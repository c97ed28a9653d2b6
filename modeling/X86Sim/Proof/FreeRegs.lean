import X86Sim.Proof.Renaming

/-!
# The registers suffice

`rename` waits when the file of its destination has no free register. After the recycling a
register is free just if it has no name: no committed mapping, no operand and no destination
of an entry in flight (`free_iff`). So the free registers of a file are its size less its own
names, and the wait ends when a name goes: no register is lost.
-/

namespace X86Sim.Ooo

section

variable {c : Core} {p : PhysReg} {kept : List ℕ}

/-- The names of registers, but for the speculative table, which has no name of its own. -/
def Core.regNames (c : Core) : List PhysReg :=
  (List.finRange 80).map c.regs.commitrrt ++
    c.order.flatMap fun i => c.regs.physreg i :: (List.finRange 4).map (c.regs.operands i)

/-- The named registers of a file, each once, but for the null register. -/
def Core.namesOf (c : Core) (f : FileId) : Finset PhysReg :=
  (c.regNames.filter fun p => p.rfid = f ∧ p.nonnull = true).toFinset

theorem commitrrt_mem_regNames (c : Core) (a : Reg) : c.regs.commitrrt a ∈ c.regNames :=
  List.mem_append_left _ (List.mem_map_of_mem (List.mem_finRange a))

theorem physreg_mem_regNames {i : ℕ} (hi : i ∈ c.order) : c.regs.physreg i ∈ c.regNames :=
  List.mem_append_right _ (List.mem_flatMap.2 ⟨i, hi, List.mem_cons_self⟩)

theorem operands_mem_regNames {i : ℕ} (hi : i ∈ c.order) (o : Operand) :
    c.regs.operands i o ∈ c.regNames :=
  List.mem_append_right _ (List.mem_flatMap.2
    ⟨i, hi, List.mem_cons_of_mem _ (List.mem_map_of_mem (List.mem_finRange o))⟩)

/-- After the recycling, what has no name is free. -/
theorem RenamedAt.named (h : RenamedAt c.order c) (hp : p.nonnull = true)
    (hlt : p.idx < FileId.size p.rfid) (hfree : c.regs.recycle.state p ≠ some .free) :
    p ∈ c.regNames := by
  have hrec := Regs.recycled h.lists_wf
  have h' := h.recycle
  cases hst : c.regs.recycle.state p with
  | none => exact absurd ((h'.range p).1 hst) (by omega)
  | some st =>
    have hflight : st.InFlight → p ∈ c.regNames := by
      intro hf
      obtain ⟨i, hi, hip⟩ := h'.inflight p st hst hf
      have hphys : c.regs.physreg i = p := by rw [← hip]; exact (congrFun hrec.physreg i).symm
      exact hphys ▸ physreg_mem_regNames hi
    cases st with
    | free => exact absurd hst hfree
    | waiting => exact hflight (.inl rfl)
    | bypass => exact hflight (.inr (.inl rfl))
    | written => exact hflight (.inr (.inr rfl))
    | arch =>
      obtain ⟨a, -, hap⟩ := h'.arch_named p hp hst
      have hcommit : c.regs.commitrrt a = p := by rw [← hap]; exact (congrFun hrec.commitrrt a).symm
      exact hcommit ▸ commitrrt_mem_regNames c a
    | pendingfree =>
      -- it is still referenced, so a table or an operand names it
      by_contra hnot
      have hspec : ∀ a, c.regs.specrrt a ≠ p := by
        rintro a rfl
        rw [h.spec] at hnot
        rcases replayed_cases c c.order a with heq | ⟨k, hk, heq⟩
        · exact hnot (heq ▸ commitrrt_mem_regNames c a)
        · exact hnot (heq ▸ physreg_mem_regNames hk)
      have hcommit : ∀ a, c.regs.commitrrt a ≠ p := by
        rintro a rfl
        exact hnot (commitrrt_mem_regNames c a)
      have hops : ∀ i ∈ c.order, ∀ o, c.regs.operands i o ≠ p := by
        rintro i hi o rfl
        exact hnot (operands_mem_regNames hi o)
      have hunref : c.regs.referenced p = false := by
        unfold Regs.referenced
        rw [h.refcount_uses hp, Regs.uses_eq_zero hspec hcommit hops]
        rfl
      by_cases hS : c.regs.state p = some .pendingfree
      · exact hfree (hrec.freed p hS hunref)
      · rw [hrec.kept p (.inl hS)] at hst
        exact hS hst

/-- After the recycling a register of a file is free or named, not both. -/
theorem RenamedAt.free_iff (h : RenamedAt c.order c) (hp : p.nonnull = true)
    (hlt : p.idx < FileId.size p.rfid) : c.regs.recycle.state p = some .free ↔ p ∉ c.regNames := by
  refine ⟨fun hfree hmem => ?_, fun hnot => by_contra fun hfree => hnot (h.named hp hlt hfree)⟩
  have hrec := Regs.recycled h.lists_wf
  obtain ⟨-, hcommit, hflight⟩ := h.recycle.unnamed (fun _ hk => hk) (.inr hfree)
  unfold Core.regNames at hmem
  rcases List.mem_append.1 hmem with hmem | hmem
  · obtain ⟨a, -, ha⟩ := List.mem_map.1 hmem
    exact hcommit a ((congrFun hrec.commitrrt a).trans ha)
  · obtain ⟨i, hi, hmem⟩ := List.mem_flatMap.1 hmem
    obtain ⟨hphys, hops⟩ := hflight i hi
    rcases List.mem_cons.1 hmem with heq | hmem
    · exact hphys ((congrFun hrec.physreg i).trans heq.symm)
    · obtain ⟨o, -, ho⟩ := List.mem_map.1 hmem
      exact hops o ((congrFun (congrFun hrec.operands i) o).trans ho)

/-- A named register lies in its file. -/
theorem RenamedAt.named_lt (h : RenamedAt c.order c) (hmem : p ∈ c.regNames) : p.idx < FileId.size p.rfid := by
  by_contra hge
  obtain ⟨-, hcommit, hflight⟩ := h.unnamed (fun _ hk => hk) (.inl ((h.range p).2 (Nat.le_of_not_lt hge)))
  unfold Core.regNames at hmem
  rcases List.mem_append.1 hmem with hmem | hmem
  · obtain ⟨a, -, ha⟩ := List.mem_map.1 hmem
    exact hcommit a ha
  · obtain ⟨i, hi, hmem⟩ := List.mem_flatMap.1 hmem
    rcases List.mem_cons.1 hmem with heq | hmem
    · exact (hflight i hi).1 heq.symm
    · obtain ⟨o, -, ho⟩ := List.mem_map.1 hmem
      exact (hflight i hi).2 o ho

theorem size_pos : ∀ f : FileId, 0 < FileId.size f := by
  decide

theorem nonnull_mk {f : FileId} {i : ℕ} : PhysReg.nonnull ⟨f, i⟩ = true ↔ i ≠ 0 := by
  unfold PhysReg.nonnull
  rw [bne_iff_ne]

theorem mem_namesOf {f : FileId} : p ∈ c.namesOf f ↔ p ∈ c.regNames ∧ p.rfid = f ∧ p.nonnull = true := by
  unfold Core.namesOf
  rw [List.mem_toFinset, List.mem_filter, decide_eq_true_eq]

/-- The registers of a file are the null register, those named and those free. -/
theorem RenamedAt.free_add_names (h : RenamedAt c.order c) (f : FileId) :
    ((c.regs.recycle.lists f).members .free).length + (c.namesOf f).card + 1 = FileId.size f := by
  have hwf : (c.regs.recycle.lists f).WF := h.recycle.lists_wf f
  have hinj : Function.Injective (PhysReg.mk f) := fun i j hij => (PhysReg.mk.inj hij).2
  let free := ((c.regs.recycle.lists f).members .free).toFinset.image (PhysReg.mk f)
  have hfree : ∀ p, p ∈ free ↔ p.rfid = f ∧ c.regs.recycle.state p = some .free := by
    rintro ⟨g, i⟩
    rw [Finset.mem_image]
    constructor
    · rintro ⟨j, hj, heq⟩
      obtain ⟨rfl, rfl⟩ := PhysReg.mk.inj heq
      exact ⟨rfl, (hwf.mem_iff j .free).1 (List.mem_toFinset.1 hj)⟩
    · rintro ⟨rfl, hst⟩
      exact ⟨i, List.mem_toFinset.2 ((hwf.mem_iff i .free).2 hst), rfl⟩
  have hdisj : Disjoint free (c.namesOf f) := by
    rw [Finset.disjoint_left]
    intro p hp hname
    obtain ⟨hmem, -, hnn⟩ := mem_namesOf.1 hname
    exact (h.free_iff hnn (h.named_lt hmem)).1 ((hfree p).1 hp).2 hmem
  have hnull : (⟨f, 0⟩ : PhysReg) ∉ free ∪ c.namesOf f := by
    intro hmem
    rcases Finset.mem_union.1 hmem with hmem | hmem
    · have hst := ((hfree _).1 hmem).2.symm.trans (h.recycle.zeros f)
      cases hst
    · exact nonnull_mk.1 (mem_namesOf.1 hmem).2.2 rfl
  have hall : insert ⟨f, 0⟩ (free ∪ c.namesOf f) = (Finset.range (FileId.size f)).image (PhysReg.mk f) := by
    ext p
    rw [Finset.mem_insert, Finset.mem_union, hfree, mem_namesOf, Finset.mem_image]
    constructor
    · rintro (rfl | ⟨rfl, hst⟩ | ⟨hmem, rfl, -⟩)
      · exact ⟨0, Finset.mem_range.2 (size_pos f), rfl⟩
      · refine ⟨p.idx, Finset.mem_range.2 (Nat.lt_of_not_le fun hge => ?_), rfl⟩
        have hnone := hst.symm.trans ((h.recycle.range p).2 hge)
        cases hnone
      · exact ⟨p.idx, Finset.mem_range.2 (h.named_lt hmem), rfl⟩
    · rintro ⟨j, hj, rfl⟩
      by_cases h0 : j = 0
      · exact .inl (by rw [h0])
      · by_cases hname : (⟨f, j⟩ : PhysReg) ∈ c.regNames
        · exact .inr (.inr ⟨hname, rfl, nonnull_mk.2 h0⟩)
        · exact .inr (.inl ⟨rfl, (h.free_iff (nonnull_mk.2 h0) (Finset.mem_range.1 hj)).2 hname⟩)
  have hcard := congrArg Finset.card hall
  rw [Finset.card_insert_of_notMem hnull, Finset.card_union_of_disjoint hdisj, Finset.card_image_of_injective _ hinj,
    Finset.card_image_of_injective _ hinj, Finset.card_range, List.toFinset_card_of_nodup (hwf.nodup .free)] at hcard
  exact hcard

/-- In every run and for each register file, the free registers after the recycling at the
start of the commit stage, the registers of that file something names and the null register
are all of the file: no register is ever lost. `rename` finds one just if not all are named. -/
theorem registers_suffice (env : Env) (hc : AtStage env anyInput c) (f : FileId) :
    ((c.regs.recycle.lists f).members .free).length + (c.namesOf f).card + 1 = FileId.size f ∧
      ((∃ p, c.regs.recycle.peekFree f = some p) ↔ (c.namesOf f).card + 1 < FileId.size f) := by
  have hsize := hc.regsRenamed.renamed.free_add_names f
  refine ⟨hsize, ?_⟩
  unfold Regs.peekFree
  cases hm : (c.regs.recycle.lists f).members .free with
  | nil =>
    rw [hm] at hsize
    refine iff_of_false (fun ⟨p, hp⟩ => by cases hp) ?_
    rw [List.length_nil] at hsize
    omega
  | cons k l =>
    rw [hm, List.length_cons] at hsize
    exact iff_of_true ⟨⟨f, k⟩, rfl⟩ (by omega)

/-- Of the integer file and that of the branches, two cycles into a loop. -/
theorem registers_suffice_loadLoop :
    ((((loadLoopRun 2).core.regs.recycle.lists fileInt).members .free).length +
        ((loadLoopRun 2).core.namesOf fileInt).card + 1 = FileId.size fileInt ∧
      ((∃ p, (loadLoopRun 2).core.regs.recycle.peekFree fileInt = some p) ↔
        ((loadLoopRun 2).core.namesOf fileInt).card + 1 < FileId.size fileInt)) ∧
    ((((loadLoopRun 2).core.regs.recycle.lists fileBr).members .free).length +
        ((loadLoopRun 2).core.namesOf fileBr).card + 1 = FileId.size fileBr ∧
      ((∃ p, (loadLoopRun 2).core.regs.recycle.peekFree fileBr = some p) ↔
        ((loadLoopRun 2).core.namesOf fileBr).card + 1 < FileId.size fileBr)) :=
  ⟨registers_suffice Env.loadLoop atStage_loadLoop fileInt, registers_suffice Env.loadLoop atStage_loadLoop fileBr⟩

end
end X86Sim.Ooo
