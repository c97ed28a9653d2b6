import X86Sim.Proof.RegNames

/-!
# The registers after a flush

`flush_pipeline` frees every register and hands out new ones for the committed state.
`freed_flush`: nothing stays allocated. `Fresh`: each architectural register gets a
register of its own, the flags share theirs, and both tables hold a reference on each.
-/

namespace X86Sim.Ooo

open Names

namespace Regs

/-- Every register of every file is free, and none has references. -/
structure Freed (r : Regs) : Prop where
  lists_wf : ∀ f, (r.lists f).WF
  range : ∀ p, r.state p = none ↔ FileId.size p.rfid ≤ p.idx
  free : ∀ p st, r.state p = some st → st = .free
  refcount : ∀ p, p.nonnull = true → r.refcount p = 0

section

variable {r r' : Regs} {p q : PhysReg} {st : PhysState} {f : FileId} {a b : Reg}

/-! ### Freeing -/

theorem foldl_free (l : List PhysReg) (hwf : ∀ f, (r.lists f).WF) :
    (∀ f, ((l.foldl free r).lists f).WF) ∧
      (∀ q, (l.foldl free r).state q = if q ∈ l then some .free else r.state q) ∧
      ∀ q, (l.foldl free r).refcount q = if q ∈ l then 0 else r.refcount q := by
  induction l generalizing r with
  | nil => exact ⟨hwf, by simp, by simp⟩
  | cons p l ih =>
    obtain ⟨h1, h2, h3⟩ := ih (r := r.free p) (lists_wf_changestate hwf p .free)
    refine ⟨h1, fun q => ?_, fun q => ?_⟩
    · rw [List.foldl_cons, h2, state_free]
      by_cases hq : q ∈ l <;> by_cases hqp : q = p <;> simp [hq, hqp]
    · rw [List.foldl_cons, h3]
      show (if q ∈ l then 0 else Function.update r.refcount p 0 q) = _
      by_cases hq : q ∈ l <;> by_cases hqp : q = p <;> simp [hq, hqp]

theorem foldl_free_file (l : List ℕ) (r : Regs) (f : FileId) :
    l.foldl (fun r i => r.free ⟨f, i⟩) r = (l.map fun i => (⟨f, i⟩ : PhysReg)).foldl free r := by
  rw [List.foldl_map]

/-- Every register in state `st` is freed. -/
theorem freeAll_spec (hwf : ∀ f, (r.lists f).WF) (st : PhysState) (hst : st ≠ .free) :
    (∀ f, ((r.freeAll st).lists f).WF) ∧
      (∀ q, (r.freeAll st).state q = if r.state q = some st then some .free else r.state q) ∧
      ∀ q, (r.freeAll st).refcount q = if r.state q = some st then 0 else r.refcount q := by
  have hall : ∀ (l : List FileId) (r : Regs), (∀ f, (r.lists f).WF) →
      (∀ f, ((l.foldl (fun r f => ((r.lists f).members st).foldl (fun r i => r.free ⟨f, i⟩) r) r).lists
        f).WF) ∧
      (∀ q, (l.foldl (fun r f => ((r.lists f).members st).foldl (fun r i => r.free ⟨f, i⟩) r) r).state q =
        if q.rfid ∈ l ∧ r.state q = some st then some .free else r.state q) ∧
      ∀ q, (l.foldl (fun r f => ((r.lists f).members st).foldl (fun r i => r.free ⟨f, i⟩) r) r).refcount q =
        if q.rfid ∈ l ∧ r.state q = some st then 0 else r.refcount q := by
    intro l
    induction l with
    | nil => exact fun r hr => ⟨hr, by simp, by simp⟩
    | cons f l ih =>
      intro r hr
      obtain ⟨h1, h2, h3⟩ := foldl_free (((r.lists f).members st).map fun i => (⟨f, i⟩ : PhysReg)) hr
      rw [← foldl_free_file] at h1 h2 h3
      have hmem : ∀ q : PhysReg, q ∈ ((r.lists f).members st).map (fun i => (⟨f, i⟩ : PhysReg)) ↔
          q.rfid = f ∧ r.state q = some st := by
        intro q
        rw [List.mem_map]
        constructor
        · rintro ⟨i, hi, rfl⟩
          exact ⟨rfl, ((hr f).mem_iff i st).1 hi⟩
        · rintro ⟨rfl, hq⟩
          exact ⟨q.idx, ((hr q.rfid).mem_iff q.idx st).2 hq, rfl⟩
      simp only [hmem] at h2 h3
      obtain ⟨k1, k2, k3⟩ := ih _ h1
      refine ⟨k1, fun q => ?_, fun q => ?_⟩
      · rw [List.foldl_cons, k2, h2]
        by_cases hqf : q.rfid = f <;> by_cases hql : q.rfid ∈ l <;> by_cases hqs : r.state q = some st <;>
          simp [hqf, hql, hqs, hst.symm]
      · rw [List.foldl_cons, k3, h3, h2]
        by_cases hqf : q.rfid = f <;> by_cases hql : q.rfid ∈ l <;> by_cases hqs : r.state q = some st <;>
          simp [hqf, hql, hqs, hst.symm]
  obtain ⟨h1, h2, h3⟩ := hall (List.finRange 4) r hwf
  refine ⟨h1, fun q => ?_, fun q => ?_⟩
  · unfold freeAll
    rw [h2]
    simp
  · unfold freeAll
    rw [h3]
    simp

/-- The flush frees every register, if those in flight are those of the entries. -/
theorem freed_flush (order : List ℕ) (hwf : ∀ f, (r.lists f).WF)
    (hrange : ∀ p, r.state p = none ↔ FileId.size p.rfid ≤ p.idx)
    (hflight : ∀ p st, r.state p = some st → st = .free ∨ st = .arch ∨ st = .pendingfree ∨
      ∃ i ∈ order, r.physreg i = p)
    (hcount : ∀ p, p.nonnull = true → r.state p = none ∨ r.state p = some .free → r.refcount p = 0)
    (hdest : ∀ i ∈ order, r.state (r.physreg i) ≠ none) : (r.flush order).Freed := by
  have hphys : ∀ (l : List ℕ) (r : Regs), l.foldl (fun r i => r.free (r.physreg i)) r =
      (l.map r.physreg).foldl free r := by
    intro l
    induction l with
    | nil => exact fun _ => rfl
    | cons i l ih => exact fun r => ih (r.free (r.physreg i))
  obtain ⟨h1, h2, h3⟩ := foldl_free (order.map r.physreg) hwf
  rw [← hphys] at h1 h2 h3
  unfold flush
  dsimp only
  generalize order.foldl (fun r i => r.free (r.physreg i)) r = r₁ at h1 h2 h3 ⊢
  obtain ⟨k1, k2, k3⟩ := freeAll_spec h1 .arch (by simp)
  obtain ⟨m1, m2, m3⟩ := freeAll_spec k1 .pendingfree (by simp)
  -- every register in flight is the destination of an entry, and the entries are freed first
  have hstate : ∀ q, ((r₁.freeAll .arch).freeAll .pendingfree).state q =
      if r.state q = none then none else some .free := by
    intro q
    rw [m2, k2, h2]
    by_cases hq : q ∈ order.map r.physreg
    · obtain ⟨i, hi, rfl⟩ := List.mem_map.1 hq
      simp [hq, hdest i hi]
    · simp only [if_neg hq]
      cases hs : r.state q with
      | none => simp
      | some st =>
        rcases hflight q st hs with rfl | rfl | rfl | ⟨i, hi, hiq⟩
        · simp
        · simp
        · simp
        · exact absurd (List.mem_map.2 ⟨i, hi, hiq⟩) hq
  refine ⟨m1, fun p => ?_, fun p st hst => ?_, fun p hp => ?_⟩
  · rw [hstate, ← hrange p]
    by_cases hn : r.state p = none <;> simp [hn]
  · rw [hstate] at hst
    split at hst
    · cases hst
    · exact (Option.some.inj hst).symm
  · rw [m3, k3, k2, h3, h2]
    by_cases hq : p ∈ order.map r.physreg
    · simp [hq]
    · simp only [if_neg hq]
      cases hs : r.state p with
      | none => simpa using hcount p hp (.inl hs)
      | some st =>
        rcases hflight p st hs with rfl | rfl | rfl | ⟨i, hi, hiq⟩
        · simpa using hcount p hp (.inr hs)
        · simp
        · simp
        · exact absurd (List.mem_map.2 ⟨i, hi, hiq⟩) hq

/-! ### The zero registers -/

/-- The states of the registers when the zero registers are there: theirs, and no other. -/
structure Zeroed (r : Regs) : Prop where
  lists_wf : ∀ f, (r.lists f).WF
  range : ∀ p, r.state p = none ↔ FileId.size p.rfid ≤ p.idx
  zero : ∀ f, r.state ⟨f, 0⟩ = some .arch
  rest : ∀ p st, r.state p = some st → p.idx ≠ 0 → st = .free
  refcount : ∀ p, p.nonnull = true → r.refcount p = 0

theorem size_pos (f : FileId) : 0 < FileId.size f := by revert f; decide

theorem Freed.allocZeros (h : r.Freed) : r.allocZeros.Zeroed := by
  have hfold : ∀ (l : List FileId) (r : Regs), (∀ f, (r.lists f).WF) →
      (∀ f, ((l.foldl (fun r f => ((r.alloc ⟨f, 0⟩).addref ⟨f, 0⟩).changestate ⟨f, 0⟩ .arch) r).lists
        f).WF) ∧
      (∀ q, (l.foldl (fun r f => ((r.alloc ⟨f, 0⟩).addref ⟨f, 0⟩).changestate ⟨f, 0⟩ .arch) r).state q =
        if q.rfid ∈ l ∧ q.idx = 0 then some .arch else r.state q) ∧
      ∀ q, q.nonnull = true → (l.foldl (fun r f =>
        ((r.alloc ⟨f, 0⟩).addref ⟨f, 0⟩).changestate ⟨f, 0⟩ .arch) r).refcount q = r.refcount q := by
    intro l
    induction l with
    | nil => exact fun r hr => ⟨hr, by simp, fun _ _ => rfl⟩
    | cons f l ih =>
      intro r hr
      obtain ⟨h1, h2, h3⟩ := ih (((r.alloc ⟨f, 0⟩).addref ⟨f, 0⟩).changestate ⟨f, 0⟩ .arch)
        (lists_wf_changestate (lists_wf_changestate hr _ _) _ _)
      refine ⟨h1, fun q => ?_, fun q hq => ?_⟩
      · rw [List.foldl_cons, h2, state_changestate]
        show (if _ then _ else if q = _ then _ else (r.changestate ⟨f, 0⟩ .waiting).state q) = _
        rw [state_changestate]
        have heq : q = ⟨f, 0⟩ ↔ q.rfid = f ∧ q.idx = 0 := by
          cases q; simp
        by_cases hqf : q.rfid = f <;> by_cases hql : q.rfid ∈ l <;> by_cases hq0 : q.idx = 0 <;>
          simp [heq, hqf, hql, hq0]
      · rw [List.foldl_cons, h3 q hq]
        show ((r.alloc ⟨f, 0⟩).addref ⟨f, 0⟩).refcount q = _
        rw [refcount_addref, here_of_ne]
        · simp only [Nat.cast_zero, add_zero]; rfl
        · rintro rfl; cases hq
  obtain ⟨h1, h2, h3⟩ := hfold (List.finRange 4) r h.lists_wf
  have hstate : ∀ q, r.allocZeros.state q = if q.idx = 0 then some .arch else r.state q := fun q => by
    unfold Regs.allocZeros
    rw [h2]
    simp
  refine ⟨h1, fun p => ?_, fun f => by rw [hstate]; rfl, fun p st hst hp => ?_,
    fun p hp => (h3 p hp).trans (h.refcount p hp)⟩
  · rw [hstate]
    split
    · rename_i h0
      have := size_pos p.rfid
      simp only [reduceCtorEq, false_iff, not_le]
      omega
    · exact h.range p
  · rw [hstate, if_neg hp] at hst
    exact h.free p st hst

/-! ### One register for each architectural one -/

/-- The registers of `done` have one each, and there are enough for those of `todo`. -/
structure Allocating (done todo : List Reg) (r : Regs) : Prop where
  lists_wf : ∀ f, (r.lists f).WF
  range : ∀ p, r.state p = none ↔ FileId.size p.rfid ≤ p.idx
  zero : ∀ f, r.state ⟨f, 0⟩ = some .arch
  given : ∀ a ∈ done, a ≠ Reg.zero → r.state (r.commitrrt a) = some .waiting
  null : Reg.zero ∈ done → r.commitrrt Reg.zero = PhysReg.null
  inj : ∀ a ∈ done, ∀ b ∈ done, a ≠ Reg.zero → b ≠ Reg.zero → r.commitrrt a = r.commitrrt b → a = b
  rest : ∀ p st, r.state p = some st → p.idx ≠ 0 →
    st = .free ∨ st = .waiting ∧ ∃ a ∈ done, a ≠ Reg.zero ∧ r.commitrrt a = p
  refcount : ∀ p, p.nonnull = true → r.refcount p = 0
  room : ∀ f, todo.countP (fun a => archFile a = f) ≤ ((r.lists f).members .free).length

theorem free_length (hwf : ∀ f, (r.lists f).WF) (h : ∀ i, r.state ⟨f, i⟩ = some .free ↔
    1 ≤ i ∧ i < FileId.size f) : ((r.lists f).members .free).length = FileId.size f - 1 := by
  have hperm : ((r.lists f).members .free).Perm (List.range' 1 (FileId.size f - 1)) := by
    refine (List.perm_ext_iff_of_nodup ((hwf f).nodup _) List.nodup_range').2 fun i => ?_
    rw [(hwf f).mem_iff, List.mem_range'_1]
    have := h i
    unfold Regs.state at this
    have hpos := size_pos f
    rw [this]
    omega
  rw [hperm.length_eq, List.length_range']

theorem Zeroed.allocating (h : r.Zeroed) :
    Allocating [] ((List.finRange 80).filter Reg.isArch) r := by
  refine ⟨h.lists_wf, h.range, h.zero, by simp, by simp, by simp, fun p st hst hp =>
    .inl (h.rest p st hst hp), h.refcount, fun f => ?_⟩
  rw [free_length h.lists_wf fun i => ?_]
  · revert f
    decide +kernel
  · have hr := h.range ⟨f, i⟩
    constructor
    · intro hf
      rw [hf] at hr
      simp only [reduceCtorEq, false_iff, not_le] at hr
      refine ⟨?_, hr⟩
      by_contra h0
      obtain rfl : i = 0 := by omega
      rw [h.zero f] at hf
      cases hf
    · rintro ⟨h1, h2⟩
      cases hs : r.state ⟨f, i⟩ with
      | none =>
        have := hr.1 hs
        dsimp only at this
        omega
      | some st => rw [h.rest _ st hs (by dsimp only; omega)]

theorem members_changestate_of_ne {σ : Type} [DecidableEq σ] {l : StateLists σ} {i : ℕ} {s t : σ}
    (hst : t ≠ s) : (l.changestate i s).members t =
      if l.current i = some t then (l.members t).erase i else l.members t := by
  unfold StateLists.changestate StateLists.link
  dsimp only
  rw [Function.update_of_ne hst, StateLists.members_remove]

/-- Taking the first free register leaves one fewer in its file. -/
theorem length_free_changestate {f : FileId} {i : ℕ} {l : List ℕ}
    (hil : (r.lists f).members .free = i :: l) (hfree : r.state ⟨f, i⟩ = some .free) (g : FileId) :
    (((r.changestate ⟨f, i⟩ .waiting).lists g).members .free).length =
      ((r.lists g).members .free).length - if g = f then 1 else 0 := by
  unfold Regs.changestate
  dsimp only
  by_cases hg : g = f
  · subst hg
    have hcur : (r.lists g).current i = some .free := hfree
    rw [Function.update_self, if_pos rfl, members_changestate_of_ne (by simp), if_pos hcur, hil]
    simp
  · rw [if_neg hg, Function.update_of_ne hg]
    rfl

/-- The zero register takes no name of its own: it keeps the null one. -/
theorem Allocating.giveNull {done todo : List Reg} (h : Allocating done (Reg.zero :: todo) r)
    (hnew : Reg.zero ∉ done) : Allocating (Reg.zero :: done) todo
      { r with commitrrt := Function.update r.commitrrt Reg.zero PhysReg.null } := by
  have hupd : ∀ b ∈ done, Function.update r.commitrrt Reg.zero PhysReg.null b = r.commitrrt b :=
    fun b hb => Function.update_of_ne (by rintro rfl; exact hnew hb) _ _
  constructor
  case lists_wf => exact h.lists_wf
  case range => exact h.range
  case zero => exact h.zero
  case given =>
    intro b hb hb0
    have hb := (List.mem_cons.1 hb).resolve_left hb0
    dsimp only
    rw [hupd b hb]
    exact h.given b hb hb0
  case null =>
    intro _
    dsimp only
    exact Function.update_self _ _ _
  case inj =>
    intro b hb d hd hb0 hd0 hbd
    have hb := (List.mem_cons.1 hb).resolve_left hb0
    have hd := (List.mem_cons.1 hd).resolve_left hd0
    dsimp only at hbd
    rw [hupd b hb, hupd d hd] at hbd
    exact h.inj b hb d hd hb0 hd0 hbd
  case rest =>
    intro p st hst hp
    rcases h.rest p st hst hp with hf | ⟨hw, b, hb, hb0, hbp⟩
    · exact .inl hf
    · exact .inr ⟨hw, b, List.mem_cons_of_mem _ hb, hb0, (hupd b hb).trans hbp⟩
  case refcount => exact h.refcount
  case room =>
    intro f
    have := h.room f
    rw [List.countP_cons] at this
    exact le_trans (Nat.le_add_right _ _) this

/-- The room counted for the registers still to name leaves a free one for the next. -/
theorem Allocating.exists_free {done todo : List Reg} (h : Allocating done (a :: todo) r) :
    ∃ i l, (r.lists (archFile a)).members .free = i :: l ∧
      r.peekFree (archFile a) = some ⟨archFile a, i⟩ ∧ r.state ⟨archFile a, i⟩ = some .free := by
  have hne : ((r.lists (archFile a)).members .free) ≠ [] := by
    intro hnil
    have := h.room (archFile a)
    rw [hnil, List.countP_cons] at this
    simp at this
  obtain ⟨i, l, hil⟩ := List.exists_cons_of_ne_nil hne
  refine ⟨i, l, hil, ?_, ((h.lists_wf (archFile a)).mem_iff i .free).1 (by rw [hil]; exact List.mem_cons_self)⟩
  unfold peekFree
  rw [hil]
  rfl

theorem Allocating.give {done todo : List Reg} (h : Allocating done (a :: todo) r) (hnew : a ∉ done)
    (ha0 : a ≠ Reg.zero) {i : ℕ} {l : List ℕ} (hil : (r.lists (archFile a)).members .free = i :: l)
    (hfree : r.state ⟨archFile a, i⟩ = some .free) : Allocating (a :: done) todo
      { r.alloc ⟨archFile a, i⟩ with commitrrt := Function.update r.commitrrt a ⟨archFile a, i⟩ } := by
  have hroom : ∀ f, todo.countP (fun a => archFile a = f) ≤
      (((r.changestate ⟨archFile a, i⟩ .waiting).lists f).members .free).length := by
    intro f
    have := h.room f
    rw [List.countP_cons] at this
    rw [length_free_changestate hil hfree]
    by_cases hf : f = archFile a
    · subst hf
      rw [if_pos rfl]
      simp only [decide_true, if_true] at this
      omega
    · rw [if_neg hf]
      omega
  generalize (⟨archFile a, i⟩ : PhysReg) = p at *
  have hidx : p.idx ≠ 0 := by
    intro h0
    have := h.zero p.rfid
    rw [← h0] at this
    rw [this] at hfree
    cases hfree
  have hstate : ∀ q, Regs.state { r.alloc p with commitrrt := Function.update r.commitrrt a p } q =
      if q = p then some .waiting else r.state q := fun q => state_changestate p q .waiting
  have hupd : ∀ b ∈ done, Function.update r.commitrrt a p b = r.commitrrt b :=
    fun b hb => Function.update_of_ne (by rintro rfl; exact hnew hb) _ _
  have hbp : ∀ b ∈ done, b ≠ Reg.zero → r.commitrrt b ≠ p := by
    intro b hb hb0 heq
    have := h.given b hb hb0
    rw [heq, hfree] at this
    cases this
  constructor
  case lists_wf => exact lists_wf_changestate h.lists_wf p .waiting
  case range =>
    intro q
    rw [hstate]
    split
    · rename_i hqp
      have := h.range p
      rw [hfree] at this
      rw [hqp]
      simpa using this
    · exact h.range q
  case zero =>
    intro f
    rw [hstate, if_neg (by rintro rfl; exact hidx rfl)]
    exact h.zero f
  case given =>
    intro b hb hb0
    dsimp only
    rcases List.mem_cons.1 hb with rfl | hb
    · rw [Function.update_self, hstate, if_pos rfl]
    · rw [hupd b hb, hstate, if_neg (hbp b hb hb0)]
      exact h.given b hb hb0
  case null =>
    intro hz
    have hz := (List.mem_cons.1 hz).resolve_left (Ne.symm ha0)
    exact (hupd _ hz).trans (h.null hz)
  case inj =>
    intro b hb d hd hb0 hd0 hbd
    dsimp only at hbd
    -- two names only meet if one is the new one, and that one was still free
    rcases List.mem_cons.1 hb with hba | hb' <;> rcases List.mem_cons.1 hd with hda | hd'
    · rw [hba, hda]
    · rw [hba, Function.update_self, hupd d hd'] at hbd
      exact absurd hbd.symm (hbp d hd' hd0)
    · rw [hda, Function.update_self, hupd b hb'] at hbd
      exact absurd hbd (hbp b hb' hb0)
    · rw [hupd b hb', hupd d hd'] at hbd
      exact h.inj b hb' d hd' hb0 hd0 hbd
  case rest =>
    intro q st hst hq
    rw [hstate] at hst
    dsimp only
    split at hst
    · rename_i hqp
      exact .inr ⟨(Option.some.inj hst).symm, a, List.mem_cons_self, ha0, by
        rw [Function.update_self, hqp]⟩
    · rcases h.rest q st hst hq with hf | ⟨hw, b, hb, hb0, hbq⟩
      · exact .inl hf
      · exact .inr ⟨hw, b, List.mem_cons_of_mem _ hb, hb0, (hupd b hb).trans hbq⟩
  case refcount => exact h.refcount
  case room => exact hroom

/-- The next architectural register takes a free one. -/
theorem Allocating.step {done todo : List Reg} (h : Allocating done (a :: todo) r) (hnew : a ∉ done) :
    Allocating (a :: done) todo (if a = Reg.zero then
      { r with commitrrt := Function.update r.commitrrt a PhysReg.null }
      else
        match r.peekFree (archFile a) with
        | none => r
        | some p => { r.alloc p with commitrrt := Function.update r.commitrrt a p }) := by
  split
  · rename_i ha
    subst ha
    exact h.giveNull hnew
  · rename_i ha0
    obtain ⟨i, l, hil, hpeek, hfree⟩ := h.exists_free
    rw [hpeek]
    exact h.give hnew ha0 hil hfree

theorem Zeroed.allocArch (h : r.Zeroed) :
    ∃ done : List Reg, (∀ a, a ∈ done ↔ a.isArch = true) ∧ Allocating done [] r.allocArch := by
  have hrun : ∀ (todo done : List Reg) (r : Regs), todo.Nodup → (∀ a ∈ todo, a ∉ done) →
      Allocating done todo r → ∃ done', (∀ a, a ∈ done' ↔ a ∈ done ∨ a ∈ todo) ∧
        Allocating done' [] (todo.foldl (fun r a =>
          if a = Reg.zero then { r with commitrrt := Function.update r.commitrrt a PhysReg.null }
          else
            match r.peekFree (archFile a) with
            | none => r
            | some p => { r.alloc p with commitrrt := Function.update r.commitrrt a p }) r) := by
    intro todo
    induction todo with
    | nil => exact fun done r _ _ hr => ⟨done, by simp, hr⟩
    | cons a todo ih =>
      intro done r hnd hnew hr
      obtain ⟨ha, hnd⟩ := List.nodup_cons.1 hnd
      obtain ⟨done', hmem, hr'⟩ := ih (a :: done) _ hnd (fun b hb hbd => by
        rcases List.mem_cons.1 hbd with rfl | hbd
        · exact ha hb
        · exact hnew b (List.mem_cons_of_mem a hb) hbd) (hr.step (hnew a List.mem_cons_self))
      refine ⟨done', fun b => ?_, hr'⟩
      rw [hmem, List.mem_cons, List.mem_cons]
      tauto
  obtain ⟨done, hmem, hr⟩ := hrun ((List.finRange 80).filter Reg.isArch) [] r
    ((List.nodup_finRange 80).filter _) (by simp) h.allocating
  exact ⟨done, fun a => by rw [hmem]; simp, hr⟩

/-! ### Both tables -/

/-- One turn of `copyCommit`. -/
def copyTurn (r : Regs) (a : Reg) : Regs :=
  (({ r.changestate (r.commitrrt a) .arch with
    specrrt := Function.update r.specrrt a (r.commitrrt a) } : Regs).addref (r.commitrrt a)).addref
      (r.commitrrt a)

theorem copyTurns_spec (l : List Reg) (hwf : ∀ f, (r.lists f).WF) :
    (∀ f, ((l.foldl copyTurn r).lists f).WF) ∧
      (∀ q, (l.foldl copyTurn r).state q =
        if ∃ a ∈ l, r.commitrrt a = q then some .arch else r.state q) ∧
      (l.foldl copyTurn r).commitrrt = r.commitrrt ∧
      (∀ a, (l.foldl copyTurn r).specrrt a = if a ∈ l then r.commitrrt a else r.specrrt a) ∧
      ∀ q, (l.foldl copyTurn r).refcount q = r.refcount q + 2 * names l r.commitrrt q := by
  induction l generalizing r with
  | nil => exact ⟨hwf, by simp, rfl, by simp, by simp [names]⟩
  | cons a l ih =>
    obtain ⟨h1, h2, h3, h4, h5⟩ := ih (r := copyTurn r a) (lists_wf_changestate hwf (r.commitrrt a) .arch)
    have hs : ∀ q, (copyTurn r a).state q = if q = r.commitrrt a then some .arch else r.state q :=
      fun q => state_changestate (r.commitrrt a) q .arch
    have hc : (copyTurn r a).commitrrt = r.commitrrt := rfl
    refine ⟨h1, fun q => ?_, h3, fun b => ?_, fun q => ?_⟩
    · rw [List.foldl_cons, h2, hs, hc]
      by_cases hl : ∃ b ∈ l, r.commitrrt b = q
      · obtain ⟨b, hb, hbq⟩ := hl
        rw [if_pos ⟨b, hb, hbq⟩, if_pos ⟨b, List.mem_cons_of_mem a hb, hbq⟩]
      · rw [if_neg hl]
        by_cases hq : q = r.commitrrt a
        · rw [if_pos hq, if_pos ⟨a, List.mem_cons_self, hq.symm⟩]
        · rw [if_neg hq, if_neg]
          rintro ⟨b, hb, hbq⟩
          rcases List.mem_cons.1 hb with rfl | hb
          · exact hq hbq.symm
          · exact hl ⟨b, hb, hbq⟩
    · rw [List.foldl_cons, h4]
      show (if b ∈ l then r.commitrrt b else Function.update r.specrrt a (r.commitrrt a) b) = _
      by_cases hb : b ∈ l
      · simp [hb]
      · by_cases hba : b = a
        · subst hba; simp
        · simp [hb, hba]
    · rw [List.foldl_cons, h5, hc, names_cons]
      unfold copyTurn
      rw [refcount_addref, refcount_addref]
      show r.refcount q + _ + _ + _ = _
      push_cast
      omega

theorem copyCommit_spec (hwf : ∀ f, (r.lists f).WF) :
    (∀ f, (r.copyCommit.lists f).WF) ∧
      (∀ q, r.copyCommit.state q = if ∃ a, r.commitrrt a = q then some .arch else r.state q) ∧
      r.copyCommit.commitrrt = r.commitrrt ∧ r.copyCommit.specrrt = r.commitrrt ∧
      ∀ q, r.copyCommit.refcount q = r.refcount q + 2 * tableNames r.commitrrt q := by
  obtain ⟨h1, h2, h3, h4, h5⟩ := copyTurns_spec (r := r) (List.finRange 80) hwf
  have heq : r.copyCommit = (List.finRange 80).foldl copyTurn r := rfl
  rw [← heq] at h1 h2 h3 h4 h5
  refine ⟨h1, fun q => ?_, h3, funext fun a => ?_, h5⟩
  · rw [h2]; simp
  · rw [h4, if_pos (List.mem_finRange a)]

/-- The registers of a flushed pipeline. -/
structure Fresh (r : Regs) : Prop where
  lists_wf : ∀ f, (r.lists f).WF
  range : ∀ p, r.state p = none ↔ FileId.size p.rfid ≤ p.idx
  counted : ∀ p, p.nonnull = true → r.refcount p = 2 * tableNames r.commitrrt p
  zeros : ∀ f, r.state ⟨f, 0⟩ = some .arch
  spec : r.specrrt = r.commitrrt
  committed : ∀ a, r.state (r.commitrrt a) = some .arch
  rest : ∀ p st, r.state p = some st → p.nonnull = true →
    st = .free ∨ st = .arch ∧ ∃ a, ¬(a = Reg.zf ∨ a = Reg.cf ∨ a = Reg.of) ∧ r.commitrrt a = p
  inj : ∀ a b, ¬(a = Reg.zf ∨ a = Reg.cf ∨ a = Reg.of) → ¬(b = Reg.zf ∨ b = Reg.cf ∨ b = Reg.of) →
    r.commitrrt a = r.commitrrt b → (r.commitrrt a).nonnull = true → a = b
  nonnull : ∀ a : Reg, a.isArch = true → a ≠ Reg.zero → (r.commitrrt a).nonnull = true

theorem Freed.fresh (h : r.Freed) : r.externalToCoreState.Fresh := by
  obtain ⟨done, hdone, h1⟩ := h.allocZeros.allocArch
  unfold externalToCoreState
  generalize r.allocZeros.allocArch = r₁ at h1
  -- the table of `mapTemps`
  have hflags : Reg.flags.isArch = true ∧ Reg.flags ≠ Reg.zero ∧
      ¬(Reg.flags = Reg.zf ∨ Reg.flags = Reg.cf ∨ Reg.flags = Reg.of) := by decide
  have hmap : ∀ a, r₁.mapTemps.commitrrt a = if a = Reg.zf ∨ a = Reg.cf ∨ a = Reg.of then
      r₁.commitrrt Reg.flags else if a.isArch then r₁.commitrrt a else PhysReg.null := fun _ => rfl
  have hnull : ∀ a, ¬(a = Reg.zf ∨ a = Reg.cf ∨ a = Reg.of) →
      (r₁.mapTemps.commitrrt a).nonnull = true →
      a ∈ done ∧ a ≠ Reg.zero ∧ r₁.mapTemps.commitrrt a = r₁.commitrrt a := by
    intro a ha hn
    rw [hmap, if_neg ha] at hn ⊢
    split at hn
    · rename_i harch
      have hmem : a ∈ done := (hdone a).2 harch
      rw [if_pos harch]
      refine ⟨hmem, ?_, rfl⟩
      rintro rfl
      rw [h1.null hmem] at hn
      cases hn
    · cases hn
  have hstate : ∀ a, r₁.state (r₁.mapTemps.commitrrt a) = some .arch ∨
      r₁.state (r₁.mapTemps.commitrrt a) = some .waiting := by
    intro a
    rw [hmap]
    split
    · exact .inr (h1.given _ ((hdone _).2 hflags.1) hflags.2.1)
    · split
      · rename_i harch
        by_cases hz : a = Reg.zero
        · subst hz
          rw [h1.null ((hdone _).2 harch)]
          exact .inl (h1.zero fileInt)
        · exact .inr (h1.given a ((hdone a).2 harch) hz)
      · exact .inl (h1.zero fileInt)
  obtain ⟨k1, k2, k3, k4, k5⟩ := copyCommit_spec (r := r₁.mapTemps) h1.lists_wf
  have hst : ∀ q, r₁.mapTemps.state q = r₁.state q := fun _ => rfl
  have hnn : ∀ {p : PhysReg}, p.nonnull = true → p.idx ≠ 0 := fun hp => by
    simpa [PhysReg.nonnull] using hp
  constructor
  case lists_wf => exact k1
  case range =>
    intro p
    rw [k2, hst]
    split
    · rename_i ha
      obtain ⟨a, rfl⟩ := ha
      have := h1.range (r₁.mapTemps.commitrrt a)
      rcases hstate a with hs | hs <;> · rw [hs] at this; simpa using this
    · exact h1.range p
  case counted =>
    intro p hp
    rw [k5, k3]
    show r₁.refcount p + _ = _
    rw [h1.refcount p hp]
    simp
  case zeros =>
    intro f
    rw [k2, hst, h1.zero f]
    split <;> rfl
  case spec => exact by rw [k4, k3]
  case committed =>
    intro a
    rw [k2, k3, if_pos ⟨a, rfl⟩]
  case rest =>
    intro p st hp hn
    rw [k2, hst] at hp
    rw [k3]
    split at hp
    · rename_i ha
      obtain ⟨a, rfl⟩ := ha
      refine .inr ⟨(Option.some.inj hp).symm, ?_⟩
      by_cases hf : a = Reg.zf ∨ a = Reg.cf ∨ a = Reg.of
      · refine ⟨Reg.flags, hflags.2.2, ?_⟩
        rw [hmap a, if_pos hf, hmap, if_neg hflags.2.2, if_pos hflags.1]
      · exact ⟨a, hf, rfl⟩
    · rename_i hna
      rcases h1.rest p st hp (hnn hn) with hf | ⟨-, a, ha, hz, hap⟩
      · exact .inl hf
      · exfalso
        apply hna
        by_cases hf : a = Reg.zf ∨ a = Reg.cf ∨ a = Reg.of
        · have := (hdone a).1 ha
          rcases hf with rfl | rfl | rfl <;> cases this
        · exact ⟨a, by rw [hmap, if_neg hf, if_pos ((hdone a).1 ha), hap]⟩
  case inj =>
    intro a b ha hb hab hn
    rw [k3] at hab hn
    obtain ⟨had, haz, hac⟩ := hnull a ha hn
    obtain ⟨hbd, hbz, hbc⟩ := hnull b hb (by rw [← hab]; exact hn)
    rw [hac, hbc] at hab
    exact h1.inj a had b hbd haz hbz hab
  case nonnull =>
    intro a ha hz
    have hf : ¬(a = Reg.zf ∨ a = Reg.cf ∨ a = Reg.of) := by rintro (rfl | rfl | rfl) <;> cases ha
    rw [k3, hmap, if_neg hf, if_pos ha]
    have hgiven := h1.given a ((hdone a).2 ha) hz
    by_contra hn
    have h0 : r₁.commitrrt a = ⟨(r₁.commitrrt a).rfid, 0⟩ := by
      have : (r₁.commitrrt a).idx = 0 := by simpa [PhysReg.nonnull] using hn
      rw [← this]
    rw [h0, h1.zero] at hgiven
    cases hgiven

end
end Regs
end X86Sim.Ooo
