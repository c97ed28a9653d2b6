import X86Sim.Proof.BaseStep

/-!
# The issue of a uop keeps the shape

While entry `i` issues it is in no queue by its state but still holds its slot
(`Issuing`). Each way the issue ends (`Executed`) settles that: the slot is given up
(`finishIssue`), the entry returns to its queue (`replay`), or the entry is annulled
or redispatched with its slot.
-/

namespace X86Sim.Ooo

open IssueQueue

/-- Entry `i` is being issued on cluster `cl` and is in list `st`. -/
structure Issuing (i : ℕ) (cl : Cluster) (st : RobState) (inq : ℕ → Option Cluster) (c : Core) :
    Prop where
  base : BaseAt inq c
  own : inq i = some cl
  others : ∀ k, k ≠ i → inq k = c.sched.inq k
  slot : ∃ slot, c.sched.iqslot i = some slot ∧ (uopids (c.sched.queue cl))[slot]? = some i
  state : c.sched.lists.current i = some st
  outside : st.queue? = none

section

variable {c c' : Core} {i : ℕ} {cl : Cluster} {st : RobState} {inq : ℕ → Option Cluster}
  {W post X Y : List ℕ} {s : ℕ}

/-- An entry that is not settled is past the partly committed instruction. -/
theorem Core.Split.mem_post (h : c.Split W post) (hi : i ∈ c.order)
    (hst : c.sched.lists.current i = some st) (hns : ¬st.Settled) : i ∈ post := by
  rw [h.order] at hi
  rcases List.mem_append.1 hi with hi | hi
  · obtain ⟨st', hst', hs⟩ := h.settled i hi
    rw [hst] at hst'
    exact absurd (Option.some.inj hst' ▸ hs) hns
  · exact hi

/-- Nothing of a partly committed instruction comes after an entry that is not settled. -/
theorem Core.Split.not_mem_after (h : c.Split W post) (hnd : c.order.Nodup) (hi : i ∈ post)
    (hord : c.order = X ++ i :: Y) {k : ℕ} (hk : k ∈ W) : k ∉ i :: Y := by
  have hW : ∀ k ∈ W, k ∉ post := by
    rw [h.order] at hnd
    exact fun k hk hp => (List.disjoint_of_nodup_append hnd) hk hp
  rw [h.order] at hord
  rcases List.append_eq_append_iff.1 hord with ⟨M, -, hpost⟩ | ⟨M, hWX, hiY⟩
  · rw [hpost] at hW
    exact fun hm => hW k hk (List.mem_append_right M hm)
  · cases M with
    | nil => rw [List.nil_append] at hiY; rw [hiY]; exact hW k hk
    | cons m M =>
      rw [List.cons_append, List.cons.injEq] at hiY
      exact absurd hi (hW i (by rw [hWX, hiY.1]; simp))

/-! ### Annulment -/

/-- An annulment from the first uop of an instruction on, with the fetch unit reset. -/
theorem BaseAt.cut (h : BaseAt inq c) (hsp : c.Split W post) (hpost : post = X ++ s :: Y)
    (hsom : (c.uop s).op.som = true) (hinq : ∀ k, k ∉ s :: Y → inq k = c.sched.inq k)
    (rc : ℕ → Bool) (rip : W64) : Base ((c.annulFrom rc s).resetFetchUnit rip) := by
  have hord : c.order = (W ++ X) ++ s :: Y := by rw [hsp.order, hpost, List.append_assoc]
  obtain ⟨hwf, ha⟩ := annulFrom_spec rc h.sched hord
  have hnd : c.order.Nodup := h.sched.ring_wf.nodup_order
  have hkept : ∀ k ∈ W ++ X, k ∉ s :: Y := by
    rw [hord] at hnd
    exact fun k hk hks => (List.disjoint_of_nodup_append hnd) hk hks
  generalize c.annulFrom rc s = c₁ at hwf ha ⊢
  have hblocks : BlocksWF c₁.mach.bbcache := by rw [ha.mach]; exact fun _ _ hb => h.fetch.blocks hb
  have hlink : Linked true (c₁.robOps X) true := by
    have := hsp.linked
    rw [hpost] at this
    simp only [Core.robOps, List.map_append, List.map_cons, List.append_assoc, List.cons_append,
      linked_append, linked_cons] at this
    obtain ⟨f, hX, hf, -⟩ := this
    rw [hsom] at hf
    simp only [Core.robOps, ha.uop]
    exact hf ▸ hX
  have hmain := BaseAt.resetFetch hwf (fun k hk => ?_) ha.order (fun k hk => ?_)
    (by rw [ha.uop]; exact hsp.inner) (by rw [ha.uop]; exact hsp.last) hlink (fun k hk => ?_) hblocks rip
  · have hr := fetchReset c₁ rip
    have hinq' : (c₁.resetFetchUnit rip).sched.inq = fun k => if k ∈ s :: Y then none else inq k := by
      funext k
      rw [hr.sched]
      unfold Sched.inq
      rw [ha.state]
      split
      · rfl
      · rename_i hk; exact (hinq k hk).symm
    show BaseAt (c₁.resetFetchUnit rip).sched.inq _
    rw [hinq']
    exact hmain
  · obtain ⟨hks, hk⟩ := ha.lfrq k hk
    rw [ha.state, if_neg hks]
    exact h.lfrq k hk
  · rw [ha.state, if_neg (hkept k (List.mem_append_left _ hk))]
    exact hsp.settled k hk
  · rw [ha.order] at hk
    rw [ha.uop]
    exact h.ops k (by rw [hord]; exact List.mem_append_left _ hk)

/-- Entry `i` and its instruction are annulled. -/
theorem Issuing.annul (h : Issuing i cl st inq c) (hns : ¬st.Settled) (hne : st ≠ .free)
    (rc : ℕ → Bool) (rip : W64) : Base ((c.annul rc i false).2.resetFetchUnit rip) := by
  obtain ⟨W, post, hsp⟩ := h.base.split
  have hi : i ∈ c.order := h.base.sched.mem_order h.state hne
  obtain ⟨X, s, Y, hpost, his, hsom, hstart⟩ :=
    annulStart_som h.base.sched.ring_wf hsp (hsp.mem_post hi h.state hns)
  have hs : s ∈ c.order := by rw [hsp.order, hpost]; simp
  have htail : s ≠ c.ring.tail := by
    rintro rfl
    exact h.base.sched.ring_wf.tail_not_mem hs
  unfold Core.annul
  dsimp only
  rw [hstart, if_neg htail]
  refine h.base.cut hsp hpost hsom (fun k hk => h.others k ?_) rc rip
  rintro rfl
  exact hk his

/-- Everything after a branch that ends its instruction is annulled. -/
theorem Base.annulAfter (h : Base c) (hst : c.sched.lists.current i = some st) (hns : ¬st.Settled)
    (hne : st ≠ .free) (heom : (c.uop i).op.eom = true) (rc : ℕ → Bool) (rip : W64) :
    Base ((c.annul rc i true).2.resetFetchUnit rip) := by
  obtain ⟨W, post, hsp⟩ := h.split
  have hi : i ∈ c.order := h.sched.mem_order hst hne
  obtain ⟨A, B, hpost⟩ := List.append_of_mem (hsp.mem_post hi hst hns)
  have hord : c.ring.order ROB_SIZE = (W ++ A) ++ i :: B := by
    show c.order = _
    rw [hsp.order, hpost, List.append_assoc]
  unfold Core.annul
  dsimp only
  rw [annulStart_eom heom]
  cases B with
  | nil =>
    -- nothing comes after it but what the fetch unit holds
    rw [if_pos (h.sched.ring_wf.next_last hord)]
    have hlink : Linked true (c.robOps post) true := by
      have := hsp.linked
      rw [linked_append] at this
      obtain ⟨f, hf, -⟩ := this
      have hconcat : c.robOps post = c.robOps A ++ [(c.uop i).op] := by simp [Core.robOps, hpost]
      rw [hconcat, linked_concat, heom] at hf ⊢
      exact ⟨hf.1, rfl⟩
    have := BaseAt.resetFetch h.sched h.lfrq hsp.order hsp.settled hsp.inner hsp.last hlink h.ops h.blocks rip
    show BaseAt (c.resetFetchUnit rip).sched.inq _
    rw [(fetchReset c rip).sched]
    exact this
  | cons q B =>
    have hnext : CircQueue.next ROB_SIZE i = q := h.sched.ring_wf.next_of_order hord
    have hq : q ∈ c.order := by show q ∈ c.ring.order ROB_SIZE; rw [hord]; simp
    have htail : q ≠ c.ring.tail := by
      rintro rfl
      exact h.sched.ring_wf.tail_not_mem hq
    rw [hnext, if_neg htail]
    have hsom : (c.uop q).op.som = true := by
      have := hsp.linked
      rw [hpost] at this
      simp only [Core.robOps, List.map_append, List.map_cons, List.append_assoc,
        List.cons_append] at this
      rw [this.som_next, heom]
    exact BaseAt.cut (X := A ++ [i]) (Y := B) h hsp (by rw [hpost]; simp) hsom (fun _ _ => rfl) rc rip

/-! ### Redispatch and replay -/

theorem Issuing.aliasRedispatch (h : Issuing i cl st inq c) (hns : ¬st.Settled) (hne : st ≠ .free)
    (hst : isstore (c.uop i).op.opcode) (j k : ℕ) : Base (c.aliasRedispatch i j k) := by
  obtain ⟨A, B, hAB⟩ := List.append_of_mem (h.base.sched.mem_order h.state hne)
  have hord : c.order = A ++ i :: B := hAB
  obtain ⟨hwf, hr⟩ := redispatchDependents_spec (c := c.aliasMark i j k) hst h.base.sched hord
  unfold Core.aliasRedispatch
  generalize (c.aliasMark i j k).redispatchDependents i = c₁ at hwf hr ⊢
  have hnd : c.order.Nodup := h.base.sched.ring_wf.nodup_order
  have hring : c₁.ring = c.ring := hr.ring
  have hinq : c₁.sched.inq = fun k => if k ∈ i :: B then none else inq k := by
    funext k
    unfold Sched.inq
    rw [hr.state]
    split
    · rfl
    · rename_i hk
      rw [h.others k (by rintro rfl; exact hk List.mem_cons_self)]
      rfl
  show BaseAt c₁.sched.inq c₁
  rw [hinq]
  refine h.base.update (by rw [hring]; exact hwf) (fun k hk => ?_) (by unfold Core.order; rw [hring])
    (fun k => by rw [hr.uop]; exact SameMarks.refl _) (fun W post hsp k hk st' hst' hs' => ?_)
    (by rw [hr.fetch]; exact .refl _) (by rw [hr.mach]; exact .refl _)
  · obtain ⟨hki, hk⟩ := hr.lfrq k hk
    rw [hr.state, if_neg hki]
    exact h.base.lfrq k hk
  · -- what is left of a partly committed instruction is older than the store
    have hip : i ∈ post := hsp.mem_post (h.base.sched.mem_order h.state hne) h.state hns
    have hkB : k ∉ i :: B := hsp.not_mem_after hnd hip hord hk
    exact ⟨st', by rw [hr.state, if_neg hkB]; exact hst', hs'⟩

/-- The execution before it decides how to go on. -/
theorem Issuing.touch (h : Issuing i cl st inq c) (ht : Touch i c c') : Issuing i cl st inq c' where
  base := by
    refine h.base.frame ht.ring (by rw [ht.sched]) (by rw [ht.sched]; exact h.base.sched)
      ht.ls.lfrq (fun k => SameMarks.of_eq (ht.uop k).1) ?_ ?_
    · rw [ht.fetch]; exact .refl _
    · rw [ht.mach]; exact .refl _
  own := h.own
  others := by rw [ht.sched]; exact h.others
  slot := by rw [ht.sched]; exact h.slot
  state := by rw [ht.sched]; exact h.state
  outside := h.outside

/-- Only the counters of the scheduler change. -/
theorem Issuing.setCycles (h : Issuing i cl st inq c) (left : ℕ → ℤ) :
    Issuing i cl st inq { c with sched := { c.sched with cyclesLeft := left } } where
  base := h.base.frame rfl rfl (h.base.sched.congr rfl rfl rfl fun _ => rfl) (fun _ hk => hk)
    (fun _ => SameMarks.refl _) (SameFetch.refl _) (.refl _)
  own := h.own
  others := h.others
  slot := h.slot
  state := h.state
  outside := h.outside

/-- The entry moves to a list outside the queues. -/
theorem Issuing.setState (h : Issuing i cl st inq c) (st' : RobState) (hne : st ≠ .free)
    (hne' : st' ≠ .free) (hok : st'.ClusterOk (some cl)) (hout : st'.queue? = none)
    (hset : st.Settled → st'.Settled)
    (left : ℕ → ℤ) (lfrq : ℕ → Bool)
    (hlfrq : ∀ k, lfrq k = true → c.ls.lfrq k = true ∧ k ≠ i ∨ k = i ∧ st' = .cacheMiss) :
    Issuing i cl st' inq { c with
      sched := { c.sched.changestate i st' with cyclesLeft := left }
      ls := { c.ls with lfrq := lfrq } } where
  base := by
    have hcl : c.sched.cluster i = some cl := h.base.sched.inq_cluster i cl h.own
    have hi : i ∈ c.order := h.base.sched.mem_order h.state hne
    have hcur : ∀ k, (c.sched.lists.changestate i st').current k =
        if k = i then some st' else c.sched.lists.current k :=
      fun k => StateLists.current_changestate i k st'
    refine h.base.update ?_ (fun k hk => ?_) rfl (fun _ => SameMarks.refl _)
      (fun W post hsp k hk st₀ hst₀ hs => ?_) (SameFetch.refl _) (.refl _)
    · refine (h.base.sched.changestate hi hne' ?_).congr rfl rfl rfl fun _ => rfl
      rw [hcl]; exact hok
    · show (c.sched.lists.changestate i st').current k = _
      rw [hcur]
      rcases hlfrq k hk with ⟨hk, hki⟩ | ⟨rfl, rfl⟩
      · rw [if_neg hki]; exact h.base.lfrq k hk
      · rw [if_pos rfl]
    · show ∃ st'', (c.sched.lists.changestate i st').current k = some st'' ∧ _
      rw [hcur]
      split
      · rename_i hki
        subst hki
        rw [h.state] at hst₀
        exact ⟨st', rfl, hset (Option.some.inj hst₀ ▸ hs)⟩
      · exact ⟨st₀, hst₀, hs⟩
  own := h.own
  others k hk := by
    rw [h.others k hk]
    show _ = (c.sched.changestate i st').inq k
    rw [Sched.inq_changestate, Function.update_of_ne hk]
  slot := h.slot
  state := (StateLists.current_changestate i i st').trans (if_pos rfl)
  outside := hout

/-- The entry goes back to the list it waits on, in the slot it still has. -/
theorem Issuing.replay (h : Issuing i cl st inq c) (hne : st ≠ .free) (hns : ¬st.Settled)
    (hmiss : st ≠ .cacheMiss) : Base (c.replay i cl) := by
  have hcl : c.sched.cluster i = some cl := h.base.sched.inq_cluster i cl h.own
  have hw : ∃ st', c.waitList i cl = st' ∧ st'.queue? = some cl ∧ st' ≠ .free ∧
      st'.ClusterOk (some cl) := by
    refine ⟨_, rfl, ?_⟩
    unfold Core.waitList Core.readyToIssueList
    dsimp only
    repeat' split
    all_goals exact ⟨rfl, by simp, rfl⟩
  obtain ⟨st', hst', hq, hne', hok⟩ := hw
  have hinq : (c.replay i cl).sched.inq = inq := by
    have hl : (c.replay i cl).sched.lists = (c.sched.changestate i st').lists := by rw [← hst']; rfl
    rw [inq_eq_of_lists hl, Sched.inq_changestate]
    funext k
    by_cases hk : k = i
    · subst hk; rw [Function.update_self, hq, h.own]
    · rw [Function.update_of_ne hk, h.others k hk]
  show BaseAt (c.replay i cl).sched.inq _
  rw [hinq]
  refine h.base.move st' (h.base.sched.mem_order h.state hne) hne' (by rw [hcl]; exact hok) rfl
    (by rw [← hst']; rfl) rfl rfl (fun dest => ?_) (fun k hk => ⟨hk, ?_⟩) rfl (fun st₀ hst₀ hs => ?_)
    (SameFetch.refl _) (.refl _)
  · simp only [Core.replay, Sched.onQueue, Sched.changestate]
    by_cases hd : dest = cl
    · subst hd; rw [Function.update_self]; exact uopids_replayWith _ _ _
    · rw [Function.update_of_ne hd]
  · rintro rfl
    have := h.base.lfrq k hk
    rw [h.state] at this
    exact absurd (Option.some.inj this) hmiss
  · rw [h.state] at hst₀
    exact absurd (Option.some.inj hst₀ ▸ hs) hns

theorem Issuing.replaySecondPhase (h : Issuing i cl st inq c) (hne : st ≠ .free) (hns : ¬st.Settled)
    (hmiss : st ≠ .cacheMiss) : Base (c.replaySecondPhase i cl) :=
  (h.replay hne hns hmiss).rest rfl rfl (fun _ hk => hk) rfl (SameFetch.refl _) (.refl _)

/-! ### The end of an issue -/

/-- The slot is given up. -/
theorem Issuing.releaseSlot (h : Issuing i cl st inq c) : Base (c.releaseSlot i cl) := by
  obtain ⟨slot, hslot, hget⟩ := h.slot
  have hinq : c.sched.inq = Function.update inq i none := by
    funext k
    by_cases hk : k = i
    · subst hk; rw [Function.update_self, Sched.inq_of h.state, h.outside]
    · rw [Function.update_of_ne hk, h.others k hk]
  show BaseAt c.sched.inq _
  rw [hinq]
  have hwf := h.base.sched.removeSlot hget
  have hrel : c.sched.release i cl = { c.sched.onQueue cl (·.remove slot) with
      issueqCount := c.sched.issueqCount - 1
      iqslot := Function.update c.sched.iqslot i none } := by
    unfold Sched.release
    rw [hslot]
    rfl
  unfold Core.releaseSlot
  rw [hrel]
  exact h.base.update (hwf.congr rfl rfl rfl fun _ => rfl) h.base.lfrq rfl
    (fun _ => SameMarks.refl _) (fun _ _ _ k _ st' hst hs => ⟨st', hst, hs⟩) (SameFetch.refl _) (.refl _)

theorem Issuing.setVals (h : Issuing i cl st inq c) (vals : Values) :
    Issuing i cl st inq { c with vals := vals } where
  base := h.base.frame rfl rfl h.base.sched (fun _ hk => hk) (fun _ => SameMarks.refl _)
    (SameFetch.refl _) (.refl _)
  own := h.own
  others := h.others
  slot := h.slot
  state := h.state
  outside := h.outside

theorem Issuing.toCommit (h : Issuing i cl st inq c) (hne : st ≠ .free) (hmiss : st ≠ .cacheMiss) :
    Issuing i cl .readyToCommit inq (c.toCommit i) := by
  refine h.setState .readyToCommit hne (by simp) rfl rfl (fun _ => trivial) _ c.ls.lfrq
    fun k hk => Or.inl ⟨hk, ?_⟩
  rintro rfl
  have := h.base.lfrq k hk
  rw [h.state] at this
  exact hmiss (Option.some.inj this)

/-- An exception or a fence goes to commit at once; a miss is neither. -/
theorem Issuing.finishIssue (h : Issuing i cl st inq c) (hne : st ≠ .free) {r : UopResult}
    (hmiss : st = .cacheMiss → r.rdflags &&& FLAG_INV = 0 ∧ (c.uop i).op.opcode ≠ .opMf) :
    Base (c.finishIssue i cl r) := by
  unfold Core.finishIssue
  dsimp only
  have hv := h.setVals (c.vals.set (c.regs.physreg i) r.rddata r.rdflags)
  have huop : (c.uop i).op.opcode =
    ((({ c with vals := c.vals.set (c.regs.physreg i) r.rddata r.rdflags } : Core).uop i).op.opcode) := rfl
  rw [huop] at hmiss
  generalize ({ c with vals := c.vals.set (c.regs.physreg i) r.rddata r.rdflags } : Core) = c₁ at hv hmiss ⊢
  by_cases hst : st = .cacheMiss
  · obtain ⟨hinv, hmf⟩ := hmiss hst
    have heq : c₁.commitAtOnce i r = c₁ := by simp [Core.commitAtOnce, hinv, hmf]
    rw [heq]
    exact hv.releaseSlot
  · unfold Core.commitAtOnce
    dsimp only
    by_cases hinv : r.rdflags &&& FLAG_INV ≠ 0
    · rw [if_pos hinv]
      have h1 := hv.toCommit hne hst
      split
      · exact (h1.toCommit (by simp) (by simp)).releaseSlot
      · exact h1.releaseSlot
    · rw [if_neg hinv]
      split
      · exact (hv.toCommit hne hst).releaseSlot
      · exact hv.releaseSlot

/-! ### The issue loop -/

/-- The picked entry leaves its list, but not its slot. -/
theorem Base.issuing (h : Base c) {slot fu : ℕ} {q : IssueQueue} (hp : Picked c cl i slot q) :
    Issuing i cl (.issued cl) c.sched.inq ((c.takeSlot cl slot q).startIssue i cl fu) := by
  obtain ⟨hq, rfl⟩ := hp
  have hget := getElem?_uopof hq
  rw [uopids_issue hq] at hget
  have hown : c.sched.inq (uopof q slot) = some cl :=
    (h.sched.queues_wf.mem_iff cl _).1 (List.mem_of_getElem? hget)
  obtain ⟨st, hst, hstq⟩ := Option.bind_eq_some_iff.1 hown
  have hne : st ≠ .free := by rintro rfl; cases hstq
  have hcl := h.sched.inq_cluster _ cl hown
  refine ⟨?_, hown, fun k hk => ?_, ⟨slot, ?_, ?_⟩, ?_, rfl⟩
  · refine BaseAt.move h (.issued cl) (h.sched.mem_order hst hne) (by simp)
      hcl rfl rfl rfl rfl (fun dest => ?_) (fun k hk => ⟨hk, ?_⟩) rfl (fun st' hst' hs => ?_)
      (SameFetch.refl _) (.refl _)
    · simp only [Core.startIssue, Core.takeSlot, Sched.changestate]
      by_cases hd : dest = cl
      · subst hd; rw [Function.update_self]; exact uopids_issue hq
      · rw [Function.update_of_ne hd]
    · rintro rfl
      have := h.lfrq _ hk
      rw [hst] at this
      rw [Option.some.inj this] at hstq
      cases hstq
    · rw [hst] at hst'
      rw [← Option.some.inj hst'] at hs
      exact absurd hs (by cases st <;> first | exact id | cases hstq)
  · show c.sched.inq k = ((c.takeSlot cl slot q).sched.changestate (uopof q slot) (.issued cl)).inq k
    rw [Sched.inq_changestate, Function.update_of_ne hk]
    rfl
  · simp [Core.startIssue, Core.takeSlot, Sched.changestate]
  · show (uopids (Function.update c.sched.queue cl q cl))[slot]? = _
    rw [Function.update_self, uopids_issue hq]
    exact hget
  · exact (StateLists.current_changestate _ _ _).trans (if_pos rfl)

theorem commitAtOnce_eq (c : Core) (i : ℕ) (r : UopResult) :
    c.commitAtOnce i r = { c with sched := (c.commitAtOnce i r).sched } := by
  simp only [Core.commitAtOnce]
  by_cases hinv : r.rdflags &&& FLAG_INV ≠ 0
  · rw [if_pos hinv]; split <;> rfl
  · rw [if_neg hinv]; split <;> rfl

/-- The end of an issue is about the values and the scheduling state. -/
theorem finishIssue_eq (c : Core) (i : ℕ) (cl : Cluster) (r : UopResult) :
    c.finishIssue i cl r = { c with
      vals := c.vals.set (c.regs.physreg i) r.rddata r.rdflags
      sched := (c.finishIssue i cl r).sched } := by
  simp only [Core.finishIssue]
  rw [commitAtOnce_eq]
  rfl

theorem finishIssue_lists {r : UopResult} (hinv : r.rdflags &&& FLAG_INV = 0)
    (hmf : (c.uop i).op.opcode ≠ .opMf) : (c.finishIssue i cl r).sched.lists = c.sched.lists := by
  simp [Core.finishIssue, Core.commitAtOnce, Core.releaseSlot, Sched.release, Sched.onQueue, hinv, hmf]

theorem sameMarks_correctBranch (op : TransOp) (rip : W64) :
    SameMarks op (Core.correctBranch op rip) := by
  unfold Core.correctBranch
  split
  · exact ⟨rfl, rfl, fun h => ⟨h.branch_eom, h.rd_zero, h.rd_flags, h.mem_flags⟩⟩
  · split
    · exact ⟨rfl, rfl, fun h => ⟨h.branch_eom, h.rd_zero, h.rd_flags, h.mem_flags⟩⟩
    · exact SameMarks.refl op

/-- The recovery from a branch that was predicted wrong. -/
theorem Base.mispredict (h : Base c) (hst : c.sched.lists.current i = some (.issued cl))
    (hbr : isbranch (c.uop i).op.opcode = true) (inp : CycleInput) (rip : W64) :
    Base (c.mispredict inp i rip) := by
  have hi : i ∈ c.order := h.sched.mem_order hst (by simp)
  have heom : (c.uop i).op.eom = true := (h.ops i hi).branch_eom hbr
  have hmarks := sameMarks_correctBranch (c.uop i).op rip
  have h1 : Base (c.correctUop i rip) := by
    refine BaseAt.frame h rfl rfl h.sched (fun _ hk => hk) (fun k => ?_) (SameFetch.refl _) (.refl _)
    by_cases hk : k = i
    · subst hk; simpa [Core.correctUop] using hmarks
    · simpa [Core.correctUop, hk] using SameMarks.refl (c.uop k).op
  refine h1.annulAfter hst (by simp [RobState.Settled]) (by simp) ?_ inp.rc rip
  simpa [Core.correctUop] using hmarks.2.1.trans heom

/-- An entry that has executed is in one of three lists. -/
theorem Issuing.executed {inp : CycleInput} {r : UopResult} (h : Issuing i cl (.issued cl) inq c)
    (hex : Executed inp i cl c .completed r c') :
    ∃ st, st ≠ .free ∧ Issuing i cl st inq c' ∧
      (st = .issued cl ∨ isbranch (c'.uop i).op.opcode = false) ∧
      (st = .cacheMiss → r.rdflags &&& FLAG_INV = 0 ∧ (c'.uop i).op.opcode ≠ .opMf) := by
  have hop : ∀ {c₁ : Core}, Touch i c c₁ → (c₁.uop i).op = (c.uop i).op := fun ht => (ht.uop i).1
  cases hex with
  | done ht => exact ⟨_, by simp, h.touch ht, Or.inl rfl, by simp⟩
  | hit n ht => exact ⟨_, by simp, (h.touch ht).setCycles _, Or.inl rfl, by simp⟩
  | @miss c₁ r ht hr hld =>
    refine ⟨.cacheMiss, by simp, ?_, Or.inr ?_, fun _ => ⟨hr, ?_⟩⟩
    · refine (h.touch ht).setState .cacheMiss (by simp) (by simp) rfl rfl
        (by simp [RobState.Settled]) _ _ fun k hk => ?_
      by_cases hki : k = i
      · exact Or.inr ⟨hki, rfl⟩
      · exact Or.inl ⟨by simpa [hki] using hk, hki⟩
    · show isbranch (c₁.uop i).op.opcode = false
      rw [hop ht]; exact not_isbranch_of_mem (by simp [hld])
    · show (c₁.uop i).op.opcode ≠ .opMf
      rw [hop ht]
      intro hmf
      rw [hmf] at hld
      exact absurd hld (by decide)
  | @fence c₁ r ht hmf =>
    refine ⟨.memoryFence, by simp, ?_, Or.inr ?_, by simp⟩
    · refine (h.touch ht).setState .memoryFence (by simp) (by simp) rfl rfl
        (by simp [RobState.Settled]) c₁.sched.cyclesLeft c₁.ls.lfrq fun k hk => Or.inl ⟨hk, ?_⟩
      rintro rfl
      have hk0 := h.base.lfrq k (ht.ls.lfrq k hk)
      rw [h.state] at hk0
      cases hk0
    · show isbranch (c₁.uop i).op.opcode = false
      rw [hop ht]; exact not_isbranch_of_mem (by rw [hmf]; decide)

theorem Issuing.back {inp : CycleInput} {r : UopResult} {res : IssueResult}
    (h : Issuing i cl (.issued cl) inq c) (hres : res ≠ .completed)
    (hex : Executed inp i cl c res r c') : Base c' := by
  have hns : ¬(RobState.issued cl).Settled := by simp [RobState.Settled]
  cases hex with
  | done => exact absurd rfl hres
  | hit => exact absurd rfl hres
  | miss => exact absurd rfl hres
  | fence => exact absurd rfl hres
  | replay ht => exact (h.touch ht).replay (by simp) hns (by simp)
  | replaySecondPhase ht => exact (h.touch ht).replaySecondPhase (by simp) hns (by simp)
  | @unaligned c₁ r ht =>
    have h1 := h.touch ht
    have h2 : Issuing i cl (.issued cl) inq (c₁.setUnalignedHint (c₁.uop i).rip true) :=
      ⟨h1.base.frame rfl rfl h1.base.sched (fun _ hk => hk) (fun _ => SameMarks.refl _)
        ⟨rfl, rfl, rfl, rfl⟩ (.refl _), h1.own, h1.others, h1.slot, h1.state, h1.outside⟩
    exact h2.annul hns (by simp) _ _
  | «alias» ht hlsq hk hst =>
    have h1 := h.touch ht
    refine h1.aliasRedispatch hns (by simp) ?_ _ _
    rw [(ht.uop i).1]
    exact hst

/-- A turn of the issue loop keeps the shape. -/
theorem Base.turn (h : Base c) {inp : CycleInput} (ht : Turn inp cl c c') : Base c' := by
  cases ht with
  | idle => exact h
  | @noFu i slot q hp =>
    refine BaseAt.frame h rfl rfl (h.sched.congr rfl rfl rfl fun dest => ?_) (fun _ hk => hk)
      (fun _ => SameMarks.refl _) (SameFetch.refl _) (.refl _)
    simp only [Core.takeSlot, Sched.onQueue]
    by_cases hd : dest = cl
    · subst hd
      rw [Function.update_self, Function.update_self, uopids_replay]
      exact uopids_issue hp.issue
    · rw [Function.update_of_ne hd, Function.update_of_ne hd]
  | back hp hres hex => exact (h.issuing hp).back hres hex
  | completed hp hex =>
    obtain ⟨st, hne, hI, -, hmiss⟩ := (h.issuing hp).executed hex
    exact hI.finishIssue hne hmiss
  | @mispredict i slot fu q r c₁ hp hex hbr hinv =>
    obtain ⟨st, hne, hI, hst, hmiss⟩ := (h.issuing hp).executed hex
    have hmf : (c₁.uop i).op.opcode ≠ .opMf := by
      intro hmf
      rw [hmf] at hbr
      exact absurd hbr (by decide)
    rcases hst with rfl | hnb
    · have hstate : (c₁.finishIssue i cl r).sched.lists.current i = some (.issued cl) := by
        rw [finishIssue_lists hinv hmf]; exact hI.state
      refine (hI.finishIssue hne hmiss).mispredict hstate ?_ inp _
      · rw [finishIssue_eq]; exact hbr
    · rw [hnb] at hbr
      cases hbr

/-! ### Every step -/

/-- Every small step keeps the shape. -/
theorem Step.base {env : Env} {inp : CycleInput} {a : Action} (h : Base c)
    (hs : Step env inp a c c') : Base c' := by
  cases hs with
  | tick ht => exact h.tick ht
  | loadwakeup i hl => exact h.loadwakeup hl
  | recycle => exact h.rest rfl rfl (fun _ hk => hk) rfl (SameFetch.refl _) (.refl _)
  | fencewakeup i _ _ hready _ => exact h.fencewakeup hready
  | fault j _ => exact h.fault j
  | queueSmc => exact h.rest rfl rfl (fun _ hk => hk) rfl (SameFetch.refl _) (.refl _)
  | retire i hhead hinsn hready _ => exact h.retire hhead hinsn hready
  | writeback i cl hst => exact h.writebackEntry hst
  | transfer i cl hst => exact h.transferEntry hst
  | clockQueues => exact h.clockQueues
  | issueTurn cl => exact h.turn (Core.issueTurn_cases env.exec inp cl c)
  | dispatch i hst hd => exact h.dispatchEntry hst hd
  | complete cl i hst => exact h.completeEntry hst
  | frontend i hst => exact h.frontendEntry hst
  | rename hq hroom hp _ => exact h.renameUop hq hroom _
  | fetch k => exact h.fetchTurn env.dec_wf inp k
  | flush => exact .flush h.blocks
  | invalidateSmc => exact h.invalidateSmc
  | assist => exact h.outside rfl rfl rfl rfl rfl (env.assist_shrunk _ _ _ _)
  | setRip rip => exact h.outside rfl rfl rfl rfl rfl (.refl _)

theorem Steps.base {env : Env} {inp : CycleInput} {p : Action → Prop} (h : Base c)
    (hs : Steps env inp p c c') : Base c' :=
  chain_inv (fun _ _ hb ⟨_, _, hst⟩ => hst.base hb) h hs

end
end X86Sim.Ooo
