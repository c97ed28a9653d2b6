import X86Sim.Proof.IssueQueues

/-!
# The scheduling state of the reorder buffer

`SchedWF ring s inq`: lists, queues and the buffer's order agree, where `inq` says
which queue each entry sits in. Between stages `inq` is what the entries' states say
(`Sched.inq`); in the middle of an operation an entry may be ahead of its state.

One lemma for each operation of an entry on its list, its cluster and its slot.
-/

namespace X86Sim.Ooo

open IssueQueue

/-- The cluster whose list a state is, for the states that have one list a cluster. -/
def RobState.cluster? : RobState → Option Cluster
  | .dispatched cl | .readyToIssue cl | .readyToStore cl | .readyToLoad cl | .issued cl
  | .completed cl | .readyToWriteback cl => some cl
  | _ => none

/-- The queue an entry in this state sits in. -/
def RobState.queue? (st : RobState) : Option Cluster :=
  if st.inIssueQueue then st.cluster? else none

/-- The clusters an entry in state `st` can be assigned to. -/
def RobState.ClusterOk (st : RobState) (cl : Option Cluster) : Prop :=
  match st with
  | .free | .frontend | .readyToDispatch => cl = none
  | .cacheMiss | .memoryFence | .readyToCommit => cl.isSome
  | st => cl = st.cluster?

/-- The queue of each entry, by its state. -/
def Sched.inq (s : Sched) (i : ℕ) : Option Cluster := (s.lists.current i).bind RobState.queue?

theorem Sched.inq_of {s : Sched} {i : ℕ} {st : RobState} (h : s.lists.current i = some st) :
    s.inq i = st.queue? := by
  rw [Sched.inq, h]; rfl

/-- Moving an entry to a state moves it to the state's queue. -/
theorem Sched.inq_changestate (s : Sched) (i : ℕ) (st : RobState) :
    (s.changestate i st).inq = Function.update s.inq i st.queue? := by
  funext j
  simp only [Sched.inq, Sched.changestate, StateLists.current_changestate, Function.update_apply]
  split <;> rfl

/-- The lists, the queues and the order of the reorder buffer agree. -/
structure SchedWF (ring : CircQueue) (s : Sched) (inq : ℕ → Option Cluster) : Prop where
  ring_wf : ring.WF ROB_SIZE
  lists_wf : s.lists.WF
  listed : ∀ i, (s.lists.current i).isSome ↔ i < ROB_SIZE
  free_iff : ∀ i < ROB_SIZE, s.lists.current i = some .free ↔ i ∉ ring.order ROB_SIZE
  valid_iff : ∀ i, s.entryValid i ↔ i ∈ ring.order ROB_SIZE
  cluster_ok : ∀ i st, s.lists.current i = some st → st.ClusterOk (s.cluster i)
  inq_cluster : ∀ i cl, inq i = some cl → s.cluster i = some cl
  queues_wf : QueuesWF s.queue inq

namespace SchedWF

variable {ring : CircQueue} {s s' : Sched} {inq : ℕ → Option Cluster} {i : ℕ} {st : RobState}
  {cl : Cluster}

/-- Nothing else of the record matters, and of the queues only the tags. -/
theorem congr (h : SchedWF ring s inq) (hl : s'.lists = s.lists)
    (hv : s'.entryValid = s.entryValid) (hc : s'.cluster = s.cluster)
    (hq : ∀ cl, uopids (s'.queue cl) = uopids (s.queue cl)) : SchedWF ring s' inq where
  ring_wf := h.ring_wf
  lists_wf := hl ▸ h.lists_wf
  listed := hl ▸ h.listed
  free_iff := hl ▸ h.free_iff
  valid_iff := hv ▸ h.valid_iff
  cluster_ok := by rw [hl, hc]; exact h.cluster_ok
  inq_cluster := hc ▸ h.inq_cluster
  queues_wf := h.queues_wf.congr hq

theorem lt_of_state (h : SchedWF ring s inq) (hi : s.lists.current i = some st) : i < ROB_SIZE :=
  (h.listed i).1 (by rw [hi]; rfl)

theorem mem_order (h : SchedWF ring s inq) (hi : s.lists.current i = some st) (hne : st ≠ .free) :
    i ∈ ring.order ROB_SIZE := by
  by_contra hn
  have := (h.free_iff i (h.lt_of_state hi)).2 hn
  rw [hi] at this
  exact hne (Option.some.inj this)

/-- Entry `i` is given a state, a cluster and a queue of its own; the rest stays. -/
theorem assign {ring' : CircQueue} {inq' : ℕ → Option Cluster} (h : SchedWF ring s inq)
    (st : RobState)
    (hring : ring'.WF ROB_SIZE) (hi : i < ROB_SIZE)
    (hmem : ∀ j, j ≠ i → (j ∈ ring'.order ROB_SIZE ↔ j ∈ ring.order ROB_SIZE))
    (hfree : st = .free ↔ i ∉ ring'.order ROB_SIZE) (hlists : s'.lists.WF)
    (hcur : ∀ j, s'.lists.current j = if j = i then some st else s.lists.current j)
    (hvalid : ∀ j, j ≠ i → s'.entryValid j = s.entryValid j)
    (hvi : s'.entryValid i ↔ i ∈ ring'.order ROB_SIZE)
    (hcluster : ∀ j, j ≠ i → s'.cluster j = s.cluster j) (hok : st.ClusterOk (s'.cluster i))
    (hinq : ∀ j, j ≠ i → inq' j = inq j) (hinqi : ∀ cl, inq' i = some cl → s'.cluster i = some cl)
    (hqueues : QueuesWF s'.queue inq') : SchedWF ring' s' inq' where
  ring_wf := hring
  lists_wf := hlists
  listed j := by
    rw [hcur]
    split
    · rename_i hj; subst hj; simp [hi]
    · exact h.listed j
  free_iff j hj := by
    rw [hcur]
    split
    · rename_i hji; subst hji; rw [← hfree]; exact Option.some_inj
    · rename_i hji; rw [hmem j hji]; exact h.free_iff j hj
  valid_iff j := by
    by_cases hji : j = i
    · subst hji; exact hvi
    · rw [hvalid j hji, hmem j hji]; exact h.valid_iff j
  cluster_ok j st' hst := by
    rw [hcur] at hst
    split at hst
    · rename_i hji; subst hji; rw [← Option.some.inj hst]; exact hok
    · rename_i hji; rw [hcluster j hji]; exact h.cluster_ok j st' hst
  inq_cluster j cl hj := by
    by_cases hji : j = i
    · subst hji; exact hinqi cl hj
    · rw [hcluster j hji]; rw [hinq j hji] at hj; exact h.inq_cluster j cl hj
  queues_wf := hqueues

/-- An entry in use moves to another list. -/
theorem changestate (h : SchedWF ring s inq) (hi : i ∈ ring.order ROB_SIZE) (hne : st ≠ .free)
    (hok : st.ClusterOk (s.cluster i)) : SchedWF ring (s.changestate i st) inq :=
  h.assign st h.ring_wf (h.ring_wf.lt_of_mem hi) (fun _ _ => Iff.rfl) (by simp [hne, hi])
    (h.lists_wf.changestate i st) (fun j => StateLists.current_changestate i j st)
    (fun _ _ => rfl) (h.valid_iff i) (fun _ _ => rfl) hok (fun _ _ => rfl) (h.inq_cluster i)
    h.queues_wf

/-- An entry without a cluster sits in no queue. -/
theorem inq_none (h : SchedWF ring s inq) (hc : s.cluster i = none) : inq i = none := by
  rw [Option.eq_none_iff_forall_ne_some]
  intro cl hcl
  rw [h.inq_cluster i cl hcl] at hc
  cases hc

/-- `rename` takes the slot at the tail. -/
theorem renameEntry (h : SchedWF ring s inq) (hroom : 0 < ring.remaining ROB_SIZE) :
    SchedWF (ring.alloc ROB_SIZE) (s.renameEntry ring.tail) inq := by
  have hlt := h.ring_wf.tail_lt
  have hnot := h.ring_wf.tail_not_mem
  have hord := h.ring_wf.order_alloc hroom
  have hnone : s.cluster ring.tail = none :=
    h.cluster_ok _ _ ((h.free_iff _ hlt).2 hnot)
  have htail : ring.tail ∈ (ring.alloc ROB_SIZE).order ROB_SIZE := by rw [hord]; simp
  refine h.assign .frontend (h.ring_wf.alloc hroom) hlt (fun j hj => by rw [hord]; simp [hj])
    (by simp [htail]) (h.lists_wf.changestate _ _) (fun j => StateLists.current_changestate _ j _)
    (fun j hj => ?_) ?_ (fun j hj => ?_) ?_ (fun _ _ => rfl) ?_ h.queues_wf
  · simp [Sched.renameEntry, Sched.resetEntry, hj]
  · simp [Sched.renameEntry, htail]
  · simp [Sched.renameEntry, Sched.resetEntry, hj]
  · simp [Sched.renameEntry, Sched.resetEntry, RobState.ClusterOk]
  · intro cl hcl
    rw [h.inq_none hnone] at hcl
    cases hcl

/-- An entry leaves the buffer: its slot was given up before. -/
theorem leave {ring' : CircQueue} (h : SchedWF ring s inq) (hring : ring'.WF ROB_SIZE)
    (hi : i ∈ ring.order ROB_SIZE)
    (hmem : ∀ j, j ∈ ring'.order ROB_SIZE ↔ j ∈ ring.order ROB_SIZE ∧ j ≠ i) (hnone : inq i = none) :
    SchedWF ring' ((s.resetEntry i).changestate i .free) inq := by
  have hnot : i ∉ ring'.order ROB_SIZE := fun hi' => ((hmem i).1 hi').2 rfl
  refine h.assign .free hring (h.ring_wf.lt_of_mem hi) (fun j hj => by simp [hmem j, hj])
    (by simp [hnot]) (h.lists_wf.changestate _ _) (fun j => StateLists.current_changestate _ j _)
    (fun j hj => ?_) ?_ (fun j hj => ?_) ?_ (fun _ _ => rfl) ?_ h.queues_wf
  · simp [Sched.resetEntry, Sched.changestate, hj]
  · simp [Sched.resetEntry, Sched.changestate, hnot]
  · simp [Sched.resetEntry, Sched.changestate, hj]
  · simp [Sched.resetEntry, Sched.changestate, RobState.ClusterOk]
  · intro cl hcl
    rw [hnone] at hcl
    cases hcl

/-- The slot of entry `i` is given up. -/
theorem removeSlot (h : SchedWF ring s inq) {slot : ℕ}
    (hs : (uopids (s.queue cl))[slot]? = some i) :
    SchedWF ring (s.onQueue cl (·.remove slot)) (Function.update inq i none) where
  ring_wf := h.ring_wf
  lists_wf := h.lists_wf
  listed := h.listed
  free_iff := h.free_iff
  valid_iff := h.valid_iff
  cluster_ok := h.cluster_ok
  inq_cluster j cl' hj := by
    by_cases hji : j = i
    · subst hji; rw [Function.update_self] at hj; cases hj
    · rw [Function.update_of_ne hji] at hj; exact h.inq_cluster j cl' hj
  queues_wf := h.queues_wf.remove hs

/-- Entry `i` is dispatched: a cluster, a slot in its queue, and a list of that cluster. -/
theorem dispatch (h : SchedWF ring s inq) (hst : s.lists.current i = some .readyToDispatch)
    (hlen : (s.queue cl).length < ISSUE_QUEUE_SIZE) (hq : st.queue? = some cl)
    (tags : Operand → Option ℕ) (n : ℤ) :
    SchedWF ring
      { s with
        lists := s.lists.changestate i st
        cluster := Function.update s.cluster i (some cl)
        queue := Function.update s.queue cl ((s.queue cl).insert i tags)
        issueqCount := n } (Function.update inq i (some cl)) := by
  have hi := h.mem_order hst (by simp)
  have hnone : inq i = none := h.inq_none (h.cluster_ok i _ hst)
  have hok : st.ClusterOk (some cl) := by
    cases st <;> simp_all [RobState.queue?, RobState.inIssueQueue, RobState.ClusterOk]
  have hne : st ≠ .free := by rintro rfl; cases hq
  refine h.assign st h.ring_wf (h.ring_wf.lt_of_mem hi) (fun _ _ => Iff.rfl) (by simp [hne, hi])
    (h.lists_wf.changestate i st) (fun j => StateLists.current_changestate i j st) (fun _ _ => rfl)
    (h.valid_iff i) (fun j hj => Function.update_of_ne hj _ _) ?_
    (fun j hj => Function.update_of_ne hj _ _) (fun cl' hcl => ?_) (h.queues_wf.insert hlen hnone tags)
  · show st.ClusterOk (Function.update s.cluster i (some cl) i)
    rw [Function.update_self]
    exact hok
  · rw [Function.update_self] at hcl
    show Function.update s.cluster i (some cl) i = some cl'
    rw [Function.update_self, hcl]

end SchedWF

/-! ### Slots -/

section Slots

variable {ring : CircQueue} {s : Sched} {inq : ℕ → Option Cluster} {i : ℕ} {cl : Cluster}

/-- `annuluop` finds exactly the entries of that queue. -/
theorem SchedWF.annuluop (h : SchedWF ring s inq) (hc : s.cluster i = some cl) :
    (s.annuluop cl i).1 = (inq i).isSome ∧
      SchedWF ring (s.annuluop cl i).2 (Function.update inq i none) := by
  unfold Sched.annuluop
  cases hs : slotof (s.queue cl) i with
  | none =>
    have hnone : inq i = none := by
      rw [Option.eq_none_iff_forall_ne_some]
      intro cl' hcl'
      have hcc : cl' = cl := Option.some.inj ((h.inq_cluster i cl' hcl').symm.trans hc)
      subst hcc
      exact slotof_eq_none.1 hs ((h.queues_wf.mem_iff cl' i).2 hcl')
    refine ⟨by rw [hnone]; rfl, ?_⟩
    rw [← hnone, Function.update_eq_self]
    exact h
  | some slot =>
    have hslot := getElem?_slotof hs
    have hsome : inq i = some cl := (h.queues_wf.mem_iff cl i).1 (List.mem_of_getElem? hslot)
    exact ⟨by rw [hsome]; rfl, h.removeSlot hslot⟩

/-- `annuluop` with its count: one slot fewer exactly when the tag was found. -/
theorem occupied_annuluop (s : Sched) (cl : Cluster) (i : ℕ) :
    occupied (s.annuluop cl i).2.queue + (s.annuluop cl i).1.toNat = occupied s.queue := by
  unfold Sched.annuluop
  cases hs : slotof (s.queue cl) i with
  | none => rfl
  | some slot => exact occupied_remove (getElem?_slotof hs)

theorem Sched.lists_annuluop (s : Sched) (cl : Cluster) (i : ℕ) :
    (s.annuluop cl i).2.lists = s.lists ∧ (s.annuluop cl i).2.issueqCount = s.issueqCount ∧
      (s.annuluop cl i).2.cluster = s.cluster := by
  unfold Sched.annuluop
  split <;> exact ⟨rfl, rfl, rfl⟩

/-- Pass 1 of an annulment empties the entry's slot, whatever the flag holds. -/
theorem SchedWF.annulIqSlot (h : SchedWF ring s inq) (rc : Bool) (i : ℕ) :
    SchedWF ring (s.annulIqSlot rc i) (Function.update inq i none) := by
  unfold Sched.annulIqSlot
  cases hc : s.cluster i with
  | none =>
    have hnone := h.inq_none hc
    have hupd : Function.update inq i none = inq := by rw [← hnone, Function.update_eq_self]
    rw [hupd]
    cases rc <;> exact h.congr rfl rfl rfl fun _ => rfl
  | some cl =>
    obtain ⟨-, hwf⟩ := h.annuluop hc
    dsimp only
    split <;> exact hwf.congr rfl rfl rfl fun _ => rfl

/-- `annuluop` with its count. -/
theorem issueqCount_annuluop (hcount : s.issueqCount = occupied s.queue) (cl : Cluster) (i : ℕ) :
    (if (s.annuluop cl i).1 then (s.annuluop cl i).2.issueqCount - 1
      else (s.annuluop cl i).2.issueqCount) = occupied (s.annuluop cl i).2.queue := by
  have hocc := occupied_annuluop s cl i
  obtain ⟨-, hiq, -⟩ := s.lists_annuluop cl i
  rw [hiq, hcount]
  cases hf : (s.annuluop cl i).1 with
  | true => rw [hf, Bool.toNat_true] at hocc; rw [if_pos rfl]; omega
  | false => rw [hf, Bool.toNat_false] at hocc; rw [if_neg Bool.false_ne_true]; omega

/-- The count goes with the slots when the flag of an entry without a cluster is false. -/
theorem issueqCount_annulIqSlot (hcount : s.issueqCount = occupied s.queue) {rc : Bool} {i : ℕ}
    (hrc : s.cluster i = none → rc = false) :
    (s.annulIqSlot rc i).issueqCount = occupied (s.annulIqSlot rc i).queue := by
  unfold Sched.annulIqSlot
  cases hc : s.cluster i with
  | none => rw [hrc hc]; exact hcount
  | some cl =>
    have := issueqCount_annuluop hcount cl i
    dsimp only
    split <;> rename_i hf <;> simp only [hf, if_true] at this <;> exact this

/-- The slot half of `redispatch`: the entry's slot and cluster go, the rest stays. -/
theorem Sched.redispatchIqSlot_eq (s : Sched) (i : ℕ) :
    (s.redispatchIqSlot i).lists = s.lists ∧ (s.redispatchIqSlot i).entryValid = s.entryValid ∧
      (s.redispatchIqSlot i).cluster = Function.update s.cluster i none := by
  cases hc : s.cluster i with
  | none =>
    simp only [Sched.redispatchIqSlot, hc, true_and]
    rw [← hc, Function.update_eq_self]
  | some cl =>
    obtain ⟨hl, -, hcl⟩ := s.lists_annuluop cl i
    have hv : (s.annuluop cl i).2.entryValid = s.entryValid := by
      unfold Sched.annuluop; split <;> rfl
    simp only [Sched.redispatchIqSlot, hc]
    split <;> exact ⟨hl, hv, by rw [← hcl]⟩

theorem SchedWF.queues_redispatchIqSlot (h : SchedWF ring s inq) (i : ℕ) :
    QueuesWF (s.redispatchIqSlot i).queue (Function.update inq i none) := by
  cases hc : s.cluster i with
  | none =>
    simp only [Sched.redispatchIqSlot, hc]
    rw [← h.inq_none hc, Function.update_eq_self]
    exact h.queues_wf
  | some cl =>
    have hwf := (h.annuluop hc).2.queues_wf
    simp only [Sched.redispatchIqSlot, hc]
    split <;> exact hwf

theorem issueqCount_redispatchIqSlot (hcount : s.issueqCount = occupied s.queue) (i : ℕ) :
    (s.redispatchIqSlot i).issueqCount = occupied (s.redispatchIqSlot i).queue := by
  cases hc : s.cluster i with
  | none => simp only [Sched.redispatchIqSlot, hc]; exact hcount
  | some cl =>
    have := issueqCount_annuluop hcount cl i
    simp only [Sched.redispatchIqSlot, hc]
    split <;> rename_i hf <;> simp only [hf, if_true] at this <;> exact this

/-- `redispatch`: out of its queue, without a cluster, back in the dispatch list. -/
theorem SchedWF.redispatch (h : SchedWF ring s inq) (hi : i ∈ ring.order ROB_SIZE)
    (prev : Option ℕ) : SchedWF ring (s.redispatch i prev) (Function.update inq i none) := by
  have h0 : SchedWF ring { s with issued := Function.update s.issued i false } inq :=
    h.congr rfl rfl rfl fun _ => rfl
  obtain ⟨hl, hv, hc⟩ :=
    Sched.redispatchIqSlot_eq { s with issued := Function.update s.issued i false } i
  have hlists : (s.redispatch i prev).lists = s.lists.changestateAfter i .readyToDispatch prev :=
    congrArg (fun l => StateLists.changestateAfter l i RobState.readyToDispatch prev) hl
  refine h.assign .readyToDispatch h.ring_wf (h.ring_wf.lt_of_mem hi) (fun _ _ => Iff.rfl)
    (by simp [hi]) (by rw [hlists]; exact h.lists_wf.changestateAfter i _ prev)
    (fun j => by rw [hlists]; exact StateLists.current_changestateAfter i j _ prev)
    (fun j _ => congrFun hv j) ((iff_of_eq (congrArg (· = true) (congrFun hv i))).trans (h.valid_iff i))
    (fun j hj => ?_) ?_ (fun j hj => Function.update_of_ne hj _ _) (fun cl hcl => ?_)
    (h0.queues_redispatchIqSlot i)
  · exact (congrFun hc j).trans (Function.update_of_ne hj _ _)
  · have hnone : (s.redispatch i prev).cluster i = none :=
      (congrFun hc i).trans (Function.update_self _ _ _)
    rw [hnone]
    rfl
  · rw [Function.update_self] at hcl
    cases hcl

theorem issueqCount_redispatch (hcount : s.issueqCount = occupied s.queue) (i : ℕ)
    (prev : Option ℕ) :
    (s.redispatch i prev).issueqCount = occupied (s.redispatch i prev).queue :=
  issueqCount_redispatchIqSlot (s := { s with issued := Function.update s.issued i false }) hcount i

/-- All entries free, all queues empty. -/
theorem schedWF_reset (s : Sched) : SchedWF CircQueue.empty s.reset fun _ => none where
  ring_wf := CircQueue.wf_empty (by decide)
  lists_wf := StateLists.wf_empty.fill _ _
  listed i := by simp [Sched.reset, StateLists.current_fill]
  free_iff i hi := by simp [Sched.reset, StateLists.current_fill, hi]
  valid_iff i := by simp [Sched.reset]
  cluster_ok i st hi := by
    simp only [Sched.reset, StateLists.current_fill, StateLists.current_empty] at hi
    split at hi
    · rw [← Option.some.inj hi]; rfl
    · cases hi
  inq_cluster i cl hi := by cases hi
  queues_wf := queuesWF_empty

end Slots
end X86Sim.Ooo
