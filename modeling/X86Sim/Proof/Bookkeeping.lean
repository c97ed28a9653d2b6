import X86Sim.Proof.Runs

/-!
# The books of the reorder buffer

`Bookkept`: lists, queues, validity and the shared counter agree. Everything but the
counter follows from `Base` in every run; the counter follows the slots as long as
pass 1 of an annulment reads false where no queue operation has set its flag.

* `Step.counted`: what one step does to the counter.
* `bookkept_of_rc`: the books of every run in which the flag reads false.
* `rc_miscounts`: a run in which it does not.
-/

namespace X86Sim.Ooo

open IssueQueue

/-- The reorder buffer's lists, validity, issue queue slots and counter agree. -/
structure Core.Bookkept (c : Core) : Prop where
  one_list : ∀ i < ROB_SIZE, ∃! st, i ∈ c.sched.lists.members st
  once : ∀ st i, (c.sched.lists.members st).count i ≤ 1
  counts : ∀ st, c.sched.lists.count st = (c.sched.lists.members st).length
  valid : ∀ i, c.sched.entryValid i = true ↔ i ∈ c.order
  in_queue : ∀ st, st.inIssueQueue = true → ∀ i ∈ c.sched.lists.members st,
    ∃ cl, c.sched.cluster i = some cl ∧
      ∀ cl', (uopids (c.sched.queue cl')).count i = if cl' = cl then 1 else 0
  not_in_queue : ∀ st, st.inIssueQueue = false → ∀ i ∈ c.sched.lists.members st,
    ∀ cl, i ∉ uopids (c.sched.queue cl)
  issueq_count : c.sched.issueqCount = occupied c.sched.queue

/-- The shared counter is the number of occupied slots. -/
def Sched.Counted (s : Sched) : Prop := s.issueqCount = occupied s.queue

section

variable {c c' : Core} {i : ℕ} {cl : Cluster} {s s' : Sched}

theorem Sched.Counted.congr (h : s.Counted) (hn : s'.issueqCount = s.issueqCount)
    (hq : ∀ cl, uopids (s'.queue cl) = uopids (s.queue cl)) : s'.Counted := by
  unfold Sched.Counted
  rw [hn, occupied_congr hq]
  exact h

/-- The lists, the queues and the counter make the books. -/
theorem bookkept_of (h : SchedWF c.ring c.sched c.sched.inq) (hcount : c.sched.Counted) :
    c.Bookkept where
  one_list i hi := by
    obtain ⟨st, hst⟩ := Option.isSome_iff_exists.1 ((h.listed i).2 hi)
    refine ⟨st, (h.lists_wf.mem_iff i st).2 hst, fun st' hst' => ?_⟩
    have := (h.lists_wf.mem_iff i st').1 hst'
    rw [hst] at this
    exact (Option.some.inj this).symm
  once st i := List.nodup_iff_count_le_one.1 (h.lists_wf.nodup st) i
  counts := h.lists_wf.count_eq
  valid := h.valid_iff
  in_queue st hst i hi := by
    have hcur := (h.lists_wf.mem_iff i st).1 hi
    have hq : ∃ cl, st.queue? = some cl := by
      cases st <;> first | exact ⟨_, rfl⟩ | cases hst
    obtain ⟨cl, hcl⟩ := hq
    have hinq : c.sched.inq i = some cl := (Sched.inq_of hcur).trans hcl
    refine ⟨cl, h.inq_cluster i cl hinq, fun cl' => ?_⟩
    rw [h.queues_wf.count_eq, hinq]
    simp only [Option.some.injEq, eq_comm]
  not_in_queue st hst i hi cl := by
    have hcur := (h.lists_wf.mem_iff i st).1 hi
    rw [h.queues_wf.mem_iff, Sched.inq_of hcur]
    simp [RobState.queue?, hst]
  issueq_count := hcount

/-! ### The counter, step by step -/

theorem counted_annul (h : c.sched.Counted) {rc : ℕ → Bool} (hrc : ∀ i, rc i = false) (keep : Bool)
    (rip : W64) : ((c.annul rc i keep).2.resetFetchUnit rip).sched.Counted := by
  rw [(fetchReset _ rip).sched]
  unfold Core.annul
  dsimp only
  split
  · exact h
  · exact issueqCount_annulFrom hrc _ h

/-- The slot of a picked entry, in the tags before the pick. -/
theorem counted_issuing {slot fu : ℕ} {q : IssueQueue} (h : c.sched.Counted)
    (hp : Picked c cl i slot q) : ((c.takeSlot cl slot q).startIssue i cl fu).sched.Counted := by
  refine h.congr rfl fun dest => ?_
  simp only [Core.startIssue, Core.takeSlot, Sched.changestate]
  by_cases hd : dest = cl
  · subst hd; rw [Function.update_self]; exact uopids_issue hp.issue
  · rw [Function.update_of_ne hd]

theorem counted_executed {inp : CycleInput} (hrc : ∀ i, inp.rc i = false) (h : c.sched.Counted)
    {res : IssueResult} {r : UopResult} (hex : Executed inp i cl c res r c') : c'.sched.Counted := by
  have htouch : ∀ {c₁}, Touch i c c₁ → c₁.sched.Counted := fun ht => by rw [ht.sched]; exact h
  cases hex with
  | done ht => exact htouch ht
  | hit n ht => exact (htouch ht).congr rfl fun _ => rfl
  | miss ht => exact (htouch ht).congr rfl fun _ => rfl
  | fence ht => exact (htouch ht).congr rfl fun _ => rfl
  | replay ht =>
    refine (htouch ht).congr rfl fun dest => ?_
    simp only [Core.replay, Sched.onQueue, Sched.changestate]
    by_cases hd : dest = cl
    · subst hd; rw [Function.update_self]; exact uopids_replayWith _ _ _
    · rw [Function.update_of_ne hd]
  | replaySecondPhase ht =>
    refine (htouch ht).congr rfl fun dest => ?_
    simp only [Core.replaySecondPhase, Core.replay, Sched.onQueue, Sched.changestate]
    by_cases hd : dest = cl
    · subst hd; rw [Function.update_self]; exact uopids_replayWith _ _ _
    · rw [Function.update_of_ne hd]
  | @unaligned c₁ r ht =>
    have h1 : c₁.sched.Counted := htouch ht
    exact counted_annul (c := c₁.setUnalignedHint (c₁.uop i).rip true) h1 hrc false _
  | @«alias» c₁ r j k chunk ht =>
    have h1 : c₁.sched.Counted := htouch ht
    exact issueqCount_redispatchLoop (c := c₁.aliasMark i j k) _ _ _ h1

/-- Giving up a slot takes one off the counter. -/
theorem counted_finishIssue {st : RobState} {inq : ℕ → Option Cluster} (h : c.sched.Counted)
    (hI : Issuing i cl st inq c) (r : UopResult) : (c.finishIssue i cl r).sched.Counted := by
  obtain ⟨slot, hslot, hget⟩ := hI.slot
  have hcommit : ∀ c : Core, (c.commitAtOnce i r).sched.queue = c.sched.queue ∧
      (c.commitAtOnce i r).sched.issueqCount = c.sched.issueqCount ∧
      (c.commitAtOnce i r).sched.iqslot = c.sched.iqslot := by
    intro c
    simp only [Core.commitAtOnce]
    by_cases hinv : r.rdflags &&& FLAG_INV ≠ 0
    · rw [if_pos hinv]; split <;> exact ⟨rfl, rfl, rfl⟩
    · rw [if_neg hinv]; split <;> exact ⟨rfl, rfl, rfl⟩
  have hocc := occupied_remove hget
  unfold Sched.Counted at h ⊢
  simp only [Core.finishIssue, Core.releaseSlot, Sched.release, Sched.onQueue, hcommit, hslot,
    Option.getD_some, h]
  omega

theorem counted_turn {inp : CycleInput} (hrc : ∀ i, inp.rc i = false) (hb : Base c)
    (h : c.sched.Counted) (ht : Turn inp cl c c') : c'.sched.Counted := by
  cases ht with
  | idle => exact h
  | @noFu i slot q hp =>
    refine h.congr rfl fun dest => ?_
    simp only [Core.takeSlot, Sched.onQueue]
    by_cases hd : dest = cl
    · subst hd
      rw [Function.update_self, Function.update_self, uopids_replay]
      exact uopids_issue hp.issue
    · rw [Function.update_of_ne hd, Function.update_of_ne hd]
  | back hp hres hex => exact counted_executed hrc (counted_issuing h hp) hex
  | @completed i slot fu q r c₁ hp hex =>
    obtain ⟨st, -, hI, -, -⟩ := (hb.issuing hp).executed hex
    exact counted_finishIssue (counted_executed hrc (counted_issuing h hp) hex) hI r
  | @mispredict i slot fu q r c₁ hp hex hbr hinv =>
    obtain ⟨st, -, hI, -, -⟩ := (hb.issuing hp).executed hex
    have hfin := counted_finishIssue (counted_executed hrc (counted_issuing h hp) hex) hI r
    exact counted_annul (c := (c₁.finishIssue i cl r).correctUop i r.rddata) hfin hrc true r.rddata

/-- Every step keeps the counter, if the flag of pass 1 reads false. -/
theorem Step.counted {env : Env} {inp : CycleInput} {a : Action} (hrc : ∀ i, inp.rc i = false)
    (hb : Base c) (h : c.sched.Counted) (hs : Step env inp a c c') : c'.sched.Counted := by
  -- the counter moves with the queues, at dispatch and at issue; a flush clears both
  cases hs with
  | tick ht => rw [ht.sched]; exact h
  | loadwakeup i hl => exact h.congr rfl fun _ => rfl
  | recycle => exact h
  | fencewakeup i _ _ _ _ => exact h.congr rfl fun _ => rfl
  | fault j _ =>
    refine h.congr ?_ fun cl => ?_ <;> unfold Core.forceFpUnavailable <;> dsimp only <;> split <;> rfl
  | queueSmc => exact h
  | retire i =>
    rw [(retire_frame c i).2.2.1]
    exact h.congr rfl fun _ => rfl
  | writeback i cl hst =>
    have hcl : c.sched.cluster i = some cl := hb.sched.cluster_ok i _ hst
    simp only [Core.writebackEntry, hcl]
    exact h.congr rfl fun dest => uopids_forward _ _ _ _
  | transfer i cl hst =>
    have hcl : c.sched.cluster i = some cl := hb.sched.cluster_ok i _ hst
    simp only [Core.transferEntry, hcl]
    split <;> exact h.congr rfl fun dest => uopids_forward _ _ _ _
  | clockQueues => exact h.congr rfl fun cl => uopids_clock (c.sched.queue cl)
  | issueTurn cl => exact counted_turn hrc hb h (Core.issueTurn_cases env.exec inp cl c)
  | dispatch i hst hd =>
    obtain ⟨cl, needed, tags, hcl, hsched, -⟩ := dispatchEntry_eq hd
    have hocc := occupied_insert (i := i) (selectCluster_room hcl) tags
    unfold Sched.Counted at h ⊢
    simp only [hsched, h]
    omega
  | complete cl i hst =>
    unfold Core.completeEntry
    dsimp only
    split <;> exact h.congr rfl fun _ => rfl
  | frontend i hst =>
    unfold Core.frontendEntry
    dsimp only
    split <;> exact h.congr rfl fun _ => rfl
  | rename => exact h.congr rfl fun _ => rfl
  | fetch k => rw [(hb.fetchTurn_frame env.dec_wf inp k).sched]; exact h
  | flush => simp [Sched.Counted, Core.flushPipeline, Sched.reset]
  | invalidateSmc => unfold Core.invalidateSmc; split <;> exact h
  | assist => exact h
  | setRip => exact h

/-! ### Runs -/

theorem rule_counted (env : Env) :
    Rule env (fun _ inp => ∀ i, inp.rc i = false) (fun _ => True) fun c => c.sched.Counted where
  construct _ _ _ := trivial
  start c ctx space bbcache n _ _ := by simp [Sched.Counted, Core.started, Core.flushPipeline, Sched.reset]
  step _ _ _ _ _ hrc hb h hs := hs.counted hrc hb h
  idle_of _ _ _ := trivial
  finish _ _ _ := trivial

/-- The annulment of everything from an entry on, in whatever states the entries are. -/
theorem bookkept_annulFrom (h : SchedWF c.ring c.sched c.sched.inq) (hcount : c.sched.Counted)
    (hi : i ∈ c.order) {rc : ℕ → Bool} (hrc : ∀ i, rc i = false) : (c.annulFrom rc i).Bookkept := by
  obtain ⟨X, Y, hord⟩ := List.append_of_mem hi
  obtain ⟨hwf, ha⟩ := annulFrom_spec rc h hord
  refine bookkept_of ?_ (issueqCount_annulFrom hrc i hcount)
  have hinq : (c.annulFrom rc i).sched.inq = fun k => if k ∈ i :: Y then none else c.sched.inq k := by
    funext k
    unfold Sched.inq
    rw [ha.state]
    split <;> rfl
  rw [hinq]
  exact hwf

/-- The redispatch of an entry, in whatever state it is. -/
theorem bookkept_redispatch (h : SchedWF c.ring c.sched c.sched.inq) (hcount : c.sched.Counted)
    (hi : i ∈ c.order) (prev : Option ℕ) : (c.redispatch i prev).Bookkept := by
  refine bookkept_of ?_ (issueqCount_redispatch hcount i prev)
  have hlists : (c.sched.redispatch i prev).lists =
      c.sched.lists.changestateAfter i .readyToDispatch prev := by
    unfold Sched.redispatch
    dsimp only
    rw [(Sched.redispatchIqSlot_eq _ i).1]
  have hinq : (c.redispatch i prev).sched.inq = Function.update c.sched.inq i none := by
    funext k
    show ((c.sched.redispatch i prev).lists.current k).bind RobState.queue? = _
    rw [hlists, StateLists.current_changestateAfter, Function.update_apply]
    split
    · rfl
    · rfl
  rw [hinq]
  exact h.redispatch hi prev

/-- The books of every run in which pass 1 of every annulment reads its flag as false
where no operation has set it; there the annulment and the redispatch of any entry
keep them. -/
theorem bookkept_of_rc (env : Env) {c : Core}
    (hc : AtStage env (fun _ inp => ∀ i, inp.rc i = false) c) :
    c.Bookkept ∧ ∀ i ∈ c.order, ∀ rc : ℕ → Bool, (∀ i, rc i = false) →
      (c.annulFrom rc i).Bookkept ∧ ∀ prev, (c.redispatch i prev).Bookkept := by
  obtain ⟨hb, hcount⟩ := (rule_counted env).atStage hc
  exact ⟨bookkept_of hb.sched hcount, fun i hi rc hrc =>
    ⟨bookkept_annulFrom hb.sched hcount hi hrc, bookkept_redispatch hb.sched hcount hi⟩⟩

/-! ### The flag of pass 1 -/

/-- `mov eax, [rbx]` and a jump back to it. -/
def loadLoop : List TransOp :=
  [{ TransOp.init .opLd Reg.rax Reg.rbx Reg.imm Reg.zero 2 0 0 .none with
      bytes := 2, som := true, eom := true },
    { TransOp.init .opBru Reg.rip Reg.zero Reg.zero Reg.zero 3 0 0 .none with
      bytes := 2, som := true, eom := true }]

def Env.loadLoop : Env :=
  Env.ofBlock Ooo.loadLoop 4 (fun _ _ => ⟨0, 0⟩) (by decide) (List.cons_ne_nil _ _) ⟨rfl, rfl, rfl⟩
    fun op hop => by
      have h : op = Ooo.loadLoop[0] ∨ op = Ooo.loadLoop[1] := by simpa [Ooo.loadLoop] using hop
      rcases h with rfl | rfl <;> exact ⟨by decide, by decide, by decide, by decide⟩

/-- The loop is run with `rbx` not aligned. -/
def loadLoopRun : ℕ → RunState :=
  (RunState.first (Function.update (fun _ => 0) Reg.rbx 2) (AddressSpace.init true) 100).after
    Env.loadLoop fun _ => .hit true

/-- The same run with the flag of pass 1 false throughout, its tenth cycle up to `n` stages. -/
def loadLoopQuiet (n : ℕ) : CycleState :=
  (CycleState.init ((RunState.first (Function.update (fun _ => 0) Reg.rbx 2) (AddressSpace.init true) 100).after
    Env.loadLoop (fun _ => .hit false) 9).core).run Env.loadLoop (.hit false) (cycleStages.take n)

theorem loadLoopQuiet_goes :
    (((RunState.first (Function.update (fun _ => 0) Reg.rbx 2) (AddressSpace.init true) 100).after
      Env.loadLoop (fun _ => .hit false) 9).done = false ∧
    ((RunState.first (Function.update (fun _ => 0) Reg.rbx 2) (AddressSpace.init true) 100).after
      Env.loadLoop (fun _ => .hit false) 9).exiting = false) ∧
    (loadLoopQuiet 13).core.order = List.range 16 ∧ (loadLoopQuiet 14).core.order = [] := by
  decide +kernel

theorem atStage_loadLoopQuiet (n : ℕ) :
    AtStage Env.loadLoop (fun _ inp => ∀ i, inp.rc i = false) (loadLoopQuiet n).core := by
  have hgo := loadLoopQuiet_goes.1
  exact ⟨_, .hit false, n, reachable_after (reachable_first _ _ _) _ 9 (fun k hk => RunState.goes_of_after hgo hk.le)
    fun _ _ _ => rfl, hgo.1, hgo.2, fun _ => rfl, rfl⟩

/-- The books before the load annuls itself and all after it, of an annulment from the first
uop not dispatched and of its redispatch, and the books after the load's own annulment. -/
theorem bookkept_loadLoop : (loadLoopQuiet 13).core.Bookkept ∧
    ((loadLoopQuiet 13).core.annulFrom (fun _ => false) 2).Bookkept ∧
    ((loadLoopQuiet 13).core.redispatch 2 none).Bookkept ∧ (loadLoopQuiet 14).core.Bookkept := by
  obtain ⟨hbefore, hops⟩ := bookkept_of_rc Env.loadLoop (atStage_loadLoopQuiet 13)
  obtain ⟨hannul, hre⟩ := hops 2 (by rw [loadLoopQuiet_goes.2.1]; decide) (fun _ => false) fun _ => rfl
  exact ⟨hbefore, hannul, hre none, (bookkept_of_rc Env.loadLoop (atStage_loadLoopQuiet 14)).1⟩

/-- The tenth cycle, up to the issue of the load. -/
def loadLoopIssue : CycleState :=
  (CycleState.init (loadLoopRun 9).core).run Env.loadLoop (.hit true) (cycleStages.take 14)

theorem loadLoop_counts : ((loadLoopRun 9).done = false ∧ (loadLoopRun 9).exiting = false) ∧
    loadLoopIssue.core.sched.issueqCount = -14 := by
  decide +kernel

/-- The first load is annulled with everything after it while the fourteen youngest uops
are not dispatched: each takes one off the counter, which was never above two. -/
theorem rc_miscounts : ¬ ∀ (env : Env) (c : Core), AtStage env anyInput c → c.Bookkept := by
  intro h
  obtain ⟨hgo, hiq⟩ := loadLoop_counts
  have hreach : Reachable Env.loadLoop anyInput (loadLoopRun 9) :=
    reachable_after (reachable_first _ _ _) _ 9 (fun k hk => RunState.goes_of_after hgo hk.le) fun _ _ => trivial
  have := (h _ _ ⟨_, .hit true, 14, hreach, hgo.1, hgo.2, trivial, rfl⟩).issueq_count
  have hcore : ((CycleState.init (loadLoopRun 9).core).run Env.loadLoop (.hit true)
    (cycleStages.take 14)).core = loadLoopIssue.core := rfl
  rw [hcore, hiq] at this
  omega

end
end X86Sim.Ooo
