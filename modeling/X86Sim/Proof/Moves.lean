import X86Sim.Proof.BaseIssue
import X86Sim.Proof.Runs

/-!
# What the steps do to the books

The renamer, the load/store queue and the uop numbers see only a dozen kinds of
change. `Move` lists them, and `Step.moves` reads every small step of the pipeline as
a chain of them, so that an invariant of these books needs one lemma for each kind.

`Frame` is what a change leaves alone that is not about the registers: the entries
and what their uops write, the slots of the load/store queue, the fetch queue.
-/

namespace X86Sim.Ooo

open Relation

/-- Two uops with the same number and the same destinations, of the same kind. -/
structure SameRole (u u' : FetchBufferEntry) : Prop where
  uuid : u'.uuid = u.uuid
  opcode : u'.op.opcode = u.op.opcode
  rd : u'.op.rd = u.op.rd
  setflags : u'.op.setflags = u.op.setflags
  nouserflags : u'.op.nouserflags = u.op.nouserflags

/-- The load/store queue has the same entries for the same uops. -/
structure SameSlots (ls ls' : LoadStore) : Prop where
  ring : ls'.ring = ls.ring
  lsq : ls'.lsq = ls.lsq
  loads : ls'.loadsInFlight = ls.loadsInFlight
  stores : ls'.storesInFlight = ls.storesInFlight
  rob : ∀ k, (ls'.entry k).rob = (ls.entry k).rob
  store : ∀ k, (ls'.entry k).store = (ls.entry k).store

/-- Entry `i` has been renamed, but not dispatched since. -/
def Core.Early (c : Core) (i : ℕ) : Prop :=
  c.sched.lists.current i = some .frontend ∨ c.sched.lists.current i = some .readyToDispatch

/-- The new operand and its reference; the old one keeps its own. -/
def Regs.addOperand (r : Regs) (i : ℕ) (o : Operand) (p : PhysReg) : Regs :=
  { r with operands := Function.update r.operands i (Function.update (r.operands i) o p) }.addref p

/-- Everything the books are about, but for the registers, is as it was. -/
structure Frame (c c' : Core) : Prop where
  ring : c'.ring = c.ring
  uop : ∀ k, SameRole (c.uop k) (c'.uop k)
  slots : SameSlots c.ls c'.ls
  fetchq : c'.fetch.fetchq = c.fetch.fetchq
  fetchUuid : c'.fetch.fetchUuid = c.fetch.fetchUuid
  early : ∀ k, c'.Early k → c.Early k

section

variable {u u' u'' : FetchBufferEntry} {ls ls' ls'' : LoadStore} {c c' c'' : Core} {i j k : ℕ}

theorem SameRole.refl (u : FetchBufferEntry) : SameRole u u := ⟨rfl, rfl, rfl, rfl, rfl⟩

theorem SameRole.trans (h : SameRole u u') (h' : SameRole u' u'') : SameRole u u'' :=
  ⟨h'.uuid.trans h.uuid, h'.opcode.trans h.opcode, h'.rd.trans h.rd, h'.setflags.trans h.setflags,
    h'.nouserflags.trans h.nouserflags⟩

theorem SameUop.role (h : SameUop u u') : SameRole u u' := by
  obtain ⟨hop, -, huuid, -⟩ := h
  exact ⟨huuid, by rw [hop], by rw [hop], by rw [hop], by rw [hop]⟩

theorem SameRole.destRegs (h : SameRole u u') : Regs.destRegs u'.op = Regs.destRegs u.op := by
  unfold Regs.destRegs Regs.flagRegs
  rw [h.rd, h.setflags, h.nouserflags]

theorem SameSlots.refl (ls : LoadStore) : SameSlots ls ls :=
  ⟨rfl, rfl, rfl, rfl, fun _ => rfl, fun _ => rfl⟩

theorem SameSlots.trans (h : SameSlots ls ls') (h' : SameSlots ls' ls'') : SameSlots ls ls'' :=
  ⟨h'.ring.trans h.ring, h'.lsq.trans h.lsq, h'.loads.trans h.loads, h'.stores.trans h.stores,
    fun k => (h'.rob k).trans (h.rob k), fun k => (h'.store k).trans (h.store k)⟩

theorem SameQueue.slots (h : SameQueue ls ls') : SameSlots ls ls' :=
  ⟨h.ring, h.lsq, h.loads, h.stores, h.rob, h.store⟩

/-- An entry changes, but not whose it is and of which kind. -/
theorem SameSlots.setEntry (ls : LoadStore) (j : ℕ) (e : LsqEntry) (hrob : e.rob = (ls.entry j).rob)
    (hstore : e.store = (ls.entry j).store) : SameSlots ls (ls.setEntry j e) := by
  refine ⟨rfl, rfl, rfl, rfl, fun k => ?_, fun k => ?_⟩ <;> by_cases hk : k = j
  all_goals first
    | (subst hk; simpa [LoadStore.setEntry])
    | simp [LoadStore.setEntry, hk]

theorem sameSlots_modifyLsq (c : Core) (i : ℕ) {f : LsqEntry → LsqEntry}
    (hf : ∀ e, (f e).rob = e.rob ∧ (f e).store = e.store) : SameSlots c.ls (c.modifyLsq i f) := by
  unfold Core.modifyLsq
  split
  · exact .refl _
  · exact .setEntry _ _ _ (hf _).1 (hf _).2

theorem sameSlots_redispatch (ls : LoadStore) (i : ℕ) : SameSlots ls (ls.redispatch i) := by
  unfold LoadStore.redispatch
  dsimp only
  split
  · exact ⟨rfl, rfl, rfl, rfl, fun _ => rfl, fun _ => rfl⟩
  · have h : SameSlots ls { ls with
        lfrq := Function.update ls.lfrq i false
        secondPhase := Function.update ls.secondPhase i false } :=
      ⟨rfl, rfl, rfl, rfl, fun _ => rfl, fun _ => rfl⟩
    refine h.trans ?_
    exact .setEntry _ _ _ rfl rfl

namespace Frame

theorem refl (c : Core) : Frame c c :=
  ⟨rfl, fun _ => .refl _, .refl _, rfl, rfl, fun _ h => h⟩

theorem trans (h : Frame c c') (h' : Frame c' c'') : Frame c c'' :=
  ⟨h'.ring.trans h.ring, fun k => (h.uop k).trans (h'.uop k), h.slots.trans h'.slots,
    h'.fetchq.trans h.fetchq, h'.fetchUuid.trans h.fetchUuid, fun k hk => h.early k (h'.early k hk)⟩

theorem order (h : Frame c c') : c'.order = c.order := by unfold Core.order; rw [h.ring]

/-- An entry changes lists, and is not to be dispatched any more than before. -/
theorem ofState (st : RobState) (hst : st ≠ .frontend ∧ (st = .readyToDispatch → c.Early i))
    (hring : c'.ring = c.ring) (huop : c'.uop = c.uop) (hls : SameSlots c.ls c'.ls)
    (hfetch : c'.fetch = c.fetch)
    (hcur : ∀ k, c'.sched.lists.current k = if k = i then some st else c.sched.lists.current k) :
    Frame c c' := by
  refine ⟨hring, fun k => by rw [huop]; exact .refl _, hls, by rw [hfetch], by rw [hfetch], fun k hk => ?_⟩
  unfold Core.Early at hk
  rw [hcur] at hk
  split at hk
  · rename_i hki
    subst hki
    rcases hk with hk | hk
    · exact absurd (Option.some.inj hk) hst.1
    · exact hst.2 (Option.some.inj hk)
  · exact hk

/-- The lists stay as they are. -/
theorem ofLists (hring : c'.ring = c.ring) (huop : ∀ k, SameRole (c.uop k) (c'.uop k))
    (hls : SameSlots c.ls c'.ls) (hfetch : c'.fetch = c.fetch)
    (hlists : c'.sched.lists = c.sched.lists) : Frame c c' :=
  ⟨hring, huop, hls, by rw [hfetch], by rw [hfetch], fun k hk => by
    unfold Core.Early at hk ⊢; rwa [hlists] at hk⟩

end Frame

/-- The kinds of change of the books. -/
inductive Move : Core → Core → Prop
  | kept {c c' : Core} (h : Frame c c') (hregs : c'.regs = c.regs) : Move c c'
  /-- The result of an entry moves on. -/
  | settle {c c' : Core} (i : ℕ) (st : PhysState) (h : Frame c c') (hi : i ∈ c.order)
      (hst : st = .bypass ∨ st = .written)
      (hregs : c'.regs = c.regs.changestate (c.regs.physreg i) st) : Move c c'
  /-- A load or store names the store it forwards from. -/
  | forward {c c' : Core} (i j : ℕ) (sfra : Option ℕ) (h : Frame c c') (hi : i ∈ c.order)
      (hlate : ¬c.Early i) (hlsq : c.ls.lsq i = some j)
      (hsfra : ∀ k ∈ sfra, k ∈ c.ls.ring.backwardBefore LSQ_SIZE j)
      (hregs : c'.regs = c.regs.setOperand i RS (c.rsOf sfra)) : Move c c'
  /-- A load or store names the fence before it as it is dispatched. -/
  | fence {c c' : Core} (i j k : ℕ) (h : Frame c c') (hi : i ∈ c.order) (hearly : c.Early i)
      (hlate : ¬c'.Early i) (hlsq : c.ls.lsq i = some j)
      (hk : k ∈ c.ls.ring.backwardBefore LSQ_SIZE j)
      (hregs : c'.regs = c.regs.addOperand i RS (c.regs.physreg (c.ls.entry k).rob)) : Move c c'
  | recycle {c : Core} : Move c { c with regs := c.regs.recycle }
  | aliased {c : Core} (i j k : ℕ) (hi : i ∈ c.order) (hlsq : c.ls.lsq i = some j)
      (hk : k ∈ c.ls.ring.forwardAfter LSQ_SIZE j) (hst : isstore (c.uop i).op.opcode = true) :
      Move c (c.aliasRedispatch i j k)
  | rename {c : Core} {uop : FetchBufferEntry} {rest : List FetchBufferEntry} {p : PhysReg}
      (hq : c.fetch.fetchq = uop :: rest) (hroom : 0 < c.ring.remaining ROB_SIZE)
      (hp : c.regs.peekFree (physRegFileWritableByUop uop.op) = some p)
      (hlsq : c.lsqRoom uop.op = true) (hwf : uop.op.WF) : Move c (c.renameUop uop rest p)
  | retire {c : Core} (i : ℕ) {rest : List ℕ} (hord : c.order = i :: rest) (hwf : (c.uop i).op.WF)
      (hready : c.sched.lists.current i = some .readyToCommit) : Move c (c.retire i)
  | annul {c : Core} (rc : ℕ → Bool) {X Y : List ℕ} {e : ℕ} (hord : c.order = X ++ e :: Y) :
      Move c (c.annulFrom rc e)
  | resetFetch {c : Core} (rip : W64) : Move c (c.resetFetchUnit rip)
  | fetch {c c' : Core} (u : FetchBufferEntry) (hring : c'.ring = c.ring) (huop : c'.uop = c.uop)
      (hsched : c'.sched = c.sched) (hregs : c'.regs = c.regs) (hls : c'.ls = c.ls)
      (hq : c'.fetch.fetchq = c.fetch.fetchq ++ [u]) (hu : u.uuid = c.fetch.fetchUuid)
      (huuid : c'.fetch.fetchUuid = c.fetch.fetchUuid + 1) : Move c c'
  | flush {c : Core} : Move c c.flushPipeline

/-! ### The turns of the issue loop -/

theorem Touch.frame (h : Touch i c c') : Frame c c' :=
  .ofLists h.ring (fun k => (h.uop k).role) h.ls.slots h.fetch (by rw [h.sched])

theorem Touch.move (h : Touch i c c') (hi : i ∈ c.order) (hlate : ¬c.Early i) : Move c c' := by
  rcases h.regs with hr | ⟨j, sfra, hlsq, hsfra, hr⟩
  · exact .kept h.frame hr
  · exact .forward i j sfra h.frame hi hlate hlsq hsfra hr

/-- An unaligned access annuls from the first uop of its instruction on. -/
theorem Issuing.annulStart_order {inq : ℕ → Option Cluster} {cl : Cluster}
    (h : Issuing i cl (.issued cl) inq c) (rip : RIPVirtPhys) :
    (c.setUnalignedHint rip true).annulStart i false ∈ c.order := by
  obtain ⟨W, post, hsp⟩ := h.base.split
  have hpost := hsp.mem_post (h.base.sched.mem_order h.state (by simp)) h.state
    (by simp [RobState.Settled])
  obtain ⟨X, s, Y, hXY, -, -, hstart⟩ := annulStart_som h.base.sched.ring_wf hsp hpost
  have hs : s ∈ c.order := by rw [hsp.order, hXY]; simp
  rw [show (c.setUnalignedHint rip true).annulStart i false = s from hstart]
  exact hs

/-- A mispredicted branch annuls from the entry after it on, if there is one. -/
theorem annulStart_correctUop (h : Base c) (hi : i ∈ c.order) (heom : (c.uop i).op.eom = true)
    (rip : W64) : (c.correctUop i rip).annulStart i true = c.ring.tail ∨
      (c.correctUop i rip).annulStart i true ∈ c.order := by
  have heom' : ((c.correctUop i rip).uop i).op.eom = true := by
    have := (sameMarks_correctBranch (c.uop i).op rip).2.1
    simpa [Core.correctUop] using this.trans heom
  rw [annulStart_eom heom']
  obtain ⟨A, B, hord⟩ := List.append_of_mem hi
  cases B with
  | nil => exact .inl (h.sched.ring_wf.next_last hord)
  | cons q B =>
    rw [h.sched.ring_wf.next_of_order hord]
    exact .inr (show q ∈ c.order by rw [hord]; simp)

/-- An annulment, if it annuls anything, and the fetch unit starting over. -/
theorem annul_moves (rc : ℕ → Bool) (i : ℕ) (keep : Bool) (rip : W64)
    (hstart : c.annulStart i keep = c.ring.tail ∨ c.annulStart i keep ∈ c.order) :
    ReflTransGen Move c ((c.annul rc i keep).2.resetFetchUnit rip) := by
  unfold Core.annul
  dsimp only
  split
  · exact .single (.resetFetch rip)
  · rename_i hne
    obtain ⟨X, Y, hord⟩ := List.append_of_mem (hstart.resolve_left hne)
    exact .tail (.single (.annul rc hord)) (.resetFetch rip)

theorem frame_correctUop (c : Core) (i : ℕ) (rip : W64) : Frame c (c.correctUop i rip) := by
  refine .ofLists rfl (fun k => ?_) (.refl _) rfl rfl
  by_cases hk : k = i
  · subst hk
    simp only [Core.correctUop, Function.update_self, Core.correctBranch]
    repeat' split
    all_goals exact ⟨rfl, rfl, rfl, rfl, rfl⟩
  · simpa [Core.correctUop, hk] using SameRole.refl (c.uop k)

theorem current_toCommit (c : Core) (i k : ℕ) : (c.toCommit i).sched.lists.current k =
    if k = i then some .readyToCommit else c.sched.lists.current k :=
  StateLists.current_changestate i k _

theorem frame_toCommit (c : Core) (i : ℕ) : Frame c (c.toCommit i) :=
  .ofState .readyToCommit (by simp) rfl rfl (.refl _) rfl (current_toCommit c i)

theorem frame_finishIssue (c : Core) (i : ℕ) (cl : Cluster) (r : UopResult) :
    Frame c (c.finishIssue i cl r) := by
  unfold Core.finishIssue
  dsimp only
  have hv : Frame c { c with vals := c.vals.set (c.regs.physreg i) r.rddata r.rdflags } :=
    .ofLists rfl (fun _ => .refl _) (.refl _) rfl rfl
  refine hv.trans ?_
  generalize ({ c with vals := c.vals.set (c.regs.physreg i) r.rddata r.rdflags } : Core) = c₁
  refine (?_ : Frame c₁ (c₁.commitAtOnce i r)).trans (.ofLists rfl (fun _ => .refl _) (.refl _) rfl rfl)
  have hinv : ∀ c₂, Frame c₁ c₂ →
      Frame c₁ (if (c₂.uop i).op.opcode = .opMf then c₂.toCommit i else c₂) := by
    intro c₂ h
    split
    · exact h.trans (frame_toCommit c₂ i)
    · exact h
  simp only [Core.commitAtOnce]
  by_cases hr : r.rdflags &&& FLAG_INV ≠ 0
  · rw [if_pos hr]; exact hinv _ (frame_toCommit c₁ i)
  · rw [if_neg hr]; exact hinv c₁ (.refl c₁)

theorem regs_finishIssue (c : Core) (i : ℕ) (cl : Cluster) (r : UopResult) :
    (c.finishIssue i cl r).regs = c.regs := by rw [finishIssue_eq]

theorem move_replay (c : Core) (i : ℕ) (cl : Cluster) : Move c (c.replay i cl) := by
  refine .kept (.ofState (c.waitList i cl) ?_ rfl rfl (.refl _) rfl
    fun k => StateLists.current_changestate i k _) rfl
  unfold Core.waitList Core.readyToIssueList
  dsimp only
  repeat' split
  all_goals simp

/-- The end of an execution that does not annul. -/
theorem Executed.moves {inp : CycleInput} {cl : Cluster} {inq : ℕ → Option Cluster} {res : IssueResult}
    {r : UopResult} (hI : Issuing i cl (.issued cl) inq c) (hex : Executed inp i cl c res r c') :
    ReflTransGen Move c c' := by
  have hi : i ∈ c.order := hI.base.sched.mem_order hI.state (by simp)
  have hlate : ¬c.Early i := by
    unfold Core.Early
    rw [hI.state]
    simp
  have htouch : ∀ {c₁}, Touch i c c₁ → ReflTransGen Move c c₁ := fun ht => .single (ht.move hi hlate)
  cases hex with
  | done ht => exact htouch ht
  | hit n ht => exact (htouch ht).tail (.kept (.ofLists rfl (fun _ => .refl _) (.refl _) rfl rfl) rfl)
  | @miss c₁ r ht =>
    refine (htouch ht).tail (.kept (.ofState .cacheMiss (by simp) rfl rfl ?_ rfl fun k =>
      StateLists.current_changestate i k _) rfl)
    exact ⟨rfl, rfl, rfl, rfl, fun _ => rfl, fun _ => rfl⟩
  | fence ht =>
    exact (htouch ht).tail (.kept (.ofState .memoryFence (by simp) rfl rfl (.refl _) rfl fun k =>
      StateLists.current_changestate i k _) rfl)
  | replay ht => exact (htouch ht).tail (move_replay _ i cl)
  | @replaySecondPhase c₁ r ht =>
    refine ((htouch ht).tail (move_replay c₁ i cl)).tail (.kept ?_ rfl)
    exact .ofLists rfl (fun _ => .refl _) ⟨rfl, rfl, rfl, rfl, fun _ => rfl, fun _ => rfl⟩ rfl rfl
  | @unaligned c₁ r ht =>
    have h1 := hI.touch ht
    have hhint : Move c₁ (c₁.setUnalignedHint (c₁.uop i).rip true) :=
      .kept ⟨rfl, fun _ => .refl _, .refl _, rfl, rfl, fun _ h => h⟩ rfl
    refine ((htouch ht).tail hhint).trans (annul_moves _ _ _ _ ?_)
    exact .inr (h1.annulStart_order _)
  | @«alias» c₁ r j k chunk ht hlsq hk hst =>
    refine (htouch ht).tail (.aliased i j k ?_ ?_ (List.mem_of_find?_eq_some hk) ?_)
    · rw [Core.order, ht.ring]; exact hi
    · rw [ht.ls.lsq]; exact hlsq
    · rw [(ht.uop i).1]; exact hst

/-- A branch that was predicted wrong: what comes after it goes. -/
theorem mispredict_moves {st : RobState} (h : Base c) (hst : c.sched.lists.current i = some st)
    (hne : st ≠ .free) (heom : (c.uop i).op.eom = true) (inp : CycleInput) (rip : W64) :
    ReflTransGen Move c (c.mispredict inp i rip) := by
  have hi : i ∈ c.order := h.sched.mem_order hst hne
  refine .trans (.single (.kept (frame_correctUop c i rip) rfl)) (annul_moves _ _ _ _ ?_)
  exact annulStart_correctUop h hi heom rip

theorem frame_startIssue {slot : ℕ} {q : IssueQueue} (c : Core) (i : ℕ) (cl : Cluster) (fu : ℕ) :
    Frame c ((c.takeSlot cl slot q).startIssue i cl fu) :=
  .ofState (.issued cl) (by simp) rfl rfl (.refl _) rfl fun k => StateLists.current_changestate i k _

/-- A turn of the issue loop. -/
theorem Turn.moves {inp : CycleInput} {cl : Cluster} (h : Base c) (ht : Turn inp cl c c') :
    ReflTransGen Move c c' := by
  cases ht with
  | idle => exact .refl
  | noFu hp => exact .single (.kept (.ofLists rfl (fun _ => .refl _) (.refl _) rfl rfl) rfl)
  | back hp hres hex =>
    exact .trans (.single (.kept (frame_startIssue c _ cl _) rfl)) (hex.moves (h.issuing hp))
  | completed hp hex =>
    exact .tail (.trans (.single (.kept (frame_startIssue c _ cl _) rfl)) (hex.moves (h.issuing hp)))
      (.kept (frame_finishIssue _ _ _ _) (regs_finishIssue _ _ _ _))
  | @mispredict i slot fu q r c₁ hp hex hbr hinv =>
    obtain ⟨st, hne, hI, hst, hmiss⟩ := (h.issuing hp).executed hex
    have hmf : (c₁.uop i).op.opcode ≠ .opMf := by
      intro hmf
      rw [hmf] at hbr
      exact absurd hbr (by decide)
    have hbase : Base (c₁.finishIssue i cl r) := hI.finishIssue hne hmiss
    have hmoves : ReflTransGen Move c (c₁.finishIssue i cl r) :=
      .tail (.trans (.single (.kept (frame_startIssue c _ cl _) rfl)) (hex.moves (h.issuing hp)))
        (.kept (frame_finishIssue _ _ _ _) (regs_finishIssue _ _ _ _))
    have hstate : (c₁.finishIssue i cl r).sched.lists.current i = some st := by
      rw [finishIssue_lists hinv hmf]; exact hI.state
    refine hmoves.trans (mispredict_moves hbase hstate hne ?_ inp _)
    refine (hbase.ops i (hbase.sched.mem_order hstate hne)).branch_eom ?_
    rw [finishIssue_eq]; exact hbr

/-! ### Fetch -/

theorem Tick.frame (h : Tick c c') : Frame c c' := by
  refine ⟨h.ring, fun k => by rw [h.uop]; exact .refl _, ?_, by rw [h.fetch], by rw [h.fetch], fun k hk => ?_⟩
  · rw [h.ls]; exact ⟨rfl, rfl, rfl, rfl, fun _ => rfl, fun _ => rfl⟩
  · unfold Core.Early at hk ⊢; rwa [h.sched] at hk

theorem fetchUop_moves (c : Core) (inp : CycleInput) (k : ℕ) (bb : BasicBlock) :
    Move c (c.fetchUop inp k bb).2 := by
  have hnext : (c.nextTransop bb).2.fetchq = c.fetch.fetchq ∧
      (c.nextTransop bb).2.fetchUuid = c.fetch.fetchUuid := ⟨rfl, rfl⟩
  unfold Core.fetchUop
  dsimp only
  generalize c.predrip inp k (c.nextTransop bb).1 = predrip
  generalize Core.setupPredicted (c.nextTransop bb).1 predrip = op
  generalize (c.nextTransop bb).2 = f at hnext ⊢
  have hadv : ∀ c₁ : Core, ∃ rvp, (c₁.advanceRip op predrip).2 =
      { c₁ with fetch := { c₁.fetch with fetchrip := rvp } } := by
    intro c₁
    unfold Core.advanceRip
    split
    · dsimp only
      split <;> exact ⟨_, rfl⟩
    · exact ⟨_, rfl⟩
  obtain ⟨rvp, heq⟩ := hadv (c.pushUop op f bb)
  rw [heq]
  refine .fetch ⟨op, c.fetch.fetchrip, f.fetchUuid, false, c.codeOf bb c.fetch.fetchrip.rip op.bytes⟩
    rfl rfl rfl rfl rfl ?_ hnext.2 ?_
  · show f.fetchq ++ _ = _
    rw [hnext.1]
  · show f.fetchUuid + 1 = _
    rw [hnext.2]

theorem frame_releaseBlock (c : Core) : Frame c c.releaseBlock ∧ c.releaseBlock.regs = c.regs := by
  unfold Core.releaseBlock
  split
  · exact ⟨.refl c, rfl⟩
  · exact ⟨⟨rfl, fun _ => .refl _, .refl _, rfl, rfl, fun _ h => h⟩, rfl⟩

theorem frame_fetchOrTranslate (c : Core) (dec : Decoder) :
    Frame c (c.fetchOrTranslateBasicBlock dec) ∧ (c.fetchOrTranslateBasicBlock dec).regs = c.regs := by
  obtain ⟨hf, hr⟩ := frame_releaseBlock c
  unfold Core.fetchOrTranslateBasicBlock
  dsimp only
  generalize c.releaseBlock = c₁ at hf hr ⊢
  split
  · exact ⟨hf.trans ⟨rfl, fun _ => .refl _, .refl _, rfl, rfl, fun _ h => h⟩, hr⟩
  · split
    · exact ⟨hf.trans ⟨rfl, fun _ => .refl _, .refl _, rfl, rfl, fun _ h => h⟩, hr⟩
    · exact ⟨hf.trans ⟨rfl, fun _ => .refl _, .refl _, rfl, rfl, fun _ h => h⟩, hr⟩

theorem fetchTurn_moves (c : Core) (dec : Decoder) (inp : CycleInput) (k : ℕ) :
    ReflTransGen Move c (c.fetchTurn dec inp k).2 := by
  have hnext : Move c (c.nextBlock dec) := by
    unfold Core.nextBlock
    split
    · exact .kept (frame_fetchOrTranslate c dec).1 (frame_fetchOrTranslate c dec).2
    · exact .kept (.refl c) rfl
  unfold Core.fetchTurn
  split
  · exact .refl
  · refine .trans (.single hnext) ?_
    generalize c.nextBlock dec = c₁
    dsimp only
    split
    · exact .refl
    · rename_i bb _
      have hprobe : Move c₁ (c₁.probeIcache inp k bb).2 :=
        .kept (probeIcache_frame c₁ inp k bb).frame (probeIcache_frame c₁ inp k bb).regs
      split
      · rename_i c₂ heq; rw [heq] at hprobe; exact .single hprobe
      · rename_i c₂ heq
        rw [heq] at hprobe
        exact .tail (.single hprobe) (fetchUop_moves c₂ inp k bb)

/-! ### Every step -/

/-- The head of an instruction that can commit can. -/
theorem Core.Head.ready {pre : List ℕ} {e : ℕ} (hinsn : c.Head pre e) (hhead : c.order.head? = some i)
    (hready : ∀ k ∈ pre ++ [e], c.Committable k) : c.sched.lists.current i = some .readyToCommit := by
  obtain ⟨post, hpost⟩ := hinsn.order
  refine (hready i ?_).ready
  rw [hpost] at hhead
  cases pre with
  | nil => simpa using hhead.symm
  | cons a pre =>
    rw [List.cons_append, List.head?_cons, Option.some.injEq] at hhead
    simp [hhead]

/-- The result of an entry becomes visible. -/
theorem wakeup_moves (hi : i ∈ c.order) : Move c (c.wakeup i) := by
  refine .settle i .bypass (.ofState (.completed ((c.sched.cluster i).getD 0)) (by simp) rfl rfl ?_ rfl
    fun k => StateLists.current_changestate i k _) hi (.inl rfl) rfl
  exact ⟨rfl, rfl, rfl, rfl, fun _ => rfl, fun _ => rfl⟩

theorem Frame.wakeup (hf : Frame c c') (hr : c'.regs = c.regs) (hi : i ∈ c.order) :
    ReflTransGen Move c (c'.wakeup i) :=
  .tail (.single (.kept hf hr)) (wakeup_moves (by rw [hf.order]; exact hi))

theorem completeEntry_moves {cl : Cluster} (hi : i ∈ c.order) : Move c (c.completeEntry cl i) := by
  unfold Core.completeEntry
  dsimp only
  split
  · exact .settle i .bypass (.ofState (.completed cl) (by simp) rfl rfl (.refl _) rfl
      fun k => StateLists.current_changestate i k _) hi (.inl rfl) rfl
  · exact .kept (.ofLists rfl (fun _ => .refl _) (.refl _) rfl rfl) rfl

theorem writebackEntry_moves (hi : i ∈ c.order) : Move c (c.writebackEntry i) := by
  unfold Core.writebackEntry
  split
  · exact .kept (.refl c) rfl
  · exact .settle i .written (.ofState .readyToCommit (by simp) rfl rfl (.refl _) rfl
      fun k => StateLists.current_changestate i k _) hi (.inr rfl) rfl

theorem transferEntry_moves (c : Core) (i : ℕ) : Move c (c.transferEntry i) := by
  unfold Core.transferEntry
  split
  · exact .kept (.refl c) rfl
  · rename_i cl hcl
    refine .kept ?_ rfl
    dsimp only
    split
    · exact .ofState (.readyToWriteback cl) (by simp) rfl rfl (.refl _) rfl
        fun k => StateLists.current_changestate i k _
    · exact .ofLists rfl (fun _ => .refl _) (.refl _) rfl rfl

theorem frontendEntry_moves (hst : c.sched.lists.current i = some .frontend) :
    Move c (c.frontendEntry i) := by
  refine .kept ?_ rfl
  unfold Core.frontendEntry
  dsimp only
  split
  · exact .ofState .readyToDispatch ⟨by simp, fun _ => .inl hst⟩ rfl rfl (.refl _) rfl
      fun k => StateLists.current_changestate i k _
  · exact .ofLists rfl (fun _ => .refl _) (.refl _) rfl rfl

/-- What dispatch does to the registers: nothing, or the fence before it is named. -/
theorem dispatchEntry_regs (hd : c.dispatchEntry i = some c') :
    c'.regs = c.regs ∨ ∃ j k, c.ls.lsq i = some j ∧ k ∈ c.ls.ring.backwardBefore LSQ_SIZE j ∧
      c'.regs = c.regs.addOperand i RS (c.regs.physreg (c.ls.entry k).rob) := by
  unfold Core.dispatchEntry at hd
  cases hcl : c.selectCluster i with
  | none => rw [hcl] at hd; cases hd
  | some cl =>
    rw [hcl] at hd
    dsimp only [Core.findSources] at hd
    rw [Option.some.injEq] at hd
    have hregs : c'.regs = (Core.addFenceOperand { c with sched := { c.sched with
        cluster := Function.update c.sched.cluster i (some cl) } } i).regs := by rw [← hd]; rfl
    rw [hregs]
    unfold Core.addFenceOperand
    dsimp only
    split
    · cases hf : ({ c with sched := { c.sched with
        cluster := Function.update c.sched.cluster i (some cl) } } : Core).findNearestMemoryFence i with
      | none => exact .inl rfl
      | some k =>
        unfold Core.findNearestMemoryFence at hf
        dsimp only at hf
        cases hlsq : c.ls.lsq i with
        | none => rw [hlsq] at hf; cases hf
        | some j =>
          rw [hlsq] at hf
          exact .inr ⟨j, k, rfl, List.mem_of_find?_eq_some hf, rfl⟩
    · exact .inl rfl

theorem dispatchEntry_moves (hi : i ∈ c.order)
    (hst : c.sched.lists.current i = some .readyToDispatch) (hd : c.dispatchEntry i = some c') :
    Move c c' := by
  obtain ⟨cl, needed, tags, -, hs, hring, huop, -, hls, hfetch, -⟩ := dispatchEntry_eq hd
  have hq := queue?_dispatched c i cl needed
  generalize (if needed = true then RobState.dispatched cl else c.readyToIssueList i cl) = st at hs hq
  have hne : st ≠ .frontend ∧ st ≠ .readyToDispatch := by
    constructor <;> · rintro rfl; cases hq
  have hcur : ∀ k, c'.sched.lists.current k = if k = i then some st else c.sched.lists.current k := by
    intro k; rw [hs]; exact StateLists.current_changestate i k st
  have hf : Frame c c' :=
    .ofState st ⟨hne.1, fun h => absurd h hne.2⟩ hring huop (by rw [hls]; exact .refl _) hfetch hcur
  rcases dispatchEntry_regs hd with hr | ⟨j, k, hlsq, hk, hr⟩
  · exact .kept hf hr
  · refine .fence i j k hf hi (.inr hst) ?_ hlsq hk hr
    unfold Core.Early
    rw [hcur, if_pos rfl]
    simp [hne]

/-- Every small step is a chain of moves. -/
theorem Step.moves {env : Env} {inp : CycleInput} {a : Action} (h : Base c)
    (hs : Step env inp a c c') : ReflTransGen Move c c' := by
  have hmem : ∀ {i st}, c.sched.lists.current i = some st → st ≠ .free → i ∈ c.order :=
    fun hst hne => h.sched.mem_order hst hne
  -- what the renamer does not see is one move that keeps; a turn of the issue stage is several
  cases hs with
  | tick ht => exact .single (.kept ht.frame ht.regs)
  | loadwakeup i hl =>
    refine Frame.wakeup (.ofLists rfl (fun _ => .refl _) ?_ rfl rfl) rfl (hmem (h.lfrq i hl) (by simp))
    exact sameSlots_modifyLsq c i (f := fun e => { e with datavalid := true }) fun _ => ⟨rfl, rfl⟩
  | recycle => exact .single .recycle
  | fencewakeup i _ _ hready _ =>
    refine Frame.wakeup (.ofLists rfl (fun _ => .refl _) ?_ rfl rfl) rfl (hmem hready (by simp))
    refine (sameSlots_modifyLsq c i (f := fun e => { e with datavalid := true, addrvalid := true })
      fun _ => ⟨rfl, rfl⟩).trans ?_
    exact ⟨rfl, rfl, rfl, rfl, fun _ => rfl, fun _ => rfl⟩
  | fault j _ =>
    refine .single (.kept ((?_ : Frame c (c.forceFpUnavailable j)).trans
      (.ofLists rfl (fun _ => .refl _) (.refl _) rfl rfl)) ?_)
    · unfold Core.forceFpUnavailable
      dsimp only
      split
      · refine .ofLists rfl (fun _ => .refl _) ?_ rfl rfl
        exact sameSlots_modifyLsq c j (f := fun e => { e with invalid := true }) fun _ => ⟨rfl, rfl⟩
      · exact .refl c
    · unfold Core.forceFpUnavailable
      dsimp only
      split <;> rfl
  | queueSmc => exact .single (.kept (.ofLists rfl (fun _ => .refl _) (.refl _) rfl rfl) rfl)
  | retire i hhead hinsn hready _ =>
    obtain ⟨rest, hord⟩ : ∃ rest, c.order = i :: rest := List.head?_eq_some_iff.1 hhead
    have hi : i ∈ c.order := by rw [hord]; exact List.mem_cons_self
    exact .single (.retire i hord (h.ops i hi) (hinsn.ready hhead hready))
  | writeback i cl hst => exact .single (writebackEntry_moves (hmem hst (by simp)))
  | transfer i cl _ => exact .single (transferEntry_moves c i)
  | clockQueues => exact .single (.kept (.ofLists rfl (fun _ => .refl _) (.refl _) rfl rfl) rfl)
  | issueTurn cl => exact (Core.issueTurn_cases env.exec inp cl c).moves h
  | dispatch i hst hd => exact .single (dispatchEntry_moves (hmem hst (by simp)) hst hd)
  | complete cl i hst => exact .single (completeEntry_moves (hmem hst (by simp)))
  | frontend i hst => exact .single (frontendEntry_moves hst)
  | @rename _ uop rest p hq hroom hp hlsq =>
    exact .single (.rename hq hroom hp hlsq (h.queue uop (by rw [hq]; exact List.mem_cons_self)))
  | fetch k => exact fetchTurn_moves c env.dec inp k
  | flush => exact .single .flush
  | invalidateSmc =>
    refine .single (.kept ?_ ?_)
    · unfold Core.invalidateSmc
      split
      · exact .ofLists rfl (fun _ => .refl _) (.refl _) rfl rfl
      · exact .refl c
    · unfold Core.invalidateSmc
      split <;> rfl
  | assist => exact .single (.kept (.ofLists rfl (fun _ => .refl _) (.refl _) rfl rfl) rfl)
  | setRip => exact .single (.kept (.ofLists rfl (fun _ => .refl _) (.refl _) rfl rfl) rfl)

end

/-! ### The buffer along the moves -/

section

variable {c c' : Core} {X Y l : List ℕ} {e : ℕ}

/-- Pass 3 takes the youngest entry each time. -/
theorem annulEntries_ind {P : Core → Prop} (hring : c.ring.WF ROB_SIZE)
    (hord : c.order = X ++ l.reverse) (hP : P c)
    (hstep : ∀ c M i, c.ring.WF ROB_SIZE → c.order = (X ++ M) ++ [i] → P c → P (c.annulEntry i)) :
    (l.foldl Core.annulEntry c).ring.WF ROB_SIZE ∧ (l.foldl Core.annulEntry c).order = X ∧
      P (l.foldl Core.annulEntry c) := by
  induction l generalizing c with
  | nil => exact ⟨hring, by simpa using hord, hP⟩
  | cons i l ih =>
    rw [List.reverse_cons, ← List.append_assoc] at hord
    have hne : c.ring.order ROB_SIZE ≠ [] := by
      show c.order ≠ []
      rw [hord]; simp
    exact ih (hring.annul hne) (annulEntry_order hring hord) (hstep c _ i hring hord hP)

/-- An annulment: what holds after passes 1 and 2, and is kept as each doomed entry goes,
youngest first, holds at the end. -/
theorem annulFrom_ind {P : Core → Prop} (rc : ℕ → Bool) (hring : c.ring.WF ROB_SIZE)
    (hord : c.order = X ++ e :: Y)
    (hP : ∀ s, s.lists = c.sched.lists → P { c with
      sched := s
      regs := X.foldl (fun r i => r.mapSpec (c.uop i).op (r.physreg i)) c.regs.restoreSpec })
    (hstep : ∀ c M i, c.ring.WF ROB_SIZE → c.order = (X ++ M) ++ [i] → P c → P (c.annulEntry i)) :
    (c.annulFrom rc e).ring.WF ROB_SIZE ∧ (c.annulFrom rc e).order = X ∧ P (c.annulFrom rc e) := by
  obtain ⟨hbefore, hafter⟩ := hring.cut hord
  have he : e ∈ c.ring.order ROB_SIZE := by show e ∈ c.order; rw [hord]; simp
  have hdoomed : CircQueue.forward ROB_SIZE e c.ring.tail = e :: Y := by
    rw [← hafter]; exact hring.forwardFrom_cons he
  unfold Core.annulFrom
  simp only [hdoomed, hbefore]
  have hP' := hP _ (Sched.lists_annulIqSlots rc (e :: Y).reverse c.sched)
  generalize (e :: Y).reverse.foldl (fun s i => s.annulIqSlot (rc i) i) c.sched = s at hP' ⊢
  generalize X.foldl (fun r i => r.mapSpec (c.uop i).op (r.physreg i)) c.regs.restoreSpec = r at hP' ⊢
  exact annulEntries_ind (c := { c with sched := s, regs := r }) hring
    (by rw [List.reverse_reverse]; exact hord) hP' hstep

theorem order_annulFrom (rc : ℕ → Bool) (hring : c.ring.WF ROB_SIZE) (hord : c.order = X ++ e :: Y) :
    (c.annulFrom rc e).ring.WF ROB_SIZE ∧ (c.annulFrom rc e).order = X := by
  obtain ⟨h1, h2, -⟩ := annulFrom_ind (P := fun _ => True) rc hring hord (fun _ _ => trivial)
    fun _ _ _ _ _ _ => trivial
  exact ⟨h1, h2⟩

/-- What the recovery of an overtaken store leaves alone. -/
theorem redispatchLoop_frame (this : ℕ) (l depmap : List ℕ) (prev : Option ℕ) :
    (Core.redispatchLoop this l depmap prev c).ring = c.ring ∧
      (Core.redispatchLoop this l depmap prev c).uop = c.uop ∧
      (Core.redispatchLoop this l depmap prev c).fetch = c.fetch ∧
      SameSlots c.ls (Core.redispatchLoop this l depmap prev c).ls := by
  induction l generalizing c depmap prev with
  | nil => exact ⟨rfl, rfl, rfl, .refl _⟩
  | cons i l ih =>
    unfold Core.redispatchLoop
    split
    · obtain ⟨h1, h2, h3, h4⟩ := ih (c := c.redispatch i prev) (i :: depmap) (some i)
      exact ⟨h1, h2, h3, (sameSlots_redispatch c.ls i).trans h4⟩
    · exact ih depmap prev

theorem aliasRedispatch_frame (c : Core) (i j k : ℕ) :
    (c.aliasRedispatch i j k).ring = c.ring ∧ (c.aliasRedispatch i j k).uop = c.uop ∧
      (c.aliasRedispatch i j k).fetch = c.fetch ∧ SameSlots c.ls (c.aliasRedispatch i j k).ls := by
  have hmark : SameSlots c.ls (c.aliasMark i j k).ls := .setEntry c.ls j _ rfl rfl
  obtain ⟨h1, h2, h3, h4⟩ := redispatchLoop_frame (c := c.aliasMark i j k) i
    (c.ring.forwardFrom ROB_SIZE i) [i] none
  exact ⟨h1, h2, h3, hmark.trans h4⟩

theorem Move.ring_wf (hring : c.ring.WF ROB_SIZE) (h : Move c c') : c'.ring.WF ROB_SIZE := by
  cases h with
  | kept h => rw [h.ring]; exact hring
  | settle i st h => rw [h.ring]; exact hring
  | forward i j sfra h => rw [h.ring]; exact hring
  | fence i j k h => rw [h.ring]; exact hring
  | recycle => exact hring
  | aliased i j k hi => rw [(aliasRedispatch_frame c i j k).1]; exact hring
  | rename hq hroom => exact hring.alloc hroom
  | retire i hord =>
    rw [(retire_frame c i).1]
    exact hring.commit (by show c.order ≠ []; rw [hord]; simp)
  | annul rc hord => exact (order_annulFrom rc hring hord).1
  | resetFetch rip => rw [(fetchReset c rip).ring]; exact hring
  | fetch u hr => rw [hr]; exact hring
  | flush => exact CircQueue.wf_empty (by decide)

end

/-- What every move keeps holds at every stage of every run. -/
theorem rule_of_moves {idle inv : Core → Prop} (env : Env) (ok : RunState → CycleInput → Prop)
    (hmove : ∀ c c', c.ring.WF ROB_SIZE → inv c → Move c c' → inv c')
    (hconstruct : ∀ ctx mach, idle (Core.construct ctx mach))
    (hstart : ∀ (c : Core) ctx space bbcache n, idle c → inv (c.started ctx space bbcache n))
    (hidle : ∀ c, inv c → idle c) : Rule env ok idle inv where
  construct ctx mach _ := hconstruct ctx mach
  start c ctx space bbcache n h _ := hstart c ctx space bbcache n h
  step _ _ _ _ _ _ hb hi hs :=
    (chain_inv (I := fun c => c.ring.WF ROB_SIZE ∧ inv c)
      (fun _ _ h hm => ⟨hm.ring_wf h.1, hmove _ _ h.1 h.2 hm⟩) ⟨hb.sched.ring_wf, hi⟩ (hs.moves hb)).2
  idle_of _ _ h := hidle _ h
  finish c hb h := by
    have h1 := hmove _ _ hb.sched.ring_wf h Move.flush
    refine hidle _ (hmove _ _ (Move.ring_wf hb.sched.ring_wf .flush) h1 (.kept ?_ ?_))
    · unfold Core.invalidateSmc
      split
      · exact .ofLists rfl (fun _ => .refl _) (.refl _) rfl rfl
      · exact .refl _
    · unfold Core.invalidateSmc
      split <;> rfl

end X86Sim.Ooo
