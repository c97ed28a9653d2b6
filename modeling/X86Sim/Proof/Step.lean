import X86Sim.Ooo.Cycle
import X86Sim.Lib.Chains

/-!
# The pipeline as a machine of small steps

`Step` is what one entry, one fetched uop or one recovery does, with the guard the
stage it is part of has checked. A cycle is a chain of such steps, so whatever each
step keeps holds at the end of every stage; the stages' own loops and counters are
gone through once, when the chains are built.

The label says which steps commit (`retire`), fetch or flush, where a property singles
them out.
-/

namespace X86Sim.Ooo

namespace Core

variable (c : Core)

/-- The uop of entry `i` is of a unit the context does not have. -/
def fpUnavailable (i : ℕ) : Bool :=
  ((c.uop i).op.isSse && c.ctx.noSse) || ((c.uop i).op.isX87 && c.ctx.noX87)

/-- The uops at the head of the buffer up to the first that ends an instruction are
`pre` and then `e`. -/
structure Head (pre : List ℕ) (e : ℕ) : Prop where
  order : ∃ post, c.order = pre ++ e :: post
  inner : ∀ k ∈ pre, (c.uop k).op.eom = false
  last : (c.uop e).op.eom = true

/-- Entry `i` can commit and carries no exception. -/
structure Committable (i : ℕ) : Prop where
  ready : c.sched.lists.current i = some .readyToCommit
  valid : c.vals.valid (c.regs.physreg i) = true
  available : c.fpUnavailable i = false

end Core

/-- Nothing but counters, the state of the functional units and of the fetch unit's
cache line, and the vector last reported changes. -/
structure Tick (c c' : Core) : Prop where
  ring : c'.ring = c.ring
  uop : c'.uop = c.uop
  sched : c'.sched = c.sched
  regs : c'.regs = c.regs
  vals : c'.vals = c.vals
  ls : c'.ls = { c.ls with loadsInThisCycle := c'.ls.loadsInThisCycle }
  fetch : c'.fetch = { c.fetch with
    waitingForIcacheFill := c'.fetch.waitingForIcacheFill
    stallFrontend := c'.fetch.stallFrontend
    currentIcacheBlock := c'.fetch.currentIcacheBlock }
  ctx : c'.ctx = { c.ctx with x86Exception := c'.ctx.x86Exception }
  mach : c'.mach = { c.mach with
    simCycle := c'.mach.simCycle
    stopAtNextEom := c'.mach.stopAtNextEom
    lastCommitAtCycle := c'.mach.lastCommitAtCycle
    dispatchDeadlockCountdown := c'.mach.dispatchDeadlockCountdown
    fuAvail := c'.mach.fuAvail
    chkRecoveryRip := c'.mach.chkRecoveryRip
    stopped := c'.mach.stopped }

inductive Action
  | work | retire (i : ℕ) | fetch | flush | outside
  deriving DecidableEq

/-- One small step of the pipeline. -/
inductive Step (env : Env) (inp : CycleInput) : Action → Core → Core → Prop
  | tick {c c' : Core} (h : Tick c c') : Step env inp .work c c'
  | loadwakeup {c : Core} (i : ℕ) (h : c.ls.lfrq i = true) : Step env inp .work c (c.loadwakeup i)
  | recycle {c : Core} : Step env inp .work c { c with regs := c.regs.recycle }
  /-- The fence at the head is woken. -/
  | fencewakeup {c : Core} (i : ℕ) (hhead : c.order.head? = some i)
      (hmf : (c.uop i).op.opcode = .opMf)
      (hready : c.sched.lists.current i = some .readyToCommit) (hphase : c.ls.secondPhase i = false) :
      Step env inp .work c (c.fencewakeup i)
  /-- What the scan of an instruction that does not commit leaves behind. -/
  | fault {c : Core} (j : ℕ) (hj : j ∈ c.order) :
      Step env inp .work c ((c.forceFpUnavailable j).noteException j)
  | queueSmc {c : Core} (rvp : RIPVirtPhys) : Step env inp .work c (c.queueSmc rvp)
  /-- Entry `i` commits: all uops of its instruction that are still there can. -/
  | retire {c : Core} (i : ℕ) {pre : List ℕ} {e : ℕ} (hhead : c.order.head? = some i)
      (hinsn : c.Head pre e) (hready : ∀ k ∈ pre ++ [e], c.Committable k)
      (hclean : (c.uop i).op.som = true → c.codeDirty (c.uop i) = false) :
      Step env inp (.retire i) c (c.retire i)
  | writeback {c : Core} (i : ℕ) (cl : Cluster)
      (h : c.sched.lists.current i = some (.readyToWriteback cl)) :
      Step env inp .work c (c.writebackEntry i)
  | transfer {c : Core} (i : ℕ) (cl : Cluster) (h : c.sched.lists.current i = some (.completed cl)) :
      Step env inp .work c (c.transferEntry i)
  | clockQueues {c : Core} : Step env inp .work c { c with sched := c.sched.clockQueues }
  | issueTurn {c : Core} (cl : Cluster) : Step env inp .work c (c.issueTurn env.exec inp cl).2
  | dispatch {c c' : Core} (i : ℕ) (h : c.sched.lists.current i = some .readyToDispatch)
      (hd : c.dispatchEntry i = some c') : Step env inp .work c c'
  | complete {c : Core} (cl : Cluster) (i : ℕ) (h : c.sched.lists.current i = some (.issued cl)) :
      Step env inp .work c (c.completeEntry cl i)
  | frontend {c : Core} (i : ℕ) (h : c.sched.lists.current i = some .frontend) :
      Step env inp .work c (c.frontendEntry i)
  | rename {c : Core} {uop : FetchBufferEntry} {rest : List FetchBufferEntry} {p : PhysReg}
      (hq : c.fetch.fetchq = uop :: rest) (hroom : 0 < c.ring.remaining ROB_SIZE)
      (hp : c.regs.peekFree (physRegFileWritableByUop uop.op) = some p)
      (hlsq : c.lsqRoom uop.op = true) : Step env inp .work c (c.renameUop uop rest p)
  | fetch {c : Core} (k : ℕ) : Step env inp .fetch c (c.fetchTurn env.dec inp k).2
  | flush {c : Core} : Step env inp .flush c c.flushPipeline
  | invalidateSmc {c : Core} : Step env inp .work c c.invalidateSmc
  /-- The assist of a barrier, in an empty pipeline. -/
  | assist {c : Core} (hempty : c.order = []) (hq : c.fetch.fetchq = []) :
      Step env inp .outside c (c.afterAssist env.assist)
  /-- The context skips a block, in an empty pipeline. -/
  | setRip {c : Core} (rip : W64) (hempty : c.order = []) (hq : c.fetch.fetchq = []) :
      Step env inp .outside c (c.setRip rip)

/-- A chain of small steps whose labels satisfy `p`. -/
def Steps (env : Env) (inp : CycleInput) (p : Action → Prop) : Core → Core → Prop :=
  Relation.ReflTransGen fun c c' => ∃ a, p a ∧ Step env inp a c c'

section

variable {env : Env} {inp : CycleInput} {p q : Action → Prop} {a : Action} {c c' c'' : Core}

theorem Step.steps (h : Step env inp a c c') (ha : p a) : Steps env inp p c c' :=
  Relation.ReflTransGen.single ⟨a, ha, h⟩

theorem Steps.refl (c : Core) : Steps env inp p c c := Relation.ReflTransGen.refl

theorem Steps.trans (h : Steps env inp p c c') (h' : Steps env inp p c' c'') : Steps env inp p c c'' :=
  Relation.ReflTransGen.trans h h'

theorem Steps.mono (hpq : ∀ a, p a → q a) (h : Steps env inp p c c') : Steps env inp q c c' :=
  Relation.ReflTransGen.mono (fun _ _ ⟨a, ha, hs⟩ => ⟨a, hpq a ha, hs⟩) _ _ h

end
end X86Sim.Ooo
