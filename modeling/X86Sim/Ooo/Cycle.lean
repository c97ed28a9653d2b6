import X86Sim.Ooo.Commit
import X86Sim.Ooo.Decoded

/-!
# The cycle and the run loop (`ooocore.cpp`)

`runcycle` as a sequence of stages, and `OutOfOrderMachine::run` around it.
`Reachable` are the states between the cycles of any number of runs, `AtStage` those
at the end of a stage.
-/

namespace X86Sim.Ooo

/-- What the core is built from and does not change: the decoder, the uop
implementations and the assists. The decoder gives whole instructions, and an assist
may drop decoded blocks but adds none. -/
structure Env where
  dec : Decoder
  exec : Synthop
  assist : Assist
  dec_wf : ∀ rvp w, (dec.decode rvp w).WF
  assist_shrunk : ∀ rip ctx m (bbcache : BasicBlockCache),
    bbcache.Shrunk (assist rip ctx m bbcache).bbcache

/-- `runcycle` in progress: the core and the function's locals. -/
structure CycleState where
  core : Core
  commitrc : CommitResult
  writecount : ℕ
  dispatchOk : Bool
  exiting : Bool
  threw : Option X86Exception

/-- The steps of `runcycle`. -/
inductive Stage
  | clock | commit | writeback (cl : Cluster) | transfer (cl : Cluster) | clockQueues
  | issue (cl : Cluster) | dispatch | complete (cl : Cluster) | frontend | rename | fetch
  | respond

/-- The order of the steps. -/
def cycleStages : List Stage :=
  [.clock, .commit, .writeback 0, .writeback 1, .writeback 2, .writeback 3,
    .transfer 0, .transfer 1, .transfer 2, .transfer 3, .clockQueues,
    .issue 0, .issue 1, .issue 2, .issue 3, .dispatch,
    .complete 0, .complete 1, .complete 2, .complete 3, .frontend, .rename, .fetch, .respond]

/-- The `switch` of `handle_exception` on internal exceptions: an exception that is not
listed leaves the vector as it is. -/
def x86Vector (exception vector : ℕ) : ℕ :=
  if exception = InternalException.pageFaultOnRead.code ∨
      exception = InternalException.pageFaultOnWrite.code ∨
      exception = InternalException.pageFaultOnExec.code then 14
  else if exception = InternalException.floatingPointNotAvailable.code then 7
  else if exception = InternalException.floatingPoint.code then 16
  else if exception = InternalException.divideOverflow.code then 0
  else if exception = InternalException.invalidAddr.code then 13
  else vector

namespace Core

variable (c : Core)

/-- The counters of a cycle start over. -/
def startCycle : Core :=
  { c with
    ls := { c.ls with loadsInThisCycle := [] }
    mach := { c.mach with fuAvail := 0xff } }

def wakeIcache (inp : CycleInput) : Core :=
  if inp.icacheWakeup then { c with fetch := { c.fetch with waitingForIcacheFill := false } } else c

/-- The start of a cycle: the counters, and what the caches deliver. -/
def clockStage (inp : CycleInput) : Core :=
  (inp.dcacheWakeups.foldl dcacheWakeup c.startCycle).wakeIcache inp

def setRip (rip : W64) : Core :=
  { c with ctx := { c.ctx with commitarf := Function.update c.ctx.commitarf Reg.rip rip } }

/-- `handle_exception`: the exception it throws, if it does not resume. -/
def handleException : Option X86Exception × Core :=
  let c := c.flushPipeline
  if c.ctx.exception = InternalException.skipBlock.code then
    (none, (c.setRip c.mach.chkRecoveryRip).flushPipeline)
  else
    let ctx := { c.ctx with x86Exception := x86Vector c.ctx.exception c.ctx.x86Exception }
    (some (ctx.propagate ctx.x86Exception ctx.errorCode ctx.cr2), { c with ctx := ctx })

/-- The assist a barrier has set `commitarf[REG_rip]` to, and the core after it. -/
def callAssist (assist : Assist) : AssistResult :=
  assist (c.ctx.commitarf Reg.rip) c.ctx c.mach.space c.mach.bbcache

def afterAssist (assist : Assist) : Core :=
  let r := c.callAssist assist
  { c with ctx := r.ctx, mach := { c.mach with space := r.space, bbcache := r.bbcache } }

/-- `handle_barrier`: the exception the assist threw, and whether to leave the core. -/
def handleBarrier (assist : Assist) : Option X86Exception × Bool × Core :=
  let c := c.flushPipeline
  let r := c.callAssist assist
  let c := c.afterAssist assist
  match r.threw with
  | some e => (some e, false, c)
  | none => (none, r.switchToNative, c.flushPipeline)

end Core

namespace CycleState

variable (env : Env) (inp : CycleInput) (s : CycleState)

def init (c : Core) : CycleState := ⟨c, .ok, 0, true, false, none⟩

/-- The response to the commit result, at the end of the cycle. -/
def respond : CycleState :=
  let s := match s.commitrc with
    | .none | .ok => s
    | .smc => { s with core := s.core.flushPipeline.invalidateSmc }
    | .exception =>
      let r := s.core.handleException
      { s with core := r.2, threw := r.1 }
    | .barrier =>
      let r := s.core.handleBarrier env.assist
      { s with core := r.2.2, threw := r.1, exiting := r.2.1 }
    | .stop =>
      let c := s.core.flushPipeline
      { s with core := { c with
          fetch := { c.fetch with stallFrontend := true }
          mach := { c.mach with stopped := true } } }
  -- 4096 cycles without a commit end the run
  if s.threw.isSome then s
  else { s with exiting :=
    s.exiting || s.core.mach.simCycle - s.core.mach.lastCommitAtCycle > 4096 }

/-- One step of `runcycle`. After a deadlock recovery the frontend steps are left out. -/
def step : Stage → CycleState
  | .clock => { s with core := s.core.clockStage inp }
  | .commit =>
    let r := s.core.commitStage
    { s with core := r.2, commitrc := r.1, writecount := 0 }
  | .writeback cl =>
    let r := s.core.writebackStage cl s.writecount
    { s with core := r.2, writecount := r.1 }
  | .transfer cl => { s with core := s.core.transferStage cl }
  | .clockQueues => { s with core := { s.core with sched := s.core.sched.clockQueues } }
  | .issue cl => { s with core := s.core.issueStage env.exec inp cl }
  | .dispatch =>
    let r := s.core.dispatchStage
    { s with core := r.2, dispatchOk := r.1 }
  | .complete cl => { s with core := s.core.completeStage cl }
  | .frontend => if s.dispatchOk then { s with core := s.core.frontendStage } else s
  | .rename => if s.dispatchOk then { s with core := s.core.renameStage } else s
  | .fetch => if s.dispatchOk then { s with core := s.core.fetchStage env.dec inp } else s
  | .respond => s.respond env

/-- The state after the given steps. -/
def run (stages : List Stage) : CycleState := stages.foldl (fun s st => s.step env inp st) s

end CycleState

/-- `runcycle`. -/
def Core.runcycle (env : Env) (inp : CycleInput) (c : Core) : CycleState :=
  (CycleState.init c).run env inp cycleStages

/-! ### Runs -/

/-- A machine in or between runs: the core and the locals of `run`. `done` is whether
`run` has left its loop; `abortAtEnd` and `stopAtIteration` are configured. -/
structure RunState where
  core : Core
  iterations : ℕ
  stopping : Bool
  exiting : Bool
  threw : Option X86Exception
  done : Bool
  abortAtEnd : Bool
  stopAtIteration : ℕ

namespace Core

/-- The core as it is constructed: every register free, the queues empty. -/
def construct (ctx : Context) (mach : Machine) : Core where
  ring := CircQueue.empty
  uop _ := ⟨TransOp.init .opNop 0 0 0 0 0 0 0 .none, RIPVirtPhys.update 0 false false, 0, false, []⟩
  sched :=
    { lists := StateLists.empty
      entryValid := fun _ => false
      cluster := fun _ => none
      iqslot := fun _ => none
      issued := fun _ => false
      cyclesLeft := fun _ => 0
      forwardCycle := fun _ => 0
      queue := fun _ => []
      issueqCount := 0 }
  regs :=
    { lists := fun f => StateLists.empty.fill .free (FileId.size f)
      refcount := fun _ => 0
      rob := fun _ => none
      specrrt := fun _ => PhysReg.null
      commitrrt := fun _ => PhysReg.null
      physreg := fun _ => PhysReg.null
      operands := fun _ _ => PhysReg.null }
  vals := ⟨fun _ => 0, fun _ => 0⟩
  ls :=
    { ring := CircQueue.empty
      entry := fun _ => LsqEntry.zero
      lsq := fun _ => none
      secondPhase := fun _ => false
      origvirt := fun _ => 0
      lfrq := fun _ => false
      loadsInFlight := 0
      storesInFlight := 0
      loadsInThisCycle := [] }
  fetch :=
    { fetchrip := RIPVirtPhys.update 0 false false
      currentBasicBlock := none
      transopIndex := 0
      stallFrontend := false
      waitingForIcacheFill := false
      currentIcacheBlock := 0
      fetchUuid := 0
      fetchq := []
      unalignedLdstBuf := []
      unalignedPredictor := fun _ => false
      decodedFrom := fun _ => [] }
  ctx := ctx
  mach := mach

/-- `OutOfOrderCore::reset` with `ThreadContext::reset`. -/
def reset (c : Core) : Core :=
  { c with
    sched := { c.sched with queue := fun _ => [], issueqCount := 0 }
    regs := { c.regs with specrrt := fun _ => PhysReg.null, commitrrt := fun _ => PhysReg.null }
    ls := { c.ls with lfrq := fun _ => false, loadsInFlight := 0, storesInFlight := 0 }
    fetch := { c.fetch with
      currentBasicBlock := none
      stallFrontend := false
      waitingForIcacheFill := false
      currentIcacheBlock := 0
      fetchUuid := 0
      unalignedLdstBuf := []
      unalignedPredictor := fun _ => false }
    mach := { c.mach with
      stopAtNextEom := false
      lastCommitAtCycle := 0
      smcInvalidatePending := false
      chkRecoveryRip := 0
      dispatchDeadlockCountdown := 0 } }

end Core

namespace RunState

variable (s : RunState)

/-- `OutOfOrderMachine::run` up to its loop, for the context loaded from the caller's
state, the address space bound and the blocks the host has left in the cache. -/
def start (ctx : Context) (space : AddressSpace) (bbcache : BasicBlockCache)
    (stopAtUserInsns : ℕ) : RunState :=
  let c := { s.core with
    ctx := ctx
    mach := { s.core.mach with
      space := space, bbcache := bbcache, stopped := false, stopAtUserInsns := stopAtUserInsns } }
  { s with
    core := c.reset.flushPipeline
    stopping := false
    exiting := false
    threw := none
    done := false }

/-- One turn of the loop of `run`. -/
def iterate (env : Env) (inp : CycleInput) : RunState :=
  let r := s.core.runcycle env inp
  if r.threw.isSome then { s with core := r.core, threw := r.threw, done := true }
  else
    let c := r.core
    -- the limit is noticed once, and the commit stage stops at the end of an instruction
    let trigger := (s.iterations ≥ s.stopAtIteration ||
      c.mach.totalUserInsnsCommitted ≥ c.mach.stopAtUserInsns) && !s.stopping
    let abort := trigger && s.abortAtEnd
    let stopping := s.stopping || trigger
    let stopped := c.mach.stopped || abort
    { s with
      core := { c with mach := { c.mach with
        stopAtNextEom := c.mach.stopAtNextEom || trigger
        stopped := stopped
        simCycle := c.mach.simCycle + 1 } }
      iterations := s.iterations + 1
      stopping := stopping
      exiting := s.exiting || r.exiting || abort || (stopping && stopped)
      abortAtEnd := s.abortAtEnd && !trigger }

/-- The end of `run`: `flush_all_pipelines`. -/
def finish : RunState := { s with core := s.core.flushPipeline.invalidateSmc, done := true }

end RunState

/-- The states of a machine after its construction, over any number of runs with any
contexts and address spaces, and any input of every cycle that satisfies `ok`. -/
inductive Reachable (env : Env) (ok : RunState → CycleInput → Prop) : RunState → Prop
  | construct (ctx : Context) (mach : Machine) (abortAtEnd : Bool) (stopAtIteration : ℕ)
      (hcache : mach.bbcache = BasicBlockCache.init) :
      Reachable env ok
        ⟨Core.construct ctx mach, 0, false, false, none, true, abortAtEnd, stopAtIteration⟩
  | start {s : RunState} (ctx : Context) (space : AddressSpace) (bbcache : BasicBlockCache)
      (stopAtUserInsns : ℕ) (hs : Reachable env ok s) (hdone : s.done = true)
      (hcache : s.core.mach.bbcache.Shrunk bbcache) :
      Reachable env ok (s.start ctx space bbcache stopAtUserInsns)
  | iterate {s : RunState} (inp : CycleInput) (hs : Reachable env ok s)
      (hdone : s.done = false) (hgo : s.exiting = false) (hok : ok s inp) :
      Reachable env ok (s.iterate env inp)
  | finish {s : RunState} (hs : Reachable env ok s) (hdone : s.done = false)
      (hexit : s.exiting = true) : Reachable env ok s.finish

/-- Every input of every cycle. -/
def anyInput (_ : RunState) (_ : CycleInput) : Prop := True

/-- The core after `k` stages of a cycle of some run. -/
def AtStage (env : Env) (ok : RunState → CycleInput → Prop) (c : Core) : Prop :=
  ∃ s inp k, Reachable env ok s ∧ s.done = false ∧ s.exiting = false ∧ ok s inp ∧
    c = ((CycleState.init s.core).run env inp (cycleStages.take k)).core

end X86Sim.Ooo
