import X86Sim.Ooo.Frontend

/-!
# Replay, redispatch, annulment and the pipeline flush (`oooexec.cpp`, `ooopipe.cpp`)

The four ways a uop goes back: `replay` keeps its issue queue slot, `redispatch`
returns it to dispatch, `annul` frees it and everything after it, and
`flush_pipeline` frees everything and reloads the registers from the context.
-/

namespace X86Sim.Ooo

namespace LoadStore

variable (ls : LoadStore)

def setEntry (j : ℕ) (e : LsqEntry) : LoadStore := { ls with entry := Function.update ls.entry j e }

/-- `annul`, pass 3, and the end of `commit`: the load/store queue entry of `i` is given
back, at the tail or at the head. -/
def giveBack (i : ℕ) (op : TransOp) (ring : CircQueue) : LoadStore :=
  match ls.lsq i with
  | none => ls
  | some j =>
    if isload op.opcode || isstore op.opcode then
      let ls :=
        if (ls.entry j).store then { ls with storesInFlight := ls.storesInFlight - 1 }
        else { ls with loadsInFlight := ls.loadsInFlight - 1 }
      { ls.setEntry j LsqEntry.zero with ring := ring }
    else ls

/-- `ReorderBufferEntry::reset`, the fields of this record. -/
def resetEntry (i : ℕ) : LoadStore :=
  { ls with
    lsq := Function.update ls.lsq i none
    secondPhase := Function.update ls.secondPhase i false
    lfrq := Function.update ls.lfrq i false }

/-- What `redispatch` does to the load/store queue entry of `i`. -/
def redispatch (i : ℕ) : LoadStore :=
  let ls := { ls with
    lfrq := Function.update ls.lfrq i false
    secondPhase := Function.update ls.secondPhase i false }
  match ls.lsq i with
  | none => ls
  | some j =>
    ls.setEntry j { ls.entry j with
      physaddr := .invalid
      addrvalid := false
      datavalid := false
      data := 0
      invalid := false }

/-- `LSQ.reset()` and the reorder buffer's links after a flush. -/
def reset : LoadStore :=
  { ls with
    ring := CircQueue.empty
    entry := fun _ => LsqEntry.zero
    lsq := fun _ => none
    secondPhase := fun _ => false
    lfrq := fun _ => false
    loadsInFlight := 0
    storesInFlight := 0 }

end LoadStore

namespace Core

variable (c : Core)

def changestate (i : ℕ) (st : RobState) : Core := { c with sched := c.sched.changestate i st }

/-- Operands `o` of entry `i` are waited for: the tag of the producer. -/
def operandTag (i : ℕ) (o : Operand) : Option ℕ :=
  let p := c.regs.operands i o
  if c.regs.state p = some .waiting then some ((c.regs.rob p).getD 0) else none

/-- `get_ready_to_issue_list`. -/
def readyToIssueList (i : ℕ) (cl : Cluster) : RobState :=
  let op := (c.uop i).op.opcode
  if isload op then .readyToLoad cl
  else if isstore op then .readyToStore cl
  else .readyToIssue cl

/-- The list an entry waits on in its queue: dispatched while some operand is missing. -/
def waitList (i : ℕ) (cl : Cluster) : RobState :=
  if (c.operandTag i RA).isSome || (c.operandTag i RB).isSome || (c.operandTag i RC).isSome ||
      (c.operandTag i RS).isSome
  then .dispatched cl else c.readyToIssueList i cl

/-- `replay`. -/
def replay (i : ℕ) (cl : Cluster) : Core :=
  let slot := (c.sched.iqslot i).getD 0
  { c with
    sched := (c.sched.changestate i (c.waitList i cl)).onQueue cl
      (·.replayWith slot (c.operandTag i)) }

/-- `replay`, then `load_store_second_phase = 1`. -/
def replaySecondPhase (i : ℕ) (cl : Cluster) : Core :=
  let c := c.replay i cl
  { c with ls := { c.ls with secondPhase := Function.update c.ls.secondPhase i true } }

/-! ### Redispatch -/

/-- `redispatch`. -/
def redispatch (i : ℕ) (prevrob : Option ℕ) : Core :=
  let p := c.regs.physreg i
  let regs :=
    if (c.ls.lsq i).isSome && (c.regs.operands i RS).nonnull then
      c.regs.setOperand i RS PhysReg.null
    else c.regs
  { c with
    sched := c.sched.redispatch i prevrob
    ls := c.ls.redispatch i
    regs := regs.changestate p .waiting
    vals := c.vals.set p 0 FLAG_WAIT }

/-- Some operand of `i` is produced by an entry of the slice. -/
def dependsOn (i : ℕ) (depmap : List ℕ) : Bool :=
  (List.finRange 4).any fun o =>
    match c.regs.rob (c.regs.operands i o) with
    | none => false
    | some j => j ∈ depmap

/-- The loop of `redispatch_dependents` from entry `this` on: the slice so far, the last
entry redispatched, and the core. -/
def redispatchLoop (this : ℕ) : List ℕ → List ℕ → Option ℕ → Core → Core
  | [], _, _, c => c
  | i :: rest, depmap, prevrob, c =>
    if c.dependsOn i depmap || i == this || isstore (c.uop this).op.opcode then
      redispatchLoop this rest (i :: depmap) (some i) (c.redispatch i prevrob)
    else redispatchLoop this rest depmap prevrob c

/-- `redispatch_dependents`. -/
def redispatchDependents (this : ℕ) : Core :=
  redispatchLoop this (c.ring.forwardFrom ROB_SIZE this) [this] none c

/-! ### Annulment -/

/-- The first index with `p` going down, or up, from `i`; the walk ends after one round. -/
def scanDown (p : ℕ → Bool) : ℕ → ℕ → ℕ
  | 0, i => i
  | n + 1, i => if p i then i else scanDown p n (CircQueue.prev ROB_SIZE i)

def scanUp (p : ℕ → Bool) : ℕ → ℕ → ℕ
  | 0, i => i
  | n + 1, i => if p i then i else scanUp p n (CircQueue.next ROB_SIZE i)

/-- Pass 0: the entry annulment starts at. -/
def annulStart (i : ℕ) (keepMisspecUop : Bool) : ℕ :=
  let somidx := scanDown (fun j => (c.uop j).op.som) ROB_SIZE i
  let eomidx := scanUp (fun j => (c.uop j).op.eom) ROB_SIZE i
  if keepMisspecUop then CircQueue.next ROB_SIZE eomidx else somidx

/-- Pass 3 for one entry. -/
def annulEntry (i : ℕ) : Core :=
  { c with
    regs := c.regs.annulEntry i
    ls := (c.ls.giveBack i (c.uop i).op (c.ls.ring.annul LSQ_SIZE)).resetEntry i
    sched := (c.sched.resetEntry i).changestate i .free
    ring := c.ring.annul ROB_SIZE }

/-- `annul`, passes 1 to 3, from entry `startidx` on. `rc` is what the flag of pass 1
holds when no operation sets it. -/
def annulFrom (rc : ℕ → Bool) (startidx : ℕ) : Core :=
  let doomed := (CircQueue.forward ROB_SIZE startidx c.ring.tail).reverse
  let kept := CircQueue.forward ROB_SIZE c.ring.head startidx
  let c := { c with sched := doomed.foldl (fun s i => s.annulIqSlot (rc i) i) c.sched }
  let regs := kept.foldl (fun r i => r.mapSpec (c.uop i).op (r.physreg i)) c.regs.restoreSpec
  doomed.foldl annulEntry { c with regs := regs }

/-- `annul`, with the rip `annul_after_and_including` returns. -/
def annul (rc : ℕ → Bool) (i : ℕ) (keepMisspecUop : Bool) : W64 × Core :=
  let startidx := c.annulStart i keepMisspecUop
  if startidx = c.ring.tail then ((c.uop i).rip.rip, c)
  else ((c.uop startidx).rip.rip, c.annulFrom rc startidx)

/-! ### Flush -/

/-- `flush_pipeline`. -/
def flushPipeline : Core :=
  let c := { c with regs := c.regs.flush c.order }
  let c := c.resetFetchUnit (c.ctx.commitarf Reg.rip)
  let regs := c.regs.externalToCoreState
  { c with
    ring := CircQueue.empty
    sched := c.sched.reset
    ls := c.ls.reset
    regs := regs
    vals := c.vals.load regs c.ctx.commitarf
    mach := { c.mach with
      dispatchDeadlockCountdown := DISPATCH_DEADLOCK_COUNTDOWN_CYCLES
      lastCommitAtCycle := c.mach.simCycle } }

/-- `redispatch_deadlock_recovery`. -/
def redispatchDeadlockRecovery : Core :=
  let previous := c.mach.lastCommitAtCycle
  let c := c.flushPipeline
  { c with mach := { c.mach with lastCommitAtCycle := previous } }

/-- `invalidate_smc`. -/
def invalidateSmc : Core :=
  if c.mach.smcInvalidatePending then
    let rvp := c.mach.smcInvalidateRvp
    let r := c.mach.bbcache.invalidatePage c.mach.space rvp.mfnlo
    let r := if rvp.mfnlo ≠ rvp.mfnhi then r.2.2.invalidatePage r.2.1 rvp.mfnhi else r
    { c with mach := { c.mach with
        space := r.2.1
        bbcache := r.2.2
        smcInvalidatePending := false } }
  else c

end Core
end X86Sim.Ooo
