import X86Sim.Ooo.Recovery

/-!
# Dispatch, completion, transfer and writeback (`ooopipe.cpp`)
-/

namespace X86Sim.Ooo
namespace Core

variable (c : Core)

/-! ### Dispatch -/

/-- `find_nearest_memory_fence`: the youngest fence before the load or store of entry
`i` that has not completed and orders it. -/
def findNearestMemoryFence (i : ℕ) : Option ℕ :=
  match c.ls.lsq i with
  | none => none
  | some j =>
    let op := (c.uop i).op.opcode
    (c.ls.ring.backwardBefore LSQ_SIZE j).find? fun k =>
      let e := c.ls.entry k
      (e.lfence || e.sfence) && !e.addrvalid &&
        (if isload op then e.lfence
         else if op = .opSt ∨ op = .opStA16 then e.sfence else false)

/-- The first step of `find_sources`: a load or store gets the fence as its `rs` operand.
The register it held there keeps its reference. -/
def addFenceOperand (i : ℕ) : Core :=
  let op := (c.uop i).op.opcode
  if isload op || isstore op then
    match c.findNearestMemoryFence i with
    | none => c
    | some k =>
      let p := c.regs.physreg (c.ls.entry k).rob
      { c with regs := { c.regs with
          operands := Function.update c.regs.operands i
            (Function.update (c.regs.operands i) RS p) }.addref p }
  else c

/-- The tags `find_sources` inserts: a store's value may come later. -/
def sourceTags (i : ℕ) (o : Operand) : Option ℕ :=
  if isstore (c.uop i).op.opcode && !c.ls.secondPhase i && o == RC then none
  else c.operandTag i o

/-- `find_sources`: whether some operand is still needed, and the core. -/
def findSources (i : ℕ) (cl : Cluster) : Bool × Core :=
  let c := c.addFenceOperand i
  let needed := (c.operandTag i RA).isSome || (c.operandTag i RB).isSome ||
    (c.operandTag i RC).isSome || (c.operandTag i RS).isSome
  (needed, { c with sched := c.sched.insertIq i cl (c.sourceTags i) })

/-- `find_random_set_bit`: the table lists the set indices round and round. -/
def findRandomSetBit (allowed : List Cluster) (randsource : ℕ) : Option Cluster :=
  allowed[randsource % 8 % allowed.length]?

/-- `cluster_operand_tally`. -/
def clusterOperandTally (i : ℕ) (cl : Cluster) : ℕ :=
  (List.finRange 4).countP fun o =>
    let p := c.regs.operands i o
    (c.regs.state p = some .waiting ∨ c.regs.state p = some .bypass) &&
      (match c.regs.rob p with
       | none => false
       | some j => c.sched.cluster j == some cl)

/-- `select_cluster`: among the clusters that can execute the uop and have a free slot,
the one most operands come from. -/
def selectCluster (i : ℕ) : Option Cluster :=
  let allowed := (List.finRange 4).filter fun cl =>
    executableOn (c.uop i).op.opcode cl && IssueQueue.remaining (c.sched.queue cl)
  match findRandomSetBit allowed c.mach.simCycle with
  | none => none
  | some cl =>
    some (allowed.foldl
      (fun (best : ℕ × Cluster) cl =>
        if c.clusterOperandTally i cl > best.1 then (c.clusterOperandTally i cl, cl) else best)
      (0, cl)).2

/-- One entry of the dispatch loop; nothing when no cluster takes it. -/
def dispatchEntry (i : ℕ) : Option Core :=
  match c.selectCluster i with
  | none => none
  | some cl =>
    let c := { c with sched := { c.sched with cluster := Function.update c.sched.cluster i (some cl) } }
    let r := c.findSources i cl
    some (r.2.changestate i (if r.1 then .dispatched cl else c.readyToIssueList i cl))

/-- The dispatch loop with the number of entries dispatched. An entry that finds no
cluster ends it. -/
def dispatchLoop : List ℕ → ℕ → Core → ℕ × Core
  | [], count, c => (count, c)
  | i :: rest, count, c =>
    if count ≥ DISPATCH_WIDTH then (count, c)
    else
      match c.dispatchEntry i with
      | none => (count, { c with sched := { c.sched with
          cluster := Function.update c.sched.cluster i none } })
      | some c => dispatchLoop rest (count + 1) c

/-- Outstanding cache misses or a head that can commit put the deadlock recovery off. -/
def progressPending : Bool :=
  c.sched.lists.count .cacheMiss != 0 ||
    (c.sched.lists.count .readyToCommit != 0 && c.ring.count != 0 &&
      c.sched.lists.current c.ring.head == some .readyToCommit)

def setCountdown (n : ℕ) : Core := { c with mach := { c.mach with dispatchDeadlockCountdown := n } }

/-- The end of `dispatch`: the deadlock countdown. False stands for the result -1. -/
def deadlockCountdown (count : ℕ) : Bool × Core :=
  if count ≠ 0 then (true, c.setCountdown DISPATCH_DEADLOCK_COUNTDOWN_CYCLES)
  else if (c.sched.lists.members .readyToDispatch).isEmpty then (true, c)
  else
    let n := c.mach.dispatchDeadlockCountdown - 1
    if n ≠ 0 then (true, c.setCountdown n)
    else if c.progressPending then (true, c.setCountdown DISPATCH_DEADLOCK_COUNTDOWN_CYCLES)
    else
      (false, (c.setCountdown n).redispatchDeadlockRecovery.setCountdown
        DISPATCH_DEADLOCK_COUNTDOWN_CYCLES)

/-- `dispatch`. -/
def dispatchStage : Bool × Core :=
  let r := dispatchLoop (c.sched.lists.members .readyToDispatch) 0 c
  r.2.deadlockCountdown r.1

/-! ### Complete, transfer, writeback -/

/-- One issued entry. -/
def completeEntry (cl : Cluster) (i : ℕ) : Core :=
  let left := c.sched.cyclesLeft i - 1
  let c := { c with sched := { c.sched with cyclesLeft := Function.update c.sched.cyclesLeft i left } }
  if left ≤ 0 then
    { c with
      sched := { c.sched.changestate i (.completed cl) with
        forwardCycle := Function.update c.sched.forwardCycle i 0 }
      regs := c.regs.changestate (c.regs.physreg i) .bypass }
  else c

/-- `complete`. -/
def completeStage (cl : Cluster) : Core :=
  (c.sched.lists.members (.issued cl)).foldl (fun c i => c.completeEntry cl i) c

/-- One completed entry. `forward` and the next list go by the entry's own cluster. -/
def transferEntry (i : ℕ) : Core :=
  match c.sched.cluster i with
  | none => c
  | some cl =>
    let s := c.sched.forward i cl
    let fc := s.forwardCycle i + 1
    let s :=
      if fc > MAX_FORWARDING_LATENCY then
        { s.changestate i (.readyToWriteback cl) with
          forwardCycle := Function.update s.forwardCycle i MAX_FORWARDING_LATENCY }
      else { s with forwardCycle := Function.update s.forwardCycle i fc }
    { c with sched := s }

/-- `transfer`. -/
def transferStage (cl : Cluster) : Core :=
  (c.sched.lists.members (.completed cl)).foldl transferEntry c

/-- One entry written back. -/
def writebackEntry (i : ℕ) : Core :=
  match c.sched.cluster i with
  | none => c
  | some cl =>
    let s := c.sched.forward i cl
    { c with
      sched := { s with cyclesLeft := Function.update s.cyclesLeft i (-1) }.changestate i .readyToCommit
      regs := c.regs.changestate (c.regs.physreg i) .written }

/-- `writeback`, from `writecount` entries in this cycle on. -/
def writebackStage (cl : Cluster) (writecount : ℕ) : ℕ × Core :=
  let todo := (c.sched.lists.members (.readyToWriteback cl)).take (WRITEBACK_WIDTH - writecount)
  (writecount + todo.length, todo.foldl writebackEntry c)

end Core
end X86Sim.Ooo
