import X86Sim.Ooo.State

/-!
# Issue queues and the state of a reorder buffer entry

The issue queue operations (`IssueQueue` in `ooocore.h` and `oooexec.cpp`) and the
operations of a reorder buffer entry on its own state, its list and its slot.
-/

namespace X86Sim.Ooo

namespace IssueQueue

variable (q : IssueQueue)

/-- A slot is ready when it has not issued and waits for no operand. -/
def slotReady (s : IssueSlot) : Bool :=
  !s.issued && (s.tags 0).isNone && (s.tags 1).isNone && (s.tags 2).isNone && (s.tags 3).isNone

def clock : IssueQueue := q.map fun s => { s with allready := slotReady s }

/-- `insert`; the source refuses when the queue is full. `tags` has an entry for
each operand that is not ready yet. -/
def insert (uopid : ℕ) (tags : Operand → Option ℕ) : IssueQueue :=
  if q.length = ISSUE_QUEUE_SIZE then q else q ++ [⟨uopid, tags, false, false⟩]

def broadcast (uopid : ℕ) : IssueQueue :=
  q.map fun s => { s with tags := fun o => if s.tags o = some uopid then none else s.tags o }

/-- `issue`: the lowest slot marked ready, and the queue with it marked issued. -/
def issue : Option (ℕ × IssueQueue) :=
  (q.findIdx? (·.allready)).map fun slot => (slot, q.modify slot fun s => { s with issued := true })

def uopof (slot : ℕ) : ℕ := (q[slot]?.map (·.uopid)).getD 0

def slotof (uopid : ℕ) : Option ℕ := q.findIdx? (·.uopid == uopid)

/-- `remove`, also `release` and `annul`: the slots above move down. -/
def remove (slot : ℕ) : IssueQueue := q.eraseIdx slot

/-- `replay(slot)`. -/
def replay (slot : ℕ) : IssueQueue := q.modify slot fun s => { s with issued := false }

/-- `replay(slot, operands, preready)`. -/
def replayWith (slot : ℕ) (tags : Operand → Option ℕ) : IssueQueue :=
  q.modify slot fun s => { s with issued := false, tags := tags }

/-- `remaining` is a `bool`: the queue has a free slot. -/
def remaining : Bool := q.length < ISSUE_QUEUE_SIZE

end IssueQueue

namespace Sched

variable (s : Sched)

def changestate (i : ℕ) (st : RobState) : Sched := { s with lists := s.lists.changestate i st }

/-- `issueq_operation_on_cluster`. -/
def onQueue (cl : Cluster) (f : IssueQueue → IssueQueue) : Sched :=
  { s with queue := Function.update s.queue cl (f (s.queue cl)) }

/-- `foreach_issueq(clock())`. -/
def clockQueues : Sched := { s with queue := fun cl => (s.queue cl).clock }

/-- `ReorderBufferEntry::reset`, the fields of this record. -/
def resetEntry (i : ℕ) : Sched :=
  { s with
    entryValid := Function.update s.entryValid i false
    cyclesLeft := Function.update s.cyclesLeft i 0
    cluster := Function.update s.cluster i none
    issued := Function.update s.issued i false }

/-- What `rename` does to the entry it allocates. -/
def renameEntry (i : ℕ) : Sched :=
  let s := s.resetEntry i
  { s with
    entryValid := Function.update s.entryValid i true
    cyclesLeft := Function.update s.cyclesLeft i FRONTEND_STAGES
    lists := s.lists.changestate i .frontend }

/-- `annuluop` on the queue of cluster `cl`: whether the tag was found, and the queues after. -/
def annuluop (cl : Cluster) (i : ℕ) : Bool × Sched :=
  match (s.queue cl).slotof i with
  | none => (false, s)
  | some slot => (true, s.onQueue cl (·.remove slot))

/-- `issueq_operation_on_cluster_with_result(core, annulrob.cluster, rc, annuluop(..))`,
then the count. An entry without a cluster runs no queue's operation, so the test
reads `rc` as it was declared: uninitialised. -/
def annulIqSlot (rc : Bool) (i : ℕ) : Sched :=
  let r := match s.cluster i with
    | none => (rc, s)
    | some cl => s.annuluop cl i
  let s := if r.1 then { r.2 with issueqCount := r.2.issueqCount - 1 } else r.2
  { s with iqslot := Function.update s.iqslot i none }

/-- The same removal as `redispatch` does it: only for an entry with a cluster. -/
def redispatchIqSlot (i : ℕ) : Sched :=
  match s.cluster i with
  | none => s
  | some cl =>
    let r := s.annuluop cl i
    let s := if r.1 then { r.2 with issueqCount := r.2.issueqCount - 1 } else r.2
    { s with cluster := Function.update s.cluster i none }

/-- What `redispatch` does to the entry; `prevrob` is the entry it goes after. -/
def redispatch (i : ℕ) (prevrob : Option ℕ) : Sched :=
  let s := { s with issued := Function.update s.issued i false }
  let s := s.redispatchIqSlot i
  { s with
    cyclesLeft := Function.update s.cyclesLeft i 0
    forwardCycle := Function.update s.forwardCycle i 0
    lists := s.lists.changestateAfter i .readyToDispatch prevrob }

/-- `release`: the slot is given up after a successful issue. -/
def release (i : ℕ) (cl : Cluster) : Sched :=
  let s := s.onQueue cl (·.remove ((s.iqslot i).getD 0))
  { s with
    issueqCount := s.issueqCount - 1
    iqslot := Function.update s.iqslot i none }

/-- The queue half of `find_sources`. -/
def insertIq (i : ℕ) (cl : Cluster) (tags : Operand → Option ℕ) : Sched :=
  let s := s.onQueue cl (·.insert i tags)
  { s with issueqCount := s.issueqCount + 1 }

/-- `forward`: broadcast to the clusters reached in this forwarding cycle. -/
def forward (i : ℕ) (cl : Cluster) : Sched :=
  { s with
    queue := fun dest =>
      if interclusterLatency cl dest = s.forwardCycle i then (s.queue dest).broadcast i
      else s.queue dest }

/-- The lists and queues after a flush: all entries free, all queues empty. -/
def reset : Sched where
  lists := StateLists.empty.fill .free ROB_SIZE
  entryValid _ := false
  cluster _ := none
  iqslot := s.iqslot
  issued _ := false
  cyclesLeft _ := 0
  forwardCycle := s.forwardCycle
  queue _ := []
  issueqCount := 0

end Sched
end X86Sim.Ooo
