import X86Sim.Ooo.Memory

/-!
# Issue (`ReorderBufferEntry::issue`, `OutOfOrderCore::issue`)
-/

namespace X86Sim.Ooo

namespace Core

variable (c : Core)

/-- `lsbindex` of the functional units that can take the uop in this cycle. -/
def pickFu (op : Opcode) (cl : Cluster) : Option ℕ :=
  (List.range 8).find? fun fu => (op.fu &&& cl.fuMask &&& c.mach.fuAvail).testBit fu

/-- The operand values: `rb` and `rc` may be immediates. -/
def radata (i : ℕ) : W64 := c.vals.data (c.regs.operands i RA)
def rbdata (i : ℕ) : W64 :=
  if (c.uop i).op.rb = Reg.imm then (c.uop i).op.rbimm else c.vals.data (c.regs.operands i RB)
def rcdata (i : ℕ) : W64 :=
  if (c.uop i).op.rc = Reg.imm then (c.uop i).op.rcimm else c.vals.data (c.regs.operands i RC)

/-- Some operand carries an exception. -/
def operandInvalid (i : ℕ) : Bool :=
  !(c.vals.valid (c.regs.operands i RA) && c.vals.valid (c.regs.operands i RB) &&
    c.vals.valid (c.regs.operands i RC))

/-- The result register of a load or store from its queue entry. -/
def sfrResult (e : LsqEntry) : UopResult where
  rddata := e.data
  rdflags := (if e.invalid then FLAG_INV else 0) ||| (if e.datavalid then 0 else FLAG_WAIT)

/-- The uop starts on functional unit `fu`. -/
def startIssue (i : ℕ) (cl : Cluster) (fu : ℕ) : Core :=
  { c with
    mach := { c.mach with fuAvail := c.mach.fuAvail ^^^ 2 ^ fu }
    sched := { c.sched.changestate i (.issued cl) with
      cyclesLeft := Function.update c.sched.cyclesLeft i (c.uop i).op.opcode.latency } }

/-- The execution of the uop: its result, unless it goes back. -/
def executeUop (exec : Synthop) (inp : CycleInput) (i : ℕ) (cl : Cluster) :
    IssueResult × UopResult × Core :=
  let op := (c.uop i).op
  if c.operandInvalid i then
    (.completed, ⟨exceptionWord .propagate .none, FLAG_INV⟩, c)
  else if isload op.opcode || isstore op.opcode then
    match c.ls.lsq i with
    | none => (.completed, ⟨0, 0⟩, c)
    | some j =>
      let r :=
        if isload op.opcode then c.issueload inp i j cl (c.radata i) (c.rbdata i)
        else if op.opcode = .opMf then c.issuefence i j
        else c.issuestore inp i j cl (c.radata i) (c.rbdata i) (c.rcdata i)
          (c.vals.ready (c.regs.operands i RC))
      (r.1, sfrResult (r.2.ls.entry j), r.2)
  else if op.opcode = .opLdPre then (.completed, ⟨0, 0⟩, c)
  else
    let inputs : UopInputs := ⟨c.radata i, c.rbdata i, c.rcdata i, c.vals.flags (c.regs.operands i RA),
      c.vals.flags (c.regs.operands i RB), c.vals.flags (c.regs.operands i RC), op.riptaken,
      op.ripseq⟩
    (.completed, exec op inputs, c)

/-- An entry goes straight to commit. -/
def toCommit (i : ℕ) : Core :=
  { c with sched := { c.sched.changestate i .readyToCommit with
      cyclesLeft := Function.update c.sched.cyclesLeft i 0 } }

/-- An exception goes straight to commit, and so does a fence. -/
def commitAtOnce (i : ℕ) (r : UopResult) : Core :=
  let c := if r.rdflags &&& FLAG_INV ≠ 0 then c.toCommit i else c
  if (c.uop i).op.opcode = .opMf then c.toCommit i else c

/-- The issue queue slot is given up. -/
def releaseSlot (i : ℕ) (cl : Cluster) : Core :=
  let s := c.sched.release i cl
  { c with sched := { s with issued := Function.update s.issued i true } }

/-- After a uop executed: its result is written, and the entry leaves its queue. -/
def finishIssue (i : ℕ) (cl : Cluster) (r : UopResult) : Core :=
  let c := { c with vals := c.vals.set (c.regs.physreg i) r.rddata r.rdflags }
  (c.commitAtOnce i r).releaseSlot i cl

/-- A branch uop corrected to the direction it took. -/
def correctBranch (op : TransOp) (realrip : W64) : TransOp :=
  if isclass op.opcode opclassCondBranch then
    { op with cond := invertCond op.cond, riptaken := op.ripseq, ripseq := op.riptaken }
  else if isclass op.opcode opclassIndirBranch then { op with riptaken := realrip, ripseq := realrip }
  else op

/-- Entry `i` corrected. -/
def correctUop (i : ℕ) (realrip : W64) : Core :=
  let uop := c.uop i
  { c with uop := Function.update c.uop i { uop with op := correctBranch uop.op realrip } }

/-- The recovery from a mispredicted branch: everything after it is annulled. -/
def mispredict (inp : CycleInput) (i : ℕ) (realrip : W64) : Core :=
  ((c.correctUop i realrip).annul inp.rc i true).2.resetFetchUnit realrip

/-- `ReorderBufferEntry::issue`. -/
def issueEntry (exec : Synthop) (inp : CycleInput) (i : ℕ) (cl : Cluster) : IssueResult × Core :=
  match c.pickFu (c.uop i).op.opcode cl with
  | none =>
    (.needsReplay, { c with sched := c.sched.onQueue cl (·.replay ((c.sched.iqslot i).getD 0)) })
  | some fu =>
    let r := (c.startIssue i cl fu).executeUop exec inp i cl
    match r.1 with
    | .misspeculated => (.misspeculated, r.2.2)
    | .needsReplay => (.needsReplay, r.2.2)
    | .completed =>
      let op := (r.2.2.uop i).op
      let c := r.2.2.finishIssue i cl r.2.1
      if r.2.1.rdflags &&& FLAG_INV = 0 ∧ isbranch op.opcode ∧ r.2.1.rddata ≠ op.riptaken then
        (.misspeculated, c.mispredict inp i r.2.1.rddata)
      else (.completed, c)

/-- Slot `slot` is picked from queue `cl`, which is `q` after that. -/
def takeSlot (cl : Cluster) (slot : ℕ) (q : IssueQueue) : Core :=
  { c with sched := { c.sched with
      queue := Function.update c.sched.queue cl q
      iqslot := Function.update c.sched.iqslot (IssueQueue.uopof q slot) (some slot) } }

/-- One turn of the issue loop of a cluster: the lowest ready slot. The cluster stops
for this cycle once a uop replays or is misspeculated. -/
def issueTurn (exec : Synthop) (inp : CycleInput) (cl : Cluster) : Bool × Core :=
  match IssueQueue.issue (c.sched.queue cl) with
  | none => (false, c)
  | some (slot, q) =>
    let r := (c.takeSlot cl slot q).issueEntry exec inp (IssueQueue.uopof q slot) cl
    (r.1 == .completed, r.2)

/-- The turns left. -/
def issueLoop (exec : Synthop) (inp : CycleInput) (cl : Cluster) : ℕ → Core → Core
  | 0, c => c
  | n + 1, c =>
    match c.issueTurn exec inp cl with
    | (false, c) => c
    | (true, c) => issueLoop exec inp cl n c

/-- `OutOfOrderCore::issue`. -/
def issueStage (exec : Synthop) (inp : CycleInput) (cl : Cluster) : Core :=
  issueLoop exec inp cl issueWidth c

end Core
end X86Sim.Ooo
