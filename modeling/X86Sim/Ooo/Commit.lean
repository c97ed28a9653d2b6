import X86Sim.Ooo.Issue

/-!
# Commit (`ReorderBufferEntry::commit`, `ThreadContext::commit`)
-/

namespace X86Sim.Ooo

/-- `COMMIT_RESULT_*`; interrupts are never pending. -/
inductive CommitResult
  | none | ok | exception | barrier | smc | stop
  deriving DecidableEq

namespace Core

variable (c : Core)

/-- `ready_to_commit`. -/
def readyToCommit (i : ℕ) : Bool := c.sched.lists.current i == some .readyToCommit

/-- A uop of a unit the context does not have is made to fault. -/
def forceFpUnavailable (i : ℕ) : Core :=
  let op := (c.uop i).op
  if (op.isSse && c.ctx.noSse) || (op.isX87 && c.ctx.noX87) then
    { c with
      vals := c.vals.set (c.regs.physreg i) (exceptionWord .floatingPointNotAvailable .none) FLAG_INV
      ls := c.modifyLsq i fun e => { e with invalid := true } }
  else c

/-- The exception of entry `i` is noted in the context. -/
def noteException (i : ℕ) : Core :=
  let data := (c.vals.data (c.regs.physreg i)).toNat
  let exception := data % 2 ^ 32
  let pageFault := exception = InternalException.pageFaultOnRead.code ∨
    exception = InternalException.pageFaultOnWrite.code
  { c with ctx := { c.ctx with
      exception := exception
      errorCode := data / 2 ^ 32
      cr2 := if pageFault then c.ls.origvirt i else c.ctx.cr2 } }

/-- What the scan of a macro-op finds: all uops ready, the last one seen, an exception. -/
structure Scan where
  allReady : Bool
  foundEom : Bool
  hasExceptions : Bool
  core : Core

/-- The scan over the uops of the instruction at the head. It ends at the first
exception, which takes the place of readiness. -/
def scanMacroOp : List ℕ → Bool → Core → Scan
  | [], allReady, c => ⟨allReady, false, false, c⟩
  | j :: rest, allReady, c =>
    let allReady := allReady && c.readyToCommit j
    let c := c.forceFpUnavailable j
    if !c.vals.valid (c.regs.physreg j) then ⟨true, true, true, c.noteException j⟩
    else if (c.uop j).op.eom then ⟨allReady, true, false, c⟩
    else scanMacroOp rest allReady c

/-- `page_crossing` of an instruction, and the dirty test on its pages. -/
def insnCrosses (uop : FetchBufferEntry) : Bool :=
  (uop.rip.rip.toNat % kPageSize + (uop.op.bytes - 1)) / kPageSize != 0

def codeDirty (uop : FetchBufferEntry) : Bool :=
  c.mach.space.isdirty uop.rip.mfnlo || (insnCrosses uop && c.mach.space.isdirty uop.rip.mfnhi)

/-- The invalidation of the instruction's pages is queued. -/
def queueSmc (rvp : RIPVirtPhys) : Core :=
  { c with mach := { c.mach with smcInvalidatePending := true, smcInvalidateRvp := rvp } }

/-- `commitarf` after entry `i`: the destination, the next rip, the flags. -/
def commitArf (i : ℕ) : Reg → W64 :=
  let op := (c.uop i).op
  let data := c.vals.data (c.regs.physreg i)
  let flags := c.vals.flags (c.regs.physreg i)
  let arf := c.ctx.commitarf
  let arf := if archdestCanCommit op.rd ∧ op.rd.isArch then Function.update arf op.rd data else arf
  let arf :=
    if op.eom then
      Function.update arf Reg.rip
        (if op.rd = Reg.rip then data else arf Reg.rip + BitVec.ofNat 64 op.bytes)
    else arf
  if isload op.opcode || isstore op.opcode || op.nouserflags then arf
  else
    let mask : W64 := (setflagsToX86Flags op.setflags).setWidth 64
    Function.update arf Reg.flags ((arf Reg.flags &&& ~~~mask) ||| (flags.setWidth 64 &&& mask))

/-- `commitstore`. -/
def commitstore (e : LsqEntry) : Core :=
  if e.invalid || e.bytemask == 0 then c
  else
    match e.physaddr with
    | .guest n =>
      { c with mach := { c.mach with space := c.mach.space.storemask (8 * n) e.data e.bytemask } }
    | .host n =>
      { c with ctx := { c.ctx with
          hostBytes := fun a =>
            if 8 * n ≤ a ∧ a < 8 * n + 8 ∧ e.bytemask.getLsbD (a - 8 * n) then
              ByteMask.byteAt e.data (a - 8 * n)
            else c.ctx.hostBytes a } }
    | _ => c

/-- The memory side of a store's commit: its page is marked, then the bytes are written. -/
def commitMemory (i : ℕ) : Core :=
  let op := (c.uop i).op.opcode
  if op = .opSt ∨ op = .opStA16 then
    match c.ls.lsq i with
    | none => c
    | some j =>
      let e := c.ls.entry j
      { c with mach := { c.mach with space := c.mach.space.setdirty e.smcMfn } }.commitstore e
  else c

/-- The point of no return: entry `i` updates the architectural state and leaves the queues. -/
def retire (i : ℕ) : Core :=
  let uop := c.uop i
  let op := uop.op
  let arf := c.commitArf i
  let c := c.commitMemory i
  let c := { c with
    ctx := { c.ctx with commitarf := arf }
    ls := (c.ls.giveBack i op (c.ls.ring.commit LSQ_SIZE)).resetEntry i
    regs := c.regs.commitEntry i op
    sched := (c.sched.changestate i .free).resetEntry i
    ring := c.ring.commit ROB_SIZE
    mach := { c.mach with
      totalUserInsnsCommitted :=
        if op.eom then c.mach.totalUserInsnsCommitted + 1 else c.mach.totalUserInsnsCommitted } }
  if isload op.opcode || isstore op.opcode then c.setUnalignedHint uop.rip uop.ldStTrulyUnaligned
  else c

def setRecoveryRip (rip : W64) : Core := { c with mach := { c.mach with chkRecoveryRip := rip } }

/-- The result of a commit that went through. -/
def retireResult (op : TransOp) : CommitResult :=
  if c.mach.smcInvalidatePending then .smc
  else if isbarrier op.opcode then .barrier
  else if op.eom && (c.mach.stopAtNextEom || c.mach.totalUserInsnsCommitted ≥ c.mach.stopAtUserInsns)
  then .stop
  else .ok

/-- The fence at the head is woken the first time it is ready. -/
def wakeFence (i : ℕ) : Core :=
  if (c.uop i).op.opcode = .opMf ∧ c.readyToCommit i ∧ !c.ls.secondPhase i then c.fencewakeup i
  else c

/-- `ReorderBufferEntry::commit`. -/
def commitEntry (i : ℕ) : CommitResult × Core :=
  let c := c.wakeFence i
  let scan := scanMacroOp (c.ring.forwardFrom ROB_SIZE i) true c
  let c := scan.core
  let uop := c.uop i
  if !(scan.allReady && scan.foundEom) then (.none, c)
  -- nothing of the instruction is committed yet, so it can be fetched again
  else if uop.op.som && c.codeDirty uop then (.smc, c.queueSmc uop.rip)
  else if scan.hasExceptions then
    if isclass uop.op.opcode opclassCheck ∧ c.ctx.exception = InternalException.skipBlock.code then
      let rip := c.ctx.commitarf Reg.rip + BitVec.ofNat 64 uop.op.bytes
      (.exception, c.setRecoveryRip rip)
    else (.exception, c)
  else
    -- the code changed under an instruction that goes through: it is invalidated after it
    let c := if uop.op.eom && c.codeDirty uop then c.queueSmc uop.rip else c
    let c := c.retire i
    (c.retireResult uop.op, c)

/-- The commit loop over the entries left; `n` is what remains of the width. -/
def commitLoop : ℕ → List ℕ → Core → CommitResult × Core
  | 0, _, c => (.ok, c)
  | _, [], c => (.ok, c)
  | n + 1, i :: rest, c =>
    match c.commitEntry i with
    | (.ok, c) =>
      commitLoop n rest { c with mach := { c.mach with lastCommitAtCycle := c.mach.simCycle } }
    | r => r

/-- `ThreadContext::commit`. -/
def commitStage : CommitResult × Core :=
  let c := { c with regs := c.regs.recycle }
  commitLoop COMMIT_WIDTH c.order c

end Core
end X86Sim.Ooo
