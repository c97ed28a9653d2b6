import X86Sim.Seq.Issue

/-!
# The sequential core: blocks and runs (`seqcore.cpp`)

`execute` interprets one basic block uop by uop: each turn checks for modified code,
issues the uop and commits it at once. Around it stand the exception and barrier
handlers and the run loop.
-/

namespace X86Sim

/-- `RIPVirtPhys::update` for a span of `bytes` bytes. -/
def RIPVirtPhys.span (rvp : RIPVirtPhys) (bytes : ℕ) (use64 df : Bool) : RIPVirtPhys where
  rip := rvp.rip
  mfnlo := rvp.rip.toNat / kPageSize % 2 ^ 36
  mfnhi := (rvp.rip.toNat + bytes + (2 ^ 64 - 1)) % 2 ^ 64 / kPageSize % 2 ^ 36
  use64 := use64
  df := df

namespace Seq

/-- The results of `execute`; the others of `SEQEXEC_*` are never returned. -/
inductive SeqExec
  | ok | earlyExit | smc | exception | barrier
  deriving DecidableEq

/-- The locals of `execute` with the core. `buf` is `unaligned_ldst_buf`: what is left
of a split load or store. -/
structure Frame where
  core : SeqCore
  bb : BasicBlock
  uopindex : ℕ
  userInsns : ℕ
  barrier : Bool
  rvp : RIPVirtPhys
  savedFlags : W64
  buf : List TransOp

/-- How the issue of a uop ends: with a result, a split, a skipped instruction, or an
exception noted in the context. -/
inductive Issued
  | completed (reg : UopResult) (sfr : Sfr)
  | refetch
  | skip
  | exception (ctx : Context)

namespace SeqCore

variable (c : SeqCore)

def setArf (r : Reg) (v : W64) : SeqCore := { c with arf := Function.update c.arf r v }

/-- `force_fpu_not_avail_fault`. -/
def fpUnavailable (op : TransOp) : Bool := (op.isSse && c.ctx.noSse) || (op.isX87 && c.ctx.noX87)

/-- The issue of a uop. -/
def issue (exec : Synthop) (junk : Sfr) (op : TransOp) : Issued :=
  if c.fpUnavailable op then
    .exception { c.ctx with exception := InternalException.floatingPointNotAvailable.code, errorCode := 0 }
  else if isload op.opcode || isstore op.opcode then
    let r :=
      if isload op.opcode then c.issueload op junk
      -- fences do nothing in an in-order core
      else if op.opcode = .opMf then ⟨.completed, { junk with data := 0 }, 0⟩
      else c.issuestore op junk
    match r.status with
    | .exception =>
      .exception { c.ctx with
        exception := r.sfr.data.toNat % 2 ^ 32
        errorCode := r.sfr.data.toNat / 2 ^ 32
        cr2 := r.origvirt }
    | .refetch => .refetch
    | .completed => .completed ⟨r.sfr.data, 0⟩ r.sfr
  else
    let r := exec op (c.inputs op)
    let exception := r.rddata.toNat % 2 ^ 32
    if !isbranch op.opcode ∧ r.rdflags &&& FLAG_INV ≠ 0 ∧ exception ≠ 0 then
      if isclass op.opcode opclassCheck ∧ exception = InternalException.skipBlock.code then .skip
      else .exception { c.ctx with exception := exception }
    else .completed r junk

/-- The destination and the flags of a uop that is not a store. -/
def writeResult (op : TransOp) (reg : UopResult) : SeqCore :=
  let c := { c.setArf op.rd reg.rddata with arflags := Function.update c.arflags op.rd reg.rdflags }
  if op.nouserflags then c
  else
    let mask : W64 := (setflagsToX86Flags op.setflags).setWidth 64
    let flags := (c.arf Reg.flags &&& ~~~mask) ||| (reg.rdflags.setWidth 64 &&& mask)
    { c.setArf Reg.flags flags with
      arflags := Function.update c.arflags Reg.flags (flags.setWidth 16) }

/-- The store of a record, and the mark on the page whose number the record holds. -/
def commitStore (sfr : Sfr) : SeqCore :=
  if sfr.bytemask = 0 then c
  else
    let c := match sfr.physaddr with
      | some p => c.storemask p sfr.data sfr.bytemask
      | none => c
    { c with space := c.space.setdirty sfr.smcMfn }

/-- The commit of a uop, without the instruction pointer. -/
def commitUop (op : TransOp) (reg : UopResult) (sfr : Sfr) : SeqCore :=
  if op.opcode = .opSt ∨ op.opcode = .opStA16 then c.commitStore sfr
  else if op.rd ≠ Reg.zero then c.writeResult op reg
  else c

/-- The last uop of an instruction moves on. -/
def nextRip (op : TransOp) (reg : UopResult) : SeqCore :=
  if op.eom then
    c.setArf Reg.rip
      (if op.rd = Reg.rip then reg.rddata else c.arf Reg.rip + BitVec.ofNat 64 c.bytesInCurrentInsn)
  else c

/-- An exception is noted, and the flags are as they were before the instruction. -/
def raise (ctx : Context) (savedFlags : W64) : SeqCore :=
  { c with ctx := ctx }.setArf Reg.flags savedFlags

/-- One more instruction is counted. -/
def countInsn : SeqCore := { c with totalUserInsnsCommitted := c.totalUserInsnsCommitted + 1 }

def setException (exception : ℕ) : SeqCore :=
  { c with ctx := { c.ctx with exception := exception } }

end SeqCore

namespace Frame

variable (f : Frame)

/-- The start of `execute` on a block. -/
def start (c : SeqCore) (bb : BasicBlock) : Frame where
  core := c.setArf Reg.rip bb.rip.rip
  bb := bb
  uopindex := 0
  userInsns := 0
  barrier := false
  rvp := bb.rip
  savedFlags := 0
  buf := []

/-- The uop of this turn: of the split buffer, or of the block. -/
def nextOp : Option TransOp :=
  match f.buf with
  | op :: _ => some op
  | [] => f.bb.transops[f.uopindex]?

/-- The turn takes its uop; the first of an instruction sets the span to watch. -/
def takeOp (op : TransOp) : Frame :=
  let f := { f with buf := f.buf.tail }
  if op.som then
    { f with
      core := { f.core with bytesInCurrentInsn := op.bytes }
      rvp := f.rvp.span op.bytes f.core.ctx.use64 f.core.ctx.df
      savedFlags := f.core.arf Reg.flags }
  else f

/-- The check for self-modifying code. -/
def codeDirty : Bool := f.core.space.isdirty f.rvp.mfnlo || f.core.space.isdirty f.rvp.mfnhi

/-- The pages watched are dropped from the block cache. -/
def invalidateSmc : Frame :=
  let r := f.core.bbcache.invalidatePage f.core.space f.rvp.mfnlo
  let r := if f.rvp.mfnlo ≠ f.rvp.mfnhi then r.2.2.invalidatePage r.2.1 f.rvp.mfnhi else r
  { f with core := { f.core with space := r.2.1, bbcache := r.2.2 } }

/-- The instruction of a check is skipped. -/
def skipBlock : Frame :=
  let rip := f.core.arf Reg.rip + BitVec.ofNat 64 f.core.bytesInCurrentInsn
  let c := f.core.setException InternalException.skipBlock.code
  { f with core := (c.setArf Reg.rip rip).countInsn, userInsns := f.userInsns + 1 }

/-- The commit of a uop, and the step to the next. -/
def commit (op : TransOp) (reg : UopResult) (sfr : Sfr) : Frame :=
  let c := (f.core.commitUop op reg sfr).nextRip op reg
  let c := if op.eom then c.countInsn else c
  { f with
    core := if isbranch op.opcode then c.coreToExternalState else c
    userInsns := if op.eom then f.userInsns + 1 else f.userInsns
    barrier := isbarrier op.opcode
    -- no advance within a split load or store
    uopindex := if f.buf = [] then f.uopindex + 1 else f.uopindex }

/-- One turn of the loop of `execute`; `junk` is what the uninitialised store record
holds. -/
def step (exec : Synthop) (cfg : Config) (junk : Sfr) : Option SeqExec × Frame :=
  if f.core.arf Reg.rip = cfg.stopAtRip then (some .earlyExit, f)
  else
    match f.nextOp with
    | none => (some .ok, f)
    | some op =>
      let f := f.takeOp op
      if f.codeDirty then (some .smc, f.invalidateSmc)
      else
        let f := { f with core := f.core.setException 0 }
        match f.core.issue exec junk op with
        | .exception ctx => (some .exception, { f with core := f.core.raise ctx f.savedFlags })
        | .refetch => (none, { f with buf := splitUnaligned { op with unaligned := true } })
        | .skip => (some .ok, f.skipBlock)
        | .completed reg sfr => (none, f.commit op reg sfr)

/-- The condition of the loop. -/
def running (insnlimit : ℕ) : Bool :=
  f.uopindex < f.bb.transops.length && f.userInsns < insnlimit

/-- The result when the loop has run out. -/
def leave (insnlimit : ℕ) : SeqExec :=
  if f.barrier then .barrier
  else if insnlimit < f.bb.userInsnCount then .earlyExit
  else .ok

/-- `execute` on a block, from some turn on. -/
def execute (exec : Synthop) (cfg : Config) (junk : ℕ → Sfr) (insnlimit : ℕ) :
    ℕ → Frame → Option (SeqExec × Frame)
  | 0, _ => none
  | n + 1, f =>
    if f.running insnlimit then
      match f.step exec cfg (junk n) with
      | (some r, f) => some (r, f)
      | (none, f) => execute exec cfg junk insnlimit n f
    else some (f.leave insnlimit, f)

end Frame

/-! ### Exceptions, barriers and runs -/

/-- The `switch` of `handle_exception`: an exception that is not listed leaves the
vector as it is. -/
def x86Vector (exception vector : ℕ) : ℕ :=
  if exception = InternalException.pageFaultOnRead.code ∨
      exception = InternalException.pageFaultOnWrite.code ∨
      exception = InternalException.pageFaultOnExec.code then 14
  else if exception = InternalException.floatingPointNotAvailable.code then 7
  else if exception = InternalException.floatingPoint.code then 16
  else vector

namespace SeqCore

variable (c : SeqCore)

/-- `handle_exception`: it always throws. -/
def handleException : X86Exception × SeqCore :=
  let c := c.coreToExternalState
  let ctx := { c.ctx with x86Exception := x86Vector c.ctx.exception c.ctx.x86Exception }
  (ctx.propagate ctx.x86Exception ctx.errorCode ctx.cr2, { c with ctx := ctx })

/-- `handle_barrier`: the exception the assist threw, and whether to leave the core. -/
def handleBarrier (assist : Assist) : Option X86Exception × Bool × SeqCore :=
  let c := c.coreToExternalState
  let r := assist (c.ctx.commitarf Reg.rip) c.ctx c.space c.bbcache
  let c := { c with ctx := r.ctx, space := r.space, bbcache := r.bbcache }
  match r.threw with
  | some e => (some e, false, c)
  | none => (none, r.switchToNative, c.externalToCoreState)

/-- `fetch_or_translate_basic_block`. -/
def fetchBlock (dec : Decoder) : Option BasicBlock × SeqCore :=
  let rvp := RIPVirtPhys.update (c.arf Reg.rip) c.ctx.use64 c.ctx.df
  match c.bbcache.get rvp with
  | some b => (some b.bb, c)
  | none =>
    let r := c.bbcache.translate dec c.space rvp
    (r.1, { c with space := r.2.1, bbcache := r.2.2 })

end SeqCore
end Seq
end X86Sim
