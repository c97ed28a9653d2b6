import X86Sim.Context

/-!
# The sequential core: registers, loads and stores (`seqcore.cpp`)

The core keeps its registers and their shadow flags in two arrays that it copies from
the context and back. Loads and stores translate and access memory at once.
-/

namespace X86Sim.Seq

/-- `archreg_remap_table`: the flag registers are all `REG_flags` in an in-order core. -/
def remap (r : Reg) : Reg := if r = Reg.zf ∨ r = Reg.cf ∨ r = Reg.of then Reg.flags else r

/-- The options the core reads, with the instruction limit of the run. -/
structure Config where
  stopAtRip : W64
  stopAtUserInsns : ℕ

/-- `SequentialCore`, with the address space and the block cache of its machine. -/
structure SeqCore where
  arf : Reg → W64
  arflags : Reg → W16
  ctx : Context
  space : AddressSpace
  bbcache : BasicBlockCache
  bytesInCurrentInsn : ℕ
  totalUserInsnsCommitted : ℕ

/-- The fields of `SFR` the core reads. `physaddr` is `none` for `INVALID_PHYSADDR`. -/
structure Sfr where
  data : W64
  physaddr : Option PhysAddr
  bytemask : BitVec 8
  smcMfn : ℕ

/-- `ISSUE_COMPLETED`, `ISSUE_REFETCH` and `ISSUE_EXCEPTION`. -/
inductive IssueStatus
  | completed | refetch | exception
  deriving DecidableEq

/-- What `addrgen` finds out. -/
structure AddrGen where
  origaddr : ℕ
  addr : ℕ
  annul : Bool
  result : Except (InternalException × PageFaultErrorCode) PhysAddr

/-- The status of a load or a store, its record, and the address a fault reports. -/
structure MemIssue where
  status : IssueStatus
  sfr : Sfr
  origvirt : ℕ

namespace SeqCore

variable (c : SeqCore)

/-! ### Operands -/

def radata (op : TransOp) : W64 := c.arf (remap op.ra)
def rbdata (op : TransOp) : W64 := if op.rb = Reg.imm then op.rbimm else c.arf (remap op.rb)
def rcdata (op : TransOp) : W64 := if op.rc = Reg.imm then op.rcimm else c.arf (remap op.rc)

def inputs (op : TransOp) : UopInputs :=
  ⟨c.radata op, c.rbdata op, c.rcdata op, c.arflags (remap op.ra), c.arflags (remap op.rb),
    c.arflags (remap op.rc), op.riptaken, op.ripseq⟩

/-! ### Loads and stores -/

/-- `addrgen`. The address is always made canonical. -/
def addrgen (op : TransOp) : AddrGen :=
  let st := isstore op.opcode
  let sum := if st ∨ op.cond = LdstAlign.normal.cond then c.radata op + c.rbdata op else c.radata op
  let origaddr := ((sum.setWidth 48).signExtend 64 &&& c.ctx.virtAddrMask).toNat
  let hi := op.cond = LdstAlign.hi.cond
  let annul := hi ∧ floor8 ((origaddr + (2 ^ op.size - 1)) % 2 ^ 64) = floor8 origaddr
  let addr :=
    if op.cond = LdstAlign.lo.cond then floor8 origaddr
    else if hi then (floor8 origaddr + 8) % 2 ^ 64
    else origaddr
  ⟨origaddr, addr, annul,
    if annul then .ok (.host 0) else checkAndTranslate c.space addr op.size st op.internal⟩

/-- `handle_common_exceptions`, of an access that failed. A fault on a high half is
reported at the first byte of the second page. -/
def handleCommonExceptions (op : TransOp) (sfr : Sfr) (g : AddrGen)
    (exception : InternalException) (pfec : PageFaultErrorCode) : MemIssue :=
  let sfr := { sfr with data := exceptionWord exception pfec }
  if exception = .unalignedAccess then ⟨.refetch, sfr, g.origaddr⟩
  else if (exception = .pageFaultOnRead ∨ exception = .pageFaultOnWrite) ∧
      op.cond = LdstAlign.hi.cond then ⟨.exception, sfr, g.addr⟩
  else ⟨.exception, sfr, g.origaddr⟩

/-- `issuestore`. `sfr` is the record as the caller left it, which is uninitialised;
its `smc_mfn` is not assigned. -/
def issuestore (op : TransOp) (sfr : Sfr) : MemIssue :=
  let g := c.addrgen op
  match g.result with
  | .error (exception, pfec) => handleCommonExceptions op sfr g exception pfec
  | .ok physaddr =>
    let (bytemask, data) := storeBytes op.cond op.size g.origaddr (c.rcdata op)
    ⟨.completed, { sfr with
      data := data, physaddr := if g.annul then none else some physaddr, bytemask := bytemask },
      g.origaddr⟩

/-- `loadphys`: the eight bytes from an address. -/
def loadphys : PhysAddr → W64
  | .guest a => c.space.loadChunk a
  | .host a => ByteMask.ofBytes fun i => c.ctx.hostBytes (a + i)

/-- `issueload`. -/
def issueload (op : TransOp) (sfr : Sfr) : MemIssue :=
  let g := c.addrgen op
  match g.result with
  | .error (exception, pfec) => handleCommonExceptions op sfr g exception pfec
  | .ok physaddr =>
    if op.cond = LdstAlign.hi.cond ∧ g.annul then
      -- nothing of the high half is used
      let data := extractBytes (c.rbdata op) 0 (lowbits g.origaddr 3) op.size (op.opcode == .opLdx)
      ⟨.completed, { sfr with data := data, physaddr := none }, g.origaddr⟩
    else
      let data := loadResult op g.addr g.origaddr (c.rbdata op) (c.loadphys physaddr)
      ⟨.completed, { sfr with data := data, physaddr := some physaddr, bytemask := 0xff }, g.origaddr⟩

/-- A masked store of the eight bytes at a translated address. -/
def storemask (p : PhysAddr) (data : W64) (bytemask : BitVec 8) : SeqCore :=
  match p with
  | .guest a => { c with space := c.space.storemask (a / 8 * 8) data bytemask }
  | .host a =>
    { c with ctx := { c.ctx with
        hostBytes := fun x =>
          if a / 8 * 8 ≤ x ∧ x < a / 8 * 8 + 8 ∧ bytemask.getLsbD (x - a / 8 * 8) then
            ByteMask.byteAt data (x - a / 8 * 8)
          else c.ctx.hostBytes x } }

/-! ### Copies -/

/-- `external_to_core_state`. -/
def externalToCoreState : SeqCore :=
  { c with
    arf := fun r => if r.isArch then c.ctx.commitarf r else 0
    arflags := fun r => if r = Reg.flags then (c.ctx.commitarf Reg.flags).setWidth 16 else 0 }

/-- `core_to_external_state`. -/
def coreToExternalState : SeqCore :=
  { c with ctx := { c.ctx with commitarf := fun r => if r.isArch then c.arf r else c.ctx.commitarf r } }

end SeqCore
end X86Sim.Seq
