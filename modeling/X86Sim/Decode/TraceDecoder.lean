import X86Sim.Uop

/-!
# Assembling a basic block (`TraceDecoder` in `decode-core.cpp`)

The decoders of single instructions `put` their uops into a buffer; `flush` moves the
buffer into the block as one instruction. When a buffer does not fit, or the block has
become long enough, `split` closes the block with a branch to the next instruction.
-/

namespace X86Sim

def MAX_BB_X86_INSNS : ℕ := 60
def MAX_BB_UOPS : ℕ := 63
def MAX_TRANSOPS_PER_USER_INSN : ℕ := 16

/-- `FLAGS_DEFAULT_ALU`. -/
def FLAGS_DEFAULT_ALU : SetFlags := ⟨true, true, true⟩

inductive BbType
  | cond | uncond | indir | assist
  deriving DecidableEq

inductive BrType
  | bruImm8 | bruImm32 | brImm8 | brImm32 | barrier | split | rep | jmp
  deriving DecidableEq

/-- A `TransOp` in a block, with what `flush` fills in. -/
structure BlockUop extends TransOp where
  bbindex : ℕ
  finalInsnInBb : Bool
  finalArchInInsn : Bool
  finalFlagsInInsn : Bool
  anyFlagsInInsn : Bool
  deriving DecidableEq

/-- `BasicBlock` while it is put together. -/
structure TraceBlock where
  rip : W64
  transops : List BlockUop
  bytes : ℕ
  userInsnCount : ℕ
  tagcount : ℕ
  memcount : ℕ
  storecount : ℕ
  type : BbType
  brtype : BrType
  call : Bool
  ret : Bool
  x87 : Bool
  sse : Bool
  usedregs : W64
  ripTaken : W64
  ripNotTaken : W64

namespace TraceBlock

variable (bb : TraceBlock)

/-- `BasicBlock::reset(rip)`. -/
def reset (rip : W64) : TraceBlock where
  rip := rip
  transops := []
  bytes := 0
  userInsnCount := 0
  tagcount := 0
  memcount := 0
  storecount := 0
  type := .cond
  brtype := .bruImm8
  call := false
  ret := false
  x87 := false
  sse := false
  usedregs := 0
  ripTaken := rip
  ripNotTaken := rip

def count : ℕ := bb.transops.length

/-- The type of a block that ends in a branch; none for the branches `flush` does not know. -/
def bbType : Opcode → Option BbType
  | .opBr => some .cond
  | .opBru => some .uncond
  | .opJmp => some .indir
  | .opBrp => some .assist
  | _ => none

/-- `setbit(bb.usedregs, r)` for the architectural registers. -/
def useReg (used : W64) (r : Reg) : W64 := if r.isArch then used ||| (1 : W64) <<< r.val else used

/-- What a branch uop leaves in the block. -/
def endWith (u : TransOp) : Option TraceBlock :=
  if isbranch u.opcode then do
    let type ← bbType u.opcode
    some { bb with
      type
      call := u.extshift &&& 1 != 0
      ret := u.extshift &&& 2 != 0
      ripTaken := u.riptaken
      ripNotTaken := u.ripseq }
  else some bb

/-- The last loop of `flush`, for one uop; none where an assertion fails. -/
def append (u : BlockUop) : Option TraceBlock :=
  if bb.count ≥ MAX_BB_UOPS then none
  else do
    let bb ← bb.endWith u.toTransOp
    some { bb with
      x87 := bb.x87 || u.isX87
      sse := bb.sse || u.isSse
      transops := bb.transops ++ [u]
      memcount := if isload u.opcode || isstore u.opcode then bb.memcount + 1 else bb.memcount
      storecount := if isstore u.opcode then bb.storecount + 1 else bb.storecount
      tagcount := bb.tagcount + 1
      usedregs := useReg (useReg (useReg (useReg bb.usedregs u.rd) u.ra) u.rb) u.rc }

end TraceBlock

/-- `TraceDecoder`, without what only the decoders of single instructions use. -/
structure TraceDecoder where
  bb : TraceBlock
  transbuf : List TransOp
  insnbytesBufsize : ℕ
  rip : W64
  ripstart : W64
  validByteCount : ℕ
  userInsnCount : ℕ
  lastFlagsUpdateWasAtomic : Bool
  endOfBlock : Bool
  isX87 : Bool
  isSse : Bool
  joinWithPrevInsn : Bool
  noPartialFlagUpdatesPerInsn : Bool
  stopAtRip : W64

/-! ### What `flush` finds out about the buffer -/

section Buffer

variable (buf : List TransOp)

/-- `final_archreg_writer`: the index of the last uop that writes a register. -/
def finalArchregWriter : Reg → Option ℕ :=
  buf.zipIdx.foldl (fun writer u => if u.1.rd.isArch then Function.update writer u.1.rd (some u.2) else writer)
    fun _ => none

def SetFlags.isAll (s : SetFlags) : Bool := s.zf && s.cf && s.of
def SetFlags.isAny (s : SetFlags) : Bool := s.zf || s.cf || s.of
def SetFlags.or (s t : SetFlags) : SetFlags := ⟨s.zf || t.zf, s.cf || t.cf, s.of || t.of⟩

/-- `final_flags_writer`: the last uop that sets all flags of the user. -/
def finalFlagsWriter : Option ℕ :=
  buf.zipIdx.foldl (fun writer u => if u.1.setflags.isAll && !u.1.nouserflags then some u.2 else writer) none

/-- `flag_sets_set`. -/
def flagSetsSet : SetFlags :=
  buf.foldl (fun s u => if u.nouserflags then s else s.or u.setflags) SetFlags.none

end Buffer

namespace TraceDecoder

variable (d : TraceDecoder)

/-- `TraceDecoder(rvp)` and the parts of `fillbuf` that matter here. -/
def init (rip : W64) (insnbytesBufsize validByteCount : ℕ) : TraceDecoder where
  bb := .reset rip
  transbuf := []
  insnbytesBufsize := insnbytesBufsize
  rip := rip
  ripstart := rip
  validByteCount := validByteCount
  userInsnCount := 0
  lastFlagsUpdateWasAtomic := true
  endOfBlock := false
  isX87 := false
  isSse := false
  joinWithPrevInsn := false
  noPartialFlagUpdatesPerInsn := false
  stopAtRip := BitVec.allOnes 64

def firstInsnInBb : Bool := d.ripstart == d.bb.rip

/-- `put`. -/
def put (u : TransOp) : Option TraceDecoder :=
  if d.transbuf.length < MAX_TRANSOPS_PER_USER_INSN then
    some { d with
      transbuf := d.transbuf ++ [u]
      lastFlagsUpdateWasAtomic := if u.setflags.isAny then u.setflags.isAll else d.lastFlagsUpdateWasAtomic }
  else none

/-- The uops of `split`. -/
def collcc : TransOp := .init .opCollcc Reg.temp0 Reg.zf Reg.cf Reg.of 3 0 0 FLAGS_DEFAULT_ALU

def splitBranch (target : W64) : TransOp :=
  { TransOp.init .opBru Reg.rip Reg.zero Reg.zero Reg.zero 3 0 0 SetFlags.none with
    riptaken := target
    ripseq := target }

/-- `split(after)`. -/
def split (after : Bool) : Option TraceDecoder :=
  let target := if after then d.rip else d.ripstart
  if !after && d.firstInsnInBb then none
  else do
    let d ← d.put collcc
    let d ← d.put (splitBranch target)
    some { d with
      bb := { d.bb with ripTaken := target, ripNotTaken := target, brtype := .split }
      joinWithPrevInsn := !after
      endOfBlock := true }

/-- `overflow`. -/
def overflows : Bool := (MAX_BB_UOPS - 2 : ℤ) - d.bb.count ≤ d.transbuf.length

/-- The buffer that does not fit gives way to a split before its instruction. -/
def makeRoom : Option TraceDecoder :=
  if d.overflows then { d with transbuf := [] }.split false else some d

/-- The walk back over the uops of the last instruction, the last first, with the bytes of
that instruction. -/
def reopenLoop : List BlockUop → List BlockUop × Option ℕ
  | [] => ([], none)
  | prevop :: uops =>
    let reopened := { prevop with eom := false, finalFlagsInInsn := false }
    if prevop.som then (reopened :: uops, some prevop.bytes)
    else
      let r := reopenLoop uops
      (reopened :: r.1, r.2)

/-- Reopening the previous instruction. -/
def reopen : Option TraceDecoder :=
  if d.joinWithPrevInsn then
    if d.bb.count = 0 then none
    else
      match reopenLoop d.bb.transops.reverse with
      | (uops, some bytes) => some { d with
          bb := { d.bb with transops := uops.reverse }
          rip := d.ripstart
          ripstart := d.ripstart - BitVec.ofNat 64 bytes }
      | (uops, none) => some { d with bb := { d.bb with transops := uops.reverse } }
  else some d

/-- What `flush` writes into the uop at index `i` of the buffer. -/
def mark (bytes : ℕ) (u : TransOp) (i : ℕ) : BlockUop where
  toTransOp := { u with
    unaligned := false
    bytes := bytes
    som := if i = 0 then !d.joinWithPrevInsn else u.som
    eom := if i + 1 = d.transbuf.length then true else u.eom
    isX87 := d.isX87
    isSse := d.isSse }
  bbindex := d.bb.count + i
  finalInsnInBb := d.transbuf.getLast?.any fun last => isbranch last.opcode
  finalArchInInsn := u.rd.isArch && finalArchregWriter d.transbuf u.rd == some i
  finalFlagsInInsn := finalFlagsWriter d.transbuf == some i
  anyFlagsInInsn := (flagSetsSet d.transbuf).isAny

/-- The buffer as it goes into the block. -/
def marked (bytes : ℕ) : List BlockUop := d.transbuf.zipIdx.map fun u => d.mark bytes u.1 u.2

/-- The assertion on partial updates of the flags. -/
def partialFlags : Bool :=
  d.noPartialFlagUpdatesPerInsn && (flagSetsSet d.transbuf).isAny && !(flagSetsSet d.transbuf).isAll

/-- The rest of `flush`: the buffer becomes an instruction of the block, or part of the
reopened one. -/
def close : Option TraceDecoder :=
  let bytes := (d.rip - d.ripstart).toNat
  if bytes > 15 then none
  else if d.partialFlags then none
  else do
    let bb ← (d.marked bytes).foldlM TraceBlock.append d.bb
    some { d with
      bb := if d.joinWithPrevInsn then bb
        else { bb with userInsnCount := bb.userInsnCount + 1, bytes := bb.bytes + bytes }
      transbuf := [] }

/-- `flush`, with its answer. -/
def flush : Option (TraceDecoder × Bool) :=
  if d.transbuf = [] then some (d, true)
  else do
    let room ← d.makeRoom
    let opened ← room.reopen
    let closed ← opened.close
    some (closed, !d.overflows)

end TraceDecoder

/-! ### Blocks -/

/-- What the decoder of a branch sets in the block. -/
structure BlockBranch where
  ripTaken : W64
  ripNotTaken : W64
  brtype : BrType

/-- What a decoder of single instructions gives: the uops it puts, fresh from the constructor,
their number of bytes, and the branch it ends the block with. -/
structure Insn where
  uops : List TransOp
  length : ℕ
  endOfBlock : Bool
  branch : Option BlockBranch
  isX87 : Bool
  isSse : Bool
  length_lt : length < 2 ^ 64
  nonempty : uops ≠ []
  fresh : ∀ u ∈ uops, u.som = false ∧ u.eom = false
  notSplit : ∀ b ∈ branch, b.brtype ≠ .split

/-- The block with the branch of an instruction. -/
def TraceBlock.branchTo (bb : TraceBlock) : Option BlockBranch → TraceBlock
  | none => bb
  | some b => { bb with ripTaken := b.ripTaken, ripNotTaken := b.ripNotTaken, brtype := b.brtype }

namespace TraceDecoder

variable (d : TraceDecoder)

/-- The start of `translate`: the bytes are fetched, the uops put. -/
def decode (insn : Insn) : Option TraceDecoder := do
  let d ← insn.uops.foldlM put { d with
    bb := d.bb.branchTo insn.branch
    ripstart := d.rip
    rip := d.rip + BitVec.ofNat 64 insn.length
    isX87 := insn.isX87
    isSse := insn.isSse
    endOfBlock := d.endOfBlock || insn.endOfBlock }
  some { d with userInsnCount := d.userInsnCount + 1 }

/-- There is no room for another instruction. -/
def tooLong : Bool :=
  let bytes := (d.rip - d.bb.rip).toNat
  d.insnbytesBufsize - 15 ≤ bytes || d.validByteCount ≤ bytes || MAX_BB_X86_INSNS ≤ d.userInsnCount ||
    d.rip == d.stopAtRip

/-- The flags are put together before a split when the last update was partial. -/
def collect : Option TraceDecoder := if d.lastFlagsUpdateWasAtomic then some d else d.put collcc

/-- `translate` for one instruction; false when the block is finished. -/
def translate (insn : Insn) : Option (TraceDecoder × Bool) := do
  let d ← d.decode insn
  if d.endOfBlock then do
    let r ← d.flush
    some (r.1, false)
  else if d.tooLong then do
    let d ← d.collect
    let d ← d.split true
    let r ← d.flush
    some (r.1, false)
  else d.flush

/-- Instructions in a row, until the block is finished. -/
def run (d : TraceDecoder) : List Insn → Option (TraceDecoder × Bool)
  | [] => some (d, true)
  | insn :: insns => do
    let r ← d.translate insn
    if r.2 then run r.1 insns else some r

end TraceDecoder

end X86Sim
