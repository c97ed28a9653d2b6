import X86Sim.Code.BasicBlockCache

/-!
# Contexts and accesses

What the two cores share: the context of the virtual CPU, the exceptions and assists
they report through it, and the steps of a load or a store that are the same in both.
-/

namespace X86Sim

/-! ### The context -/

/-- The parts of `Context` the cores use. `hostBytes` is the host storage internal
loads and stores address: fields of the context and constant tables. -/
structure Context where
  commitarf : Reg → W64
  exception : ℕ
  errorCode : ℕ
  x86Exception : ℕ
  cr2 : ℕ
  noSse : Bool
  noX87 : Bool
  use64 : Bool
  df : Bool
  virtAddrMask : W64
  hostBytes : ℕ → Byte

/-- `X86Exception`, as the host catches it. -/
structure X86Exception where
  vector : ℕ
  errorCode : ℕ
  virtaddr : ℕ
  rip : W64
  deriving DecidableEq

/-- `propagate_x86_exception`: the vector is kept in a byte, the error code in 32 bits. -/
def Context.propagate (ctx : Context) (exception errorcode virtaddr : ℕ) : X86Exception :=
  ⟨exception % 2 ^ 8, errorcode % 2 ^ 32, virtaddr, ctx.commitarf Reg.rip⟩

def Context.setRip (ctx : Context) (rip : W64) : Context :=
  { ctx with commitarf := Function.update ctx.commitarf Reg.rip rip }

/-- A context with the given registers, in 64-bit mode. -/
def Context.ofArf (arf : Reg → W64) : Context where
  commitarf := arf
  exception := 0
  errorCode := 0
  x86Exception := 0
  cr2 := 0
  noSse := false
  noX87 := false
  use64 := true
  df := false
  virtAddrMask := BitVec.allOnes 64
  hostBytes _ := 0

/-- What a microcode assist leaves, with the host callbacks it makes: the context, the
address space and the decoded code; it may throw, or ask to leave the core. -/
structure AssistResult where
  ctx : Context
  space : AddressSpace
  bbcache : BasicBlockCache
  threw : Option X86Exception
  switchToNative : Bool

/-- An assist, by its number `commitarf[REG_rip]`. -/
abbrev Assist := W64 → Context → AddressSpace → BasicBlockCache → AssistResult

/-- `uop.synthop`, as a function of the uop: what it computes is a parameter, the
implementation the decoder's tables pick for it. -/
abbrev Synthop := TransOp → UopInputs → UopResult

/-! ### Accesses -/

/-- A translated address: a pointer to guest memory, or the raw address of an internal uop. -/
inductive PhysAddr
  | guest (a : ℕ) | host (a : ℕ)
  deriving DecidableEq

/-- `lowbits(a, bits)` and `floor(a, 8)`. -/
def lowbits (a : ℕ) (bits : ℕ) : ℕ := a % 2 ^ bits
def floor8 (a : ℕ) : ℕ := a - a % 8

/-- `check_and_translate`, with the address in place of the pointer, which is that of the
sign-extended address, null where no page is mapped there: `AddressSpace.translate` has it. The
alignment is checked for internal uops too. -/
def checkAndTranslate (m : AddressSpace) (virtaddr sizeshift : ℕ) (store internal : Bool) :
    Except (InternalException × PageFaultErrorCode) PhysAddr :=
  if lowbits virtaddr sizeshift ≠ 0 then .error (.unalignedAccess, .none)
  else if internal then .ok (.host virtaddr)
  else if !m.check virtaddr ⟨!store, store, false⟩ then
    .error (if store then .pageFaultOnWrite else .pageFaultOnRead,
      ⟨m.check virtaddr ⟨true, false, false⟩, store, true, false⟩)
  else .ok (.guest (floor8 virtaddr))

/-- `extract_bytes` of `2 ^ sizeshift` bytes from byte `offset` of `hi`, `lo` side by side. -/
def extractBytes (lo hi : W64) (offset sizeshift : ℕ) (signext : Bool) : W64 :=
  let bytes := (hi ++ lo) >>> (8 * offset)
  let narrow (w : ℕ) : W64 :=
    if signext then (bytes.setWidth w).signExtend 64 else (bytes.setWidth w).setWidth 64
  match sizeshift with
  | 0 => narrow 8
  | 1 => narrow 16
  | 2 => narrow 32
  | _ => bytes.setWidth 64

/-- The bytes a store of `2 ^ sizeshift` bytes at `origaddr` puts into its chunk: the
mask, and the value moved to its place. -/
def storeBytes (cond sizeshift origaddr : ℕ) (rc : W64) : BitVec 8 × W64 :=
  let mask := 2 ^ 2 ^ sizeshift - 1
  let low := lowbits origaddr 3
  if cond = LdstAlign.hi.cond then (BitVec.ofNat 8 (mask >>> (8 - low)), rc >>> (8 * (8 - low)))
  else if cond = LdstAlign.normal.cond ∨ cond = LdstAlign.lo.cond then
    (BitVec.ofNat 8 (mask <<< low), rc <<< (8 * low))
  else (0, rc)

/-- The value a load delivers: of the loaded chunk alone, or of a `ld.hi` together with
the low half `rb`. -/
def loadResult (op : TransOp) (addr origaddr : ℕ) (rb chunk : W64) : W64 :=
  let signext := op.opcode == .opLdx
  if op.cond = LdstAlign.hi.cond then extractBytes rb chunk (lowbits origaddr 3) op.size signext
  else extractBytes chunk 0 (lowbits addr 3) op.size signext

/-- The address is the sign extension of its low 48 bits. -/
def canonical (addr : W64) : Bool := (addr.setWidth 48).signExtend 64 == addr

end X86Sim
