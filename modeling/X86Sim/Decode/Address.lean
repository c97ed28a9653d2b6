import X86Sim.Decode.AluInsns
import X86Sim.Decode.Operand

/-!
# Address generation (`decode-core.cpp`, `decode-fast.cpp`)

`address_generate_and_load_or_store` has four shapes of uops, by the base and index of
the operand. A segment base is loaded from the context by an internal load.
-/

namespace X86Sim

open X86Sim.Seq

/-- The prefixes an address depends on. -/
structure Prefixes where
  es : Bool
  cs : Bool
  ss : Bool
  ds : Bool
  fs : Bool
  gs : Bool
  data : Bool
  addr : Bool
  deriving DecidableEq

/-- `segment_register_index` of the segment overridden, `fs` and `gs` first. -/
def Prefixes.segment (pfx : Prefixes) : ℕ :=
  if pfx.fs then 4 else if pfx.gs then 5 else if pfx.ds then 3 else if pfx.ss then 2
  else if pfx.es then 0 else 1

/-- Any segment override. -/
def Prefixes.override (pfx : Prefixes) : Bool := pfx.cs || pfx.ds || pfx.es || pfx.fs || pfx.gs || pfx.ss

/-- `offsetof_(Context, segment_bases)`: it follows the 64 registers. -/
def SEGMENT_BASES : ℕ := 512

/-- `fits_in_signed_nbit`. -/
def fitsInSignedNbit (v : W64) (b : ℕ) : Bool := -2 ^ (b - 1) ≤ v.toInt && v.toInt ≤ 2 ^ (b - 1) - 1

namespace TransOp

/-- A uop that sets no flags. -/
abbrev mk3 (opcode : Opcode) (rd ra rb rc : Reg) (size : ℕ) (rbimm : W64) : TransOp :=
  init opcode rd ra rb rc size rbimm 0 .none

/-- The load of a segment base. -/
def loadSegment (segment : ℕ) : TransOp :=
  { mk3 .opLd Reg.temp6 Reg.ctx Reg.imm Reg.zero 3 (BitVec.ofNat 64 (SEGMENT_BASES + segment * 8)) with
    internal := true }

/-- `ra + (rc << scale)`. -/
def adda (rd ra rc : Reg) (size : ℕ) (scale : Fin 4) : TransOp :=
  { mk3 .opAdda rd ra Reg.zero rc size 0 with extshift := scale }

/-- The load, the store or the sum at the end. -/
def ldst (opcode : Opcode) (destreg basereg srcreg : Reg) (size : ℕ) (offset : W64)
    (memop datatypeInt : Bool) : TransOp :=
  { mk3 opcode destreg basereg Reg.imm srcreg size offset with
    datatypeInt := if memop then datatypeInt else true }

end TransOp

/-- `bias_by_segreg`: its uops and the register it returns. -/
def biasBySegreg (pfx : Prefixes) (basereg : Reg) : List TransOp × Reg :=
  if pfx.override then
    ([.loadSegment pfx.segment, .mk3 .opAdd Reg.temp6 Reg.temp6 basereg Reg.zero 3 0], Reg.temp6)
  else ([], basereg)

/-- `abs_code_addr_immediate`. -/
def absCodeAddrImmediate (rdreg : Reg) (sizeshift : ℕ) (imm : W64) : TransOp :=
  .mk3 .opAdd rdreg Reg.trace Reg.imm Reg.zero sizeshift (signext64 imm 48)

/-- `address_generate_and_load_or_store`; `rip` is the decoder's, after the instruction. -/
def addressGenerate (pfx : Prefixes) (rip : W64) (destreg srcreg : Reg) (memref : MemRef) (opcode : Opcode)
    (datatypeInt forceSegBias : Bool) : List TransOp :=
  let memop := isload opcode || isstore opcode || opcode = .opLdPre
  let forceSegBias := forceSegBias || memop
  let immBits := if memop then 32 else 64
  -- an offset a load or a store cannot encode is added first
  let immIsNotEncodable := opcode ≠ .opAdd ∧ (lowbits memref.offset.toNat memref.size ≠ 0 ∨
    !fitsInSignedNbit (memref.offset.sshiftRight memref.size) immBits)
  let bias (basereg : Reg) := if forceSegBias then biasBySegreg pfx basereg else ([], basereg)
  let ldst (basereg : Reg) (offset : W64) : TransOp :=
    .ldst opcode destreg basereg srcreg memref.size offset memop datatypeInt
  let adda (rd basereg : Reg) (size : ℕ) : TransOp := .adda rd basereg memref.indexreg size memref.scale
  -- the segment base is generated here too, and then not added
  if memref.basereg = Reg.rip then
    let (ops, _) := bias Reg.zero
    if memop then ops ++ [absCodeAddrImmediate Reg.temp8 3 (rip + memref.offset), ldst Reg.temp8 0]
    else ops ++ [absCodeAddrImmediate destreg 3 (rip + memref.offset)]
  else
    let (ops, basereg) := bias memref.basereg
    let far := [TransOp.mk3 .opAdd Reg.temp8 basereg Reg.imm Reg.zero 3 memref.offset]
    if memref.indexreg = Reg.zero then
      if immIsNotEncodable then ops ++ far ++ [ldst Reg.temp8 0] else ops ++ [ldst basereg memref.offset]
    else if memref.offset = 0 then
      let tempreg := if memop then Reg.temp8 else destreg
      let size := if memop then 3 else memref.size
      ops ++ [if memref.scale ≠ 0 then adda tempreg basereg size
        else .mk3 .opAdd tempreg basereg memref.indexreg Reg.zero size 0] ++ [ldst tempreg 0]
    else if immIsNotEncodable then ops ++ far ++ [adda Reg.temp8 Reg.temp8 3, ldst Reg.temp8 0]
    else ops ++ [adda Reg.temp8 basereg 3, ldst Reg.temp8 memref.offset]

/-- `sizeshift` of `lea`. -/
def leaSizeshift (pfx : Prefixes) (rex : RexByte) : ℕ := if rex.mode64 then 3 else if pfx.data then 1 else 2

/-- The destination of `lea`, by its size. -/
def leaRd (pfx : Prefixes) (rex : RexByte) (dest : Fin 16) : Apr :=
  if rex.mode64 then .q dest else if pfx.data then .w dest else .d dest

/-- `lea` (`decode_fast`, 0x8d), into register `destreg`. -/
def lea (pfx : Prefixes) (rex : RexByte) (rip : W64) (destreg : Reg) (memref : MemRef) : List TransOp :=
  let sizeshift := leaSizeshift pfx rex
  let addrsz := if pfx.addr then 2 else 3
  let memref := { memref with size := if sizeshift < addrsz then sizeshift else addrsz }
  if sizeshift = 1 then
    addressGenerate pfx rip Reg.temp1 Reg.zero memref .opAdd true false ++
      [.mk3 .opMov destreg destreg Reg.temp1 Reg.zero sizeshift 0]
  else addressGenerate pfx rip destreg Reg.zero memref .opAdd true false

/-! ### What x86 says -/

/-- The base of a segment, as the context keeps it. -/
def segmentBase (c : SeqCore) (segment : ℕ) : W64 :=
  ByteMask.ofBytes fun i => c.ctx.hostBytes ((c.arf Reg.ctx).toNat + SEGMENT_BASES + segment * 8 + i)

namespace X86Operand

variable (o : X86Operand)

/-- The value of the base: the rip of the next instruction is given. -/
def baseValue (arf : Reg → W64) (rip : W64) : W64 :=
  match o.base with
  | .none => 0
  | .rip => rip
  | .reg r => arf (r.castLE sixteen_le_regs)

def indexValue (arf : Reg → W64) : W64 :=
  match o.index with
  | none => 0
  | some r => arf (r.castLE sixteen_le_regs)

/-- Base, scaled index and displacement. -/
def sum (arf : Reg → W64) (rip : W64) : W64 := o.baseValue arf rip + o.indexValue arf <<< o.scale.val + o.disp

/-- The sum, of 32 bits under an address size prefix. -/
def offset (pfx : Prefixes) (arf : Reg → W64) (rip : W64) : W64 :=
  if pfx.addr then (o.sum arf rip).setWidth 32 |>.setWidth 64 else o.sum arf rip

/-- The effective address: only `fs` and `gs` have a base in 64-bit code. -/
def address (pfx : Prefixes) (c : SeqCore) (rip : W64) : W64 :=
  (if pfx.fs then segmentBase c 4 else if pfx.gs then segmentBase c 5 else 0) + o.offset pfx c.arf rip

end X86Operand

/-! ### What is to hold -/

/-- The context register points to the context, in the lower half of the host's memory,
and addresses are of 64 bits. -/
structure HostCtx (c : SeqCore) : Prop where
  aligned : (c.arf Reg.ctx).toNat % 8 = 0
  bound : (c.arf Reg.ctx).toNat + 4096 ≤ 2 ^ 47
  mask : c.ctx.virtAddrMask = BitVec.allOnes 64

/-- The address the last of some uops accesses, the others run before it. -/
def accessed (exec : Synthop) (junk : Sfr) (ops : List TransOp) (c : SeqCore) : Option W64 :=
  (c.runUops exec junk ops.dropLast).bind fun c' => ops.getLast?.map fun op => c'.radata op + c'.rbdata op

/-- The load or store of an operand accesses its effective address, from any registers. -/
def AddressRight (pfx : Prefixes) (rip : W64) (ops : List TransOp) (o : X86Operand) : Prop :=
  ∀ (rest : Synthop) (junk : Sfr) (c : SeqCore), c.Ready → HostCtx c →
    accessed rest.withImpl junk ops c = some (o.address pfx c rip)

/-- `lea` writes the address without a segment base, truncated to its size. -/
def LeaRight (pfx : Prefixes) (rex : RexByte) (rip : W64) (dest : Fin 16) (ops : List TransOp)
    (o : X86Operand) : Prop :=
  let rd := leaRd pfx rex dest
  ∀ (rest : Synthop) (junk : Sfr) (c : SeqCore), c.Ready → ∃ c', c.runUops rest.withImpl junk ops = some c' ∧
    ∀ r : Reg, r.isArch = true → c'.arf r =
      if r = rd.arch then rd.write (c.arf r) ((o.offset pfx c.arf rip).setWidth _) else c.arf r

/-- Of an address relative to `rip`: it is canonical or, of 32 bits, so sign extended. -/
def ripRight (narrow : Bool) (target : W64) : Bool :=
  if narrow then target.extractLsb' 32 16 = 0 else canonical target

/-- When a load or store is right. -/
def memRight (pfx : Prefixes) (rip : W64) (o : X86Operand) : Bool :=
  if o.base = .rip then !pfx.fs && !pfx.gs && ripRight pfx.addr (rip + o.disp)
  else (!pfx.addr || (o.base = .none && o.index.isNone && o.disp.toNat < 2 ^ 32)) &&
    (!pfx.override || pfx.fs || pfx.gs)

/-- When `lea` is right. -/
def leaRight (pfx : Prefixes) (rex : RexByte) (rip : W64) (o : X86Operand) : Bool :=
  o.base ≠ .rip || leaSizeshift pfx rex = 1 || ripRight (pfx.addr || leaSizeshift pfx rex = 2) (rip + o.disp)

end X86Sim
