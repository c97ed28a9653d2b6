import X86Sim.Decode.Access
import X86Sim.Uops.Vectors
import X86Sim.X87.SaveState

/-!
# Packed integer instructions (`decode-sse.cpp`)

An xmm register is two 64-bit registers, and an instruction is one uop for each half. A
source in memory is loaded in halves too. That SSE is available is assumed, so that the bit
which marks its uops is left out.
-/

namespace X86Sim

open X86Sim.Seq X86Sim.Seq.SeqCore

/-- An xmm register. -/
def SeqCore.xmm (c : SeqCore) (r : Fin 16) : BitVec (64 + 64) := c.arf (Reg.xmmh r) ++ c.arf (Reg.xmml r)

/-- A source: a register, or 16 bytes in memory. -/
inductive XmmSource
  | reg (r : Fin 16) | mem (o : X86Operand)
  deriving DecidableEq

namespace XmmSource

variable (src : XmmSource) (pfx : Prefixes) (rip : W64) (c : SeqCore)

/-- The loads of a source in memory, to `temp0` and `temp1`. -/
def load : List TransOp :=
  match src with
  | reg _ => []
  | mem o => fpLoad pfx rip Reg.temp0 (o.memRef 3) .opLdA16 ++
      fpLoad pfx rip Reg.temp1 ({ o with disp := o.disp + 8 }.memRef 3) .opLd

/-- The registers of its halves, `rareg` and `rareg + 1`. -/
def low : Reg :=
  match src with
  | reg r => Reg.xmml r
  | mem _ => Reg.temp0

def high : Reg :=
  match src with
  | reg r => Reg.xmmh r
  | mem _ => Reg.temp1

/-- What the loads of a source leave in its registers. -/
def value : BitVec (64 + 64) :=
  match src with
  | reg r => SeqCore.xmm c r
  | mem o => loadBytes c.space.bytes (Operand.address pfx c rip { o with disp := o.disp + 8 }) 3 ++
    loadBytes c.space.bytes (Operand.address pfx c rip o) 3

/-- A source in memory may be loaded where the uops do. -/
def Readable : Prop :=
  match src with
  | reg _ => True
  | mem o => HostCtx c ∧ Accessible c false (Operand.address pfx c rip o) 3 ∧
    Accessible c false (Operand.address pfx c rip { o with disp := o.disp + 8 }) 3

/-- The sixteen bytes of a source in memory, little-endian. -/
def x86Value : BitVec (64 + 64) :=
  match src with
  | reg r => SeqCore.xmm c r
  | mem o =>
    let a := Operand.effective pfx rip c o
    loadBytes c.space.bytes (byteAddr a 8) 3 ++ loadBytes c.space.bytes a 3

/-- A source in memory is readable. -/
def X86Readable : Prop :=
  match src with
  | reg _ => True
  | mem o => HostCtx c ∧ Accessible c false (Operand.effective pfx rip c o) 3 ∧
    Accessible c false (byteAddr (Operand.effective pfx rip c o) 8) 3

end XmmSource

/-- The cases of the first table of packed operations: 0x5d0, 0x5e0 and 0x5f0 on. -/
def packedCase : Fin 3 → Fin 16 → Bool
  | 0, col => (1 ≤ col && col ≤ 5) || 8 ≤ col
  | 1, col => col ≤ 5 || 8 ≤ col
  | 2, col => (1 ≤ col && col ≤ 6) || (8 ≤ col && col ≤ 14)

/-- `x86_opcode_to_ptl_opcode`. -/
def packedOpcode (row : Fin 3) (col : Fin 16) : Opcode :=
  let table : List (List Opcode) :=
    [[.opNop, .opVshr, .opVshr, .opVshr, .opVadd, .opVmull, .opNop, .opNop, .opVsubUs, .opVsubUs, .opVmin, .opAnd,
        .opVaddUs, .opVaddUs, .opVmax, .opAndnot],
      [.opVavg, .opVsar, .opVsar, .opVavg, .opVmulhu, .opVmulh, .opNop, .opNop, .opVsubSs, .opVsubSs, .opVminS, .opOr,
        .opVaddSs, .opVaddSs, .opVmaxS, .opXor],
      [.opNop, .opVshl, .opVshl, .opVshl, .opMulhl, .opVmaddp, .opVsad, .opNop, .opVsub, .opVsub, .opVsub, .opVsub,
        .opVadd, .opVadd, .opVadd, .opNop]]
  (table[row.val]?.getD [])[col.val]?.getD .opNop

/-- `x86_opcode_to_sizeshift`. -/
def packedSizeshift (row : Fin 3) (col : Fin 16) : ℕ :=
  let table : List (List ℕ) :=
    [[0, 1, 2, 3, 3, 1, 3, 0, 0, 1, 0, 3, 0, 1, 0, 3], [0, 1, 2, 1, 1, 1, 0, 0, 0, 1, 1, 3, 0, 1, 1, 3],
      [0, 1, 2, 3, 2, 1, 1, 0, 0, 1, 2, 3, 0, 1, 2, 0]]
  (table[row.val]?.getD [])[col.val]?.getD 0

/-- The packed instructions: of the first table, `pcmpeq` and `pcmpgt`, and those of an immediate count. -/
inductive PackedInsn
  | binary (row : Fin 3) (col : Fin 16) (rd : Fin 16) (src : XmmSource)
  | compare (eq : Bool) (size : Fin 3) (rd : Fin 16) (src : XmmSource)
  | shiftImm (size : Fin 3) (reg : Fin 8) (rd : Fin 16) (imm : Byte)

namespace PackedInsn

/-- A uop of half a register. -/
def half (opcode : Opcode) (rd rb : Reg) (size : ℕ) (cond : ℕ) : TransOp :=
  { TransOp.mk3 opcode rd rd rb Reg.zero size 0 with cond := cond }

/-- `pslldq` and `psrldq`; the immediate is a signed byte. -/
def byteShift (left : Bool) (rd : Fin 16) (imm : ℤ) : List TransOp :=
  let lo := Reg.xmml rd
  let hi := Reg.xmmh rd
  let bits (n : ℤ) : W64 := BitVec.ofInt 64 (n * 8)
  let field (n : ℤ) : ℕ := (n * 8 % 64).toNat
  if imm = 0 then [.mk3 .opNop Reg.temp0 Reg.zero Reg.zero Reg.zero 3 0]
  else if imm < 8 then
    if left then
      [.mk3 .opRotl Reg.temp0 lo Reg.imm Reg.zero 3 (bits imm),
        .init .opMaskb hi Reg.temp0 hi Reg.imm 3 0 (maskControlInfo (field (8 - imm)) (field (8 - imm)) (field (8 - imm)))
          .none,
        .mk3 .opShl lo lo Reg.imm Reg.zero 3 (bits imm)]
    else
      [.mk3 .opRotr Reg.temp0 hi Reg.imm Reg.zero 3 (bits imm),
        .init .opMaskb lo Reg.temp0 lo Reg.imm 3 0 (maskControlInfo 0 (field (8 - imm)) (field imm)) .none,
        .mk3 .opShr hi hi Reg.imm Reg.zero 3 (bits imm)]
  else if imm < 16 then
    -- one half is what the other was, shifted
    [.mk3 (if left then .opShl else .opShr) (if left then hi else lo) (if left then lo else hi) Reg.imm Reg.zero 3
        (bits (imm % 8)),
      .mk3 .opMov (if left then lo else hi) Reg.zero Reg.zero Reg.zero 3 0]
  else [.mk3 .opMov lo Reg.zero Reg.zero Reg.zero 3 0, .mk3 .opMov hi Reg.zero Reg.zero Reg.zero 3 0]

/-- `modrm_reg_to_opcode`. -/
def shiftOpcode : Fin 8 → Option Opcode
  | 2 => some .opVshr | 4 => some .opVsar | 6 => some .opVshl | _ => none

/-- A shift by an immediate count. -/
def immShift (opcode : Opcode) (sizeshift : ℕ) (rd : Fin 16) (imm : Byte) : List TransOp :=
  let shift (r : Reg) : TransOp := .mk3 opcode r r Reg.imm Reg.zero sizeshift (imm.signExtend 64)
  let fill (r : Reg) : TransOp := half .opVcmp r Reg.zero sizeshift Cond.s.code
  let clear (r : Reg) : TransOp := .mk3 .opMov r Reg.zero Reg.zero Reg.zero 3 0
  if opWidth sizeshift ≤ imm.toInt then
    if opcode = .opVsar then [fill (Reg.xmml rd), fill (Reg.xmmh rd)] else [clear (Reg.xmml rd), clear (Reg.xmmh rd)]
  else [shift (Reg.xmml rd), shift (Reg.xmmh rd)]

/-- `decode_sse`, of these; none where it makes the instruction invalid. -/
def decode (pfx : Prefixes) (rip : W64) : PackedInsn → Option (List TransOp)
  | binary row col rd src =>
    if packedCase row col then
      let uop := packedOpcode row col
      let size := packedSizeshift row col
      let isshift := uop == .opVshr || uop == .opVsar || uop == .opVshl
      some (src.load pfx rip ++
        if uop = .opXor ∧ src = .reg rd then
          [.mk3 .opXor (Reg.xmml rd) Reg.zero Reg.zero Reg.zero 3 0, .mk3 .opXor (Reg.xmmh rd) Reg.zero Reg.zero Reg.zero 3 0]
        else [half uop (Reg.xmml rd) src.low size 0, half uop (Reg.xmmh rd) (if isshift then src.low else src.high) size 0])
    else none
  | compare eq size rd src =>
    let cond := if eq then Cond.e.code else Cond.nle.code
    some (src.load pfx rip ++ [half .opVcmp (Reg.xmml rd) src.low size cond, half .opVcmp (Reg.xmmh rd) src.high size cond])
  | shiftImm size reg rd imm =>
    if size = 2 ∧ (reg = 3 ∨ reg = 7) then some (byteShift (reg == 7) rd imm.toInt)
    else (shiftOpcode reg).map fun opcode => immShift opcode (size.val + 1) rd imm

/-! ### What x86 says -/

/-- The operations of the first table. -/
def operation : Fin 3 → Fin 16 → Option PackedOp
  | 0, 1 => some (.psrl 0) | 0, 2 => some (.psrl 1) | 0, 3 => some (.psrl 2) | 0, 4 => some (.padd 3)
  | 0, 5 => some .pmullw | 0, 8 => some (.psubus 0) | 0, 9 => some (.psubus 1) | 0, 10 => some .pminub
  | 0, 11 => some .pand | 0, 12 => some (.paddus 0) | 0, 13 => some (.paddus 1) | 0, 14 => some .pmaxub
  | 0, 15 => some .pandn
  | 1, 0 => some (.pavg 0) | 1, 1 => some (.psra 0) | 1, 2 => some (.psra 1) | 1, 3 => some (.pavg 1)
  | 1, 4 => some .pmulhuw | 1, 5 => some .pmulhw | 1, 8 => some (.psubs 0) | 1, 9 => some (.psubs 1)
  | 1, 10 => some .pminsw | 1, 11 => some .por | 1, 12 => some (.padds 0) | 1, 13 => some (.padds 1)
  | 1, 14 => some .pmaxsw | 1, 15 => some .pxor
  | 2, 1 => some (.psll 0) | 2, 2 => some (.psll 1) | 2, 3 => some (.psll 2) | 2, 4 => some .pmuludq
  | 2, 5 => some .pmaddwd | 2, 6 => some .psadbw | 2, 8 => some (.psub 0) | 2, 9 => some (.psub 1)
  | 2, 10 => some (.psub 2) | 2, 11 => some (.psub 3) | 2, 12 => some (.padd 0) | 2, 13 => some (.padd 1)
  | 2, 14 => some (.padd 2)
  | _, _ => none

/-- The operation of an immediate count; there is none on the signed lanes of a quadword. -/
def immOperation (size : Fin 3) : Fin 8 → Option PackedOp
  | 2 => some (.psrl size)
  | 4 => if size = 0 then some (.psra 0) else if size = 1 then some (.psra 1) else none
  | 6 => some (.psll size)
  | _ => none

/-- The destination. -/
def rd : PackedInsn → Fin 16
  | binary _ _ rd _ | compare _ _ rd _ | shiftImm _ _ rd _ => rd

/-- The source, but of an immediate count. -/
def source : PackedInsn → Option XmmSource
  | binary _ _ _ src | compare _ _ _ src => some src
  | shiftImm _ _ _ _ => none

/-- The result, from the destination and a source `v`. -/
def result (insn : PackedInsn) (c : SeqCore) (v : XmmSource → BitVec (64 + 64)) : Option (BitVec (64 + 64)) :=
  match insn with
  | binary row col rd src => (operation row col).map fun p => p.result (SeqCore.xmm c rd) (v src)
  | compare eq size rd src => some ((if eq then PackedOp.pcmpeq size else .pcmpgt size).result (SeqCore.xmm c rd) (v src))
  | shiftImm size reg rd imm =>
    if size = 2 ∧ reg = 3 then some (SeqCore.xmm c rd >>> (8 * imm.toNat))
    else if size = 2 ∧ reg = 7 then some (SeqCore.xmm c rd <<< (8 * imm.toNat))
    else (immOperation size reg).map fun p => p.result (SeqCore.xmm c rd) (imm.setWidth (64 + 64))

/-- The result of what the uops load. -/
def made (insn : PackedInsn) (pfx : Prefixes) (rip : W64) (c : SeqCore) : Option (BitVec (64 + 64)) :=
  insn.result c fun src => src.value pfx rip c

/-- The result of the source. -/
def x86Result (insn : PackedInsn) (pfx : Prefixes) (rip : W64) (c : SeqCore) : Option (BitVec (64 + 64)) :=
  insn.result c fun src => src.x86Value pfx rip c

/-- The source of an instruction can be read, and by the uops. -/
def X86Readable (insn : PackedInsn) (pfx : Prefixes) (rip : W64) (c : SeqCore) : Prop :=
  ∀ src ∈ insn.source, src.X86Readable pfx rip c

def Readable (insn : PackedInsn) (pfx : Prefixes) (rip : W64) (c : SeqCore) : Prop :=
  ∀ src ∈ insn.source, src.Readable pfx rip c

/-- The destination has a result, and nothing else is changed. -/
structure Yields (insn : PackedInsn) (v : Option (BitVec (64 + 64))) (c c' : SeqCore) : Prop where
  result : v = some (SeqCore.xmm c' insn.rd)
  kept : ∀ r : Reg, r.isArch = true → r ≠ Reg.xmml insn.rd → r ≠ Reg.xmmh insn.rd → c'.arf r = c.arf r
  bytes : c'.space.bytes = c.space.bytes

/-- The destination has the result of x86. -/
def Right (insn : PackedInsn) (pfx : Prefixes) (rip : W64) (c c' : SeqCore) : Prop :=
  insn.Yields (insn.x86Result pfx rip c) c c'

/-- The destination has the result of what the uops load. -/
def Made (insn : PackedInsn) (pfx : Prefixes) (rip : W64) (c c' : SeqCore) : Prop :=
  insn.Yields (insn.made pfx rip c) c c'

/-- When the halves do not disturb each other: a shift by its own destination shifts the upper half as well by the
lower one shifted as by the lower one; a shift of the whole register by 128 bytes or more leaves
nothing of it where the immediate is taken modulo 8; and there is such an instruction. -/
def HalvesExact (insn : PackedInsn) (c : SeqCore) : Prop :=
  match insn with
  | binary row col rd src => ∀ p, operation row col = some p → p.isShift = true → src = .reg rd →
    p.result (c.arf (Reg.xmmh rd)) (p.result (c.arf (Reg.xmml rd)) (c.arf (Reg.xmml rd))) =
      p.result (c.arf (Reg.xmmh rd)) (c.arf (Reg.xmml rd))
  | compare _ _ _ _ => True
  | shiftImm size reg rd imm =>
    if size = 2 ∧ reg = 3 then
      imm.toNat < 128 ∨ if imm.toNat % 8 = 0 then c.arf (Reg.xmmh rd) = 0 else SeqCore.xmm c rd >>> (8 * (imm.toNat % 8)) = 0
    else if size = 2 ∧ reg = 7 then
      imm.toNat < 128 ∨ if imm.toNat % 8 = 0 then c.arf (Reg.xmml rd) = 0 else SeqCore.xmm c rd <<< (8 * (imm.toNat % 8)) = 0
    else ¬(size = 2 ∧ reg = 4)

/-- When an instruction does: what the uops load has the result of the source. -/
def Exact (insn : PackedInsn) (pfx : Prefixes) (rip : W64) (c : SeqCore) : Prop :=
  insn.Readable pfx rip c ∧ insn.made pfx rip c = insn.x86Result pfx rip c ∧ insn.HalvesExact c

/-- The tables of the code are those of the manual. -/
theorem packed_tables : ∀ row col, packedCase row col = (operation row col).isSome ∧
    ∀ p ∈ operation row col, (packedOpcode row col, packedSizeshift row col) = p.uop ∧ p.cond = 0 ∧
      (packedOpcode row col == .opVshr || packedOpcode row col == .opVsar || packedOpcode row col == .opVshl) = p.isShift ∧
      (packedOpcode row col = .opXor → p = .pxor) := by
  decide

end PackedInsn

end X86Sim
