import X86Sim.Seq.RunUops

/-!
# ALU instructions (`decode-core.cpp`, `decode-fast.cpp`)

`alu_reg_or_mem` translates the two-operand instructions and `not`, `neg`, `inc` and
`dec`; here are its cases with a register destination and a register or immediate
source, and the calls `decode_fast` makes. A high byte register is extracted into a
temporary before the operation and inserted after it.
-/

namespace X86Sim

/-- The general registers as operands (`APR_*`): by size, and the high bytes `ah` to `bh`. -/
inductive Apr
  | q (r : Fin 16) | d (r : Fin 16) | w (r : Fin 16) | b (r : Fin 16) | hi (r : Fin 4)
  deriving DecidableEq

/-- `reginfo[..].sizeshift`. -/
def Apr.sizeshift : Apr → ℕ
  | q _ => 3 | d _ => 2 | w _ => 1 | b _ => 0 | hi _ => 0

theorem Apr.one_le_word : 1 ≤ (Apr.w 0).sizeshift := Nat.le_refl 1

/-- `reginfo[..].hibyte`. -/
def Apr.hibyte : Apr → Bool
  | hi _ => true | _ => false

/-- `arch_pseudo_reg_to_arch_reg`. -/
def Apr.arch : Apr → Reg
  | q r => r.castLE sixteen_le_regs | d r => r.castLE sixteen_le_regs | w r => r.castLE sixteen_le_regs
  | b r => r.castLE sixteen_le_regs | hi r => r.castLE four_le_regs

/-- A register or immediate operand. -/
inductive RegImm
  | reg (r : Apr) | imm (imm : W64)
  deriving DecidableEq

namespace RegImm

/-- Of a source operand, the register. -/
def srcreg : RegImm → Reg
  | reg r => r.arch | imm _ => Reg.imm

/-- `rahigh`. -/
def hibyte : RegImm → Bool
  | reg r => r.hibyte | imm _ => false

/-- The immediate of the uop. -/
def rbimm : RegImm → W64
  | reg _ => 0 | imm v => v

end RegImm

/-- `FLAGS_DEFAULT_ALU`. -/
def SetFlags.default : SetFlags := ⟨true, true, true⟩

namespace TransOp

/-- The uop that moves the second byte of `r` to the first of `rd`. -/
def extractHigh (rd r : Reg) : TransOp :=
  init .opMaskb rd Reg.zero r Reg.imm 3 0 (maskControlInfo 0 8 8) .none

/-- The uop that moves the first byte of `r` to the second of `rd`. -/
def insertHigh (rd r : Reg) : TransOp :=
  init .opMaskb rd rd r Reg.imm 3 0 (maskControlInfo 56 8 56) .none

end TransOp

/-- `alu_reg_or_mem` of a register and a register or immediate. `raRbImm` is the
immediate of the three operand form. -/
def aluRegOrMem (opcode : Opcode) (rd : Apr) (ra : RegImm) (setflags : SetFlags) (rcreg : Reg)
    (flagsonly isnegop : Bool) (raRbImm : Option W64) : List TransOp :=
  let destreg := rd.arch
  let srcreg := ra.srcreg
  let rahigh := ra.hibyte
  let imm := ra.rbimm
  let sizeshift := rd.sizeshift
  let rdhigh := rd.hibyte
  let pre := (if rdhigh then [TransOp.extractHigh Reg.temp2 destreg] else []) ++
    (if rahigh then [TransOp.extractHigh Reg.temp3 srcreg] else [])
  let rareg := if rdhigh then Reg.temp2 else destreg
  let rbreg := if rahigh then Reg.temp3 else srcreg
  -- `xor` of a register with itself reads no register
  let idiom := opcode = .opXor ∧ destreg = srcreg ∧ sizeshift ≥ 2
  let rareg := if idiom then Reg.zero else rareg
  let rbreg := if idiom then Reg.zero else rbreg
  if flagsonly then pre ++ [.init opcode Reg.temp0 rareg rbreg rcreg sizeshift imm 0 setflags]
  else
    let rbreg' := if isnegop then rareg else rbreg
    let rareg' := if isnegop then Reg.zero else rareg
    match raRbImm with
    | some rbimm =>
      pre ++ [.init opcode destreg srcreg Reg.imm (if sizeshift ≥ 2 then Reg.zero else destreg)
        sizeshift rbimm 0 setflags]
    | none =>
      -- the narrow `neg` merges its result into the register afterwards
      if isnegop ∧ sizeshift ≤ 1 then
        pre ++ [.init .opSub Reg.temp0 Reg.zero destreg Reg.zero sizeshift 0 0 setflags,
          .init .opMov destreg destreg Reg.temp0 Reg.zero sizeshift 0 0 .none]
      else
        pre ++ [.init opcode (if rdhigh then Reg.temp2 else destreg) rareg' rbreg' rcreg sizeshift imm 0
          setflags] ++ (if rdhigh then [.insertHigh destreg Reg.temp2] else [])

/-- The instructions `decode_fast` hands to `alu_reg_or_mem`: the eight of the arithmetic
groups, by `subop`, and those of groups 3, 4 and 5. -/
inductive AluInsn
  | arith (subop : Fin 8) (rd : Apr) (ra : RegImm)
  | test (rd : Apr) (ra : RegImm)
  | not (rd : Apr)
  | neg (rd : Apr)
  | incdec (dec : Bool) (rd : Apr)
  deriving DecidableEq

/-- `translate_opcode`. -/
def translateOpcode : Fin 8 → Opcode
  | 0 => .opAdd | 1 => .opOr | 2 => .opAdd | 3 => .opSub
  | 4 => .opAnd | 5 => .opSub | 6 => .opXor | 7 => .opSub

/-- The uops of an instruction. -/
def AluInsn.decode : AluInsn → List TransOp
  | arith subop rd ra =>
    aluRegOrMem (translateOpcode subop) rd ra .default
      (if subop = 2 ∨ subop = 3 then Reg.cf else Reg.zero) (subop = 7) false none
  | test rd ra => aluRegOrMem .opAnd rd ra .default Reg.zero true false none
  | not rd => aluRegOrMem .opNor rd (.reg rd) .none Reg.zero false false none
  | neg rd => aluRegOrMem .opSub rd (.reg rd) .default Reg.zero false true none
  | incdec dec rd =>
    aluRegOrMem (if dec then .opSub else .opAdd) rd (.imm 1) ⟨true, false, true⟩ Reg.zero false false none

/-! ### What x86 says -/

/-- The status flags, but for AF. -/
structure Status where
  cf : Bool
  pf : Bool
  zf : Bool
  sf : Bool
  of : Bool
  deriving DecidableEq

section X86

variable {w : ℕ}

/-- The status of a result with the given carry and overflow. -/
def statusOf (r : BitVec w) (cf o : Bool) : Status :=
  ⟨cf, evenParity r, r = 0, r.msb, o⟩

/-- The carry flag as a number. -/
def carryBit (c : Bool) : BitVec w := if c then 1 else 0

/-- `a + b + c`, with a carry out of the top and an overflow of the signed sum. -/
def x86Add (a b : BitVec w) (c : Bool) : BitVec w × Status :=
  let r := a + b + carryBit c
  (r, statusOf r (2 ^ w ≤ a.toNat + b.toNat + c.toNat) (r.toInt ≠ a.toInt + b.toInt + c.toNat))

/-- `a - b - c`, with a borrow and an overflow of the signed difference. -/
def x86Sub (a b : BitVec w) (c : Bool) : BitVec w × Status :=
  let r := a - b - carryBit c
  (r, statusOf r (a.toNat < b.toNat + c.toNat) (r.toInt ≠ a.toInt - b.toInt - c.toNat))

/-- The logical operations clear carry and overflow. -/
def x86Logic (r : BitVec w) : BitVec w × Status := (r, statusOf r false false)

/-- The arithmetic groups, by `subop`. -/
def x86Arith (subop : Fin 8) (a b : BitVec w) (cf : Bool) : BitVec w × Status :=
  match subop with
  | 0 => x86Add a b false
  | 1 => x86Logic (a ||| b)
  | 2 => x86Add a b cf
  | 3 => x86Sub a b cf
  | 4 => x86Logic (a &&& b)
  | 5 => x86Sub a b false
  | 6 => x86Logic (a ^^^ b)
  | 7 => x86Sub a b false

end X86

namespace Apr

variable (p : Apr)

/-- The value of a register operand. -/
def read (v : W64) : BitVec (opWidth p.sizeshift) :=
  if p.hibyte then (v >>> 8).setWidth _ else v.setWidth _

/-- A register after its operand is written: four bytes clear the upper half. -/
def write (v : W64) (x : BitVec (opWidth p.sizeshift)) : W64 :=
  if p.hibyte then (v &&& ~~~(0xff00 : W64)) ||| (x.setWidth 64 <<< 8)
  else if p.sizeshift = 2 then x.setWidth 64
  else (v &&& ~~~((BitVec.allOnes (opWidth p.sizeshift)).setWidth 64)) ||| x.setWidth 64

end Apr

/-- The value of a source operand of width `w`. -/
def RegImm.read (ra : RegImm) (arf : Reg → W64) (w : ℕ) : BitVec w :=
  match ra with
  | .reg r => (r.read (arf r.arch)).setWidth w
  | .imm v => v.setWidth w

namespace AluInsn

/-- The destination operand. -/
def rd : AluInsn → Apr
  | arith _ rd _ | test rd _ | not rd | neg rd | incdec _ rd => rd

/-- Of the source operand: it is as wide as the destination. -/
def SizesMatch : AluInsn → Prop
  | arith _ rd (.reg r) | test rd (.reg r) => r.sizeshift = rd.sizeshift
  | _ => True

/-- Whether the result is written. -/
def writes : AluInsn → Bool
  | arith subop _ _ => subop ≠ 7
  | test .. => false
  | _ => true

/-- Result and status of an instruction on its operands, with the carry flag before it. -/
def x86 (arf : Reg → W64) (cf : Bool) :
    (insn : AluInsn) → BitVec (opWidth insn.rd.sizeshift) × Status
  | arith subop rd ra => x86Arith subop (rd.read (arf rd.arch)) (ra.read arf _) cf
  | test rd ra => x86Logic (rd.read (arf rd.arch) &&& ra.read arf _)
  | not rd => x86Logic (~~~rd.read (arf rd.arch))
  | neg rd => x86Sub 0 (rd.read (arf rd.arch)) false
  | incdec dec rd =>
    if dec then x86Sub (rd.read (arf rd.arch)) 1 false else x86Add (rd.read (arf rd.arch)) 1 false

/-- Of the flags, `not` sets none and `inc` and `dec` keep the carry. -/
def keeps : AluInsn → SetFlags
  | not _ => ⟨true, true, true⟩
  | incdec .. => ⟨false, true, false⟩
  | _ => ⟨false, false, false⟩

/-- Bit `i` of the flags after an instruction with status `s`. -/
def flagBit (insn : AluInsn) (s : Status) (old : W64) (i : ℕ) : Bool :=
  if insn.keeps.zf then old.getLsbD i
  else match i with
    | 0 => if insn.keeps.cf then old.getLsbD 0 else s.cf
    | 2 => s.pf
    | 6 => s.zf
    | 7 => s.sf
    | 11 => s.of
    | i => old.getLsbD i

end AluInsn
end X86Sim
