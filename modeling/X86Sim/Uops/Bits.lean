import X86Sim.Lib.BitStrings
import X86Sim.Uops.Shifts

/-!
# Bit tests (`uopimpl.cpp`)

`bt`, `bts`, `btr` and `btc` take the bit number modulo the width of the uop and return the
bit in the carry. The last three replace it in their first operand.
-/

namespace X86Sim

open BitStrings

section Ops

variable {w : ℕ} (ra rb : BitVec w)

/-- `lowbits(rb, log2(sizeof(T) * 8))`. -/
def bitNumber : ℕ := rb.toNat % w

/-- `exp_op_bt`. -/
def expBt : AluOut w :=
  let cf := ra.getLsbD (bitNumber rb)
  ⟨if cf then -1 else 1, cf, false⟩

/-- `exp_op_bts`. -/
def expBts : AluOut w := ⟨ra ||| .twoPow w (bitNumber rb), ra.getLsbD (bitNumber rb), false⟩

/-- `exp_op_btr`. -/
def expBtr : AluOut w := ⟨ra &&& ~~~.twoPow w (bitNumber rb), ra.getLsbD (bitNumber rb), false⟩

/-- `exp_op_btc`. -/
def expBtc : AluOut w := ⟨ra ^^^ .twoPow w (bitNumber rb), ra.getLsbD (bitNumber rb), false⟩

end Ops

/-- `x86_to_uop`. -/
inductive BitOp
  | bt | bts | btr | btc
  deriving DecidableEq

namespace BitOp

def opcode : BitOp → Opcode
  | bt => .opBt | bts => .opBts | btr => .opBtr | btc => .opBtc

def exp {w : ℕ} : BitOp → BitVec w → BitVec w → AluOut w
  | bt => expBt | bts => expBts | btr => expBtr | btc => expBtc

/-- What becomes of the bit. -/
def change : BitOp → Bool → Bool
  | bt, b => b | bts, _ => true | btr, _ => false | btc, b => !b

end BitOp

/-- `aluop` of a function that sets the carry and no other flag. -/
def bitop (f : ∀ {w : ℕ}, BitVec w → BitVec w → AluOut w) (op : TransOp) (i : UopInputs) : UopResult :=
  let out := f (i.ra.setWidth (opWidth op.size)) (i.rb.setWidth (opWidth op.size))
  ⟨x86Merge op.size i.ra (out.result.setWidth 64), if out.cf then FLAG_CF else 0⟩

/-- The implementations, with those of the bit tests. -/
def Synthop.withBits (rest : Synthop) : Synthop := fun op i =>
  match op.opcode with
  | .opBt => bitop expBt op i
  | .opBts => bitop expBts op i
  | .opBtr => bitop expBtr op i
  | .opBtc => bitop expBtc op i
  | _ => rest op i

/-! ### Their results -/

variable {w : ℕ}

theorem BitOp.exp_cf (o : BitOp) (ra rb : BitVec w) : (o.exp ra rb).cf = ra.getLsbD (bitNumber rb) := by
  cases o <;> rfl

/-- All but `bt` replace the bit. -/
theorem BitOp.exp_result {o : BitOp} (ho : o ≠ .bt) (hw : 0 < w) (ra rb : BitVec w) :
    (o.exp ra rb).result = setBit ra (bitNumber rb) (o.change (ra.getLsbD (bitNumber rb))) := by
  have hlt : bitNumber rb < w := Nat.mod_lt _ hw
  cases o with
  | bt => exact absurd rfl ho
  | bts => exact or_twoPow _ _
  | btr => exact and_not_twoPow _ _
  | btc => exact xor_twoPow hlt

/-- The flags of a bit test: the carry alone. -/
def carryWord (b : Bool) : W16 := if b then FLAG_CF else 0

theorem carryWord_bit (b : Bool) : (carryWord b).getLsbD 0 = b := by
  cases b <;> decide

theorem carryWord_inv (b : Bool) : carryWord b &&& FLAG_INV = 0 := by
  cases b <;> decide

/-- The uop of a bit test. -/
theorem exec_bit (rest : Synthop) (o : BitOp) {op : TransOp} (hop : op.opcode = o.opcode) (i : UopInputs) :
    rest.withBits.withShifts.withImpl op i = ⟨x86Merge op.size i.ra
      ((o.exp (i.ra.setWidth (opWidth op.size)) (i.rb.setWidth (opWidth op.size))).result.setWidth 64),
      carryWord ((i.ra.setWidth (opWidth op.size)).getLsbD (bitNumber (i.rb.setWidth (opWidth op.size))))⟩ := by
  rw [← o.exp_cf]
  unfold Synthop.withImpl Synthop.withShifts shiftImpl Synthop.withBits uopImpl
  cases o <;> simp only [hop, BitOp.opcode] <;> rfl

/-- The byte number of a bit string: an arithmetic shift by three. -/
theorem exec_sar3 (rest : Synthop) {op : TransOp} (hop : op.opcode = .opSar) (hsize : op.size = 3) {i : UopInputs}
    (hrb : i.rb = 3) : ∃ flags, rest.withShifts.withImpl op i = ⟨i.ra.sshiftRight 3, flags⟩ ∧ flags &&& FLAG_INV = 0 := by
  have hcount : ∀ w : ℕ, w = 64 → x86ShiftCount ((3 : W64).setWidth w) = 3 := by
    rintro w rfl
    decide
  have hw : opWidth op.size = 64 := by rw [hsize]; decide
  have hexec : rest.withShifts.withImpl op i = shiftop (fun _ v rb _ => shiftArithmeticRightOp v rb) op i := by
    unfold Synthop.withImpl Synthop.withShifts shiftImpl uopImpl
    simp only [hop]
  have hflags := shiftop_flags (fun _ v rb _ => shiftArithmeticRightOp v rb) op i
  dsimp only at hflags
  rw [hrb] at hflags
  have hdata : ∀ size, size = 3 → x86Merge size i.ra ((shiftArithmeticRightOp (i.ra.setWidth (opWidth size))
      ((3 : W64).setWidth _)).value.setWidth 64) = i.ra.sshiftRight 3 := by
    rintro size rfl
    have h3 : x86ShiftCount ((3 : W64).setWidth (opWidth 3)) = 3 := hcount _ rfl
    unfold shiftArithmeticRightOp
    dsimp only
    rw [h3, if_neg (by decide)]
    dsimp only
    rw [sshiftRight_closed]
    show (BitVec.sshiftRight (i.ra.setWidth 64) 3).setWidth 64 = _
    rw [BitVec.setWidth_eq, BitVec.setWidth_eq]
  have hinv : (shiftop (fun _ v rb _ => shiftArithmeticRightOp v rb) op i).rdflags &&& FLAG_INV = 0 := by
    rw [hflags, if_neg ?_]
    · exact Status.word_inv _
    · unfold shiftArithmeticRightOp
      rw [hcount _ hw, if_neg (by decide)]
      exact (by decide : (3 : ℕ) ≠ 0)
  rw [hexec]
  refine ⟨_, congrArg₂ UopResult.mk ?_ rfl, hinv⟩
  rw [hrb]
  exact hdata _ hsize

end X86Sim
