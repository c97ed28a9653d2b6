import Mathlib.Algebra.Order.Ring.Abs
import X86Sim.Lib.Lanes
import X86Sim.Uops.Branches
import X86Sim.Uops.Shifts

/-!
# Vector uops (`uopimpl.cpp`)

The vector uops work on the lanes of one 64-bit register. What they compute is compared
with the lane functions of the manual, which are given over the integers.
-/

namespace X86Sim

open Lanes

/-! ### The implementations -/

section Ops

variable {w : ℕ} (a b : BitVec w)

/-- `saturate`: a wide intermediate, signed, clamped to the range of the lane. -/
def saturate (w : ℕ) (lo hi v : W64) : BitVec w := (if v.slt lo then lo else if hi.slt v then hi else v).setWidth w

def saturateUnsigned (w : ℕ) (v : W64) : BitVec w := saturate w 0 (BitVec.ofInt 64 (2 ^ w - 1)) v
def saturateSigned (w : ℕ) (v : W64) : BitVec w :=
  saturate w (BitVec.ofInt 64 (-2 ^ (w - 1))) (BitVec.ofInt 64 (2 ^ (w - 1) - 1)) v

/-- The lane operations of `make_vec_implmap`. -/
def vaddUs : BitVec w := saturateUnsigned w (a.setWidth 64 + b.setWidth 64)
def vsubUs : BitVec w := saturateUnsigned w (a.setWidth 64 - b.setWidth 64)
def vaddSs : BitVec w := saturateSigned w (a.signExtend 64 + b.signExtend 64)
def vsubSs : BitVec w := saturateSigned w (a.signExtend 64 - b.signExtend 64)
def vavg : BitVec w := ((a.setWidth 64 + b.setWidth 64 + 1) >>> 1).setWidth w
def vmin : BitVec w := if b < a then b else a
def vmax : BitVec w := if a < b then b else a
def vminS : BitVec w := if b.slt a then b else a
def vmaxS : BitVec w := if a.slt b then b else a
def vmull : BitVec w := (a.signExtend 64 * b.signExtend 64).setWidth w
def vmulh : BitVec w := ((a.signExtend 64 * b.signExtend 64).sshiftRight w).setWidth w
def vmulhu : BitVec w := ((a.setWidth 64 * b.setWidth 64) >>> w).setWidth w

/-- `compare_and_gen_flags`. -/
def compareAndGenFlags : W16 :=
  let result := a - b
  let signBit := (1 : BitVec w) <<< (w - 1)
  let cf := a < b
  let of := (a ^^^ b) &&& (a ^^^ result) &&& signBit ≠ 0
  x86Genflags result ||| (if cf then FLAG_CF else 0) ||| (if of then FLAG_OF else 0)

end Ops

/-- The lanes of a size in a register. -/
def laneCount (size : ℕ) : ℕ := 2 ^ (3 - size)

/-- `vecop`. -/
def vecop (f : ∀ {w : ℕ}, BitVec w → BitVec w → BitVec w) (size : ℕ) (i : UopInputs) : UopResult :=
  ⟨zip (opWidth size) (laneCount size) f i.ra i.rb, 0⟩

/-- `VecShift`. -/
inductive VecShift
  | left | right | rightArith
  deriving DecidableEq

/-- A lane shifted by the whole of `rb`. -/
def VecShift.lane (kind : VecShift) {w : ℕ} (rb : W64) (a : BitVec w) : BitVec w :=
  match kind with
  | .left => if rb.toNat < w then a <<< rb.toNat else 0
  | .right => if rb.toNat < w then a >>> rb.toNat else 0
  | .rightArith => a.sshiftRight (min rb.toNat (w - 1))

/-- `vecshift`. -/
def vecshift (kind : VecShift) (size : ℕ) (i : UopInputs) : UopResult :=
  ⟨map (opWidth size) (laneCount size) (kind.lane i.rb) i.ra, 0⟩

/-- `uop_impl_vmaddp_w`. -/
def vmaddpW (i : UopInputs) : UopResult :=
  let product (k : ℕ) : BitVec 32 := (lane 16 i.ra k).signExtend 32 * (lane 16 i.rb k).signExtend 32
  ⟨ofLanes 64 (fun k => product (2 * k) + product (2 * k + 1)) 2, 0⟩

/-- `uop_impl_vsad_w`. -/
def vsadW (i : UopInputs) : UopResult :=
  let diff (k : ℕ) : Byte :=
    if lane 8 i.rb k < lane 8 i.ra k then lane 8 i.ra k - lane 8 i.rb k else lane 8 i.rb k - lane 8 i.ra k
  ⟨(List.range 8).foldl (fun (sum : W64) k => sum + (diff k).setWidth 64) 0, 0⟩

/-- `uop_impl_vcmp`. -/
def vcmp (cond : Cond) (size : ℕ) (i : UopInputs) : UopResult :=
  let passed (k : ℕ) : Bool :=
    let flags := compareAndGenFlags (lane (opWidth size) i.ra k) (lane (opWidth size) i.rb k)
    evaluateCond cond flags flags
  let rd : W64 := shiftIn 64 (fun k => if passed k then BitVec.allOnes (opWidth size) else 0) (laneCount size)
  ⟨rd, x86Genflags rd⟩

/-- `uop_impl_mulhl`. -/
def mulhl (size : ℕ) (i : UopInputs) : UopResult :=
  let z := (i.ra.setWidth (opWidth size)).setWidth 64 * (i.rb.setWidth (opWidth size)).setWidth 64
  ⟨z, x86Genflags z⟩

/-- The rows of `make_vec_implmap`: sizes without an implementation do nothing. -/
def vecSized (sizes : List ℕ) (size : ℕ) (f : UopInputs → UopResult) : UopInputs → UopResult :=
  if size ∈ sizes then f else fun _ => ⟨0, 0⟩

/-- `get_synthcode_for_uop`, of the vector uops. -/
def vecImpl (op : TransOp) : Option (UopInputs → UopResult) :=
  let size := op.size
  match op.opcode with
  | .opVadd => some (vecop (· + ·) size)
  | .opVsub => some (vecop (· - ·) size)
  | .opVaddUs => some (vecSized [0, 1] size (vecop vaddUs size))
  | .opVsubUs => some (vecSized [0, 1] size (vecop vsubUs size))
  | .opVaddSs => some (vecSized [0, 1] size (vecop vaddSs size))
  | .opVsubSs => some (vecSized [0, 1] size (vecop vsubSs size))
  | .opVshl => some (vecSized [1, 2, 3] size (vecshift .left size))
  | .opVshr => some (vecSized [1, 2, 3] size (vecshift .right size))
  | .opVsar => some (vecSized [1, 2] size (vecshift .rightArith size))
  | .opVavg => some (vecSized [0, 1] size (vecop vavg size))
  | .opVcmp => some (vcmp (.ofCode op.cond) size)
  | .opVmin => some (vecSized [0] size (vecop vmin size))
  | .opVmax => some (vecSized [0] size (vecop vmax size))
  | .opVminS => some (vecSized [1] size (vecop vminS size))
  | .opVmaxS => some (vecSized [1] size (vecop vmaxS size))
  | .opVmull => some (vecSized [1] size (vecop vmull size))
  | .opVmulh => some (vecSized [1] size (vecop vmulh size))
  | .opVmulhu => some (vecSized [1] size (vecop vmulhu size))
  | .opVmaddp => some (vecSized [1] size vmaddpW)
  | .opVsad => some (vecSized [1] size vsadW)
  | .opMulhl => some (mulhl size)
  | _ => none

/-- The implementations, with those of the vector uops. -/
def Synthop.withVectors (rest : Synthop) : Synthop := fun op i =>
  match vecImpl op with
  | some f => f i
  | none => rest op i

/-! ### What x86 says -/

/-- The packed operations, with the size of their lanes where there is a choice. -/
inductive PackedOp
  | padd (size : Fin 4) | psub (size : Fin 4) | paddus (size : Fin 2) | psubus (size : Fin 2)
  | padds (size : Fin 2) | psubs (size : Fin 2) | pavg (size : Fin 2) | pminub | pmaxub | pminsw | pmaxsw
  | pmullw | pmulhw | pmulhuw | pmuludq | pmaddwd | psadbw | pand | pandn | por | pxor
  | pcmpeq (size : Fin 3) | pcmpgt (size : Fin 3)
  | psll (size : Fin 3) | psrl (size : Fin 3) | psra (size : Fin 2)
  deriving DecidableEq

/-- An integer in a range, or the end of the range it is beyond. -/
def clamp (lo hi v : ℤ) : ℤ := max lo (min hi v)

namespace PackedOp

section Lane

variable {w : ℕ} (a b : BitVec w)

def addUnsigned : BitVec w := BitVec.ofInt w (clamp 0 (2 ^ w - 1) (a.toNat + b.toNat))
def subUnsigned : BitVec w := BitVec.ofInt w (clamp 0 (2 ^ w - 1) (a.toNat - b.toNat))
def addSigned : BitVec w := BitVec.ofInt w (clamp (-2 ^ (w - 1)) (2 ^ (w - 1) - 1) (a.toInt + b.toInt))
def subSigned : BitVec w := BitVec.ofInt w (clamp (-2 ^ (w - 1)) (2 ^ (w - 1) - 1) (a.toInt - b.toInt))
def average : BitVec w := BitVec.ofNat w ((a.toNat + b.toNat + 1) / 2)
def minUnsigned : BitVec w := BitVec.ofNat w (min a.toNat b.toNat)
def maxUnsigned : BitVec w := BitVec.ofNat w (max a.toNat b.toNat)
def minSigned : BitVec w := BitVec.ofInt w (min a.toInt b.toInt)
def maxSigned : BitVec w := BitVec.ofInt w (max a.toInt b.toInt)
def mulHighSigned : BitVec w := BitVec.ofInt w (a.toInt * b.toInt / 2 ^ w)
def mulHighUnsigned : BitVec w := BitVec.ofNat w (a.toNat * b.toNat / 2 ^ w)
def mask (p : Bool) : BitVec w := if p then BitVec.allOnes w else 0

end Lane

/-- The result of a packed operation on words of `n` bytes. The counts of shifts are in the low quadword. -/
def result (p : PackedOp) {W : ℕ} (a b : BitVec W) : BitVec W :=
  let zip (size : ℕ) (f : BitVec (opWidth size) → BitVec (opWidth size) → BitVec (opWidth size)) : BitVec W :=
    Lanes.zip (opWidth size) (W / opWidth size) f a b
  let map (size : ℕ) (f : BitVec (opWidth size) → BitVec (opWidth size)) : BitVec W :=
    Lanes.map (opWidth size) (W / opWidth size) f a
  let count := (lane 64 b 0).toNat
  match p with
  | padd size => zip size (· + ·)
  | psub size => zip size (· - ·)
  | paddus size => zip size addUnsigned
  | psubus size => zip size subUnsigned
  | padds size => zip size addSigned
  | psubs size => zip size subSigned
  | pavg size => zip size average
  | pminub => zip 0 minUnsigned
  | pmaxub => zip 0 maxUnsigned
  | pminsw => zip 1 minSigned
  | pmaxsw => zip 1 maxSigned
  | pmullw => zip 1 (· * ·)
  | pmulhw => zip 1 mulHighSigned
  | pmulhuw => zip 1 mulHighUnsigned
  | pmuludq => ofLanes W (fun k => BitVec.ofNat 64 ((lane 32 a (2 * k)).toNat * (lane 32 b (2 * k)).toNat)) (W / 64)
  | pmaddwd => ofLanes W (fun k => BitVec.ofInt 32 ((lane 16 a (2 * k)).toInt * (lane 16 b (2 * k)).toInt +
      (lane 16 a (2 * k + 1)).toInt * (lane 16 b (2 * k + 1)).toInt)) (W / 32)
  | psadbw => ofLanes W (fun k => BitVec.ofNat 64 ((List.range 8).map fun j =>
      ((lane 8 a (8 * k + j)).toNat - (lane 8 b (8 * k + j)).toNat : ℤ).natAbs).sum) (W / 64)
  | pand => a &&& b
  | pandn => ~~~a &&& b
  | por => a ||| b
  | pxor => a ^^^ b
  | pcmpeq size => zip size fun x y => mask (x == y)
  | pcmpgt size => zip size fun x y => mask (decide (y.toInt < x.toInt))
  | psll size => map (size + 1) fun x => x <<< count
  | psrl size => map (size + 1) fun x => x >>> count
  | psra size => map (size + 1) fun x => x.sshiftRight count

/-- The uop and its size. -/
def uop : PackedOp → Opcode × ℕ
  | padd size => (.opVadd, size) | psub size => (.opVsub, size)
  | paddus size => (.opVaddUs, size) | psubus size => (.opVsubUs, size)
  | padds size => (.opVaddSs, size) | psubs size => (.opVsubSs, size)
  | pavg size => (.opVavg, size)
  | pminub => (.opVmin, 0) | pmaxub => (.opVmax, 0) | pminsw => (.opVminS, 1) | pmaxsw => (.opVmaxS, 1)
  | pmullw => (.opVmull, 1) | pmulhw => (.opVmulh, 1) | pmulhuw => (.opVmulhu, 1)
  | pmuludq => (.opMulhl, 2) | pmaddwd => (.opVmaddp, 1) | psadbw => (.opVsad, 1)
  | pand => (.opAnd, 3) | pandn => (.opAndnot, 3) | por => (.opOr, 3) | pxor => (.opXor, 3)
  | pcmpeq size => (.opVcmp, size) | pcmpgt size => (.opVcmp, size)
  | psll size => (.opVshl, size + 1) | psrl size => (.opVshr, size + 1) | psra size => (.opVsar, size + 1)

/-! ### The lanes -/

section Lane

variable {w : ℕ} (a b : BitVec w)

theorem setWidth_eq_ofInt (hw : w ≤ 64) (v : W64) : v.setWidth w = BitVec.ofInt w v.toInt := by
  apply BitVec.eq_of_toInt_eq
  rw [BitVec.toInt_setWidth, BitVec.toInt_ofInt, BitVec.toInt_eq_toNat_bmod, Int.bmod_bmod_of_dvd (by exact_mod_cast Nat.pow_dvd_pow 2 hw)]

theorem toInt_ofInt {n : ℤ} (h : -2 ^ 63 ≤ n) (h' : n < 2 ^ 63) : (BitVec.ofInt 64 n).toInt = n :=
  BitVec.toInt_ofInt_eq_self (by decide) h h'

theorem saturate_eq (hw : w ≤ 64) {lo hi : ℤ} (hlo : -2 ^ 63 ≤ lo) (hle : lo ≤ hi) (hhi : hi < 2 ^ 63) (v : W64) :
    saturate w (BitVec.ofInt 64 lo) (BitVec.ofInt 64 hi) v = BitVec.ofInt w (clamp lo hi v.toInt) := by
  unfold saturate clamp
  rw [setWidth_eq_ofInt hw]
  simp only [BitVec.slt_iff_toInt_lt, toInt_ofInt hlo (by omega), toInt_ofInt (by omega) hhi]
  congr 1
  split
  · rw [toInt_ofInt hlo (by omega)]
    omega
  · split
    · rw [toInt_ofInt (by omega) hhi]
      omega
    · omega

theorem zext_eq (hw : w ≤ 32) : a.setWidth 64 = BitVec.ofInt 64 a.toNat := by
  apply BitVec.eq_of_toNat_eq
  have ha := a.isLt
  have hp : 2 ^ w ≤ 2 ^ 32 := Nat.pow_le_pow_right (by decide) hw
  rw [BitVec.toNat_setWidth, BitVec.toNat_ofInt]
  omega

theorem sext_eq {v : ℕ} (hw : w ≤ v) : a.signExtend v = BitVec.ofInt v a.toInt := by
  rw [← BitVec.toInt_signExtend_of_le hw, BitVec.ofInt_toInt]

/-- Bounds of a lane. -/
theorem nat_lt (hw : w ≤ 16) : (a.toNat : ℤ) < 2 ^ 16 := by
  have ha := a.isLt
  have hp : 2 ^ w ≤ 2 ^ 16 := Nat.pow_le_pow_right (by decide) hw
  omega

theorem int_lt (hw : w ≤ 16) : -2 ^ 16 < a.toInt ∧ a.toInt < 2 ^ 16 := by
  have ha := @BitVec.toInt_eq_toNat_cond w a
  have hlt := a.isLt
  have hp : 2 ^ w ≤ 2 ^ 16 := Nat.pow_le_pow_right (by decide) hw
  split at ha <;> omega

theorem range_unsigned (hw : w ≤ 16) : 0 ≤ (2 ^ w - 1 : ℤ) ∧ (2 ^ w - 1 : ℤ) < 2 ^ 63 := by
  have hp : 2 ^ w ≤ 2 ^ 16 := Nat.pow_le_pow_right (by decide) hw
  have hpos : 0 < 2 ^ w := Nat.two_pow_pos w
  have hcast : ((2 ^ w : ℕ) : ℤ) = 2 ^ w := by push_cast; rfl
  omega

theorem range_signed (hw : w ≤ 16) : -2 ^ 63 ≤ (-2 ^ (w - 1) : ℤ) ∧ (-2 ^ (w - 1) : ℤ) ≤ 2 ^ (w - 1) - 1 ∧
    (2 ^ (w - 1) - 1 : ℤ) < 2 ^ 63 := by
  have hp : 2 ^ (w - 1) ≤ 2 ^ 16 := Nat.pow_le_pow_right (by decide) (by omega)
  have hpos : 0 < 2 ^ (w - 1) := Nat.two_pow_pos _
  have hcast : ((2 ^ (w - 1) : ℕ) : ℤ) = 2 ^ (w - 1) := by push_cast; rfl
  omega

theorem ofInt_sub (n : ℕ) (x y : ℤ) : BitVec.ofInt n (x - y) = BitVec.ofInt n x - BitVec.ofInt n y := by
  rw [sub_eq_add_neg, BitVec.ofInt_add, BitVec.ofInt_neg, BitVec.sub_eq_add_neg]

theorem vaddUs_eq (hw : w ≤ 16) : vaddUs a b = addUnsigned a b := by
  have hr := range_unsigned hw
  have ha := nat_lt a hw
  have hb := nat_lt b hw
  have hzero : (0 : W64) = BitVec.ofInt 64 0 := rfl
  unfold vaddUs saturateUnsigned addUnsigned
  rw [zext_eq a (by omega), zext_eq b (by omega), ← BitVec.ofInt_add, hzero,
    saturate_eq (by omega) (by decide) hr.1 hr.2, toInt_ofInt (by omega) (by omega)]

theorem vsubUs_eq (hw : w ≤ 16) : vsubUs a b = subUnsigned a b := by
  have hr := range_unsigned hw
  have ha := nat_lt a hw
  have hb := nat_lt b hw
  have hzero : (0 : W64) = BitVec.ofInt 64 0 := rfl
  unfold vsubUs saturateUnsigned subUnsigned
  rw [zext_eq a (by omega), zext_eq b (by omega), ← ofInt_sub, hzero,
    saturate_eq (by omega) (by decide) hr.1 hr.2, toInt_ofInt (by omega) (by omega)]

theorem vaddSs_eq (hw : w ≤ 16) : vaddSs a b = addSigned a b := by
  have hr := range_signed hw
  have ha := int_lt a hw
  have hb := int_lt b hw
  unfold vaddSs saturateSigned addSigned
  rw [sext_eq a (by omega), sext_eq b (by omega), ← BitVec.ofInt_add,
    saturate_eq (by omega) hr.1 hr.2.1 hr.2.2, toInt_ofInt (by omega) (by omega)]

theorem vsubSs_eq (hw : w ≤ 16) : vsubSs a b = subSigned a b := by
  have hr := range_signed hw
  have ha := int_lt a hw
  have hb := int_lt b hw
  unfold vsubSs saturateSigned subSigned
  rw [sext_eq a (by omega), sext_eq b (by omega), ← ofInt_sub,
    saturate_eq (by omega) hr.1 hr.2.1 hr.2.2, toInt_ofInt (by omega) (by omega)]

theorem vavg_eq (hw : w ≤ 16) : vavg a b = average a b := by
  have ha := nat_lt a hw
  have hb := nat_lt b hw
  have hwide : (a.setWidth 64 + b.setWidth 64 + 1).toNat = a.toNat + b.toNat + 1 := by
    have h1 : (1 : W64).toNat = 1 := by decide
    rw [BitVec.toNat_add, BitVec.toNat_add, BitVec.toNat_setWidth, BitVec.toNat_setWidth, h1]
    omega
  unfold vavg average
  apply BitVec.eq_of_toNat_eq
  rw [BitVec.toNat_setWidth, BitVec.toNat_ushiftRight, hwide, BitVec.toNat_ofNat, Nat.shiftRight_one]

theorem vmin_eq : vmin a b = minUnsigned a b := by
  unfold vmin minUnsigned
  split
  · rename_i h
    rw [Nat.min_eq_right (le_of_lt (BitVec.lt_def.1 h)), BitVec.ofNat_toNat, BitVec.setWidth_eq]
  · rename_i h
    rw [Nat.min_eq_left (Nat.not_lt.1 fun hlt => h (BitVec.lt_def.2 hlt)), BitVec.ofNat_toNat, BitVec.setWidth_eq]

theorem vmax_eq : vmax a b = maxUnsigned a b := by
  unfold vmax maxUnsigned
  split
  · rename_i h
    rw [Nat.max_eq_right (le_of_lt (BitVec.lt_def.1 h)), BitVec.ofNat_toNat, BitVec.setWidth_eq]
  · rename_i h
    rw [Nat.max_eq_left (Nat.not_lt.1 fun hlt => h (BitVec.lt_def.2 hlt)), BitVec.ofNat_toNat, BitVec.setWidth_eq]

theorem vminS_eq : vminS a b = minSigned a b := by
  unfold vminS minSigned
  split
  · rename_i h
    rw [min_eq_right (le_of_lt (BitVec.slt_iff_toInt_lt.1 h)), BitVec.ofInt_toInt]
  · rename_i h
    rw [min_eq_left (not_lt.1 fun hlt => h (BitVec.slt_iff_toInt_lt.2 hlt)), BitVec.ofInt_toInt]

theorem vmaxS_eq : vmaxS a b = maxSigned a b := by
  unfold vmaxS maxSigned
  split
  · rename_i h
    rw [max_eq_right (le_of_lt (BitVec.slt_iff_toInt_lt.1 h)), BitVec.ofInt_toInt]
  · rename_i h
    rw [max_eq_left (not_lt.1 fun hlt => h (BitVec.slt_iff_toInt_lt.2 hlt)), BitVec.ofInt_toInt]

theorem setWidth_signExtend (hw : w ≤ 64) : (a.signExtend 64).setWidth w = a := by
  rw [setWidth_eq_ofInt hw, BitVec.toInt_signExtend_of_le hw, BitVec.ofInt_toInt]

theorem vmull_eq (hw : w ≤ 64) : vmull a b = a * b := by
  unfold vmull
  rw [BitVec.setWidth_mul _ _ hw, setWidth_signExtend a hw, setWidth_signExtend b hw]

/-- The product of two lanes fits. -/
theorem toInt_product (hw : w ≤ 16) : (a.signExtend 64 * b.signExtend 64).toInt = a.toInt * b.toInt := by
  have ha := int_lt a hw
  have hb := int_lt b hw
  have hprod : |a.toInt * b.toInt| ≤ 2 ^ 16 * 2 ^ 16 := by
    rw [abs_mul]
    exact mul_le_mul (abs_le.2 ⟨by omega, by omega⟩) (abs_le.2 ⟨by omega, by omega⟩) (abs_nonneg _) (by decide)
  have hbound := abs_le.1 hprod
  rw [sext_eq a (by omega), sext_eq b (by omega), ← BitVec.ofInt_mul, toInt_ofInt (by omega) (by omega)]

theorem vmulh_eq (hw : w ≤ 16) : vmulh a b = mulHighSigned a b := by
  unfold vmulh mulHighSigned
  rw [setWidth_eq_ofInt (by omega), BitVec.toInt_sshiftRight, toInt_product a b hw, Int.shiftRight_eq_div_pow]
  push_cast
  rfl

theorem toNat_product (hw : w ≤ 32) : (a.setWidth 64 * b.setWidth 64).toNat = a.toNat * b.toNat := by
  have hp : 2 ^ w ≤ 2 ^ 32 := Nat.pow_le_pow_right (by decide) hw
  have ha : a.toNat < 2 ^ 32 := lt_of_lt_of_le a.isLt hp
  have hb : b.toNat < 2 ^ 32 := lt_of_lt_of_le b.isLt hp
  have hprod : a.toNat * b.toNat < 2 ^ 32 * 2 ^ 32 := Nat.mul_lt_mul'' ha hb
  rw [BitVec.toNat_mul, BitVec.toNat_setWidth, BitVec.toNat_setWidth, Nat.mod_eq_of_lt (show a.toNat < 2 ^ 64 by omega),
    Nat.mod_eq_of_lt (show b.toNat < 2 ^ 64 by omega), Nat.mod_eq_of_lt (by omega)]

theorem vmulhu_eq (hw : w ≤ 32) : vmulhu a b = mulHighUnsigned a b := by
  unfold vmulhu mulHighUnsigned
  apply BitVec.eq_of_toNat_eq
  rw [BitVec.toNat_setWidth, BitVec.toNat_ushiftRight, toNat_product a b hw, BitVec.toNat_ofNat,
    Nat.shiftRight_eq_div_pow]

/-- The flags of a compare are those of `sub`. -/
theorem compareAndGenFlags_eq : compareAndGenFlags a b = subFlagGenOp a b := by
  have hof : ∀ v : Bool, (BitVec.ofBool v).setWidth 16 <<< 11 = if v then FLAG_OF else 0 := by decide
  have hcf : ∀ v : Bool, (BitVec.ofBool v).setWidth 16 = if v then FLAG_CF else 0 := by decide
  have hxor : ~~~(a ^^^ ~~~b) = a ^^^ b := by
    apply BitVec.eq_of_getLsbD_eq
    intro i hi
    simp [hi]
  have hzero : ¬ a - b < 0#w := BitVec.not_lt_zero
  unfold compareAndGenFlags subFlagGenOp aluop2
  dsimp only
  rw [hof, hcf]
  rw [hxor]
  simp only [BitVec.ofNat_eq_ofNat, BitVec.zero_and, ne_eq, not_true_eq_false, if_false, if_true, BitVec.sub_zero, hzero,
    decide_false, Bool.or_false, decide_eq_true_eq]
  ac_rfl

/-- A lane of a shift by the whole count. -/
theorem shift_left_eq (rb : W64) : VecShift.left.lane rb a = a <<< rb.toNat := by
  show (if rb.toNat < w then a <<< rb.toNat else 0) = _
  split
  · rfl
  · exact (BitVec.shiftLeft_eq_zero (by omega)).symm

theorem shift_right_eq (rb : W64) : VecShift.right.lane rb a = a >>> rb.toNat := by
  show (if rb.toNat < w then a >>> rb.toNat else 0) = _
  split
  · rfl
  · exact (BitVec.ushiftRight_eq_zero (by omega)).symm

theorem shift_arith_eq (rb : W64) : VecShift.rightArith.lane rb a = a.sshiftRight rb.toNat := by
  show a.sshiftRight (min rb.toNat (w - 1)) = _
  apply BitVec.eq_of_getLsbD_eq
  intro i hi
  rw [BitVec.getLsbD_sshiftRight, BitVec.getLsbD_sshiftRight]
  rcases Nat.le_total rb.toNat (w - 1) with hle | hle
  · rw [Nat.min_eq_left hle]
  · rw [Nat.min_eq_right hle, BitVec.msb_eq_getLsbD_last]
    by_cases h0 : i = 0
    · subst h0
      by_cases heq : rb.toNat = w - 1
      · rw [heq]
      · have hge : ¬ rb.toNat < w := by omega
        simp [hge]
    · have h1 : ¬ w - 1 + i < w := by omega
      have h2 : ¬ rb.toNat + i < w := by omega
      rw [if_neg h1, if_neg h2]

end Lane

/-! ### The uops -/

/-- The condition of the compares. -/
def cond : PackedOp → ℕ
  | pcmpeq _ => Cond.e.code
  | pcmpgt _ => Cond.nle.code
  | _ => 0

theorem laneCount_eq {size : ℕ} (hsize : size ≤ 3) : 64 / opWidth size = laneCount size := by
  interval_cases size <;> rfl

theorem laneCount_mul {size : ℕ} (hsize : size ≤ 3) : laneCount size * opWidth size = 64 := by
  interval_cases size <;> rfl

theorem lane_self {w : ℕ} (a : BitVec w) : lane w a 0 = a := by
  apply BitVec.eq_of_getLsbD_eq
  intro k hk
  rw [getLsbD_lane _ _ hk, Nat.zero_mul, Nat.zero_add]

theorem ofLanes_one {w : ℕ} (f : ℕ → BitVec w) : ofLanes w f 1 = f 0 := by
  simp [ofLanes]

theorem lane_zero (w : ℕ) (a : W64) : lane w a 0 = a.setWidth w := by
  apply BitVec.eq_of_getLsbD_eq
  intro k hk
  rw [getLsbD_lane _ _ hk, Nat.zero_mul, Nat.zero_add, BitVec.getLsbD_setWidth, decide_eq_true hk, Bool.true_and]

/-- A lane operation, given what it is of each lane. -/
theorem vecop_rddata {f : ∀ {w : ℕ}, BitVec w → BitVec w → BitVec w} {size : ℕ}
    {g : BitVec (opWidth size) → BitVec (opWidth size) → BitVec (opWidth size)} (hsize : size ≤ 3)
    (h : ∀ a b : BitVec (opWidth size), f a b = g a b) (i : UopInputs) :
    (vecop f size i).rddata = Lanes.zip (opWidth size) (64 / opWidth size) g i.ra i.rb := by
  rw [laneCount_eq hsize]
  exact ofLanes_congr fun k _ => h _ _

theorem vecshift_rddata {kind : VecShift} {size : ℕ} {g : ℕ → BitVec (opWidth size) → BitVec (opWidth size)} (hsize : size ≤ 3)
    (h : ∀ (a : BitVec (opWidth size)) (rb : W64), kind.lane rb a = g rb.toNat a) (i : UopInputs) :
    (vecshift kind size i).rddata = Lanes.map (opWidth size) (64 / opWidth size) (g (lane 64 i.rb 0).toNat) i.ra := by
  rw [laneCount_eq hsize, lane_self]
  exact ofLanes_congr fun k _ => h _ _

theorem vcmp_rddata {k : Cond} {size : ℕ} (hsize : size ≤ 3) {p : BitVec (opWidth size) → BitVec (opWidth size) → Bool}
    (h : ∀ a b, CondHolds a b k ↔ p a b = true) (i : UopInputs) :
    (vcmp k size i).rddata =
      Lanes.zip (opWidth size) (64 / opWidth size) (fun x y => mask (p x y)) i.ra i.rb := by
  rw [laneCount_eq hsize]
  refine (shiftIn_eq _ (le_of_eq (laneCount_mul hsize))).trans (ofLanes_congr fun j _ => ?_)
  have hcond := evaluateCond_sub (lane (opWidth size) i.ra j) (lane (opWidth size) i.rb j) (opWidth_pos size) k
  rw [← compareAndGenFlags_eq, h] at hcond
  exact congrArg (fun b : Bool => if b then BitVec.allOnes (opWidth size) else 0) (Bool.eq_iff_iff.2 hcond)

theorem mulhl_rddata (i : UopInputs) : (mulhl 2 i).rddata = pmuludq.result i.ra i.rb := by
  show (i.ra.setWidth 32).setWidth 64 * (i.rb.setWidth 32).setWidth 64 = ofLanes 64 _ 1
  rw [ofLanes_one, Nat.mul_zero, lane_zero, lane_zero]
  apply BitVec.eq_of_toNat_eq
  have hprod := toNat_product (i.ra.setWidth 32) (i.rb.setWidth 32) le_rfl
  rw [BitVec.toNat_ofNat, ← hprod, Nat.mod_eq_of_lt (BitVec.isLt _)]

theorem vmaddp_rddata (i : UopInputs) : (vmaddpW i).rddata = pmaddwd.result i.ra i.rb := by
  show ofLanes 64 _ 2 = ofLanes 64 _ 2
  refine ofLanes_congr fun k _ => ?_
  have hterm : ∀ j, (lane 16 i.ra j).signExtend 32 * (lane 16 i.rb j).signExtend 32 =
      BitVec.ofInt 32 ((lane 16 i.ra j).toInt * (lane 16 i.rb j).toInt) := fun j => by
    rw [sext_eq _ (by decide), sext_eq _ (by decide), BitVec.ofInt_mul]
  dsimp only
  rw [hterm, hterm, BitVec.ofInt_add]

/-- The difference of two bytes. -/
theorem diff_eq (a b : Byte) : (if b < a then a - b else b - a).setWidth 64 =
    BitVec.ofNat 64 (a.toNat - b.toNat : ℤ).natAbs := by
  have ha := a.isLt
  have hb := b.isLt
  apply BitVec.eq_of_toNat_eq
  rw [BitVec.toNat_setWidth, BitVec.toNat_ofNat]
  congr 1
  split
  · rename_i h
    have hlt : b.toNat < a.toNat := BitVec.lt_def.1 h
    rw [BitVec.toNat_sub]
    omega
  · rename_i h
    have hle : a.toNat ≤ b.toNat := Nat.not_lt.1 fun hlt => h (BitVec.lt_def.2 hlt)
    rw [BitVec.toNat_sub]
    omega

theorem foldl_add (g : ℕ → ℕ) (l : List ℕ) (m : ℕ) :
    l.foldl (fun (sum : W64) k => sum + BitVec.ofNat 64 (g k)) (BitVec.ofNat 64 m) = BitVec.ofNat 64 (m + (l.map g).sum) := by
  induction l generalizing m with
  | nil => rfl
  | cons k l ih =>
    rw [List.foldl_cons, ← BitVec.ofNat_add, ih, List.map_cons, List.sum_cons, Nat.add_assoc]

theorem vsad_rddata (i : UopInputs) : (vsadW i).rddata = psadbw.result i.ra i.rb := by
  show _ = ofLanes 64 _ 1
  rw [ofLanes_one]
  have hfold := foldl_add (fun k => ((lane 8 i.ra k).toNat - (lane 8 i.rb k).toNat : ℤ).natAbs) (List.range 8) 0
  rw [Nat.zero_add] at hfold
  simp only [Nat.mul_zero, Nat.zero_add]
  rw [← hfold]
  unfold vsadW
  dsimp only
  simp only [diff_eq]
  rfl


/-- The uops of the vector unit, after those of the ALU. -/
theorem exec_vec (rest : Synthop) {op : TransOp} {f : UopInputs → UopResult} (hu : uopImpl op = none)
    (hs : shiftImpl op = none) (hv : vecImpl op = some f) (i : UopInputs) :
    rest.withVectors.withShifts.withImpl op i = f i := by
  unfold Synthop.withImpl Synthop.withShifts Synthop.withVectors
  rw [hu, hs, hv]

theorem genflags_inv {w : ℕ} (r : BitVec w) : x86Genflags r &&& FLAG_INV = 0 := by
  have hall : ∀ s z p : Bool, ((if s then FLAG_SF else 0) ||| (if z then FLAG_ZF else 0) ||| (if p then FLAG_PF else 0)) &&&
      FLAG_INV = 0 := by decide
  have hinst := hall r.msb (decide (r = 0)) (evenParity r)
  simp only [decide_eq_true_eq] at hinst
  exact hinst

/-- Whether an operation is one of the vector unit. -/
def isVec : PackedOp → Bool
  | pand | pandn | por | pxor => false
  | _ => true

theorem vecSized_of {sizes : List ℕ} {size : ℕ} (h : size ∈ sizes) (f : UopInputs → UopResult) :
    vecSized sizes size f = f := if_pos h

theorem not_alu_of_vec {p : PackedOp} (hp : p.isVec = true) {op : TransOp} (hop : op.opcode = p.uop.1) :
    uopImpl op = none ∧ shiftImpl op = none := by
  unfold uopImpl shiftImpl
  rw [hop]
  cases p <;> first | exact ⟨rfl, rfl⟩ | cases hp

/-- What the uop of a vector operation computes. -/
theorem vecImpl_result {p : PackedOp} (hp : p.isVec = true) {op : TransOp} (hop : op.opcode = p.uop.1)
    (hsize : op.size = p.uop.2) (hcond : op.cond = p.cond) : ∃ f, vecImpl op = some f ∧
      ∀ i, (f i).rddata = p.result i.ra i.rb ∧ (f i).rdflags &&& FLAG_INV = 0 := by
  have h2 : ∀ size : Fin 2, size.val ≤ 3 ∧ opWidth size ≤ 16 ∧ size.val ∈ [0, 1] := by decide
  have h3 : ∀ size : Fin 3, size.val ≤ 3 ∧ size.val + 1 ≤ 3 ∧ size.val + 1 ∈ [1, 2, 3] := by decide
  have h2' : ∀ size : Fin 2, size.val + 1 ≤ 3 ∧ size.val + 1 ∈ [1, 2] := by decide
  have hzero : (0 : W16) &&& FLAG_INV = 0 := by decide
  have h16 : opWidth 1 ≤ 16 := by decide
  unfold vecImpl
  rw [hop, hsize, hcond]
  cases p with
  | padd size => exact ⟨_, rfl, fun i => ⟨vecop_rddata (Nat.le_of_lt_succ size.isLt) (fun _ _ => rfl) i, hzero⟩⟩
  | psub size => exact ⟨_, rfl, fun i => ⟨vecop_rddata (Nat.le_of_lt_succ size.isLt) (fun _ _ => rfl) i, hzero⟩⟩
  | paddus size =>
    exact ⟨_, congrArg some (vecSized_of (h2 size).2.2 _), fun i =>
      ⟨vecop_rddata (h2 size).1 (fun a b => vaddUs_eq a b (h2 size).2.1) i, hzero⟩⟩
  | psubus size =>
    exact ⟨_, congrArg some (vecSized_of (h2 size).2.2 _), fun i =>
      ⟨vecop_rddata (h2 size).1 (fun a b => vsubUs_eq a b (h2 size).2.1) i, hzero⟩⟩
  | padds size =>
    exact ⟨_, congrArg some (vecSized_of (h2 size).2.2 _), fun i =>
      ⟨vecop_rddata (h2 size).1 (fun a b => vaddSs_eq a b (h2 size).2.1) i, hzero⟩⟩
  | psubs size =>
    exact ⟨_, congrArg some (vecSized_of (h2 size).2.2 _), fun i =>
      ⟨vecop_rddata (h2 size).1 (fun a b => vsubSs_eq a b (h2 size).2.1) i, hzero⟩⟩
  | pavg size =>
    exact ⟨_, congrArg some (vecSized_of (h2 size).2.2 _), fun i =>
      ⟨vecop_rddata (h2 size).1 (fun a b => vavg_eq a b (h2 size).2.1) i, hzero⟩⟩
  | pminub => exact ⟨_, rfl, fun i => ⟨vecop_rddata (by decide) (fun a b => vmin_eq a b) i, hzero⟩⟩
  | pmaxub => exact ⟨_, rfl, fun i => ⟨vecop_rddata (by decide) (fun a b => vmax_eq a b) i, hzero⟩⟩
  | pminsw => exact ⟨_, rfl, fun i => ⟨vecop_rddata (by decide) (fun a b => vminS_eq a b) i, hzero⟩⟩
  | pmaxsw => exact ⟨_, rfl, fun i => ⟨vecop_rddata (by decide) (fun a b => vmaxS_eq a b) i, hzero⟩⟩
  | pmullw => exact ⟨_, rfl, fun i => ⟨vecop_rddata (by decide) (fun a b => vmull_eq a b (by decide)) i, hzero⟩⟩
  | pmulhw => exact ⟨_, rfl, fun i => ⟨vecop_rddata (by decide) (fun a b => vmulh_eq a b h16) i, hzero⟩⟩
  | pmulhuw => exact ⟨_, rfl, fun i => ⟨vecop_rddata (by decide) (fun a b => vmulhu_eq a b (by decide)) i, hzero⟩⟩
  -- these take more than one lane of their operands, or none of a size
  | pmuludq => exact ⟨_, rfl, fun i => ⟨mulhl_rddata i, genflags_inv _⟩⟩
  | pmaddwd => exact ⟨_, rfl, fun i => ⟨vmaddp_rddata i, hzero⟩⟩
  | psadbw => exact ⟨_, rfl, fun i => ⟨vsad_rddata i, hzero⟩⟩
  | pand | pandn | por | pxor => cases hp
  | pcmpeq size =>
    have heq : ∀ a b : BitVec (opWidth size), CondHolds a b .e ↔ (a == b) = true := fun a b =>
      BitVec.toNat_inj.trans beq_iff_eq.symm
    exact ⟨_, rfl, fun i => ⟨vcmp_rddata (h3 size).1 heq i, genflags_inv _⟩⟩
  | pcmpgt size =>
    have hgt : ∀ a b : BitVec (opWidth size), CondHolds a b .nle ↔ decide (b.toInt < a.toInt) = true := fun a b =>
      ⟨fun h => @decide_eq_true (b.toInt < a.toInt) _ h, fun h => @of_decide_eq_true (b.toInt < a.toInt) _ h⟩
    exact ⟨_, rfl, fun i => ⟨vcmp_rddata (h3 size).1 hgt i, genflags_inv _⟩⟩
  | psll size =>
    exact ⟨_, congrArg some (vecSized_of (h3 size).2.2 _), fun i =>
      ⟨vecshift_rddata (g := fun n a => a <<< n) (h3 size).2.1 (fun a rb => shift_left_eq a rb) i, hzero⟩⟩
  | psrl size =>
    exact ⟨_, congrArg some (vecSized_of (h3 size).2.2 _), fun i =>
      ⟨vecshift_rddata (g := fun n a => a >>> n) (h3 size).2.1 (fun a rb => shift_right_eq a rb) i, hzero⟩⟩
  | psra size =>
    exact ⟨_, congrArg some (vecSized_of (h2' size).2 _), fun i =>
      ⟨vecshift_rddata (g := fun n a => a.sshiftRight n) (h2' size).1 (fun a rb => shift_arith_eq a rb) i, hzero⟩⟩

/-- A logic uop of quadwords sets no flags of its own. -/
theorem expAluop_quad (f : ∀ w, BitVec w → BitVec w → BitVec w) {op : TransOp} (hsize : op.size = 3)
    (hset : op.setflags = .none) (i : UopInputs) : expAluop f op i = ⟨f 64 i.ra i.rb, 0⟩ := by
  unfold expAluop
  have hgen : SetFlags.none.gen .zaps = .none := by decide
  rw [hsize, hset, hgen]
  refine congrArg₂ UopResult.mk ?_ (by simp [SetFlags.none])
  show (f 64 (i.ra.setWidth 64) (i.rb.setWidth 64)).setWidth 64 = _
  rw [BitVec.setWidth_eq, BitVec.setWidth_eq, BitVec.setWidth_eq]

/-- **The uop of a packed operation computes it**, on either half. -/
theorem exec_packed (rest : Synthop) (p : PackedOp) {op : TransOp} (hop : op.opcode = p.uop.1) (hsize : op.size = p.uop.2)
    (hcond : op.cond = p.cond) (hset : op.setflags = .none) (i : UopInputs) :
    (rest.withVectors.withShifts.withImpl op i).rddata = p.result i.ra i.rb ∧
      (rest.withVectors.withShifts.withImpl op i).rdflags &&& FLAG_INV = 0 := by
  cases hp : p.isVec with
  | true =>
    obtain ⟨f, hf, hresult⟩ := vecImpl_result hp hop hsize hcond
    obtain ⟨hu, hs⟩ := not_alu_of_vec hp hop
    rw [exec_vec rest hu hs hf]
    exact hresult i
  | false =>
    have hzero : (0 : W16) &&& FLAG_INV = 0 := by decide
    unfold Synthop.withImpl uopImpl
    rw [hop]
    cases p with
    | pand =>
      show (expAluop _ op i).rddata = _ ∧ (expAluop _ op i).rdflags &&& FLAG_INV = 0
      rw [expAluop_quad _ hsize hset]
      exact ⟨rfl, hzero⟩
    | pandn =>
      show (expAluop _ op i).rddata = _ ∧ (expAluop _ op i).rdflags &&& FLAG_INV = 0
      rw [expAluop_quad _ hsize hset]
      exact ⟨rfl, hzero⟩
    | por =>
      show (expAluop _ op i).rddata = _ ∧ (expAluop _ op i).rdflags &&& FLAG_INV = 0
      rw [expAluop_quad _ hsize hset]
      exact ⟨rfl, hzero⟩
    | pxor =>
      show (expAluop _ op i).rddata = _ ∧ (expAluop _ op i).rdflags &&& FLAG_INV = 0
      rw [expAluop_quad _ hsize hset]
      exact ⟨rfl, hzero⟩
    | _ => cases hp

/-! ### Halves -/

/-- Whether both halves take their counts from the low quadword of the source. -/
def isShift : PackedOp → Bool
  | psll _ | psrl _ | psra _ => true
  | _ => false

theorem lanes_double {size : ℕ} (hsize : size ≤ 3) :
    (64 + 64) / opWidth size = laneCount size + laneCount size ∧ 64 = laneCount size * opWidth size := by
  interval_cases size <;> exact ⟨rfl, rfl⟩

variable (ah al bh bl : W64)

theorem zip_halves {size : ℕ} (hsize : size ≤ 3) (f : BitVec (opWidth size) → BitVec (opWidth size) → BitVec (opWidth size)) :
    Lanes.zip (opWidth size) ((64 + 64) / opWidth size) f (ah ++ al) (bh ++ bl) =
      Lanes.zip (opWidth size) (64 / opWidth size) f ah bh ++ Lanes.zip (opWidth size) (64 / opWidth size) f al bl := by
  obtain ⟨hdouble, hcount⟩ := lanes_double hsize
  rw [hdouble, laneCount_eq hsize]
  exact zip_append f hcount hcount ah bh al bl

theorem map_halves {size : ℕ} (hsize : size ≤ 3) (f : BitVec (opWidth size) → BitVec (opWidth size)) :
    Lanes.map (opWidth size) ((64 + 64) / opWidth size) f (ah ++ al) =
      Lanes.map (opWidth size) (64 / opWidth size) f ah ++ Lanes.map (opWidth size) (64 / opWidth size) f al := by
  obtain ⟨hdouble, hcount⟩ := lanes_double hsize
  rw [hdouble, laneCount_eq hsize]
  exact map_append f hcount hcount ah al

/-- Lanes of the halves. -/
theorem lane_low {w n i : ℕ} (hn : 64 = n * w) (hi : i < n) : lane w (ah ++ al) i = lane w al i := by
  have hle : i * w + w ≤ n * w := by
    rw [← Nat.succ_mul]
    exact Nat.mul_le_mul_right w hi
  exact lane_append_low ah al (by omega)

/-- **An operation on two halves.** -/
theorem result_append (p : PackedOp) : p.result (ah ++ al) (bh ++ bl) =
    p.result ah (bif p.isShift then bl else bh) ++ p.result al bl := by
  have h2 : ∀ size : Fin 2, size.val ≤ 3 ∧ size.val + 1 ≤ 3 := by decide
  have h3 : ∀ size : Fin 3, size.val ≤ 3 ∧ size.val + 1 ≤ 3 := by decide
  have hcount : lane 64 (bh ++ bl) 0 = bl := (lane_low bh bl (n := 1) rfl (by decide)).trans (lane_self bl)
  -- lane by lane, except that a shift takes its count from the low half alone
  cases p with
  | padd size | psub size => exact zip_halves ah al bh bl (Nat.le_of_lt_succ size.isLt) _
  | paddus size | psubus size | padds size | psubs size | pavg size => exact zip_halves ah al bh bl (h2 size).1 _
  | pminub | pmaxub => exact zip_halves ah al bh bl (show 0 ≤ 3 by decide) _
  | pminsw | pmaxsw | pmullw | pmulhw | pmulhuw => exact zip_halves ah al bh bl (show 1 ≤ 3 by decide) _
  | pcmpeq size => exact zip_halves ah al bh bl (h3 size).1 fun x y => mask (x == y)
  | pcmpgt size => exact zip_halves ah al bh bl (h3 size).1 fun x y => mask (decide (y.toInt < x.toInt))
  | psll size | psrl size =>
    dsimp only [result, isShift, cond_true]
    rw [hcount, lane_self]
    exact map_halves ah al (h3 size).2 _
  | psra size =>
    dsimp only [result, isShift, cond_true]
    rw [hcount, lane_self]
    exact map_halves ah al (h2 size).2 _
  | pand => exact BitVec.and_append
  | pandn =>
    show ~~~(ah ++ al) &&& (bh ++ bl) = _
    rw [BitVec.not_append]
    exact BitVec.and_append
  | por => exact BitVec.or_append
  | pxor => exact BitVec.xor_append
  | pmuludq =>
    refine (ofLanes_append _ (n := 1) (m := 1) rfl rfl).trans (congrArg₂ (· ++ ·) ?_ ?_)
    · refine ofLanes_congr fun k hk => ?_
      have hidx : 2 * (1 + k) = 2 + 2 * k := by ring
      rw [hidx, lane_append_high ah al (n := 2) rfl, lane_append_high bh bl (n := 2) rfl]
      rfl
    · refine ofLanes_congr fun k hk => ?_
      rw [lane_low ah al (n := 2) rfl (by omega), lane_low bh bl (n := 2) rfl (by omega)]
  | pmaddwd =>
    refine (ofLanes_append _ (n := 2) (m := 2) rfl rfl).trans (congrArg₂ (· ++ ·) ?_ ?_)
    · refine ofLanes_congr fun k hk => ?_
      have hidx : 2 * (2 + k) = 4 + 2 * k := by ring
      rw [hidx, Nat.add_assoc, lane_append_high ah al (n := 4) rfl, lane_append_high bh bl (n := 4) rfl,
        lane_append_high ah al (n := 4) rfl, lane_append_high bh bl (n := 4) rfl]
      rfl
    · refine ofLanes_congr fun k hk => ?_
      rw [lane_low ah al (n := 4) rfl (by omega), lane_low bh bl (n := 4) rfl (by omega),
        lane_low ah al (n := 4) rfl (by omega), lane_low bh bl (n := 4) rfl (by omega)]
  | psadbw =>
    refine (ofLanes_append _ (n := 1) (m := 1) rfl rfl).trans (congrArg₂ (· ++ ·) ?_ ?_)
    · refine ofLanes_congr fun k hk => ?_
      refine congrArg (fun l : List ℕ => BitVec.ofNat 64 l.sum) (List.map_congr_left fun j hj => ?_)
      have hidx : 8 * (1 + k) + j = 8 + (8 * k + j) := by ring
      rw [hidx, lane_append_high ah al (n := 8) rfl, lane_append_high bh bl (n := 8) rfl]
      rfl
    · refine ofLanes_congr fun k hk => ?_
      refine congrArg (fun l : List ℕ => BitVec.ofNat 64 l.sum) (List.map_congr_left fun j hj => ?_)
      have hj8 := List.mem_range.1 hj
      rw [lane_low ah al (n := 8) rfl (by omega), lane_low bh bl (n := 8) rfl (by omega)]

end PackedOp

end X86Sim
