import Mathlib.Algebra.Order.Field.Power
import Mathlib.Data.Rat.Cast.Order
import Mathlib.Tactic.NormNum
import Mathlib.Tactic.Ring
import X86Sim.Lib.Rounding
import X86Sim.X87.Convert

/-!
# The conversion to 64 bits rounds correctly

The magnitudes of 64-bit numbers are a scale indexed by their bit patterns without the
sign: next pattern, next number, across the subnormals, the binades and into infinity. An
extended number lies between two neighbours, and the bits the conversion shifts out tell
which one it rounds to.

* `doubleValue_strictMono`: the patterns are ordered as their values.
* `takesUpper_iff`: the bits shifted out decide.
* `x87_rounds`: the conversion of a finite operand is its rounding.
-/

namespace X86Sim

open Rounding

/-- The magnitude of the pattern `m` without its sign. The pattern of infinity stands for
`2 ^ 1024`, the number that would come next. -/
def doubleValue (m : ℕ) : ℚ :=
  if m / 2 ^ 52 = 0 then (m % 2 ^ 52 : ℕ) * 2 ^ (-1074 : ℤ)
  else (2 ^ 52 + m % 2 ^ 52 : ℕ) * 2 ^ ((m / 2 ^ 52 : ℕ) - 1075 : ℤ)

def infinityBits : ℕ := 0x7ff * 2 ^ 52

namespace X87Reg

variable (r : X87Reg)

/-- The operand encodes a finite number: an exponent of zero, or the integer bit set. -/
def Finite : Prop :=
  r.exponent = 0 ∨ r.exponent ≠ 0x7fff ∧ r.significand.getLsbD 63 = true

instance : Decidable r.Finite := inferInstanceAs (Decidable (_ ∨ _))

/-- Its magnitude. -/
def magnitude : ℚ :=
  r.significand.toNat * 2 ^ ((max r.exponent.toNat 1 : ℕ) - 16446 : ℤ)

end X87Reg

theorem rc_cases (rc : Fin 4) : rc = 0 ∨ rc = 1 ∨ rc = 2 ∨ rc = 3 := by
  revert rc
  decide

/-- How a rounding control rounds the magnitude of a number of the given sign. -/
def roundingOf (rc : Fin 4) (negative : Bool) : Rounding :=
  match rc with
  | 1 => if negative then .up else .down
  | 2 => if negative then .down else .up
  | 3 => .down
  | _ => .nearest

/-! ### The scale -/

/-- Within and across binades the patterns count units. -/
theorem doubleValue_segment {e s : ℕ} (hs : s ≤ 2 ^ 53) (he : e = 0 ∨ 2 ^ 52 ≤ s) :
    doubleValue (e * 2 ^ 52 + s) = s * 2 ^ (e - 1074 : ℤ) := by
  have htwo : (2 : ℚ) ≠ 0 := by norm_num
  rcases lt_or_ge s (2 ^ 52) with hlow | hhigh
  · obtain rfl : e = 0 := by omega
    have hdiv : (0 * 2 ^ 52 + s) / 2 ^ 52 = 0 := by omega
    have hmod : (0 * 2 ^ 52 + s) % 2 ^ 52 = s := by omega
    rw [doubleValue, hdiv, hmod, if_pos rfl]
    norm_num
  · rcases lt_or_eq_of_le hs with hlt | rfl
    · have hdiv : (e * 2 ^ 52 + s) / 2 ^ 52 = e + 1 := by omega
      have hmod : (e * 2 ^ 52 + s) % 2 ^ 52 = s - 2 ^ 52 := by omega
      have hsum : 2 ^ 52 + (s - 2 ^ 52) = s := by omega
      have hexp : ((e + 1 : ℕ) - 1075 : ℤ) = e - 1074 := by
        push_cast
        ring
      rw [doubleValue, hdiv, hmod, if_neg (by omega), hsum, hexp]
    · -- the first number of the next binade
      have hdiv : (e * 2 ^ 52 + 2 ^ 53) / 2 ^ 52 = e + 2 := by omega
      have hmod : (e * 2 ^ 52 + 2 ^ 53) % 2 ^ 52 = 0 := by omega
      rw [doubleValue, hdiv, hmod, if_neg (by omega)]
      have hexp : ((e + 2 : ℕ) - 1075 : ℤ) = (e - 1074 : ℤ) + 1 := by
        push_cast
        ring
      rw [hexp, zpow_add₀ htwo]
      push_cast
      ring

/-- Every pattern is in a segment. -/
theorem segment_of (m : ℕ) : ∃ e s, m = e * 2 ^ 52 + s ∧ s < 2 ^ 53 ∧ (e = 0 ∨ 2 ^ 52 ≤ s) := by
  by_cases h : m < 2 ^ 52
  · exact ⟨0, m, by omega, by omega, .inl rfl⟩
  · refine ⟨m / 2 ^ 52 - 1, m % 2 ^ 52 + 2 ^ 52, by omega, by omega, .inr (by omega)⟩

theorem doubleValue_strictMono : StrictMono doubleValue := by
  apply strictMono_nat_of_lt_succ
  intro m
  obtain ⟨e, s, rfl, hs, he⟩ := segment_of m
  have hnext : e * 2 ^ 52 + s + 1 = e * 2 ^ 52 + (s + 1) := by ring
  rw [hnext, doubleValue_segment hs.le he, doubleValue_segment (by omega) (by omega)]
  have hpos : (0 : ℚ) < 2 ^ (e - 1074 : ℤ) := by positivity
  push_cast
  linarith

/-! ### The bits shifted out -/

/-- Whether a quotient `q` with remainder `r` of `s` bits is incremented. -/
def Increments (mode : Rounding) (r s q : ℕ) : Prop :=
  match mode with
  | .down => False
  | .up => 0 < r
  | .nearest => 2 ^ s < 2 * r ∨ 2 ^ s = 2 * r ∧ ¬ Even q

instance (mode : Rounding) (r s q : ℕ) : Decidable (Increments mode r s q) :=
  match mode with
  | .down => inferInstanceAs (Decidable False)
  | .up => inferInstanceAs (Decidable (0 < r))
  | .nearest => inferInstanceAs (Decidable (2 ^ s < 2 * r ∨ 2 ^ s = 2 * r ∧ ¬ Even q))

section Bracket

variable {e q r s : ℕ} (hq : q < 2 ^ 53) (he : e = 0 ∨ 2 ^ 52 ≤ q) (hr : r < 2 ^ s)
include hq he

/-- The neighbours of `q * 2 ^ s + r` shifted right by `s`, in units of its last bit. -/
theorem neighbours (s : ℕ) :
    doubleValue (e * 2 ^ 52 + q) = (q * 2 ^ s : ℕ) * 2 ^ (e - 1074 - s : ℤ) ∧
      doubleValue (e * 2 ^ 52 + q + 1) = ((q + 1) * 2 ^ s : ℕ) * 2 ^ (e - 1074 - s : ℤ) := by
  have htwo : (2 : ℚ) ≠ 0 := by norm_num
  have hunit : (2 : ℚ) ^ (e - 1074 : ℤ) = 2 ^ s * 2 ^ (e - 1074 - s : ℤ) := by
    rw [← zpow_natCast, ← zpow_add₀ htwo]
    congr 1
    ring
  have hnext : e * 2 ^ 52 + q + 1 = e * 2 ^ 52 + (q + 1) := by ring
  rw [hnext, doubleValue_segment hq.le he, doubleValue_segment (by omega) (by omega), hunit]
  push_cast
  constructor <;> ring

section Remainder

include hr

theorem bracket : doubleValue (e * 2 ^ 52 + q) ≤ (q * 2 ^ s + r : ℕ) * 2 ^ (e - 1074 - s : ℤ) ∧
    ((q * 2 ^ s + r : ℕ) : ℚ) * 2 ^ (e - 1074 - s : ℤ) < doubleValue (e * 2 ^ 52 + q + 1) := by
  obtain ⟨hlow, hhigh⟩ := neighbours hq he s
  have hpos : (0 : ℚ) < 2 ^ (e - 1074 - s : ℤ) := by positivity
  rw [hlow, hhigh]
  constructor
  · apply mul_le_mul_of_nonneg_right _ hpos.le
    exact_mod_cast Nat.le_add_right _ _
  · apply mul_lt_mul_of_pos_right _ hpos
    have hsucc : (q + 1) * 2 ^ s = q * 2 ^ s + 2 ^ s := by ring
    exact_mod_cast (by omega : q * 2 ^ s + r < (q + 1) * 2 ^ s)

end Remainder

/-- **The bits shifted out decide** between the neighbours. -/
theorem takesUpper_iff (mode : Rounding) :
    TakesUpper doubleValue mode ((q * 2 ^ s + r : ℕ) * 2 ^ (e - 1074 - s : ℤ)) (e * 2 ^ 52 + q) ↔
      Increments mode r s q := by
  obtain ⟨hlow, hhigh⟩ := neighbours hq he s
  have hpos : (0 : ℚ) < 2 ^ (e - 1074 - s : ℤ) := by positivity
  have hpar : Even (e * 2 ^ 52 + q) ↔ Even q := by
    have heven : Even (e * 2 ^ 52) := ⟨e * 2 ^ 51, by ring⟩
    rw [Nat.even_add]
    simp only [heven, true_iff]
  have hbelow : ((q * 2 ^ s + r : ℕ) : ℚ) * 2 ^ (e - 1074 - s : ℤ) - doubleValue (e * 2 ^ 52 + q) =
      r * 2 ^ (e - 1074 - s : ℤ) := by
    rw [hlow]
    push_cast
    ring
  have habove : doubleValue (e * 2 ^ 52 + q + 1) - ((q * 2 ^ s + r : ℕ) : ℚ) * 2 ^ (e - 1074 - s : ℤ) =
      (2 ^ s - r) * 2 ^ (e - 1074 - s : ℤ) := by
    rw [hhigh]
    push_cast
    ring
  cases mode with
  | down => exact Iff.rfl
  | up =>
    unfold TakesUpper Increments
    rw [← sub_pos, hbelow]
    constructor
    · intro h
      exact_mod_cast pos_of_mul_pos_left h hpos.le
    · intro h
      have hr' : (0 : ℚ) < r := by exact_mod_cast h
      positivity
  | nearest =>
    unfold TakesUpper Increments
    simp only [hbelow, habove, hpar]
    have hcast : ((2 ^ s : ℕ) : ℚ) = 2 ^ s := by push_cast; ring
    rw [mul_lt_mul_iff_left₀ hpos, mul_left_inj' hpos.ne', ← hcast]
    constructor
    · rintro (h | ⟨h, hodd⟩)
      · left
        have hlt : ((2 ^ s : ℕ) : ℚ) < 2 * r := by linarith
        exact_mod_cast hlt
      · right
        have heq : ((2 ^ s : ℕ) : ℚ) = 2 * r := by linarith
        exact ⟨by exact_mod_cast heq, hodd⟩
    · rintro (h | ⟨h, hodd⟩)
      · left
        have hlt : ((2 ^ s : ℕ) : ℚ) < 2 * r := by exact_mod_cast h
        linarith
      · right
        have heq : ((2 ^ s : ℕ) : ℚ) = 2 * r := by exact_mod_cast h
        exact ⟨by linarith, hodd⟩

end Bracket

/-- What rounding a significand shifted right by `s` gives. -/
theorem rounds_of_shift {e sig s : ℕ} (hq : sig / 2 ^ s < 2 ^ 53) (he : e = 0 ∨ 2 ^ 52 ≤ sig / 2 ^ s)
    (htop : e * 2 ^ 52 + sig / 2 ^ s + 1 ≤ infinityBits) (mode : Rounding) :
    RoundsTo doubleValue infinityBits mode (sig * 2 ^ (e - 1074 - s : ℤ))
      (e * 2 ^ 52 + (sig / 2 ^ s + if Increments mode (sig % 2 ^ s) s (sig / 2 ^ s) then 1 else 0)) := by
  have hmod : sig % 2 ^ s < 2 ^ s := Nat.mod_lt _ (by positivity)
  have hsig : sig / 2 ^ s * 2 ^ s + sig % 2 ^ s = sig := Nat.div_add_mod' sig (2 ^ s)
  have hmono : StrictMonoOn doubleValue (Set.Iic infinityBits) := doubleValue_strictMono.strictMonoOn _
  obtain ⟨hlow, hhigh⟩ := bracket hq he hmod
  have hiff := @takesUpper_iff e (sig / 2 ^ s) (sig % 2 ^ s) s hq he mode
  rw [hsig] at hlow hhigh hiff
  by_cases hinc : Increments mode (sig % 2 ^ s) s (sig / 2 ^ s)
  · rw [if_pos hinc, ← Nat.add_assoc]
    exact roundsTo_upper hmono htop hlow hhigh (hiff.2 hinc)
  · rw [if_neg hinc, Nat.add_zero]
    exact roundsTo_lower hmono htop hlow hhigh (mt hiff.1 hinc)

/-! ### The code -/

/-- `x87_round_shift_right` shifts and increments. -/
theorem roundShiftRight_toNat (value : W64) {shift : ℕ} (hs : 0 < shift) (negative : Bool) (rc : Fin 4) :
    (x87RoundShiftRight value shift negative rc).toNat = value.toNat / 2 ^ shift +
      if Increments (roundingOf rc negative) (value.toNat % 2 ^ shift) shift (value.toNat / 2 ^ shift)
      then 1 else 0 := by
  have hlt := value.isLt
  have hne : shift ≠ 0 := by omega
  have hzero : ∀ v : W64, v ≠ 0 ↔ 0 < v.toNat := by
    intro v
    have hz : (0 : W64).toNat = 0 := rfl
    rw [ne_eq, ← BitVec.toNat_inj, hz]
    omega
  have hbit : ∀ b : Bool, (if b then (1 : W64) else 0).toNat = if b then 1 else 0 := by decide
  by_cases hin : shift < 64
  · have hrounded : (value >>> shift).toNat = value.toNat / 2 ^ shift := by
      rw [BitVec.toNat_ushiftRight, Nat.shiftRight_eq_div_pow]
    have hrem : (value &&& (((1 : W64) <<< shift) - 1)).toNat = value.toNat % 2 ^ shift :=
      and_low_toNat value shift hin
    have hhalf : ((1 : W64) <<< (shift - 1)).toNat = 2 ^ (shift - 1) := one_shiftLeft_toNat _ (by omega)
    have hpow : 2 ^ shift = 2 * 2 ^ (shift - 1) := by
      rw [← pow_succ']
      congr 1
      omega
    have hodd : (value >>> shift) &&& 1 ≠ 0 ↔ ¬ Even (value.toNat / 2 ^ shift) := by
      have hone : (1 : W64).toNat = 2 ^ 1 - 1 := rfl
      rw [hzero, BitVec.toNat_and, hone, Nat.and_two_pow_sub_one_eq_mod, hrounded, Nat.even_iff]
      omega
    have hroom : value.toNat / 2 ^ shift < 2 ^ 63 := by
      have htwo : 2 ≤ 2 ^ shift := Nat.le_self_pow hne 2
      have := Nat.div_le_div_left htwo (show 0 < 2 by omega) (a := value.toNat)
      omega
    -- the increment of the code is the one of the mode
    have hinc : ∀ inc : Bool, (inc = true ↔ Increments (roundingOf rc negative) (value.toNat % 2 ^ shift)
        shift (value.toNat / 2 ^ shift)) →
        (value >>> shift + if inc then 1 else 0).toNat = value.toNat / 2 ^ shift +
          if Increments (roundingOf rc negative) (value.toNat % 2 ^ shift) shift (value.toNat / 2 ^ shift)
          then 1 else 0 := by
      intro inc hiff
      rw [BitVec.toNat_add, hrounded, hbit, ← if_congr hiff rfl rfl]
      apply Nat.mod_eq_of_lt
      split <;> omega
    unfold x87RoundShiftRight
    rw [if_neg hne, if_pos hin]
    apply hinc
    have hone := hzero (value &&& (((1 : W64) <<< shift) - 1))
    generalize value &&& (((1 : W64) <<< shift) - 1) = rem at hrem hone ⊢
    rw [hrem] at hone
    rcases rc_cases rc with rfl | rfl | rfl | rfl
    · have hover : rem > (1 : W64) <<< (shift - 1) ↔ 2 ^ shift < 2 * (value.toNat % 2 ^ shift) := by
        rw [gt_iff_lt, BitVec.lt_def, hrem, hhalf, hpow]
        omega
      have htie : rem = (1 : W64) <<< (shift - 1) ↔ 2 ^ shift = 2 * (value.toNat % 2 ^ shift) := by
        rw [← BitVec.toNat_inj, hrem, hhalf, hpow]
        omega
      simp only [roundingOf, Increments, Bool.or_eq_true, Bool.and_eq_true, decide_eq_true_eq, hover, htie,
        hodd]
    · cases negative with
      | false => simp [roundingOf, Increments]
      | true =>
        simp only [roundingOf, Increments, Bool.true_and, decide_eq_true_eq, hone, if_true]
    · cases negative with
      | false =>
        simp only [roundingOf, Increments, Bool.not_false, Bool.true_and, decide_eq_true_eq, hone,
          Bool.false_eq_true, if_false]
      | true => simp [roundingOf, Increments]
    · simp [roundingOf, Increments]
  · have hsmall : value.toNat < 2 ^ shift :=
      lt_of_lt_of_le hlt (Nat.pow_le_pow_right (by omega) (by omega))
    rw [Nat.div_eq_of_lt hsmall, Nat.mod_eq_of_lt hsmall, Nat.zero_add]
    have hinc : ∀ inc : Bool, (inc = true ↔ Increments (roundingOf rc negative) value.toNat shift 0) →
        (if inc then (1 : W64) else 0).toNat =
          if Increments (roundingOf rc negative) value.toNat shift 0 then 1 else 0 := by
      intro inc hiff
      rw [hbit, ← if_congr hiff rfl rfl]
    unfold x87RoundShiftRight
    rw [if_neg hne, if_neg hin]
    apply hinc
    have hone := hzero value
    rcases rc_cases rc with rfl | rfl | rfl | rfl
    · -- a shift by 65 or more leaves less than half a unit
      have hhalf : value > (1 : W64) <<< 63 ↔ 2 ^ 64 < 2 * value.toNat := by
        rw [gt_iff_lt, BitVec.lt_def, one_shiftLeft_toNat 63 (by omega)]
        omega
      have hbig : shift ≠ 64 → 2 * value.toNat < 2 ^ shift := by
        intro h65
        have hpow : 2 ^ 65 ≤ 2 ^ shift := Nat.pow_le_pow_right (by omega) (by omega)
        omega
      simp only [roundingOf, Increments, Bool.and_eq_true, decide_eq_true_eq, hhalf, Even.zero, not_true_eq_false,
        and_false, or_false]
      constructor
      · rintro ⟨rfl, h⟩
        exact h
      · intro h
        by_cases h64 : shift = 64
        · rw [h64] at h
          exact ⟨h64, h⟩
        · exact absurd h (not_lt.2 (hbig h64).le)
    · cases negative with
      | false => simp [roundingOf, Increments]
      | true =>
        simp only [roundingOf, Increments, Bool.true_and, decide_eq_true_eq, hone, if_true]
    · cases negative with
      | false =>
        simp only [roundingOf, Increments, Bool.not_false, Bool.true_and, decide_eq_true_eq, hone,
          Bool.false_eq_true, if_false]
      | true => simp [roundingOf, Increments]
    · simp [roundingOf, Increments]

theorem infinityBits_eq : infinityBits = 2047 * 2 ^ 52 := rfl

theorem doubleValue_infinity : doubleValue infinityBits = 2 ^ 52 * 2 ^ (972 : ℤ) := by
  have hsplit : infinityBits = 2046 * 2 ^ 52 + 2 ^ 52 := rfl
  rw [hsplit, doubleValue_segment (by omega) (.inr le_rfl)]
  norm_num

/-- Overflow: infinity, or the largest finite number where the magnitude rounds down. -/
theorem overflowed_toNat (negative : Bool) (rc : Fin 4) :
    (x87OverflowedDoubleBits negative rc).toNat = (if negative then 2 ^ 63 else 0) +
      if roundingOf rc negative = .down then infinityBits - 1 else infinityBits := by
  revert negative rc
  decide

theorem infinity_overflowed {negative : Bool} {rc : Fin 4} (h : roundingOf rc negative ≠ .down) :
    (x87OverflowedDoubleBits negative rc).toNat = (if negative then 2 ^ 63 else 0) + infinityBits := by
  rw [overflowed_toNat, if_neg h]

theorem packDouble_toNat (negative : Bool) {unbiased : ℤ} {e : ℕ} (he : unbiased + 1023 = e) (hlt : e < 2 ^ 11)
    (rounded : W64) : (packDouble negative unbiased rounded).toNat =
      (if negative then 2 ^ 63 else 0) + (e * 2 ^ 52 + rounded.toNat % 2 ^ 52) := by
  have hexp : (BitVec.ofInt 64 (unbiased + 1023)).toNat = e := by
    rw [he, BitVec.ofInt_natCast, BitVec.toNat_ofNat]
    exact Nat.mod_eq_of_lt (by omega)
  have hfrac : (rounded &&& (((1 : W64) <<< 52) - 1)).toNat = rounded.toNat % 2 ^ 52 :=
    and_low_toNat rounded 52 (by omega)
  have hmod : rounded.toNat % 2 ^ 52 < 2 ^ 52 := Nat.mod_lt _ (by omega)
  have hinner := @exponent_or_toNat (BitVec.ofInt 64 (unbiased + 1023)) (rounded &&& (((1 : W64) <<< 52) - 1))
    (by omega) (by omega)
  rw [packDouble, BitVec.or_assoc, signBits_or_toNat negative (by rw [hinner]; omega), hinner, hexp, hfrac]

section Conversion

variable (r : X87Reg) (rc : Fin 4)

/-- The result is the sign and a magnitude correctly rounded. -/
def RoundedTo (r : X87Reg) (rc : Fin 4) (result : W64) : Prop :=
  ∃ m, result.toNat = (if r.negative then 2 ^ 63 else 0) + m ∧
    RoundsTo doubleValue infinityBits (roundingOf rc r.negative) r.magnitude m

variable {r rc}

/-- An exponent of zero leaves a magnitude far below the first subnormal. -/
theorem rounded_zero_exponent (h : r.exponent = 0) : RoundedTo r rc (x87Fp80bitTo64bit r rc) := by
  have hsig := r.significand.isLt
  have hexp : r.exponent.toNat = 0 := by
    rw [h]
    rfl
  -- the shift that would bring the significand to the units of the subnormals
  obtain ⟨s, hs⟩ : ∃ s : ℕ, s = 15371 := ⟨_, rfl⟩
  have hpow : 2 ^ 65 ≤ 2 ^ s := Nat.pow_le_pow_right (by omega) (by omega)
  have hdiv : r.significand.toNat / 2 ^ s = 0 := Nat.div_eq_of_lt (by omega)
  have hmod : r.significand.toNat % 2 ^ s = r.significand.toNat := Nat.mod_eq_of_lt (by omega)
  have hmag : r.magnitude = r.significand.toNat * 2 ^ ((0 : ℕ) - 1074 - s : ℤ) := by
    rw [X87Reg.magnitude, hexp, hs]
    norm_num
  have hround := @rounds_of_shift 0 r.significand.toNat s (by rw [hdiv]; omega) (.inl rfl)
    (by rw [hdiv, infinityBits_eq]; omega) (roundingOf rc r.negative)
  rw [← hmag, hdiv, hmod, Nat.zero_mul, Nat.zero_add, Nat.zero_add] at hround
  have hzero : r.significand = 0 ↔ r.significand.toNat = 0 := by
    rw [← BitVec.toNat_inj]
    rfl
  refine ⟨_, ?_, hround⟩
  have hmode : Increments (roundingOf rc r.negative) r.significand.toNat s 0 ↔
      r.significand ≠ 0 ∧ (rc = 2 ∧ r.negative = false ∨ rc = 1 ∧ r.negative = true) := by
    have hnearest : ¬ Increments .nearest r.significand.toNat s 0 := by
      unfold Increments
      rw [not_or]
      constructor
      · omega
      · rintro ⟨_, hodd⟩
        exact hodd ⟨0, rfl⟩
    rw [ne_eq, hzero, ← ne_eq, ← Nat.pos_iff_ne_zero]
    rcases rc_cases rc with rfl | rfl | rfl | rfl
    · exact iff_of_false hnearest (by simp)
    · cases r.negative <;> simp [roundingOf, Increments]
    · cases r.negative <;> simp [roundingOf, Increments]
    · simp [roundingOf, Increments]
  have hempty : (signBits r.negative).toNat = (if r.negative then 2 ^ 63 else 0) := by
    cases r.negative <;> decide
  have hone : (signBits r.negative ||| 1).toNat = (if r.negative then 2 ^ 63 else 0) + 1 :=
    signBits_or_toNat r.negative (by decide)
  unfold x87Fp80bitTo64bit
  rw [if_pos h]
  by_cases hsigz : r.significand = 0
  · rw [if_pos hsigz, if_neg (mt hmode.1 fun hm => hm.1 hsigz)]
    exact hempty
  · rw [if_neg hsigz]
    split
    · rename_i hup
      rw [if_pos (hmode.2 ⟨hsigz, hup⟩)]
      exact hone
    · rename_i hdown
      rw [if_neg (mt hmode.1 fun hm => hdown hm.2)]
      exact hempty

/-- A normalised significand. -/
theorem two_pow_le_significand (h : r.significand.getLsbD 63 = true) : 2 ^ 63 ≤ r.significand.toNat := by
  have hmsb : r.significand.msb = true := by
    rw [BitVec.msb_eq_getLsbD_last]
    exact h
  rw [BitVec.msb_eq_decide, decide_eq_true_eq] at hmsb
  exact hmsb

theorem magnitude_of_pos (h : 1 ≤ r.exponent.toNat) :
    r.magnitude = r.significand.toNat * 2 ^ (r.exponent.toNat - 16446 : ℤ) := by
  rw [X87Reg.magnitude, max_eq_left h]

/-- What the conversion computes of a normalised operand. -/
theorem conversion_run (hzero : r.exponent ≠ 0) (hinf : r.exponent ≠ 0x7fff)
    (hint : r.significand.getLsbD 63 = true) : x87Fp80bitTo64bit r rc =
      if (r.exponent.toNat : ℤ) - 16383 > 1023 then x87OverflowedDoubleBits r.negative rc
      else if (r.exponent.toNat : ℤ) - 16383 ≥ -1022 then
        let rounded := x87RoundShiftRight r.significand 11 r.negative rc
        if rounded = (1 : W64) <<< 53 then
          if (r.exponent.toNat : ℤ) - 16383 + 1 > 1023 then x87OverflowedDoubleBits r.negative rc
          else packDouble r.negative ((r.exponent.toNat : ℤ) - 16383 + 1) (rounded >>> 1)
        else packDouble r.negative ((r.exponent.toNat : ℤ) - 16383) rounded
      else
        let rounded := x87RoundShiftRight r.significand (-((r.exponent.toNat : ℤ) - 16383) - 1011).toNat
          r.negative rc
        if rounded ≥ (1 : W64) <<< 52 then signBits r.negative ||| (1 : W64) <<< 52
        else signBits r.negative ||| rounded := by
  unfold x87Fp80bitTo64bit
  have hint' : ¬ r.significand.getLsbD 63 = false := by
    rw [hint]
    decide
  rw [if_neg hzero, if_neg hinf, if_neg hint']

/-- A magnitude from `2 ^ 1024` on overflows. -/
theorem rounded_overflow (hint : r.significand.getLsbD 63 = true) (hbig : 17407 ≤ r.exponent.toNat) :
    RoundedTo r rc (x87OverflowedDoubleBits r.negative rc) := by
  refine ⟨_, overflowed_toNat r.negative rc, ?_⟩
  apply roundsTo_of_le_top (doubleValue_strictMono.strictMonoOn _) (by decide)
  rw [doubleValue_infinity, magnitude_of_pos (by omega)]
  have hsig : (2 ^ 63 : ℚ) ≤ r.significand.toNat := by
    exact_mod_cast two_pow_le_significand hint
  have htwo : (2 : ℚ) ≠ 0 := by norm_num
  have hunit : (2 : ℚ) ^ (961 : ℤ) ≤ 2 ^ (r.exponent.toNat - 16446 : ℤ) := by
    apply zpow_le_zpow_right₀ (by norm_num)
    omega
  have hpos : (0 : ℚ) < 2 ^ (961 : ℤ) := by positivity
  calc (2 ^ 52 : ℚ) * 2 ^ (972 : ℤ) = 2 ^ 63 * 2 ^ (961 : ℤ) := by
        have hsplit : (2 : ℚ) ^ (972 : ℤ) = 2 ^ 11 * 2 ^ (961 : ℤ) := by
          rw [← zpow_natCast, ← zpow_add₀ htwo]
          norm_num
        rw [hsplit]
        ring
    _ ≤ r.significand.toNat * 2 ^ (r.exponent.toNat - 16446 : ℤ) := by
        apply mul_le_mul hsig hunit hpos.le
        positivity

/-- The normal range, with the carry out of the significand. -/
theorem rounded_normal (hzero : r.exponent ≠ 0) (hinf : r.exponent ≠ 0x7fff)
    (hint : r.significand.getLsbD 63 = true) (hlow : 15361 ≤ r.exponent.toNat)
    (hhigh : r.exponent.toNat < 17407) : RoundedTo r rc (x87Fp80bitTo64bit r rc) := by
  have hsig := two_pow_le_significand hint
  have hsig' := r.significand.isLt
  obtain ⟨e, he⟩ : ∃ e, r.exponent.toNat = e + 15361 := ⟨r.exponent.toNat - 15361, by omega⟩
  have hq : r.significand.toNat / 2 ^ 11 < 2 ^ 53 := by omega
  have hq' : 2 ^ 52 ≤ r.significand.toNat / 2 ^ 11 := by omega
  have hround := rounds_of_shift hq (.inr hq') (e := e) (by rw [infinityBits_eq]; omega)
    (roundingOf rc r.negative)
  have hmag : r.magnitude = r.significand.toNat * 2 ^ (e - 1074 - (11 : ℕ) : ℤ) := by
    have hexp : ((e + 15361 : ℕ) - 16446 : ℤ) = e - 1074 - (11 : ℕ) := by
      push_cast
      ring
    rw [magnitude_of_pos (by omega), he, hexp]
  rw [← hmag] at hround
  refine ⟨_, ?_, hround⟩
  have hrounded := roundShiftRight_toNat r.significand (by omega : 0 < 11) r.negative rc
  have hdown : roundingOf rc r.negative = .down →
      ¬ Increments (roundingOf rc r.negative) (r.significand.toNat % 2 ^ 11) 11
        (r.significand.toNat / 2 ^ 11) := by
    intro hd
    rw [hd]
    exact not_false
  generalize hinc : (if Increments (roundingOf rc r.negative) (r.significand.toNat % 2 ^ 11) 11
    (r.significand.toNat / 2 ^ 11) then 1 else 0) = inc at hrounded ⊢
  have hle : inc ≤ 1 := by
    rw [← hinc]
    split <;> omega
  rw [conversion_run hzero hinf hint, if_neg (by omega), if_pos (by omega)]
  dsimp only
  generalize x87RoundShiftRight r.significand 11 r.negative rc = rounded at hrounded ⊢
  have hfull : rounded = (1 : W64) <<< 53 ↔ rounded.toNat = 2 ^ 53 := by
    rw [← BitVec.toNat_inj, one_shiftLeft_toNat 53 (by omega)]
  by_cases hcarry : rounded.toNat = 2 ^ 53
  · rw [if_pos (hfull.2 hcarry)]
    by_cases hover : e = 2045
    · -- the carry leaves the last binade, so the magnitude was rounded up
      have hup : roundingOf rc r.negative ≠ .down := by
        intro hd
        rw [if_neg (hdown hd)] at hinc
        omega
      rw [if_pos (by omega), infinity_overflowed hup, infinityBits_eq]
      omega
    · have hhalf : (rounded >>> 1).toNat = 2 ^ 52 := by
        rw [BitVec.toNat_ushiftRight, hcarry, Nat.shiftRight_eq_div_pow]
        exact Nat.pow_div (by omega) (by omega)
      rw [if_neg (by omega), packDouble_toNat r.negative (e := e + 2) (by push_cast; omega) (by omega), hhalf]
      omega
  · rw [if_neg (mt hfull.1 hcarry),
      packDouble_toNat r.negative (e := e + 1) (by push_cast; omega) (by omega)]
    omega

/-- Gradual underflow, up to the smallest normal number. -/
theorem rounded_subnormal (hzero : r.exponent ≠ 0) (hinf : r.exponent ≠ 0x7fff)
    (hint : r.significand.getLsbD 63 = true) (hpos : 1 ≤ r.exponent.toNat)
    (hlow : r.exponent.toNat < 15361) : RoundedTo r rc (x87Fp80bitTo64bit r rc) := by
  have hsig := r.significand.isLt
  obtain ⟨s, hs⟩ : ∃ s, r.exponent.toNat + s = 15372 := ⟨15372 - r.exponent.toNat, by omega⟩
  have hs12 : 12 ≤ s := by omega
  have hpow : 2 ^ 12 ≤ 2 ^ s := Nat.pow_le_pow_right (by omega) hs12
  have hq : r.significand.toNat / 2 ^ s < 2 ^ 52 := by
    rw [Nat.div_lt_iff_lt_mul (by positivity)]
    calc r.significand.toNat < 2 ^ 52 * 2 ^ 12 := hsig
      _ ≤ 2 ^ 52 * 2 ^ s := Nat.mul_le_mul_left _ hpow
  have hround := @rounds_of_shift 0 r.significand.toNat s (by omega) (.inl rfl)
    (by rw [infinityBits_eq]; omega) (roundingOf rc r.negative)
  have hmag : r.magnitude = r.significand.toNat * 2 ^ ((0 : ℕ) - 1074 - s : ℤ) := by
    have hexp : (r.exponent.toNat - 16446 : ℤ) = (0 : ℕ) - 1074 - s := by
      push_cast
      omega
    rw [magnitude_of_pos hpos, hexp]
  rw [← hmag] at hround
  refine ⟨_, ?_, hround⟩
  have hrounded := roundShiftRight_toNat r.significand (by omega : 0 < s) r.negative rc
  generalize hinc : (if Increments (roundingOf rc r.negative) (r.significand.toNat % 2 ^ s) s
    (r.significand.toNat / 2 ^ s) then 1 else 0) = inc at hrounded ⊢
  have hle : inc ≤ 1 := by
    rw [← hinc]
    split <;> omega
  have hshift : (-((r.exponent.toNat : ℤ) - 16383) - 1011).toNat = s := by omega
  rw [conversion_run hzero hinf hint, if_neg (by omega), if_neg (by omega)]
  dsimp only
  rw [hshift]
  generalize x87RoundShiftRight r.significand s r.negative rc = rounded at hrounded ⊢
  generalize r.significand.toNat / 2 ^ s = q at hq hrounded ⊢
  have hone : ((1 : W64) <<< 52).toNat = 2 ^ 52 := one_shiftLeft_toNat 52 (by omega)
  by_cases hnormal : rounded ≥ (1 : W64) <<< 52
  · rw [if_pos hnormal, signBits_or_toNat r.negative (by rw [hone]; omega), hone]
    rw [ge_iff_le, BitVec.le_def, hone] at hnormal
    omega
  · rw [if_neg hnormal]
    rw [ge_iff_le, BitVec.le_def, hone] at hnormal
    rw [signBits_or_toNat r.negative (by omega)]
    omega

/-- Every finite operand is rounded correctly. -/
theorem rounded_of_finite (h : r.Finite) : RoundedTo r rc (x87Fp80bitTo64bit r rc) := by
  by_cases hzero : r.exponent = 0
  · exact rounded_zero_exponent hzero
  · obtain ⟨hinf, hint⟩ := h.resolve_left hzero
    have hpos : 1 ≤ r.exponent.toNat := by
      by_contra hlt
      apply hzero
      apply BitVec.eq_of_toNat_eq
      have hz : (0 : W16).toNat = 0 := rfl
      omega
    rcases Nat.lt_or_ge r.exponent.toNat 15361 with hlow | hnormal
    · exact rounded_subnormal hzero hinf hint hpos hlow
    · rcases Nat.lt_or_ge r.exponent.toNat 17407 with hhigh | hbig
      · exact rounded_normal hzero hinf hint hnormal hhigh
      · rw [conversion_run hzero hinf hint, if_pos (by omega)]
        exact rounded_overflow hint hbig

end Conversion

/-- **The conversion rounds correctly**: its result has the sign of the operand, and the
magnitude that the rounding control demands of it. -/
theorem x87_rounds (r : X87Reg) (rc : Fin 4) (h : r.Finite) :
    ∃ m, (x87Fp80bitTo64bit r rc).toNat = (if r.negative then 2 ^ 63 else 0) + m ∧
      RoundsTo doubleValue infinityBits (roundingOf rc r.negative) r.magnitude m :=
  rounded_of_finite h

/-- The largest subnormal and three quarters of a unit, upwards: the smallest normal number. -/
theorem x87_rounds_subnormal :
    let r : X87Reg := (0x3c00 : W16) ++ (0xffffffffffffffff : W64)
    r.Finite ∧ ∃ m, (x87Fp80bitTo64bit r 2).toNat = (if r.negative then 2 ^ 63 else 0) + m ∧
      RoundsTo doubleValue infinityBits (roundingOf 2 r.negative) r.magnitude m :=
  ⟨by decide, x87_rounds ((0x3c00 : W16) ++ (0xffffffffffffffff : W64)) 2 (by decide)⟩

end X86Sim
