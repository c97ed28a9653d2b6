import Mathlib.Tactic.Positivity
import X86Sim.Uop

/-!
# Conversions between 80 and 64 bit floating point (`ptlhwdef.h`)

The x87 stack holds numbers of 64 bits; the images that programs save and restore hold
them in the extended format of 80 bits, with an explicit integer bit.
-/

namespace X86Sim

/-- `X87Reg`: ten bytes, the least significant first. -/
abbrev X87Reg := BitVec 80

namespace X87Reg

variable (r : X87Reg)

def significand : W64 := r.setWidth 64
def signAndExponent : W16 := r.extractLsb' 64 16
def negative : Bool := r.signAndExponent.getLsbD 15
def exponent : W16 := r.signAndExponent &&& 0x7fff

end X87Reg

/-- `W64(negative) << 63`. -/
def signBits (negative : Bool) : W64 := (BitVec.ofBool negative).setWidth 64 <<< 63

/-- `x87_overflowed_double_bits`. -/
def x87OverflowedDoubleBits (negative : Bool) (rc : Fin 4) : W64 :=
  let infinity := rc = 0 ∨ rc = 2 ∧ negative = false ∨ rc = 1 ∧ negative = true
  let exponent : W64 := if infinity then 0x7ff else 0x7fe
  let fraction : W64 := if infinity then 0 else ((1 : W64) <<< 52) - 1
  signBits negative ||| exponent <<< 52 ||| fraction

/-- `x87_round_shift_right`. -/
def x87RoundShiftRight (value : W64) (shift : ℕ) (negative : Bool) (rc : Fin 4) : W64 :=
  if shift = 0 then value
  else if shift < 64 then
    let rounded := value >>> shift
    let remainder := value &&& (((1 : W64) <<< shift) - 1)
    let half := (1 : W64) <<< (shift - 1)
    let increment : Bool :=
      match rc with
      | 1 => negative && remainder ≠ 0
      | 2 => !negative && remainder ≠ 0
      | 3 => false
      | _ => remainder > half || (remainder = half && rounded &&& 1 ≠ 0)
    rounded + if increment then 1 else 0
  else
    -- nothing is left but what is rounded
    let increment : Bool :=
      match rc with
      | 1 => negative && value ≠ 0
      | 2 => !negative && value ≠ 0
      | 3 => false
      | _ => shift = 64 && value > (1 : W64) <<< 63
    if increment then 1 else 0

/-- `x87_nan_double_bits`. -/
def x87NanDoubleBits (negative : Bool) (significand : W64) : W64 :=
  let payload := ((significand &&& (((1 : W64) <<< 63) - 1)) >>> 11) ||| (1 : W64) <<< 51
  signBits negative ||| (0x7ff : W64) <<< 52 ||| payload

/-- The end of the normal path: sign, exponent and fraction in their places. -/
def packDouble (negative : Bool) (unbiasedExponent : ℤ) (rounded : W64) : W64 :=
  signBits negative ||| BitVec.ofInt 64 (unbiasedExponent + 1023) <<< 52 ||| (rounded &&& (((1 : W64) <<< 52) - 1))

/-- `x87_fp_80bit_to_64bit`. -/
def x87Fp80bitTo64bit (x87reg : X87Reg) (rc : Fin 4) : W64 :=
  let significand := x87reg.significand
  let negative := x87reg.negative
  let exponent := x87reg.exponent
  let sign := signBits negative
  if exponent = 0 then
    -- zero, and what is too small for any double
    if significand = 0 then sign
    else if rc = 2 ∧ negative = false ∨ rc = 1 ∧ negative = true then sign ||| 1
    else sign
  else if exponent = 0x7fff then
    if significand.getLsbD 63 ∧ significand &&& (((1 : W64) <<< 63) - 1) = 0 then sign ||| (0x7ff : W64) <<< 52
    else x87NanDoubleBits negative significand
  -- no integer bit: not a number any more
  else if significand.getLsbD 63 = false then x87NanDoubleBits negative significand
  else
    let unbiasedExponent : ℤ := exponent.toNat - 16383
    if unbiasedExponent > 1023 then x87OverflowedDoubleBits negative rc
    else if unbiasedExponent ≥ -1022 then
      let rounded := x87RoundShiftRight significand 11 negative rc
      -- the rounding carries into the next binade
      if rounded = (1 : W64) <<< 53 then
        if unbiasedExponent + 1 > 1023 then x87OverflowedDoubleBits negative rc
        else packDouble negative (unbiasedExponent + 1) (rounded >>> 1)
      else packDouble negative unbiasedExponent rounded
    else
      -- a subnormal result: the more bits are shifted out the smaller it is
      let rounded := x87RoundShiftRight significand (-unbiasedExponent - 1011).toNat negative rc
      if rounded ≥ (1 : W64) <<< 52 then sign ||| (1 : W64) <<< 52 else sign ||| rounded

/-- `x87_fp_64bit_to_80bit`. The position of the highest bit is that of `countl_zero`. -/
def x87Fp64bitTo80bit (reg64 : W64) : X87Reg :=
  let negative := reg64.getLsbD 63
  let exponent : W16 := ((reg64 >>> 52) &&& 0x7ff).setWidth 16
  let fraction := reg64 &&& (((1 : W64) <<< 52) - 1)
  let r : W16 × W64 :=
    if exponent = 0 then
      if fraction ≠ 0 then
        let highestBit := fraction.toNat.log2
        (BitVec.ofInt 16 (highestBit - 1074 + 16383), fraction <<< (63 - highestBit))
      else (0, 0)
    else if exponent = 0x7ff then
      (0x7fff, if fraction ≠ 0 then (1 : W64) <<< 63 ||| (fraction <<< 11 ||| (1 : W64) <<< 62)
        else (1 : W64) <<< 63)
    else (BitVec.ofInt 16 (exponent.toNat - 1023 + 16383), (1 : W64) <<< 63 ||| fraction <<< 11)
  ((BitVec.ofBool negative).setWidth 16 <<< 15 ||| r.1) ++ r.2

/-! ### Words -/

theorem signBits_or_toNat (negative : Bool) {v : W64} (hv : v.toNat < 2 ^ 63) :
    (signBits negative ||| v).toNat = (if negative then 2 ^ 63 else 0) + v.toNat := by
  rw [BitVec.toNat_or]
  cases negative with
  | false =>
    have hzero : (signBits false).toNat = 0 := by decide
    rw [hzero, Nat.zero_or]
    simp
  | true =>
    have hsign : (signBits true).toNat = 1 <<< 63 := by decide
    rw [hsign, ← Nat.shiftLeft_add_eq_or_of_lt hv, Nat.shiftLeft_eq]
    simp

theorem exponent_or_toNat {e f : W64} (he : e.toNat < 2 ^ 11) (hf : f.toNat < 2 ^ 52) :
    (e <<< 52 ||| f).toNat = e.toNat * 2 ^ 52 + f.toNat := by
  have hshift : e.toNat <<< 52 % 2 ^ 64 = e.toNat <<< 52 := by
    rw [Nat.shiftLeft_eq]
    exact Nat.mod_eq_of_lt (by omega)
  rw [BitVec.toNat_or, BitVec.toNat_shiftLeft, hshift, ← Nat.shiftLeft_add_eq_or_of_lt hf, Nat.shiftLeft_eq]

theorem and_low_toNat (v : W64) (k : ℕ) (hk : k < 64) :
    (v &&& (((1 : W64) <<< k) - 1)).toNat = v.toNat % 2 ^ k := by
  have hmask : ((1 : W64) <<< k - 1).toNat = 2 ^ k - 1 := by
    have hpow : 2 ^ k < 2 ^ 64 := Nat.pow_lt_pow_right (by omega) hk
    have hpos : 0 < 2 ^ k := by positivity
    have hone : (1 : W64).toNat = 1 := rfl
    have hshift : ((1 : W64) <<< k).toNat = 2 ^ k := by
      rw [BitVec.toNat_shiftLeft, hone, Nat.shiftLeft_eq, Nat.one_mul]
      exact Nat.mod_eq_of_lt hpow
    rw [BitVec.toNat_sub, hshift, hone]
    omega
  rw [BitVec.toNat_and, hmask, Nat.and_two_pow_sub_one_eq_mod]

theorem one_shiftLeft_toNat (k : ℕ) (hk : k < 64) : ((1 : W64) <<< k).toNat = 2 ^ k := by
  have hone : (1 : W64).toNat = 1 := rfl
  rw [BitVec.toNat_shiftLeft, hone, Nat.shiftLeft_eq, Nat.one_mul]
  exact Nat.mod_eq_of_lt (Nat.pow_lt_pow_right (by omega) hk)

end X86Sim
