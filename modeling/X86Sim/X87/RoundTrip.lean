import X86Sim.X87.Rounded

/-!
# From 64 to 80 bits and back

Every 64-bit number has an extended one of the same value, so the way back rounds nothing.
Of a signaling NaN it sets the quiet bit.

* `magnitude_of_double`: the extended number has the value of the double.
* `roundTrip`: what the way back gives.
-/

namespace X86Sim

open Rounding

/-! ### Fields -/

def exponentField (v : W64) : W16 := ((v >>> 52) &&& 0x7ff).setWidth 16

def fractionField (v : W64) : W64 := v &&& (((1 : W64) <<< 52) - 1)

def IsSignaling (v : W64) : Prop :=
  exponentField v = 0x7ff ∧ fractionField v ≠ 0 ∧ v.getLsbD 51 = false

instance (v : W64) : Decidable (IsSignaling v) := inferInstanceAs (Decidable (_ ∧ _))

/-- The quiet NaN of a signaling one, with its payload and sign. -/
def quieted (v : W64) : W64 := if IsSignaling v then v ||| (1 : W64) <<< 51 else v

section Fields

variable (v : W64)

theorem exponentField_toNat : (exponentField v).toNat = v.toNat / 2 ^ 52 % 2 ^ 11 := by
  have hlt := v.isLt
  have hmask : (0x7ff : W64).toNat = 2 ^ 11 - 1 := rfl
  rw [exponentField, BitVec.toNat_setWidth, BitVec.toNat_and, BitVec.toNat_ushiftRight, hmask,
    Nat.and_two_pow_sub_one_eq_mod, Nat.shiftRight_eq_div_pow]
  omega

theorem fractionField_toNat : (fractionField v).toNat = v.toNat % 2 ^ 52 := and_low_toNat v 52 (by omega)

theorem fractionField_lt : (fractionField v).toNat < 2 ^ 52 := by
  rw [fractionField_toNat]
  exact Nat.mod_lt _ (by omega)

theorem exponentField_lt : (exponentField v).toNat < 2 ^ 11 := by
  rw [exponentField_toNat]
  exact Nat.mod_lt _ (by omega)

theorem sign_eq : v.getLsbD 63 = decide (2 ^ 63 ≤ v.toNat) := by
  have hlast : v.getLsbD 63 = v.msb := (BitVec.msb_eq_getLsbD_last v).symm
  rw [hlast, BitVec.msb_eq_decide]

/-- A word is its sign, exponent and fraction. -/
theorem fields_toNat : v.toNat = (if v.getLsbD 63 then 2 ^ 63 else 0) +
    ((exponentField v).toNat * 2 ^ 52 + (fractionField v).toNat) := by
  have hlt := v.isLt
  rw [exponentField_toNat, fractionField_toNat, sign_eq]
  by_cases h : 2 ^ 63 ≤ v.toNat
  · rw [if_pos (decide_eq_true h)]
    omega
  · rw [if_neg (by simpa using h)]
    omega

end Fields

/-! ### The extended number -/

section Extended

variable {e : W16} {s : W64} {negative : Bool}

/-- An extended number put together from its fields. -/
def extended (negative : Bool) (e : W16) (s : W64) : X87Reg :=
  ((BitVec.ofBool negative).setWidth 16 <<< 15 ||| e) ++ s

theorem extended_significand : (extended negative e s).significand = s := by
  apply BitVec.eq_of_getLsbD_eq
  intro i hi
  rw [X87Reg.significand, extended, BitVec.getLsbD_setWidth, BitVec.getLsbD_append, if_pos hi,
    decide_eq_true hi, Bool.true_and]

theorem extended_signAndExponent :
    (extended negative e s).signAndExponent = (BitVec.ofBool negative).setWidth 16 <<< 15 ||| e := by
  apply BitVec.eq_of_getLsbD_eq
  intro i hi
  have hge : ¬ 64 + i < 64 := by omega
  have hsub : 64 + i - 64 = i := by omega
  rw [X87Reg.signAndExponent, extended, BitVec.getLsbD_extractLsb', BitVec.getLsbD_append, if_neg hge, hsub,
    decide_eq_true hi, Bool.true_and]

theorem signAndExponent_toNat (he : e.toNat < 2 ^ 15) :
    (extended negative e s).signAndExponent.toNat = (if negative then 2 ^ 15 else 0) + e.toNat := by
  rw [extended_signAndExponent, BitVec.toNat_or]
  cases negative with
  | false =>
    have hzero : ((BitVec.ofBool false).setWidth 16 <<< 15).toNat = 0 := by decide
    rw [hzero, Nat.zero_or]
    simp
  | true =>
    have hsign : ((BitVec.ofBool true).setWidth 16 <<< 15).toNat = 1 <<< 15 := by decide
    rw [hsign, ← Nat.shiftLeft_add_eq_or_of_lt he, Nat.shiftLeft_eq]
    simp

theorem extended_negative (he : e.toNat < 2 ^ 15) : (extended negative e s).negative = negative := by
  have hmsb : (extended negative e s).negative = (extended negative e s).signAndExponent.msb :=
    (BitVec.msb_eq_getLsbD_last _).symm
  rw [hmsb, BitVec.msb_eq_decide, signAndExponent_toNat he]
  cases negative with
  | false => simpa using he
  | true => simp

theorem extended_exponent (he : e.toNat < 2 ^ 15) : (extended negative e s).exponent = e := by
  apply BitVec.eq_of_toNat_eq
  have hmask : (0x7fff : W16).toNat = 2 ^ 15 - 1 := rfl
  rw [X87Reg.exponent, BitVec.toNat_and, signAndExponent_toNat he, hmask, Nat.and_two_pow_sub_one_eq_mod]
  split <;> omega

end Extended

/-- The exponent and significand of the extended number. -/
def extendedFields (v : W64) : W16 × W64 :=
  if exponentField v = 0 then
    if fractionField v ≠ 0 then
      (BitVec.ofInt 16 ((fractionField v).toNat.log2 - 1074 + 16383),
        fractionField v <<< (63 - (fractionField v).toNat.log2))
    else (0, 0)
  else if exponentField v = 0x7ff then
    (0x7fff, if fractionField v ≠ 0 then (1 : W64) <<< 63 ||| (fractionField v <<< 11 ||| (1 : W64) <<< 62)
      else (1 : W64) <<< 63)
  else (BitVec.ofInt 16 ((exponentField v).toNat - 1023 + 16383), (1 : W64) <<< 63 ||| fractionField v <<< 11)

theorem to80_eq (v : W64) :
    x87Fp64bitTo80bit v = extended (v.getLsbD 63) (extendedFields v).1 (extendedFields v).2 := rfl

section RoundTrip

variable {v : W64}

/-- A fraction shifted up by eleven, below the integer bit. -/
theorem fraction_shift_toNat : (fractionField v <<< 11).toNat = (fractionField v).toNat * 2 ^ 11 := by
  have hlt := fractionField_lt v
  rw [BitVec.toNat_shiftLeft, Nat.shiftLeft_eq]
  exact Nat.mod_eq_of_lt (by omega)

theorem integer_or_toNat {x : W64} (hx : x.toNat < 2 ^ 63) : ((1 : W64) <<< 63 ||| x).toNat = 2 ^ 63 + x.toNat := by
  have hsign : (1 : W64) <<< 63 = signBits true := by decide
  rw [hsign, signBits_or_toNat true hx]
  rfl

/-- What the extended number of a finite, nonzero double is: normalised, and of the same
magnitude. -/
theorem extended_of_finite (hfin : exponentField v ≠ 0x7ff) (hne : exponentField v ≠ 0 ∨ fractionField v ≠ 0) :
    (extendedFields v).1.toNat < 2 ^ 15 - 1 ∧ 1 ≤ (extendedFields v).1.toNat ∧
      2 ^ 63 ≤ (extendedFields v).2.toNat ∧
      ((extendedFields v).2.toNat : ℚ) * 2 ^ ((extendedFields v).1.toNat - 16446 : ℤ) =
        doubleValue ((exponentField v).toNat * 2 ^ 52 + (fractionField v).toNat) := by
  have htwo : (2 : ℚ) ≠ 0 := by norm_num
  have hfrac := fractionField_lt v
  have hexp := exponentField_lt v
  by_cases hzero : exponentField v = 0
  · -- a subnormal number: the leading bit of the fraction is shifted to the integer bit
    have hfne := hne.resolve_left (not_not.2 hzero)
    have hfields : extendedFields v = (BitVec.ofInt 16 ((fractionField v).toNat.log2 - 1074 + 16383),
        fractionField v <<< (63 - (fractionField v).toNat.log2)) := by
      rw [extendedFields, if_pos hzero, if_pos hfne]
    have hfpos : (fractionField v).toNat ≠ 0 := by
      intro h
      exact hfne (BitVec.eq_of_toNat_eq h)
    have hbit : (fractionField v).toNat.log2 < 52 := (Nat.log2_lt hfpos).2 hfrac
    have hlow := Nat.log2_self_le hfpos
    have hhigh := Nat.lt_log2_self (n := (fractionField v).toNat)
    generalize hb : (fractionField v).toNat.log2 = b at *
    have hfirst : (BitVec.ofInt 16 ((b : ℤ) - 1074 + 16383)).toNat = b + 15309 := by
      have hcast : ((b : ℤ) - 1074 + 16383) = ((b + 15309 : ℕ) : ℤ) := by
        push_cast
        ring
      rw [hcast, BitVec.ofInt_natCast, BitVec.toNat_ofNat]
      exact Nat.mod_eq_of_lt (by omega)
    have hpow : 2 ^ b * 2 ^ (63 - b) = 2 ^ 63 := by
      rw [← pow_add]
      congr 1
      omega
    have hpow' : 2 ^ (b + 1) * 2 ^ (63 - b) = 2 ^ 64 := by
      rw [← pow_add]
      congr 1
      omega
    have hpos : 0 < 2 ^ (63 - b) := by positivity
    have hsecond : (fractionField v <<< (63 - b)).toNat = (fractionField v).toNat * 2 ^ (63 - b) := by
      rw [BitVec.toNat_shiftLeft, Nat.shiftLeft_eq]
      apply Nat.mod_eq_of_lt
      rw [← hpow']
      exact Nat.mul_lt_mul_of_pos_right hhigh hpos
    rw [hfields]
    dsimp only
    rw [hfirst, hsecond]
    refine ⟨by omega, by omega, ?_, ?_⟩
    · rw [← hpow]
      exact Nat.mul_le_mul_right _ hlow
    · have hez : (exponentField v).toNat = 0 := by
        rw [hzero]
        rfl
      rw [hez, doubleValue_segment (by omega) (.inl rfl)]
      have hunit : (2 : ℚ) ^ (63 - b) * 2 ^ ((b + 15309 : ℕ) - 16446 : ℤ) = 2 ^ ((0 : ℕ) - 1074 : ℤ) := by
        have hexps : ((63 - b : ℕ) : ℤ) + ((b + 15309 : ℕ) - 16446) = (0 : ℕ) - 1074 := by omega
        rw [← zpow_natCast, ← zpow_add₀ htwo, hexps]
      rw [← hunit]
      push_cast
      ring
  · -- a normal number: the integer bit is set over the fraction
    have hfields : extendedFields v = (BitVec.ofInt 16 ((exponentField v).toNat - 1023 + 16383),
        (1 : W64) <<< 63 ||| fractionField v <<< 11) := by
      rw [extendedFields, if_neg hzero, if_neg hfin]
    have hshift := @fraction_shift_toNat v
    have hsecond : ((1 : W64) <<< 63 ||| fractionField v <<< 11).toNat =
        2 ^ 63 + (fractionField v).toNat * 2 ^ 11 := by
      rw [integer_or_toNat (by omega), hshift]
    have hpos : 1 ≤ (exponentField v).toNat := by
      by_contra h
      apply hzero
      apply BitVec.eq_of_toNat_eq
      have hz : (0 : W16).toNat = 0 := rfl
      omega
    have htop : (exponentField v).toNat ≠ 2047 := by
      intro h
      apply hfin
      apply BitVec.eq_of_toNat_eq
      rw [h]
      rfl
    obtain ⟨e, he⟩ : ∃ e, (exponentField v).toNat = e + 1 := ⟨(exponentField v).toNat - 1, by omega⟩
    have hfirst : (BitVec.ofInt 16 ((exponentField v).toNat - 1023 + 16383 : ℤ)).toNat = e + 15361 := by
      have hcast : ((exponentField v).toNat - 1023 + 16383 : ℤ) = ((e + 15361 : ℕ) : ℤ) := by
        rw [he]
        push_cast
        ring
      rw [hcast, BitVec.ofInt_natCast, BitVec.toNat_ofNat]
      exact Nat.mod_eq_of_lt (by omega)
    rw [hfields]
    dsimp only
    rw [hfirst, hsecond, he]
    refine ⟨by omega, by omega, by omega, ?_⟩
    have hsum : (e + 1) * 2 ^ 52 + (fractionField v).toNat = e * 2 ^ 52 + (2 ^ 52 + (fractionField v).toNat) := by
      ring
    have hunit : (2 : ℚ) ^ (e - 1074 : ℤ) = 2 ^ 11 * 2 ^ ((e + 15361 : ℕ) - 16446 : ℤ) := by
      have hexps : ((11 : ℕ) : ℤ) + ((e + 15361 : ℕ) - 16446) = e - 1074 := by omega
      rw [← zpow_natCast, ← zpow_add₀ htwo, hexps]
    rw [hsum, doubleValue_segment (by omega) (.inr (by omega)), hunit]
    push_cast
    ring

/-- A finite, nonzero double comes back. -/
theorem roundTrip_finite (rc : Fin 4) (hfin : exponentField v ≠ 0x7ff)
    (hne : exponentField v ≠ 0 ∨ fractionField v ≠ 0) : x87Fp80bitTo64bit (x87Fp64bitTo80bit v) rc = v := by
  obtain ⟨hexp, hpos, hint, hvalue⟩ := extended_of_finite hfin hne
  have hnegative := @extended_negative (extendedFields v).1 (extendedFields v).2 (v.getLsbD 63) (by omega)
  have hexponent := @extended_exponent (extendedFields v).1 (extendedFields v).2 (v.getLsbD 63) (by omega)
  have hsignificand := @extended_significand (extendedFields v).1 (extendedFields v).2 (v.getLsbD 63)
  rw [← to80_eq] at hnegative hexponent hsignificand
  have hmag : (x87Fp64bitTo80bit v).magnitude =
      doubleValue ((exponentField v).toNat * 2 ^ 52 + (fractionField v).toNat) := by
    rw [magnitude_of_pos (by rw [hexponent]; exact hpos), hexponent, hsignificand, hvalue]
  have hfinite : (x87Fp64bitTo80bit v).Finite := by
    right
    rw [hexponent, hsignificand]
    constructor
    · intro h
      rw [h] at hexp
      exact absurd hexp (by decide)
    · rw [sign_eq]
      exact decide_eq_true hint
  obtain ⟨m, hresult, hround⟩ := @rounded_of_finite _ rc hfinite
  have hbits : (exponentField v).toNat * 2 ^ 52 + (fractionField v).toNat < infinityBits := by
    have hfrac := fractionField_lt v
    have htop : (exponentField v).toNat ≠ 2047 := by
      intro h
      apply hfin
      apply BitVec.eq_of_toNat_eq
      rw [h]
      rfl
    have hlt := exponentField_lt v
    rw [infinityBits_eq]
    omega
  have hmono : StrictMonoOn doubleValue (Set.Iic infinityBits) := doubleValue_strictMono.strictMonoOn _
  rw [hmag, hnegative] at hround
  have hm := RoundsTo.unique hmono hround (roundsTo_self hmono _ hbits)
  apply BitVec.eq_of_toNat_eq
  rw [hresult, hm, hnegative, ← fields_toNat]

/-- A word with the fields of `v` is `v`. -/
theorem signBits_or_eq {x : W64}
    (hx : x.toNat = (exponentField v).toNat * 2 ^ 52 + (fractionField v).toNat) (hlt : x.toNat < 2 ^ 63) :
    signBits (v.getLsbD 63) ||| x = v := by
  apply BitVec.eq_of_toNat_eq
  rw [signBits_or_toNat _ hlt, hx, ← fields_toNat]

theorem roundTrip_zero (rc : Fin 4) (hexp : exponentField v = 0) (hfrac : fractionField v = 0) :
    x87Fp80bitTo64bit (x87Fp64bitTo80bit v) rc = v := by
  have hfields : extendedFields v = (0, 0) := by
    rw [extendedFields, if_pos hexp, if_neg (not_not.2 hfrac)]
  have hzero : (0 : W16).toNat < 2 ^ 15 := by decide
  have hnegative := @extended_negative 0 0 (v.getLsbD 63) hzero
  have hexponent := @extended_exponent 0 0 (v.getLsbD 63) hzero
  have hsignificand := @extended_significand 0 0 (v.getLsbD 63)
  have hback : signBits (v.getLsbD 63) ||| 0 = v := by
    apply signBits_or_eq
    · rw [hexp, hfrac]
      rfl
    · decide
  rw [to80_eq, hfields]
  unfold x87Fp80bitTo64bit
  rw [if_pos hexponent, if_pos hsignificand, hnegative]
  have hor : signBits (v.getLsbD 63) ||| 0 = signBits (v.getLsbD 63) := BitVec.or_zero
  rw [← hor]
  exact hback

/-- The significand of a NaN: neither that of an infinity nor of one without a payload. The
shift back down meets the quiet bit that the shift up has set. -/
theorem nan_significand (v : W64) :
    let s : W64 := (1 : W64) <<< 63 ||| (fractionField v <<< 11 ||| (1 : W64) <<< 62)
    s.getLsbD 63 = true ∧ s &&& (((1 : W64) <<< 63) - 1) ≠ 0 ∧
      (s &&& (((1 : W64) <<< 63) - 1)) >>> 11 ||| (1 : W64) <<< 51 = fractionField v ||| (1 : W64) <<< 51 := by
  intro s
  have hfield := fractionField_lt v
  have hquiet : ((1 : W64) <<< 62).toNat = 2 ^ 62 := one_shiftLeft_toNat 62 (by omega)
  have hshift := @fraction_shift_toNat v
  have hle : 2 ^ 62 ≤ (fractionField v <<< 11 ||| (1 : W64) <<< 62).toNat := by
    rw [BitVec.toNat_or, hquiet]
    exact Nat.right_le_or
  have hlt : (fractionField v <<< 11 ||| (1 : W64) <<< 62).toNat < 2 ^ 63 := by
    rw [BitVec.toNat_or, hquiet]
    exact Nat.or_lt_two_pow (by omega) (by omega)
  have hs : s.toNat = 2 ^ 63 + (fractionField v <<< 11 ||| (1 : W64) <<< 62).toNat := integer_or_toNat hlt
  have hmasked : s &&& (((1 : W64) <<< 63) - (1 : W64)) = fractionField v <<< 11 ||| (1 : W64) <<< 62 := by
    apply BitVec.eq_of_toNat_eq
    rw [and_low_toNat _ 63 (by omega), hs]
    omega
  have hback : (fractionField v <<< 11) >>> 11 = fractionField v := by
    apply BitVec.eq_of_toNat_eq
    rw [BitVec.toNat_ushiftRight, hshift, Nat.shiftRight_eq_div_pow]
    exact Nat.mul_div_cancel _ (by omega)
  have hdown : ((1 : W64) <<< 62) >>> 11 = (1 : W64) <<< 51 := by decide
  refine ⟨?_, ?_, ?_⟩
  · rw [sign_eq, hs]
    simp
  · rw [hmasked]
    intro h
    rw [h] at hle
    exact absurd hle (by decide)
  · rw [hmasked, BitVec.ushiftRight_or_distrib, hback, hdown, BitVec.or_assoc, BitVec.or_self]

theorem or_bit_of_set (k : ℕ) (hbit : v.getLsbD k = true) : v ||| (1 : W64) <<< k = v := by
  apply BitVec.eq_of_getLsbD_eq
  intro i hi
  have hone : (1 : W64) = 1#64 := rfl
  rw [BitVec.getLsbD_or, BitVec.getLsbD_shiftLeft, hone, BitVec.getLsbD_one]
  by_cases hik : i = k
  · rw [hik, hbit, Bool.true_or]
  · have hoff : ¬ (k ≤ i ∧ i - k = 0) := by omega
    by_cases hle : i < k
    · simp [hle]
    · have hne : i - k ≠ 0 := by omega
      simp [hne]

/-- Infinities come back, of a NaN its sign and payload, quiet. -/
theorem roundTrip_special (rc : Fin 4) (hexp : exponentField v = 0x7ff) :
    x87Fp80bitTo64bit (x87Fp64bitTo80bit v) rc =
      if fractionField v = 0 then v else v ||| (1 : W64) <<< 51 := by
  have hne : ¬ exponentField v = 0 := by
    rw [hexp]
    decide
  have hfields : extendedFields v = ((0x7fff : W16),
      if fractionField v ≠ 0 then (1 : W64) <<< 63 ||| (fractionField v <<< 11 ||| (1 : W64) <<< 62)
        else (1 : W64) <<< 63) := by
    rw [extendedFields, if_neg hne, if_pos hexp]
  have hlt : (0x7fff : W16).toNat < 2 ^ 15 := by decide
  have hnegative := fun s => @extended_negative 0x7fff s (v.getLsbD 63) hlt
  have hexponent := fun s => @extended_exponent 0x7fff s (v.getLsbD 63) hlt
  have hsignificand := fun s => @extended_significand 0x7fff s (v.getLsbD 63)
  have hnz : ¬ (0x7fff : W16) = 0 := by decide
  rw [to80_eq, hfields]
  unfold x87Fp80bitTo64bit
  dsimp only
  rw [hnegative, hexponent, hsignificand, if_neg hnz, if_pos rfl]
  by_cases hfrac : fractionField v = 0
  · have hint : ((1 : W64) <<< 63).getLsbD 63 = true ∧
        (1 : W64) <<< 63 &&& (((1 : W64) <<< 63) - 1) = 0 := by decide
    rw [if_neg (not_not.2 hfrac), if_pos hint, if_pos hfrac]
    apply signBits_or_eq
    · rw [hexp, hfrac]
      decide
    · decide
  · -- the payload comes back; the quiet bit is set on the way
    obtain ⟨hbit, hlow, hpayload⟩ := nan_significand v
    have hfield := fractionField_lt v
    have htop : (0x7ff : W64).toNat = 2047 := rfl
    have hsame : (exponentField v).toNat = 2047 := by
      rw [hexp]
      rfl
    have hword : ((0x7ff : W64) <<< 52 ||| fractionField v).toNat = 2047 * 2 ^ 52 + (fractionField v).toNat := by
      rw [exponent_or_toNat (by decide) hfield, htop]
    have hv : signBits (v.getLsbD 63) ||| ((0x7ff : W64) <<< 52 ||| fractionField v) = v := by
      apply signBits_or_eq
      · rw [hword, hsame]
      · rw [hword]
        omega
    rw [if_pos hfrac, if_neg hfrac, if_neg (fun h => hlow h.2), x87NanDoubleBits, hpayload, BitVec.or_assoc,
      ← BitVec.or_assoc _ (fractionField v), ← BitVec.or_assoc, hv]

/-- **The way there and back** changes nothing but signaling NaNs, whatever the rounding
control. -/
theorem roundTrip (v : W64) (rc : Fin 4) : x87Fp80bitTo64bit (x87Fp64bitTo80bit v) rc = quieted v := by
  by_cases hspecial : exponentField v = 0x7ff
  · rw [roundTrip_special rc hspecial, quieted]
    by_cases hfrac : fractionField v = 0
    · have hquiet : ¬ IsSignaling v := fun h => h.2.1 hfrac
      rw [if_pos hfrac, if_neg hquiet]
    · rw [if_neg hfrac]
      by_cases hbit : v.getLsbD 51 = false
      · rw [if_pos ⟨hspecial, hfrac, hbit⟩]
      · rw [if_neg (fun h => hbit h.2.2)]
        exact or_bit_of_set 51 (by simpa using hbit)
  · have hquiet : ¬ IsSignaling v := fun h => hspecial h.1
    rw [quieted, if_neg hquiet]
    by_cases hzero : exponentField v = 0 ∧ fractionField v = 0
    · exact roundTrip_zero rc hzero.1 hzero.2
    · apply roundTrip_finite rc hspecial
      by_contra hboth
      push Not at hboth
      exact hzero hboth

end RoundTrip

end X86Sim
