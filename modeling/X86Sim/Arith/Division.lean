import X86Sim.Arith.LongDiv
import X86Sim.UopImpl

/-!
# Unsigned division (`superstl.cpp`, `uopimpl.cpp`)

`div_rem` divides a dividend of two words by one and reports failure where the quotient
needs more than a word. The wide form goes through `long_div`, the narrow ones through the
host's division of 64 bits.

* `divRem64_exact`: the wide form is Euclidean division, whatever bits the loop loses.
* `divRem_exact`: so are the narrow forms.
-/

namespace X86Sim

/-- What `div_rem` returns and leaves in its two references. -/
structure DivRem (w : ℕ) where
  ok : Bool
  quotient : BitVec w
  remainder : BitVec w
  deriving DecidableEq

/-- The common exit `out` of the divisions. -/
def DivRem.out {w : ℕ} : DivRem w := ⟨false, 0, 0⟩

/-- `div_rem<W64>`. -/
def divRem64 (dividendHi dividendLo divisor : W64) : DivRem 64 :=
  if divisor = 0 then .out
  else
    let r := longDiv ⟨dividendLo, dividendHi⟩ divisor
    if r.1.hi ≠ 0 then .out else ⟨true, r.1.lo, r.2⟩

/-- `div_rem` of a narrow `T`, on the host's 64 bits. -/
def divRem {w : ℕ} (dividendHi dividendLo divisor : BitVec w) : DivRem w :=
  let dividend : W64 := dividendHi.setWidth 64 <<< w + dividendLo.setWidth 64
  if divisor = 0 then .out
  else
    let quotient : W64 := dividend / divisor.setWidth 64
    let remainder : BitVec w := (dividend % divisor.setWidth 64).setWidth w
    let quotientlo : BitVec w := quotient.setWidth w
    if quotient ≠ quotientlo.setWidth 64 then .out else ⟨true, quotientlo, remainder⟩

/-- The overload of `div_rem` for a type of `w` bits. -/
def divRemOf {w : ℕ} (dividendHi dividendLo divisor : BitVec w) : DivRem w :=
  if w = 64 then
    let r := divRem64 (dividendHi.setWidth 64) (dividendLo.setWidth 64) (divisor.setWidth 64)
    ⟨r.ok, r.quotient.setWidth w, r.remainder.setWidth w⟩
  else divRem dividendHi dividendLo divisor

/-- Success exactly where the Euclidean quotient fits, and then that division. -/
structure DivRem.Exact {w : ℕ} (r : DivRem w) (dividend divisor : ℕ) : Prop where
  ok_iff : r.ok = true ↔ divisor ≠ 0 ∧ dividend / divisor < 2 ^ w
  quotient_eq : r.ok = true → r.quotient.toNat = dividend / divisor
  remainder_eq : r.ok = true → r.remainder.toNat = dividend % divisor

/-! ### The wide form -/

section Wide

variable (hi lo divisor : W64)

/-- The quotient fits exactly when the high word is below the divisor. -/
theorem quotient_lt_iff : divisor ≠ 0 ∧ (W128.mk lo hi).toNat / divisor.toNat < 2 ^ 64 ↔ hi < divisor := by
  have hlo := lo.isLt
  rw [BitVec.lt_def]
  constructor
  · rintro ⟨hne, hlt⟩
    have hpos : 0 < divisor.toNat := by
      apply Nat.pos_of_ne_zero
      intro h
      apply hne
      exact BitVec.eq_of_toNat_eq h
    rw [Nat.div_lt_iff_lt_mul hpos] at hlt
    have hdef : (W128.mk lo hi).toNat = hi.toNat * 2 ^ 64 + lo.toNat := rfl
    omega
  · intro hlt
    have hpos : 0 < divisor.toNat := by omega
    refine ⟨?_, ?_⟩
    · rintro rfl
      exact absurd hpos (by decide)
    · rw [Nat.div_lt_iff_lt_mul hpos]
      unfold W128.toNat
      have hsucc : hi.toNat + 1 ≤ divisor.toNat := hlt
      have hmul := Nat.mul_le_mul_left (2 ^ 64) hsucc
      simp only at hmul ⊢
      omega

/-- While the high word is below the divisor, no multiple under the dividend reaches
`2 ^ 127`, so no shift loses a bit. -/
theorem shifted_lt (hlt : hi < divisor) (n : ℕ) (hn : divisor.toNat * 2 ^ n ≤ (W128.mk lo hi).toNat) :
    divisor.toNat * 2 ^ n < 2 ^ 127 := by
  rw [BitVec.lt_def] at hlt
  have hlo := lo.isLt
  have hdivisor := divisor.isLt
  have htop : (W128.mk lo hi).toNat < divisor.toNat * 2 ^ 64 := by
    unfold W128.toNat
    have hmul := Nat.mul_le_mul_right (2 ^ 64) (show hi.toNat + 1 ≤ divisor.toNat from hlt)
    simp only at hmul ⊢
    omega
  have hpos : 0 < divisor.toNat := by omega
  have hn63 : n ≤ 63 := by
    have hpow : 2 ^ n < 2 ^ 64 := Nat.lt_of_mul_lt_mul_left (lt_of_le_of_lt hn htop)
    have := (Nat.pow_lt_pow_iff_right (by omega : 1 < 2)).1 hpow
    omega
  calc divisor.toNat * 2 ^ n ≤ divisor.toNat * 2 ^ 63 :=
        Nat.mul_le_mul_left _ (Nat.pow_le_pow_right (by omega) hn63)
    _ < 2 ^ 64 * 2 ^ 63 := Nat.mul_lt_mul_of_pos_right hdivisor (by decide)
    _ = 2 ^ 127 := by decide

/-- The wide division is exact: a high word below the divisor loses no bit, and from there
on the quotient has a high word even where bits are lost. -/
theorem divRem64_isExact : (divRem64 hi lo divisor).Exact (W128.mk lo hi).toNat divisor.toNat := by
  have hdivisor := divisor.isLt
  have hzero : divisor.toNat ≠ 0 ↔ divisor ≠ 0 := by
    rw [ne_eq, ne_eq, ← BitVec.toNat_inj]
    rfl
  by_cases hne : divisor = 0
  · have hout : divRem64 hi lo divisor = .out := by
      simp [divRem64, hne]
    have hval : divisor.toNat = 0 := by
      rw [hne]
      rfl
    constructor <;> simp [hout, DivRem.out, hval]
  · have hrun : divRem64 hi lo divisor =
        if (longDiv ⟨lo, hi⟩ divisor).1.hi ≠ 0 then .out
        else ⟨true, (longDiv ⟨lo, hi⟩ divisor).1.lo, (longDiv ⟨lo, hi⟩ divisor).2⟩ := by
      rw [divRem64, if_neg hne]
    have hpos : 0 < divisor.toNat := Nat.pos_of_ne_zero (hzero.2 hne)
    -- the quotient fits in a word just when the high word is below the divisor
    by_cases hlt : hi < divisor
    · obtain ⟨hq, hr⟩ := @longDiv_exact ⟨lo, hi⟩ divisor hpos (shifted_lt hi lo divisor hlt)
      have hfit := ((quotient_lt_iff hi lo divisor).2 hlt).2
      have hhi : (longDiv ⟨lo, hi⟩ divisor).1.hi = 0 := by
        apply BitVec.eq_of_toNat_eq
        rw [← hq] at hfit
        unfold W128.toNat at hfit
        have hz : (0 : W64).toNat = 0 := rfl
        omega
      have hlow : (longDiv ⟨lo, hi⟩ divisor).1.lo.toNat = (W128.mk lo hi).toNat / divisor.toNat := by
        rw [← hq, W128.toNat, hhi]
        simp
      rw [hrun, if_neg (not_not.2 hhi)]
      exact ⟨⟨fun _ => ⟨hzero.2 hne, hfit⟩, fun _ => rfl⟩, fun _ => hlow, fun _ => hr⟩
    · have hbig : divisor.toNat * 2 ^ 64 ≤ (W128.mk lo hi).toNat := by
        have hle : divisor.toNat ≤ hi.toNat := not_lt.1 hlt
        have hmul := Nat.mul_le_mul_right (2 ^ 64) hle
        exact le_trans hmul (Nat.le_add_right _ _)
      have hhi : (longDiv ⟨lo, hi⟩ divisor).1.hi ≠ 0 := by
        intro h
        have hword := @longDiv_hi ⟨lo, hi⟩ divisor hbig
        have hlo := (longDiv ⟨lo, hi⟩ divisor).1.lo.isLt
        rw [W128.toNat, h] at hword
        have hz : (0 : W64).toNat = 0 := rfl
        omega
      rw [hrun, if_pos hhi]
      refine ⟨⟨fun h => absurd h Bool.false_ne_true, ?_⟩,
        fun h => absurd h Bool.false_ne_true, fun h => absurd h Bool.false_ne_true⟩
      rintro ⟨_, hfit⟩
      exact absurd ((quotient_lt_iff hi lo divisor).1 ⟨hne, hfit⟩) hlt

/-- Where the first loop of `long_div` stops, by its own condition and not by the bound on
its turns. -/
theorem normLoop_stops (dividend : W128) :
    let r := normLoop dividend 129 (.ofW64 divisor) 0
    (longLe r.1 dividend && r.2 < 128) = false ∧ r.2 ≤ 128 := by
  intro r
  have hnorm := normalised_longDiv dividend divisor
  refine ⟨?_, hnorm.le⟩
  rcases hnorm.stopped with hlt | hfull
  · have hle : longLe r.1 dividend = false := by
      rw [Bool.eq_false_iff, ne_eq, longLe_iff]
      exact not_le.2 hlt
    rw [hle, Bool.false_and]
  · have hend : ¬ r.2 < 128 := by
      have : r.2 = 128 := hfull
      omega
    rw [decide_eq_false hend, Bool.and_false]

/-- **The wide division.** For every dividend of 128 bits, also from `2 ^ 127` on where the
divisor is shifted out of the word: success exactly below the bound, the Euclidean quotient
and remainder, and a loop that ends within 128 shifts. -/
theorem divRem64_exact :
    (divRem64 hi lo divisor).Exact (W128.mk lo hi).toNat divisor.toNat ∧
      ((divRem64 hi lo divisor).ok = true ↔ hi < divisor) ∧
      let r := normLoop ⟨lo, hi⟩ 129 (.ofW64 divisor) 0
      (longLe r.1 ⟨lo, hi⟩ && r.2 < 128) = false ∧ r.2 ≤ 128 := by
  have hexact := divRem64_isExact hi lo divisor
  refine ⟨hexact, ?_, normLoop_stops divisor ⟨lo, hi⟩⟩
  rw [hexact.ok_iff, ← quotient_lt_iff hi lo divisor]
  apply and_congr_left'
  rw [ne_eq, ne_eq, ← BitVec.toNat_inj]
  rfl

end Wide

/-! ### The narrow forms -/

/-- A dividend of two narrow words fits in 64 bits, and the host divides it. -/
theorem divRem_exact {w : ℕ} (hw : w ≤ 32) (hi lo divisor : BitVec w) :
    (divRem hi lo divisor).Exact (hi.toNat * 2 ^ w + lo.toNat) divisor.toNat := by
  have hhi := hi.isLt
  have hlo := lo.isLt
  have hdivisor := divisor.isLt
  have hpow : 2 ^ w ≤ 2 ^ 32 := Nat.pow_le_pow_right (by omega) hw
  have htwo : 2 ^ w * 2 ^ w ≤ 2 ^ 64 := by
    calc 2 ^ w * 2 ^ w ≤ 2 ^ 32 * 2 ^ 32 := Nat.mul_le_mul hpow hpow
      _ = 2 ^ 64 := by decide
  -- two narrow words make a dividend of 64 bits, so the host division is the exact one
  have hbound : hi.toNat * 2 ^ w + lo.toNat < 2 ^ 64 := by
    have hmul := Nat.mul_le_mul_right (2 ^ w) (show hi.toNat + 1 ≤ 2 ^ w from hhi)
    have hexp : (hi.toNat + 1) * 2 ^ w = hi.toNat * 2 ^ w + 2 ^ w := by ring
    omega
  have hdividend : (hi.setWidth 64 <<< w + lo.setWidth 64).toNat = hi.toNat * 2 ^ w + lo.toNat := by
    have hhi' : hi.toNat % 2 ^ 64 = hi.toNat := Nat.mod_eq_of_lt (by omega)
    have hlo' : lo.toNat % 2 ^ 64 = lo.toNat := Nat.mod_eq_of_lt (by omega)
    rw [BitVec.toNat_add, BitVec.toNat_shiftLeft, BitVec.toNat_setWidth, BitVec.toNat_setWidth,
      Nat.shiftLeft_eq, hhi', hlo', Nat.mod_eq_of_lt (by omega : hi.toNat * 2 ^ w < 2 ^ 64)]
    exact Nat.mod_eq_of_lt hbound
  have hdiv : (divisor.setWidth 64).toNat = divisor.toNat := by
    rw [BitVec.toNat_setWidth]
    exact Nat.mod_eq_of_lt (by omega)
  have hzero : divisor.toNat ≠ 0 ↔ divisor ≠ 0 := by
    have hz : (0 : BitVec w).toNat = 0 := BitVec.toNat_zero
    rw [ne_eq, ne_eq, ← BitVec.toNat_inj, hz]
  set dividend : W64 := hi.setWidth 64 <<< w + lo.setWidth 64 with hset
  by_cases hne : divisor = 0
  · have hout : divRem hi lo divisor = .out := by
      simp [divRem, hne]
    have hval : divisor.toNat = 0 := by
      rw [hne]
      exact BitVec.toNat_zero
    constructor <;> simp [hout, DivRem.out, hval]
  · have hpos : 0 < divisor.toNat := Nat.pos_of_ne_zero (hzero.2 hne)
    have hrun : divRem hi lo divisor =
        if dividend / divisor.setWidth 64 ≠ ((dividend / divisor.setWidth 64).setWidth w).setWidth 64 then .out
        else ⟨true, (dividend / divisor.setWidth 64).setWidth w,
          (dividend % divisor.setWidth 64).setWidth w⟩ := by
      rw [divRem, if_neg hne]
    have hquot : (dividend / divisor.setWidth 64).toNat = (hi.toNat * 2 ^ w + lo.toNat) / divisor.toNat := by
      rw [BitVec.toNat_udiv, hdividend, hdiv]
    have hrem : (dividend % divisor.setWidth 64).toNat = (hi.toNat * 2 ^ w + lo.toNat) % divisor.toNat := by
      rw [BitVec.toNat_umod, hdividend, hdiv]
    -- the quotient survives the truncation just when it fits in a word
    have hfits : dividend / divisor.setWidth 64 = ((dividend / divisor.setWidth 64).setWidth w).setWidth 64 ↔
        (hi.toNat * 2 ^ w + lo.toNat) / divisor.toNat < 2 ^ w := by
      rw [← BitVec.toNat_inj, BitVec.toNat_setWidth, BitVec.toNat_setWidth, hquot]
      generalize (hi.toNat * 2 ^ w + lo.toNat) / divisor.toNat = q
      have hmod : q % 2 ^ w < 2 ^ w := Nat.mod_lt _ (by positivity)
      rw [Nat.mod_eq_of_lt (by omega : q % 2 ^ w < 2 ^ 64)]
      constructor
      · intro h
        omega
      · intro h
        exact (Nat.mod_eq_of_lt h).symm
    rw [hrun]
    split
    · rename_i hno
      rw [ne_eq, hfits] at hno
      exact ⟨⟨fun h => absurd h Bool.false_ne_true, fun h => absurd h.2 hno⟩,
        fun h => absurd h Bool.false_ne_true, fun h => absurd h Bool.false_ne_true⟩
    · rename_i hyes
      rw [not_not, hfits] at hyes
      refine ⟨⟨fun _ => ⟨hzero.2 hne, hyes⟩, fun _ => rfl⟩, fun _ => ?_, fun _ => ?_⟩
      · rw [BitVec.toNat_setWidth, hquot]
        exact Nat.mod_eq_of_lt hyes
      · rw [BitVec.toNat_setWidth, hrem]
        apply Nat.mod_eq_of_lt
        exact lt_trans (Nat.mod_lt _ hpos) hdivisor

/-- Every overload divides exactly. -/
theorem divRemOf_exact {w : ℕ} (hw : w ≤ 32 ∨ w = 64) (hi lo divisor : BitVec w) :
    (divRemOf hi lo divisor).Exact (hi.toNat * 2 ^ w + lo.toNat) divisor.toNat := by
  rcases hw with hw | rfl
  · have hne : w ≠ 64 := by omega
    rw [divRemOf, if_neg hne]
    exact divRem_exact hw hi lo divisor
  · have hsame : divRemOf hi lo divisor = divRem64 hi lo divisor := by
      simp [divRemOf]
    rw [hsame]
    exact divRem64_isExact hi lo divisor

/-! ### The uops -/

/-- `x86_div`. -/
def x86Div (size : ℕ) (i : UopInputs) : UopResult :=
  let w := opWidth size
  let r := divRemOf (i.ra.setWidth w) (i.rb.setWidth w) (i.rc.setWidth w)
  if r.ok then ⟨x86Merge size i.rb (r.quotient.setWidth 64), x86Genflags r.quotient⟩
  else ⟨exceptionWord .divideOverflow .none, FLAG_INV⟩

/-- `x86_rem`. -/
def x86Rem (size : ℕ) (i : UopInputs) : UopResult :=
  let w := opWidth size
  let r := divRemOf (i.ra.setWidth w) (i.rb.setWidth w) (i.rc.setWidth w)
  if r.ok then ⟨x86Merge size i.ra (r.remainder.setWidth 64), x86Genflags r.remainder⟩
  else ⟨exceptionWord .divideOverflow .none, FLAG_INV⟩

end X86Sim
