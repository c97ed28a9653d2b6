import Mathlib.Data.Int.Order.Basic
import Mathlib.Data.Nat.Prime.Basic
import X86Sim.Arith.Division

/-!
# Signed division (`superstl.cpp`, `uopimpl.cpp`)

`div_rem_s` divides by the absolute values and repairs the signs. The wide form meets
`long_div` where it loses the divisor; the narrow forms hand the host's division its one
operand pair without a result, since their guard compares a sign-extended divisor with a
mask of ones.

* `divRemS64_exact_iff`: the wide form is right except for `-2 ^ 127` by a power of two.
* `divRemS_exact_iff`: the narrow forms are right except for 32 bits at `-2 ^ 63` by `-1`.
-/

namespace X86Sim

/-- `long_idiv`. The negation of the least dividend is the wrapped one. -/
def longIdiv (dividend : W128) (divisor : W64) : W128 × W64 :=
  let dividendWasNegative := dividend.hi.msb
  let divisorWasNegative := divisor.msb
  let temp := if dividendWasNegative then longNeg dividend else dividend
  let divisor := if divisorWasNegative then -divisor else divisor
  let r := longDiv temp divisor
  (if dividendWasNegative != divisorWasNegative then longNeg r.1 else r.1,
    if dividendWasNegative then -r.2 else r.2)

/-- `div_rem_s<W64>`. -/
def divRemS64 (dividendHi dividendLo divisor : W64) : DivRem 64 :=
  if divisor = 0 then .out
  else if divisor = -1 ∧ dividendHi = 0x8000000000000000 ∧ dividendLo = 0 then .out
  else
    let r := longIdiv ⟨dividendLo, dividendHi⟩ divisor
    let top := r.1.lo &&& 0x8000000000000000
    if top = 0 ∧ r.1.hi ≠ 0 ∨ top ≠ 0 ∧ r.1.hi ≠ 0xffffffffffffffff then .out
    else ⟨true, r.1.lo, r.2⟩

/-- `div_rem_s` of a narrow `T`; `none` where the host's division has no result. -/
def divRemS {w : ℕ} (dividendHi dividendLo udivisor : BitVec w) : Option (DivRem w) :=
  let dividend : W64 := signext64 (dividendHi.setWidth 64) w <<< w + dividendLo.setWidth 64
  let divisor : W64 := signext64 (udivisor.setWidth 64) w
  if divisor = 0 then some .out
  else if dividend = signext64 (1 <<< (w * 2 - 1)) (w * 2) ∧ divisor = bitmask w then some .out
  else if dividend = BitVec.intMin 64 ∧ divisor = -1 then none
  else
    let quotient := dividend.sdiv divisor
    let remainder : BitVec w := (dividend.srem divisor).setWidth w
    let quotientlo : BitVec w := quotient.setWidth w
    if quotient ≠ signext64 (quotientlo.setWidth 64) w then some .out
    else some ⟨true, quotientlo, remainder⟩

/-- Success exactly where the truncated quotient fits, and then that quotient and a
remainder with the sign of the dividend. -/
structure DivRem.SignedExact {w : ℕ} (r : DivRem w) (dividend divisor : ℤ) : Prop where
  ok_iff : r.ok = true ↔
    divisor ≠ 0 ∧ -2 ^ (w - 1) ≤ dividend.tdiv divisor ∧ dividend.tdiv divisor < 2 ^ (w - 1)
  quotient_eq : r.ok = true → r.quotient.toInt = dividend.tdiv divisor
  sum_eq : r.ok = true → r.quotient.toInt * divisor + r.remainder.toInt = dividend
  lt : r.ok = true → r.remainder.toInt.natAbs < divisor.natAbs
  sign_eq : r.ok = true → r.remainder.toInt ≠ 0 → r.remainder.toInt.sign = dividend.sign

section Exact

variable {w : ℕ} {r : DivRem w} {dividend divisor : ℤ}

theorem DivRem.signedExact_of_eq (hok : r.ok = true) (hne : divisor ≠ 0)
    (hfit : -2 ^ (w - 1) ≤ dividend.tdiv divisor ∧ dividend.tdiv divisor < 2 ^ (w - 1))
    (hquot : r.quotient.toInt = dividend.tdiv divisor)
    (hrem : r.remainder.toInt = dividend.tmod divisor) : r.SignedExact dividend divisor := by
  refine ⟨⟨fun _ => ⟨hne, hfit⟩, fun _ => hok⟩, fun _ => hquot, fun _ => ?_, fun _ => ?_, ?_⟩
  · rw [hquot, hrem]
    exact Int.tdiv_mul_add_tmod dividend divisor
  · rw [hrem, Int.natAbs_tmod]
    exact Nat.mod_lt _ (Int.natAbs_pos.2 hne)
  · intro _ hzero
    rw [hrem] at hzero ⊢
    rw [Int.sign_tmod, if_neg]
    intro hdvd
    exact hzero (Int.tmod_eq_zero_of_dvd hdvd)

theorem DivRem.signedExact_out
    (hno : ¬ (divisor ≠ 0 ∧ -2 ^ (w - 1) ≤ dividend.tdiv divisor ∧ dividend.tdiv divisor < 2 ^ (w - 1))) :
    (DivRem.out : DivRem w).SignedExact dividend divisor :=
  ⟨⟨fun h => absurd h Bool.false_ne_true, fun h => absurd h hno⟩, fun h => absurd h Bool.false_ne_true,
    fun h => absurd h Bool.false_ne_true, fun h => absurd h Bool.false_ne_true,
    fun h => absurd h Bool.false_ne_true⟩

/-- Truncated division from the absolute values and the signs. -/
theorem tdiv_eq_natAbs (x d : ℤ) : x.tdiv d =
    if (x < 0 ↔ d < 0) then ((x.natAbs / d.natAbs : ℕ) : ℤ) else -((x.natAbs / d.natAbs : ℕ) : ℤ) := by
  have hpair : (((x.natAbs / d.natAbs : ℕ) : ℤ)) = (x.natAbs : ℤ).tdiv d.natAbs := Int.ofNat_tdiv _ _
  rw [hpair]
  rcases lt_or_ge x 0 with hx | hx <;> rcases lt_or_ge d 0 with hd | hd
  · rw [Int.ofNat_natAbs_of_nonpos hx.le, Int.ofNat_natAbs_of_nonpos hd.le, Int.neg_tdiv_neg]
    simp [hx, hd]
  · rw [Int.ofNat_natAbs_of_nonpos hx.le, Int.natAbs_of_nonneg hd, Int.neg_tdiv]
    simp [hx, not_lt.2 hd]
  · rw [Int.natAbs_of_nonneg hx, Int.ofNat_natAbs_of_nonpos hd.le, Int.tdiv_neg]
    simp [hd, not_lt.2 hx]
  · rw [Int.natAbs_of_nonneg hx, Int.natAbs_of_nonneg hd]
    simp [not_lt.2 hx, not_lt.2 hd]

theorem tmod_eq_natAbs (x d : ℤ) : x.tmod d =
    if x < 0 then -((x.natAbs % d.natAbs : ℕ) : ℤ) else ((x.natAbs % d.natAbs : ℕ) : ℤ) := by
  have hpair : (((x.natAbs % d.natAbs : ℕ) : ℤ)) = (x.natAbs : ℤ).tmod d.natAbs := Int.ofNat_tmod _ _
  have habs : (x.natAbs : ℤ).tmod d.natAbs = (x.natAbs : ℤ).tmod d := by
    rcases Int.natAbs_eq d with hd | hd
    · rw [← hd]
    · conv_rhs => rw [hd, Int.tmod_neg]
  rw [hpair, habs]
  rcases lt_or_ge x 0 with hx | hx
  · rw [Int.ofNat_natAbs_of_nonpos hx.le, Int.neg_tmod, if_pos hx, neg_neg]
  · rw [Int.natAbs_of_nonneg hx, if_neg (not_lt.2 hx)]

end Exact

/-! ### The wide form -/

/-- The value of a signed dividend of two words. -/
def signedDividend {w : ℕ} (hi lo : BitVec w) : ℤ := hi.toInt * 2 ^ w + lo.toNat

/-- Where the wide form goes wrong: `long_div` shifts a power of two out of the word before
it exceeds `2 ^ 127`, and divides by what is left. The divisor `-1` has a guard. -/
def LosesDivisor (dividend divisor : ℤ) : Prop :=
  dividend = -2 ^ 127 ∧ divisor ≠ -1 ∧ ∃ k, divisor.natAbs = 2 ^ k

section Wide

variable (hi lo divisor : W64)

theorem toInt_word (a : W64) : a.toInt = if a.msb then (a.toNat : ℤ) - 2 ^ 64 else (a.toNat : ℤ) := by
  rw [BitVec.toInt_eq_msb_cond]
  rfl

theorem msb_word (a : W64) : a.msb = decide (2 ^ 63 ≤ a.toNat) := by
  rw [BitVec.msb_eq_decide]

theorem signedDividend_neg : signedDividend hi lo < 0 ↔ hi.msb = true := by
  have hlo := lo.isLt
  have hhi := hi.isLt
  rw [signedDividend, toInt_word, msb_word]
  by_cases h : 2 ^ 63 ≤ hi.toNat
  · simp only [h, decide_true, if_true, iff_true]
    omega
  · simp only [h, decide_false, if_false, iff_false, Bool.false_eq_true]
    omega

/-- The absolute value of the dividend, as `long_idiv` takes it. -/
theorem absDividend_toNat : (if hi.msb then longNeg ⟨lo, hi⟩ else ⟨lo, hi⟩ : W128).toNat =
    (signedDividend hi lo).natAbs := by
  have hlo := lo.isLt
  have hhi := hi.isLt
  have hdef : (W128.mk lo hi).toNat = hi.toNat * 2 ^ 64 + lo.toNat := rfl
  rw [signedDividend, toInt_word, msb_word]
  by_cases h : 2 ^ 63 ≤ hi.toNat
  · simp only [h, decide_true, if_true]
    rw [longNeg_toNat, hdef]
    omega
  · simp only [h, decide_false, if_false, Bool.false_eq_true]
    rw [hdef]
    omega

theorem absDivisor_toNat : (if divisor.msb then -divisor else divisor).toNat = divisor.toInt.natAbs := by
  have hlt := divisor.isLt
  rw [toInt_word, msb_word]
  by_cases h : 2 ^ 63 ≤ divisor.toNat
  · simp only [h, decide_true, if_true]
    rw [BitVec.toNat_neg]
    omega
  · simp only [h, decide_false, if_false, Bool.false_eq_true]
    omega

theorem divisor_neg : divisor.toInt < 0 ↔ divisor.msb = true := by
  have hlt := divisor.isLt
  rw [toInt_word, msb_word]
  by_cases h : 2 ^ 63 ≤ divisor.toNat
  · simp only [h, decide_true, if_true, iff_true]
    omega
  · simp only [h, decide_false, if_false, iff_false, Bool.false_eq_true]
    omega

theorem signedDividend_bounds : -2 ^ 127 ≤ signedDividend hi lo ∧ signedDividend hi lo < 2 ^ 127 := by
  have hlo := lo.isLt
  have hhi := hi.isLt
  rw [signedDividend, toInt_word, msb_word]
  by_cases h : 2 ^ 63 ≤ hi.toNat
  · simp only [h, decide_true, if_true]
    omega
  · simp only [h, decide_false, if_false, Bool.false_eq_true]
    omega

/-- The overflow test reads a word pair as a signed number of 128 bits. -/
theorem overflows_iff (q : W128) :
    (q.lo &&& 0x8000000000000000 = 0 ∧ q.hi ≠ 0 ∨
      q.lo &&& 0x8000000000000000 ≠ 0 ∧ q.hi ≠ 0xffffffffffffffff) ↔
      2 ^ 63 ≤ q.toNat ∧ q.toNat < 2 ^ 128 - 2 ^ 63 := by
  have hlo := q.lo.isLt
  have hhi := q.hi.isLt
  have htop : q.lo &&& 0x8000000000000000 = 0 ↔ q.lo.toNat < 2 ^ 63 := by
    have hbit : (0x8000000000000000 : W64) = BitVec.twoPow 64 63 := by decide
    rw [hbit, BitVec.and_twoPow]
    have hlast : q.lo.getLsbD 63 = q.lo.msb := (BitVec.msb_eq_getLsbD_last q.lo).symm
    rw [hlast, msb_word]
    by_cases h : 2 ^ 63 ≤ q.lo.toNat
    · have hnot : ¬ q.lo.toNat < 2 ^ 63 := by omega
      have hne : BitVec.twoPow 64 63 ≠ 0 := by decide
      simp only [h, decide_true, if_true, hnot, iff_false]
      exact hne
    · have hlt : q.lo.toNat < 2 ^ 63 := by omega
      simp only [h, decide_false, Bool.false_eq_true, if_false, hlt, iff_true]
      rfl
  have hz : q.hi = 0 ↔ q.hi.toNat = 0 := by
    rw [← BitVec.toNat_inj]
    rfl
  have hones : q.hi = 0xffffffffffffffff ↔ q.hi.toNat = 2 ^ 64 - 1 := by
    rw [← BitVec.toNat_inj]
    rfl
  rw [ne_eq, ne_eq, ne_eq, htop, hz, hones]
  unfold W128.toNat
  omega

/-- **`long_idiv`** where no bit is lost: the truncated quotient in 128 bits, and the
remainder of the sign of the dividend. -/
theorem longIdiv_exact (hne : divisor.toInt ≠ 0)
    (hkeep : signedDividend hi lo ≠ -2 ^ 127 ∨ ∀ k, divisor.toInt.natAbs ≠ 2 ^ k) :
    ((longIdiv ⟨lo, hi⟩ divisor).1.toNat : ℤ) = (signedDividend hi lo).tdiv divisor.toInt % 2 ^ 128 ∧
      (longIdiv ⟨lo, hi⟩ divisor).2.toInt = (signedDividend hi lo).tmod divisor.toInt := by
  obtain ⟨hlow, hhigh⟩ := signedDividend_bounds hi lo
  set x := signedDividend hi lo with hx
  set d := divisor.toInt with hd
  set temp : W128 := if hi.msb then longNeg ⟨lo, hi⟩ else ⟨lo, hi⟩ with htemp
  set absd : W64 := if divisor.msb then -divisor else divisor with habsd
  have htempVal : temp.toNat = x.natAbs := absDividend_toNat hi lo
  have habsVal : absd.toNat = d.natAbs := absDivisor_toNat divisor
  have hdlt : d.natAbs ≤ 2 ^ 63 := by
    have hlt := divisor.isLt
    have hword := toInt_word divisor
    rw [msb_word] at hword
    split at hword <;> simp at * <;> omega
  have hdpos : 0 < d.natAbs := Int.natAbs_pos.2 hne
  -- only `2 ^ 127` reaches bit 127, and only a power of two shifts onto it
  have hfits : ∀ n, absd.toNat * 2 ^ n ≤ temp.toNat → absd.toNat * 2 ^ n < 2 ^ 127 := by
    intro n hn
    rw [htempVal] at hn
    have hle : x.natAbs ≤ 2 ^ 127 := by omega
    rcases lt_or_eq_of_le (le_trans hn hle) with h | h
    · exact h
    · exfalso
      rcases hkeep with hdividend | hpow
      · omega
      · obtain ⟨k, _, hk⟩ := (Nat.dvd_prime_pow Nat.prime_two).1 (Dvd.intro _ h)
        exact hpow k (habsVal ▸ hk)
  obtain ⟨hq, hr⟩ := longDiv_exact (habsVal ▸ hdpos) hfits
  rw [htempVal, habsVal] at hq hr
  have hquot : (longIdiv ⟨lo, hi⟩ divisor).1 =
      if (hi.msb != divisor.msb) then longNeg (longDiv temp absd).1 else (longDiv temp absd).1 := rfl
  have hrem : (longIdiv ⟨lo, hi⟩ divisor).2 =
      if hi.msb then -(longDiv temp absd).2 else (longDiv temp absd).2 := rfl
  have hxneg : x < 0 ↔ hi.msb = true := signedDividend_neg hi lo
  have hdneg : d < 0 ↔ divisor.msb = true := divisor_neg divisor
  have hqle : x.natAbs / d.natAbs ≤ x.natAbs := Nat.div_le_self _ _
  constructor
  · rw [hquot, tdiv_eq_natAbs]
    generalize x.natAbs / d.natAbs = n at hq hqle ⊢
    by_cases hs : hi.msb = divisor.msb
    · have hsame : x < 0 ↔ d < 0 := by rw [hxneg, hdneg, hs]
      have hbne : ¬ (hi.msb != divisor.msb) = true := by simp [hs]
      rw [if_neg hbne, if_pos hsame, hq]
      omega
    · have hdiff : ¬ (x < 0 ↔ d < 0) := by
        rw [hxneg, hdneg]
        exact fun h => hs (Bool.eq_iff_iff.2 h)
      have hbne : (hi.msb != divisor.msb) = true := by simp [hs]
      rw [if_pos hbne, if_neg hdiff, longNeg_toNat, hq]
      omega
  · have hlt : x.natAbs % d.natAbs < d.natAbs := Nat.mod_lt _ hdpos
    have hmsb : (longDiv temp absd).2.msb = false := by
      rw [msb_word]
      apply decide_eq_false
      omega
    have hval : (longDiv temp absd).2.toInt = (x.natAbs % d.natAbs : ℕ) := by
      rw [toInt_word, hmsb, if_neg Bool.false_ne_true, hr]
    rw [hrem, tmod_eq_natAbs]
    by_cases hs : hi.msb = true
    · rw [if_pos hs, if_pos (hxneg.2 hs), BitVec.toInt_neg_eq_of_msb hmsb, hval]
    · rw [if_neg hs, if_neg (fun h => hs (hxneg.1 h)), hval]

/-- What `long_idiv` makes of a lost divisor: a quotient of one, of the right sign or not. -/
theorem longIdiv_lost {k : ℕ} (hdividend : signedDividend hi lo = -2 ^ 127)
    (hdivisor : divisor.toInt.natAbs = 2 ^ k) :
    (longIdiv ⟨lo, hi⟩ divisor).1.toNat = if divisor.msb then 2 ^ 128 - 1 else 1 := by
  have htemp := absDividend_toNat hi lo
  have habs := absDivisor_toNat divisor
  rw [hdividend] at htemp
  have hpow : (-2 ^ 127 : ℤ).natAbs = 2 ^ 127 := by decide
  rw [hpow] at htemp
  rw [hdivisor] at habs
  obtain ⟨hq, _⟩ := longDiv_lost htemp habs
  have hneg : hi.msb = true := by
    rw [← signedDividend_neg hi lo, hdividend]
    decide
  have hquot : (longIdiv ⟨lo, hi⟩ divisor).1 =
      if (hi.msb != divisor.msb) then longNeg (longDiv (if hi.msb then longNeg ⟨lo, hi⟩ else ⟨lo, hi⟩)
        (if divisor.msb then -divisor else divisor)).1
      else (longDiv (if hi.msb then longNeg ⟨lo, hi⟩ else ⟨lo, hi⟩)
        (if divisor.msb then -divisor else divisor)).1 := rfl
  rw [hquot]
  by_cases hs : divisor.msb = true
  · have hbne : ¬ (hi.msb != divisor.msb) = true := by simp [hneg, hs]
    rw [if_neg hbne, hq, if_pos hs]
  · have hbne : (hi.msb != divisor.msb) = true := by simp [hneg, hs]
    rw [if_pos hbne, longNeg_toNat, hq, if_neg hs]
    decide

/-- The guard of the wide form: the least dividend by `-1`. -/
theorem guard_iff : (divisor = -1 ∧ hi = 0x8000000000000000 ∧ lo = 0) ↔
    signedDividend hi lo = -2 ^ 127 ∧ divisor.toInt = -1 := by
  have hlo := lo.isLt
  have hhi := hi.isLt
  have hdivisor : divisor = -1 ↔ divisor.toInt = -1 := by
    rw [← BitVec.toInt_inj]
    rfl
  have hlow : lo = 0 ↔ lo.toNat = 0 := by
    rw [← BitVec.toNat_inj]
    rfl
  have hhigh : hi = 0x8000000000000000 ↔ hi.toNat = 2 ^ 63 := by
    rw [← BitVec.toNat_inj]
    rfl
  have hvalue : signedDividend hi lo = -2 ^ 127 ↔ hi.toNat = 2 ^ 63 ∧ lo.toNat = 0 := by
    rw [signedDividend, toInt_word, msb_word]
    by_cases h : 2 ^ 63 ≤ hi.toNat
    · simp only [h, decide_true, if_true]
      omega
    · simp only [h, decide_false, if_false, Bool.false_eq_true]
      omega
  rw [hdivisor, hlow, hhigh, hvalue, and_comm]

/-- The wide form past its guards. -/
theorem divRemS64_run (hne : divisor ≠ 0)
    (hguard : ¬ (signedDividend hi lo = -2 ^ 127 ∧ divisor.toInt = -1)) :
    divRemS64 hi lo divisor =
      if 2 ^ 63 ≤ (longIdiv ⟨lo, hi⟩ divisor).1.toNat ∧
          (longIdiv ⟨lo, hi⟩ divisor).1.toNat < 2 ^ 128 - 2 ^ 63 then .out
      else ⟨true, (longIdiv ⟨lo, hi⟩ divisor).1.lo, (longIdiv ⟨lo, hi⟩ divisor).2⟩ := by
  rw [← guard_iff] at hguard
  rw [divRemS64, if_neg hne, if_neg hguard]
  exact if_congr (overflows_iff _) rfl rfl

/-- Where the divisor survives, the wide form is right. -/
theorem divRemS64_exact (h : ¬ LosesDivisor (signedDividend hi lo) divisor.toInt) :
    (divRemS64 hi lo divisor).SignedExact (signedDividend hi lo) divisor.toInt := by
  obtain ⟨hlow, hhigh⟩ := signedDividend_bounds hi lo
  have hzero : divisor = 0 ↔ divisor.toInt = 0 := by
    rw [← BitVec.toInt_inj]
    rfl
  by_cases hne : divisor = 0
  · have hout : divRemS64 hi lo divisor = .out := by
      rw [divRemS64, if_pos hne]
    rw [hout]
    exact DivRem.signedExact_out fun hfit => hfit.1 (hzero.1 hne)
  have hdne : divisor.toInt ≠ 0 := fun hd => hne (hzero.2 hd)
  by_cases hguard : signedDividend hi lo = -2 ^ 127 ∧ divisor.toInt = -1
  · have hout : divRemS64 hi lo divisor = .out := by
      rw [divRemS64, if_neg hne, if_pos ((guard_iff hi lo divisor).2 hguard)]
    rw [hout, hguard.1, hguard.2]
    apply DivRem.signedExact_out
    decide
  · have hkeep : signedDividend hi lo ≠ -2 ^ 127 ∨ ∀ k, divisor.toInt.natAbs ≠ 2 ^ k := by
      by_cases hmin : signedDividend hi lo = -2 ^ 127
      · right
        intro k hk
        exact h ⟨hmin, fun hone => hguard ⟨hmin, hone⟩, k, hk⟩
      · left
        exact hmin
    obtain ⟨hq, hr⟩ := longIdiv_exact hi lo divisor hdne hkeep
    rw [divRemS64_run hi lo divisor hne hguard]
    set x := signedDividend hi lo with hx
    set d := divisor.toInt with hd
    set r := longIdiv ⟨lo, hi⟩ divisor with hrun
    -- the quotient stays clear of `2 ^ 127`
    have hbound : (x.tdiv d).natAbs < 2 ^ 127 := by
      have habs : (x.tdiv d).natAbs = x.natAbs / d.natAbs := Int.natAbs_tdiv x d
      rw [habs]
      rcases hkeep with hmin | hpow
      · have hle : x.natAbs / d.natAbs ≤ x.natAbs := Nat.div_le_self _ _
        omega
      · have htwo : 2 ≤ d.natAbs := by
          have hone := hpow 0
          omega
        have hle : x.natAbs / d.natAbs ≤ x.natAbs / 2 := Nat.div_le_div_left htwo (by omega)
        omega
    have hnat : (r.1.toNat : ℤ) = x.tdiv d % 2 ^ 128 := hq
    have hlo := r.1.lo.isLt
    have hdef : r.1.toNat = r.1.hi.toNat * 2 ^ 64 + r.1.lo.toNat := rfl
    generalize hquot : x.tdiv d = q at hnat hbound ⊢
    split
    · rename_i hover
      apply DivRem.signedExact_out
      rw [hquot]
      omega
    · rename_i hfit
      refine DivRem.signedExact_of_eq rfl hdne ?_ ?_ hr
      · rw [hquot]
        omega
      · have hvalue := toInt_word r.1.lo
        rw [msb_word] at hvalue
        rw [hquot, hvalue]
        by_cases hbig : 2 ^ 63 ≤ r.1.lo.toNat
        · rw [if_pos (decide_eq_true hbig)]
          omega
        · rw [if_neg (by simp only [decide_eq_true_eq]; exact hbig)]
          omega

/-- Where it does not, the wide form reports a quotient of one for one beyond 64 bits. -/
theorem divRemS64_wrong (h : LosesDivisor (signedDividend hi lo) divisor.toInt) :
    (divRemS64 hi lo divisor).ok = true ∧
      ¬ (-2 ^ 63 ≤ (signedDividend hi lo).tdiv divisor.toInt ∧
        (signedDividend hi lo).tdiv divisor.toInt < 2 ^ 63) := by
  obtain ⟨hmin, hone, k, hk⟩ := h
  have hlost := longIdiv_lost hi lo divisor hmin hk
  have hne : divisor ≠ 0 := by
    rintro rfl
    have : 0 < 2 ^ k := by positivity
    rw [← hk] at this
    exact absurd this (by decide)
  constructor
  · rw [divRemS64_run hi lo divisor hne (fun hg => hone hg.2), hlost]
    split <;> rfl
  · have habs : ((signedDividend hi lo).tdiv divisor.toInt).natAbs = 2 ^ 127 / 2 ^ k := by
      have hdiv := Int.natAbs_tdiv (signedDividend hi lo) divisor.toInt
      rw [hmin, hk] at hdiv
      rw [hmin]
      exact hdiv
    have hk63 : k ≤ 63 := by
      by_contra hgt
      have hle : divisor.toInt.natAbs ≤ 2 ^ 63 := by
        have hlt := divisor.isLt
        have hword := toInt_word divisor
        rw [msb_word] at hword
        split at hword <;> simp at * <;> omega
      have hpow : 2 ^ 64 ≤ 2 ^ k := Nat.pow_le_pow_right (by omega) (by omega)
      omega
    have hbig : 2 ^ 64 ≤ 2 ^ 127 / 2 ^ k := by
      rw [Nat.pow_div (by omega) (by omega)]
      exact Nat.pow_le_pow_right (by omega) (by omega)
    omega

/-- **The wide signed division** is exact unless `long_div` loses the divisor. -/
theorem divRemS64_exact_iff :
    (divRemS64 hi lo divisor).SignedExact (signedDividend hi lo) divisor.toInt ↔
      ¬ LosesDivisor (signedDividend hi lo) divisor.toInt := by
  constructor
  · intro hexact hloses
    obtain ⟨hok, hno⟩ := divRemS64_wrong hi lo divisor hloses
    exact hno (hexact.ok_iff.1 hok).2
  · exact divRemS64_exact hi lo divisor

end Wide

/-- `-2 ^ 127` by 2: reported as fitting, with quotient 1. -/
theorem divRemS64_not_exact : ¬ ∀ hi lo divisor : W64,
    (divRemS64 hi lo divisor).SignedExact (signedDividend hi lo) divisor.toInt := by
  intro hall
  have hok : (divRemS64 0x8000000000000000 0 2).ok = true := by decide +kernel
  have hfit := ((hall 0x8000000000000000 0 2).ok_iff.1 hok).2
  exact absurd hfit (by decide)

/-! ### The narrow forms -/

/-- `signext64` of a zero-extended word is its sign extension. -/
theorem signext64_setWidth {w : ℕ} (hpos : 0 < w) (hw : w ≤ 64) (x : BitVec w) :
    signext64 (x.setWidth 64) w = x.signExtend 64 := by
  apply BitVec.eq_of_getLsbD_eq
  intro i hi
  rw [signext64, BitVec.getLsbD_sshiftRight, BitVec.getLsbD_signExtend]
  by_cases hlow : i < w
  · have hin : 64 - w + i < 64 := by omega
    have hshift : ¬ 64 - w + i < 64 - w := by omega
    have hback : 64 - w + i - (64 - w) = i := by omega
    simp [hi, hlow, hin, hshift, hback]
  · have hout : ¬ 64 - w + i < 64 := by omega
    have hlast : (x.setWidth 64 <<< (64 - w)).msb = x.msb := by
      rw [BitVec.msb_eq_getLsbD_last, BitVec.msb_eq_getLsbD_last, BitVec.getLsbD_shiftLeft,
        BitVec.getLsbD_setWidth]
      have hback : 64 - 1 - (64 - w) = w - 1 := by omega
      have hkept : ¬ 64 - 1 < 64 - w := by omega
      have hword : w - 1 < 64 := by omega
      rw [hback]
      simp [hkept, hword]
    simp [hi, hlow, hout, hlast]

section Narrow

variable {w : ℕ} (hi lo divisor : BitVec w)

theorem signext64_toInt (hpos : 0 < w) (hw : w ≤ 64) (x : BitVec w) :
    (signext64 (x.setWidth 64) w).toInt = x.toInt := by
  rw [signext64_setWidth hpos hw, BitVec.toInt_signExtend_of_le hw]

/-- The widths of `W8`, `W16` and `W32`. -/
def NarrowWidth (w : ℕ) : Prop := w = 8 ∨ w = 16 ∨ w = 32

variable {hi lo divisor}

theorem signedDividend_narrow (hw : NarrowWidth w) :
    -2 ^ (2 * w - 1) ≤ signedDividend hi lo ∧ signedDividend hi lo < 2 ^ (2 * w - 1) := by
  have hlo := lo.isLt
  have hmin := BitVec.le_two_mul_toInt (x := hi)
  have hmax := BitVec.two_mul_toInt_lt (x := hi)
  unfold signedDividend
  rcases hw with rfl | rfl | rfl <;> norm_num at * <;> omega

/-- The dividend the host divides. -/
theorem dividend_toInt (hw : NarrowWidth w) :
    (signext64 (hi.setWidth 64) w <<< w + lo.setWidth 64).toInt = signedDividend hi lo := by
  have hpos : 0 < w := by
    rcases hw with rfl | rfl | rfl <;> omega
  have hle : w ≤ 32 := by
    rcases hw with rfl | rfl | rfl <;> omega
  have hhi : signext64 (hi.setWidth 64) w = BitVec.ofInt 64 hi.toInt := by
    rw [← signext64_toInt hpos (by omega) hi, BitVec.ofInt_toInt]
  have hpow : BitVec.twoPow 64 w = BitVec.ofInt 64 (2 ^ w) := by
    have hcast : (2 ^ w : ℤ) = ((2 ^ w : ℕ) : ℤ) := by push_cast; rfl
    rw [hcast, BitVec.ofInt_natCast]
    apply BitVec.eq_of_toNat_eq
    rw [BitVec.toNat_twoPow, BitVec.toNat_ofNat]
  have hlow : lo.setWidth 64 = BitVec.ofInt 64 lo.toNat := by
    rw [BitVec.ofInt_natCast]
    apply BitVec.eq_of_toNat_eq
    rw [BitVec.toNat_setWidth, BitVec.toNat_ofNat]
  have hwhole : signext64 (hi.setWidth 64) w <<< w + lo.setWidth 64 =
      BitVec.ofInt 64 (signedDividend hi lo) := by
    rw [signedDividend, BitVec.ofInt_add, BitVec.ofInt_mul, ← hhi, ← hlow, ← hpow,
      BitVec.shiftLeft_eq_mul_twoPow]
  obtain ⟨hmin, hmax⟩ := @signedDividend_narrow w hi lo hw
  have hin : -2 ^ 63 ≤ signedDividend hi lo ∧ signedDividend hi lo < 2 ^ 63 := by
    rcases hw with rfl | rfl | rfl <;> norm_num at hmin hmax ⊢ <;> omega
  rw [hwhole, BitVec.toInt_ofInt]
  apply Int.bmod_eq_of_le
  · exact hin.1
  · exact hin.2

/-- The mask the guard asks for is no sign-extended divisor. -/
theorem ne_bitmask (hw : NarrowWidth w) (x : BitVec w) : signext64 (x.setWidth 64) w ≠ bitmask w := by
  intro heq
  have hmax := BitVec.two_mul_toInt_lt (x := x)
  have hvalue := congrArg BitVec.toInt heq
  rcases hw with rfl | rfl | rfl
  · rw [signext64_toInt (by omega) (by omega)] at hvalue
    have hmask : (bitmask 8).toInt = 255 := by decide
    omega
  · rw [signext64_toInt (by omega) (by omega)] at hvalue
    have hmask : (bitmask 16).toInt = 65535 := by decide
    omega
  · rw [signext64_toInt (by omega) (by omega)] at hvalue
    have hmask : (bitmask 32).toInt = 4294967295 := by decide
    omega

/-- A quotient survives its truncation exactly if it fits. -/
theorem truncated_iff (hw : NarrowWidth w) (q : W64) :
    (q = signext64 ((q.setWidth w).setWidth 64) w ↔ -2 ^ (w - 1) ≤ q.toInt ∧ q.toInt < 2 ^ (w - 1)) ∧
      (q = signext64 ((q.setWidth w).setWidth 64) w → (q.setWidth w).toInt = q.toInt) := by
  have hpos : 0 < w := by
    rcases hw with rfl | rfl | rfl <;> omega
  have hle : w ≤ 64 := by
    rcases hw with rfl | rfl | rfl <;> omega
  have hback : q = signext64 ((q.setWidth w).setWidth 64) w ↔ q.toInt = (q.setWidth w).toInt := by
    rw [← BitVec.toInt_inj, signext64_toInt hpos hle]
  refine ⟨?_, fun h => (hback.1 h).symm⟩
  rw [hback]
  have hmin := BitVec.le_two_mul_toInt (x := q.setWidth w)
  have hmax := BitVec.two_mul_toInt_lt (x := q.setWidth w)
  have hmod : (q.setWidth w).toInt = q.toInt.bmod (2 ^ w) := by
    rw [BitVec.toInt_setWidth, BitVec.toInt_eq_toNat_bmod q, Int.bmod_bmod_of_dvd]
    exact_mod_cast pow_dvd_pow 2 hle
  constructor
  · intro h
    rw [← h] at hmin hmax
    rcases hw with rfl | rfl | rfl <;> norm_num at * <;> omega
  · rintro ⟨hlow, hhigh⟩
    rw [hmod, Int.bmod_eq_of_le]
    · rcases hw with rfl | rfl | rfl <;> norm_num at * <;> omega
    · rcases hw with rfl | rfl | rfl <;> norm_num at * <;> omega

/-- The narrow forms, read over the integers. -/
theorem divRemS_run (hw : NarrowWidth w) : divRemS hi lo divisor =
    if divisor.toInt = 0 then some .out
    else if signedDividend hi lo = -2 ^ 63 ∧ divisor.toInt = -1 then none
    else
      let dividend : W64 := signext64 (hi.setWidth 64) w <<< w + lo.setWidth 64
      let quotient := dividend.sdiv (signext64 (divisor.setWidth 64) w)
      if quotient ≠ signext64 ((quotient.setWidth w).setWidth 64) w then some .out
      else some ⟨true, quotient.setWidth w,
        (dividend.srem (signext64 (divisor.setWidth 64) w)).setWidth w⟩ := by
  have hpos : 0 < w := by
    rcases hw with rfl | rfl | rfl <;> omega
  have hle : w ≤ 64 := by
    rcases hw with rfl | rfl | rfl <;> omega
  have hvalue : (signext64 (divisor.setWidth 64) w).toInt = divisor.toInt := signext64_toInt hpos hle divisor
  have hzero : signext64 (divisor.setWidth 64) w = 0 ↔ divisor.toInt = 0 := by
    rw [← BitVec.toInt_inj, hvalue]
    rfl
  have hones : signext64 (divisor.setWidth 64) w = -1 ↔ divisor.toInt = -1 := by
    rw [← BitVec.toInt_inj, hvalue]
    rfl
  have hmin : signext64 (hi.setWidth 64) w <<< w + lo.setWidth 64 = BitVec.intMin 64 ↔
      signedDividend hi lo = -2 ^ 63 := by
    rw [← BitVec.toInt_inj, dividend_toInt hw]
    rfl
  have hguard : ¬ (signext64 (hi.setWidth 64) w <<< w + lo.setWidth 64 =
      signext64 (1 <<< (w * 2 - 1)) (w * 2) ∧ signext64 (divisor.setWidth 64) w = bitmask w) :=
    fun h => ne_bitmask hw divisor h.2
  rw [divRemS, if_neg hguard]
  simp only [hzero, hones, hmin]

/-- Off the one pair without a result, the narrow forms are right. -/
theorem divRemS_exact (hw : NarrowWidth w)
    (hpair : ¬ (signedDividend hi lo = -2 ^ 63 ∧ divisor.toInt = -1)) :
    ∃ r, divRemS hi lo divisor = some r ∧ r.SignedExact (signedDividend hi lo) divisor.toInt := by
  have hpos : 0 < w := by
    rcases hw with rfl | rfl | rfl <;> omega
  have hle : w ≤ 64 := by
    rcases hw with rfl | rfl | rfl <;> omega
  by_cases hne : divisor.toInt = 0
  · refine ⟨.out, ?_, DivRem.signedExact_out fun h => h.1 hne⟩
    rw [divRemS_run hw, if_pos hne]
  · have hdividend := @dividend_toInt w hi lo hw
    have hdivisor : (signext64 (divisor.setWidth 64) w).toInt = divisor.toInt :=
      signext64_toInt hpos hle divisor
    rw [divRemS_run hw, if_neg hne, if_neg hpair]
    set x : W64 := signext64 (hi.setWidth 64) w <<< w + lo.setWidth 64 with hx
    set d : W64 := signext64 (divisor.setWidth 64) w with hd
    have hquot : (x.sdiv d).toInt = (signedDividend hi lo).tdiv divisor.toInt := by
      rw [BitVec.toInt_sdiv_of_ne_or_ne, hdividend, hdivisor]
      by_contra hboth
      rw [not_or, not_not, not_not] at hboth
      apply hpair
      rw [← hdividend, ← hdivisor, hboth.1, hboth.2]
      decide
    have hrem : (x.srem d).toInt = (signedDividend hi lo).tmod divisor.toInt := by
      rw [BitVec.toInt_srem, hdividend, hdivisor]
    obtain ⟨hfit, hkept⟩ := truncated_iff hw (x.sdiv d)
    dsimp only
    split
    · rename_i hno
      rw [ne_eq, hfit, hquot] at hno
      exact ⟨.out, rfl, DivRem.signedExact_out fun h => hno h.2⟩
    · rename_i hyes
      rw [not_not] at hyes
      refine ⟨_, rfl, DivRem.signedExact_of_eq rfl hne ?_ ?_ ?_⟩
      · rw [← hquot]
        exact hfit.1 hyes
      · rw [← hquot]
        exact hkept hyes
      · -- the remainder is below the divisor, which has `w` bits
        rw [← hrem]
        apply (truncated_iff hw (x.srem d)).2
        rw [(truncated_iff hw (x.srem d)).1, hrem]
        have hmin := BitVec.le_two_mul_toInt (x := divisor)
        have hmax := BitVec.two_mul_toInt_lt (x := divisor)
        have hlt : ((signedDividend hi lo).tmod divisor.toInt).natAbs < divisor.toInt.natAbs := by
          rw [Int.natAbs_tmod]
          exact Nat.mod_lt _ (Int.natAbs_pos.2 hne)
        rcases hw with rfl | rfl | rfl <;> norm_num at hmin hmax ⊢ <;> omega

/-- Only 32 bits reach the pair. -/
theorem pair_width (hw : NarrowWidth w) (hmin : signedDividend hi lo = -2 ^ 63) : w = 32 := by
  have hwide := (@signedDividend_narrow w hi lo hw).1
  rw [hmin] at hwide
  rcases hw with rfl | rfl | rfl
  · norm_num at hwide
  · norm_num at hwide
  · rfl

/-- **The narrow signed divisions** are exact, and never ask the host for the quotient it
does not have, except for 32 bits at the least dividend by `-1`. -/
theorem divRemS_exact_iff (hw : NarrowWidth w) (hi lo divisor : BitVec w) :
    (∃ r, divRemS hi lo divisor = some r ∧ r.SignedExact (signedDividend hi lo) divisor.toInt) ↔
      ¬ (w = 32 ∧ signedDividend hi lo = -2 ^ 63 ∧ divisor.toInt = -1) := by
  constructor
  · rintro ⟨r, hrun, _⟩ ⟨_, hpair⟩
    have hne : divisor.toInt ≠ 0 := by
      rw [hpair.2]
      decide
    rw [divRemS_run hw, if_neg hne, if_pos hpair] at hrun
    exact Option.some_ne_none r hrun.symm
  · intro h
    apply divRemS_exact hw
    rintro ⟨hmin, hone⟩
    exact h ⟨pair_width hw hmin, hmin, hone⟩

theorem divRemS_exact_iff_seven : NarrowWidth 8 ∧
    ((∃ r, divRemS (0 : BitVec 8) 7 2 = some r ∧ r.SignedExact (signedDividend (0 : BitVec 8) 7) 2) ↔
      ¬ ((8 : ℕ) = 32 ∧ signedDividend (0 : BitVec 8) 7 = -2 ^ 63 ∧ (2 : BitVec 8).toInt = -1)) :=
  ⟨Or.inl rfl, divRemS_exact_iff (Or.inl rfl) 0 7 2⟩

end Narrow

/-- `-2 ^ 63` by `-1` reaches the host's division. -/
theorem divRemS_not_exact : ¬ ∀ w, NarrowWidth w → ∀ hi lo divisor : BitVec w,
    ∃ r, divRemS hi lo divisor = some r ∧ r.SignedExact (signedDividend hi lo) divisor.toInt := by
  intro hall
  obtain ⟨r, hrun, _⟩ := hall 32 (Or.inr (Or.inr rfl)) 0x80000000 0 0xffffffff
  have htrap : divRemS (0x80000000 : BitVec 32) 0 0xffffffff = none := by decide +kernel
  rw [htrap] at hrun
  exact Option.some_ne_none r hrun.symm

/-! ### The uops -/

/-- The overload of `div_rem_s` for a type of `w` bits. -/
def divRemSOf {w : ℕ} (dividendHi dividendLo divisor : BitVec w) : Option (DivRem w) :=
  if w = 64 then
    let r := divRemS64 (dividendHi.setWidth 64) (dividendLo.setWidth 64) (divisor.setWidth 64)
    some ⟨r.ok, r.quotient.setWidth w, r.remainder.setWidth w⟩
  else divRemS dividendHi dividendLo divisor

/-- Only the 32-bit overload can trap. -/
theorem divRemSOf_eq_none_iff {w : ℕ} (hw : NarrowWidth w ∨ w = 64) (hi lo divisor : BitVec w) :
    divRemSOf hi lo divisor = none ↔ w = 32 ∧ signedDividend hi lo = -2 ^ 63 ∧ divisor.toInt = -1 := by
  rcases hw with hw | rfl
  · have hne : w ≠ 64 := by
      rcases hw with rfl | rfl | rfl <;> omega
    rw [divRemSOf, if_neg hne]
    constructor
    · intro hnone
      by_contra hpair
      have hoff : ¬ (signedDividend hi lo = -2 ^ 63 ∧ divisor.toInt = -1) :=
        fun h => hpair ⟨pair_width hw h.1, h⟩
      obtain ⟨r, hrun, _⟩ := divRemS_exact hw hoff
      rw [hrun] at hnone
      exact Option.some_ne_none r hnone
    · rintro ⟨_, hpair⟩
      have hdne : divisor.toInt ≠ 0 := by
        rw [hpair.2]
        decide
      rw [divRemS_run hw, if_neg hdne, if_pos hpair]
  · rw [divRemSOf, if_pos rfl]
    constructor
    · intro h
      exact absurd h (Option.some_ne_none _)
    · intro h
      omega

/-- `x86_divs`. -/
def x86Divs (size : ℕ) (i : UopInputs) : Option UopResult :=
  let w := opWidth size
  (divRemSOf (i.ra.setWidth w) (i.rb.setWidth w) (i.rc.setWidth w)).map fun r =>
    if r.ok then ⟨x86Merge size i.rb (r.quotient.setWidth 64), x86Genflags r.quotient⟩
    else ⟨exceptionWord .divideOverflow .none, FLAG_INV⟩

/-- `x86_rems`. -/
def x86Rems (size : ℕ) (i : UopInputs) : Option UopResult :=
  let w := opWidth size
  (divRemSOf (i.ra.setWidth w) (i.rb.setWidth w) (i.rc.setWidth w)).map fun r =>
    if r.ok then ⟨x86Merge size i.ra (r.remainder.setWidth 64), x86Genflags r.remainder⟩
    else ⟨exceptionWord .divideOverflow .none, FLAG_INV⟩

end X86Sim
