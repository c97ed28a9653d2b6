import X86Sim.Lib.RestoringDivision
import X86Sim.Uop

/-!
# Two-word division (`superstl.cpp`)

`long_div` shifts the divisor up until it exceeds the dividend, then subtracts its way
down again. The divisor lives in 128 bits: shifted too far it loses its top bits, and the
loop then divides by what is left of it.

* `longDiv_exact`: no bit is lost, and the division is the exact one.
* `longDiv_hi`: a quotient of more than 64 bits never looks shorter.
* `longDiv_lost`: a power of two that meets a dividend of `2 ^ 127` is lost altogether.
-/

namespace X86Sim

structure W128 where
  lo : W64
  hi : W64
  deriving DecidableEq

namespace W128

def toNat (a : W128) : ℕ := a.hi.toNat * 2 ^ 64 + a.lo.toNat

def ofW64 (a : W64) : W128 := ⟨a, 0⟩

theorem toNat_lt (a : W128) : a.toNat < 2 ^ 128 := by
  have hlo := a.lo.isLt
  have hhi := a.hi.isLt
  unfold toNat
  omega

end W128

/-! ### Words -/

/-- `long_neg`. -/
def longNeg (n : W128) : W128 :=
  let t := n.lo
  let hi := if t - 1 > t then n.hi - 1 else n.hi
  ⟨-n.lo, ~~~hi⟩

def longShl (a : W128) : W128 := ⟨a.lo <<< 1, a.hi <<< 1 ||| a.lo >>> 63⟩

def longShr (a : W128) : W128 := ⟨a.lo >>> 1 ||| a.hi <<< 63, a.hi >>> 1⟩

/-- `long_sub`: the difference, and whether it borrows. -/
def longSub (a b : W128) : W128 × Bool :=
  let lo := a.lo - b.lo
  let c : W64 := if lo > a.lo then 1 else 0
  let hi := a.hi - (b.hi + c)
  (⟨lo, hi⟩, hi > a.hi)

def longLe (a b : W128) : Bool := if a.hi = b.hi then a.lo ≤ b.lo else a.hi ≤ b.hi

/-! ### Division -/

/-- The first loop of `long_div`, with the turns it may still take: the shifted divisor
and `n`. -/
def normLoop (acc : W128) : ℕ → W128 → ℕ → W128 × ℕ
  | 0, d, n => (d, n)
  | turns + 1, d, n => if longLe d acc && n < 128 then normLoop acc turns (longShl d) (n + 1) else (d, n)

/-- The second loop of `long_div`: the quotient and what is left of the dividend. -/
def subLoop : ℕ → W128 → W128 → W128 → W128 × W128
  | 0, _, acc, q => (q, acc)
  | n + 1, d, acc, q =>
    let d := longShr d
    let q := longShl q
    let r := longSub acc d
    if r.2 then subLoop n d acc q else subLoop n d r.1 ⟨q.lo + 1, q.hi⟩

/-- `long_div`: the quotient and the remainder. -/
def longDiv (dividend : W128) (divisor : W64) : W128 × W64 :=
  let norm := normLoop dividend 129 (.ofW64 divisor) 0
  let r := subLoop norm.2 norm.1 dividend ⟨0, 0⟩
  (r.1, r.2.lo)

/-! ### What the words compute -/

section Words

variable (a b : W128)

theorem longShl_toNat : (longShl a).toNat = 2 * a.toNat % 2 ^ 128 := by
  have hlo := a.lo.isLt
  have hhi := a.hi.isLt
  have hor : (a.hi <<< 1 ||| a.lo >>> 63).toNat = 2 * a.hi.toNat % 2 ^ 64 + a.lo.toNat / 2 ^ 63 := by
    rw [BitVec.toNat_or, BitVec.toNat_shiftLeft, BitVec.toNat_ushiftRight, Nat.shiftLeft_eq, pow_one,
      Nat.shiftRight_eq_div_pow]
    have heven : a.hi.toNat * 2 % 2 ^ 64 = (a.hi.toNat % 2 ^ 63) <<< 1 := by
      rw [Nat.shiftLeft_eq]
      omega
    have hbit : a.lo.toNat / 2 ^ 63 < 2 ^ 1 := by omega
    rw [heven, ← Nat.shiftLeft_add_eq_or_of_lt hbit, Nat.shiftLeft_eq]
    omega
  simp only [W128.toNat, longShl, hor, BitVec.toNat_shiftLeft, Nat.shiftLeft_eq]
  omega

theorem longShr_toNat : (longShr a).toNat = a.toNat / 2 := by
  have hlo := a.lo.isLt
  have hhi := a.hi.isLt
  have hor : (a.lo >>> 1 ||| a.hi <<< 63).toNat = a.lo.toNat / 2 + a.hi.toNat % 2 * 2 ^ 63 := by
    rw [BitVec.toNat_or, BitVec.toNat_shiftLeft, BitVec.toNat_ushiftRight, Nat.shiftLeft_eq,
      Nat.shiftRight_eq_div_pow, pow_one]
    have hodd : a.hi.toNat * 2 ^ 63 % 2 ^ 64 = (a.hi.toNat % 2) <<< 63 := by
      rw [Nat.shiftLeft_eq]
      omega
    have hhalf : a.lo.toNat / 2 < 2 ^ 63 := by omega
    rw [hodd, Nat.or_comm, ← Nat.shiftLeft_add_eq_or_of_lt hhalf, Nat.shiftLeft_eq]
    omega
  simp only [W128.toNat, longShr, hor, BitVec.toNat_ushiftRight, Nat.shiftRight_eq_div_pow, pow_one]
  omega

theorem longLe_iff : longLe a b = true ↔ a.toNat ≤ b.toNat := by
  have ha := a.lo.isLt
  have hb := b.lo.isLt
  unfold longLe W128.toNat
  split
  · rename_i heq
    rw [heq, decide_eq_true_eq, BitVec.le_def]
    omega
  · rename_i hne
    have hne' : a.hi.toNat ≠ b.hi.toNat := fun h => hne (BitVec.eq_of_toNat_eq h)
    rw [decide_eq_true_eq, BitVec.le_def]
    omega

/-- The borrow is right for a subtrahend below `2 ^ 127`: adding the low borrow to its
high word does not wrap. -/
theorem longSub_eq (hb : b.toNat < 2 ^ 127) :
    (longSub a b).2 = decide (a.toNat < b.toNat) ∧
      (b.toNat ≤ a.toNat → (longSub a b).1.toNat = a.toNat - b.toNat) := by
  have ha := a.lo.isLt
  have hah := a.hi.isLt
  have hbl := b.lo.isLt
  have hbh := b.hi.isLt
  have hbh' : b.hi.toNat < 2 ^ 63 := by
    unfold W128.toNat at hb
    omega
  have hlow : (a.lo - b.lo).toNat = (2 ^ 64 + a.lo.toNat - b.lo.toNat) % 2 ^ 64 := by
    rw [BitVec.toNat_sub]
    congr 1
    omega
  have hborrow : a.lo - b.lo > a.lo ↔ a.lo.toNat < b.lo.toNat := by
    rw [gt_iff_lt, BitVec.lt_def, hlow]
    omega
  set c : W64 := if a.lo - b.lo > a.lo then 1 else 0 with hc
  have hcval : c.toNat = if a.lo.toNat < b.lo.toNat then 1 else 0 := by
    rw [hc]
    simp only [hborrow]
    split <;> rfl
  have hsum : (b.hi + c).toNat = b.hi.toNat + c.toNat := by
    rw [BitVec.toNat_add]
    apply Nat.mod_eq_of_lt
    rw [hcval]
    split <;> omega
  have hhigh : (a.hi - (b.hi + c)).toNat = (2 ^ 64 + a.hi.toNat - (b.hi.toNat + c.toNat)) % 2 ^ 64 := by
    rw [BitVec.toNat_sub, hsum]
    congr 1
    rw [hcval]
    split <;> omega
  constructor
  · simp only [longSub, ← hc]
    rw [decide_eq_decide, gt_iff_lt, BitVec.lt_def, hhigh, hcval]
    unfold W128.toNat
    split <;> omega
  · intro hle
    simp only [longSub, ← hc, W128.toNat, hlow, hhigh, hcval]
    unfold W128.toNat at hle
    split <;> omega

/-- `long_neg` is the negation of 128 bits. -/
theorem longNeg_toNat : (longNeg a).toNat = (2 ^ 128 - a.toNat) % 2 ^ 128 := by
  have hlo := a.lo.isLt
  have hhi := a.hi.isLt
  have hzero : a.lo - 1 > a.lo ↔ a.lo.toNat = 0 := by
    have hone : (1 : W64).toNat = 1 := rfl
    rw [gt_iff_lt, BitVec.lt_def, BitVec.toNat_sub, hone]
    omega
  have hnot : ∀ x : W64, (~~~x).toNat = 2 ^ 64 - 1 - x.toNat := fun x => BitVec.toNat_not
  have hneg : (-a.lo).toNat = (2 ^ 64 - a.lo.toNat) % 2 ^ 64 := BitVec.toNat_neg a.lo
  have hpred : (a.hi - 1).toNat = (2 ^ 64 - 1 + a.hi.toNat) % 2 ^ 64 := by
    rw [BitVec.toNat_sub]
    rfl
  simp only [longNeg, W128.toNat, hneg, hnot, hzero]
  split
  · rw [hpred]
    omega
  · omega

end Words

/-! ### The loops -/

/-- Where the first loop stops: its condition fails, at a shift of at most 128, and the
shifted divisor has been below the dividend until then. -/
structure Normalised (acc : W128) (divisor : W64) (d : W128) (n : ℕ) : Prop where
  shifted : d.toNat = divisor.toNat * 2 ^ n % 2 ^ 128
  le : n ≤ 128
  stopped : acc.toNat < d.toNat ∨ n = 128
  below : ∀ k < n, divisor.toNat * 2 ^ k % 2 ^ 128 ≤ acc.toNat

theorem normLoop_normalised {acc : W128} {divisor : W64} {turns n : ℕ} {d : W128}
    (hd : d.toNat = divisor.toNat * 2 ^ n % 2 ^ 128) (hn : n ≤ 128) (hturns : 128 ≤ n + turns)
    (hbelow : ∀ k < n, divisor.toNat * 2 ^ k % 2 ^ 128 ≤ acc.toNat) :
    Normalised acc divisor (normLoop acc turns d n).1 (normLoop acc turns d n).2 := by
  induction turns generalizing d n with
  | zero =>
    have hfull : n = 128 := by omega
    exact ⟨hd, hn, Or.inr hfull, hbelow⟩
  | succ turns ih =>
    rw [normLoop]
    split
    · rename_i hgo
      simp only [Bool.and_eq_true, decide_eq_true_eq] at hgo
      obtain ⟨hle, hlt⟩ := hgo
      rw [longLe_iff] at hle
      apply ih
      · have hstep : divisor.toNat * 2 ^ (n + 1) = 2 * (divisor.toNat * 2 ^ n) := by ring
        rw [longShl_toNat, hd, hstep]
        omega
      · omega
      · omega
      · intro k hk
        rcases Nat.lt_succ_iff_lt_or_eq.1 hk with h | rfl
        · exact hbelow k h
        · rw [← hd]
          exact hle
    · rename_i hstop
      refine ⟨hd, hn, ?_, hbelow⟩
      by_cases hlt : n < 128
      · left
        by_contra hge
        apply hstop
        simp only [Bool.and_eq_true, decide_eq_true_eq]
        exact ⟨(longLe_iff d acc).2 (not_lt.1 hge), hlt⟩
      · have hfull : n = 128 := by omega
        exact Or.inr hfull

/-- The second loop is restoring division by whatever the shifted divisor is a multiple of. -/
theorem subLoop_eq {e n : ℕ} {d acc q : W128} (hd : d.toNat = e * 2 ^ n)
    (hq : (q.toNat + 1) * 2 ^ n ≤ 2 ^ 128) :
    (subLoop n d acc q).1.toNat = (RestoringDivision.restore e n acc.toNat q.toNat).1 ∧
      (subLoop n d acc q).2.toNat = (RestoringDivision.restore e n acc.toNat q.toNat).2 := by
  induction n generalizing d acc q with
  | zero => exact ⟨rfl, rfl⟩
  | succ n ih =>
    have hlt := d.toNat_lt
    have hhalf : e * 2 ^ (n + 1) = 2 * (e * 2 ^ n) := by ring
    have hroom : (q.toNat + 1) * 2 ^ (n + 1) = (2 * q.toNat + 2) * 2 ^ n := by ring
    have hpos : 1 ≤ 2 ^ n := Nat.one_le_two_pow
    have hd' : (longShr d).toNat = e * 2 ^ n := by
      rw [longShr_toNat, hd, hhalf]
      omega
    have hsmall : 2 * q.toNat + 2 ≤ 2 ^ 128 := by
      calc 2 * q.toNat + 2 ≤ (2 * q.toNat + 2) * 2 ^ n := Nat.le_mul_of_pos_right _ hpos
        _ ≤ 2 ^ 128 := by rw [← hroom]; exact hq
    have hq' : (longShl q).toNat = 2 * q.toNat := by
      rw [longShl_toNat]
      exact Nat.mod_eq_of_lt (by omega)
    -- the low bit of the shifted quotient is free
    have hset : (⟨(longShl q).lo + 1, (longShl q).hi⟩ : W128).toNat = 2 * q.toNat + 1 := by
      have hlow : (longShl q).lo.toNat % 2 = 0 := by
        simp only [longShl, BitVec.toNat_shiftLeft, Nat.shiftLeft_eq]
        omega
      have hfit : ((longShl q).lo + 1).toNat = (longShl q).lo.toNat + 1 := by
        have hbound := (longShl q).lo.isLt
        rw [BitVec.toNat_add]
        exact Nat.mod_eq_of_lt (by
          have hone : (1 : W64).toNat = 1 := rfl
          omega)
      rw [← hq']
      simp only [W128.toNat, hfit]
      omega
    have hd127 : (longShr d).toNat < 2 ^ 127 := by omega
    obtain ⟨hborrow, hdiff⟩ := longSub_eq acc (longShr d) hd127
    rw [hd'] at hborrow hdiff
    rw [subLoop, RestoringDivision.restore]
    simp only [hborrow, decide_eq_true_eq]
    by_cases hle : e * 2 ^ n ≤ acc.toNat
    · rw [if_neg (by omega), if_pos hle, ← hdiff hle, ← hset]
      refine ih hd' ?_
      rw [hset]
      refine le_trans ?_ hq
      calc (2 * q.toNat + 1 + 1) * 2 ^ n = (2 * q.toNat + 2) * 2 ^ n := by ring
        _ ≤ (q.toNat + 1) * 2 ^ (n + 1) := hroom.ge
    · rw [if_pos (by omega), if_neg hle, ← hq']
      refine ih hd' ?_
      rw [hq']
      calc (2 * q.toNat + 1) * 2 ^ n ≤ (2 * q.toNat + 2) * 2 ^ n := Nat.mul_le_mul_right _ (by omega)
        _ ≤ 2 ^ 128 := by rw [← hroom]; exact hq

/-! ### What `long_div` computes -/

section LongDiv

variable (dividend : W128) (divisor : W64)

theorem normalised_longDiv :
    Normalised dividend divisor (normLoop dividend 129 (.ofW64 divisor) 0).1
      (normLoop dividend 129 (.ofW64 divisor) 0).2 := by
  refine normLoop_normalised ?_ (by omega) (by omega) (by omega)
  have hlt := divisor.isLt
  simp [W128.ofW64, W128.toNat]
  omega

/-- `long_div` divides by what is left of the divisor after `n` shifts; where nothing is
left, the quotient is all ones. -/
theorem longDiv_cases : ∃ n e, Normalised dividend divisor (normLoop dividend 129 (.ofW64 divisor) 0).1 n ∧
    e = divisor.toNat % 2 ^ (128 - n) ∧
    (dividend.toNat < e * 2 ^ n ∧ (longDiv dividend divisor).1.toNat = dividend.toNat / e ∧
        (longDiv dividend divisor).2.toNat = dividend.toNat % e ∨
      n = 128 ∧ (longDiv dividend divisor).1.toNat = 2 ^ 128 - 1 ∧
        (longDiv dividend divisor).2 = dividend.lo) := by
  have hnorm := normalised_longDiv dividend divisor
  set n := (normLoop dividend 129 (.ofW64 divisor) 0).2 with hn
  set d := (normLoop dividend 129 (.ofW64 divisor) 0).1 with hdef
  set e := divisor.toNat % 2 ^ (128 - n) with he
  have hd : d.toNat = e * 2 ^ n := by
    have hsplit : 2 ^ 128 = 2 ^ (128 - n) * 2 ^ n := by
      rw [← pow_add]
      congr 1
      have := hnorm.le
      omega
    rw [hnorm.shifted, hsplit, Nat.mul_mod_mul_right]
  have hroom : ((⟨0, 0⟩ : W128).toNat + 1) * 2 ^ n ≤ 2 ^ 128 := by
    have hzero : (⟨0, 0⟩ : W128).toNat = 0 := rfl
    rw [hzero, Nat.zero_add, Nat.one_mul]
    exact Nat.pow_le_pow_right (by omega) hnorm.le
  obtain ⟨hquot, hrem⟩ := @subLoop_eq e n d dividend ⟨0, 0⟩ hd hroom
  have hzero : (⟨0, 0⟩ : W128).toNat = 0 := rfl
  rw [hzero] at hquot hrem
  have helt : e < 2 ^ 64 := lt_of_le_of_lt (Nat.mod_le _ _) divisor.isLt
  refine ⟨n, e, hnorm, rfl, ?_⟩
  rcases hnorm.stopped with hstop | hfull
  · left
    rw [hd] at hstop
    rw [RestoringDivision.restore_eq 0 hstop] at hquot hrem
    have hquot' : (longDiv dividend divisor).1.toNat = 0 * 2 ^ n + dividend.toNat / e := hquot
    have hrem' : (subLoop n d dividend ⟨0, 0⟩).2.toNat = dividend.toNat % e := hrem
    refine ⟨hstop, by rw [hquot', Nat.zero_mul, Nat.zero_add], ?_⟩
    -- the remainder is below `e`, so its low word is all of it
    have hpos : 0 < e := by
      rcases Nat.eq_zero_or_pos e with h | h
      · rw [h] at hstop
        simp at hstop
      · exact h
    have hlt : dividend.toNat % e < 2 ^ 64 := lt_trans (Nat.mod_lt _ hpos) helt
    have hlow : (longDiv dividend divisor).2 = (subLoop n d dividend ⟨0, 0⟩).2.lo := rfl
    have hbound := (subLoop n d dividend ⟨0, 0⟩).2.lo.isLt
    rw [W128.toNat] at hrem'
    rw [hlow]
    omega
  · right
    have hezero : e = 0 := by
      rw [he, hfull]
      exact Nat.mod_one _
    rw [hezero, RestoringDivision.restore_zero] at hquot hrem
    have hquot' : (longDiv dividend divisor).1.toNat = 0 * 2 ^ n + (2 ^ n - 1) := hquot
    have hrem' : (subLoop n d dividend ⟨0, 0⟩).2.toNat = dividend.toNat := hrem
    refine ⟨hfull, ?_, ?_⟩
    · rw [hquot', hfull, Nat.zero_mul, Nat.zero_add]
    · have hlow : (longDiv dividend divisor).2 = (subLoop n d dividend ⟨0, 0⟩).2.lo := rfl
      have hb1 := (subLoop n d dividend ⟨0, 0⟩).2.lo.isLt
      have hb2 := dividend.lo.isLt
      rw [hlow]
      apply BitVec.eq_of_toNat_eq
      simp only [W128.toNat] at hrem'
      omega

variable {dividend divisor}

/-- **No bit is lost** where no multiple up to the dividend reaches `2 ^ 127`. -/
theorem longDiv_exact (hpos : 0 < divisor.toNat)
    (hlow : ∀ n, divisor.toNat * 2 ^ n ≤ dividend.toNat → divisor.toNat * 2 ^ n < 2 ^ 127) :
    (longDiv dividend divisor).1.toNat = dividend.toNat / divisor.toNat ∧
      (longDiv dividend divisor).2.toNat = dividend.toNat % divisor.toNat := by
  obtain ⟨n, e, hnorm, he, hcases⟩ := longDiv_cases dividend divisor
  -- the divisor is shifted without loss all the way
  have hkeep : ∀ k ≤ n, divisor.toNat * 2 ^ k < 2 ^ 128 := by
    intro k hk
    induction k with
    | zero =>
      have := divisor.isLt
      omega
    | succ k ih =>
      have hbelow := hnorm.below k (by omega)
      rw [Nat.mod_eq_of_lt (ih (by omega))] at hbelow
      have hshift := hlow k hbelow
      have hstep : divisor.toNat * 2 ^ (k + 1) = 2 * (divisor.toNat * 2 ^ k) := by ring
      omega
  have hn : n < 128 := by
    by_contra hge
    have hfull := hkeep 128 (by omega)
    have : 2 ^ 128 ≤ divisor.toNat * 2 ^ 128 := Nat.le_mul_of_pos_left _ hpos
    omega
  have hdiv : divisor.toNat < 2 ^ (128 - n) := by
    have hfit := hkeep n le_rfl
    have hsplit : 2 ^ 128 = 2 ^ (128 - n) * 2 ^ n := by
      rw [← pow_add]
      congr 1
      omega
    rw [hsplit] at hfit
    exact Nat.lt_of_mul_lt_mul_right hfit
  rw [Nat.mod_eq_of_lt hdiv] at he
  rcases hcases with ⟨_, hq, hr⟩ | ⟨hfull, _⟩
  · rw [he] at hq hr
    exact ⟨hq, hr⟩
  · omega

/-- A quotient of more than 64 bits has a high word, lost bits or not: the loop then
divides by less, or sets every bit. -/
theorem longDiv_hi (hbig : divisor.toNat * 2 ^ 64 ≤ dividend.toNat) :
    2 ^ 64 ≤ (longDiv dividend divisor).1.toNat := by
  obtain ⟨n, e, _, he, hcases⟩ := longDiv_cases dividend divisor
  rcases hcases with ⟨hstop, hq, _⟩ | ⟨_, hq, _⟩
  · have hle : e ≤ divisor.toNat := he ▸ Nat.mod_le _ _
    have hpos : 0 < e := by
      rcases Nat.eq_zero_or_pos e with h | h
      · rw [h] at hstop
        simp at hstop
      · exact h
    rw [hq, Nat.le_div_iff_mul_le hpos]
    calc 2 ^ 64 * e ≤ 2 ^ 64 * divisor.toNat := Nat.mul_le_mul_left _ hle
      _ = divisor.toNat * 2 ^ 64 := Nat.mul_comm _ _
      _ ≤ dividend.toNat := hbig
  · rw [hq]
    decide

/-- A power of two shifted onto a dividend of `2 ^ 127` is shifted out. -/
theorem longDiv_lost {k : ℕ} (hdividend : dividend.toNat = 2 ^ 127)
    (hdivisor : divisor.toNat = 2 ^ k) :
    (longDiv dividend divisor).1.toNat = 2 ^ 128 - 1 ∧ (longDiv dividend divisor).2 = dividend.lo := by
  obtain ⟨n, e, hnorm, he, hcases⟩ := longDiv_cases dividend divisor
  rcases hcases with ⟨hstop, _, _⟩ | ⟨_, hq, hr⟩
  · exfalso
    -- above the dividend the multiple would be a power of two between 2^127 and 2^128
    rw [he, hdivisor, hdividend] at hstop
    have hpos : 0 < 128 - n := by
      by_contra h
      have : 128 - n = 0 := by omega
      rw [this, pow_zero, Nat.mod_one] at hstop
      simp at hstop
    by_cases hlt : k < 128 - n
    · rw [Nat.mod_eq_of_lt (Nat.pow_lt_pow_right (by omega) hlt), ← pow_add] at hstop
      have := (Nat.pow_lt_pow_iff_right (by omega : 1 < 2)).1 hstop
      omega
    · have hdvd : 2 ^ (128 - n) ∣ 2 ^ k := pow_dvd_pow 2 (by omega)
      rw [Nat.mod_eq_zero_of_dvd hdvd] at hstop
      simp at hstop
  · exact ⟨hq, hr⟩

end LongDiv

end X86Sim
