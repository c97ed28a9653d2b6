import Mathlib.Algebra.Order.Group.Nat
import Mathlib.Algebra.Ring.Nat
import Mathlib.Tactic.Ring

/-!
# Restoring division

Division by comparing and subtracting halved multiples of the divisor, one quotient bit
a step, over numbers. A divisor of zero subtracts nothing and sets every bit.

* `restore_eq`: what the loop gives once the multiple exceeds the dividend.
* `restore_zero`: what it gives for zero.
-/

namespace RestoringDivision

/-- `n` steps from the multiple `e * 2 ^ n`, with the quotient bits so far: the quotient
and the remainder. -/
def restore (e : ℕ) : ℕ → ℕ → ℕ → ℕ × ℕ
  | 0, acc, q => (q, acc)
  | n + 1, acc, q =>
    if e * 2 ^ n ≤ acc then restore e n (acc - e * 2 ^ n) (2 * q + 1) else restore e n acc (2 * q)

/-- From a multiple above the dividend the loop divides. -/
theorem restore_eq {e n acc : ℕ} (q : ℕ) (h : acc < e * 2 ^ n) :
    restore e n acc q = (q * 2 ^ n + acc / e, acc % e) := by
  induction n generalizing acc q with
  | zero =>
    have hlt : acc < e := by simpa using h
    simp [restore, Nat.div_eq_of_lt hlt, Nat.mod_eq_of_lt hlt]
  | succ n ih =>
    have hpow : e * 2 ^ (n + 1) = e * 2 ^ n + e * 2 ^ n := by ring
    have hpos : 0 < e := by
      rcases Nat.eq_zero_or_pos e with rfl | hpos
      · simp at h
      · exact hpos
    rw [restore]
    split
    · rename_i hle
      rw [ih (2 * q + 1) (by omega)]
      obtain ⟨rest, rfl⟩ := Nat.exists_eq_add_of_le hle
      have hdiv : (e * 2 ^ n + rest) / e = 2 ^ n + rest / e := by
        rw [Nat.mul_add_div hpos]
      have hmod : (e * 2 ^ n + rest) % e = rest % e := by
        rw [Nat.mul_add_mod]
      rw [Nat.add_sub_cancel_left, hdiv, hmod]
      congr 1
      ring
    · rename_i hle
      rw [ih (2 * q) (by omega)]
      congr 1
      ring

/-- Zero goes into everything at every step. -/
theorem restore_zero (n acc q : ℕ) : restore 0 n acc q = (q * 2 ^ n + (2 ^ n - 1), acc) := by
  induction n generalizing q with
  | zero => simp [restore]
  | succ n ih =>
    have hstep : restore 0 (n + 1) acc q = restore 0 n acc (2 * q + 1) := by
      simp [restore]
    have hpow : 2 ^ (n + 1) = 2 ^ n + 2 ^ n := by ring
    have hpos : 1 ≤ 2 ^ n := Nat.one_le_two_pow
    rw [hstep, ih, hpow]
    congr 1
    have : (2 * q + 1) * 2 ^ n = q * (2 ^ n + 2 ^ n) + 2 ^ n := by ring
    omega

end RestoringDivision
