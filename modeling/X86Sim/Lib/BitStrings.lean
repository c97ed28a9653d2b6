import Mathlib.Data.BitVec
import Mathlib.Logic.Function.Basic

/-!
# One bit of a word, one bit of a string of bytes

A word with one bit replaced, and a family of words with one bit of one of them
replaced. Two replacements at different places agree just if neither changes anything.
-/

namespace BitStrings

variable {w n : ℕ}

/-- The word with bit `k` replaced. -/
def setBit (v : BitVec w) (k : ℕ) (b : Bool) : BitVec w :=
  if b then v ||| BitVec.twoPow w k else v &&& ~~~BitVec.twoPow w k

section Word

variable {v : BitVec w} {k : ℕ} {b : Bool}

theorem getLsbD_setBit (hk : k < w) (i : ℕ) : (setBit v k b).getLsbD i = if i = k then b else v.getLsbD i := by
  unfold setBit
  by_cases hi : i < w
  · by_cases hik : i = k
    · subst hik
      cases b <;> simp [hi]
    · cases b <;> simp [hi, hik]
  · have hik : i ≠ k := by omega
    rw [BitVec.getLsbD_of_ge _ _ (by omega), if_neg hik, BitVec.getLsbD_of_ge _ _ (by omega)]

theorem setBit_eq_self (hk : k < w) : setBit v k b = v ↔ b = v.getLsbD k := by
  constructor
  · intro h
    have hbit := getLsbD_setBit (v := v) (b := b) hk k
    rw [h, if_pos rfl] at hbit
    exact hbit.symm
  · rintro rfl
    apply BitVec.eq_of_getLsbD_eq
    intro i hi
    rw [getLsbD_setBit hk]
    split
    · rename_i hik
      rw [hik]
    · rfl

theorem or_twoPow (v : BitVec w) (k : ℕ) : v ||| BitVec.twoPow w k = setBit v k true := rfl

theorem and_not_twoPow (v : BitVec w) (k : ℕ) : v &&& ~~~BitVec.twoPow w k = setBit v k false := rfl

theorem xor_twoPow (hk : k < w) : v ^^^ BitVec.twoPow w k = setBit v k (!v.getLsbD k) := by
  apply BitVec.eq_of_getLsbD_eq
  intro i hi
  rw [getLsbD_setBit hk, BitVec.getLsbD_xor, BitVec.getLsbD_twoPow]
  by_cases hik : i = k
  · subst hik
    simp [hi]
  · have hne : ¬k = i := fun h => hik h.symm
    simp [hik, hne]

/-- Replacements at two places of a word agree if neither changes it. -/
theorem setBit_eq_setBit {k' : ℕ} {b' : Bool} (hk : k < w) (hk' : k' < w) (hne : k ≠ k') :
    setBit v k b = setBit v k' b' ↔ b = v.getLsbD k ∧ b' = v.getLsbD k' := by
  constructor
  · intro h
    have hat := congrArg (fun x => x.getLsbD k) h
    have hat' := congrArg (fun x => x.getLsbD k') h
    simp only [getLsbD_setBit hk, getLsbD_setBit hk', hne, hne.symm, if_true, if_false] at hat hat'
    exact ⟨hat, hat'.symm⟩
  · rintro ⟨h, h'⟩
    rw [(setBit_eq_self hk).2 h, (setBit_eq_self hk').2 h']

end Word

/-! ### Strings -/

section Strings

variable {α : Type*} [DecidableEq α] {m : α → BitVec w} {x y : α} {k : ℕ} {b b' : Bool}

/-- The words `m` with bit `k` of that at `x` replaced. -/
def setBitAt (m : α → BitVec w) (x : α) (k : ℕ) (b : Bool) : α → BitVec w :=
  Function.update m x (setBit (m x) k b)

theorem setBitAt_eq_self (hk : k < w) : setBitAt m x k b = m ↔ b = (m x).getLsbD k := by
  unfold setBitAt
  rw [Function.update_eq_self_iff, setBit_eq_self hk]

/-- Replacements in two words agree if neither changes anything. -/
theorem setBitAt_eq_setBitAt (hk : k < w) (hne : x ≠ y) :
    setBitAt m x k b = setBitAt m y k b' ↔ b = (m x).getLsbD k ∧ b' = (m y).getLsbD k := by
  constructor
  · intro h
    have hat := congrFun h x
    have hat' := congrFun h y
    unfold setBitAt at hat hat'
    rw [Function.update_self, Function.update_of_ne hne] at hat
    rw [Function.update_self, Function.update_of_ne hne.symm] at hat'
    exact ⟨(setBit_eq_self hk).1 hat, (setBit_eq_self hk).1 hat'.symm⟩
  · rintro ⟨h, h'⟩
    rw [(setBitAt_eq_self hk).2 h, (setBitAt_eq_self hk).2 h']

end Strings

end BitStrings
