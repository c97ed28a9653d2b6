import Mathlib.Data.BitVec
import Mathlib.Tactic.IntervalCases

/-!
# Words as byte lanes

A 64-bit word read as eight byte lanes, and the masked merge `mux` of two words
by a lane mask.

* `byteAt_ofBytes`, `eq_of_byteAt`: a word is determined by its lanes.
* `byteAt_mux`: a merge picks each lane by its mask bit.
-/

namespace ByteMask

/-- Lane `i` of a word, little end first. -/
def byteAt (w : BitVec 64) (i : ℕ) : BitVec 8 := w.extractLsb' (8 * i) 8

/-- The word with the given lanes. -/
def ofBytes (f : ℕ → BitVec 8) : BitVec 64 :=
  f 7 ++ (f 6 ++ (f 5 ++ (f 4 ++ (f 3 ++ (f 2 ++ (f 1 ++ f 0))))))

theorem byteAt_ofBytes (f : ℕ → BitVec 8) {i : ℕ} (hi : i < 8) : byteAt (ofBytes f) i = f i := by
  apply BitVec.eq_of_getLsbD_eq
  intro j hj
  simp only [byteAt, ofBytes, BitVec.getLsbD_extractLsb', BitVec.getLsbD_append, hj, decide_true,
    Bool.true_and]
  interval_cases i <;> simp (disch := omega) only [if_pos, if_neg] <;> congr 1 <;> omega

theorem eq_of_byteAt {a b : BitVec 64} (h : ∀ i < 8, byteAt a i = byteAt b i) : a = b := by
  apply BitVec.eq_of_getLsbD_eq
  intro j hj
  have hj8 := congrArg (fun w => w.getLsbD (j % 8)) (h (j / 8) (by omega))
  simp only [byteAt, BitVec.getLsbD_extractLsb', Nat.mod_lt j (by decide : 0 < 8),
    decide_true, Bool.true_and, Nat.div_add_mod] at hj8
  exact hj8

theorem ofBytes_byteAt (w : BitVec 64) : ofBytes (byteAt w) = w :=
  eq_of_byteAt fun _ hi => byteAt_ofBytes _ hi

theorem ofBytes_congr {f g : ℕ → BitVec 8} (h : ∀ i < 8, f i = g i) : ofBytes f = ofBytes g :=
  eq_of_byteAt fun i hi => by rw [byteAt_ofBytes f hi, byteAt_ofBytes g hi, h i hi]

/-- The lanes of `b` under the mask, those of `a` elsewhere. -/
def mux (mask : BitVec 8) (a b : BitVec 64) : BitVec 64 :=
  ofBytes fun i => if mask.getLsbD i then byteAt b i else byteAt a i

theorem byteAt_mux (mask : BitVec 8) (a b : BitVec 64) {i : ℕ} (hi : i < 8) :
    byteAt (mux mask a b) i = if mask.getLsbD i then byteAt b i else byteAt a i :=
  byteAt_ofBytes _ hi

@[simp] theorem mux_zero (a b : BitVec 64) : mux 0 a b = a := by
  apply eq_of_byteAt
  intro i hi
  simp [byteAt_mux _ _ _ hi]

end ByteMask
