import Mathlib.Data.BitVec
import Mathlib.Tactic.Ring

/-!
# Lanes of a word

A word is seen as an array of lanes of `w` bits, the first one lowest. Words are put
together from lanes, and a function of lanes is one of words.
-/

namespace Lanes

variable {w W V : ℕ}

/-- Lane `i` of a word. -/
def lane (w : ℕ) (v : BitVec W) (i : ℕ) : BitVec w := v.extractLsb' (i * w) w

/-- The word of the first `n` lanes. -/
def ofLanes (W : ℕ) (f : ℕ → BitVec w) : ℕ → BitVec W
  | 0 => 0
  | n + 1 => ofLanes W f n ||| ((f n).setWidth W <<< (n * w))

/-- A function of two lanes, of two words of `n` lanes. -/
def zip (w n : ℕ) (f : BitVec w → BitVec w → BitVec w) (a b : BitVec W) : BitVec W :=
  ofLanes W (fun i => f (lane w a i) (lane w b i)) n

/-- A function of a lane, of a word of `n` lanes. -/
def map (w n : ℕ) (f : BitVec w → BitVec w) (a : BitVec W) : BitVec W := ofLanes W (fun i => f (lane w a i)) n

variable {f g : ℕ → BitVec w} {n : ℕ}

/-- Bit `i * w + k` is bit `k` of lane `i`. -/
theorem getLsbD_ofLanes (f : ℕ → BitVec w) (hn : n * w ≤ W) {i k : ℕ} (hk : k < w) :
    (ofLanes W f n).getLsbD (i * w + k) = (decide (i < n) && (f i).getLsbD k) := by
  induction n with
  | zero => simp [ofLanes]
  | succ n ih =>
    have hstep : (n + 1) * w = n * w + w := Nat.succ_mul n w
    rw [hstep] at hn
    unfold ofLanes
    rw [BitVec.getLsbD_or, ih (by omega), BitVec.getLsbD_shiftLeft, BitVec.getLsbD_setWidth]
    rcases Nat.lt_trichotomy i n with hlt | heq | hgt
    · -- a lane below
      have hle : i * w + w ≤ n * w := by
        rw [← Nat.succ_mul]
        exact Nat.mul_le_mul_right w hlt
      have hbelow : i * w + k < n * w := by omega
      simp [hlt, hbelow, Nat.lt_succ_of_lt hlt]
    · subst heq
      have hW : i * w + k < W := by omega
      have hk' : k < W := by omega
      simp [hW, hk']
    · -- a lane above
      have hle : n * w + w ≤ i * w := by
        rw [← Nat.succ_mul]
        exact Nat.mul_le_mul_right w hgt
      have hbit : (f n).getLsbD (i * w + k - n * w) = false := BitVec.getLsbD_of_ge _ _ (by omega)
      have hn1 : ¬ i < n ∧ ¬ i < n + 1 := by omega
      simp [hbit, hn1]

theorem getLsbD_lane (v : BitVec W) (i : ℕ) {k : ℕ} (hk : k < w) : (lane w v i).getLsbD k = v.getLsbD (i * w + k) := by
  unfold lane
  rw [BitVec.getLsbD_extractLsb', decide_eq_true hk, Bool.true_and]

/-- Words of the same lanes are equal. -/
theorem ext_lanes {a b : BitVec W} (hW : W = n * w) (h : ∀ i < n, lane w a i = lane w b i) : a = b := by
  apply BitVec.eq_of_getLsbD_eq
  intro j hj
  have hw : 0 < w := by
    rcases Nat.eq_zero_or_pos w with h0 | h0
    · rw [h0, Nat.mul_zero] at hW
      omega
    · exact h0
  have hsplit : j / w * w + j % w = j := by
    rw [Nat.mul_comm]
    exact Nat.div_add_mod j w
  have hi : j / w < n := (Nat.div_lt_iff_lt_mul hw).2 (hW ▸ hj)
  have hk : j % w < w := Nat.mod_lt j hw
  rw [← hsplit, ← getLsbD_lane a _ hk, ← getLsbD_lane b _ hk, h _ hi]

/-- The lanes of a word put together. -/
theorem lane_ofLanes (f : ℕ → BitVec w) (hn : n * w ≤ W) {i : ℕ} (hi : i < n) : lane w (ofLanes W f n) i = f i := by
  apply BitVec.eq_of_getLsbD_eq
  intro k hk
  rw [getLsbD_lane _ _ hk, getLsbD_ofLanes f hn hk, decide_eq_true hi, Bool.true_and]

theorem ofLanes_congr (h : ∀ i < n, f i = g i) : ofLanes W f n = ofLanes W g n := by
  induction n with
  | zero => rfl
  | succ n ih =>
    unfold ofLanes
    rw [ih fun i hi => h i (Nat.lt_succ_of_lt hi), h n (Nat.lt_succ_self n)]

/-- Lanes of the lower of two words. -/
theorem lane_append_low (a : BitVec V) (b : BitVec W) {i : ℕ} (hi : i * w + w ≤ W) : lane w (a ++ b) i = lane w b i := by
  apply BitVec.eq_of_getLsbD_eq
  intro k hk
  rw [getLsbD_lane _ _ hk, getLsbD_lane _ _ hk, BitVec.getLsbD_append, if_pos (by omega)]

/-- Lanes of the upper. -/
theorem lane_append_high (a : BitVec V) (b : BitVec W) (hW : W = n * w) (i : ℕ) :
    lane w (a ++ b) (n + i) = lane w a i := by
  apply BitVec.eq_of_getLsbD_eq
  intro k hk
  have hmul : (n + i) * w = n * w + i * w := Nat.add_mul n i w
  rw [getLsbD_lane _ _ hk, getLsbD_lane _ _ hk, BitVec.getLsbD_append, if_neg (by omega)]
  congr 1
  omega

/-- **Lanes of two words, one after the other.** -/
theorem ofLanes_append (f : ℕ → BitVec w) {m : ℕ} (hW : W = n * w) (hV : V = m * w) :
    ofLanes (V + W) f (n + m) = ofLanes V (fun i => f (n + i)) m ++ ofLanes W f n := by
  have hmul : (n + m) * w = n * w + m * w := Nat.add_mul n m w
  refine ext_lanes (n := n + m) (w := w) (by omega) fun i hi => ?_
  rw [lane_ofLanes f (by omega) hi]
  by_cases hlow : i < n
  · have hle : i * w + w ≤ n * w := by
      rw [← Nat.succ_mul]
      exact Nat.mul_le_mul_right w hlow
    rw [lane_append_low _ _ (by omega), lane_ofLanes f (le_of_eq hW.symm) hlow]
  · obtain ⟨j, rfl⟩ : ∃ j, i = n + j := ⟨i - n, by omega⟩
    rw [lane_append_high _ _ hW, lane_ofLanes _ (le_of_eq hV.symm) (by omega)]

/-- A function of lanes works on either word. -/
theorem zip_append (f : BitVec w → BitVec w → BitVec w) {m : ℕ} (hW : W = n * w) (hV : V = m * w) (a b : BitVec V)
    (a' b' : BitVec W) : zip w (n + m) f (a ++ a') (b ++ b') = zip w m f a b ++ zip w n f a' b' := by
  unfold zip
  rw [ofLanes_append _ hW hV]
  refine congrArg₂ (· ++ ·) ?_ (ofLanes_congr fun i hi => ?_)
  · refine ofLanes_congr fun i _ => ?_
    rw [lane_append_high _ _ hW, lane_append_high _ _ hW]
  · have hle : i * w + w ≤ n * w := by
      rw [← Nat.succ_mul]
      exact Nat.mul_le_mul_right w hi
    rw [lane_append_low _ _ (by omega), lane_append_low _ _ (by omega)]

theorem map_append (f : BitVec w → BitVec w) {m : ℕ} (hW : W = n * w) (hV : V = m * w) (a : BitVec V) (a' : BitVec W) :
    map w (n + m) f (a ++ a') = map w m f a ++ map w n f a' :=
  zip_append (fun x _ => f x) hW hV a a a' a'

/-- A word built from its last lane down, shifting in the others. -/
def shiftIn (W : ℕ) (f : ℕ → BitVec w) (n : ℕ) : BitVec W :=
  (List.range n).foldr (fun i v => (v <<< w) ||| (f i).setWidth W) 0

theorem shiftIn_succ (f : ℕ → BitVec w) (n : ℕ) :
    shiftIn W f (n + 1) = (shiftIn W (fun i => f (i + 1)) n <<< w) ||| (f 0).setWidth W := by
  unfold shiftIn
  rw [List.range_succ_eq_map, List.foldr_cons, List.foldr_map]

/-- It has the same lanes. -/
theorem shiftIn_eq (f : ℕ → BitVec w) (hn : n * w ≤ W) : shiftIn W f n = ofLanes W f n := by
  have hbits : ∀ (n : ℕ) (f : ℕ → BitVec w), n * w ≤ W → ∀ j, (shiftIn W f n).getLsbD j =
      (decide (j / w < n) && (f (j / w)).getLsbD (j % w)) := by
    intro n
    induction n with
    | zero => exact fun f _ j => by simp [shiftIn]
    | succ n ih =>
      intro f hn j
      have hstep : (n + 1) * w = n * w + w := Nat.succ_mul n w
      rw [shiftIn_succ, BitVec.getLsbD_or, BitVec.getLsbD_shiftLeft, BitVec.getLsbD_setWidth, ih _ (by omega)]
      by_cases hlow : j < w
      · have hW : j < W := by omega
        simp [hlow, Nat.div_eq_of_lt hlow, Nat.mod_eq_of_lt hlow, hW]
      · obtain ⟨i, rfl⟩ : ∃ i, j = w + i := ⟨j - w, by omega⟩
        have hhigh : (f 0).getLsbD (w + i) = false := BitVec.getLsbD_of_ge _ _ (by omega)
        rcases Nat.eq_zero_or_pos w with h0 | h0
        · subst h0
          simp [BitVec.of_length_zero]
        · have hdiv : (w + i) / w = i / w + 1 := by rw [Nat.add_div_left i h0]
          have hlt : i / w < n → w + i < W := fun h => by
            have hle : i < n * w := (Nat.div_lt_iff_lt_mul h0).1 h
            omega
          rw [hhigh, hdiv, Nat.add_mod_left, Nat.add_sub_cancel_left]
          by_cases hi : i / w < n
          · simp [hi, hlt hi]
          · simp [hi]
  apply BitVec.eq_of_getLsbD_eq
  intro j hj
  rw [hbits n f hn]
  rcases Nat.eq_zero_or_pos w with h0 | h0
  · subst h0
    have hall : ∀ n, ofLanes W f n = 0 := fun n => by
      induction n with
      | zero => rfl
      | succ n ih =>
        unfold ofLanes
        rw [ih, BitVec.of_length_zero (x := f n)]
        simp
    rw [hall]
    simp [BitVec.of_length_zero]
  · have hsplit : j / w * w + j % w = j := by
      rw [Nat.mul_comm]
      exact Nat.div_add_mod j w
    have hbit := getLsbD_ofLanes f hn (i := j / w) (Nat.mod_lt j h0)
    rw [hsplit] at hbit
    rw [hbit]

end Lanes
