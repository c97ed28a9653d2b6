import Mathlib.Data.BitVec
import Mathlib.Logic.Function.Iterate
import Mathlib.Tactic.Ring

/-!
# Shifts and rotates one bit at a time

A word and a carry. One step moves the word by one bit, the bit that leaves it into
the carry and, of a rotate, the carry into the bit set free. The steps iterated are
the shifts by a count, and the rotates have period `w + 1`.
-/

namespace OneBit

/-- A word and the carry beside it. -/
@[ext] structure Carried (w : ℕ) where
  value : BitVec w
  carry : Bool
  deriving DecidableEq

variable {w : ℕ}

def shl (s : Carried w) : Carried w := ⟨s.value <<< 1, s.value.msb⟩
def shr (s : Carried w) : Carried w := ⟨s.value >>> 1, s.value.getLsbD 0⟩
def sar (s : Carried w) : Carried w := ⟨s.value.sshiftRight 1, s.value.getLsbD 0⟩

/-- The carry comes in at the low end. -/
def rcl (s : Carried w) : Carried w :=
  ⟨(s.value <<< 1) ||| (BitVec.ofBool s.carry).setWidth w, s.value.msb⟩

/-- The carry comes in at the high end. -/
def rcr (s : Carried w) : Carried w :=
  ⟨(s.value >>> 1) ||| ((BitVec.ofBool s.carry).setWidth w <<< (w - 1)), s.value.getLsbD 0⟩

/-! ### Shifts by a count -/

theorem shl_iterate_value (c : ℕ) (s : Carried w) : (shl^[c] s).value = s.value <<< c := by
  induction c with
  | zero => simp
  | succ c ih =>
    rw [Function.iterate_succ_apply']
    show (shl^[c] s).value <<< 1 = _
    rw [ih, BitVec.shiftLeft_add]

theorem shr_iterate_value (c : ℕ) (s : Carried w) : (shr^[c] s).value = s.value >>> c := by
  induction c with
  | zero => simp
  | succ c ih =>
    rw [Function.iterate_succ_apply']
    show (shr^[c] s).value >>> 1 = _
    rw [ih, BitVec.shiftRight_add]

theorem sar_iterate_value (c : ℕ) (s : Carried w) : (sar^[c] s).value = s.value.sshiftRight c := by
  induction c with
  | zero => simp
  | succ c ih =>
    rw [Function.iterate_succ_apply']
    show (sar^[c] s).value.sshiftRight 1 = _
    rw [ih, BitVec.sshiftRight_add]

/-- The last bit a shift to the left moves out. -/
theorem shl_iterate_carry {c : ℕ} (hc : 0 < c) (s : Carried w) :
    (shl^[c] s).carry = (decide (c ≤ w) && s.value.getLsbD (w - c)) := by
  obtain ⟨c, rfl⟩ : ∃ k, c = k + 1 := ⟨c - 1, by omega⟩
  rw [Function.iterate_succ_apply']
  show (shl^[c] s).value.msb = _
  rw [shl_iterate_value, BitVec.msb_eq_getLsbD_last, BitVec.getLsbD_shiftLeft]
  by_cases hle : c + 1 ≤ w
  · have hlt : w - 1 < w := by omega
    have hge : ¬w - 1 < c := by omega
    have hsub : w - 1 - c = w - (c + 1) := by omega
    simp [hle, hlt, hge, hsub]
  · by_cases hw : w - 1 < w
    · have hlt : w - 1 < c := by omega
      simp [hle, hlt]
    · simp [hle, hw]

theorem shr_iterate_carry {c : ℕ} (hc : 0 < c) (s : Carried w) :
    (shr^[c] s).carry = s.value.getLsbD (c - 1) := by
  obtain ⟨c, rfl⟩ : ∃ k, c = k + 1 := ⟨c - 1, by omega⟩
  rw [Function.iterate_succ_apply']
  show (shr^[c] s).value.getLsbD 0 = _
  rw [shr_iterate_value, BitVec.getLsbD_ushiftRight]
  rfl

theorem sar_iterate_carry {c : ℕ} (hc : 0 < c) (s : Carried w) :
    (sar^[c] s).carry = if c ≤ w then s.value.getLsbD (c - 1) else s.value.msb := by
  obtain ⟨c, rfl⟩ : ∃ k, c = k + 1 := ⟨c - 1, by omega⟩
  rw [Function.iterate_succ_apply']
  show (sar^[c] s).value.getLsbD 0 = _
  rw [sar_iterate_value, BitVec.getLsbD_sshiftRight]
  by_cases hw : w = 0
  · subst hw
    simp [BitVec.eq_nil s.value]
  · by_cases hle : c + 1 ≤ w
    · have hlt : c < w := by omega
      simp [hw, hle, hlt]
    · have hlt : ¬c < w := by omega
      simp [hw, hle, hlt]

/-! ### Rotates through the carry -/

/-- The bits of the word, then the carry. -/
def Carried.bit (s : Carried w) (i : ℕ) : Bool := if i < w then s.value.getLsbD i else s.carry

/-- The bits tell the word and its carry. -/
theorem Carried.ext_bit {s t : Carried w} (h : ∀ i, i ≤ w → s.bit i = t.bit i) : s = t := by
  apply Carried.ext
  · apply BitVec.eq_of_getLsbD_eq
    intro i hi
    have hbit := h i hi.le
    unfold Carried.bit at hbit
    rwa [if_pos hi, if_pos hi] at hbit
  · have hbit := h w le_rfl
    unfold Carried.bit at hbit
    rwa [if_neg (lt_irrefl w), if_neg (lt_irrefl w)] at hbit

private theorem ofBool_bit (b : Bool) (i : ℕ) :
    ((BitVec.ofBool b).setWidth w).getLsbD i = (decide (i = 0 ∧ 0 < w) && b) := by
  rw [BitVec.getLsbD_setWidth]
  cases i with
  | zero => simp
  | succ i => simp

/-- A step to the left brings bit `i - 1` to bit `i`, and the carry to bit 0. -/
theorem rcl_bit (hw : 0 < w) (s : Carried w) {i : ℕ} (hi : i ≤ w) : (rcl s).bit i = s.bit ((i + w) % (w + 1)) := by
  unfold Carried.bit rcl
  cases i with
  | zero =>
    rw [Nat.zero_add, Nat.mod_eq_of_lt (Nat.lt_succ_self w), if_neg (lt_irrefl w)]
    rw [if_pos hw, BitVec.getLsbD_or, ofBool_bit]
    simp [hw]
  | succ i =>
    have hmod : (i + 1 + w) % (w + 1) = i := by
      rw [show i + 1 + w = i + (w + 1) by omega, Nat.add_mod_right, Nat.mod_eq_of_lt (by omega)]
    rw [hmod, if_pos (by omega : i < w)]
    split
    · rename_i hlt
      rw [BitVec.getLsbD_or, ofBool_bit, BitVec.getLsbD_shiftLeft]
      simp [hlt]
    · have hlast : i = w - 1 := by omega
      rw [BitVec.msb_eq_getLsbD_last, hlast]

/-- A step to the right brings bit `i + 1` to bit `i`, and bit 0 to the carry. -/
theorem rcr_bit (hw : 0 < w) (s : Carried w) {i : ℕ} (hi : i ≤ w) : (rcr s).bit i = s.bit ((i + 1) % (w + 1)) := by
  unfold Carried.bit rcr
  rcases Nat.lt_or_ge i w with hlt | hge
  · rw [if_pos hlt, Nat.mod_eq_of_lt (by omega : i + 1 < w + 1), BitVec.getLsbD_or,
      BitVec.getLsbD_ushiftRight, BitVec.getLsbD_shiftLeft, ofBool_bit]
    rcases Nat.lt_or_ge (i + 1) w with hin | hlast
    · have hlow : i < w - 1 := by omega
      simp [hlt, hin, hlow, Nat.add_comm]
    · have hout : w ≤ 1 + i := by omega
      have hlow : ¬i < w - 1 := by omega
      have hat : i - (w - 1) = 0 := by omega
      rw [if_neg (by omega : ¬i + 1 < w), BitVec.getLsbD_of_ge _ _ hout]
      simp [hlt, hlow, hat]
      omega
  · have hiw : i = w := by omega
    subst hiw
    rw [if_neg (lt_irrefl _), Nat.mod_self, if_pos hw]

/-- `n` steps to the left. -/
theorem rcl_iterate_bit (hw : 0 < w) (n : ℕ) (s : Carried w) {i : ℕ} (hi : i ≤ w) :
    (rcl^[n] s).bit i = s.bit ((i + n * w) % (w + 1)) := by
  induction n generalizing i with
  | zero => rw [Nat.zero_mul, Nat.add_zero, Nat.mod_eq_of_lt (by omega)]; rfl
  | succ n ih =>
    rw [Function.iterate_succ_apply', rcl_bit hw _ hi, ih (Nat.lt_succ_iff.1 (Nat.mod_lt _ (Nat.succ_pos w))),
      Nat.mod_add_mod]
    congr 2
    ring

theorem rcr_iterate_bit (hw : 0 < w) (n : ℕ) (s : Carried w) {i : ℕ} (hi : i ≤ w) :
    (rcr^[n] s).bit i = s.bit ((i + n) % (w + 1)) := by
  induction n generalizing i with
  | zero => rw [Nat.add_zero, Nat.mod_eq_of_lt (by omega)]; rfl
  | succ n ih =>
    rw [Function.iterate_succ_apply', rcr_bit hw _ hi, ih (Nat.lt_succ_iff.1 (Nat.mod_lt _ (Nat.succ_pos w))),
      Nat.mod_add_mod]
    congr 2
    ring

/-- A whole turn to the left leaves everything in its place. -/
theorem rcl_iterate_period (hw : 0 < w) (s : Carried w) : rcl^[w + 1] s = s := by
  apply Carried.ext_bit
  intro i hi
  rw [rcl_iterate_bit hw _ _ hi, Nat.add_mul_mod_self_left, Nat.mod_eq_of_lt (by omega)]

theorem rcr_iterate_period (hw : 0 < w) (s : Carried w) : rcr^[w + 1] s = s := by
  apply Carried.ext_bit
  intro i hi
  rw [rcr_iterate_bit hw _ _ hi, Nat.add_mod_right, Nat.mod_eq_of_lt (by omega)]

/-- A step with a period depends on the count modulo it only. -/
theorem iterate_mod {α : Type*} {f : α → α} {p : ℕ} (hp : ∀ s, f^[p] s = s) (n : ℕ) (s : α) :
    f^[n % p] s = f^[n] s := by
  have hmul : ∀ k s, f^[p * k] s = s := by
    intro k
    induction k with
    | zero => exact fun s => rfl
    | succ k ih =>
      intro s
      rw [Nat.mul_succ, Function.iterate_add_apply, hp, ih]
  conv_rhs => rw [← Nat.mod_add_div n p, Function.iterate_add_apply, hmul]

end OneBit
