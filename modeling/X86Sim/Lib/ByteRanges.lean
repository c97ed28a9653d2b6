import X86Sim.Lib.ByteMask

/-!
# Ranges of byte lanes

A range of bytes that may begin in one word and end in the next: what a window over
the two words reads, and the mask and the shift that move a value to its lanes in
either word.
-/

namespace ByteMask

/-- A bit of a word of lanes. -/
theorem ofBytes_bit (f : ℕ → BitVec 8) {j : ℕ} (hj : j < 64) :
    (ofBytes f).getLsbD j = (f (j / 8)).getLsbD (j % 8) := by
  have hlane := congrArg (fun b => b.getLsbD (j % 8)) (byteAt_ofBytes f (show j / 8 < 8 by omega))
  simp only [byteAt, BitVec.getLsbD_extractLsb', Nat.mod_lt j (by decide : 0 < 8), decide_true,
    Bool.true_and, Nat.div_add_mod] at hlane
  exact hlane

/-- The low lanes of a word depend on nothing else. -/
theorem setWidth_ofBytes {f g : ℕ → BitVec 8} {n w : ℕ} (hw : w ≤ 8 * n) (h : ∀ i < n, f i = g i) :
    (ofBytes f).setWidth w = (ofBytes g).setWidth w := by
  apply BitVec.eq_of_getLsbD_eq
  intro j hj
  rw [BitVec.getLsbD_setWidth, BitVec.getLsbD_setWidth]
  by_cases h64 : j < 64
  · rw [ofBytes_bit f h64, ofBytes_bit g h64, h (j / 8) (by omega)]
  · rw [BitVec.getLsbD_of_ge _ _ (Nat.le_of_not_lt h64), BitVec.getLsbD_of_ge _ _ (Nat.le_of_not_lt h64)]

/-! ### Reading -/

/-- Lane `i` of two words side by side, from lane `off` on. -/
def lane (lo hi : BitVec 64) (off i : ℕ) : BitVec 8 :=
  if off + i < 8 then byteAt lo (off + i) else byteAt hi (off + i - 8)

/-- The window of eight lanes from lane `off`. -/
theorem window_eq (lo hi : BitVec 64) (off : ℕ) :
    ((hi ++ lo) >>> (8 * off)).setWidth 64 = ofBytes (lane lo hi off) := by
  apply BitVec.eq_of_getLsbD_eq
  intro j hj
  rw [ofBytes_bit _ hj, BitVec.getLsbD_setWidth, BitVec.getLsbD_ushiftRight, BitVec.getLsbD_append]
  have hmod := Nat.mod_lt j (by decide : 0 < 8)
  unfold lane
  by_cases hlo : off + j / 8 < 8
  · have hbit : 8 * off + j < 64 := by omega
    have hidx : 8 * (off + j / 8) + j % 8 = 8 * off + j := by omega
    simp only [hj, decide_true, Bool.true_and, hbit, if_pos hlo, byteAt, BitVec.getLsbD_extractLsb', hmod, hidx,
      if_true]
  · have hbit : ¬8 * off + j < 64 := by omega
    have hidx : 8 * (off + j / 8 - 8) + j % 8 = 8 * off + j - 64 := by omega
    simp only [hj, decide_true, Bool.true_and, hbit, if_neg hlo, byteAt, BitVec.getLsbD_extractLsb', hmod, hidx,
      if_false]

/-! ### Writing -/

/-- The mask of `n` lanes from lane `low`. -/
theorem maskLeft_bit (n low : ℕ) {j : ℕ} (hj : j < 8) :
    (BitVec.ofNat 8 ((2 ^ n - 1) <<< low)).getLsbD j = decide (low ≤ j ∧ j < low + n) := by
  rw [BitVec.getLsbD_ofNat, Nat.testBit_shiftLeft, Nat.testBit_two_pow_sub_one, decide_eq_true hj, Bool.true_and]
  by_cases hle : low ≤ j
  · simp only [hle, decide_true, Bool.true_and, true_and]
    congr 1
    exact propext (by omega)
  · simp [hle]

/-- The mask of what is left of `n` lanes after the first `k`. -/
theorem maskRight_bit (n k : ℕ) {j : ℕ} (hj : j < 8) :
    (BitVec.ofNat 8 ((2 ^ n - 1) >>> k)).getLsbD j = decide (k + j < n) := by
  rw [BitVec.getLsbD_ofNat, Nat.testBit_shiftRight, Nat.testBit_two_pow_sub_one, decide_eq_true hj, Bool.true_and]

/-- Nothing is left of lanes that end in the first word. -/
theorem maskRight_zero {n low : ℕ} (h : low + n ≤ 8) : BitVec.ofNat 8 ((2 ^ n - 1) >>> (8 - low)) = 0 := by
  apply BitVec.eq_of_getLsbD_eq
  intro j hj
  have hbit := maskRight_bit n (8 - low) hj
  rw [hbit, decide_eq_false (by omega)]
  simp

/-- A value moved up by `low` lanes. -/
theorem byteAt_shiftLeft (v : BitVec 64) {low j : ℕ} (hle : low ≤ j) (hj : j < 8) :
    byteAt (v <<< (8 * low)) j = byteAt v (j - low) := by
  apply BitVec.eq_of_getLsbD_eq
  intro k hk
  have h64 : 8 * j + k < 64 := by omega
  have hge : ¬8 * j + k < 8 * low := by omega
  have hidx : 8 * j + k - 8 * low = 8 * (j - low) + k := by omega
  simp only [byteAt, BitVec.getLsbD_extractLsb', BitVec.getLsbD_shiftLeft, hk, h64, hge, hidx, decide_true,
    decide_false, Bool.true_and, Bool.not_false]

/-- A value moved down by `k` lanes. -/
theorem byteAt_shiftRight (v : BitVec 64) (k j : ℕ) : byteAt (v >>> (8 * k)) j = byteAt v (k + j) := by
  apply BitVec.eq_of_getLsbD_eq
  intro i hi
  have hidx : 8 * k + (8 * j + i) = 8 * (k + j) + i := by omega
  simp only [byteAt, BitVec.getLsbD_extractLsb', BitVec.getLsbD_ushiftRight, hi, hidx, decide_true, Bool.true_and]

end ByteMask
