import X86Sim.Decode.Alu
import Mathlib.Tactic.IntervalCases
/-!
# The values of ALU uops

The implementations of addition and subtraction compute what x86 says, carry and
overflow included; the flags word of a result, and the two byte moves of the mask uop.
-/

namespace X86Sim

section Arith
variable {w : ℕ}

theorem carryBit_toNat (hw : 0 < w) (c : Bool) : (carryBit c : BitVec w).toNat = c.toNat := by
  have h1 : 1 < 2 ^ w := Nat.one_lt_two_pow (by omega)
  cases c with
  | false => simp [carryBit]
  | true => simp [carryBit, Nat.mod_eq_of_lt h1]

/-- The carry flag is the lowest bit. -/
theorem flag_cf (f : W16) : f &&& FLAG_CF ≠ 0 ↔ f.getLsbD 0 = true := by
  have hone : f &&& FLAG_CF = (BitVec.ofBool (f.getLsbD 0)).setWidth 16 :=
    BitVec.and_one_eq_setWidth_ofBool_getLsbD
  rw [hone]
  cases f.getLsbD 0 <;> decide

/-- The value of a signed number. -/
theorem toInt_eq (a : BitVec w) : a.toInt = a.toNat - (if a.msb then ((2 ^ w : ℕ) : ℤ) else 0) := by
  rw [BitVec.toInt_eq_msb_cond]
  split <;> simp

theorem msb_iff (hw : 0 < w) (a : BitVec w) : a.msb = true ↔ 2 ^ w ≤ 2 * a.toNat := by
  rw [BitVec.msb_eq_decide, decide_eq_true_eq]
  have h : 2 ^ w = 2 * 2 ^ (w - 1) := by rw [← pow_succ']; congr 1; omega
  omega

/-- The sign bit alone. -/
theorem and_signBit (hw : 0 < w) (x : BitVec w) : x &&& (1 : BitVec w) <<< (w - 1) ≠ 0 ↔ x.msb = true := by
  have hbit : (1 : BitVec w) <<< (w - 1) = BitVec.twoPow w (w - 1) := by
    rw [BitVec.twoPow]; rfl
  have hmsb : x.msb = x.getLsbD (w - 1) := by rw [BitVec.msb_eq_getLsbD_last]
  rw [hbit, BitVec.and_twoPow, hmsb]
  cases x.getLsbD (w - 1) with
  | false => simp
  | true =>
    have hne : BitVec.twoPow w (w - 1) ≠ 0 := by
      intro h
      have h0 := congrArg BitVec.toNat h
      rw [BitVec.toNat_twoPow_of_lt (by omega)] at h0
      simp at h0
    simpa using hne

theorem two_dvd_pow (hw : 0 < w) : 2 ∣ 2 ^ w := dvd_pow_self 2 (by omega)

/-- A sum of less than twice the modulus. -/
theorem mod_cases {s N : ℕ} (h : s < 2 * N) : s % N = s ∧ s < N ∨ s % N = s - N ∧ N ≤ s := by
  rcases Nat.lt_or_ge s N with hlt | hge
  · exact .inl ⟨Nat.mod_eq_of_lt hlt, hlt⟩
  · refine .inr ⟨?_, hge⟩
    rw [Nat.mod_eq_sub_mod hge]
    exact Nat.mod_eq_of_lt (by omega)

/-- Signed overflow of a sum, from the signs. -/
theorem overflow_add (hw : 0 < w) (a b : BitVec w) (c : Bool) :
    (!(xor a.msb b.msb) && xor a.msb (a + b + carryBit c).msb) =
      decide ((a + b + carryBit c).toInt ≠ a.toInt + b.toInt + c.toNat) := by
  have hr : (a + b + carryBit c).toNat = (a.toNat + b.toNat + c.toNat) % 2 ^ w := by
    rw [BitVec.toNat_add, BitVec.toNat_add, carryBit_toNat hw]
    simp
  generalize a + b + carryBit c = r at hr ⊢
  have hc : c.toNat ≤ 1 := Bool.toNat_le c
  have ha := a.isLt
  have hb := b.isLt
  have hma := msb_iff hw a
  have hmb := msb_iff hw b
  have hmr := msb_iff hw r
  have heven := two_dvd_pow hw
  rw [toInt_eq a, toInt_eq b, toInt_eq r]
  have hcases := mod_cases (show a.toNat + b.toNat + c.toNat < 2 * 2 ^ w by omega)
  rw [← hr] at hcases
  clear hr
  generalize 2 ^ w = N at *
  cases hsa : a.msb <;> cases hsb : b.msb <;> cases hsr : r.msb <;>
    simp only [hsa, hsb, hsr, Bool.false_eq_true, false_iff, true_iff, Bool.xor_false, Bool.xor_true,
      Bool.not_false, Bool.not_true, Bool.false_and, Bool.true_and,
      if_true, if_false] at hma hmb hmr ⊢ <;>
    symm <;> simp only [decide_eq_true_eq, decide_eq_false_iff_not, ne_eq, not_not] <;> omega

/-- A difference that may borrow. -/
theorem sub_carry_toNat (hw : 0 < w) (a b : BitVec w) (c : Bool) :
    (a - b - carryBit c).toNat = a.toNat - (b.toNat + c.toNat) ∧ b.toNat + c.toNat ≤ a.toNat ∨
      (a - b - carryBit c).toNat = a.toNat + 2 ^ w - (b.toNat + c.toNat) ∧
        a.toNat < b.toNat + c.toNat := by
  have ha := a.isLt
  have hb := b.isLt
  have hc : c.toNat ≤ 1 := Bool.toNat_le c
  have hab : (a - b).toNat = (2 ^ w + a.toNat - b.toNat) % 2 ^ w := by
    rw [BitVec.toNat_sub]; congr 1; omega
  have hr : (a - b - carryBit c).toNat = (2 ^ w + (a - b).toNat - c.toNat) % 2 ^ w := by
    rw [BitVec.toNat_sub (a - b), carryBit_toNat hw]; congr 1; omega
  have h1 := mod_cases (show 2 ^ w + a.toNat - b.toNat < 2 * 2 ^ w by omega)
  rw [← hab] at h1
  have h2 := mod_cases (show 2 ^ w + (a - b).toNat - c.toNat < 2 * 2 ^ w by
    have := (a - b).isLt
    omega)
  rw [← hr] at h2
  omega

/-- Signed overflow of a difference, from the signs. -/
theorem overflow_sub (hw : 0 < w) (a b : BitVec w) (c : Bool) :
    (!(xor a.msb !b.msb) && xor a.msb (a - b - carryBit c).msb) =
      decide ((a - b - carryBit c).toInt ≠ a.toInt - b.toInt - c.toNat) := by
  have ha := a.isLt
  have hb := b.isLt
  have hc : c.toNat ≤ 1 := Bool.toNat_le c
  have hcases := sub_carry_toNat hw a b c
  generalize a - b - carryBit c = r at hcases ⊢
  have hma := msb_iff hw a
  have hmb := msb_iff hw b
  have hmr := msb_iff hw r
  have heven := two_dvd_pow hw
  rw [toInt_eq a, toInt_eq b, toInt_eq r]
  generalize 2 ^ w = N at *
  cases hsa : a.msb <;> cases hsb : b.msb <;> cases hsr : r.msb <;>
    simp only [hsa, hsb, hsr, Bool.false_eq_true, false_iff, true_iff, Bool.xor_false, Bool.xor_true,
      Bool.not_false, Bool.not_true, Bool.false_and, Bool.true_and,
      if_true, if_false] at hma hmb hmr ⊢ <;>
    symm <;> simp only [decide_eq_true_eq, decide_eq_false_iff_not, ne_eq, not_not] <;> omega

/-- The overflow of the code is read off the signs. -/
theorem signs_ne (hw : 0 < w) (a b r : BitVec w) :
    decide (~~~(a ^^^ b) &&& (a ^^^ r) &&& (1 : BitVec w) <<< (w - 1) ≠ 0) =
      (!(xor a.msb b.msb) && xor a.msb r.msb) := by
  rw [Bool.eq_iff_iff, decide_eq_true_eq, and_signBit hw]
  simp [BitVec.msb_and, BitVec.msb_xor, BitVec.msb_not, hw]

/-- **`x86_aluop2` adds and subtracts as x86 does**: result, carry and overflow. -/
theorem aluop2_eq (hw : 0 < w) (subtract : Bool) (a b : BitVec w) (f : W16) :
    aluop2 subtract a b f =
      (fun r : BitVec w × Status => ⟨r.1, r.2.cf, r.2.of⟩)
        (if subtract then x86Sub a b (f.getLsbD 0) else x86Add a b (f.getLsbD 0)) := by
  have hcarry : (if f &&& FLAG_CF ≠ 0 then (1 : BitVec w) else 0) = carryBit (f.getLsbD 0) := by
    unfold carryBit
    exact if_congr (flag_cf f) rfl rfl
  generalize f.getLsbD 0 = c at *
  have hc : (carryBit c : BitVec w).toNat = c.toNat := carryBit_toNat hw c
  have hc1 : c.toNat ≤ 1 := Bool.toNat_le c
  have ha := a.isLt
  have hb := b.isLt
  unfold aluop2
  rw [hcarry]
  cases subtract with
  | true =>
    simp only [if_true, x86Sub, statusOf]
    congr 1
    · -- a borrow of the first or of the second subtraction
      have hab : (a - b).toNat = (2 ^ w + a.toNat - b.toNat) % 2 ^ w := by
        rw [BitVec.toNat_sub]; congr 1; omega
      have hcases := mod_cases (show 2 ^ w + a.toNat - b.toNat < 2 * 2 ^ w by omega)
      rw [← hab] at hcases
      rw [Bool.eq_iff_iff, Bool.or_eq_true, decide_eq_true_eq, decide_eq_true_eq, decide_eq_true_eq,
        BitVec.lt_def, BitVec.lt_def, hc]
      omega
    · rw [signs_ne hw, BitVec.msb_not, decide_eq_true hw, Bool.true_and]
      exact overflow_sub hw a b c
  | false =>
    simp only [Bool.false_eq_true, if_false, x86Add, statusOf]
    congr 1
    · -- a carry of the first or of the second addition
      have hab : (a + b).toNat = (a.toNat + b.toNat) % 2 ^ w := BitVec.toNat_add a b
      have hcases := mod_cases (show a.toNat + b.toNat < 2 * 2 ^ w by omega)
      rw [← hab] at hcases
      have habc : (a + b + carryBit c).toNat = ((a + b).toNat + c.toNat) % 2 ^ w := by
        rw [BitVec.toNat_add (a + b), hc]
      have hcases' := mod_cases (show (a + b).toNat + c.toNat < 2 * 2 ^ w by
        have := (a + b).isLt
        omega)
      rw [← habc] at hcases'
      rw [Bool.eq_iff_iff, Bool.or_eq_true, decide_eq_true_eq, decide_eq_true_eq, decide_eq_true_eq,
        BitVec.lt_def, BitVec.lt_def]
      omega
    · rw [signs_ne hw]
      exact overflow_add hw a b c

end Arith

/-! ### Flags -/

/-- The status flags in their places. -/
def Status.word (s : Status) : W16 :=
  (if s.of then FLAG_OF else 0) ||| (if s.cf then FLAG_CF else 0) |||
    ((if s.sf then FLAG_SF else 0) ||| (if s.zf then FLAG_ZF else 0) ||| (if s.pf then FLAG_PF else 0))

theorem Status.word_bit (s : Status) (i : ℕ) : s.word.getLsbD i =
    match i with
    | 0 => s.cf | 2 => s.pf | 6 => s.zf | 7 => s.sf | 11 => s.of | _ => false := by
  by_cases hi : i < 16
  · obtain ⟨cf, pf, zf, sf, o⟩ := s
    interval_cases i <;> cases cf <;> cases pf <;> cases zf <;> cases sf <;> cases o <;> rfl
  · rw [BitVec.getLsbD_of_ge _ _ (Nat.le_of_not_lt hi)]
    split <;> first | rfl | omega

theorem Status.word_inv (s : Status) : s.word &&& FLAG_INV = 0 := by
  obtain ⟨cf, pf, zf, sf, o⟩ := s
  cases cf <;> cases pf <;> cases zf <;> cases sf <;> cases o <;> rfl

/-- The flags of an implementation that generates all, or has neither carry nor overflow. -/
theorem aluResult_flags {w : ℕ} (size : ℕ) (ra : W64) (g : SetFlags) (out : AluOut w) (hzf : g.zf = true)
    (hg : g.cf = true ∧ g.of = true ∨ out.cf = false ∧ out.of = false) :
    (aluResult size ra g out).rdflags = (statusOf out.result out.cf out.of).word := by
  unfold aluResult Status.word statusOf x86Genflags
  simp only [hzf, if_true]
  rcases hg with ⟨hcf, hof⟩ | ⟨hcf, hof⟩
  · simp only [hcf, hof, true_and, decide_eq_true_eq]
  · simp only [hcf, hof, Bool.false_eq_true, and_false, if_false, decide_eq_true_eq]

/-- The flags a group of flags updates. -/
theorem update_bit (mask flags : W16) (old : W64) (i : ℕ) :
    ((old &&& ~~~mask.setWidth 64) ||| (flags.setWidth 64 &&& mask.setWidth 64)).getLsbD i =
      if mask.getLsbD i then flags.getLsbD i else old.getLsbD i := by
  by_cases hi : i < 64
  · have h64 : decide (i < 64) = true := decide_eq_true hi
    simp only [BitVec.getLsbD_or, BitVec.getLsbD_and, BitVec.getLsbD_not, BitVec.getLsbD_setWidth, h64,
      Bool.true_and]
    cases mask.getLsbD i <;> simp
  · have hge : 64 ≤ i := Nat.le_of_not_lt hi
    rw [BitVec.getLsbD_of_ge _ _ hge, BitVec.getLsbD_of_ge mask i (by omega), BitVec.getLsbD_of_ge old i hge]
    rfl

/-! ### Bytes -/

/-- A mask uop on eight bytes without extension. -/
theorem expMask_eq {op : TransOp} (i : UopInputs) (hsize : op.size = 3) (hcond : op.cond = 0)
    (ms mc ds : ℕ) (hrc : i.rc = maskControlInfo ms mc ds) (hms : ms < 64) (hmc : mc < 64) (hds : ds < 64) :
    (expMask op i).rddata = (i.ra &&& ~~~(bitmask mc).rotateRight ms) |||
      (i.rb.rotateRight ds &&& (bitmask mc).rotateRight ms) := by
  have hnat : i.rc.toNat = ms + mc * 2 ^ 6 + ds * 2 ^ 12 := by
    rw [hrc, maskControlInfo, Nat.mod_eq_of_lt hms, Nat.mod_eq_of_lt hmc, Nat.mod_eq_of_lt hds,
      BitVec.toNat_ofNat]
    omega
  have h1 : i.rc.toNat % 64 = ms := by omega
  have h2 : i.rc.toNat / 2 ^ 6 % 64 = mc := by omega
  have h3 : i.rc.toNat / 2 ^ 12 % 64 = ds := by omega
  unfold expMask
  simp only [h1, h2, h3, hcond]
  obtain ⟨opcode, size⟩ := op
  obtain rfl : size = 3 := hsize
  show (i.ra &&& ~~~(((bitmask mc).setWidth 64).rotateRight ms).setWidth 64) |||
    (((i.rb.setWidth 64).rotateRight ds).setWidth 64 &&& (((bitmask mc).setWidth 64).rotateRight ms).setWidth 64) = _
  simp only [BitVec.setWidth_eq]

/-- A low byte mask. -/
theorem ff_bit {k : ℕ} (hk : ¬k < 8) : (0xff : W64).getLsbD k = false := by
  by_cases h : k < 64
  · interval_cases k <;> rfl
  · exact BitVec.getLsbD_of_ge _ _ (Nat.le_of_not_lt h)

/-- Extraction moves the second byte to the first. -/
theorem expMask_extract (rd r : Reg) (i : UopInputs) (hrc : i.rc = maskControlInfo 0 8 8) :
    (expMask (.extractHigh rd r) i).rddata = (i.ra &&& ~~~(0xff : W64)) ||| ((i.rb >>> 8) &&& 0xff) := by
  have hmask : (bitmask 8).rotateRight 0 = (0xff : W64) := by decide
  rw [expMask_eq i rfl rfl 0 8 8 hrc (by omega) (by omega) (by omega), hmask]
  congr 1
  apply BitVec.eq_of_getLsbD_eq
  intro k hk
  simp only [BitVec.getLsbD_and, BitVec.getLsbD_ushiftRight, BitVec.getLsbD_rotateRight]
  by_cases hlow : k < 8
  · have h56 : k < 64 - 8 % 64 := by omega
    simp [h56]
  · rw [ff_bit hlow, Bool.and_false, Bool.and_false]

/-- Insertion moves the first byte to the second. -/
theorem expMask_insert (rd r : Reg) (i : UopInputs) (hrc : i.rc = maskControlInfo 56 8 56) :
    (expMask (.insertHigh rd r) i).rddata =
      (i.ra &&& ~~~(0xff00 : W64)) ||| ((i.rb.setWidth 8).setWidth 64 <<< 8) := by
  have hmask : (bitmask 8).rotateRight 56 = (0xff00 : W64) := by decide
  have hff : (0xff00 : W64).getLsbD = fun k => decide (8 ≤ k) && decide (k < 16) := by
    funext k
    by_cases h : k < 64
    · interval_cases k <;> rfl
    · rw [BitVec.getLsbD_of_ge _ _ (Nat.le_of_not_lt h)]
      simp; omega
  rw [expMask_eq i rfl rfl 56 8 56 hrc (by omega) (by omega) (by omega), hmask]
  congr 1
  apply BitVec.eq_of_getLsbD_eq
  intro k hk
  simp only [BitVec.getLsbD_and, BitVec.getLsbD_shiftLeft, BitVec.getLsbD_rotateRight,
    BitVec.getLsbD_setWidth, hff]
  have hk' : k - 8 < 64 := by omega
  have hsub : k - (64 - 56 % 64) = k - 8 := rfl
  by_cases hlow : k < 8
  · have h8 : ¬8 ≤ k := by omega
    simp [hlow, h8]
  · have h8 : 8 ≤ k := by omega
    have hmid : decide (k - 8 < 8) = decide (k < 16) := by
      rw [decide_eq_decide]; omega
    rw [hmid, hsub, decide_eq_true hk, decide_eq_true hk', decide_eq_true h8, decide_eq_false hlow]
    cases decide (k < 16) <;> simp

end X86Sim
