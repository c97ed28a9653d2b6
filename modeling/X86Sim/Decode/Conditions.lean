import X86Sim.Decode.Values
import Mathlib.Algebra.Group.Nat.Even
import Mathlib.Data.Finset.Card

/-!
# Conditions and fused compares (`uopimpl.cpp`)

The sixteen condition formulas over the flags of a result, and the uops that compare or
test and then branch, set or check in one. A condition says of a compare what it says of
the integers compared, at wrap-around operands too.

* `evaluateCond_sub`: the sixteen relations.
* `fused_compare`: the fused uops take them, and the carry-in forms set exact flags.
-/

namespace X86Sim

def FLAG_BR_TK : W16 := 0x8000

/-- `COND_o` to `COND_nle`, 0 to 15. -/
inductive Cond
  | o | no | c | nc | e | ne | be | nbe | s | ns | p | np | l | nl | le | nle
  deriving DecidableEq

/-! ### The implementations -/

/-- `evaluate_cond`. -/
def evaluateCond (evaltype : Cond) (ra rb : W16) : Bool :=
  match evaltype with
  | .o => rb &&& FLAG_OF ≠ 0
  | .no => ¬ rb &&& FLAG_OF ≠ 0
  | .c => rb &&& FLAG_CF ≠ 0
  | .nc => ¬ rb &&& FLAG_CF ≠ 0
  | .e => ra &&& FLAG_ZF ≠ 0
  | .ne => ¬ ra &&& FLAG_ZF ≠ 0
  | .be => ra &&& FLAG_ZF ≠ 0 ∨ rb &&& FLAG_CF ≠ 0
  | .nbe => ¬ (ra &&& FLAG_ZF ≠ 0 ∨ rb &&& FLAG_CF ≠ 0)
  | .s => ra &&& FLAG_SF ≠ 0
  | .ns => ¬ ra &&& FLAG_SF ≠ 0
  | .p => ra &&& FLAG_PF ≠ 0
  | .np => ¬ ra &&& FLAG_PF ≠ 0
  | .l => decide (ra &&& FLAG_SF ≠ 0) != decide (rb &&& FLAG_OF ≠ 0)
  | .nl => !decide (ra &&& FLAG_SF ≠ 0) != decide (rb &&& FLAG_OF ≠ 0)
  | .le => decide (ra &&& FLAG_ZF ≠ 0) || (decide (ra &&& FLAG_SF ≠ 0) != decide (rb &&& FLAG_OF ≠ 0))
  | .nle => !(decide (ra &&& FLAG_ZF ≠ 0) || (decide (ra &&& FLAG_SF ≠ 0) != decide (rb &&& FLAG_OF ≠ 0)))

/-- `sub_flag_gen_op`. -/
def subFlagGenOp {w : ℕ} (ra rb : BitVec w) : W16 :=
  let rd := aluop2 true ra rb 0
  (BitVec.ofBool rd.of).setWidth 16 <<< 11 ||| (BitVec.ofBool rd.cf).setWidth 16 ||| x86Genflags rd.result

/-- `and_flag_gen_op`. -/
def andFlagGenOp {w : ℕ} (ra rb : BitVec w) : W16 := x86Genflags (ra &&& rb)

/-- `uop_impl_set_sub` and `uop_impl_set_and`, by the flags they test: merged on one size,
compared on the other. -/
def setOf (flagGenOp : ∀ {w : ℕ}, BitVec w → BitVec w → W16) (size compareSize : ℕ) (cond : Cond)
    (i : UopInputs) : UopResult :=
  let flags := flagGenOp (w := opWidth compareSize) (i.ra.setWidth _) (i.rb.setWidth _)
  let istrue := evaluateCond cond flags flags
  ⟨x86Merge size i.rc (if istrue then 1 else 0), if istrue then FLAG_CF else 0⟩

def setSub := setOf subFlagGenOp
def setAnd := setOf andFlagGenOp

/-- `uop_impl_alu_and_condbranch`. -/
def aluAndCondbranch (flagGenOp : ∀ {w : ℕ}, BitVec w → BitVec w → W16) (size : ℕ) (cond : Cond)
    (excepting : Bool) (i : UopInputs) : UopResult :=
  let flags := flagGenOp (w := opWidth size) (i.ra.setWidth _) (i.rb.setWidth _)
  let taken := evaluateCond cond flags flags
  let out : UopResult := ⟨if taken then i.riptaken else i.ripseq, flags ||| if taken then FLAG_BR_TK else 0⟩
  if excepting && !taken then ⟨exceptionWord .branchMispredict .none, out.rdflags ||| FLAG_INV⟩ else out

def brSub := aluAndCondbranch subFlagGenOp
def brAnd := aluAndCondbranch andFlagGenOp

/-- `uop_impl_chk_sub` and `uop_impl_chk_and`. -/
def chkOf (flagGenOp : ∀ {w : ℕ}, BitVec w → BitVec w → W16) (size : ℕ) (cond : Cond)
    (i : UopInputs) : UopResult :=
  let flags := flagGenOp (w := opWidth size) (i.ra.setWidth _) (i.rb.setWidth _)
  let passed := evaluateCond cond flags flags
  ⟨if passed then 0 else i.rc, if passed then 0 else FLAG_INV⟩

def chkSub := chkOf subFlagGenOp
def chkAnd := chkOf andFlagGenOp

/-! ### The relations -/

section Relations

variable {w : ℕ} (a b : BitVec w)

/-- A value of a signed number of `w` bits. -/
def SignedFits (w : ℕ) (x : ℤ) : Prop := -2 ^ w ≤ 2 * x ∧ 2 * x < 2 ^ w

/-- What a condition says of the numbers compared. -/
def CondHolds (cond : Cond) : Prop :=
  match cond with
  | .o => ¬ SignedFits w (a.toInt - b.toInt)
  | .no => SignedFits w (a.toInt - b.toInt)
  | .c => a.toNat < b.toNat
  | .nc => b.toNat ≤ a.toNat
  | .e => a.toNat = b.toNat
  | .ne => a.toNat ≠ b.toNat
  | .be => a.toNat ≤ b.toNat
  | .nbe => b.toNat < a.toNat
  | .s => (a - b).toInt < 0
  | .ns => 0 ≤ (a - b).toInt
  | .p => Even ((Finset.range 8).filter fun i => (a - b).toNat.testBit i).card
  | .np => ¬ Even ((Finset.range 8).filter fun i => (a - b).toNat.testBit i).card
  | .l => a.toInt < b.toInt
  | .nl => b.toInt ≤ a.toInt
  | .le => a.toInt ≤ b.toInt
  | .nle => b.toInt < a.toInt

/-- A result is the exact value or wraps, and it is exact where the value fits. -/
theorem toInt_ofInt_ne_iff (x : ℤ) : (BitVec.ofInt w x).toInt ≠ x ↔ ¬ SignedFits w x := by
  rw [not_iff_not]
  constructor
  · intro h
    rw [← h]
    exact ⟨BitVec.le_two_mul_toInt, BitVec.two_mul_toInt_lt⟩
  · rintro ⟨hlow, hhigh⟩
    rw [BitVec.toInt_ofInt]
    apply Int.bmod_eq_of_le_mul_two
    · push_cast
      omega
    · push_cast
      omega

theorem ofInt_sub (x y : ℤ) : BitVec.ofInt w (x - y) = BitVec.ofInt w x - BitVec.ofInt w y := by
  rw [Int.sub_eq_add_neg, BitVec.ofInt_add, BitVec.ofInt_neg, BitVec.sub_eq_add_neg]

theorem carryBit_ofInt (c : Bool) : (carryBit c : BitVec w) = BitVec.ofInt w c.toNat := by
  cases c with
  | false => rfl
  | true => exact (BitVec.ofInt_natCast w 1).symm

theorem add_overflow_iff (c : Bool) : (a + b + carryBit c).toInt ≠ a.toInt + b.toInt + c.toNat ↔
    ¬ SignedFits w (a.toInt + b.toInt + c.toNat) := by
  rw [← toInt_ofInt_ne_iff, BitVec.ofInt_add, BitVec.ofInt_add, BitVec.ofInt_toInt, BitVec.ofInt_toInt,
    carryBit_ofInt]

theorem sub_overflow_iff (c : Bool) : (a - b - carryBit c).toInt ≠ a.toInt - b.toInt - c.toNat ↔
    ¬ SignedFits w (a.toInt - b.toInt - c.toNat) := by
  rw [← toInt_ofInt_ne_iff, ofInt_sub, ofInt_sub, BitVec.ofInt_toInt, BitVec.ofInt_toInt,
    carryBit_ofInt]

theorem evenParity_iff : evenParity a = true ↔
    Even ((Finset.range 8).filter fun i => a.toNat.testBit i).card := by
  have hcard : ((Finset.range 8).filter fun i => a.toNat.testBit i).card =
      ((List.range 8).filter a.getLsbD).length := by
    have hrange : Finset.range 8 = (List.range 8).toFinset := by decide
    rw [← List.toFinset_card_of_nodup (List.Nodup.filter _ List.nodup_range), List.toFinset_filter, hrange]
    rfl
  rw [hcard, Nat.even_iff, evenParity, beq_iff_eq]

/-- The sign of a difference and its overflow tell the order. -/
theorem sign_ne_overflow_iff (hw : 0 < w) :
    ((a - b).msb = true ↔ SignedFits w (a.toInt - b.toInt)) ↔ a.toInt < b.toInt := by
  have hover := sub_overflow_iff a b false
  have hcases := sub_carry_toNat hw a b false
  have hzero : a - b - carryBit false = a - b := BitVec.sub_zero _
  rw [hzero] at hover hcases
  simp only [Bool.toNat_false, Nat.cast_zero, sub_zero, Nat.add_zero] at hover hcases
  have ha := a.isLt
  have hb := b.isLt
  have hma := msb_iff hw a
  have hmb := msb_iff hw b
  have hmr := msb_iff hw (a - b)
  have heven := two_dvd_pow hw
  rw [← not_iff_not.1 hover]
  rw [toInt_eq a, toInt_eq b, toInt_eq (a - b)]
  generalize a - b = r at *
  generalize 2 ^ w = N at *
  cases hsa : a.msb <;> cases hsb : b.msb <;> cases hsr : r.msb <;>
    simp only [hsa, hsb, hsr, Bool.false_eq_true, false_iff, true_iff, if_true, if_false] at hma hmb hmr ⊢ <;>
    omega

end Relations

/-! ### What the formulas say -/

/-- A flag of the word. -/
theorem flag_ne_zero (f : W16) (n : ℕ) : f &&& BitVec.twoPow 16 n ≠ 0 ↔ f.getLsbD n = true := by
  rw [BitVec.and_twoPow]
  by_cases hn : n < 16
  · cases f.getLsbD n with
    | false => simp
    | true =>
      have hne : BitVec.twoPow 16 n ≠ 0 := by
        intro h
        have h0 := congrArg BitVec.toNat h
        rw [BitVec.toNat_twoPow_of_lt hn] at h0
        simp at h0
      simpa using hne
  · rw [BitVec.getLsbD_of_ge f n (Nat.le_of_not_lt hn)]
    simp

section Flags

variable (s : Status)

theorem word_of : s.word &&& FLAG_OF ≠ 0 ↔ s.of = true := by
  have hbit : FLAG_OF = BitVec.twoPow 16 11 := by decide
  rw [hbit, flag_ne_zero, Status.word_bit]
  exact Iff.rfl

theorem word_cf : s.word &&& FLAG_CF ≠ 0 ↔ s.cf = true := by
  have hbit : FLAG_CF = BitVec.twoPow 16 0 := by decide
  rw [hbit, flag_ne_zero, Status.word_bit]
  exact Iff.rfl

theorem word_zf : s.word &&& FLAG_ZF ≠ 0 ↔ s.zf = true := by
  have hbit : FLAG_ZF = BitVec.twoPow 16 6 := by decide
  rw [hbit, flag_ne_zero, Status.word_bit]
  exact Iff.rfl

theorem word_sf : s.word &&& FLAG_SF ≠ 0 ↔ s.sf = true := by
  have hbit : FLAG_SF = BitVec.twoPow 16 7 := by decide
  rw [hbit, flag_ne_zero, Status.word_bit]
  exact Iff.rfl

theorem word_pf : s.word &&& FLAG_PF ≠ 0 ↔ s.pf = true := by
  have hbit : FLAG_PF = BitVec.twoPow 16 2 := by decide
  rw [hbit, flag_ne_zero, Status.word_bit]
  exact Iff.rfl

/-- The formulas, over the status flags. -/
theorem evaluateCond_word (cond : Cond) : evaluateCond cond s.word s.word =
    match cond with
    | .o => s.of
    | .no => !s.of
    | .c => s.cf
    | .nc => !s.cf
    | .e => s.zf
    | .ne => !s.zf
    | .be => s.zf || s.cf
    | .nbe => !(s.zf || s.cf)
    | .s => s.sf
    | .ns => !s.sf
    | .p => s.pf
    | .np => !s.pf
    | .l => s.sf != s.of
    | .nl => !(s.sf != s.of)
    | .le => s.zf || (s.sf != s.of)
    | .nle => !(s.zf || (s.sf != s.of)) := by
  cases cond <;>
    simp only [evaluateCond, word_of, word_cf, word_zf, word_sf, word_pf, Bool.decide_eq_true,
      Bool.decide_or, decide_not]

end Flags

section Sub

variable {w : ℕ} (a b : BitVec w)

/-- The status of a compare. -/
def subStatus : Status := (x86Sub a b false).2

/-- `sub_flag_gen_op` packs the status of the difference. -/
theorem subFlagGenOp_eq (hw : 0 < w) : subFlagGenOp a b = (subStatus a b).word := by
  have hrun := aluop2_eq hw true a b 0
  have hcarry : (0 : W16).getLsbD 0 = false := by decide
  rw [hcarry, if_pos rfl] at hrun
  unfold subFlagGenOp subStatus Status.word
  rw [hrun]
  have hof : ∀ v : Bool, (BitVec.ofBool v).setWidth 16 <<< 11 = if v then FLAG_OF else 0 := by decide
  have hcf : ∀ v : Bool, (BitVec.ofBool v).setWidth 16 = if v then FLAG_CF else 0 := by decide
  dsimp only
  rw [hof, hcf]
  unfold x86Genflags x86Sub statusOf
  simp only [decide_eq_true_eq]

theorem subStatus_flags (hw : 0 < w) :
    ((subStatus a b).of = true ↔ ¬ SignedFits w (a.toInt - b.toInt)) ∧
    ((subStatus a b).cf = true ↔ a.toNat < b.toNat) ∧
    ((subStatus a b).zf = true ↔ a.toNat = b.toNat) ∧
    ((subStatus a b).sf = true ↔ (a - b).toInt < 0) ∧
    ((subStatus a b).pf = true ↔ Even ((Finset.range 8).filter fun i => (a - b).toNat.testBit i).card) ∧
    (((subStatus a b).sf != (subStatus a b).of) = true ↔ a.toInt < b.toInt) := by
  have hzero : a - b - carryBit false = a - b := BitVec.sub_zero _
  have hover := sub_overflow_iff a b false
  rw [hzero] at hover
  simp only [Bool.toNat_false, Nat.cast_zero, sub_zero] at hover
  have hof : (subStatus a b).of = true ↔ ¬ SignedFits w (a.toInt - b.toInt) := by
    rw [← hover]
    simp [subStatus, x86Sub, statusOf, hzero]
  have hsf : (subStatus a b).sf = (a - b).msb := by
    rw [← hzero]
    rfl
  refine ⟨hof, ?_, ?_, ?_, ?_, ?_⟩
  · simp [subStatus, x86Sub, statusOf]
  · have hzf : (subStatus a b).zf = decide (a - b = 0) := by
      rw [← hzero]
      rfl
    have hsub := sub_carry_toNat hw a b false
    rw [hzero] at hsub
    have ha := a.isLt
    have hb := b.isLt
    have hnat : a - b = 0 ↔ (a - b).toNat = 0 := by
      rw [← BitVec.toNat_inj]
      simp
    rw [hzf, decide_eq_true_eq, hnat]
    simp only [Bool.toNat_false] at hsub
    omega
  · rw [hsf, BitVec.msb_eq_toInt, decide_eq_true_eq]
  · rw [← evenParity_iff, ← hzero]
    rfl
  · rw [← sign_ne_overflow_iff a b hw, hsf, bne_iff_ne, ne_eq, Bool.eq_iff_iff, hof]
    tauto

/-- **The sixteen conditions** of a compare are the relations of the numbers compared. -/
theorem evaluateCond_sub (hw : 0 < w) (cond : Cond) :
    evaluateCond cond (subFlagGenOp a b) (subFlagGenOp a b) = true ↔ CondHolds a b cond := by
  obtain ⟨hof, hcf, hzf, hsf, hpf, hlt⟩ := subStatus_flags a b hw
  have hnat : a.toInt = b.toInt ↔ a.toNat = b.toNat := by
    rw [BitVec.toInt_inj, BitVec.toNat_inj]
  rw [subFlagGenOp_eq a b hw, evaluateCond_word]
  cases cond <;>
    simp only [CondHolds, Bool.not_eq_true', Bool.or_eq_true, ← Bool.not_eq_true, hof, hcf, hzf, hsf, hpf, hlt,
      not_not] <;>
    omega

end Sub

/-! ### The fused uops -/

section Fused

variable (size mergeSize : ℕ) (cond : Cond) (excepting : Bool) (i : UopInputs)

/-- What the uops that compare `a` with `b` do where the condition holds and where it does
not. -/
structure FusedRight (size mergeSize : ℕ) (cond : Cond) (excepting : Bool) (i : UopInputs) (holds : Prop) :
    Prop where
  taken_iff : (brSub size cond excepting i).rdflags.getLsbD 15 = true ↔ holds
  taken : holds → (brSub size cond excepting i).rddata = i.riptaken
  notTaken : ¬ holds → (brSub size cond excepting i).rddata =
    if excepting then exceptionWord .branchMispredict .none else i.ripseq
  set : holds → setSub mergeSize size cond i = ⟨x86Merge mergeSize i.rc 1, FLAG_CF⟩
  clear : ¬ holds → setSub mergeSize size cond i = ⟨x86Merge mergeSize i.rc 0, 0⟩
  passed : holds → chkSub size cond i = ⟨0, 0⟩
  failed : ¬ holds → chkSub size cond i = ⟨i.rc, FLAG_INV⟩

variable {size mergeSize cond excepting i}

/-- The uops, given the flags and what the condition says of them. -/
theorem brSub_run {f : W16} {taken : Bool}
    (hf : subFlagGenOp (w := opWidth size) (i.ra.setWidth _) (i.rb.setWidth _) = f)
    (htaken : evaluateCond cond f f = taken) :
    brSub size cond excepting i =
      if excepting && !taken then
        ⟨exceptionWord .branchMispredict .none, (f ||| if taken then FLAG_BR_TK else 0) ||| FLAG_INV⟩
      else ⟨if taken then i.riptaken else i.ripseq, f ||| if taken then FLAG_BR_TK else 0⟩ := by
  subst hf htaken
  rfl

theorem setSub_run {f : W16} {istrue : Bool}
    (hf : subFlagGenOp (w := opWidth size) (i.ra.setWidth _) (i.rb.setWidth _) = f)
    (htrue : evaluateCond cond f f = istrue) :
    setSub mergeSize size cond i =
      ⟨x86Merge mergeSize i.rc (if istrue then 1 else 0), if istrue then FLAG_CF else 0⟩ := by
  subst hf htrue
  rfl

theorem chkSub_run {f : W16} {passed : Bool}
    (hf : subFlagGenOp (w := opWidth size) (i.ra.setWidth _) (i.rb.setWidth _) = f)
    (hpassed : evaluateCond cond f f = passed) :
    chkSub size cond i = ⟨if passed then 0 else i.rc, if passed then 0 else FLAG_INV⟩ := by
  subst hf hpassed
  rfl

/-- The branch bit is no flag of a result. -/
theorem word_taken (s : Status) (taken : Bool) :
    (s.word ||| if taken then FLAG_BR_TK else 0).getLsbD 15 = taken := by
  have hword : s.word.getLsbD 15 = false := Status.word_bit s 15
  rw [BitVec.getLsbD_or, hword, Bool.false_or]
  cases taken <;> decide

theorem brSub_taken {s : Status} {taken : Bool}
    (hf : subFlagGenOp (w := opWidth size) (i.ra.setWidth _) (i.rb.setWidth _) = s.word)
    (htaken : evaluateCond cond s.word s.word = taken) :
    (brSub size cond excepting i).rdflags.getLsbD 15 = taken := by
  rw [brSub_run hf htaken]
  split
  · have hinv : FLAG_INV.getLsbD 15 = false := by decide
    dsimp only
    rw [BitVec.getLsbD_or, hinv, Bool.or_false, word_taken]
  · exact word_taken s taken

theorem fusedRight_of_iff {s : Status} {holds : Prop}
    (hf : subFlagGenOp (w := opWidth size) (i.ra.setWidth _) (i.rb.setWidth _) = s.word)
    (h : evaluateCond cond s.word s.word = true ↔ holds) :
    FusedRight size mergeSize cond excepting i holds := by
  by_cases hholds : holds
  · have htrue := h.2 hholds
    refine ⟨iff_of_true (brSub_taken hf htrue) hholds, fun _ => ?_, fun hno => absurd hholds hno, fun _ => ?_,
      fun hno => absurd hholds hno, fun _ => ?_, fun hno => absurd hholds hno⟩
    · rw [brSub_run hf htrue, Bool.not_true, Bool.and_false]
      rfl
    · rw [setSub_run hf htrue]
      rfl
    · rw [chkSub_run hf htrue]
      rfl
  · have hfalse := Bool.eq_false_iff.2 (mt h.1 hholds)
    refine ⟨iff_of_false ?_ hholds, fun hyes => absurd hyes hholds, fun _ => ?_, fun hyes => absurd hyes hholds,
      fun _ => ?_, fun hyes => absurd hyes hholds, fun _ => ?_⟩
    · rw [brSub_taken hf hfalse]
      exact Bool.false_ne_true
    · rw [brSub_run hf hfalse, Bool.not_false, Bool.and_true]
      split <;> rfl
    · rw [setSub_run hf hfalse]
      rfl
    · rw [chkSub_run hf hfalse]
      rfl

/-- Carry and overflow of an addition or subtraction with carry-in. -/
structure CarryRight (subtract : Bool) (op : TransOp) (i : UopInputs) (a b : BitVec (opWidth op.size))
    (c : Bool) : Prop where
  carry_iff : (x86Aluop subtract op i).rdflags.getLsbD 0 = true ↔
    if subtract then a.toNat < b.toNat + c.toNat else 2 ^ opWidth op.size ≤ a.toNat + b.toNat + c.toNat
  overflow_iff : (x86Aluop subtract op i).rdflags.getLsbD 11 = true ↔
    ¬ SignedFits (opWidth op.size)
      (if subtract then a.toInt - b.toInt - c.toNat else a.toInt + b.toInt + c.toNat)

theorem carryRight (subtract : Bool) (op : TransOp) (i : UopInputs) (hflags : op.setflags ≠ .none) :
    CarryRight subtract op i (i.ra.setWidth _) (i.rb.setWidth _) (i.rcflags.getLsbD 0) := by
  have hgen : op.setflags.gen .all = .all := by
    rw [SetFlags.gen, if_neg hflags]
  have hrun := aluop2_eq (opWidth_pos op.size) subtract (i.ra.setWidth _) (i.rb.setWidth _) i.rcflags
  have hword : (x86Aluop subtract op i).rdflags =
      (statusOf (aluop2 (w := opWidth op.size) subtract (i.ra.setWidth _) (i.rb.setWidth _) i.rcflags).result
        (aluop2 (w := opWidth op.size) subtract (i.ra.setWidth _) (i.rb.setWidth _) i.rcflags).cf
        (aluop2 (w := opWidth op.size) subtract (i.ra.setWidth _) (i.rb.setWidth _) i.rcflags).of).word := by
    rw [x86Aluop, hgen]
    exact aluResult_flags _ _ _ _ rfl (.inl ⟨rfl, rfl⟩)
  rw [hrun] at hword
  generalize (i.ra.setWidth (opWidth op.size)) = a at hword ⊢
  generalize (i.rb.setWidth (opWidth op.size)) = b at hword ⊢
  generalize i.rcflags.getLsbD 0 = c at hword ⊢
  cases subtract with
  | true =>
    have hcf : (x86Aluop true op i).rdflags.getLsbD 0 = decide (a.toNat < b.toNat + c.toNat) := by
      rw [hword]
      exact Status.word_bit _ 0
    have hof : (x86Aluop true op i).rdflags.getLsbD 11 =
        decide ((a - b - carryBit c).toInt ≠ a.toInt - b.toInt - c.toNat) := by
      rw [hword]
      exact Status.word_bit _ 11
    constructor
    · rw [hcf, decide_eq_true_eq, if_pos rfl]
    · rw [hof, decide_eq_true_eq, if_pos rfl, sub_overflow_iff]
  | false =>
    have hcf : (x86Aluop false op i).rdflags.getLsbD 0 =
        decide (2 ^ opWidth op.size ≤ a.toNat + b.toNat + c.toNat) := by
      rw [hword]
      exact Status.word_bit _ 0
    have hof : (x86Aluop false op i).rdflags.getLsbD 11 =
        decide ((a + b + carryBit c).toInt ≠ a.toInt + b.toInt + c.toNat) := by
      rw [hword]
      exact Status.word_bit _ 11
    constructor
    · rw [hcf, decide_eq_true_eq, if_neg Bool.false_ne_true]
    · rw [hof, decide_eq_true_eq, if_neg Bool.false_ne_true, add_overflow_iff]

/-- **Fused compares and carries** agree with the integers, for every width and all
operands. -/
theorem fused_compare (size mergeSize : ℕ) (cond : Cond) (excepting : Bool) (i : UopInputs) (op : TransOp)
    (hflags : op.setflags ≠ .none) :
    FusedRight size mergeSize cond excepting i
        (CondHolds (w := opWidth size) (i.ra.setWidth _) (i.rb.setWidth _) cond) ∧
      ∀ subtract, CarryRight subtract op i (i.ra.setWidth _) (i.rb.setWidth _) (i.rcflags.getLsbD 0) := by
  have hw := opWidth_pos size
  have hf := subFlagGenOp_eq (w := opWidth size) (i.ra.setWidth _) (i.rb.setWidth _) hw
  have hiff := evaluateCond_sub (w := opWidth size) (i.ra.setWidth _) (i.rb.setWidth _) hw cond
  rw [hf] at hiff
  exact ⟨fusedRight_of_iff hf hiff, fun subtract => carryRight subtract op i hflags⟩

theorem fused_compare_sbb :
    let i : UopInputs := ⟨1, 2, 0, 0, 0, FLAG_CF, 0x1000, 0x1004⟩
    let op := TransOp.init .opSub Reg.temp0 Reg.temp0 Reg.temp0 Reg.cf 3 0 0 .default
    op.setflags ≠ .none ∧ FusedRight 3 0 .l false i (CondHolds (w := opWidth 3) 1 2 .l) ∧
      ∀ subtract, CarryRight subtract op i 1 2 true :=
  ⟨by decide, fused_compare 3 0 .l false ⟨1, 2, 0, 0, 0, FLAG_CF, 0x1000, 0x1004⟩
    (TransOp.init .opSub Reg.temp0 Reg.temp0 Reg.temp0 Reg.cf 3 0 0 .default) (by decide)⟩

end Fused

end X86Sim
