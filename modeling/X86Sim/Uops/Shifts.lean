import X86Sim.Decode.AluRun
import X86Sim.Lib.OneBitShifts

/-!
# Shifts and rotates (`uopimpl.cpp`)

The uops shift and rotate by a count in closed form, or through the carry one bit at
a time with the count reduced modulo `w + 1` where the type is narrow. All of them
are the one-bit step of their kind, iterated as often as the masked count says.
-/

namespace X86Sim

open OneBit

/-- `x86_shift_count`. -/
def x86ShiftCount {w : ℕ} (rb : BitVec w) : ℕ :=
  (rb.setWidth 8 &&& if w = 64 then 0x3f else 0x1f).toNat

/-- `ShiftResult`. -/
structure ShiftResult (w : ℕ) where
  value : BitVec w
  count : ℕ
  cf : Bool
  of : Bool

section Ops

variable {w : ℕ} (value rb : BitVec w) (carry : Bool)

/-- `ShiftLeftOp`. -/
def shiftLeftOp : ShiftResult w :=
  let count := x86ShiftCount rb
  if count = 0 then ⟨value, count, false, false⟩
  else
    let result := if count < w then value <<< count else 0
    let cf := if count ≤ w then (value >>> (w - count)).getLsbD 0 else false
    ⟨result, count, cf, if count = 1 then result.msb ^^ cf else false⟩

/-- `ShiftRightOp`. -/
def shiftRightOp : ShiftResult w :=
  let count := x86ShiftCount rb
  if count = 0 then ⟨value, count, false, false⟩
  else
    let result := if count < w then value >>> count else 0
    let cf := if count ≤ w then (value >>> (count - 1)).getLsbD 0 else false
    ⟨result, count, cf, if count = 1 then value.msb else false⟩

/-- `ShiftArithmeticRightOp`. -/
def shiftArithmeticRightOp : ShiftResult w :=
  let count := x86ShiftCount rb
  if count = 0 then ⟨value, count, false, false⟩
  else
    let sign := value.msb
    let result :=
      if count ≥ w then if sign then BitVec.allOnes w else 0
      else if sign then (value >>> count) ||| (BitVec.allOnes w <<< (w - count))
      else value >>> count
    let cf := if count < w then (value >>> (count - 1)).getLsbD 0 else sign
    ⟨result, count, cf, false⟩

/-- `RotateLeftOp`. -/
def rotateLeftOp : ShiftResult w :=
  let count := x86ShiftCount rb % w
  if count = 0 then ⟨value, count, false, false⟩
  else
    let result := value.rotateLeft count
    let cf := result.getLsbD 0
    ⟨result, count, cf, if count = 1 then result.msb ^^ cf else false⟩

/-- `RotateRightOp`. -/
def rotateRightOp : ShiftResult w :=
  let count := x86ShiftCount rb % w
  if count = 0 then ⟨value, count, false, false⟩
  else
    let result := value.rotateRight count
    let cf := result.msb
    let of := if count = 1 then ((result >>> (w - 1)) ^^^ (result >>> (w - 2))).getLsbD 0 else false
    ⟨result, count, cf, of⟩

/-- The count of a rotate through the carry: reduced where the type is narrower than 32 bits. -/
def rotateCarryCount : ℕ :=
  if w < 32 then x86ShiftCount rb % (w + 1) else x86ShiftCount rb

/-- `RotateCarryLeftOp`. -/
def rotateCarryLeftOp : ShiftResult w :=
  let count := rotateCarryCount rb
  if count = 0 then ⟨value, count, false, false⟩
  else
    let body := fun (s : BitVec w × Bool) =>
      let nextcarry := s.1.msb
      ((s.1 <<< 1) ||| (BitVec.ofBool s.2).setWidth w, nextcarry)
    let (result, cf) := body^[count] (value, carry)
    ⟨result, count, cf, if count = 1 then result.msb ^^ cf else false⟩

/-- `RotateCarryRightOp`. -/
def rotateCarryRightOp : ShiftResult w :=
  let count := rotateCarryCount rb
  if count = 0 then ⟨value, count, false, false⟩
  else
    let body := fun (s : BitVec w × Bool) =>
      let nextcarry := s.1.getLsbD 0
      ((s.1 >>> 1) ||| ((BitVec.ofBool s.2).setWidth w <<< (w - 1)), nextcarry)
    let (result, cf) := body^[count] (value, carry)
    let of := if count = 1 then ((result >>> (w - 1)) ^^^ (result >>> (w - 2))).getLsbD 0 else false
    ⟨result, count, cf, of⟩

end Ops

/-- An `Operation` of `shiftop`. -/
abbrev ShiftOperation := ∀ w, BitVec w → BitVec w → Bool → ShiftResult w

/-- `shiftop`. -/
def shiftop (operation : ShiftOperation) (op : TransOp) (i : UopInputs) : UopResult :=
  let w := opWidth op.size
  let genflags := op.setflags.gen .all
  let result := operation w (i.ra.setWidth w) (i.rb.setWidth w) (i.rcflags &&& FLAG_CF != 0)
  let allflags := (if genflags.of ∧ result.of then FLAG_OF else 0) |||
    (if genflags.cf ∧ result.cf then FLAG_CF else 0) ||| x86Genflags result.value
  ⟨x86Merge op.size i.ra (result.value.setWidth 64), if result.count = 0 then i.rcflags else allflags⟩

/-- `get_synthcode_for_uop`, of the shifts and rotates. -/
def shiftImpl (op : TransOp) : Option (UopInputs → UopResult) :=
  match op.opcode with
  | .opShl | .opShls => some (shiftop (fun _ v rb _ => shiftLeftOp v rb) op)
  | .opShr | .opShrs => some (shiftop (fun _ v rb _ => shiftRightOp v rb) op)
  | .opSar | .opSars => some (shiftop (fun _ v rb _ => shiftArithmeticRightOp v rb) op)
  | .opRotl => some (shiftop (fun _ v rb _ => rotateLeftOp v rb) op)
  | .opRotr => some (shiftop (fun _ v rb _ => rotateRightOp v rb) op)
  | .opRotcl => some (shiftop (fun _ v rb carry => rotateCarryLeftOp v rb carry) op)
  | .opRotcr => some (shiftop (fun _ v rb carry => rotateCarryRightOp v rb carry) op)
  | _ => none

/-- The implementations, with those of the shifts. -/
def Synthop.withShifts (rest : Synthop) : Synthop := fun op i =>
  match shiftImpl op with
  | some f => f i
  | none => rest op i

/-! ### The one-bit reference -/

/-- The uops that x86 defines bit by bit. -/
inductive ShiftUop
  | shl | shr | sar | rotcl | rotcr
  deriving DecidableEq

namespace ShiftUop

def opcode : ShiftUop → Opcode
  | shl => .opShl | shr => .opShr | sar => .opSar | rotcl => .opRotcl | rotcr => .opRotcr

/-- One bit. -/
def step {w : ℕ} : ShiftUop → Carried w → Carried w
  | shl => OneBit.shl | shr => OneBit.shr | sar => OneBit.sar | rotcl => OneBit.rcl | rotcr => OneBit.rcr

/-- OF after a step of one bit. -/
def overflow {w : ℕ} (u : ShiftUop) (s : Carried w) : Bool :=
  match u with
  | shl | rotcl => (u.step s).value.msb ^^ (u.step s).carry
  | shr => s.value.msb
  | sar => false
  | rotcr => s.value.msb ^^ s.carry

/-- Whether the carry takes part. -/
def rotates : ShiftUop → Bool
  | rotcl | rotcr => true
  | shl | shr | sar => false

def operation : ShiftUop → ShiftOperation
  | shl => fun _ v rb _ => shiftLeftOp v rb
  | shr => fun _ v rb _ => shiftRightOp v rb
  | sar => fun _ v rb _ => shiftArithmeticRightOp v rb
  | rotcl => fun _ v rb carry => rotateCarryLeftOp v rb carry
  | rotcr => fun _ v rb carry => rotateCarryRightOp v rb carry

/-- The count x86 masks: the low five bits of the count byte, six for a quadword. -/
def count (w : ℕ) (rb : W64) : ℕ := rb.toNat % 2 ^ 8 % if w = 64 then 64 else 32

/-- The word and the carry a uop starts from. -/
def start (op : TransOp) (i : UopInputs) : Carried (opWidth op.size) :=
  ⟨i.ra.setWidth _, i.rcflags.getLsbD 0⟩

/-- The reference: the one-bit step as often as the masked count says. -/
def iterated (u : ShiftUop) (op : TransOp) (i : UopInputs) : Carried (opWidth op.size) :=
  u.step^[count (opWidth op.size) i.rb] (start op i)

/-- A uop has done what the reference does. Only a uop that sets flags generates carry and
overflow. -/
structure Refines (u : ShiftUop) (op : TransOp) (i : UopInputs) (r : UopResult) : Prop where
  data : r.rddata = x86Merge op.size i.ra ((u.iterated op i).value.setWidth 64)
  cf : op.setflags ≠ .none → 0 < count (opWidth op.size) i.rb → count (opWidth op.size) i.rb ≤ opWidth op.size →
    r.rdflags.getLsbD 0 = (u.iterated op i).carry
  of : op.setflags ≠ .none → count (opWidth op.size) i.rb = 1 → r.rdflags.getLsbD 11 = u.overflow (start op i)
  zaps : u.rotates = false → 0 < count (opWidth op.size) i.rb →
    r.rdflags.getLsbD 7 = (u.iterated op i).value.msb ∧
      r.rdflags.getLsbD 6 = decide ((u.iterated op i).value = 0) ∧
      r.rdflags.getLsbD 2 = evenParity (u.iterated op i).value
  unchanged : count (opWidth op.size) i.rb = 0 →
    r.rddata.setWidth (opWidth op.size) = i.ra.setWidth (opWidth op.size) ∧ r.rdflags = i.rcflags

end ShiftUop

/-! ### The operations -/

/-- An operation follows a step for `c` bits from `s`. -/
structure Follows {w : ℕ} (r : ShiftResult w) (u : ShiftUop) (c : ℕ) (s : Carried w) : Prop where
  value : r.value = (u.step^[c] s).value
  cf : 0 < c → c ≤ w → r.cf = (u.step^[c] s).carry
  of : c = 1 → r.of = u.overflow s
  zero : c = 0 → r.count = 0
  pos : 0 < c → c ≤ w ∨ u.rotates = false → r.count ≠ 0

section Follow

variable {w : ℕ} {value rb : BitVec w} {c : ℕ} (carry : Bool)

theorem lsb_shiftRight (v : BitVec w) (k : ℕ) : (v >>> k).getLsbD 0 = v.getLsbD k := by
  rw [BitVec.getLsbD_ushiftRight, Nat.add_zero]

theorem follows_shl (hc : x86ShiftCount rb = c) : Follows (shiftLeftOp value rb) .shl c ⟨value, carry⟩ := by
  unfold shiftLeftOp
  rw [hc]
  dsimp only
  rcases Nat.eq_zero_or_pos c with h0 | hpos
  · rw [if_pos h0]
    subst h0
    exact ⟨rfl, nofun, nofun, fun _ => rfl, nofun⟩
  have hvalue : (if c < w then value <<< c else 0) = (OneBit.shl^[c] ⟨value, carry⟩).value := by
    rw [shl_iterate_value]
    split
    · rfl
    · exact (BitVec.shiftLeft_eq_zero (by omega)).symm
  have hcf : (if c ≤ w then (value >>> (w - c)).getLsbD 0 else false) = (OneBit.shl^[c] ⟨value, carry⟩).carry := by
    rw [shl_iterate_carry hpos, lsb_shiftRight]
    split
    · rename_i hle
      simp [hle]
    · rename_i hle
      simp [hle]
  rw [if_neg (by omega), hvalue, hcf]
  refine ⟨rfl, fun _ _ => rfl, ?_, fun h0 => absurd h0 (by omega), fun _ _ => hpos.ne'⟩
  rintro rfl
  rfl

theorem follows_shr (hc : x86ShiftCount rb = c) : Follows (shiftRightOp value rb) .shr c ⟨value, carry⟩ := by
  unfold shiftRightOp
  rw [hc]
  dsimp only
  rcases Nat.eq_zero_or_pos c with h0 | hpos
  · rw [if_pos h0]
    subst h0
    exact ⟨rfl, nofun, nofun, fun _ => rfl, nofun⟩
  have hvalue : (if c < w then value >>> c else 0) = (OneBit.shr^[c] ⟨value, carry⟩).value := by
    rw [shr_iterate_value]
    split
    · rfl
    · exact (BitVec.ushiftRight_eq_zero (by omega)).symm
  rw [if_neg (by omega), hvalue]
  refine ⟨rfl, fun _ hle => ?_, ?_, fun h0 => absurd h0 (by omega), fun _ _ => hpos.ne'⟩
  · show (if c ≤ w then (value >>> (c - 1)).getLsbD 0 else false) = (OneBit.shr^[c] ⟨value, carry⟩).carry
    rw [if_pos hle, lsb_shiftRight, shr_iterate_carry hpos]
  · rintro rfl
    rfl

/-- The closed form of the arithmetic shift. -/
theorem sshiftRight_closed (v : BitVec w) (c : ℕ) :
    (if c ≥ w then if v.msb then BitVec.allOnes w else 0
      else if v.msb then (v >>> c) ||| (BitVec.allOnes w <<< (w - c)) else v >>> c) = v.sshiftRight c := by
  apply BitVec.eq_of_getLsbD_eq
  intro k hk
  rw [BitVec.getLsbD_sshiftRight]
  rcases Nat.lt_or_ge c w with hlt | hge
  · rw [if_neg (Nat.not_le.2 hlt)]
    rcases Nat.lt_or_ge (c + k) w with hin | hout
    · -- bits the shift moves
      have hlow : k < w - c := by omega
      have hkw : ¬w ≤ k := by omega
      cases v.msb <;> simp [hin, hlow, hkw, hk]
    · -- copies of the sign
      have hhigh : ¬k < w - c := by omega
      have hkw : ¬w ≤ k := by omega
      have hnin : ¬c + k < w := by omega
      cases v.msb <;> simp [hnin, hhigh, hkw, hk, BitVec.getLsbD_of_ge v (c + k) hout]
  · rw [if_pos hge]
    have hnin : ¬c + k < w := by omega
    have hkw : ¬w ≤ k := by omega
    cases v.msb <;> simp [hnin, hkw, hk]

theorem follows_sar (hc : x86ShiftCount rb = c) :
    Follows (shiftArithmeticRightOp value rb) .sar c ⟨value, carry⟩ := by
  unfold shiftArithmeticRightOp
  rw [hc]
  dsimp only
  rcases Nat.eq_zero_or_pos c with h0 | hpos
  · rw [if_pos h0]
    subst h0
    exact ⟨rfl, nofun, nofun, fun _ => rfl, nofun⟩
  rw [if_neg (by omega), sshiftRight_closed]
  refine ⟨(sar_iterate_value c ⟨value, carry⟩).symm, fun _ hle => ?_, fun _ => rfl,
    fun h0 => absurd h0 (by omega), fun _ _ => hpos.ne'⟩
  show (if c < w then (value >>> (c - 1)).getLsbD 0 else value.msb) = (OneBit.sar^[c] ⟨value, carry⟩).carry
  rw [sar_iterate_carry hpos, if_pos hle, lsb_shiftRight]
  split
  · rfl
  · have hlast : c - 1 = w - 1 := by omega
    rw [BitVec.msb_eq_getLsbD_last, hlast]

/-- The loop of a rotate is its step iterated. -/
theorem loop_eq {f : Carried w → Carried w} {g : BitVec w × Bool → BitVec w × Bool}
    (h : ∀ s, g s = ((f ⟨s.1, s.2⟩).value, (f ⟨s.1, s.2⟩).carry)) (n : ℕ) (s : Carried w) :
    g^[n] (s.value, s.carry) = ((f^[n] s).value, (f^[n] s).carry) := by
  induction n with
  | zero => rfl
  | succ n ih => rw [Function.iterate_succ_apply', Function.iterate_succ_apply', ih, h]

/-- The reduced count turns the word as far as the count does. -/
theorem iterate_rotateCarryCount {step : Carried w → Carried w} (hp : ∀ s, step^[w + 1] s = s)
    (hc : x86ShiftCount rb = c) (s : Carried w) : step^[rotateCarryCount rb] s = step^[c] s := by
  unfold rotateCarryCount
  rw [hc]
  split
  · exact iterate_mod hp c s
  · rfl

/-- Counts within the width are not reduced. -/
theorem rotateCarryCount_eq (hc : x86ShiftCount rb = c) (hle : c ≤ w) : rotateCarryCount rb = c := by
  unfold rotateCarryCount
  rw [hc]
  split
  · exact Nat.mod_eq_of_lt (by omega)
  · rfl

theorem rotateCarryCount_zero (hc : x86ShiftCount rb = 0) : rotateCarryCount rb = 0 :=
  rotateCarryCount_eq hc (Nat.zero_le w)

/-- A rotate whose count is reduced to nothing has turned the word all the way round. -/
theorem iterate_of_count_zero {step : Carried w → Carried w} (hp : ∀ s, step^[w + 1] s = s)
    (hc : x86ShiftCount rb = c) (h0 : rotateCarryCount rb = 0) (s : Carried w) : step^[c] s = s := by
  rw [← iterate_rotateCarryCount hp hc s, h0]
  rfl

theorem follows_rotcl (hw : 0 < w) (hc : x86ShiftCount rb = c) :
    Follows (rotateCarryLeftOp value rb carry) .rotcl c ⟨value, carry⟩ := by
  have hiter := iterate_rotateCarryCount (rcl_iterate_period hw) hc ⟨value, carry⟩
  have hloop := loop_eq (f := OneBit.rcl) (g := fun s =>
    ((s.1 <<< 1) ||| (BitVec.ofBool s.2).setWidth w, s.1.msb)) (fun _ => rfl) (rotateCarryCount rb) ⟨value, carry⟩
  unfold rotateCarryLeftOp
  dsimp only at hloop ⊢
  rw [hloop, hiter]
  by_cases h0 : rotateCarryCount rb = 0
  · have hsame := iterate_of_count_zero (rcl_iterate_period hw) hc h0 ⟨value, carry⟩
    have hle : c ≤ w → c = 0 := fun hle => (rotateCarryCount_eq hc hle).symm.trans h0
    rw [if_pos h0]
    refine ⟨congrArg Carried.value hsame.symm, fun hpos h => absurd (hle h) hpos.ne', fun h1 => ?_, fun _ => h0,
      fun hpos h => absurd (hle (h.resolve_right nofun)) hpos.ne'⟩
    exact absurd (hle (by omega)) (by omega)
  · rw [if_neg h0]
    refine ⟨rfl, fun _ _ => rfl, ?_, fun hz => absurd (rotateCarryCount_zero (hc.trans hz)) h0, fun _ _ => h0⟩
    rintro rfl
    have hone : rotateCarryCount rb = 1 := rotateCarryCount_eq hc hw
    show (if rotateCarryCount rb = 1 then _ else _) = _
    rw [if_pos hone]
    rfl

/-- The top two bits after a step to the right are the carry and the old sign. -/
theorem rcr_top (hw : 1 < w) (s : Carried w) :
    (((OneBit.rcr s).value >>> (w - 1)) ^^^ ((OneBit.rcr s).value >>> (w - 2))).getLsbD 0 =
      (s.value.msb ^^ s.carry) := by
  have htop := rcr_bit (by omega) s (i := w - 1) (by omega)
  have hnext := rcr_bit (by omega) s (i := w - 2) (by omega)
  have h1 : (w - 1 + 1) % (w + 1) = w := by
    rw [show w - 1 + 1 = w by omega, Nat.mod_eq_of_lt (Nat.lt_succ_self w)]
  have h2 : (w - 2 + 1) % (w + 1) = w - 1 := by
    rw [show w - 2 + 1 = w - 1 by omega, Nat.mod_eq_of_lt (by omega)]
  rw [h1] at htop
  rw [h2] at hnext
  unfold Carried.bit at htop hnext
  rw [if_pos (by omega), if_neg (lt_irrefl w)] at htop
  rw [if_pos (by omega), if_pos (by omega)] at hnext
  rw [BitVec.getLsbD_xor, lsb_shiftRight, lsb_shiftRight, htop, hnext, BitVec.msb_eq_getLsbD_last, Bool.xor_comm]

theorem follows_rotcr (hw : 1 < w) (hc : x86ShiftCount rb = c) :
    Follows (rotateCarryRightOp value rb carry) .rotcr c ⟨value, carry⟩ := by
  have hpos : 0 < w := by omega
  have hiter := iterate_rotateCarryCount (rcr_iterate_period hpos) hc ⟨value, carry⟩
  have hloop := loop_eq (f := OneBit.rcr) (g := fun s =>
    ((s.1 >>> 1) ||| ((BitVec.ofBool s.2).setWidth w <<< (w - 1)), s.1.getLsbD 0)) (fun _ => rfl)
    (rotateCarryCount rb) ⟨value, carry⟩
  unfold rotateCarryRightOp
  dsimp only at hloop ⊢
  rw [hloop, hiter]
  by_cases h0 : rotateCarryCount rb = 0
  · have hsame := iterate_of_count_zero (rcr_iterate_period hpos) hc h0 ⟨value, carry⟩
    have hle : c ≤ w → c = 0 := fun hle => (rotateCarryCount_eq hc hle).symm.trans h0
    rw [if_pos h0]
    refine ⟨congrArg Carried.value hsame.symm, fun hpos h => absurd (hle h) hpos.ne', fun h1 => ?_, fun _ => h0,
      fun hpos h => absurd (hle (h.resolve_right nofun)) hpos.ne'⟩
    exact absurd (hle (by omega)) (by omega)
  · rw [if_neg h0]
    refine ⟨rfl, fun _ _ => rfl, ?_, fun hz => absurd (rotateCarryCount_zero (hc.trans hz)) h0, fun _ _ => h0⟩
    rintro rfl
    have hone : rotateCarryCount rb = 1 := rotateCarryCount_eq hc hpos
    show (if rotateCarryCount rb = 1 then _ else _) = _
    rw [if_pos hone]
    exact rcr_top hw ⟨value, carry⟩

/-- Every operation follows its step. -/
theorem ShiftUop.follows (u : ShiftUop) (hw : 1 < w) (hc : x86ShiftCount rb = c) :
    Follows (u.operation w value rb carry) u c ⟨value, carry⟩ := by
  cases u with
  | shl => exact follows_shl carry hc
  | shr => exact follows_shr carry hc
  | sar => exact follows_sar carry hc
  | rotcl => exact follows_rotcl carry (by omega) hc
  | rotcr => exact follows_rotcr carry hw hc

end Follow

/-! ### The uops -/

/-- The count of a uop is masked as x86 masks it. -/
theorem x86ShiftCount_eq (size : ℕ) (rb : W64) :
    x86ShiftCount (rb.setWidth (opWidth size)) = ShiftUop.count (opWidth size) rb := by
  unfold x86ShiftCount ShiftUop.count
  have hlow : (rb.setWidth (opWidth size)).setWidth 8 = rb.setWidth 8 :=
    BitVec.setWidth_setWidth_of_le _ (Nat.le_mul_of_pos_right 8 (Nat.two_pow_pos size))
  rw [hlow, BitVec.toNat_and, BitVec.toNat_setWidth]
  split
  · exact Nat.and_two_pow_sub_one_eq_mod _ 6
  · exact Nat.and_two_pow_sub_one_eq_mod _ 5

/-- The carry a shift starts from. -/
theorem cf_bit (f : W16) : (f &&& FLAG_CF != 0) = f.getLsbD 0 := by
  rw [Bool.eq_iff_iff, bne_iff_ne]
  exact flag_cf f

/-- The flags of a shift: those of its result, unless the count is zero. -/
theorem shiftop_flags (operation : ShiftOperation) (op : TransOp) (i : UopInputs) :
    let result := operation (opWidth op.size) (i.ra.setWidth _) (i.rb.setWidth _) (i.rcflags.getLsbD 0)
    (shiftop operation op i).rdflags = if result.count = 0 then i.rcflags else
      (statusOf result.value (decide (op.setflags ≠ .none) && result.cf)
        (decide (op.setflags ≠ .none) && result.of)).word := by
  unfold shiftop SetFlags.gen Status.word statusOf x86Genflags
  dsimp only
  rw [cf_bit]
  by_cases hs : op.setflags = .none
  · simp [hs, SetFlags.none]
  · simp [hs, SetFlags.all]

namespace ShiftUop

/-- A uop whose operation follows the step does what the reference does. -/
theorem refines_of_follows {u : ShiftUop} {op : TransOp} (hsize : op.size ≤ 3) {i : UopInputs}
    {operation : ShiftOperation}
    (h : Follows (operation (opWidth op.size) (i.ra.setWidth _) (i.rb.setWidth _) (i.rcflags.getLsbD 0)) u
      (count (opWidth op.size) i.rb) (start op i)) :
    u.Refines op i (shiftop operation op i) := by
  have hdata : (shiftop operation op i).rddata = x86Merge op.size i.ra ((u.iterated op i).value.setWidth 64) := by
    show x86Merge op.size i.ra ((operation _ _ _ (i.rcflags &&& FLAG_CF != 0)).value.setWidth 64) = _
    rw [cf_bit, h.value]
    rfl
  have hflags := shiftop_flags operation op i
  dsimp only at hflags
  refine ⟨hdata, fun hs hpos hle => ?_, fun hs hone => ?_, fun hrot hpos => ?_, fun hzero => ⟨?_, ?_⟩⟩
  · rw [hflags, if_neg (h.pos hpos (.inl hle)), Status.word_bit]
    show (decide (op.setflags ≠ .none) && _) = _
    rw [decide_eq_true hs, Bool.true_and, h.cf hpos hle]
    rfl
  · have hpos : 0 < count (opWidth op.size) i.rb := by omega
    have hle : count (opWidth op.size) i.rb ≤ opWidth op.size := hone ▸ opWidth_pos op.size
    rw [hflags, if_neg (h.pos hpos (.inl hle)), Status.word_bit]
    show (decide (op.setflags ≠ .none) && _) = _
    rw [decide_eq_true hs, Bool.true_and, h.of hone]
  · rw [hflags, if_neg (h.pos hpos (.inr hrot)), Status.word_bit, Status.word_bit, Status.word_bit]
    have hvalue : (operation (opWidth op.size) (i.ra.setWidth _) (i.rb.setWidth _) (i.rcflags.getLsbD 0)).value =
        (u.iterated op i).value := h.value
    rw [← hvalue]
    exact ⟨rfl, rfl, rfl⟩
  · rw [hdata, x86Merge_setWidth hsize]
    show ((u.step^[count (opWidth op.size) i.rb] (start op i)).value.setWidth 64).setWidth _ = _
    rw [hzero]
    exact (BitVec.setWidth_setWidth_of_le _ (opWidth_le hsize)).trans (BitVec.setWidth_eq _)
  · rw [hflags, if_pos (h.zero hzero)]

/-- **The shifts and the rotates through the carry are the one-bit steps, iterated.** -/
theorem shift_refines (u : ShiftUop) (op : TransOp) (hop : op.opcode = u.opcode) (hsize : op.size ≤ 3) :
    ∃ f, shiftImpl op = some f ∧ ∀ i, u.Refines op i (f i) := by
  refine ⟨shiftop u.operation op, ?_, fun i => ?_⟩
  · unfold shiftImpl
    rw [hop]
    cases u <;> rfl
  · have hw : 1 < opWidth op.size := by
      have h := Nat.two_pow_pos op.size
      unfold opWidth
      omega
    exact refines_of_follows hsize (u.follows _ hw (x86ShiftCount_eq op.size i.rb))

/-- A byte rotated through the carry by nine, a whole turn. -/
theorem shift_refines_rotcl : ∃ f, shiftImpl (.init .opRotcl Reg.rax Reg.rax Reg.rcx Reg.zero 0 0 0 .all) = some f ∧
    rotcl.Refines (.init .opRotcl Reg.rax Reg.rax Reg.rcx Reg.zero 0 0 0 .all) ⟨0x81, 9, 0, 0, 0, 1, 0, 0⟩
      (f ⟨0x81, 9, 0, 0, 0, 1, 0, 0⟩) := by
  obtain ⟨f, hf, hrefines⟩ := shift_refines rotcl (.init .opRotcl Reg.rax Reg.rax Reg.rcx Reg.zero 0 0 0 .all) rfl
    (by decide)
  exact ⟨f, hf, hrefines _⟩

end ShiftUop
end X86Sim
