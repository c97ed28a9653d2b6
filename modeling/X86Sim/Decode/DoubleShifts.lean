import X86Sim.Decode.BitTests
import X86Sim.Decode.Imul
import X86Sim.Decode.Lea
import X86Sim.Decode.PackedRight
import X86Sim.Uops.Branches

/-!
# Double shifts (`decode-complex.cpp`)

`shld` and `shrd` are a shift uop, and a mask uop that turns the bits of the source to where
zeros came in. Where the mask starts, how long it is and how far the source is turned are
fields of a word: of a constant count it is an immediate, of a count in `cl` other uops
make it.
-/

namespace X86Sim

open X86Sim.Seq X86Sim.Seq.SeqCore

/-- `shld` or `shrd` of 16, 32 or 64 bits; the source is the register of that size. -/
structure DoubleShift where
  right : Bool
  rd : Operand
  ra : Fin 16
  count : ShiftCount
  wide : rd.sizeshift ≠ 0

namespace DoubleShift

variable (insn : DoubleShift) (pfx : Prefixes) (rip : W64) (c : SeqCore)

/-- `rareg`. -/
def rareg : Reg := insn.ra.castLE sixteen_le_regs

/-- `rdreg`: an operand in memory is loaded to `temp4`. -/
def rdreg : Reg :=
  match insn.rd with
  | .reg r => r.arch
  | .mem _ _ => Reg.temp4

def load : List TransOp :=
  match insn.rd with
  | .reg _ => []
  | .mem o size => operandLoad pfx rip Reg.temp4 (o.memRef size) .opLd

def store : List TransOp :=
  match insn.rd with
  | .reg _ => []
  | .mem o size => resultStore pfx rip Reg.temp4 (o.memRef size)

/-- The fields of the mask, for a count of `n`. -/
def maskctl (size n : ℕ) : W64 :=
  if insn.right then maskControlInfo n n n else maskControlInfo 0 n (opWidth size - n)

/-- The count in `cl` to `temp0`, the fields of the mask to `temp1`, and the flags to `temp2`. -/
def prepare (size : ℕ) : List TransOp :=
  .mk3 .opAnd Reg.temp0 Reg.rcx Reg.imm Reg.zero 3 (bitmask (3 + size)) ::
    (if insn.right then
      [.init .opMaskb Reg.temp1 Reg.temp0 Reg.temp0 Reg.imm 3 0 (maskControlInfo 58 6 58) .none,
        .init .opMaskb Reg.temp1 Reg.temp1 Reg.temp0 Reg.imm 3 0 (maskControlInfo 52 6 52) .none]
    else
      [.mk3 .opMov Reg.temp2 Reg.zero Reg.imm Reg.zero 0 (BitVec.ofNat 64 (opWidth size)),
        .mk3 .opSub Reg.temp2 Reg.temp2 Reg.temp0 Reg.zero 0 0,
        .init .opMaskb Reg.temp1 Reg.temp0 Reg.temp2 Reg.imm 3 0 (maskControlInfo 58 6 58) .none,
        .mk3 .opShl Reg.temp1 Reg.temp1 Reg.imm Reg.zero 3 6]) ++
    [.init .opCollcc Reg.temp2 Reg.zf Reg.cf Reg.of 3 0 0 .default]

/-- The shift and the mask, of a constant count of `n` or of that in `temp0`. -/
def shiftMask (size : ℕ) (n : Option ℕ) : List TransOp :=
  let opcode : Opcode := if insn.right then .opShr else .opShl
  let (shiftreg, maskreg, imm, ctl) := match n with
    | some n => (Reg.imm, Reg.imm, BitVec.ofNat 64 n, insn.maskctl size n)
    | none => (Reg.temp0, Reg.temp1, 0, insn.maskctl size 0)
  [.init opcode insn.rdreg insn.rdreg shiftreg Reg.zero size imm 0 .default,
    .init .opMask insn.rdreg insn.rdreg insn.rareg maskreg size 0 ctl .default]

/-- The flags are those of before after all, if the count in `temp0` is zero. -/
def restore : List TransOp :=
  [.init .opAnd Reg.temp0 Reg.temp0 Reg.temp0 Reg.zero 0 0 0 .default,
    { TransOp.init .opSel Reg.temp0 insn.rdreg Reg.temp2 Reg.temp0 3 0 0 .default with cond := Cond.e.code }]

/-- `decode_complex` (0x1a4, 0x1a5, 0x1ac and 0x1ad). -/
def decode : List TransOp :=
  let rdsize := insn.rd.sizeshift
  insn.load pfx rip ++
    match insn.count with
    | .imm v =>
      let imm := v.toNat % 2 ^ (3 + rdsize)
      if imm = 0 then [.mk3 .opNop Reg.temp0 Reg.zero Reg.zero Reg.zero 0 0]
      else insn.shiftMask rdsize (some imm) ++ insn.store pfx rip
    | .cl => insn.prepare rdsize ++ insn.shiftMask rdsize none ++ insn.store pfx rip ++ insn.restore

/-! ### What x86 says -/

/-- The count, masked to six bits for a quadword and to five otherwise. -/
def masked : ℕ :=
  let count := match insn.count with | .imm v => v | .cl => c.arf Reg.rcx
  count.toNat % if insn.rd.sizeshift = 3 then 64 else 32

/-- The source. -/
def source : BitVec (opWidth insn.rd.sizeshift) := (c.arf insn.rareg).setWidth _

/-- A half of the source and destination together, shifted. -/
def shifted {w : ℕ} (right : Bool) (a b : BitVec w) (n : ℕ) : BitVec w :=
  if right then ((b ++ a) >>> n).extractLsb' 0 w else ((a ++ b) <<< n).extractLsb' w w

/-- The last bit shifted out of the destination. -/
def carryOut {w : ℕ} (right : Bool) (a : BitVec w) (n : ℕ) : Bool :=
  if right then a.getLsbD (n - 1) else a.getLsbD (w - n)

/-- The flags say of a result that it is so. -/
def Describes {w : ℕ} (flags : W64) (carry : Bool) (v : BitVec w) : Prop :=
  flags.getLsbD 0 = carry ∧ flags.getLsbD 7 = v.msb ∧ flags.getLsbD 6 = decide (v = 0) ∧ flags.getLsbD 2 = evenParity v

/-- The double shift of a destination `v`. -/
def result (v : BitVec (opWidth insn.rd.sizeshift)) (n : ℕ) : BitVec (opWidth insn.rd.sizeshift) :=
  shifted insn.right v (insn.source c) n

/-- A double shift has done what x86 says: of a count of zero nothing, of one up to the size of the
operand the double shift, of one beyond it anything in the destination. -/
structure Right (c' : SeqCore) : Prop where
  none : insn.masked c = 0 → (∀ r : Reg, r.isArch = true → c'.arf r = c.arf r) ∧ c'.space.bytes = c.space.bytes
  result : 0 < insn.masked c → insn.masked c ≤ opWidth insn.rd.sizeshift →
    insn.rd.X86Written pfx rip c (insn.result c (insn.rd.x86Value pfx rip c) (insn.masked c)) c' ∧
    Describes (c'.arf Reg.flags) (carryOut insn.right (insn.rd.x86Value pfx rip c) (insn.masked c))
      (insn.result c (insn.rd.x86Value pfx rip c) (insn.masked c))
  beyond : opWidth insn.rd.sizeshift < insn.masked c → ∃ v, insn.rd.X86Written pfx rip c v c'
  others : ∀ i ∉ [0, 2, 4, 6, 7, 11], (c'.arf Reg.flags).getLsbD i = (c.arf Reg.flags).getLsbD i

/-- The count the uops shift by: as many bits of it as count the bits of the operand. -/
def taken : ℕ :=
  (match insn.count with | .imm v => v | .cl => c.arf Reg.rcx).toNat % 2 ^ (3 + insn.rd.sizeshift)

/-- Whether the uops store: not of a constant they take for zero. -/
def stores : Bool := insn.taken c ≠ 0 || insn.count = .cl

/-- The flags say the same of two results. -/
def SameStatus {w : ℕ} (v v' : BitVec w) : Prop :=
  v.msb = v'.msb ∧ decide (v = 0) = decide (v' = 0) ∧ evenParity v = evenParity v'

/-- The double shift of what the uops load is written as that of the destination is, with the same flags. -/
def SameShift (n : ℕ) : Prop :=
  let v := insn.rd.value pfx rip c
  let a := insn.rd.x86Value pfx rip c
  insn.rd.SameWrite pfx rip c (insn.result c v n) (insn.result c a n) ∧
    carryOut insn.right v n = carryOut insn.right a n ∧ SameStatus (insn.result c v n) (insn.result c a n)

/-- A source which is the destination brings in the same bits after the shift: the mask takes them then. -/
def SourceKept (n : ℕ) : Prop :=
  let w := opWidth insn.rd.sizeshift
  let a := insn.rd.value pfx rip c
  ∀ p, insn.rd = .reg p → p.arch = insn.rareg →
    if insn.right then (a >>> n) <<< (w - n) = a <<< (w - n) else (a <<< n) >>> (w - n) = a >>> (w - n)

/-- When it does. A count of zero in `cl` writes a 32-bit register all the same, and so clears its
upper half. A count of 16, of as many bits, is taken for zero, which is right of an operand equal
to the source if the flags are what they should be. Of less the uops write what x86 does, but for a source
which is the destination; of more only where they write matters. -/
def Exact : Prop :=
  insn.rd.Accessible pfx rip c (insn.stores c) ∧
    let n := insn.masked c
    let w := opWidth insn.rd.sizeshift
    let a := insn.rd.x86Value pfx rip c
    if n = 0 then insn.count = .cl → ∀ r, insn.rd = .reg (.d r) → c.arf (r.castLE sixteen_le_regs) >>> 32 = 0
    else if n = w then a = insn.source c ∧ Describes (c.arf Reg.flags) (carryOut insn.right a n) a
    else if n < w then insn.SameShift pfx rip c n ∧ insn.SourceKept pfx rip c n
    else ∃ v, insn.rd.SameWrite pfx rip c (insn.result c (insn.rd.value pfx rip c) (insn.taken c)) v

/-! ### The bits turned in -/

section Bits

variable {w : ℕ} (a b : BitVec w) {k : ℕ}

/-- The double shift to the left, as an alternative of two. -/
theorem shifted_left (hk : k ≤ w) : shifted false a b k = a <<< k ||| b >>> (w - k) := by
  apply BitVec.eq_of_getLsbD_eq
  intro i hi
  show (((a ++ b) <<< k).extractLsb' w w).getLsbD i = _
  rw [BitVec.getLsbD_extractLsb', decide_eq_true hi, Bool.true_and, BitVec.getLsbD_shiftLeft, BitVec.getLsbD_append,
    decide_eq_true (show w + i < w + w by omega), decide_eq_false (show ¬w + i < k by omega), Bool.true_and, Bool.not_false,
    Bool.true_and, BitVec.getLsbD_or, BitVec.getLsbD_shiftLeft, BitVec.getLsbD_ushiftRight, decide_eq_true hi, Bool.true_and]
  by_cases hlow : i < k
  · rw [if_pos (show w + i - k < w by omega), decide_eq_true hlow, Bool.not_true, Bool.false_and, Bool.false_or]
    congr 1
    omega
  · rw [if_neg (show ¬w + i - k < w by omega), decide_eq_false hlow, Bool.not_false, Bool.true_and,
      BitVec.getLsbD_of_ge b _ (show w ≤ w - k + i by omega), Bool.or_false]
    congr 1
    omega

/-- And to the right. -/
theorem shifted_right (hk : k ≤ w) : shifted true a b k = a >>> k ||| b <<< (w - k) := by
  apply BitVec.eq_of_getLsbD_eq
  intro i hi
  show (((b ++ a) >>> k).extractLsb' 0 w).getLsbD i = _
  rw [BitVec.getLsbD_extractLsb', decide_eq_true hi, Bool.true_and, BitVec.getLsbD_ushiftRight, BitVec.getLsbD_append,
    Nat.zero_add, BitVec.getLsbD_or, BitVec.getLsbD_ushiftRight, BitVec.getLsbD_shiftLeft, decide_eq_true hi, Bool.true_and]
  by_cases hlow : k + i < w
  · rw [if_pos hlow, decide_eq_true (show i < w - k by omega), Bool.not_true, Bool.false_and, Bool.or_false]
  · rw [if_neg hlow, decide_eq_false (show ¬i < w - k by omega), Bool.not_false, Bool.true_and,
      BitVec.getLsbD_of_ge a _ (Nat.le_of_not_lt hlow), Bool.false_or]
    congr 1
    omega

/-- The bits of the mask. -/
theorem mask_bits (hw : w ≤ 64) (hk : k < w) {i : ℕ} (hi : i < w) :
    (((bitmask k).setWidth w).rotateRight 0).getLsbD i = decide (i < k) ∧
      (((bitmask k).setWidth w).rotateRight k).getLsbD i = decide (w - k ≤ i) := by
  have hbit : ∀ j < w, ((bitmask k).setWidth w).getLsbD j = decide (j < k) := fun j hj => by
    rw [BitVec.getLsbD_setWidth, decide_eq_true hj, Bool.true_and, PackedInsn.bitmask_bit (by omega)]
  constructor
  · rw [BitVec.getLsbD_rotateRight_of_lt (by omega), decide_eq_true (show i < w - 0 by omega), cond_true, Nat.zero_add, hbit i hi]
  · rw [BitVec.getLsbD_rotateRight_of_lt hk, decide_eq_true hi, Bool.true_and]
    by_cases hlow : i < w - k
    · rw [decide_eq_true hlow, cond_true, hbit _ (by omega), decide_eq_false (by omega), decide_eq_false (by omega)]
    · rw [decide_eq_false hlow, cond_false, hbit _ (by omega), decide_eq_true (by omega), decide_eq_true (by omega)]

/-- The low bits, from a source turned to the left. -/
theorem insert_left (hw : w ≤ 64) (hk : k < w) :
    ((a <<< k &&& ~~~((bitmask k).setWidth w).rotateRight 0) |||
      (b.rotateRight ((w - k) % 64) &&& ((bitmask k).setWidth w).rotateRight 0)) = a <<< k ||| b >>> (w - k) := by
  apply BitVec.eq_of_getLsbD_eq
  intro i hi
  rw [BitVec.getLsbD_or, BitVec.getLsbD_and, BitVec.getLsbD_and, BitVec.getLsbD_not, (mask_bits hw hk hi).1, BitVec.getLsbD_or,
    BitVec.getLsbD_shiftLeft, BitVec.getLsbD_ushiftRight, decide_eq_true hi, Bool.true_and]
  by_cases hlow : i < k
  · have hmod : (w - k) % 64 = w - k := Nat.mod_eq_of_lt (by omega)
    rw [decide_eq_true hlow, Bool.not_true, Bool.false_and, Bool.and_false, Bool.false_or, Bool.false_or, Bool.and_true, hmod,
      BitVec.getLsbD_rotateRight_of_lt (by omega), decide_eq_true (show i < w - (w - k) by omega), cond_true]
  · rw [decide_eq_false hlow, Bool.not_false, Bool.true_and, Bool.and_true, Bool.and_false, Bool.or_false,
      BitVec.getLsbD_of_ge b _ (show w ≤ w - k + i by omega), Bool.or_false]

/-- The high bits, from a source turned to the right. -/
theorem insert_right (hw : w ≤ 64) (hk : k < w) :
    ((a >>> k &&& ~~~((bitmask k).setWidth w).rotateRight k) |||
      (b.rotateRight k &&& ((bitmask k).setWidth w).rotateRight k)) = a >>> k ||| b <<< (w - k) := by
  apply BitVec.eq_of_getLsbD_eq
  intro i hi
  rw [BitVec.getLsbD_or, BitVec.getLsbD_and, BitVec.getLsbD_and, BitVec.getLsbD_not, (mask_bits hw hk hi).2, BitVec.getLsbD_or,
    BitVec.getLsbD_shiftLeft, BitVec.getLsbD_ushiftRight, decide_eq_true hi, Bool.true_and]
  by_cases hlow : i < w - k
  · rw [decide_eq_true hlow, decide_eq_false (show ¬w - k ≤ i by omega), Bool.not_true, Bool.not_false, Bool.and_true,
      Bool.and_false, Bool.and_false, Bool.false_and]
  · rw [decide_eq_false hlow, decide_eq_true (show w - k ≤ i by omega), Bool.not_true, Bool.not_false, Bool.and_false,
      Bool.false_or, Bool.and_true, Bool.true_and, BitVec.getLsbD_of_ge a _ (show w ≤ k + i by omega), Bool.false_or,
      BitVec.getLsbD_rotateRight_of_lt hk, decide_eq_false hlow, cond_false, decide_eq_true hi, Bool.true_and]

end Bits

/-! ### The uops -/

/-- A value merged, and its status. -/
def merged (size : ℕ) (old : W64) (v : BitVec (opWidth size)) (flags : W16) : UopResult :=
  ⟨x86Merge size old (v.setWidth 64), flags⟩

/-- What the shift makes of the destination. -/
def partShifted {w : ℕ} (right : Bool) (a : BitVec w) (k : ℕ) : BitVec w := if right then a >>> k else a <<< k

/-- What the mask makes of that, and of the source. -/
def inserted {w : ℕ} (right : Bool) (a b : BitVec w) (k : ℕ) : BitVec w :=
  if right then a >>> k ||| b <<< (w - k) else a <<< k ||| b >>> (w - k)

/-- The shift uop merges the shifted value; its carry is the last bit out. -/
theorem exec_part (rest : Synthop) (right : Bool) (op : TransOp) (i : UopInputs)
    (hop : op.opcode = if right then .opShr else .opShl) (hset : op.setflags = .default) {size : ℕ} (hsize : op.size = size)
    {k : ℕ} (hk : ShiftUop.count (opWidth size) i.rb = k) (hlt : k < opWidth size) (hrc : i.rcflags = 0) :
    ∃ flags, rest.withShifts.withImpl op i = merged size i.ra (partShifted right (i.ra.setWidth _) k) flags ∧
      flags &&& FLAG_INV = 0 ∧ (k ≠ 0 → flags.getLsbD 0 = carryOut right (i.ra.setWidth (opWidth size)) k) := by
  subst hsize
  have hexec : rest.withShifts.withImpl op i =
      shiftop (fun _ v rb _ => if right then shiftRightOp v rb else shiftLeftOp v rb) op i := by
    unfold Synthop.withImpl Synthop.withShifts uopImpl shiftImpl
    rw [hop]
    cases right <;> rfl
  have hcount : x86ShiftCount (i.rb.setWidth (opWidth op.size)) = k := (x86ShiftCount_eq _ _).trans hk
  have hshift : ∀ v b : BitVec (opWidth op.size), x86ShiftCount b = k →
      (if right then shiftRightOp v b else shiftLeftOp v b).value = partShifted right v k ∧
      (if right then shiftRightOp v b else shiftLeftOp v b).count = k ∧
      (k ≠ 0 → (if right then shiftRightOp v b else shiftLeftOp v b).cf = carryOut right v k) := by
    rintro v b rfl
    cases right with
    | true => exact shiftRightOp_word v b hlt
    | false => exact shiftLeftOp_word v b hlt
  obtain ⟨hvalue, hn, hcf⟩ := hshift (i.ra.setWidth _) _ hcount
  have hflags := shiftop_flags (fun _ v rb _ => if right then shiftRightOp v rb else shiftLeftOp v rb) op i
  dsimp only at hflags
  have hsets : decide (op.setflags ≠ .none) = true := by
    rw [hset]
    decide
  rw [hvalue, hn, hsets, Bool.true_and, Bool.true_and, hrc] at hflags
  refine ⟨_, hexec.trans (congrArg₂ UopResult.mk ?_ hflags), ite_and_inv (by decide) (Status.word_inv _), fun hne => ?_⟩
  · show x86Merge op.size i.ra ((if right then shiftRightOp (i.ra.setWidth (opWidth op.size)) (i.rb.setWidth (opWidth op.size))
      else shiftLeftOp (i.ra.setWidth (opWidth op.size)) (i.rb.setWidth (opWidth op.size))).value.setWidth 64) = _
    rw [hvalue]
  · rw [if_neg hne, Status.word_bit]
    exact hcf hne

theorem and_cf (f : W16) : f &&& FLAG_CF = if f.getLsbD 0 then FLAG_CF else 0 := by
  apply BitVec.eq_of_getLsbD_eq
  intro i hi
  have hbit : ∀ i < 16, FLAG_CF.getLsbD i = decide (i = 0) := by decide
  rw [BitVec.getLsbD_and, hbit i hi]
  by_cases h0 : i = 0
  · subst h0
    cases f.getLsbD 0 <;> rfl
  · rw [decide_eq_false h0, Bool.and_false]
    split
    · rw [hbit i hi, decide_eq_false h0]
    · exact BitVec.getLsbD_zero.symm

/-- `mask`, of the fields. -/
def maskOf {w : ℕ} (ms mc ds : ℕ) (a b : BitVec w) : BitVec w :=
  let m := ((bitmask (mc % 64)).setWidth w).rotateRight (ms % 64)
  (a &&& ~~~m) ||| (b.rotateRight (ds % 64) &&& m)

/-- The mask uop, on the low bits of its operands. -/
theorem exec_mask (rest : Synthop) (op : TransOp) (i : UopInputs) (hop : op.opcode = .opMask) (hcond : op.cond = 0)
    {size : ℕ} (hop' : op.size = size) (hsize : size ≤ 3) {ms mc ds : ℕ} (hrc : i.rc = maskControlInfo ms mc ds)
    {v : BitVec (opWidth size)} (hv : maskOf ms mc ds (i.ra.setWidth _) (i.rb.setWidth _) = v) :
    ∃ o, rest.withShifts.withImpl op i = merged size i.ra v (statusOf v (i.raflags.getLsbD 0) o).word := by
  subst hop'
  obtain ⟨m, hm⟩ : ∃ m, m = ((bitmask (mc % 64)).setWidth (opWidth op.size)).rotateRight (ms % 64) := ⟨_, rfl⟩
  have hnat : i.rc.toNat = ms % 64 + mc % 64 * 2 ^ 6 + ds % 64 * 2 ^ 12 := by
    rw [hrc, maskControlInfo, BitVec.toNat_ofNat]
    omega
  have h1 : i.rc.toNat % 64 = ms % 64 := by omega
  have h2 : i.rc.toNat / 2 ^ 6 % 64 = mc % 64 := by omega
  have h3 : i.rc.toNat / 2 ^ 12 % 64 = ds % 64 := by omega
  have hexec : rest.withShifts.withImpl op i = expMask op i := by
    unfold Synthop.withImpl uopImpl
    rw [hop]
  have hw := opWidth_le hsize
  obtain ⟨rd, hrd⟩ : ∃ rd : W64, rd = (i.ra &&& ~~~m.setWidth 64) |||
      (((i.rb.setWidth (opWidth op.size)).rotateRight (ds % 64)).setWidth 64 &&& m.setWidth 64) := ⟨_, rfl⟩
  have hlow : rd.setWidth (opWidth op.size) = v := by
    rw [hrd, BitVec.setWidth_or, BitVec.setWidth_and, BitVec.setWidth_and, BitVec.setWidth_not hw,
      BitVec.setWidth_setWidth_of_le _ hw, BitVec.setWidth_setWidth_of_le _ hw, BitVec.setWidth_eq, BitVec.setWidth_eq, ← hv, hm]
    rfl
  have hmask : expMask op i = ⟨x86Merge op.size i.ra rd, x86Genflags (rd.setWidth (opWidth op.size)) |||
      (i.raflags &&& FLAG_CF) ||| if (x86Genflags (rd.setWidth (opWidth op.size)) &&& FLAG_SF ≠ 0) ≠
        (i.raflags &&& FLAG_OF ≠ 0) then FLAG_OF else 0⟩ := by
    unfold expMask
    simp only [h1, h2, h3, hcond]
    rw [hrd, hm]
    rfl
  refine ⟨decide ((x86Genflags v &&& FLAG_SF ≠ 0) ≠ (i.raflags &&& FLAG_OF ≠ 0)), hexec.trans (hmask.trans ?_)⟩
  refine congrArg₂ UopResult.mk ?_ ?_
  · exact x86Merge_congr hsize _ (hlow.trans ((BitVec.setWidth_setWidth_of_le v hw).trans (BitVec.setWidth_eq v)).symm)
  · rw [hlow, and_cf]
    have hperm : ∀ g c o : W16, g ||| c ||| o = o ||| c ||| g := fun g c o => by
      rw [BitVec.or_comm (g ||| c) o, BitVec.or_comm g c, BitVec.or_assoc]
    refine (hperm _ _ _).trans ?_
    unfold Status.word statusOf x86Genflags
    simp only [decide_eq_true_eq]


theorem x86Merge_twice {size : ℕ} (hsize : size ≤ 3) (old v v' : W64) :
    x86Merge size (x86Merge size old v) v' = x86Merge size old v' := by
  by_cases h1 : size ≤ 1
  · apply BitVec.eq_of_getLsbD_eq
    intro i _
    rw [x86Merge_bit h1, x86Merge_bit h1, x86Merge_bit h1]
    split <;> rfl
  · exact x86Merge_wide (by omega) hsize _ _ _

variable {insn} {pfx} {rip} {c}

theorem rdreg_facts (insn : DoubleShift) : Writable insn.rdreg ∧ remap insn.rdreg = insn.rdreg ∧ insn.rdreg ≠ Reg.imm ∧
    insn.rdreg ∉ [Reg.temp0, Reg.temp1, Reg.temp2] := by
  unfold rdreg
  cases insn.rd with
  | reg r =>
    have hlt := r.arch_lt
    refine ⟨r.writable, remap_of_lt (lt_trans hlt (by decide)), r.arch_ne (by decide), ?_⟩
    simp only [List.mem_cons, List.not_mem_nil, or_false, not_or]
    exact ⟨r.arch_ne (by decide), r.arch_ne (by decide), r.arch_ne (by decide)⟩
  | mem o size =>
    dsimp only
    exact ⟨⟨by decide, by decide, by decide⟩, by decide, by decide, by decide⟩

theorem rareg_remap (insn : DoubleShift) : remap insn.rareg = insn.rareg ∧ insn.rareg ≠ Reg.imm ∧ insn.rareg.isArch = true ∧
    insn.rareg ≠ Reg.flags := by
  have hall : ∀ r : Fin 16, let g : Reg := r.castLE (by decide)
      remap g = g ∧ g ≠ Reg.imm ∧ g.isArch = true ∧ g ≠ Reg.flags := by decide
  exact hall insn.ra

/-- The bits that come from the source, when the mask reads them. -/
def sourceThen (insn : DoubleShift) {w : ℕ} (a b : BitVec w) (k : ℕ) : BitVec w :=
  if insn.rareg = insn.rdreg then partShifted insn.right a k else b

/-- The count and the fields of the mask, as the uops find them. -/
def Counted (insn : DoubleShift) (c : SeqCore) (size k : ℕ) (n : Option ℕ) : Prop :=
  n = some k ∨ n = none ∧ c.arf Reg.temp0 = BitVec.ofNat 64 k ∧ c.arf Reg.temp1 = insn.maskctl size k

/-- The two uops, with their operands. -/
theorem shiftMask_eq (insn : DoubleShift) {c : SeqCore} {size k : ℕ} {n : Option ℕ} (hn : Counted insn c size k n) :
    ∃ shiftreg maskreg imm ctl, insn.shiftMask size n =
        [.init (if insn.right then .opShr else .opShl) insn.rdreg insn.rdreg shiftreg Reg.zero size imm 0 .default,
          .init .opMask insn.rdreg insn.rdreg insn.rareg maskreg size 0 ctl .default] ∧
      PackedInsn.operand c.arf shiftreg imm = BitVec.ofNat 64 k ∧
      ∀ arf : Reg → W64, arf Reg.temp1 = c.arf Reg.temp1 → PackedInsn.operand arf maskreg ctl = insn.maskctl size k := by
  rcases hn with rfl | ⟨rfl, h0, h1⟩
  · exact ⟨Reg.imm, Reg.imm, _, _, rfl, rfl, fun _ _ => rfl⟩
  · have hremap : remap Reg.temp0 = Reg.temp0 ∧ remap Reg.temp1 = Reg.temp1 := by decide
    refine ⟨Reg.temp0, Reg.temp1, _, _, rfl, ?_, fun arf harf => ?_⟩
    · exact (if_neg (by decide)).trans ((congrArg c.arf hremap.1).trans h0)
    · exact (if_neg (by decide)).trans ((congrArg arf hremap.2).trans (harf.trans h1))

/-- The fields of the mask are what it takes. -/
theorem insert_eq (insn : DoubleShift) {size k : ℕ} (hsize : size ≤ 3) (hk : k < opWidth size) (a b : BitVec (opWidth size)) :
    ∃ ms mc ds, insn.maskctl size k = maskControlInfo ms mc ds ∧
      maskOf ms mc ds (partShifted insn.right a k) b = inserted insn.right a b k := by
  have hw := opWidth_le hsize
  have hmod : k % 64 = k := Nat.mod_eq_of_lt (by omega)
  unfold maskctl partShifted inserted maskOf
  cases insn.right with
  | true =>
    refine ⟨k, k, k, rfl, ?_⟩
    dsimp only
    rw [hmod]
    exact insert_right a b hw hk
  | false =>
    refine ⟨0, k, opWidth size - k, rfl, ?_⟩
    dsimp only
    rw [hmod]
    exact insert_left a b hw hk

/-- A count below the width is not masked. -/
theorem count_ofNat {size k : ℕ} (hsize : size ≤ 3) (hk : k < opWidth size) :
    ShiftUop.count (opWidth size) (BitVec.ofNat 64 k) = k := by
  have hall : ∀ size ≤ 3, opWidth size = 64 ∨ opWidth size ≤ 32 := by decide
  unfold ShiftUop.count
  rw [BitVec.toNat_ofNat]
  rcases hall size hsize with h | h
  · rw [if_pos h]
    omega
  · rw [if_neg (by omega)]
    omega

/-- **The shift and the mask** leave the two parts in the destination. -/
theorem wp_shiftMask (rest : Synthop) (insn : DoubleShift) {c : SeqCore} {size k : ℕ} {n : Option ℕ} (hsize : size ≤ 3)
    (hk : k < opWidth size) (hn : Counted insn c size k n) (h : c.Ready) :
    let a := (c.arf insn.rdreg).setWidth (opWidth size)
    let v := inserted insn.right a (insn.sourceThen a ((c.arf insn.rareg).setWidth _) k) k
    Wp rest.withShifts.withImpl (insn.shiftMask size n) (fun c' => ∃ cf o,
      Leaves [insn.rdreg, Reg.flags] c.space.bytes c c' ∧ c'.arf insn.rdreg = x86Merge size (c.arf insn.rdreg) (v.setWidth 64) ∧
      c'.arflags insn.rdreg = (statusOf v cf o).word ∧ FlagsSet .default (statusOf v cf o).word c c' ∧
      (k ≠ 0 → cf = carryOut insn.right a k)) c := by
  intro a v
  obtain ⟨hw, hremap, himm, htemps⟩ := insn.rdreg_facts
  obtain ⟨hrb, hrbimm, hrbarch, hrbflags⟩ := insn.rareg_remap
  obtain ⟨shiftreg, maskreg, imm, ctl, hops, hcount, hctl⟩ := shiftMask_eq insn hn
  have hall : ∀ right : Bool, (isload (if right then Opcode.opShr else .opShl) ||
      isstore (if right then Opcode.opShr else .opShl)) = false := by decide
  have hmask : (isload .opMask || isstore .opMask) = false := by decide
  rw [hops]
  -- the shift
  obtain ⟨op₁, hop₁⟩ : ∃ op : TransOp, op = .init (if insn.right then .opShr else .opShl) insn.rdreg insn.rdreg shiftreg
      Reg.zero size imm 0 .default := ⟨_, rfl⟩
  have hrd₁ : op₁.rd = insn.rdreg := by rw [hop₁]; rfl
  have hsize₁ : op₁.size = size := by rw [hop₁]; rfl
  have hset₁ : op₁.setflags = .default := by rw [hop₁]; rfl
  have hra₁ : (c.inputs op₁).ra = c.arf insn.rdreg := by
    rw [hop₁]
    exact congrArg c.arf hremap
  have hrb₁ : (c.inputs op₁).rb = BitVec.ofNat 64 k := by
    rw [hop₁]
    exact hcount
  have hrc₁ : (c.inputs op₁).rcflags = 0 := by
    rw [hop₁]
    exact remap_zeroFlags h
  have hcount₁ : ShiftUop.count (opWidth size) (c.inputs op₁).rb = k := by
    rw [hrb₁]
    exact count_ofNat hsize hk
  obtain ⟨f₁, hexec₁, hinv₁, hcf₁⟩ := exec_part rest insn.right op₁ (c.inputs op₁) (by rw [hop₁]; rfl)
    (by rw [hop₁]; rfl) hsize₁ hcount₁ hk hrc₁
  rw [hra₁] at hexec₁ hcf₁
  rw [← hop₁]
  refine Triples.wp_cons (Triples.wp_mono (wp_flagged (by rw [hop₁]; exact hall _) (by rw [hop₁]; rfl) (by rw [hop₁]; rfl)
    (by rw [hop₁]; rfl) h (by rw [hrd₁]; exact hw) hexec₁ hinv₁) ?_)
  rintro c₁ ⟨hl₁, hv₁, hfl₁, hflags₁⟩
  rw [hrd₁] at hl₁ hv₁ hfl₁
  rw [hset₁] at hflags₁
  have hv₁' : c₁.arf insn.rdreg = x86Merge size (c.arf insn.rdreg) ((partShifted insn.right a k).setWidth 64) := hv₁
  have hlow₁ : (c₁.arf insn.rdreg).setWidth (opWidth size) = partShifted insn.right a k := by
    rw [hv₁', x86Merge_setWidth hsize, BitVec.setWidth_setWidth_of_le _ (opWidth_le hsize), BitVec.setWidth_eq]
  -- the mask
  obtain ⟨op₂, hop₂⟩ : ∃ op : TransOp, op = .init .opMask insn.rdreg insn.rdreg insn.rareg maskreg size 0 ctl .default := ⟨_, rfl⟩
  have hrd₂ : op₂.rd = insn.rdreg := by rw [hop₂]; rfl
  have hset₂ : op₂.setflags = .default := by rw [hop₂]; rfl
  have hra₂ : (c₁.inputs op₂).ra = c₁.arf insn.rdreg := by
    rw [hop₂]
    exact congrArg c₁.arf hremap
  have hraf₂ : (c₁.inputs op₂).raflags = f₁ := by
    refine Eq.trans ?_ hfl₁
    rw [hop₂]
    exact congrArg c₁.arflags hremap
  have htemp1 : c₁.arf Reg.temp1 = c.arf Reg.temp1 := by
    refine hl₁.arf Reg.temp1 fun hmem => ?_
    simp only [List.mem_cons, List.not_mem_nil, or_false, not_or] at hmem htemps
    rcases hmem with heq | heq
    · exact htemps.2.1 heq.symm
    · exact absurd heq (by decide)
  have hrc₂ : (c₁.inputs op₂).rc = insn.maskctl size k := by
    rw [hop₂]
    exact hctl c₁.arf htemp1
  have hrb₂ : (c₁.inputs op₂).rb.setWidth (opWidth size) = insn.sourceThen a ((c.arf insn.rareg).setWidth _) k := by
    have hreg : (c₁.inputs op₂).rb = c₁.arf insn.rareg := by
      rw [hop₂]
      exact (if_neg hrbimm).trans (congrArg c₁.arf hrb)
    rw [hreg]
    unfold sourceThen
    split
    · rename_i hsame
      rw [hsame]
      exact hlow₁
    · rename_i hother
      have hkept : c₁.arf insn.rareg = c.arf insn.rareg := hl₁.arf _ (by simp [hother, hrbflags])
      rw [hkept]
  obtain ⟨ms, mc, ds, hfields, hinsert⟩ := insert_eq insn hsize hk a (insn.sourceThen a ((c.arf insn.rareg).setWidth _) k)
  have hmaskOf : maskOf ms mc ds ((c₁.inputs op₂).ra.setWidth _) ((c₁.inputs op₂).rb.setWidth _) = v := by
    rw [hra₂, hlow₁, hrb₂]
    exact hinsert
  obtain ⟨o, hexec₂⟩ := exec_mask rest op₂ (c₁.inputs op₂) (by rw [hop₂]; rfl) (by rw [hop₂]; rfl)
    (show op₂.size = size by rw [hop₂]; rfl) hsize (hrc₂.trans hfields) hmaskOf
  rw [hra₂, hraf₂] at hexec₂
  rw [← hop₂]
  refine Triples.wp_mono (wp_flagged (by rw [hop₂]; exact hmask) (by rw [hop₂]; rfl) (by rw [hop₂]; rfl)
    (by rw [hop₂]; rfl) hl₁.ready (by rw [hrd₂]; exact hw) hexec₂ (Status.word_inv _)) ?_
  rintro c₂ ⟨hl₂, hv₂, hfl₂, hflags₂⟩
  rw [hrd₂] at hl₂ hv₂ hfl₂
  rw [hl₁.bytes] at hl₂
  rw [hset₂] at hflags₂
  refine ⟨f₁.getLsbD 0, o, (hl₁.trans hl₂).mono (by simp), ?_, hfl₂, FlagsSet.trans hflags₁ hflags₂, hcf₁⟩
  refine hv₂.trans ?_
  show x86Merge size (c₁.arf insn.rdreg) (v.setWidth 64) = _
  rw [hv₁', x86Merge_twice hsize]


/-! ### The count in `cl` -/

/-- A uop of the ALU whose operands are whatever. -/
theorem computes_implements (rest : Synthop) {o : Opcode} {F : AluFun} (hF : Implements o F)
    (hmem : (isload o || isstore o) = false) {rd : Reg} (hrd : Writable rd) (ra rb : Reg) {size : ℕ} (hsize : size ≤ 3)
    (imm : W64) : Computes rest.withImpl (.mk3 o rd ra rb Reg.zero size imm) fun a b =>
      x86Merge size a ((F (opWidth size) (a.setWidth _) (b.setWidth _) false).1.setWidth 64) := by
  obtain ⟨f, himpl, hf⟩ := hF (.mk3 o rd ra rb Reg.zero size imm) rfl hsize
  have hexec : ∀ i, rest.withImpl (.mk3 o rd ra rb Reg.zero size imm) i = f i := fun i => by
    unfold Synthop.withImpl
    rw [himpl]
  refine ⟨⟨hmem, rfl, rfl⟩, ⟨List.mem_cons_self, (Bool.or_eq_false_iff.1 hmem).2, rfl, rfl, hrd⟩, fun c h => ?_, fun c h => ?_⟩
  · have hcarry : (c.arflags (remap Reg.zero)).getLsbD 0 = false := by
      rw [remap_zeroFlags h]
      rfl
    refine (congrArg UopResult.rddata (hexec _)).trans ((hf _).1.trans ?_)
    show x86Merge size _ ((F _ _ _ ((c.arflags (remap Reg.zero)).getLsbD 0)).1.setWidth 64) = _
    rw [hcarry]
    rfl
  · refine (congrArg (fun r : UopResult => r.rdflags &&& FLAG_INV) (hexec _)).trans (hf _).2.1

/-- The count and the fields of the mask that the uops make of it. -/
theorem maskctl_eq : ∀ size ∈ [1, 2, 3], ∀ k < opWidth size,
    let t0 : W64 := BitVec.ofNat 64 k
    let f (n : ℕ) (a b : W64) : W64 := (a &&& ~~~(bitmask 6).rotateRight n) ||| (b.rotateRight n &&& (bitmask 6).rotateRight n)
    let t2 : W64 := x86Merge 0 0 (BitVec.ofNat 64 (opWidth size))
    f 58 t0 (x86Merge 0 t2 ((t2.setWidth 8 - t0.setWidth 8).setWidth 64)) <<< 6 = maskControlInfo 0 k (opWidth size - k) ∧
      f 52 (f 58 t0 t0) t0 = maskControlInfo k k k := by
  decide +kernel

/-- The uops of a list but the last write temporaries; `v` is in `r` after them. -/
theorem wp_step {exec : Synthop} {op : TransOp} {ops : List TransOp} {f : W64 → W64 → W64} {Q : SeqCore → Prop} {c : SeqCore}
    (hop : Computes exec op f) (h : c.Ready) (hrest : ∀ c₁, Leaves [op.rd] c.space.bytes c c₁ →
      c₁.arf = Function.update c.arf op.rd (f (c.arf (remap op.ra)) (PackedInsn.operand c.arf op.rb op.rbimm)) → Wp exec ops Q c₁) :
    Wp exec (op :: ops) Q c :=
  Triples.wp_cons (Triples.wp_mono (hop.wp h) fun c₁ hc₁ => hrest c₁ hc₁.1 (PackedInsn.leaves_update hc₁.1 hc₁.2))

/-- The temporaries of the preparation. -/
def prepareTemps : List Reg := [Reg.temp0, Reg.temp1, Reg.temp2]

theorem temps_remap : remap Reg.temp0 = Reg.temp0 ∧ remap Reg.temp1 = Reg.temp1 ∧ remap Reg.temp2 = Reg.temp2 := by
  decide

theorem temps_writable : Writable Reg.temp0 ∧ Writable Reg.temp1 ∧ Writable Reg.temp2 :=
  ⟨⟨by decide, by decide, by decide⟩, ⟨by decide, by decide, by decide⟩, by decide, by decide, by decide⟩

/-- A register masked. -/
theorem and_bitmask (v : W64) {n : ℕ} (hn : n < 64) : v &&& bitmask n = BitVec.ofNat 64 (v.toNat % 2 ^ n) := by
  apply BitVec.eq_of_toNat_eq
  have hlt : v.toNat % 2 ^ n ≤ v.toNat := Nat.mod_le _ _
  have hv := v.isLt
  rw [BitVec.toNat_and, PackedInsn.toNat_bitmask hn, Nat.and_two_pow_sub_one_eq_mod, BitVec.toNat_ofNat]
  omega

/-- The fields of the mask are made of the count, in `temp0`. -/
theorem wp_fields (rest : Synthop) (insn : DoubleShift) {c : SeqCore} {size k : ℕ} (hsize : size ∈ [1, 2, 3])
    (hk : k < opWidth size) (h : c.Ready) (himm : c.arflags (remap Reg.imm) = 0)
    (hcount : c.arf Reg.temp0 = BitVec.ofNat 64 k) {Q : SeqCore → Prop} {ops : List TransOp}
    (hrest : ∀ c', Leaves prepareTemps c.space.bytes c c' → Counted insn c' size k none → Wp rest.withShifts.withImpl ops Q c') :
    Wp rest.withShifts.withImpl ((if insn.right then
      [.init .opMaskb Reg.temp1 Reg.temp0 Reg.temp0 Reg.imm 3 0 (maskControlInfo 58 6 58) .none,
        .init .opMaskb Reg.temp1 Reg.temp1 Reg.temp0 Reg.imm 3 0 (maskControlInfo 52 6 52) .none]
    else
      [.mk3 .opMov Reg.temp2 Reg.zero Reg.imm Reg.zero 0 (BitVec.ofNat 64 (opWidth size)),
        .mk3 .opSub Reg.temp2 Reg.temp2 Reg.temp0 Reg.zero 0 0,
        .init .opMaskb Reg.temp1 Reg.temp0 Reg.temp2 Reg.imm 3 0 (maskControlInfo 58 6 58) .none,
        .mk3 .opShl Reg.temp1 Reg.temp1 Reg.imm Reg.zero 3 6]) ++ ops) Q c := by
  obtain ⟨hr0, hr1, hr2⟩ := temps_remap
  obtain ⟨hw0, hw1, hw2⟩ := temps_writable
  have hne : Reg.temp0 ≠ Reg.temp1 ∧ Reg.temp0 ≠ Reg.temp2 ∧ Reg.temp1 ≠ Reg.temp2 ∧ Reg.temp0 ≠ Reg.imm ∧
      Reg.temp2 ≠ Reg.imm := by decide
  have hctl := maskctl_eq size hsize k hk
  cases hright : insn.right with
  | true =>
    rw [if_pos rfl]
    -- the fields of `maskb` are put together by two more of them
    have h₁ := computes_mask rest Reg.temp0 Reg.temp0 hw1 (show 58 < 64 by decide) (show 6 < 64 by decide) (show 58 < 64 by decide)
    have h₂ := computes_mask rest Reg.temp1 Reg.temp0 hw1 (show 52 < 64 by decide) (show 6 < 64 by decide) (show 52 < 64 by decide)
    refine wp_step h₁ h fun c₁ hl₁ harf₁ => wp_step h₂ hl₁.ready fun c₂ hl₂ harf₂ => ?_
    simp only [TransOp.init, PackedInsn.operand, hr0, hr1, hne.2.2.2.1, if_false, hcount] at harf₁ harf₂
    have hl := hl₁.trans hl₂
    rw [hl₁.bytes] at hl
    refine hrest c₂ (hl.mono (by simp [TransOp.init, prepareTemps])) (.inr ⟨rfl, ?_, ?_⟩)
    · rw [harf₂, harf₁, Function.update_of_ne hne.1, Function.update_of_ne hne.1, hcount]
    · unfold maskctl
      rw [harf₂, harf₁, Function.update_self, Function.update_self, Function.update_of_ne hne.1, hcount, if_pos hright, ← hctl.2]
  | false =>
    rw [if_neg (by decide)]
    -- the right edge is the width less the count, as an eight-bit subtraction
    have hclass : (isload .opMov || isstore .opMov) = false ∧ isstore .opMov = false := by decide
    have hsub : (isload .opSub || isstore .opSub) = false := by decide
    have hzero : remap Reg.zero = Reg.zero := by decide
    have hmov : Wp rest.withShifts.withImpl [.mk3 .opMov Reg.temp2 Reg.zero Reg.imm Reg.zero 0 (BitVec.ofNat 64 (opWidth size))]
        (fun c₁ => Leaves [Reg.temp2] c.space.bytes c c₁ ∧
          c₁.arf Reg.temp2 = x86Merge 0 (c.arf (remap Reg.zero)) (BitVec.ofNat 64 (opWidth size))) c := by
      have hmem : isMem (.mk3 .opMov Reg.temp2 Reg.zero Reg.imm Reg.zero 0 (BitVec.ofNat 64 (opWidth size))) = false := hclass.1
      refine wp_writes hmem rfl rfl h ⟨List.mem_cons_self, hclass.2, rfl, rfl, hw2⟩ rfl ?_
      show c.arflags (remap Reg.imm) &&& FLAG_INV = 0
      rw [himm]
      decide
    refine Triples.wp_cons (Triples.wp_mono hmov fun c₁ hc₁ => ?_)
    obtain ⟨hl₁, hv₁⟩ := hc₁
    have harf₁ := PackedInsn.leaves_update hl₁ hv₁
    have h₂ := computes_implements rest.withShifts implements_sub hsub hw2 Reg.temp2 Reg.temp0 (show 0 ≤ 3 by decide) 0
    have h₃ := computes_mask rest Reg.temp0 Reg.temp2 hw1 (show 58 < 64 by decide) (show 6 < 64 by decide) (show 58 < 64 by decide)
    have h₄ := computes_shift rest Reg.temp1 Reg.imm true hw1 6
    refine wp_step h₂ hl₁.ready fun c₂ hl₂ harf₂ => wp_step h₃ hl₂.ready fun c₃ hl₃ harf₃ =>
      wp_step h₄ hl₃.ready fun c₄ hl₄ harf₄ => ?_
    rw [hzero, h.zero] at harf₁
    simp only [TransOp.init, TransOp.mk3, PackedInsn.operand, hr0, hr1, hr2, hne.2.2.2.1, hne.2.2.2.2, if_false, if_true]
      at harf₂ harf₃ harf₄
    have hdiff : ∀ a b : BitVec 8, (x86Sub a b false).1 = a - b := fun a b => BitVec.sub_zero _
    have hsix : ShiftUop.count 64 6 = 6 := by decide
    have e10 : c₁.arf Reg.temp0 = BitVec.ofNat 64 k := by rw [harf₁, Function.update_of_ne hne.2.1, hcount]
    have e20 : c₂.arf Reg.temp0 = BitVec.ofNat 64 k := by rw [harf₂, Function.update_of_ne hne.2.1, e10]
    have e12 : c₁.arf Reg.temp2 = x86Merge 0 0 (BitVec.ofNat 64 (opWidth size)) := by rw [harf₁, Function.update_self]
    have e22 : c₂.arf Reg.temp2 = x86Merge 0 (c₁.arf Reg.temp2)
        (((c₁.arf Reg.temp2).setWidth 8 - (c₁.arf Reg.temp0).setWidth 8).setWidth 64) := by
      rw [harf₂, Function.update_self]
      exact congrArg (fun x : BitVec 8 => x86Merge 0 (c₁.arf Reg.temp2) (x.setWidth 64)) (hdiff _ _)
    have hl := ((hl₁.trans hl₂).trans hl₃).trans hl₄
    rw [hl₃.bytes, hl₂.bytes, hl₁.bytes] at hl
    refine hrest c₄ (hl.mono (by simp [TransOp.init, TransOp.mk3, prepareTemps])) (.inr ⟨rfl, ?_, ?_⟩)
    · rw [harf₄, Function.update_of_ne hne.1, harf₃, Function.update_of_ne hne.1, e20]
    · unfold maskctl
      rw [harf₄, Function.update_self, harf₃, Function.update_self, e22, e20, e12, e10, hsix, hright, if_neg (by decide),
        ← hctl.1]

/-- **The count, the fields of the mask and the flags** are in temporaries. -/
theorem wp_prepare (rest : Synthop) (insn : DoubleShift) {c : SeqCore} {size : ℕ} (hsize : size ∈ [1, 2, 3]) (h : c.Ready)
    (himm : c.arflags (remap Reg.imm) = 0) :
    let k := (c.arf Reg.rcx).toNat % 2 ^ (3 + size)
    Wp rest.withShifts.withImpl (insn.prepare size) (fun c' => Leaves prepareTemps c.space.bytes c c' ∧
      Counted insn c' size k none ∧
      c'.arflags Reg.temp2 = (c.arf Reg.flags).setWidth 16 &&& setflagsToX86Flags .default) c := by
  intro k
  obtain ⟨hr0, -, -⟩ := temps_remap
  obtain ⟨hw0, -, hw2⟩ := temps_writable
  have hand : (isload .opAnd || isstore .opAnd) = false := by decide
  have hrcx : remap Reg.rcx = Reg.rcx := by decide
  have hsizes : ∀ size ∈ [1, 2, 3], 3 + size < 64 ∧ 2 ^ (3 + size) = opWidth size := by decide
  have hk : k < opWidth size := (hsizes size hsize).2 ▸ Nat.mod_lt _ (Nat.two_pow_pos _)
  have hlogic : ∀ a : W64, (x86Logic a).1 = a := fun a => rfl
  unfold prepare
  rw [List.cons_append]
  have h₁ := computes_implements rest.withShifts implements_and hand hw0 Reg.rcx Reg.imm (show 3 ≤ 3 by decide) (bitmask (3 + size))
  refine wp_step h₁ h fun c₁ hl₁ harf₁ => ?_
  -- the count is masked by the width of the operand, where x86 masks it by 32 or 64
  have hcount : c₁.arf Reg.temp0 = BitVec.ofNat 64 k := by
    have hself := congrFun harf₁ Reg.temp0
    refine hself.trans ((Function.update_self _ _ _).trans ?_)
    show (((c.arf (remap Reg.rcx)).setWidth 64 &&& (bitmask (3 + size)).setWidth 64).setWidth 64 : W64) = _
    rw [BitVec.setWidth_eq, BitVec.setWidth_eq, BitVec.setWidth_eq, hrcx]
    exact and_bitmask _ (hsizes size hsize).1
  have himm₁ : c₁.arflags (remap Reg.imm) = 0 := by
    have hne : remap Reg.imm ∉ [Reg.temp0] := by decide
    exact (hl₁.arflags _ hne).trans himm
  refine wp_fields rest insn hsize hk hl₁.ready himm₁ hcount fun c₂ hl₂ hcounted => ?_
  refine Triples.wp_mono (wp_collcc rest.withShifts hl₂.ready hw2) fun c₃ hc₃ => ?_
  obtain ⟨hl₃, hflags⟩ := hc₃
  have hl := (hl₁.trans hl₂).trans hl₃
  have hsame : c₂.arf Reg.flags = c.arf Reg.flags := by
    have hne : Reg.flags ∉ [Reg.temp0] := by decide
    exact (hl₂.arf _ (by decide)).trans (hl₁.arf _ hne)
  rw [hl₂.bytes, hl₁.bytes] at hl
  rw [hsame] at hflags
  refine ⟨hl.mono (by simp [TransOp.mk3, TransOp.init, prepareTemps]), ?_, hflags⟩
  rcases hcounted with hno | ⟨-, h0, h1⟩
  · cases hno
  · exact .inr ⟨rfl, (hl₃.arf _ (by decide)).trans h0, (hl₃.arf _ (by decide)).trans h1⟩

/-! ### The flags of before -/

/-- **The flags** are those of before if the count is zero, else those of the mask. -/
theorem wp_restore (rest : Synthop) (insn : DoubleShift) {c : SeqCore} {k : ℕ} (hk : k < 64) (h : c.Ready)
    (hcount : c.arf Reg.temp0 = BitVec.ofNat 64 k) {f₀ f₁ : W16} (h0 : c.arflags Reg.temp2 = f₀)
    (h1 : c.arflags insn.rdreg = f₁) (hinv : f₀ &&& FLAG_INV = 0 ∧ f₁ &&& FLAG_INV = 0) :
    Wp rest.withBranches.withShifts.withImpl insn.restore (fun c' => Leaves [Reg.temp0, Reg.flags] c.space.bytes c c' ∧
      FlagsSet .default (if k = 0 then f₀ else f₁) c c') c := by
  obtain ⟨hr0, -, hr2⟩ := temps_remap
  obtain ⟨hw0, -, -⟩ := temps_writable
  obtain ⟨hw, hremap, -, htemps⟩ := insn.rdreg_facts
  have hand : (isload .opAnd || isstore .opAnd) = false := by decide
  have hsel : (isload .opSel || isstore .opSel) = false := by decide
  unfold restore
  -- `and`
  obtain ⟨op₁, hop₁⟩ : ∃ op : TransOp, op = .init .opAnd Reg.temp0 Reg.temp0 Reg.temp0 Reg.zero 0 0 0 .default := ⟨_, rfl⟩
  obtain ⟨f, himpl, hf⟩ := implements_and op₁ (by rw [hop₁]; rfl) (by rw [hop₁]; decide)
  obtain ⟨hdata, hinv₁, hword⟩ := hf (c.inputs op₁)
  have hexec₁ : rest.withBranches.withShifts.withImpl op₁ (c.inputs op₁) = f (c.inputs op₁) := by
    unfold Synthop.withImpl
    rw [himpl]
  have hrd₁ : op₁.rd = Reg.temp0 := by rw [hop₁]; rfl
  have hset₁ : op₁.setflags = .default := by rw [hop₁]; rfl
  rw [← hop₁]
  refine Triples.wp_cons (Triples.wp_mono (wp_flagged (by rw [hop₁]; exact hand) (by rw [hop₁]; rfl) (by rw [hop₁]; rfl)
    (by rw [hop₁]; rfl) h (by rw [hrd₁]; exact hw0) hexec₁ hinv₁) ?_)
  rintro c₁ ⟨hl₁, -, hfl₁, hflags₁⟩
  rw [hrd₁] at hl₁ hfl₁
  rw [hset₁] at hflags₁
  have hzf : (c₁.arflags Reg.temp0).getLsbD 6 = decide (k = 0) := by
    have hlow : ∀ k < 64, decide (((BitVec.ofNat 64 k).setWidth 8 &&& (BitVec.ofNat 64 k).setWidth 8 : BitVec 8) = 0) =
        decide (k = 0) := by decide +kernel
    have hin : (c.inputs op₁).ra = BitVec.ofNat 64 k ∧ (c.inputs op₁).rb = BitVec.ofNat 64 k := by
      rw [hop₁]
      have hne : Reg.temp0 ≠ Reg.imm := by decide
      refine ⟨(congrArg c.arf hr0).trans hcount, ?_⟩
      show (if Reg.temp0 = Reg.imm then 0 else c.arf (remap Reg.temp0)) = _
      rw [if_neg hne, hr0, hcount]
    have hsize : op₁.size = 0 := by rw [hop₁]; rfl
    rw [hfl₁, hword (by rw [hset₁]; decide), Status.word_bit, hin.1, hin.2, hsize]
    exact hlow k hk
  -- `sel`
  obtain ⟨op₂, hop₂⟩ : ∃ op : TransOp, op = { TransOp.init .opSel Reg.temp0 insn.rdreg Reg.temp2 Reg.temp0 3 0 0 .default with
    cond := Cond.e.code } := ⟨_, rfl⟩
  have hrd₂ : op₂.rd = Reg.temp0 := by rw [hop₂]; rfl
  have hset₂ : op₂.setflags = .default := by rw [hop₂]; rfl
  have hin : (c₁.inputs op₂).rcflags = c₁.arflags Reg.temp0 ∧ (c₁.inputs op₂).rbflags = f₀ ∧ (c₁.inputs op₂).raflags = f₁ := by
    have h2 : c₁.arflags Reg.temp2 = f₀ := (hl₁.arflags _ (by decide)).trans h0
    have hR : c₁.arflags insn.rdreg = f₁ := by
      refine (hl₁.arflags _ ?_).trans h1
      simp only [List.mem_cons, List.not_mem_nil, or_false, not_or] at htemps ⊢
      exact ⟨htemps.1, hw.flags⟩
    rw [hop₂]
    exact ⟨congrArg c₁.arflags hr0, (congrArg c₁.arflags hr2).trans h2, (congrArg c₁.arflags hremap).trans hR⟩
  have hcond : evaluateCond .e (c₁.arflags Reg.temp0) (c₁.arflags Reg.temp0) = decide (k = 0) := by
    rw [← hzf]
    exact Bool.eq_iff_iff.2 (decide_eq_true_iff.trans (flag_iff _).2.2.1)
  have hexec₂ : rest.withBranches.withShifts.withImpl op₂ (c₁.inputs op₂) =
      ⟨(sel .e 3 (c₁.inputs op₂)).rddata, if k = 0 then f₀ else f₁⟩ := by
    have hcode : Cond.ofCode Cond.e.code = .e := by decide
    have hsel : rest.withBranches.withShifts.withImpl op₂ (c₁.inputs op₂) = sel (.ofCode Cond.e.code) 3 (c₁.inputs op₂) := by
      rw [hop₂]
      rfl
    rw [hsel, hcode]
    refine congrArg₂ UopResult.mk rfl ?_
    rw [hin.1, hin.2.1, hin.2.2, hcond]
    simp only [decide_eq_true_eq]
  rw [← hop₂]
  refine Triples.wp_mono (wp_flagged (by rw [hop₂]; exact hsel) (by rw [hop₂]; rfl) (by rw [hop₂]; rfl)
    (by rw [hop₂]; rfl) hl₁.ready (by rw [hrd₂]; exact hw0) hexec₂ (ite_and_inv hinv.1 hinv.2)) ?_
  rintro c₂ ⟨hl₂, -, -, hflags₂⟩
  rw [hrd₂, hl₁.bytes] at hl₂
  rw [hset₂] at hflags₂
  exact ⟨(hl₁.trans hl₂).mono (by simp), FlagsSet.trans hflags₁ hflags₂⟩

/-! ### The destination -/

/-- What the loads and the stores of the destination write. -/
def accessTemps : List Reg := [Reg.temp6, Reg.temp8, Reg.temp4, Reg.temp4, Reg.temp9]

theorem wide_facts (insn : DoubleShift) : insn.rd.sizeshift ∈ [1, 2, 3] ∧ ∀ p, insn.rd = .reg p → p.hibyte = false := by
  have hle := insn.rd.sizeshift_le
  have hne := insn.wide
  refine ⟨?_, fun p hp => ?_⟩
  · simp only [List.mem_cons, List.not_mem_nil, or_false]
    omega
  · rw [hp] at hne
    cases p with
    | hi r => exact absurd rfl hne
    | _ => rfl

/-- **The destination is loaded.** -/
theorem wp_loadDest (rest : Synthop) (insn : DoubleShift) {c : SeqCore} (h : c.Ready) {store : Bool}
    (hacc : insn.rd.Accessible pfx rip c store) :
    Wp rest.withImpl (insn.load pfx rip) (fun c' => Leaves accessTemps c.space.bytes c c' ∧
      (c'.arf insn.rdreg).setWidth _ = insn.rd.value pfx rip c) c := by
  have hlow := insn.wide_facts.2
  obtain ⟨right, d, ra, count, wide⟩ := insn
  cases d with
  | reg p =>
    refine Triples.wp_nil ⟨(Leaves.refl h).mono (List.nil_subset _), ?_⟩
    exact (ImulInsn.read_of_low (hlow p rfl) _).symm
  | mem o size =>
    have ht : Writable Reg.temp4 := ⟨by decide, by decide, by decide⟩
    have hsize : size.val ≤ 3 := by omega
    obtain ⟨hctx, hload, -⟩ := hacc
    refine Triples.wp_mono (wp_operandLoad pfx rip Reg.temp4 o size rest h hctx (by decide) hsize ht hload) ?_
    rintro c' ⟨hl, hv, -⟩
    refine ⟨hl, ?_⟩
    show (c'.arf Reg.temp4).setWidth (opWidth size.val) = _
    rw [hv]
    show ((loadBytes _ _ _).setWidth 64).setWidth _ = _
    rw [BitVec.setWidth_setWidth_of_le _ (opWidth_le hsize), BitVec.setWidth_eq]
    rfl

/-- **The destination is stored.** -/
theorem wp_storeDest (rest : Synthop) (insn : DoubleShift) {c c₁ c₂ : SeqCore} {rs : List Reg}
    (hacc : insn.rd.Accessible pfx rip c true) (hl₁ : Leaves rs c.space.bytes c c₁)
    (hl₂ : Leaves [insn.rdreg, Reg.flags] c.space.bytes c₁ c₂) (hrs : Temps rs) {v : BitVec (opWidth insn.rd.sizeshift)}
    (hv : c₂.arf insn.rdreg = x86Merge insn.rd.sizeshift (c₁.arf insn.rdreg) (v.setWidth 64)) :
    Wp rest.withImpl (insn.store pfx rip) (fun c' => insn.rd.Written pfx rip c v c' ∧
      ∃ m, Leaves [Reg.temp6, Reg.temp8, Reg.temp9] m c₂ c') c₂ := by
  have hlow := insn.wide_facts.2
  obtain ⟨right, d, ra, count, wide⟩ := insn
  cases d with
  | reg p =>
    refine Triples.wp_nil ⟨⟨fun r hr hf => ?_, hl₂.bytes⟩, _, (Leaves.refl hl₂.ready).mono (List.nil_subset _)⟩
    have hv' : c₂.arf p.arch = x86Merge p.sizeshift (c₁.arf p.arch) (v.setWidth 64) := hv
    have hl₂' : Leaves [p.arch, Reg.flags] c.space.bytes c₁ c₂ := hl₂
    split
    · next heq =>
      subst heq
      rw [hv', hl₁.arch hrs hr hf]
      exact (Apr.write_eq p (hlow p rfl) (c.arf p.arch) v).symm
    · next hne =>
      rw [hl₂'.arf r (by simp [hne, hf]), hl₁.arch hrs hr hf]
  | mem o size =>
    have hsize : size.val ≤ 3 := by omega
    have hv' : c₂.arf Reg.temp4 = x86Merge size (c₁.arf Reg.temp4) (v.setWidth 64) := hv
    have hl₂' : Leaves [Reg.temp4, Reg.flags] c.space.bytes c₁ c₂ := hl₂
    have h4 : remap Reg.temp4 = Reg.temp4 := by decide
    rw [← hl₁.bytes] at hl₂'
    have h12 := hl₁.trans hl₂'
    rw [hl₁.bytes] at h12
    have htemps : Temps (rs ++ [Reg.temp4, Reg.flags]) := by
      intro r hr
      rcases List.mem_append.1 hr with hr | hr
      · exact hrs r hr
      · have hall : Temps [Reg.temp4, Reg.flags] := by decide
        exact hall r hr
    obtain ⟨hctx, -, hstore⟩ := hacc
    have haddr : Operand.address pfx c₂ rip o = Operand.address pfx c rip o := Operand.address_congr h12 htemps o
    refine Triples.wp_mono (wp_resultStore pfx rip Reg.temp4 o size rest hl₂.ready (hctx.leaves h12 htemps) hsize (by decide)
      (by decide) (by decide) ?_) fun c' h3 => ⟨⟨fun r hr hf => ?_, ?_⟩, _, h3⟩
    · show X86Sim.Accessible c₂ true (Operand.address pfx c₂ rip o) size
      unfold X86Sim.Accessible
      rw [haddr, h12.check]
      exact hstore rfl
    · rw [h3.arch (by decide) hr hf, h12.arch htemps hr hf]
    · have hlow : (c₂.arf (remap Reg.temp4)).setWidth (opWidth size.val) = (v.setWidth 64).setWidth (opWidth size.val) := by
        rw [h4, hv']
        exact x86Merge_setWidth hsize (c₁.arf Reg.temp4) (v.setWidth 64)
      have hbytes := h3.bytes
      rw [h12.bytes, storeBytewise_congr hlow] at hbytes
      rw [hbytes]
      exact congrArg (fun a => storeBytewise a (v.setWidth 64) c.space.bytes (2 ^ size.val)) haddr

/-! ### The instruction -/

/-- What the uops make of the destination. -/
def made (insn : DoubleShift) (pfx : Prefixes) (rip : W64) (c : SeqCore) : BitVec (opWidth insn.rd.sizeshift) :=
  let a := insn.rd.value pfx rip c
  inserted insn.right a (insn.sourceThen a (insn.source c) (insn.taken c)) (insn.taken c)

/-- What the uops do: of an immediate count of zero nothing. -/
structure Did (insn : DoubleShift) (pfx : Prefixes) (rip : W64) (c c' : SeqCore) : Prop where
  still : insn.taken c = 0 → insn.count ≠ .cl →
    (∀ r : Reg, r.isArch = true → c'.arf r = c.arf r) ∧ c'.space.bytes = c.space.bytes
  written : insn.taken c ≠ 0 ∨ insn.count = .cl → insn.rd.Written pfx rip c (insn.made pfx rip c) c'
  flags : insn.taken c = 0 → c'.arf Reg.flags = c.arf Reg.flags
  status : insn.taken c ≠ 0 → ∃ o, FlagsSet .default
    (statusOf (insn.made pfx rip c) (carryOut insn.right (insn.rd.value pfx rip c) (insn.taken c)) o).word c c'

/-- Later uops write temporaries and flags. -/
theorem written_leaves {d : Operand} {c c₁ c' : SeqCore} {rs : List Reg} {v : BitVec (opWidth d.sizeshift)}
    (hw : d.Written pfx rip c v c₁) (hl : Leaves rs c₁.space.bytes c₁ c') (hrs : Temps rs) : d.Written pfx rip c v c' := by
  unfold Operand.Written at *
  cases d with
  | reg p => exact ⟨fun r hr hf => (hl.arch hrs hr hf).trans (hw.1 r hr hf), hl.bytes.trans hw.2⟩
  | mem o size => exact ⟨fun r hr hf => (hl.arch hrs hr hf).trans (hw.1 r hr hf), hl.bytes.trans hw.2⟩

theorem taken_lt (insn : DoubleShift) (c : SeqCore) : insn.taken c < opWidth insn.rd.sizeshift := by
  have hall : ∀ size ∈ [1, 2, 3], 2 ^ (3 + size) = opWidth size := by decide
  exact hall _ insn.wide_facts.1 ▸ Nat.mod_lt _ (Nat.two_pow_pos _)

theorem rdreg_stores (insn : DoubleShift) : insn.rdreg ∉ [Reg.temp6, Reg.temp8, Reg.temp9] := by
  unfold rdreg
  cases insn.rd with
  | reg r =>
    simp only [List.mem_cons, List.not_mem_nil, or_false, not_or]
    exact ⟨r.arch_ne (by decide), r.arch_ne (by decide), r.arch_ne (by decide)⟩
  | mem o size =>
    dsimp only
    decide

/-- The shift, the mask and the store of the destination loaded. -/
theorem wp_shiftStore (rest : Synthop) (insn : DoubleShift) {c c₁ : SeqCore} {rs : List Reg} {n : Option ℕ}
    (hacc : insn.rd.Accessible pfx rip c true) (hl : Leaves rs c.space.bytes c c₁) (hrs : Temps rs)
    (hkept : Reg.flags ∉ rs) (hload : (c₁.arf insn.rdreg).setWidth _ = insn.rd.value pfx rip c)
    (hn : Counted insn c₁ insn.rd.sizeshift (insn.taken c) n) {Q : SeqCore → Prop} {ops : List TransOp}
    (hrest : ∀ c' m cf o, insn.rd.Written pfx rip c (insn.made pfx rip c) c' →
      Leaves [insn.rdreg, Reg.flags, Reg.temp6, Reg.temp8, Reg.temp9] m c₁ c' →
      c'.arflags insn.rdreg = (statusOf (insn.made pfx rip c) cf o).word →
      FlagsSet .default (statusOf (insn.made pfx rip c) cf o).word c c' →
      (insn.taken c ≠ 0 → cf = carryOut insn.right (insn.rd.value pfx rip c) (insn.taken c)) →
      Wp rest.withShifts.withImpl ops Q c') :
    Wp rest.withShifts.withImpl (insn.shiftMask insn.rd.sizeshift n ++ (insn.store pfx rip ++ ops)) Q c₁ := by
  obtain ⟨hw, hremap, himm, htemps⟩ := insn.rdreg_facts
  obtain ⟨-, -, hsrcarch, hsrcflags⟩ := insn.rareg_remap
  have hsource : (c₁.arf insn.rareg).setWidth _ = insn.source c := congrArg (BitVec.setWidth _) (hl.arch hrs hsrcarch hsrcflags)
  have hstore : insn.rdreg ∉ [Reg.temp6, Reg.temp8, Reg.temp9] := insn.rdreg_stores
  refine Triples.wp_append (Triples.wp_mono (wp_shiftMask rest insn insn.rd.sizeshift_le (insn.taken_lt c) hn hl.ready) ?_)
  rintro c₂ ⟨cf, o, hl₂, hv, hfl, hset, hcf⟩
  rw [hload, hsource] at hv hfl hset
  rw [hload] at hcf
  rw [hl.bytes] at hl₂
  refine Triples.wp_append (Triples.wp_mono (wp_storeDest rest.withShifts insn hacc hl hl₂ hrs hv) ?_)
  rintro c₃ ⟨hwritten, m, hl₃⟩
  refine hrest c₃ m cf o hwritten (hl₂.trans hl₃) ((hl₃.arflags _ hstore).trans hfl) (fun i => ?_) hcf
  have hflag := hset i
  rw [hl.arf _ hkept] at hflag
  rw [hl₃.arf Reg.flags (by decide), hflag]
  rfl

/-- A destination that may not be stored is not. -/
theorem not_wp_shiftStore (rest : Synthop) (insn : DoubleShift) {c c₁ : SeqCore} {rs : List Reg} {n : Option ℕ}
    {o : X86Operand} {size : Fin 4} (hd : insn.rd = .mem o size) (hctx : HostCtx c)
    (hno : ¬X86Sim.Accessible c true (Operand.address pfx c rip o) size) (hl : Leaves rs c.space.bytes c c₁) (hrs : Temps rs)
    (hn : Counted insn c₁ insn.rd.sizeshift (insn.taken c) n) {Q : SeqCore → Prop} {ops : List TransOp} :
    ¬Wp rest.withShifts.withImpl (insn.shiftMask insn.rd.sizeshift n ++ (insn.store pfx rip ++ ops)) Q c₁ := by
  have hnonempty : Nonempty (ℕ → Sfr) := ⟨fun _ => Frame.Sfr.zero⟩
  refine Triples.not_wp_append (wp_shiftMask rest insn insn.rd.sizeshift_le (insn.taken_lt c) hn hl.ready) ?_
  rintro c₂ ⟨cf, o', hl₂, -⟩
  have hstore : insn.store pfx rip = resultStore pfx rip Reg.temp4 (o.memRef size) := by
    unfold store
    rw [hd]
  have hrdreg : insn.rdreg = Reg.temp4 := by
    unfold rdreg
    rw [hd]
  rw [hrdreg] at hl₂
  have h12 := hl.trans hl₂
  have htemps : Temps (rs ++ [Reg.temp4, Reg.flags]) := by
    intro r hr
    rcases List.mem_append.1 hr with hr | hr
    · exact hrs r hr
    · have hall : Temps [Reg.temp4, Reg.flags] := by decide
      exact hall r hr
  rw [hstore]
  refine not_wp_resultStore pfx rip Reg.temp4 o size rest.withShifts hl₂.ready (hctx.leaves h12 htemps)
    (Nat.le_of_lt_succ size.isLt) (by decide) ops fun hok => hno ?_
  change X86Sim.Accessible c₂ true (Operand.address pfx c₂ rip o) size at hok
  unfold X86Sim.Accessible at hok
  rwa [Operand.address_congr h12 htemps, h12.check] at hok

/-- **What the uops do**, of a constant count. -/
theorem wp_decodeImm (rest : Synthop) (insn : DoubleShift) {c : SeqCore} (h : c.Ready)
    (hacc : insn.rd.Accessible pfx rip c (insn.stores c)) {v : W64} (hcount : insn.count = .imm v) :
    Wp rest.withShifts.withImpl (insn.decode pfx rip) (insn.Did pfx rip c) c := by
  have htemps : Temps accessTemps := by decide
  have htaken : insn.taken c = v.toNat % 2 ^ (3 + insn.rd.sizeshift) := by
    unfold taken
    rw [hcount]
  unfold decode
  dsimp only
  rw [hcount]
  refine Triples.wp_append (Triples.wp_mono (wp_loadDest rest.withShifts insn h hacc) ?_)
  rintro c₁ ⟨hl₁, hload⟩
  dsimp only
  rw [← htaken]
  split
  · next h0 =>
    have hw0 : Writable Reg.temp0 := temps_writable.1
    refine Triples.wp_mono ((computes_nop rest hw0 0).wp hl₁.ready) fun c' hc' => ?_
    have hl := hl₁.trans hc'.1
    rw [hl₁.bytes] at hl
    have hnot : Reg.flags ∉ accessTemps ++ [Reg.temp0] := by decide
    have hall : Temps (accessTemps ++ [Reg.temp0]) := by decide
    have hsame : ∀ r : Reg, r.isArch = true → c'.arf r = c.arf r := fun r hr => by
      by_cases hf : r = Reg.flags
      · exact hf ▸ hl.arf _ hnot
      · exact hl.arch hall hr hf
    exact ⟨fun _ _ => ⟨hsame, hl.bytes⟩, fun hne => absurd h0 (hne.resolve_right (by rw [hcount]; exact nofun)),
      fun _ => hl.arf _ hnot, fun hne => absurd h0 hne⟩
  · next hne =>
    have hstores : insn.stores c = true := by
      unfold stores
      rw [decide_eq_true hne, Bool.true_or]
    rw [hstores] at hacc
    rw [← List.append_nil (insn.store pfx rip)]
    refine wp_shiftStore rest insn hacc hl₁ htemps (by decide) hload (.inl rfl) fun c' m cf o hwritten _ _ hset hcf => ?_
    exact Triples.wp_nil
      ⟨fun h0 => absurd h0 hne, fun _ => hwritten, fun h0 => absurd h0 hne, fun _ => ⟨o, hcf hne ▸ hset⟩⟩

/-- Of a count of zero the destination is made of itself. -/
theorem inserted_zero {w : ℕ} (right : Bool) (a b : BitVec w) : inserted right a b 0 = a := by
  have hout : b <<< w = 0 ∧ b >>> w = 0 := ⟨BitVec.shiftLeft_eq_zero (Nat.le_refl w), BitVec.ushiftRight_eq_zero (Nat.le_refl w)⟩
  unfold inserted
  rw [Nat.sub_zero, hout.1, hout.2, BitVec.shiftLeft_zero, BitVec.ushiftRight_zero]
  cases right <;> exact BitVec.or_zero

/-- **What the uops do**, of a count in `cl`. -/
theorem wp_decodeCl (rest : Synthop) (insn : DoubleShift) {c : SeqCore} (h : c.Ready)
    (himm : c.arflags (remap Reg.imm) = 0) (hacc : insn.rd.Accessible pfx rip c true) (hcount : insn.count = .cl) :
    Wp rest.withBranches.withShifts.withImpl (insn.decode pfx rip) (insn.Did pfx rip c) c := by
  obtain ⟨-, -, -, htemps⟩ := insn.rdreg_facts
  simp only [List.mem_cons, List.not_mem_nil, or_false, not_or] at htemps
  have hloads : Temps accessTemps := by decide
  have hprepares : Temps prepareTemps := by decide
  have hwide : opWidth insn.rd.sizeshift ≤ 64 := opWidth_le insn.rd.sizeshift_le
  have hlt := insn.taken_lt c
  have htaken : insn.taken c = (c.arf Reg.rcx).toNat % 2 ^ (3 + insn.rd.sizeshift) := by
    unfold taken
    rw [hcount]
  have hdecode : insn.decode pfx rip = insn.load pfx rip ++ (insn.prepare insn.rd.sizeshift ++
      (insn.shiftMask insn.rd.sizeshift none ++ (insn.store pfx rip ++ insn.restore))) := by
    unfold decode
    dsimp only
    rw [hcount]
    simp only [List.append_assoc]
  rw [hdecode]
  refine Triples.wp_append (Triples.wp_mono (wp_loadDest rest.withBranches.withShifts insn h hacc) ?_)
  rintro c₁ ⟨hl₁, hload⟩
  -- the count, the fields of the mask and the flags
  have hrcx : c₁.arf Reg.rcx = c.arf Reg.rcx := hl₁.arch hloads (by decide) (by decide)
  have himm₁ : c₁.arflags (remap Reg.imm) = 0 := (hl₁.arflags _ (by decide)).trans himm
  have hprepare := wp_prepare rest.withBranches insn insn.wide_facts.1 hl₁.ready himm₁
  dsimp only at hprepare
  rw [hrcx, ← htaken, hl₁.arf Reg.flags (by decide)] at hprepare
  refine Triples.wp_append (Triples.wp_mono hprepare ?_)
  rintro c₂ ⟨hl₂, hcounted, htemp2⟩
  have hkept : c₂.arf insn.rdreg = c₁.arf insn.rdreg := by
    refine hl₂.arf _ ?_
    simp only [prepareTemps, List.mem_cons, List.not_mem_nil, or_false, not_or]
    exact htemps
  have hl := hl₁.trans hl₂
  rw [hl₁.bytes] at hl
  have hall : Temps (accessTemps ++ prepareTemps) := by decide
  rw [← hkept] at hload
  have htemp0 : c₂.arf Reg.temp0 = BitVec.ofNat 64 (insn.taken c) := by
    rcases hcounted with hno | ⟨-, h0, -⟩
    · cases hno
    · exact h0
  -- the shift, the mask and the store
  refine wp_shiftStore rest.withBranches insn hacc hl hall (by decide) hload hcounted ?_
  intro c₃ m cf o hwritten hl₃ hfl hset hcf
  -- the flags
  have hnot : ∀ t ∈ [Reg.temp0, Reg.temp2], t ∉ [insn.rdreg, Reg.flags, Reg.temp6, Reg.temp8, Reg.temp9] := by
    have hothers : ∀ t ∈ [Reg.temp0, Reg.temp2], t ∉ [Reg.flags, Reg.temp6, Reg.temp8, Reg.temp9] := by decide
    intro t ht hmem
    rcases List.mem_cons.1 hmem with heq | hmem
    · simp only [List.mem_cons, List.not_mem_nil, or_false] at ht
      rcases ht with rfl | rfl
      · exact htemps.1 heq.symm
      · exact htemps.2.2 heq.symm
    · exact hothers t ht hmem
  have hinv : (c.arf Reg.flags).setWidth 16 &&& setflagsToX86Flags .default &&& FLAG_INV = 0 := by
    have hmask : setflagsToX86Flags .default &&& FLAG_INV = 0 := by decide
    rw [BitVec.and_assoc, hmask]
    exact BitVec.and_zero
  have hready : c₃.Ready := hl₃.ready
  refine Triples.wp_mono (wp_restore rest insn (lt_of_lt_of_le hlt hwide) hready
    ((hl₃.arf _ (hnot _ (by decide))).trans htemp0) ((hl₃.arflags _ (hnot _ (by decide))).trans htemp2) hfl
    ⟨hinv, Status.word_inv _⟩) ?_
  rintro c₄ ⟨hl₄, hflags⟩
  have hboth : Temps [Reg.temp0, Reg.flags] := by decide
  refine ⟨fun _ hne => absurd hcount hne, fun _ => written_leaves hwritten hl₄ hboth, fun h0 => ?_, fun hne => ⟨o, ?_⟩⟩
  · rw [if_pos h0] at hflags
    apply BitVec.eq_of_getLsbD_eq
    intro i hi
    rw [hflags i, hset i, BitVec.getLsbD_and, BitVec.getLsbD_setWidth]
    by_cases hmask : (setflagsToX86Flags .default).getLsbD i = true
    · have hlow : i < 16 := Nat.lt_of_not_le fun hge => by
        rw [BitVec.getLsbD_of_ge _ _ hge] at hmask
        cases hmask
      rw [if_pos hmask, hmask, decide_eq_true hlow, Bool.true_and, Bool.and_true]
    · rw [if_neg hmask, if_neg hmask]
  · rw [if_neg hne] at hflags
    rw [← hcf hne]
    exact FlagsSet.trans hset hflags

/-- **What the uops do.** -/
theorem wp_decode (rest : Synthop) (insn : DoubleShift) {c : SeqCore} (h : c.Ready)
    (himm : c.arflags (remap Reg.imm) = 0) (hacc : insn.rd.Accessible pfx rip c (insn.stores c)) :
    Wp rest.withBranches.withShifts.withImpl (insn.decode pfx rip) (insn.Did pfx rip c) c := by
  cases hcount : insn.count with
  | imm v => exact wp_decodeImm rest.withBranches insn h hacc hcount
  | cl =>
    have hstores : insn.stores c = true := by
      unfold stores
      rw [hcount, decide_eq_true rfl, Bool.or_true]
    exact wp_decodeCl rest insn h himm (hstores ▸ hacc) hcount

/-- A destination that may not be accessed as the uops do is not. -/
theorem not_wp_decode (rest : Synthop) (insn : DoubleShift) {c : SeqCore} (h : c.Ready)
    (himm : c.arflags (remap Reg.imm) = 0) (hctx : insn.rd.X86Accessible pfx rip c true)
    (hno : ¬insn.rd.Accessible pfx rip c (insn.stores c)) {Q : SeqCore → Prop} :
    ¬Wp rest.withBranches.withShifts.withImpl (insn.decode pfx rip) Q c := by
  have hnonempty : Nonempty (ℕ → Sfr) := ⟨fun _ => Frame.Sfr.zero⟩
  obtain ⟨o, size, hd, hhost⟩ : ∃ o size, insn.rd = .mem o size ∧ HostCtx c := by
    cases hd : insn.rd with
    | reg p =>
      rw [hd] at hno
      exact absurd trivial hno
    | mem o size =>
      rw [hd] at hctx
      exact ⟨o, size, rfl, hctx.1⟩
  have hload : insn.load pfx rip = operandLoad pfx rip Reg.temp4 (o.memRef size) .opLd := by
    unfold load
    rw [hd]
  have hsplit : insn.rd.Accessible pfx rip c (insn.stores c) ↔ X86Sim.Accessible c false (Operand.address pfx c rip o) size ∧
      (insn.stores c = true → X86Sim.Accessible c true (Operand.address pfx c rip o) size) := by
    rw [hd]
    exact and_iff_right hhost
  by_cases hok : X86Sim.Accessible c false (Operand.address pfx c rip o) size
  · -- it is the store that is refused
    have hstore : insn.stores c = true ∧ ¬X86Sim.Accessible c true (Operand.address pfx c rip o) size := by
      by_contra hall
      exact hno (hsplit.2 ⟨hok, fun hst => by_contra fun hnot => hall ⟨hst, hnot⟩⟩)
    have hacc : insn.rd.Accessible pfx rip c false := by
      rw [hd]
      exact ⟨hhost, hok, fun hst => Bool.noConfusion hst⟩
    have hloads : Temps accessTemps := by decide
    unfold decode
    dsimp only
    cases hcount : insn.count with
    | imm v =>
      have htaken : insn.taken c = v.toNat % 2 ^ (3 + insn.rd.sizeshift) := by
        unfold taken
        rw [hcount]
      -- a shift by 0 is decoded to nothing that stores
      have hne : v.toNat % 2 ^ (3 + insn.rd.sizeshift) ≠ 0 := by
        rw [← htaken]
        intro h0
        have hst := hstore.1
        have hno : ¬(ShiftCount.imm v = .cl) := nofun
        unfold stores at hst
        rw [hcount, h0] at hst
        simp [hno] at hst
      dsimp only
      rw [if_neg hne, ← htaken]
      refine Triples.not_wp_append (wp_loadDest rest.withBranches.withShifts insn h hacc) ?_
      rintro c₁ ⟨hl₁, -⟩
      rw [← List.append_nil (insn.store pfx rip)]
      exact not_wp_shiftStore rest.withBranches insn hd hhost hstore.2 hl₁ hloads (.inl rfl)
    | cl =>
      have htaken : insn.taken c = (c.arf Reg.rcx).toNat % 2 ^ (3 + insn.rd.sizeshift) := by
        unfold taken
        rw [hcount]
      dsimp only
      simp only [List.append_assoc]
      refine Triples.not_wp_append (wp_loadDest rest.withBranches.withShifts insn h hacc) ?_
      rintro c₁ ⟨hl₁, -⟩
      have hrcx : c₁.arf Reg.rcx = c.arf Reg.rcx := hl₁.arch hloads (by decide) (by decide)
      have himm₁ : c₁.arflags (remap Reg.imm) = 0 := (hl₁.arflags _ (by decide)).trans himm
      have hprepare := wp_prepare rest.withBranches insn insn.wide_facts.1 hl₁.ready himm₁
      dsimp only at hprepare
      rw [hrcx, ← htaken] at hprepare
      refine Triples.not_wp_append hprepare ?_
      rintro c₂ ⟨hl₂, hcounted, -⟩
      have hl := hl₁.trans hl₂
      rw [hl₁.bytes] at hl
      exact not_wp_shiftStore rest.withBranches insn hd hhost hstore.2 hl (by decide) hcounted
  · unfold decode
    dsimp only
    rw [hload]
    exact not_wp_loadOperand pfx rip Reg.temp4 o size _ h hhost true (show isload .opLd = true by decide)
      (Nat.le_of_lt_succ size.isLt) ⟨by decide, by decide, by decide⟩ _ hok

/-! ### What is written -/

/-- The bytes loaded, stored again. -/
theorem storeBytewise_loadBytes (m : ℕ → Byte) (a : ℕ) {size : ℕ} (hsize : size ≤ 3) :
    storeBytewise a ((loadBytes m a size).setWidth 64) m (2 ^ size) = m := by
  have hpos := opWidth_pos size
  have hbit := BitInsn.loadBytes_bit m a hsize hpos
  have hset := BitInsn.storeBytewise_setBit m a hsize hpos ((loadBytes m a size).getLsbD 0)
  rw [(BitStrings.setBit_eq_self hpos).2 rfl] at hset
  rw [hset, hbit]
  exact (BitStrings.setBitAt_eq_self (show 0 % 8 < 8 by decide)).2 rfl

/-- A register of 16 bits or more, and its own value written to it. -/
theorem write_read {p : Apr} (hlow : p.hibyte = false) (hwide : p.sizeshift ≠ 0) (v : W64) :
    p.write v (p.read v) = v ↔ ∀ r, p = .d r → v >>> 32 = 0 := by
  rw [Apr.write_eq p hlow, ImulInsn.read_of_low hlow, x86Merge_trunc p.sizeshift_le]
  cases p with
  | hi r => cases hlow
  | b r => exact absurd rfl hwide
  | q r => exact ⟨fun _ _ h => Apr.noConfusion h, fun _ => rfl⟩
  | w r =>
    refine ⟨fun _ _ h => Apr.noConfusion h, fun _ => ?_⟩
    apply BitVec.eq_of_getLsbD_eq
    intro i _
    rw [x86Merge_bit (show (Apr.w r).sizeshift ≤ 1 from Nat.le_refl 1)]
    split <;> rfl
  | d r =>
    have hmerge : x86Merge (Apr.d r).sizeshift v v = (v.setWidth 32).setWidth 64 := and_allOnes_setWidth 32 v
    rw [hmerge, BitInsn.upper_zero]
    constructor
    · intro h _ _ i hi
      by_cases h64 : i < 64
      · rw [← h, trunc32_bit _ h64, decide_eq_false (Nat.not_lt.2 hi), Bool.false_and]
      · exact BitVec.getLsbD_of_ge _ _ (Nat.le_of_not_lt h64)
    · intro h
      apply BitVec.eq_of_getLsbD_eq
      intro i hi
      rw [trunc32_bit _ hi]
      by_cases h32 : i < 32
      · rw [decide_eq_true h32, Bool.true_and]
      · rw [decide_eq_false h32, Bool.false_and, h r rfl i (Nat.le_of_not_lt h32)]

/-- One word is stored at an address. -/
theorem storeBytewise_word_inj {a : ℕ} {m : ℕ → Byte} {size : ℕ} (hsize : size ≤ 3) {v v' : BitVec (opWidth size)}
    (h : storeBytewise a (v.setWidth 64) m (2 ^ size) = storeBytewise a (v'.setWidth 64) m (2 ^ size)) : v = v' := by
  have hpow : 2 ^ size ≤ 2 ^ 3 := Nat.pow_le_pow_right (by decide) hsize
  apply BitVec.eq_of_getLsbD_eq
  intro i hi
  have hi : i < 8 * 2 ^ size := hi
  have hin : i / 8 < 2 ^ size := by omega
  have hbyte := congrFun h (byteAddr a (i / 8))
  rw [storeBytewise_byte hin (by omega), storeBytewise_byte hin (by omega)] at hbyte
  have hbit : ∀ x : BitVec (opWidth size), x.getLsbD i = (x.setWidth 64).getLsbD i := fun x => by
    rw [BitVec.getLsbD_setWidth, decide_eq_true (show i < 64 by omega), Bool.true_and]
  have hboth := congrArg (fun x => x.getLsbD (i % 8)) hbyte
  rw [← BitInsn.byteAt_bit, ← BitInsn.byteAt_bit] at hboth
  exact (hbit v).trans (hboth.trans (hbit v').symm)

/-- To store what was loaded is to store what is there just if that is stored. -/
theorem sameWrite_value_iff (d : Operand) (c : SeqCore) (v : BitVec (opWidth d.sizeshift)) :
    d.SameWrite pfx rip c (d.value pfx rip c) v ↔ d.x86Value pfx rip c = v := by
  cases d with
  | reg p => exact Iff.rfl
  | mem o size =>
    have hsize : size.val ≤ 3 := Nat.le_of_lt_succ size.isLt
    have hloaded := storeBytewise_loadBytes c.space.bytes (Operand.address pfx c rip o) hsize
    have hthere := storeBytewise_loadBytes c.space.bytes (Operand.effective pfx rip c o) hsize
    constructor
    · intro h
      exact storeBytewise_word_inj hsize (hthere.trans (hloaded.symm.trans h))
    · rintro rfl
      exact hloaded.trans hthere.symm

/-- A destination written its own value is unchanged, the upper half of a 32-bit register apart. -/
theorem written_value (insn : DoubleShift) {c c' : SeqCore} (hw : insn.rd.Written pfx rip c (insn.rd.value pfx rip c) c')
    (hflags : c'.arf Reg.flags = c.arf Reg.flags) :
    ((∀ r : Reg, r.isArch = true → c'.arf r = c.arf r) ∧ c'.space.bytes = c.space.bytes) ↔
      ∀ r, insn.rd = .reg (.d r) → c.arf (r.castLE (by decide)) >>> 32 = 0 := by
  have hlow := insn.wide_facts.2
  obtain ⟨right, d, ra, count, wide⟩ := insn
  cases d with
  | reg p =>
    have harch : p.arch.isArch = true := decide_eq_true (lt_trans p.arch_lt (by decide))
    have hne : p.arch ≠ Reg.flags := p.arch_ne (by decide)
    have hp := hw.1 p.arch harch hne
    rw [if_pos rfl] at hp
    have hiff := write_read (hlow p rfl) wide (c.arf p.arch)
    constructor
    · rintro ⟨hsame, -⟩ r hr
      obtain rfl : p = .d r := Operand.reg.inj hr
      exact hiff.1 (hp.symm.trans (hsame _ harch)) r rfl
    · intro hzero
      refine ⟨fun r hr => ?_, hw.2⟩
      by_cases hf : r = Reg.flags
      · exact hf ▸ hflags
      · by_cases heq : r = p.arch
        · subst heq
          refine hp.trans (hiff.2 fun r hr => ?_)
          have hr' := hzero r (congrArg Operand.reg hr)
          subst hr
          exact hr'
        · rw [hw.1 r hr hf, if_neg heq]
  | mem o size =>
    refine ⟨fun _ r hr => Operand.noConfusion hr, fun _ => ⟨fun r hr => ?_, ?_⟩⟩
    · by_cases hf : r = Reg.flags
      · exact hf ▸ hflags
      · exact hw.1 r hr hf
    · exact hw.2.trans (storeBytewise_loadBytes _ _ (Nat.le_of_lt_succ size.isLt))

/-! ### When it is right -/

/-- The double shift is the two parts. -/
theorem shifted_eq {w : ℕ} (right : Bool) (a b : BitVec w) {k : ℕ} (hk : k ≤ w) :
    shifted right a b k = inserted right a b k := by
  cases right with
  | true => exact shifted_right a b hk
  | false => exact shifted_left a b hk

/-- The bits of the source that come in. -/
def coming {w : ℕ} (right : Bool) (b : BitVec w) (k : ℕ) : BitVec w := if right then b <<< (w - k) else b >>> (w - k)

/-- Two sources make the same of a destination if the bits that come in are the same. -/
theorem inserted_inj {w : ℕ} (right : Bool) (a b b' : BitVec w) {k : ℕ} (hk : k ≤ w) :
    inserted right a b k = inserted right a b' k ↔ coming right b k = coming right b' k := by
  have hparts : ∀ x, inserted right a x k = partShifted right a k ||| coming right x k := fun x => by
    unfold inserted partShifted coming
    cases right <;> rfl
  -- of each bit, one part is zero
  have hdisjoint : ∀ i < w, (partShifted right a k).getLsbD i = false ∨ ∀ x : BitVec w, (coming right x k).getLsbD i = false := by
    intro i hi
    unfold partShifted coming
    cases right with
    | true =>
      by_cases hlow : i < w - k
      · refine .inr fun x => ?_
        rw [if_pos rfl, BitVec.getLsbD_shiftLeft, decide_eq_true hlow, Bool.not_true, Bool.and_false, Bool.false_and]
      · refine .inl ?_
        rw [if_pos rfl, BitVec.getLsbD_ushiftRight, BitVec.getLsbD_of_ge a _ (by omega)]
    | false =>
      by_cases hlow : i < k
      · refine .inl ?_
        rw [if_neg Bool.false_ne_true, BitVec.getLsbD_shiftLeft, decide_eq_true hlow, Bool.not_true, Bool.and_false,
          Bool.false_and]
      · refine .inr fun x => ?_
        rw [if_neg Bool.false_ne_true, BitVec.getLsbD_ushiftRight, BitVec.getLsbD_of_ge x _ (by omega)]
  rw [hparts, hparts]
  constructor
  · intro h
    apply BitVec.eq_of_getLsbD_eq
    intro i hi
    rcases hdisjoint i hi with hzero | hzero
    · have hbit := congrArg (fun x => x.getLsbD i) h
      simpa only [BitVec.getLsbD_or, hzero, Bool.false_or] using hbit
    · rw [hzero, hzero]
  · intro h
    rw [h]

/-- The flags say what the result is. -/
theorem describes_of_status {w : ℕ} {v : BitVec w} {cf o : Bool} {c c' : SeqCore}
    (h : FlagsSet .default (statusOf v cf o).word c c') : Describes (c'.arf Reg.flags) cf v := by
  have hbit : ∀ i ∈ [0, 2, 6, 7], (c'.arf Reg.flags).getLsbD i = (statusOf v cf o).word.getLsbD i := by
    have hmask : ∀ i ∈ [0, 2, 6, 7], (setflagsToX86Flags .default).getLsbD i = true := by decide
    intro i hi
    rw [h i, if_pos (hmask i hi)]
  refine ⟨?_, ?_, ?_, ?_⟩
  · rw [hbit 0 (by decide), Status.word_bit]
    rfl
  · rw [hbit 7 (by decide), Status.word_bit]
    rfl
  · rw [hbit 6 (by decide), Status.word_bit]
    rfl
  · rw [hbit 2 (by decide), Status.word_bit]
    rfl

/-- No other flag changes. -/
theorem others_kept {insn : DoubleShift} {c c' : SeqCore} (h : insn.Did pfx rip c c') :
    ∀ i ∉ [0, 2, 4, 6, 7, 11], (c'.arf Reg.flags).getLsbD i = (c.arf Reg.flags).getLsbD i := by
  intro i hi
  by_cases h0 : insn.taken c = 0
  · rw [h.flags h0]
  · obtain ⟨o, hset⟩ := h.status h0
    rw [hset i, AluInsn.mask_bit]
    simp only [List.mem_cons, List.not_mem_nil, or_false, not_or] at hi
    obtain ⟨h0, h2, h4, h6, h7, h11⟩ := hi
    rw [if_neg]
    split <;> simp_all

/-- The count that x86 takes, and that the uops take. -/
theorem count_cases (insn : DoubleShift) (c : SeqCore) :
    let n := insn.masked c
    let w := opWidth insn.rd.sizeshift
    let k := insn.taken c
    (n < w ∧ k = n) ∨ (n = w ∧ k = 0 ∧ insn.rd.sizeshift = 1) ∨ (w < n ∧ k ≠ 0) := by
  intro n w k
  obtain ⟨v, hv⟩ : ∃ v : ℕ, v = (match insn.count with | .imm v => v | .cl => c.arf Reg.rcx).toNat := ⟨_, rfl⟩
  have hn : n = v % if insn.rd.sizeshift = 3 then 64 else 32 := by rw [hv]; rfl
  have hk : k = v % 2 ^ (3 + insn.rd.sizeshift) := by rw [hv]; rfl
  have hw : w = 8 * 2 ^ insn.rd.sizeshift := rfl
  have hsize := insn.wide_facts.1
  simp only [List.mem_cons, List.not_mem_nil, or_false] at hsize
  rcases hsize with h | h | h <;> rw [h] at hn hk hw <;> norm_num at hn hk hw <;> omega

/-- What the uops make of the destination is the double shift, unless the source is the destination and its
bits come in shifted. -/
theorem made_eq_iff (insn : DoubleShift) (c : SeqCore) {n : ℕ} (hn : insn.taken c = n) (hlt : n ≤ opWidth insn.rd.sizeshift) :
    insn.made pfx rip c = insn.result c (insn.rd.value pfx rip c) n ↔ insn.SourceKept pfx rip c n := by
  suffices hsuff : let a := insn.rd.value pfx rip c
      let w := opWidth insn.rd.sizeshift
      insn.made pfx rip c = shifted insn.right a (insn.source c) n ↔ ∀ p, insn.rd = .reg p → p.arch = insn.rareg →
        if insn.right then (a >>> n) <<< (w - n) = a <<< (w - n) else (a <<< n) >>> (w - n) = a >>> (w - n) from hsuff
  intro a w
  have hlow := insn.wide_facts.2
  have hcoming : ∀ b, b = a → (coming insn.right (partShifted insn.right a n) n = coming insn.right b n ↔
      if insn.right then (a >>> n) <<< (w - n) = a <<< (w - n) else (a <<< n) >>> (w - n) = a >>> (w - n)) := by
    rintro b rfl
    unfold coming partShifted
    cases insn.right <;> exact Iff.rfl
  unfold made
  dsimp only
  rw [hn, shifted_eq _ _ _ hlt]
  show inserted insn.right a (insn.sourceThen a (insn.source c) n) n = inserted insn.right a (insn.source c) n ↔ _
  unfold sourceThen
  by_cases hsame : insn.rareg = insn.rdreg
  · rw [if_pos hsame, inserted_inj _ _ _ _ hlt]
    -- a destination in memory is in a temporary
    obtain ⟨p, hp⟩ : ∃ p, insn.rd = .reg p := by
      unfold rdreg at hsame
      cases hd : insn.rd with
      | reg p => exact ⟨p, rfl⟩
      | mem o size =>
        rw [hd] at hsame
        have hno : ∀ r : Fin 16, (r.castLE (by decide) : Reg) ≠ Reg.temp4 := by decide
        exact absurd hsame (hno insn.ra)
    have harch : p.arch = insn.rareg := by
      rw [hsame, rdreg, hp]
    have hvalue : insn.source c = a := by
      have hread : ∀ d : Operand, d = .reg p → d.value pfx rip c = (c.arf p.arch).setWidth (opWidth d.sizeshift) := by
        rintro d rfl
        exact ImulInsn.read_of_low (hlow p hp) _
      show (c.arf insn.rareg).setWidth _ = _
      rw [← harch]
      exact (hread _ hp).symm
    rw [hcoming _ hvalue]
    exact ⟨fun h _ _ _ => h, fun h => h p hp harch⟩
  · rw [if_neg hsame]
    refine ⟨fun _ p hp harch => absurd ?_ hsame, fun _ => rfl⟩
    rw [← harch, rdreg, hp]

/-- Of a count of zero, in `cl` or of as many bits as the operand, its own value is written to the destination. -/
theorem written_same (insn : DoubleShift) {c c' : SeqCore} (h : insn.Did pfx rip c c') (h0 : insn.taken c = 0)
    (hwhich : insn.count = .cl ∨ insn.rd.sizeshift = 1) :
    insn.rd.Written pfx rip c (insn.rd.value pfx rip c) c' := by
  have hmade : insn.made pfx rip c = insn.rd.value pfx rip c := by
    unfold made
    dsimp only
    rw [h0, inserted_zero]
  by_cases hcl : insn.count = .cl
  · exact hmade ▸ h.written (.inr hcl)
  · obtain ⟨hregs, hbytes⟩ := h.still h0 hcl
    have h1 := hwhich.resolve_left hcl
    have hlow := insn.wide_facts.2
    obtain ⟨right, d, ra, count, wide⟩ := insn
    cases d with
    | reg p =>
      refine ⟨fun r hr hf => ?_, hbytes⟩
      rw [hregs r hr]
      split
      · next heq =>
        subst heq
        refine ((write_read (hlow p rfl) wide _).2 fun r hr => ?_).symm
        subst hr
        cases h1
      · rfl
    | mem o size =>
      exact ⟨fun r hr _ => hregs r hr, hbytes.trans (storeBytewise_loadBytes _ _ (Nat.le_of_lt_succ size.isLt)).symm⟩

/-- A register is what is loaded of it, and one value is written to it. -/
theorem register_value (pfx : Prefixes) (rip : W64) {d : Operand} {p : Apr} (hp : d = .reg p) (c : SeqCore) :
    d.x86Value pfx rip c = d.value pfx rip c ∧ ∀ v v', d.SameWrite pfx rip c v v' ↔ v = v' := by
  subst hp
  exact ⟨rfl, fun v v' => Iff.rfl⟩

/-- A source that is not kept is the destination. -/
theorem register_of_not_kept {insn : DoubleShift} {c : SeqCore} {n : ℕ} (h : ¬insn.SourceKept pfx rip c n) :
    ∃ p, insn.rd = .reg p := by
  by_contra hno
  exact h fun p hp => absurd ⟨p, hp⟩ hno

/-- The flags say one thing. -/
theorem describes_iff {w : ℕ} {flags : W64} {cf cf' : Bool} {v v' : BitVec w} (h : Describes flags cf v) :
    Describes flags cf' v' ↔ cf = cf' ∧ SameStatus v v' := by
  obtain ⟨h0, h7, h6, h2⟩ := h
  unfold Describes SameStatus
  rw [h0, h7, h6, h2]

/-- Of a count less than the operand, the uops have done what x86 says just if they write it and keep the source. -/
theorem within_iff (insn : DoubleShift) {c c' : SeqCore} (h : insn.Did pfx rip c c') (h0 : insn.masked c ≠ 0)
    (hlt : insn.masked c < opWidth insn.rd.sizeshift) (hk : insn.taken c = insn.masked c) :
    insn.Right pfx rip c c' ↔ insn.SameShift pfx rip c (insn.masked c) ∧ insn.SourceKept pfx rip c (insn.masked c) := by
  have hne : insn.taken c ≠ 0 := fun hz => h0 (hk.symm.trans hz)
  have hwritten := h.written (.inl hne)
  obtain ⟨o, hset⟩ := h.status hne
  rw [hk] at hset
  have hright : insn.Right pfx rip c c' ↔
      insn.rd.SameWrite pfx rip c (insn.made pfx rip c) (insn.result c (insn.rd.x86Value pfx rip c) (insn.masked c)) ∧
        carryOut insn.right (insn.rd.value pfx rip c) (insn.masked c) =
          carryOut insn.right (insn.rd.x86Value pfx rip c) (insn.masked c) ∧
        SameStatus (insn.made pfx rip c) (insn.result c (insn.rd.x86Value pfx rip c) (insn.masked c)) := by
    rw [← hwritten.x86_iff, ← describes_iff (describes_of_status hset)]
    exact ⟨fun hright => hright.result (Nat.pos_of_ne_zero h0) (Nat.le_of_lt hlt),
      fun hdone => ⟨fun hz => absurd hz h0, fun _ _ => hdone, fun hbig => by omega, others_kept h⟩⟩
  have hmade := @made_eq_iff pfx rip insn c _ hk (Nat.le_of_lt hlt)
  rw [hright]
  by_cases hsource : insn.SourceKept pfx rip c (insn.masked c)
  · rw [hmade.2 hsource]
    exact (and_iff_left hsource).symm
  · -- the destination is a register, and what is made of it is not the double shift
    obtain ⟨p, hp⟩ := register_of_not_kept hsource
    obtain ⟨hvalue, hsame⟩ := register_value pfx rip hp c
    refine iff_of_false (fun hand => hsource (hmade.1 ?_)) fun hand => hsource hand.2
    rw [← hvalue]
    exact (hsame _ _).1 hand.1

/-- The uops have done what x86 says just if the condition holds. -/
theorem right_iff_of_did (insn : DoubleShift) {c c' : SeqCore} (h : insn.Did pfx rip c c')
    (hacc : insn.rd.Accessible pfx rip c (insn.stores c)) : insn.Right pfx rip c c' ↔ insn.Exact pfx rip c := by
  have hothers := others_kept h
  have hpos := opWidth_pos insn.rd.sizeshift
  unfold Exact
  rw [and_iff_right hacc]
  dsimp only
  -- the count is below the width, of a word exactly the width, or beyond it, where x86 leaves the result open
  rcases insn.count_cases c with ⟨hlt, hk⟩ | ⟨heq, h0, h1⟩ | ⟨hgt, hk⟩
  · by_cases h0 : insn.masked c = 0
    · rw [if_pos h0]
      have hkept := h.flags (hk.trans h0)
      constructor
      · intro hright hcl
        exact (written_value insn (written_same insn h (hk.trans h0) (.inl hcl)) hkept).1 (hright.none h0)
      · intro hzero
        refine ⟨fun _ => ?_, fun hpos => absurd h0 (Nat.pos_iff_ne_zero.1 hpos), fun hbig => by omega, hothers⟩
        by_cases hcl : insn.count = .cl
        · exact (written_value insn (written_same insn h (hk.trans h0) (.inl hcl)) hkept).2 (hzero hcl)
        · exact h.still (hk.trans h0) hcl
    · rw [if_neg h0, if_neg (Nat.ne_of_lt hlt), if_pos hlt]
      exact within_iff insn h h0 hlt hk
  · -- of sixteen bits, as many
    rw [if_neg (by omega), if_pos heq]
    have hkept := h.flags h0
    have hwritten := written_same insn h h0 (.inr h1)
    have hresult : ∀ v, insn.result c v (insn.masked c) = insn.source c := by
      intro v
      unfold result
      rw [heq, shifted_eq _ _ _ (Nat.le_refl _)]
      unfold inserted
      rw [Nat.sub_self, BitVec.shiftLeft_zero, BitVec.ushiftRight_zero, BitVec.shiftLeft_eq_zero (Nat.le_refl _),
        BitVec.ushiftRight_eq_zero (Nat.le_refl _)]
      cases insn.right <;> exact BitVec.zero_or
    have hsource : insn.rd.X86Written pfx rip c (insn.source c) c' ↔ insn.rd.x86Value pfx rip c = insn.source c :=
      hwritten.x86_iff.trans (sameWrite_value_iff _ c _)
    constructor
    · intro hright
      have hdone := hright.result (by omega) (Nat.le_of_eq heq)
      rw [hresult, hkept, hsource] at hdone
      exact ⟨hdone.1, hdone.1 ▸ hdone.2⟩
    · rintro ⟨hsame, hdescribes⟩
      refine ⟨fun hz => by omega, fun _ _ => ?_, fun hbig => by omega, hothers⟩
      rw [hresult, hkept, hsource, ← hsame]
      exact ⟨rfl, hdescribes⟩
  · rw [if_neg (by omega), if_neg (Nat.ne_of_gt hgt), if_neg (Nat.lt_asymm hgt)]
    have hwritten := h.written (.inl hk)
    have hany : (∃ v, insn.rd.X86Written pfx rip c v c') ↔ ∃ v, insn.rd.SameWrite pfx rip c (insn.made pfx rip c) v :=
      exists_congr fun v => hwritten.x86_iff
    have hright : insn.Right pfx rip c c' ↔ ∃ v, insn.rd.X86Written pfx rip c v c' :=
      ⟨fun hright => hright.beyond hgt,
        fun hdone => ⟨fun hz => by omega, fun _ hle => absurd hle (Nat.not_le.2 hgt), fun _ => hdone, hothers⟩⟩
    rw [hright, hany]
    have hmade := @made_eq_iff pfx rip insn c _ rfl (Nat.le_of_lt (insn.taken_lt c))
    by_cases hsource : insn.SourceKept pfx rip c (insn.taken c)
    · rw [hmade.2 hsource]
    · obtain ⟨p, hp⟩ := register_of_not_kept hsource
      have hsame := (register_value pfx rip hp c).2
      exact iff_of_true ⟨_, (hsame _ _).2 rfl⟩ ⟨_, (hsame _ _).2 rfl⟩

theorem remap_imm : remap Reg.imm = Reg.imm := by decide

/-- **Double shifts do what x86 says, exactly** when the uops write what x86 does, a source that is the
destination brings in the same bits shifted, a count of as many bits as a word has nothing to do, and a count of zero
in `cl` clears nothing. -/
theorem double_right_iff (rest : Synthop) (insn : DoubleShift) (pfx : Prefixes) (rip : W64) (c : SeqCore) (h : c.Ready)
    (himm : c.arflags Reg.imm = 0) (hacc : insn.rd.X86Accessible pfx rip c true) :
    Wp rest.withBranches.withShifts.withImpl (insn.decode pfx rip) (insn.Right pfx rip c) c ↔ insn.Exact pfx rip c := by
  have hnonempty : Nonempty (ℕ → Sfr) := ⟨fun _ => Frame.Sfr.zero⟩
  by_cases hok : insn.rd.Accessible pfx rip c (insn.stores c)
  · exact Triples.wp_iff (wp_decode rest insn h (remap_imm ▸ himm) hok) fun _ hdid => right_iff_of_did insn hdid hok
  · exact iff_of_false (not_wp_decode rest insn h (remap_imm ▸ himm) hacc hok) fun hexact => hok hexact.1

/-- Where the uops access what x86 does, the condition is on the count and the source. -/
theorem exact_iff (insn : DoubleShift) {c : SeqCore} (hagree : insn.rd.Agrees pfx rip c)
    (hacc : insn.rd.X86Accessible pfx rip c true) : insn.Exact pfx rip c ↔
    let n := insn.masked c
    let w := opWidth insn.rd.sizeshift
    let a := insn.rd.x86Value pfx rip c
    if n = 0 then insn.count = .cl → ∀ r, insn.rd = .reg (.d r) → c.arf (r.castLE sixteen_le_regs) >>> 32 = 0
    else if n = w then a = insn.source c ∧ Describes (c.arf Reg.flags) (carryOut insn.right a n) a
    else n < w → insn.SourceKept pfx rip c n := by
  have hok : insn.rd.Accessible pfx rip c (insn.stores c) := by
    have hall := hagree.accessible.2 hacc
    unfold Operand.Accessible at hall ⊢
    cases hd : insn.rd with
    | reg p => trivial
    | mem o size =>
      rw [hd] at hall
      exact ⟨hall.1, hall.2.1, fun _ => hall.2.2 rfl⟩
  unfold Exact SameShift
  rw [and_iff_right hok]
  dsimp only
  rw [hagree.value]
  split
  · exact Iff.rfl
  split
  · exact Iff.rfl
  split
  · rename_i hlt
    exact ⟨fun hand _ => hand.2, fun hkept => ⟨⟨hagree.sameWrite _, rfl, rfl, rfl, rfl⟩, hkept hlt⟩⟩
  · rename_i hge
    exact iff_of_true ⟨_, hagree.sameWrite _⟩ fun hlt => absurd hlt hge

/-- `shld eax, ebx, 4`. -/
def shldFour : DoubleShift := ⟨false, .reg (.d 0), 3, .imm 4, by decide⟩

theorem double_right_iff_shld : Wp (Synthop.withBranches fun _ _ => ⟨0, 0⟩).withShifts.withImpl (shldFour.decode .plain 0)
    (shldFour.Right .plain 0 (AluInsn.core fun r => if r = Reg.rax then 0x80000001 else if r = Reg.rbx then 0xa0000000 else 0))
    (AluInsn.core fun r => if r = Reg.rax then 0x80000001 else if r = Reg.rbx then 0xa0000000 else 0) := by
  have hready : (AluInsn.core fun r => if r = Reg.rax then 0x80000001 else if r = Reg.rbx then 0xa0000000 else 0).Ready :=
    ⟨by decide +kernel, by decide +kernel, by decide +kernel, by decide +kernel⟩
  refine (double_right_iff (fun _ _ => ⟨0, 0⟩) shldFour .plain 0 _ hready (by decide +kernel) trivial).2
    ((exact_iff shldFour trivial trivial).2 ?_)
  have hcount : shldFour.masked (AluInsn.core fun r => if r = Reg.rax then 0x80000001 else if r = Reg.rbx then 0xa0000000 else 0) =
      4 := by decide +kernel
  dsimp only
  rw [hcount, if_neg (by decide), if_neg (by decide)]
  intro _ p hp harch
  obtain rfl : (.d 0 : Apr) = p := Operand.reg.inj hp
  exact absurd harch (by decide)

/-- `shld ax, bx, 16`. -/
def shldSixteen : DoubleShift := ⟨false, .reg (.w 0), 3, .imm 16, by decide⟩

/-- It leaves the destination, which is to be the source. -/
theorem not_double_right : ¬ ∀ (rest : Synthop) (insn : DoubleShift) (pfx : Prefixes) (rip : W64) (c : SeqCore), c.Ready →
    c.arflags Reg.imm = 0 → insn.rd.X86Accessible pfx rip c true →
    Wp rest.withBranches.withShifts.withImpl (insn.decode pfx rip) (insn.Right pfx rip c) c := by
  intro h
  let c := AluInsn.core fun r => if r = Reg.rbx then 1 else 0
  have hready : c.Ready := ⟨by decide +kernel, by decide +kernel, by decide +kernel, by decide +kernel⟩
  have hcount : shldSixteen.masked c = 16 := by decide +kernel
  obtain ⟨c', hrun, hright⟩ := h (fun _ _ => ⟨0, 0⟩) shldSixteen .plain 0 c hready (by decide +kernel) trivial fun _ _ =>
    Frame.Sfr.zero
  have hvalue : (perform (Synthop.withBranches fun _ _ => ⟨0, 0⟩).withShifts.withImpl (shldSixteen.decode .plain 0)
      (fun _ _ => Frame.Sfr.zero) c).toOption.map (fun c => c.arf Reg.rax) = some 0 := by
    decide +kernel
  have hdone : perform (Synthop.withBranches fun _ _ => ⟨0, 0⟩).withShifts.withImpl (shldSixteen.decode .plain 0)
      (fun _ _ => Frame.Sfr.zero) c = .ok c' := hrun
  rw [hdone] at hvalue
  have hrax : c'.arf Reg.rax = 0 := Option.some.inj hvalue
  have hresult : (Apr.w 0).write (c.arf Reg.rax) (shldSixteen.result c (shldSixteen.rd.x86Value .plain 0 c) (shldSixteen.masked c)) = 1 := by decide +kernel
  obtain ⟨⟨hregs, -⟩, -⟩ := hright.result (by omega) (by rw [hcount]; decide)
  have hwritten := hregs Reg.rax (by decide) (by decide)
  rw [if_pos (by decide), hrax] at hwritten
  exact absurd (hwritten.trans hresult) (by decide)

end DoubleShift

end X86Sim
