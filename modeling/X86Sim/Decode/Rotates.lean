import X86Sim.Decode.AluMem
import X86Sim.Uops.Shifts

/-!
# Shift and rotate instructions (`decode-fast.cpp`)

`decode_fast` picks the uop of a shift and the flags it sets: of a constant count by
the count, of one in `cl` all of them, which a `collcc` before it hands on. What the
rotates make of this is compared with x86.
-/

namespace X86Sim

open X86Sim.Seq X86Sim.Seq.SeqCore

/-- The count of a shift: a byte immediate or the implied 1, or `cl`. -/
inductive ShiftCount
  | imm (imm : W64) | cl
  deriving DecidableEq

def SIMPLE_SHIFT_LIMIT : ℕ := 8

/-- The `translate_opcode` of the shifts, by `modrm.reg`. -/
def shiftOpcode : Fin 8 → Opcode
  | 0 => .opRotl | 1 => .opRotr | 2 => .opRotcl | 3 => .opRotcr
  | 4 => .opShl | 5 => .opShr | 6 => .opShl | 7 => .opSar

/-- `translate_simple_opcode`. -/
def shiftSimpleOpcode : Fin 8 → Opcode
  | 4 => .opShls | 5 => .opShrs | 6 => .opShls | 7 => .opSars | _ => .opNop

namespace TransOp

/-- The `collcc` before a shift by `cl`. -/
def collectForShift : TransOp :=
  { init .opCollcc Reg.temp5 Reg.zf Reg.cf Reg.of 3 0 0 .default with nouserflags := true }

end TransOp

/-- `bits` of an immediate count: six of a quadword, five otherwise. -/
def shiftImm (size : ℕ) (imm : W64) : W64 := imm &&& if size = 3 then 0x3f else 0x1f

/-- The count as an operand. The bits are taken of `ra` whatever it holds: the number of `cl`
(49) turns into that of `ecx` (17), but for a quadword. -/
def ShiftCount.operand (size : ℕ) : ShiftCount → RegImm
  | imm v => .imm (shiftImm size v)
  | cl => .reg (if size = 3 then .b 1 else .d 1)

/-- `setflags` of a shift. -/
def shiftSetflags (size : ℕ) (isrot : Bool) : ShiftCount → SetFlags
  | .cl => .default
  | .imm v =>
    if shiftImm size v = 0 then .none
    else if shiftImm size v = 1 then if isrot then ⟨false, true, true⟩ else ⟨true, true, true⟩
    else if isrot then ⟨false, true, false⟩ else ⟨true, true, false⟩

/-- The shifts of `decode_fast` (0xc0, 0xc1, 0xd0 to 0xd3). -/
def decodeShift (pfx : Prefixes) (rip : W64) (subop : Fin 8) (rd : Operand) (count : ShiftCount) : List TransOp :=
  let size := rd.sizeshift
  let ra := count.operand size
  let simple : Bool := match count with
    | .imm v => (shiftImm size v).toNat ≤ SIMPLE_SHIFT_LIMIT && shiftSimpleOpcode subop != .opNop
    | .cl => false
  let opcode := if simple then shiftSimpleOpcode subop else shiftOpcode subop
  let rcreg := if count = .cl then Reg.temp5
    else if opcode = .opRotcl ∨ opcode = .opRotcr then Reg.cf else Reg.zero
  (if count = .cl then [TransOp.collectForShift] else []) ++
    aluOperand pfx rip opcode rd ra (shiftSetflags size (subop.val < 4) count) rcreg

/-! ### What x86 says -/

/-- A rotation to the right or to the left, by any number of bits. -/
def rotate {w : ℕ} (right : Bool) (x : BitVec w) (n : ℕ) : BitVec w :=
  if right then x.rotateRight n else x.rotateLeft n

/-- The bit a rotation carries out: the low one, or to the right the high one. -/
def carryOut {w : ℕ} (right : Bool) (r : BitVec w) : Bool := if right then r.msb else r.getLsbD 0

/-- `rol` or `ror` of an operand by a count. -/
structure RotateInsn where
  right : Bool
  rd : Operand
  count : ShiftCount

namespace RotateInsn

variable (insn : RotateInsn) (pfx : Prefixes) (rip : W64) (c : SeqCore)

/-- The uops of a rotate: `modrm.reg` is 0 or 1. -/
def decode : List TransOp := decodeShift pfx rip (if insn.right then 1 else 0) insn.rd insn.count

/-- The masked count. -/
def masked : ℕ :=
  ShiftUop.count (opWidth insn.rd.sizeshift) (match insn.count with | .imm v => v | .cl => c.arf Reg.rcx)

/-- What the uops load, rotated. -/
def rotated : BitVec (opWidth insn.rd.sizeshift) := rotate insn.right (insn.rd.value pfx rip c) (insn.masked c)

/-- The operand rotated. -/
def x86Rotated : BitVec (opWidth insn.rd.sizeshift) := rotate insn.right (insn.rd.x86Value pfx rip c) (insn.masked c)

/-- A rotate has done what x86 says. -/
structure Right (c' : SeqCore) : Prop where
  result : insn.rd.X86Written pfx rip c (insn.x86Rotated pfx rip c) c'
  carry : insn.masked c ≠ 0 → (c'.arf Reg.flags).getLsbD 0 = carryOut insn.right (insn.x86Rotated pfx rip c)
  kept : ∀ i ∈ [2, 6, 7], (c'.arf Reg.flags).getLsbD i = (c.arf Reg.flags).getLsbD i
  none : insn.masked c = 0 → c'.arf Reg.flags = c.arf Reg.flags

/-- When the flags are right: its count is masked to zero; or it is a constant that turns the operand with the
same bit carried out, or turns it all the way round with no bit to carry out; or it is in `cl` and turns the
operand to one whose flags are there already, or all the way round with the carry there already. -/
def FlagsExact : Prop :=
  insn.masked c = 0 ∨
    match insn.count with
    | .imm _ =>
      if insn.masked c % opWidth insn.rd.sizeshift = 0 then carryOut insn.right (insn.x86Rotated pfx rip c) = false
      else carryOut insn.right (insn.rotated pfx rip c) = carryOut insn.right (insn.x86Rotated pfx rip c)
    | .cl =>
      if insn.masked c % opWidth insn.rd.sizeshift = 0 then
        (c.arf Reg.flags).getLsbD 0 = carryOut insn.right (insn.x86Rotated pfx rip c)
      else
        carryOut insn.right (insn.rotated pfx rip c) = carryOut insn.right (insn.x86Rotated pfx rip c) ∧
        (c.arf Reg.flags).getLsbD 7 = (insn.rotated pfx rip c).msb ∧
        (c.arf Reg.flags).getLsbD 6 = decide (insn.rotated pfx rip c = 0) ∧
        (c.arf Reg.flags).getLsbD 2 = evenParity (insn.rotated pfx rip c)

/-- When a rotate does: what the uops access, rotated, is written as the operand is, and the flags are right. -/
def Exact : Prop :=
  insn.rd.Accessible pfx rip c true ∧
    insn.rd.SameWrite pfx rip c (insn.rotated pfx rip c) (insn.x86Rotated pfx rip c) ∧ insn.FlagsExact pfx rip c

end RotateInsn

/-! ### The rotate uops -/

section Uops

variable {w : ℕ} (value rb : BitVec w)

/-- A whole number of turns is none. -/
theorem rotate_of_mod {n : ℕ} (right : Bool) (h : n % w = 0) : rotate right value n = value := by
  have hfull : value <<< w = 0#w ∧ value >>> w = 0#w := ⟨BitVec.shiftLeft_eq_zero le_rfl, BitVec.ushiftRight_eq_zero le_rfl⟩
  unfold rotate
  split
  · rw [BitVec.rotateRight_def, h, Nat.sub_zero, hfull.1, BitVec.ushiftRight_zero, BitVec.or_zero]
  · rw [BitVec.rotateLeft_def, h, Nat.sub_zero, hfull.2, BitVec.shiftLeft_zero, BitVec.or_zero]

/-- `RotateLeftOp` or `RotateRightOp`. -/
def rotateOp (right : Bool) : ShiftResult w := if right then rotateRightOp value rb else rotateLeftOp value rb

/-- What a rotate computes: the count it returns is the masked one modulo the width. -/
theorem rotateOp_eq (right : Bool) : (rotateOp value rb right).value = rotate right value (x86ShiftCount rb) ∧
    (rotateOp value rb right).count = x86ShiftCount rb % w ∧
    (x86ShiftCount rb % w ≠ 0 →
      (rotateOp value rb right).cf = carryOut right (rotate right value (x86ShiftCount rb))) := by
  by_cases h0 : x86ShiftCount rb % w = 0
  · have hsame : rotateOp value rb right = ⟨value, x86ShiftCount rb % w, false, false⟩ := by
      unfold rotateOp rotateLeftOp rotateRightOp
      simp only [if_pos h0, ite_self]
    rw [hsame, rotate_of_mod value right h0]
    exact ⟨rfl, rfl, fun hne => absurd h0 hne⟩
  · unfold rotateOp rotateLeftOp rotateRightOp rotate carryOut
    cases right with
    | true =>
      simp only [if_neg h0, if_true, BitVec.rotateRight_mod_eq_rotateRight]
      exact ⟨trivial, trivial, fun _ => trivial⟩
    | false =>
      simp only [if_neg h0, Bool.false_eq_true, if_false, BitVec.rotateLeft_mod_eq_rotateLeft]
      exact ⟨trivial, trivial, fun _ => trivial⟩

/-- The flags of a rotate uop. -/
def rotateFlags (right sets : Bool) (rcflags : W16) : W16 :=
  let result := rotateOp value rb right
  if result.count = 0 then rcflags else (statusOf result.value (sets && result.cf) (sets && result.of)).word

/-- Of no turn they are those of `rc`, otherwise they have the carry. -/
theorem rotateFlags_eq (right sets : Bool) (rcflags : W16) :
    if x86ShiftCount rb % w = 0 then rotateFlags value rb right sets rcflags = rcflags
    else ∃ o, rotateFlags value rb right sets rcflags = (statusOf (rotate right value (x86ShiftCount rb))
      (sets && carryOut right (rotate right value (x86ShiftCount rb))) o).word := by
  obtain ⟨hvalue, hcount, hcf⟩ := rotateOp_eq value rb right
  unfold rotateFlags
  dsimp only
  rw [hcount, hvalue]
  split
  · rfl
  · rename_i h0
    rw [hcf h0]
    exact ⟨_, rfl⟩

end Uops

/-- A rotate uop merges the rotated value. -/
theorem exec_rotate (rest : Synthop) (right : Bool) {op : TransOp} (hop : op.opcode = if right then .opRotr else .opRotl)
    {size : ℕ} (hsize : op.size = size) (i : UopInputs) : rest.withShifts.withImpl op i = ⟨x86Merge size i.ra
      ((rotate right (i.ra.setWidth (opWidth size)) (ShiftUop.count (opWidth size) i.rb)).setWidth 64),
      rotateFlags (i.ra.setWidth (opWidth size)) (i.rb.setWidth (opWidth size)) right (op.setflags ≠ .none)
        i.rcflags⟩ := by
  subst hsize
  have hexec : rest.withShifts.withImpl op i = shiftop (fun _ v rb _ => rotateOp v rb right) op i := by
    unfold Synthop.withImpl Synthop.withShifts uopImpl shiftImpl
    rw [hop]
    cases right <;> rfl
  have hdata := congrArg UopResult.rddata hexec
  have hflags := (congrArg UopResult.rdflags hexec).trans (shiftop_flags _ op i)
  have hvalue := (rotateOp_eq (i.ra.setWidth (opWidth op.size)) (i.rb.setWidth (opWidth op.size)) right).1
  rw [x86ShiftCount_eq] at hvalue
  refine congrArg₂ UopResult.mk (hdata.trans ?_) hflags
  show x86Merge op.size i.ra ((rotateOp _ _ right).value.setWidth 64) = _
  rw [hvalue]

theorem rotateFlags_inv {w : ℕ} (value rb : BitVec w) (right sets : Bool) {rcflags : W16} (h : rcflags &&& FLAG_INV = 0) :
    rotateFlags value rb right sets rcflags &&& FLAG_INV = 0 := by
  have hflags := rotateFlags_eq value rb right sets rcflags
  split at hflags
  · rw [hflags, h]
  · obtain ⟨o, hflags⟩ := hflags
    rw [hflags, Status.word_inv]

/-! ### Counts -/

theorem shiftImm_toNat {size : ℕ} (hsize : size ≤ 3) (v : W64) :
    (shiftImm size v).toNat = ShiftUop.count (opWidth size) v := by
  have hwide : opWidth size = 64 ↔ size = 3 := by
    unfold opWidth
    interval_cases size <;> decide
  unfold shiftImm ShiftUop.count
  simp only [hwide]
  have hmask : (0x3f : W64).toNat = 2 ^ 6 - 1 ∧ (0x1f : W64).toNat = 2 ^ 5 - 1 := by decide
  split
  · rw [BitVec.toNat_and, hmask.1, Nat.and_two_pow_sub_one_eq_mod]
    omega
  · rw [BitVec.toNat_and, hmask.2, Nat.and_two_pow_sub_one_eq_mod]
    omega

/-- A count masked twice is masked once. -/
theorem count_shiftImm {size : ℕ} (hsize : size ≤ 3) (v : W64) :
    ShiftUop.count (opWidth size) (shiftImm size v) = ShiftUop.count (opWidth size) v := by
  have himm := shiftImm_toNat hsize v
  unfold ShiftUop.count at himm ⊢
  rw [himm]
  split <;> omega

namespace RotateInsn

variable (insn : RotateInsn) {pfx : Prefixes} {rip : W64} {c c' : SeqCore}

theorem decode_eq : insn.decode pfx rip = (if insn.count = .cl then [TransOp.collectForShift] else []) ++
    aluOperand pfx rip (if insn.right then .opRotr else .opRotl) insn.rd (insn.count.operand insn.rd.sizeshift)
      (shiftSetflags insn.rd.sizeshift true insn.count) (if insn.count = .cl then Reg.temp5 else Reg.zero) := by
  obtain ⟨right, rd, count⟩ := insn
  have hsimple : shiftSimpleOpcode (if right then 1 else 0) = .opNop := by cases right <;> rfl
  cases count with
  | cl => cases right <;> rfl
  | imm v => cases right <;> simp [decode, decodeShift, shiftSimpleOpcode, shiftOpcode]

/-- The register the count is read from is `rcx` for either size. -/
theorem operand_cl (arf : Reg → W64) (size : ℕ) : (ShiftCount.cl.operand size).hibyte = false ∧
    (ShiftCount.cl.operand size).data arf = arf Reg.rcx := by
  unfold ShiftCount.operand
  dsimp only
  split
  · exact ⟨rfl, rfl⟩
  · exact ⟨rfl, rfl⟩

/-- The operand counts as the masked count does. -/
theorem count_data :
    ShiftUop.count (opWidth insn.rd.sizeshift) ((insn.count.operand insn.rd.sizeshift).data c.arf) = insn.masked c := by
  unfold masked
  cases insn.count with
  | imm v => exact count_shiftImm insn.rd.sizeshift_le v
  | cl => exact congrArg _ (operand_cl c.arf _).2

/-- What a rotate makes of its operand. -/
theorem merges_rotate (rest : Synthop) {rc : Reg} (hrc : rc = Reg.temp5 ∨ rc = Reg.zero)
    (hinv : c.arflags rc &&& FLAG_INV = 0) (s : SetFlags) :
    Merges rest.withShifts.withImpl (if insn.right then .opRotr else .opRotl) s insn.rd
      (insn.rd.value pfx rip c) ((insn.count.operand insn.rd.sizeshift).data c.arf) (c.arflags (remap rc))
      (insn.rotated pfx rip c) (rotateFlags (insn.rd.value pfx rip c)
        (((insn.count.operand insn.rd.sizeshift).data c.arf).setWidth _) insn.right (s ≠ .none) (c.arflags rc)) := by
  have hremap : remap rc = rc := by rcases hrc with rfl | rfl <;> decide
  refine ⟨fun op i ho hs hset hra hrb hrcf => ?_, rotateFlags_inv _ _ _ _ hinv⟩
  rw [exec_rotate rest insn.right ho hs, hra, hrb, hrcf, hset, hremap, count_data]
  rfl

theorem operand_low : (insn.count.operand insn.rd.sizeshift).hibyte = false := by
  cases insn.count with
  | imm v => rfl
  | cl => exact (operand_cl (fun _ => 0) _).1

theorem rotate_opcode : (if insn.right then Opcode.opRotr else .opRotl) ≠ .opXor ∧
    (isload (if insn.right then Opcode.opRotr else .opRotl) || isstore (if insn.right then Opcode.opRotr else .opRotl)) =
      false := by
  cases insn.right <;> decide

theorem rotate_temps {rc : Reg} (hrc : rc = Reg.temp5 ∨ rc = Reg.zero) :
    remap rc ∉ [Reg.temp2, Reg.temp6, Reg.temp8, Reg.temp0, Reg.temp4, Reg.temp9] := by
  rcases hrc with rfl | rfl <;> decide

/-- What the operation of a rotate runs on: the registers but temporaries, and the flags of `rc`. -/
theorem wp_rotate (rest : Synthop) (h : c.Ready) (hacc : insn.rd.Accessible pfx rip c true) {rc : Reg}
    (hrc : rc = Reg.temp5 ∨ rc = Reg.zero) (hinv : c.arflags rc &&& FLAG_INV = 0) (s : SetFlags) :
    Wp rest.withShifts.withImpl (aluOperand pfx rip (if insn.right then .opRotr else .opRotl) insn.rd
        (insn.count.operand insn.rd.sizeshift) s rc) (fun c' =>
      insn.rd.Written pfx rip c (insn.rotated pfx rip c) c' ∧
      ∃ rb : BitVec (opWidth insn.rd.sizeshift), x86ShiftCount rb = insn.masked c ∧
      FlagsSet s (rotateFlags (insn.rd.value pfx rip c) rb insn.right (s ≠ .none) (c.arflags rc)) c c') c :=
  Triples.wp_mono (wp_aluOperand rest.withShifts h insn.rd insn.operand_low insn.rotate_opcode.1 insn.rotate_opcode.2
    (rotate_temps hrc) hacc (merges_rotate insn rest hrc hinv s))
    fun _ hc' => ⟨hc'.1, _, (x86ShiftCount_eq _ _).trans insn.count_data, hc'.2⟩

variable {insn}

/-- The groups of flags gathered are those of the flags register. -/
theorem collcc_same (flags : W16) : (flags &&& FLAG_ZAPS) ||| (flags &&& FLAG_CF) ||| (flags &&& FLAG_OF) =
    flags &&& setflagsToX86Flags .default := by
  have hmask : setflagsToX86Flags .default = FLAG_ZAPS ||| FLAG_CF ||| FLAG_OF := by decide
  rw [hmask, BitVec.and_or_distrib_left, BitVec.and_or_distrib_left]

/-- `collcc` hands on the flags in `temp5`. -/
theorem wp_collect (rest : Synthop) (h : c.Ready) : Wp rest.withImpl [TransOp.collectForShift] (fun c₁ =>
    Leaves [Reg.temp5] c.space.bytes c c₁ ∧
      c₁.arflags Reg.temp5 = (c.arf Reg.flags).setWidth 16 &&& setflagsToX86Flags .default) c := by
  have hflags : c.arflags Reg.flags = (c.arf Reg.flags).setWidth 16 := h.flags
  have hremap : remap Reg.zf = Reg.flags ∧ remap Reg.cf = Reg.flags ∧ remap Reg.of = Reg.flags := by decide
  have hexec : rest.withImpl TransOp.collectForShift (c.inputs TransOp.collectForShift) =
      ⟨((c.arf Reg.flags).setWidth 16 &&& setflagsToX86Flags .default).setWidth 64,
        (c.arf Reg.flags).setWidth 16 &&& setflagsToX86Flags .default⟩ := by
    show collcc (c.inputs TransOp.collectForShift) = _
    have hsame : ∀ i : UopInputs, i.raflags = i.rcflags → i.rbflags = i.rcflags → collcc i =
        ⟨(i.rcflags &&& setflagsToX86Flags .default).setWidth 64, i.rcflags &&& setflagsToX86Flags .default⟩ := by
      intro i ha hb
      unfold collcc
      rw [ha, hb, collcc_same]
    have hof : (c.inputs TransOp.collectForShift).rcflags = (c.arf Reg.flags).setWidth 16 := by
      show c.arflags (remap Reg.of) = _
      rw [hremap.2.2, hflags]
    rw [hsame _ (by show c.arflags (remap Reg.zf) = c.arflags (remap Reg.of); rw [hremap.1, hremap.2.2])
      (by show c.arflags (remap Reg.cf) = c.arflags (remap Reg.of); rw [hremap.2.1, hremap.2.2]), hof]
  have hinv : (c.arf Reg.flags).setWidth 16 &&& setflagsToX86Flags .default &&& FLAG_INV = 0 := by
    have hdis : setflagsToX86Flags .default &&& FLAG_INV = 0 := by decide
    rw [BitVec.and_assoc, hdis]
    exact BitVec.and_zero
  refine wp_result (by decide) rfl rfl (by decide) (.inr ?_) ?_
  · rw [hexec]
    exact hinv
  · rw [hexec]
    have ht : Writable TransOp.collectForShift.rd := ⟨by decide, by decide, by decide⟩
    exact ⟨writeResult_leaves_quiet h ht rfl _, writeResult_arflags_rd ht.flags⟩

/-- Bit by bit, what a rotate writes and the flags it leaves decide whether it is right. -/
theorem right_iff (hw : insn.rd.Written pfx rip c (insn.rotated pfx rip c) c') {b : Bool}
    (hcarry : insn.masked c ≠ 0 → (c'.arf Reg.flags).getLsbD 0 = b)
    (hnone : insn.masked c = 0 → c'.arf Reg.flags = c.arf Reg.flags) : insn.Right pfx rip c c' ↔
      insn.rd.SameWrite pfx rip c (insn.rotated pfx rip c) (insn.x86Rotated pfx rip c) ∧
      (insn.masked c ≠ 0 → b = carryOut insn.right (insn.x86Rotated pfx rip c)) ∧
        ∀ i ∈ [2, 6, 7], (c'.arf Reg.flags).getLsbD i = (c.arf Reg.flags).getLsbD i := by
  rw [← hw.x86_iff]
  constructor
  · intro h
    exact ⟨h.result, fun hne => (hcarry hne).symm.trans (h.carry hne), h.kept⟩
  · rintro ⟨hx, hb, hkept⟩
    exact ⟨hx, fun hne => (hcarry hne).trans (hb hne), hkept, hnone⟩

/-- The flags a rotate by a constant sets. -/
theorem shiftSetflags_rot {size : ℕ} (v : W64) : let s := shiftSetflags size true (.imm v)
    ((shiftImm size v).toNat = 0 → s = .none) ∧ ((shiftImm size v).toNat ≠ 0 → s.zf = false ∧ s.cf = true) := by
  have hzero : (shiftImm size v).toNat = 0 ↔ shiftImm size v = 0 :=
    ⟨fun h => BitVec.eq_of_toNat_eq h, fun h => by rw [h]; rfl⟩
  intro s
  rw [hzero, ne_eq, hzero]
  refine ⟨fun h => if_pos h, fun h => ?_⟩
  have hs : s = if shiftImm size v = 1 then ⟨false, true, true⟩ else ⟨false, true, false⟩ := if_neg h
  rw [hs]
  split <;> exact ⟨rfl, rfl⟩

/-- A rotate by a constant: only the carry can be wrong, after whole turns. -/
theorem right_imm {v : W64} (hcount : insn.count = .imm v) {s : SetFlags} (hzero : insn.masked c = 0 → s = .none)
    (hset : insn.masked c ≠ 0 → s.zf = false ∧ s.cf = true)
    (hw : insn.rd.Written pfx rip c (insn.rotated pfx rip c) c') {rb : BitVec (opWidth insn.rd.sizeshift)}
    (hrb : x86ShiftCount rb = insn.masked c)
    (hflags : FlagsSet s (rotateFlags (insn.rd.value pfx rip c) rb insn.right (s ≠ .none) 0) c c') :
    insn.Right pfx rip c c' ↔
      insn.rd.SameWrite pfx rip c (insn.rotated pfx rip c) (insn.x86Rotated pfx rip c) ∧ insn.FlagsExact pfx rip c := by
  have hword := rotateFlags_eq (insn.rd.value pfx rip c) rb insn.right (s ≠ .none) 0
  rw [hrb] at hword
  have hkept : ∀ i ∈ [2, 6, 7], (c'.arf Reg.flags).getLsbD i = (c.arf Reg.flags).getLsbD i := by
    intro i hi
    have hzf : s.zf = false := by
      by_cases h0 : insn.masked c = 0
      · rw [hzero h0]
        rfl
      · exact (hset h0).1
    have hmask : (setflagsToX86Flags s).getLsbD i = false := by
      rw [AluInsn.mask_bit]
      simp only [List.mem_cons, List.not_mem_nil, or_false] at hi
      rcases hi with rfl | rfl | rfl <;> exact hzf
    rw [hflags i, hmask, if_neg (by decide)]
  have hcarry : insn.masked c ≠ 0 → (c'.arf Reg.flags).getLsbD 0 =
      (decide (insn.masked c % opWidth insn.rd.sizeshift ≠ 0) && carryOut insn.right (insn.rotated pfx rip c)) := by
    intro h0
    have hs : s ≠ .none := by
      rintro rfl
      exact absurd (hset h0).2 (by decide)
    have hmask : (setflagsToX86Flags s).getLsbD 0 = true := by
      rw [AluInsn.mask_bit]
      exact (hset h0).2
    rw [hflags 0, hmask, if_pos rfl]
    split at hword
    · rename_i hturn
      rw [hword, hturn]
      rfl
    · rename_i hturn
      obtain ⟨o, hword⟩ := hword
      rw [hword, Status.word_bit, decide_eq_true hturn, decide_eq_true hs]
      rfl
  rw [right_iff hw hcarry fun h0 => (hzero h0 ▸ hflags).none]
  refine and_congr_right fun _ => ?_
  unfold FlagsExact
  rw [hcount]
  dsimp only
  rw [and_iff_left hkept, ← or_iff_not_imp_left]
  refine or_congr_right ?_
  split
  · rename_i hturn
    rw [decide_eq_false (not_not.2 hturn), Bool.false_and]
    exact eq_comm
  · rename_i hturn
    rw [decide_eq_true hturn, Bool.true_and]

/-- A rotate by `cl`: it sets all flags or, after whole turns, none. -/
theorem right_cl (hcount : insn.count = .cl) (hw : insn.rd.Written pfx rip c (insn.rotated pfx rip c) c')
    {rb : BitVec (opWidth insn.rd.sizeshift)} (hrb : x86ShiftCount rb = insn.masked c)
    (hflags : FlagsSet .default (rotateFlags (insn.rd.value pfx rip c) rb insn.right true
      ((c.arf Reg.flags).setWidth 16 &&& setflagsToX86Flags .default)) c c') :
    insn.Right pfx rip c c' ↔
      insn.rd.SameWrite pfx rip c (insn.rotated pfx rip c) (insn.x86Rotated pfx rip c) ∧ insn.FlagsExact pfx rip c := by
  have hword := rotateFlags_eq (insn.rd.value pfx rip c) rb insn.right true
    ((c.arf Reg.flags).setWidth 16 &&& setflagsToX86Flags .default)
  rw [hrb] at hword
  unfold FlagsExact
  rw [hcount]
  dsimp only
  by_cases hturn : insn.masked c % opWidth insn.rd.sizeshift = 0
  · rw [if_pos hturn] at hword ⊢
    -- the flags are those gathered
    have hsame : c'.arf Reg.flags = c.arf Reg.flags := by
      apply BitVec.eq_of_getLsbD_eq
      intro i hi
      rw [hflags i, hword]
      split
      · rename_i hmask
        have h16 : i < 16 := by
          by_contra hge
          rw [BitVec.getLsbD_of_ge _ _ (Nat.le_of_not_lt hge)] at hmask
          cases hmask
        rw [BitVec.getLsbD_and, hmask, BitVec.getLsbD_setWidth, decide_eq_true h16, Bool.true_and, Bool.and_true]
      · rfl
    rw [right_iff hw (fun _ => congrArg (fun f => f.getLsbD 0) hsame) fun _ => hsame, or_iff_not_imp_left,
      and_iff_left fun i _ => by rw [hsame]]
  · rw [if_neg hturn] at hword ⊢
    obtain ⟨o, hword⟩ := hword
    have h0 : insn.masked c ≠ 0 := by
      intro h0
      rw [h0, Nat.zero_mod] at hturn
      exact hturn rfl
    have hbit : ∀ i ∈ [0, 2, 6, 7], (c'.arf Reg.flags).getLsbD i = (statusOf (insn.rotated pfx rip c)
        (carryOut insn.right (insn.rotated pfx rip c)) o).word.getLsbD i := by
      intro i hi
      have hmask : (setflagsToX86Flags .default).getLsbD i = true := by
        simp only [List.mem_cons, List.not_mem_nil, or_false] at hi
        rcases hi with rfl | rfl | rfl | rfl <;> decide
      rw [hflags i, hmask, if_pos rfl, hword]
      rfl
    have h2 := hbit 2 (by decide)
    have h6 := hbit 6 (by decide)
    have h7 := hbit 7 (by decide)
    rw [Status.word_bit] at h2 h6 h7
    rw [right_iff hw (b := carryOut insn.right (insn.rotated pfx rip c)) (fun _ => ?_) fun h => absurd h h0]
    · refine and_congr_right fun _ => ?_
      constructor
      · rintro ⟨hb, hkept⟩
        exact .inr ⟨hb h0, (hkept 7 (by decide)).symm.trans h7, (hkept 6 (by decide)).symm.trans h6,
          (hkept 2 (by decide)).symm.trans h2⟩
      · intro h
        obtain ⟨hb, hsf, hzf, hpf⟩ := h.resolve_left h0
        refine ⟨fun _ => hb, fun i hi => ?_⟩
        simp only [List.mem_cons, List.not_mem_nil, or_false] at hi
        rcases hi with rfl | rfl | rfl
        · exact h2.trans hpf.symm
        · exact h6.trans hzf.symm
        · exact h7.trans hsf.symm
    · rw [hbit 0 (by decide), Status.word_bit]
      rfl

/-- The flags gathered say of no exception. -/
theorem collected_inv {c₁ : SeqCore} {flags : W16}
    (h : c₁.arflags Reg.temp5 = flags &&& setflagsToX86Flags .default) : c₁.arflags Reg.temp5 &&& FLAG_INV = 0 := by
  have hdis : setflagsToX86Flags .default &&& FLAG_INV = 0 := by decide
  rw [h, BitVec.and_assoc, hdis]
  exact BitVec.and_zero

theorem rotated_congr (insn : RotateInsn) (pfx : Prefixes) (rip : W64) {c₁ : SeqCore} (h : Leaves [Reg.temp5] c.space.bytes c c₁) :
    insn.rotated pfx rip c₁ = insn.rotated pfx rip c ∧ insn.masked c₁ = insn.masked c := by
  have hmasked : insn.masked c₁ = insn.masked c := by
    unfold masked
    rw [h.arf Reg.rcx (by decide)]
  refine ⟨?_, hmasked⟩
  unfold rotated
  rw [hmasked, Operand.value_congr h (by decide)]

/-- A rotate that may access its operand runs, and is right just if it writes as x86 does and its flags are. -/
theorem wp_right (rest : Synthop) (insn : RotateInsn) (h : c.Ready) (hacc : insn.rd.Accessible pfx rip c true) :
    Wp rest.withShifts.withImpl (insn.decode pfx rip) (fun c' => insn.Right pfx rip c c' ↔
      insn.rd.SameWrite pfx rip c (insn.rotated pfx rip c) (insn.x86Rotated pfx rip c) ∧
        insn.FlagsExact pfx rip c) c := by
  rw [decode_eq]
  cases hcount : insn.count with
  | imm v =>
    have hmasked : insn.masked c = (shiftImm insn.rd.sizeshift v).toNat := by
      unfold masked
      rw [hcount, shiftImm_toNat insn.rd.sizeshift_le]
    have hset := @shiftSetflags_rot insn.rd.sizeshift v
    rw [← hmasked] at hset
    have hinv : c.arflags Reg.zero &&& FLAG_INV = 0 := by
      rw [h.zeroFlags]
      exact BitVec.zero_and
    have hwp := wp_rotate insn rest h hacc (.inr rfl) hinv (shiftSetflags insn.rd.sizeshift true (.imm v))
    rw [hcount, h.zeroFlags] at hwp
    refine Triples.wp_mono hwp ?_
    rintro c' ⟨hw, rb, hrb, hflags⟩
    exact right_imm hcount hset.1 hset.2 hw hrb hflags
  | cl =>
    refine Triples.wp_append (Triples.wp_mono (wp_collect rest.withShifts h) ?_)
    rintro c₁ ⟨h₁, hf₁⟩
    have htemps : Temps [Reg.temp5] := by decide
    obtain ⟨hrotated, hmasked⟩ := rotated_congr insn pfx rip h₁
    have hwp := wp_rotate insn rest h₁.ready (hacc.leaves h₁ htemps) (.inl rfl) (collected_inv hf₁) .default
    rw [hcount, hf₁, hrotated, hmasked, Operand.value_congr h₁ htemps] at hwp
    refine Triples.wp_mono hwp ?_
    rintro c' ⟨hw, rb, hrb, hflags⟩
    refine right_cl hcount (.of_leaves h₁ htemps hw) hrb fun i => ?_
    rw [hflags i, h₁.arf Reg.flags (by decide)]
    rfl

/-- A rotate that may not access its operand stops. -/
theorem not_wp_refused (rest : Synthop) (insn : RotateInsn) (h : c.Ready) (hctx : insn.rd.X86Accessible pfx rip c true)
    (hno : ¬insn.rd.Accessible pfx rip c true) {Q : SeqCore → Prop} :
    ¬Wp rest.withShifts.withImpl (insn.decode pfx rip) Q c := by
  have hnonempty : Nonempty (ℕ → Sfr) := ⟨fun _ => Frame.Sfr.zero⟩
  rw [decode_eq]
  by_cases hcount : insn.count = .cl
  · simp only [if_pos hcount]
    refine Triples.not_wp_append (wp_collect rest.withShifts h) ?_
    rintro c₁ ⟨h₁, hf₁⟩
    have htemps : Temps [Reg.temp5] := by decide
    refine not_wp_aluOperand rest.withShifts h₁.ready insn.rd insn.operand_low insn.rotate_opcode.2
      (rotate_temps (.inl rfl)) (hctx.leaves h₁ htemps) (fun hacc => hno (hacc.of_leaves h₁ htemps hctx))
      (merges_rotate insn rest (.inl rfl) (collected_inv hf₁) _)
  · simp only [if_neg hcount, List.nil_append]
    have hinv : c.arflags Reg.zero &&& FLAG_INV = 0 := by
      rw [h.zeroFlags]
      exact BitVec.zero_and
    exact not_wp_aluOperand rest.withShifts h insn.rd insn.operand_low insn.rotate_opcode.2 (rotate_temps (.inr rfl)) hctx
      hno (merges_rotate insn rest (.inr rfl) hinv _)

/-- **When a rotate does what x86 says.** -/
theorem rotate_right_iff (rest : Synthop) (insn : RotateInsn) (pfx : Prefixes) (rip : W64) (c : SeqCore) (h : c.Ready)
    (hacc : insn.rd.X86Accessible pfx rip c true) :
    Wp rest.withShifts.withImpl (insn.decode pfx rip) (insn.Right pfx rip c) c ↔ insn.Exact pfx rip c := by
  have hnonempty : Nonempty (ℕ → Sfr) := ⟨fun _ => Frame.Sfr.zero⟩
  by_cases hok : insn.rd.Accessible pfx rip c true
  · unfold Exact
    rw [and_iff_right hok]
    exact Triples.wp_iff (wp_right rest insn h hok) fun _ h => h
  · exact iff_of_false (not_wp_refused rest insn h hacc hok) fun hexact => hok hexact.1

/-- Where the uops access what x86 does only the flags can be wrong. -/
theorem exact_iff_flags (insn : RotateInsn) (hagree : insn.rd.Agrees pfx rip c)
    (hacc : insn.rd.X86Accessible pfx rip c true) : insn.Exact pfx rip c ↔ insn.FlagsExact pfx rip c := by
  have hrotated : insn.rotated pfx rip c = insn.x86Rotated pfx rip c := by
    unfold rotated x86Rotated
    rw [hagree.value]
  unfold Exact
  rw [hrotated, and_iff_right (hagree.accessible.2 hacc), and_iff_right (hagree.sameWrite _)]

/-- `rol al, 8`. -/
def rolByte : RotateInsn := ⟨false, .reg (.b 0), .imm 8⟩

/-- Of an operand whose low bit is clear, `al` is turned right. -/
theorem rotate_right_iff_byte : Wp (Synthop.withShifts fun _ _ => ⟨0, 0⟩).withImpl (rolByte.decode .plain 0)
    (rolByte.Right .plain 0 (AluInsn.core fun r => if r = Reg.rax then 2 else 0))
    (AluInsn.core fun r => if r = Reg.rax then 2 else 0) := by
  have hready : (AluInsn.core fun r => if r = Reg.rax then 2 else 0).Ready :=
    ⟨by decide +kernel, by decide +kernel, by decide +kernel, by decide +kernel⟩
  refine (rotate_right_iff (fun _ _ => ⟨0, 0⟩) rolByte .plain 0 _ hready trivial).2
    ((exact_iff_flags rolByte trivial trivial).2 (.inr ?_))
  have hclear : carryOut rolByte.right (rolByte.x86Rotated .plain 0 (AluInsn.core fun r => if r = Reg.rax then 2 else 0)) =
      false := by
    decide +kernel
  exact hclear

/-- An operand whose low bit is set leaves the carry clear. -/
theorem not_rotate_right : ¬ ∀ (rest : Synthop) (insn : RotateInsn) (pfx : Prefixes) (rip : W64) (c : SeqCore), c.Ready →
    insn.rd.X86Accessible pfx rip c true →
    Wp rest.withShifts.withImpl (insn.decode pfx rip) (insn.Right pfx rip c) c := by
  intro h
  let c := AluInsn.core fun r => if r = Reg.rax then 1 else 0
  have hready : c.Ready := ⟨by decide +kernel, by decide +kernel, by decide +kernel, by decide +kernel⟩
  obtain ⟨c', hrun, hright⟩ := h (fun _ _ => ⟨0, 0⟩) rolByte .plain 0 c hready trivial fun _ _ => Frame.Sfr.zero
  have hclear : (perform (Synthop.withShifts fun _ _ => ⟨0, 0⟩).withImpl (rolByte.decode .plain 0)
      (fun _ _ => Frame.Sfr.zero) c).toOption.map (fun c => (c.arf Reg.flags).getLsbD 0) = some false := by
    decide +kernel
  have hset : carryOut false (rolByte.x86Rotated .plain 0 c) = true := by decide +kernel
  have hcarry := hright.carry (by decide +kernel)
  have hdone : perform (Synthop.withShifts fun _ _ => ⟨0, 0⟩).withImpl (rolByte.decode .plain 0)
      (fun _ _ => Frame.Sfr.zero) c = .ok c' := hrun
  rw [hdone] at hclear
  have hflag : (c'.arf Reg.flags).getLsbD 0 = false := Option.some.inj hclear
  exact absurd (hflag.symm.trans (hcarry.trans hset)) (by decide)

end RotateInsn

end X86Sim
