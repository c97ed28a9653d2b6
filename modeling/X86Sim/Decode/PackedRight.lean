import X86Sim.Decode.AddressRight
import X86Sim.Decode.Packed
import X86Sim.Decode.Rotates

/-!
# When packed instructions are right

Each uop computes a word of the two it reads. The halves of the destination are written one
after the other, so that the second uop may read what the first has written.
-/

namespace X86Sim

open X86Sim.Seq X86Sim.Seq.SeqCore

/-- A uop of the ALU writes `f` of its two operands, whatever these are. -/
structure Computes (exec : Synthop) (op : TransOp) (f : W64 → W64 → W64) : Prop where
  alu : isMem op = false ∧ op.isSse = false ∧ op.isX87 = false
  writes : Writes [op.rd] op
  data : ∀ c : SeqCore, c.Ready → (exec op (c.inputs op)).rddata = f (c.radata op) (c.rbdata op)
  flags : ∀ c : SeqCore, c.Ready → (exec op (c.inputs op)).rdflags &&& FLAG_INV = 0

theorem Computes.wp {exec : Synthop} {op : TransOp} {f : W64 → W64 → W64} {c : SeqCore} (hop : Computes exec op f)
    (h : c.Ready) : Wp exec [op] (fun c' =>
      Leaves [op.rd] c.space.bytes c c' ∧ c'.arf op.rd = f (c.radata op) (c.rbdata op)) c := by
  refine Triples.wp_mono (wp_writes hop.alu.1 hop.alu.2.1 hop.alu.2.2 h hop.writes rfl (hop.flags c h)) fun c' hc' => ?_
  exact ⟨hc'.1, hc'.2.trans (hop.data c h)⟩

/-- The flags of an operand that is zero. -/
theorem remap_zeroFlags {c : SeqCore} (h : c.Ready) : c.arflags (remap Reg.zero) = 0 := by
  have hremap : remap Reg.zero = Reg.zero := by decide
  rw [hremap, h.zeroFlags]

/-- The implementations of the sequential core. -/
abbrev Synthop.packed (rest : Synthop) : Synthop := rest.withVectors.withShifts.withImpl

section Uops

variable (rest : Synthop) {rd : Reg} (ra rb : Reg)

/-- A packed operation, its second operand in a register or immediate. -/
theorem computes_packed (p : PackedOp) (hrd : Writable rd) (rc : Reg) (imm : W64) :
    Computes rest.packed { TransOp.mk3 p.uop.1 rd ra rb rc p.uop.2 imm with cond := p.cond } p.result := by
  have hall : ∀ o ∈ [Opcode.opVadd, .opVsub, .opVaddUs, .opVsubUs, .opVaddSs, .opVsubSs, .opVavg, .opVmin, .opVmax,
      .opVminS, .opVmaxS, .opVmull, .opVmulh, .opVmulhu, .opMulhl, .opVmaddp, .opVsad, .opAnd, .opAndnot, .opOr, .opXor,
      .opVcmp, .opVshl, .opVshr, .opVsar], (isload o || isstore o) = false := by decide
  have hmem : (isload p.uop.1 || isstore p.uop.1) = false := hall _ (by cases p <;> simp [PackedOp.uop])
  refine ⟨⟨hmem, rfl, rfl⟩, ⟨List.mem_cons_self, ?_, rfl, rfl, hrd⟩, fun c _ => ?_, fun c _ => ?_⟩
  · exact (Bool.or_eq_false_iff.1 hmem).2
  · exact (PackedOp.exec_packed rest p rfl rfl rfl rfl _).1
  · exact (PackedOp.exec_packed rest p rfl rfl rfl rfl _).2

theorem ite_and_inv {p : Prop} [Decidable p] {f g : W16} (hf : f &&& FLAG_INV = 0) (hg : g &&& FLAG_INV = 0) :
    (if p then f else g) &&& FLAG_INV = 0 := by
  split
  · exact hf
  · exact hg

/-- Shifts by less than the width. -/
theorem shiftLeftOp_word {w : ℕ} (v b : BitVec w) (h : x86ShiftCount b < w) : (shiftLeftOp v b).value = v <<< x86ShiftCount b ∧
    (shiftLeftOp v b).count = x86ShiftCount b ∧
    (x86ShiftCount b ≠ 0 → (shiftLeftOp v b).cf = v.getLsbD (w - x86ShiftCount b)) := by
  unfold shiftLeftOp
  dsimp only
  split
  · rename_i h0
    rw [h0, BitVec.shiftLeft_zero]
    exact ⟨rfl, rfl, fun hne => absurd rfl hne⟩
  · refine ⟨rfl, rfl, fun _ => (if_pos h.le).trans ?_⟩
    rw [BitVec.getLsbD_ushiftRight, Nat.add_zero]

theorem shiftRightOp_word {w : ℕ} (v b : BitVec w) (h : x86ShiftCount b < w) : (shiftRightOp v b).value = v >>> x86ShiftCount b ∧
    (shiftRightOp v b).count = x86ShiftCount b ∧
    (x86ShiftCount b ≠ 0 → (shiftRightOp v b).cf = v.getLsbD (x86ShiftCount b - 1)) := by
  unfold shiftRightOp
  dsimp only
  split
  · rename_i h0
    rw [h0, BitVec.ushiftRight_zero]
    exact ⟨rfl, rfl, fun hne => absurd rfl hne⟩
  · refine ⟨rfl, rfl, fun _ => (if_pos h.le).trans ?_⟩
    rw [BitVec.getLsbD_ushiftRight, Nat.add_zero]

/-- A shift of a quadword. -/
theorem computes_shift (left : Bool) (hrd : Writable rd) (imm : W64) :
    Computes rest.withShifts.withImpl (.mk3 (if left then .opShl else .opShr) rd ra rb Reg.zero 3 imm) fun a b =>
      if left then a <<< ShiftUop.count 64 b else a >>> ShiftUop.count 64 b := by
  have hall : ∀ left : Bool, (isload (if left then Opcode.opShl else .opShr) ||
      isstore (if left then Opcode.opShl else .opShr)) = false := by decide
  have hcount : ∀ b : W64, x86ShiftCount b = ShiftUop.count 64 b := fun b => by
    have heq := x86ShiftCount_eq 3 b
    rwa [show b.setWidth (opWidth 3) = b from BitVec.setWidth_eq b] at heq
  have hexec : ∀ i, rest.withShifts.withImpl (.mk3 (if left then .opShl else .opShr) rd ra rb Reg.zero 3 imm) i =
      shiftop (fun _ v rb _ => if left then shiftLeftOp v rb else shiftRightOp v rb)
        (.mk3 (if left then .opShl else .opShr) rd ra rb Reg.zero 3 imm) i := fun i => by
    cases left <;> rfl
  refine ⟨⟨hall left, rfl, rfl⟩, ⟨List.mem_cons_self, ?_, rfl, rfl, hrd⟩, fun c h => ?_, fun c h => ?_⟩
  · exact (Bool.or_eq_false_iff.1 (hall left)).2
  · rw [hexec, ← hcount]
    show ((if left then shiftLeftOp ((c.radata _).setWidth 64) ((c.rbdata _).setWidth 64) else
      shiftRightOp ((c.radata _).setWidth 64) ((c.rbdata _).setWidth 64)).value).setWidth 64 = _
    rw [BitVec.setWidth_eq, BitVec.setWidth_eq, BitVec.setWidth_eq]
    have hlt : ∀ b : W64, x86ShiftCount b < 64 := fun b => lt_of_eq_of_lt (hcount b) (Nat.mod_lt _ (by decide))
    cases left
    · exact (shiftRightOp_word _ _ (hlt _)).1
    · exact (shiftLeftOp_word _ _ (hlt _)).1
  · rw [hexec, shiftop_flags]
    refine ite_and_inv ?_ (Status.word_inv _)
    show c.arflags (remap Reg.zero) &&& FLAG_INV = 0
    rw [remap_zeroFlags h]
    decide

/-- A rotate of a quadword. -/
theorem computes_rotate (right : Bool) (hrd : Writable rd) (imm : W64) :
    Computes rest.withShifts.withImpl (.mk3 (if right then .opRotr else .opRotl) rd ra rb Reg.zero 3 imm) fun a b =>
      rotate right a (ShiftUop.count 64 b) := by
  have hall : ∀ right : Bool, (isload (if right then Opcode.opRotr else .opRotl) ||
      isstore (if right then Opcode.opRotr else .opRotl)) = false := by decide
  have hexec := fun i => exec_rotate rest right
    (show (TransOp.mk3 (if right then .opRotr else .opRotl) rd ra rb Reg.zero 3 imm).opcode = _ from rfl) rfl i
  refine ⟨⟨hall right, rfl, rfl⟩, ⟨List.mem_cons_self, ?_, rfl, rfl, hrd⟩, fun c h => ?_, fun c h => ?_⟩
  · exact (Bool.or_eq_false_iff.1 (hall right)).2
  · refine (congrArg UopResult.rddata (hexec _)).trans ?_
    show (rotate right ((c.radata _).setWidth 64) (ShiftUop.count 64 (c.rbdata _))).setWidth 64 = _
    rw [BitVec.setWidth_eq, BitVec.setWidth_eq]
  · refine (congrArg (fun r : UopResult => r.rdflags &&& FLAG_INV) (hexec _)).trans (rotateFlags_inv _ _ _ _ ?_)
    show c.arflags (remap Reg.zero) &&& FLAG_INV = 0
    rw [remap_zeroFlags h]
    decide

/-- A mask uop on quadwords. -/
theorem computes_mask (hrd : Writable rd) {ms mc ds : ℕ} (hms : ms < 64) (hmc : mc < 64) (hds : ds < 64) :
    Computes rest.withShifts.withImpl (.init .opMaskb rd ra rb Reg.imm 3 0 (maskControlInfo ms mc ds) .none) fun a b =>
      (a &&& ~~~(bitmask mc).rotateRight ms) ||| (b.rotateRight ds &&& (bitmask mc).rotateRight ms) := by
  have hclass : (isload .opMaskb || isstore .opMaskb) = false ∧ isstore .opMaskb = false := by decide
  refine ⟨⟨hclass.1, rfl, rfl⟩, ⟨List.mem_cons_self, hclass.2, rfl, rfl, hrd⟩, fun c h => ?_, fun c h => ?_⟩
  · exact expMask_eq _ rfl rfl ms mc ds rfl hms hmc hds
  · exact expMask_inv _ _

/-- A quadword is cleared. -/
theorem computes_clear (hrd : Writable rd) :
    Computes rest.withShifts.withImpl (.mk3 .opMov rd Reg.zero Reg.zero Reg.zero 3 0) fun _ _ => 0 := by
  have hclass : (isload .opMov || isstore .opMov) = false ∧ isstore .opMov = false := by decide
  have hremap : remap Reg.zero = Reg.zero := by decide
  refine ⟨⟨hclass.1, rfl, rfl⟩, ⟨List.mem_cons_self, hclass.2, rfl, rfl, hrd⟩, fun c h => ?_, fun c h => ?_⟩
  · show c.arf (remap Reg.zero) = 0
    rw [hremap, h.zero]
  · show c.arflags (remap Reg.zero) &&& FLAG_INV = 0
    rw [remap_zeroFlags h]
    decide

/-- No operation. -/
theorem computes_nop (hrd : Writable rd) (size : ℕ) :
    Computes rest.withShifts.withImpl (.mk3 .opNop rd Reg.zero Reg.zero Reg.zero size 0) fun _ _ => 0 := by
  have hclass : (isload .opNop || isstore .opNop) = false ∧ isstore .opNop = false := by decide
  have hzero : (0 : W16) &&& FLAG_INV = 0 := by decide
  exact ⟨⟨hclass.1, rfl, rfl⟩, ⟨List.mem_cons_self, hclass.2, rfl, rfl, hrd⟩, fun _ _ => rfl, fun _ _ => hzero⟩

end Uops

/-! ### Sources -/

namespace XmmSource

variable (rest : Synthop) (src : XmmSource) {pfx : Prefixes} {rip : W64} {c : SeqCore}

/-- The registers the loads of a source write. -/
def loadTemps : List Reg :=
  [Reg.temp6, Reg.temp8, Reg.temp0, Reg.temp4, Reg.temp9] ++ [Reg.temp6, Reg.temp8, Reg.temp1, Reg.temp4, Reg.temp9]

theorem temps_loadTemps : Temps loadTemps := by decide

/-- The canonical address is that of the low 48 bits. -/
theorem canonicalAddr_congr {v v' : W64} (h : v.setWidth 48 = v'.setWidth 48) : canonicalAddr v = canonicalAddr v' := by
  unfold canonicalAddr
  rw [h]

theorem setWidth_byteAddr (v : W64) :
    (BitVec.ofNat 64 (byteAddr (canonicalAddr v) 8)).setWidth 48 = v.setWidth 48 + 8 := by
  have hsum : BitVec.ofNat 64 (byteAddr (canonicalAddr v) 8) = (v.setWidth 48).signExtend 64 + 8 := by
    apply BitVec.eq_of_toNat_eq
    unfold byteAddr canonicalAddr
    rw [BitVec.toNat_ofNat, Nat.mod_mod, BitVec.toNat_add]
    rfl
  rw [hsum, BitVec.setWidth_add _ _ (by decide), PackedOp.setWidth_signExtend _ (by decide)]
  rfl

theorem setWidth_accessValue (o : X86Operand) :
    (accessValue pfx c rip { o with disp := o.disp + 8 }).setWidth 48 = (accessValue pfx c rip o).setWidth 48 + 8 := by
  have hadd : ∀ a b : W64, (a + b).setWidth 48 = a.setWidth 48 + b.setWidth 48 := fun a b =>
    BitVec.setWidth_add a b (by decide)
  have height : (8 : W64).setWidth 48 = 8 := rfl
  unfold accessValue X86Operand.sum
  dsimp only
  split
  · rw [signext64_48, signext64_48, PackedOp.setWidth_signExtend _ (by decide), PackedOp.setWidth_signExtend _ (by decide),
      ← add_assoc, hadd _ 8, height]
  · rw [hadd, hadd (biasValue pfx c), ← add_assoc, hadd _ 8, height, ← add_assoc]
    rfl

/-- The address of the upper half. -/
theorem address_upper {o : X86Operand} (hcanon : canonicalAddr (BitVec.ofNat 64 (byteAddr (Operand.address pfx c rip o) 8)) =
    byteAddr (Operand.address pfx c rip o) 8) :
    Operand.address pfx c rip { o with disp := o.disp + 8 } = byteAddr (Operand.address pfx c rip o) 8 := by
  rw [← hcanon]
  exact canonicalAddr_congr ((setWidth_accessValue o).trans (setWidth_byteAddr _).symm)

/-- **Where `memRight` holds and the middle is canonical the uops load what x86 does.** -/
theorem agrees (h : c.Ready) {o : X86Operand} (hwf : o.base = .rip → o.index = none) (hright : memRight pfx rip o = true)
    (hread : (mem o).X86Readable pfx rip c)
    (hcanon : canonicalAddr (BitVec.ofNat 64 (byteAddr (Operand.effective pfx rip c o) 8)) =
      byteAddr (Operand.effective pfx rip c o) 8) :
    (mem o).Readable pfx rip c ∧ (mem o).value pfx rip c = (mem o).x86Value pfx rip c := by
  obtain ⟨hctx, hlow, hhigh⟩ := hread
  have hagrees : (Operand.mem o 3).Agrees pfx rip c := Operand.agrees_of_memRight h hctx hwf hright
  have haddr : Operand.address pfx c rip o = Operand.effective pfx rip c o := hagrees
  rw [← haddr] at hlow hhigh hcanon
  have hupper := address_upper hcanon
  unfold Readable value x86Value
  dsimp only
  rw [hupper, ← haddr]
  exact ⟨⟨hctx, hlow, hhigh⟩, rfl⟩

/-- The source is in two registers. -/
theorem wp_load (h : c.Ready) (hread : src.Readable pfx rip c) : Wp rest.packed (src.load pfx rip) (fun c' =>
    Leaves loadTemps c.space.bytes c c' ∧ c'.arf src.high ++ c'.arf src.low = src.value pfx rip c) c := by
  cases src with
  | reg r => exact Triples.wp_nil ⟨(Leaves.refl h).mono (List.nil_subset _), rfl⟩
  | mem o =>
    obtain ⟨hctx, hlow, hhigh⟩ := hread
    have hld : isload .opLdA16 = true ∧ isload .opLd = true := by decide
    have hw : Writable Reg.temp0 ∧ Writable Reg.temp1 := ⟨⟨by decide, by decide, by decide⟩, by decide, by decide, by decide⟩
    have htemps : Temps [Reg.temp6, Reg.temp8, Reg.temp0, Reg.temp4, Reg.temp9] := by decide
    refine Triples.wp_append (Triples.wp_mono (wp_loadOperand pfx rip Reg.temp0 o 3 (rest.withVectors.withShifts) h hctx
      false hld.1 (by decide) hw.1 hlow) fun c₁ h₁ => ?_)
    obtain ⟨hl₁, hv₁, -⟩ := h₁
    have haddr : canonicalAddr (accessValue pfx c₁ rip { o with disp := o.disp + 8 }) =
        Operand.address pfx c rip { o with disp := o.disp + 8 } := Operand.address_congr hl₁ htemps _
    refine Triples.wp_mono (wp_loadOperand pfx rip Reg.temp1 { o with disp := o.disp + 8 } 3 (rest.withVectors.withShifts)
      hl₁.ready (hctx.leaves hl₁ htemps) false hld.2 (by decide) hw.2 ?_) fun c₂ h₂ => ?_
    · unfold Accessible
      rw [haddr, hl₁.check]
      exact hhigh
    · obtain ⟨hl₂, hv₂, -⟩ := h₂
      rw [haddr, hl₁.bytes] at hv₂
      rw [hl₁.bytes] at hl₂
      refine ⟨hl₁.trans hl₂, congrArg₂ (· ++ ·) (hv₂.trans ?_) ?_⟩
      · exact BitVec.setWidth_eq _
      · exact (hl₂.arf Reg.temp0 (by decide)).trans (hv₁.trans (BitVec.setWidth_eq _))

/-- A source that may not be loaded is not. -/
theorem not_wp_load (h : c.Ready) (hctx : src.X86Readable pfx rip c) (hno : ¬src.Readable pfx rip c) (ops : List TransOp)
    {Q : SeqCore → Prop} : ¬Wp rest.packed (src.load pfx rip ++ ops) Q c := by
  have hnonempty : Nonempty (ℕ → Sfr) := ⟨fun _ => Frame.Sfr.zero⟩
  cases src with
  | reg r => exact absurd trivial hno
  | mem o =>
    have hld : isload .opLdA16 = true ∧ isload .opLd = true := by decide
    have hw : Writable Reg.temp0 ∧ Writable Reg.temp1 := ⟨⟨by decide, by decide, by decide⟩, by decide, by decide, by decide⟩
    have htemps : Temps [Reg.temp6, Reg.temp8, Reg.temp0, Reg.temp4, Reg.temp9] := by decide
    have hops : (mem o).load pfx rip ++ ops = addressGenerate pfx rip Reg.temp0 Reg.zero (o.memRef 3) .opLdA16 false false ++
        (addressGenerate pfx rip Reg.temp1 Reg.zero ({ o with disp := o.disp + 8 }.memRef 3) .opLd false false ++ ops) :=
      List.append_assoc _ _ _
    rw [hops]
    by_cases hlow : Accessible c false (Operand.address pfx c rip o) 3
    · -- it is the upper half that is refused
      refine Triples.not_wp_append (wp_loadOperand pfx rip Reg.temp0 o 3 rest.withVectors.withShifts h hctx.1
        false hld.1 (by decide) hw.1 hlow) ?_
      rintro c₁ ⟨hl₁, -, -⟩
      refine not_wp_loadOperand pfx rip Reg.temp1 { o with disp := o.disp + 8 } 3 rest.withVectors.withShifts hl₁.ready
        (hctx.1.leaves hl₁ htemps) false hld.2 (by decide) hw.2 ops fun hhigh => hno ⟨hctx.1, hlow, ?_⟩
      change Accessible c₁ false (Operand.address pfx c₁ rip { o with disp := o.disp + 8 }) 3 at hhigh
      unfold Accessible at hhigh
      rwa [Operand.address_congr hl₁ htemps, hl₁.check] at hhigh
    · exact not_wp_loadOperand pfx rip Reg.temp0 o 3 rest.withVectors.withShifts h hctx.1 false hld.1 (by decide) hw.1 _ hlow

end XmmSource

/-! ### Halves -/

/-- Halves of equal words are equal. -/
theorem append_inj {v w : ℕ} {a a' : BitVec v} {b b' : BitVec w} : a ++ b = a' ++ b' ↔ a = a' ∧ b = b' := by
  refine ⟨fun h => ⟨?_, ?_⟩, fun h => by rw [h.1, h.2]⟩
  · have hhigh := congrArg (BitVec.extractLsb' w v) h
    rwa [BitVec.extractLsb'_append_eq_left, BitVec.extractLsb'_append_eq_left] at hhigh
  · have hlow := congrArg (BitVec.setWidth w) h
    rwa [BitVec.setWidth_append_eq_right, BitVec.setWidth_append_eq_right] at hlow

namespace PackedInsn

variable {rest : Synthop} {insn : PackedInsn} {pfx : Prefixes} {rip : W64} {c c' : SeqCore} {rd : Fin 16}

theorem xmm_remap (r : Fin 16) : remap (Reg.xmml r) = Reg.xmml r ∧ remap (Reg.xmmh r) = Reg.xmmh r := by
  revert r
  decide

theorem xmm_writable (r : Fin 16) : Writable (Reg.xmml r) ∧ Writable (Reg.xmmh r) := by
  have hall : ∀ r : Fin 16, (Reg.xmml r ≠ Reg.zero ∧ Reg.xmml r ≠ Reg.trace ∧ Reg.xmml r ≠ Reg.flags) ∧
      Reg.xmmh r ≠ Reg.zero ∧ Reg.xmmh r ≠ Reg.trace ∧ Reg.xmmh r ≠ Reg.flags := by decide
  obtain ⟨⟨h1, h2, h3⟩, h4, h5, h6⟩ := hall r
  exact ⟨⟨h1, h2, h3⟩, h4, h5, h6⟩

/-- Of the registers written the halves of the destination are all that matter. -/
theorem right_iff {rs : List Reg} (hl : Leaves rs c.space.bytes c c')
    (hrs : ∀ r ∈ rs, 64 ≤ r.val ∨ r = Reg.xmml insn.rd ∨ r = Reg.xmmh insn.rd) :
    insn.Made pfx rip c c' ↔ insn.made pfx rip c = some (c'.arf (Reg.xmmh insn.rd) ++ c'.arf (Reg.xmml insn.rd)) := by
  refine ⟨fun h => h.result, fun h => ⟨h, fun r hr hlo hhi => hl.arf r fun hmem => ?_, hl.bytes⟩⟩
  rcases hrs r hmem with hle | heq | heq
  · exact absurd (of_decide_eq_true hr) (Nat.not_lt.2 hle)
  · exact hlo heq
  · exact hhi heq

/-- What a uop that writes one register leaves in all. -/
theorem leaves_update {r : Reg} {v : W64} (hl : Leaves [r] c.space.bytes c c') (hv : c'.arf r = v) :
    c'.arf = Function.update c.arf r v := by
  funext s
  by_cases hs : s = r
  · rw [hs, hv, Function.update_self]
  · rw [Function.update_of_ne hs]
    exact hl.arf s fun h => hs (List.mem_singleton.1 h)

/-- An operand of a uop that is a register or immediate. -/
def operand (arf : Reg → W64) (r : Reg) (imm : W64) : W64 := if r = Reg.imm then imm else arf (remap r)

/-- Two uops in sequence. -/
theorem wp_two {exec : Synthop} {op₁ op₂ : TransOp} {f₁ f₂ : W64 → W64 → W64} (h₁ : Computes exec op₁ f₁)
    (h₂ : Computes exec op₂ f₂) (h : c.Ready) :
    let v₁ := f₁ (c.arf (remap op₁.ra)) (operand c.arf op₁.rb op₁.rbimm)
    let arf₁ := Function.update c.arf op₁.rd v₁
    Wp exec [op₁, op₂] (fun c' => Leaves [op₁.rd, op₂.rd] c.space.bytes c c' ∧ c'.arf = Function.update arf₁ op₂.rd
      (f₂ (arf₁ (remap op₂.ra)) (operand arf₁ op₂.rb op₂.rbimm))) c := by
  intro v₁ arf₁
  refine Triples.wp_cons (Triples.wp_mono (h₁.wp h) fun c₁ hc₁ => ?_)
  have harf : c₁.arf = arf₁ := leaves_update hc₁.1 hc₁.2
  refine Triples.wp_mono (h₂.wp hc₁.1.ready) fun c' hc' => ?_
  have hl := hc₁.1.trans hc'.1
  rw [hc₁.1.bytes] at hl
  refine ⟨hl, (leaves_update hc'.1 hc'.2).trans ?_⟩
  show Function.update c₁.arf op₂.rd (f₂ (c₁.arf (remap op₂.ra)) (operand c₁.arf op₂.rb op₂.rbimm)) = _
  rw [harf]

theorem halves_ne (rd : Fin 16) : Reg.xmml rd ≠ Reg.xmmh rd := by
  revert rd
  decide

/-- Two uops that write the halves of a register. -/
theorem wp_halves {exec : Synthop} {op₁ op₂ : TransOp} {f₁ f₂ : W64 → W64 → W64} (h₁ : Computes exec op₁ f₁)
    (h₂ : Computes exec op₂ f₂) (hlo : op₁.rd = Reg.xmml rd) (hhi : op₂.rd = Reg.xmmh rd) (h : c.Ready) :
    let v₁ := f₁ (c.arf (remap op₁.ra)) (operand c.arf op₁.rb op₁.rbimm)
    let arf₁ := Function.update c.arf (Reg.xmml rd) v₁
    Wp exec [op₁, op₂] (fun c' => Leaves [Reg.xmml rd, Reg.xmmh rd] c.space.bytes c c' ∧ c'.arf (Reg.xmml rd) = v₁ ∧
      c'.arf (Reg.xmmh rd) = f₂ (arf₁ (remap op₂.ra)) (operand arf₁ op₂.rb op₂.rbimm)) c := by
  intro v₁ arf₁
  refine Triples.wp_mono (wp_two h₁ h₂ h) fun c' hc' => ?_
  rw [hlo, hhi] at hc'
  refine ⟨hc'.1, ?_, ?_⟩
  · rw [hc'.2, Function.update_of_ne (halves_ne rd), Function.update_self]
  · rw [hc'.2, Function.update_self]

/-- A packed operation on the halves of a register. -/
theorem wp_packed (rest : Synthop) (rd : Fin 16) (p : PackedOp) (b₁ b₂ : Reg) (imm : W64) (h : c.Ready) :
    let v₁ := p.result (c.arf (Reg.xmml rd)) (operand c.arf b₁ imm)
    Wp rest.packed [{ TransOp.mk3 p.uop.1 (Reg.xmml rd) (Reg.xmml rd) b₁ Reg.zero p.uop.2 imm with cond := p.cond },
        { TransOp.mk3 p.uop.1 (Reg.xmmh rd) (Reg.xmmh rd) b₂ Reg.zero p.uop.2 imm with cond := p.cond }] (fun c' =>
      Leaves [Reg.xmml rd, Reg.xmmh rd] c.space.bytes c c' ∧ c'.arf (Reg.xmml rd) = v₁ ∧
      c'.arf (Reg.xmmh rd) = p.result (c.arf (Reg.xmmh rd)) (operand (Function.update c.arf (Reg.xmml rd) v₁) b₂ imm)) c := by
  intro v₁
  have hlo : remap (Reg.xmml rd) = Reg.xmml rd := (xmm_remap rd).1
  have hhi : remap (Reg.xmmh rd) = Reg.xmmh rd := (xmm_remap rd).2
  have hpair := wp_halves (computes_packed rest (Reg.xmml rd) b₁ p (xmm_writable rd).1 Reg.zero imm)
    (computes_packed rest (Reg.xmmh rd) b₂ p (xmm_writable rd).2 Reg.zero imm) rfl rfl h
  dsimp only [TransOp.mk3, TransOp.init] at hpair
  rw [hlo, hhi, Function.update_of_ne (halves_ne rd).symm] at hpair
  exact hpair

/-- The registers of a source, as operands. -/
theorem operand_source (arf : Reg → W64) (src : XmmSource) :
    operand arf src.low 0 = arf src.low ∧ operand arf src.high 0 = arf src.high := by
  have hreg : ∀ r : Fin 16, Reg.xmml r ≠ Reg.imm ∧ Reg.xmmh r ≠ Reg.imm := by decide
  have hmem : (Reg.temp0 ≠ Reg.imm ∧ remap Reg.temp0 = Reg.temp0) ∧ Reg.temp1 ≠ Reg.imm ∧ remap Reg.temp1 = Reg.temp1 := by
    decide
  unfold operand
  cases src with
  | reg r =>
    refine ⟨(if_neg (hreg r).1).trans ?_, (if_neg (hreg r).2).trans ?_⟩
    · exact congrArg arf (xmm_remap r).1
    · exact congrArg arf (xmm_remap r).2
  | mem o =>
    refine ⟨(if_neg hmem.1.1).trans ?_, (if_neg hmem.2.1).trans ?_⟩
    · exact congrArg arf hmem.1.2
    · exact congrArg arf hmem.2.2

/-- The destination's lower half is no upper one, and no lower one of another source. -/
theorem source_ne (src : XmmSource) (rd : Fin 16) : src.high ≠ Reg.xmml rd ∧ (src ≠ .reg rd → src.low ≠ Reg.xmml rd) := by
  have hreg : ∀ r rd : Fin 16, Reg.xmmh r ≠ Reg.xmml rd ∧ (Reg.xmml r = Reg.xmml rd → r = rd) := by decide
  have hmem : ∀ rd : Fin 16, Reg.temp1 ≠ Reg.xmml rd ∧ Reg.temp0 ≠ Reg.xmml rd := by decide
  cases src with
  | reg r => exact ⟨(hreg r rd).1, fun hne heq => hne (congrArg XmmSource.reg ((hreg r rd).2 heq))⟩
  | mem o => exact ⟨(hmem rd).1, fun _ => (hmem rd).2⟩

/-- What the second uop reads is as it was, unless it is the count in the destination. -/
theorem halves_right_iff (rd : Fin 16) (p : PackedOp) (src : XmmSource) (arf : Reg → W64) :
    let al := arf (Reg.xmml rd)
    let ah := arf (Reg.xmmh rd)
    let arf₁ := Function.update arf (Reg.xmml rd) (p.result al (arf src.low))
    p.result (ah ++ al) (arf src.high ++ arf src.low) =
        p.result ah (arf₁ (bif p.isShift then src.low else src.high)) ++ p.result al (arf src.low) ↔
      (p.isShift = true → src = .reg rd → p.result ah (p.result al al) = p.result ah al) := by
  intro al ah arf₁
  rw [PackedOp.result_append, append_inj]
  have hhigh : arf₁ src.high = arf src.high := Function.update_of_ne (source_ne src rd).1 _ _
  cases hshift : p.isShift with
  | false =>
    rw [cond_false, cond_false, hhigh]
    exact ⟨fun _ hno => absurd hno (by decide), fun _ => ⟨rfl, rfl⟩⟩
  | true =>
    rw [cond_true, cond_true]
    by_cases hsrc : src = .reg rd
    · -- the count is read again
      subst hsrc
      have hagain : arf₁ (XmmSource.reg rd).low = p.result al al := Function.update_self _ _ _
      rw [hagain]
      exact ⟨fun h _ _ => h.1.symm, fun h => ⟨(h rfl rfl).symm, rfl⟩⟩
    · have hlow : arf₁ src.low = arf src.low := Function.update_of_ne ((source_ne src rd).2 hsrc) _ _
      rw [hlow]
      exact ⟨fun _ _ hno => absurd hno hsrc, fun _ => ⟨rfl, rfl⟩⟩

/-- **An operation of the first table, or a compare.** -/
theorem wp_source (rest : Synthop) (rd : Fin 16) (p : PackedOp) {src : XmmSource} (h : c.Ready) (hread : src.Readable pfx rip c) :
    Wp rest.packed (src.load pfx rip ++
      [{ TransOp.mk3 p.uop.1 (Reg.xmml rd) (Reg.xmml rd) src.low Reg.zero p.uop.2 0 with cond := p.cond },
        { TransOp.mk3 p.uop.1 (Reg.xmmh rd) (Reg.xmmh rd) (bif p.isShift then src.low else src.high) Reg.zero p.uop.2 0 with
          cond := p.cond }]) (fun c' =>
      Leaves (XmmSource.loadTemps ++ [Reg.xmml rd, Reg.xmmh rd]) c.space.bytes c c' ∧
        (p.result (SeqCore.xmm c rd) (src.value pfx rip c) = SeqCore.xmm c' rd ↔
          (p.isShift = true → src = .reg rd →
            p.result (c.arf (Reg.xmmh rd)) (p.result (c.arf (Reg.xmml rd)) (c.arf (Reg.xmml rd))) =
              p.result (c.arf (Reg.xmmh rd)) (c.arf (Reg.xmml rd))))) c := by
  refine Triples.wp_append (Triples.wp_mono (XmmSource.wp_load rest src h hread) fun c₁ hc₁ => ?_)
  obtain ⟨hl₁, hvalue⟩ := hc₁
  have harch : ∀ r : Fin 16, (Reg.xmml r).isArch = true ∧ Reg.xmml r ≠ Reg.flags ∧ (Reg.xmmh r).isArch = true ∧
      Reg.xmmh r ≠ Reg.flags := by decide
  have hlow : c₁.arf (Reg.xmml rd) = c.arf (Reg.xmml rd) :=
    hl₁.arch XmmSource.temps_loadTemps (harch rd).1 (harch rd).2.1
  have hhigh : c₁.arf (Reg.xmmh rd) = c.arf (Reg.xmmh rd) :=
    hl₁.arch XmmSource.temps_loadTemps (harch rd).2.2.1 (harch rd).2.2.2
  refine Triples.wp_mono (wp_packed rest rd p src.low (bif p.isShift then src.low else src.high) 0 hl₁.ready) fun c' hc' => ?_
  obtain ⟨hl', hlo', hhi'⟩ := hc'
  rw [hl₁.bytes] at hl'
  refine ⟨hl₁.trans hl', ?_⟩
  have hpick : ∀ arf : Reg → W64, operand arf (bif p.isShift then src.low else src.high) 0 =
      arf (bif p.isShift then src.low else src.high) := fun arf => by
    cases p.isShift
    · exact (operand_source arf src).2
    · exact (operand_source arf src).1
  rw [(operand_source _ _).1] at hlo' hhi'
  rw [hpick] at hhi'
  have hiff := halves_right_iff rd p src c₁.arf
  dsimp only at hiff
  rw [hvalue, hlow, hhigh] at hiff
  rw [hlow] at hlo' hhi'
  rw [hhigh] at hhi'
  unfold SeqCore.xmm
  rw [hlo', hhi']
  exact hiff

/-! ### Bytes shifted between halves -/

theorem toNat_bitmask {l : ℕ} (hl : l < 64) : (bitmask l).toNat = 2 ^ l - 1 := by
  have hone : bitmask l = 1#64 <<< l - 1 := if_neg (Nat.ne_of_lt hl)
  have hpow : 2 ^ l < 2 ^ 64 := Nat.pow_lt_pow_right (by decide) hl
  have hpos : 0 < 2 ^ l := Nat.two_pow_pos l
  have hshift : (1#64 <<< l).toNat = 2 ^ l := by
    rw [BitVec.toNat_shiftLeft, BitVec.toNat_ofNat, Nat.shiftLeft_eq]
    show 1 * 2 ^ l % 2 ^ 64 = _
    omega
  rw [hone, BitVec.toNat_sub, hshift]
  show (2 ^ 64 - 1 + 2 ^ l) % 2 ^ 64 = _
  omega

theorem bitmask_bit {l : ℕ} (hl : l < 64) (k : ℕ) : (bitmask l).getLsbD k = decide (k < l) := by
  rw [BitVec.getLsbD, toNat_bitmask hl, Nat.testBit_two_pow_sub_one]

/-- The mask of the upper bits. -/
theorem upperMask_bit {s k : ℕ} (hpos : 0 < s) (hlt : s < 64) (hk : k < 64) :
    ((bitmask (64 - s)).rotateRight (64 - s)).getLsbD k = decide (s ≤ k) := by
  rw [BitVec.getLsbD_rotateRight_of_lt (by omega), bitmask_bit (by omega), bitmask_bit (by omega), decide_eq_true hk,
    Bool.true_and]
  by_cases h : k < 64 - (64 - s)
  · rw [decide_eq_true h, cond_true, decide_eq_false (by omega), decide_eq_false (by omega)]
  · rw [decide_eq_false h, cond_false, decide_eq_true (by omega), decide_eq_true (by omega)]

/-- The upper half of a left shift. -/
theorem mask_left (hi lo : W64) {s : ℕ} (hpos : 0 < s) (hlt : s < 64) :
    ((lo.rotateLeft s &&& ~~~(bitmask (64 - s)).rotateRight (64 - s)) |||
      (hi.rotateRight (64 - s) &&& (bitmask (64 - s)).rotateRight (64 - s))) ++ (lo <<< s) = (hi ++ lo) <<< s := by
  apply BitVec.eq_of_getLsbD_eq
  intro i hi'
  rw [BitVec.getLsbD_append, BitVec.getLsbD_shiftLeft, BitVec.getLsbD_shiftLeft, BitVec.getLsbD_append, decide_eq_true hi',
    Bool.true_and]
  by_cases hlow : i < 64
  · rw [if_pos hlow, if_pos (show i - s < 64 by omega), decide_eq_true hlow, Bool.true_and]
  · have hk : i - 64 < 64 := by omega
    rw [if_neg hlow, decide_eq_false (show ¬i < s by omega), Bool.not_false, Bool.true_and, BitVec.getLsbD_or,
      BitVec.getLsbD_and, BitVec.getLsbD_and, BitVec.getLsbD_not, upperMask_bit hpos hlt hk, decide_eq_true hk, Bool.true_and,
      BitVec.getLsbD_rotateLeft_of_le hlt, BitVec.getLsbD_rotateRight_of_lt (by omega)]
    by_cases hs : i - 64 < s
    · -- from the lower half
      rw [if_pos (show i - s < 64 by omega), decide_eq_true hs, decide_eq_false (show ¬s ≤ i - 64 by omega), cond_true,
        Bool.not_false, Bool.and_true, Bool.and_false, Bool.or_false]
      congr 1
      omega
    · rw [if_neg (show ¬i - s < 64 by omega), decide_eq_true (show s ≤ i - 64 by omega),
        decide_eq_false (show ¬i - 64 < 64 - (64 - s) by omega), cond_false, decide_eq_true hk, Bool.not_true, Bool.and_false,
        Bool.false_or, Bool.true_and, Bool.and_true]
      congr 1
      omega

/-- The lower half of a right shift. -/
theorem mask_right (hi lo : W64) {s : ℕ} (hpos : 0 < s) (hlt : s < 64) :
    (hi >>> s) ++ ((hi.rotateRight s &&& ~~~(bitmask (64 - s)).rotateRight 0) |||
      (lo.rotateRight s &&& (bitmask (64 - s)).rotateRight 0)) = (hi ++ lo) >>> s := by
  have hzero : (bitmask (64 - s)).rotateRight 0 = bitmask (64 - s) := by
    rw [BitVec.rotateRight_eq_rotateRightAux_of_lt (by decide), BitVec.rotateRightAux]
    simp
  apply BitVec.eq_of_getLsbD_eq
  intro i hi'
  rw [BitVec.getLsbD_append, BitVec.getLsbD_ushiftRight, BitVec.getLsbD_ushiftRight, BitVec.getLsbD_append, hzero]
  by_cases hlow : i < 64
  · rw [if_pos hlow, BitVec.getLsbD_or, BitVec.getLsbD_and, BitVec.getLsbD_and, BitVec.getLsbD_not, bitmask_bit (by omega),
      BitVec.getLsbD_rotateRight_of_lt hlt, BitVec.getLsbD_rotateRight_of_lt hlt, decide_eq_true hlow, Bool.true_and,
      Bool.true_and, Bool.true_and]
    by_cases hs : i < 64 - s
    · rw [if_pos (show s + i < 64 by omega), decide_eq_true hs, cond_true, cond_true, Bool.not_true, Bool.and_false,
        Bool.false_or, Bool.and_true]
    · -- from the upper half
      rw [if_neg (show ¬s + i < 64 by omega), decide_eq_false hs, cond_false, cond_false, Bool.not_false, Bool.and_true,
        Bool.and_false, Bool.or_false]
      congr 1
      omega
  · rw [if_neg hlow, if_neg (show ¬s + i < 64 by omega)]
    congr 1
    omega

/-- The destination after a shift of bytes, the immediate read as signed. -/
def byteShifted (left : Bool) (v : BitVec (64 + 64)) (hi lo : W64) (imm : Byte) : BitVec (64 + 64) :=
  if imm.toNat < 128 then if left then v <<< (8 * imm.toNat) else v >>> (8 * imm.toNat)
  else if imm.toNat % 8 = 0 then if left then lo ++ lo else hi ++ hi
  else if left then v <<< (8 * (imm.toNat % 8)) else v >>> (8 * (imm.toNat % 8))

/-- The count of a shift by bytes. -/
theorem count_bytes (n : ℤ) : ShiftUop.count 64 (BitVec.ofInt 64 (n * 8)) = 8 * (n % 8).toNat := by
  unfold ShiftUop.count
  rw [if_pos rfl, BitVec.toNat_ofInt]
  omega

/-- No turn. -/
theorem rotate_zero (right : Bool) (v : W64) : rotate right v 0 = v := by
  apply BitVec.eq_of_getLsbD_eq
  intro i hi
  unfold rotate
  cases right with
  | true =>
    rw [if_pos rfl, BitVec.getLsbD_rotateRight_of_lt (by decide), decide_eq_true (show i < 64 - 0 from hi), cond_true,
      Nat.zero_add]
  | false =>
    rw [if_neg (by decide), BitVec.getLsbD_rotateLeft_of_le (by decide), decide_eq_false (Nat.not_lt_zero i), cond_false,
      decide_eq_true hi, Bool.true_and, Nat.sub_zero]

/-- The halves that the mask uop and the shift leave, the shift modulo eight bytes. -/
theorem few_left (hi lo : W64) {k d : ℕ} (hk : k < 8) (hd : d = (64 - 8 * k) % 64) :
    ((rotate false lo (8 * k) &&& ~~~(bitmask d).rotateRight d) ||| (hi.rotateRight d &&& (bitmask d).rotateRight d)) ++
      (lo <<< (8 * k)) = if k = 0 then lo ++ lo else (hi ++ lo) <<< (8 * k) := by
  split
  · rename_i h0
    have hbit : (bitmask 0).rotateRight 0 = (0 : W64) := by decide
    have hnot : ~~~(0 : W64) = BitVec.allOnes 64 := by decide
    obtain rfl : d = 0 := by omega
    rw [h0, Nat.mul_zero, hbit, rotate_zero, BitVec.shiftLeft_zero, hnot, BitVec.and_allOnes]
    exact congrArg (· ++ lo) (by simp)
  · obtain rfl : d = 64 - 8 * k := by omega
    exact mask_left hi lo (by omega) (by omega)

theorem few_right (hi lo : W64) {k d : ℕ} (hk : k < 8) (hd : d = (64 - 8 * k) % 64) :
    (hi >>> (8 * k)) ++ ((rotate true hi (8 * k) &&& ~~~(bitmask d).rotateRight 0) |||
      (lo.rotateRight (8 * k) &&& (bitmask d).rotateRight 0)) = if k = 0 then hi ++ hi else (hi ++ lo) >>> (8 * k) := by
  split
  · rename_i h0
    have hbit : (bitmask 0).rotateRight 0 = (0 : W64) := by decide
    have hnot : ~~~(0 : W64) = BitVec.allOnes 64 := by decide
    obtain rfl : d = 0 := by omega
    rw [h0, Nat.mul_zero, hbit, rotate_zero, BitVec.ushiftRight_zero, hnot, BitVec.and_allOnes]
    exact congrArg (hi ++ ·) (by simp)
  · obtain rfl : d = 64 - 8 * k := by omega
    exact mask_right hi lo (by omega) (by omega)

/-- A temporary from one half, the other from the temporary and itself, and the first from itself. -/
theorem wp_three {exec : Synthop} {o₁ o₃ : Opcode} {x y : Reg} {b ctl : W64} {f₁ f₂ f₃ : W64 → W64 → W64}
    (hx : remap x = x ∧ x ≠ Reg.imm ∧ x ≠ Reg.temp0) (hy : remap y = y ∧ y ≠ Reg.temp0) (hxy : x ≠ y)
    (h₁ : Computes exec (.mk3 o₁ Reg.temp0 y Reg.imm Reg.zero 3 b) f₁)
    (h₂ : Computes exec (.init .opMaskb x Reg.temp0 x Reg.imm 3 0 ctl .none) f₂)
    (h₃ : Computes exec (.mk3 o₃ y y Reg.imm Reg.zero 3 b) f₃) (h : c.Ready) :
    Wp exec [.mk3 o₁ Reg.temp0 y Reg.imm Reg.zero 3 b, .init .opMaskb x Reg.temp0 x Reg.imm 3 0 ctl .none,
        .mk3 o₃ y y Reg.imm Reg.zero 3 b] (fun c' => Leaves [Reg.temp0, x, y] c.space.bytes c c' ∧
      c'.arf x = f₂ (f₁ (c.arf y) b) (c.arf x) ∧ c'.arf y = f₃ (c.arf y) b) c := by
  have hremap : remap Reg.temp0 = Reg.temp0 := by decide
  refine Triples.wp_cons (Triples.wp_mono (h₁.wp h) fun c₁ hc₁ => ?_)
  obtain ⟨hl₁, hv₁⟩ := hc₁
  refine Triples.wp_mono (wp_two h₂ h₃ hl₁.ready) fun c' hc' => ?_
  obtain ⟨hl, hall⟩ := hc'
  rw [hl₁.bytes] at hl
  have htemp : c₁.arf Reg.temp0 = f₁ (c.arf y) b := by
    refine hv₁.trans ?_
    show f₁ (c.arf (remap y)) _ = _
    rw [hy.1]
    rfl
  have hx₁ : c₁.arf x = c.arf x := hl₁.arf x fun hmem => hx.2.2 (List.mem_singleton.1 hmem)
  have hy₁ : c₁.arf y = c.arf y := hl₁.arf y fun hmem => hy.2 (List.mem_singleton.1 hmem)
  have hall' : c'.arf = Function.update (Function.update c₁.arf x (f₂ (c₁.arf Reg.temp0) (c₁.arf x))) y (f₃ (c₁.arf y) b) := by
    refine hall.trans ?_
    show Function.update (Function.update c₁.arf x (f₂ (c₁.arf (remap Reg.temp0)) (operand c₁.arf x 0))) y
      (f₃ (Function.update c₁.arf x (f₂ (c₁.arf (remap Reg.temp0)) (operand c₁.arf x 0)) (remap y)) b) = _
    unfold operand
    rw [if_neg hx.2.1, hx.1, hy.1, hremap, Function.update_of_ne hxy.symm]
  refine ⟨hl₁.trans hl, ?_, ?_⟩
  · rw [hall', Function.update_of_ne hxy, Function.update_self, htemp, hx₁]
  · rw [hall', Function.update_self, hy₁]

/-- Fewer than eight bytes, or a negative number of them. -/
theorem wp_few {n : ℤ} (left : Bool) (hn : n ≠ 0) (hlt : n < 8) (h : c.Ready) : Wp rest.packed (byteShift left rd n) (fun c' =>
    Leaves [Reg.temp0, Reg.xmmh rd, Reg.xmml rd] c.space.bytes c c' ∧ SeqCore.xmm c' rd =
      if left then
        if (n % 8).toNat = 0 then c.arf (Reg.xmml rd) ++ c.arf (Reg.xmml rd) else SeqCore.xmm c rd <<< (8 * (n % 8).toNat)
      else if (n % 8).toNat = 0 then c.arf (Reg.xmmh rd) ++ c.arf (Reg.xmmh rd)
        else SeqCore.xmm c rd >>> (8 * (n % 8).toNat)) c := by
  have hk : (n % 8).toNat < 8 := by omega
  have hd : ((8 - n) * 8 % 64).toNat = (64 - 8 * (n % 8).toNat) % 64 := by omega
  have hs : (n * 8 % 64).toNat = 8 * (n % 8).toNat := by omega
  have hdlt : (64 - 8 * (n % 8).toNat) % 64 < 64 := Nat.mod_lt _ (by decide)
  have ht : Writable Reg.temp0 := ⟨by decide, by decide, by decide⟩
  have hregs : ∀ r : Fin 16, (Reg.xmml r ≠ Reg.imm ∧ Reg.xmml r ≠ Reg.temp0) ∧ Reg.xmmh r ≠ Reg.imm ∧ Reg.xmmh r ≠ Reg.temp0 := by
    decide
  have hlo : remap (Reg.xmml rd) = Reg.xmml rd ∧ Reg.xmml rd ≠ Reg.imm ∧ Reg.xmml rd ≠ Reg.temp0 :=
    ⟨(xmm_remap rd).1, (hregs rd).1⟩
  have hhi : remap (Reg.xmmh rd) = Reg.xmmh rd ∧ Reg.xmmh rd ≠ Reg.imm ∧ Reg.xmmh rd ≠ Reg.temp0 :=
    ⟨(xmm_remap rd).2, (hregs rd).2⟩
  unfold byteShift
  dsimp only
  rw [if_neg hn, if_pos hlt, hd, hs]
  -- a rotation brings the bytes that cross over to the other end, where the mask takes them
  cases left with
  | true =>
    rw [if_pos rfl, if_pos rfl]
    have hrot := computes_rotate rest.withVectors (Reg.xmml rd) Reg.imm false ht (BitVec.ofInt 64 (n * 8))
    have hmask := computes_mask rest.withVectors Reg.temp0 (Reg.xmmh rd) (xmm_writable rd).2 hdlt hdlt hdlt
    have hshl := computes_shift rest.withVectors (Reg.xmml rd) Reg.imm true (xmm_writable rd).1 (BitVec.ofInt 64 (n * 8))
    refine Triples.wp_mono (wp_three hhi ⟨hlo.1, hlo.2.2⟩ (halves_ne rd).symm hrot hmask hshl h) fun c' hc' => ⟨hc'.1, ?_⟩
    have hvalue := few_left (c.arf (Reg.xmmh rd)) (c.arf (Reg.xmml rd)) hk rfl
    unfold SeqCore.xmm
    rw [hc'.2.1, hc'.2.2, count_bytes]
    exact hvalue
  | false =>
    rw [if_neg (by decide), if_neg (by decide)]
    have hrot := computes_rotate rest.withVectors (Reg.xmmh rd) Reg.imm true ht (BitVec.ofInt 64 (n * 8))
    have hmask := computes_mask rest.withVectors Reg.temp0 (Reg.xmml rd) (xmm_writable rd).1 (show 0 < 64 by decide) hdlt
      (show 8 * (n % 8).toNat < 64 by omega)
    have hshr := computes_shift rest.withVectors (Reg.xmmh rd) Reg.imm false (xmm_writable rd).2 (BitVec.ofInt 64 (n * 8))
    refine Triples.wp_mono (wp_three hlo ⟨hhi.1, hhi.2.2⟩ (halves_ne rd) hrot hmask hshr h) fun c' hc' => ⟨?_, ?_⟩
    · exact hc'.1.mono (by simp)
    · have hvalue := few_right (c.arf (Reg.xmmh rd)) (c.arf (Reg.xmml rd)) hk rfl
      unfold SeqCore.xmm
      rw [hc'.2.1, hc'.2.2, count_bytes]
      exact hvalue

/-- A shift by at least a half. -/
theorem shift_half (hi lo : W64) {k : ℕ} (hk : 64 ≤ k) :
    (hi ++ lo) <<< k = (lo <<< (k - 64)) ++ (0 : W64) ∧ (hi ++ lo) >>> k = (0 : W64) ++ (hi >>> (k - 64)) := by
  constructor
  · apply BitVec.eq_of_getLsbD_eq
    intro i hi'
    rw [BitVec.getLsbD_append, BitVec.getLsbD_shiftLeft, BitVec.getLsbD_shiftLeft, BitVec.getLsbD_append, decide_eq_true hi',
      Bool.true_and]
    by_cases hlow : i < 64
    · rw [if_pos hlow, decide_eq_true (show i < k by omega), Bool.not_true, Bool.false_and]
      exact BitVec.getLsbD_zero.symm
    · have hsub : i - 64 - (k - 64) = i - k := by omega
      rw [if_neg hlow, if_pos (show i - k < 64 by omega), decide_eq_true (show i - 64 < 64 by omega), Bool.true_and, hsub]
      by_cases hlt : i < k
      · rw [decide_eq_true hlt, decide_eq_true (show i - 64 < k - 64 by omega)]
      · rw [decide_eq_false hlt, decide_eq_false (show ¬i - 64 < k - 64 by omega)]
  · apply BitVec.eq_of_getLsbD_eq
    intro i hi'
    rw [BitVec.getLsbD_append, BitVec.getLsbD_ushiftRight, BitVec.getLsbD_ushiftRight, BitVec.getLsbD_append,
      if_neg (show ¬k + i < 64 by omega)]
    have hsub : k + i - 64 = k - 64 + i := by omega
    by_cases hlow : i < 64
    · rw [if_pos hlow, hsub]
    · rw [if_neg hlow, BitVec.getLsbD_of_ge hi _ (by omega)]
      exact BitVec.getLsbD_zero.symm

/-- A byte from eight to fifteen. -/
theorem wp_many (left : Bool) {n : ℕ} (hge : 8 ≤ n) (hlt : n < 16) (h : c.Ready) :
    Wp rest.packed [.mk3 (if left then .opShl else .opShr) (if left then Reg.xmmh rd else Reg.xmml rd)
        (if left then Reg.xmml rd else Reg.xmmh rd) Reg.imm Reg.zero 3 (BitVec.ofInt 64 ((n : ℤ) % 8 * 8)),
      .mk3 .opMov (if left then Reg.xmml rd else Reg.xmmh rd) Reg.zero Reg.zero Reg.zero 3 0] (fun c' =>
      Leaves [Reg.xmml rd, Reg.xmmh rd] c.space.bytes c c' ∧
        SeqCore.xmm c' rd = if left then SeqCore.xmm c rd <<< (8 * n) else SeqCore.xmm c rd >>> (8 * n)) c := by
  have hcount := count_bytes ((n : ℤ) % 8)
  have hmod : 8 * ((n : ℤ) % 8 % 8).toNat = 8 * n - 64 := by omega
  rw [hmod] at hcount
  have hhalf := shift_half (c.arf (Reg.xmmh rd)) (c.arf (Reg.xmml rd)) (k := 8 * n) (by omega)
  have hshift := computes_shift rest.withVectors (if left then Reg.xmml rd else Reg.xmmh rd) Reg.imm left
    (show Writable (if left then Reg.xmmh rd else Reg.xmml rd) by cases left <;> simp [xmm_writable])
    (BitVec.ofInt 64 ((n : ℤ) % 8 * 8))
  have hclear := computes_clear rest.withVectors
    (show Writable (if left then Reg.xmml rd else Reg.xmmh rd) by cases left <;> simp [xmm_writable])
  refine Triples.wp_mono (wp_two hshift hclear h) fun c' hc' => ?_
  obtain ⟨hl, hall⟩ := hc'
  cases left with
  | true =>
    have hall' : c'.arf = Function.update (Function.update c.arf (Reg.xmmh rd) (c.arf (remap (Reg.xmml rd)) <<<
        ShiftUop.count 64 (BitVec.ofInt 64 ((n : ℤ) % 8 * 8)))) (Reg.xmml rd) 0 := hall
    refine ⟨hl.mono (List.Perm.swap (Reg.xmml rd) (Reg.xmmh rd) []).subset, ?_⟩
    unfold SeqCore.xmm
    rw [hall', Function.update_self, Function.update_of_ne (halves_ne rd).symm, Function.update_self, (xmm_remap rd).1, hcount]
    exact hhalf.1.symm
  | false =>
    have hall' : c'.arf = Function.update (Function.update c.arf (Reg.xmml rd) (c.arf (remap (Reg.xmmh rd)) >>>
        ShiftUop.count 64 (BitVec.ofInt 64 ((n : ℤ) % 8 * 8)))) (Reg.xmmh rd) 0 := hall
    refine ⟨hl, ?_⟩
    unfold SeqCore.xmm
    rw [hall', Function.update_self, Function.update_of_ne (halves_ne rd), Function.update_self, (xmm_remap rd).2, hcount]
    exact hhalf.2.symm

/-- A byte read as signed. -/
theorem toInt_byte (imm : Byte) : imm.toInt = if imm.toNat < 128 then (imm.toNat : ℤ) else imm.toNat - 256 := by
  rw [BitVec.toInt_eq_toNat_cond]
  have hlt := imm.isLt
  split <;> split <;> omega

/-- **A shift of bytes.** -/
theorem wp_byteShift (left : Bool) (imm : Byte) (h : c.Ready) : Wp rest.packed (byteShift left rd imm.toInt) (fun c' =>
    Leaves [Reg.temp0, Reg.xmmh rd, Reg.xmml rd] c.space.bytes c c' ∧
      SeqCore.xmm c' rd = byteShifted left (SeqCore.xmm c rd) (c.arf (Reg.xmmh rd)) (c.arf (Reg.xmml rd)) imm) c := by
  have hint := toInt_byte imm
  have hlt := imm.isLt
  unfold byteShifted
  by_cases hfew : imm.toInt ≠ 0 ∧ imm.toInt < 8
  · have hmod : (imm.toInt % 8).toNat = imm.toNat % 8 := by
      rw [hint]
      split <;> omega
    refine Triples.wp_mono (wp_few left hfew.1 hfew.2 h) fun c' hc' => ⟨hc'.1, hc'.2.trans ?_⟩
    rw [hmod]
    by_cases hsmall : imm.toNat < 128
    · rw [if_pos hsmall] at hint ⊢
      have hk : imm.toNat % 8 = imm.toNat := by omega
      have hne : imm.toNat ≠ 0 := by omega
      rw [hk, if_neg hne, if_neg hne]
    · rw [if_neg hsmall]
      cases left <;> rfl
  · have hsmall : imm.toNat < 128 := by
      by_contra hno
      rw [if_neg hno] at hint
      omega
    rw [if_pos hsmall] at hint ⊢
    rw [hint] at hfew ⊢
    unfold byteShift
    dsimp only
    by_cases h0 : imm.toNat = 0
    · -- nothing to do
      have hnop := computes_nop rest.withVectors (show Writable Reg.temp0 from ⟨by decide, by decide, by decide⟩) 3
      rw [if_pos (Nat.cast_eq_zero.2 h0), h0]
      refine Triples.wp_mono (hnop.wp h) fun c' hc' => ⟨hc'.1.mono (by simp [TransOp.mk3, TransOp.init]), ?_⟩
      have hregs : ∀ r : Fin 16, Reg.xmml r ≠ Reg.temp0 ∧ Reg.xmmh r ≠ Reg.temp0 := by decide
      have hlo : c'.arf (Reg.xmml rd) = c.arf (Reg.xmml rd) :=
        hc'.1.arf _ fun hmem => (hregs rd).1 (List.mem_singleton.1 hmem)
      have hhi : c'.arf (Reg.xmmh rd) = c.arf (Reg.xmmh rd) :=
        hc'.1.arf _ fun hmem => (hregs rd).2 (List.mem_singleton.1 hmem)
      unfold SeqCore.xmm
      rw [hlo, hhi, Nat.mul_zero, BitVec.shiftLeft_zero, BitVec.ushiftRight_zero, ite_self]
    rw [if_neg (by omega), if_neg (by omega)]
    by_cases h16 : imm.toNat < 16
    · rw [if_pos (by omega)]
      exact Triples.wp_mono (wp_many left (by omega) h16 h) fun c' hc' => ⟨hc'.1.mono (by simp), hc'.2⟩
    · rw [if_neg (by omega)]
      have hlo := computes_clear rest.withVectors (xmm_writable rd).1
      have hhi := computes_clear rest.withVectors (xmm_writable rd).2
      refine Triples.wp_mono (wp_halves hlo hhi rfl rfl h) fun c' hc' => ⟨hc'.1.mono (by simp), ?_⟩
      have hall : (64 + 64 : ℕ) ≤ 8 * imm.toNat := by omega
      unfold SeqCore.xmm
      rw [hc'.2.1, hc'.2.2, BitVec.shiftLeft_eq_zero hall, BitVec.ushiftRight_eq_zero hall, ite_self]
      rfl

/-! ### Immediate counts -/

/-- What is left of a lane shifted by its width or more. -/
def beyond (p : PackedOp) (a : W64) : W64 :=
  if p.uop.1 = .opVsar then
    Lanes.zip (opWidth p.uop.2) (64 / opWidth p.uop.2) (fun x y => PackedOp.mask (decide ((x - y).toInt < 0))) a 0
  else 0

theorem ofLanes_zero (w n : ℕ) : Lanes.ofLanes 64 (fun _ => (0 : BitVec w)) n = 0 := by
  induction n with
  | zero => rfl
  | succ n ih =>
    unfold Lanes.ofLanes
    rw [ih]
    simp

/-- An arithmetic shift by the width or more leaves the sign. -/
theorem sshiftRight_of_le {w n : ℕ} (x : BitVec w) (h : w ≤ n) : x.sshiftRight n = PackedOp.mask (decide (x.toInt < 0)) := by
  have hmsb : decide (x.toInt < 0) = x.msb := by
    rw [BitVec.msb_eq_toInt]
  rw [hmsb]
  apply BitVec.eq_of_getLsbD_eq
  intro i hi
  rw [BitVec.getLsbD_sshiftRight, decide_eq_false (Nat.not_le.2 hi), Bool.not_false, Bool.true_and,
    if_neg (show ¬n + i < w by omega)]
  unfold PackedOp.mask
  cases x.msb
  · exact BitVec.getLsbD_zero.symm
  · rw [if_pos rfl, BitVec.getLsbD_allOnes, decide_eq_true hi]

theorem lanes_sign {w n k : ℕ} (a : W64) (h : w ≤ k) : Lanes.map w n (fun x => x.sshiftRight k) a =
    Lanes.zip w n (fun x y => PackedOp.mask (decide ((x - y).toInt < 0))) a 0 := by
  refine Lanes.ofLanes_congr fun i _ => ?_
  have hzero : Lanes.lane w (0 : W64) i = 0 := BitVec.extractLsb'_zero
  dsimp only
  rw [hzero, sub_zero]
  exact sshiftRight_of_le _ h

theorem shift_beyond {p : PackedOp} (hp : p.isShift = true) {a b : W64} (h : opWidth p.uop.2 ≤ b.toNat) :
    p.result a b = beyond p a := by
  have hcount : Lanes.lane 64 b 0 = b := PackedOp.lane_self b
  cases p with
  | psll size =>
    dsimp only [PackedOp.result]
    rw [hcount]
    refine Eq.trans (Lanes.ofLanes_congr fun i _ => ?_) (ofLanes_zero _ _)
    exact BitVec.shiftLeft_eq_zero h
  | psrl size =>
    dsimp only [PackedOp.result]
    rw [hcount]
    refine Eq.trans (Lanes.ofLanes_congr fun i _ => ?_) (ofLanes_zero _ _)
    exact BitVec.ushiftRight_eq_zero h
  | psra size =>
    dsimp only [PackedOp.result]
    rw [hcount]
    exact lanes_sign a h
  | _ => cases hp

/-- The lanes of a sign are filled by a compare with zero. -/
theorem computes_fill (rest : Synthop) {size : ℕ} (hsize : size ≤ 3) {r : Reg} (hr : Writable r) :
    Computes rest.packed (half .opVcmp r Reg.zero size Cond.s.code) fun a b =>
      Lanes.zip (opWidth size) (64 / opWidth size) (fun x y => PackedOp.mask (decide ((x - y).toInt < 0))) a b := by
  have hclass : (isload .opVcmp || isstore .opVcmp) = false ∧ isstore .opVcmp = false := by decide
  have hcode : Cond.ofCode Cond.s.code = .s := by decide
  have hexec : ∀ i, rest.packed (half .opVcmp r Reg.zero size Cond.s.code) i = vcmp .s size i := fun i => by
    refine (PackedOp.exec_vec rest rfl rfl rfl i).trans ?_
    show vcmp (Cond.ofCode Cond.s.code) size i = _
    rw [hcode]
  refine ⟨⟨hclass.1, rfl, rfl⟩, ⟨List.mem_cons_self, hclass.2, rfl, rfl, hr⟩, fun c _ => ?_, fun c _ => ?_⟩
  · refine (congrArg UopResult.rddata (hexec _)).trans (PackedOp.vcmp_rddata hsize (fun x y => ?_) _)
    show (x - y).toInt < 0 ↔ _
    exact decide_eq_true_iff.symm
  · refine (congrArg (fun u : UopResult => u.rdflags &&& FLAG_INV) (hexec _)).trans ?_
    exact PackedOp.genflags_inv _

/-- The immediate as a count. -/
theorem imm_count (imm : Byte) : (imm.setWidth (64 + 64) : BitVec (64 + 64)) = (0 : W64) ++ (imm.setWidth 64 : W64) := by
  apply BitVec.eq_of_getLsbD_eq
  intro i hi
  rw [BitVec.getLsbD_setWidth, decide_eq_true hi, Bool.true_and, BitVec.getLsbD_append]
  by_cases hlow : i < 64
  · rw [if_pos hlow, BitVec.getLsbD_setWidth, decide_eq_true hlow, Bool.true_and]
  · rw [if_neg hlow, BitVec.getLsbD_of_ge imm i (by omega)]
    exact BitVec.getLsbD_zero.symm

/-- The immediate sign extended shifts as it does zero extended: where they differ both are beyond every width. -/
theorem result_imm {p : PackedOp} (hp : p.isShift = true) (hw : opWidth p.uop.2 ≤ 64) (a : W64) (imm : Byte) :
    p.result a (imm.signExtend 64) = p.result a (imm.setWidth 64) := by
  have hlt := imm.isLt
  have hzext : (imm.setWidth 64).toNat = imm.toNat := by
    rw [BitVec.toNat_setWidth]
    omega
  by_cases hsmall : imm.toNat < 128
  · have hmsb : imm.msb = false := by
      rw [BitVec.msb_eq_decide]
      exact decide_eq_false (by omega)
    rw [BitVec.signExtend_eq_setWidth_of_msb_false hmsb]
  · have hsext : (imm.signExtend 64).toNat = 2 ^ 64 - 256 + imm.toNat := by
      rw [PackedOp.sext_eq imm (by decide), toInt_byte, if_neg hsmall, BitVec.toNat_ofInt]
      omega
    rw [shift_beyond hp (by omega), shift_beyond hp (by omega)]

/-- **A shift by an immediate count.** -/
theorem wp_immShift {p : PackedOp} (hp : p.isShift = true) (imm : Byte) (h : c.Ready) :
    Wp rest.packed (immShift p.uop.1 p.uop.2 rd imm) (fun c' => Leaves [Reg.xmml rd, Reg.xmmh rd] c.space.bytes c c' ∧
      SeqCore.xmm c' rd = p.result (SeqCore.xmm c rd) (imm.setWidth (64 + 64))) c := by
  have hint := toInt_byte imm
  have hlt := imm.isLt
  have hsize : p.uop.2 ≤ 3 := by
    cases p with
    | psll size | psrl size => exact size.isLt
    | psra size => exact Nat.succ_le_succ (Nat.le_of_lt size.isLt)
    | _ => cases hp
  have hw : opWidth p.uop.2 ≤ 64 := opWidth_le hsize
  have hcond : p.cond = 0 := by
    cases p <;> first | rfl | cases hp
  have hzext : (imm.setWidth 64).toNat = imm.toNat := by
    rw [BitVec.toNat_setWidth]
    omega
  have hvalue : p.result (SeqCore.xmm c rd) (imm.setWidth (64 + 64)) =
      p.result (c.arf (Reg.xmmh rd)) (imm.setWidth 64) ++ p.result (c.arf (Reg.xmml rd)) (imm.setWidth 64) := by
    rw [imm_count]
    exact (PackedOp.result_append _ _ _ _ p).trans (by rw [hp, cond_true])
  rw [hvalue]
  unfold SeqCore.xmm immShift
  dsimp only
  by_cases hle : (opWidth p.uop.2 : ℤ) ≤ imm.toInt
  · have hbeyond : opWidth p.uop.2 ≤ (imm.setWidth 64).toNat := by
      rw [hzext]
      split at hint <;> omega
    rw [if_pos hle, shift_beyond hp hbeyond, shift_beyond hp hbeyond]
    by_cases hsar : p.uop.1 = .opVsar
    · rw [if_pos hsar]
      have hremap : remap Reg.zero = Reg.zero := by decide
      have hne : ∀ r : Fin 16, Reg.zero ≠ Reg.xmml r := by decide
      have hpair := wp_halves (computes_fill rest hsize (xmm_writable rd).1) (computes_fill rest hsize (xmm_writable rd).2)
        rfl rfl h
      have hregs : remap (half .opVcmp (Reg.xmml rd) Reg.zero p.uop.2 Cond.s.code).ra = Reg.xmml rd ∧
          remap (half .opVcmp (Reg.xmmh rd) Reg.zero p.uop.2 Cond.s.code).ra = Reg.xmmh rd := xmm_remap rd
      have hzero : ∀ arf : Reg → W64, arf Reg.zero = 0 → operand arf Reg.zero 0 = 0 := fun arf h0 => by
        unfold operand
        rw [if_neg (by decide), hremap, h0]
      refine Triples.wp_mono hpair fun c' hc' => ⟨hc'.1, ?_⟩
      unfold beyond
      rw [if_pos hsar, if_pos hsar, hc'.2.1, hc'.2.2, hregs.1, hregs.2, Function.update_of_ne (halves_ne rd).symm]
      refine congrArg₂ (· ++ ·) (congrArg _ (hzero _ ?_)) (congrArg _ (hzero _ h.zero))
      rw [Function.update_of_ne (hne rd), h.zero]
    · rw [if_neg hsar]
      refine Triples.wp_mono (wp_halves (computes_clear rest.withVectors (xmm_writable rd).1)
        (computes_clear rest.withVectors (xmm_writable rd).2) rfl rfl h) fun c' hc' => ⟨hc'.1, ?_⟩
      unfold beyond
      rw [if_neg hsar, if_neg hsar, hc'.2.1, hc'.2.2]
  · rw [if_neg hle]
    -- the byte was compared as a signed one: from 128 on the uops shift by it, and clear the lanes themselves
    have hpair := wp_packed rest rd p Reg.imm Reg.imm (imm.signExtend 64) h
    rw [hcond] at hpair
    refine Triples.wp_mono hpair fun c' hc' => ⟨hc'.1, ?_⟩
    rw [hc'.2.1, hc'.2.2]
    exact congrArg₂ (· ++ ·) (result_imm hp hw _ imm) (result_imm hp hw _ imm)

/-! ### Exactly when -/

/-- The registers written are the destination's, beside temporaries. -/
theorem written_temps {rs : List Reg} {rd : Fin 16} (h : Temps rs) (hf : Reg.flags ∉ rs) :
    ∀ r ∈ rs ++ [Reg.xmml rd, Reg.xmmh rd], 64 ≤ r.val ∨ r = Reg.xmml rd ∨ r = Reg.xmmh rd := by
  intro r hr
  rcases List.mem_append.1 hr with hr | hr
  · exact (h r hr).elim .inl fun heq => absurd (heq ▸ hr) hf
  · simp only [List.mem_cons, List.not_mem_nil, or_false] at hr
    exact .inr hr

/-- A whole shift, and the one that is done. -/
theorem byteShifted_iff (left : Bool) (hi lo : W64) (imm : Byte) :
    (if left then (hi ++ lo) <<< (8 * imm.toNat) else (hi ++ lo) >>> (8 * imm.toNat)) =
        byteShifted left (hi ++ lo) hi lo imm ↔
      imm.toNat < 128 ∨ if imm.toNat % 8 = 0 then (if left then lo else hi) = 0 else
        (if left then (hi ++ lo) <<< (8 * (imm.toNat % 8)) else (hi ++ lo) >>> (8 * (imm.toNat % 8))) = 0 := by
  unfold byteShifted
  by_cases hsmall : imm.toNat < 128
  · rw [if_pos hsmall]
    exact iff_of_true rfl (.inl hsmall)
  · have hall : (64 + 64 : ℕ) ≤ 8 * imm.toNat := by omega
    have htwice : ∀ v : W64, v ++ v = (0 : BitVec (64 + 64)) ↔ v = 0 := fun v => by
      have hzero : (0 : BitVec (64 + 64)) = (0 : W64) ++ (0 : W64) := by decide
      rw [hzero, append_inj, and_self_iff]
    have hnone : (if left then (hi ++ lo) <<< (8 * imm.toNat) else (hi ++ lo) >>> (8 * imm.toNat)) = 0 := by
      rw [BitVec.shiftLeft_eq_zero hall, BitVec.ushiftRight_eq_zero hall, ite_self]
      rfl
    rw [if_neg hsmall, hnone, eq_comm, or_iff_right hsmall]
    split
    · cases left
      · exact htwice hi
      · exact htwice lo
    · exact Iff.rfl

/-- What the postcondition of an operation of two operands comes to. -/
theorem source_right_iff (insn : PackedInsn) {p : PackedOp} {src : XmmSource} {P : Prop} (hrd : insn.rd = rd)
    (hresult : insn.made pfx rip c = some (p.result (SeqCore.xmm c rd) (src.value pfx rip c)))
    (hl : Leaves (XmmSource.loadTemps ++ [Reg.xmml rd, Reg.xmmh rd]) c.space.bytes c c')
    (hiff : p.result (SeqCore.xmm c rd) (src.value pfx rip c) = SeqCore.xmm c' rd ↔ P) : insn.Made pfx rip c c' ↔ P := by
  subst hrd
  rw [right_iff hl (written_temps XmmSource.temps_loadTemps (by decide)), hresult]
  exact Option.some_inj.trans hiff

/-- `pxor` of a register and itself. -/
theorem wp_clear (h : c.Ready) : Wp rest.packed [.mk3 .opXor (Reg.xmml rd) Reg.zero Reg.zero Reg.zero 3 0,
    .mk3 .opXor (Reg.xmmh rd) Reg.zero Reg.zero Reg.zero 3 0] (fun c' =>
      Leaves (XmmSource.loadTemps ++ [Reg.xmml rd, Reg.xmmh rd]) c.space.bytes c c' ∧
        PackedOp.pxor.result (SeqCore.xmm c rd) (SeqCore.xmm c rd) = SeqCore.xmm c' rd) c := by
  have hremap : remap Reg.zero = Reg.zero := by decide
  have hne : ∀ r : Fin 16, Reg.zero ≠ Reg.xmml r := by decide
  have hzero : (0 : W64) ++ (0 : W64) = (0 : BitVec (64 + 64)) := by decide
  have hself : ∀ arf : Reg → W64, arf Reg.zero = 0 →
      PackedOp.pxor.result (arf (remap Reg.zero)) (operand arf Reg.zero 0) = (0 : W64) := fun arf h0 => by
    unfold operand
    rw [if_neg (by decide), hremap, h0]
    rfl
  have hpair := wp_halves (computes_packed rest Reg.zero Reg.zero .pxor (xmm_writable rd).1 Reg.zero 0)
    (computes_packed rest Reg.zero Reg.zero .pxor (xmm_writable rd).2 Reg.zero 0) rfl rfl h
  refine Triples.wp_mono hpair fun c' hc' => ⟨hc'.1.mono (List.subset_append_right _ _), ?_⟩
  have hlo : c'.arf (Reg.xmml rd) = 0 := hc'.2.1.trans (hself _ h.zero)
  have hhi : c'.arf (Reg.xmmh rd) = 0 := hc'.2.2.trans (hself _ (by rw [Function.update_of_ne (hne rd), h.zero]))
  show SeqCore.xmm c rd ^^^ SeqCore.xmm c rd = c'.arf (Reg.xmmh rd) ++ c'.arf (Reg.xmml rd)
  rw [hlo, hhi, BitVec.xor_self, hzero]
  rfl

/-- The first table. -/
theorem wp_binary {row : Fin 3} {col : Fin 16} {src : XmmSource} {ops : List TransOp} (h : c.Ready)
    (hread : src.Readable pfx rip c) (hdec : (binary row col rd src).decode pfx rip = some ops) :
    Wp rest.packed ops (fun c' => (binary row col rd src).Made pfx rip c c' ↔ (binary row col rd src).HalvesExact c) c := by
  unfold decode at hdec
  dsimp only at hdec
  split at hdec
  · rename_i hcase
    obtain ⟨htable, hops⟩ := packed_tables row col
    rw [hcase] at htable
    obtain ⟨p, hp⟩ := Option.isSome_iff_exists.1 htable.symm
    obtain ⟨huop, hcond, hshift, hxor⟩ := hops p hp
    have hresult : (binary row col rd src).made pfx rip c = some (p.result (SeqCore.xmm c rd) (src.value pfx rip c)) := by
      unfold made result
      dsimp only
      rw [hp, Option.map_some]
    have hexact : (binary row col rd src).HalvesExact c ↔ (p.isShift = true → src = .reg rd →
        p.result (c.arf (Reg.xmmh rd)) (p.result (c.arf (Reg.xmml rd)) (c.arf (Reg.xmml rd))) =
          p.result (c.arf (Reg.xmmh rd)) (c.arf (Reg.xmml rd))) :=
      ⟨fun hall => hall p hp, fun hone p' hp' => Option.some.inj (hp.symm.trans hp') ▸ hone⟩
    rw [hexact]
    split at hdec
    · rename_i hself
      obtain ⟨hop, rfl⟩ := hself
      obtain rfl := hxor hop
      obtain rfl := Option.some.inj hdec
      refine Triples.wp_mono (wp_clear h) fun c' hc' => source_right_iff _ rfl hresult hc'.1 ?_
      exact iff_of_true hc'.2 fun hno => absurd hno (by decide)
    · obtain rfl := Option.some.inj hdec
      have hpick : (if p.isShift = true then src.low else src.high) = bif p.isShift then src.low else src.high := by
        cases p.isShift <;> rfl
      have hwp := wp_source rest rd p h hread
      rw [← huop, hcond, ← hpick] at hwp
      rw [hshift]
      exact Triples.wp_mono hwp fun c' hc' => source_right_iff _ rfl hresult hc'.1 hc'.2
  · cases hdec

/-- The compares. -/
theorem wp_compare {eq : Bool} {size : Fin 3} {src : XmmSource} {ops : List TransOp} (h : c.Ready)
    (hread : src.Readable pfx rip c) (hdec : (compare eq size rd src).decode pfx rip = some ops) :
    Wp rest.packed ops ((compare eq size rd src).Made pfx rip c) c := by
  obtain rfl := Option.some.inj hdec
  cases eq with
  | true =>
    refine Triples.wp_mono (wp_source rest rd (.pcmpeq size) h hread) fun c' hc' => ?_
    exact (source_right_iff (compare true size rd src) rfl rfl hc'.1 hc'.2).2 fun hno => absurd hno Bool.false_ne_true
  | false =>
    refine Triples.wp_mono (wp_source rest rd (.pcmpgt size) h hread) fun c' hc' => ?_
    exact (source_right_iff (compare false size rd src) rfl rfl hc'.1 hc'.2).2 fun hno => absurd hno Bool.false_ne_true

/-- The whole register shifted. -/
theorem wp_wholeShift (left : Bool) (imm : Byte) (h : c.Ready) : Wp rest.packed (byteShift left rd imm.toInt) (fun c' =>
    (shiftImm 2 (if left then 7 else 3) rd imm).Made pfx rip c c' ↔ (shiftImm 2 (if left then 7 else 3) rd imm).HalvesExact c) c := by
  have htemps : Temps [Reg.temp0] := by decide
  refine Triples.wp_mono (wp_byteShift left imm h) fun c' hc' => ?_
  obtain ⟨hl, hvalue⟩ := hc'
  have hiff := byteShifted_iff left (c.arf (Reg.xmmh rd)) (c.arf (Reg.xmml rd)) imm
  rw [right_iff (hl.mono (show _ ⊆ [Reg.temp0] ++ [Reg.xmml rd, Reg.xmmh rd] by simp)) (written_temps htemps (by decide))]
  have hresult : (shiftImm 2 (if left then 7 else 3) rd imm).made pfx rip c = some (if left then
      (c.arf (Reg.xmmh rd) ++ c.arf (Reg.xmml rd)) <<< (8 * imm.toNat) else
        (c.arf (Reg.xmmh rd) ++ c.arf (Reg.xmml rd)) >>> (8 * imm.toNat)) := by
    cases left <;> rfl
  have hexact : (shiftImm 2 (if left then 7 else 3) rd imm).HalvesExact c ↔ imm.toNat < 128 ∨ if imm.toNat % 8 = 0 then
      (if left then c.arf (Reg.xmml rd) else c.arf (Reg.xmmh rd)) = 0 else
        (if left then (c.arf (Reg.xmmh rd) ++ c.arf (Reg.xmml rd)) <<< (8 * (imm.toNat % 8)) else
          (c.arf (Reg.xmmh rd) ++ c.arf (Reg.xmml rd)) >>> (8 * (imm.toNat % 8))) = 0 := by
    cases left <;> exact Iff.rfl
  rw [hresult, hexact, ← hiff]
  refine Option.some_inj.trans ?_
  show _ = SeqCore.xmm c' rd ↔ _
  rw [hvalue]
  rfl

/-- The immediate counts that the code has: those of the manual, and one more. -/
theorem shift_tables : ∀ (size : Fin 3) (reg : Fin 8), (immOperation size reg = none → shiftOpcode reg ≠ none →
      size = 2 ∧ reg = 4) ∧ (size = 2 ∧ reg = 4 → immOperation size reg = none) ∧
    ∀ p ∈ immOperation size reg, p.isShift = true ∧ shiftOpcode reg = some p.uop.1 ∧ p.uop.2 = size.val + 1 := by
  decide

theorem shiftImm_right_iff {size : Fin 3} {reg : Fin 8} {imm : Byte} {ops : List TransOp}
    (hwhole : ¬(size = 2 ∧ (reg = 3 ∨ reg = 7))) (h : c.Ready)
    (hdec : ((shiftOpcode reg).map fun opcode => immShift opcode (size.val + 1) rd imm) = some ops) :
    Wp rest.packed ops ((shiftImm size reg rd imm).Made pfx rip c) c ↔ (shiftImm size reg rd imm).HalvesExact c := by
  have hnonempty : Nonempty (ℕ → Sfr) := ⟨fun _ => Frame.Sfr.zero⟩
  have h3 : ¬(size = 2 ∧ reg = 3) := fun hand => hwhole ⟨hand.1, .inl hand.2⟩
  have h7 : ¬(size = 2 ∧ reg = 7) := fun hand => hwhole ⟨hand.1, .inr hand.2⟩
  have hresult : (shiftImm size reg rd imm).made pfx rip c =
      (immOperation size reg).map fun p => p.result (SeqCore.xmm c rd) (imm.setWidth (64 + 64)) := by
    show (if _ then _ else _) = _
    rw [if_neg h3, if_neg h7]
  have hexact : (shiftImm size reg rd imm).HalvesExact c ↔ ¬(size = 2 ∧ reg = 4) := by
    show (if _ then _ else _) ↔ _
    rw [if_neg h3, if_neg h7]
  obtain ⟨hnone, hsar, hsome⟩ := shift_tables size reg
  rw [hexact]
  cases hp : immOperation size reg with
  | none =>
    -- there is no such instruction
    have hopcode : shiftOpcode reg ≠ none := by
      rintro hno
      rw [hno] at hdec
      cases hdec
    refine iff_of_false (fun hall => ?_) (not_not.2 (hnone hp hopcode))
    obtain ⟨c', -, hright⟩ := hall fun _ _ => Frame.Sfr.zero
    have heq := hright.result
    rw [hresult, hp] at heq
    cases heq
  | some p =>
    obtain ⟨hshift, hopcode, hsize⟩ := hsome p hp
    rw [hopcode] at hdec
    obtain rfl := Option.some.inj hdec
    rw [← hsize]
    have hexists : ¬(size = 2 ∧ reg = 4) := fun hand => by
      rw [hsar hand] at hp
      cases hp
    refine iff_of_true (Triples.wp_mono (wp_immShift hshift imm h) fun c' hc' => ?_) hexists
    have hl := hc'.1
    rw [right_iff (hl.mono (show _ ⊆ [] ++ [Reg.xmml rd, Reg.xmmh rd] by simp))
      (written_temps (fun _ h => absurd h List.not_mem_nil) List.not_mem_nil), hresult, hp]
    exact congrArg some hc'.2.symm

/-- What is made of what the uops load, exactly when no shift is by the register shifted
in a way that tells, no shift of bytes is taken for a shorter one, and the instruction exists. -/
theorem made_iff (insn : PackedInsn) {ops : List TransOp} (h : c.Ready) (hread : insn.Readable pfx rip c)
    (hdec : insn.decode pfx rip = some ops) : Wp rest.packed ops (insn.Made pfx rip c) c ↔ insn.HalvesExact c := by
  have hnonempty : Nonempty (ℕ → Sfr) := ⟨fun _ => Frame.Sfr.zero⟩
  cases insn with
  | binary row col rd src => exact Triples.wp_iff (wp_binary h (hread src rfl) hdec) fun _ h => h
  | compare eq size rd src => exact iff_of_true (wp_compare h (hread src rfl) hdec) trivial
  | shiftImm size reg rd imm =>
    unfold decode at hdec
    dsimp only at hdec
    split at hdec
    · rename_i hwhole
      obtain ⟨rfl, hreg⟩ := hwhole
      obtain rfl := Option.some.inj hdec
      rcases hreg with rfl | rfl
      · exact Triples.wp_iff (wp_wholeShift false imm h) fun _ h => h
      · exact Triples.wp_iff (wp_wholeShift true imm h) fun _ h => h
    · rename_i hwhole
      exact shiftImm_right_iff hwhole h hdec

/-- An instruction with a source loads it first. -/
theorem decode_load (insn : PackedInsn) {src : XmmSource} (hsrc : src ∈ insn.source) {ops : List TransOp}
    (hdec : insn.decode pfx rip = some ops) : ∃ after, ops = src.load pfx rip ++ after := by
  cases insn with
  | binary row col rd s =>
    obtain rfl := Option.some.inj hsrc
    unfold decode at hdec
    dsimp only at hdec
    split at hdec
    · exact ⟨_, (Option.some.inj hdec).symm⟩
    · cases hdec
  | compare eq size rd s =>
    obtain rfl := Option.some.inj hsrc
    exact ⟨_, (Option.some.inj hdec).symm⟩
  | shiftImm size reg rd imm => cases hsrc

/-- What is loaded as it is has the result of x86. -/
theorem made_eq (insn : PackedInsn) (h : ∀ src ∈ insn.source, src.value pfx rip c = src.x86Value pfx rip c) :
    insn.made pfx rip c = insn.x86Result pfx rip c := by
  unfold made x86Result result
  cases insn with
  | binary row col rd src =>
    have hsrc := h src rfl
    dsimp only
    rw [hsrc]
  | compare eq size rd src =>
    have hsrc := h src rfl
    dsimp only
    rw [hsrc]
  | shiftImm size reg rd imm => rfl

/-- So is a register. -/
theorem value_reg (r : Fin 16) : (XmmSource.reg r).value pfx rip c = (XmmSource.reg r).x86Value pfx rip c := rfl

/-- What differs from the source is loaded from memory, and then the halves do not disturb each other. -/
theorem halvesExact_of_ne (insn : PackedInsn) (hne : insn.made pfx rip c ≠ insn.x86Result pfx rip c) :
    insn.HalvesExact c := by
  cases insn with
  | binary row col rd src =>
    cases src with
    | reg r =>
      refine absurd (made_eq _ fun src hsrc => ?_) hne
      obtain rfl := Option.some.inj hsrc
      exact value_reg r
    | mem o => exact fun _ _ _ hself => XmmSource.noConfusion hself
  | compare eq size rd src => trivial
  | shiftImm size reg rd imm => exact absurd (by unfold made x86Result result; rfl) hne

/-- **Packed instructions leave what x86 says, exactly** when what the uops load has the result of
the source and the halves do not disturb each other. -/
theorem packed_right_iff (rest : Synthop) (insn : PackedInsn) (pfx : Prefixes) (rip : W64) (c : SeqCore) (ops : List TransOp)
    (h : c.Ready) (hread : insn.X86Readable pfx rip c) (hdec : insn.decode pfx rip = some ops) :
    Wp rest.withVectors.withShifts.withImpl ops (insn.Right pfx rip c) c ↔ insn.Exact pfx rip c := by
  by_cases hload : insn.Readable pfx rip c
  · unfold Exact
    rw [and_iff_right hload]
    have hiff : Wp rest.packed ops (insn.Made pfx rip c) c ↔ insn.HalvesExact c := made_iff insn h hload hdec
    by_cases heq : insn.made pfx rip c = insn.x86Result pfx rip c
    · rw [and_iff_right heq, ← hiff]
      unfold Right Made
      rw [heq]
    · refine iff_of_false (fun hright => ?_) fun hand => heq hand.1
      -- the one run has both results
      obtain ⟨c₁, hrun₁, hmade⟩ := hiff.2 (halvesExact_of_ne insn heq) fun _ _ => Frame.Sfr.zero
      obtain ⟨c₂, hrun₂, hresult⟩ := hright fun _ _ => Frame.Sfr.zero
      obtain rfl := Except.ok.inj (hrun₁.symm.trans hrun₂)
      exact heq (hmade.result.trans hresult.result.symm)
  · refine iff_of_false ?_ fun hexact => hload hexact.1
    unfold Readable at hload
    push Not at hload
    obtain ⟨src, hsrc, hno⟩ := hload
    obtain ⟨after, rfl⟩ := decode_load insn hsrc hdec
    exact XmmSource.not_wp_load rest src h (hread src hsrc) hno after

/-- `paddb xmm0, xmm1`. -/
def addBytes : PackedInsn := .binary 2 12 0 (.reg 1)

theorem packed_right_iff_paddb : Wp (Synthop.withVectors fun _ _ => ⟨0, 0⟩).withShifts.withImpl
    [half .opVadd (Reg.xmml 0) (Reg.xmml 1) 0 0, half .opVadd (Reg.xmmh 0) (Reg.xmmh 1) 0 0]
    (addBytes.Right .plain 0 (AluInsn.core fun r => if r = Reg.xmml 0 then 0xff else if r = Reg.xmml 1 then 1 else 0))
    (AluInsn.core fun r => if r = Reg.xmml 0 then 0xff else if r = Reg.xmml 1 then 1 else 0) := by
  have hready : (AluInsn.core fun r => if r = Reg.xmml 0 then 0xff else if r = Reg.xmml 1 then 1 else 0).Ready :=
    ⟨by decide +kernel, by decide +kernel, by decide +kernel, by decide +kernel⟩
  refine (packed_right_iff (fun _ _ => ⟨0, 0⟩) addBytes .plain 0 _ _ hready ?_ (by decide)).2
    ⟨?_, made_eq _ ?_, fun p hp hshift => ?_⟩
  · rintro _ ⟨⟩
    trivial
  · rintro _ ⟨⟩
    trivial
  · rintro _ ⟨⟩
    exact value_reg 1
  have hno : ∀ p ∈ operation 2 12, p.isShift = false := by decide
  exact absurd hshift (by rw [hno p hp]; decide)

/-- `psllw xmm0, xmm0`. -/
def shiftSelf : PackedInsn := .binary 2 1 0 (.reg 0)

/-- By a count of one, the words of the upper half are shifted by two. -/
theorem not_packed_right : ¬ ∀ (rest : Synthop) (insn : PackedInsn) (pfx : Prefixes) (rip : W64) (c : SeqCore)
    (ops : List TransOp), c.Ready → insn.X86Readable pfx rip c → insn.decode pfx rip = some ops →
    Wp rest.withVectors.withShifts.withImpl ops (insn.Right pfx rip c) c := by
  intro h
  let c := AluInsn.core fun r => if r = Reg.xmml 0 ∨ r = Reg.xmmh 0 then 1 else 0
  have hready : c.Ready := ⟨by decide +kernel, by decide +kernel, by decide +kernel, by decide +kernel⟩
  have hdec : shiftSelf.decode .plain 0 =
      some [half .opVshl (Reg.xmml 0) (Reg.xmml 0) 1 0, half .opVshl (Reg.xmmh 0) (Reg.xmml 0) 1 0] := by decide
  have hread : shiftSelf.X86Readable .plain 0 c := by
    rintro _ ⟨⟩
    trivial
  obtain ⟨c', hrun, hright⟩ := h (fun _ _ => ⟨0, 0⟩) shiftSelf .plain 0 c _ hready hread hdec fun _ _ => Frame.Sfr.zero
  have hvalue : (perform (Synthop.withVectors fun _ _ => ⟨0, 0⟩).withShifts.withImpl
      [half .opVshl (Reg.xmml 0) (Reg.xmml 0) 1 0, half .opVshl (Reg.xmmh 0) (Reg.xmml 0) 1 0]
      (fun _ _ => Frame.Sfr.zero) c).toOption.map (fun c => c.arf (Reg.xmmh 0)) = some 4 := by
    decide +kernel
  have hdone : perform (Synthop.withVectors fun _ _ => ⟨0, 0⟩).withShifts.withImpl
      [half .opVshl (Reg.xmml 0) (Reg.xmml 0) 1 0, half .opVshl (Reg.xmmh 0) (Reg.xmml 0) 1 0]
      (fun _ _ => Frame.Sfr.zero) c = .ok c' := hrun
  rw [hdone] at hvalue
  have hhigh : c'.arf (Reg.xmmh 0) = 4 := Option.some.inj hvalue
  have hresult : shiftSelf.x86Result .plain 0 c = some ((2 : W64) ++ (2 : W64)) := by decide +kernel
  have heq := Option.some.inj (hresult.symm.trans hright.result)
  exact absurd ((append_inj.1 heq).1.trans hhigh) (by decide)

end PackedInsn

end X86Sim
