import X86Sim.Decode.Address

/-!
# Address generation runs

Each uop of an address adds what the shape of the operand says into a temporary, so
the last one accesses the sum of the segment's base, the registers and the displacement.
-/

namespace X86Sim

open X86Sim.Seq

variable (rest : Synthop) (junk : Sfr) {c : SeqCore}

/-! ### The uops -/

/-- A result that sets no flags leaves the other registers. -/
theorem Wrote.scratch {c c' : SeqCore} {t : Reg} {v : W64} {flags : W16} (h : Wrote c c' t v 0 flags) :
    Scratch t c c' ∧ c'.arf t = v := by
  refine ⟨⟨?_, h.ready, h.space, h.ctx⟩, h.value⟩
  intro r hr
  by_cases hf : r = Reg.flags
  · subst hf
    apply BitVec.eq_of_getLsbD_eq
    intro i hi
    rw [h.status i]
    simp
  · exact h.regs r hr hf

theorem mask_none : setflagsToX86Flags .none = 0 := by decide

theorem x86Add_false {w : ℕ} (a b : BitVec w) : (x86Add a b false).1 = a + b := by
  unfold x86Add carryBit
  simp

/-- The sum on the width of the uop, merged. -/
theorem run_addSize (h : c.Ready) {rd : Reg} (hrd : Writable rd) (ra rb : Reg) {size : ℕ} (hsize : size ≤ 3)
    (imm : W64) :
    ∃ c', c.runUop rest.withImpl junk (.mk3 .opAdd rd ra rb Reg.zero size imm) = some c' ∧ Scratch rd c c' ∧
      c'.arf rd = x86Merge size (c.arf (remap ra)) (((c.arf (remap ra) +
        if rb = Reg.imm then imm else c.arf (remap rb)).setWidth (opWidth size)).setWidth 64) ∧
      c'.arflags rd &&& FLAG_INV = 0 := by
  have hle := opWidth_le hsize
  obtain ⟨c', flags, hrun, hwrote, -⟩ := run_implements rest junk implements_add (by decide) h hrd ra rb Reg.zero
    hsize imm .none
  rw [mask_none] at hwrote
  have hinv := hwrote.inv
  obtain ⟨hscratch, hval⟩ := hwrote.scratch
  refine ⟨c', hrun, hscratch, hval.trans ?_, hinv⟩
  have hcarry : (c.arflags (remap Reg.zero)).getLsbD 0 = false := by
    rw [remap_of_lt (by decide), h.zeroFlags]
    rfl
  rw [hcarry, x86Add_false, BitVec.setWidth_add _ _ hle]
  rfl

theorem run_add (h : c.Ready) {rd : Reg} (hrd : Writable rd) (ra rb : Reg) (imm : W64) :
    ∃ c', c.runUop rest.withImpl junk (.mk3 .opAdd rd ra rb Reg.zero 3 imm) = some c' ∧ Scratch rd c c' ∧
      c'.arf rd = c.arf (remap ra) + if rb = Reg.imm then imm else c.arf (remap rb) := by
  obtain ⟨c', hrun, hscratch, hval, -⟩ := run_addSize rest junk h hrd ra rb (show 3 ≤ 3 by decide) imm
  refine ⟨c', hrun, hscratch, hval.trans ?_⟩
  show ((_ : W64).setWidth 64).setWidth 64 = _
  rw [BitVec.setWidth_eq, BitVec.setWidth_eq]

/-- The sum with a scaled index. -/
theorem run_adda (h : c.Ready) {rd : Reg} (hrd : Writable rd) (ra : Reg) {idx : Reg} (hidx : idx.val < 72)
    {size : ℕ} (hsize : size ≤ 3) (scale : Fin 4) :
    ∃ c', c.runUop rest.withImpl junk (.adda rd ra idx size scale) = some c' ∧ Scratch rd c c' ∧
      c'.arf rd = x86Merge size (c.arf (remap ra))
        (((c.arf (remap ra) + c.arf idx <<< scale.val).setWidth (opWidth size)).setWidth 64) := by
  let op := TransOp.adda rd ra idx size scale
  have hle := opWidth_le hsize
  have hmem : SeqCore.isMem op = false := by
    have h : (isload .opAdda || isstore .opAdda) = false := by decide
    exact h
  have himpl : uopImpl op = some (aluop3s (fun _ a b c => a + b + c) op) := rfl
  have hinv : (aluop3s (fun _ a b c => a + b + c) op (c.inputs op)).rdflags &&& FLAG_INV = 0 :=
    and_inv (x86Genflags_bit _)
  have hrun := SeqCore.runUop_impl rest junk himpl hmem rfl rfl hrd.zero hinv
  have hwrote := wrote_writeResult h op hrd rfl hinv
  have hmask : setflagsToX86Flags op.setflags = 0 := mask_none
  rw [hmask] at hwrote
  obtain ⟨hscratch, hval⟩ := hwrote.scratch
  refine ⟨_, hrun, hscratch, hval.trans ?_⟩
  have hne : idx ≠ Reg.imm := by
    rintro rfl
    exact absurd hidx (by decide)
  have hrb : c.rbdata op = 0 := by
    have hzero : remap Reg.zero = Reg.zero := remap_of_lt (by decide)
    show (if Reg.zero = Reg.imm then _ else c.arf (remap Reg.zero)) = _
    rw [if_neg (by decide), hzero, h.zero]
  have hrc : c.rcdata op = c.arf idx := by
    show (if idx = Reg.imm then _ else c.arf (remap idx)) = _
    rw [if_neg hne, remap_of_lt hidx]
  show x86Merge size (c.arf (remap ra)) (BitVec.setWidth 64 (BitVec.setWidth _ (c.arf (remap ra)) +
    BitVec.setWidth _ (c.rbdata op) + BitVec.setWidth _ (c.rcdata op <<< scale.val))) = _
  have hz : (0 : W64).setWidth (opWidth op.size) = 0#(opWidth op.size) := by simp
  rw [hrb, hrc, hz, BitVec.add_zero, BitVec.setWidth_add _ _ hle]
  rfl

theorem run_adda3 (h : c.Ready) {rd : Reg} (hrd : Writable rd) (ra : Reg) {idx : Reg} (hidx : idx.val < 72)
    (scale : Fin 4) :
    ∃ c', c.runUop rest.withImpl junk (.adda rd ra idx 3 scale) = some c' ∧ Scratch rd c c' ∧
      c'.arf rd = c.arf (remap ra) + c.arf idx <<< scale.val := by
  obtain ⟨c', hrun, hscratch, hval⟩ := run_adda rest junk h hrd ra hidx (show 3 ≤ 3 by decide) scale
  refine ⟨c', hrun, hscratch, hval.trans ?_⟩
  show ((_ : W64).setWidth 64).setWidth 64 = _
  rw [BitVec.setWidth_eq, BitVec.setWidth_eq]

/-- Addresses of the lower half are canonical. -/
theorem sext48_of_lt {x : W64} (h : x.toNat < 2 ^ 47) : (x.setWidth 48).signExtend 64 = x := by
  have hmsb : (x.setWidth 48).msb = false := by
    rw [BitVec.msb_eq_false_iff_two_mul_lt, BitVec.toNat_setWidth]
    omega
  rw [BitVec.signExtend_eq_setWidth_of_msb_false hmsb]
  apply BitVec.eq_of_toNat_eq
  simp only [BitVec.toNat_setWidth]
  omega

/-- An aligned internal load of eight bytes delivers them. -/
theorem extractBytes_whole (chunk : W64) : extractBytes chunk 0 0 3 false = chunk := by
  show (((0 : W64) ++ chunk) >>> (8 * 0)).setWidth 64 = chunk
  rw [Nat.mul_zero, BitVec.ushiftRight_zero]
  apply BitVec.eq_of_getLsbD_eq
  intro k hk
  rw [BitVec.getLsbD_setWidth, BitVec.getLsbD_append, if_pos hk, decide_eq_true hk, Bool.true_and]

/-- The load of a segment's base. -/
theorem run_loadSegment (h : c.Ready) (hctx : HostCtx c) {segment : ℕ} (hseg : segment < 6) :
    ∃ c', c.runUop rest.withImpl junk (.loadSegment segment) = some c' ∧ Scratch Reg.temp6 c c' ∧
      c'.arf Reg.temp6 = segmentBase c segment := by
  let op := TransOp.loadSegment segment
  have halign := hctx.aligned
  have hbound := hctx.bound
  have hsmall : (BitVec.ofNat 64 (SEGMENT_BASES + segment * 8) : W64).toNat = 512 + segment * 8 := by
    rw [BitVec.toNat_ofNat]
    exact Nat.mod_eq_of_lt (by unfold SEGMENT_BASES; omega)
  -- the context is aligned and low, so neither the sum nor its sign extension wraps
  have hsum : (c.radata op + c.rbdata op).toNat = (c.arf Reg.ctx).toNat + SEGMENT_BASES + segment * 8 := by
    have hra : c.radata op = c.arf Reg.ctx := congrArg c.arf (remap_of_lt (show Reg.ctx.val < 72 by decide))
    have hrb : c.rbdata op = BitVec.ofNat 64 (SEGMENT_BASES + segment * 8) := rfl
    rw [hra, hrb, BitVec.toNat_add, hsmall]
    unfold SEGMENT_BASES
    omega
  have horig : (c.addrgen op).origaddr = (c.arf Reg.ctx).toNat + SEGMENT_BASES + segment * 8 := by
    have hlt : (c.radata op + c.rbdata op).toNat < 2 ^ 47 := by
      rw [hsum]
      unfold SEGMENT_BASES
      omega
    have hsumm : (c.addrgen op).origaddr =
        ((((c.radata op + c.rbdata op).setWidth 48).signExtend 64) &&& c.ctx.virtAddrMask).toNat := by
      unfold SeqCore.addrgen
      dsimp only
      rw [if_pos (.inr rfl)]
    rw [hsumm, sext48_of_lt hlt, hctx.mask, BitVec.and_allOnes, hsum]
  have hlow : lowbits (c.addrgen op).origaddr 3 = 0 := by
    rw [horig]
    unfold lowbits SEGMENT_BASES
    omega
  have hresult : (c.addrgen op).result = .ok (.host (c.addrgen op).origaddr) := by
    show checkAndTranslate c.space (c.addrgen op).origaddr 3 false true = _
    unfold checkAndTranslate
    rw [if_neg (by rw [hlow]; decide), if_pos rfl]
  have hload : c.issueload op junk = ⟨.completed, { junk with
      data := segmentBase c segment, physaddr := some (.host (c.addrgen op).origaddr), bytemask := 0xff },
      (c.addrgen op).origaddr⟩ := by
    have hdata : loadResult op (c.addrgen op).addr (c.addrgen op).origaddr (c.rbdata op)
        (c.loadphys (.host (c.addrgen op).origaddr)) = segmentBase c segment := by
      have haddr : (c.addrgen op).addr = (c.addrgen op).origaddr := rfl
      show extractBytes (c.loadphys _) 0 (lowbits (c.addrgen op).addr 3) 3 false = _
      rw [haddr, hlow, extractBytes_whole, horig]
      rfl
    unfold SeqCore.issueload
    dsimp only
    rw [hresult]
    dsimp only
    have hcond : op.cond ≠ LdstAlign.hi.cond := by
      have h : 0 ≠ LdstAlign.hi.cond := by decide
      exact h
    rw [if_neg fun h => hcond h.1, hdata]
  have hissue : c.issue rest.withImpl junk op = .completed ⟨segmentBase c segment, 0⟩ { junk with
      data := segmentBase c segment, physaddr := some (.host (c.addrgen op).origaddr), bytemask := 0xff } := by
    have hfp : c.fpUnavailable op = false := rfl
    have hld : isload op.opcode = true := by
      have h : isload .opLd = true := by decide
      exact h
    unfold SeqCore.issue
    rw [hfp, if_neg (by decide), hld, Bool.true_or, if_pos rfl, if_pos rfl, hload]
  have hrun : c.runUop rest.withImpl junk op = some (c.writeResult op ⟨segmentBase c segment, 0⟩) := by
    have hst : ¬(op.opcode = .opSt ∨ op.opcode = .opStA16) := by
      rintro (h | h) <;> cases h
    have hrd : op.rd ≠ Reg.zero := by
      have h : Reg.temp6 ≠ Reg.zero := by decide
      exact h
    unfold SeqCore.runUop
    rw [hissue]
    simp only [SeqCore.commitUop, if_neg hst, hrd, ne_eq, not_false_eq_true, if_true]
  have ht : Writable op.rd := by
    have h : Writable Reg.temp6 := ⟨by decide, by decide, by decide⟩
    exact h
  have hwrote := wrote_writeResult h op ht rfl (show (⟨segmentBase c segment, 0⟩ : UopResult).rdflags &&& FLAG_INV = 0 by
    exact BitVec.zero_and)
  have hmask : setflagsToX86Flags op.setflags = 0 := mask_none
  rw [hmask] at hwrote
  obtain ⟨hscratch, hval⟩ := hwrote.scratch
  exact ⟨_, hrun, hscratch, hval⟩

/-! ### The base -/

/-- What the segment adds. -/
def biasValue (pfx : Prefixes) (c : SeqCore) : W64 := if pfx.override then segmentBase c pfx.segment else 0

theorem Prefixes.segment_lt (pfx : Prefixes) : pfx.segment < 6 := by
  unfold Prefixes.segment
  repeat' split
  all_goals omega

/-- The base of the segment is added to the base register. -/
theorem run_bias (h : c.Ready) (hctx : HostCtx c) (pfx : Prefixes) {b : Reg} (hb : b.isArch = true) :
    ∃ c', c.runUops rest.withImpl junk (biasBySegreg pfx b).1 = some c' ∧ Scratch Reg.temp6 c c' ∧
      c'.arf (remap (biasBySegreg pfx b).2) = biasValue pfx c + c.arf b := by
  have hlt : b.val < 64 := of_decide_eq_true hb
  have hremap : remap b = b := remap_of_lt (by omega)
  unfold biasBySegreg biasValue
  by_cases hpfx : pfx.override = true
  · rw [if_pos hpfx, if_pos hpfx]
    have ht : Writable Reg.temp6 := ⟨by decide, by decide, by decide⟩
    obtain ⟨c1, hrun1, h1, hv1⟩ := run_loadSegment rest junk h hctx pfx.segment_lt
    obtain ⟨c2, hrun2, h2, hv2⟩ := run_add rest junk h1.ready ht Reg.temp6 b 0
    refine ⟨c2, ?_, ?_, ?_⟩
    · simp only [SeqCore.runUops, hrun1, hrun2, Option.bind_some]
    · exact ⟨fun r hr => (h2.regs r hr).trans (h1.regs r hr), h2.ready, h2.space.trans h1.space,
        h2.ctx.trans h1.ctx⟩
    · have htemp : remap Reg.temp6 = Reg.temp6 := remap_of_lt (by decide)
      have hne : b ≠ Reg.imm := by
        rintro rfl
        exact absurd hlt (by decide)
      rw [htemp] at hv2 ⊢
      rw [hv2, hv1, if_neg hne, hremap, h1.regs b (temp_not_arch (by decide) hb)]
  · rw [if_neg hpfx, if_neg hpfx]
    refine ⟨c, rfl, ⟨fun r _ => rfl, h, rfl, rfl⟩, ?_⟩
    rw [hremap]
    exact (BitVec.zero_add _).symm

/-- The last uop accesses what the others leave it. -/
theorem accessed_concat {exec : Synthop} {pre : List TransOp} {c c' : SeqCore} (opcode : Opcode)
    (destreg srcreg : Reg) (size : ℕ) (memop datatypeInt : Bool) {ra : Reg} {offset v : W64}
    (hrun : c.runUops exec junk pre = some c') (hv : c'.arf (remap ra) + offset = v) :
    accessed exec junk (pre ++ [.ldst opcode destreg ra srcreg size offset memop datatypeInt]) c = some v := by
  unfold accessed
  rw [List.dropLast_concat, List.getLast?_concat, hrun]
  exact congrArg some hv

theorem runUops_concat {exec : Synthop} {pre : List TransOp} {op : TransOp} {c c1 c2 : SeqCore}
    (hpre : c.runUops exec junk pre = some c1) (hop : c1.runUop exec junk op = some c2) :
    c.runUops exec junk (pre ++ [op]) = some c2 := by
  rw [SeqCore.runUops_append, hpre]
  simp only [SeqCore.runUops, hop, Option.bind_some]

/-! ### Loads and stores -/

/-- The registers of an operand are architectural. -/
theorem X86Operand.basereg_arch (o : X86Operand) (h : o.base ≠ .rip) : o.base.basereg.isArch = true ∧
    o.base.basereg ≠ Reg.rip := by
  cases hb : o.base with
  | none => exact ⟨by decide, by decide⟩
  | rip => exact absurd hb h
  | reg r =>
    have hr := r.isLt
    have hval : (X86Base.reg r).basereg.val = r.val := rfl
    refine ⟨decide_eq_true (show (X86Base.reg r).basereg.val < 64 by omega), fun hrip => ?_⟩
    rw [hrip] at hval
    exact absurd hr (by rw [← hval]; decide)

theorem X86Operand.indexreg_arch (o : X86Operand) : o.indexreg.isArch = true := by
  unfold X86Operand.indexreg
  cases o.index with
  | none => decide
  | some r => exact decide_eq_true (lt_trans r.isLt (by decide) : r.val < 64)

theorem X86Operand.basereg_value (o : X86Operand) (h : o.base ≠ .rip) (hready : c.Ready) (rip : W64) :
    c.arf o.base.basereg = o.baseValue c.arf rip := by
  unfold X86Operand.baseValue
  cases hb : o.base with
  | none => exact hready.zero
  | rip => exact absurd hb h
  | reg r => rfl

theorem X86Operand.indexreg_value (o : X86Operand) (hready : c.Ready) : c.arf o.indexreg = o.indexValue c.arf := by
  unfold X86Operand.indexValue X86Operand.indexreg
  cases o.index with
  | none => exact hready.zero
  | some r => rfl

theorem X86Operand.indexreg_zero (o : X86Operand) : o.indexreg = Reg.zero ↔ o.index = none := by
  unfold X86Operand.indexreg
  cases o.index with
  | none => simp
  | some r =>
    refine ⟨fun h => ?_, fun h => nomatch h⟩
    have hval : r.val = Reg.zero.val := congrArg Fin.val h
    have hr := r.isLt
    rw [hval] at hr
    exact absurd hr (by decide)

/-- What a load or a store of an operand accesses. -/
def accessValue (pfx : Prefixes) (c : SeqCore) (rip : W64) (o : X86Operand) : W64 :=
  if o.base = .rip then signext64 (rip + o.disp) 48 else biasValue pfx c + o.sum c.arf rip

/-- **A load or a store accesses** the sum with the segment's base or, relative to `rip`,
the sign extended sum without it. -/
theorem accessed_addressGenerate (h : c.Ready) (hctx : HostCtx c) (pfx : Prefixes) (rip : W64)
    (destreg srcreg : Reg) (o : X86Operand) (size : ℕ) {opcode : Opcode} (datatypeInt force : Bool)
    (hmem : (isload opcode || isstore opcode || opcode = .opLdPre) = true) :
    accessed rest.withImpl junk
        (addressGenerate pfx rip destreg srcreg (o.memRef size) opcode datatypeInt force) c =
      some (accessValue pfx c rip o) := by
  have ht8 : Writable Reg.temp8 := ⟨by decide, by decide, by decide⟩
  have h8 : remap Reg.temp8 = Reg.temp8 := by decide
  have hzero : remap Reg.zero = Reg.zero := by decide
  have htrace : remap Reg.trace = Reg.trace := by decide
  unfold addressGenerate accessValue
  dsimp only
  simp only [hmem, Bool.or_true, if_true]
  by_cases hrip : o.base = .rip
  · -- relative to the next instruction: one addition, and no segment
    have hb : (o.memRef size).basereg = Reg.rip := by
      show o.base.basereg = Reg.rip
      rw [hrip]
      rfl
    obtain ⟨c1, hrun1, h1, -⟩ := run_bias rest junk h hctx pfx (show Reg.zero.isArch = true by decide)
    obtain ⟨c2, hrun2, h2, hv2⟩ := run_add rest junk h1.ready ht8 Reg.trace Reg.imm (signext64 (rip + o.disp) 48)
    have hrun : c.runUops rest.withImpl junk
        ((biasBySegreg pfx Reg.zero).1 ++ [absCodeAddrImmediate Reg.temp8 3 (rip + o.disp)]) = some c2 :=
      runUops_concat junk hrun1 hrun2
    rw [if_pos hb, if_pos hrip, List.append_cons]
    refine accessed_concat junk _ _ _ _ _ _ hrun ?_
    rw [h8, hv2, htrace, h1.ready.trace, if_pos rfl]
    simp
  · obtain ⟨harch, hne⟩ := o.basereg_arch hrip
    have hb : (o.memRef size).basereg ≠ Reg.rip := hne
    have hidx : o.indexreg.val < 72 := lt_trans (of_decide_eq_true o.indexreg_arch) (by decide)
    have himm : o.indexreg ≠ Reg.imm := by
      intro himm
      rw [himm] at hidx
      exact absurd hidx (by decide)
    obtain ⟨c1, hrun1, h1, hv1⟩ := run_bias rest junk h hctx pfx harch
    rw [o.basereg_value hrip h rip] at hv1
    have hidx1 : c1.arf o.indexreg = o.indexValue c.arf := by
      rw [h1.regs _ (temp_not_arch (by decide) o.indexreg_arch), o.indexreg_value h]
    rw [if_neg hb, if_neg hrip]
    unfold X86Operand.sum
    by_cases hindex : o.indexreg = Reg.zero
    · -- base and displacement
      have hnone : o.indexValue c.arf = 0 := by
        unfold X86Operand.indexValue
        rw [o.indexreg_zero.1 hindex]
      rw [hnone, if_pos (show (o.memRef size).indexreg = Reg.zero from hindex)]
      split
      · obtain ⟨c2, hrun2, h2, hv2⟩ := run_add rest junk h1.ready ht8 (biasBySegreg pfx o.base.basereg).2 Reg.imm o.disp
        refine accessed_concat junk _ _ _ _ _ _ (runUops_concat junk hrun1 hrun2) ?_
        rw [h8, hv2, hv1, if_pos rfl]
        simp [BitVec.add_assoc]
      · refine accessed_concat junk _ _ _ _ _ _ hrun1 ?_
        show c1.arf (remap (biasBySegreg pfx o.base.basereg).2) + o.disp = _
        rw [hv1]
        simp [BitVec.add_assoc]
    · rw [if_neg (show ¬(o.memRef size).indexreg = Reg.zero from hindex)]
      by_cases hoff : o.disp = 0
      · -- base and index
        rw [if_pos (show (o.memRef size).offset = 0 from hoff), hoff]
        split
        · obtain ⟨c2, hrun2, h2, hv2⟩ := run_adda3 rest junk h1.ready ht8 (biasBySegreg pfx o.base.basereg).2 hidx
            o.scale
          refine accessed_concat junk _ _ _ _ _ _ (runUops_concat junk hrun1 hrun2) ?_
          rw [h8, hv2, hv1, hidx1]
          simp [BitVec.add_assoc]
        · rename_i hscale
          have hs : o.scale = 0 := not_not.1 hscale
          obtain ⟨c2, hrun2, h2, hv2⟩ := run_add rest junk h1.ready ht8 (biasBySegreg pfx o.base.basereg).2
            o.indexreg 0
          refine accessed_concat junk _ _ _ _ _ _ (runUops_concat junk hrun1 hrun2) ?_
          rw [h8, hv2, hv1, if_neg himm, remap_of_lt hidx, hidx1, hs]
          simp [BitVec.add_assoc]
      · -- base, index and displacement
        rw [if_neg (show ¬(o.memRef size).offset = 0 from hoff)]
        split
        · obtain ⟨c2, hrun2, h2, hv2⟩ := run_add rest junk h1.ready ht8 (biasBySegreg pfx o.base.basereg).2 Reg.imm o.disp
          obtain ⟨c3, hrun3, h3, hv3⟩ := run_adda3 rest junk h2.ready ht8 Reg.temp8 hidx o.scale
          have hidx2 : c2.arf o.indexreg = o.indexValue c.arf := by
            rw [h2.regs _ (temp_not_arch (by decide) o.indexreg_arch), hidx1]
          rw [List.append_cons]
          refine accessed_concat junk _ _ _ _ _ _ (runUops_concat junk (runUops_concat junk hrun1 hrun2) hrun3) ?_
          rw [h8, hv3, h8, hv2, hv1, if_pos rfl, hidx2]
          simp [BitVec.add_assoc, BitVec.add_comm o.disp]
        · obtain ⟨c2, hrun2, h2, hv2⟩ := run_adda3 rest junk h1.ready ht8 (biasBySegreg pfx o.base.basereg).2 hidx
            o.scale
          rw [List.append_cons]
          refine accessed_concat junk _ _ _ _ _ _ (runUops_concat junk hrun1 hrun2) ?_
          show c2.arf (remap Reg.temp8) + o.disp = _
          rw [h8, hv2, hv1, hidx1]
          simp [BitVec.add_assoc]

end X86Sim
