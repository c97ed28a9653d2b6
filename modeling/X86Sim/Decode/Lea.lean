import X86Sim.Decode.AddressRight

/-!
# `lea`

The uops of an address without a load or a store leave the sum in the destination, as
wide as the narrower of operand and address size.
-/

namespace X86Sim

open X86Sim.Seq

variable (rest : Synthop) (junk : Sfr) {c : SeqCore}

theorem and_allOnes_setWidth (n : ℕ) (x : W64) :
    x &&& (BitVec.allOnes n).setWidth 64 = (x.setWidth n).setWidth 64 := by
  apply BitVec.eq_of_getLsbD_eq
  intro k hk
  simp only [BitVec.getLsbD_and, BitVec.getLsbD_setWidth, BitVec.getLsbD_allOnes, hk, decide_true, Bool.true_and]
  rw [Bool.and_comm]

/-- A merge depends on the low bits of the value only. -/
theorem x86Merge_trunc {size : ℕ} (hsize : size ≤ 3) (old v : W64) :
    x86Merge size old ((v.setWidth (opWidth size)).setWidth 64) = x86Merge size old v := by
  have h8 : (BitVec.allOnes 8).setWidth 64 = (0xff : W64) := by decide
  have h16 : (BitVec.allOnes 16).setWidth 64 = (0xffff : W64) := by decide
  have h32 : (BitVec.allOnes 32).setWidth 64 = (0xffffffff : W64) := by decide
  have hidem : ∀ n, (v.setWidth n).setWidth 64 &&& (BitVec.allOnes n).setWidth 64 =
      v &&& (BitVec.allOnes n).setWidth 64 := by
    intro n
    rw [setWidth_and_allOnes, and_allOnes_setWidth]
  interval_cases size
  · show (old &&& ~~~0xff) ||| ((v.setWidth 8).setWidth 64 &&& 0xff) = (old &&& ~~~0xff) ||| (v &&& 0xff)
    rw [← h8, hidem]
  · show (old &&& ~~~0xffff) ||| ((v.setWidth 16).setWidth 64 &&& 0xffff) = (old &&& ~~~0xffff) ||| (v &&& 0xffff)
    rw [← h16, hidem]
  · show (v.setWidth 32).setWidth 64 &&& 0xffffffff = v &&& 0xffffffff
    rw [← h32, hidem]
  · show (v.setWidth 64).setWidth 64 = v
    rw [BitVec.setWidth_eq, BitVec.setWidth_eq]

theorem x86Merge_congr {size : ℕ} (hsize : size ≤ 3) (old : W64) {v v' : W64}
    (h : v.setWidth (opWidth size) = v'.setWidth (opWidth size)) : x86Merge size old v = x86Merge size old v' := by
  rw [← x86Merge_trunc hsize old v, ← x86Merge_trunc hsize old v', h]

/-- A value written to a low operand is merged. -/
theorem Apr.write_setWidth (p : Apr) (hlow : p.hibyte = false) (old v : W64) :
    p.write old (v.setWidth _) = x86Merge p.sizeshift old v := by
  rw [Apr.write_eq p hlow, x86Merge_trunc p.sizeshift_le]

/-- The sum is in `t`, merged with something; the architectural registers are as before. -/
structure Generated (c c' : SeqCore) (t : Reg) (v : W64) : Prop where
  value : c'.arf t = v
  regs : ∀ r : Reg, r.isArch = true → r ≠ t → c'.arf r = c.arf r
  inv : c'.arflags t &&& FLAG_INV = 0
  ready : c'.Ready

/-- The last sum, of what the uops before it left. -/
theorem run_lastSum {pre : List TransOp} {c1 : SeqCore} (hpre : c.runUops rest.withImpl junk pre = some c1)
    (h1 : c1.Ready) {t : Reg} (ht : Writable t) (hregs : ∀ r : Reg, r.isArch = true → r ≠ t → c1.arf r = c.arf r)
    (ra : Reg) {size : ℕ} (hsize : size ≤ 3) (offset : W64) {v : W64}
    (hv : (c1.arf (remap ra) + offset).setWidth (opWidth size) = v.setWidth (opWidth size)) :
    ∃ c' old, c.runUops rest.withImpl junk (pre ++ [.ldst .opAdd t ra Reg.zero size offset false true]) = some c' ∧
      Generated c c' t (x86Merge size old v) := by
  obtain ⟨c2, hrun, hscratch, hval, hinv⟩ := run_addSize rest junk h1 ht ra Reg.imm hsize offset
  refine ⟨c2, c1.arf (remap ra), runUops_concat junk hpre hrun, ⟨?_, ?_, hinv, hscratch.ready⟩⟩
  · rw [hval, if_pos rfl, x86Merge_trunc hsize]
    exact x86Merge_congr hsize _ hv
  · intro r hr hne
    rw [hscratch.regs r hne, hregs r hr hne]

/-- An address without a load or a store, of a base and an index in registers. -/
theorem run_generateFrom (h : c.Ready) (pfx : Prefixes) (rip : W64) {t : Reg} (ht : Writable t) (hlt : t.val < 72)
    (memref : MemRef) (hrip : memref.basereg ≠ Reg.rip) (harch : memref.indexreg.isArch = true)
    (hsize : memref.size ≤ 3) :
    ∃ c' old, c.runUops rest.withImpl junk (addressGenerate pfx rip t Reg.zero memref .opAdd true false) = some c' ∧
      Generated c c' t (x86Merge memref.size old (c.arf (remap memref.basereg) +
        c.arf memref.indexreg <<< memref.scale.val + memref.offset)) := by
  have ht8 : Writable Reg.temp8 := ⟨by decide, by decide, by decide⟩
  have h8 : remap Reg.temp8 = Reg.temp8 := by decide
  have hidx : memref.indexreg.val < 72 := lt_trans (of_decide_eq_true harch) (by decide)
  have himm : memref.indexreg ≠ Reg.imm := by
    intro himm
    rw [himm] at hidx
    exact absurd hidx (by decide)
  have hmem : (isload .opAdd || isstore .opAdd || decide (Opcode.opAdd = Opcode.opLdPre)) = false := by decide
  have henc : ∀ P : Prop, ¬(Opcode.opAdd ≠ Opcode.opAdd ∧ P) := fun P h => h.1 rfl
  unfold addressGenerate
  dsimp only
  simp only [hmem, Bool.or_false, Bool.false_eq_true, if_false, if_neg hrip, List.nil_append, henc]
  by_cases hindex : memref.indexreg = Reg.zero
  · -- base and displacement
    rw [if_pos hindex, hindex, h.zero]
    have hpre : c.runUops rest.withImpl junk [] = some c := rfl
    refine run_lastSum rest junk hpre h ht (fun r _ _ => rfl) _ hsize _ ?_
    simp
  · rw [if_neg hindex]
    by_cases hoff : memref.offset = 0
    · -- base and index, added into the destination
      rw [if_pos hoff, hoff]
      have hstep : ∃ c1, c.runUop rest.withImpl junk (if memref.scale ≠ 0 then
            .adda t memref.basereg memref.indexreg memref.size memref.scale
          else .mk3 .opAdd t memref.basereg memref.indexreg Reg.zero memref.size 0) = some c1 ∧ Scratch t c c1 ∧
          c1.arf t = x86Merge memref.size (c.arf (remap memref.basereg)) (((c.arf (remap memref.basereg) +
            c.arf memref.indexreg <<< memref.scale.val).setWidth (opWidth memref.size)).setWidth 64) := by
        by_cases hscale : memref.scale ≠ 0
        · rw [if_pos hscale]
          exact run_adda rest junk h ht memref.basereg hidx hsize memref.scale
        · obtain ⟨c1, hrun1, h1, hv1, -⟩ := run_addSize rest junk h ht memref.basereg memref.indexreg hsize 0
          rw [if_neg himm, remap_of_lt hidx] at hv1
          rw [if_neg hscale]
          have hshift : c.arf memref.indexreg <<< memref.scale.val = c.arf memref.indexreg := by
            rw [not_not.1 hscale]
            simp
          rw [hshift]
          exact ⟨c1, hrun1, h1, hv1⟩
      obtain ⟨c1, hrun1, h1, hv1⟩ := hstep
      have hpre : c.runUops rest.withImpl junk [if memref.scale ≠ 0 then
            .adda t memref.basereg memref.indexreg memref.size memref.scale
          else .mk3 .opAdd t memref.basereg memref.indexreg Reg.zero memref.size 0] = some c1 := by
        simp only [SeqCore.runUops, hrun1, Option.bind_some]
      -- the index went into the destination at the operand size: the rest of it is cut off again
      refine run_lastSum rest junk hpre h1.ready ht (fun r _ hne => h1.regs r hne) t hsize 0 ?_
      rw [remap_of_lt hlt, hv1, x86Merge_trunc hsize, BitVec.setWidth_add _ _ (opWidth_le hsize), x86Merge_setWidth hsize]
      simp
    · -- base and index into a temporary, and then the displacement
      rw [if_neg hoff]
      obtain ⟨c1, hrun1, h1, hv1⟩ := run_adda3 rest junk h ht8 memref.basereg hidx memref.scale
      have hpre : c.runUops rest.withImpl junk [.adda Reg.temp8 memref.basereg memref.indexreg 3 memref.scale] =
          some c1 := by
        simp only [SeqCore.runUops, hrun1, Option.bind_some]
      refine run_lastSum rest junk hpre h1.ready ht
        (fun r hr _ => h1.regs r (temp_not_arch (by decide) hr)) Reg.temp8 hsize _ ?_
      rw [h8, hv1]

/-- An address without a load or a store, and not relative to `rip`. -/
theorem run_generate (h : c.Ready) (pfx : Prefixes) (rip : W64) {t : Reg} (ht : Writable t) (hlt : t.val < 72)
    (o : X86Operand) (hrip : o.base ≠ .rip) {size : ℕ} (hsize : size ≤ 3) :
    ∃ c' old, c.runUops rest.withImpl junk
        (addressGenerate pfx rip t Reg.zero (o.memRef size) .opAdd true false) = some c' ∧
      Generated c c' t (x86Merge size old (o.sum c.arf rip)) := by
  obtain ⟨harch, hne⟩ := o.basereg_arch hrip
  obtain ⟨c', old, hrun, hgen⟩ :=
    run_generateFrom rest junk h pfx rip ht hlt (o.memRef size) hne o.indexreg_arch hsize
  have hremap : remap o.base.basereg = o.base.basereg :=
    remap_of_lt (lt_trans (of_decide_eq_true harch) (by decide))
  have hsum : c.arf (remap (o.memRef size).basereg) +
      c.arf (o.memRef size).indexreg <<< (o.memRef size).scale.val + (o.memRef size).offset = o.sum c.arf rip := by
    show c.arf (remap o.base.basereg) + c.arf o.indexreg <<< o.scale.val + o.disp = _
    rw [hremap, o.basereg_value hrip h rip, o.indexreg_value h]
    rfl
  rw [hsum] at hgen
  exact ⟨c', old, hrun, hgen⟩

/-- Relative to `rip`, the whole sign extended sum. -/
theorem run_generate_rip (h : c.Ready) (pfx : Prefixes) (rip : W64) {t : Reg} (ht : Writable t) (o : X86Operand)
    (hrip : o.base = .rip) (size : ℕ) :
    ∃ c', c.runUops rest.withImpl junk
        (addressGenerate pfx rip t Reg.zero (o.memRef size) .opAdd true false) = some c' ∧
      Generated c c' t (signext64 (rip + o.disp) 48) := by
  have hb : (o.memRef size).basereg = Reg.rip := by
    show o.base.basereg = Reg.rip
    rw [hrip]
    rfl
  have hmem : (isload .opAdd || isstore .opAdd || decide (Opcode.opAdd = Opcode.opLdPre)) = false := by decide
  have htrace : remap Reg.trace = Reg.trace := by decide
  obtain ⟨c', hrun, hscratch, hval, hinv⟩ := run_addSize rest junk h ht Reg.trace Reg.imm (show 3 ≤ 3 by decide)
    (signext64 (rip + o.disp) 48)
  refine ⟨c', ?_, ⟨?_, fun r _ hne => hscratch.regs r hne, hinv, hscratch.ready⟩⟩
  · unfold addressGenerate
    dsimp only
    simp only [hmem, Bool.or_false, Bool.false_eq_true, if_false, if_pos hb, List.nil_append]
    have hrun' : c.runUop rest.withImpl junk (absCodeAddrImmediate t 3 (rip + (o.memRef size).offset)) = some c' :=
      hrun
    simp only [SeqCore.runUops, hrun', Option.bind_some]
  · rw [hval, htrace, h.trace, if_pos rfl, x86Merge_trunc (by decide)]
    exact BitVec.zero_add _

/-! ### The instruction -/

/-- What `lea` writes. -/
def leaWritten (pfx : Prefixes) (rex : RexByte) (rip : W64) (rd : Apr) (old : W64) (o : X86Operand)
    (arf : Reg → W64) : W64 :=
  if o.base = .rip ∧ leaSizeshift pfx rex ≠ 1 then signext64 (rip + o.disp) 48
  else rd.write old ((o.offset pfx arf rip).setWidth _)

/-- The low 16 bits are those of the sum, however it is truncated. -/
theorem offset_low (o : X86Operand) (pfx : Prefixes) (arf : Reg → W64) (rip : W64) :
    (o.offset pfx arf rip).setWidth 16 = (o.sum arf rip).setWidth 16 := by
  unfold X86Operand.offset
  split
  · rw [BitVec.setWidth_setWidth_of_le _ (by decide), BitVec.setWidth_setWidth_of_le _ (by decide)]
  · rfl

theorem signext64_low (x : W64) : (signext64 x 48).setWidth 16 = x.setWidth 16 := by
  apply BitVec.eq_of_getLsbD_eq
  intro k hk
  have h48 : k < 48 := by omega
  rw [signext64_48, BitVec.getLsbD_setWidth, BitVec.getLsbD_setWidth, sext48_bit x (by omega), if_pos h48]

theorem X86Operand.sum_rip {o : X86Operand} (hrip : o.base = .rip) (hwf : o.base = .rip → o.index = none)
    (arf : Reg → W64) (rip : W64) : o.sum arf rip = rip + o.disp := by
  unfold X86Operand.sum X86Operand.baseValue X86Operand.indexValue
  rw [hrip, hwf hrip]
  simp

/-- The size `lea` computes on, if not of 16 bits. -/
def wideSize (pfx : Prefixes) (rex : RexByte) : ℕ := if pfx.addr || leaSizeshift pfx rex = 2 then 2 else 3

theorem wideSize_le (pfx : Prefixes) (rex : RexByte) : wideSize pfx rex ≤ 3 := by
  unfold wideSize
  split <;> omega

/-- Wide results are computed in the narrower of the two sizes. -/
theorem lea_sizes (pfx : Prefixes) (rex : RexByte) (dest : Fin 16) (o : X86Operand) (arf : Reg → W64) (rip : W64)
    (hss : leaSizeshift pfx rex ≠ 1) :
    (if leaSizeshift pfx rex < if pfx.addr then 2 else 3 then
        leaSizeshift pfx rex else if pfx.addr then 2 else 3) = wideSize pfx rex ∧
      (leaRd pfx rex dest).hibyte = false ∧ ∀ old old', x86Merge (wideSize pfx rex) old (o.sum arf rip) =
        x86Merge (leaRd pfx rex dest).sizeshift old' (o.offset pfx arf rip) := by
  have htrunc : ∀ v : W64, v &&& 0xffffffff = (v.setWidth 32).setWidth 64 := by
    have hones : (BitVec.allOnes 32).setWidth 64 = (0xffffffff : W64) := by decide
    intro v
    rw [← hones, and_allOnes_setWidth]
  have hidem : ∀ v : W64, ((v.setWidth 32).setWidth 64).setWidth 32 = v.setWidth 32 := by
    intro v
    rw [BitVec.setWidth_setWidth_of_le _ (by decide), BitVec.setWidth_eq]
  unfold X86Operand.offset wideSize
  unfold leaSizeshift at hss ⊢
  unfold leaRd
  revert hss
  cases rex.mode64 with
  | true =>
    intro hss
    cases pfx.addr with
    | true => exact ⟨rfl, rfl, fun old old' => htrunc _⟩
    | false => exact ⟨rfl, rfl, fun old old' => rfl⟩
  | false =>
    cases pfx.data with
    | true => exact fun hss => absurd rfl hss
    | false =>
      intro hss
      cases pfx.addr with
      | true =>
        refine ⟨rfl, rfl, fun old old' => ?_⟩
        show o.sum arf rip &&& 0xffffffff = ((o.sum arf rip).setWidth 32).setWidth 64 &&& 0xffffffff
        rw [htrunc, htrunc, hidem]
      | false => exact ⟨rfl, rfl, fun old old' => rfl⟩

/-- **`lea` runs**, and writes its destination only. -/
theorem run_lea (h : c.Ready) (pfx : Prefixes) (rex : RexByte) (rip : W64) (dest : Fin 16) (o : X86Operand)
    (hwf : o.base = .rip → o.index = none) (size : ℕ) :
    ∃ c', c.runUops rest.withImpl junk (lea pfx rex rip (leaRd pfx rex dest).arch (o.memRef size)) = some c' ∧
      ∀ r : Reg, r.isArch = true → c'.arf r = if r = (leaRd pfx rex dest).arch then
        leaWritten pfx rex rip (leaRd pfx rex dest) (c.arf r) o c.arf else c.arf r := by
  have hdest : (leaRd pfx rex dest).arch.val < 72 := lt_trans (leaRd pfx rex dest).arch_lt (by decide)
  have hrd := (leaRd pfx rex dest).writable
  unfold lea leaWritten
  dsimp only
  have hmem : ∀ s, ({ o.memRef size with size := s } : MemRef) = o.memRef s := fun s => rfl
  simp only [hmem]
  by_cases hss : leaSizeshift pfx rex = 1
  · -- sixteen bits, by way of a temporary
    have ht : Writable Reg.temp1 := ⟨by decide, by decide, by decide⟩
    have hsize : (if leaSizeshift pfx rex < if pfx.addr then 2 else 3 then leaSizeshift pfx rex
        else if pfx.addr then 2 else 3) = 1 := by
      rw [hss]
      cases pfx.addr <;> rfl
    have hgen : ∃ c1 v, c.runUops rest.withImpl junk
        (addressGenerate pfx rip Reg.temp1 Reg.zero (o.memRef 1) .opAdd true false) = some c1 ∧
        Generated c c1 Reg.temp1 v ∧ v.setWidth 16 = (o.sum c.arf rip).setWidth 16 := by
      by_cases hrip : o.base = .rip
      · obtain ⟨c1, hrun, hgen⟩ := run_generate_rip rest junk h pfx rip ht o hrip 1
        refine ⟨c1, _, hrun, hgen, ?_⟩
        rw [signext64_low, X86Operand.sum_rip hrip hwf]
      · obtain ⟨c1, old, hrun, hgen⟩ := run_generate rest junk h pfx rip ht (by decide) o hrip (show 1 ≤ 3 by decide)
        exact ⟨c1, _, hrun, hgen, x86Merge_setWidth (show 1 ≤ 3 by decide) _ _⟩
    obtain ⟨c1, v, hrun1, hgen, hv⟩ := hgen
    have hrdw : leaRd pfx rex dest = .w dest := by
      unfold leaSizeshift at hss
      unfold leaRd
      split at hss
      · cases hss
      · split at hss
        · rename_i h64 hdata
          rw [if_neg h64, if_pos hdata]
        · cases hss
    obtain ⟨c2, flags, hrun2, hmov⟩ := run_mov rest junk hgen.ready hrd (show Reg.temp1.val < 72 by decide) hgen.inv
      (leaRd pfx rex dest).arch 1
    obtain ⟨hscratch, hval⟩ := hmov.scratch
    refine ⟨c2, ?_, fun r hr => ?_⟩
    · rw [if_pos hss, hsize, hss]
      exact runUops_concat junk hrun1 hrun2
    · have hkept : c1.arf r = c.arf r := hgen.regs r hr (temp_not_arch (by decide) hr)
      by_cases hrdest : r = (leaRd pfx rex dest).arch
      · rw [if_pos hrdest, if_neg fun h => h.2 hss, hrdest, hval, remap_of_lt hdest, ← hrdest, hkept, hgen.value]
        rw [hrdw, Apr.write_setWidth (.w dest) rfl]
        refine x86Merge_congr (show 1 ≤ 3 by decide) _ ?_
        exact hv.trans (offset_low o pfx c.arf rip).symm
      · rw [if_neg hrdest, hscratch.regs r hrdest, hkept]
  · rw [if_neg hss]
    by_cases hrip : o.base = .rip
    · obtain ⟨c1, hrun, hgen⟩ := run_generate_rip rest junk h pfx rip hrd o hrip _
      refine ⟨c1, hrun, fun r hr => ?_⟩
      by_cases hrdest : r = (leaRd pfx rex dest).arch
      · rw [if_pos hrdest, if_pos ⟨hrip, hss⟩, hrdest, hgen.value]
      · rw [if_neg hrdest, hgen.regs r hr hrdest]
    · -- thirty-two or sixty-four bits, in the destination itself
      -- what the destination held does not show: the sum fills it, or clears its upper half
      obtain ⟨hsize, hlow, hvalue⟩ := lea_sizes pfx rex dest o c.arf rip hss
      obtain ⟨c1, old, hrun, hgen⟩ := run_generate rest junk h pfx rip hrd hdest o hrip (wideSize_le pfx rex)
      rw [hsize]
      refine ⟨c1, hrun, fun r hr => ?_⟩
      by_cases hrdest : r = (leaRd pfx rex dest).arch
      · rw [if_pos hrdest, if_neg fun h => hrip h.1, Apr.write_setWidth _ hlow, ← hvalue old, hrdest, hgen.value]
      · rw [if_neg hrdest, hgen.regs r hr hrdest]

/-- **When `lea` is right**: unless relative to `rip` and wide, and then if the sign
extension keeps the sum. -/
theorem lea_iff (pfx : Prefixes) (rex : RexByte) (rip : W64) (dest : Fin 16) (o : X86Operand)
    (hwf : o.base = .rip → o.index = none) (size : ℕ) :
    LeaRight pfx rex rip dest (lea pfx rex rip (leaRd pfx rex dest).arch (o.memRef size)) o ↔
      leaRight pfx rex rip o = true := by
  -- right is to write the same
  have hwritten : ∀ c : SeqCore, ∀ old, leaWritten pfx rex rip (leaRd pfx rex dest) old o c.arf =
      (leaRd pfx rex dest).write old ((o.offset pfx c.arf rip).setWidth _) ↔ leaRight pfx rex rip o = true := by
    intro c old
    unfold leaWritten leaRight
    by_cases hrip : o.base = .rip
    · by_cases hss : leaSizeshift pfx rex = 1
      · simp [hss]
      · obtain ⟨-, hlow, hval⟩ := lea_sizes pfx rex dest o c.arf rip hss
        have hmerge : ∀ v : W64, x86Merge (wideSize pfx rex) old v =
            if pfx.addr || leaSizeshift pfx rex = 2 then (v.setWidth 32).setWidth 64 else v := by
          have hones : (BitVec.allOnes 32).setWidth 64 = (0xffffffff : W64) := by decide
          intro v
          unfold wideSize
          split
          · show v &&& 0xffffffff = _
            rw [← hones, and_allOnes_setWidth]
          · rfl
        rw [if_pos ⟨hrip, hss⟩, Apr.write_setWidth _ hlow, ← hval old, X86Operand.sum_rip hrip hwf, hmerge,
          ← ripRight_iff]
        simp [hrip, hss]
    · simp [hrip]
  constructor
  · intro h
    obtain ⟨c', hrun, hregs⟩ := h (fun _ _ => ⟨0, 0⟩) Frame.Sfr.zero (uniform 0 0) (uniform_ready 0 0)
    obtain ⟨c'', hrun', hregs'⟩ := run_lea (fun _ _ => ⟨0, 0⟩) Frame.Sfr.zero (uniform_ready 0 0) pfx rex rip dest o
      hwf size
    have harch : (leaRd pfx rex dest).arch.isArch = true :=
      decide_eq_true (lt_trans (leaRd pfx rex dest).arch_lt (by decide))
    obtain rfl := Option.some.inj (hrun.symm.trans hrun')
    have hval := hregs _ harch
    rw [hregs' _ harch, if_pos rfl, if_pos rfl] at hval
    exact (hwritten _ _).1 hval
  · intro h rest junk c hready
    obtain ⟨c', hrun, hregs⟩ := run_lea rest junk hready pfx rex rip dest o hwf size
    refine ⟨c', hrun, fun r hr => ?_⟩
    rw [hregs r hr, (hwritten c _).2 h]

/-! ### Every operand -/

/-- An operand relative to `rip` has no index. -/
theorem x86Operand_rip {rex : RexByte} {modrm : ModRMByte} {bytes rest : List Byte} {o : X86Operand}
    (h : x86Operand rex modrm bytes = some (o, rest)) (hrip : o.base = .rip) : o.index = none := by
  unfold x86Operand at h
  dsimp only at h
  split at h
  · split at h
    · cases h
    · split at h
      · obtain ⟨d, -, hd⟩ := Option.map_eq_some_iff.1 h
        obtain rfl := congrArg Prod.fst hd
        cases hrip
      · obtain ⟨d, -, hd⟩ := Option.map_eq_some_iff.1 h
        obtain rfl := congrArg Prod.fst hd
        cases hrip
  · split at h
    · obtain ⟨d, -, hd⟩ := Option.map_eq_some_iff.1 h
      obtain rfl := congrArg Prod.fst hd
      rfl
    · obtain ⟨d, -, hd⟩ := Option.map_eq_some_iff.1 h
      obtain rfl := congrArg Prod.fst hd
      rfl

/-- **When the address of an operand is right**, for every encoding, every prefix and all
registers: of a load or a store, and of `lea`. -/
theorem eform_right_iff (pfx : Prefixes) (rex : RexByte) (modrm : ModRMByte) (size : ℕ) (bytes rest : List Byte)
    (m : MemRef) (h : eform rex modrm size bytes = some (m, rest)) (rip : W64) :
    ∃ o, x86Operand rex modrm bytes = some (o, rest) ∧
      (∀ (opcode : Opcode) (destreg srcreg : Reg) (datatypeInt force : Bool),
        (isload opcode || isstore opcode || opcode = .opLdPre) = true →
          (AddressRight pfx rip (addressGenerate pfx rip destreg srcreg m opcode datatypeInt force) o ↔
            memRight pfx rip o = true)) ∧
      ∀ dest : Fin 16, LeaRight pfx rex rip dest (lea pfx rex rip (leaRd pfx rex dest).arch m) o ↔
        leaRight pfx rex rip o = true := by
  have hmod : modrm.mod ≠ 3 := by
    intro hmod
    unfold eform at h
    rw [if_pos hmod] at h
    cases h
  rw [eform_eq rex modrm hmod] at h
  obtain ⟨⟨o, rest'⟩, ho, hm⟩ := Option.map_eq_some_iff.1 h
  obtain ⟨rfl, rfl⟩ := Prod.mk.inj hm
  have hwf : o.base = .rip → o.index = none := x86Operand_rip ho
  refine ⟨o, ho, fun opcode destreg srcreg datatypeInt force hmem => ?_, fun dest => ?_⟩
  · rw [← address_iff pfx rip o hwf]
    constructor
    · intro hright c hready hctx
      have hc := hright (fun _ _ => ⟨0, 0⟩) Frame.Sfr.zero c hready hctx
      rw [accessed_addressGenerate _ _ hready hctx pfx rip destreg srcreg o size datatypeInt force hmem] at hc
      exact Option.some.inj hc
    · intro hright rest junk c hready hctx
      rw [accessed_addressGenerate rest junk hready hctx pfx rip destreg srcreg o size datatypeInt force hmem,
        hright c hready hctx]
  · exact lea_iff pfx rex rip dest o hwf size

/-- The prefixes of `mov rcx, [eax]`. -/
def addr32 : Prefixes := ⟨false, false, false, false, false, false, false, true⟩

/-- The operand `[rax]` with a SIB byte. -/
theorem eform_right_iff_rax : ∃ o, x86Operand ⟨false, false, true⟩ ⟨0, 4⟩ [0x20] = some (o, []) ∧
    (∀ (opcode : Opcode) (destreg srcreg : Reg) (datatypeInt force : Bool),
      (isload opcode || isstore opcode || opcode = .opLdPre) = true →
        (AddressRight addr32 0 (addressGenerate addr32 0 destreg srcreg ⟨3, Reg.rax, Reg.zero, 0, 0⟩ opcode
          datatypeInt force) o ↔ memRight addr32 0 o = true)) ∧
    ∀ dest : Fin 16, LeaRight addr32 ⟨false, false, true⟩ 0 dest
      (lea addr32 ⟨false, false, true⟩ 0 (leaRd addr32 ⟨false, false, true⟩ dest).arch ⟨3, Reg.rax, Reg.zero, 0, 0⟩) o ↔
        leaRight addr32 ⟨false, false, true⟩ 0 o = true := by
  have h : eform ⟨false, false, true⟩ ⟨0, 4⟩ 3 [0x20] = some (⟨3, Reg.rax, Reg.zero, 0, 0⟩, []) := by decide
  exact eform_right_iff addr32 ⟨false, false, true⟩ ⟨0, 4⟩ 3 [0x20] [] ⟨3, Reg.rax, Reg.zero, 0, 0⟩ h 0

/-- `mov rcx, [eax]` does not truncate the address. -/
theorem not_addressRight : ¬ ∀ (pfx : Prefixes) (rex : RexByte) (modrm : ModRMByte) (size : ℕ)
    (bytes rest : List Byte) (m : MemRef) (o : X86Operand) (rip : W64),
    eform rex modrm size bytes = some (m, rest) → x86Operand rex modrm bytes = some (o, rest) →
      AddressRight pfx rip (addressGenerate pfx rip Reg.rcx Reg.zero m .opLd true false) o := by
  intro h
  have hm : eform ⟨false, false, true⟩ ⟨0, 0⟩ 3 [] = some (⟨3, Reg.rax, Reg.zero, 0, 0⟩, []) := by decide
  have ho : x86Operand ⟨false, false, true⟩ ⟨0, 0⟩ [] = some (⟨.reg 0, none, 0, 0⟩, []) := by decide
  have hright := h addr32 _ _ _ _ _ _ _ 0 hm ho (fun _ _ => ⟨0, 0⟩) Frame.Sfr.zero (uniform (2 ^ 32) 0)
    (uniform_ready _ _) (uniform_hostCtx _ _)
  exact absurd hright (by decide +kernel)

end X86Sim
