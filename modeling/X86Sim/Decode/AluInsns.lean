import X86Sim.Decode.AluRun
import Mathlib.Tactic.FinCases

/-!
# The translation of ALU instructions is right

The uops around the operation are the extraction of high bytes before it and the
insertion of one after it. `run_alu` puts the three together for any operation the
implementations compute; each instruction is then one operation.
-/

namespace X86Sim

open X86Sim.Seq

variable (rest : Synthop) (junk : Sfr) {c : SeqCore}

/-! ### Before the operation -/

/-- Only the temporary `t` differs. -/
structure Scratch (t : Reg) (c c' : SeqCore) : Prop where
  regs : ∀ r, r ≠ t → c'.arf r = c.arf r
  ready : c'.Ready
  space : c'.space = c.space
  ctx : c'.ctx = c.ctx

/-- A high byte is extracted if there is one. -/
theorem run_extractIf (h : c.Ready) (high : Bool) {src t : Reg} (ht : Writable t)
    (hsrc : high = true → ∃ p : Apr, src = p.arch) :
    ∃ c', c.runUops rest.withImpl junk (if high then [TransOp.extractHigh t src] else []) = some c' ∧
      Scratch t c c' ∧ (high = true → (c'.arf t).setWidth 8 = ((c.arf src) >>> 8).setWidth 8) := by
  cases high with
  | false => exact ⟨c, rfl, ⟨fun r _ => rfl, h, rfl, rfl⟩, fun hf => nomatch hf⟩
  | true =>
    obtain ⟨p, rfl⟩ := hsrc rfl
    obtain ⟨c', flags, v, hrun, hwrote, hv⟩ := run_extract rest junk h p ht
    refine ⟨c', ?_, ⟨?_, hwrote.ready, hwrote.space, hwrote.ctx⟩, fun _ => ?_⟩
    · simp only [if_true, SeqCore.runUops, hrun, Option.bind_some]
    · intro r hr
      by_cases hf : r = Reg.flags
      · subst hf
        apply BitVec.eq_of_getLsbD_eq
        intro i hi
        rw [hwrote.status i]
        simp
      · exact hwrote.regs r hr hf
    · rw [hwrote.value, hv]

/-! ### Operands of the operation -/

theorem Apr.sizeshift_of_hibyte {p : Apr} (h : p.hibyte = true) : p.sizeshift = 0 := by
  cases p with
  | hi r => rfl
  | b r => rfl
  | q r | d r | w r => cases h

/-- The destination is read from itself or, a high byte, from its temporary. -/
theorem rd_value (p : Apr) {arf arf' : Reg → W64} (hsame : arf' p.arch = arf p.arch)
    (hhigh : p.hibyte = true → (arf' Reg.temp2).setWidth 8 = ((arf p.arch) >>> 8).setWidth 8) :
    (arf' (remap (if p.hibyte then Reg.temp2 else p.arch))).setWidth (opWidth p.sizeshift) =
      p.read (arf p.arch) := by
  unfold Apr.read
  by_cases hp : p.hibyte = true
  · rw [if_pos hp, if_pos hp, Apr.sizeshift_of_hibyte hp, remap_of_lt (by decide)]
    exact hhigh hp
  · rw [if_neg hp, if_neg hp, remap_of_lt (lt_trans p.arch_lt (by decide)), hsame]

/-- So is the source, which may be an immediate. -/
theorem ra_value (ra : RegImm) {size : ℕ} (hsize : ∀ r, ra = .reg r → r.sizeshift = size)
    {arf arf' : Reg → W64} (hsame : ∀ r : Reg, r.isArch = true → arf' r = arf r)
    (hhigh : ra.hibyte = true → (arf' Reg.temp3).setWidth 8 = ((arf ra.srcreg) >>> 8).setWidth 8)
    {rb : Reg} (hrb : rb = if ra.hibyte then Reg.temp3 else ra.srcreg) :
    (if rb = Reg.imm then ra.rbimm else arf' (remap rb)).setWidth (opWidth size) =
      ra.read arf (opWidth size) := by
  cases ra with
  | imm v =>
    subst hrb
    rfl
  | reg r =>
    obtain rfl := hsize r rfl
    show _ = (r.read (arf r.arch)).setWidth _
    rw [BitVec.setWidth_eq, Apr.read]
    by_cases hr : r.hibyte = true
    · obtain rfl : rb = Reg.temp3 := hrb.trans (if_pos hr)
      rw [if_pos hr, if_neg (by decide), remap_of_lt (by decide), Apr.sizeshift_of_hibyte hr]
      exact hhigh hr
    · have hlt : r.arch.val < 64 := lt_trans r.arch_lt (by decide)
      obtain rfl : rb = r.arch := hrb.trans (if_neg hr)
      rw [if_neg hr, if_neg (r.arch_ne (by decide)), remap_of_lt (by omega),
        hsame r.arch (decide_eq_true hlt)]

/-! ### The operation and after -/

/-- Only the temporaries of the translation differ. -/
structure Prepared (c c' : SeqCore) : Prop where
  regs : ∀ r, r ≠ Reg.temp2 → r ≠ Reg.temp3 → c'.arf r = c.arf r
  ready : c'.Ready
  space : c'.space = c.space
  ctx : c'.ctx = c.ctx

theorem Prepared.arch {c c' : SeqCore} (h : Prepared c c') {r : Reg} (hr : r.isArch = true) :
    c'.arf r = c.arf r := by
  refine h.regs r ?_ ?_ <;> rintro rfl <;> exact absurd hr (by decide)

/-- The extractions before the operation run. -/
theorem run_prepare (h : c.Ready) (rd : Apr) (ra : RegImm) :
    ∃ c', c.runUops rest.withImpl junk ((if rd.hibyte then [TransOp.extractHigh Reg.temp2 rd.arch] else []) ++
        (if ra.hibyte then [TransOp.extractHigh Reg.temp3 ra.srcreg] else [])) = some c' ∧ Prepared c c' ∧
      (rd.hibyte = true → (c'.arf Reg.temp2).setWidth 8 = ((c.arf rd.arch) >>> 8).setWidth 8) ∧
      (ra.hibyte = true → (c'.arf Reg.temp3).setWidth 8 = ((c.arf ra.srcreg) >>> 8).setWidth 8) := by
  have ht2 : Writable Reg.temp2 := ⟨by decide, by decide, by decide⟩
  have ht3 : Writable Reg.temp3 := ⟨by decide, by decide, by decide⟩
  have hsrc : ra.hibyte = true → ∃ p : Apr, ra.srcreg = p.arch := by
    intro hra
    cases ra with
    | imm v => cases hra
    | reg r => exact ⟨r, rfl⟩
  obtain ⟨c1, hrun1, h1, hv1⟩ := run_extractIf rest junk h rd.hibyte ht2 fun _ => ⟨rd, rfl⟩
  obtain ⟨c2, hrun2, h2, hv2⟩ := run_extractIf rest junk h1.ready ra.hibyte ht3 hsrc
  refine ⟨c2, ?_, ⟨?_, h2.ready, h2.space.trans h1.space, h2.ctx.trans h1.ctx⟩, ?_, ?_⟩
  · rw [SeqCore.runUops_append, hrun1]
    exact hrun2
  · intro r hr2 hr3
    rw [h2.regs r hr3, h1.regs r hr2]
  · intro hrd
    rw [h2.regs Reg.temp2 (by decide), hv1 hrd]
  · intro hra
    have hne : ra.srcreg ≠ Reg.temp2 := by
      obtain ⟨p, hp⟩ := hsrc hra
      rw [hp]
      exact p.arch_ne (by decide)
    rw [hv2 hra, h1.regs _ hne]

/-- An instruction has written `v` to its operand, if it writes, and `flags` to the flags. -/
structure Did (c c' : SeqCore) (p : Apr) (writes : Bool) (v : BitVec (opWidth p.sizeshift))
    (mask flags : W16) : Prop where
  regs : ∀ r : Reg, r.isArch = true → r ≠ Reg.flags →
    c'.arf r = if writes = true ∧ r = p.arch then p.write (c.arf r) v else c.arf r
  status : ∀ i, (c'.arf Reg.flags).getLsbD i =
    if mask.getLsbD i then flags.getLsbD i else (c.arf Reg.flags).getLsbD i
  ready : c'.Ready
  space : c'.space = c.space
  ctx : c'.ctx = c.ctx

theorem temp_not_arch {t : Reg} (ht : 64 ≤ t.val) {r : Reg} (hr : r.isArch = true) : r ≠ t := by
  rintro rfl
  exact absurd (of_decide_eq_true hr) (Nat.not_lt.2 ht)

/-- The wide sizes keep nothing of the old value. -/
theorem x86Merge_wide {size : ℕ} (h2 : 2 ≤ size) (h3 : size ≤ 3) (old old' v : W64) :
    x86Merge size old v = x86Merge size old' v := by
  have hcases : size = 2 ∨ size = 3 := by omega
  rcases hcases with rfl | rfl <;> rfl

/-- A byte merged and read back. -/
theorem x86Merge_byte {size : ℕ} (hsize : size = 0) (old : W64) (x : BitVec (opWidth size)) :
    ((x86Merge size old (x.setWidth 64)).setWidth 8).setWidth 64 = x.setWidth 64 := by
  subst hsize
  have hread : (x86Merge 0 old (x.setWidth 64)).setWidth (opWidth 0) = (x.setWidth 64).setWidth (opWidth 0) :=
    x86Merge_setWidth (by decide) old _
  have hx : (x.setWidth 64).setWidth (opWidth 0) = x := by
    rw [BitVec.setWidth_setWidth_of_le _ (by decide), BitVec.setWidth_eq]
  exact congrArg (BitVec.setWidth 64) (hread.trans hx)

/-- A result in a temporary is no change. -/
theorem Wrote.flagsonly {c1 c2 : SeqCore} (hprep : Prepared c c1) {t : Reg} (ht : 64 ≤ t.val) {v : W64}
    {mask flags : W16} (h : Wrote c1 c2 t v mask flags) (p : Apr) (x : BitVec (opWidth p.sizeshift)) :
    Did c c2 p false x mask flags where
  regs r hr hf := by
    rw [if_neg (by simp), h.regs r (temp_not_arch ht hr) hf, hprep.arch hr]
  status i := by rw [h.status i, hprep.arch (by decide)]
  ready := h.ready
  space := h.space.trans hprep.space
  ctx := h.ctx.trans hprep.ctx

/-- A result merged into a low operand. -/
theorem Wrote.low {c1 c2 : SeqCore} (hprep : Prepared c c1) {p : Apr} (hp : p.hibyte = false)
    {x : BitVec (opWidth p.sizeshift)} {old : W64} (hold : p.sizeshift ≤ 1 → old = c.arf p.arch)
    {mask flags : W16}
    (h : Wrote c1 c2 p.arch (x86Merge p.sizeshift old (x.setWidth 64)) mask flags) :
    Did c c2 p true x mask flags where
  regs r hr hf := by
    by_cases hrd : r = p.arch
    · subst hrd
      have hmerge : x86Merge p.sizeshift old (x.setWidth 64) =
          x86Merge p.sizeshift (c.arf p.arch) (x.setWidth 64) := by
        rcases Nat.lt_or_ge 1 p.sizeshift with hlt | hle
        · exact x86Merge_wide hlt p.sizeshift_le _ _ _
        · rw [hold hle]
      rw [if_pos ⟨rfl, rfl⟩, h.value, Apr.write_eq p hp, hmerge]
    · rw [if_neg fun h => hrd h.2, h.regs r hrd hf, hprep.arch hr]
  status i := by rw [h.status i, hprep.arch (by decide)]
  ready := h.ready
  space := h.space.trans hprep.space
  ctx := h.ctx.trans hprep.ctx

/-- A result inserted into a high operand. -/
theorem Wrote.high {c1 c2 c3 : SeqCore} (hprep : Prepared c c1) {p : Apr} (hp : p.hibyte = true)
    {x : BitVec (opWidth p.sizeshift)} {old : W64} {mask flags flags' : W16}
    (h : Wrote c1 c2 Reg.temp2 (x86Merge p.sizeshift old (x.setWidth 64)) mask flags)
    (h' : Wrote c2 c3 p.arch ((c2.arf p.arch &&& ~~~(0xff00 : W64)) |||
      (((c2.arf Reg.temp2).setWidth 8).setWidth 64 <<< 8)) 0 flags') :
    Did c c3 p true x mask flags where
  regs r hr hf := by
    have hr2 : r ≠ Reg.temp2 := temp_not_arch (by decide) hr
    have hkept : c2.arf r = c.arf r := by rw [h.regs r hr2 hf, hprep.arch hr]
    by_cases hrd : r = p.arch
    · subst hrd
      rw [if_pos ⟨rfl, rfl⟩, h'.value, hkept, h.value, x86Merge_byte (Apr.sizeshift_of_hibyte hp),
        Apr.write, if_pos hp]
    · rw [if_neg fun h => hrd h.2, h'.regs r hrd hf, hkept]
  status i := by
    have hzero : (0 : W16).getLsbD i = false := BitVec.getLsbD_zero
    rw [h'.status i, hzero, if_neg (by decide), h.status i, hprep.arch (by decide)]
  ready := h'.ready
  space := h'.space.trans (h.space.trans hprep.space)
  ctx := h'.ctx.trans (h.ctx.trans hprep.ctx)

/-! ### An operation as an instruction -/

section Alu

variable {o : Opcode} {F : AluFun}

/-- The carry into an operation: none, or the flag. -/
theorem carry_value (h : c.Ready) {rc : Reg} (hrc : rc = Reg.zero ∨ rc = Reg.cf) :
    (c.arflags (remap rc)).getLsbD 0 =
      if rc = Reg.cf then (c.arf Reg.flags).getLsbD 0 else false := by
  rcases hrc with rfl | rfl
  · rw [if_neg (by decide), remap_of_lt (by decide), h.zeroFlags]
    rfl
  · have hremap : remap Reg.cf = Reg.flags := by decide
    rw [if_pos rfl, hremap, h.flags, BitVec.getLsbD_setWidth]
    rfl

theorem Apr.hibyte_of_wide {p : Apr} (h : 1 < p.sizeshift) : ¬p.hibyte = true := by
  intro hp
  rw [Apr.sizeshift_of_hibyte hp] at h
  exact absurd h (by decide)

/-- A register and itself are the same operand. -/
theorem read_self {rd : Apr} {ra : RegImm} (hsize : ∀ r, ra = .reg r → r.sizeshift = rd.sizeshift)
    (hsame : rd.arch = ra.srcreg) (hwide : rd.sizeshift ≥ 2) (arf : Reg → W64) :
    ra.read arf (opWidth rd.sizeshift) = rd.read (arf rd.arch) := by
  cases ra with
  | imm v => exact absurd hsame (Apr.arch_ne rd (show 16 ≤ Reg.imm.val by decide))
  | reg r =>
    have hr := hsize r rfl
    have harch : rd.arch = r.arch := hsame
    show (r.read (arf r.arch)).setWidth _ = _
    unfold Apr.read
    rw [if_neg (Apr.hibyte_of_wide (by omega)), if_neg (Apr.hibyte_of_wide hwide), harch, hr, BitVec.setWidth_eq]

/-- An operation that merges `x` into its first operand runs, and the insertion after it. -/
theorem run_written (hmem : (isload o || isstore o) = false) {c1 : SeqCore} (hprep : Prepared c c1) (rd : Apr)
    {A : Reg} (B rc : Reg) (imm : W64) (s : SetFlags)
    (hold : rd.hibyte = false → rd.sizeshift ≤ 1 → c1.arf (remap A) = c.arf rd.arch)
    {x : BitVec (opWidth rd.sizeshift)} {flags : W16}
    (hexec : let op := TransOp.init o (if rd.hibyte then Reg.temp2 else rd.arch) A B rc rd.sizeshift imm 0 s
      rest.withImpl op (c1.inputs op) = ⟨x86Merge rd.sizeshift (c1.arf (remap A)) (x.setWidth 64), flags⟩)
    (hinv : flags &&& FLAG_INV = 0) :
    ∃ c', c1.runUops rest.withImpl junk
        ([.init o (if rd.hibyte then Reg.temp2 else rd.arch) A B rc rd.sizeshift imm 0 s] ++
          (if rd.hibyte then [.insertHigh rd.arch Reg.temp2] else [])) = some c' ∧
      Did c c' rd true x (setflagsToX86Flags s) flags := by
  by_cases hi : rd.hibyte = true
  · have ht : Writable Reg.temp2 := ⟨by decide, by decide, by decide⟩
    simp only [if_pos hi] at hexec
    obtain ⟨c2, hrun2, hwrote⟩ := @run_merge rest junk c1 (.init o Reg.temp2 A B rc rd.sizeshift imm 0 s) hmem rfl rfl
      rfl hprep.ready ht _ _ hexec hinv
    obtain ⟨c3, flags', hrun3, hwrote'⟩ :=
      run_insert rest junk hwrote.ready rd (show Reg.temp2.val < 72 by decide)
    refine ⟨c3, ?_, Wrote.high hprep hi hwrote hwrote'⟩
    simp only [hi, if_true, List.singleton_append, SeqCore.runUops, hrun2, hrun3, Option.bind_some]
  · simp only [if_neg hi] at hexec
    obtain ⟨c2, hrun2, hwrote⟩ := @run_merge rest junk c1 (.init o rd.arch A B rc rd.sizeshift imm 0 s) hmem rfl rfl
      rfl hprep.ready rd.writable _ _ hexec hinv
    have hlow : rd.hibyte = false := Bool.not_eq_true _ ▸ hi
    refine ⟨c2, ?_, Wrote.low hprep hlow (hold hlow) hwrote⟩
    simp only [hlow, Bool.false_eq_true, if_false, List.append_nil, SeqCore.runUops, hrun2, Option.bind_some]

/-- The operation that writes runs, and the insertion after it. -/
theorem run_write (hF : Implements o F) (hmem : (isload o || isstore o) = false) {c1 : SeqCore}
    (hprep : Prepared c c1) (rd : Apr) {A : Reg} (B rc : Reg) (imm : W64) (s : SetFlags)
    (hold : rd.hibyte = false → rd.sizeshift ≤ 1 → c1.arf (remap A) = c.arf rd.arch) :
    let res := F (opWidth rd.sizeshift) ((c1.arf (remap A)).setWidth _)
      ((if B = Reg.imm then imm else c1.arf (remap B)).setWidth _) ((c1.arflags (remap rc)).getLsbD 0)
    ∃ c' flags, c1.runUops rest.withImpl junk
        ([.init o (if rd.hibyte then Reg.temp2 else rd.arch) A B rc rd.sizeshift imm 0 s] ++
          (if rd.hibyte then [.insertHigh rd.arch Reg.temp2] else [])) = some c' ∧
      Did c c' rd true res.1 (setflagsToX86Flags s) flags ∧ (s ≠ .none → flags = res.2.word) := by
  intro res
  obtain ⟨op, hop⟩ : ∃ op, op = TransOp.init o (if rd.hibyte then Reg.temp2 else rd.arch) A B rc rd.sizeshift imm 0 s :=
    ⟨_, rfl⟩
  obtain ⟨f, himpl, hf⟩ := hF op (by rw [hop]; rfl) (by rw [hop]; exact rd.sizeshift_le)
  subst hop
  obtain ⟨hdata, hinv, hflags⟩ := hf (c1.inputs _)
  have hexec := (SeqCore.withImpl_eq rest himpl _).trans (congrArg (UopResult.mk · _) hdata)
  obtain ⟨c', hrun, hdid⟩ := run_written rest junk hmem hprep rd B rc imm s hold hexec hinv
  exact ⟨c', _, hrun, hdid, hflags⟩

/-- **An operation translated and run**: the result in the operand and the status in the
flags that are set, everything else as before. -/
theorem run_alu (hF : Implements o F) (hmem : (isload o || isstore o) = false)
    (hidiom : o = .opXor → ∀ w (a : BitVec w) cf, F w a a cf = F w 0 0 cf) (h : c.Ready) (rd : Apr)
    (ra : RegImm) (hsize : ∀ r, ra = .reg r → r.sizeshift = rd.sizeshift) (s : SetFlags) {rc : Reg}
    (hrc : rc = Reg.zero ∨ rc = Reg.cf) (flagsonly : Bool) :
    let res := F _ (rd.read (c.arf rd.arch)) (ra.read c.arf _)
      (if rc = Reg.cf then (c.arf Reg.flags).getLsbD 0 else false)
    ∃ c' flags, c.runUops rest.withImpl junk (aluRegOrMem o rd ra s rc flagsonly false none) = some c' ∧
      Did c c' rd (!flagsonly) res.1 (setflagsToX86Flags s) flags ∧ (s ≠ .none → flags = res.2.word) := by
  intro res
  obtain ⟨c1, hrun1, hprep, hv2, hv3⟩ := run_prepare rest junk h rd ra
  -- the operands as the translation names them
  obtain ⟨A, hA⟩ : ∃ A, A = if o = .opXor ∧ rd.arch = ra.srcreg ∧ rd.sizeshift ≥ 2 then Reg.zero else
    if rd.hibyte then Reg.temp2 else rd.arch := ⟨_, rfl⟩
  obtain ⟨B, hB⟩ : ∃ B, B = if o = .opXor ∧ rd.arch = ra.srcreg ∧ rd.sizeshift ≥ 2 then Reg.zero else
    if ra.hibyte then Reg.temp3 else ra.srcreg := ⟨_, rfl⟩
  have hrdarch : rd.arch.isArch = true := decide_eq_true (lt_trans rd.arch_lt (by decide))
  have hcarry : (c1.arflags (remap rc)).getLsbD 0 =
      if rc = Reg.cf then (c.arf Reg.flags).getLsbD 0 else false := by
    rw [carry_value hprep.ready hrc, hprep.arch (by decide)]
  have hres : F _ ((c1.arf (remap A)).setWidth _)
      ((if B = Reg.imm then ra.rbimm else c1.arf (remap B)).setWidth _) ((c1.arflags (remap rc)).getLsbD 0) =
        res := by
    rw [hcarry]
    by_cases hid : o = .opXor ∧ rd.arch = ra.srcreg ∧ rd.sizeshift ≥ 2
    · rw [if_pos hid] at hA hB
      subst hA hB
      have hzero : (0 : W64).setWidth (opWidth rd.sizeshift) = 0 := by simp
      rw [if_neg (by decide), remap_of_lt (by decide), hprep.ready.zero, hzero, ← hidiom hid.1]
      show _ = F _ (rd.read (c.arf rd.arch)) (ra.read c.arf _) _
      rw [read_self hsize hid.2.1 hid.2.2]
    · rw [if_neg hid] at hA hB
      rw [hA, rd_value rd (hprep.arch hrdarch) hv2, ra_value ra hsize (fun r => hprep.arch) hv3 hB]
  have hold : rd.hibyte = false → rd.sizeshift ≤ 1 → c1.arf (remap A) = c.arf rd.arch := by
    intro hlow hle
    have hid : ¬(o = .opXor ∧ rd.arch = ra.srcreg ∧ rd.sizeshift ≥ 2) := fun h => absurd h.2.2 (by omega)
    rw [hA, if_neg hid, hlow, if_neg (by decide), remap_of_lt (lt_trans rd.arch_lt (by decide)),
      hprep.arch hrdarch]
  have hops : aluRegOrMem o rd ra s rc flagsonly false none =
      ((if rd.hibyte then [TransOp.extractHigh Reg.temp2 rd.arch] else []) ++
        (if ra.hibyte then [TransOp.extractHigh Reg.temp3 ra.srcreg] else [])) ++
      if flagsonly then [.init o Reg.temp0 A B rc rd.sizeshift ra.rbimm 0 s]
      else [.init o (if rd.hibyte then Reg.temp2 else rd.arch) A B rc rd.sizeshift ra.rbimm 0 s] ++
        (if rd.hibyte then [.insertHigh rd.arch Reg.temp2] else []) := by
    unfold aluRegOrMem
    dsimp only
    rw [← hA, ← hB]
    cases flagsonly <;> simp
  rw [hops, SeqCore.runUops_append, hrun1, Option.bind_some]
  cases flagsonly with
  | true =>
    have ht : Writable Reg.temp0 := ⟨by decide, by decide, by decide⟩
    obtain ⟨c2, flags, hrun2, hwrote, hflags⟩ := run_implements rest junk hF hmem hprep.ready ht A B rc
      rd.sizeshift_le ra.rbimm s
    refine ⟨c2, flags, ?_, hwrote.flagsonly hprep (by decide) rd res.1, fun hne => ?_⟩
    · simp only [if_true, SeqCore.runUops, hrun2, Option.bind_some]
    · rw [hflags hne]
      exact congrArg (fun r => r.2.word) hres
  | false =>
    obtain ⟨c2, flags, hrun2, hdid, hflags⟩ := run_write rest junk hF hmem hprep rd B rc ra.rbimm s hold
    rw [hres] at hdid hflags
    exact ⟨c2, flags, hrun2, hdid, hflags⟩

/-! ### Negation -/

theorem implements_sub : Implements .opSub fun _ a b c => x86Sub a b c :=
  implements_aluop2 true

theorem implements_add : Implements .opAdd fun _ a b c => x86Add a b c :=
  implements_aluop2 false

/-- A move runs and sets no flags. -/
theorem run_mov (h : c.Ready) {rd r : Reg} (hrd : Writable rd) (hr : r.val < 72)
    (hinv : c.arflags r &&& FLAG_INV = 0) (ra : Reg) (size : ℕ) :
    ∃ c' flags, c.runUop rest.withImpl junk (.init .opMov rd ra r Reg.zero size 0 0 .none) = some c' ∧
      Wrote c c' rd (x86Merge size (c.arf (remap ra)) (c.arf r)) 0 flags := by
  let op := TransOp.init .opMov rd ra r Reg.zero size 0 0 .none
  have hmem : SeqCore.isMem op = false := by
    have h : (isload .opMov || isstore .opMov) = false := by decide
    exact h
  have himpl : uopImpl op = some (expMov op) := rfl
  have hflags : (expMov op (c.inputs op)).rdflags &&& FLAG_INV = 0 := by
    show c.arflags (remap r) &&& FLAG_INV = 0
    rw [remap_of_lt hr, hinv]
  have hrun := SeqCore.runUop_impl rest junk himpl hmem rfl rfl hrd.zero hflags
  have hwrote := wrote_writeResult h op hrd rfl hflags
  have hmask : setflagsToX86Flags op.setflags = 0 := by
    have h : setflagsToX86Flags .none = 0 := by decide
    exact h
  have hdata : (expMov op (c.inputs op)).rddata = x86Merge size (c.arf (remap ra)) (c.arf r) := by
    have hne : r ≠ Reg.imm := by rintro rfl; exact absurd hr (by decide)
    show x86Merge size _ (if r = Reg.imm then _ else c.arf (remap r)) = _
    rw [if_neg hne, remap_of_lt hr]
    rfl
  rw [hmask, hdata] at hwrote
  exact ⟨_, _, hrun, hwrote⟩

/-- A merge into zero is merged as the value is. -/
theorem x86Merge_merge {size : ℕ} (hsize : size ≤ 1) (old v : W64) :
    x86Merge size old (x86Merge size 0 v) = x86Merge size old v := by
  interval_cases size
  · show (old &&& ~~~0xff) ||| ((((0#64) &&& ~~~0xff) ||| (v &&& 0xff)) &&& 0xff) =
      (old &&& ~~~0xff) ||| (v &&& 0xff)
    rw [BitVec.zero_and, BitVec.zero_or, BitVec.and_assoc, BitVec.and_self]
  · show (old &&& ~~~0xffff) ||| ((((0#64) &&& ~~~0xffff) ||| (v &&& 0xffff)) &&& 0xffff) =
      (old &&& ~~~0xffff) ||| (v &&& 0xffff)
    rw [BitVec.zero_and, BitVec.zero_or, BitVec.and_assoc, BitVec.and_self]

/-- Low operands are negated, narrow ones by a subtraction into a temporary and a move. -/
theorem run_neg (h : c.Ready) {rd : Apr} (hlow : rd.hibyte = false) :
    let res := x86Sub 0 (rd.read (c.arf rd.arch)) false
    ∃ c' flags, c.runUops rest.withImpl junk (AluInsn.neg rd).decode = some c' ∧
      Did c c' rd true res.1 (setflagsToX86Flags .default) flags ∧ flags = res.2.word := by
  intro res
  have hself : Prepared c c := ⟨fun r _ _ => rfl, h, rfl, rfl⟩
  have hremap : remap rd.arch = rd.arch := remap_of_lt (lt_trans rd.arch_lt (by decide))
  have hzero : remap Reg.zero = Reg.zero := remap_of_lt (by decide)
  have hread : (c.arf rd.arch).setWidth (opWidth rd.sizeshift) = rd.read (c.arf rd.arch) := by
    unfold Apr.read
    rw [if_neg (by rw [hlow]; decide)]
  have hz : (0 : W64).setWidth (opWidth rd.sizeshift) = 0 := by simp
  have hres : x86Sub ((c.arf (remap Reg.zero)).setWidth (opWidth rd.sizeshift))
      ((if rd.arch = Reg.imm then 0 else c.arf (remap rd.arch)).setWidth _)
      ((c.arflags (remap Reg.zero)).getLsbD 0) = res := by
    rw [hzero, h.zero, h.zeroFlags, hz, if_neg (rd.arch_ne (by decide)), hremap, hread]
    rfl
  have hdef : SetFlags.default ≠ .none := by decide
  have hmem : (isload .opSub || isstore .opSub) = false := by decide
  -- a wide `neg` is one subtraction; a narrow one goes by way of a temporary, to be merged
  rcases Nat.lt_or_ge 1 rd.sizeshift with hwide | hnarrow
  · obtain ⟨c', flags, hrun, hdid, hflags⟩ := run_write rest junk implements_sub hmem hself rd rd.arch
      Reg.zero 0 .default fun _ hle => absurd hle (Nat.not_le.2 hwide)
    rw [hres] at hdid hflags
    refine ⟨c', flags, ?_, hdid, hflags hdef⟩
    rw [← hrun]
    unfold AluInsn.decode aluRegOrMem
    simp [hlow, RegImm.hibyte, RegImm.srcreg, RegImm.rbimm, Nat.not_le.2 hwide]
  · have ht : Writable Reg.temp0 := ⟨by decide, by decide, by decide⟩
    obtain ⟨c1, flags, hrun1, hsub, hflags⟩ := run_implements rest junk implements_sub hmem h ht Reg.zero
      rd.arch Reg.zero rd.sizeshift_le 0 .default
    have hra : c.radata (.init .opSub Reg.temp0 Reg.zero rd.arch Reg.zero rd.sizeshift 0 0 .default) = 0 :=
      (congrArg c.arf hzero).trans h.zero
    have hval : c1.arf Reg.temp0 = x86Merge rd.sizeshift 0 (res.1.setWidth 64) := by
      rw [hsub.value]
      exact congrArg₂ (x86Merge rd.sizeshift) hra
        (congrArg (fun r : BitVec (opWidth rd.sizeshift) × Status => r.1.setWidth 64) hres)
    obtain ⟨c2, flags', hrun2, hmov⟩ := run_mov rest junk hsub.ready rd.writable
      (show Reg.temp0.val < 72 by decide) hsub.inv rd.arch rd.sizeshift
    have hprep : c1.arf rd.arch = c.arf rd.arch := hsub.regs _ (rd.arch_ne (by decide)) (rd.arch_ne (by decide))
    rw [hremap, hval, x86Merge_merge hnarrow, hprep] at hmov
    refine ⟨c2, flags, ?_, ?_, ?_⟩
    · unfold AluInsn.decode aluRegOrMem
      simp only [hlow, RegImm.hibyte, hnarrow, and_self, if_true, Bool.false_eq_true, if_false, List.append_nil,
        List.nil_append, SeqCore.runUops, hrun1, hrun2, Option.bind_some]
    · refine ⟨?_, ?_, hmov.ready, hmov.space.trans hsub.space, hmov.ctx.trans hsub.ctx⟩
      · intro r hr hf
        by_cases hrd : r = rd.arch
        · subst hrd
          rw [if_pos ⟨rfl, rfl⟩, hmov.value, Apr.write_eq rd hlow]
        · rw [if_neg fun h => hrd h.2, hmov.regs r hrd hf, hsub.regs r (temp_not_arch (by decide) hr) hf]
      · intro i
        have hbit : (0 : W16).getLsbD i = false := BitVec.getLsbD_zero
        rw [hmov.status i, hbit, if_neg (by decide), hsub.status i]
    · rw [hflags hdef]
      exact congrArg (fun r => r.2.word) hres

/-- The extractions before an operation leave what it has done to the operands. -/
theorem Prepared.did {c1 c2 : SeqCore} (hprep : Prepared c c1) {p : Apr} {writes : Bool} {v : BitVec (opWidth p.sizeshift)}
    {mask flags : W16} (h : Did c1 c2 p writes v mask flags) : Did c c2 p writes v mask flags where
  regs r hr hf := by rw [h.regs r hr hf, hprep.arch hr]
  status i := by rw [h.status i, hprep.arch (by decide)]
  ready := h.ready
  space := h.space.trans hprep.space
  ctx := h.ctx.trans hprep.ctx

/-- High bytes are extracted and forgotten: the low byte of their register is negated. -/
theorem run_neg_high (h : c.Ready) (r : Fin 4) :
    let rd := Apr.b (r.castLE (by decide))
    let res := x86Sub 0 (rd.read (c.arf rd.arch)) false
    ∃ c' flags, c.runUops rest.withImpl junk (AluInsn.neg (.hi r)).decode = some c' ∧
      Did c c' rd true res.1 (setflagsToX86Flags .default) flags ∧ flags = res.2.word := by
  intro rd res
  obtain ⟨c1, hrun1, hprep, -, -⟩ := run_prepare rest junk h (.hi r) (.reg (.hi r))
  obtain ⟨c2, flags, hrun2, hdid, hflags⟩ := run_neg rest junk hprep.ready (show rd.hibyte = false from rfl)
  have harch : c1.arf rd.arch = c.arf rd.arch := hprep.arch (decide_eq_true (lt_trans rd.arch_lt (by decide)))
  have hops : (AluInsn.neg (.hi r)).decode = ([TransOp.extractHigh Reg.temp2 (Apr.hi r).arch] ++
      [TransOp.extractHigh Reg.temp3 (Apr.hi r).arch]) ++ (AluInsn.neg rd).decode := rfl
  rw [harch] at hdid hflags
  refine ⟨c2, flags, ?_, hprep.did hdid, hflags⟩
  rw [hops, SeqCore.runUops_append]
  exact (congrArg (Option.bind · _) hrun1).trans hrun2

end Alu

/-! ### Instructions -/

namespace AluInsn

/-- An instruction has done what x86 says: its operand and, but for AF, its flags. -/
structure Right (insn : AluInsn) (c c' : SeqCore) : Prop where
  regs : ∀ r : Reg, r.isArch = true → r ≠ Reg.flags →
    c'.arf r = if insn.writes = true ∧ r = insn.rd.arch then
      insn.rd.write (c.arf r) (insn.x86 c.arf ((c.arf Reg.flags).getLsbD 0)).1 else c.arf r
  flags : ∀ i, i ≠ 4 → (c'.arf Reg.flags).getLsbD i =
    insn.flagBit (insn.x86 c.arf ((c.arf Reg.flags).getLsbD 0)).2 (c.arf Reg.flags) i
  space : c'.space = c.space
  ctx : c'.ctx = c.ctx

/-- AF, bit 4 of the flags. -/
def af (c : SeqCore) : Bool := (c.arf Reg.flags).getLsbD 4

/-- The flags an instruction sets. -/
def setflags (insn : AluInsn) : SetFlags := ⟨!insn.keeps.zf, !insn.keeps.cf, !insn.keeps.of⟩

theorem mask_bit (s : SetFlags) (i : ℕ) : (setflagsToX86Flags s).getLsbD i =
    match i with
    | 0 => s.cf | 2 | 4 | 6 | 7 => s.zf | 11 => s.of | _ => false := by
  by_cases hi : i < 16
  · obtain ⟨zf, cf, o⟩ := s
    interval_cases i <;> cases zf <;> cases cf <;> cases o <;> rfl
  · rw [BitVec.getLsbD_of_ge _ _ (Nat.le_of_not_lt hi)]
    split <;> first | omega | rfl

/-- The flags set are those not kept. -/
theorem right_of_did {insn : AluInsn} {c c' : SeqCore} {flags : W16}
    (hdid : Did c c' insn.rd insn.writes (insn.x86 c.arf ((c.arf Reg.flags).getLsbD 0)).1
      (setflagsToX86Flags insn.setflags) flags)
    (hflags : insn.setflags ≠ .none →
      flags = (insn.x86 c.arf ((c.arf Reg.flags).getLsbD 0)).2.word) :
    insn.Right c c' ∧ af c' = (insn.keeps.zf && af c) := by
  have hkeeps : insn.keeps = ⟨true, true, true⟩ ∨ insn.keeps.zf = false ∧ insn.keeps.of = false := by
    cases insn with
    | not rd => exact .inl rfl
    | arith | test | neg | incdec => exact .inr ⟨rfl, rfl⟩
  have hbit : ∀ i, (c'.arf Reg.flags).getLsbD i = if i = 4 then insn.keeps.zf && (c.arf Reg.flags).getLsbD i else
      insn.flagBit (insn.x86 c.arf ((c.arf Reg.flags).getLsbD 0)).2 (c.arf Reg.flags) i := by
    intro i
    rw [hdid.status i, mask_bit]
    unfold setflags flagBit at *
    rcases hkeeps with hk | ⟨hzf, hof⟩
    · simp only [hk, Bool.not_true, Bool.true_and, if_true]
      split <;> simp
    · have hword := hflags (by simp [hzf, SetFlags.none])
      simp only [hzf, hof, hword, Status.word_bit, Bool.not_false, Bool.false_eq_true, if_false]
      cases insn.keeps.cf <;> split <;> simp_all
  refine ⟨⟨hdid.regs, fun i hi => ?_, hdid.space, hdid.ctx⟩, ?_⟩
  · rw [hbit i, if_neg hi]
  · exact hbit 4

/-- `xor` of a register and itself depends on nothing. -/
theorem logic_xor_self {w : ℕ} (a : BitVec w) : x86Logic (a ^^^ a) = x86Logic ((0 : BitVec w) ^^^ 0) := by
  rw [BitVec.xor_self, BitVec.xor_self]

/-- The ALU instructions are translated right, AF apart, which all but `not` clear; the
negation of a high byte is left out. -/
theorem run_right (rest : Synthop) (junk : Sfr) (insn : AluInsn) (hsize : insn.SizesMatch)
    (hneg : ∀ rd, insn = .neg rd → rd.hibyte = false) (c : SeqCore) (h : c.Ready) :
    ∃ c', c.runUops rest.withImpl junk insn.decode = some c' ∧ insn.Right c c' ∧
      af c' = (insn.keeps.zf && af c) := by
  -- one run gives both parts: the word of the flags is that of the operation, where it sets any
  suffices hrun : ∃ c' flags, c.runUops rest.withImpl junk insn.decode = some c' ∧
      Did c c' insn.rd insn.writes (insn.x86 c.arf ((c.arf Reg.flags).getLsbD 0)).1
        (setflagsToX86Flags insn.setflags) flags ∧
      (insn.setflags ≠ .none → flags = (insn.x86 c.arf ((c.arf Reg.flags).getLsbD 0)).2.word) by
    obtain ⟨c', flags, hrun, hdid, hflags⟩ := hrun
    exact ⟨c', hrun, right_of_did hdid hflags⟩
  have hmem : ∀ o, o ∈ [Opcode.opAdd, .opSub, .opAnd, .opOr, .opXor, .opNor] →
      (isload o || isstore o) = false := by decide
  have hz : Reg.zero = Reg.zero ∨ Reg.zero = Reg.cf := .inl rfl
  have hc : Reg.cf = Reg.zero ∨ Reg.cf = Reg.cf := .inr rfl
  cases insn with
  | arith subop rd ra =>
    have hra : ∀ r, ra = .reg r → r.sizeshift = rd.sizeshift := by
      rintro r rfl
      exact hsize
    fin_cases subop
    · exact run_alu rest junk implements_add (hmem _ (by decide)) nofun h rd ra hra .default hz false
    · exact run_alu rest junk implements_or (hmem _ (by decide)) nofun h rd ra hra .default hz false
    · exact run_alu rest junk implements_add (hmem _ (by decide)) nofun h rd ra hra .default hc false
    · exact run_alu rest junk implements_sub (hmem _ (by decide)) nofun h rd ra hra .default hc false
    · exact run_alu rest junk implements_and (hmem _ (by decide)) nofun h rd ra hra .default hz false
    · exact run_alu rest junk implements_sub (hmem _ (by decide)) nofun h rd ra hra .default hz false
    · exact run_alu rest junk implements_xor (hmem _ (by decide)) (fun _ w a _ => logic_xor_self a) h rd ra hra
        .default hz false
    · exact run_alu rest junk implements_sub (hmem _ (by decide)) nofun h rd ra hra .default hz true
  | test rd ra =>
    have hra : ∀ r, ra = .reg r → r.sizeshift = rd.sizeshift := by
      rintro r rfl
      exact hsize
    exact run_alu rest junk implements_and (hmem _ (by decide)) nofun h rd ra hra .default hz true
  | not rd =>
    have hrun := run_alu rest junk implements_nor (hmem _ (by decide)) nofun h rd (.reg rd)
      (fun r hr => by cases hr; rfl) .none hz false
    have hread : (RegImm.reg rd).read c.arf (opWidth rd.sizeshift) = rd.read (c.arf rd.arch) :=
      BitVec.setWidth_eq _
    simp only [hread, BitVec.or_self] at hrun
    exact hrun
  | neg rd =>
    obtain ⟨c', flags, hrun, hdid, hflags⟩ := run_neg rest junk h (hneg rd rfl)
    exact ⟨c', flags, hrun, hdid, fun _ => hflags⟩
  | incdec dec rd =>
    have himm : ∀ r, RegImm.imm 1 = .reg r → r.sizeshift = rd.sizeshift := nofun
    have hone : (RegImm.imm 1).read c.arf (opWidth rd.sizeshift) = 1 := by
      apply BitVec.eq_of_toNat_eq
      simp [RegImm.read]
    cases dec with
    | false =>
      have hrun := run_alu rest junk implements_add (hmem _ (by decide)) nofun h rd (.imm 1)
        himm ⟨true, false, true⟩ hz false
      rw [hone] at hrun
      exact hrun
    | true =>
      have hrun := run_alu rest junk implements_sub (hmem _ (by decide)) nofun h rd (.imm 1)
        himm ⟨true, false, true⟩ hz false
      rw [hone] at hrun
      exact hrun

/-- A core with the given registers and the program's pages. -/
def core (arf : Reg → W64) : SeqCore := (Frame.sample arf []).core

/-! ### High bytes -/

/-- The two low bytes of a register. -/
def lowByte (v : W64) : BitVec 8 := v.setWidth 8

def highByte (v : W64) : BitVec 8 := (v >>> 8).setWidth 8

/-- When the uops of an instruction do all x86 says and keep AF: AF is clear or kept by all (`not`), and
the instruction does not negate a high byte, unless the low one equals it and both their own negation. -/
def Met (insn : AluInsn) (c : SeqCore) : Prop :=
  (insn.keeps.zf = true ∨ af c = false) ∧ ∀ r, insn = .neg (.hi r) →
    highByte (c.arf (Apr.hi r).arch) = lowByte (c.arf (Apr.hi r).arch) ∧
      0 - lowByte (c.arf (Apr.hi r).arch) = lowByte (c.arf (Apr.hi r).arch)

/-- A byte written as the low one and a byte written as the high one make the same register just if
both were there. -/
theorem write_low_eq_high {v : W64} {x y : BitVec 8} {r : Fin 16} {r' : Fin 4}
    (h : (Apr.b r).write v x = (Apr.hi r').write v y) : x = lowByte v ∧ y = highByte v := by
  have hbits : ∀ i, ((v &&& ~~~(0xff : W64)) ||| x.setWidth 64).getLsbD i =
      ((v &&& ~~~(0xff00 : W64)) ||| (y.setWidth 64 <<< 8)).getLsbD i := fun i => congrArg (BitVec.getLsbD · i) h
  unfold lowByte highByte
  constructor
  · apply BitVec.eq_of_getLsbD_eq
    intro i hi
    have hbit := hbits i
    interval_cases i <;> simpa using hbit
  · apply BitVec.eq_of_getLsbD_eq
    intro i hi
    have hbit := hbits (i + 8)
    interval_cases i <;> simpa using hbit.symm

theorem write_lowByte (v : W64) (r : Fin 16) : (Apr.b r).write v (lowByte v) = v := by
  have hmask : ∀ i < 64, (~~~(0xff : W64)).getLsbD i = decide (8 ≤ i) := by decide
  show (v &&& ~~~(0xff : W64)) ||| (lowByte v).setWidth 64 = v
  apply BitVec.eq_of_getLsbD_eq
  intro i hi
  rw [BitVec.getLsbD_or, BitVec.getLsbD_and, hmask i hi, BitVec.getLsbD_setWidth, lowByte, BitVec.getLsbD_setWidth]
  by_cases h8 : 8 ≤ i
  · simp [h8]
  · simp [h8, hi, Nat.lt_of_not_le h8]

theorem write_highByte (v : W64) (r : Fin 4) : (Apr.hi r).write v (highByte v) = v := by
  have hmask : ∀ i < 64, (~~~(0xff00 : W64)).getLsbD i = decide (i < 8 ∨ 16 ≤ i) := by decide
  show (v &&& ~~~(0xff00 : W64)) ||| ((highByte v).setWidth 64 <<< 8) = v
  apply BitVec.eq_of_getLsbD_eq
  intro i hi
  rw [BitVec.getLsbD_or, BitVec.getLsbD_and, hmask i hi, BitVec.getLsbD_shiftLeft, BitVec.getLsbD_setWidth, highByte,
    BitVec.getLsbD_setWidth, BitVec.getLsbD_ushiftRight]
  by_cases h8 : i < 8
  · simp [h8]
  · by_cases h16 : 16 ≤ i
    · simp [h8, h16, show ¬i - 8 < 8 by omega]
    · simp [h8, h16, hi, show i - 8 < 8 by omega, show i - 8 < 64 by omega, show 8 + (i - 8) = i by omega]

theorem eq_of_self_negation : ∀ a : BitVec 8, 0 - a = a → a = 0 ∨ a = 0x80 := by
  decide +kernel

/-- What the negation of a high byte does is what x86 says only of two equal bytes that are
their own negation. -/
theorem right_iff_high {r : Fin 4} {c c' : SeqCore} {flags : W16} :
    let rd := Apr.b (r.castLE (by decide))
    let res := x86Sub 0 (rd.read (c.arf rd.arch)) false
    Did c c' rd true res.1 (setflagsToX86Flags .default) flags → flags = res.2.word →
      ((neg (.hi r)).Right c c' ↔ highByte (c.arf (Apr.hi r).arch) = lowByte (c.arf (Apr.hi r).arch) ∧
        0 - lowByte (c.arf (Apr.hi r).arch) = lowByte (c.arf (Apr.hi r).arch)) := by
  intro rd res hdid hflags
  set v := c.arf (Apr.hi r).arch with hv
  have harch : rd.arch.isArch = true := decide_eq_true (lt_trans rd.arch_lt (by decide))
  have hne : rd.arch ≠ Reg.flags := rd.arch_ne (by decide)
  have hlow : @Eq (BitVec 8) res.1 (0 - lowByte v) := BitVec.sub_zero _
  have hhigh : (x86Sub 0 (highByte v) false).1 = 0 - highByte v := BitVec.sub_zero _
  constructor
  · intro hright
    have hwrite : rd.write v res.1 = (Apr.hi r).write v (x86Sub 0 (highByte v) false).1 := by
      have hcode := hdid.regs rd.arch harch hne
      have hx86 := hright.regs rd.arch harch hne
      rw [if_pos ⟨rfl, rfl⟩] at hcode hx86
      exact hcode.symm.trans hx86
    obtain ⟨hl, hh⟩ := write_low_eq_high hwrite
    rw [hlow] at hl
    rw [hhigh] at hh
    refine ⟨?_, hl⟩
    -- the zero flag is that of the low byte, and has to be that of the high one
    let low : BitVec 8 := res.1
    let high : BitVec 8 := (x86Sub 0 (highByte v) false).1
    have hzf : decide (low = 0) = decide (high = 0) := by
      have hmask : (setflagsToX86Flags .default).getLsbD 6 = true := by decide
      have hx86 := hright.flags 6 (by decide)
      rw [hdid.status 6, hflags, if_pos hmask, Status.word_bit] at hx86
      exact hx86
    rw [show low = lowByte v from hlow.trans hl, show high = highByte v from hhigh.trans hh] at hzf
    rcases eq_of_self_negation _ hl with h0 | h0 <;> rcases eq_of_self_negation _ hh with h1 | h1 <;>
      rw [h0, h1] at hzf ⊢ <;> exact absurd hzf (by decide)
  · rintro ⟨heq, hself⟩
    have hres : (x86Sub 0 (highByte v) false : BitVec 8 × Status) = res := congrArg (fun b : BitVec 8 => x86Sub 0 b false) heq
    have hwrite : rd.write v res.1 = (Apr.hi r).write v (x86Sub 0 (highByte v) false).1 := by
      rw [hhigh, heq, hself, ← heq, write_highByte]
      exact (congrArg ((Apr.b (r.castLE (by decide))).write v) (hlow.trans hself)).trans (write_lowByte v _)
    have hhi : Did c c' (.hi r) true (x86Sub 0 (highByte v) false).1 (setflagsToX86Flags .default) flags := by
      refine ⟨fun q hq hf => ?_, hdid.status, hdid.ready, hdid.space, hdid.ctx⟩
      rw [hdid.regs q hq hf]
      by_cases hqr : q = rd.arch
      · subst hqr
        rw [if_pos ⟨rfl, rfl⟩, if_pos ⟨rfl, rfl⟩]
        exact hwrite
      · rw [if_neg fun h => hqr h.2, if_neg fun h => hqr h.2]
    suffices hflags : (neg (.hi r)).setflags ≠ .none →
        flags = ((neg (.hi r)).x86 c.arf ((c.arf Reg.flags).getLsbD 0)).2.word from (right_of_did hhi hflags).1
    intro _
    rw [hflags]
    exact congrArg (fun p : BitVec 8 × Status => p.2.word) hres.symm

/-- **When the ALU instructions are translated right**: AF is clear before or the instruction is `not`,
and it does not negate a high byte that differs from the low one or from its own negation. -/
theorem decode_right_iff (rest : Synthop) (junk : Sfr) (insn : AluInsn) (hsize : insn.SizesMatch) (c : SeqCore)
    (h : c.Ready) : (∃ c', c.runUops rest.withImpl junk insn.decode = some c' ∧ insn.Right c c' ∧ af c' = af c) ↔
      insn.Met c := by
  unfold Met
  by_cases hneg : ∃ r, insn = .neg (.hi r)
  · obtain ⟨r, rfl⟩ := hneg
    obtain ⟨c', flags, hrun, hdid, hflags⟩ := run_neg_high rest junk h r
    have haf : af c' = false := by
      have hmask : (setflagsToX86Flags .default).getLsbD 4 = true := by decide
      have hbit := hdid.status 4
      rw [hflags, if_pos hmask, Status.word_bit] at hbit
      exact hbit
    constructor
    · rintro ⟨c'', hrun', hright, hkept⟩
      obtain rfl := Option.some.inj (hrun.symm.trans hrun')
      refine ⟨.inr (hkept ▸ haf), fun r' hr => ?_⟩
      obtain rfl : r = r' := by cases hr; rfl
      exact (right_iff_high hdid hflags).1 hright
    · rintro ⟨hclear | hclear, hbytes⟩
      · cases hclear
      · exact ⟨c', hrun, (right_iff_high hdid hflags).2 (hbytes r rfl), haf.trans hclear.symm⟩
  · have hlow : ∀ rd, insn = .neg rd → rd.hibyte = false := by
      rintro rd rfl
      cases rd with
      | hi r => exact absurd ⟨r, rfl⟩ hneg
      | q | d | w | b => rfl
    obtain ⟨c', hrun, hright, haf⟩ := run_right rest junk insn hsize hlow c h
    constructor
    · rintro ⟨c'', hrun', -, hkept⟩
      obtain rfl := Option.some.inj (hrun.symm.trans hrun')
      refine ⟨?_, fun r hr => absurd ⟨r, hr⟩ hneg⟩
      rw [haf] at hkept
      cases hz : insn.keeps.zf with
      | true => exact .inl rfl
      | false =>
        rw [hz] at hkept
        exact .inr hkept.symm
    · rintro ⟨hkeeps | hclear, -⟩
      · exact ⟨c', hrun, hright, by rw [haf, hkeeps, Bool.true_and]⟩
      · exact ⟨c', hrun, hright, by rw [haf, hclear, Bool.and_false]⟩

/-- `neg ah` of two bytes 0x80. -/
theorem decode_right_iff_ah : ∃ c', (core fun r => if r = Reg.rax then 0x8080 else 0).runUops
      (Synthop.withImpl fun _ _ => ⟨0, 0⟩) Frame.Sfr.zero (neg (.hi 0)).decode = some c' ∧
    (neg (.hi 0)).Right (core fun r => if r = Reg.rax then 0x8080 else 0) c' ∧
      af c' = af (core fun r => if r = Reg.rax then 0x8080 else 0) := by
  have hready : (core fun r => if r = Reg.rax then 0x8080 else 0).Ready :=
    ⟨by decide +kernel, by decide +kernel, by decide +kernel, by decide +kernel⟩
  refine (decode_right_iff (fun _ _ => ⟨0, 0⟩) Frame.Sfr.zero (neg (.hi 0)) trivial _ hready).2 ⟨.inr ?_, ?_⟩
  · decide +kernel
  · rintro r hr
    cases hr
    exact ⟨by decide +kernel, by decide +kernel⟩

/-- An instruction does what x86 says and keeps AF, from any registers. -/
def Exact (insn : AluInsn) : Prop := ∀ (rest : Synthop) (junk : Sfr) (c : SeqCore), c.Ready →
  ∃ c', c.runUops rest.withImpl junk insn.decode = some c' ∧ insn.Right c c' ∧ af c' = af c

/-- An addition clears AF, and the negation of `ah` changes `al`. -/
theorem not_exact : ¬ (∀ insn : AluInsn, insn.SizesMatch → (∀ rd, insn = .neg rd → rd.hibyte = false) →
    insn.Exact) ∧ ¬ Exact (.neg (.hi 0)) := by
  constructor
  · intro h
    let c := core fun r => if r = Reg.flags then 0x10 else 0
    have hready : c.Ready := ⟨by decide +kernel, by decide +kernel, by decide +kernel, by decide +kernel⟩
    obtain ⟨c', hrun, -, haf⟩ := h (arith 0 (.q 0) (.imm 0)) trivial nofun (fun _ _ => ⟨0, 0⟩) Frame.Sfr.zero c
      hready
    have hcleared : (c.runUops (Synthop.withImpl fun _ _ => ⟨0, 0⟩) Frame.Sfr.zero
        (arith 0 (.q 0) (.imm 0)).decode).map af = some false := by decide +kernel
    have hset : af c = true := by decide +kernel
    rw [hrun, Option.map_some, haf, hset] at hcleared
    cases hcleared
  · intro h
    let c := core fun r => if r = Reg.rax then 1 else 0
    have hready : c.Ready := ⟨by decide +kernel, by decide +kernel, by decide +kernel, by decide +kernel⟩
    obtain ⟨c', hrun, hright, -⟩ := h (fun _ _ => ⟨0, 0⟩) Frame.Sfr.zero c hready
    have hlow : (c.runUops (Synthop.withImpl fun _ _ => ⟨0, 0⟩) Frame.Sfr.zero
        (neg (.hi 0)).decode).map (fun c => c.arf Reg.rax) = some 0xff := by decide +kernel
    have hval : c'.arf Reg.rax = 0xff := by
      rw [hrun] at hlow
      exact Option.some.inj hlow
    have hregs := hright.regs Reg.rax (by decide) (by decide)
    rw [hval] at hregs
    exact absurd hregs (by decide +kernel)

end AluInsn

end X86Sim
