import X86Sim.Decode.Words

/-!
# The stack frame, `push` and `pop` (`decode-fast.cpp`, `decode-complex.cpp`)

A push stores below the stack pointer and then moves it. A pop into memory has its store before
the stack pointer moves, so that an address relative to it is corrected beforehand.
-/

namespace X86Sim

open X86Sim.Seq X86Sim.Seq.SeqCore

/-- `enter` at level 0 (0xc8), `leave` (0xc9), and `push` (0xff) and `pop` (0x8f) of an operand of 16, 32 or 64 bits.
No operand has `rsp` for an index. -/
inductive StackInsn
  | enter (bytes : W16)
  | leave
  | push (ra : Operand) (wide : 1 ≤ ra.sizeshift)
  | pop (rd : Operand) (wide : 1 ≤ rd.sizeshift) (index : ∀ o size, rd = .mem o size → o.index ≠ some 4)

namespace StackInsn

/-- `sizeshift`: there is no way to encode a push or a pop of 32 bits in 64-bit mode. -/
def sizeshift (insn : StackInsn) (pfx : Prefixes) : ℕ :=
  match insn with
  | enter _ | leave => if pfx.data then 1 else 3
  | push ra _ => if ra.sizeshift = 2 then 3 else ra.sizeshift
  | pop rd _ _ => if rd.sizeshift = 2 then 3 else rd.sizeshift

/-- The bytes pushed or popped. -/
def slot (insn : StackInsn) (pfx : Prefixes) : W64 := BitVec.ofNat 64 (1 <<< insn.sizeshift pfx)

/-- The operand of a pop, corrected. -/
def popped (n : W64) (o : X86Operand) : X86Operand :=
  if o.base.basereg = Reg.rsp then { o with disp := o.disp + n } else o

/-- The uops. -/
def decode (insn : StackInsn) (pfx : Prefixes) (rip : W64) : List TransOp :=
  let size := insn.sizeshift pfx
  let n := insn.slot pfx
  match insn with
  | enter bytes =>
    [.mk3 .opSt Reg.mem Reg.rsp Reg.imm Reg.rbp size (-n), .mk3 .opSub Reg.rsp Reg.rsp Reg.imm Reg.zero 3 n,
      .mk3 .opMov Reg.rbp Reg.zero Reg.rsp Reg.zero size 0,
      .mk3 .opSub Reg.rsp Reg.rsp Reg.imm Reg.zero size (bytes.setWidth 64)]
  | leave =>
    -- loaded twice, so that a fault leaves the stack pointer
    [.mk3 .opLd Reg.temp0 Reg.rbp Reg.imm Reg.zero size 0, .mk3 .opMov Reg.rsp Reg.zero Reg.rbp Reg.zero size 0,
      .mk3 .opLd Reg.rbp Reg.rsp Reg.imm Reg.zero size 0, .mk3 .opAdd Reg.rsp Reg.rsp Reg.imm Reg.zero 3 n]
  | push ra _ =>
    let move (rareg : Reg) : List TransOp := [.mk3 .opSt Reg.mem Reg.rsp Reg.imm rareg size (-n),
      .mk3 .opSub Reg.rsp Reg.rsp Reg.imm Reg.zero 3 n]
    match ra with
    | .reg r => move r.arch
    | .mem o _ => operandLoad pfx rip Reg.temp7 (o.memRef size) .opLd ++ move Reg.temp7
  | pop rd _ _ =>
    let move : TransOp := .mk3 .opAdd Reg.rsp Reg.rsp Reg.imm Reg.zero 3 n
    match rd with
    | .reg r => .mk3 .opLd r.arch Reg.rsp Reg.imm Reg.zero size 0 :: if r.arch ≠ Reg.rsp then [move] else []
    | .mem o _ => .mk3 .opLd Reg.temp7 Reg.rsp Reg.imm Reg.zero size 0 ::
      (resultStore pfx rip Reg.temp7 ((popped n o).memRef size) ++ [move])

/-! ### What x86 says -/

variable (insn : StackInsn) (pfx : Prefixes) (rip : W64) (c : SeqCore)

/-- The word loaded at an address, of the size of the slot. -/
def loaded (a : W64) : W64 := (loadBytes c.space.bytes (canonicalAddr a) (insn.sizeshift pfx)).setWidth 64

/-- Where a push stores. -/
def below : W64 := c.arf Reg.rsp - insn.slot pfx

/-- The core a pop into memory has its address from. -/
def raised : SeqCore := c.setArf Reg.rsp (c.arf Reg.rsp + insn.slot pfx)

/-- The registers after. -/
def regs (r : Reg) : W64 :=
  let size := insn.sizeshift pfx
  match insn with
  | enter bytes =>
    if r = Reg.rsp then (enter bytes).below pfx c - bytes.setWidth 64
    else if r = Reg.rbp then MulDiv.put size (c.arf Reg.rbp) ((enter bytes).below pfx c)
    else c.arf r
  | leave =>
    if r = Reg.rsp then c.arf Reg.rbp + leave.slot pfx
    else if r = Reg.rbp then MulDiv.put size (c.arf Reg.rbp) (leave.loaded pfx c (c.arf Reg.rbp))
    else c.arf r
  | push ra wide => if r = Reg.rsp then (push ra wide).below pfx c else c.arf r
  | pop (.reg p) wide index =>
    let insn := pop (.reg p) wide index
    if r = p.arch then MulDiv.put size ((insn.raised pfx c).arf r) (insn.loaded pfx c (c.arf Reg.rsp))
    else (insn.raised pfx c).arf r
  | pop (.mem o n) wide index => ((pop (.mem o n) wide index).raised pfx c).arf r

/-- The memory after. -/
def bytes : ℕ → Byte :=
  let size := insn.sizeshift pfx
  match insn with
  | enter bytes => storeBytewise (canonicalAddr ((enter bytes).below pfx c)) (c.arf Reg.rbp) c.space.bytes (2 ^ size)
  | push (.reg p) wide =>
    storeBytewise (canonicalAddr ((push (.reg p) wide).below pfx c)) (c.arf p.arch) c.space.bytes (2 ^ size)
  | push (.mem o n) wide => storeBytewise (canonicalAddr ((push (.mem o n) wide).below pfx c))
    ((push (.mem o n) wide).loaded pfx c (o.address pfx c rip)) c.space.bytes (2 ^ size)
  | pop (.mem o n) wide index =>
    let insn := pop (.mem o n) wide index
    storeBytewise (Operand.effective pfx rip (insn.raised pfx c) o) (insn.loaded pfx c (c.arf Reg.rsp)) c.space.bytes
      (2 ^ size)
  | leave | pop (.reg _) _ _ => c.space.bytes

/-- An instruction has done what x86 says. -/
structure Right (c' : SeqCore) : Prop where
  regs : ∀ r : Reg, r.isArch = true → r ≠ Reg.flags → c'.arf r = insn.regs pfx c r
  flags : c'.arf Reg.flags = c.arf Reg.flags
  bytes : c'.space.bytes = insn.bytes pfx rip c

/-- Where it stores. -/
def stored : Option ℕ :=
  match insn with
  | enter _ | push _ _ => some (canonicalAddr (insn.below pfx c))
  | pop (.mem o _) _ _ => some (Operand.effective pfx rip (insn.raised pfx c) o)
  | leave | pop (.reg _) _ _ => none

/-- Where it loads. -/
def source : Option ℕ :=
  match insn with
  | leave => some (canonicalAddr (c.arf Reg.rbp))
  | push (.mem o _) _ => some (Operand.effective pfx rip c o)
  | pop _ _ _ => some (canonicalAddr (c.arf Reg.rsp))
  | enter _ | push (.reg _) _ => none

/-- What an instruction loads and stores may be. -/
structure Accessible : Prop where
  ctx : HostCtx c
  store : ∀ a ∈ insn.stored pfx rip c, X86Sim.Accessible c true a (insn.sizeshift pfx)
  load : ∀ a ∈ insn.source pfx rip c, X86Sim.Accessible c false a (insn.sizeshift pfx)

/-- When an instruction does. The frames of 16 bits clear the upper bits of `rbp`, and `enter` loses a borrow from
those of `rsp`; a pop of 16 bits clears the upper bits of its register. What the uops load for a push may be loaded and
is the word at the effective address; where they store for a pop may be stored, to the same bytes. -/
def Exact : Prop :=
  match insn with
  | enter bytes => pfx.data = true → c.arf Reg.rbp >>> 16 = 0 ∧ bytes.toNat ≤ (c.arf Reg.rsp - 2).toNat % 2 ^ 16
  | leave => pfx.data = true → c.arf Reg.rbp >>> 16 = 0
  | push (.reg _) _ => True
  | push (.mem o n) wide =>
    let insn := push (.mem o n) wide
    X86Sim.Accessible c false (Operand.address pfx c rip o) (insn.sizeshift pfx) ∧
      insn.loaded pfx c (accessValue pfx c rip o) = insn.loaded pfx c (o.address pfx c rip)
  | pop (.reg p) _ _ => p.sizeshift = 1 → (if p.arch = Reg.rsp then c.arf Reg.rsp + 2 else c.arf p.arch) >>> 16 = 0
  | pop (.mem o n) wide index =>
    let insn := pop (.mem o n) wide index
    let word := insn.loaded pfx c (c.arf Reg.rsp)
    X86Sim.Accessible c true (Operand.address pfx (insn.raised pfx c) rip o) (insn.sizeshift pfx) ∧
      storeBytewise (Operand.address pfx (insn.raised pfx c) rip o) word c.space.bytes (2 ^ insn.sizeshift pfx) =
        storeBytewise (Operand.effective pfx rip (insn.raised pfx c) o) word c.space.bytes (2 ^ insn.sizeshift pfx)

/-! ### Merges -/

theorem setWidth_sub {n : ℕ} (hn : n ≤ 64) (a b : W64) : (a - b).setWidth n = a.setWidth n - b.setWidth n := by
  refine eq_sub_of_add_eq ?_
  rw [← BitVec.setWidth_add _ _ hn]
  exact congrArg (BitVec.setWidth n) (sub_add_cancel a b)

/-- A merge of what is there is nothing. -/
theorem x86Merge_self {size : ℕ} (hsize : size ≤ 1) (v : W64) : x86Merge size v v = v := by
  apply BitVec.eq_of_getLsbD_eq
  intro i hi
  rw [x86Merge_bit hsize]
  split <;> rfl

/-- A difference of 16 bits is right just if there is no borrow from the upper bits. -/
theorem merge_sub_iff (t : W64) (b : W16) :
    x86Merge 1 t (t - b.setWidth 64) = t - b.setWidth 64 ↔ b.toNat ≤ t.toNat % 2 ^ 16 := by
  have hupper := ImulInsn.x86Merge_iff (Nat.le_refl 1) (by decide) t (t - b.setWidth 64) (t - b.setWidth 64)
  rw [x86Merge_self (Nat.le_refl 1)] at hupper
  have hb : b.toNat < 2 ^ 16 := b.isLt
  have ht : t.toNat < 2 ^ 64 := t.isLt
  have hwide : (b.setWidth 64).toNat = b.toNat := by
    rw [BitVec.toNat_setWidth]
    exact Nat.mod_eq_of_lt (by omega)
  have hnat : t >>> 16 = (t - b.setWidth 64) >>> 16 ↔
      t.toNat / 2 ^ 16 = (2 ^ 64 - b.toNat + t.toNat) % 2 ^ 64 / 2 ^ 16 := by
    rw [← BitVec.toNat_inj, BitVec.toNat_ushiftRight, BitVec.toNat_ushiftRight, BitVec.toNat_sub, hwide,
      Nat.shiftRight_eq_div_pow, Nat.shiftRight_eq_div_pow]
  rw [hupper, hnat]
  omega

/-- A word that a load of a size gives is a merge into zero. -/
theorem merge_zero {size : ℕ} (h1 : size = 1 ∨ size = 3) (v : BitVec (opWidth size)) :
    x86Merge size 0 (v.setWidth 64) = v.setWidth 64 := by
  rcases h1 with rfl | rfl
  · have hones : (BitVec.allOnes 16).setWidth 64 = (0xffff : W64) := by decide
    show ((0 : W64) &&& ~~~0xffff) ||| (v.setWidth 64 &&& 0xffff) = _
    have hnone : (0 : W64) &&& ~~~(0xffff : W64) = 0 := by decide
    rw [hnone, ← hones]
    exact BitVec.zero_or.trans (setWidth_and_allOnes v)
  · rfl

/-- The merge of 16 bits is that into zero just if there is nothing above them. -/
theorem zero_merge_iff {size : ℕ} (hsize : size = 1 ∨ size = 3) (old v : W64) :
    x86Merge size 0 v = MulDiv.put size old v ↔ (size = 1 → old >>> 16 = 0) := by
  have hzero : (0 : W64) >>> 16 = 0 := by decide
  have hle : 1 ≤ size ∧ size ≤ 3 := by omega
  rw [MulDiv.put_eq hle.2, ImulInsn.x86Merge_iff hle.1 hle.2, hzero]
  constructor
  · rintro (hne | heq) h1
    · exact absurd h1 hne
    · exact heq.symm
  · intro h
    by_cases h1 : size = 1
    · exact .inr (h h1).symm
    · exact .inl h1

/-! ### Pieces -/

variable {insn} {pfx} {rip} {c} {c' : SeqCore} (rest : Synthop)

theorem sizeshift_cases (insn : StackInsn) (pfx : Prefixes) : insn.sizeshift pfx = 1 ∨ insn.sizeshift pfx = 3 := by
  have hoperand : ∀ d : Operand, 1 ≤ d.sizeshift →
      (if d.sizeshift = 2 then 3 else d.sizeshift) = 1 ∨ (if d.sizeshift = 2 then 3 else d.sizeshift) = 3 := by
    intro d hd
    have hle := d.sizeshift_le
    split <;> omega
  cases insn with
  | enter bytes =>
    show (if pfx.data then 1 else 3) = 1 ∨ (if pfx.data then 1 else 3) = 3
    split <;> simp
  | leave =>
    show (if pfx.data then 1 else 3) = 1 ∨ (if pfx.data then 1 else 3) = 3
    split <;> simp
  | push ra wide => exact hoperand ra wide
  | pop rd wide index => exact hoperand rd wide

theorem sizeshift_le (insn : StackInsn) (pfx : Prefixes) : insn.sizeshift pfx ≤ 3 := by
  have h := insn.sizeshift_cases pfx
  omega

/-- Of registers written, only those count, and the memory. -/
theorem right_iff_bytes (insn : StackInsn) {rs ws : List Reg} {m : ℕ → Byte} (hrs : Temps rs)
    (hkeep : Reg.flags ∉ rs ++ ws) (hws : ∀ r ∈ ws, r.isArch = true) (hl : Leaves (rs ++ ws) m c c')
    (hother : ∀ r ∉ ws, insn.regs pfx c r = c.arf r) :
    insn.Right pfx rip c c' ↔ (∀ r ∈ ws, c'.arf r = insn.regs pfx c r) ∧ m = insn.bytes pfx rip c := by
  constructor
  · intro h
    refine ⟨fun r hr => h.regs r (hws r hr) fun hf => hkeep (hf ▸ List.mem_append_right _ hr), ?_⟩
    exact hl.bytes.symm.trans h.bytes
  · rintro ⟨h, hm⟩
    refine ⟨fun r hr hf => ?_, hl.arf _ hkeep, hl.bytes.trans hm⟩
    by_cases hmem : r ∈ ws
    · exact h r hmem
    · rw [hother r hmem]
      refine hl.arf r fun hin => ?_
      rcases List.mem_append.1 hin with htemp | hin
      · rcases hrs r htemp with h64 | hflags
        · exact temp_not_arch h64 hr rfl
        · exact hf hflags
      · exact hmem hin

theorem right_iff (insn : StackInsn) {rs ws : List Reg} (hrs : Temps rs) (hkeep : Reg.flags ∉ rs ++ ws)
    (hws : ∀ r ∈ ws, r.isArch = true) (hl : Leaves (rs ++ ws) (insn.bytes pfx rip c) c c')
    (hother : ∀ r ∉ ws, insn.regs pfx c r = c.arf r) :
    insn.Right pfx rip c c' ↔ ∀ r ∈ ws, c'.arf r = insn.regs pfx c r :=
  (right_iff_bytes insn hrs hkeep hws hl hother).trans (and_iff_left rfl)

/-- A difference, of any size. -/
theorem wp_subtract (h : c.Ready) {rd ra : Reg} (hw : Writable rd) {size : ℕ} (hsize : size ≤ 3) (imm : W64) :
    Wp rest.withImpl [.mk3 .opSub rd ra Reg.imm Reg.zero size imm] (fun c' => Leaves [rd] c.space.bytes c c' ∧
      c'.arf rd = x86Merge size (c.arf (remap ra)) (c.arf (remap ra) - imm) ∧ c'.arflags rd &&& FLAG_INV = 0) c := by
  obtain ⟨op, hop⟩ : ∃ op : TransOp, op = .mk3 .opSub rd ra Reg.imm Reg.zero size imm := ⟨_, rfl⟩
  have hmem : isMem op = false := by
    have hclass : (isload .opSub || isstore .opSub) = false := by decide
    rw [hop]
    exact hclass
  have hzero : remap Reg.zero = Reg.zero := by decide
  obtain ⟨f, himpl, hf⟩ := implements_sub op (by rw [hop]; rfl) (by rw [hop]; exact hsize)
  obtain ⟨hdata, hinv, -⟩ := hf (c.inputs op)
  have hexec : rest.withImpl op (c.inputs op) = f (c.inputs op) := by
    unfold Synthop.withImpl
    rw [himpl]
  have hrd : op.rd = rd := by rw [hop]; rfl
  have hcarry : (c.inputs op).rcflags.getLsbD 0 = false := by
    have hflags : (c.inputs op).rcflags = 0 := by
      rw [hop]
      exact (congrArg c.arflags hzero).trans h.zeroFlags
    rw [hflags]
    rfl
  have hvalue : (f (c.inputs op)).rddata = x86Merge size (c.arf (remap ra)) (c.arf (remap ra) - imm) := by
    have hin : (c.inputs op).ra = c.arf (remap ra) ∧ (c.inputs op).rb = imm ∧ op.size = size := by
      rw [hop]
      exact ⟨rfl, rfl, rfl⟩
    rw [hdata, hcarry, hin.1, hin.2.1, hin.2.2]
    refine x86Merge_congr hsize _ ?_
    show (((c.arf (remap ra)).setWidth (opWidth size) - imm.setWidth (opWidth size) - 0).setWidth 64).setWidth _ = _
    rw [BitVec.setWidth_setWidth_of_le _ (opWidth_le hsize), BitVec.setWidth_eq, setWidth_sub (opWidth_le hsize)]
    exact sub_zero _
  rw [← hop]
  refine Triples.wp_mono (MulDiv.wp_silent hmem (by rw [hop]; rfl) (by rw [hop]; rfl) (by rw [hop]; rfl) (by rw [hop]; rfl) h
    (by rw [hrd]; exact hw) hexec hinv) ?_
  rintro c' ⟨hl, hv, hflags⟩
  rw [hrd] at hl hv hflags
  exact ⟨hl, hv.trans hvalue, by rw [hflags]; exact hinv⟩

theorem rsp_facts : Writable Reg.rsp ∧ remap Reg.rsp = Reg.rsp ∧ Reg.rsp.isArch = true :=
  ⟨⟨by decide, by decide, by decide⟩, by decide, by decide⟩

theorem rbp_facts : Writable Reg.rbp ∧ remap Reg.rbp = Reg.rbp ∧ Reg.rbp.isArch = true :=
  ⟨⟨by decide, by decide, by decide⟩, by decide, by decide⟩

/-- The size of a frame is that of the prefix. -/
theorem frame_narrow (bytes : W16) : ((enter bytes).sizeshift pfx = 1 ↔ pfx.data = true) ∧
    (leave.sizeshift pfx = 1 ↔ pfx.data = true) := by
  have hsize : (if pfx.data then 1 else 3) = 1 ↔ pfx.data = true := by
    cases pfx.data <;> simp
  exact ⟨hsize, hsize⟩

/-- The address in a register. -/
theorem address_of {r : Reg} (hr : remap r = r) : canonicalAddr (c.arf (remap r) + 0) = canonicalAddr (c.arf r) := by
  rw [hr]
  exact congrArg canonicalAddr (BitVec.add_zero _)

/-- The store and the move of a push. -/
theorem wp_move (h : c.Ready) (hmask : c.ctx.virtAddrMask = BitVec.allOnes 64) (insn : StackInsn)
    (hok : X86Sim.Accessible c true (canonicalAddr (insn.below pfx c)) (insn.sizeshift pfx)) {r : Reg} (hr : remap r = r)
    (h9 : r ≠ Reg.temp9) (himm : r ≠ Reg.imm) : Wp rest.withImpl [
      .mk3 .opSt Reg.mem Reg.rsp Reg.imm r (insn.sizeshift pfx) (-insn.slot pfx),
      .mk3 .opSub Reg.rsp Reg.rsp Reg.imm Reg.zero 3 (insn.slot pfx)] (fun c' =>
      Leaves [Reg.temp9, Reg.rsp] (storeBytewise (canonicalAddr (insn.below pfx c)) (c.arf r) c.space.bytes
        (2 ^ insn.sizeshift pfx)) c c' ∧ c'.arf Reg.rsp = insn.below pfx c ∧ c'.arflags Reg.rsp &&& FLAG_INV = 0) c := by
  obtain ⟨hw, hrsp, -⟩ := rsp_facts
  have haddr : canonicalAddr (c.arf (remap Reg.rsp) + -insn.slot pfx) = canonicalAddr (insn.below pfx c) := by
    rw [hrsp, ← BitVec.sub_eq_add_neg]
    rfl
  refine Triples.wp_cons (Triples.wp_mono (wp_storeAt rest h hmask h9 himm (insn.sizeshift_le pfx) haddr hok) ?_)
  intro c₁ h₁
  rw [hr] at h₁
  refine Triples.wp_mono (wp_subtract rest h₁.ready hw (Nat.le_refl 3) (insn.slot pfx)) ?_
  rintro c₂ ⟨h₂, hv, hflags⟩
  rw [h₁.bytes] at h₂
  refine ⟨h₁.trans h₂, ?_, hflags⟩
  rw [hv, hrsp, h₁.arf _ (by decide)]
  rfl

/-- `enter`. -/
theorem wp_enter (h : c.Ready) (bytes : W16) (hacc : (enter bytes).Accessible pfx rip c) :
    Wp rest.withImpl ((enter bytes).decode pfx rip) (fun c' =>
      (enter bytes).Right pfx rip c c' ↔ (enter bytes).Exact pfx rip c) c := by
  obtain ⟨hwrsp, hrsp, hrsparch⟩ := rsp_facts
  obtain ⟨hwrbp, hrbp, hrbparch⟩ := rbp_facts
  have hzero : remap Reg.zero = Reg.zero := by decide
  have hsize := (enter bytes).sizeshift_cases pfx
  have hle := (enter bytes).sizeshift_le pfx
  have hstore : X86Sim.Accessible c true (canonicalAddr ((enter bytes).below pfx c)) ((enter bytes).sizeshift pfx) :=
    hacc.store _ rfl
  show Wp rest.withImpl ([.mk3 .opSt Reg.mem Reg.rsp Reg.imm Reg.rbp ((enter bytes).sizeshift pfx) (-(enter bytes).slot pfx),
    .mk3 .opSub Reg.rsp Reg.rsp Reg.imm Reg.zero 3 ((enter bytes).slot pfx)] ++
    [.mk3 .opMov Reg.rbp Reg.zero Reg.rsp Reg.zero ((enter bytes).sizeshift pfx) 0,
      .mk3 .opSub Reg.rsp Reg.rsp Reg.imm Reg.zero ((enter bytes).sizeshift pfx) (bytes.setWidth 64)]) _ c
  refine Triples.wp_append (Triples.wp_mono (wp_move rest h hacc.ctx.mask (enter bytes) hstore hrbp (by decide) (by decide)) ?_)
  rintro c₁ ⟨h₁, hrsp₁, hclean₁⟩
  have hinv : c₁.arflags (remap Reg.rsp) &&& FLAG_INV = 0 := by
    rw [hrsp]
    exact hclean₁
  refine Triples.wp_cons (Triples.wp_mono (MulDiv.wp_mov rest h₁.ready hwrbp Reg.zero (by decide) _ hinv) ?_)
  rintro c₂ ⟨h₂, hrbp₂, -⟩
  refine Triples.wp_mono (wp_subtract rest h₂.ready hwrsp hle (bytes.setWidth 64)) ?_
  rintro c₃ ⟨h₃, hrsp₃, -⟩
  rw [h₁.bytes] at h₂
  rw [h₂.bytes] at h₃
  have hl : Leaves ([Reg.temp9] ++ [Reg.rsp, Reg.rbp]) ((enter bytes).bytes pfx rip c) c c₃ :=
    (h₁.trans (h₂.trans h₃)).mono (by decide)
  have hvalues : c₃.arf Reg.rsp = x86Merge ((enter bytes).sizeshift pfx) ((enter bytes).below pfx c)
      ((enter bytes).below pfx c - bytes.setWidth 64) ∧
      c₃.arf Reg.rbp = x86Merge ((enter bytes).sizeshift pfx) 0 ((enter bytes).below pfx c) := by
    constructor
    · rw [hrsp₃, hrsp, h₂.arf _ (by decide), hrsp₁]
    · rw [h₃.arf _ (by decide), hrbp₂, hzero, hrsp, h₁.ready.zero, hrsp₁]
  have hregs : (enter bytes).regs pfx c Reg.rsp = (enter bytes).below pfx c - bytes.setWidth 64 ∧
      (enter bytes).regs pfx c Reg.rbp =
        MulDiv.put ((enter bytes).sizeshift pfx) (c.arf Reg.rbp) ((enter bytes).below pfx c) := ⟨rfl, rfl⟩
  have hother : ∀ r ∉ [Reg.rsp, Reg.rbp], (enter bytes).regs pfx c r = c.arf r := by
    intro r hr
    simp only [List.mem_cons, List.not_mem_nil, or_false, not_or] at hr
    exact (if_neg hr.1).trans (if_neg hr.2)
  -- only the two stack registers can differ, and the store is that of `push`
  rw [right_iff (enter bytes) (by decide) (by decide) (by decide) hl hother]
  simp only [List.forall_mem_cons, List.not_mem_nil, false_implies, implies_true, and_true]
  rw [hvalues.1, hvalues.2, hregs.1, hregs.2, zero_merge_iff hsize]
  have hone := (@frame_narrow pfx bytes).1
  by_cases hdata : pfx.data = true
  · -- of 16 bits, the upper ones are lost
    have h16 := hone.2 hdata
    have hbelow : (enter bytes).below pfx c = c.arf Reg.rsp - 2 := by
      unfold below slot
      rw [h16]
      rfl
    rw [h16, merge_sub_iff, hbelow]
    show _ ↔ (pfx.data = true → _ ∧ _)
    constructor
    · rintro ⟨hborrow, hupper⟩ -
      exact ⟨hupper rfl, hborrow⟩
    · intro hexact
      exact ⟨(hexact hdata).2, fun _ => (hexact hdata).1⟩
  · have h64 : (enter bytes).sizeshift pfx = 3 := hsize.resolve_left fun h1 => hdata (hone.1 h1)
    rw [h64]
    refine iff_of_true ⟨rfl, fun h1 => absurd h1 (by decide)⟩ fun h => absurd h hdata

/-- A load that is not permitted stops, aligned or not. -/
theorem turn_load_refused (h : c.Ready) (hmask : c.ctx.virtAddrMask = BitVec.allOnes 64) {rd ra : Reg} (hrd : Writable rd)
    {size : ℕ} (hsize : size ≤ 3) {off : W64}
    (hno : ¬X86Sim.Accessible c false (canonicalAddr (c.arf (remap ra) + off)) size) (junk : ℕ → Sfr) :
    ∃ e, turn rest.withImpl junk (.mk3 .opLd rd ra Reg.imm Reg.zero size off) c = .error e := by
  obtain ⟨op, hop⟩ : ∃ op : TransOp, op = .mk3 .opLd rd ra Reg.imm Reg.zero size off := ⟨_, rfl⟩
  have hld : isload .opLd = true ∧ isstore .opLd = false ∧ Opcode.opLd ≠ .opMf := by decide
  have hkind : isload op.opcode = true ∧ isstore op.opcode = false ∧ op.opcode ≠ .opMf := by
    rw [hop]
    exact hld
  have hmem : isMem op = true := by
    unfold isMem
    rw [hkind.1]
    rfl
  have hlin : c.linear op = canonicalAddr (c.arf (remap ra) + off) := by
    rw [hop]
    exact linear_imm hmask .opLd rd ra Reg.zero size off
  have hint : op.internal = false := by rw [hop]; rfl
  have hopsize : op.size = size := by rw [hop]; rfl
  have hrefused : ¬c.Permitted op := by
    intro hok
    refine hno fun i hi => ?_
    have hbyte := hok i (by rw [hopsize]; exact hi)
    rw [hint, hkind.2.1, hlin] at hbyte
    exact hbyte
  rw [← hop]
  by_cases hlow : lowbits (c.linear op) op.size = 0
  · -- its first byte is the one that is refused
    refine turn_refused (by rw [hop]; rfl) hmem hkind.2.2 (by rw [hop]; rfl) hint hlow ?_ junk
    rw [← Bool.not_eq_true]
    intro hfirst
    rw [permitted_iff (by rw [hopsize]; exact hsize), hint] at hrefused
    exact hrefused ⟨hfirst, .inl (aligned_le (by rw [hopsize]; exact hsize) hlow)⟩
  · -- the halves of the split fault where the whole does
    have hsplit := run_split_load rest h (by rw [hop]; rfl) hkind.1 (by rw [hopsize]; exact hsize) (by rw [hop]; rfl)
      (by rw [hop]; exact hrd.zero) (by rw [hop]; exact hrd.flags) fun n => junk (n + 1)
    obtain ⟨-, d, -, -, hfault⟩ := hsplit
    obtain ⟨i, -, -, hstop⟩ := hfault hrefused
    unfold turn
    rw [issue_unaligned (by rw [hop]; rfl) hmem hkind.2.2 (by rw [hop]; rfl) hlow]
    simp only [splitUnaligned_unaligned, hstop]
    exact ⟨_, rfl⟩

/-- The bits above 16 are kept. -/
theorem merge_upper (old v : W64) : x86Merge 1 old v >>> 16 = old >>> 16 := by
  apply BitVec.eq_of_getLsbD_eq
  intro i hi
  have hge : ¬16 + i < opWidth 1 := Nat.not_lt.2 (Nat.le_add_right _ _)
  rw [BitVec.getLsbD_ushiftRight, BitVec.getLsbD_ushiftRight, x86Merge_bit (Nat.le_refl 1), if_neg hge]

/-- The first half of `leave`: the stack pointer is in the frame, if that has no upper bits or they are kept. -/
theorem wp_unframe (h : c.Ready) (hclean : MulDiv.Clean c) (hacc : leave.Accessible pfx rip c) :
    Wp rest.withImpl [.mk3 .opLd Reg.temp0 Reg.rbp Reg.imm Reg.zero (leave.sizeshift pfx) 0,
      .mk3 .opMov Reg.rsp Reg.zero Reg.rbp Reg.zero (leave.sizeshift pfx) 0] (fun c' =>
      Leaves [Reg.temp0, Reg.temp4, Reg.temp9, Reg.rsp] c.space.bytes c c' ∧
        c'.arf Reg.rsp = x86Merge (leave.sizeshift pfx) 0 (c.arf Reg.rbp)) c := by
  obtain ⟨hwrsp, hrsp, -⟩ := rsp_facts
  obtain ⟨hwrbp, hrbp, -⟩ := rbp_facts
  have hw : Writable Reg.temp0 := ⟨by decide, by decide, by decide⟩
  have hzero : remap Reg.zero = Reg.zero := by decide
  refine Triples.wp_cons (Triples.wp_mono (wp_loadAt rest h hacc.ctx.mask hw (leave.sizeshift_le pfx) (address_of hrbp)
    (hacc.load _ rfl)) ?_)
  rintro c₁ ⟨h₁, -⟩
  have hinv : c₁.arflags (remap Reg.rbp) &&& FLAG_INV = 0 := by
    rw [hrbp, h₁.arflags _ (by decide)]
    exact hclean Reg.rbp (by decide)
  refine Triples.wp_mono (MulDiv.wp_mov rest h₁.ready hwrsp Reg.zero (by decide) _ hinv) ?_
  rintro c₂ ⟨h₂, hv, -⟩
  rw [h₁.bytes] at h₂
  refine ⟨h₁.trans h₂, ?_⟩
  rw [hv, hzero, h₁.ready.zero, hrbp, h₁.arf _ (by decide)]

/-- `leave`. -/
theorem leave_iff (h : c.Ready) (hclean : MulDiv.Clean c) (hacc : leave.Accessible pfx rip c) :
    Wp rest.withImpl (leave.decode pfx rip) (leave.Right pfx rip c) c ↔ leave.Exact pfx rip c := by
  have hnonempty : Nonempty (ℕ → Sfr) := ⟨fun _ => Frame.Sfr.zero⟩
  obtain ⟨hwrsp, hrsp, -⟩ := rsp_facts
  obtain ⟨hwrbp, hrbp, -⟩ := rbp_facts
  have hsize := leave.sizeshift_cases pfx
  have hle := leave.sizeshift_le pfx
  have hfirst := wp_unframe rest h hclean hacc
  have hone := (@frame_narrow pfx 0).2
  have hdecode : leave.decode pfx rip = [.mk3 .opLd Reg.temp0 Reg.rbp Reg.imm Reg.zero (leave.sizeshift pfx) 0,
      .mk3 .opMov Reg.rsp Reg.zero Reg.rbp Reg.zero (leave.sizeshift pfx) 0] ++
    [.mk3 .opLd Reg.rbp Reg.rsp Reg.imm Reg.zero (leave.sizeshift pfx) 0,
      .mk3 .opAdd Reg.rsp Reg.rsp Reg.imm Reg.zero 3 (leave.slot pfx)] := rfl
  rw [hdecode]
  -- the second half, where the stack pointer is
  have hsecond : ∀ c₂, Leaves [Reg.temp0, Reg.temp4, Reg.temp9, Reg.rsp] c.space.bytes c c₂ →
      X86Sim.Accessible c₂ false (canonicalAddr (c₂.arf Reg.rsp)) (leave.sizeshift pfx) →
      Wp rest.withImpl [.mk3 .opLd Reg.rbp Reg.rsp Reg.imm Reg.zero (leave.sizeshift pfx) 0,
        .mk3 .opAdd Reg.rsp Reg.rsp Reg.imm Reg.zero 3 (leave.slot pfx)] (fun c' =>
        Leaves ([Reg.temp0, Reg.temp4, Reg.temp9] ++ [Reg.rsp, Reg.rbp]) c.space.bytes c c' ∧
          c'.arf Reg.rsp = c₂.arf Reg.rsp + leave.slot pfx ∧
          c'.arf Reg.rbp = leave.loaded pfx c (c₂.arf Reg.rsp)) c₂ := by
    intro c₂ h₂ hok
    have hmask : c₂.ctx.virtAddrMask = BitVec.allOnes 64 := by rw [h₂.ctx, hacc.ctx.mask]
    refine Triples.wp_cons (Triples.wp_mono (wp_loadAt rest h₂.ready hmask hwrbp hle (address_of hrsp) hok) ?_)
    rintro c₃ ⟨h₃, hv₃⟩
    refine Triples.wp_mono (wp_add rest h₃.ready hwrsp Reg.rsp Reg.imm (leave.slot pfx)) ?_
    rintro c₄ ⟨h₄, hv₄⟩
    rw [h₂.bytes] at h₃ hv₃
    rw [h₃.bytes] at h₄
    refine ⟨(h₂.trans (h₃.trans h₄)).mono (by decide), ?_, ?_⟩
    · rw [hv₄, hrsp, if_pos rfl, h₃.arf _ (by decide)]
    · rw [h₄.arf _ (by decide), hv₃]
      rfl
  by_cases hexact : leave.Exact pfx rip c
  · -- the stack pointer is the frame
    have hframe : x86Merge (leave.sizeshift pfx) 0 (c.arf Reg.rbp) = c.arf Reg.rbp := by
      rw [(zero_merge_iff hsize (c.arf Reg.rbp) (c.arf Reg.rbp)).2 fun h1 => hexact (hone.1 h1), MulDiv.put_eq hle]
      rcases hsize with h1 | h3
      · rw [h1]
        exact x86Merge_self (Nat.le_refl 1) _
      · rw [h3]
        rfl
    refine iff_of_true (Triples.wp_append (Triples.wp_mono hfirst ?_)) hexact
    rintro c₂ ⟨h₂, hv₂⟩
    rw [hframe] at hv₂
    refine Triples.wp_mono (hsecond c₂ h₂ ?_) ?_
    · intro i hi
      rw [hv₂, h₂.check]
      exact hacc.load _ rfl i hi
    rintro c' ⟨hl, hrsp', hrbp'⟩
    rw [hv₂] at hrsp' hrbp'
    have hother : ∀ r ∉ [Reg.rsp, Reg.rbp], leave.regs pfx c r = c.arf r := by
      intro r hr
      simp only [List.mem_cons, List.not_mem_nil, or_false, not_or] at hr
      exact (if_neg hr.1).trans (if_neg hr.2)
    have hregs : leave.regs pfx c Reg.rsp = c.arf Reg.rbp + leave.slot pfx ∧ leave.regs pfx c Reg.rbp =
        MulDiv.put (leave.sizeshift pfx) (c.arf Reg.rbp) (leave.loaded pfx c (c.arf Reg.rbp)) := ⟨rfl, rfl⟩
    refine (right_iff leave (by decide) (by decide) (by decide) hl hother).2 ?_
    simp only [List.forall_mem_cons, List.not_mem_nil, false_implies, implies_true, and_true]
    rw [hrsp', hrbp', hregs.1, hregs.2, ← (zero_merge_iff hsize _ _).2 fun h1 => hexact (hone.1 h1)]
    exact ⟨rfl, (merge_zero hsize _).symm⟩
  · -- it is not, and what is loaded there has no upper bits
    obtain ⟨hdata, hupper⟩ : pfx.data = true ∧ c.arf Reg.rbp >>> 16 ≠ 0 := Classical.not_imp.1 hexact
    have h1 := hone.2 hdata
    refine iff_of_false (Triples.not_wp_append hfirst ?_) hexact
    rintro c₂ ⟨h₂, -⟩
    by_cases hok : X86Sim.Accessible c₂ false (canonicalAddr (c₂.arf Reg.rsp)) (leave.sizeshift pfx)
    · intro hright
      refine (Triples.wp_iff (hsecond c₂ h₂ hok) ?_).1 hright
      rintro c' ⟨-, -, hrbp'⟩
      refine iff_false_intro fun hright => hupper ?_
      have hput : c'.arf Reg.rbp = MulDiv.put (leave.sizeshift pfx) (c.arf Reg.rbp) (leave.loaded pfx c (c.arf Reg.rbp)) :=
        hright.regs Reg.rbp (by decide) (by decide)
      rw [hrbp', MulDiv.put_eq hle] at hput
      have hsmall := merge_zero hsize (loadBytes c.space.bytes (canonicalAddr (c₂.arf Reg.rsp)) (leave.sizeshift pfx))
      have hshift := congrArg (fun x : W64 => x >>> 16) hput
      have hloaded : leave.loaded pfx c (c₂.arf Reg.rsp) >>> 16 = 0 := by
        unfold loaded
        rw [← hsmall, h1, merge_upper]
        decide
      rw [h1] at hshift
      exact (merge_upper _ _).symm.trans (hshift.symm.trans hloaded)
    · refine Triples.not_wp_cons fun junk => ?_
      refine turn_load_refused rest h₂.ready (by rw [h₂.ctx, hacc.ctx.mask]) hwrbp hle ?_ junk
      rw [address_of hrsp]
      exact hok

theorem push_other (ra : Operand) (wide : 1 ≤ ra.sizeshift) (r : Reg) (hr : r ∉ [Reg.rsp]) :
    (push ra wide).regs pfx c r = c.arf r :=
  if_neg fun heq => hr (List.mem_singleton.2 heq)

theorem push_moved (ra : Operand) (wide : 1 ≤ ra.sizeshift) :
    (push ra wide).regs pfx c Reg.rsp = (push ra wide).below pfx c := by
  show (if Reg.rsp = Reg.rsp then (push ra wide).below pfx c else c.arf Reg.rsp) = _
  exact if_pos rfl

/-- `push` of a register. -/
theorem wp_pushRegister (h : c.Ready) (r : Apr) (wide : 1 ≤ (Operand.reg r).sizeshift)
    (hacc : (push (.reg r) wide).Accessible pfx rip c) :
    Wp rest.withImpl ((push (.reg r) wide).decode pfx rip) ((push (.reg r) wide).Right pfx rip c) c := by
  have hr : remap r.arch = r.arch := remap_of_lt (lt_trans r.arch_lt (by decide))
  refine Triples.wp_mono (wp_move rest h hacc.ctx.mask (push (.reg r) wide) (hacc.store _ rfl) hr (r.arch_ne (by decide))
    (r.arch_ne (by decide))) ?_
  rintro c' ⟨hl, hrsp, -⟩
  have hl : Leaves ([Reg.temp9] ++ [Reg.rsp]) ((push (.reg r) wide).bytes pfx rip c) c c' := hl
  refine (right_iff _ (by decide) (by decide) (by decide) hl (push_other _ wide)).2 fun s hs => ?_
  rw [List.mem_singleton.1 hs, hrsp, push_moved]

/-- The word at the one address is stored as that at the other just if they are one word. -/
theorem stored_loaded_iff (insn : StackInsn) (place : ℕ) (a b : W64) :
    storeBytewise place (insn.loaded pfx c a) c.space.bytes (2 ^ insn.sizeshift pfx) =
      storeBytewise place (insn.loaded pfx c b) c.space.bytes (2 ^ insn.sizeshift pfx) ↔
    insn.loaded pfx c a = insn.loaded pfx c b := by
  constructor
  · intro h
    exact congrArg (BitVec.setWidth 64) (DoubleShift.storeBytewise_word_inj (insn.sizeshift_le pfx) h)
  · intro h
    rw [h]

/-- `push` of memory. -/
theorem pushMemory_iff (h : c.Ready) (o : X86Operand) (n : Fin 4) (wide : 1 ≤ (Operand.mem o n).sizeshift)
    (hacc : (push (.mem o n) wide).Accessible pfx rip c) :
    Wp rest.withImpl ((push (.mem o n) wide).decode pfx rip) ((push (.mem o n) wide).Right pfx rip c) c ↔
      (push (.mem o n) wide).Exact pfx rip c := by
  have hnonempty : Nonempty (ℕ → Sfr) := ⟨fun _ => Frame.Sfr.zero⟩
  have hother := @push_other pfx c (.mem o n) wide
  have hmoved := @push_moved pfx c (.mem o n) wide
  have hstore := hacc.store _ rfl
  obtain ⟨insn, hinsn⟩ : ∃ insn, insn = push (.mem o n) wide := ⟨_, rfl⟩
  have hw : Writable Reg.temp7 := ⟨by decide, by decide, by decide⟩
  have h7 : remap Reg.temp7 = Reg.temp7 := by decide
  rw [← hinsn] at hacc hstore hother hmoved ⊢
  have hdecode : insn.decode pfx rip = operandLoad pfx rip Reg.temp7 (o.memRef (insn.sizeshift pfx)) .opLd ++
      [.mk3 .opSt Reg.mem Reg.rsp Reg.imm Reg.temp7 (insn.sizeshift pfx) (-insn.slot pfx),
        .mk3 .opSub Reg.rsp Reg.rsp Reg.imm Reg.zero 3 (insn.slot pfx)] := by
    rw [hinsn]
    rfl
  have hbytes : insn.bytes pfx rip c = storeBytewise (canonicalAddr (insn.below pfx c))
      (insn.loaded pfx c (o.address pfx c rip)) c.space.bytes (2 ^ insn.sizeshift pfx) := by
    rw [hinsn]
    rfl
  have hexact : insn.Exact pfx rip c ↔ X86Sim.Accessible c false (Operand.address pfx c rip o) (insn.sizeshift pfx) ∧
      insn.loaded pfx c (accessValue pfx c rip o) = insn.loaded pfx c (o.address pfx c rip) := by
    rw [hinsn]
    rfl
  rw [hdecode, hexact]
  by_cases hload : X86Sim.Accessible c false (Operand.address pfx c rip o) (insn.sizeshift pfx)
  · rw [and_iff_right hload, ← stored_loaded_iff insn (canonicalAddr (insn.below pfx c)), ← hbytes]
    refine Triples.wp_iff (Triples.wp_append (Triples.wp_mono (wp_operandLoad pfx rip Reg.temp7 o _ rest h hacc.ctx
      (show isload .opLd = true by decide) (insn.sizeshift_le pfx) hw hload) ?_)) fun _ hiff => hiff
    rintro c₁ ⟨h₁, hv₁, -⟩
    -- the load leaves the stack pointer
    have hbelow : insn.below pfx c₁ = insn.below pfx c := by
      unfold below
      rw [h₁.arf _ (by decide)]
    refine Triples.wp_mono (wp_move rest h₁.ready (by rw [h₁.ctx, hacc.ctx.mask]) insn ?_ h7 (by decide) (by decide)) ?_
    · intro i hi
      rw [hbelow, h₁.check]
      exact hstore i hi
    rintro c' ⟨hl, hrsp, -⟩
    rw [hbelow, hv₁, h₁.bytes] at hl
    have hleft : Leaves ([Reg.temp6, Reg.temp8, Reg.temp7, Reg.temp4, Reg.temp9] ++ [Reg.rsp])
        (storeBytewise (canonicalAddr (insn.below pfx c)) (insn.loaded pfx c (accessValue pfx c rip o)) c.space.bytes
          (2 ^ insn.sizeshift pfx)) c c' :=
      (h₁.trans hl).mono (by decide)
    rw [right_iff_bytes insn (by decide) (by decide) (by decide) hleft hother]
    refine and_iff_right fun s hs => ?_
    rw [List.mem_singleton.1 hs, hrsp, hbelow, hmoved]
  · refine iff_of_false ?_ fun h => hload h.1
    exact not_wp_loadOperand pfx rip Reg.temp7 o _ rest h hacc.ctx true (show isload .opLd = true by decide)
      (insn.sizeshift_le pfx) hw _ hload

theorem raised_rsp (insn : StackInsn) : (insn.raised pfx c).arf Reg.rsp = c.arf Reg.rsp + insn.slot pfx := by
  show Function.update c.arf Reg.rsp (c.arf Reg.rsp + insn.slot pfx) Reg.rsp = _
  exact Function.update_self _ _ _

theorem raised_other (insn : StackInsn) {r : Reg} (hr : r ≠ Reg.rsp) : (insn.raised pfx c).arf r = c.arf r := by
  show Function.update c.arf Reg.rsp (c.arf Reg.rsp + insn.slot pfx) r = _
  exact Function.update_of_ne hr _ _

/-- `pop` to a register. -/
theorem wp_popRegister (h : c.Ready) (p : Apr) (wide : 1 ≤ (Operand.reg p).sizeshift)
    (index : ∀ o size, Operand.reg p = .mem o size → o.index ≠ some 4)
    (hacc : (pop (.reg p) wide index).Accessible pfx rip c) :
    Wp rest.withImpl ((pop (.reg p) wide index).decode pfx rip) (fun c' =>
      (pop (.reg p) wide index).Right pfx rip c c' ↔ (pop (.reg p) wide index).Exact pfx rip c) c := by
  obtain ⟨insn, hinsn⟩ : ∃ insn, insn = pop (.reg p) wide index := ⟨_, rfl⟩
  obtain ⟨hwrsp, hrsp, -⟩ := rsp_facts
  have hsize := insn.sizeshift_cases pfx
  have hle := insn.sizeshift_le pfx
  have hparch : p.arch.isArch = true := decide_eq_true (lt_trans p.arch_lt (by decide))
  have hload : X86Sim.Accessible c false (canonicalAddr (c.arf Reg.rsp)) (insn.sizeshift pfx) := by
    rw [hinsn]
    exact hacc.load _ rfl
  have hdecode : (pop (.reg p) wide index).decode pfx rip =
      .mk3 .opLd p.arch Reg.rsp Reg.imm Reg.zero (insn.sizeshift pfx) 0 ::
        if p.arch ≠ Reg.rsp then [.mk3 .opAdd Reg.rsp Reg.rsp Reg.imm Reg.zero 3 (insn.slot pfx)] else [] := by
    rw [hinsn]
    rfl
  have hexact : (pop (.reg p) wide index).Exact pfx rip c ↔
      (insn.sizeshift pfx = 1 → (insn.raised pfx c).arf p.arch >>> 16 = 0) := by
    have hone : insn.sizeshift pfx = 1 ↔ p.sizeshift = 1 := by
      rw [hinsn]
      show (if p.sizeshift = 2 then 3 else p.sizeshift) = 1 ↔ _
      split <;> omega
    have hvalue : insn.sizeshift pfx = 1 →
        (insn.raised pfx c).arf p.arch = if p.arch = Reg.rsp then c.arf Reg.rsp + 2 else c.arf p.arch := by
      intro h1
      split
      · rename_i heq
        rw [heq, raised_rsp]
        unfold slot
        rw [h1]
        rfl
      · rename_i hne
        exact raised_other insn hne
    show (p.sizeshift = 1 → _) ↔ _
    rw [← hone]
    exact forall_congr' fun h1 => by rw [hvalue h1]
  have hregs : ∀ r, insn.regs pfx c r = if r = p.arch then
      MulDiv.put (insn.sizeshift pfx) ((insn.raised pfx c).arf r) (insn.loaded pfx c (c.arf Reg.rsp))
      else (insn.raised pfx c).arf r := by
    intro r
    rw [hinsn]
    rfl
  have hbytes : insn.bytes pfx rip c = c.space.bytes := by
    rw [hinsn]
    rfl
  -- the register gets the word alone, which is the merge into it if it has no upper bits
  have hput : insn.loaded pfx c (c.arf Reg.rsp) = insn.regs pfx c p.arch ↔
      (insn.sizeshift pfx = 1 → (insn.raised pfx c).arf p.arch >>> 16 = 0) := by
    rw [hregs, if_pos rfl, ← zero_merge_iff hsize _ (insn.loaded pfx c (c.arf Reg.rsp))]
    have hsmall := merge_zero hsize (loadBytes c.space.bytes (canonicalAddr (c.arf Reg.rsp)) (insn.sizeshift pfx))
    unfold loaded
    rw [hsmall]
  rw [hexact, hdecode, ← hput, ← hinsn]
  refine Triples.wp_cons (Triples.wp_mono (wp_loadAt rest h hacc.ctx.mask p.writable hle (address_of hrsp) hload) ?_)
  rintro c₁ ⟨h₁, hv₁⟩
  have hv₁ : c₁.arf p.arch = insn.loaded pfx c (c.arf Reg.rsp) := hv₁
  by_cases hp : p.arch = Reg.rsp
  · -- a pop of the stack pointer moves it no further
    rw [if_neg (not_not.2 hp)]
    refine Triples.wp_nil ?_
    have hl : Leaves ([Reg.temp4, Reg.temp9] ++ [p.arch]) (insn.bytes pfx rip c) c c₁ := by
      rw [hbytes]
      exact h₁.mono (by simp)
    have hother : ∀ r ∉ [p.arch], insn.regs pfx c r = c.arf r := by
      intro r hr
      rw [List.mem_singleton] at hr
      rw [hregs, if_neg hr]
      exact raised_other insn (hp ▸ hr)
    rw [right_iff insn (by decide) (by rw [hp]; decide) (by rw [hp]; decide) hl hother]
    simp only [List.forall_mem_cons, List.not_mem_nil, false_implies, implies_true, and_true, hv₁]
  · rw [if_pos hp]
    refine Triples.wp_mono (wp_add rest h₁.ready hwrsp Reg.rsp Reg.imm (insn.slot pfx)) ?_
    rintro c₂ ⟨h₂, hv₂⟩
    rw [h₁.bytes] at h₂
    have hl : Leaves ([Reg.temp4, Reg.temp9] ++ [p.arch, Reg.rsp]) (insn.bytes pfx rip c) c c₂ := by
      rw [hbytes]
      exact (h₁.trans h₂).mono (by simp)
    have hother : ∀ r ∉ [p.arch, Reg.rsp], insn.regs pfx c r = c.arf r := by
      intro r hr
      simp only [List.mem_cons, List.not_mem_nil, or_false, not_or] at hr
      rw [hregs, if_neg hr.1]
      exact raised_other insn hr.2
    have hflags : Reg.flags ∉ [Reg.temp4, Reg.temp9] ++ [p.arch, Reg.rsp] := by
      simp only [List.mem_append, List.mem_cons, List.not_mem_nil, or_false, not_or]
      exact ⟨⟨by decide, by decide⟩, (p.arch_ne (by decide)).symm, by decide⟩
    have harch : ∀ r ∈ [p.arch, Reg.rsp], r.isArch = true := by
      intro r hr
      rcases List.mem_cons.1 hr with rfl | hr
      · exact hparch
      · rw [List.mem_singleton.1 hr]
        decide
    have hrsp₂ : c₂.arf Reg.rsp = insn.regs pfx c Reg.rsp := by
      rw [hregs, if_neg (Ne.symm hp), raised_rsp, hv₂, hrsp, if_pos rfl, h₁.arf Reg.rsp]
      simp only [List.mem_cons, List.not_mem_nil, or_false, not_or]
      exact ⟨Ne.symm hp, by decide, by decide⟩
    have hp₂ : c₂.arf p.arch = insn.loaded pfx c (c.arf Reg.rsp) := by
      rw [h₂.arf p.arch (by rw [List.mem_singleton]; exact hp), hv₁]
    rw [right_iff insn (by decide) hflags harch hl hother]
    simp only [List.forall_mem_cons, List.not_mem_nil, false_implies, implies_true, and_true, hp₂, hrsp₂]

/-- The corrected operand accesses what the operand will, once the stack pointer has moved. -/
theorem accessValue_popped (insn : StackInsn) {o : X86Operand} (hindex : o.index ≠ some 4) :
    accessValue pfx c rip (popped (insn.slot pfx) o) = accessValue pfx (insn.raised pfx c) rip o := by
  have hbias : biasValue pfx (insn.raised pfx c) = biasValue pfx c := by
    have hctx : (insn.raised pfx c).arf Reg.ctx = c.arf Reg.ctx := raised_other insn (by decide)
    have hsame : (insn.raised pfx c).ctx = c.ctx := rfl
    unfold biasValue segmentBase
    rw [hctx, hsame]
  have hreg : ∀ r : Fin 16, r ≠ 4 →
      (insn.raised pfx c).arf (r.castLE (by decide)) = c.arf (r.castLE (by decide)) := by
    intro r hr
    refine raised_other insn fun heq => hr (Fin.ext ?_)
    exact congrArg (fun x : Reg => x.val) heq
  have hidx : o.indexValue (insn.raised pfx c).arf = o.indexValue c.arf := by
    unfold X86Operand.indexValue
    cases hi : o.index with
    | none => rfl
    | some r => exact hreg r fun heq => hindex (by rw [hi, heq])
  unfold accessValue X86Operand.sum
  rw [hbias, hidx]
  cases hb : o.base with
  | none =>
    have hne : ¬o.base.basereg = Reg.rsp := by
      rw [hb]
      decide
    unfold popped X86Operand.baseValue
    rw [if_neg hne, hb]
  | rip =>
    have hne : ¬o.base.basereg = Reg.rsp := by
      rw [hb]
      decide
    unfold popped
    rw [if_neg hne, hb, if_pos rfl, if_pos rfl]
  | reg r =>
    have hnorip : ¬X86Base.reg r = .rip := nofun
    by_cases hr : r = 4
    · -- the base is the stack pointer, and the displacement makes up for it
      subst hr
      have hrsp : o.base.basereg = Reg.rsp := by
        rw [hb]
        decide
      have hvalue : (insn.raised pfx c).arf ((4 : Fin 16).castLE (by decide)) = c.arf Reg.rsp + insn.slot pfx :=
        raised_rsp insn
      unfold popped X86Operand.baseValue X86Operand.indexValue
      rw [if_pos hrsp]
      simp only [hb, hvalue, if_neg hnorip]
      have hbase : c.arf ((4 : Fin 16).castLE (by decide)) = c.arf Reg.rsp := rfl
      rw [hbase]
      ring
    · have hne : ¬o.base.basereg = Reg.rsp := by
        rw [hb]
        intro heq
        exact hr (Fin.ext (congrArg (fun x : Reg => x.val) heq))
      unfold popped X86Operand.baseValue
      rw [if_neg hne]
      simp only [hb, hreg r hr, if_neg hnorip]

/-- `pop` to memory. -/
theorem popMemory_iff (h : c.Ready) (o : X86Operand) (n : Fin 4) (wide : 1 ≤ (Operand.mem o n).sizeshift)
    (index : ∀ o' size, Operand.mem o n = .mem o' size → o'.index ≠ some 4)
    (hacc : (pop (.mem o n) wide index).Accessible pfx rip c) :
    Wp rest.withImpl ((pop (.mem o n) wide index).decode pfx rip) ((pop (.mem o n) wide index).Right pfx rip c) c ↔
      (pop (.mem o n) wide index).Exact pfx rip c := by
  have hnonempty : Nonempty (ℕ → Sfr) := ⟨fun _ => Frame.Sfr.zero⟩
  obtain ⟨insn, hinsn⟩ : ∃ insn, insn = pop (.mem o n) wide index := ⟨_, rfl⟩
  obtain ⟨hwrsp, hrsp, -⟩ := rsp_facts
  have hw : Writable Reg.temp7 := ⟨by decide, by decide, by decide⟩
  have h7 : remap Reg.temp7 = Reg.temp7 := by decide
  have hle := insn.sizeshift_le pfx
  have hload : X86Sim.Accessible c false (canonicalAddr (c.arf Reg.rsp)) (insn.sizeshift pfx) := by
    rw [hinsn]
    exact hacc.load _ rfl
  have hdecode : insn.decode pfx rip = .mk3 .opLd Reg.temp7 Reg.rsp Reg.imm Reg.zero (insn.sizeshift pfx) 0 ::
      (resultStore pfx rip Reg.temp7 ((popped (insn.slot pfx) o).memRef (insn.sizeshift pfx)) ++
        [.mk3 .opAdd Reg.rsp Reg.rsp Reg.imm Reg.zero 3 (insn.slot pfx)]) := by
    rw [hinsn]
    rfl
  have hexact : insn.Exact pfx rip c ↔
      X86Sim.Accessible c true (Operand.address pfx (insn.raised pfx c) rip o) (insn.sizeshift pfx) ∧
      storeBytewise (Operand.address pfx (insn.raised pfx c) rip o) (insn.loaded pfx c (c.arf Reg.rsp)) c.space.bytes
        (2 ^ insn.sizeshift pfx) = insn.bytes pfx rip c := by
    rw [hinsn]
    rfl
  have hregs : ∀ r, insn.regs pfx c r = (insn.raised pfx c).arf r := by
    intro r
    rw [hinsn]
    rfl
  rw [← hinsn, hdecode, hexact]
  have hfirst := wp_loadAt rest h hacc.ctx.mask hw hle (address_of hrsp) hload
  have htemps : Temps [Reg.temp7, Reg.temp4, Reg.temp9] := by decide
  -- the store is at the address the operand will have
  have hplace : ∀ c₁, Leaves [Reg.temp7, Reg.temp4, Reg.temp9] c.space.bytes c c₁ →
      canonicalAddr (accessValue pfx c₁ rip (popped (insn.slot pfx) o)) =
        Operand.address pfx (insn.raised pfx c) rip o := by
    intro c₁ h₁
    rw [accessValue_congr h₁ htemps, accessValue_popped insn (index o n rfl)]
    rfl
  by_cases hstore : X86Sim.Accessible c true (Operand.address pfx (insn.raised pfx c) rip o) (insn.sizeshift pfx)
  · rw [and_iff_right hstore]
    refine Triples.wp_iff (Triples.wp_cons (Triples.wp_mono hfirst ?_)) fun _ hiff => hiff
    rintro c₁ ⟨h₁, hv₁⟩
    have hv₁ : c₁.arf Reg.temp7 = insn.loaded pfx c (c.arf Reg.rsp) := hv₁
    have hstore₁ : X86Sim.Accessible c₁ true (canonicalAddr (accessValue pfx c₁ rip (popped (insn.slot pfx) o)))
        (insn.sizeshift pfx) := by
      intro i hi
      rw [hplace c₁ h₁, h₁.check]
      exact hstore i hi
    refine Triples.wp_append (Triples.wp_mono (wp_resultStore pfx rip Reg.temp7 (popped (insn.slot pfx) o)
      (insn.sizeshift pfx) rest h₁.ready (hacc.ctx.leaves h₁ htemps) hle (by rw [h7]; decide) (by decide) (by decide)
      hstore₁) ?_)
    intro c₂ h₂
    rw [hplace c₁ h₁, h7, hv₁, h₁.bytes] at h₂
    refine Triples.wp_mono (wp_add rest h₂.ready hwrsp Reg.rsp Reg.imm (insn.slot pfx)) ?_
    rintro c₃ ⟨h₃, hv₃⟩
    rw [h₂.bytes] at h₃
    have hl := (h₁.trans (h₂.trans h₃)).mono
      (show _ ⊆ [Reg.temp7, Reg.temp4, Reg.temp9, Reg.temp6, Reg.temp8] ++ [Reg.rsp] by decide)
    have hother : ∀ r ∉ [Reg.rsp], insn.regs pfx c r = c.arf r := by
      intro r hr
      rw [hregs]
      exact raised_other insn fun heq => hr (List.mem_singleton.2 heq)
    rw [right_iff_bytes insn (by decide) (by decide) (by decide) hl hother]
    refine and_iff_right fun r hr => ?_
    rw [List.mem_singleton.1 hr, hregs, raised_rsp, hv₃, hrsp, if_pos rfl, h₂.arf _ (by decide), h₁.arf _ (by decide)]
  · refine iff_of_false ?_ fun h => hstore h.1
    rw [← List.singleton_append]
    refine Triples.not_wp_append hfirst ?_
    rintro c₁ ⟨h₁, -⟩
    refine not_wp_resultStore pfx rip Reg.temp7 (popped (insn.slot pfx) o) (insn.sizeshift pfx) rest h₁.ready
      (hacc.ctx.leaves h₁ htemps) hle (by decide) _ fun hok => hstore fun i hi => ?_
    have hbyte := hok i hi
    rwa [hplace c₁ h₁, h₁.check] at hbyte

/-- **When an instruction on the stack does what x86 says.** -/
theorem decode_iff (insn : StackInsn) (h : c.Ready) (hclean : MulDiv.Clean c) (hacc : insn.Accessible pfx rip c) :
    Wp rest.withImpl (insn.decode pfx rip) (insn.Right pfx rip c) c ↔ insn.Exact pfx rip c := by
  have hnonempty : Nonempty (ℕ → Sfr) := ⟨fun _ => Frame.Sfr.zero⟩
  cases insn with
  | enter bytes => exact Triples.wp_iff (wp_enter rest h bytes hacc) fun _ hiff => hiff
  | leave => exact leave_iff rest h hclean hacc
  | push ra wide =>
    cases ra with
    | reg r => exact iff_of_true (wp_pushRegister rest h r wide hacc) trivial
    | mem o n => exact pushMemory_iff rest h o n wide hacc
  | pop rd wide index =>
    cases rd with
    | reg p => exact Triples.wp_iff (wp_popRegister rest h p wide index hacc) fun _ hiff => hiff
    | mem o n => exact popMemory_iff rest h o n wide index hacc

/-- No flags of the immediate operand say that there is an exception in it, when the core's registers are cleared. -/
theorem imm_externalToCoreState (c : SeqCore) : c.externalToCoreState.arflags Reg.imm &&& FLAG_INV = 0 := by
  have hne : Reg.imm ≠ Reg.flags := by decide
  unfold SeqCore.externalToCoreState
  simp only [hne, if_false]
  decide

/-- **When instructions on words and on the stack do what x86 says.** -/
theorem word_stack_right_iff (rest : Synthop) (pfx : Prefixes) (rip : W64) (c : SeqCore) (h : c.Ready)
    (hclean : MulDiv.Clean c) (himm : c.arflags Reg.imm &&& FLAG_INV = 0) :
    (∀ insn : WordInsn, insn.Accessible pfx rip c →
      (Wp rest.withWords.withImpl (insn.decode pfx rip) (insn.Right pfx rip c) c ↔ insn.Exact pfx rip c)) ∧
    ∀ insn : StackInsn, insn.Accessible pfx rip c →
      (Wp rest.withWords.withImpl (insn.decode pfx rip) (insn.Right pfx rip c) c ↔ insn.Exact pfx rip c) :=
  ⟨fun insn hacc => insn.decode_iff rest h himm hacc, fun insn hacc => insn.decode_iff rest.withWords h hclean hacc⟩

/-- A core with the stack in its memory, and bits above the low 16 in two registers. -/
def frameCore : SeqCore := AluInsn.core fun r =>
  if r = Reg.rsp then 0x2008 else if r = Reg.rbp then 0x12345 else if r = Reg.rcx then 0x54321 else 0

theorem ready_frameCore : frameCore.Ready ∧ MulDiv.Clean frameCore ∧ frameCore.arflags Reg.imm &&& FLAG_INV = 0 :=
  ⟨⟨by decide, by decide, by decide, by decide⟩, by decide, by decide⟩

theorem hostCtx_frameCore : HostCtx frameCore := ⟨by decide, by decide, by decide⟩

/-- `cdqe`, and `enter 16, 0`. -/
theorem word_stack_right_iff_enter :
    Wp (Synthop.withWords fun _ _ => ⟨0, 0⟩).withImpl ((WordInsn.cbw true).decode .plain 0)
      ((WordInsn.cbw true).Right .plain 0 frameCore) frameCore ∧
    Wp (Synthop.withWords fun _ _ => ⟨0, 0⟩).withImpl ((enter 16).decode .plain 0) ((enter 16).Right .plain 0 frameCore)
      frameCore := by
  obtain ⟨hready, hclean, himm⟩ := ready_frameCore
  have hboth := word_stack_right_iff (fun _ _ => ⟨0, 0⟩) .plain 0 frameCore hready hclean himm
  have hacc : (enter 16).Accessible .plain 0 frameCore := by
    refine ⟨hostCtx_frameCore, fun a ha => ?_, nofun⟩
    obtain rfl := Option.some.inj ha
    unfold X86Sim.Accessible
    decide
  exact ⟨(hboth.1 (.cbw true) trivial).2 trivial, (hboth.2 (enter 16) hacc).2 nofun⟩

/-- `pop cx`. -/
def popCx : StackInsn := pop (.reg (.w 1)) Apr.one_le_word nofun

/-- It clears the upper bits of `rcx`. -/
theorem not_word_stack_right : ¬ ∀ (rest : Synthop) (pfx : Prefixes) (rip : W64) (c : SeqCore), c.Ready → MulDiv.Clean c →
    c.arflags Reg.imm &&& FLAG_INV = 0 →
    (∀ insn : WordInsn, insn.Accessible pfx rip c →
      Wp rest.withWords.withImpl (insn.decode pfx rip) (insn.Right pfx rip c) c) ∧
    ∀ insn : StackInsn, insn.Accessible pfx rip c →
      Wp rest.withWords.withImpl (insn.decode pfx rip) (insn.Right pfx rip c) c := by
  intro h
  obtain ⟨hready, hclean, himm⟩ := ready_frameCore
  have hacc : popCx.Accessible .plain 0 frameCore := by
    refine ⟨hostCtx_frameCore, nofun, fun a ha => ?_⟩
    obtain rfl := Option.some.inj ha
    unfold X86Sim.Accessible
    decide
  obtain ⟨c', hrun, hright⟩ := (h (fun _ _ => ⟨0, 0⟩) .plain 0 frameCore hready hclean himm).2 popCx hacc
    fun _ _ => Frame.Sfr.zero
  have hvalue : (perform (Synthop.withWords fun _ _ => ⟨0, 0⟩).withImpl (popCx.decode .plain 0) (fun _ _ => Frame.Sfr.zero)
      frameCore).toOption.map (fun c => (c.arf Reg.rcx : W64) >>> 16) = some (0 : W64) := by
    rfl
  have hdone : perform (Synthop.withWords fun _ _ => ⟨0, 0⟩).withImpl (popCx.decode .plain 0) (fun _ _ => Frame.Sfr.zero)
      frameCore = .ok c' := hrun
  rw [hdone] at hvalue
  have hcleared : c'.arf Reg.rcx >>> 16 = 0 := Option.some.inj hvalue
  rw [hright.regs Reg.rcx (by decide) (by decide)] at hcleared
  exact absurd hcleared (by decide)

end StackInsn

end X86Sim
