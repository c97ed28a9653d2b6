import X86Sim.Decode.AluMem

/-!
# Signed multiplication (`uopimpl.cpp`, `decode-fast.cpp`)

`imul` of two operands and `imul` by an immediate. The uop merges a narrow product into its
first operand, which of the second form is the source and not the destination.
-/

namespace X86Sim

open X86Sim.Seq X86Sim.Seq.SeqCore

/-- `x86_mul` of `MulKind::Low`; the product is of twice the width, which holds it. -/
def mulLow {w : ℕ} (a b : BitVec w) : AluOut w :=
  let sprod := a.toInt * b.toInt
  let low := BitVec.ofInt w sprod
  ⟨low, sprod ≠ low.toInt, sprod ≠ low.toInt⟩

/-- `x86_op_mull`. -/
def mull (op : TransOp) (i : UopInputs) : UopResult :=
  aluResult op.size i.ra (op.setflags.gen .all) (mulLow (w := opWidth op.size) (i.ra.setWidth _) (i.rb.setWidth _))

/-- The implementations, with that of `mull`. -/
def Synthop.withMull (rest : Synthop) : Synthop := fun op i => if op.opcode = .opMull then mull op i else rest op i

/-- `imul` into a register of 16, 32 or 64 bits, of a source as wide and perhaps an immediate. -/
structure ImulInsn where
  rd : Apr
  ra : Operand
  imm : Option W64
  wide : 1 ≤ rd.sizeshift
  size : ra.sizeshift = rd.sizeshift

namespace ImulInsn

variable (insn : ImulInsn) (pfx : Prefixes) (rip : W64) (c : SeqCore)

/-- `SETFLAG_CF | SETFLAG_OF`. -/
def setflags : SetFlags := ⟨false, true, true⟩

/-- `rcreg` of the form without an immediate. The register number is read of `ra` whatever it holds: a size
of 2 bytes is that of `rcx`. -/
def rcreg : Reg :=
  if insn.rd.sizeshift < 2 then
    match insn.ra with
    | .reg r => r.arch
    | .mem _ _ => Reg.rcx
  else Reg.zero

/-- The uops of `imul` (0x1af, 0x69, 0x6b). -/
def decode : List TransOp :=
  let rcreg := if insn.imm.isSome then Reg.imm else insn.rcreg
  match insn.ra with
  | .reg r => aluRegOrMem .opMull insn.rd (.reg r) setflags rcreg false false insn.imm
  | .mem o size => aluRegMem pfx rip .opMull insn.rd (o.memRef size) setflags rcreg false insn.imm

/-! ### What x86 says -/

/-- The product of a source `v` with the immediate or the destination. -/
def product (v : BitVec (opWidth insn.ra.sizeshift)) : ℤ :=
  v.toInt *
    match insn.imm with
    | some v => (v.setWidth (opWidth insn.rd.sizeshift)).toInt
    | none => (insn.rd.read (c.arf insn.rd.arch)).toInt

/-- Whether a product is a signed number of the operand's width. -/
def Fits (p : ℤ) : Prop :=
  -2 ^ (opWidth insn.rd.sizeshift - 1) ≤ p ∧ p < 2 ^ (opWidth insn.rd.sizeshift - 1)

instance (p : ℤ) : Decidable (insn.Fits p) := inferInstanceAs (Decidable (_ ∧ _))

/-- The product x86 takes: of the source at its effective address. -/
def x86Product : ℤ := insn.product c (insn.ra.x86Value pfx rip c)

/-- A multiplication has done what x86 says. -/
structure Right (c' : SeqCore) : Prop where
  result : (Operand.reg insn.rd).X86Written pfx rip c (BitVec.ofInt _ (insn.x86Product pfx rip c)) c'
  carry : (c'.arf Reg.flags).getLsbD 0 = !decide (insn.Fits (insn.x86Product pfx rip c))
  overflow : (c'.arf Reg.flags).getLsbD 11 = !decide (insn.Fits (insn.x86Product pfx rip c))

/-- The register a product by an immediate is merged into: the source or, of one in memory, its
zero extension, which has nothing above the operand. -/
def source : W64 :=
  match insn.ra with
  | .reg r => c.arf r.arch
  | .mem _ _ => 0

/-- Two products have the same low half and both fit or neither. -/
def SameProduct (p p' : ℤ) : Prop :=
  BitVec.ofInt (opWidth insn.rd.sizeshift) p = BitVec.ofInt _ p' ∧ (insn.Fits p ↔ insn.Fits p')

/-- The merge is into the destination's bits: unless it is of 16 bits and by an immediate, and then if the
source has the destination's upper 48 bits. -/
def Merges : Prop :=
  insn.imm = none ∨ insn.rd.sizeshift ≠ 1 ∨ insn.source c >>> 16 = c.arf insn.rd.arch >>> 16

/-- When a multiplication does: the source the uops load has the product of the source, and the merge is right. -/
def Exact : Prop :=
  insn.ra.Accessible pfx rip c false ∧
    insn.SameProduct (insn.product c (insn.ra.value pfx rip c)) (insn.x86Product pfx rip c) ∧ insn.Merges c

/-! ### The uop -/

/-- The product is its low half's value just if it fits. -/
theorem fits_iff {w : ℕ} (hw : 0 < w) (p : ℤ) : p ≠ (BitVec.ofInt w p).toInt ↔ ¬(-2 ^ (w - 1) ≤ p ∧ p < 2 ^ (w - 1)) := by
  have hpow : ((2 ^ w : ℕ) : ℤ) = 2 * 2 ^ (w - 1) := by
    obtain ⟨n, rfl⟩ : ∃ n, w = n + 1 := ⟨w - 1, by omega⟩
    rw [Nat.add_sub_cancel]
    push_cast
    exact pow_succ' 2 n
  have hpos : (0 : ℤ) < 2 ^ (w - 1) := pow_pos (by decide) _
  rw [BitVec.toInt_ofInt, ne_eq, not_iff_not]
  constructor
  · intro h
    have hle := Int.le_bmod (x := p) (Nat.two_pow_pos w)
    have hlt := Int.bmod_lt (x := p) (Nat.two_pow_pos w)
    omega
  · rintro ⟨hle, hlt⟩
    exact (Int.bmod_eq_of_le_mul_two (by omega) (by omega)).symm

/-- The result of the uop: the low half is merged, and both flags say whether more is needed. -/
def merged (size : ℕ) (old : W64) (p : ℤ) : UopResult :=
  let low : BitVec (opWidth size) := BitVec.ofInt _ p
  ⟨x86Merge size old (low.setWidth 64), (statusOf low (p ≠ low.toInt) (p ≠ low.toInt)).word⟩

theorem exec_mull (rest : Synthop) {op : TransOp} (hop : op.opcode = .opMull) (hset : op.setflags = setflags)
    (i : UopInputs) {p : ℤ}
    (hp : (i.ra.setWidth (opWidth op.size)).toInt * (i.rb.setWidth (opWidth op.size)).toInt = p) :
    rest.withMull.withImpl op i = merged op.size i.ra p := by
  subst hp
  have hexec : rest.withMull.withImpl op i = mull op i := by
    unfold Synthop.withImpl Synthop.withMull uopImpl
    simp only [hop, if_true]
  have hgen : op.setflags.gen .all = .all := by
    rw [hset]
    decide
  have hflags := aluResult_flags op.size i.ra .all
    (mulLow (w := opWidth op.size) (i.ra.setWidth _) (i.rb.setWidth _)) rfl (.inl ⟨rfl, rfl⟩)
  rw [hexec]
  unfold mull
  rw [hgen]
  exact congrArg₂ UopResult.mk rfl hflags

/-! ### Instructions -/

variable {insn} {pfx} {rip} {c} {c' : SeqCore}

/-- The flags after a product are right. -/
theorem flags_right {p : ℤ} {w : ℕ} (hw : 0 < w)
    (hflags : FlagsSet setflags (statusOf (BitVec.ofInt w p) (p ≠ (BitVec.ofInt w p).toInt)
      (p ≠ (BitVec.ofInt w p).toInt)).word c c') :
    ((c'.arf Reg.flags).getLsbD 0 = !decide (-2 ^ (w - 1) ≤ p ∧ p < 2 ^ (w - 1))) ∧
      (c'.arf Reg.flags).getLsbD 11 = !decide (-2 ^ (w - 1) ≤ p ∧ p < 2 ^ (w - 1)) := by
  have hmask : (setflagsToX86Flags setflags).getLsbD 0 = true ∧ (setflagsToX86Flags setflags).getLsbD 11 = true := by
    decide
  have hfits : decide (p ≠ (BitVec.ofInt w p).toInt) = !decide (-2 ^ (w - 1) ≤ p ∧ p < 2 ^ (w - 1)) := by
    rw [← decide_not, decide_eq_decide]
    exact fits_iff hw p
  rw [hflags 0, hflags 11, hmask.1, hmask.2, if_pos rfl, if_pos rfl, Status.word_bit, Status.word_bit]
  exact ⟨hfits, hfits⟩

/-- A narrow merge is the same just if the bits it keeps are. -/
theorem x86Merge_iff {size : ℕ} (h1 : 1 ≤ size) (h3 : size ≤ 3) (old old' v : W64) :
    x86Merge size old v = x86Merge size old' v ↔ size ≠ 1 ∨ old >>> 16 = old' >>> 16 := by
  have hbit : ∀ x : W64, ∀ i < 48, (x86Merge 1 x v).getLsbD (16 + i) = (x >>> 16).getLsbD i := by
    intro x i hi
    rw [x86Merge_bit (Nat.le_refl 1), if_neg (show ¬16 + i < opWidth 1 from Nat.not_lt.2 (Nat.le_add_right _ _)),
      BitVec.getLsbD_ushiftRight]
  constructor
  · intro h
    rw [or_iff_not_imp_left]
    intro hs
    obtain rfl := not_not.1 hs
    apply BitVec.eq_of_getLsbD_eq
    intro i hi
    by_cases h48 : i < 48
    · rw [← hbit old i h48, ← hbit old' i h48, h]
    · rw [BitVec.getLsbD_ushiftRight, BitVec.getLsbD_ushiftRight, BitVec.getLsbD_of_ge _ _ (by omega),
        BitVec.getLsbD_of_ge _ _ (by omega)]
  · rintro (h | h)
    · exact x86Merge_wide (by omega) h3 _ _ _
    · interval_cases size
      · apply BitVec.eq_of_getLsbD_eq
        intro i hi
        by_cases h16 : i < 16
        · rw [x86Merge_bit (Nat.le_refl 1), x86Merge_bit (Nat.le_refl 1), if_pos (show i < opWidth 1 from h16),
            if_pos (show i < opWidth 1 from h16)]
        · obtain ⟨k, rfl⟩ : ∃ k, i = 16 + k := ⟨i - 16, by omega⟩
          rw [hbit old k (by omega), hbit old' k (by omega), h]
      · rfl
      · rfl

/-- No register operand of an `imul` is a high byte. -/
theorem low (insn : ImulInsn) : insn.rd.hibyte = false := by
  by_contra h
  have hwide := insn.wide
  rw [Apr.sizeshift_of_hibyte (Bool.not_eq_false _ ▸ h)] at hwide
  exact absurd hwide (by decide)

/-- A product merged into `old` is right just if it is the product and a merge into the destination is the same. -/
theorem right_of_merge (insn : ImulInsn) {old : W64} {p : ℤ} {rs : List Reg} (hrs : Temps rs) (hkeep : Reg.flags ∉ rs)
    {c₁ : SeqCore} (h₁ : Leaves rs c.space.bytes c c₁) (h₂ : Leaves [insn.rd.arch, Reg.flags] c.space.bytes c₁ c')
    (hvalue : c'.arf insn.rd.arch = x86Merge insn.rd.sizeshift old
      ((BitVec.ofInt (opWidth insn.rd.sizeshift) p).setWidth 64))
    (hflags : FlagsSet setflags (statusOf (BitVec.ofInt (opWidth insn.rd.sizeshift) p)
      (p ≠ (BitVec.ofInt (opWidth insn.rd.sizeshift) p).toInt)
      (p ≠ (BitVec.ofInt (opWidth insn.rd.sizeshift) p).toInt)).word c₁ c') :
    insn.Right pfx rip c c' ↔ insn.SameProduct p (insn.x86Product pfx rip c) ∧
      (insn.rd.sizeshift ≠ 1 ∨ old >>> 16 = c.arf insn.rd.arch >>> 16) := by
  have hbits : FlagsSet setflags _ c c' := fun i => by
    have hbit := hflags i
    rw [h₁.arf Reg.flags hkeep] at hbit
    exact hbit
  have hright : (c'.arf Reg.flags).getLsbD 0 = !decide (insn.Fits p) ∧
      (c'.arf Reg.flags).getLsbD 11 = !decide (insn.Fits p) := flags_right (opWidth_pos _) hbits
  have hrd : insn.rd.arch.isArch = true := decide_eq_true (lt_trans insn.rd.arch_lt (by decide))
  have hne : insn.rd.arch ≠ Reg.flags := insn.rd.arch_ne (by decide)
  have h64 := opWidth_le insn.rd.sizeshift_le
  generalize hP : insn.x86Product pfx rip c = P
  -- what is merged over differs between the two at 16 bits only
  have hmerge := x86Merge_iff insn.wide insn.rd.sizeshift_le old (c.arf insn.rd.arch)
    ((BitVec.ofInt (opWidth insn.rd.sizeshift) P).setWidth 64)
  constructor
  · intro h
    have hres : c'.arf insn.rd.arch = insn.rd.write (c.arf insn.rd.arch)
        (BitVec.ofInt (opWidth insn.rd.sizeshift) (insn.x86Product pfx rip c)) :=
      (h.result.1 insn.rd.arch hrd hne).trans (if_pos rfl)
    rw [hvalue, hP, Apr.write_eq _ insn.low] at hres
    have hlow : BitVec.ofInt (opWidth insn.rd.sizeshift) p = BitVec.ofInt _ P := by
      have hread := congrArg (BitVec.setWidth (opWidth insn.rd.sizeshift)) hres
      rwa [x86Merge_setWidth insn.rd.sizeshift_le, x86Merge_setWidth insn.rd.sizeshift_le,
        BitVec.setWidth_setWidth_of_le _ h64, BitVec.setWidth_setWidth_of_le _ h64, BitVec.setWidth_eq,
        BitVec.setWidth_eq] at hread
    have hcarry := h.carry
    rw [hright.1, hP, Bool.not_inj_iff, decide_eq_decide] at hcarry
    rw [hlow] at hres
    exact ⟨⟨hlow, hcarry⟩, hmerge.1 hres⟩
  · rintro ⟨⟨hlow, hfits⟩, h⟩
    have hsame : decide (insn.Fits p) = decide (insn.Fits P) := decide_eq_decide.2 hfits
    rw [hsame] at hright
    rw [hlow, hmerge.2 h, ← Apr.write_eq _ insn.low] at hvalue
    subst hP
    refine ⟨⟨fun r hr hf => ?_, h₂.bytes⟩, hright.1, hright.2⟩
    split
    · rename_i heq
      rw [heq]
      exact hvalue
    · rename_i hother
      rw [h₂.arf r (by simp [hother, hf]), h₁.arch hrs hr hf]

variable (rest : Synthop)

variable (pfx rip) in
/-- A product runs, after what leaves the registers. -/
theorem wp_mull (insn : ImulInsn) {rs : List Reg} (hrs : Temps rs) (hkeep : Reg.flags ∉ rs)
    {c₁ : SeqCore} (h₁ : Leaves rs c.space.bytes c c₁) {A B rc : Reg} {imm : W64} {p : ℤ}
    (hprod : ((c₁.arf (remap A)).setWidth (opWidth insn.rd.sizeshift)).toInt *
      ((if B = Reg.imm then imm else c₁.arf (remap B)).setWidth (opWidth insn.rd.sizeshift)).toInt = p) :
    Wp rest.withMull.withImpl [.init .opMull insn.rd.arch A B rc insn.rd.sizeshift imm 0 setflags] (fun c' =>
      insn.Right pfx rip c c' ↔ insn.SameProduct p (insn.x86Product pfx rip c) ∧
        (insn.rd.sizeshift ≠ 1 ∨ c₁.arf (remap A) >>> 16 = c.arf insn.rd.arch >>> 16)) c₁ := by
  obtain ⟨op, hop⟩ : ∃ op : TransOp, op = .init .opMull insn.rd.arch A B rc insn.rd.sizeshift imm 0 setflags :=
    ⟨_, rfl⟩
  have hmem : isMem op = false := by
    have hmem : (isload .opMull || isstore .opMull) = false := by decide
    subst hop
    exact hmem
  rw [← hop]
  have hset : op.setflags = setflags := by rw [hop]; rfl
  have hrd : op.rd = insn.rd.arch := by rw [hop]; rfl
  have hexec : rest.withMull.withImpl op (c₁.inputs op) = merged insn.rd.sizeshift (c₁.arf (remap A)) p := by
    subst hop
    exact exec_mull rest rfl rfl _ hprod
  refine Triples.wp_mono (wp_result_flags hmem (by rw [hop]; rfl) (by rw [hop]; rfl) (by rw [hop]; rfl) h₁.ready
    (by rw [hrd]; exact insn.rd.writable) hexec (Status.word_inv _)) ?_
  rintro c' ⟨hleaves, hvalue, hflags⟩
  rw [h₁.bytes, hrd] at hleaves
  rw [hrd] at hvalue
  rw [hset] at hflags
  exact right_of_merge insn hrs hkeep h₁ hleaves hvalue hflags

/-- The source is no high byte either. -/
theorem low_source (insn : ImulInsn) {r : Apr} (hra : insn.ra = .reg r) : r.hibyte = false := by
  have hsize := insn.size
  rw [hra] at hsize
  by_contra h
  have hwide := insn.wide
  rw [← hsize] at hwide
  rw [show (Operand.reg r).sizeshift = r.sizeshift from rfl,
    Apr.sizeshift_of_hibyte (Bool.not_eq_false _ ▸ h)] at hwide
  exact absurd hwide (by decide)

/-- A register that is no high byte, read as a factor. -/
theorem read_of_low {p : Apr} (hp : p.hibyte = false) (v : W64) : p.read v = v.setWidth (opWidth p.sizeshift) := by
  unfold Apr.read
  rw [hp, if_neg Bool.false_ne_true]

/-- A factor in a register of the uop. -/
theorem factor {d : Operand} {size : ℕ} (hsize : d.sizeshift = size) {v : W64}
    (hv : v.setWidth (opWidth d.sizeshift) = d.value pfx rip c) :
    (v.setWidth (opWidth size)).toInt = (d.value pfx rip c).toInt := by
  subst hsize
  rw [hv]

/-- A source in a register: the first factor is the destination or, of an immediate, the source. -/
theorem wp_register (h : c.Ready) (insn : ImulInsn) {r : Apr} (hra : insn.ra = .reg r) :
    Wp rest.withMull.withImpl (insn.decode pfx rip) (fun c' => insn.Right pfx rip c c' ↔
      insn.SameProduct (insn.product c (insn.ra.value pfx rip c)) (insn.x86Product pfx rip c) ∧ insn.Merges c) c := by
  obtain ⟨rd, ra, imm, hwide, hsize⟩ := insn
  obtain rfl : ra = .reg r := hra
  have hlow : rd.hibyte = false := low ⟨rd, .reg r, imm, hwide, hsize⟩
  have hrlow : r.hibyte = false := low_source ⟨rd, .reg r, imm, hwide, hsize⟩ rfl
  have hmull : ¬(Opcode.opMull = .opXor) := by decide
  have hr : remap r.arch = r.arch := remap_of_lt (lt_trans r.arch_lt (by decide))
  have hrd : remap rd.arch = rd.arch := remap_of_lt (lt_trans rd.arch_lt (by decide))
  have hrimm : r.arch ≠ Reg.imm := r.arch_ne (by decide)
  have hsource : ((c.arf r.arch).setWidth (opWidth rd.sizeshift)).toInt = ((Operand.reg r).value pfx rip c).toInt :=
    factor hsize (read_of_low hrlow _).symm
  have htemps : Temps [] := by decide
  unfold decode
  cases imm with
  | none =>
    have hops : ∀ rc, aluRegOrMem .opMull rd (.reg r) setflags rc false false none =
        [.init .opMull rd.arch rd.arch r.arch rc rd.sizeshift 0 0 setflags] := fun rc => by
      unfold aluRegOrMem RegImm.hibyte
      simp [hlow, hrlow, hmull, RegImm.srcreg, RegImm.rbimm]
    simp only [hops]
    refine Triples.wp_mono (wp_mull pfx rip rest ⟨rd, .reg r, none, hwide, hsize⟩
      (p := product ⟨rd, .reg r, none, hwide, hsize⟩ c ((Operand.reg r).value pfx rip c)) htemps List.not_mem_nil (.refl h) ?_) fun c' hright => ?_
    · rw [if_neg hrimm, hr, hrd, mul_comm, hsource]
      unfold product
      dsimp only
      rw [read_of_low hlow]
    · rw [hright, hrd]
      exact and_congr_right fun _ => iff_of_true (.inr rfl) (.inl rfl)
  | some v =>
    have hops : ∀ rc, aluRegOrMem .opMull rd (.reg r) setflags rc false false (some v) =
        [.init .opMull rd.arch r.arch Reg.imm (if rd.sizeshift ≥ 2 then Reg.zero else rd.arch) rd.sizeshift v 0
          setflags] := fun rc => by
      unfold aluRegOrMem RegImm.hibyte
      simp [hlow, hrlow, RegImm.srcreg]
    simp only [hops]
    refine Triples.wp_mono (wp_mull pfx rip rest ⟨rd, .reg r, some v, hwide, hsize⟩
      (p := product ⟨rd, .reg r, some v, hwide, hsize⟩ c ((Operand.reg r).value pfx rip c)) htemps List.not_mem_nil (.refl h) ?_) fun c' hright => ?_
    · rw [if_pos rfl, hr, hsource]
      rfl
    · rw [hright, hr]
      unfold Merges source
      simp

/-- A source in memory is loaded into `temp0`, which it fills from below. -/
theorem wp_memory (h : c.Ready) (insn : ImulInsn) {o : X86Operand} {size : Fin 4} (hra : insn.ra = .mem o size)
    (hacc : insn.ra.Accessible pfx rip c false) :
    Wp rest.withMull.withImpl (insn.decode pfx rip) (fun c' => insn.Right pfx rip c c' ↔
      insn.SameProduct (insn.product c (insn.ra.value pfx rip c)) (insn.x86Product pfx rip c) ∧ insn.Merges c) c := by
  obtain ⟨rd, ra, imm, hwide, hsize⟩ := insn
  obtain rfl : ra = .mem o size := hra
  obtain ⟨hctx, hload, -⟩ := hacc
  have hlow : rd.hibyte = false := low ⟨rd, .mem o size, imm, hwide, hsize⟩
  have hw : Writable Reg.temp0 := ⟨by decide, by decide, by decide⟩
  have htemps : Temps [Reg.temp6, Reg.temp8, Reg.temp0, Reg.temp4, Reg.temp9] := by decide
  have h0 : remap Reg.temp0 = Reg.temp0 := by decide
  have hrd : remap rd.arch = rd.arch := remap_of_lt (lt_trans rd.arch_lt (by decide))
  have hrdarch : rd.arch.isArch = true := decide_eq_true (lt_trans rd.arch_lt (by decide))
  have hload := wp_operandLoad pfx rip Reg.temp0 o size rest.withMull h hctx (show isload .opLd = true by decide)
    (Nat.le_of_lt_succ size.isLt) hw hload
  have hvalue : ∀ {c₁ : SeqCore}, c₁.arf Reg.temp0 = (loadBytes c.space.bytes (Operand.address pfx c rip o) size).setWidth 64 →
      ((c₁.arf Reg.temp0).setWidth (opWidth rd.sizeshift)).toInt = ((Operand.mem o size).value pfx rip c).toInt := by
    intro c₁ h₁
    -- the multiplication reads the low bits only, and the load put those of the operand there
    refine factor hsize ?_
    have hle := opWidth_le (Nat.le_of_lt_succ size.isLt)
    rw [h₁]
    show ((loadBytes _ _ _).setWidth 64).setWidth (opWidth size) = _
    rw [BitVec.setWidth_setWidth_of_le _ hle, BitVec.setWidth_eq]
    rfl
  unfold decode
  cases imm with
  | none =>
    have hops : ∀ rc, aluRegMem pfx rip .opMull rd (o.memRef size) setflags rc false none =
        operandLoad pfx rip Reg.temp0 (o.memRef size) .opLd ++
          [.init .opMull rd.arch rd.arch Reg.temp0 rc rd.sizeshift 0 0 setflags] := fun rc => by
      unfold aluRegMem
      simp [hlow]
    simp only [hops]
    refine Triples.wp_append (Triples.wp_mono hload ?_)
    rintro c₁ ⟨h₁, hv, -⟩
    refine Triples.wp_mono (wp_mull pfx rip rest ⟨rd, .mem o size, none, hwide, hsize⟩
      (p := product ⟨rd, .mem o size, none, hwide, hsize⟩ c ((Operand.mem o size).value pfx rip c)) htemps (by decide) h₁ ?_) fun c' hright => ?_
    · rw [if_neg (by decide), h0, hrd, mul_comm, hvalue hv, h₁.arch htemps hrdarch (rd.arch_ne (by decide))]
      unfold product
      dsimp only
      rw [read_of_low hlow]
    · rw [hright, hrd, h₁.arch htemps hrdarch (rd.arch_ne (by decide))]
      exact and_congr_right fun _ => iff_of_true (.inr rfl) (.inl rfl)
  | some v =>
    have hops : ∀ rc, aluRegMem pfx rip .opMull rd (o.memRef size) setflags rc false (some v) =
        operandLoad pfx rip Reg.temp0 (o.memRef size) .opLd ++
          [.init .opMull rd.arch Reg.temp0 Reg.imm (if rd.sizeshift ≥ 2 then Reg.zero else rd.arch) rd.sizeshift v 0
            setflags] := fun rc => by
      unfold aluRegMem
      simp [hlow]
    simp only [hops]
    refine Triples.wp_append (Triples.wp_mono hload ?_)
    rintro c₁ ⟨h₁, hv, -⟩
    refine Triples.wp_mono (wp_mull pfx rip rest ⟨rd, .mem o size, some v, hwide, hsize⟩
      (p := product ⟨rd, .mem o size, some v, hwide, hsize⟩ c ((Operand.mem o size).value pfx rip c)) htemps (by decide) h₁ ?_) fun c' hright => ?_
    · rw [if_pos rfl, h0, hvalue hv]
      rfl
    · -- 16 bits of memory leave nothing to shift down
      have hshift : rd.sizeshift = 1 → c₁.arf Reg.temp0 >>> 16 = 0 := by
        intro h16
        have hbits : opWidth size.val ≤ 16 := by
          have heq : size.val = 1 := hsize.trans h16
          rw [heq]
          decide
        rw [hv]
        apply BitVec.eq_of_getLsbD_eq
        intro i hi
        show (((loadBytes _ _ _).setWidth 64) >>> 16).getLsbD i = _
        rw [BitVec.getLsbD_ushiftRight, BitVec.getLsbD_setWidth, BitVec.getLsbD_of_ge _ _ (by omega)]
        simp
      rw [hright, h0]
      unfold Merges source
      by_cases h16 : rd.sizeshift = 1
      · simp [h16, hshift h16]
      · simp [h16]

/-- A source that may not be loaded is not. -/
theorem not_wp_memory (h : c.Ready) (insn : ImulInsn) (hctx : HostCtx c) {o : X86Operand} {size : Fin 4}
    (hra : insn.ra = .mem o size) {Q : SeqCore → Prop}
    (hno : ¬X86Sim.Accessible c false (Operand.address pfx c rip o) size) :
    ¬Wp rest.withMull.withImpl (insn.decode pfx rip) Q c := by
  obtain ⟨rd, ra, imm, hwide, hsize⟩ := insn
  obtain rfl : ra = .mem o size := hra
  have hops : ∀ rc, ∃ ops, aluRegMem pfx rip .opMull rd (o.memRef size) setflags rc false imm =
      operandLoad pfx rip Reg.temp0 (o.memRef size) .opLd ++ ops := fun rc => by
    unfold aluRegMem
    exact ⟨_, List.append_assoc _ _ _⟩
  unfold decode
  obtain ⟨ops, hops⟩ := hops (if imm.isSome then Reg.imm else rcreg ⟨rd, .mem o size, imm, hwide, hsize⟩)
  dsimp only
  rw [hops]
  exact not_wp_loadOperand pfx rip Reg.temp0 o size rest.withMull h hctx true (show isload .opLd = true by decide)
    (Nat.le_of_lt_succ size.isLt) ⟨by decide, by decide, by decide⟩ ops hno

/-- **When a multiplication does what x86 says.** -/
theorem imul_right_iff (rest : Synthop) (insn : ImulInsn) (pfx : Prefixes) (rip : W64) (c : SeqCore) (h : c.Ready)
    (hacc : insn.ra.X86Accessible pfx rip c false) :
    Wp rest.withMull.withImpl (insn.decode pfx rip) (insn.Right pfx rip c) c ↔ insn.Exact pfx rip c := by
  have hnonempty : Nonempty (ℕ → Sfr) := ⟨fun _ => Frame.Sfr.zero⟩
  by_cases hload : insn.ra.Accessible pfx rip c false
  · suffices hrun : Wp rest.withMull.withImpl (insn.decode pfx rip) (fun c' => insn.Right pfx rip c c' ↔
        insn.Exact pfx rip c) c from Triples.wp_iff hrun fun _ h => h
    have hexact : insn.Exact pfx rip c ↔
        insn.SameProduct (insn.product c (insn.ra.value pfx rip c)) (insn.x86Product pfx rip c) ∧ insn.Merges c :=
      and_iff_right hload
    simp only [hexact]
    have hforms : (∃ r, insn.ra = .reg r) ∨ ∃ o size, insn.ra = .mem o size := by
      cases insn.ra with
      | reg r => exact .inl ⟨r, rfl⟩
      | mem o size => exact .inr ⟨o, size, rfl⟩
    obtain ⟨r, hra⟩ | ⟨o, size, hra⟩ := hforms
    · exact wp_register rest h insn hra
    · exact wp_memory rest h insn hra hload
  · refine iff_of_false ?_ fun hexact => hload hexact.1
    obtain ⟨rd, ra, imm, hwide, hsize⟩ := insn
    cases ra with
    | reg r => exact absurd trivial hload
    | mem o size =>
      refine not_wp_memory rest h ⟨rd, .mem o size, imm, hwide, hsize⟩ hacc.1 rfl fun hok => hload ?_
      exact ⟨hacc.1, hok, fun hst => Bool.noConfusion hst⟩

/-- Where the uops load what x86 does, a multiplication is right just if the merge is. -/
theorem exact_iff_merges (insn : ImulInsn) (hagree : insn.ra.Agrees pfx rip c)
    (hacc : insn.ra.X86Accessible pfx rip c false) : insn.Exact pfx rip c ↔ insn.Merges c := by
  unfold Exact x86Product SameProduct
  rw [hagree.value]
  exact ⟨fun h => h.2.2, fun h => ⟨hagree.accessible.2 hacc, ⟨rfl, Iff.rfl⟩, h⟩⟩

/-- `imul ax, r, imm`. -/
def imulWord (r : Fin 16) (imm : W64) : ImulInsn := ⟨.w 0, .reg (.w r), some imm, Apr.one_le_word, rfl⟩

/-- The product of a register with itself kept. -/
theorem imul_right_iff_word : Wp (Synthop.withMull fun _ _ => ⟨0, 0⟩).withImpl ((imulWord 0 3).decode .plain 0)
    ((imulWord 0 3).Right .plain 0 (AluInsn.core fun r => if r = Reg.rax then 0x12345 else 0))
    (AluInsn.core fun r => if r = Reg.rax then 0x12345 else 0) := by
  have hready : (AluInsn.core fun r => if r = Reg.rax then 0x12345 else 0).Ready :=
    ⟨by decide +kernel, by decide +kernel, by decide +kernel, by decide +kernel⟩
  refine (imul_right_iff (fun _ _ => ⟨0, 0⟩) (imulWord 0 3) .plain 0 _ hready trivial).2
    ((exact_iff_merges (imulWord 0 3) trivial trivial).2 (.inr (.inr ?_)))
  decide +kernel

/-- `imul ax, cx, 1` moves the upper 48 bits of `rcx` too. -/
theorem not_imul_right : ¬ ∀ (rest : Synthop) (insn : ImulInsn) (pfx : Prefixes) (rip : W64) (c : SeqCore), c.Ready →
    insn.ra.X86Accessible pfx rip c false →
    Wp rest.withMull.withImpl (insn.decode pfx rip) (insn.Right pfx rip c) c := by
  intro h
  let c := AluInsn.core fun r => if r = Reg.rcx then 0x10000 else 0
  have hready : c.Ready := ⟨by decide +kernel, by decide +kernel, by decide +kernel, by decide +kernel⟩
  obtain ⟨c', hrun, hright⟩ := h (fun _ _ => ⟨0, 0⟩) (imulWord 1 1) .plain 0 c hready trivial fun _ _ => Frame.Sfr.zero
  have hmoved : (perform (Synthop.withMull fun _ _ => ⟨0, 0⟩).withImpl ((imulWord 1 1).decode .plain 0)
      (fun _ _ => Frame.Sfr.zero) c).toOption.map (fun c => c.arf Reg.rax) = some 0x10000 := by
    decide +kernel
  have hdone : perform (Synthop.withMull fun _ _ => ⟨0, 0⟩).withImpl ((imulWord 1 1).decode .plain 0)
      (fun _ _ => Frame.Sfr.zero) c = .ok c' := hrun
  rw [hdone] at hmoved
  have hwrong : c'.arf Reg.rax = 0x10000 := Option.some.inj hmoved
  have hkept : c'.arf Reg.rax = (imulWord 1 1).rd.write (c.arf Reg.rax)
      (BitVec.ofInt _ ((imulWord 1 1).x86Product .plain 0 c)) := hright.result.1 Reg.rax (by decide) (by decide)
  rw [hwrong] at hkept
  exact absurd hkept (by decide +kernel)

end ImulInsn

end X86Sim
