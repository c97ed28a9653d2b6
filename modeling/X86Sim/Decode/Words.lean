import X86Sim.Decode.MulDiv

/-!
# Bit scans, byte swaps and sign extensions (`decode-fast.cpp`, `uopimpl.cpp`)

`bsf`, `bsr`, `bswap`, `cbw` and `cwd` in their widths. The sign of `rax` is put in all of
`rdx` by a test of its top bit and a select.
-/

namespace X86Sim

open X86Sim.Seq X86Sim.Seq.SeqCore

/-- `lsbindex64`: `std::countr_zero`. -/
def lsbindex64 (n : W64) : W64 := if n ≠ 0 then n.ctz else 0

/-- `msbindex64`: `std::bit_width`, less one. -/
def msbindex64 (n : W64) : W64 := if n ≠ 0 then 64 - n.clz - 1 else 0

/-- `exp_op_ctz` and `exp_op_clz`. -/
def scanIndex (reverse : Bool) {w : ℕ} (rb : BitVec w) : BitVec w :=
  if rb ≠ 0 then (if reverse then msbindex64 (rb.setWidth 64) else lsbindex64 (rb.setWidth 64)).setWidth w else 0

/-- `ctzclzop`. -/
def ctzclzop (reverse : Bool) (op : TransOp) (i : UopInputs) : UopResult :=
  let rb : BitVec (opWidth op.size) := i.rb.setWidth _
  ⟨x86Merge op.size i.ra ((scanIndex reverse rb).setWidth 64), if rb = 0 then FLAG_ZF else 0⟩

/-- `std::byteswap` of `n` bytes. -/
def byteswap (n : ℕ) (v : BitVec (8 * n)) : BitVec (8 * n) :=
  (ByteMask.ofBytes fun i => ByteMask.byteAt (v.setWidth 64) (n - 1 - i)).setWidth _

/-- `exp_op_bswap`; there is none of less than four bytes. -/
def bswapop (op : TransOp) (i : UopInputs) : UopResult :=
  aluResult op.size i.ra .none
    ⟨if 2 ≤ op.size then byteswap (2 ^ op.size) (i.rb.setWidth (opWidth op.size)) else 0, false, false⟩

/-- The implementations, with those of the scans, the byte swap, the bit test and the select. -/
def Synthop.withWords (rest : Synthop) : Synthop := fun op i =>
  match op.opcode with
  | .opCtz => ctzclzop false op i
  | .opClz => ctzclzop true op i
  | .opBswap => bswapop op i
  | .opBt => bitop expBt op i
  | .opSel => sel (.ofCode op.cond) op.size i
  | _ => rest op i

namespace TransOp

/-- The sign extension of the low half of `rax`. -/
def extendLow (rashift : ℕ) : TransOp :=
  let rdshift := rashift + 1
  { init .opMaskb Reg.rax (if rdshift < 3 then Reg.rax else Reg.zero) Reg.rax Reg.imm rdshift 0
      (maskControlInfo 0 ((1 <<< rashift) * 8) 0) .none with cond := 2 }

/-- The test of the sign of `rax`. -/
def testSign (rashift : ℕ) : TransOp :=
  { init .opBt Reg.temp0 Reg.rax Reg.imm Reg.zero rashift (BitVec.ofNat 64 ((1 <<< rashift) * 8 - 1)) 0 .carry with
    nouserflags := true }

/-- The select of all ones if it is set. -/
def selectSign : TransOp :=
  { init .opSel Reg.temp0 Reg.zero Reg.imm Reg.temp0 3 (-1) 0 .none with cond := Cond.c.code }

end TransOp

/-- A register operand of a size. -/
def Apr.ofSize (r : Fin 16) : ℕ → Apr
  | 0 => .b r | 1 => .w r | 2 => .d r | _ => .q r

/-- `bsf` and `bsr` (0x1bc, 0x1bd), `bswap` (0x1c8 to 0x1cf), `cbw` (0x98) and `cwd` (0x99); `mode64` is `rex.mode64`. -/
inductive WordInsn
  | scan (reverse : Bool) (rd : Apr) (ra : Operand) (wide : 1 ≤ rd.sizeshift) (size : ra.sizeshift = rd.sizeshift)
  | bswap (rd : Apr) (wide : 2 ≤ rd.sizeshift)
  | cbw (mode64 : Bool)
  | cwd (mode64 : Bool)

namespace WordInsn

/-- `rashift` of `cbw`. -/
def cbwShift (pfx : Prefixes) (mode64 : Bool) : ℕ := if mode64 then 2 else if pfx.data then 0 else 1

/-- `rashift` of `cwd`. -/
def cwdShift (pfx : Prefixes) (mode64 : Bool) : ℕ := if mode64 then 3 else if pfx.data then 1 else 2

def scanop (reverse : Bool) : Opcode := if reverse then .opClz else .opCtz

/-- The uops. -/
def decode (insn : WordInsn) (pfx : Prefixes) (rip : W64) : List TransOp :=
  match insn with
  | scan reverse rd ra _ _ =>
    match ra with
    | .reg r => aluRegOrMem (scanop reverse) rd (.reg r) .default Reg.zero false false none
    | .mem o size => aluRegMem pfx rip (scanop reverse) rd (o.memRef size) .default Reg.zero false none
  | bswap rd _ =>
    [.mk3 .opBswap rd.arch (if rd.sizeshift ≥ 2 then Reg.zero else rd.arch) rd.arch Reg.zero rd.sizeshift 0]
  | cbw mode64 => [.extendLow (cbwShift pfx mode64)]
  | cwd mode64 =>
    let rashift := cwdShift pfx mode64
    [.testSign rashift, .selectSign,
      .mk3 .opMov Reg.rdx (if rashift < 2 then Reg.rdx else Reg.zero) Reg.temp0 Reg.zero rashift 0]

/-! ### What x86 says -/

variable (insn : WordInsn) (pfx : Prefixes) (rip : W64) (c : SeqCore)

/-- `n` is the number of the lowest bit set or, in reverse, of the highest. -/
def IsScan (reverse : Bool) {w : ℕ} (v : BitVec w) (n : ℕ) : Prop :=
  v.getLsbD n = true ∧ ∀ i, v.getLsbD i = true → if reverse then i ≤ n else n ≤ i

/-- The bytes of `v'` are those of `v` in the other order. -/
def Swapped {size : ℕ} (v v' : BitVec (opWidth size)) : Prop :=
  ∀ i < 2 ^ size, ByteMask.byteAt (v'.setWidth 64) i = ByteMask.byteAt (v.setWidth 64) (2 ^ size - 1 - i)

/-- The status flags. -/
def status : List ℕ := [0, 2, 4, 6, 7, 11]

/-- A scan of `v` is done. Of zero there is no index. -/
def Scanned (reverse : Bool) (rd : Apr) {w : ℕ} (v : BitVec w) (c' : SeqCore) : Prop :=
  (∃ n : ℕ, (v ≠ 0 → IsScan reverse v n) ∧ (Operand.reg rd).Written pfx rip c (BitVec.ofNat _ n) c') ∧
  (c'.arf Reg.flags).getLsbD 6 = decide (v = 0) ∧
  ∀ i ∉ status, (c'.arf Reg.flags).getLsbD i = (c.arf Reg.flags).getLsbD i

/-- An instruction has done what x86 says. -/
def Right (c' : SeqCore) : Prop :=
  match insn with
  | scan reverse rd ra _ _ => Scanned pfx rip c reverse rd (ra.x86Value pfx rip c) c'
  | bswap rd _ =>
    (∃ v, Swapped (rd.read (c.arf rd.arch)) v ∧ (Operand.reg rd).Written pfx rip c v c') ∧
    c'.arf Reg.flags = c.arf Reg.flags
  | cbw mode64 =>
    let low : BitVec (opWidth (cbwShift pfx mode64)) := (c.arf Reg.rax).setWidth _
    (Operand.reg (.ofSize 0 (cbwShift pfx mode64 + 1))).Written pfx rip c (low.signExtend _) c' ∧
    c'.arf Reg.flags = c.arf Reg.flags
  | cwd mode64 =>
    let low : BitVec (opWidth (cwdShift pfx mode64)) := (c.arf Reg.rax).setWidth _
    (Operand.reg (.ofSize 2 (cwdShift pfx mode64))).Written pfx rip c (if low.msb then -1 else 0) c' ∧
    c'.arf Reg.flags = c.arf Reg.flags

/-- The source may be loaded. -/
def Accessible : Prop :=
  match insn with
  | scan _ _ ra _ _ => ra.X86Accessible pfx rip c false
  | _ => True

/-- A scan finds the same bit in both, or none. -/
def SameScan (reverse : Bool) {w : ℕ} (v v' : BitVec w) : Prop := ∀ n, IsScan reverse v n ↔ IsScan reverse v' n

/-- When an instruction does: what the uops of a scan load may be loaded, and the same bit is found in it. -/
def Exact : Prop :=
  match insn with
  | scan reverse _ ra _ _ =>
    ra.Accessible pfx rip c false ∧ SameScan reverse (ra.value pfx rip c) (ra.x86Value pfx rip c)
  | _ => True

/-! ### The indices -/

section Index

variable {w : ℕ} {v : BitVec w}

/-- A bit of a wider word. -/
theorem setWidth_bit (hw : w ≤ 64) (i : ℕ) : (v.setWidth 64).getLsbD i = v.getLsbD i := by
  rw [BitVec.getLsbD_setWidth]
  by_cases hi : i < 64
  · rw [decide_eq_true hi, Bool.true_and]
  · rw [BitVec.getLsbD_of_ge v i (by omega), Bool.and_false]

theorem wide_ne_zero (hw : w ≤ 64) (hv : v ≠ 0) : v.setWidth 64 ≠ 0 := by
  intro hzero
  apply hv
  apply BitVec.eq_of_getLsbD_eq
  intro i _
  rw [← setWidth_bit hw, hzero]
  simp

/-- The count of zeros below is the number of the lowest bit. -/
theorem isScan_lsbindex {n : W64} (hn : n ≠ 0) : IsScan false n (lsbindex64 n).toNat := by
  unfold lsbindex64
  rw [if_pos hn]
  refine ⟨BitVec.getLsbD_true_ctz_of_ne_zero hn, fun i hi => ?_⟩
  by_contra hlt
  rw [BitVec.getLsbD_false_of_lt_ctz (Nat.not_le.1 hlt)] at hi
  cases hi

/-- The width less the count of zeros above, less one, is the number of the highest. -/
theorem isScan_msbindex {n : W64} (hn : n ≠ 0) : IsScan true n (msbindex64 n).toNat := by
  have hclz : n.clz.toNat < 64 := by
    have hlt := BitVec.clz_lt_iff_ne_zero.2 hn
    have h := BitVec.lt_def.1 hlt
    simpa using h
  have hindex : (msbindex64 n).toNat = 63 - n.clz.toNat := by
    unfold msbindex64
    rw [if_pos hn]
    bv_omega
  rw [hindex]
  refine ⟨?_, fun i hi => ?_⟩
  · exact BitVec.getLsbD_true_clz_of_ne_zero (by decide) hn
  · show i ≤ _
    by_contra hlt
    have hge := Nat.ge_two_pow_of_testBit hi
    have hsmall := BitVec.toNat_lt_two_pow_sub_clz (x := n)
    have hpow : 2 ^ (64 - n.clz.toNat) ≤ 2 ^ i := Nat.pow_le_pow_right (by decide) (by omega)
    omega

/-- **The index of a scan.** -/
theorem isScan_scanIndex (reverse : Bool) (hw : w ≤ 64) (hv : v ≠ 0) : IsScan reverse v (scanIndex reverse v).toNat := by
  have hwide := wide_ne_zero hw hv
  obtain ⟨n, hn, hscan⟩ : ∃ n : W64, scanIndex reverse v = n.setWidth w ∧ IsScan reverse (v.setWidth 64) n.toNat := by
    unfold scanIndex
    rw [if_pos hv]
    cases reverse with
    | false => exact ⟨_, rfl, isScan_lsbindex hwide⟩
    | true => exact ⟨_, rfl, isScan_msbindex hwide⟩
  -- the index is of a bit of the word, so that the word is wide enough for it
  have hlt : n.toNat < w := by
    by_contra hge
    have hbit := hscan.1
    rw [setWidth_bit hw, BitVec.getLsbD_of_ge v _ (Nat.not_lt.1 hge)] at hbit
    cases hbit
  have hnat : (scanIndex reverse v).toNat = n.toNat := by
    rw [hn, BitVec.toNat_setWidth]
    exact Nat.mod_eq_of_lt (lt_trans hlt Nat.lt_two_pow_self)
  rw [hnat]
  refine ⟨by rw [← setWidth_bit hw]; exact hscan.1, fun i hi => hscan.2 i ?_⟩
  rw [setWidth_bit hw]
  exact hi

end Index

/-! ### The uops -/

/-- Only a byte may be a high one. -/
theorem low_of_wide {p : Apr} (h : 1 ≤ p.sizeshift) : p.hibyte = false := by
  by_contra hhigh
  rw [Apr.sizeshift_of_hibyte (Bool.not_eq_false _ ▸ hhigh)] at h
  exact absurd h (by decide)

variable {insn} {pfx} {rip} {c} {c' : SeqCore} (rest : Synthop)

/-- A register is written by the merge of a result. -/
theorem written_of_merge {p : Apr} (hlow : p.hibyte = false) {v : BitVec (opWidth p.sizeshift)} {rs : List Reg}
    (hrs : Temps rs) (hl : Leaves (rs ++ [p.arch]) c.space.bytes c c')
    (hv : c'.arf p.arch = x86Merge p.sizeshift (c.arf p.arch) (v.setWidth 64)) :
    (Operand.reg p).Written pfx rip c v c' := by
  refine ⟨fun r hr hf => ?_, hl.bytes⟩
  split
  · rename_i heq
    rw [heq, hv]
    exact (p.write_eq hlow _ _).symm
  · rename_i hother
    refine hl.arf r ?_
    rw [List.mem_append, List.mem_singleton]
    rintro (hmem | heq)
    · rcases hrs r hmem with h64 | hflags
      · exact temp_not_arch h64 hr rfl
      · exact hf hflags
    · exact hother heq

/-- An operand of another name for its size. -/
theorem scan_congr {s t : ℕ} (hst : s = t) (reverse : Bool) {x : W64} {y : BitVec (opWidth s)}
    (hx : x.setWidth (opWidth s) = y) : (x.setWidth (opWidth t) = 0 ↔ y = 0) ∧
      ∀ n, IsScan reverse (x.setWidth (opWidth t)) n → IsScan reverse y n := by
  subst hst hx
  exact ⟨Iff.rfl, fun n h => h⟩

/-- The uop of a scan, after what leaves the registers and puts the source in one. -/
theorem wp_scan {reverse : Bool} {rd : Apr} {ra : Operand} (wide : 1 ≤ rd.sizeshift) (size : ra.sizeshift = rd.sizeshift)
    {rs : List Reg} (hrs : Temps rs) (hkeep : Reg.flags ∉ rs) {c₁ : SeqCore} (h₁ : Leaves rs c.space.bytes c c₁)
    {B : Reg} (hB : B ≠ Reg.imm) (hvalue : (c₁.arf (remap B)).setWidth (opWidth ra.sizeshift) = ra.value pfx rip c) :
    Wp rest.withWords.withImpl [.init (scanop reverse) rd.arch rd.arch B Reg.zero rd.sizeshift 0 0 .default]
      (Scanned pfx rip c reverse rd (ra.value pfx rip c)) c₁ := by
  obtain ⟨op, hop⟩ : ∃ op : TransOp, op = .init (scanop reverse) rd.arch rd.arch B Reg.zero rd.sizeshift 0 0 .default :=
    ⟨_, rfl⟩
  obtain ⟨v, hv⟩ : ∃ v : BitVec (opWidth rd.sizeshift), v = (c₁.arf (remap B)).setWidth _ := ⟨_, rfl⟩
  have hlow : rd.hibyte = false := low_of_wide wide
  have hrd : remap rd.arch = rd.arch := remap_of_lt (lt_trans rd.arch_lt (by decide))
  have hrdarch : rd.arch.isArch = true := decide_eq_true (lt_trans rd.arch_lt (by decide))
  have hmem : isMem op = false := by
    have hclass : (isload .opCtz || isstore .opCtz) = false ∧ (isload .opClz || isstore .opClz) = false := by decide
    rw [hop]
    cases reverse with
    | false => exact hclass.1
    | true => exact hclass.2
  have hexec : rest.withWords.withImpl op (c₁.inputs op) = ⟨x86Merge rd.sizeshift (c.arf rd.arch)
      ((scanIndex reverse v).setWidth 64), if v = 0 then FLAG_ZF else 0⟩ := by
    have hra : (c₁.inputs op).ra = c.arf rd.arch := by
      rw [hop]
      show c₁.arf (remap rd.arch) = _
      rw [hrd, h₁.arch hrs hrdarch (rd.arch_ne (by decide))]
    have hrb : (c₁.inputs op).rb = c₁.arf (remap B) := by
      rw [hop]
      exact if_neg hB
    have himpl : rest.withWords.withImpl op (c₁.inputs op) = ctzclzop reverse op (c₁.inputs op) := by
      rw [hop]
      cases reverse <;> rfl
    have hsize : op.size = rd.sizeshift := by rw [hop]; rfl
    rw [himpl, hv, ← hra, ← hrb]
    unfold ctzclzop
    rw [hsize]
  have hinv : (if v = 0 then FLAG_ZF else 0) &&& FLAG_INV = (0 : W16) := by
    split <;> decide
  have hset : op.setflags = .default := by rw [hop]; rfl
  have hrdop : op.rd = rd.arch := by rw [hop]; rfl
  rw [← hop]
  refine Triples.wp_mono (wp_result_flags hmem (by rw [hop]; rfl) (by rw [hop]; rfl) (by rw [hop]; rfl) h₁.ready
    (by rw [hrdop]; exact rd.writable) hexec hinv) ?_
  rintro c' ⟨hl, hdata, hflags⟩
  rw [hset] at hflags
  rw [hrdop] at hl hdata
  rw [h₁.bytes] at hl
  -- the source has the size of the destination, but not by definition
  obtain ⟨hzero, hscan⟩ := scan_congr size reverse hvalue
  rw [← hv] at hzero hscan
  have hleft : Leaves ((rs ++ [Reg.flags]) ++ [rd.arch]) c.space.bytes c c' := (h₁.trans hl).mono (by simp)
  have htemps : Temps (rs ++ [Reg.flags]) := fun r hr => by
    rcases List.mem_append.1 hr with hmem | hmem
    · exact hrs r hmem
    · exact .inr (List.mem_singleton.1 hmem)
  refine ⟨⟨(scanIndex reverse v).toNat, fun hne => ?_, ?_⟩, ?_, fun i hi => ?_⟩
  · refine hscan _ ?_
    exact isScan_scanIndex reverse (opWidth_le rd.sizeshift_le) fun h0 => hne (hzero.1 h0)
  · refine written_of_merge hlow htemps hleft ?_
    have hindex : BitVec.ofNat (opWidth rd.sizeshift) (scanIndex reverse v).toNat = scanIndex reverse v := by
      rw [BitVec.ofNat_toNat, BitVec.setWidth_eq]
    rw [hdata]
    exact congrArg (fun x : BitVec (opWidth rd.sizeshift) => x86Merge rd.sizeshift (c.arf rd.arch) (x.setWidth 64)) hindex.symm
  · have hmask : (setflagsToX86Flags .default).getLsbD 6 = true := by decide
    rw [hflags 6, hmask, if_pos rfl, decide_eq_decide.2 hzero.symm]
    by_cases h0 : v = 0
    · rw [if_pos h0, decide_eq_true h0]
      show FLAG_ZF.getLsbD 6 = true
      decide
    · rw [if_neg h0, decide_eq_false h0]
      show (0 : W16).getLsbD 6 = false
      decide
  · have hmask : (setflagsToX86Flags .default).getLsbD i = false := by
      rw [AluInsn.mask_bit]
      split
      all_goals first | rfl | exact absurd (by decide) hi
    rw [hflags i, hmask, if_neg Bool.false_ne_true, h₁.arf Reg.flags hkeep]

/-- A scan of a register. -/
theorem wp_scanRegister (h : c.Ready) {reverse : Bool} {rd r : Apr} (wide : 1 ≤ rd.sizeshift)
    (size : (Operand.reg r).sizeshift = rd.sizeshift) :
    Wp rest.withWords.withImpl ((scan reverse rd (.reg r) wide size).decode pfx rip)
      (Scanned pfx rip c reverse rd ((Operand.reg r).value pfx rip c)) c := by
  have hsize : r.sizeshift = rd.sizeshift := size
  have hlow : rd.hibyte = false ∧ r.hibyte = false := ⟨low_of_wide wide, low_of_wide (hsize ▸ wide)⟩
  have hxor : ¬scanop reverse = .opXor := by cases reverse <;> decide
  have hops : (scan reverse rd (.reg r) wide size).decode pfx rip =
      [.init (scanop reverse) rd.arch rd.arch r.arch Reg.zero rd.sizeshift 0 0 .default] := by
    unfold decode aluRegOrMem RegImm.hibyte
    simp [hlow.1, hlow.2, hxor, RegImm.srcreg, RegImm.rbimm]
  rw [hops]
  refine wp_scan rest wide size (by decide) List.not_mem_nil (Leaves.refl h) (r.arch_ne (by decide)) ?_
  rw [remap_of_lt (lt_trans r.arch_lt (by decide))]
  exact (ImulInsn.read_of_low hlow.2 _).symm

theorem decode_scanMemory {reverse : Bool} {rd : Apr} {o : X86Operand} {n : Fin 4} (wide : 1 ≤ rd.sizeshift)
    (size : (Operand.mem o n).sizeshift = rd.sizeshift) : (scan reverse rd (.mem o n) wide size).decode pfx rip =
      operandLoad pfx rip Reg.temp0 (o.memRef n) .opLd ++
        [.init (scanop reverse) rd.arch rd.arch Reg.temp0 Reg.zero rd.sizeshift 0 0 .default] := by
  have hlow : rd.hibyte = false := low_of_wide wide
  unfold decode aluRegMem
  simp [hlow]

/-- A scan of memory, which is loaded to `temp0`. -/
theorem wp_scanMemory (h : c.Ready) {reverse : Bool} {rd : Apr} {o : X86Operand} {n : Fin 4} (wide : 1 ≤ rd.sizeshift)
    (size : (Operand.mem o n).sizeshift = rd.sizeshift) (hacc : (Operand.mem o n).Accessible pfx rip c false) :
    Wp rest.withWords.withImpl ((scan reverse rd (.mem o n) wide size).decode pfx rip)
      (Scanned pfx rip c reverse rd ((Operand.mem o n).value pfx rip c)) c := by
  obtain ⟨hctx, hload, -⟩ := hacc
  have hw : Writable Reg.temp0 := ⟨by decide, by decide, by decide⟩
  have h0 : remap Reg.temp0 = Reg.temp0 := by decide
  have hn : n.val ≤ 3 := Nat.le_of_lt_succ n.isLt
  rw [decode_scanMemory wide size]
  refine Triples.wp_append (Triples.wp_mono (wp_operandLoad pfx rip Reg.temp0 o n rest.withWords h hctx
    (show isload .opLd = true by decide) hn hw hload) ?_)
  rintro c₁ ⟨h₁, hv₁, -⟩
  refine wp_scan rest wide size (by decide) (by decide) h₁ (by decide) ?_
  rw [h0, hv₁]
  show ((loadBytes _ _ _).setWidth 64).setWidth (opWidth n) = _
  rw [BitVec.setWidth_setWidth_of_le _ (opWidth_le hn), BitVec.setWidth_eq]
  rfl

/-- One bit at most is found. -/
theorem IsScan.unique {reverse : Bool} {w n m : ℕ} {v : BitVec w} (h : IsScan reverse v n) (h' : IsScan reverse v m) :
    n = m := by
  have hle := h.2 m h'.1
  have hge := h'.2 n h.1
  cases reverse with
  | false => exact Nat.le_antisymm hle hge
  | true => exact Nat.le_antisymm hge hle

/-- A scan of one value is a scan of another just if the same bit is found. -/
theorem Scanned.iff {reverse : Bool} {rd : Apr} {s : ℕ} (size : s = rd.sizeshift) {v v' : BitVec (opWidth s)}
    {c' : SeqCore} (h : Scanned pfx rip c reverse rd v c') :
    Scanned pfx rip c reverse rd v' c' ↔ SameScan reverse v v' := by
  subst size
  obtain ⟨⟨n, hn, hwritten⟩, hzf, hother⟩ := h
  have hfound : ∀ x : BitVec (opWidth rd.sizeshift), x ≠ 0 ↔ ∃ k, IsScan reverse x k := fun x =>
    ⟨fun hx => ⟨_, isScan_scanIndex reverse (opWidth_le rd.sizeshift_le) hx⟩, fun ⟨k, hk, _⟩ hx => by
      rw [hx] at hk
      exact absurd hk (by simp)⟩
  constructor
  · rintro ⟨⟨n', hn', hwritten'⟩, hzf', -⟩
    have hboth : v = 0 ↔ v' = 0 := decide_eq_decide.1 (hzf.symm.trans hzf')
    by_cases h0 : v = 0
    · rw [h0, hboth.1 h0]
      exact fun _ => Iff.rfl
    -- the one index was written for both
    have hv := hn h0
    have hv' := hn' fun h => h0 (hboth.2 h)
    have hsmall : ∀ {x : BitVec (opWidth rd.sizeshift)} {k : ℕ}, IsScan reverse x k → k < 2 ^ opWidth rd.sizeshift :=
      fun hx => lt_trans (BitVec.lt_of_getLsbD hx.1) Nat.lt_two_pow_self
    have hsame : BitVec.ofNat (opWidth rd.sizeshift) n = BitVec.ofNat _ n' := hwritten.x86_iff.1 hwritten'
    have hnat := congrArg BitVec.toNat hsame
    rw [BitVec.toNat_ofNat, BitVec.toNat_ofNat, Nat.mod_eq_of_lt (hsmall hv), Nat.mod_eq_of_lt (hsmall hv')] at hnat
    subst hnat
    intro m
    constructor
    · intro hm
      rwa [hm.unique hv]
    · intro hm
      rwa [hm.unique hv']
  · intro hsame
    have hboth : v = 0 ↔ v' = 0 := by
      rw [← not_iff_not, ← ne_eq, ← ne_eq, hfound, hfound]
      exact exists_congr hsame
    refine ⟨⟨n, fun hne => (hsame n).1 (hn fun h => hne (hboth.1 h)), hwritten⟩, ?_, hother⟩
    rw [hzf, decide_eq_decide.2 hboth]

/-- So a scan of memory does what x86 says just if it is found where the uops load. -/
theorem scanMemory_iff (h : c.Ready) {reverse : Bool} {rd : Apr} {o : X86Operand} {n : Fin 4} (wide : 1 ≤ rd.sizeshift)
    (size : (Operand.mem o n).sizeshift = rd.sizeshift) (hacc : (Operand.mem o n).X86Accessible pfx rip c false) :
    Wp rest.withWords.withImpl ((scan reverse rd (.mem o n) wide size).decode pfx rip)
      ((scan reverse rd (.mem o n) wide size).Right pfx rip c) c ↔
      (scan reverse rd (.mem o n) wide size).Exact pfx rip c := by
  have hnonempty : Nonempty (ℕ → Sfr) := ⟨fun _ => Frame.Sfr.zero⟩
  by_cases hok : (Operand.mem o n).Accessible pfx rip c false
  · refine (Triples.wp_iff (wp_scanMemory rest h wide size hok) fun c' hscanned => hscanned.iff size).trans ?_
    exact (and_iff_right hok).symm
  · refine iff_of_false ?_ fun hexact => hok hexact.1
    rw [decode_scanMemory wide size]
    exact not_wp_loadOperand pfx rip Reg.temp0 o n rest.withWords h hacc.1 true (show isload .opLd = true by decide)
      (Nat.le_of_lt_succ n.isLt) ⟨by decide, by decide, by decide⟩ _ fun hload => hok ⟨hacc.1, hload, nofun⟩

/-- Each byte of a byte swap is the one as far from the other end. -/
theorem swapped_byteswap {size : ℕ} (hsize : size ≤ 3) (v : BitVec (opWidth size)) : Swapped v (byteswap (2 ^ size) v) := by
  intro i hi
  have h8 : i < 8 := lt_of_lt_of_le hi (Nat.pow_le_pow_right (by decide) hsize)
  unfold byteswap
  rw [← ByteMask.byteAt_ofBytes (fun i => ByteMask.byteAt (v.setWidth 64) (2 ^ size - 1 - i)) h8]
  apply BitVec.eq_of_getLsbD_eq
  intro k hk
  have hlt : 8 * i + k < opWidth size := by
    show _ < 8 * 2 ^ size
    omega
  simp only [ByteMask.byteAt, BitVec.getLsbD_extractLsb', BitVec.getLsbD_setWidth, hk, decide_true, Bool.true_and]
  rw [decide_eq_true (lt_of_lt_of_le hlt (opWidth_le hsize)), decide_eq_true (show 8 * i + k < 8 * 2 ^ size from hlt)]
  simp

/-- A uop that writes one register by a merge and no flags does what x86 says of it. -/
theorem wp_merge {exec : Synthop} {op : TransOp} {p : Apr} (h : c.Ready) (hlow : p.hibyte = false) (hrd : op.rd = p.arch)
    (hmem : isMem op = false) (hsse : op.isSse = false) (hx87 : op.isX87 = false) (hset : op.setflags = .none)
    (hno : op.nouserflags = false) {v : BitVec (opWidth p.sizeshift)}
    (hdata : (exec op (c.inputs op)).rddata = x86Merge p.sizeshift (c.arf p.arch) (v.setWidth 64))
    (hinv : (exec op (c.inputs op)).rdflags &&& FLAG_INV = 0) : Wp exec [op] (fun c' =>
      (Operand.reg p).Written pfx rip c v c' ∧ c'.arf Reg.flags = c.arf Reg.flags) c := by
  refine Triples.wp_mono (MulDiv.wp_silent hmem hsse hx87 hset hno h (by rw [hrd]; exact p.writable) rfl hinv) ?_
  rintro c' ⟨hl, hv, -⟩
  rw [hrd] at hl hv
  have hleft : Leaves ([] ++ [p.arch]) c.space.bytes c c' := hl
  have hne : Reg.flags ∉ [p.arch] := by
    rw [List.mem_singleton]
    exact (p.arch_ne (by decide)).symm
  exact ⟨written_of_merge hlow (by decide) hleft (hv.trans hdata), hl.arf _ hne⟩

/-- A byte swap. -/
theorem wp_bswap (h : c.Ready) {rd : Apr} (wide : 2 ≤ rd.sizeshift) :
    Wp rest.withWords.withImpl ((bswap rd wide).decode pfx rip) ((bswap rd wide).Right pfx rip c) c := by
  obtain ⟨op, hop⟩ : ∃ op : TransOp, op = .mk3 .opBswap rd.arch (if rd.sizeshift ≥ 2 then Reg.zero else rd.arch) rd.arch
    Reg.zero rd.sizeshift 0 := ⟨_, rfl⟩
  have hlow : rd.hibyte = false := low_of_wide (Nat.le_of_succ_le wide)
  have hclass : (isload .opBswap || isstore .opBswap) = false := by decide
  have hsize : op.size = rd.sizeshift := by rw [hop]; rfl
  have hrb : (c.inputs op).rb = c.arf rd.arch := by
    rw [hop]
    show (if rd.arch = Reg.imm then _ else c.arf (remap rd.arch)) = _
    rw [if_neg (rd.arch_ne (by decide)), remap_of_lt (lt_trans rd.arch_lt (by decide))]
  have hexec : rest.withWords.withImpl op (c.inputs op) = bswapop op (c.inputs op) := by
    rw [hop]
    rfl
  have hdata : (rest.withWords.withImpl op (c.inputs op)).rddata = x86Merge rd.sizeshift (c.arf rd.arch)
      ((byteswap (2 ^ rd.sizeshift) (rd.read (c.arf rd.arch))).setWidth 64) := by
    rw [hexec, ImulInsn.read_of_low hlow, ← hrb]
    unfold bswapop
    rw [hsize, if_pos wide]
    exact x86Merge_wide wide rd.sizeshift_le _ _ _
  have hinv : (rest.withWords.withImpl op (c.inputs op)).rdflags &&& FLAG_INV = 0 := by
    have hflags : (bswapop op (c.inputs op)).rdflags = 0 := by simp [bswapop, aluResult, SetFlags.none]
    rw [hexec, hflags]
    decide
  have hrun := @wp_merge pfx rip c rest.withWords.withImpl op rd h hlow (by rw [hop]; rfl) (by rw [hop]; exact hclass)
    (by rw [hop]; rfl) (by rw [hop]; rfl) (by rw [hop]; rfl) (by rw [hop]; rfl) _ hdata hinv
  rw [hop] at hrun
  exact Triples.wp_mono hrun fun c' h' => ⟨⟨_, swapped_byteswap rd.sizeshift_le _, h'.1⟩, h'.2⟩

/-! ### Sign extensions -/

/-- The sign extension of a word is that of its low bits. -/
theorem signext64_eq {n : ℕ} (hpos : 0 < n) (hn : n ≤ 64) (x : W64) : signext64 x n = (x.setWidth n).signExtend 64 := by
  have hshift : x <<< (64 - n) = ((x.setWidth n).setWidth 64) <<< (64 - n) := by
    apply BitVec.eq_of_getLsbD_eq
    intro i hi
    rw [BitVec.getLsbD_shiftLeft, BitVec.getLsbD_shiftLeft, BitVec.getLsbD_setWidth, BitVec.getLsbD_setWidth]
    by_cases hlow : i < 64 - n
    · simp [hlow]
    · rw [decide_eq_true (show i - (64 - n) < 64 by omega), decide_eq_true (show i - (64 - n) < n by omega), Bool.true_and,
        Bool.true_and]
  rw [← signext64_setWidth hpos hn]
  unfold signext64
  rw [hshift]

theorem rotateRight_zero {w : ℕ} (x : BitVec w) : x.rotateRight 0 = x := by
  rw [BitVec.rotateRight_def, Nat.zero_mod, Nat.sub_zero]
  simp

/-- The mask uop extends the sign of the low half. -/
theorem expMask_extendLow {s : ℕ} (hs : s ≤ 2) (i : UopInputs) (hrc : i.rc = maskControlInfo 0 ((1 <<< s) * 8) 0) :
    (expMask (.extendLow s) i).rddata = x86Merge (s + 1) i.ra
      ((((i.rb.setWidth (opWidth s)).signExtend (opWidth (s + 1)) : BitVec (opWidth (s + 1)))).setWidth 64) := by
  have hnat : i.rc.toNat % 64 = 0 ∧ i.rc.toNat / 2 ^ 6 % 64 = opWidth s ∧ i.rc.toNat / 2 ^ 12 % 64 = 0 := by
    rw [hrc]
    interval_cases s <;> decide
  have hmask : ((bitmask (opWidth s)).setWidth (opWidth (s + 1))).setWidth 64 = (BitVec.allOnes (opWidth s)).setWidth 64 := by
    interval_cases s <;> decide
  have hle : opWidth s ≤ opWidth (s + 1) ∧ opWidth (s + 1) ≤ 64 := by
    constructor
    · exact Nat.mul_le_mul_left 8 (Nat.pow_le_pow_right (by decide) (Nat.le_succ s))
    · exact opWidth_le (by omega)
  have hdata : (expMask (.extendLow s) i).rddata = x86Merge (s + 1) i.ra (signext64
      ((i.ra &&& ~~~((BitVec.allOnes (opWidth s)).setWidth 64)) |||
        ((i.rb.setWidth (opWidth (s + 1))).setWidth 64 &&& (BitVec.allOnes (opWidth s)).setWidth 64)) (opWidth s)) := by
    have hcond : (TransOp.extendLow s).cond = 2 := rfl
    unfold expMask
    simp only [hnat, hcond, rotateRight_zero, Nat.zero_add, if_true, if_neg (show ¬2 = 1 by decide)]
    rw [← hmask]
    rfl
  rw [hdata, signext64_eq (opWidth_pos s) (le_trans hle.1 hle.2), setWidth_merge,
    BitVec.setWidth_setWidth_of_le _ (le_trans hle.1 hle.2), BitVec.setWidth_setWidth_of_le _ hle.1]
  refine x86Merge_congr (by omega) _ ?_
  rw [BitVec.setWidth_setWidth_of_le _ hle.2, BitVec.setWidth_eq]
  -- an extension to more bits and one to fewer agree on those
  apply BitVec.eq_of_getLsbD_eq
  intro k hk
  rw [BitVec.getLsbD_setWidth, BitVec.getLsbD_signExtend, BitVec.getLsbD_signExtend, decide_eq_true hk,
    decide_eq_true (lt_of_lt_of_le hk hle.2), Bool.true_and]

/-- The sign extension of `al`, `ax` or `eax`. -/
theorem wp_extendLow (h : c.Ready) {s : ℕ} (hs : s ≤ 2) : Wp rest.withWords.withImpl [.extendLow s] (fun c' =>
    (Operand.reg (.ofSize 0 (s + 1))).Written pfx rip c (((c.arf Reg.rax).setWidth (opWidth s)).signExtend _) c' ∧
      c'.arf Reg.flags = c.arf Reg.flags) c := by
  have hrax : remap Reg.rax = Reg.rax := by decide
  have hmem : isMem (.extendLow s) = false := by
    have hclass : (isload .opMaskb || isstore .opMaskb) = false := by decide
    exact hclass
  have hra : s + 1 < 3 → (c.inputs (.extendLow s)).ra = c.arf Reg.rax := by
    intro hlt
    show c.arf (remap (if s + 1 < 3 then Reg.rax else Reg.zero)) = _
    rw [if_pos hlt, hrax]
  have hrb : (c.inputs (.extendLow s)).rb = c.arf Reg.rax := by
    have himm : Reg.rax ≠ Reg.imm := by decide
    show (if Reg.rax = Reg.imm then (0 : W64) else c.arf (remap Reg.rax)) = _
    rw [if_neg himm, hrax]
  have hmerge : ∀ u : W64, x86Merge (s + 1) (c.inputs (.extendLow s)).ra u = x86Merge (s + 1) (c.arf Reg.rax) u := by
    intro u
    -- `rax` or zero is merged into, and from four bytes on neither is left
    by_cases hlt : s + 1 < 3
    · rw [hra hlt]
    · exact x86Merge_wide (by omega) (by omega) _ _ _
  have hdata := expMask_extendLow hs (c.inputs (.extendLow s)) rfl
  rw [hmerge, hrb] at hdata
  interval_cases s
  all_goals exact wp_merge h rfl rfl hmem rfl rfl rfl rfl hdata (expMask_inv _ _)

/-- The top bit of `ax`, `eax` or `rax`. -/
def sign (s : ℕ) (c : SeqCore) : Bool := ((c.arf Reg.rax).setWidth (opWidth s)).msb

/-- The test puts it in the carry of `temp0`. -/
theorem wp_testSign (h : c.Ready) {s : ℕ} (h1 : 1 ≤ s) (h3 : s ≤ 3) : Wp rest.withWords.withImpl [.testSign s] (fun c' =>
    Leaves [Reg.temp0] c.space.bytes c c' ∧ c'.arflags Reg.temp0 = carryWord (sign s c)) c := by
  have hw : Writable Reg.temp0 := ⟨by decide, by decide, by decide⟩
  have hrax : remap Reg.rax = Reg.rax := by decide
  have hmem : isMem (.testSign s) = false := by
    have hclass : (isload .opBt || isstore .opBt) = false := by decide
    exact hclass
  have hra : (c.inputs (.testSign s)).ra = c.arf Reg.rax := congrArg c.arf hrax
  have hnumber : bitNumber (((c.inputs (.testSign s)).rb.setWidth (opWidth s))) = opWidth s - 1 := by
    show bitNumber ((BitVec.ofNat 64 ((1 <<< s) * 8 - 1)).setWidth (opWidth s)) = _
    interval_cases s <;> decide
  have hexec : rest.withWords.withImpl (.testSign s) (c.inputs (.testSign s)) =
      bitop expBt (.testSign s) (c.inputs (.testSign s)) := rfl
  have hcarry : (bitop expBt (.testSign s) (c.inputs (.testSign s))).rdflags = carryWord (sign s c) := by
    show carryWord (((c.inputs (.testSign s)).ra.setWidth (opWidth s)).getLsbD
      (bitNumber (((c.inputs (.testSign s)).rb.setWidth (opWidth s))))) = _
    rw [hnumber, hra]
    unfold sign
    rw [BitVec.msb_eq_getLsbD_last]
  refine Triples.wp_mono (wp_result_quiet hmem rfl rfl rfl h hw hexec ?_) fun c' h' => ⟨h'.1, h'.2.2.trans hcarry⟩
  rw [hcarry]
  exact carryWord_inv _

/-- The select makes a word of it. -/
theorem wp_selectSign (h : c.Ready) {b : Bool} (hcarry : c.arflags Reg.temp0 = carryWord b)
    (himm : c.arflags Reg.imm &&& FLAG_INV = 0) : Wp rest.withWords.withImpl [.selectSign] (fun c' =>
      Leaves [Reg.temp0] c.space.bytes c c' ∧ c'.arf Reg.temp0 = (if b then -1 else 0) ∧
        c'.arflags Reg.temp0 &&& FLAG_INV = 0) c := by
  have hw : Writable Reg.temp0 := ⟨by decide, by decide, by decide⟩
  have hremap : remap Reg.zero = Reg.zero ∧ remap Reg.imm = Reg.imm ∧ remap Reg.temp0 = Reg.temp0 := by decide
  have hmem : isMem .selectSign = false := by
    have hclass : (isload .opSel || isstore .opSel) = false := by decide
    exact hclass
  have hcond : evaluateCond .c (carryWord b) (carryWord b) = b := by cases b <;> decide
  have hcode : Cond.ofCode Cond.c.code = .c := by decide
  have hexec : rest.withWords.withImpl .selectSign (c.inputs .selectSign) =
      ⟨if b then -1 else 0, if b then c.arflags Reg.imm else 0⟩ := by
    show sel (.ofCode Cond.c.code) 3 (c.inputs .selectSign) = _
    have hrc : (c.inputs .selectSign).rcflags = carryWord b := (congrArg c.arflags hremap.2.2).trans hcarry
    have hra : (c.inputs .selectSign).ra = 0 ∧ (c.inputs .selectSign).raflags = 0 :=
      ⟨(congrArg c.arf hremap.1).trans h.zero, (congrArg c.arflags hremap.1).trans h.zeroFlags⟩
    have hrb : (c.inputs .selectSign).rb = -1 ∧ (c.inputs .selectSign).rbflags = c.arflags Reg.imm :=
      ⟨rfl, congrArg c.arflags hremap.2.1⟩
    unfold sel
    simp only [hcode, hrc, hcond, hra, hrb]
    rfl
  have hinv : (if b then c.arflags Reg.imm else 0) &&& FLAG_INV = (0 : W16) := by
    cases b with
    | true => exact himm
    | false => exact (by decide : (0 : W16) &&& FLAG_INV = 0)
  refine Triples.wp_mono (MulDiv.wp_silent hmem rfl rfl rfl rfl h hw hexec hinv) fun c' h' => ⟨h'.1, h'.2.1, ?_⟩
  exact (congrArg (· &&& FLAG_INV) h'.2.2).trans hinv

/-- The sign in all of `dx`, `edx` or `rdx`. -/
theorem wp_cwdWords (h : c.Ready) (himm : c.arflags Reg.imm &&& FLAG_INV = 0) {s : ℕ} (h1 : 1 ≤ s) (h3 : s ≤ 3) :
    Wp rest.withWords.withImpl [.testSign s, .selectSign,
        .mk3 .opMov Reg.rdx (if s < 2 then Reg.rdx else Reg.zero) Reg.temp0 Reg.zero s 0] (fun c' =>
      (Operand.reg (.ofSize 2 s)).Written pfx rip c (if sign s c then -1 else 0) c' ∧
        c'.arf Reg.flags = c.arf Reg.flags) c := by
  have hw : Writable Reg.rdx := ⟨by decide, by decide, by decide⟩
  have hremap : remap Reg.rdx = Reg.rdx ∧ remap Reg.temp0 = Reg.temp0 := by decide
  refine Triples.wp_cons (Triples.wp_mono (wp_testSign rest h h1 h3) ?_)
  rintro c₁ ⟨hl₁, hcarry⟩
  refine Triples.wp_cons (Triples.wp_mono (wp_selectSign rest hl₁.ready hcarry ?_) ?_)
  · rw [hl₁.arflags _ (by decide)]
    exact himm
  rintro c₂ ⟨hl₂, hword, hinv⟩
  refine Triples.wp_mono (MulDiv.wp_mov rest.withWords hl₂.ready hw (if s < 2 then Reg.rdx else Reg.zero) (by decide) s ?_) ?_
  · rw [hremap.2]
    exact hinv
  rintro c₃ ⟨hl₃, hvalue, -⟩
  rw [hl₁.bytes] at hl₂
  rw [hl₂.bytes] at hl₃
  have hl : Leaves ([Reg.temp0, Reg.temp0] ++ [Reg.rdx]) c.space.bytes c c₃ := (hl₁.trans (hl₂.trans hl₃)).mono (by decide)
  have hold : c₂.arf Reg.rdx = c.arf Reg.rdx := by rw [hl₂.arf _ (by decide), hl₁.arf _ (by decide)]
  have hdata : c₃.arf Reg.rdx = x86Merge s (c.arf Reg.rdx) (((if sign s c then -1 else 0 : BitVec (opWidth s))).setWidth 64) := by
    have hmerge : c₃.arf Reg.rdx = x86Merge s (c.arf Reg.rdx) (if sign s c then -1 else 0) := by
      rw [hvalue, hremap.2, hword]
      by_cases hs : s < 2
      · rw [if_pos hs, hremap.1, hold]
      · exact x86Merge_wide (by omega) h3 _ _ _
    rw [hmerge]
    refine x86Merge_congr h3 _ ?_
    rw [BitVec.setWidth_setWidth_of_le _ (opWidth_le h3), BitVec.setWidth_eq]
    cases sign s c with
    | true => interval_cases s <;> decide
    | false => interval_cases s <;> decide
  refine ⟨?_, by rw [hl₃.arf _ (by decide), hl₂.arf _ (by decide), hl₁.arf _ (by decide)]⟩
  interval_cases s
  all_goals exact written_of_merge (p := .ofSize 2 _) rfl (by decide) hl hdata

/-- **When an instruction on words does what x86 says.** -/
theorem decode_iff (insn : WordInsn) (h : c.Ready) (himm : c.arflags Reg.imm &&& FLAG_INV = 0)
    (hacc : insn.Accessible pfx rip c) :
    Wp rest.withWords.withImpl (insn.decode pfx rip) (insn.Right pfx rip c) c ↔ insn.Exact pfx rip c := by
  cases insn with
  | scan reverse rd ra wide size =>
    cases ra with
    | reg r => exact iff_of_true (wp_scanRegister rest h wide size) ⟨trivial, fun _ => Iff.rfl⟩
    | mem o n => exact scanMemory_iff rest h wide size hacc
  | bswap rd wide => exact iff_of_true (wp_bswap rest h wide) trivial
  | cbw mode64 =>
    refine iff_of_true (wp_extendLow rest h ?_) trivial
    unfold cbwShift
    split
    · omega
    · split <;> omega
  | cwd mode64 =>
    have hs : 1 ≤ cwdShift pfx mode64 ∧ cwdShift pfx mode64 ≤ 3 := by
      unfold cwdShift
      split
      · omega
      · split <;> omega
    exact iff_of_true (wp_cwdWords rest h himm hs.1 hs.2) trivial

end WordInsn

end X86Sim
