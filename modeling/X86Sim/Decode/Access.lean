import X86Sim.Decode.AddressRight
import X86Sim.Seq.Perform

/-!
# Operands in memory (`decode-core.cpp`)

`operand_load` and `result_store` generate the address of an operand and access it. The
temporaries of the address and of a split access are all they leave besides. They access the
address the uops compute, which is the effective address of x86 just where `memRight` says.
-/

namespace X86Sim

open X86Sim.Seq X86Sim.Seq.SeqCore ByteMask

/-- No prefixes. -/
def Prefixes.plain : Prefixes := ⟨false, false, false, false, false, false, false, false⟩

/-- `operand_load`. -/
def operandLoad (pfx : Prefixes) (rip : W64) (destreg : Reg) (memref : MemRef) (opcode : Opcode) : List TransOp :=
  addressGenerate pfx rip destreg Reg.zero memref opcode true false

/-- `operand_load` of a datatype that is not an integer's. -/
def fpLoad (pfx : Prefixes) (rip : W64) (destreg : Reg) (memref : MemRef) (opcode : Opcode) : List TransOp :=
  addressGenerate pfx rip destreg Reg.zero memref opcode false false

/-- `result_store`. -/
def resultStore (pfx : Prefixes) (rip : W64) (srcreg : Reg) (memref : MemRef) : List TransOp :=
  addressGenerate pfx rip Reg.mem srcreg memref .opSt true false

/-- A register or memory operand, the latter of `2 ^ size` bytes. -/
inductive Operand
  | reg (r : Apr) | mem (o : X86Operand) (size : Fin 4)
  deriving DecidableEq

/-- The little-endian value of the bytes at `a`. -/
def loadBytes (m : ℕ → Byte) (a size : ℕ) : BitVec (opWidth size) :=
  (ofBytes fun i => m (byteAddr a i)).setWidth (opWidth size)

/-- The canonical address of a sum. -/
def canonicalAddr (v : W64) : ℕ := ((v.setWidth 48).signExtend 64).toNat

/-- The bytes of an operand may be loaded, or stored. -/
def Accessible (c : SeqCore) (store : Bool) (a size : ℕ) : Prop :=
  ∀ i < 2 ^ size, c.space.check (byteAddr a i) ⟨!store, store, false⟩ = true

namespace Operand

/-- The size of the operand. -/
def sizeshift : Operand → ℕ
  | reg r => r.sizeshift | mem _ size => size

theorem sizeshift_le (d : Operand) : d.sizeshift ≤ 3 := by
  cases d with
  | reg r => exact r.sizeshift_le
  | mem o size => exact Nat.le_of_lt_succ size.isLt

/-- The address an operand is accessed at by the uops. -/
def address (pfx : Prefixes) (c : SeqCore) (rip : W64) (o : X86Operand) : ℕ := canonicalAddr (accessValue pfx c rip o)

variable (d : Operand) (pfx : Prefixes) (rip : W64) (c : SeqCore)

/-- The value the uops load. -/
def value : BitVec (opWidth d.sizeshift) :=
  match d with
  | reg r => r.read (c.arf r.arch)
  | mem o size => loadBytes c.space.bytes (address pfx c rip o) size

/-- An operand in memory may be loaded and, if `store`, stored, where the uops do. -/
def Accessible (store : Bool) : Prop :=
  match d with
  | reg _ => True
  | mem o size => HostCtx c ∧ X86Sim.Accessible c false (address pfx c rip o) size ∧
    (store = true → X86Sim.Accessible c true (address pfx c rip o) size)

/-- `v` is written where the uops write the operand, and nothing else but flags. -/
def Written (v : BitVec (opWidth d.sizeshift)) (c' : SeqCore) : Prop :=
  match d with
  | reg p => (∀ r : Reg, r.isArch = true → r ≠ Reg.flags →
      c'.arf r = if r = p.arch then p.write (c.arf r) v else c.arf r) ∧ c'.space.bytes = c.space.bytes
  | mem o size => (∀ r : Reg, r.isArch = true → r ≠ Reg.flags → c'.arf r = c.arf r) ∧
    c'.space.bytes = storeBytewise (address pfx c rip o) (v.setWidth 64) c.space.bytes (2 ^ size.val)

/-! ### What x86 says -/

/-- The effective address of an operand. -/
def effective (o : X86Operand) : ℕ := canonicalAddr (o.address pfx c rip)

/-- The value of the operand. -/
def x86Value : BitVec (opWidth d.sizeshift) :=
  match d with
  | reg r => r.read (c.arf r.arch)
  | mem o size => loadBytes c.space.bytes (effective pfx rip c o) size

/-- The operand may be loaded and, if `store`, stored. -/
def X86Accessible (store : Bool) : Prop :=
  match d with
  | reg _ => True
  | mem o size => HostCtx c ∧ X86Sim.Accessible c false (effective pfx rip c o) size ∧
    (store = true → X86Sim.Accessible c true (effective pfx rip c o) size)

/-- `v` is written to the operand, and nothing else but flags. -/
def X86Written (v : BitVec (opWidth d.sizeshift)) (c' : SeqCore) : Prop :=
  match d with
  | reg p => (∀ r : Reg, r.isArch = true → r ≠ Reg.flags →
      c'.arf r = if r = p.arch then p.write (c.arf r) v else c.arf r) ∧ c'.space.bytes = c.space.bytes
  | mem o size => (∀ r : Reg, r.isArch = true → r ≠ Reg.flags → c'.arf r = c.arf r) ∧
    c'.space.bytes = storeBytewise (effective pfx rip c o) (v.setWidth 64) c.space.bytes (2 ^ size.val)

/-- To write `v'` where the uops do and `v` where x86 does is the same. -/
def SameWrite (v' v : BitVec (opWidth d.sizeshift)) : Prop :=
  match d with
  | reg _ => v' = v
  | mem o size => storeBytewise (address pfx c rip o) (v'.setWidth 64) c.space.bytes (2 ^ size.val) =
      storeBytewise (effective pfx rip c o) (v.setWidth 64) c.space.bytes (2 ^ size.val)

/-- The uops access the operand where x86 does: a register, or memory at its effective address. -/
def Agrees : Prop :=
  match d with
  | reg _ => True
  | mem o _ => address pfx c rip o = effective pfx rip c o

end Operand

/-! ### Frames -/

section Frame

variable {c c' : SeqCore} {op : TransOp} {exec : Synthop} {rs : List Reg}

theorem writable_temp1 : Writable Reg.temp1 := ⟨by decide, by decide, by decide⟩

/-- A uop that writes a register of `rs` and no flags. -/
structure Writes (rs : List Reg) (op : TransOp) : Prop where
  mem : op.rd ∈ rs
  store : isstore op.opcode = false
  setflags : op.setflags = .none
  nouserflags : op.nouserflags = false
  writable : Writable op.rd

/-- A result with flags leaves all but its register and the flags. -/
theorem writeResult_leaves_flags (h : c.Ready) (hw : Writable op.rd) (hno : op.nouserflags = false) (reg : UopResult) :
    Leaves [op.rd, Reg.flags] c.space.bytes c (c.writeResult op reg) := by
  refine ⟨fun r hr => ?_, fun r hr => ?_, by rw [writeResult_space], by rw [writeResult_space], writeResult_ctx,
    h.writeResult hw.flags hw.zero hw.trace hno⟩
  · simp only [List.mem_cons, List.not_mem_nil, or_false, not_or] at hr
    exact writeResult_arf hr.1 hr.2
  · simp only [List.mem_cons, List.not_mem_nil, or_false, not_or] at hr
    exact writeResult_arflags hr.1 hr.2

/-- A result that leaves the user's flags. -/
theorem writeResult_leaves_quiet (h : c.Ready) (hw : Writable op.rd) (hno : op.nouserflags = true) (reg : UopResult) :
    Leaves [op.rd] c.space.bytes c (c.writeResult op reg) := by
  have heq : c.writeResult op reg =
      { c.setArf op.rd reg.rddata with arflags := Function.update c.arflags op.rd reg.rdflags } := by
    unfold SeqCore.writeResult
    dsimp only
    rw [if_pos hno]
  rw [heq]
  refine ⟨fun r hr => ?_, fun r hr => ?_, rfl, rfl, rfl, ⟨?_, ?_, ?_, ?_⟩⟩
  · exact Function.update_of_ne (fun h => hr (List.mem_singleton.2 h)) _ _
  · exact Function.update_of_ne (fun h => hr (List.mem_singleton.2 h)) _ _
  · exact (Function.update_of_ne hw.zero.symm _ _).trans h.zero
  · exact (Function.update_of_ne hw.trace.symm _ _).trans h.trace
  · exact (Function.update_of_ne hw.zero.symm _ _).trans h.zeroFlags
  · refine (Function.update_of_ne hw.flags.symm _ _).trans (h.flags.trans ?_)
    exact congrArg (BitVec.setWidth 16) (Function.update_of_ne hw.flags.symm _ _).symm

/-- The flags after an operation, bit by bit. -/
def FlagsSet (s : SetFlags) (flags : W16) (c c' : SeqCore) : Prop :=
  ∀ i, (c'.arf Reg.flags).getLsbD i =
    if (setflagsToX86Flags s).getLsbD i then flags.getLsbD i else (c.arf Reg.flags).getLsbD i

theorem FlagsSet.none {flags : W16} (h : FlagsSet .none flags c c') : c'.arf Reg.flags = c.arf Reg.flags := by
  apply BitVec.eq_of_getLsbD_eq
  intro i hi
  rw [h i, mask_none]
  simp

/-- Of flags set twice the second time counts. -/
theorem FlagsSet.trans {s : SetFlags} {f f' : W16} {c'' : SeqCore} (h : FlagsSet s f c c') (h' : FlagsSet s f' c' c'') :
    FlagsSet s f' c c'' := by
  intro i
  rw [h' i, h i]
  split <;> rfl

/-- A uop of the ALU that may set flags: they are in its register and in the user's. -/
theorem wp_flagged (hmem : isMem op = false) (hsse : op.isSse = false) (hx87 : op.isX87 = false)
    (hno : op.nouserflags = false) (h : c.Ready) (hw : Writable op.rd) {result : UopResult}
    (hexec : exec op (c.inputs op) = result) (hinv : result.rdflags &&& FLAG_INV = 0) : Wp exec [op] (fun c' =>
      Leaves [op.rd, Reg.flags] c.space.bytes c c' ∧ c'.arf op.rd = result.rddata ∧ c'.arflags op.rd = result.rdflags ∧
        FlagsSet op.setflags result.rdflags c c') c := by
  refine wp_result hmem hsse hx87 hw.zero (.inr (by rw [hexec, hinv])) ?_
  rw [hexec]
  refine ⟨writeResult_leaves_flags h hw hno result, writeResult_arf_rd hw.flags, writeResult_arflags_rd hw.flags, fun i => ?_⟩
  rw [writeResult_flags hw.flags hno, update_bit]

theorem wp_result_flags (hmem : isMem op = false) (hsse : op.isSse = false) (hx87 : op.isX87 = false)
    (hno : op.nouserflags = false) (h : c.Ready) (hw : Writable op.rd) {result : UopResult}
    (hexec : exec op (c.inputs op) = result) (hinv : result.rdflags &&& FLAG_INV = 0) : Wp exec [op] (fun c' =>
      Leaves [op.rd, Reg.flags] c.space.bytes c c' ∧ c'.arf op.rd = result.rddata ∧
        FlagsSet op.setflags result.rdflags c c') c :=
  Triples.wp_mono (wp_flagged hmem hsse hx87 hno h hw hexec hinv) fun _ h' => ⟨h'.1, h'.2.1, h'.2.2.2⟩

/-- A uop of the ALU that leaves the user's flags. -/
theorem wp_result_quiet (hmem : isMem op = false) (hsse : op.isSse = false) (hx87 : op.isX87 = false)
    (hno : op.nouserflags = true) (h : c.Ready) (hw : Writable op.rd) {result : UopResult}
    (hexec : exec op (c.inputs op) = result) (hinv : result.rdflags &&& FLAG_INV = 0) : Wp exec [op] (fun c' =>
      Leaves [op.rd] c.space.bytes c c' ∧ c'.arf op.rd = result.rddata ∧ c'.arflags op.rd = result.rdflags) c := by
  refine wp_result hmem hsse hx87 hw.zero (.inr (by rw [hexec, hinv])) ?_
  rw [hexec]
  exact ⟨writeResult_leaves_quiet h hw hno result, writeResult_arf_rd hw.flags, writeResult_arflags_rd hw.flags⟩

theorem writeResult_leaves (h : c.Ready) (hop : Writes rs op) (reg : UopResult) :
    Leaves rs c.space.bytes c (c.writeResult op reg) := by
  have hmask : (setflagsToX86Flags op.setflags).setWidth 64 = (0 : W64) := by
    rw [hop.setflags]
    decide
  have hflags : (c.writeResult op reg).arf Reg.flags = c.arf Reg.flags := by
    have hnot : ~~~(0 : W64) = BitVec.allOnes 64 := by decide
    rw [writeResult_flags hop.writable.flags hop.nouserflags, hmask, hnot, BitVec.and_allOnes]
    simp
  have hready : (c.writeResult op reg).Ready :=
    h.writeResult hop.writable.flags hop.writable.zero hop.writable.trace hop.nouserflags
  refine ⟨fun r hr => ?_, fun r hr => ?_, by rw [writeResult_space], by rw [writeResult_space], writeResult_ctx, hready⟩
  · by_cases hf : r = Reg.flags
    · rw [hf, hflags]
    · exact writeResult_arf (fun h => hr (h ▸ hop.mem)) hf
  · by_cases hf : r = Reg.flags
    · rw [hf, hready.flags, hflags, h.flags]
    · exact writeResult_arflags (fun h => hr (h ▸ hop.mem)) hf

/-- Uops that write registers of `rs` leave the others. -/
theorem leaves_runUops {ops : List TransOp} {junk : Sfr} (hops : ∀ op ∈ ops, Writes rs op) (h : c.Ready)
    (hrun : c.runUops exec junk ops = some c') : Leaves rs c.space.bytes c c' := by
  induction ops generalizing c with
  | nil =>
    obtain rfl := Option.some.inj hrun
    exact (Leaves.refl h).mono (List.nil_subset _)
  | cons op ops ih =>
    have hop := hops op List.mem_cons_self
    obtain ⟨c₁, hone, hrest⟩ := Option.bind_eq_some_iff.1 hrun
    have hst : ¬(op.opcode = .opSt ∨ op.opcode = .opStA16) := by
      rintro (h | h) <;> have hs := hop.store <;> rw [h] at hs <;> exact absurd hs (by decide)
    have hleaves : Leaves rs c.space.bytes c c₁ := by
      unfold runUop at hone
      split at hone
      · rename_i reg sfr _
        rw [← Option.some.inj hone, commitUop, if_neg hst, if_pos hop.writable.zero]
        exact writeResult_leaves h hop reg
      · cases hone
    have htail := ih (fun o ho => hops o (List.mem_cons_of_mem _ ho)) hleaves.ready hrest
    rw [hleaves.bytes] at htail
    exact (hleaves.trans htail).mono (by simp)

end Frame

/-! ### Uops that set no flags -/

section Quiet

variable (rest : Synthop) {c : SeqCore} {exec : Synthop} {op : TransOp} {o : Opcode} {rd : Reg}

theorem writes_mk3 {rs : List Reg} {o : Opcode} {rd : Reg} (ra rb rc : Reg) (size : ℕ) (imm : W64) (hmem : rd ∈ rs)
    (hst : isstore o = false) (hw : Writable rd) : Writes rs (.mk3 o rd ra rb rc size imm) :=
  ⟨hmem, hst, rfl, rfl, hw⟩

/-- A uop of the ALU that sets no flags leaves all but its register. -/
theorem wp_writes {rs : List Reg} (hmem : isMem op = false) (hsse : op.isSse = false) (hx87 : op.isX87 = false)
    (h : c.Ready) (hop : Writes rs op) {result : UopResult} (hexec : exec op (c.inputs op) = result)
    (hinv : result.rdflags &&& FLAG_INV = 0) : Wp exec [op] (fun c' =>
      Leaves rs c.space.bytes c c' ∧ c'.arf op.rd = result.rddata) c := by
  refine wp_result hmem hsse hx87 hop.writable.zero (.inr (by rw [hexec, hinv])) ?_
  rw [hexec]
  exact ⟨writeResult_leaves h hop result, writeResult_arf_rd hop.writable.flags⟩

/-- A sum of 64 bits. -/
theorem wp_add (h : c.Ready) (hrd : Writable rd) (ra rb : Reg) (imm : W64) :
    Wp rest.withImpl [.mk3 .opAdd rd ra rb Reg.zero 3 imm] (fun c' => Leaves [rd] c.space.bytes c c' ∧
      c'.arf rd = c.arf (remap ra) + if rb = Reg.imm then imm else c.arf (remap rb)) c := by
  have hst : isstore .opAdd = false := by decide
  have hwrites : ∀ op ∈ [TransOp.mk3 .opAdd rd ra rb Reg.zero 3 imm], Writes [rd] op := fun op hop => by
    rw [List.mem_singleton.1 hop]
    exact writes_mk3 _ _ _ _ _ List.mem_cons_self hst hrd
  obtain ⟨c', hrun, -, hvalue⟩ := run_add rest Frame.Sfr.zero h hrd ra rb imm
  have hruns : c.runUops rest.withImpl Frame.Sfr.zero [.mk3 .opAdd rd ra rb Reg.zero 3 imm] = some c' := by
    simp only [SeqCore.runUops, hrun, Option.bind_some]
  exact wp_runUops (fun op hop => (hwrites op hop).store) hruns ⟨leaves_runUops hwrites h hruns, hvalue⟩

/-- A difference of 64 bits. -/
theorem wp_sub (h : c.Ready) (hrd : Writable rd) (ra rb : Reg) (imm : W64) :
    Wp rest.withImpl [.mk3 .opSub rd ra rb Reg.zero 3 imm] (fun c' => Leaves [rd] c.space.bytes c c' ∧
      c'.arf rd = c.arf (remap ra) - if rb = Reg.imm then imm else c.arf (remap rb)) c := by
  have hst : isstore .opSub = false := by decide
  have hwrites : ∀ op ∈ [TransOp.mk3 .opSub rd ra rb Reg.zero 3 imm], Writes [rd] op := fun op hop => by
    rw [List.mem_singleton.1 hop]
    exact writes_mk3 _ _ _ _ _ List.mem_cons_self hst hrd
  obtain ⟨c', flags, hrun, hwrote, -⟩ := run_implements rest Frame.Sfr.zero implements_sub (by decide) h hrd ra rb
    Reg.zero (show 3 ≤ 3 by decide) imm .none
  have hcarry : (c.arflags (remap Reg.zero)).getLsbD 0 = false := by
    rw [remap_of_lt (by decide), h.zeroFlags]
    rfl
  have hvalue := hwrote.value
  rw [hcarry] at hvalue
  have hruns : c.runUops rest.withImpl Frame.Sfr.zero [.mk3 .opSub rd ra rb Reg.zero 3 imm] = some c' := by
    simp only [SeqCore.runUops, hrun, Option.bind_some]
  refine wp_runUops (fun op hop => (hwrites op hop).store) hruns ⟨leaves_runUops hwrites h hruns, hvalue.trans ?_⟩
  show (((c.arf (remap ra)).setWidth 64 - (if rb = Reg.imm then imm else c.arf (remap rb)).setWidth 64 - 0).setWidth 64) = _
  rw [BitVec.setWidth_eq, BitVec.setWidth_eq, BitVec.setWidth_eq]
  exact BitVec.sub_zero _

/-- A uop that sets flags to what they are leaves them. -/
theorem Leaves.of_flags {c' : SeqCore} {rs : List Reg} {m : ℕ → Byte} (h : Leaves (rs ++ [Reg.flags]) m c c')
    (hready : c.Ready) (hflags : c'.arf Reg.flags = c.arf Reg.flags) : Leaves rs m c c' := by
  refine ⟨fun r hr => ?_, fun r hr => ?_, h.bytes, h.check, h.ctx, h.ready⟩
  · by_cases hf : r = Reg.flags
    · rw [hf, hflags]
    · exact h.arf r (by simp [hr, hf])
  · by_cases hf : r = Reg.flags
    · rw [hf, h.ready.flags, hready.flags, hflags]
    · exact h.arflags r (by simp [hr, hf])

/-- `collcc` sets the flags to what they are. -/
theorem wp_collcc (h : c.Ready) (hrd : Writable rd) :
    Wp rest.withImpl [.init .opCollcc rd Reg.zf Reg.cf Reg.of 3 0 0 .default] (fun c' =>
      Leaves [rd] c.space.bytes c c' ∧ c'.arflags rd = (c.arf Reg.flags).setWidth 16 &&& setflagsToX86Flags .default) c := by
  obtain ⟨op, hop⟩ : ∃ op : TransOp, op = .init .opCollcc rd Reg.zf Reg.cf Reg.of 3 0 0 .default := ⟨_, rfl⟩
  have hremap : remap Reg.zf = Reg.flags ∧ remap Reg.cf = Reg.flags ∧ remap Reg.of = Reg.flags := by decide
  have hmem : isMem op = false := by
    have hmem : (isload .opCollcc || isstore .opCollcc) = false := by decide
    rw [hop]
    exact hmem
  have hmask : FLAG_ZAPS ||| FLAG_CF ||| FLAG_OF = setflagsToX86Flags .default := by decide
  have hexec : rest.withImpl op (c.inputs op) =
      ⟨(c.arflags Reg.flags &&& setflagsToX86Flags .default).setWidth 64,
        c.arflags Reg.flags &&& setflagsToX86Flags .default⟩ := by
    have hcollect : rest.withImpl op (c.inputs op) = collcc (c.inputs op) := by
      rw [hop]
      rfl
    have hin : (c.inputs op).raflags = c.arflags Reg.flags ∧ (c.inputs op).rbflags = c.arflags Reg.flags ∧
        (c.inputs op).rcflags = c.arflags Reg.flags := by
      rw [hop]
      exact ⟨congrArg c.arflags hremap.1, congrArg c.arflags hremap.2.1, congrArg c.arflags hremap.2.2⟩
    rw [hcollect]
    unfold collcc
    rw [hin.1, hin.2.1, hin.2.2, ← BitVec.and_or_distrib_left, ← BitVec.and_or_distrib_left, hmask]
  have hinv : c.arflags Reg.flags &&& setflagsToX86Flags .default &&& FLAG_INV = 0 := by
    have hdis : setflagsToX86Flags .default &&& FLAG_INV = 0 := by decide
    rw [BitVec.and_assoc, hdis]
    exact BitVec.and_zero
  have hw : Writable op.rd := by
    rw [hop]
    exact hrd
  rw [← hop]
  refine Triples.wp_mono (wp_flagged hmem (by rw [hop]; rfl) (by rw [hop]; rfl) (by rw [hop]; rfl) h hw hexec hinv) ?_
  rintro c' ⟨hleaves, -, hrdflags, hflags⟩
  have hset : op.setflags = .default := by rw [hop]; rfl
  rw [hset] at hflags
  have hsame : c'.arf Reg.flags = c.arf Reg.flags := by
    apply BitVec.eq_of_getLsbD_eq
    intro i hi
    rw [hflags i]
    split
    · rename_i hbit
      have h16 : i < 16 := by
        by_contra hge
        rw [BitVec.getLsbD_of_ge _ _ (Nat.not_lt.1 hge)] at hbit
        cases hbit
      rw [BitVec.getLsbD_and, hbit, Bool.and_true, h.flags, BitVec.getLsbD_setWidth, decide_eq_true h16, Bool.true_and]
    · rfl
  have hrd' : op.rd = rd := by rw [hop]; rfl
  rw [hrd'] at hleaves hrdflags
  rw [h.flags] at hrdflags
  exact ⟨Leaves.of_flags hleaves h hsame, hrdflags⟩

/-- The address of an access that is given by a register and an immediate. -/
theorem linear_imm (hmask : c.ctx.virtAddrMask = BitVec.allOnes 64) (o : Opcode) (rd ra rc : Reg) (size : ℕ) (off : W64) :
    c.linear (.mk3 o rd ra Reg.imm rc size off) = canonicalAddr (c.arf (remap ra) + off) := by
  have hsum : c.radata (.mk3 o rd ra Reg.imm rc size off) + c.rbdata (.mk3 o rd ra Reg.imm rc size off) =
      c.arf (remap ra) + off := rfl
  unfold linear canonicalAddr
  rw [hsum, hmask, BitVec.and_allOnes]

variable {size : ℕ} {off : W64} {a : ℕ} {ra rc : Reg}

/-- A load from a register and an immediate. -/
theorem wp_loadAt (h : c.Ready) (hmask : c.ctx.virtAddrMask = BitVec.allOnes 64) (hrd : Writable rd) (hsize : size ≤ 3)
    (ha : canonicalAddr (c.arf (remap ra) + off) = a) (hok : Accessible c false a size) :
    Wp rest.withImpl [.mk3 .opLd rd ra Reg.imm Reg.zero size off] (fun c' =>
      Leaves [rd, Reg.temp4, Reg.temp9] c.space.bytes c c' ∧
        c'.arf rd = (loadBytes c.space.bytes a size).setWidth 64) c := by
  have hlin := linear_imm hmask .opLd rd ra Reg.zero size off
  rw [ha] at hlin
  have hld : isload .opLd = true := by decide
  have hst : isstore .opLd = false := by decide
  refine Triples.wp_mono (@wp_load c (.mk3 .opLd rd ra Reg.imm Reg.zero size off) rest h rfl hld rfl rfl hsize rfl hrd.zero
    hrd.trace hrd.flags ?_) ?_
  · intro i hi
    rw [hlin]
    show (false || c.space.check _ ⟨!isstore .opLd, isstore .opLd, false⟩) = true
    rw [hst]
    exact hok i hi
  · rintro c' ⟨hleaves, hvalue, -⟩
    refine ⟨hleaves, hvalue.trans ?_⟩
    unfold littleEndian
    rw [hlin]
    rfl

/-- A store to a register and an immediate. -/
theorem wp_storeAt (h : c.Ready) (hmask : c.ctx.virtAddrMask = BitVec.allOnes 64) (hrc : rc ≠ Reg.temp9)
    (himm : rc ≠ Reg.imm) (hsize : size ≤ 3) (ha : canonicalAddr (c.arf (remap ra) + off) = a)
    (hok : Accessible c true a size) :
    Wp rest.withImpl [.mk3 .opSt Reg.mem ra Reg.imm rc size off]
      (Leaves [Reg.temp9] (storeBytewise a (c.arf (remap rc)) c.space.bytes (2 ^ size)) c) c := by
  have hlin := linear_imm hmask .opSt Reg.mem ra rc size off
  rw [ha] at hlin
  have hst : isstore .opSt = true := by decide
  refine Triples.wp_mono (@wp_store c (.mk3 .opSt Reg.mem ra Reg.imm rc size off) rest h rfl (.inl rfl) rfl rfl hsize rfl hrc
    ?_) fun c' hleaves => ?_
  · intro i hi
    rw [hlin]
    show (false || c.space.check _ ⟨!isstore .opSt, isstore .opSt, false⟩) = true
    rw [hst]
    exact hok i hi
  · have hdata : c.rcdata (.mk3 .opSt Reg.mem ra Reg.imm rc size off) = c.arf (remap rc) := if_neg himm
    rw [hlin, hdata] at hleaves
    exact hleaves

end Quiet

/-! ### Addresses -/

section Address

variable (pfx : Prefixes) (rip : W64) (destreg srcreg : Reg) (o : X86Operand) (size : ℕ) {opcode : Opcode}

/-- The temporaries of an address. -/
def addressTemps : List Reg := [Reg.temp6, Reg.temp8]

theorem writes_bias (b : Reg) : ∀ op ∈ (biasBySegreg pfx b).1, Writes addressTemps op := by
  have hw : Writable Reg.temp6 := ⟨by decide, by decide, by decide⟩
  unfold biasBySegreg
  split
  · intro op hop
    simp only [List.mem_cons, List.not_mem_nil, or_false] at hop
    rcases hop with rfl | rfl
    · exact ⟨List.mem_cons_self, by show isstore .opLd = false; decide, rfl, rfl, hw⟩
    · exact writes_mk3 _ _ _ _ _ List.mem_cons_self (by decide) hw
  · exact fun op hop => absurd hop List.not_mem_nil

/-- The address of a load or a store is generated into temporaries, and the last uop accesses it. -/
theorem addressGenerate_shape (memref : MemRef) (hmem : (isload opcode || isstore opcode || opcode = .opLdPre) = true)
    (datatypeInt force : Bool) : ∃ pre ra off,
      addressGenerate pfx rip destreg srcreg memref opcode datatypeInt force =
        pre ++ [.ldst opcode destreg ra srcreg memref.size off true datatypeInt] ∧
      ∀ op ∈ pre, Writes addressTemps op := by
  have hw : Writable Reg.temp8 := ⟨by decide, by decide, by decide⟩
  have h8 : Reg.temp8 ∈ addressTemps := by decide
  have hadd : ∀ ra rb imm, Writes addressTemps (.mk3 .opAdd Reg.temp8 ra rb Reg.zero 3 imm) :=
    fun ra rb imm => writes_mk3 _ _ _ _ _ h8 (by decide) hw
  have hadda : ∀ ra rc scale, Writes addressTemps (.adda Reg.temp8 ra rc 3 scale) :=
    fun ra rc scale => ⟨h8, by show isstore .opAdda = false; decide, rfl, rfl, hw⟩
  have hcons : ∀ {b : Reg} {ops : List TransOp}, (∀ op ∈ ops, Writes addressTemps op) →
      ∀ op ∈ (biasBySegreg pfx b).1 ++ ops, Writes addressTemps op := fun hops op hop =>
    (List.mem_append.1 hop).elim (writes_bias pfx _ op) (hops op)
  have hone : ∀ {op : TransOp}, Writes addressTemps op → ∀ o ∈ [op], Writes addressTemps o := fun h o ho => by
    rw [List.mem_singleton.1 ho]
    exact h
  unfold addressGenerate
  dsimp only
  simp only [hmem, Bool.or_true, if_true]
  split
  · refine ⟨(biasBySegreg pfx Reg.zero).1 ++ [absCodeAddrImmediate Reg.temp8 3 (rip + memref.offset)], Reg.temp8, 0,
      List.append_cons _ _ _, hcons (hone ?_)⟩
    exact hadd _ _ _
  · split
    · split
      · exact ⟨_, _, _, rfl, hcons (hone (hadd _ _ _))⟩
      · exact ⟨_, _, _, rfl, writes_bias pfx _⟩
    · split
      · refine ⟨_, _, _, rfl, hcons (hone ?_)⟩
        split
        · exact hadda _ _ _
        · exact hadd _ _ _
      · split
        · refine ⟨_, _, _, List.append_cons _ _ _, ?_⟩
          intro op hop
          rcases List.mem_append.1 hop with hop | hop
          · exact hcons (hone (hadd _ _ _)) op hop
          · exact hone (hadda _ _ _) op hop
        · exact ⟨_, _, _, List.append_cons _ _ _, hcons (hone (hadda _ _ _))⟩

/-- A sum of an address is generated into temporaries and its register. -/
theorem writes_generate (pfx : Prefixes) (rip : W64) {destreg : Reg} (hw : Writable destreg) (memref : MemRef)
    (force : Bool) : ∀ op ∈ addressGenerate pfx rip destreg Reg.zero memref .opAdd true force,
      Writes [Reg.temp6, Reg.temp8, destreg] op := by
  have h1 : destreg ∈ [Reg.temp6, Reg.temp8, destreg] := by simp
  have h8 : Reg.temp8 ∈ [Reg.temp6, Reg.temp8, destreg] := by simp
  have hw8 : Writable Reg.temp8 := ⟨by decide, by decide, by decide⟩
  have hadd : isstore .opAdd = false := by decide
  have hadda : isstore .opAdda = false := by decide
  have hbias : ∀ b, ∀ op ∈ (if force then biasBySegreg pfx b else ([], b)).1, Writes [Reg.temp6, Reg.temp8, destreg] op := by
    intro b op hop
    split at hop
    · obtain ⟨hmem, hst, hs, hno, hw⟩ := writes_bias pfx b op hop
      exact ⟨List.mem_append_left [destreg] hmem, hst, hs, hno, hw⟩
    · cases hop
  have hmem : (isload .opAdd || isstore .opAdd || decide (Opcode.opAdd = Opcode.opLdPre)) = false := by decide
  have henc : ∀ P : Prop, ¬(Opcode.opAdd ≠ Opcode.opAdd ∧ P) := fun P h => h.1 rfl
  have hsum : ∀ ra rb size imm, Writes [Reg.temp6, Reg.temp8, destreg] (.mk3 .opAdd destreg ra rb Reg.zero size imm) :=
    fun ra rb size imm => writes_mk3 ra rb Reg.zero size imm h1 hadd hw
  have hindex : ∀ rd ∈ [Reg.temp6, Reg.temp8, destreg], Writable rd → ∀ ra rc size scale, Writes [Reg.temp6, Reg.temp8, destreg] (.adda rd ra rc size scale) :=
    fun rd hrd hw ra rc size scale => ⟨hrd, hadda, rfl, rfl, hw⟩
  have hlast : ∀ ra off, Writes [Reg.temp6, Reg.temp8, destreg] (.ldst .opAdd destreg ra Reg.zero memref.size off false true) :=
    fun ra off => ⟨h1, hadd, rfl, rfl, hw⟩
  unfold addressGenerate
  dsimp only
  simp only [hmem, Bool.or_false, Bool.false_eq_true, if_false, henc]
  split
  · -- relative to `rip`
    intro op hop
    rcases List.mem_append.1 hop with hop | hop
    · exact hbias _ op hop
    · rw [List.mem_singleton.1 hop]
      exact hsum _ _ _ _
  split
  · -- base and displacement
    intro op hop
    rcases List.mem_append.1 hop with hop | hop
    · exact hbias _ op hop
    · rw [List.mem_singleton.1 hop]
      exact hlast _ _
  split
  · -- base and index
    intro op hop
    rcases List.mem_append.1 hop with hop | hop
    · rcases List.mem_append.1 hop with hop | hop
      · exact hbias _ op hop
      · rw [List.mem_singleton.1 hop]
        split
        · exact hindex _ h1 hw _ _ _ _
        · exact hsum _ _ _ _
    · rw [List.mem_singleton.1 hop]
      exact hlast _ _
  · -- base, index and displacement
    intro op hop
    rcases List.mem_append.1 hop with hop | hop
    · exact hbias _ op hop
    · simp only [List.mem_cons, List.not_mem_nil, or_false] at hop
      rcases hop with rfl | rfl
      · exact hindex _ h8 hw8 _ _ _ _
      · exact hlast _ _

variable (rest : Synthop) {c : SeqCore}

/-- The uops before the last one generate the address and run. -/
theorem generate_address (h : c.Ready) (hctx : HostCtx c) (int : Bool)
    (hmem : (isload opcode || isstore opcode || opcode = .opLdPre) = true) : ∃ pre ra off,
      addressGenerate pfx rip destreg srcreg (o.memRef size) opcode int false =
        pre ++ [.ldst opcode destreg ra srcreg size off true int] ∧
      Wp rest.withImpl pre (fun c₁ => Leaves addressTemps c.space.bytes c c₁ ∧
        c₁.linear (.ldst opcode destreg ra srcreg size off true int) = canonicalAddr (accessValue pfx c rip o)) c := by
  obtain ⟨pre, ra, off, hshape, hwrites⟩ :=
    addressGenerate_shape pfx rip destreg srcreg (o.memRef size) hmem int false
  have hacc := accessed_addressGenerate rest Frame.Sfr.zero h hctx pfx rip destreg srcreg o size int false hmem
  unfold accessed at hacc
  rw [hshape, List.dropLast_concat, List.getLast?_concat] at hacc
  obtain ⟨c₁, hrun, hsum⟩ := Option.bind_eq_some_iff.1 hacc
  have hleaves := leaves_runUops hwrites h hrun
  refine ⟨pre, ra, off, hshape, wp_runUops (fun op hop => (hwrites op hop).store) hrun ⟨hleaves, ?_⟩⟩
  have hvalue : c₁.radata (.ldst opcode destreg ra srcreg size off true int) +
      c₁.rbdata (.ldst opcode destreg ra srcreg size off true int) = accessValue pfx c rip o :=
    Option.some.inj hsum
  unfold linear canonicalAddr
  rw [hvalue, hleaves.ctx, hctx.mask, BitVec.and_allOnes]

/-- The address is generated, and the last uop has what is left to do. -/
theorem wp_address {Q : SeqCore → Prop} (h : c.Ready) (hctx : HostCtx c) (int : Bool)
    (hmem : (isload opcode || isstore opcode || opcode = .opLdPre) = true)
    (hlast : ∀ c₁ ra off, Leaves addressTemps c.space.bytes c c₁ →
      c₁.linear (.ldst opcode destreg ra srcreg size off true int) = canonicalAddr (accessValue pfx c rip o) →
      Wp rest.withImpl [.ldst opcode destreg ra srcreg size off true int] Q c₁) :
    Wp rest.withImpl (addressGenerate pfx rip destreg srcreg (o.memRef size) opcode int false) Q c := by
  obtain ⟨pre, ra, off, hshape, hpre⟩ := generate_address pfx rip destreg srcreg o size rest h hctx int hmem
  rw [hshape]
  exact Triples.wp_append (Triples.wp_mono hpre fun c₁ h₁ => hlast c₁ ra off h₁.1 h₁.2)

/-- A load of either datatype. -/
theorem wp_loadOperand (h : c.Ready) (hctx : HostCtx c) (int : Bool) (hld : isload opcode = true) (hsize : size ≤ 3)
    (hrd : Writable destreg) (hok : Accessible c false (canonicalAddr (accessValue pfx c rip o)) size) :
    Wp rest.withImpl (addressGenerate pfx rip destreg Reg.zero (o.memRef size) opcode int false) (fun c' =>
      Leaves [Reg.temp6, Reg.temp8, destreg, Reg.temp4, Reg.temp9] c.space.bytes c c' ∧
        c'.arf destreg = extend (opcode == .opLdx)
          (loadBytes c.space.bytes (canonicalAddr (accessValue pfx c rip o)) size) ∧
        c'.arflags destreg = 0) c := by
  refine wp_address pfx rip destreg Reg.zero o size rest h hctx int (by rw [hld]; rfl) fun c₁ ra off h₁ hlin => ?_
  have hst : isstore opcode = false := not_isstore_of_isload hld
  refine Triples.wp_mono (wp_load rest h₁.ready rfl hld rfl rfl hsize rfl hrd.zero hrd.trace hrd.flags ?_) ?_
  · intro i hi
    have hcheck := hok i hi
    unfold permits
    rw [hlin, h₁.check]
    show (false || c.space.check _ ⟨!isstore opcode, isstore opcode, false⟩) = true
    rw [hst]
    exact hcheck
  · rintro c' ⟨hleaves, hvalue, hflags⟩
    rw [h₁.bytes] at hleaves
    refine ⟨h₁.trans hleaves, hvalue.trans ?_, hflags⟩
    unfold littleEndian loadBytes SeqCore.mem
    rw [hlin, h₁.bytes]
    rfl

/-- **An operand is loaded.** -/
theorem wp_operandLoad (h : c.Ready) (hctx : HostCtx c) (hld : isload opcode = true) (hsize : size ≤ 3)
    (hrd : Writable destreg) (hok : Accessible c false (canonicalAddr (accessValue pfx c rip o)) size) :
    Wp rest.withImpl (operandLoad pfx rip destreg (o.memRef size) opcode) (fun c' =>
      Leaves [Reg.temp6, Reg.temp8, destreg, Reg.temp4, Reg.temp9] c.space.bytes c c' ∧
        c'.arf destreg = extend (opcode == .opLdx)
          (loadBytes c.space.bytes (canonicalAddr (accessValue pfx c rip o)) size) ∧
        c'.arflags destreg = 0) c :=
  wp_loadOperand pfx rip destreg o size rest h hctx true hld hsize hrd hok

/-- **An operand is stored.** -/
theorem wp_resultStore (h : c.Ready) (hctx : HostCtx c) (hsize : size ≤ 3) (hsrc : remap srcreg ∉ addressTemps)
    (himm : srcreg ≠ Reg.imm) (h9 : srcreg ≠ Reg.temp9)
    (hok : Accessible c true (canonicalAddr (accessValue pfx c rip o)) size) :
    Wp rest.withImpl (resultStore pfx rip srcreg (o.memRef size)) (Leaves [Reg.temp6, Reg.temp8, Reg.temp9]
      (storeBytewise (canonicalAddr (accessValue pfx c rip o)) (c.arf (remap srcreg)) c.space.bytes (2 ^ size)) c) c := by
  refine wp_address pfx rip Reg.mem srcreg o size rest h hctx true (by decide) fun c₁ ra off h₁ hlin => ?_
  have hst : isstore .opSt = true := by decide
  refine Triples.wp_mono (wp_store rest h₁.ready rfl (.inl rfl) rfl rfl hsize rfl h9 ?_) ?_
  · intro i hi
    have hcheck := hok i hi
    unfold permits
    rw [hlin, h₁.check]
    show (false || c.space.check _ ⟨!isstore .opSt, isstore .opSt, false⟩) = true
    rw [hst]
    exact hcheck
  · intro c' hleaves
    have hrc : c₁.rcdata (.ldst .opSt Reg.mem ra srcreg size off true true) = c.arf (remap srcreg) := by
      show (if srcreg = Reg.imm then _ else c₁.arf (remap srcreg)) = _
      rw [if_neg himm, h₁.arf _ hsrc]
    rw [hlin, hrc, h₁.bytes] at hleaves
    exact h₁.trans hleaves

/-- A load that is not permitted faults, aligned or not. -/
theorem turn_load_refused {op : TransOp} (h : c.Ready) (hfp : c.fpUnavailable op = false) (hld : isload op.opcode = true)
    (hint : op.internal = false) (hcond : op.cond = LdstAlign.normal.cond) (hsize : op.size ≤ 3)
    (hs : op.setflags = .none) (hzero : op.rd ≠ Reg.zero) (hflags : op.rd ≠ Reg.flags) (hno : ¬c.Permitted op)
    (junk : ℕ → Sfr) : ∃ c' ctx, turn rest.withImpl junk op c = .error (c', .exception ctx) ∧
      ctx.exception = InternalException.pageFaultOnRead.code := by
  have hst : isstore op.opcode = false := not_isstore_of_isload hld
  have hmem : isMem op = true := by
    unfold isMem
    rw [hld]
    rfl
  have hmf : op.opcode ≠ .opMf := by
    intro hmf
    rw [hmf] at hld
    exact absurd hld (by decide)
  by_cases hlow : lowbits (c.linear op) op.size = 0
  · -- its first byte is the one that is refused
    have hcheck : c.space.check (c.linear op) ⟨true, false, false⟩ = false := by
      rw [← Bool.not_eq_true]
      intro hfirst
      rw [permitted_iff hsize, hint, hst] at hno
      exact hno ⟨hfirst, .inl (aligned_le hsize hlow)⟩
    have hres : (c.addrgen op).result = .error (if false then .pageFaultOnWrite else .pageFaultOnRead,
        ⟨c.space.check (c.linear op) ⟨true, false, false⟩, false, true, false⟩) := by
      rw [addrgen_normal hcond]
      unfold checkAndTranslate
      rw [if_neg (not_not.2 hlow), hint, if_neg Bool.false_ne_true, hst]
      simp [hcheck]
    have hissue := issue_fault rest.withImpl (junk 0) hfp hmem hmf hres
    unfold turn
    rw [hissue]
    exact ⟨_, _, rfl, rfl⟩
  · -- the halves of the split fault where the whole does
    obtain ⟨-, d, -, -, hfault⟩ := run_split_load rest h hfp hld hsize hs hzero hflags fun n => junk (n + 1)
    obtain ⟨i, -, -, hstop⟩ := hfault hno
    unfold turn
    rw [issue_unaligned hfp hmem hmf hcond hlow]
    simp only [splitUnaligned_unaligned, hstop, hst]
    exact ⟨_, _, rfl, rfl⟩

/-- So does a store. -/
theorem turn_store_refused {op : TransOp} (h : c.Ready) (hfp : c.fpUnavailable op = false)
    (hst : op.opcode = .opSt ∨ op.opcode = .opStA16) (hint : op.internal = false)
    (hcond : op.cond = LdstAlign.normal.cond) (hsize : op.size ≤ 3) (hs : op.setflags = .none)
    (hrc : op.rc ≠ Reg.temp9) (hno : ¬c.Permitted op) (junk : ℕ → Sfr) :
    ∃ e, turn rest.withImpl junk op c = .error e := by
  have hclass : isload op.opcode = false ∧ isstore op.opcode = true ∧ op.opcode ≠ .opMf := by
    rcases hst with h | h <;> rw [h] <;> decide
  have hmem : isMem op = true := by
    unfold isMem
    rw [hclass.2.1, Bool.or_true]
  by_cases hlow : lowbits (c.linear op) op.size = 0
  · refine turn_refused hfp hmem hclass.2.2 hcond hint hlow ?_ junk
    rw [← Bool.not_eq_true]
    intro hfirst
    rw [permitted_iff hsize, hint] at hno
    exact hno ⟨hfirst, .inl (aligned_le hsize hlow)⟩
  · obtain ⟨-, d, -, -, hfault⟩ := run_split_store rest h hfp hst hsize hs hrc fun n => junk (n + 1)
    obtain ⟨⟨i, -, -, hstop⟩, -⟩ := hfault hno
    unfold turn
    rw [issue_unaligned hfp hmem hclass.2.2 hcond hlow]
    simp only [splitUnaligned_unaligned, hstop]
    exact ⟨_, rfl⟩

/-- An operand that may not be loaded faults. -/
theorem faults_loadOperand (h : c.Ready) (hctx : HostCtx c) (int : Bool)
    (hld : isload opcode = true) (hsize : size ≤ 3) (hrd : Writable destreg) (ops : List TransOp)
    (hno : ¬Accessible c false (canonicalAddr (accessValue pfx c rip o)) size) (junk : ℕ → ℕ → Sfr) : ∃ c' ctx,
    perform rest.withImpl (addressGenerate pfx rip destreg Reg.zero (o.memRef size) opcode int false ++ ops) junk c =
      .error (c', .exception ctx) ∧ ctx.exception = InternalException.pageFaultOnRead.code := by
  have hst : isstore opcode = false := not_isstore_of_isload hld
  obtain ⟨pre, ra, off, hshape, hpre⟩ := generate_address pfx rip destreg Reg.zero o size rest h hctx int
    (by rw [hld]; rfl)
  obtain ⟨c₁, hrun, h₁, hlin⟩ := hpre junk
  have hrefused : ¬c₁.Permitted (.ldst opcode destreg ra Reg.zero size off true int) := fun hok => hno fun i hi => by
    have hbyte := hok i hi
    unfold permits at hbyte
    rw [hlin, h₁.check] at hbyte
    change (false || c.space.check _ ⟨!isstore opcode, isstore opcode, false⟩) = true at hbyte
    rwa [hst] at hbyte
  obtain ⟨c', ctx, hturn, hcode⟩ := turn_load_refused rest h₁.ready (by rfl) (by exact hld) (by rfl) (by rfl)
    (by exact hsize) (by rfl) (by exact hrd.zero) (by exact hrd.flags) hrefused (junk (0 + pre.length))
  refine ⟨c', ctx, ?_, hcode⟩
  rw [hshape, List.append_assoc]
  refine (Triples.run_append hrun).trans ?_
  rw [List.cons_append, Triples.run, hturn]

/-- So it is not loaded. -/
theorem not_wp_loadOperand {Q : SeqCore → Prop} (h : c.Ready) (hctx : HostCtx c) (int : Bool)
    (hld : isload opcode = true) (hsize : size ≤ 3) (hrd : Writable destreg) (ops : List TransOp)
    (hno : ¬Accessible c false (canonicalAddr (accessValue pfx c rip o)) size) :
    ¬Wp rest.withImpl (addressGenerate pfx rip destreg Reg.zero (o.memRef size) opcode int false ++ ops) Q c := by
  intro hwp
  obtain ⟨c₁, hrun, -⟩ := hwp fun _ _ => Frame.Sfr.zero
  obtain ⟨c₂, ctx, hstop, -⟩ := faults_loadOperand pfx rip destreg o size rest h hctx int hld hsize hrd ops hno
    fun _ _ => Frame.Sfr.zero
  have hboth := hrun.symm.trans hstop
  cases hboth

/-- An operand that may not be stored is not. -/
theorem not_wp_resultStore {Q : SeqCore → Prop} (h : c.Ready) (hctx : HostCtx c) (hsize : size ≤ 3)
    (h9 : srcreg ≠ Reg.temp9) (ops : List TransOp)
    (hno : ¬Accessible c true (canonicalAddr (accessValue pfx c rip o)) size) :
    ¬Wp rest.withImpl (resultStore pfx rip srcreg (o.memRef size) ++ ops) Q c := by
  have hnonempty : Nonempty (ℕ → Sfr) := ⟨fun _ => Frame.Sfr.zero⟩
  have hst : isstore .opSt = true := by decide
  obtain ⟨pre, ra, off, hshape, hpre⟩ := generate_address pfx rip Reg.mem srcreg o size rest h hctx true
    (show (isload .opSt || isstore .opSt || decide (Opcode.opSt = Opcode.opLdPre)) = true by decide)
  unfold resultStore
  rw [hshape, List.append_assoc]
  refine Triples.not_wp_append hpre ?_
  rintro c₁ ⟨h₁, hlin⟩
  refine Triples.not_wp_cons fun junk => turn_store_refused rest h₁.ready rfl (.inl rfl) rfl rfl hsize rfl h9
    (fun hok => hno fun i hi => ?_) junk
  have hbyte := hok i hi
  unfold permits at hbyte
  rw [hlin, h₁.check] at hbyte
  change (false || c.space.check _ ⟨!isstore .opSt, isstore .opSt, false⟩) = true at hbyte
  rwa [hst] at hbyte

end Address

/-! ### Operands left alone -/

section Congr

variable {rs : List Reg} {m : ℕ → Byte} {c c' : SeqCore} {pfx : Prefixes} {rip : W64}

theorem HostCtx.leaves (h : HostCtx c) (hl : Leaves rs m c c') (hrs : Temps rs) : HostCtx c' := by
  have hctx : c'.arf Reg.ctx = c.arf Reg.ctx := hl.arch hrs (by decide) (by decide)
  exact ⟨by rw [hctx, h.aligned], by rw [hctx]; exact h.bound, by rw [hl.ctx, h.mask]⟩

theorem sum_congr (h : Leaves rs m c c') (hrs : Temps rs) (rip : W64) (o : X86Operand) :
    o.sum c'.arf rip = o.sum c.arf rip := by
  have hreg : ∀ r : Fin 16, c'.arf (r.castLE (by decide)) = c.arf (r.castLE (by decide)) := fun r =>
    h.arch hrs (decide_eq_true (show r.val < 64 by omega))
      (Fin.ne_of_val_ne (show r.val ≠ 57 by omega))
  unfold X86Operand.sum X86Operand.baseValue X86Operand.indexValue
  cases o.base <;> cases o.index <;> simp only [hreg]

theorem accessValue_congr (h : Leaves rs m c c') (hrs : Temps rs) (pfx : Prefixes) (rip : W64) (o : X86Operand) :
    accessValue pfx c' rip o = accessValue pfx c rip o := by
  have hbase : ∀ segment, segmentBase c' segment = segmentBase c segment := fun segment => by
    unfold segmentBase
    rw [h.ctx, h.arch hrs (r := Reg.ctx) (by decide) (by decide)]
  have hbias : biasValue pfx c' = biasValue pfx c := by
    unfold biasValue
    rw [hbase]
  unfold accessValue
  rw [hbias, sum_congr h hrs]

namespace Operand

theorem address_congr (h : Leaves rs m c c') (hrs : Temps rs) (o : X86Operand) :
    address pfx c' rip o = address pfx c rip o := by
  unfold address
  rw [accessValue_congr h hrs]

variable {d : Operand}

theorem value_congr (h : Leaves rs c.space.bytes c c') (hrs : Temps rs) : d.value pfx rip c' = d.value pfx rip c := by
  unfold value
  cases d with
  | reg r =>
    have hr : r.arch.isArch = true := decide_eq_true (lt_trans r.arch_lt (by decide))
    exact congrArg r.read (h.arch hrs hr (r.arch_ne (by decide)))
  | mem o size =>
    dsimp only
    rw [address_congr h hrs, h.bytes]

theorem Accessible.leaves {store : Bool} (hacc : d.Accessible pfx rip c store) (h : Leaves rs m c c') (hrs : Temps rs) :
    d.Accessible pfx rip c' store := by
  unfold Accessible X86Sim.Accessible at *
  cases d with
  | reg r => trivial
  | mem o size =>
    dsimp only at hacc ⊢
    rw [address_congr h hrs, h.check]
    exact ⟨hacc.1.leaves h hrs, hacc.2⟩

theorem Accessible.of_leaves {store : Bool} (hacc : d.Accessible pfx rip c' store) (h : Leaves rs m c c') (hrs : Temps rs)
    {store' : Bool} (hctx : d.X86Accessible pfx rip c store') : d.Accessible pfx rip c store := by
  unfold Accessible X86Sim.Accessible at *
  cases d with
  | reg r => trivial
  | mem o size =>
    dsimp only at hacc ⊢
    rw [address_congr h hrs, h.check] at hacc
    exact ⟨hctx.1, hacc.2⟩

theorem effective_congr (h : Leaves rs m c c') (hrs : Temps rs) (o : X86Operand) :
    effective pfx rip c' o = effective pfx rip c o := by
  have hbase : ∀ segment, segmentBase c' segment = segmentBase c segment := fun segment => by
    unfold segmentBase
    rw [h.ctx, h.arch hrs (r := Reg.ctx) (by decide) (by decide)]
  unfold effective X86Operand.address X86Operand.offset
  rw [sum_congr h hrs, hbase, hbase]

theorem X86Accessible.leaves {store : Bool} (hacc : d.X86Accessible pfx rip c store) (h : Leaves rs m c c')
    (hrs : Temps rs) : d.X86Accessible pfx rip c' store := by
  unfold X86Accessible X86Sim.Accessible at *
  cases d with
  | reg r => trivial
  | mem o size =>
    dsimp only at hacc ⊢
    rw [effective_congr h hrs, h.check]
    exact ⟨hacc.1.leaves h hrs, hacc.2⟩

/-- What is written is written whatever the temporaries held. -/
theorem Written.of_leaves {v : BitVec (opWidth d.sizeshift)} {c₁ : SeqCore} (h : Leaves rs c.space.bytes c c₁)
    (hrs : Temps rs) (hw : d.Written pfx rip c₁ v c') : d.Written pfx rip c v c' := by
  unfold Written at *
  cases d with
  | reg r =>
    dsimp only at hw ⊢
    refine ⟨fun s hs hf => ?_, hw.2.trans h.bytes⟩
    rw [hw.1 s hs hf, h.arch hrs hs hf]
  | mem o size =>
    dsimp only at hw ⊢
    refine ⟨fun s hs hf => ?_, ?_⟩
    · rw [hw.1 s hs hf, h.arch hrs hs hf]
    · rw [hw.2, address_congr h hrs, h.bytes]

end Operand
end Congr

/-! ### Effective addresses -/

/-- What is written to a register is read of it. -/
theorem Apr.read_write (p : Apr) (old : W64) (x : BitVec (opWidth p.sizeshift)) :
    p.read (p.write old x) = x := by
  apply BitVec.eq_of_getLsbD_eq
  intro i hi
  have h64 : opWidth p.sizeshift ≤ 64 := by cases p <;> exact of_decide_eq_true rfl
  have hx : (x.setWidth 64).getLsbD i = x.getLsbD i := by
    rw [BitVec.getLsbD_setWidth, decide_eq_true (lt_of_lt_of_le hi h64), Bool.true_and]
  cases p with
  | q r => simpa [Apr.read, Apr.write, Apr.hibyte, Apr.sizeshift, opWidth] using hx
  | d r =>
    have h32 : i < 32 := hi
    simpa [Apr.read, Apr.write, Apr.hibyte, Apr.sizeshift, opWidth, h32] using hx
  | w r =>
    have h16 : i < 16 := hi
    simpa [Apr.read, Apr.write, Apr.hibyte, Apr.sizeshift, opWidth, h16] using hx
  | b r =>
    have h8 : i < 8 := hi
    simpa [Apr.read, Apr.write, Apr.hibyte, Apr.sizeshift, opWidth, h8] using hx
  | hi r =>
    have h8 : i < 8 := hi
    -- the mask leaves the second byte free
    have hmask : (~~~(0xff00 : W64)).getLsbD (8 + i) = false := by interval_cases i <;> decide
    show ((((old &&& ~~~(0xff00 : W64)) ||| (x.setWidth 64 <<< 8)) >>> 8).setWidth 8).getLsbD i = _
    rw [BitVec.getLsbD_setWidth, decide_eq_true h8, Bool.true_and, BitVec.getLsbD_ushiftRight, BitVec.getLsbD_or,
      BitVec.getLsbD_and, hmask, Bool.and_false, Bool.false_or, BitVec.getLsbD_shiftLeft, Nat.add_sub_cancel_left, hx,
      decide_eq_true (show 8 + i < 64 by omega), decide_eq_false (show ¬8 + i < 8 by omega)]
    rfl

namespace Operand

variable {d : Operand} {pfx : Prefixes} {rip : W64} {c : SeqCore}

/-- **Where `memRight` holds the uops access what x86 does.** -/
theorem agrees_of_memRight (h : c.Ready) (hctx : HostCtx c) {o : X86Operand} {size : Fin 4}
    (hwf : o.base = .rip → o.index = none) (hright : memRight pfx rip o = true) : (mem o size).Agrees pfx rip c := by
  unfold Agrees address effective
  dsimp only
  rw [(address_iff pfx rip o hwf).2 hright c h hctx]

theorem Agrees.accessible (h : d.Agrees pfx rip c) {store : Bool} :
    d.Accessible pfx rip c store ↔ d.X86Accessible pfx rip c store := by
  cases d with
  | reg r => exact Iff.rfl
  | mem o size =>
    unfold Agrees at h
    unfold Accessible X86Accessible
    dsimp only at h ⊢
    rw [h]

theorem Agrees.value (h : d.Agrees pfx rip c) : d.value pfx rip c = d.x86Value pfx rip c := by
  cases d with
  | reg r => rfl
  | mem o size =>
    unfold Agrees at h
    unfold Operand.value x86Value
    dsimp only at h ⊢
    rw [h]

/-- What the uops wrote is what x86 writes just if the two writes are the same. -/
theorem Written.x86_iff {v v' : BitVec (opWidth d.sizeshift)} {c' : SeqCore} (h : d.Written pfx rip c v' c') :
    d.X86Written pfx rip c v c' ↔ d.SameWrite pfx rip c v' v := by
  cases d with
  | reg p =>
    have hp : p.arch.isArch = true := decide_eq_true (lt_trans p.arch_lt (by decide))
    constructor
    · intro hw
      have hnew := hw.1 p.arch hp (p.arch_ne (by decide))
      rw [h.1 p.arch hp (p.arch_ne (by decide)), if_pos rfl, if_pos rfl] at hnew
      exact (p.read_write _ v').symm.trans ((congrArg p.read hnew).trans (p.read_write _ v))
    · rintro rfl
      exact h
  | mem o size =>
    constructor
    · intro hw
      exact h.2.symm.trans hw.2
    · intro hs
      exact ⟨h.1, h.2.trans hs⟩

theorem Agrees.sameWrite (h : d.Agrees pfx rip c) (v : BitVec (opWidth d.sizeshift)) : d.SameWrite pfx rip c v v := by
  cases d with
  | reg p => rfl
  | mem o size =>
    unfold Agrees at h
    unfold SameWrite
    dsimp only at h ⊢
    rw [h]

end Operand

end X86Sim
