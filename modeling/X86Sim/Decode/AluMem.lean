import X86Sim.Decode.Access

/-!
# ALU instructions on either kind of operand (`decode-core.cpp`)

`alu_reg_or_mem` with a destination in memory loads it into a temporary, operates on
that and stores it. What is asked of the operation is the same for both destinations: that
it merges a result into its first operand.
-/

namespace X86Sim

open X86Sim.Seq X86Sim.Seq.SeqCore

/-- `alu_reg_or_mem` of a destination in memory and a register or immediate. -/
def aluMemRegImm (pfx : Prefixes) (rip : W64) (opcode : Opcode) (memref : MemRef) (ra : RegImm) (setflags : SetFlags)
    (rcreg : Reg) (flagsonly : Bool) : List TransOp :=
  operandLoad pfx rip Reg.temp0 memref .opLd ++
    (if ra.hibyte then [TransOp.extractHigh Reg.temp2 ra.srcreg] else []) ++
    [.init opcode Reg.temp0 Reg.temp0 (if ra.hibyte then Reg.temp2 else ra.srcreg) rcreg memref.size ra.rbimm 0
      setflags] ++
    if flagsonly then [] else resultStore pfx rip Reg.temp0 memref

/-- `alu_reg_or_mem` of a register and a source in memory. -/
def aluRegMem (pfx : Prefixes) (rip : W64) (opcode : Opcode) (rd : Apr) (memref : MemRef) (setflags : SetFlags)
    (rcreg : Reg) (flagsonly : Bool) (raRbImm : Option W64) : List TransOp :=
  let destreg := rd.arch
  let rdhigh := rd.hibyte
  let sizeshift := rd.sizeshift
  let rareg := if rdhigh then Reg.temp2 else destreg
  operandLoad pfx rip Reg.temp0 memref .opLd ++
    (if rdhigh then [TransOp.extractHigh Reg.temp2 destreg] else []) ++
    if flagsonly then [.init opcode Reg.temp0 rareg Reg.temp0 rcreg sizeshift 0 0 setflags]
    else match raRbImm with
      | some rbimm =>
        [.init opcode destreg Reg.temp0 Reg.imm (if sizeshift ≥ 2 then Reg.zero else destreg) sizeshift rbimm 0 setflags]
      | none =>
        [.init opcode (if rdhigh then Reg.temp2 else destreg) rareg Reg.temp0 rcreg sizeshift 0 0 setflags] ++
          if rdhigh then [.insertHigh destreg Reg.temp2] else []

/-- `alu_reg_or_mem` of either destination. -/
def aluOperand (pfx : Prefixes) (rip : W64) (opcode : Opcode) (rd : Operand) (ra : RegImm) (setflags : SetFlags)
    (rcreg : Reg) : List TransOp :=
  match rd with
  | .reg rd => aluRegOrMem opcode rd ra setflags rcreg false false none
  | .mem o size => aluMemRegImm pfx rip opcode (o.memRef size) ra setflags rcreg false

/-- The word of a source operand that is not a high byte. -/
def RegImm.data (ra : RegImm) (arf : Reg → W64) : W64 :=
  match ra with
  | .reg r => arf r.arch
  | .imm v => v

/-- What an operation makes of an operand, of the source's word and of the flags of `rcreg`. -/
structure Merges (exec : Synthop) (o : Opcode) (s : SetFlags) (d : Operand) (a : BitVec (opWidth d.sizeshift))
    (rb : W64) (rcflags : W16) (x : BitVec (opWidth d.sizeshift)) (flags : W16) : Prop where
  result : ∀ (op : TransOp) (i : UopInputs), op.opcode = o → op.size = d.sizeshift → op.setflags = s →
    i.ra.setWidth _ = a → i.rb = rb → i.rcflags = rcflags →
    exec op i = ⟨x86Merge d.sizeshift i.ra (x.setWidth 64), flags⟩
  inv : flags &&& FLAG_INV = 0

section Run

variable (rest : Synthop) {c : SeqCore} {o : Opcode} {ra : RegImm} {s : SetFlags} {rc : Reg} {flags : W16}

theorem RegImm.rbdata (hra : ra.hibyte = false) {arf : Reg → W64} {arf' : Reg → W64}
    (hsame : ∀ r : Reg, r.isArch = true → r ≠ Reg.flags → arf' r = arf r) :
    (if ra.srcreg = Reg.imm then ra.rbimm else arf' (remap ra.srcreg)) = ra.data arf := by
  cases ra with
  | imm v => rfl
  | reg r =>
    have hlt := r.arch_lt
    show (if r.arch = Reg.imm then _ else arf' (remap r.arch)) = arf r.arch
    rw [if_neg (r.arch_ne (by decide)), remap_of_lt (by omega),
      hsame _ (decide_eq_true (show r.arch.val < 64 by omega)) (r.arch_ne (by decide))]

/-- The extraction of a high byte writes its temporary alone. -/
theorem writes_extractIf (high : Bool) {t r : Reg} (ht : Writable t) :
    ∀ op ∈ (if high then [TransOp.extractHigh t r] else []), Writes [t] op := by
  intro op hop
  cases high with
  | false => cases hop
  | true =>
    obtain rfl := List.mem_singleton.1 hop
    exact ⟨List.mem_cons_self, by show isstore .opMaskb = false; decide, rfl, rfl, ht⟩

/-- A register operand. -/
theorem wp_aluReg (h : c.Ready) {rd : Apr} (hra : ra.hibyte = false) (hxor : o ≠ .opXor)
    (hmem : (isload o || isstore o) = false) (hrc : remap rc ≠ Reg.temp2) {x : BitVec (opWidth rd.sizeshift)}
    (hm : Merges rest.withImpl o s (.reg rd) (rd.read (c.arf rd.arch)) (ra.data c.arf) (c.arflags (remap rc)) x flags)
    (pfx : Prefixes) (rip : W64) :
    Wp rest.withImpl (aluRegOrMem o rd ra s rc false false none) (fun c' =>
      (Operand.reg rd).Written pfx rip c x c' ∧ FlagsSet s flags c c') c := by
  have ht : Writable Reg.temp2 := ⟨by decide, by decide, by decide⟩
  have hrdarch : rd.arch.isArch = true := decide_eq_true (lt_trans rd.arch_lt (by decide))
  have hnone : ¬(o = .opXor ∧ rd.arch = ra.srcreg ∧ rd.sizeshift ≥ 2) := fun h => hxor h.1
  obtain ⟨c1, hrun1, hprep, hv2, -⟩ := run_prepare rest Frame.Sfr.zero h rd ra
  have hops : aluRegOrMem o rd ra s rc false false none =
      ((if rd.hibyte then [TransOp.extractHigh Reg.temp2 rd.arch] else []) ++
        (if ra.hibyte then [TransOp.extractHigh Reg.temp3 ra.srcreg] else [])) ++
      ([.init o (if rd.hibyte then Reg.temp2 else rd.arch) (if rd.hibyte then Reg.temp2 else rd.arch) ra.srcreg rc
        rd.sizeshift ra.rbimm 0 s] ++ (if rd.hibyte then [.insertHigh rd.arch Reg.temp2] else [])) := by
    unfold aluRegOrMem
    simp [hnone, hra]
  have hleaves : Leaves [Reg.temp2] c.space.bytes c c1 := by
    refine leaves_runUops ?_ h hrun1
    rw [hra]
    simpa using writes_extractIf rd.hibyte (r := rd.arch) ht
  have hread := rd_value rd (hprep.arch hrdarch) hv2
  have hold : rd.hibyte = false → rd.sizeshift ≤ 1 →
      c1.arf (remap (if rd.hibyte then Reg.temp2 else rd.arch)) = c.arf rd.arch := by
    intro hlow _
    rw [hlow, if_neg (by decide), remap_of_lt (lt_trans rd.arch_lt (by decide)), hprep.arch hrdarch]
  obtain ⟨c2, hrun2, hdid⟩ := run_written rest Frame.Sfr.zero hmem hprep rd ra.srcreg rc ra.rbimm s hold
    (hm.result _ (c1.inputs _) rfl rfl rfl hread
      (RegImm.rbdata hra fun r hr _ => hprep.arch hr) (hleaves.arflags _ fun hmem => hrc (List.mem_singleton.1 hmem))) hm.inv
  have hrun : c.runUops rest.withImpl Frame.Sfr.zero (aluRegOrMem o rd ra s rc false false none) = some c2 := by
    rw [hops, SeqCore.runUops_append, hrun1]
    exact hrun2
  refine wp_runUops ?_ hrun ⟨⟨fun r hr hf => ?_, by rw [hdid.space]⟩, hdid.status⟩
  · intro op hop
    have hmask : isstore .opMaskb = false := by decide
    have hst : isstore o = false := (Bool.or_eq_false_iff.1 hmem).2
    rw [hops, hra] at hop
    cases hi : rd.hibyte <;> rw [hi] at hop <;> simp at hop
    · subst hop
      exact hst
    · rcases hop with rfl | rfl | rfl
      · exact hmask
      · exact hst
      · exact hmask
  · rw [hdid.regs r hr hf]
    simp only [true_and]

/-- A store depends on the bytes it stores. -/
theorem storeBytewise_congr {a n : ℕ} {v v' : W64} (h : v.setWidth (8 * n) = v'.setWidth (8 * n)) (m : ℕ → Byte) :
    storeBytewise a v m n = storeBytewise a v' m n := by
  have hbyte : ∀ i < n, ByteMask.byteAt v i = ByteMask.byteAt v' i := by
    intro i hi
    apply BitVec.eq_of_getLsbD_eq
    intro j hj
    have hbit := congrArg (fun x => x.getLsbD (8 * i + j)) h
    simp only [BitVec.getLsbD_setWidth, show 8 * i + j < 8 * n by omega, decide_true, Bool.true_and] at hbit
    simp only [ByteMask.byteAt, BitVec.getLsbD_extractLsb', hj, decide_true, Bool.true_and, hbit]
  clear h
  induction n with
  | zero => rfl
  | succ n ih =>
    show Function.update _ _ _ = Function.update _ _ _
    rw [ih fun i hi => hbyte i (Nat.lt_succ_of_lt hi), hbyte n n.lt_succ_self]

/-- The uops of a memory operand: those before the store, and the store. -/
theorem aluMemRegImm_eq {op : X86Operand} {size : Fin 4} (hra : ra.hibyte = false) (pfx : Prefixes) (rip : W64) :
    aluMemRegImm pfx rip o (op.memRef size) ra s rc false = (operandLoad pfx rip Reg.temp0 (op.memRef size) .opLd ++
      [.init o Reg.temp0 Reg.temp0 ra.srcreg rc size ra.rbimm 0 s]) ++ resultStore pfx rip Reg.temp0 (op.memRef size) := by
  unfold aluMemRegImm
  rw [hra]
  simp only [Bool.false_eq_true, if_false, List.append_nil]
  rfl

/-- A memory operand is loaded into `temp0` and operated on there. -/
theorem wp_aluMem_merged (h : c.Ready) {op : X86Operand} {size : Fin 4} (hra : ra.hibyte = false)
    (hmem : (isload o || isstore o) = false)
    (hrc : remap rc ∉ [Reg.temp6, Reg.temp8, Reg.temp0, Reg.temp4, Reg.temp9]) {pfx : Prefixes} {rip : W64}
    (hctx : HostCtx c) (hload : Accessible c false (Operand.address pfx c rip op) size) {x : BitVec (opWidth size)}
    (hm : Merges rest.withImpl o s (.mem op size) ((Operand.mem op size).value pfx rip c) (ra.data c.arf)
      (c.arflags (remap rc)) x flags) :
    Wp rest.withImpl (operandLoad pfx rip Reg.temp0 (op.memRef size) .opLd ++
        [.init o Reg.temp0 Reg.temp0 ra.srcreg rc size ra.rbimm 0 s]) (fun c2 =>
      Leaves ([Reg.temp6, Reg.temp8, Reg.temp0, Reg.temp4, Reg.temp9] ++ [Reg.temp0, Reg.flags]) c.space.bytes c c2 ∧
        (c2.arf Reg.temp0).setWidth (opWidth size) = (x.setWidth 64).setWidth (opWidth size) ∧ FlagsSet s flags c c2) c := by
  have ht : Writable Reg.temp0 := ⟨by decide, by decide, by decide⟩
  have hsize : size.val ≤ 3 := by omega
  have htemps : Temps [Reg.temp6, Reg.temp8, Reg.temp0, Reg.temp4, Reg.temp9] := by decide
  have h0 : remap Reg.temp0 = Reg.temp0 := by decide
  refine Triples.wp_append (Triples.wp_mono (wp_operandLoad pfx rip Reg.temp0 op size rest h hctx (by decide) hsize ht
    hload) ?_)
  rintro c1 ⟨h1, hv1, -⟩
  have hread : (c1.arf (remap Reg.temp0)).setWidth (opWidth size.val) = (Operand.mem op size).value pfx rip c := by
    have hle := opWidth_le hsize
    rw [h0, hv1]
    show ((loadBytes _ _ _).setWidth 64).setWidth _ = _
    rw [BitVec.setWidth_setWidth_of_le _ hle, BitVec.setWidth_eq]
    rfl
  refine Triples.wp_mono (@wp_result_flags c1
    (.init o Reg.temp0 Reg.temp0 ra.srcreg rc size ra.rbimm 0 s) _ hmem rfl rfl rfl h1.ready ht _
    (hm.result _ (c1.inputs _) rfl rfl rfl hread (RegImm.rbdata hra fun r hr hf => h1.arch htemps hr hf)
      (h1.arflags _ hrc)) hm.inv) ?_
  rintro c2 ⟨h2, hv2, hflags⟩
  have h12 := h1.trans h2
  rw [h1.bytes] at h12
  refine ⟨h12, ?_, fun i => ?_⟩
  · exact (congrArg (BitVec.setWidth (opWidth size.val)) hv2).trans (x86Merge_setWidth hsize (c1.arf Reg.temp0) _)
  · have hflag := hflags i
    rw [h1.arf Reg.flags (by decide)] at hflag
    exact hflag

/-- A memory operand: loaded into `temp0`, operated on there, and stored. -/
theorem wp_aluMem (h : c.Ready) {op : X86Operand} {size : Fin 4} (hra : ra.hibyte = false)
    (hmem : (isload o || isstore o) = false)
    (hrc : remap rc ∉ [Reg.temp6, Reg.temp8, Reg.temp0, Reg.temp4, Reg.temp9]) {pfx : Prefixes} {rip : W64}
    (hacc : (Operand.mem op size).Accessible pfx rip c true) {x : BitVec (opWidth size)}
    (hm : Merges rest.withImpl o s (.mem op size) ((Operand.mem op size).value pfx rip c) (ra.data c.arf)
      (c.arflags (remap rc)) x flags) :
    Wp rest.withImpl (aluMemRegImm pfx rip o (op.memRef size) ra s rc false) (fun c' =>
      (Operand.mem op size).Written pfx rip c x c' ∧ FlagsSet s flags c c') c := by
  have hsize : size.val ≤ 3 := by omega
  obtain ⟨hctx, hload, hstore⟩ := hacc
  rw [aluMemRegImm_eq hra]
  refine Triples.wp_append (Triples.wp_mono (wp_aluMem_merged rest h hra hmem hrc hctx hload hm) ?_)
  rintro c2 ⟨h12, hlow, hflags⟩
  have htemps2 : Temps ([Reg.temp6, Reg.temp8, Reg.temp0, Reg.temp4, Reg.temp9] ++ [Reg.temp0, Reg.flags]) := by decide
  have haddr : Operand.address pfx c2 rip op = Operand.address pfx c rip op := Operand.address_congr h12 htemps2 op
  refine Triples.wp_mono (wp_resultStore pfx rip Reg.temp0 op size rest h12.ready (hctx.leaves h12 htemps2) hsize
    (by decide) (by decide) (by decide) ?_) fun c' h3 => ?_
  · show X86Sim.Accessible c2 true (Operand.address pfx c2 rip op) size
    unfold X86Sim.Accessible
    rw [haddr, h12.check]
    exact hstore rfl
  have h0 : remap Reg.temp0 = Reg.temp0 := by decide
  refine ⟨⟨fun r hr hf => ?_, ?_⟩, fun i => ?_⟩
  · rw [h3.arch (by decide) hr hf, h12.arch htemps2 hr hf]
  · have hbytes := h3.bytes
    rw [h12.bytes, h0, storeBytewise_congr hlow] at hbytes
    rw [hbytes]
    exact congrArg (fun a => storeBytewise a (x.setWidth 64) c.space.bytes (2 ^ size.val)) haddr
  · rw [h3.arf Reg.flags (by decide)]
    exact hflags i

/-- A memory operand that may not be loaded and stored is not. -/
theorem not_wp_aluMem (h : c.Ready) {op : X86Operand} {size : Fin 4} (hra : ra.hibyte = false)
    (hmem : (isload o || isstore o) = false)
    (hrc : remap rc ∉ [Reg.temp6, Reg.temp8, Reg.temp0, Reg.temp4, Reg.temp9]) {pfx : Prefixes} {rip : W64}
    (hctx : HostCtx c) (hno : ¬(Operand.mem op size).Accessible pfx rip c true) {x : BitVec (opWidth size)}
    (hm : Merges rest.withImpl o s (.mem op size) ((Operand.mem op size).value pfx rip c) (ra.data c.arf)
      (c.arflags (remap rc)) x flags) {Q : SeqCore → Prop} :
    ¬Wp rest.withImpl (aluMemRegImm pfx rip o (op.memRef size) ra s rc false) Q c := by
  have hnonempty : Nonempty (ℕ → Sfr) := ⟨fun _ => Frame.Sfr.zero⟩
  have hsize : size.val ≤ 3 := by omega
  rw [aluMemRegImm_eq hra]
  by_cases hload : Accessible c false (Operand.address pfx c rip op) size
  · -- it is the store that is refused
    refine Triples.not_wp_append (wp_aluMem_merged rest h hra hmem hrc hctx hload hm) ?_
    rintro c2 ⟨h12, -, -⟩
    have htemps2 : Temps ([Reg.temp6, Reg.temp8, Reg.temp0, Reg.temp4, Reg.temp9] ++ [Reg.temp0, Reg.flags]) := by decide
    have haddr : Operand.address pfx c2 rip op = Operand.address pfx c rip op := Operand.address_congr h12 htemps2 op
    have hwp := @not_wp_resultStore pfx rip Reg.temp0 op size rest c2 Q h12.ready (hctx.leaves h12 htemps2) hsize
      (by decide) []
    rw [List.append_nil] at hwp
    refine hwp fun hstore => hno ⟨hctx, hload, fun _ => ?_⟩
    change Accessible c2 true (Operand.address pfx c2 rip op) size at hstore
    unfold Accessible at hstore
    rwa [haddr, h12.check] at hstore
  · rw [List.append_assoc]
    exact not_wp_loadOperand pfx rip Reg.temp0 op size rest h hctx true (by decide) hsize ⟨by decide, by decide, by decide⟩
      _ hload

/-- **An operation on either operand**: the result in it and the status in the flags that are set. -/
theorem wp_aluOperand (h : c.Ready) (d : Operand) (hra : ra.hibyte = false) (hxor : o ≠ .opXor)
    (hmem : (isload o || isstore o) = false)
    (hrc : remap rc ∉ [Reg.temp2, Reg.temp6, Reg.temp8, Reg.temp0, Reg.temp4, Reg.temp9]) {pfx : Prefixes} {rip : W64}
    (hacc : d.Accessible pfx rip c true) {x : BitVec (opWidth d.sizeshift)}
    (hm : Merges rest.withImpl o s d (d.value pfx rip c) (ra.data c.arf) (c.arflags (remap rc)) x flags) :
    Wp rest.withImpl (aluOperand pfx rip o d ra s rc) (fun c' => d.Written pfx rip c x c' ∧ FlagsSet s flags c c') c := by
  cases d with
  | reg r => exact wp_aluReg rest h hra hxor hmem (fun h2 => hrc (h2 ▸ List.mem_cons_self)) hm pfx rip
  | mem op size => exact wp_aluMem rest h hra hmem (fun h => hrc (List.mem_cons_of_mem _ h)) hacc hm

/-- An operand that may not be loaded and stored is not operated on. -/
theorem not_wp_aluOperand (h : c.Ready) (d : Operand) (hra : ra.hibyte = false)
    (hmem : (isload o || isstore o) = false)
    (hrc : remap rc ∉ [Reg.temp2, Reg.temp6, Reg.temp8, Reg.temp0, Reg.temp4, Reg.temp9]) {pfx : Prefixes} {rip : W64}
    {store : Bool} (hctx : d.X86Accessible pfx rip c store) (hno : ¬d.Accessible pfx rip c true)
    {x : BitVec (opWidth d.sizeshift)}
    (hm : Merges rest.withImpl o s d (d.value pfx rip c) (ra.data c.arf) (c.arflags (remap rc)) x flags)
    {Q : SeqCore → Prop} : ¬Wp rest.withImpl (aluOperand pfx rip o d ra s rc) Q c := by
  cases d with
  | reg r => exact absurd trivial hno
  | mem op size => exact not_wp_aluMem rest h hra hmem (fun h => hrc (List.mem_cons_of_mem _ h)) hctx.1 hno hm

end Run

end X86Sim
