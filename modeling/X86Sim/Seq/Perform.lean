import X86Sim.Lib.Triples
import X86Sim.Seq.Unaligned

/-!
# Uops with their memory accesses

The uops of an instruction in order, an access that is not aligned split into three of
its own. Of each kind of uop it is said once what it leaves: a result, a load byte by
byte, a store byte by byte; everything else stays.
-/

namespace X86Sim.Seq

open ByteMask

namespace SeqCore

variable {c : SeqCore} {op : TransOp} {exec : Synthop}

/-- One uop, issued and committed; one that is refetched is split. -/
def turn (exec : Synthop) (junk : ℕ → Sfr) (op : TransOp) (c : SeqCore) : Except (SeqCore × Issued) SeqCore :=
  match c.issue exec (junk 0) op with
  | .completed reg sfr => .ok (c.commitUop op reg sfr)
  | .refetch =>
    match run exec (splitUnaligned { op with unaligned := true }) (fun n => junk (n + 1)) c with
    | .done c => .ok c
    | .stopped c how => .error (c, how)
  | how => .error (c, how)

/-- Some uops in order. -/
abbrev perform (exec : Synthop) : List TransOp → (ℕ → ℕ → Sfr) → SeqCore → Except (SeqCore × Issued) SeqCore :=
  Triples.run (turn exec)

/-- The uops all complete and leave a core of `Q`. -/
abbrev Wp (exec : Synthop) : List TransOp → (SeqCore → Prop) → SeqCore → Prop := Triples.wp (turn exec)

/-- `c'` is `c` with other values in the registers `rs`, and with the bytes `m`. -/
structure Leaves (rs : List Reg) (m : ℕ → Byte) (c c' : SeqCore) : Prop where
  arf : ∀ r ∉ rs, c'.arf r = c.arf r
  arflags : ∀ r ∉ rs, c'.arflags r = c.arflags r
  bytes : c'.space.bytes = m
  check : c'.space.check = c.space.check
  ctx : c'.ctx = c.ctx
  ready : c'.Ready

/-- None of the registers is architectural, but for the flags. -/
def Temps (rs : List Reg) : Prop := ∀ r ∈ rs, 64 ≤ r.val ∨ r = Reg.flags

instance (rs : List Reg) : Decidable (Temps rs) := inferInstanceAs (Decidable (∀ r ∈ rs, _))

namespace Leaves

variable {rs rs' : List Reg} {m m' : ℕ → Byte} {c' c'' : SeqCore}

theorem refl (h : c.Ready) : Leaves [] c.space.bytes c c := ⟨fun _ _ => rfl, fun _ _ => rfl, rfl, rfl, rfl, h⟩

theorem trans (h : Leaves rs m c c') (h' : Leaves rs' m' c' c'') : Leaves (rs ++ rs') m' c c'' where
  arf r hr := by
    rw [List.mem_append, not_or] at hr
    rw [h'.arf r hr.2, h.arf r hr.1]
  arflags r hr := by
    rw [List.mem_append, not_or] at hr
    rw [h'.arflags r hr.2, h.arflags r hr.1]
  bytes := h'.bytes
  check := h'.check.trans h.check
  ctx := h'.ctx.trans h.ctx
  ready := h'.ready

theorem mono (h : Leaves rs m c c') (hrs : rs ⊆ rs') : Leaves rs' m c c' :=
  ⟨fun r hr => h.arf r fun hmem => hr (hrs hmem), fun r hr => h.arflags r fun hmem => hr (hrs hmem), h.bytes,
    h.check, h.ctx, h.ready⟩

theorem arch (h : Leaves rs m c c') (hrs : Temps rs) {r : Reg} (hr : r.isArch = true) (hf : r ≠ Reg.flags) :
    c'.arf r = c.arf r :=
  h.arf r fun hmem => (hrs r hmem).elim (fun hle => absurd hle (Nat.not_le.2 (of_decide_eq_true hr))) hf

end Leaves

/-! ### Results -/

/-- A uop that is no load and no store writes its result, if it reports no exception. -/
theorem wp_result {Q : SeqCore → Prop} (hmem : isMem op = false) (hsse : op.isSse = false) (hx87 : op.isX87 = false)
    (hrd : op.rd ≠ Reg.zero) (hinv : isbranch op.opcode = true ∨ (exec op (c.inputs op)).rdflags &&& FLAG_INV = 0)
    (h : Q (c.writeResult op (exec op (c.inputs op)))) : Wp exec [op] Q c := by
  have hfp : c.fpUnavailable op = false := by simp [fpUnavailable, hsse, hx87]
  have hreports : c.reports exec op = 0 := by
    refine if_neg ?_
    rintro ⟨hbr, hne⟩
    rcases hinv with hbr' | hinv
    · rw [hbr'] at hbr
      cases hbr
    · exact hne hinv
  have hst : ¬(op.opcode = .opSt ∨ op.opcode = .opStA16) := by
    rintro (h | h) <;> rw [isMem, h] at hmem <;> exact absurd hmem (by decide)
  refine Triples.wp_single fun junk => ⟨_, ?_, h⟩
  unfold turn
  rw [issue_alu exec (junk 0) hfp hmem, if_pos hreports]
  simp only [commitUop, if_neg hst, hrd, ne_eq, not_false_eq_true, if_true]

/-- What the store record held does not matter to a uop that is no store. -/
theorem issue_completed_junk (hst : isstore op.opcode = false) {junk : Sfr} {reg : UopResult} {sfr : Sfr}
    (h : c.issue exec junk op = .completed reg sfr) (junk' : Sfr) :
    ∃ sfr', c.issue exec junk' op = .completed reg sfr' := by
  cases hfp : c.fpUnavailable op with
  | true =>
    unfold issue at h
    rw [if_pos hfp] at h
    cases h
  | false =>
    cases hld : isload op.opcode with
    | true =>
      cases hg : (c.addrgen op).result with
      | ok p =>
        obtain ⟨sfr₁, h₁⟩ := issue_load exec junk hfp hld hg
        obtain ⟨hreg, -⟩ := Issued.completed.inj (h.symm.trans h₁)
        rw [hreg]
        exact issue_load exec junk' hfp hld hg
      | error e =>
        unfold issue issueload handleCommonExceptions at h
        simp only [hfp, hld, hg, Bool.false_eq_true, if_false, Bool.true_or, if_true] at h
        split at h
        · cases h
        · cases h
        · rename_i hs
          split at hs
          · cases hs
          · split at hs <;> cases hs
    | false =>
      have hmem : isMem op = false := by
        unfold isMem
        rw [hld, hst]
        rfl
      rw [issue_alu exec _ hfp hmem] at h ⊢
      split at h
      · rename_i hrep
        rw [if_pos hrep]
        exact ⟨junk', congrArg (Issued.completed · junk') (Issued.completed.inj h).1⟩
      · split at h <;> cases h

theorem commitUop_sfr (hst : isstore op.opcode = false) (reg : UopResult) (sfr sfr' : Sfr) :
    c.commitUop op reg sfr = c.commitUop op reg sfr' := by
  have hno : ¬(op.opcode = .opSt ∨ op.opcode = .opStA16) := by
    rintro (h | h) <;> rw [h] at hst <;> exact absurd hst (by decide)
  unfold commitUop
  rw [if_neg hno, if_neg hno]

/-- Uops that are no stores and complete one after the other are performed. -/
theorem wp_runUops {ops : List TransOp} {junk : Sfr} {c' : SeqCore} {Q : SeqCore → Prop}
    (hst : ∀ op ∈ ops, isstore op.opcode = false) (hrun : c.runUops exec junk ops = some c') (h : Q c') :
    Wp exec ops Q c := by
  induction ops generalizing c with
  | nil =>
    rw [← Option.some.inj hrun] at h
    exact Triples.wp_nil h
  | cons op ops ih =>
    have hop := hst op List.mem_cons_self
    obtain ⟨c₁, hone, hrest⟩ := Option.bind_eq_some_iff.1 hrun
    refine Triples.wp_cons (Triples.wp_single fun junk' =>
      ⟨c₁, ?_, ih (fun o ho => hst o (List.mem_cons_of_mem _ ho)) hrest⟩)
    unfold runUop at hone
    split at hone
    · rename_i reg sfr hissue
      obtain ⟨sfr', hissue'⟩ := issue_completed_junk hop hissue (junk' 0)
      unfold turn
      rw [hissue']
      dsimp only
      rw [commitUop_sfr hop reg sfr' sfr, Option.some.inj hone]
    · cases hone

/-! ### Accesses -/

theorem addrgen_normal (hcond : op.cond = LdstAlign.normal.cond) : c.addrgen op =
    ⟨c.linear op, c.linear op, false,
      checkAndTranslate c.space (c.linear op) op.size (isstore op.opcode) op.internal⟩ := by
  have horig : c.origaddr op = c.linear op := by
    unfold origaddr linear
    rw [if_pos (.inr hcond)]
  have hlo : ¬op.cond = LdstAlign.lo.cond := by rw [hcond]; decide
  have hhi : ¬op.cond = LdstAlign.hi.cond := by rw [hcond]; decide
  rw [addrgen_eq, horig]
  simp only [hlo, hhi, false_and, decide_false, if_false]

theorem splitUnaligned_unaligned (op : TransOp) : splitUnaligned { op with unaligned := true } = splitUnaligned op :=
  rfl

/-- An access that is not aligned is refetched. -/
theorem issue_unaligned (hfp : c.fpUnavailable op = false) (hmem : isMem op = true) (hmf : op.opcode ≠ .opMf)
    (hcond : op.cond = LdstAlign.normal.cond) (hlow : lowbits (c.linear op) op.size ≠ 0) (junk : Sfr) :
    c.issue exec junk op = .refetch := by
  have hissue := issue_mem exec junk hfp hmem hmf
  rw [addrgen_normal hcond] at hissue
  dsimp only at hissue
  unfold checkAndTranslate at hissue
  rw [if_pos hlow] at hissue
  exact hissue

/-- An aligned access that is permitted stays in its chunk. -/
theorem addrgen_aligned (hcond : op.cond = LdstAlign.normal.cond) (hint : op.internal = false)
    (hlow : lowbits (c.linear op) op.size = 0)
    (hok : c.permits false (isstore op.opcode) (c.linear op) = true) :
    c.addrgen op = ⟨c.linear op, c.linear op, false, .ok (place false (floor8 (c.linear op)))⟩ := by
  have hcheck : c.space.check (c.linear op) ⟨!isstore op.opcode, isstore op.opcode, false⟩ = true := hok
  rw [addrgen_normal hcond]
  unfold checkAndTranslate
  rw [if_neg (not_not.2 hlow), hint, if_neg Bool.false_ne_true, hcheck]
  rfl

/-- An aligned access that is not permitted stops. -/
theorem turn_refused (hfp : c.fpUnavailable op = false) (hmem : isMem op = true) (hmf : op.opcode ≠ .opMf)
    (hcond : op.cond = LdstAlign.normal.cond) (hint : op.internal = false) (hlow : lowbits (c.linear op) op.size = 0)
    (hno : c.permits false (isstore op.opcode) (c.linear op) = false) (junk : ℕ → Sfr) :
    ∃ e, turn exec junk op c = .error e := by
  have hissue := issue_mem exec (junk 0) hfp hmem hmf
  have hcheck : c.space.check (c.linear op) ⟨!isstore op.opcode, isstore op.opcode, false⟩ = false := hno
  have herr : ∃ e, (c.addrgen op).result = .error e ∧ e.1 ≠ .unalignedAccess := by
    rw [addrgen_normal hcond]
    unfold checkAndTranslate
    rw [if_neg (not_not.2 hlow), hint, if_neg Bool.false_ne_true, hcheck]
    refine ⟨_, rfl, ?_⟩
    dsimp only
    cases isstore op.opcode
    · exact fun h => nomatch h
    · exact fun h => nomatch h
  obtain ⟨⟨e, pfec⟩, hres, hne⟩ := herr
  rw [hres] at hissue
  dsimp only at hissue
  rw [if_neg hne] at hissue
  obtain ⟨ctx, hstop, -⟩ := hissue
  unfold turn
  rw [hstop]
  exact ⟨_, rfl⟩

/-- An aligned access ends in the chunk it starts in. -/
theorem aligned_le {a size : ℕ} (hsize : size ≤ 3) (h : lowbits a size = 0) : a % 8 + 2 ^ size ≤ 8 := by
  unfold lowbits at h
  interval_cases size <;> simp only [Nat.reducePow] at h ⊢ <;> omega

/-- A store to guest memory leaves the context. -/
theorem MemOnly.guest_ctx {c' : SeqCore} (h : MemOnly false c c') : c'.ctx = c.ctx := by
  have hhost : c'.ctx.hostBytes = c.ctx.hostBytes := h.other
  rw [h.same, hhost]

theorem MemOnly.check {internal : Bool} {c' : SeqCore} (h : MemOnly internal c c') :
    c'.space.check = c.space.check := by
  rw [h.same]
  rfl

variable (rest : Synthop)

/-- **A load** writes the bytes it reads, and of the other registers at most the temporaries of the split. -/
theorem wp_load (h : c.Ready) (hfp : c.fpUnavailable op = false) (hld : isload op.opcode = true)
    (hint : op.internal = false) (hcond : op.cond = LdstAlign.normal.cond) (hsize : op.size ≤ 3)
    (hs : op.setflags = .none) (hzero : op.rd ≠ Reg.zero) (htrace : op.rd ≠ Reg.trace) (hflags : op.rd ≠ Reg.flags)
    (hok : c.Permitted op) : Wp rest.withImpl [op] (fun c' =>
      Leaves [op.rd, Reg.temp4, Reg.temp9] c.space.bytes c c' ∧ c'.arf op.rd = c.littleEndian op ∧
        c'.arflags op.rd = 0) c := by
  have hfirst : c.permits op.internal (isstore op.opcode) (c.linear op) = true := ((permitted_iff hsize).1 hok).1
  have hmem : isMem op = true := by
    unfold isMem
    rw [hld]
    rfl
  have hmf : op.opcode ≠ .opMf := by
    rintro hmf
    rw [hmf] at hld
    exact absurd hld (by decide)
  have hleft : ∀ {d : SeqCore}, c.Scratched d →
      Leaves [op.rd, Reg.temp4, Reg.temp9] c.space.bytes c (d.setReg op.rd (c.littleEndian op)) ∧
        (d.setReg op.rd (c.littleEndian op)).arf op.rd = c.littleEndian op ∧
        (d.setReg op.rd (c.littleEndian op)).arflags op.rd = 0 := by
    intro d hd
    refine ⟨⟨fun r hr => ?_, fun r hr => ?_, ?_, ?_, hd.ctx, hd.ready.setReg hzero htrace hflags _⟩,
      setReg_arf_self _ _, Function.update_self _ _ _⟩
    · simp only [List.mem_cons, List.not_mem_nil, or_false, not_or] at hr
      rw [setReg_arf_of_ne _ hr.1, hd.arf r hr.2.1 hr.2.2]
    · simp only [List.mem_cons, List.not_mem_nil, or_false, not_or] at hr
      exact (Function.update_of_ne hr.1 _ _).trans (hd.arflags r hr.2.1 hr.2.2)
    · rw [setReg_space, hd.space]
    · rw [setReg_space, hd.space]
  refine Triples.wp_single fun junk => ?_
  by_cases hlow : lowbits (c.linear op) op.size = 0
  · -- aligned: one access
    have hgen := addrgen_aligned hcond hint hlow (by rwa [hint] at hfirst)
    obtain ⟨sfr, hissue⟩ := issue_load rest.withImpl (junk 0) hfp hld (congrArg AddrGen.result hgen)
    have hnothi : ¬op.cond = LdstAlign.hi.cond := by rw [hcond]; decide
    have hvalue : loadResult op (c.linear op) (c.linear op) (c.rbdata op)
        (c.loadphys (place false (floor8 (c.linear op)))) = c.littleEndian op := by
      have hle := aligned_le hsize hlow
      unfold loadResult littleEndian
      rw [if_neg hnothi, loadphys_place, extractBytes_eq _ _ _ hsize, hint]
      refine extend_congr (fun i hi => ?_) _
      have hlane : lowbits (c.linear op) 3 + i < 8 := by
        show c.linear op % 8 + i < 8
        omega
      rw [lane, if_pos hlane, byteAt_ofBytes _ hlane, byteAddr_low linear_lt hlane]
      rfl
    have hnostore : op.opcode ≠ .opSt ∧ op.opcode ≠ .opStA16 := by
      constructor <;> rintro hop <;> rw [hop] at hld <;> exact absurd hld (by decide)
    rw [hgen, if_neg fun h => hnothi h.1, hvalue] at hissue
    refine ⟨c.setReg op.rd (c.littleEndian op), ?_, hleft (.refl h)⟩
    unfold turn
    rw [hissue]
    exact congrArg Except.ok (commitUop_eq_setReg h hs hnostore hzero hflags _ _)
  · -- across chunks: the refetched halves, which a permitted access goes through
    obtain ⟨-, d, hd, hdone, -⟩ := run_split_load rest h hfp hld hsize hs hzero hflags fun n => junk (n + 1)
    refine ⟨_, ?_, hleft hd⟩
    unfold turn
    rw [issue_unaligned hfp hmem hmf hcond hlow]
    simp only [splitUnaligned_unaligned, hdone hok]

/-- **A store** writes its bytes, and of the registers at most a temporary of the split. -/
theorem wp_store (h : c.Ready) (hfp : c.fpUnavailable op = false) (hst : op.opcode = .opSt ∨ op.opcode = .opStA16)
    (hint : op.internal = false) (hcond : op.cond = LdstAlign.normal.cond) (hsize : op.size ≤ 3)
    (hs : op.setflags = .none) (hrc : op.rc ≠ Reg.temp9) (hok : c.Permitted op) :
    Wp rest.withImpl [op] (Leaves [Reg.temp9] (storeBytewise (c.linear op) (c.rcdata op) c.space.bytes (2 ^ op.size)) c)
      c := by
  have hclass : isload op.opcode = false ∧ isstore op.opcode = true ∧ op.opcode ≠ .opMf := by
    rcases hst with h | h <;> rw [h] <;> decide
  have hfirst : c.permits op.internal (isstore op.opcode) (c.linear op) = true := ((permitted_iff hsize).1 hok).1
  have hmem : isMem op = true := by
    unfold isMem
    rw [hclass.2.1, Bool.or_true]
  have hpow : 2 ^ op.size ≤ 2 ^ 3 := Nat.pow_le_pow_right (by decide) hsize
  refine Triples.wp_single fun junk => ?_
  by_cases hlow : lowbits (c.linear op) op.size = 0
  · -- aligned: one access
    have hgen := addrgen_aligned hcond hint hlow (by rwa [hint] at hfirst)
    have hissue := issue_store rest.withImpl (junk 0) hst hfp (congrArg AddrGen.result hgen)
    have hnothi : ¬op.cond = LdstAlign.hi.cond := by rw [hcond]; decide
    have hbytes : storeBytes op.cond op.size (c.linear op) (c.rcdata op) =
        (BitVec.ofNat 8 ((2 ^ 2 ^ op.size - 1) <<< (c.linear op % 8)), c.rcdata op <<< (8 * (c.linear op % 8))) := by
      unfold storeBytes
      rw [if_neg hnothi, if_pos (.inl hcond)]
      rfl
    rw [hgen, hbytes] at hissue
    refine ⟨_, by unfold turn; rw [hissue], ?_⟩
    unfold commitUop
    rw [if_pos hst]
    obtain ⟨hput, hm⟩ := commitStore_place c (chunk_first (c.linear op)) { junk 0 with
      data := c.rcdata op <<< (8 * (c.linear op % 8)), physaddr := some (place false (floor8 (c.linear op))),
      bytemask := BitVec.ofNat 8 ((2 ^ 2 ^ op.size - 1) <<< (c.linear op % 8)) } rfl
    have hstore : putChunk (c.mem false) (floor8 (c.linear op)) (c.rcdata op <<< (8 * (c.linear op % 8)))
        (BitVec.ofNat 8 ((2 ^ 2 ^ op.size - 1) <<< (c.linear op % 8))) =
        storeBytewise (c.linear op) (c.rcdata op) c.space.bytes (2 ^ op.size) := by
      have hle := aligned_le hsize hlow
      funext x
      rw [putChunk_low linear_lt hpow]
      split
      · rfl
      · rename_i hmiss
        rw [storeBytewise_of_ne fun i hi hx => hmiss ⟨i, hi, by omega, hx⟩]
        rfl
    rw [hstore] at hput
    exact ⟨fun r _ => congrFun hm.arf r, fun r _ => congrFun hm.arflags r, hput, hm.check, hm.guest_ctx, hm.ready h⟩
  · obtain ⟨-, d, hd, hdone, -⟩ := run_split_store rest h hfp hst hsize hs hrc fun n => junk (n + 1)
    obtain ⟨hrun, hbytes⟩ := hdone hok
    refine ⟨d, ?_, ?_⟩
    · unfold turn
      rw [issue_unaligned hfp hmem hclass.2.2 hcond hlow]
      simp only [splitUnaligned_unaligned, hrun]
    · rw [hint] at hbytes
      have hhost : d.ctx.hostBytes = c.ctx.hostBytes := by
        have hother := hd.other
        rw [hint] at hother
        exact hother
      refine ⟨fun r hr => hd.arf r (by simpa using hr), fun r hr => hd.arflags r (by simpa using hr), hbytes, ?_, ?_,
        hd.ready⟩
      · rw [hd.same]
        rfl
      · rw [hd.same, hhost]

end SeqCore
end X86Sim.Seq
