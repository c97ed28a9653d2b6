import X86Sim.Exceptions.Assists
import X86Sim.Proof.Runs

/-!
# Exception mapping

The report of an exception should be the same from both cores, depend on nothing but that
exception, and name an address of the guest's code.

* `uopReports_iff`: of the exceptions of uops, only page faults of loads and stores at
  canonical addresses are reported so.
* `assistReports_iff`: of those of assists, all but the ones of `int n` and of a general
  protection fault found by the decoder.
* `mapped_iff`: both.
-/

namespace X86Sim

open X86Sim.Seq X86Sim.Ooo

/-! ### Reports of uops -/

/-- `addrgen`, before any check. -/
def Seq.SeqCore.effective (c : SeqCore) (op : TransOp) : W64 :=
  if isstore op.opcode ∨ op.cond = LdstAlign.normal.cond then c.radata op + c.rbdata op else c.radata op

/-- What the sequential core reports of a uop; the flags it puts back are in `savedFlags`. -/
def Seq.SeqCore.report (c : SeqCore) (exec : Synthop) (junk : Sfr) (op : TransOp) (savedFlags : W64) :
    Option X86Exception :=
  match c.issue exec junk op with
  | .exception ctx => some (c.raise ctx savedFlags).handleException.1
  | _ => none

/-- What the out-of-order core reports of entry `i`, when the scan at commit comes to it. -/
def Ooo.Core.report (e : Core) (i : ℕ) : Option X86Exception :=
  let c := e.forceFpUnavailable i
  if c.vals.valid (c.regs.physreg i) then none else (c.noteException i).handleException.1

/-- Entry `i` holds the uop with the operand values it has in the sequential core, and a load
or store has its place in the queue. -/
structure Ooo.Core.Holds (d : Core) (i : ℕ) (c : SeqCore) (op : TransOp) : Prop where
  uop : (d.uop i).op = op
  ra : d.radata i = c.radata op
  rb : d.rbdata i = c.rbdata op
  rc : d.rcdata i = c.rcdata op
  raflags : d.vals.flags (d.regs.operands i RA) = c.arflags (remap op.ra)
  rbflags : d.vals.flags (d.regs.operands i RB) = c.arflags (remap op.rb)
  rcflags : d.vals.flags (d.regs.operands i RC) = c.arflags (remap op.rc)
  valid : d.operandInvalid i = false
  space : d.mach.space = c.space
  virtAddrMask : d.ctx.virtAddrMask = c.ctx.virtAddrMask
  lsq : (isload op.opcode || isstore op.opcode) = true → ∃ j, d.ls.lsq i = some j

/-- At commit, entry `i` is as its issue left it in `d` with the result `r`, and both cores
are at the same instruction, with the same units. -/
structure Ooo.Core.Commits (d : Core) (i : ℕ) (r : UopResult) (c : SeqCore) (e : Core) : Prop where
  uop : (e.uop i).op = (d.uop i).op
  valid : e.vals.valid (e.regs.physreg i) = (r.rdflags &&& FLAG_INV == 0)
  data : r.rdflags &&& FLAG_INV ≠ 0 → e.vals.data (e.regs.physreg i) = r.rddata
  origvirt : e.ls.origvirt i = d.ls.origvirt i
  noSse : e.ctx.noSse = c.ctx.noSse
  noX87 : e.ctx.noX87 = c.ctx.noX87
  rip : e.ctx.commitarf Reg.rip = c.arf Reg.rip

/-- Both cores report the same exception of the uop or none, whatever came before, and at
the instruction. -/
def UopReports (exec : Synthop) (junk : Sfr) (op : TransOp) (c : SeqCore) : Prop :=
  ∀ ctx, c.ctx.Alike ctx → ∀ savedFlags (d : Core) i, d.Holds i c op → ∀ inp cl,
    let report := { c with ctx := ctx }.report exec junk op savedFlags
    (∀ e ∈ report, e.rip = c.arf Reg.rip) ∧
      match d.executeUop exec inp i cl with
      | (.completed, r, d') => ∀ e, d'.Commits i r c e → e.report i = report
      | _ => report = none

/-- The unit of the uop is available. A load or store is at a canonical address, aligned to
16 bytes if the uop asks for that; another uop raises nothing, but for a check that skips
its instruction. -/
def UopReportsFine (exec : Synthop) (op : TransOp) (c : SeqCore) : Prop :=
  c.fpUnavailable op = false ∧
    if isload op.opcode || isstore op.opcode then
      op.opcode = .opMf ∨ (canonical (c.effective op) = true ∧
        (op.opcode = .opLdA16 ∨ op.opcode = .opStA16 → (c.effective op).toNat % 16 = 0))
    else
      let r := exec op (c.inputs op)
      r.rdflags &&& FLAG_INV ≠ 0 →
        (r.rddata.toNat % 2 ^ 32 = InternalException.skipBlock.code ∧
          (isclass op.opcode opclassCheck = true ∨ isbranch op.opcode = true)) ∨
          (r.rddata.toNat % 2 ^ 32 = 0 ∧ op.opcode = .opLdPre)

/-- No operand of the uop carries an exception. -/
def OperandsValid (op : TransOp) (c : SeqCore) : Prop :=
  c.arflags (remap op.ra) &&& FLAG_INV = 0 ∧ c.arflags (remap op.rb) &&& FLAG_INV = 0 ∧
    c.arflags (remap op.rc) &&& FLAG_INV = 0

/-! ### Address generation in both cores -/

section Address

variable {c : SeqCore} {d : Core} {op : TransOp} {i j : ℕ}

/-- A canonical address is its own sign extension. -/
theorem canonical_eq {a : W64} (h : canonical a = true) : (a.setWidth 48).signExtend 64 = a := by
  rw [canonical, beq_iff_eq] at h
  exact h

/-- The two address generations agree on a canonical address. -/
theorem addrgen_agree (h : d.Holds i c op) (hcanon : canonical (c.effective op) = true)
    (h16 : op.opcode = .opLdA16 ∨ op.opcode = .opStA16 → (c.effective op).toNat % 16 = 0) (entry : LsqEntry)
    (origvirt : ℕ) (junk : PageFaultErrorCode) :
    (d.addrgen junk (d.uop i) entry origvirt (d.radata i) (d.rbdata i)).result = (c.addrgen op).result ∧
      (d.addrgen junk (d.uop i) entry origvirt (d.radata i) (d.rbdata i)).origaddr = (c.addrgen op).origaddr ∧
      (d.addrgen junk (d.uop i) entry origvirt (d.radata i) (d.rbdata i)).addr = (c.addrgen op).addr := by
  have hsum : (if isstore op.opcode = true ∨ op.cond = LdstAlign.normal.cond then c.radata op + c.rbdata op
      else c.radata op) = c.effective op := rfl
  have hgood : ¬ ((!canonical (c.effective op)) = true ∨
      (op.opcode = .opLdA16 ∨ op.opcode = .opStA16) ∧ (c.effective op).toNat % 16 ≠ 0) := by
    rintro (hno | ⟨ha, hne⟩)
    · rw [hcanon] at hno
      cases hno
    · exact hne (h16 ha)
  unfold Core.addrgen SeqCore.addrgen
  simp only [h.uop, h.ra, h.rb, h.space, h.virtAddrMask, hsum, if_neg hgood, canonical_eq hcanon]
  exact ⟨trivial, trivial, trivial⟩

/-- An address that is not canonical, or not aligned as the uop asks, is invalid. -/
theorem addrgen_invalid (h : d.Holds i c op)
    (hbad : ¬ (canonical (c.effective op) = true ∧
      (op.opcode = .opLdA16 ∨ op.opcode = .opStA16 → (c.effective op).toNat % 16 = 0)))
    (entry : LsqEntry) (origvirt : ℕ) (junk : PageFaultErrorCode) :
    (d.addrgen junk (d.uop i) entry origvirt (d.radata i) (d.rbdata i)).result = .error (.invalidAddr, junk) := by
  have hsum : (if isstore op.opcode = true ∨ op.cond = LdstAlign.normal.cond then c.radata op + c.rbdata op
      else c.radata op) = c.effective op := rfl
  have hyes : (!canonical (c.effective op)) = true ∨
      (op.opcode = .opLdA16 ∨ op.opcode = .opStA16) ∧ (c.effective op).toNat % 16 ≠ 0 := by
    by_contra hno
    apply hbad
    constructor
    · by_contra hc
      rw [Bool.not_eq_true] at hc
      exact hno (.inl (by rw [hc]; rfl))
    · intro ha
      by_contra hne
      exact hno (.inr ⟨ha, hne⟩)
  unfold Core.addrgen
  simp only [h.uop, h.ra, h.rb, hsum, if_pos hyes]

end Address

/-! ### Loads and stores in the out-of-order core -/

section Memory

variable {exec : Synthop} {inp : CycleInput} {cl : Cluster} {c : SeqCore} {d d' : Core} {op : TransOp} {i j : ℕ}
  {r : UopResult}

/-- What `addrgen` finds out for entry `i`, whose queue entry is `j`. -/
def Ooo.Core.addrgenOf (d : Core) (inp : CycleInput) (i j : ℕ) : Ooo.AddrGen :=
  d.addrgen (inp.pfec i) (d.uop i) (d.ls.entry j) (d.ls.origvirt i) (d.radata i) (d.rbdata i)

theorem sfrResult_flags (e : LsqEntry) : (Core.sfrResult e).rdflags &&& FLAG_INV = 0 ↔ e.invalid = false := by
  unfold Core.sfrResult
  dsimp only
  cases e.invalid <;> cases e.datavalid <;> decide

/-- A load or store whose address does not translate: unaligned, it goes back; else it is
done, with the exception in its record. -/
theorem executeUop_error (h : d.Holds i c op) (hmem : (isload op.opcode || isstore op.opcode) = true)
    (hmf : op.opcode ≠ .opMf) (hj : d.ls.lsq i = some j) {exception : InternalException}
    {pfec : PageFaultErrorCode} (hg : (d.addrgenOf inp i j).result = .error (exception, pfec)) :
    (exception = .unalignedAccess → (d.executeUop exec inp i cl).1 = .misspeculated) ∧
    (exception ≠ .unalignedAccess → ∃ r d', d.executeUop exec inp i cl = (.completed, r, d') ∧
      r.rdflags &&& FLAG_INV ≠ 0 ∧ r.rddata = exceptionWord exception pfec ∧ (d'.uop i).op = op ∧
      d'.ls.origvirt i =
        if (exception = .pageFaultOnRead ∨ exception = .pageFaultOnWrite) ∧ op.cond = LdstAlign.hi.cond then
          (d.addrgenOf inp i j).addr
        else (d.addrgenOf inp i j).origaddr) := by
  have hissue : d.executeUop exec inp i cl =
      let r := (d.afterAddrgen i j (d.addrgenOf inp i j)).handleCommonLoadStoreExceptions inp i j
        (d.addrgenOf inp i j) exception pfec
      (r.1, Core.sfrResult (r.2.ls.entry j), r.2) := by
    rw [Core.executeUop, h.valid]
    simp only [h.uop, Bool.false_eq_true, if_false, hmem, if_true, hj, hmf]
    unfold Core.issueload Core.issuestore
    rw [Core.addrgenOf] at hg
    simp only [hg, ite_self]
    rfl
  rw [hissue]
  unfold Core.handleCommonLoadStoreExceptions
  constructor
  · rintro rfl
    rfl
  · intro hne
    have hop : ((d.afterAddrgen i j (d.addrgenOf inp i j)).uop i).op = op := by
      rw [← h.uop]
      simp [Core.afterAddrgen]
    simp only [if_neg hne, hop]
    -- the high half of a split access faults at its own address
    by_cases hhi : (exception = .pageFaultOnRead ∨ exception = .pageFaultOnWrite) ∧ op.cond = LdstAlign.hi.cond
    · rw [if_pos hhi, if_pos hhi]
      refine ⟨_, _, rfl, ?_, ?_, hop, ?_⟩
      · rw [Ne, sfrResult_flags]
        simp [LoadStore.setEntry]
      · simp [Core.sfrResult, LoadStore.setEntry]
      · simp
    · rw [if_neg hhi, if_neg hhi]
      refine ⟨_, _, rfl, ?_, ?_, hop, ?_⟩
      · rw [Ne, sfrResult_flags]
        simp [LoadStore.setEntry]
      · simp [Core.sfrResult, LoadStore.setEntry]
      · simp [LoadStore.setEntry, Core.afterAddrgen]

/-- A load that is done has a valid record. -/
theorem completeLoad_valid (d : Core) (sfra : Option ℕ) (g : Ooo.AddrGen) (mem rb : W64) :
    ((d.completeLoad inp i j sfra g mem rb).2.ls.entry j).invalid = false := by
  unfold Core.completeLoad
  dsimp only
  split
  · simp [LoadStore.setEntry]
  · split
    · simp [LoadStore.setEntry]
    · unfold Core.probecache
      split <;> simp [LoadStore.setEntry]

theorem issueload_valid {ra rb : W64} {p : PhysAddr}
    (hg : (d.addrgen (inp.pfec i) (d.uop i) (d.ls.entry j) (d.ls.origvirt i) ra rb).result = .ok p) :
    (d.issueload inp i j cl ra rb).1 = .completed →
      ((d.issueload inp i j cl ra rb).2.ls.entry j).invalid = false := by
  unfold Core.issueload
  dsimp only
  generalize d.addrgen (inp.pfec i) (d.uop i) (d.ls.entry j) (d.ls.origvirt i) ra rb = g at hg ⊢
  rw [hg]
  dsimp only
  generalize (if g.annul = true then Chunk.invalid else p.chunk) = chunk
  split
  · exact nofun
  · split
    · exact nofun
    · exact fun _ => completeLoad_valid ..

theorem issuestore_valid {ra rb rc : W64} {ready : Bool} {p : PhysAddr}
    (hg : (d.addrgen (inp.pfec i) (d.uop i) (d.ls.entry j) (d.ls.origvirt i) ra rb).result = .ok p) :
    (d.issuestore inp i j cl ra rb rc ready).1 = .completed →
      ((d.issuestore inp i j cl ra rb rc ready).2.ls.entry j).invalid = false := by
  unfold Core.issuestore
  dsimp only
  generalize d.addrgen (inp.pfec i) (d.uop i) (d.ls.entry j) (d.ls.origvirt i) ra rb = g at hg ⊢
  rw [hg]
  dsimp only
  generalize (if g.annul = true then Chunk.invalid else p.chunk) = chunk
  split
  · exact nofun
  · split
    · split <;> exact nofun
    · simp [Core.completeStore, LoadStore.setEntry]

/-- A load or store whose address translates raises nothing, and a fence neither. -/
theorem executeUop_ok (h : d.Holds i c op) (hmem : (isload op.opcode || isstore op.opcode) = true)
    (hj : d.ls.lsq i = some j) (hg : op.opcode = .opMf ∨ ∃ p, (d.addrgenOf inp i j).result = .ok p)
    (hr : d.executeUop exec inp i cl = (.completed, r, d')) : r.rdflags &&& FLAG_INV = 0 := by
  rw [Core.executeUop, h.valid] at hr
  simp only [h.uop, Bool.false_eq_true, if_false, hmem, if_true, hj] at hr
  obtain ⟨hdone, hres⟩ := Prod.mk.inj hr
  obtain ⟨rfl, -⟩ := Prod.mk.inj hres
  rw [sfrResult_flags]
  by_cases hld : isload op.opcode = true
  · simp only [hld, if_true] at hdone ⊢
    obtain hmf | ⟨p, hp⟩ := hg
    · rw [hmf] at hld
      exact absurd hld (by decide)
    · exact issueload_valid hp hdone
  · rw [if_neg hld] at hdone ⊢
    by_cases hmf : op.opcode = .opMf
    · simp [hmf, Core.issuefence, LoadStore.setEntry, Core.changestate]
    · simp only [hmf, if_false] at hdone ⊢
      obtain ⟨p, hp⟩ := hg.resolve_left hmf
      exact issuestore_valid hp hdone

end Memory

/-! ### What each core reports -/

section Report

variable {exec : Synthop} {junk : Sfr} {savedFlags : W64} {c : SeqCore} {d e : Core} {op : TransOp} {i : ℕ}
  {r : UopResult} {ctx : Context}

/-- A translation fails because the address is not aligned, or with a page fault. -/
theorem checkAndTranslate_error {m : AddressSpace} {a sizeshift : ℕ} {store internal : Bool}
    {exception : InternalException} {pfec : PageFaultErrorCode}
    (h : checkAndTranslate m a sizeshift store internal = .error (exception, pfec)) :
    exception = .unalignedAccess ∨ exception = .pageFaultOnRead ∨ exception = .pageFaultOnWrite := by
  unfold checkAndTranslate at h
  split at h
  · cases h
    exact .inl rfl
  · split at h
    · cases h
    · split at h
      · cases h
        cases store
        · exact .inr (.inl rfl)
        · exact .inr (.inr rfl)
      · cases h

/-- The report of an exception the sequential core raises. -/
theorem report_exception (h : c.issue exec junk op = .exception ctx) :
    c.report exec junk op savedFlags =
      some ⟨Seq.x86Vector ctx.exception ctx.x86Exception % 2 ^ 8, ctx.errorCode % 2 ^ 32, ctx.cr2,
        c.arf Reg.rip⟩ := by
  rw [SeqCore.report, h]
  simp only [SeqCore.handleException, Context.propagate, SeqCore.coreToExternalState, SeqCore.raise,
    SeqCore.setArf]
  rw [if_pos (by decide), Function.update_of_ne (by decide)]

theorem report_rip : ∀ x ∈ c.report exec junk op savedFlags, x.rip = c.arf Reg.rip := by
  intro x hx
  cases h : c.issue exec junk op with
  | exception ctx =>
    rw [report_exception h] at hx
    obtain rfl := Option.some.inj hx
    rfl
  | completed reg sfr => rw [SeqCore.report, h] at hx; cases hx
  | refetch => rw [SeqCore.report, h] at hx; cases hx
  | skip => rw [SeqCore.report, h] at hx; cases hx

/-- The sequential core reports an exception that a uop other than a load or store raises
with what an earlier exception left as its address. -/
theorem report_stale (hraise : c.fpUnavailable op = true ∨
      ((isload op.opcode || isstore op.opcode) = false ∧ isbranch op.opcode = false ∧
        (exec op (c.inputs op)).rdflags &&& FLAG_INV ≠ 0 ∧
        (exec op (c.inputs op)).rddata.toNat % 2 ^ 32 ≠ 0 ∧
        ¬ (isclass op.opcode opclassCheck = true ∧
          (exec op (c.inputs op)).rddata.toNat % 2 ^ 32 = InternalException.skipBlock.code))) :
    ∃ x, c.report exec junk op savedFlags = some x ∧ x.virtaddr = c.ctx.cr2 := by
  have hissue : ∃ ctx, c.issue exec junk op = .exception ctx ∧ ctx.cr2 = c.ctx.cr2 := by
    unfold SeqCore.issue
    by_cases hno : c.fpUnavailable op = true
    · rw [if_pos hno]
      exact ⟨_, rfl, rfl⟩
    · obtain ⟨hmem, hbr, hinv, hcode, hskip⟩ := hraise.resolve_left hno
      rw [if_neg hno, if_neg (by rw [hmem]; exact Bool.false_ne_true)]
      simp only [hbr, Bool.not_false, true_and]
      rw [if_pos ⟨hinv, hcode⟩, if_neg hskip]
      exact ⟨_, rfl, rfl⟩
  obtain ⟨ctx, hctx, hcr2⟩ := hissue
  exact ⟨_, report_exception hctx, hcr2⟩

theorem flushPipeline_ctx (d : Core) : d.flushPipeline.ctx = d.ctx := by
  unfold Core.flushPipeline Core.resetFetchUnit Core.releaseBlock
  dsimp only
  split <;> rfl

/-- The report of a uop whose unit is available, by the word in its register. -/
theorem ooo_report (hop : (e.uop i).op = op) (hsse : e.ctx.noSse = c.ctx.noSse) (hx87 : e.ctx.noX87 = c.ctx.noX87)
    (hfp : c.fpUnavailable op = false) :
    e.report i =
      if e.vals.valid (e.regs.physreg i) then none
      else
        let word := (e.vals.data (e.regs.physreg i)).toNat
        let exception := word % 2 ^ 32
        if exception = InternalException.skipBlock.code then none
        else some ⟨Ooo.x86Vector exception e.ctx.x86Exception % 2 ^ 8, word / 2 ^ 32 % 2 ^ 32,
          if exception = InternalException.pageFaultOnRead.code ∨
              exception = InternalException.pageFaultOnWrite.code then e.ls.origvirt i
          else e.ctx.cr2, e.ctx.commitarf Reg.rip⟩ := by
  have hforce : e.forceFpUnavailable i = e := by
    unfold Core.forceFpUnavailable
    rw [SeqCore.fpUnavailable] at hfp
    rw [hop, hsse, hx87]
    dsimp only
    rw [hfp]
    rfl
  unfold Core.report
  simp only [hforce]
  split
  · rfl
  · unfold Core.handleException
    simp only [flushPipeline_ctx]
    unfold Core.noteException
    dsimp only
    split
    · rfl
    · rfl

/-- The issue of a load or store in the sequential core, by how its address translates. -/
theorem seq_issue_mem (hfp : c.fpUnavailable op = false) (hmem : (isload op.opcode || isstore op.opcode) = true)
    (hmf : op.opcode ≠ .opMf) :
    (∀ p, (c.addrgen op).result = .ok p → ∃ reg sfr, c.issue exec junk op = .completed reg sfr) ∧
    ∀ exception pfec, (c.addrgen op).result = .error (exception, pfec) →
      c.issue exec junk op =
        let r := SeqCore.handleCommonExceptions op junk (c.addrgen op) exception pfec
        match r.status with
        | .exception => .exception { c.ctx with
            exception := r.sfr.data.toNat % 2 ^ 32, errorCode := r.sfr.data.toNat / 2 ^ 32, cr2 := r.origvirt }
        | .refetch => .refetch
        | .completed => .completed ⟨r.sfr.data, 0⟩ r.sfr := by
  unfold SeqCore.issue SeqCore.issueload SeqCore.issuestore
  rw [if_neg (by rw [hfp]; exact Bool.false_ne_true), if_pos hmem, if_neg hmf]
  constructor
  · intro p hp
    simp only [hp]
    by_cases hld : isload op.opcode = true
    · by_cases hannul : op.cond = LdstAlign.hi.cond ∧ (c.addrgen op).annul = true
      · rw [if_pos hld, if_pos hannul]
        exact ⟨_, _, rfl⟩
      · rw [if_pos hld, if_neg hannul]
        exact ⟨_, _, rfl⟩
    · rw [if_neg hld]
      exact ⟨_, _, rfl⟩
  · intro exception pfec hg
    cases hs : (SeqCore.handleCommonExceptions op junk (c.addrgen op) exception pfec).status with
    | exception => simp only [hg, ite_self, hs]
    | refetch => simp only [hg, ite_self, hs]
    | completed => simp only [hg, ite_self, hs]

/-- The report of the sequential core on a load or store. -/
theorem seq_report_mem (hfp : c.fpUnavailable op = false) (hmem : (isload op.opcode || isstore op.opcode) = true)
    (hmf : op.opcode ≠ .opMf) :
    (∀ p, (c.addrgen op).result = .ok p → c.report exec junk op savedFlags = none) ∧
    ∀ exception pfec, (c.addrgen op).result = .error (exception, pfec) →
      (exception = .unalignedAccess → c.report exec junk op savedFlags = none) ∧
      (exception = .pageFaultOnRead ∨ exception = .pageFaultOnWrite →
        c.report exec junk op savedFlags = some ⟨14, pfec.toNat,
          if op.cond = LdstAlign.hi.cond then (c.addrgen op).addr else (c.addrgen op).origaddr,
          c.arf Reg.rip⟩) := by
  obtain ⟨hok, herror⟩ := @seq_issue_mem exec junk c op hfp hmem hmf
  constructor
  · intro p hp
    obtain ⟨reg, sfr, hissue⟩ := hok p hp
    rw [SeqCore.report, hissue]
  · intro exception pfec hg
    have hissue := herror exception pfec hg
    constructor
    · rintro rfl
      rw [SeqCore.report, hissue]
      rfl
    · intro hpf
      have hne : exception ≠ .unalignedAccess := by
        rintro rfl
        exact absurd hpf (by decide)
      have hvector (v : ℕ) : Seq.x86Vector exception.code v = 14 := by
        obtain rfl | rfl := hpf <;> rfl
      have hpfec := pfec_le pfec
      have hpf' : pfec.toNat % 2 ^ 32 = pfec.toNat := Nat.mod_eq_of_lt (by omega)
      rw [SeqCore.handleCommonExceptions] at hissue
      simp only [if_neg hne, hpf, true_and] at hissue
      -- the high half reports the chunk it touches, anything else the first byte
      by_cases hhi : op.cond = LdstAlign.hi.cond
      · simp only [if_pos hhi] at hissue ⊢
        rw [report_exception hissue]
        dsimp only
        rw [exceptionWord_code, exceptionWord_pfec, hvector, hpf']
        rfl
      · simp only [if_neg hhi] at hissue ⊢
        rw [report_exception hissue]
        dsimp only
        rw [exceptionWord_code, exceptionWord_pfec, hvector, hpf']
        rfl

end Report

/-! ### Uops that are reported right -/

section Fine

variable {exec : Synthop} {junk : Sfr} {savedFlags : W64} {inp : CycleInput} {cl : Cluster} {c : SeqCore}
  {d d' e : Core} {op : TransOp} {i : ℕ} {r : UopResult} {ctx : Context}

/-- An entry whose result is valid has nothing to report. -/
theorem report_valid (h : d'.Commits i r c e) (hop : (d'.uop i).op = op) (hfp : c.fpUnavailable op = false)
    (hr : r.rdflags &&& FLAG_INV = 0) : e.report i = none := by
  rw [ooo_report (h.uop.trans hop) h.noSse h.noX87 hfp, h.valid, hr]
  rfl

/-- The execution of a uop keeps the uop. -/
theorem executeUop_op (h : d.Holds i c op) (hr : d.executeUop exec inp i cl = (.completed, r, d')) :
    (d'.uop i).op = op := by
  have hex := Core.executeUop_cases exec inp i cl d
  rw [hr] at hex
  cases hex with
  | done h' => exact (h'.uop i).1.trans h.uop
  | hit n h' => exact (h'.uop i).1.trans h.uop
  | miss h' hr hld => exact (h'.uop i).1.trans h.uop
  | fence h' hmf => exact (h'.uop i).1.trans h.uop

/-- An address that does not translate is not aligned, or faults. -/
theorem addrgen_error {exception : InternalException} {pfec : PageFaultErrorCode}
    (h : (c.addrgen op).result = .error (exception, pfec)) :
    exception = .unalignedAccess ∨ exception = .pageFaultOnRead ∨ exception = .pageFaultOnWrite := by
  unfold SeqCore.addrgen at h
  dsimp only at h
  generalize (if isstore op.opcode = true ∨ op.cond = LdstAlign.normal.cond then c.radata op + c.rbdata op
    else c.radata op) = sum at h
  split at h
  · cases h
  · exact checkAndTranslate_error h

/-- A load or store at a good address: the cores agree. -/
theorem mem_agree (h : d.Holds i c op) (hfp : c.fpUnavailable op = false)
    (hmem : (isload op.opcode || isstore op.opcode) = true) (hmf : op.opcode ≠ .opMf)
    (hcanon : canonical (c.effective op) = true)
    (h16 : op.opcode = .opLdA16 ∨ op.opcode = .opStA16 → (c.effective op).toNat % 16 = 0) :
    match d.executeUop exec inp i cl with
    | (.completed, r, d') => ∀ e, d'.Commits i r c e → e.report i = c.report exec junk op savedFlags
    | _ => c.report exec junk op savedFlags = none := by
  obtain ⟨j, hj⟩ := h.lsq hmem
  obtain ⟨hresult, horig, haddr⟩ := addrgen_agree h hcanon h16 (d.ls.entry j) (d.ls.origvirt i) (inp.pfec i)
  obtain ⟨hok, herror⟩ := @seq_report_mem exec junk savedFlags c op hfp hmem hmf
  cases hg : (c.addrgen op).result with
  | ok p =>
    have hnone := hok p hg
    rcases hex : d.executeUop exec inp i cl with ⟨res, r, d'⟩
    cases res with
    | completed =>
      intro e he
      rw [hnone]
      exact report_valid he (executeUop_op h hex) hfp
        (executeUop_ok h hmem hj (.inr ⟨p, hresult.trans hg⟩) hex)
    | needsReplay => exact hnone
    | misspeculated => exact hnone
  | error fault =>
    obtain ⟨exception, pfec⟩ := fault
    obtain ⟨hunaligned, hfault⟩ := herror exception pfec hg
    obtain ⟨hback, hdone⟩ := @executeUop_error exec inp cl c d op i j h hmem hmf hj exception pfec
      (hresult.trans hg)
    -- an unaligned access goes back to the front end on both, and is no exception yet
    by_cases hexc : exception = .unalignedAccess
    · rcases hex : d.executeUop exec inp i cl with ⟨res, r, d'⟩
      have hres := hback hexc
      rw [hex] at hres
      cases hres
      exact hunaligned hexc
    · have hpf : exception = .pageFaultOnRead ∨ exception = .pageFaultOnWrite :=
        (addrgen_error hg).resolve_left hexc
      obtain ⟨r, d', hex, hinv, hword, hop, hvirt⟩ := hdone hexc
      rw [hex]
      intro e he
      have hcode : exception.code = InternalException.pageFaultOnRead.code ∨
          exception.code = InternalException.pageFaultOnWrite.code := by
        obtain rfl | rfl := hpf
        · exact .inl rfl
        · exact .inr rfl
      have hskip : exception.code ≠ InternalException.skipBlock.code := by
        obtain hc | hc := hcode <;> rw [hc] <;> decide
      have hvector (v : ℕ) : Ooo.x86Vector exception.code v = 14 := by
        obtain rfl | rfl := hpf <;> rfl
      have hpfec := pfec_le pfec
      have hvalid : (r.rdflags &&& FLAG_INV == 0) = false := beq_eq_false_iff_ne.2 hinv
      rw [ooo_report (he.uop.trans hop) he.noSse he.noX87 hfp, he.valid, hvalid, hfault hpf]
      simp only [Bool.false_eq_true, if_false, he.data hinv, hword, exceptionWord_code, exceptionWord_pfec,
        hskip, hcode, if_true, hvector, he.origvirt, hvirt, he.rip, hpf, true_and]
      have hmod : pfec.toNat % 2 ^ 32 = pfec.toNat := Nat.mod_eq_of_lt (by omega)
      rw [Core.addrgenOf, horig, haddr, hmod]
      rfl

/-- The execution of another uop. -/
theorem executeUop_alu (h : d.Holds i c op) (hmem : (isload op.opcode || isstore op.opcode) = false) :
    d.executeUop exec inp i cl =
      (.completed, if op.opcode = .opLdPre then ⟨0, 0⟩ else exec op (c.inputs op), d) := by
  have hinputs : (⟨d.radata i, d.rbdata i, d.rcdata i, d.vals.flags (d.regs.operands i RA),
      d.vals.flags (d.regs.operands i RB), d.vals.flags (d.regs.operands i RC), op.riptaken, op.ripseq⟩ :
      UopInputs) = c.inputs op := by
    rw [h.ra, h.rb, h.rc, h.raflags, h.rbflags, h.rcflags]
    rfl
  rw [Core.executeUop, h.valid]
  simp only [h.uop, hmem, Bool.false_eq_true, if_false, hinputs]
  split <;> rfl

/-- What the sequential core reports of another uop that is quiet. -/
theorem report_quiet (hfp : c.fpUnavailable op = false) (hmem : (isload op.opcode || isstore op.opcode) = false)
    (hquiet : (exec op (c.inputs op)).rdflags &&& FLAG_INV ≠ 0 →
      ((exec op (c.inputs op)).rddata.toNat % 2 ^ 32 = InternalException.skipBlock.code ∧
          (isclass op.opcode opclassCheck = true ∨ isbranch op.opcode = true)) ∨
        ((exec op (c.inputs op)).rddata.toNat % 2 ^ 32 = 0 ∧ op.opcode = .opLdPre)) :
    c.report exec junk op savedFlags = none := by
  have hissue : c.issue exec junk op = .skip ∨ ∃ reg sfr, c.issue exec junk op = .completed reg sfr := by
    unfold SeqCore.issue
    rw [if_neg (by rw [hfp]; exact Bool.false_ne_true), if_neg (by rw [hmem]; exact Bool.false_ne_true)]
    dsimp only
    split
    · rename_i hraise
      obtain ⟨hbr, hinv, hcode⟩ := hraise
      obtain ⟨hskip, hclass⟩ | ⟨hzero, -⟩ := hquiet hinv
      · have hcheck : isclass op.opcode opclassCheck = true := by
          refine hclass.resolve_right fun hyes => ?_
          rw [hyes] at hbr
          cases hbr
        rw [if_pos ⟨hcheck, hskip⟩]
        exact .inl rfl
      · exact absurd hzero hcode
    · exact .inr ⟨_, _, rfl⟩
  unfold SeqCore.report
  obtain h | ⟨reg, sfr, h⟩ := hissue <;> rw [h]

/-- Another uop that raises nothing, but for a check that skips: the cores agree. -/
theorem alu_agree (h : d.Holds i c op) (hfp : c.fpUnavailable op = false)
    (hmem : (isload op.opcode || isstore op.opcode) = false)
    (hquiet : (exec op (c.inputs op)).rdflags &&& FLAG_INV ≠ 0 →
      ((exec op (c.inputs op)).rddata.toNat % 2 ^ 32 = InternalException.skipBlock.code ∧
          (isclass op.opcode opclassCheck = true ∨ isbranch op.opcode = true)) ∨
        ((exec op (c.inputs op)).rddata.toNat % 2 ^ 32 = 0 ∧ op.opcode = .opLdPre))
    (he : d.Commits i (if op.opcode = .opLdPre then ⟨0, 0⟩ else exec op (c.inputs op)) c e) :
    e.report i = c.report exec junk op savedFlags := by
  rw [report_quiet hfp hmem hquiet]
  by_cases hpre : op.opcode = .opLdPre
  · rw [if_pos hpre] at he
    exact report_valid he h.uop hfp (by decide)
  · rw [if_neg hpre] at he
    by_cases hinv : (exec op (c.inputs op)).rdflags &&& FLAG_INV = 0
    · exact report_valid he h.uop hfp hinv
    · obtain ⟨hskip, -⟩ | ⟨-, hno⟩ := hquiet hinv
      · rw [ooo_report (he.uop.trans h.uop) he.noSse he.noX87 hfp, he.valid, he.data hinv]
        dsimp only
        rw [if_pos hskip]
        split <;> rfl
      · exact absurd hno hpre

/-- A fence raises nothing in the sequential core. -/
theorem report_fence (hfp : c.fpUnavailable op = false) (hmf : op.opcode = .opMf) :
    c.report exec junk op savedFlags = none := by
  have hissue : ∃ reg sfr, c.issue exec junk op = .completed reg sfr := by
    unfold SeqCore.issue
    rw [if_neg (by rw [hfp]; exact Bool.false_ne_true), hmf]
    exact ⟨_, _, rfl⟩
  obtain ⟨reg, sfr, h⟩ := hissue
  rw [SeqCore.report, h]

/-- A uop that is reported right: the cores agree. -/
theorem agree_of_fine (hfine : UopReportsFine exec op c) (h : d.Holds i c op) :
    match d.executeUop exec inp i cl with
    | (.completed, r, d') => ∀ e, d'.Commits i r c e → e.report i = c.report exec junk op savedFlags
    | _ => c.report exec junk op savedFlags = none := by
  obtain ⟨hfp, hrest⟩ := hfine
  by_cases hmem : (isload op.opcode || isstore op.opcode) = true
  · rw [if_pos hmem] at hrest
    by_cases hmf : op.opcode = .opMf
    · obtain ⟨j, hj⟩ := h.lsq hmem
      have hnone := @report_fence exec junk savedFlags c op hfp hmf
      rcases hex : d.executeUop exec inp i cl with ⟨res, r, d'⟩
      cases res with
      | completed =>
        intro e he
        rw [hnone]
        exact report_valid he (executeUop_op h hex) hfp (executeUop_ok h hmem hj (.inl hmf) hex)
      | needsReplay => exact hnone
      | misspeculated => exact hnone
    · obtain ⟨hcanon, h16⟩ := hrest.resolve_left hmf
      exact mem_agree h hfp hmem hmf hcanon h16
  · rw [if_neg hmem] at hrest
    rw [Bool.not_eq_true] at hmem
    rw [executeUop_alu h hmem]
    intro e he
    exact alu_agree h hfp hmem hrest he

/-! ### What earlier exceptions leave does not matter to the uop -/

theorem holds_alike (h : d.Holds i c op) (ha : c.ctx.Alike ctx) : d.Holds i { c with ctx := ctx } op where
  uop := h.uop
  ra := h.ra
  rb := h.rb
  rc := h.rc
  raflags := h.raflags
  rbflags := h.rbflags
  rcflags := h.rcflags
  valid := h.valid
  space := h.space
  virtAddrMask := h.virtAddrMask.trans ha.virtAddrMask.symm
  lsq := h.lsq

theorem commits_alike (h : d.Commits i r c e) (ha : c.ctx.Alike ctx) : d.Commits i r { c with ctx := ctx } e where
  uop := h.uop
  valid := h.valid
  data := h.data
  origvirt := h.origvirt
  noSse := h.noSse.trans ha.noSse.symm
  noX87 := h.noX87.trans ha.noX87.symm
  rip := h.rip

theorem fine_alike (h : UopReportsFine exec op c) (ha : c.ctx.Alike ctx) :
    UopReportsFine exec op { c with ctx := ctx } := by
  refine ⟨?_, h.2⟩
  have hfp := h.1
  unfold SeqCore.fpUnavailable at hfp ⊢
  rw [ha.noSse, ha.noX87]
  exact hfp

theorem reports_of_fine (hfine : UopReportsFine exec op c) : UopReports exec junk op c := by
  intro ctx ha savedFlags d i h inp cl
  refine ⟨report_rip, ?_⟩
  have hagree := @agree_of_fine exec junk savedFlags inp cl { c with ctx := ctx } d op i (fine_alike hfine ha)
    (holds_alike h ha)
  rcases hex : d.executeUop exec inp i cl with ⟨res, r, d'⟩
  rw [hex] at hagree
  cases res with
  | completed => exact fun e he => hagree e (commits_alike he ha)
  | needsReplay => exact hagree
  | misspeculated => exact hagree

end Fine

/-! ### The other uops -/

section Wrong

variable {exec : Synthop} {junk : Sfr} {savedFlags : W64} {c : SeqCore} {op : TransOp}

/-- An out-of-order core whose entry 0 holds the uop with the same operand values. -/
def Seq.SeqCore.mirror (c : SeqCore) (op : TransOp) : Core :=
  let d := Core.construct c.ctx { Machine.init with space := c.space }
  { d with
    uop _ := ⟨op, RIPVirtPhys.update 0 false false, 0, false, []⟩
    regs := { d.regs with operands := fun _ o => ⟨fileInt, o⟩ }
    vals :=
      { data := fun p => if p.idx = 0 then c.arf (remap op.ra) else if p.idx = 1 then c.arf (remap op.rb)
          else c.arf (remap op.rc)
        flags := fun p => if p.idx = 0 then c.arflags (remap op.ra)
          else if p.idx = 1 then c.arflags (remap op.rb) else c.arflags (remap op.rc) }
    ls := { d.ls with lsq := fun _ => some 0 } }

theorem mirror_holds (hvalid : OperandsValid op c) : (c.mirror op).Holds 0 c op where
  uop := rfl
  ra := rfl
  rb := rfl
  rc := rfl
  raflags := rfl
  rbflags := rfl
  rcflags := rfl
  valid := by
    obtain ⟨ha, hb, hc⟩ := hvalid
    have h : (c.arflags (remap op.ra) &&& FLAG_INV == 0) = true ∧ (c.arflags (remap op.rb) &&& FLAG_INV == 0) = true ∧
        (c.arflags (remap op.rc) &&& FLAG_INV == 0) = true := by
      rw [ha, hb, hc]
      decide
    show (!((c.arflags (remap op.ra) &&& FLAG_INV == 0) && (c.arflags (remap op.rb) &&& FLAG_INV == 0) &&
      (c.arflags (remap op.rc) &&& FLAG_INV == 0))) = false
    rw [h.1, h.2.1, h.2.2]
    rfl
  space := rfl
  virtAddrMask := rfl
  lsq _ := ⟨0, rfl⟩

/-- The core `d` when entry `i`, with the result `r`, comes to commit. -/
def Ooo.Core.toCommitOf (d : Core) (i : ℕ) (r : UopResult) (c : SeqCore) : Core :=
  { d with
    vals := d.vals.set (d.regs.physreg i) r.rddata r.rdflags
    ctx := { c.ctx with commitarf := c.arf } }

theorem toCommitOf_commits (d : Core) (i : ℕ) (r : UopResult) (c : SeqCore) :
    d.Commits i r c (d.toCommitOf i r c) where
  uop := rfl
  valid := by simp [Ooo.Core.toCommitOf, Values.valid, Values.set]
  data _ := by simp [Ooo.Core.toCommitOf, Values.set]
  origvirt := rfl
  noSse := rfl
  noX87 := rfl
  rip := rfl

/-- A core that reports right says the same whatever an earlier exception left. -/
theorem report_alike (h : UopReports exec junk op c) (hvalid : OperandsValid op c) {ctx : Context}
    (ha : c.ctx.Alike ctx) :
    { c with ctx := ctx }.report exec junk op 0 = c.report exec junk op 0 := by
  have hself := h c.ctx ⟨rfl, rfl, rfl, rfl⟩ 0 _ 0 (mirror_holds hvalid) (.hit false) 0
  have hother := h ctx ha 0 _ 0 (mirror_holds hvalid) (.hit false) 0
  rcases hex : (c.mirror op).executeUop exec (.hit false) 0 0 with ⟨res, r, d'⟩
  rw [hex] at hself hother
  cases res with
  | completed =>
    have he := toCommitOf_commits d' 0 r c
    exact (hother.2 _ he).symm.trans (hself.2 _ he)
  | needsReplay => exact hother.2.trans hself.2.symm
  | misspeculated => exact hother.2.trans hself.2.symm

/-- An exception that is reported with the address an earlier one left. -/
theorem not_reports_of_stale (hvalid : OperandsValid op c)
    (hstale : ∀ ctx, c.ctx.Alike ctx →
      ∃ x, { c with ctx := ctx }.report exec junk op 0 = some x ∧ x.virtaddr = ctx.cr2) :
    ¬ UopReports exec junk op c := by
  intro h
  let ctx : Context := { c.ctx with cr2 := c.ctx.cr2 + 1 }
  have ha : c.ctx.Alike ctx := ⟨rfl, rfl, rfl, rfl⟩
  obtain ⟨x, hx, hcr2⟩ := hstale c.ctx ⟨rfl, rfl, rfl, rfl⟩
  obtain ⟨y, hy, hcr2'⟩ := hstale ctx ha
  have hsame : c.report exec junk op 0 = some y := (report_alike h hvalid ha).symm.trans hy
  obtain rfl := Option.some.inj (hx.symm.trans hsame)
  rw [hcr2] at hcr2'
  exact absurd hcr2' (Nat.ne_of_lt (Nat.lt_succ_self _))

theorem reports_fp (hvalid : OperandsValid op c) (h : UopReports exec junk op c) : c.fpUnavailable op = false := by
  by_contra hno
  rw [Bool.not_eq_false] at hno
  refine not_reports_of_stale hvalid (fun ctx ha => report_stale (.inl ?_)) h
  unfold SeqCore.fpUnavailable at hno ⊢
  rw [ha.noSse, ha.noX87]
  exact hno

/-- An invalid address is a general protection fault of the out-of-order core only. -/
theorem reports_mem (hvalid : OperandsValid op c) (h : UopReports exec junk op c)
    (hmem : (isload op.opcode || isstore op.opcode) = true) (hmf : op.opcode ≠ .opMf) :
    canonical (c.effective op) = true ∧
      (op.opcode = .opLdA16 ∨ op.opcode = .opStA16 → (c.effective op).toNat % 16 = 0) := by
  by_contra hbad
  have hfp := reports_fp hvalid h
  have hm := mirror_holds hvalid
  obtain ⟨-, hdone⟩ := @executeUop_error exec (.hit false) 0 c (c.mirror op) op 0 0 hm hmem hmf rfl .invalidAddr .none
    (addrgen_invalid hm hbad _ _ _)
  obtain ⟨r, d', hex, hinv, hword, hop, -⟩ := hdone (by decide)
  have hself := (h c.ctx ⟨rfl, rfl, rfl, rfl⟩ 0 _ 0 hm (.hit false) 0).2
  rw [hex] at hself
  have he := toCommitOf_commits d' 0 r c
  have hreport := hself _ he
  have hinvalid : (r.rdflags &&& FLAG_INV == 0) = false := beq_eq_false_iff_ne.2 hinv
  rw [ooo_report (he.uop.trans hop) he.noSse he.noX87 hfp, he.valid, hinvalid, he.data hinv, hword] at hreport
  dsimp only at hreport
  rw [exceptionWord_code, exceptionWord_pfec] at hreport
  obtain ⟨hok, herror⟩ := @seq_report_mem exec junk 0 c op hfp hmem hmf
  cases hg : (c.addrgen op).result with
  | ok p =>
    rw [hok p hg] at hreport
    cases hreport
  | error fault =>
    obtain ⟨exception, pfec⟩ := fault
    obtain ⟨hunaligned, hfault⟩ := herror exception pfec hg
    obtain hexc | hpf := addrgen_error hg
    · rw [hunaligned hexc] at hreport
      cases hreport
    · rw [hfault hpf] at hreport
      -- the vectors differ
      have hvector : 13 = 14 := congrArg X86Exception.vector (Option.some.inj hreport)
      cases hvector

/-- Of another uop, only the skip of a check is treated alike. -/
theorem reports_alu (hvalid : OperandsValid op c) (h : UopReports exec junk op c)
    (hmem : (isload op.opcode || isstore op.opcode) = false)
    (hinv : (exec op (c.inputs op)).rdflags &&& FLAG_INV ≠ 0) :
    ((exec op (c.inputs op)).rddata.toNat % 2 ^ 32 = InternalException.skipBlock.code ∧
        (isclass op.opcode opclassCheck = true ∨ isbranch op.opcode = true)) ∨
      ((exec op (c.inputs op)).rddata.toNat % 2 ^ 32 = 0 ∧ op.opcode = .opLdPre) := by
  by_contra hbad
  rw [not_or] at hbad
  obtain ⟨hskip, hzero⟩ := hbad
  have hfp := reports_fp hvalid h
  have hm := mirror_holds hvalid
  by_cases hraise : isbranch op.opcode = false ∧ (exec op (c.inputs op)).rddata.toNat % 2 ^ 32 ≠ 0
  · refine not_reports_of_stale hvalid (fun ctx _ => report_stale (.inr ?_)) h
    exact ⟨hmem, hraise.1, hinv, hraise.2, fun hcheck => hskip ⟨hcheck.2, .inl hcheck.1⟩⟩
  · -- the sequential core goes on, the out-of-order core stops
    have hself := (h c.ctx ⟨rfl, rfl, rfl, rfl⟩ 0 _ 0 hm (.hit false) 0).2
    have hpre : op.opcode ≠ .opLdPre := by
      intro hpre
      apply hraise
      rw [hpre]
      exact ⟨rfl, fun hcode => hzero ⟨hcode, hpre⟩⟩
    rw [executeUop_alu hm hmem, if_neg hpre] at hself
    have he := toCommitOf_commits (c.mirror op) 0 (exec op (c.inputs op)) c
    have hreport := hself _ he
    have hnone : c.report exec junk op 0 = none := by
      have hissue : ∃ reg sfr, c.issue exec junk op = .completed reg sfr := by
        unfold SeqCore.issue
        rw [if_neg (by rw [hfp]; exact Bool.false_ne_true), if_neg (by rw [hmem]; exact Bool.false_ne_true)]
        dsimp only
        rw [if_neg]
        · exact ⟨_, _, rfl⟩
        · rintro ⟨hbr, -, hcode⟩
          refine hraise ⟨?_, hcode⟩
          rw [Bool.not_eq_true'] at hbr
          exact hbr
      obtain ⟨reg, sfr, hissue⟩ := hissue
      rw [SeqCore.report, hissue]
    have hinvalid : ((exec op (c.inputs op)).rdflags &&& FLAG_INV == 0) = false := beq_eq_false_iff_ne.2 hinv
    have hcode : (exec op (c.inputs op)).rddata.toNat % 2 ^ 32 ≠ InternalException.skipBlock.code := by
      intro hcode
      by_cases hbr : isbranch op.opcode = true
      · exact hskip ⟨hcode, .inr hbr⟩
      · rw [Bool.not_eq_true] at hbr
        refine hraise ⟨hbr, ?_⟩
        rw [hcode]
        decide
    rw [ooo_report (he.uop.trans hm.uop) he.noSse he.noX87 hfp, he.valid, hinvalid, he.data hinv] at hreport
    dsimp only at hreport
    rw [if_neg hcode] at hreport
    simp only [Bool.false_eq_true, if_false] at hreport
    rw [hnone] at hreport
    cases hreport

/-- Uops are reported right exactly if they raise nothing but page faults at canonical
addresses. -/
theorem uopReports_iff (hvalid : OperandsValid op c) : UopReports exec junk op c ↔ UopReportsFine exec op c := by
  constructor
  · intro h
    refine ⟨reports_fp hvalid h, ?_⟩
    by_cases hmem : (isload op.opcode || isstore op.opcode) = true
    · rw [if_pos hmem]
      by_cases hmf : op.opcode = .opMf
      · exact .inl hmf
      · exact .inr (reports_mem hvalid h hmem hmf)
    · rw [if_neg hmem]
      rw [Bool.not_eq_true] at hmem
      exact reports_alu hvalid h hmem
  · exact reports_of_fine

end Wrong

/-! ### Assists -/

section AssistReports

variable {a : AssistFn} {ctx ctx' : Context} {m : AddressSpace}

theorem throwAtSelf_rip (vector errorcode virtaddr : ℕ) :
    (ctx.throwAtSelf vector errorcode virtaddr).rip = ctx.commitarf Reg.selfrip := by
  simp [Context.throwAtSelf, Context.propagate, Context.setRip]

theorem throwAtSelf_congr (h : ctx'.commitarf Reg.selfrip = ctx.commitarf Reg.selfrip)
    (vector errorcode virtaddr : ℕ) :
    ctx'.throwAtSelf vector errorcode virtaddr = ctx.throwAtSelf vector errorcode virtaddr := by
  simp [Context.throwAtSelf, Context.propagate, Context.setRip, h]

theorem AssistFn.Alike.selfrip (h : a.Alike ctx ctx') : ctx'.commitarf Reg.selfrip = ctx.commitarf Reg.selfrip :=
  h.regs _ fun hno => absurd hno (by decide)

theorem AssistFn.Alike.rip (h : a.Alike ctx ctx') : ctx'.commitarf Reg.rip = ctx.commitarf Reg.rip :=
  h.regs _ fun hno => absurd hno (by decide)

/-- What an assist throws depends on its arguments and on the addresses it is given. -/
theorem throws_congr (ha : a ≠ .gpFault) (h : a.Alike ctx ctx') : a.throws ctx' m = a.throws ctx m := by
  have hself := throwAtSelf_congr h.selfrip
  have hrip := h.rip
  have hshort (fault : Option (PageFaultErrorCode × ℕ)) : ctx'.throwShort fault = ctx.throwShort fault := by
    simp only [Context.throwShort, hself]
  cases a with
  | gpFault => exact absurd rfl ha
  | execPageFault =>
    have h1 := h.regs Reg.ar1 (by decide)
    have h2 := h.regs Reg.ar2 (by decide)
    simp only [AssistFn.throws, assistExecPageFault, h1, h2, hself]
  | writeSegreg =>
    have h1 := h.regs Reg.ar1 (by decide)
    simp only [AssistFn.throws, assistWriteSegreg, h1, hself]
  | int =>
    have h1 := h.regs Reg.ar1 (by decide)
    simp only [AssistFn.throws, assistInt, h1, Context.propagate, hrip]
  | x87Fist =>
    have h1 := h.regs Reg.ar1 (by decide)
    have h2 := h.regs Reg.ar2 (by decide)
    simp only [AssistFn.throws, h1, h2, hshort]
  | x87Fstp80 | x87Fld80 =>
    have h1 := h.regs Reg.ar1 (by decide)
    simp only [AssistFn.throws, h1, hshort]
  | fxsave | fxrstor =>
    have h1 := h.regs Reg.ar1 (by decide)
    simp only [AssistFn.throws, fxTarget, h1, h.virtAddrMask, hshort]
  | _ => simp only [AssistFn.throws, hself]

/-- All assists but `int` throw at the instruction that called them. -/
theorem throws_rip (ha : a ≠ .int) : ∀ e ∈ a.throws ctx m, e.rip = ctx.commitarf Reg.selfrip := by
  intro e he
  have hshort (fault : Option (PageFaultErrorCode × ℕ)) (h : e ∈ ctx.throwShort fault) :
      e.rip = ctx.commitarf Reg.selfrip := by
    obtain ⟨f, -, rfl⟩ := Option.map_eq_some_iff.1 h
    exact throwAtSelf_rip _ _ _
  cases a with
  | int => exact absurd rfl ha
  | execPageFault =>
    simp only [AssistFn.throws, assistExecPageFault] at he
    split at he
    · cases he
    · obtain rfl := Option.some.inj he
      exact throwAtSelf_rip _ _ _
  | x87Fist | x87Fstp80 | x87Fld80 | fxsave | fxrstor => exact hshort _ he
  | invalidOpcode | gpFault | iret16 | iret32 | iret64 | x87Fsave | x87Frstor | wrmsr | rdmsr | writeCr0
  | writeCr2 | writeCr3 | writeCr4 | writeDebugReg | ioportIn | ioportOut | writeSegreg =>
    obtain rfl := Option.some.inj he
    exact throwAtSelf_rip _ _ _
  | _ => cases he

/-- `int n` throws at the address the barrier left in `rip`, unless `n` is 0x80. -/
theorem assistInt_rip :
    (∀ e ∈ assistInt ctx, e.rip = ctx.commitarf Reg.rip) ∧
      (assistInt ctx = none ↔ (ctx.commitarf Reg.ar1).toNat % 2 ^ 8 = 0x80) := by
  unfold assistInt
  dsimp only
  split
  · rename_i h
    exact ⟨nofun, fun _ => h, fun _ => rfl⟩
  · rename_i h
    split
    · refine ⟨?_, nofun, fun hyes => absurd hyes h⟩
      intro e he
      obtain rfl := Option.some.inj he
      rfl
    · refine ⟨?_, nofun, fun hyes => absurd hyes h⟩
      intro e he
      obtain rfl := Option.some.inj he
      rfl

/-- The assists, as the table has them; no other effect. -/
def throwingAssist : Assist :=
  fun rip ctx m bbcache => ⟨ctx, m, bbcache, (assistidToFunc[rip.toNat]?).bind fun a => a.throws ctx m, false⟩

theorem throwingAssist_byTable : throwingAssist.ThrowsByTable := by
  intro a ctx m bbcache
  have hget : assistidToFunc[a.index.toNat]? = some a := by
    cases a <;> decide
  simp only [throwingAssist, hget, Option.bind_some]

theorem seq_barrier (assist : Assist) (c : SeqCore) :
    (c.handleBarrier assist).1 = (assist (c.coreToExternalState.ctx.commitarf Reg.rip) c.coreToExternalState.ctx
      c.space c.bbcache).threw := by
  unfold SeqCore.handleBarrier
  dsimp only
  split
  · rename_i h
    exact h.symm
  · rename_i h
    exact h.symm

theorem flushPipeline_space (d : Core) : d.flushPipeline.mach.space = d.mach.space := by
  unfold Core.flushPipeline Core.resetFetchUnit Core.releaseBlock
  dsimp only
  split <;> rfl

theorem ooo_barrier (assist : Assist) (d : Core) :
    (d.handleBarrier assist).1 = (assist (d.ctx.commitarf Reg.rip) d.ctx d.mach.space
      d.flushPipeline.mach.bbcache).threw := by
  rw [← flushPipeline_space, ← flushPipeline_ctx d]
  unfold Core.handleBarrier Core.afterAssist Core.callAssist
  dsimp only
  split
  · rename_i h
    exact h.symm
  · rename_i h
    exact h.symm

/-- Cores with the context `ctx` and the memory `m`. -/
def seqAt (ctx : Context) (m : AddressSpace) : SeqCore :=
  { arf := ctx.commitarf, arflags := fun _ => 0, ctx := ctx, space := m, bbcache := .init
    bytesInCurrentInsn := 0, totalUserInsnsCommitted := 0 }

def oooAt (ctx : Context) (m : AddressSpace) : Core := Core.construct ctx { Machine.init with space := m }

theorem seqAt_ctx (ctx : Context) (m : AddressSpace) : (seqAt ctx m).coreToExternalState.ctx = ctx := by
  simp [seqAt, SeqCore.coreToExternalState]

/-- An assist that reports right throws the same whatever an earlier exception left. -/
theorem reports_throws (h : a.Reports ctx m) (hrip : ctx.commitarf Reg.rip = a.index) (ha : a.Alike ctx ctx') :
    a.throws ctx' m = a.throws ctx m := by
  have hc := (h throwingAssist throwingAssist_byTable (seqAt ctx' m) (oooAt ctx m)
    (by rw [seqAt_ctx]; exact ha) rfl (.refl a ctx) rfl).1
  rw [seq_barrier, seqAt_ctx, ha.rip, hrip, throwingAssist_byTable] at hc
  exact hc

/-- The argument register of an assist that is not given one. -/
theorem gpFault_alike (ctx : Context) (v : W64) :
    AssistFn.gpFault.Alike ctx { ctx with commitarf := Function.update ctx.commitarf Reg.ar1 v } := by
  refine ⟨fun r hr => ?_, rfl⟩
  have hne : r ≠ Reg.ar1 := by
    rintro rfl
    exact absurd (hr (.inl rfl)) (by decide)
  exact Function.update_of_ne hne _ _

theorem assistReports_iff (hrip : ctx.commitarf Reg.rip = a.index) : a.Reports ctx m ↔ a.ReportsFine ctx := by
  constructor
  · intro h
    constructor
    · rintro rfl
      have h0 := reports_throws h hrip (gpFault_alike ctx 0)
      have h1 := reports_throws h hrip (gpFault_alike ctx 1)
      -- the error code is what was left in the register
      have hcode := congrArg (Option.map X86Exception.errorCode) (h0.trans h1.symm)
      simp only [AssistFn.throws, assistGpFault, Context.throwAtSelf, Context.propagate, Option.map_some,
        Function.update_self] at hcode
      exact absurd hcode (by decide)
    · rintro rfl
      obtain ⟨hat, hnone⟩ := @assistInt_rip ctx
      by_contra hno
      rw [not_or, not_or] at hno
      obtain ⟨h80, hself, hnext⟩ := hno
      cases hthrow : assistInt ctx with
      | none => exact h80 (hnone.1 hthrow)
      | some e =>
        have hin := (h throwingAssist throwingAssist_byTable (seqAt ctx m) (oooAt ctx m)
          (by rw [seqAt_ctx]; exact .refl _ ctx) rfl (.refl _ ctx) rfl).2.2 e hthrow
        rw [hat e hthrow, hrip] at hin
        exact hin.elim hself hnext
  · rintro ⟨hgp, hint⟩ assist htable c d hc hcs hd hds
    have hseq : (c.handleBarrier assist).1 = a.throws ctx m := by
      rw [seq_barrier, hc.rip, hrip, hcs, htable]
      exact throws_congr hgp hc
    have hooo : (d.handleBarrier assist).1 = a.throws ctx m := by
      rw [ooo_barrier, hd.rip, hrip, hds, htable]
      exact throws_congr hgp hd
    refine ⟨hseq, hooo, ?_⟩
    intro e he
    by_cases ha : a = .int
    · subst ha
      obtain ⟨hat, hnone⟩ := @assistInt_rip ctx
      obtain h80 | haddr := hint rfl
      · have hthrow : AssistFn.int.throws ctx m = none := hnone.2 h80
        rw [hthrow] at he
        cases he
      · rw [hat e he, hrip]
        exact haddr
    · exact .inl (throws_rip ha e he)

end AssistReports

/-! ### Every exception -/

/-- A uop about to run in some core, or an assist about to be called. -/
inductive Raise
  | uop (exec : Synthop) (junk : Sfr) (op : TransOp) (c : SeqCore)
  | assist (a : AssistFn) (ctx : Context) (m : AddressSpace)

/-- The operands of the uop are valid; the barrier has left the number of the assist. -/
def Raise.Ready : Raise → Prop
  | .uop _ _ op c => OperandsValid op c
  | .assist a ctx _ => ctx.commitarf Reg.rip = a.index

/-- The exception, if any, is reported right. -/
def Raise.Mapped : Raise → Prop
  | .uop exec junk op c => UopReports exec junk op c
  | .assist a ctx m => a.Reports ctx m

def Raise.Fine : Raise → Prop
  | .uop exec _ op c => UopReportsFine exec op c
  | .assist a ctx _ => a.ReportsFine ctx

/-- **Which exceptions are reported right.** -/
theorem mapped_iff (r : Raise) (h : r.Ready) : r.Mapped ↔ r.Fine := by
  cases r with
  | uop exec junk op c => exact uopReports_iff h
  | assist a ctx m => exact assistReports_iff h

/-- A load of eight bytes at 0x2000, of which nothing is mapped. -/
def loadUnmapped : Raise :=
  .uop (fun _ _ => ⟨0, 0⟩) ⟨0, none, 0, 0⟩ (TransOp.init .opLd Reg.rax Reg.rbx Reg.imm Reg.zero 3 0x2000 0 .none)
    (seqAt (.ofArf fun _ => 0) (.init true))

theorem loadUnmapped_mapped : loadUnmapped.Mapped :=
  (mapped_iff loadUnmapped ⟨by decide, by decide, by decide⟩).2
    ⟨by decide, .inr ⟨by decide, fun _ => by decide⟩⟩

/-- `int 3` at 0x1000, in a context about to call its assist. -/
def intThree : Context :=
  .ofArf fun r => if r = Reg.rip then AssistFn.int.index else if r = Reg.ar1 then 3
    else if r = Reg.selfrip then 0x1000 else if r = Reg.nextrip then 0x1001 else 0

theorem intThree_not_mapped : ¬ ∀ r : Raise, r.Ready → r.Mapped := by
  intro h
  have hreports := h (.assist .int intThree (.init true)) rfl
  have hrip := (hreports throwingAssist throwingAssist_byTable (seqAt intThree (.init true))
    (oooAt intThree (.init true)) (by rw [seqAt_ctx]; exact .refl _ _) rfl (.refl _ _) rfl).2.2
    ⟨3, 0, 0, AssistFn.int.index⟩ (by decide)
  exact absurd hrip (by decide)

end X86Sim
