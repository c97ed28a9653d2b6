import X86Sim.Seq.CodeMarks

/-!
# How the issue of a uop ends

Which uops raise an exception, skip their instruction, are split or complete, said of
the state before the issue.
-/

namespace X86Sim.Seq

open AddressSpace

variable {exec : Synthop} {op : TransOp}

namespace SeqCore

variable (c : SeqCore)

/-- The access of `op` fails, other than for its alignment. -/
def accessFaults (op : TransOp) : Bool :=
  match (c.addrgen op).result with
  | .error (e, _) => e != .unalignedAccess
  | .ok _ => false

/-- The number of the exception a uop implementation reports, or 0. -/
def reports (exec : Synthop) (op : TransOp) : ℕ :=
  let r := exec op (c.inputs op)
  if isbranch op.opcode = false ∧ r.rdflags &&& FLAG_INV ≠ 0 then r.rddata.toNat % 2 ^ 32 else 0

def isMem (op : TransOp) : Bool := isload op.opcode || isstore op.opcode

/-- A check that is not met. -/
def skips (exec : Synthop) (op : TransOp) : Bool :=
  !c.fpUnavailable op && !isMem op && isclass op.opcode opclassCheck &&
    c.reports exec op == InternalException.skipBlock.code

/-- The uop raises an exception. -/
def faults (exec : Synthop) (op : TransOp) : Bool :=
  c.fpUnavailable op ||
    if isMem op then op.opcode != .opMf && c.accessFaults op
    else c.reports exec op != 0 && !c.skips exec op

/-- The store writes at least one byte, of guest memory or of the context. -/
def storesBytes (op : TransOp) : Bool :=
  (op.opcode == .opSt || op.opcode == .opStA16) && !c.fpUnavailable op &&
    match (c.addrgen op).result with
    | .ok _ => (storeBytes op.cond op.size (c.addrgen op).origaddr (c.rcdata op)).1 != 0
    | .error _ => false

/-- A halved access is aligned. -/
theorem lowbits_half {a size : ℕ} (h : size ≤ 3) : lowbits (floor8 a) size = 0 := by
  have hdvd : 2 ^ size ∣ floor8 a :=
    (pow_dvd_pow 2 h).trans ⟨a / 8, by unfold floor8; omega⟩
  exact Nat.mod_eq_zero_of_dvd hdvd

theorem lowbits_half_add {a size : ℕ} (h : size ≤ 3) :
    lowbits ((floor8 a + 8) % 2 ^ 64) size = 0 := by
  have hdvd : 2 ^ size ∣ (floor8 a + 8) % 2 ^ 64 :=
    (pow_dvd_pow 2 h).trans ⟨(floor8 a + 8) % 2 ^ 64 / 8, by unfold floor8; omega⟩
  exact Nat.mod_eq_zero_of_dvd hdvd

/-! ### The issue of a uop, by its result -/

variable {c} {junk : Sfr}

theorem handleCommonExceptions_status (op : TransOp) (sfr : Sfr) (g : AddrGen) (e : InternalException)
    (pfec : PageFaultErrorCode) : (handleCommonExceptions op sfr g e pfec).status =
      if e = .unalignedAccess then .refetch else .exception := by
  unfold handleCommonExceptions
  split
  · rfl
  · split <;> rfl

/-- How the issue of a load or store ends is decided by its address. -/
theorem issue_mem (exec : Synthop) (junk : Sfr) (hfp : c.fpUnavailable op = false)
    (hmem : isMem op = true) (hmf : op.opcode ≠ .opMf) :
    match (c.addrgen op).result with
    | .error (e, _) =>
      if e = .unalignedAccess then c.issue exec junk op = .refetch
      else ∃ ctx, c.issue exec junk op = .exception ctx ∧ ctx.hostBytes = c.ctx.hostBytes
    | .ok _ => ∃ reg sfr, c.issue exec junk op = .completed reg sfr := by
  unfold isMem at hmem
  unfold issue
  rw [hfp]
  simp only [Bool.false_eq_true, if_false, hmem, if_true, hmf, issueload, issuestore]
  cases hres : (c.addrgen op).result with
  | error r =>
    obtain ⟨e, pfec⟩ := r
    simp only [ite_self, handleCommonExceptions_status]
    by_cases he : e = .unalignedAccess
    · simp only [if_pos he]
    · simp only [if_neg he]
      exact ⟨_, rfl, rfl⟩
  | ok p =>
    simp only [apply_ite MemIssue.status, ite_self]
    exact ⟨_, _, rfl⟩

/-- A fence does nothing. -/
theorem issue_mf (exec : Synthop) (junk : Sfr) (hfp : c.fpUnavailable op = false)
    (hmf : op.opcode = .opMf) :
    c.issue exec junk op = .completed ⟨0, 0⟩ { junk with data := 0 } := by
  have hld : isload .opMf = false := by decide
  have hst : isstore .opMf = true := by decide
  unfold issue
  simp only [hfp, hmf, hld, hst, Bool.false_eq_true, if_false, Bool.or_true, if_true]

/-- The issue of another uop. -/
theorem issue_alu (exec : Synthop) (junk : Sfr) (hfp : c.fpUnavailable op = false)
    (hmem : isMem op = false) : c.issue exec junk op =
      if c.reports exec op = 0 then .completed (exec op (c.inputs op)) junk
      else if c.skips exec op then .skip
      else .exception { c.ctx with exception := c.reports exec op } := by
  have hmem' : (isload op.opcode || isstore op.opcode) = false := hmem
  unfold issue
  rw [hfp, hmem']
  simp only [Bool.false_eq_true, if_false]
  by_cases hinv : isbranch op.opcode = false ∧ (exec op (c.inputs op)).rdflags &&& FLAG_INV ≠ 0
  · have hrep : c.reports exec op = (exec op (c.inputs op)).rddata.toNat % 2 ^ 32 := if_pos hinv
    have hskip : c.skips exec op = true ↔ isclass op.opcode opclassCheck = true ∧
        (exec op (c.inputs op)).rddata.toNat % 2 ^ 32 = InternalException.skipBlock.code := by
      simp [skips, hfp, hmem, hrep]
    simp only [hrep, hinv.1, hinv.2, hskip, Bool.not_false, not_false_eq_true, ne_eq, true_and]
    by_cases hzero : (exec op (c.inputs op)).rddata.toNat % 2 ^ 32 = 0
    · rw [if_neg (not_not.2 hzero), if_pos hzero]
    · rw [if_pos hzero, if_neg hzero]
  · have hrep : c.reports exec op = 0 := if_neg hinv
    rw [if_pos hrep, if_neg]
    rintro ⟨hbr, hflags, -⟩
    exact hinv ⟨by simpa using hbr, hflags⟩

/-- A uop raises an exception just if it faults; the storage of the context stays. -/
theorem issue_of_faults (junk : Sfr) (h : c.faults exec op = true) :
    ∃ ctx, c.issue exec junk op = .exception ctx ∧ ctx.hostBytes = c.ctx.hostBytes := by
  cases hfp : c.fpUnavailable op with
  | true =>
    have hissue : c.issue exec junk op = .exception { c.ctx with
        exception := InternalException.floatingPointNotAvailable.code, errorCode := 0 } := by
      unfold issue; rw [if_pos hfp]
    exact ⟨_, hissue, rfl⟩
  | false =>
    unfold faults at h
    rw [hfp, Bool.false_or] at h
    cases hmem : isMem op with
    | true =>
      rw [hmem, if_pos rfl, Bool.and_eq_true, bne_iff_ne] at h
      obtain ⟨hmf, hacc⟩ := h
      have hissue := issue_mem exec junk hfp hmem hmf
      unfold accessFaults at hacc
      cases hres : (c.addrgen op).result with
      | error r =>
        obtain ⟨e, pfec⟩ := r
        simp only [hres, bne_iff_ne] at hacc hissue
        rwa [if_neg hacc] at hissue
      | ok p => rw [hres] at hacc; cases hacc
    | false =>
      rw [hmem] at h
      simp only [Bool.false_eq_true, if_false, Bool.and_eq_true, bne_iff_ne, Bool.not_eq_true'] at h
      obtain ⟨hrep, hskip⟩ := h
      have hissue := issue_alu exec junk hfp hmem
      rw [if_neg hrep, if_neg (by rw [hskip]; decide)] at hissue
      exact ⟨_, hissue, rfl⟩

theorem issue_of_skips (junk : Sfr) (h : c.skips exec op = true) : c.issue exec junk op = .skip := by
  have hskip := h
  simp only [skips, Bool.and_eq_true, Bool.not_eq_true', beq_iff_eq] at h
  obtain ⟨⟨⟨hfp, hmem⟩, -⟩, hrep⟩ := h
  rw [issue_alu exec junk hfp hmem, if_neg (by rw [hrep]; decide), if_pos hskip]

/-- A uop that neither faults nor skips completes, or is to be split. -/
theorem issue_else (exec : Synthop) (junk : Sfr) (hf : c.faults exec op = false) (hs : c.skips exec op = false) :
    (∃ reg sfr, c.issue exec junk op = .completed reg sfr) ∨
      c.issue exec junk op = .refetch ∧ isMem op = true ∧ op.opcode ≠ .opMf ∧
        ∃ pfec, (c.addrgen op).result = .error (.unalignedAccess, pfec) := by
  unfold faults at hf
  rw [Bool.or_eq_false_iff] at hf
  obtain ⟨hfp, hf⟩ := hf
  cases hmem : isMem op with
  | true =>
    by_cases hmf : op.opcode = .opMf
    · exact .inl ⟨_, _, issue_mf exec junk hfp hmf⟩
    · have hissue := issue_mem exec junk hfp hmem hmf
      rw [hmem, if_pos rfl, bne_iff_ne.2 hmf, Bool.true_and] at hf
      unfold accessFaults at hf
      cases hres : (c.addrgen op).result with
      | error r =>
        obtain ⟨e, pfec⟩ := r
        simp only [hres, bne_eq_false_iff_eq] at hf hissue
        rw [if_pos hf] at hissue
        exact .inr ⟨hissue, rfl, hmf, pfec, by rw [hf]⟩
      | ok p => rw [hres] at hissue; exact .inl hissue
  | false =>
    rw [hmem] at hf
    simp only [Bool.false_eq_true, if_false, hs, Bool.not_false, Bool.and_true,
      bne_eq_false_iff_eq] at hf
    rw [issue_alu exec junk hfp hmem, if_pos hf]
    exact .inl ⟨_, _, rfl⟩

theorem faults_of_issue {ctx : Context} (h : c.issue exec junk op = .exception ctx) :
    c.faults exec op = true ∧ ctx.hostBytes = c.ctx.hostBytes := by
  cases hf : c.faults exec op with
  | true =>
    obtain ⟨ctx', hissue, hhost⟩ := issue_of_faults junk hf
    obtain rfl := Issued.exception.inj (h.symm.trans hissue)
    exact ⟨rfl, hhost⟩
  | false =>
    cases hs : c.skips exec op with
    | true => rw [issue_of_skips junk hs] at h; cases h
    | false =>
      rcases issue_else exec junk hf hs with ⟨reg, sfr, hissue⟩ | ⟨hissue, -⟩
      · rw [hissue] at h; cases h
      · rw [hissue] at h; cases h

theorem skips_of_issue (h : c.issue exec junk op = .skip) : c.skips exec op = true := by
  cases hs : c.skips exec op with
  | true => rfl
  | false =>
    cases hf : c.faults exec op with
    | true =>
      obtain ⟨ctx', hissue, -⟩ := issue_of_faults junk hf
      rw [hissue] at h; cases h
    | false =>
      rcases issue_else exec junk hf hs with ⟨reg, sfr, hissue⟩ | ⟨hissue, -⟩
      · rw [hissue] at h; cases h
      · rw [hissue] at h; cases h

/-- An access that is not aligned has a misaligned address. -/
theorem lowbits_of_unaligned {m : AddressSpace} {a size : ℕ} {store internal : Bool} {pfec : PageFaultErrorCode}
    (h : checkAndTranslate m a size store internal = .error (.unalignedAccess, pfec)) :
    lowbits a size ≠ 0 := by
  unfold checkAndTranslate at h
  split at h
  · assumption
  · split at h
    · cases h
    · split at h
      · cases store <;> simp at h
      · cases h

/-- Only an access that is not halved is split. -/
theorem refetch_cond (hsize : op.size ≤ 3) (h : c.issue exec junk op = .refetch) :
    (isMem op = true ∧ op.opcode ≠ .opMf) ∧
      op.cond ≠ LdstAlign.lo.cond ∧ op.cond ≠ LdstAlign.hi.cond := by
  have hunaligned : isMem op = true ∧ op.opcode ≠ .opMf ∧
      ∃ pfec, (c.addrgen op).result = .error (.unalignedAccess, pfec) := by
    cases hf : c.faults exec op with
    | true =>
      obtain ⟨ctx, hissue, -⟩ := issue_of_faults junk hf
      rw [hissue] at h; cases h
    | false =>
      cases hs : c.skips exec op with
      | true => rw [issue_of_skips junk hs] at h; cases h
      | false =>
        rcases issue_else exec junk hf hs with ⟨reg, sfr, hissue⟩ | ⟨-, hrest⟩
        · rw [hissue] at h; cases h
        · exact hrest
  obtain ⟨hmem, hmf, pfec, hres⟩ := hunaligned
  rw [addrgen_result] at hres
  split at hres
  · cases hres
  have hlow := lowbits_of_unaligned hres
  refine ⟨⟨hmem, hmf⟩, fun hlo => hlow ?_, fun hhi => hlow ?_⟩
  · have haddr : (c.addrgen op).addr = floor8 (c.addrgen op).origaddr := if_pos hlo
    rw [haddr]
    exact lowbits_half hsize
  · have hne : op.cond ≠ LdstAlign.lo.cond := by rw [hhi]; decide
    have haddr : (c.addrgen op).addr = (floor8 (c.addrgen op).origaddr + 8) % 2 ^ 64 :=
      (if_neg hne).trans (if_pos hhi)
    rw [haddr]
    exact lowbits_half_add hsize

end SeqCore

namespace Frame

variable {f : Frame}

theorem reports_issuing (exec : Synthop) (f : Frame) (op : TransOp) :
    (f.issuing op).reports exec op = f.core.reports exec op := by
  have hinputs : (f.issuing op).inputs op = f.core.inputs op := by
    simp only [SeqCore.inputs, SeqCore.radata, SeqCore.rbdata, SeqCore.rcdata, issuing_arf,
      issuing_arflags]
  unfold SeqCore.reports
  rw [hinputs]

theorem skips_issuing (exec : Synthop) (f : Frame) (op : TransOp) :
    (f.issuing op).skips exec op = f.core.skips exec op := by
  simp only [SeqCore.skips, reports_issuing, fpUnavailable_issuing]

theorem faults_issuing (exec : Synthop) (f : Frame) (op : TransOp) :
    (f.issuing op).faults exec op = f.core.faults exec op := by
  simp only [SeqCore.faults, SeqCore.accessFaults, reports_issuing, skips_issuing,
    fpUnavailable_issuing, addrgen_issuing]

/-- A store that writes bytes is issued to its end. -/
theorem issue_of_storesBytes (exec : Synthop) (junk : Sfr) (h : f.core.storesBytes op = true) :
    ∃ reg sfr, (f.issuing op).issue exec junk op = .completed reg sfr := by
  simp only [SeqCore.storesBytes, Bool.and_eq_true, Bool.or_eq_true, beq_iff_eq,
    Bool.not_eq_true'] at h
  obtain ⟨⟨hst, hfp⟩, hres⟩ := h
  cases haddr : (f.core.addrgen op).result with
  | error r => rw [haddr] at hres; cases hres
  | ok p =>
    exact ⟨_, _, SeqCore.issue_store exec junk hst (by rw [fpUnavailable_issuing, hfp])
      (by rw [addrgen_issuing, haddr])⟩

end Frame
end X86Sim.Seq
