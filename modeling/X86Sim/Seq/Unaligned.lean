import Mathlib.Data.List.TakeWhile
import X86Sim.Mem.Translation
import X86Sim.Seq.Accesses

/-!
# Split loads and stores

The three uops of a load or a store that is split, run in order: the address, then
the two halves. What they do is the access byte by byte, and they fault just if one
of its bytes may not be accessed; but the address of the high half is not sign-extended
before its permission is looked up, while the pointer is taken for the extended one.

* `visited_split`: the addresses translated.
* `split_right_iff`: when the pointers are right.
-/

namespace X86Sim.Seq

open ByteMask

/-- How some uops end: all committed, or one of them otherwise. -/
inductive Ended
  | done (c : SeqCore)
  | stopped (c : SeqCore) (how : Issued)

namespace SeqCore

variable {c : SeqCore} {op : TransOp}

/-- The issue and the commit of some uops in order; each has a store record of its own. -/
def run (exec : Synthop) : List TransOp → (ℕ → Sfr) → SeqCore → Ended
  | [], _, c => .done c
  | op :: ops, junk, c =>
    match c.issue exec (junk 0) op with
    | .completed reg sfr => run exec ops (fun n => junk (n + 1)) (c.commitUop op reg sfr)
    | how => .stopped c how

/-- The address a load or a store has translated; an annulled half has none. -/
def translated (c : SeqCore) (op : TransOp) : Option ℕ :=
  if isMem op ∧ (c.addrgen op).annul = false then some (c.addrgen op).addr else none

/-- The addresses translated in a run. -/
def visited (exec : Synthop) : List TransOp → (ℕ → Sfr) → SeqCore → List ℕ
  | [], _, _ => []
  | op :: ops, junk, c => (c.translated op).toList ++
    match c.issue exec (junk 0) op with
    | .completed reg sfr => visited exec ops (fun n => junk (n + 1)) (c.commitUop op reg sfr)
    | _ => []

/-- The page fault of byte `x`, as the context notes it. -/
def pageFault (c : SeqCore) (store : Bool) (x : ℕ) : Context :=
  { c.ctx with
    exception := if store then InternalException.pageFaultOnWrite.code else InternalException.pageFaultOnRead.code
    errorCode := PageFaultErrorCode.toNat ⟨c.space.check x ⟨true, false, false⟩, store, true, false⟩
    cr2 := x }

/-! ### Commits -/

/-- The core after a result without flags. -/
def setReg (c : SeqCore) (r : Reg) (v : W64) : SeqCore :=
  { c with arf := Function.update c.arf r v, arflags := Function.update c.arflags r 0 }

@[simp] theorem setReg_ctx (r : Reg) (v : W64) : (c.setReg r v).ctx = c.ctx := rfl
@[simp] theorem setReg_space (r : Reg) (v : W64) : (c.setReg r v).space = c.space := rfl
@[simp] theorem setReg_arf_self (r : Reg) (v : W64) : (c.setReg r v).arf r = v := Function.update_self _ _ _

theorem setReg_arf_of_ne {r s : Reg} (v : W64) (h : s ≠ r) : (c.setReg r v).arf s = c.arf s :=
  Function.update_of_ne h _ _

theorem Ready.setReg (h : c.Ready) {r : Reg} (hzero : r ≠ Reg.zero) (htrace : r ≠ Reg.trace)
    (hflags : r ≠ Reg.flags) (v : W64) : (c.setReg r v).Ready := by
  refine ⟨?_, ?_, ?_, ?_⟩
  · rw [setReg_arf_of_ne v hzero.symm, h.zero]
  · rw [setReg_arf_of_ne v htrace.symm, h.trace]
  · exact (Function.update_of_ne hzero.symm _ _).trans h.zeroFlags
  · rw [setReg_arf_of_ne v hflags.symm]
    exact (Function.update_of_ne hflags.symm _ _).trans h.flags

/-- A uop that sets no flags writes its result alone. -/
theorem writeResult_eq_setReg (h : c.Ready) (hs : op.setflags = .none) (hrd : op.rd ≠ Reg.flags) (v : W64) :
    c.writeResult op ⟨v, 0⟩ = c.setReg op.rd v := by
  have hmask : (setflagsToX86Flags op.setflags).setWidth 64 = (0 : W64) := by
    rw [hs]
    decide
  have harf : Function.update c.arf op.rd v Reg.flags = c.arf Reg.flags := Function.update_of_ne hrd.symm _ _
  have hshadow : Function.update c.arflags op.rd 0 Reg.flags = (c.arf Reg.flags).setWidth 16 := by
    rw [Function.update_of_ne hrd.symm, h.flags]
  have hflags : (Function.update c.arf op.rd v Reg.flags &&& ~~~(setflagsToX86Flags op.setflags).setWidth 64) |||
      ((0 : W16).setWidth 64 &&& (setflagsToX86Flags op.setflags).setWidth 64) = c.arf Reg.flags := by
    have hzero : (0 : W16).setWidth 64 = (0 : W64) := by decide
    have hnot : ~~~(0 : W64) = BitVec.allOnes 64 := by decide
    rw [hmask, harf, hzero, hnot, BitVec.and_allOnes]
    exact (congrArg _ BitVec.and_zero).trans BitVec.or_zero
  have hkeep := Function.update_eq_self Reg.flags (Function.update c.arf op.rd v)
  have hkeep' := Function.update_eq_self Reg.flags (Function.update c.arflags op.rd 0)
  rw [harf] at hkeep
  rw [hshadow] at hkeep'
  unfold writeResult setReg setArf
  dsimp only
  split
  · rfl
  · rw [hflags, hkeep, hkeep']

/-- The commit of a uop that is no store and sets no flags. -/
theorem commitUop_eq_setReg (h : c.Ready) (hs : op.setflags = .none) (hst : op.opcode ≠ .opSt ∧ op.opcode ≠ .opStA16)
    (hzero : op.rd ≠ Reg.zero) (hrd : op.rd ≠ Reg.flags) (v : W64) (sfr : Sfr) :
    c.commitUop op ⟨v, 0⟩ sfr = c.setReg op.rd v := by
  unfold commitUop
  rw [if_neg (not_or.2 hst), if_pos hzero, writeResult_eq_setReg h hs hrd]

/-! ### Addresses -/

/-- Where a chunk is. -/
def place (internal : Bool) (a : ℕ) : PhysAddr := if internal then .host a else .guest a

/-- The translation of a chunk. -/
def translate (c : SeqCore) (internal store : Bool) (chunk : ℕ) : Except (InternalException × PageFaultErrorCode) PhysAddr :=
  if c.permits internal store chunk then .ok (place internal chunk)
  else .error (if store then .pageFaultOnWrite else .pageFaultOnRead,
    ⟨c.space.check chunk ⟨true, false, false⟩, store, true, false⟩)

theorem checkAndTranslate_chunk {chunk size : ℕ} (halign : 8 ∣ chunk) (hsize : size ≤ 3) (internal store : Bool) :
    checkAndTranslate c.space chunk size store internal = c.translate internal store chunk := by
  have hlow : lowbits chunk size = 0 :=
    Nat.mod_eq_zero_of_dvd ((pow_dvd_pow 2 hsize).trans halign)
  have hfloor : floor8 chunk = chunk := by
    unfold floor8
    omega
  unfold checkAndTranslate translate permits place
  rw [if_neg (not_not.2 hlow), hfloor]
  cases internal with
  | true => rfl
  | false =>
    rw [if_neg Bool.false_ne_true]
    cases c.space.check chunk ⟨!store, store, false⟩ <;> rfl

/-- The address an access starts from, before it is aligned: a half of a load has it in `ra`. -/
def origaddr (c : SeqCore) (op : TransOp) : ℕ :=
  (((if isstore op.opcode ∨ op.cond = LdstAlign.normal.cond then c.radata op + c.rbdata op
    else c.radata op).setWidth 48).signExtend 64 &&& c.ctx.virtAddrMask).toNat

theorem origaddr_lt : c.origaddr op < 2 ^ 64 := BitVec.isLt _

theorem addrgen_eq : c.addrgen op =
    let a := c.origaddr op
    let annul := op.cond = LdstAlign.hi.cond ∧ floor8 ((a + (2 ^ op.size - 1)) % 2 ^ 64) = floor8 a
    let addr :=
      if op.cond = LdstAlign.lo.cond then floor8 a
      else if op.cond = LdstAlign.hi.cond then (floor8 a + 8) % 2 ^ 64
      else a
    ⟨a, addr, annul,
      if annul then .ok (.host 0) else checkAndTranslate c.space addr op.size (isstore op.opcode) op.internal⟩ :=
  rfl

theorem chunk_first (a : ℕ) : 8 ∣ floor8 a := ⟨a / 8, by unfold floor8; omega⟩

theorem chunk_next (a : ℕ) : 8 ∣ (floor8 a + 8) % 2 ^ 64 := ⟨(floor8 a + 8) % 2 ^ 64 / 8, by unfold floor8; omega⟩

/-- The low half. -/
theorem addrgen_low (hcond : op.cond = LdstAlign.lo.cond) (hsize : op.size ≤ 3) : c.addrgen op =
    ⟨c.origaddr op, floor8 (c.origaddr op), false,
      c.translate op.internal (isstore op.opcode) (floor8 (c.origaddr op))⟩ := by
  have hnothi : ¬op.cond = LdstAlign.hi.cond := by rw [hcond]; decide
  rw [← checkAndTranslate_chunk (chunk_first _) hsize, addrgen_eq]
  simp only [hnothi, false_and, decide_false, if_false, if_pos hcond]

/-- The high half, which is annulled if the access ends in the low chunk. -/
theorem addrgen_high (hcond : op.cond = LdstAlign.hi.cond) (hsize : op.size ≤ 3) : c.addrgen op =
    ⟨c.origaddr op, (floor8 (c.origaddr op) + 8) % 2 ^ 64, decide (c.origaddr op % 8 + 2 ^ op.size ≤ 8),
      if c.origaddr op % 8 + 2 ^ op.size ≤ 8 then .ok (.host 0)
      else c.translate op.internal (isstore op.opcode) ((floor8 (c.origaddr op) + 8) % 2 ^ 64)⟩ := by
  have hne : ¬LdstAlign.hi.cond = LdstAlign.lo.cond := by decide
  have hlt := (origaddr_lt : c.origaddr op < 2 ^ 64)
  have hpow : 2 ^ op.size ≤ 2 ^ 3 := Nat.pow_le_pow_right (by decide) hsize
  have hpos := Nat.two_pow_pos op.size
  have hannul : floor8 ((c.origaddr op + (2 ^ op.size - 1)) % 2 ^ 64) = floor8 (c.origaddr op) ↔
      c.origaddr op % 8 + 2 ^ op.size ≤ 8 := by
    unfold floor8
    omega
  rw [← checkAndTranslate_chunk (chunk_next _) hsize, addrgen_eq]
  simp only [hcond, hne, if_false, if_true, true_and, hannul]

/-- Eight bytes are widened to themselves. -/
theorem extend_chunk (signext : Bool) (v : W64) :
    extend signext ((ofBytes (lane v 0 0)).setWidth (opWidth 3)) = v := by
  have hlane : ofBytes (lane v 0 0) = v := by
    rw [← ofBytes_byteAt v]
    apply ofBytes_congr
    intro i hi
    rw [lane, Nat.zero_add, if_pos hi, ofBytes_byteAt]
  rw [hlane]
  show (if signext = true then (v.setWidth 64).signExtend 64 else (v.setWidth 64).setWidth 64) = v
  cases signext <;> simp

/-- A value depends on its own bytes alone. -/
theorem extend_congr {f g : ℕ → Byte} {size : ℕ} (h : ∀ i < 2 ^ size, f i = g i) (signext : Bool) :
    extend signext ((ofBytes f).setWidth (opWidth size)) = extend signext ((ofBytes g).setWidth (opWidth size)) :=
  congrArg (extend signext) (setWidth_ofBytes le_rfl h)

/-! ### Issues -/

variable (exec : Synthop) (junk : Sfr)

/-- A load whose address translates. -/
theorem issue_load {p : PhysAddr} (hfp : c.fpUnavailable op = false) (hld : isload op.opcode = true)
    (hp : (c.addrgen op).result = .ok p) : ∃ sfr, c.issue exec junk op = .completed
      ⟨if op.cond = LdstAlign.hi.cond ∧ (c.addrgen op).annul = true then
          extractBytes (c.rbdata op) 0 (lowbits (c.addrgen op).origaddr 3) op.size (op.opcode == .opLdx)
        else loadResult op (c.addrgen op).addr (c.addrgen op).origaddr (c.rbdata op) (c.loadphys p), 0⟩ sfr := by
  unfold issue issueload
  simp only [hfp, hld, hp, Bool.false_eq_true, if_false, Bool.true_or, if_true]
  by_cases hannul : op.cond = LdstAlign.hi.cond ∧ (c.addrgen op).annul = true
  · rw [if_pos hannul, if_pos hannul]
    exact ⟨_, rfl⟩
  · rw [if_neg hannul, if_neg hannul]
    exact ⟨_, rfl⟩

/-- A half whose address does not. -/
theorem issue_fault (hfp : c.fpUnavailable op = false) (hmem : (isload op.opcode || isstore op.opcode) = true)
    (hmf : op.opcode ≠ .opMf) {store : Bool} {pfec : PageFaultErrorCode}
    (hg : (c.addrgen op).result = .error (if store then .pageFaultOnWrite else .pageFaultOnRead, pfec)) :
    c.issue exec junk op = .exception { c.ctx with
      exception := if store then InternalException.pageFaultOnWrite.code else InternalException.pageFaultOnRead.code
      errorCode := pfec.toNat
      cr2 := if op.cond = LdstAlign.hi.cond then (c.addrgen op).addr else (c.addrgen op).origaddr } := by
  have hne : (if store then InternalException.pageFaultOnWrite else .pageFaultOnRead) ≠ .unalignedAccess := by
    cases store <;> decide
  have hpf : (if store then InternalException.pageFaultOnWrite else .pageFaultOnRead) = .pageFaultOnRead ∨
      (if store then InternalException.pageFaultOnWrite else .pageFaultOnRead) = .pageFaultOnWrite := by
    cases store
    · exact .inl rfl
    · exact .inr rfl
  have hcode : (if store then InternalException.pageFaultOnWrite else .pageFaultOnRead).code =
      if store then InternalException.pageFaultOnWrite.code else InternalException.pageFaultOnRead.code :=
    apply_ite _ _ _ _
  have hissue : (if isload op.opcode then c.issueload op junk else c.issuestore op junk) =
      handleCommonExceptions op junk (c.addrgen op) (if store then .pageFaultOnWrite else .pageFaultOnRead) pfec := by
    unfold issueload issuestore
    simp only [hg, ite_self]
  unfold issue
  simp only [hfp, hmem, hmf, Bool.false_eq_true, if_false, if_true, hissue]
  unfold handleCommonExceptions
  simp only [if_neg hne, hpf, true_and, apply_ite MemIssue.status, apply_ite MemIssue.sfr, ite_self,
    apply_ite MemIssue.origvirt, exceptionWord_code, exceptionWord_pfec, hcode]

/-- The eight bytes of a chunk. -/
theorem loadphys_place (internal : Bool) (a : ℕ) :
    c.loadphys (place internal a) = ofBytes fun i => c.mem internal (a + i) := by
  cases internal <;> rfl

theorem translate_ok {internal store : Bool} {chunk : ℕ} (h : c.permits internal store chunk = true) :
    c.translate internal store chunk = .ok (place internal chunk) := if_pos h

theorem translate_error {internal store : Bool} {chunk : ℕ} (h : ¬c.permits internal store chunk = true) :
    c.translate internal store chunk = .error (if store then .pageFaultOnWrite else .pageFaultOnRead,
      ⟨c.space.check chunk ⟨true, false, false⟩, store, true, false⟩) := if_neg h

/-- A fault on the low half is reported at the address of the access. -/
theorem issue_low_fault (hfp : c.fpUnavailable op = false) (hmem : (isload op.opcode || isstore op.opcode) = true)
    (hmf : op.opcode ≠ .opMf) (hcond : op.cond = LdstAlign.lo.cond) (hsize : op.size ≤ 3)
    (hno : ¬c.permits op.internal (isstore op.opcode) (c.origaddr op) = true) :
    c.issue exec junk op = .exception (c.pageFault (isstore op.opcode) (c.origaddr op)) := by
  have hchunk : floor8 (c.origaddr op) / 8 = c.origaddr op / 8 := by
    unfold floor8
    omega
  have hgen := addrgen_low (c := c) hcond hsize
  have hres : (c.addrgen op).result = .error (if isstore op.opcode then .pageFaultOnWrite else .pageFaultOnRead,
      ⟨c.space.check (c.origaddr op) ⟨true, false, false⟩, isstore op.opcode, true, false⟩) := by
    rw [hgen]
    dsimp only
    rw [translate_error (by rwa [permits_congr hchunk]), check_congr (page_eq_of_chunk hchunk)]
  have hnothi : ¬op.cond = LdstAlign.hi.cond := by rw [hcond]; decide
  rw [issue_fault exec junk hfp hmem hmf hres, if_neg hnothi, hgen]
  rfl

/-- A fault on the high half is reported at the first byte of its page. -/
theorem issue_high_fault (hfp : c.fpUnavailable op = false) (hmem : (isload op.opcode || isstore op.opcode) = true)
    (hmf : op.opcode ≠ .opMf) (hcond : op.cond = LdstAlign.hi.cond) (hsize : op.size ≤ 3)
    (hcross : ¬c.origaddr op % 8 + 2 ^ op.size ≤ 8)
    (hno : ¬c.permits op.internal (isstore op.opcode) ((floor8 (c.origaddr op) + 8) % 2 ^ 64) = true) :
    c.issue exec junk op =
      .exception (c.pageFault (isstore op.opcode) ((floor8 (c.origaddr op) + 8) % 2 ^ 64)) := by
  have hgen := addrgen_high (c := c) hcond hsize
  have hres : (c.addrgen op).result = .error (if isstore op.opcode then .pageFaultOnWrite else .pageFaultOnRead,
      ⟨c.space.check ((floor8 (c.origaddr op) + 8) % 2 ^ 64) ⟨true, false, false⟩, isstore op.opcode, true, false⟩) := by
    rw [hgen]
    dsimp only
    rw [if_neg hcross, translate_error hno]
  rw [issue_fault exec junk hfp hmem hmf hres, if_pos hcond, hgen]
  rfl

/-- The low half of a load reads its chunk whole. -/
theorem issue_ld_low (hfp : c.fpUnavailable op = false) (hld : isload op.opcode = true)
    (hcond : op.cond = LdstAlign.lo.cond) (hsize : op.size = 3)
    (hok : c.permits op.internal (isstore op.opcode) (c.origaddr op) = true) :
    ∃ sfr, c.issue exec junk op =
      .completed ⟨ofBytes fun i => c.mem op.internal (floor8 (c.origaddr op) + i), 0⟩ sfr := by
  have hchunk : floor8 (c.origaddr op) / 8 = c.origaddr op / 8 := by
    unfold floor8
    omega
  have hgen := addrgen_low (c := c) hcond (by omega)
  rw [translate_ok (by rwa [permits_congr hchunk])] at hgen
  obtain ⟨sfr, hissue⟩ := issue_load exec junk hfp hld (congrArg AddrGen.result hgen)
  refine ⟨sfr, hissue.trans ?_⟩
  have hlow : lowbits (floor8 (c.origaddr op)) 3 = 0 := by
    unfold lowbits floor8
    omega
  rw [hgen, if_neg (fun h => absurd h.2 Bool.false_ne_true), loadphys_place, loadResult, if_neg (by rw [hcond]; decide),
    hlow, hsize, extractBytes_eq _ _ _ le_rfl]
  exact congrArg (fun v => Issued.completed ⟨v, 0⟩ sfr) (extend_chunk _ _)

/-- The high half of a load puts the value together. -/
theorem issue_ld_high (hfp : c.fpUnavailable op = false) (hld : isload op.opcode = true)
    (hcond : op.cond = LdstAlign.hi.cond) (hsize : op.size ≤ 3)
    (hok : c.origaddr op % 8 + 2 ^ op.size ≤ 8 ∨
      c.permits op.internal (isstore op.opcode) ((floor8 (c.origaddr op) + 8) % 2 ^ 64) = true)
    (hrb : c.rbdata op = ofBytes fun i => c.mem op.internal (floor8 (c.origaddr op) + i)) :
    ∃ sfr, c.issue exec junk op = .completed ⟨extend (op.opcode == .opLdx)
      ((ofBytes fun i => c.mem op.internal (byteAddr (c.origaddr op) i)).setWidth (opWidth op.size)), 0⟩ sfr := by
  have hgen := addrgen_high (c := c) hcond hsize
  have hlt := (origaddr_lt : c.origaddr op < 2 ^ 64)
  have hpow : 2 ^ op.size ≤ 2 ^ 3 := Nat.pow_le_pow_right (by decide) hsize
  have hlow : lowbits (c.origaddr op) 3 = c.origaddr op % 8 := rfl
  by_cases hin : c.origaddr op % 8 + 2 ^ op.size ≤ 8
  · -- the access ends in the low chunk
    rw [if_pos hin] at hgen
    obtain ⟨sfr, hissue⟩ := issue_load exec junk hfp hld (congrArg AddrGen.result hgen)
    refine ⟨sfr, hissue.trans ?_⟩
    have hannul : op.cond = LdstAlign.hi.cond ∧ decide (c.origaddr op % 8 + 2 ^ op.size ≤ 8) = true :=
      ⟨hcond, decide_eq_true hin⟩
    rw [hgen, if_pos hannul, hlow, extractBytes_eq _ _ _ hsize]
    refine congrArg (fun v => Issued.completed ⟨v, 0⟩ sfr) (extend_congr (fun i hi => ?_) _)
    have hlane : c.origaddr op % 8 + i < 8 := by omega
    rw [lane, if_pos hlane, hrb, byteAt_ofBytes _ hlane, byteAddr_low hlt hlane]
  · rw [if_neg hin, translate_ok (hok.resolve_left hin)] at hgen
    obtain ⟨sfr, hissue⟩ := issue_load exec junk hfp hld (congrArg AddrGen.result hgen)
    refine ⟨sfr, hissue.trans ?_⟩
    have hnot : ¬(op.cond = LdstAlign.hi.cond ∧ decide (c.origaddr op % 8 + 2 ^ op.size ≤ 8) = true) :=
      fun h => hin (of_decide_eq_true h.2)
    rw [hgen, if_neg hnot, loadphys_place, loadResult, if_pos hcond, hlow, extractBytes_eq _ _ _ hsize]
    refine congrArg (fun v => Issued.completed ⟨v, 0⟩ sfr) (extend_congr (fun i hi => ?_) _)
    rw [lane]
    split
    · rename_i hlane
      rw [hrb, byteAt_ofBytes _ hlane, byteAddr_low hlt hlane]
    · rename_i hlane
      rw [byteAt_ofBytes _ (by omega), byteAddr_high hlt (by omega) (by omega)]

end SeqCore

/-! ### The three uops -/

/-- The address of a split access. -/
def splitAddr (op : TransOp) : TransOp :=
  { op with
    opcode := .opAdd, size := 3, cond := 0, eom := false, internal := false, unaligned := false,
    rd := Reg.temp9, rc := Reg.zero }

/-- A half of a split access. -/
def splitHalf (op : TransOp) (half : LdstAlign) : TransOp :=
  { op with
    ra := Reg.temp9, rb := Reg.imm, rbimm := 0, cond := half.cond, unaligned := false, som := false }

/-- The low half of a load takes eight bytes into `temp4`. -/
def loadLow (op : TransOp) : TransOp := { splitHalf op .lo with eom := false, rd := Reg.temp4, size := 3 }

/-- The high half of a load has the low one beside it. -/
def loadHigh (op : TransOp) : TransOp := { splitHalf op .hi with rb := Reg.temp4 }

/-- The high half of a store comes first. -/
def storeHigh (op : TransOp) : TransOp := { splitHalf op .hi with eom := false }

def storeLow (op : TransOp) : TransOp := splitHalf op .lo

theorem splitUnaligned_load {op : TransOp} (hld : isload op.opcode = true) :
    splitUnaligned op = [splitAddr op, loadLow op, loadHigh op] := if_pos hld

theorem splitUnaligned_store {op : TransOp} (hld : ¬isload op.opcode = true) :
    splitUnaligned op = [splitAddr op, storeHigh op, storeLow op] := if_neg hld

namespace SeqCore

section Split

variable {c : SeqCore} {op : TransOp} (rest : Synthop)

theorem remap_temp {r : Reg} (h : r = Reg.temp4 ∨ r = Reg.temp9 ∨ r = Reg.zero) : remap r = r := by
  rcases h with rfl | rfl | rfl <;> decide

/-- The sum of eight bytes, without carry and without flags. -/
theorem aluResult_add (c : SeqCore) (op : TransOp) :
    aluResult (splitAddr op).size (c.inputs (splitAddr op)).ra .none
      (aluop2 (w := opWidth (splitAddr op).size) false ((c.inputs (splitAddr op)).ra.setWidth _)
        ((c.inputs (splitAddr op)).rb.setWidth _) 0) = ⟨c.radata op + c.rbdata op, 0⟩ := by
  have hsum : ∀ a b : W64, (aluResult 3 a .none (aluop2 (w := opWidth 3) false (a.setWidth _) (b.setWidth _) 0)) =
      ⟨a + b, 0⟩ := by
    intro a b
    have hzero : ¬(0 : W16) &&& FLAG_CF ≠ 0 := by decide
    have hval : (aluop2 (w := opWidth 3) false (a.setWidth _) (b.setWidth _) 0).result = a + b := by
      show a.setWidth 64 + b.setWidth 64 + (if (0 : W16) &&& FLAG_CF ≠ 0 then (1 : W64) else 0) = a + b
      rw [if_neg hzero, BitVec.setWidth_eq, BitVec.setWidth_eq]
      exact BitVec.add_zero _
    unfold aluResult
    rw [hval]
    simp only [SetFlags.none, Bool.false_eq_true, false_and, if_false]
    exact congrArg₂ UopResult.mk (BitVec.setWidth_eq _) (by decide)
  exact hsum _ _

/-- The address is left in `temp9`. -/
theorem run_splitAddr (h : c.Ready) (hfp : c.fpUnavailable op = false) (hs : op.setflags = .none) (junk : Sfr) :
    ∃ sfr, c.issue rest.withImpl junk (splitAddr op) = .completed ⟨c.radata op + c.rbdata op, 0⟩ sfr ∧
      c.commitUop (splitAddr op) ⟨c.radata op + c.rbdata op, 0⟩ sfr =
        c.setReg Reg.temp9 (c.radata op + c.rbdata op) := by
  have hcarry : (c.inputs (splitAddr op)).rcflags = 0 := by
    show c.arflags (remap Reg.zero) = 0
    rw [remap_temp (.inr (.inr rfl)), h.zeroFlags]
  have hexec : rest.withImpl (splitAddr op) (c.inputs (splitAddr op)) = ⟨c.radata op + c.rbdata op, 0⟩ := by
    have hgen : (splitAddr op).setflags.gen .all = .none := if_pos hs
    show x86Aluop false (splitAddr op) (c.inputs (splitAddr op)) = _
    unfold x86Aluop
    rw [hgen, hcarry]
    exact aluResult_add c op
  have hmem : isMem (splitAddr op) = false := by
    have hclass : (isload .opAdd || isstore .opAdd) = false := by decide
    exact hclass
  have hreports : c.reports rest.withImpl (splitAddr op) = 0 := by
    have hinv : (0 : W16) &&& FLAG_INV = 0 := by decide
    unfold reports
    rw [hexec]
    exact if_neg fun h => h.2 hinv
  have hfp' : c.fpUnavailable (splitAddr op) = false := hfp
  have hs' : (splitAddr op).setflags = .none := hs
  have hrd : (splitAddr op).rd ≠ Reg.zero ∧ (splitAddr op).rd ≠ Reg.flags := by
    have hne : Reg.temp9 ≠ Reg.zero ∧ Reg.temp9 ≠ Reg.flags := by decide
    exact hne
  have hst : (splitAddr op).opcode ≠ .opSt ∧ (splitAddr op).opcode ≠ .opStA16 := ⟨nofun, nofun⟩
  refine ⟨junk, ?_, commitUop_eq_setReg h hs' hst hrd.1 hrd.2 _ _⟩
  rw [issue_alu _ junk hfp' hmem, if_pos hreports, hexec]

/-- The address of a half is that of the access. -/
theorem origaddr_half {c' : SeqCore} {o : TransOp} (hctx : c'.ctx = c.ctx)
    (ht : c'.arf Reg.temp9 = c.radata op + c.rbdata op) (hra : o.ra = Reg.temp9)
    (hcond : o.cond ≠ LdstAlign.normal.cond) (hrb : isstore o.opcode = true → o.rb = Reg.imm ∧ o.rbimm = 0) :
    c'.origaddr o = c.linear op := by
  have hradata : c'.radata o = c.radata op + c.rbdata op := by
    unfold radata
    rw [hra, remap_temp (.inr (.inl rfl)), ht]
    rfl
  unfold origaddr linear
  rw [hctx, hradata]
  by_cases hst : isstore o.opcode = true
  · have hrbdata : c'.rbdata o = 0 := by
      unfold rbdata
      rw [if_pos (hrb hst).1, (hrb hst).2]
    rw [if_pos (.inl hst), hrbdata]
    exact congrArg (fun s : W64 => ((s.setWidth 48).signExtend 64 &&& c.ctx.virtAddrMask).toNat) (BitVec.add_zero _)
  · rw [if_neg (not_or.2 ⟨hst, hcond⟩)]

/-- The access is permitted if its first byte is and, where it leaves its chunk, the next chunk. -/
theorem permitted_iff (hsize : op.size ≤ 3) : c.Permitted op ↔
    c.permits op.internal (isstore op.opcode) (c.linear op) = true ∧
      (c.linear op % 8 + 2 ^ op.size ≤ 8 ∨
        c.permits op.internal (isstore op.opcode) ((floor8 (c.linear op) + 8) % 2 ^ 64) = true) := by
  have hlt : c.linear op < 2 ^ 64 := BitVec.isLt _
  have hpow : 2 ^ op.size ≤ 2 ^ 3 := Nat.pow_le_pow_right (by decide) hsize
  have hpos := Nat.two_pow_pos op.size
  have hmod := Nat.mod_lt (c.linear op) (by decide : 0 < 8)
  constructor
  · intro h
    have hfirst := h 0 hpos
    have hzero : byteAddr (c.linear op) 0 = c.linear op := byteAddr_of_lt hlt
    rw [hzero] at hfirst
    refine ⟨hfirst, or_iff_not_imp_left.2 fun hcross => ?_⟩
    have hbyte := h (8 - c.linear op % 8) (by omega)
    have haddr := byteAddr_high hlt (show 8 ≤ c.linear op % 8 + (8 - c.linear op % 8) by omega) (by omega)
    rw [haddr, show c.linear op % 8 + (8 - c.linear op % 8) - 8 = 0 by omega] at hbyte
    exact hbyte
  · rintro ⟨hlow, hhigh⟩ i hi
    rcases Nat.lt_or_ge (c.linear op % 8 + i) 8 with hin | hout
    · rw [byteAddr_low hlt hin, ← hlow]
      apply permits_congr
      unfold floor8
      omega
    · have hcross : ¬c.linear op % 8 + 2 ^ op.size ≤ 8 := by omega
      rw [byteAddr_high hlt hout (by omega), ← hhigh.resolve_left hcross]
      apply permits_congr
      unfold floor8
      omega

/-- A split may change only its two temporaries. -/
structure Scratched (c c' : SeqCore) : Prop where
  arf : ∀ r, r ≠ Reg.temp4 → r ≠ Reg.temp9 → c'.arf r = c.arf r
  arflags : ∀ r, r ≠ Reg.temp4 → r ≠ Reg.temp9 → c'.arflags r = c.arflags r
  same : c' = { c with arf := c'.arf, arflags := c'.arflags }
  ready : c'.Ready

theorem Scratched.space {c c' : SeqCore} (h : c.Scratched c') : c'.space = c.space := by rw [h.same]

theorem Scratched.ctx {c c' : SeqCore} (h : c.Scratched c') : c'.ctx = c.ctx := by rw [h.same]

theorem Scratched.fp {c c' : SeqCore} (h : c.Scratched c') (op : TransOp) :
    c'.fpUnavailable op = c.fpUnavailable op := by
  unfold fpUnavailable
  rw [h.ctx]

theorem Scratched.permits {c c' : SeqCore} (h : c.Scratched c') (internal store : Bool) (x : ℕ) :
    c'.permits internal store x = c.permits internal store x := by
  unfold SeqCore.permits
  rw [h.space]

theorem Scratched.mem {c c' : SeqCore} (h : c.Scratched c') (internal : Bool) : c'.mem internal = c.mem internal := by
  unfold SeqCore.mem
  rw [h.space, h.ctx]

theorem Scratched.pageFault {c c' : SeqCore} (h : c.Scratched c') (store : Bool) (x : ℕ) :
    c'.pageFault store x = c.pageFault store x := by
  unfold SeqCore.pageFault
  rw [h.space, h.ctx]

theorem Scratched.setReg {c c' : SeqCore} (h : c.Scratched c') {r : Reg} (hr : r = Reg.temp4 ∨ r = Reg.temp9) (v : W64) :
    c.Scratched (c'.setReg r v) := by
  have hne : r ≠ Reg.zero ∧ r ≠ Reg.trace ∧ r ≠ Reg.flags := by
    rcases hr with rfl | rfl <;> decide
  refine ⟨fun s h4 h9 => ?_, fun s h4 h9 => ?_, ?_, h.ready.setReg hne.1 hne.2.1 hne.2.2 v⟩
  · have hne : s ≠ r := by
      rintro rfl
      exact hr.elim h4 h9
    rw [setReg_arf_of_ne v hne, h.arf s h4 h9]
  · have hne : s ≠ r := by
      rintro rfl
      exact hr.elim h4 h9
    exact (Function.update_of_ne hne _ _).trans (h.arflags s h4 h9)
  · exact congrArg (fun d : SeqCore => d.setReg r v) h.same

theorem Scratched.refl (h : c.Ready) : c.Scratched c := ⟨fun _ _ _ => rfl, fun _ _ _ => rfl, rfl, h⟩

/-- A byte of the access that may not be accessed, whose page fault stops the uops in `c'`. -/
def FaultedAt (c : SeqCore) (op : TransOp) (e : Ended) (c' : SeqCore) : Prop :=
  ∃ i < 2 ^ op.size, c.permits op.internal (isstore op.opcode) (byteAddr (c.linear op) i) = false ∧
    e = .stopped c' (.exception (c.pageFault (isstore op.opcode) (byteAddr (c.linear op) i)))

/-- The first page is not permitted. -/
theorem faultedAt_low {c' : SeqCore}
    (hno : ¬c.permits op.internal (isstore op.opcode) (c.linear op) = true) :
    c.FaultedAt op (.stopped c' (.exception (c.pageFault (isstore op.opcode) (c.linear op)))) c' := by
  have hzero : byteAddr (c.linear op) 0 = c.linear op := byteAddr_of_lt (BitVec.isLt _)
  refine ⟨0, Nat.two_pow_pos _, ?_, ?_⟩
  · rw [hzero]
    exact Bool.eq_false_iff.2 hno
  · rw [hzero]

/-- The second page is not permitted. -/
theorem faultedAt_high (hsize : op.size ≤ 3) {c' : SeqCore} (hcross : ¬c.linear op % 8 + 2 ^ op.size ≤ 8)
    (hno : ¬c.permits op.internal (isstore op.opcode) ((floor8 (c.linear op) + 8) % 2 ^ 64) = true) :
    c.FaultedAt op (.stopped c' (.exception (c.pageFault (isstore op.opcode)
      ((floor8 (c.linear op) + 8) % 2 ^ 64)))) c' := by
  have hpow : 2 ^ op.size ≤ 2 ^ 3 := Nat.pow_le_pow_right (by decide) hsize
  have hmod := Nat.mod_lt (c.linear op) (by decide : 0 < 8)
  refine ⟨8 - c.linear op % 8, by omega, ?_, ?_⟩
  · rw [byteAddr_next]
    exact Bool.eq_false_iff.2 hno
  · rw [byteAddr_next]

/-- The page of some byte of the access. -/
def Touches (c : SeqCore) (op : TransOp) (x : ℕ) : Prop :=
  ∃ i < 2 ^ op.size, x / kPageSize = byteAddr (c.linear op) i / kPageSize

theorem translated_addr (c : SeqCore) (op : TransOp) : c.translated (splitAddr op) = none := by
  have hclass : (isload .opAdd || isstore .opAdd) = false := by decide
  exact if_neg fun h => absurd (hclass.symm.trans h.1) Bool.false_ne_true

theorem visited_cons {exec : Synthop} {ops : List TransOp} {junk : ℕ → Sfr} {reg : UopResult} {sfr : Sfr}
    (h : c.issue exec (junk 0) op = .completed reg sfr) : visited exec (op :: ops) junk c =
      (c.translated op).toList ++ visited exec ops (fun n => junk (n + 1)) (c.commitUop op reg sfr) := by
  rw [visited, h]

theorem visited_last {exec : Synthop} {ops : List TransOp} {junk : ℕ → Sfr}
    (h : ops = [] ∨ ∃ ctx, c.issue exec (junk 0) op = .exception ctx) :
    visited exec (op :: ops) junk c = (c.translated op).toList := by
  rw [visited]
  rcases h with rfl | ⟨ctx, h⟩
  · split <;> exact List.append_nil _
  · rw [h]
    exact List.append_nil _

theorem translated_low (c : SeqCore) (op : TransOp) {c' : SeqCore} {o : TransOp} (hmem : (isload o.opcode || isstore o.opcode) = true)
    (hcond : o.cond = LdstAlign.lo.cond) (hsize : o.size ≤ 3) (horig : c'.origaddr o = c.linear op) :
    (c'.translated o).toList = [floor8 (c.linear op)] := by
  have hgen := addrgen_low (c := c') hcond hsize
  have htr : c'.translated o = some (floor8 (c.linear op)) := by
    unfold translated isMem
    rw [hgen, hmem, horig]
    rfl
  rw [htr, Option.toList_some]

/-- The chunk that the high half is for, if the access goes so far. -/
def highChunk (c : SeqCore) (op : TransOp) : List ℕ :=
  if c.linear op % 8 + 2 ^ op.size ≤ 8 then [] else [(floor8 (c.linear op) + 8) % 2 ^ 64]

theorem translated_high (c : SeqCore) (op : TransOp) {c' : SeqCore} {o : TransOp} (hmem : (isload o.opcode || isstore o.opcode) = true)
    (hcond : o.cond = LdstAlign.hi.cond) (hsize : o.size ≤ 3) (heq : o.size = op.size)
    (horig : c'.origaddr o = c.linear op) : (c'.translated o).toList = c.highChunk op := by
  have hgen := addrgen_high (c := c') hcond hsize
  have htr : c'.translated o = if c.linear op % 8 + 2 ^ op.size ≤ 8 then none
      else some ((floor8 (c.linear op) + 8) % 2 ^ 64) := by
    unfold translated isMem
    rw [hgen, hmem]
    dsimp only
    rw [horig, heq]
    by_cases hin : c.linear op % 8 + 2 ^ op.size ≤ 8
    · simp [hin]
    · simp [hin]
  rw [htr, highChunk]
  split
  · rfl
  · rfl

/-- The chunks of an access, in the order its halves take them: a load starts with the low
one, a store with the high one. -/
def chunks (c : SeqCore) (op : TransOp) : List ℕ :=
  if isload op.opcode then floor8 (c.linear op) :: c.highChunk op else c.highChunk op ++ [floor8 (c.linear op)]

/-- What is looked at when one stops at the first that `p` refuses. -/
def upTo (p : ℕ → Bool) : List ℕ → List ℕ
  | [] => []
  | x :: l => x :: if p x then upTo p l else []

/-- The high chunk is the last one. -/
theorem upTo_highChunk (p : ℕ → Bool) : upTo p (c.highChunk op) = c.highChunk op := by
  unfold highChunk
  split
  · rfl
  · simp [upTo]

/-- The chunks translated: those up to the first that may not be accessed. -/
def reached (c : SeqCore) (op : TransOp) : List ℕ := upTo (c.permits op.internal (isstore op.opcode)) (c.chunks op)

theorem permits_chunk (store : Bool) :
    c.permits op.internal store (floor8 (c.linear op)) = c.permits op.internal store (c.linear op) := by
  apply permits_congr
  unfold floor8
  omega

/-- A split load runs: the value byte by byte, or the page fault of one of the bytes. -/
theorem run_split_load (h : c.Ready) (hfp : c.fpUnavailable op = false) (hld : isload op.opcode = true)
    (hsize : op.size ≤ 3) (hs : op.setflags = .none) (hzero : op.rd ≠ Reg.zero) (hrd : op.rd ≠ Reg.flags)
    (junk : ℕ → Sfr) : visited rest.withImpl (splitUnaligned op) junk c = c.reached op ∧
      ∃ c', c.Scratched c' ∧ (c.Permitted op →
        run rest.withImpl (splitUnaligned op) junk c = .done (c'.setReg op.rd (c.littleEndian op))) ∧
      (¬c.Permitted op → c.FaultedAt op (run rest.withImpl (splitUnaligned op) junk c) c') := by
  have hst : isstore op.opcode = false := not_isstore_of_isload hld
  have hmem : (isload op.opcode || isstore op.opcode) = true := by rw [hld]; rfl
  have hmf : op.opcode ≠ .opMf := by
    rintro hmf
    rw [hmf] at hld
    exact absurd hld (by decide)
  have hnostore : op.opcode ≠ .opSt ∧ op.opcode ≠ .opStA16 := by
    constructor <;> rintro hop <;> rw [hop] at hld <;> exact absurd hld (by decide)
  obtain ⟨sfr, hag, hc1⟩ := run_splitAddr rest h hfp hs (junk 0)
  have hscr1 := (Scratched.refl h).setReg (.inr rfl) (c.radata op + c.rbdata op)
  generalize hc1eq : c.setReg Reg.temp9 (c.radata op + c.rbdata op) = c1 at hc1 hscr1
  have ht9 : c1.arf Reg.temp9 = c.radata op + c.rbdata op := by
    rw [← hc1eq]
    exact setReg_arf_self _ _
  have hlo : (loadLow op).cond = LdstAlign.lo.cond := rfl
  have hhi : (loadHigh op).cond = LdstAlign.hi.cond := rfl
  have hnolo : LdstAlign.lo.cond ≠ LdstAlign.normal.cond := by decide
  have hnohi : LdstAlign.hi.cond ≠ LdstAlign.normal.cond := by decide
  have hnot : ∀ {p : Prop}, isstore op.opcode = true → p := fun h => absurd (h.symm.trans hst) (by decide)
  have hfp1 : c1.fpUnavailable (loadLow op) = false := (hscr1.fp _).trans hfp
  have horig1 : c1.origaddr (loadLow op) = c.linear op :=
    origaddr_half hscr1.ctx ht9 rfl (hlo.symm ▸ hnolo) fun h => hnot h
  have hmemlo : (isload (loadLow op).opcode || isstore (loadLow op).opcode) = true := hmem
  have hmemhi : (isload (loadHigh op).opcode || isstore (loadHigh op).opcode) = true := hmem
  have hsizelo : (loadLow op).size ≤ 3 := le_rfl
  have htouch1 := translated_low c op hmemlo hlo hsizelo horig1
  rw [splitUnaligned_load hld, visited_cons hag, translated_addr, hc1]
  simp only [run, hag, hc1, Option.toList_none, List.nil_append]
  by_cases hfirst : c.permits op.internal (isstore op.opcode) (c.linear op) = true
  · obtain ⟨sfr1, hissue1⟩ := issue_ld_low rest.withImpl (junk (0 + 1)) hfp1 hld hlo rfl
      (by rw [horig1, hscr1.permits]; exact hfirst)
    have hinternal : (loadLow op).internal = op.internal := rfl
    rw [horig1, hscr1.mem, hinternal] at hissue1
    generalize hchunk : (ofBytes fun i => c.mem op.internal (floor8 (c.linear op) + i)) = chunk at hissue1
    have hc2 : c1.commitUop (loadLow op) ⟨chunk, 0⟩ sfr1 = c1.setReg Reg.temp4 chunk :=
      @commitUop_eq_setReg c1 (loadLow op) hscr1.ready hs hnostore (show Reg.temp4 ≠ Reg.zero by decide)
        (show Reg.temp4 ≠ Reg.flags by decide) chunk sfr1
    have hscr2 := hscr1.setReg (.inl rfl) chunk
    have ht9' : (c1.setReg Reg.temp4 chunk).arf Reg.temp9 = c.radata op + c.rbdata op :=
      (setReg_arf_of_ne _ (by decide)).trans ht9
    have hrb : (c1.setReg Reg.temp4 chunk).rbdata (loadHigh op) = chunk := by
      show (if Reg.temp4 = Reg.imm then _ else (c1.setReg Reg.temp4 chunk).arf (remap Reg.temp4)) = chunk
      rw [if_neg (by decide), remap_temp (.inl rfl), setReg_arf_self]
    rw [visited_cons hissue1, hc2]
    simp only [hissue1, hc2]
    generalize c1.setReg Reg.temp4 chunk = c2 at hscr2 ht9' hrb
    -- the high half
    have hfp2 : c2.fpUnavailable (loadHigh op) = false := (hscr2.fp _).trans hfp
    have horig2 : c2.origaddr (loadHigh op) = c.linear op :=
      origaddr_half hscr2.ctx ht9' rfl (hhi.symm ▸ hnohi) fun h => hnot h
    rw [visited_last (.inl rfl)]
    refine ⟨?_, c2, hscr2, fun hok => ?_, fun hno => ?_⟩
    · rw [htouch1, translated_high c op hmemhi hhi hsize rfl horig2, reached, chunks, if_pos hld, upTo, permits_chunk,
        if_pos hfirst, upTo_highChunk]
      rfl
    · have hhigh := ((permitted_iff hsize).1 hok).2
      obtain ⟨sfr2, hissue2⟩ := issue_ld_high rest.withImpl (junk (0 + 1 + 1)) hfp2 hld hhi hsize
        (by rw [horig2, hscr2.permits]; exact hhigh) (by rw [horig2, hscr2.mem, hrb]; exact hchunk.symm)
      rw [horig2, hscr2.mem] at hissue2
      simp only [hissue2]
      exact congrArg Ended.done (commitUop_eq_setReg hscr2.ready hs hnostore hzero hrd _ _)
    · have hhigh := not_or.1 fun h => hno ((permitted_iff hsize).2 ⟨hfirst, h⟩)
      have hissue2 := issue_high_fault rest.withImpl (junk (0 + 1 + 1)) hfp2 hmem hmf hhi hsize
        (by rw [horig2]; exact hhigh.1) (by rw [horig2, hscr2.permits]; exact hhigh.2)
      rw [horig2, hscr2.pageFault] at hissue2
      simp only [hissue2]
      exact faultedAt_high hsize hhigh.1 hhigh.2
  · have hissue1 := issue_low_fault rest.withImpl (junk (0 + 1)) hfp1 hmem hmf hlo le_rfl
      (by rw [horig1, hscr1.permits]; exact hfirst)
    rw [horig1, hscr1.pageFault] at hissue1
    rw [visited_last (.inr ⟨_, hissue1⟩)]
    simp only [hissue1]
    refine ⟨?_, c1, hscr1, fun hok => absurd ((permitted_iff hsize).1 hok).1 hfirst, fun _ => ?_⟩
    · rw [htouch1, reached, chunks, if_pos hld, upTo, permits_chunk, if_neg hfirst]
    exact faultedAt_low hfirst

/-! ### Stores -/

/-- Memory of one kind has changed, and marks on pages. -/
structure MemOnly (internal : Bool) (c c' : SeqCore) : Prop where
  same : c' = { c with
    ctx := { c.ctx with hostBytes := c'.ctx.hostBytes }
    space := { c.space with bytes := c'.space.bytes, dirtymap := c'.space.dirtymap } }
  other : c'.mem (!internal) = c.mem (!internal)

namespace MemOnly

variable {internal : Bool} {c c' c'' : SeqCore}

theorem refl (internal : Bool) (c : SeqCore) : MemOnly internal c c := ⟨rfl, rfl⟩

theorem trans (h : MemOnly internal c c') (h' : MemOnly internal c' c'') : MemOnly internal c c'' := by
  refine ⟨?_, h'.other.trans h.other⟩
  have hsame := h'.same
  rw [h.same] at hsame
  exact hsame

theorem arf (h : MemOnly internal c c') : c'.arf = c.arf := by rw [h.same]
theorem arflags (h : MemOnly internal c c') : c'.arflags = c.arflags := by rw [h.same]

theorem ready (h : MemOnly internal c c') (hc : c.Ready) : c'.Ready := by
  refine ⟨?_, ?_, ?_, ?_⟩
  · rw [h.arf, hc.zero]
  · rw [h.arf, hc.trace]
  · rw [h.arflags, hc.zeroFlags]
  · rw [h.arf, h.arflags, hc.flags]

theorem fp (h : MemOnly internal c c') (op : TransOp) : c'.fpUnavailable op = c.fpUnavailable op := by
  rw [h.same]
  rfl

theorem origaddr (h : MemOnly internal c c') (op : TransOp) : c'.origaddr op = c.origaddr op := by
  rw [h.same]
  rfl

theorem permits (h : MemOnly internal c c') (i store : Bool) (x : ℕ) :
    c'.permits i store x = c.permits i store x := by
  rw [h.same]
  rfl

theorem rcdata (h : MemOnly internal c c') (op : TransOp) : c'.rcdata op = c.rcdata op := by
  rw [h.same]
  rfl

/-- Stores to guest memory leave the page faults as they are. -/
theorem pageFault (h : MemOnly false c c') (store : Bool) (x : ℕ) : c'.pageFault store x = c.pageFault store x := by
  have hhost : c'.ctx.hostBytes = c.ctx.hostBytes := h.other
  rw [h.same, hhost]
  rfl

end MemOnly

/-- The commit of a store to a chunk. -/
theorem commitStore_place (c : SeqCore) {internal : Bool} {chunk : ℕ} (halign : 8 ∣ chunk) (sfr : Sfr)
    (hp : sfr.physaddr = some (place internal chunk)) :
    (c.commitStore sfr).mem internal = putChunk (c.mem internal) chunk sfr.data sfr.bytemask ∧
      MemOnly internal c (c.commitStore sfr) := by
  have hfloor : chunk / 8 * 8 = chunk := Nat.div_mul_cancel halign
  unfold commitStore
  split
  · rename_i hmask
    refine ⟨?_, .refl _ _⟩
    funext x
    unfold putChunk
    rw [hmask, if_neg (by simp)]
  · rw [hp]
    unfold storemask place
    cases internal with
    | false =>
      refine ⟨?_, rfl, rfl⟩
      show (c.space.storemask (chunk / 8 * 8) sfr.data sfr.bytemask).bytes = _
      rw [hfloor]
      rfl
    | true =>
      refine ⟨?_, rfl, rfl⟩
      show (fun x => if chunk / 8 * 8 ≤ x ∧ x < chunk / 8 * 8 + 8 ∧ _ then _ else _) = _
      rw [hfloor]
      rfl

/-- The registers a split store leaves: all but `temp9`; and what it may change of memory. -/
structure Stored (c c' : SeqCore) (op : TransOp) : Prop where
  arf : ∀ r, r ≠ Reg.temp9 → c'.arf r = c.arf r
  arflags : ∀ r, r ≠ Reg.temp9 → c'.arflags r = c.arflags r
  ready : c'.Ready
  same : c' = { c with
    arf := c'.arf, arflags := c'.arflags
    ctx := { c.ctx with hostBytes := c'.ctx.hostBytes }
    space := { c.space with bytes := c'.space.bytes, dirtymap := c'.space.dirtymap } }
  other : c'.mem (!op.internal) = c.mem (!op.internal)

/-- A permitted half of a store. -/
theorem run_half {c1 : SeqCore} {o : TransOp} {a chunk : ℕ} (halign : 8 ∣ chunk)
    (hst : o.opcode = .opSt ∨ o.opcode = .opStA16) (hfp : c1.fpUnavailable o = false) (junk : Sfr)
    (hgen : c1.addrgen o = ⟨a, chunk, false, .ok (place o.internal chunk)⟩) (exec : Synthop) :
    ∃ reg sfr, c1.issue exec junk o = .completed reg sfr ∧ MemOnly o.internal c1 (c1.commitUop o reg sfr) ∧
      (c1.commitUop o reg sfr).mem o.internal = putChunk (c1.mem o.internal) chunk
        (storeBytes o.cond o.size a (c1.rcdata o)).2 (storeBytes o.cond o.size a (c1.rcdata o)).1 := by
  have hissue := issue_store exec junk hst hfp (congrArg AddrGen.result hgen)
  rw [hgen] at hissue
  refine ⟨_, _, hissue, ?_⟩
  unfold commitUop
  rw [if_pos hst]
  have hcommit := commitStore_place c1 halign { junk with
    data := (storeBytes o.cond o.size a (c1.rcdata o)).2, physaddr := some (place o.internal chunk),
    bytemask := (storeBytes o.cond o.size a (c1.rcdata o)).1 } rfl
  exact ⟨hcommit.2, hcommit.1⟩

/-- The high half of a store: annulled, or the bytes of the second chunk. -/
theorem run_high {c1 : SeqCore} {o : TransOp} (hcond : o.cond = LdstAlign.hi.cond) (hsize : o.size ≤ 3)
    (hst : o.opcode = .opSt ∨ o.opcode = .opStA16) (hfp : c1.fpUnavailable o = false) (junk : Sfr) (exec : Synthop)
    (hok : c1.origaddr o % 8 + 2 ^ o.size ≤ 8 ∨
      c1.permits o.internal (isstore o.opcode) ((floor8 (c1.origaddr o) + 8) % 2 ^ 64) = true) :
    ∃ reg sfr, c1.issue exec junk o = .completed reg sfr ∧ MemOnly o.internal c1 (c1.commitUop o reg sfr) ∧
      (c1.commitUop o reg sfr).mem o.internal =
        putChunk (c1.mem o.internal) ((floor8 (c1.origaddr o) + 8) % 2 ^ 64)
          (c1.rcdata o >>> (8 * (8 - c1.origaddr o % 8)))
          (BitVec.ofNat 8 ((2 ^ 2 ^ o.size - 1) >>> (8 - c1.origaddr o % 8))) := by
  have hgen := addrgen_high (c := c1) hcond hsize
  have hbytes : storeBytes o.cond o.size (c1.origaddr o) (c1.rcdata o) =
      (BitVec.ofNat 8 ((2 ^ 2 ^ o.size - 1) >>> (8 - c1.origaddr o % 8)),
        c1.rcdata o >>> (8 * (8 - c1.origaddr o % 8))) := if_pos hcond
  by_cases hin : c1.origaddr o % 8 + 2 ^ o.size ≤ 8
  · rw [if_pos hin] at hgen
    have hissue := issue_store exec junk hst hfp (congrArg AddrGen.result hgen)
    have hmask := maskRight_zero hin
    rw [hgen, hbytes] at hissue
    have hcommit : ∀ reg sfr, sfr.bytemask = 0 → c1.commitUop o reg sfr = c1 := by
      intro reg sfr h0
      unfold commitUop commitStore
      rw [if_pos hst, if_pos h0]
    refine ⟨_, _, hissue, ?_⟩
    rw [hcommit _ _ hmask]
    refine ⟨.refl _ _, ?_⟩
    funext x
    unfold putChunk
    rw [hmask, if_neg (by simp)]
  · rw [if_neg hin, translate_ok (hok.resolve_left hin)] at hgen
    have hannul : decide (c1.origaddr o % 8 + 2 ^ o.size ≤ 8) = false := decide_eq_false hin
    rw [hannul] at hgen
    have hrun := run_half (a := c1.origaddr o) (chunk_next _) hst hfp junk hgen exec
    rw [hbytes] at hrun
    exact hrun

/-- The low half of a store: the bytes up to the end of the first chunk. -/
theorem run_low {c2 : SeqCore} {o : TransOp} (hcond : o.cond = LdstAlign.lo.cond) (hsize : o.size ≤ 3)
    (hst : o.opcode = .opSt ∨ o.opcode = .opStA16) (hfp : c2.fpUnavailable o = false) (junk : Sfr) (exec : Synthop)
    (hok : c2.permits o.internal (isstore o.opcode) (c2.origaddr o) = true) :
    ∃ reg sfr, c2.issue exec junk o = .completed reg sfr ∧ MemOnly o.internal c2 (c2.commitUop o reg sfr) ∧
      (c2.commitUop o reg sfr).mem o.internal =
        putChunk (c2.mem o.internal) (floor8 (c2.origaddr o)) (c2.rcdata o <<< (8 * (c2.origaddr o % 8)))
          (BitVec.ofNat 8 ((2 ^ 2 ^ o.size - 1) <<< (c2.origaddr o % 8))) := by
  have hgen := addrgen_low (c := c2) hcond hsize
  have hchunk : floor8 (c2.origaddr o) / 8 = c2.origaddr o / 8 := by
    unfold floor8
    omega
  rw [translate_ok (by rwa [permits_congr hchunk])] at hgen
  have hbytes : storeBytes o.cond o.size (c2.origaddr o) (c2.rcdata o) =
      (BitVec.ofNat 8 ((2 ^ 2 ^ o.size - 1) <<< (c2.origaddr o % 8)),
        c2.rcdata o <<< (8 * (c2.origaddr o % 8))) := by
    have hnothi : ¬o.cond = LdstAlign.hi.cond := by rw [hcond]; decide
    unfold storeBytes
    rw [if_neg hnothi, if_pos (.inr hcond)]
    rfl
  have hrun := run_half (a := c2.origaddr o) (chunk_first _) hst hfp junk hgen exec
  rw [hbytes] at hrun
  exact hrun

/-- A byte that the high half of a store changes is one of the access, and it may be stored. -/
theorem high_half_changed (hsize : op.size ≤ 3) {m m' : ℕ → Byte} {v : W64}
    (hhigh : c.linear op % 8 + 2 ^ op.size ≤ 8 ∨
      c.permits op.internal true ((floor8 (c.linear op) + 8) % 2 ^ 64) = true)
    (hput : m' = putChunk m ((floor8 (c.linear op) + 8) % 2 ^ 64) (v >>> (8 * (8 - c.linear op % 8)))
      (BitVec.ofNat 8 ((2 ^ 2 ^ op.size - 1) >>> (8 - c.linear op % 8))))
    {x : ℕ} (hx : m' x ≠ m x) : ∃ i < 2 ^ op.size, x = byteAddr (c.linear op) i ∧
      c.permits op.internal true x = true ∧ m' x = byteAt v i := by
  have hpow : 2 ^ op.size ≤ 2 ^ 3 := Nat.pow_le_pow_right (by decide) hsize
  have hval := congrFun hput x
  rw [putChunk_high linear_lt hpow] at hval
  split at hval
  · rename_i hit
    obtain ⟨i, hi, hout, rfl⟩ := hit
    have hcross : ¬c.linear op % 8 + 2 ^ op.size ≤ 8 := by omega
    -- a byte the high half has put lies in the second chunk, which may be stored
    have hchunk : byteAddr (c.linear op) i / 8 = ((floor8 (c.linear op) + 8) % 2 ^ 64) / 8 := by
      rw [byteAddr_high linear_lt hout (by omega)]
      unfold floor8
      omega
    refine ⟨i, hi, rfl, ?_, hval.trans (storeBytewise_byte hi (by omega))⟩
    rw [permits_congr hchunk, hhigh.resolve_left hcross]
  · exact absurd hval hx

/-- A split store runs: byte by byte, or the page fault of one of the bytes, when only bytes
of the access that may be stored have been. -/
theorem run_split_store (h : c.Ready) (hfp : c.fpUnavailable op = false)
    (hst : op.opcode = .opSt ∨ op.opcode = .opStA16) (hsize : op.size ≤ 3) (hs : op.setflags = .none)
    (hrc : op.rc ≠ Reg.temp9) (junk : ℕ → Sfr) :
    visited rest.withImpl (splitUnaligned op) junk c = c.reached op ∧ ∃ c', c.Stored c' op ∧
      (c.Permitted op → run rest.withImpl (splitUnaligned op) junk c = .done c' ∧
        c'.mem op.internal =
          storeBytewise (c.linear op) (c.rcdata op) (c.mem op.internal) (2 ^ op.size)) ∧
      (¬c.Permitted op → c.FaultedAt op (run rest.withImpl (splitUnaligned op) junk c) c' ∧
        ∀ x, c'.mem op.internal x ≠ c.mem op.internal x → ∃ i < 2 ^ op.size, x = byteAddr (c.linear op) i ∧
          c.permits op.internal true x = true ∧ c'.mem op.internal x = byteAt (c.rcdata op) i) := by
  have hclass : isload op.opcode = false ∧ isstore op.opcode = true ∧ op.opcode ≠ .opMf := by
    rcases hst with h | h <;> rw [h] <;> decide
  have hmem : (isload op.opcode || isstore op.opcode) = true := by rw [hclass.2.1, Bool.or_true]
  have hld : ¬isload op.opcode = true := by rw [hclass.1]; exact Bool.false_ne_true
  obtain ⟨sfr, hag, hc1⟩ := run_splitAddr rest h hfp hs (junk 0)
  have hscr1 := (Scratched.refl h).setReg (.inr rfl) (c.radata op + c.rbdata op)
  have ht9 : (c.setReg Reg.temp9 (c.radata op + c.rbdata op)).arf Reg.temp9 = c.radata op + c.rbdata op :=
    setReg_arf_self _ _
  have hregs1 : ∀ r, r ≠ Reg.temp9 → (c.setReg Reg.temp9 (c.radata op + c.rbdata op)).arf r = c.arf r :=
    fun r hr => setReg_arf_of_ne _ hr
  have hflags1 : ∀ r, r ≠ Reg.temp9 → (c.setReg Reg.temp9 (c.radata op + c.rbdata op)).arflags r = c.arflags r :=
    fun r hr => Function.update_of_ne hr _ _
  generalize c.setReg Reg.temp9 (c.radata op + c.rbdata op) = c1 at hc1 hscr1 ht9 hregs1 hflags1
  have hrc1 : ∀ {o : TransOp}, o.rc = op.rc → o.rcimm = op.rcimm → c1.rcdata o = c.rcdata op := by
    intro o ho himm
    have hremap : remap op.rc ≠ Reg.temp9 := by
      unfold remap
      split
      · decide
      · exact hrc
    unfold rcdata
    rw [ho, himm, hregs1 _ hremap]
  have hstored : ∀ {c'}, MemOnly op.internal c1 c' → c.Stored c' op := by
    intro c' hm
    refine ⟨fun r hr => ?_, fun r hr => ?_, hm.ready hscr1.ready, ?_, hm.other.trans (hscr1.mem _)⟩
    · rw [hm.arf, hregs1 r hr]
    · rw [hm.arflags, hflags1 r hr]
    · rw [hm.same, hscr1.same]
  have hhi : (storeHigh op).cond = LdstAlign.hi.cond := rfl
  have hlo : (storeLow op).cond = LdstAlign.lo.cond := rfl
  have hnolo : LdstAlign.lo.cond ≠ LdstAlign.normal.cond := by decide
  have hnohi : LdstAlign.hi.cond ≠ LdstAlign.normal.cond := by decide
  have hpow : 2 ^ op.size ≤ 2 ^ 3 := Nat.pow_le_pow_right (by decide) hsize
  have horig1 : c1.origaddr (storeHigh op) = c.linear op :=
    origaddr_half hscr1.ctx ht9 rfl (hhi.symm ▸ hnohi) fun _ => ⟨rfl, rfl⟩
  have hlow1 : c1.origaddr (storeLow op) = c.linear op :=
    origaddr_half hscr1.ctx ht9 rfl (hlo.symm ▸ hnolo) fun _ => ⟨rfl, rfl⟩
  have hrch : c1.rcdata (storeHigh op) = c.rcdata op := hrc1 rfl rfl
  have hrcl : c1.rcdata (storeLow op) = c.rcdata op := hrc1 rfl rfl
  have hfp1 : c1.fpUnavailable (storeHigh op) = false := (hscr1.fp _).trans hfp
  have hmemhi : (isload (storeHigh op).opcode || isstore (storeHigh op).opcode) = true := hmem
  have hmemlo : (isload (storeLow op).opcode || isstore (storeLow op).opcode) = true := hmem
  have htouch1 := translated_high c op hmemhi hhi hsize rfl horig1
  rw [splitUnaligned_store hld, visited_cons hag, translated_addr, hc1]
  simp only [run, hag, hc1, Option.toList_none, List.nil_append]
  -- the halves run in this order: the high one first, so it alone decides whether anything is stored
  by_cases hhigh : c.linear op % 8 + 2 ^ op.size ≤ 8 ∨
      c.permits op.internal (isstore op.opcode) ((floor8 (c.linear op) + 8) % 2 ^ 64) = true
  · obtain ⟨reg2, sfr2, hissue1, hm1, hput1⟩ := run_high hhi hsize hst hfp1 (junk (0 + 1))
      rest.withImpl (by rw [horig1, hscr1.permits]; exact hhigh)
    rw [visited_cons hissue1]
    simp only [hissue1]
    rw [horig1, hscr1.mem, hrch] at hput1
    generalize c1.commitUop (storeHigh op) reg2 sfr2 = c2 at hm1 hput1
    have hperm2 : ∀ i store x, c2.permits i store x = c.permits i store x := fun i store x =>
      (hm1.permits i store x).trans (hscr1.permits i store x)
    have hfp2 : c2.fpUnavailable (storeLow op) = false := (hm1.fp _).trans ((hscr1.fp _).trans hfp)
    have horig2 : c2.origaddr (storeLow op) = c.linear op := (hm1.origaddr _).trans hlow1
    rw [visited_last (.inl rfl)]
    refine ⟨?_, ?_⟩
    · rw [htouch1, translated_low c op hmemlo hlo hsize horig2, reached, chunks, if_neg hld, highChunk]
      split
      · simp [upTo]
      · rename_i hcross
        rw [List.singleton_append, upTo, if_pos (hhigh.resolve_left hcross)]
        simp [upTo]
    by_cases hfirst : c.permits op.internal (isstore op.opcode) (c.linear op) = true
    · obtain ⟨reg3, sfr3, hissue2, hm2, hput2⟩ := run_low hlo hsize hst hfp2 (junk (0 + 1 + 1)) rest.withImpl
        (by rw [horig2, hperm2]; exact hfirst)
      simp only [hissue2]
      rw [horig2, hm1.rcdata, hrcl] at hput2
      refine ⟨_, hstored (hm1.trans hm2), fun _ => ⟨rfl, ?_⟩,
        fun hno => absurd ((permitted_iff hsize).2 ⟨hfirst, hhigh⟩) hno⟩
      refine hput2.trans ?_
      rw [show c2.mem (storeLow op).internal = _ from hput1]
      exact putChunk_halves linear_lt hpow _ _
    · -- the high half is stored already
      have hissue2 := issue_low_fault rest.withImpl (junk (0 + 1 + 1)) hfp2 hmem hclass.2.2 hlo hsize
        (by rw [horig2, hperm2]; exact hfirst)
      have hinternal : op.internal = false := by
        unfold permits at hfirst
        cases hi : op.internal with
        | false => rfl
        | true => exact absurd (by rw [hi]; rfl) hfirst
      have hguest : MemOnly false c1 c2 := hinternal ▸ hm1
      rw [horig2, hguest.pageFault, hscr1.pageFault] at hissue2
      simp only [hissue2]
      rw [hclass.2.1] at hhigh
      exact ⟨c2, hstored hm1, fun hok => absurd ((permitted_iff hsize).1 hok).1 hfirst, fun _ =>
        ⟨faultedAt_low hfirst, fun x hx => high_half_changed hsize hhigh hput1 hx⟩⟩
  · have hhigh' := not_or.1 hhigh
    have hissue1 := issue_high_fault rest.withImpl (junk (0 + 1)) hfp1 hmem hclass.2.2 hhi hsize
      (by rw [horig1]; exact hhigh'.1) (by rw [horig1, hscr1.permits]; exact hhigh'.2)
    rw [horig1, hscr1.pageFault] at hissue1
    rw [visited_last (.inr ⟨_, hissue1⟩)]
    simp only [hissue1]
    refine ⟨?_, c1, hstored (.refl _ _), fun hok => absurd ((permitted_iff hsize).1 hok).2 hhigh, fun _ =>
      ⟨faultedAt_high hsize hhigh'.1 hhigh'.2, fun x hx => ?_⟩⟩
    · rw [htouch1, reached, chunks, if_neg hld, highChunk, if_neg hhigh'.1, List.singleton_append, upTo,
        if_neg hhigh'.2]
    rw [hscr1.mem] at hx
    exact absurd rfl hx

/-- Where the pointer to the chunk at `x` goes to: it is taken for the sign-extended address,
which the permissions are not looked up for, and is null where that is on no page. -/
def HasMemory (c : SeqCore) (internal : Bool) (x : ℕ) : Prop :=
  internal = true ∨ c.space.pageVirtToMapped (floor8 (AddressSpace.signext48 (BitVec.ofNat 64 x)).toNat) ≠ none

instance (c : SeqCore) (internal : Bool) (x : ℕ) : Decidable (c.HasMemory internal x) :=
  inferInstanceAs (Decidable (_ ∨ _))

/-- A split access is the access byte by byte: it translates addresses in pages of its bytes
only, gets no null pointer, and faults just if one of its bytes may not be accessed, at such a byte. -/
structure SplitRight (rest : Synthop) (junk : ℕ → Sfr) (c : SeqCore) (op : TransOp) : Prop where
  pages : ∀ x ∈ visited rest.withImpl (splitUnaligned op) junk c, c.Touches op x
  memory : ∀ x ∈ visited rest.withImpl (splitUnaligned op) junk c,
    c.permits op.internal (isstore op.opcode) x = true → c.HasMemory op.internal x
  load : isload op.opcode = true → ∃ c', c.Scratched c' ∧
    (c.Permitted op →
      run rest.withImpl (splitUnaligned op) junk c = .done (c'.setReg op.rd (c.littleEndian op))) ∧
    (¬c.Permitted op → c.FaultedAt op (run rest.withImpl (splitUnaligned op) junk c) c')
  store : isload op.opcode = false → ∃ c', c.Stored c' op ∧
    (c.Permitted op → run rest.withImpl (splitUnaligned op) junk c = .done c' ∧
      c'.mem op.internal =
        storeBytewise (c.linear op) (c.rcdata op) (c.mem op.internal) (2 ^ op.size)) ∧
    (¬c.Permitted op → c.FaultedAt op (run rest.withImpl (splitUnaligned op) junk c) c' ∧
      ∀ x, c'.mem op.internal x ≠ c.mem op.internal x → ∃ i < 2 ^ op.size, x = byteAddr (c.linear op) i ∧
        c.permits op.internal true x = true ∧ c'.mem op.internal x = byteAt (c.rcdata op) i)

end Split

end SeqCore
end X86Sim.Seq
