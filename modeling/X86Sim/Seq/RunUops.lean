import X86Sim.Seq.Faults
import X86Sim.UopImpl

/-!
# Lists of uops

A list of uops run on a core in order, by the issue and the commit of the sequential
core: what one uop of the ALU leaves, and what a register file always is between uops.
-/

namespace X86Sim

namespace Reg

def temp1 : Reg := 65
def temp2 : Reg := 66
def temp3 : Reg := 67
def temp5 : Reg := 69
def temp6 : Reg := 70
def temp7 : Reg := 71
def temp8 : Reg := 77
def trace : Reg := 54

end Reg

namespace Seq

/-- The registers that hold zero do, and the shadow of the flags is their low half. -/
structure SeqCore.Ready (c : SeqCore) : Prop where
  zero : c.arf Reg.zero = 0
  trace : c.arf Reg.trace = 0
  zeroFlags : c.arflags Reg.zero = 0
  flags : c.arflags Reg.flags = (c.arf Reg.flags).setWidth 16

namespace SeqCore

variable (c : SeqCore)

/-- Issue and commit of one uop that completes. -/
def runUop (exec : Synthop) (junk : Sfr) (op : TransOp) : Option SeqCore :=
  match c.issue exec junk op with
  | .completed reg sfr => some (c.commitUop op reg sfr)
  | _ => none

/-- A list of uops in order. -/
def runUops (exec : Synthop) (junk : Sfr) : List TransOp → SeqCore → Option SeqCore
  | [], c => some c
  | op :: ops, c => (c.runUop exec junk op).bind (runUops exec junk ops)

/-! ### The commit of a result -/

section Commit

variable {c} {op : TransOp} {reg : UopResult} {sfr : Sfr} {r : Reg}

theorem writeResult_arf (hrd : r ≠ op.rd) (hflags : r ≠ Reg.flags) :
    (c.writeResult op reg).arf r = c.arf r := by
  have harf : (c.setArf op.rd reg.rddata).arf r = c.arf r := Function.update_of_ne hrd _ _
  unfold writeResult
  dsimp only
  split
  · exact harf
  · rw [← harf]
    exact Function.update_of_ne hflags _ _

theorem writeResult_arf_rd (hrd : op.rd ≠ Reg.flags) : (c.writeResult op reg).arf op.rd = reg.rddata := by
  have harf : (c.setArf op.rd reg.rddata).arf op.rd = reg.rddata := Function.update_self _ _ _
  unfold writeResult
  dsimp only
  split
  · exact harf
  · exact (Function.update_of_ne hrd _ _).trans harf

theorem writeResult_flags (hrd : op.rd ≠ Reg.flags) (hno : op.nouserflags = false) :
    (c.writeResult op reg).arf Reg.flags =
      (c.arf Reg.flags &&& ~~~(setflagsToX86Flags op.setflags).setWidth 64) |||
        (reg.rdflags.setWidth 64 &&& (setflagsToX86Flags op.setflags).setWidth 64) := by
  unfold writeResult
  simp only [hno, Bool.false_eq_true, if_false, setArf, Function.update_self,
    Function.update_of_ne hrd.symm]

theorem writeResult_arflags_rd (hrd : op.rd ≠ Reg.flags) :
    (c.writeResult op reg).arflags op.rd = reg.rdflags := by
  unfold writeResult
  dsimp only
  split
  · exact Function.update_self _ _ _
  · exact (Function.update_of_ne hrd _ _).trans (Function.update_self _ _ _)

theorem writeResult_arflags (hrd : r ≠ op.rd) (hflags : r ≠ Reg.flags) :
    (c.writeResult op reg).arflags r = c.arflags r := by
  unfold writeResult
  dsimp only
  split
  · exact Function.update_of_ne hrd _ _
  · exact (Function.update_of_ne hflags _ _).trans (Function.update_of_ne hrd _ _)

@[simp] theorem commitStore_arf : (c.commitStore sfr).arf = c.arf := by
  unfold commitStore storemask
  split
  · rfl
  · dsimp only
    cases sfr.physaddr with
    | none => rfl
    | some p => cases p <;> rfl

@[simp] theorem writeResult_ctx : (c.writeResult op reg).ctx = c.ctx := by
  unfold writeResult; dsimp only; split <;> rfl

/-- The shadow of the flags stays their low half. -/
theorem Ready.writeResult (h : c.Ready) (hrd : op.rd ≠ Reg.flags) (hzero : op.rd ≠ Reg.zero)
    (htrace : op.rd ≠ Reg.trace) (hno : op.nouserflags = false) : (c.writeResult op reg).Ready := by
  have hzf : Reg.zero ≠ Reg.flags := by decide
  have htf : Reg.trace ≠ Reg.flags := by decide
  refine ⟨?_, ?_, ?_, ?_⟩
  · rw [writeResult_arf hzero.symm hzf, h.zero]
  · rw [writeResult_arf htrace.symm htf, h.trace]
  · rw [writeResult_arflags hzero.symm hzf, h.zeroFlags]
  · rw [writeResult_flags hrd hno]
    unfold SeqCore.writeResult
    simp only [hno, Bool.false_eq_true, if_false, setArf, Function.update_self,
      Function.update_of_ne hrd.symm]

/-- A core filled from a context is ready if the context's zero registers are. -/
theorem ready_externalToCoreState (c : SeqCore) (hzero : c.ctx.commitarf Reg.zero = 0)
    (htrace : c.ctx.commitarf Reg.trace = 0) : c.externalToCoreState.Ready := by
  refine ⟨hzero, htrace, rfl, rfl⟩

end Commit

/-! ### One uop of the ALU -/

/-- A uop of the ALU that reports no exception writes its result. -/
theorem runUop_result {c : SeqCore} {op : TransOp} {exec : Synthop} {result : UopResult} (junk : Sfr)
    (hexec : exec op (c.inputs op) = result) (hmem : isMem op = false) (hsse : op.isSse = false)
    (hx87 : op.isX87 = false) (hrd : op.rd ≠ Reg.zero) (hinv : result.rdflags &&& FLAG_INV = 0) :
    c.runUop exec junk op = some (c.writeResult op result) := by
  have hfp : c.fpUnavailable op = false := by simp [fpUnavailable, hsse, hx87]
  have hreports : c.reports exec op = 0 := by
    unfold reports
    rw [hexec, if_neg]
    rintro ⟨-, hne⟩
    exact hne hinv
  have hst : ¬(op.opcode = .opSt ∨ op.opcode = .opStA16) := by
    rintro (h | h) <;> rw [isMem, h] at hmem <;> exact absurd hmem (by decide)
  unfold runUop
  rw [issue_alu _ junk hfp hmem, if_pos hreports, hexec]
  simp only [commitUop, if_neg hst, hrd, ne_eq, not_false_eq_true, if_true]

theorem withImpl_eq {op : TransOp} {f : UopInputs → UopResult} (rest : Synthop) (himpl : uopImpl op = some f)
    (i : UopInputs) : rest.withImpl op i = f i := by
  unfold Synthop.withImpl
  rw [himpl]

/-- A uop of the ALU with an implementation `f` that reports no exception writes its result. -/
theorem runUop_impl {c : SeqCore} {op : TransOp} {f : UopInputs → UopResult} (rest : Synthop) (junk : Sfr)
    (himpl : uopImpl op = some f) (hmem : isMem op = false) (hsse : op.isSse = false)
    (hx87 : op.isX87 = false) (hrd : op.rd ≠ Reg.zero)
    (hinv : (f (c.inputs op)).rdflags &&& FLAG_INV = 0) :
    c.runUop rest.withImpl junk op = some (c.writeResult op (f (c.inputs op))) :=
  runUop_result junk (withImpl_eq rest himpl _) hmem hsse hx87 hrd hinv

theorem runUops_append (exec : Synthop) (junk : Sfr) (ops ops' : List TransOp) (c : SeqCore) :
    runUops exec junk (ops ++ ops') c = (runUops exec junk ops c).bind (runUops exec junk ops') := by
  induction ops generalizing c with
  | nil => rfl
  | cons op ops ih =>
    simp only [List.cons_append, runUops]
    cases c.runUop exec junk op with
    | none => rfl
    | some c => exact ih c

end SeqCore
end Seq
end X86Sim
