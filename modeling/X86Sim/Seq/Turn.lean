import X86Sim.Seq.Execute
import X86Sim.Mem.Protections

/-!
# One turn of the sequential core

What `Frame.step` can do, said once: stop, find modified code, raise, split, skip or
commit one uop. `Frame.Runs` is the turn that gets to the issue of its uop.
-/

namespace X86Sim.Seq

open AddressSpace

variable {exec : Synthop} {cfg : Config} {junk : Sfr} {f f' : Frame} {op : TransOp}

namespace Frame

/-- The turn takes `op`. -/
structure Takes (cfg : Config) (f : Frame) (op : TransOp) : Prop where
  go : f.core.arf Reg.rip ≠ cfg.stopAtRip
  next : f.nextOp = some op

/-- The turn takes `op` and finds no modified code. -/
structure Runs (cfg : Config) (f : Frame) (op : TransOp) : Prop extends Takes cfg f op where
  clean : (f.takeOp op).codeDirty = false

/-- The core as the issue of `op` sees it. -/
def issuing (f : Frame) (op : TransOp) : SeqCore := (f.takeOp op).core.setException 0

/-- What one turn does. -/
inductive Turn (exec : Synthop) (cfg : Config) (junk : Sfr) (f : Frame) :
    Option SeqExec → Frame → Prop
  | stop (h : f.core.arf Reg.rip = cfg.stopAtRip) : Turn exec cfg junk f (some .earlyExit) f
  | done (h : f.nextOp = none) : Turn exec cfg junk f (some .ok) f
  | smc {op : TransOp} (h : f.Takes cfg op) (hdirty : (f.takeOp op).codeDirty = true) :
      Turn exec cfg junk f (some .smc) (f.takeOp op).invalidateSmc
  | exception {op : TransOp} {ctx : Context} (h : f.Runs cfg op)
      (hi : (f.issuing op).issue exec junk op = .exception ctx) :
      Turn exec cfg junk f (some .exception)
        { f.takeOp op with core := (f.issuing op).raise ctx (f.takeOp op).savedFlags }
  | refetch {op : TransOp} (h : f.Runs cfg op)
      (hi : (f.issuing op).issue exec junk op = .refetch) :
      Turn exec cfg junk f none
        { f.takeOp op with core := f.issuing op, buf := splitUnaligned { op with unaligned := true } }
  | skip {op : TransOp} (h : f.Runs cfg op) (hi : (f.issuing op).issue exec junk op = .skip) :
      Turn exec cfg junk f (some .ok) { f.takeOp op with core := f.issuing op }.skipBlock
  | commit {op : TransOp} {reg : UopResult} {sfr : Sfr} (h : f.Runs cfg op)
      (hi : (f.issuing op).issue exec junk op = .completed reg sfr) :
      Turn exec cfg junk f none ({ f.takeOp op with core := f.issuing op }.commit op reg sfr)

/-- A turn does one of these. -/
theorem step_turn (exec : Synthop) (cfg : Config) (junk : Sfr) (f : Frame) :
    Turn exec cfg junk f (f.step exec cfg junk).1 (f.step exec cfg junk).2 := by
  unfold step
  split
  · rename_i h; exact .stop h
  · rename_i hgo
    cases hop : f.nextOp with
    | none => exact .done hop
    | some op =>
      dsimp only
      have ht : f.Takes cfg op := ⟨hgo, hop⟩
      split
      · rename_i hdirty; exact .smc ht hdirty
      · rename_i hclean
        have hr : f.Runs cfg op := ⟨ht, Bool.eq_false_iff.2 hclean⟩
        cases hi : (f.issuing op).issue exec junk op with
        | exception ctx => simp only [issuing] at hi; rw [hi]; exact .exception hr hi
        | refetch => simp only [issuing] at hi; rw [hi]; exact .refetch hr hi
        | skip => simp only [issuing] at hi; rw [hi]; exact .skip hr hi
        | completed reg sfr => simp only [issuing] at hi; rw [hi]; exact .commit hr hi

/-- A turn that runs its uop is decided by the issue. -/
theorem Runs.step_eq (h : f.Runs cfg op) : f.step exec cfg junk =
    match (f.issuing op).issue exec junk op with
    | .exception ctx => (some .exception,
        { f.takeOp op with core := (f.issuing op).raise ctx (f.takeOp op).savedFlags })
    | .refetch => (none, { f.takeOp op with
        core := f.issuing op, buf := splitUnaligned { op with unaligned := true } })
    | .skip => (some .ok, { f.takeOp op with core := f.issuing op }.skipBlock)
    | .completed reg sfr => (none, { f.takeOp op with core := f.issuing op }.commit op reg sfr) := by
  unfold step
  rw [if_neg h.go, h.next]
  simp only [h.clean, Bool.false_eq_true, if_false]
  rfl

/-! ### What the parts of a turn leave alone -/

@[simp] theorem takeOp_space (f : Frame) (op : TransOp) : (f.takeOp op).core.space = f.core.space := by
  unfold takeOp; dsimp only; split <;> rfl

@[simp] theorem takeOp_arf (f : Frame) (op : TransOp) : (f.takeOp op).core.arf = f.core.arf := by
  unfold takeOp; dsimp only; split <;> rfl

@[simp] theorem takeOp_arflags (f : Frame) (op : TransOp) :
    (f.takeOp op).core.arflags = f.core.arflags := by
  unfold takeOp; dsimp only; split <;> rfl

@[simp] theorem takeOp_ctx (f : Frame) (op : TransOp) : (f.takeOp op).core.ctx = f.core.ctx := by
  unfold takeOp; dsimp only; split <;> rfl

@[simp] theorem takeOp_bb (f : Frame) (op : TransOp) : (f.takeOp op).bb = f.bb := by
  unfold takeOp; dsimp only; split <;> rfl

@[simp] theorem takeOp_uopindex (f : Frame) (op : TransOp) : (f.takeOp op).uopindex = f.uopindex := by
  unfold takeOp; dsimp only; split <;> rfl

@[simp] theorem takeOp_userInsns (f : Frame) (op : TransOp) :
    (f.takeOp op).userInsns = f.userInsns := by
  unfold takeOp; dsimp only; split <;> rfl

@[simp] theorem takeOp_buf (f : Frame) (op : TransOp) : (f.takeOp op).buf = f.buf.tail := by
  unfold takeOp; dsimp only; split <;> rfl

@[simp] theorem issuing_space (f : Frame) (op : TransOp) : (f.issuing op).space = f.core.space := by
  simp [issuing, SeqCore.setException]

@[simp] theorem issuing_arf (f : Frame) (op : TransOp) : (f.issuing op).arf = f.core.arf := by
  simp [issuing, SeqCore.setException]

@[simp] theorem issuing_arflags (f : Frame) (op : TransOp) :
    (f.issuing op).arflags = f.core.arflags := by
  simp [issuing, SeqCore.setException]

/-- The exception of the last uop is forgotten. -/
theorem issuing_ctx (f : Frame) (op : TransOp) :
    (f.issuing op).ctx = { f.core.ctx with exception := 0 } := by
  simp [issuing, SeqCore.setException]

end Frame

namespace SeqCore

variable (c : SeqCore)

/-- The address an access translates, unless it is the unused high half of a split. -/
theorem addrgen_result (op : TransOp) : (c.addrgen op).result =
    if (c.addrgen op).annul then .ok (.host 0)
    else checkAndTranslate c.space (c.addrgen op).addr op.size (isstore op.opcode) op.internal := by
  unfold addrgen
  simp only [decide_eq_true_eq]

/-- The issue of a store whose address translates. -/
theorem issue_store {c : SeqCore} {p : PhysAddr} (exec : Synthop) (junk : Sfr)
    (hst : op.opcode = .opSt ∨ op.opcode = .opStA16) (hfp : c.fpUnavailable op = false)
    (hres : (c.addrgen op).result = .ok p) :
    let bytes := storeBytes op.cond op.size (c.addrgen op).origaddr (c.rcdata op)
    c.issue exec junk op = .completed ⟨bytes.2, 0⟩ { junk with
      data := bytes.2, physaddr := if (c.addrgen op).annul then none else some p, bytemask := bytes.1 } := by
  have hclass : isload op.opcode = false ∧ isstore op.opcode = true ∧ op.opcode ≠ .opMf := by
    rcases hst with h | h <;> rw [h] <;> decide
  obtain ⟨hld, hst, hmf⟩ := hclass
  unfold issue issuestore
  simp only [hfp, hld, hst, hmf, hres, Bool.false_eq_true, if_false, Bool.or_true, if_true]

@[simp] theorem setArf_space (r : Reg) (v : W64) : (c.setArf r v).space = c.space := rfl
@[simp] theorem nextRip_space (op : TransOp) (reg : UopResult) : (c.nextRip op reg).space = c.space := by
  unfold nextRip; split <;> rfl
@[simp] theorem writeResult_space (op : TransOp) (reg : UopResult) :
    (c.writeResult op reg).space = c.space := by
  unfold writeResult; dsimp only; split <;> rfl
@[simp] theorem coreToExternalState_space : c.coreToExternalState.space = c.space := rfl
@[simp] theorem countInsn_space : c.countInsn.space = c.space := rfl

end SeqCore

/-- The memory after a commit is the memory after the uop's own store. -/
theorem Frame.commit_space (f : Frame) (op : TransOp) (reg : UopResult) (sfr : Sfr) :
    (f.commit op reg sfr).core.space = (f.core.commitUop op reg sfr).space := by
  unfold Frame.commit
  dsimp only
  split <;> split <;> simp

end X86Sim.Seq
