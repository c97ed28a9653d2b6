import X86Sim.Decode.Access
import X86Sim.Lib.RingStack
import X86Sim.Uops.Bits
import X86Sim.X87.SaveState

/-!
# The x87 stack in uops (`decode-x87.cpp`)

The stack lives in eight words of the context that uops load and store internally. Its top
is `fptos`, eight times the number of a register, and its tags are the bits of `fptags` with
the same numbers. What is not the stack's is left to parameters: the words other loads
read, and the arithmetic.
-/

namespace X86Sim

open X86Sim.Seq X86Sim.Seq.SeqCore

def FP_STACK_MASK : W64 := 0x3f

/-- `addm` and `subm`: a sum or a difference under a mask. -/
def expMasked (f : W64 → W64 → W64) (op : TransOp) (i : UopInputs) : UopResult :=
  ⟨x86Merge op.size i.ra (f i.ra i.rb &&& i.rc), 0⟩

/-- The implementations, with those of the masked sums. -/
def Synthop.withMasked (rest : Synthop) : Synthop := fun op i =>
  match op.opcode with
  | .opAddm => expMasked (· + ·) op i
  | .opSubm => expMasked (· - ·) op i
  | _ => rest op i

/-- The implementations the stack needs. -/
def Synthop.withX87 (rest : Synthop) : Synthop := rest.withMasked.withBits.withImpl

/-- A core with the words of its context, by their addresses. -/
structure X87Core where
  core : SeqCore
  words : W64 → W64

/-- What a run of uops takes from elsewhere: the arithmetic, what other loads read, the results of the assists
(one for `st(0)`, one for its neighbour), and whether a copy to or from memory faults. -/
structure X87Env where
  rest : Synthop
  load : TransOp → X87Core → W64
  st0 : W64
  st1 : W64
  fault : Bool

namespace X87Core

variable (env : X87Env) (s : X87Core)

/-- A result is written, unless to the register that is zero. -/
def write (u : TransOp) (r : UopResult) : X87Core :=
  if u.rd = Reg.zero then s else { s with core := s.core.writeResult u r }

/-- The address a stack uop accesses. -/
def address (u : TransOp) : W64 := s.core.radata u + s.core.rbdata u

/-- One uop; the stack's own loads and stores are internal and go through `temp6`. -/
def step (u : TransOp) : X87Core :=
  if isload u.opcode then
    s.write u ⟨if u.internal && u.ra == Reg.temp6 then s.words (s.address u) else env.load u s, 0⟩
  else if isstore u.opcode then
    if u.internal && u.ra == Reg.temp6 then
      { s with words := Function.update s.words (s.address u) (s.core.rcdata u) }
    else s
  else s.write u (env.rest.withX87 u (s.core.inputs u))

def run (ops : List TransOp) : X87Core := ops.foldl (fun s u => step env s u) s

/-- The word of a register of the stack. -/
def slot (p : Fin 8) : W64 := s.core.arf Reg.fpstack + BitVec.ofNat 64 (8 * p.val)

def fpreg (p : Fin 8) : W64 := s.words (s.slot p)

/-- The stack: its top, and the registers tagged. -/
def stack : RingStack 8 where
  top := Fin.ofNat 8 ((s.core.arf Reg.fptos).toNat / 8)
  full p := (s.core.arf Reg.fptags).getLsbD (8 * p.val)

/-- The top is the offset of a register, and only bits of registers are tags. -/
structure Wf : Prop where
  fptos : s.core.arf Reg.fptos = BitVec.ofNat 64 (8 * s.stack.top.val)
  fptags : ∀ i, (s.core.arf Reg.fptags).getLsbD i = true → i % 8 = 0

end X87Core

/-! ### The macros -/

namespace TransOp

/-- `fptos` plus or minus something, in the ring. -/
def addTos (rd : Reg) (v : W64) : TransOp := .init .opAddm rd Reg.fptos Reg.imm Reg.imm 3 v FP_STACK_MASK .none
def subTos (rd : Reg) (v : W64) : TransOp := .init .opSubm rd Reg.fptos Reg.imm Reg.imm 3 v FP_STACK_MASK .none

/-- The tag at an offset is set or cleared. -/
def setTag (offset : Reg) : TransOp := .mk3 .opBts Reg.fptags Reg.fptags offset Reg.zero 3 0
def clearTag (offset : Reg) : TransOp := .mk3 .opBtr Reg.fptags Reg.fptags offset Reg.zero 3 0

end TransOp

/-- `x87_load_stack`. -/
def x87LoadStack (target offset : Reg) : List TransOp :=
  [.mk3 .opAdd Reg.temp6 Reg.fpstack offset Reg.zero 3 0,
    { TransOp.mk3 .opLd target Reg.temp6 Reg.imm Reg.zero 3 0 with internal := true }]

/-- `x87_store_stack`. -/
def x87StoreStack (offset data : Reg) : List TransOp :=
  [.mk3 .opAdd Reg.temp6 Reg.fpstack offset Reg.zero 3 0,
    { TransOp.mk3 .opSt Reg.mem Reg.temp6 Reg.imm data 3 0 with internal := true },
    .setTag offset]

/-- `x87_pop_stack`. -/
def x87PopStack : List TransOp := [.clearTag Reg.fptos, .addTos Reg.fptos 8]

/-- The push before a store. -/
def x87PushStack : List TransOp := [.subTos Reg.fptos 8]

/-! ### What the uops do to the stack -/

namespace X87Core

/-- A uop that leaves the stack and the registers of `keep`. -/
def quiet (keep : List Reg) (u : TransOp) : Bool :=
  !(isstore u.opcode && (u.internal && u.ra == Reg.temp6)) &&
    !([Reg.fptos, Reg.fptags, Reg.fpstack] ++ keep).contains u.rd

/-- A core with the stack `k`, which `s₀` had but for the registers `written`, and registers that hold offsets. -/
structure At (s₀ : X87Core) (k : RingStack 8) (written : List (Fin 8)) (offs : List (Reg × Fin 8)) (s : X87Core) :
    Prop where
  fptos : s.core.arf Reg.fptos = BitVec.ofNat 64 (8 * k.top.val)
  full : ∀ p, k.full p = (s.core.arf Reg.fptags).getLsbD (8 * p.val)
  fptags : ∀ i, (s.core.arf Reg.fptags).getLsbD i = true → i % 8 = 0
  base : s.core.arf Reg.fpstack = s₀.core.arf Reg.fpstack
  zero : s.core.arflags Reg.zero = 0
  words : ∀ p ∉ written, s.fpreg p = s₀.fpreg p
  offs : ∀ o ∈ offs, s.core.arf o.1 = BitVec.ofNat 64 (8 * o.2.val)

variable {env : X87Env} {s₀ s : X87Core} {k : RingStack 8} {written : List (Fin 8)} {offs : List (Reg × Fin 8)}

theorem top_ofNat : ∀ t : Fin 8, Fin.ofNat 8 ((BitVec.ofNat 64 (8 * t.val)).toNat / 8) = t := by decide

theorem At.stack (h : At s₀ k written offs s) : s.stack = k := by
  refine RingStack.ext ?_ (funext fun p => (h.full p).symm)
  show Fin.ofNat 8 ((s.core.arf Reg.fptos).toNat / 8) = k.top
  rw [h.fptos, top_ofNat]

theorem At.wf (h : At s₀ k written offs s) : s.Wf := ⟨by rw [h.stack, h.fptos], h.fptags⟩

theorem At.start (h : s.Wf) (hzero : s.core.arflags Reg.zero = 0) : At s s.stack [] [] s :=
  ⟨h.fptos, fun _ => rfl, h.fptags, rfl, hzero, fun _ _ => rfl, nofun⟩

theorem write_arf {u : TransOp} {r : Reg} (hr : r ≠ u.rd) (hf : r ≠ Reg.flags) (res : UopResult) :
    (s.write u res).core.arf r = s.core.arf r := by
  unfold write
  split
  · rfl
  · exact writeResult_arf hr hf

theorem write_arf_rd {u : TransOp} (hz : u.rd ≠ Reg.zero) (hf : u.rd ≠ Reg.flags) (res : UopResult) :
    (s.write u res).core.arf u.rd = res.rddata := by
  unfold write
  rw [if_neg hz]
  exact writeResult_arf_rd hf

theorem write_zero (u : TransOp) (res : UopResult) :
    (s.write u res).core.arflags Reg.zero = s.core.arflags Reg.zero := by
  unfold write
  split
  · rfl
  · rename_i hz
    exact writeResult_arflags (Ne.symm hz) (by decide)

@[simp] theorem write_words (u : TransOp) (res : UopResult) : (s.write u res).words = s.words := by
  unfold write
  split <;> rfl

theorem quiet_of {keep : List Reg} {u : TransOp} (hst : (isstore u.opcode && (u.internal && u.ra == Reg.temp6)) = false)
    (hrd : u.rd ∉ [Reg.fptos, Reg.fptags, Reg.fpstack] ++ keep) : quiet keep u = true := by
  unfold quiet
  rw [hst, List.contains_eq_mem, decide_eq_false hrd]
  rfl

/-- What a quiet uop leaves. -/
theorem step_quiet {keep : List Reg} {u : TransOp} (hu : quiet keep u = true) (s : X87Core) :
    (∀ r ∈ [Reg.fptos, Reg.fptags, Reg.fpstack] ++ keep, r ≠ Reg.flags → (step env s u).core.arf r = s.core.arf r) ∧
      (step env s u).core.arflags Reg.zero = s.core.arflags Reg.zero ∧ (step env s u).words = s.words := by
  unfold quiet at hu
  rw [Bool.and_eq_true, Bool.not_eq_true', Bool.not_eq_true', List.contains_eq_mem, decide_eq_false_iff_not] at hu
  obtain ⟨hst, hrd⟩ := hu
  have hwrite : ∀ res, (∀ r ∈ [Reg.fptos, Reg.fptags, Reg.fpstack] ++ keep, r ≠ Reg.flags →
      (s.write u res).core.arf r = s.core.arf r) ∧
      (s.write u res).core.arflags Reg.zero = s.core.arflags Reg.zero ∧ (s.write u res).words = s.words := fun res =>
    ⟨fun r hr hf => write_arf (fun heq => hrd (heq ▸ hr)) hf res, write_zero u res, write_words u res⟩
  unfold step
  split
  · exact hwrite _
  · split
    · rename_i hstore
      rw [hstore, Bool.true_and] at hst
      rw [hst]
      exact ⟨fun _ _ _ => rfl, rfl, rfl⟩
    · exact hwrite _

theorem run_append (s : X87Core) (ops ops' : List TransOp) : run env s (ops ++ ops') = run env (run env s ops) ops' :=
  List.foldl_append

/-- Fewer offsets. -/
theorem At.mono (h : At s₀ k written offs s) {offs' : List (Reg × Fin 8)} (hsub : offs' ⊆ offs) :
    At s₀ k written offs' s :=
  ⟨h.fptos, h.full, h.fptags, h.base, h.zero, h.words, fun o ho => h.offs o (hsub ho)⟩

/-- Quiet uops leave the stack, and the offsets not written. -/
theorem At.quiet (h : At s₀ k written offs s) (hflags : ∀ o ∈ offs, o.1 ≠ Reg.flags) {ops : List TransOp}
    (hops : ∀ u ∈ ops, X87Core.quiet (offs.map Prod.fst) u = true) : At s₀ k written offs (run env s ops) := by
  induction ops generalizing s with
  | nil => exact h
  | cons u ops ih =>
    obtain ⟨harf, hzero, hwords⟩ := @step_quiet env _ u (hops u List.mem_cons_self) s
    have hoff : ∀ o ∈ offs, o.1 ∈ [Reg.fptos, Reg.fptags, Reg.fpstack] ++ offs.map Prod.fst := fun o ho =>
      List.mem_append_right _ (List.mem_map_of_mem ho)
    refine ih ⟨?_, fun p => ?_, fun i => ?_, ?_, hzero.trans h.zero, fun p hp => ?_, fun o ho => ?_⟩
      fun v hv => hops v (List.mem_cons_of_mem _ hv)
    · rw [harf _ (by simp) (by decide), h.fptos]
    · rw [harf _ (by simp) (by decide), h.full]
    · rw [harf _ (by simp) (by decide)]
      exact h.fptags i
    · rw [harf _ (by simp) (by decide), h.base]
    · rw [← h.words p hp]
      unfold fpreg slot
      rw [hwords, harf _ (by simp) (by decide)]
    · rw [harf _ (hoff o ho) (hflags o ho), h.offs o ho]

theorem slot_inj : ∀ p q : Fin 8, BitVec.ofNat 64 (8 * p.val) = BitVec.ofNat 64 (8 * q.val) → p = q := by decide

theorem tos_add : ∀ t i : Fin 8, (BitVec.ofNat 64 (8 * t.val) + BitVec.ofNat 64 (8 * i.val)) &&& FP_STACK_MASK =
    BitVec.ofNat 64 (8 * (t + i).val) := by
  decide

theorem tos_sub : ∀ t : Fin 8, (BitVec.ofNat 64 (8 * t.val) - 8) &&& FP_STACK_MASK =
    BitVec.ofNat 64 (8 * (t + -1).val) := by
  decide

/-- A uop that is neither a load nor a store. -/
theorem step_alu {u : TransOp} (hld : isload u.opcode = false) (hst : isstore u.opcode = false) (s : X87Core) :
    step env s u = s.write u (env.rest.withX87 u (s.core.inputs u)) := by
  unfold step
  rw [hld, hst]
  rfl

/-- A store to the stack. -/
theorem step_stackStore {u : TransOp} (hld : isload u.opcode = false) (hst : isstore u.opcode = true)
    (hint : (u.internal && u.ra == Reg.temp6) = true) :
    step env s u = { s with words := Function.update s.words (s.address u) (s.core.rcdata u) } := by
  unfold step
  rw [hld, hst, hint]
  rfl

theorem step_addTos (rd : Reg) (v : W64) (s : X87Core) : step env s (.addTos rd v) =
    s.write (.addTos rd v) ⟨(s.core.arf Reg.fptos + v) &&& FP_STACK_MASK, 0⟩ := by
  have hclass : isload .opAddm = false ∧ isstore .opAddm = false := by decide
  have hremap : remap Reg.fptos = Reg.fptos := by decide
  rw [step_alu hclass.1 hclass.2]
  show s.write _ ⟨(s.core.arf (remap Reg.fptos) + v) &&& FP_STACK_MASK, 0⟩ = _
  rw [hremap]

theorem step_subTos (rd : Reg) (v : W64) (s : X87Core) : step env s (.subTos rd v) =
    s.write (.subTos rd v) ⟨(s.core.arf Reg.fptos - v) &&& FP_STACK_MASK, 0⟩ := by
  have hclass : isload .opSubm = false ∧ isstore .opSubm = false := by decide
  have hremap : remap Reg.fptos = Reg.fptos := by decide
  rw [step_alu hclass.1 hclass.2]
  show s.write _ ⟨(s.core.arf (remap Reg.fptos) - v) &&& FP_STACK_MASK, 0⟩ = _
  rw [hremap]

theorem offset_toNat : ∀ p : Fin 8, BitVec.toNat (BitVec.ofNat 64 (8 * p.val)) % 64 = 8 * p.val := by decide

/-- A tag is set or cleared: the bit at the offset. -/
theorem step_tag (set : Bool) {offset : Reg} (hoff : remap offset = offset) (himm : offset ≠ Reg.imm) {p : Fin 8}
    (hp : s.core.arf offset = BitVec.ofNat 64 (8 * p.val)) :
    ∃ r, step env s (if set then .setTag offset else .clearTag offset) =
      s.write (if set then .setTag offset else .clearTag offset) r ∧
      r.rddata = BitStrings.setBit (s.core.arf Reg.fptags) (8 * p.val) set := by
  have hclass : isload .opBts = false ∧ isstore .opBts = false ∧ isload .opBtr = false ∧ isstore .opBtr = false := by
    decide
  have hremap : remap Reg.fptags = Reg.fptags := by decide
  have hnum : BitVec.toNat (BitVec.ofNat 64 (8 * p.val)) % 64 = 8 * p.val := offset_toNat p
  have hrb : ∀ o, (if offset = Reg.imm then o else s.core.arf (remap offset)) = BitVec.ofNat 64 (8 * p.val) := fun o => by
    rw [if_neg himm, hoff, hp]
  cases set with
  | true =>
    refine ⟨_, step_alu hclass.1 hclass.2.1 s, ?_⟩
    show ((s.core.arf (remap Reg.fptags)).setWidth 64 ||| BitVec.twoPow 64 (((if offset = Reg.imm then (0 : W64) else
      s.core.arf (remap offset)).setWidth 64).toNat % 64)).setWidth 64 = _
    rw [hrb, hremap, BitVec.setWidth_eq, BitVec.setWidth_eq, BitVec.setWidth_eq, hnum, BitStrings.or_twoPow]
  | false =>
    refine ⟨_, step_alu hclass.2.2.1 hclass.2.2.2 s, ?_⟩
    show ((s.core.arf (remap Reg.fptags)).setWidth 64 &&& ~~~BitVec.twoPow 64 (((if offset = Reg.imm then (0 : W64) else
      s.core.arf (remap offset)).setWidth 64).toNat % 64)).setWidth 64 = _
    rw [hrb, hremap, BitVec.setWidth_eq, BitVec.setWidth_eq, BitVec.setWidth_eq, hnum, BitStrings.and_not_twoPow]

/-- An offset in a register of its own. -/
theorem At.addTos (h : At s₀ k written offs s) {rd : Reg}
    (hrd : rd ∉ [Reg.fptos, Reg.fptags, Reg.fpstack, Reg.zero, Reg.flags]) (i : Fin 8) :
    At s₀ k written [(rd, k.reg i)] (run env s [.addTos rd (BitVec.ofNat 64 (8 * i.val))]) := by
  simp only [List.mem_cons, List.not_mem_nil, or_false, not_or] at hrd
  have hquiet : ∀ u ∈ [TransOp.addTos rd (BitVec.ofNat 64 (8 * i.val))], X87Core.quiet [] u = true := by
    intro u hu
    rw [List.mem_singleton.1 hu]
    refine quiet_of (Bool.and_false _) ?_
    show rd ∉ [Reg.fptos, Reg.fptags, Reg.fpstack]
    simp [hrd.1, hrd.2.1, hrd.2.2.1]
  have h' := @At.quiet env _ _ _ _ _ (h.mono (List.nil_subset _)) nofun _ hquiet
  refine ⟨h'.fptos, h'.full, h'.fptags, h'.base, h'.zero, h'.words, fun o ho => ?_⟩
  rw [List.mem_singleton.1 ho]
  show (step env s (.addTos rd _)).core.arf (TransOp.addTos rd (BitVec.ofNat 64 (8 * i.val))).rd = _
  rw [step_addTos, write_arf_rd hrd.2.2.2.1 hrd.2.2.2.2, h.fptos]
  exact tos_add k.top i

/-- The top is moved. -/
theorem At.turn (h : At s₀ k written offs s) {u : TransOp} (hu : u.rd = Reg.fptos) {i : Fin 8} {r : UopResult}
    (hstep : step env s u = s.write u r) (hr : r.rddata = BitVec.ofNat 64 (8 * (k.top + i).val)) :
    At s₀ (k.turn i) written [] (run env s [u]) := by
  have hrun : run env s [u] = s.write u r := hstep
  have hkept : ∀ q : Reg, q ≠ Reg.fptos → q ≠ Reg.flags → (s.write u r).core.arf q = s.core.arf q := fun q hq hf =>
    write_arf (by rw [hu]; exact hq) hf r
  rw [hrun]
  refine ⟨?_, fun p => ?_, fun j => ?_, ?_, (write_zero u r).trans h.zero, fun p hp => ?_, nofun⟩
  · have hrd : (s.write u r).core.arf u.rd = r.rddata := write_arf_rd (by rw [hu]; decide) (by rw [hu]; decide) r
    rw [hu] at hrd
    exact hrd.trans hr
  · rw [hkept _ (by decide) (by decide)]
    exact h.full p
  · rw [hkept _ (by decide) (by decide)]
    exact h.fptags j
  · rw [hkept _ (by decide) (by decide), h.base]
  · rw [← h.words p hp]
    unfold fpreg slot
    rw [write_words, hkept _ (by decide) (by decide)]

/-- A register is tagged, or freed. -/
theorem At.tag (h : At s₀ k written offs s) (hflags : ∀ o ∈ offs, o.1 ≠ Reg.flags ∧ o.1 ≠ Reg.fptags) (set : Bool)
    {offset : Reg} (hoff : remap offset = offset) (himm : offset ≠ Reg.imm) {i : Fin 8}
    (hp : s.core.arf offset = BitVec.ofNat 64 (8 * (k.reg i).val)) :
    At s₀ (if set then k.mark i else k.free i) written offs
      (run env s [if set then .setTag offset else .clearTag offset]) := by
  obtain ⟨r, hstep, hr⟩ := @step_tag env s set offset hoff himm (k.reg i) hp
  generalize hu : (if set then TransOp.setTag offset else .clearTag offset) = u at hstep ⊢
  have hrd : u.rd = Reg.fptags := by
    rw [← hu]
    cases set <;> rfl
  have hrun : run env s [u] = s.write u r := hstep
  have hkept : ∀ q : Reg, q ≠ Reg.fptags → q ≠ Reg.flags → (s.write u r).core.arf q = s.core.arf q := fun q hq hf =>
    write_arf (by rw [hrd]; exact hq) hf r
  have hwrote : (s.write u r).core.arf Reg.fptags = BitStrings.setBit (s.core.arf Reg.fptags) (8 * (k.reg i).val) set := by
    have hw : (s.write u r).core.arf u.rd = r.rddata := write_arf_rd (by rw [hrd]; decide) (by rw [hrd]; decide) r
    rw [hrd] at hw
    exact hw.trans hr
  have hlt : 8 * (k.reg i).val < 64 := by
    have hp := (k.reg i).isLt
    omega
  -- the tag of a register is the low bit of its byte in the word
  have hfull : (if set then k.mark i else k.free i).full = Function.update k.full (k.reg i) set := by
    cases set <;> rfl
  have htop : (if set then k.mark i else k.free i).top = k.top := by
    cases set <;> rfl
  rw [hrun]
  constructor
  case fptos => rw [hkept _ (by decide) (by decide), h.fptos, htop]
  case full =>
    intro p
    rw [hwrote, BitStrings.getLsbD_setBit hlt, hfull]
    by_cases heq : p = k.reg i
    · rw [heq, Function.update_self, if_pos rfl]
    · have hne : 8 * p.val ≠ 8 * (k.reg i).val := fun h => heq (Fin.ext (by omega))
      rw [Function.update_of_ne heq, if_neg hne]
      exact h.full p
  case fptags =>
    intro j hj
    rw [hwrote, BitStrings.getLsbD_setBit hlt] at hj
    split at hj
    · omega
    · exact h.fptags j hj
  case base => rw [hkept _ (by decide) (by decide), h.base]
  case zero => exact (write_zero u r).trans h.zero
  case words =>
    intro p hp
    rw [← h.words p hp]
    unfold fpreg slot
    rw [write_words, hkept _ (by decide) (by decide)]
  case offs =>
    intro o ho
    rw [hkept _ (hflags o ho).2 (hflags o ho).1, h.offs o ho]

/-- The address of a register of the stack. -/
theorem add_rddata (rest : Synthop) (rd ra rb rc : Reg) (imm : W64) (i : UopInputs) (hc : i.rcflags = 0) :
    (rest.withImpl (.mk3 .opAdd rd ra rb rc 3 imm) i).rddata = i.ra + i.rb := by
  obtain ⟨f, himpl, hf⟩ := @implements_add (.mk3 .opAdd rd ra rb rc 3 imm) rfl (Nat.le_refl 3)
  have hdata := (hf i).1
  have hexec : rest.withImpl (.mk3 .opAdd rd ra rb rc 3 imm) i = f i := by
    unfold Synthop.withImpl
    rw [himpl]
  rw [hexec, hdata, hc]
  show (((i.ra.setWidth 64) + (i.rb.setWidth 64) + 0).setWidth 64) = _
  rw [BitVec.setWidth_eq, BitVec.setWidth_eq, BitVec.setWidth_eq]
  exact BitVec.add_zero _

/-- **A register of the stack is stored**: it is tagged, and alone written. -/
theorem At.store (h : At s₀ k written offs s)
    (hkeep : ∀ o ∈ offs, o.1 ∉ [Reg.flags, Reg.fptags, Reg.temp6]) {offset data : Reg}
    (hoff : remap offset = offset) (hne : offset ∉ [Reg.imm, Reg.temp6, Reg.flags]) {i : Fin 8}
    (hp : s.core.arf offset = BitVec.ofNat 64 (8 * (k.reg i).val)) :
    At s₀ (k.mark i) (k.reg i :: written) offs (run env s (x87StoreStack offset data)) := by
  simp only [List.mem_cons, List.not_mem_nil, or_false, not_or] at hkeep hne
  obtain ⟨uadd, huadd⟩ : ∃ u : TransOp, u = .mk3 .opAdd Reg.temp6 Reg.fpstack offset Reg.zero 3 0 := ⟨_, rfl⟩
  have hremap : remap Reg.fpstack = Reg.fpstack ∧ remap Reg.zero = Reg.zero ∧ remap Reg.temp6 = Reg.temp6 := by decide
  have hclass : isload .opAdd = false ∧ isstore .opAdd = false ∧ isload .opSt = false ∧ isstore .opSt = true := by decide
  -- the address
  have hquiet : ∀ u ∈ [uadd], X87Core.quiet (offs.map Prod.fst) u = true := by
    intro u hu
    rw [List.mem_singleton.1 hu, huadd]
    refine quiet_of (Bool.and_false _) fun hmem => ?_
    rcases List.mem_append.1 hmem with hmem | hmem
    · revert hmem
      show Reg.temp6 ∉ [Reg.fptos, Reg.fptags, Reg.fpstack]
      decide
    · obtain ⟨o, ho, heq⟩ := List.mem_map.1 hmem
      exact (hkeep o ho).2.2 heq
  have h₁ := @At.quiet env _ _ _ _ _ h (fun o ho => (hkeep o ho).1) _ hquiet
  have hstep : run env s [uadd] = s.write uadd (env.rest.withX87 uadd (s.core.inputs uadd)) := by
    rw [huadd]
    exact step_alu hclass.1 hclass.2.1 s
  obtain ⟨s₁, hs₁⟩ : ∃ s₁, s₁ = run env s [uadd] := ⟨_, rfl⟩
  rw [← hs₁] at h₁
  have hrd : uadd.rd = Reg.temp6 := by
    rw [huadd]
    rfl
  have haddr : s₁.core.arf Reg.temp6 = s₀.slot (k.reg i) := by
    have hw : (run env s [uadd]).core.arf uadd.rd = (env.rest.withX87 uadd (s.core.inputs uadd)).rddata := by
      rw [hstep]
      exact write_arf_rd (by rw [hrd]; decide) (by rw [hrd]; decide) _
    rw [hrd, ← hs₁] at hw
    rw [hw, huadd]
    refine (add_rddata _ _ _ _ _ _ _ ?_).trans ?_
    · show s.core.arflags (remap Reg.zero) = 0
      rw [hremap.2.1, h.zero]
    · show s.core.arf (remap Reg.fpstack) + (if offset = Reg.imm then 0 else s.core.arf (remap offset)) = _
      rw [hremap.1, if_neg hne.1, hoff, hp, h.base]
      rfl
  have hp₁ : s₁.core.arf offset = BitVec.ofNat 64 (8 * (k.reg i).val) := by
    rw [hs₁, hstep, write_arf (by rw [hrd]; exact hne.2.1) hne.2.2, hp]
  -- the store
  obtain ⟨ust, hust⟩ : ∃ u : TransOp,
      u = { TransOp.mk3 .opSt Reg.mem Reg.temp6 Reg.imm data 3 0 with internal := true } := ⟨_, rfl⟩
  have hstore : step env s₁ ust =
      { s₁ with words := Function.update s₁.words (s₀.slot (k.reg i)) (s₁.core.rcdata ust) } := by
    have hsum : s₁.address ust = s₀.slot (k.reg i) := by
      rw [hust]
      show s₁.core.arf (remap Reg.temp6) + 0 = _
      rw [hremap.2.2, haddr]
      exact BitVec.add_zero _
    rw [← hsum]
    refine step_stackStore ?_ ?_ ?_
    · rw [hust]
      exact hclass.2.2.1
    · rw [hust]
      exact hclass.2.2.2
    · rw [hust]
      rfl
  obtain ⟨s₂, hs₂⟩ : ∃ s₂, s₂ = step env s₁ ust := ⟨_, rfl⟩
  rw [← hs₂] at hstore
  have h₂ : At s₀ k (k.reg i :: written) offs s₂ := by
    rw [hstore]
    refine ⟨h₁.fptos, h₁.full, h₁.fptags, h₁.base, h₁.zero, fun p hp' => ?_, h₁.offs⟩
    rw [List.mem_cons, not_or] at hp'
    have hslot : s₁.slot p ≠ s₀.slot (k.reg i) := by
      unfold slot
      rw [h₁.base]
      intro heq
      exact hp'.1 (slot_inj _ _ ((BitVec.add_right_inj _).1 heq))
    rw [← h₁.words p hp'.2]
    exact Function.update_of_ne hslot _ _
  -- the tag
  have hp₂ : s₂.core.arf offset = BitVec.ofNat 64 (8 * (k.reg i).val) := by
    rw [hstore]
    exact hp₁
  have h₃ := @At.tag env _ _ _ _ _ h₂ (fun o ho => ⟨(hkeep o ho).1, (hkeep o ho).2.1⟩) true _ hoff hne.1 _ hp₂
  have hrun : run env s (x87StoreStack offset data) = run env s₂ [.setTag offset] := by
    rw [hs₂, hs₁, huadd, hust]
    rfl
  rw [hrun]
  exact h₃

/-- A push, before its store. -/
theorem At.push (h : At s₀ k written offs s) : At s₀ (k.turn (-1)) written [] (run env s x87PushStack) :=
  @At.turn env _ _ _ _ _ h _ rfl _ _ (step_subTos _ _ _) (by rw [h.fptos]; exact tos_sub k.top)

/-- **A pop.** -/
theorem At.pop (h : At s₀ k written offs s) : At s₀ k.pop written [] (run env s x87PopStack) := by
  have hreg : k.reg 0 = k.top := add_zero k.top
  have hremap : remap Reg.fptos = Reg.fptos := by decide
  have h₁ := @At.tag env _ _ _ _ _ (h.mono (List.nil_subset _)) nofun false Reg.fptos hremap (by decide) 0
    (by rw [h.fptos, hreg])
  refine @At.turn env _ _ _ _ _ h₁ (.addTos Reg.fptos 8) rfl 1 _ (step_addTos _ _ _) ?_
  rw [h₁.fptos]
  exact tos_add k.top 1

end X87Core

end X86Sim
