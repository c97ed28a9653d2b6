import X86Sim.Decode.AluInsns
import X86Sim.X87.Decode

/-!
# The x87 stack and its reference machine

The reference machine is a top and tags: a push marks the new top, a pop frees the old one,
and what is written is marked. A run of instructions is compared with it at every position.
-/

namespace X86Sim

open X86Sim.Seq X86Sim.Seq.SeqCore StackEffect

namespace X87Enc

/-- The reference machine's effects. Encodings that are reserved have none; a copy that faults has no effect, and
neither has `fptan` or `fsincos` of a number out of range. -/
def reference (e : X87Enc) (fault inRange : Bool) : Option (List StackEffect) :=
  match e.esc, e.reg, e.isReg with
  -- arithmetic and comparisons with st(0) as destination
  | 0, 2, _ | 4, 2, false | 6, 2, false | 2, 2, false => some []
  | 0, 3, _ | 4, 3, false | 6, 3, false | 2, 3, false => some pop
  | 0, _, _ | 4, _, false | 6, _, false | 2, _, false => some [mark 0]
  -- with st(i)
  | 4, 2, true | 4, 3, true | 6, 2, true => none
  | 6, 3, true => if e.rm = 1 then some (pop ++ pop) else none
  | 4, _, true => some [mark e.rm]
  | 6, _, true => some (mark e.rm :: pop)
  | 1, 0, _ => some push
  | 1, 1, true => some [mark 0, mark e.rm]
  | 1, 2, true => if e.rm = 0 then some [] else none
  | 1, 2, false => some []
  | 1, 3, false => some pop
  | 1, 4, true =>
    match e.rm with
    | 0 | 1 => some [mark 0] | 4 | 5 => some [] | _ => none
  | 1, 5, true => if e.rm = 7 then none else some push
  | 1, 5, false | 1, 7, false => some []
  | 1, 6, true =>
    match e.rm with
    | 0 | 5 => some [mark 0] | 1 | 3 => some (mark 1 :: pop)
    | 2 => some (if inRange then mark 0 :: push else [])
    | 4 => some (mark 0 :: push) | 6 => some [turn (-1)] | 7 => some [turn 1]
  | 1, 7, true =>
    match e.rm with
    | 1 => some (mark 1 :: pop) | 3 => some (if inRange then mark 0 :: push else []) | _ => some [mark 0]
  | 2, 5, true => if e.rm = 1 then some (pop ++ pop) else none
  | 2, 4, true | 2, 6, true | 2, 7, true => none
  | 2, _, true => some [mark 0]
  | 3, 0, true | 3, 1, true | 3, 2, true | 3, 3, true => some [mark 0]
  | 3, 4, true =>
    match e.rm with
    | 2 => some [] | 3 => some [init] | _ => none
  | 3, 5, true | 3, 6, true => some []
  | 7, 5, true | 7, 6, true => some pop
  -- integers: fild, fisttp, fist and fistp
  | 3, 0, false | 7, 0, false | 7, 5, false => some push
  | 3, 1, false | 7, 1, false | 5, 1, false => some pop
  | 3, 2, false | 7, 2, false => some []
  | 3, 3, false | 7, 3, false | 7, 7, false => some (if fault then [] else pop)
  -- fld and fstp of 80 bits
  | 3, 5, false => some (if fault then [] else push)
  | 3, 7, false => some (if fault then [] else pop)
  | 5, 0, true => some [free e.rm]
  | 5, 0, false => some push
  | 5, 2, true => some [mark e.rm]
  | 5, 3, true => some (mark e.rm :: pop)
  | 5, 2, false => some []
  | 5, 3, false => some pop
  | 5, 4, true => some []
  | 5, 5, true => some pop
  | 5, 7, false => some []
  | 7, 0, true => some (free e.rm :: pop)
  | 7, 4, true => if e.rm = 0 then some [] else none
  | _, _, _ => none

end X87Enc

/-- What a stack has to be. -/
inductive StackCond
  | always | never | top0 | full (i : Fin 8) | empty (i : Fin 8) | emptyBoth (i : Fin 8)
  deriving DecidableEq

/-- Whether it is so. `emptyBoth i` is of the top and of `st(i)`. -/
def StackCond.holds (k : RingStack 8) : StackCond → Prop
  | always => True
  | never => False
  | top0 => k.top = 0
  | full i => k.full (k.reg i) = true
  | empty i => k.full (k.reg i) = false
  | emptyBoth i => k.full (k.reg 0) = false ∧ k.full (k.reg i) = false

namespace X87Enc

/-- What the stack has to be for the code to do as the reference machine does. -/
def cond (e : X87Enc) (fault inRange : Bool) : StackCond :=
  if e.reference fault inRange = none then .never else
  match e.esc, e.reg, e.isReg with
  -- the assists of the functions do not tag what they write
  | 1, 6, true =>
    match e.rm with
    | 0 | 4 | 5 => .full 0 | 1 | 3 => .full 1 | 2 => if inRange then .full 0 else .never | _ => .always
  | 1, 7, true =>
    match e.rm with
    | 1 => .full 1 | 2 => .always | 3 => if inRange then .full 0 else .never | _ => .full 0
  | 3, 4, true => if e.rm = 3 then .top0 else .always
  -- assist_x87_fist turns without freeing, and the forms of 16 bits pop by a field of the address
  | 3, 3, false | 7, 7, false => if fault then .always else .empty 0
  | 7, 1, false => if popByRm e.rm then .always else .never
  | 7, 2, false => if fault || !popByRm e.rm then .always else .never
  | 7, 3, false => if fault then .always else if popByRm e.rm then .empty 0 else .never
  -- ffree and ffreep are of st(0)
  | 5, 0, true => if e.rm = 0 then .always else .emptyBoth e.rm
  | 7, 0, true => if e.rm = 0 then .always else .empty e.rm
  | _, _, _ => .always

end X87Enc

/-! ### Code and reference, effect by effect -/

namespace StackEffect

/-- By how much the top is moved. -/
def net : List StackEffect → Fin 8
  | [] => 0
  | turn i :: es => net es + i
  | _ :: es => net es

/-- The shapes in which the code's effects differ from the reference machine's, by what they depend on. -/
def agree (code ref : List StackEffect) : StackCond → Bool
  | .always => code == ref || code == pop && ref == free 0 :: pop
  | .never => !code.contains init && !ref.contains init && net code != net ref
  | .top0 => code == [clear] && ref == [init]
  | .full i => code == write i :: code.tail && ref == mark i :: code.tail &&
      (code.tail == [] || i == 0 && code.tail == push || i == 1 && code.tail == pop)
  | .empty i => i == 0 && code == [turn 1] && ref == pop || i != 0 && code == pop && ref == free i :: pop
  | .emptyBoth i => i != 0 && code == [free 0] && ref == [free i]

variable {k : RingStack 8} {w : List (Fin 8)} {code ref : List StackEffect}

theorem top_runs {es : List StackEffect} (hes : es.contains init = false) (k : RingStack 8) :
    (runs es k).top = k.top + net es := by
  induction es generalizing k with
  | nil => exact (add_zero k.top).symm
  | cons e es ih =>
    rw [List.contains_cons, Bool.or_eq_false_iff, beq_eq_false_iff_ne] at hes
    have htail := ih hes.2 (e.run k)
    cases e with
    | turn i =>
      refine htail.trans ?_
      show k.top + i + net es = k.top + (net es + i)
      rw [add_assoc, add_comm i]
    | init => exact absurd rfl hes.1
    | _ => exact htail

theorem fin_add_ne {i : Fin 8} (hi : i ≠ 0) (k : RingStack 8) : k.reg i ≠ k.reg 0 := fun heq =>
  hi (add_left_cancel heq)

/-- An update at one register shows through updates at another. -/
theorem update_update_eq_iff {f : Fin 8 → Bool} {p q : Fin 8} (hne : p ≠ q) {b c : Bool} :
    Function.update f q c = Function.update (Function.update f p b) q c ↔ f p = b := by
  constructor
  · intro h
    have hp := congrFun h p
    rwa [Function.update_of_ne hne, Function.update_of_ne hne, Function.update_self] at hp
  · intro h
    rw [← h, Function.update_eq_self]

/-- **The two agree where the condition says**, and what the code writes is among what the reference writes. -/
theorem agree_iff {c : StackCond} (h : agree code ref c = true) (k : RingStack 8) :
    (runs code k = runs ref k ↔ c.holds k) ∧ (c.holds k → allWritten code k [] ⊆ allWritten ref k []) := by
  cases c with
  | always =>
    simp only [agree, Bool.and_eq_true, Bool.or_eq_true, beq_iff_eq] at h
    rcases h with rfl | ⟨rfl, rfl⟩
    · exact ⟨iff_of_true rfl trivial, fun _ => List.Subset.refl _⟩
    · have hidem : (Function.update (Function.update k.full (k.reg 0) false) (k.reg 0) false) =
          Function.update k.full (k.reg 0) false := Function.update_idem _ _ _
      exact ⟨iff_of_true (RingStack.ext rfl hidem.symm) trivial, fun _ => List.Subset.refl _⟩
  | never =>
    simp only [agree, Bool.and_eq_true, Bool.not_eq_true', bne_iff_ne] at h
    refine ⟨iff_of_false (fun heq => h.2 ?_) not_false, False.elim⟩
    -- the tops move by different amounts, whatever is on the stack
    have htop := congrArg RingStack.top heq
    rw [top_runs h.1.1, top_runs h.1.2] at htop
    exact add_left_cancel htop
  | top0 =>
    simp only [agree, Bool.and_eq_true, beq_iff_eq] at h
    rw [h.1, h.2]
    refine ⟨⟨fun heq => congrArg RingStack.top heq, fun htop => ?_⟩, fun _ => List.Subset.refl _⟩
    exact RingStack.ext htop rfl
  | full i =>
    simp only [agree, Bool.and_eq_true, Bool.or_eq_true, beq_iff_eq] at h
    obtain ⟨⟨hcode, href⟩, htail⟩ := h
    generalize code.tail = es at hcode href htail
    subst hcode href
    refine ⟨?_, fun hfull => ?_⟩
    · show runs es k = runs es (k.mark i) ↔ k.full (k.reg i) = true
      rcases htail with (rfl | ⟨rfl, rfl⟩) | ⟨rfl, rfl⟩
      · exact RingStack.mark_eq_iff
      · -- the extra mark is of a register the rest of the effects leaves alone
        have hne : k.reg 0 ≠ (k.turn (-1)).reg 0 := fun heq => by
          have h0 : k.top + 0 = k.top + (-1) + 0 := heq
          rw [add_assoc] at h0
          exact absurd (add_left_cancel h0) (by decide)
        rw [← update_update_eq_iff hne]
        exact ⟨fun heq => congrArg RingStack.full heq, fun heq => RingStack.ext rfl heq⟩
      · rw [← update_update_eq_iff (fin_add_ne (show (1 : Fin 8) ≠ 0 by decide) k)]
        exact ⟨fun heq => congrArg RingStack.full heq, fun heq => RingStack.ext rfl heq⟩
    · have heq : k.mark i = k := (RingStack.mark_eq_iff.2 hfull).symm
      show allWritten es k [k.reg i] ⊆ allWritten es (k.mark i) [k.reg i]
      rw [heq]
      exact List.Subset.refl _
  | empty i =>
    simp only [agree, Bool.and_eq_true, Bool.or_eq_true, beq_iff_eq, bne_iff_ne] at h
    rcases h with ⟨⟨rfl, rfl⟩, rfl⟩ | ⟨⟨hi, rfl⟩, rfl⟩
    · exact ⟨RingStack.turn_eq_pop_iff, fun _ => List.Subset.refl _⟩
    · refine ⟨?_, fun _ => List.Subset.refl _⟩
      show runs pop k = runs pop (k.free i) ↔ k.full (k.reg i) = false
      rw [← update_update_eq_iff (fin_add_ne hi k)]
      exact ⟨fun heq => congrArg RingStack.full heq, fun heq => RingStack.ext rfl heq⟩
  | emptyBoth i =>
    simp only [agree, Bool.and_eq_true, beq_iff_eq, bne_iff_ne] at h
    obtain ⟨⟨hi, rfl⟩, rfl⟩ := h
    refine ⟨⟨fun heq => ?_, fun ⟨h0, hi0⟩ => ?_⟩, fun _ => List.Subset.refl _⟩
    · have hfull : Function.update k.full (k.reg 0) false = Function.update k.full (k.reg i) false :=
        congrArg RingStack.full heq
      have hat0 := congrFun hfull (k.reg 0)
      have hati := congrFun hfull (k.reg i)
      rw [Function.update_self, Function.update_of_ne (fin_add_ne hi k).symm] at hat0
      rw [Function.update_self, Function.update_of_ne (fin_add_ne hi k)] at hati
      exact ⟨hat0.symm, hati⟩
    · exact (RingStack.free_eq_iff.2 h0).symm.trans (RingStack.free_eq_iff.2 hi0)

end StackEffect

namespace X87Enc

/-- Every encoding that is accepted agrees with the reference in one of these shapes, or has none. -/
def agrees (e : X87Enc) (fault inRange : Bool) : Bool :=
  match e.form, e.reference fault inRange with
  | some f, some es => agree (f.effects fault) es (e.cond fault inRange)
  | _, _ => true

theorem agrees_all : ∀ esc reg isReg rm fault inRange, agrees ⟨esc, reg, isReg, rm⟩ fault inRange = true := by
  decide +kernel

theorem form_ne_fist : ∀ esc reg isReg rm, (⟨esc, reg, isReg, rm⟩ : X87Enc).form ≠ some (.micro .x87Fist) := by
  decide +kernel

end X87Enc

/-! ### Runs -/

/-- An instruction that `decode_x87` accepts, with its place and what it takes from elsewhere. -/
structure X87Insn where
  enc : X87Enc
  form : X87Form
  accepted : enc.form = some form
  env : X87Env
  pfx : Prefixes
  rip : W64
  operand : X86Operand

namespace X87Insn

/-- Whether `fptan` and `fsincos` are defined at a double: unless it is a number of magnitude `2 ^ 63` or more. -/
def inRange (v : W64) : Bool :=
  let exponent := (v >>> 52 &&& 0x7ff).toNat
  exponent < 1023 + 63 || exponent == 2047

variable (table : W64) (const : Fin 8 → W64)

def exec (i : X87Insn) (s : X87Core) : X87Core := i.form.exec i.env i.pfx i.rip table const i.operand s

/-- The word in `st(0)`. -/
def st0InRange (s : X87Core) : Bool := inRange (s.fpreg (s.stack.reg 0))

/-- What the reference machine does. -/
def reference (i : X87Insn) (s : X87Core) : Option (List StackEffect) :=
  i.enc.reference i.env.fault (st0InRange s)

/-- What the stack has to be for an instruction to do the same. -/
def Cond (i : X87Insn) (s : X87Core) : Prop := (i.enc.cond i.env.fault (st0InRange s)).holds s.stack

/-- Some instructions in order. -/
def execAll (is : List X87Insn) (s : X87Core) : X87Core := is.foldl (fun s i => i.exec table const s) s

/-- A run whose stack is the reference machine's at every position, with nothing written but what that machine
writes. `k` is the stack of the reference machine. -/
def Tracks : List X87Insn → RingStack 8 → X87Core → Prop
  | [], k, s => s.stack = k
  | i :: is, k, s => s.stack = k ∧ ∃ es, i.reference s = some es ∧
      (∀ p ∉ allWritten es k [], (i.exec table const s).fpreg p = s.fpreg p) ∧
      Tracks is (runs es k) (i.exec table const s)

/-- A run whose instructions all find the stack as they need it. -/
def Meets : List X87Insn → X87Core → Prop
  | [], _ => True
  | i :: is, s => i.Cond s ∧ Meets is (i.exec table const s)

variable {table const} {i : X87Insn} {is : List X87Insn} {s : X87Core}

/-- What an instruction does to the stack. -/
theorem exec_at (i : X87Insn) (hs : s.Wf) (hzero : s.core.arflags Reg.zero = 0) :
    X87Core.At s (runs (i.form.effects i.env.fault) s.stack) (allWritten (i.form.effects i.env.fault) s.stack []) []
      (i.exec table const s) := by
  have hne : i.form ≠ .micro .x87Fist := fun heq =>
    X87Enc.form_ne_fist _ _ _ _ (i.accepted.trans (congrArg some heq))
  exact X87Form.exec_effects i.pfx i.rip table const i.operand i.form hne (.start hs hzero)

/-- **No instruction leaves the ring.** -/
theorem wf_execAll (is : List X87Insn) (hs : s.Wf) (hzero : s.core.arflags Reg.zero = 0) :
    (execAll table const is s).Wf := by
  induction is generalizing s with
  | nil => exact hs
  | cons i is ih =>
    have hat := @exec_at table const s i hs hzero
    exact ih hat.wf hat.zero

theorem Tracks.stack {k : RingStack 8} (h : Tracks table const is k s) : s.stack = k := by
  cases is with
  | nil => exact h
  | cons i is => exact h.1

/-- Without a reference nothing is met. -/
theorem not_cond_of_none (href : i.reference s = none) : ¬ i.Cond s := by
  have hnone : i.enc.reference i.env.fault (st0InRange s) = none := href
  unfold Cond X87Enc.cond
  rw [if_pos hnone]
  exact not_false

/-- What the code does is what the reference machine does, where the condition holds. -/
theorem agree_exec (i : X87Insn) {es : List StackEffect} (href : i.reference s = some es) :
    (runs (i.form.effects i.env.fault) s.stack = runs es s.stack ↔ i.Cond s) ∧
      (i.Cond s → allWritten (i.form.effects i.env.fault) s.stack [] ⊆ allWritten es s.stack []) := by
  have hagrees := X87Enc.agrees_all i.enc.esc i.enc.reg i.enc.isReg i.enc.rm i.env.fault (st0InRange s)
  have hform : (X87Enc.mk i.enc.esc i.enc.reg i.enc.isReg i.enc.rm).form = some i.form := i.accepted
  have href' : (X87Enc.mk i.enc.esc i.enc.reg i.enc.isReg i.enc.rm).reference i.env.fault (st0InRange s) = some es :=
    href
  unfold X87Enc.agrees at hagrees
  rw [hform, href'] at hagrees
  exact agree_iff hagrees s.stack

/-- One instruction, and then the rest of the run. -/
theorem tracks_cons_iff (hs : s.Wf) (hzero : s.core.arflags Reg.zero = 0) :
    Tracks table const (i :: is) s.stack s ↔
      i.Cond s ∧ Tracks table const is (i.exec table const s).stack (i.exec table const s) := by
  have hat := @exec_at table const s i hs hzero
  have hstack : (i.exec table const s).stack = runs (i.form.effects i.env.fault) s.stack := hat.stack
  constructor
  · rintro ⟨-, es, href, -, htail⟩
    have heq : runs (i.form.effects i.env.fault) s.stack = runs es s.stack := hstack.symm.trans htail.stack
    refine ⟨(agree_exec i href).1.1 heq, ?_⟩
    rwa [hstack, heq]
  · rintro ⟨hcond, htail⟩
    cases href : i.reference s with
    | none => exact absurd hcond (not_cond_of_none href)
    | some es =>
      obtain ⟨hiff, hwritten⟩ := agree_exec i href
      refine ⟨rfl, es, href, fun p hp => hat.words p fun hmem => hp (hwritten hcond hmem), ?_⟩
      rwa [← hiff.2 hcond, ← hstack]

theorem tracks_iff_meets (is : List X87Insn) (hs : s.Wf) (hzero : s.core.arflags Reg.zero = 0) :
    Tracks table const is s.stack s ↔ Meets table const is s := by
  induction is generalizing s with
  | nil => exact iff_of_true rfl trivial
  | cons i is ih =>
    have hat := @exec_at table const s i hs hzero
    rw [tracks_cons_iff hs hzero, ih hat.wf hat.zero]
    rfl

/-- **The x87 stack.** The top and the tags stay well formed, and a run does as the reference machine does at every
position iff each of its instructions finds the stack as it needs it. -/
theorem x87_stack_right_iff (table : W64) (const : Fin 8 → W64) (is : List X87Insn) (s : X87Core) (hs : s.Wf)
    (hzero : s.core.arflags Reg.zero = 0) :
    (∀ n, (execAll table const (is.take n) s).Wf) ∧ (Tracks table const is s.stack s ↔ Meets table const is s) :=
  ⟨fun n => wf_execAll (is.take n) hs hzero, tracks_iff_meets is hs hzero⟩

/-- A core with an empty stack, and instructions on registers. -/
def emptyCore : X87Core := ⟨AluInsn.core fun _ => 0, fun _ => 0⟩

def onRegs (esc reg rm : Fin 8) (form : X87Form) (h : (X87Enc.mk esc reg true rm).form = some form) : X87Insn :=
  ⟨⟨esc, reg, true, rm⟩, form, h, ⟨fun _ _ => ⟨0, 0⟩, fun _ _ => 0, 0, 0, false⟩, .plain, 0, ⟨.none, none, 0, 0⟩⟩

def fld1 : X87Insn := onRegs 1 5 0 (.fldConst 0) rfl
def faddp : X87Insn := onRegs 6 0 1 (.arith 6 0 true 1) rfl
def fninit : X87Insn := onRegs 3 4 3 (.micro .x87Finit) rfl

theorem wf_emptyCore : emptyCore.Wf ∧ emptyCore.core.arflags Reg.zero = 0 := by
  refine ⟨⟨by decide +kernel, fun i hi => ?_⟩, by decide +kernel⟩
  have htags : emptyCore.core.arf Reg.fptags = 0 := by decide +kernel
  rw [htags, BitVec.ofNat_eq_ofNat, BitVec.getLsbD_zero] at hi
  cases hi

/-- Two numbers are pushed and added. -/
theorem x87_stack_right_iff_faddp : Tracks 0 (fun _ => 0) [fld1, fld1, faddp] emptyCore.stack emptyCore :=
  (x87_stack_right_iff 0 (fun _ => 0) [fld1, fld1, faddp] emptyCore wf_emptyCore.1 wf_emptyCore.2).2.2
    ⟨trivial, trivial, trivial, trivial⟩

/-- `fninit` leaves the top where a push has put it. -/
theorem not_x87_stack_right : ¬ ∀ (table : W64) (const : Fin 8 → W64) (is : List X87Insn) (s : X87Core), s.Wf →
    s.core.arflags Reg.zero = 0 → Tracks table const is s.stack s := by
  intro h
  have htracks := h 0 (fun _ => 0) [fld1, fninit] emptyCore wf_emptyCore.1 wf_emptyCore.2
  have hmeets := (tracks_iff_meets _ wf_emptyCore.1 wf_emptyCore.2).1 htracks
  have hat := @exec_at 0 (fun _ => 0) emptyCore fld1 wf_emptyCore.1 wf_emptyCore.2
  have htop : (fld1.exec 0 (fun _ => 0) emptyCore).stack.top = 0 := hmeets.2.1
  rw [hat.stack] at htop
  exact absurd htop (by decide +kernel)

end X87Insn

end X86Sim
