import X86Sim.Decode.Access
import X86Sim.Uops.Branches

/-!
# Near control transfers (`decode-fast.cpp`)

Jumps, calls and returns. A call stores the address of the next instruction below the stack
and then moves the stack pointer; the last uop writes the instruction pointer.
-/

namespace X86Sim

open X86Sim.Seq X86Sim.Seq.SeqCore

def BRANCH_HINT_PUSH_RAS : ℕ := 1
def BRANCH_HINT_POP_RAS : ℕ := 2

namespace TransOp

/-- An unconditional branch. -/
def bru (target : W64) (hint : ℕ) : TransOp :=
  { mk3 .opBru Reg.rip Reg.zero Reg.zero Reg.zero 3 0 with extshift := hint, riptaken := target, ripseq := target }

/-- A branch on a condition. -/
def br (cond : Cond) (taken seq : W64) : TransOp :=
  { mk3 .opBr Reg.rip cond.flagRegs.1 cond.flagRegs.2 Reg.zero 3 0 with
    cond := cond.code, riptaken := taken, ripseq := seq }

/-- A branch to the address in a register. -/
def jmp (ra : Reg) (size hint : ℕ) : TransOp := { mk3 .opJmp Reg.rip ra Reg.zero Reg.zero size 0 with extshift := hint }

end TransOp

/-- The flags are gathered unless the last uop that set any set all. -/
def collectUnless (atomic : Bool) (rd : Reg) : List TransOp :=
  if atomic then [] else [.init .opCollcc rd Reg.zf Reg.cf Reg.of 3 0 0 .default]

/-- The address of the next instruction is pushed. -/
def pushRip (rip : W64) (t : Reg) : List TransOp :=
  [absCodeAddrImmediate t 3 rip, .mk3 .opSt Reg.mem Reg.rsp Reg.imm t 3 (-8),
    .mk3 .opSub Reg.rsp Reg.rsp Reg.imm Reg.zero 3 8]

/-- The near transfers: relative (0xe8, 0xe9, 0xeb), conditional (0x70, 0x180), through an operand of 32 or 64 bits
(0xff) and returns (0xc2, 0xc3). -/
inductive Transfer
  | rel (iscall : Bool) (disp : W64)
  | jcc (cond : Cond) (disp : W64)
  | ev (iscall : Bool) (ra : Operand) (wide : 2 ≤ ra.sizeshift)
  | ret (addend : W16)

namespace Transfer

/-- `iscall`. -/
def iscall : Transfer → Bool
  | rel iscall _ | ev iscall _ _ => iscall
  | _ => false

/-- There is no 32-bit jump address in 64-bit mode. -/
def jumpSize (size : ℕ) : ℕ := if size = 2 then 3 else size

/-- The uops of a transfer; `atomic` is `last_flags_update_was_atomic` and `rip` the decoder's, after the instruction. -/
def decode (insn : Transfer) (pfx : Prefixes) (atomic : Bool) (rip : W64) : List TransOp :=
  let hint := if insn.iscall then BRANCH_HINT_PUSH_RAS else 0
  let push (t : Reg) := if insn.iscall then pushRip rip t else []
  match insn with
  | rel _ disp => push Reg.temp0 ++ collectUnless atomic Reg.temp0 ++ [.bru (rip + disp) hint]
  | jcc cond disp => collectUnless atomic Reg.temp0 ++ [.br cond (rip + disp) rip]
  | ev _ ra _ =>
    collectUnless atomic Reg.temp0 ++
      match ra with
      | .reg r => push Reg.temp6 ++ [.jmp r.arch (jumpSize r.sizeshift) hint]
      | .mem o size => operandLoad pfx rip Reg.temp0 (o.memRef (jumpSize size)) .opLd ++ push Reg.temp6 ++
        [.jmp Reg.temp0 (jumpSize size) hint]
  | ret addend =>
    [.mk3 .opLd Reg.temp7 Reg.rsp Reg.imm Reg.zero 3 0,
      .mk3 .opAdd Reg.rsp Reg.rsp Reg.imm Reg.zero 3 (8 + addend.setWidth 64)] ++
    collectUnless atomic Reg.temp5 ++ [.jmp Reg.temp7 3 BRANCH_HINT_POP_RAS]

/-! ### What x86 says -/

variable (insn : Transfer) (pfx : Prefixes) (rip : W64) (c : SeqCore)

/-- The top of the stack. -/
def top (c : SeqCore) : ℕ := canonicalAddr (c.arf Reg.rsp)

/-- Where a call stores. -/
def below (c : SeqCore) : ℕ := canonicalAddr (c.arf Reg.rsp - 8)

/-- The next instruction pointer, of the registers and memory before. -/
def target : W64 :=
  match insn with
  | rel _ disp => rip + disp
  | jcc cond disp => if cond.holds fun i => (c.arf Reg.flags).getLsbD i then rip + disp else rip
  | ev _ (.reg r) _ => c.arf r.arch
  | ev _ (.mem o _) _ => (loadBytes c.space.bytes (Operand.effective pfx rip c o) 3).setWidth 64
  | ret _ => (loadBytes c.space.bytes (top c) 3).setWidth 64

/-- The next stack pointer. -/
def stack : W64 :=
  match insn with
  | ret addend => c.arf Reg.rsp + 8 + addend.setWidth 64
  | _ => if insn.iscall then c.arf Reg.rsp - 8 else c.arf Reg.rsp

/-- Where the target is loaded from. -/
def loaded : Option ℕ :=
  match insn with
  | ev _ (.mem o _) _ => some (Operand.effective pfx rip c o)
  | ret _ => some (top c)
  | _ => none

/-- What a transfer loads and stores may be. -/
structure Accessible : Prop where
  ctx : HostCtx c
  push : insn.iscall = true → X86Sim.Accessible c true (below c) 3
  load : ∀ a ∈ insn.loaded pfx rip c, X86Sim.Accessible c false a 3

/-- A transfer has done what x86 says. -/
structure Right (c' : SeqCore) : Prop where
  next : c'.arf Reg.rip = insn.target pfx rip c
  rsp : c'.arf Reg.rsp = insn.stack c
  flags : c'.arf Reg.flags = c.arf Reg.flags
  regs : ∀ r : Reg, r.isArch = true → r ∉ [Reg.flags, Reg.rip, Reg.rsp] → c'.arf r = c.arf r
  bytes : c'.space.bytes = if insn.iscall then storeBytewise (below c) rip c.space.bytes 8 else c.space.bytes

/-- With the flags in three groups: no status flag is changed, and a conditional jump tests each in its group. -/
def GroupsRight (exec : Synthop) (atomic : Bool) : Prop := ∀ g : FlagGroups,
  (∀ i ∈ [0, 2, 4, 6, 7, 11], (g.run exec (insn.decode pfx atomic rip) 0).2.flag i = g.flag i) ∧
  ∀ cond disp, insn = jcc cond disp →
    (g.run exec (insn.decode pfx atomic rip) 0).1 = if cond.holds g.flag then rip + disp else rip

/-- Where a transfer through memory has the uops load, there is the target. -/
def SameTarget : Prop :=
  match insn with
  | ev _ (.mem o _) _ => X86Sim.Accessible c false (Operand.address pfx c rip o) 3 ∧
    loadBytes c.space.bytes (Operand.address pfx c rip o) 3 = loadBytes c.space.bytes (Operand.effective pfx rip c o) 3
  | _ => True

/-- When a call does: if its return address is canonical and it is not through `rsp`. -/
def CallExact : Prop := insn.iscall = true → signext64 rip 48 = rip ∧
  ∀ r wide, insn = ev true (.reg r) wide → r.arch ≠ Reg.rsp

/-- When a transfer does. -/
def Exact : Prop := insn.SameTarget pfx rip c ∧ insn.CallExact rip

/-! ### Pieces -/

variable {insn pfx rip c} (rest : Synthop)

theorem wp_collectUnless (h : c.Ready) {rd : Reg} (hrd : Writable rd) (atomic : Bool) :
    Wp rest.withImpl (collectUnless atomic rd) (Leaves [rd] c.space.bytes c) c := by
  cases atomic with
  | true => exact Triples.wp_nil ((Leaves.refl h).mono (List.nil_subset _))
  | false => exact Triples.wp_mono (wp_collcc rest h hrd) fun _ hc => hc.1

/-- A push stores the sign-extended address. -/
theorem wp_pushRip (h : c.Ready) (hctx : HostCtx c) {t : Reg} (ht : t = Reg.temp0 ∨ t = Reg.temp6)
    (hok : X86Sim.Accessible c true (below c) 3) (rip : W64) :
    Wp rest.withImpl (pushRip rip t) (fun c' =>
      Leaves [t, Reg.temp9, Reg.rsp] (storeBytewise (below c) (signext64 rip 48) c.space.bytes 8) c c' ∧
        c'.arf Reg.rsp = c.arf Reg.rsp - 8) c := by
  have hw : Writable t := by
    rcases ht with rfl | rfl <;> exact ⟨by decide, by decide, by decide⟩
  have hrsp : Writable Reg.rsp := ⟨by decide, by decide, by decide⟩
  have htemp : t ≠ Reg.temp9 ∧ t ≠ Reg.imm ∧ remap t = t ∧ t ≠ Reg.rsp := by
    rcases ht with rfl | rfl <;> decide
  have hremap : remap Reg.rsp = Reg.rsp ∧ remap Reg.trace = Reg.trace := by decide
  refine Triples.wp_cons (Triples.wp_mono (wp_add rest h hw Reg.trace Reg.imm (signext64 rip 48)) ?_)
  rintro c₁ ⟨h₁, hv₁⟩
  have hrsp₁ : c₁.arf Reg.rsp = c.arf Reg.rsp := h₁.arf _ (by simp [htemp.2.2.2.symm])
  have hpushed : c₁.arf t = signext64 rip 48 := by
    rw [hv₁, hremap.2, h.trace, if_pos rfl]
    exact BitVec.zero_add _
  have haddr : canonicalAddr (c₁.arf (remap Reg.rsp) + -8) = below c := by
    rw [hremap.1, hrsp₁, ← BitVec.sub_eq_add_neg]
    rfl
  refine Triples.wp_cons (Triples.wp_mono (wp_storeAt rest h₁.ready (by rw [h₁.ctx, hctx.mask]) htemp.1 htemp.2.1
    (Nat.le_refl 3) haddr ?_) ?_)
  · intro i hi
    rw [h₁.check]
    exact hok i hi
  rintro c₂ h₂
  rw [htemp.2.2.1, hpushed, h₁.bytes] at h₂
  refine Triples.wp_mono (wp_sub rest h₂.ready hrsp Reg.rsp Reg.imm 8) ?_
  rintro c₃ ⟨h₃, hv₃⟩
  rw [h₂.bytes] at h₃
  refine ⟨(h₁.trans (h₂.trans h₃)).mono (by simp), ?_⟩
  rw [hv₃, hremap.1, if_pos rfl, h₂.arf _ (by decide), hrsp₁]

/-- A branch writes the instruction pointer alone. -/
theorem wp_branch {exec : Synthop} {op : TransOp} (h : c.Ready) (hbr : isbranch op.opcode = true)
    (hmem : (isload op.opcode || isstore op.opcode) = false) (hsse : op.isSse = false) (hx87 : op.isX87 = false)
    (hrd : op.rd = Reg.rip) (hs : op.setflags = .none) (hno : op.nouserflags = false) {result : UopResult}
    (hexec : exec op (c.inputs op) = result) : Wp exec [op] (fun c' =>
      Leaves [Reg.rip] c.space.bytes c c' ∧ c'.arf Reg.rip = result.rddata) c := by
  have hw : Writable op.rd := by
    rw [hrd]
    exact ⟨by decide, by decide, by decide⟩
  have hop : Writes [Reg.rip] op :=
    ⟨by rw [hrd]; exact List.mem_cons_self, (Bool.or_eq_false_iff.1 hmem).2, hs, hno, hw⟩
  refine wp_result hmem hsse hx87 hw.zero (.inl hbr) ?_
  rw [hexec]
  refine ⟨writeResult_leaves h hop result, ?_⟩
  rw [← hrd]
  exact writeResult_arf_rd hw.flags

theorem wp_bru (h : c.Ready) (target : W64) (hint : ℕ) :
    Wp rest.withBranches.withImpl [.bru target hint] (fun c' =>
      Leaves [Reg.rip] c.space.bytes c c' ∧ c'.arf Reg.rip = target) c := by
  have hclass : isbranch .opBru = true ∧ (isload .opBru || isstore .opBru) = false := by decide
  have hexec : rest.withBranches.withImpl (.bru target hint) (c.inputs (.bru target hint)) = ⟨target, FLAG_BR_TK⟩ := rfl
  exact wp_branch h hclass.1 hclass.2 rfl rfl rfl rfl rfl hexec

theorem wp_jmp (h : c.Ready) (ra : Reg) (size hint : ℕ) :
    Wp rest.withBranches.withImpl [.jmp ra size hint] (fun c' =>
      Leaves [Reg.rip] c.space.bytes c c' ∧ c'.arf Reg.rip = c.arf (remap ra)) c := by
  have hclass : isbranch .opJmp = true ∧ (isload .opJmp || isstore .opJmp) = false := by decide
  have hexec : rest.withBranches.withImpl (.jmp ra size hint) (c.inputs (.jmp ra size hint)) =
      jmp (c.inputs (.jmp ra size hint)) := rfl
  exact wp_branch h hclass.1 hclass.2 rfl rfl rfl rfl rfl hexec

/-- A branch on a condition is taken just if the flags have it. -/
theorem wp_br (h : c.Ready) (cond : Cond) (taken seq : W64) :
    Wp rest.withBranches.withImpl [.br cond taken seq] (fun c' =>
      Leaves [Reg.rip] c.space.bytes c c' ∧
        c'.arf Reg.rip = if cond.holds fun i => (c.arf Reg.flags).getLsbD i then taken else seq) c := by
  have hclass : isbranch .opBr = true ∧ (isload .opBr || isstore .opBr) = false := by decide
  have hremap : remap cond.flagRegs.1 = Reg.flags ∧ remap cond.flagRegs.2 = Reg.flags := by
    cases cond <;> decide
  have hin : (c.inputs (.br cond taken seq)).raflags = c.arflags Reg.flags ∧
      (c.inputs (.br cond taken seq)).rbflags = c.arflags Reg.flags :=
    ⟨congrArg c.arflags hremap.1, congrArg c.arflags hremap.2⟩
  have hexec : rest.withBranches.withImpl (.br cond taken seq) (c.inputs (.br cond taken seq)) =
      condbranch cond (c.inputs (.br cond taken seq)) := by
    show condbranch (.ofCode cond.code) _ = _
    rw [Cond.ofCode_code]
  refine Triples.wp_mono (wp_branch h hclass.1 hclass.2 rfl rfl rfl rfl rfl hexec) ?_
  rintro c' ⟨hleaves, hvalue⟩
  refine ⟨hleaves, hvalue.trans ?_⟩
  have hsame : (cond.holds fun i => (c.arflags Reg.flags).getLsbD i) = cond.holds fun i => (c.arf Reg.flags).getLsbD i := by
    have hbit : ∀ i < 16, (c.arflags Reg.flags).getLsbD i = (c.arf Reg.flags).getLsbD i := fun i hi => by
      rw [h.flags, BitVec.getLsbD_setWidth, decide_eq_true hi, Bool.true_and]
    cases cond <;> simp only [Cond.holds, hbit _ (show 0 < 16 by decide), hbit _ (show 2 < 16 by decide),
      hbit _ (show 6 < 16 by decide), hbit _ (show 7 < 16 by decide), hbit _ (show 11 < 16 by decide)]
  unfold condbranch
  rw [hin.1, hin.2, evaluateCond_word_holds, hsame]
  rfl

/-! ### Transfers -/

/-- A stored word determines its bytes. -/
theorem storeBytewise_inj {a : ℕ} {v v' : W64} {m : ℕ → Byte} : storeBytewise a v m 8 = storeBytewise a v' m 8 ↔ v = v' := by
  refine ⟨fun h => ByteMask.eq_of_byteAt fun i hi => ?_, fun h => by rw [h]⟩
  have hbyte := congrFun h (byteAddr a i)
  rwa [storeBytewise_byte hi (by decide), storeBytewise_byte hi (by decide)] at hbyte

/-- None of the registers is architectural, but for the two a transfer writes. -/
def Moves (rs : List Reg) : Prop := ∀ r ∈ rs, 64 ≤ r.val ∨ r = Reg.rip ∨ r = Reg.rsp

instance (rs : List Reg) : Decidable (Moves rs) := inferInstanceAs (Decidable (∀ r ∈ rs, _))

/-- After the pieces: a transfer is right if the target is, and what a call pushes. -/
theorem right_iff (insn : Transfer) {c' : SeqCore} {rs : List Reg} {next pushed : W64} (hrs : Moves rs)
    (hl : Leaves rs (if insn.iscall then storeBytewise (below c) pushed c.space.bytes 8 else c.space.bytes) c c')
    (hrsp : c'.arf Reg.rsp = insn.stack c) (hnext : c'.arf Reg.rip = next) :
    insn.Right pfx rip c c' ↔ next = insn.target pfx rip c ∧ (insn.iscall = true → pushed = rip) := by
  have hkept : ∀ r : Reg, r.isArch = true → r ≠ Reg.rip → r ≠ Reg.rsp → c'.arf r = c.arf r := by
    intro r hr hrip hrsp
    refine hl.arf r fun hmem => ?_
    have hlt : r.val < 64 := of_decide_eq_true hr
    rcases hrs r hmem with hge | heq | heq
    · omega
    · exact hrip heq
    · exact hrsp heq
  constructor
  · intro h
    refine ⟨hnext.symm.trans h.next, fun hcall => ?_⟩
    have hbytes := hl.bytes.symm.trans h.bytes
    rw [if_pos hcall, if_pos hcall] at hbytes
    exact storeBytewise_inj.1 hbytes
  · rintro ⟨htarget, hpushed⟩
    refine ⟨hnext.trans htarget, hrsp, hkept _ (by decide) (by decide) (by decide), fun r hr hne => ?_, ?_⟩
    · simp only [List.mem_cons, List.not_mem_nil, or_false, not_or] at hne
      exact hkept r hr hne.2.1 hne.2.2
    · rw [hl.bytes]
      by_cases hcall : insn.iscall = true
      · rw [if_pos hcall, if_pos hcall, hpushed hcall]
      · rw [if_neg hcall, if_neg hcall]

/-- The push of a call, or nothing. -/
theorem wp_push (h : c.Ready) (insn : Transfer) (hret : ∀ addend, insn ≠ ret addend) (hacc : insn.Accessible pfx rip c)
    {t : Reg} (ht : t = Reg.temp0 ∨ t = Reg.temp6) :
    Wp rest.withImpl (if insn.iscall then pushRip rip t else []) (fun c' =>
      Leaves [t, Reg.temp9, Reg.rsp]
        (if insn.iscall then storeBytewise (below c) (signext64 rip 48) c.space.bytes 8 else c.space.bytes) c c' ∧
      c'.arf Reg.rsp = insn.stack c) c := by
  have hstack : insn.stack c = if insn.iscall then c.arf Reg.rsp - 8 else c.arf Reg.rsp := by
    cases insn with
    | ret addend => exact absurd rfl (hret addend)
    | rel iscall disp => rfl
    | jcc cond disp => rfl
    | ev iscall ra wide => rfl
  rw [hstack]
  by_cases hcall : insn.iscall = true
  · simp only [if_pos hcall]
    exact wp_pushRip rest h hacc.ctx ht (hacc.push hcall) rip
  · simp only [if_neg hcall]
    exact Triples.wp_nil ⟨(Leaves.refl h).mono (List.nil_subset _), rfl⟩

/-- Only a call through a register may be inexact by its target. -/
theorem exact_iff (insn : Transfer) (hev : ∀ r wide, insn ≠ ev true (.reg r) wide) :
    insn.CallExact rip ↔ (insn.iscall = true → signext64 rip 48 = rip) := by
  unfold CallExact
  refine ⟨fun h hcall => (h hcall).1, fun h hcall => ⟨h hcall, fun r wide heq => absurd heq (hev r wide)⟩⟩

/-- Relative transfers. -/
theorem wp_rel (h : c.Ready) (iscall : Bool) (disp : W64) (atomic : Bool)
    (hacc : (rel iscall disp).Accessible pfx rip c) :
    Wp rest.withBranches.withImpl ((rel iscall disp).decode pfx atomic rip) (fun c' =>
      (rel iscall disp).Right pfx rip c c' ↔ (rel iscall disp).CallExact rip) c := by
  have hw : Writable Reg.temp0 := ⟨by decide, by decide, by decide⟩
  unfold decode
  dsimp only
  refine Triples.wp_append (Triples.wp_append (Triples.wp_mono (wp_push _ h (rel iscall disp) nofun hacc (.inl rfl)) ?_))
  rintro c₁ ⟨h₁, hrsp₁⟩
  refine Triples.wp_mono (wp_collectUnless _ h₁.ready hw atomic) fun c₂ h₂ => ?_
  refine Triples.wp_mono (wp_bru rest h₂.ready _ _) ?_
  rintro c₃ ⟨h₃, hnext⟩
  have hl := h₁.trans (h₂.trans h₃)
  rw [h₂.bytes, h₁.bytes] at hl
  have hrsp : c₃.arf Reg.rsp = (rel iscall disp).stack c := by
    rw [h₃.arf _ (by decide), h₂.arf _ (by decide), hrsp₁]
  rw [right_iff (rel iscall disp) (by decide) hl hrsp hnext, exact_iff (rel iscall disp) fun _ _ => nofun]
  exact and_iff_right rfl

/-- Conditional jumps. -/
theorem wp_jcc (h : c.Ready) (cond : Cond) (disp : W64) (atomic : Bool) :
    Wp rest.withBranches.withImpl ((jcc cond disp).decode pfx atomic rip) (fun c' =>
      (jcc cond disp).Right pfx rip c c' ↔ (jcc cond disp).CallExact rip) c := by
  have hw : Writable Reg.temp0 := ⟨by decide, by decide, by decide⟩
  unfold decode
  dsimp only
  refine Triples.wp_append (Triples.wp_mono (wp_collectUnless _ h hw atomic) fun c₁ h₁ => ?_)
  refine Triples.wp_mono (wp_br rest h₁.ready cond _ _) ?_
  rintro c₂ ⟨h₂, hnext⟩
  have hl := h₁.trans h₂
  rw [h₁.bytes] at hl
  have hrsp : c₂.arf Reg.rsp = (jcc cond disp).stack c := by
    rw [h₂.arf _ (by decide), h₁.arf _ (by decide)]
    rfl
  rw [right_iff (jcc cond disp) (by decide) hl hrsp hnext, exact_iff (jcc cond disp) fun _ _ => nofun,
    h₁.arf _ (by decide)]
  exact and_iff_right rfl

/-- What may be accessed may be after the temporaries are written. -/
theorem Accessible.leaves {insn : Transfer} (hacc : insn.Accessible pfx rip c) {rs : List Reg} {m : ℕ → Byte}
    {c' : SeqCore} (hl : Leaves rs m c c') (hrs : Temps rs) : insn.Accessible pfx rip c' := by
  have hrsp : c'.arf Reg.rsp = c.arf Reg.rsp := hl.arch hrs (by decide) (by decide)
  have hloaded : insn.loaded pfx rip c' = insn.loaded pfx rip c := by
    unfold loaded top
    rw [hrsp]
    cases insn with
    | ev iscall ra wide =>
      cases ra with
      | reg r => rfl
      | mem o size => exact congrArg some (Operand.effective_congr hl hrs o)
    | rel iscall disp => rfl
    | jcc cond disp => rfl
    | ret addend => rfl
  refine ⟨hacc.ctx.leaves hl hrs, fun hcall => ?_, fun a ha => ?_⟩
  · have hpush := hacc.push hcall
    unfold X86Sim.Accessible below at *
    rwa [hrsp, hl.check]
  · have hload := hacc.load a (hloaded ▸ ha)
    unfold X86Sim.Accessible at *
    rwa [hl.check]

/-- Nothing but the stack pointer matters to the stack. -/
theorem stack_congr (insn : Transfer) {c' : SeqCore} (hrsp : c'.arf Reg.rsp = c.arf Reg.rsp) :
    below c' = below c ∧ insn.stack c' = insn.stack c := by
  unfold below stack
  rw [hrsp]
  exact ⟨rfl, rfl⟩

/-- Transfers through a register: the target is read after the push. -/
theorem wp_ev_reg (h : c.Ready) (iscall : Bool) (r : Apr) (wide : 2 ≤ (Operand.reg r).sizeshift) (atomic : Bool)
    (hacc : (ev iscall (.reg r) wide).Accessible pfx rip c) :
    Wp rest.withBranches.withImpl ((ev iscall (.reg r) wide).decode pfx atomic rip) (fun c' =>
      (ev iscall (.reg r) wide).Right pfx rip c c' ↔ (ev iscall (.reg r) wide).CallExact rip) c := by
  have hw : Writable Reg.temp0 := ⟨by decide, by decide, by decide⟩
  unfold decode
  dsimp only
  refine Triples.wp_append (Triples.wp_mono (wp_collectUnless _ h hw atomic) fun c₁ h₁ => ?_)
  refine Triples.wp_append (Triples.wp_mono (wp_push _ h₁.ready (ev iscall (.reg r) wide) nofun
    (hacc.leaves h₁ (by decide)) (.inr rfl)) ?_)
  rintro c₂ ⟨h₂, hrsp₂⟩
  refine Triples.wp_mono (wp_jmp rest h₂.ready _ _ _) ?_
  rintro c₃ ⟨h₃, hnext⟩
  have hl := h₁.trans (h₂.trans h₃)
  obtain ⟨hbelow, hstack⟩ := stack_congr (ev iscall (.reg r) wide) (h₁.arf Reg.rsp (by decide))
  rw [h₂.bytes, h₁.bytes, hbelow] at hl
  have hrsp : c₃.arf Reg.rsp = (ev iscall (.reg r) wide).stack c := by
    rw [h₃.arf _ (by decide), hrsp₂, hstack]
  rw [right_iff (ev iscall (.reg r) wide) (by decide) hl hrsp hnext, remap_of_lt (lt_trans r.arch_lt (by decide))]
  have htemps : ∀ t : Reg, 64 ≤ t.val → r.arch ≠ t := fun t ht heq => by
    have hlt := r.arch_lt
    rw [heq] at hlt
    omega
  have hother : r.arch ≠ Reg.rsp → c₂.arf r.arch = c.arf r.arch := fun hne => by
    have hout₁ : r.arch ∉ [Reg.temp0] := List.mem_singleton.not.2 (htemps _ (by decide))
    have hout₂ : r.arch ∉ [Reg.temp6, Reg.temp9, Reg.rsp] := by
      simp only [List.mem_cons, List.not_mem_nil, or_false, not_or]
      exact ⟨htemps _ (by decide), htemps _ (by decide), hne⟩
    rw [h₂.arf _ hout₂, h₁.arf _ hout₁]
  cases iscall with
  | false =>
    have hsame : c₂.arf r.arch = c.arf r.arch := by
      by_cases heq : r.arch = Reg.rsp
      · rw [heq, hrsp₂, hstack]
        rfl
      · exact hother heq
    rw [hsame]
    exact iff_of_true ⟨rfl, nofun⟩ nofun
  | true =>
    constructor
    · rintro ⟨htarget, hpushed⟩ -
      refine ⟨hpushed rfl, fun r' wide' heq hr => ?_⟩
      obtain rfl := Operand.reg.inj (Transfer.ev.inj heq).2
      have hlow : c₂.arf r.arch = c.arf r.arch - 8 := by
        rw [hr, hrsp₂, hstack]
        rfl
      have hnext : c.arf r.arch - 8 = c.arf r.arch := hlow.symm.trans htarget
      revert hnext
      generalize c.arf r.arch = v
      bv_omega
    · intro hexact
      obtain ⟨hpushed, hreg⟩ := hexact rfl
      exact ⟨hother (hreg r wide rfl), fun _ => hpushed⟩

/-- There is no 32-bit address to load either. -/
theorem jumpSize_eq {size : Fin 4} (h : 2 ≤ size.val) : jumpSize size.val = 3 := by
  have hlt := size.isLt
  unfold jumpSize
  split
  · rfl
  · omega

/-- Transfers through an operand in memory: the target is loaded before the push. -/
theorem wp_ev_mem (h : c.Ready) (iscall : Bool) (o : X86Operand) (size : Fin 4)
    (wide : 2 ≤ (Operand.mem o size).sizeshift) (atomic : Bool)
    (hacc : (ev iscall (.mem o size) wide).Accessible pfx rip c)
    (hload : X86Sim.Accessible c false (Operand.address pfx c rip o) 3) :
    Wp rest.withBranches.withImpl ((ev iscall (.mem o size) wide).decode pfx atomic rip) (fun c' =>
      (ev iscall (.mem o size) wide).Right pfx rip c c' ↔ (ev iscall (.mem o size) wide).Exact pfx rip c) c := by
  have hw : Writable Reg.temp0 := ⟨by decide, by decide, by decide⟩
  unfold decode
  dsimp only
  rw [jumpSize_eq wide]
  refine Triples.wp_append (Triples.wp_mono (wp_collectUnless _ h hw atomic) fun c₁ h₁ => ?_)
  have hacc₁ := hacc.leaves h₁ (by decide)
  -- the flags are collected first, so the load finds the memory as it was
  have hload₁ : X86Sim.Accessible c₁ false (Operand.address pfx c₁ rip o) 3 := by
    unfold X86Sim.Accessible
    rw [Operand.address_congr h₁ (by decide), h₁.check]
    exact hload
  refine Triples.wp_append (Triples.wp_append (Triples.wp_mono (wp_operandLoad pfx rip Reg.temp0 o 3 rest.withBranches
    h₁.ready hacc₁.ctx (by decide) (Nat.le_refl 3) hw hload₁) ?_))
  rintro c₂ ⟨h₂, hvalue, -⟩
  have h₁₂ := h₁.trans h₂
  refine Triples.wp_mono (wp_push _ h₂.ready (ev iscall (.mem o size) wide) nofun
    (hacc₁.leaves h₂ (by decide)) (.inr rfl)) ?_
  rintro c₃ ⟨h₃, hrsp₃⟩
  refine Triples.wp_mono (wp_jmp rest h₃.ready _ _ _) ?_
  rintro c₄ ⟨h₄, hnext⟩
  have hl := h₁₂.trans (h₃.trans h₄)
  obtain ⟨hbelow, hstack⟩ := stack_congr (ev iscall (.mem o size) wide) (h₁₂.arf Reg.rsp (by decide))
  rw [h₃.bytes, h₂.bytes, h₁.bytes, hbelow] at hl
  have hrsp : c₄.arf Reg.rsp = (ev iscall (.mem o size) wide).stack c := by
    rw [h₄.arf _ (by decide), hrsp₃, hstack]
  have hjumps : c₃.arf (remap Reg.temp0) =
      (loadBytes c.space.bytes (Operand.address pfx c rip o) 3).setWidth 64 := by
    have hremap : remap Reg.temp0 = Reg.temp0 := by decide
    rw [hremap, h₃.arf _ (by decide), hvalue, accessValue_congr h₁ (by decide), h₁.bytes]
    rfl
  rw [hjumps] at hnext
  rw [right_iff (ev iscall (.mem o size) wide) (by decide) hl hrsp hnext,
    ← exact_iff (ev iscall (.mem o size) wide) fun _ _ => nofun]
  refine and_congr_left fun _ => ?_
  show BitVec.setWidth 64 (loadBytes _ _ 3) = BitVec.setWidth 64 (loadBytes _ _ 3) ↔ _
  have hwide : opWidth 3 = 64 := rfl
  constructor
  · intro heq
    exact ⟨hload, BitVec.eq_of_getLsbD_eq fun i hi => by
      have hbit := congrArg (fun x => x.getLsbD i) heq
      simpa only [BitVec.getLsbD_setWidth, decide_eq_true (show i < 64 from hi), Bool.true_and] using hbit⟩
  · rintro ⟨-, heq⟩
    rw [heq]

/-- A target that may not be loaded is not. -/
theorem not_wp_ev_mem (h : c.Ready) (hctx : HostCtx c) (iscall : Bool) (o : X86Operand) (size : Fin 4)
    (wide : 2 ≤ (Operand.mem o size).sizeshift) (atomic : Bool)
    (hno : ¬X86Sim.Accessible c false (Operand.address pfx c rip o) 3) {Q : SeqCore → Prop} :
    ¬Wp rest.withBranches.withImpl ((ev iscall (.mem o size) wide).decode pfx atomic rip) Q c := by
  have hnonempty : Nonempty (ℕ → Sfr) := ⟨fun _ => Frame.Sfr.zero⟩
  have hw : Writable Reg.temp0 := ⟨by decide, by decide, by decide⟩
  unfold decode
  dsimp only
  rw [jumpSize_eq wide, List.append_assoc]
  refine Triples.not_wp_append (wp_collectUnless _ h hw atomic) fun c₁ h₁ => ?_
  refine not_wp_loadOperand pfx rip Reg.temp0 o 3 rest.withBranches h₁.ready (hctx.leaves h₁ (by decide)) true
    (show isload .opLd = true by decide) (Nat.le_refl 3) hw _ fun hload => hno ?_
  change X86Sim.Accessible c₁ false (Operand.address pfx c₁ rip o) 3 at hload
  unfold X86Sim.Accessible at hload
  rwa [Operand.address_congr h₁ (by decide), h₁.check] at hload

/-- Returns. -/
theorem wp_ret (h : c.Ready) (addend : W16) (atomic : Bool) (hacc : (ret addend).Accessible pfx rip c) :
    Wp rest.withBranches.withImpl ((ret addend).decode pfx atomic rip) (fun c' =>
      (ret addend).Right pfx rip c c' ↔ (ret addend).CallExact rip) c := by
  have hw : Writable Reg.temp5 ∧ Writable Reg.temp7 ∧ Writable Reg.rsp :=
    ⟨⟨by decide, by decide, by decide⟩, ⟨by decide, by decide, by decide⟩, ⟨by decide, by decide, by decide⟩⟩
  have hremap : remap Reg.rsp = Reg.rsp ∧ remap Reg.temp7 = Reg.temp7 := by decide
  have htop : canonicalAddr (c.arf (remap Reg.rsp) + 0) = top c := by
    rw [hremap.1]
    exact congrArg canonicalAddr (BitVec.add_zero _)
  unfold decode
  refine Triples.wp_append (Triples.wp_append (Triples.wp_cons (Triples.wp_mono
    (wp_loadAt _ h hacc.ctx.mask hw.2.1 (Nat.le_refl 3) htop (hacc.load _ rfl)) ?_)))
  rintro c₁ ⟨h₁, hvalue⟩
  refine Triples.wp_mono (wp_add _ h₁.ready hw.2.2 Reg.rsp Reg.imm _) ?_
  rintro c₂ ⟨h₂, hrsp₂⟩
  refine Triples.wp_mono (wp_collectUnless _ h₂.ready hw.1 atomic) fun c₃ h₃ => ?_
  refine Triples.wp_mono (wp_jmp rest h₃.ready _ _ _) ?_
  rintro c₄ ⟨h₄, hnext⟩
  have hl := h₁.trans (h₂.trans (h₃.trans h₄))
  rw [h₃.bytes, h₂.bytes, h₁.bytes] at hl
  have hrsp : c₄.arf Reg.rsp = (ret addend).stack c := by
    rw [h₄.arf _ (by decide), h₃.arf _ (by decide), hrsp₂, hremap.1, if_pos rfl, h₁.arf _ (by decide), ← BitVec.add_assoc]
    rfl
  have htarget : c₃.arf (remap Reg.temp7) = (ret addend).target pfx rip c := by
    rw [hremap.2, h₃.arf _ (by decide), h₂.arf _ (by decide), hvalue]
    rfl
  rw [right_iff (ret addend) (by decide) hl hrsp hnext, exact_iff (ret addend) fun _ _ => nofun]
  exact and_iff_right htarget

/-- Every near transfer, by its form. -/
theorem wp_iff (h : c.Ready) (insn : Transfer) (atomic : Bool) (hacc : insn.Accessible pfx rip c) :
    Wp rest.withBranches.withImpl (insn.decode pfx atomic rip) (insn.Right pfx rip c) c ↔ insn.Exact pfx rip c := by
  have hnonempty : Nonempty (ℕ → Sfr) := ⟨fun _ => Frame.Sfr.zero⟩
  have hcall : ∀ P : Prop, (True ∧ P ↔ P) := fun P => and_iff_right trivial
  cases insn with
  | rel iscall disp =>
    exact (Triples.wp_iff (wp_rel rest h iscall disp atomic hacc) fun _ hright => hright).trans (hcall _).symm
  | jcc cond disp =>
    exact (Triples.wp_iff (wp_jcc rest h cond disp atomic) fun _ hright => hright).trans (hcall _).symm
  | ev iscall ra wide =>
    cases ra with
    | reg r =>
      exact (Triples.wp_iff (wp_ev_reg rest h iscall r wide atomic hacc) fun _ hright => hright).trans (hcall _).symm
    | mem o size =>
      by_cases hload : X86Sim.Accessible c false (Operand.address pfx c rip o) 3
      · exact Triples.wp_iff (wp_ev_mem rest h iscall o size wide atomic hacc hload) fun _ hright => hright
      · exact iff_of_false (not_wp_ev_mem rest h hacc.ctx iscall o size wide atomic hload) fun hexact => hload hexact.1.1
  | ret addend =>
    exact (Triples.wp_iff (wp_ret rest h addend atomic hacc) fun _ hright => hright).trans (hcall _).symm

/-- Where the uops load what x86 does only a call can be wrong. -/
theorem exact_iff_call (insn : Transfer) (hacc : insn.Accessible pfx rip c)
    (hagree : ∀ iscall ra wide, insn = ev iscall ra wide → ra.Agrees pfx rip c) :
    insn.Exact pfx rip c ↔ insn.CallExact rip := by
  refine and_iff_right ?_
  unfold SameTarget
  split
  · rename_i iscall o size wide
    have haddr : Operand.address pfx c rip o = Operand.effective pfx rip c o := hagree _ _ _ rfl
    rw [haddr]
    exact ⟨hacc.load _ rfl, rfl⟩
  · trivial

/-! ### Flags in three groups -/

/-- A uop that sets no flags, or gathers them. -/
def KeepsFlags (op : TransOp) : Prop :=
  op.setflags = .none ∨ ∃ rd, op = .init .opCollcc rd Reg.zf Reg.cf Reg.of 3 0 0 .default

/-- One uop keeps the flags, in whichever groups. -/
theorem rename_flag {op : TransOp} (hop : KeepsFlags op) (g : FlagGroups) :
    ∀ i ∈ [0, 2, 4, 6, 7, 11],
      (g.rename op.setflags (rest.withImpl op (g.inputs op)).rdflags).flag i = g.flag i := by
  intro i hi
  rcases hop with hnone | ⟨rd, rfl⟩
  · rw [hnone]
    rfl
  · exact (FlagGroups.flag_word _ i).trans (collcc_bit g i hi)

/-- The flags stay, in whichever groups. -/
theorem run_keepsFlags {ops : List TransOp} (hops : ∀ op ∈ ops, KeepsFlags op) (data : W64) (g : FlagGroups) :
    ∀ i ∈ [0, 2, 4, 6, 7, 11], (g.run rest.withImpl ops data).2.flag i = g.flag i := by
  intro i hi
  induction ops generalizing data g with
  | nil => rfl
  | cons op ops ih =>
    exact (ih (fun o ho => hops o (List.mem_cons_of_mem _ ho)) _ _).trans (rename_flag rest (hops op List.mem_cons_self) g i hi)

/-- The uops of a transfer set no flags, but gather them. -/
theorem keepsFlags_decode (insn : Transfer) (pfx : Prefixes) (atomic : Bool) (rip : W64) :
    ∀ op ∈ insn.decode pfx atomic rip, KeepsFlags op := by
  have hcollect : ∀ rd, ∀ op ∈ collectUnless atomic rd, KeepsFlags op := by
    intro rd op hop
    cases atomic with
    | true => cases hop
    | false => exact .inr ⟨rd, List.mem_singleton.1 hop⟩
  have hpush : ∀ t, ∀ op ∈ (if insn.iscall then pushRip rip t else []), KeepsFlags op := by
    intro t op hop
    split at hop
    · simp only [pushRip, List.mem_cons, List.not_mem_nil, or_false] at hop
      rcases hop with rfl | rfl | rfl <;> exact .inl rfl
    · cases hop
  have hone : ∀ {op o : TransOp}, op.setflags = .none → o ∈ [op] → KeepsFlags o := fun hs ho =>
    .inl (by rw [List.mem_singleton.1 ho, hs])
  -- each part of the decoding keeps them by itself: addresses, pushes, the collection and the branch
  intro op hop
  cases insn with
  | rel iscall disp =>
    simp only [decode, List.mem_append] at hop
    rcases hop with (hop | hop) | hop
    · exact hpush _ op hop
    · exact hcollect _ op hop
    · exact hone rfl hop
  | jcc cond disp =>
    rcases List.mem_append.1 hop with hop | hop
    · exact hcollect _ op hop
    · exact hone rfl hop
  | ev iscall ra wide =>
    rcases List.mem_append.1 hop with hop | hop
    · exact hcollect _ op hop
    · cases ra with
      | reg r =>
        rcases List.mem_append.1 hop with hop | hop
        · exact hpush _ op hop
        · exact hone rfl hop
      | mem o size =>
        dsimp only at hop
        rw [List.mem_append, List.mem_append] at hop
        rcases hop with (hop | hop) | hop
        · have hld : (isload .opLd || isstore .opLd || Opcode.opLd = .opLdPre) = true := by decide
          obtain ⟨pre, ra, off, hshape, hwrites⟩ :=
            addressGenerate_shape pfx rip Reg.temp0 Reg.zero (o.memRef (jumpSize size)) hld true false
          unfold operandLoad at hop
          rw [hshape] at hop
          rcases List.mem_append.1 hop with hop | hop
          · exact .inl (hwrites op hop).setflags
          · exact hone rfl hop
        · exact hpush _ op hop
        · exact hone rfl hop
  | ret addend =>
    simp only [decode, List.mem_append, List.mem_cons, List.not_mem_nil, or_false] at hop
    rcases hop with ((rfl | rfl) | hop) | rfl
    · exact .inl rfl
    · exact .inl rfl
    · exact hcollect _ op hop
    · exact .inl rfl

/-- A conditional jump tests each flag in its group. -/
theorem run_jcc (cond : Cond) (disp : W64) (atomic : Bool) (g : FlagGroups) :
    (g.run rest.withBranches.withImpl ((jcc cond disp).decode pfx atomic rip) 0).1 =
      if cond.holds g.flag then rip + disp else rip := by
  have hbr : ∀ g : FlagGroups, ∀ data, (g.run rest.withBranches.withImpl [.br cond (rip + disp) rip] data).1 =
      if cond.holds g.flag then rip + disp else rip := by
    intro g data
    show (condbranch (.ofCode cond.code) (g.inputs (.br cond (rip + disp) rip))).rddata = _
    rw [Cond.ofCode_code]
    show (if evaluateCond cond (g.word cond.flagRegs.1) (g.word cond.flagRegs.2) then rip + disp else rip) = _
    rw [evaluateCond_groups]
  cases atomic with
  | true => exact hbr g 0
  | false =>
    refine (hbr _ 0).trans ?_
    have hkept := rename_flag rest.withBranches (.inr ⟨Reg.temp0, rfl⟩ :
      KeepsFlags (.init .opCollcc Reg.temp0 Reg.zf Reg.cf Reg.of 3 0 0 .default)) g
    have hholds : ∀ g' : FlagGroups, (∀ i ∈ [0, 2, 4, 6, 7, 11], g'.flag i = g.flag i) →
        cond.holds g'.flag = cond.holds g.flag := by
      intro g' hg
      cases cond <;> simp only [Cond.holds, hg _ (show 0 ∈ [0, 2, 4, 6, 7, 11] by decide),
        hg _ (show 2 ∈ [0, 2, 4, 6, 7, 11] by decide), hg _ (show 6 ∈ [0, 2, 4, 6, 7, 11] by decide),
        hg _ (show 7 ∈ [0, 2, 4, 6, 7, 11] by decide), hg _ (show 11 ∈ [0, 2, 4, 6, 7, 11] by decide)]
    rw [hholds _ hkept]

/-- **When a near transfer does what x86 says.** -/
theorem transfer_right_iff (rest : Synthop) (insn : Transfer) (pfx : Prefixes) (atomic : Bool) (rip : W64) (c : SeqCore)
    (h : c.Ready) (hacc : insn.Accessible pfx rip c) :
    Wp rest.withBranches.withImpl (insn.decode pfx atomic rip) (insn.Right pfx rip c) c ∧
      insn.GroupsRight pfx rip rest.withBranches.withImpl atomic ↔ insn.Exact pfx rip c := by
  have hgroups : insn.GroupsRight pfx rip rest.withBranches.withImpl atomic := fun g =>
    ⟨run_keepsFlags _ (keepsFlags_decode insn pfx atomic rip) 0 g, fun cond disp heq => by
      rw [heq]
      exact run_jcc rest cond disp atomic g⟩
  rw [and_iff_left hgroups]
  exact wp_iff rest h insn atomic hacc

/-- `call` through a register. -/
def callReg (r : Fin 16) : Transfer := ev true (.reg (.q r)) (show 2 ≤ 3 by decide)

/-- A core with the stack in its memory. -/
def stackCore : SeqCore := AluInsn.core fun r => if r = Reg.rsp then 0x2008 else if r = Reg.rax then 0x1100 else 0

theorem accessible_stackCore (r : Fin 16) : (callReg r).Accessible .plain 0x1002 stackCore := by
  refine ⟨⟨by decide +kernel, by decide +kernel, by decide +kernel⟩, fun _ => ?_, nofun⟩
  unfold X86Sim.Accessible
  decide +kernel

/-- `call rax`. -/
theorem transfer_right_iff_rax :
    Wp (Synthop.withBranches fun _ _ => ⟨0, 0⟩).withImpl ((callReg 0).decode .plain true 0x1002)
      ((callReg 0).Right .plain 0x1002 stackCore) stackCore ∧
    (callReg 0).GroupsRight .plain 0x1002 (Synthop.withBranches fun _ _ => ⟨0, 0⟩).withImpl true := by
  have hready : stackCore.Ready := ⟨by decide +kernel, by decide +kernel, by decide +kernel, by decide +kernel⟩
  refine (transfer_right_iff (fun _ _ => ⟨0, 0⟩) (callReg 0) .plain true 0x1002 stackCore hready
    (accessible_stackCore 0)).2 ⟨trivial, fun _ => ⟨by decide, fun r wide heq => ?_⟩⟩
  obtain rfl := Operand.reg.inj (Transfer.ev.inj heq).2
  decide

/-- `call rsp` goes to the return address it has pushed. -/
theorem not_transfer_right : ¬ ∀ (rest : Synthop) (insn : Transfer) (pfx : Prefixes) (atomic : Bool) (rip : W64)
    (c : SeqCore), c.Ready → insn.Accessible pfx rip c →
    Wp rest.withBranches.withImpl (insn.decode pfx atomic rip) (insn.Right pfx rip c) c := by
  intro h
  have hready : stackCore.Ready := ⟨by decide +kernel, by decide +kernel, by decide +kernel, by decide +kernel⟩
  obtain ⟨c', hrun, hright⟩ := h (fun _ _ => ⟨0, 0⟩) (callReg 4) .plain true 0x1002 stackCore hready
    (accessible_stackCore 4) fun _ _ => Frame.Sfr.zero
  have hbelow : (perform (Synthop.withBranches fun _ _ => ⟨0, 0⟩).withImpl ((callReg 4).decode .plain true 0x1002)
      (fun _ _ => Frame.Sfr.zero) stackCore).toOption.map (fun c => c.arf Reg.rip) = some 0x2000 := by
    decide +kernel
  have hdone : perform (Synthop.withBranches fun _ _ => ⟨0, 0⟩).withImpl ((callReg 4).decode .plain true 0x1002)
      (fun _ _ => Frame.Sfr.zero) stackCore = .ok c' := hrun
  rw [hdone] at hbelow
  have hwrong : c'.arf Reg.rip = 0x2000 := Option.some.inj hbelow
  have hnext := hright.next
  rw [hwrong] at hnext
  exact absurd hnext (by decide +kernel)

end Transfer

end X86Sim
