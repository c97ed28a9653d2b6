import X86Sim.Decode.Transfers

/-!
# Branches on the counter (`decode-complex.cpp`)

`loop`, `loopz`, `loopnz` and `jrcxz`. A test of `rcx` leaves its flags in a temporary,
those of `ZF` are merged into it, and a branch is taken if the merged `ZF` is set.
-/

namespace X86Sim

open X86Sim.Seq X86Sim.Seq.SeqCore

namespace TransOp

/-- The test of the counter. -/
def testCount (size : ℕ) : TransOp :=
  { init .opAnd Reg.temp1 Reg.rcx Reg.rcx Reg.zero size 0 0 .default with nouserflags := true }

/-- The merge of its flags with those of ZF. -/
def mergeZf (opcode : Opcode) : TransOp :=
  { init opcode Reg.temp1 Reg.temp1 Reg.zf Reg.zero 3 0 0 .default with nouserflags := true }

/-- The branch on the merged flags. -/
def brCount (taken seq : W64) : TransOp :=
  { mk3 .opBr Reg.rip Reg.temp1 Reg.zero Reg.zero 3 0 with cond := Cond.e.code, riptaken := taken, ripseq := seq }

end TransOp

/-- The branches on the counter: the loops (0xe0 to 0xe2), which may want a ZF too, and `jcxz` (0xe3). -/
inductive CountBranch
  | loop (zf : Option Bool) (disp : W64)
  | jcxz (disp : W64)

namespace CountBranch

/-- The uops; `mode64` is `rex.mode64`. -/
def decode (insn : CountBranch) (pfx : Prefixes) (mode64 atomic : Bool) (rip : W64) : List TransOp :=
  match insn with
  | loop zf disp =>
    let sizeshift := if mode64 then if pfx.addr then 2 else 3 else if pfx.addr then 1 else 2
    [.testCount sizeshift] ++ (match zf with
      | some z => [.mergeZf (if z then .opOrcc else .opOrnotcc)]
      | none => []) ++ collectUnless atomic Reg.temp5 ++ [.brCount (rip + disp) rip]
  | jcxz disp =>
    let sizeshift := if pfx.data then 2 else 3
    [.testCount sizeshift] ++ collectUnless atomic Reg.temp0 ++ [.brCount (rip + disp) rip]

/-! ### What x86 says -/

variable (insn : CountBranch) (pfx : Prefixes) (rip : W64) (c : SeqCore)

/-- The counter as a number: `ecx` under an address-size prefix. -/
def width (pfx : Prefixes) : ℕ := if pfx.addr then 32 else 64

/-- The counter after. -/
def count : W64 :=
  match insn with
  | loop _ _ => (((c.arf Reg.rcx).setWidth (width pfx)) - 1).setWidth 64
  | jcxz _ => c.arf Reg.rcx

/-- The branch is taken. -/
def taken : Bool :=
  match insn with
  | loop zf _ => insn.count pfx c ≠ 0 ∧ ∀ z ∈ zf, (c.arf Reg.flags).getLsbD 6 = z
  | jcxz _ => (c.arf Reg.rcx).setWidth (width pfx) = 0

def disp : CountBranch → W64
  | loop _ disp | jcxz disp => disp

/-- A branch has done what x86 says. -/
structure Right (c' : SeqCore) : Prop where
  next : c'.arf Reg.rip = if insn.taken pfx c then rip + insn.disp else rip
  count : c'.arf Reg.rcx = insn.count pfx c
  flags : c'.arf Reg.flags = c.arf Reg.flags
  regs : ∀ r : Reg, r.isArch = true → r ∉ [Reg.flags, Reg.rip, Reg.rcx] → c'.arf r = c.arf r
  bytes : c'.space.bytes = c.space.bytes

/-- When a branch does: no loop, and `jcxz` if both prefixes say the same width or the widths do not differ. -/
def Exact : Prop :=
  match insn with
  | loop _ _ => False
  | jcxz disp => disp = 0 ∨ pfx.data = pfx.addr ∨ ((c.arf Reg.rcx).setWidth 32 = 0 → c.arf Reg.rcx = 0)

/-! ### Pieces -/

variable {insn pfx rip c} (rest : Synthop)

/-- The test leaves in a temporary whether the counter is zero. -/
theorem wp_testCount (h : c.Ready) {size : ℕ} (hsize : size ≤ 3) :
    Wp rest.withImpl [.testCount size] (fun c' => Leaves [Reg.temp1] c.space.bytes c c' ∧
      (c'.arflags Reg.temp1).getLsbD 6 = decide ((c.arf Reg.rcx).setWidth (opWidth size) = 0)) c := by
  have hclass : (isload .opAnd || isstore .opAnd) = false := by decide
  have hmem : isMem (.testCount size) = false := hclass
  have hremap : remap Reg.rcx = Reg.rcx := by decide
  have hset : (TransOp.testCount size).setflags ≠ .none := by
    show SetFlags.default ≠ SetFlags.none
    decide
  obtain ⟨f, himpl, hf⟩ := implements_and (.testCount size) rfl hsize
  obtain ⟨-, hinv, hflags⟩ := hf (c.inputs (.testCount size))
  have hexec : rest.withImpl (.testCount size) (c.inputs (.testCount size)) = f (c.inputs (.testCount size)) := by
    unfold Synthop.withImpl
    rw [himpl]
  refine Triples.wp_mono (wp_result_quiet hmem rfl rfl rfl h writable_temp1 hexec hinv) ?_
  rintro c' ⟨hleaves, -, hrd⟩
  refine ⟨hleaves, ?_⟩
  have hrd' : c'.arflags Reg.temp1 = (f (c.inputs (.testCount size))).rdflags := hrd
  rw [hrd', hflags hset, Status.word_bit]
  show decide ((c.arf (remap Reg.rcx)).setWidth (opWidth size) &&& (c.arf (remap Reg.rcx)).setWidth (opWidth size) = 0) = _
  rw [BitVec.and_self, hremap]

/-- The merge leaves all but the temporary. -/
theorem wp_mergeZf (h : c.Ready) (z : Bool) :
    Wp rest.withImpl [.mergeZf (if z then .opOrcc else .opOrnotcc)] (Leaves [Reg.temp1] c.space.bytes c) c := by
  have hclass : (isload .opOrcc || isstore .opOrcc) = false ∧ (isload .opOrnotcc || isstore .opOrnotcc) = false := by
    decide
  have hmem : isMem (.mergeZf .opOrcc) = false ∧ isMem (.mergeZf .opOrnotcc) = false := hclass
  have hmask : FLAG_NOT_WAIT_INV &&& FLAG_INV = 0 := by decide
  have hinv : ∀ f i, (flagsOp f i).rdflags &&& FLAG_INV = 0 := by
    intro f i
    show _ &&& FLAG_NOT_WAIT_INV &&& FLAG_INV = 0
    rw [BitVec.and_assoc, hmask]
    exact BitVec.and_zero
  cases z with
  | true => exact Triples.wp_mono (wp_result_quiet hmem.1 rfl rfl rfl h writable_temp1 rfl (hinv _ _)) fun _ h => h.1
  | false => exact Triples.wp_mono (wp_result_quiet hmem.2 rfl rfl rfl h writable_temp1 rfl (hinv _ _)) fun _ h => h.1

/-- The branch is taken if the merged ZF is set. -/
theorem wp_brCount (h : c.Ready) (taken seq : W64) :
    Wp rest.withBranches.withImpl [.brCount taken seq] (fun c' => Leaves [Reg.rip] c.space.bytes c c' ∧
      c'.arf Reg.rip = if (c.arflags Reg.temp1).getLsbD 6 then taken else seq) c := by
  have hclass : isbranch .opBr = true ∧ (isload .opBr || isstore .opBr) = false := by decide
  have hremap : remap Reg.temp1 = Reg.temp1 := by decide
  have hexec : rest.withBranches.withImpl (.brCount taken seq) (c.inputs (.brCount taken seq)) =
      condbranch .e (c.inputs (.brCount taken seq)) := by
    show condbranch (.ofCode Cond.e.code) _ = _
    rw [Cond.ofCode_code]
  refine Triples.wp_mono (Transfer.wp_branch h hclass.1 hclass.2 rfl rfl rfl rfl rfl hexec) ?_
  rintro c' ⟨hleaves, hvalue⟩
  refine ⟨hleaves, hvalue.trans ?_⟩
  show (if decide (c.arflags (remap Reg.temp1) &&& FLAG_ZF ≠ 0) then taken else seq) = _
  rw [hremap]
  obtain ⟨-, -, hz, -⟩ := flag_iff (c.arflags Reg.temp1)
  by_cases hzf : (c.arflags Reg.temp1).getLsbD 6 = true
  · rw [if_pos (decide_eq_true (hz.2 hzf)), if_pos hzf]
  · rw [if_neg (by rw [decide_eq_true_eq, hz]; exact hzf), if_neg hzf]

/-! ### Branches -/

/-- What the temporaries and the instruction pointer leave. -/
structure Kept (c c' : SeqCore) : Prop where
  flags : c'.arf Reg.flags = c.arf Reg.flags
  regs : ∀ r : Reg, r.isArch = true → r ≠ Reg.flags → r ≠ Reg.rip → c'.arf r = c.arf r
  bytes : c'.space.bytes = c.space.bytes

theorem Kept.of_leaves {rs : List Reg} (hrs : ∀ r ∈ rs, 64 ≤ r.val ∨ r = Reg.rip) {c' : SeqCore}
    (hl : Leaves rs c.space.bytes c c') : Kept c c' := by
  have hout : ∀ r : Reg, r.isArch = true → r ≠ Reg.rip → r ∉ rs := by
    intro r hr hrip hmem
    have hlt : r.val < 64 := of_decide_eq_true hr
    rcases hrs r hmem with hge | heq
    · omega
    · exact hrip heq
  exact ⟨hl.arf _ (hout _ (by decide) (by decide)), fun r hr _ hrip => hl.arf _ (hout r hr hrip), hl.bytes⟩

/-- A loop does not count. -/
theorem wp_loop (h : c.Ready) (zf : Option Bool) (disp : W64) (mode64 atomic : Bool) :
    Wp rest.withBranches.withImpl ((loop zf disp).decode pfx mode64 atomic rip) (Kept c) c := by
  have h5 : Writable Reg.temp5 := ⟨by decide, by decide, by decide⟩
  have hsize : (if mode64 then if pfx.addr then 2 else 3 else if pfx.addr then 1 else 2) ≤ 3 := by
    split <;> split <;> omega
  have hmerge : ∀ {c₁ : SeqCore}, c₁.Ready → Wp rest.withBranches.withImpl (match zf with
      | some z => [.mergeZf (if z then .opOrcc else .opOrnotcc)]
      | none => []) (Leaves [Reg.temp1] c₁.space.bytes c₁) c₁ := by
    intro c₁ h₁
    cases zf with
    | some z => exact wp_mergeZf _ h₁ z
    | none => exact Triples.wp_nil ((Leaves.refl h₁).mono (List.nil_subset _))
  unfold decode
  dsimp only
  refine Triples.wp_append (Triples.wp_append (Triples.wp_append (Triples.wp_mono (wp_testCount _ h hsize) ?_)))
  rintro c₁ ⟨h₁, -⟩
  refine Triples.wp_mono (hmerge h₁.ready) fun c₂ h₂ => ?_
  refine Triples.wp_mono (Transfer.wp_collectUnless _ h₂.ready h5 atomic) fun c₃ h₃ => ?_
  refine Triples.wp_mono (wp_brCount rest h₃.ready _ _) ?_
  rintro c₄ ⟨h₄, -⟩
  have hl := h₁.trans (h₂.trans (h₃.trans h₄))
  rw [h₃.bytes, h₂.bytes, h₁.bytes] at hl
  exact Kept.of_leaves (by decide) hl

/-- `jcxz` tests as much of the counter as the operand-size prefix says. -/
theorem wp_jcxz (h : c.Ready) (disp : W64) (mode64 atomic : Bool) :
    Wp rest.withBranches.withImpl ((jcxz disp).decode pfx mode64 atomic rip) (fun c' => Kept c c' ∧
      c'.arf Reg.rip = if (c.arf Reg.rcx).setWidth (if pfx.data then 32 else 64) = 0 then rip + disp else rip) c := by
  have h0 : Writable Reg.temp0 := ⟨by decide, by decide, by decide⟩
  have hsize : (if pfx.data then 2 else 3) ≤ 3 := by split <;> omega
  unfold decode
  dsimp only
  refine Triples.wp_append (Triples.wp_append (Triples.wp_mono (wp_testCount _ h hsize) ?_))
  rintro c₁ ⟨h₁, hzero⟩
  refine Triples.wp_mono (Transfer.wp_collectUnless _ h₁.ready h0 atomic) fun c₂ h₂ => ?_
  refine Triples.wp_mono (wp_brCount rest h₂.ready _ _) ?_
  rintro c₃ ⟨h₃, hnext⟩
  have hl := h₁.trans (h₂.trans h₃)
  rw [h₂.bytes, h₁.bytes] at hl
  refine ⟨Kept.of_leaves (by decide) hl, ?_⟩
  rw [hnext, h₂.arflags _ (by decide), hzero]
  cases pfx.data <;> exact if_congr decide_eq_true_iff rfl rfl

/-- What is one less is not the same. -/
theorem count_loop_ne (zf : Option Bool) (disp : W64) : (loop zf disp).count pfx c ≠ c.arf Reg.rcx := by
  show ((c.arf Reg.rcx).setWidth (width pfx) - 1).setWidth 64 ≠ c.arf Reg.rcx
  unfold width
  generalize c.arf Reg.rcx = v
  cases pfx.addr with
  | true =>
    show ((v.setWidth 32) - 1).setWidth 64 ≠ v
    bv_omega
  | false =>
    show ((v.setWidth 64) - 1).setWidth 64 ≠ v
    bv_omega

/-- `jcxz` branches as it should if either width says the same, or there is nowhere to go. -/
theorem jcxz_iff (disp : W64) :
    (if (c.arf Reg.rcx).setWidth (if pfx.data then 32 else 64) = 0 then rip + disp else rip) =
      (if (jcxz disp).taken pfx c then rip + disp else rip) ↔ (jcxz disp).Exact pfx c := by
  unfold taken Exact width
  dsimp only
  generalize c.arf Reg.rcx = v
  have hzero : v = 0 → v.setWidth 32 = 0 := fun h => by
    rw [h]
    decide
  have hself : rip + disp = rip ↔ disp = 0 := by
    constructor <;> intro h <;> bv_omega
  have hself' : rip = rip + disp ↔ disp = 0 := eq_comm.trans hself
  rw [if_congr decide_eq_true_iff rfl rfl]
  cases pfx.data <;> cases pfx.addr
  · simp
  · by_cases hv : v = 0#64
    · simp [hv]
    · by_cases hlow : v.setWidth 32 = 0#32
      · simp [hv, hlow, hself']
      · simp [hv, hlow]
  · by_cases hv : v = 0#64
    · simp [hv]
    · by_cases hlow : v.setWidth 32 = 0#32
      · simp [hv, hlow, hself]
      · simp [hv, hlow]
  · simp

/-- **When a branch on the counter does what x86 says**: no loop ever. -/
theorem count_right_iff (rest : Synthop) (insn : CountBranch) (pfx : Prefixes) (mode64 atomic : Bool) (rip : W64)
    (c : SeqCore) (h : c.Ready) :
    Wp rest.withBranches.withImpl (insn.decode pfx mode64 atomic rip) (insn.Right pfx rip c) c ↔ insn.Exact pfx c := by
  have hnonempty : Nonempty (ℕ → Sfr) := ⟨fun _ => Frame.Sfr.zero⟩
  cases insn with
  | loop zf disp =>
    refine Triples.wp_iff (wp_loop rest h zf disp mode64 atomic) fun c' hkept => iff_of_false (fun hright => ?_) id
    have hrcx := hkept.regs Reg.rcx (by decide) (by decide) (by decide)
    exact count_loop_ne zf disp (hright.count.symm.trans hrcx)
  | jcxz disp =>
    refine Triples.wp_iff (wp_jcxz rest h disp mode64 atomic) ?_
    rintro c' ⟨hkept, hnext⟩
    have hright : (jcxz disp).Right pfx rip c c' ↔
        (if (c.arf Reg.rcx).setWidth (if pfx.data then 32 else 64) = 0 then rip + disp else rip) =
          if (jcxz disp).taken pfx c then rip + disp else rip := by
      refine ⟨fun hr => hnext.symm.trans hr.next, fun heq => ⟨hnext.trans heq, ?_, hkept.flags, ?_, hkept.bytes⟩⟩
      · exact hkept.regs Reg.rcx (by decide) (by decide) (by decide)
      · intro r hr hne
        simp only [List.mem_cons, List.not_mem_nil, or_false, not_or] at hne
        exact hkept.regs r hr hne.1 hne.2.1
    rw [hright]
    exact jcxz_iff disp

/-- A core with a counter. -/
def counter (v : W64) : SeqCore := AluInsn.core fun r => if r = Reg.rcx then v else 0

theorem ready_counter : (counter 5).Ready := ⟨by decide +kernel, by decide +kernel, by decide +kernel, by decide +kernel⟩

/-- `jrcxz` on a counter of 5. -/
theorem count_right_iff_jrcxz : Wp (Synthop.withBranches fun _ _ => ⟨0, 0⟩).withImpl
    ((jcxz 16).decode .plain false true 0x1002) ((jcxz 16).Right .plain 0x1002 (counter 5)) (counter 5) :=
  (count_right_iff (fun _ _ => ⟨0, 0⟩) (jcxz 16) .plain false true 0x1002 (counter 5) ready_counter).2 (.inr (.inl rfl))

/-- `loop` leaves a counter of 5 and does not branch. -/
theorem not_count_right : ¬ ∀ (rest : Synthop) (insn : CountBranch) (pfx : Prefixes) (mode64 atomic : Bool) (rip : W64)
    (c : SeqCore), c.Ready →
    Wp rest.withBranches.withImpl (insn.decode pfx mode64 atomic rip) (insn.Right pfx rip c) c := by
  intro h
  obtain ⟨c', hrun, hright⟩ := h (fun _ _ => ⟨0, 0⟩) (loop none 16) .plain false true 0x1002 (counter 5) ready_counter
    fun _ _ => Frame.Sfr.zero
  have hkept : (perform (Synthop.withBranches fun _ _ => ⟨0, 0⟩).withImpl
      ((loop none 16).decode .plain false true 0x1002) (fun _ _ => Frame.Sfr.zero) (counter 5)).toOption.map
      (fun c => c.arf Reg.rcx) = some 5 := by
    decide +kernel
  have hdone : perform (Synthop.withBranches fun _ _ => ⟨0, 0⟩).withImpl
      ((loop none 16).decode .plain false true 0x1002) (fun _ _ => Frame.Sfr.zero) (counter 5) = .ok c' := hrun
  rw [hdone] at hkept
  have hwrong : c'.arf Reg.rcx = 5 := Option.some.inj hkept
  have hcount := hright.count
  rw [hwrong] at hcount
  exact absurd hcount (by decide +kernel)

end CountBranch

end X86Sim
