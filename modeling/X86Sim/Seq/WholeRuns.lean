import X86Sim.Seq.ExactlyOnce

/-!
# Whole instructions, from the uops of a block

`ExactlyOnce` says of a run when its instructions are whole by what the turns leave. Here it
is said of the uops: a uop faults, or skips, only after uops of its instruction that write
temporaries.

* `Taken.same`: uops that write temporaries leave what the program sees.
* `wholeInsns_of_fine`: every run whose turns keep to it.
-/

namespace X86Sim.Seq

variable {exec : Synthop} {cfg : Config} {limit : ℕ} {op : TransOp}

/-- The uop changes no guest register outside `s`, and no memory. -/
structure Silent (s : Set Reg) (op : TransOp) : Prop where
  noStore : op.opcode ≠ .opSt ∧ op.opcode ≠ .opStA16
  rd : isGuest op.rd → op.rd ∈ s
  flags : Reg.flags ∈ s ∨ op.nouserflags = true ∨ op.setflags = .none

theorem SameBut.trans {s : Set Reg} {c c' c'' : SeqCore} (h : SameBut s c c') (h' : SameBut s c' c'') :
    SameBut s c c'' :=
  ⟨fun r hg hr => (h'.regs r hg hr).trans (h.regs r hg hr), h'.bytes.trans h.bytes, h'.host.trans h.host⟩

/-- The result of a silent uop. -/
theorem SeqCore.writeResult_same {s : Set Reg} (h : Silent s op) (c : SeqCore) (reg : UopResult) :
    SameBut s c (c.writeResult op reg) := by
  have hctx : (c.writeResult op reg).ctx = c.ctx := by
    unfold SeqCore.writeResult
    dsimp only
    split
    · rfl
    · rfl
  refine ⟨fun r hg hr => ?_, by rw [writeResult_space], by rw [hctx]⟩
  have hrd : r ≠ op.rd := fun heq => hr (heq ▸ h.rd (heq ▸ hg))
  by_cases hflags : r = Reg.flags
  · subst hflags
    rcases h.flags.resolve_left hr with hno | hset
    · unfold SeqCore.writeResult
      rw [if_pos hno]
      exact Function.update_of_ne hrd _ _
    · cases hno : op.nouserflags with
      | true =>
        unfold SeqCore.writeResult
        rw [if_pos hno]
        exact Function.update_of_ne hrd _ _
      | false =>
        have hmask : (setflagsToX86Flags op.setflags).setWidth 64 = (0 : W64) := by
          rw [hset]
          decide
        have hnot : ~~~(0 : W64) = BitVec.allOnes 64 := by decide
        rw [writeResult_flags hrd.symm hno, hmask, hnot, BitVec.and_allOnes]
        exact (congrArg _ BitVec.and_zero).trans BitVec.or_zero
  · exact writeResult_arf hrd hflags

namespace Frame

variable {f f₀ : Frame} {junk : ℕ → Sfr} {b c : SeqCore} {n : ℕ} {s : Set Reg} {done : List TransOp}

/-- The uops of the instruction under way that are committed after a turn that took `op` and led to
`g`: an access that is split is not. -/
def taken (f g : Frame) (op : TransOp) (done : List TransOp) : List TransOp :=
  if g.atBoundary then [] else if f.buf = [] ∧ g.buf ≠ [] then done else done ++ [op]

/-- The turns of `execute`, with the uops of the instruction under way that are committed. -/
inductive Taken (exec : Synthop) (cfg : Config) (junk : ℕ → Sfr) (limit : ℕ) (f₀ : Frame) :
    ℕ → SeqCore → List TransOp → Frame → Prop
  | start : Taken exec cfg junk limit f₀ 0 f₀.core [] f₀
  | turn {n : ℕ} {b : SeqCore} {done : List TransOp} {f : Frame} {op : TransOp}
      (h : Taken exec cfg junk limit f₀ n b done f) (hrun : f.running limit = true)
      (hgo : (f.step exec cfg (junk n)).1 = none) (hop : f.nextOp = some op) :
      Taken exec cfg junk limit f₀ (n + 1) ((f.step exec cfg (junk n)).2.base b)
        (f.taken (f.step exec cfg (junk n)).2 op done) (f.step exec cfg (junk n)).2

/-- The condition on a turn: a store that does not end its instruction marks no page that is
watched, and a uop that faults, or skips, comes after uops that write temporaries, which for a
skip set no flags. -/
structure Fine (exec : Synthop) (cfg : Config) (junk : Sfr) (done : List TransOp) (f : Frame) : Prop where
  marks : ∀ op, f.Runs cfg op → op.eom = false → f.core.storesBytes op = true →
    pageid (AddressSpace.ofMfn junk.smcMfn) ≠ (f.takeOp op).rvp.mfnlo ∧
      pageid (AddressSpace.ofMfn junk.smcMfn) ≠ (f.takeOp op).rvp.mfnhi
  faults : ∀ op, f.Runs cfg op → f.core.faults exec op = true → ∀ o ∈ done, Silent {Reg.flags} o
  skips : ∀ op, f.Runs cfg op → f.core.skips exec op = true → ∀ o ∈ done, Silent {Reg.rip} o

theorem Taken.turns (h : Taken exec cfg junk limit f₀ n b done f) : Turns exec cfg junk limit f₀ n b f := by
  induction h with
  | start => exact .start
  | turn _ hrun hgo _ ih => exact ih.turn hrun hgo

/-- Every turn has a uop, and its instruction some that are committed. -/
theorem Turns.taken (h : Turns exec cfg junk limit f₀ n b f) : ∃ done, Taken exec cfg junk limit f₀ n b done f := by
  induction h with
  | start => exact ⟨_, .start⟩
  | turn _ hrun hgo ih =>
    obtain ⟨done, ht⟩ := ih
    obtain ⟨op, hr, -⟩ := step_none hgo
    exact ⟨_, ht.turn hrun hgo hr.next⟩

theorem issuing_same (f : Frame) (op : TransOp) : SameBut s f.core (f.issuing op) :=
  ⟨fun r _ _ => by rw [issuing_arf], by rw [issuing_space], by rw [issuing_ctx]⟩

/-- The commit of a silent uop within its instruction. -/
theorem commit_same (hs : Silent s op) (heom : op.eom = false) (reg : UopResult) (sfr : Sfr) :
    SameBut s f.core ({ f.takeOp op with core := f.issuing op }.commit op reg sfr).core := by
  have hcommit : SameBut s (f.issuing op) ((f.issuing op).commitUop op reg sfr) := by
    unfold SeqCore.commitUop
    rw [if_neg (not_or.2 hs.noStore)]
    split
    · exact SeqCore.writeResult_same hs _ _
    · exact .refl _ _
  have hnext : ((f.issuing op).commitUop op reg sfr).nextRip op reg = (f.issuing op).commitUop op reg sfr := by
    unfold SeqCore.nextRip
    rw [heom]
    rfl
  refine (issuing_same f op).trans ?_
  unfold commit
  simp only [hnext, heom, Bool.false_eq_true, if_false]
  split
  · exact ⟨hcommit.regs, hcommit.bytes, hcommit.host⟩
  · exact hcommit

/-- While the uops of the instruction under way are silent, the program sees what it saw before. -/
theorem Taken.same (hblock : WholeBlock f₀.bb) (hstart : f₀ = .start c f₀.bb)
    (h : Taken exec cfg junk limit f₀ n b done f) (hs : ∀ o ∈ done, Silent s o) : SameBut s b f.core := by
  induction h with
  | start => exact .refl _ _
  | @turn n b done f op h hrun hgo hop ih =>
    have hinv := h.turns.inv hblock hstart
    cases hb : (f.step exec cfg (junk n)).2.atBoundary with
    | true =>
      rw [base, hb, if_pos rfl]
      exact .refl _ _
    | false =>
      rw [base_of_mid hb]
      obtain ⟨op', hr, hcase⟩ := step_none hgo
      obtain rfl : op' = op := Option.some.inj (hr.next.symm.trans hop)
      rcases hcase with ⟨hissue, heq⟩ | ⟨reg, sfr, hissue, heq⟩
      · -- a split commits nothing
        obtain ⟨hbuf, -⟩ := hinv.buf_of_refetch hr.next hissue
        have hne : (f.step exec cfg (junk n)).2.buf ≠ [] := by
          rw [heq]
          unfold splitUnaligned
          dsimp only
          split
          · simp
          · simp
        rw [taken, hb, if_neg Bool.false_ne_true, if_pos ⟨hbuf, hne⟩] at hs
        rw [heq]
        exact (ih hs).trans (issuing_same f _)
      · have hbuf : (f.step exec cfg (junk n)).2.buf = f.buf.tail := by
          rw [heq]
          exact takeOp_buf f _
        have hno : ¬ (f.buf = [] ∧ (f.step exec cfg (junk n)).2.buf ≠ []) := by
          rintro ⟨hnil, hne⟩
          rw [hbuf, hnil] at hne
          exact hne rfl
        rw [taken, hb, if_neg Bool.false_ne_true, if_neg hno] at hs
        have heom : op'.eom = false := by
          rw [← hb, heq]
          refine (atBoundary_eq ?_).symm
          rw [commit_pending]
          exact (hinv.som hr.next).2
        rw [heq]
        exact (ih fun o ho => hs o (List.mem_append_left _ ho)).trans
          (commit_same (hs _ (List.mem_append_right _ (List.mem_singleton_self _))) heom reg sfr)

/-- What a run leaves of an instruction under way: it goes on to its next uop, or it ends in a fault or
a skip; it is never left for modified code, to be begun again. -/
def Progresses (exec : Synthop) (cfg : Config) (junk : ℕ → Sfr) (limit : ℕ) (f₀ : Frame) : Prop :=
  ∀ n b f, Turns exec cfg junk limit f₀ n b f → f.running limit = true → f.atBoundary = false →
    (f.step exec cfg (junk n)).1 = none ∨ (f.step exec cfg (junk n)).1 = some .exception ∨
      (f.step exec cfg (junk n)).1 = some .ok

/-- **An instruction is done whole or not at all**, and makes progress, in every run of a block in which
no turn marks a page of an instruction that is under way, and no uop faults, or skips, after one
of its instruction that writes a register of the program or memory. -/
theorem wholeInsns_of_fine (exec : Synthop) (cfg : Config) (junk : ℕ → Sfr) (limit : ℕ) (c : SeqCore)
    {bb : BasicBlock} (hblock : WholeBlock bb)
    (hfine : ∀ n b done f, Taken exec cfg junk limit (start c bb) n b done f → f.running limit = true →
      f.Fine exec cfg (junk n) done) :
    (start c bb).WholeInsns exec cfg junk limit ∧ (start c bb).Progresses exec cfg junk limit := by
  have hinv : ∀ n b f, Turns exec cfg junk limit (start c bb) n b f → Inv cfg limit b f :=
    fun n b f h => h.inv hblock rfl
  have hkeeps : ∀ n b f, Turns exec cfg junk limit (start c bb) n b f → f.running limit = true →
      f.Keeps exec cfg (junk n) b := by
    intro n b f h hrun
    obtain ⟨done, ht⟩ := h.taken
    obtain ⟨hmarks, hfaults, hskips⟩ := hfine n b done f ht hrun
    exact ⟨hmarks, fun op hr hf => ht.same hblock rfl (hfaults op hr hf),
      fun op hr hf => ht.same hblock rfl (hskips op hr hf)⟩
  have hwhole := (wholeInsns_iff exec cfg junk limit c hblock).2 hkeeps
  refine ⟨hwhole, fun n b f h hrun hmid => ?_⟩
  have hstep := (hwhole n b f h).1 hrun
  have hno : ∀ {p : Prop}, f.atBoundary = true ∧ p → False := by
    rintro p ⟨hb, -⟩
    rw [hmid] at hb
    cases hb
  have hturn := step_turn exec cfg (junk n) f
  generalize f.step exec cfg (junk n) = r at hturn hstep ⊢
  obtain ⟨res, g⟩ := r
  dsimp only at hturn hstep ⊢
  cases hturn with
  | stop _ => exact (hno (hstep.earlyExit rfl)).elim
  | done _ => exact .inr (.inr rfl)
  | smc _ _ => exact (hno (hstep.smc rfl)).elim
  | exception _ _ => exact .inr (.inl rfl)
  | refetch _ _ => exact .inl rfl
  | skip _ _ => exact .inr (.inr rfl)
  | commit _ _ => exact .inl rfl

/-! ### A store through a temporary -/

/-- The address of a store, in a temporary. -/
def storeAddress : TransOp :=
  { TransOp.init .opAdd Reg.temp0 Reg.rax Reg.rbx Reg.zero 3 0 0 .none with som := true, bytes := 4 }

/-- The store to that address. -/
def storeThere : TransOp :=
  { TransOp.init .opSt Reg.mem Reg.temp0 Reg.imm Reg.rcx 3 0 0 .none with eom := true, bytes := 4 }

/-- No page is mapped. -/
def unmappedStore : Frame :=
  .start (coreWith (.init true) fun r => if r = Reg.rax then 0x2000 else 0) (blockOf [storeAddress, storeThere])

theorem wholeBlock_unmappedStore : WholeBlock (blockOf [storeAddress, storeThere]) := by
  refine ⟨⟨rfl, rfl, rfl⟩, ?_, ?_⟩
  · decide
  · decide

/-- The store faults after the uop that writes its address. -/
theorem taken_unmappedStore (h : Taken addOnly ⟨0, 0⟩ (fun _ => Sfr.zero) 1 unmappedStore n b done f) :
    f = unmappedStore ∧ done = [] ∨
      f = (unmappedStore.step addOnly ⟨0, 0⟩ Sfr.zero).2 ∧ done = [storeAddress] := by
  induction h with
  | start => exact .inl ⟨rfl, rfl⟩
  | turn _ _ hgo hop ih =>
    rcases ih with ⟨rfl, rfl⟩ | ⟨rfl, rfl⟩
    · obtain rfl := Option.some.inj (hop.symm.trans (show unmappedStore.nextOp = some storeAddress by rfl))
      exact .inr ⟨rfl, by decide +kernel⟩
    · exact absurd hgo (by decide +kernel)

theorem wholeInsns_unmappedStore : unmappedStore.WholeInsns addOnly ⟨0, 0⟩ (fun _ => Sfr.zero) 1 ∧
    unmappedStore.Progresses addOnly ⟨0, 0⟩ (fun _ => Sfr.zero) 1 := by
  refine wholeInsns_of_fine addOnly ⟨0, 0⟩ (fun _ => Sfr.zero) 1 _ wholeBlock_unmappedStore ?_
  intro n b done f h _
  have hsilent : ∀ {s : Set Reg}, ∀ o ∈ [storeAddress], Silent s o := by
    intro s o ho
    obtain rfl := List.mem_singleton.1 ho
    refine ⟨by decide, fun hg => ?_, .inr (.inr rfl)⟩
    unfold isGuest at hg
    exact absurd hg (by decide)
  rcases taken_unmappedStore h with ⟨rfl, rfl⟩ | ⟨rfl, rfl⟩
  · refine ⟨fun op hr _ hst => ?_, fun _ _ _ o ho => (by cases ho), fun _ _ _ o ho => (by cases ho)⟩
    obtain rfl := Option.some.inj (hr.next.symm.trans (show unmappedStore.nextOp = some storeAddress by rfl))
    exact absurd hst (by decide +kernel)
  · refine ⟨fun op hr heom _ => ?_, fun _ _ _ => hsilent, fun _ _ _ => hsilent⟩
    have hnext : (unmappedStore.step addOnly ⟨0, 0⟩ Sfr.zero).2.nextOp = some storeThere := by decide +kernel
    obtain rfl := Option.some.inj (hr.next.symm.trans hnext)
    cases heom

end Frame
end X86Sim.Seq
