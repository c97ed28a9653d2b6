import X86Sim.Ooo.Decoded
import X86Sim.Seq.RunUops

/-!
# Whole instructions in the sequential core

A turn commits one uop, so a block can be left in the middle of an instruction.
`Turns` runs a block turn by turn and remembers the core at the last instruction
boundary; `WholeInsns` says that every exit leaves what that core had. `wholeInsns_iff`
says when: no store marks the page of its own unfinished instruction, and no uop
faults after the instruction has changed something.
-/

namespace X86Sim.Seq

open AddressSpace

variable {exec : Synthop} {cfg : Config} {limit : ℕ} {op : TransOp}

/-- A register a program sees: general, SSE, x87, `rip` and the flags. -/
def isGuest (r : Reg) : Prop := r.val < 51 ∨ r = Reg.rip ∨ r = Reg.flags

/-- What a program sees is the same in `c'` as in `c`, but for the registers `s`. -/
structure SameBut (s : Set Reg) (c c' : SeqCore) : Prop where
  regs : ∀ r, isGuest r → r ∉ s → c'.arf r = c.arf r
  bytes : c'.space.bytes = c.space.bytes
  host : c'.ctx.hostBytes = c.ctx.hostBytes

theorem SameBut.refl (s : Set Reg) (c : SeqCore) : SameBut s c c :=
  ⟨fun _ _ _ => rfl, rfl, rfl⟩

/-- What the core relies on of a block: whole instructions, sizes of two bits, and no
jump before the end of an instruction. -/
structure WholeBlock (bb : BasicBlock) : Prop where
  linked : Linked true bb.transops true
  size : ∀ op ∈ bb.transops, op.size ≤ 3
  rip : ∀ op ∈ bb.transops, op.rd = Reg.rip → op.eom = true

namespace Frame

variable (f : Frame)

/-- The uops still to run. -/
def pending : List TransOp :=
  f.buf ++ f.bb.transops.drop (if f.buf = [] then f.uopindex else f.uopindex + 1)

/-- The next uop starts an instruction, or there is none. -/
def atBoundary : Bool := (f.pending[0]?.map (·.som)).getD true

/-- The core at the last instruction boundary, after a turn that led to `f`. -/
def base (b : SeqCore) : SeqCore := if f.atBoundary then f.core else b

/-- The turns of `execute` from `f₀`, with the core at the last instruction boundary;
`junk n` is what the uninitialised record of turn `n` holds. -/
inductive Turns (exec : Synthop) (cfg : Config) (junk : ℕ → Sfr) (limit : ℕ) (f₀ : Frame) :
    ℕ → SeqCore → Frame → Prop
  | start : Turns exec cfg junk limit f₀ 0 f₀.core f₀
  | turn {n : ℕ} {b : SeqCore} {f : Frame} (h : Turns exec cfg junk limit f₀ n b f)
      (hrun : f.running limit = true) (hgo : (f.step exec cfg (junk n)).1 = none) :
      Turns exec cfg junk limit f₀ (n + 1)
        ((f.step exec cfg (junk n)).2.base b) (f.step exec cfg (junk n)).2

/-- How a block is left at `r`, when `b` is the core at the last instruction boundary: for
modified code at a boundary, and with an exception or a skipped instruction as if the
instruction had not begun. -/
structure Whole (b : SeqCore) (r : Option SeqExec × Frame) : Prop where
  smc : r.1 = some .smc → f.atBoundary = true ∧ SameBut ∅ b r.2.core
  earlyExit : r.1 = some .earlyExit → f.atBoundary = true ∧ SameBut ∅ b r.2.core
  exception : r.1 = some .exception → SameBut ∅ b r.2.core
  ok : r.1 = some .ok → SameBut {Reg.rip} b r.2.core

/-- Every instruction of a run of the block commits whole or not at all. -/
def WholeInsns (exec : Synthop) (cfg : Config) (junk : ℕ → Sfr) (limit : ℕ) : Prop :=
  ∀ n b g, Turns exec cfg junk limit f n b g →
    (g.running limit = true → g.Whole b (g.step exec cfg (junk n))) ∧
    (g.running limit = false → g.atBoundary = true ∧ SameBut ∅ b g.core)

/-- A turn that takes `op` keeps the instruction whole: a store that does not end it marks
no page that is watched, and a fault or a skip finds what was there before it. -/
structure Keeps (exec : Synthop) (cfg : Config) (junk : Sfr) (b : SeqCore) : Prop where
  marks : ∀ op, f.Runs cfg op → op.eom = false → f.core.storesBytes op = true →
    pageid (ofMfn junk.smcMfn) ≠ (f.takeOp op).rvp.mfnlo ∧
      pageid (ofMfn junk.smcMfn) ≠ (f.takeOp op).rvp.mfnhi
  faults : ∀ op, f.Runs cfg op → f.core.faults exec op = true → SameBut {Reg.flags} b f.core
  skips : ∀ op, f.Runs cfg op → f.core.skips exec op = true → SameBut {Reg.rip} b f.core

/-! ### The uops still to run -/

section Pending

variable {f} {b : Bool}

/-- What is left after the uop of this turn. -/
def rest (f : Frame) : List TransOp := f.buf.tail ++ f.bb.transops.drop (f.uopindex + 1)

theorem pending_eq (h : f.nextOp = some op) : f.pending = op :: f.rest := by
  unfold nextOp at h
  unfold pending rest
  cases hbuf : f.buf with
  | cons a buf =>
    rw [hbuf] at h
    obtain rfl := Option.some.inj h
    simp
  | nil =>
    rw [hbuf] at h
    obtain ⟨hlt, rfl⟩ := List.getElem?_eq_some_iff.1 h
    simp

theorem atBoundary_eq (h : Linked b f.pending true) : f.atBoundary = b := by
  unfold atBoundary
  cases hp : f.pending with
  | nil => rw [hp] at h; exact h.symm
  | cons a ops => rw [hp] at h; exact h.1

theorem nextOp_mem (h : f.nextOp = some op) : op ∈ f.buf ∨ op ∈ f.bb.transops := by
  unfold nextOp at h
  cases hbuf : f.buf with
  | cons a buf =>
    rw [hbuf] at h
    obtain rfl := Option.some.inj h
    exact .inl (List.mem_cons_self ..)
  | nil =>
    rw [hbuf] at h
    exact .inr (List.mem_of_getElem? h)

end Pending

/-! ### What a turn leaves -/

section Step

variable {f} {reg : UopResult} {sfr : Sfr} {junk : Sfr} {b : SeqCore}

theorem commitUop_rip (c : SeqCore) (h : op.rd ≠ Reg.rip) :
    (c.commitUop op reg sfr).arf Reg.rip = c.arf Reg.rip := by
  unfold SeqCore.commitUop
  split
  · rw [SeqCore.commitStore_arf]
  · split
    · exact SeqCore.writeResult_arf h.symm (by decide)
    · rfl

/-- Before the end of an instruction `rip` stays. -/
theorem commit_rip (heom : op.eom = false)
    (h : op.rd = Reg.rip → op.eom = true ∨ op.opcode = .opSt ∨ op.opcode = .opStA16) :
    (f.commit op reg sfr).core.arf Reg.rip = f.core.arf Reg.rip := by
  have hrip : (f.core.commitUop op reg sfr).arf Reg.rip = f.core.arf Reg.rip := by
    by_cases hrd : op.rd = Reg.rip
    · have hst := (h hrd).resolve_left (by rw [heom]; decide)
      unfold SeqCore.commitUop
      rw [if_pos hst, SeqCore.commitStore_arf]
    · exact commitUop_rip f.core hrd
  have hnext : ((f.core.commitUop op reg sfr).nextRip op reg) = f.core.commitUop op reg sfr := by
    unfold SeqCore.nextRip; rw [heom]; rfl
  unfold commit
  simp only [hnext, heom, Bool.false_eq_true, if_false]
  split
  · exact hrip
  · exact hrip

/-- The uops left after a commit. -/
theorem commit_pending (f : Frame) (c : SeqCore) (op : TransOp) (reg : UopResult) (sfr : Sfr) :
    ({ f.takeOp op with core := c }.commit op reg sfr).pending = f.rest := by
  unfold pending rest commit
  dsimp only
  rw [takeOp_buf, takeOp_bb, takeOp_uopindex]
  split
  · rename_i hbuf; simp [hbuf]
  · rfl

end Step

/-! ### The invariant of a run -/

section Inv

variable {f f₀ : Frame} {junk : ℕ → Sfr} {b c₀ : SeqCore} {n : ℕ}

/-- A split half, or its address generation. -/
structure Half (op : TransOp) : Prop where
  size : op.size ≤ 3
  rip : op.rd = Reg.rip → op.eom = true ∨ op.opcode = .opSt ∨ op.opcode = .opStA16
  cond : SeqCore.isMem op = true → op.cond = LdstAlign.lo.cond ∨ op.cond = LdstAlign.hi.cond

/-- What is so in the middle of an instruction. -/
structure Mid (cfg : Config) (limit : ℕ) (b : SeqCore) (f : Frame) : Prop where
  go : f.core.arf Reg.rip ≠ cfg.stopAtRip
  more : f.userInsns < limit
  flags : f.savedFlags = b.arf Reg.flags
  pages : f.rvp.mfnlo < 2 ^ 36 ∧ f.rvp.mfnhi < 2 ^ 36

structure Inv (cfg : Config) (limit : ℕ) (b : SeqCore) (f : Frame) : Prop where
  block : WholeBlock f.bb
  linked : Linked f.atBoundary f.pending true
  inBuf : f.buf ≠ [] → f.uopindex < f.bb.transops.length
  halves : ∀ op ∈ f.buf, Half op
  boundary : f.atBoundary = true → b = f.core
  mid : f.atBoundary = false → Mid cfg limit b f

/-- A split access links as the access does. -/
theorem splitUnaligned_linked (op : TransOp) : Linked op.som (splitUnaligned op) op.eom := by
  unfold splitUnaligned
  dsimp only
  split
  · exact ⟨rfl, rfl, rfl, rfl⟩
  · exact ⟨rfl, rfl, rfl, rfl⟩

theorem half_of_split {op' : TransOp} (hsize : op.size ≤ 3) (hrip : op.rd = Reg.rip → op.eom = true)
    (hmem : SeqCore.isMem op = true ∧ op.opcode ≠ .opMf) (h : op' ∈ splitUnaligned op) : Half op' := by
  have hadd : ¬(isload .opAdd || isstore .opAdd) = true := by decide
  have ht9 : Reg.temp9 ≠ Reg.rip := by decide
  have ht4 : Reg.temp4 ≠ Reg.rip := by decide
  have hag : ∀ (o : TransOp), o.opcode = .opAdd → o.size = 3 → o.rd = Reg.temp9 → Half o :=
    fun o ho hs hr => ⟨hs.le, fun h => absurd (hr.symm.trans h) ht9, fun h => absurd (by rw [← ho]; exact h) hadd⟩
  unfold splitUnaligned at h
  dsimp only at h
  split at h
  · simp only [List.mem_cons, List.not_mem_nil, or_false] at h
    rcases h with rfl | rfl | rfl
    · exact hag _ rfl rfl rfl
    · exact ⟨le_rfl, fun h => absurd h ht4, fun _ => .inl rfl⟩
    · exact ⟨hsize, fun h => .inl (hrip h), fun _ => .inr rfl⟩
  · rename_i hld
    have hst : op.opcode = .opSt ∨ op.opcode = .opStA16 := by
      obtain ⟨hmem, hmf⟩ := hmem
      rw [SeqCore.isMem, Bool.eq_false_iff.2 hld, Bool.false_or] at hmem
      cases ho : op.opcode <;> rw [ho] at hmem hmf <;>
        first | exact .inl rfl | exact .inr rfl | exact absurd rfl hmf | exact absurd hmem (by decide)
    simp only [List.mem_cons, List.not_mem_nil, or_false] at h
    rcases h with rfl | rfl | rfl
    · exact hag _ rfl rfl rfl
    · exact ⟨hsize, fun _ => .inr hst, fun _ => .inr rfl⟩
    · exact ⟨hsize, fun _ => .inr hst, fun _ => .inl rfl⟩

/-- A turn that goes on has split an access or committed a uop. -/
theorem step_none {junk : Sfr} (h : (f.step exec cfg junk).1 = none) : ∃ op, f.Runs cfg op ∧
    ((f.issuing op).issue exec junk op = .refetch ∧ (f.step exec cfg junk).2 =
        { f.takeOp op with core := f.issuing op, buf := splitUnaligned { op with unaligned := true } } ∨
      ∃ reg sfr, (f.issuing op).issue exec junk op = .completed reg sfr ∧ (f.step exec cfg junk).2 =
        { f.takeOp op with core := f.issuing op }.commit op reg sfr) := by
  have hturn := step_turn exec cfg junk f
  rw [h] at hturn
  generalize (f.step exec cfg junk).2 = g at hturn
  cases hturn with
  | refetch hr hi => exact ⟨_, hr, .inl ⟨hi, rfl⟩⟩
  | commit hr hi => exact ⟨_, hr, .inr ⟨_, _, hi, rfl⟩⟩

/-- What a uop that is taken relies on. -/
theorem Inv.taken (h : Inv cfg limit b f) (hop : f.nextOp = some op) : op.size ≤ 3 ∧
    (op.rd = Reg.rip → op.eom = true ∨ op.opcode = .opSt ∨ op.opcode = .opStA16) := by
  rcases nextOp_mem hop with hmem | hmem
  · exact ⟨(h.halves op hmem).size, (h.halves op hmem).rip⟩
  · exact ⟨h.block.size op hmem, fun hr => .inl (h.block.rip op hmem hr)⟩

/-- The uop taken starts an instruction just at a boundary. -/
theorem Inv.som (h : Inv cfg limit b f) (hop : f.nextOp = some op) :
    op.som = f.atBoundary ∧ Linked op.eom f.rest true := by
  have hlinked := h.linked
  rw [pending_eq hop] at hlinked
  exact hlinked

/-- In the middle of an instruction the flags saved, and the span, are those of its start. -/
theorem Inv.saved (h : Inv cfg limit b f) (hop : f.nextOp = some op) :
    (f.takeOp op).savedFlags = b.arf Reg.flags ∧
      (f.takeOp op).rvp.mfnlo < 2 ^ 36 ∧ (f.takeOp op).rvp.mfnhi < 2 ^ 36 := by
  obtain ⟨hsom, -⟩ := h.som hop
  unfold takeOp
  dsimp only
  cases hb : f.atBoundary with
  | true =>
    rw [if_pos (hsom.trans hb)]
    refine ⟨by rw [h.boundary hb], ?_, ?_⟩
    · exact Nat.mod_lt _ (by decide)
    · exact Nat.mod_lt _ (by decide)
  | false =>
    rw [if_neg (by rw [hsom, hb]; decide)]
    exact ⟨(h.mid hb).flags, (h.mid hb).pages⟩

/-- Outside a split the uop is one of the block, so it may be split. -/
theorem Inv.buf_of_refetch {junk : Sfr} (h : Inv cfg limit b f) (hop : f.nextOp = some op)
    (hissue : (f.issuing op).issue exec junk op = .refetch) :
    f.buf = [] ∧ op ∈ f.bb.transops := by
  have hcond := SeqCore.refetch_cond (h.taken hop).1 hissue
  cases hbuf : f.buf with
  | nil =>
    rcases nextOp_mem hop with hmem | hmem
    · rw [hbuf] at hmem; cases hmem
    · exact ⟨rfl, hmem⟩
  | cons a buf =>
    unfold nextOp at hop
    rw [hbuf] at hop
    obtain rfl := Option.some.inj hop
    have hhalf := h.halves a (by rw [hbuf]; exact List.mem_cons_self ..)
    rcases hhalf.cond hcond.1.1 with hc | hc
    · exact absurd hc hcond.2.1
    · exact absurd hc hcond.2.2

theorem base_of_mid {g : Frame} (h : g.atBoundary = false) : g.base b = b := by
  unfold base; rw [h]; rfl

theorem Inv.step {junk : Sfr} (h : Inv cfg limit b f) (hrun : f.running limit = true)
    (hgo : (f.step exec cfg junk).1 = none) :
    Inv cfg limit ((f.step exec cfg junk).2.base b) (f.step exec cfg junk).2 := by
  obtain ⟨hidx, hmore⟩ : f.uopindex < f.bb.transops.length ∧ f.userInsns < limit := by
    simpa [running] using hrun
  obtain ⟨op, hr, hcase⟩ := step_none hgo
  obtain ⟨hsize, hrip⟩ := h.taken hr.next
  obtain ⟨hsom, hrest⟩ := h.som hr.next
  obtain ⟨hflags, hpages⟩ := h.saved hr.next
  rcases hcase with ⟨hissue, heq⟩ | ⟨reg, sfr, hissue, heq⟩
  · -- a split happens only outside a split, and its uops link as the access did
    obtain ⟨hbuf, hmem⟩ := h.buf_of_refetch hr.next hissue
    rw [heq]
    set g : Frame := { f.takeOp op with
      core := f.issuing op, buf := splitUnaligned { op with unaligned := true } } with hg
    have hbb : g.bb = f.bb := takeOp_bb f op
    have hne : g.buf ≠ [] := by rw [hg]; unfold splitUnaligned; dsimp only; split <;> simp
    have hpending : g.pending = splitUnaligned { op with unaligned := true } ++ f.rest := by
      unfold pending rest
      rw [if_neg hne, hbuf, hbb]
      simp [hg]
    -- the access comes back as its uops, which start and end where it did
    have hlinked : Linked op.som g.pending true := by
      rw [hpending]
      exact linked_append.2 ⟨op.eom, splitUnaligned_linked { op with unaligned := true }, hrest⟩
    have hat : g.atBoundary = op.som := atBoundary_eq hlinked
    refine ⟨by rw [hbb]; exact h.block, by rw [hat]; exact hlinked, fun _ => ?_, fun op' hop' => ?_,
      fun hb => ?_, fun hb => ?_⟩
    · rw [hbb]
      simpa [hg] using hidx
    · exact half_of_split hsize (h.block.rip op hmem) (SeqCore.refetch_cond hsize hissue).1 hop'
    · unfold base; rw [hb]; rfl
    · rw [base_of_mid hb]
      exact ⟨by simpa [hg] using hr.go, by simpa [hg] using hmore, hflags, hpages⟩
  · rw [heq]
    set g : Frame := { f.takeOp op with core := f.issuing op }.commit op reg sfr with hg
    have hbb : g.bb = f.bb := takeOp_bb f op
    have hpending : g.pending = f.rest := commit_pending f _ op reg sfr
    have hlinked : Linked op.eom g.pending true := by rw [hpending]; exact hrest
    have hat : g.atBoundary = op.eom := atBoundary_eq hlinked
    have hbuf : g.buf = f.buf.tail := takeOp_buf f op
    refine ⟨by rw [hbb]; exact h.block, by rw [hat]; exact hlinked, fun hne => ?_, fun op' hop' => ?_,
      fun hb => ?_, fun hb => ?_⟩
    · -- within a split the block's index waits
      have hidx' : g.uopindex = f.uopindex := by
        rw [hbuf] at hne
        simp only [hg, commit, takeOp_buf, if_neg hne, takeOp_uopindex]
      rw [hbb, hidx']
      exact hidx
    · rw [hbuf] at hop'
      exact h.halves op' (List.mem_of_mem_tail hop')
    · unfold base; rw [hb]; rfl
    · rw [base_of_mid hb]
      -- inside an instruction, so this uop did not end one and neither counted nor moved `rip`
      have heom : op.eom = false := hat.symm.trans hb
      refine ⟨?_, ?_, hflags, hpages⟩
      · rw [hg, commit_rip heom hrip]
        simpa using hr.go
      · simpa [hg, commit, heom] using hmore

/-- A run of a block keeps the invariant. -/
theorem Turns.inv (hblock : WholeBlock f₀.bb) (hstart : f₀ = .start c₀ f₀.bb)
    (h : Turns exec cfg junk limit f₀ n b f) : Inv cfg limit b f := by
  induction h with
  | start =>
    have hpending : f₀.pending = f₀.bb.transops := by rw [hstart]; rfl
    have hbuf : f₀.buf = [] := by rw [hstart]; rfl
    have hlinked : Linked true f₀.pending true := by rw [hpending]; exact hblock.linked
    have hat : f₀.atBoundary = true := atBoundary_eq hlinked
    refine ⟨hblock, by rw [hat]; exact hlinked, fun hne => absurd hbuf hne, fun op hop => ?_,
      fun _ => rfl, fun hb => ?_⟩
    · rw [hbuf] at hop; cases hop
    · rw [hat] at hb; cases hb
  | turn h hrun hgo ih => exact ih.step hrun hgo

/-! ### Marks -/

/-- A commit marks one page, and only if it stores something. -/
theorem isdirty_commit {junk sfr : Sfr} {reg : UopResult} {page : ℕ} (hpage : page < 2 ^ 36)
    (hissue : (f.issuing op).issue exec junk op = .completed reg sfr) :
    ({ f.takeOp op with core := f.issuing op }.commit op reg sfr).core.space.isdirty page =
      if f.core.storesBytes op = true ∧ page = pageid (ofMfn junk.smcMfn) then true
      else f.core.space.isdirty page := by
  rw [commit_space, ← issuing_space f op]
  dsimp only
  by_cases hst : op.opcode = .opSt ∨ op.opcode = .opStA16
  · have hfp : (f.issuing op).fpUnavailable op = false := by
      by_contra h
      rw [Bool.not_eq_false] at h
      have hfaults : (f.issuing op).faults exec op = true := by simp [SeqCore.faults, h]
      obtain ⟨ctx, hexc, -⟩ := SeqCore.issue_of_faults junk hfaults
      rw [hissue] at hexc; cases hexc
    have hfp' : f.core.fpUnavailable op = false := by rw [← fpUnavailable_issuing, hfp]
    have hmem : SeqCore.isMem op = true ∧ op.opcode ≠ .opMf := by
      rcases hst with h | h <;> simp only [SeqCore.isMem, h] <;> decide
    have hst' : (op.opcode == .opSt || op.opcode == .opStA16) = true := by simpa using hst
    -- a store that completes had an address, and marks what `smcMfn` happens to hold
    have hmemissue := SeqCore.issue_mem exec junk hfp hmem.1 hmem.2
    cases hres : ((f.issuing op).addrgen op).result with
    | error r =>
      obtain ⟨e, pfec⟩ := r
      simp only [hres, hissue] at hmemissue
      split at hmemissue
      · cases hmemissue
      · obtain ⟨ctx, hctx, -⟩ := hmemissue; cases hctx
    | ok p =>
      have hdata : (f.issuing op).rcdata op = f.core.rcdata op := by
        simp only [SeqCore.rcdata, issuing_arf]
      have hstore := SeqCore.issue_store exec junk hst hfp hres
      rw [hissue, Issued.completed.injEq, hdata, addrgen_issuing] at hstore
      obtain ⟨-, rfl⟩ := hstore
      rw [addrgen_issuing] at hres
      have hbytes : f.core.storesBytes op =
          ((storeBytes op.cond op.size (f.core.addrgen op).origaddr (f.core.rcdata op)).1 != 0) := by
        simp only [SeqCore.storesBytes, hst', hfp', hres, Bool.not_false, Bool.true_and]
      unfold SeqCore.commitUop SeqCore.commitStore
      rw [if_pos hst, hbytes]
      simp only [bne_iff_ne]
      by_cases hmask : (storeBytes op.cond op.size (f.core.addrgen op).origaddr (f.core.rcdata op)).1 = 0
      · rw [if_pos hmask, if_neg (fun h => h.1 hmask)]
      · rw [if_neg hmask]
        simp only [hmask, ne_eq, not_false_eq_true, true_and]
        rw [isdirty_setdirty _ hpage]
        congr 1
        split
        · rename_i q hq
          cases q <;> rfl
        · rfl
  · have hno : f.core.storesBytes op = false := by
      simp only [not_or] at hst
      simp [SeqCore.storesBytes, hst]
    unfold SeqCore.commitUop
    rw [if_neg hst, hno]
    simp only [Bool.false_eq_true, false_and, if_false]
    split
    · rw [SeqCore.writeResult_space]
    · rfl

/-- In the middle of an instruction no page of it is marked. -/
theorem Turns.clean (hinv : ∀ n b f, Turns exec cfg junk limit f₀ n b f → Inv cfg limit b f)
    (hkeeps : ∀ n b f, Turns exec cfg junk limit f₀ n b f → f.running limit = true →
      f.Keeps exec cfg (junk n) b)
    (h : Turns exec cfg junk limit f₀ n b f) (hstart : f₀.atBoundary = true)
    (hmid : f.atBoundary = false) : f.codeDirty = false := by
  cases h with
  | start => rw [hstart] at hmid; cases hmid
  | @turn n b g h hrun hgo =>
    have hg := hinv n b g h
    obtain ⟨op, hr, hcase⟩ := step_none hgo
    have hclean := hr.clean
    obtain ⟨-, hlo, hhi⟩ := hg.saved hr.next
    rcases hcase with ⟨hissue, heq⟩ | ⟨reg, sfr, hissue, heq⟩
    · rw [heq]
      simp only [codeDirty, issuing_space, takeOp_space] at hclean ⊢
      exact hclean
    · rw [heq] at hmid ⊢
      have heom : op.eom = false := by
        rw [← hmid]
        refine (atBoundary_eq ?_).symm
        rw [commit_pending]
        exact (hg.som hr.next).2
      have hmarks := (hkeeps n b g h hrun).marks op hr heom
      simp only [codeDirty, takeOp_space, Bool.or_eq_false_iff] at hclean ⊢
      have hkeep : ∀ page, page < 2 ^ 36 → (g.core.storesBytes op = true →
          pageid (ofMfn (junk n).smcMfn) ≠ page) → g.core.space.isdirty page = false →
          ({ g.takeOp op with core := g.issuing op }.commit op reg sfr).core.space.isdirty page = false := by
        intro page hpage hne hpageclean
        rw [isdirty_commit hpage hissue, if_neg]
        · exact hpageclean
        · rintro ⟨hst, heq⟩
          exact hne hst heq.symm
      exact ⟨hkeep _ hlo (fun hst => (hmarks hst).1) hclean.1,
        hkeep _ hhi (fun hst => (hmarks hst).2) hclean.2⟩

/-- A write of `s` is not seen outside `s`. -/
theorem sameBut_update {c c' : SeqCore} {s : Reg} {v : W64} (harf : c'.arf = Function.update c.arf s v)
    (hbytes : c'.space.bytes = c.space.bytes) (hhost : c'.ctx.hostBytes = c.ctx.hostBytes) :
    SameBut {s} b c' ↔ SameBut {s} b c := by
  have harf' : ∀ r, r ∉ ({s} : Set Reg) → c'.arf r = c.arf r := by
    intro r hr
    rw [harf]
    exact Function.update_of_ne hr _ _
  constructor
  · rintro ⟨hregs, hb, hh⟩
    exact ⟨fun r hg hr => by rw [← harf' r hr, hregs r hg hr], by rw [← hb, hbytes], by rw [← hh, hhost]⟩
  · rintro ⟨hregs, hb, hh⟩
    exact ⟨fun r hg hr => by rw [harf' r hr, hregs r hg hr], by rw [← hb, hbytes], by rw [← hh, hhost]⟩

/-- An exception restores the flags, and nothing else of what the uops before it changed. -/
theorem raise_same {ctx : Context} {saved : W64} (hctx : ctx.hostBytes = f.core.ctx.hostBytes)
    (hsaved : saved = b.arf Reg.flags) :
    SameBut ∅ b ((f.issuing op).raise ctx saved) ↔ SameBut {Reg.flags} b f.core := by
  have harf : ((f.issuing op).raise ctx saved).arf = Function.update f.core.arf Reg.flags saved := by
    rw [← issuing_arf f op]; rfl
  have hbytes : ((f.issuing op).raise ctx saved).space.bytes = f.core.space.bytes := by
    rw [← issuing_space f op]; rfl
  have hflags : ((f.issuing op).raise ctx saved).arf Reg.flags = b.arf Reg.flags := by
    rw [harf, Function.update_self, hsaved]
  rw [← sameBut_update harf hbytes hctx]
  constructor
  · rintro ⟨hregs, hb, hh⟩
    exact ⟨fun r hg _ => hregs r hg (Set.notMem_empty r), hb, hh⟩
  · rintro ⟨hregs, hb, hh⟩
    refine ⟨fun r hg _ => ?_, hb, hh⟩
    by_cases hr : r = Reg.flags
    · rw [hr, hflags]
    · exact hregs r hg hr

/-- A skipped instruction moves `rip` alone. -/
theorem skip_same : SameBut {Reg.rip} b ({ f.takeOp op with core := f.issuing op }.skipBlock.core) ↔
    SameBut {Reg.rip} b f.core := by
  have harf : { f.takeOp op with core := f.issuing op }.skipBlock.core.arf = Function.update f.core.arf
      Reg.rip (f.core.arf Reg.rip + BitVec.ofNat 64 (f.issuing op).bytesInCurrentInsn) := by
    rw [← issuing_arf f op]; rfl
  have hbytes : { f.takeOp op with core := f.issuing op }.skipBlock.core.space.bytes =
      f.core.space.bytes := by
    rw [← issuing_space f op]; rfl
  have hhost : { f.takeOp op with core := f.issuing op }.skipBlock.core.ctx.hostBytes =
      f.core.ctx.hostBytes := by
    have hissuing : (f.issuing op).ctx.hostBytes = f.core.ctx.hostBytes := by rw [issuing_ctx]
    exact hissuing
  exact sameBut_update harf hbytes hhost

theorem invalidatePage_bytes (c : BasicBlockCache) (m : AddressSpace) (mfn : ℕ) :
    (c.invalidatePage m mfn).2.1.bytes = m.bytes := by
  unfold BasicBlockCache.invalidatePage
  split
  · rfl
  · dsimp only
    split <;> rfl

/-- Dropping modified code is not seen by the program. -/
theorem invalidate_same (f : Frame) (op : TransOp) :
    SameBut ∅ f.core (f.takeOp op).invalidateSmc.core := by
  refine ⟨fun r _ _ => ?_, ?_, ?_⟩
  · rw [← takeOp_arf f op]; rfl
  · unfold invalidateSmc
    dsimp only
    split
    · rw [invalidatePage_bytes, invalidatePage_bytes, takeOp_space]
    · rw [invalidatePage_bytes, takeOp_space]
  · rw [← takeOp_ctx f op]; rfl

/-- The span watched is set at the start of an instruction only. -/
theorem Inv.codeDirty_takeOp (h : Inv cfg limit b f) (hop : f.nextOp = some op)
    (hmid : f.atBoundary = false) : (f.takeOp op).codeDirty = f.codeDirty := by
  have hsom := (h.som hop).1
  unfold codeDirty takeOp
  simp only [hsom, hmid, Bool.false_eq_true, if_false]

/-- In a run that keeps instructions whole, each exit leaves them whole. -/
theorem Inv.whole_of_keeps {junk : Sfr} (h : Inv cfg limit b f) (hrun : f.running limit = true)
    (hkeeps : f.Keeps exec cfg junk b) (hclean : f.atBoundary = false → f.codeDirty = false) :
    f.Whole b (f.step exec cfg junk) := by
  have hturn := step_turn exec cfg junk f
  generalize f.step exec cfg junk = r at hturn
  obtain ⟨res, g⟩ := r
  dsimp only at hturn
  cases hturn with
  | stop hstop =>
    have hb : f.atBoundary = true := by
      by_contra hmid
      exact (h.mid (Bool.not_eq_true _ ▸ hmid)).go hstop
    refine ⟨nofun, fun _ => ⟨hb, ?_⟩, nofun, nofun⟩
    rw [h.boundary hb]
    exact .refl _ _
  | done hdone =>
    -- the loop runs only while there is a uop
    exfalso
    have hidx : f.uopindex < f.bb.transops.length := by
      simp only [running, Bool.and_eq_true, decide_eq_true_eq] at hrun
      exact hrun.1
    unfold nextOp at hdone
    split at hdone
    · cases hdone
    · rw [List.getElem?_eq_getElem hidx] at hdone; cases hdone
  | @smc op ht hdirty =>
    have hb : f.atBoundary = true := by
      by_contra hmid
      rw [Bool.not_eq_true] at hmid
      rw [h.codeDirty_takeOp ht.next hmid, hclean hmid] at hdirty
      cases hdirty
    refine ⟨fun _ => ⟨hb, ?_⟩, nofun, nofun, nofun⟩
    rw [h.boundary hb]
    exact invalidate_same f _
  | exception hr hi =>
    obtain ⟨hfaults, hhost⟩ := SeqCore.faults_of_issue hi
    rw [faults_issuing] at hfaults
    rw [issuing_ctx] at hhost
    exact ⟨nofun, nofun,
      fun _ => (raise_same hhost (h.saved hr.next).1).2 (hkeeps.faults _ hr hfaults), nofun⟩
  | refetch hr hi => exact ⟨nofun, nofun, nofun, nofun⟩
  | skip hr hi =>
    have hskips := SeqCore.skips_of_issue hi
    rw [skips_issuing] at hskips
    exact ⟨nofun, nofun, nofun, fun _ => skip_same.2 (hkeeps.skips _ hr hskips)⟩
  | commit hr hi => exact ⟨nofun, nofun, nofun, nofun⟩

/-- A mark on a page that is watched ends the block in the middle of an instruction. -/
theorem Inv.smc_of_dirty (exec : Synthop) (junk : Sfr) (h : Inv cfg limit b f) (hrun : f.running limit = true)
    (hmid : f.atBoundary = false) (hdirty : f.codeDirty = true) :
    (f.step exec cfg junk).1 = some .smc := by
  have hidx : f.uopindex < f.bb.transops.length := by
    simp only [running, Bool.and_eq_true, decide_eq_true_eq] at hrun
    exact hrun.1
  have hop : ∃ op, f.nextOp = some op := by
    unfold nextOp
    split
    · exact ⟨_, rfl⟩
    · exact ⟨_, List.getElem?_eq_getElem hidx⟩
  obtain ⟨op, hop⟩ := hop
  rw [step_smc_iff ⟨(h.mid hmid).go, hop⟩, h.codeDirty_takeOp hop hmid]
  exact hdirty

/-- A block is left only at an instruction boundary. -/
theorem Inv.boundary_of_left (h : Inv cfg limit b f) (hleft : f.running limit = false) :
    f.atBoundary = true := by
  by_contra hmid
  rw [Bool.not_eq_true] at hmid
  have hmore := (h.mid hmid).more
  have hidx : f.uopindex < f.bb.transops.length := by
    by_cases hbuf : f.buf = []
    · by_contra hge
      have hpending : f.pending = [] := by
        unfold pending
        rw [if_pos hbuf, hbuf, List.drop_eq_nil_of_le (Nat.le_of_not_lt hge)]
        rfl
      unfold atBoundary at hmid
      rw [hpending] at hmid
      cases hmid
    · exact h.inBuf hbuf
  simp [running, hidx, hmore] at hleft

/-- A turn keeps its instruction whole if it and the turn after it leave instructions whole. -/
theorem Inv.keeps_of_whole {junk junk' : Sfr} (h : Inv cfg limit b f) (hrun : f.running limit = true)
    (hwhole : f.Whole b (f.step exec cfg junk))
    (hnext : (f.step exec cfg junk).1 = none → (f.step exec cfg junk).2.running limit = true →
      (f.step exec cfg junk).2.Whole ((f.step exec cfg junk).2.base b)
        ((f.step exec cfg junk).2.step exec cfg junk')) :
    f.Keeps exec cfg junk b := by
  refine ⟨fun op hr heom hst => ?_, fun op hr hfaults => ?_, fun op hr hskips => ?_⟩
  · obtain ⟨reg, sfr, hissue⟩ := issue_of_storesBytes exec junk hst
    have hstep : f.step exec cfg junk =
        (none, { f.takeOp op with core := f.issuing op }.commit op reg sfr) := by
      rw [hr.step_eq, hissue]
    have hinv := h.step hrun (by rw [hstep])
    rw [hstep] at hinv hnext
    set g : Frame := { f.takeOp op with core := f.issuing op }.commit op reg sfr with hg
    have hmid : g.atBoundary = false := by
      rw [← heom]
      refine atBoundary_eq ?_
      rw [hg, commit_pending]
      exact (h.som hr.next).2
    have hrun' : g.running limit = true := by
      by_contra hleft
      rw [hinv.boundary_of_left (Bool.not_eq_true _ ▸ hleft)] at hmid
      cases hmid
    -- a mark on either page would end the block here, in the middle of the instruction
    have hclean : g.codeDirty = false := by
      by_contra hdirty
      have hsmc := hinv.smc_of_dirty exec junk' hrun' hmid (Bool.not_eq_false _ ▸ hdirty)
      rw [((hnext rfl hrun').smc hsmc).1] at hmid
      cases hmid
    obtain ⟨-, hlo, hhi⟩ := h.saved hr.next
    have hmark : ∀ page, page < 2 ^ 36 → g.core.space.isdirty page = false →
        pageid (ofMfn junk.smcMfn) ≠ page := by
      intro page hpage hpageclean heq
      rw [hg, isdirty_commit hpage hissue, if_pos ⟨hst, heq.symm⟩] at hpageclean
      cases hpageclean
    simp only [codeDirty, Bool.or_eq_false_iff] at hclean
    exact ⟨hmark _ hlo hclean.1, hmark _ hhi hclean.2⟩
  · rw [← faults_issuing] at hfaults
    obtain ⟨ctx, hissue, hhost⟩ := SeqCore.issue_of_faults junk hfaults
    rw [issuing_ctx] at hhost
    rw [hr.step_eq, hissue] at hwhole
    exact (raise_same hhost (h.saved hr.next).1).1 (hwhole.exception rfl)
  · rw [← skips_issuing] at hskips
    rw [hr.step_eq, SeqCore.issue_of_skips junk hskips] at hwhole
    exact skip_same.1 (hwhole.ok rfl)

end Inv

/-- **An instruction is done whole or not at all** in a run of a block exactly when no turn
marks a page of an instruction that is under way, and no uop raises an exception, or skips,
after its instruction has changed something. -/
theorem wholeInsns_iff (exec : Synthop) (cfg : Config) (junk : ℕ → Sfr) (limit : ℕ) (c : SeqCore)
    {bb : BasicBlock} (hblock : WholeBlock bb) :
    (start c bb).WholeInsns exec cfg junk limit ↔
      ∀ n b f, Turns exec cfg junk limit (start c bb) n b f → f.running limit = true →
        f.Keeps exec cfg (junk n) b := by
  have hinv : ∀ n b f, Turns exec cfg junk limit (start c bb) n b f → Inv cfg limit b f :=
    fun n b f h => h.inv hblock rfl
  have hstart : (start c bb).atBoundary = true := atBoundary_eq hblock.linked
  constructor
  · intro hwhole n b f h hrun
    exact (hinv n b f h).keeps_of_whole hrun ((hwhole n b f h).1 hrun) fun hgo hrun' =>
      (hwhole (n + 1) _ _ (h.turn hrun hgo)).1 hrun'
  · intro hkeeps n b f h
    have hf := hinv n b f h
    refine ⟨fun hrun => hf.whole_of_keeps hrun (hkeeps n b f h hrun)
      fun hmid => h.clean hinv hkeeps hstart hmid, fun hleft => ?_⟩
    have hb := hf.boundary_of_left hleft
    refine ⟨hb, ?_⟩
    rw [hf.boundary hb]
    exact .refl _ _

/-- `execute` ends as the turns from its start do. -/
theorem execute_turns {junk : ℕ → Sfr} {f₀ f g : Frame} {b : SeqCore} {r : SeqExec} :
    ∀ (N : ℕ) {n : ℕ} {junk' : ℕ → Sfr}, Turns exec cfg junk' limit f₀ n b f →
      (∀ i < N, junk' (n + i) = junk (N - 1 - i)) → f.execute exec cfg junk limit N = some (r, g) →
      ∃ n b f, Turns exec cfg junk' limit f₀ n b f ∧
        if f.running limit then f.step exec cfg (junk' n) = (some r, g)
        else r = f.leave limit ∧ g = f := by
  intro N
  induction N generalizing f b with
  | zero => intro n junk' _ _ h; cases h
  | succ N ih =>
    intro n junk' ht hjunk h
    have hnow : junk' n = junk N := hjunk 0 (by omega)
    unfold execute at h
    cases hrun : f.running limit with
    | false =>
      rw [hrun] at h
      obtain ⟨rfl, rfl⟩ := Prod.mk.inj (Option.some.inj h)
      exact ⟨n, b, f, ht, by rw [hrun]; exact ⟨rfl, rfl⟩⟩
    | true =>
      rw [hrun, if_pos rfl, ← hnow] at h
      cases hstep : (f.step exec cfg (junk' n)).1 with
      | some r' =>
        refine ⟨n, b, f, ht, ?_⟩
        rw [hrun, if_pos rfl]
        generalize f.step exec cfg (junk' n) = s at h hstep ⊢
        obtain ⟨s, g'⟩ := s
        obtain rfl : s = some r' := hstep
        obtain ⟨rfl, rfl⟩ := Prod.mk.inj (Option.some.inj h)
        rfl
      | none =>
        have ht' := ht.turn hrun hstep
        generalize f.step exec cfg (junk' n) = s at h hstep ht'
        obtain ⟨s, g'⟩ := s
        obtain rfl : s = none := hstep
        refine ih ht' (fun i hi => ?_) h
        rw [show n + 1 + i = n + (i + 1) by omega, hjunk (i + 1) (by omega)]
        congr 1
        omega

/-- The block of `mov [rax], rcx` holds whole instructions. -/
theorem wholeBlock_storeInsn : WholeBlock (blockOf [storeInsn]) := by
  refine ⟨⟨rfl, rfl⟩, ?_, ?_⟩
  · decide
  · decide

/-- Page 1 may be read and executed, page 2 may be written. -/
def halfWritable : AddressSpace :=
  (HostOp.exec (HostOp.exec (.init true) (.map 0x1000 0x1000 ⟨true, false, true⟩ 8)).space
    (.map 0x2000 0x1000 ⟨true, true, false⟩ 8)).space

/-- The address generation of a split adds its operands. -/
def addOnly : Synthop := fun _ i => ⟨i.ra + i.rb, 0⟩

/-- `mov [rax], rcx` with `rax = 0x1ffc` and `rcx` all ones. -/
def crossing : Frame :=
  .start (coreWith halfWritable fun r => if r = Reg.rax then 0x1ffc else if r = Reg.rcx then -1 else 0)
    (blockOf [storeInsn])

/-- A store into page 2 from the end of page 1, which may not be written, faults after the
half on page 2 is committed. -/
theorem not_wholeInsns : ¬ ∀ exec cfg junk limit c bb, WholeBlock bb →
    (start c bb).WholeInsns exec cfg junk limit := by
  intro h
  have hw : crossing.WholeInsns addOnly ⟨0, 0⟩ (fun _ => Sfr.zero) 1 :=
    h addOnly ⟨0, 0⟩ (fun _ => Sfr.zero) 1 _ _ wholeBlock_storeInsn
  -- the split, its address generation and its high half
  have h₁ : Turns addOnly ⟨0, 0⟩ (fun _ => Sfr.zero) 1 crossing 0 crossing.core crossing := .start
  have h₂ := h₁.turn (by decide +kernel) (by decide +kernel)
  have h₃ := h₂.turn (by decide +kernel) (by decide +kernel)
  have h₄ := h₃.turn (by decide +kernel) (by decide +kernel)
  have hsame := (((hw _ _ _ h₄).1 (by decide +kernel)).exception (by decide +kernel)).bytes
  exact absurd (congrFun hsame 0x2000) (by decide +kernel)

end Frame
end X86Sim.Seq
