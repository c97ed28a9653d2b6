import X86Sim.Proof.ArchValues

/-!
# Only commits are seen

Uops are issued long before it is known whether they belong to the program, and many of
them do not. `Unseen`: a change that no program sees, to no architectural register and to
no byte or protection of memory. The dirty marks of pages do not count: a fetch clears
them when it decodes a page again.

* `Step.unseen`: every small step but a retirement.
* `seen_in_commit`: in every run only the commit stage changes what a program sees, and
  that by the retirement of whole instructions from the head of the buffer.
-/

namespace X86Sim.Ooo

open Relation

/-- The same pages with the same contents and protections. -/
def SameMemory (m m' : AddressSpace) : Prop := m' = { m with dirtymap := m'.dirtymap }

/-- The same architectural registers and memory. -/
structure Unseen (c c' : Core) : Prop where
  arf : c'.ctx.commitarf = c.ctx.commitarf
  space : SameMemory c.mach.space c'.mach.space

/-- The changes of the commit stage. -/
inductive SeenStep : Core → Core → Prop
  | unseen {c c' : Core} (h : Unseen c c') : SeenStep c c'
  /-- The head commits; its instruction is complete, and no uop of it has an exception. -/
  | retire {c : Core} (i : ℕ) {pre : List ℕ} {e : ℕ} (hhead : c.order.head? = some i)
      (hinsn : c.Head pre e) (hready : ∀ k ∈ pre ++ [e], c.Committable k) : SeenStep c (c.retire i)

section

variable {c c' c'' : Core} {i j k : ℕ} {cl : Cluster} {X Y l : List ℕ} {e : ℕ} {inp : CycleInput}
  {m m' : AddressSpace}

theorem SameMemory.refl (m : AddressSpace) : SameMemory m m := rfl

theorem SameMemory.trans {m'' : AddressSpace} (h : SameMemory m m') (h' : SameMemory m' m'') :
    SameMemory m m'' := by
  unfold SameMemory at *
  rw [h', h]

namespace Unseen

theorem refl (c : Core) : Unseen c c := ⟨rfl, rfl⟩

theorem trans (h : Unseen c c') (h' : Unseen c' c'') : Unseen c c'' :=
  ⟨h'.arf.trans h.arf, h.space.trans h'.space⟩

theorem of_eq (hctx : c'.ctx.commitarf = c.ctx.commitarf) (hspace : c'.mach.space = c.mach.space) :
    Unseen c c' := ⟨hctx, hspace ▸ .refl _⟩

end Unseen

theorem Tick.unseen (h : Tick c c') : Unseen c c' := .of_eq (by rw [h.ctx]) (by rw [h.mach])

theorem Touch.unseen (h : Touch i c c') : Unseen c c' := .of_eq (by rw [h.ctx]) (by rw [h.mach])

/-- A recovery moves entries between lists and resets their loads and stores. -/
theorem unseen_redispatchLoop (this : ℕ) (l depmap : List ℕ) (prev : Option ℕ) :
    Unseen c (Core.redispatchLoop this l depmap prev c) := by
  induction l generalizing c depmap prev with
  | nil => exact .refl c
  | cons i l ih =>
    unfold Core.redispatchLoop
    split
    · have h1 : Unseen c (c.redispatch i prev) := .of_eq rfl rfl
      exact h1.trans (ih (c := c.redispatch i prev) _ _)
    · exact ih _ _

/-- An annulment walks back over entries that have committed nothing. -/
theorem unseen_annul (rc : ℕ → Bool) (hring : c.ring.WF ROB_SIZE) (i : ℕ) (keep : Bool) (rip : W64)
    (hstart : c.annulStart i keep = c.ring.tail ∨ c.annulStart i keep ∈ c.order) :
    Unseen c ((c.annul rc i keep).2.resetFetchUnit rip) := by
  have hreset : ∀ c₁ : Core, Unseen c₁ (c₁.resetFetchUnit rip) := fun c₁ =>
    .of_eq (by rw [(fetchReset c₁ rip).ctx]) (by rw [(fetchReset c₁ rip).mach])
  unfold Core.annul
  dsimp only
  split
  · exact hreset c
  · rename_i hne
    obtain ⟨X, Y, hord⟩ := List.append_of_mem (hstart.resolve_left hne)
    refine Unseen.trans ?_ (hreset _)
    exact (annulFrom_ind (P := Unseen c) rc hring hord (fun _ _ => .of_eq rfl rfl)
      fun _ _ _ _ _ h => h.trans (.of_eq rfl rfl)).2.2

/-- The end of an issue writes a physical register, not an architectural one. -/
theorem unseen_finishIssue (c : Core) (i : ℕ) (cl : Cluster) (r : UopResult) :
    Unseen c (c.finishIssue i cl r) := by
  rw [finishIssue_eq]
  exact .of_eq rfl rfl

/-- Whatever a uop has issued as, its effect waits for the commit. -/
theorem Executed.unseen {inq : ℕ → Option Cluster} {res : IssueResult} {r : UopResult}
    (hI : Issuing i cl (.issued cl) inq c) (hex : Executed inp i cl c res r c') : Unseen c c' := by
  cases hex with
  | done ht => exact ht.unseen
  | hit n ht => exact ht.unseen.trans (.of_eq rfl rfl)
  | miss ht => exact ht.unseen.trans (.of_eq rfl rfl)
  | fence ht => exact ht.unseen.trans (.of_eq rfl rfl)
  | replay ht => exact ht.unseen.trans (.of_eq rfl rfl)
  | replaySecondPhase ht => exact ht.unseen.trans (.of_eq rfl rfl)
  | @unaligned c₁ r ht =>
    have h1 := hI.touch ht
    have hhint : Unseen c₁ (c₁.setUnalignedHint (c₁.uop i).rip true) := .of_eq rfl rfl
    refine (ht.unseen.trans hhint).trans
      (unseen_annul (c := c₁.setUnalignedHint (c₁.uop i).rip true) _ h1.base.sched.ring_wf _ _ _ ?_)
    exact .inr (h1.annulStart_order _)
  | @«alias» c₁ r j k chunk ht _ _ _ =>
    have hmark : Unseen c₁ (c₁.aliasMark i j k) := .of_eq rfl rfl
    exact (ht.unseen.trans hmark).trans (unseen_redispatchLoop i _ _ _)

/-- A mispredicted branch annuls what follows it and turns the fetch. -/
theorem unseen_mispredict {st : RobState} (h : Base c) (hst : c.sched.lists.current i = some st)
    (hne : st ≠ .free) (heom : (c.uop i).op.eom = true) (inp : CycleInput) (rip : W64) :
    Unseen c (c.mispredict inp i rip) := by
  have hi : i ∈ c.order := h.sched.mem_order hst hne
  have hcorrect : Unseen c (c.correctUop i rip) := .of_eq rfl rfl
  refine hcorrect.trans (unseen_annul (c := c.correctUop i rip) _ h.sched.ring_wf _ _ _ ?_)
  exact annulStart_correctUop h hi heom rip

/-- A turn of the issue loop is not seen: a result, a replay, a split, a violation or a misprediction. -/
theorem Turn.unseen (h : Base c) (ht : Turn inp cl c c') : Unseen c c' := by
  have hissued : ∀ {i slot fu q}, Unseen c ((c.takeSlot cl slot q).startIssue i cl fu) := .of_eq rfl rfl
  cases ht with
  | idle => exact .refl c
  | noFu hp => exact .of_eq rfl rfl
  | back hp hres hex => exact hissued.trans (hex.unseen (h.issuing hp))
  | completed hp hex => exact (hissued.trans (hex.unseen (h.issuing hp))).trans (unseen_finishIssue _ _ _ _)
  | @mispredict i slot fu q r c₁ hp hex hbr hinv =>
    obtain ⟨st, hne, hI, hst, hmiss⟩ := (h.issuing hp).executed hex
    have hmf : (c₁.uop i).op.opcode ≠ .opMf := by
      intro hmf
      rw [hmf] at hbr
      exact absurd hbr (by decide)
    have hbase : Base (c₁.finishIssue i cl r) := hI.finishIssue hne hmiss
    have hstate : (c₁.finishIssue i cl r).sched.lists.current i = some st := by
      rw [finishIssue_lists hinv hmf]; exact hI.state
    refine ((hissued.trans (hex.unseen (h.issuing hp))).trans (unseen_finishIssue _ _ _ _)).trans
      (unseen_mispredict hbase hstate hne ?_ inp _)
    refine (hbase.ops i (hbase.sched.mem_order hstate hne)).branch_eom ?_
    rw [finishIssue_eq]; exact hbr

/-! ### The fetch unit -/

/-- An invalidation clears marks only. -/
theorem sameMemory_invalidatePage (bbcache : BasicBlockCache) (m : AddressSpace) (mfn : ℕ) :
    SameMemory m (bbcache.invalidatePage m mfn).2.1 := by
  unfold BasicBlockCache.invalidatePage
  split
  · exact .refl m
  · dsimp only
    split <;> exact rfl

/-- So does the one before a translation. -/
theorem sameMemory_preInvalidate (bbcache : BasicBlockCache) (m : AddressSpace) (mfn : ℕ) :
    SameMemory m (bbcache.preInvalidate m mfn).2.1 := by
  unfold BasicBlockCache.preInvalidate
  split
  · exact sameMemory_invalidatePage bbcache m mfn
  · exact .refl m

/-- A new block clears the marks of its pages. -/
theorem sameMemory_insert (bbcache : BasicBlockCache) (m : AddressSpace) (bb : BasicBlock) :
    SameMemory m (bbcache.insert m bb).1 := by
  unfold BasicBlockCache.insert
  dsimp only
  split <;> exact rfl

/-- A translation reads memory, and changes marks only. -/
theorem sameMemory_translate (bbcache : BasicBlockCache) (dec : Decoder) (m : AddressSpace)
    (rvp : RIPVirtPhys) : SameMemory m (bbcache.translate dec m rvp).2.1 := by
  have hlo := sameMemory_preInvalidate bbcache m rvp.mfnlo
  unfold BasicBlockCache.translate
  generalize bbcache.preInvalidate m rvp.mfnlo = r at hlo ⊢
  obtain ⟨ok, m₁, cache₁⟩ := r
  cases ok with
  | false => exact hlo
  | true =>
    have hhi := sameMemory_preInvalidate cache₁ m₁ rvp.mfnhi
    dsimp only
    generalize cache₁.preInvalidate m₁ rvp.mfnhi = r at hhi ⊢
    obtain ⟨ok, m₂, cache₂⟩ := r
    cases ok with
    | false => exact hlo.trans hhi
    | true =>
      dsimp only
      split
      · exact hlo.trans hhi
      · exact (hlo.trans hhi).trans (sameMemory_insert cache₂ m₂ _)

/-- A fetch translates at most one block. -/
theorem sameMemory_fetchOrTranslate (c : Core) (dec : Decoder) :
    SameMemory c.mach.space (c.fetchOrTranslateBasicBlock dec).mach.space := by
  have hrelease : c.releaseBlock.mach.space = c.mach.space := by
    unfold Core.releaseBlock
    split <;> rfl
  unfold Core.fetchOrTranslateBasicBlock
  dsimp only
  generalize c.releaseBlock = c₁ at hrelease ⊢
  rw [← hrelease]
  cases c₁.mach.bbcache.get c₁.fetch.fetchrip with
  | some b => exact .refl _
  | none =>
    have h := sameMemory_translate c₁.mach.bbcache dec c₁.mach.space c₁.fetch.fetchrip
    dsimp only
    generalize c₁.mach.bbcache.translate dec c₁.mach.space c₁.fetch.fetchrip = r at h ⊢
    cases hr : r.1 with
    | none => exact h
    | some bb => exact h

/-- A turn of the fetch loop adds uops to the fetch queue, from blocks it has translated. -/
theorem sameMemory_fetchTurn (c : Core) (dec : Decoder) (inp : CycleInput) (k : ℕ) :
    SameMemory c.mach.space (c.fetchTurn dec inp k).2.mach.space := by
  have hnext : SameMemory c.mach.space (c.nextBlock dec).mach.space := by
    unfold Core.nextBlock
    split
    · exact sameMemory_fetchOrTranslate c dec
    · exact .refl _
  unfold Core.fetchTurn
  split
  · exact .refl _
  · generalize c.nextBlock dec = c₁ at hnext ⊢
    dsimp only
    cases hcur : c₁.fetch.currentBasicBlock with
    | none => exact hnext
    | some bb =>
      have hprobe : (c₁.probeIcache inp k bb).2.mach.space = c₁.mach.space := by
        rw [(probeIcache_frame c₁ inp k bb).mach]
      dsimp only
      split
      · rename_i c₂ heq; rw [heq] at hprobe; exact hprobe.symm ▸ hnext
      · rename_i c₂ heq
        rw [heq] at hprobe
        unfold Core.fetchUop
        dsimp only
        rw [(advanceRip_frame _ _ _).2.1]
        exact hprobe.symm ▸ hnext

/-! ### Steps and runs -/

variable {env : Env} {act : Action}

/-- A small step other than a commit leaves what the program sees; the outside of a cycle is left out. -/
theorem Step.unseen (hb : Base c) (hs : Step env inp act c c') (hin : act ≠ .outside)
    (hret : ∀ i, act ≠ .retire i) : Unseen c c' := by
  cases hs with
  | tick ht => exact ht.unseen
  | loadwakeup i _ => exact .of_eq rfl rfl
  | recycle => exact .of_eq rfl rfl
  | fencewakeup i _ _ _ _ => exact .of_eq rfl rfl
  | fault j hj =>
    unfold Core.noteException Core.forceFpUnavailable
    dsimp only
    split <;> exact .of_eq rfl rfl
  | queueSmc => exact .of_eq rfl rfl
  | retire i _ _ _ _ => exact absurd rfl (hret i)
  | writeback i cl _ =>
    unfold Core.writebackEntry
    split <;> exact .of_eq rfl rfl
  | transfer i cl _ =>
    unfold Core.transferEntry
    split
    · exact .refl c
    · exact .of_eq rfl rfl
  | clockQueues => exact .of_eq rfl rfl
  | issueTurn cl => exact (Core.issueTurn_cases env.exec inp cl c).unseen hb
  | dispatch i _ hd =>
    obtain ⟨cl, needed, tags, -, -, -, -, -, -, -, hctx, hmach⟩ := dispatchEntry_eq hd
    exact .of_eq (by rw [hctx]) (by rw [hmach])
  | complete cl i _ =>
    unfold Core.completeEntry
    dsimp only
    split <;> exact .of_eq rfl rfl
  | frontend i _ => exact .of_eq rfl rfl
  | rename _ _ _ _ => exact .of_eq rfl rfl
  | fetch k =>
    have hf := hb.fetchTurn_frame env.dec_wf inp k
    exact ⟨by rw [hf.ctx], sameMemory_fetchTurn c env.dec inp k⟩
  | flush =>
    have hr := fetchReset { c with regs := c.regs.flush c.order } (c.ctx.commitarf Reg.rip)
    unfold Core.flushPipeline
    dsimp only
    exact .of_eq (by rw [hr.ctx]) (by rw [hr.mach])
  | invalidateSmc =>
    unfold Core.invalidateSmc
    split
    · refine ⟨rfl, ?_⟩
      have h1 := sameMemory_invalidatePage c.mach.bbcache c.mach.space c.mach.smcInvalidateRvp.mfnlo
      dsimp only
      split
      · exact h1.trans (sameMemory_invalidatePage _ _ _)
      · exact h1
    · exact .refl c
  | assist => exact absurd rfl hin
  | setRip => exact absurd rfl hin

/-- A commit changes it as its uop says, and every other step not at all. -/
theorem Step.seen (hb : Base c) (hs : Step env inp act c c') (hin : act ≠ .outside) :
    SeenStep c c' := by
  by_cases hret : ∀ i, act ≠ .retire i
  · exact .unseen (hs.unseen hb hin hret)
  · cases hs with
    | retire i hhead hinsn hready _ => exact .retire i hhead hinsn hready
    | _ => exact absurd (fun _ => by simp) hret

/-- In every run, between two stages of a cycle: a program sees nothing happen in any stage
but the commit stage, whatever is fetched, issued, replayed, redispatched, annulled or
flushed there, and what it sees of the commit stage is the retirement of uops at the head
of the buffer whose instructions are complete and without exceptions. -/
theorem seen_in_commit (env : Env) {s : RunState} (hs : Reachable env anyInput s)
    (hdone : s.done = false) (inp : CycleInput) {k : ℕ} {st : Stage} (hk : cycleStages[k]? = some st)
    (hst : st ≠ .respond) :
    let c := ((CycleState.init s.core).run env inp (cycleStages.take k)).core
    let c' := ((CycleState.init s.core).run env inp (cycleStages.take (k + 1))).core
    (st ≠ .commit → Unseen c c') ∧ ReflTransGen SeenStep c c' := by
  have hb := hs.base.2 hdone
  have hbase : Base ((CycleState.init s.core).run env inp (cycleStages.take k)).core :=
    (CycleState.run_steps (s := CycleState.init s.core) hb _).base hb
  have hnext : cycleStages.take (k + 1) = cycleStages.take k ++ [st] := by
    rw [List.take_add_one, hk]
    rfl
  have hsteps : Steps env inp (fun a => a ≠ .outside ∧ ∀ i, a = .retire i → st = .commit) _ _ :=
    CycleState.step_inside hbase hst
  dsimp only
  rw [hnext, CycleState.run_concat]
  generalize (CycleState.init s.core).run env inp (cycleStages.take k) = t at hbase hsteps ⊢
  have hboth : Base (t.step env inp st).core ∧ (st ≠ .commit → Unseen t.core (t.step env inp st).core) ∧
      ReflTransGen SeenStep t.core (t.step env inp st).core := by
    refine chain_inv (I := fun c => Base c ∧ (st ≠ .commit → Unseen t.core c) ∧
      ReflTransGen SeenStep t.core c) (fun c c' h hc => ?_) ⟨hbase, fun _ => .refl _, .refl⟩ hsteps
    obtain ⟨hb, hun, hseen⟩ := h
    obtain ⟨a, ⟨hin, hret⟩, hstep⟩ := hc
    refine ⟨hstep.base hb, fun hne => (hun hne).trans ?_, hseen.tail (hstep.seen hb hin)⟩
    exact hstep.unseen hb hin fun i hi => hne (hret i hi)
  exact hboth.2

/-- The stage that issues the first store, and the one in which the first load commits. -/
theorem seen_in_commit_fenceCode :
    Unseen ((CycleState.init (fenceCodeRun 10).core).run Env.fenceCode coldInput (cycleStages.take 11)).core
      ((CycleState.init (fenceCodeRun 10).core).run Env.fenceCode coldInput (cycleStages.take 12)).core ∧
    ReflTransGen SeenStep
      ((CycleState.init (fenceCodeRun 16).core).run Env.fenceCode coldInput (cycleStages.take 1)).core
      ((CycleState.init (fenceCodeRun 16).core).run Env.fenceCode coldInput (cycleStages.take 2)).core :=
  ⟨(seen_in_commit Env.fenceCode (reachable_fenceCode (by omega)) (goes_fenceCode (by omega)).1
      coldInput rfl (by simp)).1 (by simp),
    (seen_in_commit Env.fenceCode (reachable_fenceCode (by omega)) (goes_fenceCode (by omega)).1
      coldInput rfl (by simp)).2⟩

end
end X86Sim.Ooo
