import X86Sim.Proof.BaseIssue

/-!
# The stages are chains of small steps

Each stage of `runcycle`, with its loops and counters, goes through small steps only
(`Step`), and so does every run. A property of the core that the small steps keep
holds at the end of every stage (`Rule.atStage`).
-/

namespace X86Sim.Ooo

section

variable {env : Env} {inp : CycleInput} {c c' : Core} {i : ℕ} {cl : Cluster}

/-! ### Folds over a list of entries -/

/-- A fold over entries that are all in one list and leave it one by one. -/
theorem steps_foldl {f : Core → ℕ → Core} {st : RobState} (h : Base c)
    (hstep : ∀ c i, Base c → c.sched.lists.current i = some st → Step env inp .work c (f c i))
    (hframe : ∀ c i j, Base c → c.sched.lists.current i = some st → j ≠ i →
      (f c i).sched.lists.current j = c.sched.lists.current j)
    (l : List ℕ) (hl : l.Nodup) (hall : ∀ i ∈ l, c.sched.lists.current i = some st) :
    Steps env inp (· = .work) c (l.foldl f c) := by
  refine chain_foldl (r := fun c c' => ∃ a, a = Action.work ∧ Step env inp a c c') (I := Base)
    (G := fun c i => c.sched.lists.current i = some st)
    (fun _ _ hb ⟨_, _, hst⟩ => hst.base hb) (fun c i hb hi => (hstep c i hb hi).steps rfl)
    (fun c i j hb hi hj hji => ?_) l hl h hall
  rw [hframe c i j hb hi hji]
  exact hj

theorem Base.members (h : Base c) (st : RobState) :
    (c.sched.lists.members st).Nodup ∧
      ∀ i ∈ c.sched.lists.members st, c.sched.lists.current i = some st :=
  ⟨h.sched.lists_wf.nodup st, fun i hi => (h.sched.lists_wf.mem_iff i st).1 hi⟩

theorem current_completeEntry {j : ℕ} (hj : j ≠ i) :
    (c.completeEntry cl i).sched.lists.current j = c.sched.lists.current j := by
  unfold Core.completeEntry
  dsimp only
  split
  · exact (StateLists.current_changestate _ _ _).trans (if_neg hj)
  · rfl

theorem current_transferEntry {j : ℕ} (hj : j ≠ i) :
    (c.transferEntry i).sched.lists.current j = c.sched.lists.current j := by
  unfold Core.transferEntry
  split
  · rfl
  · dsimp only
    split
    · exact (StateLists.current_changestate _ _ _).trans (if_neg hj)
    · rfl

theorem current_writebackEntry {j : ℕ} (hj : j ≠ i) :
    (c.writebackEntry i).sched.lists.current j = c.sched.lists.current j := by
  unfold Core.writebackEntry
  split
  · rfl
  · exact (StateLists.current_changestate _ _ _).trans (if_neg hj)

theorem current_frontendEntry {j : ℕ} (hj : j ≠ i) :
    (c.frontendEntry i).sched.lists.current j = c.sched.lists.current j := by
  unfold Core.frontendEntry
  dsimp only
  split
  · exact (StateLists.current_changestate _ _ _).trans (if_neg hj)
  · rfl

theorem completeStage_steps (h : Base c) (cl : Cluster) :
    Steps env inp (· = .work) c (c.completeStage cl) :=
  steps_foldl h (fun _ i _ hi => .complete cl i hi) (fun _ _ _ _ _ hj => current_completeEntry hj)
    _ (h.members _).1 (h.members _).2

theorem transferStage_steps (h : Base c) (cl : Cluster) :
    Steps env inp (· = .work) c (c.transferStage cl) :=
  steps_foldl h (fun _ i _ hi => .transfer i cl hi) (fun _ _ _ _ _ hj => current_transferEntry hj)
    _ (h.members _).1 (h.members _).2

theorem writebackStage_steps (h : Base c) (cl : Cluster) (n : ℕ) :
    Steps env inp (· = .work) c (c.writebackStage cl n).2 :=
  steps_foldl h (fun _ i _ hi => .writeback i cl hi) (fun _ _ _ _ _ hj => current_writebackEntry hj)
    _ ((h.members _).1.sublist (List.take_sublist _ _))
    fun i hi => (h.members _).2 i (List.mem_of_mem_take hi)

theorem frontendStage_steps (h : Base c) : Steps env inp (· = .work) c c.frontendStage :=
  steps_foldl h (fun _ i _ hi => .frontend i hi) (fun _ _ _ _ _ hj => current_frontendEntry hj)
    _ (h.members _).1 (h.members _).2

/-! ### Loops with a bound -/

theorem Steps.tick (h : Tick c c') : Steps env inp (· = .work) c c' := (Step.tick h).steps rfl

theorem clockStage_steps (c : Core) : Steps env inp (· = .work) c (c.clockStage inp) := by
  have hfold : ∀ (l : List ℕ) (c : Core), Steps env inp (· = .work) c (l.foldl Core.dcacheWakeup c) := by
    intro l
    induction l with
    | nil => exact fun c => Steps.refl c
    | cons i l ih =>
      intro c
      refine Steps.trans ?_ (ih _)
      unfold Core.dcacheWakeup
      split
      · rename_i hl; exact (Step.loadwakeup i hl).steps rfl
      · exact Steps.refl _
  have hstart : Steps env inp (· = .work) c c.startCycle :=
    Steps.tick ⟨rfl, rfl, rfl, rfl, rfl, rfl, rfl, rfl, rfl⟩
  refine hstart.trans ((hfold inp.dcacheWakeups c.startCycle).trans ?_)
  unfold Core.clockStage Core.wakeIcache
  split
  · exact Steps.tick ⟨rfl, rfl, rfl, rfl, rfl, rfl, rfl, rfl, rfl⟩
  · exact Steps.refl _

theorem issueStage_steps (cl : Cluster) (c : Core) :
    Steps env inp (· = .work) c (c.issueStage env.exec inp cl) := by
  unfold Core.issueStage
  generalize issueWidth = n
  induction n generalizing c with
  | zero => exact Steps.refl _
  | succ n ih =>
    have hstep : Steps env inp (· = .work) c (c.issueTurn env.exec inp cl).2 :=
      (Step.issueTurn cl).steps rfl
    unfold Core.issueLoop
    split
    · rename_i heq; rw [heq] at hstep; exact hstep
    · rename_i heq; rw [heq] at hstep; exact hstep.trans (ih _)

/-- Any number of turns of the rename loop. -/
theorem renameTurns_steps (n : ℕ) (c : Core) :
    Steps env inp (· = .work) c (loopWhile Core.renameTurn n c) := by
  induction n generalizing c with
  | zero => exact Steps.refl _
  | succ n ih =>
    unfold loopWhile
    split
    · exact Steps.refl _
    · rename_i c₁ heq
      refine Steps.trans ?_ (ih c₁)
      unfold Core.renameTurn at heq
      split at heq
      · cases heq
      · rename_i uop rest hq
        split at heq
        · cases heq
        · rename_i hroom
          split at heq
          · cases heq
          · rename_i p hp
            split at heq
            · rename_i hlsq
              cases heq
              exact (Step.rename hq (Nat.pos_of_ne_zero hroom) hp hlsq).steps rfl
            · cases heq

theorem renameStage_steps (c : Core) : Steps env inp (· = .work) c c.renameStage :=
  renameTurns_steps FRONTEND_WIDTH c

theorem fetchStage_steps (c : Core) : Steps env inp (· = .fetch) c (c.fetchStage env.dec inp) := by
  have hloop : ∀ (n k : ℕ) (c : Core), Steps env inp (· = .fetch) c (c.fetchLoop env.dec inp n k) := by
    intro n
    induction n with
    | zero => exact fun _ c => Steps.refl c
    | succ n ih =>
      intro k c
      have hstep : Steps env inp (· = .fetch) c (c.fetchTurn env.dec inp k).2 :=
        (Step.fetch k).steps rfl
      unfold Core.fetchLoop
      split
      · rename_i heq; rw [heq] at hstep; exact hstep
      · rename_i heq; rw [heq] at hstep; exact hstep.trans (ih _ _)
  unfold Core.fetchStage
  split
  · exact Steps.refl _
  · exact hloop _ _ _

/-! ### Dispatch -/

/-- A dispatched entry leaves the others where they are. -/
theorem current_dispatchEntry (hd : c.dispatchEntry i = some c') {j : ℕ} (hj : j ≠ i) :
    c'.sched.lists.current j = c.sched.lists.current j := by
  obtain ⟨cl, needed, tags, -, hs, -⟩ := dispatchEntry_eq hd
  rw [hs]
  exact (StateLists.current_changestate _ _ _).trans (if_neg hj)

/-- An entry that finds no cluster had none before. -/
theorem Base.clearCluster (h : Base c) (hi : c.sched.lists.current i = some .readyToDispatch) :
    ({ c with sched := { c.sched with
      cluster := Function.update c.sched.cluster i none } } : Core) = c := by
  have hcl : c.sched.cluster i = none := h.sched.cluster_ok i _ hi
  rw [← hcl, Function.update_eq_self]

theorem dispatchLoop_steps (l : List ℕ) (n : ℕ) (h : Base c) (hl : l.Nodup)
    (hall : ∀ i ∈ l, c.sched.lists.current i = some .readyToDispatch) :
    Steps env inp (· = .work) c (Core.dispatchLoop l n c).2 := by
  induction l generalizing n c with
  | nil => exact Steps.refl _
  | cons i l ih =>
    obtain ⟨hnot, hnd⟩ := List.nodup_cons.1 hl
    have hi := hall i List.mem_cons_self
    unfold Core.dispatchLoop
    split
    · exact Steps.refl _
    · split
      · rw [h.clearCluster hi]; exact Steps.refl c
      · rename_i c₁ hd
        have hstep : Step env inp .work c c₁ := .dispatch i hi hd
        refine (hstep.steps (p := (· = .work)) rfl).trans (ih _ (hstep.base h) hnd fun j hj => ?_)
        rw [current_dispatchEntry hd (by rintro rfl; exact hnot hj)]
        exact hall j (List.mem_cons_of_mem i hj)

theorem deadlockCountdown_steps (c : Core) (n : ℕ) :
    Steps env inp (fun a => a = .work ∨ a = .flush) c (c.deadlockCountdown n).2 := by
  have htick : ∀ {c c' : Core}, Tick c c' → Steps env inp (fun a => a = .work ∨ a = .flush) c c' :=
    fun ht => (Step.tick ht).steps (Or.inl rfl)
  unfold Core.deadlockCountdown
  dsimp only
  split
  · exact htick ⟨rfl, rfl, rfl, rfl, rfl, rfl, rfl, rfl, rfl⟩
  · split
    · exact Steps.refl _
    · split
      · exact htick ⟨rfl, rfl, rfl, rfl, rfl, rfl, rfl, rfl, rfl⟩
      · split
        · exact htick ⟨rfl, rfl, rfl, rfl, rfl, rfl, rfl, rfl, rfl⟩
        · -- the recovery is a flush that leaves the time of the last commit
          have h1 : Steps env inp (fun a => a = .work ∨ a = .flush) c
              (c.setCountdown (c.mach.dispatchDeadlockCountdown - 1)) :=
            htick ⟨rfl, rfl, rfl, rfl, rfl, rfl, rfl, rfl, rfl⟩
          generalize c.setCountdown (c.mach.dispatchDeadlockCountdown - 1) = c₁ at h1 ⊢
          refine (h1.trans (Step.flush.steps (Or.inr rfl))).trans ?_
          unfold Core.redispatchDeadlockRecovery
          dsimp only
          generalize c₁.flushPipeline = c₂
          exact htick ⟨rfl, rfl, rfl, rfl, rfl, rfl, rfl, rfl, rfl⟩

theorem dispatchStage_steps (h : Base c) :
    Steps env inp (fun a => a = .work ∨ a = .flush) c c.dispatchStage.2 := by
  unfold Core.dispatchStage
  refine Steps.trans ?_ (deadlockCountdown_steps _ _)
  exact (dispatchLoop_steps _ 0 h (h.members _).1 (h.members _).2).mono fun _ ha => Or.inl ha

/-! ### Commit -/

theorem forceFpUnavailable_eq {j : ℕ} (h : c.fpUnavailable j = false) : c.forceFpUnavailable j = c := by
  have hcond : ((c.uop j).op.isSse && c.ctx.noSse || (c.uop j).op.isX87 && c.ctx.noX87) = false := h
  simp only [Core.forceFpUnavailable, hcond, Bool.false_eq_true, if_false]

theorem not_valid_forceFpUnavailable {j : ℕ} (h : c.fpUnavailable j = true) :
    (c.forceFpUnavailable j).vals.valid ((c.forceFpUnavailable j).regs.physreg j) = false := by
  have hcond : ((c.uop j).op.isSse && c.ctx.noSse || (c.uop j).op.isX87 && c.ctx.noX87) = true := h
  have hinv : ((FLAG_INV &&& FLAG_INV : W16) == 0) = false := by decide
  simp only [Core.forceFpUnavailable, hcond, if_true, Values.valid, Values.set,
    Function.update_self, hinv]

/-- The scan ends at an entry that has an exception or is made to have one. -/
theorem scanMacroOp_bad {j : ℕ} (h : ¬(c.vals.valid (c.regs.physreg j) = true ∧ c.fpUnavailable j = false))
    (l : List ℕ) (a : Bool) : Core.scanMacroOp (j :: l) a c =
      ⟨true, true, true, (c.forceFpUnavailable j).noteException j⟩ := by
  have hinv : (c.forceFpUnavailable j).vals.valid ((c.forceFpUnavailable j).regs.physreg j) = false := by
    by_cases hfp : c.fpUnavailable j = true
    · exact not_valid_forceFpUnavailable hfp
    · rw [Bool.not_eq_true] at hfp
      rw [forceFpUnavailable_eq hfp]
      simpa [hfp] using h
  simp only [Core.scanMacroOp, hinv, Bool.not_false, if_true]

/-- It goes over any other entry, and ends behind an instruction. -/
theorem scanMacroOp_good {j : ℕ} (hval : c.vals.valid (c.regs.physreg j) = true)
    (hfp : c.fpUnavailable j = false) (l : List ℕ) (a : Bool) : Core.scanMacroOp (j :: l) a c =
      if (c.uop j).op.eom then ⟨a && c.readyToCommit j, true, false, c⟩
      else Core.scanMacroOp l (a && c.readyToCommit j) c := by
  simp only [Core.scanMacroOp, forceFpUnavailable_eq hfp, hval, Bool.not_true, Bool.false_eq_true,
    if_false]

/-- What the scan of the instruction at the head can find in `l`: an entry with an
exception, or an instruction that is ready, or neither. -/
theorem scanMacroOp_spec (l : List ℕ) (a : Bool) (c : Core) :
    (∃ pre j post, l = pre ++ j :: post ∧ (∀ k ∈ pre, (c.uop k).op.eom = false) ∧
      ¬(c.vals.valid (c.regs.physreg j) = true ∧ c.fpUnavailable j = false) ∧
      Core.scanMacroOp l a c = ⟨true, true, true, (c.forceFpUnavailable j).noteException j⟩) ∨
    ((Core.scanMacroOp l a c).hasExceptions = false ∧ (Core.scanMacroOp l a c).core = c ∧
      ((Core.scanMacroOp l a c).allReady = true → (Core.scanMacroOp l a c).foundEom = true →
        a = true ∧ ∃ pre e post, l = pre ++ e :: post ∧ (∀ k ∈ pre, (c.uop k).op.eom = false) ∧
          (c.uop e).op.eom = true ∧ ∀ k ∈ pre ++ [e], c.Committable k)) := by
  induction l generalizing a with
  | nil => exact Or.inr ⟨rfl, rfl, fun _ hf => by cases hf⟩
  | cons j l ih =>
    by_cases hgood : c.vals.valid (c.regs.physreg j) = true ∧ c.fpUnavailable j = false
    · obtain ⟨hval, hfp⟩ := hgood
      have hready : c.readyToCommit j = true → c.Committable j :=
        fun hr => ⟨by simpa [Core.readyToCommit] using hr, hval, hfp⟩
      rw [scanMacroOp_good hval hfp]
      by_cases heom : (c.uop j).op.eom = true
      · rw [if_pos heom]
        refine Or.inr ⟨rfl, rfl, fun ha _ => ?_⟩
        have ha' : a = true ∧ c.readyToCommit j = true := (Bool.and_eq_true _ _).mp ha
        refine ⟨ha'.1, [], j, l, rfl, by simp, heom, fun k hk => ?_⟩
        rw [List.nil_append, List.mem_singleton] at hk
        exact hk ▸ hready ha'.2
      · rw [if_neg heom]
        rw [Bool.not_eq_true] at heom
        have hcons : ∀ {pre : List ℕ}, (∀ k ∈ pre, (c.uop k).op.eom = false) →
            ∀ k ∈ j :: pre, (c.uop k).op.eom = false := by
          intro pre hpre k hk
          rcases List.mem_cons.1 hk with rfl | hk
          · exact heom
          · exact hpre k hk
        rcases ih (a && c.readyToCommit j) with
          ⟨pre, k, post, rfl, hpre, hbad, hscan⟩ | ⟨hex, hcore, hins⟩
        · exact Or.inl ⟨j :: pre, k, post, rfl, hcons hpre, hbad, hscan⟩
        · refine Or.inr ⟨hex, hcore, fun ha hf => ?_⟩
          obtain ⟨hand, pre, e, post, rfl, hpre, he, hall⟩ := hins ha hf
          rw [Bool.and_eq_true] at hand
          refine ⟨hand.1, j :: pre, e, post, rfl, hcons hpre, he, fun m hm => ?_⟩
          rcases List.mem_cons.1 hm with rfl | hm
          · exact hready hand.2
          · exact hall m hm
    · exact Or.inl ⟨[], j, l, rfl, by simp, hgood, scanMacroOp_bad hgood l a⟩

/-- How the commit of entry `i` can end, after the fence at the head was woken. -/
inductive CommitEntry (c : Core) (i : ℕ) : CommitResult → Core → Prop
  | wait : CommitEntry c i .none c
  | smc {c' : Core} (hc : c' = c ∨ ∃ j ∈ c.order, c' = (c.forceFpUnavailable j).noteException j)
      (hsom : (c.uop i).op.som = true) : CommitEntry c i .smc (c'.queueSmc (c.uop i).rip)
  | exception {pre post : List ℕ} {j : ℕ} {c' : Core} (hord : c.order = pre ++ j :: post)
      (hinner : ∀ k ∈ pre, (c.uop k).op.eom = false)
      (hbad : ¬(c.vals.valid (c.regs.physreg j) = true ∧ c.fpUnavailable j = false))
      (hc : c' = (c.forceFpUnavailable j).noteException j ∨
        ∃ rip, c' = ((c.forceFpUnavailable j).noteException j).setRecoveryRip rip) :
      CommitEntry c i .exception c'
  | retire {pre : List ℕ} {e : ℕ} (hinsn : c.Head pre e) (hready : ∀ k ∈ pre ++ [e], c.Committable k)
      (hclean : (c.uop i).op.som = true → c.codeDirty (c.uop i) = false)
      (hdirty : (c.uop i).op.eom = false ∨ c.codeDirty (c.uop i) = false) :
      CommitEntry c i ((c.retire i).retireResult (c.uop i).op) (c.retire i)
  | retireSmc {pre : List ℕ} {e : ℕ} (hinsn : c.Head pre e)
      (hready : ∀ k ∈ pre ++ [e], c.Committable k)
      (hclean : (c.uop i).op.som = true → c.codeDirty (c.uop i) = false)
      (heom : (c.uop i).op.eom = true) :
      CommitEntry c i .smc ((c.queueSmc (c.uop i).rip).retire i)

theorem fault_frame (c : Core) (j : ℕ) :
    ((c.forceFpUnavailable j).noteException j).uop = c.uop ∧
      ((c.forceFpUnavailable j).noteException j).mach = c.mach := by
  unfold Core.forceFpUnavailable
  dsimp only
  split <;> exact ⟨rfl, rfl⟩

theorem order_fault (c : Core) (j : ℕ) : ((c.forceFpUnavailable j).noteException j).order = c.order := by
  unfold Core.forceFpUnavailable
  dsimp only
  split <;> rfl

theorem retire_pending (c : Core) (i : ℕ) :
    (c.retire i).mach.smcInvalidatePending = c.mach.smcInvalidatePending := by
  have hp : (c.commitMemory i).mach.smcInvalidatePending = c.mach.smcInvalidatePending := by
    rw [(commitMemory_frame c i).mach]
  unfold Core.retire
  dsimp only
  split <;> exact hp

/-- The end of a commit, from the fence's wakeup on. -/
theorem commitEntry_cases (h : Base (c.wakeFence i)) (hhead : (c.wakeFence i).order.head? = some i) :
    CommitEntry (c.wakeFence i) i (c.commitEntry i).1 (c.commitEntry i).2 := by
  unfold Core.commitEntry
  dsimp only
  generalize c.wakeFence i = c at h hhead ⊢
  obtain ⟨rest, hord⟩ : ∃ rest, c.order = i :: rest := by
    cases hc : c.order with
    | nil => rw [hc] at hhead; cases hhead
    | cons a rest => rw [hc] at hhead; cases hhead; exact ⟨rest, rfl⟩
  -- the scan starts at the head, so it sees the whole buffer
  have hfrom : c.ring.forwardFrom ROB_SIZE i = c.order := by
    have hi : i ∈ c.ring.order ROB_SIZE := by show i ∈ c.order; rw [hord]; simp
    have hcut : c.ring.order ROB_SIZE = [] ++ i :: rest := hord
    rw [h.sched.ring_wf.forwardFrom_cons hi, (h.sched.ring_wf.cut hcut).2]
    exact hord.symm
  rw [hfrom]
  rcases scanMacroOp_spec c.order true c with
    ⟨pre, j, post, hl, hinner, hbad, hscan⟩ | ⟨hex, hcore, hins⟩
  · -- an exception
    obtain ⟨huop, hmach⟩ := fault_frame c j
    have hj : j ∈ c.order := by rw [hl]; simp
    rw [hscan]
    simp only [Bool.and_self, Bool.not_true, Bool.false_eq_true, if_false, if_true, huop]
    split
    · rename_i hd
      rw [Bool.and_eq_true] at hd
      exact .smc (Or.inr ⟨j, hj, rfl⟩) hd.1
    · split
      · exact .exception hl hinner hbad (Or.inr ⟨_, rfl⟩)
      · exact .exception hl hinner hbad (Or.inl rfl)
  · generalize Core.scanMacroOp c.order true c = scan at hex hcore hins ⊢
    rw [hcore, hex]
    split
    · exact .wait
    · rename_i hgo
      rw [Bool.not_eq_true, Bool.not_eq_false', Bool.and_eq_true] at hgo
      obtain ⟨-, pre, e, post, hl, hinner, he, hready⟩ := hins hgo.1 hgo.2
      have hinsn : c.Head pre e := ⟨⟨post, hl⟩, hinner, he⟩
      split
      · rename_i hd
        rw [Bool.and_eq_true] at hd
        exact .smc (Or.inl rfl) hd.1
      · rename_i hd
        -- the mark is looked at before the first uop only, which is where the instruction could start over
        have hclean : (c.uop i).op.som = true → c.codeDirty (c.uop i) = false := by
          intro hsom
          simpa [hsom] using hd
        simp only [Bool.false_eq_true, if_false]
        split
        · rename_i hsmc
          rw [Bool.and_eq_true] at hsmc
          have hres : ((c.queueSmc (c.uop i).rip).retire i).retireResult (c.uop i).op = .smc := by
            unfold Core.retireResult
            rw [retire_pending]
            rfl
          rw [hres]
          exact .retireSmc hinsn hready hclean hsmc.1
        · rename_i hsmc
          refine .retire hinsn hready hclean ?_
          by_cases heom : (c.uop i).op.eom = true
          · right; simpa [heom] using hsmc
          · left; simpa using heom

/-- A step of the commit stage: the head leaves, or the buffer stays as it is. -/
def CommitStep (env : Env) (inp : CycleInput) (c c' : Core) : Prop :=
  (∃ i, Step env inp (.retire i) c c') ∨ (Step env inp .work c c' ∧ c'.order = c.order ∧ c'.uop = c.uop)

/-- A chain of steps of the commit stage. -/
def CommitSteps (env : Env) (inp : CycleInput) : Core → Core → Prop :=
  Relation.ReflTransGen (CommitStep env inp)

theorem CommitSteps.trans {c'' : Core} (h : CommitSteps env inp c c') (h' : CommitSteps env inp c' c'') :
    CommitSteps env inp c c'' :=
  Relation.ReflTransGen.trans h h'

theorem CommitStep.one (h : CommitStep env inp c c') : CommitSteps env inp c c' := Relation.ReflTransGen.single h

/-- The labels of the steps of the commit stage. -/
def Action.Commits : Action → Prop
  | .work | .retire _ => True
  | _ => False

theorem CommitSteps.steps (h : CommitSteps env inp c c') : Steps env inp Action.Commits c c' := by
  refine Relation.ReflTransGen.mono (fun _ _ hs => ?_) _ _ h
  rcases hs with ⟨i, hs⟩ | ⟨hs, -, -⟩
  · exact ⟨.retire i, trivial, hs⟩
  · exact ⟨.work, trivial, hs⟩

theorem wakeFence_steps (hhead : c.order.head? = some i) :
    CommitSteps env inp c (c.wakeFence i) ∧ (c.wakeFence i).order = c.order := by
  unfold Core.wakeFence
  split
  · rename_i h
    obtain ⟨hmf, hready, hphase⟩ := h
    have hphase' : c.ls.secondPhase i = false := by simpa using hphase
    have hstep : Step env inp .work c (c.fencewakeup i) :=
      .fencewakeup i hhead hmf (by simpa [Core.readyToCommit] using hready) hphase'
    exact ⟨CommitStep.one (.inr ⟨hstep, rfl, rfl⟩), rfl⟩
  · exact ⟨.refl, rfl⟩

/-- The commit of an entry is a chain of steps; the result `ok` means that it left. -/
theorem commitEntry_steps (h : Base c) {rest : List ℕ} (hord : c.order = i :: rest) :
    CommitSteps env inp c (c.commitEntry i).2 ∧
      ((c.commitEntry i).1 = .ok → (c.commitEntry i).2.order = rest) := by
  have hhead : c.order.head? = some i := by rw [hord]; rfl
  obtain ⟨hpre, hword⟩ : CommitSteps env inp c (c.wakeFence i) ∧ (c.wakeFence i).order = c.order :=
    wakeFence_steps hhead
  have hb := hpre.steps.base h
  have hcases := commitEntry_cases hb (by rw [hword]; exact hhead)
  rw [← hword] at hord hhead
  generalize hres : (c.commitEntry i).1 = res at hcases ⊢
  generalize (c.commitEntry i).2 = c' at hcases ⊢
  generalize c.wakeFence i = c₁ at hb hcases hpre hord hhead
  have hwork : ∀ {c₂}, Step env inp .work c₁ c₂ → c₂.order = c₁.order → c₂.uop = c₁.uop →
      CommitSteps env inp c c₂ :=
    fun hst ho hu => hpre.trans (CommitStep.one (.inr ⟨hst, ho, hu⟩))
  have hfault : ∀ j ∈ c₁.order, CommitSteps env inp c ((c₁.forceFpUnavailable j).noteException j) :=
    fun j hj => hwork (.fault j hj) (order_fault c₁ j) (fault_frame c₁ j).1
  cases hcases with
  | wait => exact ⟨hpre, fun hok => by cases hok⟩
  | smc hc hsom =>
    refine ⟨?_, fun hok => by cases hok⟩
    rcases hc with rfl | ⟨j, hj, rfl⟩
    · exact hwork (.queueSmc _) rfl rfl
    · exact (hfault j hj).trans (CommitStep.one (.inr ⟨.queueSmc _, rfl, rfl⟩))
  | @exception pre post j c₂ hl hinner hbad hc =>
    refine ⟨?_, fun hok => by cases hok⟩
    have hj := hfault j (by rw [hl]; simp)
    rcases hc with rfl | ⟨rip, rfl⟩
    · exact hj
    · refine hj.trans (CommitStep.one (.inr ⟨.tick ?_, rfl, rfl⟩))
      exact ⟨rfl, rfl, rfl, rfl, rfl, rfl, rfl, rfl, rfl⟩
  | retire hinsn hready hclean hdirty =>
    refine ⟨hpre.trans (CommitStep.one (.inl ⟨i, .retire i hhead hinsn hready hclean⟩)), fun _ => ?_⟩
    exact retire_order hb.sched.ring_wf hord
  | retireSmc hinsn hready hclean heom =>
    refine ⟨?_, fun hok => by cases hok⟩
    have hretire : Step env inp (.retire i) (c₁.queueSmc (c₁.uop i).rip)
        ((c₁.queueSmc (c₁.uop i).rip).retire i) := by
      refine .retire i hhead ⟨hinsn.order, hinsn.inner, hinsn.last⟩ (fun k hk => ?_) hclean
      exact ⟨(hready k hk).ready, (hready k hk).valid, (hready k hk).available⟩
    exact (hwork (.queueSmc (c₁.uop i).rip) rfl rfl).trans (CommitStep.one (.inl ⟨i, hretire⟩))

theorem commitLoop_steps (n : ℕ) (l : List ℕ) (h : Base c) (hord : c.order = l) :
    CommitSteps env inp c (Core.commitLoop n l c).2 := by
  induction n generalizing c l with
  | zero => exact .refl
  | succ n ih =>
    cases l with
    | nil => exact .refl
    | cons i l =>
      obtain ⟨hsteps, hok⟩ : CommitSteps env inp c (c.commitEntry i).2 ∧ _ := commitEntry_steps h hord
      unfold Core.commitLoop
      split
      · rename_i c₁ heq
        rw [heq] at hsteps hok
        have htick : Tick c₁ { c₁ with mach := { c₁.mach with lastCommitAtCycle := c₁.mach.simCycle } } :=
          ⟨rfl, rfl, rfl, rfl, rfl, rfl, rfl, rfl, rfl⟩
        have hnext : CommitSteps env inp c
            { c₁ with mach := { c₁.mach with lastCommitAtCycle := c₁.mach.simCycle } } :=
          hsteps.trans (CommitStep.one (.inr ⟨.tick htick, rfl, rfl⟩))
        exact hnext.trans (ih l (hnext.steps.base h) (hok rfl))
      · exact hsteps

theorem commitStage_steps (h : Base c) : CommitSteps env inp c c.commitStage.2 := by
  have hstep : Step env inp .work c { c with regs := c.regs.recycle } := .recycle
  exact (CommitStep.one (.inr ⟨hstep, rfl, rfl⟩)).trans (commitLoop_steps _ _ (hstep.base h) rfl)

/-! ### The response -/

theorem order_flushPipeline (c : Core) : c.flushPipeline.order = [] := CircQueue.order_empty _

theorem fetchq_flushPipeline (c : Core) : c.flushPipeline.fetch.fetchq = [] := by
  unfold Core.flushPipeline
  exact (fetchReset { c with regs := c.regs.flush c.order } (c.ctx.commitarf Reg.rip)).fetchq

/-- The labels of the steps of the response. -/
def Action.Responds : Action → Prop
  | .work | .flush | .outside => True
  | _ => False

theorem flushPipeline_steps (c : Core) : Steps env inp Action.Responds c c.flushPipeline :=
  Step.flush.steps trivial

theorem handleException_steps (c : Core) :
    Steps env inp Action.Responds c c.handleException.2 := by
  have hempty := order_flushPipeline c
  have hq := fetchq_flushPipeline c
  have h1 : Steps env inp Action.Responds c c.flushPipeline := flushPipeline_steps c
  unfold Core.handleException
  dsimp only
  generalize c.flushPipeline = c₁ at *
  split
  · exact (h1.trans ((Step.setRip _ hempty hq).steps trivial)).trans (flushPipeline_steps _)
  · have hvector : Step env inp .work c₁ { c₁ with ctx := { c₁.ctx with
        x86Exception := x86Vector c₁.ctx.exception c₁.ctx.x86Exception } } :=
      .tick ⟨rfl, rfl, rfl, rfl, rfl, rfl, rfl, rfl, rfl⟩
    exact h1.trans (hvector.steps trivial)

theorem handleBarrier_steps (c : Core) :
    Steps env inp Action.Responds c (c.handleBarrier env.assist).2.2 := by
  have hempty := order_flushPipeline c
  have hq := fetchq_flushPipeline c
  have h1 : Steps env inp Action.Responds c c.flushPipeline := flushPipeline_steps c
  unfold Core.handleBarrier
  dsimp only
  generalize c.flushPipeline = c₁ at *
  have h2 := h1.trans ((Step.assist hempty hq).steps trivial)
  split
  · exact h2
  · exact h2.trans (flushPipeline_steps _)

theorem respond_steps (s : CycleState) :
    Steps env inp Action.Responds s.core (s.respond env).core := by
  have hcore : ∀ s : CycleState, (if s.threw.isSome then s else { s with exiting :=
      s.exiting || s.core.mach.simCycle - s.core.mach.lastCommitAtCycle > 4096 }).core = s.core := by
    intro s; split <;> rfl
  unfold CycleState.respond
  dsimp only
  rw [hcore]
  split
  · exact Steps.refl _
  · exact Steps.refl _
  · exact (flushPipeline_steps _).trans (Step.invalidateSmc.steps trivial)
  · exact handleException_steps s.core
  · exact handleBarrier_steps s.core
  · refine (flushPipeline_steps _).trans ((Step.tick ?_).steps trivial)
    dsimp only
    generalize s.core.flushPipeline = c₁
    exact ⟨rfl, rfl, rfl, rfl, rfl, rfl, rfl, rfl, rfl⟩

/-! ### A cycle -/

/-- One stage of `runcycle`: only the commit stage retires, and only the response calls
the assists. -/
theorem CycleState.step_steps {s : CycleState} (h : Base s.core) (st : Stage) :
    Steps env inp (fun a => (∀ i, a = .retire i → st = .commit) ∧ (a = .outside → st = .respond)) s.core
      (s.step env inp st).core := by
  have hwork : ∀ a : Action, a = .work →
      (∀ i, a = .retire i → st = .commit) ∧ (a = .outside → st = .respond) := by
    rintro _ rfl
    simp
  cases st with
  | clock => exact (clockStage_steps s.core).mono hwork
  | commit =>
    refine (commitStage_steps h).steps.mono fun a ha => ⟨fun _ _ => rfl, ?_⟩
    rintro rfl
    exact absurd ha id
  | writeback cl => exact (writebackStage_steps h cl s.writecount).mono hwork
  | transfer cl => exact (transferStage_steps h cl).mono hwork
  | clockQueues => exact Step.clockQueues.steps (by simp)
  | issue cl => exact (issueStage_steps cl s.core).mono hwork
  | dispatch =>
    refine (dispatchStage_steps h).mono ?_
    rintro _ (rfl | rfl) <;> simp
  | complete cl => exact (completeStage_steps h cl).mono hwork
  | frontend =>
    simp only [CycleState.step]
    split
    · exact (frontendStage_steps h).mono hwork
    · exact Steps.refl _
  | rename =>
    simp only [CycleState.step]
    split
    · exact (renameStage_steps s.core).mono hwork
    · exact Steps.refl _
  | fetch =>
    simp only [CycleState.step]
    split
    · refine (fetchStage_steps s.core).mono ?_
      rintro _ rfl
      simp
    · exact Steps.refl _
  | respond =>
    refine (respond_steps s).mono fun a ha => ⟨?_, fun _ => rfl⟩
    rintro i rfl
    exact absurd ha id

/-- Any number of stages. -/
theorem CycleState.run_steps {s : CycleState} (h : Base s.core) (l : List Stage) :
    Steps env inp (fun _ => True) s.core (s.run env inp l).core := by
  induction l generalizing s with
  | nil => exact Steps.refl _
  | cons st l ih =>
    have hst : Steps env inp (fun _ => True) s.core (s.step env inp st).core :=
      (step_steps h st).mono fun _ _ => trivial
    exact hst.trans (ih (hst.base h))

end
end X86Sim.Ooo
