import X86Sim.Proof.LsqOrder

/-!
# Uops commit in the order they were fetched

Every fetched uop gets the next number. In every run the numbers of the uops that have
committed, of those in the reorder buffer and of those in the fetch queue, in this
order, are strictly increasing (`Numbered`): an annulled uop is fetched again under a
new number, and nothing commits twice or overtakes.

* `Move.uuids`: a move takes numbers out, or adds the next one at the end.
* `Trace.retired`: what leaves the buffer in the commit stage of a cycle is what commits.
* `commits_in_fetch_order`: the commits of every run.
-/

namespace X86Sim.Ooo

open Relation

/-- The numbers of the uops in the buffer and in the fetch queue, oldest first. -/
def Core.uuids (c : Core) : List ℕ :=
  c.order.map (fun i => (c.uop i).uuid) ++ c.fetch.fetchq.map (·.uuid)

/-- The numbers in `log` were given out first, then those still in the pipeline. -/
structure Core.Numbered (c : Core) (log : List ℕ) : Prop where
  sorted : (log ++ c.uuids).Pairwise (· < ·)
  lt : ∀ u ∈ log ++ c.uuids, u < c.fetch.fetchUuid

/-- The steps from `c` to `c'`, over any number of cycles, with the numbers of the uops
they commit. -/
inductive Trace (env : Env) (c : Core) : List ℕ → Core → Prop
  | refl : Trace env c [] c
  | work {log : List ℕ} {c' c'' : Core} {inp : CycleInput} {a : Action} (h : Trace env c log c')
      (ha : ∀ i, a ≠ .retire i) (hs : Step env inp a c' c'') : Trace env c log c''
  | retire {log : List ℕ} {c' c'' : Core} {inp : CycleInput} {i : ℕ} (h : Trace env c log c')
      (hs : Step env inp (.retire i) c' c'') : Trace env c (log ++ [(c'.uop i).uuid]) c''

section

variable {env : Env} {c c' c'' : Core} {log : List ℕ}

/-- What a move does to the numbers. -/
def Renumbered (c c' : Core) : Prop :=
  (c'.uuids.Sublist c.uuids ∧ c'.fetch.fetchUuid = c.fetch.fetchUuid) ∨
    (c'.uuids = c.uuids ++ [c.fetch.fetchUuid] ∧ c'.fetch.fetchUuid = c.fetch.fetchUuid + 1)

theorem uuids_congr (hord : c'.order = c.order) (huop : ∀ k, (c'.uop k).uuid = (c.uop k).uuid)
    (hq : c'.fetch.fetchq = c.fetch.fetchq) : c'.uuids = c.uuids := by
  unfold Core.uuids
  rw [hord, hq]
  simp only [huop]

theorem Frame.renumbered (h : Frame c c') : Renumbered c c' :=
  .inl ⟨by rw [uuids_congr h.order (fun k => (h.uop k).uuid) h.fetchq], h.fetchUuid⟩

/-- The fetch unit starts over, with the count where it was. -/
theorem resetFetch_uuid (c : Core) (rip : W64) :
    (c.resetFetchUnit rip).fetch.fetchUuid = c.fetch.fetchUuid := by
  unfold Core.resetFetchUnit Core.releaseBlock
  dsimp only
  split <;> rfl

theorem retire_uuid (c : Core) (i : ℕ) : (c.retire i).fetch.fetchUuid = c.fetch.fetchUuid := by
  rw [← (commitMemory_frame c i).fetch]
  unfold Core.retire
  dsimp only
  split <;> rfl

theorem Move.uuids (hring : c.ring.WF ROB_SIZE) (h : Move c c') : Renumbered c c' := by
  cases h with
  | kept hf => exact hf.renumbered
  | settle i st hf => exact hf.renumbered
  | forward i j sfra hf => exact hf.renumbered
  | fence i j k hf => exact hf.renumbered
  | recycle => exact .inl ⟨List.Sublist.refl _, rfl⟩
  | aliased i j k =>
    obtain ⟨hr, huop, hfetch, -⟩ := aliasRedispatch_frame c i j k
    have heq : (c.aliasRedispatch i j k).uuids = c.uuids :=
      uuids_congr (by unfold Core.order; rw [hr]) (fun k => by rw [huop]) (by rw [hfetch])
    exact .inl ⟨by rw [heq], by rw [hfetch]⟩
  | @rename uop rest p hq hroom =>
    refine .inl ⟨?_, rfl⟩
    obtain ⟨hnew, hold⟩ := renameUop_uop (c := c) uop rest p
    -- the head of the fetch queue becomes the last entry: the numbers stay in one list
    have hne : ∀ k ∈ c.order, k ≠ c.ring.tail := fun k hk hkt => hring.tail_not_mem (hkt ▸ hk)
    have heq : (c.renameUop uop rest p).uuids = c.uuids := by
      unfold Core.uuids
      rw [renameUop_order hring hroom, List.map_append, List.map_singleton, hnew, hq, List.map_cons,
        List.append_assoc]
      refine congrArg₂ _ (List.map_congr_left fun k hk => ?_) rfl
      rw [hold k (hne k hk)]
    rw [heq]
  | @retire i rest hord =>
    obtain ⟨hr, huop, -, -, -, -, hfetch, -⟩ := retire_frame c i
    have hne : c.ring.order ROB_SIZE ≠ [] := by show c.order ≠ []; rw [hord]; simp
    have hord' : (c.retire i).order = c.order.tail := by
      show (c.retire i).ring.order ROB_SIZE = _
      rw [hr]; exact hring.order_commit hne
    refine .inl ⟨?_, retire_uuid c i⟩
    unfold Core.uuids
    rw [hord', huop, hfetch.fetchq]
    exact List.Sublist.append ((List.tail_sublist _).map _) (List.Sublist.refl _)
  | @annul rc X Y e hord =>
    obtain ⟨-, hord', huop, hfetch⟩ := annulFrom_ind
      (P := fun c' => c'.uop = c.uop ∧ c'.fetch = c.fetch) rc hring hord (fun _ _ => ⟨rfl, rfl⟩)
      fun _ _ _ _ _ h => h
    refine .inl ⟨?_, by rw [hfetch]⟩
    unfold Core.uuids
    rw [hord', huop, hfetch, hord]
    exact List.Sublist.append ((List.sublist_append_left _ _).map _) (List.Sublist.refl _)
  | resetFetch rip =>
    have hr := fetchReset c rip
    refine .inl ⟨?_, resetFetch_uuid c rip⟩
    have hord : (c.resetFetchUnit rip).order = c.order := by unfold Core.order; rw [hr.ring]
    unfold Core.uuids
    rw [hord, hr.uop, hr.fetchq]
    exact List.Sublist.append (List.Sublist.refl _) (List.nil_sublist _)
  | fetch u hr huop _ _ _ hq hu huuid =>
    refine .inr ⟨?_, huuid⟩
    unfold Core.uuids Core.order
    rw [hr, huop, hq, List.map_append, List.map_singleton, hu, List.append_assoc]
  | flush =>
    refine .inl ⟨?_, ?_⟩
    · have hq : c.flushPipeline.fetch.fetchq = [] :=
        (fetchReset { c with regs := c.regs.flush c.order } (c.ctx.commitarf Reg.rip)).fetchq
      unfold Core.uuids
      rw [flushPipeline_order, hq]
      exact List.nil_sublist _
    · exact resetFetch_uuid { c with regs := c.regs.flush c.order } (c.ctx.commitarf Reg.rip)

/-! ### The order of the numbers -/

theorem Core.Numbered.renumbered (h : c.Numbered log) (hr : Renumbered c c') : c'.Numbered log := by
  rcases hr with ⟨hsub, huuid⟩ | ⟨heq, huuid⟩
  · have hsub' : (log ++ c'.uuids).Sublist (log ++ c.uuids) := (List.Sublist.refl log).append hsub
    exact ⟨h.sorted.sublist hsub', fun u hu => by rw [huuid]; exact h.lt u (hsub'.subset hu)⟩
  · refine ⟨?_, fun u hu => ?_⟩
    · rw [heq, ← List.append_assoc, List.pairwise_append]
      refine ⟨h.sorted, List.pairwise_singleton _ _, fun a ha b hb => ?_⟩
      rw [List.mem_singleton.1 hb]
      exact h.lt a ha
    · rw [heq, ← List.append_assoc, List.mem_append, List.mem_singleton] at hu
      rw [huuid]
      rcases hu with hu | rfl
      · exact Nat.lt_succ_of_lt (h.lt u hu)
      · exact Nat.lt_succ_self _

theorem Core.Numbered.moves (h : c.Numbered log) (hring : c.ring.WF ROB_SIZE)
    (hm : ReflTransGen Move c c') : c'.Numbered log :=
  (chain_inv (I := fun c => c.ring.WF ROB_SIZE ∧ c.Numbered log)
    (fun _ _ h hm => ⟨hm.ring_wf h.1, h.2.renumbered (hm.uuids h.1)⟩) ⟨hring, h⟩ hm).2

/-- The head's number goes from the buffer to the log. -/
theorem Core.Numbered.retire (h : c.Numbered log) (hring : c.ring.WF ROB_SIZE) {i : ℕ}
    (hhead : c.order.head? = some i) : (c.retire i).Numbered (log ++ [(c.uop i).uuid]) := by
  obtain ⟨rest, hord⟩ : ∃ rest, c.order = i :: rest := List.head?_eq_some_iff.1 hhead
  obtain ⟨hr, huop, -, -, -, -, hfetch, -⟩ := retire_frame c i
  have hne : c.ring.order ROB_SIZE ≠ [] := by show c.order ≠ []; rw [hord]; simp
  have hord' : (c.retire i).order = rest := by
    show (c.retire i).ring.order ROB_SIZE = _
    rw [hr, hring.order_commit hne]
    show c.order.tail = rest
    rw [hord]; rfl
  have huuids : log ++ [(c.uop i).uuid] ++ (c.retire i).uuids = log ++ c.uuids := by
    unfold Core.uuids
    rw [hord', huop, hfetch.fetchq, hord, List.append_assoc]
    rfl
  exact ⟨by rw [huuids]; exact h.sorted, by rw [huuids, retire_uuid]; exact h.lt⟩

theorem Trace.numbered (hb : Base c) (h : c.Numbered []) (ht : Trace env c log c') :
    Base c' ∧ c'.Numbered log := by
  induction ht with
  | refl => exact ⟨hb, h⟩
  | work _ _ hs ih => exact ⟨hs.base ih.1, ih.2.moves ih.1.sched.ring_wf (hs.moves ih.1)⟩
  | retire _ hs ih =>
    refine ⟨hs.base ih.1, ?_⟩
    cases hs with
    | retire i hhead => exact ih.2.retire ih.1.sched.ring_wf hhead

/-! ### Runs -/

theorem rule_numbered (env : Env) (ok : RunState → CycleInput → Prop) :
    Rule env ok (fun _ => True) fun c => c.Numbered [] := by
  refine rule_of_moves env ok (fun _ _ hr h hm => h.renumbered (hm.uuids hr)) (fun _ _ => trivial)
    (fun c ctx space bbcache n _ => ?_) fun _ _ => trivial
  have hnil : (c.started ctx space bbcache n).uuids = [] := by
    have hq : (c.started ctx space bbcache n).fetch.fetchq = [] :=
      (fetchReset _ _).fetchq
    unfold Core.uuids
    rw [hq]
    show (Core.flushPipeline _).order.map _ ++ _ = _
    rw [flushPipeline_order]
    rfl
  exact ⟨by rw [hnil]; exact .nil, by rw [hnil]; simp⟩

/-- Steps of which none retires. -/
theorem Trace.quiet {inp : CycleInput} {p : Action → Prop} (ht : Trace env c log c')
    (hp : ∀ a, p a → ∀ i, a ≠ .retire i) (h : Steps env inp p c' c'') : Trace env c log c'' := by
  induction h with
  | refl => exact ht
  | tail _ hs ih =>
    obtain ⟨a, ha, hs⟩ := hs
    exact ih.work (hp a ha) hs

/-- The commit stage takes some uops off the head of the buffer, and these are the ones it retires. -/
theorem Trace.commits {inp : CycleInput} (ht : Trace env c log c') (hb : Base c')
    (h : CommitSteps env inp c' c'') : ∃ m ≤ c'.order.length, c''.order = c'.order.drop m ∧
      c''.uop = c'.uop ∧ Base c'' ∧
      Trace env c (log ++ (c'.order.take m).map fun i => (c'.uop i).uuid) c'' := by
  induction h with
  | refl => exact ⟨0, Nat.zero_le _, rfl, rfl, hb, by simpa using ht⟩
  | tail _ hs ih =>
    obtain ⟨m, hm, hord, huop, hbase, htrace⟩ := ih
    rcases hs with ⟨i, hs⟩ | ⟨hs, hord', huop'⟩
    · have hbase' := hs.base hbase
      have htrace' := htrace.retire hs
      cases hs with
      | retire i hhead =>
        obtain ⟨rest, hcons⟩ := List.head?_eq_some_iff.1 hhead
        have hdrop : c'.order.drop m = i :: rest := hord.symm.trans hcons
        have hlt : m < c'.order.length := by
          by_contra hge
          rw [List.drop_eq_nil_of_le (Nat.le_of_not_lt hge)] at hdrop
          cases hdrop
        rw [List.drop_eq_getElem_cons hlt, List.cons.injEq] at hdrop
        refine ⟨m + 1, hlt, ?_, ?_, hbase', ?_⟩
        · rw [retire_order hbase.sched.ring_wf hcons, hdrop.2]
        · rw [(retire_frame _ i).2.1, huop]
        · rw [List.take_add_one, List.getElem?_eq_getElem hlt, hdrop.1, List.map_append, ← List.append_assoc]
          rw [huop] at htrace'
          exact htrace'
    · exact ⟨m, hm, hord'.trans hord, huop'.trans huop, hs.base hbase, htrace.work (fun _ => by simp) hs⟩

theorem CycleState.run_cons (inp : CycleInput) (s : CycleState) (st : Stage) (l : List Stage) :
    s.run env inp (st :: l) = (s.step env inp st).run env inp l := rfl

/-- The stages after the commit stage retire nothing. -/
theorem Trace.stages {inp : CycleInput} {s : CycleState} (ht : Trace env c log s.core) (hb : Base s.core)
    (l : List Stage) (hl : Stage.commit ∉ l) : Trace env c log (s.run env inp l).core := by
  induction l generalizing s with
  | nil => exact ht
  | cons st l ih =>
    have hst : st ≠ .commit := fun heq => hl (heq ▸ List.mem_cons_self)
    have hsteps : Steps env inp _ s.core (s.step env inp st).core := CycleState.step_steps hb st
    refine ih (ht.quiet (fun a ha i hi => hst (ha.1 i hi)) hsteps) (hsteps.base hb) fun hm => ?_
    exact hl (List.mem_cons_of_mem st hm)

/-- A cycle commits what leaves the buffer in its commit stage. -/
theorem Trace.retired {s : RunState} (ht : Trace env c log s.core) (hb : Base s.core) (inp : CycleInput) :
    Trace env c (log ++ s.core.retired inp) (s.iterate env inp).core := by
  have hclock : Steps env inp (· = .work) s.core (s.core.clockStage inp) := clockStage_steps s.core
  have hwork : ∀ a, a = Action.work → ∀ i, a ≠ .retire i := by
    rintro _ rfl
    simp
  have hb' := hclock.base hb
  have hcommit : CommitSteps env inp (s.core.clockStage inp) (s.core.clockStage inp).commitStage.2 :=
    commitStage_steps hb'
  obtain ⟨m, hm, hord, -, hbase, htrace⟩ := (ht.quiet hwork hclock).commits hb' hcommit
  have hlen : (s.core.clockStage inp).order.length - (s.core.clockStage inp).commitStage.2.order.length = m := by
    rw [hord, List.length_drop]
    omega
  have hretired : s.core.retired inp =
      ((s.core.clockStage inp).order.take m).map fun i => ((s.core.clockStage inp).uop i).uuid := by
    unfold Core.retired
    dsimp only
    rw [hlen]
  rw [← hretired] at htrace
  have hstages : cycleStages = .clock :: .commit :: cycleStages.drop 2 := rfl
  have hno : Stage.commit ∉ cycleStages.drop 2 := by simp [cycleStages]
  generalize cycleStages.drop 2 = l at hstages hno
  have hcycle : s.core.runcycle env inp =
      (((CycleState.init s.core).step env inp .clock).step env inp .commit).run env inp l := by
    unfold Core.runcycle
    rw [hstages, CycleState.run_cons, CycleState.run_cons]
  have htick : Step env inp .work (s.core.runcycle env inp).core (s.iterate env inp).core :=
    .tick (iterate_tick s inp)
  refine Trace.work ?_ (fun _ => by simp) htick
  rw [hcycle]
  exact Trace.stages htrace hbase l hno

/-- The cycles of a run are a trace, of what their commit stages retire. -/
theorem trace_after {s : RunState} (hs : Reachable env anyInput s) (inp : ℕ → CycleInput) (n : ℕ)
    (hgo : ∀ k ≤ n, (s.after env inp k).done = false ∧ (s.after env inp k).exiting = false) :
    Trace env s.core (s.retired env inp n) (s.after env inp n).core := by
  induction n with
  | zero => exact .refl
  | succ n ih =>
    have ht := ih fun k hk => hgo k (by omega)
    have hr := reachable_after hs inp n (fun k hk => hgo k (by omega)) fun _ _ => trivial
    exact ht.retired (hr.base.2 (hgo n (by omega)).1) (inp n)

/-- From any state of any run on, the numbers of the uops that commit are strictly
increasing and below those of all uops still in flight: uops commit in the order they
were fetched, each at most once. The cycles of a run are such a trace, and what commits in
it is what leaves the buffer in their commit stages. -/
theorem commits_in_fetch_order (env : Env) {s : RunState} (hs : Reachable env anyInput s) (hdone : s.done = false) :
    (∀ log c', Trace env s.core log c' → (log ++ c'.uuids).Pairwise (· < ·)) ∧
      ∀ (inp : ℕ → CycleInput) (n : ℕ),
        (∀ k ≤ n, (s.after env inp k).done = false ∧ (s.after env inp k).exiting = false) →
        Trace env s.core (s.retired env inp n) (s.after env inp n).core :=
  ⟨fun _ _ ht => (ht.numbered (hs.base.2 hdone) (((rule_numbered env anyInput).reachable hs).2 hdone)).2.sorted,
    fun inp n hgo => trace_after hs inp n hgo⟩

/-- The first four uops have committed. -/
theorem commits_in_fetch_order_fenceCode :
    Trace Env.fenceCode (fenceCodeRun 0).core [0, 1, 2, 3] (fenceCodeRun 17).core ∧
      ([0, 1, 2, 3] ++ (fenceCodeRun 17).core.uuids).Pairwise (· < ·) := by
  obtain ⟨hsorted, htrace⟩ := commits_in_fetch_order Env.fenceCode (reachable_fenceCode (by omega : 0 < 18)) rfl
  have ht := htrace (fun _ => coldInput) 17 fun k hk => goes_fenceCode (by omega)
  rw [fenceCode_flight.2.2.1] at ht
  exact ⟨ht, hsorted _ _ ht⟩

end
end X86Sim.Ooo
