import X86Sim.Proof.Stages

/-!
# Runs

`Rule`: what a property of the core needs so that it holds in every run, with what is
left of it between runs (`idle`). `Rule.reachable` and `Rule.atStage` are the two
places it then holds: between cycles, and at the end of every stage.
-/

namespace X86Sim.Ooo

/-- The core at the start of a run: `reset`, then the flush that loads the context. -/
def Core.started (c : Core) (ctx : Context) (space : AddressSpace) (bbcache : BasicBlockCache)
    (stopAtUserInsns : ℕ) : Core :=
  Core.flushPipeline (Core.reset { c with
    ctx := ctx
    mach := { c.mach with
      space := space, bbcache := bbcache, stopped := false, stopAtUserInsns := stopAtUserInsns } })

/-- The numbers of the uops that leave the buffer in the commit stage of a cycle, oldest first. -/
def Core.retired (inp : CycleInput) (c : Core) : List ℕ :=
  let c := c.clockStage inp
  (c.order.take (c.order.length - c.commitStage.2.order.length)).map fun i => (c.uop i).uuid

section

variable {env : Env} {ok : RunState → CycleInput → Prop} {s : RunState} {c : Core}

/-- The core after one turn of the run loop is the core after the cycle, but for counters. -/
theorem iterate_tick (s : RunState) (inp : CycleInput) :
    Tick (s.core.runcycle env inp).core (s.iterate env inp).core := by
  unfold RunState.iterate
  dsimp only
  generalize s.core.runcycle env inp = r
  split <;> exact ⟨rfl, rfl, rfl, rfl, rfl, rfl, rfl, rfl, rfl⟩

theorem iterate_steps {inp : CycleInput} (h : Base s.core) :
    Steps env inp (fun _ => True) s.core (s.iterate env inp).core :=
  (CycleState.run_steps (s := CycleState.init s.core) h cycleStages).trans
    ((Step.tick (iterate_tick s inp)).steps trivial)

/-- The shape of the pipeline in every run, and decoded blocks between runs. -/
theorem Reachable.base (hs : Reachable env ok s) :
    BlocksWF s.core.mach.bbcache ∧ (s.done = false → Base s.core) := by
  induction hs with
  | construct ctx mach _ _ hcache =>
    refine ⟨fun rip b hb => ?_, fun h => by cases h⟩
    have hb' : mach.bbcache.blocks rip = some b := hb
    rw [hcache] at hb'
    cases hb'
  | @start s ctx space bbcache n hs hdone hcache ih =>
    have hb : Base (s.core.started ctx space bbcache n) := .flush (ih.1.shrunk hcache)
    exact ⟨hb.blocks, fun _ => hb⟩
  | iterate inp hs hdone hgo hok ih =>
    have hsteps : Steps env inp (fun _ => True) _ _ := iterate_steps (ih.2 hdone)
    have hb := hsteps.base (ih.2 hdone)
    exact ⟨hb.blocks, fun _ => hb⟩
  | @finish s hs hdone hexit ih =>
    have hb : Base s.finish.core := (Base.flush (ih.2 hdone).blocks).invalidateSmc
    exact ⟨hb.blocks, fun _ => hb⟩

/-- What makes `inv` hold in every run and `idle` between runs. -/
structure Rule (env : Env) (ok : RunState → CycleInput → Prop) (idle inv : Core → Prop) : Prop where
  construct : ∀ ctx mach, mach.bbcache = BasicBlockCache.init → idle (Core.construct ctx mach)
  start : ∀ (c : Core) ctx space bbcache n, idle c → c.mach.bbcache.Shrunk bbcache →
    inv (c.started ctx space bbcache n)
  step : ∀ s inp a c c', ok s inp → Base c → inv c → Step env inp a c c' → inv c'
  idle_of : ∀ c, Base c → inv c → idle c
  finish : ∀ c, Base c → inv c → idle c.flushPipeline.invalidateSmc

variable {idle inv : Core → Prop}

theorem Rule.steps (hr : Rule env ok idle inv) {inp : CycleInput} (hok : ok s inp) {c c' : Core}
    (hb : Base c) (hi : inv c) {p : Action → Prop} (h : Steps env inp p c c') : Base c' ∧ inv c' :=
  chain_inv (I := fun c => Base c ∧ inv c)
    (fun c c' hc ⟨a, _, hst⟩ => ⟨hst.base hc.1, hr.step s inp a c c' hok hc.1 hc.2 hst⟩) ⟨hb, hi⟩ h

theorem Rule.reachable (hr : Rule env ok idle inv) (hs : Reachable env ok s) :
    (s.done = true → idle s.core) ∧ (s.done = false → inv s.core) := by
  induction hs with
  | construct ctx mach _ _ hcache => exact ⟨fun _ => hr.construct ctx mach hcache, fun h => by cases h⟩
  | @start s ctx space bbcache n hs hdone hcache ih =>
    exact ⟨fun h => (by cases h), fun _ => hr.start s.core ctx space bbcache n (ih.1 hdone) hcache⟩
  | @iterate s inp hs hdone hgo hok ih =>
    obtain ⟨hb, hi⟩ := hr.steps hok (hs.base.2 hdone) (ih.2 hdone) (iterate_steps (hs.base.2 hdone))
    exact ⟨fun _ => hr.idle_of _ hb hi, fun _ => hi⟩
  | @finish s hs hdone hexit ih =>
    exact ⟨fun _ => hr.finish s.core (hs.base.2 hdone) (ih.2 hdone), fun h => by cases h⟩

/-- The property holds at the end of every stage of every cycle. -/
theorem Rule.atStage (hr : Rule env ok idle inv) (hc : AtStage env ok c) : Base c ∧ inv c := by
  obtain ⟨s, inp, k, hs, hdone, -, hok, rfl⟩ := hc
  have hb := hs.base.2 hdone
  exact hr.steps hok hb ((hr.reachable hs).2 hdone)
    (CycleState.run_steps (s := CycleState.init s.core) hb (cycleStages.take k))

/-! ### Runs of a fixed program -/

/-- The machine whose code is the block `ops` at every rip, with assists that do nothing. -/
def Env.ofBlock (ops : List TransOp) (bytes : ℕ) (exec : Synthop) (hbytes : bytes ≤ kPageSize)
    (hne : ops ≠ []) (hlinked : Linked true ops true) (hops : ∀ op ∈ ops, op.WF) : Env where
  dec :=
    { decode := fun rvp _ =>
        { rip := rvp, ripTaken := rvp.rip, ripNotTaken := rvp.rip, bytes := bytes
          userInsnCount := 1, transops := ops }
      rip_decode := fun _ _ => rfl
      bytes_decode := fun _ _ => hbytes }
  exec := exec
  assist _ ctx m cache := ⟨ctx, m, cache, none, false⟩
  dec_wf _ _ := ⟨hne, hlinked, hops⟩
  assist_shrunk _ _ _ cache := .refl cache

/-- A new machine, bound to an empty address space. -/
def Machine.init : Machine where
  space := AddressSpace.init true
  bbcache := .init
  simCycle := 0
  totalUserInsnsCommitted := 0
  stopAtUserInsns := 0
  stopAtNextEom := false
  smcInvalidatePending := false
  smcInvalidateRvp := RIPVirtPhys.update 0 false false
  chkRecoveryRip := 0
  lastCommitAtCycle := 0
  dispatchDeadlockCountdown := 0
  fuAvail := 0
  stopped := false

/-- A cycle in which every access hits and `annul` finds `rc` in its local. -/
def CycleInput.hit (rc : Bool) : CycleInput where
  icacheHit _ := true
  missbuf _ := true
  predictTaken _ := true
  predictTarget _ := 0
  icacheWakeup := false
  dcacheWakeups := []
  l1hit _ := true
  lfrqFull _ := false
  lsap _ := false
  rc _ := rc
  pfec _ := .none

namespace RunState

/-- The first run of a new machine on the address space `m`. -/
def first (arf : Reg → W64) (m : AddressSpace) (insns : ℕ) : RunState :=
  RunState.start ⟨Core.construct (Context.ofArf arf) Machine.init, 0, false, false, none, true, false, 1000000⟩
    (Context.ofArf arf) m .init insns

/-- The state after `n` cycles with the given inputs. -/
def after (env : Env) (inp : ℕ → CycleInput) (s : RunState) : ℕ → RunState
  | 0 => s
  | n + 1 => (after env inp s n).iterate env (inp n)

/-- What the commit stages of these cycles retire. -/
def retired (env : Env) (inp : ℕ → CycleInput) (s : RunState) : ℕ → List ℕ
  | 0 => []
  | n + 1 => retired env inp s n ++ (s.after env inp n).core.retired (inp n)

end RunState

theorem reachable_first (arf : Reg → W64) (m : AddressSpace) (insns : ℕ) :
    Reachable env ok (RunState.first arf m insns) :=
  .start (Context.ofArf arf) m .init insns (.construct (Context.ofArf arf) Machine.init false (1000000) rfl) rfl
    (.refl _)

theorem RunState.goes_of_iterate {inp : CycleInput}
    (h : (s.iterate env inp).done = false ∧ (s.iterate env inp).exiting = false) :
    s.done = false ∧ s.exiting = false := by
  unfold RunState.iterate at h
  dsimp only at h
  split at h
  · cases h.1
  · simp only [Bool.or_eq_false_iff] at h
    exact ⟨h.1, h.2.1.1.1⟩

/-- A run that goes on after `n` cycles has gone on before. -/
theorem RunState.goes_of_after {inp : ℕ → CycleInput} {n : ℕ}
    (h : (s.after env inp n).done = false ∧ (s.after env inp n).exiting = false) {k : ℕ} (hk : k ≤ n) :
    (s.after env inp k).done = false ∧ (s.after env inp k).exiting = false := by
  induction n with
  | zero =>
    obtain rfl := Nat.le_zero.1 hk
    exact h
  | succ n ih =>
    rcases Nat.le_succ_iff.1 hk with hle | rfl
    · exact ih (goes_of_iterate h) hle
    · exact h

/-- A run that goes on for `n` cycles. -/
theorem reachable_after (hs : Reachable env ok s) (inp : ℕ → CycleInput) (n : ℕ)
    (hgo : ∀ k < n, (s.after env inp k).done = false ∧ (s.after env inp k).exiting = false)
    (hok : ∀ k < n, ok (s.after env inp k) (inp k)) : Reachable env ok (s.after env inp n) := by
  induction n with
  | zero => exact hs
  | succ n ih =>
    obtain ⟨hdone, hexit⟩ := hgo n (Nat.lt_succ_self n)
    exact .iterate (inp n) (ih (fun k hk => hgo k (Nat.lt_succ_of_lt hk))
      fun k hk => hok k (Nat.lt_succ_of_lt hk)) hdone hexit (hok n (Nat.lt_succ_self n))

end
end X86Sim.Ooo
