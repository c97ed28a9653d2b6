import X86Sim.Proof.SchedWF
import X86Sim.Proof.Execute

/-!
# Annulment and redispatch, as they change the buffer

`annulFrom_spec`: annulment from an entry on keeps the older entries as they are and
frees the rest, whatever state they were in. `redispatchDependents_spec`: the recovery
of an overtaken store sends the store and everything after it back to dispatch.
-/

namespace X86Sim.Ooo

open IssueQueue

/-! ### Annulment -/

/-- The entries `kept` stay as they are, the entries `doomed` are free. -/
structure Annulled (kept doomed : List ℕ) (c c' : Core) : Prop where
  order : c'.order = kept
  state : ∀ k, c'.sched.lists.current k =
    if k ∈ doomed then some .free else c.sched.lists.current k
  uop : c'.uop = c.uop
  vals : c'.vals = c.vals
  fetch : c'.fetch = c.fetch
  ctx : c'.ctx = c.ctx
  mach : c'.mach = c.mach
  lfrq : ∀ k, c'.ls.lfrq k = true → k ∉ doomed ∧ c.ls.lfrq k = true

section

variable {ring : CircQueue} {s : Sched} {inq : ℕ → Option Cluster} {c : Core} {X Y : List ℕ} {i : ℕ}

/-- Pass 1 over a list of entries. -/
theorem SchedWF.annulIqSlots (rc : ℕ → Bool) (l : List ℕ) (h : SchedWF ring s inq) :
    SchedWF ring (l.foldl (fun s i => s.annulIqSlot (rc i) i) s)
      (fun k => if k ∈ l then none else inq k) := by
  induction l generalizing s inq with
  | nil => simpa using h
  | cons i l ih =>
    have heq : (fun k => if k ∈ i :: l then none else inq k) =
        fun k => if k ∈ l then none else Function.update inq i none k := by
      funext k
      by_cases hk : k = i
      · subst hk; simp
      · simp [hk]
    rw [heq]
    exact ih (h.annulIqSlot (rc i) i)

theorem Sched.lists_annulIqSlots (rc : ℕ → Bool) (l : List ℕ) (s : Sched) :
    (l.foldl (fun s i => s.annulIqSlot (rc i) i) s).lists = s.lists := by
  induction l generalizing s with
  | nil => rfl
  | cons i l ih =>
    rw [List.foldl_cons, ih]
    unfold Sched.annulIqSlot
    cases hc : s.cluster i with
    | none => dsimp only; split <;> rfl
    | some cl => dsimp only; split <;> exact (s.lists_annuluop cl i).1

theorem issueqCount_annulIqSlots {rc : ℕ → Bool} (hrc : ∀ i, rc i = false) (l : List ℕ)
    (hcount : s.issueqCount = occupied s.queue) :
    (l.foldl (fun s i => s.annulIqSlot (rc i) i) s).issueqCount =
      occupied (l.foldl (fun s i => s.annulIqSlot (rc i) i) s).queue := by
  induction l generalizing s with
  | nil => exact hcount
  | cons i l ih => exact ih (issueqCount_annulIqSlot hcount fun _ => hrc i)

theorem annulEntry_order (hring : c.ring.WF ROB_SIZE) (hord : c.order = X ++ [i]) :
    (c.annulEntry i).order = X := by
  have hne : c.ring.order ROB_SIZE ≠ [] := by
    show c.order ≠ []
    rw [hord]; simp
  have hdrop := hring.order_annul hne
  show (c.ring.annul ROB_SIZE).order ROB_SIZE = X
  rw [hdrop]
  show c.order.dropLast = X
  rw [hord, List.dropLast_concat]

/-- Pass 3 for the youngest entry. -/
theorem SchedWF.annulEntry (h : SchedWF c.ring c.sched inq) (hord : c.order = X ++ [i])
    (hnone : inq i = none) :
    SchedWF (c.annulEntry i).ring (c.annulEntry i).sched inq ∧ (c.annulEntry i).order = X := by
  have hne : c.ring.order ROB_SIZE ≠ [] := by
    show c.order ≠ []
    rw [hord]; simp
  have hdrop : (c.ring.annul ROB_SIZE).order ROB_SIZE = X := annulEntry_order h.ring_wf hord
  have hnd : c.order.Nodup := h.ring_wf.nodup_order
  have hi : i ∉ X := by
    rw [hord] at hnd
    exact fun hm => (List.disjoint_of_nodup_append hnd) hm List.mem_cons_self
  refine ⟨h.leave (h.ring_wf.annul hne) (show i ∈ c.order by rw [hord]; simp) (fun j => ?_) hnone, hdrop⟩
  have hmem : j ∈ c.ring.order ROB_SIZE ↔ j ∈ X ∨ j = i := by
    show j ∈ c.order ↔ _
    rw [hord]; simp
  show j ∈ (c.ring.annul ROB_SIZE).order ROB_SIZE ↔ _
  rw [hdrop, hmem]
  constructor
  · intro hj; exact ⟨Or.inl hj, by rintro rfl; exact hi hj⟩
  · rintro ⟨hj | hj, hji⟩
    · exact hj
    · exact absurd hj hji

/-- Pass 3, youngest first. -/
theorem annulEntries_spec (l : List ℕ) (h : SchedWF c.ring c.sched inq)
    (hord : c.order = X ++ l.reverse) (hnone : ∀ i ∈ l, inq i = none) :
    SchedWF (l.foldl Core.annulEntry c).ring (l.foldl Core.annulEntry c).sched inq ∧
      Annulled X l c (l.foldl Core.annulEntry c) := by
  induction l generalizing c with
  | nil => exact ⟨h, by simpa using hord, by simp, rfl, rfl, rfl, rfl, rfl, by simp⟩
  | cons i l ih =>
    rw [List.reverse_cons, ← List.append_assoc] at hord
    obtain ⟨h1, hord1⟩ := h.annulEntry hord (hnone i List.mem_cons_self)
    obtain ⟨h2, ha⟩ := ih h1 hord1 fun j hj => hnone j (List.mem_cons_of_mem i hj)
    refine ⟨h2, ha.order, fun k => ?_, ha.uop, ha.vals, ha.fetch, ha.ctx, ha.mach, fun k hk => ?_⟩
    · rw [List.foldl_cons, ha.state]
      show (if k ∈ l then _ else ((c.sched.resetEntry i).changestate i .free).lists.current k) = _
      simp only [Sched.changestate, StateLists.current_changestate, List.mem_cons, Sched.resetEntry]
      by_cases hkl : k ∈ l <;> by_cases hki : k = i <;> simp [hkl, hki]
    · obtain ⟨hkl, hk1⟩ := ha.lfrq k hk
      have hki : k ≠ i := by
        rintro rfl
        simp [Core.annulEntry, LoadStore.resetEntry] at hk1
      refine ⟨by simp [hki, hkl], ?_⟩
      have hgive : ∀ op ring, ((c.ls.giveBack i op ring).lfrq k = true → c.ls.lfrq k = true) := by
        intro op ring
        unfold LoadStore.giveBack
        split
        · exact id
        · split
          · dsimp only; split <;> exact id
          · exact id
      refine hgive (c.uop i).op (c.ls.ring.annul LSQ_SIZE) ?_
      simpa [Core.annulEntry, LoadStore.resetEntry, hki] using hk1

/-- Annulment from an entry on: the older entries stay, it and the younger ones are free. -/
theorem annulFrom_spec {e : ℕ} (rc : ℕ → Bool) (h : SchedWF c.ring c.sched inq)
    (hord : c.order = X ++ e :: Y) :
    SchedWF (c.annulFrom rc e).ring (c.annulFrom rc e).sched
        (fun k => if k ∈ e :: Y then none else inq k) ∧
      Annulled X (e :: Y) c (c.annulFrom rc e) := by
  obtain ⟨-, hafter⟩ := h.ring_wf.cut hord
  have he : e ∈ c.ring.order ROB_SIZE := by show e ∈ c.order; rw [hord]; simp
  have hdoomed : CircQueue.forward ROB_SIZE e c.ring.tail = e :: Y := by
    rw [← hafter]; exact h.ring_wf.forwardFrom_cons he
  unfold Core.annulFrom
  simp only [hdoomed]
  have h1 := h.annulIqSlots rc (e :: Y).reverse
  simp only [List.mem_reverse] at h1
  have hlists := Sched.lists_annulIqSlots rc (e :: Y).reverse c.sched
  generalize (e :: Y).reverse.foldl (fun s i => s.annulIqSlot (rc i) i) c.sched = s1 at h1 hlists ⊢
  generalize (CircQueue.forward ROB_SIZE c.ring.head e).foldl
    (fun r i => r.mapSpec (c.uop i).op (r.physreg i)) c.regs.restoreSpec = r1
  obtain ⟨h2, ha⟩ := annulEntries_spec (c := { c with sched := s1, regs := r1 }) (X := X)
    (e :: Y).reverse h1 (by rw [List.reverse_reverse]; exact hord)
    (fun i hi => by rw [List.mem_reverse] at hi; simp [hi])
  refine ⟨h2, ha.order, fun k => ?_, ha.uop, ha.vals, ha.fetch, ha.ctx, ha.mach, fun k hk => ?_⟩
  · rw [ha.state]
    simp only [List.mem_reverse, hlists]
  · have := ha.lfrq k hk
    simpa only [List.mem_reverse] using this

/-- Annulment keeps the count, if the flag of pass 1 reads false. -/
theorem issueqCount_annulFrom {rc : ℕ → Bool} (hrc : ∀ i, rc i = false) (e : ℕ)
    (hcount : c.sched.issueqCount = occupied c.sched.queue) :
    (c.annulFrom rc e).sched.issueqCount = occupied (c.annulFrom rc e).sched.queue := by
  have hfold : ∀ (l : List ℕ) (c : Core), (l.foldl Core.annulEntry c).sched.queue = c.sched.queue ∧
      (l.foldl Core.annulEntry c).sched.issueqCount = c.sched.issueqCount := by
    intro l
    induction l with
    | nil => exact fun c => ⟨rfl, rfl⟩
    | cons i l ih => exact fun c => ih (c.annulEntry i)
  unfold Core.annulFrom
  dsimp only
  rw [(hfold _ _).1, (hfold _ _).2]
  exact issueqCount_annulIqSlots hrc _ hcount

end

/-! ### Redispatch -/

/-- The entries of `l` are back in the dispatch list, the others stay as they are. -/
structure Redispatched (l : List ℕ) (c c' : Core) : Prop where
  ring : c'.ring = c.ring
  state : ∀ k, c'.sched.lists.current k =
    if k ∈ l then some .readyToDispatch else c.sched.lists.current k
  uop : c'.uop = c.uop
  fetch : c'.fetch = c.fetch
  ctx : c'.ctx = c.ctx
  mach : c'.mach = c.mach
  lfrq : ∀ k, c'.ls.lfrq k = true → k ∉ l ∧ c.ls.lfrq k = true

section

variable {inq : ℕ → Option Cluster} {c : Core} {i this : ℕ}

theorem lfrq_redispatch (ls : LoadStore) (i : ℕ) :
    (ls.redispatch i).lfrq = Function.update ls.lfrq i false := by
  unfold LoadStore.redispatch
  dsimp only
  split <;> rfl

/-- The slice of an overtaken store is everything from it on. -/
theorem redispatchLoop_spec (l depmap : List ℕ) (prev : Option ℕ)
    (hst : isstore (c.uop this).op.opcode) (h : SchedWF c.ring c.sched inq)
    (hl : ∀ i ∈ l, i ∈ c.order) :
    SchedWF (Core.redispatchLoop this l depmap prev c).ring
        (Core.redispatchLoop this l depmap prev c).sched
        (fun k => if k ∈ l then none else inq k) ∧
      Redispatched l c (Core.redispatchLoop this l depmap prev c) := by
  induction l generalizing c depmap prev inq with
  | nil => exact ⟨by simpa [Core.redispatchLoop] using h, rfl, by simp [Core.redispatchLoop], rfl, rfl, rfl, rfl,
      by simp [Core.redispatchLoop]⟩
  | cons i l ih =>
    have hall : Core.redispatchLoop this (i :: l) depmap prev c =
        Core.redispatchLoop this l (i :: depmap) (some i) (c.redispatch i prev) := by
      rw [Core.redispatchLoop, if_pos (by simp [hst])]
    have h1 : SchedWF (c.redispatch i prev).ring (c.redispatch i prev).sched
        (Function.update inq i none) := h.redispatch (hl i List.mem_cons_self) prev
    obtain ⟨h2, hr⟩ := ih (c := c.redispatch i prev) (i :: depmap) (some i) hst h1
      fun j hj => hl j (List.mem_cons_of_mem i hj)
    rw [hall]
    have hinq : (fun k => if k ∈ i :: l then none else inq k) =
        fun k => if k ∈ l then none else Function.update inq i none k := by
      funext k
      by_cases hk : k = i
      · subst hk; simp
      · simp [hk]
    refine ⟨hinq ▸ h2, hr.ring, fun k => ?_, hr.uop, hr.fetch, hr.ctx, hr.mach, fun k hk => ?_⟩
    · have hlists : (c.redispatch i prev).sched.lists =
          c.sched.lists.changestateAfter i .readyToDispatch prev := by
        show (c.sched.redispatch i prev).lists = _
        unfold Sched.redispatch
        dsimp only
        rw [(Sched.redispatchIqSlot_eq _ i).1]
      rw [hr.state, hlists, StateLists.current_changestateAfter]
      by_cases hkl : k ∈ l <;> by_cases hki : k = i <;> simp [hkl, hki]
    · obtain ⟨hkl, hk1⟩ := hr.lfrq k hk
      have hk2 : Function.update c.ls.lfrq i false k = true := by
        rw [← lfrq_redispatch]; exact hk1
      have hki : k ≠ i := by rintro rfl; simp at hk2
      exact ⟨by simp [hki, hkl], by simpa [hki] using hk2⟩

theorem issueqCount_redispatchLoop (l depmap : List ℕ) (prev : Option ℕ)
    (hcount : c.sched.issueqCount = occupied c.sched.queue) :
    (Core.redispatchLoop this l depmap prev c).sched.issueqCount =
      occupied (Core.redispatchLoop this l depmap prev c).sched.queue := by
  induction l generalizing c depmap prev with
  | nil => exact hcount
  | cons i l ih =>
    unfold Core.redispatchLoop
    split
    · exact ih _ _ (issueqCount_redispatch hcount i prev)
    · exact ih _ _ hcount

/-- The store that was overtaken and everything after it. -/
theorem redispatchDependents_spec {X Y : List ℕ} (hst : isstore (c.uop i).op.opcode)
    (h : SchedWF c.ring c.sched inq) (hord : c.order = X ++ i :: Y) :
    SchedWF c.ring (c.redispatchDependents i).sched
        (fun k => if k ∈ i :: Y then none else inq k) ∧
      Redispatched (i :: Y) c (c.redispatchDependents i) := by
  have hi : i ∈ c.ring.order ROB_SIZE := by show i ∈ c.order; rw [hord]; simp
  have hfrom : c.ring.forwardFrom ROB_SIZE i = i :: Y := by
    rw [h.ring_wf.forwardFrom_cons hi, (h.ring_wf.cut hord).2]
  unfold Core.redispatchDependents
  rw [hfrom]
  obtain ⟨h1, hr⟩ := redispatchLoop_spec (i :: Y) [i] none hst h
    fun j hj => by rw [hord]; exact List.mem_append_right X hj
  exact ⟨hr.ring ▸ h1, hr⟩

end
end X86Sim.Ooo
