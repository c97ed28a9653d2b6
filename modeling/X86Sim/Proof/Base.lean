import X86Sim.Proof.Annul
import X86Sim.Proof.Step

/-!
# The shape of the pipeline

What every property of the core rests on. `Base`: the scheduling state is in order
(`SchedWF`), only loads in the miss list have requests, and the uops in the buffer and
in the fetch queue are whole instructions, except that an instruction some of whose
uops have committed may stand at the head (`Split`). What is left of that one is
`Settled`: past issue, so nothing redispatches or annuls it.

* `Base.update`: a step that keeps the buffer's order.
* `Base.cut`: an annulment from the first uop of an instruction on.
* `annulStart_som`: where an annulment starts.
-/

namespace X86Sim.Ooo

open IssueQueue

/-- A uop in this state has its result, or is on the way from it to commit. -/
def RobState.Settled : RobState → Prop
  | .completed _ | .readyToWriteback _ | .readyToCommit => True
  | _ => False

/-- The mark `som` of the uop the fetch unit delivers next. -/
def Fetch.nextSom (f : Fetch) : Bool :=
  match f.unalignedLdstBuf, f.currentBasicBlock with
  | op :: _, _ => op.som
  | [], none => true
  | [], some bb => (bb.transops[f.transopIndex]?.map (·.som)).getD true

/-- The blocks of the cache and the fetch unit hold decoded code. -/
structure FetchWF (f : Fetch) (cache : BasicBlockCache) : Prop where
  blocks : ∀ {rip b}, cache.blocks rip = some b → b.bb.WF
  current : ∀ bb ∈ f.currentBasicBlock, bb.WF
  buf : ∀ op ∈ f.unalignedLdstBuf, op.WF ∧ op.cond ≠ LdstAlign.normal.cond
  bufLinked : f.unalignedLdstBuf ≠ [] → ∃ bb op b, f.currentBasicBlock = some bb ∧
    bb.transops[f.transopIndex]? = some op ∧ Linked b f.unalignedLdstBuf op.eom

namespace Core

variable (c : Core)

/-- The uops in the pipeline, in program order. -/
def robOps (l : List ℕ) : List TransOp := l.map fun i => (c.uop i).op
def queueOps : List TransOp := c.fetch.fetchq.map (·.op)

/-- The buffer is what is left of a partly committed instruction, `W`, and whole
instructions `post`, the last of which the fetch queue and the fetch unit continue. -/
structure Split (W post : List ℕ) : Prop where
  order : c.order = W ++ post
  settled : ∀ k ∈ W, ∃ st, c.sched.lists.current k = some st ∧ st.Settled
  inner : ∀ k ∈ W.dropLast, (c.uop k).op.eom = false
  last : ∀ e ∈ W.getLast?, (c.uop e).op.eom = true
  linked : Linked true (c.robOps post ++ c.queueOps) c.fetch.nextSom

end Core

/-- The shape of the pipeline, with `inq` saying which queue each entry sits in. -/
structure BaseAt (inq : ℕ → Option Cluster) (c : Core) : Prop where
  sched : SchedWF c.ring c.sched inq
  lfrq : ∀ i, c.ls.lfrq i = true → c.sched.lists.current i = some .cacheMiss
  split : ∃ W post, c.Split W post
  ops : ∀ i ∈ c.order, (c.uop i).op.WF
  queue : ∀ u ∈ c.fetch.fetchq, u.op.WF
  fetch : FetchWF c.fetch c.mach.bbcache

/-- The invariant every step keeps: the entries sit where their states say. -/
abbrev Base (c : Core) : Prop := BaseAt c.sched.inq c

/-- The parts of the fetch unit the shape is about. -/
structure SameFetch (f f' : Fetch) : Prop where
  fetchq : f'.fetchq = f.fetchq
  block : f'.currentBasicBlock = f.currentBasicBlock
  index : f'.transopIndex = f.transopIndex
  buf : f'.unalignedLdstBuf = f.unalignedLdstBuf

/-- Two uops with the same place in their instruction. -/
def SameMarks (op op' : TransOp) : Prop := op'.som = op.som ∧ op'.eom = op.eom ∧ (op.WF → op'.WF)

section

variable {c c' : Core} {f f' : Fetch} {cache cache' : BasicBlockCache}
  {inq inq' : ℕ → Option Cluster}

theorem SameFetch.refl (f : Fetch) : SameFetch f f := ⟨rfl, rfl, rfl, rfl⟩

theorem SameFetch.nextSom (h : SameFetch f f') : f'.nextSom = f.nextSom := by
  unfold Fetch.nextSom
  rw [h.block, h.index, h.buf]

theorem SameMarks.refl (op : TransOp) : SameMarks op op := ⟨rfl, rfl, id⟩

theorem SameMarks.of_eq {op op' : TransOp} (h : op' = op) : SameMarks op op' := h ▸ SameMarks.refl op

theorem FetchWF.congr (h : FetchWF f cache) (hf : SameFetch f f') (hcache : cache.Shrunk cache') :
    FetchWF f' cache' where
  blocks hb := by
    obtain ⟨b, hb, heq⟩ := hcache _ _ hb
    rw [← heq]
    exact h.blocks hb
  current := by rw [hf.block]; exact h.current
  buf := by rw [hf.buf]; exact h.buf
  bufLinked := by rw [hf.buf, hf.block, hf.index]; exact h.bufLinked

theorem robOps_congr {l : List ℕ} (h : ∀ k ∈ l, SameMarks (c.uop k).op (c'.uop k).op) :
    (c'.robOps l).map (fun op => (op.som, op.eom)) = (c.robOps l).map fun op => (op.som, op.eom) := by
  simp only [Core.robOps, List.map_map]
  refine List.map_congr_left fun k hk => ?_
  obtain ⟨hs, he, -⟩ := h k hk
  simp only [Function.comp, hs, he]

/-- A step that keeps the order, the marks and the fetch unit. -/
theorem BaseAt.update (h : BaseAt inq c) (hsched : SchedWF c'.ring c'.sched inq')
    (hlfrq : ∀ i, c'.ls.lfrq i = true → c'.sched.lists.current i = some .cacheMiss)
    (hord : c'.order = c.order) (hops : ∀ k, SameMarks (c.uop k).op (c'.uop k).op)
    (hset : ∀ W post, c.Split W post → ∀ k ∈ W, ∀ st, c.sched.lists.current k = some st →
      st.Settled → ∃ st', c'.sched.lists.current k = some st' ∧ st'.Settled)
    (hfetch : SameFetch c.fetch c'.fetch) (hcache : c.mach.bbcache.Shrunk c'.mach.bbcache) :
    BaseAt inq' c' where
  sched := hsched
  lfrq := hlfrq
  split := by
    obtain ⟨W, post, hsp⟩ := h.split
    refine ⟨W, post, hord.trans hsp.order, fun k hk => ?_, fun k hk => ?_, fun e he => ?_, ?_⟩
    · obtain ⟨st, hst, hs⟩ := hsp.settled k hk
      exact hset W post hsp k hk st hst hs
    · rw [(hops k).2.1]; exact hsp.inner k hk
    · rw [(hops e).2.1]; exact hsp.last e he
    · have hq : c'.queueOps = c.queueOps := by unfold Core.queueOps; rw [hfetch.fetchq]
      rw [hq, hfetch.nextSom]
      refine (linked_congr ?_).1 hsp.linked
      rw [List.map_append, List.map_append, robOps_congr fun k _ => hops k]
  ops i hi := (hops i).2.2 (h.ops i (hord ▸ hi))
  queue := by rw [hfetch.fetchq]; exact h.queue
  fetch := h.fetch.congr hfetch hcache

/-- A step that leaves the lists alone. -/
theorem BaseAt.frame (h : BaseAt inq c) (hring : c'.ring = c.ring)
    (hlists : c'.sched.lists = c.sched.lists) (hsched : SchedWF c.ring c'.sched inq)
    (hlfrq : ∀ i, c'.ls.lfrq i = true → c.ls.lfrq i = true)
    (hops : ∀ k, SameMarks (c.uop k).op (c'.uop k).op) (hfetch : SameFetch c.fetch c'.fetch)
    (hcache : c.mach.bbcache.Shrunk c'.mach.bbcache) : BaseAt inq c' := by
  refine h.update (by rw [hring]; exact hsched) (fun i hi => ?_)
    (by unfold Core.order; rw [hring]) hops (fun _ _ _ k _ st hst hs => ?_) hfetch hcache
  · rw [hlists]; exact h.lfrq i (hlfrq i hi)
  · rw [hlists]; exact ⟨st, hst, hs⟩

/-- A step that touches neither the buffer nor the fetch unit. -/
theorem Base.rest (h : Base c) (hring : c'.ring = c.ring) (hsched : c'.sched = c.sched)
    (hls : ∀ i, c'.ls.lfrq i = true → c.ls.lfrq i = true) (huop : c'.uop = c.uop)
    (hfetch : SameFetch c.fetch c'.fetch) (hcache : c.mach.bbcache.Shrunk c'.mach.bbcache) :
    Base c' := by
  show BaseAt c'.sched.inq c'
  rw [hsched]
  exact h.frame hring (by rw [hsched]) (by rw [hsched]; exact h.sched) hls
    (fun k => by rw [huop]; exact SameMarks.refl _) hfetch hcache

/-- An entry changes lists, to where it sits; if it was settled it stays so. -/
theorem BaseAt.move (h : BaseAt inq c) {i : ℕ} (st : RobState) (hi : i ∈ c.order) (hne : st ≠ .free)
    (hok : st.ClusterOk (c.sched.cluster i)) (hring : c'.ring = c.ring)
    (hlists : c'.sched.lists = c.sched.lists.changestate i st)
    (hvalid : c'.sched.entryValid = c.sched.entryValid) (hcluster : c'.sched.cluster = c.sched.cluster)
    (hqueue : ∀ cl, uopids (c'.sched.queue cl) = uopids (c.sched.queue cl))
    (hlfrq : ∀ k, c'.ls.lfrq k = true → c.ls.lfrq k = true ∧ (k = i → st = .cacheMiss))
    (huop : c'.uop = c.uop)
    (hset : ∀ st', c.sched.lists.current i = some st' → st'.Settled → st.Settled)
    (hfetch : SameFetch c.fetch c'.fetch) (hcache : c.mach.bbcache.Shrunk c'.mach.bbcache) :
    BaseAt inq c' := by
  have hcur : ∀ k, c'.sched.lists.current k = if k = i then some st else c.sched.lists.current k := by
    intro k; rw [hlists]; exact StateLists.current_changestate i k st
  refine h.update ?_ (fun k hk => ?_) (by unfold Core.order; rw [hring])
    (fun k => by rw [huop]; exact SameMarks.refl _) (fun _ _ _ k _ st' hst hs => ?_) hfetch hcache
  · rw [hring]
    exact (h.sched.changestate hi hne hok).congr hlists hvalid hcluster hqueue
  · obtain ⟨hold, hnew⟩ := hlfrq k hk
    rw [hcur]
    split
    · rename_i hki; rw [hnew hki]
    · exact h.lfrq k hold
  · rw [hcur]
    split
    · rename_i hki
      subst hki
      exact ⟨st, rfl, hset st' hst hs⟩
    · exact ⟨st', hst, hs⟩

theorem inq_eq_of_lists {s s' : Sched} (h : s'.lists = s.lists) : s'.inq = s.inq := by
  funext k; unfold Sched.inq; rw [h]

/-- The same between two states of the same queue, or of none. -/
theorem Base.move (h : Base c) (st : RobState) {i : ℕ} {st₀ : RobState} (hst₀ : c.sched.lists.current i = some st₀)
    (hne₀ : st₀ ≠ .free) (hne : st ≠ .free) (hq : st.queue? = st₀.queue?)
    (hok : st.ClusterOk (c.sched.cluster i)) (hset : st₀.Settled → st.Settled)
    (hring : c'.ring = c.ring) (hlists : c'.sched.lists = c.sched.lists.changestate i st)
    (hvalid : c'.sched.entryValid = c.sched.entryValid) (hcluster : c'.sched.cluster = c.sched.cluster)
    (hqueue : ∀ cl, uopids (c'.sched.queue cl) = uopids (c.sched.queue cl))
    (hlfrq : ∀ k, c'.ls.lfrq k = true → c.ls.lfrq k = true ∧ (k = i → st = .cacheMiss))
    (huop : c'.uop = c.uop) (hfetch : SameFetch c.fetch c'.fetch)
    (hcache : c.mach.bbcache.Shrunk c'.mach.bbcache) : Base c' := by
  have hinq : c'.sched.inq = c.sched.inq := by
    have hch : (c.sched.changestate i st).lists = c.sched.lists.changestate i st := rfl
    rw [inq_eq_of_lists (hlists.trans hch.symm), Sched.inq_changestate, hq, ← Sched.inq_of hst₀,
      Function.update_eq_self]
  show BaseAt c'.sched.inq c'
  rw [hinq]
  refine BaseAt.move h st (h.sched.mem_order hst₀ hne₀) hne hok hring hlists hvalid hcluster hqueue
    hlfrq huop (fun st' hst' hs => ?_) hfetch hcache
  rw [hst₀] at hst'
  exact hset (Option.some.inj hst' ▸ hs)

end

/-! ### Where an annulment starts -/

section

variable {ring : CircQueue} {p : ℕ → Bool} {X : List ℕ} {s : ℕ}

theorem scanDown_self {n i : ℕ} (hn : 0 < n) (hi : p i = true) : Core.scanDown p n i = i := by
  cases n with
  | zero => omega
  | succ n => simp [Core.scanDown, hi]

theorem scanUp_self {n i : ℕ} (hn : 0 < n) (hi : p i = true) : Core.scanUp p n i = i := by
  cases n with
  | zero => omega
  | succ n => simp [Core.scanUp, hi]

/-- Walking down from `i` ends at the nearest entry with `p`. -/
theorem scanDown_spec (hring : ring.WF ROB_SIZE) (hs : p s = true) (M : List ℕ) :
    ∀ (i : ℕ) (Y : List ℕ) (n : ℕ), ring.order ROB_SIZE = X ++ (s :: M) ++ i :: Y →
      (∀ k ∈ M, p k = false) → p i = false → M.length + 2 ≤ n → Core.scanDown p n i = s := by
  induction M using List.reverseRecOn with
  | nil =>
    intro i Y n hord _ hi hn
    obtain ⟨n, rfl⟩ : ∃ m, n = m + 2 := ⟨n - 2, by simp at hn; omega⟩
    have hlt : s < ROB_SIZE := hring.lt_of_mem (by rw [hord]; simp)
    have hnext : CircQueue.next ROB_SIZE s = i :=
      hring.next_of_order (X := X) (Y := Y) (by rw [hord]; simp)
    have hprev : CircQueue.prev ROB_SIZE i = s := by rw [← hnext]; exact CircQueue.prev_next hlt
    simp [Core.scanDown, hi, hprev, hs]
  | append_singleton M m ih =>
    intro i Y n hord hM hi hn
    obtain ⟨n, rfl⟩ : ∃ k, n = k + 1 := ⟨n - 1, by simp at hn; omega⟩
    have hlt : m < ROB_SIZE := hring.lt_of_mem (by rw [hord]; simp)
    have hnext : CircQueue.next ROB_SIZE m = i :=
      hring.next_of_order (X := X ++ s :: M) (Y := Y) (by rw [hord]; simp)
    have hprev : CircQueue.prev ROB_SIZE i = m := by rw [← hnext]; exact CircQueue.prev_next hlt
    rw [Core.scanDown, if_neg (by simp [hi]), hprev]
    refine ih m (i :: Y) n (by rw [hord]; simp) (fun k hk => hM k (by simp [hk])) (hM m (by simp)) ?_
    simp at hn; omega

/-- The last element with `p`, if there is one. -/
theorem exists_last {l : List ℕ} (h : ∃ k ∈ l, p k = true) :
    ∃ X s M, l = X ++ s :: M ∧ p s = true ∧ ∀ k ∈ M, p k = false := by
  induction l using List.reverseRecOn with
  | nil => simp at h
  | append_singleton l a ih =>
    by_cases ha : p a = true
    · exact ⟨l, a, [], rfl, ha, by simp⟩
    · obtain ⟨k, hk, hpk⟩ := h
      have hkl : k ∈ l := by
        rcases List.mem_append.1 hk with hk | hk
        · exact hk
        · rw [List.mem_singleton.1 hk] at hpk; exact absurd hpk ha
      obtain ⟨X, s, M, rfl, hs, hM⟩ := ih ⟨k, hkl, hpk⟩
      refine ⟨X, s, M ++ [a], by simp, hs, fun k hk => ?_⟩
      rcases List.mem_append.1 hk with hk | hk
      · exact hM k hk
      · rw [List.mem_singleton.1 hk]; simpa using ha

end

section

variable {c : Core} {W post : List ℕ} {i : ℕ}

theorem annulStart_false (c : Core) (i : ℕ) :
    c.annulStart i false = Core.scanDown (fun j => (c.uop j).op.som) ROB_SIZE i := by
  unfold Core.annulStart
  exact if_neg Bool.false_ne_true

/-- An annulment of an instruction past the partly committed one starts at its first
uop, in the buffer and no later than the entry it was asked for. -/
theorem annulStart_som (hring : c.ring.WF ROB_SIZE) (h : c.Split W post) (hi : i ∈ post) :
    ∃ X s Y, post = X ++ s :: Y ∧ i ∈ s :: Y ∧ (c.uop s).op.som = true ∧
      c.annulStart i false = s := by
  obtain ⟨A, B, hpost⟩ := List.append_of_mem hi
  -- the first uop of `post` starts an instruction
  have hfirst : ∃ k ∈ A ++ [i], (c.uop k).op.som = true := by
    have hlink := h.linked
    rw [hpost] at hlink
    cases A with
    | nil =>
      simp only [Core.robOps, List.nil_append, List.map_cons, List.cons_append, linked_cons] at hlink
      exact ⟨i, by simp, hlink.1⟩
    | cons a A =>
      simp only [Core.robOps, List.map_cons, List.cons_append, linked_cons] at hlink
      exact ⟨a, by simp, hlink.1⟩
  obtain ⟨X, s, M, hX, hs, hM⟩ := exists_last (p := fun k => (c.uop k).op.som) hfirst
  have hlen : (c.ring.order ROB_SIZE).length < ROB_SIZE := by
    rw [CircQueue.order, CircQueue.length_forward]
    exact CircQueue.dist_lt hring.head_lt hring.tail_lt
  have hord : c.ring.order ROB_SIZE = W ++ post := h.order
  rcases M.eq_nil_or_concat with rfl | ⟨M', m, rfl⟩
  · -- `i` starts its instruction itself
    obtain ⟨rfl, hsi⟩ := List.append_inj' hX rfl
    rw [List.cons.injEq] at hsi
    obtain ⟨rfl, -⟩ := hsi
    refine ⟨A, i, B, hpost, by simp, hs, ?_⟩
    rw [annulStart_false]
    exact scanDown_self (by decide) hs
  · have hX' : A ++ [i] = (X ++ s :: M') ++ [m] := by rw [hX]; simp
    obtain ⟨hA, hmi⟩ := List.append_inj' hX' rfl
    rw [List.cons.injEq] at hmi
    obtain ⟨rfl, -⟩ := hmi
    refine ⟨X, s, M' ++ i :: B, by rw [hpost, hA]; simp, by simp, hs, ?_⟩
    rw [annulStart_false]
    refine scanDown_spec hring hs M' (X := W ++ X) i B ROB_SIZE (by rw [hord, hpost, hA]; simp)
      (fun k hk => hM k (by simp [hk])) (hM i (by simp)) ?_
    rw [hord, hpost, hA] at hlen
    simp at hlen
    omega

/-- A branch that ends its instruction keeps itself and annuls what comes after. -/
theorem annulStart_eom (he : (c.uop i).op.eom = true) :
    c.annulStart i true = CircQueue.next ROB_SIZE i := by
  have hup : Core.scanUp (fun j => (c.uop j).op.eom) ROB_SIZE i = i := scanUp_self (by decide) he
  unfold Core.annulStart
  simp only [hup, if_true]

end
end X86Sim.Ooo
