import X86Sim.Proof.Base

/-!
# Every step keeps the shape

One lemma for each kind of step, put together in `Step.base`.
-/

namespace X86Sim.Ooo

open IssueQueue

section

variable {c c' : Core} {i : ℕ} {cl : Cluster}

theorem Base.tick (h : Base c) (ht : Tick c c') : Base c' := by
  refine h.rest ht.ring ht.sched (fun k hk => ?_) ht.uop ?_ ?_
  · rw [ht.ls] at hk; exact hk
  · rw [ht.fetch]; exact ⟨rfl, rfl, rfl, rfl⟩
  · rw [ht.mach]; exact .refl _

/-! ### Wakeups, completion, transfer, writeback -/

theorem lfrq_modifyLsq (c : Core) (i : ℕ) (f : LsqEntry → LsqEntry) :
    (c.modifyLsq i f).lfrq = c.ls.lfrq := by
  unfold Core.modifyLsq; split <;> rfl

/-- A woken entry completes. -/
theorem Base.wakeup (h : Base c) {st₀ : RobState} (hst₀ : c.sched.lists.current i = some st₀)
    (hok : st₀.ClusterOk (c.sched.cluster i) → (c.sched.cluster i).isSome) (hne₀ : st₀ ≠ .free)
    (hq : st₀.queue? = none) : Base (c.wakeup i) := by
  obtain ⟨cl, hcl⟩ := Option.isSome_iff_exists.1 (hok (h.sched.cluster_ok i st₀ hst₀))
  refine h.move (.completed cl) hst₀ hne₀ (by simp) (by rw [hq]; rfl) hcl
    (fun _ => trivial) rfl ?_ rfl rfl (fun _ => rfl) (fun k hk => ?_) rfl (SameFetch.refl _) (.refl _)
  · show c.sched.lists.changestate i (.completed ((c.sched.cluster i).getD 0)) = _
    rw [hcl]; rfl
  · have hk' : Function.update c.ls.lfrq i false k = true := hk
    have hki : k ≠ i := by rintro rfl; simp at hk'
    exact ⟨by simpa [hki] using hk', fun heq => absurd heq hki⟩

theorem Base.loadwakeup (h : Base c) (hl : c.ls.lfrq i = true) : Base (c.loadwakeup i) := by
  have hst := h.lfrq i hl
  unfold Core.loadwakeup
  refine Base.wakeup (h.rest rfl rfl (fun k hk => ?_) rfl (SameFetch.refl _) (.refl _))
    hst id (by simp) rfl
  rwa [lfrq_modifyLsq] at hk

theorem Base.fencewakeup (h : Base c) (hst : c.sched.lists.current i = some .readyToCommit) :
    Base (c.fencewakeup i) := by
  unfold Core.fencewakeup
  refine Base.wakeup (h.rest rfl rfl (fun k hk => ?_) rfl (SameFetch.refl _)
    (.refl _)) hst id (by simp) rfl
  have : (c.modifyLsq i fun e => { e with datavalid := true, addrvalid := true }).lfrq k = true := hk
  rwa [lfrq_modifyLsq] at this

theorem Base.completeEntry (h : Base c) (hst : c.sched.lists.current i = some (.issued cl)) :
    Base (c.completeEntry cl i) := by
  have hcl : c.sched.cluster i = some cl := h.sched.cluster_ok i _ hst
  unfold Core.completeEntry
  dsimp only
  split
  · refine h.move (.completed cl) hst (by simp) (by simp) rfl hcl
      (fun _ => trivial) rfl rfl rfl rfl (fun _ => rfl) (fun k hk => ⟨hk, ?_⟩) rfl (SameFetch.refl _)
      (.refl _)
    rintro rfl
    rw [h.lfrq k hk] at hst
    cases hst
  · exact BaseAt.frame h rfl rfl (h.sched.congr rfl rfl rfl fun _ => rfl) (fun _ hk => hk)
      (fun _ => SameMarks.refl _) (SameFetch.refl _) (.refl _)

theorem uopids_forward (s : Sched) (i : ℕ) (cl dest : Cluster) :
    uopids ((s.forward i cl).queue dest) = uopids (s.queue dest) := by
  simp only [Sched.forward]
  split
  · exact uopids_broadcast _ _
  · rfl

/-- A settled entry has no request. -/
theorem Base.lfrq_other (h : Base c) {st : RobState} (hst : c.sched.lists.current i = some st)
    (hne : st ≠ .cacheMiss) {k : ℕ} (hk : c.ls.lfrq k = true) : k ≠ i := by
  rintro rfl
  rw [h.lfrq k hk] at hst
  exact hne (Option.some.inj hst).symm

theorem Base.transferEntry (h : Base c) (hst : c.sched.lists.current i = some (.completed cl)) :
    Base (c.transferEntry i) := by
  have hcl : c.sched.cluster i = some cl := h.sched.cluster_ok i _ hst
  simp only [Core.transferEntry, hcl]
  split
  · exact h.move (.readyToWriteback cl) hst (by simp) (by simp) rfl hcl (fun _ => trivial)
      rfl rfl rfl rfl (fun dest => uopids_forward _ _ _ _)
      (fun k hk => ⟨hk, fun hki => absurd hki (h.lfrq_other hst (by simp) hk)⟩) rfl
      (SameFetch.refl _) (.refl _)
  · exact BaseAt.frame h rfl rfl (h.sched.congr rfl rfl rfl fun dest => uopids_forward _ _ _ _)
      (fun _ hk => hk) (fun _ => SameMarks.refl _) (SameFetch.refl _) (.refl _)

theorem Base.writebackEntry (h : Base c)
    (hst : c.sched.lists.current i = some (.readyToWriteback cl)) : Base (c.writebackEntry i) := by
  have hcl : c.sched.cluster i = some cl := h.sched.cluster_ok i _ hst
  simp only [Core.writebackEntry, hcl]
  exact h.move .readyToCommit hst (by simp) (by simp) rfl (by rw [hcl]; rfl) (fun _ => trivial)
    rfl rfl rfl rfl (fun dest => uopids_forward _ _ _ _)
    (fun k hk => ⟨hk, fun hki => absurd hki (h.lfrq_other hst (by simp) hk)⟩) rfl
    (SameFetch.refl _) (.refl _)

theorem Base.frontendEntry (h : Base c) (hst : c.sched.lists.current i = some .frontend) :
    Base (c.frontendEntry i) := by
  have hcl : c.sched.cluster i = none := h.sched.cluster_ok i _ hst
  unfold Core.frontendEntry
  dsimp only
  split
  · exact h.move .readyToDispatch hst (by simp) (by simp) rfl hcl
      (fun hs => absurd hs (by simp [RobState.Settled])) rfl rfl rfl rfl (fun _ => rfl)
      (fun k hk => ⟨hk, fun hki => absurd hki (h.lfrq_other hst (by simp) hk)⟩) rfl
      (SameFetch.refl _) (.refl _)
  · exact BaseAt.frame h rfl rfl (h.sched.congr rfl rfl rfl fun _ => rfl) (fun _ hk => hk)
      (fun _ => SameMarks.refl _) (SameFetch.refl _) (.refl _)

theorem Base.clockQueues (h : Base c) : Base { c with sched := c.sched.clockQueues } :=
  BaseAt.frame h rfl rfl (h.sched.congr rfl rfl rfl fun cl => uopids_clock (c.sched.queue cl))
    (fun _ hk => hk) (fun _ => SameMarks.refl _) (SameFetch.refl _) (.refl _)

/-! ### Steps that leave the buffer alone -/

theorem Base.fault (h : Base c) (j : ℕ) : Base ((c.forceFpUnavailable j).noteException j) := by
  have hforce : Base (c.forceFpUnavailable j) := by
    unfold Core.forceFpUnavailable
    dsimp only
    split
    · refine h.rest rfl rfl (fun k hk => ?_) rfl (SameFetch.refl _) (.refl _)
      have hk' : (c.modifyLsq j fun e => { e with invalid := true }).lfrq k = true := hk
      rwa [lfrq_modifyLsq] at hk'
    · exact h
  exact hforce.rest rfl rfl (fun _ hk => hk) rfl (SameFetch.refl _) (.refl _)

end

/-! ### The cache of blocks -/

section

variable {cache : BasicBlockCache}

theorem shrunk_setRefcount (cache : BasicBlockCache) (rip : W64) (f : ℕ → ℕ) :
    cache.Shrunk (cache.setRefcount rip f) := by
  intro r b' hb
  obtain ⟨b, hold, rfl⟩ := Option.map_eq_some_iff.1 hb
  exact ⟨b, hold, rfl⟩

theorem shrunk_invalidateBlock (cache : BasicBlockCache) (b : CachedBlock) :
    cache.Shrunk (cache.invalidateBlock b).2 := by
  unfold BasicBlockCache.invalidateBlock
  split
  · exact .refl cache
  · intro r b' hb
    have hblocks : Function.update cache.blocks b.bb.rip.rip none r = some b' := by
      revert hb
      dsimp only [BasicBlockCache.removeFromPage]
      split <;> exact id
    by_cases hr : r = b.bb.rip.rip
    · subst hr; simp at hblocks
    · exact ⟨b', by simpa [hr] using hblocks, rfl⟩

theorem shrunk_invalidatePageLoop (fuel : ℕ) (cache : BasicBlockCache) (mfn : ℕ) :
    cache.Shrunk (BasicBlockCache.invalidatePageLoop fuel cache mfn).2 := by
  induction fuel generalizing cache with
  | zero => exact .refl cache
  | succ fuel ih =>
    unfold BasicBlockCache.invalidatePageLoop
    split
    · exact .refl cache
    · exact .refl cache
    · split
      · exact .refl cache
      · rename_i b _
        have hb := shrunk_invalidateBlock cache b
        split
        · rename_i cache' heq; rw [heq] at hb; exact hb
        · rename_i cache' heq; rw [heq] at hb; exact hb.trans (ih cache')

theorem shrunk_invalidatePage (cache : BasicBlockCache) (m : AddressSpace) (mfn : ℕ) :
    cache.Shrunk (cache.invalidatePage m mfn).2.2 := by
  unfold BasicBlockCache.invalidatePage
  split
  · exact .refl cache
  · dsimp only
    split
    · exact .refl cache
    · exact shrunk_invalidatePageLoop _ _ _

theorem shrunk_preInvalidate (cache : BasicBlockCache) (m : AddressSpace) (mfn : ℕ) :
    cache.Shrunk (cache.preInvalidate m mfn).2.2 := by
  unfold BasicBlockCache.preInvalidate
  split
  · exact shrunk_invalidatePage _ _ _
  · exact .refl cache

/-- The blocks of a cache, when they were all decoded. -/
def BlocksWF (cache : BasicBlockCache) : Prop := ∀ rip b, cache.blocks rip = some b → b.bb.WF

theorem BlocksWF.shrunk {cache' : BasicBlockCache} (h : BlocksWF cache) (hs : cache.Shrunk cache') :
    BlocksWF cache' := by
  intro rip b' hb'
  obtain ⟨b, hb, heq⟩ := hs rip b' hb'
  rw [← heq]
  exact h rip b hb

/-- `translate` returns decoded blocks, and keeps them. -/
theorem BlocksWF.translate {dec : Decoder} (hdec : ∀ rvp w, (dec.decode rvp w).WF)
    (h : BlocksWF cache) (m : AddressSpace) (rvp : RIPVirtPhys) :
    BlocksWF (cache.translate dec m rvp).2.2 ∧ ∀ bb ∈ (cache.translate dec m rvp).1, bb.WF := by
  unfold BasicBlockCache.translate
  have h1 := h.shrunk (shrunk_preInvalidate cache m rvp.mfnlo)
  split
  · rename_i heq
    rw [heq] at h1
    exact ⟨h1, by simp⟩
  · rename_i m1 c1 heq
    rw [heq] at h1
    have h2 := BlocksWF.shrunk h1 (shrunk_preInvalidate c1 m1 rvp.mfnhi)
    split
    · rename_i heq2
      rw [heq2] at h2
      exact ⟨h2, by simp⟩
    · rename_i m2 c2 heq2
      rw [heq2] at h2
      split
      · rename_i b hb
        refine ⟨h2, fun bb hbb => ?_⟩
        rw [Option.mem_some_iff] at hbb
        rw [← hbb]
        exact h2 _ b hb
      · have hnew : (dec.decodeAt m2 rvp).WF := hdec _ _
        refine ⟨fun r b hb => ?_, by simpa using hnew⟩
        have hblocks : Function.update c2.blocks (dec.decodeAt m2 rvp).rip.rip
            (some ⟨dec.decodeAt m2 rvp, 0⟩) r = some b := by
          revert hb
          dsimp only [BasicBlockCache.insert, BasicBlockCache.addToPage]
          split <;> exact id
        by_cases hr : r = (dec.decodeAt m2 rvp).rip.rip
        · subst hr
          rw [Function.update_self, Option.some.injEq] at hblocks
          rw [← hblocks]
          exact hnew
        · rw [Function.update_of_ne hr] at hblocks
          exact h2 r b hblocks

end

section

variable {c c' : Core} {i : ℕ} {cl : Cluster}

theorem Base.invalidateSmc (h : Base c) : Base c.invalidateSmc := by
  unfold Core.invalidateSmc
  split
  · refine h.rest rfl rfl (fun _ hk => hk) rfl (SameFetch.refl _) ?_
    dsimp only
    have h1 := shrunk_invalidatePage c.mach.bbcache c.mach.space c.mach.smcInvalidateRvp.mfnlo
    split
    · exact h1.trans (shrunk_invalidatePage _ _ _)
    · exact h1
  · exact h

/-! ### The fetch unit starts over -/

/-- The fetch unit is empty, the rest as it was. -/
structure FetchReset (c c' : Core) : Prop where
  ring : c'.ring = c.ring
  uop : c'.uop = c.uop
  sched : c'.sched = c.sched
  regs : c'.regs = c.regs
  vals : c'.vals = c.vals
  ls : c'.ls = c.ls
  ctx : c'.ctx = c.ctx
  mach : c'.mach = { c.mach with bbcache := c'.mach.bbcache }
  cache : c.mach.bbcache.Shrunk c'.mach.bbcache
  fetchq : c'.fetch.fetchq = []
  block : c'.fetch.currentBasicBlock = none
  buf : c'.fetch.unalignedLdstBuf = []

theorem fetchReset (c : Core) (rip : W64) : FetchReset c (c.resetFetchUnit rip) := by
  unfold Core.resetFetchUnit Core.releaseBlock
  cases hb : c.fetch.currentBasicBlock with
  | none => exact ⟨rfl, rfl, rfl, rfl, rfl, rfl, rfl, rfl, .refl _, rfl, hb, rfl⟩
  | some bb =>
    exact ⟨rfl, rfl, rfl, rfl, rfl, rfl, rfl, rfl,
      shrunk_setRefcount c.mach.bbcache bb.rip.rip (· - 1), rfl, rfl, rfl⟩

theorem FetchReset.nextSom (h : FetchReset c c') : c'.fetch.nextSom = true := by
  unfold Fetch.nextSom
  rw [h.buf, h.block]

theorem FetchWF.reset (h : BlocksWF c.mach.bbcache) (hr : FetchReset c c') :
    FetchWF c'.fetch c'.mach.bbcache where
  blocks hb := h.shrunk hr.cache _ _ hb
  current bb hbb := by rw [hr.block] at hbb; cases hbb
  buf op hop := by rw [hr.buf] at hop; cases hop
  bufLinked hne := absurd hr.buf hne

/-- The fetch unit starts over behind a buffer of whole instructions. -/
theorem BaseAt.resetFetch {inq : ℕ → Option Cluster} {W post : List ℕ}
    (hsched : SchedWF c.ring c.sched inq)
    (hlfrq : ∀ i, c.ls.lfrq i = true → c.sched.lists.current i = some .cacheMiss)
    (hord : c.order = W ++ post)
    (hset : ∀ k ∈ W, ∃ st, c.sched.lists.current k = some st ∧ st.Settled)
    (hinner : ∀ k ∈ W.dropLast, (c.uop k).op.eom = false)
    (hlast : ∀ e ∈ W.getLast?, (c.uop e).op.eom = true)
    (hlink : Linked true (c.robOps post) true) (hops : ∀ i ∈ c.order, (c.uop i).op.WF)
    (hblocks : BlocksWF c.mach.bbcache) (rip : W64) : BaseAt inq (c.resetFetchUnit rip) := by
  have hr := fetchReset c rip
  have hord' : (c.resetFetchUnit rip).order = c.order := by unfold Core.order; rw [hr.ring]
  constructor
  case sched =>
    rw [hr.ring, hr.sched]
    exact hsched
  case lfrq =>
    intro i hi
    rw [hr.ls] at hi
    rw [hr.sched]
    exact hlfrq i hi
  case split =>
    refine ⟨W, post, hord'.trans hord, ?_, ?_, ?_, ?_⟩
    · rw [hr.sched]
      exact hset
    · rw [hr.uop]
      exact hinner
    · rw [hr.uop]
      exact hlast
    · unfold Core.robOps Core.queueOps at *
      rw [hr.uop, hr.fetchq, hr.nextSom, List.map_nil, List.append_nil]
      exact hlink
  case ops =>
    rw [hord', hr.uop]
    exact hops
  case queue =>
    rw [hr.fetchq]
    simp
  case fetch => exact .reset hblocks hr

theorem inq_reset (s : Sched) : s.reset.inq = fun _ => none := by
  funext i
  simp only [Sched.inq, Sched.reset, StateLists.current_fill, StateLists.current_empty]
  split <;> rfl

/-- A flush leaves the empty pipeline, from any state. -/
theorem Base.flush (hblocks : BlocksWF c.mach.bbcache) : Base c.flushPipeline := by
  unfold Core.flushPipeline
  dsimp only
  have hr := fetchReset { c with regs := c.regs.flush c.order } (c.ctx.commitarf Reg.rip)
  generalize ({ c with regs := c.regs.flush c.order } : Core).resetFetchUnit
    (c.ctx.commitarf Reg.rip) = c1 at hr ⊢
  have hinq := inq_reset c1.sched
  have hord : CircQueue.empty.order ROB_SIZE = [] := CircQueue.order_empty _
  refine ⟨?_, fun i hi => by simp [LoadStore.reset] at hi, ⟨[], [], hord, by simp, by simp, by simp, ?_⟩,
    fun i hi => ?_, ?_, ?_⟩
  · show SchedWF CircQueue.empty c1.sched.reset c1.sched.reset.inq
    rw [hinq]
    exact schedWF_reset c1.sched
  · show Linked true ([] ++ c1.queueOps) c1.fetch.nextSom
    unfold Core.queueOps
    rw [hr.fetchq, hr.nextSom]
    rfl
  · have hi' : i ∈ CircQueue.empty.order ROB_SIZE := hi
    rw [hord] at hi'
    cases hi'
  · show ∀ u ∈ c1.fetch.fetchq, u.op.WF
    rw [hr.fetchq]; simp
  · have := FetchWF.reset (c := { c with regs := c.regs.flush c.order }) hblocks hr
    exact ⟨this.blocks, this.current, this.buf, this.bufLinked⟩

theorem Base.blocks (h : Base c) : BlocksWF c.mach.bbcache := fun _ _ hb => h.fetch.blocks hb

/-- Nothing is in flight: the context and the cache may change. -/
theorem Base.outside (h : Base c) (hring : c'.ring = c.ring) (hsched : c'.sched = c.sched)
    (huop : c'.uop = c.uop) (hls : c'.ls = c.ls) (hfetch : c'.fetch = c.fetch)
    (hcache : c.mach.bbcache.Shrunk c'.mach.bbcache) : Base c' :=
  h.rest hring hsched (fun k hk => by rwa [hls] at hk) huop (by rw [hfetch]; exact SameFetch.refl _) hcache

/-! ### Rename, dispatch, commit -/

theorem Base.renameUop (h : Base c) {uop : FetchBufferEntry} {rest : List FetchBufferEntry}
    (hq : c.fetch.fetchq = uop :: rest) (hroom : 0 < c.ring.remaining ROB_SIZE) (p : PhysReg) :
    Base (c.renameUop uop rest p) := by
  have hord : (c.renameUop uop rest p).order = c.order ++ [c.ring.tail] :=
    h.sched.ring_wf.order_alloc hroom
  have hnot : c.ring.tail ∉ c.order := h.sched.ring_wf.tail_not_mem
  have hne : ∀ k ∈ c.order, k ≠ c.ring.tail := fun k hk hkt => hnot (hkt ▸ hk)
  have hold : ∀ k ∈ c.order, (c.renameUop uop rest p).uop k = c.uop k :=
    fun k hk => Function.update_of_ne (hne k hk) _ _
  have hnew : (c.renameUop uop rest p).uop c.ring.tail = uop := Function.update_self _ _ _
  have hcur : ∀ k, (c.renameUop uop rest p).sched.lists.current k =
      if k = c.ring.tail then some .frontend else c.sched.lists.current k :=
    fun k => StateLists.current_changestate _ k _
  -- the tail is a free slot, so the entry changes no other one and no queue
  have hfree : c.sched.lists.current c.ring.tail = some .free :=
    (h.sched.free_iff _ h.sched.ring_wf.tail_lt).2 hnot
  have hinq : (c.renameUop uop rest p).sched.inq = c.sched.inq := by
    funext k
    unfold Sched.inq
    rw [hcur]
    split
    · rename_i hk; rw [hk, hfree]; rfl
    · rfl
  show BaseAt (c.renameUop uop rest p).sched.inq _
  rw [hinq]
  refine ⟨h.sched.renameEntry hroom, fun i hi => ?_, ?_, fun i hi => ?_, fun u hu => ?_, ?_⟩
  · have hlf : Function.update c.ls.lfrq c.ring.tail false i = true := by
      revert hi
      show (c.renameLsq c.ring.tail uop.op).lfrq i = true → _
      unfold Core.renameLsq
      dsimp only
      split <;> exact id
    have hit : i ≠ c.ring.tail := by rintro rfl; simp at hlf
    rw [Function.update_of_ne hit] at hlf
    rw [hcur, if_neg hit]
    exact h.lfrq i hlf
  · obtain ⟨W, post, hsp⟩ := h.split
    have hWmem : ∀ k ∈ W, k ∈ c.order := fun k hk => by rw [hsp.order]; exact List.mem_append_left _ hk
    have hpmem : ∀ k ∈ post, k ∈ c.order := fun k hk => by rw [hsp.order]; exact List.mem_append_right _ hk
    refine ⟨W, post ++ [c.ring.tail], ?_, fun k hk => ?_, fun k hk => ?_, fun e he => ?_, ?_⟩
    · rw [hord, hsp.order, List.append_assoc]
    · rw [hcur, if_neg (hne k (hWmem k hk))]; exact hsp.settled k hk
    · rw [hold k (hWmem k (List.mem_of_mem_dropLast hk))]; exact hsp.inner k hk
    · rw [hold e (hWmem e (List.mem_of_getLast? he))]; exact hsp.last e he
    · -- the uop moves from the head of the fetch queue to the end of the buffer: the stream is the same
      have hops : (c.renameUop uop rest p).robOps (post ++ [c.ring.tail]) ++
          (c.renameUop uop rest p).queueOps = c.robOps post ++ c.queueOps := by
        have hpost : (c.renameUop uop rest p).robOps post = c.robOps post :=
          List.map_congr_left fun k hk => by rw [hold k (hpmem k hk)]
        have hlast : (c.renameUop uop rest p).robOps [c.ring.tail] = [uop.op] := by
          simp [Core.robOps, hnew]
        have hrest : (c.renameUop uop rest p).queueOps = rest.map (·.op) := rfl
        have hqueue : c.queueOps = uop.op :: rest.map (·.op) := by simp [Core.queueOps, hq]
        rw [hqueue, hrest, ← hpost]
        have : ∀ (c : Core) (a b : List ℕ), c.robOps (a ++ b) = c.robOps a ++ c.robOps b := by
          simp [Core.robOps]
        rw [this, hlast]
        simp
      rw [hops]
      exact hsp.linked
  · rw [hord] at hi
    rcases List.mem_append.1 hi with hi | hi
    · rw [hold i hi]; exact h.ops i hi
    · rw [List.mem_singleton.1 hi, hnew]; exact h.queue uop (by rw [hq]; exact List.mem_cons_self)
  · exact h.queue u (by rw [hq]; exact List.mem_cons_of_mem _ hu)
  · exact ⟨h.fetch.blocks, h.fetch.current, h.fetch.buf, h.fetch.bufLinked⟩

/-- The cluster chosen has a free slot. -/
theorem selectCluster_room (hc : c.selectCluster i = some cl) :
    (c.sched.queue cl).length < ISSUE_QUEUE_SIZE := by
  unfold Core.selectCluster at hc
  dsimp only at hc
  split at hc
  · cases hc
  · rename_i cl₀ hcl₀
    rw [Option.some.injEq] at hc
    have hall : ∀ (l : List Cluster) (best : ℕ × Cluster), (∀ cl ∈ l, (c.sched.queue cl).length < ISSUE_QUEUE_SIZE) →
        (c.sched.queue best.2).length < ISSUE_QUEUE_SIZE →
        (c.sched.queue (l.foldl (fun best cl =>
          if c.clusterOperandTally i cl > best.1 then (c.clusterOperandTally i cl, cl) else best)
          best).2).length < ISSUE_QUEUE_SIZE := by
      intro l
      induction l with
      | nil => exact fun best _ hb => hb
      | cons cl l ih =>
        intro best hl hb
        refine ih _ (fun cl' hcl' => hl cl' (List.mem_cons_of_mem _ hcl')) ?_
        dsimp only
        split
        · exact hl cl List.mem_cons_self
        · exact hb
    have hmem : ∀ cl' ∈ (List.finRange 4).filter fun cl =>
        executableOn (c.uop i).op.opcode cl && IssueQueue.remaining (c.sched.queue cl),
        (c.sched.queue cl').length < ISSUE_QUEUE_SIZE := by
      intro cl' hcl'
      have := (List.mem_filter.1 hcl').2
      simp only [IssueQueue.remaining, Bool.and_eq_true, decide_eq_true_eq] at this
      exact this.2
    rw [← hc]
    exact hall _ _ hmem (hmem cl₀ (List.mem_of_getElem? hcl₀))

/-- The list an entry is dispatched to is one of its cluster's queue. -/
theorem queue?_dispatched (c : Core) (i : ℕ) (cl : Cluster) (needed : Bool) :
    (if needed then RobState.dispatched cl else c.readyToIssueList i cl).queue? = some cl := by
  unfold Core.readyToIssueList
  dsimp only
  split
  · rfl
  · split
    · rfl
    · split <;> rfl

/-- What dispatch does to the scheduling state. -/
theorem dispatchEntry_eq (hd : c.dispatchEntry i = some c') :
    ∃ (cl : Cluster) (needed : Bool) (tags : Operand → Option ℕ), c.selectCluster i = some cl ∧
      c'.sched = { c.sched with
        lists := c.sched.lists.changestate i
          (if needed then .dispatched cl else c.readyToIssueList i cl)
        cluster := Function.update c.sched.cluster i (some cl)
        queue := Function.update c.sched.queue cl ((c.sched.queue cl).insert i tags)
        issueqCount := c.sched.issueqCount + 1 } ∧
      c'.ring = c.ring ∧ c'.uop = c.uop ∧ c'.vals = c.vals ∧ c'.ls = c.ls ∧ c'.fetch = c.fetch ∧
      c'.ctx = c.ctx ∧ c'.mach = c.mach := by
  unfold Core.dispatchEntry at hd
  cases hcl : c.selectCluster i with
  | none => rw [hcl] at hd; cases hd
  | some cl =>
    rw [hcl] at hd
    have hfence : ∀ c : Core, (c.addFenceOperand i).sched = c.sched ∧ (c.addFenceOperand i).ring = c.ring ∧
        (c.addFenceOperand i).uop = c.uop ∧ (c.addFenceOperand i).vals = c.vals ∧
        (c.addFenceOperand i).ls = c.ls ∧ (c.addFenceOperand i).fetch = c.fetch ∧
        (c.addFenceOperand i).ctx = c.ctx ∧ (c.addFenceOperand i).mach = c.mach := by
      intro c
      unfold Core.addFenceOperand
      dsimp only
      split
      · split <;> exact ⟨rfl, rfl, rfl, rfl, rfl, rfl, rfl, rfl⟩
      · exact ⟨rfl, rfl, rfl, rfl, rfl, rfl, rfl, rfl⟩
    dsimp only [Core.findSources] at hd
    obtain ⟨hs, h1, h2, h3, h4, h5, h6, h7⟩ := hfence { c with sched := { c.sched with
      cluster := Function.update c.sched.cluster i (some cl) } }
    generalize Core.addFenceOperand { c with sched := { c.sched with
      cluster := Function.update c.sched.cluster i (some cl) } } i = c1 at hs h1 h2 h3 h4 h5 h6 h7 hd
    generalize ((c1.operandTag i RA).isSome || (c1.operandTag i RB).isSome ||
      (c1.operandTag i RC).isSome || (c1.operandTag i RS).isSome) = needed at hd
    refine ⟨cl, needed, c1.sourceTags i, rfl, ?_⟩
    rw [Option.some.injEq] at hd
    rw [← hd]
    refine ⟨?_, h1, h2, h3, h4, h5, h6, h7⟩
    simp only [Core.changestate, Sched.changestate, Sched.insertIq, Sched.onQueue, hs]
    rfl

theorem Base.dispatchEntry (h : Base c) (hst : c.sched.lists.current i = some .readyToDispatch)
    (hd : c.dispatchEntry i = some c') : Base c' := by
  obtain ⟨cl, needed, tags, hcl, hs, hring, huop, -, hls, hfetch, -, hmach⟩ := dispatchEntry_eq hd
  have hq := queue?_dispatched c i cl needed
  generalize (if needed = true then RobState.dispatched cl else c.readyToIssueList i cl) = st at hs hq
  have hwf := h.sched.dispatch hst (selectCluster_room hcl) hq tags (c.sched.issueqCount + 1)
  rw [← hs] at hwf
  have hcur : ∀ k, c'.sched.lists.current k = if k = i then some st else c.sched.lists.current k := by
    intro k; rw [hs]; exact StateLists.current_changestate i k st
  have hinq : c'.sched.inq = Function.update c.sched.inq i (some cl) := by
    have := c.sched.inq_changestate i st
    rw [hq] at this
    rw [← this]
    exact inq_eq_of_lists (by rw [hs]; rfl)
  show BaseAt c'.sched.inq c'
  rw [hinq]
  refine h.update (by rw [hring]; exact hwf) (fun k hk => ?_) (by unfold Core.order; rw [hring])
    (fun k => by rw [huop]; exact SameMarks.refl _) (fun _ _ _ k _ st' hst' hs' => ?_)
    (by rw [hfetch]; exact SameFetch.refl _) (by rw [hmach]; exact .refl _)
  · rw [hls] at hk
    rw [hcur, if_neg (h.lfrq_other hst (by simp) hk)]
    exact h.lfrq k hk
  · have hki : k ≠ i := by
      rintro rfl
      rw [hst] at hst'
      rw [← Option.some.inj hst'] at hs'
      exact hs'
    exact ⟨st', by rw [hcur, if_neg hki]; exact hst', hs'⟩

/-- Only memory changes. -/
structure MemFrame (c c' : Core) : Prop where
  ring : c'.ring = c.ring
  uop : c'.uop = c.uop
  sched : c'.sched = c.sched
  regs : c'.regs = c.regs
  vals : c'.vals = c.vals
  ls : c'.ls = c.ls
  fetch : c'.fetch = c.fetch
  ctx : c'.ctx = { c.ctx with hostBytes := c'.ctx.hostBytes }
  mach : c'.mach = { c.mach with space := c'.mach.space }

theorem MemFrame.refl (c : Core) : MemFrame c c := ⟨rfl, rfl, rfl, rfl, rfl, rfl, rfl, rfl, rfl⟩

theorem commitstore_frame (c : Core) (e : LsqEntry) : MemFrame c (c.commitstore e) := by
  unfold Core.commitstore
  split
  · exact .refl c
  · split
    · exact ⟨rfl, rfl, rfl, rfl, rfl, rfl, rfl, rfl, rfl⟩
    · exact ⟨rfl, rfl, rfl, rfl, rfl, rfl, rfl, rfl, rfl⟩
    · exact .refl c

theorem commitMemory_frame (c : Core) (i : ℕ) : MemFrame c (c.commitMemory i) := by
  cases hlsq : c.ls.lsq i with
  | none =>
    simp only [Core.commitMemory, hlsq]
    split <;> exact .refl c
  | some j =>
    simp only [Core.commitMemory, hlsq]
    split
    · obtain ⟨h1, h2, h3, h4, h5, h6, h7, h8, h9⟩ := commitstore_frame { c with mach := { c.mach with
        space := c.mach.space.setdirty (c.ls.entry j).smcMfn } } (c.ls.entry j)
      exact ⟨h1, h2, h3, h4, h5, h6, h7, h8, h9⟩
    · exact .refl c

/-- What the commit of an entry changes of the pipeline. -/
theorem retire_frame (c : Core) (i : ℕ) :
    (c.retire i).ring = c.ring.commit ROB_SIZE ∧ (c.retire i).uop = c.uop ∧
      (c.retire i).sched = (c.sched.resetEntry i).changestate i .free ∧
      (c.retire i).regs = c.regs.commitEntry i (c.uop i).op ∧ (c.retire i).vals = c.vals ∧
      (c.retire i).ls =
        (c.ls.giveBack i (c.uop i).op (c.ls.ring.commit LSQ_SIZE)).resetEntry i ∧
      SameFetch c.fetch (c.retire i).fetch ∧
      (c.retire i).mach.bbcache = c.mach.bbcache := by
  obtain ⟨h1, -, h3, h4, h5, h6, h7, -, h9⟩ := commitMemory_frame c i
  have h2 := (commitMemory_frame c i).uop
  have h8 : (c.commitMemory i).mach.bbcache = c.mach.bbcache := by rw [h9]
  clear h9
  unfold Core.retire
  dsimp only
  generalize c.commitMemory i = c1 at *
  have hs : (c1.sched.changestate i .free).resetEntry i = (c.sched.resetEntry i).changestate i .free := by
    rw [h3]; rfl
  split
  · refine ⟨congrArg (CircQueue.commit ROB_SIZE) h1, h2, hs, ?_, h5, ?_, ?_, h8⟩
    · rw [← h4]; rfl
    · rw [← h6]; rfl
    · rw [← h7]; exact ⟨rfl, rfl, rfl, rfl⟩
  · refine ⟨congrArg (CircQueue.commit ROB_SIZE) h1, h2, hs, ?_, h5, ?_, ?_, h8⟩
    · rw [← h4]
    · rw [← h6]
    · rw [← h7]; exact ⟨rfl, rfl, rfl, rfl⟩

/-- The head leaves the buffer. -/
theorem retire_order (hring : c.ring.WF ROB_SIZE) {rest : List ℕ} (hord : c.order = i :: rest) :
    (c.retire i).order = rest := by
  have hne : c.ring.order ROB_SIZE ≠ [] := by show c.order ≠ []; rw [hord]; simp
  show (c.retire i).ring.order ROB_SIZE = rest
  rw [(retire_frame c i).1, hring.order_commit hne]
  show c.order.tail = rest
  rw [hord]; rfl

theorem lfrq_giveBack (ls : LoadStore) (i : ℕ) (op : TransOp) (ring : CircQueue) :
    (ls.giveBack i op ring).lfrq = ls.lfrq := by
  unfold LoadStore.giveBack
  split
  · rfl
  · split
    · dsimp only; split <;> rfl
    · rfl

/-- The uops of an instruction are linked from its start to its end. -/
theorem Core.Head.linked_rest {pre post : List ℕ} {e : ℕ} {b : Bool} {ops : List TransOp} {f : Bool}
    (he : (c.uop e).op.eom = true) (h : Linked b (c.robOps (pre ++ e :: post) ++ ops) f) :
    Linked true (c.robOps post ++ ops) f := by
  have hsplit : c.robOps (pre ++ e :: post) ++ ops =
      (c.robOps pre ++ [(c.uop e).op]) ++ (c.robOps post ++ ops) := by simp [Core.robOps]
  rw [hsplit, linked_append] at h
  obtain ⟨g, hg, hrest⟩ := h
  rw [linked_concat, he] at hg
  rw [hg.2]
  exact hrest

/-- The partly committed instruction goes on. -/
theorem Core.Split.advance {W post : List ℕ} (hsp : c.Split (i :: W) post) (hord : c'.order = W ++ post)
    (huop : c'.uop = c.uop)
    (hset : ∀ k ∈ W ++ post, ∀ st, c.sched.lists.current k = some st → c'.sched.lists.current k = some st)
    (hfetchq : c'.fetch.fetchq = c.fetch.fetchq) (hsom : c'.fetch.nextSom = c.fetch.nextSom) :
    c'.Split W post := by
  constructor
  case order => exact hord
  case settled =>
    intro k hk
    obtain ⟨st, hst, hs⟩ := hsp.settled k (List.mem_cons_of_mem _ hk)
    exact ⟨st, hset k (List.mem_append_left _ hk) st hst, hs⟩
  case inner =>
    intro k hk
    rw [huop]
    refine hsp.inner k ?_
    cases W with
    | nil => simp at hk
    | cons a W =>
      rw [List.dropLast_cons_cons]
      exact List.mem_cons_of_mem _ hk
  case last =>
    intro k hk
    rw [huop]
    refine hsp.last k ?_
    cases W with
    | nil => simp at hk
    | cons a W =>
      rw [List.getLast?_cons_cons]
      exact hk
  case linked =>
    unfold Core.robOps Core.queueOps
    rw [huop, hfetchq, hsom]
    exact hsp.linked

/-- The next instruction is committed up to its first uop, where nothing was partly committed. -/
theorem Core.Split.begin {pre post post' : List ℕ} {e : ℕ} (hsp : c.Split [] post) (hinsn : c.Head pre e)
    (hpost : post = pre ++ e :: post') (hord : c'.order = (pre ++ [e]).tail ++ post') (huop : c'.uop = c.uop)
    (hset : ∀ k ∈ (pre ++ [e]).tail ++ post', ∀ st, c.sched.lists.current k = some st →
      c'.sched.lists.current k = some st)
    (hready : ∀ k ∈ pre ++ [e], c.Committable k)
    (hfetchq : c'.fetch.fetchq = c.fetch.fetchq) (hsom : c'.fetch.nextSom = c.fetch.nextSom) :
    c'.Split (pre ++ [e]).tail post' := by
  constructor
  case order => exact hord
  case settled =>
    intro k hk
    have hk' := List.mem_of_mem_tail hk
    exact ⟨.readyToCommit, hset k (List.mem_append_left _ hk) _ (hready k hk').ready, trivial⟩
  case inner =>
    intro k hk
    rw [huop]
    refine hinsn.inner k ?_
    cases pre with
    | nil => simp at hk
    | cons a pre =>
      simp only [List.cons_append, List.tail_cons, List.dropLast_concat] at hk
      exact List.mem_cons_of_mem _ hk
  case last =>
    intro k hk
    rw [huop]
    cases pre with
    | nil => simp at hk
    | cons a pre =>
      simp only [List.cons_append, List.tail_cons, List.getLast?_concat, Option.mem_some_iff] at hk
      rw [← hk]
      exact hinsn.last
  case linked =>
    have hlink := hsp.linked
    rw [hpost] at hlink
    unfold Core.robOps Core.queueOps
    rw [huop, hfetchq, hsom]
    exact Core.Head.linked_rest hinsn.last hlink

theorem Base.retire (h : Base c) {pre : List ℕ} {e : ℕ} (hhead : c.order.head? = some i)
    (hinsn : c.Head pre e) (hready : ∀ k ∈ pre ++ [e], c.Committable k) : Base (c.retire i) := by
  obtain ⟨rest, hord⟩ : ∃ rest, c.order = i :: rest := by
    cases hc : c.order with
    | nil => rw [hc] at hhead; cases hhead
    | cons a rest => rw [hc] at hhead; cases hhead; exact ⟨rest, rfl⟩
  obtain ⟨hring, huop, hsched, -, -, hls, hfetch, hcache⟩ := retire_frame c i
  have hord' := retire_order h.sched.ring_wf hord
  have hne : ∀ k ∈ rest, k ≠ i := by
    have hnd : c.order.Nodup := h.sched.ring_wf.nodup_order
    rw [hord] at hnd
    exact fun k hk hki => (List.nodup_cons.1 hnd).1 (hki ▸ hk)
  have hst : c.sched.lists.current i = some .readyToCommit := by
    obtain ⟨post, hpost⟩ := hinsn.order
    refine (hready i ?_).ready
    rw [hord] at hpost
    cases pre with
    | nil => simp only [List.nil_append, List.cons.injEq] at hpost; simp [hpost.1]
    | cons a pre => simp only [List.cons_append, List.cons.injEq] at hpost; simp [hpost.1]
  have hcur : ∀ k, (c.retire i).sched.lists.current k =
      if k = i then some .free else c.sched.lists.current k := by
    intro k; rw [hsched]; exact StateLists.current_changestate i k _
  have hinq : (c.retire i).sched.inq = c.sched.inq := by
    funext k
    unfold Sched.inq
    rw [hcur]
    split
    · rename_i hk; rw [hk, hst]; rfl
    · rfl
  have hset : ∀ k ∈ rest, ∀ st, c.sched.lists.current k = some st →
      (c.retire i).sched.lists.current k = some st :=
    fun k hk st hst => by rw [hcur, if_neg (hne k hk)]; exact hst
  show BaseAt (c.retire i).sched.inq _
  rw [hinq]
  constructor
  case sched =>
    have hne' : c.ring.order ROB_SIZE ≠ [] := by show c.order ≠ []; rw [hord]; simp
    rw [hring, hsched]
    refine h.sched.leave (h.sched.ring_wf.commit hne') (show i ∈ c.order by rw [hord]; simp)
      (fun j => ?_) (Sched.inq_of hst)
    rw [← hring]
    show j ∈ (c.retire i).order ↔ j ∈ c.order ∧ j ≠ i
    rw [hord', hord, List.mem_cons]
    exact ⟨fun hj => ⟨Or.inr hj, hne j hj⟩, fun ⟨hj, hji⟩ => hj.resolve_left hji⟩
  case lfrq =>
    intro k hk
    have hk' : Function.update c.ls.lfrq i false k = true := by
      rw [hls] at hk
      simpa only [LoadStore.resetEntry, lfrq_giveBack] using hk
    have hki : k ≠ i := by rintro rfl; simp at hk'
    rw [hcur, if_neg hki]
    exact h.lfrq k (by simpa [hki] using hk')
  case split =>
    obtain ⟨W, post, hsp⟩ := h.split
    have hall := hsp.order
    rw [hord] at hall
    cases W with
    | cons w W =>
      simp only [List.cons_append, List.cons.injEq] at hall
      obtain ⟨rfl, hrest⟩ := hall
      exact ⟨W, post, hsp.advance (hord'.trans hrest) huop (hrest ▸ hset) hfetch.fetchq hfetch.nextSom⟩
    | nil =>
      obtain ⟨post', hpost'⟩ := hinsn.order
      have hrest : rest = (pre ++ [e]).tail ++ post' := by
        rw [hord] at hpost'
        cases pre with
        | nil => simp only [List.nil_append, List.cons.injEq] at hpost'; simp [hpost'.2]
        | cons a pre => simp only [List.cons_append, List.cons.injEq] at hpost'; simp [hpost'.2]
      have hpost : post = pre ++ e :: post' := by
        rw [← hpost', hsp.order]
        rfl
      exact ⟨_, post', hsp.begin hinsn hpost (hord'.trans hrest) huop (hrest ▸ hset) hready
        hfetch.fetchq hfetch.nextSom⟩
  case ops =>
    intro k hk
    rw [huop]
    rw [hord'] at hk
    exact h.ops k (by rw [hord]; exact List.mem_cons_of_mem _ hk)
  case queue =>
    rw [hfetch.fetchq]
    exact h.queue
  case fetch => exact h.fetch.congr hfetch (by rw [hcache]; exact .refl _)

/-! ### Fetch -/

theorem sameMarks_setupBranch (op : TransOp) (predrip : W64) :
    SameMarks op (Core.setupBranch op predrip) := by
  unfold Core.setupBranch
  split
  · split
    · exact ⟨rfl, rfl, fun h => ⟨h.branch_eom, h.rd_zero, h.rd_flags, h.mem_flags⟩⟩
    · exact .refl op
  · split
    · exact ⟨rfl, rfl, fun h => ⟨h.branch_eom, h.rd_zero, h.rd_flags, h.mem_flags⟩⟩
    · exact .refl op

/-- A split load or store stands for the uop it was. -/
theorem splitUnaligned_spec {op : TransOp} (h : op.WF)
    (hmem : op.opcode = .opLd ∨ op.opcode = .opLdx ∨ op.opcode = .opSt) :
    ∃ ag buf b, splitUnaligned op = ag :: buf ∧ buf ≠ [] ∧ ag.WF ∧ ag.som = op.som ∧ ag.eom = b ∧
      Linked b buf op.eom ∧ ∀ op' ∈ buf, op'.WF ∧ op'.cond ≠ LdstAlign.normal.cond := by
  have hbr : isbranch op.opcode = false := by rcases hmem with ho | ho | ho <;> rw [ho] <;> rfl
  have hf : op.setflags = SetFlags.none :=
    h.mem_flags (by rcases hmem with ho | ho | ho <;> rw [ho] <;> rfl)
  have hnot : isbranch op.opcode = true → False := fun hb => by rw [hbr] at hb; cases hb
  have hadd : ¬isbranch .opAdd = true := by decide
  have ht9 : Reg.temp9 ≠ Reg.zf ∧ Reg.temp9 ≠ Reg.cf ∧ Reg.temp9 ≠ Reg.of := by decide
  have ht9z : Reg.temp9 ≠ Reg.zero := by decide
  have ht4 : Reg.temp4 ≠ Reg.zf ∧ Reg.temp4 ≠ Reg.cf ∧ Reg.temp4 ≠ Reg.of := by decide
  have ht4z : Reg.temp4 ≠ Reg.zero := by decide
  have hlo : LdstAlign.lo.cond ≠ LdstAlign.normal.cond := by decide
  have hhi : LdstAlign.hi.cond ≠ LdstAlign.normal.cond := by decide
  unfold splitUnaligned
  dsimp only
  split
  · refine ⟨_, _, false, rfl, List.cons_ne_nil _ _, ⟨fun hb => absurd hb hadd, ht9z, ht9, fun _ => hf⟩,
      rfl, rfl, ⟨rfl, rfl, rfl⟩, ?_⟩
    intro op' hop'
    simp only [List.mem_cons, List.not_mem_nil, or_false] at hop'
    rcases hop' with rfl | rfl
    · exact ⟨⟨fun hb => (hnot hb).elim, ht4z, ht4, fun _ => hf⟩, hlo⟩
    · exact ⟨⟨fun hb => (hnot hb).elim, h.rd_zero, h.rd_flags, fun _ => hf⟩, hhi⟩
  · refine ⟨_, _, false, rfl, List.cons_ne_nil _ _, ⟨fun hb => absurd hb hadd, ht9z, ht9, fun _ => hf⟩,
      rfl, rfl, ⟨rfl, rfl, rfl⟩, ?_⟩
    intro op' hop'
    simp only [List.mem_cons, List.not_mem_nil, or_false] at hop'
    rcases hop' with rfl | rfl
    · exact ⟨⟨fun hb => (hnot hb).elim, h.rd_zero, h.rd_flags, fun _ => hf⟩, hhi⟩
    · exact ⟨⟨fun hb => (hnot hb).elim, h.rd_zero, h.rd_flags, fun _ => hf⟩, hlo⟩

/-- The next uop of the block, whole or the first part of a split one. -/
theorem nextTransop_spec {bb : BasicBlock} {cache : BasicBlockCache} (h : FetchWF c.fetch cache)
    (hcur : c.fetch.currentBasicBlock = some bb) (hidx : c.fetch.transopIndex < bb.transops.length) :
    (c.nextTransop bb).1.WF ∧ (c.nextTransop bb).1.som = c.fetch.nextSom ∧
      (c.nextTransop bb).2.nextSom = (c.nextTransop bb).1.eom ∧ FetchWF (c.nextTransop bb).2 cache ∧
      (c.nextTransop bb).2.fetchq = c.fetch.fetchq := by
  have hbb := h.current bb hcur
  cases hbuf : c.fetch.unalignedLdstBuf with
  | cons op buf =>
    -- a part of a split uop, which is not split again
    obtain ⟨hop, hcond⟩ := h.buf op (by rw [hbuf]; exact List.mem_cons_self)
    obtain ⟨bb', op₀, b, hcur', hop₀, hlink⟩ := h.bufLinked (by rw [hbuf]; exact List.cons_ne_nil _ _)
    rw [hcur] at hcur'
    cases hcur'
    rw [hbuf] at hlink
    obtain ⟨hsom, hlink⟩ := hlink
    have hnot : (op.cond == LdstAlign.normal.cond) = false := by simpa using hcond
    have hnext : c.fetch.nextSom = op.som := by simp only [Fetch.nextSom, hbuf]
    simp only [Core.nextTransop, hbuf, hnot, Bool.and_false, Bool.false_eq_true, if_false]
    refine ⟨⟨hop.branch_eom, hop.rd_zero, hop.rd_flags, hop.mem_flags⟩, hnext.symm, ?_,
      ⟨h.blocks, h.current, fun o ho => ?_, fun hne => ?_⟩, trivial⟩
    · cases buf with
      | nil =>
        simp only [linked_nil] at hlink
        simp only [Fetch.nextSom, hcur, List.isEmpty_nil, if_true]
        rw [hbb.linked.next hop₀, hlink]
      | cons o buf => exact hlink.1
    · exact h.buf o (by rw [hbuf]; exact List.mem_cons_of_mem _ ho)
    · refine ⟨bb, op₀, op.eom, hcur, ?_, hlink⟩
      have : buf.isEmpty = false := by cases buf <;> simp_all
      simp only [this, Bool.false_eq_true, if_false]
      exact hop₀
  | nil =>
    obtain ⟨op, hop₀⟩ : ∃ op, bb.transops[c.fetch.transopIndex]? = some op :=
      ⟨_, List.getElem?_eq_getElem hidx⟩
    have hop : op.WF := hbb.ops op (List.mem_of_getElem? hop₀)
    have hnext : c.fetch.nextSom = op.som := by simp only [Fetch.nextSom, hbuf, hcur, hop₀]; rfl
    simp only [Core.nextTransop, hbuf, hop₀, Option.getD_some]
    generalize hu : (c.getUnalignedHint c.fetch.fetchrip &&
      decide (op.opcode = .opLd ∨ op.opcode = .opLdx ∨ op.opcode = .opSt) &&
      op.cond == LdstAlign.normal.cond) = u
    cases u with
    | false =>
      simp only [Bool.false_eq_true, if_false, List.isEmpty_nil, if_true]
      refine ⟨⟨hop.branch_eom, hop.rd_zero, hop.rd_flags, hop.mem_flags⟩, hnext.symm, ?_,
        ⟨h.blocks, h.current, fun o ho => ?_, fun hne => absurd rfl hne⟩, trivial⟩
      · simp only [Fetch.nextSom, hcur]
        exact hbb.linked.next hop₀
      · cases ho
    | true =>
      have hmem : op.opcode = .opLd ∨ op.opcode = .opLdx ∨ op.opcode = .opSt := by
        simp only [Bool.and_eq_true, decide_eq_true_eq] at hu
        exact hu.1.2
      have hwf : ({ op with unaligned := true } : TransOp).WF :=
        ⟨hop.branch_eom, hop.rd_zero, hop.rd_flags, hop.mem_flags⟩
      obtain ⟨ag, buf, b, hsplit, hne, hag, hsom, heom, hlink, hparts⟩ := splitUnaligned_spec hwf hmem
      have hempty : buf.isEmpty = false := by cases buf <;> simp_all
      simp only [if_true, hsplit, hempty, Bool.false_eq_true, if_false]
      refine ⟨hag, by rw [hsom, hnext], ?_, ⟨h.blocks, h.current, hparts, fun _ => ?_⟩, trivial⟩
      · cases buf with
        | nil => exact absurd rfl hne
        | cons o buf => rw [heom]; exact hlink.1
      · exact ⟨bb, op, b, hcur, hop₀, hlink⟩

/-- Only the fetch unit and what it fetches from change. -/
structure FetchFrame (c c' : Core) : Prop where
  ring : c'.ring = c.ring
  uop : c'.uop = c.uop
  sched : c'.sched = c.sched
  regs : c'.regs = c.regs
  vals : c'.vals = c.vals
  ls : c'.ls = c.ls
  ctx : c'.ctx = c.ctx
  mach : c'.mach = { c.mach with space := c'.mach.space, bbcache := c'.mach.bbcache }

theorem FetchFrame.refl (c : Core) : FetchFrame c c := ⟨rfl, rfl, rfl, rfl, rfl, rfl, rfl, rfl⟩

theorem FetchFrame.trans {c₁ c₂ c₃ : Core} (h : FetchFrame c₁ c₂) (h' : FetchFrame c₂ c₃) :
    FetchFrame c₁ c₃ :=
  ⟨h'.ring.trans h.ring, h'.uop.trans h.uop, h'.sched.trans h.sched, h'.regs.trans h.regs,
    h'.vals.trans h.vals, h'.ls.trans h.ls, h'.ctx.trans h.ctx, by rw [h'.mach, h.mach]⟩

/-- A step of the fetch unit: the uops in flight and the ones it holds stay linked. -/
theorem Base.fetchFrame (h : Base c) (hf : FetchFrame c c') (new : List FetchBufferEntry)
    (hq : c'.fetch.fetchq = c.fetch.fetchq ++ new) (hnew : ∀ u ∈ new, u.op.WF)
    (hlink : Linked c.fetch.nextSom (new.map (·.op)) c'.fetch.nextSom)
    (hfetch : FetchWF c'.fetch c'.mach.bbcache) : Base c' := by
  have hord : c'.order = c.order := by unfold Core.order; rw [hf.ring]
  show BaseAt c'.sched.inq c'
  rw [hf.sched]
  refine ⟨by rw [hf.ring, hf.sched]; exact h.sched, by rw [hf.ls, hf.sched]; exact h.lfrq, ?_,
    by rw [hord, hf.uop]; exact h.ops, fun u hu => ?_, hfetch⟩
  · obtain ⟨W, post, hsp⟩ := h.split
    refine ⟨W, post, hord.trans hsp.order, by rw [hf.sched]; exact hsp.settled,
      by rw [hf.uop]; exact hsp.inner, by rw [hf.uop]; exact hsp.last, ?_⟩
    have hops : c'.robOps post ++ c'.queueOps =
        (c.robOps post ++ c.queueOps) ++ new.map (·.op) := by
      simp only [Core.robOps, Core.queueOps, hf.uop, hq, List.map_append, List.append_assoc]
    rw [hops, linked_append]
    exact ⟨c.fetch.nextSom, hsp.linked, hlink⟩
  · rw [hq] at hu
    rcases List.mem_append.1 hu with hu | hu
    · exact h.queue u hu
    · exact hnew u hu

theorem sameMarks_setupPredicted (op : TransOp) (predrip : Option W64) :
    SameMarks op (Core.setupPredicted op predrip) := by
  cases predrip with
  | none => exact .refl op
  | some predrip => exact sameMarks_setupBranch op predrip

theorem advanceRip_frame (c : Core) (op : TransOp) (predrip : Option W64) :
    FetchFrame c (c.advanceRip op predrip).2 ∧ (c.advanceRip op predrip).2.mach = c.mach ∧
      SameFetch c.fetch (c.advanceRip op predrip).2.fetch := by
  unfold Core.advanceRip
  split
  · dsimp only
    split
    · exact ⟨⟨rfl, rfl, rfl, rfl, rfl, rfl, rfl, rfl⟩, rfl, ⟨rfl, rfl, rfl, rfl⟩⟩
    · exact ⟨⟨rfl, rfl, rfl, rfl, rfl, rfl, rfl, rfl⟩, rfl, ⟨rfl, rfl, rfl, rfl⟩⟩
  · exact ⟨.refl c, rfl, .refl _⟩

theorem Base.fetchUop (h : Base c) {bb : BasicBlock} (hcur : c.fetch.currentBasicBlock = some bb)
    (hidx : c.fetch.transopIndex < bb.transops.length) (inp : CycleInput) (k : ℕ) :
    Base (c.fetchUop inp k bb).2 := by
  obtain ⟨hwf, hsom, hnext, hfwf, hq⟩ := nextTransop_spec h.fetch hcur hidx
  unfold Core.fetchUop
  dsimp only
  generalize c.predrip inp k (c.nextTransop bb).1 = predrip
  obtain ⟨hs, he, hw⟩ := sameMarks_setupPredicted (c.nextTransop bb).1 predrip
  generalize Core.setupPredicted (c.nextTransop bb).1 predrip = op at hs he hw ⊢
  obtain ⟨hframe, hmach, hf⟩ := advanceRip_frame (c.pushUop op (c.nextTransop bb).2 bb) op predrip
  generalize ((c.pushUop op (c.nextTransop bb).2 bb).advanceRip op predrip).2 = c' at *
  have hpush : FetchFrame c (c.pushUop op (c.nextTransop bb).2 bb) :=
    ⟨rfl, rfl, rfl, rfl, rfl, rfl, rfl, rfl⟩
  have hnext' : c'.fetch.nextSom = (c.nextTransop bb).2.nextSom := hf.nextSom
  refine h.fetchFrame (hpush.trans hframe) [⟨op, c.fetch.fetchrip, (c.nextTransop bb).2.fetchUuid,
    false, c.codeOf bb c.fetch.fetchrip.rip op.bytes⟩] ?_ (by simpa using hw hwf) ?_ ?_
  · rw [hf.fetchq, ← hq]; rfl
  · rw [hnext', hnext, ← hsom]
    exact ⟨hs, he⟩
  · have hwf' : FetchWF (c.pushUop op (c.nextTransop bb).2 bb).fetch c.mach.bbcache :=
      ⟨hfwf.blocks, hfwf.current, hfwf.buf, hfwf.bufLinked⟩
    exact hwf'.congr hf (by rw [hmach]; exact .refl _)

theorem FetchWF.spent {cache : BasicBlockCache} (h : FetchWF c.fetch cache)
    (hs : c.blockSpent = true) : c.fetch.unalignedLdstBuf = [] ∧ c.fetch.nextSom = true := by
  have hbuf : c.fetch.unalignedLdstBuf = [] := by
    by_contra hne
    obtain ⟨bb, op, b, hcur, hop, -⟩ := h.bufLinked hne
    obtain ⟨hlt, -⟩ := List.getElem?_eq_some_iff.1 hop
    simp only [Core.blockSpent, hcur, decide_eq_true_eq] at hs
    omega
  refine ⟨hbuf, ?_⟩
  unfold Core.blockSpent at hs
  cases hcur : c.fetch.currentBasicBlock with
  | none => simp only [Fetch.nextSom, hbuf, hcur]
  | some bb =>
    simp only [hcur, decide_eq_true_eq] at hs
    simp only [Fetch.nextSom, hbuf, hcur, List.getElem?_eq_none hs]
    rfl

theorem releaseBlock_frame (c : Core) : FetchFrame c c.releaseBlock ∧
    c.mach.bbcache.Shrunk c.releaseBlock.mach.bbcache ∧ c.releaseBlock.fetch.currentBasicBlock = none ∧
    c.releaseBlock.fetch.fetchq = c.fetch.fetchq ∧
    c.releaseBlock.fetch.unalignedLdstBuf = c.fetch.unalignedLdstBuf := by
  unfold Core.releaseBlock
  cases hb : c.fetch.currentBasicBlock with
  | none => exact ⟨.refl c, .refl _, hb, rfl, rfl⟩
  | some bb =>
    exact ⟨⟨rfl, rfl, rfl, rfl, rfl, rfl, rfl, rfl⟩,
      shrunk_setRefcount c.mach.bbcache bb.rip.rip (· - 1), rfl, rfl, rfl⟩

/-- Another block: from the cache or decoded, and fetched from its first uop. -/
theorem fetchOrTranslate_spec {dec : Decoder} (hdec : ∀ rvp w, (dec.decode rvp w).WF)
    (hblocks : BlocksWF c.mach.bbcache) :
    FetchFrame c (c.fetchOrTranslateBasicBlock dec) ∧
      BlocksWF (c.fetchOrTranslateBasicBlock dec).mach.bbcache ∧
      (c.fetchOrTranslateBasicBlock dec).fetch.fetchq = c.fetch.fetchq ∧
      (c.fetchOrTranslateBasicBlock dec).fetch.unalignedLdstBuf = c.fetch.unalignedLdstBuf ∧
      ∀ bb ∈ (c.fetchOrTranslateBasicBlock dec).fetch.currentBasicBlock,
        bb.WF ∧ (c.fetchOrTranslateBasicBlock dec).fetch.transopIndex = 0 := by
  obtain ⟨hframe, hshrunk, hblock, hq, hbuf⟩ := releaseBlock_frame c
  have hblocks1 := hblocks.shrunk hshrunk
  unfold Core.fetchOrTranslateBasicBlock
  dsimp only
  generalize c.releaseBlock = c1 at hframe hblock hq hbuf hblocks1 ⊢
  cases hget : c1.mach.bbcache.get c1.fetch.fetchrip with
  | some b =>
    dsimp only
    refine ⟨hframe.trans ⟨rfl, rfl, rfl, rfl, rfl, rfl, rfl, rfl⟩,
      hblocks1.shrunk (shrunk_setRefcount _ _ _), hq, hbuf, fun bb hbb => ⟨?_, rfl⟩⟩
    rw [← Option.some.inj hbb]
    exact hblocks1 _ b hget
  | none =>
    obtain ⟨hblocks2, hbb⟩ := hblocks1.translate hdec c1.mach.space c1.fetch.fetchrip
    dsimp only
    generalize c1.mach.bbcache.translate dec c1.mach.space c1.fetch.fetchrip = r at hblocks2 hbb ⊢
    cases hr : r.1 with
    | none =>
      dsimp only
      refine ⟨hframe.trans ⟨rfl, rfl, rfl, rfl, rfl, rfl, rfl, rfl⟩, hblocks2, hq, hbuf,
        fun bb hbb' => ?_⟩
      rw [hblock] at hbb'
      cases hbb'
    | some bb₀ =>
      dsimp only
      refine ⟨hframe.trans ⟨rfl, rfl, rfl, rfl, rfl, rfl, rfl, rfl⟩,
        hblocks2.shrunk (shrunk_setRefcount _ _ _), hq, hbuf, fun bb hbb' => ⟨?_, rfl⟩⟩
      rw [← Option.some.inj hbb']
      exact hbb bb₀ hr

theorem Base.fetchOrTranslate (h : Base c) (hspent : c.blockSpent = true) {dec : Decoder}
    (hdec : ∀ rvp w, (dec.decode rvp w).WF) : Base (c.fetchOrTranslateBasicBlock dec) := by
  obtain ⟨hbuf₀, hsom₀⟩ := h.fetch.spent hspent
  obtain ⟨hframe, hblocks, hq, hbuf, hcur⟩ := fetchOrTranslate_spec hdec h.blocks
  generalize c.fetchOrTranslateBasicBlock dec = c' at *
  have hnil : c'.fetch.unalignedLdstBuf = [] := hbuf.trans hbuf₀
  refine h.fetchFrame hframe [] (by rw [hq, List.append_nil]) (by simp) ?_
    ⟨fun hb => hblocks _ _ hb, fun bb hbb => (hcur bb hbb).1, fun op hop => ?_, fun hne => absurd hnil hne⟩
  · rw [hsom₀, List.map_nil, linked_nil]
    cases hb : c'.fetch.currentBasicBlock with
    | none => simp only [Fetch.nextSom, hnil, hb]
    | some bb =>
      obtain ⟨hwf, hidx⟩ := hcur bb hb
      simp only [Fetch.nextSom, hnil, hb, hidx]
      exact (hwf.linked.first hwf.ne_nil).symm
  · rw [hnil] at hop
    cases hop

theorem probeIcache_frame (c : Core) (inp : CycleInput) (k : ℕ) (bb : BasicBlock) :
    Tick c (c.probeIcache inp k bb).2 := by
  unfold Core.probeIcache
  dsimp only
  split
  · exact ⟨rfl, rfl, rfl, rfl, rfl, rfl, rfl, rfl, rfl⟩
  · split
    · exact ⟨rfl, rfl, rfl, rfl, rfl, rfl, rfl, rfl, rfl⟩
    · split <;> exact ⟨rfl, rfl, rfl, rfl, rfl, rfl, rfl, rfl, rfl⟩

/-- The block of a turn has a next uop. -/
theorem Base.nextBlock (h : Base c) {dec : Decoder} (hdec : ∀ rvp w, (dec.decode rvp w).WF) :
    Base (c.nextBlock dec) ∧ ∀ bb ∈ (c.nextBlock dec).fetch.currentBasicBlock,
      (c.nextBlock dec).fetch.transopIndex < bb.transops.length := by
  unfold Core.nextBlock
  split
  · rename_i hspent
    refine ⟨h.fetchOrTranslate hspent hdec, fun bb hbb => ?_⟩
    obtain ⟨hwf, hidx⟩ := (fetchOrTranslate_spec hdec h.blocks).2.2.2.2 bb hbb
    rw [hidx]
    exact List.length_pos_iff.2 hwf.ne_nil
  · rename_i hspent
    refine ⟨h, fun bb hbb => ?_⟩
    rw [Option.mem_def] at hbb
    simpa [Core.blockSpent, hbb] using hspent

theorem Base.fetchTurn (h : Base c) {dec : Decoder} (hdec : ∀ rvp w, (dec.decode rvp w).WF)
    (inp : CycleInput) (k : ℕ) : Base (c.fetchTurn dec inp k).2 := by
  obtain ⟨hb, hidx⟩ := h.nextBlock hdec
  unfold Core.fetchTurn
  split
  · exact h
  · generalize c.nextBlock dec = c₁ at hb hidx ⊢
    dsimp only
    cases hcur : c₁.fetch.currentBasicBlock with
    | none => exact hb
    | some bb =>
      have hprobe := probeIcache_frame c₁ inp k bb
      dsimp only
      split
      · rename_i c₂ heq; rw [heq] at hprobe; exact hb.tick hprobe
      · rename_i c₂ heq
        rw [heq] at hprobe
        have hf : c₂.fetch.currentBasicBlock = c₁.fetch.currentBasicBlock ∧
            c₂.fetch.transopIndex = c₁.fetch.transopIndex := by rw [hprobe.fetch]; exact ⟨rfl, rfl⟩
        exact (hb.tick hprobe).fetchUop (hf.1.trans hcur) (by rw [hf.2]; exact hidx bb hcur) inp k

/-- A turn of the fetch loop is a step of the fetch unit. -/
theorem Base.fetchTurn_frame (h : Base c) {dec : Decoder} (hdec : ∀ rvp w, (dec.decode rvp w).WF)
    (inp : CycleInput) (k : ℕ) : FetchFrame c (c.fetchTurn dec inp k).2 := by
  have hnext : FetchFrame c (c.nextBlock dec) := by
    unfold Core.nextBlock
    split
    · exact (fetchOrTranslate_spec hdec h.blocks).1
    · exact .refl c
  unfold Core.fetchTurn
  split
  · exact .refl c
  · generalize c.nextBlock dec = c₁ at hnext ⊢
    dsimp only
    cases hcur : c₁.fetch.currentBasicBlock with
    | none => exact hnext
    | some bb =>
      have hprobe : FetchFrame c₁ (c₁.probeIcache inp k bb).2 := by
        unfold Core.probeIcache
        dsimp only
        repeat' split
        all_goals exact ⟨rfl, rfl, rfl, rfl, rfl, rfl, rfl, rfl⟩
      dsimp only
      split
      · rename_i c₂ heq; rw [heq] at hprobe; exact hnext.trans hprobe
      · rename_i c₂ heq
        rw [heq] at hprobe
        refine (hnext.trans hprobe).trans ?_
        unfold Core.fetchUop
        dsimp only
        have hpush : ∀ op, FetchFrame c₂ (c₂.pushUop op (c₂.nextTransop bb).2 bb) :=
          fun _ => ⟨rfl, rfl, rfl, rfl, rfl, rfl, rfl, rfl⟩
        exact (hpush _).trans (advanceRip_frame _ _ _).1

end
end X86Sim.Ooo
