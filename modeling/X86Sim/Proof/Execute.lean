import X86Sim.Ooo.Cycle

/-!
# What the execution of a uop can do

`Touch i c c'`: execution of entry `i` got as far as its load/store queue entry, its
`rs` operand and the alignment mark of its uop. `Executed` lists how it ends from
there, and `executeUop_cases` says that there is no other way.
-/

namespace X86Sim.Ooo

/-- The load/store queue has the same entries for the same uops; no request is new. -/
structure SameQueue (ls ls' : LoadStore) : Prop where
  ring : ls'.ring = ls.ring
  lsq : ls'.lsq = ls.lsq
  loads : ls'.loadsInFlight = ls.loadsInFlight
  stores : ls'.storesInFlight = ls.storesInFlight
  rob : ∀ k, (ls'.entry k).rob = (ls.entry k).rob
  store : ∀ k, (ls'.entry k).store = (ls.entry k).store
  lfence : ∀ k, (ls'.entry k).lfence = (ls.entry k).lfence
  sfence : ∀ k, (ls'.entry k).sfence = (ls.entry k).sfence
  lfrq : ∀ k, ls'.lfrq k = true → ls.lfrq k = true

namespace SameQueue

variable {ls ls' ls'' : LoadStore}

theorem refl (ls : LoadStore) : SameQueue ls ls :=
  ⟨rfl, rfl, rfl, rfl, fun _ => rfl, fun _ => rfl, fun _ => rfl, fun _ => rfl, fun _ h => h⟩

theorem trans (h : SameQueue ls ls') (h' : SameQueue ls' ls'') : SameQueue ls ls'' :=
  ⟨h'.ring.trans h.ring, h'.lsq.trans h.lsq, h'.loads.trans h.loads, h'.stores.trans h.stores,
    fun k => (h'.rob k).trans (h.rob k), fun k => (h'.store k).trans (h.store k),
    fun k => (h'.lfence k).trans (h.lfence k), fun k => (h'.sfence k).trans (h.sfence k),
    fun k hk => h.lfrq k (h'.lfrq k hk)⟩

/-- An entry changes, but not whose it is and of which kind. -/
theorem setEntry (ls : LoadStore) (j : ℕ) (e : LsqEntry) (hrob : e.rob = (ls.entry j).rob)
    (hstore : e.store = (ls.entry j).store) (hl : e.lfence = (ls.entry j).lfence)
    (hs : e.sfence = (ls.entry j).sfence) : SameQueue ls (ls.setEntry j e) := by
  refine ⟨rfl, rfl, rfl, rfl, fun k => ?_, fun k => ?_, fun k => ?_, fun k => ?_, fun _ h => h⟩ <;>
    by_cases hk : k = j
  all_goals first
    | (subst hk; simpa [LoadStore.setEntry])
    | simp [LoadStore.setEntry, hk]

/-- What no search of the queue reads may change. -/
theorem setMarks (ls : LoadStore) (secondPhase : ℕ → Bool) (origvirt : ℕ → ℕ) (loads : List Chunk) :
    SameQueue ls { ls with
      secondPhase := secondPhase, origvirt := origvirt, loadsInThisCycle := loads } :=
  ⟨rfl, rfl, rfl, rfl, fun _ => rfl, fun _ => rfl, fun _ => rfl, fun _ => rfl, fun _ h => h⟩

/-- A request is given up. -/
theorem clearLfrq (ls : LoadStore) (i : ℕ) :
    SameQueue ls { ls with lfrq := Function.update ls.lfrq i false } := by
  refine ⟨rfl, rfl, rfl, rfl, fun _ => rfl, fun _ => rfl, fun _ => rfl, fun _ => rfl, fun k hk => ?_⟩
  by_cases hki : k = i
  · simp [hki] at hk
  · simpa [hki] using hk

end SameQueue

/-- The uop of an entry, up to the mark of a truly unaligned access. -/
def SameUop (u u' : FetchBufferEntry) : Prop :=
  u'.op = u.op ∧ u'.rip = u.rip ∧ u'.uuid = u.uuid ∧ u'.code = u.code

theorem SameUop.refl (u : FetchBufferEntry) : SameUop u u := ⟨rfl, rfl, rfl, rfl⟩

/-- The references a search for a forwarding store leaves: none, or the found store in
the `rs` operand. -/
def RsSet (i : ℕ) (c : Core) (r : Regs) : Prop :=
  r = c.regs ∨ ∃ (j : ℕ) (sfra : Option ℕ), c.ls.lsq i = some j ∧
    (∀ k ∈ sfra, k ∈ c.ls.ring.backwardBefore LSQ_SIZE j) ∧ r = c.regs.setOperand i RS (c.rsOf sfra)

/-- What the execution of entry `i` changes before it decides how to go on. -/
structure Touch (i : ℕ) (c c' : Core) : Prop where
  ring : c'.ring = c.ring
  sched : c'.sched = c.sched
  vals : c'.vals = c.vals
  fetch : c'.fetch = c.fetch
  ctx : c'.ctx = c.ctx
  mach : c'.mach = c.mach
  uop : ∀ k, SameUop (c.uop k) (c'.uop k)
  ls : SameQueue c.ls c'.ls
  regs : RsSet i c c'.regs

namespace Touch

variable {i : ℕ} {c c' : Core}

theorem refl (i : ℕ) (c : Core) : Touch i c c :=
  ⟨rfl, rfl, rfl, rfl, rfl, rfl, fun _ => SameUop.refl _, SameQueue.refl _, Or.inl rfl⟩

/-- More changes to the queue entry. -/
theorem setLs (h : Touch i c c') {ls : LoadStore} (hls : SameQueue c'.ls ls) :
    Touch i c { c' with ls := ls } :=
  ⟨h.ring, h.sched, h.vals, h.fetch, h.ctx, h.mach, h.uop, h.ls.trans hls, h.regs⟩

theorem afterAddrgen {j : ℕ} {g : AddrGen} (hg : SameQueue c.ls (c.ls.setEntry j g.entry)) :
    Touch i c (c.afterAddrgen i j g) := by
  refine ⟨rfl, rfl, rfl, rfl, rfl, rfl, fun k => ?_, ?_, Or.inl rfl⟩
  · by_cases hk : k = i
    · subst hk; simp [Core.afterAddrgen, SameUop]
    · simp [Core.afterAddrgen, SameUop, hk]
  · exact hg.trans (SameQueue.setMarks _ _ _ _)

theorem completeStore (h : Touch i c c') (j : ℕ) (sfra : Option ℕ) (origaddr : ℕ) (rcdata : W64) :
    Touch i c (c'.completeStore i j sfra origaddr rcdata) := by
  unfold Core.completeStore
  dsimp only
  refine h.setLs (SameQueue.trans ?_ (SameQueue.setMarks _ _ _ _))
  exact SameQueue.setEntry _ j _ rfl rfl rfl rfl

/-- The found store becomes the `rs` operand. -/
theorem setRs (h : Touch i c c') {j : ℕ} {sfra : Option ℕ} (hlsq : c.ls.lsq i = some j)
    (hregs : c'.regs = c.regs)
    (hsfra : ∀ k ∈ sfra, k ∈ c'.ls.ring.backwardBefore LSQ_SIZE j) :
    Touch i c (c'.setRs i sfra) := by
  have hrs : c'.rsOf sfra = c.rsOf sfra := by
    cases sfra with
    | none => rfl
    | some k => simp only [Core.rsOf, hregs, h.ls.rob]
  refine ⟨h.ring, h.sched, h.vals, h.fetch, h.ctx, h.mach, h.uop, h.ls, Or.inr ⟨j, sfra, hlsq, ?_, ?_⟩⟩
  · rw [← h.ls.ring]; exact hsfra
  · show c'.regs.setOperand i RS (c'.rsOf sfra) = _
    rw [hregs, hrs]

end Touch

/-- How the execution of entry `i` on cluster `cl` can end. -/
inductive Executed (inp : CycleInput) (i : ℕ) (cl : Cluster) (c : Core) :
    IssueResult → UopResult → Core → Prop
  /-- A result, or an exception that waits for commit. -/
  | done {c' : Core} {r : UopResult} (h : Touch i c c') : Executed inp i cl c .completed r c'
  /-- A load that hits. -/
  | hit {c' : Core} {r : UopResult} (n : ℤ) (h : Touch i c c') :
      Executed inp i cl c .completed r { c' with sched := { c'.sched with
        cyclesLeft := Function.update c'.sched.cyclesLeft i n } }
  /-- A load that misses. -/
  | miss {c' : Core} {r : UopResult} (h : Touch i c c') (hr : r.rdflags &&& FLAG_INV = 0)
      (hld : isload (c.uop i).op.opcode) :
      Executed inp i cl c .completed r { c' with
        sched := { c'.sched.changestate i .cacheMiss with
          cyclesLeft := Function.update c'.sched.cyclesLeft i 0 }
        ls := { c'.ls with lfrq := Function.update c'.ls.lfrq i true } }
  /-- A fence. -/
  | fence {c' : Core} {r : UopResult} (h : Touch i c c') (hmf : (c.uop i).op.opcode = .opMf) :
      Executed inp i cl c .completed r (c'.changestate i .memoryFence)
  /-- A load or store that waits for another store. -/
  | replay {c' : Core} {r : UopResult} (h : Touch i c c') :
      Executed inp i cl c .needsReplay r (c'.replay i cl)
  | replaySecondPhase {c' : Core} {r : UopResult} (h : Touch i c c') :
      Executed inp i cl c .needsReplay r (c'.replaySecondPhase i cl)
  /-- An unaligned access: its instruction is annulled and fetched again. -/
  | unaligned {c' : Core} {r : UopResult} (h : Touch i c c') :
      Executed inp i cl c .misspeculated r
        (((c'.setUnalignedHint (c'.uop i).rip true).annul inp.rc i false).2.resetFetchUnit
          ((c'.setUnalignedHint (c'.uop i).rip true).annul inp.rc i false).1)
  /-- A store that a younger load has overtaken. -/
  | alias {c' : Core} {r : UopResult} {j k : ℕ} {chunk : Chunk} (h : Touch i c c')
      (hlsq : c.ls.lsq i = some j) (hk : c'.findAliasedLoad j chunk = some k)
      (hst : isstore (c.uop i).op.opcode) :
      Executed inp i cl c .misspeculated r (c'.aliasRedispatch i j k)

/-- Entry `i` sits in slot `slot` of queue `cl`, which is picked. -/
structure Picked (c : Core) (cl : Cluster) (i slot : ℕ) (q : IssueQueue) : Prop where
  issue : IssueQueue.issue (c.sched.queue cl) = some (slot, q)
  entry : i = IssueQueue.uopof q slot

/-- How a turn of the issue loop can end. -/
inductive Turn (inp : CycleInput) (cl : Cluster) (c : Core) : Core → Prop
  /-- Nothing is ready. -/
  | idle : Turn inp cl c c
  /-- No functional unit is free. -/
  | noFu {i slot : ℕ} {q : IssueQueue} (h : Picked c cl i slot q) :
      Turn inp cl c { c.takeSlot cl slot q with
        sched := (c.takeSlot cl slot q).sched.onQueue cl (·.replay slot) }
  /-- The uop goes back, or its instruction is annulled. -/
  | back {i slot fu : ℕ} {q : IssueQueue} {res : IssueResult} {r : UopResult} {c' : Core}
      (h : Picked c cl i slot q) (hres : res ≠ .completed)
      (hex : Executed inp i cl ((c.takeSlot cl slot q).startIssue i cl fu) res r c') :
      Turn inp cl c c'
  | completed {i slot fu : ℕ} {q : IssueQueue} {r : UopResult} {c' : Core}
      (h : Picked c cl i slot q)
      (hex : Executed inp i cl ((c.takeSlot cl slot q).startIssue i cl fu) .completed r c') :
      Turn inp cl c (c'.finishIssue i cl r)
  | mispredict {i slot fu : ℕ} {q : IssueQueue} {r : UopResult} {c' : Core}
      (h : Picked c cl i slot q)
      (hex : Executed inp i cl ((c.takeSlot cl slot q).startIssue i cl fu) .completed r c')
      (hbr : isbranch (c'.uop i).op.opcode = true) (hinv : r.rdflags &&& FLAG_INV = 0) :
      Turn inp cl c ((c'.finishIssue i cl r).mispredict inp i r.rddata)

namespace Core

variable {inp : CycleInput} {i j : ℕ} {cl : Cluster} {c : Core}

/-- `addrgen` leaves the kind of the entry alone. -/
theorem addrgen_entry (c : Core) (pfec : PageFaultErrorCode) (uop : FetchBufferEntry) (entry : LsqEntry) (origvirt : ℕ)
    (ra rb : W64) :
    (c.addrgen pfec uop entry origvirt ra rb).entry.rob = entry.rob ∧
      (c.addrgen pfec uop entry origvirt ra rb).entry.store = entry.store ∧
      (c.addrgen pfec uop entry origvirt ra rb).entry.lfence = entry.lfence ∧
      (c.addrgen pfec uop entry origvirt ra rb).entry.sfence = entry.sfence := by
  unfold addrgen
  dsimp only
  split <;> split <;> exact ⟨rfl, rfl, rfl, rfl⟩

theorem touch_addrgen (c : Core) (pfec : PageFaultErrorCode) (i j : ℕ) (ra rb : W64) :
    Touch i c (c.afterAddrgen i j (c.addrgen pfec (c.uop i) (c.ls.entry j) (c.ls.origvirt i) ra rb)) := by
  obtain ⟨h1, h2, h3, h4⟩ := c.addrgen_entry pfec (c.uop i) (c.ls.entry j) (c.ls.origvirt i) ra rb
  exact Touch.afterAddrgen (SameQueue.setEntry c.ls j _ h1 h2 h3 h4)

theorem handleCommon_cases {c' : Core} (h : Touch i c c') (g : AddrGen) (exception : InternalException)
    (pfec : PageFaultErrorCode) (r : UopResult) :
    Executed inp i cl c (c'.handleCommonLoadStoreExceptions inp i j g exception pfec).1 r
      (c'.handleCommonLoadStoreExceptions inp i j g exception pfec).2 := by
  have hls : Touch i c { c' with ls := c'.ls.setEntry j { c'.ls.entry j with
      invalid := true, data := exceptionWord exception pfec, datavalid := true } } :=
    h.setLs (SameQueue.setEntry c'.ls j _ rfl rfl rfl rfl)
  unfold handleCommonLoadStoreExceptions
  dsimp only
  split
  · exact .unaligned hls
  · split
    · exact .done (hls.setLs (SameQueue.setMarks _ _ _ _))
    · exact .done hls

theorem mem_findStoreForStore (c : Core) (j : ℕ) (chunk : Chunk) :
    ∀ k ∈ c.findStoreForStore j chunk, k ∈ c.ls.ring.backwardBefore LSQ_SIZE j :=
  fun _ hk => List.mem_of_find?_eq_some hk

theorem mem_findStoreForLoad (c : Core) (j : ℕ) (chunk : Chunk) (lsap : Bool) :
    ∀ k ∈ c.findStoreForLoad j chunk lsap, k ∈ c.ls.ring.backwardBefore LSQ_SIZE j :=
  fun _ hk => List.mem_of_find?_eq_some hk

/-- A store: it faults, waits, finds an overtaking load, or completes. -/
theorem issuestore_cases (hlsq : c.ls.lsq i = some j) (hst : isstore (c.uop i).op.opcode)
    (ra rb rcdata : W64) (rcready : Bool) (r : UopResult) :
    Executed inp i cl c (c.issuestore inp i j cl ra rb rcdata rcready).1 r
      (c.issuestore inp i j cl ra rb rcdata rcready).2 := by
  have h0 := c.touch_addrgen (inp.pfec i) i j ra rb
  unfold issuestore
  dsimp only
  generalize c.addrgen (inp.pfec i) (c.uop i) (c.ls.entry j) (c.ls.origvirt i) ra rb = g at h0 ⊢
  split
  · exact handleCommon_cases h0 g _ _ r
  · rename_i physaddr _
    generalize (if g.annul = true then Chunk.invalid else physaddr.chunk) = chunk
    -- the address is in the queue entry, and the forwarding store is its `rs` operand
    have h1 := h0.setLs (SameQueue.setEntry (c.afterAddrgen i j g).ls j
      { (c.afterAddrgen i j g).ls.entry j with
        physaddr := chunk, smcMfn := g.addr / kPageSize } rfl rfl rfl rfl)
    have h2 := h1.setRs hlsq rfl (mem_findStoreForStore _ j chunk)
    split
    · exact .replaySecondPhase h2
    · split
      · rename_i k hk
        split
        · exact .replay h2
        · exact .alias h2 hlsq hk hst
      · exact .done (h2.completeStore _ _ _ _)

theorem sfrResult_valid {e : LsqEntry} (he : e.invalid = false) :
    (sfrResult e).rdflags &&& FLAG_INV = 0 := by
  simp only [sfrResult, he, Bool.false_eq_true, if_false]
  cases e.datavalid <;> decide

/-- A load that goes ahead: the unused half, an internal load, a hit or a miss. -/
theorem completeLoad_cases {c' : Core} (h : Touch i c c') (hld : isload (c.uop i).op.opcode)
    (sfra : Option ℕ) (g : AddrGen) (mem rb : W64) :
    Executed inp i cl c (c'.completeLoad inp i j sfra g mem rb).1
      (sfrResult ((c'.completeLoad inp i j sfra g mem rb).2.ls.entry j))
      (c'.completeLoad inp i j sfra g mem rb).2 := by
  unfold completeLoad
  dsimp only
  split
  · exact .done (h.setLs (SameQueue.setEntry _ j _ rfl rfl rfl rfl))
  · -- the entry has its data; what is left is when it becomes valid
    let e : LsqEntry := { c'.ls.entry j with
      addrvalid := true, low := rb, invalid := false, bytemask := 0xff,
      data := loadResult (c'.uop i).op g.addr g.origaddr rb (c'.forwardChunk sfra mem) }
    let ls : LoadStore := { c'.ls.setEntry j e with
      loadsInThisCycle := c'.ls.loadsInThisCycle ++ [(c'.ls.entry j).physaddr] }
    have h1 : SameQueue c'.ls ls :=
      (SameQueue.setEntry c'.ls j e rfl rfl rfl rfl).trans (SameQueue.setMarks _ _ _ _)
    have hej : ls.entry j = e := by simp [ls, LoadStore.setEntry]
    have h2 : SameQueue c'.ls { ls.setEntry j { ls.entry j with datavalid := true } with
        secondPhase := Function.update ls.secondPhase i true
        lfrq := Function.update ls.lfrq i false } :=
      ((h1.trans (SameQueue.setEntry ls j { ls.entry j with datavalid := true } rfl rfl rfl rfl)).trans
        (SameQueue.setMarks _ (Function.update ls.secondPhase i true) _ _)).trans
        (SameQueue.clearLfrq _ i)
    split
    · rw [hej] at h2
      exact .hit LOADLAT (h.setLs h2)
    · unfold probecache
      split
      · exact .hit LOADLAT (h.setLs h2)
      · refine .miss (h.setLs h1) (sfrResult_valid ?_) hld
        show (ls.entry j).invalid = false
        rw [hej]

/-- A load: it faults, waits, or reads. -/
theorem issueload_cases (hlsq : c.ls.lsq i = some j) (hld : isload (c.uop i).op.opcode)
    (ra rb : W64) :
    Executed inp i cl c (c.issueload inp i j cl ra rb).1
      (sfrResult ((c.issueload inp i j cl ra rb).2.ls.entry j)) (c.issueload inp i j cl ra rb).2 := by
  have h0 := c.touch_addrgen (inp.pfec i) i j ra rb
  unfold issueload
  dsimp only
  generalize c.addrgen (inp.pfec i) (c.uop i) (c.ls.entry j) (c.ls.origvirt i) ra rb = g at h0 ⊢
  split
  · exact handleCommon_cases h0 g _ _ _
  · rename_i physaddr _
    generalize (if g.annul = true then Chunk.invalid else physaddr.chunk) = chunk
    have h1 := h0.setLs (SameQueue.setEntry (c.afterAddrgen i j g).ls j
      { (c.afterAddrgen i j g).ls.entry j with physaddr := chunk } rfl rfl rfl rfl)
    have h2 := h1.setRs hlsq rfl (mem_findStoreForLoad _ j chunk (inp.lsap i))
    split
    · exact .replaySecondPhase h2
    · split
      · exact .replaySecondPhase h2
      · exact completeLoad_cases h2 hld _ g _ rb

/-- The execution of a uop ends in one of these ways. -/
theorem executeUop_cases (exec : Synthop) (inp : CycleInput) (i : ℕ) (cl : Cluster) (c : Core) :
    Executed inp i cl c (c.executeUop exec inp i cl).1 (c.executeUop exec inp i cl).2.1
      (c.executeUop exec inp i cl).2.2 := by
  unfold executeUop
  dsimp only
  split
  · exact .done (Touch.refl i c)
  · split
    · rename_i hmem
      cases hlsq : c.ls.lsq i with
      | none => exact .done (Touch.refl i c)
      | some j =>
        dsimp only
        split
        · rename_i hld
          exact issueload_cases hlsq hld _ _
        · rename_i hld
          have hst : isstore (c.uop i).op.opcode := by
            simpa [Bool.not_eq_true _ ▸ hld] using hmem
          split
          · rename_i hmf
            exact .fence ((Touch.refl i c).setLs (SameQueue.setEntry c.ls j _ rfl rfl rfl rfl)) hmf
          · exact issuestore_cases hlsq hst _ _ _ _ _
    · split
      · exact .done (Touch.refl i c)
      · exact .done (Touch.refl i c)

theorem issueTurn_cases (exec : Synthop) (inp : CycleInput) (cl : Cluster) (c : Core) :
    Turn inp cl c (c.issueTurn exec inp cl).2 := by
  unfold issueTurn
  split
  · exact .idle
  · rename_i slot q hq
    have hpick : Picked c cl (IssueQueue.uopof q slot) slot q := ⟨hq, rfl⟩
    dsimp only
    unfold issueEntry
    split
    · have hslot : ((c.takeSlot cl slot q).sched.iqslot (IssueQueue.uopof q slot)).getD 0 = slot := by
        simp [takeSlot]
      rw [hslot]
      exact .noFu hpick
    · rename_i fu _
      have hex := executeUop_cases exec inp (IssueQueue.uopof q slot) cl
        ((c.takeSlot cl slot q).startIssue (IssueQueue.uopof q slot) cl fu)
      dsimp only
      split
      · rename_i hres; exact .back hpick (by rw [hres]; simp) hex
      · rename_i hres; exact .back hpick (by rw [hres]; simp) hex
      · rename_i hres
        rw [hres] at hex
        split
        · rename_i hbr; exact .mispredict hpick hex hbr.2.1 hbr.1
        · exact .completed hpick hex

end Core
end X86Sim.Ooo
