import Mathlib.Data.List.TakeWhile
import X86Sim.Seq.Turn

/-!
# Stores to code in the sequential core

A store marks the page whose number stands in `smc_mfn` of its record, and the check
before a uop looks at the pages of the span that starts at the block. `CodeSeen` is
what both are for: the page written is marked, and an instruction on a marked page
does not run, but the blocks of that page leave the cache. `codeSeen_iff` says when a
turn keeps to it.

* `invalidatePage_clears`: the blocks that an invalidation of a page removes.
* `invalidateSmc_blocks`: those that the two of the check remove.
-/

namespace X86Sim

/-! ### What an invalidation removes -/

namespace BasicBlockCache

variable {c : BasicBlockCache} {mfn : ℕ}

/-- The block of `rip`, if there is one, is not referenced. -/
def unreferenced (c : BasicBlockCache) (rip : W64) : Bool := (c.blocks rip).all fun b => b.refcount == 0

/-- The blocks listed on the page before the first that is referenced. -/
def clears (c : BasicBlockCache) (mfn : ℕ) : List W64 :=
  if mfn = mfnInvalid then [] else ((c.pages mfn).getD []).takeWhile c.unreferenced

/-- The cache without the blocks `rips`. -/
def without (c : BasicBlockCache) (rips : List W64) : BasicBlockCache :=
  ⟨fun r => if r ∈ rips then none else c.blocks r, fun p => (c.pages p).map (·.filter (· ∉ rips))⟩

theorem without_nil (c : BasicBlockCache) : c.without [] = c := by
  simp [without]

theorem without_without (c : BasicBlockCache) (rip : W64) (rips : List W64) :
    (c.without [rip]).without rips = c.without (rip :: rips) := by
  simp only [without, mk.injEq]
  refine ⟨?_, ?_⟩
  · funext r
    by_cases hr : r = rip
    · simp [hr]
    · by_cases hrs : r ∈ rips
      · simp [hr, hrs]
      · simp [hr, hrs]
  · funext p
    cases c.pages p with
    | none => rfl
    | some l => simp [List.filter_filter, Bool.and_comm]

/-- A block that goes leaves the lists of all pages. -/
theorem invalidateBlock_without (h : c.WF) {rip : W64} {b : CachedBlock} (hb : c.blocks rip = some b)
    (href : b.refcount = 0) : c.invalidateBlock b = (true, c.without [rip]) := by
  rw [invalidateBlock_eq h hb href]
  congr 1
  simp only [without, mk.injEq]
  refine ⟨?_, ?_⟩
  · funext r
    by_cases hr : r = rip
    · simp [hr]
    · simp [hr]
  · funext p
    cases hp : c.pages p with
    | none => simp
    | some l =>
      have herase : l.erase rip = l.filter (· ∉ [rip]) := by
        rw [(h.nodup hp).erase_eq_filter]
        refine List.filter_congr fun r _ => ?_
        by_cases hr : r = rip
        · simp [hr]
        · simp [hr]
      by_cases hon : b.bb.on p = true
      · simp [hon, herase]
      · have hnot : rip ∉ l := by
          intro hmem
          obtain ⟨b', hb', hon'⟩ := h.cached hp hmem
          rw [hb] at hb'
          exact hon (Option.some.inj hb' ▸ hon')
        rw [if_neg hon, Option.map_some, ← herase, List.erase_of_not_mem hnot]

/-- What is not taken away is referenced as before. -/
theorem takeWhile_without {rips : List W64} (hrips : ∀ r ∈ rips, c.unreferenced r = true) (l : List W64) :
    (l.filter (· ∉ rips)).takeWhile (c.without rips).unreferenced =
      (l.takeWhile c.unreferenced).filter (· ∉ rips) := by
  induction l with
  | nil => rfl
  | cons r l ih =>
    by_cases hr : r ∈ rips
    · have hun := hrips r hr
      simp only [hr, not_true_eq_false, decide_false, Bool.false_eq_true, not_false_eq_true, List.filter_cons_of_neg, hun,
        List.takeWhile_cons_of_pos]
      exact ih
    · have hsame : (c.without rips).unreferenced r = c.unreferenced r := by
        simp [unreferenced, without, hr]
      cases hun : c.unreferenced r with
      | true => simpa [hr, hsame, hun] using ih
      | false => simp [hr, hsame, hun]

theorem invalidatePageLoop_without (fuel : ℕ) (h : c.WF) {l : List W64} (hl : c.pages mfn = some l)
    (hfuel : l.length ≤ fuel) :
    (invalidatePageLoop fuel c mfn).2 = c.without (l.takeWhile c.unreferenced) := by
  induction fuel generalizing c l with
  | zero =>
    obtain rfl := List.length_eq_zero_iff.1 (Nat.le_zero.1 hfuel)
    exact (without_nil c).symm
  | succ fuel ih =>
    simp only [invalidatePageLoop, hl]
    cases l with
    | nil => exact (without_nil c).symm
    | cons rip rest =>
      obtain ⟨b, hb, -⟩ := h.cached hl List.mem_cons_self
      have hnodup := List.nodup_cons.1 (h.nodup hl)
      simp only [hb]
      by_cases href : b.refcount = 0
      · have hun : c.unreferenced rip = true := by simp [unreferenced, hb, href]
        have hwf := h.invalidateBlock hb href
        rw [invalidateBlock_without h hb href] at hwf ⊢
        have hrest : (c.without [rip]).pages mfn = some (rest.filter (· ∉ [rip])) := by
          simp [without, hl]
        have hfilter : ∀ l : List W64, rip ∉ l → l.filter (· ∉ [rip]) = l := by
          intro l hnot
          apply List.filter_eq_self.2
          intro r hr
          have hne : r ≠ rip := fun heq => hnot (heq ▸ hr)
          simpa using hne
        have htake := @takeWhile_without c [rip] (by simpa using hun) rest
        have hnotTake : rip ∉ rest.takeWhile c.unreferenced :=
          fun hmem => hnodup.1 ((List.takeWhile_sublist _).subset hmem)
        rw [hfilter _ hnotTake] at htake
        dsimp only
        rw [ih hwf hrest (by rw [hfilter _ hnodup.1]; simpa using hfuel), htake, without_without,
          List.takeWhile_cons_of_pos hun]
      · have hun : ¬ c.unreferenced rip = true := by simp [unreferenced, hb, href]
        rw [List.takeWhile_cons_of_neg hun, without_nil]
        simp [invalidateBlock, href]

theorem invalidatePage_without (h : c.WF) (m : AddressSpace) (mfn : ℕ) :
    (c.invalidatePage m mfn).2.2 = c.without (c.clears mfn) := by
  unfold invalidatePage clears
  split
  · exact (without_nil c).symm
  · cases hl : c.pages mfn with
    | none => simp [without_nil]
    | some l => exact invalidatePageLoop_without l.length h hl le_rfl

/-- The blocks that the invalidation of a page removes. -/
theorem invalidatePage_clears (h : c.WF) (m : AddressSpace) (mfn : ℕ) (rip : W64) :
    (c.invalidatePage m mfn).2.2.blocks rip = if rip ∈ c.clears mfn then none else c.blocks rip := by
  rw [invalidatePage_without h]
  rfl

theorem unreferenced_of_clears {rip : W64} (h : rip ∈ c.clears mfn) : c.unreferenced rip = true := by
  unfold clears at h
  split at h
  · cases h
  · exact List.mem_takeWhile_imp h

/-- The invalidation of a second page. -/
theorem clears_without (mfn mfn' : ℕ) (rip : W64) :
    rip ∈ (c.without (c.clears mfn)).clears mfn' ↔ rip ∈ c.clears mfn' ∧ rip ∉ c.clears mfn := by
  rw [clears]
  by_cases hinvalid : mfn' = mfnInvalid
  · simp [hinvalid, clears]
  · have hpages : ((c.without (c.clears mfn)).pages mfn').getD [] = ((c.pages mfn').getD []).filter (· ∉ c.clears mfn) := by
      cases hl : c.pages mfn' <;> simp [without, hl]
    have hclears : c.clears mfn' = ((c.pages mfn').getD []).takeWhile c.unreferenced := if_neg hinvalid
    rw [if_neg hinvalid, hpages, takeWhile_without fun r hr => unreferenced_of_clears hr, hclears, List.mem_filter,
      decide_eq_true_iff]

theorem invalidatePage_wf (h : c.WF) (m : AddressSpace) (mfn : ℕ) : (c.invalidatePage m mfn).2.2.WF := by
  by_cases hinvalid : mfn = mfnInvalid
  · rw [invalidatePage, if_pos hinvalid]
    exact h
  · obtain ⟨r, hdrop, heq⟩ := invalidatePage_spec h m hinvalid
    rw [heq]
    exact hdrop.wf

end BasicBlockCache

end X86Sim

namespace X86Sim.Seq

open AddressSpace

variable {exec : Synthop} {cfg : Config} {junk : Sfr} {f : Frame} {op : TransOp} {a : ℕ}

namespace SeqCore

/-- The eight bytes of guest memory a store writes to: its address translates, and it
writes some of them. -/
def storeTo (c : SeqCore) (op : TransOp) : Option ℕ :=
  match (c.addrgen op).result with
  | .ok (.guest a) =>
    if (storeBytes op.cond op.size (c.addrgen op).origaddr (c.rcdata op)).1 = 0 then none else some a
  | _ => none

/-- Where an access that translates goes to in guest memory, writing is allowed. -/
theorem lt_of_translate {m : AddressSpace} {virtaddr size : ℕ} {internal : Bool}
    (h : checkAndTranslate m virtaddr size true internal = .ok (.guest a)) :
    a < addressSpaceSize ∧ m.check virtaddr ⟨false, true, false⟩ = true ∧ a = floor8 virtaddr := by
  unfold checkAndTranslate at h
  split at h
  · cases h
  split at h
  · cases h
  split at h
  · cases h
  rename_i hcheck
  obtain rfl := PhysAddr.guest.inj (Except.ok.inj h)
  have hok : m.check virtaddr ⟨false, true, false⟩ = true := by simpa using hcheck
  have hlt := lt_of_check (by decide) hok
  exact ⟨lt_of_le_of_lt (Nat.sub_le _ _) hlt, hok, rfl⟩

end SeqCore

namespace Frame

/-- The turn commits a store to the eight bytes of guest memory at `a`. -/
structure StoresAt (cfg : Config) (f : Frame) (op : TransOp) (a : ℕ) : Prop extends Runs cfg f op where
  store : op.opcode = .opSt ∨ op.opcode = .opStA16
  available : f.core.fpUnavailable op = false
  target : f.core.storeTo op = some a

/-- The pages of the instruction `op` belongs to. -/
def insnSpan (f : Frame) (op : TransOp) : RIPVirtPhys :=
  { f.rvp with rip := f.core.arf Reg.rip }.span (f.takeOp op).core.bytesInCurrentInsn
    f.core.ctx.use64 f.core.ctx.df

/-- `page` is one of the pages of the instruction, and it is marked. -/
def OnDirtyPage (f : Frame) (op : TransOp) (page : ℕ) : Prop :=
  (page = (f.insnSpan op).mfnlo ∨ page = (f.insnSpan op).mfnhi) ∧ f.core.space.isdirty page = true

/-- A store leaves its page marked, and an instruction on a marked page does not run:
every block of that page is discarded. -/
structure CodeSeen (exec : Synthop) (cfg : Config) (junk : Sfr) (f : Frame) : Prop where
  marked : ∀ op a, f.StoresAt cfg op a →
    (f.step exec cfg junk).2.core.space.isdirty (a / kPageSize) = true
  checked : ∀ op page, f.Takes cfg op → f.OnDirtyPage op page →
    (f.step exec cfg junk).1 = some .smc
  discarded : ∀ op page, f.Takes cfg op → f.OnDirtyPage op page →
    ∀ rip b, (f.step exec cfg junk).2.core.bbcache.blocks rip = some b → b.bb.on page = false

/-- The uninitialised record names the page stored to, unless that is marked already;
and when a page of the instruction is marked, a page that is watched is, and the blocks on
it are listed on the watched pages before the first referenced one. -/
structure MarksRight (cfg : Config) (junk : Sfr) (f : Frame) : Prop where
  named : ∀ op a, f.StoresAt cfg op a →
    pageid (ofMfn junk.smcMfn) = a / kPageSize ∨ f.core.space.isdirty (a / kPageSize) = true
  watched : ∀ op page, f.Takes cfg op → f.OnDirtyPage op page → (f.takeOp op).codeDirty = true
  listed : ∀ op page, f.Takes cfg op → f.OnDirtyPage op page →
    ∀ rip b, f.core.bbcache.blocks rip = some b → b.bb.on page = true →
      rip ∈ f.core.bbcache.clears (f.takeOp op).rvp.mfnlo ∨ rip ∈ f.core.bbcache.clears (f.takeOp op).rvp.mfnhi

/-! ### A store -/

theorem addrgen_issuing (f : Frame) (op : TransOp) : (f.issuing op).addrgen op = f.core.addrgen op := by
  unfold SeqCore.addrgen SeqCore.radata SeqCore.rbdata
  simp only [issuing_arf, issuing_space, issuing_ctx]

theorem fpUnavailable_issuing (f : Frame) (op : TransOp) :
    (f.issuing op).fpUnavailable op = f.core.fpUnavailable op := by
  simp only [SeqCore.fpUnavailable, issuing_ctx]

/-- The issue of a store to guest memory. -/
theorem StoresAt.issue (exec : Synthop) (junk : Sfr) (h : f.StoresAt cfg op a) : ∃ sfr : Sfr,
    (f.issuing op).issue exec junk op = .completed ⟨sfr.data, 0⟩ sfr ∧
      sfr.physaddr = some (.guest a) ∧ sfr.bytemask ≠ 0 ∧ sfr.smcMfn = junk.smcMfn := by
  have htarget := h.target
  unfold SeqCore.storeTo at htarget
  cases hres : (f.core.addrgen op).result with
  | error e => rw [hres] at htarget; cases htarget
  | ok p =>
    cases p with
    | host n => rw [hres] at htarget; cases htarget
    | guest n =>
      simp only [hres] at htarget
      split at htarget
      · cases htarget
      rename_i hmask
      obtain rfl := Option.some.inj htarget
      have hannul : (f.core.addrgen op).annul = false := by
        by_contra hann
        rw [Bool.not_eq_false] at hann
        -- an annulled access has no guest address
        rw [SeqCore.addrgen_result, hann, if_pos rfl] at hres
        cases hres
      have hdata : (f.issuing op).rcdata op = f.core.rcdata op := by
        simp only [SeqCore.rcdata, issuing_arf]
      have hissue := SeqCore.issue_store exec junk h.store
        (by rw [fpUnavailable_issuing, h.available]) (by rw [addrgen_issuing, hres])
      simp only [addrgen_issuing, hdata, hannul, Bool.false_eq_true, if_false] at hissue
      let bytes := storeBytes op.cond op.size (f.core.addrgen op).origaddr (f.core.rcdata op)
      exact ⟨{ junk with data := bytes.2, physaddr := some (.guest n), bytemask := bytes.1 },
        hissue, rfl, hmask, rfl⟩

/-- After a store to guest memory the marks are those of before and the one the
record names. -/
theorem StoresAt.isdirty_step (h : f.StoresAt cfg op a) {page : ℕ} (hpage : page < 2 ^ 36) :
    (f.step exec cfg junk).2.core.space.isdirty page =
      if page = pageid (ofMfn junk.smcMfn) then true else f.core.space.isdirty page := by
  obtain ⟨sfr, hissue, hphys, hmask, hmfn⟩ := h.issue exec junk
  rw [h.toRuns.step_eq, hissue]
  dsimp only
  rw [commit_space]
  simp only [SeqCore.commitUop, h.store, if_true, SeqCore.commitStore, hmask, if_false, hphys,
    SeqCore.storemask, hmfn]
  rw [isdirty_setdirty _ hpage, ← issuing_space f op]
  rfl

/-- The page of a store to guest memory. -/
theorem StoresAt.page_lt (h : f.StoresAt cfg op a) : a / kPageSize < 2 ^ 36 := by
  have hst : isstore op.opcode = true := by
    rcases h.store with h | h <;> rw [h] <;> decide
  have htarget := h.target
  unfold SeqCore.storeTo at htarget
  split at htarget
  · rename_i n hres
    split at htarget
    · cases htarget
    obtain rfl := Option.some.inj htarget
    rw [SeqCore.addrgen_result, hst] at hres
    split at hres
    · cases hres
    · have hlt := (SeqCore.lt_of_translate hres).1
      simp only [addressSpaceSize, kPageSize] at hlt ⊢
      omega
  · cases htarget

theorem step_smc_iff (h : f.Takes cfg op) :
    (f.step exec cfg junk).1 = some .smc ↔ (f.takeOp op).codeDirty = true := by
  cases hdirty : (f.takeOp op).codeDirty with
  | true =>
    simp only [step, if_neg h.go, h.next, hdirty, if_true]
  | false =>
    have hr : f.Runs cfg op := ⟨h, hdirty⟩
    rw [hr.step_eq]
    cases (f.issuing op).issue exec junk op <;> simp

/-- The blocks the check leaves in the cache. -/
theorem invalidateSmc_blocks (f : Frame) (h : f.core.bbcache.WF) (rip : W64) :
    f.invalidateSmc.core.bbcache.blocks rip =
      if rip ∈ f.core.bbcache.clears f.rvp.mfnlo ∨ rip ∈ f.core.bbcache.clears f.rvp.mfnhi then none
      else f.core.bbcache.blocks rip := by
  unfold invalidateSmc
  dsimp only
  by_cases heq : f.rvp.mfnlo = f.rvp.mfnhi
  · rw [if_neg (not_not.2 heq), BasicBlockCache.invalidatePage_clears h, heq]
    simp only [or_self]
  · -- the second page, in the cache that the first leaves
    rw [if_pos heq, BasicBlockCache.invalidatePage_clears (BasicBlockCache.invalidatePage_wf h _ _),
      BasicBlockCache.invalidatePage_without h]
    have hsecond := BasicBlockCache.clears_without (c := f.core.bbcache) f.rvp.mfnlo f.rvp.mfnhi rip
    by_cases hlo : rip ∈ f.core.bbcache.clears f.rvp.mfnlo
    · simp [BasicBlockCache.without, hlo]
    · by_cases hhi : rip ∈ f.core.bbcache.clears f.rvp.mfnhi
      · simp [hsecond, hlo, hhi]
      · rw [if_neg fun hmem => hhi (hsecond.1 hmem).1]
        simp [BasicBlockCache.without, hlo, hhi]

theorem takeOp_bbcache (f : Frame) (op : TransOp) : (f.takeOp op).core.bbcache = f.core.bbcache := by
  unfold takeOp
  dsimp only
  split <;> rfl

/-- A turn that finds modified code. -/
theorem step_smc (h : f.Takes cfg op) (hdirty : (f.takeOp op).codeDirty = true) :
    f.step exec cfg junk = (some .smc, (f.takeOp op).invalidateSmc) := by
  simp only [step, if_neg h.go, h.next, hdirty, if_true]

/-- **Modified code is seen** by a turn of the sequential core exactly when the
uninitialised record happens to name the page stored to, or that is marked, the
span watched covers a marked page of the instruction, and the invalidation of its pages
comes to every block of that one. -/
theorem codeSeen_iff (exec : Synthop) (cfg : Config) (junk : Sfr) (f : Frame) (hwf : f.core.bbcache.WF) :
    f.CodeSeen exec cfg junk ↔ f.MarksRight cfg junk := by
  have hwfTaken : ∀ op, (f.takeOp op).core.bbcache.WF := by
    intro op
    rw [takeOp_bbcache]
    exact hwf
  constructor
  · intro h
    refine ⟨fun op a hs => ?_, fun op page ht hd => (step_smc_iff ht).1 (h.checked op page ht hd),
      fun op page ht hd rip b hb hon => ?_⟩
    · have hmark := h.marked op a hs
      rw [hs.isdirty_step hs.page_lt] at hmark
      split at hmark
      · rename_i heq; exact .inl heq.symm
      · exact .inr hmark
    · have hgone := h.discarded op page ht hd rip b
      rw [step_smc ht ((step_smc_iff ht).1 (h.checked op page ht hd)), invalidateSmc_blocks _ (hwfTaken op),
        takeOp_bbcache, hon] at hgone
      by_contra hno
      rw [if_neg hno] at hgone
      cases hgone hb
  · intro h
    refine ⟨fun op a hs => ?_, fun op page ht hd => (step_smc_iff ht).2 (h.watched op page ht hd),
      fun op page ht hd rip b hb => ?_⟩
    · rw [hs.isdirty_step hs.page_lt]
      split
      · rfl
      · rename_i hne
        exact (h.named op a hs).resolve_left fun heq => hne heq.symm
    · rw [step_smc ht (h.watched op page ht hd), invalidateSmc_blocks _ (hwfTaken op), takeOp_bbcache] at hb
      split at hb
      · cases hb
      · rename_i hno
        by_contra hon
        exact hno (h.listed op page ht hd rip b hb (by simpa using hon))

/-! ### A store to a clean page -/

/-- `mov [rax], rcx`. -/
def storeInsn : TransOp :=
  { TransOp.init .opSt Reg.mem Reg.rax Reg.imm Reg.rcx 3 0 0 .none with
    som := true, eom := true, bytes := 4 }

/-- A core with the memory `space` and the registers `arf`. -/
def coreWith (space : AddressSpace) (arf : Reg → W64) : SeqCore :=
  SeqCore.externalToCoreState
    { arf := arf, arflags := fun _ => 0, ctx := Context.ofArf arf, space := space, bbcache := .init
      bytesInCurrentInsn := 0, totalUserInsnsCommitted := 0 }

/-- A block of one instruction of four bytes at 0x1000. -/
def blockOf (ops : List TransOp) : BasicBlock where
  rip := RIPVirtPhys.update 0x1000 true false
  ripTaken := 0x1004
  ripNotTaken := 0x1004
  bytes := 4
  userInsnCount := 1
  transops := ops

/-- A core about to run `ops`, with the registers `arf` and pages 1 and 2 writable. -/
def sample (arf : Reg → W64) (ops : List TransOp) : Frame :=
  .start (coreWith (HostOp.exec (.init true) (.map 0x1000 0x2000 ⟨true, true, true⟩ 8)).space arf)
    (blockOf ops)

/-- A record that holds zeros. -/
def Sfr.zero : Sfr := ⟨0, none, 0, 0⟩

/-- The store of `mov [rax], rcx` with `rax = 0x2000` leaves page 2 unmarked when the
uninitialised record holds zeros. -/
theorem store_unmarked : ¬ ∀ exec cfg junk (f : Frame), f.core.bbcache.WF → f.CodeSeen exec cfg junk := by
  intro h
  have hc := h (fun _ _ => ⟨0, 0⟩) ⟨0, 0⟩ Sfr.zero
    (sample (fun r => if r = Reg.rax then 0x2000 else 0) [storeInsn]) BasicBlockCache.wf_init
  have hs : StoresAt ⟨0, 0⟩ (sample (fun r => if r = Reg.rax then 0x2000 else 0) [storeInsn])
      storeInsn 0x2000 :=
    ⟨⟨⟨by decide +kernel, by rfl⟩, by decide +kernel⟩, .inl rfl, by decide +kernel, by decide +kernel⟩
  have hmark := hc.marked storeInsn 0x2000 hs
  rw [hs.isdirty_step hs.page_lt] at hmark
  exact absurd hmark (by decide +kernel)

/-- The block of the store in the cache and its page marked, before the first uop. -/
def cachedSample : Frame :=
  let f := sample (fun r => if r = Reg.rax then 0x2000 else 0) [storeInsn]
  { f with core := { f.core with
      space := f.core.space.setdirty 1
      bbcache := (BasicBlockCache.init.insert f.core.space (blockOf [storeInsn])).2 } }

theorem codeSeen_cachedSample : cachedSample.CodeSeen (fun _ _ => ⟨0, 0⟩) ⟨0, 0⟩ Sfr.zero := by
  have hwf : cachedSample.core.bbcache.WF := by
    exact BasicBlockCache.wf_init.insert rfl (by decide) rfl _
  have hop : ∀ op, cachedSample.Takes ⟨0, 0⟩ op → op = storeInsn := by
    intro op h
    have hnext : cachedSample.nextOp = some storeInsn := by rfl
    rw [h.next] at hnext
    exact Option.some.inj hnext
  have hdirty : (cachedSample.takeOp storeInsn).codeDirty = true := by decide +kernel
  refine (codeSeen_iff _ _ _ _ hwf).2 ⟨fun op a hs => ?_, fun op page ht _ => ?_, fun op page ht _ rip b hb _ => .inl ?_⟩
  · obtain rfl := hop op hs.toTakes
    cases hdirty.symm.trans hs.clean
  · obtain rfl := hop op ht
    exact hdirty
  · obtain rfl := hop op ht
    have hrip : rip = 0x1000 := by
      by_contra hne
      have hnone : cachedSample.core.bbcache.blocks rip = none := Function.update_of_ne hne _ _
      rw [hb] at hnone
      cases hnone
    subst hrip
    decide +kernel

end Frame
end X86Sim.Seq
