import X86Sim.Code.Coherence
import X86Sim.Code.PageLists

/-!
# The page index over whole runs

Any sequence of the cache's operations, with writes and dirty marks in between.

* `Inv.step`: an operation keeps the index.
* `invalidatePage_right_iff`: an invalidation does what it answers exactly when the page
  holds no referenced block; one that fails has lost the dirty mark.
* `indexRight_of_fine`: along a run in which no page with a referenced block is
  invalidated, the index is right and every invalidation does what it answers.
-/

namespace X86Sim

open AddressSpace

/-- A decoder whose blocks have at least a byte. -/
structure BlockDecoder extends Decoder where
  bytes_pos : ∀ rvp w, 0 < (decode rvp w).bytes

/-- The address space that the machine runs on, and its cache. -/
structure CodeState where
  space : AddressSpace
  cache : PagedCache

/-- The operations of the cache, and what happens between them. -/
inductive CacheOp
  | translate (rip : W64) (use64 df : Bool)
  | invalidate (rip : W64)
  | invalidatePage (mfn : ℕ)
  | reclaim (urgency : ℕ)
  | flush
  | setdirty (mfn : ℕ)
  /-- Stores, mappings, a switch to another address space. -/
  | memory (m : AddressSpace)
  | acquire (rip : W64)
  | release (rip : W64)
  | use (rip counter : W64)

/-- One operation; none where an assertion fails. -/
def cacheStep (dec : BlockDecoder) (s : CodeState) : CacheOp → Option CodeState
  | .translate rip use64 df =>
    (s.cache.translate dec.toDecoder s.space (RIPVirtPhys.update rip use64 df)).map fun r => ⟨r.2.1, r.2.2⟩
  | .invalidate rip =>
    (s.cache.invalidate (RIPVirtPhys.update rip false false)).map fun r => { s with cache := r.2 }
  | .invalidatePage mfn => (s.cache.invalidatePage s.space mfn).map fun r => ⟨r.2.1, r.2.2⟩
  | .reclaim urgency => (s.cache.reclaim urgency).map fun r => { s with cache := r.2 }
  | .flush => s.cache.flush.map fun c => { s with cache := c }
  | .setdirty mfn => some { s with space := s.space.setdirty mfn }
  | .memory m => some { s with space := m }
  | .acquire rip => some { s with cache := s.cache.acquire rip }
  | .release rip => (s.cache.release rip).map fun c => { s with cache := c }
  | .use rip counter => some { s with cache := s.cache.use rip counter }

namespace PagedCache

variable (c : PagedCache)

/-- How often a block is in the list of page `p`. -/
def listings (p : ℕ) (rip : W64) : ℕ :=
  match c.pages.lookup p with
  | none => 0
  | some pagelist => pagelist.entries.count rip

/-- Every cached block is in the lists of the pages it touches, once, and in no other. -/
structure PageIndexed : Prop where
  once : ∀ rip b, c.table.lookup rip = some b → ∀ p, b.bb.Touches p → c.listings p rip = 1
  nowhere : ∀ rip b, c.table.lookup rip = some b → ∀ p, ¬ b.bb.Touches p → c.listings p rip = 0
  counted : ∀ p, c.getPageBbCount p = {rip | ∃ b, c.table.lookup rip = some b ∧ b.bb.Touches p}.ncard

/-- An invalidation that succeeds leaves no block on the page, one that fails leaves the page
marked. -/
structure InvalidateRight (mfn : ℕ) (r : Bool × AddressSpace × PagedCache) : Prop where
  gone : r.1 = true → ∀ rip b, r.2.2.table.lookup rip = some b → ¬ b.bb.Touches mfn
  marked : r.1 = false → r.2.1.isdirty mfn = true

/-- The invalidation before a translation, where it takes place. -/
def PreRight (m : AddressSpace) (mfn : ℕ) : Prop :=
  m.isdirty mfn = true → ∀ r, c.invalidatePage m mfn = some r → InvalidateRight mfn r

/-- No block that touches page `p` is referenced. -/
def Unreferenced (p : ℕ) : Prop :=
  ∀ rip b, c.table.lookup rip = some b → b.bb.Touches p → b.refcount = 0

end PagedCache

open PagedCache

/-- The page invalidations of an operation are right. -/
def CallsRight (s : CodeState) : CacheOp → Prop
  | .invalidatePage mfn => ∀ r, s.cache.invalidatePage s.space mfn = some r → InvalidateRight mfn r
  | .translate rip use64 df =>
    let rvp := RIPVirtPhys.update rip use64 df
    s.cache.PreRight s.space rvp.mfnlo ∧
      ∀ m c, s.cache.preInvalidate s.space rvp.mfnlo = some (true, m, c) → c.PreRight m rvp.mfnhi
  | _ => True

/-- The index is right in every state of the run, and so is every page invalidation. -/
def IndexRight (dec : BlockDecoder) (s : CodeState) : List CacheOp → Prop
  | [] => s.cache.PageIndexed
  | op :: ops =>
    s.cache.PageIndexed ∧ CallsRight s op ∧ ∀ s', cacheStep dec s op = some s' → IndexRight dec s' ops

/-- The condition on an operation and the state before it: a page to be invalidated holds no
referenced block, and the number that stands for no page is kept out. -/
def Fine (dec : BlockDecoder) (s : CodeState) : CacheOp → Prop
  | .invalidatePage mfn =>
    (mfn ≠ mfnInvalid → s.cache.Unreferenced mfn) ∧ (mfn = mfnInvalid → s.space.isdirty mfn = true)
  | .translate rip use64 df =>
    let rvp := RIPVirtPhys.update rip use64 df
    (∀ p, p = rvp.mfnlo ∨ p = rvp.mfnhi → p ≠ mfnInvalid → s.space.isdirty p = true → s.cache.Unreferenced p) ∧
      ((∀ b, s.cache.get rvp = some b → ∃ p, b.bb.Touches p ∧ s.space.isdirty p = true) →
        ¬ (dec.decodeAt s.space rvp).Touches mfnInvalid)
  | _ => True

/-- Every operation of the run is fine where it happens. -/
def FineRun (dec : BlockDecoder) (s : CodeState) : List CacheOp → Prop
  | [] => True
  | op :: ops => Fine dec s op ∧ ∀ s', cacheStep dec s op = some s' → FineRun dec s' ops

/-! ### The index -/

namespace PagedCache

variable {c c' : PagedCache}

/-- The invariant of the runs: the lists are right, and no block is on the page without a list. -/
structure Inv (c : PagedCache) : Prop where
  wf : c.WF
  off : ∀ {rip b}, c.table.lookup rip = some b → b.bb.on mfnInvalid = false

theorem inv_init : init.Inv := by
  refine ⟨wf_init, ?_⟩
  intro rip b hb
  have hnone : init.table.lookup rip = none := AList.lookup_empty rip
  rw [hnone] at hb
  cases hb

theorem WF.listings_once (h : c.WF) {rip : W64} {b : ListedBlock} (hb : c.table.lookup rip = some b) {p : ℕ}
    (hon : b.bb.on p = true) : c.listings p rip = 1 := by
  obtain ⟨l, hl, hat⟩ := h.listed hb hon
  rw [listings, hl]
  exact List.count_eq_one_of_mem (h.nodup hl) (ChunkList.mem_entries_of_at hat)

theorem WF.listings_nowhere (h : c.WF) {rip : W64} {b : ListedBlock} (hb : c.table.lookup rip = some b) {p : ℕ}
    (hoff : b.bb.on p = false) : c.listings p rip = 0 := by
  rw [listings]
  cases hl : c.pages.lookup p with
  | none => rfl
  | some l =>
    apply List.count_eq_zero_of_not_mem
    intro hmem
    obtain ⟨b', hb', hon⟩ := h.cached hl hmem
    rw [hb] at hb'
    obtain rfl := Option.some.inj hb'
    rw [hoff] at hon
    cases hon

/-- The list of a page holds the blocks that touch it. -/
theorem WF.touching_eq (h : c.WF) {p : ℕ} {l : ChunkList W64} (hl : c.pages.lookup p = some l) :
    {rip | ∃ b, c.table.lookup rip = some b ∧ b.bb.Touches p} = {rip | rip ∈ l.entries} := by
  ext rip
  constructor
  · rintro ⟨b, hb, ht⟩
    obtain ⟨l', hl', hat⟩ := h.listed hb ((h.touches_iff hb p).2 ht)
    rw [hl] at hl'
    obtain rfl := Option.some.inj hl'
    exact ChunkList.mem_entries_of_at hat
  · intro hmem
    obtain ⟨b, hb, hon⟩ := h.cached hl hmem
    exact ⟨b, hb, (h.touches_iff hb p).1 hon⟩

theorem WF.touching_empty (h : c.WF) {p : ℕ} (hoff : ∀ {rip b}, c.table.lookup rip = some b → b.bb.on p = false) :
    {rip | ∃ b, c.table.lookup rip = some b ∧ b.bb.Touches p} = ∅ := by
  apply Set.eq_empty_of_forall_notMem
  rintro rip ⟨b, hb, ht⟩
  have hon := (h.touches_iff hb p).2 ht
  rw [hoff hb] at hon
  cases hon

theorem ncard_entries {entries : List W64} (hnodup : entries.Nodup) :
    ({rip | rip ∈ entries} : Set W64).ncard = entries.length := by
  have hset : ({rip | rip ∈ entries} : Set W64) = ↑entries.toFinset := by
    ext rip
    rw [List.coe_toFinset]
  rw [hset, Set.ncard_coe_finset, List.toFinset_card_of_nodup hnodup]

/-- The count of a page. -/
theorem Inv.counted (h : c.Inv) (p : ℕ) :
    c.getPageBbCount p = {rip | ∃ b, c.table.lookup rip = some b ∧ b.bb.Touches p}.ncard := by
  rw [getPageBbCount]
  by_cases hp : p = mfnInvalid
  · subst hp
    rw [if_pos rfl, h.wf.touching_empty h.off, Set.ncard_empty]
  · rw [if_neg hp]
    cases hl : c.pages.lookup p with
    | none =>
      have hoff : ∀ {rip b}, c.table.lookup rip = some b → b.bb.on p = false := by
        intro rip b hb
        apply h.wf.off_of_nil _ hb
        intro l hl'
        rw [hl] at hl'
        cases hl'
      rw [h.wf.touching_empty hoff, Set.ncard_empty]
    | some l =>
      rw [h.wf.touching_eq hl, ncard_entries (h.wf.nodup hl)]
      exact (h.wf.lists hl).elemcount

/-- **The index is right** wherever the invariant holds. -/
theorem Inv.pageIndexed (h : c.Inv) : c.PageIndexed := by
  refine ⟨?_, ?_, h.counted⟩
  · intro rip b hb p ht
    exact h.wf.listings_once hb ((h.wf.touches_iff hb p).2 ht)
  · intro rip b hb p ht
    apply h.wf.listings_nowhere hb
    rw [Bool.eq_false_iff]
    exact fun hon => ht ((h.wf.touches_iff hb p).1 hon)

/-- An operation that only drops blocks. -/
theorem Inv.of_sub (h : c.Inv) (hwf : c'.WF)
    (hsub : ∀ {rip b}, c'.table.lookup rip = some b → c.table.lookup rip = some b) : c'.Inv :=
  ⟨hwf, fun hb => h.off (hsub hb)⟩

/-! ### Page invalidation -/

theorem Dropped.inv {mfn : ℕ} {r : Bool × PagedCache} (hd : Dropped c mfn r) (h : c.Inv) : r.2.Inv :=
  h.of_sub hd.wf hd.sub

/-- An invalidation of a page without a referenced block succeeds. -/
theorem Dropped.ok {mfn : ℕ} {r : Bool × PagedCache} (hd : Dropped c mfn r) (h : c.WF) (hfree : c.Unreferenced mfn) :
    r.1 = true := by
  by_contra hne
  obtain ⟨rip, b, hb, hon, href⟩ := hd.held (by simpa using hne)
  exact href (hfree rip b hb ((h.touches_iff hb mfn).1 hon))

theorem invalidatePage_right (h : c.WF) (m : AddressSpace) {mfn : ℕ} (hfree : mfn ≠ mfnInvalid → c.Unreferenced mfn)
    (hdirty : mfn = mfnInvalid → m.isdirty mfn = true) {r : Bool × AddressSpace × PagedCache}
    (hr : c.invalidatePage m mfn = some r) : InvalidateRight mfn r := by
  by_cases hmfn : mfn = mfnInvalid
  · have hmarked := hdirty hmfn
    rw [hmfn, invalidatePage_invalid] at hr
    obtain rfl := Option.some.inj hr
    exact ⟨nofun, fun _ => hmarked⟩
  · obtain ⟨r', hd, heq⟩ := invalidatePage_spec h m hmfn
    rw [heq] at hr
    obtain rfl := Option.some.inj hr
    have hok := hd.ok h (hfree hmfn)
    constructor
    · intro _ rip b hb ht
      have hoff := hd.off hok hb
      rw [(hd.wf.touches_iff hb mfn).2 ht] at hoff
      cases hoff
    · intro hfail
      dsimp only at hfail
      rw [hok] at hfail
      cases hfail

/-- **An invalidation does what it answers** exactly when no block of the page is referenced. -/
theorem invalidatePage_right_iff (h : c.WF) (m : AddressSpace) {mfn : ℕ} (hmfn : mfn ≠ mfnInvalid)
    (hlt : mfn < 2 ^ 36) : (∀ r, c.invalidatePage m mfn = some r → InvalidateRight mfn r) ↔ c.Unreferenced mfn := by
  constructor
  · intro hright rip b hb ht
    by_contra href
    obtain ⟨r, hd, heq⟩ := invalidatePage_spec h m hmfn
    obtain ⟨hgone, hmarked⟩ := hright _ heq
    -- the block stays, so the invalidation has failed, but the mark has gone
    have hkept := hd.kept hb (.inr href)
    have hfail : r.1 = false := by
      rw [Bool.eq_false_iff]
      exact fun hok => hgone hok rip b hkept ht
    have hmark := hmarked hfail
    dsimp only at hmark
    rw [isdirty_cleardirty m hlt hlt, if_pos rfl] at hmark
    cases hmark
  · intro hfree r hr
    exact invalidatePage_right h m (fun _ => hfree) (fun heq => absurd heq hmfn) hr

/-- What the pre-invalidation of a page does. -/
structure PreDropped (c : PagedCache) (m : AddressSpace) (mfn : ℕ) (r : Bool × AddressSpace × PagedCache) : Prop where
  wf : r.2.2.WF
  sub : ∀ {rip b}, r.2.2.table.lookup rip = some b → c.table.lookup rip = some b
  kept : ∀ {rip b}, c.table.lookup rip = some b →
    r.2.2.table.lookup rip = some b ∨ b.bb.on mfn = true ∧ m.isdirty mfn = true
  space : r.2.1 = m ∨ r.2.1 = m.cleardirty mfn

theorem preInvalidate_spec (h : c.WF) (m : AddressSpace) (mfn : ℕ) :
    ∃ r, c.preInvalidate m mfn = some r ∧ PreDropped c m mfn r := by
  rw [preInvalidate]
  cases hdirty : m.isdirty mfn with
  | false => exact ⟨_, rfl, h, id, fun hb => .inl hb, .inl rfl⟩
  | true =>
    rw [if_pos rfl]
    by_cases hmfn : mfn = mfnInvalid
    · rw [hmfn, invalidatePage_invalid]
      exact ⟨_, rfl, h, id, fun hb => .inl hb, .inl rfl⟩
    · obtain ⟨r, hd, heq⟩ := invalidatePage_spec h m hmfn
      refine ⟨_, heq, hd.wf, hd.sub, ?_, .inr rfl⟩
      intro rip b hb
      cases hon : b.bb.on mfn with
      | false => exact .inl (hd.kept hb (.inl hon))
      | true => exact .inr ⟨rfl, hdirty⟩

section PreDropped

variable {m : AddressSpace} {mfn : ℕ} {r : Bool × AddressSpace × PagedCache}

/-- Clearing a mark sets none. -/
theorem isdirty_of_cleardirty {p : ℕ} (h : (m.cleardirty mfn).isdirty p = true) : m.isdirty p = true := by
  simp only [isdirty, fastcheck, cleardirty, Function.update_apply] at h ⊢
  split at h
  · cases h
  · rename_i hlow
    rw [if_neg hlow]
    split at h
    · cases h
    · exact h

theorem PreDropped.isdirty (hd : PreDropped c m mfn r) {p : ℕ} (h : r.2.1.isdirty p = true) : m.isdirty p = true := by
  rcases hd.space with heq | heq
  · rw [heq] at h
    exact h
  · rw [heq] at h
    exact isdirty_of_cleardirty h

theorem PreDropped.decodeAt (hd : PreDropped c m mfn r) (dec : Decoder) (rvp : RIPVirtPhys) :
    dec.decodeAt r.2.1 rvp = dec.decodeAt m rvp := by
  rcases hd.space with heq | heq
  · rw [heq]
  · rw [heq]
    rfl

theorem PreDropped.unreferenced (hd : PreDropped c m mfn r) {p : ℕ} (h : c.Unreferenced p) : r.2.2.Unreferenced p :=
  fun rip b hb ht => h rip b (hd.sub hb) ht

end PreDropped

theorem preRight (h : c.WF) (m : AddressSpace) {mfn : ℕ}
    (hfree : mfn ≠ mfnInvalid → m.isdirty mfn = true → c.Unreferenced mfn) : c.PreRight m mfn := by
  intro hdirty r hr
  exact invalidatePage_right h m (fun hmfn => hfree hmfn hdirty) (fun _ => hdirty) hr

/-! ### The operations -/

theorem Inv.modify (h : c.Inv) (rip : W64) {f : ListedBlock → ListedBlock}
    (hf : ∀ b, (f b).bb = b.bb ∧ (f b).mfnloLoc = b.mfnloLoc ∧ (f b).mfnhiLoc = b.mfnhiLoc) : (c.modify rip f).Inv := by
  refine ⟨h.wf.modify rip hf, ?_⟩
  intro r b hr
  rw [modify_table] at hr
  by_cases hrr : r = rip
  · rw [if_pos hrr] at hr
    obtain ⟨b', hb', rfl⟩ := Option.map_eq_some_iff.1 hr
    rw [(hf b').1]
    exact h.off hb'
  · rw [if_neg hrr] at hr
    exact h.off hr

/-- A block that goes leaves the rest as it was. -/
theorem Inv.without (h : c.Inv) {rip : W64} {b : ListedBlock} (hb : c.table.lookup rip = some b)
    (hw : Without c rip b c') : c'.Inv :=
  h.of_sub (hw.wf h.wf hb) fun hr => (hw.old hr).2

theorem Inv.invalidate (h : c.Inv) {rvp : RIPVirtPhys} {r : Bool × PagedCache} (hr : c.invalidate rvp = some r) :
    r.2.Inv := by
  rw [PagedCache.invalidate] at hr
  cases hb : c.get rvp with
  | none =>
    rw [hb] at hr
    obtain rfl := Option.some.inj hr
    exact h
  | some b =>
    rw [hb] at hr
    dsimp only at hr
    by_cases href : b.refcount = 0
    · obtain ⟨c', hinv, hw⟩ := invalidateBlock_without h.wf hb href
      rw [hinv] at hr
      obtain rfl := Option.some.inj hr
      exact h.without hb hw
    · rw [invalidateBlock_held href] at hr
      obtain rfl := Option.some.inj hr
      exact h

theorem Inv.invalidatePage (h : c.Inv) {m : AddressSpace} {mfn : ℕ} {r : Bool × AddressSpace × PagedCache}
    (hr : c.invalidatePage m mfn = some r) : r.2.2.Inv := by
  by_cases hmfn : mfn = mfnInvalid
  · rw [hmfn, invalidatePage_invalid] at hr
    obtain rfl := Option.some.inj hr
    exact h
  · obtain ⟨r', hd, heq⟩ := invalidatePage_spec h.wf m hmfn
    rw [heq] at hr
    obtain rfl := Option.some.inj hr
    exact hd.inv h

section Translate

variable (dec : BlockDecoder) (m : AddressSpace) (rip : W64) (use64 df : Bool)

theorem decodeAt_on_iff (p : ℕ) : (dec.decodeAt m (RIPVirtPhys.update rip use64 df)).on p = true ↔
    (dec.decodeAt m (RIPVirtPhys.update rip use64 df)).Touches p :=
  on_iff_touches (dec.rip_decode _ _) (dec.bytes_pos _ _) (dec.bytes_decode _ _) p

/-- The insertion keeps the invariant when the block is off the page without a list. -/
theorem Inv.lookupOrInsert (h : c.Inv)
    (hoff : c.get (RIPVirtPhys.update rip use64 df) = none →
      ¬ (dec.decodeAt m (RIPVirtPhys.update rip use64 df)).Touches mfnInvalid) :
    (c.lookupOrInsert dec.toDecoder m (RIPVirtPhys.update rip use64 df)).2.2.Inv := by
  rw [PagedCache.lookupOrInsert]
  cases hget : c.get (RIPVirtPhys.update rip use64 df) with
  | some b => exact h
  | none =>
    dsimp only
    have hinv := mt (decodeAt_on_iff dec m rip use64 df mfnInvalid).1 (hoff hget)
    have hkey : (dec.decodeAt m (RIPVirtPhys.update rip use64 df)).rip = RIPVirtPhys.update rip use64 df :=
      dec.rip_decode _ _
    have hpos : 0 < (dec.decodeAt m (RIPVirtPhys.update rip use64 df)).bytes := dec.bytes_pos _ _
    have hshort : (dec.decodeAt m (RIPVirtPhys.update rip use64 df)).bytes ≤ kPageSize := dec.bytes_decode _ _
    generalize dec.decodeAt m (RIPVirtPhys.update rip use64 df) = bb at *
    obtain ⟨lo, hi, hw⟩ := insert_with (c := c) m fun hcross => BasicBlockCache.mfnlo_ne_mfnhi hkey hshort hcross
    have hrip : bb.rip.rip = rip := by
      rw [hkey]
      rfl
    rw [hrip] at hw
    have hmiss : c.table.lookup rip = none := hget
    refine ⟨hw.wf h.wf hmiss ?_ ⟨hpos, hshort⟩, ?_⟩
    · dsimp only
      rw [hkey]
      rfl
    · intro r b hr
      rcases hw.cases hr with ⟨-, rfl⟩ | ⟨-, hold⟩
      · exact Bool.eq_false_iff.2 hinv
      · exact h.off hold

/-- **Translation** keeps the invariant. -/
theorem Inv.translate (h : c.Inv)
    (hoff : (∀ b, c.get (RIPVirtPhys.update rip use64 df) = some b → ∃ p, b.bb.Touches p ∧ m.isdirty p = true) →
      ¬ (dec.decodeAt m (RIPVirtPhys.update rip use64 df)).Touches mfnInvalid)
    {r : Option BasicBlock × AddressSpace × PagedCache}
    (hr : c.translate dec.toDecoder m (RIPVirtPhys.update rip use64 df) = some r) : r.2.2.Inv := by
  obtain ⟨lo, hlo, dlo⟩ := preInvalidate_spec h.wf m (RIPVirtPhys.update rip use64 df).mfnlo
  have hinvLo := h.of_sub dlo.wf dlo.sub
  simp only [PagedCache.translate, hlo, Option.bind_eq_bind, Option.bind_some] at hr
  by_cases hokLo : lo.1 = true
  · obtain ⟨hi, hhi, dhi⟩ := preInvalidate_spec dlo.wf lo.2.1 (RIPVirtPhys.update rip use64 df).mfnhi
    have hinvHi := hinvLo.of_sub dhi.wf dhi.sub
    simp only [if_pos hokLo, hhi, Option.bind_some] at hr
    by_cases hokHi : hi.1 = true
    · rw [if_pos hokHi] at hr
      obtain rfl := Option.some.inj hr
      apply hinvHi.lookupOrInsert
      intro hget
      rw [dhi.decodeAt, dlo.decodeAt]
      apply hoff
      -- a block that has gone was on a dirty page
      intro b hb
      rcases dlo.kept hb with hb' | ⟨hon, hdirty⟩
      · rcases dhi.kept hb' with hb'' | ⟨hon, hdirty⟩
        · rw [PagedCache.get, hb''] at hget
          cases hget
        · exact ⟨_, (h.wf.touches_iff hb _).1 hon, dlo.isdirty hdirty⟩
      · exact ⟨_, (h.wf.touches_iff hb _).1 hon, hdirty⟩
    · rw [if_neg hokHi] at hr
      obtain rfl := Option.some.inj hr
      exact hinvHi
  · rw [if_neg hokLo] at hr
    obtain rfl := Option.some.inj hr
    exact hinvLo

/-- A block that is not cached, on clean pages, is decoded and inserted. -/
theorem translate_miss (dec : Decoder) {rvp : RIPVirtPhys} (hlo : m.isdirty rvp.mfnlo = false)
    (hhi : m.isdirty rvp.mfnhi = false) (hget : c.get rvp = none) :
    c.translate dec m rvp = some (some (dec.decodeAt m rvp), c.insert m (dec.decodeAt m rvp)) := by
  simp only [PagedCache.translate, preInvalidate, hlo, hhi, PagedCache.lookupOrInsert, hget, Bool.false_eq_true,
    if_false, Option.bind_eq_bind, Option.bind_some, if_true]

end Translate

end PagedCache

/-! ### Runs -/

section Runs

variable {dec : BlockDecoder} {s s' : CodeState}

/-- **One operation** keeps the invariant. -/
theorem PagedCache.Inv.step (h : s.cache.Inv) {op : CacheOp} (hfine : Fine dec s op) (hs : cacheStep dec s op = some s') :
    s'.cache.Inv := by
  -- memory and references are not part of the index
  cases op with
  | translate rip use64 df =>
    obtain ⟨r, hr, rfl⟩ := Option.map_eq_some_iff.1 hs
    exact h.translate dec s.space rip use64 df hfine.2 hr
  | invalidate rip =>
    obtain ⟨r, hr, rfl⟩ := Option.map_eq_some_iff.1 hs
    exact h.invalidate hr
  | invalidatePage mfn =>
    obtain ⟨r, hr, rfl⟩ := Option.map_eq_some_iff.1 hs
    exact h.invalidatePage hr
  | reclaim urgency =>
    obtain ⟨r, hr, rfl⟩ := Option.map_eq_some_iff.1 hs
    obtain ⟨n, c', hc', hwf, hsub⟩ := reclaim_spec h.wf urgency
    rw [hc'] at hr
    obtain rfl := Option.some.inj hr
    exact h.of_sub hwf hsub
  | flush =>
    obtain ⟨c', hc', rfl⟩ := Option.map_eq_some_iff.1 hs
    obtain ⟨hwf, hnone⟩ := flush_spec h.wf hc'
    exact ⟨hwf, fun hb => absurd hb hnone⟩
  | setdirty mfn =>
    obtain rfl := Option.some.inj hs
    exact h
  | memory m =>
    obtain rfl := Option.some.inj hs
    exact h
  | acquire rip =>
    obtain rfl := Option.some.inj hs
    exact h.modify rip fun b => ⟨rfl, rfl, rfl⟩
  | release rip =>
    obtain ⟨c', hc', rfl⟩ := Option.map_eq_some_iff.1 hs
    rw [release] at hc'
    split at hc'
    · cases hc'
    · split at hc'
      · cases hc'
      · obtain rfl := Option.some.inj hc'
        exact h.modify rip fun b => ⟨rfl, rfl, rfl⟩
  | use rip counter =>
    obtain rfl := Option.some.inj hs
    exact h.modify rip fun b => ⟨rfl, rfl, rfl⟩

/-- The page invalidations of a fine operation. -/
theorem PagedCache.Inv.callsRight (h : s.cache.Inv) {op : CacheOp} (hfine : Fine dec s op) : CallsRight s op := by
  cases op with
  | invalidatePage mfn =>
    intro r hr
    exact invalidatePage_right h.wf s.space hfine.1 hfine.2 hr
  | translate rip use64 df =>
    obtain ⟨hfree, -⟩ := hfine
    refine ⟨preRight h.wf s.space (hfree _ (.inl rfl)), ?_⟩
    intro m c hlo
    obtain ⟨lo, hlo', dlo⟩ := preInvalidate_spec h.wf s.space (RIPVirtPhys.update rip use64 df).mfnlo
    rw [hlo'] at hlo
    obtain rfl := Option.some.inj hlo
    apply preRight dlo.wf
    intro hmfn hdirty
    exact dlo.unreferenced (hfree _ (.inr rfl) hmfn (dlo.isdirty hdirty))
  | invalidate rip => trivial
  | reclaim urgency => trivial
  | flush => trivial
  | setdirty mfn => trivial
  | memory m => trivial
  | acquire rip => trivial
  | release rip => trivial
  | use rip counter => trivial

theorem PagedCache.Inv.indexRight (h : s.cache.Inv) (ops : List CacheOp) (hfine : FineRun dec s ops) : IndexRight dec s ops := by
  induction ops generalizing s with
  | nil => exact h.pageIndexed
  | cons op ops ih =>
    refine ⟨h.pageIndexed, h.callsRight hfine.1, ?_⟩
    intro s' hs
    exact ih (h.step hfine.1 hs) (hfine.2 s' hs)

/-- **The index along a run** that never invalidates a page with a referenced block. -/
theorem indexRight_of_fine (dec : BlockDecoder) (m : AddressSpace) (ops : List CacheOp)
    (hfine : FineRun dec ⟨m, .init⟩ ops) : IndexRight dec ⟨m, .init⟩ ops :=
  inv_init.indexRight ops hfine

end Runs

/-! ### A page whose block is in use -/

/-- `shortJump` as a decoder of at least a byte. -/
def jumpDecoder : BlockDecoder where
  toDecoder := shortJump
  bytes_pos rvp w := by
    rw [shortJump]
    dsimp only
    split
    · exact Nat.zero_lt_two
    · exact Nat.zero_lt_one

/-- The first translation, on clean pages. -/
theorem cacheStep_first {dec : BlockDecoder} {m : AddressSpace} {rip : W64} {use64 df : Bool}
    (hlo : m.isdirty (RIPVirtPhys.update rip use64 df).mfnlo = false)
    (hhi : m.isdirty (RIPVirtPhys.update rip use64 df).mfnhi = false)
    (hoff : (dec.decodeAt m (RIPVirtPhys.update rip use64 df)).on mfnInvalid = false) :
    ∃ s b, cacheStep dec ⟨m, .init⟩ (.translate rip use64 df) = some s ∧ s.cache.Inv ∧ b.refcount = 0 ∧
      b.bb = dec.decodeAt m (RIPVirtPhys.update rip use64 df) ∧
      ∀ r, s.cache.table.lookup r = if r = rip then some b else none := by
  have hget : PagedCache.init.get (RIPVirtPhys.update rip use64 df) = none := AList.lookup_empty _
  have htranslate := translate_miss m dec.toDecoder hlo hhi hget
  have hkey : (dec.decodeAt m (RIPVirtPhys.update rip use64 df)).rip = RIPVirtPhys.update rip use64 df :=
    dec.rip_decode _ _
  have hshort : (dec.decodeAt m (RIPVirtPhys.update rip use64 df)).bytes ≤ kPageSize := dec.bytes_decode _ _
  have htouch : ¬ (dec.decodeAt m (RIPVirtPhys.update rip use64 df)).Touches mfnInvalid := by
    rw [← decodeAt_on_iff, hoff]
    exact Bool.false_ne_true
  have hinv := inv_init.translate dec m rip use64 df (fun _ => htouch) htranslate
  obtain ⟨lo, hi, hw⟩ := @insert_with .init _ m fun hcross => BasicBlockCache.mfnlo_ne_mfnhi hkey hshort hcross
  have hrip : (dec.decodeAt m (RIPVirtPhys.update rip use64 df)).rip.rip = rip := by
    rw [hkey]
    rfl
  rw [hrip] at hw
  refine ⟨⟨(PagedCache.init.insert m (dec.decodeAt m (RIPVirtPhys.update rip use64 df))).1, _⟩, _, ?_, hinv, rfl, rfl,
    hw.table⟩
  rw [cacheStep, htranslate, Option.map_some]

/-- The jump to itself is translated into an empty cache. -/
theorem cacheStep_jump : ∃ s b,
    cacheStep jumpDecoder ⟨World.jump.boundSpace, .init⟩ (.translate 0x1000 true false) = some s ∧ s.cache.Inv ∧
      b.refcount = 0 ∧ b.bb.on 1 = true ∧ ∀ r, s.cache.table.lookup r = if r = 0x1000 then some b else none := by
  obtain ⟨s, b, hs, hinv, href, hbb, htable⟩ := @cacheStep_first jumpDecoder World.jump.boundSpace 0x1000 true false
    (by decide +kernel) (by decide +kernel) (by decide +kernel)
  refine ⟨s, b, hs, hinv, href, ?_, htable⟩
  rw [hbb]
  decide +kernel

/-- Translate a block, write to its page and invalidate it. -/
theorem indexRight_jump : IndexRight jumpDecoder ⟨World.jump.boundSpace, .init⟩
    [.translate 0x1000 true false, .setdirty 1, .invalidatePage 1] := by
  refine indexRight_of_fine jumpDecoder World.jump.boundSpace _ ⟨⟨?_, ?_⟩, ?_⟩
  · rintro p (rfl | rfl) - hdirty
    · exact absurd hdirty (by decide +kernel)
    · exact absurd hdirty (by decide +kernel)
  · intro _
    rw [← decodeAt_on_iff]
    decide +kernel
  · intro s hs
    refine ⟨trivial, ?_⟩
    intro s' hs'
    obtain rfl := Option.some.inj hs'
    refine ⟨⟨?_, nofun⟩, fun _ _ => trivial⟩
    intro _ rip b hb _
    obtain ⟨s', b', hs', -, href, -, htable⟩ := cacheStep_jump
    rw [hs] at hs'
    obtain rfl := Option.some.inj hs'
    rw [htable] at hb
    split at hb
    · obtain rfl := Option.some.inj hb
      exact href
    · cases hb

/-- The block stays in use while its page is written. -/
def writeInUse : List CacheOp :=
  [.translate 0x1000 true false, .acquire 0x1000, .setdirty 1, .invalidatePage 1]

theorem referenced_not_indexRight : ¬ ∀ ops, IndexRight jumpDecoder ⟨World.jump.boundSpace, .init⟩ ops := by
  intro h
  obtain ⟨s, b, hs, hinv, -, hon, htable⟩ := cacheStep_jump
  obtain ⟨-, -, hacquire⟩ := h writeInUse
  obtain ⟨-, -, hdirty⟩ := hacquire s hs
  obtain ⟨-, -, hinvalidate⟩ := hdirty _ rfl
  obtain ⟨-, hcall, -⟩ := hinvalidate _ rfl
  -- the block is referenced, so the invalidation cannot be right
  have hheld : Inv (s.cache.acquire 0x1000) := hinv.modify 0x1000 fun b => ⟨rfl, rfl, rfl⟩
  have hfree := (invalidatePage_right_iff hheld.wf (s.space.setdirty 1) (by decide) (by decide)).1 hcall
  have hb : (s.cache.acquire 0x1000).table.lookup 0x1000 = some { b with refcount := b.refcount + 1 } := by
    rw [acquire, modify_table, if_pos rfl, htable, if_pos rfl, Option.map_some]
  have hzero := hfree _ _ hb ((hheld.wf.touches_iff hb 1).1 hon)
  exact absurd hzero (Nat.succ_ne_zero _)

end X86Sim
