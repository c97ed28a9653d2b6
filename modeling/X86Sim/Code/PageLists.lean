import Mathlib.Data.List.AList
import Mathlib.Data.Set.Card
import X86Sim.Code.BasicBlockCache
import X86Sim.Lib.ChunkList

/-!
# Cached blocks and the lists of their pages (`BasicBlockCache` in `decode-core.cpp`)

The cache as it is kept: a hash table of blocks, a chunk list for each page, and in each
block the places it has in the lists of its pages.

* `WF.invalidateBlock`, `WF.insert`: the two changes of the lists.
* `invalidatePage_spec`, `translate_spec`: what the operations do, and that none of their
  assertions fails.
-/

namespace X86Sim

def BB_PTRS_PER_CHUNK : ℕ := 60

/-- A cached `BasicBlock`. -/
structure ListedBlock where
  bb : BasicBlock
  refcount : ℕ
  lastused : W64
  mfnloLoc : Locator
  mfnhiLoc : Locator

/-- `BasicBlockCache`. The lists hold the rips of the blocks they point to. -/
structure PagedCache where
  table : AList fun _ : W64 => ListedBlock
  pages : AList fun _ : ℕ => ChunkList W64

namespace PagedCache

variable (c : PagedCache)

def init : PagedCache := ⟨∅, ∅⟩

/-- `get`: the hash compares `rip` only. -/
def get (rvp : RIPVirtPhys) : Option ListedBlock := c.table.lookup rvp.rip

/-- `get_page_bb_count`. -/
def getPageBbCount (mfn : ℕ) : ℕ :=
  if mfn = mfnInvalid then 0
  else
    match c.pages.lookup mfn with
    | none => 0
    | some pagelist => pagelist.elemcount

/-- `pagelist->remove`; none where there is no list. -/
def unlist (mfn : ℕ) (loc : Locator) : Option PagedCache :=
  (c.pages.lookup mfn).map fun pagelist => { c with pages := c.pages.insert mfn (pagelist.remove loc) }

/-- `invalidate(bb)`. -/
def invalidateBlock (b : ListedBlock) : Option (Bool × PagedCache) :=
  if b.refcount ≠ 0 then some (false, c)
  else do
    let c ← c.unlist b.bb.rip.mfnlo b.mfnloLoc
    let c ← if b.bb.pageCrossing then c.unlist b.bb.rip.mfnhi b.mfnhiLoc else some c
    some (true, { c with table := c.table.erase b.bb.rip.rip })

/-- `invalidate(rvp)`. -/
def invalidate (rvp : RIPVirtPhys) : Option (Bool × PagedCache) :=
  match c.get rvp with
  | none => some (true, c)
  | some b => c.invalidateBlock b

/-- The loop of `invalidate_page`, with the assertion after it. -/
def invalidatePageLoop (mfn : ℕ) : ℕ → PagedCache → Option (Bool × PagedCache)
  | 0, _ => none
  | fuel + 1, c => do
    let pagelist ← c.pages.lookup mfn
    if pagelist.elemcount = 0 then
      if pagelist.chunks.isEmpty then some (true, c) else none
    else do
      let rip ← pagelist.entries.head?
      let b ← c.table.lookup rip
      let r ← c.invalidateBlock b
      if r.1 then invalidatePageLoop mfn fuel r.2 else some (false, r.2)

/-- `invalidate_page`. -/
def invalidatePage (m : AddressSpace) (mfn : ℕ) : Option (Bool × AddressSpace × PagedCache) :=
  if mfn = mfnInvalid then some (false, m, c)
  else
    let m := m.cleardirty mfn
    match c.pages.lookup mfn with
    | none => some (true, m, c)
    | some pagelist => (invalidatePageLoop mfn (pagelist.elemcount + 1) c).map fun r => (r.1, m, r.2)

/-- The blocks, in the order an iterator goes through the table. -/
def blocks : List ListedBlock := c.table.entries.map fun e => e.2

/-- The age from which on `reclaim` spares a block. -/
def average (urgency : ℕ) : ℕ :=
  if urgency ≥ 10000000 then 2 ^ 63 - 1
  else (c.blocks.map ListedBlock.lastused).sum.toNat / c.blocks.length

/-- The first loop of `reclaim`. -/
def reclaimLoop (average : ℕ) : PagedCache → List ListedBlock → Option PagedCache :=
  List.foldlM fun c b =>
    if b.refcount ≠ 0 then some c
    else if b.lastused.toNat ≤ average then (c.invalidateBlock b).map Prod.snd
    else some c

/-- The second loop of `reclaim`, over the lists. -/
def freeEmpty : PagedCache :=
  { c with
    pages := c.pages.keys.foldl (fun pages mfn =>
      match pages.lookup mfn with
      | none => pages
      | some pagelist => if pagelist.elemcount = 0 then pages.erase mfn else pages) c.pages }

/-- `reclaim`, with the number of blocks it answers. -/
def reclaim (urgency : ℕ) : Option (ℕ × PagedCache) :=
  if c.blocks = [] then some (0, c)
  else
    (c.reclaimLoop (c.average urgency) c.blocks).map fun c' =>
      (c.blocks.countP fun b => b.refcount = 0, c'.freeEmpty)

/-- `flush`: every list has to be empty in the end. -/
def flush : Option PagedCache := do
  let c ← c.blocks.foldlM (fun c b => (c.invalidateBlock b).map Prod.snd) c
  if c.pages.entries.all fun e => e.2.elemcount = 0 then some { c with pages := ∅ } else none

/-- `pagelist->add`, after the list is made if the page has none. -/
def list (mfn : ℕ) (rip : W64) : PagedCache × Locator :=
  let r := ((c.pages.lookup mfn).getD .nil).add BB_PTRS_PER_CHUNK rip
  ({ c with pages := c.pages.insert mfn r.1 }, r.2)

/-- The insertion at the end of `translate`. -/
def insert (m : AddressSpace) (bb : BasicBlock) : AddressSpace × PagedCache :=
  let lo := c.list bb.rip.mfnlo bb.rip.rip
  let m := m.cleardirty bb.rip.mfnlo
  if bb.pageCrossing then
    let hi := lo.1.list bb.rip.mfnhi bb.rip.rip
    (m.cleardirty bb.rip.mfnhi, { hi.1 with table := c.table.insert bb.rip.rip ⟨bb, 0, 0, lo.2, hi.2⟩ })
  else (m, { lo.1 with table := c.table.insert bb.rip.rip ⟨bb, 0, 0, lo.2, ⟨0, 0⟩⟩ })

/-- The pre-invalidation of one page of `translate`. -/
def preInvalidate (m : AddressSpace) (mfn : ℕ) : Option (Bool × AddressSpace × PagedCache) :=
  if m.isdirty mfn then c.invalidatePage m mfn else some (true, m, c)

/-- The end of `translate`: look up, or decode and insert. -/
def lookupOrInsert (dec : Decoder) (m : AddressSpace) (rvp : RIPVirtPhys) :
    Option BasicBlock × AddressSpace × PagedCache :=
  match c.get rvp with
  | some b => (some b.bb, m, c)
  | none => (some (dec.decodeAt m rvp), c.insert m (dec.decodeAt m rvp))

/-- `translate`. -/
def translate (dec : Decoder) (m : AddressSpace) (rvp : RIPVirtPhys) :
    Option (Option BasicBlock × AddressSpace × PagedCache) := do
  let lo ← c.preInvalidate m rvp.mfnlo
  if lo.1 then do
    let hi ← lo.2.2.preInvalidate lo.2.1 rvp.mfnhi
    if hi.1 then some (hi.2.2.lookupOrInsert dec hi.2.1 rvp) else some (none, hi.2)
  else some (none, lo.2)

/-- A block with its reference count or its age changed. -/
def modify (rip : W64) (f : ListedBlock → ListedBlock) : PagedCache :=
  match c.table.lookup rip with
  | none => c
  | some b => { c with table := c.table.insert rip (f b) }

def acquire (rip : W64) : PagedCache := c.modify rip fun b => { b with refcount := b.refcount + 1 }

/-- `release`, which asserts that there is a reference. -/
def release (rip : W64) : Option PagedCache :=
  match c.table.lookup rip with
  | none => none
  | some b => if b.refcount = 0 then none else some (c.modify rip fun b => { b with refcount := b.refcount - 1 })

def use (rip counter : W64) : PagedCache := c.modify rip fun b => { b with lastused := counter }

end PagedCache

/-! ### The index invariant -/

namespace BasicBlock

variable (bb : BasicBlock)

/-- One of the bytes of the block is on page `p`. -/
def Touches (p : ℕ) : Prop :=
  ∃ k < bb.bytes, (bb.rip.rip.toNat + k) % 2 ^ 64 / kPageSize % 2 ^ 36 = p

end BasicBlock

/-- The place of a block in the list of page `p`. -/
def ListedBlock.loc (b : ListedBlock) (p : ℕ) : Locator := if p = b.bb.rip.mfnlo then b.mfnloLoc else b.mfnhiLoc

namespace PagedCache

variable (c : PagedCache)

/-- Blocks and page lists agree. -/
structure WF : Prop where
  key : ∀ {rip b}, c.table.lookup rip = some b →
    b.bb.rip = RIPVirtPhys.update rip b.bb.rip.use64 b.bb.rip.df
  short : ∀ {rip b}, c.table.lookup rip = some b → 0 < b.bb.bytes ∧ b.bb.bytes ≤ kPageSize
  listed : ∀ {rip b p}, c.table.lookup rip = some b → b.bb.on p = true →
    ∃ l, c.pages.lookup p = some l ∧ ChunkList.At l.chunks (b.loc p) rip
  cached : ∀ {p l rip}, c.pages.lookup p = some l → rip ∈ l.entries →
    ∃ b, c.table.lookup rip = some b ∧ b.bb.on p = true
  nodup : ∀ {p l}, c.pages.lookup p = some l → l.entries.Nodup
  lists : ∀ {p l}, c.pages.lookup p = some l → l.WF

variable {c}

theorem wf_init : init.WF := by
  have htable : ∀ rip, init.table.lookup rip = none := fun rip => AList.lookup_empty rip
  have hpages : ∀ p, init.pages.lookup p = none := fun p => AList.lookup_empty p
  constructor
  case key =>
    intro rip b h
    rw [htable] at h
    cases h
  case short =>
    intro rip b h
    rw [htable] at h
    cases h
  case listed =>
    intro rip b p h
    rw [htable] at h
    cases h
  case cached =>
    intro p l rip h
    rw [hpages] at h
    cases h
  case nodup =>
    intro p l h
    rw [hpages] at h
    cases h
  case lists =>
    intro p l h
    rw [hpages] at h
    cases h

/-- The lists of a block are those of the pages it touches. -/
theorem on_iff_touches {bb : BasicBlock} {rip : W64} {use64 df : Bool} (hkey : bb.rip = RIPVirtPhys.update rip use64 df)
    (hpos : 0 < bb.bytes) (hshort : bb.bytes ≤ kPageSize) (p : ℕ) : bb.on p = true ↔ bb.Touches p := by
  have hlt := rip.isLt
  have hpage : kPageSize = 4096 := rfl
  have hlo : bb.rip.mfnlo = rip.toNat / kPageSize % 2 ^ 36 := by
    rw [hkey]
    rfl
  have hhi : bb.rip.mfnhi = (rip.toNat + (kPageSize - 1)) % 2 ^ 64 / kPageSize % 2 ^ 36 := by
    rw [hkey]
    rfl
  have hrip : bb.rip.rip = rip := by
    rw [hkey]
    rfl
  have hcross : bb.pageCrossing = true ↔ kPageSize ≤ rip.toNat % kPageSize + (bb.bytes - 1) := by
    rw [BasicBlock.pageCrossing, hrip, bne_iff_ne, hpage]
    omega
  rw [BasicBlock.on, Bool.or_eq_true, Bool.and_eq_true, beq_iff_eq, beq_iff_eq, hcross, hlo, hhi, BasicBlock.Touches,
    hrip]
  constructor
  · rintro (rfl | ⟨hc, rfl⟩)
    · refine ⟨0, hpos, ?_⟩
      rw [Nat.add_zero, Nat.mod_eq_of_lt hlt]
    · refine ⟨bb.bytes - 1, by omega, ?_⟩
      rw [hpage] at hshort hc ⊢
      omega
  · rintro ⟨k, hk, rfl⟩
    rw [hpage] at hshort ⊢
    by_cases hsame : rip.toNat % 4096 + k < 4096
    · left
      omega
    · right
      omega

theorem WF.mfnlo_ne (h : c.WF) {rip : W64} {b : ListedBlock} (hb : c.table.lookup rip = some b)
    (hcross : b.bb.pageCrossing = true) : b.bb.rip.mfnlo ≠ b.bb.rip.mfnhi :=
  BasicBlockCache.mfnlo_ne_mfnhi (h.key hb) (h.short hb).2 hcross

theorem WF.rip_eq (h : c.WF) {rip : W64} {b : ListedBlock} (hb : c.table.lookup rip = some b) :
    b.bb.rip.rip = rip := by
  rw [h.key hb]
  rfl

theorem WF.touches_iff (h : c.WF) {rip : W64} {b : ListedBlock} (hb : c.table.lookup rip = some b) (p : ℕ) :
    b.bb.on p = true ↔ b.bb.Touches p :=
  on_iff_touches (h.key hb) (h.short hb).1 (h.short hb).2 p

theorem on_mfnlo (bb : BasicBlock) : bb.on bb.rip.mfnlo = true := by
  rw [BasicBlock.on, beq_self_eq_true, Bool.true_or]

theorem on_mfnhi {bb : BasicBlock} (hcross : bb.pageCrossing = true) : bb.on bb.rip.mfnhi = true := by
  rw [BasicBlock.on, hcross, beq_self_eq_true, Bool.true_and, Bool.or_true]

theorem on_cases {bb : BasicBlock} {p : ℕ} (hon : bb.on p = true) :
    p = bb.rip.mfnlo ∨ bb.pageCrossing = true ∧ p = bb.rip.mfnhi := by
  rw [BasicBlock.on, Bool.or_eq_true, Bool.and_eq_true, beq_iff_eq, beq_iff_eq] at hon
  exact hon

theorem unlist_eq {mfn : ℕ} {loc : Locator} {l : ChunkList W64} (hl : c.pages.lookup mfn = some l) :
    c.unlist mfn loc = some { c with pages := c.pages.insert mfn (l.remove loc) } := by
  rw [unlist, hl, Option.map_some]

theorem lookup_insert_eq {β : Type} (pages : AList fun _ : ℕ => β) (mfn p : ℕ) (l : β) :
    (pages.insert mfn l).lookup p = if p = mfn then some l else pages.lookup p := by
  by_cases hp : p = mfn
  · rw [if_pos hp, hp, AList.lookup_insert]
  · rw [if_neg hp, AList.lookup_insert_ne hp]

/-! ### Dropping a block -/

/-- `c'` is `c` without block `b`, filed under `rip`. -/
structure Without (c : PagedCache) (rip : W64) (b : ListedBlock) (c' : PagedCache) : Prop where
  table : ∀ r, c'.table.lookup r = if r = rip then none else c.table.lookup r
  pages : ∀ p, c'.pages.lookup p =
    if b.bb.on p = true then (c.pages.lookup p).map fun l => l.remove (b.loc p) else c.pages.lookup p

/-- An unreferenced block goes, and no assertion fails. -/
theorem invalidateBlock_without (h : c.WF) {rip : W64} {b : ListedBlock} (hb : c.table.lookup rip = some b)
    (href : b.refcount = 0) : ∃ c', c.invalidateBlock b = some (true, c') ∧ Without c rip b c' := by
  have hrip := h.rip_eq hb
  obtain ⟨lo, hlo, -⟩ := h.listed hb (on_mfnlo b.bb)
  have hlocLo : b.loc b.bb.rip.mfnlo = b.mfnloLoc := if_pos rfl
  have htable : ∀ r, (c.table.erase rip).lookup r = if r = rip then none else c.table.lookup r := by
    intro r
    by_cases hr : r = rip
    · rw [if_pos hr, hr, AList.lookup_erase]
    · rw [if_neg hr, AList.lookup_erase_ne hr]
  rw [invalidateBlock, if_neg (not_not.2 href), unlist_eq hlo, hrip]
  cases hcross : b.bb.pageCrossing with
  | false =>
    refine ⟨_, rfl, htable, ?_⟩
    intro p
    have hon : b.bb.on p = true ↔ p = b.bb.rip.mfnlo := by
      constructor
      · intro hon
        rcases on_cases hon with hp | ⟨hc, -⟩
        · exact hp
        · rw [hcross] at hc
          cases hc
      · rintro rfl
        exact on_mfnlo b.bb
    dsimp only
    rw [lookup_insert_eq]
    by_cases hp : p = b.bb.rip.mfnlo
    · rw [if_pos hp, if_pos (hon.2 hp), hp, hlo, hlocLo, Option.map_some]
    · rw [if_neg hp, if_neg fun ho => hp (hon.1 ho)]
  | true =>
    have hne := h.mfnlo_ne hb hcross
    obtain ⟨hi, hhi, -⟩ := h.listed hb (on_mfnhi hcross)
    have hlocHi : b.loc b.bb.rip.mfnhi = b.mfnhiLoc := if_neg hne.symm
    have hhi' : (c.pages.insert b.bb.rip.mfnlo (lo.remove b.mfnloLoc)).lookup b.bb.rip.mfnhi = some hi := by
      rw [lookup_insert_eq, if_neg hne.symm, hhi]
    have hsecond := @unlist_eq { c with pages := c.pages.insert b.bb.rip.mfnlo (lo.remove b.mfnloLoc) } _ b.mfnhiLoc _ hhi'
    simp only [if_true, Option.bind_eq_bind, Option.bind_some, hsecond]
    refine ⟨_, rfl, htable, ?_⟩
    intro p
    dsimp only
    rw [lookup_insert_eq, lookup_insert_eq]
    by_cases hpHi : p = b.bb.rip.mfnhi
    · rw [if_pos hpHi, hpHi, if_pos (on_mfnhi hcross), hhi, hlocHi, Option.map_some]
    · rw [if_neg hpHi]
      by_cases hpLo : p = b.bb.rip.mfnlo
      · rw [if_pos hpLo, hpLo, if_pos (on_mfnlo b.bb), hlo, hlocLo, Option.map_some]
      · rw [if_neg hpLo, if_neg]
        intro hon
        rcases on_cases hon with hp | ⟨-, hp⟩
        · exact hpLo hp
        · exact hpHi hp

section Without

variable {c' : PagedCache} {rip : W64} {b : ListedBlock}

theorem Without.old (hw : Without c rip b c') {r : W64} {b' : ListedBlock} (hr : c'.table.lookup r = some b') :
    r ≠ rip ∧ c.table.lookup r = some b' := by
  rw [hw.table] at hr
  by_cases hrr : r = rip
  · rw [if_pos hrr] at hr
    cases hr
  · rw [if_neg hrr] at hr
    exact ⟨hrr, hr⟩

/-- A list has lost the block once, and moved no other. -/
theorem Without.lists (hw : Without c rip b c') (h : c.WF) (hb : c.table.lookup rip = some b) {p : ℕ}
    {l' : ChunkList W64} (hl' : c'.pages.lookup p = some l') :
    ∃ l, c.pages.lookup p = some l ∧ l'.WF ∧
      (b.bb.on p = true ∧ l.entries.Perm (rip :: l'.entries) ∨ b.bb.on p = false ∧ l' = l) ∧
      ∀ {loc r}, r ≠ rip → ChunkList.At l.chunks loc r → ChunkList.At l'.chunks loc r := by
  rw [hw.pages] at hl'
  by_cases hon : b.bb.on p = true
  · rw [if_pos hon] at hl'
    obtain ⟨l, hl, hat⟩ := h.listed hb hon
    rw [hl, Option.map_some, Option.some.injEq] at hl'
    obtain ⟨hwf, hperm, hothers⟩ := ChunkList.remove_spec (h.lists hl) hat
    rw [hl'] at hwf hperm hothers
    exact ⟨l, hl, hwf, .inl ⟨hon, hperm⟩, hothers⟩
  · rw [if_neg hon] at hl'
    exact ⟨l', hl', h.lists hl', .inr ⟨by simpa using hon, rfl⟩, fun _ hat => hat⟩

/-- **Dropping a block** keeps the index. -/
theorem Without.wf (hw : Without c rip b c') (h : c.WF) (hb : c.table.lookup rip = some b) : c'.WF := by
  constructor
  case key =>
    intro r b' hr
    exact h.key (hw.old hr).2
  case short =>
    intro r b' hr
    exact h.short (hw.old hr).2
  case listed =>
    intro r b' p hr hon'
    obtain ⟨hne, hr⟩ := hw.old hr
    obtain ⟨l, hl, hat⟩ := h.listed hr hon'
    have hl' : ∃ l', c'.pages.lookup p = some l' := by
      rw [hw.pages, hl]
      by_cases hon : b.bb.on p = true
      · exact ⟨_, if_pos hon⟩
      · exact ⟨_, if_neg hon⟩
    obtain ⟨l', hl'⟩ := hl'
    obtain ⟨l₀, hl₀, -, -, hothers⟩ := hw.lists h hb hl'
    rw [hl] at hl₀
    obtain rfl := Option.some.inj hl₀
    exact ⟨l', hl', hothers hne hat⟩
  case cached =>
    intro p l' r hl' hr
    obtain ⟨l, hl, -, hcases, -⟩ := hw.lists h hb hl'
    -- what is still listed is another block, and was listed before
    have hmem : r ≠ rip ∧ r ∈ l.entries := by
      rcases hcases with ⟨-, hperm⟩ | ⟨hoff, rfl⟩
      · have hnodup := hperm.nodup_iff.1 (h.nodup hl)
        refine ⟨?_, hperm.mem_iff.2 (List.mem_cons_of_mem rip hr)⟩
        rintro rfl
        exact (List.nodup_cons.1 hnodup).1 hr
      · refine ⟨?_, hr⟩
        rintro rfl
        obtain ⟨b', hb', hon'⟩ := h.cached hl hr
        rw [hb] at hb'
        obtain rfl := Option.some.inj hb'
        rw [hoff] at hon'
        cases hon'
    obtain ⟨b', hb', hon'⟩ := h.cached hl hmem.2
    refine ⟨b', ?_, hon'⟩
    rw [hw.table, if_neg hmem.1, hb']
  case nodup =>
    intro p l' hl'
    obtain ⟨l, hl, -, hcases, -⟩ := hw.lists h hb hl'
    rcases hcases with ⟨-, hperm⟩ | ⟨-, rfl⟩
    · exact (List.nodup_cons.1 (hperm.nodup_iff.1 (h.nodup hl))).2
    · exact h.nodup hl
  case lists =>
    intro p l' hl'
    exact (hw.lists h hb hl').choose_spec.2.1

end Without

/-! ### Page invalidation -/

/-- What an invalidation of page `mfn` does: it drops unreferenced blocks of that page only, all
of them when it succeeds, and it fails only on a referenced one. -/
structure Dropped (c : PagedCache) (mfn : ℕ) (r : Bool × PagedCache) : Prop where
  wf : r.2.WF
  sub : ∀ {rip b}, r.2.table.lookup rip = some b → c.table.lookup rip = some b
  kept : ∀ {rip b}, c.table.lookup rip = some b → b.bb.on mfn = false ∨ b.refcount ≠ 0 →
    r.2.table.lookup rip = some b
  off : r.1 = true → ∀ {rip b}, r.2.table.lookup rip = some b → b.bb.on mfn = false
  held : r.1 = false → ∃ rip b, c.table.lookup rip = some b ∧ b.bb.on mfn = true ∧ b.refcount ≠ 0

/-- Where the list of a page is empty or missing, no block is on the page. -/
theorem WF.off_of_nil (h : c.WF) {mfn : ℕ} (hnil : ∀ l, c.pages.lookup mfn = some l → l.entries = []) {rip : W64}
    {b : ListedBlock} (hb : c.table.lookup rip = some b) : b.bb.on mfn = false := by
  by_contra hon
  obtain ⟨l, hl, hat⟩ := h.listed hb (by simpa using hon)
  have hmem := ChunkList.mem_entries_of_at hat
  rw [hnil l hl] at hmem
  cases hmem

theorem dropped_of_nil (h : c.WF) {mfn : ℕ} (hnil : ∀ l, c.pages.lookup mfn = some l → l.entries = []) :
    Dropped c mfn (true, c) :=
  ⟨h, id, fun hb _ => hb, fun _ _ _ hb => h.off_of_nil hnil hb, nofun⟩

theorem invalidateBlock_held {b : ListedBlock} (href : b.refcount ≠ 0) : c.invalidateBlock b = some (false, c) := by
  rw [invalidateBlock, if_pos href]

/-- Dropping one block of the page first. -/
theorem Without.dropped {c' : PagedCache} {rip : W64} {b : ListedBlock} {mfn : ℕ} {r : Bool × PagedCache}
    (hw : Without c rip b c') (hb : c.table.lookup rip = some b) (hon : b.bb.on mfn = true) (href : b.refcount = 0)
    (hd : Dropped c' mfn r) : Dropped c mfn r := by
  refine ⟨hd.wf, fun hr => (hw.old (hd.sub hr)).2, ?_, hd.off, ?_⟩
  · intro rip' b' hr hspared
    apply hd.kept _ hspared
    have hne : rip' ≠ rip := by
      rintro rfl
      rw [hb] at hr
      obtain rfl := Option.some.inj hr
      rcases hspared with hoff | hheld
      · rw [hon] at hoff
        cases hoff
      · exact hheld href
    rw [hw.table, if_neg hne, hr]
  · intro hfalse
    obtain ⟨rip', b', hr, hrest⟩ := hd.held hfalse
    exact ⟨rip', b', (hw.old hr).2, hrest⟩

theorem invalidatePageLoop_dropped {mfn : ℕ} (fuel : ℕ) {c : PagedCache} {l : ChunkList W64} (h : c.WF)
    (hl : c.pages.lookup mfn = some l) (hfuel : l.elemcount < fuel) :
    ∃ r, invalidatePageLoop mfn fuel c = some r ∧ Dropped c mfn r := by
  induction fuel generalizing c l with
  | zero => exact absurd hfuel (Nat.not_lt_zero _)
  | succ fuel ih =>
    have hcount := (h.lists hl).elemcount
    simp only [invalidatePageLoop, hl, Option.bind_eq_bind, Option.bind_some]
    by_cases hzero : l.elemcount = 0
    · have hchunks := (h.lists hl).chunks_nil hzero
      have hnil : ∀ l', c.pages.lookup mfn = some l' → l'.entries = [] := by
        intro l' hl'
        rw [hl] at hl'
        obtain rfl := Option.some.inj hl'
        exact List.length_eq_zero_iff.1 (hcount.symm.trans hzero)
      rw [if_pos hzero, hchunks]
      exact ⟨_, rfl, dropped_of_nil h hnil⟩
    · rw [if_neg hzero]
      obtain ⟨rip, rest, hentries⟩ : ∃ rip rest, l.entries = rip :: rest := by
        apply List.exists_cons_of_ne_nil
        intro hnil
        rw [hnil] at hcount
        exact hzero hcount
      obtain ⟨b, hb, hon⟩ := h.cached hl (hentries ▸ List.mem_cons_self)
      rw [hentries, List.head?_cons, Option.bind_some, hb, Option.bind_some]
      by_cases href : b.refcount = 0
      · obtain ⟨c', hinv, hw⟩ := invalidateBlock_without h hb href
        have hl' : c'.pages.lookup mfn = some (l.remove (b.loc mfn)) := by
          rw [hw.pages, if_pos hon, hl, Option.map_some]
        have hfuel' : (l.remove (b.loc mfn)).elemcount < fuel := by
          have hless : (l.remove (b.loc mfn)).elemcount = l.elemcount - 1 := rfl
          omega
        obtain ⟨r, hr, hd⟩ := ih (hw.wf h hb) hl' hfuel'
        refine ⟨r, ?_, hw.dropped hb hon href hd⟩
        rw [hinv, Option.bind_some, if_pos rfl, hr]
      · refine ⟨(false, c), ?_, h, id, fun hr _ => hr, nofun, fun _ => ⟨rip, b, hb, hon, href⟩⟩
        rw [invalidateBlock_held href, Option.bind_some, if_neg Bool.false_ne_true]

/-- **Page invalidation**: the mark goes whether or not the blocks do. -/
theorem invalidatePage_spec (h : c.WF) (m : AddressSpace) {mfn : ℕ} (hmfn : mfn ≠ mfnInvalid) :
    ∃ r, Dropped c mfn r ∧ c.invalidatePage m mfn = some (r.1, m.cleardirty mfn, r.2) := by
  rw [invalidatePage, if_neg hmfn]
  dsimp only
  cases hl : c.pages.lookup mfn with
  | none =>
    refine ⟨(true, c), dropped_of_nil h ?_, rfl⟩
    intro l hl'
    rw [hl] at hl'
    cases hl'
  | some l =>
    obtain ⟨r, hr, hd⟩ := invalidatePageLoop_dropped (l.elemcount + 1) h hl (Nat.lt_succ_self _)
    refine ⟨r, hd, ?_⟩
    dsimp only
    rw [hr, Option.map_some]

theorem invalidatePage_invalid (m : AddressSpace) : c.invalidatePage m mfnInvalid = some (false, m, c) := by
  rw [invalidatePage, if_pos rfl]

/-! ### Insertion -/

theorem list_pages (mfn : ℕ) (rip : W64) (p : ℕ) :
    (c.list mfn rip).1.pages.lookup p =
      if p = mfn then some (((c.pages.lookup mfn).getD .nil).add BB_PTRS_PER_CHUNK rip).1 else c.pages.lookup p :=
  lookup_insert_eq c.pages mfn p _

/-- `c'` is `c` with block `b` filed under `rip`. -/
structure With (c : PagedCache) (rip : W64) (b : ListedBlock) (c' : PagedCache) : Prop where
  table : ∀ r, c'.table.lookup r = if r = rip then some b else c.table.lookup r
  pages : ∀ p, c'.pages.lookup p = if b.bb.on p = true then
    some (((c.pages.lookup p).getD .nil).add BB_PTRS_PER_CHUNK rip).1 else c.pages.lookup p
  loc : ∀ p, b.bb.on p = true → b.loc p = (((c.pages.lookup p).getD .nil).add BB_PTRS_PER_CHUNK rip).2

theorem insert_with {bb : BasicBlock} (m : AddressSpace) (hne : bb.pageCrossing = true → bb.rip.mfnlo ≠ bb.rip.mfnhi) :
    ∃ lo hi, With c bb.rip.rip ⟨bb, 0, 0, lo, hi⟩ (c.insert m bb).2 := by
  have htable : ∀ (b : ListedBlock) r, (c.table.insert bb.rip.rip b).lookup r =
      if r = bb.rip.rip then some b else c.table.lookup r := by
    intro b r
    by_cases hr : r = bb.rip.rip
    · rw [if_pos hr, hr, AList.lookup_insert]
    · rw [if_neg hr, AList.lookup_insert_ne hr]
  rw [insert]
  cases hcross : bb.pageCrossing with
  | false =>
    have hon : ∀ p, bb.on p = true ↔ p = bb.rip.mfnlo := by
      intro p
      constructor
      · intro hon
        rcases on_cases hon with hp | ⟨hc, -⟩
        · exact hp
        · rw [hcross] at hc
          cases hc
      · rintro rfl
        exact on_mfnlo bb
    refine ⟨_, _, htable _, ?_, ?_⟩
    · intro p
      have hpages := @list_pages c bb.rip.mfnlo bb.rip.rip p
      refine hpages.trans ?_
      by_cases hp : p = bb.rip.mfnlo
      · rw [if_pos hp, if_pos ((hon p).2 hp), hp]
      · rw [if_neg hp, if_neg fun ho => hp ((hon p).1 ho)]
    · intro p hp
      rw [(hon p).1 hp]
      exact if_pos rfl
  | true =>
    have hne := hne hcross
    refine ⟨_, _, htable _, ?_, ?_⟩
    · intro p
      -- the lists of two pages are two entries of the table: the second call leaves the first
      have hpages := @list_pages (c.list bb.rip.mfnlo bb.rip.rip).1 bb.rip.mfnhi bb.rip.rip p
      refine hpages.trans ?_
      rw [list_pages, list_pages, if_neg hne.symm]
      by_cases hpHi : p = bb.rip.mfnhi
      · rw [if_pos hpHi, hpHi, if_pos (on_mfnhi hcross)]
      · rw [if_neg hpHi]
        by_cases hpLo : p = bb.rip.mfnlo
        · rw [if_pos hpLo, hpLo, if_pos (on_mfnlo bb)]
        · rw [if_neg hpLo, if_neg]
          intro hon
          rcases on_cases hon with hp | ⟨-, hp⟩
          · exact hpLo hp
          · exact hpHi hp
    · intro p hp
      rcases on_cases hp with rfl | ⟨-, rfl⟩
      · exact if_pos rfl
      · refine (if_neg hne.symm).trans ?_
        dsimp only
        rw [list, list_pages, if_neg hne.symm]

section With

variable {c' : PagedCache} {rip : W64} {b : ListedBlock}

theorem With.cases (hw : With c rip b c') {r : W64} {b' : ListedBlock} (hr : c'.table.lookup r = some b') :
    r = rip ∧ b' = b ∨ r ≠ rip ∧ c.table.lookup r = some b' := by
  rw [hw.table] at hr
  by_cases hrr : r = rip
  · rw [if_pos hrr, Option.some.injEq] at hr
    exact .inl ⟨hrr, hr.symm⟩
  · rw [if_neg hrr] at hr
    exact .inr ⟨hrr, hr⟩

/-- The list the block is added to, made where there is none. -/
theorem WF.getD (h : c.WF) (p : ℕ) : ((c.pages.lookup p).getD .nil).WF ∧
    (∀ r, r ∈ ((c.pages.lookup p).getD .nil).entries → ∃ l, c.pages.lookup p = some l ∧ r ∈ l.entries) ∧
      ((c.pages.lookup p).getD .nil).entries.Nodup := by
  cases hl : c.pages.lookup p with
  | none => exact ⟨ChunkList.wf_nil, nofun, List.nodup_nil⟩
  | some l => exact ⟨h.lists hl, fun r hr => ⟨l, rfl, hr⟩, h.nodup hl⟩

theorem slots_ne_zero : BB_PTRS_PER_CHUNK ≠ 0 := by decide

/-- **Inserting a block** keeps the index. -/
theorem With.wf (hw : With c rip b c') (h : c.WF) (hmiss : c.table.lookup rip = none)
    (hkey : b.bb.rip = RIPVirtPhys.update rip b.bb.rip.use64 b.bb.rip.df)
    (hshort : 0 < b.bb.bytes ∧ b.bb.bytes ≤ kPageSize) : c'.WF := by
  -- every list names cached blocks only, and the new block was not one of them
  have hnew : ∀ {p l}, c.pages.lookup p = some l → rip ∉ l.entries := by
    intro p l hl hmem
    obtain ⟨b', hb', -⟩ := h.cached hl hmem
    rw [hmiss] at hb'
    cases hb'
  constructor
  case key =>
    intro r b' hr
    rcases hw.cases hr with ⟨rfl, rfl⟩ | ⟨-, hr⟩
    · exact hkey
    · exact h.key hr
  case short =>
    intro r b' hr
    rcases hw.cases hr with ⟨rfl, rfl⟩ | ⟨-, hr⟩
    · exact hshort
    · exact h.short hr
  case listed =>
    intro r b' p hr hon'
    rcases hw.cases hr with ⟨rfl, rfl⟩ | ⟨-, hr⟩
    · obtain ⟨-, -, hat, -⟩ := ChunkList.add_spec slots_ne_zero (h.getD p).1 r
      refine ⟨_, (hw.pages p).trans (if_pos hon'), ?_⟩
      rw [hw.loc p hon']
      exact hat
    · obtain ⟨l, hl, hat⟩ := h.listed hr hon'
      -- an older block keeps its slot: adding an entry moves no other one
      by_cases hon : b.bb.on p = true
      · obtain ⟨-, -, -, hothers⟩ := ChunkList.add_spec slots_ne_zero (h.getD p).1 rip
        refine ⟨_, (hw.pages p).trans (if_pos hon), hothers ?_⟩
        rw [hl]
        exact hat
      · exact ⟨l, (hw.pages p).trans ((if_neg hon).trans hl), hat⟩
  case cached =>
    intro p l' r hl' hr
    rw [hw.pages] at hl'
    -- what a list names is the new block, on its own pages, or was named before
    have hfrom : r = rip ∧ b.bb.on p = true ∨ ∃ l, c.pages.lookup p = some l ∧ r ∈ l.entries := by
      by_cases hon : b.bb.on p = true
      · rw [if_pos hon, Option.some.injEq] at hl'
        obtain ⟨-, hperm, -, -⟩ := ChunkList.add_spec slots_ne_zero (h.getD p).1 rip
        rw [hl'] at hperm
        rcases List.mem_cons.1 (hperm.mem_iff.1 hr) with hr | hr
        · exact .inl ⟨hr, hon⟩
        · exact .inr ((h.getD p).2.1 r hr)
      · rw [if_neg hon] at hl'
        exact .inr ⟨l', hl', hr⟩
    rcases hfrom with ⟨rfl, hon⟩ | ⟨l, hl, hmem⟩
    · exact ⟨b, (hw.table r).trans (if_pos rfl), hon⟩
    · obtain ⟨b', hb', hon'⟩ := h.cached hl hmem
      have hne : r ≠ rip := by
        rintro rfl
        exact hnew hl hmem
      exact ⟨b', (hw.table r).trans ((if_neg hne).trans hb'), hon'⟩
  case nodup =>
    intro p l' hl'
    rw [hw.pages] at hl'
    by_cases hon : b.bb.on p = true
    · rw [if_pos hon, Option.some.injEq] at hl'
      obtain ⟨-, hperm, -, -⟩ := ChunkList.add_spec slots_ne_zero (h.getD p).1 rip
      rw [← hl']
      refine hperm.nodup_iff.2 (List.nodup_cons.2 ⟨?_, (h.getD p).2.2⟩)
      intro hmem
      obtain ⟨l, hl, hmem⟩ := (h.getD p).2.1 rip hmem
      exact hnew hl hmem
    · rw [if_neg hon] at hl'
      exact h.nodup hl'
  case lists =>
    intro p l' hl'
    rw [hw.pages] at hl'
    by_cases hon : b.bb.on p = true
    · rw [if_pos hon, Option.some.injEq] at hl'
      rw [← hl']
      exact (ChunkList.add_spec slots_ne_zero (h.getD p).1 rip).1
    · rw [if_neg hon] at hl'
      exact h.lists hl'

end With

/-! ### References and ages -/

theorem modify_table (rip : W64) (f : ListedBlock → ListedBlock) (r : W64) :
    (c.modify rip f).table.lookup r = if r = rip then (c.table.lookup r).map f else c.table.lookup r := by
  rw [modify]
  cases hb : c.table.lookup rip with
  | none =>
    by_cases hr : r = rip
    · rw [if_pos hr, hr, hb]
      rfl
    · rw [if_neg hr]
  | some b =>
    dsimp only
    by_cases hr : r = rip
    · rw [if_pos hr, hr, AList.lookup_insert, hb, Option.map_some]
    · rw [if_neg hr, AList.lookup_insert_ne hr]

theorem modify_pages (rip : W64) (f : ListedBlock → ListedBlock) : (c.modify rip f).pages = c.pages := by
  rw [modify]
  cases c.table.lookup rip with
  | none => rfl
  | some b => rfl

/-- References and ages are no part of the index. -/
theorem WF.modify (h : c.WF) (rip : W64) {f : ListedBlock → ListedBlock}
    (hf : ∀ b, (f b).bb = b.bb ∧ (f b).mfnloLoc = b.mfnloLoc ∧ (f b).mfnhiLoc = b.mfnhiLoc) : (c.modify rip f).WF := by
  have hold : ∀ {r b'}, (c.modify rip f).table.lookup r = some b' →
      ∃ b, c.table.lookup r = some b ∧ b'.bb = b.bb ∧ ∀ p, b'.loc p = b.loc p := by
    intro r b' hr
    rw [modify_table] at hr
    by_cases hrr : r = rip
    · rw [if_pos hrr] at hr
      obtain ⟨b, hb, rfl⟩ := Option.map_eq_some_iff.1 hr
      refine ⟨b, hb, (hf b).1, ?_⟩
      intro p
      rw [ListedBlock.loc, ListedBlock.loc, (hf b).1, (hf b).2.1, (hf b).2.2]
    · rw [if_neg hrr] at hr
      exact ⟨b', hr, rfl, fun _ => rfl⟩
  constructor
  case key =>
    intro r b' hr
    obtain ⟨b, hb, heq, -⟩ := hold hr
    rw [heq]
    exact h.key hb
  case short =>
    intro r b' hr
    obtain ⟨b, hb, heq, -⟩ := hold hr
    rw [heq]
    exact h.short hb
  case listed =>
    intro r b' p hr hon
    obtain ⟨b, hb, heq, hloc⟩ := hold hr
    rw [heq] at hon
    rw [modify_pages, hloc]
    exact h.listed hb hon
  case cached =>
    intro p l r hl hr
    rw [modify_pages] at hl
    obtain ⟨b, hb, hon⟩ := h.cached hl hr
    rw [modify_table]
    by_cases hrr : r = rip
    · refine ⟨f b, ?_, ?_⟩
      · rw [if_pos hrr, hb, Option.map_some]
      · rw [(hf b).1]
        exact hon
    · exact ⟨b, (if_neg hrr).trans hb, hon⟩
  case nodup =>
    intro p l hl
    rw [modify_pages] at hl
    exact h.nodup hl
  case lists =>
    intro p l hl
    rw [modify_pages] at hl
    exact h.lists hl

/-! ### Going through the blocks -/

theorem WF.of_mem_blocks (h : c.WF) {b : ListedBlock} (hb : b ∈ c.blocks) : c.table.lookup b.bb.rip.rip = some b := by
  obtain ⟨⟨rip, b⟩, hmem, rfl⟩ := List.mem_map.1 hb
  have hlookup : c.table.lookup rip = some b := AList.mem_lookup_iff.2 hmem
  rw [h.rip_eq hlookup]
  exact hlookup

theorem WF.nodup_blocks (h : c.WF) : (c.blocks.map fun b => b.bb.rip.rip).Nodup := by
  have hkeys : c.blocks.map (fun b => b.bb.rip.rip) = c.table.keys := by
    rw [blocks, List.map_map]
    apply List.map_congr_left
    rintro ⟨rip, b⟩ hmem
    exact h.rip_eq (AList.mem_lookup_iff.2 hmem)
  rw [hkeys]
  exact AList.keys_nodup c.table

/-- A turn of a loop over the blocks: `b` stays, or it goes. -/
def Turn (step : PagedCache → ListedBlock → Option PagedCache) : Prop :=
  ∀ c b, c.WF → c.table.lookup b.bb.rip.rip = some b →
    ∃ c', step c b = some c' ∧ (c' = c ∨ Without c b.bb.rip.rip b c')

theorem Turn.foldlM {step : PagedCache → ListedBlock → Option PagedCache} (hstep : Turn step) (bs : List ListedBlock)
    {c : PagedCache} (h : c.WF) (hbs : ∀ b ∈ bs, c.table.lookup b.bb.rip.rip = some b)
    (hnodup : (bs.map fun b => b.bb.rip.rip).Nodup) : ∃ c', bs.foldlM step c = some c' ∧ c'.WF ∧
      ∀ {rip b}, c'.table.lookup rip = some b → c.table.lookup rip = some b := by
  induction bs generalizing c with
  | nil => exact ⟨c, rfl, h, id⟩
  | cons b bs ih =>
    obtain ⟨hnot, hnodup⟩ := List.nodup_cons.1 hnodup
    have hb := hbs b List.mem_cons_self
    obtain ⟨c', hone, hcases⟩ := hstep c b h hb
    have hwf : c'.WF := by
      rcases hcases with rfl | hw
      · exact h
      · exact hw.wf h hb
    -- the blocks still to come have not changed
    have hrest : ∀ b' ∈ bs, c'.table.lookup b'.bb.rip.rip = some b' := by
      intro b' hb'
      have hold := hbs b' (List.mem_cons_of_mem b hb')
      rcases hcases with rfl | hw
      · exact hold
      · have hne : b'.bb.rip.rip ≠ b.bb.rip.rip := by
          intro heq
          exact hnot (List.mem_map.2 ⟨b', hb', heq⟩)
        rw [hw.table, if_neg hne]
        exact hold
    have hsub : ∀ {rip b₀}, c'.table.lookup rip = some b₀ → c.table.lookup rip = some b₀ := by
      intro rip b₀ hb₀
      rcases hcases with rfl | hw
      · exact hb₀
      · exact (hw.old hb₀).2
    obtain ⟨c'', hfold, hwf', hsub'⟩ := ih hwf hrest hnodup
    refine ⟨c'', ?_, hwf', fun hr => hsub (hsub' hr)⟩
    rw [List.foldlM_cons, hone]
    exact hfold

theorem turn_invalidateBlock : Turn fun c b => (c.invalidateBlock b).map Prod.snd := by
  intro c b h hb
  by_cases href : b.refcount = 0
  · obtain ⟨c', hinv, hw⟩ := invalidateBlock_without h hb href
    refine ⟨c', ?_, .inr hw⟩
    dsimp only
    rw [hinv, Option.map_some]
  · refine ⟨c, ?_, .inl rfl⟩
    dsimp only
    rw [invalidateBlock_held href, Option.map_some]

theorem turn_reclaim (average : ℕ) : Turn fun c b =>
    if b.refcount ≠ 0 then some c
    else if b.lastused.toNat ≤ average then (c.invalidateBlock b).map Prod.snd
    else some c := by
  intro c b h hb
  by_cases href : b.refcount ≠ 0
  · exact ⟨c, if_pos href, .inl rfl⟩
  · by_cases hold : b.lastused.toNat ≤ average
    · obtain ⟨c', hone, hcases⟩ := turn_invalidateBlock c b h hb
      exact ⟨c', (if_neg href).trans ((if_pos hold).trans hone), hcases⟩
    · exact ⟨c, (if_neg href).trans (if_neg hold), .inl rfl⟩

/-- Dropping empty lists keeps those with entries. -/
theorem freeEmpty_lookup (keys : List ℕ) (pages : AList fun _ : ℕ => ChunkList W64) (p : ℕ) (l : ChunkList W64) :
    let pages' := keys.foldl (fun pages mfn =>
      match pages.lookup mfn with
      | none => pages
      | some pagelist => if pagelist.elemcount = 0 then pages.erase mfn else pages) pages
    (pages'.lookup p = some l → pages.lookup p = some l) ∧
      (pages.lookup p = some l → l.elemcount ≠ 0 → pages'.lookup p = some l) := by
  induction keys generalizing pages with
  | nil => exact ⟨id, fun hl _ => hl⟩
  | cons mfn keys ih =>
    dsimp only at ih ⊢
    rw [List.foldl_cons]
    cases hmfn : pages.lookup mfn with
    | none => exact ih pages
    | some pagelist =>
      dsimp only
      by_cases hempty : pagelist.elemcount = 0
      · rw [if_pos hempty]
        obtain ⟨hsub, hkeep⟩ := ih (pages.erase mfn)
        constructor
        · intro hl
          have hl' := hsub hl
          have hne : p ≠ mfn := by
            rintro rfl
            rw [AList.lookup_erase] at hl'
            cases hl'
          rw [AList.lookup_erase_ne hne] at hl'
          exact hl'
        · intro hl hcount
          have hne : p ≠ mfn := by
            rintro rfl
            rw [hmfn] at hl
            obtain rfl := Option.some.inj hl
            exact hcount hempty
          apply hkeep _ hcount
          rw [AList.lookup_erase_ne hne]
          exact hl
      · rw [if_neg hempty]
        exact ih pages

theorem WF.freeEmpty (h : c.WF) : c.freeEmpty.WF := by
  have hlookup := fun p l => freeEmpty_lookup c.pages.keys c.pages p l
  refine ⟨h.key, h.short, ?_, ?_, ?_, ?_⟩
  · intro rip b p hb hon
    obtain ⟨l, hl, hat⟩ := h.listed hb hon
    have hcount : l.elemcount ≠ 0 := by
      rw [(h.lists hl).elemcount]
      exact (List.length_pos_of_mem (ChunkList.mem_entries_of_at hat)).ne'
    exact ⟨l, (hlookup p l).2 hl hcount, hat⟩
  · intro p l rip hl hmem
    exact h.cached ((hlookup p l).1 hl) hmem
  · intro p l hl
    exact h.nodup ((hlookup p l).1 hl)
  · intro p l hl
    exact h.lists ((hlookup p l).1 hl)

/-- **Reclaiming** never fails. -/
theorem reclaim_spec (h : c.WF) (urgency : ℕ) : ∃ n c', c.reclaim urgency = some (n, c') ∧ c'.WF ∧
    ∀ {rip b}, c'.table.lookup rip = some b → c.table.lookup rip = some b := by
  rw [reclaim]
  by_cases hnil : c.blocks = []
  · exact ⟨0, c, if_pos hnil, h, id⟩
  · obtain ⟨c', hloop, hwf, hsub⟩ :=
      (turn_reclaim (c.average urgency)).foldlM c.blocks h (fun b hb => h.of_mem_blocks hb) h.nodup_blocks
    refine ⟨c.blocks.countP fun b => b.refcount = 0, c'.freeEmpty, ?_, hwf.freeEmpty, hsub⟩
    rw [if_neg hnil, reclaimLoop, hloop, Option.map_some]

/-- A flush that does not fail leaves nothing. -/
theorem flush_spec (h : c.WF) {c' : PagedCache} (hflush : c.flush = some c') :
    c'.WF ∧ ∀ {rip b}, c'.table.lookup rip ≠ some b := by
  obtain ⟨c₁, hloop, hwf, -⟩ :=
    turn_invalidateBlock.foldlM c.blocks h (fun b hb => h.of_mem_blocks hb) h.nodup_blocks
  simp only [flush, hloop, Option.bind_eq_bind, Option.bind_some] at hflush
  split at hflush
  · rename_i hall
    obtain rfl := Option.some.inj hflush
    have hempty : ∀ {p l}, c₁.pages.lookup p = some l → l.entries = [] := by
      intro p l hl
      have hzero := List.all_eq_true.1 hall ⟨p, l⟩ (AList.mem_lookup_iff.1 hl)
      apply List.length_eq_zero_iff.1
      rw [← (hwf.lists hl).elemcount]
      simpa using hzero
    -- a block left over would be in a list
    have hnone : ∀ {rip b}, c₁.table.lookup rip ≠ some b := by
      intro rip b hb
      obtain ⟨l, hl, hat⟩ := hwf.listed hb (on_mfnlo b.bb)
      have hmem := ChunkList.mem_entries_of_at hat
      rw [hempty hl] at hmem
      cases hmem
    have hpages : ∀ {p} {l : ChunkList W64}, (∅ : AList fun _ : ℕ => ChunkList W64).lookup p ≠ some l := by
      intro p l hl
      rw [AList.lookup_empty] at hl
      cases hl
    exact ⟨⟨fun hb => absurd hb hnone, fun hb => absurd hb hnone, fun hb => absurd hb hnone,
      fun hl => absurd hl hpages, fun hl => absurd hl hpages, fun hl => absurd hl hpages⟩, hnone⟩
  · cases hflush

end PagedCache

end X86Sim
