import X86Sim.Mem.AddressSpace
import X86Sim.Lib.DirtyCache

/-!
# The basic block cache (`decode-core.cpp`)

Decoded blocks keyed by `rip`, and for each page number the list of blocks that
lie on it. The decoder is a parameter: a function of the key and of what the
fetch delivers.

* `invalidatePage_spec`: a successful page invalidation leaves no block on the
  page; a failed one leaves a referenced block there. Both clear the dirty bit.
* `translate_spec`: what `translate` does to the cache and the dirty bits.
-/

namespace X86Sim

/-- `RIPVirtPhys`: the key of a block, with the page numbers of its first byte
and of the byte a page further. -/
structure RIPVirtPhys where
  rip : W64
  mfnlo : ℕ
  mfnhi : ℕ
  use64 : Bool
  df : Bool
  deriving DecidableEq

/-- `RIPVirtPhys::INVALID`. -/
def mfnInvalid : ℕ := 0xfffffffff

/-- `RIPVirtPhys::update` with its default of a page; page numbers are kept in 36 bits. -/
def RIPVirtPhys.update (rip : W64) (use64 df : Bool) : RIPVirtPhys where
  rip := rip
  mfnlo := rip.toNat / kPageSize % 2 ^ 36
  mfnhi := (rip.toNat + (kPageSize - 1)) % 2 ^ 64 / kPageSize % 2 ^ 36
  use64 := use64
  df := df

/-- `BasicBlock`. `bytes` is the length of its x86 code; an `invalidblock` calls the assist of
an invalid opcode or a fetch fault. -/
structure BasicBlock where
  rip : RIPVirtPhys
  ripTaken : W64
  ripNotTaken : W64
  bytes : ℕ
  userInsnCount : ℕ
  transops : List TransOp
  invalidblock : Bool := false
  deriving DecidableEq

namespace BasicBlock

/-- `page_crossing`: the code reaches into the next page. -/
def pageCrossing (bb : BasicBlock) : Bool := (bb.rip.rip.toNat % kPageSize + (bb.bytes - 1)) / kPageSize != 0

/-- The block is in the list of page `mfn`. -/
def on (bb : BasicBlock) (mfn : ℕ) : Bool :=
  mfn == bb.rip.mfnlo || (bb.pageCrossing && mfn == bb.rip.mfnhi)

end BasicBlock

/-- `MAX_BB_BYTES`, the size of the instruction buffer. -/
def MAX_BB_BYTES : ℕ := 127

/-- The x86 decoder. A block carries the key it was decoded under and is shorter
than a page. -/
structure Decoder where
  decode : RIPVirtPhys → AddressSpace.FetchWindow → BasicBlock
  rip_decode : ∀ rvp w, (decode rvp w).rip = rvp
  bytes_decode : ∀ rvp w, (decode rvp w).bytes ≤ kPageSize

/-- The block a decode of `rvp` gives on the bytes and permissions of `m`. -/
def Decoder.decodeAt (dec : Decoder) (m : AddressSpace) (rvp : RIPVirtPhys) : BasicBlock :=
  dec.decode rvp (m.copyFromUser rvp.rip.toNat MAX_BB_BYTES true)

/-- A block in the cache, with its reference count. -/
structure CachedBlock where
  bb : BasicBlock
  refcount : ℕ
  deriving DecidableEq

/-- `BasicBlockCache`. -/
structure BasicBlockCache where
  blocks : W64 → Option CachedBlock
  pages : ℕ → Option (List W64)

namespace BasicBlockCache

variable (c : BasicBlockCache)

def init : BasicBlockCache := ⟨fun _ => none, fun _ => none⟩

/-- `get`: the hash compares `rip` only. -/
def get (rvp : RIPVirtPhys) : Option CachedBlock := c.blocks rvp.rip

/-- `pagelist->remove`. -/
def removeFromPage (mfn : ℕ) (rip : W64) : BasicBlockCache :=
  { c with pages := Function.update c.pages mfn ((c.pages mfn).map (·.erase rip)) }

/-- `pagelist->add`, after the list is made if the page has none. -/
def addToPage (mfn : ℕ) (rip : W64) : BasicBlockCache :=
  { c with pages := Function.update c.pages mfn (some ((c.pages mfn).getD [] ++ [rip])) }

/-- `invalidate(bb)`: refused while the block is referenced. -/
def invalidateBlock (b : CachedBlock) : Bool × BasicBlockCache :=
  if b.refcount ≠ 0 then (false, c)
  else
    let rip := b.bb.rip.rip
    let c := c.removeFromPage b.bb.rip.mfnlo rip
    let c := if b.bb.pageCrossing then c.removeFromPage b.bb.rip.mfnhi rip else c
    (true, { c with blocks := Function.update c.blocks rip none })

/-- `invalidate(rvp)`. -/
def invalidate (rvp : RIPVirtPhys) : Bool × BasicBlockCache :=
  match c.get rvp with
  | none => (true, c)
  | some b => c.invalidateBlock b

/-- The loop of `invalidate_page`: invalidate the head of the list until the list
is empty or a block refuses. -/
def invalidatePageLoop : ℕ → BasicBlockCache → ℕ → Bool × BasicBlockCache
  | 0, c, _ => (true, c)
  | fuel + 1, c, mfn =>
    match c.pages mfn with
    | none => (true, c)
    | some [] => (true, c)
    | some (rip :: _) =>
      match c.blocks rip with
      | none => (true, c)
      | some b =>
        match c.invalidateBlock b with
        | (false, c) => (false, c)
        | (true, c) => invalidatePageLoop fuel c mfn

/-- `invalidate_page`. The dirty bit is cleared before any block is. -/
def invalidatePage (m : AddressSpace) (mfn : ℕ) : Bool × AddressSpace × BasicBlockCache :=
  if mfn = mfnInvalid then (false, m, c)
  else
    let m := m.cleardirty mfn
    match c.pages mfn with
    | none => (true, m, c)
    | some l =>
      let r := invalidatePageLoop l.length c mfn
      (r.1, m, r.2)

/-- The page numbers `invalidate_decoded_code` goes through. -/
def mfnsOf (start size : ℕ) : List ℕ :=
  let firstMfn := pageFloor start / kPageSize
  let lastMfn := (start + (size - 1)) % 2 ^ 64 / kPageSize
  List.range' firstMfn (lastMfn + 1 - firstMfn)

/-- `invalidate_decoded_code`. It goes on when a page fails. -/
def invalidateDecodedCode (m : AddressSpace) (start size : ℕ) : AddressSpace × BasicBlockCache :=
  if !m.machine || size == 0 then (m, c)
  else
    (mfnsOf start size).foldl (fun mc mfn => (mc.2.invalidatePage mc.1 mfn).2) (m, c)

/-- The insertion at the end of `translate`. -/
def insert (m : AddressSpace) (bb : BasicBlock) : AddressSpace × BasicBlockCache :=
  let c := { c with blocks := Function.update c.blocks bb.rip.rip (some ⟨bb, 0⟩) }
  let m := m.cleardirty bb.rip.mfnlo
  let c := c.addToPage bb.rip.mfnlo bb.rip.rip
  if bb.pageCrossing then (m.cleardirty bb.rip.mfnhi, c.addToPage bb.rip.mfnhi bb.rip.rip)
  else (m, c)

/-- The pre-invalidation of one page of `translate`; false when it fails. -/
def preInvalidate (m : AddressSpace) (mfn : ℕ) : Bool × AddressSpace × BasicBlockCache :=
  if m.isdirty mfn then c.invalidatePage m mfn else (true, m, c)

/-- `translate`. -/
def translate (dec : Decoder) (m : AddressSpace) (rvp : RIPVirtPhys) :
    Option BasicBlock × AddressSpace × BasicBlockCache :=
  match c.preInvalidate m rvp.mfnlo with
  | (false, m, c) => (none, m, c)
  | (true, m, c) =>
    match c.preInvalidate m rvp.mfnhi with
    | (false, m, c) => (none, m, c)
    | (true, m, c) =>
      match c.get rvp with
      | some b => (some b.bb, m, c)
      | none =>
        let bb := dec.decodeAt m rvp
        (some bb, c.insert m bb)

/-- A block with its reference count changed. -/
def setRefcount (rip : W64) (f : ℕ → ℕ) : BasicBlockCache :=
  { c with blocks := fun r => (c.blocks r).map fun b => ⟨b.bb, if r = rip then f b.refcount else b.refcount⟩ }

def acquire (rip : W64) : BasicBlockCache := c.setRefcount rip (· + 1)
def release (rip : W64) : BasicBlockCache := c.setRefcount rip (· - 1)

/-! ### The cache invariant -/

/-- Blocks and page lists agree: a cached block is filed under its own `rip`, with
the page numbers of that `rip`, and is listed exactly on the pages it lies on. -/
structure WF : Prop where
  key : ∀ {rip b}, c.blocks rip = some b →
    b.bb.rip = RIPVirtPhys.update rip b.bb.rip.use64 b.bb.rip.df
  short : ∀ {rip b}, c.blocks rip = some b → b.bb.bytes ≤ kPageSize
  listed : ∀ {rip b p}, c.blocks rip = some b → b.bb.on p → ∃ l, c.pages p = some l ∧ rip ∈ l
  cached : ∀ {p l rip}, c.pages p = some l → rip ∈ l → ∃ b, c.blocks rip = some b ∧ b.bb.on p
  nodup : ∀ {p l}, c.pages p = some l → l.Nodup

/-- The blocks in the cache. -/
def entries : Set BasicBlock := {bb | ∃ rip b, c.blocks rip = some b ∧ b.bb = bb}

variable {c}

theorem wf_init : init.WF := by
  constructor <;> intros <;> simp_all [init]

/-- The two page numbers of a crossing block differ. -/
theorem mfnlo_ne_mfnhi {bb : BasicBlock} {rip : W64} {use64 df : Bool}
    (hkey : bb.rip = RIPVirtPhys.update rip use64 df) (hshort : bb.bytes ≤ kPageSize)
    (hcross : bb.pageCrossing = true) : bb.rip.mfnlo ≠ bb.rip.mfnhi := by
  have hlt := rip.isLt
  have hcr : (rip.toNat % kPageSize + (bb.bytes - 1)) / kPageSize ≠ 0 := by
    simpa only [BasicBlock.pageCrossing, hkey, RIPVirtPhys.update, bne_iff_ne] using hcross
  rw [hkey]
  simp only [RIPVirtPhys.update, kPageSize] at hshort hcr ⊢
  omega

/-- A page number of a cached block has 36 bits. -/
theorem WF.on_lt (h : c.WF) {rip : W64} {b : CachedBlock} {p : ℕ} (hb : c.blocks rip = some b)
    (hon : b.bb.on p = true) : p < 2 ^ 36 := by
  have hlo : b.bb.rip.mfnlo < 2 ^ 36 := by
    rw [h.key hb]; exact Nat.mod_lt _ (by decide)
  have hhi : b.bb.rip.mfnhi < 2 ^ 36 := by
    rw [h.key hb]; exact Nat.mod_lt _ (by decide)
  simp only [BasicBlock.on, Bool.or_eq_true, beq_iff_eq, Bool.and_eq_true] at hon
  omega

/-- Dropping an unreferenced block takes it out of the map and of every list it was in. -/
theorem invalidateBlock_eq (h : c.WF) {rip : W64} {b : CachedBlock} (hb : c.blocks rip = some b)
    (href : b.refcount = 0) :
    c.invalidateBlock b =
      (true, ⟨Function.update c.blocks rip none,
        fun p => if b.bb.on p then (c.pages p).map (·.erase rip) else c.pages p⟩) := by
  have hrip : b.bb.rip.rip = rip := by rw [h.key hb]; rfl
  simp only [invalidateBlock, href, ne_eq, not_true_eq_false, if_false, hrip]
  congr 1
  cases hcross : b.bb.pageCrossing with
  | false =>
    simp only [Bool.false_eq_true, if_false, removeFromPage, mk.injEq, true_and]
    funext p
    by_cases hp : p = b.bb.rip.mfnlo
    · subst hp; simp [BasicBlock.on]
    · simp [BasicBlock.on, hcross, hp]
  | true =>
    have hne := mfnlo_ne_mfnhi (h.key hb) (h.short hb) hcross
    simp only [if_true, removeFromPage, mk.injEq, true_and]
    funext p
    by_cases hhi : p = b.bb.rip.mfnhi
    · subst hhi; simp [BasicBlock.on, hcross, Ne.symm hne]
    · by_cases hlo : p = b.bb.rip.mfnlo
      · subst hlo; simp [BasicBlock.on, hhi]
      · simp [BasicBlock.on, hhi, hlo]

theorem WF.invalidateBlock (h : c.WF) {rip : W64} {b : CachedBlock} (hb : c.blocks rip = some b)
    (href : b.refcount = 0) : (c.invalidateBlock b).2.WF := by
  rw [invalidateBlock_eq h hb href]
  have hold : ∀ {r b'}, Function.update c.blocks rip none r = some b' → r ≠ rip ∧ c.blocks r = some b' := by
    intro r b' hr
    by_cases hrr : r = rip
    · subst hrr; simp at hr
    · simp only [Function.update_apply, hrr, if_false] at hr; exact ⟨hrr, hr⟩
  refine ⟨fun hr => h.key (hold hr).2, fun hr => h.short (hold hr).2, ?_, ?_, ?_⟩
  · intro r b' p hr hon
    obtain ⟨hne, hr⟩ := hold hr
    obtain ⟨l, hl, hmem⟩ := h.listed hr hon
    simp only [hl, Option.map_some]
    split
    · exact ⟨_, rfl, (List.mem_erase_of_ne hne).2 hmem⟩
    · exact ⟨_, rfl, hmem⟩
  · intro p l r hl hmem
    -- a list the block was in has lost its rip; another list never held it
    by_cases hon : b.bb.on p = true
    · simp only [hon, if_true, Option.map_eq_some_iff] at hl
      obtain ⟨l₀, hl₀, rfl⟩ := hl
      obtain ⟨hne, hmem⟩ := (h.nodup hl₀).mem_erase_iff.1 hmem
      obtain ⟨b', hb', hon'⟩ := h.cached hl₀ hmem
      exact ⟨b', by simp only [Function.update_apply, hne, if_false, hb'], hon'⟩
    · simp only [hon, Bool.false_eq_true, if_false] at hl
      obtain ⟨b', hb', hon'⟩ := h.cached hl hmem
      have hne : r ≠ rip := by
        rintro rfl
        rw [hb] at hb'; cases hb'
        exact hon hon'
      exact ⟨b', by simp only [Function.update_apply, hne, if_false, hb'], hon'⟩
  · intro p l hl
    simp only at hl
    split at hl
    · obtain ⟨l₀, hl₀, rfl⟩ := Option.map_eq_some_iff.1 hl
      exact (h.nodup hl₀).erase _
    · exact h.nodup hl

/-! ### Page invalidation -/

/-- What an invalidation of page `mfn` does to the cache: it only drops blocks of
that page, all of them when it succeeds, and it fails only on a referenced one. -/
structure Dropped (c : BasicBlockCache) (mfn : ℕ) (r : Bool × BasicBlockCache) : Prop where
  wf : r.2.WF
  sub : ∀ {rip b}, r.2.blocks rip = some b → c.blocks rip = some b
  kept : ∀ {rip b}, c.blocks rip = some b → b.bb.on mfn = false → r.2.blocks rip = some b
  off : r.1 = true → ∀ {rip b}, r.2.blocks rip = some b → b.bb.on mfn = false
  held : r.1 = false → ∃ rip b, c.blocks rip = some b ∧ b.bb.on mfn = true ∧ b.refcount ≠ 0

/-- A page without a listed block holds no cached block. -/
theorem WF.off_of_nil (h : c.WF) {mfn : ℕ} (hnil : ∀ l, c.pages mfn = some l → l = []) {rip : W64}
    {b : CachedBlock} (hb : c.blocks rip = some b) : b.bb.on mfn = false := by
  by_contra hon
  obtain ⟨l, hl, hmem⟩ := h.listed hb (by simpa using hon)
  rw [hnil l hl] at hmem
  cases hmem

theorem dropped_of_nil (h : c.WF) {mfn : ℕ} (hnil : ∀ l, c.pages mfn = some l → l = []) :
    Dropped c mfn (true, c) :=
  ⟨h, id, fun hb _ => hb, fun _ _ _ hb => h.off_of_nil hnil hb, fun hf => by cases hf⟩

theorem invalidatePageLoop_dropped (fuel : ℕ) (c : BasicBlockCache) (mfn : ℕ) (h : c.WF)
    (hfuel : ∀ l, c.pages mfn = some l → l.length ≤ fuel) :
    Dropped c mfn (invalidatePageLoop fuel c mfn) := by
  induction fuel generalizing c with
  | zero => exact dropped_of_nil h fun l hl => List.length_eq_zero_iff.1 (Nat.le_zero.1 (hfuel l hl))
  | succ fuel ih =>
    simp only [invalidatePageLoop]
    cases hp : c.pages mfn with
    | none => exact dropped_of_nil h fun l hl => by rw [hp] at hl; cases hl
    | some l =>
      cases l with
      | nil => exact dropped_of_nil h fun l hl => by rw [hp] at hl; cases hl; rfl
      | cons rip rest =>
        obtain ⟨b, hb, hon⟩ := h.cached hp (List.mem_cons_self)
        simp only [hb]
        by_cases href : b.refcount = 0
        · have heq := invalidateBlock_eq h hb href
          have hwf := h.invalidateBlock hb href
          rw [heq] at hwf ⊢
          -- each block leaves the list of the page, so the list is the fuel
          have hlen := ih _ hwf (by
            intro l hl
            simp only [hon, if_true, hp, Option.map_some, List.erase_cons_head, Option.some.injEq] at hl
            subst hl
            have := hfuel _ hp; simp only [List.length_cons] at this; omega)
          have hback : ∀ {r b'}, Function.update c.blocks rip none r = some b' → c.blocks r = some b' := by
            intro r b' hr
            by_cases hrr : r = rip
            · subst hrr; simp at hr
            · simpa only [Function.update_apply, hrr, if_false] using hr
          refine ⟨hlen.wf, fun hr => hback (hlen.sub hr), ?_, hlen.off, ?_⟩
          · intro r b' hr hoff
            apply hlen.kept _ hoff
            have hne : r ≠ rip := by
              rintro rfl; rw [hb] at hr; cases hr; rw [hon] at hoff; cases hoff
            simpa only [Function.update_apply, hne, if_false] using hr
          · intro hf
            obtain ⟨r, b', hr, hrest⟩ := hlen.held hf
            exact ⟨r, b', hback hr, hrest⟩
        · have hres : c.invalidateBlock b = (false, c) := by
            simp only [invalidateBlock, href, ne_eq, not_false_eq_true, if_true]
          rw [hres]
          exact ⟨h, id, fun hr _ => hr, fun hf => (Bool.false_ne_true hf).elim,
            fun _ => ⟨rip, b, hb, hon, href⟩⟩

/-- **Page invalidation**: the dirty bit is cleared whether or not the blocks go. -/
theorem invalidatePage_spec (h : c.WF) (m : AddressSpace) {mfn : ℕ} (hmfn : mfn ≠ mfnInvalid) :
    ∃ r, Dropped c mfn r ∧ c.invalidatePage m mfn = (r.1, m.cleardirty mfn, r.2) := by
  simp only [invalidatePage, hmfn, if_false]
  cases hp : c.pages mfn with
  | none =>
    exact ⟨(true, c), dropped_of_nil h fun l hl => by (rw [hp] at hl; cases hl), rfl⟩
  | some l =>
    exact ⟨_, invalidatePageLoop_dropped l.length c mfn h fun l' hl' => by
      rw [hp] at hl'; cases hl'; exact le_rfl, rfl⟩

/-! ### Insertion -/

/-- What inserting a block does: it is listed on the pages it lies on, whose dirty
bits are cleared. -/
theorem insert_eq {bb : BasicBlock} (m : AddressSpace)
    (hne : bb.pageCrossing = true → bb.rip.mfnlo ≠ bb.rip.mfnhi) :
    (c.insert m bb).2 =
      ⟨Function.update c.blocks bb.rip.rip (some ⟨bb, 0⟩),
        fun p => if bb.on p then some ((c.pages p).getD [] ++ [bb.rip.rip]) else c.pages p⟩ := by
  cases hcross : bb.pageCrossing with
  | false =>
    simp only [insert, hcross, Bool.false_eq_true, if_false, addToPage, mk.injEq, true_and]
    funext p
    by_cases hp : p = bb.rip.mfnlo
    · subst hp; simp [BasicBlock.on]
    · simp [BasicBlock.on, hcross, hp]
  | true =>
    have hne := hne hcross
    simp only [insert, hcross, if_true, addToPage, mk.injEq, true_and]
    funext p
    by_cases hhi : p = bb.rip.mfnhi
    · subst hhi; simp [BasicBlock.on, hcross, Ne.symm hne]
    · by_cases hlo : p = bb.rip.mfnlo
      · subst hlo; simp [BasicBlock.on, hhi]
      · simp [BasicBlock.on, hhi, hlo]

theorem WF.insert (h : c.WF) {bb : BasicBlock} {rip : W64} {use64 df : Bool}
    (hkey : bb.rip = RIPVirtPhys.update rip use64 df) (hshort : bb.bytes ≤ kPageSize)
    (hmiss : c.blocks rip = none) (m : AddressSpace) : (c.insert m bb).2.WF := by
  have hrip : bb.rip.rip = rip := by rw [hkey]; rfl
  rw [insert_eq m (mfnlo_ne_mfnhi hkey hshort), hrip]
  have hold : ∀ {r b'}, Function.update c.blocks rip (some ⟨bb, 0⟩) r = some b' →
      (r = rip ∧ b' = ⟨bb, 0⟩) ∨ (r ≠ rip ∧ c.blocks r = some b') := by
    intro r b' hr
    by_cases hrr : r = rip
    · subst hrr; simp only [Function.update_self, Option.some.injEq] at hr; exact .inl ⟨rfl, hr.symm⟩
    · simp only [Function.update_apply, hrr, if_false] at hr; exact .inr ⟨hrr, hr⟩
  refine ⟨?_, ?_, ?_, ?_, ?_⟩
  · intro r b hr
    rcases hold hr with ⟨rfl, rfl⟩ | ⟨-, hr⟩
    · simp only [hkey]; rfl
    · exact h.key hr
  · intro r b hr
    rcases hold hr with ⟨rfl, rfl⟩ | ⟨-, hr⟩
    · exact hshort
    · exact h.short hr
  · intro r b p hr hon
    rcases hold hr with ⟨rfl, rfl⟩ | ⟨hne, hr⟩
    · simp only [hon, if_true]; exact ⟨_, rfl, by simp⟩
    · obtain ⟨l, hl, hmem⟩ := h.listed hr hon
      simp only [hl, Option.getD_some]
      split
      · exact ⟨_, rfl, List.mem_append_left _ hmem⟩
      · exact ⟨_, rfl, hmem⟩
  · intro p l r hl hmem
    have hfrom : r = rip ∧ bb.on p = true ∨ ∃ l₀, c.pages p = some l₀ ∧ r ∈ l₀ := by
      cases hon : bb.on p with
      | false => simp only [hon, Bool.false_eq_true, if_false] at hl; exact .inr ⟨l, hl, hmem⟩
      | true =>
        simp only [hon, if_true, Option.some.injEq] at hl
        subst hl
        rcases List.mem_append.1 hmem with hmem | hmem
        · cases hp : c.pages p with
          | none => rw [hp] at hmem; cases hmem
          | some l₀ => rw [hp] at hmem; exact .inr ⟨l₀, rfl, hmem⟩
        · exact .inl ⟨List.mem_singleton.1 hmem, rfl⟩
    rcases hfrom with ⟨rfl, hon⟩ | ⟨l₀, hl₀, hmem₀⟩
    · exact ⟨⟨bb, 0⟩, by simp, hon⟩
    · obtain ⟨b, hb, hon⟩ := h.cached hl₀ hmem₀
      have hne : r ≠ rip := by rintro rfl; rw [hmiss] at hb; cases hb
      exact ⟨b, by simp only [Function.update_apply, hne, if_false, hb], hon⟩
  · intro p l hl
    simp only at hl
    split at hl
    · simp only [Option.some.injEq] at hl
      subst hl
      cases hp : c.pages p with
      | none => simp
      | some l₀ =>
        -- the new rip was not listed, since it was not cached
        have hnot : rip ∉ l₀ := fun hmem => by
          obtain ⟨b, hb, -⟩ := h.cached hp hmem
          rw [hmiss] at hb; cases hb
        simp only [Option.getD_some]
        exact List.Nodup.append (h.nodup hp) (List.nodup_singleton _) (by simpa using hnot)
    · exact h.nodup hl

/-! ### Single blocks -/

theorem WF.setRefcount (h : c.WF) (rip : W64) (f : ℕ → ℕ) : (c.setRefcount rip f).WF := by
  have hold : ∀ {r b'}, (c.setRefcount rip f).blocks r = some b' →
      ∃ b, c.blocks r = some b ∧ b.bb = b'.bb := by
    intro r b' hr
    obtain ⟨b, hb, rfl⟩ := Option.map_eq_some_iff.1 hr
    exact ⟨b, hb, rfl⟩
  refine ⟨?_, ?_, ?_, ?_, h.nodup⟩
  · intro r b' hr
    obtain ⟨b, hb, heq⟩ := hold hr
    rw [← heq]; exact h.key hb
  · intro r b' hr
    obtain ⟨b, hb, heq⟩ := hold hr
    rw [← heq]; exact h.short hb
  · intro r b' p hr hon
    obtain ⟨b, hb, heq⟩ := hold hr
    exact h.listed hb (heq ▸ hon)
  · intro p l r hl hmem
    obtain ⟨b, hb, hon⟩ := h.cached hl hmem
    exact ⟨⟨b.bb, if r = rip then f b.refcount else b.refcount⟩,
      by simp only [BasicBlockCache.setRefcount, hb, Option.map_some], hon⟩

theorem entries_setRefcount (rip : W64) (f : ℕ → ℕ) : (c.setRefcount rip f).entries ⊆ c.entries := by
  rintro bb ⟨r, b', hr, rfl⟩
  obtain ⟨b, hb, rfl⟩ := Option.map_eq_some_iff.1 hr
  exact ⟨r, b, hb, rfl⟩

theorem invalidate_spec (h : c.WF) (rvp : RIPVirtPhys) :
    (c.invalidate rvp).2.WF ∧ (c.invalidate rvp).2.entries ⊆ c.entries := by
  unfold invalidate
  cases hb : c.get rvp with
  | none => exact ⟨h, subset_rfl⟩
  | some b =>
    by_cases href : b.refcount = 0
    · refine ⟨h.invalidateBlock hb href, ?_⟩
      simp only [invalidateBlock_eq h hb href]
      rintro bb ⟨r, b', hr, rfl⟩
      by_cases hrr : r = rvp.rip
      · subst hrr; simp at hr
      · exact ⟨r, b', by simpa only [Function.update_apply, hrr, if_false] using hr, rfl⟩
    · simp only [BasicBlockCache.invalidateBlock, href, ne_eq, not_false_eq_true, if_true]
      exact ⟨h, subset_rfl⟩

end BasicBlockCache
end X86Sim
