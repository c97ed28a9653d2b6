import X86Sim.Code.BasicBlockCache

/-!
# Coherence of decoded code

One machine, its block cache, and the address spaces of the host: the host maps,
unmaps, protects, writes, copies and rebinds; the guest stores and translates.
`translate` is coherent when what it returns is what a decode of the bound space
gives at that moment.

* `step_inv`: a harmless operation keeps every cached block dirty or fresh.
* `codeCacheCoherent_of_harmless`: along a run of harmless operations every
  translation is coherent.
* `stale_after_write`: a host write that changes the code of a cached block on
  clean pages is followed by a stale translation, since `write` neither marks nor
  drops anything.
-/

namespace X86Sim

open AddressSpace

/-- The machine's cache, the address spaces of the host, and the one it runs on. -/
structure World where
  spaces : ℕ → AddressSpace
  bound : ℕ
  cache : BasicBlockCache

namespace World

def boundSpace (w : World) : AddressSpace := w.spaces w.bound

/-- Space `i` and the cache after an operation. -/
def put (w : World) (i : ℕ) (m : AddressSpace) (c : BasicBlockCache) : World :=
  { w with spaces := Function.update w.spaces i m, cache := c }

/-- A host operation on space `i`, with its call of `invalidate_decoded_code`. -/
def host (w : World) (i : ℕ) (e : Effect) : World :=
  match e.invalidated with
  | none => w.put i e.space w.cache
  | some (start, size) =>
    let r := w.cache.invalidateDecodedCode e.space start size
    w.put i r.1 r.2

end World

/-- What the host and the guest do to code, one call at a time. -/
inductive CodeOp
  | map (i start size : ℕ) (prot : Protection) (alloc : ℕ)
  | unmap (i start size : ℕ)
  | protect (i start size : ℕ) (prot : Protection)
  | write (i start : ℕ) (data : List Byte)
  /-- A fresh space at `i`, attached to the machine or not. -/
  | create (i : ℕ) (machine : Bool)
  /-- Space `j` becomes a copy of space `i`. -/
  | copy (i j : ℕ)
  /-- `Machine::run` on space `i`. -/
  | rebind (i : ℕ)
  /-- A store of the core to the chunk at `a`, marking frame `mfn`. -/
  | guestStore (a : ℕ) (data : W64) (bytemask : BitVec 8) (mfn : ℕ)
  | copyToUser (target : ℕ) (source : List Byte)
  | translate (rip : W64) (use64 df : Bool)
  | invalidatePage (mfn : ℕ)
  | invalidate (rip : W64)
  | acquire (rip : W64)
  | release (rip : W64)

variable (dec : Decoder)

/-- One operation, and the block a translation returns. -/
def codeStep (w : World) : CodeOp → World × Option BasicBlock
  | .map i start size prot alloc => (w.host i ((w.spaces i).map start size prot alloc), none)
  | .unmap i start size => (w.host i ((w.spaces i).unmap start size), none)
  | .protect i start size prot => (w.host i ((w.spaces i).protect start size prot), none)
  | .write i start data => (w.host i ((w.spaces i).write start data), none)
  | .create i machine => (w.put i (AddressSpace.init machine) w.cache, none)
  | .copy i j => (w.put j (w.spaces i).copy w.cache, none)
  | .rebind i => ({ w with bound := i }, none)
  | .guestStore a data bytemask mfn =>
    (w.put w.bound ((w.boundSpace.storemask a data bytemask).setdirty mfn) w.cache, none)
  | .copyToUser target source =>
    (w.put w.bound (w.boundSpace.copyToUser target source).1 w.cache, none)
  | .translate rip use64 df =>
    let r := w.cache.translate dec w.boundSpace (RIPVirtPhys.update rip use64 df)
    (w.put w.bound r.2.1 r.2.2, r.1)
  | .invalidatePage mfn =>
    let r := w.cache.invalidatePage w.boundSpace mfn
    (w.put w.bound r.2.1 r.2.2, none)
  | .invalidate rip =>
    ({ w with cache := (w.cache.invalidate (RIPVirtPhys.update rip false false)).2 }, none)
  | .acquire rip => ({ w with cache := w.cache.acquire rip }, none)
  | .release rip => ({ w with cache := w.cache.release rip }, none)

/-- Every block `translate` returns along the run is what decoding the bytes and
permissions of the bound space gives at that moment. -/
def CodeCacheCoherent (w : World) : List CodeOp → Prop
  | [] => True
  | op :: ops =>
    (∀ rip use64 df bb, op = .translate rip use64 df → (codeStep dec w op).2 = some bb →
      bb = dec.decodeAt (codeStep dec w op).1.boundSpace (RIPVirtPhys.update rip use64 df)) ∧
    CodeCacheCoherent (codeStep dec w op).1 ops

/-! ### Harmless operations -/

/-- The pages an operation drops: none when the space is detached. -/
def visited (e : Effect) : List ℕ :=
  match e.invalidated with
  | none => []
  | some (start, size) =>
    if e.space.machine && size != 0 then (BasicBlockCache.mfnsOf start size).filter (· ≠ mfnInvalid) else []

/-- Invalidating page `mfn` is safe: no block on it is referenced, or none is on the page
whose mark it clears. -/
def Droppable (c : BasicBlockCache) (mfn : ℕ) : Prop :=
  (mfn < 2 ^ 36 ∧ ∀ rip b, c.blocks rip = some b → b.bb.on mfn = true → b.refcount = 0) ∨
  ∀ rip b, c.blocks rip = some b → b.bb.on (mfn % 2 ^ 36) = false

/-- A host operation on the bound space: every cached block whose decode it changes
lies on a page it drops, and the pages it drops can be dropped. -/
def HostHarmless (w : World) (i : ℕ) (e : Effect) : Prop :=
  i = w.bound →
    (∀ rip b, w.cache.blocks rip = some b →
      dec.decodeAt e.space b.bb.rip = dec.decodeAt w.boundSpace b.bb.rip ∨
        ∃ mfn ∈ visited e, mfn < 2 ^ 36 ∧ b.bb.on mfn = true) ∧
    ∀ mfn ∈ visited e, Droppable w.cache mfn

/-- A guest write: every cached block whose decode it changes lies on a page it marks. -/
def GuestHarmless (w : World) (m : AddressSpace) (marked : List ℕ) : Prop :=
  ∀ rip b, w.cache.blocks rip = some b →
    dec.decodeAt m b.bb.rip = dec.decodeAt w.boundSpace b.bb.rip ∨
      ∃ mfn ∈ marked, b.bb.on (mfn % 2 ^ 36) = true

/-- A switch of the bound space: every cached block lies on a page dirty in the new one, or
on clean pages only of the old one, and both spaces present the same code for it. -/
def SwitchHarmless (w : World) (m : AddressSpace) : Prop :=
  ∀ rip b, w.cache.blocks rip = some b →
    (∃ p, b.bb.on p = true ∧ m.isdirty p = true) ∨
      (∀ p, b.bb.on p = true → w.boundSpace.isdirty p = false) ∧
        dec.decodeAt m b.bb.rip = dec.decodeAt w.boundSpace b.bb.rip

/-- The condition on an operation and the state before it. -/
def Harmless (w : World) : CodeOp → Prop
  | .map i start size prot alloc => HostHarmless dec w i ((w.spaces i).map start size prot alloc)
  | .unmap i start size => HostHarmless dec w i ((w.spaces i).unmap start size)
  | .protect i start size prot => HostHarmless dec w i ((w.spaces i).protect start size prot)
  | .write i start data => HostHarmless dec w i ((w.spaces i).write start data)
  | .create i machine => i = w.bound → SwitchHarmless dec w (AddressSpace.init machine)
  | .copy i j => j = w.bound → SwitchHarmless dec w (w.spaces i).copy
  | .rebind i => SwitchHarmless dec w (w.spaces i)
  | .guestStore a data bytemask mfn =>
    GuestHarmless dec w (w.boundSpace.storemask a data bytemask) [mfn]
  | .copyToUser target source =>
    GuestHarmless dec w (w.boundSpace.copyToUser target source).1
      (w.boundSpace.copyToUser target source).2
  | .translate rip use64 df =>
    let rvp := RIPVirtPhys.update rip use64 df
    (∀ mfn, mfn = rvp.mfnlo ∨ mfn = rvp.mfnhi → mfn ≠ mfnInvalid →
      w.boundSpace.isdirty mfn = true → Droppable w.cache mfn) ∧
    ∀ b, w.cache.blocks rip = some b →
      (∀ p, b.bb.on p = true → w.boundSpace.isdirty p = false) → b.bb.rip = rvp
  | .invalidatePage mfn => mfn ≠ mfnInvalid → Droppable w.cache mfn
  | .invalidate _ => True
  | .acquire _ => True
  | .release _ => True

/-- Every operation of the run is harmless where it happens. -/
def HarmlessRun (w : World) : List CodeOp → Prop
  | [] => True
  | op :: ops => Harmless dec w op ∧ HarmlessRun (codeStep dec w op).1 ops

/-! ### The invariant -/

open BasicBlockCache DirtyCache

/-- The block is what a decode of `m` gives. -/
def FreshAt (m : AddressSpace) (bb : BasicBlock) : Prop := bb = dec.decodeAt m bb.rip

/-- A well-formed cache whose blocks lie on a dirty or a pending page, or are fresh. -/
structure CoherentAt (m : AddressSpace) (pending : ℕ → Prop) (c : BasicBlockCache) : Prop where
  wf : c.WF
  coherent : Coherent c.entries (fun bb p => bb.on p = true)
    (fun p => m.isdirty p = true ∨ pending p) (FreshAt dec m)

/-- The invariant of a run: nothing is pending between operations. -/
def World.Inv (w : World) : Prop := CoherentAt dec w.boundSpace (fun _ => False) w.cache

variable {dec} {m : AddressSpace} {c c' : BasicBlockCache} {w : World}

theorem World.inv_of_init (h : w.cache = .init) : w.Inv dec := by
  refine ⟨h ▸ wf_init, ?_⟩
  rintro bb ⟨rip, b, hb, -⟩
  rw [h] at hb; cases hb

/-- Dropping blocks keeps a page droppable. -/
theorem Droppable.mono {mfn : ℕ} (h : Droppable c mfn)
    (hsub : ∀ {rip b}, c'.blocks rip = some b → c.blocks rip = some b) : Droppable c' mfn := by
  rcases h with ⟨hlt, h⟩ | h
  · exact .inl ⟨hlt, fun rip b hb => h rip b (hsub hb)⟩
  · exact .inr fun rip b hb => h rip b (hsub hb)

/-- After an invalidation of page `mfn`, a block still on that page is fresh. -/
theorem fresh_of_dropped {mfn : ℕ} {r : Bool × BasicBlockCache} (hd : Droppable c mfn)
    (hr : Dropped c mfn r) {rip : W64} {b : CachedBlock} (hb : r.2.blocks rip = some b)
    (hon : b.bb.on (mfn % 2 ^ 36) = true) : b.bb = dec.decodeAt m b.bb.rip := by
  rcases hd with ⟨hlt, href⟩ | hoff
  · rw [Nat.mod_eq_of_lt hlt] at hon
    -- nothing on the page is referenced, so the invalidation has succeeded
    cases hok : r.1 with
    | true => rw [hr.off hok hb] at hon; cases hon
    | false =>
      obtain ⟨rip', b', hb', hon', hne⟩ := hr.held hok
      exact absurd (href rip' b' hb' hon') hne
  · rw [hoff rip b (hr.sub hb)] at hon
    cases hon

theorem pageid_ofMfn_mod (mfn : ℕ) : pageid (ofMfn mfn) = mfn % 2 ^ 36 := by
  simp only [pageid, ofMfn, kPageSize, addressSpaceSize]; omega

/-- **One page invalidation** removes its page from the pending ones. -/
theorem CoherentAt.invalidatePage {pending : ℕ → Prop} {mfn : ℕ}
    (h : CoherentAt dec m (fun p => p = mfn ∨ pending p) c) (hmfn : mfn ≠ mfnInvalid)
    (hd : Droppable c mfn) :
    CoherentAt dec (c.invalidatePage m mfn).2.1 pending (c.invalidatePage m mfn).2.2 := by
  obtain ⟨r, hr, heq⟩ := invalidatePage_spec h.wf m hmfn
  rw [heq]
  refine ⟨hr.wf, h.coherent.drop ?_ ?_⟩
  · rintro bb ⟨rip, b, hb, rfl⟩; exact ⟨rip, b, hr.sub hb, rfl⟩
  · rintro bb ⟨rip, b, hb, rfl⟩ p hon hdirty
    have hp := hr.wf.on_lt hb hon
    by_cases hpm : p = mfn % 2 ^ 36
    · subst hpm; exact .inr (fresh_of_dropped hd hr hb hon)
    · rcases hdirty with hdirty | hpend | hpend
      · refine .inl (.inl ?_)
        have hne : p ≠ pageid (ofMfn mfn) := by rw [pageid_ofMfn_mod]; exact hpm
        rw [isdirty_eq _ hp] at hdirty ⊢
        simp only [cleardirty, Function.update_apply, hne, if_false, hdirty]
      · subst hpend; exact absurd (Nat.mod_eq_of_lt hp).symm hpm
      · exact .inl (.inr hpend)

theorem CoherentAt.mono {pending pending' : ℕ → Prop} (h : CoherentAt dec m pending c)
    (hp : ∀ p, pending p → pending' p) : CoherentAt dec m pending' c :=
  ⟨h.wf, fun bb hbb => (h.coherent bb hbb).imp_left fun ⟨p, hon, hd⟩ => ⟨p, hon, hd.imp_right (hp p)⟩⟩

/-- The blocks after an invalidation were there before it. -/
theorem invalidatePage_sub (h : c.WF) (m : AddressSpace) (mfn : ℕ) {rip : W64} {b : CachedBlock}
    (hb : (c.invalidatePage m mfn).2.2.blocks rip = some b) : c.blocks rip = some b := by
  by_cases hmfn : mfn = mfnInvalid
  · simpa only [BasicBlockCache.invalidatePage, hmfn, if_true] using hb
  · obtain ⟨r, hr, heq⟩ := invalidatePage_spec h m hmfn
    rw [heq] at hb; exact hr.sub hb

/-- A page invalidation does not touch what a fetch sees. -/
theorem decodeAt_invalidatePage (c : BasicBlockCache) (m : AddressSpace) (mfn : ℕ) (rvp : RIPVirtPhys) :
    dec.decodeAt (c.invalidatePage m mfn).2.1 rvp = dec.decodeAt m rvp := by
  simp only [BasicBlockCache.invalidatePage]
  split
  · rfl
  · split <;> rfl

theorem Droppable.invalidatePage {mfn mfn' : ℕ} (h : c.WF) (hd : Droppable c mfn') :
    Droppable (c.invalidatePage m mfn).2.2 mfn' := by
  have hd' := hd.mono fun hb => invalidatePage_sub h m mfn hb
  simpa only [Droppable, decodeAt_invalidatePage] using hd'

theorem wf_invalidatePage (h : c.WF) (m : AddressSpace) (mfn : ℕ) :
    (c.invalidatePage m mfn).2.2.WF := by
  by_cases hmfn : mfn = mfnInvalid
  · simpa only [BasicBlockCache.invalidatePage, hmfn, if_true] using h
  · obtain ⟨r, hr, heq⟩ := invalidatePage_spec h m hmfn
    rw [heq]; exact hr.wf

/-- The loop of `invalidate_decoded_code`, page by page. -/
theorem CoherentAt.foldl_invalidatePage (l : List ℕ) {m : AddressSpace} {c : BasicBlockCache}
    (h : CoherentAt dec m (fun p => p ∈ l.filter (· ≠ mfnInvalid)) c)
    (hd : ∀ mfn ∈ l.filter (· ≠ mfnInvalid), Droppable c mfn) :
    CoherentAt dec (l.foldl (fun mc mfn => (mc.2.invalidatePage mc.1 mfn).2) (m, c)).1 (fun _ => False)
      (l.foldl (fun mc mfn => (mc.2.invalidatePage mc.1 mfn).2) (m, c)).2 := by
  induction l generalizing m c with
  | nil => exact h.mono fun p hp => by cases hp
  | cons mfn l ih =>
    simp only [List.foldl_cons]
    by_cases hmfn : mfn = mfnInvalid
    · have hsame : (c.invalidatePage m mfn).2 = (m, c) := by
        simp only [BasicBlockCache.invalidatePage, hmfn, if_true]
      rw [hsame]
      simp only [List.filter_cons, hmfn, ne_eq, not_true_eq_false, decide_false, Bool.false_eq_true,
        if_false] at h hd
      exact ih h hd
    · simp only [List.filter_cons, hmfn, ne_eq, not_false_eq_true, decide_true, if_true,
        List.mem_cons] at h hd
      refine ih (h.invalidatePage hmfn (hd mfn (.inl rfl))) fun mfn' hmem => ?_
      exact (hd mfn' (.inr hmem)).invalidatePage h.wf

theorem foldl_invalidatePage_sub (l : List ℕ) {m : AddressSpace} {c : BasicBlockCache} (h : c.WF) :
    (l.foldl (fun mc mfn => (mc.2.invalidatePage mc.1 mfn).2) (m, c)).2.WF ∧
      ∀ {rip b}, (l.foldl (fun mc mfn => (mc.2.invalidatePage mc.1 mfn).2) (m, c)).2.blocks rip = some b →
        c.blocks rip = some b := by
  induction l generalizing m c with
  | nil => exact ⟨h, id⟩
  | cons mfn l ih =>
    simp only [List.foldl_cons]
    have hr := @ih (c.invalidatePage m mfn).2.1 _ (wf_invalidatePage h m mfn)
    exact ⟨hr.1, fun hb => invalidatePage_sub h m mfn (hr.2 hb)⟩

/-! ### One operation -/

@[simp] theorem World.boundSpace_put_self (w : World) (m : AddressSpace) (c : BasicBlockCache) :
    (w.put w.bound m c).boundSpace = m := by
  simp [World.put, World.boundSpace]

theorem World.boundSpace_put_of_ne (w : World) {i : ℕ} (h : i ≠ w.bound) (m : AddressSpace)
    (c : BasicBlockCache) : (w.put i m c).boundSpace = w.boundSpace := by
  simp [World.put, World.boundSpace, Ne.symm h]

/-- A host operation keeps the dirty bits; only `invalidate_decoded_code` clears some. -/
theorem host_inv {i : ℕ} {e : Effect} (h : w.Inv dec) (hdirty : e.space.dirtymap = (w.spaces i).dirtymap)
    (hh : HostHarmless dec w i e) : (w.host i e).Inv dec := by
  by_cases hi : i = w.bound
  · subst hi
    obtain ⟨hdecode, hdrop⟩ := hh rfl
    -- before the call: the blocks whose decode changed lie on a page about to be dropped
    have hpend : CoherentAt dec e.space (fun p => p ∈ visited e) w.cache := by
      refine ⟨h.wf, h.coherent.step (fun _ hv => .inl hv) ?_ ?_⟩
      · rintro bb - p - (hd | hf)
        · exact .inl (.inl (by rwa [isdirty, hdirty]))
        · exact hf.elim
      · rintro bb ⟨rip, b, hb, rfl⟩ hf
        rcases hdecode rip b hb with heq | ⟨mfn, hmem, -, hon⟩
        · right
          rw [FreshAt, heq]; exact hf
        · exact .inl ⟨mfn, hon, .inr hmem⟩
    unfold World.host
    cases hinv : e.invalidated with
    | none =>
      simp only
      rw [World.Inv, World.boundSpace_put_self]
      exact hpend.mono fun p hp => by simp [visited, hinv] at hp
    | some range =>
      obtain ⟨start, size⟩ := range
      simp only [visited, hinv] at hpend hdrop
      simp only [invalidateDecodedCode]
      rw [World.Inv, World.boundSpace_put_self]
      cases hon : (e.space.machine && size != 0) with
      | false =>
        have hoff : (!e.space.machine || size == 0) = true := by
          revert hon; cases e.space.machine <;> simp
        simp only [hoff, if_true]
        exact hpend.mono fun p hp => by simp [hon] at hp
      | true =>
        have hoff : (!e.space.machine || size == 0) = false := by
          revert hon; cases e.space.machine <;> simp
        simp only [hoff, Bool.false_eq_true, if_false]
        simp only [hon, if_true] at hpend hdrop
        exact hpend.foldl_invalidatePage _ hdrop
  · -- another space: blocks may only go
    unfold World.host
    cases hinv : e.invalidated with
    | none =>
      simp only
      rw [World.Inv, World.boundSpace_put_of_ne w hi]
      exact h
    | some range =>
      obtain ⟨start, size⟩ := range
      simp only
      rw [World.Inv, World.boundSpace_put_of_ne w hi]
      have hsub : (w.cache.invalidateDecodedCode e.space start size).2.WF ∧
          ∀ {rip b}, (w.cache.invalidateDecodedCode e.space start size).2.blocks rip = some b →
            w.cache.blocks rip = some b := by
        simp only [invalidateDecodedCode]
        split
        · exact ⟨h.wf, id⟩
        · exact foldl_invalidatePage_sub _ h.wf
      refine ⟨hsub.1, h.coherent.drop ?_ fun _ _ _ _ hd => .inl hd⟩
      rintro bb ⟨rip, b, hb, rfl⟩
      exact ⟨rip, b, hsub.2 hb, rfl⟩

/-- A guest write keeps the invariant when it marks what it changes. -/
theorem guest_inv {m : AddressSpace} {marked : List ℕ} (h : w.Inv dec)
    (hdirty : ∀ p < 2 ^ 36, m.isdirty p = true ↔
      w.boundSpace.isdirty p = true ∨ ∃ mfn ∈ marked, p = mfn % 2 ^ 36)
    (hh : GuestHarmless dec w m marked) : (w.put w.bound m w.cache).Inv dec := by
  rw [World.Inv, World.boundSpace_put_self]
  refine ⟨h.wf, h.coherent.step (fun _ hv => .inl hv) ?_ ?_⟩
  · rintro bb ⟨rip, b, hb, rfl⟩ p hon (hd | hf)
    · exact .inl (.inl ((hdirty p (h.wf.on_lt hb hon)).2 (.inl hd)))
    · exact hf.elim
  · rintro bb ⟨rip, b, hb, rfl⟩ hf
    rcases hh rip b hb with heq | ⟨mfn, hmem, hon⟩
    · right; rw [FreshAt, heq]; exact hf
    · exact .inl ⟨_, hon, .inl ((hdirty _ (h.wf.on_lt hb hon)).2 (.inr ⟨mfn, hmem, rfl⟩))⟩

/-- A block on clean pages is fresh, and so it is for a space that presents the same code. -/
theorem switch_inv {m : AddressSpace} (h : w.Inv dec) (hh : SwitchHarmless dec w m) :
    CoherentAt dec m (fun _ => False) w.cache := by
  refine ⟨h.wf, ?_⟩
  rintro bb ⟨rip, b, hb, rfl⟩
  rcases hh rip b hb with ⟨p, hon, hd⟩ | ⟨hclean, hsame⟩
  · exact .inl ⟨p, hon, .inl hd⟩
  · right
    rw [FreshAt, hsame]
    rcases h.coherent b.bb ⟨rip, b, hb, rfl⟩ with ⟨p, hon, hd | hf⟩ | hfresh
    · rw [hclean p hon] at hd
      cases hd
    · exact hf.elim
    · exact hfresh

/-! ### Translation -/

variable (dec) in
/-- What the pre-invalidation of a page leaves to the rest of `translate`. -/
structure PreInvalidated (c : BasicBlockCache) (m : AddressSpace) (mfn : ℕ)
    (r : Bool × AddressSpace × BasicBlockCache) : Prop where
  inv : CoherentAt dec r.2.1 (fun _ => False) r.2.2
  sub : ∀ {rip b}, r.2.2.blocks rip = some b → c.blocks rip = some b
  decode : ∀ rvp, dec.decodeAt r.2.1 rvp = dec.decodeAt m rvp
  dirty : ∀ p < 2 ^ 36, r.2.1.isdirty p = true → m.isdirty p = true
  still : ∀ p < 2 ^ 36, p ≠ mfn → m.isdirty p = true → r.2.1.isdirty p = true
  clean : r.1 = true → r.2.1.isdirty mfn = false
  off : r.1 = true → m.isdirty mfn = true → ∀ {rip b}, r.2.2.blocks rip = some b → b.bb.on mfn = false

theorem preInvalidated {mfn : ℕ} (h : CoherentAt dec m (fun _ => False) c) (hmfn : mfn < 2 ^ 36)
    (hd : mfn ≠ mfnInvalid → m.isdirty mfn = true → Droppable c mfn) :
    PreInvalidated dec c m mfn (c.preInvalidate m mfn) := by
  unfold preInvalidate
  cases hdirty : m.isdirty mfn with
  | false =>
    simp only [Bool.false_eq_true, if_false]
    exact ⟨h, id, fun _ => rfl, fun _ _ => id, fun _ _ _ => id, fun _ => hdirty,
      fun _ ht => by rw [hdirty] at ht; cases ht⟩
  | true =>
    simp only [if_true]
    by_cases hinv : mfn = mfnInvalid
    · have hsame : c.invalidatePage m mfn = (false, m, c) := by
        simp only [BasicBlockCache.invalidatePage, hinv, if_true]
      rw [hsame]
      exact ⟨h, id, fun _ => rfl, fun _ _ => id, fun _ _ _ => id,
        fun hf => (Bool.false_ne_true hf).elim, fun hf => (Bool.false_ne_true hf).elim⟩
    · have hinv' := (h.mono fun _ hp => Or.inr hp).invalidatePage hinv (hd hinv hdirty)
      obtain ⟨r, hr, heq⟩ := invalidatePage_spec h.wf m hinv
      rw [heq] at hinv' ⊢
      refine ⟨hinv', hr.sub, fun _ => rfl, fun p hp ht => ?_, fun p hp hne ht => ?_, fun _ => ?_,
        fun hok _ => hr.off hok⟩
      · rw [isdirty_cleardirty _ hp hmfn] at ht
        split at ht
        · cases ht
        · exact ht
      · rw [isdirty_cleardirty _ hp hmfn, if_neg hne]; exact ht
      · rw [isdirty_cleardirty _ hmfn hmfn, if_pos rfl]

/-- Inserting a fresh block on clean pages. -/
theorem CoherentAt.insert {bb : BasicBlock} {rip : W64} {use64 df : Bool}
    (h : CoherentAt dec m (fun _ => False) c) (hkey : bb.rip = RIPVirtPhys.update rip use64 df)
    (hfresh : bb = dec.decodeAt m bb.rip) (hmiss : c.blocks rip = none)
    (hclean : ∀ p, bb.on p = true → m.isdirty p = false) :
    CoherentAt dec (c.insert m bb).1 (fun _ => False) (c.insert m bb).2 ∧
      ∀ rvp, dec.decodeAt (c.insert m bb).1 rvp = dec.decodeAt m rvp := by
  have hshort : bb.bytes ≤ kPageSize := by rw [hfresh]; exact dec.bytes_decode _ _
  have hdecode : ∀ rvp, dec.decodeAt (c.insert m bb).1 rvp = dec.decodeAt m rvp := by
    intro rvp; simp only [BasicBlockCache.insert]; split <;> rfl
  refine ⟨⟨h.wf.insert hkey hshort hmiss m, h.coherent.step ?_ ?_ ?_⟩, hdecode⟩
  · rintro v ⟨r, b, hb, rfl⟩
    rw [insert_eq m (mfnlo_ne_mfnhi hkey hshort)] at hb
    by_cases hr : r = bb.rip.rip
    · subst hr
      simp only [Function.update_self, Option.some.injEq] at hb
      subst hb
      right; rw [FreshAt, hdecode]; exact hfresh
    · simp only [Function.update_apply, hr, if_false] at hb
      exact .inl ⟨r, b, hb, rfl⟩
  · rintro v ⟨r, b, hb, rfl⟩ p hon (hd | hf)
    · -- the bits cleared are those of the new block's pages, which were clean
      have hp := (h.wf.insert hkey hshort hmiss m).on_lt hb hon
      have hoff : bb.on p = false := by
        by_contra hcon
        rw [hclean p (by simpa using hcon)] at hd; cases hd
      have hlo : bb.rip.mfnlo < 2 ^ 36 := by rw [hkey]; exact Nat.mod_lt _ (by decide)
      have hhi : bb.rip.mfnhi < 2 ^ 36 := by rw [hkey]; exact Nat.mod_lt _ (by decide)
      simp only [BasicBlock.on, Bool.or_eq_false_iff, beq_eq_false_iff_ne, ne_eq] at hoff
      refine .inl (.inl ?_)
      simp only [BasicBlockCache.insert]
      split
      · rename_i hcross
        rw [hcross] at hoff
        simp only [Bool.true_and, beq_eq_false_iff_ne, ne_eq] at hoff
        rw [isdirty_cleardirty _ hp hhi, if_neg hoff.2, isdirty_cleardirty _ hp hlo, if_neg hoff.1]
        exact hd
      · rw [isdirty_cleardirty _ hp hlo, if_neg hoff.1]
        exact hd
    · exact hf.elim
  · rintro v - hf
    right; rw [FreshAt, hdecode]; exact hf

/-- **Translation**: the invariant is kept, and what is returned is fresh, for a
cached block of clean pages provided it was decoded in the same mode. -/
theorem translate_inv {rip : W64} {use64 df : Bool} (h : CoherentAt dec m (fun _ => False) c)
    (hd : ∀ mfn, mfn = (RIPVirtPhys.update rip use64 df).mfnlo ∨
      mfn = (RIPVirtPhys.update rip use64 df).mfnhi → mfn ≠ mfnInvalid → m.isdirty mfn = true →
      Droppable c mfn)
    (hmode : ∀ b, c.blocks rip = some b → (∀ p, b.bb.on p = true → m.isdirty p = false) →
      b.bb.rip = RIPVirtPhys.update rip use64 df) :
    CoherentAt dec (c.translate dec m (RIPVirtPhys.update rip use64 df)).2.1 (fun _ => False)
        (c.translate dec m (RIPVirtPhys.update rip use64 df)).2.2 ∧
      ∀ bb, (c.translate dec m (RIPVirtPhys.update rip use64 df)).1 = some bb →
        bb = dec.decodeAt (c.translate dec m (RIPVirtPhys.update rip use64 df)).2.1
          (RIPVirtPhys.update rip use64 df) := by
  set rvp := RIPVirtPhys.update rip use64 df with hrvp
  have hlo : rvp.mfnlo < 2 ^ 36 := Nat.mod_lt _ (by decide)
  have hhi : rvp.mfnhi < 2 ^ 36 := Nat.mod_lt _ (by decide)
  have h1 := preInvalidated h hlo (hd _ (.inl rfl))
  unfold BasicBlockCache.translate
  generalize c.preInvalidate m rvp.mfnlo = r1 at h1 ⊢
  obtain ⟨ok1, m1, c1⟩ := r1
  cases ok1 with
  | false => exact ⟨h1.inv, fun _ hbb => by cases hbb⟩
  | true =>
    have hd2 : rvp.mfnhi ≠ mfnInvalid → m1.isdirty rvp.mfnhi = true → Droppable c1 rvp.mfnhi := by
      intro hne hdirty
      have := (hd _ (.inr rfl) hne (h1.dirty _ hhi hdirty)).mono h1.sub
      simpa only [Droppable, h1.decode] using this
    have h2 := preInvalidated h1.inv hhi hd2
    simp only at h2 ⊢
    generalize c1.preInvalidate m1 rvp.mfnhi = r2 at h2 ⊢
    obtain ⟨ok2, m2, c2⟩ := r2
    cases ok2 with
    | false => exact ⟨h2.inv, fun _ hbb => by cases hbb⟩
    | true =>
      have hcleanlo : m2.isdirty rvp.mfnlo = false := by
        by_contra hcon
        have := h2.dirty _ hlo (by simpa using hcon)
        rw [h1.clean rfl] at this; cases this
      have hcleanhi : m2.isdirty rvp.mfnhi = false := h2.clean rfl
      simp only
      cases hget : c2.get rvp with
      | some b =>
        have hb : c2.blocks rip = some b := hget
        have hblo : b.bb.rip.mfnlo = rvp.mfnlo := by rw [h2.inv.wf.key hb]; rfl
        have hbhi : b.bb.rip.mfnhi = rvp.mfnhi := by rw [h2.inv.wf.key hb]; rfl
        have hpages : ∀ p, b.bb.on p = true → p = rvp.mfnlo ∨ p = rvp.mfnhi := by
          intro p hon
          simp only [BasicBlock.on, Bool.or_eq_true, beq_iff_eq, Bool.and_eq_true, hblo, hbhi] at hon
          exact hon.imp_right And.right
        refine ⟨h2.inv, fun bb hbb => ?_⟩
        simp only [Option.some.injEq] at hbb
        subst hbb
        have hfresh : FreshAt dec m2 b.bb := by
          refine h2.inv.coherent.fresh_of_clean ⟨rip, b, hb, rfl⟩ ?_
          rintro p hon (hdirty | hf)
          · rcases hpages p hon with rfl | rfl
            · rw [hcleanlo] at hdirty; cases hdirty
            · rw [hcleanhi] at hdirty; cases hdirty
          · exact hf
        -- a block that survives both invalidations lay on clean pages to begin with
        have hrip := hmode b (h1.sub (h2.sub hb)) fun p hon => by
          by_contra hcon
          have hdirty : m.isdirty p = true := by simpa using hcon
          rcases hpages p hon with rfl | rfl
          · rw [h1.off rfl hdirty (h2.sub hb)] at hon; cases hon
          · by_cases hsame : rvp.mfnhi = rvp.mfnlo
            · rw [hsame] at hdirty hon
              rw [h1.off rfl hdirty (h2.sub hb)] at hon; cases hon
            · rw [h2.off rfl (h1.still _ hhi hsame hdirty) hb] at hon; cases hon
        rw [FreshAt, hrip] at hfresh
        exact hfresh
      | none =>
        have hkey : (dec.decodeAt m2 rvp).rip = rvp := dec.rip_decode _ _
        have hfresh : dec.decodeAt m2 rvp = dec.decodeAt m2 (dec.decodeAt m2 rvp).rip := by rw [hkey]
        have hinv : CoherentAt dec m2 (fun _ => False) c2 := h2.inv
        have hins := hinv.insert (hkey.trans hrvp) hfresh hget fun p hon => by
          simp only [BasicBlock.on, Bool.or_eq_true, beq_iff_eq, Bool.and_eq_true, hkey] at hon
          rcases hon with rfl | ⟨-, rfl⟩
          · exact hcleanlo
          · exact hcleanhi
        refine ⟨hins.1, fun bb hbb => ?_⟩
        simp only [Option.some.injEq] at hbb
        rw [hins.2, ← hbb]

/-! ### Runs -/

/-- **A harmless operation keeps the invariant**, and a harmless translation is coherent. -/
theorem step_inv {op : CodeOp} (h : w.Inv dec) (hh : Harmless dec w op) :
    (codeStep dec w op).1.Inv dec ∧
      ∀ rip use64 df bb, op = .translate rip use64 df → (codeStep dec w op).2 = some bb →
        bb = dec.decodeAt (codeStep dec w op).1.boundSpace (RIPVirtPhys.update rip use64 df) := by
  -- a host call is harmless by hypothesis, a guest store by the mark it leaves, a switch by what it finds
  cases op with
  | map i start size prot alloc => exact ⟨host_inv h (map_dirtymap _ _ _ _ _) hh, fun _ _ _ _ hop => by cases hop⟩
  | unmap i start size => exact ⟨host_inv h (unmap_dirtymap _ _ _) hh, fun _ _ _ _ hop => by cases hop⟩
  | protect i start size prot => exact ⟨host_inv h (protect_dirtymap _ _ _ _) hh, fun _ _ _ _ hop => by cases hop⟩
  | write i start data => exact ⟨host_inv h (write_dirtymap _ _ _) hh, fun _ _ _ _ hop => by cases hop⟩
  | create i machine =>
    refine ⟨?_, fun _ _ _ _ hop => by cases hop⟩
    by_cases hi : i = w.bound
    · subst hi
      rw [World.Inv, codeStep, World.boundSpace_put_self]
      exact switch_inv (w := w) h (hh rfl)
    · rw [World.Inv, codeStep, World.boundSpace_put_of_ne w hi]; exact h
  | copy i j =>
    refine ⟨?_, fun _ _ _ _ hop => by cases hop⟩
    by_cases hj : j = w.bound
    · subst hj
      rw [World.Inv, codeStep, World.boundSpace_put_self]
      exact switch_inv (w := w) h (hh rfl)
    · rw [World.Inv, codeStep, World.boundSpace_put_of_ne w hj]; exact h
  | rebind i => exact ⟨switch_inv (w := w) h hh, fun _ _ _ _ hop => by cases hop⟩
  | guestStore a data bytemask mfn =>
    have hm : GuestHarmless dec w ((w.boundSpace.storemask a data bytemask).setdirty mfn) [mfn] := hh
    refine ⟨guest_inv h (fun p hp => ?_) hm, fun _ _ _ _ hop => by cases hop⟩
    · rw [isdirty_setdirty _ hp, pageid_ofMfn_mod]
      simp only [List.mem_singleton, exists_eq_left]
      split
      · rename_i heq; exact ⟨fun _ => .inr heq, fun _ => rfl⟩
      · rename_i hne; exact ⟨.inl, fun ho => ho.resolve_right hne⟩
  | copyToUser target source =>
    refine ⟨guest_inv h (fun p hp => ?_) hh, fun _ _ _ _ hop => by cases hop⟩
    rw [isdirty_copyToUser _ hp]
    simp only [Bool.or_eq_true, List.any_eq_true, beq_iff_eq, pageid_ofMfn_mod]
  | translate rip use64 df =>
    obtain ⟨hd, hmode⟩ := hh
    have hr := translate_inv h hd hmode
    refine ⟨?_, ?_⟩
    · rw [World.Inv, codeStep, World.boundSpace_put_self]; exact hr.1
    · rintro _ _ _ bb ⟨⟩ hbb
      rw [codeStep, World.boundSpace_put_self]; exact hr.2 bb hbb
  | invalidatePage mfn =>
    refine ⟨?_, fun _ _ _ _ hop => by cases hop⟩
    rw [World.Inv, codeStep, World.boundSpace_put_self]
    by_cases hmfn : mfn = mfnInvalid
    · simp only [BasicBlockCache.invalidatePage, hmfn, if_true]
      exact h
    · exact (CoherentAt.mono h fun _ hp => Or.inr hp).invalidatePage hmfn (hh hmfn)
  | invalidate rip =>
    have hr := invalidate_spec h.wf (RIPVirtPhys.update rip false false)
    exact ⟨⟨hr.1, h.coherent.drop hr.2 fun _ _ _ _ hd => .inl hd⟩, fun _ _ _ _ hop => by cases hop⟩
  | acquire rip =>
    exact ⟨⟨h.wf.setRefcount rip (· + 1),
      h.coherent.drop (entries_setRefcount rip (· + 1)) fun _ _ _ _ hd => .inl hd⟩, fun _ _ _ _ hop => by cases hop⟩
  | release rip =>
    exact ⟨⟨h.wf.setRefcount rip (· - 1),
      h.coherent.drop (entries_setRefcount rip (· - 1)) fun _ _ _ _ hd => .inl hd⟩, fun _ _ _ _ hop => by cases hop⟩

theorem codeCacheCoherent_of_inv (ops : List CodeOp) (h : w.Inv dec) (hh : HarmlessRun dec w ops) :
    CodeCacheCoherent dec w ops := by
  induction ops generalizing w with
  | nil => trivial
  | cons op ops ih =>
    obtain ⟨hinv, hans⟩ := step_inv h hh.1
    exact ⟨hans, ih hinv hh.2⟩

/-! ### A host write to decoded code -/

/-- The decoder on a two-byte jump `eb d`; any other window is an invalid opcode. -/
def shortJump : Decoder where
  decode rvp w :=
    match w.insnbytes with
    | 0xeb :: d :: _ =>
      let target := rvp.rip + 2 + d.signExtend 64
      { rip := rvp, ripTaken := target, ripNotTaken := target, bytes := 2, userInsnCount := 1
        transops := [{ TransOp.init .opBru Reg.rip Reg.zero Reg.zero Reg.zero 3 0 0 SetFlags.none with
          riptaken := target, ripseq := target, bytes := 2, som := true, eom := true }] }
    | _ =>
      { rip := rvp, ripTaken := 0, ripNotTaken := 0, bytes := 1, userInsnCount := 1
        transops := [{ TransOp.init .opBrp Reg.rip Reg.zero Reg.zero Reg.zero 3 0 0 SetFlags.none with
          bytes := 1, som := true, eom := true }]
        invalidblock := true }
  rip_decode rvp w := by split <;> rfl
  bytes_decode rvp w := by split <;> simp [kPageSize]

/-- A machine that has not run, with attached, empty spaces. -/
def World.init : World := ⟨fun _ => AddressSpace.init true, 0, .init⟩

/-- Map a code page, write a jump to itself, translate it, write a jump to the next
instruction over it, translate again. -/
def rewriteJump : List CodeOp :=
  [.map 0 0x1000 0x1000 ⟨true, true, true⟩ 4, .write 0 0x1000 [0xeb, 0xfe], .translate 0x1000 true false,
    .write 0 0x1000 [0xeb, 0x00], .translate 0x1000 true false]

theorem rewriteJump_stale : ¬ ∀ ops, CodeCacheCoherent shortJump World.init ops := by
  intro h
  obtain ⟨-, -, -, -, hlast, -⟩ := h rewriteJump
  -- the last translation still returns the jump to itself
  have hold := hlast 0x1000 true false
    (shortJump.decode (RIPVirtPhys.update 0x1000 true false) ⟨[0xeb, 0xfe], .none, 0⟩) rfl
    (by decide +kernel)
  exact absurd hold (by decide +kernel)

/-- A lookup of a cached block on clean pages returns it as it is. -/
theorem translate_hit (dec : Decoder) {rvp : RIPVirtPhys} {b : CachedBlock} (hb : c.blocks rvp.rip = some b)
    (hlo : m.isdirty rvp.mfnlo = false) (hhi : m.isdirty rvp.mfnhi = false) :
    c.translate dec m rvp = (some b.bb, m, c) := by
  have hget : c.get rvp = some b := hb
  simp only [BasicBlockCache.translate, preInvalidate, hlo, hhi, hget, Bool.false_eq_true, if_false]

/-- A host write drops nothing. -/
theorem write_invalidated (m : AddressSpace) (start : ℕ) (data : List Byte) : (m.write start data).invalidated = none := by
  simp only [write]
  split
  · rfl
  · split <;> rfl

theorem write_cache (dec : Decoder) (w : World) (i start : ℕ) (data : List Byte) :
    (codeStep dec w (.write i start data)).1.cache = w.cache := by
  simp only [codeStep, World.host, write_invalidated]
  rfl

theorem rebind_cache (dec : Decoder) (w : World) (i : ℕ) : (codeStep dec w (.rebind i)).1.cache = w.cache := rfl

theorem guestStore_cache (dec : Decoder) (w : World) (a : ℕ) (data : W64) (bytemask : BitVec 8) (mfn : ℕ) :
    (codeStep dec w (.guestStore a data bytemask mfn)).1.cache = w.cache := rfl

/-- **A host write is not harmless when it has to be**: if it changes the decode of a
cached block on clean pages, the next translation of that block is stale. -/
theorem stale_after_write {rip : W64} {use64 df : Bool} {b : CachedBlock} {start : ℕ}
    {data : List Byte} (hb : w.cache.blocks rip = some b)
    (hlo : w.boundSpace.isdirty (RIPVirtPhys.update rip use64 df).mfnlo = false)
    (hhi : w.boundSpace.isdirty (RIPVirtPhys.update rip use64 df).mfnhi = false)
    (hchange : b.bb ≠ dec.decodeAt (w.boundSpace.write start data).space
      (RIPVirtPhys.update rip use64 df)) :
    ¬ CodeCacheCoherent dec w [.write w.bound start data, .translate rip use64 df] := by
  rintro ⟨-, htrans, -⟩
  have hnone := write_invalidated w.boundSpace start data
  have hstep : (codeStep dec w (.write w.bound start data)).1 =
      w.put w.bound (w.boundSpace.write start data).space w.cache := by
    simp only [codeStep, World.host]
    rw [show (w.spaces w.bound).write start data = w.boundSpace.write start data from rfl, hnone]
  rw [hstep] at htrans
  set w' := w.put w.bound (w.boundSpace.write start data).space w.cache with hw'
  have hbs : w'.boundSpace = (w.boundSpace.write start data).space := World.boundSpace_put_self _ _ _
  have hdirty : ∀ p, w'.boundSpace.isdirty p = w.boundSpace.isdirty p := by
    intro p; rw [hbs, isdirty, isdirty, write_dirtymap]
  have hb' : w'.cache.blocks (RIPVirtPhys.update rip use64 df).rip = some b := hb
  have hhit := translate_hit dec hb' ((hdirty _).trans hlo) ((hdirty _).trans hhi)
  have := htrans rip use64 df b.bb rfl (by simp only [codeStep, hhit])
  rw [codeStep, World.boundSpace_put_self, hhit] at this
  exact hchange (this.trans (by rw [hbs]))

variable (dec) in
/-- **Translations are coherent along every run of harmless operations** that starts
with an empty cache. -/
theorem codeCacheCoherent_of_harmless (w : World) (hinit : w.cache = .init) (ops : List CodeOp)
    (hh : HarmlessRun dec w ops) : CodeCacheCoherent dec w ops :=
  codeCacheCoherent_of_inv ops (World.inv_of_init hinit) hh

/-- The machine with the jump to itself on its code page. -/
def World.jump : World :=
  { World.init with
    spaces := fun _ => (((AddressSpace.init true).map 0x1000 0x1000 ⟨true, true, true⟩ 4).space.write
      0x1000 [0xeb, 0xfe]).space }

/-- The jump is translated, the host writes elsewhere on its page and binds another space with
the same code, where the guest stores a jump to the next instruction over it. -/
def storeJump : List CodeOp :=
  [.translate 0x1000 true false, .write 0 0x1800 [0x90], .rebind 1, .guestStore 0x1000 0x00eb 3 1,
    .translate 0x1000 true false]

/-- The cached block of the jump. -/
def cachedJump : CachedBlock :=
  ⟨shortJump.decode (RIPVirtPhys.update 0x1000 true false) ⟨[0xeb, 0xfe], .none, 0⟩, 0⟩

/-- The first translation. -/
theorem jump_cache : (codeStep shortJump World.jump (.translate 0x1000 true false)).1.cache =
    (BasicBlockCache.init.insert World.jump.boundSpace cachedJump.bb).2 := by
  have hclean : World.jump.boundSpace.isdirty (RIPVirtPhys.update 0x1000 true false).mfnlo = false ∧
      World.jump.boundSpace.isdirty (RIPVirtPhys.update 0x1000 true false).mfnhi = false := by
    decide +kernel
  have hget : World.jump.cache.get (RIPVirtPhys.update 0x1000 true false) = none := rfl
  have hdecode : shortJump.decodeAt World.jump.boundSpace (RIPVirtPhys.update 0x1000 true false) = cachedJump.bb := by
    decide +kernel
  simp only [codeStep, World.put, BasicBlockCache.translate, preInvalidate, hclean.1, hclean.2, Bool.false_eq_true, if_false,
    hget, hdecode]
  rfl

/-- The block is alone in the cache. -/
theorem jump_cached {rip : W64} {b : CachedBlock}
    (hb : (BasicBlockCache.init.insert World.jump.boundSpace cachedJump.bb).2.blocks rip = some b) :
    rip = 0x1000 ∧ b = cachedJump := by
  rw [insert_eq _ (by decide +kernel)] at hb
  by_cases hrip : rip = 0x1000
  · subst hrip
    exact ⟨rfl, (Option.some.inj hb).symm⟩
  · have hnone : Function.update BasicBlockCache.init.blocks cachedJump.bb.rip.rip (some ⟨cachedJump.bb, 0⟩) rip = none :=
      Function.update_of_ne hrip _ _
    dsimp only at hb
    rw [hnone] at hb
    cases hb

theorem codeCacheCoherent_storeJump : CodeCacheCoherent shortJump World.jump storeJump := by
  refine codeCacheCoherent_of_harmless shortJump World.jump rfl _
    ⟨⟨?_, fun b hb => by cases hb⟩, fun _ => ⟨fun rip b hb => ?_, fun mfn hmfn => ?_⟩,
      fun rip b hb => ?_, fun rip b hb => ?_, ⟨?_, fun b hb _ => ?_⟩, trivial⟩
  · rintro mfn (rfl | rfl) - hdirty
    · exact absurd hdirty (by decide +kernel)
    · exact absurd hdirty (by decide +kernel)
  · -- the write leaves the window of the block
    rw [jump_cache] at hb
    obtain ⟨rfl, rfl⟩ := jump_cached hb
    exact .inl (by decide +kernel)
  · rw [visited, show (_ : Effect).invalidated = none from write_invalidated _ _ _] at hmfn
    cases hmfn
  · -- both spaces present the jump
    rw [write_cache, jump_cache] at hb
    obtain ⟨rfl, rfl⟩ := jump_cached hb
    refine .inr ⟨fun p hp => ?_, by decide +kernel⟩
    have hlo : cachedJump.bb.rip.mfnlo = 1 := by decide +kernel
    have hcross : cachedJump.bb.pageCrossing = false := by decide +kernel
    obtain rfl : p = 1 := by
      simpa [BasicBlock.on, hlo, hcross] using hp
    decide +kernel
  · -- the store marks the page
    rw [rebind_cache, write_cache, jump_cache] at hb
    obtain ⟨rfl, rfl⟩ := jump_cached hb
    exact .inr ⟨1, List.mem_singleton_self 1, by decide +kernel⟩
  · rintro mfn hmfn - -
    refine .inl ⟨by rcases hmfn with rfl | rfl <;> decide +kernel, fun rip b hb _ => ?_⟩
    rw [guestStore_cache, rebind_cache, write_cache, jump_cache] at hb
    obtain ⟨-, rfl⟩ := jump_cached hb
    rfl
  · rw [guestStore_cache, rebind_cache, write_cache, jump_cache] at hb
    obtain ⟨-, rfl⟩ := jump_cached hb
    rfl

end X86Sim
