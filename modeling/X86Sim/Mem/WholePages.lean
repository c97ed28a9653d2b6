import X86Sim.Mem.PageRanges

/-!
# Ranges of whole pages (`addrspace.cpp`)

What `map`, `unmap`, `protect` and `write` do page by page when they are given whole pages.

* `map_pages`, `unmap_pages`, `protect_pages`, `write_pages`: the pages of the range, and
  that the others stay the same.
* `Tidy.sets`: only mapped pages have a protection, before and after.
-/

namespace X86Sim.AddressSpace

variable {m m' m'' : AddressSpace} {start len page : ℕ} {prot : Protection} {alloc : ℕ}

/-- The start of a page of the 48-bit space. -/
def IsPage (page : ℕ) : Prop := page % kPageSize = 0 ∧ page < addressSpaceSize

/-- A range of one or more whole pages. -/
structure Whole (start len : ℕ) : Prop where
  aligned : start % kPageSize = 0
  whole : len % kPageSize = 0
  pos : 0 < len

/-- `m'` has the page as `m` has it: whether it is mapped, its protection and what it holds. -/
structure SamePage (m m' : AddressSpace) (page : ℕ) : Prop where
  mapped : m'.mapped page = m.mapped page
  protection : m'.protectionAt page = m.protectionAt page
  contents : m.mapped page = true → ∀ i < kPageSize, m'.bytes (page + i) = m.bytes (page + i)

theorem SamePage.refl (m : AddressSpace) (page : ℕ) : SamePage m m page := ⟨rfl, rfl, fun _ _ _ => rfl⟩

theorem SamePage.trans (h : SamePage m m' page) (h' : SamePage m' m'' page) : SamePage m m'' page := by
  refine ⟨h'.mapped.trans h.mapped, h'.protection.trans h.protection, ?_⟩
  intro hmapped i hi
  rw [h'.contents (h.mapped.trans hmapped) i hi, h.contents hmapped i hi]

/-- A mapped page that stays the same keeps its bytes. -/
theorem SamePage.bytes {a : ℕ} (h : SamePage m m' (pageFloor a)) (hmapped : m.mapped (pageFloor a) = true) :
    m'.bytes a = m.bytes a := by
  have hsum : pageFloor a + a % kPageSize = a := by
    simp only [pageFloor, kPageSize]
    omega
  have hbyte := h.contents hmapped (a % kPageSize) (Nat.mod_lt _ (by decide))
  rwa [hsum] at hbyte

/-- Only mapped pages have a protection, and none is mapped beyond 48 bits. -/
structure Tidy (m : AddressSpace) : Prop where
  backed : ∀ page, IsPage page → m.protectionAt page ≠ .none → m.mapped page = true
  below : ∀ page, addressSpaceSize ≤ page → m.mapped page = false

/-- A page that is not mapped, before or after, is the same. -/
theorem Tidy.same_of_unmapped (h : m.Tidy) (hp : IsPage page) (hold : m.mapped page = false)
    (hnew : m'.mapped page = false) (hprot : m'.protectionAt page = .none) : SamePage m m' page := by
  refine ⟨hnew.trans hold.symm, ?_, ?_⟩
  · rw [hprot]
    by_contra hne
    rw [h.backed page hp fun heq => hne heq.symm] at hold
    cases hold
  · intro hmapped
    rw [hold] at hmapped
    cases hmapped

theorem Tidy.congr (h : m.Tidy) (hmapped : m'.mapped = m.mapped) (hprot : ∀ a, m'.protectionAt a = m.protectionAt a) :
    m'.Tidy := by
  refine ⟨?_, ?_⟩
  · intro page hp hne
    rw [hprot] at hne
    rw [hmapped]
    exact h.backed page hp hne
  · intro page hp
    rw [hmapped]
    exact h.below page hp

theorem tidy_init (machine : Bool) : (init machine).Tidy := ⟨fun _ _ h => absurd rfl h, fun _ _ => rfl⟩

theorem pageCeil_of_whole (hlen : len % kPageSize = 0) (hlt : len < 2 ^ 64) : pageCeil len = some len := by
  have hsmall : ¬ len > 2 ^ 64 - 1 - (kPageSize - 1) := by
    simp only [kPageSize] at *
    omega
  have hfloor : pageFloor (len + (kPageSize - 1)) = len := by
    simp only [pageFloor, kPageSize] at *
    omega
  rw [pageCeil, if_neg hsmall, hfloor]

theorem pageFloor_of_whole (h : start % kPageSize = 0) : pageFloor start = start := by
  rw [pageFloor, h, Nat.sub_zero]

theorem rangeOverflows_eq_false (hfit : start + len ≤ 2 ^ 64) : rangeOverflows start len = false := by
  rw [Bool.eq_false_iff]
  intro hover
  simp only [rangeOverflows, Bool.and_eq_true, bne_iff_ne, ne_eq, decide_eq_true_eq] at hover
  omega

/-- Below 48 bits an attribute is harmless. -/
theorem Attr.harmless_of_le {t : Attr} (h : t.start + t.len ≤ addressSpaceSize) (hpos : 0 < t.len) : t.Harmless m := by
  have hlt : t.start < addressSpaceSize := by omega
  refine ⟨?_, .inl h⟩
  rw [Nat.mod_eq_of_lt hlt]
  exact h

/-- The bytes of a page outside a range of whole pages are outside the range. -/
theorem Whole.off {size i : ℕ} (hw : Whole start len) (hp : IsPage page) (hout : ¬ (start ≤ page ∧ page < start + len))
    (hsize : size ≤ len) (hi : i < kPageSize) : page + i < start ∨ start + size ≤ page + i := by
  have haligned := hw.aligned
  have hwhole := hw.whole
  have hpage := hp.1
  simp only [kPageSize] at *
  omega

theorem Whole.pageFloor_mem {a : ℕ} (hw : Whole start len) (hlo : start ≤ a) (hhi : a < start + len) :
    start ≤ pageFloor a ∧ pageFloor a < start + len :=
  (pageFloor_mem_iff hw.aligned hw.whole).2 ⟨hlo, hhi⟩

/-! ### `setattr` on whole pages -/

section Sets

variable {t : Attr}

/-- A page of a harmless range lies within the 48-bit range itself. -/
theorem Attr.Harmless.own (hh : t.Harmless m) {a : ℕ} (hlt : a < addressSpaceSize) (hlo : t.start ≤ a) :
    t.start + t.len ≤ addressSpaceSize := by
  obtain ⟨hin, -⟩ := hh
  rw [Nat.mod_eq_of_lt (lt_of_le_of_lt hlo hlt)] at hin
  exact hin

theorem Sets.inside_protection (hs : Sets m m' t) (hh : t.Harmless m) (hp : IsPage page) (hlo : t.start ≤ page)
    (hhi : page < t.start + t.len) : m'.protectionAt page = t.prot := by
  have hmod : t.start % addressSpaceSize = t.start := Nat.mod_eq_of_lt (lt_of_le_of_lt hlo hp.2)
  rw [hs.protectionAt_eq hh.1 hp.2, hmod, if_pos ⟨hlo, hhi⟩]

theorem Sets.outside_protection (hs : Sets m m' t) (hh : t.Harmless m) (hp : IsPage page)
    (hout : ¬ (t.start ≤ page ∧ page < t.start + t.len)) : m'.protectionAt page = m.protectionAt page :=
  (sameProtection_of_lt hp.2).1 (hs.same hh hout)

/-- Bits that are cleared are clear, of the pages of a harmless range. -/
theorem Sets.protectionAt_cleared (hs : Sets m m' t) (hh : t.Harmless m) (hnone : t.prot = .none) {a : ℕ}
    (hlo : t.start ≤ a) (hhi : a < t.start + t.len) : m'.protectionAt a = .none := by
  obtain ⟨hin, hown | ⟨-, hclear⟩⟩ := hh
  · have hlt : a < addressSpaceSize := by omega
    rw [hs.protectionAt_eq hin hlt, Nat.mod_eq_of_lt (lt_of_le_of_lt hlo hlt), if_pos ⟨hlo, hhi⟩, hnone]
  · have hold := protectionAt_of_clear hin hclear hlo hhi
    simp only [protectionAt, Protection.none, Protection.mk.injEq] at hold
    simp only [protectionAt, hs.read, hs.write, hs.execute, hnone, Protection.none, makeRange, hold, ite_self]

/-- The pages below such a range keep theirs, within 48 bits or not. -/
theorem Sets.protectionAt_below (hs : Sets m m' t) (hh : t.Harmless m) (hnone : t.prot = .none) {a : ℕ}
    (hlt : a < t.start) : m'.protectionAt a = m.protectionAt a := by
  obtain ⟨hin, hown | ⟨-, hclear⟩⟩ := hh
  · have ha : a < addressSpaceSize := by omega
    rw [hs.protectionAt_eq hin ha, if_neg]
    rw [Nat.mod_eq_of_lt (show t.start < addressSpaceSize by have := hs.pos; omega)]
    omega
  · have halias : ∀ m₀ : AddressSpace, m₀.protectionAt a = m₀.protectionAt (a % addressSpaceSize) := fun m₀ => by
      simp only [protectionAt, pageid, Nat.mod_mod]
    rw [halias m', halias m, hs.protectionAt_eq hin (Nat.mod_lt _ (by decide))]
    split
    · rename_i hmask
      rw [hnone, hclear _ hmask.1 hmask.2]
    · rfl

/-- A page outside the range stays the same if its contents do. -/
theorem Sets.samePage (hs : Sets m m' t) (hh : t.Harmless m) (hp : IsPage page)
    (hout : ¬ (t.start ≤ page ∧ page < t.start + t.len))
    (hbytes : ∀ i < kPageSize, m'.bytes (page + i) = m.bytes (page + i)) : SamePage m m' page := by
  refine ⟨?_, hs.outside_protection hh hp hout, fun _ => hbytes⟩
  apply hs.outside
  omega

/-- **Protections stay with mapped pages.** -/
theorem Tidy.sets (h : m.Tidy) (hs : Sets m m' t) (hh : t.Harmless m)
    (hbelow : ∀ page, addressSpaceSize ≤ page → m'.mapped page = false) : m'.Tidy := by
  refine ⟨?_, hbelow⟩
  intro page hp hne
  by_cases hin : t.start ≤ page ∧ page < t.start + t.len
  · have hown := hh.own hp.2 hin.1
    rw [hs.inside_protection hh hp hin.1 hin.2] at hne
    refine hs.inside hne ?_ page hp.1 hin.1 hin.2
    exact lt_of_le_of_lt hown (by decide)
  · rw [hs.outside_protection hh hp hin] at hne
    have hout : page < t.start ∨ t.start + t.len ≤ page := by omega
    rw [hs.outside page hout]
    exact h.backed page hp hne

end Sets

/-! ### `map` -/

theorem map_eq (hw : Whole start len) (hfit : start + len ≤ 2 ^ 64) (hlt : len < 2 ^ 64) :
    m.map start len prot alloc =
      if alloc < len / kPageSize then ⟨.error .outOfMemory, m.insertPages start alloc, none⟩
      else if alloc < mapSteps (len / kPageSize) then
        ⟨.error .outOfMemory, (m.insertPages start (len / kPageSize)).setattrFirst start len prot (alloc - len / kPageSize),
          none⟩
      else ⟨.ok (), (m.insertPages start (len / kPageSize)).setattr start len prot, some (start, len)⟩ := by
  rw [map, if_neg hw.pos.ne', rangeOverflows_eq_false hfit, if_neg Bool.false_ne_true, mapOrThrow,
    pageCeil_of_whole hw.whole hlt, pageFloor_of_whole hw.aligned]
  dsimp only
  by_cases halloc : alloc < len / kPageSize
  · rw [if_pos halloc, if_pos halloc]
  · rw [if_neg halloc, if_neg halloc]
    by_cases hbits : alloc < mapSteps (len / kPageSize)
    · rw [if_pos hbits, if_pos hbits]
    · rw [if_neg hbits, if_neg hbits]

theorem map_ok (hw : Whole start len) (hfit : start + len ≤ 2 ^ 64) (hlt : len < 2 ^ 64)
    (halloc : mapSteps (len / kPageSize) ≤ alloc) : m.map start len prot alloc =
      ⟨.ok (), (m.insertPages start (len / kPageSize)).setattr start len prot, some (start, len)⟩ := by
  have hpages : ¬alloc < len / kPageSize := by
    unfold mapSteps at halloc
    omega
  rw [map_eq hw hfit hlt, if_neg hpages, if_neg (Nat.not_lt.2 halloc)]

theorem map_error (hw : Whole start len) (hfit : start + len ≤ 2 ^ 64) (hlt : len < 2 ^ 64)
    (halloc : alloc < mapSteps (len / kPageSize)) : ∃ m', m.map start len prot alloc = ⟨.error .outOfMemory, m', none⟩ := by
  rw [map_eq hw hfit hlt]
  by_cases hpages : alloc < len / kPageSize
  · rw [if_pos hpages]
    exact ⟨_, rfl⟩
  · rw [if_neg hpages, if_pos halloc]
    exact ⟨_, rfl⟩

/-- What a `map` that has all its allocations does. -/
structure Maps (m m' : AddressSpace) (start len : ℕ) (prot : Protection) : Prop where
  mapped : ∀ page, IsPage page → start ≤ page → page < start + len → m'.mapped page = true
  protection : ∀ page, IsPage page → start ≤ page → page < start + len → m'.protectionAt page = prot
  zero : ∀ a, start ≤ a → a < start + len → m'.bytes a = 0
  outside : ∀ page, IsPage page → ¬ (start ≤ page ∧ page < start + len) → SamePage m m' page
  tidy : m.Tidy → m'.Tidy

theorem insertPages_zero : m.insertPages start 0 = m := by
  have hempty : ∀ a, ¬ (start ≤ a ∧ a < start + 0 * kPageSize) := by
    intro a
    omega
  have hbytes : (fun a => if start ≤ a ∧ a < start + 0 * kPageSize then 0 else m.bytes a) = m.bytes := by
    funext a
    exact if_neg (hempty a)
  have hmapped : (fun p => m.mapped p || (p % kPageSize == 0 && decide (start ≤ p) &&
      decide (p < start + 0 * kPageSize))) = m.mapped := by
    funext p
    have hnot : (p % kPageSize == 0 && decide (start ≤ p) && decide (p < start + 0 * kPageSize)) = false := by
      rw [Bool.eq_false_iff]
      intro h
      simp only [Bool.and_eq_true, decide_eq_true_eq] at h
      exact hempty p ⟨h.1.2, h.2⟩
    rw [hnot, Bool.or_false]
  rw [insertPages, hbytes, hmapped]

/-- An allocator that has nothing left changes nothing. -/
theorem map_short (hw : Whole start len) (hfit : start + len ≤ 2 ^ 64) (hlt : len < 2 ^ 64) :
    m.map start len prot 0 = ⟨.error .outOfMemory, m, none⟩ := by
  have hpages : 0 < len / kPageSize := by
    have hwhole := hw.whole
    have hpos := hw.pos
    simp only [kPageSize] at *
    omega
  rw [map_eq hw hfit hlt, if_pos hpages, insertPages_zero]

theorem map_pages (hw : Whole start len) (hfit : start + len ≤ addressSpaceSize)
    (halloc : mapSteps (len / kPageSize) ≤ alloc) :
    (m.map start len prot alloc).result = .ok () ∧ Maps m (m.map start len prot alloc).space start len prot := by
  have hsize : addressSpaceSize = 2 ^ 48 := rfl
  have hnum : len / kPageSize * kPageSize = len := Nat.div_mul_cancel (Nat.dvd_of_mod_eq_zero hw.whole)
  rw [map_ok hw (by omega) (by omega) halloc]
  set m' := (m.insertPages start (len / kPageSize)).setattr start len prot with hm'
  have hmapped : ∀ page, m'.mapped page =
      (m.mapped page || (page % kPageSize == 0 && start ≤ page && page < start + len)) := by
    intro page
    rw [hm']
    simp only [setattr, insertPages, hnum]
  have hbytes : ∀ a, m'.bytes a = if start ≤ a ∧ a < start + len then 0 else m.bytes a := by
    intro a
    rw [hm']
    simp only [setattr, insertPages, hnum]
  have hinside : ∀ page, page % kPageSize = 0 → start ≤ page → page < start + len → m'.mapped page = true := by
    intro page hp hlo hhi
    rw [hmapped]
    simp [hp, hlo, hhi]
  have hs : Sets m m' ⟨start, len, prot⟩ := by
    refine ⟨⟨hw.aligned, hw.whole⟩, hw.pos, by dsimp only; omega, rfl, rfl, rfl, ?_, ?_⟩
    · intro a hout
      rw [hmapped]
      dsimp only at hout
      have hnot : (a % kPageSize == 0 && decide (start ≤ a) && decide (a < start + len)) = false := by
        rw [Bool.eq_false_iff]
        intro h
        simp only [Bool.and_eq_true, decide_eq_true_eq] at h
        omega
      rw [hnot, Bool.or_false]
    · intro _ _ page hp hlo hhi
      exact hinside page hp hlo hhi
  -- whole pages below the end of the space spill into no other page
  have hh : Attr.Harmless m ⟨start, len, prot⟩ := Attr.harmless_of_le hfit hw.pos
  refine ⟨rfl, ?_, ?_, ?_, ?_, ?_⟩
  · intro page hp hlo hhi
    exact hinside page hp.1 hlo hhi
  · intro page hp hlo hhi
    exact hs.inside_protection hh hp hlo hhi
  · intro a hlo hhi
    rw [hbytes, if_pos ⟨hlo, hhi⟩]
  · intro page hp hout
    apply hs.samePage hh hp hout
    intro i hi
    rw [hbytes, if_neg]
    have haligned := hw.aligned
    have hwhole := hw.whole
    have hpage := hp.1
    simp only [kPageSize] at *
    omega
  · intro ht
    apply ht.sets hs hh
    intro page hp
    have hout : page < start ∨ start + len ≤ page := by omega
    rw [hs.outside page hout]
    exact ht.below page hp

/-! ### `unmap` -/

/-- What an `unmap` of whole pages does. -/
structure Unmaps (m m' : AddressSpace) (start len : ℕ) : Prop where
  unmapped : ∀ page, IsPage page → start ≤ page → page < start + len → m'.mapped page = false
  protection : ∀ page, IsPage page → start ≤ page → page < start + len → m'.protectionAt page = .none
  outside : ∀ page, IsPage page → ¬ (start ≤ page ∧ page < start + len) → SamePage m m' page
  tidy : m.Tidy → m'.Tidy

/-- `unmap` maps no page. -/
theorem mapped_of_unmap {size : ℕ} (h : (m.unmap start size).space.mapped page = true) : m.mapped page = true := by
  simp only [unmap] at h
  split at h
  · exact h
  · split at h
    · exact h
    · simp only [setattr] at h
      split at h
      · cases h
      · exact h

theorem rangeOf_of_whole (hw : Whole start len) (hfit : start + len ≤ 2 ^ 64) (hlt : len < 2 ^ 64) :
    rangeOf start len = some (start, len) := by
  have haligned := hw.aligned
  have hwhole := hw.whole
  have hpos := hw.pos
  rw [rangeOf, pageFloor_of_whole haligned]
  rcases Nat.lt_or_ge (start + len) (2 ^ 64) with hin | hend
  · have hsum : (start + len) % kPageSize = 0 := by
      simp only [kPageSize] at *
      omega
    rw [Nat.mod_eq_of_lt hin, pageCeil_of_whole hsum hin, Option.map_some]
    have hlen : (start + len + (2 ^ 64 - start)) % 2 ^ 64 = len := by omega
    rw [hlen]
  · -- the end wraps to zero
    have hzero : (start + len) % 2 ^ 64 = 0 := by omega
    have hceil : pageCeil 0 = some 0 := rfl
    have hlen : (0 + (2 ^ 64 - start)) % 2 ^ 64 = len := by omega
    rw [hzero, hceil, Option.map_some, hlen]

/-- Whole pages below 2 ^ 64 are given as words. -/
theorem toNat_of_whole (hw : Whole start len) (hfit : start + len ≤ 2 ^ 64) (hlt : len < 2 ^ 64) :
    (BitVec.ofNat 64 start).toNat = start ∧ (BitVec.ofNat 64 len).toNat = len := by
  have hpos := hw.pos
  rw [BitVec.toNat_ofNat, BitVec.toNat_ofNat]
  exact ⟨Nat.mod_eq_of_lt (by omega), Nat.mod_eq_of_lt hlt⟩

theorem unmap_pages (hw : Whole start len) (hfit : start + len ≤ 2 ^ 64) (hlt : len < 2 ^ 64)
    (hh : Attr.Harmless m ⟨start, len, .none⟩) : Unmaps m (m.unmap start len).space start len := by
  obtain ⟨hstart, hlen⟩ := toNat_of_whole hw hfit hlt
  have hrange := rangeOf_of_whole hw hfit hlt
  have hrun := @unmap_run m (BitVec.ofNat 64 start) (BitVec.ofNat 64 len) len
  rw [hstart, hlen, pageFloor_of_whole hw.aligned] at hrun
  obtain ⟨hs, hbytes, hgone⟩ := hrun hw.pos.ne' hfit hrange
  refine ⟨?_, ?_, ?_, ?_⟩
  · intro page hp hlo hhi
    have hown := hh.own hp.2 hlo
    dsimp only at hown
    refine hgone ?_ page hp.1 hlo hhi
    exact lt_of_le_of_lt hown (by decide)
  · intro page hp hlo hhi
    exact hs.inside_protection hh hp hlo hhi
  · intro page hp hout
    apply hs.samePage hh hp hout
    intro i _
    rw [hbytes]
  · intro ht
    apply ht.sets hs hh
    intro page hp
    by_contra hne
    have hold := mapped_of_unmap (by simpa using hne)
    rw [ht.below page hp] at hold
    cases hold

/-! ### `protect` -/

theorem protect_pages (hw : Whole start len) (hfit : start + len ≤ 2 ^ 64) (hlt : len < 2 ^ 64)
    (hh : Attr.Harmless m ⟨start, len, prot⟩) :
    (∀ page, IsPage page → ¬ (start ≤ page ∧ page < start + len) → SamePage m (m.protect start len prot).space page) ∧
      (m.Tidy → (m.protect start len prot).space.Tidy) := by
  obtain ⟨hstart, hlen⟩ := toNat_of_whole hw hfit hlt
  have hrange := rangeOf_of_whole hw hfit hlt
  have hrun := @protect_run m prot (BitVec.ofNat 64 start) (BitVec.ofNat 64 len) (start, len)
  rw [hstart, hlen] at hrun
  obtain ⟨hall, hsome⟩ := hrun hw.pos.ne' hfit hrange
  by_cases hexamined : ∀ page, Examined start len (start, len) page → m.mapped page = true
  · obtain ⟨-, hs⟩ := hall hexamined
    obtain ⟨hmapped, hbytes⟩ := @protect_contents m prot start len
    constructor
    · intro page hp hout
      apply hs.samePage hh hp hout
      intro i _
      rw [hbytes]
    · intro ht
      apply ht.sets hs hh
      intro page hp
      rw [hmapped]
      exact ht.below page hp
  · push Not at hexamined
    obtain ⟨page, hpage, hunmapped⟩ := hexamined
    rw [hsome ⟨page, hpage, by simpa using hunmapped⟩]
    exact ⟨fun page _ _ => SamePage.refl m page, id⟩

/-! ### `write` -/

theorem writeLoop_ok (fuel : ℕ) (m : AddressSpace) (addr : ℕ) (data : List Byte)
    (h : ∀ a, addr ≤ a → a < addr + data.length → m.mapped (pageFloor a) = true) :
    (writeLoop fuel m addr data).1 = .ok () := by
  induction fuel generalizing m addr data with
  | zero => rfl
  | succ fuel ih =>
    rw [writeLoop]
    split
    · rfl
    · rename_i hne
      have hpos : 0 < data.length := by
        rw [List.length_pos_iff]
        intro hnil
        rw [hnil] at hne
        exact hne rfl
      have hhead : m.mapped (pageFloor addr) = true := h addr (le_refl _) (by omega)
      rw [pageVirtToMapped, if_pos hhead]
      dsimp only
      apply ih
      intro a hlo hhi
      rw [List.length_drop] at hhi
      have hrest := h a (by omega) (by omega)
      exact hrest

theorem write_ok {data : List Byte} (hpos : 0 < data.length) (hfit : start + data.length ≤ 2 ^ 64)
    (h : ∀ a, start ≤ a → a < start + data.length → m.mapped (pageFloor a) = true) :
    (m.write start data).result = .ok () := by
  have hne : data.isEmpty = false := by
    rw [List.isEmpty_eq_false_iff]
    exact List.length_pos_iff.1 hpos
  rw [write, hne, rangeOverflows_eq_false hfit]
  exact writeLoop_ok _ _ _ _ h

/-- A write keeps the pages, and what the pages outside its range hold. -/
theorem write_samePage {data : List Byte} (hout : page + kPageSize ≤ start ∨ start + data.length ≤ page) :
    SamePage m (m.write start data).space page := by
  obtain ⟨hprot, hmapped⟩ := @write_protections m start data
  refine ⟨by rw [hmapped], hprot page, ?_⟩
  intro _ i hi
  apply write_frame
  omega

theorem Tidy.write (h : m.Tidy) (start : ℕ) (data : List Byte) : (m.write start data).space.Tidy := by
  obtain ⟨hprot, hmapped⟩ := @write_protections m start data
  exact h.congr hmapped hprot

/-! ### `read` -/

theorem readLoop_ok (fuel addr n : ℕ) {bytes : List Byte} (hfuel : n ≤ fuel) (h : m.readLoop fuel addr n = .ok bytes) :
    bytes.length = n ∧ ∀ a, addr ≤ a → a < addr + n → m.mapped (pageFloor a) = true := by
  induction fuel generalizing addr n bytes with
  | zero =>
    obtain rfl := Nat.le_zero.1 hfuel
    obtain rfl := Except.ok.inj h
    refine ⟨rfl, ?_⟩
    intro a hlo hhi
    omega
  | succ fuel ih =>
    rw [readLoop] at h
    by_cases hzero : n = 0
    · rw [if_pos hzero] at h
      obtain rfl := Except.ok.inj h
      refine ⟨hzero.symm, ?_⟩
      intro a hlo hhi
      omega
    · rw [if_neg hzero, pageVirtToMapped] at h
      by_cases hmapped : m.mapped (pageFloor addr) = true
      · rw [if_pos hmapped] at h
        dsimp only at h
        have hpage : addr % kPageSize < kPageSize := Nat.mod_lt _ (by decide)
        set chunk := min n (kPageSize - addr % kPageSize) with hchunk
        cases hrest : m.readLoop fuel (addr + chunk) (n - chunk) with
        | error e =>
          rw [hrest] at h
          cases h
        | ok rest =>
          rw [hrest] at h
          obtain rfl := Except.ok.inj h
          obtain ⟨hlength, hpages⟩ := ih (addr + chunk) (n - chunk) (by omega) hrest
          constructor
          · rw [List.length_append, hlength, readRange, List.length_map, List.length_range]
            omega
          · intro a hlo hhi
            by_cases hin : a < addr + chunk
            · -- a chunk never leaves its page, so one lookup answers for all of it
              have hsame : pageFloor a = pageFloor addr := by
                simp only [pageFloor, kPageSize] at *
                omega
              rw [hsame]
              exact hmapped
            · exact hpages a (by omega) (by omega)
      · rw [if_neg hmapped] at h
        cases h

/-- A read that succeeds is of mapped pages. -/
theorem read_ok {size : ℕ} {bytes : List Byte} (h : m.read start size = .ok bytes) :
    bytes.length = size ∧ ∀ a, start ≤ a → a < start + size → m.mapped (pageFloor a) = true := by
  rw [read] at h
  split at h
  · cases h
  · split at h
    · cases h
    · exact readLoop_ok size start size le_rfl h

end X86Sim.AddressSpace
