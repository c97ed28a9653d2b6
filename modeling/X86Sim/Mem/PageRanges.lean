import X86Sim.Mem.Protections

/-!
# The pages of a request (`addrspace.cpp`)

A request names bytes, an operation works on pages. `map` rounds the start down and the
size up, `unmap` and `protect` round the start down and add the size to it; so a request
that starts inside a page and spills over its last boundary loses its last page. The bits
are set through the low 48 bits of the address, the pages looked up under all 64.

* `protect_right_iff`: exactly when `protect` does what its comment promises.
* `map_right_iff`: exactly when `map` covers what was asked of it.
-/

namespace X86Sim

def Protection.Within (q p : Protection) : Prop :=
  (q.read = true → p.read = true) ∧ (q.write = true → p.write = true) ∧
    (q.execute = true → p.execute = true)

theorem Protection.within_antisymm {p q : Protection} (hpq : p.Within q) (hqp : q.Within p) : p = q := by
  obtain ⟨hr, hw, hx⟩ := hpq
  obtain ⟨hr', hw', hx'⟩ := hqp
  cases p
  cases q
  simp only at *
  congr 1
  · exact Bool.eq_iff_iff.2 ⟨hr, hr'⟩
  · exact Bool.eq_iff_iff.2 ⟨hw, hw'⟩
  · exact Bool.eq_iff_iff.2 ⟨hx, hx'⟩

theorem Protection.within_refl (p : Protection) : p.Within p := ⟨id, id, id⟩

theorem Protection.within_none {q : Protection} : q.Within .none ↔ q = .none := by
  constructor
  · rintro ⟨hr, hw, hx⟩
    exact AddressSpace.Protection.eq_none_of (Bool.eq_false_iff.2 fun h => Bool.false_ne_true (hr h))
      (Bool.eq_false_iff.2 fun h => Bool.false_ne_true (hw h))
      (Bool.eq_false_iff.2 fun h => Bool.false_ne_true (hx h))
  · rintro rfl
    exact Protection.within_refl _

namespace AddressSpace

variable {m m' : AddressSpace}

/-! ### Pages and protections as the cores see them -/

/-- The page holds a byte of `[start, start + size)`. -/
def Touches (start size page : ℕ) : Prop := ∃ a, start ≤ a ∧ a < start + size ∧ pageFloor a = page

/-- Address `a` grants exactly `prot`. -/
def Protected (m : AddressSpace) (a : ℕ) (prot : Protection) : Prop :=
  ∀ q, m.check a q = true ↔ q.Within prot

/-- `m'` grants at `a` what `m` grants. -/
def SameProtection (m m' : AddressSpace) (a : ℕ) : Prop := ∀ q, m'.check a q = m.check a q

theorem touches_iff {start size page : ℕ} (hsize : 0 < size) :
    Touches start size page ↔ page % kPageSize = 0 ∧ page < start + size ∧ start < page + kPageSize := by
  constructor
  · rintro ⟨a, hlo, hhi, rfl⟩
    refine ⟨pageFloor_dvd a, ?_, ?_⟩ <;> simp only [pageFloor, kPageSize] <;> omega
  · rintro ⟨halign, hlo, hhi⟩
    refine ⟨max page start, le_max_right _ _, ?_, ?_⟩
    · omega
    · simp only [pageFloor, kPageSize] at *
      omega

theorem check_within {a : ℕ} (h : a < addressSpaceSize) (q : Protection) :
    m.check a q = true ↔ q.Within (m.protectionAt a) := by
  rw [check_of_lt h]
  simp only [Bool.and_eq_true, Bool.or_eq_true, Bool.not_eq_true', and_assoc]
  unfold Protection.Within
  cases q.read <;> cases q.write <;> cases q.execute <;> simp

theorem check_none (a : ℕ) : m.check a .none = true := rfl

theorem protected_of_lt {a : ℕ} {prot : Protection} (h : a < addressSpaceSize) :
    m.Protected a prot ↔ m.protectionAt a = prot := by
  constructor
  · intro hp
    apply Protection.within_antisymm
    · exact (hp _).1 ((check_within h _).2 (Protection.within_refl _))
    · exact (check_within h _).1 ((hp _).2 (Protection.within_refl _))
  · rintro rfl q
    exact check_within h q

/-- Outside the 48-bit space only the empty protection is ever granted. -/
theorem protected_of_le {a : ℕ} {prot : Protection} (h : addressSpaceSize ≤ a) :
    m.Protected a prot ↔ prot = .none := by
  constructor
  · intro hp
    by_contra hne
    exact absurd (lt_of_check hne ((hp prot).2 (Protection.within_refl _))) (not_lt.2 h)
  · rintro rfl q
    rw [Protection.within_none]
    constructor
    · intro hq
      by_contra hne
      exact absurd (lt_of_check hne hq) (not_lt.2 h)
    · rintro rfl
      exact check_none a

theorem sameProtection_of_lt {a : ℕ} (h : a < addressSpaceSize) :
    SameProtection m m' a ↔ m'.protectionAt a = m.protectionAt a := by
  rw [← protected_of_lt h]
  constructor
  · intro hs q
    rw [hs q]
    exact check_within h q
  · intro hp q
    exact Bool.eq_iff_iff.2 ((hp q).trans (check_within h q).symm)

theorem sameProtection_of_le {a : ℕ} (h : addressSpaceSize ≤ a) : SameProtection m m' a := by
  have hm := (protected_of_le (m := m) h).2 rfl
  have hm' := (protected_of_le (m := m') h).2 rfl
  intro q
  exact Bool.eq_iff_iff.2 ((hm' q).trans (hm q).symm)

theorem SameProtection.refl (m : AddressSpace) (a : ℕ) : SameProtection m m a := fun _ => rfl

/-! ### Setting a range -/

section Sets

variable {t : Attr}

/-- A harmless range grants what it was given. -/
theorem Sets.protected (hs : Sets m m' t) (hh : t.Harmless m) {a : ℕ} (hlo : t.start ≤ a)
    (hhi : a < t.start + t.len) : m'.Protected a t.prot := by
  obtain ⟨hin, hcase⟩ := hh
  rcases hcase with hown | ⟨hnone, _⟩
  · have hmod : t.start % addressSpaceSize = t.start := Nat.mod_eq_of_lt (by omega)
    rw [protected_of_lt (by omega), hs.protectionAt_eq hin (by omega), hmod, if_pos ⟨hlo, hhi⟩]
  · rcases lt_or_ge a addressSpaceSize with hlt | hge
    · have hmod : t.start % addressSpaceSize = t.start := Nat.mod_eq_of_lt (by omega)
      rw [protected_of_lt hlt, hs.protectionAt_eq hin hlt, hmod, if_pos ⟨hlo, hhi⟩]
    · rw [protected_of_le hge]
      exact hnone

/-- And leaves every other address alone. -/
theorem Sets.same (hs : Sets m m' t) (hh : t.Harmless m) {a : ℕ}
    (hout : ¬ (t.start ≤ a ∧ a < t.start + t.len)) : SameProtection m m' a := by
  obtain ⟨hin, hcase⟩ := hh
  rcases lt_or_ge a addressSpaceSize with hlt | hge
  · rw [sameProtection_of_lt hlt, hs.protectionAt_eq hin hlt]
    split
    · rename_i hmask
      rcases hcase with hown | ⟨hnone, hclear⟩
      · have hpos := hs.pos
        have hmod : t.start % addressSpaceSize = t.start := Nat.mod_eq_of_lt (by omega)
        rw [hmod] at hmask
        exact absurd hmask hout
      · rw [hnone, hclear a hmask.1 hmask.2]
    · rfl
  · exact sameProtection_of_le hge

/-- Conversely a range within the bitmap that does both is harmless: beyond 48 bits it can
grant nothing, and the bits it clears through the mask were clear. -/
theorem Sets.harmless_of (hs : Sets m m' t) (hin : t.start % addressSpaceSize + t.len ≤ addressSpaceSize)
    (hgiven : m'.Protected t.start t.prot)
    (hkept : ∀ a < addressSpaceSize, ¬ t.start ≤ a → SameProtection m m' (pageFloor a)) : t.Harmless m := by
  refine ⟨hin, ?_⟩
  by_cases hown : t.start + t.len ≤ addressSpaceSize
  · left
    exact hown
  · right
    have hbeyond : addressSpaceSize ≤ t.start := by
      by_contra hlt
      rw [Nat.mod_eq_of_lt (not_le.1 hlt)] at hin
      exact hown hin
    have hnone := (protected_of_le hbeyond).1 hgiven
    refine ⟨hnone, fun a hlo hhi => ?_⟩
    have hlt : a < addressSpaceSize := lt_of_lt_of_le hhi hin
    have hfloor : pageFloor a < addressSpaceSize := lt_of_le_of_lt (Nat.sub_le _ _) hlt
    have hsame := (sameProtection_of_lt hfloor).1 (hkept a hlt (by omega))
    rw [protectionAt_pageFloor, protectionAt_pageFloor, hs.protectionAt_eq hin hlt, if_pos ⟨hlo, hhi⟩,
      hnone] at hsame
    exact hsame.symm

end Sets

/-! ### `protect` -/

section Protect

variable (m) (start size : W64) (prot : Protection)

theorem rangeOverflows_iff {start size : W64} :
    rangeOverflows start.toNat size.toNat = true ↔
      size.toNat ≠ 0 ∧ 2 ^ 64 < start.toNat + size.toNat := by
  have hstart := start.isLt
  have hsize := size.isLt
  simp only [rangeOverflows, Bool.and_eq_true, bne_iff_ne, decide_eq_true_eq]
  omega

/-- The range that `protect` examines page by page; empty where its end wraps to zero. -/
def Examined (start size : ℕ) (r : ℕ × ℕ) (page : ℕ) : Prop :=
  pageFloor start + size ≠ 2 ^ 64 ∧ page % kPageSize = 0 ∧ r.1 ≤ page ∧ page < r.1 + r.2

/-- An examined page belongs to the request. -/
theorem Examined.touches {start size : W64} {r : ℕ × ℕ} {page : ℕ} (hsize : size.toNat ≠ 0)
    (hover : start.toNat + size.toNat ≤ 2 ^ 64) (hr : rangeOf start.toNat size.toNat = some r)
    (h : Examined start.toNat size.toNat r page) : Touches start.toNat size.toNat page := by
  obtain ⟨hwrap, halign, hlo, hhi⟩ := h
  have hno : rangeOverflows start.toNat size.toNat = false := by
    rw [Bool.eq_false_iff, ne_eq, rangeOverflows_iff]
    omega
  obtain ⟨hfst, _, _, hfits, _⟩ := rangeOf_eq start.isLt hsize size.isLt hno hr
  simp only [rangeOf, Option.map_eq_some_iff] at hr
  obtain ⟨stop, hstop, rfl⟩ := hr
  obtain ⟨hmod, hle, hlt, hmax⟩ := pageCeil_eq hstop
  rw [touches_iff (Nat.pos_of_ne_zero hsize)]
  refine ⟨halign, ?_, ?_⟩
  · have hfloor : pageFloor start.toNat ≤ start.toNat := Nat.sub_le _ _
    rw [Nat.mod_eq_of_lt (by omega)] at hle hlt
    dsimp only at hlo hhi
    have hlen : (stop + (2 ^ 64 - pageFloor start.toNat)) % 2 ^ 64 = stop - pageFloor start.toNat := by
      simp only [kPageSize] at hmax
      omega
    rw [hlen] at hhi
    simp only [kPageSize] at hmod hlt halign
    omega
  · dsimp only at hlo
    simp only [pageFloor, kPageSize] at *
    omega

/-- What `protect` does where it gets as far as its loop. -/
theorem protect_run {start size : W64} {r : ℕ × ℕ} (hsize : size.toNat ≠ 0)
    (hover : start.toNat + size.toNat ≤ 2 ^ 64) (hr : rangeOf start.toNat size.toNat = some r) :
    ((∀ page, Examined start.toNat size.toNat r page → m.mapped page = true) →
      (m.protect start.toNat size.toNat prot).result = .ok () ∧
        Sets m (m.protect start.toNat size.toNat prot).space ⟨r.1, r.2, prot⟩) ∧
    ((∃ page, Examined start.toNat size.toNat r page ∧ m.mapped page = false) →
      m.protect start.toNat size.toNat prot = ⟨.error .unmappedAddress, m, none⟩) := by
  have hno : rangeOverflows start.toNat size.toNat = false := by
    rw [Bool.eq_false_iff, ne_eq, rangeOverflows_iff]
    omega
  obtain ⟨hfst, _, _, hfits, _⟩ := rangeOf_eq start.isLt hsize size.isLt hno hr
  have hrange := hr
  simp only [rangeOf, Option.map_eq_some_iff] at hr
  obtain ⟨stop, hstop, rfl⟩ := hr
  obtain ⟨hmod, hle, hlt, hmax⟩ := pageCeil_eq hstop
  have hfloor : pageFloor start.toNat ≤ start.toNat := Nat.sub_le _ _
  have hdvd := pageFloor_dvd start.toNat
  -- the pages of the loop are the examined ones
  have hloop : ∀ page, page ∈ pagesOf (pageFloor start.toNat) stop ↔
      Examined start.toNat size.toNat
        (pageFloor start.toNat, (stop + (2 ^ 64 - pageFloor start.toNat)) % 2 ^ 64) page := by
    intro page
    rw [mem_pagesOf hdvd hmod]
    unfold Examined
    simp only [kPageSize] at *
    by_cases hwrap : pageFloor start.toNat + size.toNat = 2 ^ 64
    · rw [hwrap] at hle hlt
      simp only [hwrap, ne_eq, not_true_eq_false, false_and, iff_false]
      omega
    · rw [Nat.mod_eq_of_lt (by omega)] at hle hlt
      simp only [hwrap, ne_eq, not_false_eq_true, true_and]
      omega
  have hrun : m.protect start.toNat size.toNat prot =
      if (pagesOf (pageFloor start.toNat) stop).all m.mapped then
        ⟨.ok (), m.setattr (pageFloor start.toNat)
          ((stop + (2 ^ 64 - pageFloor start.toNat)) % 2 ^ 64) prot,
          some (pageFloor start.toNat, (stop + (2 ^ 64 - pageFloor start.toNat)) % 2 ^ 64)⟩
      else ⟨.error .unmappedAddress, m, none⟩ := by
    rw [protect, if_neg hsize, if_neg (by rw [hno]; exact Bool.false_ne_true)]
    simp only [hstop]
  constructor
  · intro hall
    have hevery : (pagesOf (pageFloor start.toNat) stop).all m.mapped = true :=
      List.all_eq_true.2 fun page hpage => hall page ((hloop page).1 hpage)
    rw [if_pos hevery] at hrun
    have hattr : (HostOp.protect start size prot).attr m = some ⟨pageFloor start.toNat,
        (stop + (2 ^ 64 - pageFloor start.toNat)) % 2 ^ 64, prot⟩ := by
      simp only [HostOp.attr, hrun, Option.isSome_some, if_true, hrange, Option.map_some]
    refine ⟨?_, sets_protect hattr⟩
    rw [hrun]
  · rintro ⟨page, hexamined, hunmapped⟩
    have hsome : ¬ (pagesOf (pageFloor start.toNat) stop).all m.mapped = true := by
      intro hall
      have hmapped := List.all_eq_true.1 hall page ((hloop page).2 hexamined)
      rw [hmapped] at hunmapped
      exact Bool.false_ne_true hunmapped.symm
    rw [hrun, if_neg hsome]

/-- `protect` never touches pages or contents. -/
theorem protect_contents (start size : ℕ) :
    (m.protect start size prot).space.mapped = m.mapped ∧
      (m.protect start size prot).space.bytes = m.bytes := by
  unfold protect
  split
  · exact ⟨rfl, rfl⟩
  · split
    · exact ⟨rfl, rfl⟩
    · dsimp only
      split
      · exact ⟨rfl, rfl⟩
      · split <;> exact ⟨rfl, rfl⟩

/-- A failing `protect` changes nothing. -/
theorem protect_failed (start size : ℕ) (h : (m.protect start size prot).result ≠ .ok ()) :
    (m.protect start size prot).space = m := by
  unfold protect at h ⊢
  split
  · rfl
  · split
    · rfl
    · rename_i hsize hover
      rw [if_neg hsize, if_neg hover] at h
      dsimp only at h ⊢
      split
      · rfl
      · rename_i stop hstop
        rw [hstop] at h
        dsimp only at h
        split
        · rename_i hall
          rw [if_pos hall] at h
          exact absurd rfl h
        · rfl

/-- All or nothing: success exactly for a request whose every page is mapped, and then the
protection of exactly those pages, through bits within the bitmap; never the contents. -/
structure ProtectRight (m : AddressSpace) (start size : ℕ) (prot : Protection) : Prop where
  ok_iff : (m.protect start size prot).result = .ok () ↔
    0 < size ∧ start + size ≤ 2 ^ 64 ∧ ∀ page, Touches start size page → m.mapped page = true
  given : (m.protect start size prot).result = .ok () → ∀ page, Touches start size page →
    (m.protect start size prot).space.Protected page prot
  kept : (m.protect start size prot).result = .ok () → ∀ page : W64, page.toNat % kPageSize = 0 →
    ¬ Touches start size page.toNat → SameProtection m (m.protect start size prot).space page.toNat
  inside : (m.protect start size prot).result = .ok () → ∀ r, rangeOf start size = some r →
    r.1 % addressSpaceSize + r.2 ≤ addressSpaceSize
  contents : (m.protect start size prot).space.mapped = m.mapped ∧
    (m.protect start size prot).space.bytes = m.bytes
  failed : (m.protect start size prot).result ≠ .ok () → (m.protect start size prot).space = m

/-- When it does that: the request is refused for its size, or its end cannot be rounded up
and a page of it is missing, or an examined page is missing, or no page is missing, the bits
set are those of the pages meant, and the page spilled over to has the protection already. -/
def ProtectCovers (m : AddressSpace) (start size : ℕ) (prot : Protection) : Prop :=
  size = 0 ∨ 2 ^ 64 < start + size ∨
    match rangeOf start size with
    | none => ∃ page, Touches start size page ∧ m.mapped page = false
    | some r =>
      (∃ page, Examined start size r page ∧ m.mapped page = false) ∨
        (∀ page, Touches start size page → m.mapped page = true) ∧ Attr.Harmless m ⟨r.1, r.2, prot⟩ ∧
          ∀ page, Touches start size page → r.1 + r.2 ≤ page → m.Protected page prot

variable {m start size prot}

theorem protect_refused (h : size.toNat = 0 ∨ 2 ^ 64 < start.toNat + size.toNat ∨
      rangeOf start.toNat size.toNat = none) :
    (m.protect start.toNat size.toNat prot).result ≠ .ok () := by
  unfold protect
  split
  · intro hok
    cases hok
  · rename_i hsize
    split
    · intro hok
      cases hok
    · rename_i hover
      rw [rangeOverflows_iff] at hover
      rcases h with h | h | h
      · exact absurd h hsize
      · exact absurd ⟨hsize, h⟩ hover
      · simp only [rangeOf, Option.map_eq_none_iff] at h
        simp only [h]
        intro hok
        cases hok

theorem protectRight_of_refused (hno : (m.protect start.toNat size.toNat prot).result ≠ .ok ())
    (hwhy : ¬ (0 < size.toNat ∧ start.toNat + size.toNat ≤ 2 ^ 64 ∧
      ∀ page, Touches start.toNat size.toNat page → m.mapped page = true)) :
    ProtectRight m start.toNat size.toNat prot where
  ok_iff := iff_of_false hno hwhy
  given hok := absurd hok hno
  kept hok := absurd hok hno
  inside hok := absurd hok hno
  contents := protect_contents m prot _ _
  failed := protect_failed m prot _ _

/-- A touched page is in the range, or the one spilled over to. -/
theorem Touches.range {r : ℕ × ℕ} {page : ℕ} (hsize : size.toNat ≠ 0)
    (hr : rangeOf start.toNat size.toNat = some r) (h : Touches start.toNat size.toNat page) :
    r.1 ≤ page := by
  simp only [rangeOf, Option.map_eq_some_iff] at hr
  obtain ⟨stop, _, rfl⟩ := hr
  obtain ⟨halign, _, hlow⟩ := (touches_iff (Nat.pos_of_ne_zero hsize)).1 h
  simp only [pageFloor, kPageSize] at *
  omega

/-- A page of the range belongs to the request. -/
theorem touches_of_range {r : ℕ × ℕ} {page : ℕ} (hsize : size.toNat ≠ 0)
    (hover : start.toNat + size.toNat ≤ 2 ^ 64) (hr : rangeOf start.toNat size.toNat = some r)
    (halign : page % kPageSize = 0) (hlo : r.1 ≤ page) (hhi : page < r.1 + r.2) :
    Touches start.toNat size.toNat page := by
  by_cases hwrap : pageFloor start.toNat + size.toNat = 2 ^ 64
  · have hno : rangeOverflows start.toNat size.toNat = false := by
      rw [Bool.eq_false_iff, ne_eq, rangeOverflows_iff]
      omega
    obtain ⟨hfst, _, _, hfits, _⟩ := rangeOf_eq start.isLt hsize size.isLt hno hr
    rw [touches_iff (Nat.pos_of_ne_zero hsize)]
    simp only [pageFloor, kPageSize] at *
    omega
  · exact Examined.touches hsize hover hr ⟨hwrap, halign, hlo, hhi⟩

/-- **`protect`** keeps its promise exactly when the request ends on the pages it names. -/
theorem protect_right_iff (m : AddressSpace) (start size : W64) (prot : Protection) :
    ProtectRight m start.toNat size.toNat prot ↔ ProtectCovers m start.toNat size.toNat prot := by
  by_cases hsize : size.toNat = 0
  · refine iff_of_true (protectRight_of_refused (protect_refused (.inl hsize)) ?_) (.inl hsize)
    omega
  by_cases hover : 2 ^ 64 < start.toNat + size.toNat
  · refine iff_of_true (protectRight_of_refused (protect_refused (.inr (.inl hover))) ?_)
      (.inr (.inl hover))
    omega
  have hle : start.toNat + size.toNat ≤ 2 ^ 64 := not_lt.1 hover
  have hreduce : ProtectCovers m start.toNat size.toNat prot ↔
      match rangeOf start.toNat size.toNat with
      | none => ∃ page, Touches start.toNat size.toNat page ∧ m.mapped page = false
      | some r =>
        (∃ page, Examined start.toNat size.toNat r page ∧ m.mapped page = false) ∨
          (∀ page, Touches start.toNat size.toNat page → m.mapped page = true) ∧
            Attr.Harmless m ⟨r.1, r.2, prot⟩ ∧
            ∀ page, Touches start.toNat size.toNat page → r.1 + r.2 ≤ page → m.Protected page prot := by
    unfold ProtectCovers
    simp only [hsize, hover, false_or]
  rw [hreduce]
  cases hr : rangeOf start.toNat size.toNat with
  | none =>
    have hno : (m.protect start.toNat size.toNat prot).result ≠ .ok () := protect_refused (.inr (.inr hr))
    constructor
    · intro hright
      by_contra hall
      push Not at hall
      apply hno
      rw [hright.ok_iff]
      refine ⟨Nat.pos_of_ne_zero hsize, hle, fun page hpage => ?_⟩
      exact Bool.eq_true_of_not_eq_false (hall page hpage)
    · rintro ⟨page, htouch, hunmapped⟩
      apply protectRight_of_refused hno
      rintro ⟨_, _, hall⟩
      rw [hall page htouch] at hunmapped
      exact Bool.false_ne_true hunmapped.symm
  | some r =>
    obtain ⟨hgo, hstop⟩ := protect_run m prot hsize hle hr
    -- the lookup stops at the first page it finds missing, and only at those it examines
    by_cases hmissing : ∃ page, Examined start.toNat size.toNat r page ∧ m.mapped page = false
    · refine iff_of_true ?_ (.inl hmissing)
      have hno : (m.protect start.toNat size.toNat prot).result ≠ .ok () := by
        rw [hstop hmissing]
        intro hok
        cases hok
      apply protectRight_of_refused hno
      rintro ⟨_, _, hall⟩
      obtain ⟨page, hexamined, hunmapped⟩ := hmissing
      rw [hall page (hexamined.touches hsize hle hr)] at hunmapped
      exact Bool.false_ne_true hunmapped.symm
    · push Not at hmissing
      obtain ⟨hok, hsets⟩ := hgo fun page h => Bool.eq_true_of_not_eq_false (hmissing page h)
      have hpos : 0 < r.2 := hsets.pos
      have hfits : r.1 + r.2 ≤ 2 ^ 64 := hsets.fits
      have hstart : r.1 % kPageSize = 0 := hsets.aligned.1
      constructor
      · intro hright
        right
        have hh : Attr.Harmless m ⟨r.1, r.2, prot⟩ := by
          apply hsets.harmless_of (hright.inside hok r hr)
          · exact hright.given hok r.1 (touches_of_range hsize hle hr hstart le_rfl (by omega))
          · intro a ha hbelow
            have hlt : pageFloor a < 2 ^ 64 :=
              lt_of_le_of_lt (Nat.sub_le _ _) (lt_trans ha (by decide))
            -- `kept` is about the pages of a word, so the page below is read as one
            have hword : (BitVec.ofNat 64 (pageFloor a)).toNat = pageFloor a := by
              rw [BitVec.toNat_ofNat]
              exact Nat.mod_eq_of_lt hlt
            rw [← hword]
            apply hright.kept hok
            · rw [hword]
              exact pageFloor_dvd a
            · rw [hword]
              intro htouch
              have hge := htouch.range hsize hr
              have hdown : pageFloor a ≤ a := Nat.sub_le _ _
              exact hbelow (le_trans hge hdown)
        refine ⟨(hright.ok_iff.1 hok).2.2, hh, ?_⟩
        intro page htouch hbeyond q
        rw [← hright.given hok page htouch q]
        have hout : ¬ (r.1 ≤ page ∧ page < r.1 + r.2) := fun h => absurd h.2 (not_lt.2 hbeyond)
        exact Bool.eq_iff_iff.1 (hsets.same hh hout q).symm
      · rintro (⟨page, hexamined, hunmapped⟩ | ⟨hall, hh, hspill⟩)
        · exact absurd hunmapped (hmissing page hexamined)
        · refine ⟨iff_of_true hok ⟨Nat.pos_of_ne_zero hsize, hle, hall⟩, fun _ page htouch => ?_,
            fun _ page halign hout => ?_, fun _ r' hr' => ?_, protect_contents m prot _ _,
            fun hno => absurd hok hno⟩
          · have hge := htouch.range hsize hr
            -- the last page the request touches may lie behind the rounded range
            rcases lt_or_ge page (r.1 + r.2) with hlt | hbeyond
            · exact hsets.protected hh hge hlt
            · intro q
              rw [hsets.same hh (fun h => absurd h.2 (not_lt.2 hbeyond)) q]
              exact hspill page htouch hbeyond q
          · apply hsets.same hh
            rintro ⟨hlo, hhi⟩
            exact hout (touches_of_range hsize hle hr halign hlo hhi)
          · rw [hr] at hr'
            obtain rfl := Option.some.inj hr'
            exact hh.1

end Protect

/-- A request that starts inside a mapped page and ends in an unmapped one succeeds. -/
theorem protect_not_right : ¬ ∀ (m : AddressSpace) (start size : W64) (prot : Protection),
    ProtectRight m start.toNat size.toNat prot := by
  intro hall
  have hright := hall ((init true).map 0x1000 0x1000 ⟨true, true, false⟩ 8).space 0x1800 0x1000 .none
  have hok : (((init true).map 0x1000 0x1000 ⟨true, true, false⟩ 8).space.protect 0x1800 0x1000 .none).result =
      .ok () := rfl
  have hmapped := (hright.ok_iff.1 hok).2.2 0x2000 ⟨0x2000, by decide, by decide, rfl⟩
  exact Bool.false_ne_true hmapped

/-! ### `map` -/

section Map

variable {start size : W64} {prot : Protection} {alloc : ℕ}

/-- The pages that `map_or_throw` inserts. -/
def Created (start size page : ℕ) : Prop :=
  page % kPageSize = 0 ∧ ∃ len, pageCeil size = some len ∧ pageFloor start ≤ page ∧
    page < pageFloor start + len

/-- `m'` has what `m` has at `a`: the page, the byte and the protection. -/
def SameAt (m m' : AddressSpace) (a : ℕ) : Prop :=
  m'.mapped (pageFloor a) = m.mapped (pageFloor a) ∧ m'.bytes a = m.bytes a ∧ SameProtection m m' a

/-- The bytes asked for are there, zero and accessible, the other pages are as before, and
the same arguments unmap and protect what was created. -/
structure MapRight (m m' : AddressSpace) (start size : ℕ) (prot : Protection) : Prop where
  covers : ∀ a, start ≤ a → a < start + size →
    m'.mapped (pageFloor a) = true ∧ m'.bytes a = 0 ∧ m'.check a prot = true
  kept : ∀ a : W64, ¬ Touches start size (pageFloor a.toNat) → SameAt m m' a.toNat
  unmapped : ∀ a : W64,
    (Created start size (pageFloor a.toNat) → (m'.unmap start size).space.mapped (pageFloor a.toNat) = false ∧
      (m'.unmap start size).space.Protected a.toNat .none) ∧
    (¬ Created start size (pageFloor a.toNat) → SameAt m' (m'.unmap start size).space a.toNat)
  protects : ∀ q, (m'.protect start size q).result = .ok () ∧ ∀ a : W64,
    (Created start size (pageFloor a.toNat) → (m'.protect start size q).space.Protected a.toNat q) ∧
    (¬ Created start size (pageFloor a.toNat) → SameAt m' (m'.protect start size q).space a.toNat)

/-- When it is: the pages fit in 48 bits, and the bytes spilled past the last of them have
all that was asked for already. -/
def MapCovers (m : AddressSpace) (start size : ℕ) (prot : Protection) : Prop :=
  ∃ len, pageCeil size = some len ∧ pageFloor start + len ≤ addressSpaceSize ∧
    ∀ a, pageFloor start + len ≤ a → a < start + size →
      m.mapped (pageFloor a) = true ∧ m.bytes a = 0 ∧ m.check a prot = true

/-- What a successful `map` has done. -/
structure MapRun (m m' : AddressSpace) (start size : ℕ) (prot : Protection) (len : ℕ) : Prop where
  nonzero : size ≠ 0
  fits : start + size ≤ 2 ^ 64
  ceil : pageCeil size = some len
  sets : Sets m m' ⟨pageFloor start, len, prot⟩
  mapped : ∀ page, page % kPageSize = 0 → pageFloor start ≤ page → page < pageFloor start + len →
    m'.mapped page = true
  zeroed : ∀ a, pageFloor start ≤ a → a < pageFloor start + len → m'.bytes a = 0
  bytes : ∀ a, ¬ (pageFloor start ≤ a ∧ a < pageFloor start + len) → m'.bytes a = m.bytes a

theorem map_run (h : (m.map start.toNat size.toNat prot alloc).result = .ok ()) :
    ∃ len, MapRun m (m.map start.toNat size.toNat prot alloc).space start.toNat size.toNat prot len := by
  by_cases hsize : size.toNat = 0
  · rw [map, if_pos hsize] at h
    cases h
  cases hover : rangeOverflows start.toNat size.toNat with
  | true =>
    rw [map, if_neg hsize, if_pos hover] at h
    cases h
  | false =>
    have hfit : start.toNat + size.toNat ≤ 2 ^ 64 := by
      have hno : ¬ rangeOverflows start.toNat size.toNat = true := by
        rw [hover]
        exact Bool.false_ne_true
      rw [rangeOverflows_iff] at hno
      omega
    cases hceil : pageCeil size.toNat with
    | none =>
      simp only [map, hsize, if_false, hover, Bool.false_eq_true, mapOrThrow, hceil] at h
      cases h
    | some len =>
      by_cases halloc : alloc < len / kPageSize
      · simp only [map, hsize, if_false, hover, Bool.false_eq_true, mapOrThrow, hceil, halloc, if_true] at h
        cases h
      by_cases hbits : alloc < mapSteps (len / kPageSize)
      · simp only [map, hsize, if_false, hover, Bool.false_eq_true, mapOrThrow, hceil, halloc, hbits, if_true] at h
        cases h
      · -- every way to fail is behind: the pages are inserted, and their bits set
        have hspace : (m.map start.toNat size.toNat prot alloc).space =
            (m.insertPages (pageFloor start.toNat) (len / kPageSize)).setattr
              (pageFloor start.toNat) len prot := by
          simp only [map, hsize, if_false, hover, Bool.false_eq_true, mapOrThrow, hceil, halloc, hbits]
        have hattr : (HostOp.map start size prot alloc).attr m = some ⟨pageFloor start.toNat, len, prot⟩ := by
          simp only [HostOp.attr, hsize, hover, Bool.false_eq_true, or_self, if_false, hceil, halloc]
        have hnum : len / kPageSize * kPageSize = len :=
          Nat.div_mul_cancel (Nat.dvd_of_mod_eq_zero (pageCeil_eq hceil).1)
        refine ⟨len, hsize, hfit, hceil, sets_map hattr h, fun page halign hlo hhi => ?_, fun a hlo hhi => ?_,
          fun a hout => ?_⟩
        · rw [hspace]
          simp [setattr, insertPages, hnum, halign, hlo, hhi]
        · rw [hspace]
          simp [setattr, insertPages, hnum, hlo, hhi]
        · rw [hspace]
          simp only [setattr, insertPages, hnum, if_neg hout]

/-- A page sits in a range of whole pages with every byte of it. -/
theorem pageFloor_mem_iff {start len a : ℕ} (hstart : start % kPageSize = 0) (hlen : len % kPageSize = 0) :
    (start ≤ pageFloor a ∧ pageFloor a < start + len) ↔ start ≤ a ∧ a < start + len := by
  simp only [pageFloor, kPageSize] at *
  omega

/-- Below 48 bits the three operations round to the same pages. -/
theorem rangeOf_of_le {start size len : ℕ} (hceil : pageCeil size = some len)
    (hle : pageFloor start + len ≤ addressSpaceSize) :
    rangeOf start size = some (pageFloor start, len) := by
  obtain ⟨hmod, hlow, hhigh, _⟩ := pageCeil_eq hceil
  have hdvd := pageFloor_dvd start
  simp only [addressSpaceSize] at hle
  have hsum : pageFloor start + size < 2 ^ 64 := by omega
  have hround : pageCeil ((pageFloor start + size) % 2 ^ 64) = some (pageFloor start + len) := by
    rw [Nat.mod_eq_of_lt hsum]
    generalize pageFloor start = r at *
    have hsmall : ¬ r + size > 2 ^ 64 - 1 - (kPageSize - 1) := by
      simp only [kPageSize] at *
      omega
    have hfloor : pageFloor (r + size + (kPageSize - 1)) = r + len := by
      simp only [pageFloor, kPageSize] at *
      omega
    rw [pageCeil, if_neg hsmall, hfloor]
  simp only [rangeOf, hround, Option.map_some, Option.some.injEq, Prod.mk.injEq, true_and]
  generalize pageFloor start = r at *
  omega

theorem created_iff {len page : ℕ} (hceil : pageCeil size.toNat = some len) :
    Created start.toNat size.toNat page ↔ page % kPageSize = 0 ∧ pageFloor start.toNat ≤ page ∧
      page < pageFloor start.toNat + len := by
  unfold Created
  rw [hceil]
  simp

/-- Setting a harmless range leaves everything at an address of another page alone. -/
theorem Sets.sameAt {m m' : AddressSpace} {t : Attr} (hs : Sets m m' t) (hh : t.Harmless m) {a : ℕ}
    (hbytes : m'.bytes a = m.bytes a) (hout : ¬ (t.start ≤ a ∧ a < t.start + t.len)) : SameAt m m' a := by
  refine ⟨?_, hbytes, hs.same hh hout⟩
  apply hs.outside
  have hpage := mt (pageFloor_mem_iff hs.aligned.1 hs.aligned.2).1 hout
  omega

/-- What `unmap` does to a range below 48 bits. -/
theorem unmap_run {len : ℕ} (hnonzero : size.toNat ≠ 0) (hfit : start.toNat + size.toNat ≤ 2 ^ 64)
    (hr : rangeOf start.toNat size.toNat = some (pageFloor start.toNat, len)) :
    Sets m (m.unmap start.toNat size.toNat).space ⟨pageFloor start.toNat, len, .none⟩ ∧
      (m.unmap start.toNat size.toNat).space.bytes = m.bytes ∧
      (pageFloor start.toNat + len < 2 ^ 64 → ∀ page, page % kPageSize = 0 → pageFloor start.toNat ≤ page →
        page < pageFloor start.toNat + len → (m.unmap start.toNat size.toNat).space.mapped page = false) := by
  have hno : rangeOverflows start.toNat size.toNat = false := by
    rw [Bool.eq_false_iff, ne_eq, rangeOverflows_iff]
    omega
  have hskip : ¬ (size.toNat = 0 ∨ rangeOverflows start.toNat size.toNat = true) := by
    rw [hno]
    rintro (h | h)
    · exact hnonzero h
    · exact Bool.false_ne_true h
  have hattr : (HostOp.unmap start size).attr m = some ⟨pageFloor start.toNat, len, .none⟩ := by
    simp only [HostOp.attr, hskip, if_false, hr, Option.map_some]
  obtain ⟨_, _, _, _, hceil⟩ := rangeOf_eq start.isLt hnonzero size.isLt hno hr
  have hrange := hr
  simp only [rangeOf, Option.map_eq_some_iff] at hr
  obtain ⟨stop, hstop, hpair⟩ := hr
  have hspace : (m.unmap start.toNat size.toNat).space =
      { m with
        mapped := fun p => if p ∈ pagesOf (pageFloor start.toNat) stop then false
          else m.mapped p }.setattr (pageFloor start.toNat)
        ((stop + (2 ^ 64 - pageFloor start.toNat)) % 2 ^ 64) .none := by
    simp only [unmap, hskip, if_false, hstop]
  refine ⟨sets_unmap hattr, ?_, ?_⟩
  · rw [hspace]
    rfl
  · intro hlt page halign hlo hhi
    have hend := Option.some.inj (hstop.symm.trans (hceil hlt))
    have hmem : page ∈ pagesOf (pageFloor start.toNat) stop := by
      rw [mem_pagesOf (pageFloor_dvd _) (pageCeil_eq hstop).1]
      exact ⟨halign, hlo, by rw [hend]; exact hhi⟩
    rw [hspace]
    simp only [setattr, hmem, if_true]

/-- **`map`** covers what was asked of it exactly when the request ends on the pages it
names. -/
theorem map_right_iff (m : AddressSpace) (start size : W64) (prot : Protection) (alloc : ℕ)
    (h : (m.map start.toNat size.toNat prot alloc).result = .ok ()) :
    MapRight m (m.map start.toNat size.toNat prot alloc).space start.toNat size.toNat prot ↔
      MapCovers m start.toNat size.toNat prot := by
  obtain ⟨len, hrun⟩ := map_run h
  set m' := (m.map start.toNat size.toNat prot alloc).space with hm'
  obtain ⟨hnonzero, hfit, hceil, hsets, hmapped, hzeroed, hbytes⟩ := hrun
  obtain ⟨hmod, hlow, hhigh, _⟩ := pageCeil_eq hceil
  have hdvd := pageFloor_dvd start.toNat
  have hpos : 0 < len := hsets.pos
  have hend : pageFloor start.toNat + len ≤ 2 ^ 64 := hsets.fits
  have hmem : ∀ a, (pageFloor start.toNat ≤ pageFloor a ∧ pageFloor a < pageFloor start.toNat + len) ↔
      pageFloor start.toNat ≤ a ∧ a < pageFloor start.toNat + len := fun a => pageFloor_mem_iff hdvd hmod
  have hcreated : ∀ a, Created start.toNat size.toNat (pageFloor a) ↔
      pageFloor start.toNat ≤ a ∧ a < pageFloor start.toNat + len := by
    intro a
    rw [created_iff hceil, ← hmem a]
    simp only [pageFloor_dvd, true_and]
  constructor
  · intro hright
    have hsmall : pageFloor start.toNat + len ≤ addressSpaceSize := by
      by_contra hlarge
      -- the last page lies beyond 48 bits, where nothing can be granted
      have hpage : pageFloor start.toNat + len - kPageSize < 2 ^ 64 := by
        simp only [kPageSize]
        omega
      have hword : (BitVec.ofNat 64 (pageFloor start.toNat + len - kPageSize)).toNat =
          pageFloor start.toNat + len - kPageSize := by
        rw [BitVec.toNat_ofNat]
        exact Nat.mod_eq_of_lt hpage
      have hlast := (((hright.protects ⟨true, true, true⟩).2
        (BitVec.ofNat 64 (pageFloor start.toNat + len - kPageSize))).1 (by
          rw [hword, hcreated]
          simp only [kPageSize] at *
          omega))
      rw [hword] at hlast
      have hbeyond : addressSpaceSize ≤ pageFloor start.toNat + len - kPageSize := by
        simp only [kPageSize, addressSpaceSize] at *
        omega
      have hnone := (protected_of_le hbeyond).1 hlast
      exact absurd hnone (by decide)
    refine ⟨len, hceil, hsmall, fun a hlo hhi => ?_⟩
    obtain ⟨hpage, hbyte, hcheck⟩ := hright.covers a (by
      have hfloor : start.toNat < pageFloor start.toNat + kPageSize := by
        simp only [pageFloor, kPageSize]
        omega
      simp only [kPageSize] at *
      omega) hhi
    have hout : ¬ (pageFloor start.toNat ≤ a ∧ a < pageFloor start.toNat + len) :=
      fun hin => absurd hin.2 (not_lt.2 hlo)
    have hh : Attr.Harmless m ⟨pageFloor start.toNat, len, prot⟩ :=
      ⟨le_trans (Nat.add_le_add_right (Nat.mod_le _ _) _) hsmall, .inl hsmall⟩
    obtain ⟨hmapped', hbytes', hsame⟩ := hsets.sameAt hh (hbytes a hout) hout
    rw [← hmapped', ← hbytes', ← hsame prot]
    exact ⟨hpage, hbyte, hcheck⟩
  · rintro ⟨len', hceil', hsmall, hspill⟩
    obtain rfl : len = len' := Option.some.inj (hceil.symm.trans hceil')
    have hin : pageFloor start.toNat % addressSpaceSize + len ≤ addressSpaceSize :=
      le_trans (Nat.add_le_add_right (Nat.mod_le _ _) _) hsmall
    have hh : Attr.Harmless m ⟨pageFloor start.toNat, len, prot⟩ := ⟨hin, .inl hsmall⟩
    have hr : rangeOf start.toNat size.toNat = some (pageFloor start.toNat, len) := rangeOf_of_le hceil hsmall
    refine ⟨fun a hlo hhi => ?_, fun a htouch => ?_, fun a => ?_, fun q => ?_⟩
    · by_cases hown : a < pageFloor start.toNat + len
      · have hbelow : pageFloor start.toNat ≤ a := le_trans (Nat.sub_le _ _) hlo
        obtain ⟨hplo, hphi⟩ := (hmem a).2 ⟨hbelow, hown⟩
        refine ⟨hmapped _ (pageFloor_dvd a) hplo hphi, hzeroed a hbelow hown, ?_⟩
        exact (hsets.protected hh hbelow hown prot).2 (Protection.within_refl _)
      · have hout : ¬ (pageFloor start.toNat ≤ a ∧ a < pageFloor start.toNat + len) := fun hin => hown hin.2
        obtain ⟨hmapped', hbytes', hsame⟩ := hsets.sameAt hh (hbytes a hout) hout
        rw [hmapped', hbytes', hsame prot]
        exact hspill a (not_lt.1 hown) hhi
    · have hout : ¬ (pageFloor start.toNat ≤ a.toNat ∧ a.toNat < pageFloor start.toNat + len) := by
        intro hown
        obtain ⟨hplo, hphi⟩ := (hmem a.toNat).2 hown
        exact htouch (touches_of_range hnonzero hfit hr (pageFloor_dvd _) hplo hphi)
      exact hsets.sameAt hh (hbytes a.toNat hout) hout
    · obtain ⟨husets, hubytes, hupages⟩ := @unmap_run m' start size len hnonzero hfit hr
      have huh : Attr.Harmless m' ⟨pageFloor start.toNat, len, .none⟩ := ⟨hin, .inl hsmall⟩
      rw [hcreated]
      refine ⟨fun hown => ⟨?_, husets.protected huh hown.1 hown.2⟩, fun hout => ?_⟩
      · obtain ⟨hplo, hphi⟩ := (hmem a.toNat).2 hown
        exact hupages (lt_of_le_of_lt hsmall (by decide)) _ (pageFloor_dvd _) hplo hphi
      · exact husets.sameAt huh (congrFun hubytes _) hout
    · have hall : ∀ page, Examined start.toNat size.toNat (pageFloor start.toNat, len) page →
          m'.mapped page = true := by
        rintro page ⟨_, halign, hlo, hhi⟩
        exact hmapped page halign hlo hhi
      obtain ⟨hok, hpsets⟩ := (protect_run m' q hnonzero hfit hr).1 hall
      have hph : Attr.Harmless m' ⟨pageFloor start.toNat, len, q⟩ := ⟨hin, .inl hsmall⟩
      refine ⟨hok, fun a => ?_⟩
      rw [hcreated]
      refine ⟨fun hown => hpsets.protected hph hown.1 hown.2, fun hout => ?_⟩
      exact hpsets.sameAt hph (congrFun (protect_contents m' q _ _).2 _) hout

theorem map_right_iff_aligned :
    let m := ((init true).map 0x1000 0x2000 ⟨true, true, false⟩ 8).space
    MapRight (init true) m 0x1000 0x2000 ⟨true, true, false⟩ ↔
      MapCovers (init true) 0x1000 0x2000 ⟨true, true, false⟩ :=
  map_right_iff (init true) 0x1000 0x2000 ⟨true, true, false⟩ 8 rfl

end Map

/-- A page asked for from its middle: the bytes past its end are not mapped. -/
theorem map_not_right : ¬ ∀ (m : AddressSpace) (start size : W64) (prot : Protection) (alloc : ℕ),
    (m.map start.toNat size.toNat prot alloc).result = .ok () →
      MapRight m (m.map start.toNat size.toNat prot alloc).space start.toNat size.toNat prot := by
  intro hall
  have hright := hall (init true) 0x1800 0x1000 ⟨true, true, false⟩ 8 rfl
  have hlo : (0x1800 : W64).toNat ≤ 0x2000 := by decide
  have hhi : 0x2000 < (0x1800 : W64).toNat + (0x1000 : W64).toNat := by decide
  have hmapped := (hright.covers 0x2000 hlo hhi).1
  have hunmapped : ((init true).map (0x1800 : W64).toNat (0x1000 : W64).toNat ⟨true, true, false⟩ 8).space.mapped
      (pageFloor 0x2000) = false := by decide +kernel
  rw [hunmapped] at hmapped
  exact Bool.false_ne_true hmapped

end AddressSpace
end X86Sim
