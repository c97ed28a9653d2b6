import X86Sim.Mem.Translation

/-!
# Copies between the simulator and a guest (`x86sim.cpp`)

Assists and instruction fetch copy at most a page, in two parts where the range crosses a
page boundary, each with its own test.

* `copyToUser_right_iff`, `copyFromUser_right_iff`: which copies are right.
* `storeOpen_of_low`, `loadOpen_of_low`: along runs that stay below bit 47, all copies from a
  guest, and the copies to a guest that are not refused at their first byte.
-/

namespace X86Sim
namespace AddressSpace

variable {m : AddressSpace}

/-- What `copy_to_user` returns and sets, and the memory after it. -/
structure UserCopy where
  count : ℕ
  pfec : PageFaultErrorCode
  faultaddr : ℕ
  space : AddressSpace

/-- The share of the first page of a range. -/
def share (addr bytes : ℕ) : ℕ := min (kPageSize - addr % kPageSize) bytes

/-- `copy_to_user` with all it returns; none where it follows a null pointer. -/
def copyToUserResult (m : AddressSpace) (target : ℕ) (source : List Byte) : Option UserCopy :=
  if !m.check target writable then some ⟨0, ⟨m.check target readable, true, false, false⟩, target, m⟩
  else
    let nlo := share target source.length
    let marked := m.setdirty (target / kPageSize)
    if nlo = source.length then
      (m.pageVirtToMapped target).map fun targetlo => ⟨source.length, .none, 0, marked.copyIn targetlo source⟩
    else
      let next := (target + nlo) % 2 ^ 64
      if !m.check next writable then some ⟨nlo, ⟨m.check next readable, true, true, false⟩, next, marked⟩
      else
        (m.pageVirtToMapped next).bind fun targethi =>
          (m.pageVirtToMapped target).map fun targetlo =>
            ⟨source.length, .none, 0, ((marked.copyIn targethi (source.drop nlo)).copyIn targetlo
              (source.take nlo)).setdirty (next / kPageSize)⟩

/-- Whether `copy_from_user` may read a byte. -/
def mayRead (m : AddressSpace) (forexec : Bool) (a : ℕ) : Bool := m.check a readable && (!forexec || m.check a executable)

/-- The error code of a byte that may not be read. -/
def readFault (m : AddressSpace) (forexec : Bool) (a : ℕ) : PageFaultErrorCode :=
  ⟨m.check a readable, false, true, forexec && !m.check a executable⟩

/-- `copy_from_user`; none where it follows a null pointer. -/
def copyFromUserResult (m : AddressSpace) (addr bytes : ℕ) (forexec : Bool) : Option FetchWindow :=
  if !m.mayRead forexec addr then some ⟨[], m.readFault forexec addr, addr⟩
  else
    (m.pageVirtToMapped addr).bind fun lo =>
      let n := share addr bytes
      if n = bytes then some ⟨m.readRange lo n, .none, 0⟩
      else
        let next := (addr + n) % 2 ^ 64
        if !m.mayRead forexec next then some ⟨m.readRange lo n, m.readFault forexec next, next⟩
        else (m.pageVirtToMapped next).map fun hi => ⟨m.readRange lo n ++ m.readRange hi (bytes - n), .none, 0⟩

/-- The error code of a guest's store to a byte that it may not write. -/
def storeFault (m : AddressSpace) (a : ℕ) : PageFaultErrorCode := ⟨m.check a readable, true, true, false⟩

/-- What a caller of `copy_to_user` may rely on. -/
structure CopyToUserRight (m : AddressSpace) (target : ℕ) (source : List Byte) (r : UserCopy) : Prop where
  full : r.count = source.length ↔ ∀ i < source.length, m.check (target + i) writable = true
  stored : (∀ i < source.length, m.check (target + i) writable = true) →
    (∀ a, r.space.bytes a = if target ≤ a ∧ a < target + source.length then source.getD (a - target) 0 else m.bytes a) ∧
      ∀ i < source.length, r.space.isdirty ((target + i) / kPageSize) = true
  refused : ∀ i < source.length, m.check (target + i) writable = false →
    (∀ j < i, m.check (target + j) writable = true) →
    r.space.bytes = m.bytes ∧ r.faultaddr = target + i ∧ r.pfec = m.storeFault (target + i)

/-- What a caller of `copy_from_user` may rely on. -/
structure CopyFromUserRight (m : AddressSpace) (addr bytes : ℕ) (forexec : Bool) (r : FetchWindow) : Prop where
  full : (∀ i < bytes, m.mayRead forexec (addr + i) = true) → r.insnbytes = m.readRange addr bytes
  refused : ∀ i < bytes, m.mayRead forexec (addr + i) = false → (∀ j < i, m.mayRead forexec (addr + j) = true) →
    r.insnbytes = m.readRange addr i ∧ r.faultaddr = addr + i ∧ r.pfec = m.readFault forexec (addr + i)

/-- The fault of a store to the byte, as a store of the guest would report it. -/
theorem storeFault_eq {a : W64} (h : m.check a.toNat writable = false) :
    m.translate a 0 true false = .error (.pageFaultOnWrite, m.storeFault a.toNat) := by
  simp [translate, lowbits, Nat.mod_one, h, storeFault]

/-- The fault of a load of the byte, as a load of the guest would report it. -/
theorem readFault_eq {a : W64} (h : m.mayRead false a.toNat = false) :
    m.translate a 0 false false = .error (.pageFaultOnRead, m.readFault false a.toNat) := by
  have hcheck : m.check a.toNat readable = false := by
    simpa [mayRead] using h
  simp [translate, lowbits, Nat.mod_one, hcheck, readFault]

theorem pageVirtToMapped_eq {a b : ℕ} (h : m.pageVirtToMapped a = some b) : b = a ∧ m.mapped (pageFloor a) = true := by
  rw [pageVirtToMapped] at h
  split at h
  · exact ⟨(Option.some.inj h).symm, by assumption⟩
  · cases h

theorem pageVirtToMapped_of_mapped {a : ℕ} (h : m.mapped (pageFloor a) = true) : m.pageVirtToMapped a = some a := by
  rw [pageVirtToMapped, if_pos h]

/-- Where the copy ends, it is the one the cores use. -/
theorem copyToUserResult_space {target : ℕ} {source : List Byte} {r : UserCopy}
    (h : m.copyToUserResult target source = some r) : r.space = (m.copyToUser target source).1 := by
  have hw : (⟨false, true, false⟩ : Protection) = writable := rfl
  have hshare : min (kPageSize - target % kPageSize) source.length = share target source.length := rfl
  rw [copyToUserResult] at h
  simp only [copyToUser, hw, hshare]
  cases hfirst : m.check target writable with
  | false =>
    rw [hfirst] at h
    obtain rfl := Option.some.inj h
    rfl
  | true =>
    simp only [hfirst, Bool.not_true, Bool.false_eq_true, if_false] at h ⊢
    by_cases hone : share target source.length = source.length
    · rw [if_pos hone] at h ⊢
      obtain ⟨lo, hlo, rfl⟩ := Option.map_eq_some_iff.1 h
      rw [(pageVirtToMapped_eq hlo).1]
    · rw [if_neg hone] at h ⊢
      cases hsecond : m.check ((target + share target source.length) % 2 ^ 64) writable with
      | false =>
        simp only [hsecond, Bool.not_false, if_true] at h ⊢
        obtain rfl := Option.some.inj h
        rfl
      | true =>
        simp only [hsecond, Bool.not_true, Bool.false_eq_true, if_false] at h ⊢
        obtain ⟨hi, hhi, h⟩ := Option.bind_eq_some_iff.1 h
        obtain ⟨lo, hlo, rfl⟩ := Option.map_eq_some_iff.1 h
        rw [(pageVirtToMapped_eq hlo).1, (pageVirtToMapped_eq hhi).1]

section Share

variable {addr bytes i : ℕ}

theorem pageFloor_lo (hi : i < share addr bytes) : pageFloor (addr + i) = pageFloor addr := by
  simp only [share, pageFloor, kPageSize] at *
  omega

theorem pageFloor_hi (hpage : bytes ≤ kPageSize) (hi : i < bytes) (hlo : share addr bytes ≤ i) :
    pageFloor (addr + i) = addr + share addr bytes ∧ pageFloor (addr + i) = pageFloor (addr + share addr bytes) := by
  simp only [share, pageFloor, kPageSize] at *
  omega

theorem frame_lo (hi : i < share addr bytes) : (addr + i) / kPageSize = addr / kPageSize := by
  simp only [share, kPageSize] at *
  omega

theorem frame_hi (hpage : bytes ≤ kPageSize) (hi : i < bytes) (hlo : share addr bytes ≤ i) :
    (addr + i) / kPageSize = (addr + share addr bytes) / kPageSize := by
  simp only [share, kPageSize] at *
  omega

/-- Where the first byte may be used, the second page does not wrap. -/
theorem next_eq {p : Protection} (hp : p ≠ .none) (h : m.check addr p = true) :
    (addr + share addr bytes) % 2 ^ 64 = addr + share addr bytes := by
  have hlt := lt_of_check hp h
  apply Nat.mod_eq_of_lt
  simp only [share, addressSpaceSize, kPageSize] at *
  omega

end Share

theorem writable_ne_none : writable ≠ .none := by decide

/-- The inputs on which `copy_to_user` is right: the first byte may be written, and what may
be written has a page. -/
structure StoreOpen (m : AddressSpace) (target bytes : ℕ) : Prop where
  first : 0 < bytes → m.check target writable = true
  start : bytes = 0 → m.check target writable = true → m.mapped (pageFloor target) = true
  backed : (∀ i < bytes, m.check (target + i) writable = true) → ∀ i < bytes, m.mapped (pageFloor (target + i)) = true

theorem copyToUserResult_closed {target : ℕ} (h : m.check target writable = false) (source : List Byte) :
    m.copyToUserResult target source = some ⟨0, ⟨m.check target readable, true, false, false⟩, target, m⟩ := by
  simp only [copyToUserResult, h, Bool.not_false, if_true]

theorem copyToUserResult_one {target : ℕ} {source : List Byte} (h : m.check target writable = true)
    (hone : share target source.length = source.length) :
    m.copyToUserResult target source = (m.pageVirtToMapped target).map fun lo =>
      ⟨source.length, .none, 0, (m.setdirty (target / kPageSize)).copyIn lo source⟩ := by
  simp only [copyToUserResult, h, Bool.not_true, Bool.false_eq_true, if_false, hone, if_true]

theorem copyToUserResult_refused {target : ℕ} {source : List Byte} (h : m.check target writable = true)
    (htwo : share target source.length ≠ source.length)
    (hnext : m.check (target + share target source.length) writable = false) :
    m.copyToUserResult target source = some ⟨share target source.length,
      m.storeFault (target + share target source.length), target + share target source.length,
      m.setdirty (target / kPageSize)⟩ := by
  simp only [copyToUserResult, h, Bool.not_true, Bool.false_eq_true, if_false, htwo, next_eq writable_ne_none h, hnext,
    Bool.not_false, if_true, storeFault]

theorem copyToUserResult_two {target : ℕ} {source : List Byte} (h : m.check target writable = true)
    (htwo : share target source.length ≠ source.length)
    (hnext : m.check (target + share target source.length) writable = true) :
    m.copyToUserResult target source = (m.pageVirtToMapped (target + share target source.length)).bind fun hi =>
      (m.pageVirtToMapped target).map fun lo => ⟨source.length, .none, 0,
        (((m.setdirty (target / kPageSize)).copyIn hi (source.drop (share target source.length))).copyIn lo
          (source.take (share target source.length))).setdirty ((target + share target source.length) / kPageSize)⟩ := by
  simp only [copyToUserResult, h, Bool.not_true, Bool.false_eq_true, if_false, htwo, next_eq writable_ne_none h, hnext]

/-- Two parts of a list, each put at its place. -/
theorem copyIn_parts (m : AddressSpace) (target n : ℕ) (source : List Byte) (hn : n ≤ source.length) (a : ℕ) :
    ((m.copyIn (target + n) (source.drop n)).copyIn target (source.take n)).bytes a =
      if target ≤ a ∧ a < target + source.length then source.getD (a - target) 0 else m.bytes a := by
  have hlo : (source.take n).length = n := by rw [List.length_take]; omega
  have hhi : (source.drop n).length = source.length - n := List.length_drop
  simp only [copyIn, hlo, hhi]
  by_cases h1 : target ≤ a ∧ a < target + n
  · have h2 : target ≤ a ∧ a < target + source.length := by omega
    rw [if_pos h1, if_pos h2, List.getD_eq_getElem?_getD, List.getD_eq_getElem?_getD, List.getElem?_take_of_lt (by omega)]
  · rw [if_neg h1]
    by_cases h3 : target + n ≤ a ∧ a < target + n + (source.length - n)
    · have h2 : target ≤ a ∧ a < target + source.length := by omega
      have hidx : n + (a - (target + n)) = a - target := by omega
      rw [if_pos h3, if_pos h2, List.getD_eq_getElem?_getD, List.getD_eq_getElem?_getD, List.getElem?_drop, hidx]
    · have h2 : ¬ (target ≤ a ∧ a < target + source.length) := by omega
      rw [if_neg h3, if_neg h2]

/-- The frame of a byte that may be written has a dirty bit of its own. -/
theorem frame_lt {a : ℕ} {p : Protection} (hp : p ≠ .none) (h : m.check a p = true) : a / kPageSize < 2 ^ 36 := by
  have hlt := lt_of_check hp h
  simp only [addressSpaceSize, kPageSize] at *
  omega

/-- A copy that ends is right if it was not refused at its first byte. -/
theorem copyToUser_right {target : ℕ} {source : List Byte} (hpage : source.length ≤ kPageSize) {r : UserCopy}
    (hfirst : m.check target writable = true) (h : m.copyToUserResult target source = some r) :
    CopyToUserRight m target source r := by
  set n := share target source.length with hn
  have hle : n ≤ source.length := Nat.min_le_right _ _
  have hlo : ∀ i, i < n → m.check (target + i) writable = true := by
    intro i hi
    rw [check_same_page (pageFloor_lo hi)]
    exact hfirst
  have hhi : ∀ i, i < source.length → n ≤ i → m.check (target + i) writable = m.check (target + n) writable := by
    intro i hi hni
    exact check_same_page (pageFloor_hi hpage hi hni).2 _
  have hdirty : ∀ (m' : AddressSpace) {a : ℕ}, m.check a writable = true → (m'.setdirty (a / kPageSize)).isdirty (a / kPageSize) = true := by
    intro m' a ha
    have hframe := frame_lt writable_ne_none ha
    rw [isdirty_setdirty _ hframe, if_pos (pageid_ofMfn hframe).symm]
  by_cases hone : n = source.length
  · -- the range lies in one page
    rw [copyToUserResult_one hfirst hone] at h
    obtain ⟨lo, hptr, rfl⟩ := Option.map_eq_some_iff.1 h
    obtain rfl := (pageVirtToMapped_eq hptr).1
    have hall : ∀ i < source.length, m.check (lo + i) writable = true := fun i hi => hlo i (hone ▸ hi)
    refine ⟨⟨fun _ => hall, fun _ => rfl⟩, ?_, ?_⟩
    · intro _
      refine ⟨fun a => rfl, ?_⟩
      intro i hi
      rw [frame_lo (hone ▸ hi)]
      exact hdirty m hfirst
    · intro i hi hrefused _
      rw [hall i hi] at hrefused
      cases hrefused
  · have hlt : n < source.length := by omega
    cases hnext : m.check (target + n) writable with
    | false =>
      -- the second page refuses before anything is copied
      rw [copyToUserResult_refused hfirst hone hnext] at h
      obtain rfl := Option.some.inj h
      refine ⟨⟨fun hcount => absurd hcount hone, fun hall => ?_⟩, ?_, ?_⟩
      · rw [hall n hlt] at hnext
        cases hnext
      · intro hall
        rw [hall n hlt] at hnext
        cases hnext
      · intro i hi hrefused hbefore
        have hi' : i = n := by
          rcases Nat.lt_trichotomy i n with hin | hin | hin
          · rw [hlo i hin] at hrefused
            cases hrefused
          · exact hin
          · rw [hbefore n hin] at hnext
            cases hnext
        subst hi'
        exact ⟨rfl, rfl, rfl⟩
    | true =>
      rw [copyToUserResult_two hfirst hone hnext] at h
      obtain ⟨hi, hptrhi, h⟩ := Option.bind_eq_some_iff.1 h
      obtain ⟨lo, hptrlo, rfl⟩ := Option.map_eq_some_iff.1 h
      obtain rfl := (pageVirtToMapped_eq hptrlo).1
      obtain rfl := (pageVirtToMapped_eq hptrhi).1
      have hall : ∀ i < source.length, m.check (lo + i) writable = true := by
        intro i hi
        rcases Nat.lt_or_ge i n with hin | hin
        · exact hlo i hin
        · rw [hhi i hi hin]
          exact hnext
      refine ⟨⟨fun _ => hall, fun _ => rfl⟩, ?_, ?_⟩
      · intro _
        refine ⟨fun a => copyIn_parts (m.setdirty (lo / kPageSize)) lo n source hle a, ?_⟩
        intro i hi
        rcases Nat.lt_or_ge i n with hin | hin
        · rw [frame_lo hin, isdirty_setdirty _ (frame_lt writable_ne_none hfirst)]
          split
          · rfl
          · exact hdirty m hfirst
        · rw [frame_hi hpage hi hin]
          exact hdirty _ hnext
      · intro i hi hrefused _
        rw [hall i hi] at hrefused
        cases hrefused

/-- **Which copies to a guest are right.** -/
theorem copyToUser_right_iff (m : AddressSpace) (target : ℕ) (source : List Byte) (hpage : source.length ≤ kPageSize) :
    (∃ r, m.copyToUserResult target source = some r ∧ CopyToUserRight m target source r) ↔
      StoreOpen m target source.length := by
  set n := share target source.length with hn
  have hle : n ≤ source.length := Nat.min_le_right _ _
  constructor
  · rintro ⟨r, hr, hright⟩
    refine ⟨?_, ?_, ?_⟩
    · -- a first byte that may not be written is reported without the user bit
      intro hpos
      by_contra hne
      have hclosed : m.check target writable = false := by simpa using hne
      have hzero : m.check (target + 0) writable = false := hclosed
      rw [copyToUserResult_closed hclosed] at hr
      obtain rfl := Option.some.inj hr
      obtain ⟨-, -, hpfec⟩ := hright.refused 0 hpos hzero fun j hj => absurd hj (Nat.not_lt_zero j)
      cases (PageFaultErrorCode.mk.inj hpfec).2.2.1
    · intro hzero hfirst
      have hone : share target source.length = source.length := by omega
      rw [copyToUserResult_one hfirst hone] at hr
      obtain ⟨lo, hptr, -⟩ := Option.map_eq_some_iff.1 hr
      exact (pageVirtToMapped_eq hptr).2
    · intro hall i hi
      have hfirst : m.check target writable = true := hall 0 (by omega)
      by_cases hone : n = source.length
      · rw [copyToUserResult_one hfirst hone] at hr
        obtain ⟨lo, hptr, -⟩ := Option.map_eq_some_iff.1 hr
        rw [pageFloor_lo (hone ▸ hi)]
        exact (pageVirtToMapped_eq hptr).2
      · rw [copyToUserResult_two hfirst hone (hall n (by omega))] at hr
        obtain ⟨hi', hptrhi, hr⟩ := Option.bind_eq_some_iff.1 hr
        obtain ⟨lo, hptrlo, -⟩ := Option.map_eq_some_iff.1 hr
        rcases Nat.lt_or_ge i n with hin | hin
        · rw [pageFloor_lo hin]
          exact (pageVirtToMapped_eq hptrlo).2
        · rw [(pageFloor_hi hpage hi hin).2]
          exact (pageVirtToMapped_eq hptrhi).2
  · rintro ⟨hopen, hstart, hbacked⟩
    cases hfirst : m.check target writable with
    | false =>
      -- only the empty copy is refused here
      have hzero : source.length = 0 := by
        by_contra hne
        rw [hopen (by omega)] at hfirst
        cases hfirst
      refine ⟨_, copyToUserResult_closed hfirst source, ⟨fun _ i hi => by omega, fun _ => hzero.symm⟩, ?_, ?_⟩
      · intro _
        refine ⟨fun a => ?_, fun i hi => by omega⟩
        rw [if_neg (by omega)]
      · intro i hi
        omega
    | true =>
      have hlo : m.mapped (pageFloor target) = true ∨ (∃ i < source.length, m.check (target + i) writable = false) := by
        by_cases hall : ∀ i < source.length, m.check (target + i) writable = true
        · left
          rcases Nat.eq_zero_or_pos source.length with hzero | hpos
          · exact hstart hzero hfirst
          · exact hbacked hall 0 hpos
        · right
          push Not at hall
          obtain ⟨i, hi, hne⟩ := hall
          exact ⟨i, hi, by simpa using hne⟩
      obtain ⟨r, hr⟩ : ∃ r, m.copyToUserResult target source = some r := by
        by_cases hone : n = source.length
        · rw [copyToUserResult_one hfirst hone]
          rcases hlo with hmapped | ⟨i, hi, hrefused⟩
          · rw [pageVirtToMapped_of_mapped hmapped]
            exact ⟨_, rfl⟩
          · rw [check_same_page (pageFloor_lo (hone ▸ hi)), hfirst] at hrefused
            cases hrefused
        · cases hnext : m.check (target + n) writable with
          | false => exact ⟨_, copyToUserResult_refused hfirst hone hnext⟩
          | true =>
            have hall : ∀ i < source.length, m.check (target + i) writable = true := by
              intro i hi
              rcases Nat.lt_or_ge i n with hin | hin
              · rw [check_same_page (pageFloor_lo hin)]
                exact hfirst
              · rw [check_same_page (pageFloor_hi hpage hi hin).2]
                exact hnext
            have hbase : m.mapped (pageFloor target) = true := hbacked hall 0 (by omega)
            rw [copyToUserResult_two hfirst hone hnext, pageVirtToMapped_of_mapped (hbacked hall n (by omega)),
              pageVirtToMapped_of_mapped hbase]
            exact ⟨_, rfl⟩
      exact ⟨r, hr, copyToUser_right hpage hfirst hr⟩

/-! ### Copies from a guest -/

variable {forexec : Bool} {addr bytes : ℕ}

theorem mayRead_same_page {a b : ℕ} (h : pageFloor a = pageFloor b) : m.mayRead forexec a = m.mayRead forexec b := by
  rw [mayRead, mayRead, check_same_page h, check_same_page h]

theorem readable_of_mayRead {a : ℕ} (h : m.mayRead forexec a = true) : m.check a readable = true := by
  rw [mayRead, Bool.and_eq_true] at h
  exact h.1

theorem readRange_append (m : AddressSpace) (a n k : ℕ) : m.readRange a (n + k) = m.readRange a n ++ m.readRange (a + n) k := by
  simp only [readRange, List.range_add, List.map_append, List.map_map]
  congr 1
  apply List.map_congr_left
  intro i _
  simp only [Function.comp_apply, Nat.add_assoc]

theorem copyFromUserResult_closed (h : m.mayRead forexec addr = false) (bytes : ℕ) :
    m.copyFromUserResult addr bytes forexec = some ⟨[], m.readFault forexec addr, addr⟩ := by
  simp only [copyFromUserResult, h, Bool.not_false, if_true]

theorem copyFromUserResult_one (h : m.mayRead forexec addr = true) (hone : share addr bytes = bytes) :
    m.copyFromUserResult addr bytes forexec = (m.pageVirtToMapped addr).map fun lo => ⟨m.readRange lo bytes, .none, 0⟩ := by
  simp only [copyFromUserResult, h, Bool.not_true, Bool.false_eq_true, if_false, hone, if_true]
  cases m.pageVirtToMapped addr <;> rfl

theorem copyFromUserResult_two (h : m.mayRead forexec addr = true) (htwo : share addr bytes ≠ bytes) :
    m.copyFromUserResult addr bytes forexec = (m.pageVirtToMapped addr).bind fun lo =>
      if m.mayRead forexec (addr + share addr bytes) = true then
        (m.pageVirtToMapped (addr + share addr bytes)).map fun hi =>
          ⟨m.readRange lo (share addr bytes) ++ m.readRange hi (bytes - share addr bytes), .none, 0⟩
      else some ⟨m.readRange lo (share addr bytes), m.readFault forexec (addr + share addr bytes), addr + share addr bytes⟩ := by
  have hne : readable ≠ .none := by decide
  simp only [copyFromUserResult, h, Bool.not_true, Bool.false_eq_true, if_false, htwo,
    next_eq hne (readable_of_mayRead h)]
  congr 1
  funext lo
  cases hnext : m.mayRead forexec (addr + share addr bytes) <;> simp

/-- Where the copy ends, it is the one the cores use. -/
theorem copyFromUserResult_eq {r : FetchWindow} (h : m.copyFromUserResult addr bytes forexec = some r) :
    r = m.copyFromUser addr bytes forexec := by
  -- the two tests of a byte are one
  have htest : ∀ a, (!m.check a ⟨true, false, false⟩ || (forexec && !(!forexec || m.check a ⟨false, false, true⟩))) =
      !m.mayRead forexec a := by
    intro a
    simp only [mayRead, readable, executable]
    cases m.check a ⟨true, false, false⟩ <;> cases forexec <;> cases m.check a ⟨false, false, true⟩ <;> rfl
  have hfault : ∀ a, (⟨m.check a ⟨true, false, false⟩, false, true,
      forexec && !(!forexec || m.check a ⟨false, false, true⟩)⟩ : PageFaultErrorCode) = m.readFault forexec a := by
    intro a
    simp only [readFault, readable, executable]
    cases forexec <;> rfl
  have hshare : min (kPageSize - addr % kPageSize) bytes = share addr bytes := rfl
  simp only [copyFromUser, htest, hfault, hshare]
  cases hfirst : m.mayRead forexec addr with
  | false =>
    rw [copyFromUserResult_closed hfirst] at h
    exact (Option.some.inj h).symm
  | true =>
    simp only [Bool.not_true, Bool.false_eq_true, if_false]
    by_cases hone : share addr bytes = bytes
    · rw [copyFromUserResult_one hfirst hone] at h
      obtain ⟨lo, hptr, rfl⟩ := Option.map_eq_some_iff.1 h
      rw [if_pos hone, (pageVirtToMapped_eq hptr).1, hone]
    · have hne : readable ≠ .none := by decide
      rw [copyFromUserResult_two hfirst hone] at h
      rw [if_neg hone, next_eq hne (readable_of_mayRead hfirst)]
      obtain ⟨lo, hptr, h⟩ := Option.bind_eq_some_iff.1 h
      obtain rfl := (pageVirtToMapped_eq hptr).1
      cases hnext : m.mayRead forexec (lo + share lo bytes) with
      | false =>
        rw [hnext, if_neg Bool.false_ne_true] at h
        exact (Option.some.inj h).symm
      | true =>
        rw [hnext, if_pos rfl] at h
        obtain ⟨hi, hptrhi, rfl⟩ := Option.map_eq_some_iff.1 h
        rw [(pageVirtToMapped_eq hptrhi).1]
        rfl

/-- The inputs on which `copy_from_user` is right: what may be read has a page. -/
structure LoadOpen (m : AddressSpace) (addr bytes : ℕ) (forexec : Bool) : Prop where
  start : bytes = 0 → m.mayRead forexec addr = true → m.mapped (pageFloor addr) = true
  backed : ∀ i < bytes, (∀ j ≤ i, m.mayRead forexec (addr + j) = true) → m.mapped (pageFloor (addr + i)) = true

/-- **A copy from a guest that ends is right.** -/
theorem copyFromUser_right (hpage : bytes ≤ kPageSize) {r : FetchWindow}
    (h : m.copyFromUserResult addr bytes forexec = some r) : CopyFromUserRight m addr bytes forexec r := by
  set n := share addr bytes with hn
  have hle : n ≤ bytes := Nat.min_le_right _ _
  -- the copy asks once for each of its two pages, and a page answers for all its bytes
  have hlo : ∀ i, i < n → m.mayRead forexec (addr + i) = m.mayRead forexec addr := by
    intro i hi
    exact mayRead_same_page (pageFloor_lo hi)
  have hhi : ∀ i, i < bytes → n ≤ i → m.mayRead forexec (addr + i) = m.mayRead forexec (addr + n) := by
    intro i hi hni
    exact mayRead_same_page (pageFloor_hi hpage hi hni).2
  cases hfirst : m.mayRead forexec addr with
  | false =>
    rw [copyFromUserResult_closed hfirst] at h
    obtain rfl := Option.some.inj h
    refine ⟨?_, ?_⟩
    · intro hall
      rcases Nat.eq_zero_or_pos bytes with rfl | hpos
      · rfl
      · have hzero : m.mayRead forexec addr = true := hall 0 hpos
        rw [hfirst] at hzero
        cases hzero
    · intro i hi _ hbefore
      rcases Nat.eq_zero_or_pos i with rfl | hpos
      · exact ⟨rfl, rfl, rfl⟩
      · have hzero : m.mayRead forexec addr = true := hbefore 0 hpos
        rw [hfirst] at hzero
        cases hzero
  | true =>
    by_cases hone : n = bytes
    · rw [copyFromUserResult_one hfirst hone] at h
      obtain ⟨lo, hptr, rfl⟩ := Option.map_eq_some_iff.1 h
      obtain rfl := (pageVirtToMapped_eq hptr).1
      refine ⟨fun _ => rfl, ?_⟩
      intro i hi hrefused _
      rw [hlo i (by omega), hfirst] at hrefused
      cases hrefused
    · have hlt : n < bytes := by omega
      rw [copyFromUserResult_two hfirst hone] at h
      obtain ⟨lo, hptr, h⟩ := Option.bind_eq_some_iff.1 h
      obtain rfl := (pageVirtToMapped_eq hptr).1
      cases hnext : m.mayRead forexec (lo + n) with
      | false =>
        rw [← hn, hnext, if_neg Bool.false_ne_true] at h
        obtain rfl := Option.some.inj h
        refine ⟨?_, ?_⟩
        · intro hall
          rw [hall n hlt] at hnext
          cases hnext
        · intro i hi hrefused hbefore
          have hi' : i = n := by
            -- the first refused byte can only be the first one of the second page
            rcases Nat.lt_trichotomy i n with hin | hin | hin
            · rw [hlo i hin, hfirst] at hrefused
              cases hrefused
            · exact hin
            · rw [hbefore n hin] at hnext
              cases hnext
          subst hi'
          exact ⟨rfl, rfl, rfl⟩
      | true =>
        rw [← hn, hnext, if_pos rfl] at h
        obtain ⟨hi, hptrhi, rfl⟩ := Option.map_eq_some_iff.1 h
        obtain rfl := (pageVirtToMapped_eq hptrhi).1
        refine ⟨?_, ?_⟩
        · intro _
          dsimp only
          rw [← readRange_append]
          congr 1
          omega
        · intro i hi hrefused _
          rcases Nat.lt_or_ge i n with hin | hin
          · rw [hlo i hin, hfirst] at hrefused
            cases hrefused
          · rw [hhi i hi hin, hnext] at hrefused
            cases hrefused

/-- **Which copies from a guest are right**: all that follow no null pointer. -/
theorem copyFromUser_right_iff (m : AddressSpace) (addr bytes : ℕ) (forexec : Bool) (hpage : bytes ≤ kPageSize) :
    (∃ r, m.copyFromUserResult addr bytes forexec = some r ∧ CopyFromUserRight m addr bytes forexec r) ↔
      LoadOpen m addr bytes forexec := by
  set n := share addr bytes with hn
  have hle : n ≤ bytes := Nat.min_le_right _ _
  constructor
  · rintro ⟨r, hr, -⟩
    refine ⟨?_, ?_⟩
    · intro hzero hfirst
      have hone : share addr bytes = bytes := by omega
      rw [copyFromUserResult_one hfirst hone] at hr
      obtain ⟨lo, hptr, -⟩ := Option.map_eq_some_iff.1 hr
      exact (pageVirtToMapped_eq hptr).2
    · intro i hi hall
      have hfirst : m.mayRead forexec addr = true := hall 0 (Nat.zero_le i)
      by_cases hone : n = bytes
      · rw [copyFromUserResult_one hfirst hone] at hr
        obtain ⟨lo, hptr, -⟩ := Option.map_eq_some_iff.1 hr
        rw [pageFloor_lo (hone ▸ hi)]
        exact (pageVirtToMapped_eq hptr).2
      · rw [copyFromUserResult_two hfirst hone] at hr
        obtain ⟨lo, hptr, hr⟩ := Option.bind_eq_some_iff.1 hr
        rcases Nat.lt_or_ge i n with hin | hin
        · rw [pageFloor_lo hin]
          exact (pageVirtToMapped_eq hptr).2
        · rw [if_pos (hall n hin)] at hr
          obtain ⟨hi', hptrhi, -⟩ := Option.map_eq_some_iff.1 hr
          rw [(pageFloor_hi hpage hi hin).2]
          exact (pageVirtToMapped_eq hptrhi).2
  · rintro ⟨hstart, hbacked⟩
    obtain ⟨r, hr⟩ : ∃ r, m.copyFromUserResult addr bytes forexec = some r := by
      cases hfirst : m.mayRead forexec addr with
      | false => exact ⟨_, copyFromUserResult_closed hfirst bytes⟩
      | true =>
        have hlo : ∀ i, i < n → m.mayRead forexec (addr + i) = true := by
          intro i hi
          rw [mayRead_same_page (pageFloor_lo hi)]
          exact hfirst
        have hbase : m.mapped (pageFloor addr) = true := by
          -- even an empty copy takes the pointer of its first page
          rcases Nat.eq_zero_or_pos bytes with hzero | hpos
          · exact hstart hzero hfirst
          · apply hbacked 0 hpos
            intro j hj
            obtain rfl := Nat.le_zero.1 hj
            exact hfirst
        by_cases hone : n = bytes
        · rw [copyFromUserResult_one hfirst hone, pageVirtToMapped_of_mapped hbase]
          exact ⟨_, rfl⟩
        · rw [copyFromUserResult_two hfirst hone, pageVirtToMapped_of_mapped hbase, Option.bind_some, ← hn]
          cases hnext : m.mayRead forexec (addr + n) with
          | false => exact ⟨_, rfl⟩
          | true =>
            have hmapped : m.mapped (pageFloor (addr + n)) = true := by
              apply hbacked n (by omega)
              intro j hj
              rcases Nat.lt_or_ge j n with hjn | hjn
              · exact hlo j hjn
              · obtain rfl := Nat.le_antisymm hj hjn
                exact hnext
            rw [pageVirtToMapped_of_mapped hmapped]
            exact ⟨_, rfl⟩
    exact ⟨r, hr, copyFromUser_right hpage hr⟩

/-- **Which copies are right**: every copy from a guest, and every copy to a guest that is not
refused at its first byte, as long as what is permitted has a page. -/
theorem userCopies_right_iff (m : AddressSpace) (addr : ℕ) (source : List Byte) (forexec : Bool)
    (hpage : source.length ≤ kPageSize) :
    ((∃ r, m.copyToUserResult addr source = some r ∧ CopyToUserRight m addr source r) ∧
        ∃ r, m.copyFromUserResult addr source.length forexec = some r ∧
          CopyFromUserRight m addr source.length forexec r) ↔
      StoreOpen m addr source.length ∧ LoadOpen m addr source.length forexec := by
  rw [copyToUser_right_iff m addr source hpage, copyFromUser_right_iff m addr source.length forexec hpage]

/-- Along low runs what is permitted has a page. -/
theorem loadOpen_of_low {machine : Bool} (h : SpaceRun (fun m op => op.Low m) machine m) (addr bytes : ℕ) (forexec : Bool) :
    LoadOpen m addr bytes forexec := by
  have hne : readable ≠ .none := by decide
  refine ⟨?_, ?_⟩
  · intro _ hread
    exact (mapped_of_low h hne (readable_of_mayRead hread)).2
  · intro i _ hall
    exact (mapped_of_low h hne (readable_of_mayRead (hall i le_rfl))).2

theorem storeOpen_of_low {machine : Bool} (h : SpaceRun (fun m op => op.Low m) machine m) (target bytes : ℕ) :
    StoreOpen m target bytes ↔ (0 < bytes → m.check target writable = true) := by
  constructor
  · exact StoreOpen.first
  · intro hfirst
    refine ⟨hfirst, ?_, ?_⟩
    · intro _ hcheck
      exact (mapped_of_low h writable_ne_none hcheck).2
    · intro hall i hi
      exact (mapped_of_low h writable_ne_none (hall i hi)).2

/-- One writable page, and two bytes of it. -/
theorem userCopies_right_pages :
    let m := (HostOp.exec (.init true) (.map 0x1000 0x1000 ⟨true, true, false⟩ 8)).space
    ([1, 2] : List Byte).length ≤ kPageSize ∧ (∃ r, m.copyToUserResult 0x1ff0 [1, 2] = some r ∧ CopyToUserRight m 0x1ff0 [1, 2] r) ∧
      ∃ r, m.copyFromUserResult 0x1ff0 2 false = some r ∧ CopyFromUserRight m 0x1ff0 2 false r := by
  intro m
  have hpage : ([1, 2] : List Byte).length ≤ kPageSize := by decide
  have hrun := run_page ⟨true, true, false⟩
  have hfirst : m.check 0x1ff0 writable = true := by decide +kernel
  exact ⟨hpage, (userCopies_right_iff m 0x1ff0 [1, 2] false hpage).2
    ⟨(storeOpen_of_low hrun _ _).2 fun _ => hfirst, loadOpen_of_low hrun _ _ _⟩⟩

/-- A copy to a page that does not exist is reported without the user bit. -/
theorem not_copyToUser_right :
    ¬ ∃ r, (AddressSpace.init true).copyToUserResult 0x1000 [1] = some r ∧ CopyToUserRight (.init true) 0x1000 [1] r := by
  rintro ⟨r, hr, hright⟩
  have hopen := (copyToUser_right_iff (.init true) 0x1000 [1] (by decide)).1 ⟨r, hr, hright⟩
  have hfirst := hopen.first (by decide)
  revert hfirst
  decide +kernel

end AddressSpace
end X86Sim
