import X86Sim.Context
import X86Sim.Mem.Protections

/-!
# Translation of guest addresses (`x86sim.cpp`)

The permission of an access is that of its address, the page that of the address with bit 47
extended, and the pages are keyed by all 64 bits. The pointer that `page_virt_to_mapped`
gives is kept as the address of the byte it points to; a null pointer is none.

* `translate_right_iff`: which translations are right, in any address space.
* `translate_right_of_run`: they all are along runs that stay below bit 47.
-/

namespace X86Sim
namespace AddressSpace

variable {m m' : AddressSpace} {given : ℕ → Protection}

def readable : Protection := ⟨true, false, false⟩
def writable : Protection := ⟨false, true, false⟩
def executable : Protection := ⟨false, false, true⟩

/-- `signext64(a, 48)`. -/
def signext48 (a : W64) : W64 := (a.setWidth 48).signExtend 64

/-- `check_and_translate` with the pointer it returns, none if it is null. -/
def translate (m : AddressSpace) (virtaddr : W64) (sizeshift : ℕ) (store internal : Bool) :
    Except (InternalException × PageFaultErrorCode) (Option PhysAddr) :=
  if lowbits virtaddr.toNat sizeshift ≠ 0 then .error (.unalignedAccess, .none)
  else if internal then .ok (some (.host virtaddr.toNat))
  else if !m.check virtaddr.toNat (if store then writable else readable) then
    .error (if store then .pageFaultOnWrite else .pageFaultOnRead,
      ⟨m.check virtaddr.toNat readable, store, true, false⟩)
  else .ok ((m.pageVirtToMapped (floor8 (signext48 virtaddr).toNat)).map .guest)

/-- What a guest may rely on: the pointer is that of its own byte, and an access that is
not permitted gets its page fault. -/
structure TranslateRight (m : AddressSpace) (virtaddr : W64) (sizeshift : ℕ) (store : Bool) : Prop where
  pointer : ∀ p, m.translate virtaddr sizeshift store false = .ok p →
    p = (m.pageVirtToMapped (floor8 virtaddr.toNat)).map .guest ∧ p ≠ none
  fault : m.check virtaddr.toNat (if store then writable else readable) = false →
    ∃ pfec, m.translate virtaddr sizeshift store false =
      .error (if store then .pageFaultOnWrite else .pageFaultOnRead, pfec) ∧ pfec.rw = store

/-- Permissions are those of pages. -/
theorem check_pageFloor (m : AddressSpace) (a : ℕ) (p : Protection) : m.check (pageFloor a) p = m.check a p := by
  have hpage : pageid (pageFloor a) = pageid a := by
    simp only [pageid, pageFloor, addressSpaceSize, kPageSize]
    omega
  have hhigh : pageFloor a / addressSpaceSize = a / addressSpaceSize := by
    simp only [pageFloor, addressSpaceSize, kPageSize]
    omega
  simp only [check, fastcheck, hpage, hhigh]

theorem check_same_page {a b : ℕ} (h : pageFloor a = pageFloor b) (p : Protection) : m.check a p = m.check b p := by
  rw [← check_pageFloor m a, h, check_pageFloor]

theorem needed_ne_none (store : Bool) : (if store then writable else readable) ≠ Protection.none := by
  cases store <;> decide

theorem pageFloor_floor8 (a : ℕ) : pageFloor (floor8 a) = pageFloor a := by
  simp only [pageFloor, floor8, kPageSize]
  omega

/-- Below bit 47 the sign extension changes nothing. -/
theorem signext48_of_lt {a : W64} (h : a.toNat < 2 ^ 47) : (signext48 a).toNat = a.toNat := by
  rw [signext48, BitVec.toNat_signExtend]
  have hmsb : (a.setWidth 48).msb = false := by
    rw [BitVec.msb_eq_decide, decide_eq_false_iff_not, BitVec.toNat_setWidth]
    omega
  rw [hmsb, BitVec.toNat_setWidth, BitVec.toNat_setWidth]
  simp
  omega

/-- From bit 47 on it moves the address to the top of the 64 bits. -/
theorem signext48_of_ge {a : W64} (h : 2 ^ 47 ≤ a.toNat) (hlt : a.toNat < 2 ^ 48) :
    (signext48 a).toNat = a.toNat + (2 ^ 64 - 2 ^ 48) := by
  rw [signext48, BitVec.toNat_signExtend]
  have hmsb : (a.setWidth 48).msb = true := by
    rw [BitVec.msb_eq_decide, decide_eq_true_eq, BitVec.toNat_setWidth]
    omega
  rw [hmsb, BitVec.toNat_setWidth, BitVec.toNat_setWidth]
  simp
  omega

/-- **Which translations are right**: those of addresses below bit 47 that have a page, and
those of aligned addresses that are not permitted. -/
theorem translate_right_iff (m : AddressSpace) (virtaddr : W64) (sizeshift : ℕ) (store : Bool) :
    TranslateRight m virtaddr sizeshift store ↔
      (lowbits virtaddr.toNat sizeshift = 0 → m.check virtaddr.toNat (if store then writable else readable) = true →
        virtaddr.toNat < 2 ^ 47 ∧ m.mapped (pageFloor virtaddr.toNat) = true) ∧
      (m.check virtaddr.toNat (if store then writable else readable) = false → lowbits virtaddr.toNat sizeshift = 0) := by
  set needed := if store then writable else readable with hneeded
  have hself : pageFloor (floor8 virtaddr.toNat) = pageFloor virtaddr.toNat := pageFloor_floor8 _
  constructor
  · rintro ⟨hpointer, hfault⟩
    constructor
    · intro halign hcheck
      have hlt48 := lt_of_check (needed_ne_none store) hcheck
      have hok : m.translate virtaddr sizeshift store false =
          .ok ((m.pageVirtToMapped (floor8 (signext48 virtaddr).toNat)).map .guest) := by
        simp only [translate, halign, ne_eq, not_true_eq_false, if_false, Bool.false_eq_true, ← hneeded, hcheck, Bool.not_true]
      obtain ⟨heq, hne⟩ := hpointer _ hok
      -- from bit 47 on the sign extension names another page
      by_cases hlow : virtaddr.toNat < 2 ^ 47
      · refine ⟨hlow, ?_⟩
        rw [signext48_of_lt hlow, pageVirtToMapped, hself] at hne
        by_contra hun
        rw [if_neg hun] at hne
        exact hne rfl
      · -- the pointer is that of another address
        exfalso
        rw [signext48_of_ge (by omega) hlt48] at heq hne
        simp only [pageVirtToMapped] at heq hne
        split at heq
        · split at heq
          · have hsame := PhysAddr.guest.inj (Option.some.inj heq)
            simp only [floor8] at hsame
            omega
          · cases heq
        · rename_i hun
          rw [if_neg hun] at hne
          exact hne rfl
    · intro hcheck
      obtain ⟨pfec, herr, -⟩ := hfault hcheck
      by_contra halign
      rw [translate, if_pos halign] at herr
      obtain ⟨hexc, -⟩ := Prod.mk.inj (Except.error.inj herr)
      cases store <;> cases hexc
  · rintro ⟨hok, hfault⟩
    constructor
    · intro p hp
      by_cases halign : lowbits virtaddr.toNat sizeshift = 0
      · cases hcheck : m.check virtaddr.toNat needed with
        | true =>
          obtain ⟨hlow, hmapped⟩ := hok halign hcheck
          simp only [translate, halign, ne_eq, not_true_eq_false, if_false, Bool.false_eq_true, ← hneeded, hcheck,
            Bool.not_true, Except.ok.injEq] at hp
          rw [signext48_of_lt hlow] at hp
          refine ⟨hp.symm, ?_⟩
          rw [← hp, pageVirtToMapped, hself, if_pos hmapped]
          simp
        | false =>
          simp [translate, halign, ← hneeded, hcheck] at hp
      · rw [translate, if_pos halign] at hp
        cases hp
    · intro hcheck
      change m.check virtaddr.toNat needed = false at hcheck
      refine ⟨⟨m.check virtaddr.toNat readable, store, true, false⟩, ?_, rfl⟩
      simp only [translate, hfault hcheck, ne_eq, not_true_eq_false, if_false, Bool.false_eq_true, ← hneeded, hcheck,
        Bool.not_false, if_true]

/-- Where it is right, the translation is the one the cores use. -/
theorem translate_eq (m : AddressSpace) (virtaddr : W64) (sizeshift : ℕ) (store : Bool)
    (h : TranslateRight m virtaddr sizeshift store) :
    m.translate virtaddr sizeshift store false =
      (checkAndTranslate m virtaddr.toNat sizeshift store false).map some := by
  have hsame : (if store then writable else readable) = ⟨!store, store, false⟩ := by cases store <;> rfl
  obtain ⟨hok, -⟩ := (translate_right_iff _ _ _ _).1 h
  rw [hsame] at hok
  by_cases halign : lowbits virtaddr.toNat sizeshift = 0
  · cases hcheck : m.check virtaddr.toNat ⟨!store, store, false⟩ with
    | true =>
      obtain ⟨hlow, hmapped⟩ := hok halign hcheck
      simp only [translate, checkAndTranslate, halign, ne_eq, not_true_eq_false, if_false, Bool.false_eq_true, hsame, hcheck,
        Bool.not_true, signext48_of_lt hlow, pageVirtToMapped, pageFloor_floor8, hmapped, if_true]
      rfl
    | false =>
      simp only [translate, checkAndTranslate, halign, ne_eq, not_true_eq_false, if_false, Bool.false_eq_true, hsame, hcheck,
        Bool.not_false, if_true]
      rfl
  · rw [translate, checkAndTranslate, if_pos halign, if_pos halign]
    rfl

/-! ### Runs -/

/-- The address spaces of a run: the host's calls, clones, the marks and the stores of the
cores. -/
inductive SpaceRun (ok : AddressSpace → HostOp → Prop) (machine : Bool) : AddressSpace → Prop
  | init : SpaceRun ok machine (.init machine)
  | call {m : AddressSpace} (op : HostOp) (h : SpaceRun ok machine m) (hok : ok m op) : SpaceRun ok machine (op.exec m).space
  | clone {m : AddressSpace} (h : SpaceRun ok machine m) : SpaceRun ok machine m.copy
  | setdirty {m : AddressSpace} (mfn : ℕ) (h : SpaceRun ok machine m) : SpaceRun ok machine (m.setdirty mfn)
  | cleardirty {m : AddressSpace} (mfn : ℕ) (h : SpaceRun ok machine m) : SpaceRun ok machine (m.cleardirty mfn)
  | store {m : AddressSpace} (a : ℕ) (data : W64) (bytemask : BitVec 8) (h : SpaceRun ok machine m) :
    SpaceRun ok machine (m.storemask a data bytemask)

/-- A call that reaches no bit through an alias, and permits nothing from bit 47 on. -/
structure HostOp.Low (m : AddressSpace) (op : HostOp) : Prop where
  harmless : op.Harmless m
  below : ∀ t, op.attr m = some t → t.prot ≠ .none → t.start + t.len ≤ 2 ^ 47

theorem hasPage_of_mapped {a : ℕ} (ha : a % kPageSize = 0) (hlt : a < addressSpaceSize) (h : m.mapped a = true) :
    m.hasPage (pageid a) = true := by
  rw [hasPage, List.any_eq_true]
  refine ⟨0, List.mem_range.2 (by decide), ?_⟩
  have hpage : 0 * addressSpaceSize + pageid a * kPageSize = a := by
    simp only [pageid, addressSpaceSize, kPageSize] at *
    omega
  rw [hpage]
  exact h

/-- A copy keeps the tables in agreement. -/
theorem Accounted.copy (h : Accounted m given) : Accounted m.copy given := by
  refine ⟨?_, h.backed⟩
  intro a ha hlt
  have hbits := h.bits a ha hlt
  by_cases hnone : given a = .none
  · rw [hnone] at hbits ⊢
    have hprot := Protection.mk.inj hbits
    simp only [protectionAt, AddressSpace.copy, hprot.1, hprot.2.1, hprot.2.2, Bool.and_false]
    rfl
  · have hpage := hasPage_of_mapped ha hlt (h.backed a ha hnone).2
    simp only [protectionAt, AddressSpace.copy, hpage, Bool.true_and]
    exact hbits

/-- **Along low runs** the tables agree, and nothing is permitted from bit 47 on. -/
theorem accounted_of_low {machine : Bool} (h : SpaceRun (fun m op => op.Low m) machine m) :
    ∃ given, Accounted m given ∧ ∀ a, given a ≠ .none → a < 2 ^ 47 := by
  induction h with
  | init => exact ⟨_, accounted_init machine, fun _ hne => absurd rfl hne⟩
  | @call m op _ hok ih =>
    obtain ⟨given, hacc, hlow⟩ := ih
    refine ⟨op.give m given, hacc.exec hok.harmless, ?_⟩
    intro a hne
    cases hattr : op.attr m with
    | none =>
      simp only [HostOp.give, hattr] at hne
      exact hlow a hne
    | some t =>
      simp only [HostOp.give, hattr] at hne
      split at hne
      · rename_i hin
        have hend : t.prot ≠ .none → t.start + t.len ≤ 2 ^ 47 := hok.below t hattr
        by_cases hnone : t.prot = .none
        · -- what a failing call still permits there was permitted before
          cases hres : (op.exec m).result with
          | ok =>
            rw [hres] at hne
            exact absurd hnone hne
          | error e =>
            rw [hres] at hne
            have hs := HostOp.stops_of_attr hattr fun hok => by
              rw [hres] at hok
              cases hok
            obtain ⟨hfit, hcase⟩ := hok.harmless t hattr
            rcases hcase with hown | ⟨-, hclear⟩
            · have hfloor : pageFloor a < addressSpaceSize := lt_of_le_of_lt (Nat.sub_le _ _) (by omega)
              have hbits := hacc.bits _ (pageFloor_dvd a) hfloor
              rw [protectionAt_pageFloor] at hbits
              have hbelow := hlow (pageFloor a) fun hgiven => hne (hs.protectionAt_none hnone (hbits.trans hgiven))
              simp only [pageFloor, kPageSize] at hbelow
              omega
            · exact absurd (hs.protectionAt_none hnone (protectionAt_of_clear hfit hclear hin.1 hin.2)) hne
        · have hbelow := hend hnone
          omega
      · exact hlow a hne
  | clone _ ih =>
    obtain ⟨given, hacc, hlow⟩ := ih
    exact ⟨given, hacc.copy, hlow⟩
  | setdirty mfn _ ih =>
    obtain ⟨given, hacc, hlow⟩ := ih
    exact ⟨given, ⟨hacc.bits, hacc.backed⟩, hlow⟩
  | cleardirty mfn _ ih =>
    obtain ⟨given, hacc, hlow⟩ := ih
    exact ⟨given, ⟨hacc.bits, hacc.backed⟩, hlow⟩
  | store a data bytemask _ ih =>
    obtain ⟨given, hacc, hlow⟩ := ih
    exact ⟨given, ⟨hacc.bits, hacc.backed⟩, hlow⟩

/-- What is accessible along low runs is below bit 47 and has a page. -/
theorem mapped_of_low {machine : Bool} (h : SpaceRun (fun m op => op.Low m) machine m) {a : ℕ} {p : Protection}
    (hp : p ≠ .none) (hcheck : m.check a p = true) : a < 2 ^ 47 ∧ m.mapped (pageFloor a) = true := by
  obtain ⟨given, hacc, hlow⟩ := accounted_of_low h
  have hlt := lt_of_check hp hcheck
  have hfloor : pageFloor a < addressSpaceSize := lt_of_le_of_lt (Nat.sub_le _ _) hlt
  have hne : given (pageFloor a) ≠ .none := by
    intro hnone
    have hbits := hacc.bits _ (pageFloor_dvd a) hfloor
    rw [protectionAt_pageFloor, hnone] at hbits
    rw [check_of_lt hlt, hbits] at hcheck
    simp only [Protection.none, Bool.or_false, Bool.and_eq_true, Bool.not_eq_true'] at hcheck
    exact hp (Protection.eq_none_of hcheck.1.1 hcheck.1.2 hcheck.2)
  have hbelow := hlow _ hne
  refine ⟨?_, (hacc.backed _ (pageFloor_dvd a) hne).2⟩
  simp only [pageFloor, kPageSize] at hbelow
  omega

/-- **Translations along low runs**: they are all right but for one kind, an access that is
neither permitted nor aligned, which the cores split first. -/
theorem translate_right_of_run {machine : Bool} (h : SpaceRun (fun m op => op.Low m) machine m) (virtaddr : W64)
    (sizeshift : ℕ) (store : Bool) :
    TranslateRight m virtaddr sizeshift store ↔
      (m.check virtaddr.toNat (if store then writable else readable) = false → lowbits virtaddr.toNat sizeshift = 0) := by
  rw [translate_right_iff]
  constructor
  · exact And.right
  · intro hfault
    exact ⟨fun _ hcheck => mapped_of_low h (needed_ne_none store) hcheck, hfault⟩

/-- A page mapped below bit 47. -/
theorem run_page (prot : Protection) :
    SpaceRun (fun m op => op.Low m) true (HostOp.exec (.init true) (.map 0x1000 0x1000 prot 8)).space := by
  have hattr : (HostOp.map 0x1000 0x1000 prot 8).attr (.init true) = some ⟨0x1000, 0x1000, prot⟩ := by
    obtain ⟨r, w, x⟩ := prot
    cases r <;> cases w <;> cases x <;> decide +kernel
  refine .call _ .init ⟨HostOp.harmless_of_attr hattr (by decide : 0x1000 + 0x1000 ≤ addressSpaceSize), ?_⟩
  intro t ht _
  obtain rfl := Option.some.inj (hattr.symm.trans ht)
  exact (by decide : 0x1000 + 0x1000 ≤ 2 ^ 47)

/-- A page below bit 47, read and then written without permission. -/
theorem translate_right_of_page :
    let m := (HostOp.exec (.init true) (.map 0x1000 0x1000 ⟨true, false, false⟩ 8)).space
    TranslateRight m 0x1008 3 false ∧ TranslateRight m 0x1008 3 true ∧ m.check 0x1008 readable = true ∧
      m.check 0x1008 writable = false := by
  intro m
  have hrun := run_page ⟨true, false, false⟩
  exact ⟨(translate_right_of_run hrun 0x1008 3 false).2 fun _ => by decide,
    (translate_right_of_run hrun 0x1008 3 true).2 fun _ => by decide, by decide +kernel, by decide +kernel⟩

/-- A page mapped at an alias of address 0x1000 makes that address accessible, and its
translation a null pointer. -/
theorem not_translate_right : ¬ ∀ (machine : Bool) (m : AddressSpace), SpaceRun (fun _ _ => True) machine m →
    ∀ (virtaddr : W64) (sizeshift : ℕ) (store : Bool), lowbits virtaddr.toNat sizeshift = 0 →
      TranslateRight m virtaddr sizeshift store := by
  intro h
  have hright := h true _ (.call (.map 0x1000000001000 0x1000 ⟨true, false, false⟩ 4) .init trivial) 0x1000 3 false
    (by decide)
  have hnull := hright.pointer none (by decide +kernel)
  exact hnull.2 rfl

end AddressSpace
end X86Sim
