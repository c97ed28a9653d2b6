import X86Sim.Mem.AddressSpace

/-!
# Protections of pages

The contents of pages are keyed by 64-bit addresses, the permission bits by page
numbers of 48-bit addresses. The two tables agree as long as no operation reaches
the bits of a page through an alias of its address.

* `HostOp.sets_of_attr`: what an operation that sets attributes does to the tables.
* `Accounted.exec`: a harmless operation keeps the tables in agreement.
* `backed_of_harmless`: so along harmless runs every accessible address is backed
  by a page, and every page has the protection it was last given.
-/

namespace X86Sim
namespace AddressSpace

variable {m m' : AddressSpace} {given : ℕ → Protection}

/-- The host's calls on one address space. -/
inductive HostOp
  | map (start size : W64) (prot : Protection) (alloc : ℕ)
  | unmap (start size : W64)
  | protect (start size : W64) (prot : Protection)
  | write (start : W64) (data : List Byte)

def HostOp.exec (m : AddressSpace) : HostOp → Effect
  | .map start size prot alloc => m.map start.toNat size.toNat prot alloc
  | .unmap start size => m.unmap start.toNat size.toNat
  | .protect start size prot => m.protect start.toNat size.toNat prot
  | .write start data => m.write start.toNat data

/-- The arguments of a call of `setattr`. -/
structure Attr where
  start : ℕ
  len : ℕ
  prot : Protection
  deriving DecidableEq

/-- The range that `unmap` and `protect` compute: up to the ceiling of its end, a
64-bit sum. -/
def rangeOf (start size : ℕ) : Option (ℕ × ℕ) :=
  (pageCeil ((pageFloor start + size) % 2 ^ 64)).map fun stop =>
    (pageFloor start, (stop + (2 ^ 64 - pageFloor start)) % 2 ^ 64)

/-- The call of `setattr` that an operation makes, if it gets there; a `map` may fail in it. -/
def HostOp.attr (m : AddressSpace) : HostOp → Option Attr
  | .map start size prot alloc =>
    if size.toNat = 0 ∨ rangeOverflows start.toNat size.toNat then none
    else
      match pageCeil size.toNat with
      | none => none
      | some len =>
        if alloc < len / kPageSize then none else some ⟨pageFloor start.toNat, len, prot⟩
  | .unmap start size =>
    if size.toNat = 0 ∨ rangeOverflows start.toNat size.toNat then none
    else (rangeOf start.toNat size.toNat).map fun r => ⟨r.1, r.2, .none⟩
  | .protect start size prot =>
    if (m.protect start.toNat size.toNat prot).invalidated.isSome then
      (rangeOf start.toNat size.toNat).map fun r => ⟨r.1, r.2, prot⟩
    else none
  | .write _ _ => none

/-- The protection each page was last given, by its own 64-bit address. A call that fails in
`setattr` leaves the pages of its range with what it has set. -/
def HostOp.give (m : AddressSpace) (given : ℕ → Protection) (op : HostOp) : ℕ → Protection :=
  match op.attr m with
  | none => given
  | some t => fun page =>
    if t.start ≤ page ∧ page < t.start + t.len then
      match (op.exec m).result with
      | .ok () => t.prot
      | .error _ => (op.exec m).space.protectionAt page
    else given page

/-- The states that calls satisfying `ok` lead to, with the protections they gave. -/
inductive HostRun (ok : AddressSpace → HostOp → Prop) (machine : Bool) :
    AddressSpace → (ℕ → Protection) → Prop
  | init : HostRun ok machine (.init machine) fun _ => .none
  | step {m : AddressSpace} {given : ℕ → Protection} (op : HostOp) :
      HostRun ok machine m given → ok m op →
      HostRun ok machine (op.exec m).space (op.give m given)

/-- What the cores rely on: an accessible address has a page, and a page has the
protection it was last given. -/
structure Backed (m : AddressSpace) (given : ℕ → Protection) : Prop where
  mapped : ∀ (a : W64) (p : Protection), p ≠ .none → m.check a.toNat p = true →
    m.pageVirtToMapped a.toNat ≠ none
  given : ∀ a : W64, m.check a.toNat (given (pageFloor a.toNat)) = true

/-! ### Harmless operations -/

/-- The pages whose bits are set are the pages meant: the masked range stays within
the bitmap, which `make_accessible` asserts, and the mask changes nothing, or only
clears bits that are clear. -/
def Attr.Harmless (m : AddressSpace) (t : Attr) : Prop :=
  t.start % addressSpaceSize + t.len ≤ addressSpaceSize ∧
    (t.start + t.len ≤ addressSpaceSize ∨
      t.prot = .none ∧ ∀ a, t.start % addressSpaceSize ≤ a →
        a < t.start % addressSpaceSize + t.len → m.protectionAt a = .none)

def HostOp.Harmless (m : AddressSpace) (op : HostOp) : Prop :=
  ∀ t, op.attr m = some t → t.Harmless m

/-! ### What an operation does to the tables -/

theorem pageFloor_dvd (a : ℕ) : pageFloor a % kPageSize = 0 := by
  simp only [pageFloor, kPageSize]; omega

theorem pageCeil_eq {a c : ℕ} (h : pageCeil a = some c) :
    c % kPageSize = 0 ∧ a ≤ c ∧ c < a + kPageSize ∧ c ≤ 2 ^ 64 - kPageSize := by
  simp only [pageCeil] at h
  split at h
  · cases h
  · obtain rfl := Option.some.inj h
    simp only [pageFloor, kPageSize] at *
    omega

/-- A range is made of whole pages, is not empty and ends within 64 bits; when it
does not reach their end, it ends at the ceiling. -/
theorem rangeOf_eq {start size : ℕ} {r : ℕ × ℕ} (hstart : start < 2 ^ 64) (hsize : size ≠ 0)
    (hsize' : size < 2 ^ 64) (ho : rangeOverflows start size = false)
    (h : rangeOf start size = some r) :
    r.1 = pageFloor start ∧ r.2 % kPageSize = 0 ∧ 0 < r.2 ∧ r.1 + r.2 ≤ 2 ^ 64 ∧
      (r.1 + r.2 < 2 ^ 64 → pageCeil ((pageFloor start + size) % 2 ^ 64) = some (r.1 + r.2)) := by
  simp only [rangeOf, Option.map_eq_some_iff] at h
  obtain ⟨stop, hstop, rfl⟩ := h
  obtain ⟨hmod, hle, hlt, hmax⟩ := pageCeil_eq hstop
  have hfloor : pageFloor start ≤ start := by simp only [pageFloor]; omega
  have hdvd := pageFloor_dvd start
  simp only [rangeOverflows, Bool.and_eq_false_iff, bne_eq_false_iff_eq, decide_eq_false_iff_not,
    hsize, false_or] at ho
  simp only [kPageSize] at hmod hlt hmax hdvd
  rcases Nat.lt_or_ge (pageFloor start + size) (2 ^ 64) with hin | hwrap
  · rw [Nat.mod_eq_of_lt hin] at hle hlt
    have hlen : (stop + (2 ^ 64 - pageFloor start)) % 2 ^ 64 = stop - pageFloor start := by omega
    have hsum : pageFloor start + (stop - pageFloor start) = stop := by omega
    rw [hlen, hsum]
    refine ⟨rfl, ?_, by omega, by omega, fun _ => hstop⟩
    simp only [kPageSize]; omega
  · -- the sum is 2 ^ 64: the end wraps to zero
    have hzero : (pageFloor start + size) % 2 ^ 64 = 0 := by omega
    rw [hzero] at hle hlt
    have hlen : (stop + (2 ^ 64 - pageFloor start)) % 2 ^ 64 = 2 ^ 64 - pageFloor start := by omega
    rw [hlen]
    refine ⟨rfl, ?_, by omega, by omega, fun h => by omega⟩
    simp only [kPageSize]; omega

/-- `m'` is `m` after a call of `setattr` on `t`, with the page table following. -/
structure Sets (m m' : AddressSpace) (t : Attr) : Prop where
  aligned : t.start % kPageSize = 0 ∧ t.len % kPageSize = 0
  pos : 0 < t.len
  fits : t.start + t.len ≤ 2 ^ 64
  read : m'.readmap = makeRange t.start t.len m.readmap t.prot.read
  write : m'.writemap = makeRange t.start t.len m.writemap t.prot.write
  execute : m'.execmap = makeRange t.start t.len m.execmap t.prot.execute
  outside : ∀ a, a < t.start ∨ t.start + t.len ≤ a → m'.mapped a = m.mapped a
  inside : t.prot ≠ .none → t.start + t.len < 2 ^ 64 → ∀ a, a % kPageSize = 0 → t.start ≤ a →
    a < t.start + t.len → m'.mapped a = true

/-- `m'` is `m` after a call of `setattr` on `t` that fails, with the pages of the range. -/
structure Stops (m m' : AddressSpace) (t : Attr) : Prop where
  aligned : t.start % kPageSize = 0 ∧ t.len % kPageSize = 0
  pos : 0 < t.len
  read : ∃ n, m'.readmap = makeFirst t.start t.len m.readmap t.prot.read n
  write : ∃ n, m'.writemap = makeFirst t.start t.len m.writemap t.prot.write n
  execute : ∃ n, m'.execmap = makeFirst t.start t.len m.execmap t.prot.execute n
  outside : ∀ a, a < t.start ∨ t.start + t.len ≤ a → m'.mapped a = m.mapped a
  inside : ∀ a, a % kPageSize = 0 → t.start ≤ a → a < t.start + t.len → m'.mapped a = true

theorem mem_pagesOf {start stop a : ℕ} (hstart : start % kPageSize = 0)
    (hstop : stop % kPageSize = 0) :
    a ∈ pagesOf start stop ↔ a % kPageSize = 0 ∧ start ≤ a ∧ a < stop := by
  simp only [pagesOf, List.mem_map, List.mem_range]
  constructor
  · rintro ⟨i, hi, rfl⟩
    simp only [kPageSize] at *
    omega
  · rintro ⟨ha, hlo, hhi⟩
    refine ⟨(a - start) / kPageSize, ?_, ?_⟩ <;> simp only [kPageSize] at * <;> omega

theorem rangeOverflows_of_not {start size : ℕ}
    (h : ¬ (size = 0 ∨ rangeOverflows start size = true)) :
    size ≠ 0 ∧ rangeOverflows start size = false := by
  constructor
  · intro h0; exact h (.inl h0)
  · cases ho : rangeOverflows start size
    · rfl
    · exact absurd (.inr ho) h

theorem insertPages_outside {start len a : ℕ} (hlen : len % kPageSize = 0) (ha : a < start ∨ start + len ≤ a) :
    (m.insertPages start (len / kPageSize)).mapped a = m.mapped a := by
  have hnum : len / kPageSize * kPageSize = len := Nat.div_mul_cancel (Nat.dvd_of_mod_eq_zero hlen)
  have hout : (a % kPageSize == 0 && decide (start ≤ a) && decide (a < start + len)) = false := by
    rw [Bool.eq_false_iff]
    intro hin
    simp only [Bool.and_eq_true, decide_eq_true_eq] at hin
    omega
  simp only [insertPages, hnum, hout, Bool.or_false]

theorem insertPages_inside {start len a : ℕ} (hlen : len % kPageSize = 0) (ha : a % kPageSize = 0) (hlo : start ≤ a)
    (hhi : a < start + len) : (m.insertPages start (len / kPageSize)).mapped a = true := by
  have hnum : len / kPageSize * kPageSize = len := Nat.div_mul_cancel (Nat.dvd_of_mod_eq_zero hlen)
  simp [insertPages, hnum, ha, hlo, hhi]

/-- A `map` that reaches `setattr` has inserted its pages, and succeeds if no chunk is refused. -/
theorem map_of_attr {start size : W64} {prot : Protection} {alloc : ℕ} {t : Attr}
    (h : (HostOp.map start size prot alloc).attr m = some t) :
    t.prot = prot ∧ (t.start % kPageSize = 0 ∧ t.len % kPageSize = 0) ∧ 0 < t.len ∧ t.start + t.len ≤ 2 ^ 64 ∧
      m.map start.toNat size.toNat prot alloc =
        if alloc < mapSteps (t.len / kPageSize) then
          ⟨.error .outOfMemory, (m.insertPages t.start (t.len / kPageSize)).setattrFirst t.start t.len prot
            (alloc - t.len / kPageSize), none⟩
        else ⟨.ok (), (m.insertPages t.start (t.len / kPageSize)).setattr t.start t.len prot,
          some (start.toNat, size.toNat)⟩ := by
  simp only [HostOp.attr] at h
  split at h
  · cases h
  rename_i hok
  obtain ⟨hsize, hover⟩ := rangeOverflows_of_not hok
  cases hceil : pageCeil size.toNat with
  | none => rw [hceil] at h; cases h
  | some len =>
    simp only [hceil] at h
    split at h
    · cases h
    rename_i hall
    obtain rfl := Option.some.inj h
    obtain ⟨hmod, hle, hceil', -⟩ := pageCeil_eq hceil
    have hfloor : pageFloor start.toNat ≤ start.toNat := by simp only [pageFloor]; omega
    have hlt := start.isLt
    have hlt' := size.isLt
    have hdvd := pageFloor_dvd start.toNat
    refine ⟨rfl, ⟨hdvd, hmod⟩, by dsimp only; omega, ?_, ?_⟩
    · simp only [rangeOverflows, Bool.and_eq_false_iff, bne_eq_false_iff_eq, decide_eq_false_iff_not,
        hsize, false_or] at hover
      simp only [kPageSize] at *
      omega
    · simp only [map, hsize, if_false, hover, Bool.false_eq_true, mapOrThrow, hceil, hall]
      by_cases hbits : alloc < mapSteps (len / kPageSize)
      · simp only [hbits, if_true]
      · simp only [hbits, if_false]

theorem sets_map {start size : W64} {prot : Protection} {alloc : ℕ} {t : Attr}
    (h : (HostOp.map start size prot alloc).attr m = some t)
    (hok : (m.map start.toNat size.toNat prot alloc).result = .ok ()) :
    Sets m (m.map start.toNat size.toNat prot alloc).space t := by
  obtain ⟨hprot, haligned, hpos, hfits, hrun⟩ := map_of_attr h
  rw [hrun] at hok ⊢
  by_cases hbits : alloc < mapSteps (t.len / kPageSize)
  · rw [if_pos hbits] at hok
    cases hok
  · rw [if_neg hbits, ← hprot]
    exact ⟨haligned, hpos, hfits, rfl, rfl, rfl, fun a ha => insertPages_outside haligned.2 ha,
      fun _ _ a ha hlo hhi => insertPages_inside haligned.2 ha hlo hhi⟩

/-- A `map` that fails in `setattr` has all its pages and some of its bits. -/
theorem stops_map {start size : W64} {prot : Protection} {alloc : ℕ} {t : Attr}
    (h : (HostOp.map start size prot alloc).attr m = some t)
    (hno : (m.map start.toNat size.toNat prot alloc).result ≠ .ok ()) :
    Stops m (m.map start.toNat size.toNat prot alloc).space t := by
  obtain ⟨hprot, haligned, hpos, hfits, hrun⟩ := map_of_attr h
  rw [hrun] at hno ⊢
  by_cases hbits : alloc < mapSteps (t.len / kPageSize)
  · rw [if_pos hbits, ← hprot]
    exact ⟨haligned, hpos, ⟨_, rfl⟩, ⟨_, rfl⟩, ⟨_, rfl⟩, fun a ha => insertPages_outside haligned.2 ha,
      fun a ha hlo hhi => insertPages_inside haligned.2 ha hlo hhi⟩
  · rw [if_neg hbits] at hno
    exact absurd rfl hno

theorem sets_unmap {start size : W64} {t : Attr} (h : (HostOp.unmap start size).attr m = some t) :
    Sets m (m.unmap start.toNat size.toNat).space t := by
  simp only [HostOp.attr] at h
  split at h
  · cases h
  rename_i hok
  obtain ⟨hsize, hover⟩ := rangeOverflows_of_not hok
  obtain ⟨r, hr, rfl⟩ := Option.map_eq_some_iff.1 h
  obtain ⟨hfst, hmod, hpos, hfits, hceil⟩ := rangeOf_eq start.isLt hsize size.isLt hover hr
  have hr' := hr
  simp only [rangeOf, Option.map_eq_some_iff] at hr'
  obtain ⟨stop, hstop, rfl⟩ := hr'
  dsimp only at *
  have hspace : (m.unmap start.toNat size.toNat).space =
      { m with
        mapped := fun p => if p ∈ pagesOf (pageFloor start.toNat) stop then false
          else m.mapped p }.setattr (pageFloor start.toNat)
        ((stop + (2 ^ 64 - pageFloor start.toNat)) % 2 ^ 64) .none := by
    simp only [unmap, hok, if_false, hstop]
  rw [hspace]
  refine ⟨⟨pageFloor_dvd _, hmod⟩, hpos, hfits, rfl, rfl, rfl, fun a ha => ?_,
    fun hne => absurd rfl hne⟩
  have hout : a ∉ pagesOf (pageFloor start.toNat) stop := by
    rw [mem_pagesOf (pageFloor_dvd _) (pageCeil_eq hstop).1]
    have hmax := (pageCeil_eq hstop).2.2.2
    have hfloor : pageFloor start.toNat < 2 ^ 64 :=
      lt_of_le_of_lt (Nat.sub_le _ _) start.isLt
    dsimp only at ha
    simp only [kPageSize] at hmax
    omega
  simp only [setattr, hout, if_false]

theorem sets_protect {start size : W64} {prot : Protection} {t : Attr}
    (h : (HostOp.protect start size prot).attr m = some t) :
    Sets m (m.protect start.toNat size.toNat prot).space t := by
  simp only [HostOp.attr] at h
  split at h
  case isFalse => cases h
  rename_i hinv
  obtain ⟨r, hr, rfl⟩ := Option.map_eq_some_iff.1 h
  have hr' := hr
  simp only [rangeOf, Option.map_eq_some_iff] at hr'
  obtain ⟨stop, hstop, rfl⟩ := hr'
  unfold protect at hinv ⊢
  split at hinv
  · cases hinv
  rename_i hsize
  split at hinv
  · cases hinv
  rename_i hover
  simp only [hstop] at hinv
  split at hinv
  case isFalse => cases hinv
  rename_i hall
  have hover' := Bool.eq_false_iff.2 hover
  obtain ⟨-, hmod, hpos, hfits, hceil⟩ := rangeOf_eq start.isLt hsize size.isLt hover' hr
  simp only [hsize, if_false, hover', Bool.false_eq_true, hstop, hall, if_true]
  refine ⟨⟨pageFloor_dvd _, hmod⟩, hpos, hfits, rfl, rfl, rfl, fun a _ => rfl,
    fun _ hlt a ha hlo hhi => ?_⟩
  have hend := Option.some.inj (hstop.symm.trans (hceil hlt))
  have hmem : a ∈ pagesOf (pageFloor start.toNat) stop := by
    rw [mem_pagesOf (pageFloor_dvd _) (pageCeil_eq hstop).1]
    exact ⟨ha, hlo, by rw [hend]; exact hhi⟩
  exact List.all_eq_true.1 hall a hmem

/-- **An operation that reaches `setattr`** sets the bits of that range, if it succeeds. -/
theorem HostOp.sets_of_attr {op : HostOp} {t : Attr} (h : op.attr m = some t) (hok : (op.exec m).result = .ok ()) :
    Sets m (op.exec m).space t := by
  cases op with
  | map => exact sets_map h hok
  | unmap => exact sets_unmap h
  | protect => exact sets_protect h
  | write => cases h

theorem unmap_ok (start size : ℕ) : (m.unmap start size).result = .ok () := by
  unfold unmap
  split
  · rfl
  · dsimp only
    split <;> rfl

theorem protect_of_attr {start size : W64} {prot : Protection} {t : Attr}
    (h : (HostOp.protect start size prot).attr m = some t) :
    (m.protect start.toNat size.toNat prot).result = .ok () := by
  simp only [HostOp.attr] at h
  split at h
  case isFalse => cases h
  rename_i hinv
  unfold protect at hinv ⊢
  split at hinv
  · cases hinv
  rename_i hsize
  split at hinv
  · cases hinv
  rename_i hover
  rw [if_neg hsize, if_neg hover]
  dsimp only at hinv ⊢
  cases hceil : pageCeil ((pageFloor start.toNat + size.toNat) % 2 ^ 64) with
  | none =>
    rw [hceil] at hinv
    cases hinv
  | some stop =>
    simp only [hceil] at hinv ⊢
    split at hinv
    · rename_i hall
      rw [if_pos hall]
    · cases hinv

/-- Only a `map` fails in `setattr`. -/
theorem HostOp.stops_of_attr {op : HostOp} {t : Attr} (h : op.attr m = some t) (hno : (op.exec m).result ≠ .ok ()) :
    Stops m (op.exec m).space t := by
  cases op with
  | map => exact stops_map h hno
  | unmap start size => exact absurd (unmap_ok _ _) hno
  | protect => exact absurd (protect_of_attr h) hno
  | write => cases h

theorem protect_of_not_invalidated {start size : ℕ} {prot : Protection}
    (h : (m.protect start size prot).invalidated = none) : (m.protect start size prot).space = m := by
  unfold protect at h ⊢
  split
  · rfl
  split
  · rfl
  rename_i hsize hover
  rw [if_neg hsize, if_neg hover] at h
  dsimp only at h ⊢
  cases hceil : pageCeil ((pageFloor start + size) % 2 ^ 64) with
  | none => rfl
  | some stop =>
    simp only [hceil] at h ⊢
    split
    · rename_i hall; rw [if_pos hall] at h; cases h
    · rfl

/-- `write` touches bytes only. -/
theorem writeLoop_protections (fuel : ℕ) (m : AddressSpace) (addr : ℕ) (data : List Byte) :
    (∀ a, (writeLoop fuel m addr data).2.protectionAt a = m.protectionAt a) ∧
      (writeLoop fuel m addr data).2.mapped = m.mapped := by
  induction fuel generalizing m addr data with
  | zero => exact ⟨fun _ => rfl, rfl⟩
  | succ fuel ih =>
    simp only [writeLoop]
    split
    · exact ⟨fun _ => rfl, rfl⟩
    · cases m.pageVirtToMapped addr with
      | none => exact ⟨fun _ => rfl, rfl⟩
      | some dst =>
        obtain ⟨hprot, hmapped⟩ := ih (m.copyIn dst (data.take _)) (addr + _) (data.drop _)
        exact ⟨hprot, hmapped⟩

theorem write_protections (start : ℕ) (data : List Byte) :
    (∀ a, (m.write start data).space.protectionAt a = m.protectionAt a) ∧
      (m.write start data).space.mapped = m.mapped := by
  unfold write
  split
  · exact ⟨fun _ => rfl, rfl⟩
  split
  · exact ⟨fun _ => rfl, rfl⟩
  · exact writeLoop_protections _ _ _ _

/-- `m'` has the bits of `m` and all its pages. -/
structure Retains (m m' : AddressSpace) : Prop where
  bits : ∀ a, m'.protectionAt a = m.protectionAt a
  pages : ∀ a, m.mapped a = true → m'.mapped a = true

theorem Retains.refl : Retains m m := ⟨fun _ => rfl, fun _ h => h⟩

theorem retains_map {start size : W64} {prot : Protection} {alloc : ℕ}
    (h : (HostOp.map start size prot alloc).attr m = none) :
    Retains m (m.map start.toNat size.toNat prot alloc).space := by
  simp only [HostOp.attr] at h
  unfold map
  by_cases hsize : size.toNat = 0
  · rw [if_pos hsize]; exact .refl
  cases hover : rangeOverflows start.toNat size.toNat
  · simp only [hsize, hover, Bool.false_eq_true, or_self, if_false, mapOrThrow] at h ⊢
    cases hceil : pageCeil size.toNat with
    | none => exact .refl
    | some len =>
      simp only [hceil] at h ⊢
      split at h
      · rename_i hall
        -- the allocator runs out: pages are inserted, bits stay
        simp only [hall, if_true]
        exact ⟨fun _ => rfl, fun a ha => by simp only [insertPages, ha, Bool.true_or]⟩
      · cases h
  · rw [if_neg hsize, if_pos rfl]; exact .refl

theorem retains_unmap {start size : W64} (h : (HostOp.unmap start size).attr m = none) :
    Retains m (m.unmap start.toNat size.toNat).space := by
  simp only [HostOp.attr] at h
  unfold unmap
  split at h
  · rename_i hskip
    rw [if_pos hskip]; exact .refl
  · rename_i hok
    simp only [rangeOf, Option.map_map, Option.map_eq_none_iff] at h
    rw [if_neg hok]
    simp only [h]
    exact .refl

theorem retains_protect {start size : W64} {prot : Protection}
    (h : (HostOp.protect start size prot).attr m = none) :
    Retains m (m.protect start.toNat size.toNat prot).space := by
  simp only [HostOp.attr] at h
  cases hinv : (m.protect start.toNat size.toNat prot).invalidated with
  | none => rw [protect_of_not_invalidated hinv]; exact .refl
  | some r =>
    -- the range was computed, so attributes were set
    rw [hinv] at h
    simp only [Option.isSome_some, if_true, rangeOf, Option.map_map, Option.map_eq_none_iff] at h
    unfold protect at hinv
    split at hinv
    · cases hinv
    split at hinv
    · cases hinv
    · simp only [h] at hinv; cases hinv

/-- **An operation that does not reach `setattr`** keeps the bits and every page. -/
theorem HostOp.retains_of_attr {op : HostOp} (h : op.attr m = none) :
    Retains m (op.exec m).space := by
  cases op with
  | map => exact retains_map h
  | unmap => exact retains_unmap h
  | protect => exact retains_protect h
  | write start data =>
    obtain ⟨hbits, hmapped⟩ := write_protections (m := m) start.toNat data
    exact ⟨hbits, fun a ha => by rw [← ha]; exact congrFun hmapped a⟩

/-! ### The two tables agree -/

theorem protectionAt_pageFloor (a : ℕ) : m.protectionAt (pageFloor a) = m.protectionAt a := by
  have hpage : pageid (pageFloor a) = pageid a := by
    simp only [pageid, pageFloor, addressSpaceSize, kPageSize]; omega
  simp only [protectionAt, hpage]

theorem check_of_lt {a : ℕ} (h : a < addressSpaceSize) (p : Protection) :
    m.check a p = ((!p.read || (m.protectionAt a).read) && (!p.write || (m.protectionAt a).write) &&
      (!p.execute || (m.protectionAt a).execute)) := by
  have hsmall : a / addressSpaceSize = 0 := Nat.div_eq_of_lt h
  simp only [check, fastcheck, hsmall, ne_eq, not_true_eq_false, if_false, protectionAt]

theorem Protection.eq_none_of {p : Protection} (hr : p.read = false) (hw : p.write = false)
    (hx : p.execute = false) : p = .none := by
  cases p; simp_all [Protection.none]

/-- Nothing but the empty protection holds outside the 48-bit space. -/
theorem lt_of_check {a : ℕ} {p : Protection} (hp : p ≠ .none) (h : m.check a p = true) :
    a < addressSpaceSize := by
  by_contra hge
  have hlarge : a / addressSpaceSize ≠ 0 := by
    simp only [addressSpaceSize] at hge ⊢; omega
  simp only [check, fastcheck, hlarge, ne_eq, not_false_eq_true, if_true, Bool.or_false,
    Bool.and_eq_true, Bool.not_eq_true'] at h
  exact hp (Protection.eq_none_of h.1.1 h.1.2 h.2)

/-- The bits of an aligned range within the bitmap. -/
theorem makeRange_eq {start len a : ℕ} (top : ℕ → Bool) (v : Bool) (hstart : start % kPageSize = 0)
    (hlen : len % kPageSize = 0) (hpos : 0 < len)
    (hin : start % addressSpaceSize + len ≤ addressSpaceSize) (ha : a < addressSpaceSize) :
    makeRange start len top v (pageid a) =
      if start % addressSpaceSize ≤ a ∧ a < start % addressSpaceSize + len then v
      else top (pageid a) := by
  have hiff : (start % addressSpaceSize / kPageSize ≤ pageid a ∧
      pageid a ≤ (start % addressSpaceSize + len + (2 ^ 64 - 1)) % 2 ^ 64 / kPageSize) ↔
      (start % addressSpaceSize ≤ a ∧ a < start % addressSpaceSize + len) := by
    have hmod : start % addressSpaceSize % kPageSize = 0 := by
      rw [Nat.mod_mod_of_dvd _ (by decide)]; exact hstart
    simp only [pageid, addressSpaceSize, kPageSize] at *
    omega
  simp only [makeRange, hiff]

variable {t : Attr}

theorem makeFirst_cases (start len : ℕ) (top : ℕ → Bool) (v : Bool) (n page : ℕ) :
    makeFirst start len top v n page = makeRange start len top v page ∨ makeFirst start len top v n page = top page := by
  unfold makeFirst
  split
  · exact .inl rfl
  · exact .inr rfl

/-- The bits outside the range stay, however far it gets. -/
theorem Stops.protectionAt_eq (h : Stops m m' t) {a : ℕ} (hin : t.start % addressSpaceSize + t.len ≤ addressSpaceSize)
    (ha : a < addressSpaceSize)
    (hout : ¬(t.start % addressSpaceSize ≤ a ∧ a < t.start % addressSpaceSize + t.len)) :
    m'.protectionAt a = m.protectionAt a := by
  obtain ⟨hstart, hlen⟩ := h.aligned
  obtain ⟨r, hr⟩ := h.read
  obtain ⟨w, hw⟩ := h.write
  obtain ⟨x, hx⟩ := h.execute
  have hkept : ∀ top v n, makeFirst t.start t.len top v n (pageid a) = top (pageid a) := by
    intro top v n
    rcases makeFirst_cases t.start t.len top v n (pageid a) with heq | heq
    · rw [heq, makeRange_eq top v hstart hlen h.pos hin ha, if_neg hout]
    · exact heq
  simp only [protectionAt, hr, hw, hx, hkept]

/-- Bits that are clear and to be cleared are clear. -/
theorem Stops.protectionAt_none (h : Stops m m' t) {a : ℕ} (hnone : t.prot = .none) (ha : m.protectionAt a = .none) :
    m'.protectionAt a = .none := by
  obtain ⟨r, hr⟩ := h.read
  obtain ⟨w, hw⟩ := h.write
  obtain ⟨x, hx⟩ := h.execute
  have hclear : ∀ top n, top (pageid a) = false → makeFirst t.start t.len top false n (pageid a) = false := by
    intro top n htop
    rcases makeFirst_cases t.start t.len top false n (pageid a) with heq | heq
    · rw [heq]
      unfold makeRange
      split
      · rfl
      · exact htop
    · rw [heq, htop]
  have hbits : m.readmap (pageid a) = false ∧ m.writemap (pageid a) = false ∧ m.execmap (pageid a) = false := by
    simp only [protectionAt, Protection.none, Protection.mk.injEq] at ha
    exact ha
  simp only [protectionAt, hr, hw, hx, hnone, Protection.none, hclear _ _ hbits.1, hclear _ _ hbits.2.1,
    hclear _ _ hbits.2.2]

theorem Sets.protectionAt_eq (h : Sets m m' t) {a : ℕ}
    (hin : t.start % addressSpaceSize + t.len ≤ addressSpaceSize) (ha : a < addressSpaceSize) :
    m'.protectionAt a =
      if t.start % addressSpaceSize ≤ a ∧ a < t.start % addressSpaceSize + t.len then t.prot
      else m.protectionAt a := by
  obtain ⟨hstart, hlen⟩ := h.aligned
  simp only [protectionAt, h.read, h.write, h.execute,
    makeRange_eq _ _ hstart hlen h.pos hin ha]
  split <;> rfl

/-- The bits of the 48-bit space are the protections given, and a page with a
protection is in that space and in the page table. -/
structure Accounted (m : AddressSpace) (given : ℕ → Protection) : Prop where
  bits : ∀ a, a % kPageSize = 0 → a < addressSpaceSize → m.protectionAt a = given a
  backed : ∀ a, a % kPageSize = 0 → given a ≠ .none → a < addressSpaceSize ∧ m.mapped a = true

/-- An operation that sets attributes within its own 48-bit range, or only clears
bits that are clear. -/
theorem Accounted.sets (h : Accounted m given) (hs : Sets m m' t) (hh : t.Harmless m) :
    Accounted m' fun page =>
      if t.start ≤ page ∧ page < t.start + t.len then t.prot else given page := by
  obtain ⟨hin, hcase⟩ := hh
  have hpos := hs.pos
  constructor
  · intro a ha hlt
    rw [hs.protectionAt_eq hin hlt]
    rcases hcase with hown | ⟨hnone, hclear⟩
    · -- the mask is the identity on this range
      have hstart : t.start % addressSpaceSize = t.start := Nat.mod_eq_of_lt (by omega)
      simp only [hstart, h.bits a ha hlt]
    · by_cases hmask : t.start % addressSpaceSize ≤ a ∧ a < t.start % addressSpaceSize + t.len
      · have hgiven : given a = .none := by
          rw [← h.bits a ha hlt]; exact hclear a hmask.1 hmask.2
        simp only [hmask, and_self, if_true, hnone, hgiven, ite_self]
      · have hown : ¬ (t.start ≤ a ∧ a < t.start + t.len) := by
          rintro ⟨hlo, hhi⟩
          rw [Nat.mod_eq_of_lt (lt_of_le_of_lt hlo hlt)] at hmask
          exact hmask ⟨hlo, hhi⟩
        simp only [hmask, hown, if_false, h.bits a ha hlt]
  · intro a ha hne
    by_cases hown : t.start ≤ a ∧ a < t.start + t.len
    · simp only [hown, and_self, if_true] at hne
      rcases hcase with hfit | ⟨hnone, -⟩
      · have hsmall : t.start + t.len < 2 ^ 64 := by
          simp only [addressSpaceSize] at hfit; omega
        exact ⟨by omega, hs.inside hne hsmall a ha hown.1 hown.2⟩
      · exact absurd hnone hne
    · simp only [hown, if_false] at hne
      obtain ⟨hlt, hmapped⟩ := h.backed a ha hne
      have hout : a < t.start ∨ t.start + t.len ≤ a := by omega
      exact ⟨hlt, by rw [hs.outside a hout]; exact hmapped⟩

/-- A page has the bits of its alias. -/
theorem protectionAt_of_clear (hin : t.start % addressSpaceSize + t.len ≤ addressSpaceSize)
    (hclear : ∀ a, t.start % addressSpaceSize ≤ a → a < t.start % addressSpaceSize + t.len → m.protectionAt a = .none)
    {a : ℕ} (hlo : t.start ≤ a) (hhi : a < t.start + t.len) : m.protectionAt a = .none := by
  have halias : m.protectionAt a = m.protectionAt (a % addressSpaceSize) := by
    simp only [protectionAt, pageid, Nat.mod_mod]
  have hle : t.start % addressSpaceSize + (a - t.start) < addressSpaceSize := by omega
  have hsum : a % addressSpaceSize = t.start % addressSpaceSize + (a - t.start) := by
    rw [← Nat.mod_eq_of_lt hle, Nat.mod_add_mod]
    congr 1
    omega
  rw [halias]
  exact hclear _ (by omega) (by omega)

/-- So does one that fails on the way. -/
theorem Accounted.stops (h : Accounted m given) (hs : Stops m m' t) (hh : t.Harmless m) :
    Accounted m' fun page =>
      if t.start ≤ page ∧ page < t.start + t.len then m'.protectionAt page else given page := by
  obtain ⟨hin, hcase⟩ := hh
  have hpos := hs.pos
  constructor
  · intro a ha hlt
    by_cases hown : t.start ≤ a ∧ a < t.start + t.len
    · simp only [hown, and_self, if_true]
    · simp only [hown, if_false]
      rw [← h.bits a ha hlt]
      by_cases hmask : t.start % addressSpaceSize ≤ a ∧ a < t.start % addressSpaceSize + t.len
      · rcases hcase with hfit | ⟨hnone, hclear⟩
        · have hstart : t.start % addressSpaceSize = t.start := Nat.mod_eq_of_lt (by omega)
          rw [hstart] at hmask
          exact absurd hmask hown
        · rw [hclear a hmask.1 hmask.2]
          exact hs.protectionAt_none hnone (hclear a hmask.1 hmask.2)
      · exact hs.protectionAt_eq hin hlt hmask
  · intro a ha hne
    by_cases hown : t.start ≤ a ∧ a < t.start + t.len
    · simp only [hown, and_self, if_true] at hne
      rcases hcase with hfit | ⟨hnone, hclear⟩
      · exact ⟨by omega, hs.inside a ha hown.1 hown.2⟩
      · exact absurd (hs.protectionAt_none hnone (protectionAt_of_clear hin hclear hown.1 hown.2)) hne
    · simp only [hown, if_false] at hne
      obtain ⟨hlt, hmapped⟩ := h.backed a ha hne
      exact ⟨hlt, by rw [hs.outside a (by omega)]; exact hmapped⟩

theorem Accounted.retains (h : Accounted m given) (hr : Retains m m') : Accounted m' given where
  bits a ha hlt := by rw [hr.bits]; exact h.bits a ha hlt
  backed a ha hne := ⟨(h.backed a ha hne).1, hr.pages a (h.backed a ha hne).2⟩

theorem accounted_init (machine : Bool) : Accounted (.init machine) fun _ => .none :=
  ⟨fun _ _ _ => rfl, fun _ _ hne => absurd rfl hne⟩

/-- **A harmless operation keeps the tables in agreement.** -/
theorem Accounted.exec {op : HostOp} (h : Accounted m given) (hh : op.Harmless m) :
    Accounted (op.exec m).space (op.give m given) := by
  cases hattr : op.attr m with
  | none =>
    simp only [HostOp.give, hattr]
    exact h.retains (HostOp.retains_of_attr hattr)
  | some t =>
    simp only [HostOp.give, hattr]
    cases hres : (op.exec m).result with
    | ok => exact h.sets (HostOp.sets_of_attr hattr hres) (hh t hattr)
    | error e =>
      refine h.stops (HostOp.stops_of_attr hattr fun hok => ?_) (hh t hattr)
      rw [hres] at hok
      cases hok

theorem Accounted.of_run {machine : Bool} (h : HostRun (fun m op => op.Harmless m) machine m given) :
    Accounted m given := by
  induction h with
  | init => exact accounted_init machine
  | step _ _ hok ih => exact ih.exec hok

theorem Accounted.toBacked (h : Accounted m given) : Backed m given := by
  have hfloor : ∀ a : ℕ, a < addressSpaceSize → pageFloor a < addressSpaceSize := fun a ha =>
    lt_of_le_of_lt (Nat.sub_le _ _) ha
  constructor
  · intro a p hp hcheck
    have hlt := lt_of_check hp hcheck
    have hbits := h.bits _ (pageFloor_dvd a.toNat) (hfloor _ hlt)
    rw [protectionAt_pageFloor] at hbits
    have hne : given (pageFloor a.toNat) ≠ .none := by
      intro hnone
      rw [hnone] at hbits
      rw [check_of_lt hlt, hbits] at hcheck
      simp only [Protection.none, Bool.or_false, Bool.and_eq_true, Bool.not_eq_true'] at hcheck
      exact hp (Protection.eq_none_of hcheck.1.1 hcheck.1.2 hcheck.2)
    have hmapped := (h.backed _ (pageFloor_dvd a.toNat) hne).2
    simp only [pageVirtToMapped, hmapped, if_true]
    exact Option.some_ne_none _
  · intro a
    by_cases hnone : given (pageFloor a.toNat) = .none
    · rw [hnone]; rfl
    · have hlt : a.toNat < addressSpaceSize := by
        have hpage := (h.backed _ (pageFloor_dvd a.toNat) hnone).1
        simp only [pageFloor, addressSpaceSize, kPageSize] at hpage ⊢
        omega
      have hbits := h.bits _ (pageFloor_dvd a.toNat) (hfloor _ hlt)
      rw [protectionAt_pageFloor] at hbits
      rw [check_of_lt hlt, hbits]
      simp

/-- **The condition is exact**: from a state where the tables agree, a call that succeeds and
whose range fits the bitmap leaves accessible addresses backed only if it is harmless. -/
theorem Accounted.harmless_of_backed {op : HostOp} (h : Accounted m given) (hok : (op.exec m).result = .ok ())
    (hfit : ∀ t, op.attr m = some t → t.start % addressSpaceSize + t.len ≤ addressSpaceSize)
    (hb : Backed (op.exec m).space (op.give m given)) : op.Harmless m := by
  intro t hattr
  have hs := HostOp.sets_of_attr hattr hok
  have hin := hfit t hattr
  have hpos := hs.pos
  have hfits := hs.fits
  have hgive : op.give m given = fun page =>
      if t.start ≤ page ∧ page < t.start + t.len then t.prot else given page := by
    simp only [HostOp.give, hattr, hok]
  rw [hgive] at hb
  refine ⟨hin, ?_⟩
  by_contra hbad
  push Not at hbad
  obtain ⟨hover, hbad⟩ := hbad
  have hstart : addressSpaceSize ≤ t.start := by
    by_contra hlt
    rw [Nat.mod_eq_of_lt (not_le.1 hlt)] at hin
    omega
  have hw64 : ∀ a : ℕ, a < 2 ^ 64 → (BitVec.ofNat 64 a).toNat = a := fun a ha => by
    rw [BitVec.toNat_ofNat]; exact Nat.mod_eq_of_lt ha
  by_cases hnone : t.prot = .none
  · -- a page of the 48-bit space loses the protection it was given
    obtain ⟨a, hlo, hhi, hne⟩ := hbad hnone
    have hlt : a < addressSpaceSize := by omega
    have hfloor : pageFloor a < addressSpaceSize := lt_of_le_of_lt (Nat.sub_le _ _) hlt
    have hbits := h.bits _ (pageFloor_dvd a) hfloor
    rw [protectionAt_pageFloor] at hbits
    have hcheck := hb.given (BitVec.ofNat 64 a)
    rw [hw64 a (by simp only [addressSpaceSize] at hlt; omega)] at hcheck
    have hout : ¬ (t.start ≤ pageFloor a ∧ pageFloor a < t.start + t.len) := by omega
    simp only [hout, if_false] at hcheck
    rw [check_of_lt hlt, hs.protectionAt_eq hin hlt, if_pos ⟨hlo, hhi⟩, hnone] at hcheck
    simp only [Protection.none, Bool.or_false, Bool.and_eq_true, Bool.not_eq_true'] at hcheck
    exact hne (hbits.trans (Protection.eq_none_of hcheck.1.1 hcheck.1.2 hcheck.2))
  · -- a page outside the 48-bit space is given a protection
    have hcheck := hb.given (BitVec.ofNat 64 t.start)
    rw [hw64 t.start (by omega)] at hcheck
    have hfloor : pageFloor t.start = t.start := by
      have halign := hs.aligned.1
      simp only [pageFloor, halign, Nat.sub_zero]
    have hown : t.start ≤ t.start ∧ t.start < t.start + t.len := ⟨le_refl _, by omega⟩
    simp only [hfloor, hown, and_self, if_true] at hcheck
    exact absurd (lt_of_check hnone hcheck) (not_lt.2 hstart)

/-! ### Runs of the host's calls -/

/-- **Accessible addresses are backed**, and pages keep the protection they were
given, along every run in which no call reaches bits through an alias. -/
theorem backed_of_harmless {machine : Bool} {m : AddressSpace} {given : ℕ → Protection}
    (h : HostRun (fun m op => op.Harmless m) machine m given) : Backed m given :=
  (Accounted.of_run h).toBacked

/-- A call of `setattr` on a range of the 48-bit space is harmless. -/
theorem HostOp.harmless_of_attr {op : HostOp} {t : Attr} (h : op.attr m = some t)
    (hle : t.start + t.len ≤ addressSpaceSize) : op.Harmless m := by
  intro t' ht'
  obtain rfl := Option.some.inj (h.symm.trans ht')
  exact ⟨le_trans (Nat.add_le_add_right (Nat.mod_le _ _) _) hle, .inl hle⟩

/-- Two writable pages, one of them then made read-only, the other unmapped. -/
theorem backed_two_pages :
    let m₁ := (HostOp.exec (.init true) (.map 0x1000 0x2000 ⟨true, true, false⟩ 8)).space
    let m₂ := (HostOp.exec m₁ (.protect 0x1000 0x1000 ⟨true, false, false⟩)).space
    let m₃ := (HostOp.exec m₂ (.unmap 0x2000 0x1000)).space
    (∃ given, Backed m₃ given) ∧ m₁.check 0x2000 ⟨false, true, false⟩ = true ∧
      m₃.check 0x1000 ⟨true, false, false⟩ = true ∧ m₃.check 0x1000 ⟨false, true, false⟩ = false ∧
      m₃.check 0x2000 ⟨true, false, false⟩ = false := by
  intro m₁ m₂ m₃
  have h₁ : (HostOp.map 0x1000 0x2000 ⟨true, true, false⟩ 8).attr (.init true) =
      some ⟨0x1000, 0x2000, ⟨true, true, false⟩⟩ := by decide +kernel
  have h₂ : (HostOp.protect 0x1000 0x1000 ⟨true, false, false⟩).attr m₁ =
      some ⟨0x1000, 0x1000, ⟨true, false, false⟩⟩ := by decide +kernel
  have h₃ : (HostOp.unmap 0x2000 0x1000).attr m₂ = some ⟨0x2000, 0x1000, .none⟩ := by
    decide +kernel
  have hinit : HostRun (fun m op => op.Harmless m) true (.init true) fun _ => .none := .init
  have hrun := ((hinit.step _ (HostOp.harmless_of_attr h₁ (by decide))).step _
    (HostOp.harmless_of_attr h₂ (by decide))).step _ (HostOp.harmless_of_attr h₃ (by decide))
  exact ⟨⟨_, backed_of_harmless hrun⟩, by decide +kernel, by decide +kernel, by decide +kernel,
    by decide +kernel⟩

/-- A page mapped at an alias of an address makes that address accessible. -/
theorem alias_unbacked : ¬ ∀ (machine : Bool) (m : AddressSpace) (given : ℕ → Protection),
    HostRun (fun _ _ => True) machine m given → Backed m given := by
  intro h
  have hb := h true _ _ (.step (.map 0x1000000001000 0x1000 ⟨true, false, false⟩ 4) .init trivial)
  exact hb.mapped 0x1000 ⟨true, false, false⟩ (by decide) (by decide +kernel) (by decide +kernel)

end AddressSpace
end X86Sim
