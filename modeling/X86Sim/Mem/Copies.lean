import X86Sim.Mem.WholePages

/-!
# Host writes and copies of address spaces (`addrspace.cpp`)

`write` goes page by page and stops at the first page that does not exist. A copy is made
page by page as well, into pages of its own: `mapped_mem_` holds its pages by `unique_ptr`,
so the pages of two address spaces are apart in host memory.

* `writeLoop_spec`: what the loop of `write` has stored when it stops.
* `exec_view`, `exec_frame`: an operation on one address space is that operation on its
  contents, and leaves the other spaces alone.
* `hostSpace_right_iff`: when a write is all or nothing and a copy agrees with its source.
-/

namespace X86Sim
namespace AddressSpace

variable {m : AddressSpace}

/-! ### Writes -/

/-- All pages of the bytes up to `i`. -/
def Backs (m : AddressSpace) (addr i : ℕ) : Prop := ∀ j ≤ i, m.mapped (pageFloor (addr + j)) = true

/-- **What the loop of `write` stores**: the bytes up to the first page that does not exist. -/
theorem writeLoop_spec (fuel : ℕ) (m : AddressSpace) (addr : ℕ) (data : List Byte) (hfuel : data.length ≤ fuel) :
    ((writeLoop fuel m addr data).1 = .ok () ↔ ∀ i < data.length, m.mapped (pageFloor (addr + i)) = true) ∧
      (∀ i < data.length, m.Backs addr i → (writeLoop fuel m addr data).2.bytes (addr + i) = data.getD i 0) ∧
      ∀ i < data.length, ¬ m.Backs addr i → (writeLoop fuel m addr data).2.bytes (addr + i) = m.bytes (addr + i) := by
  induction fuel generalizing m addr data with
  | zero =>
    have hlen : data.length = 0 := Nat.le_zero.1 hfuel
    refine ⟨⟨fun _ i hi => by omega, fun _ => rfl⟩, fun i hi => by omega, fun i hi => by omega⟩
  | succ fuel ih =>
    rcases Nat.eq_zero_or_pos data.length with hzero | hpos
    · obtain rfl := List.length_eq_zero_iff.1 hzero
      refine ⟨⟨fun _ i hi => absurd hi (Nat.not_lt_zero i), fun _ => rfl⟩, ?_, ?_⟩
      · intro i hi
        exact absurd hi (Nat.not_lt_zero i)
      · intro i hi
        exact absurd hi (Nat.not_lt_zero i)
    · have hne : data.isEmpty = false := by
        rw [List.isEmpty_eq_false_iff]
        exact List.length_pos_iff.1 hpos
      cases hmapped : m.mapped (pageFloor addr) with
      | false =>
        -- the first page is missing: nothing is stored
        have hstop : writeLoop (fuel + 1) m addr data = (.error .unmappedAddress, m) := by
          simp [writeLoop, hne, pageVirtToMapped, hmapped]
        have hnot : ∀ i, ¬ m.Backs addr i := by
          intro i hback
          have hzero : m.mapped (pageFloor addr) = true := hback 0 (Nat.zero_le i)
          rw [hmapped] at hzero
          cases hzero
        rw [hstop]
        refine ⟨⟨fun h => (by cases h), fun hall => ?_⟩, fun i _ hback => absurd hback (hnot i), fun i _ _ => rfl⟩
        have hzero : m.mapped (pageFloor addr) = true := hall 0 hpos
        rw [hmapped] at hzero
        cases hzero
      | true =>
        have hpage : addr % kPageSize < kPageSize := Nat.mod_lt _ (by decide)
        set chunk := min data.length (kPageSize - addr % kPageSize) with hchunk
        have hstep : writeLoop (fuel + 1) m addr data =
            writeLoop fuel (m.copyIn addr (data.take chunk)) (addr + chunk) (data.drop chunk) := by
          simp [writeLoop, hne, pageVirtToMapped, hmapped, hchunk]
        have hrest : (data.drop chunk).length = data.length - chunk := List.length_drop
        have htake : (data.take chunk).length = chunk := by
          rw [List.length_take]
          omega
        obtain ⟨hok, hstored, hkept⟩ := ih (m.copyIn addr (data.take chunk)) (addr + chunk) (data.drop chunk) (by omega)
        rw [hrest] at hok hstored hkept
        have hfirst : ∀ i < chunk, pageFloor (addr + i) = pageFloor addr := by
          intro i hi
          simp only [pageFloor, kPageSize] at *
          omega
        -- the pages up to a byte of the rest are this page and those of the rest
        have hback : ∀ i, m.Backs addr (chunk + i) ↔ (m.copyIn addr (data.take chunk)).Backs (addr + chunk) i := by
          intro i
          constructor
          · intro h j hj
            have hj' := h (chunk + j) (by omega)
            rw [← Nat.add_assoc] at hj'
            exact hj'
          · intro h j hj
            rcases Nat.lt_or_ge j chunk with hlt | hge
            · rw [hfirst j hlt]
              exact hmapped
            · have hj' := h (j - chunk) (by omega)
              have hsum : addr + chunk + (j - chunk) = addr + j := by omega
              rw [hsum] at hj'
              exact hj'
        rw [hstep]
        refine ⟨?_, ?_, ?_⟩
        · rw [hok]
          constructor
          · intro hall i hi
            rcases Nat.lt_or_ge i chunk with hlt | hge
            · rw [hfirst i hlt]
              exact hmapped
            · have hi' := hall (i - chunk) (by omega)
              have hsum : addr + chunk + (i - chunk) = addr + i := by omega
              rw [hsum] at hi'
              exact hi'
          · intro hall i hi
            have hi' := hall (chunk + i) (by omega)
            rw [← Nat.add_assoc] at hi'
            exact hi'
        · intro i hi hbacks
          rcases Nat.lt_or_ge i chunk with hlt | hge
          · rw [writeLoop_frame _ _ _ _ (Or.inl (by omega))]
            have hcond : addr ≤ addr + i ∧ addr + i < addr + (data.take chunk).length := by omega
            simp only [copyIn, if_pos hcond, Nat.add_sub_cancel_left]
            rw [List.getD_eq_getElem?_getD, List.getD_eq_getElem?_getD, List.getElem?_take_of_lt hlt]
          · obtain ⟨k, rfl⟩ : ∃ k, i = chunk + k := ⟨i - chunk, by omega⟩
            rw [← Nat.add_assoc, hstored k (by omega) ((hback k).1 hbacks), List.getD_eq_getElem?_getD,
              List.getD_eq_getElem?_getD, List.getElem?_drop]
        · intro i hi hbacks
          rcases Nat.lt_or_ge i chunk with hlt | hge
          · exfalso
            apply hbacks
            intro j hj
            rw [hfirst j (by omega)]
            exact hmapped
          · obtain ⟨k, rfl⟩ : ∃ k, i = chunk + k := ⟨i - chunk, by omega⟩
            rw [← Nat.add_assoc, hkept k (by omega) (fun h => hbacks ((hback k).2 h))]
            apply copyIn_bytes_of_not_mem
            omega

theorem readLoop_eq (fuel addr n : ℕ) (hfuel : n ≤ fuel) (h : ∀ i < n, m.mapped (pageFloor (addr + i)) = true) :
    m.readLoop fuel addr n = .ok (m.readRange addr n) := by
  induction fuel generalizing addr n with
  | zero =>
    obtain rfl := Nat.le_zero.1 hfuel
    rfl
  | succ fuel ih =>
    rw [readLoop]
    by_cases hzero : n = 0
    · subst hzero
      rfl
    · have hpage : addr % kPageSize < kPageSize := Nat.mod_lt _ (by decide)
      have hmapped : m.mapped (pageFloor addr) = true := h 0 (by omega)
      set chunk := min n (kPageSize - addr % kPageSize) with hchunk
      have hrest : ∀ i < n - chunk, m.mapped (pageFloor (addr + chunk + i)) = true := by
        intro i hi
        rw [Nat.add_assoc]
        exact h _ (by omega)
      have hsum : n = chunk + (n - chunk) := by omega
      rw [if_neg hzero, pageVirtToMapped, if_pos hmapped]
      dsimp only
      rw [ih _ _ (by omega) hrest, Except.map]
      congr 1
      conv_rhs => rw [hsum]
      simp only [readRange, List.range_add, List.map_append, List.map_map]
      congr 1
      apply List.map_congr_left
      intro i _
      simp only [Function.comp_apply, Nat.add_assoc]

/-- What a caller of `write` may rely on. -/
structure WriteRight (m : AddressSpace) (start : W64) (data : List Byte) : Prop where
  stored : (m.write start.toNat data).result = .ok () →
    (m.write start.toNat data).space.read start.toNat data.length = .ok data
  outside : (m.write start.toNat data).result = .ok () → ∀ a, a < start.toNat ∨ start.toNat + data.length ≤ a →
    (m.write start.toNat data).space.bytes a = m.bytes a
  protections : ∀ a, (m.write start.toNat data).space.protectionAt a = m.protectionAt a
  nothing : (m.write start.toNat data).result ≠ .ok () → (m.write start.toNat data).space.bytes = m.bytes

/-- A write that finds all its pages, or finds the first one missing, or stores nothing new
before the page that is missing. -/
def WriteWhole (m : AddressSpace) (start : W64) (data : List Byte) : Prop :=
  data = [] ∨ rangeOverflows start.toNat data.length = true ∨
    (∀ i < data.length, m.mapped (pageFloor (start.toNat + i)) = true) ∨
    ∀ i < data.length, m.Backs start.toNat i → m.bytes (start.toNat + i) = data.getD i 0

/-- **Which writes are all or nothing.** -/
theorem write_right_iff (m : AddressSpace) (start : W64) (data : List Byte) : WriteRight m start data ↔ WriteWhole m start data := by
  by_cases hempty : data = []
  · subst hempty
    have hw : m.write start.toNat [] = ⟨.error .zeroSize, m, none⟩ := rfl
    refine ⟨fun _ => .inl rfl, fun _ => ⟨?_, ?_, fun _ => rfl, fun _ => rfl⟩⟩
    · intro h
      cases h
    · intro h
      cases h
  · have hne : data.isEmpty = false := by rw [List.isEmpty_eq_false_iff]; exact hempty
    cases hover : rangeOverflows start.toNat data.length with
    | true =>
      have hw : m.write start.toNat data = ⟨.error .unmappedAddress, m, none⟩ := by simp [write, hne, hover]
      refine ⟨fun _ => .inr (.inl hover), fun _ => ⟨?_, ?_, ?_, ?_⟩⟩ <;> rw [hw]
      · intro h
        cases h
      · intro h
        cases h
      · exact fun _ => rfl
      · exact fun _ => rfl
    | false =>
      have hw : m.write start.toNat data =
          ⟨(writeLoop data.length m start.toNat data).1, (writeLoop data.length m start.toNat data).2, none⟩ := by
        simp [write, hne, hover]
      obtain ⟨hok, hstored, hkept⟩ := writeLoop_spec data.length m start.toNat data le_rfl
      constructor
      · intro hright
        by_cases hall : ∀ i < data.length, m.mapped (pageFloor (start.toNat + i)) = true
        · exact .inr (.inr (.inl hall))
        · -- it failed, so what it stored was there before
          have hfail : (m.write start.toNat data).result ≠ .ok () := by
            rw [hw]
            exact fun h => hall (hok.1 h)
          have hsame := hright.nothing hfail
          rw [hw] at hsame
          right; right; right
          intro i hi hback
          rw [← hstored i hi hback]
          exact (congrFun hsame _).symm
      · intro hwhole
        obtain ⟨hprot, hmapped⟩ := @write_protections m start.toNat data
        refine ⟨?_, fun _ a ha => write_frame m ha, hprot, ?_⟩
        · intro hsuccess
          have hall : ∀ i < data.length, m.mapped (pageFloor (start.toNat + i)) = true := by
            rw [hw] at hsuccess
            exact hok.1 hsuccess
          have hlen : data.length ≠ 0 := fun h => hempty (List.length_eq_zero_iff.1 h)
          rw [read, if_neg hlen, hover, if_neg Bool.false_ne_true, readLoop_eq _ _ _ le_rfl, readRange_write m hsuccess]
          intro i hi
          rw [hmapped]
          exact hall i hi
        · intro hfail
          funext a
          by_cases hin : start.toNat ≤ a ∧ a < start.toNat + data.length
          · obtain ⟨i, rfl⟩ : ∃ i, a = start.toNat + i := ⟨a - start.toNat, by omega⟩
            rw [hw]
            by_cases hback : m.Backs start.toNat i
            · -- the write failed, so of the four only bytes that were there already are left
              rcases hwhole with h | h | h | h
              · exact absurd h hempty
              · rw [hover] at h
                cases h
              · exfalso
                apply hfail
                rw [hw]
                exact hok.2 h
              · rw [h i (by omega) hback]
                exact hstored i (by omega) hback
            · exact hkept i (by omega) hback
          · apply write_frame
            omega

/-! ### Pages in host memory -/

/-- How many pages a call of `map` inserts. -/
def insertedPages (start size alloc : ℕ) : ℕ :=
  if size = 0 ∨ rangeOverflows start size = true then 0
  else
    match pageCeil size with
    | none => 0
    | some len => min alloc (len / kPageSize)

/-- An operation on an address space: a call of the host, a dirty mark, or a store of a core
to an eight byte chunk. -/
inductive SpaceOp
  | call (op : HostOp)
  | setdirty (mfn : ℕ)
  | cleardirty (mfn : ℕ)
  | store (chunk : ℕ) (data : W64) (bytemask : BitVec 8)

def SpaceOp.exec (m : AddressSpace) : SpaceOp → AddressSpace
  | .call op => (op.exec m).space
  | .setdirty mfn => m.setdirty mfn
  | .cleardirty mfn => m.cleardirty mfn
  | .store chunk data bytemask => m.storemask (8 * chunk) data bytemask

/-- The pages of the host: what each allocation holds at each address. -/
structure HostPages where
  bytes : ℕ → ℕ → Byte
  fresh : ℕ

/-- An address space in host memory: its tables, whose `bytes` are not used, and for each
page start the allocation that its pointer in `mapped_mem_` owns. -/
structure PageTable where
  tables : AddressSpace
  page : ℕ → ℕ

/-- The address space with the contents of its pages. -/
def PageTable.view (h : HostPages) (s : PageTable) : AddressSpace :=
  { s.tables with bytes := fun a => h.bytes (s.page (pageFloor a)) a }

namespace HostPages

variable (h : HostPages) (s : PageTable)

/-- `insert_or_assign` of new pages, which are zero. -/
def insertPages (start numPages : ℕ) : HostPages × PageTable :=
  (⟨fun g a => if g = h.fresh then 0 else h.bytes g a, h.fresh + 1⟩,
    { s with page := fun p => if start ≤ p ∧ p < start + numPages * kPageSize then h.fresh else s.page p })

/-- A `memcpy` through the pointer to the page of an address. -/
def copyIn (addr : ℕ) (chunk : List Byte) : HostPages :=
  { h with
    bytes := fun g a =>
      if g = s.page (pageFloor addr) ∧ addr ≤ a ∧ a < addr + chunk.length then chunk.getD (a - addr) 0 else h.bytes g a }

def writeLoop : ℕ → HostPages → ℕ → List Byte → HostPages
  | 0, h, _, _ => h
  | fuel + 1, h, addr, data =>
    if data.isEmpty then h
    else if s.tables.mapped (pageFloor addr) then
      let chunk := min data.length (kPageSize - addr % kPageSize)
      writeLoop fuel (h.copyIn s addr (data.take chunk)) (addr + chunk) (data.drop chunk)
    else h

def write (start : ℕ) (data : List Byte) : HostPages :=
  if data.isEmpty then h
  else if rangeOverflows start data.length then h
  else writeLoop s data.length h start data

def storemask (a : ℕ) (data : W64) (bytemask : BitVec 8) : HostPages :=
  { h with
    bytes := fun g x =>
      if g = s.page (pageFloor a) ∧ a ≤ x ∧ x < a + 8 ∧ bytemask.getLsbD (x - a) then ByteMask.byteAt data (x - a)
      else h.bytes g x }

def exec : SpaceOp → HostPages × PageTable
  | .call (.map start size prot alloc) =>
    let r := h.insertPages s (pageFloor start.toNat) (insertedPages start.toNat size.toNat alloc)
    (r.1, { r.2 with tables := (s.tables.map start.toNat size.toNat prot alloc).space })
  | .call (.unmap start size) => (h, { s with tables := (s.tables.unmap start.toNat size.toNat).space })
  | .call (.protect start size prot) => (h, { s with tables := (s.tables.protect start.toNat size.toNat prot).space })
  | .call (.write start data) => (h.write s start.toNat data, s)
  | .setdirty mfn => (h, { s with tables := s.tables.setdirty mfn })
  | .cleardirty mfn => (h, { s with tables := s.tables.cleardirty mfn })
  | .store chunk data bytemask => (h.storemask s (8 * chunk) data bytemask, s)

/-- The copy constructor: a new page for every page of the source, with its contents. -/
def copy : HostPages × PageTable :=
  (⟨fun g a => if g = h.fresh then h.bytes (s.page (pageFloor a)) a else h.bytes g a, h.fresh + 1⟩,
    ⟨s.tables.copy, fun _ => h.fresh⟩)

end HostPages

/-- Two address spaces have no page in common, and none of those to come. -/
structure Apart (h : HostPages) (s t : PageTable) : Prop where
  left : ∀ p, s.page p < h.fresh
  right : ∀ p, t.page p < h.fresh
  apart : ∀ p, s.page p ≠ t.page p

variable {h h' : HostPages} {s s' t : PageTable}

theorem Apart.symm (ha : Apart h s t) : Apart h t s := ⟨ha.right, ha.left, fun p => (ha.apart p).symm⟩

theorem map_bytes (m : AddressSpace) (b : ℕ → Byte) (start size : ℕ) (prot : Protection) (alloc : ℕ) :
    (({ m with bytes := b } : AddressSpace).map start size prot alloc).space =
      { (m.map start size prot alloc).space with
        bytes := fun a => if pageFloor start ≤ a ∧ a < pageFloor start + insertedPages start size alloc * kPageSize then 0
          else b a } := by
  have hnone : (fun a => if pageFloor start ≤ a ∧ a < pageFloor start + 0 * kPageSize then 0 else b a) = b := by
    funext a
    exact if_neg (by omega)
  unfold map insertedPages
  by_cases hsize : size = 0
  · simp only [hsize, if_true, true_or, hnone]
  · cases hover : rangeOverflows start size with
    | true => simp only [hsize, if_false, if_true, or_true, hnone]
    | false =>
      simp only [hsize, if_false, Bool.false_eq_true, mapOrThrow, or_self]
      cases hceil : pageCeil size with
      | none => simp only [hnone]
      | some len =>
        by_cases hall : alloc < len / kPageSize
        · simp only [hall, if_true, insertPages, Nat.min_eq_left (Nat.le_of_lt hall)]
        · by_cases hbits : alloc < mapSteps (len / kPageSize)
          · simp only [hall, hbits, if_false, if_true, insertPages, setattrFirst, Nat.min_eq_right (Nat.le_of_not_lt hall)]
          · simp only [hall, hbits, if_false, insertPages, setattr, Nat.min_eq_right (Nat.le_of_not_lt hall)]

theorem protect_bytes (m : AddressSpace) (b : ℕ → Byte) (start size : ℕ) (prot : Protection) :
    (({ m with bytes := b } : AddressSpace).protect start size prot).space =
      { (m.protect start size prot).space with bytes := b } := by
  unfold protect
  dsimp only
  split
  · rfl
  · split
    · rfl
    · split
      · rfl
      · split <;> rfl

theorem pageFloor_in {start n a : ℕ} (hstart : start % kPageSize = 0) :
    (start ≤ pageFloor a ∧ pageFloor a < start + n * kPageSize) ↔ (start ≤ a ∧ a < start + n * kPageSize) :=
  pageFloor_mem_iff hstart (Nat.mul_mod_left n kPageSize)

theorem writeLoop_tables (fuel : ℕ) (h : HostPages) (s : PageTable) (addr : ℕ) (data : List Byte) :
    s.view (HostPages.writeLoop s fuel h addr data) = (writeLoop fuel (s.view h) addr data).2 := by
  induction fuel generalizing h addr data with
  | zero => rfl
  | succ fuel ih =>
    rw [HostPages.writeLoop, writeLoop]
    cases hempty : data.isEmpty with
    | true => rfl
    | false =>
      simp only [Bool.false_eq_true, if_false]
      by_cases hmapped : s.tables.mapped (pageFloor addr) = true
      swap
      · have hptr : (s.view h).pageVirtToMapped addr = none := if_neg hmapped
        rw [if_neg hmapped, hptr]
      · have hptr : (s.view h).pageVirtToMapped addr = some addr := if_pos hmapped
        rw [if_pos hmapped, hptr, ih]
        dsimp only
        congr 1
        set chunk := min data.length (kPageSize - addr % kPageSize) with hchunk
        have hpage : addr % kPageSize < kPageSize := Nat.mod_lt _ (by decide)
        have htake : (data.take chunk).length = chunk := by
          rw [List.length_take]
          omega
        -- the chunk lies in the page of its address
        simp only [PageTable.view, copyIn, HostPages.copyIn, htake]
        congr 2
        funext a
        by_cases hin : addr ≤ a ∧ a < addr + chunk
        · have hsame : pageFloor a = pageFloor addr := by
            simp only [pageFloor, kPageSize] at *
            omega
          rw [hsame, if_pos ⟨rfl, hin⟩, if_pos hin]
        · rw [if_neg hin, if_neg fun hc => hin hc.2]

/-- **An operation in host memory** is that operation on the contents. -/
theorem exec_view (hs : ∀ p, s.page p < h.fresh) (op : SpaceOp) : (h.exec s op).2.view (h.exec s op).1 = op.exec (s.view h) := by
  cases op with
  | call op =>
    cases op with
    | map start size prot alloc =>
      have hmap := map_bytes s.tables (fun a => h.bytes (s.page (pageFloor a)) a) start.toNat size.toNat prot alloc
      simp only [HostPages.exec, SpaceOp.exec, HostOp.exec, PageTable.view, HostPages.insertPages]
      rw [hmap]
      congr 1
      funext a
      have hold := hs (pageFloor a)
      by_cases hin : pageFloor start.toNat ≤ a ∧ a < pageFloor start.toNat + insertedPages start.toNat size.toNat alloc * kPageSize
      · rw [if_pos hin, if_pos ((pageFloor_in (pageFloor_dvd start.toNat)).2 hin), if_pos rfl]
      · rw [if_neg hin, if_neg fun hc => hin ((pageFloor_in (pageFloor_dvd start.toNat)).1 hc), if_neg (by omega)]
    | unmap start size =>
      simp only [HostPages.exec, SpaceOp.exec, HostOp.exec, PageTable.view, unmap]
      split
      · rfl
      · split <;> rfl
    | protect start size prot =>
      exact (protect_bytes s.tables _ _ _ _).symm
    | write start data =>
      simp only [HostPages.exec, SpaceOp.exec, HostOp.exec, HostPages.write, write]
      split
      · rfl
      · split
        · rfl
        · exact writeLoop_tables _ _ _ _ _
  | setdirty mfn => rfl
  | cleardirty mfn => rfl
  | store chunk data bytemask =>
    simp only [HostPages.exec, SpaceOp.exec, PageTable.view, storemask, HostPages.storemask]
    congr 1
    funext x
    by_cases hin : 8 * chunk ≤ x ∧ x < 8 * chunk + 8 ∧ bytemask.getLsbD (x - 8 * chunk) = true
    · have hsame : pageFloor x = pageFloor (8 * chunk) := by
        obtain ⟨hlo, hhi, -⟩ := hin
        simp only [pageFloor, kPageSize] at *
        omega
      rw [hsame, if_pos ⟨rfl, hin⟩, if_pos hin]
    · rw [if_neg hin, if_neg fun hc => hin hc.2]

/-- Bytes of other allocations are kept by a write. -/
theorem writeLoop_other (fuel : ℕ) (h : HostPages) (s t : PageTable) (ht : ∀ p, s.page p ≠ t.page p) (addr : ℕ) (data : List Byte) :
    t.view (HostPages.writeLoop s fuel h addr data) = t.view h ∧ (HostPages.writeLoop s fuel h addr data).fresh = h.fresh := by
  induction fuel generalizing h addr data with
  | zero => exact ⟨rfl, rfl⟩
  | succ fuel ih =>
    rw [HostPages.writeLoop]
    split
    · exact ⟨rfl, rfl⟩
    · split
      · set chunk := min data.length (kPageSize - addr % kPageSize) with hchunk
        obtain ⟨hview, hfresh⟩ := ih (h.copyIn s addr (data.take chunk)) (addr + chunk) (data.drop chunk)
        refine ⟨hview.trans ?_, hfresh⟩
        have hpage : addr % kPageSize < kPageSize := Nat.mod_lt _ (by decide)
        have htake : (data.take chunk).length ≤ chunk := by
          rw [List.length_take]
          omega
        simp only [PageTable.view, HostPages.copyIn]
        congr 1
        funext a
        rw [if_neg]
        rintro ⟨hg, hlo, hhi⟩
        have hsame : pageFloor a = pageFloor addr := by
          simp only [pageFloor, kPageSize] at *
          omega
        rw [hsame] at hg
        exact ht _ hg.symm
      · exact ⟨rfl, rfl⟩

/-- **An operation on one address space** leaves the other as it is, and the two apart. -/
theorem exec_frame (ha : Apart h s t) (op : SpaceOp) :
    t.view (h.exec s op).1 = t.view h ∧ Apart (h.exec s op).1 (h.exec s op).2 t := by
  cases op with
  | call op =>
    cases op with
    | map start size prot alloc =>
      simp only [HostPages.exec, HostPages.insertPages, PageTable.view]
      constructor
      · congr 1
        funext a
        have ht := ha.right (pageFloor a)
        rw [if_neg (by omega)]
      · refine ⟨?_, ?_, ?_⟩
        · intro p
          have hs := ha.left p
          dsimp only
          split <;> omega
        · intro p
          have ht := ha.right p
          dsimp only
          omega
        · intro p
          have ht := ha.right p
          dsimp only
          split
          · omega
          · exact ha.apart p
    | unmap start size => exact ⟨rfl, ha.left, ha.right, ha.apart⟩
    | protect start size prot => exact ⟨rfl, ha.left, ha.right, ha.apart⟩
    | write start data =>
      simp only [HostPages.exec, HostPages.write]
      split
      · exact ⟨rfl, ha⟩
      · split
        · exact ⟨rfl, ha⟩
        · obtain ⟨hview, hfresh⟩ := writeLoop_other data.length h s t ha.apart start.toNat data
          exact ⟨hview, by rw [hfresh]; exact ha.left, by rw [hfresh]; exact ha.right, ha.apart⟩
  | setdirty mfn => exact ⟨rfl, ha.left, ha.right, ha.apart⟩
  | cleardirty mfn => exact ⟨rfl, ha.left, ha.right, ha.apart⟩
  | store chunk data bytemask =>
    refine ⟨?_, ha.left, ha.right, ha.apart⟩
    simp only [HostPages.exec, HostPages.storemask, PageTable.view]
    congr 1
    funext x
    rw [if_neg]
    rintro ⟨hg, hlo, hhi, -⟩
    have hsame : pageFloor x = pageFloor (8 * chunk) := by
      simp only [pageFloor, kPageSize] at *
      omega
    rw [hsame] at hg
    exact ha.apart _ hg.symm

/-! ### Copies -/

theorem copy_view (hs : ∀ p, s.page p < h.fresh) :
    (h.copy s).2.view (h.copy s).1 = (s.view h).copy ∧ s.view (h.copy s).1 = s.view h ∧ Apart (h.copy s).1 s (h.copy s).2 := by
  have hold : ∀ p, s.page p ≠ h.fresh := fun p => Nat.ne_of_lt (hs p)
  refine ⟨?_, ?_, ?_, ?_, ?_⟩
  · simp only [HostPages.copy, PageTable.view, copy, if_true]
    rfl
  · simp only [HostPages.copy, PageTable.view]
    congr 1
    funext a
    rw [if_neg (hold _)]
  · exact fun p => Nat.lt_succ_of_lt (hs p)
  · exact fun _ => Nat.lt_succ_self _
  · exact hold

/-- Operations on the source, where the mark is true, and on its copy, in any order. -/
def runBoth : List (Bool × SpaceOp) → HostPages × PageTable × PageTable → HostPages × PageTable × PageTable
  | [], r => r
  | (true, op) :: ops, (h, s, t) => runBoth ops ((h.exec s op).1, (h.exec s op).2, t)
  | (false, op) :: ops, (h, s, t) => runBoth ops ((h.exec t op).1, s, (h.exec t op).2)

/-- The operations on one side alone. -/
def runOne (side : Bool) (m : AddressSpace) : List (Bool × SpaceOp) → AddressSpace
  | [] => m
  | (b, op) :: ops => if b = side then runOne side (op.exec m) ops else runOne side m ops

/-- **Spaces that are apart are independent**: each sees its own operations only. -/
theorem runBoth_view (ha : Apart h s t) (ops : List (Bool × SpaceOp)) :
    (runBoth ops (h, s, t)).2.1.view (runBoth ops (h, s, t)).1 = runOne true (s.view h) ops ∧
      (runBoth ops (h, s, t)).2.2.view (runBoth ops (h, s, t)).1 = runOne false (t.view h) ops := by
  induction ops generalizing h s t with
  | nil => exact ⟨rfl, rfl⟩
  | cons o ops ih =>
    obtain ⟨side, op⟩ := o
    cases side with
    | true =>
      obtain ⟨hother, hapart⟩ := exec_frame ha op
      obtain ⟨hl, hr⟩ := ih hapart
      rw [exec_view ha.left] at hl
      rw [hother] at hr
      exact ⟨hl, hr⟩
    | false =>
      obtain ⟨hother, hapart⟩ := exec_frame ha.symm op
      obtain ⟨hl, hr⟩ := ih hapart.symm
      rw [exec_view ha.right] at hr
      rw [hother] at hl
      exact ⟨hl, hr⟩

/-- An address space in host memory whose pages have been allocated. -/
structure HostSpace where
  host : HostPages
  table : PageTable
  allocated : ∀ p, table.page p < host.fresh

namespace HostSpace

variable (S : HostSpace)

def contents : AddressSpace := S.table.view S.host

/-- The contents of a copy, when it is made. -/
def copied : AddressSpace := (S.host.copy S.table).2.view (S.host.copy S.table).1

end HostSpace

/-- What one may rely on after a copy. -/
structure CopyRight (S : HostSpace) : Prop where
  read : ∀ start n, S.copied.read start n = S.contents.read start n
  check : ∀ a p, S.copied.check a p = S.contents.check a p
  isdirty : ∀ mfn, S.copied.isdirty mfn = S.contents.isdirty mfn
  independent : ∀ ops : List (Bool × SpaceOp),
    let r := runBoth ops ((S.host.copy S.table).1, S.table, (S.host.copy S.table).2)
    r.2.1.view r.1 = runOne true S.contents ops ∧ r.2.2.view r.1 = runOne false S.copied ops

/-- Every page number with a permission has a page. -/
def Covered (m : AddressSpace) : Prop :=
  ∀ page < 2 ^ 36, (m.readmap page || m.writemap page || m.execmap page) = true → m.hasPage page = true

def Clean (m : AddressSpace) : Prop := ∀ page < 2 ^ 36, m.dirtymap page = false

theorem pageid_lt (a : ℕ) : pageid a < 2 ^ 36 := by
  simp only [pageid, addressSpaceSize, kPageSize]
  omega

theorem pageid_page {page : ℕ} (h : page < 2 ^ 36) : page * kPageSize / addressSpaceSize = 0 ∧ pageid (page * kPageSize) = page := by
  simp only [pageid, addressSpaceSize, kPageSize]
  omega

theorem copy_check_iff (m : AddressSpace) : (∀ a p, m.copy.check a p = m.check a p) ↔ m.Covered := by
  constructor
  · intro hcheck page hpage hset
    obtain ⟨hlow, hid⟩ := pageid_page hpage
    by_contra hnone
    rw [Bool.not_eq_true] at hnone
    have hread := hcheck (page * kPageSize) ⟨true, false, false⟩
    have hwrite := hcheck (page * kPageSize) ⟨false, true, false⟩
    have hexec := hcheck (page * kPageSize) ⟨false, false, true⟩
    simp [check, fastcheck, hlow, hid, copy, hnone] at hread hwrite hexec
    simp [hread, hwrite, hexec] at hset
  · intro hcovered a p
    have hpage := hcovered (pageid a) (pageid_lt a)
    simp only [check, fastcheck, copy]
    cases hhas : m.hasPage (pageid a) with
    | true => simp
    | false =>
      have hclear : (m.readmap (pageid a) || m.writemap (pageid a) || m.execmap (pageid a)) = false := by
        rw [Bool.eq_false_iff]
        intro hset
        rw [hpage hset] at hhas
        cases hhas
      simp only [Bool.or_eq_false_iff] at hclear
      simp [hclear.1.1, hclear.1.2, hclear.2]

theorem copy_isdirty_iff (m : AddressSpace) : (∀ mfn, m.copy.isdirty mfn = m.isdirty mfn) ↔ m.Clean := by
  constructor
  · intro hdirty page hpage
    have hmfn := hdirty page
    rw [isdirty_eq _ hpage, isdirty_eq _ hpage] at hmfn
    exact hmfn.symm
  · intro hclean mfn
    simp only [isdirty, fastcheck, copy, hclean _ (pageid_lt _)]

theorem read_congr {m m' : AddressSpace} (hmapped : m'.mapped = m.mapped) (hbytes : m'.bytes = m.bytes) (start n : ℕ) :
    m'.read start n = m.read start n := by
  have hloop : ∀ fuel addr n, m'.readLoop fuel addr n = m.readLoop fuel addr n := by
    intro fuel
    induction fuel with
    | zero => exact fun _ _ => rfl
    | succ fuel ih =>
      intro addr n
      simp only [readLoop, pageVirtToMapped, hmapped, readRange, hbytes, ih]
  simp only [read, hloop]

/-- **Which copies agree with their source**: those of spaces with no dirty page and no
permission without a page. They are independent of it in any case. -/
theorem copy_right_iff (S : HostSpace) : CopyRight S ↔ S.contents.Covered ∧ S.contents.Clean := by
  obtain ⟨hcopy, hsource, hapart⟩ := copy_view S.allocated
  have hcopied : S.copied = S.contents.copy := hcopy
  constructor
  · rintro ⟨-, hcheck, hdirty, -⟩
    rw [hcopied] at hcheck hdirty
    exact ⟨(copy_check_iff _).1 hcheck, (copy_isdirty_iff _).1 hdirty⟩
  · rintro ⟨hcovered, hclean⟩
    refine ⟨?_, ?_, ?_, ?_⟩
    · rw [hcopied]
      intro start n
      exact @read_congr S.contents S.contents.copy rfl rfl start n
    · rw [hcopied]
      exact (copy_check_iff _).2 hcovered
    · rw [hcopied]
      exact (copy_isdirty_iff _).2 hclean
    · intro ops
      obtain ⟨hl, hr⟩ := runBoth_view hapart ops
      rw [hsource] at hl
      exact ⟨hl, hr⟩

/-- **Writes and copies**: when a write is all or nothing, and a copy agrees with its source. -/
theorem hostSpace_right_iff (S : HostSpace) (start : W64) (data : List Byte) :
    (WriteRight S.contents start data ∧ CopyRight S) ↔
      (WriteWhole S.contents start data ∧ S.contents.Covered ∧ S.contents.Clean) := by
  rw [write_right_iff, copy_right_iff]

/-- One writable page from address zero. -/
def onePage : HostSpace where
  host := ⟨fun _ _ => 0, 1⟩
  table := ⟨((init false).map 0 0x1000 ⟨true, true, false⟩ 4).space, fun _ => 0⟩
  allocated _ := Nat.one_pos

/-- Two bytes at the end of the page: the first is stored, and the write fails. -/
theorem not_write_right : ¬ ∀ (S : HostSpace) (start : W64) (data : List Byte), WriteRight S.contents start data ∧ CopyRight S := by
  intro h
  obtain ⟨hright, -⟩ := h onePage 0xfff [1, 2]
  have hmapped : onePage.contents.mapped 0x1000 = false := by decide +kernel
  have hbyte : onePage.contents.bytes 0xfff = 0 := by decide +kernel
  have hfirst : onePage.contents.mapped 0 = true := by decide +kernel
  rcases (write_right_iff _ _ _).1 hright with hempty | hover | hall | hsame
  · cases hempty
  · revert hover
    decide
  · have hlast : onePage.contents.mapped 0x1000 = true := hall 1 (by decide)
    rw [hmapped] at hlast
    cases hlast
  · have hstored : onePage.contents.bytes 0xfff = 1 := by
      apply hsame 0 (by decide)
      intro j hj
      obtain rfl := Nat.le_zero.1 hj
      exact hfirst
    rw [hbyte] at hstored
    cases hstored

end AddressSpace
end X86Sim
