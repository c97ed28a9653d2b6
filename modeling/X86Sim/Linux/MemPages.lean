import X86Sim.Linux.MemSyscalls
import X86Sim.Mem.WholePages

/-!
# Free ranges and file contents (`syscall-linux.cpp`)

* `findUnmappedRange_first`: the search answers the first free range from the cursor on.
* `loadLoop_spec`: the loader writes the bytes of the file, and fails only with a `pread`.
-/

namespace X86Sim.Linux

open AddressSpace

variable {space : AddressSpace} {start len : ℕ}

/-! ### Free ranges -/

/-- No page of the range is mapped. -/
def Unmapped (space : AddressSpace) (start len : ℕ) : Prop :=
  ∀ page, page % kPageSize = 0 → start ≤ page → page < start + len → space.mapped page = false

/-- `a` starts the first free range of the length from the cursor on. -/
structure FirstFree (space : AddressSpace) (cursor len a : ℕ) : Prop where
  aligned : a % kPageSize = 0
  above : cursor ≤ a
  fits : a + len < 2 ^ 64
  free : Unmapped space a len
  first : ∀ b, b % kPageSize = 0 → cursor ≤ b → b < a → ¬ Unmapped space b len

theorem read_mapped {page : ℕ} (hp : page % kPageSize = 0) (hlt : page < 2 ^ 64) (hmapped : space.mapped page = true) :
    ∃ bytes, space.read page 1 = .ok bytes := by
  have hover : rangeOverflows page 1 = false := rangeOverflows_eq_false (by omega)
  rw [AddressSpace.read, if_neg Nat.one_ne_zero, hover, if_neg Bool.false_ne_true, readLoop, if_neg Nat.one_ne_zero,
    pageVirtToMapped, pageFloor_of_whole hp, if_pos hmapped]
  exact ⟨_, rfl⟩

theorem read_unmapped {page : ℕ} (hp : page % kPageSize = 0) (hlt : page < 2 ^ 64)
    (hmapped : space.mapped page = false) : space.read page 1 = .error .unmappedAddress := by
  have hover : rangeOverflows page 1 = false := rangeOverflows_eq_false (by omega)
  have hno : ¬ space.mapped page = true := by
    rw [hmapped]
    exact Bool.false_ne_true
  rw [AddressSpace.read, if_neg Nat.one_ne_zero, hover, if_neg Bool.false_ne_true, readLoop, if_neg Nat.one_ne_zero,
    pageVirtToMapped, pageFloor_of_whole hp, if_neg hno]

theorem unmappedLoop_iff {stop : ℕ} (turns page : ℕ) (hp : page % kPageSize = 0) (hstop : stop % kPageSize = 0)
    (hlt : stop < 2 ^ 64) (hturns : stop ≤ page + turns * kPageSize) :
    unmappedLoop space stop turns page = true ↔
      ∀ q, q % kPageSize = 0 → page ≤ q → q < stop → space.mapped q = false := by
  induction turns generalizing page with
  | zero =>
    rw [unmappedLoop]
    refine ⟨fun _ q _ hlo hhi => ?_, fun _ => rfl⟩
    omega
  | succ turns ih =>
    rw [unmappedLoop]
    by_cases hdone : stop ≤ page
    · rw [if_pos hdone]
      refine ⟨fun _ q _ hlo hhi => ?_, fun _ => rfl⟩
      omega
    · rw [if_neg hdone]
      have hpage : page < 2 ^ 64 := by omega
      cases hmapped : space.mapped page with
      | true =>
        obtain ⟨bytes, hread⟩ := read_mapped hp hpage hmapped
        rw [hread]
        constructor
        · intro h
          cases h
        · intro h
          rw [h page hp le_rfl (by omega)] at hmapped
          cases hmapped
      | false =>
        rw [read_unmapped hp hpage hmapped]
        -- below the end the next page does not wrap, so the loop stays on whole pages
        have hnext : pageFloor ((page + kPageSize) % 2 ^ 64) = page + kPageSize := by
          have hsum : page + kPageSize < 2 ^ 64 := by
            simp only [kPageSize] at *
            omega
          rw [Nat.mod_eq_of_lt hsum]
          apply pageFloor_of_whole
          simp only [kPageSize] at *
          omega
        have hgrow : ¬ page + kPageSize ≤ page := by
          simp only [kPageSize]
          omega
        dsimp only
        rw [hnext, if_neg hgrow]
        have hp' : (page + kPageSize) % kPageSize = 0 := by
          rw [Nat.add_mod_right]
          exact hp
        have hturns' : stop ≤ page + kPageSize + turns * kPageSize := by
          rw [Nat.succ_mul] at hturns
          omega
        rw [ih (page + kPageSize) hp' hturns']
        constructor
        · intro h q hq hlo hhi
          by_cases heq : q = page
          · rw [heq]
            exact hmapped
          · apply h q hq _ hhi
            simp only [kPageSize] at *
            omega
        · intro h q hq hlo hhi
          exact h q hq (by omega) hhi

theorem rangeIsUnmapped_iff (hw : Whole start len) (hfit : start + len < 2 ^ 64) :
    rangeIsUnmapped space start len = true ↔ Unmapped space start len := by
  have haligned := hw.aligned
  have hwhole := hw.whole
  have hstop : (start + len) % kPageSize = 0 := by
    simp only [kPageSize] at *
    omega
  have hturns : start + len ≤ start + (len / kPageSize + 2) * kPageSize := by
    simp only [kPageSize] at *
    omega
  rw [rangeIsUnmapped, if_neg hw.pos.ne', rangeOverflows_eq_false hfit.le, if_neg Bool.false_ne_true,
    Nat.mod_eq_of_lt hfit, unmappedLoop_iff _ start haligned hstop hfit hturns, Unmapped]

theorem findLoop_first {a : ℕ} (turns candidate : ℕ) (hc : candidate % kPageSize = 0) (hlen : len % kPageSize = 0)
    (hpos : 0 < len) (hlt : len < 2 ^ 64) (h : findLoop space len turns candidate = some a) :
    FirstFree space candidate len a := by
  induction turns generalizing candidate with
  | zero => cases h
  | succ turns ih =>
    rw [findLoop] at h
    by_cases hbig : candidate > 2 ^ 64 - 1 - len
    · rw [if_pos hbig] at h
      cases h
    · rw [if_neg hbig] at h
      have hfit : candidate + len < 2 ^ 64 := by omega
      have hunmapped := @rangeIsUnmapped_iff space candidate len ⟨hc, hlen, hpos⟩ hfit
      by_cases hfree : rangeIsUnmapped space candidate len = true
      · rw [if_pos hfree] at h
        obtain rfl := Option.some.inj h
        refine ⟨hc, le_rfl, hfit, hunmapped.1 hfree, ?_⟩
        intro b _ hlo hhi
        omega
      · rw [if_neg hfree] at h
        by_cases hlast : candidate > 2 ^ 64 - 1 - kPageSize
        · rw [if_pos hlast] at h
          cases h
        · rw [if_neg hlast] at h
          have hc' : (candidate + kPageSize) % kPageSize = 0 := by
            rw [Nat.add_mod_right]
            exact hc
          have hrest := ih (candidate + kPageSize) hc' h
          refine ⟨hrest.aligned, ?_, hrest.fits, hrest.free, ?_⟩
          · have habove := hrest.above
            omega
          · intro b hb hlo hhi
            by_cases heq : b = candidate
            · rw [heq]
              exact mt hunmapped.2 hfree
            · apply hrest.first b hb _ hhi
              simp only [kPageSize] at *
              omega

/-- **The search** answers the first free range. -/
theorem findUnmappedRange_first {cursor a : ℕ} (hlen : len % kPageSize = 0) (hpos : 0 < len) (hlt : len < 2 ^ 64)
    (h : findUnmappedRange space cursor len = some a) : FirstFree space cursor len a := by
  rw [findUnmappedRange, pageAlignUp] at h
  obtain ⟨candidate, hceil, hloop⟩ := Option.bind_eq_some_iff.1 h
  obtain ⟨hmod, hle, hnear, -⟩ := pageCeil_eq hceil
  have hfirst := findLoop_first _ candidate hmod hlen hpos hlt hloop
  have habove := hfirst.above
  refine ⟨hfirst.aligned, by omega, hfirst.fits, hfirst.free, ?_⟩
  intro b hb hlo hhi
  apply hfirst.first b hb _ hhi
  simp only [kPageSize] at *
  omega

/-! ### Files -/

section Files

variable {host : MemHost} {fd offset length : ℕ}

/-- The positions at which the loader calls `pread`. -/
inductive Visited (host : MemHost) (fd offset length : ℕ) : ℕ → Prop
  | start : Visited host fd offset length 0
  | next {total : ℕ} {bytes : List Byte} : Visited host fd offset length total → total < length →
      host.preadBytes fd ((offset + total) % 2 ^ 64) (min (length - total) kPageSize) = some bytes →
      Visited host fd offset length (total + bytes.length)

/-- The host does not fail a `pread` of the loader. -/
def PreadsSucceed (host : MemHost) (fd offset length : ℕ) : Prop :=
  ∀ total, Visited host fd offset length total → total < length →
    host.preadBytes fd ((offset + total) % 2 ^ 64) (min (length - total) kPageSize) ≠ none

/-- What one `pread` delivers: bytes of the file, none only at its end. -/
theorem preadBytes_spec {o count : ℕ} {bytes : List Byte} (hcount : 0 < count)
    (h : host.preadBytes fd o count = some bytes) :
    o < 2 ^ 63 ∧ bytes.length ≤ count ∧ (bytes = [] → (host.file fd).length ≤ o) ∧
      ∀ i < bytes.length, bytes.getD i 0 = (host.file fd).getD (o + i) 0 := by
  rw [MemHost.preadBytes] at h
  by_cases hneg : o ≥ 2 ^ 63
  · rw [if_pos hneg] at h
    cases h
  · rw [if_neg hneg] at h
    obtain ⟨n, -, rfl⟩ := Option.map_eq_some_iff.1 h
    refine ⟨by omega, ?_, ?_, ?_⟩
    · rw [List.length_take]
      omega
    · intro hnil
      have hlength := congrArg List.length hnil
      rw [List.length_take, List.length_drop, List.length_nil] at hlength
      omega
    · intro i hi
      rw [List.length_take] at hi
      rw [List.getD_eq_getElem?_getD, List.getD_eq_getElem?_getD, List.getElem?_take_of_lt (by omega),
        List.getElem?_drop]

/-- What the loader has done to the space. -/
structure Loaded (space space' : AddressSpace) (file : List Byte) (dest length offset total : ℕ) (error : Option ℕ) :
    Prop where
  mapped : space'.mapped = space.mapped
  protection : ∀ a, space'.protectionAt a = space.protectionAt a
  outside : ∀ a, a < dest + total ∨ dest + length ≤ a → space'.bytes a = space.bytes a
  contents : error = none → (∀ i, total ≤ i → i < length → space.bytes (dest + i) = 0) →
    ∀ i, total ≤ i → i < length → space'.bytes (dest + i) = file.getD (offset + i) 0

/-- The loader stops where it is. -/
theorem loaded_stay {file : List Byte} {dest total : ℕ} {error : Option ℕ}
    (hdone : error = none → length ≤ total ∨ file.length ≤ offset + total) :
    Loaded space space file dest length offset total error := by
  refine ⟨rfl, fun _ => rfl, fun _ _ => rfl, ?_⟩
  intro herror hzero i hlo hhi
  rw [hzero i hlo hhi]
  rcases hdone herror with hall | hend
  · omega
  · exact (List.getD_eq_default _ _ (by omega)).symm

/-- One successful write, then the rest. -/
theorem Loaded.write {space' : AddressSpace} {file bytes : List Byte} {dest total : ℕ} {error : Option ℕ}
    (hfit : total + bytes.length ≤ length) (hok : (space.write (dest + total) bytes).result = .ok ())
    (hbytes : ∀ i < bytes.length, bytes.getD i 0 = file.getD (offset + total + i) 0)
    (h : Loaded (space.write (dest + total) bytes).space space' file dest length offset (total + bytes.length) error) :
    Loaded space space' file dest length offset total error := by
  obtain ⟨hprot, hmapped⟩ := @write_protections space (dest + total) bytes
  refine ⟨h.mapped.trans hmapped, fun a => (h.protection a).trans (hprot a), ?_, ?_⟩
  · intro a hout
    rw [h.outside a (by omega)]
    exact write_frame space (by omega)
  · intro herror hzero i hlo hhi
    by_cases hnew : i < total + bytes.length
    · -- a byte just written, and the rest of the loop writes above it
      rw [h.outside (dest + i) (by omega)]
      have hread := readRange_write space hok
      have hindex : i - total < bytes.length := by omega
      have hget := congrArg (fun l => l.getD (i - total) 0) hread
      rw [hbytes _ hindex, readRange, List.getD_eq_getElem _ _ (by simpa using hindex)] at hget
      simp only [List.getElem_map, List.getElem_range] at hget
      have haddr : dest + total + (i - total) = dest + i := by omega
      have hpos : offset + total + (i - total) = offset + i := by omega
      rw [haddr, hpos] at hget
      exact hget
    · apply h.contents herror _ i (by omega) hhi
      intro j hjlo hjhi
      rw [write_frame space (by omega)]
      exact hzero j (by omega) hjhi

/-- **The loader** writes the file, and fails only with a `pread`. -/
theorem loadLoop_spec {dest : ℕ} (turns total : ℕ) (space : AddressSpace) (hturns : length < total + turns)
    (hoffset : offset + total < 2 ^ 64) (hfit : dest + length ≤ 2 ^ 64)
    (hmapped : ∀ a, dest ≤ a → a < dest + length → space.mapped (pageFloor a) = true)
    (hvisited : Visited host fd offset length total) :
    Loaded space (loadLoop host fd dest length offset turns total space).2 (host.file fd) dest length offset total
        (loadLoop host fd dest length offset turns total space).1 ∧
      (PreadsSucceed host fd offset length → (loadLoop host fd dest length offset turns total space).1 = none) := by
  induction turns generalizing total space with
  | zero =>
    rw [loadLoop]
    exact ⟨loaded_stay fun _ => .inl (by omega), fun _ => rfl⟩
  | succ turns ih =>
    rw [loadLoop]
    by_cases hdone : length ≤ total
    · rw [if_pos hdone]
      exact ⟨loaded_stay fun _ => .inl hdone, fun _ => rfl⟩
    · rw [if_neg hdone]
      have hcount : 0 < min (length - total) kPageSize := by
        simp only [kPageSize]
        omega
      cases hpread : host.preadBytes fd ((offset + total) % 2 ^ 64) (min (length - total) kPageSize) with
      | none =>
        refine ⟨loaded_stay nofun, ?_⟩
        intro hsucceed
        exact absurd hpread (hsucceed total hvisited (by omega))
      | some bytes =>
        obtain ⟨hlow, hshort, hend, hbytes⟩ := preadBytes_spec hcount hpread
        obtain ⟨hroom, hpage⟩ := Nat.le_min.1 hshort
        rw [Nat.mod_eq_of_lt hoffset] at hlow hend hbytes
        dsimp only
        -- an empty read is the end of the file: what is left keeps its zeros
        by_cases hempty : bytes.isEmpty = true
        · rw [if_pos hempty]
          have hnil := List.isEmpty_iff.1 hempty
          exact ⟨loaded_stay fun _ => .inr (hend hnil), fun _ => rfl⟩
        · rw [if_neg hempty]
          have hpos : 0 < bytes.length := by
            rw [List.length_pos_iff]
            exact mt List.isEmpty_iff.2 hempty
          have hok : (space.write (dest + total) bytes).result = .ok () := by
            apply write_ok hpos
            · omega
            · intro a hlo hhi
              exact hmapped a (by omega) (by omega)
          have hmapped' : ∀ a, dest ≤ a → a < dest + length →
              (space.write (dest + total) bytes).space.mapped (pageFloor a) = true := by
            intro a hlo hhi
            rw [(@write_protections space (dest + total) bytes).2]
            exact hmapped a hlo hhi
          have hoffset' : offset + (total + bytes.length) < 2 ^ 64 := by
            simp only [kPageSize] at hpage
            omega
          obtain ⟨hloaded, hsucceed⟩ := ih (total + bytes.length) (space.write (dest + total) bytes).space (by omega)
            hoffset' hmapped' (hvisited.next (by omega) hpread)
          rw [hok]
          exact ⟨Loaded.write (by omega) hok hbytes hloaded, hsucceed⟩

end Files

end X86Sim.Linux
