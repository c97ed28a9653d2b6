import X86Sim.Linux.MemIsolation
import X86Sim.Linux.Transfers

/-!
# Moving and resizing mappings (`syscall-linux.cpp`)

What `mremap` returns against what it does to the pages: it shrinks a mapping where it is,
grows it where it is, or moves it to another range, each on a path of its own.

* `shrink_remapped`, `grow_remapped`, `move_remapped`: the three paths.
* `mremap_right_of_fine`: when the pages are those of the old mapping.
-/

namespace X86Sim.Linux

open AddressSpace

/-- The pages of `old` are now at `start`, with their contents and protections; what has been
added is zero, and protected as the mapping. -/
structure Remapped (m m' : AddressSpace) (old oldLength newLength start : ℕ) : Prop where
  mapped : ∀ page, page % kPageSize = 0 → start ≤ page → page < start + newLength → m'.mapped page = true
  contents : ∀ i < min oldLength newLength, m'.bytes (start + i) = m.bytes (old + i)
  protections : ∀ k < min oldLength newLength, k % kPageSize = 0 → m'.protectionAt (start + k) = m.protectionAt (old + k)
  zero : ∀ i < newLength, oldLength ≤ i → m'.bytes (start + i) = 0
  grown : ∀ k < newLength, oldLength ≤ k → k % kPageSize = 0 →
    m'.protectionAt (start + k) = m.protectionAt (old + (oldLength - kPageSize))
  unmapped : ∀ page, page % kPageSize = 0 → old ≤ page → page < old + oldLength → ¬ (start ≤ page ∧ page < start + newLength) →
    m'.mapped page = false ∧ m'.protectionAt page = .none
  outside : ∀ page, IsPage page → ¬ (old ≤ page ∧ page < old + oldLength) → ¬ (start ≤ page ∧ page < start + newLength) →
    SamePage m m' page

/-- What a call must do. -/
structure MremapRight (context : CallRegs) (p : MemProcess) (r : ℤ × MemProcess) : Prop where
  returned : 0 ≤ r.1 → ∃ oldLength newLength, pageAlignUp (context.syscallArg 1).toNat = some oldLength ∧
    pageAlignUp (context.syscallArg 2).toNat = some newLength ∧
    Remapped p.space r.2.space (context.syscallArg 0).toNat oldLength newLength r.1.toNat
  fixed : 0 ≤ r.1 → context.syscallArg 3 &&& linuxMremapFixed ≠ 0 → r.1 = (context.syscallArg 4).toNat
  failed : r.1 < 0 → r.2.space = p.space

/-- Every page of the range has the protection that `mremap` gives. -/
def AllReadWrite (m : AddressSpace) (start len : ℕ) : Prop :=
  ∀ page, page % kPageSize = 0 → start ≤ page → page < start + len → m.protectionAt page = readWrite

/-- The old pages can be moved: they lie below 48 bits, and are readable and writable only. -/
def Movable (context : CallRegs) (p : MemProcess) (oldLength : ℕ) : Prop :=
  (context.syscallArg 0).toNat + oldLength ≤ addressSpaceSize ∧
    AllReadWrite p.space (context.syscallArg 0).toNat oldLength

/-- The conditions on a move: the allocator has all that a range below 48 bits takes, or nothing
and then nothing was there, the old pages can be moved, and a fixed range is apart from them. -/
structure MoveKeeps (context : CallRegs) (host : MemHost) (p : MemProcess) (oldLength newLength : ℕ) : Prop where
  fixed : context.syscallArg 3 &&& linuxMremapFixed ≠ 0 → pageAligned (context.syscallArg 4).toNat = true →
    (context.syscallArg 4).toNat + newLength ≤ 2 ^ 64 → Room host.alloc (context.syscallArg 4).toNat newLength ∧
      (host.alloc = 0 → Unmapped p.space (context.syscallArg 4).toNat newLength) ∧
      (host.alloc ≠ 0 → Movable context p oldLength ∧
        ((context.syscallArg 4).toNat + newLength ≤ (context.syscallArg 0).toNat ∨
          (context.syscallArg 0).toNat + oldLength ≤ (context.syscallArg 4).toNat))
  free : context.syscallArg 3 &&& linuxMremapFixed = 0 → ∀ a, FirstFree p.space p.mremapNext newLength a →
    Room host.alloc a newLength ∧ (host.alloc ≠ 0 → Movable context p oldLength)

/-- The condition on a call that has read the old pages: a fixed address that is not used is
the old one, what is cut off aliases no other page and does not end the address space, nor does a mapping
that would be grown over its wrapped end, the pages are readable and writable where
new ones are made for them, and no allocation stops midway. -/
structure MremapKeeps (context : CallRegs) (host : MemHost) (p : MemProcess) (oldLength newLength : ℕ) : Prop where
  shrinks : newLength ≤ oldLength → context.syscallArg 3 &&& linuxMremapFixed ≠ 0 → context.syscallArg 4 = context.syscallArg 0
  cuts : newLength < oldLength → (context.syscallArg 0).toNat + oldLength < 2 ^ 64 ∧
    Attr.Harmless p.space ⟨(context.syscallArg 0).toNat + newLength, oldLength - newLength, .none⟩
  grows : oldLength < newLength → host.growAlloc ≠ 0 → GrowsInPlace context p oldLength newLength →
    Room host.growAlloc ((context.syscallArg 0).toNat + oldLength) (newLength - oldLength) ∧
      (context.syscallArg 3 &&& linuxMremapFixed ≠ 0 → context.syscallArg 4 = context.syscallArg 0) ∧
      p.space.protectionAt ((context.syscallArg 0).toNat + (oldLength - kPageSize)) = readWrite
  wraps : oldLength < newLength → host.growAlloc ≠ 0 → (context.syscallArg 0).toNat + oldLength = 2 ^ 64 →
    ¬ Unmapped p.space 0 (newLength - oldLength)
  moves : oldLength < newLength → ¬ (host.growAlloc ≠ 0 ∧ GrowsInPlace context p oldLength newLength) →
    context.syscallArg 3 &&& linuxMremapMaymove ≠ 0 → MoveKeeps context host p oldLength newLength

/-- The condition on a call. -/
def MremapFine (context : CallRegs) (host : MemHost) (p : MemProcess) : Prop :=
  ∀ oldLength newLength, mremapArgs context = .ok (oldLength, newLength) → host.copyError = none →
    AllMapped p.space (context.syscallArg 0).toNat (min oldLength newLength) → MremapKeeps context host p oldLength newLength

/-! ### The three paths -/

section Paths

variable {m m' : AddressSpace} {old oldLength newLength start : ℕ}

/-- The end of the mapping is cut off. -/
theorem shrink_remapped (hw : Whole old oldLength) (hwNew : Whole old newLength) (hle : newLength ≤ oldLength)
    (hh : newLength < oldLength → old + oldLength < 2 ^ 64 ∧
      Attr.Harmless m ⟨old + newLength, oldLength - newLength, .none⟩)
    (hmapped : AllMapped m old newLength) :
    Remapped m (m.unmap ((old + newLength) % 2 ^ 64) (oldLength - newLength)).space old oldLength newLength old := by
  rcases Nat.eq_or_lt_of_le hle with heq | hless
  · -- nothing is
    have hzero : oldLength - newLength = 0 := by omega
    rw [hzero, AddressSpace.unmap, if_pos (.inl rfl)]
    exact ⟨hmapped, fun _ _ => rfl, fun _ _ _ => rfl, fun i hi hge => by omega, fun k hk hge => by omega,
      fun page _ hlo hhi hout => by omega, fun page _ _ _ => SamePage.refl m page⟩
  have haligned := hw.aligned
  have hwhole := hw.whole
  have hwholeNew := hwNew.whole
  have hwCut : Whole (old + newLength) (oldLength - newLength) := by
    refine ⟨?_, ?_, by omega⟩
    · simp only [kPageSize] at *
      omega
    · simp only [kPageSize] at *
      omega
  obtain ⟨hend, hharmless⟩ := hh hless
  rw [Nat.mod_eq_of_lt (by omega)]
  have hunmaps := unmap_pages hwCut (by omega) (by omega) hharmless
  obtain ⟨hstart, hlen⟩ := toNat_of_whole hwCut (by omega) (by omega)
  have hrun := @unmap_run m (BitVec.ofNat 64 (old + newLength)) (BitVec.ofNat 64 (oldLength - newLength))
    (oldLength - newLength)
  rw [hstart, hlen, pageFloor_of_whole hwCut.aligned] at hrun
  obtain ⟨hs, hbytes, hgone⟩ := hrun hwCut.pos.ne' (by omega) (rangeOf_of_whole hwCut (by omega) (by omega))
  generalize (m.unmap (old + newLength) (oldLength - newLength)).space = m' at *
  constructor
  case mapped =>
    intro page hp hlo hhi
    rw [hs.outside page (.inl hhi)]
    exact hmapped page hp hlo hhi
  case contents =>
    intro i _
    rw [hbytes]
  case protections =>
    intro k hk _
    exact hs.protectionAt_below hharmless rfl (by dsimp only; omega)
  case zero =>
    intro i hi hge
    omega
  case grown =>
    intro k hk hge
    omega
  case unmapped =>
    intro page hp hlo hhi hout
    have hcut : old + newLength ≤ page ∧ page < old + newLength + (oldLength - newLength) := by omega
    exact ⟨hgone (by omega) page hp hcut.1 hcut.2, hs.protectionAt_cleared hharmless rfl hcut.1 hcut.2⟩
  case outside =>
    intro page hp hold _
    exact hunmaps.outside page hp fun hin => hold ⟨by omega, by omega⟩

/-- New pages follow the mapping. -/
theorem grow_remapped (hw : Whole old oldLength) (hless : oldLength < newLength) (hfit : old + newLength ≤ addressSpaceSize)
    (hmapped : AllMapped m old oldLength) (hmaps : Maps m m' (old + oldLength) (newLength - oldLength) readWrite)
    (hlast : m.protectionAt (old + (oldLength - kPageSize)) = readWrite) : Remapped m m' old oldLength newLength old := by
  have haligned := hw.aligned
  have hmin : min oldLength newLength = oldLength := by omega
  constructor
  case mapped =>
    intro page hp hlo hhi
    by_cases hin : page < old + oldLength
    · rw [(hmaps.outside page ⟨hp, by omega⟩ (by omega)).mapped]
      exact hmapped page hp hlo hin
    · exact hmaps.mapped page ⟨hp, by omega⟩ (by omega) (by omega)
  case contents =>
    intro i hi
    rw [hmin] at hi
    obtain ⟨hplo, hphi⟩ := @Whole.pageFloor_mem old oldLength (old + i) hw (by omega) (by omega)
    have hdvd := pageFloor_dvd (old + i)
    exact (hmaps.outside _ ⟨hdvd, by omega⟩ (by omega)).bytes (hmapped _ hdvd hplo hphi)
  case protections =>
    intro k hk hmod
    apply (hmaps.outside (old + k) ⟨by simp only [kPageSize] at *; omega, by omega⟩ (by omega)).protection
  case zero =>
    intro i hi hge
    exact hmaps.zero (old + i) (by omega) (by omega)
  case grown =>
    intro k hk hge hmod
    rw [hlast]
    exact hmaps.protection (old + k) ⟨by simp only [kPageSize] at *; omega, by omega⟩ (by omega) (by omega)
  case unmapped =>
    intro page hp hlo hhi hout
    omega
  case outside =>
    intro page hp hold hnew
    exact hmaps.outside page hp (by omega)

/-- The mapping goes to new pages, apart from the old ones: `m₀` is the space before, with
the target cleared, `m₁` has the new pages, and the copy has been written to them. -/
theorem move_remapped {m₀ m₁ : AddressSpace} {copied : List Byte} (hw : Whole old oldLength) (hwNew : Whole start newLength)
    (hless : oldLength < newLength) (hlow : old + oldLength ≤ addressSpaceSize) (hfit : start + newLength ≤ addressSpaceSize)
    (hcopied : copied = m.readRange old oldLength) (hrw : AllReadWrite m old oldLength)
    (hapart : start + newLength ≤ old ∨ old + oldLength ≤ start)
    (hcleared : ∀ page, IsPage page → ¬ (start ≤ page ∧ page < start + newLength) → SamePage m m₀ page)
    (hmaps : Maps m₀ m₁ start newLength readWrite) (hok : (m₁.write start copied).result = .ok ())
    (hunmaps : Unmaps (m₁.write start copied).space m' old oldLength) : Remapped m m' old oldLength newLength start := by
  have haligned := hw.aligned
  have halignedNew := hwNew.aligned
  have hpos := hw.pos
  have hmin : min oldLength newLength = oldLength := by omega
  have hlength : copied.length = oldLength := by
    rw [hcopied]
    simp [readRange]
  obtain ⟨hwprot, hwmapped⟩ := @write_protections m₁ start copied
  -- the pages of the target after the old pages went
  have htarget : ∀ page, IsPage page → start ≤ page → page < start + newLength →
      SamePage (m₁.write start copied).space m' page ∧ (m₁.write start copied).space.mapped page = true := by
    intro page hp hlo hhi
    refine ⟨hunmaps.outside page hp (by omega), ?_⟩
    rw [hwmapped]
    exact hmaps.mapped page hp hlo hhi
  have hbytes : ∀ i < newLength, m'.bytes (start + i) = (m₁.write start copied).space.bytes (start + i) := by
    intro i hi
    obtain ⟨hplo, hphi⟩ := @Whole.pageFloor_mem start newLength (start + i) hwNew (by omega) (by omega)
    obtain ⟨hsame, hmapped⟩ := htarget _ ⟨pageFloor_dvd _, by omega⟩ hplo hphi
    exact hsame.bytes hmapped
  have hprot : ∀ k < newLength, k % kPageSize = 0 → m'.protectionAt (start + k) = readWrite := by
    intro k hk hmod
    have hp : IsPage (start + k) := ⟨by simp only [kPageSize] at *; omega, by omega⟩
    rw [(htarget _ hp (by omega) (by omega)).1.protection, hwprot]
    exact hmaps.protection _ hp (by omega) (by omega)
  constructor
  case mapped =>
    intro page hp hlo hhi
    obtain ⟨hsame, hmapped⟩ := htarget page ⟨hp, by omega⟩ hlo hhi
    exact hsame.mapped.trans hmapped
  case contents =>
    intro i hi
    rw [hmin] at hi
    have hread := congrArg (fun l => l.getD i 0) (readRange_write m₁ hok)
    rw [hbytes i (by omega), hlength, hcopied] at *
    simpa [readRange, List.getD_eq_getElem?_getD, hi] using hread
  case protections =>
    intro k hk hmod
    rw [hmin] at hk
    rw [hprot k (by omega) hmod]
    exact (hrw (old + k) (by simp only [kPageSize] at *; omega) (by omega) (by omega)).symm
  case zero =>
    intro i hi hge
    rw [hbytes i hi, write_frame m₁ (.inr (by omega))]
    exact hmaps.zero _ (by omega) (by omega)
  case grown =>
    intro k hk hge hmod
    have hwhole := hw.whole
    rw [hprot k hk hmod]
    exact (hrw _ (by simp only [kPageSize] at *; omega) (by omega) (by simp only [kPageSize] at *; omega)).symm
  case unmapped =>
    intro page hp hlo hhi _
    exact ⟨hunmaps.unmapped page ⟨hp, by omega⟩ hlo hhi, hunmaps.protection page ⟨hp, by omega⟩ hlo hhi⟩
  case outside =>
    intro page hp hold hnew
    have hsame : SamePage m₁ (m₁.write start copied).space page := by
      apply write_samePage
      have hwhole := hwNew.whole
      have hpage := hp.1
      simp only [kPageSize] at *
      omega
    exact (((hcleared page hp hnew).trans (hmaps.outside page hp hnew)).trans hsame).trans (hunmaps.outside page hp hold)

end Paths

/-! ### The call -/

section Call

variable {context : CallRegs} {kind : SyscallKind} {host : MemHost} {p p₀ : MemProcess} {r : ℤ × MemProcess}
  {oldLength newLength start : ℕ} {copied : List Byte}

theorem mremap_fails {error : ℕ} (hpos : 0 < error) (hspace : p₀.space = p.space) (hr : p₀.fails error = some r) :
    MremapRight context p r := by
  obtain rfl := Option.some.inj hr
  have hneg := returnError_neg hpos
  refine ⟨fun h => ?_, fun h => ?_, fun _ => hspace⟩
  · have h' : 0 ≤ returnError error := h
    omega
  · have h' : 0 ≤ returnError error := h
    omega

/-- A move that has its pages, and one that has none. -/
theorem moveAt_keeps (hw : Whole (context.syscallArg 0).toNat oldLength) (hwNew : Whole start newLength)
    (hless : oldLength < newLength) (hfit : start + newLength ≤ 2 ^ 64) (hlt : newLength < 2 ^ 64)
    (hroom : Room host.alloc start newLength)
    (hcopied : copied = p.space.readRange (context.syscallArg 0).toNat oldLength)
    (hkeeps : host.alloc ≠ 0 → Movable context p oldLength ∧
      (start + newLength ≤ (context.syscallArg 0).toNat ∨ (context.syscallArg 0).toNat + oldLength ≤ start))
    (hcleared : host.alloc ≠ 0 → ∀ page, IsPage page → ¬ (start ≤ page ∧ page < start + newLength) → SamePage p.space p₀.space page)
    (hr : moveAt context host p₀ oldLength newLength start copied = some r) :
    (host.alloc = 0 → r.1 < 0 ∧ r.2.space = p₀.space) ∧
      (host.alloc ≠ 0 → r.1 = start ∧ Remapped p.space r.2.space (context.syscallArg 0).toNat oldLength newLength start) := by
  refine ⟨fun hnone => ?_, fun hsome => ?_⟩
  · rw [moveAt, hnone, map_short hwNew hfit hlt] at hr
    obtain rfl := Option.some.inj hr
    exact ⟨returnError_neg (memoryErrorToLinux_pos _), rfl⟩
  · obtain ⟨halloc, hin⟩ := hroom.resolve_left hsome
    obtain ⟨⟨hlow, hrw⟩, hapart⟩ := hkeeps hsome
    have hsize : addressSpaceSize = 2 ^ 48 := rfl
    have hpos := hw.pos
    obtain ⟨hok, hmaps⟩ := @map_pages p₀.space start newLength readWrite host.alloc hwNew hin halloc
    have hlength : copied.length = oldLength := by
      rw [hcopied]
      simp [readRange]
    have hempty : copied.isEmpty = false := by
      rw [List.isEmpty_eq_false_iff]
      exact List.length_pos_iff.1 (by omega)
    simp only [moveAt, hok, hempty, Bool.false_eq_true, if_false] at hr
    generalize (p₀.space.map start newLength readWrite host.alloc).space = m₁ at *
    dsimp only [MemProcess.withSpace] at hr
    have hwritten : (m₁.write start copied).result = .ok () := by
      apply write_ok (by omega) (by omega)
      intro a hlo hhi
      obtain ⟨hplo, hphi⟩ := @Whole.pageFloor_mem start newLength a hwNew hlo (by omega)
      exact hmaps.mapped _ ⟨pageFloor_dvd a, by omega⟩ hplo hphi
    rw [hwritten] at hr
    obtain rfl := Option.some.inj hr
    refine ⟨rfl, move_remapped hw hwNew hless hlow hin hcopied hrw hapart (hcleared hsome) hmaps hwritten ?_⟩
    exact unmap_pages hw (by omega) (by omega) (Attr.harmless_of_le hlow hpos)

/-- The last part of the call. -/
theorem mremapMove_keeps (hold : pageAlignUp (context.syscallArg 1).toNat = some oldLength)
    (hnew : pageAlignUp (context.syscallArg 2).toNat = some newLength) (hnewPos : (context.syscallArg 2).toNat ≠ 0)
    (hw : Whole (context.syscallArg 0).toNat oldLength) (hless : oldLength < newLength)
    (hmapped : AllMapped p.space (context.syscallArg 0).toNat oldLength)
    (hcopied : copied = p.space.readRange (context.syscallArg 0).toNat oldLength)
    (hf : context.syscallArg 3 &&& linuxMremapMaymove ≠ 0 → MoveKeeps context host p oldLength newLength)
    (hr : mremapMove context host p oldLength newLength copied = some r) : MremapRight context p r := by
  have hlt : newLength < 2 ^ 64 := (whole_of_ceil hnew hnewPos (Nat.zero_mod _)).2.1
  -- what a move at `start` comes to
  have hmoved : ∀ (start : ℕ), (host.alloc = 0 → r.1 < 0 ∧ r.2.space = p.space) ∧
      (host.alloc ≠ 0 → r.1 = start ∧ Remapped p.space r.2.space (context.syscallArg 0).toNat oldLength newLength start) →
      (context.syscallArg 3 &&& linuxMremapFixed ≠ 0 → start = (context.syscallArg 4).toNat) → MremapRight context p r := by
    rintro start ⟨hnone, hsome⟩ hfixed
    by_cases halloc : host.alloc = 0
    · obtain ⟨hneg, hspace⟩ := hnone halloc
      exact ⟨fun h => (by omega), fun h => (by omega), fun _ => hspace⟩
    · obtain ⟨heq, hremapped⟩ := hsome halloc
      refine ⟨fun _ => ⟨oldLength, newLength, hold, hnew, ?_⟩, fun _ hflag => ?_, fun hneg => (by omega)⟩
      · rw [heq]
        exact hremapped
      · rw [heq, hfixed hflag]
  rw [mremapMove_eq] at hr
  split at hr
  · exact mremap_fails (by decide) rfl hr
  · rename_i hmay
    have hkeeps := hf hmay
    rw [mremapTarget] at hr
    by_cases hfixed : context.syscallArg 3 &&& linuxMremapFixed ≠ 0
    · rw [if_pos hfixed] at hr
      cases halignedNew : pageAligned (context.syscallArg 4).toNat with
      | false =>
        rw [halignedNew] at hr
        exact mremap_fails (by decide) rfl hr
      | true =>
        obtain ⟨hwNew, -, -⟩ := whole_of_ceil hnew hnewPos (pageAligned_iff.1 halignedNew)
        rw [halignedNew, Bool.not_true, if_neg Bool.false_ne_true] at hr
        by_cases hfit : (context.syscallArg 4).toNat + newLength ≤ 2 ^ 64
        · obtain ⟨hroom, hnone, hsome⟩ := hkeeps.fixed hfixed halignedNew hfit
          by_cases hfree : rangeIsUnmapped p.space (context.syscallArg 4).toNat newLength = true
          · rw [if_pos hfree] at hr
            exact hmoved _ (moveAt_keeps hw hwNew hless hfit hlt hroom hcopied hsome (fun _ page _ _ => SamePage.refl _ page) hr)
              fun _ => rfl
          · -- the range is cleared first, so the allocator has pages
            rw [if_neg hfree] at hr
            have hpages : host.alloc ≠ 0 := fun h => hfree (rangeIsUnmapped_of hwNew hfit (hnone h))
            obtain ⟨-, hin⟩ := hroom.resolve_left hpages
            have hunmaps := @unmap_pages p.space _ newLength hwNew hfit hlt (Attr.harmless_of_le hin hwNew.pos)
            obtain ⟨-, hmove⟩ := moveAt_keeps hw hwNew hless hfit hlt hroom hcopied hsome (fun _ => hunmaps.outside) hr
            exact hmoved _ ⟨fun h => absurd h hpages, hmove⟩ fun _ => rfl
        · have hover : 2 ^ 64 < (context.syscallArg 4).toNat + newLength := by omega
          have hno : ¬ rangeIsUnmapped p.space (context.syscallArg 4).toNat newLength = true := by
            rw [rangeIsUnmapped, if_neg hwNew.pos.ne', if_pos (rangeOverflows_eq_true hwNew hlt hover)]
            exact Bool.false_ne_true
          rw [if_neg hno, unmap_overflows hwNew hlt hover] at hr
          obtain ⟨hsame, hneg⟩ := moveAt_overflows hwNew hlt hover hr
          refine ⟨fun h => (by omega), fun h => (by omega), fun _ => ?_⟩
          rw [hsame]
          rfl
    · rw [if_neg hfixed] at hr
      have hzero : context.syscallArg 3 &&& linuxMremapFixed = 0 := not_not.1 hfixed
      cases hfind : findUnmappedRange p.space p.mremapNext newLength with
      | none =>
        rw [hfind] at hr
        exact mremap_fails (by decide) rfl hr
      | some start =>
        obtain ⟨hmod, -, -, -⟩ := pageCeil_eq hnew
        have hfirst := findUnmappedRange_first hmod (by omega) hlt hfind
        obtain ⟨hroom, hsome⟩ := hkeeps.free hzero start hfirst
        rw [hfind] at hr
        -- the old pages are mapped, so the free range is apart from them
        have hapart : start + newLength ≤ (context.syscallArg 0).toNat ∨ (context.syscallArg 0).toNat + oldLength ≤ start := by
          by_contra hno
          have haligned := hw.aligned
          have halignedNew := hfirst.aligned
          have hpos := hw.pos
          have hin := hmapped (max start (context.syscallArg 0).toNat) (by simp only [kPageSize] at *; omega) (by omega) (by omega)
          rw [hfirst.free (max start (context.syscallArg 0).toNat) (by simp only [kPageSize] at *; omega) (by omega) (by omega)] at hin
          cases hin
        have hmove := @moveAt_keeps context host p { p with mremapNext := start + newLength } r oldLength newLength start copied hw
          ⟨hfirst.aligned, hmod, by omega⟩ hless hfirst.fits.le hlt hroom hcopied (fun h => ⟨hsome h, hapart⟩)
          (fun _ page _ _ => SamePage.refl _ page) hr
        exact hmoved start hmove fun hflag => absurd hzero hflag

/-- **`mremap` keeps the mapping it moves or resizes**, under the condition. -/
theorem mremap_right_of_fine (hf : MremapFine context host p) (hr : sysMremap context kind host p = some r) :
    MremapRight context p r := by
  rw [sysMremap] at hr
  split at hr
  · cases hr
  rcases @mremapArgs_cases context with
    ⟨error, hargs, hpos⟩ | ⟨oldLength, newLength, hargs, hold, hnew, holdPos, hnewPos, haligned, hover⟩
  · rw [hargs] at hr
    exact mremap_fails hpos rfl hr
  · rw [hargs] at hr
    dsimp only at hr
    cases hcopy : host.copyError with
    | some error =>
      rw [hcopy] at hr
      exact mremap_fails (host.copyError_pos error hcopy) rfl hr
    | none =>
      rw [hcopy] at hr
      dsimp only at hr
      cases hread : p.space.read (context.syscallArg 0).toNat (min oldLength newLength) with
      | error e =>
        rw [hread] at hr
        exact mremap_fails (memoryErrorToLinux_pos e) rfl hr
      | ok copied =>
        rw [hread] at hr
        obtain ⟨-, hpages⟩ := read_ok hread
        have hcopied := read_contents hread
        obtain ⟨hw, hltOld, -⟩ := whole_of_ceil hold holdPos haligned
        obtain ⟨hwNew, hltNew, -⟩ := whole_of_ceil hnew hnewPos haligned
        have hmapped : AllMapped p.space (context.syscallArg 0).toNat (min oldLength newLength) := by
          intro page hp hlo hhi
          have hpage := hpages page hlo hhi
          rwa [pageFloor_of_whole hp] at hpage
        have hkeeps := hf oldLength newLength hargs hcopy hmapped
        have hsize : addressSpaceSize = 2 ^ 48 := rfl
        have hfits : (context.syscallArg 0).toNat + oldLength ≤ 2 ^ 64 := by
          by_contra hover'
          rw [rangeOverflows_eq_true hw hltOld (Nat.not_le.1 hover')] at hover
          cases hover
        dsimp only at hr
        rw [mremapRead] at hr
        by_cases hle : newLength ≤ oldLength
        · rw [if_pos hle] at hr
          obtain rfl := Option.some.inj hr
          rw [Nat.min_eq_right hle] at hmapped
          refine ⟨fun _ => ⟨oldLength, newLength, hold, hnew, shrink_remapped hw hwNew hle hkeeps.cuts hmapped⟩, fun _ hflag => ?_, fun hneg => ?_⟩
          · rw [hkeeps.shrinks hle hflag]
          · dsimp only at hneg
            omega
        · have hless : oldLength < newLength := Nat.not_le.1 hle
          rw [Nat.min_eq_left hless.le] at hmapped hcopied
          -- every way on that does not grow in place ends in the move
          have hmove : ¬ (host.growAlloc ≠ 0 ∧ GrowsInPlace context p oldLength newLength) →
              mremapMove context host p oldLength newLength copied = some r → MremapRight context p r := by
            intro hno hr
            exact mremapMove_keeps hold hnew hnewPos hw hless hmapped hcopied (hkeeps.moves hless hno) hr
          have hwGrow : Whole ((context.syscallArg 0).toNat + oldLength) (newLength - oldLength) := by
            have hmodOld := hw.whole
            have hmodNew := hwNew.whole
            refine ⟨?_, ?_, by omega⟩
            · simp only [kPageSize] at *
              omega
            · simp only [kPageSize] at *
              omega
          rw [if_neg hle] at hr
          dsimp only at hr
          by_cases hwrap : (context.syscallArg 0).toNat + oldLength = 2 ^ 64
          · -- the end of the mapping is taken for 0
            have hno : ¬ GrowsInPlace context p oldLength newLength := fun hin => by
              have hbelow : (context.syscallArg 0).toNat + newLength < 2 ^ 64 := hin.1
              omega
            have hwZero : Whole 0 (newLength - oldLength) := ⟨rfl, hwGrow.whole, hwGrow.pos⟩
            rw [hwrap, Nat.mod_self] at hr
            by_cases hcond : 0 ≤ 2 ^ 64 - 1 - (newLength - oldLength) ∧
                rangeIsUnmapped p.space 0 (newLength - oldLength) = true
            · rw [if_pos hcond] at hr
              have hnone : host.growAlloc = 0 := by
                by_contra hsome
                exact hkeeps.wraps hless hsome hwrap ((rangeIsUnmapped_iff hwZero (by omega)).1 hcond.2)
              rw [hnone, map_short hwZero (by omega) (by omega)] at hr
              exact hmove (fun hboth => hboth.1 hnone) hr
            · rw [if_neg hcond] at hr
              exact hmove (fun hboth => hno hboth.2) hr
          have hend : ((context.syscallArg 0).toNat + oldLength) % 2 ^ 64 = (context.syscallArg 0).toNat + oldLength :=
            Nat.mod_eq_of_lt (by omega)
          rw [hend] at hr
          -- what the range check asks is just that the mapping can grow where it is
          by_cases hin : GrowsInPlace context p oldLength newLength
          · have hcond : (context.syscallArg 0).toNat + oldLength ≤ 2 ^ 64 - 1 - (newLength - oldLength) ∧
                rangeIsUnmapped p.space ((context.syscallArg 0).toNat + oldLength) (newLength - oldLength) = true := by
              obtain ⟨hlt, hfree⟩ := hin
              exact ⟨by omega, (rangeIsUnmapped_iff hwGrow (by omega)).2 hfree⟩
            rw [if_pos hcond] at hr
            by_cases hnone : host.growAlloc = 0
            · have hfit : (context.syscallArg 0).toNat + newLength < 2 ^ 64 := hin.1
              rw [hnone, map_short hwGrow (by omega) (by omega)] at hr
              exact hmove (fun hboth => hboth.1 hnone) hr
            · obtain ⟨hroom, hflag, hlast⟩ := hkeeps.grows hless hnone hin
              obtain ⟨halloc, hfit⟩ := hroom.resolve_left hnone
              obtain ⟨hok, hmaps⟩ := @map_pages p.space _ _ readWrite host.growAlloc hwGrow hfit halloc
              rw [hok] at hr
              obtain rfl := Option.some.inj hr
              refine ⟨fun _ => ⟨oldLength, newLength, hold, hnew, ?_⟩, fun _ h => ?_, fun hneg => ?_⟩
              · exact grow_remapped hw hless (by omega) hmapped hmaps hlast
              · rw [hflag h]
              · dsimp only at hneg
                omega
          · have hcond : ¬ ((context.syscallArg 0).toNat + oldLength ≤ 2 ^ 64 - 1 - (newLength - oldLength) ∧
                rangeIsUnmapped p.space ((context.syscallArg 0).toNat + oldLength) (newLength - oldLength) = true) := by
              rintro ⟨hbelow, hfree⟩
              exact hin ⟨by omega, (rangeIsUnmapped_iff hwGrow (by omega)).1 hfree⟩
            rw [if_neg hcond] at hr
            exact hmove (fun hboth => hin hboth.2) hr

end Call

/-! ### A fixed address that is not used -/

/-- Two readable and writable pages at 0x10000. -/
def twoPages : MemProcess := { MemProcess.first with space := ((AddressSpace.init true).map 0x10000 0x2000 readWrite 8).space }

/-- The mapping of two pages to one page, moved to 0x40000. -/
def shrinkTo : CallRegs := ⟨25, 0x10000, 0x2000, 0x1000, 3, 0x40000, 0⟩

/-- The mapping of two pages to three, wherever there is room. -/
def growTo : CallRegs := ⟨25, 0x10000, 0x2000, 0x3000, 1, 0, 0⟩

theorem twoPages_mremap : ∃ r, sysMremap growTo .syscall64 onePage twoPages = some r ∧ MremapRight growTo twoPages r := by
  have hsome : (sysMremap growTo .syscall64 onePage twoPages).isSome = true := by decide +kernel
  obtain ⟨r, hr⟩ := Option.isSome_iff_exists.1 hsome
  refine ⟨r, hr, mremap_right_of_fine ?_ hr⟩
  intro oldLength newLength hargs _ _
  have hlengths : mremapArgs growTo = .ok (0x2000, 0x3000) := by decide +kernel
  rw [hlengths] at hargs
  obtain ⟨rfl, rfl⟩ := Prod.mk.inj (Except.ok.inj hargs)
  have hfree : GrowsInPlace growTo twoPages 0x2000 0x3000 := by
    refine ⟨by decide, ?_⟩
    intro page hp hlo hhi
    have hlo' : 0x10000 + 0x2000 ≤ page := hlo
    have hhi' : page < 0x10000 + 0x2000 + 0x1000 := hhi
    have heq : page = 0x12000 := by
      simp only [kPageSize] at hp
      omega
    subst heq
    decide +kernel
  refine ⟨fun h => absurd h (by decide), fun h => absurd h (by decide), fun _ _ _ => ⟨.inr ⟨by decide, by decide⟩, fun h => absurd rfl h, by decide +kernel⟩,
    fun _ _ h => absurd h (by decide), ?_⟩
  intro _ hno
  exact absurd ⟨by decide, hfree⟩ hno

/-- A mapping that shrinks stays where it was. -/
theorem not_mremap_right : ¬ ∀ context kind host p r, sysMremap context kind host p = some r → MremapRight context p r := by
  intro h
  have hsome : (sysMremap shrinkTo .syscall64 onePage twoPages).map Prod.fst = some 0x10000 := by decide +kernel
  obtain ⟨r, hr, hvalue⟩ := Option.map_eq_some_iff.1 hsome
  have hfixed := (h shrinkTo .syscall64 onePage twoPages r hr).fixed (by omega) (by decide)
  rw [hvalue] at hfixed
  exact absurd hfixed (by decide)

end X86Sim.Linux
