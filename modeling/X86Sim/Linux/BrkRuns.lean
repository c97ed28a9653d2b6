import X86Sim.Linux.MemIsolation

/-!
# The program break of several guests (`syscall-linux.cpp`)

`Host::syscall` hands every call the initial process id, so all guests of a host process
share one entry of `brk_states`, whatever their address spaces are. Shrinking moves the
break, not the end of what is mapped.

* `sysBrk_heap`: one request of the guest that made the entry.
* `heapsRight_of_fine`: runs in which only one guest moves the break, over bytes it has
  left zero.
-/

namespace X86Sim.Linux

open AddressSpace

/-- The guests of one host process, and the entry of `brk_states` for the initial process. -/
structure Guests where
  brk : Option BrkState
  process : ℕ → MemProcess

/-- What a call of a guest works on. -/
def Guests.caller (w : Guests) (guest : ℕ) : MemProcess := { w.process guest with brk := w.brk }

inductive GuestEvent
  | brk (guest : ℕ) (context : CallRegs) (kind : SyscallKind) (host : MemHost)
  | store (guest : ℕ) (address : ℕ) (data : W64) (bytemask : BitVec 8)

def guestStep (w : Guests) : GuestEvent → Guests
  | .brk guest context kind host =>
    match sysBrk context kind host (w.caller guest) with
    | none => w
    | some (_, p) => ⟨p.brk, Function.update w.process guest p⟩
  | .store guest address data bytemask =>
    { w with
      process := Function.update w.process guest
        ((w.process guest).withSpace ((w.process guest).space.storemask address data bytemask)) }

/-- What a request must do, for the caller before it and the value and caller after it. -/
structure BrkRight (context : CallRegs) (p : MemProcess) (r : ℤ × MemProcess) : Prop where
  mapped : ∀ a, p.initialBreak ≤ a → a < r.2.brkState.currentBreak →
    r.2.space.mapped (pageFloor a) = true ∧ r.2.space.check a readWrite = true
  zero : ∀ a, p.brkState.currentBreak ≤ a → a < r.2.brkState.currentBreak → r.2.space.bytes a = 0
  kept : ∀ a, p.initialBreak ≤ a → a < p.brkState.currentBreak → a < r.2.brkState.currentBreak →
    r.2.space.bytes a = p.space.bytes a
  value : r.1 = r.2.brkState.currentBreak ∧
    (r.2.brkState.currentBreak = (context.syscallArg 0).toNat ∨ r.2.brkState.currentBreak = p.brkState.currentBreak)
  failed : r.1 ≠ (context.syscallArg 0).toNat → r.2.space = p.space ∧ r.2.brkState = p.brkState

/-- Every request of the run does what it must. -/
def HeapsRight : Guests → List GuestEvent → Prop
  | _, [] => True
  | w, event :: events =>
    (∀ guest context kind host, event = .brk guest context kind host →
      ∀ r, sysBrk context kind host (w.caller guest) = some r → BrkRight context (w.caller guest) r) ∧
      HeapsRight (guestStep w event) events

/-- A request of the owner of the break: the allocator has all pages or none, the new pages
lie in the 48-bit space, and the bytes it includes again are zero. -/
structure BrkFine (owner guest : ℕ) (context : CallRegs) (host : MemHost) (p : MemProcess) : Prop where
  own : guest = owner
  room : ∀ stop, pageAlignUp (context.syscallArg 0).toNat = some stop → p.brkState.mappedEnd < stop →
    Room host.alloc (pageFloor p.brkState.mappedEnd) (stop - pageFloor p.brkState.mappedEnd)
  clear : ∀ a, p.brkState.currentBreak ≤ a → a < (context.syscallArg 0).toNat → a < p.brkState.mappedEnd →
    p.space.bytes a = 0

/-- The requests of a run meet the condition; stores are free. -/
def BrkRunFine (owner : ℕ) : Guests → List GuestEvent → Prop
  | _, [] => True
  | w, event :: events =>
    (∀ guest context kind host, event = .brk guest context kind host → BrkFine owner guest context host (w.caller guest)) ∧
      BrkRunFine owner (guestStep w event) events

/-- The bookkeeping of the break and the memory of its owner agree. -/
structure HeapInv (p : MemProcess) : Prop where
  minimum : p.brkState.minimumBreak = p.initialBreak
  above : p.initialBreak ≤ p.brkState.currentBreak
  below : p.brkState.currentBreak ≤ p.brkState.mappedEnd
  whole : p.brkState.mappedEnd = p.initialBreak ∨ p.brkState.mappedEnd % kPageSize = 0
  pages : ∀ a, p.initialBreak ≤ a → a < p.brkState.mappedEnd →
    p.space.mapped (pageFloor a) = true ∧ p.space.check a readWrite = true

variable {context : CallRegs} {kind : SyscallKind} {host : MemHost} {p : MemProcess} {r : ℤ × MemProcess}

/-- A request that moves no page. -/
theorem heap_of_same (h : HeapInv p) (hspace : r.2.space = p.space) (hinitial : r.2.initialBreak = p.initialBreak)
    (hbrk : r.2.brkState = p.brkState) (hvalue : r.1 = p.brkState.currentBreak) : BrkRight context p r ∧ HeapInv r.2 := by
  constructor
  · constructor
    case mapped =>
      intro a hlo hhi
      rw [hbrk] at hhi
      rw [hspace]
      exact h.pages a hlo (lt_of_lt_of_le hhi h.below)
    case zero =>
      intro a hlo hhi
      rw [hbrk] at hhi
      omega
    case kept =>
      intro a _ _ _
      rw [hspace]
    case value =>
      rw [hbrk]
      exact ⟨hvalue, .inr rfl⟩
    case failed => exact fun _ => ⟨hspace, hbrk⟩
  · constructor
    case minimum =>
      rw [hbrk, hinitial]
      exact h.minimum
    case above =>
      rw [hbrk, hinitial]
      exact h.above
    case below =>
      rw [hbrk]
      exact h.below
    case whole =>
      rw [hbrk, hinitial]
      exact h.whole
    case pages =>
      rw [hbrk, hinitial, hspace]
      exact h.pages

/-- A request that moves the break, over pages that are mapped already or have just been. -/
theorem heap_of_moved (h : HeapInv p) {space : AddressSpace} {stop : ℕ} (hmin : p.initialBreak ≤ (context.syscallArg 0).toNat)
    (hend : (context.syscallArg 0).toNat ≤ stop) (hstop : stop = p.initialBreak ∨ stop % kPageSize = 0)
    (hpages : ∀ a, p.initialBreak ≤ a → a < stop → space.mapped (pageFloor a) = true ∧ space.check a readWrite = true)
    (hkept : ∀ a, p.initialBreak ≤ a → a < p.brkState.currentBreak → space.bytes a = p.space.bytes a)
    (hzero : ∀ a, p.brkState.currentBreak ≤ a → a < (context.syscallArg 0).toNat → space.bytes a = 0)
    (hspace : r.2.space = space) (hinitial : r.2.initialBreak = p.initialBreak)
    (hbrk : r.2.brkState = ⟨p.brkState.minimumBreak, (context.syscallArg 0).toNat, stop⟩)
    (hvalue : r.1 = (context.syscallArg 0).toNat) : BrkRight context p r ∧ HeapInv r.2 := by
  constructor
  · constructor
    case mapped =>
      intro a hlo hhi
      rw [hbrk] at hhi
      rw [hspace]
      exact hpages a hlo (lt_of_lt_of_le hhi hend)
    case zero =>
      intro a hlo hhi
      rw [hbrk] at hhi
      rw [hspace]
      exact hzero a hlo hhi
    case kept =>
      intro a hlo hhi _
      rw [hspace]
      exact hkept a hlo hhi
    case value =>
      rw [hbrk]
      exact ⟨hvalue, .inl rfl⟩
    case failed => exact fun hne => absurd hvalue hne
  · constructor
    case minimum =>
      rw [hbrk, hinitial]
      exact h.minimum
    case above =>
      rw [hbrk, hinitial]
      exact hmin
    case below =>
      rw [hbrk]
      exact hend
    case whole =>
      rw [hbrk, hinitial]
      exact hstop
    case pages =>
      rw [hbrk, hinitial, hspace]
      exact hpages

/-- A request that grows the heap over new pages, the page that the heap ends in included
where no page of the heap is mapped yet. -/
theorem heap_of_grown (h : HeapInv p) {space : AddressSpace} {stop : ℕ}
    (hmin : p.initialBreak ≤ (context.syscallArg 0).toNat) (hend : (context.syscallArg 0).toNat ≤ stop)
    (hmod : stop % kPageSize = 0) (hgrow : p.brkState.mappedEnd < stop) (hmax : stop ≤ addressSpaceSize)
    (hmaps : Maps p.space space (pageFloor p.brkState.mappedEnd) (stop - pageFloor p.brkState.mappedEnd) readWrite)
    (hclear : ∀ a, p.brkState.currentBreak ≤ a → a < (context.syscallArg 0).toNat → a < p.brkState.mappedEnd →
      p.space.bytes a = 0)
    (hspace : r.2.space = space) (hinitial : r.2.initialBreak = p.initialBreak)
    (hbrk : r.2.brkState = ⟨p.brkState.minimumBreak, (context.syscallArg 0).toNat, stop⟩)
    (hvalue : r.1 = (context.syscallArg 0).toNat) : BrkRight context p r ∧ HeapInv r.2 := by
  have habove := h.above
  have hbelow := h.below
  have hfloor : pageFloor p.brkState.mappedEnd ≤ p.brkState.mappedEnd := Nat.sub_le _ _
  have hpage : ∀ a, a < stop → IsPage (pageFloor a) := by
    intro a ha
    have : pageFloor a ≤ a := Nat.sub_le _ _
    exact ⟨pageFloor_dvd a, by omega⟩
  -- below the end of the heap so far, nothing changes
  have hold : ∀ a, p.initialBreak ≤ a → a < p.brkState.mappedEnd → SamePage p.space space (pageFloor a) := by
    intro a hlo hhi
    have hwhole := h.whole.resolve_left (by omega)
    have hsame : pageFloor p.brkState.mappedEnd = p.brkState.mappedEnd := pageFloor_of_whole hwhole
    have hle : pageFloor a ≤ a := Nat.sub_le _ _
    exact hmaps.outside (pageFloor a) (hpage a (by omega)) (by omega)
  have hnew : ∀ a, p.brkState.mappedEnd ≤ a → a < stop → pageFloor p.brkState.mappedEnd ≤ pageFloor a ∧
      pageFloor a < pageFloor p.brkState.mappedEnd + (stop - pageFloor p.brkState.mappedEnd) := by
    intro a hlo hhi
    simp only [pageFloor, kPageSize] at *
    omega
  refine heap_of_moved h hmin hend (.inr hmod) ?_ ?_ ?_ hspace hinitial hbrk hvalue
  · intro a hlo hhi
    rcases Nat.lt_or_ge a p.brkState.mappedEnd with hin | hout
    · have hsame := hold a hlo hin
      obtain ⟨hmapped, hchecked⟩ := h.pages a hlo hin
      refine ⟨hsame.mapped.trans hmapped, ?_⟩
      have hprot := hsame.protection
      rw [protectionAt_pageFloor, protectionAt_pageFloor] at hprot
      rw [check_of_lt (by omega)] at hchecked ⊢
      rw [hprot]
      exact hchecked
    · obtain ⟨hplo, hphi⟩ := hnew a hout hhi
      have hprot := hmaps.protection _ (hpage a hhi) hplo hphi
      refine ⟨hmaps.mapped _ (hpage a hhi) hplo hphi, ?_⟩
      rw [protectionAt_pageFloor] at hprot
      rw [check_of_lt (by omega), hprot]
      rfl
  · intro a hlo hhi
    exact (hold a hlo (by omega)).bytes (h.pages a hlo (by omega)).1
  · intro a hlo hhi
    rcases Nat.lt_or_ge a p.brkState.mappedEnd with hin | hout
    · rw [(hold a (by omega) hin).bytes (h.pages a (by omega) hin).1]
      exact hclear a hlo hhi hin
    · exact hmaps.zero a (by omega) (by omega)

/-- **One request** of the owner of the break. -/
theorem sysBrk_heap (h : HeapInv p) {owner guest : ℕ} (hf : BrkFine owner guest context host p)
    (hr : sysBrk context kind host p = some r) : BrkRight context p r ∧ HeapInv r.2 := by
  rw [sysBrk] at hr
  split at hr
  · cases hr
  dsimp only at hr
  split at hr
  · obtain rfl := Option.some.inj hr
    exact heap_of_same h rfl rfl rfl rfl
  split at hr
  · obtain rfl := Option.some.inj hr
    exact heap_of_same h rfl rfl rfl rfl
  rename_i hnonzero hmin
  rw [h.minimum, not_lt] at hmin
  cases hceil : pageAlignUp (context.syscallArg 0).toNat with
  | none =>
    rw [hceil] at hr
    obtain rfl := Option.some.inj hr
    exact heap_of_same h rfl rfl rfl rfl
  | some stop =>
    rw [hceil] at hr
    dsimp only at hr
    obtain ⟨hmod, hle, hnear, hmax⟩ := pageCeil_eq hceil
    by_cases hgrow : stop > p.brkState.mappedEnd
    · rw [if_pos hgrow] at hr
      have hlt : stop < 2 ^ 64 := by
        simp only [kPageSize] at hmax
        omega
      obtain ⟨hresult, hspace⟩ := @map_pageFloor p.brkState.mappedEnd readWrite stop host.alloc hmod hgrow hlt p.space
      have hfloor : pageFloor p.brkState.mappedEnd ≤ p.brkState.mappedEnd ∧
          pageFloor p.brkState.mappedEnd % kPageSize = 0 := by
        simp only [pageFloor, kPageSize]
        omega
      have hw : Whole (pageFloor p.brkState.mappedEnd) (stop - pageFloor p.brkState.mappedEnd) := by
        refine ⟨hfloor.2, ?_, by omega⟩
        simp only [kPageSize] at *
        omega
      rw [hresult, hspace] at hr
      by_cases hnone : host.alloc = 0
      · rw [hnone, map_short hw (by omega) (by omega)] at hr
        obtain rfl := Option.some.inj hr
        exact heap_of_same h rfl rfl rfl rfl
      · obtain ⟨halloc, hin⟩ := (hf.room stop hceil hgrow).resolve_left hnone
        obtain ⟨hok, hmaps⟩ := @map_pages p.space _ _ readWrite host.alloc hw hin halloc
        rw [hok] at hr
        obtain rfl := Option.some.inj hr
        exact heap_of_grown h hmin hle hmod hgrow (by omega) hmaps hf.clear rfl rfl rfl rfl
    · rw [if_neg hgrow] at hr
      obtain rfl := Option.some.inj hr
      refine heap_of_moved h hmin (by omega) h.whole h.pages (fun _ _ _ => rfl) ?_ rfl rfl rfl rfl
      intro a hlo hhi
      exact hf.clear a hlo hhi (by omega)

/-! ### Runs -/

theorem heapInv_first (hp : p.brk = none) : HeapInv p := by
  have hstate : p.brkState = ⟨p.initialBreak, p.initialBreak, p.initialBreak⟩ := by
    rw [MemProcess.brkState, hp]
    rfl
  refine ⟨?_, ?_, ?_, ?_, ?_⟩
  · rw [hstate]
  · rw [hstate]
  · rw [hstate]
  · rw [hstate]
    exact .inl rfl
  · intro a hlo hhi
    rw [hstate] at hhi
    dsimp only at hhi
    omega

/-- **Private heaps along a run** in which one guest makes all the requests, and each meets
the condition. -/
theorem heapsRight_of_fine (w : Guests) (hw : w.brk = none) (events : List GuestEvent) (owner : ℕ)
    (hf : BrkRunFine owner w events) : HeapsRight w events := by
  -- the invariant is that of the owner
  have hinv : HeapInv (w.caller owner) := heapInv_first hw
  clear hw
  induction events generalizing w with
  | nil => trivial
  | cons event events ih =>
    obtain ⟨hevent, hrest⟩ := hf
    cases event with
    | store guest address data bytemask =>
      refine ⟨(fun _ _ _ _ h => by cases h), ih _ hrest ?_⟩
      simp only [guestStep, Guests.caller]
      by_cases hguest : owner = guest
      · subst hguest
        rw [Function.update_self]
        exact ⟨hinv.minimum, hinv.above, hinv.below, hinv.whole, hinv.pages⟩
      · rw [Function.update_of_ne hguest]
        exact hinv
    | brk guest context kind host =>
      have hfine := hevent guest context kind host rfl
      have hown := hfine.own
      subst hown
      constructor
      · intro guest' context' kind' host' heq r hr
        cases heq
        exact (sysBrk_heap hinv hfine hr).1
      · apply ih _ hrest
        rw [guestStep]
        cases hr : sysBrk context kind host (w.caller guest) with
        | none => exact hinv
        | some r =>
          have hinv' := (sysBrk_heap hinv hfine hr).2
          simp only [Guests.caller, Function.update_self]
          exact hinv'

/-- Two guests with empty address spaces and the same initial break. -/
def twoGuests : Guests := ⟨none, fun _ => .first⟩

/-- The heap grows by a page, which the guest writes and keeps. -/
theorem heapsRight_page :
    HeapsRight twoGuests [.brk 0 (brkCall 0x11000) .syscall64 onePage, .store 0 0x10000 0xff 1,
      .brk 0 (brkCall 0) .syscall64 onePage] := by
  refine heapsRight_of_fine twoGuests rfl _ 0 ⟨?_, ?_, ?_, trivial⟩
  · intro guest context kind host heq
    cases heq
    refine ⟨rfl, ?_, ?_⟩
    · intro stop hstop _
      have hceil : pageAlignUp ((brkCall 0x11000).syscallArg 0).toNat = some 0x11000 := by decide
      rw [hceil] at hstop
      obtain rfl := Option.some.inj hstop
      exact .inr ⟨by decide, by decide⟩
    · intro a hlo _ hhi
      exact absurd hhi (not_lt.2 hlo)
  · intro guest context kind host heq
    cases heq
  · intro guest context kind host heq
    cases heq
    have hzero : ((brkCall 0).syscallArg 0).toNat = 0 := by decide
    refine ⟨rfl, ?_, ?_⟩
    · intro stop hstop hend
      have hceil : pageAlignUp ((brkCall 0).syscallArg 0).toNat = some 0 := by decide
      rw [hceil] at hstop
      obtain rfl := Option.some.inj hstop
      exact absurd hend (Nat.not_lt_zero _)
    · intro a _ hhi
      rw [hzero] at hhi
      exact absurd hhi (Nat.not_lt_zero a)

/-- The second guest is told the break of the first, over pages it does not have. -/
theorem not_heapsRight : ¬ ∀ w : Guests, w.brk = none → ∀ events, HeapsRight w events := by
  intro h
  obtain ⟨-, hsecond, -⟩ := h twoGuests rfl
    [.brk 0 (brkCall 0x11000) .syscall64 onePage, .brk 1 (brkCall 0) .syscall64 onePage]
  set w := guestStep twoGuests (.brk 0 (brkCall 0x11000) .syscall64 onePage) with hw
  have hsome : ((sysBrk (brkCall 0) .syscall64 onePage (w.caller 1)).map fun r =>
      (r.2.brkState.currentBreak, r.2.space.mapped 0x10000)) = some (0x11000, false) := by
    decide +kernel
  obtain ⟨r, hr, hbreak⟩ := Option.map_eq_some_iff.1 hsome
  obtain ⟨hcurrent, hmapped⟩ := Prod.mk.inj hbreak
  have hright := (hsecond 1 (brkCall 0) .syscall64 onePage rfl r hr).mapped 0x10000 (by decide +kernel)
    (by rw [hcurrent]; decide)
  rw [show pageFloor 0x10000 = 0x10000 by decide, hmapped] at hright
  cases hright.1

end X86Sim.Linux
