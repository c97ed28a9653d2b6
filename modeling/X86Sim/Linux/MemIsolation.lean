import X86Sim.Linux.MemPages

/-!
# Isolation of the memory system calls

A call changes the pages it names and no other, a free mapping is fresh, and a call that
fails changes nothing: over any sequence of calls, with stores of the guest in between.

* `mapAt_spec`: a mapping is made as asked for, or nothing changes.
* `memSyscall_right`: one call, with the invariant it keeps.
* `isolated_of_fine`: whole runs.
-/

namespace X86Sim.Linux

open AddressSpace

/-! ### What is promised -/

/-- The calls that change mappings. -/
inductive MemCall
  | brk | mmap | munmap | mprotect | mremap
  deriving DecidableEq

/-- The call the registers ask for. -/
def memCall (context : CallRegs) (kind : SyscallKind) : Option MemCall :=
  if handles context kind syscallBrk then some .brk
  else if handles context kind syscallMmap then some .mmap
  else if handles context kind syscallMunmap then some .munmap
  else if handles context kind syscallMprotect then some .mprotect
  else if handles context kind syscallMremap then some .mremap
  else none

section Promise

variable (context : CallRegs) (host : MemHost) (p : MemProcess)

def mapFixed : Prop := context.syscallArg 3 &&& linuxMapFixed ≠ 0
def mapAnonymous : Prop := context.syscallArg 3 &&& linuxMapAnonymous ≠ 0

/-- The page lies in a range a call names, given the value it returns: for `brk` a page of
the heap that had no mapping, for `mremap` the old range with its growth, and the new one. -/
def Named (value : ℤ) (page : ℕ) : MemCall → Prop
  | .brk => p.brkState.minimumBreak < page + kPageSize ∧ (page : ℤ) < value ∧ p.space.mapped page = false
  | .mmap =>
    (mapFixed context ∧ (context.syscallArg 0).toNat ≤ page ∧
      page < (context.syscallArg 0).toNat + (context.syscallArg 1).toNat) ∨
    (¬ mapFixed context ∧ 0 ≤ value ∧ value ≤ page ∧ (page : ℤ) < value + (context.syscallArg 1).toNat)
  | .munmap | .mprotect =>
    (context.syscallArg 0).toNat ≤ page ∧ page < (context.syscallArg 0).toNat + (context.syscallArg 1).toNat
  | .mremap =>
    ((context.syscallArg 0).toNat ≤ page ∧
      page < (context.syscallArg 0).toNat + max (context.syscallArg 1).toNat (context.syscallArg 2).toNat) ∨
    (0 ≤ value ∧ value ≤ page ∧ (page : ℤ) < value + (context.syscallArg 2).toNat)

/-- The byte at position `i` of a new mapping. -/
def InitialByte (i : ℕ) (byte : Byte) : Prop :=
  (mapAnonymous context → byte = 0) ∧
    (¬ mapAnonymous context → ∃ fd, (p.fds.hostFdFor (context.syscallArg 4)).1 = some fd ∧
      byte = if i < (context.syscallArg 1).toNat then (host.file fd).getD ((context.syscallArg 5).toNat + i) 0 else 0)

/-- A mapping at an address of the kernel's choice. -/
structure FreshMapping (address : ℕ) (space' : AddressSpace) : Prop where
  aligned : address % kPageSize = 0
  inside : address + (context.syscallArg 1).toNat ≤ addressSpaceSize
  free : ∀ page, IsPage page → address ≤ page → page < address + (context.syscallArg 1).toNat →
    p.space.mapped page = false
  mapped : ∀ page, IsPage page → address ≤ page → page < address + (context.syscallArg 1).toNat →
    space'.mapped page = true ∧ protectionFromLinux (context.syscallArg 2) = some (space'.protectionAt page)
  contents : ∀ page, IsPage page → address ≤ page → page < address + (context.syscallArg 1).toNat →
    ∀ i < kPageSize, InitialByte context host p (page + i - address) (space'.bytes (page + i))

/-- What a call must do, given the value it returns and the process after it. -/
structure MemRight (call : MemCall) (r : ℤ × MemProcess) : Prop where
  frame : ∀ page, IsPage page → ¬ Named context p r.1 page call → SamePage p.space r.2.space page
  fresh : call = .mmap → ¬ mapFixed context → 0 ≤ r.1 → FreshMapping context host p r.1.toNat r.2.space
  failed : r.1 < 0 → ∀ page, IsPage page → SamePage p.space r.2.space page

/-! ### When it is kept -/

/-- The file of a mapping can be read. -/
def FileLoads : Prop :=
  p.loader = true ∧ ∃ fd, (p.fds.hostFdFor (context.syscallArg 4)).1 = some fd ∧
    PreadsSucceed host fd (context.syscallArg 5).toNat (context.syscallArg 1).toNat

/-- The allocator has what a mapping below 48 bits takes, or not even its first page. -/
def Room (alloc start len : ℕ) : Prop :=
  alloc = 0 ∨ (mapSteps (len / kPageSize) ≤ alloc ∧ start + len ≤ addressSpaceSize)

/-- Every page of the range is mapped. -/
def AllMapped (space : AddressSpace) (start len : ℕ) : Prop :=
  ∀ page, page % kPageSize = 0 → start ≤ page → page < start + len → space.mapped page = true

/-- `mremap` extends the mapping where it is. -/
def GrowsInPlace (oldLength newLength : ℕ) : Prop :=
  (context.syscallArg 0).toNat + newLength < 2 ^ 64 ∧
    Unmapped p.space ((context.syscallArg 0).toNat + oldLength) (newLength - oldLength)

/-- The condition on a call and the state before it: what is mapped lies below 48 bits and
the allocator does not stop midway, what is cleared does not alias other pages, the heap
grows over free pages, and nothing is lost to a mapping that then fails. -/
def MemFine : MemCall → Prop
  | .brk =>
    ∀ stop, pageAlignUp (context.syscallArg 0).toNat = some stop →
      p.brkState.minimumBreak ≤ (context.syscallArg 0).toNat → p.brkState.mappedEnd < stop →
      Room host.alloc (pageFloor p.brkState.mappedEnd) (stop - pageFloor p.brkState.mappedEnd) ∧
        (host.alloc ≠ 0 → Unmapped p.space (pageFloor p.brkState.mappedEnd) (stop - pageFloor p.brkState.mappedEnd))
  | .mmap =>
    ∀ protection length, mmapArgs context = .ok (protection, length) →
      (mapFixed context → pageAligned (context.syscallArg 0).toNat = true →
        (context.syscallArg 0).toNat + length < 2 ^ 64 →
        Room host.alloc (context.syscallArg 0).toNat length ∧ (host.alloc ≠ 0 → mapAnonymous context ∨
          Unmapped p.space (context.syscallArg 0).toNat length ∨ FileLoads context host p)) ∧
      (¬ mapFixed context → ∀ a, FirstFree p.space p.mmapNext length a → Room host.alloc a length)
  | .munmap =>
    ∀ length, pageAlignUp (context.syscallArg 1).toNat = some length → (context.syscallArg 1).toNat ≠ 0 →
      pageAligned (context.syscallArg 0).toNat = true → (context.syscallArg 0).toNat + length ≤ 2 ^ 64 →
      Attr.Harmless p.space ⟨(context.syscallArg 0).toNat, length, .none⟩
  | .mprotect =>
    ∀ protection length, protectionFromLinux (context.syscallArg 2) = some protection →
      pageAlignUp (context.syscallArg 1).toNat = some length → pageAligned (context.syscallArg 0).toNat = true →
      (context.syscallArg 0).toNat + length = 2 ^ 64 →
      Attr.Harmless p.space ⟨(context.syscallArg 0).toNat, length, protection⟩
  | .mremap =>
    ∀ oldLength newLength, mremapArgs context = .ok (oldLength, newLength) → host.copyError = none →
      AllMapped p.space (context.syscallArg 0).toNat (min oldLength newLength) →
      (newLength < oldLength →
        Attr.Harmless p.space ⟨(context.syscallArg 0).toNat + newLength, oldLength - newLength, .none⟩) ∧
      (oldLength < newLength → GrowsInPlace context p oldLength newLength →
        Room host.growAlloc ((context.syscallArg 0).toNat + oldLength) (newLength - oldLength)) ∧
      (oldLength < newLength → ¬ (host.growAlloc ≠ 0 ∧ GrowsInPlace context p oldLength newLength) →
        context.syscallArg 3 &&& linuxMremapMaymove ≠ 0 →
        (context.syscallArg 3 &&& linuxMremapFixed ≠ 0 → pageAligned (context.syscallArg 4).toNat = true →
          (context.syscallArg 4).toNat + newLength ≤ 2 ^ 64 → Room host.alloc (context.syscallArg 4).toNat newLength ∧
            (host.alloc = 0 → Unmapped p.space (context.syscallArg 4).toNat newLength)) ∧
        (context.syscallArg 3 &&& linuxMremapFixed = 0 →
          ∀ a, FirstFree p.space p.mremapNext newLength a → Room host.alloc a newLength))

end Promise

/-! ### Runs -/

/-- A call of the guest, or a store of its code. -/
inductive MemEvent
  | call (context : CallRegs) (kind : SyscallKind) (host : MemHost)
  | store (address : ℕ) (data : W64) (bytemask : BitVec 8)

def memStep (p : MemProcess) : MemEvent → MemProcess
  | .call context kind host =>
    match memSyscall context kind host p with
    | some r => r.2
    | none => p
  | .store address data bytemask => p.withSpace (p.space.storemask address data bytemask)

/-- Every call of the sequence does what it must. -/
def Isolated (p : MemProcess) : List MemEvent → Prop
  | [] => True
  | .call context kind host :: events =>
    (∀ call r, memCall context kind = some call → memSyscall context kind host p = some r →
      MemRight context host p call r) ∧ Isolated (memStep p (.call context kind host)) events
  | event :: events => Isolated (memStep p event) events

/-- Every call meets the condition where it is made. -/
def IsolationFine (p : MemProcess) : List MemEvent → Prop
  | [] => True
  | .call context kind host :: events =>
    (∀ call, memCall context kind = some call → MemFine context host p call) ∧
      IsolationFine (memStep p (.call context kind host)) events
  | event :: events => IsolationFine (memStep p event) events

/-- What the calls rely on. -/
structure MemProcess.Inv (p : MemProcess) : Prop where
  tidy : p.space.Tidy
  brk : p.brkState.minimumBreak ≤ p.brkState.mappedEnd

section Calls

variable {context : CallRegs} {kind : SyscallKind} {host : MemHost} {p : MemProcess} {call : MemCall}
  {r : ℤ × MemProcess} {start len length page : ℕ} {prot : Protection}

/-- A call that leaves every page as it was. -/
theorem right_of_same (hsame : ∀ page, IsPage page → SamePage p.space r.2.space page)
    (hmmap : call = .mmap → r.1 < 0) : MemRight context host p call r := by
  refine ⟨fun page hp _ => hsame page hp, ?_, fun _ => hsame⟩
  intro hcall _ hpos
  have hneg := hmmap hcall
  omega

theorem whole_of_ceil (hceil : pageAlignUp length = some len) (hpos : length ≠ 0) (hstart : start % kPageSize = 0) :
    Whole start len ∧ len < 2 ^ 64 ∧ length ≤ len := by
  obtain ⟨hmod, hle, -, hmax⟩ := pageCeil_eq hceil
  refine ⟨⟨hstart, hmod, by omega⟩, ?_, hle⟩
  simp only [kPageSize] at hmax
  omega

/-- A page lies in a range exactly if it lies in the whole pages of the range. -/
theorem mem_ceil (hceil : pageAlignUp length = some len) (hstart : start % kPageSize = 0) (hp : page % kPageSize = 0) :
    page < start + length ↔ page < start + len := by
  obtain ⟨hmod, hle, hnear, -⟩ := pageCeil_eq hceil
  simp only [kPageSize] at *
  omega

theorem pageAligned_iff {value : ℕ} : pageAligned value = true ↔ value % kPageSize = 0 := by
  rw [pageAligned, beq_iff_eq]

/-! ### `mmap` -/

theorem loadLoop_error {fd dest offset total error : ℕ} (turns : ℕ) {space : AddressSpace}
    (h : (loadLoop host fd dest length offset turns total space).1 = some error) : 0 < error := by
  induction turns generalizing total space with
  | zero => cases h
  | succ turns ih =>
    rw [loadLoop] at h
    split at h
    · cases h
    · split at h
      · obtain rfl := Option.some.inj h
        exact host.errno_pos
      · split at h
        · cases h
        · dsimp only at h
          split at h
          · obtain rfl := Option.some.inj h
            exact memoryErrorToLinux_pos _
          · exact ih h

/-- What loading the file of a mapping does. -/
structure FileLoaded (context : CallRegs) (host : MemHost) (p : MemProcess) (start : ℕ) (r : Option ℕ × MemProcess) :
    Prop where
  brk : r.2.brkState = p.brkState
  mapped : r.2.space.mapped = p.space.mapped
  protection : ∀ a, r.2.space.protectionAt a = p.space.protectionAt a
  outside : ∀ a, a < start ∨ start + (context.syscallArg 1).toNat ≤ a → r.2.space.bytes a = p.space.bytes a
  contents : r.1 = none → (∀ i < (context.syscallArg 1).toNat, p.space.bytes (start + i) = 0) →
    ∃ fd, (p.fds.hostFdFor (context.syscallArg 4)).1 = some fd ∧ ∀ i < (context.syscallArg 1).toNat,
      r.2.space.bytes (start + i) = (host.file fd).getD ((context.syscallArg 5).toNat + i) 0
  loads : FileLoads context host p → r.1 = none
  error : ∀ e ∈ r.1, 0 < e

theorem mmapLoad_spec (hfit : start + (context.syscallArg 1).toNat ≤ 2 ^ 64)
    (hmapped : ∀ a, start ≤ a → a < start + (context.syscallArg 1).toNat → p.space.mapped (pageFloor a) = true) :
    FileLoaded context host p start (mmapLoad context host p start) := by
  rw [mmapLoad]
  by_cases hloader : (!p.loader) = true
  · rw [if_pos hloader]
    refine ⟨rfl, rfl, fun _ => rfl, fun _ _ => rfl, nofun, ?_, ?_⟩
    · rintro ⟨hyes, -⟩
      rw [hyes] at hloader
      cases hloader
    · rintro e he
      obtain rfl := Option.some.inj he
      decide
  · rw [if_neg hloader, loadFileBackedMapping]
    rcases hfd : p.fds.hostFdFor (context.syscallArg 4) with ⟨found, fds⟩
    cases found with
    | none =>
      refine ⟨rfl, rfl, fun _ => rfl, fun _ _ => rfl, nofun, ?_, ?_⟩
      · rintro ⟨-, fd, hsome, -⟩
        rw [hfd] at hsome
        cases hsome
      · rintro e he
        obtain rfl := Option.some.inj he
        decide
    | some fd =>
      dsimp only
      obtain ⟨hloaded, hsucceed⟩ := @loadLoop_spec host fd (context.syscallArg 5).toNat (context.syscallArg 1).toNat start
        ((context.syscallArg 1).toNat + 1) 0 p.space (by omega) (context.syscallArg 5).isLt hfit hmapped .start
      refine ⟨rfl, hloaded.mapped, hloaded.protection, hloaded.outside, ?_, ?_, ?_⟩
      · intro hnone hzero
        refine ⟨fd, by rw [hfd], ?_⟩
        intro i hi
        exact hloaded.contents hnone (fun j _ hj => hzero j hj) i (Nat.zero_le i) hi
      · rintro ⟨-, fd', hsome, hpreads⟩
        rw [hfd] at hsome
        obtain rfl := Option.some.inj hsome
        exact hsucceed hpreads
      · intro e he
        exact loadLoop_error _ he

/-- The mapping `mmap` makes, once its address is known. -/
def mapAt (context : CallRegs) (host : MemHost) (p : MemProcess) (start len : ℕ) (prot : Protection) : MemOutcome :=
  let mapped := p.space.map start len prot host.alloc
  let p := p.withSpace mapped.space
  match mapped.result with
  | .error e => p.fails (memoryErrorToLinux e)
  | .ok () =>
    if context.syscallArg 3 &&& linuxMapAnonymous = 0 then
      match mmapLoad context host p start with
      | (some error, p) => (p.withSpace (p.space.unmap start len).space).fails error
      | (none, p) => p.returnValue start
    else p.returnValue start

theorem sysMmap_eq : sysMmap context kind host p =
    if !handles context kind syscallMmap then none
    else
      match mmapArgs context with
      | .error error => p.fails error
      | .ok (prot, len) =>
        match mmapAddress context p len with
        | (.error error, p) => p.fails error
        | (.ok start, p) =>
          if start > 2 ^ 64 - 1 - len then p.fails linuxEinval else mapAt context host p start len prot := rfl

/-- The mapping is there as asked for, with nothing else changed. -/
structure Made (context : CallRegs) (host : MemHost) (p : MemProcess) (start len : ℕ) (prot : Protection)
    (space' : AddressSpace) : Prop where
  fits : start + len ≤ addressSpaceSize
  mapped : ∀ page, IsPage page → start ≤ page → page < start + len →
    space'.mapped page = true ∧ space'.protectionAt page = prot
  contents : ∀ i < len, InitialByte context host p i (space'.bytes (start + i))
  outside : ∀ page, IsPage page → ¬ (start ≤ page ∧ page < start + len) → SamePage p.space space' page

/-- What `mapAt` comes to: the mapping, or an error and no change. -/
structure MapAtRight (context : CallRegs) (host : MemHost) (p : MemProcess) (start len : ℕ) (prot : Protection)
    (r : ℤ × MemProcess) : Prop where
  brk : r.2.brkState = p.brkState
  tidy : r.2.space.Tidy
  outcome : (r.1 = start ∧ Made context host p start len prot r.2.space) ∨
    (r.1 < 0 ∧ ∀ page, IsPage page → SamePage p.space r.2.space page)

/-- **A mapping** is made as asked for, or nothing changes. -/
theorem mapAt_spec (hw : Whole start len) (hfit : start + len < 2 ^ 64) (hlength : (context.syscallArg 1).toNat ≤ len)
    (ht : p.space.Tidy) (hroom : Room host.alloc start len)
    (hload : host.alloc ≠ 0 → mapAnonymous context ∨ Unmapped p.space start len ∨ FileLoads context host p)
    (hr : mapAt context host p start len prot = some r) : MapAtRight context host p start len prot r := by
  have hlt : len < 2 ^ 64 := by omega
  by_cases hnone : host.alloc = 0
  · -- the allocator has nothing
    rw [mapAt, hnone, map_short hw hfit.le hlt] at hr
    obtain rfl := Option.some.inj hr
    exact ⟨rfl, ht, .inr ⟨returnError_neg (memoryErrorToLinux_pos _), fun page _ => SamePage.refl _ page⟩⟩
  · obtain ⟨halloc, hin⟩ := hroom.resolve_left hnone
    obtain ⟨hok, hmaps⟩ := @map_pages p.space start len prot host.alloc hw hin halloc
    simp only [mapAt, hok] at hr
    generalize (p.space.map start len prot host.alloc).space = m₁ at *
    by_cases hanon : context.syscallArg 3 &&& linuxMapAnonymous = 0
    · rw [if_pos hanon] at hr
      have hfl : FileLoaded context host (p.withSpace m₁) start (mmapLoad context host (p.withSpace m₁) start) := by
        apply mmapLoad_spec
        · omega
        · intro a hlo hhi
          obtain ⟨hplo, hphi⟩ := hw.pageFloor_mem hlo (by omega)
          exact hmaps.mapped _ ⟨pageFloor_dvd a, by omega⟩ hplo hphi
      rcases hml : mmapLoad context host (p.withSpace m₁) start with ⟨error, p₂⟩
      rw [hml] at hr hfl
      have hprot := hfl.protection
      have hmapped := hfl.mapped
      dsimp only [MemProcess.withSpace] at hprot hmapped
      have htidy : p₂.space.Tidy := (hmaps.tidy ht).congr hmapped hprot
      -- loading touches the bytes of the mapping only
      have houtside : ∀ page, IsPage page → ¬ (start ≤ page ∧ page < start + len) → SamePage p.space p₂.space page := by
        intro page hp hout
        refine (hmaps.outside page hp hout).trans ⟨by rw [hmapped], hprot page, ?_⟩
        intro _ i hi
        exact hfl.outside (page + i) (hw.off hp hout hlength hi)
      cases error with
      | none =>
        obtain rfl := Option.some.inj hr
        refine ⟨hfl.brk, htidy, .inl ⟨rfl, hin, ?_, ?_, houtside⟩⟩
        · intro page hp hlo hhi
          dsimp only [MemProcess.returnValue]
          rw [hmapped, hprot]
          exact ⟨hmaps.mapped page hp hlo hhi, hmaps.protection page hp hlo hhi⟩
        · intro i hi
          refine ⟨fun hyes => absurd hanon hyes, fun _ => ?_⟩
          obtain ⟨fd, hfd, hbytes⟩ := hfl.contents rfl fun j hj => hmaps.zero (start + j) (by omega) (by omega)
          refine ⟨fd, hfd, ?_⟩
          by_cases hfile : i < (context.syscallArg 1).toNat
          · rw [if_pos hfile]
            exact hbytes i hfile
          · rw [if_neg hfile]
            refine (hfl.outside (start + i) (.inr (by omega))).trans ?_
            exact hmaps.zero (start + i) (by omega) (by omega)
      | some error =>
        obtain rfl := Option.some.inj hr
        have hfree : Unmapped p.space start len := by
          rcases hload hnone with hyes | hfree | hloads
          · exact absurd hanon hyes
          · exact hfree
          · have hno := hfl.loads hloads
            cases hno
        have hunmaps := @unmap_pages p₂.space start len hw hfit.le hlt (Attr.harmless_of_le hin hw.pos)
        refine ⟨hfl.brk, hunmaps.tidy htidy, .inr ⟨returnError_neg (hfl.error error rfl), ?_⟩⟩
        intro page hp
        by_cases hmem : start ≤ page ∧ page < start + len
        · apply ht.same_of_unmapped hp (hfree page hp.1 hmem.1 hmem.2)
          · exact hunmaps.unmapped page hp hmem.1 hmem.2
          · exact hunmaps.protection page hp hmem.1 hmem.2
        · exact (houtside page hp hmem).trans (hunmaps.outside page hp hmem)
    · rw [if_neg hanon] at hr
      obtain rfl := Option.some.inj hr
      refine ⟨rfl, hmaps.tidy ht, .inl ⟨rfl, hin, ?_, ?_, hmaps.outside⟩⟩
      · intro page hp hlo hhi
        exact ⟨hmaps.mapped page hp hlo hhi, hmaps.protection page hp hlo hhi⟩
      · intro i hi
        exact ⟨fun _ => hmaps.zero _ (by omega) (by omega), fun hno => absurd hanon hno⟩

theorem mmapArgs_cases : (∃ error, mmapArgs context = .error error ∧ 0 < error) ∨
    ∃ prot len, mmapArgs context = .ok (prot, len) ∧ protectionFromLinux (context.syscallArg 2) = some prot ∧
      pageAlignUp (context.syscallArg 1).toNat = some len ∧ (context.syscallArg 1).toNat ≠ 0 := by
  rw [mmapArgs]
  by_cases hlength : (context.syscallArg 1).toNat = 0 ∨ (!pageAligned (context.syscallArg 5).toNat) = true
  · rw [if_pos hlength]
    exact .inl ⟨_, rfl, by decide⟩
  rw [if_neg hlength]
  split
  · exact .inl ⟨_, rfl, by decide⟩
  split
  · exact .inl ⟨_, rfl, by decide⟩
  cases hprot : protectionFromLinux (context.syscallArg 2) with
  | none => exact .inl ⟨_, rfl, by decide⟩
  | some prot =>
    cases hceil : pageAlignUp (context.syscallArg 1).toNat with
    | none => exact .inl ⟨_, rfl, by decide⟩
    | some len => exact .inr ⟨prot, len, rfl, rfl, rfl, fun hzero => hlength (.inl hzero)⟩

theorem inv_of (h : p.Inv) (hbrk : r.2.brkState = p.brkState) (ht : r.2.space.Tidy) : r.2.Inv := by
  refine ⟨ht, ?_⟩
  rw [hbrk]
  exact h.brk

/-- A call that answers an error and has changed nothing. -/
theorem fails_right (h : p.Inv) {error : ℕ} (hpos : 0 < error) (hr : p.fails error = some r) :
    MemRight context host p call r ∧ r.2.Inv := by
  obtain rfl := Option.some.inj hr
  refine ⟨right_of_same (fun page _ => SamePage.refl _ page) ?_, h⟩
  intro _
  exact returnError_neg hpos

/-- The mapping at an address the guest has named. -/
theorem fixed_right (h : p.Inv) (hfixed : mapFixed context) (hceil : pageAlignUp (context.syscallArg 1).toNat = some len)
    (hstart : (context.syscallArg 0).toNat % kPageSize = 0)
    (hmap : MapAtRight context host p (context.syscallArg 0).toNat len prot r) :
    MemRight context host p .mmap r ∧ r.2.Inv := by
  refine ⟨⟨?_, fun _ hnot _ => absurd hfixed hnot, ?_⟩, inv_of h hmap.brk hmap.tidy⟩
  · intro page hp hout
    rcases hmap.outcome with ⟨-, hmade⟩ | ⟨-, hsame⟩
    · apply hmade.outside page hp
      rintro ⟨hlo, hhi⟩
      exact hout (.inl ⟨hfixed, hlo, (mem_ceil hceil hstart hp.1).2 hhi⟩)
    · exact hsame page hp
  · intro hneg
    rcases hmap.outcome with ⟨heq, -⟩ | ⟨-, hsame⟩
    · omega
    · exact hsame

/-- The mapping at an address the search has found. -/
theorem fresh_right {cursor next : ℕ} (h : p.Inv) (hnot : ¬ mapFixed context)
    (hprot : protectionFromLinux (context.syscallArg 2) = some prot)
    (hceil : pageAlignUp (context.syscallArg 1).toNat = some len) (hfirst : FirstFree p.space cursor len start)
    (hmap : MapAtRight context host { p with mmapNext := next } start len prot r) :
    MemRight context host p .mmap r ∧ r.2.Inv := by
  refine ⟨⟨?_, ?_, ?_⟩, inv_of h hmap.brk hmap.tidy⟩
  · intro page hp hout
    rcases hmap.outcome with ⟨heq, hmade⟩ | ⟨-, hsame⟩
    · apply hmade.outside page hp
      rintro ⟨hlo, hhi⟩
      have hraw := (mem_ceil hceil hfirst.aligned hp.1).2 hhi
      apply hout
      right
      rw [heq]
      exact ⟨hnot, by omega, by omega, by omega⟩
    · exact hsame page hp
  · intro _ _ hpos
    rcases hmap.outcome with ⟨heq, hmade⟩ | ⟨hneg, -⟩
    · -- the address returned is the start of the range that was free before
      have hnat : r.1.toNat = start := by omega
      rw [hnat]
      obtain ⟨-, hle, -, -⟩ := pageCeil_eq hceil
      have hfits := hmade.fits
      have hwhole : ∀ page, IsPage page → page < start + (context.syscallArg 1).toNat → page < start + len :=
        fun page hp => (mem_ceil hceil hfirst.aligned hp.1).1
      refine ⟨hfirst.aligned, by omega, ?_, ?_, ?_⟩
      · intro page hp hlo hhi
        exact hfirst.free page hp.1 hlo (hwhole page hp hhi)
      · intro page hp hlo hhi
        obtain ⟨hmapped, hset⟩ := hmade.mapped page hp hlo (hwhole page hp hhi)
        rw [hset]
        exact ⟨hmapped, hprot⟩
      · intro page hp hlo hhi i hi
        have hpage := hwhole page hp hhi
        have hin : page + i - start < len := by
          obtain ⟨hmod, -, -, -⟩ := pageCeil_eq hceil
          have haligned := hfirst.aligned
          have hp' := hp.1
          simp only [kPageSize] at *
          omega
        have hbyte := hmade.contents (page + i - start) hin
        have haddr : start + (page + i - start) = page + i := by omega
        rw [haddr] at hbyte
        exact hbyte
    · omega
  · intro hneg
    rcases hmap.outcome with ⟨heq, -⟩ | ⟨-, hsame⟩
    · omega
    · exact hsame

/-- **`mmap`.** -/
theorem sysMmap_right (h : p.Inv) (hf : MemFine context host p .mmap) (hr : sysMmap context kind host p = some r) :
    MemRight context host p .mmap r ∧ r.2.Inv := by
  rw [sysMmap_eq] at hr
  split at hr
  · cases hr
  rcases @mmapArgs_cases context with ⟨error, hargs, hpos⟩ | ⟨prot, len, hargs, hprot, hceil, hlength⟩
  · rw [hargs] at hr
    exact fails_right h hpos hr
  · obtain ⟨hfixedFine, hfreeFine⟩ := hf prot len hargs
    rw [hargs] at hr
    dsimp only at hr
    rw [mmapAddress] at hr
    by_cases hfixed : mapFixed context
    · have hflag : context.syscallArg 3 &&& linuxMapFixed ≠ 0 := hfixed
      rw [if_pos hflag] at hr
      cases haligned : pageAligned (context.syscallArg 0).toNat with
      | false =>
        rw [haligned] at hr
        exact fails_right h (by decide) hr
      | true =>
        have hstart := pageAligned_iff.1 haligned
        obtain ⟨hw, hlt, hle⟩ := whole_of_ceil hceil hlength hstart
        rw [haligned, Bool.not_true, if_neg Bool.false_ne_true] at hr
        dsimp only at hr
        split at hr
        · exact fails_right h (by decide) hr
        · rename_i hbig
          have hfit : (context.syscallArg 0).toNat + len < 2 ^ 64 := by omega
          obtain ⟨hroom, hload⟩ := hfixedFine hfixed haligned hfit
          exact fixed_right h hfixed hceil hstart (mapAt_spec hw hfit hle h.tidy hroom hload hr)
    · have hflag : ¬ context.syscallArg 3 &&& linuxMapFixed ≠ 0 := hfixed
      rw [if_neg hflag] at hr
      cases hfind : findUnmappedRange p.space p.mmapNext len with
      | none =>
        rw [hfind] at hr
        exact fails_right h (by decide) hr
      | some start =>
        obtain ⟨hmod, hle, -, -⟩ := pageCeil_eq hceil
        have hlt : len < 2 ^ 64 := (whole_of_ceil hceil hlength (Nat.zero_mod _)).2.1
        -- the range found is free, so nothing of the process is in it
        have hfirst := findUnmappedRange_first hmod (by omega) hlt hfind
        have hroom := hfreeFine hfixed start hfirst
        rw [hfind] at hr
        dsimp only at hr
        have hfit := hfirst.fits
        split at hr
        · omega
        · have hmap : MapAtRight context host { p with mmapNext := start + len } start len prot r :=
            mapAt_spec ⟨hfirst.aligned, hmod, by omega⟩ hfit hle h.tidy hroom (fun _ => .inr (.inl hfirst.free)) hr
          exact fresh_right h hfixed hprot hceil hfirst hmap

/-! ### `munmap` and `mprotect` -/

/-- A call that changes pages of the range the guest has named, and succeeds. -/
theorem named_right (hcall : call ≠ .mmap) (hpos : 0 ≤ r.1)
    (hframe : ∀ page, IsPage page → ¬ Named context p r.1 page call → SamePage p.space r.2.space page) :
    MemRight context host p call r := by
  refine ⟨hframe, fun heq _ _ => absurd heq hcall, ?_⟩
  intro hneg
  omega

theorem rangeOverflows_eq_true (hw : Whole start len) (hlt : len < 2 ^ 64) (hover : 2 ^ 64 < start + len) :
    rangeOverflows start len = true := by
  have hpos := hw.pos
  simp only [rangeOverflows, Bool.and_eq_true, bne_iff_ne, ne_eq, decide_eq_true_eq]
  omega

theorem unmap_overflows (hw : Whole start len) (hlt : len < 2 ^ 64) (hover : 2 ^ 64 < start + len)
    (space : AddressSpace) : (space.unmap start len).space = space := by
  rw [AddressSpace.unmap, if_pos (.inr (rangeOverflows_eq_true hw hlt hover))]

/-- **`munmap`.** -/
theorem sysMunmap_right (h : p.Inv) (hf : MemFine context host p .munmap) (hr : sysMunmap context kind p = some r) :
    MemRight context host p .munmap r ∧ r.2.Inv := by
  rw [sysMunmap] at hr
  split at hr
  · cases hr
  dsimp only at hr
  split at hr
  · exact fails_right h (by decide) hr
  · rename_i hargs
    obtain ⟨hlength, haligned⟩ := not_or.1 hargs
    rw [Bool.not_eq_true', Bool.not_eq_false] at haligned
    cases hceil : pageAlignUp (context.syscallArg 1).toNat with
    | none =>
      rw [hceil] at hr
      exact fails_right h (by decide) hr
    | some len =>
      rw [hceil] at hr
      obtain rfl := Option.some.inj hr
      have hstart := pageAligned_iff.1 haligned
      obtain ⟨hw, hlt, -⟩ := whole_of_ceil hceil hlength hstart
      by_cases hfit : (context.syscallArg 0).toNat + len ≤ 2 ^ 64
      · have hunmaps := unmap_pages hw hfit hlt (hf len hceil hlength haligned hfit)
        refine ⟨named_right nofun le_rfl ?_, inv_of h rfl (hunmaps.tidy h.tidy)⟩
        intro page hp hout
        apply hunmaps.outside page hp
        rintro ⟨hlo, hhi⟩
        exact hout ⟨hlo, (mem_ceil hceil hstart hp.1).2 hhi⟩
      · have hsame := unmap_overflows hw hlt (by omega) p.space
        refine ⟨named_right nofun le_rfl ?_, inv_of h rfl ?_⟩
        · intro page _ _
          dsimp only [MemProcess.withSpace]
          rw [hsame]
          exact SamePage.refl _ page
        · dsimp only [MemProcess.withSpace]
          rw [hsame]
          exact h.tidy

/-- What `protect` does to the pages outside its range, when its end does not wrap. -/
theorem protect_right (ht : p.space.Tidy) (hw : Whole start len) (hlt : len < 2 ^ 64)
    (hwrap : start + len = 2 ^ 64 → Attr.Harmless p.space ⟨start, len, prot⟩) :
    (∀ page, IsPage page → ¬ (start ≤ page ∧ page < start + len) →
        SamePage p.space (p.space.protect start len prot).space page) ∧
      (p.space.protect start len prot).space.Tidy := by
  by_cases hin : start + len ≤ addressSpaceSize
  · obtain ⟨hsame, htidy⟩ := @protect_pages p.space start len prot hw (hin.trans (by decide)) hlt
      (Attr.harmless_of_le hin hw.pos)
    exact ⟨hsame, htidy ht⟩
  · by_cases hend : start + len = 2 ^ 64
    · obtain ⟨hsame, htidy⟩ := protect_pages hw hend.le hlt (hwrap hend)
      exact ⟨hsame, htidy ht⟩
    · -- the last page is beyond 48 bits, where none is mapped
      have hfailed : (p.space.protect start len prot).space = p.space := by
        rcases Nat.lt_or_ge (2 ^ 64) (start + len) with hover | hfit
        · rw [AddressSpace.protect, if_neg hw.pos.ne', if_pos (rangeOverflows_eq_true hw hlt hover)]
        · obtain ⟨hs, hl⟩ := toNat_of_whole hw hfit hlt
          have hrun := @protect_run p.space prot (BitVec.ofNat 64 start) (BitVec.ofNat 64 len) (start, len)
          rw [hs, hl] at hrun
          obtain ⟨-, hsome⟩ := hrun hw.pos.ne' hfit (rangeOf_of_whole hw hfit hlt)
          have haligned := hw.aligned
          have hwhole := hw.whole
          have hpos := hw.pos
          have hexamined : Examined start len (start, len) (start + len - kPageSize) := by
            refine ⟨?_, ?_, ?_, ?_⟩
            · rw [pageFloor_of_whole haligned]
              exact hend
            · simp only [kPageSize] at *
              omega
            · simp only [kPageSize] at *
              omega
            · simp only [kPageSize] at *
              omega
          have hbeyond : addressSpaceSize ≤ start + len - kPageSize := by
            simp only [kPageSize, addressSpaceSize] at *
            omega
          rw [hsome ⟨_, hexamined, ht.below _ hbeyond⟩]
      rw [hfailed]
      exact ⟨fun page _ _ => SamePage.refl _ page, ht⟩

/-- **`mprotect`.** -/
theorem sysMprotect_right (h : p.Inv) (hf : MemFine context host p .mprotect)
    (hr : sysMprotect context kind p = some r) : MemRight context host p .mprotect r ∧ r.2.Inv := by
  rw [sysMprotect] at hr
  split at hr
  · cases hr
  dsimp only at hr
  split at hr
  · exact fails_right h (by decide) hr
  · rename_i haligned
    rw [Bool.not_eq_true', Bool.not_eq_false] at haligned
    have hstart := pageAligned_iff.1 haligned
    cases hprot : protectionFromLinux (context.syscallArg 2) with
    | none =>
      rw [hprot] at hr
      exact fails_right h (by decide) hr
    | some prot =>
      rw [hprot] at hr
      dsimp only at hr
      split at hr
      · obtain rfl := Option.some.inj hr
        exact ⟨right_of_same (fun page _ => SamePage.refl _ page) nofun, h⟩
      · rename_i hlength
        cases hceil : pageAlignUp (context.syscallArg 1).toNat with
        | none =>
          rw [hceil] at hr
          exact fails_right h (by decide) hr
        | some len =>
          rw [hceil] at hr
          obtain ⟨hw, hlt, -⟩ := whole_of_ceil hceil hlength hstart
          obtain ⟨hsame, htidy⟩ := @protect_right p _ len prot h.tidy hw hlt (hf prot len hprot hceil haligned)
          dsimp only at hr
          cases hresult : (p.space.protect (context.syscallArg 0).toNat len prot).result with
          | ok _ =>
            rw [hresult] at hr
            obtain rfl := Option.some.inj hr
            refine ⟨named_right nofun le_rfl ?_, inv_of h rfl htidy⟩
            intro page hp hout
            apply hsame page hp
            rintro ⟨hlo, hhi⟩
            exact hout ⟨hlo, (mem_ceil hceil hstart hp.1).2 hhi⟩
          | error e =>
            have hno : (p.space.protect (context.syscallArg 0).toNat len prot).result ≠ .ok () := by
              rw [hresult]
              exact nofun
            -- whatever the error, nothing was changed
            have hspace := protect_failed _ _ _ _ hno
            rw [hresult, hspace] at hr
            cases e with
            | unmappedAddress => exact fails_right h (by decide) hr
            | unalignedAddress => exact fails_right h (by decide) hr
            | zeroSize => exact fails_right h (by decide) hr
            | outOfMemory => exact fails_right h (by decide) hr
            | mappingFailed => exact fails_right h (by decide) hr

/-! ### `brk` -/

/-- A mapping that starts within a page is the mapping of the page. -/
theorem map_pageFloor {stop alloc : ℕ} (hstop : stop % kPageSize = 0) (hlt : start < stop) (hmax : stop < 2 ^ 64)
    (m : AddressSpace) :
    (m.map start (stop - start) prot alloc).result =
        (m.map (pageFloor start) (stop - pageFloor start) prot alloc).result ∧
      (m.map start (stop - start) prot alloc).space =
        (m.map (pageFloor start) (stop - pageFloor start) prot alloc).space := by
  have hfloor : pageFloor start ≤ start ∧ start < pageFloor start + kPageSize ∧ pageFloor start % kPageSize = 0 := by
    simp only [pageFloor, kPageSize]
    omega
  have hceil : pageCeil (stop - start) = pageCeil (stop - pageFloor start) := by
    have hwhole : (stop - pageFloor start) % kPageSize = 0 := by
      simp only [kPageSize] at *
      omega
    rw [pageCeil_of_whole hwhole (by omega)]
    have hsmall : ¬ stop - start > 2 ^ 64 - 1 - (kPageSize - 1) := by
      simp only [kPageSize] at *
      omega
    have hround : pageFloor (stop - start + (kPageSize - 1)) = stop - pageFloor start := by
      generalize pageFloor start = f at *
      simp only [pageFloor, kPageSize] at *
      omega
    rw [pageCeil, if_neg hsmall, hround]
  have hsize : ¬ stop - start = 0 := by omega
  have hsize' : ¬ stop - pageFloor start = 0 := by omega
  have hover := @rangeOverflows_eq_false start (stop - start) (by omega)
  have hover' := @rangeOverflows_eq_false (pageFloor start) (stop - pageFloor start) (by omega)
  rw [AddressSpace.map, AddressSpace.map, if_neg hsize, if_neg hsize', hover, hover', if_neg Bool.false_ne_true,
    if_neg Bool.false_ne_true, mapOrThrow, mapOrThrow, pageFloor_of_whole hfloor.2.2, hceil]
  cases pageCeil (stop - pageFloor start) with
  | none => exact ⟨rfl, rfl⟩
  | some len =>
    dsimp only
    by_cases halloc : alloc < len / kPageSize
    · rw [if_pos halloc]
      exact ⟨rfl, rfl⟩
    · rw [if_neg halloc]
      by_cases hbits : alloc < mapSteps (len / kPageSize)
      · rw [if_pos hbits]
        exact ⟨rfl, rfl⟩
      · rw [if_neg hbits]
        exact ⟨rfl, rfl⟩

/-- A `brk` that moves no page. -/
theorem brk_same (ht : p.space.Tidy) (hspace : r.2.space = p.space)
    (hbrk : r.2.brkState.minimumBreak ≤ r.2.brkState.mappedEnd) : MemRight context host p .brk r ∧ r.2.Inv := by
  refine ⟨right_of_same ?_ nofun, ?_, hbrk⟩
  · intro page _
    rw [hspace]
    exact SamePage.refl _ page
  · rw [hspace]
    exact ht

/-- **`brk`.** -/
theorem sysBrk_right (h : p.Inv) (hf : MemFine context host p .brk) (hr : sysBrk context kind host p = some r) :
    MemRight context host p .brk r ∧ r.2.Inv := by
  have hbrk := h.brk
  rw [sysBrk] at hr
  split at hr
  · cases hr
  dsimp only at hr
  split at hr
  · obtain rfl := Option.some.inj hr
    exact brk_same h.tidy rfl hbrk
  split at hr
  · obtain rfl := Option.some.inj hr
    exact brk_same h.tidy rfl hbrk
  rename_i hnonzero hmin
  cases hceil : pageAlignUp (context.syscallArg 0).toNat with
  | none =>
    rw [hceil] at hr
    obtain rfl := Option.some.inj hr
    exact brk_same h.tidy rfl hbrk
  | some stop =>
    rw [hceil] at hr
    dsimp only at hr
    obtain ⟨hmod, hle, hnear, hmax⟩ := pageCeil_eq hceil
    by_cases hgrow : stop > p.brkState.mappedEnd
    · rw [if_pos hgrow] at hr
      -- growing maps from the page the old end lies in, which `map` rounds down to
      obtain ⟨hroom, hfree⟩ := hf stop hceil (Nat.not_lt.1 hmin) hgrow
      have hlt : stop < 2 ^ 64 := by
        simp only [kPageSize] at hmax
        omega
      obtain ⟨hresult, hspace⟩ := @map_pageFloor p.brkState.mappedEnd readWrite stop host.alloc hmod hgrow hlt p.space
      have hfloor : pageFloor p.brkState.mappedEnd ≤ p.brkState.mappedEnd ∧
          p.brkState.mappedEnd < pageFloor p.brkState.mappedEnd + kPageSize ∧
          pageFloor p.brkState.mappedEnd % kPageSize = 0 := by
        simp only [pageFloor, kPageSize]
        omega
      have hw : Whole (pageFloor p.brkState.mappedEnd) (stop - pageFloor p.brkState.mappedEnd) := by
        refine ⟨hfloor.2.2, ?_, by omega⟩
        simp only [kPageSize] at *
        omega
      rw [hresult, hspace] at hr
      by_cases hnone : host.alloc = 0
      · rw [hnone, map_short hw (by omega) (by omega)] at hr
        obtain rfl := Option.some.inj hr
        exact brk_same h.tidy rfl hbrk
      · obtain ⟨halloc, hin⟩ := hroom.resolve_left hnone
        obtain ⟨hok, hmaps⟩ := @map_pages p.space _ _ readWrite host.alloc hw hin halloc
        rw [hok] at hr
        obtain rfl := Option.some.inj hr
        refine ⟨named_right (by decide) (Int.natCast_nonneg _) ?_, hmaps.tidy h.tidy, ?_⟩
        · intro page hp hout
          apply hmaps.outside page hp
          rintro ⟨hlo, hhi⟩
          have hpage := hp.1
          apply hout
          refine ⟨?_, ?_, hfree hnone page hp.1 hlo hhi⟩
          · omega
          · dsimp only
            simp only [kPageSize] at *
            omega
        · exact le_trans hbrk hgrow.le
    · rw [if_neg hgrow] at hr
      obtain rfl := Option.some.inj hr
      exact brk_same h.tidy rfl hbrk

/-! ### `mremap` -/

theorem mremapArgs_cases : (∃ error, mremapArgs context = .error error ∧ 0 < error) ∨
    ∃ oldLength newLength, mremapArgs context = .ok (oldLength, newLength) ∧
      pageAlignUp (context.syscallArg 1).toNat = some oldLength ∧
      pageAlignUp (context.syscallArg 2).toNat = some newLength ∧ (context.syscallArg 1).toNat ≠ 0 ∧
      (context.syscallArg 2).toNat ≠ 0 ∧ (context.syscallArg 0).toNat % kPageSize = 0 ∧
      rangeOverflows (context.syscallArg 0).toNat oldLength = false := by
  rw [mremapArgs]
  split
  · exact .inl ⟨_, rfl, by decide⟩
  split
  · exact .inl ⟨_, rfl, by decide⟩
  split
  · exact .inl ⟨_, rfl, by decide⟩
  split
  · exact .inl ⟨_, rfl, by decide⟩
  rename_i hargs
  obtain ⟨hold, hrest⟩ := not_or.1 hargs
  obtain ⟨hnew, haligned⟩ := not_or.1 hrest
  rw [Bool.not_eq_true', Bool.not_eq_false] at haligned
  cases holdCeil : pageAlignUp (context.syscallArg 1).toNat with
  | none => exact .inl ⟨_, rfl, by decide⟩
  | some oldLength =>
    cases hnewCeil : pageAlignUp (context.syscallArg 2).toNat with
    | none => exact .inl ⟨_, rfl, by decide⟩
    | some newLength =>
      dsimp only
      cases hover : rangeOverflows (context.syscallArg 0).toNat oldLength with
      | true => exact .inl ⟨_, rfl, by decide⟩
      | false =>
        exact .inr ⟨oldLength, newLength, rfl, rfl, rfl, hold, hnew, pageAligned_iff.1 haligned, hover⟩

/-- The move of `mremap`, once the new address is known. -/
def moveAt (context : CallRegs) (host : MemHost) (p : MemProcess) (oldLength newLength start : ℕ)
    (copied : List Byte) : MemOutcome :=
  let mapped := p.space.map start newLength readWrite host.alloc
  let p := p.withSpace mapped.space
  match mapped.result with
  | .error e => p.fails (memoryErrorToLinux e)
  | .ok () =>
    let written := if copied.isEmpty then ⟨.ok (), p.space, none⟩ else p.space.write start copied
    let p := p.withSpace written.space
    match written.result with
    | .error e => (p.withSpace (p.space.unmap start newLength).space).fails (memoryErrorToLinux e)
    | .ok () => (p.withSpace (p.space.unmap (context.syscallArg 0).toNat oldLength).space).returnValue start

theorem mremapMove_eq (oldLength newLength : ℕ) (copied : List Byte) :
    mremapMove context host p oldLength newLength copied =
      if context.syscallArg 3 &&& linuxMremapMaymove = 0 then p.fails linuxEnomem
      else
        match mremapTarget context p newLength with
        | (.error error, p) => p.fails error
        | (.ok start, p) => moveAt context host p oldLength newLength start copied := rfl

/-- A move to a range that no address space has. -/
theorem moveAt_overflows {oldLength : ℕ} {copied : List Byte} (hw : Whole start len) (hlt : len < 2 ^ 64)
    (hover : 2 ^ 64 < start + len) (hr : moveAt context host p oldLength len start copied = some r) :
    r.2 = p ∧ r.1 < 0 := by
  have hmap : p.space.map start len readWrite host.alloc = ⟨.error .mappingFailed, p.space, none⟩ := by
    rw [AddressSpace.map, if_neg hw.pos.ne', if_pos (rangeOverflows_eq_true hw hlt hover)]
  rw [moveAt, hmap] at hr
  obtain rfl := Option.some.inj hr
  exact ⟨rfl, returnError_neg (memoryErrorToLinux_pos _)⟩

/-- What a move comes to. -/
structure MoveRight (host : MemHost) (p : MemProcess) (old oldLength start len : ℕ) (r : ℤ × MemProcess) : Prop where
  brk : r.2.brkState = p.brkState
  tidy : r.2.space.Tidy
  outcome : (host.alloc = 0 ∧ r.1 < 0 ∧ r.2.space = p.space) ∨
    (host.alloc ≠ 0 ∧ r.1 = start ∧ ∀ page, IsPage page → ¬ (start ≤ page ∧ page < start + len) →
      ¬ (old ≤ page ∧ page < old + oldLength) → SamePage p.space r.2.space page)

/-- The copy goes to mapped pages. -/
theorem copy_written {m : AddressSpace} {copied : List Byte} (ht : m.Tidy) (hw : Whole start len)
    (hfit : start + len ≤ addressSpaceSize)
    (hmapped : ∀ page, IsPage page → start ≤ page → page < start + len → m.mapped page = true)
    (hcopied : copied.length ≤ len) :
    let written : Effect := if copied.isEmpty then ⟨.ok (), m, none⟩ else m.write start copied
    written.result = .ok () ∧ written.space.Tidy ∧
      ∀ page, IsPage page → ¬ (start ≤ page ∧ page < start + len) → SamePage m written.space page := by
  dsimp only
  by_cases hempty : copied.isEmpty = true
  · rw [if_pos hempty]
    exact ⟨rfl, ht, fun page _ _ => SamePage.refl m page⟩
  · rw [if_neg hempty]
    have hpos : 0 < copied.length := by
      rw [List.length_pos_iff]
      exact mt List.isEmpty_iff.2 hempty
    have hsize : addressSpaceSize = 2 ^ 48 := rfl
    refine ⟨?_, ht.write start copied, ?_⟩
    · apply write_ok hpos (by omega)
      intro a hlo hhi
      obtain ⟨hplo, hphi⟩ := hw.pageFloor_mem hlo (by omega)
      exact hmapped _ ⟨pageFloor_dvd a, by omega⟩ hplo hphi
    · intro page hp hout
      apply write_samePage
      have haligned := hw.aligned
      have hpage := hp.1
      simp only [kPageSize] at *
      omega

/-- **A move** is made with the pages of both ranges only, or nothing changes. -/
theorem moveAt_spec {oldLength : ℕ} {copied : List Byte} (hw : Whole start len) (hfit : start + len ≤ 2 ^ 64)
    (hlt : len < 2 ^ 64) (ht : p.space.Tidy) (hroom : Room host.alloc start len)
    (hold : Whole (context.syscallArg 0).toNat oldLength)
    (holdFit : (context.syscallArg 0).toNat + oldLength ≤ addressSpaceSize) (hcopied : copied.length ≤ len)
    (hr : moveAt context host p oldLength len start copied = some r) :
    MoveRight host p (context.syscallArg 0).toNat oldLength start len r := by
  by_cases hnone : host.alloc = 0
  · rw [moveAt, hnone, map_short hw hfit hlt] at hr
    obtain rfl := Option.some.inj hr
    exact ⟨rfl, ht, .inl ⟨hnone, returnError_neg (memoryErrorToLinux_pos _), rfl⟩⟩
  · obtain ⟨halloc, hin⟩ := hroom.resolve_left hnone
    obtain ⟨hok, hmaps⟩ := @map_pages p.space start len readWrite host.alloc hw hin halloc
    simp only [moveAt, hok] at hr
    generalize (p.space.map start len readWrite host.alloc).space = m₁ at *
    dsimp only [MemProcess.withSpace] at hr
    obtain ⟨hwok, hwtidy, hwsame⟩ := copy_written (hmaps.tidy ht) hw hin hmaps.mapped hcopied
    generalize (if copied.isEmpty then ⟨.ok (), m₁, none⟩ else m₁.write start copied : Effect) = written at *
    rw [hwok] at hr
    obtain rfl := Option.some.inj hr
    have hsize : addressSpaceSize = 2 ^ 48 := rfl
    have hunmaps := @unmap_pages written.space (context.syscallArg 0).toNat oldLength hold (by omega) (by omega)
      (Attr.harmless_of_le holdFit hold.pos)
    refine ⟨rfl, hunmaps.tidy hwtidy, .inr ⟨hnone, rfl, ?_⟩⟩
    intro page hp hnew hoff
    exact ((hmaps.outside page hp hnew).trans (hwsame page hp hnew)).trans (hunmaps.outside page hp hoff)

/-- A move within the pages that `mremap` names. -/
theorem MoveRight.right {p₁ : MemProcess} {oldLength : ℕ}
    (hmove : MoveRight host p₁ (context.syscallArg 0).toNat oldLength start len r) (h : p.Inv)
    (hold : pageAlignUp (context.syscallArg 1).toNat = some oldLength)
    (hnew : pageAlignUp (context.syscallArg 2).toNat = some len) (haligned : (context.syscallArg 0).toNat % kPageSize = 0)
    (hstart : start % kPageSize = 0) (hbrk : p₁.brkState = p.brkState)
    (hfailed : host.alloc = 0 → ∀ page, IsPage page → SamePage p.space p₁.space page)
    (houtside : ∀ page, IsPage page → ¬ (start ≤ page ∧ page < start + len) → SamePage p.space p₁.space page) :
    MemRight context host p .mremap r ∧ r.2.Inv := by
  refine ⟨?_, inv_of h (hmove.brk.trans hbrk) hmove.tidy⟩
  rcases hmove.outcome with ⟨hnone, -, hspace⟩ | ⟨-, heq, hsame⟩
  · refine right_of_same ?_ nofun
    rw [hspace]
    exact hfailed hnone
  · refine named_right nofun (by omega) ?_
    intro page hp hout
    have hoffNew : ¬ (start ≤ page ∧ page < start + len) := by
      rintro ⟨hlo, hhi⟩
      have hraw := (mem_ceil hnew hstart hp.1).2 hhi
      apply hout
      right
      rw [heq]
      exact ⟨by omega, by omega, by omega⟩
    have hoffOld : ¬ ((context.syscallArg 0).toNat ≤ page ∧ page < (context.syscallArg 0).toNat + oldLength) := by
      rintro ⟨hlo, hhi⟩
      have hraw := (mem_ceil hold haligned hp.1).2 hhi
      apply hout
      left
      exact ⟨hlo, by omega⟩
    exact (houtside page hp hoffNew).trans (hsame page hp hoffNew hoffOld)

theorem rangeIsUnmapped_of (hw : Whole start len) (hfit : start + len ≤ 2 ^ 64)
    (hfree : Unmapped p.space start len) : rangeIsUnmapped p.space start len = true := by
  rcases Nat.lt_or_ge (start + len) (2 ^ 64) with hlt | hend
  · exact (rangeIsUnmapped_iff hw hlt).2 hfree
  · -- the end wraps to zero
    have hzero : (start + len) % 2 ^ 64 = 0 := by omega
    rw [rangeIsUnmapped, if_neg hw.pos.ne', rangeOverflows_eq_false hfit, if_neg Bool.false_ne_true, hzero,
      unmappedLoop, if_pos (Nat.zero_le start)]

/-- The conditions on a move, as `MemFine` has them. -/
structure MoveFine (context : CallRegs) (host : MemHost) (p : MemProcess) (newLength : ℕ) : Prop where
  fixed : context.syscallArg 3 &&& linuxMremapFixed ≠ 0 → pageAligned (context.syscallArg 4).toNat = true →
    (context.syscallArg 4).toNat + newLength ≤ 2 ^ 64 → Room host.alloc (context.syscallArg 4).toNat newLength ∧
      (host.alloc = 0 → Unmapped p.space (context.syscallArg 4).toNat newLength)
  free : context.syscallArg 3 &&& linuxMremapFixed = 0 →
    ∀ a, FirstFree p.space p.mremapNext newLength a → Room host.alloc a newLength

/-- **The move of `mremap`.** -/
theorem mremapMove_right {oldLength newLength : ℕ} {copied : List Byte} (h : p.Inv)
    (hf : context.syscallArg 3 &&& linuxMremapMaymove ≠ 0 → MoveFine context host p newLength)
    (hold : pageAlignUp (context.syscallArg 1).toNat = some oldLength) (holdPos : (context.syscallArg 1).toNat ≠ 0)
    (hnew : pageAlignUp (context.syscallArg 2).toNat = some newLength) (hnewPos : (context.syscallArg 2).toNat ≠ 0)
    (haligned : (context.syscallArg 0).toNat % kPageSize = 0)
    (holdFit : (context.syscallArg 0).toNat + oldLength ≤ addressSpaceSize) (hcopied : copied.length ≤ newLength)
    (hr : mremapMove context host p oldLength newLength copied = some r) :
    MemRight context host p .mremap r ∧ r.2.Inv := by
  obtain ⟨hwOld, -, -⟩ := whole_of_ceil hold holdPos haligned
  rw [mremapMove_eq] at hr
  split at hr
  · exact fails_right h (by decide) hr
  · rename_i hmay
    obtain ⟨hfixedFine, hfreeFine⟩ := hf hmay
    rw [mremapTarget] at hr
    by_cases hfixed : context.syscallArg 3 &&& linuxMremapFixed ≠ 0
    · rw [if_pos hfixed] at hr
      cases halignedNew : pageAligned (context.syscallArg 4).toNat with
      | false =>
        rw [halignedNew] at hr
        exact fails_right h (by decide) hr
      | true =>
        have hstart := pageAligned_iff.1 halignedNew
        obtain ⟨hw, hlt, -⟩ := whole_of_ceil hnew hnewPos hstart
        rw [halignedNew, Bool.not_true, if_neg Bool.false_ne_true] at hr
        by_cases hfit : (context.syscallArg 4).toNat + newLength ≤ 2 ^ 64
        · obtain ⟨hroom, hnoneFree⟩ := hfixedFine hfixed halignedNew hfit
          by_cases hfree : rangeIsUnmapped p.space (context.syscallArg 4).toNat newLength = true
          · rw [if_pos hfree] at hr
            have hmove := moveAt_spec hw hfit hlt h.tidy hroom hwOld holdFit hcopied hr
            exact hmove.right h hold hnew haligned hstart rfl (fun _ page _ => SamePage.refl _ page)
              fun page _ _ => SamePage.refl _ page
          · -- the range is cleared first, so the mapping has to succeed
            rw [if_neg hfree] at hr
            have hsome : host.alloc ≠ 0 := fun hnone => hfree (rangeIsUnmapped_of hw hfit (hnoneFree hnone))
            obtain ⟨-, hin⟩ := hroom.resolve_left hsome
            have hunmaps := @unmap_pages p.space _ newLength hw hfit hlt (Attr.harmless_of_le hin hw.pos)
            have hmove := moveAt_spec hw hfit hlt (hunmaps.tidy h.tidy) hroom hwOld holdFit hcopied hr
            exact hmove.right h hold hnew haligned hstart rfl (fun hnone => absurd hnone hsome) hunmaps.outside
        · -- a range past the end of the space fails before anything is mapped or cleared
          have hover : 2 ^ 64 < (context.syscallArg 4).toNat + newLength := by omega
          have hno : ¬ rangeIsUnmapped p.space (context.syscallArg 4).toNat newLength = true := by
            rw [rangeIsUnmapped, if_neg hw.pos.ne', if_pos (rangeOverflows_eq_true hw hlt hover)]
            exact Bool.false_ne_true
          rw [if_neg hno, unmap_overflows hw hlt hover] at hr
          obtain ⟨hsame, -⟩ := moveAt_overflows hw hlt hover hr
          refine ⟨right_of_same ?_ (fun hmmap => absurd hmmap (by decide)), ?_⟩
          · intro page _
            rw [hsame]
            exact SamePage.refl _ page
          · rw [hsame]
            exact h
    · rw [if_neg hfixed] at hr
      have hzero : context.syscallArg 3 &&& linuxMremapFixed = 0 := not_not.1 hfixed
      cases hfind : findUnmappedRange p.space p.mremapNext newLength with
      | none =>
        rw [hfind] at hr
        exact fails_right h (by decide) hr
      | some start =>
        obtain ⟨hmod, hle, -, -⟩ := pageCeil_eq hnew
        have hlt : newLength < 2 ^ 64 := (whole_of_ceil hnew hnewPos (Nat.zero_mod _)).2.1
        have hfirst := findUnmappedRange_first hmod (by omega) hlt hfind
        rw [hfind] at hr
        have hmove : MoveRight host { p with mremapNext := start + newLength } (context.syscallArg 0).toNat oldLength
            start newLength r :=
          moveAt_spec ⟨hfirst.aligned, hmod, by omega⟩ hfirst.fits.le hlt h.tidy (hfreeFine hzero start hfirst) hwOld
            holdFit hcopied hr
        exact hmove.right h hold hnew haligned hfirst.aligned rfl (fun _ page _ => SamePage.refl _ page)
          fun page _ _ => SamePage.refl _ page

/-- Shrinking unmaps the end of the old range. -/
theorem shrink_right {oldLength newLength : ℕ} (h : p.Inv)
    (hold : pageAlignUp (context.syscallArg 1).toNat = some oldLength)
    (hnew : pageAlignUp (context.syscallArg 2).toNat = some newLength)
    (haligned : (context.syscallArg 0).toNat % kPageSize = 0) (hfit : (context.syscallArg 0).toNat + oldLength ≤ 2 ^ 64)
    (hpos : 0 < newLength) (hle : newLength ≤ oldLength) (hlt : oldLength < 2 ^ 64)
    (hf : newLength < oldLength →
      Attr.Harmless p.space ⟨(context.syscallArg 0).toNat + newLength, oldLength - newLength, .none⟩)
    (hr : (p.withSpace (p.space.unmap (((context.syscallArg 0).toNat + newLength) % 2 ^ 64)
      (oldLength - newLength)).space).returnValue (context.syscallArg 0).toNat = some r) :
    MemRight context host p .mremap r ∧ r.2.Inv := by
  obtain rfl := Option.some.inj hr
  rcases Nat.eq_or_lt_of_le hle with heq | hless
  · have hzero : oldLength - newLength = 0 := by omega
    have hsame : (p.space.unmap (((context.syscallArg 0).toNat + newLength) % 2 ^ 64) (oldLength - newLength)).space =
        p.space := by
      rw [hzero, AddressSpace.unmap, if_pos (.inl rfl)]
    rw [hsame]
    exact ⟨right_of_same (fun page _ => SamePage.refl _ page) (fun hmmap => absurd hmmap (by decide)), h⟩
  · obtain ⟨hmodOld, -, -, -⟩ := pageCeil_eq hold
    obtain ⟨hmodNew, -, -, -⟩ := pageCeil_eq hnew
    have hw : Whole ((context.syscallArg 0).toNat + newLength) (oldLength - newLength) := by
      refine ⟨?_, ?_, by omega⟩
      · simp only [kPageSize] at *
        omega
      · simp only [kPageSize] at *
        omega
    have hunmaps := unmap_pages hw (by omega) (by omega) (hf hless)
    rw [Nat.mod_eq_of_lt (by omega)]
    refine ⟨named_right (by decide) (Int.natCast_nonneg _) ?_, inv_of h rfl (hunmaps.tidy h.tidy)⟩
    intro page hp hout
    apply hunmaps.outside page hp
    rintro ⟨hlo, hhi⟩
    have hraw := (mem_ceil hold haligned hp.1).2 (by omega)
    apply hout
    left
    exact ⟨by omega, by omega⟩

/-- Growing in place maps the pages behind the old range. -/
theorem grow_right {oldLength newLength : ℕ} (h : p.Inv)
    (hnew : pageAlignUp (context.syscallArg 2).toNat = some newLength)
    (haligned : (context.syscallArg 0).toNat % kPageSize = 0) (hless : oldLength < newLength)
    (hmaps : Maps p.space r.2.space ((context.syscallArg 0).toNat + oldLength) (newLength - oldLength) readWrite)
    (hbrk : r.2.brkState = p.brkState) (hvalue : r.1 = (context.syscallArg 0).toNat) :
    MemRight context host p .mremap r ∧ r.2.Inv := by
  refine ⟨named_right nofun (by omega) ?_, inv_of h hbrk (hmaps.tidy h.tidy)⟩
  intro page hp hout
  apply hmaps.outside page hp
  rintro ⟨hlo, hhi⟩
  have hraw := (mem_ceil hnew haligned hp.1).2 (by omega)
  apply hout
  left
  exact ⟨by omega, by omega⟩

/-- **`mremap`.** -/
theorem sysMremap_right (h : p.Inv) (hf : MemFine context host p .mremap)
    (hr : sysMremap context kind host p = some r) : MemRight context host p .mremap r ∧ r.2.Inv := by
  rw [sysMremap] at hr
  split at hr
  · cases hr
  rcases @mremapArgs_cases context with
    ⟨error, hargs, hpos⟩ | ⟨oldLength, newLength, hargs, hold, hnew, holdPos, hnewPos, haligned, hover⟩
  · rw [hargs] at hr
    exact fails_right h hpos hr
  · rw [hargs] at hr
    dsimp only at hr
    cases hcopy : host.copyError with
    | some error =>
      rw [hcopy] at hr
      exact fails_right h (host.copyError_pos error hcopy) hr
    | none =>
      rw [hcopy] at hr
      dsimp only at hr
      cases hread : p.space.read (context.syscallArg 0).toNat (min oldLength newLength) with
      | error e =>
        rw [hread] at hr
        exact fails_right h (memoryErrorToLinux_pos e) hr
      | ok copied =>
        rw [hread] at hr
        obtain ⟨hlength, hmapped⟩ := read_ok hread
        obtain ⟨hwOld, hltOld, -⟩ := whole_of_ceil hold holdPos haligned
        obtain ⟨hwNew, hltNew, -⟩ := whole_of_ceil hnew hnewPos haligned
        have hallMapped : AllMapped p.space (context.syscallArg 0).toNat (min oldLength newLength) := by
          intro page hp hlo hhi
          have hpage := hmapped page hlo hhi
          rw [pageFloor_of_whole hp] at hpage
          exact hpage
        obtain ⟨hshrink, hgrow, hmove⟩ := hf oldLength newLength hargs hcopy hallMapped
        dsimp only at hr
        have hfit64 : (context.syscallArg 0).toNat + oldLength ≤ 2 ^ 64 := by
          by_contra hno
          rw [rangeOverflows_eq_true hwOld hltOld (by omega)] at hover
          cases hover
        have hposNew := hwNew.pos
        rw [mremapRead] at hr
        by_cases hle : newLength ≤ oldLength
        · rw [if_pos hle] at hr
          exact shrink_right h hold hnew haligned hfit64 hposNew hle hltOld hshrink hr
        · have hless : oldLength < newLength := Nat.not_le.1 hle
          have hmin : min oldLength newLength = oldLength := by omega
          rw [hmin] at hlength hallMapped
          -- the old pages are mapped, so they are below 48 bits
          have holdFit : (context.syscallArg 0).toNat + oldLength ≤ addressSpaceSize := by
            by_contra hno
            have hwhole := hwOld.whole
            have hposOld := hwOld.pos
            have hlast := hallMapped ((context.syscallArg 0).toNat + oldLength - kPageSize)
              (by simp only [kPageSize] at *; omega) (by simp only [kPageSize] at *; omega)
              (by simp only [kPageSize] at *; omega)
            rw [h.tidy.below _ (by simp only [kPageSize, addressSpaceSize] at *; omega)] at hlast
            cases hlast
          have hsize : addressSpaceSize = 2 ^ 48 := rfl
          have hmove' : ¬ (host.growAlloc ≠ 0 ∧ GrowsInPlace context p oldLength newLength) →
              mremapMove context host p oldLength newLength copied = some r →
              MemRight context host p .mremap r ∧ r.2.Inv := by
            intro hno hr
            refine mremapMove_right h ?_ hold holdPos hnew hnewPos haligned holdFit (by omega) hr
            intro hmay
            obtain ⟨hfixed, hfree⟩ := hmove hless hno hmay
            exact ⟨hfixed, hfree⟩
          have hwGrow : Whole ((context.syscallArg 0).toNat + oldLength) (newLength - oldLength) := by
            have hmodOld := hwOld.whole
            have hmodNew := hwNew.whole
            refine ⟨?_, ?_, by omega⟩
            · simp only [kPageSize] at *
              omega
            · simp only [kPageSize] at *
              omega
          have hend : ((context.syscallArg 0).toNat + oldLength) % 2 ^ 64 = (context.syscallArg 0).toNat + oldLength :=
            Nat.mod_eq_of_lt (by omega)
          rw [if_neg hle] at hr
          dsimp only at hr
          rw [hend] at hr
          by_cases hin : GrowsInPlace context p oldLength newLength
          · have hcond : (context.syscallArg 0).toNat + oldLength ≤ 2 ^ 64 - 1 - (newLength - oldLength) ∧
                rangeIsUnmapped p.space ((context.syscallArg 0).toNat + oldLength) (newLength - oldLength) = true := by
              obtain ⟨hlt, hfree⟩ := hin
              exact ⟨by omega, (rangeIsUnmapped_iff hwGrow (by omega)).2 hfree⟩
            rw [if_pos hcond] at hr
            by_cases hnone : host.growAlloc = 0
            · rw [hnone, map_short hwGrow (by omega) (by omega)] at hr
              exact hmove' (fun hboth => hboth.1 hnone) hr
            · obtain ⟨halloc, hroom⟩ := (hgrow hless hin).resolve_left hnone
              obtain ⟨hok, hmaps⟩ := @map_pages p.space _ _ readWrite host.growAlloc hwGrow hroom halloc
              rw [hok] at hr
              obtain rfl := Option.some.inj hr
              exact grow_right h hnew haligned hless hmaps rfl rfl
          · have hcond : ¬ ((context.syscallArg 0).toNat + oldLength ≤ 2 ^ 64 - 1 - (newLength - oldLength) ∧
                rangeIsUnmapped p.space ((context.syscallArg 0).toNat + oldLength) (newLength - oldLength) = true) := by
              rintro ⟨hbelow, hfree⟩
              exact hin ⟨by omega, (rangeIsUnmapped_iff hwGrow (by omega)).1 hfree⟩
            rw [if_neg hcond] at hr
            exact hmove' (fun hboth => hin hboth.2) hr

/-! ### Any call -/

theorem handles_unique {number number' : ℕ} (h : handles context kind number = true)
    (h' : handles context kind number' = true) : number = number' := by
  simp only [handles, Bool.and_eq_true, beq_iff_eq] at h h'
  exact h.2.symm.trans h'.2

theorem not_handled {number : ℕ} {outcome : MemOutcome}
    (hr : (if !handles context kind number then none else outcome) = some r) : handles context kind number = true := by
  by_contra hno
  rw [Bool.not_eq_true] at hno
  rw [hno, Bool.not_false, if_pos rfl] at hr
  cases hr

theorem not_handles {number number' : ℕ} (h : handles context kind number = true) (hne : number' ≠ number) :
    ¬ handles context kind number' = true := fun h' => hne (handles_unique h' h)

/-- **One call** does what it must, and keeps the invariant. -/
theorem memSyscall_right (h : p.Inv) (hf : ∀ call, memCall context kind = some call → MemFine context host p call)
    (hr : memSyscall context kind host p = some r) :
    ∃ call, memCall context kind = some call ∧ MemRight context host p call r ∧ r.2.Inv := by
  rw [memSyscall] at hr
  rcases Option.or_eq_some_iff.1 hr with hbrk | ⟨-, hr⟩
  · have hcall : memCall context kind = some .brk := if_pos (not_handled hbrk)
    exact ⟨.brk, hcall, sysBrk_right h (hf _ hcall) hbrk⟩
  rcases Option.or_eq_some_iff.1 hr with hmmap | ⟨-, hr⟩
  · have hhandles := not_handled hmmap
    have hcall : memCall context kind = some .mmap := by
      rw [memCall, if_neg (not_handles hhandles (by decide)), if_pos hhandles]
    exact ⟨.mmap, hcall, sysMmap_right h (hf _ hcall) hmmap⟩
  rcases Option.or_eq_some_iff.1 hr with hmunmap | ⟨-, hr⟩
  · have hhandles := not_handled hmunmap
    have hcall : memCall context kind = some .munmap := by
      rw [memCall, if_neg (not_handles hhandles (by decide)), if_neg (not_handles hhandles (by decide)),
        if_pos hhandles]
    exact ⟨.munmap, hcall, sysMunmap_right h (hf _ hcall) hmunmap⟩
  rcases Option.or_eq_some_iff.1 hr with hmprotect | ⟨-, hmremap⟩
  · have hhandles := not_handled hmprotect
    have hcall : memCall context kind = some .mprotect := by
      rw [memCall, if_neg (not_handles hhandles (by decide)), if_neg (not_handles hhandles (by decide)),
        if_neg (not_handles hhandles (by decide)), if_pos hhandles]
    exact ⟨.mprotect, hcall, sysMprotect_right h (hf _ hcall) hmprotect⟩
  · have hhandles := not_handled hmremap
    have hcall : memCall context kind = some .mremap := by
      rw [memCall, if_neg (not_handles hhandles (by decide)), if_neg (not_handles hhandles (by decide)),
        if_neg (not_handles hhandles (by decide)), if_neg (not_handles hhandles (by decide)), if_pos hhandles]
    exact ⟨.mremap, hcall, sysMremap_right h (hf _ hcall) hmremap⟩

end Calls

/-! ### Whole runs -/

/-- A store of the guest changes bytes only. -/
theorem MemProcess.Inv.store {p : MemProcess} (h : p.Inv) (address : ℕ) (data : W64) (bytemask : BitVec 8) :
    (memStep p (.store address data bytemask)).Inv :=
  ⟨h.tidy.congr rfl fun _ => rfl, h.brk⟩

/-- A process that has not called `brk`, in a space whose protections belong to its pages. -/
structure MemProcess.Starts (p : MemProcess) : Prop where
  tidy : p.space.Tidy
  brk : p.brk = none

theorem MemProcess.Starts.inv {p : MemProcess} (h : p.Starts) : p.Inv := by
  refine ⟨h.tidy, ?_⟩
  rw [MemProcess.brkState, h.brk]
  exact le_rfl

theorem MemProcess.Inv.isolated {p : MemProcess} (h : p.Inv) (events : List MemEvent) (hf : IsolationFine p events) :
    Isolated p events := by
  induction events generalizing p with
  | nil => trivial
  | cons event events ih =>
    cases event with
    | store address data bytemask => exact ih (h.store address data bytemask) hf
    | call context kind host =>
      obtain ⟨hcall, hrest⟩ := hf
      constructor
      · intro call r hmem hr
        obtain ⟨call', hmem', hright, -⟩ := memSyscall_right h hcall hr
        rw [hmem] at hmem'
        obtain rfl := Option.some.inj hmem'
        exact hright
      · apply ih _ hrest
        rw [memStep]
        cases hr : memSyscall context kind host p with
        | none => exact h
        | some r =>
          obtain ⟨-, -, -, hinv⟩ := memSyscall_right h hcall hr
          exact hinv

/-- **Isolation along a run** in which every call meets the condition. -/
theorem isolated_of_fine (p : MemProcess) (hp : p.Starts) (events : List MemEvent) (hf : IsolationFine p events) :
    Isolated p events :=
  hp.inv.isolated events hf

/-- A process with nothing mapped. -/
def MemProcess.first : MemProcess where
  fds := ⟨1, ∅, ∅, fun fd => fd < 3, []⟩
  space := .init true
  brk := none
  initialBreak := 0x10000
  mmapNext := 0x20000
  mremapNext := 0x40000
  loader := false

theorem MemProcess.first_startsMem : MemProcess.first.Starts := ⟨tidy_init true, rfl⟩

/-- A host with room for a page. -/
def onePage : MemHost where
  growAlloc := 4
  alloc := 4
  copyError := none
  copyError_pos := none_pos
  file _ := []
  pread _ _ _ := none
  errno := linuxEio
  errno_pos := linuxEio_pos

def brkCall (address : W64) : CallRegs := ⟨12, address, 0, 0, 0, 0, 0⟩

/-- `mmap` of a readable and writable private anonymous page at a fixed address. -/
def mapPageCall (address : W64) : CallRegs := ⟨9, address, 0x1000, 3, 0x32, 0, 0⟩

def unmapPageCall (address : W64) : CallRegs := ⟨11, address, 0x1000, 0, 0, 0, 0⟩

/-- The heap grows by a page and another page is mapped, the guest stores to both, and
unmaps the second. -/
theorem isolated_breakAndPage : Isolated .first
    [.call (brkCall 0x11000) .syscall64 onePage, .store 0x10000 0xff 1,
      .call (mapPageCall 0x20000) .syscall64 onePage, .store 0x20000 0xff 1,
      .call (unmapPageCall 0x20000) .syscall64 onePage] := by
  refine isolated_of_fine .first MemProcess.first_startsMem _ ⟨?_, ?_, ?_, trivial⟩
  · intro call hcall
    have hbrk : memCall (brkCall 0x11000) .syscall64 = some .brk := by decide
    rw [hbrk] at hcall
    obtain rfl := Option.some.inj hcall
    intro stop hstop _ _
    have hceil : pageAlignUp (brkCall 0x11000 |>.syscallArg 0).toNat = some 0x11000 := by decide
    rw [hceil] at hstop
    obtain rfl := Option.some.inj hstop
    refine ⟨.inr ⟨by decide, by decide⟩, ?_⟩
    intro _ page _ _ _
    rfl
  · intro call hcall
    have hmmap : memCall (mapPageCall 0x20000) .syscall64 = some .mmap := by decide
    rw [hmmap] at hcall
    obtain rfl := Option.some.inj hcall
    intro protection length hargs
    have hok : mmapArgs (mapPageCall 0x20000) = .ok (⟨true, true, false⟩, 0x1000) := by decide
    rw [hok] at hargs
    obtain ⟨rfl, rfl⟩ := Prod.mk.inj (Except.ok.inj hargs)
    have hfixed : mapFixed (mapPageCall 0x20000) := by unfold mapFixed; decide
    have hanon : mapAnonymous (mapPageCall 0x20000) := by unfold mapAnonymous; decide
    exact ⟨fun _ _ _ => ⟨.inr ⟨by decide, by decide⟩, fun _ => .inl hanon⟩, fun hfree => absurd hfixed hfree⟩
  · intro call hcall
    have hmunmap : memCall (unmapPageCall 0x20000) .syscall64 = some .munmap := by decide
    rw [hmunmap] at hcall
    obtain rfl := Option.some.inj hcall
    intro length hlength _ _ _
    have hceil : pageAlignUp (unmapPageCall 0x20000 |>.syscallArg 1).toNat = some 0x1000 := by decide
    rw [hceil] at hlength
    obtain rfl := Option.some.inj hlength
    exact ⟨by decide, .inl (by decide)⟩

/-- A page is mapped at the break and written, then the heap grows over it. -/
def growOver : List MemEvent :=
  [.call (mapPageCall 0x10000) .syscall64 onePage, .store 0x10000 0xff 1,
    .call (brkCall 0x11000) .syscall64 onePage]

theorem growOver_not_isolated : ¬ ∀ p : MemProcess, p.Starts → ∀ events, Isolated p events := by
  intro h
  obtain ⟨-, hcall, -⟩ := h .first MemProcess.first_startsMem growOver
  have hzero : ((memSyscall (brkCall 0x11000) .syscall64 onePage
      (memStep (memStep .first (.call (mapPageCall 0x10000) .syscall64 onePage))
        (.store 0x10000 0xff 1))).map fun r => r.2.space.bytes (0x10000 + 0)) = some 0 := by
    decide +kernel
  obtain ⟨r, hr, hbyte⟩ := Option.map_eq_some_iff.mp hzero
  have hsame := (hcall .brk r (by decide) hr).frame 0x10000 ⟨by decide, by decide⟩ (by
    rintro ⟨-, -, hfree⟩
    exact absurd hfree (by decide +kernel))
  have hstored : (memStep (memStep .first (.call (mapPageCall 0x10000) .syscall64 onePage))
      (.store 0x10000 0xff 1)).space.bytes (0x10000 + 0) = 0xff := by
    decide +kernel
  have hkept := hsame.contents (by decide +kernel) 0 (by decide)
  rw [hbyte, hstored] at hkept
  exact absurd hkept (by decide)

end X86Sim.Linux
