import X86Sim.Linux.FdTable

/-!
# The memory-management system calls (`syscall-linux.cpp`)

`brk`, `mmap`, `munmap`, `mprotect` and `mremap`, with the search for free ranges and the
loader of file-backed mappings. An address a call returns stands for the bits of `rax`;
a negative value is an error number.
-/

namespace X86Sim.Linux

/-- `BrkState`. -/
structure BrkState where
  minimumBreak : ℕ
  currentBreak : ℕ
  mappedEnd : ℕ

/-- One guest process, as the memory handlers see it: its entry of `brk_states`, the
cursors of `SysMmap` and `SysMremap`, and whether the POSIX library registered its loader. -/
structure MemProcess where
  fds : Fds
  space : AddressSpace
  brk : Option BrkState
  initialBreak : ℕ
  mmapNext : ℕ
  mremapNext : ℕ
  loader : Bool

/-- What the host gives one call: how many steps its allocator has for each `map`, in the order
`mremap` makes them, whether it has room for the copy `mremap` makes, the contents of its
files, and how much of what is asked for one `pread` delivers, if it does not fail. -/
structure MemHost where
  growAlloc : ℕ
  alloc : ℕ
  copyError : Option ℕ
  copyError_pos : ∀ e ∈ copyError, 0 < e
  file : ℕ → List Byte
  pread : ℕ → ℕ → ℕ → Option ℕ
  errno : ℕ
  errno_pos : 0 < errno

abbrev MemOutcome := Option (ℤ × MemProcess)

namespace MemProcess

variable (p : MemProcess)

def returnValue (value : ℤ) : MemOutcome := some (value, p)
def fails (error : ℕ) : MemOutcome := some (returnError error, p)
def withSpace (space : AddressSpace) : MemProcess := { p with space := space }

/-- `brk_state`: the process's break, created on the first call. -/
def brkState : BrkState := p.brk.getD ⟨p.initialBreak, p.initialBreak, p.initialBreak⟩

end MemProcess

/-! ### Ranges -/

/-- `page_align_up`, the same as `page_ceil`. -/
def pageAlignUp (value : ℕ) : Option ℕ := pageCeil value

def pageAligned (value : ℕ) : Bool := value % kPageSize == 0

/-- The loop of `range_is_unmapped`, with the turns it has left. -/
def unmappedLoop (space : AddressSpace) (stop : ℕ) : ℕ → ℕ → Bool
  | 0, _ => true
  | turns + 1, page =>
    if stop ≤ page then true
    else
      match space.read page 1 with
      | .ok _ => false
      | .error _ =>
        let nextPage := pageFloor ((page + kPageSize) % 2 ^ 64)
        if nextPage ≤ page then false else unmappedLoop space stop turns nextPage

def rangeIsUnmapped (space : AddressSpace) (start length : ℕ) : Bool :=
  if length = 0 then true
  else if rangeOverflows start length then false
  else unmappedLoop space ((start + length) % 2 ^ 64) (length / kPageSize + 2) start

/-- The loop of `find_unmapped_range`. -/
def findLoop (space : AddressSpace) (length : ℕ) : ℕ → ℕ → Option ℕ
  | 0, _ => none
  | turns + 1, candidate =>
    if candidate > 2 ^ 64 - 1 - length then none
    else if rangeIsUnmapped space candidate length then some candidate
    else if candidate > 2 ^ 64 - 1 - kPageSize then none
    else findLoop space length turns (candidate + kPageSize)

/-- `find_unmapped_range`; the caller moves its cursor behind the range. -/
def findUnmappedRange (space : AddressSpace) (cursor length : ℕ) : Option ℕ :=
  (pageAlignUp cursor).bind (findLoop space length (2 ^ 64 / kPageSize))

def linuxProtRead : W64 := 1
def linuxProtWrite : W64 := 2
def linuxProtExec : W64 := 4

def protectionFromLinux (prot : W64) : Option Protection :=
  if prot &&& ~~~(linuxProtRead ||| linuxProtWrite ||| linuxProtExec) ≠ 0 then none
  else some ⟨prot &&& linuxProtRead ≠ 0, prot &&& linuxProtWrite ≠ 0, prot &&& linuxProtExec ≠ 0⟩

def readWrite : Protection := ⟨true, true, false⟩

/-! ### Files -/

/-- `pread` on the host: a negative offset fails, and at least one byte is delivered
before the end of the file. -/
def MemHost.preadBytes (host : MemHost) (fd offset count : ℕ) : Option (List Byte) :=
  if offset ≥ 2 ^ 63 then none
  else (host.pread fd offset count).map fun n => ((host.file fd).drop offset).take (min count (max n 1))

/-- The loop of `load_file_backed_mapping`: the error number it stops with, if any, and
the space after it. -/
def loadLoop (host : MemHost) (fd dest length offset : ℕ) :
    ℕ → ℕ → AddressSpace → Option ℕ × AddressSpace
  | 0, _, space => (none, space)
  | turns + 1, total, space =>
    if length ≤ total then (none, space)
    else
      match host.preadBytes fd ((offset + total) % 2 ^ 64) (min (length - total) kPageSize) with
      | none => (some host.errno, space)
      | some bytes =>
        if bytes.isEmpty then (none, space)
        else
          let written := space.write (dest + total) bytes
          match written.result with
          | .error e => (some (memoryErrorToLinux e), written.space)
          | .ok () => loadLoop host fd dest length offset turns (total + bytes.length) written.space

def loadFileBackedMapping (host : MemHost) (p : MemProcess) (dest length : ℕ) (fdArg : W64) (offset : ℕ) :
    Option ℕ × MemProcess :=
  match p.fds.hostFdFor fdArg with
  | (none, fds) => (some linuxEbadf, { p with fds := fds })
  | (some fd, fds) =>
    let r := loadLoop host fd dest length offset (length + 1) 0 p.space
    (r.1, { p with fds := fds, space := r.2 })

/-! ### Numbers and flags -/

def syscallMmap : ℕ := 9
def syscallMprotect : ℕ := 10
def syscallMunmap : ℕ := 11
def syscallBrk : ℕ := 12
def syscallMremap : ℕ := 25

def linuxMapShared : W64 := 0x01
def linuxMapPrivate : W64 := 0x02
def linuxMapFixed : W64 := 0x10
def linuxMapAnonymous : W64 := 0x20

/-- The flags `mmap` accepts: the four above, and `MAP_DENYWRITE`, `MAP_EXECUTABLE`,
`MAP_NORESERVE`, `MAP_POPULATE` and `MAP_STACK`, which it ignores. -/
def supportedMapFlags : W64 :=
  linuxMapShared ||| linuxMapPrivate ||| linuxMapFixed ||| linuxMapAnonymous ||| 0x800 ||| 0x1000 |||
    0x4000 ||| 0x8000 ||| 0x20000

def linuxMremapMaymove : W64 := 1
def linuxMremapFixed : W64 := 2
def linuxMremapDontunmap : W64 := 4

/-! ### Handlers -/

section Handlers

variable (context : CallRegs) (kind : SyscallKind) (host : MemHost) (p : MemProcess)

def sysBrk : MemOutcome :=
  if !handles context kind syscallBrk then none
  else
    let state := p.brkState
    let p := { p with brk := some state }
    let requestedBreak := (context.syscallArg 0).toNat
    -- every refusal answers with the break as it is
    if requestedBreak = 0 then p.returnValue state.currentBreak
    else if requestedBreak < state.minimumBreak then p.returnValue state.currentBreak
    else
      match pageAlignUp requestedBreak with
      | none => p.returnValue state.currentBreak
      | some requestedEnd =>
        if requestedEnd > state.mappedEnd then
          let mapped := p.space.map state.mappedEnd (requestedEnd - state.mappedEnd) readWrite host.alloc
          match mapped.result with
          | .error _ => (p.withSpace mapped.space).returnValue state.currentBreak
          | .ok () =>
            { p with
              space := mapped.space
              brk := some ⟨state.minimumBreak, requestedBreak, requestedEnd⟩ }.returnValue requestedBreak
        else
          -- a lower break unmaps nothing
          { p with brk := some ⟨state.minimumBreak, requestedBreak, state.mappedEnd⟩ }.returnValue
            requestedBreak

/-- The checks `mmap` makes on its arguments: the protection and the length in pages. -/
def mmapArgs : Except ℕ (Protection × ℕ) :=
  let length := (context.syscallArg 1).toNat
  let flags := context.syscallArg 3
  if length = 0 ∨ !pageAligned (context.syscallArg 5).toNat then .error linuxEinval
  else if (flags &&& linuxMapPrivate ≠ 0) = (flags &&& linuxMapShared ≠ 0) then .error linuxEinval
  else if flags &&& ~~~supportedMapFlags ≠ 0 then .error linuxEinval
  else
    match protectionFromLinux (context.syscallArg 2) with
    | none => .error linuxEinval
    | some protection =>
      match pageAlignUp length with
      | none => .error linuxEnomem
      | some alignedLength => .ok (protection, alignedLength)

/-- Where `mmap` maps, and the process with its cursor moved. -/
def mmapAddress (alignedLength : ℕ) : Except ℕ ℕ × MemProcess :=
  let requestedAddress := (context.syscallArg 0).toNat
  if context.syscallArg 3 &&& linuxMapFixed ≠ 0 then
    if !pageAligned requestedAddress then (.error linuxEinval, p) else (.ok requestedAddress, p)
  else
    match findUnmappedRange p.space p.mmapNext alignedLength with
    | none => (.error linuxEnomem, p)
    | some allocated => (.ok allocated, { p with mmapNext := allocated + alignedLength })

/-- The file of a mapping that is not anonymous: the error number, if loading fails. -/
def mmapLoad (mappedAddress : ℕ) : Option ℕ × MemProcess :=
  if !p.loader then (some linuxEbadf, p)
  else
    loadFileBackedMapping host p mappedAddress (context.syscallArg 1).toNat (context.syscallArg 4)
      (context.syscallArg 5).toNat

def sysMmap : MemOutcome :=
  if !handles context kind syscallMmap then none
  else
    match mmapArgs context with
    | .error error => p.fails error
    | .ok (protection, alignedLength) =>
      match mmapAddress context p alignedLength with
      | (.error error, p) => p.fails error
      | (.ok mappedAddress, p) =>
        if mappedAddress > 2 ^ 64 - 1 - alignedLength then p.fails linuxEinval
        else
          let mapped := p.space.map mappedAddress alignedLength protection host.alloc
          let p := p.withSpace mapped.space
          match mapped.result with
          | .error e => p.fails (memoryErrorToLinux e)
          | .ok () =>
            if context.syscallArg 3 &&& linuxMapAnonymous = 0 then
              match mmapLoad context host p mappedAddress with
              | (some error, p) =>
                -- the pages are given back, not what they replaced
                (p.withSpace (p.space.unmap mappedAddress alignedLength).space).fails error
              | (none, p) => p.returnValue mappedAddress
            else p.returnValue mappedAddress

def sysMunmap : MemOutcome :=
  if !handles context kind syscallMunmap then none
  else
    let address := (context.syscallArg 0).toNat
    let length := (context.syscallArg 1).toNat
    if length = 0 ∨ !pageAligned address then p.fails linuxEinval
    else
      match pageAlignUp length with
      | none => p.fails linuxEinval
      -- the result of `unmap` is not looked at
      | some alignedLength => (p.withSpace (p.space.unmap address alignedLength).space).returnValue 0

def sysMprotect : MemOutcome :=
  if !handles context kind syscallMprotect then none
  else
    let address := (context.syscallArg 0).toNat
    let length := (context.syscallArg 1).toNat
    if !pageAligned address then p.fails linuxEinval
    else
      match protectionFromLinux (context.syscallArg 2) with
      | none => p.fails linuxEinval
      | some protection =>
        if length = 0 then p.returnValue 0
        else
          match pageAlignUp length with
          | none => p.fails linuxEnomem
          | some alignedLength =>
            let changed := p.space.protect address alignedLength protection
            let p := p.withSpace changed.space
            match changed.result with
            -- a page that is not mapped is out of memory here, as Linux has it
            | .error .unmappedAddress => p.fails linuxEnomem
            | .error e => p.fails (memoryErrorToLinux e)
            | .ok () => p.returnValue 0

/-- The checks `mremap` makes on its arguments: both lengths in pages. -/
def mremapArgs : Except ℕ (ℕ × ℕ) :=
  let oldAddress := (context.syscallArg 0).toNat
  let oldSize := (context.syscallArg 1).toNat
  let newSize := (context.syscallArg 2).toNat
  let flags := context.syscallArg 3
  if flags &&& ~~~(linuxMremapMaymove ||| linuxMremapFixed ||| linuxMremapDontunmap) ≠ 0 then
    .error linuxEinval
  else if flags &&& linuxMremapFixed ≠ 0 ∧ flags &&& linuxMremapMaymove = 0 then .error linuxEinval
  else if flags &&& linuxMremapDontunmap ≠ 0 then .error linuxEinval
  else if oldSize = 0 ∨ newSize = 0 ∨ !pageAligned oldAddress then .error linuxEinval
  else
    match pageAlignUp oldSize, pageAlignUp newSize with
    | some oldLength, some newLength =>
      if rangeOverflows oldAddress oldLength then .error linuxEfault else .ok (oldLength, newLength)
    | _, _ => .error linuxEnomem

/-- Where `mremap` moves a mapping to; a fixed range is unmapped first. -/
def mremapTarget (newLength : ℕ) : Except ℕ ℕ × MemProcess :=
  let fixedAddress := (context.syscallArg 4).toNat
  if context.syscallArg 3 &&& linuxMremapFixed ≠ 0 then
    if !pageAligned fixedAddress then (.error linuxEinval, p)
    else if rangeIsUnmapped p.space fixedAddress newLength then (.ok fixedAddress, p)
    else (.ok fixedAddress, p.withSpace (p.space.unmap fixedAddress newLength).space)
  else
    match findUnmappedRange p.space p.mremapNext newLength with
    | none => (.error linuxEnomem, p)
    | some allocated => (.ok allocated, { p with mremapNext := allocated + newLength })

/-- The last part of `mremap`: the pages move to another address. -/
def mremapMove (oldLength newLength : ℕ) (copied : List Byte) : MemOutcome :=
  if context.syscallArg 3 &&& linuxMremapMaymove = 0 then p.fails linuxEnomem
  else
    match mremapTarget context p newLength with
    | (.error error, p) => p.fails error
    | (.ok newAddress, p) =>
      -- the new pages are readable and writable, whatever the old ones were
      let mapped := p.space.map newAddress newLength readWrite host.alloc
      let p := p.withSpace mapped.space
      match mapped.result with
      | .error e => p.fails (memoryErrorToLinux e)
      | .ok () =>
        let written := if copied.isEmpty then ⟨.ok (), p.space, none⟩ else p.space.write newAddress copied
        let p := p.withSpace written.space
        match written.result with
        | .error e => (p.withSpace (p.space.unmap newAddress newLength).space).fails (memoryErrorToLinux e)
        | .ok () =>
          (p.withSpace (p.space.unmap (context.syscallArg 0).toNat oldLength).space).returnValue newAddress

/-- `mremap` once the old pages are read. -/
def mremapRead (oldLength newLength : ℕ) (copied : List Byte) : MemOutcome :=
  let oldAddress := (context.syscallArg 0).toNat
  if newLength ≤ oldLength then
    (p.withSpace (p.space.unmap ((oldAddress + newLength) % 2 ^ 64) (oldLength - newLength)).space).returnValue
      oldAddress
  else
    -- the additions are those of 64-bit words
    let oldEnd := (oldAddress + oldLength) % 2 ^ 64
    let growth := newLength - oldLength
    if oldEnd ≤ 2 ^ 64 - 1 - growth ∧ rangeIsUnmapped p.space oldEnd growth then
      let mapped := p.space.map oldEnd growth readWrite host.growAlloc
      let p := p.withSpace mapped.space
      match mapped.result with
      | .ok () => { p with mremapNext := max p.mremapNext (oldEnd + growth) }.returnValue oldAddress
      | .error _ => mremapMove context host p oldLength newLength copied
    else mremapMove context host p oldLength newLength copied

def sysMremap : MemOutcome :=
  if !handles context kind syscallMremap then none
  else
    match mremapArgs context with
    | .error error => p.fails error
    | .ok (oldLength, newLength) =>
      match host.copyError with
      | some error => p.fails error
      | none =>
        match p.space.read (context.syscallArg 0).toNat (min oldLength newLength) with
        | .error e => p.fails (memoryErrorToLinux e)
        | .ok copied => mremapRead context host p oldLength newLength copied

/-- The handlers, in the order they are tried. -/
def memSyscall : MemOutcome :=
  (sysBrk context kind host p).or <| (sysMmap context kind host p).or <|
    (sysMunmap context kind p).or <| (sysMprotect context kind p).or <| sysMremap context kind host p

end Handlers
end X86Sim.Linux
