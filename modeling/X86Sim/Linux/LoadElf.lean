import X86Sim.Linux.InitialStack

/-!
# Loading a static ELF file (`x86sim-linux.cpp`, `syscall-linux-posix.cpp`)

`load_elf` and `load_static_exec` check the header, then map and copy the segments one after
the other. A later segment that shares a page with an earlier one replaces the whole page.

* `loadHeaders_spec`: every byte ends up as the last segment covering its page has it.
* `load_right_iff`: when every segment is where it should be.
-/

namespace X86Sim.Linux

open AddressSpace

/-! ### The file -/

/-- The bytes of a file, as many as a vector can hold. -/
structure ElfFile where
  bytes : List Byte
  small : bytes.length < 2 ^ 64

/-- Why a load ends early: an exception, a read outside the file, or a failed assertion of `setattr`. -/
inductive Stop (ε : Type)
  | throws (e : ε)
  | outside
  | assertion

structure Ehdr where
  ident : List Byte
  type : BitVec 16
  machine : BitVec 16
  entry : W64
  phoff : W64
  phentsize : BitVec 16
  phnum : BitVec 16

def Ehdr.ofBytes (b : List Byte) : Ehdr where
  ident := b.take 16
  type := BitVec.ofNat 16 (readLe b 16 2)
  machine := BitVec.ofNat 16 (readLe b 18 2)
  entry := BitVec.ofNat 64 (readLe b 24 8)
  phoff := BitVec.ofNat 64 (readLe b 32 8)
  phentsize := BitVec.ofNat 16 (readLe b 54 2)
  phnum := BitVec.ofNat 16 (readLe b 56 2)

structure Phdr where
  type : BitVec 32
  flags : BitVec 32
  offset : W64
  vaddr : W64
  filesz : W64
  memsz : W64
  deriving DecidableEq

def Phdr.ofBytes (b : List Byte) : Phdr where
  type := BitVec.ofNat 32 (readLe b 0 4)
  flags := BitVec.ofNat 32 (readLe b 4 4)
  offset := BitVec.ofNat 64 (readLe b 8 8)
  vaddr := BitVec.ofNat 64 (readLe b 16 8)
  filesz := BitVec.ofNat 64 (readLe b 32 8)
  memsz := BitVec.ofNat 64 (readLe b 40 8)

def sizeofEhdr : ℕ := 64
def sizeofPhdr : ℕ := 56
def ptLoad : BitVec 32 := 1
def ptInterp : BitVec 32 := 3

/-- Bytes of the file, which must lie inside it. -/
def ElfFile.span {ε : Type} (file : ElfFile) (offset count : ℕ) : Except (Stop ε) (List Byte) :=
  if offset + count ≤ file.bytes.length then .ok ((file.bytes.drop offset).take count) else .error .outside

/-- `read_struct`. -/
def readStruct {ε : Type} (truncated : ε) (file : ElfFile) (offset size : ℕ) : Except (Stop ε) (List Byte) :=
  if offset > file.bytes.length ∨ file.bytes.length - offset < size then .error (.throws truncated)
  else file.span offset size

/-- `protection_from_elf`. -/
def protectionFromElf (flags : BitVec 32) : Protection := ⟨flags.getLsbD 2, flags.getLsbD 1, flags.getLsbD 0⟩

/-! ### The two loaders -/

/-- What the two loaders throw, and their checks of the header and of a segment. -/
structure LoadErrors (ε : Type) where
  memory : StackErrors ε
  truncated : ε
  overflow : ε
  table : ε
  interp : ε
  header : Ehdr → Option ε
  segment : ElfFile → Phdr → Option ε

section

variable {ε : Type} (errors : LoadErrors ε) (file : ElfFile)

def readPhdr (phoff : W64) (i : ℕ) : Except (Stop ε) Phdr :=
  (readStruct errors.truncated file ((phoff.toNat + i * sizeofPhdr) % 2 ^ 64) sizeofPhdr).map Phdr.ofBytes

/-- The loop that looks for `PT_INTERP`. -/
def interpLoop (phoff : W64) : List ℕ → Except (Stop ε) Unit
  | [] => .ok ()
  | i :: rest =>
    match readPhdr errors file phoff i with
    | .error e => .error e
    | .ok p => if p.type = ptInterp then .error (.throws errors.interp) else interpLoop phoff rest

/-- `make_accessible` asserts that the masked range stays within the bitmap. -/
def crosses (start size : ℕ) : Bool := start % addressSpaceSize + size > addressSpaceSize

/-- The body of the loop for a segment that takes memory. -/
def loadSegment (p : Phdr) (alloc : ℕ) (m : AddressSpace) : Except (Stop ε) Unit × AddressSpace :=
  match errors.segment file p with
  | some e => (.error (.throws e), m)
  | none =>
    let mapStart := pageFloor p.vaddr.toNat
    match pageCeil (p.vaddr + p.memsz).toNat with
    | none => (.error (.throws errors.overflow), m)
    | some mapEnd =>
      match checkedMap errors.memory m mapStart (mapEnd - mapStart) (protectionFromElf p.flags) alloc with
      | (.error e, m) => (.error (.throws e), m)
      | (.ok (), m) =>
        if crosses mapStart (mapEnd - mapStart) then (.error .assertion, m)
        else if p.filesz = 0 then (.ok (), m)
        else
          match file.span p.offset.toNat p.filesz.toNat with
          | .error e => (.error e, m)
          | .ok bytes =>
            match checkedWrite errors.memory m p.vaddr.toNat bytes with
            | (.error e, m) => (.error (.throws e), m)
            | (.ok (), m) => (.ok (), m)

/-- `loaded.phdr` after a segment. -/
def phdrAfter (phoff : W64) (p : Phdr) (phdr : W64) : W64 :=
  if phoff ≥ p.offset ∧ phoff < p.offset + p.filesz then p.vaddr + (phoff - p.offset) else phdr

/-- The loop over the program headers; `alloc` tells how many steps each `map` can make. -/
def loadHeaders (phoff : W64) (alloc : ℕ → ℕ) : List ℕ → AddressSpace → W64 → Except (Stop ε) W64 × AddressSpace
  | [], m, phdr => (.ok phdr, m)
  | i :: rest, m, phdr =>
    match readPhdr errors file phoff i with
    | .error e => (.error e, m)
    | .ok p =>
      if p.type ≠ ptLoad ∨ p.memsz = 0 then loadHeaders phoff alloc rest m phdr
      else
        match loadSegment errors file p (alloc i) m with
        | (.error e, m) => (.error e, m)
        | (.ok (), m) => loadHeaders phoff alloc rest m (phdrAfter phoff p phdr)

def loadWith (m : AddressSpace) (alloc : ℕ → ℕ) : Except (Stop ε) LoadedElf × AddressSpace :=
  match readStruct errors.truncated file 0 sizeofEhdr with
  | .error e => (.error e, m)
  | .ok bytes =>
    let header := Ehdr.ofBytes bytes
    match errors.header header with
    | some e => (.error (.throws e), m)
    | none =>
      if header.phoff.toNat > file.bytes.length ∨
          header.phnum.toNat > (file.bytes.length - header.phoff.toNat) / sizeofPhdr then
        (.error (.throws errors.table), m)
      else
        match interpLoop errors file header.phoff (List.range header.phnum.toNat) with
        | .error e => (.error e, m)
        | .ok () =>
          match loadHeaders errors file header.phoff alloc (List.range header.phnum.toNat) m 0 with
          | (.error e, m) => (.error e, m)
          | (.ok phdr, m) => (.ok ⟨header.entry, phdr, header.phentsize.setWidth 64, header.phnum.setWidth 64⟩, m)

end

/-- The messages of `load_elf` about the header, in their order. -/
def elfHeaderMessage (path : String) (h : Ehdr) : Option String :=
  if h.ident.take 4 ≠ [0x7f, 0x45, 0x4c, 0x46] then some (path ++ " is not an ELF file")
  else if h.ident.getD 4 0 ≠ 2 ∨ h.ident.getD 5 0 ≠ 1 then some (path ++ " is not a little-endian ELF64 file")
  else if h.type ≠ 2 then some (path ++ " is not an ET_EXEC executable; PIE/dynamic loading is not supported yet")
  else if h.machine ≠ 62 then some (path ++ " is not an x86-64 ELF executable")
  else if h.phentsize.toNat ≠ sizeofPhdr then some (path ++ " has unsupported program-header size")
  else none

/-- The messages of `load_elf` about a segment, in their order. -/
def elfSegmentMessage (path : String) (file : ElfFile) (p : Phdr) : Option String :=
  if p.filesz > p.memsz then some (path ++ " has invalid segment sizes")
  else if p.offset.toNat > file.bytes.length ∨ p.filesz.toNat > file.bytes.length - p.offset.toNat then
    some (path ++ " has a truncated load segment")
  else if p.vaddr > BitVec.allOnes 64 - p.memsz then some (path ++ " has an overflowing load segment")
  else none

def elfMessages (path : String) : LoadErrors String where
  memory := stackMessages
  truncated := "truncated ELF file"
  overflow := "address range overflow"
  table := path ++ " has truncated program headers"
  interp := path ++ " uses PT_INTERP; dynamic loading is not supported yet"
  header := elfHeaderMessage path
  segment := elfSegmentMessage path

def linuxEnoexec : ℕ := 8

/-- The header check of `load_static_exec`. -/
def execHeaderError (h : Ehdr) : Option ℕ :=
  if h.ident.take 4 ≠ [0x7f, 0x45, 0x4c, 0x46] ∨ h.ident.getD 4 0 ≠ 2 ∨ h.ident.getD 5 0 ≠ 1 ∨ h.type ≠ 2 ∨ h.machine ≠ 62 ∨
      h.phentsize.toNat ≠ sizeofPhdr then
    some linuxEnoexec
  else none

/-- The segment checks of `load_static_exec`, where the overflow comes before the file. -/
def execSegmentError (file : ElfFile) (p : Phdr) : Option ℕ :=
  if p.filesz > p.memsz ∨ p.vaddr > BitVec.allOnes 64 - p.memsz then some linuxEnoexec
  else if p.offset.toNat > file.bytes.length ∨ p.filesz.toNat > file.bytes.length - p.offset.toNat then some linuxEnoexec
  else none

def execLoadErrors : LoadErrors ℕ where
  memory := execStackErrors
  truncated := linuxEnoexec
  overflow := linuxEnoexec
  table := linuxEnoexec
  interp := linuxEnoexec
  header := execHeaderError
  segment := execSegmentError

def loadElf (path : String) : ElfFile → AddressSpace → (ℕ → ℕ) → Except (Stop String) LoadedElf × AddressSpace :=
  loadWith (elfMessages path)

def loadStaticExec : ElfFile → AddressSpace → (ℕ → ℕ) → Except (Stop ℕ) LoadedElf × AddressSpace :=
  loadWith execLoadErrors

/-! ### What a load should leave -/

/-- The byte at an address, where a page is mapped. -/
def contents (m : AddressSpace) (a : ℕ) : Option Byte := if m.mapped (pageFloor a) then some (m.bytes a) else none

namespace Phdr

variable (p : Phdr)

/-- The end of the segment in memory. -/
def stop : ℕ := p.vaddr.toNat + p.memsz.toNat

/-- The address is one of the segment's. -/
def Holds (a : ℕ) : Prop := p.vaddr.toNat ≤ a ∧ a < p.stop

/-- Two segments without a common byte. -/
def Apart (q : Phdr) : Prop := ∀ a, ¬ (p.Holds a ∧ q.Holds a)

def mapStart : ℕ := pageFloor p.vaddr.toNat

def mapEnd : ℕ := pageFloor (p.stop + (kPageSize - 1))

/-- The segment's pages hold the address. -/
def covers (a : ℕ) : Bool := p.mapStart ≤ a && a < p.mapEnd

/-- `setattr` sets the bits of the address, which it reduces to 48 bits. -/
def marks (a : ℕ) : Bool :=
  p.mapStart % addressSpaceSize ≤ a && a < p.mapStart % addressSpaceSize + (p.mapEnd - p.mapStart)

/-- What the segment puts at an address of its pages. -/
def byteAt (file : ElfFile) (a : ℕ) : Byte :=
  if p.vaddr.toNat ≤ a ∧ a < p.vaddr.toNat + p.filesz.toNat then file.bytes.getD (p.offset.toNat + (a - p.vaddr.toNat)) 0 else 0

def protection : Protection := protectionFromElf p.flags

/-- A segment that takes memory. -/
def loads : Bool := p.type == ptLoad && p.memsz != 0

/-- The sizes of the segment fit together, its bytes lie in the file, and its pages below 2^64. -/
def Sound (file : ElfFile) : Prop :=
  p.filesz.toNat ≤ p.memsz.toNat ∧ p.offset.toNat + p.filesz.toNat ≤ file.bytes.length ∧ p.stop ≤ 2 ^ 64 - kPageSize

instance (file : ElfFile) : Decidable (p.Sound file) := inferInstanceAs (Decidable (_ ∧ _ ∧ _))

end Phdr

def fileHeader (file : ElfFile) : Ehdr := Ehdr.ofBytes (file.bytes.take sizeofEhdr)

def phdrAt (file : ElfFile) (phoff : W64) (i : ℕ) : Phdr :=
  Phdr.ofBytes ((file.bytes.drop (phoff.toNat + i * sizeofPhdr)).take sizeofPhdr)

/-- The program headers of the file. -/
def programHeaders (file : ElfFile) : List Phdr :=
  (List.range (fileHeader file).phnum.toNat).map (phdrAt file (fileHeader file).phoff)

/-- The wanted protection is granted. -/
def allows (granted wanted : Protection) : Bool :=
  (!wanted.read || granted.read) && (!wanted.write || granted.write) && (!wanted.execute || granted.execute)

/-- A segment is in memory: its bytes of the file, zeros after them, and its protection on every page. -/
structure SegmentRight (file : ElfFile) (m : AddressSpace) (p : Phdr) : Prop where
  data : ∀ k < p.filesz.toNat, ∃ b, file.bytes[p.offset.toNat + k]? = some b ∧ contents m (p.vaddr.toNat + k) = some b
  zeros : ∀ k < p.memsz.toNat, p.filesz.toNat ≤ k → contents m (p.vaddr.toNat + k) = some 0
  grants : ∀ a, p.Holds a → m.check (pageFloor a) p.protection = true

/-- All segments apart from the others are in memory, and the table can be read at the address returned. -/
structure LoadRight (file : ElfFile) (m : AddressSpace) (loaded : LoadedElf) : Prop where
  segments : ∀ before p after, (programHeaders file).filter (·.type == ptLoad) = before ++ p :: after →
    (∀ q ∈ before ++ after, p.Apart q) → SegmentRight file m p
  table : loaded.phdr ≠ 0 → ∀ k < (fileHeader file).phnum.toNat * sizeofPhdr,
    m.check (loaded.phdr.toNat + k) ⟨true, false, false⟩ = true ∧
      contents m (loaded.phdr.toNat + k) = some (file.bytes.getD ((fileHeader file).phoff.toNat + k) 0)

/-- It throws or leaves the file in memory, never reads outside the file or fails an assertion, and the twin
accepts the same files with the same result. -/
structure LoadElfRight (path : String) (file : ElfFile) (m : AddressSpace) (alloc : ℕ → ℕ) : Prop where
  right : ∀ loaded m', loadElf path file m alloc = (.ok loaded, m') → LoadRight file m' loaded
  inside : ∀ m', loadElf path file m alloc ≠ (.error .outside, m')
  asserts : ∀ m', loadElf path file m alloc ≠ (.error .assertion, m')
  twin : (loadStaticExec file m alloc).2 = (loadElf path file m alloc).2 ∧
    (loadStaticExec file m alloc).1.toOption = (loadElf path file m alloc).1.toOption

/-! ### When it does -/

/-- A header that both loaders accept. -/
def Ehdr.Supported (h : Ehdr) : Prop :=
  h.ident.take 4 = [0x7f, 0x45, 0x4c, 0x46] ∧ h.ident.getD 4 0 = 2 ∧ h.ident.getD 5 0 = 1 ∧ h.type = 2 ∧ h.machine = 62 ∧
    h.phentsize.toNat = sizeofPhdr

/-- The file starts with an accepted header, holds its table and names no interpreter. -/
def HeaderAccepted (file : ElfFile) : Prop :=
  sizeofEhdr ≤ file.bytes.length ∧ (fileHeader file).Supported ∧
    (fileHeader file).phoff.toNat + (fileHeader file).phnum.toNat * sizeofPhdr ≤ file.bytes.length ∧
      ∀ p ∈ programHeaders file, p.type ≠ ptInterp

inductive Verdict
  | throws | asserts | fits
  deriving DecidableEq

/-- What happens to one segment: an exception, a failed assertion, or neither. -/
def Phdr.verdict (file : ElfFile) (p : Phdr) (alloc : ℕ) : Verdict :=
  if ¬ p.Sound file ∨ alloc < mapSteps ((p.mapEnd - p.mapStart) / kPageSize) then .throws
  else if crosses p.mapStart (p.mapEnd - p.mapStart) then .asserts
  else .fits

/-- What happens to the segments with the given numbers, up to the first that does not fit. -/
def firstVerdict (file : ElfFile) (phoff : W64) (alloc : ℕ → ℕ) : List ℕ → Verdict
  | [] => .fits
  | i :: rest =>
    if (phdrAt file phoff i).loads then
      match (phdrAt file phoff i).verdict file (alloc i) with
      | .fits => firstVerdict file phoff alloc rest
      | other => other
    else firstVerdict file phoff alloc rest

def loadVerdict (file : ElfFile) (alloc : ℕ → ℕ) : Verdict :=
  firstVerdict file (fileHeader file).phoff alloc (List.range (fileHeader file).phnum.toNat)

/-- The last of the segments with a property. -/
def lastWith (f : Phdr → Bool) : List Phdr → Option Phdr
  | [] => none
  | p :: rest => (lastWith f rest).or (if f p then some p else none)

/-- The segments that take memory. -/
def segmentsOf (file : ElfFile) : List Phdr := (programHeaders file).filter Phdr.loads

/-- The byte that the last segment over its page puts at an address. -/
def placed (m : AddressSpace) (file : ElfFile) (segs : List Phdr) (a : ℕ) : Option Byte :=
  match lastWith (·.covers a) segs with
  | some p => some (p.byteAt file a)
  | none => contents m a

/-- The protection of the last segment that sets the bits of an address. -/
def granted (m : AddressSpace) (segs : List Phdr) (a : ℕ) : Protection :=
  match lastWith (·.marks a) segs with
  | some p => p.protection
  | none => m.protectionAt a

/-- The segment's own page stays, or the last segment over the page loses only zeros and no permission. A segment
without memory must have no bytes in the file that are not there anyway. -/
structure SegmentFits (m : AddressSpace) (file : ElfFile) (p : Phdr) : Prop where
  empty : p.memsz = 0 → ∀ k < p.filesz.toNat, ∃ b, file.bytes[p.offset.toNat + k]? = some b ∧
    placed m file (segmentsOf file) (p.vaddr.toNat + k) = some b
  data : p.memsz ≠ 0 → ∀ k < p.filesz.toNat, lastWith (·.covers (p.vaddr.toNat + k)) (segmentsOf file) = some p ∨
    file.bytes.getD (p.offset.toNat + k) 0 = 0
  pages : ∀ a, p.Holds a → p.protection = .none ∨
    a < addressSpaceSize ∧ allows (granted m (segmentsOf file) a) p.protection = true

/-- The address of the table, as the loop finds it. -/
def tableAddress (file : ElfFile) : W64 :=
  (segmentsOf file).foldl (fun phdr p => phdrAfter (fileHeader file).phoff p phdr) 0

/-- Every byte of the table is put there by the last segment over its page, and that page can be read. -/
def TableFits (m : AddressSpace) (file : ElfFile) : Prop :=
  tableAddress file ≠ 0 → ∀ k < (fileHeader file).phnum.toNat * sizeofPhdr,
    (tableAddress file).toNat + k < addressSpaceSize ∧
      (granted m (segmentsOf file) ((tableAddress file).toNat + k)).read = true ∧
        placed m file (segmentsOf file) ((tableAddress file).toNat + k) =
          some (file.bytes.getD ((fileHeader file).phoff.toNat + k) 0)

/-- The loader throws, or all its segments and its table fit. -/
def LoadFits (file : ElfFile) (m : AddressSpace) (alloc : ℕ → ℕ) : Prop :=
  ¬ HeaderAccepted file ∨ loadVerdict file alloc = .throws ∨
    (loadVerdict file alloc = .fits ∧ TableFits m file ∧
      ∀ before p after, (programHeaders file).filter (·.type == ptLoad) = before ++ p :: after →
        (∀ q ∈ before ++ after, p.Apart q) → SegmentFits m file p)

/-! ### The two loaders agree -/

section Twin

variable {ε ε' : Type} {errors : LoadErrors ε} {errors' : LoadErrors ε'} {file : ElfFile}

/-- Two results that are the same value, or both errors. -/
inductive SameResult {α : Type} : Except ε α → Except ε' α → Prop
  | error (e : ε) (e' : ε') : SameResult (.error e) (.error e')
  | ok (v : α) : SameResult (.ok v) (.ok v)

/-- Checks of the same kind pass together or fail together. -/
theorem checks_same {x : Option ε} {x' : Option ε'} (h : x.isSome = x'.isSome) :
    (x = none ∧ x' = none) ∨ ∃ e e', x = some e ∧ x' = some e' := by
  cases x with
  | none =>
    cases x' with
    | none => exact .inl ⟨rfl, rfl⟩
    | some e' => cases h
  | some e =>
    cases x' with
    | none => cases h
    | some e' => exact .inr ⟨e, e', rfl, rfl⟩

theorem span_same (offset count : ℕ) :
    SameResult (file.span offset count : Except (Stop ε) (List Byte)) (file.span offset count : Except (Stop ε') (List Byte)) := by
  simp only [ElfFile.span]
  by_cases hin : offset + count ≤ file.bytes.length
  · rw [if_pos hin, if_pos hin]
    exact .ok _
  · rw [if_neg hin, if_neg hin]
    exact .error _ _

theorem readStruct_same (e : ε) (e' : ε') (offset size : ℕ) :
    SameResult (readStruct e file offset size) (readStruct e' file offset size) := by
  simp only [readStruct]
  by_cases hout : offset > file.bytes.length ∨ file.bytes.length - offset < size
  · rw [if_pos hout, if_pos hout]
    exact .error _ _
  · rw [if_neg hout, if_neg hout]
    exact span_same offset size

theorem readPhdr_same (phoff : W64) (i : ℕ) : SameResult (readPhdr errors file phoff i) (readPhdr errors' file phoff i) := by
  simp only [readPhdr]
  have hread := @readStruct_same ε ε' file errors.truncated errors'.truncated
    ((phoff.toNat + i * sizeofPhdr) % 2 ^ 64) sizeofPhdr
  generalize readStruct errors.truncated file _ sizeofPhdr = r at hread
  generalize readStruct errors'.truncated file _ sizeofPhdr = r' at hread
  cases hread with
  | error e e' => exact .error _ _
  | ok v => exact .ok _

theorem interpLoop_same (phoff : W64) (is : List ℕ) :
    SameResult (interpLoop errors file phoff is) (interpLoop errors' file phoff is) := by
  induction is with
  | nil => exact .ok _
  | cons i rest ih =>
    simp only [interpLoop]
    have hread := @readPhdr_same ε ε' errors errors' file phoff i
    generalize readPhdr errors file phoff i = r at hread
    generalize readPhdr errors' file phoff i = r' at hread
    cases hread with
    | error e e' => exact .error _ _
    | ok p =>
      dsimp only
      by_cases hinterp : p.type = ptInterp
      · rw [if_pos hinterp, if_pos hinterp]
        exact .error _ _
      · rw [if_neg hinterp, if_neg hinterp]
        exact ih

variable (hheader : ∀ h, (errors.header h).isSome = (errors'.header h).isSome)
  (hsegment : ∀ p, (errors.segment file p).isSome = (errors'.segment file p).isSome)

include hsegment

theorem loadSegment_same (p : Phdr) (alloc : ℕ) (m : AddressSpace) :
    SameRun (loadSegment errors file p alloc m) (loadSegment errors' file p alloc m) := by
  simp only [loadSegment]
  obtain ⟨hseg, hseg'⟩ | ⟨e, e', hseg, hseg'⟩ := checks_same (hsegment p)
  · rw [hseg, hseg']
    dsimp only
    cases pageCeil (p.vaddr + p.memsz).toNat with
    | none => exact .error _ _ _
    | some mapEnd =>
      dsimp only
      have hmap := checkedMap_same errors.memory errors'.memory m (pageFloor p.vaddr.toNat)
        (mapEnd - pageFloor p.vaddr.toNat) (protectionFromElf p.flags) alloc
      generalize checkedMap errors.memory m _ _ _ alloc = r at hmap
      generalize checkedMap errors'.memory m _ _ _ alloc = r' at hmap
      cases hmap with
      | error e e' m => exact .error _ _ _
      | ok u m =>
        dsimp only
        -- the errors differ in their texts, and no text decides how the loading goes on
        by_cases hcross : crosses (pageFloor p.vaddr.toNat) (mapEnd - pageFloor p.vaddr.toNat) = true
        · rw [if_pos hcross, if_pos hcross]
          exact .error _ _ _
        · rw [if_neg hcross, if_neg hcross]
          by_cases hzero : p.filesz = 0
          · rw [if_pos hzero, if_pos hzero]
            exact .ok _ _
          · rw [if_neg hzero, if_neg hzero]
            have hspan := @span_same ε ε' file p.offset.toNat p.filesz.toNat
            generalize (file.span p.offset.toNat p.filesz.toNat : Except (Stop ε) (List Byte)) = q at hspan
            generalize (file.span p.offset.toNat p.filesz.toNat : Except (Stop ε') (List Byte)) = q' at hspan
            cases hspan with
            | error e e' => exact .error _ _ _
            | ok bytes =>
              dsimp only
              have hwrite := checkedWrite_same errors.memory errors'.memory m p.vaddr.toNat bytes
              generalize checkedWrite errors.memory m p.vaddr.toNat bytes = w at hwrite
              generalize checkedWrite errors'.memory m p.vaddr.toNat bytes = w' at hwrite
              cases hwrite with
              | error e e' m => exact .error _ _ _
              | ok u m => exact .ok _ _
  · rw [hseg, hseg']
    exact .error _ _ _

theorem loadHeaders_same (phoff : W64) (alloc : ℕ → ℕ) (is : List ℕ) (m : AddressSpace) (phdr : W64) :
    SameRun (loadHeaders errors file phoff alloc is m phdr) (loadHeaders errors' file phoff alloc is m phdr) := by
  induction is generalizing m phdr with
  | nil => exact .ok _ _
  | cons i rest ih =>
    simp only [loadHeaders]
    have hread := @readPhdr_same ε ε' errors errors' file phoff i
    generalize readPhdr errors file phoff i = r at hread
    generalize readPhdr errors' file phoff i = r' at hread
    cases hread with
    | error e e' => exact .error _ _ _
    | ok p =>
      dsimp only
      by_cases hskip : p.type ≠ ptLoad ∨ p.memsz = 0
      · rw [if_pos hskip, if_pos hskip]
        exact ih m phdr
      · rw [if_neg hskip, if_neg hskip]
        have hload := loadSegment_same hsegment p (alloc i) m
        generalize loadSegment errors file p (alloc i) m = w at hload
        generalize loadSegment errors' file p (alloc i) m = w' at hload
        cases hload with
        | error e e' m => exact .error _ _ _
        | ok u m => exact ih _ _

include hheader

theorem loadWith_same (m : AddressSpace) (alloc : ℕ → ℕ) : SameRun (loadWith errors file m alloc) (loadWith errors' file m alloc) := by
  simp only [loadWith]
  have hread := @readStruct_same ε ε' file errors.truncated errors'.truncated 0 sizeofEhdr
  generalize readStruct errors.truncated file 0 sizeofEhdr = r at hread
  generalize readStruct errors'.truncated file 0 sizeofEhdr = r' at hread
  cases hread with
  | error e e' => exact .error _ _ _
  | ok bytes =>
    dsimp only
    set header := Ehdr.ofBytes bytes
    obtain ⟨hh, hh'⟩ | ⟨e, e', hh, hh'⟩ := checks_same (hheader header)
    · rw [hh, hh']
      dsimp only
      by_cases htable : header.phoff.toNat > file.bytes.length ∨
          header.phnum.toNat > (file.bytes.length - header.phoff.toNat) / sizeofPhdr
      · rw [if_pos htable, if_pos htable]
        exact .error _ _ _
      · rw [if_neg htable, if_neg htable]
        have hinterp := @interpLoop_same ε ε' errors errors' file header.phoff
          (List.range header.phnum.toNat)
        generalize interpLoop errors file header.phoff (List.range header.phnum.toNat) = q at hinterp
        generalize interpLoop errors' file header.phoff (List.range header.phnum.toNat) = q' at hinterp
        cases hinterp with
        | error e e' => exact .error _ _ _
        | ok u =>
          dsimp only
          have hloop := loadHeaders_same hsegment header.phoff alloc (List.range header.phnum.toNat) m 0
          generalize loadHeaders errors file header.phoff alloc (List.range header.phnum.toNat) m 0 = w at hloop
          generalize loadHeaders errors' file header.phoff alloc (List.range header.phnum.toNat) m 0 = w' at hloop
          cases hloop with
          | error e e' m => exact .error _ _ _
          | ok phdr m => exact .ok _ _
    · rw [hh, hh']
      exact .error _ _ _

end Twin

/-! ### The checks -/

theorem elfHeaderMessage_none_iff (path : String) (h : Ehdr) : elfHeaderMessage path h = none ↔ h.Supported := by
  unfold elfHeaderMessage Ehdr.Supported
  split
  · rename_i hbad
    exact iff_of_false (by simp) fun hgood => hbad hgood.1
  split
  · rename_i hbad
    refine iff_of_false (by simp) fun hgood => ?_
    obtain hbad | hbad := hbad
    · exact hbad hgood.2.1
    · exact hbad hgood.2.2.1
  split
  · rename_i hbad
    exact iff_of_false (by simp) fun hgood => hbad hgood.2.2.2.1
  split
  · rename_i hbad
    exact iff_of_false (by simp) fun hgood => hbad hgood.2.2.2.2.1
  split
  · rename_i hbad
    exact iff_of_false (by simp) fun hgood => hbad hgood.2.2.2.2.2
  · refine iff_of_true rfl ?_
    simp_all

theorem execHeaderError_none_iff (h : Ehdr) : execHeaderError h = none ↔ h.Supported := by
  unfold execHeaderError Ehdr.Supported
  split
  · rename_i hbad
    refine iff_of_false (by simp) fun hgood => ?_
    simp_all
  · refine iff_of_true rfl ?_
    simp_all

/-- The sizes fit together, the bytes lie in the file and the end does not wrap. -/
def Phdr.Checked (p : Phdr) (file : ElfFile) : Prop :=
  p.filesz.toNat ≤ p.memsz.toNat ∧ p.offset.toNat + p.filesz.toNat ≤ file.bytes.length ∧ p.stop < 2 ^ 64

theorem overflow_iff (p : Phdr) : p.vaddr > BitVec.allOnes 64 - p.memsz ↔ 2 ^ 64 ≤ p.stop := by
  have hmem := p.memsz.isLt
  have hvaddr := p.vaddr.isLt
  rw [gt_iff_lt, BitVec.lt_def, BitVec.toNat_sub, BitVec.toNat_allOnes, Phdr.stop]
  omega

theorem elfSegmentMessage_none_iff (path : String) (file : ElfFile) (p : Phdr) :
    elfSegmentMessage path file p = none ↔ p.Checked file := by
  have hover := overflow_iff p
  unfold elfSegmentMessage Phdr.Checked
  split
  · rename_i hbad
    rw [gt_iff_lt, BitVec.lt_def] at hbad
    exact iff_of_false (by simp) fun hgood => by omega
  split
  · rename_i hbad
    exact iff_of_false (by simp) fun hgood => by omega
  split
  · rename_i hbad
    rw [hover] at hbad
    exact iff_of_false (by simp) fun hgood => by omega
  · rename_i hsize hfile hwrap
    rw [gt_iff_lt, BitVec.lt_def] at hsize
    rw [hover] at hwrap
    exact iff_of_true rfl ⟨by omega, by omega, by omega⟩

theorem execSegmentError_none_iff (file : ElfFile) (p : Phdr) : execSegmentError file p = none ↔ p.Checked file := by
  have hover := overflow_iff p
  unfold execSegmentError Phdr.Checked
  split
  · rename_i hbad
    rw [gt_iff_lt, BitVec.lt_def, hover] at hbad
    exact iff_of_false (by simp) fun hgood => by omega
  split
  · rename_i hbad
    exact iff_of_false (by simp) fun hgood => by omega
  · rename_i hsize hfile
    rw [gt_iff_lt, BitVec.lt_def, hover] at hsize
    exact iff_of_true rfl ⟨by omega, by omega, by omega⟩

/-- Checks that accept the same make options of the same kind. -/
theorem isSome_eq_of_none_iff {α β : Type} {x : Option α} {y : Option β} {P : Prop} (hx : x = none ↔ P) (hy : y = none ↔ P) :
    x.isSome = y.isSome := by
  cases x with
  | none =>
    rw [hy.2 (hx.1 rfl)]
    rfl
  | some v =>
    cases y with
    | none => cases hx.2 (hy.1 rfl)
    | some w => rfl

/-- **`load_static_exec` accepts the same files with the same result.** -/
theorem loadStaticExec_same (path : String) (file : ElfFile) (m : AddressSpace) (alloc : ℕ → ℕ) :
    SameRun (loadElf path file m alloc) (loadStaticExec file m alloc) :=
  loadWith_same (fun h => isSome_eq_of_none_iff (elfHeaderMessage_none_iff path h) (execHeaderError_none_iff h))
    (fun p => isSome_eq_of_none_iff (elfSegmentMessage_none_iff path file p) (execSegmentError_none_iff file p)) m alloc

/-! ### One segment -/

section Segment

variable {ε : Type} {errors : LoadErrors ε} {file : ElfFile} {m m' : AddressSpace} {p : Phdr} {alloc : ℕ}

theorem toNat_pos_of_ne {x : W64} (h : x ≠ 0) : 0 < x.toNat := by
  rw [Nat.pos_iff_ne_zero]
  intro hzero
  exact h (BitVec.eq_of_toNat_eq hzero)

/-- The pages of a segment that fits. -/
theorem Phdr.Sound.whole (hs : p.Sound file) (hmem : p.memsz ≠ 0) :
    Whole p.mapStart (p.mapEnd - p.mapStart) ∧ p.mapStart ≤ p.vaddr.toNat ∧ p.stop ≤ p.mapEnd ∧ p.mapEnd < 2 ^ 64 := by
  obtain ⟨-, -, hstop⟩ := hs
  have hpos := toNat_pos_of_ne hmem
  have hstopdef : p.stop = p.vaddr.toNat + p.memsz.toNat := rfl
  have hmapStart : p.mapStart = p.vaddr.toNat - p.vaddr.toNat % 4096 := rfl
  have hmapEnd : p.mapEnd = p.stop + 4095 - (p.stop + 4095) % 4096 := rfl
  have hpage : kPageSize = 4096 := rfl
  have haligned : p.mapStart % 4096 = 0 := by omega
  have hwhole : (p.mapEnd - p.mapStart) % 4096 = 0 := by omega
  exact ⟨⟨haligned, hwhole, by omega⟩, by omega, by omega, by omega⟩

/-- Mapping whole pages replaces what they hold by zeros and sets the bits of the masked range. -/
theorem contents_map {start len : ℕ} {prot : Protection} (hw : Whole start len) (a : ℕ) :
    contents ((m.insertPages start (len / kPageSize)).setattr start len prot) a =
      if start ≤ a ∧ a < start + len then some 0 else contents m a := by
  have hnum : len / kPageSize * kPageSize = len := Nat.div_mul_cancel (Nat.dvd_of_mod_eq_zero hw.whole)
  have hfloor := @pageFloor_mem_iff start len a hw.aligned hw.whole
  have haligned : pageFloor a % kPageSize = 0 := by
    simp only [pageFloor, kPageSize]
    omega
  simp only [contents, setattr, insertPages, hnum, haligned, beq_self_eq_true, Bool.true_and]
  by_cases hin : start ≤ a ∧ a < start + len
  · obtain ⟨hlo, hhi⟩ := hfloor.2 hin
    simp [hin, hlo, hhi]
  · have hout : (decide (start ≤ pageFloor a) && decide (pageFloor a < start + len)) = false := by
      rw [← Bool.not_eq_true, Bool.and_eq_true, decide_eq_true_iff, decide_eq_true_iff]
      exact fun h => hin (hfloor.1 h)
    simp only [if_neg hin, hout, Bool.or_false]

theorem protectionAt_map {start len : ℕ} {prot : Protection} (hw : Whole start len)
    (hin : start % addressSpaceSize + len ≤ addressSpaceSize) {a : ℕ} (ha : a < addressSpaceSize) :
    ((m.insertPages start (len / kPageSize)).setattr start len prot).protectionAt a =
      if start % addressSpaceSize ≤ a ∧ a < start % addressSpaceSize + len then prot else m.protectionAt a := by
  simp only [protectionAt, setattr, insertPages, makeRange_eq _ _ hw.aligned hw.whole hw.pos hin ha]
  split <;> rfl

/-- The bytes of the file, where they lie inside it. -/
theorem span_ok {offset count : ℕ} (hin : offset + count ≤ file.bytes.length) :
    ∃ bytes, (file.span offset count : Except (Stop ε) (List Byte)) = .ok bytes ∧ bytes.length = count ∧
      ∀ k < count, bytes.getD k 0 = file.bytes.getD (offset + k) 0 := by
  refine ⟨(file.bytes.drop offset).take count, ?_, ?_, ?_⟩
  · rw [ElfFile.span, if_pos hin]
  · rw [List.length_take, List.length_drop]
    omega
  · intro k hk
    rw [List.getD_eq_getElem?_getD, List.getElem?_take_of_lt hk, List.getElem?_drop, List.getD_eq_getElem?_getD]

/-- The segment has replaced its pages. -/
structure Placed (file : ElfFile) (p : Phdr) (m m' : AddressSpace) : Prop where
  bytes : ∀ a, contents m' a = if p.covers a then some (p.byteAt file a) else contents m a
  bits : ∀ a < addressSpaceSize, m'.protectionAt a = if p.marks a then p.protection else m.protectionAt a

/-- The checks of a loader, whatever it throws. -/
def LoadErrors.Right (errors : LoadErrors ε) (file : ElfFile) : Prop := ∀ p : Phdr, errors.segment file p = none ↔ p.Checked file

theorem loadSegment_unsound (hright : errors.Right file) (hs : ¬ p.Sound file) :
    ∃ e, loadSegment errors file p alloc m = (.error (.throws e), m) := by
  cases hseg : errors.segment file p with
  | some e =>
    refine ⟨e, ?_⟩
    simp only [loadSegment, hseg]
  | none =>
    obtain ⟨hsize, hfile, hwrap⟩ := (hright p).1 hseg
    have hsum : (p.vaddr + p.memsz).toNat = p.stop := by
      rw [BitVec.toNat_add, Nat.mod_eq_of_lt]
      · rfl
      · exact hwrap
    have hceil : pageCeil (p.vaddr + p.memsz).toNat = none := by
      rw [hsum, pageCeil, if_pos]
      by_contra hno
      refine hs ⟨hsize, hfile, ?_⟩
      simp only [kPageSize] at *
      omega
    refine ⟨errors.overflow, ?_⟩
    simp only [loadSegment, hseg, hceil]

/-- The pages of a sound segment, once they are mapped, hold zeros and have its protection. -/
theorem mapSegment_fits (errs : StackErrors ε) (hs : p.Sound file) (hmem : p.memsz ≠ 0)
    (halloc : mapSteps ((p.mapEnd - p.mapStart) / kPageSize) ≤ alloc) (hcross : crosses p.mapStart (p.mapEnd - p.mapStart) = false) :
    ∃ m1, checkedMap errs m p.mapStart (p.mapEnd - p.mapStart) p.protection alloc = (.ok (), m1) ∧
      (∀ a, contents m1 a = if p.covers a then some 0 else contents m a) ∧
      ∀ a < addressSpaceSize, m1.protectionAt a = if p.marks a then p.protection else m.protectionAt a := by
  obtain ⟨hwhole, hlow, hhigh, hend⟩ := hs.whole hmem
  have hmap := @map_ok m p.mapStart (p.mapEnd - p.mapStart) p.protection alloc hwhole (by omega) (by omega) halloc
  have hin : p.mapStart % addressSpaceSize + (p.mapEnd - p.mapStart) ≤ addressSpaceSize := by
    rw [crosses, decide_eq_false_iff_not] at hcross
    exact Nat.not_lt.1 hcross
  refine ⟨(m.insertPages p.mapStart ((p.mapEnd - p.mapStart) / kPageSize)).setattr p.mapStart (p.mapEnd - p.mapStart)
    p.protection, ?_, ?_, ?_⟩
  · rw [checkedMap, hmap]
    rfl
  · intro a
    rw [contents_map hwhole]
    have hiff : (p.mapStart ≤ a ∧ a < p.mapStart + (p.mapEnd - p.mapStart)) ↔ p.covers a = true := by
      rw [Phdr.covers, Bool.and_eq_true, decide_eq_true_iff, decide_eq_true_iff]
      omega
    simp only [hiff]
  · intro a ha
    rw [protectionAt_map hwhole hin ha]
    simp only [Phdr.marks, Bool.and_eq_true, decide_eq_true_eq]

section Copy

variable {m1 : AddressSpace} (hcontents : ∀ a, contents m1 a = if p.covers a then some 0 else contents m a)
  (hbits : ∀ a < addressSpaceSize, m1.protectionAt a = if p.marks a then p.protection else m.protectionAt a)

include hcontents hbits

/-- A segment without bytes in the file is in place then. -/
theorem placed_of_empty (hzero : p.filesz = 0) : Placed file p m m1 := by
  refine ⟨?_, hbits⟩
  intro a
  have hbyte : p.byteAt file a = 0 := by
    rw [Phdr.byteAt, if_neg]
    rw [hzero]
    change ¬ (p.vaddr.toNat ≤ a ∧ a < p.vaddr.toNat + 0)
    omega
  rw [hcontents, hbyte]

/-- Any other is once its bytes are copied. -/
theorem copySegment_fits (errs : StackErrors ε) (hs : p.Sound file) (hmem : p.memsz ≠ 0) (hne : p.filesz ≠ 0) :
    ∃ bytes m2, (file.span p.offset.toNat p.filesz.toNat : Except (Stop ε) (List Byte)) = .ok bytes ∧
      checkedWrite errs m1 p.vaddr.toNat bytes = (.ok (), m2) ∧ Placed file p m m2 := by
  obtain ⟨hwhole, hlow, hhigh, hend⟩ := hs.whole hmem
  obtain ⟨hsize, hfile, hstop⟩ := id hs
  have hstopdef : p.stop = p.vaddr.toNat + p.memsz.toNat := rfl
  obtain ⟨bytes, hspan, hlength, hget⟩ := @span_ok ε file p.offset.toNat p.filesz.toNat hfile
  have hcovered : ∀ a, p.vaddr.toNat ≤ a → a < p.vaddr.toNat + p.filesz.toNat → p.covers a = true := by
    intro a hlo hhi
    rw [Phdr.covers, Bool.and_eq_true, decide_eq_true_iff, decide_eq_true_iff]
    omega
  have hthere : ∀ i < bytes.length, m1.mapped (pageFloor (p.vaddr.toNat + i)) = true := by
    intro i hi
    have hshow := hcontents (p.vaddr.toNat + i)
    rw [if_pos (hcovered _ (by omega) (by omega)), contents] at hshow
    by_contra hno
    rw [if_neg hno] at hshow
    cases hshow
  have hpos := toNat_pos_of_ne hne
  obtain ⟨m2, hwrite, hwrote⟩ := @checkedWrite_ok m1 p.vaddr.toNat bytes ε errs (by omega) (by omega) hthere
  refine ⟨bytes, m2, hspan, hwrite, ?_, ?_⟩
  · intro a
    by_cases hdata : p.vaddr.toNat ≤ a ∧ a < p.vaddr.toNat + p.filesz.toNat
    · have hoff : p.vaddr.toNat + (a - p.vaddr.toNat) = a := by omega
      have hstored := bytes_of_readRange hwrote.contents (a - p.vaddr.toNat) (by omega)
      have hmapped := hthere (a - p.vaddr.toNat) (by omega)
      rw [hoff] at hstored hmapped
      rw [contents, hwrote.mapped, if_pos hmapped, hstored, hget _ (by omega), if_pos (hcovered a hdata.1 hdata.2), Phdr.byteAt,
        if_pos hdata]
    · have hkept : contents m2 a = contents m1 a := by
        rw [contents, contents, hwrote.mapped, hwrote.frame a (by omega)]
      rw [hkept, hcontents, Phdr.byteAt, if_neg hdata]
  · intro a ha
    rw [hwrote.protection, hbits a ha]

end Copy

/-- What the loop does with a sound segment once the checks have passed. -/
theorem loadSegment_sound (hright : errors.Right file) (hs : p.Sound file) (hmem : p.memsz ≠ 0) :
    (alloc < mapSteps ((p.mapEnd - p.mapStart) / kPageSize) → ∃ e m', loadSegment errors file p alloc m = (.error (.throws e), m')) ∧
      (mapSteps ((p.mapEnd - p.mapStart) / kPageSize) ≤ alloc → crosses p.mapStart (p.mapEnd - p.mapStart) = true →
        ∃ m', loadSegment errors file p alloc m = (.error .assertion, m')) ∧
      (mapSteps ((p.mapEnd - p.mapStart) / kPageSize) ≤ alloc → crosses p.mapStart (p.mapEnd - p.mapStart) = false →
        ∃ m', loadSegment errors file p alloc m = (.ok (), m') ∧ Placed file p m m') := by
  obtain ⟨hwhole, hlow, hhigh, hend⟩ := hs.whole hmem
  obtain ⟨hsize, hfile, hstop⟩ := id hs
  have hpage : kPageSize = 4096 := rfl
  have hsum : (p.vaddr + p.memsz).toNat = p.stop := by
    rw [BitVec.toNat_add, Nat.mod_eq_of_lt]
    · rfl
    · change p.stop < 2 ^ 64
      omega
  have hseg : errors.segment file p = none := (hright p).2 ⟨hsize, hfile, by omega⟩
  have hceil : pageCeil (p.vaddr + p.memsz).toNat = some p.mapEnd := by
    rw [hsum, pageCeil, if_neg]
    · rfl
    · omega
  have hmaps := @map_ok m p.mapStart (p.mapEnd - p.mapStart) p.protection alloc hwhole (by omega) (by omega)
  have hstart : pageFloor p.vaddr.toNat = p.mapStart := rfl
  have hprot : protectionFromElf p.flags = p.protection := rfl
  refine ⟨?_, ?_, ?_⟩
  · -- an allocation fails
    intro halloc
    obtain ⟨m', hmap⟩ := @map_error m p.mapStart (p.mapEnd - p.mapStart) p.protection alloc hwhole (by omega) (by omega) halloc
    have hmapped : checkedMap errors.memory m p.mapStart (p.mapEnd - p.mapStart) p.protection alloc =
        (.error (errors.memory.map .outOfMemory), m') := by
      rw [checkedMap, hmap]
      rfl
    refine ⟨errors.memory.map .outOfMemory, m', ?_⟩
    simp only [loadSegment, hseg, hceil, hstart, hprot, hmapped]
  · -- `map` succeeds, and `make_accessible` then asserts
    intro halloc hcross
    have hmap := hmaps halloc
    have hmapped : checkedMap errors.memory m p.mapStart (p.mapEnd - p.mapStart) p.protection alloc =
        (.ok (), (m.map p.mapStart (p.mapEnd - p.mapStart) p.protection alloc).space) := by
      rw [checkedMap, hmap]
      rfl
    refine ⟨(m.map p.mapStart (p.mapEnd - p.mapStart) p.protection alloc).space, ?_⟩
    simp only [loadSegment, hseg, hceil, hstart, hprot, hmapped, hcross, if_true]
  · intro halloc hcross
    obtain ⟨m1, hmapped, hcontents, hbits⟩ := mapSegment_fits (m := m) errors.memory hs hmem halloc hcross
    by_cases hzero : p.filesz = 0
    · refine ⟨m1, ?_, placed_of_empty hcontents hbits hzero⟩
      simp only [loadSegment, hseg, hceil, hstart, hprot, hmapped, hcross, if_pos hzero, Bool.false_eq_true, if_false]
    · obtain ⟨bytes, m2, hspan, hwrite, hplaced⟩ := copySegment_fits hcontents hbits errors.memory hs hmem hzero
      refine ⟨m2, ?_, hplaced⟩
      simp only [loadSegment, hseg, hceil, hstart, hprot, hmapped, hcross, if_neg hzero, Bool.false_eq_true, if_false, hspan,
        hwrite]

end Segment

/-! ### The loop -/

section Loop

variable {ε : Type} {errors : LoadErrors ε} {file : ElfFile} {m m' m'' : AddressSpace} {p : Phdr} {segs : List Phdr} {phoff : W64}
  {alloc : ℕ → ℕ}

/-- Every byte is as the last segment over its page has it, every permission as the last segment that set it. -/
structure Shown (file : ElfFile) (m m' : AddressSpace) (segs : List Phdr) : Prop where
  bytes : ∀ a, contents m' a = placed m file segs a
  bits : ∀ a < addressSpaceSize, m'.protectionAt a = granted m segs a

theorem Shown.cons (h : Placed file p m m') (hrest : Shown file m' m'' segs) : Shown file m m'' (p :: segs) := by
  constructor
  · intro a
    rw [hrest.bytes, placed, placed, lastWith]
    -- a later segment over the page decides, otherwise this one
    cases lastWith (·.covers a) segs with
    | some q => rfl
    | none =>
      rw [Option.none_or]
      dsimp only
      rw [h.bytes]
      by_cases hcovers : p.covers a = true
      · rw [if_pos hcovers, if_pos hcovers]
      · rw [if_neg hcovers, if_neg hcovers]
  · intro a ha
    rw [hrest.bits a ha, granted, granted, lastWith]
    cases lastWith (·.marks a) segs with
    | some q => rfl
    | none =>
      rw [Option.none_or]
      dsimp only
      rw [h.bits a ha]
      by_cases hmarks : p.marks a = true
      · rw [if_pos hmarks, if_pos hmarks]
      · rw [if_neg hmarks, if_neg hmarks]

/-- The segments among the headers with the given numbers. -/
def segmentsAt (file : ElfFile) (phoff : W64) (is : List ℕ) : List Phdr := (is.map (phdrAt file phoff)).filter Phdr.loads

theorem loads_iff : p.loads = true ↔ ¬ (p.type ≠ ptLoad ∨ p.memsz = 0) := by
  rw [Phdr.loads, Bool.and_eq_true, beq_iff_eq, bne_iff_ne, not_or, not_not]

theorem memsz_ne_zero_of_loads (h : p.loads = true) : p.memsz ≠ 0 := by
  rw [loads_iff, not_or] at h
  exact h.2

/-- **What the loop over the program headers does**: the first segment that does not fit ends it, and otherwise
every byte is as the last segment over its page has it. -/
theorem loadHeaders_spec (hright : errors.Right file) (is : List ℕ)
    (hread : ∀ i ∈ is, readPhdr errors file phoff i = .ok (phdrAt file phoff i)) (m : AddressSpace) (phdr : W64) :
    match firstVerdict file phoff alloc is with
    | .throws => ∃ e m', loadHeaders errors file phoff alloc is m phdr = (.error (.throws e), m')
    | .asserts => ∃ m', loadHeaders errors file phoff alloc is m phdr = (.error .assertion, m')
    | .fits => ∃ m', loadHeaders errors file phoff alloc is m phdr =
        (.ok ((segmentsAt file phoff is).foldl (fun phdr p => phdrAfter phoff p phdr) phdr), m') ∧
          Shown file m m' (segmentsAt file phoff is) := by
  -- on the headers left; `Placed` carries what the first of them has done over to the rest
  induction is generalizing m phdr with
  | nil => exact ⟨m, rfl, fun _ => rfl, fun _ _ => rfl⟩
  | cons i rest ih =>
    have hfirst := hread i List.mem_cons_self
    have hrest := ih fun j hj => hread j (List.mem_cons_of_mem i hj)
    have hsegs : segmentsAt file phoff (i :: rest) =
        if (phdrAt file phoff i).loads then phdrAt file phoff i :: segmentsAt file phoff rest else segmentsAt file phoff rest := by
      rw [segmentsAt, List.map_cons, List.filter_cons]
      rfl
    by_cases hloads : (phdrAt file phoff i).loads = true
    · have htakes := loads_iff.1 hloads
      have hmem := memsz_ne_zero_of_loads hloads
      rw [firstVerdict, if_pos hloads, hsegs, if_pos hloads]
      by_cases hsound : (phdrAt file phoff i).Sound file
      · obtain ⟨hshort, hasserts, hfits⟩ := @loadSegment_sound ε errors file m (phdrAt file phoff i) (alloc i) hright hsound hmem
        by_cases halloc : alloc i < mapSteps (((phdrAt file phoff i).mapEnd - (phdrAt file phoff i).mapStart) / kPageSize)
        · obtain ⟨e, m', hload⟩ := hshort halloc
          rw [Phdr.verdict, if_pos (.inr halloc)]
          refine ⟨e, m', ?_⟩
          simp only [loadHeaders, hfirst, if_neg htakes, hload]
        · have hno : ¬ (¬ (phdrAt file phoff i).Sound file ∨
              alloc i < mapSteps (((phdrAt file phoff i).mapEnd - (phdrAt file phoff i).mapStart) / kPageSize)) :=
            not_or.2 ⟨not_not.2 hsound, halloc⟩
          rw [Phdr.verdict, if_neg hno]
          cases hcross : crosses (phdrAt file phoff i).mapStart ((phdrAt file phoff i).mapEnd - (phdrAt file phoff i).mapStart) with
          | true =>
            obtain ⟨m', hload⟩ := hasserts (Nat.not_lt.1 halloc) hcross
            refine ⟨m', ?_⟩
            simp only [loadHeaders, hfirst, if_neg htakes, hload]
          | false =>
            -- the segment is in place; the rest goes on from there
            obtain ⟨m1, hload, hplaced⟩ := hfits (Nat.not_lt.1 halloc) hcross
            have hgoes : loadHeaders errors file phoff alloc (i :: rest) m phdr =
                loadHeaders errors file phoff alloc rest m1 (phdrAfter phoff (phdrAt file phoff i) phdr) := by
              simp only [loadHeaders, hfirst, if_neg htakes, hload]
            have hnext := hrest m1 (phdrAfter phoff (phdrAt file phoff i) phdr)
            rw [hgoes]
            simp only [Bool.false_eq_true, if_false]
            cases hverdict : firstVerdict file phoff alloc rest with
            | throws =>
              rw [hverdict] at hnext
              exact hnext
            | asserts =>
              rw [hverdict] at hnext
              exact hnext
            | fits =>
              rw [hverdict] at hnext
              obtain ⟨m', hrun, hshown⟩ := hnext
              exact ⟨m', hrun, .cons hplaced hshown⟩
      · rw [Phdr.verdict, if_pos (.inl hsound)]
        obtain ⟨e, hload⟩ := @loadSegment_unsound ε errors file m (phdrAt file phoff i) (alloc i) hright hsound
        refine ⟨e, m, ?_⟩
        simp only [loadHeaders, hfirst, if_neg htakes, hload]
    · have hskips : (phdrAt file phoff i).type ≠ ptLoad ∨ (phdrAt file phoff i).memsz = 0 := by
        by_contra hno
        exact hloads (loads_iff.2 hno)
      have hgoes : loadHeaders errors file phoff alloc (i :: rest) m phdr = loadHeaders errors file phoff alloc rest m phdr := by
        simp only [loadHeaders, hfirst, if_pos hskips]
      rw [firstVerdict, if_neg hloads, hsegs, if_neg hloads, hgoes]
      exact hrest m phdr

/-- Where the verdict is that all segments fit, they do. -/
theorem sound_of_fits {is : List ℕ} (h : firstVerdict file phoff alloc is = .fits) : ∀ p ∈ segmentsAt file phoff is, p.Sound file := by
  induction is with
  | nil =>
    intro p hp
    cases hp
  | cons i rest ih =>
    intro p hp
    rw [segmentsAt, List.map_cons, List.filter_cons] at hp
    rw [firstVerdict] at h
    by_cases hloads : (phdrAt file phoff i).loads = true
    · rw [if_pos hloads] at h hp
      cases hverdict : (phdrAt file phoff i).verdict file (alloc i) with
      | fits =>
        rw [hverdict] at h
        obtain rfl | hp := List.mem_cons.1 hp
        · by_contra hno
          rw [Phdr.verdict, if_pos (.inl hno)] at hverdict
          cases hverdict
        · exact ih h p hp
      | throws =>
        rw [hverdict] at h
        cases h
      | asserts =>
        rw [hverdict] at h
        cases h
    · rw [if_neg hloads] at h hp
      exact ih h p hp

end Loop

/-! ### The whole function -/

section Load

variable {ε : Type} {errors : LoadErrors ε} {file : ElfFile} {m m' : AddressSpace} {alloc : ℕ → ℕ}

/-- The table lies in the file. -/
theorem readPhdr_ok {phoff : W64} {phnum i : ℕ} (htable : phoff.toNat + phnum * sizeofPhdr ≤ file.bytes.length) (hi : i < phnum) :
    readPhdr errors file phoff i = .ok (phdrAt file phoff i) := by
  have hsmall := file.small
  have hsize : sizeofPhdr = 56 := rfl
  have hin : phoff.toNat + i * sizeofPhdr + sizeofPhdr ≤ file.bytes.length := by
    simp only [hsize] at htable ⊢
    omega
  have hmod : (phoff.toNat + i * sizeofPhdr) % 2 ^ 64 = phoff.toNat + i * sizeofPhdr := Nat.mod_eq_of_lt (by omega)
  rw [readPhdr, hmod, readStruct, if_neg (by omega), ElfFile.span, if_pos hin]
  rfl

theorem readHeader (hlen : sizeofEhdr ≤ file.bytes.length) :
    readStruct errors.truncated file 0 sizeofEhdr = .ok (file.bytes.take sizeofEhdr) := by
  rw [readStruct, if_neg (by omega), ElfFile.span, if_pos (by omega), List.drop_zero]

/-- The loop for `PT_INTERP` throws when there is one. -/
theorem interpLoop_spec {phoff : W64} (is : List ℕ) (hread : ∀ i ∈ is, readPhdr errors file phoff i = .ok (phdrAt file phoff i)) :
    ((∀ i ∈ is, (phdrAt file phoff i).type ≠ ptInterp) → interpLoop errors file phoff is = .ok ()) ∧
      ((∃ i ∈ is, (phdrAt file phoff i).type = ptInterp) → interpLoop errors file phoff is = .error (.throws errors.interp)) := by
  induction is with
  | nil => exact ⟨fun _ => rfl, fun ⟨i, hi, _⟩ => absurd hi (List.not_mem_nil)⟩
  | cons i rest ih =>
    obtain ⟨hnone, hsome⟩ := ih fun j hj => hread j (List.mem_cons_of_mem i hj)
    rw [interpLoop, hread i List.mem_cons_self]
    dsimp only
    by_cases hinterp : (phdrAt file phoff i).type = ptInterp
    · rw [if_pos hinterp]
      exact ⟨fun hall => absurd hinterp (hall i List.mem_cons_self), fun _ => rfl⟩
    · rw [if_neg hinterp]
      refine ⟨fun hall => hnone fun j hj => hall j (List.mem_cons_of_mem i hj), ?_⟩
      rintro ⟨j, hj, hinterp'⟩
      obtain rfl | hj := List.mem_cons.1 hj
      · exact absurd hinterp' hinterp
      · exact hsome ⟨j, hj, hinterp'⟩

/-- A header that is not accepted ends the load with an exception. -/
theorem loadWith_rejects (hheader : ∀ h, errors.header h = none ↔ h.Supported) (hno : ¬ HeaderAccepted file) :
    ∃ e, loadWith errors file m alloc = (.error (.throws e), m) := by
  have hsize : sizeofPhdr = 56 := rfl
  by_cases hlen : sizeofEhdr ≤ file.bytes.length
  · have hread := @readHeader ε errors file hlen
    cases hh : errors.header (fileHeader file) with
    | some e =>
      refine ⟨e, ?_⟩
      rw [fileHeader] at hh
      simp only [loadWith, hread, hh]
    | none =>
      have hsupported := (hheader (fileHeader file)).1 hh
      by_cases htable : (fileHeader file).phoff.toNat > file.bytes.length ∨
          (fileHeader file).phnum.toNat > (file.bytes.length - (fileHeader file).phoff.toNat) / sizeofPhdr
      · refine ⟨errors.table, ?_⟩
        rw [fileHeader] at hh htable
        simp only [loadWith, hread, hh, if_pos htable]
      · have hin : (fileHeader file).phoff.toNat + (fileHeader file).phnum.toNat * sizeofPhdr ≤ file.bytes.length := by
          simp only [hsize] at htable ⊢
          omega
        have hinterp : ∃ i ∈ List.range (fileHeader file).phnum.toNat, (phdrAt file (fileHeader file).phoff i).type = ptInterp := by
          by_contra hnone
          refine hno ⟨hlen, hsupported, hin, ?_⟩
          intro p hp htype
          obtain ⟨i, hi, rfl⟩ := List.mem_map.1 hp
          exact hnone ⟨i, hi, htype⟩
        have hloop := (@interpLoop_spec ε errors file (fileHeader file).phoff (List.range (fileHeader file).phnum.toNat)
          fun i hi => readPhdr_ok hin (List.mem_range.1 hi)).2 hinterp
        refine ⟨errors.interp, ?_⟩
        rw [fileHeader] at hh htable hloop
        simp only [loadWith, hread, hh, if_neg htable, hloop]
  · refine ⟨errors.truncated, ?_⟩
    rw [loadWith, readStruct, if_pos (.inr (by omega))]

/-- An accepted header leads to the loop over the segments. -/
theorem loadWith_accepts (hheader : ∀ h, errors.header h = none ↔ h.Supported) (h : HeaderAccepted file) :
    loadWith errors file m alloc =
      match loadHeaders errors file (fileHeader file).phoff alloc (List.range (fileHeader file).phnum.toNat) m 0 with
      | (.error e, m) => (.error e, m)
      | (.ok phdr, m) => (.ok ⟨(fileHeader file).entry, phdr, (fileHeader file).phentsize.setWidth 64,
          (fileHeader file).phnum.setWidth 64⟩, m) := by
  obtain ⟨hlen, hsupported, hin, hnone⟩ := h
  have hsize : sizeofPhdr = 56 := rfl
  have hread := @readHeader ε errors file hlen
  have hh := (hheader (fileHeader file)).2 hsupported
  have htable : ¬ ((fileHeader file).phoff.toNat > file.bytes.length ∨
      (fileHeader file).phnum.toNat > (file.bytes.length - (fileHeader file).phoff.toNat) / sizeofPhdr) := by
    simp only [hsize] at hin ⊢
    omega
  have hloop := (@interpLoop_spec ε errors file (fileHeader file).phoff (List.range (fileHeader file).phnum.toNat)
    fun i hi => readPhdr_ok hin (List.mem_range.1 hi)).1 fun i hi => hnone _ (List.mem_map_of_mem hi)
  simp only [fileHeader] at hh htable hloop ⊢
  simp only [loadWith, hread, hh, if_neg htable, hloop]

end Load

/-! ### When the load is right -/

section Right

variable {path : String} {file : ElfFile} {m m' : AddressSpace} {alloc : ℕ → ℕ} {p : Phdr} {before after segs : List Phdr} {a : ℕ}

theorem loadElf_rejects (hno : ¬ HeaderAccepted file) : ∃ e, loadElf path file m alloc = (.error (.throws e), m) :=
  loadWith_rejects (elfHeaderMessage_none_iff path) hno

/-- What an accepted file comes to. -/
theorem loadElf_outcome (h : HeaderAccepted file) :
    match loadVerdict file alloc with
    | .throws => ∃ e m', loadElf path file m alloc = (.error (.throws e), m')
    | .asserts => ∃ m', loadElf path file m alloc = (.error .assertion, m')
    | .fits => ∃ m', loadElf path file m alloc = (.ok ⟨(fileHeader file).entry, tableAddress file,
        (fileHeader file).phentsize.setWidth 64, (fileHeader file).phnum.setWidth 64⟩, m') ∧ Shown file m m' (segmentsOf file) := by
  have haccepts := @loadWith_accepts String (elfMessages path) file m alloc (elfHeaderMessage_none_iff path) h
  have hright : (elfMessages path).Right file := fun p => elfSegmentMessage_none_iff path file p
  have hspec := @loadHeaders_spec String (elfMessages path) file (fileHeader file).phoff alloc hright
    (List.range (fileHeader file).phnum.toNat) (fun i hi => readPhdr_ok h.2.2.1 (List.mem_range.1 hi)) m 0
  rw [loadElf, haccepts, loadVerdict]
  cases hverdict : firstVerdict file (fileHeader file).phoff alloc (List.range (fileHeader file).phnum.toNat) with
  | throws =>
    rw [hverdict] at hspec
    obtain ⟨e, m', hrun⟩ := hspec
    rw [hrun]
    exact ⟨e, m', rfl⟩
  | asserts =>
    rw [hverdict] at hspec
    obtain ⟨m', hrun⟩ := hspec
    rw [hrun]
    exact ⟨m', rfl⟩
  | fits =>
    rw [hverdict] at hspec
    obtain ⟨m', hrun, hshown⟩ := hspec
    rw [hrun]
    exact ⟨m', rfl, hshown⟩

/-- What `check` asks for. -/
theorem check_iff {want : Protection} :
    m.check a want = true ↔ want = .none ∨ a < addressSpaceSize ∧ allows (m.protectionAt a) want = true := by
  by_cases hlt : a < addressSpaceSize
  · rw [check_of_lt hlt]
    constructor
    · intro h
      exact .inr ⟨hlt, h⟩
    · rintro (rfl | ⟨-, h⟩)
      · rfl
      · exact h
  · have hlarge : a / addressSpaceSize ≠ 0 := by
      simp only [addressSpaceSize] at *
      omega
    have hcheck : m.check a want = (!want.read && !want.write && !want.execute) := by
      simp [check, fastcheck, hlarge]
    rw [hcheck]
    constructor
    · intro h
      rw [Bool.and_eq_true, Bool.and_eq_true, Bool.not_eq_true', Bool.not_eq_true', Bool.not_eq_true'] at h
      exact .inl (Protection.eq_none_of h.1.1 h.1.2 h.2)
    · rintro (rfl | ⟨h, -⟩)
      · rfl
      · exact absurd h hlt

theorem lastWith_spec (f : Phdr → Bool) (segs : List Phdr) :
    (∀ q, lastWith f segs = some q → q ∈ segs ∧ f q = true) ∧ ((∃ q ∈ segs, f q = true) → ∃ q, lastWith f segs = some q) := by
  induction segs with
  | nil => exact ⟨fun q h => (by cases h), fun ⟨q, hq, _⟩ => absurd hq List.not_mem_nil⟩
  | cons p rest ih =>
    obtain ⟨hmem, hsome⟩ := ih
    rw [lastWith]
    cases hrest : lastWith f rest with
    | some r =>
      obtain ⟨hr, hf⟩ := hmem r hrest
      refine ⟨?_, fun _ => ⟨r, rfl⟩⟩
      rintro q ⟨⟩
      exact ⟨List.mem_cons_of_mem p hr, hf⟩
    | none =>
      have hnone : ∀ q ∈ rest, f q = false := by
        intro q hq
        by_contra hf
        obtain ⟨r, hr⟩ := hsome ⟨q, hq, by simpa using hf⟩
        rw [hrest] at hr
        cases hr
      rw [Option.none_or]
      by_cases hp : f p = true
      · rw [if_pos hp]
        refine ⟨?_, fun _ => ⟨p, rfl⟩⟩
        rintro q ⟨⟩
        exact ⟨List.mem_cons_self, hp⟩
      · rw [if_neg hp]
        refine ⟨fun q h => (by cases h), ?_⟩
        rintro ⟨q, hq, hf⟩
        obtain rfl | hq := List.mem_cons.1 hq
        · exact absurd hf hp
        · rw [hnone q hq] at hf
          cases hf

/-- At an address of a segment apart from the others, the last segment over the page is that segment or leaves a
zero. -/
theorem contents_of_holds (hshown : Shown file m m' segs) (hsound : ∀ q ∈ segs, q.Sound file) (hmem : p ∈ segs) (hne : p.memsz ≠ 0)
    (hapart : ∀ q ∈ segs, q ≠ p → p.Apart q) (hholds : p.Holds a) :
    (lastWith (·.covers a) segs = some p ∧ contents m' a = some (p.byteAt file a)) ∨
      (lastWith (·.covers a) segs ≠ some p ∧ contents m' a = some 0) := by
  obtain ⟨-, hlow, hhigh, -⟩ := (hsound p hmem).whole hne
  obtain ⟨hfrom, hto⟩ := id hholds
  have hcovers : p.covers a = true := by
    rw [Phdr.covers, Bool.and_eq_true, decide_eq_true_iff, decide_eq_true_iff]
    omega
  obtain ⟨hlast, hsome⟩ := lastWith_spec (·.covers a) segs
  obtain ⟨q, hq⟩ := hsome ⟨p, hmem, hcovers⟩
  have hbytes : contents m' a = some (q.byteAt file a) := by
    rw [hshown.bytes, placed, hq]
  by_cases heq : q = p
  · rw [heq] at hq hbytes
    exact .inl ⟨hq, hbytes⟩
  · refine .inr ⟨?_, ?_⟩
    · rw [hq]
      exact fun h => heq (Option.some.inj h)
    · obtain ⟨hqmem, -⟩ := hlast q hq
      obtain ⟨hsize, -, -⟩ := hsound q hqmem
      have hstop : q.stop = q.vaddr.toNat + q.memsz.toNat := rfl
      -- another segment over the page has no byte of the file there
      have hout : ¬ (q.vaddr.toNat ≤ a ∧ a < q.vaddr.toNat + q.filesz.toNat) := by
        intro hin
        exact hapart q hqmem heq a ⟨hholds, hin.1, by omega⟩
      rw [hbytes, Phdr.byteAt, if_neg hout]

/-- **A segment apart from the others is in memory exactly when it fits.** -/
theorem segment_right_iff (hshown : Shown file m m' (segmentsOf file)) (hsound : ∀ q ∈ segmentsOf file, q.Sound file)
    (hsplit : (programHeaders file).filter (·.type == ptLoad) = before ++ p :: after) (hapart : ∀ q ∈ before ++ after, p.Apart q) :
    SegmentRight file m' p ↔ SegmentFits m file p := by
  have hload : p ∈ programHeaders file ∧ (p.type == ptLoad) = true := by
    have hin : p ∈ (programHeaders file).filter (·.type == ptLoad) := by
      rw [hsplit]
      exact List.mem_append_right _ List.mem_cons_self
    exact List.mem_filter.1 hin
  have hmem : p.memsz ≠ 0 → p ∈ segmentsOf file := by
    intro hne
    refine List.mem_filter.2 ⟨hload.1, ?_⟩
    rw [Phdr.loads, hload.2, Bool.true_and, bne_iff_ne]
    exact hne
  have hothers : ∀ q ∈ segmentsOf file, q ≠ p → p.Apart q := by
    intro q hq hne
    obtain ⟨hin, hloads⟩ := List.mem_filter.1 hq
    rw [Phdr.loads, Bool.and_eq_true] at hloads
    have hlist : q ∈ before ++ p :: after := by
      rw [← hsplit]
      exact List.mem_filter.2 ⟨hin, hloads.1⟩
    apply hapart
    obtain hb | ha := List.mem_append.1 hlist
    · exact List.mem_append_left _ hb
    · obtain rfl | ha := List.mem_cons.1 ha
      · exact absurd rfl hne
      · exact List.mem_append_right _ ha
  have hfloor : ∀ a, pageFloor a < addressSpaceSize ↔ a < addressSpaceSize := by
    intro a
    simp only [pageFloor, kPageSize, addressSpaceSize]
    omega
  have hgrants : ∀ a, m'.check (pageFloor a) p.protection = true ↔
      p.protection = .none ∨ a < addressSpaceSize ∧ allows (granted m (segmentsOf file) a) p.protection = true := by
    intro a
    rw [check_iff, hfloor, protectionAt_pageFloor]
    by_cases hlt : a < addressSpaceSize
    · rw [hshown.bits a hlt]
    · simp [hlt]
  -- each byte comes from the last segment over it: this one, or a page of another with a zero there
  have hcell : p.memsz ≠ 0 → ∀ k < p.memsz.toNat,
      (lastWith (·.covers (p.vaddr.toNat + k)) (segmentsOf file) = some p ∧
        contents m' (p.vaddr.toNat + k) = some (p.byteAt file (p.vaddr.toNat + k))) ∨
      (lastWith (·.covers (p.vaddr.toNat + k)) (segmentsOf file) ≠ some p ∧ contents m' (p.vaddr.toNat + k) = some 0) := by
    intro hne k hk
    have hholds : p.Holds (p.vaddr.toNat + k) := ⟨Nat.le_add_right _ _, Nat.add_lt_add_left hk _⟩
    exact contents_of_holds hshown hsound (hmem hne) hne hothers hholds
  have hbyte : ∀ k < p.filesz.toNat, p.byteAt file (p.vaddr.toNat + k) = file.bytes.getD (p.offset.toNat + k) 0 := by
    intro k hk
    rw [Phdr.byteAt, if_pos ⟨Nat.le_add_right _ _, by omega⟩, Nat.add_sub_cancel_left]
  have hget : ∀ j b, file.bytes[j]? = some b → file.bytes.getD j 0 = b := by
    intro j b hj
    rw [List.getD_eq_getElem?_getD, hj]
    rfl
  constructor
  · intro hright
    refine ⟨?_, ?_, fun a ha => (hgrants a).1 (hright.grants a ha)⟩
    · intro _ k hk
      obtain ⟨b, hfile, hthere⟩ := hright.data k hk
      exact ⟨b, hfile, (hshown.bytes _).symm.trans hthere⟩
    · intro hne k hk
      obtain ⟨hsize, -, -⟩ := hsound p (hmem hne)
      obtain ⟨b, hfile, hthere⟩ := hright.data k hk
      obtain ⟨hlast, -⟩ | ⟨-, hzero⟩ := hcell hne k (by omega)
      · exact .inl hlast
      · rw [hthere] at hzero
        rw [hget _ b hfile]
        exact .inr (Option.some.inj hzero)
  · intro hfits
    refine ⟨?_, ?_, fun a ha => (hgrants a).2 (hfits.pages a ha)⟩
    · intro k hk
      -- an empty segment loads nothing, so the condition asks for its bytes itself
      by_cases hne : p.memsz = 0
      · obtain ⟨b, hfile, hthere⟩ := hfits.empty hne k hk
        exact ⟨b, hfile, (hshown.bytes _).trans hthere⟩
      · obtain ⟨hsize, hinside, -⟩ := hsound p (hmem hne)
        have hin : p.offset.toNat + k < file.bytes.length := by omega
        have hfile : file.bytes[p.offset.toNat + k]? = some (file.bytes.getD (p.offset.toNat + k) 0) := by
          rw [List.getD_eq_getElem?_getD, List.getElem?_eq_getElem hin]
          rfl
        refine ⟨_, hfile, ?_⟩
        obtain ⟨-, hthere⟩ | ⟨hother, hzero⟩ := hcell hne k (by omega)
        · rw [hthere, hbyte k hk]
        · obtain hlast | hnothing := hfits.data hne k hk
          · exact absurd hlast hother
          · rw [hzero, hnothing]
    · intro k hk hpast
      have hne : p.memsz ≠ 0 := by
        intro h
        rw [h] at hk
        exact absurd hk (Nat.not_lt_zero k)
      obtain ⟨-, hthere⟩ | ⟨-, hzero⟩ := hcell hne k hk
      · have hout : ¬ (p.vaddr.toNat ≤ p.vaddr.toNat + k ∧ p.vaddr.toNat + k < p.vaddr.toNat + p.filesz.toNat) := by omega
        rw [hthere, Phdr.byteAt, if_neg hout]
      · exact hzero

/-- The table can be read exactly when it fits. -/
theorem table_right_iff (hshown : Shown file m m' (segmentsOf file)) :
    (tableAddress file ≠ 0 → ∀ k < (fileHeader file).phnum.toNat * sizeofPhdr,
      m'.check ((tableAddress file).toNat + k) ⟨true, false, false⟩ = true ∧
        contents m' ((tableAddress file).toNat + k) = some (file.bytes.getD ((fileHeader file).phoff.toNat + k) 0)) ↔
      TableFits m file := by
  have hread : ∀ a, m'.check a ⟨true, false, false⟩ = true ↔
      a < addressSpaceSize ∧ (granted m (segmentsOf file) a).read = true := by
    intro a
    rw [check_iff]
    by_cases hlt : a < addressSpaceSize
    · rw [hshown.bits a hlt]
      simp [hlt, allows, Protection.none]
    · simp [hlt, Protection.none]
  unfold TableFits
  simp only [hread, hshown.bytes, and_assoc]

/-- A file that is loaded right fits. -/
theorem fits_of_right (h : LoadElfRight path file m alloc) : LoadFits file m alloc := by
  by_cases haccepted : HeaderAccepted file
  · have houtcome := @loadElf_outcome path file m alloc haccepted
    cases hverdict : loadVerdict file alloc with
    | throws => exact .inr (.inl hverdict)
    | asserts =>
      rw [hverdict] at houtcome
      obtain ⟨m', hrun⟩ := houtcome
      exact absurd hrun (h.asserts m')
    | fits =>
      rw [hverdict] at houtcome
      obtain ⟨m', hrun, hshown⟩ := houtcome
      have hright := h.right _ m' hrun
      refine .inr (.inr ⟨hverdict, (table_right_iff hshown).1 hright.table, ?_⟩)
      intro before p after hsplit hapart
      exact (segment_right_iff hshown (sound_of_fits hverdict) hsplit hapart).1 (hright.segments before p after hsplit hapart)
  · exact .inl haccepted

/-- A load that throws has kept its promise. -/
theorem loadElf_right_of_throws {e : String} (hrun : loadElf path file m alloc = (.error (.throws e), m')) :
    LoadElfRight path file m alloc := by
  refine ⟨?_, ?_, ?_, (loadStaticExec_same path file m alloc).same⟩
  · intro loaded m'' hok
    rw [hrun] at hok
    cases (Prod.mk.inj hok).1
  · intro m'' hout
    rw [hrun] at hout
    cases (Prod.mk.inj hout).1
  · intro m'' hassert
    rw [hrun] at hassert
    cases (Prod.mk.inj hassert).1

/-- So has one that leaves the file in memory. -/
theorem loadElf_right_of_loads {loaded : LoadedElf} (hrun : loadElf path file m alloc = (.ok loaded, m'))
    (hright : LoadRight file m' loaded) : LoadElfRight path file m alloc := by
  refine ⟨?_, ?_, ?_, (loadStaticExec_same path file m alloc).same⟩
  · intro loaded' m'' hok
    rw [hrun] at hok
    obtain ⟨hloaded, rfl⟩ := Prod.mk.inj hok
    obtain rfl := Except.ok.inj hloaded
    exact hright
  · intro m'' hout
    rw [hrun] at hout
    cases (Prod.mk.inj hout).1
  · intro m'' hassert
    rw [hrun] at hassert
    cases (Prod.mk.inj hassert).1

/-- **The file is loaded right, or refused, exactly when** every segment apart from the others keeps its pages or
loses only zeros and no permission to the segments after it, and the table can be read. -/
theorem load_right_iff (path : String) (file : ElfFile) (m : AddressSpace) (alloc : ℕ → ℕ) :
    LoadElfRight path file m alloc ↔ LoadFits file m alloc := by
  constructor
  · exact fits_of_right
  · intro hfits
    by_cases haccepted : HeaderAccepted file
    · have houtcome := @loadElf_outcome path file m alloc haccepted
      cases hverdict : loadVerdict file alloc with
      | throws =>
        rw [hverdict] at houtcome
        obtain ⟨e, m', hrun⟩ := houtcome
        exact loadElf_right_of_throws hrun
      | asserts =>
        obtain hno | hthrows | ⟨hloads, -⟩ := hfits
        · exact absurd haccepted hno
        · rw [hverdict] at hthrows
          cases hthrows
        · rw [hverdict] at hloads
          cases hloads
      | fits =>
        rw [hverdict] at houtcome
        obtain ⟨m', hrun, hshown⟩ := houtcome
        obtain hno | hthrows | ⟨-, htable, hsegments⟩ := hfits
        · exact absurd haccepted hno
        · rw [hverdict] at hthrows
          cases hthrows
        · refine loadElf_right_of_loads hrun ⟨?_, (table_right_iff hshown).2 htable⟩
          intro before p after hsplit hapart
          exact (segment_right_iff hshown (sound_of_fits hverdict) hsplit hapart).2 (hsegments before p after hsplit hapart)
    · obtain ⟨e, hrun⟩ := @loadElf_rejects path file m alloc haccepted
      exact loadElf_right_of_throws hrun

end Right

/-! ### Two segments in one page -/

def codeSegment : Phdr := ⟨1, 5, 176, 0x401000, 16, 16⟩

def dataSegment : Phdr := ⟨1, 6, 176, 0x401800, 0, 16⟩

/-- A program header as it lies in a file. -/
def Phdr.toBytes (p : Phdr) : List Byte :=
  leBytes p.type.toNat 4 ++ leBytes p.flags.toNat 4 ++ leBytes p.offset.toNat 8 ++ leBytes p.vaddr.toNat 8 ++
    leBytes p.vaddr.toNat 8 ++ leBytes p.filesz.toNat 8 ++ leBytes p.memsz.toNat 8 ++ leBytes 4096 8

/-- Sixteen bytes of code, and zeroed data in the same page. -/
def sharedPage : ElfFile where
  bytes := [0x7f, 0x45, 0x4c, 0x46, 2, 1, 1] ++ leBytes 0 9 ++ leBytes 2 2 ++ leBytes 62 2 ++ leBytes 1 4 ++ leBytes 0x401000 8 ++
    leBytes 64 8 ++ leBytes 0 8 ++ leBytes 0 4 ++ leBytes 64 2 ++ leBytes 56 2 ++ leBytes 2 2 ++ leBytes 0 6 ++
    codeSegment.toBytes ++ dataSegment.toBytes ++ List.replicate 16 0x90
  small := by decide +kernel

theorem sharedPage_headers : programHeaders sharedPage = [codeSegment, dataSegment] := by decide +kernel

/-- The data segment replaces the page of the code. -/
theorem not_load_right : ¬ LoadElfRight "a.out" sharedPage (AddressSpace.init true) fun _ => 4 := by
  intro h
  obtain hno | hthrows | ⟨-, -, hsegments⟩ := fits_of_right h
  · apply hno
    refine ⟨by decide +kernel, ⟨by decide +kernel, by decide +kernel, by decide +kernel, by decide +kernel, by decide +kernel,
      by decide +kernel⟩, by decide +kernel, ?_⟩
    rw [sharedPage_headers]
    decide
  · have hverdict : loadVerdict sharedPage (fun _ => 4) = .fits := by decide +kernel
    rw [hverdict] at hthrows
    cases hthrows
  · have hsplit : (programHeaders sharedPage).filter (·.type == ptLoad) = [] ++ codeSegment :: [dataSegment] := by
      rw [sharedPage_headers]
      rfl
    have hapart : ∀ q ∈ ([] ++ [dataSegment] : List Phdr), codeSegment.Apart q := by
      intro q hq a hboth
      obtain rfl := List.mem_singleton.1 hq
      obtain ⟨⟨-, hbefore⟩, hafter, -⟩ := hboth
      have hend : a < 0x401010 := hbefore
      have hfrom : 0x401800 ≤ a := hafter
      omega
    have hsegs : segmentsOf sharedPage = [codeSegment, dataSegment] := by
      rw [segmentsOf, sharedPage_headers]
      rfl
    obtain hlast | hzero := (hsegments [] codeSegment [dataSegment] hsplit hapart).data (by decide) 0 (by decide)
    · rw [hsegs] at hlast
      revert hlast
      decide +kernel
    · revert hzero
      decide +kernel

end X86Sim.Linux
