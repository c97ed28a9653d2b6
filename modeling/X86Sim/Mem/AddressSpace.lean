import X86Sim.Lib.ByteMask
import X86Sim.Uop

/-!
# Guest address spaces (`addrspace.cpp`)

Pages, their contents, and the shadow maps: read, write, execute and dirty, each
one bit per page number. Addresses are numbers below `2 ^ 64`. The mutating
operations return the address range whose decoded code they drop
(`invalidate_decoded_code`), since the code cache belongs to the machine.

* `write_frame`: a host write changes bytes of its own range only.
* `copyFromUser_setdirty`: a fetch does not depend on the dirty bits.
-/

namespace X86Sim

abbrev Byte := BitVec 8

def addressSpaceBits : ℕ := 48
def addressSpaceSize : ℕ := 2 ^ 48
def pageBits : ℕ := 12
def kPageSize : ℕ := 4096

structure Protection where
  read : Bool
  write : Bool
  execute : Bool
  deriving DecidableEq

def Protection.none : Protection := ⟨false, false, false⟩

inductive MemoryError
  | unalignedAddress | zeroSize | unmappedAddress | outOfMemory | mappingFailed
  deriving DecidableEq

/-- `mapped` and `bytes` are `mapped_mem_`: the page starts that have a page, and
what the pages hold. Bytes outside mapped pages are never looked at. -/
structure AddressSpace where
  mapped : ℕ → Bool
  bytes : ℕ → Byte
  readmap : ℕ → Bool
  writemap : ℕ → Bool
  execmap : ℕ → Bool
  dirtymap : ℕ → Bool
  /-- Whether `machine_` points to the machine. -/
  machine : Bool

def pageFloor (value : ℕ) : ℕ := value - value % kPageSize

def pageCeil (value : ℕ) : Option ℕ :=
  if value > 2 ^ 64 - 1 - (kPageSize - 1) then none
  else some (pageFloor (value + (kPageSize - 1)))

def rangeOverflows (start : ℕ) (size : ℕ) : Bool := size != 0 && start > 2 ^ 64 - 1 - (size - 1)

def pageid (address : ℕ) : ℕ := address % addressSpaceSize / kPageSize

namespace AddressSpace

variable (m : AddressSpace)

/-- `AddressSpace()` when `machine` is false, `AddressSpace(machine)` when true. -/
def init (machine : Bool) : AddressSpace where
  mapped _ := false
  bytes _ := 0
  readmap _ := false
  writemap _ := false
  execmap _ := false
  dirtymap _ := false
  machine := machine

/-! ### Shadow maps -/

/-- `make_accessible` and `make_inaccessible`: the pages of a range get bit `v`. -/
def makeRange (address : ℕ) (size : ℕ) (top : ℕ → Bool) (v : Bool) : ℕ → Bool :=
  let address := address % addressSpaceSize
  let firstpage := address / kPageSize
  let lastpage := (address + size + (2 ^ 64 - 1)) % 2 ^ 64 / kPageSize
  fun page => if firstpage ≤ page ∧ page ≤ lastpage then v else top page

def setattr (start : ℕ) (size : ℕ) (prot : Protection) : AddressSpace :=
  { m with
    readmap := makeRange start size m.readmap prot.read
    writemap := makeRange start size m.writemap prot.write
    execmap := makeRange start size m.execmap prot.execute }

/-- The first `n` bits of the range, lowest page first. -/
def makeFirst (address : ℕ) (size : ℕ) (top : ℕ → Bool) (v : Bool) (n : ℕ) : ℕ → Bool :=
  fun page =>
    if page < address % addressSpaceSize / kPageSize + n then makeRange address size top v page else top page

/-- `setattr` when it can set `bits` bits only: those of the read map come first, then
those of the write map. A chunk of a map is allocated with its first bit, set or cleared. -/
def setattrFirst (start : ℕ) (size : ℕ) (prot : Protection) (bits : ℕ) : AddressSpace :=
  let numPages := size / kPageSize
  { m with
    readmap := makeFirst start size m.readmap prot.read bits
    writemap := makeFirst start size m.writemap prot.write (bits - numPages)
    execmap := makeFirst start size m.execmap prot.execute (bits - 2 * numPages) }

def protectionAt (address : ℕ) : Protection :=
  ⟨m.readmap (pageid address), m.writemap (pageid address), m.execmap (pageid address)⟩

def fastcheck (addr : ℕ) (top : ℕ → Bool) : Bool :=
  if addr / addressSpaceSize ≠ 0 then false else top (pageid addr)

def check (address : ℕ) (prot : Protection) : Bool :=
  (!prot.read || fastcheck address m.readmap) &&
  (!prot.write || fastcheck address m.writemap) &&
  (!prot.execute || fastcheck address m.execmap)

/-- A machine frame number back to an address. -/
def ofMfn (mfn : ℕ) : ℕ := mfn * kPageSize % 2 ^ 64

def isdirty (mfn : ℕ) : Bool := fastcheck (ofMfn mfn) m.dirtymap

def setdirty (mfn : ℕ) : AddressSpace :=
  { m with dirtymap := Function.update m.dirtymap (pageid (ofMfn mfn)) true }

def cleardirty (mfn : ℕ) : AddressSpace :=
  { m with dirtymap := Function.update m.dirtymap (pageid (ofMfn mfn)) false }

/-- `page_virt_to_mapped`: the host pointer to a guest byte, kept as the address. -/
def pageVirtToMapped (addr : ℕ) : Option ℕ :=
  if m.mapped (pageFloor addr) then some addr else none

/-! ### Host operations -/

/-- The insertions of `map_or_throw`: `num_pages` zeroed pages from `start`. -/
def insertPages (start : ℕ) (numPages : ℕ) : AddressSpace :=
  { m with
    mapped := fun p => m.mapped p || (p % kPageSize == 0 && start ≤ p && p < start + numPages * kPageSize)
    bytes := fun a => if start ≤ a ∧ a < start + numPages * kPageSize then 0 else m.bytes a }

/-- The steps of `map_or_throw` that may allocate: the pages, and their bits in each of
the three maps. -/
def mapSteps (numPages : ℕ) : ℕ := 4 * numPages

/-- `map_or_throw`; `alloc` is the number of its steps before the one, if any, whose
allocation fails. The pages inserted and the bits set by then stay. -/
def mapOrThrow (start : ℕ) (size : ℕ) (prot : Protection) (alloc : ℕ) :
    Except MemoryError Unit × AddressSpace :=
  let start := pageFloor start
  match pageCeil size with
  | none => (.error .outOfMemory, m)
  | some alignedSize =>
    let numPages := alignedSize / kPageSize
    if alloc < numPages then (.error .outOfMemory, m.insertPages start alloc)
    else if alloc < mapSteps numPages then
      (.error .outOfMemory, (m.insertPages start numPages).setattrFirst start alignedSize prot (alloc - numPages))
    else (.ok (), (m.insertPages start numPages).setattr start alignedSize prot)

/-- A host operation's result, the space after it, and the range it passes to
`invalidate_decoded_code`, if it reaches that call. -/
structure Effect where
  result : Except MemoryError Unit
  space : AddressSpace
  invalidated : Option (ℕ × ℕ)

def map (start : ℕ) (size : ℕ) (prot : Protection) (alloc : ℕ) : Effect :=
  if size = 0 then ⟨.error .zeroSize, m, none⟩
  else if rangeOverflows start size then ⟨.error .mappingFailed, m, none⟩
  else
    match m.mapOrThrow start size prot alloc with
    | (.error e, m') => ⟨.error e, m', none⟩
    | (.ok (), m') => ⟨.ok (), m', some (start, size)⟩

/-- The page starts from `start` up to `stop`. -/
def pagesOf (start stop : ℕ) : List ℕ :=
  (List.range ((stop - start) / kPageSize)).map fun i => start + i * kPageSize

def unmap (start : ℕ) (size : ℕ) : Effect :=
  if size = 0 ∨ rangeOverflows start size then ⟨.ok (), m, none⟩
  else
    let start := pageFloor start
    match pageCeil ((start + size) % 2 ^ 64) with
    | none => ⟨.ok (), m, none⟩
    | some stop =>
      let len := (stop + (2 ^ 64 - start)) % 2 ^ 64
      let m := { m with mapped := fun p => if p ∈ pagesOf start stop then false else m.mapped p }
      ⟨.ok (), m.setattr start len .none, some (start, len)⟩

def protect (start : ℕ) (size : ℕ) (prot : Protection) : Effect :=
  if size = 0 then ⟨.error .zeroSize, m, none⟩
  else if rangeOverflows start size then ⟨.error .unmappedAddress, m, none⟩
  else
    let start := pageFloor start
    match pageCeil ((start + size) % 2 ^ 64) with
    | none => ⟨.error .unmappedAddress, m, none⟩
    | some stop =>
      if (pagesOf start stop).all m.mapped then
        let len := (stop + (2 ^ 64 - start)) % 2 ^ 64
        ⟨.ok (), m.setattr start len prot, some (start, len)⟩
      else ⟨.error .unmappedAddress, m, none⟩

/-- The `memcpy` of one chunk into its page. -/
def copyIn (addr : ℕ) (chunk : List Byte) : AddressSpace :=
  { m with
    bytes := fun a => if addr ≤ a ∧ a < addr + chunk.length then chunk.getD (a - addr) 0 else m.bytes a }

/-- The loop of `write`, one page's share of the bytes per turn. -/
def writeLoop : ℕ → AddressSpace → ℕ → List Byte → Except MemoryError Unit × AddressSpace
  | 0, m, _, _ => (.ok (), m)
  | fuel + 1, m, addr, data =>
    if data.isEmpty then (.ok (), m)
    else
      match m.pageVirtToMapped addr with
      | none => (.error .unmappedAddress, m)
      | some dst =>
        let chunk := min data.length (kPageSize - addr % kPageSize)
        writeLoop fuel (m.copyIn dst (data.take chunk)) (addr + chunk) (data.drop chunk)

/-- `write`. It marks no page dirty and drops no decoded code. -/
def write (start : ℕ) (data : List Byte) : Effect :=
  if data.isEmpty then ⟨.error .zeroSize, m, none⟩
  else if rangeOverflows start data.length then ⟨.error .unmappedAddress, m, none⟩
  else
    let r := writeLoop data.length m start data
    ⟨r.1, r.2, none⟩

/-- The bytes of a range. -/
def readRange (start : ℕ) (n : ℕ) : List Byte := (List.range n).map fun i => m.bytes (start + i)

/-- The loop of `read`. -/
def readLoop : ℕ → ℕ → ℕ → Except MemoryError (List Byte)
  | 0, _, _ => .ok []
  | fuel + 1, addr, n =>
    if n = 0 then .ok []
    else
      match m.pageVirtToMapped addr with
      | none => .error .unmappedAddress
      | some src =>
        let chunk := min n (kPageSize - addr % kPageSize)
        (readLoop fuel (addr + chunk) (n - chunk)).map (m.readRange src chunk ++ ·)

def read (start : ℕ) (n : ℕ) : Except MemoryError (List Byte) :=
  if n = 0 then .error .zeroSize
  else if rangeOverflows start n then .error .unmappedAddress
  else m.readLoop n start n

/-- Some mapped page has this page number; `mapped_mem_` is keyed by 64-bit
addresses, page numbers by their low 48 bits. -/
def hasPage (page : ℕ) : Bool :=
  (List.range (2 ^ 16)).any fun hi => m.mapped (hi * addressSpaceSize + page * kPageSize)

/-- `AddressSpace(const AddressSpace&)`, also behind `operator=` and
`clone_deep`: the mapped pages with their contents and protection. Nothing is
dirty in the copy. -/
def copy : AddressSpace where
  mapped := m.mapped
  bytes := m.bytes
  readmap page := m.hasPage page && m.readmap page
  writemap page := m.hasPage page && m.writemap page
  execmap page := m.hasPage page && m.execmap page
  dirtymap _ := false
  machine := m.machine

/-! ### Accesses of the cores -/

/-- The eight bytes from `a`, as one word. -/
def loadChunk (a : ℕ) : W64 := ByteMask.ofBytes fun i => m.bytes (a + i)

/-- `storemask`: the bytes of `data` under the mask go to the eight bytes from `a`. -/
def storemask (a : ℕ) (data : W64) (bytemask : BitVec 8) : AddressSpace :=
  { m with
    bytes := fun x =>
      if a ≤ x ∧ x < a + 8 ∧ bytemask.getLsbD (x - a) then ByteMask.byteAt data (x - a)
      else m.bytes x }

/-- What `copy_from_user` delivers: the bytes it could read, the error code and the
faulting address of a short read. -/
structure FetchWindow where
  insnbytes : List Byte
  pfec : PageFaultErrorCode
  faultaddr : ℕ
  deriving DecidableEq

/-- `copy_from_user` of at most a page. -/
def copyFromUser (addr : ℕ) (bytes : ℕ) (forexec : Bool) : FetchWindow :=
  let readable := m.check addr ⟨true, false, false⟩
  let executable := !forexec || m.check addr ⟨false, false, true⟩
  if !readable || (forexec && !executable) then
    ⟨[], ⟨readable, false, true, forexec && !executable⟩, addr⟩
  else
    let n := min (kPageSize - addr % kPageSize) bytes
    if n = bytes then ⟨m.readRange addr n, .none, 0⟩
    else
      let next := (addr + n) % 2 ^ 64
      let readable := m.check next ⟨true, false, false⟩
      let executable := !forexec || m.check next ⟨false, false, true⟩
      if !readable || (forexec && !executable) then
        ⟨m.readRange addr n, ⟨readable, false, true, forexec && !executable⟩, next⟩
      else ⟨m.readRange addr n ++ m.readRange next (bytes - n), .none, 0⟩

/-- `copy_to_user` of at most a page: the memory after it, and the frames it marks
dirty on the way, also when the second page refuses the write. -/
def copyToUser (target : ℕ) (source : List Byte) : AddressSpace × List ℕ :=
  if !m.check target ⟨false, true, false⟩ then (m, [])
  else
    let mfn := target / kPageSize
    let nlo := min (kPageSize - target % kPageSize) source.length
    if nlo = source.length then ((m.setdirty mfn).copyIn target source, [mfn])
    else
      let next := (target + nlo) % 2 ^ 64
      if !m.check next ⟨false, true, false⟩ then (m.setdirty mfn, [mfn])
      else
        ((((m.setdirty mfn).copyIn next (source.drop nlo)).copyIn target (source.take nlo)).setdirty
          (next / kPageSize), [mfn, next / kPageSize])

/-! ### Frame facts -/

@[simp] theorem setdirty_bytes (mfn : ℕ) : (m.setdirty mfn).bytes = m.bytes := rfl
@[simp] theorem cleardirty_bytes (mfn : ℕ) : (m.cleardirty mfn).bytes = m.bytes := rfl

@[simp] theorem check_setdirty (mfn : ℕ) (a : ℕ) (p : Protection) :
    (m.setdirty mfn).check a p = m.check a p := rfl
@[simp] theorem check_cleardirty (mfn : ℕ) (a : ℕ) (p : Protection) :
    (m.cleardirty mfn).check a p = m.check a p := rfl

/-- A fetch does not depend on the dirty bits. -/
@[simp] theorem copyFromUser_setdirty (mfn : ℕ) (a : ℕ) (n : ℕ) (x : Bool) :
    (m.setdirty mfn).copyFromUser a n x = m.copyFromUser a n x := rfl
@[simp] theorem copyFromUser_cleardirty (mfn : ℕ) (a : ℕ) (n : ℕ) (x : Bool) :
    (m.cleardirty mfn).copyFromUser a n x = m.copyFromUser a n x := rfl

/-- A frame number of 36 bits keeps its own dirty bit. -/
theorem pageid_ofMfn {mfn : ℕ} (h : mfn < 2 ^ 36) : pageid (ofMfn mfn) = mfn := by
  simp only [pageid, ofMfn, kPageSize, addressSpaceSize]
  omega

theorem isdirty_eq {mfn : ℕ} (h : mfn < 2 ^ 36) : m.isdirty mfn = m.dirtymap mfn := by
  have hsmall : ofMfn mfn / addressSpaceSize = 0 := by
    simp only [ofMfn, kPageSize, addressSpaceSize]; omega
  simp only [isdirty, fastcheck, hsmall, ne_eq, not_true_eq_false, if_false, pageid_ofMfn h]

theorem isdirty_cleardirty {p q : ℕ} (hp : p < 2 ^ 36) (hq : q < 2 ^ 36) :
    (m.cleardirty q).isdirty p = if p = q then false else m.isdirty p := by
  rw [isdirty_eq _ hp, isdirty_eq _ hp]
  simp only [cleardirty, pageid_ofMfn hq, Function.update_apply]

/-- Marking a frame sets the dirty bit of its low 36 bits and keeps every other. -/
theorem isdirty_setdirty {p : ℕ} (hp : p < 2 ^ 36) (mfn : ℕ) :
    (m.setdirty mfn).isdirty p = if p = pageid (ofMfn mfn) then true else m.isdirty p := by
  rw [isdirty_eq _ hp, isdirty_eq _ hp]
  simp only [setdirty, Function.update_apply]

/-- A guest write marks the frames it says it marks and clears no mark. -/
theorem isdirty_copyToUser {p : ℕ} (hp : p < 2 ^ 36) (target : ℕ) (source : List Byte) :
    (m.copyToUser target source).1.isdirty p =
      (m.isdirty p || (m.copyToUser target source).2.any fun mfn => p == pageid (ofMfn mfn)) := by
  have hcopy : ∀ (m : AddressSpace) a l, (m.copyIn a l).isdirty p = m.isdirty p := fun _ _ _ => rfl
  have hset : ∀ (m : AddressSpace) mfn,
      (m.setdirty mfn).isdirty p = (m.isdirty p || p == pageid (ofMfn mfn)) := by
    intro m mfn
    rw [isdirty_setdirty _ hp]
    by_cases h : p = pageid (ofMfn mfn) <;> simp [h]
  simp only [copyToUser]
  split
  · simp
  · split
    · simp [hcopy, hset]
    · split
      · simp [hset]
      · simp [hcopy, hset, Bool.or_assoc]

/-! Host operations leave the dirty bits alone. -/

theorem map_dirtymap (start size : ℕ) (prot : Protection) (alloc : ℕ) :
    (m.map start size prot alloc).space.dirtymap = m.dirtymap := by
  unfold map mapOrThrow
  split
  · rfl
  · split
    · rfl
    · cases pageCeil size with
      | none => rfl
      | some alignedSize =>
        by_cases hall : alloc < alignedSize / kPageSize
        · simp only [hall, if_true]; rfl
        · by_cases hbits : alloc < mapSteps (alignedSize / kPageSize)
          · simp only [hall, hbits, if_false, if_true]; rfl
          · simp only [hall, hbits, if_false]; rfl

theorem unmap_dirtymap (start size : ℕ) : (m.unmap start size).space.dirtymap = m.dirtymap := by
  unfold unmap
  split
  · rfl
  · dsimp only; split <;> rfl

theorem protect_dirtymap (start size : ℕ) (prot : Protection) :
    (m.protect start size prot).space.dirtymap = m.dirtymap := by
  unfold protect
  split
  · rfl
  · split
    · rfl
    · dsimp only
      split
      · rfl
      · split <;> rfl

theorem writeLoop_dirtymap (fuel : ℕ) (m : AddressSpace) (addr : ℕ) (data : List Byte) :
    (writeLoop fuel m addr data).2.dirtymap = m.dirtymap := by
  induction fuel generalizing m addr data with
  | zero => rfl
  | succ fuel ih =>
    simp only [writeLoop]
    split
    · rfl
    · cases m.pageVirtToMapped addr with
      | none => rfl
      | some dst => simp only [ih]; rfl

theorem write_dirtymap (start : ℕ) (data : List Byte) :
    (m.write start data).space.dirtymap = m.dirtymap := by
  unfold write
  split
  · rfl
  · split
    · rfl
    · exact writeLoop_dirtymap _ _ _ _

theorem copyIn_bytes_of_not_mem {addr a : ℕ} {chunk : List Byte}
    (h : a < addr ∨ addr + chunk.length ≤ a) : (m.copyIn addr chunk).bytes a = m.bytes a := by
  have hout : ¬ (addr ≤ a ∧ a < addr + chunk.length) := by omega
  simp only [copyIn, if_neg hout]

/-- The write loop stays within its range, also when it stops early. -/
theorem writeLoop_frame {a : ℕ} (fuel : ℕ) (m : AddressSpace) (addr : ℕ) (data : List Byte)
    (h : a < addr ∨ addr + data.length ≤ a) : (writeLoop fuel m addr data).2.bytes a = m.bytes a := by
  induction fuel generalizing m addr data with
  | zero => rfl
  | succ fuel ih =>
    simp only [writeLoop]
    split
    · rfl
    · cases hv : m.pageVirtToMapped addr with
      | none => rfl
      | some dst =>
        have hdst : dst = addr := by
          simp only [pageVirtToMapped] at hv; split at hv
          · exact (Option.some.inj hv).symm
          · cases hv
        subst hdst
        have hlen : (data.take (min data.length (kPageSize - dst % kPageSize))).length =
            min data.length (kPageSize - dst % kPageSize) := by simp
        rw [ih]
        · apply copyIn_bytes_of_not_mem; rw [hlen]; omega
        · simp only [List.length_drop]; omega

/-- **A host write changes bytes of its own range only**, whatever it returns. -/
theorem write_frame {start a : ℕ} {data : List Byte}
    (h : a < start ∨ start + data.length ≤ a) : (m.write start data).space.bytes a = m.bytes a := by
  simp only [write]
  split
  · rfl
  · split
    · rfl
    · exact writeLoop_frame _ _ _ _ h

/-- A write loop that does not stop early stores all its bytes. -/
theorem writeLoop_bytes (fuel : ℕ) (m : AddressSpace) (addr : ℕ) (data : List Byte)
    (hfuel : data.length ≤ fuel) (hok : (writeLoop fuel m addr data).1 = .ok ()) {i : ℕ}
    (hi : i < data.length) : (writeLoop fuel m addr data).2.bytes (addr + i) = data.getD i 0 := by
  induction fuel generalizing m addr data i with
  | zero => omega
  | succ fuel ih =>
    have hne : data.isEmpty = false := by
      cases data with
      | nil => simp at hi
      | cons b bs => rfl
    simp only [writeLoop, hne, Bool.false_eq_true, if_false] at hok ⊢
    cases hv : m.pageVirtToMapped addr with
    | none => rw [hv] at hok; cases hok
    | some dst =>
      have hdst : dst = addr := by
        simp only [pageVirtToMapped] at hv; split at hv
        · exact (Option.some.inj hv).symm
        · cases hv
      subst hdst
      simp only [hv] at hok ⊢
      have hpage : dst % kPageSize < kPageSize := Nat.mod_lt _ (by decide)
      set chunk := min data.length (kPageSize - dst % kPageSize) with hchunk
      have hlen : (data.take chunk).length = chunk := by rw [List.length_take]; omega
      by_cases hin : i < chunk
      · -- a byte of this page: the rest of the loop writes above it
        rw [writeLoop_frame _ _ _ _ (Or.inl (by omega))]
        have hcond : dst ≤ dst + i ∧ dst + i < dst + (data.take chunk).length := by omega
        simp only [copyIn, if_pos hcond, Nat.add_sub_cancel_left]
        rw [List.getD_eq_getElem?_getD, List.getD_eq_getElem?_getD, List.getElem?_take_of_lt hin]
      · have hrest := ih (m.copyIn dst (data.take chunk)) (dst + chunk) (data.drop chunk)
          (by rw [List.length_drop]; omega) hok (i := i - chunk) (by rw [List.length_drop]; omega)
        have haddr : dst + chunk + (i - chunk) = dst + i := by omega
        have hidx : chunk + (i - chunk) = i := by omega
        rw [haddr] at hrest
        rw [hrest, List.getD_eq_getElem?_getD, List.getD_eq_getElem?_getD, List.getElem?_drop, hidx]

/-- What a successful host write stores is what its range holds. -/
theorem readRange_write {start : ℕ} {data : List Byte} (hok : (m.write start data).result = .ok ()) :
    (m.write start data).space.readRange start data.length = data := by
  unfold write at hok ⊢
  split at hok
  · cases hok
  · rename_i hne
    split at hok
    · cases hok
    · rename_i hover
      rw [if_neg hne, if_neg hover]
      apply List.ext_getElem
      · simp [readRange]
      · intro i h1 h2
        have hbyte := writeLoop_bytes _ m start data le_rfl hok h2
        simp only [readRange, List.getElem_map, List.getElem_range, hbyte]
        exact List.getD_eq_getElem data 0 h2

end AddressSpace
end X86Sim
