import X86Sim.Linux.Abi
import X86Sim.Mem.Copies

/-!
# The initial stack (`x86sim-linux.cpp`, `syscall-linux-posix.cpp`)

The strings, sixteen random bytes and the vector of a new program, written from the top of
the stack downwards by `setup_stack` and again by `setup_exec_stack`.

* `pushStrings_spec`: where the strings go, and when they do not fit.
* `setup_right_iff`: when the stack is laid out as it should be.
-/

namespace X86Sim.Linux

open AddressSpace

/-- What the stack says about the loaded file. -/
structure LoadedElf where
  entry : W64
  phdr : W64
  phent : W64
  phnum : W64

/-- What the two functions throw. -/
structure StackErrors (ε : Type) where
  map : MemoryError → ε
  write : MemoryError → ε
  environment : ε
  argument : ε

/-- The difference of two `address_t`, which wraps. -/
def subAddress (a b : ℕ) : ℕ := if b ≤ a then a - b else 2 ^ 64 - (b - a)

/-- `cursor &= ~0xf`. -/
def align16 (cursor : ℕ) : ℕ := cursor - cursor % 16

def appendWord (value : W64) : List Byte := (List.range 8).map fun i => (value >>> (i * 8)).setWidth 8

def randomBytes : List Byte :=
  [0x52, 0x41, 0x53, 0x50, 0x73, 0x69, 0x6d, 0x21, 0x10, 0x32, 0x54, 0x76, 0x98, 0xba, 0xdc, 0xfe]

/-- The words of the auxiliary vector. -/
def auxWords (loaded : LoadedElf) (randomAddress : W64) : List W64 :=
  (if loaded.phdr ≠ 0 then [3, loaded.phdr, 4, loaded.phent, 5, loaded.phnum] else []) ++
    [6, BitVec.ofNat 64 kPageSize, 7, 0, 8, 0, 9, loaded.entry, 11, 1000, 12, 1000, 13, 1000, 14, 1000, 17, 100, 23, 0,
      25, randomAddress, 0, 0]

/-- `words`. -/
def stackWords (argvAddresses envpAddresses : List ℕ) (loaded : LoadedElf) (randomAddress : W64) : List W64 :=
  BitVec.ofNat 64 argvAddresses.length :: (argvAddresses.map (BitVec.ofNat 64) ++
    0 :: (envpAddresses.map (BitVec.ofNat 64) ++ 0 :: auxWords loaded randomAddress))

section

variable {ε : Type} (errors : StackErrors ε)

def checkedMap (m : AddressSpace) (start size : ℕ) (prot : Protection) (alloc : ℕ) : Except ε Unit × AddressSpace :=
  let mapped := m.map start size prot alloc
  (mapped.result.mapError errors.map, mapped.space)

def checkedWrite (m : AddressSpace) (start : ℕ) (bytes : List Byte) : Except ε Unit × AddressSpace :=
  let written := m.write start bytes
  (written.result.mapError errors.write, written.space)

/-- The loops over the strings, which go from the last one to the first: the addresses and the cursor. -/
def pushStrings (overflow : ε) (base : ℕ) : List (List Byte) → ℕ → AddressSpace → Except ε (List ℕ × ℕ) × AddressSpace
  | [], cursor, m => (.ok ([], cursor), m)
  | value :: rest, cursor, m =>
    match pushStrings overflow base rest cursor m with
    | (.error e, m) => (.error e, m)
    | (.ok (addresses, cursor), m) =>
      if value.length + 1 > subAddress cursor base then (.error overflow, m)
      else
        let cursor := subAddress cursor (value.length + 1)
        match checkedWrite errors m cursor (value ++ [0]) with
        | (.error e, m) => (.error e, m)
        | (.ok (), m) => (.ok (cursor :: addresses, cursor), m)

/-- What both functions do after the strings: the random bytes, which no check precedes, and the vector. -/
def pushVector (base : ℕ) (argvAddresses envpAddresses : List ℕ) (loaded : LoadedElf) (cursor : ℕ) (m : AddressSpace) :
    Except ε ℕ × AddressSpace :=
  let randomAddress := subAddress cursor 16
  match checkedWrite errors m randomAddress randomBytes with
  | (.error e, m) => (.error e, m)
  | (.ok (), m) =>
    let cursor := align16 randomAddress
    let words := stackWords argvAddresses envpAddresses loaded (BitVec.ofNat 64 randomAddress)
    if words.length * 8 > subAddress cursor base then (.error errors.argument, m)
    else
      let cursor := align16 (subAddress cursor (words.length * 8))
      match checkedWrite errors m cursor (words.flatMap appendWord) with
      | (.error e, m) => (.error e, m)
      | (.ok (), m) => (.ok cursor, m)

def setupStackWith (top size : ℕ) (m : AddressSpace) (argv envp : List (List Byte)) (loaded : LoadedElf) (alloc : ℕ) :
    Except ε ℕ × AddressSpace :=
  let base := top - size
  match checkedMap errors m base size ⟨true, true, false⟩ alloc with
  | (.error e, m) => (.error e, m)
  | (.ok (), m) =>
    match pushStrings errors errors.environment base envp top m with
    | (.error e, m) => (.error e, m)
    | (.ok (envpAddresses, cursor), m) =>
      match pushStrings errors errors.argument base argv cursor m with
      | (.error e, m) => (.error e, m)
      | (.ok (argvAddresses, cursor), m) => pushVector errors base argvAddresses envpAddresses loaded cursor m

end

def stackTop : ℕ := 0x7fe000000000
def stackSize : ℕ := 1024 * 1024
def execStackTop : ℕ := 0x7fe000000000
def execStackSize : ℕ := 1024 * 1024

def linuxE2big : ℕ := 7

/-- The messages of `setup_stack`. -/
def stackMessages : StackErrors String where
  map _ := "cannot map guest memory"
  write _ := "cannot write guest memory"
  environment := "environment stack overflow"
  argument := "argument stack overflow"

/-- The error numbers of `setup_exec_stack`. -/
def execStackErrors : StackErrors ℕ where
  map e := if e = .outOfMemory then linuxEnomem else linuxEio
  write := memoryErrorToLinux
  environment := linuxE2big
  argument := linuxE2big

def setupStack : AddressSpace → List (List Byte) → List (List Byte) → LoadedElf → ℕ → Except String ℕ × AddressSpace :=
  setupStackWith stackMessages stackTop stackSize

def setupExecStack : AddressSpace → List (List Byte) → List (List Byte) → LoadedElf → ℕ → Except ℕ ℕ × AddressSpace :=
  setupStackWith execStackErrors execStackTop execStackSize

/-! ### What a stack should be -/

def stackBase : ℕ := stackTop - stackSize

/-- The word of an auxiliary entry that tells where the random bytes are. -/
def atRandom : W64 := 25

/-- The stack of a new program: the vector from `rsp` on, the strings and the random bytes it points to. -/
structure StackLayout (m : AddressSpace) (argv envp : List (List Byte)) (rsp : ℕ) (argvAt envpAt : List ℕ) (randomAt : ℕ)
    (auxv : List (W64 × W64)) (words : List W64) : Prop where
  vector : words = BitVec.ofNat 64 argv.length :: (argvAt.map (BitVec.ofNat 64) ++ 0 :: (envpAt.map (BitVec.ofNat 64) ++
    0 :: (auxv.flatMap (fun entry => [entry.1, entry.2]) ++ [0, 0])))
  entries : ∀ entry ∈ auxv, entry.1 ≠ 0
  random : (atRandom, BitVec.ofNat 64 randomAt) ∈ auxv
  loads : ∀ i, (h : i < words.length) → m.loadChunk (rsp + 8 * i) = words.get ⟨i, h⟩
  argvStrings : List.Forall₂ (fun a value => m.readRange a (value.length + 1) = value ++ [0]) argvAt argv
  envpStrings : List.Forall₂ (fun a value => m.readRange a (value.length + 1) = value ++ [0]) envpAt envp
  apart : List.Pairwise (fun x y : ℕ × ℕ => x.1 + x.2 ≤ y.1 ∨ y.1 + y.2 ≤ x.1)
    ((rsp, 8 * words.length) :: (randomAt, 16) :: (argvAt.zip (argv.map fun value => value.length + 1) ++
      envpAt.zip (envp.map fun value => value.length + 1)))
  inside : ∀ x ∈ (rsp, 8 * words.length) :: (randomAt, 16) :: (argvAt.zip (argv.map fun value => value.length + 1) ++
    envpAt.zip (envp.map fun value => value.length + 1)), stackBase ≤ x.1 ∧ x.1 + x.2 ≤ stackTop

/-- The stack is aligned, mapped and laid out, and nothing below it is written. -/
structure StackRight (m m' : AddressSpace) (argv envp : List (List Byte)) (rsp : ℕ) : Prop where
  aligned : rsp % 16 = 0
  mapped : ∀ a, stackBase ≤ a → a < stackTop → m'.mapped (pageFloor a) = true ∧ m'.protectionAt (pageFloor a) = ⟨true, true, false⟩
  layout : ∃ argvAt envpAt randomAt auxv words, StackLayout m' argv envp rsp argvAt envpAt randomAt auxv words
  below : ∀ a < stackBase, m'.bytes a = m.bytes a

/-- `setup_stack` throws or lays out the stack, and `setup_exec_stack` leaves the same memory and result. -/
structure SetupRight (m : AddressSpace) (argv envp : List (List Byte)) (loaded : LoadedElf) (alloc : ℕ) : Prop where
  right : ∀ rsp m', setupStack m argv envp loaded alloc = (.ok rsp, m') → StackRight m m' argv envp rsp
  twin : (setupExecStack m argv envp loaded alloc).2 = (setupStack m argv envp loaded alloc).2 ∧
    (setupExecStack m argv envp loaded alloc).1.toOption = (setupStack m argv envp loaded alloc).1.toOption

/-- The bytes the strings take. -/
def stringsLength (strings : List (List Byte)) : ℕ := (strings.map fun value => value.length + 1).sum

/-- The words of the vector. -/
def vectorLength (argv envp : List (List Byte)) (loaded : LoadedElf) : ℕ :=
  argv.length + envp.length + if loaded.phdr = 0 then 27 else 33

/-- The strings leave room for the random bytes, or do not fit at all, or the pages below the stack that the
random bytes and the vector would reach are not all mapped. -/
def StackFits (m : AddressSpace) (argv envp : List (List Byte)) (loaded : LoadedElf) (alloc : ℕ) : Prop :=
  alloc < mapSteps (stackSize / kPageSize) ∨ stringsLength envp + stringsLength argv + 16 ≤ stackSize ∨
    stackSize < stringsLength envp + stringsLength argv ∨
    ∃ a, align16 (stackBase - 16 - 8 * vectorLength argv envp loaded) ≤ a ∧ a < stackBase ∧ m.mapped (pageFloor a) = false

/-! ### One write -/

section Writes

variable {m m' m'' : AddressSpace} {start : ℕ} {bytes : List Byte} {ε : Type} {errors : StackErrors ε}

/-- The bytes are stored at `start` and nothing else changes. -/
structure Wrote (m m' : AddressSpace) (start : ℕ) (bytes : List Byte) : Prop where
  mapped : m'.mapped = m.mapped
  protection : ∀ a, m'.protectionAt a = m.protectionAt a
  contents : m'.readRange start bytes.length = bytes
  frame : ∀ a, a < start ∨ start + bytes.length ≤ a → m'.bytes a = m.bytes a

theorem write_result_ok_iff (hpos : 0 < bytes.length) (hfit : start + bytes.length ≤ 2 ^ 64) :
    (m.write start bytes).result = .ok () ↔ ∀ i < bytes.length, m.mapped (pageFloor (start + i)) = true := by
  have hne : bytes.isEmpty = false := by
    rw [List.isEmpty_eq_false_iff]
    exact List.length_pos_iff.1 hpos
  rw [AddressSpace.write, hne, if_neg Bool.false_ne_true, rangeOverflows_eq_false hfit, if_neg Bool.false_ne_true]
  exact (writeLoop_spec bytes.length m start bytes le_rfl).1

/-- On mapped pages the write succeeds. -/
theorem checkedWrite_ok (hpos : 0 < bytes.length) (hfit : start + bytes.length ≤ 2 ^ 64)
    (hmapped : ∀ i < bytes.length, m.mapped (pageFloor (start + i)) = true) :
    ∃ m', checkedWrite errors m start bytes = (.ok (), m') ∧ Wrote m m' start bytes := by
  have hok := (write_result_ok_iff hpos hfit).2 hmapped
  obtain ⟨hprot, hmap⟩ := @write_protections m start bytes
  refine ⟨(m.write start bytes).space, ?_, hmap, hprot, m.readRange_write hok, fun a ha => m.write_frame ha⟩
  rw [checkedWrite, hok]
  rfl

/-- A page that is missing makes it throw. -/
theorem checkedWrite_error (hpos : 0 < bytes.length) (hfit : start + bytes.length ≤ 2 ^ 64)
    (hmissing : ∃ i < bytes.length, m.mapped (pageFloor (start + i)) = false) :
    ∃ e m', checkedWrite errors m start bytes = (.error e, m') := by
  have hno : (m.write start bytes).result ≠ .ok () := by
    rw [Ne, write_result_ok_iff hpos hfit]
    intro hall
    obtain ⟨i, hi, hunmapped⟩ := hmissing
    rw [hall i hi] at hunmapped
    cases hunmapped
  cases hres : (m.write start bytes).result with
  | ok u => exact absurd hres hno
  | error e =>
    refine ⟨errors.write e, (m.write start bytes).space, ?_⟩
    rw [checkedWrite, hres]
    rfl

end Writes

/-! ### The strings -/

/-- Where the strings go, with the last one right below the cursor. -/
def stringAddresses : List (List Byte) → ℕ → List ℕ
  | [], _ => []
  | value :: rest, cursor => (cursor - stringsLength (value :: rest)) :: stringAddresses rest cursor

@[simp] theorem stringsLength_nil : stringsLength [] = 0 := rfl

@[simp] theorem stringsLength_cons (value : List Byte) (rest : List (List Byte)) :
    stringsLength (value :: rest) = value.length + 1 + stringsLength rest := by
  rw [stringsLength, List.map_cons, List.sum_cons, stringsLength]

theorem length_le_stringsLength (strings : List (List Byte)) : strings.length ≤ stringsLength strings := by
  induction strings with
  | nil => exact le_rfl
  | cons value rest ih =>
    rw [stringsLength_cons, List.length_cons]
    omega

@[simp] theorem length_stringAddresses (strings : List (List Byte)) (cursor : ℕ) :
    (stringAddresses strings cursor).length = strings.length := by
  induction strings with
  | nil => rfl
  | cons value rest ih => rw [stringAddresses, List.length_cons, List.length_cons, ih]

section Strings

variable {m m' : AddressSpace} {strings : List (List Byte)} {base cursor : ℕ} {ε : Type} {errors : StackErrors ε} {overflow : ε}

/-- The ranges of the strings. -/
def stringRanges (strings : List (List Byte)) (cursor : ℕ) : List (ℕ × ℕ) :=
  (stringAddresses strings cursor).zip (strings.map fun value => value.length + 1)

theorem stringRanges_inside (hfit : stringsLength strings ≤ cursor) :
    ∀ x ∈ stringRanges strings cursor, cursor - stringsLength strings ≤ x.1 ∧ x.1 + x.2 ≤ cursor := by
  induction strings with
  | nil =>
    intro x hx
    cases hx
  | cons value rest ih =>
    rw [stringsLength_cons] at hfit
    intro x hx
    rw [stringRanges, stringAddresses, List.map_cons, List.zip_cons_cons, List.mem_cons, stringsLength_cons] at hx
    rw [stringsLength_cons]
    obtain rfl | hx := hx
    · dsimp only
      omega
    · obtain ⟨hlo, hhi⟩ := ih (by omega) x hx
      omega

/-- The strings stand in order, each below the next. -/
theorem stringRanges_apart (hfit : stringsLength strings ≤ cursor) :
    (stringRanges strings cursor).Pairwise fun x y => x.1 + x.2 ≤ y.1 := by
  induction strings with
  | nil => exact List.Pairwise.nil
  | cons value rest ih =>
    rw [stringsLength_cons] at hfit
    rw [stringRanges, stringAddresses, List.map_cons, List.zip_cons_cons, stringsLength_cons]
    refine List.Pairwise.cons ?_ (ih (by omega))
    intro x hx
    obtain ⟨hlo, -⟩ := stringRanges_inside (by omega) x hx
    dsimp only
    omega

/-- The strings are stored at their addresses and nothing outside them changes. -/
structure Pushed (m m' : AddressSpace) (strings : List (List Byte)) (cursor : ℕ) : Prop where
  mapped : m'.mapped = m.mapped
  protection : ∀ a, m'.protectionAt a = m.protectionAt a
  contents : List.Forall₂ (fun a value => m'.readRange a (value.length + 1) = value ++ [0]) (stringAddresses strings cursor) strings
  frame : ∀ a, a < cursor - stringsLength strings ∨ cursor ≤ a → m'.bytes a = m.bytes a

theorem subAddress_of_le {a b : ℕ} (h : b ≤ a) : subAddress a b = a - b := by
  rw [subAddress, if_pos h]

theorem readRange_congr {a n : ℕ} (h : ∀ b, a ≤ b → b < a + n → m'.bytes b = m.bytes b) : m'.readRange a n = m.readRange a n := by
  apply List.map_congr_left
  intro i hi
  have hlt := List.mem_range.1 hi
  apply h <;> omega

/-- What is stored above every later write stays. -/
theorem strings_kept (hfit : stringsLength strings ≤ cursor)
    (hframe : ∀ a, cursor - stringsLength strings ≤ a → m'.bytes a = m.bytes a)
    (hstrings : List.Forall₂ (fun a value => m.readRange a (value.length + 1) = value ++ [0]) (stringAddresses strings cursor) strings) :
    List.Forall₂ (fun a value => m'.readRange a (value.length + 1) = value ++ [0]) (stringAddresses strings cursor) strings := by
  induction strings with
  | nil => exact .nil
  | cons value rest ih =>
    rw [stringsLength_cons] at hfit hframe
    rw [stringAddresses] at hstrings ⊢
    obtain ⟨hfirst, hrest⟩ := List.forall₂_cons.1 hstrings
    refine .cons ?_ (ih (by omega) (fun a ha => hframe a (by omega)) hrest)
    rw [stringsLength_cons] at hfirst ⊢
    rw [← hfirst]
    exact readRange_congr fun b hb _ => hframe b hb

/-- **The loop over the strings stores them all** below the cursor where they fit, and throws where they do not. -/
theorem pushStrings_spec (hbase : base ≤ cursor) (hsmall : cursor < 2 ^ 64)
    (hmapped : ∀ a, base ≤ a → a < cursor → m.mapped (pageFloor a) = true) :
    (base + stringsLength strings ≤ cursor → ∃ m', pushStrings errors overflow base strings cursor m =
        (.ok (stringAddresses strings cursor, cursor - stringsLength strings), m') ∧ Pushed m m' strings cursor) ∧
      (cursor < base + stringsLength strings → ∃ m', pushStrings errors overflow base strings cursor m = (.error overflow, m')) := by
  induction strings with
  | nil =>
    refine ⟨fun _ => ⟨m, rfl, rfl, fun _ => rfl, .nil, fun _ _ => rfl⟩, ?_⟩
    intro hover
    rw [stringsLength_nil] at hover
    omega
  | cons value rest ih =>
    obtain ⟨hrest, hrestover⟩ := ih
    simp only [stringsLength_cons]
    -- the loop goes backwards: the strings after this one are stored first
    by_cases hfits : base + stringsLength rest ≤ cursor
    · obtain ⟨m1, hpush, hpushed⟩ := hrest hfits
      have hroom : subAddress (cursor - stringsLength rest) base = cursor - stringsLength rest - base :=
        subAddress_of_le (by omega)
      constructor
      · -- the string goes right below those after it
        intro hfit
        have hcursor : subAddress (cursor - stringsLength rest) (value.length + 1) =
            cursor - stringsLength (value :: rest) := by
          rw [subAddress_of_le (by omega), stringsLength_cons]
          omega
        have hlength : (value ++ [(0 : Byte)]).length = value.length + 1 := by simp
        obtain ⟨m2, hwrite, hwrote⟩ := @checkedWrite_ok m1 (cursor - stringsLength (value :: rest)) (value ++ [0]) ε errors
          (by omega) (by rw [stringsLength_cons]; omega) (by
            intro i hi
            rw [hpushed.mapped, stringsLength_cons]
            apply hmapped <;> omega)
        refine ⟨m2, ?_, hwrote.mapped.trans hpushed.mapped, fun a => (hwrote.protection a).trans (hpushed.protection a), ?_, ?_⟩
        · rw [pushStrings, hpush]
          dsimp only
          rw [hroom, if_neg (by omega), hcursor, hwrite, stringAddresses, stringsLength_cons]
        · rw [stringAddresses]
          have hkept : ∀ a, cursor - stringsLength rest ≤ a → m2.bytes a = m1.bytes a := by
            intro a ha
            apply hwrote.frame
            rw [hlength, stringsLength_cons]
            omega
          refine .cons ?_ (strings_kept (by omega) hkept hpushed.contents)
          rw [← hlength]
          exact hwrote.contents
        · intro a ha
          rw [stringsLength_cons] at ha
          rw [hwrote.frame a (by rw [hlength, stringsLength_cons]; omega), hpushed.frame a (by omega)]
      · intro hover
        refine ⟨m1, ?_⟩
        rw [pushStrings, hpush]
        dsimp only
        rw [hroom, if_pos (by omega)]
    · refine ⟨fun hfit => absurd hfit (by omega), fun _ => ?_⟩
      obtain ⟨m1, hpush⟩ := hrestover (by omega)
      refine ⟨m1, ?_⟩
      rw [pushStrings, hpush]

end Strings

/-! ### The vector -/

section Vector

variable {m m' : AddressSpace} {base cursor n : ℕ} {ε : Type} {errors : StackErrors ε} {argvAddresses envpAddresses : List ℕ}
  {loaded : LoadedElf}

@[simp] theorem length_appendWord (value : W64) : (appendWord value).length = 8 := by
  rw [appendWord, List.length_map, List.length_range]

theorem length_flatMap_appendWord (words : List W64) : (words.flatMap appendWord).length = words.length * 8 := by
  induction words with
  | nil => rfl
  | cons word rest ih =>
    rw [List.flatMap_cons, List.length_append, length_appendWord, ih, List.length_cons]
    omega

theorem appendWord_getD (value : W64) {k : ℕ} (hk : k < 8) : (appendWord value).getD k 0 = ByteMask.byteAt value k := by
  rw [appendWord, List.getD_eq_getElem?_getD, List.getElem?_map, List.getElem?_range hk, Option.map_some, Option.getD_some,
    ByteMask.byteAt, Nat.mul_comm]
  rfl

/-- Words that are stored byte by byte are loaded again. -/
theorem loads_of_bytes {words : List W64} {a : ℕ}
    (h : ∀ j < words.length * 8, m.bytes (a + j) = (words.flatMap appendWord).getD j 0) :
    ∀ i, (hi : i < words.length) → m.loadChunk (a + 8 * i) = words.get ⟨i, hi⟩ := by
  induction words generalizing a with
  | nil =>
    intro i hi
    exact absurd hi (Nat.not_lt_zero i)
  | cons word rest ih =>
    rw [List.length_cons] at h
    intro i hi
    cases i with
    | zero =>
      have hhead : (word :: rest).get ⟨0, hi⟩ = word := rfl
      rw [loadChunk, hhead, ← ByteMask.ofBytes_byteAt word]
      apply ByteMask.ofBytes_congr
      intro k hk
      have hbyte := h k (by omega)
      rw [List.flatMap_cons, List.getD_append _ _ _ _ (by rw [length_appendWord]; exact hk), appendWord_getD word hk] at hbyte
      exact hbyte
    | succ i =>
      have hshift : a + 8 * (i + 1) = a + 8 + 8 * i := by omega
      rw [hshift, List.get_cons_succ]
      apply ih
      intro j hj
      have hbyte := h (8 + j) (by omega)
      rw [List.flatMap_cons, List.getD_append_right _ _ _ _ (by rw [length_appendWord]; omega), length_appendWord,
        Nat.add_sub_cancel_left, ← Nat.add_assoc] at hbyte
      exact hbyte

/-- What a range reads, byte by byte. -/
theorem bytes_of_readRange {a : ℕ} {bytes : List Byte} (h : m.readRange a bytes.length = bytes) :
    ∀ j < bytes.length, m.bytes (a + j) = bytes.getD j 0 := by
  intro j hj
  have hget : (m.readRange a bytes.length).getD j 0 = m.bytes (a + j) := by
    rw [readRange, List.getD_eq_getElem?_getD, List.getElem?_map, List.getElem?_range hj]
    rfl
  rw [← hget, h]

/-- The auxiliary vector as pairs, without the last. -/
def auxEntries (loaded : LoadedElf) (randomAddress : W64) : List (W64 × W64) :=
  (if loaded.phdr ≠ 0 then [(3, loaded.phdr), (4, loaded.phent), (5, loaded.phnum)] else []) ++
    [(6, BitVec.ofNat 64 kPageSize), (7, 0), (8, 0), (9, loaded.entry), (11, 1000), (12, 1000), (13, 1000), (14, 1000),
      (17, 100), (23, 0), (atRandom, randomAddress)]

theorem auxWords_eq (loaded : LoadedElf) (randomAddress : W64) :
    auxWords loaded randomAddress = (auxEntries loaded randomAddress).flatMap (fun entry => [entry.1, entry.2]) ++ [0, 0] := by
  unfold auxWords auxEntries
  split <;> rfl

/-- No entry is the one that ends the vector. -/
theorem auxEntries_ne_zero {randomAddress : W64} : ∀ entry ∈ auxEntries loaded randomAddress, entry.1 ≠ 0 := by
  intro entry hmem
  rw [auxEntries, List.mem_append] at hmem
  obtain hmem | hmem := hmem
  · split at hmem
    · simp only [List.mem_cons, List.not_mem_nil, or_false] at hmem
      obtain rfl | rfl | rfl := hmem <;> dsimp only <;> decide
    · cases hmem
  · simp only [List.mem_cons, List.not_mem_nil, or_false] at hmem
    obtain rfl | rfl | rfl | rfl | rfl | rfl | rfl | rfl | rfl | rfl | rfl := hmem <;> dsimp only [atRandom] <;> decide

theorem random_mem_auxEntries {randomAddress : W64} : (atRandom, randomAddress) ∈ auxEntries loaded randomAddress := by
  rw [auxEntries]
  simp

theorem length_stackWords (argv envp : List (List Byte)) (hargv : argvAddresses.length = argv.length)
    (henvp : envpAddresses.length = envp.length) (randomAddress : W64) :
    (stackWords argvAddresses envpAddresses loaded randomAddress).length = vectorLength argv envp loaded := by
  have haux : (auxWords loaded randomAddress).length = if loaded.phdr = 0 then 24 else 30 := by
    rw [auxWords]
    by_cases hzero : loaded.phdr = 0
    · rw [if_pos hzero, if_neg (not_not.2 hzero)]
      rfl
    · rw [if_neg hzero, if_pos hzero]
      rfl
  rw [stackWords, vectorLength, List.length_cons, List.length_append, List.length_cons, List.length_append, List.length_cons,
    List.length_map, List.length_map, haux, hargv, henvp]
  split <;> omega

theorem align16_le (cursor : ℕ) : align16 cursor ≤ cursor := Nat.sub_le _ _

theorem align16_mod (cursor : ℕ) : align16 cursor % 16 = 0 := by
  unfold align16
  omega

theorem le_align16 {a : ℕ} (ha : a % 16 = 0) (h : a ≤ cursor) : a ≤ align16 cursor := by
  unfold align16
  omega

/-- With room for the random bytes, the vector is stored inside the stack or it throws. -/
theorem pushVector_inside {rsp : ℕ} (haligned : base % 16 = 0) (hroom : base + 16 ≤ cursor) (hsmall : cursor < 2 ^ 64)
    (hmapped : ∀ a, base ≤ a → a < cursor → m.mapped (pageFloor a) = true)
    (hwords : ∀ r, (stackWords argvAddresses envpAddresses loaded r).length = n) (hpos : 0 < n)
    (h : pushVector errors base argvAddresses envpAddresses loaded cursor m = (.ok rsp, m')) :
    rsp % 16 = 0 ∧ base ≤ rsp ∧ rsp + 8 * n + 16 ≤ cursor ∧
      ∃ m1, Wrote m m1 (cursor - 16) randomBytes ∧
        Wrote m1 m' rsp ((stackWords argvAddresses envpAddresses loaded (BitVec.ofNat 64 (cursor - 16))).flatMap appendWord) := by
  have hsub : subAddress cursor 16 = cursor - 16 := subAddress_of_le (by omega)
  have hrandom : randomBytes.length = 16 := rfl
  obtain ⟨m1, hwrite, hwrote⟩ := @checkedWrite_ok m (cursor - 16) randomBytes ε errors (by omega)
    (by omega) (by
      intro i hi
      rw [hrandom] at hi
      apply hmapped <;> omega)
  have hle := align16_le (cursor - 16)
  have hbase : base ≤ align16 (cursor - 16) := le_align16 haligned (by omega)
  have hdiff : subAddress (align16 (cursor - 16)) base = align16 (cursor - 16) - base := subAddress_of_le hbase
  simp only [pushVector, hsub, hwrite, hwords, hdiff] at h
  split at h
  · cases (Prod.mk.inj h).1
  · rename_i hfits
    have hdown : subAddress (align16 (cursor - 16)) (n * 8) = align16 (cursor - 16) - n * 8 :=
      subAddress_of_le (by omega)
    have hlow : base ≤ align16 (align16 (cursor - 16) - n * 8) := le_align16 haligned (by omega)
    have hhigh := align16_le (align16 (cursor - 16) - n * 8)
    have hlength := length_flatMap_appendWord (stackWords argvAddresses envpAddresses loaded (BitVec.ofNat 64 (cursor - 16)))
    rw [hwords] at hlength
    obtain ⟨m2, hwrite2, hwrote2⟩ := @checkedWrite_ok m1 (align16 (align16 (cursor - 16) - n * 8))
      ((stackWords argvAddresses envpAddresses loaded (BitVec.ofNat 64 (cursor - 16))).flatMap appendWord) ε errors
      (by omega) (by omega) (by
        intro i hi
        rw [hwrote.mapped]
        apply hmapped <;> omega)
    simp only [hdown, hwrite2] at h
    obtain ⟨hok, rfl⟩ := Prod.mk.inj h
    obtain rfl := Except.ok.inj hok
    exact ⟨align16_mod _, hlow, by omega, m1, hwrote, hwrote2⟩

/-- Without it, the unchecked decrement carries the vector below the stack: it is written there, or a page is
missing. -/
theorem pushVector_below (haligned : base % 16 = 0) (hbase : base ≤ cursor) (hshort : cursor < base + 16)
    (hsmall : base + 16 < 2 ^ 64) (hdeep : 8 * n + 32 ≤ base)
    (hwords : ∀ r, (stackWords argvAddresses envpAddresses loaded r).length = n) (hpos : 0 < n)
    (hmapped : ∀ a, base ≤ a → a < cursor → m.mapped (pageFloor a) = true) (hpage : base % kPageSize = 0) :
    ((∀ a, align16 (base - 16 - 8 * n) ≤ a → a < base → m.mapped (pageFloor a) = true) →
        ∃ rsp m', pushVector errors base argvAddresses envpAddresses loaded cursor m = (.ok rsp, m') ∧ rsp < base) ∧
      ((∃ a, align16 (base - 16 - 8 * n) ≤ a ∧ a < base ∧ m.mapped (pageFloor a) = false) →
        ∃ e m', pushVector errors base argvAddresses envpAddresses loaded cursor m = (.error e, m')) := by
  have hsub : subAddress cursor 16 = cursor - 16 := subAddress_of_le (by omega)
  have hrandom : randomBytes.length = 16 := rfl
  have halign : align16 (cursor - 16) = base - 16 := by
    unfold align16
    omega
  have hwrap : subAddress (base - 16) base = 2 ^ 64 - 16 := by
    rw [subAddress, if_neg (by omega)]
    omega
  have hdown : subAddress (base - 16) (n * 8) = base - 16 - 8 * n := by
    rw [subAddress_of_le (by omega), Nat.mul_comm]
  set low := align16 (base - 16 - 8 * n) with hlow
  have hlowle : low ≤ base - 16 - 8 * n := align16_le _
  have hlength := length_flatMap_appendWord (stackWords argvAddresses envpAddresses loaded (BitVec.ofNat 64 (cursor - 16)))
  rw [hwords] at hlength
  -- what is left once the random bytes are written
  have hrest : ∀ m1, checkedWrite errors m (cursor - 16) randomBytes = (.ok (), m1) →
      pushVector errors base argvAddresses envpAddresses loaded cursor m =
        match checkedWrite errors m1 low
            ((stackWords argvAddresses envpAddresses loaded (BitVec.ofNat 64 (cursor - 16))).flatMap appendWord) with
        | (.error e, m) => (.error e, m)
        | (.ok (), m) => (.ok low, m) := by
    intro m1 hwrite
    simp only [pushVector, hsub, hwrite, hwords, halign, hwrap, hdown]
    rw [if_neg (by omega)]
  constructor
  · intro hall
    obtain ⟨m1, hwrite, hwrote⟩ := @checkedWrite_ok m (cursor - 16) randomBytes ε errors (by omega)
      (by omega) (by
        intro i hi
        rw [hrandom] at hi
        by_cases hbelow : cursor - 16 + i < base
        · exact hall _ (by omega) hbelow
        · exact hmapped _ (by omega) (by omega))
    obtain ⟨m2, hwrite2, hwrote2⟩ := @checkedWrite_ok m1 low
      ((stackWords argvAddresses envpAddresses loaded (BitVec.ofNat 64 (cursor - 16))).flatMap appendWord) ε errors
      (by omega) (by omega) (by
        intro i hi
        rw [hwrote.mapped]
        exact hall _ (by omega) (by omega))
    refine ⟨low, m2, ?_, by omega⟩
    rw [hrest m1 hwrite, hwrite2]
  · rintro ⟨a, hlo, hhi, hunmapped⟩
    cases hlast : m.mapped (pageFloor (base - 1)) with
    | false =>
      -- the page right below the stack is missing
      have hfloor : pageFloor (cursor - 16) = pageFloor (base - 1) := by
        simp only [pageFloor, kPageSize] at *
        omega
      obtain ⟨e, m1, hwrite⟩ := @checkedWrite_error m (cursor - 16) randomBytes ε errors (by omega)
        (by omega) ⟨0, by omega, by rw [Nat.add_zero, hfloor]; exact hlast⟩
      refine ⟨e, m1, ?_⟩
      simp only [pushVector, hsub, hwrite]
    | true =>
      have hbelow : ∀ b, base - kPageSize ≤ b → b < base → m.mapped (pageFloor b) = true := by
        intro b hb hlt
        have hfloor : pageFloor b = pageFloor (base - 1) := by
          simp only [pageFloor, kPageSize] at *
          omega
        rw [hfloor]
        exact hlast
      have hfar : a < base - kPageSize := by
        by_contra hnear
        rw [hbelow a (Nat.not_lt.1 hnear) hhi] at hunmapped
        cases hunmapped
      obtain ⟨m1, hwrite, hwrote⟩ := @checkedWrite_ok m (cursor - 16) randomBytes ε errors (by omega)
        (by omega) (by
          intro i hi
          rw [hrandom] at hi
          by_cases hless : cursor - 16 + i < base
          · exact hbelow _ (by simp only [kPageSize]; omega) hless
          · exact hmapped _ (by omega) (by omega))
      have hreach : a < low + n * 8 := by
        have hnear : base - 16 - 8 * n < low + 16 := by
          rw [hlow]
          unfold align16
          omega
        simp only [kPageSize] at hfar
        omega
      obtain ⟨e, m2, hwrite2⟩ := @checkedWrite_error m1 low
        ((stackWords argvAddresses envpAddresses loaded (BitVec.ofNat 64 (cursor - 16))).flatMap appendWord) ε errors
        (by omega) (by omega) ⟨a - low, by omega, by
          have hsum : low + (a - low) = a := by omega
          rw [hsum, hwrote.mapped]
          exact hunmapped⟩
      refine ⟨e, m2, ?_⟩
      rw [hrest m1 hwrite, hwrite2]

end Vector

/-! ### The two functions -/

section Twin

variable {ε ε' α : Type}

/-- Two runs that leave the same memory and return the same value, or both throw. -/
inductive SameRun : Except ε α × AddressSpace → Except ε' α × AddressSpace → Prop
  | error (e : ε) (e' : ε') (m : AddressSpace) : SameRun (.error e, m) (.error e', m)
  | ok (v : α) (m : AddressSpace) : SameRun (.ok v, m) (.ok v, m)

theorem SameRun.same {r : Except ε α × AddressSpace} {r' : Except ε' α × AddressSpace} (h : SameRun r r') :
    r'.2 = r.2 ∧ r'.1.toOption = r.1.toOption := by
  cases h with
  | error e e' m => exact ⟨rfl, rfl⟩
  | ok v m => exact ⟨rfl, rfl⟩

variable (errors : StackErrors ε) (errors' : StackErrors ε')

theorem checkedMap_same (m : AddressSpace) (start size : ℕ) (prot : Protection) (alloc : ℕ) :
    SameRun (checkedMap errors m start size prot alloc) (checkedMap errors' m start size prot alloc) := by
  simp only [checkedMap]
  cases (m.map start size prot alloc).result with
  | error e => exact .error _ _ _
  | ok u => exact .ok _ _

theorem checkedWrite_same (m : AddressSpace) (start : ℕ) (bytes : List Byte) :
    SameRun (checkedWrite errors m start bytes) (checkedWrite errors' m start bytes) := by
  simp only [checkedWrite]
  cases (m.write start bytes).result with
  | error e => exact .error _ _ _
  | ok u => exact .ok _ _

theorem pushStrings_same (overflow : ε) (overflow' : ε') (base : ℕ) (strings : List (List Byte)) (cursor : ℕ) (m : AddressSpace) :
    SameRun (pushStrings errors overflow base strings cursor m) (pushStrings errors' overflow' base strings cursor m) := by
  induction strings with
  | nil => exact .ok _ _
  | cons value rest ih =>
    simp only [pushStrings]
    generalize pushStrings errors overflow base rest cursor m = r at ih
    generalize pushStrings errors' overflow' base rest cursor m = r' at ih
    cases ih with
    | error e e' m => exact .error _ _ _
    | ok v m =>
      dsimp only
      by_cases hover : value.length + 1 > subAddress v.2 base
      · rw [if_pos hover, if_pos hover]
        exact .error _ _ _
      · rw [if_neg hover, if_neg hover]
        have hwrite := checkedWrite_same errors errors' m (subAddress v.2 (value.length + 1)) (value ++ [0])
        generalize checkedWrite errors m (subAddress v.2 (value.length + 1)) (value ++ [0]) = w at hwrite
        generalize checkedWrite errors' m (subAddress v.2 (value.length + 1)) (value ++ [0]) = w' at hwrite
        cases hwrite with
        | error e e' m => exact .error _ _ _
        | ok u m => exact .ok _ _

theorem pushVector_same (base : ℕ) (argvAddresses envpAddresses : List ℕ) (loaded : LoadedElf) (cursor : ℕ) (m : AddressSpace) :
    SameRun (pushVector errors base argvAddresses envpAddresses loaded cursor m)
      (pushVector errors' base argvAddresses envpAddresses loaded cursor m) := by
  simp only [pushVector]
  have hrandom := checkedWrite_same errors errors' m (subAddress cursor 16) randomBytes
  generalize checkedWrite errors m (subAddress cursor 16) randomBytes = r at hrandom
  generalize checkedWrite errors' m (subAddress cursor 16) randomBytes = r' at hrandom
  cases hrandom with
  | error e e' m => exact .error _ _ _
  | ok u m =>
    dsimp only
    set words := stackWords argvAddresses envpAddresses loaded (BitVec.ofNat 64 (subAddress cursor 16))
    set low := align16 (subAddress (align16 (subAddress cursor 16)) (words.length * 8))
    by_cases hover : words.length * 8 > subAddress (align16 (subAddress cursor 16)) base
    · rw [if_pos hover, if_pos hover]
      exact .error _ _ _
    · rw [if_neg hover, if_neg hover]
      have hwrite := checkedWrite_same errors errors' m low (words.flatMap appendWord)
      generalize checkedWrite errors m low (words.flatMap appendWord) = w at hwrite
      generalize checkedWrite errors' m low (words.flatMap appendWord) = w' at hwrite
      cases hwrite with
      | error e e' m => exact .error _ _ _
      | ok u m => exact .ok _ _

theorem setupStackWith_same (top size : ℕ) (m : AddressSpace) (argv envp : List (List Byte)) (loaded : LoadedElf) (alloc : ℕ) :
    SameRun (setupStackWith errors top size m argv envp loaded alloc) (setupStackWith errors' top size m argv envp loaded alloc) := by
  simp only [setupStackWith]
  have hmap := checkedMap_same errors errors' m (top - size) size ⟨true, true, false⟩ alloc
  generalize checkedMap errors m (top - size) size ⟨true, true, false⟩ alloc = r at hmap
  generalize checkedMap errors' m (top - size) size ⟨true, true, false⟩ alloc = r' at hmap
  cases hmap with
  | error e e' m => exact .error _ _ _
  | ok u m =>
    dsimp only
    have henvp := pushStrings_same errors errors' errors.environment errors'.environment (top - size) envp top m
    generalize pushStrings errors errors.environment (top - size) envp top m = p at henvp
    generalize pushStrings errors' errors'.environment (top - size) envp top m = p' at henvp
    cases henvp with
    | error e e' m => exact .error _ _ _
    | ok v m =>
      dsimp only
      have hargv := pushStrings_same errors errors' errors.argument errors'.argument (top - size) argv v.2 m
      generalize pushStrings errors errors.argument (top - size) argv v.2 m = q at hargv
      generalize pushStrings errors' errors'.argument (top - size) argv v.2 m = q' at hargv
      cases hargv with
      | error e e' m => exact .error _ _ _
      | ok w m => exact pushVector_same errors errors' _ _ _ _ _ _

end Twin

/-! ### The whole function -/

section Setup

variable {m m' m0 m1 m2 m3 : AddressSpace} {argv envp : List (List Byte)} {loaded : LoadedElf} {alloc : ℕ}

theorem stackTop_eq : stackTop = stackBase + 1048576 := by decide

theorem stackSize_eq : stackSize = 1048576 := by decide

theorem stackBase_aligned : stackBase % 4096 = 0 := by decide

theorem stackBase_bounds : 2 ^ 46 ≤ stackBase ∧ stackTop ≤ 2 ^ 47 := by decide

theorem whole_stack : Whole stackBase stackSize := ⟨by decide, by decide, by decide⟩

/-- The stack is mapped and what lies below it is as before. -/
structure Mapped (m m0 : AddressSpace) : Prop where
  mapped : ∀ a, stackBase ≤ a → a < stackTop → m0.mapped (pageFloor a) = true
  protection : ∀ a, stackBase ≤ a → a < stackTop → m0.protectionAt (pageFloor a) = ⟨true, true, false⟩
  belowMapped : ∀ a < stackBase, m0.mapped (pageFloor a) = m.mapped (pageFloor a)
  belowBytes : ∀ a < stackBase, m0.bytes a = m.bytes a

theorem isPage_pageFloor {a : ℕ} (h : a < addressSpaceSize) : IsPage (pageFloor a) := by
  simp only [IsPage, pageFloor, kPageSize] at *
  omega

theorem checkedMap_stack {ε : Type} {errors : StackErrors ε} (halloc : mapSteps (stackSize / kPageSize) ≤ alloc) :
    ∃ m0, checkedMap errors m stackBase stackSize ⟨true, true, false⟩ alloc = (.ok (), m0) ∧ Mapped m m0 := by
  have htop := stackTop_eq
  have hsize := stackSize_eq
  obtain ⟨hlow, hhigh⟩ := stackBase_bounds
  have hspace : addressSpaceSize = 2 ^ 48 := rfl
  have hfit : stackBase + stackSize ≤ addressSpaceSize := by omega
  obtain ⟨hok, hmaps⟩ := @map_pages m stackBase stackSize ⟨true, true, false⟩ alloc whole_stack hfit halloc
  have hfloor : ∀ a, stackBase ≤ a → a < stackTop → stackBase ≤ pageFloor a ∧ pageFloor a < stackBase + stackSize := by
    intro a hlo hhi
    exact whole_stack.pageFloor_mem hlo (by omega)
  refine ⟨(m.map stackBase stackSize ⟨true, true, false⟩ alloc).space, ?_, ?_, ?_, ?_, ?_⟩
  · rw [checkedMap, hok]
    rfl
  · intro a hlo hhi
    obtain ⟨hfrom, hto⟩ := hfloor a hlo hhi
    exact hmaps.mapped _ (isPage_pageFloor (by omega)) hfrom hto
  · intro a hlo hhi
    obtain ⟨hfrom, hto⟩ := hfloor a hlo hhi
    exact hmaps.protection _ (isPage_pageFloor (by omega)) hfrom hto
  · intro a ha
    refine (hmaps.outside (pageFloor a) (isPage_pageFloor (by omega)) ?_).mapped
    have hle : pageFloor a ≤ a := Nat.sub_le _ _
    omega
  · intro a ha
    rw [map_ok whole_stack (by omega) (by omega) halloc]
    change (m.insertPages stackBase (stackSize / kPageSize)).bytes a = m.bytes a
    simp only [insertPages]
    rw [if_neg (by omega)]

theorem checkedMap_short {ε : Type} {errors : StackErrors ε} (halloc : alloc < mapSteps (stackSize / kPageSize)) :
    ∃ e m', checkedMap errors m stackBase stackSize ⟨true, true, false⟩ alloc = (.error e, m') := by
  have htop := stackTop_eq
  have hsize := stackSize_eq
  obtain ⟨hlow, hhigh⟩ := stackBase_bounds
  obtain ⟨m', hmap⟩ := @map_error m stackBase stackSize ⟨true, true, false⟩ alloc whole_stack (by omega) (by omega) halloc
  refine ⟨errors.map .outOfMemory, m', ?_⟩
  rw [checkedMap, hmap]
  rfl

/-- Where the strings are all stored, and the cursor below them. -/
structure Reached (m m0 m1 m2 : AddressSpace) (argv envp : List (List Byte)) (cursor : ℕ) : Prop where
  stack : Mapped m m0
  environment : Pushed m0 m1 envp stackTop
  arguments : Pushed m1 m2 argv (stackTop - stringsLength envp)
  below : cursor + stringsLength argv + stringsLength envp = stackTop
  inside : stackBase ≤ cursor

theorem Reached.mapped {cursor : ℕ} (h : Reached m m0 m1 m2 argv envp cursor) : m2.mapped = m0.mapped :=
  h.arguments.mapped.trans h.environment.mapped

theorem Reached.stack_mapped {cursor : ℕ} (h : Reached m m0 m1 m2 argv envp cursor) :
    ∀ a, stackBase ≤ a → a < cursor → m2.mapped (pageFloor a) = true := by
  intro a hlo hhi
  have hbelow := h.below
  rw [h.mapped]
  exact h.stack.mapped a hlo (by omega)

/-- The words of the vector, wherever the random bytes lie. -/
theorem length_vector (randomAddress : W64) :
    (stackWords (stringAddresses argv (stackTop - stringsLength envp)) (stringAddresses envp stackTop) loaded
      randomAddress).length = vectorLength argv envp loaded :=
  length_stackWords argv envp (length_stringAddresses _ _) (length_stringAddresses _ _) randomAddress

/-- Without pages, or without room for the strings, the function throws; otherwise it comes to the vector. -/
theorem setupStack_strings :
    ((alloc < mapSteps (stackSize / kPageSize) ∨ stackSize < stringsLength envp + stringsLength argv) ∧
        ∃ e m', setupStack m argv envp loaded alloc = (.error e, m')) ∨
      (mapSteps (stackSize / kPageSize) ≤ alloc ∧ ∃ cursor m0 m1 m2, Reached m m0 m1 m2 argv envp cursor ∧
        setupStack m argv envp loaded alloc = pushVector stackMessages stackBase
          (stringAddresses argv (stackTop - stringsLength envp)) (stringAddresses envp stackTop) loaded cursor m2) := by
  have htop := stackTop_eq
  have hsize := stackSize_eq
  obtain ⟨hlow, hhigh⟩ := stackBase_bounds
  have hbase : stackTop - stackSize = stackBase := rfl
  by_cases halloc : alloc < mapSteps (stackSize / kPageSize)
  · obtain ⟨e, m', hmap⟩ := @checkedMap_short m alloc _ stackMessages halloc
    refine .inl ⟨.inl halloc, e, m', ?_⟩
    simp only [setupStack, setupStackWith, hbase, hmap]
  · obtain ⟨m0, hmap, hmapped⟩ := @checkedMap_stack m alloc _ stackMessages (Nat.not_lt.1 halloc)
    obtain ⟨henvp, henvpover⟩ := @pushStrings_spec m0 envp stackBase stackTop _ stackMessages stackMessages.environment
      (by omega) (by omega) hmapped.mapped
    by_cases hfit : stackBase + stringsLength envp ≤ stackTop
    · obtain ⟨m1, hpush, hpushed⟩ := henvp hfit
      obtain ⟨hargv, hargvover⟩ := @pushStrings_spec m1 argv stackBase (stackTop - stringsLength envp) _ stackMessages
        stackMessages.argument (by omega) (by omega) (by
          intro a hlo hhi
          rw [hpushed.mapped]
          exact hmapped.mapped a hlo (by omega))
      by_cases hfit2 : stackBase + stringsLength argv ≤ stackTop - stringsLength envp
      · obtain ⟨m2, hpush2, hpushed2⟩ := hargv hfit2
        refine .inr ⟨Nat.not_lt.1 halloc, stackTop - stringsLength envp - stringsLength argv, m0, m1, m2,
          ⟨hmapped, hpushed, hpushed2, by omega, by omega⟩, ?_⟩
        simp only [setupStack, setupStackWith, hbase, hmap, hpush, hpush2]
      · obtain ⟨m2, hpush2⟩ := hargvover (by omega)
        refine .inl ⟨.inr (by omega), stackMessages.argument, m2, ?_⟩
        simp only [setupStack, setupStackWith, hbase, hmap, hpush, hpush2]
    · obtain ⟨m1, hpush⟩ := henvpover (by omega)
      refine .inl ⟨.inr (by omega), stackMessages.environment, m1, ?_⟩
      simp only [setupStack, setupStackWith, hbase, hmap, hpush]

/-- With the vector inside the stack, everything is as it should be. -/
theorem Reached.stackRight {cursor rsp : ℕ} (h : Reached m m0 m1 m2 argv envp cursor)
    (halign : rsp % 16 = 0) (hlow : stackBase ≤ rsp) (hbelow : rsp + 8 * vectorLength argv envp loaded + 16 ≤ cursor)
    (hrandom : Wrote m2 m3 (cursor - 16) randomBytes)
    (hvector : Wrote m3 m' rsp ((stackWords (stringAddresses argv (stackTop - stringsLength envp)) (stringAddresses envp stackTop)
      loaded (BitVec.ofNat 64 (cursor - 16))).flatMap appendWord)) : StackRight m m' argv envp rsp := by
  have hcursor := h.below
  have hbytes : randomBytes.length = 16 := rfl
  set words := stackWords (stringAddresses argv (stackTop - stringsLength envp)) (stringAddresses envp stackTop) loaded
    (BitVec.ofNat 64 (cursor - 16)) with hwords
  have hcount : words.length = vectorLength argv envp loaded := length_vector _
  have hlength : (words.flatMap appendWord).length = vectorLength argv envp loaded * 8 := by
    rw [length_flatMap_appendWord, hcount]
  -- the two last writes lie below the strings, and the arguments below the environment
  have hargvkept : ∀ a, cursor ≤ a → m'.bytes a = m2.bytes a := by
    intro a ha
    rw [hvector.frame a (by omega), hrandom.frame a (by omega)]
  have henvpkept : ∀ a, stackTop - stringsLength envp ≤ a → m'.bytes a = m1.bytes a := by
    intro a ha
    rw [hargvkept a (by omega), h.arguments.frame a (by omega)]
  have hmapped : m'.mapped = m0.mapped := hvector.mapped.trans (hrandom.mapped.trans h.mapped)
  have hprotection : ∀ a, m'.protectionAt a = m0.protectionAt a := by
    intro a
    rw [hvector.protection, hrandom.protection, h.arguments.protection, h.environment.protection]
  refine ⟨halign, ?_, ⟨stringAddresses argv (stackTop - stringsLength envp), stringAddresses envp stackTop, cursor - 16,
    auxEntries loaded (BitVec.ofNat 64 (cursor - 16)), words, ?_, auxEntries_ne_zero, random_mem_auxEntries, ?_, ?_, ?_, ?_, ?_⟩, ?_⟩
  · intro a hlo hhi
    rw [hmapped, hprotection]
    exact ⟨h.stack.mapped a hlo hhi, h.stack.protection a hlo hhi⟩
  · rw [hwords, stackWords, length_stringAddresses, auxWords_eq]
  · apply loads_of_bytes
    rw [← length_flatMap_appendWord]
    exact bytes_of_readRange hvector.contents
  · apply strings_kept (by omega) _ h.arguments.contents
    intro a ha
    exact hargvkept a (by omega)
  · exact strings_kept (by omega) henvpkept h.environment.contents
  · have hargvinside := @stringRanges_inside argv (stackTop - stringsLength envp) (by omega)
    have henvpinside := @stringRanges_inside envp stackTop (by omega)
    have hargvapart := @stringRanges_apart argv (stackTop - stringsLength envp) (by omega)
    have henvpapart := @stringRanges_apart envp stackTop (by omega)
    refine List.Pairwise.imp Or.inl ?_
    refine List.Pairwise.cons ?_ (List.Pairwise.cons ?_ (List.pairwise_append.2 ⟨hargvapart, henvpapart, ?_⟩))
    · intro x hx
      rw [hcount]
      obtain rfl | hx := List.mem_cons.1 hx
      · dsimp only
        omega
      · obtain hx | hx := List.mem_append.1 hx
        · have := hargvinside x hx
          dsimp only
          omega
        · have := henvpinside x hx
          dsimp only
          omega
    · intro x hx
      obtain hx | hx := List.mem_append.1 hx
      · have := hargvinside x hx
        dsimp only
        omega
      · have := henvpinside x hx
        dsimp only
        omega
    · intro x hx y hy
      have := hargvinside x hx
      have := henvpinside y hy
      omega
  · have hargvinside := @stringRanges_inside argv (stackTop - stringsLength envp) (by omega)
    have henvpinside := @stringRanges_inside envp stackTop (by omega)
    have hinside := h.inside
    intro x hx
    rw [hcount] at hx
    obtain rfl | hx := List.mem_cons.1 hx
    · dsimp only
      omega
    obtain rfl | hx := List.mem_cons.1 hx
    · dsimp only
      omega
    obtain hx | hx := List.mem_append.1 hx
    · have := hargvinside x hx
      omega
    · have := henvpinside x hx
      omega
  · intro a ha
    rw [hvector.frame a (by omega), hrandom.frame a (by omega), h.arguments.frame a (by omega), h.environment.frame a (by omega),
      h.stack.belowBytes a ha]

/-- Past the strings, the vector goes into the stack when there is room for the random bytes. -/
theorem Reached.inside_right {cursor rsp : ℕ} (h : Reached m m0 m1 m2 argv envp cursor) (hroom : stackBase + 16 ≤ cursor)
    (hrun : pushVector stackMessages stackBase (stringAddresses argv (stackTop - stringsLength envp))
      (stringAddresses envp stackTop) loaded cursor m2 = (.ok rsp, m')) : StackRight m m' argv envp rsp := by
  have hpos : 0 < vectorLength argv envp loaded := by
    unfold vectorLength
    split <;> omega
  have hbelow := h.below
  obtain ⟨hlow, hhigh⟩ := stackBase_bounds
  obtain ⟨halign, hin, hend, m3, hrandom, hvector⟩ :=
    pushVector_inside (by decide) hroom (by omega) h.stack_mapped length_vector hpos hrun
  exact h.stackRight halign hin hend hrandom hvector

/-- Past the strings, with no room for the random bytes, what lies below the stack decides. -/
theorem Reached.below_spec {cursor : ℕ} (h : Reached m m0 m1 m2 argv envp cursor) (hshort : cursor < stackBase + 16) :
    ((∀ a, align16 (stackBase - 16 - 8 * vectorLength argv envp loaded) ≤ a → a < stackBase → m.mapped (pageFloor a) = true) →
        ∃ rsp m', pushVector stackMessages stackBase (stringAddresses argv (stackTop - stringsLength envp))
          (stringAddresses envp stackTop) loaded cursor m2 = (.ok rsp, m') ∧ rsp < stackBase) ∧
      ((∃ a, align16 (stackBase - 16 - 8 * vectorLength argv envp loaded) ≤ a ∧ a < stackBase ∧ m.mapped (pageFloor a) = false) →
        ∃ e m', pushVector stackMessages stackBase (stringAddresses argv (stackTop - stringsLength envp))
          (stringAddresses envp stackTop) loaded cursor m2 = (.error e, m')) := by
  have hbelow := h.below
  have hinside := h.inside
  have htop := stackTop_eq
  obtain ⟨hlow, hhigh⟩ := stackBase_bounds
  have hargvcount := length_le_stringsLength argv
  have henvpcount := length_le_stringsLength envp
  have hcount : 0 < vectorLength argv envp loaded ∧ vectorLength argv envp loaded ≤ argv.length + envp.length + 33 := by
    unfold vectorLength
    split <;> omega
  have hsame : ∀ a < stackBase, m2.mapped (pageFloor a) = m.mapped (pageFloor a) := by
    intro a ha
    rw [h.mapped]
    exact h.stack.belowMapped a ha
  obtain ⟨hescapes, hthrows⟩ := @pushVector_below m2 stackBase cursor (vectorLength argv envp loaded) _ stackMessages
    (stringAddresses argv (stackTop - stringsLength envp)) (stringAddresses envp stackTop) loaded (by decide) hinside hshort
    (by omega) (by omega) length_vector hcount.1 h.stack_mapped stackBase_aligned
  constructor
  · intro hall
    apply hescapes
    intro a hlo hhi
    rw [hsame a hhi]
    exact hall a hlo hhi
  · rintro ⟨a, hlo, hhi, hunmapped⟩
    exact hthrows ⟨a, hlo, hhi, by rw [hsame a hhi]; exact hunmapped⟩

/-- A stack pointer below the stack is not right. -/
theorem StackRight.le {rsp : ℕ} (h : StackRight m m' argv envp rsp) : stackBase ≤ rsp := by
  obtain ⟨argvAt, envpAt, randomAt, auxv, words, hlayout⟩ := h.layout
  exact (hlayout.inside _ (List.mem_cons_self)).1

/-- Strings that leave less than 16 bytes put the vector below the stack when the pages are there. -/
theorem setupStack_escapes (halloc : mapSteps (stackSize / kPageSize) ≤ alloc) (hfits : stringsLength envp + stringsLength argv ≤ stackSize)
    (hshort : stackSize < stringsLength envp + stringsLength argv + 16)
    (hall : ∀ a, align16 (stackBase - 16 - 8 * vectorLength argv envp loaded) ≤ a → a < stackBase → m.mapped (pageFloor a) = true) :
    ¬ SetupRight m argv envp loaded alloc := by
  intro hright
  have htop := stackTop_eq
  have hsize := stackSize_eq
  obtain ⟨hwhy, -⟩ | ⟨-, cursor, m0, m1, m2, hreached, hrun⟩ := @setupStack_strings m argv envp loaded alloc
  · omega
  · -- what is returned is below the stack, which `StackRight` excludes
    have hbelow := hreached.below
    obtain ⟨rsp, m', hvector, hlow⟩ := (hreached.below_spec (by omega)).1 hall
    exact absurd (hright.right rsp m' (hrun.trans hvector)).le (Nat.not_le.2 hlow)

/-- **The stack is laid out or the function throws exactly when** the strings leave room for the random bytes or
do not fit, or nothing is mapped where the vector would go below the stack. -/
theorem setup_right_iff (m : AddressSpace) (argv envp : List (List Byte)) (loaded : LoadedElf) (alloc : ℕ) :
    SetupRight m argv envp loaded alloc ↔ StackFits m argv envp loaded alloc := by
  have htop := stackTop_eq
  have hsize := stackSize_eq
  constructor
  · intro hright
    by_contra hno
    simp only [StackFits, not_or, not_exists, not_and, Bool.not_eq_false] at hno
    obtain ⟨halloc, hshort, hfits, hall⟩ := hno
    exact setupStack_escapes (by omega) (by omega) (by omega) hall hright
  · intro hfits
    refine ⟨?_, (setupStackWith_same stackMessages execStackErrors stackTop stackSize m argv envp loaded alloc).same⟩
    intro rsp m' hok
    obtain ⟨-, e, m'', herror⟩ | ⟨halloc, cursor, m0, m1, m2, hreached, hrun⟩ := @setupStack_strings m argv envp loaded alloc
    · rw [herror] at hok
      cases (Prod.mk.inj hok).1
    · have hbelow := hreached.below
      have hinside := hreached.inside
      rw [hrun] at hok
      by_cases hroom : stackBase + 16 ≤ cursor
      · exact hreached.inside_right hroom hok
      · -- of the four ways to fit, only the missing page is left
        obtain hshort | hroom' | hover | hmissing := hfits
        · omega
        · omega
        · omega
        · obtain ⟨e, m'', herror⟩ := (hreached.below_spec (by omega)).2 hmissing
          rw [herror] at hok
          cases (Prod.mk.inj hok).1

/-- One page mapped right below the stack. -/
def pageBelow : AddressSpace := ((AddressSpace.init true).map (stackBase - kPageSize) kPageSize ⟨true, true, false⟩ 4).space

/-- One string that fills the stack. -/
def fullString : List Byte := List.replicate 1048575 0x61

/-- A string that fills the stack leaves `rsp` below it. -/
theorem not_setup_right : ¬ SetupRight pageBelow [] [fullString] ⟨0x401000, 0, 56, 2⟩ 1024 := by
  have htop := stackTop_eq
  have hsize := stackSize_eq
  obtain ⟨hlow, hhigh⟩ := stackBase_bounds
  have hspace : addressSpaceSize = 2 ^ 48 := rfl
  have hlength : stringsLength [fullString] + stringsLength [] = 1048576 := by
    rw [stringsLength_cons, stringsLength_nil, fullString, List.length_replicate]
  apply setupStack_escapes (by decide) (by omega) (by omega)
  intro a hlo hhi
  have hpage : kPageSize = 4096 := rfl
  have hlo' : stackBase - 240 ≤ a := hlo
  have hfloor : pageFloor a = stackBase - kPageSize := by
    have haligned := stackBase_aligned
    simp only [pageFloor, kPageSize] at *
    omega
  have hwhole : Whole (stackBase - kPageSize) kPageSize := ⟨by decide, by decide, by decide⟩
  have hfit : stackBase - kPageSize + kPageSize ≤ addressSpaceSize := by omega
  obtain ⟨-, hmaps⟩ := @map_pages (AddressSpace.init true) (stackBase - kPageSize) kPageSize ⟨true, true, false⟩ 4 hwhole
    hfit (by decide)
  rw [hfloor]
  exact hmaps.mapped _ ⟨by decide, by decide⟩ le_rfl (by omega)

end Setup

end X86Sim.Linux
