import X86Sim.Linux.Transfers

/-!
# Reading directories (`syscall-linux-posix.cpp`)

`getdents64` opens a stream on a duplicate of the descriptor, fills the guest's buffer with
records, and closes the stream. The next call finds the position that the descriptor has
then: behind all the library has read ahead, unless `seekdir` took it back.

* `decodeRecords_records`: records are read back as the entries they were made from.
* `collect_spec`: a call that leaves the position behind its last record.
* `directory_right_of_run`: runs of calls that return every entry once.
-/

namespace X86Sim.Linux

open AddressSpace

/-! ### Host directories -/

/-- The values of `d_type`. -/
inductive HostType
  | unknown | fifo | chr | dir | blk | reg | lnk | sock | other
  deriving DecidableEq

/-- A `dirent`; the name is a C string in an array of the host. -/
structure DirEntry where
  name : List Byte
  ino : W64
  type : HostType
  name_nonzero : 0 ∉ name
  name_length : name.length < 1024

/-- A directory of the host: its entries in order, the number `telldir` gives for a position
among them, and the position of the kernel after the library has read ahead from one. -/
structure HostDirectory where
  entries : List DirEntry
  cookie : ℕ → W64
  refill : ℕ → ℕ
  refill_gt : ∀ k < entries.length, k < refill k
  refill_le : ∀ k < entries.length, refill k ≤ entries.length

/-- A `DIR`: the entry it hands out next, and the kernel's position, which it shares with
the descriptor. -/
structure DirStream where
  next : ℕ
  kernel : ℕ

/-- `readdir`, with the error that reading at a position of the kernel gives. -/
def readdir (d : HostDirectory) (error : ℕ → Option ℕ) (s : DirStream) : Except ℕ (Option DirEntry) × DirStream :=
  if s.next < s.kernel then (.ok d.entries[s.next]?, { s with next := s.next + 1 })
  else
    match error s.kernel with
    | some e => (.error e, s)
    | none =>
      if s.kernel < d.entries.length then (.ok d.entries[s.next]?, ⟨s.next + 1, d.refill s.kernel⟩)
      else (.ok none, s)

/-- `seekdir` to a position that `telldir` gave. -/
def seekdir (position : ℕ) : DirStream := ⟨position, position⟩

/-! ### Records -/

def linuxDirentType : HostType → Byte
  | .fifo => 1
  | .chr => 2
  | .dir => 4
  | .blk => 6
  | .reg => 8
  | .lnk => 10
  | .sock => 12
  | .unknown | .other => 0

/-- The bytes of a field, the lowest first. -/
def writeField (value : W64) (width : ℕ) : List Byte := (List.range width).map fun i => (value >>> (8 * i)).setWidth 8

/-- `(19 + name_length + 1 + 7) & ~7`. -/
def recordLength (e : DirEntry) : ℕ := (19 + e.name.length + 1 + 7) / 8 * 8

/-- A record: its fields at 0, 8, 16 and 18, the name at 19, and zeros. -/
def direntRecord (e : DirEntry) (next : W64) : List Byte :=
  writeField e.ino 8 ++ (writeField next 8 ++ (writeField (BitVec.ofNat 64 (recordLength e)) 2 ++
    (linuxDirentType e.type :: (e.name ++ List.replicate (recordLength e - 19 - e.name.length) 0))))

/-! ### The call -/

/-- What the host does in one call: the error of `dup` or `fdopendir`, the errors of reading
at a position of the kernel, and the sizes of the output it has no memory for. -/
structure DirHost where
  openError : Option ℕ
  openError_pos : ∀ e ∈ openError, 0 < e
  readError : ℕ → Option ℕ
  readError_pos : ∀ k, ∀ e ∈ readError k, 0 < e
  noRoom : ℕ → Bool

/-- The process, as the call sees it, and the position of the directory it reads. -/
structure DirProcess where
  fds : Fds
  space : AddressSpace
  position : ℕ

def syscallGetdents64 : ℕ := 217

/-- The loop of the call, with the turns it has left. -/
def collect (d : HostDirectory) (host : DirHost) (count : ℕ) :
    ℕ → DirStream → List Byte → Except ℕ (List Byte) × DirStream
  | 0, s, output => (.ok output, s)
  | turns + 1, s, output =>
    if count ≤ output.length then (.ok output, s)
    else
      let before := s.next
      match readdir d host.readError s with
      | (.error e, s) => (.error e, s)
      | (.ok none, s) => (.ok output, s)
      | (.ok (some entry), s) =>
        if count - output.length < recordLength entry then (.ok output, seekdir before)
        else if host.noRoom (output.length + recordLength entry) then (.error linuxEnomem, s)
        else collect d host count turns s (output ++ direntRecord entry (d.cookie s.next))

section Handler

variable (d : HostDirectory) (context : CallRegs) (kind : SyscallKind) (host : DirHost) (p : DirProcess)

/-- The call on an open stream. -/
def readRecords : ℤ × DirProcess :=
  let count := transferCount context
  let (result, s) :=
    if host.noRoom (min count ioChunkSize) then (.error linuxEnomem, seekdir p.position)
    else collect d host count (d.entries.length + 1) (seekdir p.position) []
  let p := { p with position := s.kernel }
  match result with
  | .error e => (returnError e, p)
  | .ok output =>
    if output.isEmpty then (0, p)
    else
      let written := p.space.write (bufferAddress context) output
      let p := { p with space := written.space }
      match written.result with
      | .error e => (returnError (memoryErrorToLinux e), p)
      | .ok () => (output.length, p)

def sysGetdents64 : Option (ℤ × DirProcess) :=
  if !handles context kind syscallGetdents64 then none
  else
    match p.fds.hostFdFor (context.syscallArg 0) with
    | (none, fds) => some (returnError linuxEbadf, { p with fds := fds })
    | (some _, fds) =>
      let p := { p with fds := fds }
      if !fitsHostTransfer (transferCount context) then some (returnError linuxEinval, p)
      else if bufferAddress context == 0 || rangeOverflows (bufferAddress context) (transferCount context) then
        some (returnError linuxEfault, p)
      else
        match host.openError with
        | some e => some (returnError e, p)
        | none => some (readRecords d context host p)

end Handler

/-! ### Runs of calls -/

/-- What a guest reads in a record. -/
structure GuestDirent where
  ino : ℕ
  off : ℕ
  reclen : ℕ
  type : Byte
  name : List Byte
  deriving DecidableEq

def leNat (bytes : List Byte) : ℕ := bytes.foldr (fun b n => b.toNat + 256 * n) 0

/-- The records in a buffer, each found by the length of the one before. -/
def decodeRecords : ℕ → List Byte → Option (List GuestDirent)
  | _, [] => some []
  | 0, _ :: _ => none
  | fuel + 1, bytes =>
    let reclen := leNat ((bytes.drop 16).take 2)
    if reclen < 20 ∨ bytes.length < reclen then none
    else
      (decodeRecords fuel (bytes.drop reclen)).map fun rest =>
        ⟨leNat (bytes.take 8), leNat ((bytes.drop 8).take 8), reclen, bytes.getD 18 0,
          ((bytes.take reclen).drop 19).takeWhile (· ≠ 0)⟩ :: rest

/-- An entry, as a guest is to read it. -/
def DirEntry.dirent (e : DirEntry) (next : W64) : GuestDirent :=
  ⟨e.ino.toNat, next.toNat, recordLength e, linuxDirentType e.type, e.name⟩

/-- The entries of a directory, each with the position after it. -/
def HostDirectory.withNext (d : HostDirectory) : List (DirEntry × W64) := d.entries.mapIdx fun i e => (e, d.cookie (i + 1))

/-- The entries of a directory, as a guest is to read them. -/
def HostDirectory.dirents (d : HostDirectory) : List GuestDirent := d.withNext.map fun x => x.1.dirent x.2

/-- A call on the descriptor of the run, in the address space the guest then has. -/
structure DirCall where
  regs : CallRegs
  kind : SyscallKind
  host : DirHost
  space : AddressSpace

/-- The call's registers, with the descriptor in the first argument. -/
def DirCall.context (call : DirCall) (fd : W64) : CallRegs := { call.regs with rdi := fd }

/-- What a call returns, what it was given room for, and the records it put in the buffer. -/
structure DirReply where
  value : ℤ
  count : ℕ
  records : Option (List GuestDirent)

def dirReply (context : CallRegs) (r : ℤ × DirProcess) : DirReply :=
  ⟨r.1, transferCount context, decodeRecords r.1.toNat (r.2.space.readRange (bufferAddress context) r.1.toNat)⟩

/-- The calls of a run that are `getdents64`, all on one descriptor. -/
def dirRun (d : HostDirectory) (fd : W64) : Fds → ℕ → List DirCall → List DirReply
  | _, _, [] => []
  | fds, position, call :: calls =>
    match sysGetdents64 d (call.context fd) call.kind call.host ⟨fds, call.space, position⟩ with
    | none => dirRun d fd fds position calls
    | some r => dirReply (call.context fd) r :: dirRun d fd r.2.fds r.2.position calls

/-- What a call must return, for the entries that were returned before it and the number of
those it returns itself. -/
structure ReplyRight (d : HostDirectory) (seen n : ℕ) (r : DirReply) : Prop where
  entries : r.records = some ((d.dirents.drop seen).take n)
  within : seen + n ≤ d.dirents.length
  aligned : ∀ x ∈ (d.dirents.drop seen).take n, x.reclen % 8 = 0 ∧ 19 + x.name.length + 1 ≤ x.reclen
  sum : (((d.dirents.drop seen).take n).map GuestDirent.reclen).sum = r.value.toNat
  fits : 0 ≤ r.value → r.value ≤ r.count
  finished : r.value = 0 → seen = d.dirents.length

/-- Every call goes on where the one before has ended. -/
def RepliesRight (d : HostDirectory) : ℕ → List DirReply → Prop
  | _, [] => True
  | seen, r :: rest => ∃ n, ReplyRight d seen n r ∧ RepliesRight d (seen + n) rest

/-- The records of a run, if all of them can be read. -/
def allRecords : List DirReply → Option (List GuestDirent)
  | [] => some []
  | r :: rest => r.records.bind fun records => (allRecords rest).map (records ++ ·)

/-- Each call is right, and a run that ends with 0 has returned every entry, once and in order. -/
structure DirectoryRight (d : HostDirectory) (replies : List DirReply) : Prop where
  each : RepliesRight d 0 replies
  complete : ∀ r, replies.getLast? = some r → r.value = 0 → allRecords replies = some d.dirents

/-- The bytes of the first `n` records from `start` on. -/
def usedBy (d : HostDirectory) (start n : ℕ) : ℕ := (((d.entries.drop start).take n).map recordLength).sum

/-- The position of the kernel when `n` entries were handed out from `start` on. -/
def kernelAfter (d : HostDirectory) (start : ℕ) : ℕ → ℕ
  | 0 => start
  | n + 1 => if start + n < kernelAfter d start n then kernelAfter d start n else d.refill (kernelAfter d start n)

/-- A call that fails before the library has read anything. -/
def Refused (context : CallRegs) (fds : Fds) (host : DirHost) (start : ℕ) : Prop :=
  (fds.hostFdFor (context.syscallArg 0)).1 = none ∨ fitsHostTransfer (transferCount context) = false ∨
    bufferAddress context = 0 ∨ rangeOverflows (bufferAddress context) (transferCount context) = true ∨
    host.openError ≠ none ∨ host.noRoom (min (transferCount context) ioChunkSize) = true ∨
    0 < transferCount context ∧ host.readError start ≠ none

/-- A call that stores `n` entries, none only at the end of the directory, and stops behind
the last of them: at the end, at an entry that does not fit, or with a full buffer where the
library has not read further. -/
structure Stores (d : HostDirectory) (context : CallRegs) (host : DirHost) (space : AddressSpace) (start n : ℕ) : Prop where
  within : start + n ≤ d.entries.length
  room : usedBy d start n ≤ transferCount context
  last : start + n = d.entries.length ∨ transferCount context < usedBy d start (n + 1)
  first : n = 0 → start = d.entries.length
  full : usedBy d start n = transferCount context → kernelAfter d start n = start + n
  read : ∀ i, i < n ∨ i = n ∧ usedBy d start n < transferCount context → kernelAfter d start i = start + i →
    host.readError (start + i) = none
  memory : ∀ i < n, host.noRoom (usedBy d start (i + 1)) = false
  pages : ∀ i < usedBy d start n, space.mapped (pageFloor (bufferAddress context + i)) = true

/-- Every call of the run is refused, or stores its entries and stops behind them. -/
def DirRunFine (d : HostDirectory) (fd : W64) : Fds → ℕ → List DirCall → Prop
  | _, _, [] => True
  | fds, start, call :: calls =>
    match sysGetdents64 d (call.context fd) call.kind call.host ⟨fds, call.space, start⟩ with
    | none => DirRunFine d fd fds start calls
    | some r =>
      (Refused (call.context fd) fds call.host start ∨ ∃ n, Stores d (call.context fd) call.host call.space start n) ∧
        DirRunFine d fd r.2.fds r.2.position calls

/-! ### Records are read back -/

theorem writeField_length (value : W64) (width : ℕ) : (writeField value width).length = width := by
  simp [writeField]

theorem leNat_writeField (value : W64) (width : ℕ) : leNat (writeField value width) = value.toNat % 256 ^ width := by
  induction width generalizing value with
  | zero =>
    rw [pow_zero, Nat.mod_one]
    rfl
  | succ width ih =>
    have hshift : writeField value (width + 1) = value.setWidth 8 :: writeField (value >>> 8) width := by
      simp only [writeField, List.range_succ_eq_map, List.map_cons, List.map_map, List.cons.injEq]
      refine ⟨by simp, List.map_congr_left fun i _ => ?_⟩
      rw [Function.comp_apply, ← BitVec.shiftRight_add, Nat.mul_succ, Nat.add_comm]
    have hcons : leNat (writeField value (width + 1)) = (value.setWidth 8).toNat + 256 * leNat (writeField (value >>> 8) width) := by
      rw [hshift]
      rfl
    rw [hcons, ih, BitVec.toNat_setWidth, BitVec.toNat_ushiftRight, Nat.shiftRight_eq_div_pow, pow_succ' 256 width]
    exact (@Nat.mod_mul 256 (256 ^ width) value.toNat).symm

theorem recordLength_bounds (e : DirEntry) : 19 + e.name.length + 1 ≤ recordLength e ∧ recordLength e < 2 ^ 16 ∧ recordLength e % 8 = 0 := by
  have hlen := e.name_length
  rw [recordLength]
  omega

theorem direntRecord_length (e : DirEntry) (next : W64) : (direntRecord e next).length = recordLength e := by
  have hbounds := recordLength_bounds e
  simp only [direntRecord, List.length_append, List.length_cons, writeField_length, List.length_replicate]
  omega

/-- **Records are read back as the entries they were made from.** -/
theorem decodeRecords_records (es : List (DirEntry × W64)) (fuel : ℕ) (hfuel : es.length ≤ fuel) :
    decodeRecords fuel (es.map fun x => direntRecord x.1 x.2).flatten = some (es.map fun x => x.1.dirent x.2) := by
  induction es generalizing fuel with
  | nil => cases fuel <;> rfl
  | cons x es ih =>
    obtain ⟨e, next⟩ := x
    obtain ⟨fuel, rfl⟩ : ∃ f, fuel = f + 1 := ⟨fuel - 1, by rw [List.length_cons] at hfuel; omega⟩
    have hbounds := recordLength_bounds e
    rw [List.map_cons, List.flatten_cons, List.map_cons]
    set rest := (es.map fun x => direntRecord x.1 x.2).flatten with hrest
    have hlength := direntRecord_length e next
    -- the fields are read one after the other: each drop is what the one before left
    have hino : (direntRecord e next ++ rest).take 8 = writeField e.ino 8 := by
      rw [direntRecord, List.append_assoc]
      exact List.take_left' (writeField_length _ _)
    have hafter : (direntRecord e next ++ rest).drop 8 = writeField next 8 ++ (writeField (BitVec.ofNat 64 (recordLength e)) 2 ++
        (linuxDirentType e.type :: (e.name ++ List.replicate (recordLength e - 19 - e.name.length) 0) ++ rest)) := by
      rw [direntRecord, List.append_assoc, List.drop_left' (writeField_length _ _)]
      simp only [List.append_assoc]
    have hoff : ((direntRecord e next ++ rest).drop 8).take 8 = writeField next 8 := by
      rw [hafter]
      exact List.take_left' (writeField_length _ _)
    have hmid : (direntRecord e next ++ rest).drop 16 = writeField (BitVec.ofNat 64 (recordLength e)) 2 ++
        (linuxDirentType e.type :: (e.name ++ List.replicate (recordLength e - 19 - e.name.length) 0) ++ rest) := by
      have hdrop : (direntRecord e next ++ rest).drop 16 = ((direntRecord e next ++ rest).drop 8).drop 8 := by
        rw [List.drop_drop]
      rw [hdrop, hafter, List.drop_left' (writeField_length _ _)]
    have hreclen : leNat (((direntRecord e next ++ rest).drop 16).take 2) = recordLength e := by
      rw [hmid, List.take_left' (writeField_length _ _), leNat_writeField, BitVec.toNat_ofNat]
      omega
    have htail : (direntRecord e next ++ rest).drop 18 =
        linuxDirentType e.type :: (e.name ++ List.replicate (recordLength e - 19 - e.name.length) 0) ++ rest := by
      have hdrop : (direntRecord e next ++ rest).drop 18 = ((direntRecord e next ++ rest).drop 16).drop 2 := by
        rw [List.drop_drop]
      rw [hdrop, hmid, List.drop_left' (writeField_length _ _)]
    have htype : (direntRecord e next ++ rest).getD 18 0 = linuxDirentType e.type := by
      have hhead := congrArg (fun l => l.getD 0 0) htail
      simpa [List.getD_eq_getElem?_getD, List.getElem?_drop] using hhead
    have hname : (((direntRecord e next ++ rest).take (recordLength e)).drop 19).takeWhile (· ≠ 0) = e.name := by
      have hdrop : ((direntRecord e next ++ rest).take (recordLength e)).drop 19 =
          e.name ++ List.replicate (recordLength e - 19 - e.name.length) 0 := by
        have hdrop' : (direntRecord e next).drop 19 = e.name ++ List.replicate (recordLength e - 19 - e.name.length) 0 := by
          have hheader : direntRecord e next =
              (writeField e.ino 8 ++ (writeField next 8 ++ (writeField (BitVec.ofNat 64 (recordLength e)) 2 ++ [linuxDirentType e.type]))) ++
                (e.name ++ List.replicate (recordLength e - 19 - e.name.length) 0) := by
            simp [direntRecord]
          rw [hheader]
          exact List.drop_left' (by simp [writeField_length])
        rw [← hlength, List.take_left' rfl, hlength, hdrop']
      -- the padding has at least the byte that ends the name
      obtain ⟨zeros, hzeros⟩ : ∃ k, recordLength e - 19 - e.name.length = k + 1 := ⟨recordLength e - 19 - e.name.length - 1, by omega⟩
      rw [hdrop, hzeros, List.replicate_succ, List.takeWhile_append_of_pos]
      · simp
      · intro b hb
        have hne : b ≠ 0 := fun h => e.name_nonzero (h ▸ hb)
        simpa using hne
    rw [decodeRecords]
    · rw [hreclen]
      have hskip : (direntRecord e next ++ rest).drop (recordLength e) = rest := List.drop_left' hlength
      have hcond : ¬ (recordLength e < 20 ∨ (direntRecord e next ++ rest).length < recordLength e) := by
        rw [List.length_append, hlength]
        omega
      rw [if_neg hcond, hskip, ih fuel (by simpa using hfuel), hino, hoff, htype, hname]
      simp only [leNat_writeField, Option.map_some, DirEntry.dirent]
      congr 3 <;> omega
    · intro hnil
      rw [← List.length_eq_zero_iff, List.length_append, hlength] at hnil
      omega

/-! ### One call -/

section Call

variable {d : HostDirectory} {context : CallRegs} {kind : SyscallKind} {host : DirHost} {p : DirProcess} {fds : Fds}
  {space : AddressSpace} {start n : ℕ}

theorem withNext_getElem (i : ℕ) (h : i < d.entries.length) :
    d.withNext[i]? = some (d.entries[i], d.cookie (i + 1)) := by
  rw [HostDirectory.withNext, List.getElem?_mapIdx, List.getElem?_eq_getElem h]
  rfl

theorem withNext_fst : d.withNext.map Prod.fst = d.entries := by
  apply List.ext_getElem?
  intro i
  rw [HostDirectory.withNext, List.getElem?_map, List.getElem?_mapIdx, Option.map_map]
  cases d.entries[i]? <;> rfl

theorem withNext_length : d.withNext.length = d.entries.length := List.length_mapIdx

/-- The bytes of the first `i` records from `start` on. -/
def recordBytes (d : HostDirectory) (start i : ℕ) : List Byte :=
  (((d.withNext.drop start).take i).map fun x => direntRecord x.1 x.2).flatten

theorem recordBytes_length (i : ℕ) : (recordBytes d start i).length = usedBy d start i := by
  have hentries : (d.entries.drop start).take i = ((d.withNext.drop start).take i).map Prod.fst := by
    rw [List.map_take, List.map_drop, withNext_fst]
  rw [recordBytes, usedBy, hentries, List.length_flatten, List.map_map, List.map_map]
  congr 1
  apply List.map_congr_left
  intro x _
  exact direntRecord_length x.1 x.2

theorem recordBytes_succ {i : ℕ} (h : start + i < d.entries.length) :
    recordBytes d start (i + 1) = recordBytes d start i ++ direntRecord d.entries[start + i] (d.cookie (start + i + 1)) := by
  have hget : (d.withNext.drop start)[i]? = some (d.entries[start + i], d.cookie (start + i + 1)) := by
    rw [List.getElem?_drop]
    exact withNext_getElem _ h
  rw [recordBytes, List.take_add_one, hget, List.map_append, List.flatten_append]
  simp [recordBytes]

theorem usedBy_succ {i : ℕ} (h : start + i < d.entries.length) :
    usedBy d start (i + 1) = usedBy d start i + recordLength d.entries[start + i] := by
  rw [← recordBytes_length, recordBytes_succ h, List.length_append, recordBytes_length, direntRecord_length]

theorem usedBy_mono {i j : ℕ} (hle : i ≤ j) (hj : start + j ≤ d.entries.length) : usedBy d start i + 20 * (j - i) ≤ usedBy d start j := by
  induction j with
  | zero =>
    obtain rfl := Nat.le_zero.1 hle
    omega
  | succ j ih =>
    rcases Nat.lt_or_ge i (j + 1) with hlt | hge
    · have hprev := ih (by omega) (by omega)
      have hbound := recordLength_bounds d.entries[start + j]
      rw [usedBy_succ (by omega)]
      omega
    · obtain rfl : i = j + 1 := by omega
      omega

/-- The kernel is never behind the stream. -/
theorem kernelAfter_bounds {i : ℕ} (h : start + i ≤ d.entries.length) :
    start + i ≤ kernelAfter d start i ∧ kernelAfter d start i ≤ d.entries.length := by
  induction i with
  | zero => exact ⟨le_rfl, h⟩
  | succ i ih =>
    obtain ⟨hlo, hhi⟩ := ih (by omega)
    rw [kernelAfter]
    split
    · omega
    · have hlt : kernelAfter d start i < d.entries.length := by omega
      have hgt := d.refill_gt _ hlt
      have hle := d.refill_le _ hlt
      omega

/-- `readdir` hands out the next entry, if reading ahead does not fail. -/
theorem readdir_next {error : ℕ → Option ℕ} {i : ℕ} (h : start + i < d.entries.length)
    (herror : kernelAfter d start i = start + i → error (start + i) = none) :
    readdir d error ⟨start + i, kernelAfter d start i⟩ =
      (.ok (some d.entries[start + i]), ⟨start + i + 1, kernelAfter d start (i + 1)⟩) := by
  have hget : d.entries[start + i]? = some d.entries[start + i] := List.getElem?_eq_getElem h
  obtain ⟨hlo, -⟩ := @kernelAfter_bounds d start i (by omega)
  rw [readdir, kernelAfter]
  by_cases hlt : start + i < kernelAfter d start i
  · rw [if_pos hlt, if_pos hlt, hget]
  · have hkernel : kernelAfter d start i = start + i := by omega
    rw [if_neg hlt, if_neg hlt, hkernel, herror hkernel]
    dsimp only
    rw [if_pos h, hget]

/-- **The loop** stores its entries and leaves the position behind the last of them. -/
theorem collect_spec (h : Stores d context host space start n) (turns i : ℕ) (hi : i ≤ n) (hturns : n - i < turns) :
    ∃ s, collect d host (transferCount context) turns ⟨start + i, kernelAfter d start i⟩ (recordBytes d start i) =
      (.ok (recordBytes d start n), s) ∧ s.kernel = start + n := by
  have hwithin := h.within
  have hroom := h.room
  induction turns generalizing i with
  | zero => omega
  | succ turns ih =>
    rw [collect, recordBytes_length]
    rcases Nat.lt_or_eq_of_le hi with hlt | rfl
    · -- one more entry fits
      have hused := @usedBy_mono d start (i + 1) n hlt hwithin
      have hnext := @usedBy_succ d start i (by omega)
      have hbounds := recordLength_bounds d.entries[start + i]
      rw [if_neg (by omega)]
      dsimp only
      rw [readdir_next (by omega) (h.read i (.inl hlt))]
      dsimp only
      have hmemory := h.memory i hlt
      rw [if_neg (by omega), ← hnext, hmemory, if_neg Bool.false_ne_true, ← recordBytes_succ (by omega)]
      exact ih (i + 1) hlt (by omega)
    · by_cases hfull : transferCount context ≤ usedBy d start i
      · rw [if_pos hfull]
        exact ⟨_, rfl, h.full (by omega)⟩
      · rw [if_neg hfull]
        dsimp only
        have hread := h.read i (.inr ⟨rfl, by omega⟩)
        rcases h.last with hend | hlarge
        · -- the end of the directory
          have hkernel : kernelAfter d start i = start + i := by
            have hb := @kernelAfter_bounds d start i hwithin
            omega
          have hstop : readdir d host.readError ⟨start + i, kernelAfter d start i⟩ = (.ok none, ⟨start + i, kernelAfter d start i⟩) := by
            rw [readdir, hkernel, if_neg (lt_irrefl _), hread hkernel]
            dsimp only
            rw [if_neg (by omega)]
          rw [hstop]
          exact ⟨_, rfl, hkernel⟩
        · -- the next entry is handed out and taken back
          by_cases hend : start + i = d.entries.length
          · exfalso
            have hsame : usedBy d start (i + 1) = usedBy d start i := by
              rw [usedBy, usedBy, List.take_of_length_le, List.take_of_length_le] <;> rw [List.length_drop] <;> omega
            omega
          · have hnext := @usedBy_succ d start i (by omega)
            rw [readdir_next (by omega) hread]
            dsimp only
            rw [if_pos (by omega)]
            exact ⟨_, rfl, rfl⟩

theorem dirents_eq (i : ℕ) : (d.dirents.drop start).take i = ((d.withNext.drop start).take i).map fun x => x.1.dirent x.2 := by
  rw [HostDirectory.dirents, List.map_take, List.map_drop]

theorem dirents_length : d.dirents.length = d.entries.length := by
  rw [HostDirectory.dirents, List.length_map, withNext_length]

theorem dirents_aligned : ∀ x ∈ (d.dirents.drop start).take n, x.reclen % 8 = 0 ∧ 19 + x.name.length + 1 ≤ x.reclen := by
  intro x hx
  rw [dirents_eq] at hx
  obtain ⟨y, -, rfl⟩ := List.mem_map.1 hx
  obtain ⟨hle, -, hmod⟩ := recordLength_bounds y.1
  exact ⟨hmod, hle⟩

theorem dirents_sum : (((d.dirents.drop start).take n).map GuestDirent.reclen).sum = usedBy d start n := by
  rw [dirents_eq, ← recordBytes_length, recordBytes, List.length_flatten, List.map_map, List.map_map]
  congr 1
  apply List.map_congr_left
  intro x _
  exact (direntRecord_length x.1 x.2).symm

/-- An error returns no record. -/
theorem replyRight_error {error : ℕ} {q : DirProcess} (herror : 0 < error) (hstart : start ≤ d.entries.length) :
    ReplyRight d start 0 (dirReply context (returnError error, q)) := by
  have hneg := returnError_neg herror
  have hzero : (returnError error).toNat = 0 := by omega
  refine ⟨?_, ?_, dirents_aligned, ?_, ?_, ?_⟩
  · simp only [dirReply, hzero]
    rfl
  · rw [dirents_length]
    exact hstart
  · rw [dirents_sum]
    exact hzero.symm
  · intro h
    have h' : 0 ≤ returnError error := h
    omega
  · intro h
    have h' : returnError error = 0 := h
    omega

/-- A call that stores its entries. -/
theorem readRecords_stores (h : Stores d context host p.space p.position n)
    (hreserve : host.noRoom (min (transferCount context) ioChunkSize) = false)
    (hover : rangeOverflows (bufferAddress context) (transferCount context) = false) :
    ReplyRight d p.position n (dirReply context (readRecords d context host p)) ∧
      (readRecords d context host p).2.position = p.position + n ∧ (readRecords d context host p).2.fds = p.fds := by
  have hwithin := h.within
  have hroom := h.room
  obtain ⟨s, hcollect, hkernel⟩ := collect_spec h (d.entries.length + 1) 0 (Nat.zero_le n) (by omega)
  have hcollect' : collect d host (transferCount context) (d.entries.length + 1) (seekdir p.position) [] =
      (.ok (recordBytes d p.position n), s) := hcollect
  have hlength := @recordBytes_length d p.position n
  have hwithin' : p.position + n ≤ d.dirents.length := by
    rw [dirents_length]
    exact hwithin
  -- the value and the bytes in the buffer
  have hvalue : (readRecords d context host p).1 = usedBy d p.position n ∧
      (readRecords d context host p).2.space.readRange (bufferAddress context) (usedBy d p.position n) = recordBytes d p.position n ∧
      (readRecords d context host p).2.position = p.position + n ∧ (readRecords d context host p).2.fds = p.fds := by
    rw [readRecords]
    simp only [hreserve, hcollect', Bool.false_eq_true, if_false]
    cases hempty : (recordBytes d p.position n).isEmpty with
    | true =>
      have hnil := List.isEmpty_iff.1 hempty
      rw [hnil, List.length_nil] at hlength
      rw [if_pos rfl, hnil, ← hlength]
      exact ⟨rfl, rfl, hkernel, rfl⟩
    | false =>
      have hpos : 0 < (recordBytes d p.position n).length := List.length_pos_iff.2 (List.isEmpty_eq_false_iff.1 hempty)
      have hfit : bufferAddress context + (recordBytes d p.position n).length ≤ 2 ^ 64 := by
        have hcount : transferCount context < 2 ^ 64 := (context.syscallArg 2).isLt
        simp only [rangeOverflows, Bool.and_eq_false_iff, bne_eq_false_iff_eq, decide_eq_false_iff_not] at hover
        omega
      have hok := @write_ok p.space (bufferAddress context) (recordBytes d p.position n) hpos hfit (by
        intro a hlo hhi
        have hpage := h.pages (a - bufferAddress context) (by omega)
        rwa [show bufferAddress context + (a - bufferAddress context) = a by omega] at hpage)
      rw [if_neg Bool.false_ne_true, hok]
      refine ⟨by rw [← hlength], ?_, hkernel, rfl⟩
      rw [← hlength]
      exact readRange_write p.space hok
  obtain ⟨hvalue, hbytes, hposition⟩ := hvalue
  have hnat : (readRecords d context host p).1.toNat = usedBy d p.position n := by
    rw [hvalue]
    exact Int.toNat_natCast _
  refine ⟨⟨?_, hwithin', dirents_aligned, ?_, ?_, ?_⟩, hposition⟩
  · -- the records are read back
    have hcount : ((d.withNext.drop p.position).take n).length ≤ usedBy d p.position n := by
      have hmono := @usedBy_mono d p.position 0 n (Nat.zero_le n) hwithin
      rw [List.length_take]
      omega
    simp only [dirReply]
    rw [hnat, hbytes, recordBytes, decodeRecords_records _ _ hcount, dirents_eq]
  · rw [dirents_sum]
    exact hnat.symm
  · intro _
    simp only [dirReply]
    omega
  · intro hzero
    have hzero' : (readRecords d context host p).1 = 0 := hzero
    have hmono := @usedBy_mono d p.position 0 n (Nat.zero_le n) hwithin
    rw [dirents_length]
    exact h.first (by omega)

/-- **One call.** -/
theorem sysGetdents64_right {r : ℤ × DirProcess} (hr : sysGetdents64 d context kind host ⟨fds, space, start⟩ = some r)
    (hstart : start ≤ d.entries.length) (h : Refused context fds host start ∨ ∃ n, Stores d context host space start n) :
    ∃ n, ReplyRight d start n (dirReply context r) ∧ r.2.position = start + n ∧ start + n ≤ d.entries.length := by
  -- an error that leaves the position where it is
  have hfail : ∀ (error : ℕ) (q : DirProcess), 0 < error → q.position = start → r = (returnError error, q) →
      ∃ n, ReplyRight d start n (dirReply context r) ∧ r.2.position = start + n ∧ start + n ≤ d.entries.length := by
    rintro error q herror hposition rfl
    exact ⟨0, replyRight_error herror hstart, hposition, hstart⟩
  rw [sysGetdents64] at hr
  split at hr
  · cases hr
  · cases hfd : fds.hostFdFor (context.syscallArg 0) with
    | mk fd fds' =>
      simp only [hfd] at hr
      cases fd with
      | none => exact hfail linuxEbadf _ (by decide) rfl (Option.some.inj hr).symm
      | some fd =>
        dsimp only at hr
        split at hr
        · exact hfail linuxEinval _ (by decide) rfl (Option.some.inj hr).symm
        · rename_i hfits
          split at hr
          · exact hfail linuxEfault _ (by decide) rfl (Option.some.inj hr).symm
          · rename_i haddress
            cases hopen : host.openError with
            | some e =>
              rw [hopen] at hr
              exact hfail e _ (host.openError_pos e hopen) rfl (Option.some.inj hr).symm
            | none =>
              rw [hopen] at hr
              have hr' := (Option.some.inj hr).symm
              simp only [Bool.or_eq_true, beq_iff_eq, not_or, Bool.not_eq_true] at haddress
              by_cases hreserve : host.noRoom (min (transferCount context) ioChunkSize) = true
              · refine hfail linuxEnomem ⟨fds', space, start⟩ (by decide) rfl ?_
                rw [hr', readRecords]
                simp only [hreserve, if_true]
                rfl
              · rcases h with hrefused | ⟨n, hstores⟩
                · -- only the first read of the directory is left to fail
                  have hread : 0 < transferCount context ∧ host.readError start ≠ none := by
                    rcases hrefused with h | h | h | h | h | h | h
                    · rw [hfd] at h
                      cases h
                    · rw [h] at hfits
                      exact absurd rfl hfits
                    · exact absurd h haddress.1
                    · rw [h] at haddress
                      exact absurd haddress.2 (by decide)
                    · exact absurd hopen h
                    · exact absurd h hreserve
                    · exact h
                  obtain ⟨e, he⟩ := Option.ne_none_iff_exists'.1 hread.2
                  refine hfail e ⟨fds', space, start⟩ (host.readError_pos _ e he) rfl ?_
                  have hcollect : collect d host (transferCount context) (d.entries.length + 1) (seekdir start) [] =
                      (.error e, seekdir start) := by
                    rw [collect, List.length_nil, if_neg (by omega)]
                    simp only [readdir, seekdir, lt_irrefl, if_false, he]
                  rw [hr', readRecords]
                  simp only [hreserve, hcollect]
                  rfl
                · obtain ⟨hreply, hposition, -⟩ := @readRecords_stores d context host ⟨fds', space, start⟩ n hstores
                    (Bool.eq_false_iff.2 hreserve) haddress.2
                  rw [hr']
                  exact ⟨n, hreply, hposition, hstores.within⟩

end Call

/-! ### All calls -/

/-- Every call of a run goes on where the one before has ended. -/
theorem repliesRight_of_fine (d : HostDirectory) (fd : W64) (calls : List DirCall) (fds : Fds) (start : ℕ)
    (hstart : start ≤ d.entries.length) (hfine : DirRunFine d fd fds start calls) : RepliesRight d start (dirRun d fd fds start calls) := by
  induction calls generalizing fds start with
  | nil => trivial
  | cons call calls ih =>
    rw [DirRunFine] at hfine
    rw [dirRun]
    cases hr : sysGetdents64 d (call.context fd) call.kind call.host ⟨fds, call.space, start⟩ with
    | none =>
      rw [hr] at hfine
      exact ih fds start hstart hfine
    | some r =>
      rw [hr] at hfine
      obtain ⟨hcall, hrest⟩ := hfine
      obtain ⟨n, hreply, hposition, hwithin⟩ := sysGetdents64_right hr hstart hcall
      rw [hposition] at hrest
      refine ⟨n, hreply, ?_⟩
      rw [hposition]
      exact ih r.2.fds (start + n) hwithin hrest

/-- Calls that go on where the one before has ended have returned all that was left when
one returns 0. -/
theorem allRecords_of_right (d : HostDirectory) (replies : List DirReply) (seen : ℕ) (h : RepliesRight d seen replies) (r : DirReply)
    (hlast : replies.getLast? = some r) (hzero : r.value = 0) : allRecords replies = some (d.dirents.drop seen) := by
  induction replies generalizing seen with
  | nil => cases hlast
  | cons first rest ih =>
    obtain ⟨n, hfirst, hrest⟩ := h
    rw [allRecords, hfirst.entries, Option.bind_some]
    cases rest with
    | nil =>
      -- the last call is at the end of the directory
      obtain rfl : first = r := Option.some.inj hlast
      have hend := hfirst.finished hzero
      rw [hend, List.drop_length, List.take_nil]
      rfl
    | cons second rest =>
      have hlast' : (second :: rest).getLast? = some r := by
        rw [← hlast, List.getLast?_cons_cons]
      rw [ih _ hrest hlast', Option.map_some, ← List.drop_drop, List.take_append_drop]

/-- **Runs of calls return every entry once and in order.** -/
theorem directory_right_of_run (d : HostDirectory) (fd : W64) (fds : Fds) (calls : List DirCall) (h : DirRunFine d fd fds 0 calls) :
    DirectoryRight d (dirRun d fd fds 0 calls) := by
  have heach := repliesRight_of_fine d fd calls fds 0 (Nat.zero_le _) h
  refine ⟨heach, fun r hlast hzero => ?_⟩
  rw [allRecords_of_right d _ 0 heach r hlast hzero, List.drop_zero]

/-! ### A buffer that is filled exactly -/

/-- A directory of two files, which the library reads in one go. -/
def twoFiles : HostDirectory where
  entries := [⟨[0x61], 1, .reg, by decide, by decide⟩, ⟨[0x62], 2, .reg, by decide, by decide⟩]
  cookie := fun k => BitVec.ofNat 64 k
  refill := fun _ => 2
  refill_gt := fun _ hk => hk
  refill_le := fun _ _ => le_rfl

def readyHost : DirHost where
  openError := none
  openError_pos := none_pos
  readError := fun _ => none
  readError_pos := fun _ => none_pos
  noRoom := fun _ => false

/-- A call on descriptor 0, with room for `count` bytes at 0x1000. -/
def getdentsCall (count : W64) : DirCall := ⟨⟨217, 0, 0x1000, count, 0, 0, 0⟩, .syscall64, readyHost, pageSpace⟩

/-- The descriptors of the first process. -/
def firstFds : Fds := (transferProcess pageSpace).fds

theorem twoFiles_right : DirectoryRight twoFiles (dirRun twoFiles 0 firstFds 0 [getdentsCall 64, getdentsCall 64]) := by
  apply directory_right_of_run
  have hfirst : Stores twoFiles ((getdentsCall 64).context 0) readyHost pageSpace 0 2 :=
    ⟨by decide, by decide, by decide, by decide, by decide, fun _ _ _ => rfl, fun _ _ => rfl, by decide +kernel⟩
  have hsecond : Stores twoFiles ((getdentsCall 64).context 0) readyHost pageSpace 2 0 :=
    ⟨by decide, by decide, by decide, by decide, by decide, fun _ _ _ => rfl, fun _ _ => rfl, by decide +kernel⟩
  rw [DirRunFine]
  cases hr : sysGetdents64 twoFiles ((getdentsCall 64).context 0) .syscall64 readyHost ⟨firstFds, pageSpace, 0⟩ with
  | none =>
    exact absurd (congrArg Option.isSome hr) (by decide +kernel)
  | some r =>
    have hposition : r.2.position = 2 := by
      have hmap : (sysGetdents64 twoFiles ((getdentsCall 64).context 0) .syscall64 readyHost ⟨firstFds, pageSpace, 0⟩).map
          (fun r => r.2.position) = some 2 := by decide +kernel
      rw [hr] at hmap
      exact Option.some.inj hmap
    have hcall : sysGetdents64 twoFiles ((getdentsCall 64).context 0) (getdentsCall 64).kind (getdentsCall 64).host
        ⟨firstFds, (getdentsCall 64).space, 0⟩ = some r := hr
    rw [hcall]
    refine ⟨.inr ⟨2, hfirst⟩, ?_⟩
    rw [hposition, DirRunFine]
    split
    · trivial
    · exact ⟨.inr ⟨0, hsecond⟩, trivial⟩

/-- The first call fills its buffer with one record, and the second returns 0. -/
theorem not_directory_right : ¬ ∀ d fd fds calls, DirectoryRight d (dirRun d fd fds 0 calls) := by
  intro h
  have hright := h twoFiles 0 firstFds [getdentsCall 24, getdentsCall 24]
  have hlast : (dirRun twoFiles 0 firstFds 0 [getdentsCall 24, getdentsCall 24]).getLast?.map DirReply.value = some 0 := by
    decide +kernel
  obtain ⟨r, hr, hzero⟩ := Option.map_eq_some_iff.1 hlast
  have hall := hright.complete r hr hzero
  revert hall
  decide +kernel

end X86Sim.Linux
