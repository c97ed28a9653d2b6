import X86Sim.Linux.FdTable
import X86Sim.Mem.Copies

/-!
# Transfers between guest buffers and host files (`syscall-linux-posix.cpp`)

`read`, `write`, `pread64` and `pwrite64`. Output goes page by page from the guest to the
host; input is taken from the host first and stored in the guest afterwards.

* `outputLoop_spec`: what output has delivered, wherever it stops.
* `hostTransfer_right_iff`: when a transfer accounts for exactly the bytes it returns.
-/

namespace X86Sim.Linux

open AddressSpace

/-- What the host does in one call: whether it has room for the buffer, the bytes its reads
hand over, and how many bytes its writes take, each after what the call wrote before. No
answer is an error, and `errno` is its Linux number. -/
structure TransferHost where
  copyError : Option ℕ
  copyError_pos : ∀ e ∈ copyError, 0 < e
  read : ℕ → ℕ → Option (List Byte)
  read_le : ∀ fd count bytes, read fd count = some bytes → bytes.length ≤ count
  pread : ℕ → ℕ → ℤ → Option (List Byte)
  pread_le : ∀ fd count offset bytes, pread fd count offset = some bytes → bytes.length ≤ count
  write : ℕ → ℕ → List Byte → Option ℕ
  write_le : ∀ fd total bytes n, write fd total bytes = some n → n ≤ bytes.length
  pwrite : ℕ → ℕ → List Byte → ℤ → Option ℕ
  pwrite_le : ∀ fd total bytes offset n, pwrite fd total bytes offset = some n → n ≤ bytes.length
  errno : ℕ
  errno_pos : 0 < errno

/-- The process, as the transfers see it. -/
structure TransferProcess where
  fds : Fds
  space : AddressSpace

/-- The value of a call, the process after it, the bytes the host handed over, those of them
that were taken from its descriptor, and the bytes the host took, with the offset of each
where the call gives one. -/
structure Transfer where
  value : ℤ
  process : TransferProcess
  received : List Byte
  consumed : List Byte
  delivered : List (Option ℤ × Byte)

def syscallRead : ℕ := 0
def syscallWrite : ℕ := 1
def syscallPread64 : ℕ := 17
def syscallPwrite64 : ℕ := 18

def ioChunkSize : ℕ := 64 * 1024

def fitsHostTransfer (count : ℕ) : Bool := count ≤ 2 ^ 63 - 1

namespace TransferProcess

variable (p : TransferProcess)

def fails (error : ℕ) : Transfer := ⟨returnError error, p, [], [], []⟩

end TransferProcess

/-- The arguments of a transfer: descriptor, buffer, count and offset. -/
def bufferAddress (context : CallRegs) : ℕ := (context.syscallArg 1).toNat
def transferCount (context : CallRegs) : ℕ := (context.syscallArg 2).toNat
def fileOffset (context : CallRegs) : ℤ := (context.syscallArg 3).toInt

/-- The checks that all four calls make before they go to the host: its descriptor, or the
error number. -/
def transferFd (context : CallRegs) (p : TransferProcess) : Except ℕ ℕ × TransferProcess :=
  match p.fds.hostFdFor (context.syscallArg 0) with
  | (none, fds) => (.error linuxEbadf, { p with fds := fds })
  | (some fd, fds) =>
    if !fitsHostTransfer (transferCount context) then (.error linuxEinval, { p with fds := fds })
    else if rangeOverflows (bufferAddress context) (transferCount context) then (.error linuxEfault, { p with fds := fds })
    else (.ok fd, { p with fds := fds })

/-- The end of `read` and `pread64`: the bytes of the host go to the guest. -/
def storeInput (context : CallRegs) (p : TransferProcess) (bytes consumed : List Byte) : Transfer :=
  if bytes.isEmpty then ⟨0, p, bytes, consumed, []⟩
  else
    let written := p.space.write (bufferAddress context) bytes
    let p := { p with space := written.space }
    match written.result with
    | .error e => ⟨returnError (memoryErrorToLinux e), p, bytes, consumed, []⟩
    | .ok () => ⟨bytes.length, p, bytes, consumed, []⟩

/-- The loop of `write` and `pwrite64`: `put` is the host call after the bytes written so
far, `place` the offset of a byte. -/
def outputLoop (space : AddressSpace) (buffer count errno : ℕ) (place : ℕ → Option ℤ) (put : ℕ → List Byte → Option ℕ) :
    ℕ → ℕ → List (Option ℤ × Byte) → ℤ × List (Option ℤ × Byte)
  | 0, total, delivered => (total, delivered)
  | turns + 1, total, delivered =>
    if count ≤ total then (total, delivered)
    else
      let address := buffer + total
      let chunkSize := min (min (count - total) ioChunkSize) (kPageSize - address % kPageSize)
      match space.read address chunkSize with
      | .error e => (if total = 0 then returnError (memoryErrorToLinux e) else total, delivered)
      | .ok bytes =>
        match put total bytes with
        | none => (if total = 0 then returnError errno else total, delivered)
        | some written =>
          let delivered := delivered ++ (List.range written).map fun i => (place (total + i), bytes.getD i 0)
          if written < chunkSize then ((total + written : ℕ), delivered)
          else outputLoop space buffer count errno place put turns (total + written) delivered

section Handlers

variable (context : CallRegs) (kind : SyscallKind) (host : TransferHost) (p : TransferProcess)

def sysRead : Option Transfer :=
  if !handles context kind syscallRead then none
  else
    match transferFd context p with
    | (.error e, p) => some (p.fails e)
    | (.ok fd, p) =>
      match host.copyError with
      | some e => some (p.fails e)
      | none =>
        match host.read fd (transferCount context) with
        | none => some (p.fails host.errno)
        | some bytes => some (storeInput context p bytes bytes)

def sysWrite : Option Transfer :=
  if !handles context kind syscallWrite then none
  else
    match transferFd context p with
    | (.error e, p) => some (p.fails e)
    | (.ok fd, p) =>
      let r := outputLoop p.space (bufferAddress context) (transferCount context) host.errno (fun _ => none) (host.write fd)
        (transferCount context + 1) 0 []
      some ⟨r.1, p, [], [], r.2⟩

def sysPreadPwrite : Option Transfer :=
  if !handles context kind syscallPread64 && !handles context kind syscallPwrite64 then none
  else
    match transferFd context p with
    | (.error e, p) => some (p.fails e)
    | (.ok fd, p) =>
      -- a positioned call reads or writes at an offset and leaves the descriptor where it is
      if !(context.syscallNumber == syscallPwrite64) then
        match host.copyError with
        | some e => some (p.fails e)
        | none =>
          match host.pread fd (transferCount context) (fileOffset context) with
          | none => some (p.fails host.errno)
          | some bytes => some (storeInput context p bytes [])
      else
        let r := outputLoop p.space (bufferAddress context) (transferCount context) host.errno
          (fun i => some (fileOffset context + i))
          (fun total bytes => host.pwrite fd total bytes (fileOffset context + total)) (transferCount context + 1) 0 []
        some ⟨r.1, p, [], [], r.2⟩

/-- The handlers, in the order they are tried. -/
def transferSyscall : Option Transfer :=
  (sysRead context kind host p).or <| (sysWrite context kind host p).or <| sysPreadPwrite context kind host p

end Handlers

/-! ### Output -/

section Output

variable {space : AddressSpace} {buffer count errno : ℕ} {place : ℕ → Option ℤ} {put : ℕ → List Byte → Option ℕ}

/-- The first `k` bytes of the guest's buffer, at their places. -/
def outputOf (space : AddressSpace) (buffer : ℕ) (place : ℕ → Option ℤ) (k : ℕ) : List (Option ℤ × Byte) :=
  (List.range k).map fun i => (place i, space.bytes (buffer + i))

/-- What the loop returns and has delivered. -/
structure Accounts (space : AddressSpace) (buffer count : ℕ) (place : ℕ → Option ℤ) (r : ℤ × List (Option ℤ × Byte)) : Prop where
  done : 0 ≤ r.1 → r.1 ≤ count ∧ r.2 = outputOf space buffer place r.1.toNat
  failed : r.1 < 0 → r.2 = []

theorem accounts_total {total : ℕ} (h : total ≤ count) : Accounts space buffer count place (total, outputOf space buffer place total) := by
  refine ⟨fun _ => ⟨by dsimp only; omega, rfl⟩, ?_⟩
  intro hneg
  dsimp only at hneg
  omega

/-- An early exit: an error if nothing was delivered yet, else the number of bytes. -/
theorem accounts_exit {total error : ℕ} (h : total ≤ count) (herror : 0 < error) :
    Accounts space buffer count place (if total = 0 then returnError error else total, outputOf space buffer place total) := by
  by_cases hzero : total = 0
  · subst hzero
    have hneg := returnError_neg herror
    rw [if_pos rfl]
    refine ⟨fun hpos => ?_, fun _ => rfl⟩
    dsimp only at hpos
    omega
  · rw [if_neg hzero]
    exact accounts_total h

theorem read_contents {m : AddressSpace} {start size : ℕ} {bytes : List Byte} (h : m.read start size = .ok bytes) :
    bytes = m.readRange start size := by
  have hmapped := (read_ok h).2
  rw [AddressSpace.read] at h
  split at h
  · cases h
  · split at h
    · cases h
    · rw [readLoop_eq _ _ _ le_rfl (fun i hi => hmapped _ (by omega) (by omega))] at h
      exact (Except.ok.inj h).symm

theorem outputOf_add (n k : ℕ) : outputOf space buffer place (n + k) =
    outputOf space buffer place n ++ (List.range k).map fun i => (place (n + i), space.bytes (buffer + (n + i))) := by
  simp only [outputOf, List.range_add, List.map_append, List.map_map]
  rfl

/-- **The loop accounts for what it delivers**, wherever it stops. -/
theorem outputLoop_spec (herrno : 0 < errno) (hput : ∀ total bytes n, put total bytes = some n → n ≤ bytes.length) (turns total : ℕ)
    (htotal : total ≤ count) :
    Accounts space buffer count place
      (outputLoop space buffer count errno place put turns total (outputOf space buffer place total)) := by
  induction turns generalizing total with
  | zero => exact accounts_total htotal
  | succ turns ih =>
    rw [outputLoop]
    by_cases hend : count ≤ total
    · rw [if_pos hend]
      exact accounts_total htotal
    · rw [if_neg hend]
      dsimp only
      set chunkSize := min (min (count - total) ioChunkSize) (kPageSize - (buffer + total) % kPageSize) with hchunk
      cases hread : space.read (buffer + total) chunkSize with
      | error e => exact accounts_exit htotal (memoryErrorToLinux_pos e)
      | ok bytes =>
        dsimp only
        have hbytes := read_contents hread
        have hlength : bytes.length = chunkSize := (read_ok hread).1
        cases hwritten : put total bytes with
        | none => exact accounts_exit htotal herrno
        | some written =>
          have hle := hput total bytes written hwritten
          -- the host took a prefix of the chunk
          have hlog : outputOf space buffer place total ++ (List.range written).map (fun i => (place (total + i), bytes.getD i 0)) =
              outputOf space buffer place (total + written) := by
            rw [outputOf_add]
            congr 1
            apply List.map_congr_left
            intro i hi
            have hi' : i < chunkSize := lt_of_lt_of_le (List.mem_range.1 hi) (hlength ▸ hle)
            rw [hbytes, List.getD_eq_getElem _ _ (by simpa [readRange] using hi')]
            simp [readRange, Nat.add_assoc]
          dsimp only
          rw [hlog]
          have hnext : total + written ≤ count := by omega
          split
          · exact accounts_total hnext
          · exact ih _ hnext

theorem outputLoop_end (turns : ℕ) {total : ℕ} {delivered : List (Option ℤ × Byte)} (h : count ≤ total) :
    outputLoop space buffer count errno place put turns total delivered = ((total : ℤ), delivered) := by
  cases turns with
  | zero => rfl
  | succ turns => rw [outputLoop, if_pos h]

/-- The turns of the loop never run out: more of them change nothing. -/
theorem outputLoop_turns (turns turns' total : ℕ) (delivered : List (Option ℤ × Byte)) (h : count - total ≤ turns)
    (h' : count - total ≤ turns') :
    outputLoop space buffer count errno place put turns total delivered =
      outputLoop space buffer count errno place put turns' total delivered := by
  induction turns generalizing turns' total delivered with
  | zero => rw [outputLoop_end _ (by omega), outputLoop_end _ (by omega)]
  | succ turns ih =>
    by_cases hle : count ≤ total
    · rw [outputLoop_end _ hle, outputLoop_end _ hle]
    · obtain ⟨turns', rfl⟩ : ∃ t, turns' = t + 1 := ⟨turns' - 1, by omega⟩
      have hpage := Nat.mod_lt (buffer + total) (show 0 < kPageSize by decide)
      rw [outputLoop, outputLoop, if_neg hle, if_neg hle]
      dsimp only
      split
      · rfl
      · split
        · rfl
        · rename_i written _
          -- a turn that goes on has written a whole chunk, which is not empty
          split
          · rfl
          · rename_i hfull
            have hchunk : 0 < min (min (count - total) ioChunkSize) (kPageSize - (buffer + total) % kPageSize) := by
              simp only [ioChunkSize, lt_min_iff]
              omega
            apply ih
            · omega
            · omega

end Output

/-! ### All four calls -/

/-- The bytes of the host that an input call gets, if it gets that far. -/
def hostInput (context : CallRegs) (host : TransferHost) (p : TransferProcess) : List Byte :=
  match (transferFd context p).1, host.copyError with
  | .ok fd, none =>
    (if context.syscallNumber = syscallRead then host.read fd (transferCount context)
      else host.pread fd (transferCount context) (fileOffset context)).getD []
  | _, _ => []

/-- The first `k` bytes of the buffer were exchanged with the host, once each and in order. -/
structure Exchanged (context : CallRegs) (host : TransferHost) (p : TransferProcess) (r : Transfer) (k : ℕ) : Prop where
  fits : k ≤ transferCount context
  input : context.syscallNumber = syscallRead ∨ context.syscallNumber = syscallPread64 →
    r.received = hostInput context host p ∧ r.received.length = k ∧ r.delivered = [] ∧
      ∀ i < k, r.process.space.bytes (bufferAddress context + i) = r.received.getD i 0
  taken : r.consumed = if context.syscallNumber = syscallRead then r.received else []
  output : context.syscallNumber = syscallWrite → r.delivered = outputOf p.space (bufferAddress context) (fun _ => none) k
  placed : context.syscallNumber = syscallPwrite64 →
    r.delivered = outputOf p.space (bufferAddress context) (fun i => some (fileOffset context + i)) k
  outside : ∀ a, context.syscallNumber = syscallWrite ∨ context.syscallNumber = syscallPwrite64 ∨
    a < bufferAddress context ∨ bufferAddress context + k ≤ a → r.process.space.bytes a = p.space.bytes a

/-- What a transfer must do. -/
structure TransferRight (context : CallRegs) (host : TransferHost) (p : TransferProcess) (r : Transfer) : Prop where
  done : 0 ≤ r.value → Exchanged context host p r r.value.toNat
  failed : r.value < 0 → r.consumed = [] ∧ r.delivered = [] ∧ r.process.space.bytes = p.space.bytes

/-- Output, or input whose bytes all have a page; bytes that the descriptor keeps may also
find no page to go to, as long as none of them is stored before. -/
def TransferFine (context : CallRegs) (host : TransferHost) (p : TransferProcess) : Prop :=
  (context.syscallNumber = syscallRead →
    ∀ i < (hostInput context host p).length, p.space.mapped (pageFloor (bufferAddress context + i)) = true) ∧
  (context.syscallNumber = syscallPread64 → WriteWhole p.space (context.syscallArg 1) (hostInput context host p))

section Right

variable {context : CallRegs} {kind : SyscallKind} {host : TransferHost} {p q : TransferProcess} {r : Transfer}

theorem transferFd_spec (context : CallRegs) (p : TransferProcess) : (transferFd context p).2.space = p.space ∧
    (∀ e, (transferFd context p).1 = .error e → 0 < e) ∧
    ∀ fd, (transferFd context p).1 = .ok fd → rangeOverflows (bufferAddress context) (transferCount context) = false := by
  rw [transferFd]
  split
  · refine ⟨rfl, fun e he => ?_, fun fd hfd => (by cases hfd)⟩
    cases he
    decide
  · split
    · refine ⟨rfl, fun e he => ?_, fun fd hfd => (by cases hfd)⟩
      cases he
      decide
    · split
      · refine ⟨rfl, fun e he => ?_, fun fd hfd => (by cases hfd)⟩
        cases he
        decide
      · rename_i hover
        exact ⟨rfl, fun e he => (by cases he), fun _ _ => Bool.eq_false_iff.2 hover⟩

/-- A call that fails before it has gone to the host, or at the host, is right. -/
theorem transfer_fails_right {error : ℕ} (herror : 0 < error) (hspace : q.space = p.space) : TransferRight context host p (q.fails error) := by
  have hneg := returnError_neg herror
  refine ⟨fun hpos => ?_, fun _ => ⟨rfl, rfl, congrArg AddressSpace.bytes hspace⟩⟩
  have hpos' : 0 ≤ returnError error := hpos
  omega

theorem fine_of_nil (h : hostInput context host p = []) : TransferFine context host p := by
  rw [TransferFine, h]
  exact ⟨fun _ i hi => absurd hi (Nat.not_lt_zero i), fun _ => .inl rfl⟩

theorem rangeOverflows_mono {start size size' : ℕ} (hle : size ≤ size') (h : rangeOverflows start size' = false) :
    rangeOverflows start size = false := by
  simp only [rangeOverflows, Bool.and_eq_false_iff, bne_eq_false_iff_eq, decide_eq_false_iff_not] at h ⊢
  omega

/-- The bytes of the host go to the guest, all of them or none that shows. -/
theorem storeInput_right_iff {bytes : List Byte} (hnumber : context.syscallNumber = syscallRead ∨ context.syscallNumber = syscallPread64)
    (hbytes : hostInput context host p = bytes) (hspace : q.space = p.space) (hle : bytes.length ≤ transferCount context)
    (hover : rangeOverflows (bufferAddress context) (transferCount context) = false) :
    TransferRight context host p (storeInput context q bytes (if context.syscallNumber = syscallRead then bytes else [])) ↔
      TransferFine context host p := by
  have hnot : context.syscallNumber ≠ syscallWrite ∧ context.syscallNumber ≠ syscallPwrite64 := by
    rcases hnumber with h | h <;> rw [h] <;> decide
  have hover' := rangeOverflows_mono hle hover
  rw [storeInput]
  cases hempty : bytes.isEmpty with
  | true =>
    obtain rfl := List.isEmpty_iff.1 hempty
    refine ⟨fun _ => fine_of_nil hbytes, fun _ => ⟨fun _ => ⟨Nat.zero_le _, ?_, rfl, ?_, ?_, ?_⟩, fun hneg => ?_⟩⟩
    · exact fun _ => ⟨hbytes.symm, rfl, rfl, fun i hi => absurd hi (Nat.not_lt_zero i)⟩
    · exact fun h => absurd h hnot.1
    · exact fun h => absurd h hnot.2
    · exact fun a _ => congrFun (congrArg AddressSpace.bytes hspace) a
    · exact absurd hneg (lt_irrefl 0)
  | false =>
    rw [if_neg Bool.false_ne_true, hspace]
    dsimp only
    have hw : p.space.write (bufferAddress context) bytes =
        ⟨(writeLoop bytes.length p.space (bufferAddress context) bytes).1,
          (writeLoop bytes.length p.space (bufferAddress context) bytes).2, none⟩ := by
      simp [AddressSpace.write, hempty, hover']
    obtain ⟨hok, hstored, -⟩ := writeLoop_spec bytes.length p.space (bufferAddress context) bytes le_rfl
    have hright := write_right_iff p.space (context.syscallArg 1) bytes
    cases hresult : (p.space.write (bufferAddress context) bytes).result with
    | ok =>
      have hall : ∀ i < bytes.length, p.space.mapped (pageFloor (bufferAddress context + i)) = true := by
        rw [hw] at hresult
        exact hok.1 hresult
      constructor
      · intro _
        rw [TransferFine, hbytes]
        exact ⟨fun _ => hall, fun _ => .inr (.inr (.inl hall))⟩
      · intro _
        refine ⟨fun _ => ⟨?_, ?_, rfl, ?_, ?_, ?_⟩, fun hneg => ?_⟩
        · simpa using hle
        · refine fun _ => ⟨hbytes.symm, by simp, rfl, fun i hi => ?_⟩
          have hi' : i < bytes.length := by simpa using hi
          dsimp only
          rw [hw]
          exact hstored i hi' fun j hj => hall j (by omega)
        · exact fun h => absurd h hnot.1
        · exact fun h => absurd h hnot.2
        · intro a ha
          have ha' : a < bufferAddress context ∨ bufferAddress context + bytes.length ≤ a := by
            rcases ha with h | h | h
            · exact absurd h hnot.1
            · exact absurd h hnot.2
            · simpa using h
          exact write_frame p.space ha'
        · dsimp only at hneg
          omega
    | error e =>
      -- a byte that cannot be stored: what the host gave is lost, and what was stored before it stays
      have hneg := returnError_neg (memoryErrorToLinux_pos e)
      have hfail : (p.space.write (bufferAddress context) bytes).result ≠ .ok () := by
        rw [hresult]
        exact fun h => (by cases h)
      have hmissing : ¬ ∀ i < bytes.length, p.space.mapped (pageFloor (bufferAddress context + i)) = true := by
        intro hall
        apply hfail
        rw [hw]
        exact hok.2 hall
      rcases hnumber with hread | hpread
      · -- the descriptor has moved past the bytes
        rw [if_pos hread]
        constructor
        · intro h
          obtain ⟨hconsumed, -⟩ := h.failed hneg
          rw [List.isEmpty_eq_false_iff] at hempty
          exact absurd hconsumed hempty
        · intro h
          have hall := h.1 hread
          rw [hbytes] at hall
          exact absurd hall hmissing
      · -- a positioned read leaves the descriptor where it is, so only the bytes stored show
        have hne : context.syscallNumber ≠ syscallRead := by
          rw [hpread]
          decide
        rw [if_neg hne]
        constructor
        · intro h
          refine ⟨fun hread => absurd hread hne, fun _ => ?_⟩
          rw [hbytes]
          apply hright.1
          exact ⟨fun h' => absurd h' hfail, fun h' => absurd h' hfail, (write_protections _ _).1, fun _ => (h.failed hneg).2.2⟩
        · intro h
          have hwhole := h.2 hpread
          rw [hbytes] at hwhole
          refine ⟨fun hpos => ?_, fun _ => ⟨rfl, rfl, (hright.2 hwhole).nothing hfail⟩⟩
          dsimp only at hpos
          omega

/-- An input call that has come to the host. -/
theorem input_right_iff {fd : ℕ} (hfd : (transferFd context p).1 = .ok fd)
    (hnumber : context.syscallNumber = syscallRead ∨ context.syscallNumber = syscallPread64)
    (hr : r = match host.copyError with
      | some e => (transferFd context p).2.fails e
      | none =>
        match (if context.syscallNumber = syscallRead then host.read fd (transferCount context)
          else host.pread fd (transferCount context) (fileOffset context)) with
        | none => (transferFd context p).2.fails host.errno
        | some bytes => storeInput context (transferFd context p).2 bytes (if context.syscallNumber = syscallRead then bytes else [])) :
    TransferRight context host p r ↔ TransferFine context host p := by
  obtain ⟨hspace, -, hover⟩ := transferFd_spec context p
  subst hr
  cases hcopy : host.copyError with
  | some e =>
    have hnil : hostInput context host p = [] := by
      rw [hostInput, hfd, hcopy]
    exact ⟨fun _ => fine_of_nil hnil, fun _ => transfer_fails_right (host.copyError_pos e hcopy) hspace⟩
  | none =>
    have hinput : hostInput context host p =
        (if context.syscallNumber = syscallRead then host.read fd (transferCount context)
          else host.pread fd (transferCount context) (fileOffset context)).getD [] := by
      rw [hostInput, hfd, hcopy]
    cases hanswer : (if context.syscallNumber = syscallRead then host.read fd (transferCount context)
        else host.pread fd (transferCount context) (fileOffset context)) with
    | none =>
      rw [hanswer] at hinput
      exact ⟨fun _ => fine_of_nil hinput, fun _ => transfer_fails_right host.errno_pos hspace⟩
    | some bytes =>
      rw [hanswer] at hinput
      apply storeInput_right_iff hnumber hinput hspace _ (hover fd hfd)
      split at hanswer
      · exact host.read_le _ _ _ hanswer
      · exact host.pread_le _ _ _ _ hanswer

/-- An output call that has come to its loop. -/
theorem output_right {place : ℕ → Option ℤ} {out : ℤ × List (Option ℤ × Byte)} (hspace : q.space = p.space)
    (hnumber : (context.syscallNumber = syscallWrite ∧ place = fun _ => none) ∨
      (context.syscallNumber = syscallPwrite64 ∧ place = fun i : ℕ => some (fileOffset context + (i : ℤ))))
    (h : Accounts p.space (bufferAddress context) (transferCount context) place out) :
    TransferRight context host p ⟨out.1, q, [], [], out.2⟩ ∧ TransferFine context host p := by
  have hnot : context.syscallNumber ≠ syscallRead ∧ context.syscallNumber ≠ syscallPread64 := by
    rcases hnumber with ⟨hn, -⟩ | ⟨hn, -⟩ <;> rw [hn] <;> decide
  refine ⟨⟨fun hpos => ?_, fun hneg => ?_⟩, fun hn => absurd hn hnot.1, fun hn => absurd hn hnot.2⟩
  · obtain ⟨hle, hlog⟩ := h.done hpos
    refine ⟨?_, ?_, ?_, ?_, ?_, fun a _ => congrFun (congrArg AddressSpace.bytes hspace) a⟩
    · dsimp only at hle hpos ⊢
      omega
    · rintro (hn | hn)
      · exact absurd hn hnot.1
      · exact absurd hn hnot.2
    · exact (if_neg hnot.1).symm
    · intro hn
      rcases hnumber with ⟨-, rfl⟩ | ⟨hn', -⟩
      · exact hlog
      · rw [hn] at hn'
        exact absurd hn' (by decide)
    · intro hn
      rcases hnumber with ⟨hn', -⟩ | ⟨-, rfl⟩
      · rw [hn] at hn'
        exact absurd hn' (by decide)
      · exact hlog
  · exact ⟨rfl, h.failed hneg, congrArg AddressSpace.bytes hspace⟩

/-- A call that the checks refuse. -/
theorem refused_right_iff {error : ℕ} (hfd : (transferFd context p).1 = .error error) :
    TransferRight context host p ((transferFd context p).2.fails error) ↔ TransferFine context host p := by
  obtain ⟨hspace, hpos, -⟩ := transferFd_spec context p
  have hnil : hostInput context host p = [] := by
    rw [hostInput, hfd]
  exact ⟨fun _ => fine_of_nil hnil, fun _ => transfer_fails_right (hpos error hfd) hspace⟩

theorem sysRead_right_iff (h : sysRead context kind host p = some r) :
    TransferRight context host p r ↔ TransferFine context host p := by
  rw [sysRead] at h
  cases hhandles : handles context kind syscallRead with
  | false => simp [hhandles] at h
  | true =>
    have hnumber : context.syscallNumber = syscallRead := by
      simp only [handles, Bool.and_eq_true, beq_iff_eq] at hhandles
      exact hhandles.2
    rw [hhandles] at h
    cases hfd : (transferFd context p).1 with
    | error e =>
      obtain rfl : (transferFd context p).2.fails e = r := by
        rcases hpair : transferFd context p with ⟨result, q⟩
        rw [hpair] at h hfd
        cases hfd
        exact Option.some.inj h
      exact refused_right_iff hfd
    | ok fd =>
      apply input_right_iff hfd (.inl hnumber)
      rcases hpair : transferFd context p with ⟨result, q⟩
      rw [hpair] at h hfd
      cases hfd
      simp only [hnumber, if_true]
      cases hcopy : host.copyError with
      | some e =>
        simp only [hcopy] at h
        exact (Option.some.inj h).symm
      | none =>
        simp only [hcopy] at h
        cases hread : host.read fd (transferCount context) with
        | none =>
          simp only [hread] at h
          exact (Option.some.inj h).symm
        | some bytes =>
          simp only [hread] at h
          exact (Option.some.inj h).symm

theorem sysWrite_right_iff (h : sysWrite context kind host p = some r) :
    TransferRight context host p r ↔ TransferFine context host p := by
  rw [sysWrite] at h
  cases hhandles : handles context kind syscallWrite with
  | false => simp [hhandles] at h
  | true =>
    have hnumber : context.syscallNumber = syscallWrite := by
      simp only [handles, Bool.and_eq_true, beq_iff_eq] at hhandles
      exact hhandles.2
    rw [hhandles] at h
    obtain ⟨hspace, -, -⟩ := transferFd_spec context p
    cases hfd : (transferFd context p).1 with
    | error e =>
      obtain rfl : (transferFd context p).2.fails e = r := by
        rcases hpair : transferFd context p with ⟨result, q⟩
        rw [hpair] at h hfd
        cases hfd
        exact Option.some.inj h
      exact refused_right_iff hfd
    | ok fd =>
      rcases hpair : transferFd context p with ⟨result, q⟩
      rw [hpair] at h hfd hspace
      cases hfd
      obtain rfl := Option.some.inj h
      have hloop := @outputLoop_spec p.space (bufferAddress context) (transferCount context) host.errno (fun _ => none)
        (host.write fd) host.errno_pos (host.write_le fd) (transferCount context + 1) 0 (Nat.zero_le _)
      have hwrite := @output_right context host p q _ _ hspace (.inl ⟨hnumber, rfl⟩) hloop
      dsimp only at hspace
      rw [hspace]
      exact ⟨fun _ => hwrite.2, fun _ => hwrite.1⟩

theorem sysPreadPwrite_right_iff (h : sysPreadPwrite context kind host p = some r) :
    TransferRight context host p r ↔ TransferFine context host p := by
  rw [sysPreadPwrite] at h
  cases hhandles : !handles context kind syscallPread64 && !handles context kind syscallPwrite64 with
  | true => simp [hhandles] at h
  | false =>
    have hnumber : context.syscallNumber = syscallPread64 ∨ context.syscallNumber = syscallPwrite64 := by
      simp only [handles, Bool.and_eq_false_iff, Bool.not_eq_false', Bool.and_eq_true, beq_iff_eq] at hhandles
      exact hhandles.imp And.right And.right
    rw [hhandles] at h
    obtain ⟨hspace, -, -⟩ := transferFd_spec context p
    cases hfd : (transferFd context p).1 with
    | error e =>
      obtain rfl : (transferFd context p).2.fails e = r := by
        rcases hpair : transferFd context p with ⟨result, q⟩
        rw [hpair] at h hfd
        cases hfd
        exact Option.some.inj h
      exact refused_right_iff hfd
    | ok fd =>
      rcases hnumber with hpread | hpwrite
      · have hne : context.syscallNumber ≠ syscallRead ∧ (context.syscallNumber == syscallPwrite64) = false := by
          rw [hpread]
          decide
        apply input_right_iff hfd (.inr hpread)
        rcases hpair : transferFd context p with ⟨result, q⟩
        rw [hpair] at h hfd
        cases hfd
        simp only [hne.1, if_false]
        simp only [hne.2, Bool.not_false, if_true] at h
        cases hcopy : host.copyError with
        | some e =>
          simp only [hcopy] at h
          exact (Option.some.inj h).symm
        | none =>
          simp only [hcopy] at h
          cases hanswer : host.pread fd (transferCount context) (fileOffset context) with
          | none =>
            simp only [hanswer] at h
            exact (Option.some.inj h).symm
          | some bytes =>
            simp only [hanswer] at h
            exact (Option.some.inj h).symm
      · have heq : (context.syscallNumber == syscallPwrite64) = true := by
          rw [hpwrite]
          decide
        rcases hpair : transferFd context p with ⟨result, q⟩
        rw [hpair] at h hfd hspace
        cases hfd
        simp only [heq, Bool.not_true] at h
        obtain rfl := Option.some.inj h
        -- the output never touches the memory, so it is right whatever the host answers
        have hloop := @outputLoop_spec p.space (bufferAddress context) (transferCount context) host.errno
          (fun i => some (fileOffset context + i)) (fun total bytes => host.pwrite fd total bytes (fileOffset context + total))
          host.errno_pos (fun total bytes n => host.pwrite_le fd total bytes _ n) (transferCount context + 1) 0 (Nat.zero_le _)
        have hwrite := @output_right context host p q _ _ hspace (.inr ⟨hpwrite, rfl⟩) hloop
        dsimp only at hspace
        rw [hspace]
        exact ⟨fun _ => hwrite.2, fun _ => hwrite.1⟩

/-- **Which transfers account for their bytes.** -/
theorem hostTransfer_right_iff (h : transferSyscall context kind host p = some r) :
    TransferRight context host p r ↔ TransferFine context host p := by
  rw [transferSyscall, Option.or_eq_some_iff, Option.or_eq_some_iff] at h
  rcases h with hread | ⟨-, hwrite | ⟨-, hpread⟩⟩
  · exact sysRead_right_iff hread
  · exact sysWrite_right_iff hwrite
  · exact sysPreadPwrite_right_iff hpread

end Right

/-! ### Input that finds no page -/

/-- A `read` of two bytes from descriptor 0 to the address 0x1000. -/
def readTwo : CallRegs := ⟨0, 0, 0x1000, 2, 0, 0, 0⟩

/-- A host that has the bytes 7 and 8, and takes all it is given. -/
def twoByteHost : TransferHost where
  copyError := none
  copyError_pos := none_pos
  read := fun _ count => some ([7, 8].take count)
  read_le := by
    intro fd count bytes h
    obtain rfl := Option.some.inj h
    exact List.length_take_le _ _
  pread := fun _ count _ => some ([7, 8].take count)
  pread_le := by
    intro fd count offset bytes h
    obtain rfl := Option.some.inj h
    exact List.length_take_le _ _
  write := fun _ _ bytes => some bytes.length
  write_le := by
    intro fd total bytes n h
    exact (Option.some.inj h).ge
  pwrite := fun _ _ bytes _ => some bytes.length
  pwrite_le := by
    intro fd total bytes offset n h
    exact (Option.some.inj h).ge
  errno := 5
  errno_pos := linuxEio_pos

/-- The first process, with its standard descriptors, and the address space `space`. -/
def transferProcess (space : AddressSpace) : TransferProcess := ⟨⟨1, Fds.standardFds, ∅, fun fd => fd < 3, []⟩, space⟩

/-- One writable page. -/
def pageSpace : AddressSpace := ((AddressSpace.init true).map 0x1000 0x1000 ⟨true, true, false⟩ 8).space

theorem read_page_right : TransferRight readTwo twoByteHost (transferProcess pageSpace)
    (storeInput readTwo (transferProcess pageSpace) [7, 8] [7, 8]) := by
  have hr : transferSyscall readTwo .syscall64 twoByteHost (transferProcess pageSpace) =
      some (storeInput readTwo (transferProcess pageSpace) [7, 8] [7, 8]) := rfl
  apply (hostTransfer_right_iff hr).2
  refine ⟨fun _ => ?_, fun hpread => ?_⟩
  · have hinput : hostInput readTwo twoByteHost (transferProcess pageSpace) = [7, 8] := by decide +kernel
    rw [hinput]
    decide +kernel
  · exact absurd hpread (by decide)

/-- A `read` to a page that does not exist fails, after the host has handed over its bytes. -/
theorem not_hostTransfer_right : ¬ ∀ context kind host p r, transferSyscall context kind host p = some r →
    TransferRight context host p r := by
  intro h
  have hright := h readTwo .syscall64 twoByteHost (transferProcess (.init true)) _ rfl
  have hconsumed := (hright.failed (by decide +kernel)).1
  revert hconsumed
  decide +kernel

end X86Sim.Linux
