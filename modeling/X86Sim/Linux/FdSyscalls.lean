import X86Sim.Linux.FdTable

/-!
# The descriptor system calls (`syscall-linux-posix.cpp`)

`open`, `close`, `pipe`, the `dup` family with the rest of `fcntl`, and `socket`. Each
handler takes the host's answers to the calls it makes and returns the value of `rax`
with the process after the call.
-/

namespace X86Sim.Linux

/-- One guest process, as the descriptor handlers see it. -/
structure Process where
  fds : Fds
  space : AddressSpace

/-- A handler's outcome: the value of `rax` and the process after it. -/
abbrev Outcome := Option (ℤ × Process)

namespace Process

variable (p : Process)

def returnValue (value : ℤ) : Outcome := some (value, p)
def fails (error : ℕ) : Outcome := some (returnError error, p)
def withFds (fds : Fds) : Process := { p with fds := fds }

end Process

/-! ### Flags and types -/

/-- Linux's `O_` flags, which are the host's own on Linux. -/
def linuxOAccmode : W64 := 3
def linuxOSync : W64 := 0o4010000
def linuxONonblock : W64 := 0o4000
def linuxOAppend : W64 := 0o2000
def linuxODsync : W64 := 0o10000
def linuxOLargefile : W64 := 0o100000
def linuxOCloexec : W64 := 0o2000000

/-- The flags `translate_open_flags` passes on one by one. -/
def translatedOpenFlags : List W64 :=
  [0o100, 0o200, 0o400, 0o1000, linuxOAppend, linuxONonblock, linuxODsync, 0o200000, 0o400000,
    linuxOCloexec, linuxOSync]

/-- A flag is set on the host when one of its bits is. -/
def passFlags (known : List W64) (flags : W64) : W64 :=
  known.foldl (fun host flag => if flags &&& flag ≠ 0 then host ||| flag else host) 0

def translateOpenFlags (flags : W64) : Option W64 :=
  let supported := translatedOpenFlags.foldl (· ||| ·) (linuxOAccmode ||| linuxOLargefile)
  if flags &&& ~~~supported ≠ 0 then none
  else if flags &&& linuxOAccmode = linuxOAccmode then none
  else some (passFlags translatedOpenFlags flags ||| (flags &&& linuxOAccmode))

def mutableFlags : List W64 := [linuxOAppend, linuxONonblock, linuxODsync, linuxOSync]

def translateSetflFlags (flags : W64) : Option W64 :=
  let supported := mutableFlags.foldl (· ||| ·) (linuxOAccmode ||| linuxOLargefile)
  if flags &&& ~~~supported ≠ 0 then none else some (passFlags mutableFlags flags)

def translateHostStatusFlags (flags : W64) : W64 :=
  let access := if flags &&& linuxOAccmode = linuxOAccmode then 0 else flags &&& linuxOAccmode
  passFlags mutableFlags flags ||| access

def translateSocketDomain (domain : W64) : Option ℕ :=
  if domain = 1 ∨ domain = 2 ∨ domain = 10 then some domain.toNat else none

def linuxSockTypeMask : W64 := 0xf

def translateSocketType (type : W64) : Option ℕ :=
  let type := type &&& linuxSockTypeMask
  if type = 1 ∨ type = 2 ∨ type = 3 ∨ type = 5 then some type.toNat else none

/-! ### Locks -/

def readFlock64 (space : AddressSpace) (address : W64) : Except ℕ (List ℕ) :=
  if address = 0 ∨ rangeOverflows address.toNat 32 then .error linuxEfault
  else
    match space.read address.toNat 32 with
    | .error e => .error (memoryErrorToLinux e)
    | .ok bytes =>
      if 2 < readLe bytes 0 2 then .error linuxEinval
      else if 2 < readLe bytes 2 2 then .error linuxEinval
      else .ok [readLe bytes 0 2, readLe bytes 2 2, readLe bytes 8 8, readLe bytes 16 8, readLe bytes 24 4]

def writeFlock64 (space : AddressSpace) (address : W64) (lock : List ℕ) : Option ℕ × AddressSpace :=
  if 2 < lock.getD 0 0 then (some linuxEinval, space)
  else
    let bytes := leBytes (lock.getD 0 0) 2 ++ leBytes (lock.getD 1 0) 2 ++ List.replicate 4 0 ++
      leBytes (lock.getD 2 0) 8 ++ leBytes (lock.getD 3 0) 8 ++ leBytes (lock.getD 4 0) 4 ++
      List.replicate 4 0
    let written := space.write address.toNat bytes
    match written.result with
    | .error e => (some (memoryErrorToLinux e), written.space)
    | .ok () => (none, written.space)

/-! ### Numbers -/

def syscallOpen : ℕ := 2
def syscallClose : ℕ := 3
def syscallPipe : ℕ := 22
def syscallDup : ℕ := 32
def syscallDup2 : ℕ := 33
def syscallSocket : ℕ := 41
def syscallFcntl : ℕ := 72
def syscallOpenat : ℕ := 257
def syscallDup3 : ℕ := 292

def linuxFDupfd : W64 := 0
def linuxFDupfdCloexec : W64 := 1030
def linuxFdCloexec : W64 := 1

/-! ### Handlers -/

section Handlers

variable (context : CallRegs) (kind : SyscallKind) (host : HostReplies) (p : Process)

/-- The end of every call that opens one descriptor: it goes to the lowest number. -/
def installNew (fds : Fds) (fd : ℕ) : Option ℕ × Fds :=
  match fds.installFd fd none with
  | (none, fds) => (none, fds.hostClose fd)
  | (some guestFd, fds) => (some guestFd, fds)

def sysOpen : Outcome :=
  if !handles context kind syscallOpen && !handles context kind syscallOpenat then none
  else
    let isOpenat := context.syscallNumber == syscallOpenat
    -- the directory is looked up last, so a bad path or bad flags are reported before a bad descriptor
    let pathAddress := context.syscallArg (if isOpenat then 1 else 0)
    match readCString p.space pathAddress.toNat with
    | .error error => p.fails error
    | .ok path =>
      match translateOpenFlags (context.syscallArg (if isOpenat then 2 else 1)) with
      | none => p.fails linuxEinval
      | some flags =>
        let mode := context.syscallArg (if isOpenat then 3 else 2) &&& 0o7777
        let finish (fds : Fds) (call : HostCall) : Outcome :=
          match host.fd call with
          | none => (p.withFds fds).fails host.errno
          | some fd =>
            match installNew (fds.hostOpened fd) fd with
            | (none, fds) => (p.withFds fds).fails linuxEmfile
            | (some guestFd, fds) => (p.withFds fds).returnValue guestFd
        if isOpenat then
          match p.fds.hostDirfdFor (context.syscallArg 0) with
          | (none, fds) => (p.withFds fds).fails linuxEbadf
          | (some dirfd, fds) => finish fds (.openat dirfd path flags mode)
        else finish p.fds (.open path flags mode)

def sysClose : Outcome :=
  if !handles context kind syscallClose then none
  else
    match checkedFd (context.syscallArg 0) with
    | none => p.fails linuxEbadf
    | some guestFd =>
      match p.fds.hostFdFor (context.syscallArg 0) with
      | (none, fds) => (p.withFds fds).fails linuxEbadf
      | (some _, fds) =>
        match fds.closeGuestFd host.close guestFd with
        | (false, fds) => (p.withFds fds).fails host.errno
        | (true, fds) => (p.withFds fds).returnValue 0

/-- The clean-up of `pipe` when the second number, or the guest's buffer, is missing. -/
def closeEnd (fds : Fds) (hostFd : ℕ) (guestFd : Option ℕ) : Fds :=
  match guestFd with
  | some guestFd => (fds.closeGuestFd host.close guestFd).2
  | none => fds.hostClose hostFd

def sysPipe : Outcome :=
  if !handles context kind syscallPipe then none
  else
    let pipefdAddress := (context.syscallArg 0).toNat
    if pipefdAddress = 0 ∨ rangeOverflows pipefdAddress 8 then p.fails linuxEfault
    else
      match host.pipe with
      | none => p.fails host.errno
      | some (r, w) =>
        let fds := (p.fds.hostOpened r).hostOpened w
        let nonblocking := (host.fcntl r .getfl).bind fun flags => host.fcntl r (.setfl (flags ||| linuxONonblock))
        match nonblocking with
        | none => (p.withFds ((fds.hostClose r).hostClose w)).fails host.errno
        | some _ =>
          -- both ends are installed before either is looked at
          let (readFd, fds) := fds.installFd r none
          let (writeFd, fds) := fds.installFd w none
          match readFd, writeFd with
          | some readGuestFd, some writeGuestFd =>
            -- the numbers were handed out already: closing them takes them from the table again
            let undo (space : AddressSpace) (error : ℕ) : Outcome :=
              (Process.mk (closeEnd host (closeEnd host fds r (some readGuestFd)) w (some writeGuestFd))
                space).fails error
            match writeInt32 p.space pipefdAddress readGuestFd with
            | (some error, space) => undo space error
            | (none, space) =>
              match writeInt32 space (pipefdAddress + 4) writeGuestFd with
              | (some error, space) => undo space error
              | (none, space) =>
                (Process.mk { fds with
                  pipeReadFdForWriteFd := fds.pipeReadFdForWriteFd.insert w r } space).returnValue 0
          | readFd, writeFd =>
            (p.withFds (closeEnd host (closeEnd host fds r readFd) w writeFd)).fails linuxEmfile

/-- The guest descriptor `dup2` and `dup3` replace, after the checks on the arguments;
`dup2` onto itself has nothing to do. -/
def dupTarget : Except ℕ (ℕ × Bool) :=
  match checkedFd (context.syscallArg 1) with
  | none => .error linuxEbadf
  | some newFd =>
    let same := context.syscallArg 0 == context.syscallArg 1
    if context.syscallNumber = syscallDup3 then
      if context.syscallArg 2 &&& ~~~linuxOCloexec ≠ 0 then .error linuxEinval
      else if same then .error linuxEinval
      else .ok (newFd, false)
    else .ok (newFd, same)

/-- `dup` of a host descriptor, with the `FD_CLOEXEC` flag if asked for: the copy, or the
error number. -/
def dupHost (fds : Fds) (fd : ℕ) (cloexec : Bool) : Except ℕ ℕ × Fds :=
  match host.fd (.dup fd) with
  | none => (.error host.errno, fds)
  | some duplicated =>
    let fds := fds.hostOpened duplicated
    if cloexec && (host.fcntl duplicated (.setfd linuxFdCloexec)).isNone then
      (.error host.errno, fds.hostClose duplicated)
    else (.ok duplicated, fds)

/-- The commands of `fcntl` that open no descriptor. -/
def fcntlRest (fds : Fds) (fd : ℕ) (command arg : W64) : Outcome :=
  let p := p.withFds fds
  if command = 1 then
    match host.fcntl fd .getfd with
    | none => p.fails host.errno
    | some flags => p.returnValue (flags &&& linuxFdCloexec).toNat
  else if command = 2 then
    match host.fcntl fd (.setfd (arg &&& linuxFdCloexec)) with
    | none => p.fails host.errno
    | some _ => p.returnValue 0
  else if command = 3 then
    match host.fcntl fd .getfl with
    | none => p.fails host.errno
    | some flags => p.returnValue (translateHostStatusFlags flags).toNat
  else if command = 4 then
    match translateSetflFlags arg with
    | none => p.fails linuxEinval
    | some flags =>
      match host.fcntl fd (.setfl flags) with
      | none => p.fails host.errno
      | some _ => p.returnValue 0
  else if command = 5 ∨ command = 6 ∨ command = 7 then
    match readFlock64 p.space arg with
    | .error error => p.fails error
    | .ok flock =>
      match host.fcntl fd (.lock command flock) with
      | none => p.fails host.errno
      | some _ =>
        if command = 5 then
          match writeFlock64 p.space arg host.lock with
          | (some error, space) => (Process.mk fds space).fails error
          | (none, space) => (Process.mk fds space).returnValue 0
        else p.returnValue 0
  else p.fails linuxEinval

def sysFcntl : Outcome :=
  if !handles context kind syscallFcntl && !handles context kind syscallDup &&
      !handles context kind syscallDup2 && !handles context kind syscallDup3 then none
  else
    let number := context.syscallNumber
    match p.fds.hostFdFor (context.syscallArg 0) with
    | (none, fds) => (p.withFds fds).fails linuxEbadf
    | (some fd, fds) =>
      if number = syscallDup then
        match dupHost host fds fd false with
        | (.error error, fds) => (p.withFds fds).fails error
        | (.ok duplicated, fds) =>
          match installNew fds duplicated with
          | (none, fds) => (p.withFds fds).fails linuxEmfile
          | (some guestFd, fds) =>
            (p.withFds (fds.copyPipeWriteMapping fd duplicated)).returnValue guestFd
      else if number = syscallDup2 ∨ number = syscallDup3 then
        match dupTarget context with
        | .error error => (p.withFds fds).fails error
        | .ok (newFd, same) =>
          if same then (p.withFds fds).returnValue newFd
          else
            let cloexec := number = syscallDup3 ∧ context.syscallArg 2 &&& linuxOCloexec ≠ 0
            match dupHost host fds fd cloexec with
            | (.error error, fds) => (p.withFds fds).fails error
            | (.ok duplicated, fds) =>
              -- what was open at the number is replaced, and its host descriptor closed
              let fds := (fds.installFd duplicated (some newFd)).2
              (p.withFds (fds.copyPipeWriteMapping fd duplicated)).returnValue newFd
      else
        let command := context.syscallArg 1
        let arg := context.syscallArg 2
        if command = linuxFDupfd ∨ command = linuxFDupfdCloexec then
          if arg.toNat > intMax then (p.withFds fds).fails linuxEinval
          else
            match dupHost host fds fd (command = linuxFDupfdCloexec) with
            | (.error error, fds) => (p.withFds fds).fails error
            | (.ok duplicated, fds) =>
              -- unlike the others, the lowest number from the argument on
              match fds.nextGuestFd arg.toNat with
              | (none, fds) => (p.withFds (fds.hostClose duplicated)).fails linuxEmfile
              | (some target, fds) =>
                let fds := (fds.installFd duplicated (some target)).2
                (p.withFds (fds.copyPipeWriteMapping fd duplicated)).returnValue target
        else fcntlRest host p fds fd command arg

def sysSocket : Outcome :=
  if !handles context kind syscallSocket then none
  else
    let rawType := context.syscallArg 1
    let rawProtocol := context.syscallArg 2
    if rawType &&& ~~~(linuxSockTypeMask ||| linuxONonblock ||| linuxOCloexec) ≠ 0 then p.fails linuxEinval
    else
      match translateSocketDomain (context.syscallArg 0) with
      | none => p.fails linuxEafnosupport
      | some domain =>
        match translateSocketType rawType with
        | none => p.fails linuxEinval
        | some type =>
          if rawProtocol.toNat > intMax then p.fails linuxEinval
          else
            match host.fd (.socket domain type rawProtocol.toNat) with
            | none => p.fails host.errno
            | some fd =>
              let fds := p.fds.hostOpened fd
              let cloexec := rawType &&& linuxOCloexec ≠ 0 → (host.fcntl fd (.setfd linuxFdCloexec)).isSome
              let nonblock := rawType &&& linuxONonblock ≠ 0 →
                ((host.fcntl fd .getfl).bind fun flags =>
                  host.fcntl fd (.setfl (flags ||| linuxONonblock))).isSome
              -- the flags are set on the host descriptor, which no number names yet
              if ¬cloexec ∨ ¬nonblock then (p.withFds (fds.hostClose fd)).fails host.errno
              else
                match installNew fds fd with
                | (none, fds) => (p.withFds fds).fails linuxEmfile
                | (some guestFd, fds) => (p.withFds fds).returnValue guestFd

/-- The handlers, in the order they are tried. -/
def fdSyscall : Outcome :=
  (sysOpen context kind host p).or <| (sysClose context kind host p).or <|
    (sysPipe context kind host p).or <| (sysFcntl context kind host p).or <|
      sysSocket context kind host p

end Handlers
end X86Sim.Linux
