import Mathlib.Data.List.AList
import X86Sim.Linux.Abi

/-!
# Guest file descriptors (`syscall-linux-posix.cpp`)

The table from guest to host descriptors, the host descriptors behind it, and the
functions every descriptor call goes through.
-/

namespace X86Sim.Linux

/-- `unordered_map<int, int>`. -/
abbrev FdMap := AList fun _ : ℕ => ℕ

/-- What the layer did to a host descriptor. -/
inductive HostEvent
  | opened (fd : ℕ)
  | closed (fd : ℕ)
  deriving DecidableEq

def HostEvent.fd : HostEvent → ℕ
  | .opened fd => fd
  | .closed fd => fd

/-- The descriptors of one process: its entry of `fd_tables`, `pipe_read_fd_for_write_fd`,
and the host's descriptors. -/
structure Fds where
  contextId : ℕ
  table : FdMap
  pipeReadFdForWriteFd : FdMap
  /-- The descriptors open on the host. -/
  isOpen : ℕ → Bool
  /-- The host calls the layer made, the latest first. -/
  events : List HostEvent

/-! ### The host -/

inductive FcntlCall
  | getfd
  | setfd (flags : W64)
  | getfl
  | setfl (flags : W64)
  | lock (command : W64) (flock : List ℕ)

/-- The calls to the host that open a descriptor, or two. No directory is `AT_FDCWD`. -/
inductive HostCall
  | open (path : List Byte) (flags : W64) (mode : W64)
  | openat (dirfd : Option ℕ) (path : List Byte) (flags : W64) (mode : W64)
  | dup (fd : ℕ)
  | socket (domain type protocol : ℕ)

/-- The host's answers to the calls one system call makes; no answer is an error, and
`errno` is the Linux number of the error the handler reports. -/
structure HostReplies where
  fd : HostCall → Option ℕ
  pipe : Option (ℕ × ℕ)
  fcntl : ℕ → FcntlCall → Option W64
  /-- The lock an `F_GETLK` answers with. -/
  lock : List ℕ
  close : ℕ → Bool
  errno : ℕ
  errno_pos : 0 < errno

namespace Fds

variable (s : Fds)

/-- A host call answered with the descriptor `fd`. -/
def hostOpened (fd : ℕ) : Fds :=
  { s with isOpen := Function.update s.isOpen fd true, events := .opened fd :: s.events }

/-- `close` on the host. The descriptor is released also when it reports an error. -/
def hostClose (fd : ℕ) : Fds :=
  { s with isOpen := Function.update s.isOpen fd false, events := .closed fd :: s.events }

/-! ### The table -/

/-- The descriptors the first process starts with. -/
def standardFds : FdMap := (((∅ : FdMap).insert 0 0).insert 1 1).insert 2 2

/-- `fd_table`: the first process's table is seeded when it is found empty. -/
def fdTable : Fds :=
  if s.contextId = 1 ∧ s.table.entries.isEmpty then { s with table := standardFds } else s

def hostFdFor (rawFd : W64) : Option ℕ × Fds :=
  match checkedFd rawFd with
  | none => (none, s)
  | some guestFd => (s.fdTable.table.lookup guestFd, s.fdTable)

/-- `host_dirfd_for`; the descriptor of `AT_FDCWD` is none. -/
def hostDirfdFor (rawFd : W64) : Option (Option ℕ) × Fds :=
  if isLinuxAtFdcwd rawFd then (some none, s)
  else ((s.hostFdFor rawFd).1.map some, (s.hostFdFor rawFd).2)

/-- The loop of `next_guest_fd`, with the turns it has left. -/
def nextFree (table : FdMap) : ℕ → ℕ → Option ℕ
  | 0, _ => none
  | turns + 1, fd => if fd ∉ table then some fd else nextFree table turns (fd + 1)

def nextGuestFd (minimum : ℕ) : Option ℕ × Fds :=
  (nextFree s.fdTable.table (intMax - minimum) minimum, s.fdTable)

def copyPipeWriteMapping (oldFd newFd : ℕ) : Fds :=
  match s.pipeReadFdForWriteFd.lookup oldFd with
  | none => s
  | some readFd => { s with pipeReadFdForWriteFd := s.pipeReadFdForWriteFd.insert newFd readFd }

/-- The pipes read through `fd` are forgotten, and the one written through it. -/
def forgetFdWaitState (fd : ℕ) : Fds :=
  let kept := s.pipeReadFdForWriteFd.erase fd
  { s with
    pipeReadFdForWriteFd :=
      kept.keys.foldl (fun m w => if kept.lookup w = some fd then m.erase w else m) kept }

/-- The rest of `install_fd`, once the guest number is known. -/
def installAt (hostFd guestFd : ℕ) : Fds :=
  let s := match s.table.lookup guestFd with
    | none => s
    | some existing => if existing ≠ hostFd then (s.forgetFdWaitState existing).hostClose existing else s
  { s with table := s.table.insert guestFd hostFd }

/-- `install_fd`; no preference is -1. -/
def installFd (hostFd : ℕ) (preferredGuestFd : Option ℕ) : Option ℕ × Fds :=
  match preferredGuestFd with
  | some guestFd => (some guestFd, s.fdTable.installAt hostFd guestFd)
  | none =>
    match (s.fdTable.nextGuestFd 0).1 with
    | none => (none, s.fdTable)
    | some guestFd => (some guestFd, s.fdTable.installAt hostFd guestFd)

/-- `close_guest_fd`, with the host's answer to the `close` it makes. -/
def closeGuestFd (closes : ℕ → Bool) (guestFd : ℕ) : Bool × Fds :=
  let s := s.fdTable
  match s.table.lookup guestFd with
  | none => (false, s)
  | some hostFd =>
    (closes hostFd, (({ s with table := s.table.erase guestFd }).forgetFdWaitState hostFd).hostClose hostFd)

end Fds
end X86Sim.Linux
