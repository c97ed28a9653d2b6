import X86Sim.Mem.AddressSpace
import X86Sim.Uop

/-!
# The Linux system-call ABI (`syscall-linux.cpp`, `syscall-linux-detail.hpp`)

The registers a system call reads, the error numbers, and the helpers every handler
shares. A handler returns the value it puts into `rax`, or nothing when the call is not
one of its own.


-/

namespace X86Sim.Linux

inductive SyscallKind
  | syscall64 | int80 | sysenter
  deriving DecidableEq

/-- The registers of `CpuState` a system call reads. -/
structure CallRegs where
  rax : W64
  rdi : W64
  rsi : W64
  rdx : W64
  r10 : W64
  r8 : W64
  r9 : W64

def CallRegs.syscallNumber (context : CallRegs) : ℕ := context.rax.toNat

def CallRegs.syscallArg (context : CallRegs) : Fin 6 → W64
  | 0 => context.rdi
  | 1 => context.rsi
  | 2 => context.rdx
  | 3 => context.r10
  | 4 => context.r8
  | 5 => context.r9

def handles (context : CallRegs) (kind : SyscallKind) (number : ℕ) : Bool :=
  kind == .syscall64 && context.syscallNumber == number

/-! ### Error numbers -/

def linuxEio : ℕ := 5
def linuxEbadf : ℕ := 9
def linuxEnomem : ℕ := 12
def linuxEfault : ℕ := 14
def linuxEinval : ℕ := 22
def linuxEmfile : ℕ := 24
def linuxEnametoolong : ℕ := 36
def linuxEafnosupport : ℕ := 97

theorem linuxEio_pos : 0 < linuxEio := by decide

/-- Where nothing fails, every error is positive. -/
theorem none_pos : ∀ e ∈ (none : Option ℕ), 0 < e := by
  intro e he
  cases he

def memoryErrorToLinux : MemoryError → ℕ
  | .unalignedAddress | .zeroSize => linuxEinval
  | .unmappedAddress => linuxEfault
  | .outOfMemory | .mappingFailed => linuxEnomem

/-- `return_error`: the value of `rax` is the negated error number. -/
def returnError (error : ℕ) : ℤ := -(error : ℤ)

theorem returnError_neg {error : ℕ} (h : 0 < error) : returnError error < 0 := by
  unfold returnError
  omega

theorem memoryErrorToLinux_pos (e : MemoryError) : 0 < memoryErrorToLinux e := by
  cases e <;> decide

/-! ### Arguments -/

def intMax : ℕ := 2 ^ 31 - 1

def checkedFd (rawFd : W64) : Option ℕ := if rawFd.toNat > intMax then none else some rawFd.toNat

/-- Bits 0 to 31 of the argument, as a signed number, are -100. -/
def isLinuxAtFdcwd (rawFd : W64) : Bool := rawFd.setWidth 32 == BitVec.ofInt 32 (-100)

def maxPathLength : ℕ := 4096

/-- The loop of `read_c_string`, one page's share of the string per turn. -/
def readCStringLoop (space : AddressSpace) (address maxLength : ℕ) :
    ℕ → ℕ → List Byte → Except ℕ (List Byte)
  | 0, _, _ => .error linuxEnametoolong
  | fuel + 1, total, result =>
    if maxLength ≤ total then .error linuxEnametoolong
    else if rangeOverflows address (total + 1) then .error linuxEfault
    else
      let current := address + total
      let chunk := min (maxLength - total) (kPageSize - current % kPageSize)
      if rangeOverflows address (total + chunk) then .error linuxEfault
      else
        match space.read current chunk with
        | .error e => .error (memoryErrorToLinux e)
        | .ok buffer =>
          match buffer.findIdx? (· == 0) with
          | some i => .ok (result ++ buffer.take i)
          | none => readCStringLoop space address maxLength fuel (total + chunk) (result ++ buffer)

def readCString (space : AddressSpace) (address : ℕ) : Except ℕ (List Byte) :=
  if address = 0 then .error linuxEfault
  else readCStringLoop space address maxPathLength (maxPathLength + 1) 0 []

/-- Little-endian bytes, as `write_le` and `write_int32` store them. -/
def leBytes (value : ℕ) (width : ℕ) : List Byte :=
  (List.range width).map fun i => BitVec.ofNat 8 (value / 2 ^ (8 * i))

def readLe (bytes : List Byte) (offset width : ℕ) : ℕ :=
  (List.range width).foldl (fun value i => value + (bytes.getD (offset + i) 0).toNat * 2 ^ (8 * i)) 0

/-- `write_int32`: the space after the write, and the error number if it failed. -/
def writeInt32 (space : AddressSpace) (address : ℕ) (value : ℕ) : Option ℕ × AddressSpace :=
  let written := space.write address (leBytes value 4)
  match written.result with
  | .error e => (some (memoryErrorToLinux e), written.space)
  | .ok () => (none, written.space)

end X86Sim.Linux
