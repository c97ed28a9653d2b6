import X86Sim.Lib.CircQueue
import X86Sim.Lib.StateLists
import X86Sim.Context

/-!
# The out-of-order core: state (`ooocore.h`)

One core with one thread context, its arrays split by field. Reorder buffer
entries, load/store queue entries and physical registers are named by their
index. The state lists of the reorder buffer and of the register files are
`StateLists`; both queues are `CircQueue`s.

Left out: statistics, event log, memory interlocks (one context), the TLBs (not
compiled in), and the fields only those read.
-/

namespace X86Sim.Ooo

def ROB_SIZE : ℕ := 128
def LDQ_SIZE : ℕ := 48
def STQ_SIZE : ℕ := 32
def LSQ_SIZE : ℕ := LDQ_SIZE + STQ_SIZE
def FETCH_QUEUE_SIZE : ℕ := 32
def FETCH_WIDTH : ℕ := 4
def FRONTEND_WIDTH : ℕ := 4
def FRONTEND_STAGES : ℕ := 5
def DISPATCH_WIDTH : ℕ := 4
def WRITEBACK_WIDTH : ℕ := 4
def COMMIT_WIDTH : ℕ := 4
def MAX_FORWARDING_LATENCY : ℕ := 2
def ISSUE_QUEUE_SIZE : ℕ := 16
def ICACHE_FETCH_GRANULARITY : ℕ := 16
def DISPATCH_DEADLOCK_COUNTDOWN_CYCLES : ℕ := 256
def UNALIGNED_PREDICTOR_SIZE : ℕ := 4096
def MAX_BRANCHES_IN_FLIGHT : ℕ := 16

/-! ### Clusters -/

/-- `int0`, `int1`, `ld` and `fp`. -/
abbrev Cluster := Fin 4

/-- The `fu_mask` column of `clusters`. -/
def Cluster.fuMask : Cluster → ℕ
  | 0 => fuAlu0 ||| fuStu0
  | 1 => fuAlu1 ||| fuStu1
  | 2 => fuLdu0 ||| fuLdu1
  | 3 => fuFpu0 ||| fuFpu1

/-- The `issue_width` column, the same for all. -/
def issueWidth : ℕ := 2

/-- `uop_executable_on_cluster`. -/
def executableOn (o : Opcode) (cl : Cluster) : Bool := cl.fuMask &&& o.fu != 0

/-- `intercluster_latency_map`, source first. -/
def interclusterLatency : Cluster → Cluster → ℕ
  | 0, 1 => 1
  | 1, 0 => 1
  | 3, 3 => 0
  | 3, _ => 2
  | _, 3 => 2
  | _, _ => 0

/-! ### Reorder buffer states -/

/-- The lists of the reorder buffer. -/
inductive RobState
  | free | frontend | readyToDispatch
  | dispatched (cl : Cluster) | readyToIssue (cl : Cluster) | readyToStore (cl : Cluster)
  | readyToLoad (cl : Cluster) | issued (cl : Cluster) | completed (cl : Cluster)
  | readyToWriteback (cl : Cluster)
  | cacheMiss | memoryFence | readyToCommit
  deriving DecidableEq

/-- The `ROB_STATE_IN_ISSUE_QUEUE` flag of a list. -/
def RobState.inIssueQueue : RobState → Bool
  | .dispatched _ | .readyToIssue _ | .readyToStore _ | .readyToLoad _ => true
  | _ => false

/-! ### Issue queues -/

/-- One slot: the tag of its uop and, for each operand, the tag it still waits for. -/
structure IssueSlot where
  uopid : ℕ
  tags : Fin 4 → Option ℕ
  issued : Bool
  allready : Bool

/-- `IssueQueue`: the occupied slots, lowest first. `valid` and `count` are the length. -/
abbrev IssueQueue := List IssueSlot

/-! ### Physical registers -/

inductive PhysState
  | free | waiting | bypass | written | arch | pendingfree
  deriving DecidableEq

/-- `PHYS_REG_FILE_INT`, `_FP`, `_ST` and `_BR`. -/
abbrev FileId := Fin 4

def fileInt : FileId := 0
def fileFp : FileId := 1
def fileSt : FileId := 2
def fileBr : FileId := 3

def FileId.size : FileId → ℕ
  | 0 => 256
  | 1 => 256
  | 2 => STQ_SIZE
  | 3 => MAX_BRANCHES_IN_FLIGHT

/-- A physical register: its file and its index there. -/
structure PhysReg where
  rfid : FileId
  idx : ℕ
  deriving DecidableEq

/-- `PHYS_REG_NULL` of the integer file, which stands for "no operand". -/
def PhysReg.null : PhysReg := ⟨fileInt, 0⟩

def PhysReg.nonnull (p : PhysReg) : Bool := p.idx != 0

/-- Operand positions; `RS` is for loads and stores only. -/
abbrev Operand := Fin 4

def RA : Operand := 0
def RB : Operand := 1
def RC : Operand := 2
def RS : Operand := 3

/-! ### Loads and stores -/

/-- What `physaddr` of an `SFR` holds, an address in units of eight bytes: of guest
memory, of host storage (internal uops), or the virtual address `addrgen` leaves
there until the translation succeeds. -/
inductive Chunk
  | invalid | guest (n : ℕ) | host (n : ℕ) | virt (n : ℕ)
  deriving DecidableEq

/-- `LoadStoreQueueEntry`. `own` and `ownMask` record the bytes a store's own uop
writes, `low` the low half a `ld.hi` was given; no function reads them. -/
structure LsqEntry where
  rob : ℕ
  store : Bool
  lfence : Bool
  sfence : Bool
  addrvalid : Bool
  datavalid : Bool
  invalid : Bool
  physaddr : Chunk
  bytemask : BitVec 8
  data : W64
  smcMfn : ℕ
  own : W64
  ownMask : BitVec 8
  low : W64

/-- `reset`: all zero. -/
def LsqEntry.zero : LsqEntry where
  rob := 0
  store := false
  lfence := false
  sfence := false
  addrvalid := false
  datavalid := false
  invalid := false
  physaddr := .invalid
  bytemask := 0
  data := 0
  smcMfn := 0
  own := 0
  ownMask := 0
  low := 0

/-! ### Fetched uops -/

/-- `FetchBufferEntry`. `code` records the instruction bytes the uop was decoded
from; no function reads it. -/
structure FetchBufferEntry where
  op : TransOp
  rip : RIPVirtPhys
  uuid : ℕ
  ldStTrulyUnaligned : Bool
  code : List Byte

/-! ### The core -/

/-- The scheduling side of the reorder buffer. -/
structure Sched where
  lists : StateLists RobState
  entryValid : ℕ → Bool
  cluster : ℕ → Option Cluster
  iqslot : ℕ → Option ℕ
  issued : ℕ → Bool
  cyclesLeft : ℕ → ℤ
  forwardCycle : ℕ → ℕ
  queue : Cluster → IssueQueue
  issueqCount : ℤ

/-- Register files, rename tables, and the registers reorder buffer entries name. -/
structure Regs where
  lists : FileId → StateLists PhysState
  refcount : PhysReg → ℤ
  rob : PhysReg → Option ℕ
  specrrt : Reg → PhysReg
  commitrrt : Reg → PhysReg
  physreg : ℕ → PhysReg
  operands : ℕ → Operand → PhysReg

/-- The values in the physical registers. -/
structure Values where
  data : PhysReg → W64
  flags : PhysReg → W16

/-- The load/store queue and what reorder buffer entries know of it. `lfrq` says
that the entry holds a slot of the load fill request queue. -/
structure LoadStore where
  ring : CircQueue
  entry : ℕ → LsqEntry
  lsq : ℕ → Option ℕ
  secondPhase : ℕ → Bool
  origvirt : ℕ → ℕ
  lfrq : ℕ → Bool
  loadsInFlight : ℤ
  storesInFlight : ℤ
  /-- `load_to_store_parallel_forwarding_buffer`, as far as `loads_in_this_cycle`. -/
  loadsInThisCycle : List Chunk

/-- The fetch unit. `decodedFrom` records the bytes each cached block was decoded
from; no function reads it. -/
structure Fetch where
  fetchrip : RIPVirtPhys
  currentBasicBlock : Option BasicBlock
  transopIndex : ℕ
  stallFrontend : Bool
  waitingForIcacheFill : Bool
  currentIcacheBlock : ℕ
  fetchUuid : ℕ
  fetchq : List FetchBufferEntry
  unalignedLdstBuf : List TransOp
  unalignedPredictor : ℕ → Bool
  decodedFrom : W64 → List Byte

/-- The machine around the thread. -/
structure Machine where
  space : AddressSpace
  bbcache : BasicBlockCache
  simCycle : ℕ
  totalUserInsnsCommitted : ℕ
  stopAtUserInsns : ℕ
  stopAtNextEom : Bool
  smcInvalidatePending : Bool
  smcInvalidateRvp : RIPVirtPhys
  chkRecoveryRip : W64
  lastCommitAtCycle : ℕ
  dispatchDeadlockCountdown : ℕ
  fuAvail : ℕ
  stopped : Bool

/-- `OutOfOrderCore` with its one `ThreadContext`. -/
structure Core where
  ring : CircQueue
  uop : ℕ → FetchBufferEntry
  sched : Sched
  regs : Regs
  vals : Values
  ls : LoadStore
  fetch : Fetch
  ctx : Context
  mach : Machine

namespace Core

/-- The reorder buffer entries in program order. -/
def order (c : Core) : List ℕ := c.ring.order ROB_SIZE

end Core
end X86Sim.Ooo
