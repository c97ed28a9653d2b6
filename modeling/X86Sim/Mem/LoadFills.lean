import Mathlib.Data.Fintype.Card
import X86Sim.Uop

/-!
# Load fill requests and miss buffers (`dcache.cpp`, `dcache.h`)

A load that misses takes a slot of the load fill request queue and a bit in the map of the
miss buffer of its line. When the line arrives the slots of the map become ready, and the
queue delivers up to two ready requests in a cycle. A bit set is a function of the index.
-/

namespace X86Sim.LoadFills

variable {n m : ℕ}

/-- `lsb` of a bit set, if one is set. -/
def lsb {k : ℕ} (bits : Fin k → Bool) : Option (Fin k) := (List.finRange k).find? bits

/-- The fields of `LoadStoreInfo` that say who waits. -/
structure LoadStoreInfo where
  rob : BitVec 16
  threadid : BitVec 8
  deriving DecidableEq

/-- `LoadFillReq`; `id` is the number of the request, which no code reads. -/
structure LoadFillReq where
  addr : W64
  lsi : LoadStoreInfo
  mbidx : ℤ
  id : ℕ

structure LoadFillReqQueue (n : ℕ) where
  freemap : Fin n → Bool
  waiting : Fin n → Bool
  ready : Fin n → Bool
  reqs : Fin n → LoadFillReq
  count : ℤ

inductive MissState
  | idle | deliverToL3 | deliverToL2 | deliverToL1
  deriving DecidableEq

/-- `MissBuffer::Entry`. -/
structure MissEntry (n : ℕ) where
  addr : W64
  state : MissState
  dcache : Bool
  icache : Bool
  cycles : ℕ
  rob : BitVec 16
  threadid : BitVec 8
  lfrqmap : Fin n → Bool

def MissEntry.reset : MissEntry n := ⟨0xffffffffffffffff, .idle, false, false, 0, 0xffff, 0xff, fun _ => false⟩

structure MissBuffer (n m : ℕ) where
  missbufs : Fin m → MissEntry n
  freemap : Fin m → Bool
  count : ℤ

/-- The two queues, the loads that were taken in, the requests that were delivered to
`dcache_wakeup`, and the numbers of those that were annulled. -/
structure CacheHierarchy (n m : ℕ) where
  lfrq : LoadFillReqQueue n
  missbuf : MissBuffer n m
  loads : List (LoadStoreInfo × W64)
  delivered : List LoadFillReq
  annulled : List ℕ

abbrev LFRQ_SIZE : ℕ := 64
abbrev MISSBUF_COUNT : ℕ := 64
def L2_LATENCY : ℕ := 5
def L3_LATENCY : ℕ := 8
def MAIN_MEM_LATENCY : ℕ := 140
def MAX_WAKEUPS_PER_CYCLE : ℕ := 2

/-- `floor(addr, L1_LINE_SIZE)`. -/
def lineOf (addr : W64) : W64 := addr &&& ~~~63

namespace CacheHierarchy

variable (s : CacheHierarchy n m)

def reset : CacheHierarchy n m where
  lfrq := ⟨fun _ => true, fun _ => false, fun _ => false, fun _ => ⟨0, ⟨0, 0⟩, -1, 0⟩, 0⟩
  missbuf := ⟨fun _ => .reset, fun _ => true, 0⟩
  loads := []
  delivered := []
  annulled := []

/-! ### Load fill request queue -/

/-- `LoadFillReqQueue::add`: the slot, if one is free. -/
def add (req : LoadFillReq) : Option (Fin n × CacheHierarchy n m) :=
  (lsb s.lfrq.freemap).map fun idx =>
    (idx,
      { s with
        lfrq :=
          { s.lfrq with
            freemap := Function.update s.lfrq.freemap idx false, waiting := Function.update s.lfrq.waiting idx true
            reqs := Function.update s.lfrq.reqs idx req, count := s.lfrq.count + 1 } })

/-- `LoadFillReqQueue::free`. -/
def free (slot : Fin n) : CacheHierarchy n m :=
  { s with
    lfrq :=
      { s.lfrq with
        waiting := Function.update s.lfrq.waiting slot false, freemap := Function.update s.lfrq.freemap slot true
        count := s.lfrq.count - 1 } }

def wakeup (lfrqmask : Fin n → Bool) : CacheHierarchy n m :=
  { s with
    lfrq :=
      { s.lfrq with
        waiting := fun i => s.lfrq.waiting i && !lfrqmask i, ready := fun i => s.lfrq.ready i || lfrqmask i } }

/-- A slot that leaves the ready state. -/
def leaveReady (slot : Fin n) : LoadFillReqQueue n :=
  { s.lfrq with
    ready := Function.update s.lfrq.ready slot false, freemap := Function.update s.lfrq.freemap slot true
    count := s.lfrq.count - 1 }

/-- One turn of `LoadFillReqQueue::clock`. -/
def deliver : CacheHierarchy n m :=
  match lsb s.lfrq.ready with
  | none => s
  | some idx => { s with lfrq := s.leaveReady idx, delivered := s.delivered ++ [s.lfrq.reqs idx] }

def lfrqClock : CacheHierarchy n m := deliver^[MAX_WAKEUPS_PER_CYCLE] s

/-- `MissBuffer::annul_lfrq`. -/
def annulLfrq (slot : Fin n) : MissBuffer n m :=
  { s.missbuf with
    missbufs := fun j => { s.missbuf.missbufs j with lfrqmap := Function.update (s.missbuf.missbufs j).lfrqmap slot false } }

/-- `LoadFillReqQueue::annul`, after its assertion. -/
def annulSlot (slot : Fin n) : CacheHierarchy n m :=
  { s with
    missbuf := s.annulLfrq slot
    lfrq := { s.leaveReady slot with reqs := Function.update s.lfrq.reqs slot { s.lfrq.reqs slot with mbidx := -1 } }
    annulled := s.annulled ++ [(s.lfrq.reqs slot).id] }

/-! ### Miss buffer -/

/-- `MissBuffer::find`. -/
def find (addr : W64) : Option (Fin m) := lsb fun i => (s.missbuf.missbufs i).addr == addr && !s.missbuf.freemap i

def setEntry (idx : Fin m) (entry : MissEntry n) : Fin m → MissEntry n := Function.update s.missbuf.missbufs idx entry

/-- The state that a miss buffer enters, and the cycles it stays there. -/
def entered (hitInL2 L3hit : Bool) : MissState × ℕ :=
  if hitInL2 then (.deliverToL1, L2_LATENCY) else if L3hit then (.deliverToL2, L3_LATENCY) else (.deliverToL3, MAIN_MEM_LATENCY)

/-- `initiate_miss` for a line; `L3hit` is the probe of the L3. -/
def initiateMissLine (addr : W64) (hitInL2 L3hit icache : Bool) (rob : BitVec 16) (threadid : BitVec 8) :
    Option (Fin m) × CacheHierarchy n m :=
  let addr := lineOf addr
  match s.find addr with
  | some idx =>
    let mb := s.missbuf.missbufs idx
    -- a miss on the line is under way already
    let mb := { mb with icache := mb.icache || icache, dcache := mb.dcache || !icache }
    (some idx, { s with missbuf := { s.missbuf with missbufs := s.setEntry idx mb } })
  | none =>
    match lsb s.missbuf.freemap with
    | none => (none, s)
    | some idx =>
      let state := (entered hitInL2 L3hit).1
      let cycles := (entered hitInL2 L3hit).2
      (some idx,
        { s with
          missbuf :=
            { missbufs := s.setEntry idx ⟨addr, state, !icache, icache, cycles, rob, threadid, fun _ => false⟩
              freemap := Function.update s.missbuf.freemap idx false, count := s.missbuf.count + 1 } })

/-- `initiate_miss` for a request. -/
def initiateMiss (req : LoadFillReq) (hitInL2 L3hit : Bool) (rob : BitVec 16) : Option (Fin n) × CacheHierarchy n m :=
  match s.add req with
  | none => (none, s)
  | some (lfrqslot, s) =>
    match s.initiateMissLine req.addr hitInL2 L3hit false rob req.lsi.threadid with
    | (none, s) => (none, s.free lfrqslot)
    | (some mbidx, s) =>
      let mb := s.missbuf.missbufs mbidx
      let mb := { mb with lfrqmap := Function.update mb.lfrqmap lfrqslot true }
      (some lfrqslot,
        { s with
          missbuf := { s.missbuf with missbufs := s.setEntry mbidx mb }
          lfrq := { s.lfrq with reqs := Function.update s.lfrq.reqs lfrqslot { s.lfrq.reqs lfrqslot with mbidx := mbidx } }
          loads := s.loads ++ [(req.lsi, req.addr)] })

/-- One entry in `MissBuffer::clock`; one that is not idle has a cycle left. -/
def entryClock (i : Fin m) : CacheHierarchy n m :=
  let mb := s.missbuf.missbufs i
  let store (mb : MissEntry n) : CacheHierarchy n m := { s with missbuf := { s.missbuf with missbufs := s.setEntry i mb } }
  match mb.state with
  | .idle => s
  | .deliverToL3 =>
    if mb.cycles - 1 = 0 then store { mb with cycles := L3_LATENCY, state := .deliverToL2 }
    else store { mb with cycles := mb.cycles - 1 }
  | .deliverToL2 =>
    if mb.cycles - 1 = 0 then store { mb with cycles := L2_LATENCY, state := .deliverToL1 }
    else store { mb with cycles := mb.cycles - 1 }
  | .deliverToL1 =>
    if mb.cycles - 1 = 0 then
      -- an instruction fetch wakes no load
      let s := if mb.dcache then s.wakeup mb.lfrqmap else s
      { s with
        missbuf :=
          { missbufs := s.setEntry i .reset, freemap := Function.update s.missbuf.freemap i true
            count := s.missbuf.count - 1 } }
    else store { mb with cycles := mb.cycles - 1 }

def missbufClock : CacheHierarchy n m :=
  if ∀ i, s.missbuf.freemap i = true then s else (List.finRange m).foldl entryClock s

/-! ### The hierarchy -/

def issueloadSlowpath (physaddr : W64) (lsi : LoadStoreInfo) (L2hit L3hit : Bool) : Option (Fin n) × CacheHierarchy n m :=
  s.initiateMiss ⟨physaddr, lsi, -1, s.loads.length⟩ L2hit L3hit lsi.rob

def initiateIcacheMiss (addr : W64) (inL2 inL3 : Bool) (rob : BitVec 16) (threadid : BitVec 8) :
    Option (Fin m) × CacheHierarchy n m :=
  s.initiateMissLine (lineOf addr) inL2 inL3 true rob threadid

/-- `initiate_prefetch`; the probes of the L1, the L2 and the L3 are given. -/
def initiatePrefetch (addr : W64) (inL1 inL2 inL3 : Bool) : CacheHierarchy n m :=
  if inL1 then s else (s.initiateMissLine (lineOf addr) inL2 inL3 false 0xffff 0xfe).2

/-- `commitstore`, for a store that is not `dropped` (invalid, or of no byte); whether the
lines of the L1 and L2 are `full` after it is given. -/
def commitstore (addr : W64) (dropped fullL1 fullL2 inL3 : Bool) (threadid : BitVec 8) : CacheHierarchy n m :=
  if dropped then s
  else if fullL1 then s
  else (s.initiateMissLine addr fullL2 inL3 false 0xffff threadid).2

def clock : CacheHierarchy n m := s.lfrqClock.missbufClock

/-- The loop of `LoadFillReqQueue::restart`, with the turns it has left. -/
def restartLoop : ℕ → CacheHierarchy n m → CacheHierarchy n m
  | 0, s => s
  | turns + 1, s =>
    match lsb fun i => !s.lfrq.freemap i with
    | none => s
    | some idx => restartLoop turns (s.annulSlot idx)

def lfrqRestart : CacheHierarchy n m :=
  let s := restartLoop n s
  { s with lfrq := ⟨fun _ => true, fun _ => false, fun _ => false, s.lfrq.reqs, 0⟩ }

def missbufRestart : CacheHierarchy n m :=
  if ∀ i, s.missbuf.freemap i = true then s
  else
    { s with missbuf := { s.missbuf with missbufs := fun j => { s.missbuf.missbufs j with lfrqmap := fun _ => false } } }

def complete : CacheHierarchy n m := s.lfrqRestart.missbufRestart

/-- One slot in `LoadFillReqQueue::reset` of a thread. -/
def resetSlot (threadid : BitVec 8) (s : CacheHierarchy n m) (i : Fin n) : CacheHierarchy n m :=
  if !s.lfrq.freemap i && (s.lfrq.reqs i).lsi.threadid == threadid then
    { s with
      lfrq := { s.leaveReady i with waiting := Function.update s.lfrq.waiting i false }
      annulled := s.annulled ++ [(s.lfrq.reqs i).id] }
  else s

/-- One entry in `MissBuffer::reset` of a thread. -/
def resetEntry (threadid : BitVec 8) (s : CacheHierarchy n m) (j : Fin m) : CacheHierarchy n m :=
  if s.missbuf.freemap j then s
  else
    let mb := s.missbuf.missbufs j
    let mb := { mb with lfrqmap := fun l => mb.lfrqmap l && !((s.lfrq.reqs l).lsi.threadid == threadid) }
    if (∀ l, mb.lfrqmap l = false) ∧ mb.threadid = threadid then
      { s with
        missbuf :=
          { missbufs := s.setEntry j .reset, freemap := Function.update s.missbuf.freemap j true
            count := s.missbuf.count - 1 } }
    else { s with missbuf := { s.missbuf with missbufs := s.setEntry j mb } }

/-- `complete` of a thread. -/
def completeThread (threadid : BitVec 8) : CacheHierarchy n m :=
  (List.finRange m).foldl (resetEntry threadid) ((List.finRange n).foldl (resetSlot threadid) s)

end CacheHierarchy

/-! ### Runs -/

inductive FillOp (n : ℕ)
  | issueload (physaddr : W64) (lsi : LoadStoreInfo) (L2hit L3hit : Bool)
  | icacheMiss (addr : W64) (inL2 inL3 : Bool) (rob : BitVec 16) (threadid : BitVec 8)
  | prefetch (addr : W64) (inL1 inL2 inL3 : Bool)
  | commitstore (addr : W64) (dropped fullL1 fullL2 inL3 : Bool) (threadid : BitVec 8)
  | annul (slot : Fin n)
  | clock
  | complete
  | completeThread (threadid : BitVec 8)

/-- An operation; annulling a free slot fails its assertion. -/
def CacheHierarchy.exec (s : CacheHierarchy n m) : FillOp n → Option (CacheHierarchy n m)
  | .issueload physaddr lsi L2hit L3hit => some (s.issueloadSlowpath physaddr lsi L2hit L3hit).2
  | .icacheMiss addr inL2 inL3 rob threadid => some (s.initiateIcacheMiss addr inL2 inL3 rob threadid).2
  | .prefetch addr inL1 inL2 inL3 => some (s.initiatePrefetch addr inL1 inL2 inL3)
  | .commitstore addr dropped fullL1 fullL2 inL3 threadid => some (s.commitstore addr dropped fullL1 fullL2 inL3 threadid)
  | .annul slot => if s.lfrq.freemap slot then none else some (s.annulSlot slot)
  | .clock => some s.clock
  | .complete => some s.complete
  | .completeThread threadid => some (s.completeThread threadid)

/-- The slots that are not free. -/
def CacheHierarchy.occupied (s : CacheHierarchy n m) : Finset (Fin n) := Finset.univ.filter fun i => s.lfrq.freemap i = false

/-- The numbers of the requests in the slots. -/
def CacheHierarchy.pending (s : CacheHierarchy n m) : Multiset ℕ := s.occupied.val.map fun i => (s.lfrq.reqs i).id

/-- One of free, waiting and ready. -/
def OnePhase (free waiting ready : Bool) : Prop :=
  (free = true ∧ waiting = false ∧ ready = false) ∨ (free = false ∧ waiting = true ∧ ready = false) ∨
    (free = false ∧ waiting = false ∧ ready = true)

/-- What must hold in every state: each slot is free, waiting or ready, and nothing else;
the waiting ones are those with a bit in exactly one busy miss buffer; each load is pending,
was delivered once with its own data, or was annulled, and never two of these; and the clock
delivers all that is pending. -/
structure StateRight (s : CacheHierarchy n m) : Prop where
  phase : ∀ i, OnePhase (s.lfrq.freemap i) (s.lfrq.waiting i) (s.lfrq.ready i)
  count : s.lfrq.count = s.occupied.card
  waiting : ∀ i, s.lfrq.waiting i = true ↔
    ∃! j, s.missbuf.freemap j = false ∧ (s.missbuf.missbufs j).lfrqmap i = true
  accounts : s.pending + ((s.delivered.map LoadFillReq.id : List ℕ) : Multiset ℕ) + (s.annulled : Multiset ℕ) =
    Multiset.range s.loads.length
  origin : ∀ req ∈ s.delivered, s.loads[req.id]? = some (req.lsi, req.addr)
  drains : ∃ cycles, (CacheHierarchy.clock^[cycles] s).occupied = ∅

/-- Every state of the run is right; it ends where an assertion fails. -/
def RunRight (s : CacheHierarchy n m) : List (FillOp n) → Prop
  | [] => StateRight s
  | op :: ops => StateRight s ∧ ∀ s', s.exec op = some s' → RunRight s' ops

/-- No slot is annulled while it waits for its line. -/
def RunFine (s : CacheHierarchy n m) : List (FillOp n) → Prop
  | [] => True
  | op :: ops => (∀ slot, op = .annul slot → s.lfrq.freemap slot = false → s.lfrq.waiting slot = false) ∧
    ∀ s', s.exec op = some s' → RunFine s' ops

end X86Sim.LoadFills
