import X86Sim.Ooo.Registers

/-!
# Fetch, rename and the frontend delay (`ooopipe.cpp`)

What the caches and predictors answer is an input of the cycle, `CycleInput`.
-/

namespace X86Sim.Ooo

/-- What the parts of the machine that only decide timing and prediction answer in one
cycle. The first four are indexed by the turn of the fetch loop, the others by the
reorder buffer entry that asks. -/
structure CycleInput where
  /-- `probe_icache`. -/
  icacheHit : ℕ → Bool
  /-- `initiate_icache_miss` found a miss buffer. -/
  missbuf : ℕ → Bool
  /-- The direction the predictor gives a conditional branch. -/
  predictTaken : ℕ → Bool
  /-- The target the predictor gives an indirect branch. -/
  predictTarget : ℕ → W64
  /-- The cache delivered the line the fetch unit waits for. -/
  icacheWakeup : Bool
  /-- The loads the cache delivers, in order. -/
  dcacheWakeups : List ℕ
  /-- `probe_cache_and_sfr`. -/
  l1hit : ℕ → Bool
  /-- `lfrq_or_missbuf_full`. -/
  lfrqFull : ℕ → Bool
  /-- The load/store alias predictor knows the load. -/
  lsap : ℕ → Bool
  /-- What the local `rc` of `annul` holds when no operation has set it. -/
  rc : ℕ → Bool
  /-- What the local `pfec` of a load or store holds when no check has set it. -/
  pfec : ℕ → PageFaultErrorCode

/-- Turns of a loop with a bound: `step` returns nothing to break. -/
def loopWhile {α : Type} (step : α → Option α) : ℕ → α → α
  | 0, a => a
  | n + 1, a =>
    match step a with
    | none => a
    | some a => loopWhile step n a

namespace Core

variable (c : Core)

/-! ### The fetch unit -/

/-- `hash_unaligned_predictor_slot`. -/
def hashUnalignedPredictorSlot (rvp : RIPVirtPhys) : ℕ :=
  (rvp.rip.toNat ^^^ rvp.mfnlo) % UNALIGNED_PREDICTOR_SIZE

def getUnalignedHint (rvp : RIPVirtPhys) : Bool :=
  c.fetch.unalignedPredictor (hashUnalignedPredictorSlot rvp)

def setUnalignedHint (rvp : RIPVirtPhys) (value : Bool) : Core :=
  { c with fetch := { c.fetch with
      unalignedPredictor :=
        Function.update c.fetch.unalignedPredictor (hashUnalignedPredictorSlot rvp) value } }

/-- `RIPVirtPhys::update(ctx)` of a rip. -/
def ripOf (rip : W64) : RIPVirtPhys := RIPVirtPhys.update rip c.ctx.use64 c.ctx.df

/-- The reference on the block being fetched is given back. -/
def releaseBlock : Core :=
  match c.fetch.currentBasicBlock with
  | none => c
  | some bb =>
    { c with
      mach := { c.mach with bbcache := c.mach.bbcache.release bb.rip.rip }
      fetch := { c.fetch with currentBasicBlock := none } }

/-- `reset_fetch_unit`. -/
def resetFetchUnit (realrip : W64) : Core :=
  let c := c.releaseBlock
  { c with fetch := { c.fetch with
      fetchrip := c.ripOf realrip
      stallFrontend := false
      waitingForIcacheFill := false
      fetchq := []
      transopIndex := 0
      unalignedLdstBuf := [] } }

/-- `fetch_or_translate_basic_block`. The source asserts that `translate` succeeds. -/
def fetchOrTranslateBasicBlock (dec : Decoder) : Core :=
  let c := c.releaseBlock
  let rvp := c.fetch.fetchrip
  let take (c : Core) (bb : BasicBlock) : Core :=
    { c with
      mach := { c.mach with bbcache := c.mach.bbcache.acquire bb.rip.rip }
      fetch := { c.fetch with currentBasicBlock := some bb, transopIndex := 0 } }
  match c.mach.bbcache.get rvp with
  | some b => take c b.bb
  | none =>
    let r := c.mach.bbcache.translate dec c.mach.space rvp
    let c := { c with mach := { c.mach with space := r.2.1, bbcache := r.2.2 } }
    match r.1 with
    | none => c
    | some bb =>
      -- what the block was decoded from is recorded beside it; the source has no such field
      let code := c.mach.space.readRange bb.rip.rip.toNat bb.bytes
      take { c with fetch := { c.fetch with
        decodedFrom := Function.update c.fetch.decodedFrom bb.rip.rip code } } bb

/-- The instruction bytes at `rip` of the block being fetched, as they were decoded. -/
def codeOf (bb : BasicBlock) (rip : W64) (bytes : ℕ) : List Byte :=
  ((c.fetch.decodedFrom bb.rip.rip).drop (rip.toNat - bb.rip.rip.toNat)).take bytes

/-- The next uop of the block or of the split buffer, with the fetch unit after it. -/
def nextTransop (bb : BasicBlock) : TransOp × Fetch :=
  let f := c.fetch
  let (op, buf) :=
    match f.unalignedLdstBuf with
    | op :: buf => (op, buf)
    | [] => (bb.transops[f.transopIndex]?.getD (TransOp.init .opNop 0 0 0 0 0 0 0 .none), [])
  -- an access the predictor knows to be unaligned is split as it is fetched
  let unaligned := c.getUnalignedHint f.fetchrip && (op.opcode = .opLd ∨ op.opcode = .opLdx ∨
    op.opcode = .opSt) && op.cond == LdstAlign.normal.cond
  let op := { op with unaligned := unaligned }
  let (op, buf) :=
    if op.unaligned then
      match splitUnaligned op with
      | op :: buf => (op, buf)
      | [] => (op, buf)
    else (op, buf)
  (op, { f with
    unalignedLdstBuf := buf
    transopIndex := if buf.isEmpty then f.transopIndex + 1 else f.transopIndex
    stallFrontend := f.stallFrontend || isbarrier op.opcode })

/-- `predict`, with the source's cases on the kind of branch. -/
def predict (inp : CycleInput) (k : ℕ) (op : TransOp) (ripafter : W64) : W64 :=
  if isclass op.opcode opclassCondBranch then
    if inp.predictTaken k then op.riptaken else ripafter
  else if isclass op.opcode opclassIndirBranch then inp.predictTarget k
  else op.riptaken

/-- `invert_cond`. -/
def invertCond (cond : ℕ) : ℕ := cond ^^^ 1

/-- A branch uop as it enters the fetch queue, set up for the predicted direction. -/
def setupBranch (op : TransOp) (predrip : W64) : TransOp :=
  if isclass op.opcode opclassCondBranch then
    if predrip ≠ op.riptaken then
      { op with cond := invertCond op.cond, riptaken := op.ripseq, ripseq := op.riptaken }
    else op
  else if isclass op.opcode opclassIndirBranch then { op with riptaken := predrip, ripseq := predrip }
  else op

/-- The end of a turn: after the last uop of an instruction the fetch unit moves on; it
stops for this cycle at a taken branch. -/
def advanceRip (op : TransOp) (predrip : Option W64) : Bool × Core :=
  if op.eom then
    let rip := c.fetch.fetchrip.rip + BitVec.ofNat 64 op.bytes
    match predrip with
    | none => (true, { c with fetch := { c.fetch with fetchrip := c.ripOf rip } })
    | some predrip =>
      (predrip == rip, { c with fetch := { c.fetch with fetchrip := c.ripOf predrip } })
  else (true, c)

/-- The rip the fetch goes on at, for a branch. -/
def predrip (inp : CycleInput) (k : ℕ) (op : TransOp) : Option W64 :=
  if isbranch op.opcode then
    some (predict inp k op (c.fetch.fetchrip.rip + BitVec.ofNat 64 op.bytes))
  else none

def setupPredicted (op : TransOp) : Option W64 → TransOp
  | none => op
  | some predrip => setupBranch op predrip

/-- The uop goes into the fetch queue; `f` is the fetch unit that delivered it. -/
def pushUop (op : TransOp) (f : Fetch) (bb : BasicBlock) : Core :=
  let rip := c.fetch.fetchrip
  let entry : FetchBufferEntry := ⟨op, rip, f.fetchUuid, false, c.codeOf bb rip.rip op.bytes⟩
  { c with fetch := { f with fetchUuid := f.fetchUuid + 1, fetchq := f.fetchq ++ [entry] } }

/-- One uop is fetched. -/
def fetchUop (inp : CycleInput) (k : ℕ) (bb : BasicBlock) : Bool × Core :=
  let (op, f) := c.nextTransop bb
  let predrip := c.predrip inp k op
  let op := setupPredicted op predrip
  (c.pushUop op f bb).advanceRip op predrip

/-- The instruction cache is asked when the fetch enters another line, of a block that is not
invalid; on a miss the fetch waits, or tries again when there is no miss buffer. -/
def probeIcache (inp : CycleInput) (k : ℕ) (bb : BasicBlock) : Bool × Core :=
  let req := c.fetch.fetchrip.rip.toNat / ICACHE_FETCH_GRANULARITY * ICACHE_FETCH_GRANULARITY
  if bb.invalidblock || req = c.fetch.currentIcacheBlock then (true, c)
  else if inp.icacheHit k then (true, { c with fetch := { c.fetch with currentIcacheBlock := req } })
  else if inp.missbuf k then (false, { c with fetch := { c.fetch with waitingForIcacheFill := true } })
  else (false, c)

/-- There is no block, or all its uops were fetched. -/
def blockSpent : Bool :=
  match c.fetch.currentBasicBlock with
  | none => true
  | some bb => bb.transops.length ≤ c.fetch.transopIndex

def nextBlock (dec : Decoder) : Core := if c.blockSpent then c.fetchOrTranslateBasicBlock dec else c

/-- One turn of the fetch loop; false to break. -/
def fetchTurn (dec : Decoder) (inp : CycleInput) (k : ℕ) : Bool × Core :=
  if c.fetch.fetchq.length + 1 ≥ FETCH_QUEUE_SIZE then (false, c)
  else
    let c := c.nextBlock dec
    match c.fetch.currentBasicBlock with
    | none => (false, c)
    | some bb =>
      match c.probeIcache inp k bb with
      | (false, c) => (false, c)
      | (true, c) => c.fetchUop inp k bb

/-- The turns of the fetch loop from the `k`th on. -/
def fetchLoop (dec : Decoder) (inp : CycleInput) : ℕ → ℕ → Core → Core
  | 0, _, c => c
  | n + 1, k, c =>
    match c.fetchTurn dec inp k with
    | (false, c) => c
    | (true, c) => fetchLoop dec inp n (k + 1) c

/-- `fetch`. -/
def fetchStage (dec : Decoder) (inp : CycleInput) : Core :=
  if c.fetch.stallFrontend || c.fetch.waitingForIcacheFill then c
  else fetchLoop dec inp FETCH_WIDTH 0 c

/-! ### Rename -/

/-- What `rename` does to the load/store queue for entry `i`. -/
def renameLsq (i : ℕ) (op : TransOp) : LoadStore :=
  let ls := c.ls
  let st := isstore op.opcode
  let ls := { ls with
    lsq := Function.update ls.lsq i none
    secondPhase := Function.update ls.secondPhase i false
    lfrq := Function.update ls.lfrq i false }
  if isload op.opcode || st then
    let j := ls.ring.tail
    -- `extshift` of a fence carries its type: bit 0 for stores, bit 1 for loads
    let entry := { ls.entry j with
      rob := i
      store := st
      lfence := op.opcode == .opMf && op.extshift.testBit 1
      sfence := op.opcode == .opMf && op.extshift.testBit 0
      datavalid := false
      addrvalid := false
      invalid := false }
    { ls with
      ring := ls.ring.alloc LSQ_SIZE
      entry := Function.update ls.entry j entry
      lsq := Function.update ls.lsq i (some j)
      loadsInFlight := if st then ls.loadsInFlight else ls.loadsInFlight + 1
      storesInFlight := if st then ls.storesInFlight + 1 else ls.storesInFlight }
  else ls

/-- Allocation and renaming of one uop, once all resources are there. -/
def renameUop (uop : FetchBufferEntry) (rest : List FetchBufferEntry) (p : PhysReg) : Core :=
  let i := c.ring.tail
  { c with
    ring := c.ring.alloc ROB_SIZE
    uop := Function.update c.uop i uop
    sched := c.sched.renameEntry i
    regs := c.regs.renameEntry i uop.op p
    vals := c.vals.set p 0xdeadbeefdeadbeef FLAG_WAIT
    ls := c.renameLsq i uop.op
    fetch := { c.fetch with fetchq := rest } }

/-- Whether the load/store queues have room for the uop. -/
def lsqRoom (op : TransOp) : Bool :=
  let ld := isload op.opcode
  let st := isstore op.opcode
  !(ld && c.ls.loadsInFlight ≥ LDQ_SIZE) && !(st && c.ls.storesInFlight ≥ STQ_SIZE) &&
    !((ld || st) && c.ls.ring.remaining LSQ_SIZE == 0)

/-- One turn of the rename loop. -/
def renameTurn : Option Core :=
  match c.fetch.fetchq with
  | [] => none
  | uop :: rest =>
    if c.ring.remaining ROB_SIZE = 0 then none
    else
      match c.regs.peekFree (physRegFileWritableByUop uop.op) with
      | none => none
      | some p => if c.lsqRoom uop.op then some (c.renameUop uop rest p) else none

/-- `rename`. -/
def renameStage : Core := loopWhile renameTurn FRONTEND_WIDTH c

/-! ### The frontend delay -/

/-- One entry of the frontend list. -/
def frontendEntry (i : ℕ) : Core :=
  let s := c.sched
  let s :=
    if s.cyclesLeft i ≤ 0 then
      { s with cyclesLeft := Function.update s.cyclesLeft i (-1) }.changestate i .readyToDispatch
    else s
  { c with sched := { s with cyclesLeft := Function.update s.cyclesLeft i (s.cyclesLeft i - 1) } }

/-- `frontend`. -/
def frontendStage : Core := (c.sched.lists.members .frontend).foldl frontendEntry c

end Core
end X86Sim.Ooo
