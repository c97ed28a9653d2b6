import X86Sim.Ooo.Dispatch

/-!
# Loads, stores and fences (`oooexec.cpp`)

Address generation, the issue of a store, a load and a fence, and the wakeups of
the last two. A store waits for the nearest older store to its chunk, a load for
the store it forwards from; a store that finds a younger load already issued
redispatches everything from itself on.
-/

namespace X86Sim

open Ooo in
/-- `physaddr >> 3`. -/
def PhysAddr.chunk : PhysAddr → Chunk
  | .guest a => .guest (a / 8)
  | .host a => .host (a / 8)

namespace Ooo

/-- `ISSUE_COMPLETED`, `ISSUE_NEEDS_REPLAY`, `ISSUE_MISSPECULATED`. -/
inductive IssueResult
  | completed | needsReplay | misspeculated
  deriving DecidableEq

/-- What `addrgen` finds out. `entry` is the load/store queue entry as it leaves it. -/
structure AddrGen where
  origaddr : ℕ
  addr : ℕ
  annul : Bool
  trulyUnaligned : Bool
  entry : LsqEntry
  result : Except (InternalException × PageFaultErrorCode) PhysAddr

namespace Core

variable (c : Core)

/-- `loadphys`: the eight bytes from an address. -/
def loadphys : PhysAddr → W64
  | .guest a => c.mach.space.loadChunk a
  | .host a => ByteMask.ofBytes fun i => c.ctx.hostBytes (a + i)

/-- `addrgen`. An address that is not canonical leaves everything as it was, also the caller's
`pfec`, which is not initialised. -/
def addrgen (pfec : PageFaultErrorCode) (uop : FetchBufferEntry) (entry : LsqEntry) (origvirt : ℕ) (ra rb : W64) : AddrGen :=
  let op := uop.op
  let st := isstore op.opcode
  let a16 := op.opcode = .opLdA16 ∨ op.opcode = .opStA16
  let addr := if st ∨ op.cond = LdstAlign.normal.cond then ra + rb else ra
  if !canonical addr ∨ (a16 ∧ addr.toNat % 16 ≠ 0) then
    ⟨origvirt, addr.toNat, false, uop.ldStTrulyUnaligned, entry, .error (.invalidAddr, pfec)⟩
  else
    let origaddr := (addr &&& c.ctx.virtAddrMask).toNat
    let hi := op.cond = LdstAlign.hi.cond
    -- the high half of an access that stays within its chunk has nothing to do
    let annul := hi ∧ floor8 ((origaddr + (2 ^ op.size - 1)) % 2 ^ 64) = floor8 origaddr
    let addr :=
      if op.cond = LdstAlign.lo.cond then floor8 origaddr
      else if hi then (floor8 origaddr + 8) % 2 ^ 64
      else origaddr
    let entry := { entry with
      physaddr := .virt (addr / 8)
      invalid := false
      addrvalid := true
      datavalid := false }
    ⟨origaddr, addr, annul, lowbits origaddr op.size ≠ 0, entry,
      if annul then .ok (.host 0) else checkAndTranslate c.mach.space addr op.size st op.internal⟩

/-- The effects of `addrgen` on entry `i` and its queue entry `j`. -/
def afterAddrgen (i j : ℕ) (g : AddrGen) : Core :=
  { c with
    uop := Function.update c.uop i { c.uop i with ldStTrulyUnaligned := g.trulyUnaligned }
    ls := { c.ls.setEntry j g.entry with origvirt := Function.update c.ls.origvirt i g.origaddr } }

/-- `handle_common_load_store_exceptions`. An unaligned access marks the predictor and
refetches the instruction; everything else waits for commit. -/
def handleCommonLoadStoreExceptions (inp : CycleInput) (i j : ℕ) (g : AddrGen)
    (exception : InternalException) (pfec : PageFaultErrorCode) : IssueResult × Core :=
  let c := { c with ls := c.ls.setEntry j { c.ls.entry j with
    invalid := true, data := exceptionWord exception pfec, datavalid := true } }
  if exception = .unalignedAccess then
    let c := c.setUnalignedHint (c.uop i).rip true
    let r := c.annul inp.rc i false
    (.misspeculated, r.2.resetFetchUnit r.1)
  else if (exception = .pageFaultOnRead ∨ exception = .pageFaultOnWrite) ∧
      (c.uop i).op.cond = LdstAlign.hi.cond then
    (.completed, { c with ls := { c.ls with origvirt := Function.update c.ls.origvirt i g.addr } })
  else (.completed, c)

/-- The register that stands for the found store, as `rs` operand. -/
def rsOf : Option ℕ → PhysReg
  | none => PhysReg.null
  | some k => c.regs.physreg (c.ls.entry k).rob

def setRs (i : ℕ) (sfra : Option ℕ) : Core :=
  { c with regs := c.regs.setOperand i RS (c.rsOf sfra) }

/-- The found store is ready to forward. -/
def sfrReady : Option ℕ → Bool
  | none => true
  | some k => (c.ls.entry k).addrvalid && (c.ls.entry k).datavalid

/-! ### Stores -/

/-- The search of `issuestore` among the older entries: the same chunk, or an unknown
address. Stores pass load fences, and completed fences match nothing. -/
def storeMatch (chunk : Chunk) (e : LsqEntry) : Bool :=
  e.store &&
    (if e.addrvalid then !(e.lfence || e.sfence) && e.physaddr == chunk
     else !(e.lfence && !e.sfence))

def findStoreForStore (j : ℕ) (chunk : Chunk) : Option ℕ :=
  (c.ls.ring.backwardBefore LSQ_SIZE j).find? fun k => storeMatch chunk (c.ls.entry k)

/-- The first younger load that already issued for the same chunk. -/
def findAliasedLoad (j : ℕ) (chunk : Chunk) : Option ℕ :=
  (c.ls.ring.forwardAfter LSQ_SIZE j).find? fun k =>
    let e := c.ls.entry k
    !e.store && e.addrvalid && c.sched.issued e.rob && e.physaddr == chunk

/-- The store records the aliasing, and the aliased load gets it as its `rs` operand. -/
def aliasMark (i j k : ℕ) : Core :=
  let c := { c with ls := c.ls.setEntry j { c.ls.entry j with
    invalid := true
    data := exceptionWord .loadStoreAliasing .none
    datavalid := true } }
  { c with regs := c.regs.setOperand (c.ls.entry k).rob RS (c.regs.physreg i) }

/-- The store goes back with everything after it. -/
def aliasRedispatch (i j k : ℕ) : Core := (c.aliasMark i j k).redispatchDependents i

/-- The end of `issuestore`: the value is merged over the forwarded one. -/
def completeStore (i j : ℕ) (sfra : Option ℕ) (origaddr : ℕ) (rcdata : W64) : Core :=
  let op := (c.uop i).op
  let (bytemask, rcdata) := storeBytes op.cond op.size origaddr rcdata
  let entry := { c.ls.entry j with
    invalid := false
    data := match sfra with
      | none => rcdata
      | some k => ByteMask.mux bytemask (c.ls.entry k).data rcdata
    bytemask := match sfra with
      | none => bytemask
      | some k => (c.ls.entry k).bytemask ||| bytemask
    datavalid := true
    own := rcdata
    ownMask := bytemask }
  { c with ls := { c.ls.setEntry j entry with
      secondPhase := Function.update c.ls.secondPhase i true } }

/-- `issuestore`. -/
def issuestore (inp : CycleInput) (i j : ℕ) (cl : Cluster) (ra rb rcdata : W64) (rcready : Bool) :
    IssueResult × Core :=
  let g := c.addrgen (inp.pfec i) (c.uop i) (c.ls.entry j) (c.ls.origvirt i) ra rb
  let c := c.afterAddrgen i j g
  match g.result with
  | .error (exception, pfec) => c.handleCommonLoadStoreExceptions inp i j g exception pfec
  | .ok physaddr =>
    let chunk := if g.annul then .invalid else physaddr.chunk
    let c := { c with ls := c.ls.setEntry j { c.ls.entry j with
      physaddr := chunk, smcMfn := g.addr / kPageSize } }
    let sfra := c.findStoreForStore j chunk
    let c := c.setRs i sfra
    if !(c.sfrReady sfra && rcready) then (.needsReplay, c.replaySecondPhase i cl)
    else
      match c.findAliasedLoad j chunk with
      | some k =>
        -- the load may have taken its data from this very store in the same cycle
        if chunk ∈ c.ls.loadsInThisCycle then (.needsReplay, c.replay i cl)
        else (.misspeculated, c.aliasRedispatch i j k)
      | none => (.completed, c.completeStore i j sfra g.origaddr rcdata)

/-! ### Loads -/

/-- The search of `issueload` among the older entries: the same chunk, an open load
fence, or an unknown address when the load is predicted to alias. -/
def loadMatch (chunk : Chunk) (lsap : Bool) (e : LsqEntry) : Bool :=
  e.store &&
    (if e.addrvalid then !(e.lfence || e.sfence) && e.physaddr == chunk
     else e.lfence || (!e.sfence && lsap))

def findStoreForLoad (j : ℕ) (chunk : Chunk) (lsap : Bool) : Option ℕ :=
  (c.ls.ring.backwardBefore LSQ_SIZE j).find? fun k => loadMatch chunk lsap (c.ls.entry k)

/-- The chunk a load sees: memory under the bytes of the forwarding store. -/
def forwardChunk (sfra : Option ℕ) (mem : W64) : W64 :=
  match sfra with
  | none => mem
  | some k => ByteMask.mux (c.ls.entry k).bytemask mem (c.ls.entry k).data

/-- `probecache`: a hit delivers in `LOADLAT` cycles, a miss waits for the cache. -/
def probecache (inp : CycleInput) (i j : ℕ) : Core :=
  if inp.l1hit i then
    { c with
      sched := { c.sched with cyclesLeft := Function.update c.sched.cyclesLeft i LOADLAT }
      ls := { c.ls.setEntry j { c.ls.entry j with datavalid := true } with
        secondPhase := Function.update c.ls.secondPhase i true
        lfrq := Function.update c.ls.lfrq i false } }
  else
    { c with
      sched := { c.sched.changestate i .cacheMiss with
        cyclesLeft := Function.update c.sched.cyclesLeft i 0 }
      ls := { c.ls with lfrq := Function.update c.ls.lfrq i true } }

/-- The part of `issueload` after the load is known to go ahead. -/
def completeLoad (inp : CycleInput) (i j : ℕ) (sfra : Option ℕ) (g : AddrGen) (mem rb : W64) :
    IssueResult × Core :=
  let op := (c.uop i).op
  let e := { c.ls.entry j with addrvalid := true, low := rb }
  if op.cond = LdstAlign.hi.cond ∧ g.annul then
    -- nothing of the high half is used
    let data := extractBytes rb 0 (lowbits g.origaddr 3) op.size (op.opcode == .opLdx)
    let e := { e with data := data, invalid := false, datavalid := true }
    (.completed, { c with ls := c.ls.setEntry j e })
  else
    let data := loadResult op g.addr g.origaddr rb (c.forwardChunk sfra mem)
    let e := { e with data := data, invalid := false, bytemask := 0xff }
    let c := { c with ls := { c.ls.setEntry j e with
      loadsInThisCycle := c.ls.loadsInThisCycle ++ [e.physaddr] } }
    if op.internal then
      (.completed, { c with
        sched := { c.sched with cyclesLeft := Function.update c.sched.cyclesLeft i LOADLAT }
        ls := { c.ls.setEntry j { e with datavalid := true } with
          secondPhase := Function.update c.ls.secondPhase i true
          lfrq := Function.update c.ls.lfrq i false } })
    else (.completed, c.probecache inp i j)

/-- `issueload`. The memory is read at once; what arrives later is only its validity. -/
def issueload (inp : CycleInput) (i j : ℕ) (cl : Cluster) (ra rb : W64) : IssueResult × Core :=
  let g := c.addrgen (inp.pfec i) (c.uop i) (c.ls.entry j) (c.ls.origvirt i) ra rb
  let c := c.afterAddrgen i j g
  match g.result with
  | .error (exception, pfec) => c.handleCommonLoadStoreExceptions inp i j g exception pfec
  | .ok physaddr =>
    let chunk := if g.annul then .invalid else physaddr.chunk
    let c := { c with ls := c.ls.setEntry j { c.ls.entry j with physaddr := chunk } }
    let mem : W64 := if g.annul then 0 else c.loadphys physaddr
    let sfra := c.findStoreForLoad j chunk (inp.lsap i)
    let c := c.setRs i sfra
    if !c.sfrReady sfra then (.needsReplay, c.replaySecondPhase i cl)
    else if inp.lfrqFull i then (.needsReplay, c.replaySecondPhase i cl)
    else c.completeLoad inp i j sfra g mem rb

/-! ### Fences and wakeups -/

/-- `issuefence`: the fence waits for the head of the queue. -/
def issuefence (i j : ℕ) : IssueResult × Core :=
  let e := { c.ls.entry j with
    data := 0
    invalid := false
    bytemask := 0xff
    datavalid := false
    addrvalid := false
    physaddr := .virt (2 ^ 45 - 1) }
  (.completed, { c with ls := c.ls.setEntry j e }.changestate i .memoryFence)

/-- The entry's queue entry with `f` applied, if it has one. -/
def modifyLsq (i : ℕ) (f : LsqEntry → LsqEntry) : LoadStore :=
  match c.ls.lsq i with
  | none => c.ls
  | some j => c.ls.setEntry j (f (c.ls.entry j))

/-- A result is in: `loadwakeup` and `fencewakeup` after their own fields. -/
def wakeup (i : ℕ) : Core :=
  { c with
    sched := { (c.sched.changestate i (.completed ((c.sched.cluster i).getD 0))) with
      cyclesLeft := Function.update c.sched.cyclesLeft i 0
      forwardCycle := Function.update c.sched.forwardCycle i 0 }
    regs := c.regs.changestate (c.regs.physreg i) .bypass
    ls := { c.ls with lfrq := Function.update c.ls.lfrq i false } }

/-- `loadwakeup`. -/
def loadwakeup (i : ℕ) : Core :=
  let c := { c with
    vals := c.vals.clearWait (c.regs.physreg i)
    ls := c.modifyLsq i fun e => { e with datavalid := true } }
  c.wakeup i

/-- `dcache_wakeup`, for an entry the cache has a request of. -/
def dcacheWakeup (i : ℕ) : Core := if c.ls.lfrq i then c.loadwakeup i else c

/-- `fencewakeup`. -/
def fencewakeup (i : ℕ) : Core :=
  let p := c.regs.physreg i
  let c := { c with
    vals := (c.vals.clearWait p).set p 0 ((c.vals.clearWait p).flags p)
    ls := c.modifyLsq i fun e => { e with datavalid := true, addrvalid := true } }
  let c := { c with ls := { c.ls with secondPhase := Function.update c.ls.secondPhase i true } }
  c.wakeup i

end Core
end Ooo
end X86Sim
