import X86Sim.Ooo.Scheduler

/-!
# Physical registers and rename tables

`PhysicalRegister`, `PhysicalRegisterFile` and `RegisterRenameTable`: allocation,
reference counts, and what rename, commit, annulment and the pipeline flush do to
the tables.
-/

namespace X86Sim.Ooo
namespace Regs

variable (r : Regs)

/-- The state of a register; `none` is `PHYSREG_NONE`. -/
def state (p : PhysReg) : Option PhysState := (r.lists p.rfid).current p.idx

def changestate (p : PhysReg) (st : PhysState) : Regs :=
  { r with lists := Function.update r.lists p.rfid ((r.lists p.rfid).changestate p.idx st) }

def addref (p : PhysReg) : Regs := { r with refcount := Function.update r.refcount p (r.refcount p + 1) }
def unref (p : PhysReg) : Regs := { r with refcount := Function.update r.refcount p (r.refcount p - 1) }

def referenced (p : PhysReg) : Bool := r.refcount p > 0

/-- `free`. -/
def free (p : PhysReg) : Regs :=
  let r := r.changestate p .free
  { r with
    rob := Function.update r.rob p none
    refcount := Function.update r.refcount p 0 }

/-- The register `alloc` takes from file `f`, if one is free. -/
def peekFree (f : FileId) : Option PhysReg := ((r.lists f).members .free).head?.map fun i => ⟨f, i⟩

/-- `remaining`. -/
def remaining (f : FileId) : Bool := !((r.lists f).members .free).isEmpty

/-- `alloc`, of a register chosen already. -/
def alloc (p : PhysReg) : Regs := r.changestate p .waiting

/-- `unspecref`, the new mapping, `addspecref`. -/
def setSpec (a : Reg) (p : PhysReg) : Regs :=
  let r := r.unref (r.specrrt a)
  { r with specrrt := Function.update r.specrrt a p }.addref p

/-- `uncommitref`, the new mapping, `addcommitref`. -/
def setCommit (a : Reg) (p : PhysReg) : Regs :=
  let r := r.unref (r.commitrrt a)
  { r with commitrrt := Function.update r.commitrrt a p }.addref p

/-- `unref`, the new operand, `addref`. -/
def setOperand (i : ℕ) (o : Operand) (p : PhysReg) : Regs :=
  let r := r.unref (r.operands i o)
  { r with operands := Function.update r.operands i (Function.update (r.operands i) o p) }.addref p

/-- The flag registers `setflags` names, in the order they are mapped. -/
def flagRegs (op : TransOp) : List Reg :=
  if op.nouserflags then []
  else
    (if op.setflags.zf then [Reg.zf] else []) ++ (if op.setflags.cf then [Reg.cf] else []) ++
      (if op.setflags.of then [Reg.of] else [])

/-- The registers a uop maps to its result: its destination, then the flags. -/
def destRegs (op : TransOp) : List Reg :=
  (if archdestCanCommit op.rd then [op.rd] else []) ++ flagRegs op

/-- `pseudocommit`, and the mapping of destinations in `rename`. -/
def mapSpec (op : TransOp) (p : PhysReg) : Regs := (destRegs op).foldl (fun r a => r.setSpec a p) r

/-- What `rename` does for the entry `i` and the register `p`. -/
def renameEntry (i : ℕ) (op : TransOp) (p : PhysReg) : Regs :=
  let ops : Operand → PhysReg := fun o =>
    if o = RA then r.specrrt op.ra else if o = RB then r.specrrt op.rb
    else if o = RC then r.specrrt op.rc else PhysReg.null
  let r := { r with operands := Function.update r.operands i ops }
  let r := (((r.addref (ops RA)).addref (ops RB)).addref (ops RC)).addref (ops RS)
  let r := r.alloc p
  let r := { r with
    rob := Function.update r.rob p (some i)
    physreg := Function.update r.physreg i p }
  r.mapSpec op p

/-- The references the operands of entry `i` hold are dropped. -/
def unrefOperands (i : ℕ) : Regs :=
  (((r.unref (r.operands i RA)).unref (r.operands i RB)).unref (r.operands i RC)).unref
    (r.operands i RS)

/-- `annul`, pass 2, first half: the speculative table becomes the committed one. -/
def restoreSpec : Regs :=
  let regs := List.finRange 80
  let r := regs.foldl (fun r a => r.unref (r.specrrt a)) r
  let r := { r with specrrt := r.commitrrt }
  regs.foldl (fun r a => r.addref (r.specrrt a)) r

/-- `annul`, pass 3, for one entry. -/
def annulEntry (i : ℕ) : Regs := (r.unrefOperands i).free (r.physreg i)

/-- `ThreadContext::commit`: free the pending registers nothing refers to. -/
def recycleFile (f : FileId) : Regs :=
  ((r.lists f).members .pendingfree).foldl
    (fun r i => if r.referenced ⟨f, i⟩ then r else r.free ⟨f, i⟩) r

def recycle : Regs := (List.finRange 4).foldl (fun r f => r.recycleFile f) r

/-- The commit of entry `i`: the committed mappings, then the old register and the operands. -/
def commitEntry (i : ℕ) (op : TransOp) : Regs :=
  let p := r.physreg i
  let old := r.commitrrt op.rd
  let r :=
    if archdestCanCommit op.rd then
      let r := r.setCommit op.rd p
      { r with rob := Function.update r.rob p none }
    else r
  let r :=
    if isload op.opcode || isstore op.opcode then r
    else (flagRegs op).foldl (fun r a => r.setCommit a p) r
  let r :=
    -- the register replaced is free at once if nothing in flight reads it
    if old.nonnull then
      if r.referenced old then r.changestate old .pendingfree else r.free old
    else r
  (r.changestate p .arch).unrefOperands i

/-! ### The flush -/

/-- Every register in state `st` of every file is reset. -/
def freeAll (st : PhysState) : Regs :=
  (List.finRange 4).foldl
    (fun r f => ((r.lists f).members st).foldl (fun r i => r.free ⟨f, i⟩) r) r

/-- `flush_pipeline`, the registers: those of the entries in `order`, the committed
ones, the pending ones. -/
def flush (order : List ℕ) : Regs :=
  let r := order.foldl (fun r i => r.free (r.physreg i)) r
  (r.freeAll .arch).freeAll .pendingfree

/-- The file an architectural register starts out in. -/
def archFile (a : Reg) : FileId :=
  if (Reg.xmml0 ≤ a ∧ a ≤ Reg.xmmh15) ∨ (Reg.fptos ≤ a ∧ a ≤ Reg.ctx) then fileFp
  else if a = Reg.rip then fileBr else fileInt

/-- The zero register of each file, allocated and committed. -/
def allocZeros : Regs :=
  (List.finRange 4).foldl
    (fun r f => ((r.alloc ⟨f, 0⟩).addref ⟨f, 0⟩).changestate ⟨f, 0⟩ .arch) r

/-- One register for each architectural register but zero. -/
def allocArch : Regs :=
  ((List.finRange 80).filter Reg.isArch).foldl
    (fun r a =>
      if a = Reg.zero then { r with commitrrt := Function.update r.commitrrt a PhysReg.null }
      else
        match r.peekFree (archFile a) with
        | none => r
        | some p => { r.alloc p with commitrrt := Function.update r.commitrrt a p }) r

/-- The remaining table entries: null, and the flags on the flags register. -/
def mapTemps : Regs :=
  { r with
    commitrrt := fun a =>
      if a = Reg.zf ∨ a = Reg.cf ∨ a = Reg.of then r.commitrrt Reg.flags
      else if a.isArch then r.commitrrt a else PhysReg.null }

/-- Both tables take hold of the committed mapping. -/
def copyCommit : Regs :=
  (List.finRange 80).foldl
    (fun r a =>
      let p := r.commitrrt a
      let r := r.changestate p .arch
      let r := { r with specrrt := Function.update r.specrrt a p }
      (r.addref p).addref p) r

/-- `external_to_core_state`, without the values. -/
def externalToCoreState : Regs := r.allocZeros.allocArch.mapTemps.copyCommit

end Regs

/-- `phys_reg_files_writable_by_uop`: one file for each uop. -/
def physRegFileWritableByUop (op : TransOp) : FileId :=
  if isclass op.opcode opclassStore then fileSt
  else if isclass op.opcode opclassBranch then fileBr
  else if isclass op.opcode (opclassLoad ||| opclassPrefetch) then
    if op.datatypeInt then fileInt else fileFp
  else if isclass op.opcode opclassFp = true ∨ (Reg.xmml0 ≤ op.rd ∧ op.rd ≤ Reg.xmmh15) ∨
      (Reg.fptos ≤ op.rd ∧ op.rd ≤ Reg.ctx) then fileFp
  else fileInt

namespace Values

variable (v : Values)

def set (p : PhysReg) (data : W64) (flags : W16) : Values :=
  { v with data := Function.update v.data p data, flags := Function.update v.flags p flags }

/-- `ready` and `valid`. -/
def ready (p : PhysReg) : Bool := v.flags p &&& FLAG_WAIT == 0
def valid (p : PhysReg) : Bool := v.flags p &&& FLAG_INV == 0

/-- `physreg->flags &= ~FLAG_WAIT`. -/
def clearWait (p : PhysReg) : Values :=
  { v with flags := Function.update v.flags p (v.flags p &&& ~~~FLAG_WAIT) }

/-- The values `external_to_core_state` loads: zero registers, then the context's. -/
def load (r : Regs) (arf : Reg → W64) : Values :=
  let v := (List.finRange 4).foldl (fun v f => v.set ⟨f, 0⟩ 0 0) v
  let v := ((List.finRange 80).filter Reg.isArch).foldl
    (fun v a => v.set (r.commitrrt a) (arf a) 0) v
  let p := r.commitrrt Reg.flags
  { v with flags := Function.update v.flags p ((v.data p).setWidth 16) }

end Values
end X86Sim.Ooo
