import X86Sim.Ooo.Cycle
import X86Sim.Seq.Execute

/-!
# Exceptions thrown by assists (`decode-core.cpp`, `decode-complex.cpp`, `decode-x87.cpp`)

The table of assists, and for each the exception it throws, if any. An assist is entered
with its own number in `commitarf[REG_rip]`, so the `rip` a guest sees is the one it puts
there before it throws.
-/

namespace X86Sim

/-! ### The table -/

/-- The microcode assists, in the order of their numbers. -/
inductive AssistFn
  | invalidOpcode | execPageFault | gpFault
  | x87Fist | x87Fldcw | x87Fprem | x87Fyl2xp1 | x87Fsqrt | x87Fsincos | x87Frndint | x87Fscale
  | x87Fsin | x87Fcos | x87Fxam | x87F2xm1 | x87Fyl2x | x87Fptan | x87Fpatan | x87Fxtract
  | x87Fprem1 | x87Fld80 | x87Fstp80 | x87Fsave | x87Frstor | x87Finit | x87Fclex
  | ldmxcsr | fxsave | fxrstor
  | int | syscall | hypercall | ptlcall | sysenter | iret16 | iret32 | iret64
  | cpuid | rdtsc | cld | std | popf | writeSegreg | wrmsr | rdmsr
  | writeCr0 | writeCr2 | writeCr3 | writeCr4 | writeDebugReg
  | ioportIn | ioportOut
  deriving DecidableEq

/-- `assistid_to_func`. -/
def assistidToFunc : List AssistFn :=
  [.invalidOpcode, .execPageFault, .gpFault,
    .x87Fist, .x87Fldcw, .x87Fprem, .x87Fyl2xp1, .x87Fsqrt, .x87Fsincos, .x87Frndint, .x87Fscale,
    .x87Fsin, .x87Fcos, .x87Fxam, .x87F2xm1, .x87Fyl2x, .x87Fptan, .x87Fpatan, .x87Fxtract,
    .x87Fprem1, .x87Fld80, .x87Fstp80, .x87Fsave, .x87Frstor, .x87Finit, .x87Fclex,
    .ldmxcsr, .fxsave, .fxrstor,
    .int, .syscall, .hypercall, .ptlcall, .sysenter, .iret16, .iret32, .iret64,
    .cpuid, .rdtsc, .cld, .std, .popf, .writeSegreg, .wrmsr, .rdmsr,
    .writeCr0, .writeCr2, .writeCr3, .writeCr4, .writeDebugReg,
    .ioportIn, .ioportOut]

/-- `assist_index`, as the word a barrier jumps to. -/
def AssistFn.index (a : AssistFn) : W64 := BitVec.ofNat 64 (assistidToFunc.idxOf a)

/-- The argument registers the decoder loads before it calls an assist. -/
def AssistFn.args : AssistFn → List Reg
  | .execPageFault | .x87Fist | .writeSegreg | .ioportIn | .ioportOut => [Reg.ar1, Reg.ar2]
  | .x87Fld80 | .x87Fstp80 | .ldmxcsr | .fxsave | .fxrstor | .int | .popf => [Reg.ar1]
  | _ => []

/-! ### What they throw -/

def EXCEPTION_x86_invalid_opcode : ℕ := 6
def EXCEPTION_x86_gp_fault : ℕ := 13
def EXCEPTION_x86_page_fault : ℕ := 14

/-- The error code and the address of a `copy_to_user` that comes short. -/
def AddressSpace.toUserFault (m : AddressSpace) (target bytes : ℕ) : Option (PageFaultErrorCode × ℕ) :=
  if !m.check target ⟨false, true, false⟩ then
    if 0 < bytes then some (⟨m.check target ⟨true, false, false⟩, true, false, false⟩, target) else none
  else
    let nlo := min (kPageSize - target % kPageSize) bytes
    let next := (target + nlo) % 2 ^ 64
    if nlo = bytes then none
    else if !m.check next ⟨false, true, false⟩ then
      some (⟨m.check next ⟨true, false, false⟩, true, true, false⟩, next)
    else none

/-- The error code and the address of a `copy_from_user` that comes short. -/
def AddressSpace.fromUserFault (m : AddressSpace) (addr bytes : ℕ) : Option (PageFaultErrorCode × ℕ) :=
  let w := m.copyFromUser addr bytes false
  if w.insnbytes.length < bytes then some (w.pfec, w.faultaddr) else none

/-- An exception at the instruction that called the assist. -/
def Context.throwAtSelf (ctx : Context) (vector errorcode virtaddr : ℕ) : X86Exception :=
  (ctx.setRip (ctx.commitarf Reg.selfrip)).propagate vector errorcode virtaddr

/-- The page fault of a copy that came short. -/
def Context.throwShort (ctx : Context) (fault : Option (PageFaultErrorCode × ℕ)) : Option X86Exception :=
  fault.map fun f => ctx.throwAtSelf EXCEPTION_x86_page_fault f.1.toNat f.2

/-- `assist_int`: all but `int 0x80` throw, from where the barrier left `rip`. -/
def assistInt (ctx : Context) : Option X86Exception :=
  let intid := (ctx.commitarf Reg.ar1).toNat % 2 ^ 8
  if intid = 0x80 then none
  else if intid = 1 ∨ intid = 3 then some (ctx.propagate intid 0 0)
  else some (ctx.propagate EXCEPTION_x86_gp_fault 0 0)

/-- `assist_exec_page_fault`: nothing, if the page has become executable. -/
def assistExecPageFault (ctx : Context) (m : AddressSpace) : Option X86Exception :=
  let faultaddr := (ctx.commitarf Reg.ar1).toNat
  if m.check faultaddr ⟨false, false, true⟩ then none
  else some (ctx.throwAtSelf EXCEPTION_x86_page_fault ((ctx.commitarf Reg.ar2).toNat % 2 ^ 8) faultaddr)

/-- `assist_gp_fault`. -/
def assistGpFault (ctx : Context) : Option X86Exception :=
  some (ctx.throwAtSelf EXCEPTION_x86_gp_fault (ctx.commitarf Reg.ar1).toNat 0)

/-- `assist_write_segreg`: `write_segreg` always fails. -/
def assistWriteSegreg (ctx : Context) : Option X86Exception :=
  some (ctx.throwAtSelf EXCEPTION_x86_gp_fault ((ctx.commitarf Reg.ar1).toNat % 2 ^ 16) 0)

/-- The address of `fxsave` and `fxrstor`, and the sizes of what assists copy. -/
def fxTarget (ctx : Context) : ℕ := (ctx.commitarf Reg.ar1 &&& ctx.virtAddrMask).toNat
def sizeofFxsave : ℕ := 512
def sizeofX87Reg : ℕ := 10

/-- The exception an assist throws. -/
def AssistFn.throws (a : AssistFn) (ctx : Context) (m : AddressSpace) : Option X86Exception :=
  let ar1 := (ctx.commitarf Reg.ar1).toNat
  match a with
  | .invalidOpcode | .iret16 | .iret32 | .iret64 | .x87Fsave | .x87Frstor =>
    some (ctx.throwAtSelf EXCEPTION_x86_invalid_opcode 0 0)
  | .wrmsr | .rdmsr | .writeCr0 | .writeCr2 | .writeCr3 | .writeCr4 | .writeDebugReg | .ioportIn
  | .ioportOut => some (ctx.throwAtSelf EXCEPTION_x86_gp_fault 0 0)
  | .execPageFault => assistExecPageFault ctx m
  | .gpFault => assistGpFault ctx
  | .writeSegreg => assistWriteSegreg ctx
  | .int => assistInt ctx
  | .x87Fist => ctx.throwShort (m.toUserFault ar1 ((ctx.commitarf Reg.ar2).toNat / 2))
  | .x87Fstp80 => ctx.throwShort (m.toUserFault ar1 sizeofX87Reg)
  | .x87Fld80 => ctx.throwShort (m.fromUserFault ar1 sizeofX87Reg)
  | .fxsave => ctx.throwShort (m.toUserFault (fxTarget ctx) sizeofFxsave)
  | .fxrstor => ctx.throwShort (m.fromUserFault (fxTarget ctx) sizeofFxsave)
  | _ => none

/-- The assists throw as the table says. -/
def Assist.ThrowsByTable (assist : Assist) : Prop :=
  ∀ (a : AssistFn) ctx m bbcache, (assist a.index ctx m bbcache).threw = a.throws ctx m

/-! ### What a report may depend on -/

/-- The same context, but for what earlier exceptions left in it. -/
structure Context.Alike (ctx ctx' : Context) : Prop where
  commitarf : ctx'.commitarf = ctx.commitarf
  noSse : ctx'.noSse = ctx.noSse
  noX87 : ctx'.noX87 = ctx.noX87
  virtAddrMask : ctx'.virtAddrMask = ctx.virtAddrMask

/-- The same context, but for what earlier exceptions left in it, and for the argument
registers the assist is not given. -/
structure AssistFn.Alike (a : AssistFn) (ctx ctx' : Context) : Prop where
  regs : ∀ r, (r = Reg.ar1 ∨ r = Reg.ar2 → r ∈ a.args) → ctx'.commitarf r = ctx.commitarf r
  virtAddrMask : ctx'.virtAddrMask = ctx.virtAddrMask

theorem AssistFn.Alike.refl (a : AssistFn) (ctx : Context) : a.Alike ctx ctx :=
  ⟨fun _ _ => rfl, rfl⟩

/-- Both cores report what the assist throws, whatever came before, from an address of the
guest's code. -/
def AssistFn.Reports (a : AssistFn) (ctx : Context) (m : AddressSpace) : Prop :=
  ∀ (assist : Assist), assist.ThrowsByTable → ∀ (c : Seq.SeqCore) (d : Ooo.Core),
    a.Alike ctx c.coreToExternalState.ctx → c.space = m → a.Alike ctx d.ctx → d.mach.space = m →
    (c.handleBarrier assist).1 = a.throws ctx m ∧ (d.handleBarrier assist).1 = a.throws ctx m ∧
      ∀ e ∈ a.throws ctx m, e.rip = ctx.commitarf Reg.selfrip ∨ e.rip = ctx.commitarf Reg.nextrip

/-- The assist sets `rip` and is given all it reads: it is not the one of `hlt` and the
like, nor `int n` (but for `int 0x80`, which throws nothing), unless the number of the
assist happens to be the address of the instruction or the one after it. -/
def AssistFn.ReportsFine (a : AssistFn) (ctx : Context) : Prop :=
  a ≠ .gpFault ∧
    (a = .int → (ctx.commitarf Reg.ar1).toNat % 2 ^ 8 = 0x80 ∨
      a.index = ctx.commitarf Reg.selfrip ∨ a.index = ctx.commitarf Reg.nextrip)

end X86Sim
