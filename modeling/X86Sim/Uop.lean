import Mathlib.Data.Nat.Bitwise
import Mathlib.Data.BitVec
import X86Sim.Lib.FinSizes

/-!
# Micro-operations

The uop vocabulary both cores share (`ptlhwdef.h`, `ptlhwdef.cpp`): opcodes with
their classes, translation registers, exceptions, and the `TransOp` record the
decoder produces. Loads and stores that cross an eight-byte boundary are split
into three uops by `splitUnaligned`.
-/

namespace X86Sim

/-- A 64-bit data word. -/
abbrev W64 := BitVec 64

/-- A 16-bit flags word. -/
abbrev W16 := BitVec 16

/-- Uop opcodes, in the order of the source's enumeration. -/
inductive Opcode
  | opNop | opMov | opAnd | opAndnot | opXor | opOr | opNand | opOrnot | opEqv | opNor | opMaskb
  | opAdd | opSub | opAdda | opSuba | opAddm | opSubm | opAndcc | opOrcc | opXorcc | opOrnotcc
  | opMovccr | opMovrcc | opCollcc | opShls | opShrs | opBswap | opSars | opBt | opBts | opBtr
  | opBtc | opSet | opSetSub | opSetAnd | opSel | opSelCmp | opBr | opBrSub | opBrAnd | opJmp
  | opBru | opJmpp | opBrp | opChk | opChkSub | opChkAnd | opLd | opLdx | opLdPre | opLdA16
  | opSt | opStA16 | opMf | opShl | opShr | opMask | opSar | opRotl | opRotr | opRotcl | opRotcr
  | opMull | opMulh | opMulhu | opMulhl | opCtz | opClz | opCtpop | opPermb | opDiv | opRem
  | opDivs | opRems | opMin | opMax | opMinS | opMaxS | opFadd | opFsub | opFmul | opFmadd
  | opFmsub | opFmsubr | opFdiv | opFsqrt | opFrcp | opFrsqrt | opFmin | opFmax | opFcmp
  | opFcmpcc | opFcvtI2sIns | opFcvtI2sP | opFcvtI2dLo | opFcvtI2dHi | opFcvtQ2sIns | opFcvtQ2d
  | opFcvtS2i | opFcvtS2q | opFcvtS2iP | opFcvtD2i | opFcvtD2q | opFcvtD2iP | opFcvtD2sIns
  | opFcvtD2sP | opFcvtS2dLo | opFcvtS2dHi | opVadd | opVsub | opVaddUs | opVsubUs | opVaddSs
  | opVsubSs | opVshl | opVshr | opVbt | opVsar | opVavg | opVcmp | opVmin | opVmax | opVminS
  | opVmaxS | opVmull | opVmulh | opVmulhu | opVmaddp | opVsad | opVpackUs | opVpackSs
  deriving DecidableEq

/-! ### Opcode classes -/

def opclassLogic : ℕ := 1 <<< 0
def opclassAddsub : ℕ := 1 <<< 1
def opclassAddshift : ℕ := 1 <<< 3
def opclassSelect : ℕ := 1 <<< 4
def opclassCondBranch : ℕ := 1 <<< 6
def opclassIndirBranch : ℕ := 1 <<< 7
def opclassUncondBranch : ℕ := 1 <<< 8
def opclassAssist : ℕ := 1 <<< 9
def opclassBarrier : ℕ := opclassAssist
def opclassBranch : ℕ :=
  opclassCondBranch ||| opclassIndirBranch ||| opclassUncondBranch ||| opclassAssist
def opclassLoad : ℕ := 1 <<< 11
def opclassStore : ℕ := 1 <<< 12
def opclassPrefetch : ℕ := 1 <<< 13
/-- Fences carry the store bit, so `isstore` holds of `mf`. -/
def opclassFence : ℕ := 1 <<< 10 ||| opclassStore
def opclassSimpleShift : ℕ := 1 <<< 14
def opclassShiftrot : ℕ := 1 <<< 15
def opclassMultiply : ℕ := 1 <<< 16
def opclassBitscan : ℕ := 1 <<< 17
def opclassFlags : ℕ := 1 <<< 18
def opclassCheck : ℕ := 1 <<< 19
def opclassFpAlu : ℕ := 1 <<< 20
def opclassFpDivsqrt : ℕ := 1 <<< 21
def opclassFpCompare : ℕ := 1 <<< 22
def opclassFpConverti2f : ℕ := 1 <<< 24
def opclassFpConvertf2i : ℕ := 1 <<< 25
def opclassFpConvertfp : ℕ := 1 <<< 26
/-- `OPCLASS_FP` is written with a comma between its last two members, so the
expression is the last member alone. -/
def opclassFp : ℕ := opclassFpConvertfp
def opclassVecAlu : ℕ := 1 <<< 27

/-- The class column of the `opinfo` table. -/
def Opcode.opclass : Opcode → ℕ
  | .opNop | .opMov | .opAnd | .opAndnot | .opXor | .opOr | .opNand | .opOrnot | .opEqv | .opNor
    | .opBswap | .opBt | .opBts | .opBtr | .opBtc => opclassLogic
  | .opMaskb | .opShls | .opShrs | .opSars => opclassSimpleShift
  | .opAdd | .opSub | .opAddm | .opSubm | .opMin | .opMax | .opMinS | .opMaxS => opclassAddsub
  | .opAdda | .opSuba => opclassAddshift
  | .opAndcc | .opOrcc | .opXorcc | .opOrnotcc | .opMovccr | .opMovrcc | .opCollcc => opclassFlags
  | .opSet | .opSetSub | .opSetAnd | .opSel | .opSelCmp => opclassSelect
  | .opBr | .opBrSub | .opBrAnd => opclassCondBranch
  | .opJmp => opclassIndirBranch
  | .opBru => opclassUncondBranch
  | .opJmpp => opclassIndirBranch ||| opclassBarrier
  | .opBrp => opclassUncondBranch ||| opclassBarrier
  | .opChk | .opChkSub | .opChkAnd => opclassCheck
  | .opLd | .opLdx | .opLdA16 => opclassLoad
  | .opLdPre => opclassPrefetch
  | .opSt | .opStA16 => opclassStore
  | .opMf => opclassFence
  | .opShl | .opShr | .opMask | .opSar | .opRotl | .opRotr | .opRotcl | .opRotcr | .opPermb
    => opclassShiftrot
  | .opMull | .opMulh | .opMulhu | .opMulhl | .opDiv | .opRem | .opDivs | .opRems => opclassMultiply
  | .opCtz | .opClz | .opCtpop => opclassBitscan
  | .opFadd | .opFsub | .opFmul | .opFmadd | .opFmsub | .opFmsubr => opclassFpAlu
  | .opFdiv | .opFsqrt | .opFrcp | .opFrsqrt => opclassFpDivsqrt
  | .opFmin | .opFmax | .opFcmp | .opFcmpcc => opclassFpCompare
  | .opFcvtI2sIns | .opFcvtI2sP | .opFcvtI2dLo | .opFcvtI2dHi | .opFcvtQ2sIns | .opFcvtQ2d
    => opclassFpConverti2f
  | .opFcvtS2i | .opFcvtS2q | .opFcvtS2iP | .opFcvtD2i | .opFcvtD2q | .opFcvtD2iP
    => opclassFpConvertf2i
  | .opFcvtD2sIns | .opFcvtD2sP | .opFcvtS2dLo | .opFcvtS2dHi => opclassFpConvertfp
  | .opVadd | .opVsub | .opVaddUs | .opVsubUs | .opVaddSs | .opVsubSs | .opVshl | .opVshr
    | .opVbt | .opVsar | .opVavg | .opVcmp | .opVmin | .opVmax | .opVminS | .opVmaxS | .opVmull
    | .opVmulh | .opVmulhu | .opVmaddp | .opVsad | .opVpackUs | .opVpackSs => opclassVecAlu

/-- `isclass`. -/
def isclass (o : Opcode) (opclass : ℕ) : Bool := o.opclass &&& opclass != 0

def isload (o : Opcode) : Bool := isclass o opclassLoad
def isstore (o : Opcode) : Bool := isclass o opclassStore
def isbranch (o : Opcode) : Bool := isclass o opclassBranch
def isbarrier (o : Opcode) : Bool := isclass o opclassBarrier

/-! ### Functional units and clusters (`ooocore.h`) -/

def fuLdu0 : ℕ := 1 <<< 0
def fuStu0 : ℕ := 1 <<< 1
def fuLdu1 : ℕ := 1 <<< 2
def fuStu1 : ℕ := 1 <<< 3
def fuAlu0 : ℕ := 1 <<< 4
def fuFpu0 : ℕ := 1 <<< 5
def fuAlu1 : ℕ := 1 <<< 6
def fuFpu1 : ℕ := 1 <<< 7
def anyAlu : ℕ := fuAlu0 ||| fuAlu1
def anyLdu : ℕ := fuLdu0 ||| fuLdu1
def anyStu : ℕ := fuStu0 ||| fuStu1
def anyFpu : ℕ := fuFpu0 ||| fuFpu1
def anyInt : ℕ := anyAlu ||| anyStu ||| anyLdu

def LOADLAT : ℕ := 2

/-- The latency column of `fuinfo`. -/
def Opcode.latency : Opcode → ℕ
  | .opLd | .opLdx | .opLdA16 => LOADLAT
  | .opMull | .opMulh | .opMulhu | .opMulhl | .opPermb | .opFcmpcc | .opVmull | .opVmulh
    | .opVmulhu | .opVmaddp | .opVsad => 4
  | .opCtz | .opClz | .opCtpop => 3
  | .opDiv | .opRem | .opDivs | .opRems => 32
  | .opFadd | .opFsub | .opFmul | .opFmadd | .opFmsub | .opFmsubr | .opFdiv | .opFsqrt | .opFrcp
    | .opFrsqrt | .opFmin | .opFmax | .opFcmp | .opFcvtI2sIns | .opFcvtI2sP | .opFcvtI2dLo
    | .opFcvtI2dHi | .opFcvtQ2sIns | .opFcvtQ2d | .opFcvtS2i | .opFcvtS2q | .opFcvtS2iP
    | .opFcvtD2i | .opFcvtD2q | .opFcvtD2iP | .opFcvtD2sIns | .opFcvtD2sP | .opFcvtS2dLo
    | .opFcvtS2dHi => 6
  | .opVpackUs | .opVpackSs => 2
  | _ => 1

/-- The functional-unit column of `fuinfo`. -/
def Opcode.fu : Opcode → ℕ
  | .opNop | .opMov | .opAnd | .opAndnot | .opXor | .opOr | .opNand | .opOrnot | .opEqv | .opNor
    => anyInt ||| anyFpu
  | .opMaskb | .opAdd | .opSub | .opAdda | .opSuba | .opAddm | .opSubm | .opAndcc | .opOrcc
    | .opXorcc | .opOrnotcc | .opMovccr | .opMovrcc | .opCollcc | .opShls | .opShrs | .opBswap
    | .opSars | .opSet | .opSetSub | .opSetAnd | .opSel | .opSelCmp | .opBr | .opBrSub | .opBrAnd
    | .opJmp | .opBru | .opChk | .opChkSub | .opChkAnd => anyInt
  | .opBt | .opBts | .opBtr | .opBtc | .opShl | .opShr | .opMask | .opSar | .opRotl | .opRotr
    | .opRotcl | .opRotcr | .opMin | .opMax | .opMinS | .opMaxS => anyAlu
  | .opJmpp | .opBrp => anyAlu ||| anyLdu
  | .opLd | .opLdx | .opLdPre | .opLdA16 => anyLdu
  | .opSt | .opStA16 => anyStu
  | .opMf => fuStu0
  | .opMull | .opMulh | .opMulhu | .opMulhl | .opCtz | .opClz | .opCtpop | .opPermb | .opFadd
    | .opFsub | .opFmul | .opFmadd | .opFmsub | .opFmsubr | .opFdiv | .opFsqrt | .opFrcp
    | .opFrsqrt | .opFmin | .opFmax | .opFcmp | .opFcmpcc | .opFcvtI2sIns | .opFcvtI2sP
    | .opFcvtI2dLo | .opFcvtI2dHi | .opFcvtQ2sIns | .opFcvtQ2d | .opFcvtS2i | .opFcvtS2q
    | .opFcvtS2iP | .opFcvtD2i | .opFcvtD2q | .opFcvtD2iP | .opFcvtD2sIns | .opFcvtD2sP
    | .opFcvtS2dLo | .opFcvtS2dHi | .opVadd | .opVsub | .opVaddUs | .opVsubUs | .opVaddSs
    | .opVsubSs | .opVshl | .opVshr | .opVbt | .opVsar | .opVavg | .opVcmp | .opVmin | .opVmax
    | .opVminS | .opVmaxS | .opVmull | .opVmulh | .opVmulhu | .opVmaddp | .opVsad | .opVpackUs
    | .opVpackSs => anyFpu
  | .opDiv | .opRem | .opDivs | .opRems => fuAlu0

/-! ### Translation registers (`registers.def`) -/

/-- The translation registers: 64 architectural ones, then the renaming-only ones. -/
abbrev Reg := Fin 80

theorem sixteen_le_regs : 16 ≤ 80 := by decide

theorem four_le_regs : 4 ≤ 80 := by decide

def ARCHREG_COUNT : ℕ := 64

namespace Reg

def rax : Reg := 0
def rcx : Reg := 1
def rdx : Reg := 2
def rbx : Reg := 3
def rsp : Reg := 4
def xmml0 : Reg := 16
def xmmh15 : Reg := 47
def fptos : Reg := 48
def fpstack : Reg := 51
def ctx : Reg := 55
def rip : Reg := 56
def flags : Reg := 57
def selfrip : Reg := 59
def nextrip : Reg := 60
def ar1 : Reg := 61
def ar2 : Reg := 62
def zero : Reg := 63
def temp0 : Reg := 64
def temp4 : Reg := 68
def zf : Reg := 72
def cf : Reg := 73
def of : Reg := 74
def imm : Reg := 75
def mem : Reg := 76
def temp9 : Reg := 78

/-- The registers a `Context` holds. -/
def isArch (r : Reg) : Bool := r.val < ARCHREG_COUNT

end Reg

/-- `archdest_can_commit`: every register except `REG_zero`. -/
def archdestCanCommit (r : Reg) : Bool := r != Reg.zero

/-! ### Flags -/

def FLAG_CF : W16 := 0x001
def FLAG_INV : W16 := 0x002
def FLAG_WAIT : W16 := 0x008
def FLAG_OF : W16 := 0x800
def FLAG_ZAPS : W16 := 0x0d4

/-- The three groups of flags a uop may update. -/
structure SetFlags where
  zf : Bool
  cf : Bool
  of : Bool
  deriving DecidableEq

def SetFlags.none : SetFlags := ⟨false, false, false⟩

/-- `setflags_to_x86_flags`. -/
def setflagsToX86Flags (s : SetFlags) : W16 :=
  (if s.of then FLAG_OF else 0) ||| (if s.cf then FLAG_CF else 0) |||
    (if s.zf then FLAG_ZAPS else 0)

/-! ### Internal exceptions -/

/-- The simulator's internal exceptions, in the order of the source's enumeration. -/
inductive InternalException
  | noException | propagate | branchMispredict | unalignedAccess | pageFaultOnRead
  | pageFaultOnWrite | pageFaultOnExec | storeStoreAliasing | loadStoreAliasing | checkFailed
  | skipBlock | lfrqFull | floatingPoint | floatingPointNotAvailable | divideOverflow
  | invalidAddr
  deriving DecidableEq

/-- The number the source gives an exception: what `LO32` of a result carries. -/
def InternalException.code : InternalException → ℕ
  | noException => 0 | propagate => 1 | branchMispredict => 2 | unalignedAccess => 3
  | pageFaultOnRead => 4 | pageFaultOnWrite => 5 | pageFaultOnExec => 6
  | storeStoreAliasing => 7 | loadStoreAliasing => 8 | checkFailed => 9 | skipBlock => 10
  | lfrqFull => 11 | floatingPoint => 12 | floatingPointNotAvailable => 13
  | divideOverflow => 14 | invalidAddr => 15

/-- `PageFaultErrorCode`: the bits the translator sets. -/
structure PageFaultErrorCode where
  p : Bool
  rw : Bool
  us : Bool
  nx : Bool
  deriving DecidableEq

def PageFaultErrorCode.none : PageFaultErrorCode := ⟨false, false, false, false⟩

/-- The error code as the word `HI32` of a result carries: bits 0, 1, 2 and 4. -/
def PageFaultErrorCode.toNat (e : PageFaultErrorCode) : ℕ :=
  e.p.toNat + 2 * e.rw.toNat + 4 * e.us.toNat + 16 * e.nx.toNat

/-- `exception | (pfec << 32)`: the result word of a load or store that faults. -/
def exceptionWord (e : InternalException) (pfec : PageFaultErrorCode) : W64 :=
  BitVec.ofNat 64 (e.code + pfec.toNat * 2 ^ 32)

theorem code_le (exception : InternalException) : exception.code ≤ 15 := by
  cases exception <;> decide

theorem pfec_le (pfec : PageFaultErrorCode) : pfec.toNat ≤ 23 := by
  obtain ⟨p, rw, us, nx⟩ := pfec
  cases p <;> cases rw <;> cases us <;> cases nx <;> decide

theorem exceptionWord_toNat (exception : InternalException) (pfec : PageFaultErrorCode) :
    (exceptionWord exception pfec).toNat = exception.code + pfec.toNat * 2 ^ 32 := by
  have hcode := code_le exception
  have hpfec := pfec_le pfec
  rw [exceptionWord, BitVec.toNat_ofNat, Nat.mod_eq_of_lt (by omega)]

theorem exceptionWord_code (exception : InternalException) (pfec : PageFaultErrorCode) :
    (exceptionWord exception pfec).toNat % 2 ^ 32 = exception.code := by
  have hcode := code_le exception
  rw [exceptionWord_toNat]
  omega

theorem exceptionWord_pfec (exception : InternalException) (pfec : PageFaultErrorCode) :
    (exceptionWord exception pfec).toNat / 2 ^ 32 = pfec.toNat := by
  have hcode := code_le exception
  rw [exceptionWord_toNat]
  omega

/-! ### Uops -/

/-- The alignment type a load or store carries in its `cond` field. -/
inductive LdstAlign
  | normal | lo | hi
  deriving DecidableEq

/-- `LDST_ALIGN_NORMAL`, `LDST_ALIGN_LO` and `LDST_ALIGN_HI` are 0, 1 and 2; no other value of
the field takes an alignment case. -/
def LdstAlign.cond : LdstAlign → ℕ
  | normal => 0 | lo => 1 | hi => 2

/-- `TransOp`. The fields only the printer and the statistics read are left out. -/
structure TransOp where
  opcode : Opcode
  size : ℕ
  extshift : ℕ
  unaligned : Bool
  cond : ℕ
  setflags : SetFlags
  nouserflags : Bool
  internal : Bool
  /-- Whether `datatype` is `DATATYPE_INT`. -/
  datatypeInt : Bool
  bytes : ℕ
  som : Bool
  eom : Bool
  isSse : Bool
  isX87 : Bool
  rd : Reg
  ra : Reg
  rb : Reg
  rc : Reg
  rbimm : W64
  rcimm : W64
  riptaken : W64
  ripseq : W64
  deriving DecidableEq

/-- `TransOp::init`: all other fields zero. -/
def TransOp.init (opcode : Opcode) (rd ra rb rc : Reg) (size : ℕ) (rbimm rcimm : W64)
    (setflags : SetFlags) : TransOp where
  opcode := opcode
  size := size
  extshift := 0
  unaligned := false
  cond := 0
  setflags := setflags
  nouserflags := false
  internal := false
  datatypeInt := true
  bytes := 0
  som := false
  eom := false
  isSse := false
  isX87 := false
  rd := rd
  ra := ra
  rb := rb
  rc := rc
  rbimm := rbimm
  rcimm := rcimm
  riptaken := 0
  ripseq := 0

/-- `UopInputs`, without the logger. -/
structure UopInputs where
  ra : W64
  rb : W64
  rc : W64
  raflags : W16
  rbflags : W16
  rcflags : W16
  riptaken : W64
  ripseq : W64

/-- `UopResult`: the data and the flags a uop implementation returns. -/
structure UopResult where
  rddata : W64
  rdflags : W16

/-- `split_unaligned`: the address generation, then the two halves. Of a store the high half
comes first, so that a fault on the high page precedes the low write. -/
def splitUnaligned (transop : TransOp) : List TransOp :=
  let ag := { transop with
    opcode := .opAdd, size := 3, cond := 0, eom := false, internal := false, unaligned := false,
    rd := Reg.temp9, rc := Reg.zero }
  let lo := { transop with
    ra := Reg.temp9, rb := Reg.imm, rbimm := 0, cond := LdstAlign.lo.cond, unaligned := false,
    som := false, eom := false }
  let hi := { transop with
    ra := Reg.temp9, rb := Reg.imm, rbimm := 0, cond := LdstAlign.hi.cond, unaligned := false,
    som := false }
  if isload transop.opcode then
    [ag, { lo with rd := Reg.temp4, size := 3 }, { hi with rb := Reg.temp4 }]
  else
    [ag, { lo with cond := LdstAlign.hi.cond }, { hi with cond := LdstAlign.lo.cond }]

/-! ### Class facts -/

/-- No uop is both a load and a store. -/
theorem not_isstore_of_isload {o : Opcode} (h : isload o = true) : isstore o = false := by
  cases o <;> first | rfl | exact absurd h (by decide)

/-- No load or store is a branch. -/
theorem not_isbranch_of_mem {o : Opcode} (h : (isload o || isstore o) = true) :
    isbranch o = false := by
  cases o <;> first | rfl | exact absurd h (by decide)

end X86Sim
