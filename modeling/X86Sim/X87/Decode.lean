import X86Sim.Exceptions.Assists
import X86Sim.Uops.Branches
import X86Sim.X87.Stack

/-!
# The x87 instructions (`decode_x87`)

An instruction is a form, found from the opcode and the ModRM byte, with uops and perhaps an
assist after them. Of each form it is said which effects it has on the stack.
-/

namespace X86Sim

open X86Sim.Seq X86Sim.Seq.SeqCore

/-- The opcode `0x600 | esc << 4 | reg` of an x87 instruction, and the rest of its ModRM byte. -/
structure X87Enc where
  esc : Fin 8
  reg : Fin 8
  isReg : Bool
  rm : Fin 8
  deriving DecidableEq

/-- What the cases of `decode_x87` are for. Integers in memory are of `2 ^ size` bytes. -/
inductive X87Form
  | arith (esc reg : Fin 8) (isReg : Bool) (rm : Fin 8)
  | fucom (pop : Bool) (rm : Fin 8)
  | fldReg (rm : Fin 8)
  | fldMem (double : Bool)
  | fild (size : Fin 4)
  | micro (a : AssistFn)
  | turnTos (up : Bool)
  | ffree
  | fisttp64
  | fisttp (size : Fin 4) (pop : Bool)
  | fist (size : Fin 4) (pop : Bool)
  | fnop
  | fstMem (double pop : Bool)
  | fstReg (rm : Fin 8) (pop : Bool)
  | fstswMem
  | fstswAx
  | fxch (rm : Fin 8)
  | fldConst (rm : Fin 8)
  | fldcw
  | fnstcw
  | fsqrt
  | ffreep
  | fchs
  | fabs
  | ftst
  | fucompp (rm : Fin 8)
  | fcmov (invert : Bool) (cc : Fin 4) (rm : Fin 8)
  | iarith (reg : Fin 8)
  | fcomi (unordered pop : Bool) (rm : Fin 8)
  | fld80
  | fstp80
  deriving DecidableEq

namespace X87Enc

/-- `x87op` of the conversions to 16 bits: a field of the address. -/
def popByRm (rm : Fin 8) : Bool := rm == 1 || rm == 3

/-- The form of an encoding; none for those made invalid. -/
def form (e : X87Enc) : Option X87Form :=
  match e.esc, e.reg, e.isReg with
  | 0, _, _ | 4, _, _ | 6, _, _ => some (.arith e.esc e.reg e.isReg e.rm)
  -- escape 1: loads, stores and the control word, and the functions of `st(0)`
  | 1, 0, true => some (.fldReg e.rm)
  | 1, 0, false => some (.fldMem false)
  | 1, 1, true => some (.fxch e.rm)
  | 1, 2, true | 1, 3, true => some .fnop
  | 1, 2, false => some (.fstMem false false)
  | 1, 3, false => some (.fstMem false true)
  | 1, 4, true =>
    match e.rm with
    | 0 => some .fchs | 1 => some .fabs | 4 => some .ftst | 5 => some (.micro .x87Fxam) | _ => none
  | 1, 5, true => some (.fldConst e.rm)
  | 1, 5, false => some .fldcw
  | 1, 6, true =>
    match e.rm with
    | 0 => some (.micro .x87F2xm1) | 1 => some (.micro .x87Fyl2x) | 2 => some (.micro .x87Fptan)
    | 3 => some (.micro .x87Fpatan) | 4 => some (.micro .x87Fxtract) | 5 => some (.micro .x87Fprem1)
    | 6 => some (.turnTos false) | 7 => some (.turnTos true)
  | 1, 7, true =>
    match e.rm with
    | 0 => some (.micro .x87Fprem) | 1 => some (.micro .x87Fyl2xp1) | 2 => some .fsqrt
    | 3 => some (.micro .x87Fsincos) | 4 => some (.micro .x87Frndint) | 5 => some (.micro .x87Fscale)
    | 6 => some (.micro .x87Fsin) | 7 => some (.micro .x87Fcos)
  | 1, 7, false => some .fnstcw
  -- escapes 2 and 3: conditional moves, and integers of 32 bits
  | 2, 4, true | 2, 6, true | 2, 7, true => none
  | 2, 5, true => some (.fucompp e.rm)
  | 2, reg, true => some (.fcmov false (Fin.ofNat 4 reg.val) e.rm)
  | 2, reg, false => some (.iarith reg)
  | 3, 0, true | 3, 1, true | 3, 2, true | 3, 3, true => some (.fcmov true (Fin.ofNat 4 e.reg.val) e.rm)
  | 3, 0, false => some (.fild 2)
  | 3, 1, false => some (.fisttp 2 true)
  | 3, 2, false => some (.fist 2 false)
  | 3, 3, false => some (.fist 2 true)
  | 3, 4, true =>
    match e.rm with
    | 2 => some (.micro .x87Fclex) | 3 => some (.micro .x87Finit) | _ => none
  | 3, 5, true => some (.fcomi true false e.rm)
  | 3, 6, true => some (.fcomi false false e.rm)
  | 3, 5, false => some .fld80
  | 3, 7, false => some .fstp80
  -- escape 5: doubles; the register field is not always looked at
  | 5, 0, true => some .ffree
  | 5, 0, false => some (.fldMem true)
  | 5, 1, _ => if e.rm = 3 then none else some .fisttp64
  | 5, 2, true => some (.fstReg e.rm false)
  | 5, 3, true => some (.fstReg e.rm true)
  | 5, 2, false => some (.fstMem true false)
  | 5, 3, false => some (.fstMem true true)
  | 5, 4, true => some (.fucom false e.rm)
  | 5, 5, true => some (.fucom true e.rm)
  | 5, 7, false => some .fstswMem
  -- escape 7: integers of 16 bits, and of 64; whether they pop is read off the field `rm`
  | 7, 0, true => some .ffreep
  | 7, 0, false => some (.fild 1)
  | 7, 1, _ => some (.fisttp 1 (popByRm e.rm))
  | 7, 2, _ | 7, 3, _ => some (.fist 1 (popByRm e.rm))
  | 7, 4, true => if e.rm = 0 then some .fstswAx else none
  | 7, 5, true => some (.fcomi true true e.rm)
  | 7, 6, true => some (.fcomi false true e.rm)
  | 7, 5, false => some (.fild 3)
  | 7, 7, _ => if e.rm = 3 then none else some (.fist 3 true)
  | _, _, _ => none

end X87Enc

/-! ### Uops -/

/-- `result_store` of a datatype that is not an integer's. -/
def fpStore (pfx : Prefixes) (rip : W64) (srcreg : Reg) (memref : MemRef) : List TransOp :=
  addressGenerate pfx rip Reg.mem srcreg memref .opSt false false

namespace TransOp

/-- A uop of the FPU. -/
def fp (o : Opcode) (rd ra rb : Reg) (size : ℕ) : TransOp := mk3 o rd ra rb Reg.zero size 0

/-- The fields of the status word a comparison or `fnstsw` sets. -/
def maskFpsw (rb : Reg) (ms mc ds : ℕ) : TransOp :=
  init .opMask Reg.fpsw Reg.fpsw rb Reg.imm 3 0 (maskControlInfo ms mc ds) .none

end TransOp

namespace X87Form

/-- `x87_translate_opcode`. -/
def translateOpcode : Fin 8 → Opcode
  | 0 => .opFadd | 1 => .opFmul | 2 => .opFcmpcc | 3 => .opFcmpcc
  | 4 => .opFsub | 5 => .opFsub | 6 => .opFdiv | 7 => .opFdiv

/-- The arithmetic uop: the "r" variants have their operands flipped. -/
def arithOp (reg : Fin 8) (double : Bool) : TransOp :=
  let flipped := reg = 5 ∨ reg = 7
  { TransOp.fp (translateOpcode reg) Reg.temp0 (if flipped then Reg.temp1 else Reg.temp0)
      (if flipped then Reg.temp0 else Reg.temp1) 2 with datatypeInt := !double }

/-- The flags of a comparison, translated by the table at `table`, go to the status word. -/
def fcomFlags (table : W64) : List TransOp :=
  [{ TransOp.mk3 .opLd Reg.temp0 Reg.temp0 Reg.imm Reg.zero 0 table with internal := true },
    .maskFpsw Reg.temp0 (64 - 8) 3 (64 - 8), .maskFpsw Reg.temp0 (64 - 14) 1 (64 - 11)]

/-- `offsetof_(Context, fpcw)`: it follows the segment registers, `swapgs_base` and the x87 stack. -/
def FPCW : W64 := 648

/-- The offset of `st(rm)`. -/
def sti (rd : Reg) (rm : Fin 8) : TransOp := .addTos rd (BitVec.ofNat 64 (8 * rm.val))

/-- The condition of a conditional move: the uop that gathers the flags, the register and the condition. -/
def moveCond (invert : Bool) : Fin 4 → List TransOp × Reg × Cond
  | 0 => ([], Reg.cf, if invert then .nc else .c)
  | 1 => ([], Reg.zf, if invert then .ne else .e)
  | 2 => ([.init .opCollcc Reg.temp2 Reg.zf Reg.cf Reg.of 3 0 0 .default], Reg.temp2, if invert then .nbe else .be)
  | 3 => ([.init .opCollcc Reg.temp2 Reg.zf Reg.cf Reg.of 3 0 0 .default], Reg.temp2, if invert then .np else .p)

variable (pfx : Prefixes) (rip table : W64) (const : Fin 8 → W64) (o : X86Operand)

/-- The uops of a form, and the assist at their end. -/
def uops : X87Form → List TransOp × Option AssistFn
  | arith esc reg isReg rm =>
    let d8form := esc == 0
    let dcform := esc == 4
    let deform := esc == 6
    let size := if deform then 1 else if dcform then 3 else 2
    -- the stack operands first, and of memory a value widened to a double
    (x87LoadStack Reg.temp0 Reg.fptos ++ [sti Reg.temp2 rm] ++
      (if isReg then x87LoadStack Reg.temp1 Reg.temp2
      else addressGenerate pfx rip Reg.temp1 Reg.zero (o.memRef size) .opLdx (!d8form) false ++
        (if d8form then [.fp .opFcvtS2dLo Reg.temp1 Reg.zero Reg.temp1 2] else []) ++
        (if deform then [.fp .opFcvtQ2d Reg.temp1 Reg.zero Reg.temp1 2] else [])) ++
      [arithOp reg true] ++
      (if reg = 2 ∨ reg = 3 then fcomFlags table ++ (if reg = 3 then x87PopStack else [])
      else x87StoreStack (if (dcform || deform) && isReg then Reg.temp2 else Reg.fptos) Reg.temp0) ++
      (if deform && isReg then x87PopStack else []), none)
  | fucom pop rm =>
    (x87LoadStack Reg.temp0 Reg.fptos ++ [sti Reg.temp2 rm] ++ x87LoadStack Reg.temp1 Reg.temp2 ++
      [.fp .opFcmpcc Reg.temp0 Reg.temp0 Reg.temp1 2] ++ fcomFlags table ++ (if pop then x87PopStack else []), none)
  | fldReg rm =>
    ([sti Reg.temp0 rm] ++ x87LoadStack Reg.temp0 Reg.temp0 ++ x87PushStack ++ x87StoreStack Reg.fptos Reg.temp0, none)
  | fldMem double =>
    (fpLoad pfx rip Reg.temp0 (o.memRef (if double then 3 else 2)) .opLd ++
      (if double then [] else [.fp .opFcvtS2dLo Reg.temp0 Reg.zero Reg.temp0 3]) ++
      x87PushStack ++ x87StoreStack Reg.fptos Reg.temp0, none)
  | fild size =>
    (addressGenerate pfx rip Reg.temp0 Reg.zero (o.memRef size) (if size = 3 then .opLd else .opLdx) (size == 3) false ++
      [.fp .opFcvtQ2d Reg.temp0 Reg.zero Reg.temp0 3] ++ x87PushStack ++ x87StoreStack Reg.fptos Reg.temp0, none)
  | micro a => ([], some a)
  | turnTos up => ([if up then .addTos Reg.fptos 8 else .subTos Reg.fptos 8], none)
  | ffree => ([.clearTag Reg.fptos], none)
  | fisttp64 =>
    (x87LoadStack Reg.temp0 Reg.fptos ++ [.fp .opFcvtD2q Reg.temp0 Reg.zero Reg.temp0 3] ++
      fpStore pfx rip Reg.temp0 (o.memRef 3) ++ x87PopStack, none)
  | fisttp size pop =>
    (x87LoadStack Reg.temp0 Reg.fptos ++ [.fp .opFcvtD2i Reg.temp0 Reg.zero Reg.temp0 1] ++
      resultStore pfx rip Reg.temp0 (o.memRef size) ++ (if pop then x87PopStack else []), none)
  | fist size pop =>
    ((if size = 2 then [] else x87LoadStack Reg.temp0 Reg.fptos) ++
      addressGenerate pfx rip Reg.ar1 Reg.zero (o.memRef 3) .opAdd true true ++
      [.mk3 .opMov Reg.ar2 Reg.zero Reg.imm Reg.zero 3 (BitVec.ofNat 64 (2 ^ size.val * 2 + if pop then 1 else 0))],
      some .x87Fist)
  | fnop => ([.mk3 .opNop Reg.temp0 Reg.zero Reg.zero Reg.zero 3 0], none)
  | fstMem double pop =>
    (x87LoadStack Reg.temp0 Reg.fptos ++
      (if double then [] else [.fp .opFcvtD2sIns Reg.temp0 Reg.zero Reg.temp0 3]) ++
      fpStore pfx rip Reg.temp0 (o.memRef (if double then 3 else 2)) ++ (if pop then x87PopStack else []), none)
  | fstReg rm pop =>
    ([sti Reg.temp1 rm] ++ x87LoadStack Reg.temp0 Reg.fptos ++ x87StoreStack Reg.temp1 Reg.temp0 ++
      (if pop then x87PopStack else []), none)
  | fstswMem => ([.maskFpsw Reg.fptos (64 - 11) 3 (64 - (11 - 3))] ++ resultStore pfx rip Reg.fpsw (o.memRef 1), none)
  | fstswAx =>
    ([.maskFpsw Reg.fptos (64 - 11) 3 (64 - (11 - 3)), .mk3 .opMov Reg.rax Reg.rax Reg.fpsw Reg.zero 1 0], none)
  | fxch rm =>
    ([sti Reg.temp2 rm] ++ x87LoadStack Reg.temp0 Reg.fptos ++ x87LoadStack Reg.temp1 Reg.temp2 ++
      x87StoreStack Reg.fptos Reg.temp1 ++ x87StoreStack Reg.temp2 Reg.temp0, none)
  | fldConst rm =>
    ([.mk3 .opMov Reg.temp0 Reg.zero Reg.imm Reg.zero 3 (const rm)] ++ x87PushStack ++
      x87StoreStack Reg.fptos Reg.temp0, none)
  | fldcw =>
    (operandLoad pfx rip Reg.temp1 (o.memRef 1) .opLd ++
      [{ TransOp.mk3 .opSt Reg.mem Reg.ctx Reg.imm Reg.temp1 1 FPCW with internal := true }], some .x87Fldcw)
  | fnstcw =>
    ([{ TransOp.mk3 .opLd Reg.temp1 Reg.ctx Reg.imm Reg.zero 1 FPCW with internal := true }] ++
      resultStore pfx rip Reg.temp1 (o.memRef 1), none)
  | fsqrt =>
    (x87LoadStack Reg.temp0 Reg.fptos ++ [.fp .opFsqrt Reg.temp0 Reg.temp0 Reg.temp0 2] ++
      x87StoreStack Reg.fptos Reg.temp0, none)
  | ffreep => (x87PopStack, none)
  | fchs =>
    (x87LoadStack Reg.temp0 Reg.fptos ++ [.mk3 .opXor Reg.temp0 Reg.temp0 Reg.imm Reg.zero 3 (1 <<< 63)] ++
      x87StoreStack Reg.fptos Reg.temp0, none)
  | fabs =>
    (x87LoadStack Reg.temp0 Reg.fptos ++ [.mk3 .opAnd Reg.temp0 Reg.temp0 Reg.imm Reg.zero 3 (~~~(1 <<< 63))] ++
      x87StoreStack Reg.fptos Reg.temp0, none)
  | ftst =>
    (x87LoadStack Reg.temp0 Reg.fptos ++ [.fp .opFcmpcc Reg.temp0 Reg.temp0 Reg.zero 2] ++ fcomFlags table, none)
  | fucompp rm =>
    (x87LoadStack Reg.temp0 Reg.fptos ++ [sti Reg.temp2 rm] ++ x87LoadStack Reg.temp1 Reg.temp2 ++
      [.fp .opFcmpcc Reg.temp0 Reg.temp0 Reg.temp1 2] ++ fcomFlags table ++ x87PopStack ++ x87PopStack, none)
  | fcmov invert cc rm =>
    let c := moveCond invert cc
    ([sti Reg.temp1 rm] ++ x87LoadStack Reg.temp0 Reg.fptos ++ x87LoadStack Reg.temp1 Reg.temp1 ++ c.1 ++
      [{ TransOp.mk3 .opSel Reg.temp0 Reg.temp0 Reg.temp1 c.2.1 3 0 with cond := c.2.2.code }] ++
      x87StoreStack Reg.fptos Reg.temp0, none)
  | iarith reg =>
    (x87LoadStack Reg.temp0 Reg.fptos ++ operandLoad pfx rip Reg.temp1 (o.memRef 2) .opLdx ++
      [.fp .opFcvtQ2d Reg.temp1 Reg.zero Reg.temp1 2, arithOp reg false] ++
      (if reg = 2 ∨ reg = 3 then fcomFlags table ++ (if reg = 3 then x87PopStack else [])
      else x87StoreStack Reg.fptos Reg.temp0), none)
  | fcomi unordered pop rm =>
    ([sti Reg.temp1 rm] ++ x87LoadStack Reg.temp0 Reg.fptos ++ x87LoadStack Reg.temp1 Reg.temp1 ++
      [.init .opFcmpcc Reg.temp0 Reg.temp0 Reg.temp1 Reg.zero (if unordered then 3 else 2) 0 0 .default] ++
      (if pop then x87PopStack else []), none)
  | fld80 => (addressGenerate pfx rip Reg.ar1 Reg.zero (o.memRef 3) .opAdd true true, some .x87Fld80)
  | fstp80 => (addressGenerate pfx rip Reg.ar1 Reg.zero (o.memRef 3) .opAdd true true, some .x87Fstp80)

end X87Form

/-! ### Assists -/

namespace X87Core

variable (env : X87Env) (s : X87Core)

/-- `ctx.fpstack[((tos >> 3) + i) & 7]`. -/
def setWord (i : Fin 8) (v : W64) : X87Core :=
  { s with words := Function.update s.words (s.slot (s.stack.reg i)) v }

/-- `tos = (tos + 8 * i) & FP_STACK_MASK`. -/
def setTos (i : Fin 8) : X87Core :=
  { s with core := s.core.setArf Reg.fptos ((s.core.arf Reg.fptos + BitVec.ofNat 64 (8 * i.val)) &&& FP_STACK_MASK) }

/-- `setbit(fptags, tos)` and `clearbit(fptags, tos)`. -/
def setTosTag (b : Bool) : X87Core :=
  let tags := BitStrings.setBit (s.core.arf Reg.fptags) (s.core.arf Reg.fptos).toNat b
  { s with core := s.core.setArf Reg.fptags tags }

/-- What an assist does to the stack. -/
def assist (a : AssistFn) : X87Core :=
  match a with
  | .x87Fist => if env.fault then s else if (s.core.arf Reg.ar2).getLsbD 0 then s.setTos 1 else s
  | .x87Fprem | .x87Fprem1 | .x87Fscale | .x87Fsqrt | .x87Fsin | .x87Fcos | .x87F2xm1 | .x87Frndint =>
    s.setWord 0 env.st0
  | .x87Fyl2x | .x87Fyl2xp1 | .x87Fpatan => ((s.setWord 1 env.st1).setTosTag false).setTos 1
  | .x87Fsincos | .x87Fptan | .x87Fxtract => (((s.setWord 0 env.st0).setWord (-1) env.st1).setTos (-1)).setTosTag true
  | .x87Fld80 => if env.fault then s else ((s.setTos (-1)).setWord 0 env.st0).setTosTag true
  | .x87Fstp80 => if env.fault then s else (s.setTosTag false).setTos 1
  | .x87Finit => { s with core := s.core.setArf Reg.fptags 0 }
  | _ => s

end X87Core

/-! ### Effects -/

/-- What can be done to the stack. A store marks the register it writes; an assist may write without. -/
inductive StackEffect
  | turn (i : Fin 8) | mark (i : Fin 8) | free (i : Fin 8) | write (i : Fin 8) | clear | init
  deriving DecidableEq

namespace StackEffect

/-- The stack after an effect, and the registers written. -/
def run (e : StackEffect) (k : RingStack 8) : RingStack 8 :=
  match e with
  | turn i => k.turn i
  | mark i => k.mark i
  | free i => k.free i
  | write _ => k
  | clear => { k with full := fun _ => false }
  | init => .init

def written (e : StackEffect) (k : RingStack 8) : List (Fin 8) :=
  match e with
  | mark i | write i => [k.reg i]
  | _ => []

/-- Some effects in order. -/
def runs : List StackEffect → RingStack 8 → RingStack 8
  | [], k => k
  | e :: es, k => runs es (e.run k)

/-- The registers they write, and those written before. -/
def allWritten : List StackEffect → RingStack 8 → List (Fin 8) → List (Fin 8)
  | [], _, w => w
  | e :: es, k, w => allWritten es (e.run k) (e.written k ++ w)

/-- A push of a word, and a pop. -/
def push : List StackEffect := [turn (-1), mark 0]
def pop : List StackEffect := [free 0, turn 1]

def popIf (b : Bool) : List StackEffect := if b then pop else []

end StackEffect

namespace X87Form

open StackEffect

/-- The effects of an assist. -/
def microEffects (fault : Bool) : AssistFn → List StackEffect
  | .x87Fprem | .x87Fprem1 | .x87Fscale | .x87Fsqrt | .x87Fsin | .x87Fcos | .x87F2xm1 | .x87Frndint => [write 0]
  | .x87Fyl2x | .x87Fyl2xp1 | .x87Fpatan => write 1 :: pop
  | .x87Fsincos | .x87Fptan | .x87Fxtract => write 0 :: push
  | .x87Fld80 => if fault then [] else push
  | .x87Fstp80 => if fault then [] else pop
  | .x87Finit => [clear]
  | _ => []

/-- The effects of a form. -/
def effects (fault : Bool) : X87Form → List StackEffect
  | arith esc reg isReg rm =>
    (if reg = 2 then [] else if reg = 3 then pop
      else [mark (if (esc == 4 || esc == 6) && isReg then rm else 0)]) ++ popIf (esc == 6 && isReg)
  | fucom p _ | fstMem _ p | fisttp _ p | fcomi _ p _ => popIf p
  | fldReg _ | fldMem _ | fild _ | fldConst _ => push
  | micro a => microEffects fault a
  | turnTos up => [turn (if up then 1 else -1)]
  | ffree => [free 0]
  | fisttp64 | ffreep => pop
  | fist _ p => if fault then [] else if p then [turn 1] else []
  | fnop | fstswMem | fstswAx | fldcw | fnstcw | ftst => []
  | fstReg rm p => mark rm :: popIf p
  | fxch rm => [mark 0, mark rm]
  | fsqrt | fchs | fabs | fcmov _ _ _ => [mark 0]
  | fucompp _ => pop ++ pop
  | iarith reg => if reg = 2 then [] else if reg = 3 then pop else [mark 0]
  | fld80 => microEffects fault .x87Fld80
  | fstp80 => microEffects fault .x87Fstp80

end X87Form

/-! ### Uops and their effects -/

namespace X87Core

open StackEffect

/-- Uops with the effects `es`, on any stack. -/
def Does (env : X87Env) (ops : List TransOp) (es : List StackEffect) : Prop :=
  ∀ s₀ k w s, At s₀ k w [] s → At s₀ (runs es k) (allWritten es k w) [] (run env s ops)

variable {env : X87Env} {ops ops' : List TransOp} {es es' : List StackEffect}

theorem runs_append (k : RingStack 8) : runs (es ++ es') k = runs es' (runs es k) := by
  induction es generalizing k with
  | nil => rfl
  | cons e es ih => exact ih _

theorem allWritten_append (k : RingStack 8) (w : List (Fin 8)) :
    allWritten (es ++ es') k w = allWritten es' (runs es k) (allWritten es k w) := by
  induction es generalizing k w with
  | nil => rfl
  | cons e es ih => exact ih _ _

theorem Does.append (h : Does env ops es) (h' : Does env ops' es') : Does env (ops ++ ops') (es ++ es') := by
  intro s₀ k w s hs
  rw [run_append, runs_append, allWritten_append]
  exact h' _ _ _ _ (h _ _ _ _ hs)

theorem does_nil : Does env [] [] := fun _ _ _ _ h => h

/-- Uops that leave the stack. -/
theorem does_quiet (h : ∀ u ∈ ops, X87Core.quiet [] u = true) : Does env ops [] :=
  fun _ _ _ _ hs => hs.quiet nofun h

theorem does_all (h : ops.all (X87Core.quiet []) = true) : Does env ops [] := does_quiet (List.all_eq_true.1 h)

theorem does_store (data : Reg) : Does env (x87StoreStack Reg.fptos data) [mark 0] := by
  intro s₀ k w s hs
  have hreg : k.reg 0 = k.top := add_zero k.top
  have hfptos : remap Reg.fptos = Reg.fptos ∧ Reg.fptos ∉ [Reg.imm, Reg.temp6, Reg.flags] := by decide
  have hp : s.core.arf Reg.fptos = BitVec.ofNat 64 (8 * (k.reg 0).val) := by rw [hs.fptos, hreg]
  exact hs.store nofun hfptos.1 hfptos.2 hp

theorem does_push (data : Reg) : Does env (x87PushStack ++ x87StoreStack Reg.fptos data) push :=
  @Does.append env x87PushStack _ [turn (-1)] _ (fun _ _ _ _ hs => hs.push) (does_store data)

theorem does_pop : Does env x87PopStack pop := fun _ _ _ _ hs => hs.pop

theorem does_popIf (b : Bool) : Does env (if b then x87PopStack else []) (popIf b) := by
  cases b with
  | true => exact does_pop
  | false => exact does_nil

/-- A load of the stack, to a register that is not the stack's. -/
theorem does_load {target : Reg} (offset : Reg) (ht : target ∉ [Reg.fptos, Reg.fptags, Reg.fpstack]) :
    Does env (x87LoadStack target offset) [] := by
  refine does_quiet fun u hu => ?_
  simp only [x87LoadStack, List.mem_cons, List.not_mem_nil, or_false] at hu
  rcases hu with rfl | rfl
  · simp only [X87Core.quiet, TransOp.mk3, TransOp.init]
    rfl
  · have hst : isstore .opLd = false := by decide
    refine quiet_of ?_ ht
    show (isstore .opLd && _) = false
    rw [hst]
    rfl

/-- An address is generated, and accessed or not. -/
theorem does_address (pfx : Prefixes) (rip : W64) {destreg : Reg} (srcreg : Reg) (memref : MemRef) {opcode : Opcode}
    (hmem : (isload opcode || isstore opcode || opcode = .opLdPre) = true) (int force : Bool)
    (ht : destreg ∉ [Reg.fptos, Reg.fptags, Reg.fpstack]) :
    Does env (addressGenerate pfx rip destreg srcreg memref opcode int force) [] := by
  obtain ⟨pre, ra, off, hshape, hwrites⟩ := addressGenerate_shape pfx rip destreg srcreg memref hmem int force
  have htemps : ∀ r ∈ addressTemps, r ∉ [Reg.fptos, Reg.fptags, Reg.fpstack] := by decide
  rw [hshape]
  refine does_quiet fun u hu => ?_
  rcases List.mem_append.1 hu with hu | hu
  · obtain ⟨hrd, hst, -⟩ := hwrites u hu
    exact quiet_of (by rw [hst]; rfl) (htemps _ hrd)
  · rw [List.mem_singleton.1 hu]
    exact quiet_of (Bool.and_false _) ht

/-- The address for an assist. -/
theorem does_ar1 (pfx : Prefixes) (rip : W64) (memref : MemRef) (int : Bool) (h : int = true) :
    Does env (addressGenerate pfx rip Reg.ar1 Reg.zero memref .opAdd int true) [] := by
  have htemps : ∀ r ∈ [Reg.temp6, Reg.temp8, Reg.ar1], r ∉ [Reg.fptos, Reg.fptags, Reg.fpstack] := by decide
  have hw : Writable Reg.ar1 := ⟨by decide, by decide, by decide⟩
  rw [h]
  refine does_quiet fun u hu => ?_
  obtain ⟨hrd, hst, -⟩ := writes_generate pfx rip hw memref true u hu
  exact quiet_of (by rw [hst]; rfl) (htemps _ hrd)

/-- An offset is kept until the store through it. -/
theorem does_sti {r : Reg} (hr : r = Reg.temp1 ∨ r = Reg.temp2) (rm : Fin 8) (data : Reg)
    (hmid : ops.all (X87Core.quiet [r]) = true) :
    Does env ([X87Form.sti r rm] ++ ops ++ x87StoreStack r data) [mark rm] := by
  intro s₀ k w s hs
  have hout : r ∉ [Reg.fptos, Reg.fptags, Reg.fpstack, Reg.zero, Reg.flags] ∧ r ∉ [Reg.imm, Reg.temp6, Reg.flags] ∧
      r ∉ [Reg.flags, Reg.fptags, Reg.temp6] ∧ remap r = r := by
    rcases hr with rfl | rfl <;> decide
  have hne : ∀ o ∈ [(r, k.reg rm)], o.1 ∉ [Reg.flags, Reg.fptags, Reg.temp6] := by
    intro o ho
    rw [List.mem_singleton.1 ho]
    exact hout.2.2.1
  have h₁ := @At.addTos env _ _ _ _ _ hs r hout.1 rm
  have h₂ := @At.quiet env _ _ _ _ _ h₁ (fun o ho hf => hne o ho (by rw [hf]; decide)) ops (List.all_eq_true.1 hmid)
  rw [run_append, run_append]
  exact (h₂.store hne hout.2.2.2 hout.2.1 (h₂.offs _ List.mem_cons_self)).mono (List.nil_subset _)

/-- The offset of a register of the stack. -/
theorem does_offset {r : Reg} (hr : r = Reg.temp0 ∨ r = Reg.temp1 ∨ r = Reg.temp2) (rm : Fin 8) :
    Does env [X87Form.sti r rm] [] := by
  refine does_all ?_
  rcases hr with rfl | rfl | rfl <;>
    · simp only [X87Form.sti, TransOp.addTos, List.all, X87Core.quiet, TransOp.init]
      rfl

/-- The flags of a comparison. -/
theorem does_fcomFlags (table : W64) : Does env (X87Form.fcomFlags table) [] := by
  refine does_all ?_
  simp only [X87Form.fcomFlags, List.all, X87Core.quiet, TransOp.maskFpsw, TransOp.mk3, TransOp.init]
  rfl

/-- An exchange: both registers are written. -/
theorem does_fxch (rm : Fin 8) : Does env ([X87Form.sti Reg.temp2 rm] ++ x87LoadStack Reg.temp0 Reg.fptos ++
    x87LoadStack Reg.temp1 Reg.temp2 ++ x87StoreStack Reg.fptos Reg.temp1 ++ x87StoreStack Reg.temp2 Reg.temp0)
    [mark 0, mark rm] := by
  intro s₀ k w s hs
  have hreg : k.reg 0 = k.top := add_zero k.top
  have hconst : remap Reg.fptos = Reg.fptos ∧ Reg.fptos ∉ [Reg.imm, Reg.temp6, Reg.flags] ∧
      remap Reg.temp2 = Reg.temp2 ∧ Reg.temp2 ∉ [Reg.imm, Reg.temp6, Reg.flags] ∧
      Reg.temp2 ∉ [Reg.fptos, Reg.fptags, Reg.fpstack, Reg.zero, Reg.flags] := by
    decide
  have hne : ∀ o ∈ [(Reg.temp2, k.reg rm)], o.1 ∉ [Reg.flags, Reg.fptags, Reg.temp6] := by
    intro o ho
    rw [List.mem_singleton.1 ho]
    show Reg.temp2 ∉ _
    decide
  have hquiet : (x87LoadStack Reg.temp0 Reg.fptos ++ x87LoadStack Reg.temp1 Reg.temp2).all
      (X87Core.quiet [Reg.temp2]) = true := by
    simp only [x87LoadStack, List.all, List.cons_append, List.nil_append, X87Core.quiet, TransOp.mk3, TransOp.init]
    rfl
  have h₁ := @At.addTos env _ _ _ _ _ hs Reg.temp2 hconst.2.2.2.2 rm
  have h₂ := @At.quiet env _ _ _ _ _ h₁ (fun o ho hf => hne o ho (by rw [hf]; decide)) _ (List.all_eq_true.1 hquiet)
  have h₃ := @At.store env _ _ _ _ _ h₂ hne _ Reg.temp1 hconst.1 hconst.2.1 0 (by rw [h₂.fptos, hreg])
  have h₄ := @At.store env _ _ _ _ _ h₃ hne _ Reg.temp0 hconst.2.2.1 hconst.2.2.2.1 rm (h₃.offs _ List.mem_cons_self)
  rw [List.append_assoc [_], run_append, run_append, run_append]
  exact h₄.mono (List.nil_subset _)

end X87Core

namespace X87Form

open X87Core StackEffect

variable {env : X87Env}

theorem does_fp {o : Opcode} (hst : isstore o = false) {rd : Reg} (hrd : rd ∉ [Reg.fptos, Reg.fptags, Reg.fpstack])
    (ra rb : Reg) (size : ℕ) : Does env [.fp o rd ra rb size] [] := by
  refine does_quiet fun u hu => ?_
  rw [List.mem_singleton.1 hu]
  refine quiet_of ?_ hrd
  show (isstore o && _) = false
  rw [hst]
  rfl

theorem quiet_arithOp (reg : Fin 8) (double : Bool) {keep : List Reg}
    (hkeep : Reg.temp0 ∉ [Reg.fptos, Reg.fptags, Reg.fpstack] ++ keep) :
    X87Core.quiet keep (arithOp reg double) = true := by
  have hst : isstore (translateOpcode reg) = false := by
    revert reg
    decide
  refine quiet_of ?_ hkeep
  show (isstore (translateOpcode reg) && _) = false
  rw [hst]
  rfl

/-- A comparison sets the status word; anything else is stored. -/
theorem does_arith (esc reg : Fin 8) (isReg : Bool) (rm : Fin 8) (pfx : Prefixes) (rip table : W64) (o : X86Operand) :
    Does env ((arith esc reg isReg rm).uops pfx rip table (fun _ => 0) o).1
      ((arith esc reg isReg rm).effects env.fault) := by
  have h0 : Reg.temp0 ∉ [Reg.fptos, Reg.fptags, Reg.fpstack] := by decide
  have h1 : Reg.temp1 ∉ [Reg.fptos, Reg.fptags, Reg.fpstack] := by decide
  have hldx : (isload .opLdx || isstore .opLdx || Opcode.opLdx = .opLdPre) = true := by decide
  have hst : isstore .opFcvtS2dLo = false ∧ isstore .opFcvtQ2d = false := by decide
  have hload0 := @does_load env Reg.temp0 Reg.fptos h0
  have hsti : Does env [sti Reg.temp2 rm] [] := does_offset (.inr (.inr rfl)) rm
  have hop : Does env [arithOp reg true] [] := by
    refine does_quiet fun u hu => ?_
    rw [List.mem_singleton.1 hu]
    exact quiet_arithOp reg true h0
  have hmemory : ∀ size : ℕ, Does env (addressGenerate pfx rip Reg.temp1 Reg.zero (o.memRef size) .opLdx (!(esc == 0)) false ++
      (if esc == 0 then [.fp .opFcvtS2dLo Reg.temp1 Reg.zero Reg.temp1 2] else []) ++
      (if esc == 6 then [.fp .opFcvtQ2d Reg.temp1 Reg.zero Reg.temp1 2] else [])) [] := by
    intro size
    have hs2d : Does env (if esc == 0 then [.fp .opFcvtS2dLo Reg.temp1 Reg.zero Reg.temp1 2] else []) [] := by
      split
      · exact does_fp hst.1 h1 _ _ _
      · exact does_nil
    have hq2d : Does env (if esc == 6 then [.fp .opFcvtQ2d Reg.temp1 Reg.zero Reg.temp1 2] else []) [] := by
      split
      · exact does_fp hst.2 h1 _ _ _
      · exact does_nil
    exact ((does_address pfx rip _ _ hldx _ _ h1).append hs2d).append hq2d
  have hpop := @does_popIf env (esc == 6 && isReg)
  unfold uops effects
  dsimp only
  refine Does.append ?_ hpop
  by_cases hcmp : reg = 2 ∨ reg = 3
  · -- a comparison
    have hflags : Does env (fcomFlags table ++ (if reg = 3 then x87PopStack else [])) (if reg = 3 then pop else []) := by
      by_cases h3 : reg = 3
      · rw [if_pos h3, if_pos h3]
        exact (does_fcomFlags table).append does_pop
      · rw [if_neg h3, if_neg h3]
        exact (does_fcomFlags table).append does_nil
    have heffects : (if reg = 2 then [] else if reg = 3 then pop else [mark (if (esc == 4 || esc == 6) && isReg then rm else 0)]) =
        if reg = 3 then pop else [] := by
      rcases hcmp with rfl | rfl <;> rfl
    rw [if_pos hcmp, heffects]
    cases isReg with
    | true => exact (((hload0.append hsti).append (does_load Reg.temp2 h1)).append hop).append hflags
    | false => exact (((hload0.append hsti).append (hmemory _)).append hop).append hflags
  · -- a result
    rw [if_neg hcmp]
    rw [not_or] at hcmp
    rw [if_neg hcmp.1, if_neg hcmp.2]
    cases isReg with
    | true =>
      by_cases hto : (esc == 4 || esc == 6) = true
      · rw [hto]
        -- the result goes to st(i): its slot is in `temp2` until the store
        have hquiet : (x87LoadStack Reg.temp1 Reg.temp2 ++ [arithOp reg true]).all (X87Core.quiet [Reg.temp2]) = true := by
          rw [List.all_append, Bool.and_eq_true]
          refine ⟨?_, ?_⟩
          · simp only [x87LoadStack, List.all, X87Core.quiet, TransOp.mk3, TransOp.init]
            rfl
          · rw [List.all_cons, quiet_arithOp reg true (by decide)]
            rfl
        have hlast := @Does.append env _ _ [] _ hload0 (does_sti (.inr rfl) rm Reg.temp0 hquiet)
        simp only [List.append_assoc] at hlast ⊢
        exact hlast
      · rw [Bool.not_eq_true] at hto
        rw [hto]
        exact (((hload0.append hsti).append (does_load Reg.temp2 h1)).append hop).append (does_store Reg.temp0)
    | false =>
      rw [Bool.and_false]
      exact (((hload0.append hsti).append (hmemory _)).append hop).append (does_store Reg.temp0)

section Forms

variable (pfx : Prefixes) (rip table : W64) (const : Fin 8 → W64) (o : X86Operand)

theorem temps_notMem : Reg.temp0 ∉ [Reg.fptos, Reg.fptags, Reg.fpstack] ∧
    Reg.temp1 ∉ [Reg.fptos, Reg.fptags, Reg.fpstack] := by decide

theorem access_classes : (isload .opLd || isstore .opLd || Opcode.opLd = .opLdPre) = true ∧
    (isload .opLdx || isstore .opLdx || Opcode.opLdx = .opLdPre) = true ∧
    (isload .opSt || isstore .opSt || Opcode.opSt = .opLdPre) = true := by decide

/-- A result goes to memory. -/
theorem does_toMemory (srcreg : Reg) (memref : MemRef) (int : Bool) :
    Does env (addressGenerate pfx rip Reg.mem srcreg memref .opSt int false) [] :=
  does_address pfx rip srcreg memref access_classes.2.2 int false (by decide)

/-- The load of a value, widened to a double unless it is one. -/
theorem does_fldMem (double : Bool) : Does env ((fldMem double).uops pfx rip table const o).1
    ((fldMem double).effects env.fault) := by
  have h0 := temps_notMem.1
  have hst : isstore .opFcvtS2dLo = false := by decide
  have hcvt : Does env (if double then [] else [.fp .opFcvtS2dLo Reg.temp0 Reg.zero Reg.temp0 3]) [] := by
    cases double with
    | true => exact does_nil
    | false => exact does_fp hst h0 _ _ _
  have hlast := ((@does_address env pfx rip _ Reg.zero (o.memRef (if double then 3 else 2)) _ access_classes.1 false
    false h0).append hcvt).append (does_push Reg.temp0)
  rw [← List.append_assoc] at hlast
  exact hlast

/-- The load of an integer. -/
theorem does_fild (size : Fin 4) : Does env ((fild size).uops pfx rip table const o).1
    ((fild size).effects env.fault) := by
  have h0 := temps_notMem.1
  have hst : isstore .opFcvtQ2d = false := by decide
  have hld : (isload (if size = 3 then Opcode.opLd else .opLdx) || isstore (if size = 3 then Opcode.opLd else .opLdx) ||
      (if size = 3 then Opcode.opLd else .opLdx) = .opLdPre) = true := by
    split
    · exact access_classes.1
    · exact access_classes.2.1
  have hlast := ((@does_address env pfx rip _ Reg.zero (o.memRef size) _ hld (size == 3) false h0).append
    (does_fp hst h0 Reg.zero Reg.temp0 3)).append (does_push Reg.temp0)
  rw [← List.append_assoc] at hlast
  exact hlast

/-- The store of the top, narrowed unless it is stored as a double. -/
theorem does_fstMem (double popped : Bool) : Does env ((fstMem double popped).uops pfx rip table const o).1
    ((fstMem double popped).effects env.fault) := by
  have h0 := temps_notMem.1
  have hst : isstore .opFcvtD2sIns = false := by decide
  have hcvt : Does env (if double then [] else [.fp .opFcvtD2sIns Reg.temp0 Reg.zero Reg.temp0 3]) [] := by
    cases double with
    | true => exact does_nil
    | false => exact does_fp hst h0 _ _ _
  exact (((does_load Reg.fptos h0).append hcvt).append (does_toMemory pfx rip _ _ _)).append (does_popIf popped)

/-- A conditional move selects with the flags gathered before it. -/
theorem does_fcmov (invert : Bool) (cc : Fin 4) (rm : Fin 8) :
    Does env ((fcmov invert cc rm).uops pfx rip table const o).1 ((fcmov invert cc rm).effects env.fault) := by
  obtain ⟨h0, h1⟩ := temps_notMem
  have hcollect : Does env (moveCond invert cc).1 [] := by
    refine does_all ?_
    match cc with
    | 0 | 1 => rfl
    | 2 | 3 =>
      simp only [moveCond, List.all, X87Core.quiet, TransOp.init]
      rfl
  have hsel : Does env [{ TransOp.mk3 .opSel Reg.temp0 Reg.temp0 Reg.temp1 (moveCond invert cc).2.1 3 0 with
      cond := (moveCond invert cc).2.2.code }] [] := by
    refine does_all ?_
    simp only [List.all, X87Core.quiet, TransOp.mk3, TransOp.init]
    rfl
  exact (((((does_offset (.inr (.inl rfl)) rm).append (does_load Reg.fptos h0)).append (does_load Reg.temp1 h1)).append
    hcollect).append hsel).append (does_store Reg.temp0)

/-- Arithmetic with an integer in memory: a comparison, or a result. -/
theorem does_iarith (reg : Fin 8) : Does env ((iarith reg).uops pfx rip table const o).1
    ((iarith reg).effects env.fault) := by
  obtain ⟨h0, h1⟩ := temps_notMem
  have hst : isstore .opFcvtQ2d = false := by decide
  have hlast : Does env (if reg = 2 ∨ reg = 3 then fcomFlags table ++ (if reg = 3 then x87PopStack else [])
      else x87StoreStack Reg.fptos Reg.temp0) (if reg = 2 then [] else if reg = 3 then pop else [mark 0]) := by
    by_cases h2 : reg = 2
    · subst h2
      exact (does_fcomFlags table).append does_nil
    · by_cases h3 : reg = 3
      · subst h3
        exact (does_fcomFlags table).append does_pop
      · rw [if_neg (not_or.2 ⟨h2, h3⟩), if_neg h2, if_neg h3]
        exact does_store Reg.temp0
  have hld : Does env (operandLoad pfx rip Reg.temp1 (o.memRef 2) .opLdx) [] :=
    does_address pfx rip _ _ access_classes.2.1 _ _ h1
  have harith : Does env [arithOp reg false] [] :=
    does_quiet fun u hu => by rw [List.mem_singleton.1 hu]; exact quiet_arithOp reg false h0
  have hop : Does env [.fp .opFcvtQ2d Reg.temp1 Reg.zero Reg.temp1 2, arithOp reg false] [] :=
    (does_fp hst h1 Reg.zero Reg.temp1 2).append harith
  exact (((does_load Reg.fptos h0).append hld).append hop).append hlast

/-- **The uops of a form have its effects**, those of its assist apart. -/
theorem does_uops (f : X87Form) (ha : (f.uops pfx rip table const o).2 = none) :
    Does env (f.uops pfx rip table const o).1 (f.effects env.fault) := by
  obtain ⟨h0, h1⟩ := temps_notMem
  have hstore : ∀ {srcreg : Reg} {memref : MemRef} {int : Bool},
      Does env (addressGenerate pfx rip Reg.mem srcreg memref .opSt int false) [] := fun {_ _ _} =>
    does_toMemory pfx rip _ _ _
  have hcmp : isstore .opFcmpcc = false ∧ isstore .opFcvtD2q = false ∧ isstore .opFcvtD2i = false ∧
      isstore .opFsqrt = false := by decide
  have hload0 := @does_load env Reg.temp0 Reg.fptos h0
  cases f with
  | arith esc reg isReg rm => exact does_arith esc reg isReg rm pfx rip table o
  | fucom pop rm =>
    exact (((((hload0.append (does_offset (.inr (.inr rfl)) rm)).append (does_load Reg.temp2 h1)).append
      (does_fp hcmp.1 h0 _ _ _)).append (does_fcomFlags table)).append (does_popIf pop))
  | fldReg rm =>
    have hlast := ((@does_offset env Reg.temp0 (.inl rfl) rm).append (does_load Reg.temp0 h0)).append (does_push Reg.temp0)
    rw [← List.append_assoc] at hlast
    exact hlast
  | fldMem double => exact does_fldMem pfx rip table const o double
  | fild size => exact does_fild pfx rip table const o size
  | micro a => cases ha
  | turnTos up =>
    intro s₀ k w s hs
    cases up with
    | true => exact hs.turn rfl (step_addTos _ _ _) (by rw [hs.fptos]; exact tos_add k.top 1)
    | false => exact hs.push
  | ffree =>
    intro s₀ k w s hs
    have hreg : k.reg 0 = k.top := add_zero k.top
    have hremap : remap Reg.fptos = Reg.fptos := by decide
    exact @At.tag env _ _ _ _ _ hs nofun false Reg.fptos hremap (by decide) 0 (by rw [hs.fptos, hreg])
  | fisttp64 =>
    exact ((hload0.append (does_fp hcmp.2.1 h0 Reg.zero Reg.temp0 3)).append hstore).append does_pop
  | fisttp size pop =>
    exact ((hload0.append (does_fp hcmp.2.2.1 h0 Reg.zero Reg.temp0 1)).append hstore).append
      (does_popIf pop)
  | fist size pop => cases ha
  | fnop =>
    have hnop : Does env [TransOp.mk3 .opNop Reg.temp0 Reg.zero Reg.zero Reg.zero 3 0] [] := by
      refine does_all ?_
      simp only [List.all, X87Core.quiet, TransOp.mk3, TransOp.init]
      rfl
    exact hnop
  | fstMem double pop => exact does_fstMem pfx rip table const o double pop
  | fstReg rm pop =>
    have hquiet : (x87LoadStack Reg.temp0 Reg.fptos).all (X87Core.quiet [Reg.temp1]) = true := by
      simp only [x87LoadStack, List.all, X87Core.quiet, TransOp.mk3, TransOp.init]
      rfl
    exact (does_sti (.inl rfl) rm Reg.temp0 hquiet).append (does_popIf pop)
  | fstswMem =>
    have hmask : Does env [TransOp.maskFpsw Reg.fptos (64 - 11) 3 (64 - (11 - 3))] [] := by
      refine does_all ?_
      simp only [List.all, X87Core.quiet, TransOp.maskFpsw, TransOp.init]
      rfl
    exact hmask.append hstore
  | fstswAx =>
    have hmask : Does env [TransOp.maskFpsw Reg.fptos (64 - 11) 3 (64 - (11 - 3)),
        .mk3 .opMov Reg.rax Reg.rax Reg.fpsw Reg.zero 1 0] [] := by
      refine does_all ?_
      simp only [List.all, X87Core.quiet, TransOp.maskFpsw, TransOp.mk3, TransOp.init]
      rfl
    exact hmask
  | fxch rm => exact does_fxch rm
  | fldConst rm =>
    have hmov : Does env [TransOp.mk3 .opMov Reg.temp0 Reg.zero Reg.imm Reg.zero 3 (const rm)] [] := by
      refine does_all ?_
      simp only [List.all, X87Core.quiet, TransOp.mk3, TransOp.init]
      rfl
    have hlast := hmov.append (does_push Reg.temp0)
    rw [← List.append_assoc] at hlast
    exact hlast
  | fldcw => cases ha
  | fnstcw =>
    have hld : Does env [{ TransOp.mk3 .opLd Reg.temp1 Reg.ctx Reg.imm Reg.zero 1 FPCW with internal := true }] [] := by
      refine does_all ?_
      simp only [List.all, X87Core.quiet, TransOp.mk3, TransOp.init]
      rfl
    exact hld.append hstore
  | fsqrt => exact (hload0.append (does_fp hcmp.2.2.2 h0 _ _ 2)).append (does_store Reg.temp0)
  | ffreep => exact does_pop
  | fchs =>
    have hsign : Does env [TransOp.mk3 .opXor Reg.temp0 Reg.temp0 Reg.imm Reg.zero 3 (1 <<< 63)] [] := by
      refine does_all ?_
      simp only [List.all, X87Core.quiet, TransOp.mk3, TransOp.init]
      rfl
    exact (hload0.append hsign).append (does_store Reg.temp0)
  | fabs =>
    have hsign : Does env [TransOp.mk3 .opAnd Reg.temp0 Reg.temp0 Reg.imm Reg.zero 3 (~~~(1 <<< 63))] [] := by
      refine does_all ?_
      simp only [List.all, X87Core.quiet, TransOp.mk3, TransOp.init]
      rfl
    exact (hload0.append hsign).append (does_store Reg.temp0)
  | ftst => exact (hload0.append (does_fp hcmp.1 h0 _ _ _)).append (does_fcomFlags table)
  | fucompp rm =>
    exact ((((((hload0.append (does_offset (.inr (.inr rfl)) rm)).append (does_load Reg.temp2 h1)).append
      (does_fp hcmp.1 h0 _ _ _)).append (does_fcomFlags table)).append does_pop).append does_pop)
  | fcmov invert cc rm => exact does_fcmov pfx rip table const o invert cc rm
  | iarith reg => exact does_iarith pfx rip table const o reg
  | fcomi unordered pop rm =>
    have hcomi : Does env [TransOp.init .opFcmpcc Reg.temp0 Reg.temp0 Reg.temp1 Reg.zero (if unordered then 3 else 2) 0 0
        .default] [] := by
      refine does_all ?_
      simp only [List.all, X87Core.quiet, TransOp.init]
      rfl
    exact ((((does_offset (.inr (.inl rfl)) rm).append hload0).append (does_load Reg.temp1 h1)).append hcomi).append
      (does_popIf pop)
  | fld80 => cases ha
  | fstp80 => cases ha

end Forms

end X87Form

/-! ### Assists and their effects -/

namespace X87Core

open StackEffect

variable {env : X87Env} {s₀ s : X87Core} {k : RingStack 8} {w : List (Fin 8)}

theorem setArf_self (c : SeqCore) (r : Reg) (v : W64) : (c.setArf r v).arf r = v := by
  show Function.update c.arf r v r = v
  exact Function.update_self r v c.arf

theorem At.setWord (h : At s₀ k w [] s) (i : Fin 8) (v : W64) : At s₀ k (k.reg i :: w) [] (s.setWord i v) := by
  refine ⟨h.fptos, h.full, h.fptags, h.base, h.zero, fun p hp => ?_, nofun⟩
  rw [List.mem_cons, not_or] at hp
  have hslot : s.slot p ≠ s.slot (s.stack.reg i) := by
    rw [h.stack]
    exact fun heq => hp.1 (slot_inj _ _ ((BitVec.add_right_inj _).1 heq))
  rw [← h.words p hp.2]
  exact Function.update_of_ne hslot _ _

/-- A register other than those of the stack's addresses is set. -/
theorem setArf_fpreg (r : Reg) (hr : r ≠ Reg.fpstack) (v : W64) (p : Fin 8) :
    X87Core.fpreg { s with core := s.core.setArf r v } p = s.fpreg p := by
  have hbase : (s.core.setArf r v).arf Reg.fpstack = s.core.arf Reg.fpstack := Function.update_of_ne hr.symm _ _
  unfold fpreg slot
  dsimp only
  rw [hbase]

theorem At.setTos (h : At s₀ k w [] s) (i : Fin 8) : At s₀ (k.turn i) w [] (s.setTos i) := by
  have hkept : ∀ r : Reg, r ≠ Reg.fptos → (s.setTos i).core.arf r = s.core.arf r := fun r hr =>
    Function.update_of_ne hr _ _
  refine ⟨?_, fun p => ?_, fun j => ?_, ?_, h.zero, fun p hp => ?_, nofun⟩
  · refine (setArf_self s.core Reg.fptos _).trans ?_
    rw [h.fptos]
    exact tos_add k.top i
  · rw [hkept _ (by decide)]
    exact h.full p
  · rw [hkept _ (by decide)]
    exact h.fptags j
  · rw [hkept _ (by decide), h.base]
  · rw [← h.words p hp]
    exact setArf_fpreg Reg.fptos (by decide) _ p

theorem At.setTosTag (h : At s₀ k w [] s) (b : Bool) :
    At s₀ (if b then k.mark 0 else k.free 0) w [] (s.setTosTag b) := by
  have hreg : k.reg 0 = k.top := add_zero k.top
  have hlt : 8 * k.top.val < 64 := by
    have hp := k.top.isLt
    omega
  have hnum : (s.core.arf Reg.fptos).toNat = 8 * k.top.val := by
    rw [h.fptos, BitVec.toNat_ofNat]
    omega
  have hkept : ∀ r : Reg, r ≠ Reg.fptags → (s.setTosTag b).core.arf r = s.core.arf r := fun r hr =>
    Function.update_of_ne hr _ _
  have htags : (s.setTosTag b).core.arf Reg.fptags = BitStrings.setBit (s.core.arf Reg.fptags) (8 * k.top.val) b := by
    refine (setArf_self s.core Reg.fptags _).trans ?_
    rw [hnum]
  have hfull : (if b then k.mark 0 else k.free 0).full = Function.update k.full k.top b := by
    cases b <;>
      · show Function.update k.full (k.reg 0) _ = _
        rw [hreg]
  have htop : (if b then k.mark 0 else k.free 0).top = k.top := by
    cases b <;> rfl
  refine ⟨?_, fun p => ?_, fun j hj => ?_, ?_, h.zero, fun p hp => ?_, nofun⟩
  · rw [hkept _ (by decide), htop, h.fptos]
  · rw [htags, BitStrings.getLsbD_setBit hlt, hfull]
    by_cases heq : p = k.top
    · rw [heq, Function.update_self, if_pos rfl]
    · have hne : 8 * p.val ≠ 8 * k.top.val := fun h => heq (Fin.ext (by omega))
      rw [Function.update_of_ne heq, if_neg hne]
      exact h.full p
  · rw [htags, BitStrings.getLsbD_setBit hlt] at hj
    split at hj
    · omega
    · exact h.fptags j hj
  · rw [hkept _ (by decide), h.base]
  · rw [← h.words p hp]
    exact setArf_fpreg Reg.fptags (by decide) _ p

/-- No tag is set. -/
theorem At.clear (h : At s₀ k w [] s) :
    At s₀ { k with full := fun _ => false } w [] { s with core := s.core.setArf Reg.fptags 0 } := by
  have hkept : ∀ r : Reg, r ≠ Reg.fptags → (s.core.setArf Reg.fptags 0).arf r = s.core.arf r := fun r hr =>
    Function.update_of_ne hr _ _
  have htags : (s.core.setArf Reg.fptags 0).arf Reg.fptags = 0 := setArf_self _ _ _
  refine ⟨?_, fun p => ?_, fun j hj => ?_, ?_, h.zero, fun p hp => ?_, nofun⟩
  · rw [← h.fptos]
    exact hkept _ (by decide)
  · show false = ((s.core.setArf Reg.fptags 0).arf Reg.fptags).getLsbD _
    rw [htags]
    exact (BitVec.getLsbD_zero).symm
  · have hzero : ((s.core.setArf Reg.fptags 0).arf Reg.fptags).getLsbD j = true := hj
    rw [htags, BitVec.ofNat_eq_ofNat, BitVec.getLsbD_zero] at hzero
    cases hzero
  · rw [← h.base]
    exact hkept _ (by decide)
  · rw [← h.words p hp]
    exact setArf_fpreg Reg.fptags (by decide) _ p

/-- **An assist has its effects.** -/
theorem At.assist (h : At s₀ k w [] s) {a : AssistFn} (ha : a ≠ .x87Fist) :
    At s₀ (runs (X87Form.microEffects env.fault a) k) (allWritten (X87Form.microEffects env.fault a) k w) []
      (s.assist env a) := by
  have htop : (k.turn (-1)).reg 0 = k.reg (-1) := add_zero (k.top + -1)
  have hpush : At s₀ ((k.turn (-1)).mark 0) (k.reg (-1) :: k.reg 0 :: w) []
      ((((s.setWord 0 env.st0).setWord (-1) env.st1).setTos (-1)).setTosTag true) :=
    (((h.setWord 0 env.st0).setWord (-1) env.st1).setTos (-1)).setTosTag true
  have hone : ∀ v, At s₀ k (k.reg 0 :: w) [] (s.setWord 0 v) := h.setWord 0
  have htwo : At s₀ k.pop (k.reg 1 :: w) [] (((s.setWord 1 env.st1).setTosTag false).setTos 1) :=
    ((h.setWord 1 env.st1).setTosTag false).setTos 1
  rw [← htop] at hpush
  unfold X87Core.assist
  cases a with
  | x87Fist => exact absurd rfl ha
  | x87Fprem | x87Fprem1 | x87Fscale | x87Fsqrt | x87Fsin | x87Fcos | x87F2xm1 | x87Frndint => exact hone env.st0
  | x87Fyl2x | x87Fyl2xp1 | x87Fpatan => exact htwo
  | x87Fsincos | x87Fptan | x87Fxtract => exact hpush
  | x87Fld80 =>
    dsimp only [X87Form.microEffects]
    split
    · exact h
    · exact ((h.setTos (-1)).setWord 0 env.st0).setTosTag true
  | x87Fstp80 =>
    dsimp only [X87Form.microEffects]
    split
    · exact h
    · exact (h.setTosTag false).setTos 1
  | x87Finit => exact h.clear
  | _ => exact h

end X87Core

namespace X87Form

open X87Core StackEffect

/-- The instruction: its uops, then its assist. -/
def exec (env : X87Env) (pfx : Prefixes) (rip table : W64) (const : Fin 8 → W64) (o : X86Operand) (f : X87Form)
    (s : X87Core) : X87Core :=
  let s' := s.run env (f.uops pfx rip table const o).1
  match (f.uops pfx rip table const o).2 with
  | some a => s'.assist env a
  | none => s'

/-- The low bit of the operand of `x87Fist` is whether it pops. -/
theorem fist_pop : ∀ (size : Fin 4) (p : Bool),
    (BitVec.ofNat 64 (2 ^ size.val * 2 + if p then 1 else 0)).getLsbD 0 = p := by
  decide

/-- **An instruction has the effects of its form.** -/
theorem exec_effects {env : X87Env} {s₀ s : X87Core} {k : RingStack 8} {w : List (Fin 8)} (pfx : Prefixes)
    (rip table : W64) (const : Fin 8 → W64) (o : X86Operand) (f : X87Form) (hf : f ≠ .micro .x87Fist)
    (h : At s₀ k w [] s) : At s₀ (runs (f.effects env.fault) k) (allWritten (f.effects env.fault) k w) []
      (f.exec env pfx rip table const o s) := by
  have hplain : (f.uops pfx rip table const o).2 = none → At s₀ (runs (f.effects env.fault) k)
      (allWritten (f.effects env.fault) k w) [] (f.exec env pfx rip table const o s) := by
    intro ha
    unfold exec
    dsimp only
    rw [ha]
    exact does_uops pfx rip table const o f ha _ _ _ _ h
  have har1 := @does_ar1 env pfx rip (o.memRef 3) true rfl
  cases f with
  | micro a => exact h.assist fun heq => hf (by rw [heq])
  | fist size p =>
    obtain ⟨ar2, har2⟩ : ∃ v : W64, v = BitVec.ofNat 64 (2 ^ size.val * 2 + if p then 1 else 0) := ⟨_, rfl⟩
    have hbit : ar2.getLsbD 0 = p := by
      rw [har2]
      exact fist_pop size p
    have hload : Does env (if size = 2 then [] else x87LoadStack Reg.temp0 Reg.fptos) [] := by
      split
      · exact does_nil
      · exact does_load Reg.fptos (by decide)
    have hmov : Does env [TransOp.mk3 .opMov Reg.ar2 Reg.zero Reg.imm Reg.zero 3 ar2] [] := by
      refine does_all ?_
      simp only [List.all, X87Core.quiet, TransOp.mk3, TransOp.init]
      rfl
    have hrun := ((hload.append har1).append hmov) _ _ _ _ h
    -- the assist reads its operand back from `ar2`: the last uop put it there
    have hvalue : (s.run env (((if size = 2 then [] else x87LoadStack Reg.temp0 Reg.fptos) ++
        addressGenerate pfx rip Reg.ar1 Reg.zero (o.memRef 3) .opAdd true true) ++
        [TransOp.mk3 .opMov Reg.ar2 Reg.zero Reg.imm Reg.zero 3 ar2])).core.arf Reg.ar2 = ar2 := by
      have hclass : isload .opMov = false ∧ isstore .opMov = false := by decide
      have hwritable : Reg.ar2 ≠ Reg.zero ∧ Reg.ar2 ≠ Reg.flags := by decide
      rw [run_append]
      generalize s.run env _ = s'
      show (step env s' (.mk3 .opMov Reg.ar2 Reg.zero Reg.imm Reg.zero 3 ar2)).core.arf Reg.ar2 = ar2
      rw [step_alu hclass.1 hclass.2]
      exact write_arf_rd hwritable.1 hwritable.2 _
    unfold exec
    dsimp only [uops, effects]
    rw [← har2]
    generalize s.run env _ = s' at hrun hvalue ⊢
    unfold X87Core.assist
    dsimp only
    rw [hvalue, hbit]
    split
    · exact hrun
    · split
      · exact hrun.setTos 1
      · exact hrun
  | fldcw =>
    have hld : (isload .opLd || isstore .opLd || Opcode.opLd = .opLdPre) = true := by decide
    have h1 : Reg.temp1 ∉ [Reg.fptos, Reg.fptags, Reg.fpstack] := by decide
    have hst : Does env [{ TransOp.mk3 .opSt Reg.mem Reg.ctx Reg.imm Reg.temp1 1 FPCW with internal := true }] [] := by
      refine does_all ?_
      simp only [List.all, X87Core.quiet, TransOp.mk3, TransOp.init]
      rfl
    exact ((does_address pfx rip _ _ hld _ _ h1).append hst) _ _ _ _ h
  | fld80 => exact @At.assist env _ _ _ _ (har1 _ _ _ _ h) .x87Fld80 nofun
  | fstp80 => exact @At.assist env _ _ _ _ (har1 _ _ _ _ h) .x87Fstp80 nofun
  | _ => exact hplain rfl

end X87Form

end X86Sim
