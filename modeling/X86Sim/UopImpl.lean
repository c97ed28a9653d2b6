import X86Sim.Context

/-!
# Uop implementations (`uopimpl.cpp`)

The integer uops the decoder builds its ALU instructions, addresses and flag updates
from. An implementation computes on the low `8 * 2 ^ size` bits of its operands and
merges the result into `ra`, as `x86_merge` does.
-/

namespace X86Sim

def FLAG_PF : W16 := 0x004
def FLAG_AF : W16 := 0x010
def FLAG_ZF : W16 := 0x040
def FLAG_SF : W16 := 0x080
def FLAG_NOT_WAIT_INV : W16 := FLAG_ZAPS ||| FLAG_CF ||| FLAG_OF

/-- `sizeof(T) * 8` of the type a size stands for. -/
abbrev opWidth (size : ℕ) : ℕ := 8 * 2 ^ size

theorem opWidth_pos (size : ℕ) : 0 < opWidth size := Nat.mul_pos (Nat.zero_lt_succ 7) (Nat.two_pow_pos size)

theorem opWidth_le {size : ℕ} (h : size ≤ 3) : opWidth size ≤ 64 := by
  have hpow : 2 ^ size ≤ 2 ^ 3 := Nat.pow_le_pow_right (by decide) h
  have hw : opWidth size = 8 * 2 ^ size := rfl
  omega

/-- Whether the low byte has an even number of ones. -/
def evenParity {w : ℕ} (r : BitVec w) : Bool :=
  ((List.range 8).filter r.getLsbD).length % 2 == 0

/-- `x86_genflags`. -/
def x86Genflags {w : ℕ} (r : BitVec w) : W16 :=
  (if r.msb then FLAG_SF else 0) ||| (if r = 0 then FLAG_ZF else 0) |||
    (if evenParity r then FLAG_PF else 0)

/-- `x86_merge`: one or two bytes keep the rest of `rd`, four clear the upper half. -/
def x86Merge (size : ℕ) (rd ra : W64) : W64 :=
  match size with
  | 0 => (rd &&& ~~~0xff) ||| (ra &&& 0xff)
  | 1 => (rd &&& ~~~0xffff) ||| (ra &&& 0xffff)
  | 2 => ra &&& 0xffffffff
  | _ => ra

/-- The result of an ALU function on one size, with its carry and overflow. -/
structure AluOut (w : ℕ) where
  result : BitVec w
  cf : Bool
  of : Bool

/-- `x86_aluop2`: addition and subtraction with the carry of `rcflags`. -/
def aluop2 (subtract : Bool) {w : ℕ} (a b : BitVec w) (rcflags : W16) : AluOut w :=
  let carry : BitVec w := if rcflags &&& FLAG_CF ≠ 0 then 1 else 0
  let signBit := (1 : BitVec w) <<< (w - 1)
  if subtract then
    let intermediate := a - b
    let result := intermediate - carry
    ⟨result, a < b || intermediate < carry, ~~~(a ^^^ ~~~b) &&& (a ^^^ result) &&& signBit ≠ 0⟩
  else
    let intermediate := a + b
    let result := intermediate + carry
    ⟨result, intermediate < a || result < intermediate,
      ~~~(a ^^^ b) &&& (a ^^^ result) &&& signBit ≠ 0⟩

/-- `aluop`: the merged result, and the groups of flags the implementation generates. -/
def aluResult {w : ℕ} (size : ℕ) (ra : W64) (genflags : SetFlags) (out : AluOut w) : UopResult where
  rddata := x86Merge size ra (out.result.setWidth 64)
  rdflags := (if genflags.of ∧ out.of then FLAG_OF else 0) ||| (if genflags.cf ∧ out.cf then FLAG_CF else 0) |||
    (if genflags.zf then x86Genflags out.result else 0)

/-- The groups generated: the whole set of the implementation, or none. -/
def SetFlags.gen (s flagset : SetFlags) : SetFlags := if s = .none then .none else flagset

def SetFlags.zaps : SetFlags := ⟨true, false, false⟩
def SetFlags.all : SetFlags := ⟨true, true, true⟩

/-- `make_exp_aluop` of a function of two operands without carry or overflow. -/
def expAluop (f : ∀ w, BitVec w → BitVec w → BitVec w) (op : TransOp) (i : UopInputs) : UopResult :=
  aluResult op.size i.ra (op.setflags.gen .zaps)
    ⟨f (opWidth op.size) (i.ra.setWidth _) (i.rb.setWidth _), false, false⟩

/-- The functions of `OP_add` and `OP_sub`. -/
def x86Aluop (subtract : Bool) (op : TransOp) (i : UopInputs) : UopResult :=
  aluResult op.size i.ra (op.setflags.gen .all)
    (aluop2 (w := opWidth op.size) subtract (i.ra.setWidth _) (i.rb.setWidth _) i.rcflags)

/-- `aluop3s`: three operands, the last shifted. It generates flags of its own accord. -/
def aluop3s (f : ∀ w, BitVec w → BitVec w → BitVec w → BitVec w) (op : TransOp) (i : UopInputs) : UopResult :=
  let rt := f (opWidth op.size) (i.ra.setWidth _) (i.rb.setWidth _) ((i.rc <<< op.extshift).setWidth _)
  ⟨x86Merge op.size i.ra (rt.setWidth 64), x86Genflags rt⟩

/-- `exp_op_mov`. -/
def expMov (op : TransOp) (i : UopInputs) : UopResult := ⟨x86Merge op.size i.ra i.rb, i.rbflags⟩

/-- `bitmask`. -/
def bitmask (l : ℕ) : W64 := if l = 64 then -1 else (1 <<< l) - 1

/-- `signext64`. -/
def signext64 (x : W64) (i : ℕ) : W64 := (x <<< (64 - i)).sshiftRight (64 - i)

/-- `MaskControlInfo`. -/
def maskControlInfo (ms mc ds : ℕ) : W64 := BitVec.ofNat 64 (ms % 64 + mc % 64 * 2 ^ 6 + ds % 64 * 2 ^ 12)

/-- `exp_op_mask`; the extension is the `cond` of the uop. -/
def expMask (op : TransOp) (i : UopInputs) : UopResult :=
  let w := opWidth op.size
  let ms := i.rc.toNat % 64
  let mc := i.rc.toNat / 2 ^ 6 % 64
  let ds := i.rc.toNat / 2 ^ 12 % 64
  let m : W64 := (((bitmask mc).setWidth w).rotateRight ms).setWidth 64
  let rd := (i.ra &&& ~~~m) ||| (((i.rb.setWidth w).rotateRight ds).setWidth 64 &&& m)
  let rd := if op.cond = 1 then rd &&& bitmask (ms + mc) else if op.cond = 2 then signext64 rd (ms + mc) else rd
  let flags := x86Genflags (rd.setWidth w)
  ⟨x86Merge op.size i.ra rd, flags ||| (i.raflags &&& FLAG_CF) |||
    if (flags &&& FLAG_SF ≠ 0) ≠ (i.raflags &&& FLAG_OF ≠ 0) then FLAG_OF else 0⟩

/-- `uop_impl_collcc`. -/
def collcc (i : UopInputs) : UopResult :=
  let flags := (i.raflags &&& FLAG_ZAPS) ||| (i.rbflags &&& FLAG_CF) ||| (i.rcflags &&& FLAG_OF)
  ⟨flags.setWidth 64, flags⟩

/-- The flag uops `andcc`, `orcc`, `ornotcc` and `xorcc`. -/
def flagsOp (f : W16 → W16 → W16) (i : UopInputs) : UopResult :=
  ⟨0, f i.raflags i.rbflags &&& FLAG_NOT_WAIT_INV⟩

/-- `uop_impl_movrcc`. -/
def movrcc (i : UopInputs) : UopResult :=
  let flags := i.rb.setWidth 16 &&& FLAG_NOT_WAIT_INV
  ⟨flags.setWidth 64, flags⟩

/-- `get_synthcode_for_uop`, of the uops modelled. -/
def uopImpl (op : TransOp) : Option (UopInputs → UopResult) :=
  match op.opcode with
  | .opNop => some fun _ => ⟨0, 0⟩
  | .opMov => some (expMov op)
  | .opAnd => some (expAluop (fun _ a b => a &&& b) op)
  | .opOr => some (expAluop (fun _ a b => a ||| b) op)
  | .opXor => some (expAluop (fun _ a b => a ^^^ b) op)
  | .opAndnot => some (expAluop (fun _ a b => ~~~a &&& b) op)
  | .opOrnot => some (expAluop (fun _ a b => ~~~a ||| b) op)
  | .opNand => some (expAluop (fun _ a b => ~~~(a &&& b)) op)
  | .opNor => some (expAluop (fun _ a b => ~~~(a ||| b)) op)
  | .opEqv => some (expAluop (fun _ a b => ~~~(a ^^^ b)) op)
  | .opAdd => some (x86Aluop false op)
  | .opSub => some (x86Aluop true op)
  | .opAdda => some (aluop3s (fun _ a b c => a + b + c) op)
  | .opSuba => some (aluop3s (fun _ a b c => a - b + c) op)
  | .opMaskb => some (expMask op)
  | .opMask => some (expMask op)
  | .opCollcc => some collcc
  | .opMovrcc => some movrcc
  | .opMovccr => some fun i => ⟨i.rbflags.setWidth 64, i.rbflags⟩
  | .opAndcc => some (flagsOp fun a b => a &&& b)
  | .opOrcc => some (flagsOp fun a b => a ||| b)
  | .opOrnotcc => some (flagsOp fun a b => a ||| ~~~b)
  | .opXorcc => some (flagsOp fun a b => a ^^^ b)
  | _ => none

/-- The implementations, with `rest` for the uops not modelled. -/
def Synthop.withImpl (rest : Synthop) : Synthop := fun op i =>
  match uopImpl op with
  | some f => f i
  | none => rest op i

end X86Sim
