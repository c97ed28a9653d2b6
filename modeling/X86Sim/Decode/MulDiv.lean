import X86Sim.Arith.SignedDivision
import X86Sim.Decode.DoubleShifts

/-!
# Multiplication and division of one operand (`decode-complex.cpp`, `uopimpl.cpp`)

The product of `rax` and an operand has a uop for each half. A quotient and a remainder have
a uop each too, and both of them fault.
-/

namespace X86Sim

open X86Sim.Seq X86Sim.Seq.SeqCore

/-- `REG_temp10`. -/
def Reg.temp10 : Reg := 79

/-- `x86_mul` of `MulKind::HighSigned` and `MulKind::HighUnsigned`. -/
def mulHigh {w : ℕ} (signed : Bool) (a b : BitVec w) : AluOut w :=
  if signed then
    let sprod := a.toInt * b.toInt
    let cf : Bool := sprod ≠ (BitVec.ofInt w sprod).toInt
    ⟨BitVec.ofInt w (sprod / 2 ^ w), cf, cf⟩
  else
    let uprod := a.toNat * b.toNat
    let cf : Bool := uprod / 2 ^ w ≠ 0
    ⟨BitVec.ofNat w (uprod / 2 ^ w), cf, cf⟩

/-- `x86_op_mulh` and `x86_op_mulhu`. -/
def mulh (signed : Bool) (op : TransOp) (i : UopInputs) : UopResult :=
  aluResult op.size i.ra (op.setflags.gen .all) (mulHigh (w := opWidth op.size) signed (i.ra.setWidth _) (i.rb.setWidth _))

/-- The implementations, with those of multiplication and division. Where the host's division traps there is
no result, and any is taken. -/
def Synthop.withMulDiv (rest : Synthop) : Synthop := fun op i =>
  match op.opcode with
  | .opMull => mull op i
  | .opMulh => mulh true op i
  | .opMulhu => mulh false op i
  | .opDiv => x86Div op.size i
  | .opRem => x86Rem op.size i
  | .opDivs => (x86Divs op.size i).getD (rest op i)
  | .opRems => (x86Rems op.size i).getD (rest op i)
  | _ => rest op i

/-- `mul`, `imul`, `div` or `idiv` of one operand. -/
structure MulDiv where
  divide : Bool
  signed : Bool
  rd : Operand

namespace MulDiv

variable (insn : MulDiv) (pfx : Prefixes) (rip : W64) (c : SeqCore)

/-- `move_reg_or_mem` to a temporary. -/
def moveTo (t : Reg) : Operand → List TransOp
  | .reg r =>
    if r.hibyte then [.init .opMaskb t t r.arch Reg.imm 3 0 (maskControlInfo 0 8 8) .none]
    else [.mk3 .opMov t Reg.zero r.arch Reg.zero 3 0]
  | .mem o size => operandLoad pfx rip t (o.memRef size) .opLd

/-- The register of the source of a product; one in memory is loaded to `temp4`. -/
def srcreg : Reg :=
  match insn.rd with
  | .reg r => r.arch
  | .mem _ _ => Reg.temp4

def load : List TransOp :=
  match insn.rd with
  | .reg _ => []
  | .mem _ _ => moveTo pfx rip Reg.temp4 insn.rd

/-- `SETFLAG_CF | SETFLAG_OF`. -/
def setflags : SetFlags := ⟨false, true, true⟩

/-- The register of the high half: bytes go to `ah` by way of a temporary. -/
def highreg : Reg := if insn.rd.sizeshift = 0 then Reg.temp1 else Reg.rdx

/-- The product; `collect` is `no_partial_flag_updates_per_insn`. -/
def decodeMul (collect : Bool) : List TransOp :=
  let size := insn.rd.sizeshift
  let highop : Opcode := if insn.signed then .opMulh else .opMulhu
  insn.load pfx rip ++
    ([.mk3 .opMov Reg.temp0 Reg.zero insn.srcreg Reg.zero 3 0,
      .init highop insn.highreg Reg.rax Reg.temp0 Reg.zero size 0 0 setflags,
      .mk3 .opMull Reg.rax Reg.rax Reg.temp0 Reg.zero size 0] ++
    ((if size = 0 then [.insertHigh Reg.rax Reg.temp1] else []) ++
    if collect then [.init .opCollcc Reg.temp10 Reg.zf Reg.cf Reg.of 3 0 0 .default] else []))

/-- The quotient and the remainder. -/
def decodeDiv : List TransOp :=
  let size := insn.rd.sizeshift
  let divop : Opcode := if insn.signed then .opDivs else .opDiv
  let remop : Opcode := if insn.signed then .opRems else .opRem
  let hireg := if size = 0 then Reg.temp3 else Reg.rdx
  moveTo pfx rip Reg.temp2 insn.rd ++
    ((if size = 0 then [TransOp.extractHigh Reg.temp3 Reg.rax] else []) ++
    ([.mk3 divop Reg.temp0 hireg Reg.rax Reg.temp2 size 0, .mk3 remop Reg.temp1 hireg Reg.rax Reg.temp2 size 0,
      .mk3 .opMov Reg.rax Reg.rax Reg.temp0 Reg.zero size 0] ++
    if size = 0 then [.insertHigh Reg.rax Reg.temp1] else [.mk3 .opMov Reg.rdx Reg.rdx Reg.temp1 Reg.zero size 0]))

/-- `decode_complex` (0xf6 and 0xf7, 4 to 7). -/
def decode (collect : Bool) : List TransOp :=
  if insn.divide then insn.decodeDiv pfx rip else insn.decodeMul pfx rip collect

/-! ### What x86 says -/

/-- A word as a number. -/
def number {w : ℕ} (signed : Bool) (v : BitVec w) : ℤ := if signed then v.toInt else v.toNat

/-- The numbers of `w` bits. -/
def InRange (signed : Bool) (w : ℕ) (n : ℤ) : Prop :=
  if signed then -2 ^ (w - 1) ≤ n ∧ n < 2 ^ (w - 1) else 0 ≤ n ∧ n < 2 ^ w

instance (signed : Bool) (w : ℕ) (n : ℤ) : Decidable (InRange signed w n) := inferInstanceAs
  (Decidable (if signed then -2 ^ (w - 1) ≤ n ∧ n < 2 ^ (w - 1) else 0 ≤ n ∧ n < 2 ^ w))

/-- `al`, `ax`, `eax` or `rax`. -/
def low : BitVec (opWidth insn.rd.sizeshift) := (c.arf Reg.rax).setWidth _

/-- `ah`, `dx`, `edx` or `rdx`. -/
def high : BitVec (opWidth insn.rd.sizeshift) :=
  if insn.rd.sizeshift = 0 then (c.arf Reg.rax >>> 8).setWidth _ else (c.arf Reg.rdx).setWidth _

variable (v : BitVec (opWidth insn.rd.sizeshift))

/-- The product with an operand `v`, and the quotient by one. -/
def product : ℤ := number insn.signed (insn.low c) * number insn.signed v

def dividend : ℤ := number insn.signed (insn.high c) * 2 ^ opWidth insn.rd.sizeshift + (insn.low c).toNat

def divisor : ℤ := number insn.signed v

/-- A register operand of that size. -/
def sized : ℕ → Apr
  | 0 => .b 0 | 1 => .w 0 | 2 => .d 0 | _ => .q 0

/-- A register after its low bytes are written. -/
def put (size : ℕ) (old v : W64) : W64 := (sized size).write old (v.setWidth _)

/-- A register after its two low bytes are written. -/
def pair (old : W64) (lo hi : BitVec 8) : W64 := (Apr.hi 0).write (put 0 old (lo.setWidth 64)) hi

/-- `lo` and `hi` are written to `al` and `ah`, or to `rax` and `rdx` in that size, and nothing else but flags. -/
def Written (lo hi : BitVec (opWidth insn.rd.sizeshift)) (c' : SeqCore) : Prop :=
  (∀ r : Reg, r.isArch = true → r ≠ Reg.flags → c'.arf r =
    if r = Reg.rax then
      if insn.rd.sizeshift = 0 then pair (c.arf r) (lo.setWidth 8) (hi.setWidth 8)
      else put insn.rd.sizeshift (c.arf r) (lo.setWidth 64)
    else if r = Reg.rdx ∧ insn.rd.sizeshift ≠ 0 then put insn.rd.sizeshift (c.arf r) (hi.setWidth 64)
    else c.arf r) ∧ c'.space.bytes = c.space.bytes

/-- A product is right: both halves, and in `CF` and `OF` whether the low one is enough. -/
structure Multiplied (c' : SeqCore) : Prop where
  result : insn.Written c (BitVec.ofInt _ (insn.product c v))
    (BitVec.ofInt _ (insn.product c v / 2 ^ opWidth insn.rd.sizeshift)) c'
  carry : (c'.arf Reg.flags).getLsbD 0 = !decide (InRange insn.signed (opWidth insn.rd.sizeshift) (insn.product c v))
  overflow : (c'.arf Reg.flags).getLsbD 11 = !decide (InRange insn.signed (opWidth insn.rd.sizeshift) (insn.product c v))

/-- The quotient rounded to zero, and what it leaves. -/
def quotient : BitVec (opWidth insn.rd.sizeshift) := BitVec.ofInt _ ((insn.dividend c).tdiv (insn.divisor v))

def remainder : BitVec (opWidth insn.rd.sizeshift) := BitVec.ofInt _ ((insn.dividend c).tmod (insn.divisor v))

/-- A division is right. -/
def Divided (c' : SeqCore) : Prop := insn.Written c (insn.quotient c v) (insn.remainder c v) c'

/-- There is a quotient, and it fits. -/
def Divides : Prop :=
  insn.divisor v ≠ 0 ∧ InRange insn.signed (opWidth insn.rd.sizeshift) ((insn.dividend c).tdiv (insn.divisor v))

/-- The uops stop with an exception, before any register or any byte of memory changes. -/
def Raises (exec : Synthop) (ops : List TransOp) (exception : InternalException) (c : SeqCore) : Prop :=
  ∀ junk, ∃ c', perform exec ops junk c = .error (c', .exception { c'.ctx with exception := exception.code }) ∧
    (∀ r : Reg, r.isArch = true → c'.arf r = c.arf r) ∧ c'.space.bytes = c.space.bytes

/-- The host traps in the middle of a signed division. -/
def Traps : Prop :=
  insn.divide = true ∧ insn.signed = true ∧ divRemSOf (insn.high c) (insn.low c) (insn.rd.value pfx rip c) = none

/-- An instruction does what x86 says. -/
def Right (exec : Synthop) (collect : Bool) : Prop :=
  let v := insn.rd.x86Value pfx rip c
  if insn.divide then ¬insn.Traps pfx rip c ∧
    (insn.Divides c v → Wp exec (insn.decode pfx rip collect) (insn.Divided c v) c) ∧
    (¬insn.Divides c v → Raises exec (insn.decode pfx rip collect) .divideOverflow c)
  else Wp exec (insn.decode pfx rip collect) (insn.Multiplied c v) c

/-- The word that is multiplied by: of a high byte the register's. -/
def taken : BitVec (opWidth insn.rd.sizeshift) :=
  match insn.rd with
  | .reg r => (c.arf r.arch).setWidth _
  | .mem o size => (Operand.mem o size).value pfx rip c

/-- The signed division meets one of its two flaws. -/
def Flawed : Prop :=
  insn.signed = true ∧ (LosesDivisor (insn.dividend c) (insn.divisor v) ∨
    insn.rd.sizeshift = 2 ∧ insn.dividend c = -2 ^ 63 ∧ insn.divisor v = -1)

/-- Two divisors have the same quotient and remainder, or neither has any. -/
def SameQuotient (v' : BitVec (opWidth insn.rd.sizeshift)) : Prop :=
  (insn.Divides c v ↔ insn.Divides c v') ∧
    (insn.Divides c v → insn.quotient c v = insn.quotient c v' ∧ insn.remainder c v = insn.remainder c v')

/-- When it does. The word that is multiplied by is the operand, or makes no difference (of a high byte the product
takes the low one); the product of 16 bits gives `rdx` the upper bits of `rax`; and the divisor the uops load
meets no flaw and has the quotient of the operand. -/
def Exact : Prop :=
  insn.rd.Accessible pfx rip c false ∧
    if insn.divide then ¬insn.Flawed c (insn.rd.value pfx rip c) ∧
      insn.SameQuotient c (insn.rd.value pfx rip c) (insn.rd.x86Value pfx rip c)
    else (insn.low c = 0 ∨ insn.taken pfx rip c = insn.rd.x86Value pfx rip c) ∧
      (insn.rd.sizeshift = 1 → c.arf Reg.rax >>> 16 = c.arf Reg.rdx >>> 16)

/-- No general register's flags say that there is an exception in it. -/
def Clean : Prop := ∀ r : Reg, r.val < 16 → c.arflags r &&& FLAG_INV = 0

instance : Decidable (Clean c) := inferInstanceAs (Decidable (∀ r : Reg, r.val < 16 → c.arflags r &&& FLAG_INV = 0))

/-- They are cleared with the core's registers; a result that has an exception is not written. -/
theorem clean_externalToCoreState : Clean c.externalToCoreState := by
  intro r hr
  have hne : r ≠ Reg.flags := by
    rintro rfl
    exact absurd hr (by decide)
  unfold SeqCore.externalToCoreState
  simp only [hne, if_false]
  decide

/-! ### The uops -/

variable (rest : Synthop) {insn} {pfx} {rip} {c} {v}

/-- A uop that sets no flags: its register, the rest left, and the status in the register. -/
theorem wp_silent {exec : Synthop} {op : TransOp} (hmem : isMem op = false) (hsse : op.isSse = false) (hx87 : op.isX87 = false)
    (hset : op.setflags = .none) (hno : op.nouserflags = false) (h : c.Ready) (hw : Writable op.rd) {result : UopResult}
    (hexec : exec op (c.inputs op) = result) (hinv : result.rdflags &&& FLAG_INV = 0) : Wp exec [op] (fun c' =>
      Leaves [op.rd] c.space.bytes c c' ∧ c'.arf op.rd = result.rddata ∧ c'.arflags op.rd = result.rdflags) c := by
  refine Triples.wp_mono (wp_flagged hmem hsse hx87 hno h hw hexec hinv) ?_
  rintro c' ⟨hl, hv, hf, hflags⟩
  rw [hset] at hflags
  exact ⟨Leaves.of_flags hl h hflags.none, hv, hf⟩

/-- `mov` of a register. -/
theorem wp_mov (h : c.Ready) {rd rb : Reg} (hw : Writable rd) (ra : Reg) (hrb : rb ≠ Reg.imm) (size : ℕ)
    (hinv : c.arflags (remap rb) &&& FLAG_INV = 0) :
    Wp rest.withImpl [.mk3 .opMov rd ra rb Reg.zero size 0] (fun c' => Leaves [rd] c.space.bytes c c' ∧
      c'.arf rd = x86Merge size (c.arf (remap ra)) (c.arf (remap rb)) ∧ c'.arflags rd = c.arflags (remap rb)) c := by
  have hmem : isMem (.mk3 .opMov rd ra rb Reg.zero size 0) = false := by
    have hclass : (isload .opMov || isstore .opMov) = false := by decide
    exact hclass
  have hresult : rest.withImpl (.mk3 .opMov rd ra rb Reg.zero size 0) (c.inputs (.mk3 .opMov rd ra rb Reg.zero size 0)) =
      ⟨x86Merge size (c.arf (remap ra)) (c.arf (remap rb)), c.arflags (remap rb)⟩ := by
    refine congrArg₂ UopResult.mk ?_ rfl
    show x86Merge size (c.arf (remap ra)) (if rb = Reg.imm then 0 else c.arf (remap rb)) = _
    rw [if_neg hrb]
  exact wp_silent hmem rfl rfl rfl rfl h hw hresult hinv

/-- The insertion of a byte into `ah`. -/
theorem wp_insertHigh (h : c.Ready) {t : Reg} (ht : remap t = t) (himm : t ≠ Reg.imm) :
    Wp rest.withImpl [.insertHigh Reg.rax t] (fun c' => Leaves [Reg.rax] c.space.bytes c c' ∧
      c'.arf Reg.rax = (Apr.hi 0).write (c.arf Reg.rax) ((c.arf t).setWidth _)) c := by
  have hw : Writable Reg.rax := ⟨by decide, by decide, by decide⟩
  have hmem : isMem (.insertHigh Reg.rax t) = false := by
    have hclass : (isload .opMaskb || isstore .opMaskb) = false := by decide
    exact hclass
  have hrax : remap Reg.rax = Reg.rax := by decide
  have hin : (c.inputs (.insertHigh Reg.rax t)).ra = c.arf Reg.rax ∧ (c.inputs (.insertHigh Reg.rax t)).rb = c.arf t := by
    refine ⟨congrArg c.arf hrax, ?_⟩
    show (if t = Reg.imm then _ else c.arf (remap t)) = _
    rw [if_neg himm, ht]
  refine Triples.wp_mono (wp_silent hmem rfl rfl rfl rfl h hw rfl (expMask_inv _ _)) fun c' hc' => ⟨hc'.1, hc'.2.1.trans ?_⟩
  refine (expMask_insert Reg.rax t (c.inputs (.insertHigh Reg.rax t)) rfl).trans ?_
  rw [hin.1, hin.2]
  rfl

/-- The extraction of `ah`, or of another high byte, to the low byte of a temporary. -/
theorem wp_extract (h : c.Ready) {t ra r : Reg} (hw : Writable t) (hr : remap r = r) (himm : r ≠ Reg.imm) :
    Wp rest.withImpl [.init .opMaskb t ra r Reg.imm 3 0 (maskControlInfo 0 8 8) .none] (fun c' => Leaves [t] c.space.bytes c c' ∧
      (c'.arf t).setWidth 8 = (c.arf r >>> 8).setWidth 8) c := by
  obtain ⟨op, hop⟩ : ∃ op : TransOp, op = .init .opMaskb t ra r Reg.imm 3 0 (maskControlInfo 0 8 8) .none := ⟨_, rfl⟩
  have hmem : isMem op = false := by
    have hclass : (isload .opMaskb || isstore .opMaskb) = false := by decide
    rw [hop]
    exact hclass
  have hrb : (c.inputs op).rb = c.arf r := by
    rw [hop]
    show (if r = Reg.imm then _ else c.arf (remap r)) = _
    rw [if_neg himm, hr]
  have hexec : rest.withImpl op (c.inputs op) = expMask op (c.inputs op) := by
    rw [hop]
    rfl
  have hrd : op.rd = t := by rw [hop]; rfl
  have hsame : expMask op (c.inputs op) = expMask (.extractHigh t r) (c.inputs op) := by
    rw [hop]
    rfl
  rw [← hop]
  refine Triples.wp_mono (wp_silent hmem (by rw [hop]; rfl) (by rw [hop]; rfl) (by rw [hop]; rfl) (by rw [hop]; rfl) h
    (by rw [hrd]; exact hw) hexec (expMask_inv _ _)) ?_
  rintro c' ⟨hl, hv, -⟩
  rw [hrd] at hl hv
  refine ⟨hl, ?_⟩
  have hones : (BitVec.allOnes 8).setWidth 64 = (0xff : W64) := by decide
  have hdata := expMask_extract t r (c.inputs op) (by rw [hop]; rfl)
  rw [← hsame, hrb, ← hones] at hdata
  rw [hv, hdata]
  exact setWidth_merge 8 _ _

/-- The low half of a product is the same for both kinds of numbers. -/
theorem ofInt_number {w : ℕ} (signed : Bool) (v : BitVec w) : BitVec.ofInt w (number signed v) = v := by
  unfold number
  cases signed with
  | true => exact BitVec.ofInt_toInt
  | false => exact (BitVec.ofInt_natCast _ _).trans ((BitVec.ofNat_toNat _ _).trans (BitVec.setWidth_eq _))

theorem low_product {w : ℕ} (signed : Bool) (a b : BitVec w) :
    BitVec.ofInt w (a.toInt * b.toInt) = BitVec.ofInt w (number signed a * number signed b) := by
  have hsame : ∀ s, BitVec.ofInt w (number s a * number s b) = a * b := fun s => by
    rw [BitVec.ofInt_mul, ofInt_number, ofInt_number]
  exact (hsame true).trans (hsame signed).symm

/-- The high half, and whether there is any. -/
theorem mulHigh_eq {w : ℕ} (hw : 0 < w) (signed : Bool) (a b : BitVec w) :
    let p := number signed a * number signed b
    mulHigh signed a b = ⟨BitVec.ofInt w (p / 2 ^ w), !decide (InRange signed w p), !decide (InRange signed w p)⟩ := by
  intro p
  cases signed with
  | true =>
    have hfits : decide (p ≠ (BitVec.ofInt w p).toInt) = !decide (InRange true w p) := by
      rw [← decide_not, decide_eq_decide]
      exact ImulInsn.fits_iff hw p
    show AluOut.mk (BitVec.ofInt w (p / 2 ^ w)) (decide (p ≠ (BitVec.ofInt w p).toInt)) (decide (p ≠ (BitVec.ofInt w p).toInt)) = _
    rw [hfits]
  | false =>
    have hp : p = ((a.toNat * b.toNat : ℕ) : ℤ) := by push_cast; rfl
    have hpow : ((2 : ℤ) ^ w) = ((2 ^ w : ℕ) : ℤ) := by push_cast; rfl
    have hfits : decide (a.toNat * b.toNat / 2 ^ w ≠ 0) = !decide (InRange false w p) := by
      rw [← decide_not, decide_eq_decide]
      show _ ↔ ¬(0 ≤ p ∧ p < 2 ^ w)
      have hpos := Nat.two_pow_pos w
      rw [hp, hpow, ne_eq, Nat.div_eq_zero_iff]
      omega
    show AluOut.mk _ (decide (a.toNat * b.toNat / 2 ^ w ≠ 0)) (decide (a.toNat * b.toNat / 2 ^ w ≠ 0)) = _
    rw [hfits, hp, hpow, ← Int.natCast_ediv, BitVec.ofInt_natCast]

/-- The uop of the low half. -/
theorem wp_mull (h : c.Ready) {size : ℕ} {v : BitVec (opWidth size)} (hv : (c.arf Reg.temp0).setWidth _ = v) (signed : Bool) :
    Wp rest.withMulDiv.withImpl [.mk3 .opMull Reg.rax Reg.rax Reg.temp0 Reg.zero size 0] (fun c' =>
      Leaves [Reg.rax] c.space.bytes c c' ∧ c'.arf Reg.rax = x86Merge size (c.arf Reg.rax)
        ((BitVec.ofInt (opWidth size) (number signed ((c.arf Reg.rax).setWidth (opWidth size)) * number signed v)).setWidth 64)) c := by
  have hw : Writable Reg.rax := ⟨by decide, by decide, by decide⟩
  have hregs : remap Reg.rax = Reg.rax ∧ remap Reg.temp0 = Reg.temp0 ∧ Reg.temp0 ≠ Reg.imm := by decide
  obtain ⟨op, hop⟩ : ∃ op : TransOp, op = .mk3 .opMull Reg.rax Reg.rax Reg.temp0 Reg.zero size 0 := ⟨_, rfl⟩
  have hmem : isMem op = false := by
    have hclass : (isload .opMull || isstore .opMull) = false := by decide
    rw [hop]
    exact hclass
  have hra : (c.inputs op).ra = c.arf Reg.rax := by
    rw [hop]
    exact congrArg c.arf hregs.1
  have hrb : (c.inputs op).rb = c.arf Reg.temp0 := by
    rw [hop]
    show (if Reg.temp0 = Reg.imm then 0 else c.arf (remap Reg.temp0)) = _
    rw [if_neg hregs.2.2, hregs.2.1]
  have hrd : op.rd = Reg.rax := by rw [hop]; rfl
  have hexec : rest.withMulDiv.withImpl op (c.inputs op) = aluResult size (c.arf Reg.rax) .none
      (mulLow ((c.arf Reg.rax).setWidth (opWidth size)) ((c.arf Reg.temp0).setWidth (opWidth size))) := by
    have hmull : rest.withMulDiv.withImpl op (c.inputs op) = aluResult size (c.inputs op).ra .none
        (mulLow ((c.inputs op).ra.setWidth (opWidth size)) ((c.inputs op).rb.setWidth (opWidth size))) := by
      rw [hop]
      rfl
    rw [hmull, hra, hrb]
  have hflags : ∀ out : AluOut (opWidth size), (aluResult size (c.arf Reg.rax) .none out).rdflags &&& FLAG_INV = 0 := fun out => by
    have hzero : (0 : W16) ||| 0 ||| 0 &&& FLAG_INV = 0 := by decide
    have hnone : SetFlags.none.of = false ∧ SetFlags.none.cf = false ∧ SetFlags.none.zf = false := ⟨rfl, rfl, rfl⟩
    unfold aluResult
    simp [hnone]
  rw [← hop]
  refine Triples.wp_mono (wp_silent hmem (by rw [hop]; rfl) (by rw [hop]; rfl) (by rw [hop]; rfl) (by rw [hop]; rfl) h
    (by rw [hrd]; exact hw) hexec (hflags _)) ?_
  rintro c' ⟨hl, hvalue, -⟩
  rw [hrd] at hl hvalue
  refine ⟨hl, hvalue.trans ?_⟩
  rw [hv]
  show x86Merge size (c.arf Reg.rax) ((BitVec.ofInt (opWidth size) (_ * _)).setWidth 64) = _
  rw [low_product signed]

/-- The uop of the high half. -/
theorem wp_mulh (h : c.Ready) {size : ℕ} {v : BitVec (opWidth size)} (hv : (c.arf Reg.temp0).setWidth _ = v) (signed : Bool)
    {rd : Reg} (hw : Writable rd) :
    let p := number signed ((c.arf Reg.rax).setWidth (opWidth size)) * number signed v
    let hi := BitVec.ofInt (opWidth size) (p / 2 ^ opWidth size)
    let cf := !decide (InRange signed (opWidth size) p)
    Wp rest.withMulDiv.withImpl [.init (if signed then .opMulh else .opMulhu) rd Reg.rax Reg.temp0 Reg.zero size 0 0 setflags]
      (fun c' => Leaves [rd, Reg.flags] c.space.bytes c c' ∧ c'.arf rd = x86Merge size (c.arf Reg.rax) (hi.setWidth 64) ∧
        FlagsSet setflags (statusOf hi cf cf).word c c') c := by
  intro p hi cf
  have hregs : remap Reg.rax = Reg.rax ∧ remap Reg.temp0 = Reg.temp0 ∧ Reg.temp0 ≠ Reg.imm := by decide
  obtain ⟨op, hop⟩ : ∃ op : TransOp, op = .init (if signed then .opMulh else .opMulhu) rd Reg.rax Reg.temp0 Reg.zero size 0 0
    setflags := ⟨_, rfl⟩
  have hmem : isMem op = false := by
    have hall : ∀ s : Bool, (isload (if s then .opMulh else .opMulhu) || isstore (if s then .opMulh else .opMulhu)) = false := by
      decide
    rw [hop]
    exact hall signed
  have hra : (c.inputs op).ra = c.arf Reg.rax := by
    rw [hop]
    exact congrArg c.arf hregs.1
  have hrb : (c.inputs op).rb = c.arf Reg.temp0 := by
    rw [hop]
    show (if Reg.temp0 = Reg.imm then 0 else c.arf (remap Reg.temp0)) = _
    rw [if_neg hregs.2.2, hregs.2.1]
  have hrd : op.rd = rd := by rw [hop]; rfl
  have hset : op.setflags = setflags := by rw [hop]; rfl
  have hexec : rest.withMulDiv.withImpl op (c.inputs op) = ⟨x86Merge size (c.arf Reg.rax) (hi.setWidth 64), (statusOf hi cf cf).word⟩ := by
    have hmulh : rest.withMulDiv.withImpl op (c.inputs op) = aluResult size (c.inputs op).ra .all
        (mulHigh signed ((c.inputs op).ra.setWidth (opWidth size)) ((c.inputs op).rb.setWidth (opWidth size))) := by
      rw [hop]
      cases signed <;> rfl
    rw [hmulh, hra, hrb, hv, mulHigh_eq (opWidth_pos size)]
    exact congrArg₂ UopResult.mk rfl (aluResult_flags size (c.arf Reg.rax) .all ⟨hi, cf, cf⟩ rfl (.inl ⟨rfl, rfl⟩))
  rw [← hop]
  refine Triples.wp_mono (wp_result_flags hmem (by rw [hop]; rfl) (by rw [hop]; rfl) (by rw [hop]; rfl) h
    (by rw [hrd]; exact hw) hexec (Status.word_inv _)) ?_
  rintro c' ⟨hl, hvalue, hflags⟩
  rw [hrd] at hl hvalue
  rw [hset] at hflags
  exact ⟨hl, hvalue, hflags⟩

/-! ### Products -/

theorem put_eq {size : ℕ} (hsize : size ≤ 3) (old v : W64) : put size old v = x86Merge size old v := by
  have hall : ∀ size ≤ 3, (sized size).sizeshift = size ∧ (sized size).hibyte = false := by decide
  obtain ⟨hs, hlow⟩ := hall size hsize
  unfold put
  rw [Apr.write_eq _ hlow, x86Merge_trunc (sized size).sizeshift_le, hs]

/-- The temporaries of a source. -/
def sourceTemps : List Reg := [Reg.temp6, Reg.temp8, Reg.temp4, Reg.temp4, Reg.temp9, Reg.temp0]

/-- The source is in `temp0`. -/
theorem wp_source (h : c.Ready) (hclean : Clean c) (hacc : insn.rd.Accessible pfx rip c false) :
    Wp rest.withImpl (insn.load pfx rip ++ [.mk3 .opMov Reg.temp0 Reg.zero insn.srcreg Reg.zero 3 0]) (fun c' =>
      Leaves sourceTemps c.space.bytes c c' ∧ (c'.arf Reg.temp0).setWidth _ = insn.taken pfx rip c) c := by
  have hw0 : Writable Reg.temp0 := ⟨by decide, by decide, by decide⟩
  obtain ⟨divide, signed, d⟩ := insn
  cases d with
  | reg r =>
    have hr : remap r.arch = r.arch := remap_of_lt (lt_trans r.arch_lt (by decide))
    have hinv : c.arflags (remap r.arch) &&& FLAG_INV = 0 := by
      rw [hr]
      exact hclean _ r.arch_lt
    refine Triples.wp_mono (wp_mov rest h hw0 Reg.zero (r.arch_ne (by decide)) 3 hinv) fun c' hc' => ?_
    refine ⟨hc'.1.mono (by decide), ?_⟩
    show (c'.arf Reg.temp0).setWidth (opWidth r.sizeshift) = (c.arf r.arch).setWidth (opWidth r.sizeshift)
    rw [hc'.2.1, hr]
    rfl
  | mem o size =>
    have hw4 : Writable Reg.temp4 := ⟨by decide, by decide, by decide⟩
    have h4 : remap Reg.temp4 = Reg.temp4 := by decide
    have hsize : size.val ≤ 3 := by omega
    obtain ⟨hctx, hload, -⟩ := hacc
    refine Triples.wp_append (Triples.wp_mono (wp_operandLoad pfx rip Reg.temp4 o size rest h hctx (by decide) hsize hw4 hload) ?_)
    rintro c₁ ⟨hl₁, hv₁, hf₁⟩
    have hinv : c₁.arflags (remap Reg.temp4) &&& FLAG_INV = 0 := by
      rw [h4, hf₁]
      decide
    refine Triples.wp_mono (wp_mov rest hl₁.ready hw0 Reg.zero (show Reg.temp4 ≠ Reg.imm by decide) 3 hinv) fun c' hc' => ?_
    have hl := hl₁.trans hc'.1
    rw [hl₁.bytes] at hl
    refine ⟨hl, ?_⟩
    have hsame : c'.arf Reg.temp0 = c₁.arf Reg.temp4 := hc'.2.1.trans (congrArg c₁.arf h4)
    show (c'.arf Reg.temp0).setWidth (opWidth size.val) = _
    rw [hsame, hv₁]
    show ((loadBytes _ _ _).setWidth 64).setWidth _ = _
    rw [BitVec.setWidth_setWidth_of_le _ (opWidth_le hsize), BitVec.setWidth_eq]
    rfl

/-- The product the uops make. -/
def made (insn : MulDiv) (pfx : Prefixes) (rip : W64) (c : SeqCore) : ℤ :=
  number insn.signed (insn.low c) * number insn.signed (insn.taken pfx rip c)

/-- What the uops of a product do: the high half is merged into `rax`, and that is `rdx`. -/
structure Made (insn : MulDiv) (pfx : Prefixes) (rip : W64) (c c' : SeqCore) : Prop where
  regs : ∀ r : Reg, r.isArch = true → r ≠ Reg.flags → c'.arf r =
    if r = Reg.rax then
      if insn.rd.sizeshift = 0 then pair (c.arf r) ((BitVec.ofInt (opWidth insn.rd.sizeshift) (insn.made pfx rip c)).setWidth 8)
        ((BitVec.ofInt (opWidth insn.rd.sizeshift) (insn.made pfx rip c / 2 ^ opWidth insn.rd.sizeshift)).setWidth 8)
      else put insn.rd.sizeshift (c.arf r) ((BitVec.ofInt (opWidth insn.rd.sizeshift) (insn.made pfx rip c)).setWidth 64)
    else if r = Reg.rdx ∧ insn.rd.sizeshift ≠ 0 then put insn.rd.sizeshift (c.arf Reg.rax)
      ((BitVec.ofInt (opWidth insn.rd.sizeshift) (insn.made pfx rip c / 2 ^ opWidth insn.rd.sizeshift)).setWidth 64)
    else c.arf r
  bytes : c'.space.bytes = c.space.bytes
  flags : ∀ i, i = 0 ∨ i = 11 → (c'.arf Reg.flags).getLsbD i =
    !decide (InRange insn.signed (opWidth insn.rd.sizeshift) (insn.made pfx rip c))

/-- The uops of the two halves, from the source in `temp0`. -/
theorem wp_halves (h : c.Ready) {size : ℕ} {v : BitVec (opWidth size)} (hv : (c.arf Reg.temp0).setWidth _ = v) (signed : Bool)
    {rd : Reg} (hw : Writable rd) (hrd : rd ∉ [Reg.rax, Reg.temp0]) :
    let p := number signed ((c.arf Reg.rax).setWidth (opWidth size)) * number signed v
    Wp rest.withMulDiv.withImpl [.init (if signed then .opMulh else .opMulhu) rd Reg.rax Reg.temp0 Reg.zero size 0 0 setflags,
        .mk3 .opMull Reg.rax Reg.rax Reg.temp0 Reg.zero size 0] (fun c' =>
      Leaves [rd, Reg.flags, Reg.rax] c.space.bytes c c' ∧
        c'.arf rd = x86Merge size (c.arf Reg.rax) ((BitVec.ofInt (opWidth size) (p / 2 ^ opWidth size)).setWidth 64) ∧
        c'.arf Reg.rax = x86Merge size (c.arf Reg.rax) ((BitVec.ofInt (opWidth size) p).setWidth 64) ∧
        ∀ i, i = 0 ∨ i = 11 → (c'.arf Reg.flags).getLsbD i = !decide (InRange signed (opWidth size) p)) c := by
  intro p
  have hmask : ∀ i, i = 0 ∨ i = 11 → (setflagsToX86Flags setflags).getLsbD i = true := by
    rintro i (rfl | rfl) <;> decide
  simp only [List.mem_cons, List.not_mem_nil, or_false, not_or] at hrd
  refine Triples.wp_cons (Triples.wp_mono (wp_mulh rest h hv signed hw) ?_)
  rintro c₁ ⟨hl₁, hv₁, hf₁⟩
  have hrax : c₁.arf Reg.rax = c.arf Reg.rax := hl₁.arf _ (by simp [Ne.symm hrd.1]; decide)
  have htemp : (c₁.arf Reg.temp0).setWidth (opWidth size) = v := by
    rw [hl₁.arf _ (by simp [Ne.symm hrd.2]; decide), hv]
  refine Triples.wp_mono (wp_mull rest hl₁.ready htemp signed) ?_
  rintro c₂ ⟨hl₂, hv₂⟩
  rw [hrax] at hv₂
  have hl := hl₁.trans hl₂
  rw [hl₁.bytes] at hl
  refine ⟨hl, ?_, hv₂, fun i hi => ?_⟩
  · rw [hl₂.arf _ (by simpa using hrd.1), hv₁]
  · rw [hl₂.arf _ (by decide), hf₁ i, if_pos (hmask i hi), Status.word_bit]
    rcases hi with rfl | rfl <;> rfl

/-- The bytes of a product, one inserted above the other. -/
theorem insert_halves {size : ℕ} (h0 : size = 0) {old lo hi : W64} {p : ℤ}
    (hlo : lo = x86Merge size old ((BitVec.ofInt (opWidth size) p).setWidth 64))
    (hhi : hi = x86Merge size old ((BitVec.ofInt (opWidth size) (p / 2 ^ opWidth size)).setWidth 64)) :
    (Apr.hi 0).write lo (hi.setWidth _) = pair old ((BitVec.ofInt (opWidth size) p).setWidth 8)
      ((BitVec.ofInt (opWidth size) (p / 2 ^ opWidth size)).setWidth 8) := by
  subst h0
  have hself : ∀ x : BitVec 8, x.setWidth 8 = x := fun x => BitVec.setWidth_eq x
  have hbyte : hi.setWidth (opWidth 0) = (BitVec.ofInt (opWidth 0) (p / 2 ^ opWidth 0)).setWidth 8 := by
    rw [hhi, x86Merge_setWidth (by decide), BitVec.setWidth_setWidth_of_le _ (by decide), BitVec.setWidth_eq]
    exact (hself _).symm
  have hfirst : lo = put 0 old (((BitVec.ofInt (opWidth 0) p).setWidth 8).setWidth 64) := by
    rw [put_eq (by decide), hlo]
    exact congrArg (fun x : BitVec 8 => x86Merge 0 old (x.setWidth 64)) (hself _).symm
  exact congrArg₂ (Apr.hi 0).write hfirst hbyte

/-- **What the uops of a product do.** -/
theorem wp_decodeMul (insn : MulDiv) (h : c.Ready) (hclean : Clean c) (hacc : insn.rd.Accessible pfx rip c false) (collect : Bool) :
    Wp rest.withMulDiv.withImpl (insn.decodeMul pfx rip collect) (insn.Made pfx rip c) c := by
  have hsize := insn.rd.sizeshift_le
  have hsources : Temps sourceTemps ∧ Reg.flags ∉ sourceTemps := by decide
  have hmul : insn.decodeMul pfx rip collect = (insn.load pfx rip ++
      [.mk3 .opMov Reg.temp0 Reg.zero insn.srcreg Reg.zero 3 0]) ++
      ([.init (if insn.signed then .opMulh else .opMulhu) insn.highreg Reg.rax Reg.temp0 Reg.zero insn.rd.sizeshift 0 0 setflags,
        .mk3 .opMull Reg.rax Reg.rax Reg.temp0 Reg.zero insn.rd.sizeshift 0] ++
      ((if insn.rd.sizeshift = 0 then [.insertHigh Reg.rax Reg.temp1] else []) ++
      if collect then [.init .opCollcc Reg.temp10 Reg.zf Reg.cf Reg.of 3 0 0 .default] else [])) := by
    unfold decodeMul
    simp only [List.append_assoc, List.cons_append, List.nil_append]
  rw [hmul]
  refine Triples.wp_append (Triples.wp_mono (wp_source rest.withMulDiv h hclean hacc) ?_)
  rintro c₁ ⟨hl₁, hv₁⟩
  have hrax : c₁.arf Reg.rax = c.arf Reg.rax := hl₁.arch hsources.1 (by decide) (by decide)
  have hhigh : Writable insn.highreg ∧ insn.highreg ∉ [Reg.rax, Reg.temp0] := by
    unfold highreg
    split
    · exact ⟨⟨by decide, by decide, by decide⟩, by decide⟩
    · exact ⟨⟨by decide, by decide, by decide⟩, by decide⟩
  refine Triples.wp_append (Triples.wp_mono (wp_halves rest hl₁.ready hv₁ insn.signed hhigh.1 hhigh.2) ?_)
  rintro c₂ ⟨hl₂, hhi, hlo, hflags⟩
  rw [hrax] at hhi hlo hflags
  rw [hl₁.bytes] at hl₂
  -- the byte in `ah`
  have hinsert : Wp rest.withMulDiv.withImpl (if insn.rd.sizeshift = 0 then [.insertHigh Reg.rax Reg.temp1] else [])
      (fun c₃ => insn.Made pfx rip c c₃ ∧ c₃.Ready) c₂ := by
    by_cases h0 : insn.rd.sizeshift = 0
    · rw [if_pos h0]
      have ht : remap Reg.temp1 = Reg.temp1 := by decide
      refine Triples.wp_mono (wp_insertHigh rest.withMulDiv hl₂.ready ht (by decide)) fun c₃ hc₃ => ?_
      obtain ⟨hl₃, hv₃⟩ := hc₃
      have hlow : insn.highreg = Reg.temp1 := if_pos h0
      rw [hlow] at hhi hl₂
      refine ⟨⟨fun r hr hf => ?_, hl₃.bytes.trans hl₂.bytes, fun i hi => ?_⟩, hl₃.ready⟩
      · by_cases hra : r = Reg.rax
        · rw [if_pos hra, if_pos h0, hra, hv₃]
          exact insert_halves h0 hlo hhi
        · have ht1 : r ≠ Reg.temp1 := by
            rintro rfl
            exact absurd hr (by decide)
          rw [if_neg hra, if_neg fun h => h.2 h0, hl₃.arf r (by simpa using hra), hl₂.arf r (by simp [hra, ht1, hf]),
            hl₁.arch hsources.1 hr hf]
      · rw [hl₃.arf Reg.flags (by decide), hflags i hi]
        rfl
    · rw [if_neg h0]
      refine Triples.wp_nil ⟨⟨fun r hr hf => ?_, hl₂.bytes, hflags⟩, hl₂.ready⟩
      have hrdx : insn.highreg = Reg.rdx := if_neg h0
      rw [hrdx] at hhi hl₂
      by_cases hra : r = Reg.rax
      · rw [if_pos hra, if_neg h0, hra, hlo, put_eq hsize]
        rfl
      · rw [if_neg hra]
        by_cases hrd : r = Reg.rdx
        · rw [if_pos ⟨hrd, h0⟩, hrd, hhi, put_eq hsize]
          rfl
        · rw [if_neg fun h => hrd h.1, hl₂.arf r (by simp [hra, hrd, hf]), hl₁.arch hsources.1 hr hf]
  refine Triples.wp_append (Triples.wp_mono hinsert ?_)
  rintro c₃ ⟨hmade, hready⟩
  cases collect with
  | false => exact Triples.wp_nil hmade
  | true =>
    have hw : Writable Reg.temp10 := ⟨by decide, by decide, by decide⟩
    refine Triples.wp_mono (wp_collcc rest.withMulDiv hready hw) fun c₄ hc₄ => ?_
    have htemps : Temps [Reg.temp10] := by decide
    refine ⟨fun r hr hf => ?_, hc₄.1.bytes.trans hmade.bytes, fun i hi => ?_⟩
    · rw [hc₄.1.arch htemps hr hf, hmade.regs r hr hf]
    · rw [hc₄.1.arf Reg.flags (by decide), hmade.flags i hi]

/-- The numbers of words are the words. -/
theorem number_inj {w : ℕ} (signed : Bool) {a b : BitVec w} (h : number signed a = number signed b) : a = b := by
  rw [← ofInt_number signed a, h, ofInt_number]

/-- The quotients of products by the modulus are within one turn of it. -/
theorem high_window {w : ℕ} (hw : 0 < w) (signed : Bool) (a b b' : BitVec w) :
    |number signed a * number signed b / 2 ^ w - number signed a * number signed b' / 2 ^ w| < 2 ^ w := by
  obtain ⟨n, rfl⟩ : ∃ n, w = n + 1 := ⟨w - 1, by omega⟩
  have hm : (0 : ℤ) < 2 ^ n := by positivity
  have hM : (2 : ℤ) ^ (n + 1) = 2 * 2 ^ n := pow_succ' 2 n
  have hcast : ((2 ^ (n + 1) : ℕ) : ℤ) = 2 * 2 ^ n := by push_cast; exact hM
  obtain ⟨m, hmdef⟩ : ∃ m : ℤ, m = 2 ^ n := ⟨_, rfl⟩
  rw [hM, ← hmdef]
  rw [← hmdef] at hm hcast
  -- for a fixed factor the high halves lie in an interval as long as a word
  have hwindow : ∃ lo hi : ℤ, hi - lo ≤ 2 * m ∧ ∀ y : BitVec (n + 1),
      lo ≤ number signed a * number signed y / (2 * m) ∧ number signed a * number signed y / (2 * m) < hi := by
    cases signed with
    | true =>
      have hbound : ∀ x : BitVec (n + 1), -m ≤ x.toInt ∧ x.toInt < m := fun x => by
        have hle := BitVec.le_toInt x
        have hlt := BitVec.toInt_lt (x := x)
        rw [Nat.add_sub_cancel, ← hmdef] at hle hlt
        exact ⟨hle, hlt⟩
      refine ⟨-m, m, by omega, fun y => ?_⟩
      obtain ⟨ha, ha'⟩ := hbound a
      obtain ⟨hy, hy'⟩ := hbound y
      constructor
      · refine (Int.le_ediv_iff_mul_le (by omega)).2 ?_
        show _ ≤ a.toInt * y.toInt
        nlinarith
      · refine (Int.ediv_lt_iff_lt_mul (by omega)).2 ?_
        show a.toInt * y.toInt < _
        nlinarith
    | false =>
      have hbound : ∀ x : BitVec (n + 1), 0 ≤ (x.toNat : ℤ) ∧ (x.toNat : ℤ) < 2 * m := fun x => by
        have hlt := x.isLt
        omega
      refine ⟨0, 2 * m, by omega, fun y => ?_⟩
      obtain ⟨ha, ha'⟩ := hbound a
      obtain ⟨hy, hy'⟩ := hbound y
      constructor
      · refine (Int.le_ediv_iff_mul_le (by omega)).2 ?_
        show _ ≤ (a.toNat : ℤ) * y.toNat
        nlinarith
      · refine (Int.ediv_lt_iff_lt_mul (by omega)).2 ?_
        show (a.toNat : ℤ) * y.toNat < _
        nlinarith
  obtain ⟨lo, hi, hlen, hall⟩ := hwindow
  have hb := hall b
  have hb' := hall b'
  rw [abs_lt]
  constructor <;> omega

/-- A product is its two halves. -/
theorem halves_inj {w : ℕ} (hw : 0 < w) (signed : Bool) (a b b' : BitVec w)
    (hlo : BitVec.ofInt w (number signed a * number signed b) = BitVec.ofInt w (number signed a * number signed b'))
    (hhi : BitVec.ofInt w (number signed a * number signed b / 2 ^ w) =
      BitVec.ofInt w (number signed a * number signed b' / 2 ^ w)) :
    number signed a * number signed b = number signed a * number signed b' := by
  have hpos : (0 : ℤ) < 2 ^ w := by positivity
  have hcast : ((2 ^ w : ℕ) : ℤ) = 2 ^ w := by push_cast; rfl
  have hmod : ∀ x y : ℤ, BitVec.ofInt w x = BitVec.ofInt w y → x % 2 ^ w = y % 2 ^ w := fun x y h => by
    have hnat := congrArg BitVec.toNat h
    rw [BitVec.toNat_ofInt, BitVec.toNat_ofInt, hcast] at hnat
    have hx := Int.emod_nonneg x hpos.ne'
    have hy := Int.emod_nonneg y hpos.ne'
    omega
  have hwindow := high_window hw signed a b b'
  have hlo := hmod _ _ hlo
  have hhi := hmod _ _ hhi
  generalize number signed a * number signed b = p at *
  generalize number signed a * number signed b' = p' at *
  have hquot : p / 2 ^ w = p' / 2 ^ w := by
    refine sub_eq_zero.1 (Int.eq_zero_of_abs_lt_dvd ?_ hwindow)
    exact Int.dvd_of_emod_eq_zero (Int.emod_eq_emod_iff_emod_sub_eq_zero.1 hhi)
  rw [← Int.mul_ediv_add_emod p (2 ^ w), hlo, hquot, Int.mul_ediv_add_emod]

/-- The two low bytes after a byte is inserted above the first. -/
theorem insert_bytes (v : W64) (x : BitVec 8) :
    ((Apr.hi 0).write v x).setWidth 8 = v.setWidth 8 ∧ ((Apr.hi 0).write v x >>> 8).setWidth 8 = x := by
  have hwrite : (Apr.hi 0).write v x = (v &&& ~~~(0xff00 : W64)) ||| (x.setWidth 64 <<< 8) := rfl
  have hff : ∀ i < 8, (0xff00 : W64).getLsbD i = false ∧ (0xff00 : W64).getLsbD (8 + i) = true := by decide
  constructor
  · apply BitVec.eq_of_getLsbD_eq
    intro i hi
    rw [hwrite, BitVec.getLsbD_setWidth, BitVec.getLsbD_setWidth, BitVec.getLsbD_or, BitVec.getLsbD_and, BitVec.getLsbD_not,
      (hff i hi).1, BitVec.getLsbD_shiftLeft, decide_eq_true (show i < 64 by omega), decide_eq_true hi, Bool.not_true,
      Bool.and_false, Bool.false_and, Bool.or_false, Bool.not_false, Bool.and_true, Bool.and_true]
  · apply BitVec.eq_of_getLsbD_eq
    intro i hi
    rw [hwrite, BitVec.getLsbD_setWidth, BitVec.getLsbD_ushiftRight, BitVec.getLsbD_or, BitVec.getLsbD_and, BitVec.getLsbD_not,
      (hff i hi).2, BitVec.getLsbD_shiftLeft, BitVec.getLsbD_setWidth, decide_eq_true hi, decide_eq_true (show 8 + i < 64 by omega),
      decide_eq_false (show ¬8 + i < 8 by omega), decide_eq_true (show 8 + i - 8 < 64 by omega), Nat.add_sub_cancel_left]
    simp

/-- Two bytes written to `ax` are the bytes in it. -/
theorem pair_inj {old : W64} {l l' x x' : BitVec 8}
    (h : pair old l x = pair old l' x') : l = l' ∧ x = x' := by
  unfold pair at h
  have hlow : ∀ l : BitVec 8, (put 0 old (l.setWidth 64)).setWidth 8 = l := fun l => by
    rw [put_eq (by decide)]
    refine (@x86Merge_setWidth 0 (by decide) old (l.setWidth 64)).trans ?_
    show (l.setWidth 64).setWidth 8 = l
    rw [BitVec.setWidth_setWidth_of_le _ (by decide), BitVec.setWidth_eq]
  constructor
  · rw [← hlow l, ← (insert_bytes _ x).1, h, (insert_bytes _ x').1, hlow]
  · rw [← (insert_bytes (put 0 old (l.setWidth 64)) x).2, h, (insert_bytes _ x').2]

/-- What is put into a register is in its low bytes. -/
theorem put_inj {size : ℕ} (hsize : size ≤ 3) {old old' : W64} {x x' : BitVec (opWidth size)}
    (h : put size old (x.setWidth 64) = put size old' (x'.setWidth 64)) : x = x' := by
  have h64 := opWidth_le hsize
  have hread := congrArg (BitVec.setWidth (opWidth size)) h
  rwa [put_eq hsize, put_eq hsize, x86Merge_setWidth hsize, x86Merge_setWidth hsize, BitVec.setWidth_setWidth_of_le _ h64,
    BitVec.setWidth_setWidth_of_le _ h64, BitVec.setWidth_eq, BitVec.setWidth_eq] at hread

/-- Words of eight bits, of a size that is zero. -/
theorem setWidth_inj {size : ℕ} (h0 : size = 0) {x x' : BitVec (opWidth size)} (h : x.setWidth 8 = x'.setWidth 8) :
    x = x' := by
  subst h0
  have hself : ∀ y : BitVec (opWidth 0), y.setWidth 8 = y := fun y => BitVec.setWidth_eq y
  rwa [hself, hself] at h

/-- The halves written are the ones in the registers. -/
theorem written_inj (insn : MulDiv) {c c' : SeqCore} {lo hi lo' hi' : BitVec (opWidth insn.rd.sizeshift)}
    (h : insn.Written c lo hi c') (h' : insn.Written c lo' hi' c') : lo = lo' ∧ hi = hi' := by
  have hsize := insn.rd.sizeshift_le
  have hrax : Reg.rax.isArch = true ∧ Reg.rax ≠ Reg.flags := by decide
  have hrdx : Reg.rdx.isArch = true ∧ Reg.rdx ≠ Reg.flags ∧ Reg.rdx ≠ Reg.rax := by decide
  have hlo := (h.1 Reg.rax hrax.1 hrax.2).symm.trans (h'.1 Reg.rax hrax.1 hrax.2)
  rw [if_pos rfl, if_pos rfl] at hlo
  by_cases h0 : insn.rd.sizeshift = 0
  · rw [if_pos h0, if_pos h0] at hlo
    obtain ⟨hl, hh⟩ := pair_inj hlo
    exact ⟨setWidth_inj h0 hl, setWidth_inj h0 hh⟩
  · rw [if_neg h0, if_neg h0] at hlo
    have hhi := (h.1 Reg.rdx hrdx.1 hrdx.2.1).symm.trans (h'.1 Reg.rdx hrdx.1 hrdx.2.1)
    rw [if_neg hrdx.2.2, if_neg hrdx.2.2, if_pos ⟨rfl, h0⟩, if_pos ⟨rfl, h0⟩] at hhi
    exact ⟨put_inj hsize hlo, put_inj hsize hhi⟩

/-- The product made is the product just if the word is the operand or makes no difference. -/
theorem made_eq_iff (insn : MulDiv) (c : SeqCore) (v : BitVec (opWidth insn.rd.sizeshift)) :
    insn.made pfx rip c = insn.product c v ↔ insn.low c = 0 ∨ insn.taken pfx rip c = v := by
  have hzero : number insn.signed (insn.low c) = 0 ↔ insn.low c = 0 := by
    have hnone : number insn.signed (0 : BitVec (opWidth insn.rd.sizeshift)) = 0 := by
      cases insn.signed
      · exact congrArg Nat.cast (BitVec.toNat_zero)
      · exact BitVec.toInt_zero
    constructor
    · intro h
      exact number_inj insn.signed (h.trans hnone.symm)
    · intro h
      rw [h, hnone]
  unfold made product
  rw [mul_eq_mul_left_iff, hzero, or_comm]
  exact or_congr_right ⟨fun h => number_inj _ h, fun h => by rw [h]⟩

/-- A product is right just if its condition holds. -/
theorem multiplied_iff (insn : MulDiv) {c c' : SeqCore} {v : BitVec (opWidth insn.rd.sizeshift)}
    (h : insn.Made pfx rip c c') : insn.Multiplied c v c' ↔
    (insn.low c = 0 ∨ insn.taken pfx rip c = v) ∧
      (insn.rd.sizeshift = 1 → c.arf Reg.rax >>> 16 = c.arf Reg.rdx >>> 16) := by
  have hsize := insn.rd.sizeshift_le
  have hrax : Reg.rax.isArch = true ∧ Reg.rax ≠ Reg.flags := by decide
  have hrdx : Reg.rdx.isArch = true ∧ Reg.rdx ≠ Reg.flags ∧ Reg.rdx ≠ Reg.rax := by decide
  rw [← made_eq_iff]
  constructor
  · intro hright
    have hlo := (h.regs Reg.rax hrax.1 hrax.2).symm.trans (hright.result.1 Reg.rax hrax.1 hrax.2)
    rw [if_pos rfl, if_pos rfl] at hlo
    -- bytes have their product in `ax` alone; else the halves go to `rax` and `rdx`
    by_cases h0 : insn.rd.sizeshift = 0
    · rw [if_pos h0, if_pos h0] at hlo
      obtain ⟨hl, hh⟩ := pair_inj hlo
      refine ⟨?_, fun h1 => absurd (h0.symm.trans h1) (by decide)⟩
      exact halves_inj (opWidth_pos _) insn.signed _ _ _ (setWidth_inj h0 hl) (setWidth_inj h0 hh)
    · rw [if_neg h0, if_neg h0] at hlo
      have hhi := (h.regs Reg.rdx hrdx.1 hrdx.2.1).symm.trans (hright.result.1 Reg.rdx hrdx.1 hrdx.2.1)
      rw [if_neg hrdx.2.2, if_neg hrdx.2.2, if_pos ⟨rfl, h0⟩, if_pos ⟨rfl, h0⟩] at hhi
      have hprod : insn.made pfx rip c = insn.product c v :=
        halves_inj (opWidth_pos _) insn.signed _ _ _ (put_inj hsize hlo) (put_inj hsize hhi)
      refine ⟨hprod, fun h1 => ?_⟩
      rw [hprod, put_eq hsize, put_eq hsize] at hhi
      exact ((ImulInsn.x86Merge_iff (by omega) hsize _ _ _).1 hhi).resolve_left fun h => h h1
  · rintro ⟨hprod, hupper⟩
    refine ⟨⟨fun r hr hf => ?_, h.bytes⟩, ?_, ?_⟩
    · rw [h.regs r hr hf, hprod]
      by_cases hra : r = Reg.rax
      · rw [if_pos hra, if_pos hra]
      · rw [if_neg hra, if_neg hra]
        by_cases hrd : r = Reg.rdx ∧ insn.rd.sizeshift ≠ 0
        · rw [if_pos hrd, if_pos hrd, put_eq hsize, put_eq hsize, hrd.1]
          refine (ImulInsn.x86Merge_iff (Nat.pos_of_ne_zero hrd.2) hsize _ _ _).2 ?_
          by_cases h1 : insn.rd.sizeshift = 1
          · exact .inr (hupper h1)
          · exact .inl h1
        · rw [if_neg hrd, if_neg hrd]
    · rw [h.flags 0 (.inl rfl), hprod]
    · rw [h.flags 11 (.inr rfl), hprod]

/-! ### Quotients -/

/-- `div_rem` or `div_rem_s`; none where the host traps. -/
def dividing (signed : Bool) {w : ℕ} (hi lo d : BitVec w) : Option (DivRem w) :=
  if signed then divRemSOf hi lo d else some (divRemOf hi lo d)

/-- The uop of the quotient, or of the remainder. -/
def divop (signed rem : Bool) : Opcode :=
  if rem then if signed then .opRems else .opRem else if signed then .opDivs else .opDiv

theorem genflags_inv {w : ℕ} (v : BitVec w) : x86Genflags v &&& FLAG_INV = 0 := by
  have hflags := aluResult_flags 3 0 .zaps (⟨v, false, false⟩ : AluOut w) rfl (.inr ⟨rfl, rfl⟩)
  have hsame : (aluResult 3 0 .zaps (⟨v, false, false⟩ : AluOut w)).rdflags = x86Genflags v := by
    unfold aluResult SetFlags.zaps
    simp
  rw [← hsame, hflags]
  exact Status.word_inv _

theorem exec_divide {signed rem : Bool} {op : TransOp} {size : ℕ} (hop : op.opcode = divop signed rem) (hsize : op.size = size)
    (i : UopInputs) {r : DivRem (opWidth size)}
    (hr : dividing signed (i.ra.setWidth (opWidth size)) (i.rb.setWidth _) (i.rc.setWidth _) = some r) :
    rest.withMulDiv.withImpl op i = if r.ok then
      if rem then ⟨x86Merge size i.ra (r.remainder.setWidth 64), x86Genflags r.remainder⟩
      else ⟨x86Merge size i.rb (r.quotient.setWidth 64), x86Genflags r.quotient⟩
      else ⟨exceptionWord .divideOverflow .none, FLAG_INV⟩ := by
  subst hsize
  have hpass : rest.withMulDiv.withImpl op i = rest.withMulDiv op i := by
    unfold Synthop.withImpl uopImpl
    rw [hop]
    cases signed <;> cases rem <;> rfl
  rw [hpass]
  unfold Synthop.withMulDiv
  rw [hop]
  cases signed with
  | false =>
    obtain rfl := Option.some.inj hr
    cases rem <;> rfl
  | true =>
    have hr : divRemSOf (i.ra.setWidth (opWidth op.size)) (i.rb.setWidth (opWidth op.size)) (i.rc.setWidth (opWidth op.size)) =
        some r := hr
    cases rem with
    | false =>
      show (x86Divs op.size i).getD (rest op i) = _
      unfold x86Divs
      dsimp only
      rw [hr]
      rfl
    | true =>
      show (x86Rems op.size i).getD (rest op i) = _
      unfold x86Rems
      dsimp only
      rw [hr]
      rfl

/-- The operands of a division, as its uops find them. -/
structure Operands (c : SeqCore) (hireg : Reg) {w : ℕ} (hi lo d : BitVec w) : Prop where
  high : (c.arf hireg).setWidth w = hi
  low : (c.arf Reg.rax).setWidth w = lo
  divisor : (c.arf Reg.temp2).setWidth w = d
  remap : remap hireg = hireg

section Divide

variable {signed rem : Bool} {size : ℕ} {hireg rd : Reg} {hi lo d : BitVec (opWidth size)} {r : DivRem (opWidth size)}

theorem Operands.exec (h : Operands c hireg hi lo d) (hr : dividing signed hi lo d = some r) :
    let op : TransOp := .mk3 (divop signed rem) rd hireg Reg.rax Reg.temp2 size 0
    rest.withMulDiv.withImpl op (c.inputs op) = if r.ok then
      if rem then ⟨x86Merge size (c.arf hireg) (r.remainder.setWidth 64), x86Genflags r.remainder⟩
      else ⟨x86Merge size (c.arf Reg.rax) (r.quotient.setWidth 64), x86Genflags r.quotient⟩
      else ⟨exceptionWord .divideOverflow .none, FLAG_INV⟩ := by
  intro op
  have hregs : Seq.remap Reg.rax = Reg.rax ∧ Seq.remap Reg.temp2 = Reg.temp2 ∧ Reg.rax ≠ Reg.imm ∧ Reg.temp2 ≠ Reg.imm := by decide
  have hra : (c.inputs op).ra = c.arf hireg := congrArg c.arf h.remap
  have hrb : (c.inputs op).rb = c.arf Reg.rax := by
    show (if Reg.rax = Reg.imm then 0 else c.arf (Seq.remap Reg.rax)) = _
    rw [if_neg hregs.2.2.1, hregs.1]
  have hrc : (c.inputs op).rc = c.arf Reg.temp2 := by
    show (if Reg.temp2 = Reg.imm then 0 else c.arf (Seq.remap Reg.temp2)) = _
    rw [if_neg hregs.2.2.2, hregs.2.1]
  have hin : dividing signed ((c.inputs op).ra.setWidth (opWidth size)) ((c.inputs op).rb.setWidth _)
      ((c.inputs op).rc.setWidth _) = some r := by
    rw [hra, hrb, hrc, h.high, h.low, h.divisor, hr]
  rw [exec_divide rest (show op.opcode = divop signed rem from rfl) rfl (c.inputs op) hin, hra, hrb]
  rfl

theorem divop_plain (signed rem : Bool) : (isload (divop signed rem) || isstore (divop signed rem)) = false ∧
    isbranch (divop signed rem) = false := by
  have hall : ∀ signed rem : Bool, (isload (divop signed rem) || isstore (divop signed rem)) = false ∧
    isbranch (divop signed rem) = false := by decide
  exact hall signed rem

/-- A quotient that fits. -/
theorem wp_divide (h : c.Ready) (hops : Operands c hireg hi lo d) (hr : dividing signed hi lo d = some r) (hok : r.ok = true)
    (hw : Writable rd) :
    Wp rest.withMulDiv.withImpl [.mk3 (divop signed rem) rd hireg Reg.rax Reg.temp2 size 0] (fun c' =>
      Leaves [rd] c.space.bytes c c' ∧ c'.arf rd = (if rem then x86Merge size (c.arf hireg) (r.remainder.setWidth 64)
        else x86Merge size (c.arf Reg.rax) (r.quotient.setWidth 64)) ∧ c'.arflags rd &&& FLAG_INV = 0) c := by
  have hexec := @Operands.exec c rest signed rem size hireg rd hi lo d r hops hr
  dsimp only at hexec
  rw [if_pos hok] at hexec
  have hmem : isMem (.mk3 (divop signed rem) rd hireg Reg.rax Reg.temp2 size 0) = false := (divop_plain signed rem).1
  cases rem with
  | true =>
    refine Triples.wp_mono (wp_silent hmem rfl rfl rfl rfl h hw hexec (genflags_inv _)) fun c' hc' => ⟨hc'.1, hc'.2.1, ?_⟩
    exact (congrArg (· &&& FLAG_INV) hc'.2.2).trans (genflags_inv _)
  | false =>
    refine Triples.wp_mono (wp_silent hmem rfl rfl rfl rfl h hw hexec (genflags_inv _)) fun c' hc' => ⟨hc'.1, hc'.2.1, ?_⟩
    exact (congrArg (· &&& FLAG_INV) hc'.2.2).trans (genflags_inv _)

/-- One that does not. -/
theorem turn_raises (hops : Operands c hireg hi lo d) (hr : dividing signed hi lo d = some r) (hok : r.ok = false)
    (junk : ℕ → Sfr) :
    turn rest.withMulDiv.withImpl junk (.mk3 (divop signed rem) rd hireg Reg.rax Reg.temp2 size 0) c =
      .error (c, .exception { c.ctx with exception := InternalException.divideOverflow.code }) := by
  have hexec := @Operands.exec c rest signed rem size hireg rd hi lo d r hops hr
  dsimp only at hexec
  obtain ⟨op, hop⟩ : ∃ op : TransOp, op = .mk3 (divop signed rem) rd hireg Reg.rax Reg.temp2 size 0 := ⟨_, rfl⟩
  rw [← hop] at hexec ⊢
  have hmem : isMem op = false := by
    rw [hop]
    exact (divop_plain signed rem).1
  have hbr : isbranch op.opcode = false := by
    rw [hop]
    exact (divop_plain signed rem).2
  have hfp : c.fpUnavailable op = false := by
    rw [hop]
    rfl
  rw [hok, if_neg Bool.false_ne_true] at hexec
  have hinv : FLAG_INV &&& FLAG_INV ≠ 0 := by decide
  have hreports : c.reports rest.withMulDiv.withImpl op = InternalException.divideOverflow.code := by
    unfold SeqCore.reports
    dsimp only
    rw [hexec, if_pos ⟨hbr, hinv⟩]
    exact exceptionWord_code _ _
  have hcodes : InternalException.divideOverflow.code ≠ 0 ∧
      (InternalException.divideOverflow.code == InternalException.skipBlock.code) = false := by decide
  have hskips : c.skips rest.withMulDiv.withImpl op = false := by
    unfold SeqCore.skips
    rw [hreports, hcodes.2, Bool.and_false]
  unfold turn
  rw [issue_alu _ _ hfp hmem, hreports, if_neg hcodes.1, hskips, if_neg Bool.false_ne_true]

end Divide

/-- The temporaries of the divisor, and of `ah`. -/
def divisorTemps : List Reg := [Reg.temp6, Reg.temp8, Reg.temp2, Reg.temp4, Reg.temp9]

/-- The divisor is in `temp2`. -/
theorem wp_moveTo (insn : MulDiv) (h : c.Ready) (hclean : Clean c) (hacc : insn.rd.Accessible pfx rip c false) :
    Wp rest.withImpl (moveTo pfx rip Reg.temp2 insn.rd) (fun c' =>
      Leaves divisorTemps c.space.bytes c c' ∧ (c'.arf Reg.temp2).setWidth _ = insn.rd.value pfx rip c) c := by
  have hw : Writable Reg.temp2 := ⟨by decide, by decide, by decide⟩
  obtain ⟨divide, signed, d⟩ := insn
  cases d with
  | mem o size =>
    have hsize : size.val ≤ 3 := by omega
    obtain ⟨hctx, hload, -⟩ := hacc
    refine Triples.wp_mono (wp_operandLoad pfx rip Reg.temp2 o size rest h hctx (by decide) hsize hw hload) ?_
    rintro c' ⟨hl, hv, -⟩
    refine ⟨hl, ?_⟩
    show (c'.arf Reg.temp2).setWidth (opWidth size.val) = _
    rw [hv]
    show ((loadBytes _ _ _).setWidth 64).setWidth _ = _
    rw [BitVec.setWidth_setWidth_of_le _ (opWidth_le hsize), BitVec.setWidth_eq]
    rfl
  | reg p =>
    have hp : remap p.arch = p.arch := remap_of_lt (lt_trans p.arch_lt (by decide))
    have himm : p.arch ≠ Reg.imm := p.arch_ne (by decide)
    show Wp rest.withImpl (moveTo pfx rip Reg.temp2 (.reg p)) _ c
    unfold moveTo
    dsimp only
    by_cases hhigh : p.hibyte = true
    · rw [if_pos hhigh]
      refine Triples.wp_mono (wp_extract rest h hw hp himm) fun c' hc' => ⟨hc'.1.mono (by decide), ?_⟩
      cases p with
      | hi r => exact hc'.2
      | _ => cases hhigh
    · rw [if_neg hhigh]
      have hinv : c.arflags (remap p.arch) &&& FLAG_INV = 0 := by
        rw [hp]
        exact hclean _ p.arch_lt
      refine Triples.wp_mono (wp_mov rest h hw Reg.zero himm 3 hinv) fun c' hc' => ⟨hc'.1.mono (by decide), ?_⟩
      have hsame : c'.arf Reg.temp2 = c.arf p.arch := hc'.2.1.trans (congrArg c.arf hp)
      show (c'.arf Reg.temp2).setWidth (opWidth p.sizeshift) = p.read (c.arf p.arch)
      rw [hsame, ImulInsn.read_of_low (Bool.eq_false_iff.2 hhigh)]

/-- The register of the upper half of a dividend. -/
def hireg (insn : MulDiv) : Reg := if insn.rd.sizeshift = 0 then Reg.temp3 else Reg.rdx

/-- **The operands of a division** are where its uops look. -/
theorem wp_operands (insn : MulDiv) (h : c.Ready) (hclean : Clean c) (hacc : insn.rd.Accessible pfx rip c false) :
    Wp rest.withImpl (moveTo pfx rip Reg.temp2 insn.rd ++
      if insn.rd.sizeshift = 0 then [TransOp.extractHigh Reg.temp3 Reg.rax] else []) (fun c' =>
      Leaves (divisorTemps ++ [Reg.temp3]) c.space.bytes c c' ∧
        Operands c' insn.hireg (insn.high c) (insn.low c) (insn.rd.value pfx rip c)) c := by
  have htemps : Temps divisorTemps := by decide
  refine Triples.wp_append (Triples.wp_mono (wp_moveTo rest insn h hclean hacc) ?_)
  rintro c₁ ⟨hl₁, hv₁⟩
  have hrax : c₁.arf Reg.rax = c.arf Reg.rax := hl₁.arch htemps (by decide) (by decide)
  have hrdx : c₁.arf Reg.rdx = c.arf Reg.rdx := hl₁.arch htemps (by decide) (by decide)
  have hregs : remap Reg.rax = Reg.rax ∧ Reg.rax ≠ Reg.imm ∧ remap Reg.rdx = Reg.rdx ∧ remap Reg.temp3 = Reg.temp3 := by decide
  by_cases h0 : insn.rd.sizeshift = 0
  · have hw : Writable Reg.temp3 := ⟨by decide, by decide, by decide⟩
    rw [if_pos h0]
    refine Triples.wp_mono (wp_extract rest hl₁.ready hw hregs.1 hregs.2.1) ?_
    rintro c₂ ⟨hl₂, hv₂⟩
    have hl := hl₁.trans hl₂
    rw [hl₁.bytes] at hl
    have hreg : insn.hireg = Reg.temp3 := if_pos h0
    have hwidth : ∀ size, size = 0 → ∀ a b : W64, a.setWidth 8 = (b >>> 8).setWidth 8 →
        a.setWidth (opWidth size) = (b >>> 8).setWidth (opWidth size) := by
      rintro _ rfl a b hab
      exact hab
    refine ⟨hl, ⟨?_, ?_, ?_, ?_⟩⟩
    · rw [hreg, high, if_pos h0]
      rw [hrax] at hv₂
      exact hwidth _ h0 _ _ hv₂
    · rw [hl₂.arf _ (by decide), hrax]
      rfl
    · rw [hl₂.arf _ (by decide), hv₁]
    · rw [hreg, hregs.2.2.2]
  · rw [if_neg h0]
    have hreg : insn.hireg = Reg.rdx := if_neg h0
    refine Triples.wp_nil ⟨hl₁.mono (by decide), ⟨?_, ?_, hv₁, ?_⟩⟩
    · rw [hreg, hrdx, high, if_neg h0]
    · rw [hrax]
      rfl
    · rw [hreg, hregs.2.2.1]

/-- The uops of a division after its operands. -/
def dividers (insn : MulDiv) : List TransOp :=
  [.mk3 (divop insn.signed false) Reg.temp0 insn.hireg Reg.rax Reg.temp2 insn.rd.sizeshift 0,
    .mk3 (divop insn.signed true) Reg.temp1 insn.hireg Reg.rax Reg.temp2 insn.rd.sizeshift 0,
    .mk3 .opMov Reg.rax Reg.rax Reg.temp0 Reg.zero insn.rd.sizeshift 0] ++
  if insn.rd.sizeshift = 0 then [.insertHigh Reg.rax Reg.temp1]
  else [.mk3 .opMov Reg.rdx Reg.rdx Reg.temp1 Reg.zero insn.rd.sizeshift 0]

theorem decodeDiv_eq (insn : MulDiv) (pfx : Prefixes) (rip : W64) : insn.decodeDiv pfx rip =
    (moveTo pfx rip Reg.temp2 insn.rd ++ if insn.rd.sizeshift = 0 then [TransOp.extractHigh Reg.temp3 Reg.rax] else []) ++
      insn.dividers := by
  rw [List.append_assoc]
  unfold decodeDiv dividers hireg
  cases insn.signed <;> rfl

/-- A division whose quotient does not fit raises the exception. -/
theorem raises_decodeDiv (insn : MulDiv) (h : c.Ready) (hclean : Clean c) (hacc : insn.rd.Accessible pfx rip c false)
    {r : DivRem (opWidth insn.rd.sizeshift)}
    (hr : dividing insn.signed (insn.high c) (insn.low c) (insn.rd.value pfx rip c) = some r) (hok : r.ok = false) :
    Raises rest.withMulDiv.withImpl (insn.decodeDiv pfx rip) .divideOverflow c := by
  intro junk
  have htemps : Temps (divisorTemps ++ [Reg.temp3]) := by decide
  obtain ⟨c₁, hrun, hl, hops⟩ := wp_operands rest.withMulDiv insn h hclean hacc junk
  rw [decodeDiv_eq]
  refine ⟨c₁, ?_, fun r hr => ?_, hl.bytes⟩
  · refine (Triples.run_append hrun).trans ?_
    have hturn := @turn_raises c₁ rest insn.signed false _ insn.hireg Reg.temp0 _ _ _ r hops hr hok
    unfold dividers
    rw [List.cons_append, Triples.run, hturn]
  · by_cases hf : r = Reg.flags
    · exact hf ▸ hl.arf Reg.flags (by decide)
    · exact hl.arch htemps hr hf

/-- The quotient and the remainder are moved to their registers. -/
theorem wp_decodeDiv (insn : MulDiv) (h : c.Ready) (hclean : Clean c) (hacc : insn.rd.Accessible pfx rip c false)
    {r : DivRem (opWidth insn.rd.sizeshift)}
    (hr : dividing insn.signed (insn.high c) (insn.low c) (insn.rd.value pfx rip c) = some r) (hok : r.ok = true) :
    Wp rest.withMulDiv.withImpl (insn.decodeDiv pfx rip) (insn.Written c r.quotient r.remainder) c := by
  have hsize := insn.rd.sizeshift_le
  have htemps : Temps (divisorTemps ++ [Reg.temp3]) ∧ Temps [Reg.temp0] ∧ Temps [Reg.temp1] := by decide
  have hw0 : Writable Reg.temp0 := ⟨by decide, by decide, by decide⟩
  have hw1 : Writable Reg.temp1 := ⟨by decide, by decide, by decide⟩
  have hwa : Writable Reg.rax := ⟨by decide, by decide, by decide⟩
  have hwd : Writable Reg.rdx := ⟨by decide, by decide, by decide⟩
  have hregs : remap Reg.rax = Reg.rax ∧ remap Reg.rdx = Reg.rdx ∧ remap Reg.temp0 = Reg.temp0 ∧
      remap Reg.temp1 = Reg.temp1 ∧ Reg.temp0 ≠ Reg.imm ∧ Reg.temp1 ≠ Reg.imm := by decide
  rw [decodeDiv_eq]
  refine Triples.wp_append (Triples.wp_mono (wp_operands rest.withMulDiv insn h hclean hacc) ?_)
  rintro c₁ ⟨hl₁, hops⟩
  unfold dividers
  rw [List.cons_append, List.cons_append, List.cons_append, List.nil_append]
  -- the quotient and the remainder, in temporaries
  refine Triples.wp_cons (Triples.wp_mono (@wp_divide c₁ rest insn.signed false _ insn.hireg Reg.temp0 _ _ _ r hl₁.ready hops hr
    hok hw0) ?_)
  rintro c₂ ⟨hl₂, hv₂, hf₂⟩
  have hireg_ne : insn.hireg ≠ Reg.temp0 := by
    unfold hireg
    split <;> decide
  have hops₂ : Operands c₂ insn.hireg (insn.high c) (insn.low c) (insn.rd.value pfx rip c) := by
    refine ⟨?_, ?_, ?_, hops.remap⟩
    · rw [hl₂.arf _ (by simpa using hireg_ne), hops.high]
    · rw [hl₂.arf _ (by decide), hops.low]
    · rw [hl₂.arf _ (by decide), hops.divisor]
  refine Triples.wp_cons (Triples.wp_mono (@wp_divide c₂ rest insn.signed true _ insn.hireg Reg.temp1 _ _ _ r hl₂.ready hops₂ hr
    hok hw1) ?_)
  rintro c₃ ⟨hl₃, hv₃, hf₃⟩
  have hsame : ∀ r : Reg, r.isArch = true → r ≠ Reg.flags → c₃.arf r = c.arf r := fun r hr hf => by
    rw [hl₃.arch htemps.2.2 hr hf, hl₂.arch htemps.2.1 hr hf, hl₁.arch htemps.1 hr hf]
  have hbytes : c₃.space.bytes = c.space.bytes := hl₃.bytes.trans (hl₂.bytes.trans hl₁.bytes)
  have hrax : c₃.arf Reg.rax = c.arf Reg.rax := hsame _ (by decide) (by decide)
  have hquot : (c₃.arf Reg.temp0).setWidth _ = r.quotient := by
    rw [hl₃.arf _ (by decide), hv₂, if_neg Bool.false_ne_true, x86Merge_setWidth hsize,
      BitVec.setWidth_setWidth_of_le _ (opWidth_le hsize), BitVec.setWidth_eq]
  have hrem : (c₃.arf Reg.temp1).setWidth _ = r.remainder := by
    rw [hv₃, if_pos rfl, x86Merge_setWidth hsize, BitVec.setWidth_setWidth_of_le _ (opWidth_le hsize), BitVec.setWidth_eq]
  -- `rax`
  have hinv₃ : c₃.arflags (remap Reg.temp0) &&& FLAG_INV = 0 := by
    rw [hregs.2.2.1, hl₃.arflags _ (by decide)]
    exact hf₂
  refine Triples.wp_cons (Triples.wp_mono (wp_mov rest.withMulDiv hl₃.ready hwa Reg.rax hregs.2.2.2.2.1 insn.rd.sizeshift hinv₃) ?_)
  rintro c₄ ⟨hl₄, hv₄, -⟩
  have hvalue : c₄.arf Reg.rax = put insn.rd.sizeshift (c.arf Reg.rax) (r.quotient.setWidth 64) := by
    rw [hv₄, hregs.1, hregs.2.2.1, hrax, put_eq hsize, ← x86Merge_trunc hsize _ (c₃.arf Reg.temp0), hquot]
  by_cases h0 : insn.rd.sizeshift = 0
  · -- and `ah`
    rw [if_pos h0]
    refine Triples.wp_mono (wp_insertHigh rest.withMulDiv hl₄.ready hregs.2.2.2.1 hregs.2.2.2.2.2) ?_
    rintro c₅ ⟨hl₅, hv₅⟩
    refine ⟨fun s hs hf => ?_, hl₅.bytes.trans (hl₄.bytes.trans hbytes)⟩
    by_cases hra : s = Reg.rax
    · rw [if_pos hra, if_pos h0, hra, hv₅, hvalue, hl₄.arf _ (by decide)]
      have hbytes : ∀ (size : ℕ) (q m : BitVec (opWidth size)) (old t : W64), size = 0 → t.setWidth (opWidth size) = m →
          (Apr.hi 0).write (put size old (q.setWidth 64)) (t.setWidth _) = pair old (q.setWidth 8) (m.setWidth 8) := by
        rintro _ q m old t rfl rfl
        have hself : ∀ x : BitVec 8, x.setWidth 8 = x := fun x => BitVec.setWidth_eq x
        exact congrArg₂ (fun (x : W64) (y : BitVec 8) => (Apr.hi 0).write x y)
          (congrArg (fun x : BitVec 8 => put 0 old (x.setWidth 64)) (hself q).symm) (hself _).symm
      exact hbytes _ _ _ _ _ h0 hrem
    · rw [if_neg hra, if_neg fun h => h.2 h0, hl₅.arf s (by simpa using hra), hl₄.arf s (by simpa using hra), hsame s hs hf]
  · -- and `rdx`
    rw [if_neg h0]
    have hinv₄ : c₄.arflags (remap Reg.temp1) &&& FLAG_INV = 0 := by
      rw [hregs.2.2.2.1, hl₄.arflags _ (by decide)]
      exact hf₃
    refine Triples.wp_mono (wp_mov rest.withMulDiv hl₄.ready hwd Reg.rdx hregs.2.2.2.2.2 insn.rd.sizeshift hinv₄) ?_
    rintro c₅ ⟨hl₅, hv₅, -⟩
    have hrdx : c₄.arf Reg.rdx = c.arf Reg.rdx := by
      rw [hl₄.arf _ (by decide), hsame _ (by decide) (by decide)]
    refine ⟨fun s hs hf => ?_, hl₅.bytes.trans (hl₄.bytes.trans hbytes)⟩
    by_cases hra : s = Reg.rax
    · rw [if_pos hra, if_neg h0, hra, hl₅.arf _ (by decide), hvalue]
    · rw [if_neg hra]
      by_cases hrd : s = Reg.rdx
      · rw [if_pos ⟨hrd, h0⟩, hrd, hv₅, hregs.2.1, hregs.2.2.2.1, hrdx, hl₄.arf Reg.temp1 (by decide), put_eq hsize,
          ← x86Merge_trunc hsize _ (c₃.arf Reg.temp1), hrem]
      · rw [if_neg fun h => hrd h.1, hl₅.arf s (by simpa using hrd), hl₄.arf s (by simpa using hra), hsame s hs hf]

/-- The division functions have the quotient and the remainder, if they fit. -/
structure Sound (insn : MulDiv) (c : SeqCore) (v : BitVec (opWidth insn.rd.sizeshift))
    (r : DivRem (opWidth insn.rd.sizeshift)) : Prop where
  ok : r.ok = true ↔ insn.Divides c v
  quotient : r.ok = true → r.quotient = insn.quotient c v
  remainder : r.ok = true → r.remainder = insn.remainder c v

theorem widths {size : ℕ} (hsize : size ≤ 3) : (NarrowWidth (opWidth size) ∨ opWidth size = 64) ∧
    (opWidth size ≤ 32 ∨ opWidth size = 64) ∧ (opWidth size = 32 ↔ size = 2) := by
  unfold NarrowWidth
  interval_cases size <;> decide

section Exactness

variable {w : ℕ} {hi lo d : BitVec w}

/-- The signed functions, but for their two flaws. -/
theorem divRemSOf_exact (hw : NarrowWidth w ∨ w = 64) (hloses : ¬LosesDivisor (signedDividend hi lo) d.toInt)
    (hpair : ¬(w = 32 ∧ signedDividend hi lo = -2 ^ 63 ∧ d.toInt = -1)) :
    ∃ r, divRemSOf hi lo d = some r ∧ r.SignedExact (signedDividend hi lo) d.toInt := by
  rcases hw with hw | rfl
  · have hne : w ≠ 64 := by
      rcases hw with rfl | rfl | rfl <;> omega
    rw [divRemSOf, if_neg hne]
    exact (divRemS_exact_iff hw hi lo d).2 hpair
  · refine ⟨divRemS64 hi lo d, ?_, divRemS64_exact hi lo d hloses⟩
    rw [divRemSOf, if_pos rfl]
    simp only [BitVec.setWidth_eq]

/-- Where the divisor is lost, a quotient is given that does not fit. -/
theorem divRemSOf_lost (hw : NarrowWidth w ∨ w = 64) (hloses : LosesDivisor (signedDividend hi lo) d.toInt) :
    ∃ r, divRemSOf hi lo d = some r ∧ r.ok = true ∧
      ¬(-2 ^ (w - 1) ≤ (signedDividend hi lo).tdiv d.toInt ∧ (signedDividend hi lo).tdiv d.toInt < 2 ^ (w - 1)) := by
  rcases hw with hw | rfl
  · -- a narrow dividend is greater
    have hbound := (@signedDividend_narrow w hi lo hw).1
    rw [hloses.1] at hbound
    rcases hw with rfl | rfl | rfl <;> exact absurd hbound (by decide)
  · obtain ⟨hok, hno⟩ := divRemS64_wrong hi lo d hloses
    refine ⟨divRemS64 hi lo d, ?_, hok, hno⟩
    rw [divRemSOf, if_pos rfl]
    simp only [BitVec.setWidth_eq]

end Exactness

/-- **The division functions are right**, the signed ones but for their flaws. -/
theorem dividing_sound (insn : MulDiv) (c : SeqCore) (v : BitVec (opWidth insn.rd.sizeshift)) (hexact : ¬insn.Flawed c v) :
    ∃ r, dividing insn.signed (insn.high c) (insn.low c) v = some r ∧ insn.Sound c v r := by
  obtain ⟨hw, hw', h32⟩ := widths insn.rd.sizeshift_le
  cases hs : insn.signed with
  | true =>
    have hD : insn.dividend c = signedDividend (insn.high c) (insn.low c) := by
      unfold dividend number
      rw [hs]
      rfl
    have hd : insn.divisor v = v.toInt := by
      unfold divisor number
      rw [hs]
      rfl
    obtain ⟨hloses, hpair⟩ := not_or.1 fun hflaw => hexact ⟨hs, hflaw⟩
    rw [hD, hd] at hloses hpair
    rw [← h32] at hpair
    obtain ⟨r, hr, hsigned⟩ := divRemSOf_exact hw hloses hpair
    rw [← hD, ← hd] at hsigned
    refine ⟨r, hr, ⟨?_, fun hok => ?_, fun hok => ?_⟩⟩
    · unfold Divides InRange
      rw [hs]
      exact hsigned.ok_iff
    · unfold quotient
      rw [← hsigned.quotient_eq hok, BitVec.ofInt_toInt]
    · have hsum := hsigned.sum_eq hok
      -- the remainder is what the exact quotient leaves
      have hrem : r.remainder.toInt = (insn.dividend c).tmod (insn.divisor v) := by
        rw [hsigned.quotient_eq hok] at hsum
        have hdef := Int.tdiv_mul_add_tmod (insn.dividend c) (insn.divisor v)
        omega
      unfold remainder
      rw [← hrem, BitVec.ofInt_toInt]
  | false =>
    obtain ⟨D, hDdef⟩ : ∃ D : ℕ, D = (insn.high c).toNat * 2 ^ opWidth insn.rd.sizeshift + (insn.low c).toNat := ⟨_, rfl⟩
    have hD : insn.dividend c = (D : ℤ) := by
      unfold dividend number
      rw [hs, hDdef]
      push_cast
      rfl
    have hd : insn.divisor v = (v.toNat : ℤ) := by
      unfold divisor number
      rw [hs]
      rfl
    have hunsigned := divRemOf_exact hw' (insn.high c) (insn.low c) (v)
    rw [← hDdef] at hunsigned
    refine ⟨_, rfl, ⟨?_, fun hok => ?_, fun hok => ?_⟩⟩
    · unfold Divides InRange
      rw [hs, hD, hd, ← Int.ofNat_tdiv]
      refine hunsigned.ok_iff.trans ?_
      have hpow : ((2 : ℤ) ^ opWidth insn.rd.sizeshift) = ((2 ^ opWidth insn.rd.sizeshift : ℕ) : ℤ) := by push_cast; rfl
      rw [if_neg Bool.false_ne_true, hpow]
      generalize D / v.toNat = q
      omega
    · unfold quotient
      rw [hD, hd, ← Int.ofNat_tdiv, ← hunsigned.quotient_eq hok, BitVec.ofInt_natCast]
      exact ((BitVec.ofNat_toNat _ _).trans (BitVec.setWidth_eq _)).symm
    · unfold remainder
      rw [hD, hd, ← Int.ofNat_tmod, ← hunsigned.remainder_eq hok, BitVec.ofInt_natCast]
      exact ((BitVec.ofNat_toNat _ _).trans (BitVec.setWidth_eq _)).symm

/-- What stops does not end. -/
theorem not_wp_of_raises {exec : Synthop} {ops : List TransOp} {exception : InternalException} {Q : SeqCore → Prop}
    (h : Raises exec ops exception c) : ¬Wp exec ops Q c := by
  intro hwp
  obtain ⟨c₁, hrun, -⟩ := hwp fun _ _ => Frame.Sfr.zero
  obtain ⟨c₂, hstop, -⟩ := h fun _ _ => Frame.Sfr.zero
  have hboth := hrun.symm.trans hstop
  cases hboth

/-- The least dividend of all has no quotient of 64 bits. -/
theorem not_divides_least (insn : MulDiv) (hs : insn.signed = true) (hD : insn.dividend c = -2 ^ 127)
    (v : BitVec (opWidth insn.rd.sizeshift)) : ¬insn.Divides c v := by
  rintro ⟨hne, hrange⟩
  have hw : opWidth insn.rd.sizeshift ≤ 64 := opWidth_le insn.rd.sizeshift_le
  have hpow : (2 : ℤ) ^ (opWidth insn.rd.sizeshift - 1) ≤ 2 ^ 63 := pow_le_pow_right₀ (by decide) (by omega)
  unfold InRange at hrange
  rw [hs, if_pos rfl] at hrange
  have hd : (insn.divisor v).natAbs ≤ 2 ^ 63 := by
    have hle := BitVec.le_toInt v
    have hlt := BitVec.toInt_lt (x := v)
    unfold divisor number
    rw [hs, if_pos rfl]
    have hcast : ((2 ^ 63 : ℕ) : ℤ) = 2 ^ 63 := by norm_num
    omega
  have hpos : 0 < (insn.divisor v).natAbs := Int.natAbs_pos.2 hne
  have habs := Int.natAbs_tdiv (insn.dividend c) (insn.divisor v)
  have hleast : (insn.dividend c).natAbs = 2 ^ 127 := by
    rw [hD]
    rfl
  have hbig : 2 ^ 64 ≤ ((insn.dividend c).tdiv (insn.divisor v)).natAbs := by
    rw [habs, hleast]
    refine (Nat.le_div_iff_mul_le hpos).2 ((Nat.mul_le_mul_left _ hd).trans ?_)
    norm_num
  have hsmall : ((insn.dividend c).tdiv (insn.divisor v)).natAbs ≤ 2 ^ 63 := by
    have hcast : ((2 ^ 63 : ℕ) : ℤ) = 2 ^ 63 := by norm_num
    omega
  exact absurd (hbig.trans hsmall) (by norm_num)

/-- The flaws of the signed division are seen, whatever the divisor is to be. -/
theorem flaws_seen (insn : MulDiv) (h : c.Ready) (hclean : Clean c) (hacc : insn.rd.Accessible pfx rip c false)
    (hdivide : insn.divide = true) (hno : ¬insn.Traps pfx rip c) {v : BitVec (opWidth insn.rd.sizeshift)}
    (hraise : ¬insn.Divides c v → Raises rest.withMulDiv.withImpl (insn.decodeDiv pfx rip) .divideOverflow c) :
    ¬insn.Flawed c (insn.rd.value pfx rip c) := by
  rintro ⟨hs, hflaw⟩
  obtain ⟨hw, -, h32⟩ := widths insn.rd.sizeshift_le
  have hD : insn.dividend c = signedDividend (insn.high c) (insn.low c) := by
    unfold dividend number
    rw [hs]
    rfl
  have hd : insn.divisor (insn.rd.value pfx rip c) = (insn.rd.value pfx rip c).toInt := by
    unfold divisor number
    rw [hs]
    rfl
  rcases hflaw with hloses | hpair
  · have hnot := not_divides_least insn hs hloses.1 v
    rw [hD, hd] at hloses
    obtain ⟨r, hr, hok, -⟩ := divRemSOf_lost hw hloses
    have hdividing : dividing insn.signed (insn.high c) (insn.low c) (insn.rd.value pfx rip c) = some r := by
      rw [hs]
      exact hr
    exact not_wp_of_raises (hraise hnot) (wp_decodeDiv rest insn h hclean hacc hdividing hok)
  · rw [hD, hd, ← h32] at hpair
    exact hno ⟨hdivide, hs, (divRemSOf_eq_none_iff hw _ _ _).2 hpair⟩

/-- An operand that may not be loaded faults. -/
theorem decode_faults (insn : MulDiv) (h : c.Ready) (hctx : insn.rd.X86Accessible pfx rip c false)
    (hno : ¬insn.rd.Accessible pfx rip c false) (collect : Bool) : ∃ c' ctx,
    perform rest.withMulDiv.withImpl (insn.decode pfx rip collect) (fun _ _ => Frame.Sfr.zero) c =
      .error (c', .exception ctx) ∧ ctx.exception = InternalException.pageFaultOnRead.code := by
  obtain ⟨divide, signed, d⟩ := insn
  cases d with
  | reg r => exact absurd trivial hno
  | mem o size =>
    have hsize : size.val ≤ 3 := by omega
    have hload : ¬X86Sim.Accessible c false (canonicalAddr (accessValue pfx c rip o)) size := fun hok =>
      hno ⟨hctx.1, hok, fun hst => Bool.noConfusion hst⟩
    have hfaults := fun destreg hw ops => faults_loadOperand pfx rip destreg o size rest.withMulDiv h hctx.1 true
      (show isload .opLd = true by decide) hsize hw ops hload fun _ _ => Frame.Sfr.zero
    cases divide with
    | true => exact hfaults Reg.temp2 ⟨by decide, by decide, by decide⟩ _
    | false =>
      have hmul := hfaults Reg.temp4 ⟨by decide, by decide, by decide⟩
      unfold decode decodeMul
      simp only [Bool.false_eq_true, if_false]
      exact hmul _

/-- **Products and quotients are what x86 says, exactly** when the word that is multiplied by is the operand or makes
no difference, the upper bits of `rax` and `rdx` agree if a product of 16 bits is made, and the divisor the uops
load has the quotient of the operand and meets neither flaw of the signed division. -/
theorem mul_div_right_iff (rest : Synthop) (insn : MulDiv) (pfx : Prefixes) (rip : W64) (c : SeqCore) (collect : Bool)
    (h : c.Ready) (hclean : Clean c) (hacc : insn.rd.X86Accessible pfx rip c false) :
    insn.Right pfx rip c rest.withMulDiv.withImpl collect ↔ insn.Exact pfx rip c := by
  have hnonempty : Nonempty (ℕ → Sfr) := ⟨fun _ => Frame.Sfr.zero⟩
  by_cases hload : insn.rd.Accessible pfx rip c false
  · unfold Right Exact
    rw [and_iff_right hload]
    by_cases hdivide : insn.divide = true
    · unfold decode
      simp only [hdivide, if_true]
      constructor
      · rintro ⟨hno, hdivided, hraise⟩
        have hflaws := flaws_seen rest insn h hclean hload hdivide hno hraise
        obtain ⟨r, hr, hsound⟩ := dividing_sound insn c _ hflaws
        have hdoes : insn.Divides c (insn.rd.value pfx rip c) → Wp rest.withMulDiv.withImpl (insn.decodeDiv pfx rip)
            (insn.Divided c (insn.rd.value pfx rip c)) c := fun hdiv => by
          have hok := hsound.ok.2 hdiv
          have hrun := wp_decodeDiv rest insn h hclean hload hr hok
          rw [hsound.quotient hok, hsound.remainder hok] at hrun
          exact hrun
        have hfit : insn.Divides c (insn.rd.value pfx rip c) ↔ insn.Divides c (insn.rd.x86Value pfx rip c) := by
          constructor
          · intro hdiv
            by_contra hnot
            exact not_wp_of_raises (hraise hnot) (hdoes hdiv)
          · intro hdiv
            by_contra hnot
            have hok : r.ok = false := Bool.eq_false_iff.2 fun hok => hnot (hsound.ok.1 hok)
            exact not_wp_of_raises (raises_decodeDiv rest insn h hclean hload hr hok) (hdivided hdiv)
        refine ⟨hflaws, hfit, fun hdiv => ?_⟩
        -- the one run has both results
        obtain ⟨c₁, hrun₁, hdone₁⟩ := hdoes hdiv fun _ _ => Frame.Sfr.zero
        obtain ⟨c₂, hrun₂, hdone₂⟩ := hdivided (hfit.1 hdiv) fun _ _ => Frame.Sfr.zero
        obtain rfl := Except.ok.inj (hrun₁.symm.trans hrun₂)
        exact written_inj insn hdone₁ hdone₂
      · rintro ⟨hflaws, hfit, hsame⟩
        obtain ⟨r, hr, hsound⟩ := dividing_sound insn c _ hflaws
        refine ⟨fun htraps => ?_, fun hdiv => ?_, fun hdiv => ?_⟩
        · obtain ⟨-, hs, hnone⟩ := htraps
          rw [hs] at hr
          exact absurd (hr.symm.trans hnone) (Option.some_ne_none r)
        · have hdiv' := hfit.2 hdiv
          have hok := hsound.ok.2 hdiv'
          have hrun := wp_decodeDiv rest insn h hclean hload hr hok
          rw [hsound.quotient hok, hsound.remainder hok, (hsame hdiv').1, (hsame hdiv').2] at hrun
          exact hrun
        · have hok : r.ok = false := Bool.eq_false_iff.2 fun hok => hdiv (hfit.1 (hsound.ok.1 hok))
          exact raises_decodeDiv rest insn h hclean hload hr hok
    · unfold decode
      simp only [hdivide, Bool.false_eq_true, if_false]
      exact Triples.wp_iff (wp_decodeMul rest insn h hclean hload collect) fun _ hmade => multiplied_iff insn hmade
  · refine iff_of_false (fun hright => ?_) fun hexact => hload hexact.1
    obtain ⟨c₁, ctx, hstop, hcode⟩ := decode_faults rest insn h hacc hload collect
    have hnowp : ∀ Q, ¬Wp rest.withMulDiv.withImpl (insn.decode pfx rip collect) Q c := fun Q hwp => by
      obtain ⟨c₂, hrun, -⟩ := hwp fun _ _ => Frame.Sfr.zero
      have hboth := hrun.symm.trans hstop
      cases hboth
    unfold Right at hright
    dsimp only at hright
    split at hright
    · obtain ⟨-, hdivided, hraise⟩ := hright
      by_cases hdiv : insn.Divides c (insn.rd.x86Value pfx rip c)
      · exact hnowp _ (hdivided hdiv)
      · -- a fault on the divisor is no divide error
        obtain ⟨c₂, hraised, -⟩ := hraise hdiv fun _ _ => Frame.Sfr.zero
        have hboth := Except.error.inj (hstop.symm.trans hraised)
        have hctx := Issued.exception.inj (Prod.ext_iff.1 hboth).2
        rw [hctx] at hcode
        have hne : InternalException.divideOverflow.code ≠ InternalException.pageFaultOnRead.code := by decide
        exact hne hcode
    · exact hnowp _ hright

/-- Where the uops load what x86 does, the conditions are on the operand. -/
theorem exact_iff (insn : MulDiv) (hagree : insn.rd.Agrees pfx rip c) (hacc : insn.rd.X86Accessible pfx rip c false) :
    insn.Exact pfx rip c ↔ if insn.divide then ¬insn.Flawed c (insn.rd.x86Value pfx rip c)
      else (insn.low c = 0 ∨ insn.taken pfx rip c = insn.rd.x86Value pfx rip c) ∧
        (insn.rd.sizeshift = 1 → c.arf Reg.rax >>> 16 = c.arf Reg.rdx >>> 16) := by
  unfold Exact SameQuotient
  rw [and_iff_right (hagree.accessible.2 hacc), hagree.value]
  split
  · exact and_iff_left ⟨Iff.rfl, fun _ => ⟨rfl, rfl⟩⟩
  · exact Iff.rfl

/-- `mul ebx`. -/
def mulEbx : MulDiv := ⟨false, false, .reg (.d 3)⟩

theorem mul_div_right_iff_mul : mulEbx.Right .plain 0
    (AluInsn.core fun r => if r = Reg.rax then 0xffffffff else if r = Reg.rbx then 3 else 0)
    (Synthop.withMulDiv fun _ _ => ⟨0, 0⟩).withImpl false := by
  have hready : (AluInsn.core fun r => if r = Reg.rax then 0xffffffff else if r = Reg.rbx then 3 else 0).Ready :=
    ⟨by decide +kernel, by decide +kernel, by decide +kernel, by decide +kernel⟩
  refine (mul_div_right_iff (fun _ _ => ⟨0, 0⟩) mulEbx .plain 0 _ false hready (by decide +kernel) trivial).2 ?_
  exact ⟨trivial, .inr rfl, fun h1 => absurd h1 (by decide)⟩

/-- `mul ah`. -/
def mulAh : MulDiv := ⟨false, false, .reg (.hi 0)⟩

/-- It multiplies by `al`. -/
theorem not_mul_div_right : ¬ ∀ (rest : Synthop) (insn : MulDiv) (pfx : Prefixes) (rip : W64) (c : SeqCore) (collect : Bool),
    c.Ready → Clean c → insn.rd.X86Accessible pfx rip c false → insn.Right pfx rip c rest.withMulDiv.withImpl collect := by
  intro h
  let c := AluInsn.core fun r => if r = Reg.rax then 0x102 else 0
  have hready : c.Ready := ⟨by decide +kernel, by decide +kernel, by decide +kernel, by decide +kernel⟩
  have hright : Wp (Synthop.withMulDiv fun _ _ => ⟨0, 0⟩).withImpl (mulAh.decode .plain 0 false) (mulAh.Multiplied c (mulAh.rd.x86Value .plain 0 c)) c :=
    h (fun _ _ => ⟨0, 0⟩) mulAh .plain 0 c false hready (by decide +kernel) trivial
  obtain ⟨c', hrun, hmultiplied⟩ := hright fun _ _ => Frame.Sfr.zero
  have hvalue : (perform (Synthop.withMulDiv fun _ _ => ⟨0, 0⟩).withImpl (mulAh.decode .plain 0 false)
      (fun _ _ => Frame.Sfr.zero) c).toOption.map (fun c => c.arf Reg.rax) = some 4 := by
    decide +kernel
  have hdone : perform (Synthop.withMulDiv fun _ _ => ⟨0, 0⟩).withImpl (mulAh.decode .plain 0 false)
      (fun _ _ => Frame.Sfr.zero) c = .ok c' := hrun
  rw [hdone] at hvalue
  have hrax : c'.arf Reg.rax = 4 := Option.some.inj hvalue
  have hresult : pair (c.arf Reg.rax) (BitVec.ofInt 8 (mulAh.product c (mulAh.rd.x86Value .plain 0 c)))
      (BitVec.ofInt 8 (mulAh.product c (mulAh.rd.x86Value .plain 0 c) / 2 ^ 8)) = 2 := by decide +kernel
  have hwritten := hmultiplied.result.1 Reg.rax (by decide) (by decide)
  rw [if_pos rfl, if_pos (show mulAh.rd.sizeshift = 0 from rfl), hrax] at hwritten
  exact absurd (hwritten.trans hresult) (by decide)

end MulDiv

end X86Sim
