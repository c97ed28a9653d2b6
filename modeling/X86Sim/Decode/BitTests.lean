import X86Sim.Decode.AluMem
import X86Sim.Decode.Lea
import X86Sim.Uops.Bits

/-!
# Bit tests (`decode-fast.cpp`, `decode-complex.cpp`)

`bt`, `bts`, `btr` and `btc` of a register are one uop on all its 64 bits. Of memory, the
address is generated into a temporary; a byte at a signed distance from it is loaded, tested and
stored.
-/

namespace X86Sim

open X86Sim.Seq X86Sim.Seq.SeqCore BitStrings

/-- `SETFLAG_CF`. -/
def SetFlags.carry : SetFlags := ⟨false, true, false⟩

/-- A bit test of an operand of 16, 32 or 64 bits. The bit number is in a register as wide or
is an immediate. -/
structure BitInsn where
  op : BitOp
  rd : Operand
  ra : RegImm
  wide : 1 ≤ rd.sizeshift
  size : ∀ r, ra = .reg r → r.sizeshift = rd.sizeshift

namespace BitInsn

/-- The reference of the bit string itself, as wide as an address. -/
def stringRef (pfx : Prefixes) (o : X86Operand) : MemRef := o.memRef (if pfx.addr then 2 else 3)

/-- The test of the byte loaded from `ra` and `imm`, and the store of what it leaves. -/
def byteTest (op : BitOp) (ra rb : Reg) (offset bit : W64) : List TransOp :=
  [.mk3 .opLd Reg.temp0 ra Reg.imm Reg.zero 0 offset,
    .init op.opcode Reg.temp0 Reg.temp0 rb Reg.zero 0 bit 0 .carry] ++
  if op = .bt then [] else [.mk3 .opSt Reg.mem ra Reg.imm Reg.temp0 0 offset]

/-- The uops of a bit test (0x1a3, 0x1ab, 0x1b3, 0x1bb, 0x1ba). -/
def decode (insn : BitInsn) (pfx : Prefixes) (rip : W64) : List TransOp :=
  match insn.rd with
  | .reg rd =>
    [.init insn.op.opcode (if insn.op = .bt then Reg.temp0 else rd.arch) rd.arch insn.ra.srcreg Reg.zero 3
      insn.ra.rbimm 0 .carry]
  | .mem o _ =>
    addressGenerate pfx rip Reg.temp1 Reg.zero (stringRef pfx o) .opAdd true true ++
      match insn.ra with
      | .reg r =>
        -- byte index and offset
        [.mk3 .opSar Reg.temp2 r.arch Reg.imm Reg.zero 3 3, .mk3 .opAdd Reg.temp2 Reg.temp1 Reg.temp2 Reg.zero 3 3] ++
          byteTest insn.op Reg.temp2 r.arch 0 0
      | .imm v => byteTest insn.op Reg.temp1 Reg.imm (v.sshiftRight 3) (v &&& 7)

/-! ### What x86 says -/

variable (insn : BitInsn) (pfx : Prefixes) (rip : W64) (c : SeqCore)

/-- The bit number, which is signed. -/
def offset : ℤ :=
  match insn.ra with
  | .reg r => (r.read (c.arf r.arch)).toInt
  | .imm v => v.toInt

/-- The bit of the element. -/
def bit : ℕ := (insn.offset c % opWidth insn.rd.sizeshift).toNat

/-- The address of the element: a register counts elements up or down from the operand, an
immediate stays in it. -/
def element (o : X86Operand) : ℕ :=
  match insn.ra with
  | .reg _ => canonicalAddr (o.address pfx c rip +
      BitVec.ofInt 64 (2 ^ insn.rd.sizeshift * (insn.offset c / opWidth insn.rd.sizeshift)))
  | .imm _ => canonicalAddr (o.address pfx c rip)

/-- The element, in the register or in memory. -/
def value : BitVec (opWidth insn.rd.sizeshift) :=
  match insn.rd with
  | .reg r => r.read (c.arf r.arch)
  | .mem o size => loadBytes c.space.bytes (insn.element pfx rip c o) size

/-- The bit selected. -/
def selected : Bool := (insn.value pfx rip c).getLsbD (insn.bit c)

/-- The element with the bit set, reset or complemented. -/
def changed : BitVec (opWidth insn.rd.sizeshift) :=
  setBit (insn.value pfx rip c) (insn.bit c) (insn.op.change (insn.selected pfx rip c))

/-- An element in memory may be loaded and, if it changes, stored. -/
def Accessible : Prop :=
  match insn.rd with
  | .reg _ => True
  | .mem o size => HostCtx c ∧ X86Sim.Accessible c false (insn.element pfx rip c o) size ∧
    (insn.op ≠ .bt → X86Sim.Accessible c true (insn.element pfx rip c o) size)

/-- The changed element is written. -/
def Written (c' : SeqCore) : Prop :=
  match insn.rd with
  | .reg p => (∀ r : Reg, r.isArch = true → r ≠ Reg.flags → c'.arf r =
      if insn.op ≠ .bt ∧ r = p.arch then p.write (c.arf r) (insn.changed pfx rip c |>.setWidth _) else c.arf r) ∧
      c'.space.bytes = c.space.bytes
  | .mem o size => (∀ r : Reg, r.isArch = true → r ≠ Reg.flags → c'.arf r = c.arf r) ∧
    c'.space.bytes = storeBytewise (insn.element pfx rip c o) ((insn.changed pfx rip c).setWidth 64) c.space.bytes
      (2 ^ size.val)

/-- A bit test has done what x86 says. -/
structure Right (c' : SeqCore) : Prop where
  result : insn.Written pfx rip c c'
  carry : (c'.arf Reg.flags).getLsbD 0 = insn.selected pfx rip c
  zero : (c'.arf Reg.flags).getLsbD 6 = (c.arf Reg.flags).getLsbD 6

/-! ### What the uops do -/

/-- The sum the operand's address is generated to: segment base, base, index and displacement, of 32 bits
under an address size prefix. -/
def stringBase (pfx : Prefixes) (rip : W64) (c : SeqCore) (o : X86Operand) : W64 :=
  if o.base = .rip then signext64 (rip + o.disp) 48
  else if pfx.addr then ((biasValue pfx c + o.sum c.arf rip).setWidth 32).setWidth 64
  else biasValue pfx c + o.sum c.arf rip

/-- The byte that is tested: the whole register, or the signed immediate, counts bits from the operand. -/
def tested (o : X86Operand) : ℕ := canonicalAddr (stringBase pfx rip c o + (insn.ra.data c.arf).sshiftRight 3)

/-- When a bit test is right. A register: the bit number is the same modulo 64 or else both bits are, and stay;
of 32 bits that change, the upper half is zero. Memory: the byte tested has the bit in it or else may be
accessed, both bits are the same, and stay. -/
def Exact : Prop :=
  match insn.rd with
  | .reg rd =>
    let v := c.arf rd.arch
    let number := (insn.ra.data c.arf).toNat % 64
    (number = insn.bit c ∨ v.getLsbD number = v.getLsbD (insn.bit c) ∧
      insn.op.change (v.getLsbD (insn.bit c)) = v.getLsbD (insn.bit c)) ∧
    (rd.sizeshift = 2 → insn.op = .bt ∨ v >>> 32 = 0)
  | .mem o _ =>
    let byte := byteAddr (insn.element pfx rip c o) (insn.bit c / 8)
    let tested := insn.tested pfx rip c o
    tested = byte ∨ X86Sim.Accessible c false tested 0 ∧ (insn.op ≠ .bt → X86Sim.Accessible c true tested 0) ∧
      (c.space.bytes tested).getLsbD (insn.bit c % 8) = (c.space.bytes byte).getLsbD (insn.bit c % 8) ∧
      insn.op.change ((c.space.bytes byte).getLsbD (insn.bit c % 8)) = (c.space.bytes byte).getLsbD (insn.bit c % 8)

/-! ### Bit numbers -/

/-- A signed number modulo a power of two that divides the range. -/
theorem toInt_emod {n W : ℕ} (x : BitVec n) (hW : W ∣ 2 ^ n) : (x.toInt % W).toNat = x.toNat % W := by
  obtain ⟨q, hq⟩ := hW
  have hnat : (x.toInt % (W : ℤ)) = ((x.toNat % W : ℕ) : ℤ) := by
    rw [BitVec.toInt_eq_toNat_cond]
    split
    · exact (Int.natCast_emod _ _).symm
    · have hcast : ((2 ^ n : ℕ) : ℤ) = W * q := by exact_mod_cast hq
      rw [hcast, Int.sub_mul_emod_self_left]
      exact (Int.natCast_emod _ _).symm
  rw [hnat]
  exact Int.toNat_natCast _

/-- The width of an operand divides the range of its numbers. -/
theorem opWidth_dvd {size : ℕ} (hsize : size ≤ 3) : opWidth size ∣ 2 ^ opWidth size ∧ opWidth size ∣ 2 ^ 64 := by
  interval_cases size <;> exact ⟨by decide, by decide⟩

theorem opWidth_dvd_64 {size : ℕ} (hsize : size ≤ 3) : opWidth size ∣ 64 := by
  interval_cases size <;> decide

theorem ra_hibyte (insn : BitInsn) : insn.ra.hibyte = false := by
  obtain ⟨op, rd, ra, wide, size⟩ := insn
  cases ra with
  | imm v => rfl
  | reg r =>
    by_contra h
    have hzero := Apr.sizeshift_of_hibyte (Bool.not_eq_false _ ▸ h : r.hibyte = true)
    have heq := size r rfl
    omega

/-- The bit of the element is the number modulo the width. -/
theorem bit_eq (insn : BitInsn) (c : SeqCore) :
    insn.bit c = (insn.ra.data c.arf).toNat % opWidth insn.rd.sizeshift := by
  have hhigh := insn.ra_hibyte
  obtain ⟨op, rd, ra, wide, size⟩ := insn
  obtain ⟨hrange, h64⟩ := opWidth_dvd rd.sizeshift_le
  unfold bit offset RegImm.data
  cases ra with
  | imm v => exact toInt_emod v h64
  | reg r =>
    have hread : r.read (c.arf r.arch) = (c.arf r.arch).setWidth (opWidth r.sizeshift) := by
      unfold Apr.read
      rw [show r.hibyte = false from hhigh, if_neg Bool.false_ne_true]
    have hsize := size r rfl
    dsimp only
    rw [← hsize] at hrange
    rw [hread, ← hsize, toInt_emod _ hrange, BitVec.toNat_setWidth, Nat.mod_mod_of_dvd _ hrange]

theorem bit_lt (insn : BitInsn) (c : SeqCore) : insn.bit c < opWidth insn.rd.sizeshift := by
  rw [bit_eq]
  exact Nat.mod_lt _ (opWidth_pos _)

/-! ### Registers -/

/-- The low bits of a word with a bit replaced, merged: of 32 bits, nothing above them. -/
theorem merge_setBit {size k : ℕ} (h1 : 1 ≤ size) (h3 : size ≤ 3) (hk : k < opWidth size) (v : W64) (b : Bool) :
    x86Merge size v ((setBit (v.setWidth (opWidth size)) k b).setWidth 64) =
      if size = 2 then ((setBit v k b).setWidth 32).setWidth 64 else setBit v k b := by
  have hle := opWidth_le h3
  have hlow : ∀ i < opWidth size, (setBit (v.setWidth (opWidth size)) k b).getLsbD i = (setBit v k b).getLsbD i := by
    intro i hi
    rw [getLsbD_setBit hk, getLsbD_setBit (by omega), BitVec.getLsbD_setWidth, decide_eq_true hi, Bool.true_and]
  have hcut : (setBit (v.setWidth (opWidth size)) k b).setWidth 64 = ((setBit v k b).setWidth (opWidth size)).setWidth 64 := by
    congr 1
    apply BitVec.eq_of_getLsbD_eq
    intro i hi
    rw [hlow i hi, BitVec.getLsbD_setWidth, decide_eq_true hi, Bool.true_and]
  rw [hcut, x86Merge_trunc h3]
  interval_cases size
  · -- above 16 bits the word is as before
    rw [if_neg (by decide)]
    apply BitVec.eq_of_getLsbD_eq
    intro i hi
    rw [x86Merge_bit (Nat.le_refl 1)]
    split
    · rfl
    · rename_i hhigh
      rw [getLsbD_setBit (by omega), if_neg (by omega)]
  · exact (and_allOnes_setWidth 32 _)
  · rfl

theorem upper_zero (v : W64) : v >>> 32 = 0 ↔ ∀ i, 32 ≤ i → v.getLsbD i = false := by
  constructor
  · intro h i hi
    obtain ⟨j, rfl⟩ : ∃ j, i = 32 + j := ⟨i - 32, by omega⟩
    rw [← BitVec.getLsbD_ushiftRight, h]
    exact BitVec.getLsbD_zero
  · intro h
    apply BitVec.eq_of_getLsbD_eq
    intro i hi
    rw [BitVec.getLsbD_ushiftRight, h _ (Nat.le_add_right _ _)]
    exact BitVec.getLsbD_zero.symm

/-- A word whose upper half is zero, and a bit of its lower half. -/
theorem setBit_narrow {v : W64} (hv : v >>> 32 = 0) {k : ℕ} (hk : k < 32) (b : Bool) :
    ((setBit v k b).setWidth 32).setWidth 64 = setBit v k b := by
  apply BitVec.eq_of_getLsbD_eq
  intro i hi
  rw [trunc32_bit _ hi]
  by_cases h32 : i < 32
  · rw [decide_eq_true h32, Bool.true_and]
  · rw [decide_eq_false h32, Bool.false_and, getLsbD_setBit (by omega), if_neg (by omega),
      (upper_zero v).1 hv i (by omega)]

/-- A bit of the whole register and a bit of the operand: the change of the one is that of the other just if
they are the same bit or neither changes, and nothing of the register is cleared. -/
theorem register_iff (o : BitOp) {v : W64} {size number k : ℕ} (h1 : 1 ≤ size) (h3 : size ≤ 3) (hnum : number < 64)
    (hk : k = number % opWidth size) :
    (setBit v number (o.change (v.getLsbD number)) =
        x86Merge size v ((setBit (v.setWidth (opWidth size)) k (o.change (v.getLsbD k))).setWidth 64) ∧
      v.getLsbD number = v.getLsbD k) ↔
    (number = k ∨ v.getLsbD number = v.getLsbD k ∧ o.change (v.getLsbD k) = v.getLsbD k) ∧
      (size = 2 → v >>> 32 = 0) := by
  have hklt : k < opWidth size := hk ▸ Nat.mod_lt _ (opWidth_pos _)
  have hk64 : k < 64 := lt_of_lt_of_le hklt (opWidth_le h3)
  -- with nothing to clear, both are words with a bit replaced
  have hplain : (setBit v number (o.change (v.getLsbD number)) = setBit v k (o.change (v.getLsbD k)) ∧
      v.getLsbD number = v.getLsbD k) ↔
      (number = k ∨ v.getLsbD number = v.getLsbD k ∧ o.change (v.getLsbD k) = v.getLsbD k) := by
    by_cases hne : number = k
    · simp [hne]
    · rw [setBit_eq_setBit hnum hk64 hne]
      constructor
      · rintro ⟨⟨-, hchange⟩, hbits⟩
        exact .inr ⟨hbits, hchange⟩
      · rintro (heq | ⟨hbits, hchange⟩)
        · exact absurd heq hne
        · exact ⟨⟨by rw [hbits, hchange], hchange⟩, hbits⟩
  rw [merge_setBit h1 h3 hklt]
  by_cases hsize : size = 2
  · rw [if_pos hsize]
    have hk32 : k < 32 := by
      rw [hsize] at hklt
      exact hklt
    constructor
    · rintro ⟨heq, hbits⟩
      have hzero : v >>> 32 = 0 := by
        rw [upper_zero]
        intro i hi
        by_cases hi64 : i < 64
        · have hat := congrArg (fun x => x.getLsbD i) heq
          simp only [getLsbD_setBit hnum, trunc32_bit _ hi64, Nat.not_lt.2 hi, decide_false, Bool.false_and] at hat
          by_cases hin : i = number
          · -- the bit is cleared, and the bit of the operand stays
            have hlow := congrArg (fun x => x.getLsbD k) heq
            simp only [getLsbD_setBit hnum, trunc32_bit _ hk64, hk32, decide_true, Bool.true_and,
              getLsbD_setBit hk64, if_true, show ¬k = number by omega, if_false] at hlow
            rw [if_pos hin, hbits, ← hlow] at hat
            rw [hin, hbits, hat]
          · rwa [if_neg hin] at hat
        · exact BitVec.getLsbD_of_ge _ _ (by omega)
      rw [setBit_narrow hzero hk32] at heq
      exact ⟨hplain.1 ⟨heq, hbits⟩, fun _ => hzero⟩
    · rintro ⟨hsame, hzero⟩
      rw [setBit_narrow (hzero hsize) hk32]
      exact hplain.2 hsame
  · rw [if_neg hsize, hplain]
    exact ⟨fun h => ⟨h, fun h2 => absurd h2 hsize⟩, fun h => h.1⟩

/-- The carry is the bit tested, and no other flag changes. -/
theorem flags_carry {c c' : SeqCore} {b : Bool} (h : FlagsSet .carry (carryWord b) c c') :
    (c'.arf Reg.flags).getLsbD 0 = b ∧ (c'.arf Reg.flags).getLsbD 6 = (c.arf Reg.flags).getLsbD 6 := by
  have hmask : (setflagsToX86Flags .carry).getLsbD 0 = true ∧ (setflagsToX86Flags .carry).getLsbD 6 = false := by
    decide
  rw [h 0, h 6, hmask.1, hmask.2, if_pos rfl, if_neg Bool.false_ne_true, carryWord_bit]
  exact ⟨rfl, rfl⟩

theorem opcode_plain (o : BitOp) : (isload o.opcode || isstore o.opcode) = false := by
  cases o <;> decide

variable {insn pfx rip c} (rest : Synthop)

/-- The uop of a bit test, of `2 ^ size` bytes. -/
theorem exec_bitop (o : BitOp) {op : TransOp} {size : ℕ} (hop : op.opcode = o.opcode) (hsize : op.size = size)
    {i : UopInputs} {a : BitVec (opWidth size)} {k : ℕ} (ha : i.ra.setWidth _ = a)
    (hk : i.rb.toNat % 2 ^ opWidth size % opWidth size = k) :
    ∃ x, rest.withBits.withShifts.withImpl op i = ⟨x86Merge size i.ra (x.setWidth 64), carryWord (a.getLsbD k)⟩ ∧
      (o ≠ .bt → x = setBit a k (o.change (a.getLsbD k))) := by
  subst hsize ha
  have hexec := exec_bit rest o hop i
  have hnum : bitNumber (i.rb.setWidth (opWidth op.size)) = k := by
    unfold bitNumber
    rw [BitVec.toNat_setWidth, hk]
  rw [hnum] at hexec
  refine ⟨_, hexec, fun ho => ?_⟩
  rw [o.exp_result ho (opWidth_pos _), hnum]

/-- The uop of a register: the bit of all 64, for any size of the operand. -/
theorem wp_bitRegister (h : c.Ready) (o : BitOp) (rd : Apr) {ra : RegImm} (hhigh : ra.hibyte = false) :
    let number := (ra.data c.arf).toNat % 64
    Wp rest.withBits.withShifts.withImpl
      [.init o.opcode (if o = .bt then Reg.temp0 else rd.arch) rd.arch ra.srcreg Reg.zero 3 ra.rbimm 0 .carry] (fun c' =>
        Leaves [if o = .bt then Reg.temp0 else rd.arch, Reg.flags] c.space.bytes c c' ∧
        (o ≠ .bt → c'.arf rd.arch = setBit (c.arf rd.arch) number (o.change ((c.arf rd.arch).getLsbD number))) ∧
        FlagsSet .carry (carryWord ((c.arf rd.arch).getLsbD number)) c c') c := by
  intro number
  obtain ⟨op, hop⟩ : ∃ op : TransOp, op = .init o.opcode (if o = .bt then Reg.temp0 else rd.arch) rd.arch ra.srcreg
      Reg.zero 3 ra.rbimm 0 .carry := ⟨_, rfl⟩
  rw [← hop]
  have hmem : isMem op = false := by
    rw [hop]
    exact opcode_plain o
  have hrd : op.rd = if o = .bt then Reg.temp0 else rd.arch := by rw [hop]; rfl
  have hw : Writable op.rd := by
    rw [hrd]
    split
    · exact ⟨by decide, by decide, by decide⟩
    · exact rd.writable
  have hra : (c.inputs op).ra = c.arf rd.arch := by
    rw [hop]
    show c.arf (remap rd.arch) = _
    rw [remap_of_lt (lt_trans rd.arch_lt (by decide))]
  have hrb : (c.inputs op).rb = ra.data c.arf := by
    rw [hop]
    exact RegImm.rbdata hhigh fun _ _ _ => rfl
  have hk : (c.inputs op).rb.toNat % 2 ^ opWidth 3 % opWidth 3 = number := by
    rw [hrb]
    show _ % 2 ^ 64 % 64 = _
    rw [Nat.mod_eq_of_lt (ra.data c.arf).isLt]
  obtain ⟨x, hexec, hx⟩ := @exec_bitop rest o op 3 (by rw [hop]; rfl) (by rw [hop]; rfl) (c.inputs op) _ number rfl hk
  have hwide : (c.inputs op).ra.setWidth (opWidth 3) = c.arf rd.arch := by
    rw [hra]
    exact BitVec.setWidth_eq _
  rw [hwide] at hexec hx
  refine Triples.wp_mono (wp_result_flags hmem (by rw [hop]; rfl) (by rw [hop]; rfl) (by rw [hop]; rfl) h hw hexec
    (carryWord_inv _)) ?_
  rintro c' ⟨hleaves, hvalue, hflags⟩
  have hset : op.setflags = .carry := by rw [hop]; rfl
  rw [hrd] at hleaves
  rw [hset] at hflags
  refine ⟨hleaves, fun ho => ?_, hflags⟩
  rw [hrd, if_neg ho, hx ho] at hvalue
  rw [hvalue]
  show (setBit (c.arf rd.arch) number _).setWidth 64 = _
  rw [BitVec.setWidth_eq]

/-- The bit test of a register. -/
theorem wp_register (h : c.Ready) (insn : BitInsn) {rd : Apr} (hrd : insn.rd = .reg rd) :
    Wp rest.withBits.withShifts.withImpl (insn.decode pfx rip)
      (fun c' => insn.Right pfx rip c c' ↔ insn.Exact pfx rip c) c := by
  have hhigh := insn.ra_hibyte
  have hbit := insn.bit_eq c
  have hklt := insn.bit_lt c
  obtain ⟨o, d, ra, hwide, hsize⟩ := insn
  obtain rfl : d = .reg rd := hrd
  have hwide' : 1 ≤ rd.sizeshift := hwide
  have hlow : rd.hibyte = false := by
    by_contra hhi
    have hzero := Apr.sizeshift_of_hibyte (Bool.not_eq_false _ ▸ hhi)
    omega
  refine Triples.wp_mono (wp_bitRegister rest h o rd hhigh) ?_
  rintro c' ⟨hleaves, hdest, hflags⟩
  obtain ⟨hcarry, hzero⟩ := flags_carry hflags
  -- the uop counts the bit modulo 64, the instruction modulo the operand size
  obtain ⟨k, hk⟩ : ∃ k, k = (BitInsn.mk o (.reg rd) ra hwide hsize).bit c := ⟨_, rfl⟩
  rw [← hk] at hbit hklt
  have hklt : k < opWidth rd.sizeshift := hklt
  have hbit : k = (ra.data c.arf).toNat % opWidth rd.sizeshift := hbit
  have hcarry : (c'.arf Reg.flags).getLsbD 0 = (c.arf rd.arch).getLsbD ((ra.data c.arf).toNat % 64) := hcarry
  have hread : rd.read (c.arf rd.arch) = (c.arf rd.arch).setWidth (opWidth rd.sizeshift) := by
    unfold Apr.read
    rw [hlow, if_neg Bool.false_ne_true]
  have hselected : (BitInsn.mk o (.reg rd) ra hwide hsize).selected pfx rip c = (c.arf rd.arch).getLsbD k := by
    unfold selected
    rw [← hk]
    show (rd.read (c.arf rd.arch)).getLsbD k = _
    rw [hread, BitVec.getLsbD_setWidth, decide_eq_true hklt, Bool.true_and]
  have hwrite : rd.write (c.arf rd.arch) (((BitInsn.mk o (.reg rd) ra hwide hsize).changed pfx rip c).setWidth _) =
      x86Merge rd.sizeshift (c.arf rd.arch) ((setBit ((c.arf rd.arch).setWidth (opWidth rd.sizeshift)) k
        (o.change ((c.arf rd.arch).getLsbD k))).setWidth 64) := by
    rw [Apr.write_eq rd hlow]
    unfold changed
    rw [hselected, ← hk]
    show x86Merge _ _ (((setBit (rd.read (c.arf rd.arch)) k _).setWidth (opWidth rd.sizeshift)).setWidth 64) = _
    rw [hread, BitVec.setWidth_eq]
  have hiff := @register_iff o (c.arf rd.arch) rd.sizeshift ((ra.data c.arf).toNat % 64) k hwide' rd.sizeshift_le
    (Nat.mod_lt _ (by decide)) (hbit.trans (Nat.mod_mod_of_dvd _ (opWidth_dvd_64 rd.sizeshift_le)).symm)
  have hexact : (BitInsn.mk o (.reg rd) ra hwide hsize).Exact pfx rip c ↔
      ((ra.data c.arf).toNat % 64 = k ∨ (c.arf rd.arch).getLsbD ((ra.data c.arf).toNat % 64) = (c.arf rd.arch).getLsbD k ∧
        o.change ((c.arf rd.arch).getLsbD k) = (c.arf rd.arch).getLsbD k) ∧
      (rd.sizeshift = 2 → o = .bt ∨ c.arf rd.arch >>> 32 = 0) := by
    rw [hk]
    rfl
  rw [hexact]
  constructor
  · intro hright
    have hsame : (c.arf rd.arch).getLsbD ((ra.data c.arf).toNat % 64) = (c.arf rd.arch).getLsbD k := by
      rw [← hcarry, ← hselected]
      exact hright.carry
    -- bt writes a temporary only, so it cannot go wrong in the upper half
    by_cases ho : o = .bt
    · subst ho
      exact ⟨.inr ⟨hsame, rfl⟩, fun _ => .inl rfl⟩
    · have hres := hright.result.1 rd.arch (decide_eq_true (lt_trans rd.arch_lt (by decide))) (rd.arch_ne (by decide))
      rw [if_pos ⟨ho, rfl⟩, hwrite] at hres
      obtain ⟨hplace, hclear⟩ := hiff.1 ⟨(hdest ho).symm.trans hres, hsame⟩
      exact ⟨hplace, fun h2 => .inr (hclear h2)⟩
  · rintro ⟨hplace, hclear⟩
    have hsame : (c.arf rd.arch).getLsbD ((ra.data c.arf).toNat % 64) = (c.arf rd.arch).getLsbD k := by
      rcases hplace with heq | ⟨heq, -⟩
      · rw [heq]
      · exact heq
    refine ⟨⟨fun r hr hf => ?_, hleaves.bytes⟩, ?_, hzero⟩
    · by_cases hdst : o ≠ .bt ∧ r = rd.arch
      · obtain ⟨ho, rfl⟩ := hdst
        rw [if_pos ⟨ho, rfl⟩, hwrite, hdest ho]
        exact (hiff.2 ⟨hplace, fun h2 => (hclear h2).resolve_left ho⟩).1
      · rw [if_neg hdst]
        refine hleaves.arf r ?_
        simp only [List.mem_cons, List.not_mem_nil, or_false, not_or]
        refine ⟨fun hmem => ?_, hf⟩
        split at hmem
        · exact temp_not_arch (by decide) hr hmem
        · rename_i ho
          exact hdst ⟨ho, hmem⟩
    · rw [hcarry, hsame, hselected]

/-! ### Memory -/

/-- The registers the address of a bit string is generated in. -/
def stringTemps : List Reg := [Reg.temp6, Reg.temp8, Reg.temp1]

theorem writes_string (pfx : Prefixes) (rip : W64) (memref : MemRef) (force : Bool) :
    ∀ op ∈ addressGenerate pfx rip Reg.temp1 Reg.zero memref .opAdd true force, Writes stringTemps op :=
  writes_generate pfx rip writable_temp1 memref force

/-- The segment base is added first, and the rest is as without it. -/
theorem generate_forced (pfx : Prefixes) (rip : W64) (memref : MemRef) (hrip : memref.basereg ≠ Reg.rip) :
    addressGenerate pfx rip Reg.temp1 Reg.zero memref .opAdd true true =
      (biasBySegreg pfx memref.basereg).1 ++ addressGenerate pfx rip Reg.temp1 Reg.zero
        { memref with basereg := (biasBySegreg pfx memref.basereg).2 } .opAdd true false := by
  have hbased : (biasBySegreg pfx memref.basereg).2 ≠ Reg.rip := by
    unfold biasBySegreg
    split
    · exact show Reg.temp6 ≠ Reg.rip by decide
    · exact hrip
  have hmem : (isload .opAdd || isstore .opAdd || decide (Opcode.opAdd = Opcode.opLdPre)) = false := by decide
  have henc : ∀ P : Prop, ¬(Opcode.opAdd ≠ Opcode.opAdd ∧ P) := fun P h => h.1 rfl
  unfold addressGenerate
  dsimp only
  simp only [hmem, Bool.or_false, Bool.false_eq_true, if_false, if_true, if_neg hrip, if_neg hbased, henc,
    List.nil_append]
  split
  · rfl
  · split
    · rw [List.append_assoc]
    · rfl

theorem generate_forced_rip (pfx : Prefixes) (rip : W64) (memref : MemRef) (hrip : memref.basereg = Reg.rip) :
    addressGenerate pfx rip Reg.temp1 Reg.zero memref .opAdd true true =
      (biasBySegreg pfx Reg.zero).1 ++ addressGenerate pfx rip Reg.temp1 Reg.zero memref .opAdd true false := by
  have hmem : (isload .opAdd || isstore .opAdd || decide (Opcode.opAdd = Opcode.opLdPre)) = false := by decide
  unfold addressGenerate
  dsimp only
  simp only [hmem, Bool.or_false, Bool.false_eq_true, if_false, if_true, if_pos hrip, List.nil_append]

/-- The address of a bit string. -/
theorem run_string (junk : Sfr) (h : c.Ready) (hctx : HostCtx c) (o : X86Operand) :
    ∃ c', c.runUops rest.withImpl junk
        (addressGenerate pfx rip Reg.temp1 Reg.zero (stringRef pfx o) .opAdd true true) = some c' ∧
      c'.arf Reg.temp1 = stringBase pfx rip c o := by
  have hlt : Reg.temp1.val < 72 := by decide
  unfold stringBase
  by_cases hrip : o.base = .rip
  · have hb : (stringRef pfx o).basereg = Reg.rip := by
      show o.base.basereg = Reg.rip
      rw [hrip]
      rfl
    obtain ⟨c1, hrun1, h1, -⟩ := run_bias rest junk h hctx pfx (show Reg.zero.isArch = true by decide)
    obtain ⟨c2, hrun2, hgen⟩ := run_generate_rip rest junk h1.ready pfx rip writable_temp1 o hrip
      (if pfx.addr then 2 else 3)
    refine ⟨c2, ?_, ?_⟩
    · rw [generate_forced_rip pfx rip _ hb, SeqCore.runUops_append, hrun1]
      exact hrun2
    · rw [if_pos hrip]
      exact hgen.value
  · obtain ⟨harch, hne⟩ := o.basereg_arch hrip
    have hsize : (stringRef pfx o).size ≤ 3 := by
      show (if pfx.addr then 2 else 3) ≤ 3
      split <;> omega
    obtain ⟨c1, hrun1, h1, hv1⟩ := run_bias rest junk h hctx pfx harch
    have hbased : (biasBySegreg pfx o.base.basereg).2 ≠ Reg.rip := by
      unfold biasBySegreg
      split
      · exact show Reg.temp6 ≠ Reg.rip by decide
      · exact hne
    obtain ⟨c2, old, hrun2, hgen⟩ := run_generateFrom rest junk h1.ready pfx rip writable_temp1 hlt
      { stringRef pfx o with basereg := (biasBySegreg pfx o.base.basereg).2 } hbased o.indexreg_arch hsize
    refine ⟨c2, ?_, ?_⟩
    · have hbase : (stringRef pfx o).basereg = o.base.basereg := rfl
      rw [generate_forced pfx rip _ hne, SeqCore.runUops_append, hbase, hrun1]
      exact hrun2
    · have hidx : c1.arf o.indexreg = o.indexValue c.arf := by
        rw [h1.regs _ (temp_not_arch (by decide) o.indexreg_arch), o.indexreg_value h]
      -- the base of the segment is added before the index, which makes no difference to the sum
      have hsum : c1.arf (remap (biasBySegreg pfx o.base.basereg).2) + c1.arf o.indexreg <<< o.scale.val + o.disp =
          biasValue pfx c + o.sum c.arf rip := by
        rw [hv1, hidx, o.basereg_value hrip h rip]
        unfold X86Operand.sum
        simp only [BitVec.add_assoc]
      have hvalue : c2.arf Reg.temp1 = x86Merge (if pfx.addr then 2 else 3) old
          (c1.arf (remap (biasBySegreg pfx o.base.basereg).2) + c1.arf o.indexreg <<< o.scale.val + o.disp) := hgen.value
      rw [if_neg hrip, hvalue, hsum]
      cases pfx.addr with
      | true => exact and_allOnes_setWidth 32 _
      | false => rfl

theorem byteAddr_zero {a : ℕ} (ha : a < 2 ^ 64) : byteAddr a 0 = a := Nat.mod_eq_of_lt ha

theorem canonicalAddr_lt (v : W64) : canonicalAddr v < 2 ^ 64 := BitVec.isLt _

theorem setWidth_ofBytes (f : ℕ → Byte) : (ByteMask.ofBytes f).setWidth 8 = f 0 := by
  have hlane := ByteMask.byteAt_ofBytes f (show 0 < 8 by decide)
  rw [← hlane]
  apply BitVec.eq_of_getLsbD_eq
  intro i hi
  simp only [ByteMask.byteAt, BitVec.getLsbD_setWidth, BitVec.getLsbD_extractLsb', hi, decide_true, Bool.true_and,
    Nat.mul_zero, Nat.zero_add]

/-- A load of one byte is that byte. -/
theorem loadBytes_byte (m : ℕ → Byte) {a : ℕ} (ha : a < 2 ^ 64) : loadBytes m a 0 = m a := by
  have hfirst := setWidth_ofBytes fun i => m (byteAddr a i)
  rw [byteAddr_zero ha] at hfirst
  exact hfirst

/-- The byte is loaded and tested in `temp0`. -/
theorem wp_loadBit (h : c.Ready) (hmask : c.ctx.virtAddrMask = BitVec.allOnes 64) (o : BitOp) {ra rb : Reg}
    {off bit : W64} {a k : ℕ} (ha : canonicalAddr (c.arf (remap ra) + off) = a)
    (hrb : remap rb ∉ [Reg.temp0, Reg.temp4, Reg.temp9])
    (hk : (if rb = Reg.imm then bit else c.arf (remap rb)).toNat % 8 = k) (hacc : X86Sim.Accessible c false a 0) :
    Wp rest.withBits.withShifts.withImpl [.mk3 .opLd Reg.temp0 ra Reg.imm Reg.zero 0 off,
        .init o.opcode Reg.temp0 Reg.temp0 rb Reg.zero 0 bit 0 .carry] (fun c' =>
      Leaves [Reg.temp0, Reg.temp4, Reg.temp9, Reg.flags] c.space.bytes c c' ∧
        (o ≠ .bt → (c'.arf Reg.temp0).setWidth 8 =
          setBit (c.space.bytes a) k (o.change ((c.space.bytes a).getLsbD k))) ∧
        FlagsSet .carry (carryWord ((c.space.bytes a).getLsbD k)) c c') c := by
  have ht : Writable Reg.temp0 := ⟨by decide, by decide, by decide⟩
  have h0 : remap Reg.temp0 = Reg.temp0 := by decide
  have halt : a < 2 ^ 64 := ha ▸ canonicalAddr_lt _
  refine Triples.wp_cons (Triples.wp_mono (wp_loadAt _ h hmask ht (by decide) ha hacc) ?_)
  rintro c₁ ⟨h₁, hv₁⟩
  rw [loadBytes_byte _ halt] at hv₁
  -- the test
  obtain ⟨op, hop⟩ : ∃ op : TransOp, op = .init o.opcode Reg.temp0 Reg.temp0 rb Reg.zero 0 bit 0 .carry := ⟨_, rfl⟩
  rw [← hop]
  have hmem : isMem op = false := by
    rw [hop]
    exact opcode_plain o
  have hrd : op.rd = Reg.temp0 := by rw [hop]; rfl
  have hra1 : (c₁.inputs op).ra = (c.space.bytes a).setWidth 64 := by
    rw [hop, ← hv₁, ← h0]
    rfl
  have hrb1 : (c₁.inputs op).rb = if rb = Reg.imm then bit else c.arf (remap rb) := by
    rw [hop, ← h₁.arf _ hrb]
    rfl
  have hbyte : (c₁.inputs op).ra.setWidth (opWidth 0) = c.space.bytes a := by
    rw [hra1]
    show ((c.space.bytes a).setWidth 64).setWidth 8 = _
    rw [BitVec.setWidth_setWidth_of_le _ (by decide), BitVec.setWidth_eq]
  have hnum : (c₁.inputs op).rb.toNat % 2 ^ opWidth 0 % opWidth 0 = k := by
    rw [hrb1, ← hk]
    exact Nat.mod_mod_of_dvd _ (by decide)
  obtain ⟨x, hexec, hx⟩ := @exec_bitop rest o op 0 (by rw [hop]; rfl) (by rw [hop]; rfl) (c₁.inputs op) _ k hbyte hnum
  refine Triples.wp_mono (wp_result_flags hmem (by rw [hop]; rfl) (by rw [hop]; rfl) (by rw [hop]; rfl) h₁.ready
    (by rw [hrd]; exact ht) hexec (carryWord_inv _)) ?_
  rintro c' ⟨h₂, hv₂, hflags⟩
  have hset : op.setflags = .carry := by rw [hop]; rfl
  rw [hrd, h₁.bytes] at h₂
  rw [hrd] at hv₂
  rw [hset] at hflags
  refine ⟨(h₁.trans h₂).mono (by decide), fun ho => ?_, fun i => ?_⟩
  · rw [hv₂, ← hx ho]
    exact (x86Merge_setWidth (show 0 ≤ 3 by decide) _ _).trans
      ((BitVec.setWidth_setWidth_of_le x (show 8 ≤ 64 by decide)).trans (BitVec.setWidth_eq _))
  · have hbit := hflags i
    rw [h₁.arf Reg.flags (by decide)] at hbit
    exact hbit

/-- What a byte of a bit string is after the test: the bit changed, and nothing else. -/
structure Tested (o : BitOp) (a k : ℕ) (c c' : SeqCore) : Prop where
  regs : ∀ r : Reg, r.isArch = true → r ≠ Reg.flags → c'.arf r = c.arf r
  bytes : c'.space.bytes = setBitAt c.space.bytes a k (o.change ((c.space.bytes a).getLsbD k))
  carry : (c'.arf Reg.flags).getLsbD 0 = (c.space.bytes a).getLsbD k
  zero : (c'.arf Reg.flags).getLsbD 6 = (c.arf Reg.flags).getLsbD 6

variable {o : BitOp} {ra rb : Reg} {off bit : W64} {a k : ℕ}

/-- **A byte that may be accessed is tested.** -/
theorem wp_byteTest (h : c.Ready) (hmask : c.ctx.virtAddrMask = BitVec.allOnes 64)
    (ha : canonicalAddr (c.arf (remap ra) + off) = a) (hra : remap ra ∉ [Reg.temp0, Reg.temp4, Reg.temp9, Reg.flags])
    (hrb : remap rb ∉ [Reg.temp0, Reg.temp4, Reg.temp9])
    (hk : (if rb = Reg.imm then bit else c.arf (remap rb)).toNat % 8 = k) (hload : X86Sim.Accessible c false a 0)
    (hstore : o ≠ .bt → X86Sim.Accessible c true a 0) :
    Wp rest.withBits.withShifts.withImpl (byteTest o ra rb off bit) (Tested o a k c) c := by
  have halt : a < 2 ^ 64 := ha ▸ canonicalAddr_lt _
  have htemps : Temps [Reg.temp0, Reg.temp4, Reg.temp9, Reg.flags] := by decide
  have h0 : remap Reg.temp0 = Reg.temp0 := by decide
  have hk8 : k < 8 := hk ▸ Nat.mod_lt _ (by decide)
  refine Triples.wp_append (Triples.wp_mono (wp_loadBit rest h hmask o ha hrb hk hload) ?_)
  rintro c₁ ⟨h₁, hv₁, hflags⟩
  obtain ⟨hcarry, hzero⟩ := flags_carry hflags
  by_cases ho : o = .bt
  · rw [if_pos ho]
    refine Triples.wp_nil ⟨fun r hr hf => h₁.arch htemps hr hf, ?_, hcarry, hzero⟩
    rw [h₁.bytes, ho]
    exact ((setBitAt_eq_self hk8).2 rfl).symm
  · rw [if_neg ho]
    have hmask₁ : c₁.ctx.virtAddrMask = BitVec.allOnes 64 := by rw [h₁.ctx, hmask]
    have ha₁ : canonicalAddr (c₁.arf (remap ra) + off) = a := by rw [h₁.arf _ hra, ha]
    have hstore₁ : X86Sim.Accessible c₁ true a 0 := by
      intro i hi
      rw [h₁.check]
      exact hstore ho i hi
    refine Triples.wp_mono (wp_storeAt _ h₁.ready hmask₁ (by decide) (by decide) (by decide) ha₁ hstore₁) fun c' h₂ => ?_
    · rw [h₁.bytes, h0] at h₂
      refine ⟨fun r hr hf => ?_, ?_, ?_, ?_⟩
      · rw [h₂.arch (by decide) hr hf, h₁.arch htemps hr hf]
      · have hbyte : ByteMask.byteAt (c₁.arf Reg.temp0) 0 =
            setBit (c.space.bytes a) k (o.change ((c.space.bytes a).getLsbD k)) := by
          rw [← hv₁ ho]
          apply BitVec.eq_of_getLsbD_eq
          intro i hi
          simp only [ByteMask.byteAt, BitVec.getLsbD_setWidth, BitVec.getLsbD_extractLsb', hi, decide_true,
            Bool.true_and, Nat.mul_zero, Nat.zero_add]
        rw [h₂.bytes]
        show Function.update c.space.bytes (byteAddr a 0) (ByteMask.byteAt (c₁.arf Reg.temp0) 0) = _
        rw [hbyte, byteAddr_zero halt]
        rfl
      · rw [h₂.arf Reg.flags (by decide), hcarry]
      · rw [h₂.arf Reg.flags (by decide), hzero]

/-- An access to a byte that may not be accessed stops. -/
theorem turn_byte (hmask : c.ctx.virtAddrMask = BitVec.allOnes 64) {p : Opcode} (hp : p = .opLd ∨ p = .opSt)
    {rd rc : Reg} (ha : canonicalAddr (c.arf (remap ra) + off) = a)
    (hno : ¬X86Sim.Accessible c (isstore p) a 0) (junk : ℕ → Sfr) :
    ∃ e, turn rest.withImpl junk (.mk3 p rd ra Reg.imm rc 0 off) c = .error e := by
  have halt : a < 2 ^ 64 := ha ▸ canonicalAddr_lt _
  have hclass : (isload p || isstore p) = true ∧ p ≠ .opMf := by
    rcases hp with rfl | rfl <;> decide
  have hlin : c.linear (.mk3 p rd ra Reg.imm rc 0 off) = a := by rw [linear_imm hmask, ha]
  refine @turn_refused c (.mk3 p rd ra Reg.imm rc 0 off) _ rfl hclass.1 hclass.2 rfl rfl ?_ ?_ junk
  · exact Nat.mod_one _
  · rw [hlin]
    show (false || c.space.check a ⟨!isstore p, isstore p, false⟩) = false
    rw [Bool.false_or, ← Bool.not_eq_true]
    intro hcheck
    refine hno fun i hi => ?_
    obtain rfl : i = 0 := by omega
    rwa [byteAddr_zero halt]

/-- A byte that may not be accessed is not tested. -/
theorem not_wp_byteTest {Q : SeqCore → Prop} (h : c.Ready) (hmask : c.ctx.virtAddrMask = BitVec.allOnes 64)
    (ha : canonicalAddr (c.arf (remap ra) + off) = a) (hra : remap ra ∉ [Reg.temp0, Reg.temp4, Reg.temp9, Reg.flags])
    (hrb : remap rb ∉ [Reg.temp0, Reg.temp4, Reg.temp9])
    (hno : ¬(X86Sim.Accessible c false a 0 ∧ (o ≠ .bt → X86Sim.Accessible c true a 0))) :
    ¬Wp rest.withBits.withShifts.withImpl (byteTest o ra rb off bit) Q c := by
  have hnonempty : Nonempty (ℕ → Sfr) := ⟨fun _ => Frame.Sfr.zero⟩
  by_cases hload : X86Sim.Accessible c false a 0
  · -- the store
    obtain ⟨ho, hstore⟩ : o ≠ .bt ∧ ¬X86Sim.Accessible c true a 0 := by
      by_contra hcon
      exact hno ⟨hload, fun ho => by_contra fun hs => hcon ⟨ho, hs⟩⟩
    refine Triples.not_wp_append (wp_loadBit rest h hmask o ha hrb rfl hload) ?_
    rintro c₁ ⟨h₁, -, -⟩
    rw [if_neg ho]
    refine Triples.not_wp_cons fun junk => turn_byte _ (by rw [h₁.ctx, hmask]) (.inr rfl) (a := a) ?_ ?_ junk
    · rw [h₁.arf _ hra, ha]
    · intro hacc
      refine hstore fun i hi => ?_
      have hcheck := hacc i hi
      rwa [h₁.check] at hcheck
  · exact Triples.not_wp_cons fun junk => turn_byte _ hmask (.inl rfl) ha hload junk

/-! ### Elements -/

/-- A bit of a word is a bit of one of its bytes. -/
theorem byteAt_bit (v : W64) (k : ℕ) : v.getLsbD k = (ByteMask.byteAt v (k / 8)).getLsbD (k % 8) := by
  unfold ByteMask.byteAt
  rw [BitVec.getLsbD_extractLsb', decide_eq_true (Nat.mod_lt k (by decide)), Bool.true_and, Nat.div_add_mod]

theorem opWidth_bytes (size : ℕ) : opWidth size = 8 * 2 ^ size := rfl

theorem loadBytes_bit (m : ℕ → Byte) (a : ℕ) {size k : ℕ} (hsize : size ≤ 3) (hk : k < opWidth size) :
    (loadBytes m a size).getLsbD k = (m (byteAddr a (k / 8))).getLsbD (k % 8) := by
  have hle := opWidth_le hsize
  unfold loadBytes
  rw [BitVec.getLsbD_setWidth, decide_eq_true hk, Bool.true_and, byteAt_bit, ByteMask.byteAt_ofBytes _ (by omega)]

/-- An element stored with a bit replaced is the byte of the bit with it replaced. -/
theorem storeBytewise_setBit (m : ℕ → Byte) (a : ℕ) {size k : ℕ} (hsize : size ≤ 3) (hk : k < opWidth size) (b : Bool) :
    storeBytewise a ((setBit (loadBytes m a size) k b).setWidth 64) m (2 ^ size) =
      setBitAt m (byteAddr a (k / 8)) (k % 8) b := by
  have hle := opWidth_le hsize
  have hpow : 2 ^ size ≤ 2 ^ 3 := Nat.pow_le_pow_right (by decide) hsize
  have hbytes := opWidth_bytes size
  have hmod := Nat.mod_lt k (show 0 < 8 by decide)
  funext x
  by_cases hx : ∃ i < 2 ^ size, x = byteAddr a i
  · -- a byte of the element
    obtain ⟨i, hi, rfl⟩ := hx
    have hin : ∀ j < 8, 8 * i + j < opWidth size := fun j hj => by omega
    have hbit : ∀ j < 8, (m (byteAddr a i)).getLsbD j = (loadBytes m a size).getLsbD (8 * i + j) := fun j hj => by
      rw [loadBytes_bit m a hsize (hin j hj), show (8 * i + j) / 8 = i by omega, show (8 * i + j) % 8 = j by omega]
    rw [storeBytewise_byte hi (by omega)]
    unfold setBitAt
    by_cases hsame : i = k / 8
    · subst hsame
      rw [Function.update_self]
      apply BitVec.eq_of_getLsbD_eq
      intro j hj
      rw [getLsbD_setBit hmod, hbit j hj, ByteMask.byteAt, BitVec.getLsbD_extractLsb', decide_eq_true hj, Bool.true_and,
        BitVec.getLsbD_setWidth, decide_eq_true (by have := hin j hj; omega), Bool.true_and, getLsbD_setBit hk]
      have hiff : 8 * (k / 8) + j = k ↔ j = k % 8 := by omega
      simp only [hiff]
    · have hne : byteAddr a i ≠ byteAddr a (k / 8) := fun h => hsame (byteAddr_inj (by omega) (by omega) h)
      rw [Function.update_of_ne hne]
      apply BitVec.eq_of_getLsbD_eq
      intro j hj
      rw [hbit j hj, ByteMask.byteAt, BitVec.getLsbD_extractLsb', decide_eq_true hj, Bool.true_and,
        BitVec.getLsbD_setWidth, decide_eq_true (by have := hin j hj; omega), Bool.true_and, getLsbD_setBit hk,
        if_neg (by omega)]
  · have hne : ∀ i < 2 ^ size, x ≠ byteAddr a i := fun i hi h => hx ⟨i, hi, h⟩
    unfold setBitAt
    rw [storeBytewise_of_ne hne, Function.update_of_ne (hne (k / 8) (by omega))]

/-! ### The instruction -/

/-- The registers the address of the byte is generated in. -/
def indexTemps : List Reg := [Reg.temp6, Reg.temp8, Reg.temp1, Reg.temp2]

/-- The address of the operand, and in `temp2` that of the byte a register counts to. -/
theorem wp_string (h : c.Ready) (hctx : HostCtx c) (o : X86Operand) :
    Wp rest.withImpl (addressGenerate pfx rip Reg.temp1 Reg.zero (stringRef pfx o) .opAdd true true) (fun c₁ =>
      Leaves stringTemps c.space.bytes c c₁ ∧ c₁.arf Reg.temp1 = stringBase pfx rip c o) c := by
  obtain ⟨c₁, hrun, hv⟩ := @run_string pfx rip c rest Frame.Sfr.zero h hctx o
  have hwrites := writes_string pfx rip (stringRef pfx o) true
  exact wp_runUops (fun op hop => (hwrites op hop).store) hrun ⟨leaves_runUops hwrites h hrun, hv⟩

theorem wp_byteIndex (h : c.Ready) (r : Apr) :
    Wp rest.withBits.withShifts.withImpl
      [.mk3 .opSar Reg.temp2 r.arch Reg.imm Reg.zero 3 3, .mk3 .opAdd Reg.temp2 Reg.temp1 Reg.temp2 Reg.zero 3 3]
      (fun c₁ => Leaves [Reg.temp2] c.space.bytes c c₁ ∧
        c₁.arf Reg.temp2 = c.arf Reg.temp1 + (c.arf r.arch).sshiftRight 3) c := by
  have ht : Writable Reg.temp2 := ⟨by decide, by decide, by decide⟩
  have hr : remap r.arch = r.arch := remap_of_lt (lt_trans r.arch_lt (by decide))
  have h1 : remap Reg.temp1 = Reg.temp1 := by decide
  have h2 : remap Reg.temp2 = Reg.temp2 := by decide
  obtain ⟨op, hop⟩ : ∃ op : TransOp, op = .mk3 .opSar Reg.temp2 r.arch Reg.imm Reg.zero 3 3 := ⟨_, rfl⟩
  have hmem : isMem op = false := by
    have hsar : (isload .opSar || isstore .opSar) = false := by decide
    rw [hop]
    exact hsar
  have hwrites : Writes [Reg.temp2] op := by
    rw [hop]
    exact writes_mk3 _ _ _ _ _ List.mem_cons_self (by decide) ht
  have hra : (c.inputs op).ra = c.arf r.arch := by
    rw [hop]
    exact congrArg c.arf hr
  obtain ⟨flags, hexec, hinv⟩ := @exec_sar3 rest.withBits op (by rw [hop]; rfl) (by rw [hop]; rfl) (c.inputs op)
    (by rw [hop]; rfl)
  rw [← hop]
  refine Triples.wp_cons (Triples.wp_mono (wp_writes hmem (by rw [hop]; rfl) (by rw [hop]; rfl) h hwrites hexec hinv) ?_)
  rintro c₁ ⟨h₁, hv₁⟩
  have hv₁ : c₁.arf Reg.temp2 = (c.arf r.arch).sshiftRight 3 := by
    rw [← hra]
    rw [hop] at hv₁ ⊢
    exact hv₁
  refine Triples.wp_mono (wp_add _ h₁.ready ht Reg.temp1 Reg.temp2 0) ?_
  rintro c₂ ⟨h₂, hv₂⟩
  rw [h₁.bytes] at h₂
  refine ⟨(h₁.trans h₂).mono (by decide), ?_⟩
  rw [hv₂, h1, h2, if_neg (by decide), hv₁, h₁.arf _ (by decide)]

/-- The uops before the test leave the address of the byte in a register. -/
theorem decode_memory (h : c.Ready) (hctx : HostCtx c) (insn : BitInsn) {o : X86Operand} {size : Fin 4}
    (hrd : insn.rd = .mem o size) : ∃ pre A rb off bit,
      insn.decode pfx rip = pre ++ byteTest insn.op A rb off bit ∧
      remap A ∉ [Reg.temp0, Reg.temp4, Reg.temp9, Reg.flags] ∧ remap rb ∉ [Reg.temp0, Reg.temp4, Reg.temp9] ∧
      Wp rest.withBits.withShifts.withImpl pre (fun c₁ => Leaves indexTemps c.space.bytes c c₁ ∧
        canonicalAddr (c₁.arf (remap A) + off) = insn.tested pfx rip c o ∧
        (if rb = Reg.imm then bit else c₁.arf (remap rb)).toNat % 8 = insn.bit c % 8) c := by
  have hhigh := insn.ra_hibyte
  have hbit : insn.bit c % 8 = (insn.ra.data c.arf).toNat % 8 := by
    rw [bit_eq, Nat.mod_mod_of_dvd _ (Nat.dvd_mul_right 8 _)]
  have h1 : remap Reg.temp1 = Reg.temp1 := by decide
  have h2 : remap Reg.temp2 = Reg.temp2 := by decide
  obtain ⟨op, d, ra, hwide, hsize⟩ := insn
  obtain rfl : d = .mem o size := hrd
  rw [hbit]
  unfold decode tested
  cases ra with
  | reg r =>
    have hr : remap r.arch = r.arch := remap_of_lt (lt_trans r.arch_lt (by decide))
    have hrimm : r.arch ≠ Reg.imm := r.arch_ne (by decide)
    -- the index in a register: its byte is added to the base, and the bit is of that byte
    refine ⟨_, Reg.temp2, r.arch, 0, 0, (List.append_assoc _ _ _).symm, by decide, ?_, ?_⟩
    · rw [hr]
      simp only [List.mem_cons, List.not_mem_nil, or_false, not_or]
      exact ⟨r.arch_ne (by decide), r.arch_ne (by decide), r.arch_ne (by decide)⟩
    · refine Triples.wp_append (Triples.wp_mono (wp_string _ h hctx o) ?_)
      rintro c₁ ⟨h₁, hv₁⟩
      refine Triples.wp_mono (wp_byteIndex rest h₁.ready r) ?_
      rintro c₂ ⟨h₂, hv₂⟩
      rw [h₁.bytes] at h₂
      have h₁₂ : Leaves indexTemps c.space.bytes c c₂ := (h₁.trans h₂).mono (by decide)
      have hsame : ∀ c' : SeqCore, Leaves indexTemps c.space.bytes c c' → c'.arf r.arch = c.arf r.arch := fun c' hl =>
        hl.arch (by decide) (decide_eq_true (lt_trans r.arch_lt (by decide))) (r.arch_ne (by decide))
      refine ⟨h₁₂, ?_, ?_⟩
      · have hzero : ∀ x : W64, x + 0 = x := fun x => BitVec.add_zero x
        rw [h2, hv₂, hv₁, hsame c₁ (h₁.mono (by decide)), hzero]
        rfl
      · rw [if_neg hrimm, hr, hsame c₂ h₁₂]
        rfl
  | imm v =>
    -- an immediate: the byte is the offset of the load
    refine ⟨_, Reg.temp1, Reg.imm, v.sshiftRight 3, v &&& 7, rfl, by decide, by decide, ?_⟩
    refine Triples.wp_mono (wp_string _ h hctx o) ?_
    rintro c₁ ⟨h₁, hv₁⟩
    refine ⟨h₁.mono (by decide), ?_, ?_⟩
    · rw [h1, hv₁]
      rfl
    · have hlow : (v &&& 7).toNat = v.toNat % 8 := by
        rw [BitVec.toNat_and]
        exact Nat.and_two_pow_sub_one_eq_mod _ 3
      rw [if_pos rfl, hlow, Nat.mod_mod]
      rfl

/-- The byte of the bit is one of the element. -/
theorem byte_lt (insn : BitInsn) (c : SeqCore) {o : X86Operand} {size : Fin 4} (hrd : insn.rd = .mem o size) :
    insn.bit c / 8 < 2 ^ size.val := by
  have hlt := insn.bit_lt c
  rw [hrd] at hlt
  have hlt : insn.bit c < 8 * 2 ^ size.val := hlt
  omega

theorem Accessible.byte {c : SeqCore} {store : Bool} {a size i : ℕ} (h : X86Sim.Accessible c store a size)
    (hi : i < 2 ^ size) : X86Sim.Accessible c store (byteAddr a i) 0 := by
  intro j hj
  obtain rfl : j = 0 := by omega
  have hmod : byteAddr (byteAddr a i) 0 = byteAddr a i := Nat.mod_mod _ _
  rw [hmod]
  exact h i hi

/-- The element selected, by the byte of its bit. -/
theorem element_byte (insn : BitInsn) {o : X86Operand} {size : Fin 4} (hrd : insn.rd = .mem o size) (pfx : Prefixes)
    (rip : W64) (c : SeqCore) :
    let byte := byteAddr (insn.element pfx rip c o) (insn.bit c / 8)
    insn.selected pfx rip c = (c.space.bytes byte).getLsbD (insn.bit c % 8) ∧
      ∀ c' : SeqCore, insn.Written pfx rip c c' ↔
        (∀ r : Reg, r.isArch = true → r ≠ Reg.flags → c'.arf r = c.arf r) ∧
        c'.space.bytes = setBitAt c.space.bytes byte (insn.bit c % 8)
          (insn.op.change ((c.space.bytes byte).getLsbD (insn.bit c % 8))) := by
  intro byte
  have hklt := insn.bit_lt c
  obtain ⟨op, d, ra, hwide, hsize⟩ := insn
  obtain rfl : d = .mem o size := hrd
  have hsize3 : size.val ≤ 3 := by omega
  have hselected : (BitInsn.mk op (.mem o size) ra hwide hsize).selected pfx rip c =
      (c.space.bytes byte).getLsbD ((BitInsn.mk op (.mem o size) ra hwide hsize).bit c % 8) :=
    loadBytes_bit c.space.bytes _ hsize3 hklt
  refine ⟨hselected, fun c' => ?_⟩
  rw [← hselected, ← storeBytewise_setBit c.space.bytes _ hsize3 hklt]
  rfl

/-- A byte tested is right just if the test is exact. -/
theorem right_of_tested (insn : BitInsn) {o : X86Operand} {size : Fin 4} (hrd : insn.rd = .mem o size) {c' : SeqCore}
    (hload : X86Sim.Accessible c false (insn.tested pfx rip c o) 0)
    (hstore : insn.op ≠ .bt → X86Sim.Accessible c true (insn.tested pfx rip c o) 0)
    (ht : Tested insn.op (insn.tested pfx rip c o) (insn.bit c % 8) c c') :
    insn.Right pfx rip c c' ↔ insn.Exact pfx rip c := by
  have hk8 : insn.bit c % 8 < 8 := Nat.mod_lt _ (by decide)
  obtain ⟨hselected, hwritten⟩ := element_byte insn hrd pfx rip c
  have hexact : insn.Exact pfx rip c ↔ insn.tested pfx rip c o = byteAddr (insn.element pfx rip c o) (insn.bit c / 8) ∨
      X86Sim.Accessible c false (insn.tested pfx rip c o) 0 ∧
      (insn.op ≠ .bt → X86Sim.Accessible c true (insn.tested pfx rip c o) 0) ∧
      (c.space.bytes (insn.tested pfx rip c o)).getLsbD (insn.bit c % 8) = insn.selected pfx rip c ∧
      insn.op.change (insn.selected pfx rip c) = insn.selected pfx rip c := by
    rw [hselected]
    unfold Exact
    rw [hrd]
  have hright : insn.Right pfx rip c c' ↔
      setBitAt c.space.bytes (insn.tested pfx rip c o) (insn.bit c % 8)
          (insn.op.change ((c.space.bytes (insn.tested pfx rip c o)).getLsbD (insn.bit c % 8))) =
        setBitAt c.space.bytes (byteAddr (insn.element pfx rip c o) (insn.bit c / 8)) (insn.bit c % 8)
          (insn.op.change (insn.selected pfx rip c)) ∧
      (c.space.bytes (insn.tested pfx rip c o)).getLsbD (insn.bit c % 8) = insn.selected pfx rip c := by
    constructor
    · intro h
      refine ⟨?_, ht.carry.symm.trans h.carry⟩
      rw [← ht.bytes, ((hwritten c').1 h.result).2, hselected]
    · rintro ⟨hbytes, hcarry⟩
      refine ⟨(hwritten c').2 ⟨ht.regs, ?_⟩, ht.carry.trans hcarry, ht.zero⟩
      rw [ht.bytes, hbytes, hselected]
  rw [hright, hexact]
  by_cases hsame : insn.tested pfx rip c o = byteAddr (insn.element pfx rip c o) (insn.bit c / 8)
  · rw [hsame, ← hselected]
    exact iff_of_true ⟨rfl, rfl⟩ (.inl rfl)
  · rw [setBitAt_eq_setBitAt hk8 hsame, ← hselected]
    constructor
    · rintro ⟨⟨-, hchange⟩, hbits⟩
      exact .inr ⟨hload, hstore, hbits, hchange⟩
    · rintro (heq | ⟨-, -, hbits, hchange⟩)
      · exact absurd heq hsame
      · exact ⟨⟨by rw [hbits, hchange], hchange⟩, hbits⟩

/-- The bit test of memory. -/
theorem memory_iff (h : c.Ready) (insn : BitInsn) {o : X86Operand} {size : Fin 4} (hrd : insn.rd = .mem o size)
    (hacc : insn.Accessible pfx rip c) :
    Wp rest.withBits.withShifts.withImpl (insn.decode pfx rip) (insn.Right pfx rip c) c ↔ insn.Exact pfx rip c := by
  have hnonempty : Nonempty (ℕ → Sfr) := ⟨fun _ => Frame.Sfr.zero⟩
  have hacc' : HostCtx c ∧ X86Sim.Accessible c false (insn.element pfx rip c o) size ∧
      (insn.op ≠ .bt → X86Sim.Accessible c true (insn.element pfx rip c o) size) := by
    unfold Accessible at hacc
    rw [hrd] at hacc
    exact hacc
  obtain ⟨hctx, hload, hstore⟩ := hacc'
  obtain ⟨pre, A, rb, off, bit, hops, hA, hrb, hpre⟩ := @decode_memory pfx rip c rest h hctx insn o size hrd
  rw [hops]
  have hcheck : ∀ {c₁ : SeqCore}, Leaves indexTemps c.space.bytes c c₁ → ∀ {store : Bool} {a : ℕ},
      X86Sim.Accessible c₁ store a 0 ↔ X86Sim.Accessible c store a 0 := by
    intro c₁ h₁ store a
    unfold X86Sim.Accessible
    rw [h₁.check]
  by_cases hok : X86Sim.Accessible c false (insn.tested pfx rip c o) 0 ∧
      (insn.op ≠ .bt → X86Sim.Accessible c true (insn.tested pfx rip c o) 0)
  · -- the byte may be accessed
    refine Triples.wp_iff (Q := Tested insn.op (insn.tested pfx rip c o) (insn.bit c % 8) c) ?_
      fun c' ht => right_of_tested insn hrd hok.1 hok.2 ht
    refine Triples.wp_append (Triples.wp_mono hpre ?_)
    rintro c₁ ⟨h₁, ha, hk⟩
    refine Triples.wp_mono (wp_byteTest rest h₁.ready (by rw [h₁.ctx, hctx.mask]) ha hA hrb hk
      ((hcheck h₁).2 hok.1) fun ho => (hcheck h₁).2 (hok.2 ho)) ?_
    rintro c' ⟨hregs, hbytes, hcarry, hzero⟩
    rw [h₁.bytes] at hbytes hcarry
    refine ⟨fun r hr hf => ?_, hbytes, hcarry, ?_⟩
    · rw [hregs r hr hf, h₁.arch (by decide) hr hf]
    · rw [hzero, h₁.arf Reg.flags (by decide)]
  · refine iff_of_false (Triples.not_wp_append hpre ?_) ?_
    · rintro c₁ ⟨h₁, ha, -⟩
      refine not_wp_byteTest rest h₁.ready (by rw [h₁.ctx, hctx.mask]) ha hA hrb fun hacc₁ => hok ?_
      exact ⟨(hcheck h₁).1 hacc₁.1, fun ho => (hcheck h₁).1 (hacc₁.2 ho)⟩
    · intro hexact
      unfold Exact at hexact
      rw [hrd] at hexact
      rcases hexact with hsame | ⟨hl, hs, -⟩
      · refine hok ⟨?_, fun ho => ?_⟩
        · rw [hsame]
          exact Accessible.byte hload (byte_lt insn c hrd)
        · rw [hsame]
          exact Accessible.byte (hstore ho) (byte_lt insn c hrd)
      · exact hok ⟨hl, hs⟩

/-- **When a bit test does what x86 says.** -/
theorem bit_right_iff (rest : Synthop) (insn : BitInsn) (pfx : Prefixes) (rip : W64) (c : SeqCore) (h : c.Ready)
    (hacc : insn.Accessible pfx rip c) :
    Wp rest.withBits.withShifts.withImpl (insn.decode pfx rip) (insn.Right pfx rip c) c ↔ insn.Exact pfx rip c := by
  have hnonempty : Nonempty (ℕ → Sfr) := ⟨fun _ => Frame.Sfr.zero⟩
  cases hrd : insn.rd with
  | reg rd => exact Triples.wp_iff (wp_register rest h insn hrd) fun _ h => h
  | mem o size => exact memory_iff rest h insn hrd hacc

/-- `bt ax, imm`. -/
def btWord (imm : W64) : BitInsn := ⟨.bt, .reg (.w 0), .imm imm, Apr.one_le_word, nofun⟩

/-- `bts dword [rbx], 9`. -/
def btsMemory : BitInsn := ⟨.bts, .mem ⟨.reg 3, none, 0, 0⟩ 2, .imm 9, by decide, nofun⟩

def bitCore : SeqCore := AluInsn.core fun r => if r = Reg.rax then 0x8000 else if r = Reg.rbx then 0x2008 else 0

theorem ready_bitCore : bitCore.Ready :=
  ⟨by decide +kernel, by decide +kernel, by decide +kernel, by decide +kernel⟩

/-- A bit number below the width, of a register and of memory. -/
theorem bit_right_iff_both :
    Wp (Synthop.withShifts (Synthop.withBits fun _ _ => ⟨0, 0⟩)).withImpl ((btWord 15).decode .plain 0)
      ((btWord 15).Right .plain 0 bitCore) bitCore ∧
    Wp (Synthop.withShifts (Synthop.withBits fun _ _ => ⟨0, 0⟩)).withImpl (btsMemory.decode .plain 0)
      (btsMemory.Right .plain 0 bitCore) bitCore := by
  have hacc : btsMemory.Accessible .plain 0 bitCore := by
    refine ⟨⟨by decide, by decide, by decide⟩, ?_, fun _ => ?_⟩
    · unfold X86Sim.Accessible
      decide +kernel
    · unfold X86Sim.Accessible
      decide +kernel
  constructor
  · refine (bit_right_iff (fun _ _ => ⟨0, 0⟩) (btWord 15) .plain 0 _ ready_bitCore trivial).2 ⟨.inl ?_, fun h2 => ?_⟩
    · decide +kernel
    · exact absurd h2 (by decide)
  · refine (bit_right_iff (fun _ _ => ⟨0, 0⟩) btsMemory .plain 0 _ ready_bitCore hacc).2 (.inl ?_)
    decide +kernel

/-- `bt ax, 16` tests the bit above `ax`. -/
theorem not_bit_right : ¬ ∀ (rest : Synthop) (insn : BitInsn) (pfx : Prefixes) (rip : W64) (c : SeqCore), c.Ready →
    insn.Accessible pfx rip c →
    Wp rest.withBits.withShifts.withImpl (insn.decode pfx rip) (insn.Right pfx rip c) c := by
  intro h
  let c := AluInsn.core fun r => if r = Reg.rax then 1 else 0
  have hready : c.Ready := ⟨by decide +kernel, by decide +kernel, by decide +kernel, by decide +kernel⟩
  obtain ⟨c', hrun, hright⟩ := h (fun _ _ => ⟨0, 0⟩) (btWord 16) .plain 0 c hready trivial fun _ _ => Frame.Sfr.zero
  have hclear : (perform (Synthop.withShifts (Synthop.withBits fun _ _ => ⟨0, 0⟩)).withImpl ((btWord 16).decode .plain 0)
      (fun _ _ => Frame.Sfr.zero) c).toOption.map (fun c => (c.arf Reg.flags).getLsbD 0) = some false := by
    decide +kernel
  have hdone : perform (Synthop.withShifts (Synthop.withBits fun _ _ => ⟨0, 0⟩)).withImpl ((btWord 16).decode .plain 0)
      (fun _ _ => Frame.Sfr.zero) c = .ok c' := hrun
  rw [hdone] at hclear
  have hset : (btWord 16).selected .plain 0 c = true := by decide +kernel
  have hflag : (c'.arf Reg.flags).getLsbD 0 = false := Option.some.inj hclear
  exact absurd (hflag.symm.trans (hright.carry.trans hset)) (by decide)

end BitInsn

end X86Sim
