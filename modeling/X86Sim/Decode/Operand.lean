import X86Sim.Mem.AddressSpace

/-!
# Memory operands (`decode-core.cpp`)

`DecodedOperand::eform` reads a ModRM, SIB and displacement by tables. `x86Operand` says
what the bytes mean, and `eform_eq` that the tables agree with it.
-/

namespace X86Sim

namespace Reg

def rbp : Reg := 5
def rsi : Reg := 6
def rdi : Reg := 7
def r8 : Reg := 8
def r9 : Reg := 9
def r10 : Reg := 10
def r11 : Reg := 11
def r12 : Reg := 12
def r13 : Reg := 13
def r14 : Reg := 14
def r15 : Reg := 15

end Reg

/-! ### Bytes -/

/-- The REX bits of an operand. -/
structure RexByte where
  extbase : Bool
  extindex : Bool
  mode64 : Bool
  deriving DecidableEq

structure ModRMByte where
  mod : Fin 4
  rm : Fin 8
  deriving DecidableEq

structure SIBByte where
  scale : Fin 4
  index : Fin 8
  base : Fin 8
  deriving DecidableEq

def SIBByte.ofByte (b : Byte) : SIBByte where
  scale := (b.extractLsb' 6 2).toFin
  index := (b.extractLsb' 3 3).toFin
  base := (b.extractLsb' 0 3).toFin

/-- The little-endian value of bytes. -/
def leValue : List Byte → ℕ
  | [] => 0
  | b :: bs => b.toNat + 256 * leValue bs

/-- `TraceDecoder::fetch`. -/
def fetch (n : ℕ) (bytes : List Byte) : Option (BitVec 32 × List Byte) :=
  if n ≤ bytes.length then some (BitVec.ofNat 32 (leValue (bytes.take n)), bytes.drop n) else none

/-- `signext32`. -/
def signext32 (x : BitVec 32) (i : ℕ) : BitVec 32 := (x <<< (32 - i)).sshiftRight (32 - i)

/-! ### The decoder -/

/-- `DecodedOperand::mem`, with the registers as `arch_pseudo_reg_to_arch_reg` gives them. -/
structure MemRef where
  size : ℕ
  basereg : Reg
  indexreg : Reg
  scale : Fin 4
  offset : W64
  deriving DecidableEq

/-- `mod_and_rexextbase_and_rm_to_basereg_x86_64`; `none` is -1. -/
def modAndRexextbaseAndRmToBasereg (mod : Fin 4) (extbase : Bool) : List (Option Reg) :=
  match mod, extbase with
  | 0, false => [Reg.rax, Reg.rcx, Reg.rdx, Reg.rbx, none, Reg.rip, Reg.rsi, Reg.rdi]
  | 0, true => [Reg.r8, Reg.r9, Reg.r10, Reg.r11, none, Reg.rip, Reg.r14, Reg.r15]
  | 3, _ => [none, none, none, none, none, none, none, none]
  | _, false => [Reg.rax, Reg.rcx, Reg.rdx, Reg.rbx, none, Reg.rbp, Reg.rsi, Reg.rdi]
  | _, true => [Reg.r8, Reg.r9, Reg.r10, Reg.r11, none, Reg.r13, Reg.r14, Reg.r15]

/-- `mod_and_rm_to_immsize`. -/
def modAndRmToImmsize : Fin 4 → List ℕ
  | 0 => [0, 0, 0, 0, 0, 4, 0, 0]
  | 1 => [1, 1, 1, 1, 1, 1, 1, 1]
  | 2 => [4, 4, 4, 4, 4, 4, 4, 4]
  | 3 => [0, 0, 0, 0, 0, 0, 0, 0]

/-- `rexextbase_and_base_to_basereg`. -/
def rexextbaseAndBaseToBasereg : Bool → List (Option Reg)
  | false => [Reg.rax, Reg.rcx, Reg.rdx, Reg.rbx, Reg.rsp, none, Reg.rsi, Reg.rdi]
  | true => [Reg.r8, Reg.r9, Reg.r10, Reg.r11, Reg.r12, none, Reg.r14, Reg.r15]

/-- `rexextbase_and_mod_to_basereg`. -/
def rexextbaseAndModToBasereg : Bool → List (Option Reg)
  | false => [Reg.zero, Reg.rbp, Reg.rbp, none]
  | true => [Reg.zero, Reg.r13, Reg.r13, none]

/-- `rexextindex_and_index_to_indexreg`. -/
def rexextindexAndIndexToIndexreg : Bool → List Reg
  | false => [Reg.rax, Reg.rcx, Reg.rdx, Reg.rbx, Reg.zero, Reg.rbp, Reg.rsi, Reg.rdi]
  | true => [Reg.r8, Reg.r9, Reg.r10, Reg.r11, Reg.r12, Reg.r13, Reg.r14, Reg.r15]

/-- A displacement of `n` bytes, none of no bytes. -/
def fetchOffset (n : ℕ) (bytes : List Byte) : Option (W64 × List Byte) :=
  if n = 0 then some (0, bytes)
  else (fetch n bytes).map fun (imm, bytes) => ((signext32 imm (n * 8)).signExtend 64, bytes)

/-- `eform` in 64-bit code, of a memory operand: a register operand and missing bytes give
none. `bytes` follow the ModRM byte. -/
def eform (rex : RexByte) (modrm : ModRMByte) (size : ℕ) (bytes : List Byte) : Option (MemRef × List Byte) := do
  if modrm.mod = 3 then none
  let basereg := (modAndRexextbaseAndRmToBasereg modrm.mod rex.extbase)[modrm.rm.val]?.join
  let (sib, bytes) ← if modrm.rm = 4 then
      match bytes with
      | b :: bytes => some (SIBByte.ofByte b, bytes)
      | [] => none
    else some (⟨0, 0, 0⟩, bytes)
  let immsize := (modAndRmToImmsize modrm.mod)[modrm.rm.val]?.getD 0
  let (offset, bytes) ← fetchOffset immsize bytes
  match basereg with
  | some basereg => some (⟨size, basereg, Reg.zero, 0, offset⟩, bytes)
  | none =>
    let indexreg := (rexextindexAndIndexToIndexreg rex.extindex)[sib.index.val]?.getD Reg.zero
    -- no base by the ModRM byte alone: it is that of the SIB byte
    match (rexextbaseAndBaseToBasereg rex.extbase)[sib.base.val]?.join with
    | some basereg => some (⟨size, basereg, indexreg, sib.scale, offset⟩, bytes)
    | none =>
      let basereg ← (rexextbaseAndModToBasereg rex.extbase)[modrm.mod.val]?.join
      -- with base 5 the field `mod` tells the base and the size of the displacement
      if immsize = 0 then
        let (offset, bytes) ← fetchOffset (if modrm.mod = 1 then 1 else 4) bytes
        some (⟨size, basereg, indexreg, sib.scale, offset⟩, bytes)
      else some (⟨size, basereg, indexreg, sib.scale, offset⟩, bytes)

/-! ### What x86 says -/

/-- The base of an address. -/
inductive X86Base
  | none | rip | reg (r : Fin 16)
  deriving DecidableEq

/-- A memory operand. -/
structure X86Operand where
  base : X86Base
  index : Option (Fin 16)
  scale : Fin 4
  disp : W64
  deriving DecidableEq

/-- Register `r` of three bits, with its REX bit. -/
def extReg (ext : Bool) (r : Fin 8) : Fin 16 := if ext then ⟨r + 8, by omega⟩ else ⟨r, by omega⟩

/-- The displacement by its size: 0, 1 or 4 bytes, sign extended. -/
def x86Disp (n : ℕ) (bytes : List Byte) : Option (W64 × List Byte) :=
  match n with
  | 0 => some (0, bytes)
  | 1 =>
    match bytes with
    | b :: bytes => some (b.signExtend 64, bytes)
    | [] => none
  | _ =>
    if 4 ≤ bytes.length then some ((BitVec.ofNat 32 (leValue (bytes.take 4))).signExtend 64, bytes.drop 4)
    else none

/-- The operand a ModRM byte, which is not a register's, and the bytes after it encode. -/
def x86Operand (rex : RexByte) (modrm : ModRMByte) (bytes : List Byte) : Option (X86Operand × List Byte) :=
  let dispsize := if modrm.mod = 0 then 0 else if modrm.mod = 1 then 1 else 4
  if modrm.rm = 4 then
    match bytes with
    | [] => none
    | b :: bytes =>
      let sib := SIBByte.ofByte b
      let index := if sib.index = 4 ∧ rex.extindex = false then none else some (extReg rex.extindex sib.index)
      if sib.base = 5 ∧ modrm.mod = 0 then
        (x86Disp 4 bytes).map fun (disp, bytes) => (⟨.none, index, sib.scale, disp⟩, bytes)
      else
        (x86Disp dispsize bytes).map fun (disp, bytes) =>
          (⟨.reg (extReg rex.extbase sib.base), index, sib.scale, disp⟩, bytes)
  else if modrm.mod = 0 ∧ modrm.rm = 5 then
    (x86Disp 4 bytes).map fun (disp, bytes) => (⟨.rip, none, 0, disp⟩, bytes)
  else
    (x86Disp dispsize bytes).map fun (disp, bytes) =>
      (⟨.reg (extReg rex.extbase modrm.rm), none, 0, disp⟩, bytes)

/-- The register a base or index is read from. -/
def X86Base.basereg : X86Base → Reg
  | none => Reg.zero
  | rip => Reg.rip
  | reg r => r.castLE sixteen_le_regs

def X86Operand.indexreg (o : X86Operand) : Reg :=
  match o.index with
  | none => Reg.zero
  | some r => r.castLE sixteen_le_regs

/-- The operand as the decoder keeps it. -/
def X86Operand.memRef (o : X86Operand) (size : ℕ) : MemRef :=
  ⟨size, o.base.basereg, o.indexreg, o.scale, o.disp⟩

/-! ### The tables agree -/

/-- Of the registers, the tables list the eight without and the eight with a REX bit. -/
theorem extReg_eq (ext : Bool) (r : Fin 8) : (rexextindexAndIndexToIndexreg ext)[r.val]?.getD Reg.zero =
    if r = 4 ∧ ext = false then Reg.zero else (extReg ext r).castLE (by decide) := by
  decide +revert

theorem sibBase_eq (ext : Bool) (r : Fin 8) : (rexextbaseAndBaseToBasereg ext)[r.val]?.join =
    if r = 5 then none else some ((extReg ext r).castLE (by decide)) := by
  decide +revert

theorem modBase_eq (ext : Bool) (mod : Fin 4) (h : mod ≠ 3) : (rexextbaseAndModToBasereg ext)[mod.val]?.join =
    if mod = 0 then some Reg.zero else some ((extReg ext 5).castLE (by decide)) := by
  decide +revert

theorem rmBase_eq (ext : Bool) (mod : Fin 4) (rm : Fin 8) (h : mod ≠ 3) :
    (modAndRexextbaseAndRmToBasereg mod ext)[rm.val]?.join =
      if rm = 4 then none else if mod = 0 ∧ rm = 5 then some Reg.rip
      else some ((extReg ext rm).castLE (by decide)) := by
  decide +revert

theorem immsize_eq (mod : Fin 4) (rm : Fin 8) (h : mod ≠ 3) : (modAndRmToImmsize mod)[rm.val]?.getD 0 =
    if mod = 0 then if rm = 5 then 4 else 0 else if mod = 1 then 1 else 4 := by
  decide +revert

/-- Sign extension of a byte by two shifts. -/
theorem signext32_byte (b : Byte) : (signext32 (BitVec.ofNat 32 b.toNat) 8).signExtend 64 = b.signExtend 64 := by
  have hofNat : BitVec.ofNat 32 b.toNat = b.setWidth 32 := BitVec.ofNat_toNat 32 b
  rw [hofNat]
  apply BitVec.eq_of_getLsbD_eq
  intro k hk
  unfold signext32
  simp only [BitVec.getLsbD_signExtend, BitVec.getLsbD_sshiftRight, BitVec.getLsbD_shiftLeft,
    BitVec.getLsbD_setWidth, BitVec.msb_eq_getLsbD_last]
  by_cases h8 : k < 8
  · have h32 : k < 32 := by omega
    have h24 : 24 + k < 32 := by omega
    simp [h8, hk, h32, h24]
  · -- every bit from 7 on is bit 7
    have h24 : ¬24 + k < 32 := by omega
    simp [h8, hk, h24]
    omega

/-- The displacement is fetched as its size says. -/
theorem fetchOffset_eq {n : ℕ} (hn : n = 0 ∨ n = 1 ∨ n = 4) (bytes : List Byte) :
    fetchOffset n bytes = x86Disp n bytes := by
  rcases hn with rfl | rfl | rfl
  · rfl
  · cases bytes with
    | nil => rfl
    | cons b bytes =>
      have hlen : 1 ≤ (b :: bytes).length := by simp
      have hsign := signext32_byte b
      unfold fetchOffset fetch
      rw [if_neg (by decide), if_pos hlen]
      simp only [Option.map_some, List.take_succ_cons, List.take_zero, List.drop_succ_cons, List.drop_zero,
        leValue, Nat.mul_zero, Nat.add_zero, Nat.one_mul, hsign]
      rfl
  · have hshift : ∀ x, signext32 x (4 * 8) = x := by
      intro x
      unfold signext32
      simp
    unfold fetchOffset fetch x86Disp
    dsimp only
    rw [if_neg (by decide)]
    split
    · simp only [Option.map_some, hshift]
    · rfl

/-- **The decoder's tables read the operand the bytes encode.** -/
theorem eform_eq (rex : RexByte) (modrm : ModRMByte) (hmod : modrm.mod ≠ 3) (size : ℕ) (bytes : List Byte) :
    eform rex modrm size bytes =
      (x86Operand rex modrm bytes).map fun (o, bytes) => (o.memRef size, bytes) := by
  obtain ⟨mod, rm⟩ := modrm
  unfold eform x86Operand
  dsimp only at hmod ⊢
  rw [if_neg hmod, rmBase_eq _ _ _ hmod, immsize_eq _ _ hmod, modBase_eq _ _ hmod]
  -- a displacement has no byte, one or four, whatever the form
  have hsize : ∀ b : Prop, [Decidable b] →
      (if b then 0 else if mod = 1 then 1 else 4) = 0 ∨ (if b then 0 else if mod = 1 then 1 else 4) = 1 ∨
        (if b then 0 else if mod = 1 then 1 else 4) = 4 := by
    intro b _
    split
    · exact .inl rfl
    · split
      · exact .inr (.inl rfl)
      · exact .inr (.inr rfl)
  by_cases hrm : rm = 4
  · subst hrm
    have h45 : (4 : Fin 8) ≠ 5 := by decide
    simp only [if_true, h45, if_false]
    cases bytes with
    | nil => rfl
    | cons b bytes =>
      simp only [extReg_eq, sibBase_eq, fetchOffset_eq (hsize _), Option.bind_eq_bind, Option.bind_some]
      have hindex : (if (SIBByte.ofByte b).index = 4 ∧ rex.extindex = false then Reg.zero
            else (extReg rex.extindex (SIBByte.ofByte b).index).castLE (by decide)) =
          X86Operand.indexreg ⟨.none, if (SIBByte.ofByte b).index = 4 ∧ rex.extindex = false then none
            else some (extReg rex.extindex (SIBByte.ofByte b).index), 0, 0⟩ := by
        unfold X86Operand.indexreg
        split <;> rfl
      rw [hindex]
      by_cases hbase : (SIBByte.ofByte b).base = 5
      · by_cases h0 : mod = 0
        · -- no base, and a displacement of four bytes
          subst h0
          have hfour : (if (0 : Fin 4) = 1 then 1 else 4) = 4 := by decide
          simp only [hbase, and_self, if_true, hfour, fetchOffset_eq (show 4 = 0 ∨ 4 = 1 ∨ 4 = 4 by decide),
            Option.bind_some, x86Disp]
          split <;> rfl
        · have himm : ¬(if mod = 1 then 1 else 4) = 0 := by split <;> decide
          simp only [hbase, h0, and_false, if_true, if_false, himm, Option.bind_some]
          cases x86Disp (if mod = 1 then 1 else 4) bytes <;> rfl
      · simp only [hbase, false_and, if_false]
        cases x86Disp (if mod = 0 then 0 else if mod = 1 then 1 else 4) bytes <;> rfl
  · simp only [if_neg hrm]
    by_cases hrip : mod = 0 ∧ rm = 5
    · obtain ⟨rfl, rfl⟩ := hrip
      simp only [and_self, if_true, fetchOffset_eq (show 4 = 0 ∨ 4 = 1 ∨ 4 = 4 by decide), Option.bind_eq_bind,
        Option.bind_some]
      cases x86Disp 4 bytes <;> rfl
    · -- the decoder asks for `rm` once more, where it can only be the form relative to `rip`
      have himm : (if mod = 0 then if rm = 5 then 4 else 0 else if mod = 1 then 1 else 4) =
          if mod = 0 then 0 else if mod = 1 then 1 else 4 := by
        by_cases h0 : mod = 0
        · rw [if_pos h0, if_pos h0, if_neg fun h => hrip ⟨h0, h⟩]
        · rw [if_neg h0, if_neg h0]
      simp only [if_neg hrip, himm, fetchOffset_eq (hsize _), Option.bind_eq_bind, Option.bind_some]
      cases x86Disp (if mod = 0 then 0 else if mod = 1 then 1 else 4) bytes <;> rfl

end X86Sim
