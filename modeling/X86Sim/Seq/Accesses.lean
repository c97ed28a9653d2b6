import X86Sim.Lib.ByteRanges
import X86Sim.Seq.RunUops

/-!
# Accesses byte by byte

The access a load or a store stands for, as bytes from its address on, and the two
halves the core splits it into: chunks of eight bytes, read whole and written under a
mask. The high half of an access that stays in its chunk is annulled.
-/

namespace X86Sim.Seq

open ByteMask

/-- Byte `i` of an access at `a`. -/
def byteAddr (a i : ℕ) : ℕ := (a + i) % 2 ^ 64

/-- The stores of the `n` low bytes of `v`, one at a time. -/
def storeBytewise (a : ℕ) (v : W64) (m : ℕ → Byte) : ℕ → ℕ → Byte
  | 0 => m
  | n + 1 => Function.update (storeBytewise a v m n) (byteAddr a n) (byteAt v n)

/-- A value widened to a register. -/
def extend (signext : Bool) {w : ℕ} (v : BitVec w) : W64 := if signext then v.signExtend 64 else v.setWidth 64

namespace SeqCore

variable (c : SeqCore) (op : TransOp)

/-- The address of a load or a store: canonical, and cut to the code size. -/
def linear : ℕ := (((c.radata op + c.rbdata op).setWidth 48).signExtend 64 &&& c.ctx.virtAddrMask).toNat

/-- The bytes a uop accesses: the guest's, or for an internal uop those of the host. -/
def mem (internal : Bool) : ℕ → Byte := if internal then c.ctx.hostBytes else c.space.bytes

/-- Whether a byte may be loaded or stored. -/
def permits (internal store : Bool) (a : ℕ) : Bool := internal || c.space.check a ⟨!store, store, false⟩

/-- Every byte of the access may be accessed. -/
def Permitted : Prop :=
  ∀ i < 2 ^ op.size, c.permits op.internal (isstore op.opcode) (byteAddr (c.linear op) i) = true

/-- The value of the bytes of the access, little end first. -/
def littleEndian : W64 :=
  extend (op.opcode == .opLdx)
    ((ofBytes fun i => c.mem op.internal (byteAddr (c.linear op) i)).setWidth (opWidth op.size))

end SeqCore

/-! ### Addresses -/

theorem SeqCore.linear_lt {c : SeqCore} {op : TransOp} : c.linear op < 2 ^ 64 := BitVec.isLt _

theorem byteAddr_of_lt {a i : ℕ} (h : a + i < 2 ^ 64) : byteAddr a i = a + i := Nat.mod_eq_of_lt h

theorem byteAddr_inj {a i j : ℕ} (hi : i < 2 ^ 64) (hj : j < 2 ^ 64) (h : byteAddr a i = byteAddr a j) :
    i = j := by
  unfold byteAddr at h
  omega

/-- Bytes of the access up to the end of its chunk. -/
theorem byteAddr_low {a i : ℕ} (ha : a < 2 ^ 64) (hi : a % 8 + i < 8) : byteAddr a i = floor8 a + (a % 8 + i) := by
  unfold byteAddr floor8
  omega

/-- Bytes of the access in the next chunk. -/
theorem byteAddr_high {a i : ℕ} (ha : a < 2 ^ 64) (hi : 8 ≤ a % 8 + i) (hi' : i < 8) :
    byteAddr a i = (floor8 a + 8) % 2 ^ 64 + (a % 8 + i - 8) := by
  unfold byteAddr floor8
  omega

/-- The first byte of the next chunk. -/
theorem byteAddr_next (a : ℕ) : byteAddr a (8 - a % 8) = (floor8 a + 8) % 2 ^ 64 := by
  unfold byteAddr floor8
  have hmod := Nat.mod_lt a (by decide : 0 < 8)
  have hle := Nat.mod_le a 8
  congr 1
  omega

/-- The chunk that holds an address lies in one page. -/
theorem page_eq_of_chunk {x y : ℕ} (h : x / 8 = y / 8) : x / kPageSize = y / kPageSize := by
  unfold kPageSize
  omega

/-- Protection is by page. -/
theorem check_congr {m : AddressSpace} {x y : ℕ} (h : x / kPageSize = y / kPageSize) (p : Protection) :
    m.check x p = m.check y p := by
  have hhigh : x / addressSpaceSize = y / addressSpaceSize := by
    unfold kPageSize at h
    unfold addressSpaceSize
    omega
  have hpage : pageid x = pageid y := by
    unfold kPageSize at h
    unfold pageid addressSpaceSize kPageSize
    omega
  unfold AddressSpace.check AddressSpace.fastcheck
  rw [hhigh, hpage]

theorem SeqCore.permits_congr {c : SeqCore} {x y : ℕ} (h : x / 8 = y / 8) (internal store : Bool) :
    c.permits internal store x = c.permits internal store y := by
  unfold permits
  rw [check_congr (page_eq_of_chunk h)]

/-! ### Stores, a byte at a time -/

section Bytewise

variable {a n : ℕ} {v : W64} {m : ℕ → Byte}

theorem storeBytewise_of_ne {x : ℕ} (h : ∀ i < n, x ≠ byteAddr a i) : storeBytewise a v m n x = m x := by
  induction n with
  | zero => rfl
  | succ n ih =>
    show Function.update _ _ _ x = _
    rw [Function.update_of_ne (h n n.lt_succ_self)]
    exact ih fun i hi => h i (Nat.lt_succ_of_lt hi)

theorem storeBytewise_byte {i : ℕ} (hi : i < n) (hn : n ≤ 2 ^ 64) :
    storeBytewise a v m n (byteAddr a i) = byteAt v i := by
  induction n with
  | zero => omega
  | succ n ih =>
    show Function.update _ _ _ _ = _
    by_cases hin : i = n
    · subst hin
      exact Function.update_self _ _ _
    · have hne : byteAddr a i ≠ byteAddr a n := fun h => hin (byteAddr_inj (by omega) (by omega) h)
      rw [Function.update_of_ne hne]
      exact ih (by omega) (by omega)

end Bytewise

/-! ### The halves -/

/-- The bytes of a masked chunk. -/
def putChunk (m : ℕ → Byte) (chunk : ℕ) (data : W64) (bytemask : BitVec 8) : ℕ → Byte := fun x =>
  if chunk ≤ x ∧ x < chunk + 8 ∧ bytemask.getLsbD (x - chunk) then byteAt data (x - chunk) else m x

section Halves

variable {a n : ℕ} (ha : a < 2 ^ 64) (hn : n ≤ 8) (v : W64) (m : ℕ → Byte)
include ha hn

/-- The low half writes the bytes up to the end of the chunk. -/
theorem putChunk_low (x : ℕ) :
    putChunk m (floor8 a) (v <<< (8 * (a % 8))) (BitVec.ofNat 8 ((2 ^ n - 1) <<< (a % 8))) x =
      if ∃ i < n, a % 8 + i < 8 ∧ x = byteAddr a i then storeBytewise a v m n x else m x := by
  unfold putChunk
  by_cases hit : ∃ i < n, a % 8 + i < 8 ∧ x = byteAddr a i
  · rw [if_pos hit]
    obtain ⟨i, hi, hlow, rfl⟩ := hit
    have hx := byteAddr_low ha hlow
    have hsub : byteAddr a i - floor8 a = a % 8 + i := by omega
    rw [storeBytewise_byte hi (by omega), hsub, maskLeft_bit _ _ hlow, byteAt_shiftLeft v (by omega) hlow,
      if_pos ⟨by omega, by omega, by simp [hi]⟩, Nat.add_sub_cancel_left]
  · rw [if_neg hit, if_neg]
    rintro ⟨hge, hlt, hmask⟩
    rw [maskLeft_bit _ _ (by omega), decide_eq_true_eq] at hmask
    refine hit ⟨x - floor8 a - a % 8, by omega, by omega, ?_⟩
    rw [byteAddr_low ha (by omega)]
    omega

/-- The high half writes the others. -/
theorem putChunk_high (x : ℕ) :
    putChunk m ((floor8 a + 8) % 2 ^ 64) (v >>> (8 * (8 - a % 8))) (BitVec.ofNat 8 ((2 ^ n - 1) >>> (8 - a % 8))) x =
      if ∃ i < n, 8 ≤ a % 8 + i ∧ x = byteAddr a i then storeBytewise a v m n x else m x := by
  unfold putChunk
  have hmod := Nat.mod_lt a (by decide : 0 < 8)
  by_cases hit : ∃ i < n, 8 ≤ a % 8 + i ∧ x = byteAddr a i
  · rw [if_pos hit]
    obtain ⟨i, hi, hhigh, rfl⟩ := hit
    have hx := byteAddr_high ha hhigh (by omega)
    have hsub : byteAddr a i - (floor8 a + 8) % 2 ^ 64 = a % 8 + i - 8 := by omega
    have hidx : 8 - a % 8 + (a % 8 + i - 8) = i := by omega
    rw [storeBytewise_byte hi (by omega), hsub, maskRight_bit _ _ (by omega), byteAt_shiftRight, hidx,
      if_pos ⟨by omega, by omega, by simp [hi]⟩]
  · rw [if_neg hit, if_neg]
    rintro ⟨hge, hlt, hmask⟩
    rw [maskRight_bit _ _ (by omega), decide_eq_true_eq] at hmask
    refine hit ⟨8 - a % 8 + (x - (floor8 a + 8) % 2 ^ 64), by omega, by omega, ?_⟩
    rw [byteAddr_high ha (by omega) (by omega)]
    omega

/-- Both halves, the high one first, are the store byte by byte. -/
theorem putChunk_halves :
    putChunk (putChunk m ((floor8 a + 8) % 2 ^ 64) (v >>> (8 * (8 - a % 8)))
        (BitVec.ofNat 8 ((2 ^ n - 1) >>> (8 - a % 8)))) (floor8 a) (v <<< (8 * (a % 8)))
      (BitVec.ofNat 8 ((2 ^ n - 1) <<< (a % 8))) = storeBytewise a v m n := by
  funext x
  rw [putChunk_low ha hn]
  by_cases hlow : ∃ i < n, a % 8 + i < 8 ∧ x = byteAddr a i
  · rw [if_pos hlow]
    obtain ⟨i, hi, -, rfl⟩ := hlow
    rw [storeBytewise_byte hi (by omega), storeBytewise_byte hi (by omega)]
  · rw [if_neg hlow, putChunk_high ha hn]
    by_cases hhigh : ∃ i < n, 8 ≤ a % 8 + i ∧ x = byteAddr a i
    · rw [if_pos hhigh]
    · rw [if_neg hhigh, storeBytewise_of_ne]
      intro i hi hx
      rcases Nat.lt_or_ge (a % 8 + i) 8 with h | h
      · exact hlow ⟨i, hi, h, hx⟩
      · exact hhigh ⟨i, hi, h, hx⟩

end Halves

/-! ### What a load extracts -/

/-- The bytes extracted, widened. -/
theorem extractBytes_eq (lo hi : W64) (off : ℕ) {size : ℕ} (hsize : size ≤ 3) (signext : Bool) :
    extractBytes lo hi off size signext = extend signext ((ofBytes (lane lo hi off)).setWidth (opWidth size)) := by
  have hbytes : ∀ w ≤ 64, ((hi ++ lo) >>> (8 * off)).setWidth w = (ofBytes (lane lo hi off)).setWidth w := by
    intro w hw
    rw [← window_eq, BitVec.setWidth_setWidth_of_le _ hw]
  unfold extractBytes extend
  dsimp only
  interval_cases size
  · rw [hbytes 8 (by decide)]
    rfl
  · rw [hbytes 16 (by decide)]
    rfl
  · rw [hbytes 32 (by decide)]
    rfl
  · rw [hbytes 64 (by decide)]
    show _ = if signext = true then ((ofBytes (lane lo hi off)).setWidth 64).signExtend 64
      else ((ofBytes (lane lo hi off)).setWidth 64).setWidth 64
    cases signext <;> simp

end X86Sim.Seq
