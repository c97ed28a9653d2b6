import X86Sim.Context
import X86Sim.Lib.Loops
import X86Sim.X87.RoundTrip

/-!
# Saving and restoring the x87 and SSE state (`Context::fxsave`, `Context::fxrstor`)

The image holds the x87 registers in the order of the stack, so rotated by its top, their
tags as a bit for each physical register, and the numbers in the extended format.

* `fxrstor_fxsave`: what restoring a saved image restores.
-/

namespace X86Sim

open Loops

/-! ### The image -/

def Reg.fpsw : Reg := 49
def Reg.fptags : Reg := 50

/-- `REG_xmml0 + i * 2` and `REG_xmmh0 + i * 2`. -/
def Reg.xmml (i : Fin 16) : Reg := ⟨16 + i.val * 2, by omega⟩
def Reg.xmmh (i : Fin 16) : Reg := ⟨17 + i.val * 2, by omega⟩

/-- The x87 and SSE part of a `Context`. -/
structure FpContext extends Context where
  fpcw : W64
  mxcsr : BitVec 32
  fpstack : Fin 8 → W64

/-- `FXSAVEStruct`. The two words of the instruction and data pointers are those of 64-bit
mode. -/
structure FXSAVEStruct where
  cw : W16
  sw : W16
  tw : W16
  fop : W16
  rip : W64
  rdp : W64
  mxcsr : BitVec 32
  mxcsrMask : BitVec 32
  fpregs : Fin 8 → X87Reg
  xmmregs : Fin 16 → W64 × W64

/-- `bit(x, n)`. -/
def bit {w : ℕ} (x : BitVec w) (n : ℕ) : BitVec w := (x >>> n) &&& 1#w

/-- `X87StatusWord::tos`. -/
def statusTos (sw : W16) : W16 := (sw >>> 11) &&& (7 : W16)
def setStatusTos (sw tos : W16) : W16 := (sw &&& (0xc7ff : W16)) ||| (tos &&& (7 : W16)) <<< 11

/-- The condition bits c0, c1, c2 and c3. -/
def conditionBits (sw : W64) : W64 := sw &&& ((0x7 : W64) <<< 8 ||| (1 : W64) <<< 14)

/-- `X87ControlWord::rc`. -/
def controlRc (cw : W16) : Fin 4 := Fin.ofNat 4 (cw >>> 10).toNat

/-- `lowbits(tos + i, 3)`. -/
def stackSlot (tos : ℕ) (i : Fin 8) : Fin 8 := Fin.ofNat 8 (tos + i.val)

/-- The xmm registers a mode has. -/
def xmmCount (use64 : Bool) : ℕ := if use64 then 16 else 8

/-- The abridged tag word, a bit for each register, and the tags it stands for. -/
def tagWordOf (tags : W64) : W16 :=
  (List.finRange 8).foldl (fun tw i => tw ||| (bit tags (i.val * 8) <<< i.val).setWidth 16) 0

def tagsOf (tw : W16) : W64 :=
  (List.finRange 8).foldl (fun tags i => tags ||| (bit tw i.val).setWidth 64 <<< (i.val * 8)) 0

namespace FpContext

variable (ctx : FpContext)

/-- `Context::fxsave`; none where the assertion on the top of the stack fails. In 32-bit
mode the pointers keep the reserved halves of the two words. -/
def fxsave (state : FXSAVEStruct) : Option FXSAVEStruct :=
  let tos : BitVec 32 := (ctx.commitarf Reg.fptos >>> 3).setWidth 32
  let status : W16 := (conditionBits (ctx.commitarf Reg.fpsw)).setWidth 16
  let clear (word : W64) : W64 := if ctx.use64 then 0 else word &&& 0xffff000000000000
  if tos.toNat ≤ 7 then
    some {
      cw := ctx.fpcw.setWidth 16
      sw := setStatusTos status (tos.setWidth 16)
      tw := tagWordOf (ctx.commitarf Reg.fptags)
      fop := 0
      rip := clear state.rip
      rdp := clear state.rdp
      mxcsr := ctx.mxcsr
      mxcsrMask := 0x0000ffff
      fpregs := fun i => x87Fp64bitTo80bit (ctx.fpstack (stackSlot tos.toNat i))
      xmmregs := fun i =>
        if i.val < xmmCount ctx.use64 then (ctx.commitarf (Reg.xmml i), ctx.commitarf (Reg.xmmh i))
        else state.xmmregs i }
  else none

/-- `Context::fxrstor`. -/
def fxrstor (state : FXSAVEStruct) : FpContext :=
  let arf := Function.update ctx.commitarf Reg.fptos ((statusTos state.sw).setWidth 64 * 8)
  let arf := Function.update arf Reg.fpsw (state.sw.setWidth 64)
  let fpcw : W64 := state.cw.setWidth 64
  let arf := Function.update arf Reg.fptags (tagsOf state.tw)
  let fpstack := (List.finRange 8).foldl (fun fpstack i =>
    Function.update fpstack (stackSlot (statusTos state.sw).toNat i)
      (x87Fp80bitTo64bit (state.fpregs i) (controlRc (fpcw.setWidth 16)))) ctx.fpstack
  let arf := ((List.finRange 16).take (xmmCount ctx.use64)).foldl (fun arf i =>
    Function.update (Function.update arf (Reg.xmml i) (state.xmmregs i).1) (Reg.xmmh i) (state.xmmregs i).2) arf
  { ctx with
    commitarf := arf
    fpcw
    mxcsr := state.mxcsr &&& state.mxcsrMask
    fpstack }

end FpContext

/-! ### The fields of the image -/

theorem bit_getLsbD {w : ℕ} (x : BitVec w) (n k : ℕ) : (bit x n).getLsbD k = (decide (k = 0) && x.getLsbD n) := by
  rw [bit, BitVec.getLsbD_and, BitVec.getLsbD_ushiftRight, BitVec.getLsbD_one]
  by_cases hk : k = 0
  · by_cases hw : 0 < w
    · simp [hk, hw]
    · have hge : w ≤ n := by omega
      simp [hk, hw, BitVec.getLsbD_of_ge x n hge]
  · simp [hk]

section Tags

variable {tags : W64}

theorem tagWordOf_getLsbD {k : ℕ} (hk : k < 8) : (tagWordOf tags).getLsbD k = tags.getLsbD (k * 8) := by
  have hbit : ∀ i : Fin 8, ((bit tags (i.val * 8) <<< i.val).setWidth 16).getLsbD k =
      (decide (i.val = k) && tags.getLsbD (i.val * 8)) := by
    intro i
    have hk16 : k < 16 := by omega
    have hk64 : k < 64 := by omega
    rw [BitVec.getLsbD_setWidth, BitVec.getLsbD_shiftLeft, bit_getLsbD]
    by_cases hik : i.val = k
    · simp [hik, hk16, hk64]
    · by_cases hlt : k < i.val
      · simp [hik, hlt]
      · have hne : ¬ k - i.val = 0 := by omega
        simp [hik, hne]
  rw [tagWordOf, foldl_or_getLsbD, Bool.eq_iff_iff, Bool.or_eq_true, List.any_eq_true]
  constructor
  · rintro (h | ⟨i, -, h⟩)
    · simp at h
    · rw [hbit, Bool.and_eq_true, decide_eq_true_iff] at h
      rw [← h.1]
      exact h.2
  · intro h
    refine .inr ⟨⟨k, hk⟩, List.mem_finRange _, ?_⟩
    rw [hbit, h]
    simp

theorem tagsOf_getLsbD (tw : W16) {k : ℕ} (hk : k < 64) :
    (tagsOf tw).getLsbD k = (decide (k % 8 = 0) && tw.getLsbD (k / 8)) := by
  have hbit : ∀ i : Fin 8, ((bit tw i.val).setWidth 64 <<< (i.val * 8)).getLsbD k =
      (decide (i.val * 8 = k) && tw.getLsbD i.val) := by
    intro i
    rw [BitVec.getLsbD_shiftLeft, BitVec.getLsbD_setWidth, bit_getLsbD]
    by_cases hik : i.val * 8 = k
    · simp [hik, hk]
    · by_cases hlt : k < i.val * 8
      · simp [hik, hlt]
      · have hne : ¬ k - i.val * 8 = 0 := by omega
        simp [hik, hne]
  rw [tagsOf, foldl_or_getLsbD, Bool.eq_iff_iff, Bool.or_eq_true, List.any_eq_true]
  constructor
  · rintro (h | ⟨i, -, h⟩)
    · simp at h
    · rw [hbit, Bool.and_eq_true, decide_eq_true_iff] at h
      have hmod : k % 8 = 0 := by omega
      have hdiv : k / 8 = i.val := by omega
      rw [hmod, hdiv, h.2]
      rfl
  · intro h
    rw [Bool.and_eq_true, decide_eq_true_iff] at h
    have hlt : k / 8 < 8 := by omega
    have hmul : k / 8 * 8 = k := by omega
    refine .inr ⟨⟨k / 8, hlt⟩, List.mem_finRange _, ?_⟩
    rw [hbit, hmul, h.2]
    simp

/-- The tags have a bit for each of the eight registers, and no others. -/
def TagBits (tags : W64) : Prop := ∀ k < 64, k % 8 ≠ 0 → tags.getLsbD k = false

theorem tagsOf_tagWordOf (htags : TagBits tags) : tagsOf (tagWordOf tags) = tags := by
  apply BitVec.eq_of_getLsbD_eq
  intro k hk
  rw [tagsOf_getLsbD _ hk]
  by_cases hmod : k % 8 = 0
  · have hmul : k / 8 * 8 = k := by omega
    rw [tagWordOf_getLsbD (by omega), hmul, decide_eq_true hmod, Bool.true_and]
  · rw [htags k hk hmod, decide_eq_false hmod, Bool.false_and]

end Tags

section Status

variable {t : Fin 8}

/-- The top of the stack passes through the status word. -/
theorem statusTos_setStatusTos (sw : W16) :
    statusTos (setStatusTos sw (BitVec.ofNat 16 t.val)) = BitVec.ofNat 16 t.val := by
  have hmask : (0xc7ff : W16) >>> 11 &&& 7 = 0 := by decide
  have htos : ∀ t : Fin 8, (BitVec.ofNat 16 t.val &&& 7) <<< 11 >>> 11 &&& 7 = BitVec.ofNat 16 t.val := by
    decide
  rw [statusTos, setStatusTos, BitVec.ushiftRight_or_distrib, BitVec.ushiftRight_and_distrib, BitVec.and_or_distrib_right,
    BitVec.and_assoc, hmask, htos]
  simp

theorem conditionBits_setStatusTos (fpsw : W64) :
    conditionBits ((setStatusTos ((conditionBits fpsw).setWidth 16) (BitVec.ofNat 16 t.val)).setWidth 64) =
      conditionBits fpsw := by
  have hmask : (0x7 : W64) <<< 8 ||| (1 : W64) <<< 14 = (0x4700 : W16).setWidth 64 := by decide
  have hkeep : (0xc7ff : W16) &&& 0x4700 = 0x4700 := by decide
  have htos : ∀ t : Fin 8, (BitVec.ofNat 16 t.val &&& 7) <<< 11 &&& (0x4700 : W16) = 0 := by decide
  have hlow : ((conditionBits fpsw).setWidth 16).setWidth 64 = conditionBits fpsw := by
    have hle : (conditionBits fpsw).toNat ≤ 0x4700 := by
      rw [conditionBits, BitVec.toNat_and]
      exact Nat.and_le_right
    apply BitVec.eq_of_toNat_eq
    rw [BitVec.toNat_setWidth, BitVec.toNat_setWidth]
    omega
  have hagain : (conditionBits fpsw).setWidth 16 &&& 0x4700 = (conditionBits fpsw).setWidth 16 := by
    have hsmall : (0x4700 : W16) = ((0x7 : W64) <<< 8 ||| (1 : W64) <<< 14).setWidth 16 := by decide
    rw [hsmall, ← BitVec.setWidth_and, conditionBits, BitVec.and_assoc, BitVec.and_self]
  have hword : setStatusTos ((conditionBits fpsw).setWidth 16) (BitVec.ofNat 16 t.val) &&& 0x4700 =
      (conditionBits fpsw).setWidth 16 := by
    rw [setStatusTos, BitVec.and_or_distrib_right, BitVec.and_assoc, hkeep, htos, hagain]
    simp
  calc conditionBits ((setStatusTos ((conditionBits fpsw).setWidth 16) (BitVec.ofNat 16 t.val)).setWidth 64)
      = (setStatusTos ((conditionBits fpsw).setWidth 16) (BitVec.ofNat 16 t.val) &&& 0x4700).setWidth 64 := by
        rw [BitVec.setWidth_and, ← hmask, conditionBits]
    _ = conditionBits fpsw := by rw [hword, hlow]

end Status

/-! ### The way there and back -/

namespace FpContext

/-- The contexts programs have: the top of the stack is one of the eight, each register has
a bit of tags, and the upper half of `mxcsr` is clear. -/
structure SaveFormed (ctx : FpContext) : Prop where
  use64 : ctx.use64 = true
  fptos : ∃ t : Fin 8, ctx.commitarf Reg.fptos = BitVec.ofNat 64 (t.val * 8)
  fptags : TagBits (ctx.commitarf Reg.fptags)
  mxcsr : ctx.mxcsr.toNat < 2 ^ 16

/-- `ctx'` has the x87 and SSE state of `ctx`, up to the signaling of NaNs. -/
structure Restored (ctx ctx' : FpContext) : Prop where
  fptos : ctx'.commitarf Reg.fptos = ctx.commitarf Reg.fptos
  fptags : ctx'.commitarf Reg.fptags = ctx.commitarf Reg.fptags
  fpcw : ctx'.fpcw = ctx.fpcw
  mxcsr : ctx'.mxcsr = ctx.mxcsr
  xmml : ∀ i, ctx'.commitarf (Reg.xmml i) = ctx.commitarf (Reg.xmml i)
  xmmh : ∀ i, ctx'.commitarf (Reg.xmmh i) = ctx.commitarf (Reg.xmmh i)
  condition : conditionBits (ctx'.commitarf Reg.fpsw) = conditionBits (ctx.commitarf Reg.fpsw)
  fpstack : ∀ j, ctx'.fpstack j = quieted (ctx.fpstack j)

section Restore

variable {ctx : FpContext} {state : FXSAVEStruct}

theorem xmml_ne_xmmh (i j : Fin 16) : Reg.xmml i ≠ Reg.xmmh j := by
  rw [Reg.xmml, Reg.xmmh, Ne, Fin.ext_iff]
  dsimp only
  omega

theorem xmml_ne {i j : Fin 16} (h : j ≠ i) : Reg.xmml i ≠ Reg.xmml j := by
  rw [Ne, Fin.ext_iff] at h
  rw [Reg.xmml, Reg.xmml, Ne, Fin.ext_iff]
  dsimp only
  omega

theorem xmmh_ne {i j : Fin 16} (h : j ≠ i) : Reg.xmmh i ≠ Reg.xmmh j := by
  rw [Ne, Fin.ext_iff] at h
  rw [Reg.xmmh, Reg.xmmh, Ne, Fin.ext_iff]
  dsimp only
  omega

/-- Past the xmm registers, an image sets three others. -/
theorem fxrstor_commitarf {r : Reg} (hr : 48 ≤ r.val) :
    (ctx.fxrstor state).commitarf r =
      Function.update (Function.update (Function.update ctx.commitarf Reg.fptos
        ((statusTos state.sw).setWidth 64 * 8)) Reg.fpsw (state.sw.setWidth 64))
        Reg.fptags (tagsOf state.tw) r := by
  apply foldl_keep fun arf : Reg → W64 => arf r
  intro arf i _
  have hl : r ≠ Reg.xmml i := by
    rw [Reg.xmml, Ne, Fin.ext_iff]
    dsimp only
    omega
  have hh : r ≠ Reg.xmmh i := by
    rw [Reg.xmmh, Ne, Fin.ext_iff]
    dsimp only
    omega
  rw [Function.update_of_ne hh, Function.update_of_ne hl]

theorem fxrstor_xmm (h64 : ctx.use64 = true) (i : Fin 16) :
    (ctx.fxrstor state).commitarf (Reg.xmml i) = (state.xmmregs i).1 ∧
      (ctx.fxrstor state).commitarf (Reg.xmmh i) = (state.xmmregs i).2 := by
  have hall : i ∈ (List.finRange 16).take (xmmCount ctx.use64) := by
    rw [xmmCount, if_pos h64]
    exact List.mem_finRange i
  constructor
  · apply foldl_set (fun arf : Reg → W64 => arf (Reg.xmml i)) _ _ hall
    · intro arf
      rw [Function.update_of_ne (xmml_ne_xmmh i i), Function.update_self]
    · intro arf j hj
      rw [Function.update_of_ne (xmml_ne_xmmh i j), Function.update_of_ne (xmml_ne hj)]
  · apply foldl_set (fun arf : Reg → W64 => arf (Reg.xmmh i)) _ _ hall
    · intro arf
      rw [Function.update_self]
    · intro arf j hj
      rw [Function.update_of_ne (xmmh_ne hj), Function.update_of_ne (xmml_ne_xmmh j i).symm]

/-- The image holds the stack from its top. -/
theorem fxrstor_fpstack (i : Fin 8) :
    (ctx.fxrstor state).fpstack (stackSlot (statusTos state.sw).toNat i) =
      x87Fp80bitTo64bit (state.fpregs i) (controlRc ((state.cw.setWidth 64).setWidth 16)) := by
  have hloop : (ctx.fxrstor state).fpstack = (List.finRange 8).foldl (fun fpstack i =>
      Function.update fpstack (stackSlot (statusTos state.sw).toNat i)
        (x87Fp80bitTo64bit (state.fpregs i) (controlRc ((state.cw.setWidth 64).setWidth 16)))) ctx.fpstack := rfl
  rw [hloop]
  apply foldl_set (fun fpstack : Fin 8 → W64 => fpstack (stackSlot (statusTos state.sw).toNat i)) _ _
    (List.mem_finRange i)
  · intro fpstack
    rw [Function.update_self]
  · intro fpstack j hj
    have hne : stackSlot (statusTos state.sw).toNat i ≠ stackSlot (statusTos state.sw).toNat j := by
      rw [Ne, Fin.ext_iff] at hj ⊢
      rw [stackSlot, stackSlot, Fin.ofNat, Fin.ofNat]
      dsimp only
      omega
    rw [Function.update_of_ne hne]

theorem exists_stackSlot (t : ℕ) (j : Fin 8) : ∃ i, stackSlot t i = j := by
  refine ⟨Fin.ofNat 8 (j.val + (8 - t % 8)), ?_⟩
  rw [Fin.ext_iff, stackSlot, Fin.ofNat, Fin.ofNat]
  dsimp only
  omega

end Restore

/-- What the image of a context holds. -/
structure Saved (ctx : FpContext) (t : Fin 8) (image : FXSAVEStruct) : Prop where
  cw : image.cw = ctx.fpcw.setWidth 16
  sw : image.sw = setStatusTos ((conditionBits (ctx.commitarf Reg.fpsw)).setWidth 16) (BitVec.ofNat 16 t.val)
  tw : image.tw = tagWordOf (ctx.commitarf Reg.fptags)
  mxcsr : image.mxcsr &&& image.mxcsrMask = ctx.mxcsr
  fpregs : ∀ i, image.fpregs i = x87Fp64bitTo80bit (ctx.fpstack (stackSlot t.val i))
  xmmregs : ∀ i, image.xmmregs i = (ctx.commitarf (Reg.xmml i), ctx.commitarf (Reg.xmmh i))

theorem exists_fxsave {ctx : FpContext} (state : FXSAVEStruct) (hctx : ctx.SaveFormed) {t : Fin 8}
    (ht : ctx.commitarf Reg.fptos = BitVec.ofNat 64 (t.val * 8)) :
    ∃ image, ctx.fxsave state = some image ∧ ctx.Saved t image := by
  have htos : ∀ t : Fin 8, (BitVec.ofNat 64 (t.val * 8) >>> 3).setWidth 32 = BitVec.ofNat 32 t.val := by decide
  have hle : ∀ t : Fin 8, (BitVec.ofNat 32 t.val).toNat ≤ 7 := by decide
  have hnat : ∀ t : Fin 8, (BitVec.ofNat 32 t.val).toNat = t.val := by decide
  have hword : ∀ t : Fin 8, (BitVec.ofNat 32 t.val).setWidth 16 = BitVec.ofNat 16 t.val := by decide
  have hmode : ∀ i : Fin 16, i.val < xmmCount ctx.use64 := by
    rw [hctx.use64]
    exact fun i => i.isLt
  have hmask : ctx.mxcsr &&& 0x0000ffff = ctx.mxcsr := by
    have hlt := hctx.mxcsr
    have hones : (0x0000ffff : BitVec 32).toNat = 2 ^ 16 - 1 := rfl
    apply BitVec.eq_of_toNat_eq
    rw [BitVec.toNat_and, hones, Nat.and_two_pow_sub_one_eq_mod, Nat.mod_eq_of_lt hlt]
  unfold fxsave
  dsimp only
  rw [ht, htos, if_pos (hle t), hword, hnat]
  exact ⟨_, rfl, rfl, rfl, rfl, hmask, fun _ => rfl, fun i => if_pos (hmode i)⟩

/-- **Restoring a saved image** restores the state that was saved, the control word in its
sixteen bits. -/
theorem fxrstor_fxsave {ctx target : FpContext} (state : FXSAVEStruct) (hctx : ctx.SaveFormed)
    (hcw : ctx.fpcw.toNat < 2 ^ 16) (h64 : target.use64 = true) :
    ∃ image, ctx.fxsave state = some image ∧ ctx.Restored (target.fxrstor image) := by
  obtain ⟨t, ht⟩ := hctx.fptos
  obtain ⟨image, himage, hsaved⟩ := exists_fxsave state hctx ht
  have htop : statusTos image.sw = BitVec.ofNat 16 t.val := by
    rw [hsaved.sw, statusTos_setStatusTos]
  have hnat : (statusTos image.sw).toNat = t.val := by
    rw [htop, BitVec.toNat_ofNat]
    omega
  have harf := fun {r : Reg} => @fxrstor_commitarf target image r
  have hxmm := @fxrstor_xmm target image h64
  refine ⟨image, himage, ?_, ?_, ?_, ?_, ?_, ?_, ?_, ?_⟩
  · have hback : ∀ t : Fin 8, (BitVec.ofNat 16 t.val).setWidth 64 * 8 = BitVec.ofNat 64 (t.val * 8) := by decide
    rw [harf (by decide), Function.update_of_ne (by decide), Function.update_of_ne (by decide),
      Function.update_self, htop, hback, ht]
  · rw [harf (by decide), Function.update_self, hsaved.tw, tagsOf_tagWordOf hctx.fptags]
  · have hword : (target.fxrstor image).fpcw = image.cw.setWidth 64 := rfl
    apply BitVec.eq_of_toNat_eq
    rw [hword, hsaved.cw, BitVec.toNat_setWidth, BitVec.toNat_setWidth]
    omega
  · exact hsaved.mxcsr
  · intro i
    rw [(hxmm i).1, hsaved.xmmregs]
  · intro i
    rw [(hxmm i).2, hsaved.xmmregs]
  · rw [harf (by decide), Function.update_of_ne (by decide), Function.update_self, hsaved.sw,
      conditionBits_setStatusTos]
  · intro j
    obtain ⟨i, rfl⟩ := exists_stackSlot t.val j
    have hslot := @fxrstor_fpstack target image i
    rw [hnat] at hslot
    rw [hslot, hsaved.fpregs, roundTrip]

/-- A context with one register pushed. -/
def pushed (fpcw : W64) : FpContext where
  toContext := Context.ofArf fun r => if r = Reg.fptos then 56 else if r = Reg.fptags then (1 : W64) <<< 56 else 0
  fpcw
  mxcsr := 0x1f80
  fpstack _ := 0x7ff0000000000001

/-- An image of zeros. -/
def clearedImage : FXSAVEStruct where
  cw := 0
  sw := 0
  tw := 0
  fop := 0
  rip := 0
  rdp := 0
  mxcsr := 0
  mxcsrMask := 0
  fpregs _ := 0
  xmmregs _ := (0, 0)

theorem pushed_saveFormed (fpcw : W64) : (pushed fpcw).SaveFormed := by
  have htags : TagBits ((1 : W64) <<< 56) := by
    unfold TagBits
    decide
  have hmxcsr : (0x1f80 : BitVec 32).toNat < 2 ^ 16 := by decide
  exact ⟨rfl, ⟨7, rfl⟩, htags, hmxcsr⟩

theorem fxrstor_fxsave_pushed :
    (pushed 0x037f).SaveFormed ∧ ∃ image, (pushed 0x037f).fxsave clearedImage = some image ∧
      (pushed 0x037f).Restored ((pushed 0).fxrstor image) :=
  ⟨pushed_saveFormed _, fxrstor_fxsave _ (pushed_saveFormed _) (by decide) rfl⟩

/-- Bits of the control word past the sixteenth are lost. -/
theorem fxrstor_fxsave_wide :
    ¬ ∀ (ctx : FpContext) (state : FXSAVEStruct), ctx.SaveFormed →
      ∃ image, ctx.fxsave state = some image ∧ ctx.Restored (ctx.fxrstor image) := by
  intro h
  obtain ⟨image, -, hrestored⟩ := h (pushed 0x10000) clearedImage (pushed_saveFormed _)
  have hlt : ((pushed 0x10000).fxrstor image).fpcw.toNat < 2 ^ 16 := by
    have hword : ((pushed 0x10000).fxrstor image).fpcw = image.cw.setWidth 64 := rfl
    rw [hword, BitVec.toNat_setWidth]
    omega
  rw [hrestored.fpcw] at hlt
  exact absurd hlt (by decide)

end FpContext

end X86Sim
