import X86Sim.Decode.AddressRun
import Mathlib.Tactic.FinCases

/-!
# When addresses are right

A load or a store is right for all registers exactly when no rule is broken that the
translation leaves out: the address size prefix, the segments without a base, and both
for addresses relative to `rip`. `lea` breaks only the last.
-/

namespace X86Sim

open X86Sim.Seq

/-! ### Arithmetic -/

theorem sext48_bit (x : W64) {k : ℕ} (hk : k < 64) :
    ((x.setWidth 48).signExtend 64).getLsbD k = if k < 48 then x.getLsbD k else x.getLsbD 47 := by
  rw [BitVec.getLsbD_signExtend, BitVec.msb_setWidth, BitVec.getLsbD_setWidth]
  by_cases h48 : k < 48
  · rw [if_pos h48, if_pos h48, decide_eq_true hk, decide_eq_true h48, Bool.true_and, Bool.true_and]
  · rw [if_neg h48, if_neg h48, decide_eq_true hk, Bool.true_and]
    rfl

theorem trunc32_bit (x : W64) {k : ℕ} (hk : k < 64) :
    ((x.setWidth 32).setWidth 64).getLsbD k = (decide (k < 32) && x.getLsbD k) := by
  rw [BitVec.getLsbD_setWidth, BitVec.getLsbD_setWidth, decide_eq_true hk, Bool.true_and]

/-- `signext64` of 48 bits. -/
theorem signext64_48 (x : W64) : signext64 x 48 = (x.setWidth 48).signExtend 64 := by
  apply BitVec.eq_of_getLsbD_eq
  intro k hk
  rw [sext48_bit x hk]
  unfold signext64
  rw [BitVec.getLsbD_sshiftRight, BitVec.msb_eq_getLsbD_last, BitVec.getLsbD_shiftLeft, BitVec.getLsbD_shiftLeft]
  have hk64 : ¬64 ≤ k := by omega
  by_cases h48 : k < 48
  · have h16 : 16 + k < 64 := by omega
    simp [h48, h16, hk64]
  · -- every bit from 47 on is bit 47
    have h16 : ¬16 + k < 64 := by omega
    simp [h48, h16, hk64]

theorem trunc32_eq (x : W64) : (x.setWidth 32).setWidth 64 = x ↔ x.toNat < 2 ^ 32 := by
  have hx := x.isLt
  constructor
  · intro h
    have hnat := congrArg BitVec.toNat h
    simp only [BitVec.toNat_setWidth] at hnat
    omega
  · intro h
    apply BitVec.eq_of_toNat_eq
    simp only [BitVec.toNat_setWidth]
    omega

/-- What `ripRight` says of the sign extended sum. -/
theorem ripRight_iff (narrow : Bool) (target : W64) : ripRight narrow target = true ↔
    signext64 target 48 = if narrow then (target.setWidth 32).setWidth 64 else target := by
  unfold ripRight
  rw [signext64_48]
  cases narrow with
  | false => simp [canonical]
  | true =>
    simp only [if_true, decide_eq_true_eq]
    constructor
    · intro h
      have hzero : ∀ k, 32 ≤ k → k < 48 → target.getLsbD k = false := by
        intro k hge hlt
        have hbit := congrArg (fun x => x.getLsbD (k - 32)) h
        have h16 : k - 32 < 16 := by omega
        rw [BitVec.getLsbD_extractLsb', decide_eq_true h16, Bool.true_and, Nat.add_sub_cancel' hge] at hbit
        exact hbit.trans BitVec.getLsbD_zero
      apply BitVec.eq_of_getLsbD_eq
      intro k hk
      rw [sext48_bit target hk, trunc32_bit target hk, hzero 47 (by decide) (by decide)]
      by_cases h32 : k < 32
      · rw [if_pos (by omega), decide_eq_true h32, Bool.true_and]
      · rw [decide_eq_false h32, Bool.false_and]
        split
        · exact hzero k (by omega) (by assumption)
        · rfl
    · intro h
      apply BitVec.eq_of_getLsbD_eq
      intro i hi
      have hbit := congrArg (fun x => x.getLsbD (32 + i)) h
      have h32 : ¬32 + i < 32 := by omega
      rw [sext48_bit target (by omega), trunc32_bit target (by omega), if_pos (by omega), decide_eq_false h32,
        Bool.false_and] at hbit
      rw [BitVec.getLsbD_extractLsb', decide_eq_true hi, Bool.true_and, hbit]
      exact BitVec.getLsbD_zero.symm

/-! ### Loads and stores -/

/-- A core with the same value in all the general registers, and one base for all segments. -/
def uniform (value base : W64) : SeqCore where
  arf r := if r.val < 16 then value else if r = Reg.ctx then 4096 else 0
  arflags _ := 0
  ctx := { Context.ofArf fun _ => 0 with hostBytes := fun a => ByteMask.byteAt base (a % 8) }
  space := .init true
  bbcache := .init
  bytesInCurrentInsn := 0
  totalUserInsnsCommitted := 0

theorem uniform_ready (value base : W64) : (uniform value base).Ready := by
  refine ⟨?_, ?_, rfl, ?_⟩
  · rfl
  · rfl
  · rfl

theorem uniform_hostCtx (value base : W64) : HostCtx (uniform value base) := by
  have hctx : (uniform value base).arf Reg.ctx = 4096 := rfl
  refine ⟨?_, ?_, rfl⟩
  · rw [hctx]
    decide
  · rw [hctx]
    decide

theorem uniform_segmentBase (value base : W64) (segment : ℕ) :
    segmentBase (uniform value base) segment = base := by
  have hctx : (uniform value base).arf Reg.ctx = 4096 := rfl
  refine ByteMask.eq_of_byteAt fun i hi => ?_
  unfold segmentBase
  rw [ByteMask.byteAt_ofBytes _ hi, hctx]
  show ByteMask.byteAt base ((4096 + 512 + segment * 8 + i) % 8) = ByteMask.byteAt base i
  congr 1
  omega

theorem uniform_arf (value base : W64) (r : Fin 16) : (uniform value base).arf (r.castLE (by decide)) = value := by
  show (if (r.castLE _ : Reg).val < 16 then value else _) = value
  exact if_pos r.isLt

/-- The displacement alone, in a core of zeros. -/
theorem uniform_zero_sum (o : X86Operand) (h : o.base ≠ .rip) (base rip : W64) :
    o.sum (uniform 0 base).arf rip = o.disp := by
  have hb : o.baseValue (uniform 0 base).arf rip = 0 := by
    unfold X86Operand.baseValue
    cases hb : o.base with
    | none => rfl
    | rip => exact absurd hb h
    | reg r => exact uniform_arf 0 base r
  have hi : o.indexValue (uniform 0 base).arf = 0 := by
    unfold X86Operand.indexValue
    cases o.index with
    | none => rfl
    | some r => exact uniform_arf 0 base r
  unfold X86Operand.sum
  rw [hb, hi]
  simp

/-- A register of 2 ^ 40 takes the sum beyond 32 bits. -/
theorem uniform_large_sum (o : X86Operand) (h : o.base ≠ .rip) (hdisp : o.disp.toNat < 2 ^ 32)
    (hreg : ¬(o.base = .none ∧ o.index = none)) (base rip : W64) :
    2 ^ 32 ≤ (o.sum (uniform (2 ^ 40) base).arf rip).toNat := by
  have hb : (o.baseValue (uniform (2 ^ 40) base).arf rip) = if o.base = .none then 0 else 2 ^ 40 := by
    unfold X86Operand.baseValue
    cases hb : o.base with
    | none => rfl
    | rip => exact absurd hb h
    | reg r => exact uniform_arf (2 ^ 40) base r
  have hi : (o.indexValue (uniform (2 ^ 40) base).arf) = if o.index = none then 0 else 2 ^ 40 := by
    unfold X86Operand.indexValue
    cases o.index with
    | none => rfl
    | some r => exact uniform_arf (2 ^ 40) base r
  have hsum : 2 ^ 40 ≤ (o.baseValue (uniform (2 ^ 40) base).arf rip +
        o.indexValue (uniform (2 ^ 40) base).arf <<< o.scale.val).toNat ∧
      (o.baseValue (uniform (2 ^ 40) base).arf rip +
        o.indexValue (uniform (2 ^ 40) base).arf <<< o.scale.val).toNat ≤ 2 ^ 44 := by
    have hscale : ∀ s : Fin 4, ∀ b i : Bool, ¬(b = true ∧ i = true) →
        2 ^ 40 ≤ ((if b then 0 else 2 ^ 40) + (if i then (0 : W64) else 2 ^ 40) <<< s.val).toNat ∧
          ((if b then 0 else 2 ^ 40) + (if i then (0 : W64) else 2 ^ 40) <<< s.val).toNat ≤ 2 ^ 44 := by
      decide
    have hcase := hscale o.scale (decide (o.base = .none)) (decide (o.index = none)) (by simpa using hreg)
    rw [hb, hi]
    simpa using hcase
  unfold X86Operand.sum
  rw [BitVec.toNat_add]
  omega

/-- The base x86 adds. -/
theorem biasValue_eq (pfx : Prefixes) (h : pfx.override = true → pfx.fs = true ∨ pfx.gs = true) (c : SeqCore) :
    biasValue pfx c = if pfx.fs then segmentBase c 4 else if pfx.gs then segmentBase c 5 else 0 := by
  unfold biasValue
  cases hov : pfx.override with
  | false =>
    have hnone : pfx.fs = false ∧ pfx.gs = false := by
      unfold Prefixes.override at hov
      simp only [Bool.or_eq_false_iff] at hov
      exact ⟨hov.1.1.2, hov.1.2⟩
    simp [hnone]
  | true =>
    unfold Prefixes.segment
    rcases Bool.eq_false_or_eq_true pfx.fs with hfs | hfs
    · simp [hfs]
    · have hgs : pfx.gs = true := by
        rcases h hov with hfs' | hgs
        · rw [hfs] at hfs'
          cases hfs'
        · exact hgs
      simp [hfs, hgs]

theorem shift_add_ne (a b : W64) : a ≠ (a - b + 1) + b := by
  bv_omega

/-- **When loads and stores are right**: of an operand relative to `rip`, no `fs` or `gs`
and a sum that its sign extension keeps; of any other, no address size prefix unless the
operand is a nonnegative displacement, and no segment but `fs` and `gs`. -/
theorem address_iff (pfx : Prefixes) (rip : W64) (o : X86Operand) (hwf : o.base = .rip → o.index = none) :
    (∀ c : SeqCore, c.Ready → HostCtx c → accessValue pfx c rip o = o.address pfx c rip) ↔
      memRight pfx rip o = true := by
  have huniform : ∀ value base : W64, (∀ c : SeqCore, c.Ready → HostCtx c →
      accessValue pfx c rip o = o.address pfx c rip) →
      accessValue pfx (uniform value base) rip o = o.address pfx (uniform value base) rip := fun value base h =>
    h _ (uniform_ready value base) (uniform_hostCtx value base)
  unfold accessValue X86Operand.address at *
  unfold memRight
  by_cases hrip : o.base = .rip
  · simp only [if_pos hrip, Bool.and_eq_true, Bool.not_eq_true'] at huniform ⊢
    have hoff : ∀ arf, o.offset pfx arf rip =
        if pfx.addr then ((rip + o.disp).setWidth 32).setWidth 64 else rip + o.disp := by
      intro arf
      have hsum : o.sum arf rip = rip + o.disp := by
        unfold X86Operand.sum X86Operand.baseValue X86Operand.indexValue
        rw [hrip, hwf hrip]
        simp
      unfold X86Operand.offset
      rw [hsum]
    simp only [hoff, uniform_segmentBase] at huniform ⊢
    rw [ripRight_iff]
    constructor
    · intro h
      have hseg : pfx.fs = false ∧ pfx.gs = false := by
        -- a base one off the difference shows that it is missing
        have hbase := huniform 0 (signext64 (rip + o.disp) 48 -
          (if pfx.addr then ((rip + o.disp).setWidth 32).setWidth 64 else rip + o.disp) + 1) h
        rcases Bool.eq_false_or_eq_true pfx.fs with hfs | hfs
        · rw [hfs, if_pos rfl] at hbase
          exact absurd hbase (shift_add_ne _ _)
        · rcases Bool.eq_false_or_eq_true pfx.gs with hgs | hgs
          · rw [hfs, hgs, if_neg (by decide), if_pos rfl] at hbase
            exact absurd hbase (shift_add_ne _ _)
          · exact ⟨hfs, hgs⟩
      have hzero := huniform 0 0 h
      rw [hseg.1, hseg.2, if_neg (by decide), if_neg (by decide)] at hzero
      exact ⟨hseg, hzero.trans (BitVec.zero_add _)⟩
    · rintro ⟨⟨hfs, hgs⟩, hsign⟩ c hready hctx
      rw [hfs, hgs, if_neg (by decide), if_neg (by decide), hsign]
      exact (BitVec.zero_add _).symm
  · simp only [if_neg hrip] at huniform ⊢
    simp only [Bool.and_eq_true, Bool.or_eq_true, Bool.not_eq_true', decide_eq_true_eq, Option.isNone_iff_eq_none,
      or_assoc]
    constructor
    · intro h
      have hzsum := uniform_zero_sum o hrip
      have hseg : pfx.override = true → pfx.fs = true ∨ pfx.gs = true := by
        intro hov
        by_contra hnone
        rw [not_or, Bool.not_eq_true, Bool.not_eq_true] at hnone
        -- again a base one off the difference
        have hbase := huniform 0 ((if pfx.addr then (o.disp.setWidth 32).setWidth 64 else o.disp) - o.disp + 1) h
        unfold biasValue X86Operand.offset at hbase
        rw [if_pos hov, uniform_segmentBase, hzsum] at hbase
        simp only [hnone.1, hnone.2, Bool.false_eq_true, if_false] at hbase
        exact shift_add_ne _ _ (hbase.trans (BitVec.zero_add _)).symm
      have hsum : ∀ value, o.sum (uniform value 0).arf rip = o.offset pfx (uniform value 0).arf rip := by
        intro value
        have hval := huniform value 0 h
        rw [biasValue_eq pfx hseg, uniform_segmentBase, uniform_segmentBase] at hval
        simp only [ite_self] at hval
        exact (BitVec.zero_add _).symm.trans (hval.trans (BitVec.zero_add _))
      refine ⟨?_, ?_⟩
      · cases haddr : pfx.addr with
        | false => exact .inl rfl
        | true =>
          have hnarrow : ∀ value, (o.sum (uniform value 0).arf rip).toNat < 2 ^ 32 := by
            intro value
            have hval := hsum value
            unfold X86Operand.offset at hval
            rw [haddr, if_pos rfl] at hval
            exact (trunc32_eq _).1 hval.symm
          have hdisp : o.disp.toNat < 2 ^ 32 := by
            have hval := hnarrow 0
            rw [hzsum] at hval
            exact hval
          refine .inr ⟨?_, hdisp⟩
          by_contra hreg
          exact absurd (hnarrow (2 ^ 40)) (Nat.not_lt.2 (uniform_large_sum o hrip hdisp hreg 0 rip))
      · cases hov : pfx.override with
        | false => exact .inl rfl
        | true => exact .inr (hseg hov)
    · rintro ⟨haddr, hseg⟩ c hready hctx
      have hbias := biasValue_eq pfx (fun hov => by
        rcases hseg with hno | hseg
        · rw [hov] at hno
          cases hno
        · exact hseg) c
      have hoff : o.offset pfx c.arf rip = o.sum c.arf rip := by
        unfold X86Operand.offset
        rcases haddr with haddr | ⟨⟨hb, hi⟩, hdisp⟩
        · exact if_neg (by rw [haddr]; decide)
        · have hsum : o.sum c.arf rip = o.disp := by
            unfold X86Operand.sum X86Operand.baseValue X86Operand.indexValue
            rw [hb, hi]
            simp
          rw [hsum, (trunc32_eq _).2 hdisp, ite_self]
      rw [hbias, hoff]

end X86Sim
