import X86Sim.Decode.Values

/-!
# ALU instructions run

The uops of an ALU instruction, run in order, leave the x86 result in the destination
operand and the x86 status in the flags, and every other register as it was.
-/

namespace X86Sim

open X86Sim.Seq

/-! ### Operands -/

theorem Apr.arch_lt (p : Apr) : p.arch.val < 16 := by
  cases p with
  | hi r => exact lt_of_lt_of_le r.isLt (by decide)
  | q r => exact r.isLt
  | d r => exact r.isLt
  | w r => exact r.isLt
  | b r => exact r.isLt

theorem Apr.arch_ne (p : Apr) {r : Reg} (h : 16 ≤ r.val) : p.arch ≠ r := by
  rintro rfl
  exact absurd p.arch_lt (Nat.not_lt.2 h)

theorem Apr.sizeshift_le (p : Apr) : p.sizeshift ≤ 3 := by
  unfold Apr.sizeshift
  split <;> omega

/-- Only the registers renamed as flags stand for another. -/
theorem Seq.remap_of_lt {r : Reg} (h : r.val < 72) : remap r = r := by
  have hzf : r ≠ Reg.zf := by rintro rfl; exact absurd h (by decide)
  have hcf : r ≠ Reg.cf := by rintro rfl; exact absurd h (by decide)
  have hof : r ≠ Reg.of := by rintro rfl; exact absurd h (by decide)
  unfold remap
  rw [if_neg]
  rintro (h | h | h)
  · exact hzf h
  · exact hcf h
  · exact hof h

/-- Widening leaves nothing above the width. -/
theorem setWidth_and_allOnes {n : ℕ} (x : BitVec n) :
    x.setWidth 64 &&& (BitVec.allOnes n).setWidth 64 = x.setWidth 64 := by
  apply BitVec.eq_of_getLsbD_eq
  intro k hk
  simp only [BitVec.getLsbD_and, BitVec.getLsbD_setWidth, BitVec.getLsbD_allOnes]
  by_cases hn : k < n
  · simp [hn, hk]
  · simp [BitVec.getLsbD_of_ge x k (Nat.le_of_not_lt hn)]

/-- A low operand is written as the implementations merge their results. -/
theorem Apr.write_eq (p : Apr) (hlow : p.hibyte = false) (v : W64) (x : BitVec (opWidth p.sizeshift)) :
    p.write v x = x86Merge p.sizeshift v (x.setWidth 64) := by
  have hones : (BitVec.allOnes 8).setWidth 64 = (0xff : W64) ∧
      (BitVec.allOnes 16).setWidth 64 = (0xffff : W64) ∧
      (BitVec.allOnes 32).setWidth 64 = (0xffffffff : W64) ∧ (BitVec.allOnes 64).setWidth 64 = (-1 : W64) := by
    decide
  obtain ⟨h8, h16, h32, h64⟩ := hones
  have hx := setWidth_and_allOnes x
  cases p with
  | hi r => cases hlow
  | q r =>
    show (v &&& ~~~((BitVec.allOnes 64).setWidth 64)) ||| x.setWidth 64 = x.setWidth 64
    rw [h64]
    simp
  | d r =>
    show x.setWidth 64 = x.setWidth 64 &&& 0xffffffff
    rw [← h32]
    exact hx.symm
  | w r =>
    show (v &&& ~~~((BitVec.allOnes 16).setWidth 64)) ||| x.setWidth 64 =
      (v &&& ~~~0xffff) ||| (x.setWidth 64 &&& 0xffff)
    rw [← h16]
    exact congrArg _ hx.symm
  | b r =>
    show (v &&& ~~~((BitVec.allOnes 8).setWidth 64)) ||| x.setWidth 64 =
      (v &&& ~~~0xff) ||| (x.setWidth 64 &&& 0xff)
    rw [← h8]
    exact congrArg _ hx.symm

/-- A merge of the low bits gives the low bits. -/
theorem setWidth_merge (n : ℕ) (v x : W64) :
    ((v &&& ~~~((BitVec.allOnes n).setWidth 64)) ||| (x &&& (BitVec.allOnes n).setWidth 64)).setWidth n =
      x.setWidth n := by
  apply BitVec.eq_of_getLsbD_eq
  intro k hk
  simp only [BitVec.getLsbD_setWidth, BitVec.getLsbD_or, BitVec.getLsbD_and, BitVec.getLsbD_not,
    BitVec.getLsbD_allOnes, hk, decide_true, Bool.true_and]
  by_cases h64 : k < 64
  · simp [h64]
  · simp [h64, BitVec.getLsbD_of_ge x k (Nat.le_of_not_lt h64)]

theorem x86Merge_setWidth {size : ℕ} (hsize : size ≤ 3) (v x : W64) :
    (x86Merge size v x).setWidth (opWidth size) = x.setWidth (opWidth size) := by
  interval_cases size
  · exact setWidth_merge 8 v x
  · exact setWidth_merge 16 v x
  · have h := setWidth_merge 32 0#64 x
    have hones : (BitVec.allOnes 32).setWidth 64 = (0xffffffff : W64) := by decide
    rw [BitVec.zero_and, BitVec.zero_or, hones] at h
    exact h
  · rfl

/-- A merge of 8 or 16 bits, bit by bit. -/
theorem x86Merge_bit {size : ℕ} (hsize : size ≤ 1) (old v : W64) (i : ℕ) :
    (x86Merge size old v).getLsbD i = if i < opWidth size then v.getLsbD i else old.getLsbD i := by
  have hmask : ∀ n ≤ 64, ((old &&& ~~~((BitVec.allOnes n).setWidth 64)) |||
      (v &&& (BitVec.allOnes n).setWidth 64)).getLsbD i = if i < n then v.getLsbD i else old.getLsbD i := by
    intro n hn
    simp only [BitVec.getLsbD_or, BitVec.getLsbD_and, BitVec.getLsbD_not, BitVec.getLsbD_setWidth,
      BitVec.getLsbD_allOnes]
    by_cases h64 : i < 64
    · by_cases hi : i < n <;> simp [h64, hi]
    · simp [h64, BitVec.getLsbD_of_ge _ _ (Nat.not_lt.1 h64)]
  interval_cases size
  · exact hmask 8 (by decide)
  · exact hmask 16 (by decide)
/-! ### The operations -/

/-- What a uop of the ALU computes: a result and a status, from two operands and a carry. -/
abbrev AluFun := ∀ w, BitVec w → BitVec w → Bool → BitVec w × Status

/-- The implementation of `o` computes `F`. -/
def Implements (o : Opcode) (F : AluFun) : Prop :=
  ∀ op : TransOp, op.opcode = o → op.size ≤ 3 → ∃ f, uopImpl op = some f ∧ ∀ i,
    let res := F (opWidth op.size) (i.ra.setWidth _) (i.rb.setWidth _) (i.rcflags.getLsbD 0)
    (f i).rddata = x86Merge op.size i.ra (res.1.setWidth 64) ∧ (f i).rdflags &&& FLAG_INV = 0 ∧
      (op.setflags ≠ .none → (f i).rdflags = res.2.word)

/-- The flags generated and not generated. -/
theorem aluResult_gen {w : ℕ} (size : ℕ) (ra : W64) (s flagset : SetFlags) (out : AluOut w)
    (hzf : flagset.zf = true) (hg : flagset.cf = true ∧ flagset.of = true ∨ out.cf = false ∧ out.of = false) :
    (aluResult size ra (s.gen flagset) out).rdflags &&& FLAG_INV = 0 ∧
      (s ≠ .none → (aluResult size ra (s.gen flagset) out).rdflags =
        (statusOf out.result out.cf out.of).word) := by
  unfold SetFlags.gen
  split
  · rename_i hs
    refine ⟨?_, fun hne => absurd hs hne⟩
    simp [aluResult, SetFlags.none]
  · rw [aluResult_flags size ra flagset out hzf hg]
    exact ⟨Status.word_inv _, fun _ => rfl⟩

theorem implements_aluop2 (subtract : Bool) : Implements (if subtract then .opSub else .opAdd)
    fun _ a b c => if subtract then x86Sub a b c else x86Add a b c := by
  intro op hop hsize
  refine ⟨x86Aluop subtract op, ?_, fun i => ?_⟩
  · unfold uopImpl
    rw [hop]
    cases subtract <;> rfl
  · have hflags := aluResult_gen op.size i.ra op.setflags .all
      (aluop2 (w := opWidth op.size) subtract (i.ra.setWidth _) (i.rb.setWidth _) i.rcflags) rfl (.inl ⟨rfl, rfl⟩)
    have heq := aluop2_eq (opWidth_pos op.size) subtract (i.ra.setWidth _) (i.rb.setWidth _) i.rcflags
    have hres : x86Aluop subtract op i = aluResult op.size i.ra (op.setflags.gen .all)
        (aluop2 (w := opWidth op.size) subtract (i.ra.setWidth _) (i.rb.setWidth _) i.rcflags) := rfl
    rw [heq] at hflags hres
    rw [hres]
    refine ⟨rfl, hflags.1, fun hne => ?_⟩
    rw [hflags.2 hne]
    cases subtract <;> rfl

theorem implements_logic {o : Opcode} {g : ∀ w, BitVec w → BitVec w → BitVec w}
    (h : ∀ op : TransOp, op.opcode = o → uopImpl op = some (expAluop g op)) :
    Implements o fun w a b _ => x86Logic (g w a b) := by
  intro op hop hsize
  refine ⟨expAluop g op, h op hop, fun i => ⟨rfl, ?_⟩⟩
  exact aluResult_gen op.size i.ra op.setflags .zaps _ rfl (.inr ⟨rfl, rfl⟩)

theorem implements_and : Implements .opAnd fun _ a b _ => x86Logic (a &&& b) :=
  implements_logic (g := fun _ a b => a &&& b) fun op h => by unfold uopImpl; rw [h]

theorem implements_or : Implements .opOr fun _ a b _ => x86Logic (a ||| b) :=
  implements_logic (g := fun _ a b => a ||| b) fun op h => by unfold uopImpl; rw [h]

theorem implements_xor : Implements .opXor fun _ a b _ => x86Logic (a ^^^ b) :=
  implements_logic (g := fun _ a b => a ^^^ b) fun op h => by unfold uopImpl; rw [h]

theorem implements_nor : Implements .opNor fun _ a b _ => x86Logic (~~~(a ||| b)) :=
  implements_logic (g := fun _ a b => ~~~(a ||| b)) fun op h => by unfold uopImpl; rw [h]

/-! ### One uop -/

section Step

variable (rest : Synthop) (junk : Sfr) {c : SeqCore} {o : Opcode} {F : AluFun}

/-- A uop has written `v` to `rd` and `flags`, where `mask` says, to the flags. -/
structure Wrote (c c' : SeqCore) (rd : Reg) (v : W64) (mask flags : W16) : Prop where
  value : c'.arf rd = v
  regs : ∀ r, r ≠ rd → r ≠ Reg.flags → c'.arf r = c.arf r
  status : ∀ i, (c'.arf Reg.flags).getLsbD i =
    if mask.getLsbD i then flags.getLsbD i else (c.arf Reg.flags).getLsbD i
  inv : c'.arflags rd &&& FLAG_INV = 0
  ready : c'.Ready
  space : c'.space = c.space
  ctx : c'.ctx = c.ctx

/-- A register a uop may write: not one that holds zero, and not the flags. -/
structure Writable (r : Reg) : Prop where
  zero : r ≠ Reg.zero
  trace : r ≠ Reg.trace
  flags : r ≠ Reg.flags

theorem Apr.writable (p : Apr) : Writable p.arch :=
  ⟨p.arch_ne (by decide), p.arch_ne (by decide), p.arch_ne (by decide)⟩

theorem wrote_writeResult (h : c.Ready) (op : TransOp) (hrd : Writable op.rd)
    (hno : op.nouserflags = false) {reg : UopResult} (hinv : reg.rdflags &&& FLAG_INV = 0) :
    Wrote c (c.writeResult op reg) op.rd reg.rddata (setflagsToX86Flags op.setflags) reg.rdflags where
  value := SeqCore.writeResult_arf_rd hrd.flags
  regs r hr hf := SeqCore.writeResult_arf hr hf
  status i := by rw [SeqCore.writeResult_flags hrd.flags hno, update_bit]
  inv := by rw [SeqCore.writeResult_arflags_rd hrd.flags, hinv]
  ready := h.writeResult hrd.flags hrd.zero hrd.trace hno
  space := SeqCore.writeResult_space c op reg
  ctx := SeqCore.writeResult_ctx

/-- A uop whose result merges `x` into its first operand runs. -/
theorem run_merge {op : TransOp} (hmem : SeqCore.isMem op = false) (hsse : op.isSse = false) (hx87 : op.isX87 = false)
    (hno : op.nouserflags = false) (h : c.Ready) (hrd : Writable op.rd) {x : W64} {flags : W16}
    (hexec : rest.withImpl op (c.inputs op) = ⟨x86Merge op.size (c.radata op) x, flags⟩)
    (hinv : flags &&& FLAG_INV = 0) : ∃ c', c.runUop rest.withImpl junk op = some c' ∧
      Wrote c c' op.rd (x86Merge op.size (c.radata op) x) (setflagsToX86Flags op.setflags) flags :=
  ⟨_, SeqCore.runUop_result junk hexec hmem hsse hx87 hrd.zero hinv, wrote_writeResult h op hrd hno hinv⟩

/-- An operation of the ALU runs. -/
theorem run_implements (hF : Implements o F) (hmem : (isload o || isstore o) = false) (h : c.Ready) {rd : Reg}
    (hrd : Writable rd) (ra rb rc : Reg) {size : ℕ} (hsize : size ≤ 3) (imm : W64) (s : SetFlags) :
    let op := TransOp.init o rd ra rb rc size imm 0 s
    let res := F (opWidth size) ((c.radata op).setWidth _) ((c.rbdata op).setWidth _)
      ((c.arflags (remap rc)).getLsbD 0)
    ∃ c' flags, c.runUop rest.withImpl junk op = some c' ∧
      Wrote c c' rd (x86Merge size (c.radata op) (res.1.setWidth 64)) (setflagsToX86Flags s) flags ∧
      (s ≠ .none → flags = res.2.word) := by
  intro op res
  obtain ⟨f, himpl, hf⟩ := hF op rfl hsize
  obtain ⟨hdata, hinv, hflags⟩ := hf (c.inputs op)
  refine ⟨_, _, SeqCore.runUop_impl rest junk himpl hmem rfl rfl hrd.zero hinv, ?_, hflags⟩
  have hwrote := wrote_writeResult h op hrd rfl hinv
  rw [hdata] at hwrote
  exact hwrote

theorem and_inv {x : W16} (h : x.getLsbD 1 = false) : x &&& FLAG_INV = 0 := by
  have hinv : FLAG_INV = BitVec.twoPow 16 1 := by decide
  rw [hinv, BitVec.and_twoPow, h]
  rfl

theorem ite_bit (P : Prop) [Decidable P] {f : W16} (hf : f.getLsbD 1 = false) :
    (if P then f else 0).getLsbD 1 = false := by
  split
  · exact hf
  · rfl

theorem x86Genflags_bit {w : ℕ} (r : BitVec w) : (x86Genflags r).getLsbD 1 = false := by
  unfold x86Genflags
  rw [BitVec.getLsbD_or, BitVec.getLsbD_or, ite_bit _ (by decide), ite_bit _ (by decide),
    ite_bit _ (by decide)]
  rfl

/-- A mask uop reports no exception. -/
theorem expMask_inv (op : TransOp) (i : UopInputs) : (expMask op i).rdflags &&& FLAG_INV = 0 := by
  have hcf : FLAG_CF.getLsbD 1 = false := by decide
  refine and_inv ?_
  unfold expMask
  dsimp only
  rw [BitVec.getLsbD_or, BitVec.getLsbD_or, BitVec.getLsbD_and, x86Genflags_bit, hcf,
    ite_bit _ (by decide), Bool.and_false]
  rfl

/-- A mask uop runs and sets no flags. -/
theorem run_mask (h : c.Ready) {rd ra rb : Reg} {ctl : W64} (hrd : Writable rd) :
    let op := TransOp.init .opMaskb rd ra rb Reg.imm 3 0 ctl .none
    ∃ c' flags, c.runUop rest.withImpl junk op = some c' ∧
      Wrote c c' rd (expMask op (c.inputs op)).rddata 0 flags := by
  intro op
  have hmem : SeqCore.isMem op = false := by
    have h : (isload .opMaskb || isstore .opMaskb) = false := by decide
    exact h
  have himpl : uopImpl op = some (expMask op) := rfl
  have hrun := SeqCore.runUop_impl rest junk himpl hmem rfl rfl hrd.zero (expMask_inv op (c.inputs op))
  have hwrote := wrote_writeResult h op hrd rfl (expMask_inv op (c.inputs op))
  have hmask : setflagsToX86Flags op.setflags = 0 := by
    have h : setflagsToX86Flags .none = 0 := by decide
    exact h
  rw [hmask] at hwrote
  exact ⟨_, _, hrun, hwrote⟩

/-- The extraction of a high byte runs. -/
theorem run_extract (h : c.Ready) (p : Apr) {rd : Reg} (hrd : Writable rd) :
    ∃ c' flags v, c.runUop rest.withImpl junk (.extractHigh rd p.arch) = some c' ∧
      Wrote c c' rd v 0 flags ∧ v.setWidth 8 = ((c.arf p.arch) >>> 8).setWidth 8 := by
  obtain ⟨c', flags, hrun, hwrote⟩ := run_mask rest junk h hrd
  refine ⟨c', flags, _, hrun, hwrote, ?_⟩
  have hne : p.arch ≠ Reg.imm := p.arch_ne (by decide)
  have hrb : (c.inputs (.extractHigh rd p.arch)).rb = c.arf p.arch := by
    show (if p.arch = Reg.imm then _ else c.arf (remap p.arch)) = _
    rw [if_neg hne, remap_of_lt (lt_trans p.arch_lt (by decide))]
  have hones : (BitVec.allOnes 8).setWidth 64 = (0xff : W64) := by decide
  have hdata := expMask_extract rd p.arch (c.inputs (.extractHigh rd p.arch)) rfl
  rw [hrb, ← hones] at hdata
  exact (congrArg (BitVec.setWidth 8) hdata).trans (setWidth_merge 8 _ _)

/-- The insertion of a high byte runs. -/
theorem run_insert (h : c.Ready) (p : Apr) {r : Reg} (hr : r.val < 72) :
    ∃ c' flags, c.runUop rest.withImpl junk (.insertHigh p.arch r) = some c' ∧
      Wrote c c' p.arch ((c.arf p.arch &&& ~~~(0xff00 : W64)) |||
        (((c.arf r).setWidth 8).setWidth 64 <<< 8)) 0 flags := by
  obtain ⟨c', flags, hrun, hwrote⟩ := run_mask rest junk h p.writable
  refine ⟨c', flags, hrun, ?_⟩
  have hra : (c.inputs (.insertHigh p.arch r)).ra = c.arf p.arch := by
    show c.arf (remap p.arch) = _
    rw [remap_of_lt (lt_trans p.arch_lt (by decide))]
  have hrb : (c.inputs (.insertHigh p.arch r)).rb = c.arf r := by
    have hne : r ≠ Reg.imm := by rintro rfl; exact absurd hr (by decide)
    show (if r = Reg.imm then _ else c.arf (remap r)) = _
    rw [if_neg hne, remap_of_lt hr]
  have hdata := expMask_insert p.arch r (c.inputs (.insertHigh p.arch r)) rfl
  rw [hra, hrb] at hdata
  rw [← hdata]
  exact hwrote

end Step

end X86Sim
