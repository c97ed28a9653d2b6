import X86Sim.Decode.AluRun
import X86Sim.Decode.Conditions

/-!
# Branches, selects and sets (`uopimpl.cpp`)

The uops that test a condition code. Their two flag operands are registers of the three
groups of flags, which different uops may have written: each formula takes a flag from the
group it belongs to.
-/

namespace X86Sim

namespace Cond

/-- The number of a condition. -/
def code : Cond → ℕ
  | o => 0 | no => 1 | c => 2 | nc => 3 | e => 4 | ne => 5 | be => 6 | nbe => 7
  | s => 8 | ns => 9 | p => 10 | np => 11 | l => 12 | nl => 13 | le => 14 | nle => 15

/-- The condition of a number. -/
def ofCode : ℕ → Cond
  | 0 => o | 1 => no | 2 => c | 3 => nc | 4 => e | 5 => ne | 6 => be | 7 => nbe
  | 8 => s | 9 => ns | 10 => p | 11 => np | 12 => l | 13 => nl | 14 => le | _ => nle

theorem ofCode_code (cond : Cond) : ofCode cond.code = cond := by
  cases cond <;> rfl

/-- `cond_code_to_flag_regs`: `ra` and `rb`. -/
def flagRegs : Cond → Reg × Reg
  | o | no => (Reg.of, Reg.of)
  | c | nc => (Reg.cf, Reg.cf)
  | e | ne | s | ns | p | np => (Reg.zf, Reg.zf)
  | be | nbe => (Reg.zf, Reg.cf)
  | l | nl | le | nle => (Reg.zf, Reg.of)

/-- What x86 says of the flags, by their positions. -/
def holds (flag : ℕ → Bool) : Cond → Bool
  | o => flag 11
  | no => !flag 11
  | c => flag 0
  | nc => !flag 0
  | e => flag 6
  | ne => !flag 6
  | be => flag 0 || flag 6
  | nbe => !(flag 0 || flag 6)
  | s => flag 7
  | ns => !flag 7
  | p => flag 2
  | np => !flag 2
  | l => flag 7 != flag 11
  | nl => flag 7 == flag 11
  | le => flag 6 || flag 7 != flag 11
  | nle => !flag 6 && flag 7 == flag 11

end Cond

/-! ### The implementations -/

/-- `uop_impl_condbranch`, which does not except. -/
def condbranch (cond : Cond) (i : UopInputs) : UopResult :=
  let taken := evaluateCond cond i.raflags i.rbflags
  ⟨if taken then i.riptaken else i.ripseq, if taken then FLAG_BR_TK else 0⟩

/-- `uop_impl_jmp`. -/
def jmp (i : UopInputs) : UopResult := ⟨i.ra, if i.riptaken = i.ra then FLAG_BR_TK else 0⟩

/-- `uop_impl_bru`. -/
def bru (i : UopInputs) : UopResult := ⟨i.riptaken, FLAG_BR_TK⟩

/-- `uop_impl_sel`. -/
def sel (cond : Cond) (size : ℕ) (i : UopInputs) : UopResult :=
  let istrue := evaluateCond cond i.rcflags i.rcflags
  ⟨x86Merge size i.ra (if istrue then i.rb else i.ra), if istrue then i.rbflags else i.raflags⟩

/-- `uop_impl_set`. -/
def set (cond : Cond) (size : ℕ) (i : UopInputs) : UopResult :=
  let istrue := evaluateCond cond i.raflags i.rbflags
  ⟨x86Merge size i.rc (if istrue then 1 else 0), if istrue then FLAG_CF else 0⟩

/-- The implementations, with those of the branches, the selects and the sets. -/
def Synthop.withBranches (rest : Synthop) : Synthop := fun op i =>
  match op.opcode with
  | .opBr => condbranch (.ofCode op.cond) i
  | .opJmp => jmp i
  | .opBru => bru i
  | .opSel => sel (.ofCode op.cond) op.size i
  | .opSet => set (.ofCode op.cond) op.size i
  | _ => rest op i

/-! ### Groups of flags -/

/-- The flag words last written for ZAPS, CF and OF. -/
structure FlagGroups where
  zaps : W16
  cf : W16
  of : W16

namespace FlagGroups

variable (g : FlagGroups)

/-- The word a flag register is renamed to. -/
def word (r : Reg) : W16 := if r = Reg.zf then g.zaps else if r = Reg.cf then g.cf else if r = Reg.of then g.of else 0

/-- A flag is held in its group. -/
def flag (i : ℕ) : Bool :=
  if i = 0 then g.cf.getLsbD 0 else if i = 11 then g.of.getLsbD 11 else g.zaps.getLsbD i

/-- A uop renames the groups it sets. -/
def rename (s : SetFlags) (flags : W16) : FlagGroups :=
  ⟨if s.zf then flags else g.zaps, if s.cf then flags else g.cf, if s.of then flags else g.of⟩

/-- The inputs of a uop that reads no other register. -/
def inputs (op : TransOp) : UopInputs :=
  ⟨0, op.rbimm, op.rcimm, g.word op.ra, g.word op.rb, g.word op.rc, op.riptaken, op.ripseq⟩

/-- Uops that read and write flags, with the data of the last. -/
def run (exec : Synthop) : List TransOp → W64 → FlagGroups → W64 × FlagGroups
  | [], data, g => (data, g)
  | op :: ops, _, g =>
    let r := exec op (g.inputs op)
    run exec ops r.rddata (g.rename op.setflags r.rdflags)

end FlagGroups

theorem flag_iff (f : W16) : (f &&& FLAG_OF ≠ 0 ↔ f.getLsbD 11 = true) ∧ (f &&& FLAG_CF ≠ 0 ↔ f.getLsbD 0 = true) ∧
    (f &&& FLAG_ZF ≠ 0 ↔ f.getLsbD 6 = true) ∧ (f &&& FLAG_SF ≠ 0 ↔ f.getLsbD 7 = true) ∧
    (f &&& FLAG_PF ≠ 0 ↔ f.getLsbD 2 = true) := by
  have hof : FLAG_OF = BitVec.twoPow 16 11 := by decide
  have hcf : FLAG_CF = BitVec.twoPow 16 0 := by decide
  have hzf : FLAG_ZF = BitVec.twoPow 16 6 := by decide
  have hsf : FLAG_SF = BitVec.twoPow 16 7 := by decide
  have hpf : FLAG_PF = BitVec.twoPow 16 2 := by decide
  rw [hof, hcf, hzf, hsf, hpf]
  exact ⟨flag_ne_zero f _, flag_ne_zero f _, flag_ne_zero f _, flag_ne_zero f _, flag_ne_zero f _⟩

/-- **A formula takes each flag from its group.** -/
theorem evaluateCond_groups (cond : Cond) (g : FlagGroups) :
    evaluateCond cond (g.word cond.flagRegs.1) (g.word cond.flagRegs.2) = cond.holds g.flag := by
  have hzf : g.word Reg.zf = g.zaps := rfl
  have hcf : g.word Reg.cf = g.cf := rfl
  have hof : g.word Reg.of = g.of := rfl
  obtain ⟨-, -, hz, hs, hp⟩ := flag_iff g.zaps
  obtain ⟨-, hc, -⟩ := flag_iff g.cf
  obtain ⟨ho, -⟩ := flag_iff g.of
  cases cond <;>
    simp only [Cond.flagRegs, hzf, hcf, hof, evaluateCond, Cond.holds, FlagGroups.flag, hz, hs, hp, hc, ho,
      Bool.decide_eq_true, Bool.decide_or, decide_not, if_true, show ¬(6 = 0) by decide, show ¬(6 = 11) by decide,
      show ¬(7 = 0) by decide, show ¬(7 = 11) by decide, show ¬(2 = 0) by decide, show ¬(2 = 11) by decide,
      show ¬(11 = 0) by decide, if_false]
  · exact Bool.or_comm _ _
  · rw [Bool.or_comm]
  · cases g.zaps.getLsbD 7 <;> cases g.of.getLsbD 11 <;> rfl
  · cases g.zaps.getLsbD 6 <;> cases g.zaps.getLsbD 7 <;> cases g.of.getLsbD 11 <;> rfl

/-- All flags are in one word. -/
theorem FlagGroups.flag_word (f : W16) (i : ℕ) : FlagGroups.flag ⟨f, f, f⟩ i = f.getLsbD i := by
  unfold FlagGroups.flag
  split
  · rename_i hi
    rw [hi]
  · split
    · rename_i hi
      rw [hi]
    · rfl

/-- The flags of one word. -/
theorem evaluateCond_word_holds (cond : Cond) (f : W16) :
    evaluateCond cond f f = cond.holds fun i => f.getLsbD i := by
  have hgroups := evaluateCond_groups cond ⟨f, f, f⟩
  have hword : ∀ r, r = Reg.zf ∨ r = Reg.cf ∨ r = Reg.of → FlagGroups.word ⟨f, f, f⟩ r = f := by
    rintro r (rfl | rfl | rfl) <;> rfl
  have hregs : ∀ r ∈ [cond.flagRegs.1, cond.flagRegs.2], r = Reg.zf ∨ r = Reg.cf ∨ r = Reg.of := by
    cases cond <;> decide
  rw [hword _ (hregs _ (by simp)), hword _ (hregs _ (by simp))] at hgroups
  rw [hgroups]
  rw [funext (FlagGroups.flag_word f)]

/-- The groups gathered in one word: every status flag is from its group. -/
theorem collcc_bit (g : FlagGroups) (i : ℕ) (hi : i ∈ [0, 2, 4, 6, 7, 11]) :
    ((g.zaps &&& FLAG_ZAPS) ||| (g.cf &&& FLAG_CF) ||| (g.of &&& FLAG_OF)).getLsbD i = g.flag i := by
  have hmask : ∀ i ∈ [0, 2, 4, 6, 7, 11], FLAG_ZAPS.getLsbD i = decide (i ≠ 0 ∧ i ≠ 11) ∧
      FLAG_CF.getLsbD i = decide (i = 0) ∧ FLAG_OF.getLsbD i = decide (i = 11) := by
    decide
  obtain ⟨hz, hc, ho⟩ := hmask i hi
  unfold FlagGroups.flag
  rw [BitVec.getLsbD_or, BitVec.getLsbD_or, BitVec.getLsbD_and, BitVec.getLsbD_and, BitVec.getLsbD_and, hz, hc, ho]
  by_cases h0 : i = 0
  · subst h0
    simp
  · by_cases h11 : i = 11
    · subst h11
      simp
    · simp [h0, h11]

end X86Sim
