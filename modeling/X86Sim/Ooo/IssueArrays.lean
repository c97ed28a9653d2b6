import Mathlib.Tactic.FinCases
import X86Sim.Lib.BitStrings
import X86Sim.Ooo.Scheduler

/-!
# The collapsing issue queue (`oooexec.cpp`, `ooocore.h`, `logic.h`)

The source keeps the queue in parallel arrays of tags and bit vectors, which all shift
when an entry is removed, and latches at `clock` which entries may issue.

* `slots_remove`, `slots_insert` and their siblings: each operation on the arrays is the
  operation on the list of entries.
* `issueQueue_refines`: runs of operations.
-/

namespace X86Sim.Ooo

open BitStrings

variable {size w : ℕ}

/-! ### Bit sets -/

/-- `lsb` of a bit set, which is read as an `unsigned long long`: it holds at most 64 bits. -/
def lsb (v : BitVec size) : ℕ := ((List.range size).find? v.getLsbD).getD 64

/-- `remove_bit`, in the arithmetic of `unsigned long long`, also of at most 64 bits. -/
def removeBit (v : BitVec size) (index : ℕ) : BitVec size :=
  let lo := v.toNat &&& (1 <<< index - 1)
  let hi := (v.toNat >>> index) >>> 1
  BitVec.ofNat size (lo ||| hi <<< index)

/-! ### Associative tags -/

/-- `FullyAssociativeTagsNbit`, padded to twice its size. -/
structure AssocTags (size w : ℕ) where
  tags : ℕ → BitVec w
  valid : BitVec size

namespace AssocTags

variable (a : AssocTags size w)

def reset : AssocTags size w := ⟨fun _ => BitVec.allOnes w, 0⟩

def tagsPerChunk (w : ℕ) : ℕ := 128 / w

def prep (tag : BitVec w) : ℕ → BitVec w := fun _ => tag

def insertslot (idx : ℕ) (tag : BitVec w) : AssocTags size w := ⟨Function.update a.tags idx tag, setBit a.valid idx true⟩

def matchTags (target : ℕ → BitVec w) : BitVec size :=
  (List.range size).foldl (fun m i => if a.tags i = target (i % tagsPerChunk w) then setBit m i true else m) 0 &&& a.valid

def search (target : ℕ → BitVec w) : ℤ :=
  let bitmap := a.matchTags target
  if bitmap = 0 then -1 else lsb bitmap

def invalidateslot (index : ℕ) : AssocTags size w := { a with valid := setBit a.valid index false }

def invalidate (target : ℕ → BitVec w) : AssocTags size w := { a with valid := a.valid &&& ~~~a.matchTags target }

/-- The loop over the tags of `collapse`: each takes the next one's value. -/
def collapseTags (tags : ℕ → BitVec w) : ℕ → ℕ → (ℕ → BitVec w)
  | 0, _ => tags
  | turns + 1, i => collapseTags (Function.update tags i (tags (i + 1))) turns (i + 1)

/-- The loop over the valid bits. -/
def collapseValid (valid : BitVec size) : ℕ → ℕ → BitVec size
  | 0, _ => valid
  | turns + 1, i => collapseValid (setBit valid i (valid.getLsbD (i + 1))) turns (i + 1)

def collapse (index : ℕ) : AssocTags size w :=
  { tags := Function.update (collapseTags a.tags (size + size - 1 - index) index) (size + size - 1) (BitVec.allOnes w)
    valid := setBit (collapseValid a.valid (size - 1 - index) index) (size - 1) false }

end AssocTags

/-! ### The queue -/

/-- `IssueQueue` in its arrays. -/
structure IssueArrays (size w : ℕ) where
  uopids : AssocTags size w
  tags : Operand → AssocTags size w
  valid : BitVec size
  issued : BitVec size
  allready : BitVec size
  count : ℕ

namespace IssueArrays

variable (q : IssueArrays size w)

def reset : IssueArrays size w := ⟨.reset, fun _ => .reset, 0, 0, 0, 0⟩

def clock : IssueArrays size w :=
  { q with allready := (List.finRange 4).foldl (fun ready operand => ready &&& ~~~(q.tags operand).valid) (q.valid &&& ~~~q.issued) }

/-- The dependencies that `insert` and `replay` write to a slot. -/
def setOperands (slot : ℕ) (operands preready : Operand → BitVec w) : Operand → AssocTags size w := fun operand =>
  if preready operand ≠ 0 then (q.tags operand).invalidateslot slot else (q.tags operand).insertslot slot (operands operand)

/-- `insert`; no answer is a failed assertion. -/
def insert (uopid : BitVec w) (operands preready : Operand → BitVec w) : Option (Bool × IssueArrays size w) :=
  if q.count = size then some (false, q)
  else if size < q.count then none
  else
    let slot := q.count
    if q.valid.getLsbD slot then none
    else
      some (true,
        { q with
          count := q.count + 1, uopids := q.uopids.insertslot slot uopid, valid := setBit q.valid slot true
          issued := setBit q.issued slot false, tags := q.setOperands slot operands preready })

def broadcast (uopid : BitVec w) : IssueArrays size w :=
  { q with tags := fun operand => (q.tags operand).invalidate (AssocTags.prep uopid) }

def issue : ℤ × IssueArrays size w :=
  if q.allready = 0 then (-1, q)
  else
    let slot := lsb q.allready
    (slot, { q with issued := setBit q.issued slot true })

/-- `replay(slot)`. -/
def replay (slot : ℕ) : IssueArrays size w := { q with issued := setBit q.issued slot false }

/-- `replay(slot, operands, preready)`. -/
def replayWith (slot : ℕ) (operands preready : Operand → BitVec w) : Option (IssueArrays size w) :=
  if !q.valid.getLsbD slot || !q.issued.getLsbD slot then none
  else some { q with issued := setBit q.issued slot false, tags := q.setOperands slot operands preready }

/-- `remove`, also `release` and `annul`. -/
def remove (slot : ℕ) : Option (IssueArrays size w) :=
  if q.count = 0 then none
  else
    some
      { uopids := q.uopids.collapse slot, tags := fun operand => (q.tags operand).collapse slot
        valid := removeBit q.valid slot, issued := removeBit q.issued slot, allready := removeBit q.allready slot
        count := q.count - 1 }

def annuluop (uopid : BitVec w) : Option (Bool × IssueArrays size w) :=
  let slot := q.uopids.search (AssocTags.prep uopid)
  if slot < 0 then some (false, q) else (q.remove slot.toNat).map fun q => (true, q)

def switchToEnd (slot : ℕ) (operands preready : Operand → BitVec w) : Option (IssueArrays size w) :=
  let uopid := q.uopids.tags slot
  (q.remove slot).bind fun q => (q.insert uopid operands preready).map Prod.snd

end IssueArrays

/-! ### Operations and their meaning on the list of entries -/

inductive QueueOp (w : ℕ)
  | insert (uopid : BitVec w) (operands preready : Operand → BitVec w)
  | broadcast (uopid : BitVec w)
  | clock
  | issue
  | replay (slot : ℕ)
  | replayWith (slot : ℕ) (operands preready : Operand → BitVec w)
  | release (slot : ℕ)
  | annul (slot : ℕ)
  | annuluop (uopid : BitVec w)
  | switchToEnd (slot : ℕ) (operands preready : Operand → BitVec w)

/-- What an operation returns (a `bool` as 0 or 1) and leaves. -/
def IssueArrays.exec (q : IssueArrays size w) : QueueOp w → Option (ℤ × IssueArrays size w)
  | .insert uopid operands preready => (q.insert uopid operands preready).map fun r => (if r.1 then 1 else 0, r.2)
  | .broadcast uopid => some (1, q.broadcast uopid)
  | .clock => some (0, q.clock)
  | .issue => some q.issue
  | .replay slot => some (1, q.replay slot)
  | .replayWith slot operands preready => (q.replayWith slot operands preready).map fun q => (1, q)
  | .release slot | .annul slot => (q.remove slot).map fun q => (1, q)
  | .annuluop uopid => (q.annuluop uopid).map fun r => (if r.1 then 1 else 0, r.2)
  | .switchToEnd slot operands preready => (q.switchToEnd slot operands preready).map fun q => (1, q)

/-- The tags that an entry waits for. -/
def pendingTags (operands preready : Operand → BitVec w) : Operand → Option ℕ := fun operand =>
  if preready operand ≠ 0 then none else some (operands operand).toNat

/-- The operation on the list of entries; none where it names no entry, or replays one that
has not issued. -/
def queueSpec (size : ℕ) (l : IssueQueue) : QueueOp w → Option (ℤ × IssueQueue)
  | .insert uopid operands preready =>
    some (if l.length = size then (0, l) else (1, l ++ [⟨uopid.toNat, pendingTags operands preready, false, false⟩]))
  | .broadcast uopid => some (1, l.broadcast uopid.toNat)
  | .clock => some (0, l.clock)
  | .issue => some ((l.issue.map fun r => ((r.1 : ℤ), r.2)).getD (-1, l))
  | .replay slot => if slot < l.length then some (1, l.replay slot) else none
  | .replayWith slot operands preready =>
    if (l[slot]?.map IssueSlot.issued) = some true then some (1, l.replayWith slot (pendingTags operands preready)) else none
  | .release slot | .annul slot => if slot < l.length then some (1, l.remove slot) else none
  | .annuluop uopid => some (((l.slotof uopid.toNat).map fun slot => ((1 : ℤ), l.remove slot)).getD (0, l))
  | .switchToEnd slot operands preready =>
    l[slot]?.map fun s => (1, l.remove slot ++ [⟨s.uopid, pendingTags operands preready, false, false⟩])

/-- A run, with what each operation returns. -/
def IssueArrays.run (q : IssueArrays size w) : List (QueueOp w) → Option (List ℤ × IssueArrays size w)
  | [] => some ([], q)
  | op :: ops => (q.exec op).bind fun r => (r.2.run ops).map fun r' => (r.1 :: r'.1, r'.2)

def queueRun (size : ℕ) (l : IssueQueue) : List (QueueOp w) → Option (List ℤ × IssueQueue)
  | [] => some ([], l)
  | op :: ops => (queueSpec size l op).bind fun r => (queueRun size r.2 ops).map fun r' => (r.1 :: r'.1, r'.2)

/-- The tag in a slot, if it is valid. -/
def AssocTags.pending (a : AssocTags size w) (i : ℕ) : Option ℕ := if a.valid.getLsbD i then some (a.tags i).toNat else none

/-- The entries of the arrays. -/
def IssueArrays.slot (q : IssueArrays size w) (i : ℕ) : IssueSlot where
  uopid := (q.uopids.tags i).toNat
  tags operand := (q.tags operand).pending i
  issued := q.issued.getLsbD i
  allready := q.allready.getLsbD i

def IssueArrays.slots (q : IssueArrays size w) : IssueQueue := (List.range q.count).map q.slot

/-- The first `count` slots are in use, and only they may be latched. -/
structure IssueArrays.Inv (q : IssueArrays size w) : Prop where
  count_le : q.count ≤ size
  valid : ∀ i < size, q.valid.getLsbD i = decide (i < q.count)
  uopids : ∀ i < size, q.uopids.valid.getLsbD i = decide (i < q.count)
  latched : ∀ i, q.count ≤ i → q.allready.getLsbD i = false

/-! ### The bits -/

section Bits

variable {v : BitVec size} {index i : ℕ}

theorem getLsbD_removeBit (hi : i < size) : (removeBit v index).getLsbD i = if i < index then v.getLsbD i else v.getLsbD (i + 1) := by
  have hlow : (v.toNat &&& (1 <<< index - 1)).testBit i = (decide (i < index) && v.getLsbD i) := by
    rw [Nat.testBit_and, Nat.one_shiftLeft, Nat.testBit_two_pow_sub_one, BitVec.testBit_toNat, Bool.and_comm]
  have hhigh : ((v.toNat >>> index) >>> 1 <<< index).testBit i = (decide (index ≤ i) && v.getLsbD (i + 1)) := by
    rw [Nat.testBit_shiftLeft, Nat.testBit_shiftRight, Nat.testBit_shiftRight, BitVec.testBit_toNat]
    by_cases hle : index ≤ i
    · have hsum : index + (1 + (i - index)) = i + 1 := by omega
      rw [hsum]
    · simp [hle]
  rw [removeBit, BitVec.getLsbD_ofNat, Nat.testBit_or, hlow, hhigh]
  by_cases hlt : i < index
  · simp [hi, hlt]
  · simp [hi, hlt, Nat.not_lt.1 hlt]

theorem eq_zero_iff_bits : v = 0 ↔ ∀ i, v.getLsbD i = false := by
  constructor
  · rintro rfl i
    exact BitVec.getLsbD_zero
  · intro h
    apply BitVec.eq_of_getLsbD_eq
    intro i _
    rw [h i]
    exact BitVec.getLsbD_zero.symm

/-- `lsb` finds the lowest bit that is set. -/
theorem lsb_spec (h : v ≠ 0) : v.getLsbD (lsb v) = true ∧ ∀ j < lsb v, v.getLsbD j = false := by
  obtain ⟨k, hk⟩ : ∃ k, v.getLsbD k = true := by
    by_contra hno
    apply h
    rw [eq_zero_iff_bits]
    intro i
    rw [← Bool.not_eq_true]
    exact fun hi => hno ⟨i, hi⟩
  have hlt : k < size := BitVec.lt_of_getLsbD hk
  cases hfind : (List.range size).find? v.getLsbD with
  | none =>
    rw [List.find?_eq_none] at hfind
    exact absurd hk (hfind k (List.mem_range.2 hlt))
  | some i =>
    have hlsb : lsb v = i := by
      rw [lsb, hfind]
      rfl
    rw [hlsb]
    rw [List.find?_range_eq_some] at hfind
    obtain ⟨hset, -, hbefore⟩ := hfind
    refine ⟨hset, fun j hj => ?_⟩
    simpa using hbefore j hj

/-- The lowest entry with a property, found in the bits. -/
theorem findIdx_of_bits {α : Type} {l : List α} {f : α → Bool} (hbits : ∀ i, v.getLsbD i = (l[i]?.map f).getD false) :
    l.findIdx? f = if v = 0 then none else some (lsb v) := by
  by_cases hzero : v = 0
  · rw [if_pos hzero, List.findIdx?_eq_none_iff]
    rw [eq_zero_iff_bits] at hzero
    intro x hx
    obtain ⟨i, hi, rfl⟩ := List.mem_iff_getElem.1 hx
    have hbit := hbits i
    rw [hzero i, List.getElem?_eq_getElem hi] at hbit
    exact hbit.symm
  · rw [if_neg hzero]
    obtain ⟨hset, hbefore⟩ := lsb_spec hzero
    have hlt : lsb v < l.length := by
      by_contra hge
      rw [hbits, List.getElem?_eq_none (Nat.not_lt.1 hge)] at hset
      cases hset
    rw [List.findIdx?_eq_some_iff_getElem]
    refine ⟨hlt, ?_, ?_⟩
    · rw [hbits, List.getElem?_eq_getElem hlt] at hset
      exact hset
    · intro j hj
      have hbit := hbefore j hj
      rw [hbits, List.getElem?_eq_getElem (by omega)] at hbit
      simpa using hbit

end Bits

/-! ### The associative arrays -/

namespace AssocTags

variable {a : AssocTags size w} {index i : ℕ}

theorem getLsbD_matchTags (tag : BitVec w) (hi : i < size) :
    (a.matchTags (prep tag)).getLsbD i = (decide (a.tags i = tag) && a.valid.getLsbD i) := by
  -- the bits the loop has set
  have hloop : ∀ (indices : List ℕ) (m : BitVec size), (∀ j ∈ indices, j < size) →
      (indices.foldl (fun m j => if a.tags j = prep tag (j % tagsPerChunk w) then setBit m j true else m) m).getLsbD i =
        (decide (i ∈ indices ∧ a.tags i = tag) || m.getLsbD i) := by
    intro indices
    induction indices with
    | nil =>
      intro m _
      simp
    | cons j indices ih =>
      intro m hlt
      have hj : j < size := hlt j List.mem_cons_self
      rw [List.foldl_cons, ih _ fun k hk => hlt k (List.mem_cons_of_mem _ hk)]
      by_cases htag : a.tags j = tag
      · rw [if_pos (show a.tags j = prep tag (j % tagsPerChunk w) from htag), getLsbD_setBit hj]
        by_cases hij : i = j
        · subst hij
          simp [htag]
        · simp [hij]
      · rw [if_neg (show ¬ a.tags j = prep tag (j % tagsPerChunk w) from htag)]
        by_cases hij : i = j
        · subst hij
          simp [htag]
        · simp [hij]
  rw [matchTags, BitVec.getLsbD_and, hloop _ _ fun j hj => List.mem_range.1 hj]
  simp [hi]

theorem getLsbD_invalidate (tag : BitVec w) :
    (a.invalidate (prep tag)).valid.getLsbD i = (a.valid.getLsbD i && decide (a.tags i ≠ tag)) := by
  by_cases hi : i < size
  · rw [invalidate, BitVec.getLsbD_and, BitVec.getLsbD_not, getLsbD_matchTags tag hi]
    by_cases htag : a.tags i = tag
    · cases hvalid : a.valid.getLsbD i <;> simp [hi, htag]
    · simp [hi, htag]
  · rw [BitVec.getLsbD_of_ge _ _ (Nat.not_lt.1 hi), BitVec.getLsbD_of_ge _ _ (Nat.not_lt.1 hi)]
    rfl

theorem collapseTags_eq (tags : ℕ → BitVec w) (turns start : ℕ) :
    collapseTags tags turns start i = if start ≤ i ∧ i < start + turns then tags (i + 1) else tags i := by
  induction turns generalizing tags start with
  | zero =>
    rw [if_neg (by omega)]
    rfl
  | succ turns ih =>
    rw [collapseTags, ih]
    simp only [Function.update_apply]
    by_cases hi : i = start
    · subst hi
      rw [if_neg (by omega), if_pos rfl, if_pos (by omega)]
    · rw [if_neg hi]
      by_cases hin : start + 1 ≤ i ∧ i < start + 1 + turns
      · rw [if_pos hin, if_neg (by omega), if_pos (by omega)]
      · rw [if_neg hin, if_neg (by omega)]

theorem getLsbD_collapseValid (valid : BitVec size) (turns start : ℕ) (h : start + turns < size) :
    (collapseValid valid turns start).getLsbD i =
      if start ≤ i ∧ i < start + turns then valid.getLsbD (i + 1) else valid.getLsbD i := by
  induction turns generalizing valid start with
  | zero =>
    rw [if_neg (by omega)]
    rfl
  | succ turns ih =>
    rw [collapseValid, ih _ _ (by omega), getLsbD_setBit (by omega), getLsbD_setBit (by omega)]
    by_cases hi : i = start
    · subst hi
      rw [if_neg (by omega), if_pos rfl, if_pos (by omega)]
    · rw [if_neg hi]
      by_cases hin : start + 1 ≤ i ∧ i < start + 1 + turns
      · rw [if_pos hin, if_neg (by omega), if_pos (by omega)]
      · rw [if_neg hin, if_neg (by omega)]

/-- **`collapse`** moves every slot above down by one. -/
theorem collapse_spec (hindex : index < size) (hi : i < size) :
    (i + 1 < size → (a.collapse index).tags i = if i < index then a.tags i else a.tags (i + 1)) ∧
      (a.collapse index).valid.getLsbD i = if i < index then a.valid.getLsbD i else a.valid.getLsbD (i + 1) := by
  constructor
  · intro hnext
    simp only [collapse, Function.update_apply, collapseTags_eq]
    rw [if_neg (by omega)]
    by_cases hlt : i < index
    · rw [if_neg (by omega), if_pos hlt]
    · rw [if_pos (by omega), if_neg hlt]
  · rw [collapse, getLsbD_setBit (by omega), getLsbD_collapseValid _ _ _ (by omega)]
    by_cases hlast : i = size - 1
    · rw [if_pos hlast, if_neg (by omega), BitVec.getLsbD_of_ge _ _ (by omega)]
    · rw [if_neg hlast]
      by_cases hlt : i < index
      · rw [if_neg (by omega), if_pos hlt]
      · rw [if_pos (by omega), if_neg hlt]

theorem pending_invalidate (tag : BitVec w) :
    (a.invalidate (prep tag)).pending i = if a.pending i = some tag.toNat then none else a.pending i := by
  have htags : (a.invalidate (prep tag)).tags i = a.tags i := rfl
  rw [pending, getLsbD_invalidate, htags, pending]
  cases hvalid : a.valid.getLsbD i with
  | false => rfl
  | true =>
    by_cases htag : a.tags i = tag
    · simp [htag]
    · have hne : (a.tags i).toNat ≠ tag.toNat := fun heq => htag (BitVec.eq_of_toNat_eq heq)
      simp [htag, hne]

theorem pending_invalidateslot {slot : ℕ} (hslot : slot < size) :
    (a.invalidateslot slot).pending i = if i = slot then none else a.pending i := by
  rw [pending, invalidateslot, getLsbD_setBit hslot, pending]
  by_cases hi : i = slot
  · rw [if_pos hi, if_pos hi, if_neg Bool.false_ne_true]
  · rw [if_neg hi, if_neg hi]

theorem pending_insertslot {slot : ℕ} (hslot : slot < size) (tag : BitVec w) :
    (a.insertslot slot tag).pending i = if i = slot then some tag.toNat else a.pending i := by
  have htags : (a.insertslot slot tag).tags i = if i = slot then tag else a.tags i := Function.update_apply _ _ _ _
  have hvalid : (a.insertslot slot tag).valid.getLsbD i = if i = slot then true else a.valid.getLsbD i := getLsbD_setBit hslot i
  rw [pending, htags, hvalid, pending]
  by_cases hi : i = slot
  · rw [if_pos hi, if_pos hi, if_pos hi, if_pos rfl]
  · rw [if_neg hi, if_neg hi, if_neg hi]

theorem pending_collapse (hindex : index < size) (hi : i + 1 < size) :
    (a.collapse index).pending i = if i < index then a.pending i else a.pending (i + 1) := by
  obtain ⟨htags, hvalid⟩ := @collapse_spec size w a index i hindex (by omega)
  rw [pending, htags hi, hvalid]
  by_cases hlt : i < index
  · rw [if_pos hlt, if_pos hlt, if_pos hlt, pending]
  · rw [if_neg hlt, if_neg hlt, if_neg hlt, pending]

end AssocTags
/-! ### Each operation, on the list of entries -/

namespace IssueArrays

variable {q q' : IssueArrays size w} {slot i : ℕ} {operands preready : Operand → BitVec w}

theorem slots_length : q.slots.length = q.count := by
  rw [slots, List.length_map, List.length_range]

theorem slots_getElem (h : i < q.count) : q.slots[i]? = some (q.slot i) := by
  rw [slots, List.getElem?_map, List.getElem?_range h]
  rfl

/-- A list with an entry for each slot. -/
theorem slots_eq {l : IssueQueue} (hlength : l.length = q.count) (h : ∀ i (hi : i < l.length), l[i] = q.slot i) : q.slots = l := by
  apply List.ext_getElem
  · rw [slots_length, hlength]
  · intro i _ hi
    rw [h i hi]
    simp [slots]

theorem reset_inv : (reset : IssueArrays size w).Inv := by
  refine ⟨Nat.zero_le size, ?_, ?_, ?_⟩
  · intro i _
    exact BitVec.getLsbD_zero
  · intro i _
    exact BitVec.getLsbD_zero
  · intro i _
    exact BitVec.getLsbD_zero

/-! ### `clock` -/

theorem getLsbD_clock : q.clock.allready.getLsbD i =
    (q.valid.getLsbD i && !q.issued.getLsbD i && decide (∀ operand, (q.tags operand).valid.getLsbD i = false)) := by
  have hfold : ∀ (operands : List Operand) (ready : BitVec size),
      (operands.foldl (fun ready operand => ready &&& ~~~(q.tags operand).valid) ready).getLsbD i =
        (ready.getLsbD i && decide (∀ operand ∈ operands, (q.tags operand).valid.getLsbD i = false)) := by
    intro operands
    induction operands with
    | nil =>
      intro ready
      simp
    | cons operand operands ih =>
      intro ready
      rw [List.foldl_cons, ih, BitVec.getLsbD_and, BitVec.getLsbD_not]
      by_cases hi : i < size
      · cases hvalid : (q.tags operand).valid.getLsbD i <;> simp only [hi, hvalid, List.forall_mem_cons, decide_true, Bool.not_true,
          Bool.not_false, Bool.and_true, Bool.and_false, Bool.false_and, true_and, false_and, decide_false, Bool.true_eq_false]
      · rw [BitVec.getLsbD_of_ge ready i (Nat.not_lt.1 hi)]
        rfl
  rw [clock, hfold, BitVec.getLsbD_and, BitVec.getLsbD_not]
  by_cases hi : i < size
  · simp [hi]
  · rw [BitVec.getLsbD_of_ge q.valid i (Nat.not_lt.1 hi)]
    rfl

theorem slotReady_slot : IssueQueue.slotReady (q.slot i) =
    (!q.issued.getLsbD i && decide (∀ operand, (q.tags operand).valid.getLsbD i = false)) := by
  have hall : (∀ operand, (q.tags operand).valid.getLsbD i = false) ↔
      ((q.tags 0).valid.getLsbD i = false ∧ (q.tags 1).valid.getLsbD i = false ∧
        (q.tags 2).valid.getLsbD i = false ∧ (q.tags 3).valid.getLsbD i = false) := by
    constructor
    · exact fun h => ⟨h 0, h 1, h 2, h 3⟩
    · rintro ⟨h0, h1, h2, h3⟩ operand
      fin_cases operand
      · exact h0
      · exact h1
      · exact h2
      · exact h3
  have hnone : ∀ operand, ((q.slot i).tags operand).isNone = !(q.tags operand).valid.getLsbD i := by
    intro operand
    simp only [slot, AssocTags.pending]
    cases (q.tags operand).valid.getLsbD i <;> rfl
  have hdecide : decide (∀ operand, (q.tags operand).valid.getLsbD i = false) =
      decide ((q.tags 0).valid.getLsbD i = false ∧ (q.tags 1).valid.getLsbD i = false ∧
        (q.tags 2).valid.getLsbD i = false ∧ (q.tags 3).valid.getLsbD i = false) := decide_eq_decide.2 hall
  rw [IssueQueue.slotReady, hnone, hnone, hnone, hnone, hdecide]
  simp only [slot, Bool.decide_and]
  cases q.issued.getLsbD i <;> cases (q.tags 0).valid.getLsbD i <;> cases (q.tags 1).valid.getLsbD i <;>
    cases (q.tags 2).valid.getLsbD i <;> cases (q.tags 3).valid.getLsbD i <;> rfl

theorem slots_clock (h : q.Inv) : q.clock.slots = q.slots.clock ∧ q.clock.Inv := by
  have hcount := h.count_le
  refine ⟨?_, h.count_le, h.valid, h.uopids, ?_⟩
  · simp only [slots, IssueQueue.clock, List.map_map]
    apply List.map_congr_left
    intro i hi
    have hlt : i < q.count := List.mem_range.1 hi
    have hvalid : q.valid.getLsbD i = true := by
      rw [h.valid i (by omega)]
      exact decide_eq_true hlt
    have hready : q.clock.allready.getLsbD i = IssueQueue.slotReady (q.slot i) := by
      rw [getLsbD_clock, slotReady_slot, hvalid, Bool.true_and]
    rw [Function.comp_apply, ← hready]
    rfl
  · intro i hge
    have hge' : q.count ≤ i := hge
    rw [getLsbD_clock]
    by_cases hi : i < size
    · rw [h.valid i hi, decide_eq_false (by omega)]
      rfl
    · rw [BitVec.getLsbD_of_ge q.valid i (Nat.not_lt.1 hi)]
      rfl

/-! ### Broadcasts -/

theorem slots_broadcast (h : q.Inv) (uopid : BitVec w) :
    (q.broadcast uopid).slots = q.slots.broadcast uopid.toNat ∧ (q.broadcast uopid).Inv := by
  refine ⟨?_, h.count_le, h.valid, h.uopids, h.latched⟩
  simp only [slots, IssueQueue.broadcast, List.map_map]
  apply List.map_congr_left
  intro i _
  have htags : ((q.broadcast uopid).slot i).tags =
      fun o => if (q.slot i).tags o = some uopid.toNat then none else (q.slot i).tags o := by
    funext o
    exact AssocTags.pending_invalidate uopid
  have hslot : (q.broadcast uopid).slot i = { q.slot i with tags := ((q.broadcast uopid).slot i).tags } := rfl
  rw [hslot, htags]
  rfl

/-! ### One slot -/

theorem pending_setOperands (hslot : slot < size) (operand : Operand) :
    (q.setOperands slot operands preready operand).pending i =
      if i = slot then pendingTags operands preready operand else (q.tags operand).pending i := by
  rw [setOperands, pendingTags]
  by_cases hready : preready operand ≠ 0
  · rw [if_pos hready, if_pos hready]
    exact AssocTags.pending_invalidateslot hslot
  · rw [if_neg hready, if_neg hready]
    exact AssocTags.pending_insertslot hslot _

theorem slots_modify {f : IssueSlot → IssueSlot} (hcount : q'.count = q.count)
    (h : ∀ i < q.count, q'.slot i = if i = slot then f (q.slot i) else q.slot i) : q'.slots = q.slots.modify slot f := by
  apply slots_eq
  · rw [List.length_modify, slots_length, hcount]
  · intro i hi
    rw [List.length_modify, slots_length] at hi
    have hlt : i < q.slots.length := by rwa [slots_length]
    have hget : q.slots[i] = q.slot i := by
      simp [slots]
    rw [List.getElem_modify, hget, h i hi]
    by_cases heq : slot = i
    · rw [if_pos heq, if_pos heq.symm]
    · rw [if_neg heq, if_neg (Ne.symm heq)]

theorem slots_replay (h : q.Inv) (hslot : slot < q.count) : (q.replay slot).slots = q.slots.replay slot ∧ (q.replay slot).Inv := by
  have hlt := lt_of_lt_of_le hslot h.count_le
  refine ⟨slots_modify rfl ?_, h.count_le, h.valid, h.uopids, h.latched⟩
  intro i _
  simp only [IssueArrays.slot, replay, getLsbD_setBit hlt]
  by_cases hi : i = slot
  · rw [if_pos hi, if_pos hi]
  · rw [if_neg hi, if_neg hi]

theorem slots_replayWith (h : q.Inv) (hslot : slot < q.count) (hissued : (q.slot slot).issued = true) :
    ∃ q', q.replayWith slot operands preready = some q' ∧
      q'.slots = q.slots.replayWith slot (pendingTags operands preready) ∧ q'.Inv := by
  have hlt := lt_of_lt_of_le hslot h.count_le
  have hvalid : q.valid.getLsbD slot = true := by
    rw [h.valid slot hlt]
    exact decide_eq_true hslot
  have hissued' : q.issued.getLsbD slot = true := hissued
  have hreplay : q.replayWith slot operands preready =
      some { q with issued := setBit q.issued slot false, tags := q.setOperands slot operands preready } := by
    rw [replayWith, hvalid, hissued']
    rfl
  refine ⟨_, hreplay, slots_modify rfl ?_, h.count_le, h.valid, h.uopids, h.latched⟩
  intro i _
  simp only [IssueArrays.slot, getLsbD_setBit hlt, pending_setOperands hlt]
  by_cases hi : i = slot
  · simp only [if_pos hi]
  · simp only [if_neg hi]

theorem slots_issue (h : q.Inv) :
    q.issue.1 = ((q.slots.issue.map fun r => ((r.1 : ℤ), r.2)).getD (-1, q.slots)).1 ∧
      q.issue.2.slots = ((q.slots.issue.map fun r => ((r.1 : ℤ), r.2)).getD (-1, q.slots)).2 ∧ q.issue.2.Inv := by
  have hbits : ∀ i, q.allready.getLsbD i = (q.slots[i]?.map IssueSlot.allready).getD false := by
    intro i
    by_cases hi : i < q.count
    · rw [slots_getElem hi]
      rfl
    · rw [List.getElem?_eq_none (by rw [slots_length]; omega), h.latched i (Nat.not_lt.1 hi)]
      rfl
  have hfind := findIdx_of_bits hbits
  rw [IssueQueue.issue, hfind, issue]
  by_cases hzero : q.allready = 0
  · rw [if_pos hzero, if_pos hzero]
    exact ⟨rfl, rfl, h⟩
  · rw [if_neg hzero, if_neg hzero]
    have hlt : lsb q.allready < q.count := by
      by_contra hge
      have hset := (lsb_spec hzero).1
      rw [h.latched _ (Nat.not_lt.1 hge)] at hset
      cases hset
    refine ⟨rfl, slots_modify rfl ?_, h.count_le, h.valid, h.uopids, h.latched⟩
    intro i _
    simp only [IssueArrays.slot, getLsbD_setBit (lt_of_lt_of_le hlt h.count_le)]
    by_cases hi : i = lsb q.allready
    · rw [if_pos hi, if_pos hi]
    · rw [if_neg hi, if_neg hi]

/-! ### Entries come and go -/

theorem slots_remove (h : q.Inv) (hslot : slot < q.count) :
    ∃ q', q.remove slot = some q' ∧ q'.slots = q.slots.remove slot ∧ q'.count = q.count - 1 ∧ q'.Inv := by
  have hcount := h.count_le
  have hpos : q.count ≠ 0 := by omega
  refine ⟨_, by rw [remove, if_neg hpos], ?_, rfl, ?_⟩
  · apply slots_eq
    · rw [IssueQueue.remove, List.length_eraseIdx_of_lt (by rw [slots_length]; exact hslot), slots_length]
    · intro i hi
      rw [IssueQueue.remove, List.length_eraseIdx_of_lt (by rw [slots_length]; exact hslot), slots_length] at hi
      have hsize : i < size := by omega
      have huop := (@AssocTags.collapse_spec size w q.uopids slot i (by omega) hsize).1 (by omega)
      have htag := fun operand => @AssocTags.pending_collapse size w (q.tags operand) slot i (by omega) (by omega)
      have hget : (q.slots.remove slot)[i]? = some (q.slot (if i < slot then i else i + 1)) := by
        rw [IssueQueue.remove, List.getElem?_eraseIdx]
        by_cases hlt : i < slot
        · rw [if_pos hlt, if_pos hlt, slots_getElem (by omega)]
        · rw [if_neg hlt, if_neg hlt, slots_getElem (by omega)]
      rw [List.getElem_eq_iff, hget]
      simp only [IssueArrays.slot, huop, getLsbD_removeBit hsize, htag]
      by_cases hlt : i < slot
      · simp only [if_pos hlt]
      · simp only [if_neg hlt]
  · -- the bits that stay in use are those below the last
    have hshift : ∀ (v : BitVec size), (∀ i < size, v.getLsbD i = decide (i < q.count)) → ∀ i < size,
        (if i < slot then v.getLsbD i else v.getLsbD (i + 1)) = decide (i < q.count - 1) := by
      intro v hv i hi
      by_cases hlt : i < slot
      · rw [if_pos hlt, hv i hi, decide_eq_decide]
        omega
      · rw [if_neg hlt]
        by_cases hnext : i + 1 < size
        · rw [hv _ hnext, decide_eq_decide]
          omega
        · rw [BitVec.getLsbD_of_ge v _ (Nat.not_lt.1 hnext), eq_comm, decide_eq_false_iff_not]
          omega
    refine ⟨by dsimp only; omega, ?_, ?_, ?_⟩
    · intro i hi
      rw [getLsbD_removeBit hi]
      exact hshift q.valid h.valid i hi
    · intro i hi
      rw [(@AssocTags.collapse_spec size w q.uopids slot i (by omega) hi).2]
      exact hshift q.uopids.valid h.uopids i hi
    · intro i hge
      dsimp only at hge
      by_cases hi : i < size
      · rw [getLsbD_removeBit hi, if_neg (by omega)]
        exact h.latched _ (by omega)
      · exact BitVec.getLsbD_of_ge _ i (Nat.not_lt.1 hi)

theorem slots_insert (h : q.Inv) (uopid : BitVec w) :
    ∃ r, q.insert uopid operands preready = some r ∧ r.1 = decide (q.count ≠ size) ∧
      r.2.slots = (if q.count = size then q.slots else q.slots ++ [⟨uopid.toNat, pendingTags operands preready, false, false⟩]) ∧
      r.2.Inv := by
  have hcount := h.count_le
  by_cases hfull : q.count = size
  · refine ⟨(false, q), by rw [insert, if_pos hfull], ?_, ?_, h⟩
    · simp [hfull]
    · rw [if_pos hfull]
  · have hlt : q.count < size := by omega
    -- the slot behind the last is not valid, so the assertion holds
    have hvalid : q.valid.getLsbD q.count = false := by
      rw [h.valid _ hlt]
      exact decide_eq_false (lt_irrefl _)
    have hinsert : q.insert uopid operands preready =
        some (true,
          { q with
            count := q.count + 1, uopids := q.uopids.insertslot q.count uopid, valid := setBit q.valid q.count true
            issued := setBit q.issued q.count false, tags := q.setOperands q.count operands preready }) := by
      rw [insert, if_neg hfull, if_neg (by omega)]
      dsimp only
      rw [hvalid]
      rfl
    refine ⟨_, hinsert, ?_, ?_, ?_⟩
    · simp [hfull]
    · rw [if_neg hfull]
      apply slots_eq
      · rw [List.length_append, slots_length]
        rfl
      · intro i hi
        rw [List.length_append, slots_length, List.length_singleton] at hi
        rw [List.getElem_append]
        -- the slots in use do not see the new one, and the new one reads what was written
        by_cases hold : i < q.count
        · have hne : i ≠ q.count := by omega
          rw [dif_pos (by rw [slots_length]; exact hold)]
          simp only [IssueArrays.slot, pending_setOperands hlt, AssocTags.insertslot, getLsbD_setBit hlt, Function.update_apply, if_neg hne]
          simp [slots, IssueArrays.slot]
        · obtain rfl : i = q.count := by omega
          rw [dif_neg (by rw [slots_length]; omega)]
          simp only [IssueArrays.slot, pending_setOperands hlt, AssocTags.insertslot, getLsbD_setBit hlt, Function.update_apply,
            if_true, h.latched _ le_rfl, List.getElem_singleton]
    · refine ⟨hlt, ?_, ?_, ?_⟩
      · intro i hi
        dsimp only
        rw [getLsbD_setBit hlt, h.valid i hi]
        by_cases heq : i = q.count
        · simp [heq]
        · rw [if_neg heq, decide_eq_decide]
          omega
      · intro i hi
        dsimp only [AssocTags.insertslot]
        rw [getLsbD_setBit hlt, h.uopids i hi]
        by_cases heq : i = q.count
        · simp [heq]
        · rw [if_neg heq, decide_eq_decide]
          omega
      · intro i hge
        have hge' : q.count + 1 ≤ i := hge
        exact h.latched i (by omega)

theorem search_slotof (h : q.Inv) (uopid : BitVec w) :
    q.uopids.search (AssocTags.prep uopid) = ((q.slots.slotof uopid.toNat).map fun slot : ℕ => (slot : ℤ)).getD (-1) := by
  have hcount := h.count_le
  have hbits : ∀ i, (q.uopids.matchTags (AssocTags.prep uopid)).getLsbD i =
      (q.slots[i]?.map (·.uopid == uopid.toNat)).getD false := by
    intro i
    by_cases hi : i < size
    · rw [AssocTags.getLsbD_matchTags uopid hi, h.uopids i hi]
      by_cases hlt : i < q.count
      · rw [slots_getElem hlt, decide_eq_true hlt, Bool.and_true]
        simp [IssueArrays.slot, BitVec.toNat_inj, Bool.beq_eq_decide_eq]
      · rw [List.getElem?_eq_none (by rw [slots_length]; omega), decide_eq_false hlt, Bool.and_false]
        rfl
    · rw [BitVec.getLsbD_of_ge _ i (Nat.not_lt.1 hi), List.getElem?_eq_none (by rw [slots_length]; omega)]
      rfl
  rw [AssocTags.search, IssueQueue.slotof, findIdx_of_bits hbits]
  split <;> rfl

/-! ### Runs -/

/-- **One operation** on the arrays is the operation on the list. -/
theorem exec_refines (h : q.Inv) (op : QueueOp w) {r : ℤ × IssueQueue} (hr : queueSpec size q.slots op = some r) :
    ∃ q', q.exec op = some (r.1, q') ∧ q'.slots = r.2 ∧ q'.Inv := by
  have hcount := h.count_le
  cases op with
  | insert uopid operands preready =>
    obtain rfl := Option.some.inj hr
    obtain ⟨r', hinsert, hok, hslots, hinv⟩ := @slots_insert size w q operands preready h uopid
    refine ⟨r'.2, ?_, ?_, hinv⟩
    · rw [exec, hinsert, Option.map_some, hok, slots_length]
      by_cases hfull : q.count = size
      · simp [hfull]
      · simp [hfull]
    · rw [hslots, slots_length]
      split <;> rfl
  | broadcast uopid =>
    obtain rfl := Option.some.inj hr
    exact ⟨_, rfl, slots_broadcast h uopid⟩
  | clock =>
    obtain rfl := Option.some.inj hr
    exact ⟨_, rfl, slots_clock h⟩
  | issue =>
    obtain rfl := Option.some.inj hr
    obtain ⟨hslot, hslots, hinv⟩ := slots_issue h
    refine ⟨q.issue.2, ?_, hslots, hinv⟩
    rw [exec, ← hslot]
  | replay slot =>
    rw [queueSpec, slots_length] at hr
    split at hr
    · rename_i hslot
      obtain rfl := Option.some.inj hr
      exact ⟨_, rfl, slots_replay h hslot⟩
    · cases hr
  | replayWith slot operands preready =>
    rw [queueSpec] at hr
    split at hr
    · rename_i hissued
      obtain rfl := Option.some.inj hr
      obtain ⟨s, hs, hissued'⟩ := Option.map_eq_some_iff.1 hissued
      have hslot : slot < q.count := by
        rw [← @slots_length size w q]
        exact (List.getElem?_eq_some_iff.1 hs).1
      rw [slots_getElem hslot] at hs
      obtain rfl := Option.some.inj hs
      obtain ⟨q', hreplay, hslots, hinv⟩ := @slots_replayWith size w q slot operands preready h hslot hissued'
      refine ⟨q', ?_, hslots, hinv⟩
      rw [exec, hreplay]
      rfl
    · cases hr
  | release slot =>
    rw [queueSpec, slots_length] at hr
    split at hr
    · rename_i hslot
      obtain rfl := Option.some.inj hr
      obtain ⟨q', hremove, hslots, -, hinv⟩ := slots_remove h hslot
      exact ⟨q', by rw [exec, hremove]; rfl, hslots, hinv⟩
    · cases hr
  | annul slot =>
    rw [queueSpec, slots_length] at hr
    split at hr
    · rename_i hslot
      obtain rfl := Option.some.inj hr
      obtain ⟨q', hremove, hslots, -, hinv⟩ := slots_remove h hslot
      exact ⟨q', by rw [exec, hremove]; rfl, hslots, hinv⟩
    · cases hr
  | annuluop uopid =>
    obtain rfl := Option.some.inj hr
    have hsearch := search_slotof h uopid
    cases hslotof : q.slots.slotof uopid.toNat with
    | none =>
      rw [hslotof] at hsearch
      refine ⟨q, ?_, rfl, h⟩
      rw [exec, annuluop, hsearch]
      rfl
    | some slot =>
      rw [hslotof] at hsearch
      have hslot : slot < q.count := by
        rw [← @slots_length size w q]
        exact (List.findIdx?_eq_some_iff_getElem.1 hslotof).1
      obtain ⟨q', hremove, hslots, -, hinv⟩ := slots_remove h hslot
      refine ⟨q', ?_, hslots, hinv⟩
      have hnot : ¬ ((slot : ℤ) < 0) := by omega
      rw [exec, annuluop, hsearch]
      simp only [Option.map_some, Option.getD_some, if_neg hnot, Int.toNat_natCast, hremove, if_true]
  | switchToEnd slot operands preready =>
    obtain ⟨s, hs, rfl⟩ := Option.map_eq_some_iff.1 hr
    have hslot : slot < q.count := by
      rw [← @slots_length size w q]
      exact (List.getElem?_eq_some_iff.1 hs).1
    rw [slots_getElem hslot] at hs
    obtain rfl := Option.some.inj hs
    obtain ⟨q₁, hremove, hslots₁, hcount₁, hinv₁⟩ := slots_remove h hslot
    -- there is room again for the entry that was removed
    have hroom : q₁.count ≠ size := by omega
    obtain ⟨r', hinsert, -, hslots, hinv⟩ := @slots_insert size w q₁ operands preready hinv₁ (q.uopids.tags slot)
    refine ⟨r'.2, ?_, ?_, hinv⟩
    · rw [exec, switchToEnd]
      dsimp only
      rw [hremove, Option.bind_some, hinsert]
      rfl
    · rw [hslots, if_neg hroom, hslots₁]
      rfl

theorem run_refines (h : q.Inv) (ops : List (QueueOp w)) {r : List ℤ × IssueQueue} (hr : queueRun size q.slots ops = some r) :
    ∃ q', q.run ops = some (r.1, q') ∧ q'.slots = r.2 ∧ q'.Inv := by
  induction ops generalizing q r with
  | nil =>
    obtain rfl := Option.some.inj hr
    exact ⟨q, rfl, rfl, h⟩
  | cons op ops ih =>
    rw [queueRun] at hr
    obtain ⟨first, hfirst, hrest⟩ := Option.bind_eq_some_iff.1 hr
    obtain ⟨rest, hrest', rfl⟩ := Option.map_eq_some_iff.1 hrest
    obtain ⟨q₁, hexec, hslots, hinv⟩ := exec_refines h op hfirst
    rw [← hslots] at hrest'
    obtain ⟨q₂, hrun, hslots₂, hinv₂⟩ := ih hinv hrest'
    refine ⟨q₂, ?_, hslots₂, hinv₂⟩
    rw [run, hexec, Option.bind_some, hrun, Option.map_some]

end IssueArrays

/-! ### What runs guarantee -/

/-- `slot` is what `issue` returns for the oldest entry with the property, -1 if there is none. -/
def IsOldest (l : IssueQueue) (property : IssueSlot → Bool) (slot : ℤ) : Prop :=
  slot = ((l.findIdx? property).map fun slot : ℕ => (slot : ℤ)).getD (-1)

/-- The uops that were latched, oldest first. -/
def latchedUops (l : IssueQueue) : List ℕ := (l.filter (·.allready)).map (·.uopid)

/-- The uops that may issue, oldest first. -/
def readyUops (l : IssueQueue) : List ℕ := (l.filter IssueQueue.slotReady).map (·.uopid)

theorem latchedUops_clock (l : IssueQueue) : latchedUops l.clock = readyUops l := by
  rw [latchedUops, readyUops, IssueQueue.clock, List.filter_map, List.map_map]
  rfl

/-- An operation on one entry, or on all, that keeps their uops and what was latched. -/
theorem latchedUops_map {l : IssueQueue} {f : ℕ → IssueSlot → IssueSlot}
    (h : ∀ i s, (f i s).allready = s.allready ∧ (f i s).uopid = s.uopid) : latchedUops (l.mapIdx f) = latchedUops l := by
  induction l generalizing f with
  | nil => rfl
  | cons s l ih =>
    have htail : latchedUops (l.mapIdx fun i => f (i + 1)) = latchedUops l := ih fun i s => h (i + 1) s
    obtain ⟨hready, huop⟩ := h 0 s
    simp only [latchedUops, List.mapIdx_cons, List.filter_cons, hready] at htail ⊢
    split
    · rw [List.map_cons, List.map_cons, huop, htail]
    · exact htail

theorem latchedUops_modify (l : IssueQueue) (slot : ℕ) {f : IssueSlot → IssueSlot}
    (h : ∀ s, (f s).allready = s.allready ∧ (f s).uopid = s.uopid) : latchedUops (l.modify slot f) = latchedUops l := by
  have hmap : l.modify slot f = l.mapIdx fun i s => if slot = i then f s else s := by
    apply List.ext_getElem?
    intro i
    rw [List.getElem?_modify, List.getElem?_mapIdx]
    cases l[i]? with
    | none => rfl
    | some s => by_cases heq : slot = i <;> simp [heq]
  rw [hmap]
  apply latchedUops_map
  intro i s
  split
  · exact h s
  · exact ⟨rfl, rfl⟩

theorem latchedUops_append (l : IssueQueue) {s : IssueSlot} (h : s.allready = false) : latchedUops (l ++ [s]) = latchedUops l := by
  simp [latchedUops, List.filter_append, h]

theorem latchedUops_remove (l : IssueQueue) (slot : ℕ) : (latchedUops (l.remove slot)).Sublist (latchedUops l) :=
  ((List.eraseIdx_sublist l slot).filter _).map _

/-- Between clocks nothing is latched, and what is stays in order. -/
theorem latchedUops_step {l : IssueQueue} {op : QueueOp w} {r : ℤ × IssueQueue} (hop : op ≠ .clock)
    (h : queueSpec size l op = some r) : (latchedUops r.2).Sublist (latchedUops l) := by
  cases op with
  | insert uopid operands preready =>
    obtain rfl := Option.some.inj h
    split
    · exact List.Sublist.refl _
    · rw [latchedUops_append l rfl]
  | broadcast uopid =>
    obtain rfl := Option.some.inj h
    -- tags alone change here, and in `issue` the issued bit: neither is latched
    have hmap : l.broadcast uopid.toNat =
        l.mapIdx fun _ s => { s with tags := fun o => if s.tags o = some uopid.toNat then none else s.tags o } := by
      apply List.ext_getElem?
      intro i
      rw [IssueQueue.broadcast, List.getElem?_map, List.getElem?_mapIdx]
    have hsame : latchedUops (l.broadcast uopid.toNat) = latchedUops l := by
      rw [hmap]
      exact latchedUops_map fun _ _ => ⟨rfl, rfl⟩
    exact hsame.symm ▸ List.Sublist.refl _
  | clock => exact absurd rfl hop
  | issue =>
    obtain rfl := Option.some.inj h
    rw [IssueQueue.issue]
    cases l.findIdx? (·.allready) with
    | none => exact List.Sublist.refl _
    | some slot =>
      have hsame : latchedUops (l.modify slot fun s => { s with issued := true }) = latchedUops l :=
        latchedUops_modify l slot fun _ => ⟨rfl, rfl⟩
      exact hsame.symm ▸ List.Sublist.refl _
  | replay slot =>
    rw [queueSpec] at h
    split at h
    · obtain rfl := Option.some.inj h
      have hsame : latchedUops (l.replay slot) = latchedUops l := latchedUops_modify l slot fun _ => ⟨rfl, rfl⟩
      exact hsame.symm ▸ List.Sublist.refl _
    · cases h
  | replayWith slot operands preready =>
    rw [queueSpec] at h
    split at h
    · obtain rfl := Option.some.inj h
      have hsame : latchedUops (l.replayWith slot (pendingTags operands preready)) = latchedUops l :=
        latchedUops_modify l slot fun _ => ⟨rfl, rfl⟩
      exact hsame.symm ▸ List.Sublist.refl _
    · cases h
  | release slot =>
    rw [queueSpec] at h
    split at h
    · obtain rfl := Option.some.inj h
      exact latchedUops_remove l slot
    · cases h
  | annul slot =>
    rw [queueSpec] at h
    split at h
    · obtain rfl := Option.some.inj h
      exact latchedUops_remove l slot
    · cases h
  | annuluop uopid =>
    obtain rfl := Option.some.inj h
    cases l.slotof uopid.toNat with
    | none => exact List.Sublist.refl _
    | some slot => exact latchedUops_remove l slot
  | switchToEnd slot operands preready =>
    obtain ⟨s, -, rfl⟩ := Option.map_eq_some_iff.1 h
    rw [latchedUops_append _ rfl]
    exact latchedUops_remove l slot

theorem latchedUops_run {l : IssueQueue} (ops : List (QueueOp w)) {r : List ℤ × IssueQueue} (hops : .clock ∉ ops)
    (h : queueRun size l ops = some r) : (latchedUops r.2).Sublist (latchedUops l) := by
  induction ops generalizing l r with
  | nil =>
    obtain rfl := Option.some.inj h
    exact List.Sublist.refl _
  | cons op ops ih =>
    rw [queueRun] at h
    obtain ⟨first, hfirst, hrest⟩ := Option.bind_eq_some_iff.1 h
    obtain ⟨rest, hrest', rfl⟩ := Option.map_eq_some_iff.1 hrest
    rw [List.mem_cons, not_or] at hops
    exact (ih hops.2 hrest').trans (latchedUops_step (Ne.symm hops.1) hfirst)

/-- What a queue guarantees, whose entries are `l`: `issue` takes the oldest latched entry,
which right after `clock` is the oldest that is ready and has not issued; no entry waits for
a tag that is broadcast; and entries that later operations leave latched were ready. -/
structure QueueRight (q : IssueArrays size w) (l : IssueQueue) : Prop where
  entries : q.slots = l
  issues : IsOldest l IssueSlot.allready q.issue.1
  ready : IsOldest l IssueQueue.slotReady q.clock.issue.1
  broadcasts : ∀ uopid : BitVec w, ∀ s ∈ (q.broadcast uopid).slots, ∀ operand, s.tags operand ≠ some uopid.toNat
  latched : ∀ (ops : List (QueueOp w)) (r : List ℤ × IssueQueue), .clock ∉ ops → queueRun size l.clock ops = some r →
    (latchedUops r.2).Sublist (readyUops l)

theorem issue_oldest {q : IssueArrays size w} (h : q.Inv) : IsOldest q.slots IssueSlot.allready q.issue.1 := by
  have hissue := (IssueArrays.slots_issue h).1
  rw [IssueQueue.issue, Option.map_map] at hissue
  rw [IsOldest, hissue]
  cases q.slots.findIdx? IssueSlot.allready <;> rfl

theorem queue_right {q : IssueArrays size w} (h : q.Inv) : QueueRight q q.slots := by
  obtain ⟨hclock, hinv⟩ := IssueArrays.slots_clock h
  refine ⟨rfl, issue_oldest h, ?_, ?_, ?_⟩
  · have holdest := issue_oldest hinv
    rw [hclock, IsOldest, IssueQueue.clock, List.findIdx?_map] at holdest
    exact holdest
  · intro uopid s hs operand
    rw [(IssueArrays.slots_broadcast h uopid).1] at hs
    obtain ⟨s', -, rfl⟩ := List.mem_map.1 hs
    dsimp only
    split
    · nofun
    · assumption
  · intro ops r hops hr
    have hsublist := latchedUops_run ops hops hr
    rwa [latchedUops_clock] at hsublist

/-- **The arrays refine the list of entries**, over every run of operations. -/
theorem issueQueue_refines (ops : List (QueueOp w)) (results : List ℤ) (l : IssueQueue) (h : queueRun size [] ops = some (results, l)) :
    ∃ q : IssueArrays size w, IssueArrays.reset.run ops = some (results, q) ∧ QueueRight q l := by
  obtain ⟨q, hrun, rfl, hinv⟩ := IssueArrays.run_refines (@IssueArrays.reset_inv size w) ops h
  exact ⟨q, hrun, queue_right hinv⟩

/-- A uop whose operands are all ready. -/
def insertReady (uopid : BitVec 8) : QueueOp 8 := .insert uopid (fun _ => 0) fun _ => 1

/-- Two uops are inserted, the younger one ready, which issues and leaves. -/
theorem issueQueue_younger : ∃ q : IssueArrays ISSUE_QUEUE_SIZE 8,
    IssueArrays.reset.run [.insert 5 (fun _ => 3) fun _ => 0, insertReady 6, .clock, .issue, .release 1, .broadcast 3] =
      some ([1, 1, 0, 1, 1, 1], q) ∧ QueueRight q [⟨5, fun _ => none, false, false⟩] :=
  issueQueue_refines _ _ _ rfl

/-- A uop that is ready when it is inserted does not issue before the next clock. -/
theorem not_issue_ready : ¬ ∀ (ops : List (QueueOp 8)) (results : List ℤ) (q : IssueArrays ISSUE_QUEUE_SIZE 8),
    IssueArrays.reset.run ops = some (results, q) → IsOldest q.slots IssueQueue.slotReady q.issue.1 := by
  intro h
  have hsome : ((IssueArrays.reset : IssueArrays ISSUE_QUEUE_SIZE 8).run [insertReady 5]).map
      (fun r => (r.2.issue.1, r.2.slots.findIdx? IssueQueue.slotReady)) = some (-1, some 0) := by decide +kernel
  obtain ⟨⟨results, q⟩, hrun, hanswer⟩ := Option.map_eq_some_iff.1 hsome
  obtain ⟨hissue, hready⟩ := Prod.mk.inj hanswer
  have holdest := h [insertReady 5] results q hrun
  rw [IsOldest, hissue, hready] at holdest
  exact absurd holdest (by decide)

end X86Sim.Ooo
