import Mathlib.Algebra.BigOperators.Fin
import X86Sim.Ooo.IssueArrays

/-!
# Fully associative tags (`logic.h`)

The tags of one set of ways with one most-recently-used bit for each way. A miss takes the
first way whose bit is clear; once every bit is set they are all cleared and way 0 is taken.

* `matchTag_right`: a valid tag is found in the one way that holds it.
* `tags_run`: runs of operations from a reset.
-/

namespace X86Sim.Ooo

open BitStrings

/-- `InvalidTag`: the tag of a way that holds nothing. -/
class InvalidTag (T : Type) where
  INVALID : T

open InvalidTag

/-- A tag that may be looked for. -/
abbrev Target (T : Type) [InvalidTag T] := {t : T // t ≠ INVALID}

/-- `FullyAssociativeTags`. -/
structure FullyAssociativeTags (T : Type) (ways : ℕ) where
  evictmap : BitVec ways
  tags : Fin ways → T

namespace FullyAssociativeTags

variable {T : Type} {ways : ℕ} [DecidableEq T] [InvalidTag T] (a : FullyAssociativeTags T ways)

/-- The array index of a way; outside the arrays an access is undefined. -/
def slot (ways : ℕ) (way : ℤ) : Option (Fin ways) :=
  if h : 0 ≤ way ∧ way.toNat < ways then some ⟨way.toNat, h.2⟩ else none

/-- `lsb` of a bit set; `to_ullong` throws for bits from 64 on. -/
def lsbChecked (bits : BitVec ways) : Option ℕ :=
  if bits.toNat < 2 ^ 64 then some (lsb bits) else none

def reset : FullyAssociativeTags T ways := { evictmap := 0, tags := fun _ => INVALID }

def use (way : Fin ways) : FullyAssociativeTags T ways := { a with evictmap := setBit a.evictmap way true }

/-- `match`: the hits added up. -/
def matchTag (target : T) : ℤ :=
  (List.finRange ways).foldl (fun way (i : Fin ways) => way + if a.tags i = target then (i : ℤ) + 1 else 0) 0 - 1

def probe (target : T) : Option (ℤ × FullyAssociativeTags T ways) :=
  let way := a.matchTag target
  if way < 0 then some (-1, a) else (slot ways way).map fun w => (way, a.use w)

def lru : Option ℕ := if a.evictmap = BitVec.allOnes ways then some 0 else lsbChecked (~~~a.evictmap)

/-- `select`: the way, `oldtag` where it is written, and the state. -/
def select (target : T) : Option (ℤ × Option T × FullyAssociativeTags T ways) := do
  let (way, a) ← a.probe target
  if way < 0 then
    let way ← a.lru
    let evictmap := if a.evictmap = BitVec.allOnes ways then 0 else a.evictmap
    let w ← slot ways way
    let a' : FullyAssociativeTags T ways := { evictmap := evictmap, tags := Function.update a.tags w target }
    some (way, some (a.tags w), a'.use w)
  else
    let w ← slot ways way
    some (way, none, a.use w)

def invalidateWay (way : Fin ways) : FullyAssociativeTags T ways :=
  { tags := Function.update a.tags way INVALID, evictmap := setBit a.evictmap way false }

def invalidate (target : T) : Option (ℤ × FullyAssociativeTags T ways) := do
  let (way, a) ← a.probe target
  if way < 0 then some (-1, a)
  else
    let w ← slot ways way
    some (way, a.invalidateWay w)

/-! ### Runs -/

inductive TagOp (T : Type) (ways : ℕ) [InvalidTag T]
  | reset
  | use (way : Fin ways)
  | probe (target : Target T)
  | select (target : Target T)
  | invalidate (target : Target T)
  | invalidateWay (way : Fin ways)

/-- What an operation returns. -/
structure TagAnswer (T : Type) where
  way : Option ℤ
  oldtag : Option T

/-- One operation; none where it throws, which it does before any write. -/
def exec : TagOp T ways → Option (TagAnswer T × FullyAssociativeTags T ways)
  | .reset => some (⟨none, none⟩, reset)
  | .use way => some (⟨none, none⟩, a.use way)
  | .probe target => (a.probe target.1).map fun (way, a) => (⟨some way, none⟩, a)
  | .select target => (a.select target.1).map fun (way, oldtag, a) => (⟨some way, oldtag⟩, a)
  | .invalidate target => (a.invalidate target.1).map fun (way, a) => (⟨some way, none⟩, a)
  | .invalidateWay way => some (⟨none, none⟩, a.invalidateWay way)

/-- The way used last. -/
def lastUsed (mru : Option (Fin ways)) (op : TagOp T ways) (answer : TagAnswer T) : Option (Fin ways) :=
  match op, answer.way with
  | .reset, _ => none
  | .use way, _ => some way
  | _, some way => (slot ways way).or mru
  | _, none => mru

/-! ### What the operations promise -/

/-- At most one way holds a valid tag. -/
def Unique : Prop := ∀ w w', a.tags w ≠ INVALID → a.tags w = a.tags w' → w = w'

/-- The way used last keeps its bit as long as it holds a tag. -/
def Marked (mru : Option (Fin ways)) : Prop := ∀ w, mru = some w → a.tags w ≠ INVALID → a.evictmap.getLsbD w = true

/-- The match is the one way that holds the target, or -1. -/
def MatchRight (target : T) : Prop :=
  (∃ w, a.tags w = target ∧ (∀ w', a.tags w' = target → w' = w) ∧ a.matchTag target = (w : ℕ)) ∨
    ((∀ w, a.tags w ≠ target) ∧ a.matchTag target = -1)

/-- All tags but the one of a way are kept. -/
def OthersKept (a' : FullyAssociativeTags T ways) (w : Fin ways) : Prop := ∀ w', w' ≠ w → a'.tags w' = a.tags w'

/-- The MRU bit of a way becomes `b`; the others are kept. -/
def BitSet (a' : FullyAssociativeTags T ways) (w : Fin ways) (b : Bool) : Prop :=
  ∀ v : Fin ways, a'.evictmap.getLsbD v = if v = w then b else a.evictmap.getLsbD v

/-- A miss takes the first way whose bit is clear and sets it. Once every bit is set they are all
reset and way 0 is taken, whose bit is the one set afterwards. -/
def VictimRight (a' : FullyAssociativeTags T ways) (w : Fin ways) : Prop :=
  if a.evictmap = BitVec.allOnes ways then (w : ℕ) = 0 ∧ ∀ v : Fin ways, a'.evictmap.getLsbD v = decide (v = w)
  else a.evictmap.getLsbD w = false ∧ (∀ v < w, a.evictmap.getLsbD v = true) ∧ a.BitSet a' w true

/-- What `select` does: the target was there and its way is marked, or it replaces the tag it reports.
The way used last loses a valid tag only when every bit is set. -/
def SelectRight (mru : Option (Fin ways)) (target : T) (answer : TagAnswer T) (a' : FullyAssociativeTags T ways) : Prop :=
  ∃ w : Fin ways, answer.way = some ((w : ℕ) : ℤ) ∧ a'.tags w = target ∧ a.OthersKept a' w ∧
    ((a.tags w = target ∧ answer.oldtag = none ∧ a.BitSet a' w true) ∨
      ((∀ w', a.tags w' ≠ target) ∧ answer.oldtag = some (a.tags w) ∧ a.VictimRight a' w ∧
        (mru = some w → a.tags w ≠ INVALID → a.evictmap = BitVec.allOnes ways)))

/-- What each operation returns and does to the tags and the MRU bits. -/
def StepRight (mru : Option (Fin ways)) (answer : TagAnswer T) (a' : FullyAssociativeTags T ways) : TagOp T ways → Prop
  | .reset => (∀ w, a'.tags w = INVALID) ∧ a'.evictmap = 0
  | .use way => a'.tags = a.tags ∧ a.BitSet a' way true
  | .probe target => answer.way = some (a.matchTag target.1) ∧ a'.tags = a.tags ∧
      ((∃ w, a.tags w = target.1 ∧ a.BitSet a' w true) ∨ (∀ w, a.tags w ≠ target.1) ∧ a'.evictmap = a.evictmap)
  | .select target => a.SelectRight mru target.1 answer a'
  | .invalidate target =>
      answer.way = some (a.matchTag target.1) ∧ (∀ w, a'.tags w = if a.tags w = target.1 then INVALID else a.tags w) ∧
      ((∃ w, a.tags w = target.1 ∧ a.BitSet a' w false) ∨ (∀ w, a.tags w ≠ target.1) ∧ a'.evictmap = a.evictmap)
  | .invalidateWay way => a'.tags way = INVALID ∧ a.OthersKept a' way ∧ a.BitSet a' way false

/-- A way from 64 on has its bit clear. -/
def HighClear (map : BitVec ways) : Prop := ∃ v : Fin ways, 64 ≤ (v : ℕ) ∧ map.getLsbD v = false

/-- The only operation that throws: a miss of `select` with more than 64 ways. -/
def Throws : TagOp T ways → Prop
  | .select target => (∀ w, a.tags w ≠ target.1) ∧ HighClear a.evictmap
  | _ => False

/-- Every state of a run has its tags once and finds them, and every operation does what it promises. -/
def RunRight (a : FullyAssociativeTags T ways) (mru : Option (Fin ways)) : List (TagOp T ways) → Prop
  | [] => a.Unique ∧ ∀ target : Target T, a.MatchRight target.1
  | op :: ops =>
      (a.Unique ∧ ∀ target : Target T, a.MatchRight target.1) ∧
        match a.exec op with
        | none => a.Throws op ∧ RunRight a mru ops
        | some (answer, a') => ¬ a.Throws op ∧ a.StepRight mru answer a' op ∧ RunRight a' (lastUsed mru op answer) ops

/-! ### The match -/

section Match

variable {a : FullyAssociativeTags T ways} {target : T} {w : Fin ways}

omit [InvalidTag T] in
theorem matchTag_eq_sum : a.matchTag target = (∑ i, if a.tags i = target then ((i : ℕ) : ℤ) + 1 else 0) - 1 := by
  rw [Fin.sum_univ_def, List.sum_eq_foldl, List.foldl_map]
  rfl

omit [InvalidTag T] in
theorem matchTag_of_hit (hhit : a.tags w = target) (honly : ∀ w', a.tags w' = target → w' = w) : a.matchTag target = (w : ℕ) := by
  -- only the way that holds the tag adds to the sum
  have hsum : (∑ i, if a.tags i = target then ((i : ℕ) : ℤ) + 1 else 0) = (w : ℕ) + 1 := by
    rw [Finset.sum_eq_single w]
    · rw [if_pos hhit]
    · intro i _ hne
      rw [if_neg fun h => hne (honly i h)]
    · intro h
      exact absurd (Finset.mem_univ w) h
  rw [matchTag_eq_sum, hsum, add_sub_cancel_right]

omit [InvalidTag T] in
theorem matchTag_of_miss (hmiss : ∀ w, a.tags w ≠ target) : a.matchTag target = -1 := by
  have hsum : (∑ i, if a.tags i = target then ((i : ℕ) : ℤ) + 1 else 0) = 0 := by
    apply Finset.sum_eq_zero
    intro i _
    rw [if_neg (hmiss i)]
  rw [matchTag_eq_sum, hsum, zero_sub]

/-- Tags that stand once are found where they stand. -/
theorem Unique.matchRight (h : a.Unique) (hvalid : target ≠ INVALID) : a.MatchRight target := by
  by_cases hhit : ∃ w, a.tags w = target
  · obtain ⟨w, hw⟩ := hhit
    have honly : ∀ w', a.tags w' = target → w' = w := by
      intro w' hw'
      exact h w' w (hw' ▸ hvalid) (hw'.trans hw.symm)
    exact .inl ⟨w, hw, honly, matchTag_of_hit hw honly⟩
  · push Not at hhit
    exact .inr ⟨hhit, matchTag_of_miss hhit⟩

@[simp] theorem slot_cast : slot ways ((w : ℕ) : ℤ) = some w := by
  rw [slot, dif_pos ⟨Int.natCast_nonneg _, by simp⟩]
  simp

omit [InvalidTag T] in
/-- A hit marks its way; a miss changes nothing. -/
theorem MatchRight.probe (h : a.MatchRight target) :
    (∃ w, a.tags w = target ∧ (∀ w', a.tags w' = target → w' = w) ∧ a.probe target = some (((w : ℕ) : ℤ), a.use w)) ∨
      ((∀ w, a.tags w ≠ target) ∧ a.probe target = some (-1, a)) := by
  obtain ⟨w, hw, honly, hmatch⟩ | ⟨hmiss, hmatch⟩ := h
  · refine .inl ⟨w, hw, honly, ?_⟩
    rw [FullyAssociativeTags.probe, hmatch, if_neg (by omega), slot_cast]
    rfl
  · refine .inr ⟨hmiss, ?_⟩
    rw [FullyAssociativeTags.probe, hmatch, if_pos (by omega)]

end Match

/-! ### The victim -/

section Victim

variable {a : FullyAssociativeTags T ways} {bits : BitVec ways}

theorem toNat_lt_iff : bits.toNat < 2 ^ 64 ↔ ∀ i, 64 ≤ i → bits.getLsbD i = false := by
  constructor
  · intro hlt i hi
    have hsmall : bits.toNat < 2 ^ i := hlt.trans_le (Nat.pow_le_pow_right (by omega) hi)
    rw [← BitVec.testBit_toNat]
    exact Nat.testBit_lt_two_pow hsmall
  · intro hclear
    apply Nat.lt_pow_two_of_testBit
    intro i hi
    rw [BitVec.testBit_toNat]
    exact hclear i hi

theorem getLsbD_complement (i : ℕ) : (~~~bits).getLsbD i = (decide (i < ways) && !bits.getLsbD i) := by
  rw [BitVec.getLsbD_not]

theorem complement_toNat_lt_iff : (~~~bits).toNat < 2 ^ 64 ↔ ¬ HighClear bits := by
  rw [toNat_lt_iff]
  constructor
  · rintro hnone ⟨v, hv, hclear⟩
    have := hnone v hv
    rw [getLsbD_complement, hclear] at this
    simp at this
  · intro hno i hi
    rw [getLsbD_complement]
    by_cases hlt : i < ways
    · have hset : bits.getLsbD i = true := by
        by_contra hne
        exact hno ⟨⟨i, hlt⟩, hi, by simpa using hne⟩
      simp [hset]
    · simp [hlt]

theorem complement_ne_zero (hall : bits ≠ BitVec.allOnes ways) : ~~~bits ≠ 0 := by
  intro hzero
  apply hall
  apply BitVec.eq_of_getLsbD_eq
  intro i hi
  have := eq_zero_iff_bits.1 hzero i
  rw [getLsbD_complement] at this
  simpa [hi] using this

omit [DecidableEq T] [InvalidTag T] in
/-- The first way with a clear bit, or way 0 once there is none. -/
theorem lru_eq_some (hways : 0 < ways) (hlow : ¬ HighClear a.evictmap) :
    ∃ w : Fin ways, a.lru = some (w : ℕ) ∧
      (a.evictmap = BitVec.allOnes ways ∧ (w : ℕ) = 0 ∨ a.evictmap ≠ BitVec.allOnes ways ∧
        a.evictmap.getLsbD w = false ∧ ∀ v < w, a.evictmap.getLsbD v = true) := by
  -- `lru` answers 0 where every way is marked, and `select` clears the marks then
  by_cases hall : a.evictmap = BitVec.allOnes ways
  · exact ⟨⟨0, hways⟩, by rw [lru, if_pos hall], .inl ⟨hall, rfl⟩⟩
  · obtain ⟨hset, hfirst⟩ := lsb_spec (complement_ne_zero hall)
    rw [getLsbD_complement, Bool.and_eq_true, decide_eq_true_iff] at hset
    refine ⟨⟨lsb (~~~a.evictmap), hset.1⟩, ?_, .inr ⟨hall, by simpa using hset.2, fun v hv => ?_⟩⟩
    · rw [lru, if_neg hall, lsbChecked, if_pos (complement_toNat_lt_iff.2 hlow)]
    · have hclear := hfirst v hv
      rw [getLsbD_complement, decide_eq_true v.isLt, Bool.true_and] at hclear
      simpa using hclear

omit [DecidableEq T] [InvalidTag T] in
theorem lru_eq_none (hhigh : HighClear a.evictmap) : a.lru = none := by
  have hall : a.evictmap ≠ BitVec.allOnes ways := by
    obtain ⟨v, -, hclear⟩ := hhigh
    intro hall
    rw [hall, BitVec.getLsbD_allOnes] at hclear
    simp at hclear
  rw [lru, if_neg hall, lsbChecked, if_neg fun hlt => complement_toNat_lt_iff.1 hlt hhigh]

end Victim

/-! ### The operations -/

section Operations

variable {a : FullyAssociativeTags T ways} {target : T} {mru : Option (Fin ways)}

omit [DecidableEq T] [InvalidTag T] in
theorem bitSet_setBit {tags : Fin ways → T} {w : Fin ways} {b : Bool} : a.BitSet ⟨setBit a.evictmap w b, tags⟩ w b := by
  intro v
  rw [getLsbD_setBit w.isLt]
  exact if_congr Fin.ext_iff.symm rfl rfl

omit [DecidableEq T] [InvalidTag T] in
/-- Of a bit set twice the second time counts. -/
theorem BitSet.trans {a' a'' : FullyAssociativeTags T ways} {w : Fin ways} {b b' : Bool} (h : a.BitSet a' w b)
    (h' : a'.BitSet a'' w b') : a.BitSet a'' w b' := by
  intro v
  rw [h' v, h v]
  split <;> rfl

omit [InvalidTag T] in
/-- A miss with a clear way from 64 on throws. -/
theorem select_throws (hmiss : a.probe target = some (-1, a)) (hhigh : HighClear a.evictmap) : a.select target = none := by
  rw [select, hmiss]
  simp [lru_eq_none hhigh]

omit [InvalidTag T] in
/-- Any other miss replaces the tag of the first way with a clear bit, or of way 0. -/
theorem select_of_miss (hways : 0 < ways) (hmiss : a.probe target = some (-1, a)) (hlow : ¬ HighClear a.evictmap) :
    ∃ (w : Fin ways) (map : BitVec ways), a.VictimRight ⟨setBit map w true, Function.update a.tags w target⟩ w ∧
      a.select target =
        some (((w : ℕ) : ℤ), some (a.tags w), ⟨setBit map w true, Function.update a.tags w target⟩) := by
  obtain ⟨w, hlru, hvictim⟩ := lru_eq_some hways hlow
  refine ⟨w, if a.evictmap = BitVec.allOnes ways then 0 else a.evictmap, ?_, ?_⟩
  · unfold VictimRight
    rcases hvictim with ⟨hall, hzero⟩ | ⟨hsome, hclear, hfirst⟩
    · rw [if_pos hall, if_pos hall]
      refine ⟨hzero, fun v => ?_⟩
      rw [getLsbD_setBit w.isLt]
      by_cases hv : v = w
      · simp [hv]
      · rw [if_neg fun heq => hv (Fin.ext heq), decide_eq_false hv]
        exact BitVec.getLsbD_zero
    · rw [if_neg hsome, if_neg hsome]
      exact ⟨hclear, hfirst, bitSet_setBit⟩
  · rw [select, hmiss]
    simp [hlru, use]

omit [InvalidTag T] in
/-- A hit uses its way twice. -/
theorem select_of_hit {w : Fin ways} (hprobe : a.probe target = some (((w : ℕ) : ℤ), a.use w)) :
    a.select target = some (((w : ℕ) : ℤ), none, (a.use w).use w) := by
  have hnonneg : ¬ ((w : ℕ) : ℤ) < 0 := by omega
  rw [select, hprobe]
  simp [hnonneg]

theorem invalidate_of_miss (hmiss : a.probe target = some (-1, a)) : a.invalidate target = some (-1, a) := by
  rw [invalidate, hmiss]
  simp

theorem invalidate_of_hit {w : Fin ways} (hprobe : a.probe target = some (((w : ℕ) : ℤ), a.use w)) :
    a.invalidate target = some (((w : ℕ) : ℤ), (a.use w).invalidateWay w) := by
  have hnonneg : ¬ ((w : ℕ) : ℤ) < 0 := by omega
  rw [invalidate, hprobe]
  simp [hnonneg]

omit [DecidableEq T] in
/-- A new tag in one way keeps the tags apart where no other way holds it. -/
theorem Unique.update {map : BitVec ways} {w : Fin ways} (h : a.Unique)
    (hfresh : target ≠ INVALID → ∀ w', w' ≠ w → a.tags w' ≠ target) :
    Unique ⟨map, Function.update a.tags w target⟩ := by
  intro v v' hvalid heq
  simp only [Function.update_apply] at hvalid heq
  -- of two ways with one tag, neither or both are the new one
  by_cases hv : v = w
  · by_cases hv' : v' = w
    · rw [hv, hv']
    · rw [if_pos hv] at hvalid
      rw [if_pos hv, if_neg hv'] at heq
      exact absurd heq.symm (hfresh hvalid v' hv')
  · by_cases hv' : v' = w
    · rw [if_neg hv] at hvalid
      rw [if_neg hv, if_pos hv'] at heq
      exact absurd heq (hfresh (heq ▸ hvalid) v hv)
    · rw [if_neg hv] at hvalid
      rw [if_neg hv, if_neg hv'] at heq
      exact h v v' hvalid heq

omit [DecidableEq T] in
/-- The bit of a way that was just used is set. -/
theorem marked_setBit {map : BitVec ways} {tags : Fin ways → T} {w : Fin ways} :
    Marked ⟨setBit map w true, tags⟩ (some w) := by
  rintro w' ⟨⟩ -
  rw [getLsbD_setBit w.isLt, if_pos rfl]

omit [DecidableEq T] in
/-- A way that holds nothing need not be marked. -/
theorem Marked.invalidateWay (h : a.Marked mru) (w : Fin ways) : (a.invalidateWay w).Marked mru := by
  intro w' hmru hvalid
  have hne : w' ≠ w := by
    rintro rfl
    exact hvalid (Function.update_self _ _ _)
  have hkept : (a.invalidateWay w).tags w' = a.tags w' := Function.update_of_ne hne _ _
  have hbit := h w' hmru (hkept ▸ hvalid)
  rw [FullyAssociativeTags.invalidateWay, getLsbD_setBit w.isLt, if_neg fun heq => hne (Fin.ext heq)]
  exact hbit

omit [DecidableEq T] in
theorem Unique.invalidateWay (h : a.Unique) (w : Fin ways) : (a.invalidateWay w).Unique :=
  h.update fun hvalid => absurd rfl hvalid

end Operations

/-! ### One operation -/

section Step

variable {a : FullyAssociativeTags T ways} {mru : Option (Fin ways)} {target : Target T}

/-- An operation throws as said, or does what it promises and keeps the invariants. -/
def ExecRight (a : FullyAssociativeTags T ways) (mru : Option (Fin ways)) (op : TagOp T ways) : Prop :=
  match a.exec op with
  | none => a.Throws op
  | some (answer, a') => ¬ a.Throws op ∧ a.StepRight mru answer a' op ∧ a'.Unique ∧ a'.Marked (lastUsed mru op answer)

theorem exec_probe (hunique : a.Unique) (hmarked : a.Marked mru) : a.ExecRight mru (.probe target) := by
  have hright := hunique.matchRight target.2
  obtain ⟨w, hw, -, hprobe⟩ | ⟨hmiss, hprobe⟩ := hright.probe
  · have hmatch : a.matchTag target.1 = (w : ℕ) := by
      obtain ⟨v, hv, honly, hmatch⟩ | ⟨hmiss, -⟩ := hright
      · rw [hmatch, honly w hw]
      · exact absurd hw (hmiss w)
    simp only [ExecRight, exec, hprobe, Option.map_some]
    refine ⟨id, ⟨by rw [hmatch], rfl, .inl ⟨w, hw, bitSet_setBit⟩⟩, hunique, ?_⟩
    simp only [lastUsed, slot_cast, Option.some_or]
    exact marked_setBit
  · simp only [ExecRight, exec, hprobe, Option.map_some]
    refine ⟨id, ⟨by rw [matchTag_of_miss hmiss], rfl, .inr ⟨hmiss, rfl⟩⟩, hunique, ?_⟩
    exact hmarked

theorem exec_select (hways : 0 < ways) (hunique : a.Unique) (hmarked : a.Marked mru) : a.ExecRight mru (.select target) := by
  obtain ⟨w, hw, -, hprobe⟩ | ⟨hmiss, hprobe⟩ := (hunique.matchRight target.2).probe
  · simp only [ExecRight, exec, select_of_hit hprobe, Option.map_some]
    refine ⟨fun hthrows => hthrows.1 w hw, ⟨w, rfl, hw, fun _ _ => rfl,
      .inl ⟨hw, rfl, bitSet_setBit.trans bitSet_setBit⟩⟩, hunique, ?_⟩
    simp only [lastUsed, slot_cast, Option.some_or]
    exact marked_setBit
  · by_cases hhigh : HighClear a.evictmap
    · simp only [ExecRight, exec, select_throws hprobe hhigh, Option.map_none]
      exact ⟨hmiss, hhigh⟩
    · obtain ⟨w, map, hvictim, hselect⟩ := select_of_miss hways hprobe hhigh
      simp only [ExecRight, exec, hselect, Option.map_some]
      refine ⟨fun hthrows => hhigh hthrows.2, ⟨w, rfl, Function.update_self _ _ _, fun w' hne => Function.update_of_ne hne _ _,
        .inr ⟨hmiss, rfl, hvictim, ?_⟩⟩, hunique.update fun _ w' _ => hmiss w', ?_⟩
      · -- a way with a clear bit was not used last, or holds nothing
        intro hmru hvalid
        by_contra hsome
        rw [VictimRight, if_neg hsome, hmarked w hmru hvalid] at hvictim
        cases hvictim.1
      · simp only [lastUsed, slot_cast, Option.some_or]
        exact marked_setBit

theorem exec_invalidate (hunique : a.Unique) (hmarked : a.Marked mru) : a.ExecRight mru (.invalidate target) := by
  obtain ⟨w, hw, honly, hprobe⟩ | ⟨hmiss, hprobe⟩ := (hunique.matchRight target.2).probe
  · simp only [ExecRight, exec, invalidate_of_hit hprobe, Option.map_some]
    refine ⟨id, ⟨by rw [matchTag_of_hit hw honly], ?_, .inl ⟨w, hw, bitSet_setBit.trans bitSet_setBit⟩⟩,
      Unique.invalidateWay hunique w, ?_⟩
    · intro v
      by_cases hv : v = w
      · rw [hv, if_pos hw]
        exact Function.update_self _ _ _
      · rw [if_neg fun h => hv (honly v h)]
        exact Function.update_of_ne hv _ _
    · simp only [lastUsed, slot_cast, Option.some_or]
      exact Marked.invalidateWay marked_setBit w
  · simp only [ExecRight, exec, invalidate_of_miss hprobe, Option.map_some]
    refine ⟨id, ⟨by rw [matchTag_of_miss hmiss], fun w => by rw [if_neg (hmiss w)], .inr ⟨hmiss, rfl⟩⟩, hunique, ?_⟩
    exact hmarked

theorem exec_right (hways : 0 < ways) (hunique : a.Unique) (hmarked : a.Marked mru) (op : TagOp T ways) : a.ExecRight mru op := by
  cases op with
  | reset =>
    refine ⟨id, ⟨fun _ => rfl, rfl⟩, fun w w' hvalid => absurd rfl hvalid, ?_⟩
    rintro w ⟨⟩
  | use way => exact ⟨id, ⟨rfl, bitSet_setBit⟩, hunique, marked_setBit⟩
  | probe target => exact exec_probe hunique hmarked
  | select target => exact exec_select hways hunique hmarked
  | invalidate target => exact exec_invalidate hunique hmarked
  | invalidateWay way =>
    exact ⟨id, ⟨Function.update_self _ _ _, fun w hne => Function.update_of_ne hne _ _, bitSet_setBit⟩,
      hunique.invalidateWay way, hmarked.invalidateWay way⟩

theorem run_right (hways : 0 < ways) (hunique : a.Unique) (hmarked : a.Marked mru) (ops : List (TagOp T ways)) :
    RunRight a mru ops := by
  induction ops generalizing a mru with
  | nil => exact ⟨hunique, fun target => hunique.matchRight target.2⟩
  | cons op ops ih =>
    refine ⟨⟨hunique, fun target => hunique.matchRight target.2⟩, ?_⟩
    have hexec := exec_right hways hunique hmarked op
    unfold ExecRight at hexec
    cases hres : a.exec op with
    | none =>
      rw [hres] at hexec
      exact ⟨hexec, ih hunique hmarked⟩
    | some res =>
      rw [hres] at hexec
      obtain ⟨hanswers, hstep, hunique', hmarked'⟩ := hexec
      exact ⟨hanswers, hstep, ih hunique' hmarked'⟩

end Step

/-! ### Runs from a reset -/

/-- **Valid tags stand once and are found, and `select` replaces the tag it reports**: from a reset, in every
run. The way used last loses a valid tag only when every bit is set, and the MRU bits are then reset. -/
theorem tags_run (hways : 0 < ways) (ops : List (TagOp T ways)) : RunRight (reset : FullyAssociativeTags T ways) none ops := by
  refine run_right hways (fun w w' hvalid => absurd rfl hvalid) ?_ ops
  rintro w ⟨⟩

/-- Bytes as tags, as in `InvalidTag<W8>`. -/
instance : InvalidTag (BitVec 8) := ⟨0xff⟩

/-- Two ways are filled, the MRU bits are reset for a third line, and a line is found and dropped. -/
theorem tags_run_two :
    0 < 2 ∧ RunRight (reset : FullyAssociativeTags (BitVec 8) 2) none
      [.select ⟨1, by decide⟩, .select ⟨2, by decide⟩, .probe ⟨1, by decide⟩, .select ⟨3, by decide⟩,
        .invalidate ⟨2, by decide⟩, .use 1, .invalidateWay 0, .reset] :=
  ⟨by decide, tags_run (by decide) _⟩

/-- Two lines fill two ways; the first is used again and then evicted for the third. -/
theorem select_evicts_lastUsed :
    ∃ (a b c : FullyAssociativeTags (BitVec 8) 2) (way : ℤ) (oldtag : Option (BitVec 8)),
      (((reset.select 1).bind fun x => x.2.2.select 2).map fun x => x.2.2) = some a ∧ a.probe 1 = some (0, b) ∧
        b.select 3 = some (way, oldtag, c) ∧ way = 0 ∧ oldtag = some 1 ∧ b.tags 0 = 1 :=
  ⟨_, _, _, _, _, rfl, rfl, rfl, rfl, rfl, rfl⟩

end FullyAssociativeTags
end X86Sim.Ooo
