import X86Sim.Uop

/-!
# The return address stack (`branchpred.cpp`, `logic.h`)

A queue in a ring of `SIZE` slots, used as a stack at its tail, with one slot always free.
Calls and returns change it when they are fetched, and save the entry they replace; the
branches of a wrong path are annulled youngest first.

* `annul_fetch`: what a call or return saves undoes it, unless the stack was full or empty.
* `restored_iff`: when the annulled branches leave the stack as it was before them.
* `predictions_congr`: later predictions see the entries of the stack, and nothing else.
-/

namespace X86Sim

/-- `add_index_modulo`. -/
def addIndexModulo (index increment : ℤ) (bufsize : ℕ) : ℤ :=
  let index := index + increment
  let index := if index < 0 then index + bufsize else index
  if index ≥ bufsize then index - bufsize else index

/-- `FixedQueue`. -/
structure FixedQueue (T : Type) (SIZE : ℕ) where
  slots : ℤ → T
  head : ℤ
  tail : ℤ
  count : ℤ

namespace FixedQueue

variable {T : Type} {SIZE : ℕ} (q : FixedQueue T SIZE)

def remaining : ℤ := max (SIZE - q.count - 1) 0

def empty : Bool := q.count == 0

def full : Bool := q.remaining == 0

/-- `alloc`, also `push`: the slot, if there is one. -/
def alloc : Option ℤ × FixedQueue T SIZE :=
  if q.remaining = 0 then (none, q)
  else (some q.tail, { q with tail := addIndexModulo q.tail 1 SIZE, count := q.count + 1 })

def pop : Option ℤ × FixedQueue T SIZE :=
  if q.empty then (none, q)
  else
    let tail := addIndexModulo q.tail (-1) SIZE
    (some tail, { q with tail := tail, count := q.count - 1 })

def pophead : Option ℤ × FixedQueue T SIZE :=
  if q.empty then (none, q)
  else (some q.head, { q with head := addIndexModulo q.head 1 SIZE, count := q.count - 1 })

def peektail : Option ℤ := if q.empty then none else some (addIndexModulo q.tail (-1) SIZE)

end FixedQueue

structure ReturnAddressStackEntry where
  idx : ℤ
  uuid : BitVec 32
  rip : W64
  deriving DecidableEq

def BRANCH_HINT_CALL : BitVec 8 := 1 <<< 2
def BRANCH_HINT_RET : BitVec 8 := 1 <<< 3

/-- The fields of `PredictorUpdate` that concern the stack. -/
structure PredictorUpdate where
  uuid : W64
  flags : BitVec 8
  rasPush : Bool
  rasOld : ReturnAddressStackEntry

def PredictorUpdate.isRet (p : PredictorUpdate) : Bool := p.flags &&& BRANCH_HINT_RET != 0

def PredictorUpdate.isCall (p : PredictorUpdate) : Bool := p.flags &&& BRANCH_HINT_CALL != 0

abbrev ReturnAddressStack (SIZE : ℕ) := FixedQueue ReturnAddressStackEntry SIZE

namespace ReturnAddressStack

variable {SIZE : ℕ}

/-- `reset` gives every slot its index, and leaves the rest of it. -/
def reset (q : ReturnAddressStack SIZE) : ReturnAddressStack SIZE :=
  { slots := fun i => { q.slots i with idx := i }, head := 0, tail := 0, count := 0 }

/-- A slot gets a number and an address. -/
def store (q : ReturnAddressStack SIZE) (i : ℤ) (uuid : BitVec 32) (rip : W64) : ReturnAddressStack SIZE :=
  { q with slots := Function.update q.slots i { q.slots i with uuid := uuid, rip := rip } }

/-- `push`, and the entry it replaces; none where the assertion fails. -/
def push (q : ReturnAddressStack SIZE) (uuid rip : W64) : Option (ReturnAddressStack SIZE × ReturnAddressStackEntry) :=
  let q := if q.full then q.pophead.2 else q
  match q.alloc with
  | (none, _) => none
  | (some i, q) => some (store q i (uuid.setWidth 32) rip, q.slots i)

/-- `pop`, and the entry it takes. -/
def pop (q : ReturnAddressStack SIZE) : ReturnAddressStack SIZE × ReturnAddressStackEntry :=
  match FixedQueue.pop q with
  | (none, q) => (q, ⟨-1, 0, 0⟩)
  | (some i, q) => (q, q.slots i)

def peek (q : ReturnAddressStack SIZE) : W64 :=
  match q.peektail with
  | none => 0
  | some i => (q.slots i).rip

/-- `annulpush`. A build with assertions stops where one fails. -/
def annulpush (asserts : Bool) (q : ReturnAddressStack SIZE) (old : ReturnAddressStackEntry) :
    Option (ReturnAddressStack SIZE) :=
  match q.peektail with
  | none => some q
  | some i =>
    let q' := (pop (store q i old.uuid old.rip)).1
    if asserts && (q.slots i).idx != q'.tail then none else some q'

def annulpop (asserts : Bool) (q : ReturnAddressStack SIZE) (old : ReturnAddressStackEntry) :
    Option (ReturnAddressStack SIZE) :=
  if q.full then some q
  else if asserts && old.idx != q.tail then none
  else (push q (old.uuid.setWidth 64) old.rip).map Prod.fst

def updateras (q : ReturnAddressStack SIZE) (predinfo : PredictorUpdate) (rip : W64) :
    Option (ReturnAddressStack SIZE × PredictorUpdate) :=
  if predinfo.isRet then
    let r := pop q
    some (r.1, { predinfo with rasPush := false, rasOld := r.2 })
  else if predinfo.isCall then
    (push q predinfo.uuid rip).map fun r => (r.1, { predinfo with rasPush := true, rasOld := r.2 })
  else some (q, predinfo)

def annulras (asserts : Bool) (q : ReturnAddressStack SIZE) (predinfo : PredictorUpdate) :
    Option (ReturnAddressStack SIZE) :=
  if predinfo.rasPush then annulpush asserts q predinfo.rasOld else annulpop asserts q predinfo.rasOld

/-- A branch is fetched: calls and returns go to `updateras`. -/
def fetchBranch (q : ReturnAddressStack SIZE) (b : PredictorUpdate × W64) :
    Option (ReturnAddressStack SIZE × PredictorUpdate) :=
  if b.1.isCall || b.1.isRet then updateras q b.1 b.2 else some (q, b.1)

/-- A branch is annulled, in the fetch queue or in the reorder buffer. -/
def annulBranch (asserts : Bool) (q : ReturnAddressStack SIZE) (p : PredictorUpdate) : Option (ReturnAddressStack SIZE) :=
  if p.isCall || p.isRet then annulras asserts q p else some q

/-- Branches fetched in order, and what they keep, the youngest first. -/
def fetchAll (q : ReturnAddressStack SIZE) :
    List (PredictorUpdate × W64) → Option (ReturnAddressStack SIZE × List PredictorUpdate)
  | [] => some (q, [])
  | b :: bs => (fetchBranch q b).bind fun r => (fetchAll r.1 bs).map fun r' => (r'.1, r'.2 ++ [r.2])

/-- Branches annulled, the youngest first. -/
def annulAll (asserts : Bool) (q : ReturnAddressStack SIZE) : List PredictorUpdate → Option (ReturnAddressStack SIZE)
  | [] => some q
  | p :: ps => (annulBranch asserts q p).bind fun q => annulAll asserts q ps

/-- The slot `depth` places below the top. -/
def slotBelow (q : ReturnAddressStack SIZE) (depth : ℕ) : ℤ :=
  let i := q.tail - 1 - depth
  if i < 0 then i + SIZE else i

/-- The entries in the order in which they are popped. -/
def seen (q : ReturnAddressStack SIZE) : List (BitVec 32 × W64) :=
  (List.range q.count.toNat).map fun d => ((q.slots (q.slotBelow d)).uuid, (q.slots (q.slotBelow d)).rip)

/-- The states of the stack in a run. -/
inductive Reachable (asserts : Bool) : ReturnAddressStack SIZE → Prop
  | reset (q : ReturnAddressStack SIZE) : Reachable asserts q.reset
  | fetch {q q' : ReturnAddressStack SIZE} {b : PredictorUpdate × W64} {p : PredictorUpdate} (h : Reachable asserts q)
      (hf : fetchBranch q b = some (q', p)) : Reachable asserts q'
  | annul {q q' : ReturnAddressStack SIZE} {p : PredictorUpdate} (h : Reachable asserts q)
      (ha : annulBranch asserts q p = some q') : Reachable asserts q'

/-! ### The ring -/

/-- The indices are those of a ring, one slot is free, and each slot knows its index. -/
structure Ring (q : ReturnAddressStack SIZE) : Prop where
  tail_nonneg : 0 ≤ q.tail
  tail_lt : q.tail < SIZE
  head_nonneg : 0 ≤ q.head
  head_lt : q.head < SIZE
  occupied : q.head + q.count = q.tail ∨ q.head + q.count = q.tail + SIZE
  count_nonneg : 0 ≤ q.count
  count_lt : q.count < SIZE
  index : ∀ i : ℤ, 0 ≤ i → i < SIZE → (q.slots i).idx = i

variable {asserts : Bool} {q q' : ReturnAddressStack SIZE} {p : PredictorUpdate} {b : PredictorUpdate × W64}

theorem addIndexModulo_one {i : ℤ} (h : 0 ≤ i) : addIndexModulo i 1 SIZE = if i + 1 < SIZE then i + 1 else i + 1 - SIZE := by
  simp only [addIndexModulo]
  split <;> split <;> split <;> omega

theorem addIndexModulo_neg_one {i : ℤ} (h : 0 ≤ i) (hi : i < SIZE) :
    addIndexModulo i (-1) SIZE = if 0 < i then i - 1 else i - 1 + SIZE := by
  simp only [addIndexModulo]
  split <;> split <;> split <;> omega

theorem full_iff (hq : q.Ring) : q.full = true ↔ q.count = SIZE - 1 := by
  have hlt := hq.count_lt
  simp only [FixedQueue.full, FixedQueue.remaining, beq_iff_eq]
  omega

theorem empty_iff : q.empty = true ↔ q.count = 0 := by simp only [FixedQueue.empty, beq_iff_eq]

theorem ring_reset (q : ReturnAddressStack SIZE) (hsize : 2 ≤ SIZE) : q.reset.Ring := by
  refine ⟨?_, ?_, ?_, ?_, ?_, ?_, ?_, fun _ _ _ => rfl⟩ <;> simp only [reset] <;> omega

/-- A change of what a slot holds keeps the ring. -/
theorem Ring.store (hq : q.Ring) (i : ℤ) (uuid : BitVec 32) (rip : W64) : (q.store i uuid rip).Ring := by
  refine ⟨hq.tail_nonneg, hq.tail_lt, hq.head_nonneg, hq.head_lt, hq.occupied, hq.count_nonneg, hq.count_lt, ?_⟩
  intro j hj hlt
  have hidx := hq.index j hj hlt
  by_cases h : j = i
  · subst h
    simpa [ReturnAddressStack.store] using hidx
  · simpa [ReturnAddressStack.store, h] using hidx

/-- What a push does. -/
structure Pushes (q q' : ReturnAddressStack SIZE) (uuid rip : W64) : Prop where
  slots : q'.slots = Function.update q.slots q.tail { q.slots q.tail with uuid := uuid.setWidth 32, rip := rip }
  tail : q'.tail = addIndexModulo q.tail 1 SIZE
  head : q.count < SIZE - 1 → q'.head = q.head
  count : q'.count = min (q.count + 1) (SIZE - 1)
  ring : q'.Ring

theorem push_eq (q : ReturnAddressStack SIZE) (uuid rip : W64) : q.push uuid rip =
    match (if q.full then q.pophead.2 else q).alloc with
    | (none, _) => none
    | (some i, q) => some (store q i (uuid.setWidth 32) rip, q.slots i) := by
  delta push
  rfl

theorem push_spec (hq : q.Ring) (hsize : 2 ≤ SIZE) (uuid rip : W64) :
    ∃ q', q.push uuid rip = some (q', q.slots q.tail) ∧ Pushes q q' uuid rip := by
  obtain ⟨htail, htail_lt, hhead, hhead_lt, hocc, hcount, hcount_lt, hidx⟩ := hq
  have hnext := @addIndexModulo_one SIZE q.tail htail
  have hnexthead := @addIndexModulo_one SIZE q.head hhead
  by_cases hfull : q.count = SIZE - 1
  · -- the oldest entry goes first
    have hf : q.full = true := (full_iff ⟨htail, htail_lt, hhead, hhead_lt, hocc, hcount, hcount_lt, hidx⟩).2 hfull
    have he : q.empty = false := by
      rw [Bool.eq_false_iff, ne_eq, empty_iff]
      omega
    have hroom : ¬ max ((SIZE : ℤ) - (q.count - 1) - 1) 0 = 0 := by omega
    refine ⟨store { q with
        head := addIndexModulo q.head 1 SIZE
        tail := addIndexModulo q.tail 1 SIZE
        count := q.count - 1 + 1 } q.tail (uuid.setWidth 32) rip, ?_, ?_⟩
    · simp only [push_eq, hf, if_true, FixedQueue.pophead, he, Bool.false_eq_true, if_false, FixedQueue.alloc,
        FixedQueue.remaining, hroom]
    · refine ⟨rfl, rfl, fun h => absurd hfull (by omega), by dsimp only [store]; omega, Ring.store ?_ _ _ _⟩
      refine ⟨?_, ?_, ?_, ?_, ?_, ?_, ?_, hidx⟩
      all_goals dsimp only
      all_goals split at hnext <;> split at hnexthead <;> omega
  · have hf : q.full = false := by
      rw [Bool.eq_false_iff, ne_eq, full_iff ⟨htail, htail_lt, hhead, hhead_lt, hocc, hcount, hcount_lt, hidx⟩]
      exact hfull
    have hroom : ¬ max ((SIZE : ℤ) - q.count - 1) 0 = 0 := by omega
    refine ⟨store { q with
        tail := addIndexModulo q.tail 1 SIZE
        count := q.count + 1 } q.tail (uuid.setWidth 32) rip, ?_, ?_⟩
    · simp only [push_eq, hf, Bool.false_eq_true, if_false, FixedQueue.alloc, FixedQueue.remaining, hroom]
    · refine ⟨rfl, rfl, fun _ => rfl, by dsimp only [store]; omega, Ring.store ?_ _ _ _⟩
      refine ⟨?_, ?_, hhead, hhead_lt, ?_, ?_, ?_, hidx⟩
      all_goals dsimp only
      all_goals split at hnext <;> omega

theorem pop_of_empty (h : q.count = 0) : q.pop = (q, ⟨-1, 0, 0⟩) := by
  simp only [pop, FixedQueue.pop, empty_iff.2 h, if_true]

/-- What a pop of an occupied slot does. -/
theorem pop_spec (hq : q.Ring) (h : 0 < q.count) :
    q.pop = ({ q with tail := addIndexModulo q.tail (-1) SIZE, count := q.count - 1 },
      q.slots (addIndexModulo q.tail (-1) SIZE)) ∧ q.pop.1.Ring := by
  have he : q.empty = false := by
    rw [Bool.eq_false_iff, ne_eq, empty_iff]
    omega
  have heq : q.pop = ({ q with tail := addIndexModulo q.tail (-1) SIZE, count := q.count - 1 },
      q.slots (addIndexModulo q.tail (-1) SIZE)) := by
    simp only [pop, FixedQueue.pop, he, Bool.false_eq_true, if_false]
  refine ⟨heq, ?_⟩
  rw [heq]
  obtain ⟨htail, htail_lt, hhead, hhead_lt, hocc, hcount, hcount_lt, hidx⟩ := hq
  have hprev := addIndexModulo_neg_one htail htail_lt
  refine ⟨?_, ?_, hhead, hhead_lt, ?_, ?_, ?_, hidx⟩
  all_goals dsimp only
  all_goals split at hprev <;> omega

theorem pop_ring (hq : q.Ring) : q.pop.1.Ring := by
  have hcount := hq.count_nonneg
  rcases Int.lt_or_eq_of_le hcount with h | h
  · exact (pop_spec hq h).2
  · rw [pop_of_empty h.symm]
    exact hq

theorem next_prev {i : ℤ} (h : 0 ≤ i) (hi : i < SIZE) : addIndexModulo (addIndexModulo i (-1) SIZE) 1 SIZE = i := by
  have hprev := addIndexModulo_neg_one h hi
  rw [addIndexModulo_one (by split at hprev <;> omega)]
  split at hprev <;> split <;> omega

theorem prev_next {i : ℤ} (h : 0 ≤ i) (hi : i < SIZE) : addIndexModulo (addIndexModulo i 1 SIZE) (-1) SIZE = i := by
  have hnext := @addIndexModulo_one SIZE i h
  rw [addIndexModulo_neg_one (by split at hnext <;> omega) (by split at hnext <;> omega)]
  split at hnext <;> split <;> omega

/-! ### Annulment -/

/-- An annulled push takes a slot, if there is one. -/
theorem annulpush_spec (hq : q.Ring) (old : ReturnAddressStackEntry) :
    (q.count = 0 ∧ annulpush asserts q old = some q) ∨
      (0 < q.count ∧ ∃ q', annulpush asserts q old = some q' ∧ q'.Ring ∧ q'.head = q.head ∧ q'.count = q.count - 1 ∧
        q'.tail = addIndexModulo q.tail (-1) SIZE ∧
        q'.slots = Function.update q.slots q'.tail { q.slots q'.tail with uuid := old.uuid, rip := old.rip }) := by
  rcases Int.lt_or_eq_of_le hq.count_nonneg with h | h
  · right
    have he : q.empty = false := by
      rw [Bool.eq_false_iff, ne_eq, empty_iff]
      omega
    set i := addIndexModulo q.tail (-1) SIZE with hi
    have hring := hq.store i old.uuid old.rip
    obtain ⟨hpop, hpopring⟩ := pop_spec hring h
    have hprev := addIndexModulo_neg_one hq.tail_nonneg hq.tail_lt
    have htail := hq.tail_nonneg
    have hlt := hq.tail_lt
    have hidx : (q.slots i).idx = i := hq.index i (by split at hprev <;> omega) (by split at hprev <;> omega)
    rw [hpop] at hpopring
    have hsame : (q.store i old.uuid old.rip).tail = q.tail := rfl
    refine ⟨h, _, ?_, hpopring, rfl, rfl, rfl, rfl⟩
    rw [annulpush, FixedQueue.peektail, he]
    simp only [Bool.false_eq_true, if_false, ← hi, hpop, hidx, hsame, bne_self_eq_false, Bool.and_false]
  · left
    refine ⟨h.symm, ?_⟩
    rw [annulpush, FixedQueue.peektail, empty_iff.2 h.symm]
    rfl

theorem annulpop_ring (hq : q.Ring) (hsize : 2 ≤ SIZE) (old : ReturnAddressStackEntry)
    (h : annulpop asserts q old = some q') : q'.Ring ∧ (q.count = SIZE - 1 ∧ q' = q ∨ 0 < q'.count) := by
  rw [annulpop] at h
  split at h
  · rename_i hfull
    obtain rfl := Option.some.inj h
    exact ⟨hq, .inl ⟨(full_iff hq).1 hfull, rfl⟩⟩
  · split at h
    · cases h
    · obtain ⟨q1, hpush, hp⟩ := push_spec hq hsize (old.uuid.setWidth 64) old.rip
      rw [hpush] at h
      obtain rfl := Option.some.inj h
      have hcount := hp.count
      have hnonneg := hq.count_nonneg
      exact ⟨hp.ring, .inr (by dsimp only; omega)⟩

theorem annulBranch_ring (hq : q.Ring) (hsize : 2 ≤ SIZE) (h : annulBranch asserts q p = some q') : q'.Ring := by
  rw [annulBranch] at h
  split at h
  · rw [annulras] at h
    split at h
    · rcases annulpush_spec hq p.rasOld with ⟨-, heq⟩ | ⟨-, q1, heq, hring, -⟩
      · rw [heq] at h
        obtain rfl := Option.some.inj h
        exact hq
      · rw [heq] at h
        obtain rfl := Option.some.inj h
        exact hring
    · exact (annulpop_ring hq hsize _ h).1
  · obtain rfl := Option.some.inj h
    exact hq

private theorem stack_ext {q q' : ReturnAddressStack SIZE} (hslots : q'.slots = q.slots) (hhead : q'.head = q.head)
    (htail : q'.tail = q.tail) (hcount : q'.count = q.count) : q' = q := by
  cases q
  cases q'
  simp_all

/-- What fetching a branch does, and when what it saves undoes it. -/
inductive Fetched (asserts : Bool) (q q' : ReturnAddressStack SIZE) (b : PredictorUpdate × W64) (p : PredictorUpdate) : Prop
  | ret (hret : b.1.isRet = true) (hpos : 0 < q.count) (hcount : q'.count = q.count - 1)
      (hundo : annulBranch asserts q' p = some q)
  | underflow (hret : b.1.isRet = true) (hempty : q.count = 0)
      (hannul : ∀ q1 : ReturnAddressStack SIZE, annulBranch asserts q1 p = annulpop asserts q1 ⟨-1, 0, 0⟩)
  | call (hret : b.1.isRet = false) (hcall : b.1.isCall = true) (hroom : q.count < SIZE - 1) (hcount : q'.count = q.count + 1)
      (hundo : annulBranch asserts q' p = some q)
  | overflow (hret : b.1.isRet = false) (hcall : b.1.isCall = true) (hfull : q.count = SIZE - 1)
      (hannul : ∀ q1 : ReturnAddressStack SIZE, annulBranch asserts q1 p = annulpush asserts q1 p.rasOld)
  | other (hret : b.1.isRet = false) (hcall : b.1.isCall = false) (hsame : q' = q)
      (hundo : annulBranch asserts q' p = some q)

/-- **A fetched branch**: calls and returns are undone by what they save, unless the stack
was full or empty. -/
theorem annul_fetch (hq : q.Ring) (hsize : 2 ≤ SIZE) (asserts : Bool) (b : PredictorUpdate × W64) :
    ∃ q' p, fetchBranch q b = some (q', p) ∧ q'.Ring ∧ Fetched asserts q q' b p := by
  obtain ⟨pi, rip⟩ := b
  have htail := hq.tail_nonneg
  have hlt := hq.tail_lt
  have hpos := hq.count_nonneg
  have hcountlt := hq.count_lt
  cases hret : pi.isRet with
  | true =>
    have hfetch : fetchBranch q (pi, rip) = some (q.pop.1, { pi with rasPush := false, rasOld := q.pop.2 }) := by
      simp only [fetchBranch, updateras, hret, Bool.or_true, if_true]
    refine ⟨_, _, hfetch, pop_ring hq, ?_⟩
    have hannul : ∀ q' : ReturnAddressStack SIZE,
        annulBranch asserts q' { pi with rasPush := false, rasOld := q.pop.2 } = annulpop asserts q' q.pop.2 := by
      intro q'
      have hret' : PredictorUpdate.isRet { pi with rasPush := false, rasOld := q.pop.2 } = true := hret
      simp only [annulBranch, hret', Bool.or_true, if_true, annulras, Bool.false_eq_true, if_false]
    rcases Int.lt_or_eq_of_le hpos with hp | hp
    · obtain ⟨hpop, hring⟩ := pop_spec hq hp
      have hprev := addIndexModulo_neg_one htail hlt
      rw [hpop] at hannul hring ⊢
      refine .ret hret hp rfl ?_
      rw [hannul]
      set i := addIndexModulo q.tail (-1) SIZE with hi
      have hidx : (q.slots i).idx = i := hq.index i (by split at hprev <;> omega) (by split at hprev <;> omega)
      set q' : ReturnAddressStack SIZE := { q with tail := i, count := q.count - 1 } with hq'
      have hcount : q'.count = q.count - 1 := rfl
      change q'.Ring at hring
      have hroom : q'.full = false := by
        rw [Bool.eq_false_iff, ne_eq, full_iff hring]
        omega
      obtain ⟨q1, hpush, hp1⟩ := push_spec hring hsize ((q.slots i).uuid.setWidth 64) (q.slots i).rip
      rw [annulpop, hroom, hpush]
      have hassert : (asserts && (q.slots i).idx != q'.tail) = false := by
        simp only [hidx, hq', bne_self_eq_false, Bool.and_false]
      simp only [Bool.false_eq_true, if_false, hassert, Option.map_some, Option.some.injEq]
      -- the saved entry goes back to its slot
      apply stack_ext
      · rw [hp1.slots]
        have hwidth : ((q.slots i).uuid.setWidth 64).setWidth 32 = (q.slots i).uuid := by
          apply BitVec.eq_of_toNat_eq
          simp
        rw [hwidth]
        exact Function.update_eq_self i q.slots
      · exact hp1.head (by omega)
      · rw [hp1.tail]
        exact next_prev htail hlt
      · rw [hp1.count]
        omega
    · rw [pop_of_empty hp.symm] at hannul ⊢
      exact .underflow hret hp.symm hannul
  | false =>
    cases hcall : pi.isCall with
    | true =>
      obtain ⟨q', hpush, hp⟩ := push_spec hq hsize pi.uuid rip
      have hfetch : fetchBranch q (pi, rip) = some (q', { pi with rasPush := true, rasOld := q.slots q.tail }) := by
        simp only [fetchBranch, updateras, hret, hcall, Bool.true_or, if_true, Bool.false_eq_true, if_false, hpush, Option.map_some]
      refine ⟨_, _, hfetch, hp.ring, ?_⟩
      have hannul : ∀ q1 : ReturnAddressStack SIZE,
          annulBranch asserts q1 { pi with rasPush := true, rasOld := q.slots q.tail } =
            annulpush asserts q1 (q.slots q.tail) := by
        intro q1
        have hcall' : PredictorUpdate.isCall { pi with rasPush := true, rasOld := q.slots q.tail } = true := hcall
        simp only [annulBranch, hcall', Bool.true_or, if_true, annulras]
      have hcount := hp.count
      by_cases hroom : q.count < SIZE - 1
      · refine .call hret hcall hroom (by omega) ?_
        rw [hannul]
        rcases annulpush_spec hp.ring (q.slots q.tail) with ⟨hzero, -⟩ | ⟨-, q1, heq, -, hh, hc, ht, hs⟩
        · omega
        · rw [heq]
          congr 1
          have hback : q1.tail = q.tail := by
            rw [ht, hp.tail]
            exact prev_next htail hlt
          apply stack_ext
          · rw [hs, hback, hp.slots]
            simp
          · rw [hh, hp.head hroom]
          · exact hback
          · rw [hc]
            omega
      · exact .overflow hret hcall (by omega) hannul
    | false =>
      refine ⟨q, pi, ?_, hq, .other hret hcall rfl ?_⟩
      · simp only [fetchBranch, hret, hcall, Bool.or_self, Bool.false_eq_true, if_false]
      · simp only [annulBranch, hret, hcall, Bool.or_self, Bool.false_eq_true, if_false]

theorem Reachable.ring (h : Reachable asserts q) (hsize : 2 ≤ SIZE) : q.Ring := by
  induction h with
  | reset q => exact ring_reset q hsize
  | fetch h hf ih =>
    obtain ⟨q1, p1, heq, hring, -⟩ := annul_fetch ih hsize asserts _
    rw [heq] at hf
    obtain ⟨rfl, -⟩ := Prod.mk.inj (Option.some.inj hf)
    exact hring
  | annul h ha ih => exact annulBranch_ring ih hsize ha

/-! ### Runs -/

/-- Every call finds a slot that is not in use, and every return an entry. -/
def Fits (SIZE : ℕ) : ℤ → List (PredictorUpdate × W64) → Prop
  | _, [] => True
  | count, b :: bs =>
    if b.1.isRet then 0 < count ∧ Fits SIZE (count - 1) bs
    else if b.1.isCall then count < SIZE - 1 ∧ Fits SIZE (count + 1) bs
    else Fits SIZE count bs

/-- The younger branches are annulled, and the stack is as the older ones left it. -/
def Restored (asserts : Bool) (q : ReturnAddressStack SIZE) (older younger : List (PredictorUpdate × W64)) : Prop :=
  ∃ q1 ps1 q2 ps2 q3, fetchAll q older = some (q1, ps1) ∧ fetchAll q1 younger = some (q2, ps2) ∧
    annulAll asserts q2 ps2 = some q3 ∧ q3.seen = q1.seen

theorem length_seen (hq : q.Ring) : (q.seen.length : ℤ) = q.count := by
  have hcount := hq.count_nonneg
  rw [seen, List.length_map, List.length_range]
  omega

theorem annulAll_append (q : ReturnAddressStack SIZE) (ps ps' : List PredictorUpdate) :
    annulAll asserts q (ps ++ ps') = (annulAll asserts q ps).bind fun q => annulAll asserts q ps' := by
  induction ps generalizing q with
  | nil => rfl
  | cons p ps ih =>
    rw [List.cons_append, annulAll, annulAll, Option.bind_assoc]
    congr 1
    funext q
    exact ih q

theorem annulAll_singleton (q : ReturnAddressStack SIZE) (p : PredictorUpdate) :
    annulAll asserts q [p] = annulBranch asserts q p := by
  rw [annulAll]
  cases annulBranch asserts q p <;> rfl

theorem annulAll_ring {ps : List PredictorUpdate} (hq : q.Ring) (hsize : 2 ≤ SIZE)
    (h : annulAll asserts q ps = some q') : q'.Ring := by
  induction ps generalizing q with
  | nil =>
    obtain rfl := Option.some.inj h
    exact hq
  | cons p ps ih =>
    obtain ⟨q1, h1, h2⟩ := Option.bind_eq_some_iff.1 h
    exact ih (annulBranch_ring hq hsize h1) h2

theorem fetchAll_ring (hq : q.Ring) (hsize : 2 ≤ SIZE) (bs : List (PredictorUpdate × W64)) :
    ∃ q' ps, fetchAll q bs = some (q', ps) ∧ q'.Ring := by
  induction bs generalizing q with
  | nil => exact ⟨q, [], rfl, hq⟩
  | cons b bs ih =>
    obtain ⟨q1, p, hfetch, hring, -⟩ := annul_fetch hq hsize true b
    obtain ⟨q', ps, hrest, hring'⟩ := ih hring
    refine ⟨q', ps ++ [p], ?_, hring'⟩
    rw [fetchAll, hfetch, Option.bind_some, hrest, Option.map_some]

/-- A branch that fits is undone, and the count it leaves is the next one's. -/
theorem Fetched.fits {bs : List (PredictorUpdate × W64)} (hfetched : Fetched asserts q q' b p)
    (hfits : Fits SIZE q.count (b :: bs)) : annulBranch asserts q' p = some q ∧ Fits SIZE q'.count bs := by
  cases hfetched with
  | ret hret hpos hcount hundo =>
    simp only [Fits, hret, if_true] at hfits
    exact ⟨hundo, hcount ▸ hfits.2⟩
  | underflow hret hempty hannul =>
    simp only [Fits, hret, if_true] at hfits
    omega
  | call hret hcall hroom hcount hundo =>
    simp only [Fits, hret, hcall, if_true, Bool.false_eq_true, if_false] at hfits
    exact ⟨hundo, hcount ▸ hfits.2⟩
  | overflow hret hcall hfull hannul =>
    simp only [Fits, hret, hcall, if_true, Bool.false_eq_true, if_false] at hfits
    omega
  | other hret hcall hsame hundo =>
    simp only [Fits, hret, hcall, Bool.false_eq_true, if_false] at hfits
    exact ⟨hundo, hsame ▸ hfits⟩

/-- **A run that fits is undone** to the state it started from. -/
theorem annulAll_fetchAll (hq : q.Ring) (hsize : 2 ≤ SIZE) {bs : List (PredictorUpdate × W64)} (hfits : Fits SIZE q.count bs) :
    ∃ q' ps, fetchAll q bs = some (q', ps) ∧ annulAll asserts q' ps = some q := by
  induction bs generalizing q with
  | nil => exact ⟨q, [], rfl, rfl⟩
  | cons b bs ih =>
    obtain ⟨q1, p, hfetch, hring, hcase⟩ := annul_fetch hq hsize asserts b
    -- the first branch fits, and so do the others
    have hstep := hcase.fits hfits
    obtain ⟨q', ps, hrest, hback⟩ := ih hring hstep.2
    refine ⟨q', ps ++ [p], ?_, ?_⟩
    · rw [fetchAll, hfetch, Option.bind_some, hrest, Option.map_some]
    · rw [annulAll_append, hback, Option.bind_some, annulAll_singleton, hstep.1]

/-- If all suffixes are restored, the branches fit. -/
theorem fits_of_restored (hq : q.Ring) (hsize : 2 ≤ SIZE) {bs : List (PredictorUpdate × W64)}
    (h : ∀ older younger, bs = older ++ younger → Restored asserts q older younger) : Fits SIZE q.count bs := by
  induction bs generalizing q with
  | nil => trivial
  | cons b bs ih =>
    obtain ⟨q1, p, hfetch, hring, hcase⟩ := annul_fetch hq hsize asserts b
    have hrest : Fits SIZE q1.count bs := by
      apply ih hring
      intro older younger heq
      obtain ⟨qa, psa, qb, psb, qc, hold, hrestored⟩ := h (b :: older) younger (by rw [heq, List.cons_append])
      rw [fetchAll, hfetch, Option.bind_some] at hold
      obtain ⟨⟨qd, psd⟩, hd, he⟩ := Option.map_eq_some_iff.1 hold
      obtain ⟨rfl, -⟩ := Prod.mk.inj he
      exact ⟨_, psd, qb, psb, qc, hd, hrestored⟩
    -- annulling everything ends with the first branch, from some state of the ring
    obtain ⟨qa, psa, qb, psb, qc, hold, hyoung, hannul, hseen⟩ := h [] (b :: bs) rfl
    obtain ⟨rfl, -⟩ := Prod.mk.inj (Option.some.inj hold)
    obtain ⟨qd, psd, hd, hdring⟩ := fetchAll_ring hring hsize bs
    rw [fetchAll, hfetch, Option.bind_some, hd, Option.map_some] at hyoung
    obtain ⟨rfl, rfl⟩ := Prod.mk.inj (Option.some.inj hyoung)
    rw [annulAll_append] at hannul
    obtain ⟨qe, hqe, hlast⟩ := Option.bind_eq_some_iff.1 hannul
    rw [annulAll_singleton] at hlast
    have hering := annulAll_ring hdring hsize hqe
    have hcring := annulBranch_ring hering hsize hlast
    have hcount : qc.count = q.count := by
      rw [← length_seen hcring, ← length_seen hq, hseen]
    have htail := hering.tail_nonneg
    have hlt := hering.count_lt
    cases hcase with
    | ret hret hpos hcount1 hundo =>
      simp only [Fits, hret, if_true]
      exact ⟨hpos, hcount1 ▸ hrest⟩
    | underflow hret hempty hback =>
      rw [hback] at hlast
      rcases (annulpop_ring hering hsize _ hlast).2 with ⟨hfull, rfl⟩ | hpos <;> omega
    | call hret hcall hroom hcount1 hundo =>
      simp only [Fits, hret, hcall, if_true, Bool.false_eq_true, if_false]
      exact ⟨hroom, hcount1 ▸ hrest⟩
    | overflow hret hcall hfull hback =>
      rw [hback] at hlast
      rcases annulpush_spec hering p.rasOld with ⟨hzero, heq⟩ | ⟨-, qf, heq, -, -, hless, -⟩
      · rw [heq] at hlast
        obtain rfl := Option.some.inj hlast
        omega
      · rw [heq] at hlast
        obtain rfl := Option.some.inj hlast
        omega
    | other hret hcall hsame hundo =>
      simp only [Fits, hret, hcall, Bool.false_eq_true, if_false]
      exact hsame ▸ hrest

theorem fits_append (hq : q.Ring) (hsize : 2 ≤ SIZE) {older younger : List (PredictorUpdate × W64)}
    (hfits : Fits SIZE q.count (older ++ younger)) :
    ∃ q1 ps1, fetchAll q older = some (q1, ps1) ∧ q1.Ring ∧ Fits SIZE q1.count younger := by
  induction older generalizing q with
  | nil => exact ⟨q, [], rfl, hq, hfits⟩
  | cons b older ih =>
    obtain ⟨q1, p, hfetch, hring, hcase⟩ := annul_fetch hq hsize true b
    have hrest : Fits SIZE q1.count (older ++ younger) := (hcase.fits hfits).2
    obtain ⟨q2, ps, hold, hring2, hyounger⟩ := ih hring hrest
    refine ⟨q2, ps ++ [p], ?_, hring2, hyounger⟩
    rw [fetchAll, hfetch, Option.bind_some, hold, Option.map_some]

/-- **When annulment restores the stack**: every youngest suffix of the branches is undone
exactly when no call of them finds the stack full and no return finds it empty. -/
theorem restored_iff (hsize : 2 ≤ SIZE) (hq : Reachable asserts q) (bs : List (PredictorUpdate × W64)) :
    (∀ older younger, bs = older ++ younger → Restored asserts q older younger) ↔ Fits SIZE q.count bs := by
  have hring := hq.ring hsize
  constructor
  · exact fits_of_restored hring hsize
  · rintro hfits older younger rfl
    obtain ⟨q1, ps1, hold, hring1, hyounger⟩ := fits_append hring hsize hfits
    obtain ⟨q2, ps2, hyoung, hback⟩ := @annulAll_fetchAll SIZE asserts q1 hring1 hsize younger hyounger
    exact ⟨q1, ps1, q2, ps2, q1, hold, hyoung, hback, rfl⟩

/-- The stack after a reset. -/
def start : ReturnAddressStack 1024 := reset ⟨fun _ => ⟨0, 0, 0⟩, 0, 0, 0⟩

def aCall (rip : W64) : PredictorUpdate × W64 := (⟨0, BRANCH_HINT_CALL, false, ⟨0, 0, 0⟩⟩, rip)

def aRet : PredictorUpdate × W64 := (⟨0, BRANCH_HINT_RET, false, ⟨0, 0, 0⟩⟩, 0)

/-- A call and its return on a wrong path. -/
theorem call_ret_restored : Restored true start [aCall 5] [aRet] :=
  (restored_iff (by decide) (.reset _) [aCall 5, aRet]).2 ⟨by decide, by decide, trivial⟩ [aCall 5] [aRet] rfl

/-- A call more than the stack has room for does not fit. -/
theorem fits_calls {count : ℤ} {n : ℕ} (rip : W64) (h : Fits SIZE count (List.replicate n (aCall rip))) (hn : 0 < n) :
    count + n < SIZE := by
  induction n generalizing count with
  | zero => omega
  | succ n ih =>
    rw [List.replicate_succ] at h
    have hkind : (aCall rip).1.isRet = false ∧ (aCall rip).1.isCall = true := by
      constructor <;> simp only [aCall, PredictorUpdate.isRet, PredictorUpdate.isCall] <;> decide
    have hstep : count < SIZE - 1 ∧ Fits SIZE (count + 1) (List.replicate n (aCall rip)) := by
      simpa only [Fits, hkind.1, hkind.2, Bool.false_eq_true, if_false, if_true] using h
    rcases Nat.eq_zero_or_pos n with rfl | hpos
    · omega
    · have hrest := ih hstep.2 hpos
      omega

/-- A chain of 1024 calls pushes its first return address out, and annulling the last call
does not bring it back. -/
theorem not_restored_calls :
    ¬ ∀ older younger, List.replicate 1024 (aCall 5) = older ++ younger → Restored false start older younger := by
  intro h
  have hfits : Fits 1024 start.count (List.replicate 1024 (aCall 5)) :=
    fits_of_restored (ring_reset _ (by decide)) (by decide) h
  have hlt := fits_calls 5 hfits (by decide)
  have hzero : start.count = 0 := rfl
  omega

/-! ### What predictions see -/

/-- The stack without its ring: a call drops the oldest entry if there is no room. -/
def stackStep (SIZE : ℕ) (b : PredictorUpdate × W64) (entries : List (BitVec 32 × W64)) : List (BitVec 32 × W64) :=
  if b.1.isRet then entries.tail
  else if b.1.isCall then ((b.1.uuid.setWidth 32, b.2) :: entries).take (SIZE - 1)
  else entries

/-- The addresses that `predict` gives the returns, each before its own pop. -/
def predictions (q : ReturnAddressStack SIZE) : List (PredictorUpdate × W64) → List W64
  | [] => []
  | b :: bs =>
    (if b.1.isRet then [q.peek] else []) ++
      match fetchBranch q b with
      | none => []
      | some (q', _) => predictions q' bs

theorem slotBelow_zero (hq : q.Ring) : q.slotBelow 0 = addIndexModulo q.tail (-1) SIZE := by
  have htail := hq.tail_nonneg
  simp only [addIndexModulo_neg_one htail hq.tail_lt, slotBelow]
  split <;> split <;> omega

theorem peek_eq (hq : q.Ring) : q.peek = ((q.seen.head?).map Prod.snd).getD 0 := by
  rcases Int.lt_or_eq_of_le hq.count_nonneg with h | h
  · have he : q.empty = false := by
      rw [Bool.eq_false_iff, ne_eq, empty_iff]
      omega
    obtain ⟨n, hn⟩ : ∃ n, q.count.toNat = n + 1 := ⟨q.count.toNat - 1, by omega⟩
    rw [peek, FixedQueue.peektail, he, seen, hn, List.range_succ_eq_map, List.map_cons, List.head?_cons, slotBelow_zero hq]
    rfl
  · rw [peek, FixedQueue.peektail, empty_iff.2 h.symm, seen, ← h]
    rfl

theorem seen_pop (hq : q.Ring) : q.pop.1.seen = q.seen.tail := by
  rcases Int.lt_or_eq_of_le hq.count_nonneg with h | h
  · obtain ⟨n, hn⟩ : ∃ n, q.count.toNat = n + 1 := ⟨q.count.toNat - 1, by omega⟩
    obtain ⟨hpop, -⟩ := pop_spec hq h
    have hless : (q.count - 1).toNat = n := by omega
    have hprev := addIndexModulo_neg_one hq.tail_nonneg hq.tail_lt
    rw [hpop, seen, seen, hn, List.range_succ_eq_map, List.map_cons, List.tail_cons, List.map_map]
    dsimp only
    rw [hless]
    apply List.map_congr_left
    intro d hd
    have hslot : slotBelow ({ q with tail := addIndexModulo q.tail (-1) SIZE, count := q.count - 1 } : ReturnAddressStack SIZE) d =
        q.slotBelow (d + 1) := by
      have hlt := hq.count_lt
      have hd' := List.mem_range.1 hd
      simp only [slotBelow]
      have htail := hq.tail_nonneg
      split at hprev <;> split <;> split <;> omega
    rw [hslot]
    rfl
  · rw [pop_of_empty h.symm, seen, ← h]
    rfl

theorem Pushes.seen {uuid rip : W64} (hq : q.Ring) (hsize : 2 ≤ SIZE) (h : Pushes q q' uuid rip) :
    q'.seen = ((uuid.setWidth 32, rip) :: q.seen).take (SIZE - 1) := by
  have hcount := h.count
  have hnonneg := hq.count_nonneg
  have hlt := hq.count_lt
  have htail := hq.tail_nonneg
  have htail_lt := hq.tail_lt
  have hnext := @addIndexModulo_one SIZE q.tail htail
  rw [← h.tail] at hnext
  apply List.ext_getElem
  · have hlen := length_seen h.ring
    have hold := length_seen hq
    rw [List.length_take, List.length_cons]
    omega
  · intro d hd hd'
    have hlen := length_seen h.ring
    rw [List.getElem_take]
    simp only [ReturnAddressStack.seen, List.getElem_map, List.getElem_range]
    cases d with
    | zero =>
      have hslot : q'.slotBelow 0 = q.tail := by
        simp only [slotBelow]
        split at hnext <;> split <;> omega
      rw [hslot, h.slots]
      simp
    | succ d =>
      have hslot : q'.slotBelow (d + 1) = q.slotBelow d ∧ q.slotBelow d ≠ q.tail := by
        simp only [slotBelow]
        split at hnext <;> split <;> split <;> omega
      rw [hslot.1, h.slots, Function.update_of_ne hslot.2]
      simp

/-- **The ring is a bounded stack** to the branches fetched. -/
theorem seen_fetchBranch (hq : q.Ring) (hsize : 2 ≤ SIZE) (b : PredictorUpdate × W64) :
    ∃ q' p, fetchBranch q b = some (q', p) ∧ q'.Ring ∧ q'.seen = stackStep SIZE b q.seen := by
  obtain ⟨pi, rip⟩ := b
  cases hret : pi.isRet with
  | true =>
    refine ⟨q.pop.1, { pi with rasPush := false, rasOld := q.pop.2 }, ?_, pop_ring hq, ?_⟩
    · simp only [fetchBranch, updateras, hret, Bool.or_true, if_true]
    · simp only [stackStep, hret, if_true, seen_pop hq]
  | false =>
    cases hcall : pi.isCall with
    | true =>
      obtain ⟨q', hpush, hp⟩ := push_spec hq hsize pi.uuid rip
      refine ⟨q', { pi with rasPush := true, rasOld := q.slots q.tail }, ?_, hp.ring, ?_⟩
      · simp only [fetchBranch, updateras, hret, hcall, Bool.true_or, if_true, Bool.false_eq_true, if_false, hpush,
          Option.map_some]
      · simp only [stackStep, hret, hcall, if_true, Bool.false_eq_true, if_false, hp.seen hq hsize]
    | false =>
      refine ⟨q, pi, ?_, hq, ?_⟩
      · simp only [fetchBranch, hret, hcall, Bool.or_self, Bool.false_eq_true, if_false]
      · simp only [stackStep, hret, hcall, Bool.false_eq_true, if_false]

/-- **Later predictions see the entries**, not where the ring has them. -/
theorem predictions_congr (hsize : 2 ≤ SIZE) (hq : q.Ring) (hq' : q'.Ring) (h : q.seen = q'.seen)
    (bs : List (PredictorUpdate × W64)) : q.predictions bs = q'.predictions bs := by
  induction bs generalizing q q' with
  | nil => rfl
  | cons b bs ih =>
    obtain ⟨q1, p, hfetch, hring, hseen⟩ := seen_fetchBranch hq hsize b
    obtain ⟨q1', p', hfetch', hring', hseen'⟩ := seen_fetchBranch hq' hsize b
    have hpeek : q.peek = q'.peek := by rw [peek_eq hq, peek_eq hq', h]
    have hrest := ih hring hring' (by rw [hseen, hseen', h])
    simp only [predictions, hfetch, hfetch', hpeek, hrest]

end ReturnAddressStack
end X86Sim
