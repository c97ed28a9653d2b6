import X86Sim.Lib.CircQueue
import X86Sim.Ooo.ReturnStack

/-!
# Fixed queues as double-ended lists (`logic.h`)

`FixedQueue` with all its operations, and `Queue`, which also prepares its entries, against a
list of the entries with their slots, the oldest first. Head, tail and count are those of a
circular queue over the slots.

* `QueueRight`, `DequeStep`: what a state must be, and what each operation must do to the list.
* `exec_holds`: one operation.
* `fixedQueue_refines`: every run.
-/

namespace X86Sim

namespace FixedQueue

variable {T : Type} {SIZE : ℕ} (q : FixedQueue T SIZE)

/-- `reset`, also `flush`. -/
def reset : FixedQueue T SIZE := { q with head := 0, tail := 0, count := 0 }

/-- `*slot = data`. -/
def assign (i : ℤ) (data : T) : FixedQueue T SIZE := { q with slots := Function.update q.slots i data }

/-- `push` of data, also `enqueue`. -/
def pushData (data : T) : Option ℤ × FixedQueue T SIZE :=
  match q.alloc with
  | (none, q) => (none, q)
  | (some i, q) => (some i, q.assign i data)

/-- `commit`, after its assertion. -/
def commit : FixedQueue T SIZE := { q with count := q.count - 1, head := addIndexModulo q.head 1 SIZE }

def annul : FixedQueue T SIZE := { q with count := q.count - 1, tail := addIndexModulo q.tail (-1) SIZE }

/-- `peek`, also `peekhead`. -/
def peek : Option ℤ := if q.empty then none else some q.head

def dequeue : Option ℤ × FixedQueue T SIZE :=
  if q.empty then (none, q)
  else (some q.head, { q with count := q.count - 1, head := addIndexModulo q.head 1 SIZE })

def pushhead : Option ℤ × FixedQueue T SIZE :=
  if q.full then (none, q)
  else
    let head := addIndexModulo q.head (-1) SIZE
    (some head, { q with head := head, count := q.count + 1 })

/-- `operator()`: the slot of an index. -/
def slotOf (index : ℤ) : ℤ := addIndexModulo q.head index SIZE

/-- `Queue::reset`. -/
def queueReset (init : T → ℤ → T) : FixedQueue T SIZE :=
  { q.reset with slots := fun i => if 0 ≤ i ∧ i < SIZE then init (q.slots i) i else q.slots i }

/-- `Queue::alloc`. -/
def queueAlloc (validate : T → T) : Option ℤ × FixedQueue T SIZE :=
  match q.alloc with
  | (none, q) => (none, q)
  | (some i, q) => (some i, q.assign i (validate (q.slots i)))

end FixedQueue

/-- The operations; `commit` and `annul` have the index of the entry, and `assign` writes
through a pointer to a slot. -/
inductive QueueOp (T : Type)
  | reset
  | queueReset (init : T → ℤ → T)
  | alloc
  | queueAlloc (validate : T → T)
  | push (data : T)
  | pop
  | dequeue
  | commit (index : ℤ)
  | annul (index : ℤ)
  | pushhead
  | pophead
  | peek
  | peektail
  | assign (index : ℤ) (data : T)

namespace FixedQueue

variable {T : Type} {SIZE : ℕ}

/-- The pointer returned, as a slot, and the queue after. No answer where the entry to commit is not
the head, or the entry to annul not the tail. -/
def exec (q : FixedQueue T SIZE) : QueueOp T → Option (Option ℤ × FixedQueue T SIZE)
  | .reset => some (none, q.reset)
  | .queueReset init => some (none, q.queueReset init)
  | .alloc => some q.alloc
  | .queueAlloc validate => some (q.queueAlloc validate)
  | .push data => some (q.pushData data)
  | .pop => some q.pop
  | .dequeue => some q.dequeue
  | .commit index => if q.empty ∨ index ≠ q.head then none else some (none, q.commit)
  | .annul index => if q.empty ∨ index ≠ addIndexModulo q.tail (-1) SIZE then none else some (none, q.annul)
  | .pushhead => some q.pushhead
  | .pophead => some q.pophead
  | .peek => some (q.peek, q)
  | .peektail => some (q.peektail, q)
  | .assign index data => some (none, q.assign index data)

/-! ### The list of entries -/

section Deque

variable (cap : ℕ) (es : List (ℤ × T)) (out : Option ℤ) (es' : List (ℤ × T))

/-- A free slot becomes an entry, in its place in the list, unless there are `cap` entries. -/
def Adds (place : ℤ × T → List (ℤ × T)) (holds : T → Prop) : Prop :=
  if es.length < cap then ∃ s v, s ∉ es.map Prod.fst ∧ holds v ∧ out = some s ∧ es' = place (s, v)
  else out = none ∧ es' = es

def RemovesHead : Prop := (es = [] ∧ out = none ∧ es' = []) ∨ ∃ s v, es = (s, v) :: es' ∧ out = some s

def RemovesTail : Prop := (es = [] ∧ out = none ∧ es' = []) ∨ ∃ s v, es = es' ++ [(s, v)] ∧ out = some s

/-- What an operation does to the entries. -/
def DequeStep : QueueOp T → Prop
  | .reset | .queueReset _ => out = none ∧ es' = []
  | .alloc => Adds cap es out es' (fun e => es ++ [e]) fun _ => True
  | .queueAlloc validate => Adds cap es out es' (fun e => es ++ [e]) fun v => ∃ u, v = validate u
  | .push data => Adds cap es out es' (fun e => es ++ [e]) (· = data)
  | .pushhead => Adds cap es out es' (fun e => e :: es) fun _ => True
  | .pop => RemovesTail es out es'
  | .dequeue | .pophead => RemovesHead es out es'
  | .commit index => out = none ∧ RemovesHead es (some index) es'
  | .annul index => out = none ∧ RemovesTail es (some index) es'
  | .peek => out = (es.map Prod.fst).head? ∧ es' = es
  | .peektail => out = (es.map Prod.fst).getLast? ∧ es' = es
  | .assign index data => out = none ∧ es' = es.map fun e => if e.1 = index then (index, data) else e

/-- The guards of `commit` and `annul`: the entry is at the right end. -/
def Guarded : QueueOp T → Prop
  | .commit index => (es.map Prod.fst).head? = some index
  | .annul index => (es.map Prod.fst).getLast? = some index
  | _ => True

end Deque

/-- The queue has these entries. -/
structure QueueRight (q : FixedQueue T SIZE) (es : List (ℤ × T)) : Prop where
  count : q.count = es.length
  room : es.length ≤ SIZE - 1
  distance : q.count = (q.tail - q.head) % SIZE
  index : ∀ k < es.length, es[k]? = some (q.slotOf k, q.slots (q.slotOf k))
  slots : ∀ e ∈ es, 0 ≤ e.1 ∧ e.1 < SIZE
  distinct : (es.map Prod.fst).Nodup

/-- In every state the queue has the entries of the list, and every operation that keeps its guard does
to the list what it should; it ends where a guard is broken. -/
def RunRefines (q : FixedQueue T SIZE) (es : List (ℤ × T)) : List (QueueOp T) → Prop
  | [] => QueueRight q es
  | op :: ops => QueueRight q es ∧ ((q.exec op).isSome ↔ Guarded es op) ∧
    ∀ out q', q.exec op = some (out, q') → ∃ es', DequeStep (SIZE - 1) es out es' op ∧ RunRefines q' es' ops

/-! ### The ring -/

/-- A queue without slots stays empty. -/
def SlotRing (SIZE : ℕ) (r : CircQueue) : Prop := r.WF SIZE ∨ (SIZE = 0 ∧ r = .empty)

/-- The entries are the slots of the ring, with what they hold. -/
structure Holds (q : FixedQueue T SIZE) (r : CircQueue) (es : List (ℤ × T)) : Prop where
  ring : SlotRing SIZE r
  head : q.head = r.head
  tail : q.tail = r.tail
  count : q.count = r.count
  entries : es = (r.order SIZE).map fun k : ℕ => ((k : ℤ), q.slots k)

theorem addIndexModulo_next (i : ℕ) : addIndexModulo i 1 SIZE = CircQueue.next SIZE i := by
  unfold addIndexModulo CircQueue.next
  dsimp only
  split <;> split <;> split <;> omega

theorem addIndexModulo_prev {i : ℕ} (hi : i < SIZE) : addIndexModulo i (-1) SIZE = CircQueue.prev SIZE i := by
  unfold addIndexModulo CircQueue.prev
  dsimp only
  split <;> split <;> split <;> omega

theorem addIndexModulo_slot (i k : ℕ) : addIndexModulo i k SIZE = CircQueue.slot SIZE i k := by
  unfold addIndexModulo CircQueue.slot
  dsimp only
  split <;> split <;> split <;> omega

namespace SlotRing

variable {r : CircQueue}

theorem length (h : SlotRing SIZE r) : (r.order SIZE).length = r.count := by
  obtain hwf | ⟨rfl, rfl⟩ := h
  · exact hwf.length_order
  · rfl

theorem nodup (h : SlotRing SIZE r) : (r.order SIZE).Nodup := by
  obtain hwf | ⟨rfl, rfl⟩ := h
  · exact hwf.nodup_order
  · exact List.nodup_nil

theorem lt_of_mem (h : SlotRing SIZE r) {k : ℕ} (hk : k ∈ r.order SIZE) : k < SIZE := by
  obtain hwf | ⟨rfl, rfl⟩ := h
  · exact hwf.lt_of_mem hk
  · cases hk

theorem count_le (h : SlotRing SIZE r) : r.count ≤ SIZE - 1 := by
  obtain hwf | ⟨rfl, rfl⟩ := h
  · have hlt := CircQueue.dist_lt hwf.head_lt hwf.tail_lt
    rw [← hwf.count_eq] at hlt
    omega
  · exact Nat.zero_le _

/-- With room left or an entry, there is a slot. -/
theorem wf_of_room (h : SlotRing SIZE r) (hroom : r.count < SIZE - 1) : r.WF SIZE := by
  obtain hwf | ⟨rfl, rfl⟩ := h
  · exact hwf
  · cases hroom

theorem wf_of_ne (h : SlotRing SIZE r) (hne : r.order SIZE ≠ []) : r.WF SIZE := by
  obtain hwf | ⟨rfl, rfl⟩ := h
  · exact hwf
  · exact absurd rfl hne

end SlotRing

namespace Holds

variable {q : FixedQueue T SIZE} {r : CircQueue} {es : List (ℤ × T)}

theorem length (h : Holds q r es) : es.length = r.count := by
  rw [h.entries, List.length_map, h.ring.length]

theorem slots_eq (h : Holds q r es) : es.map Prod.fst = (r.order SIZE).map fun k : ℕ => (k : ℤ) := by
  rw [h.entries, List.map_map]
  rfl

theorem nil_iff (h : Holds q r es) : es = [] ↔ r.order SIZE = [] := by
  rw [h.entries, List.map_eq_nil_iff]

theorem empty_iff (h : Holds q r es) : q.empty = true ↔ es = [] := by
  rw [FixedQueue.empty, beq_iff_eq, h.count, ← List.length_eq_zero_iff, h.length]
  omega

theorem full_iff (h : Holds q r es) : q.remaining = 0 ↔ ¬ es.length < SIZE - 1 := by
  have hle := h.ring.count_le
  rw [FixedQueue.remaining, h.count, h.length]
  omega

/-- With room left there is a slot, and a free one. -/
theorem free_of_room (h : Holds q r es) (hroom : es.length < SIZE - 1) : r.WF SIZE ∧ 0 < r.remaining SIZE := by
  have hle := h.length
  refine ⟨h.ring.wf_of_room (by omega), ?_⟩
  rw [CircQueue.remaining]
  omega

/-- With an entry left, the ring has one, and the count can go down. -/
theorem ring_of_ne (h : Holds q r es) (hne : es ≠ []) :
    r.order SIZE ≠ [] ∧ r.WF SIZE ∧ q.count - 1 = ((r.count - 1 : ℕ) : ℤ) := by
  have hnonempty : r.order SIZE ≠ [] := fun hnil => hne (h.nil_iff.2 hnil)
  refine ⟨hnonempty, h.ring.wf_of_ne hnonempty, ?_⟩
  have hpos : 0 < r.count := by
    rw [← h.length]
    exact List.length_pos_iff.2 hne
  rw [h.count]
  omega

/-- The distance from the head to the tail. -/
theorem distance (h : Holds q r es) : q.count = (q.tail - q.head) % SIZE := by
  rw [h.count, h.tail, h.head]
  obtain hwf | ⟨rfl, rfl⟩ := h.ring
  · have hhead := hwf.head_lt
    have htail := hwf.tail_lt
    rw [hwf.count_eq, CircQueue.dist]
    split
    · rw [Int.emod_eq_of_lt (by omega) (by omega)]
      omega
    · -- the tail has wrapped
      rw [← Int.add_emod_right, Int.emod_eq_of_lt (by omega) (by omega)]
      omega
  · rfl

theorem right (h : Holds q r es) : QueueRight q es := by
  refine ⟨?_, ?_, h.distance, fun k hk => ?_, fun e he => ?_, ?_⟩
  · rw [h.count, h.length]
  · rw [h.length]
    exact h.ring.count_le
  · have hdist : k < CircQueue.dist SIZE r.head r.tail := by
      rwa [h.entries, List.length_map, CircQueue.order, CircQueue.length_forward] at hk
    rw [slotOf, h.head, addIndexModulo_slot, h.entries, List.getElem?_map, CircQueue.order,
      CircQueue.getElem?_forward _ _ _ _ hdist, Option.map_some]
  · rw [h.entries, List.mem_map] at he
    obtain ⟨k, hk, rfl⟩ := he
    have hlt := h.ring.lt_of_mem hk
    dsimp only
    omega
  · rw [h.slots_eq]
    exact h.ring.nodup.map Nat.cast_injective

/-- A write through a pointer. -/
theorem assign (h : Holds q r es) (i : ℤ) (data : T) :
    Holds (q.assign i data) r (es.map fun e => if e.1 = i then (i, data) else e) := by
  refine ⟨h.ring, h.head, h.tail, h.count, ?_⟩
  rw [h.entries, List.map_map]
  refine List.map_congr_left fun k _ => ?_
  by_cases hk : (k : ℤ) = i
  · simp [FixedQueue.assign, hk]
  · simp [FixedQueue.assign, hk]

theorem alloc (h : Holds q r es) (hroom : es.length < SIZE - 1) :
    q.alloc.1 = some q.tail ∧ q.tail ∉ es.map Prod.fst ∧ q.alloc.2.slots = q.slots ∧
      Holds q.alloc.2 (r.alloc SIZE) (es ++ [(q.tail, q.slots q.tail)]) := by
  obtain ⟨hwf, hfree⟩ := h.free_of_room hroom
  have hsome : q.alloc = (some q.tail, { q with tail := addIndexModulo q.tail 1 SIZE, count := q.count + 1 }) := by
    rw [FixedQueue.alloc, if_neg (fun hzero => h.full_iff.1 hzero hroom)]
  rw [hsome]
  -- the slot at the tail is no entry's
  refine ⟨rfl, ?_, rfl, .inl (hwf.alloc hfree), h.head, ?_, ?_, ?_⟩
  · rw [h.slots_eq, h.tail, List.mem_map]
    rintro ⟨k, hk, heq⟩
    rw [Nat.cast_injective heq] at hk
    exact hwf.tail_not_mem hk
  · dsimp only
    rw [h.tail, addIndexModulo_next]
    rfl
  · dsimp only
    rw [h.count]
    rfl
  · rw [hwf.order_alloc hfree, List.map_append, h.entries, h.tail]
    rfl

/-- The slot that was allocated is written. -/
theorem allocWith (h : Holds q r es) (hroom : es.length < SIZE - 1) (data : T) :
    Holds (q.alloc.2.assign q.tail data) (r.alloc SIZE) (es ++ [(q.tail, data)]) := by
  obtain ⟨-, hfresh, -, halloc⟩ := h.alloc hroom
  have hwritten := halloc.assign q.tail data
  have hkeep : es.map (fun e => if e.1 = q.tail then (q.tail, data) else e) = es := by
    conv_rhs => rw [← List.map_id es]
    refine List.map_congr_left fun e he => if_neg ?_
    intro heq
    exact hfresh (heq ▸ List.mem_map_of_mem he)
  rwa [List.map_append, hkeep, List.map_singleton, if_pos rfl] at hwritten

/-- The oldest entry goes. -/
theorem commit (h : Holds q r es) (hne : es ≠ []) :
    es = (q.head, q.slots q.head) :: es.tail ∧ Holds q.commit (r.commit SIZE) es.tail := by
  obtain ⟨hnonempty, hwf, hcount⟩ := h.ring_of_ne hne
  have hcons := hwf.order_cons hnonempty
  have hsplit : es = (q.head, q.slots q.head) :: ((r.commit SIZE).order SIZE).map fun k : ℕ => ((k : ℤ), q.slots k) := by
    rw [h.entries, hcons, List.map_cons, h.head]
  have htail : es.tail = ((r.commit SIZE).order SIZE).map fun k : ℕ => ((k : ℤ), q.slots k) := by
    rw [hsplit, List.tail_cons]
  refine ⟨by rw [htail]; exact hsplit, .inl (hwf.commit hnonempty), ?_, h.tail, hcount, htail⟩
  show addIndexModulo q.head 1 SIZE = _
  rw [h.head, addIndexModulo_next]
  rfl

/-- The youngest entry goes. -/
theorem annul (h : Holds q r es) (hne : es ≠ []) :
    es = es.dropLast ++ [(addIndexModulo q.tail (-1) SIZE, q.slots (addIndexModulo q.tail (-1) SIZE))] ∧
      Holds q.annul (r.annul SIZE) es.dropLast := by
  obtain ⟨hnonempty, hwf, hcount⟩ := h.ring_of_ne hne
  have hsnoc := hwf.order_snoc hnonempty
  have hprev : addIndexModulo q.tail (-1) SIZE = CircQueue.prev SIZE r.tail := by
    rw [h.tail, addIndexModulo_prev hwf.tail_lt]
  have hsplit : es = ((r.annul SIZE).order SIZE).map (fun k : ℕ => ((k : ℤ), q.slots k)) ++
      [(addIndexModulo q.tail (-1) SIZE, q.slots (addIndexModulo q.tail (-1) SIZE))] := by
    rw [h.entries, hsnoc, List.map_append, List.map_singleton, hprev]
  have hlast : es.dropLast = ((r.annul SIZE).order SIZE).map fun k : ℕ => ((k : ℤ), q.slots k) := by
    rw [hsplit, List.dropLast_concat]
  refine ⟨by rw [hlast]; exact hsplit, .inl (hwf.annul hnonempty), h.head, ?_, hcount, hlast⟩
  show addIndexModulo q.tail (-1) SIZE = _
  rw [hprev]
  rfl

/-- A slot before the head becomes the oldest entry. -/
theorem pushhead (h : Holds q r es) (hroom : es.length < SIZE - 1) :
    ∃ s v, q.pushhead.1 = some s ∧ s ∉ es.map Prod.fst ∧ Holds q.pushhead.2 (r.pushHead SIZE) ((s, v) :: es) := by
  obtain ⟨hwf, hfree⟩ := h.free_of_room hroom
  have hprev : addIndexModulo q.head (-1) SIZE = CircQueue.prev SIZE r.head := by
    rw [h.head, addIndexModulo_prev hwf.head_lt]
  have hnotFull : q.full = false := by
    rw [FixedQueue.full, beq_eq_false_iff_ne]
    exact fun hzero => h.full_iff.1 hzero hroom
  have hsome : q.pushhead = (some (addIndexModulo q.head (-1) SIZE),
      { q with head := addIndexModulo q.head (-1) SIZE, count := q.count + 1 }) := by
    simp only [FixedQueue.pushhead, hnotFull, Bool.false_eq_true, if_false]
  have horder := hwf.order_pushHead hfree
  -- the longer ring has no slot twice, so the new head is fresh
  have hnodup := (hwf.pushHead hfree).nodup_order
  rw [horder, List.nodup_cons] at hnodup
  rw [hsome]
  refine ⟨_, q.slots (CircQueue.prev SIZE r.head), rfl, ?_, .inl (hwf.pushHead hfree), ?_, h.tail, ?_, ?_⟩
  · rw [h.slots_eq, hprev, List.mem_map]
    rintro ⟨k, hk, heq⟩
    rw [Nat.cast_injective heq] at hk
    exact hnodup.1 hk
  · dsimp only
    rw [hprev]
    rfl
  · dsimp only
    rw [h.count]
    rfl
  · rw [horder, List.map_cons, h.entries, hprev]

/-- All operations that allocate at the tail. -/
theorem adds (h : Holds q r es) (place : T → T) (holds : T → Prop) {out : Option ℤ} {q' : FixedQueue T SIZE}
    (hholds : holds (place (q.slots q.tail))) (hfull : q.alloc = (none, q) → out = none ∧ q' = q)
    (hsome : ∀ q₁, q.alloc = (some q.tail, q₁) → q₁.slots = q.slots →
      out = some q.tail ∧ q' = q₁.assign q.tail (place (q.slots q.tail))) :
    ∃ r' es', Holds q' r' es' ∧ Adds (SIZE - 1) es out es' (fun e => es ++ [e]) holds := by
  by_cases hroom : es.length < SIZE - 1
  · obtain ⟨halloc, hfresh, hslots, -⟩ := h.alloc hroom
    obtain ⟨rfl, rfl⟩ := hsome q.alloc.2 (Prod.ext halloc rfl) hslots
    refine ⟨_, _, h.allocWith hroom (place (q.slots q.tail)), ?_⟩
    rw [Adds, if_pos hroom]
    exact ⟨_, _, hfresh, hholds, rfl, rfl⟩
  · obtain ⟨rfl, rfl⟩ := hfull (by rw [FixedQueue.alloc, if_pos (h.full_iff.2 hroom)])
    refine ⟨r, es, h, ?_⟩
    rw [Adds, if_neg hroom]
    exact ⟨rfl, rfl⟩

theorem reset (q : FixedQueue T SIZE) : Holds q.reset .empty ([] : List (ℤ × T)) := by
  refine ⟨?_, rfl, rfl, rfl, rfl⟩
  rcases Nat.eq_zero_or_pos SIZE with rfl | hpos
  · exact .inr ⟨rfl, rfl⟩
  · exact .inl (CircQueue.wf_empty hpos)

theorem head? (h : Holds q r es) (hne : es ≠ []) : (es.map Prod.fst).head? = some q.head := by
  obtain ⟨hsplit, -⟩ := h.commit hne
  rw [hsplit]
  rfl

theorem getLast? (h : Holds q r es) (hne : es ≠ []) :
    (es.map Prod.fst).getLast? = some (addIndexModulo q.tail (-1) SIZE) := by
  obtain ⟨hsplit, -⟩ := h.annul hne
  rw [hsplit, List.map_append, List.map_singleton, List.getLast?_concat]

/-- A guard is kept just where there is an answer. -/
theorem isSome_exec (h : Holds q r es) (op : QueueOp T) : (q.exec op).isSome ↔ Guarded es op := by
  cases op with
  | commit index =>
    simp only [exec, Guarded]
    by_cases hnil : es = []
    · rw [if_pos (.inl (h.empty_iff.2 hnil)), hnil]
      simp
    · rw [h.head? hnil]
      by_cases hi : index = q.head
      · rw [if_neg (by simpa [h.empty_iff, hnil] using hi)]
        simp [hi]
      · rw [if_pos (.inr hi)]
        simp [Ne.symm hi]
  | annul index =>
    simp only [exec, Guarded]
    by_cases hnil : es = []
    · rw [if_pos (.inl (h.empty_iff.2 hnil)), hnil]
      simp
    · rw [h.getLast? hnil]
      by_cases hi : index = addIndexModulo q.tail (-1) SIZE
      · rw [if_neg (by simpa [h.empty_iff, hnil] using hi)]
        simp [hi]
      · rw [if_pos (.inr hi)]
        simp [Ne.symm hi]
  | reset | queueReset | alloc | queueAlloc | push | pop | dequeue | pushhead | pophead | peek | peektail | assign =>
    exact iff_of_true rfl trivial

/-- Removal at the head, by whichever name. -/
theorem removesHead (h : Holds q r es) {out : Option ℤ} {q' : FixedQueue T SIZE}
    (hrun : (if q.empty then (none, q) else (some q.head, q.commit)) = (out, q')) :
    ∃ r' es', Holds q' r' es' ∧ RemovesHead es out es' := by
  by_cases hnil : es = []
  · rw [if_pos (h.empty_iff.2 hnil)] at hrun
    obtain ⟨rfl, rfl⟩ := Prod.mk.inj hrun
    exact ⟨r, es, h, .inl ⟨hnil, rfl, hnil⟩⟩
  · rw [if_neg fun hempty => hnil (h.empty_iff.1 hempty)] at hrun
    obtain ⟨rfl, rfl⟩ := Prod.mk.inj hrun
    obtain ⟨hsplit, hcommit⟩ := h.commit hnil
    exact ⟨_, _, hcommit, .inr ⟨_, _, hsplit, rfl⟩⟩

/-- Removal at the tail. -/
theorem removesTail (h : Holds q r es) {out : Option ℤ} {q' : FixedQueue T SIZE}
    (hrun : (if q.empty then (none, q) else (some (addIndexModulo q.tail (-1) SIZE), q.annul)) = (out, q')) :
    ∃ r' es', Holds q' r' es' ∧ RemovesTail es out es' := by
  by_cases hnil : es = []
  · rw [if_pos (h.empty_iff.2 hnil)] at hrun
    obtain ⟨rfl, rfl⟩ := Prod.mk.inj hrun
    exact ⟨r, es, h, .inl ⟨hnil, rfl, hnil⟩⟩
  · rw [if_neg fun hempty => hnil (h.empty_iff.1 hempty)] at hrun
    obtain ⟨rfl, rfl⟩ := Prod.mk.inj hrun
    obtain ⟨hsplit, hannul⟩ := h.annul hnil
    exact ⟨_, _, hannul, .inr ⟨_, _, hsplit, rfl⟩⟩

end Holds

/-- **One operation** on the queue is one step of the list. -/
theorem exec_holds {q q' : FixedQueue T SIZE} {r : CircQueue} {es : List (ℤ × T)} {op : QueueOp T} {out : Option ℤ}
    (h : Holds q r es) (hexec : q.exec op = some (out, q')) :
    ∃ r' es', Holds q' r' es' ∧ DequeStep (SIZE - 1) es out es' op := by
  cases op with
  | reset =>
    obtain ⟨rfl, rfl⟩ := Prod.mk.inj (Option.some.inj hexec)
    exact ⟨_, _, .reset q, rfl, rfl⟩
  | queueReset init =>
    obtain ⟨rfl, rfl⟩ := Prod.mk.inj (Option.some.inj hexec)
    have hreset := Holds.reset (q.queueReset init)
    exact ⟨_, _, hreset, rfl, rfl⟩
  | alloc =>
    refine h.adds id (fun _ => True) trivial (fun hnone => ?_) fun q₁ hsome hslots => ?_
    · simp only [exec, hnone] at hexec
      obtain ⟨rfl, rfl⟩ := Prod.mk.inj (Option.some.inj hexec)
      exact ⟨rfl, rfl⟩
    · simp only [exec, hsome] at hexec
      obtain ⟨rfl, rfl⟩ := Prod.mk.inj (Option.some.inj hexec)
      -- what the slot held stays
      rw [id, ← hslots, FixedQueue.assign, Function.update_eq_self]
      exact ⟨rfl, rfl⟩
  | queueAlloc validate =>
    refine h.adds validate _ ⟨_, rfl⟩ (fun hnone => ?_) fun q₁ hsome hslots => ?_
    · simp only [exec, FixedQueue.queueAlloc, hnone] at hexec
      obtain ⟨rfl, rfl⟩ := Prod.mk.inj (Option.some.inj hexec)
      exact ⟨rfl, rfl⟩
    · simp only [exec, FixedQueue.queueAlloc, hsome, hslots] at hexec
      obtain ⟨rfl, rfl⟩ := Prod.mk.inj (Option.some.inj hexec)
      exact ⟨rfl, rfl⟩
  | push data =>
    refine h.adds (fun _ => data) _ rfl (fun hnone => ?_) fun q₁ hsome hslots => ?_
    · simp only [exec, FixedQueue.pushData, hnone] at hexec
      obtain ⟨rfl, rfl⟩ := Prod.mk.inj (Option.some.inj hexec)
      exact ⟨rfl, rfl⟩
    · simp only [exec, FixedQueue.pushData, hsome] at hexec
      obtain ⟨rfl, rfl⟩ := Prod.mk.inj (Option.some.inj hexec)
      exact ⟨rfl, rfl⟩
  | pop => exact h.removesTail (Option.some.inj hexec)
  | dequeue => exact h.removesHead (Option.some.inj hexec)
  | pophead => exact h.removesHead (Option.some.inj hexec)
  | commit index =>
    by_cases hguard : q.empty ∨ index ≠ q.head
    · simp only [exec, if_pos hguard] at hexec
      cases hexec
    · simp only [exec, if_neg hguard] at hexec
      obtain ⟨rfl, rfl⟩ := Prod.mk.inj (Option.some.inj hexec)
      push Not at hguard
      obtain ⟨hempty, rfl⟩ := hguard
      obtain ⟨hsplit, hcommit⟩ := h.commit fun hnil => hempty (h.empty_iff.2 hnil)
      exact ⟨_, _, hcommit, rfl, .inr ⟨_, _, hsplit, rfl⟩⟩
  | annul index =>
    by_cases hguard : q.empty ∨ index ≠ addIndexModulo q.tail (-1) SIZE
    · simp only [exec, if_pos hguard] at hexec
      cases hexec
    · simp only [exec, if_neg hguard] at hexec
      obtain ⟨rfl, rfl⟩ := Prod.mk.inj (Option.some.inj hexec)
      push Not at hguard
      obtain ⟨hempty, rfl⟩ := hguard
      obtain ⟨hsplit, hannul⟩ := h.annul fun hnil => hempty (h.empty_iff.2 hnil)
      exact ⟨_, _, hannul, rfl, .inr ⟨_, _, hsplit, rfl⟩⟩
  | pushhead =>
    simp only [exec] at hexec
    by_cases hroom : es.length < SIZE - 1
    · obtain ⟨s, v, hout, hfresh, hholds⟩ := h.pushhead hroom
      obtain ⟨rfl, rfl⟩ := Prod.mk.inj (Option.some.inj hexec)
      refine ⟨_, _, hholds, ?_⟩
      rw [DequeStep, Adds, if_pos hroom]
      exact ⟨s, v, hfresh, trivial, hout, rfl⟩
    · have hfull : q.full = true := by
        rw [FixedQueue.full, beq_iff_eq]
        exact h.full_iff.2 hroom
      simp only [FixedQueue.pushhead, hfull, if_true] at hexec
      obtain ⟨rfl, rfl⟩ := Prod.mk.inj (Option.some.inj hexec)
      refine ⟨r, es, h, ?_⟩
      rw [DequeStep, Adds, if_neg hroom]
      exact ⟨rfl, rfl⟩
  | peek =>
    obtain ⟨rfl, rfl⟩ := Prod.mk.inj (Option.some.inj hexec)
    refine ⟨r, es, h, ?_, rfl⟩
    rw [FixedQueue.peek]
    by_cases hnil : es = []
    · rw [if_pos (h.empty_iff.2 hnil), hnil]
      rfl
    · rw [if_neg fun hempty => hnil (h.empty_iff.1 hempty), h.head? hnil]
  | peektail =>
    obtain ⟨rfl, rfl⟩ := Prod.mk.inj (Option.some.inj hexec)
    refine ⟨r, es, h, ?_, rfl⟩
    rw [FixedQueue.peektail]
    by_cases hnil : es = []
    · rw [if_pos (h.empty_iff.2 hnil), hnil]
      rfl
    · rw [if_neg fun hempty => hnil (h.empty_iff.1 hempty), h.getLast? hnil]
  | assign index data =>
    obtain ⟨rfl, rfl⟩ := Prod.mk.inj (Option.some.inj hexec)
    exact ⟨r, _, h.assign index data, rfl, rfl⟩

theorem refines_of_holds {q : FixedQueue T SIZE} {r : CircQueue} {es : List (ℤ × T)} (h : Holds q r es)
    (ops : List (QueueOp T)) : RunRefines q es ops := by
  induction ops generalizing q r es with
  | nil => exact h.right
  | cons op ops ih =>
    refine ⟨h.right, h.isSome_exec op, fun out q' hexec => ?_⟩
    obtain ⟨r', es', hholds, hstep⟩ := exec_holds h hexec
    exact ⟨es', hstep, ih hholds⟩

/-- **A fixed queue is a double-ended list** of at most `SIZE - 1` entries, each in its own slot, in every
run from a reset. -/
theorem fixedQueue_refines (q : FixedQueue T SIZE) (ops : List (QueueOp T)) : RunRefines q.reset [] ops :=
  refines_of_holds (.reset q) ops

end FixedQueue
end X86Sim
