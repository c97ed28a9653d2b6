import Mathlib.Data.List.Basic
import Mathlib.Data.List.Range
import Mathlib.Data.List.Nodup

/-!
# Circular queues

Indices modulo a size `n`, and a queue that allocates at its tail, retires at its
head and annuls at its tail. `order` lists the occupied slots, oldest first.

* `order_alloc`, `order_commit`, `order_annul`: the three operations on the order.
* `forward_split`: an occupied slot cuts the order into the older and the younger.
-/

namespace CircQueue

/-- The index after `i`. -/
def next (n i : ℕ) : ℕ := if i + 1 ≥ n then i + 1 - n else i + 1

/-- The index before `i`. -/
def prev (n i : ℕ) : ℕ := if i = 0 then n - 1 else i - 1

/-- The index `k` places after `i`. -/
def slot (n i k : ℕ) : ℕ := if i + k ≥ n then i + k - n else i + k

/-- How many places `j` is after `i`. -/
def dist (n i j : ℕ) : ℕ := if i ≤ j then j - i else j + n - i

/-- The indices from `i` up to, not including, `j`. -/
def forward (n i j : ℕ) : List ℕ := (List.range (dist n i j)).map (slot n i)

section Indices

variable {n i j x : ℕ}

theorem slot_lt (hi : i < n) {k : ℕ} (hk : k < n) : slot n i k < n := by
  unfold slot; split <;> omega

theorem dist_lt (hi : i < n) (hj : j < n) : dist n i j < n := by
  unfold dist; split <;> omega

theorem slot_dist (hi : i < n) (hj : j < n) : slot n i (dist n i j) = j := by
  unfold slot dist; split <;> split <;> omega

theorem dist_slot (hi : i < n) {k : ℕ} (hk : k < n) : dist n i (slot n i k) = k := by
  unfold slot dist; split <;> split <;> omega

@[simp] theorem dist_self (n i : ℕ) : dist n i i = 0 := by simp [dist]

theorem next_lt (hi : i < n) : next n i < n := by unfold next; split <;> omega

theorem prev_lt (hi : i < n) : prev n i < n := by unfold prev; split <;> omega

theorem next_prev (hi : i < n) : next n (prev n i) = i := by
  unfold next prev; split <;> split <;> omega

theorem prev_next (hi : i < n) : prev n (next n i) = i := by
  unfold next prev; split <;> split <;> omega

theorem mem_forward (hi : i < n) (hj : j < n) :
    x ∈ forward n i j ↔ x < n ∧ dist n i x < dist n i j := by
  have hd := dist_lt hi hj
  simp only [forward, List.mem_map, List.mem_range]
  constructor
  · rintro ⟨k, hk, rfl⟩
    have hkn : k < n := by omega
    exact ⟨slot_lt hi hkn, by rwa [dist_slot hi hkn]⟩
  · rintro ⟨hx, hlt⟩
    exact ⟨dist n i x, hlt, slot_dist hi hx⟩

theorem length_forward (n i j : ℕ) : (forward n i j).length = dist n i j := by simp [forward]

theorem nodup_forward (hi : i < n) (hj : j < n) : (forward n i j).Nodup := by
  have hd := dist_lt hi hj
  refine List.Nodup.map_on ?_ List.nodup_range
  intro a ha b hb hab
  rw [List.mem_range] at ha hb
  have := congrArg (dist n i) hab
  rwa [dist_slot hi (by omega), dist_slot hi (by omega)] at this

@[simp] theorem forward_self (n i : ℕ) : forward n i i = [] := by simp [forward]

/-- Any index of the stretch cuts it in two. -/
theorem forward_split (hi : i < n) (hj : j < n) (hx : x < n) (hle : dist n i x ≤ dist n i j) :
    forward n i j = forward n i x ++ forward n x j := by
  have hadd : dist n i j = dist n i x + dist n x j := by
    unfold dist at hle ⊢
    split at hle <;> split at hle <;> split <;> first | omega | (split <;> omega)
  have hd := dist_lt hi hj
  simp only [forward, hadd, List.range_add, List.map_append, List.map_map]
  congr 1
  apply List.map_congr_left
  intro k hk
  rw [List.mem_range] at hk
  simp only [Function.comp]
  unfold dist at hadd hd hk ⊢
  unfold slot
  split <;> split <;> split <;> first | omega | (split at hk <;> split at hadd <;> omega)

theorem forward_cons (hi : i < n) (hj : j < n) (hne : i ≠ j) :
    forward n i j = i :: forward n (next n i) j := by
  have hone : forward n i (next n i) = [i] := by
    have : dist n i (next n i) = 1 := by
      unfold dist next; split <;> split <;> omega
    simp only [forward, this, List.range_one, List.map_cons, List.map_nil, slot]
    simp [hi]
  have hle : dist n i (next n i) ≤ dist n i j := by
    unfold dist next; split <;> split <;> split <;> omega
  rw [forward_split hi hj (next_lt hi) hle, hone]
  rfl

theorem forward_snoc (hi : i < n) (hj : j < n) (hne : next n j ≠ i) :
    forward n i (next n j) = forward n i j ++ [j] := by
  have hone : forward n j (next n j) = [j] := by
    by_cases h : j = next n j
    · -- a queue of one slot, where `j` is its own successor
      rw [← h] at hne
      unfold next at h
      split at h <;> omega
    · rw [forward_cons hj (next_lt hj) h, forward_self]
  have hle : dist n i j ≤ dist n i (next n j) := by
    unfold next at hne ⊢
    unfold dist
    split at hne <;> split <;> split <;> omega
  rw [forward_split hi (next_lt hj) hj hle, hone]

theorem next_slot (hi : i < n) {k : ℕ} (hk : k + 1 < n) : next n (slot n i k) = slot n i (k + 1) := by
  unfold next slot; split <;> split <;> split <;> omega

theorem getElem?_forward (n i j k : ℕ) (hk : k < dist n i j) :
    (forward n i j)[k]? = some (slot n i k) := by
  simp [forward, hk]

end Indices
end CircQueue

/-- A queue over slots `0 .. n - 1`. -/
structure CircQueue where
  head : ℕ
  tail : ℕ
  count : ℕ
  deriving DecidableEq

namespace CircQueue

def empty : CircQueue := ⟨0, 0, 0⟩

/-- The slots in use, oldest first. -/
def order (n : ℕ) (r : CircQueue) : List ℕ := forward n r.head r.tail

/-- One slot always stays unused. -/
def remaining (n : ℕ) (r : CircQueue) : ℕ := n - r.count - 1

/-- Allocation at the tail; the caller has checked `remaining`. -/
def alloc (n : ℕ) (r : CircQueue) : CircQueue := ⟨r.head, next n r.tail, r.count + 1⟩

def commit (n : ℕ) (r : CircQueue) : CircQueue := ⟨next n r.head, r.tail, r.count - 1⟩

def annul (n : ℕ) (r : CircQueue) : CircQueue := ⟨r.head, prev n r.tail, r.count - 1⟩

/-- Allocation before the head; the caller has checked `remaining`. -/
def pushHead (n : ℕ) (r : CircQueue) : CircQueue := ⟨prev n r.head, r.tail, r.count + 1⟩

/-- The slots from `e` on, and those after `e`. -/
def forwardFrom (n : ℕ) (r : CircQueue) (e : ℕ) : List ℕ := forward n e r.tail
def forwardAfter (n : ℕ) (r : CircQueue) (e : ℕ) : List ℕ := forward n (next n e) r.tail

/-- The slots before `e`, youngest first. -/
def backwardBefore (n : ℕ) (r : CircQueue) (e : ℕ) : List ℕ := (forward n r.head e).reverse

structure WF (n : ℕ) (r : CircQueue) : Prop where
  head_lt : r.head < n
  tail_lt : r.tail < n
  count_eq : r.count = dist n r.head r.tail

section Operations

variable {n : ℕ} {r : CircQueue}

theorem wf_empty (hn : 0 < n) : empty.WF n := ⟨hn, hn, by simp [empty]⟩

@[simp] theorem order_empty (n : ℕ) : empty.order n = [] := by simp [order, empty]

theorem WF.length_order (h : r.WF n) : (r.order n).length = r.count := by
  rw [order, length_forward, h.count_eq]

theorem WF.nodup_order (h : r.WF n) : (r.order n).Nodup := nodup_forward h.head_lt h.tail_lt

theorem WF.lt_of_mem (h : r.WF n) {x : ℕ} (hx : x ∈ r.order n) : x < n :=
  ((mem_forward h.head_lt h.tail_lt).1 hx).1

theorem WF.tail_not_mem (h : r.WF n) : r.tail ∉ r.order n := by
  intro hx
  exact absurd ((mem_forward h.head_lt h.tail_lt).1 hx).2 (lt_irrefl _)

theorem WF.alloc (h : r.WF n) (hr : 0 < r.remaining n) : (r.alloc n).WF n := by
  obtain ⟨hh, ht, hc⟩ := h
  refine ⟨hh, next_lt ht, ?_⟩
  simp only [remaining] at hr
  show r.count + 1 = dist n r.head (next n r.tail)
  unfold next
  unfold dist at hc ⊢
  split at hc <;> split <;> split <;> omega

/-- An allocated slot is the youngest. -/
theorem WF.order_alloc (h : r.WF n) (hr : 0 < r.remaining n) :
    (r.alloc n).order n = r.order n ++ [r.tail] := by
  obtain ⟨hh, ht, hc⟩ := h
  refine forward_snoc hh ht (show next n r.tail ≠ r.head from ?_)
  simp only [remaining] at hr
  unfold dist at hc
  unfold next
  split at hc <;> split <;> omega

theorem head_ne_tail (hne : r.order n ≠ []) : r.head ≠ r.tail := by
  intro heq
  apply hne
  rw [order, heq, forward_self]

/-- The oldest slot is the head. -/
theorem WF.order_cons (h : r.WF n) (hne : r.order n ≠ []) :
    r.order n = r.head :: (r.commit n).order n :=
  forward_cons h.head_lt h.tail_lt (head_ne_tail hne)

theorem WF.commit (h : r.WF n) (hne : r.order n ≠ []) : (r.commit n).WF n := by
  have hht := head_ne_tail hne
  obtain ⟨hh, ht, hc⟩ := h
  refine ⟨next_lt hh, ht, ?_⟩
  show r.count - 1 = dist n (next n r.head) r.tail
  unfold dist at hc ⊢
  unfold next
  split at hc <;> split <;> split <;> omega

theorem WF.order_commit (h : r.WF n) (hne : r.order n ≠ []) :
    (r.commit n).order n = (r.order n).tail := by
  rw [h.order_cons hne]; rfl

theorem WF.annul (h : r.WF n) (hne : r.order n ≠ []) : (r.annul n).WF n := by
  have hht := head_ne_tail hne
  obtain ⟨hh, ht, hc⟩ := h
  refine ⟨hh, prev_lt ht, ?_⟩
  show r.count - 1 = dist n r.head (prev n r.tail)
  unfold dist at hc ⊢
  unfold prev
  split at hc <;> split <;> split <;> omega

theorem WF.pushHead (h : r.WF n) (hr : 0 < r.remaining n) : (r.pushHead n).WF n := by
  obtain ⟨hh, ht, hc⟩ := h
  refine ⟨prev_lt hh, ht, ?_⟩
  simp only [remaining] at hr
  show r.count + 1 = dist n (prev n r.head) r.tail
  unfold prev
  unfold dist at hc ⊢
  split at hc <;> split <;> split <;> omega

/-- A slot taken before the head is the oldest. -/
theorem WF.order_pushHead (h : r.WF n) (hr : 0 < r.remaining n) :
    (r.pushHead n).order n = prev n r.head :: r.order n := by
  have hwf := h.pushHead hr
  have hlen := hwf.length_order
  have hne : (r.pushHead n).order n ≠ [] := by
    intro hnil
    rw [hnil] at hlen
    cases hlen
  have hcons := hwf.order_cons hne
  have hback : ((r.pushHead n).commit n).order n = r.order n := by
    show forward n (next n (prev n r.head)) r.tail = forward n r.head r.tail
    rw [next_prev h.head_lt]
  rwa [hback] at hcons

/-- Annulment drops the youngest slot, the one before the tail. -/
theorem WF.order_snoc (h : r.WF n) (hne : r.order n ≠ []) :
    r.order n = (r.annul n).order n ++ [prev n r.tail] := by
  have hht := head_ne_tail hne
  have := forward_snoc h.head_lt (prev_lt h.tail_lt) (by rw [next_prev h.tail_lt]; exact hht.symm)
  rwa [next_prev h.tail_lt] at this

theorem WF.order_annul (h : r.WF n) (hne : r.order n ≠ []) :
    (r.annul n).order n = (r.order n).dropLast := by
  rw [h.order_snoc hne, List.dropLast_concat]

/-- A slot in use cuts the order into the older slots and the rest. -/
theorem WF.order_split (h : r.WF n) {e : ℕ} (he : e ∈ r.order n) :
    r.order n = forward n r.head e ++ r.forwardFrom n e := by
  obtain ⟨hlt, hd⟩ := (mem_forward h.head_lt h.tail_lt).1 he
  exact forward_split h.head_lt h.tail_lt hlt hd.le

theorem WF.forwardFrom_cons (h : r.WF n) {e : ℕ} (he : e ∈ r.order n) :
    r.forwardFrom n e = e :: r.forwardAfter n e := by
  refine forward_cons (h.lt_of_mem he) h.tail_lt ?_
  rintro rfl
  exact h.tail_not_mem he

theorem WF.order_eq (h : r.WF n) {e : ℕ} (he : e ∈ r.order n) :
    r.order n = (r.backwardBefore n e).reverse ++ e :: r.forwardAfter n e := by
  rw [backwardBefore, List.reverse_reverse, ← h.forwardFrom_cons he]
  exact h.order_split he

/-- Neighbours in the order are neighbours in the ring. -/
theorem WF.next_of_order (h : r.WF n) {X Y : List ℕ} {a b : ℕ}
    (hord : r.order n = X ++ a :: b :: Y) : next n a = b := by
  have hlen : X.length + 1 < dist n r.head r.tail := by
    rw [← length_forward, ← order, hord]; simp
  have hd := dist_lt h.head_lt h.tail_lt
  have ha := getElem?_forward n r.head r.tail X.length (by omega)
  have hb := getElem?_forward n r.head r.tail (X.length + 1) hlen
  rw [← order, hord] at ha hb
  simp only [List.getElem?_append_right (Nat.le_refl _), Nat.sub_self, List.getElem?_cons_zero,
    Option.some.injEq] at ha
  rw [List.getElem?_append_right (by omega)] at hb
  simp only [Nat.add_sub_cancel_left, List.getElem?_cons_succ, List.getElem?_cons_zero,
    Option.some.injEq] at hb
  rw [ha, hb, next_slot h.head_lt (by omega)]

/-- The tail comes after the youngest slot. -/
theorem WF.next_last (h : r.WF n) {X : List ℕ} {a : ℕ} (hord : r.order n = X ++ [a]) :
    next n a = r.tail := by
  have hne : r.order n ≠ [] := by rw [hord]; simp
  have hsnoc := h.order_snoc hne
  rw [hord] at hsnoc
  have hlast := (List.append_inj' hsnoc rfl).2
  rw [List.cons.injEq] at hlast
  rw [hlast.1, next_prev h.tail_lt]

/-- Where a slot stands in the order, the ring is cut. -/
theorem WF.cut (h : r.WF n) {X Y : List ℕ} {a : ℕ} (hord : r.order n = X ++ a :: Y) :
    forward n r.head a = X ∧ r.forwardAfter n a = Y := by
  have ha : a ∈ r.order n := by rw [hord]; simp
  have heq := h.order_eq ha
  have hnd := h.nodup_order
  rw [backwardBefore, List.reverse_reverse] at heq
  rw [hord] at hnd heq
  have hX : a ∉ X := fun hm => (List.disjoint_of_nodup_append hnd) hm List.mem_cons_self
  have hY : a ∉ Y := (List.nodup_cons.1 (List.nodup_append.1 hnd).2.1).1
  obtain ⟨h1, -, h3⟩ := (List.append_cons_inj_of_notMem hX hY).1 heq
  exact ⟨h1.symm, h3.symm⟩

end Operations
end CircQueue
