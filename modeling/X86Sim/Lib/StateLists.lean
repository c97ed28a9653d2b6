import Mathlib.Data.List.Basic
import Mathlib.Data.List.Nodup
import Mathlib.Logic.Function.Basic

/-!
# State lists

Numbered objects linked into lists, one list a state. Each object points back to
its list, and each list keeps a count of its own.

* `WF`: every object is linked exactly where it points, and every count is a length.
* `WF.changestate`, `WF.changestateAfter`: moving an object keeps this.
-/

/-- The lists of a state type, with the object's own link `current`. -/
structure StateLists (σ : Type) where
  members : σ → List ℕ
  count : σ → ℕ
  current : ℕ → Option σ

namespace StateLists

variable {σ : Type}

def empty : StateLists σ := ⟨fun _ => [], fun _ => 0, fun _ => none⟩

/-- `i` linked right after `p`, or last if `p` is not in the list. -/
def insertAfter (p i : ℕ) : List ℕ → List ℕ
  | [] => [i]
  | x :: xs => if x = p then x :: i :: xs else x :: insertAfter p i xs

/-- An insertion adds the object and nothing else. -/
theorem insertAfter_perm (p i : ℕ) (l : List ℕ) : (insertAfter p i l).Perm (i :: l) := by
  induction l with
  | nil => exact List.Perm.refl _
  | cons x xs ih =>
    unfold insertAfter
    split
    · exact List.Perm.swap _ _ _
    · exact (List.Perm.cons _ ih).trans (List.Perm.swap _ _ _)

/-- Links, back pointers and counts agree. -/
structure WF (l : StateLists σ) : Prop where
  mem_iff : ∀ i s, i ∈ l.members s ↔ l.current i = some s
  nodup : ∀ s, (l.members s).Nodup
  count_eq : ∀ s, l.count s = (l.members s).length

theorem wf_empty : (empty : StateLists σ).WF := by
  constructor <;> intros <;> simp [empty]

@[simp] theorem current_empty (i : ℕ) : (empty : StateLists σ).current i = none := rfl

variable [DecidableEq σ] (l : StateLists σ)

/-- Unlink `i` from the list it points to. -/
def remove (i : ℕ) : StateLists σ :=
  match l.current i with
  | none => l
  | some s =>
    { l with
      members := Function.update l.members s ((l.members s).erase i)
      count := Function.update l.count s (l.count s - 1) }

/-- Link `i` into list `s`, at the place `put` gives. -/
def link (i : ℕ) (s : σ) (put : List ℕ → List ℕ) : StateLists σ where
  members := Function.update l.members s (put (l.members s))
  count := Function.update l.count s (l.count s + 1)
  current := Function.update l.current i (some s)

/-- Move `i` to the end of list `s`. -/
def changestate (i : ℕ) (s : σ) : StateLists σ := (l.remove i).link i s (· ++ [i])

/-- Move `i` into list `s`, after `prev` or at the head. -/
def changestateAfter (i : ℕ) (s : σ) (prev : Option ℕ) : StateLists σ :=
  (l.remove i).link i s fun m =>
    match prev with
    | none => i :: m
    | some p => insertAfter p i m

variable {l}

@[simp] theorem current_remove (i : ℕ) : (l.remove i).current = l.current := by
  unfold remove; split <;> rfl

/-- A removal unlinks from the one list the object points to. -/
theorem members_remove (i : ℕ) (s : σ) :
    (l.remove i).members s = if l.current i = some s then (l.members s).erase i else l.members s := by
  unfold remove
  cases hc : l.current i with
  | none => simp
  | some t =>
    by_cases hst : s = t
    · subst hst; simp
    · simp [hst, Ne.symm hst]

theorem count_remove (i : ℕ) (s : σ) :
    (l.remove i).count s = if l.current i = some s then l.count s - 1 else l.count s := by
  unfold remove
  cases hc : l.current i with
  | none => simp
  | some t =>
    by_cases hst : s = t
    · subst hst; simp
    · simp [hst, Ne.symm hst]

/-- Linking a removed object keeps the lists in order, wherever it is put. -/
theorem WF.link_remove (h : l.WF) (i : ℕ) (s : σ) {put : List ℕ → List ℕ}
    (hput : ∀ m, (put m).Perm (i :: m)) : ((l.remove i).link i s put).WF := by
  have hnot : ∀ t, i ∉ (l.remove i).members t := by
    intro t
    rw [members_remove]
    split
    · exact fun hm => absurd rfl ((h.nodup t).mem_erase_iff.1 hm).1
    · rename_i hc
      exact fun hm => hc ((h.mem_iff i t).1 hm)
  have hmem : ∀ j t, j ≠ i → (j ∈ (l.remove i).members t ↔ l.current j = some t) := by
    intro j t hj
    rw [members_remove]
    split
    · rw [List.mem_erase_of_ne hj, h.mem_iff]
    · exact h.mem_iff j t
  have hnd : ∀ t, ((l.remove i).members t).Nodup := by
    intro t
    rw [members_remove]
    split
    · exact (h.nodup t).erase _
    · exact h.nodup t
  have hcount : ∀ t, (l.remove i).count t = ((l.remove i).members t).length := by
    intro t
    rw [members_remove, count_remove, h.count_eq]
    split
    · rename_i hc
      rw [List.length_erase_of_mem ((h.mem_iff i t).2 hc)]
    · rfl
  refine ⟨fun j t => ?_, fun t => ?_, fun t => ?_⟩ <;>
    simp only [link, Function.update_apply, current_remove]
  · -- only the list that `i` enters has gained a member
    by_cases hts : t = s
    · subst hts
      rw [if_pos rfl, (hput _).mem_iff, List.mem_cons]
      by_cases hj : j = i
      · simp [hj]
      · simp [hj, hmem j t hj]
    · rw [if_neg hts]
      by_cases hj : j = i
      · subst hj; simp [hnot t, Ne.symm hts]
      · simp [hj, hmem j t hj]
  · split
    · exact (hput _).nodup_iff.2 (List.nodup_cons.2 ⟨hnot s, hnd s⟩)
    · exact hnd t
  · split
    · rw [(hput _).length_eq, List.length_cons, hcount]
    · exact hcount t

/-- A move to the end of a list. -/
theorem WF.changestate (h : l.WF) (i : ℕ) (s : σ) : (l.changestate i s).WF :=
  h.link_remove i s fun _ => List.perm_append_singleton _ _

/-- A move to a place in a list, wherever that is. -/
theorem WF.changestateAfter (h : l.WF) (i : ℕ) (s : σ) (prev : Option ℕ) :
    (l.changestateAfter i s prev).WF := by
  refine h.link_remove i s fun m => ?_
  cases prev with
  | none => exact List.Perm.refl _
  | some p => exact insertAfter_perm p i m

@[simp] theorem current_changestate (i j : ℕ) (s : σ) :
    (l.changestate i s).current j = if j = i then some s else l.current j := by
  simp [StateLists.changestate, link, Function.update_apply]

@[simp] theorem current_changestateAfter (i j : ℕ) (s : σ) (prev : Option ℕ) :
    (l.changestateAfter i s prev).current j = if j = i then some s else l.current j := by
  simp [StateLists.changestateAfter, link, Function.update_apply]

/-- Every object below `n` into list `s`. -/
def fill (s : σ) (n : ℕ) (l : StateLists σ) : StateLists σ :=
  (List.range n).foldl (fun l i => l.changestate i s) l

/-- The objects are put one after the other. -/
theorem WF.fill (h : l.WF) (s : σ) (n : ℕ) : (l.fill s n).WF := by
  induction n with
  | zero => exact h
  | succ n ih =>
    rw [StateLists.fill, List.range_succ, List.foldl_concat]
    exact ih.changestate n s

theorem current_fill (s : σ) (n i : ℕ) :
    (l.fill s n).current i = if i < n then some s else l.current i := by
  induction n with
  | zero => rfl
  | succ n ih =>
    rw [StateLists.fill, List.range_succ, List.foldl_concat, current_changestate]
    rw [StateLists.fill] at ih
    rw [ih]
    by_cases hi : i = n
    · subst hi; simp
    · have hlt : i < n + 1 ↔ i < n := by omega
      simp only [if_neg hi, hlt]

end StateLists
