import Mathlib.Algebra.BigOperators.Group.List.Lemmas
import Mathlib.Algebra.Ring.Nat
import Mathlib.Data.List.Nodup
import Mathlib.Logic.Function.Basic

/-!
# Counting names

Tables name objects, and an object's reference count is to be the number of its names.
`names l t p` counts the names `p` has in the table `t` over the indices `l`.

* `names_update`: what one new entry does to every count.
-/

namespace Names

variable {α β : Type} [DecidableEq β]

/-- How many of the indices `l` the table `t` maps to `p`. -/
def names (l : List α) (t : α → β) (p : β) : ℕ := l.countP fun a => t a = p

/-- The number of names `p` has in the one place that holds `q`. -/
def here (q p : β) : ℕ := if q = p then 1 else 0

@[simp] theorem here_self (p : β) : here p p = 1 := if_pos rfl

theorem here_of_ne {q p : β} (h : q ≠ p) : here q p = 0 := if_neg h

variable {l : List α} {t t' : α → β} {p q : β}

theorem names_congr (h : ∀ a ∈ l, t' a = t a) : names l t' p = names l t p :=
  List.countP_congr fun a ha => by rw [h a ha]

theorem names_eq_zero : names l t p = 0 ↔ ∀ a ∈ l, t a ≠ p := by simp [names]

theorem names_cons (a : α) : names (a :: l) t p = names l t p + here (t a) p := by
  simp [names, List.countP_cons, here]

/-- One entry changes: its old object loses a name, its new one gets one. -/
theorem names_update [DecidableEq α] (hnd : l.Nodup) {a : α} (ha : a ∈ l) (q p : β) :
    names l (Function.update t a q) p + here (t a) p = names l t p + here q p := by
  induction l with
  | nil => cases ha
  | cons b l ih =>
    obtain ⟨hb, hnd⟩ := List.nodup_cons.1 hnd
    rw [names_cons, names_cons]
    by_cases hab : a = b
    · subst hab
      have hrest : names l (Function.update t a q) p = names l t p :=
        names_congr fun x hx => Function.update_of_ne (by rintro rfl; exact hb hx) _ _
      rw [hrest, Function.update_self]
      omega
    · have := ih hnd ((List.mem_cons.1 ha).resolve_left hab)
      rw [Function.update_of_ne (Ne.symm hab)]
      omega

/-- A sum over rows in which one row changes. -/
theorem sum_row_update [DecidableEq α] {f g : α → ℕ} {a : α} (hnd : l.Nodup) (ha : a ∈ l)
    (hfg : ∀ x ∈ l, x ≠ a → f x = g x) : (l.map f).sum + g a = (l.map g).sum + f a := by
  induction l with
  | nil => cases ha
  | cons b l ih =>
    obtain ⟨hb, hnd⟩ := List.nodup_cons.1 hnd
    simp only [List.map_cons, List.sum_cons]
    by_cases hab : a = b
    · subst hab
      have hrest : l.map f = l.map g := List.map_congr_left fun x hx =>
        hfg x (List.mem_cons_of_mem a hx) (by rintro rfl; exact hb hx)
      rw [hrest]
      omega
    · have := ih hnd ((List.mem_cons.1 ha).resolve_left hab) fun x hx =>
        hfg x (List.mem_cons_of_mem b hx)
      have hbf := hfg b List.mem_cons_self (Ne.symm hab)
      omega

end Names
