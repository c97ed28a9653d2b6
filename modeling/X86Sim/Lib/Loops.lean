import Mathlib.Data.BitVec

/-!
# Loops that fill in a structure

A `foldl` whose turns each set a part of the state: what a turn sets stays if the other
turns leave it alone.
-/

namespace Loops

variable {σ ι β : Type} {step : σ → ι → σ} (get : σ → β)

/-- What no turn of a loop changes. -/
theorem foldl_keep {l : List ι} (hkeep : ∀ s, ∀ j ∈ l, get (step s j) = get s) (s : σ) :
    get (l.foldl step s) = get s := by
  induction l generalizing s with
  | nil => rfl
  | cons j l ih =>
    have hrest : ∀ s, ∀ k ∈ l, get (step s k) = get s := fun s k hk => hkeep s k (List.mem_cons_of_mem j hk)
    rw [List.foldl_cons, ih hrest]
    exact hkeep s j List.mem_cons_self

/-- What one turn sets, and the others leave alone. -/
theorem foldl_set {l : List ι} {i : ι} {v : β} (hset : ∀ s, get (step s i) = v)
    (hkeep : ∀ s j, j ≠ i → get (step s j) = get s) (hi : i ∈ l) (s : σ) : get (l.foldl step s) = v := by
  classical
  induction l generalizing s with
  | nil => exact absurd hi List.not_mem_nil
  | cons j l ih =>
    rw [List.foldl_cons]
    by_cases hmem : i ∈ l
    · exact ih hmem _
    · have hij : i = j := (List.mem_cons.1 hi).resolve_right hmem
      have hothers : ∀ s, ∀ k ∈ l, get (step s k) = get s := by
        intro s k hk
        apply hkeep
        rintro rfl
        exact hmem hk
      rw [foldl_keep get hothers, ← hij]
      exact hset s

/-- A bit of a word put together by `|=`. -/
theorem foldl_or_getLsbD {w : ℕ} (f : ι → BitVec w) (l : List ι) (v : BitVec w) (k : ℕ) :
    (l.foldl (fun v i => v ||| f i) v).getLsbD k = (v.getLsbD k || l.any fun i => (f i).getLsbD k) := by
  induction l generalizing v with
  | nil => simp
  | cons i l ih => rw [List.foldl_cons, ih, BitVec.getLsbD_or, List.any_cons, Bool.or_assoc]

end Loops
