import Mathlib.Data.Nat.Notation

/-!
# Preconditions of lists of steps

A step takes a state to another or fails; besides the instruction it depends on a value
drawn from a supply, of which nothing is known. The precondition `wp` of a list of
instructions says that they all succeed, whatever is drawn, and end in a state of the
postcondition.
-/

namespace Triples

variable {ι γ σ ε : Type*} (step : γ → ι → σ → Except ε σ)

/-- Some instructions in order, each with a draw of its own. -/
def run : List ι → (ℕ → γ) → σ → Except ε σ
  | [], _, s => .ok s
  | i :: is, g, s =>
    match step (g 0) i s with
    | .ok s' => run is (fun n => g (n + 1)) s'
    | .error e => .error e

/-- The instructions end in `Q`. -/
def wp (is : List ι) (Q : σ → Prop) (s : σ) : Prop := ∀ g, ∃ s', run step is g s = .ok s' ∧ Q s'

variable {step} {is js : List ι} {i : ι} {s s' : σ} {Q Q' : σ → Prop} {P : Prop}

theorem run_cons {g : ℕ → γ} (h : step (g 0) i s = .ok s') :
    run step (i :: is) g s = run step is (fun n => g (n + 1)) s' := by
  rw [run, h]

theorem run_append {g : ℕ → γ} (h : run step is g s = .ok s') :
    run step (is ++ js) g s = run step js (fun n => g (n + is.length)) s' := by
  induction is generalizing g s with
  | nil => rw [← Except.ok.inj h]; rfl
  | cons i is ih =>
    rw [run] at h
    rw [List.cons_append, run]
    cases hstep : step (g 0) i s with
    | error e => rw [hstep] at h; cases h
    | ok s₁ =>
      rw [hstep] at h
      dsimp only at h ⊢
      exact ih h

theorem wp_nil (h : Q s) : wp step [] Q s := fun _ => ⟨s, rfl, h⟩

theorem wp_single (h : ∀ g, ∃ s', step g i s = .ok s' ∧ Q s') : wp step [i] Q s := by
  intro g
  obtain ⟨s', hstep, hs'⟩ := h (g 0)
  exact ⟨s', run_cons hstep, hs'⟩

/-- Lists in sequence. -/
theorem wp_append (h : wp step is (wp step js Q) s) : wp step (is ++ js) Q s := by
  intro g
  obtain ⟨s₁, hrun, hjs⟩ := h g
  rw [run_append hrun]
  exact hjs _

theorem wp_cons (h : wp step [i] (wp step is Q) s) : wp step (i :: is) Q s :=
  @wp_append _ _ _ _ step [i] is s Q h

theorem wp_mono (h : wp step is Q s) (hQ : ∀ s', Q s' → Q' s') : wp step is Q' s := by
  intro g
  obtain ⟨s', hrun, hs'⟩ := h g
  exact ⟨s', hrun, hQ s' hs'⟩

/-- The draws a list does not come to make no difference. -/
theorem run_congr {g g' : ℕ → γ} (h : ∀ n < is.length, g n = g' n) : run step is g s = run step is g' s := by
  induction is generalizing g g' s with
  | nil => rfl
  | cons i is ih =>
    rw [run, run, h 0 (Nat.zero_lt_succ _)]
    split
    · exact ih fun n hn => h (n + 1) (Nat.succ_lt_succ hn)
    · rfl

/-- A list fails if it comes to what fails. -/
theorem not_wp_append [Nonempty γ] (h : wp step is Q s) (hno : ∀ s', Q s' → ¬wp step js Q' s') :
    ¬wp step (is ++ js) Q' s := by
  intro hall
  obtain ⟨draw⟩ := ‹Nonempty γ›
  obtain ⟨s', hrun, hs'⟩ := h fun _ => draw
  refine hno s' hs' fun g => ?_
  obtain ⟨s'', hrun', hs''⟩ := hall fun n => if n < is.length then draw else g (n - is.length)
  have hfirst : run step is (fun n => if n < is.length then draw else g (n - is.length)) s = .ok s' :=
    (run_congr fun n hn => if_pos hn).trans hrun
  rw [run_append hfirst] at hrun'
  refine ⟨s'', ?_, hs''⟩
  rw [← hrun']
  refine run_congr fun n _ => ?_
  rw [if_neg (Nat.not_lt.2 (Nat.le_add_left _ _)), Nat.add_sub_cancel]

theorem not_wp_cons [Nonempty γ] (h : ∀ g, ∃ e, step g i s = .error e) : ¬wp step (i :: is) Q s := by
  intro hall
  obtain ⟨draw⟩ := ‹Nonempty γ›
  obtain ⟨s', hrun, -⟩ := hall fun _ => draw
  obtain ⟨e, he⟩ := h draw
  rw [run, he] at hrun
  cases hrun

/-- Where the states reached decide a postcondition, so does the precondition. -/
theorem wp_iff [Nonempty γ] (h : wp step is Q s) (hQ : ∀ s', Q s' → (Q' s' ↔ P)) : wp step is Q' s ↔ P := by
  refine ⟨fun h' => ?_, fun hP => wp_mono h fun s' hs' => (hQ s' hs').2 hP⟩
  obtain ⟨draw⟩ := ‹Nonempty γ›
  obtain ⟨s₁, hrun, hs₁⟩ := h fun _ => draw
  obtain ⟨s₂, hrun', hs₂⟩ := h' fun _ => draw
  obtain rfl := Except.ok.inj (hrun.symm.trans hrun')
  exact (hQ s₁ hs₁).1 hs₂

end Triples
