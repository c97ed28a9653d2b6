import Mathlib.Algebra.Order.Group.Abs
import Mathlib.Algebra.Order.Field.Basic
import Mathlib.Order.Interval.Set.Basic
import Mathlib.Order.Monotone.Basic
import Mathlib.Tactic.Linarith

/-!
# Rounding to a grid

Numbers `V 0 < V 1 < ... < V top` of a scale, and a number rounded to one of them: down, up
or to the nearest, ties to the even index. `top` is the index that stands for everything
beyond the scale: rounding down never gives it, rounding up gives it where nothing else is
large enough.

* `RoundsTo.unique`: a number has one rounding.
* `roundsTo_of_bracket`: the rounding of a number between two neighbours.
* `roundsTo_of_le_top`: the rounding of a number beyond the scale.
-/

inductive Rounding
  | down | up | nearest
  deriving DecidableEq

namespace Rounding

section Order

variable {K : Type*} [LinearOrder K] {V : ℕ → K} {top : ℕ} (hV : StrictMonoOn V (Set.Iic top))
include hV

theorem le_of_le {a b : ℕ} (hab : a ≤ b) (hb : b ≤ top) : V a ≤ V b :=
  hV.monotoneOn (le_trans hab hb) hb hab

theorem lt_of_lt {a b : ℕ} (hab : a < b) (hb : b ≤ top) : V a < V b :=
  hV (le_trans hab.le hb) hb hab

end Order

variable {K : Type*} [Field K] [LinearOrder K] [IsStrictOrderedRing K]
variable {V : ℕ → K} {top m : ℕ} {x : K}

/-- `m` is what `x` rounds to. -/
def RoundsTo (V : ℕ → K) (top : ℕ) (mode : Rounding) (x : K) (m : ℕ) : Prop :=
  match mode with
  | down => m < top ∧ V m ≤ x ∧ ∀ k < top, V k ≤ x → k ≤ m
  | up => m ≤ top ∧ (m < top → x ≤ V m) ∧ ∀ k < top, x ≤ V k → m ≤ k
  | nearest => m ≤ top ∧ ∀ k ≤ top, |V m - x| ≤ |V k - x| ∧ (|V m - x| = |V k - x| → k ≠ m → Even m)

/-- Between two neighbours, whether the upper one is taken. -/
def TakesUpper (V : ℕ → K) (mode : Rounding) (x : K) (m : ℕ) : Prop :=
  match mode with
  | down => False
  | up => V m < x
  | nearest => V (m + 1) - x < x - V m ∨ V (m + 1) - x = x - V m ∧ ¬ Even m

section Grid

variable (hV : StrictMonoOn V (Set.Iic top))
include hV

/-- **A number has one rounding.** -/
theorem RoundsTo.unique {mode : Rounding} {m' : ℕ} (h : RoundsTo V top mode x m)
    (h' : RoundsTo V top mode x m') : m = m' := by
  cases mode with
  | down =>
    obtain ⟨hlt, hle, hmax⟩ := h
    obtain ⟨hlt', hle', hmax'⟩ := h'
    exact le_antisymm (hmax' m hlt hle) (hmax m' hlt' hle')
  | up =>
    obtain ⟨hle, hge, hmin⟩ := h
    obtain ⟨hle', hge', hmin'⟩ := h'
    apply le_antisymm
    · rcases lt_or_eq_of_le hle' with hlt | rfl
      · exact hmin m' hlt (hge' hlt)
      · exact hle
    · rcases lt_or_eq_of_le hle with hlt | rfl
      · exact hmin' m hlt (hge hlt)
      · exact hle'
  | nearest =>
    -- two different ones would be even, with an odd one between them that is closer
    wlog hlt : m < m' generalizing m m'
    · rcases lt_or_eq_of_le (not_lt.1 hlt) with hgt | heq
      · exact (this h' h hgt).symm
      · exact heq.symm
    exfalso
    obtain ⟨hle, hclose⟩ := h
    obtain ⟨hle', hclose'⟩ := h'
    have hdist : |V m - x| = |V m' - x| := le_antisymm (hclose m' hle').1 (hclose' m hle).1
    have heven := (hclose m' hle').2 hdist (by omega)
    have heven' := (hclose' m hle).2 hdist.symm (by omega)
    have hgap : m + 1 < m' := by
      rcases heven with ⟨a, rfl⟩
      rcases heven' with ⟨b, rfl⟩
      omega
    have hmid : V m < V (m + 1) := lt_of_lt hV (by omega) (by omega)
    have hmid' : V (m + 1) < V m' := lt_of_lt hV hgap hle'
    have hbetween := (hclose (m + 1) (by omega)).1
    rcases abs_cases (V m - x) with ⟨h1, h1'⟩ | ⟨h1, h1'⟩ <;>
      rcases abs_cases (V m' - x) with ⟨h2, h2'⟩ | ⟨h2, h2'⟩ <;>
      rcases abs_cases (V (m + 1) - x) with ⟨h3, h3'⟩ | ⟨h3, h3'⟩ <;> linarith

/-- A number of the scale rounds to itself. -/
theorem roundsTo_self (mode : Rounding) (hm : m < top) : RoundsTo V top mode (V m) m := by
  cases mode with
  | down =>
    refine ⟨hm, le_rfl, fun k hk hle => ?_⟩
    by_contra hlt
    exact absurd hle (not_le.2 (lt_of_lt hV (not_le.1 hlt) hk.le))
  | up =>
    refine ⟨hm.le, fun _ => le_rfl, fun k hk hle => ?_⟩
    by_contra hlt
    exact absurd hle (not_le.2 (lt_of_lt hV (not_le.1 hlt) hm.le))
  | nearest =>
    refine ⟨hm.le, fun k hk => ⟨?_, fun heq hne => ?_⟩⟩
    · rw [sub_self, abs_zero]
      exact abs_nonneg _
    · rw [sub_self, abs_zero, eq_comm, abs_eq_zero, sub_eq_zero] at heq
      exact absurd (hV.injOn hk hm.le heq) hne

variable (hm : m + 1 ≤ top) (hlo : V m ≤ x) (hhi : x < V (m + 1))
include hm hlo hhi

/-- The neighbours of a number are the closest of the scale. -/
theorem neighbour_le (k : ℕ) (hk : k ≤ top) : k ≤ m ∧ x - V m ≤ |V k - x| ∨
    m + 1 ≤ k ∧ V (m + 1) - x ≤ |V k - x| := by
  rcases Nat.lt_or_ge m k with hgt | hle
  · right
    have hval := le_of_le hV hgt hk
    refine ⟨hgt, ?_⟩
    rw [abs_of_nonneg (by linarith)]
    linarith
  · left
    have hval := le_of_le hV hle (by omega)
    refine ⟨hle, ?_⟩
    rw [abs_of_nonpos (by linarith)]
    linarith

theorem roundsTo_lower {mode : Rounding} (h : ¬ TakesUpper V mode x m) : RoundsTo V top mode x m := by
  cases mode with
  | down =>
    refine ⟨by omega, hlo, fun k hk hle => ?_⟩
    by_contra hgt
    have hval := le_of_le hV (show m + 1 ≤ k by omega) hk.le
    linarith
  | up =>
    have heq : x = V m := le_antisymm (not_lt.1 h) hlo
    rw [heq]
    exact roundsTo_self hV up (by omega)
  | nearest =>
    have hself : |V m - x| = x - V m := by
      rw [abs_of_nonpos (by linarith), neg_sub]
    have hcloser : x - V m ≤ V (m + 1) - x := by
      by_contra hlt
      exact h (.inl (not_le.1 hlt))
    refine ⟨by omega, fun k hk => ?_⟩
    rw [hself]
    rcases neighbour_le hV hm hlo hhi k hk with ⟨hle, hdist⟩ | ⟨hge, hdist⟩
    · refine ⟨hdist, fun heq hne => ?_⟩
      have hval := lt_of_lt hV (show k < m by omega) (by omega)
      rw [abs_of_nonpos (by linarith)] at heq
      linarith
    · refine ⟨by linarith, fun heq _ => ?_⟩
      by_contra hodd
      exact h (.inr ⟨by linarith, hodd⟩)

theorem roundsTo_upper {mode : Rounding} (h : TakesUpper V mode x m) : RoundsTo V top mode x (m + 1) := by
  cases mode with
  | down => exact h.elim
  | up =>
    refine ⟨hm, fun _ => hhi.le, fun k hk hle => ?_⟩
    by_contra hlt
    have hval := le_of_le hV (show k ≤ m by omega) (by omega)
    have hpos : V m < x := h
    linarith
  | nearest =>
    have hself : |V (m + 1) - x| = V (m + 1) - x := abs_of_nonneg (by linarith)
    have hcloser : V (m + 1) - x ≤ x - V m := by
      rcases h with hlt | ⟨heq, _⟩
      · exact hlt.le
      · exact heq.le
    refine ⟨hm, fun k hk => ?_⟩
    rw [hself]
    rcases neighbour_le hV hm hlo hhi k hk with ⟨hle, hdist⟩ | ⟨hge, hdist⟩
    · refine ⟨by linarith, fun heq _ => ?_⟩
      rcases h with hlt | ⟨_, hodd⟩
      · linarith
      · exact Nat.even_add_one.2 hodd
    · refine ⟨hdist, fun heq hne => ?_⟩
      have hval := lt_of_lt hV (show m + 1 < k by omega) hk
      rw [abs_of_nonneg (by linarith)] at heq
      linarith

end Grid

section Beyond

variable (hV : StrictMonoOn V (Set.Iic top))
include hV

/-- Beyond the scale: the last of it rounding down, the index beyond it otherwise. -/
theorem roundsTo_of_le_top (htop : 0 < top) (hx : V top ≤ x) (mode : Rounding) :
    RoundsTo V top mode x (if mode = down then top - 1 else top) := by
  cases mode with
  | down =>
    have hlast := lt_of_lt hV (show top - 1 < top by omega) le_rfl
    refine ⟨?_, ?_, fun k hk _ => ?_⟩
    · simp only [if_true]
      omega
    · simp only [if_true]
      linarith
    · simp only [if_true]
      omega
  | up =>
    refine ⟨le_rfl, fun h => absurd h (lt_irrefl _), fun k hk hle => ?_⟩
    have hval := lt_of_lt hV hk le_rfl
    linarith
  | nearest =>
    refine ⟨le_rfl, fun k hk => ?_⟩
    simp only [reduceCtorEq, if_false]
    rcases lt_or_eq_of_le hk with hlt | rfl
    · have hval := lt_of_lt hV hlt le_rfl
      rw [abs_of_nonpos (by linarith), abs_of_nonpos (by linarith)]
      refine ⟨by linarith, fun heq _ => ?_⟩
      linarith
    · exact ⟨le_rfl, fun _ hne => absurd rfl hne⟩

end Beyond

end Rounding
