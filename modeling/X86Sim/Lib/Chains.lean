import Mathlib.Logic.Relation
import Mathlib.Data.List.Nodup

/-!
# Chains of small steps

An operation on a state, written as a fold or a bounded loop, is a chain of small
steps of a relation `r`; what every small step keeps, the operation keeps. Guards of
small steps may need an invariant of `r`, so the rules carry one.

* `chain_inv`: an invariant along a chain.
* `chain_foldl`: a fold over the members of a list that each pass a G.
-/

open Relation

section Chains

variable {σ α : Type} {r : σ → σ → Prop} {I : σ → Prop}

/-- Every step of `r` keeps `I`. -/
def Keeps (r : σ → σ → Prop) (I : σ → Prop) : Prop := ∀ s s', I s → r s s' → I s'

theorem chain_inv (hkeeps : Keeps r I) {s s' : σ} (hs : I s) (h : ReflTransGen r s s') :
    I s' := by
  induction h with
  | refl => exact hs
  | tail _ hstep ih => exact hkeeps _ _ ih hstep

/-- A fold is a chain when each of its turns is one and leaves the guards of the
elements to come alone. -/
theorem chain_foldl (hkeeps : Keeps r I) {f : σ → α → σ} {G : σ → α → Prop}
    (hstep : ∀ s a, I s → G s a → ReflTransGen r s (f s a))
    (hguard : ∀ s a b, I s → G s a → G s b → b ≠ a → G (f s a) b) (l : List α)
    (hl : l.Nodup) {s : σ} (hs : I s) (hall : ∀ a ∈ l, G s a) :
    ReflTransGen r s (l.foldl f s) := by
  induction l generalizing s with
  | nil => exact ReflTransGen.refl
  | cons a l ih =>
    obtain ⟨hnot, hnodup⟩ := List.nodup_cons.1 hl
    have ha := hall a List.mem_cons_self
    have hfirst := hstep s a hs ha
    refine hfirst.trans (ih hnodup (chain_inv hkeeps hs hfirst) fun b hb => ?_)
    have hba : b ≠ a := by rintro rfl; exact hnot hb
    exact hguard s a b hs ha (hall b (List.mem_cons_of_mem a hb)) hba

end Chains
