import Mathlib.Data.Set.Basic

/-!
# Caches with dirty marks

A cache of derived values over pages of source data. A mutation need not drop the
entries it makes stale, as long as it marks a page they lie on; a lookup first
drops the entries of the marked pages it touches.

* `Coherent.step`: what a step must show to keep the cache coherent.
* `Coherent.fresh_of_clean`: an entry on clean pages is what a recomputation gives.
-/

namespace DirtyCache

variable {V P : Type*} {entries entries' : Set V} {on : V → P → Prop} {dirty dirty' : P → Prop}
  {fresh fresh' : V → Prop}

/-- Every entry lies on a dirty page or is fresh: what a recomputation would give. -/
def Coherent (entries : Set V) (on : V → P → Prop) (dirty : P → Prop) (fresh : V → Prop) : Prop :=
  ∀ v ∈ entries, (∃ p, on v p ∧ dirty p) ∨ fresh v

/-- **A step keeps coherence** when each entry it adds is fresh, each mark it clears
leaves only fresh entries on that page, and each entry it makes stale lies on a
page it leaves dirty. -/
theorem Coherent.step (h : Coherent entries on dirty fresh)
    (hadd : ∀ v ∈ entries', v ∈ entries ∨ fresh' v)
    (hclear : ∀ v ∈ entries', ∀ p, on v p → dirty p → dirty' p ∨ fresh' v)
    (hstale : ∀ v ∈ entries', fresh v → (∃ p, on v p ∧ dirty' p) ∨ fresh' v) :
    Coherent entries' on dirty' fresh' := by
  intro v hv
  rcases hadd v hv with hold | hnew
  · rcases h v hold with ⟨p, hon, hd⟩ | hf
    · rcases hclear v hv p hon hd with hd' | hf'
      · exact .inl ⟨p, hon, hd'⟩
      · exact .inr hf'
    · exact hstale v hv hf
  · exact .inr hnew

/-- Dropping entries and clearing the marks of pages that keep only fresh entries. -/
theorem Coherent.drop (h : Coherent entries on dirty fresh) (hsub : entries' ⊆ entries)
    (hclear : ∀ v ∈ entries', ∀ p, on v p → dirty p → dirty' p ∨ fresh v) :
    Coherent entries' on dirty' fresh :=
  h.step (fun _ hv => .inl (hsub hv)) hclear fun _ _ hf => .inr hf

/-- An entry none of whose pages is dirty is fresh. -/
theorem Coherent.fresh_of_clean (h : Coherent entries on dirty fresh) {v : V} (hv : v ∈ entries)
    (hclean : ∀ p, on v p → ¬ dirty p) : fresh v := by
  rcases h v hv with ⟨p, hon, hd⟩ | hf
  · exact absurd hd (hclean p hon)
  · exact hf

end DirtyCache
