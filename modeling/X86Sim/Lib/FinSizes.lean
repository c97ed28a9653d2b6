import Mathlib.Algebra.Ring.Nat

/-!
# Sizes of numbered sets

The literals of `Fin n` for the sizes a machine numbers its registers, ports and lanes with:
each size is not zero.
-/

namespace FinSizes

instance neZero_two : NeZero 2 := ⟨by decide⟩

instance neZero_three : NeZero 3 := ⟨by decide⟩

instance neZero_four : NeZero 4 := ⟨by decide⟩

instance neZero_six : NeZero 6 := ⟨by decide⟩

instance neZero_eight : NeZero 8 := ⟨by decide⟩

instance neZero_sixteen : NeZero 16 := ⟨by decide⟩

instance neZero_eighty : NeZero 80 := ⟨by decide⟩

end FinSizes
