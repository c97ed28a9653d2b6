import Mathlib.Algebra.Ring.Nat
import Mathlib.Data.Fin.Basic
import Mathlib.Logic.Function.Basic

/-!
# Stacks in a ring of registers

A top, and for each register of the ring whether it is occupied. A push moves the top down
and occupies it, a pop frees it and moves the top up.
-/

/-- The top of a ring of `n` registers, and those occupied. -/
@[ext] structure RingStack (n : ℕ) [NeZero n] where
  top : Fin n
  full : Fin n → Bool

namespace RingStack

variable {n : ℕ} [NeZero n] (k : RingStack n) (i : Fin n)

/-- The register `i` below the top. -/
def reg : Fin n := k.top + i

/-- A register becomes occupied. -/
def mark : RingStack n := { k with full := Function.update k.full (k.reg i) true }

/-- A register becomes free. -/
def free : RingStack n := { k with full := Function.update k.full (k.reg i) false }

/-- The top is moved up by `i`. -/
def turn : RingStack n := { k with top := k.top + i }

def push : RingStack n := (k.turn (-1)).mark 0

def pop : RingStack n := (k.free 0).turn 1

/-- Nothing is occupied, and the top is the first register. -/
def init : RingStack n := ⟨0, fun _ => false⟩

variable {k i}

/-- A change of one register that changes nothing. -/
theorem update_full_iff {p : Fin n} {b : Bool} : Function.update k.full p b = k.full ↔ k.full p = b :=
  Function.update_eq_self_iff.trans eq_comm

theorem mark_eq_iff : k = k.mark i ↔ k.full (k.reg i) = true := by
  rw [← update_full_iff]
  exact ⟨fun h => (congrArg full h).symm, fun h => RingStack.ext rfl h.symm⟩

theorem free_eq_iff : k = k.free i ↔ k.full (k.reg i) = false := by
  rw [← update_full_iff]
  exact ⟨fun h => (congrArg full h).symm, fun h => RingStack.ext rfl h.symm⟩

/-- A pop that only turns, where the top was free. -/
theorem turn_eq_pop_iff : k.turn 1 = k.pop ↔ k.full (k.reg 0) = false := by
  rw [← free_eq_iff]
  refine ⟨fun h => ?_, fun h => congrArg (fun k => turn k 1) h⟩
  have hfull : (k.turn 1).full = k.pop.full := congrArg full h
  exact RingStack.ext rfl hfull

end RingStack
