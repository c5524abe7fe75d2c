import Mathlib.Algebra.BigOperators.Group.Finset.Piecewise
import Mathlib.Algebra.Order.BigOperators.Group.Finset
import Mathlib.Data.Fintype.Basic

/-!
# Sums over all bit vectors

The total of a quantity that every bit vector of some width has, and what becomes of
it when the quantity of one vector changes. Statements are additive, so that no
subtraction of natural numbers is needed.
-/

namespace CloakBridge

open Finset

variable {w : Nat} {f g : BitVec w → Nat}

/-- The sum of a quantity over all bit vectors. -/
def total (f : BitVec w → Nat) : Nat := ∑ i : Fin (2 ^ w), f (.ofFin i)

@[simp] theorem total_zero : total (fun _ : BitVec w => 0) = 0 := sum_const_zero

/-- A total changes by as much as the one quantity that changes. -/
theorem total_add_of_eq_off {a : BitVec w} (h : ∀ b, b ≠ a → g b = f b) :
    total g + f a = total f + g a := by
  have hsplit : ∀ f' : BitVec w → Nat,
      total f' = f' a + ∑ i ∈ Finset.univ.erase a.toFin, f' (.ofFin i) := fun f' =>
    (add_sum_erase _ (fun i => f' (.ofFin i)) (mem_univ a.toFin)).symm
  have hrest : ∑ i ∈ Finset.univ.erase a.toFin, g (.ofFin i) =
      ∑ i ∈ Finset.univ.erase a.toFin, f (.ofFin i) := by
    refine sum_congr rfl fun i hi => h _ ?_
    rintro rfl
    exact ne_of_mem_erase hi rfl
  rw [hsplit f, hsplit g, hrest]
  omega

/-- One quantity is at most the total. -/
theorem le_total (f : BitVec w → Nat) (a : BitVec w) : f a ≤ total f :=
  single_le_sum (f := fun i => f (.ofFin i)) (fun _ _ => Nat.zero_le _)
    (mem_univ a.toFin)

end CloakBridge
