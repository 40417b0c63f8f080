import Mathlib

/-!
# Sums over workers

What several workers have together is a sum over their slots.  When one of them
moves, its own part of the sum changes and the rest stays.
-/

namespace Rapi.Foundation

open Finset

variable {ι α M : Type*} [Fintype ι] [DecidableEq ι] [AddCommMonoid M]

theorem sum_slot (f : α → M) (slots : ι → α) (i : ι) :
    ∑ j, f (slots j) = f (slots i) + ∑ j ∈ univ.erase i, f (slots j) :=
  (add_sum_erase _ _ (mem_univ i)).symm

theorem sum_update_slot (f : α → M) (slots : ι → α) (i : ι) (a : α) :
    ∑ j, f (Function.update slots i a j) = f a + ∑ j ∈ univ.erase i, f (slots j) := by
  rw [sum_slot f _ i, Function.update_self]
  congr 1
  refine sum_congr rfl fun j hj => ?_
  rw [Function.update_of_ne (ne_of_mem_erase hj)]

end Rapi.Foundation
