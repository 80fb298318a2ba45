import Mathlib.Tactic

/-! The sum of the largest entries of a list. -/

variable {K : Type} [AddCommMonoid K] [LinearOrder K]

def largestSum (xs : List K) (m : Nat) : K := ((xs.insertionSort (· ≥ ·)).take m).sum

namespace LargestSum

open List

variable {xs ys zs top rest : List K}

theorem eq_take (same : zs.Perm xs) (sorted : zs.Pairwise (· ≥ ·)) (m : Nat) :
    largestSum xs m = (zs.take m).sum := by
  rw [largestSum, ((perm_insertionSort _ xs).trans same.symm).eq_of_pairwise'
    (pairwise_insertionSort _ xs) sorted]

theorem eq_sum (same : (top ++ rest).Perm xs) (above : ∀ x ∈ top, ∀ y ∈ rest, y ≤ x) :
    largestSum xs top.length = top.sum := by
  have here := perm_insertionSort (· ≥ ·) top
  have there := perm_insertionSort (· ≥ ·) rest
  rw [eq_take ((here.append there).trans same), ← here.length_eq, take_left, here.sum_eq]
  refine pairwise_append.mpr ⟨pairwise_insertionSort _ _,
    pairwise_insertionSort _ _, fun x hx y hy => ?_⟩
  exact above x (here.mem_iff.mp hx) y (there.mem_iff.mp hy)

variable [IsOrderedAddMonoid K]

theorem mono (nonneg : ∀ x ∈ xs, 0 ≤ x) {m n : Nat} (le : m ≤ n) :
    largestSum xs m ≤ largestSum xs n := by
  refine Sublist.sum_le_sum (take_sublist_take_left le) fun x member => ?_
  exact nonneg x ((perm_insertionSort _ xs).mem_iff.mp (mem_of_mem_take member))

end LargestSum
