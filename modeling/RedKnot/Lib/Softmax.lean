import Mathlib.Tactic

/-! Softmax averages over an ordered field, with any positive function in the place of `exp`. A
score `none` is minus infinity and weighs nothing; a row `none` is not a number. -/

namespace RedKnot

open Finset Function List

/-- A positive function, in the place of `exp`. -/
structure PositiveWeight (K : Type) [Zero K] [LT K] where
  toFun : K → K
  pos : ∀ x, 0 < toFun x

variable {K : Type} [Field K] [LinearOrder K]

def PositiveWeight.of (w : PositiveWeight K) : Option K → K
  | none => 0
  | some score => w.toFun score

/-- `softmax` of one row of scores: `0 / 0` where every score is minus infinity. -/
def softmax (w : PositiveWeight K) (scores : List (Option K)) : Option (List K) :=
  let total := (scores.map w.of).sum
  if scores ≠ [] ∧ total = 0 then none else some (scores.map fun score => w.of score / total)

/-- One row of a matrix product: the rows of `values` summed with the factors `probs`. -/
def combine {D : Nat} (probs : List K) (values : List (Fin D → K)) : Fin D → K :=
  fun d => (zipWith (fun p value => p * value d) probs values).sum

/-- `softmax(scores) @ values` for one row of scores. -/
def softmaxMean {D : Nat} (w : PositiveWeight K) (scores : List (Option K))
    (values : List (Fin D → K)) : Option (Fin D → K) :=
  (softmax w scores).map fun probs => combine probs values

/-- The mean of `value` over a set, weighted by the scores. -/
def weightedMean {ι : Type} {D : Nat} (w : PositiveWeight K) (seen : Finset ι) (score : ι → K)
    (value : ι → Fin D → K) : Fin D → K :=
  fun d => (∑ j ∈ seen, w.toFun (score j) * value j d) / ∑ j ∈ seen, w.toFun (score j)

variable {ι : Type} [DecidableEq ι] {D : Nat} {w : PositiveWeight K} {score : ι → K}
  {value : ι → Fin D → K} {keys : List ι}

omit [LinearOrder K] [DecidableEq ι] in
theorem combine_map (prob : ι → K) (value : ι → Fin D → K) (keys : List ι) (d : Fin D) :
    combine (keys.map prob) (keys.map value) d = (keys.map fun j => prob j * value j d).sum := by
  simp [combine, zipWith_map]

theorem softmaxMean_masked [IsStrictOrderedRing K] (seen : ι → Bool) (distinct : keys.Nodup)
    (some_seen : ∃ j ∈ keys, seen j) :
    softmaxMean w (keys.map fun j => if seen j then some (score j) else none) (keys.map value) =
      some (weightedMean w (keys.toFinset.filter fun j => seen j) score value) := by
  have weights : ∀ j, w.of (if seen j then some (score j) else none) =
      if seen j then w.toFun (score j) else 0 := by
    intro j
    cases seen j <;> rfl
  have total : ((keys.map fun j => if seen j then some (score j) else none).map w.of).sum =
      ∑ j ∈ keys.toFinset.filter fun j => seen j, w.toFun (score j) := by
    simp only [List.map_map, comp_def, weights]
    rw [sum_filter, sum_toFinset _ distinct]
  have positive : 0 < ∑ j ∈ keys.toFinset.filter fun j => seen j, w.toFun (score j) := by
    obtain ⟨j, hj, visible⟩ := some_seen
    exact Finset.sum_pos (fun j _ => w.pos _)
      ⟨j, Finset.mem_filter.mpr ⟨mem_toFinset.mpr hj, visible⟩⟩
  simp only [softmaxMean, softmax, total, positive.ne', and_false, if_false, Option.map_some]
  congr 1
  funext d
  simp only [List.map_map, comp_def, weights]
  unfold weightedMean
  generalize ∑ j ∈ keys.toFinset.filter fun j => seen j, w.toFun (score j) = norm
  rw [combine_map, ← sum_toFinset _ distinct, sum_div, sum_filter]
  apply sum_congr rfl
  intro j _
  cases seen j
  · simp
  · simp [div_mul_eq_mul_div]

theorem softmaxMean_all [IsStrictOrderedRing K] (distinct : keys.Nodup) (nonempty : keys ≠ []) :
    softmaxMean w (keys.map fun j => some (score j)) (keys.map value) =
      some (weightedMean w keys.toFinset score value) := by
  obtain ⟨j, hj⟩ := exists_mem_of_ne_nil keys nonempty
  have masked : softmaxMean w (keys.map fun j => if true then some (score j) else none)
      (keys.map value) = _ := softmaxMean_masked (fun _ => true) distinct ⟨j, hj, rfl⟩
  simpa using masked

end RedKnot
