import Mathlib.Tactic
import RedKnot.Python

/-! The Sparse FFN of the online prefill (`redknot/sparse_ffn.py`), for one row of the batch. Scores
are exact rationals. -/

namespace RedKnot.SparseFFN

open List

structure SparseFFNSchedule where
  denseUntil : Int := 5
  massThresh : ℚ := 3 / 5
  deepLayerStart : Int := 48
  massThreshDeep : Option ℚ := none
  recentN : Int := 128
  minKeep : Int := 1

namespace SparseFFNSchedule

def getMassThresh (schedule : SparseFFNSchedule) (layerIdx : Nat) : ℚ :=
  if (layerIdx : Int) < schedule.denseUntil then 1
  else
    match schedule.massThreshDeep with
    | some deep => if schedule.deepLayerStart ≤ layerIdx then deep else schedule.massThresh
    | none => schedule.massThresh

def isDenseLayer (schedule : SparseFFNSchedule) (layerIdx : Nat) : Bool :=
  decide ((layerIdx : Int) < schedule.denseUntil) || decide (1 ≤ schedule.getMassThresh layerIdx)

end SparseFFNSchedule

/-- The indices that `torch.sort(descending=True)` and `torch.topk` return, with what is documented
of them. The order of equal scores is left open. -/
structure Ranking where
  sort : List ℚ → List Nat
  sort_perm : ∀ imp, (sort imp).Perm (range imp.length)
  descending : ∀ imp, (sort imp).Pairwise fun i j => imp.getD j 0 ≤ imp.getD i 0
  topk : Nat → List ℚ → List Nat
  topk_nodup : ∀ k imp, (topk k imp).Nodup
  topk_length : ∀ k imp, k ≤ imp.length → (topk k imp).length = k
  topk_lt : ∀ k imp, ∀ i ∈ topk k imp, i < imp.length
  topk_largest : ∀ k imp, ∀ i ∈ topk k imp, ∀ j < imp.length, j ∉ topk k imp →
    imp.getD j 0 ≤ imp.getD i 0

/-- `torch.finfo(torch.float32).tiny`. -/
def float32Tiny : ℚ := 1 / 2 ^ 126

/-- `torch.cumsum`, from a sum of `acc`. -/
def cumsum : ℚ → List ℚ → List ℚ
  | _, [] => []
  | acc, x :: xs => (acc + x) :: cumsum (acc + x) xs

/-- `keep.scatter_(1, idx, values)` on one row. -/
def scatter (keep : List Bool) (idx : List Nat) (values : List Bool) : List Bool :=
  (idx.zip values).foldl (fun keep e => keep.set e.1 e.2) keep

def topP (ranking : Ranking) (massThresh : ℚ) (imp : List ℚ) : Except PyError (List Bool) :=
  let sortedIdx := ranking.sort imp
  let cum := cumsum 0 (sortedIdx.map fun i => imp.getD i 0)
  let denom := max imp.sum float32Tiny
  match cum.map fun c => decide (c / denom < massThresh) with
  -- `rank_keep[..., 0] = True` has no such column in an empty row
  | [] => .error .indexError
  | _ :: rankKeep => .ok (scatter (imp.map fun _ => false) sortedIdx (true :: rankKeep))

def keepRecent (recentN : Int) (keep : List Bool) : List Bool :=
  if 0 < recentN then
    let n := min recentN.toNat keep.length
    keep.mapIdx fun p kept => kept || decide (keep.length - n ≤ p)
  else keep

def keepFloor (ranking : Ranking) (minKeep : Int) (imp : List ℚ) (keep : List Bool) : List Bool :=
  if 0 < minKeep ∧ (keep.count true : Int) < minKeep then
    let floor := ranking.topk (min minKeep.toNat imp.length) imp
    keep.mapIdx fun p kept => kept || decide (p ∈ floor)
  else keep

def selectImportantTokens (ranking : Ranking) (schedule : SparseFFNSchedule)
    (massThreshOverride : Option ℚ) (importance : List ℚ) : Except PyError (List Bool) :=
  let massThresh := massThreshOverride.getD schedule.massThresh
  if 1 ≤ massThresh then .ok (importance.map fun _ => true)
  else do
    let imp := importance.map fun score => max score 0
    let keep ← topP ranking massThresh imp
    let keep := keepFloor ranking schedule.minKeep imp (keepRecent schedule.recentN keep)
    .ok (if imp.sum ≤ 0 then imp.map fun _ => true else keep)

theorem length_cumsum (acc : ℚ) (xs : List ℚ) : (cumsum acc xs).length = xs.length := by
  induction xs generalizing acc with
  | nil => rfl
  | cons x xs ih => simp [cumsum, ih]

theorem length_scatter (keep : List Bool) (idx : List Nat) (values : List Bool) :
    (scatter keep idx values).length = keep.length := by
  unfold scatter
  induction idx.zip values generalizing keep with
  | nil => rfl
  | cons e rest ih => rw [foldl_cons, ih, length_set]

theorem topP_returns (ranking : Ranking) (massThresh : ℚ) (imp : List ℚ) (some_token : imp ≠ []) :
    ∃ keep, topP ranking massThresh imp = .ok keep := by
  have sorted : (ranking.sort imp).length = imp.length := by
    simpa using (ranking.sort_perm imp).length_eq
  unfold topP
  dsimp only
  split
  · next none =>
    have empty := congrArg length none
    rw [length_map, length_cumsum, length_map, sorted] at empty
    exact absurd (length_eq_zero_iff.mp empty) some_token
  · exact ⟨_, rfl⟩

theorem length_topP {ranking : Ranking} {massThresh : ℚ} {imp : List ℚ} {keep : List Bool}
    (chosen : topP ranking massThresh imp = .ok keep) : keep.length = imp.length := by
  unfold topP at chosen
  dsimp only at chosen
  split at chosen
  · cases chosen
  · cases chosen
    rw [length_scatter, length_map]

theorem selectImportantTokens_returns (ranking : Ranking) (schedule : SparseFFNSchedule)
    (massThreshOverride : Option ℚ) {importance : List ℚ} (some_token : importance ≠ []) :
    ∃ keep, selectImportantTokens ranking schedule massThreshOverride importance = .ok keep := by
  unfold selectImportantTokens
  dsimp only
  split
  · exact ⟨_, rfl⟩
  · obtain ⟨keep, chosen⟩ := topP_returns ranking (massThreshOverride.getD schedule.massThresh)
      (importance.map fun score => max score 0) (by simpa using some_token)
    rw [chosen]
    exact ⟨_, rfl⟩

theorem getElem?_cumsum (acc : ℚ) (xs : List ℚ) {j : Nat} (inside : j < xs.length) :
    (cumsum acc xs)[j]? = some (acc + (xs.take (j + 1)).sum) := by
  induction xs generalizing acc j with
  | nil => exact absurd inside (Nat.not_lt_zero _)
  | cons x xs ih =>
    cases j with
    | zero => simp [cumsum]
    | succ j =>
      rw [cumsum, getElem?_cons_succ, ih _ (Nat.lt_of_succ_lt_succ inside), take_succ_cons,
        sum_cons, add_assoc]

theorem scatter_of_not_mem {idx : List Nat} {i : Nat} (other : i ∉ idx) (keep values : List Bool) :
    (scatter keep idx values)[i]? = keep[i]? := by
  induction idx generalizing keep values with
  | nil => rfl
  | cons a idx ih =>
    cases values with
    | nil => rfl
    | cons v values =>
      obtain ⟨apart, later⟩ := not_or.mp (mt mem_cons.mpr other)
      exact (ih later (keep.set a v) values).trans (getElem?_set_ne (Ne.symm apart))

theorem getElem?_scatter {idx : List Nat} (distinct : idx.Nodup) {keep values : List Bool}
    {i j : Nat} (listed : idx[j]? = some i) (sized : j < values.length)
    (inside : i < keep.length) : (scatter keep idx values)[i]? = values[j]? := by
  induction idx generalizing keep values j with
  | nil => cases listed
  | cons a idx ih =>
    obtain ⟨apart, distinct⟩ := nodup_cons.mp distinct
    cases values with
    | nil => exact absurd sized (Nat.not_lt_zero _)
    | cons v values =>
      change (scatter (keep.set a v) idx values)[i]? = _
      cases j with
      | zero =>
        cases listed
        rw [scatter_of_not_mem apart]
        simp [inside]
      | succ j =>
        exact ih distinct listed (Nat.lt_of_succ_lt_succ sized) (by rwa [length_set])

/-- A token is kept by its rank: the first, and those below the threshold. -/
theorem topP_rank {ranking : Ranking} {massThresh : ℚ} {imp : List ℚ} {keep : List Bool}
    (chosen : topP ranking massThresh imp = .ok keep) {i j : Nat}
    (listed : (ranking.sort imp)[j]? = some i) :
    keep.getD i false = (decide (j = 0) ||
      decide ((((ranking.sort imp).take (j + 1)).map fun i => imp.getD i 0).sum /
        max imp.sum float32Tiny < massThresh)) := by
  have perm := ranking.sort_perm imp
  have ranked : j < (ranking.sort imp).length := (List.getElem?_eq_some_iff.mp listed).1
  have inside : i < imp.length := mem_range.mp (perm.mem_iff.mp (mem_of_getElem? listed))
  have cum := getElem?_cumsum 0 ((ranking.sort imp).map fun i => imp.getD i 0)
    (by rwa [length_map])
  rw [zero_add, ← map_take] at cum
  unfold topP at chosen
  dsimp only at chosen
  split at chosen
  · cases chosen
  · next first rankKeep ranks =>
    cases chosen
    have sized : (first :: rankKeep).length = (ranking.sort imp).length := by
      rw [← ranks, length_map, length_cumsum, length_map]
    rw [getD_eq_getElem?_getD, getElem?_scatter (perm.nodup_iff.mpr nodup_range) listed
      (by simpa [← sized] using ranked) (by rwa [length_map])]
    cases j with
    | zero => rfl
    | succ j =>
      have below := congrArg (·[j + 1]?) ranks
      simp only [getElem?_map, cum, Option.map_some, getElem?_cons_succ] at below
      rw [getElem?_cons_succ, ← below]
      simp

theorem length_keepRecent (recentN : Int) (keep : List Bool) :
    (keepRecent recentN keep).length = keep.length := by
  unfold keepRecent
  split
  · exact length_mapIdx
  · rfl

theorem getD_keepRecent (recentN : Int) {keep : List Bool} {r : Nat} (inside : r < keep.length) :
    (keepRecent recentN keep).getD r false =
      (keep.getD r false || decide ((keep.length : Int) ≤ recentN + r)) := by
  unfold keepRecent
  split
  · have reached : keep.length ≤ r + min recentN.toNat keep.length ↔
        (keep.length : Int) ≤ recentN + r := by omega
    simp [getD_eq_getElem?_getD, inside, reached]
  · have early : ¬ (keep.length : Int) ≤ recentN + r := by omega
    simp [early]

/-- What `torch.sort` may return for a row of scores. -/
structure Ranks (imp : List ℚ) (order : List Nat) : Prop where
  perm : order.Perm (range imp.length)
  descending : order.Pairwise fun i j => imp.getD j 0 ≤ imp.getD i 0

def Ranking.ofOrder (order : List ℚ → List Nat) (ranks : ∀ imp, Ranks imp (order imp)) :
    Ranking where
  sort := order
  sort_perm imp := (ranks imp).perm
  descending imp := (ranks imp).descending
  topk k imp := (order imp).take k
  topk_nodup _ imp := ((ranks imp).perm.nodup_iff.mpr nodup_range).sublist (take_sublist _ _)
  topk_length k imp small := by
    have sorted := (ranks imp).perm.length_eq
    rw [length_range] at sorted
    rw [length_take, sorted]
    omega
  topk_lt _ imp i member := mem_range.mp ((ranks imp).perm.mem_iff.mp (mem_of_mem_take member))
  topk_largest k imp i member j inside out := by
    have listed : j ∈ order imp := (ranks imp).perm.mem_iff.mpr (mem_range.mpr inside)
    have ordered := (ranks imp).descending
    rw [← take_append_drop k (order imp)] at listed ordered
    have later := (mem_append.mp listed).resolve_left out
    exact (pairwise_append.mp ordered).2.2 i member j later

/-! ### A ranking that keeps the order of equal scores -/

def stableSort (imp : List ℚ) : List Nat :=
  (range imp.length).insertionSort fun i j => imp.getD j 0 ≤ imp.getD i 0

theorem stableSort_ranks (imp : List ℚ) : Ranks imp (stableSort imp) := by
  have : Std.Total fun i j : Nat => imp.getD j 0 ≤ imp.getD i 0 := ⟨fun i j => le_total _ _⟩
  have : IsTrans Nat fun i j => imp.getD j 0 ≤ imp.getD i 0 := ⟨fun i j k hij hjk => hjk.trans hij⟩
  exact ⟨perm_insertionSort _ _, pairwise_insertionSort _ _⟩

def stableRanking : Ranking := .ofOrder stableSort stableSort_ranks

end RedKnot.SparseFFN
