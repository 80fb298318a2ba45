import RedKnot.Attention.Driver.LayerMajor

/-! Which padding of a segment the Sparse FFN selection sees. -/

namespace RedKnot.Driver

open SparseFFN List

def padRow (scores : List ℚ) (len : Nat) : List ℚ :=
  scores ++ replicate (len - scores.length) 0

/-- Of the tokens of a segment the layer selects the same, whether it is padded to one length or to
the other. -/
def PaddingUnseen (ranking : Ranking) (schedule : SparseFFNSchedule)
    (layer len padded padded' : Nat) : Prop :=
  ∀ scores : List ℚ, scores.length = len → (∀ score ∈ scores, 0 ≤ score) → ∀ r < len,
    (keepMask ranking schedule layer (padRow scores padded)).getD r false =
      (keepMask ranking schedule layer (padRow scores padded')).getD r false

theorem length_padRow {scores : List ℚ} {size : Nat} (long : scores.length ≤ size) :
    (padRow scores size).length = size := by
  rw [padRow, length_append, length_replicate]
  omega

theorem padRow_nonneg {scores : List ℚ} (nonneg : ∀ score ∈ scores, 0 ≤ score) (size : Nat) :
    ∀ score ∈ padRow scores size, 0 ≤ score := by
  intro score member
  rcases mem_append.mp member with own | zero
  · exact nonneg score own
  · rw [eq_of_mem_replicate zero]

theorem sum_padRow (scores : List ℚ) (size : Nat) : (padRow scores size).sum = scores.sum := by
  rw [padRow, sum_append, sum_replicate, smul_zero, add_zero]

theorem clamp_eq {row : List ℚ} (nonneg : ∀ score ∈ row, 0 ≤ score) :
    row.map (fun score => max score 0) = row := by
  conv_rhs => rw [← map_id row]
  exact map_congr_left fun score member => max_eq_left (nonneg score member)

section

variable {ranking : Ranking} {schedule : SparseFFNSchedule} {layer : Nat} {row : List ℚ}

section

variable (sparse : schedule.getMassThresh layer < 1) (nonneg : ∀ score ∈ row, 0 ≤ score)
  {part : List Bool} (chosen : topP ranking (schedule.getMassThresh layer) row = .ok part) {r : Nat}
  (inside : r < row.length)

include sparse nonneg chosen inside

theorem keepMask_zero (none : row.sum ≤ 0) :
    (keepMask ranking schedule layer row).getD r false = true := by
  simp only [keepMask, selectImportantTokens, Option.getD_some, if_neg (not_le.mpr sparse),
    clamp_eq nonneg, chosen, ok_bind, if_pos none]
  simp [getD_eq_getElem?_getD, inside]

/-- What keeps a token: its rank, the recent tokens or the floor. -/
theorem keepMask_at (total : 0 < row.sum) :
    (keepMask ranking schedule layer row).getD r false = (part.getD r false ||
      decide ((row.length : Int) ≤ schedule.recentN + r) || decide (0 < schedule.minKeep ∧
        ((keepRecent schedule.recentN part).count true : Int) < schedule.minKeep ∧
        r ∈ ranking.topk (min schedule.minKeep.toNat row.length) row)) := by
  have sized := length_topP chosen
  have recent := getD_keepRecent schedule.recentN (sized ▸ inside : r < part.length)
  have mask : keepMask ranking schedule layer row =
      keepFloor ranking schedule.minKeep row (keepRecent schedule.recentN part) := by
    simp only [keepMask, selectImportantTokens, Option.getD_some, if_neg (not_le.mpr sparse),
      clamp_eq nonneg, chosen, ok_bind, if_neg (not_le.mpr total)]
  have there : r < (keepRecent schedule.recentN part).length := by
    rwa [length_keepRecent, sized]
  rw [mask, ← sized, ← recent, sized, keepFloor]
  split
  · next runs => simp [getD_eq_getElem?_getD, there, runs]
  · next idle =>
    have out : ¬ (0 < schedule.minKeep ∧
        ((keepRecent schedule.recentN part).count true : Int) < schedule.minKeep ∧
        r ∈ ranking.topk (min schedule.minKeep.toNat row.length) row) :=
      fun floor => idle ⟨floor.1, floor.2.1⟩
    simp [out]

end

theorem topk_all (ranking : Ranking) {r : Nat} (inside : r < row.length) :
    r ∈ ranking.topk row.length row := by
  have subperm := (ranking.topk_nodup row.length row).subperm fun i member =>
    mem_range.mpr (ranking.topk_lt _ _ i member)
  refine (subperm.perm_of_length_le ?_).mem_iff.mpr (mem_range.mpr inside)
  rw [length_range, ranking.topk_length _ _ le_rfl]

theorem keepMask_all (nonneg : ∀ score ∈ row, 0 ≤ score) (all : 1 ≤ schedule.getMassThresh layer ∨
      (row.length : Int) ≤ schedule.recentN ∨ (row.length : Int) ≤ schedule.minKeep) {r : Nat}
    (inside : r < row.length) : (keepMask ranking schedule layer row).getD r false = true := by
  rcases le_or_gt 1 (schedule.getMassThresh layer) with dense | sparse
  · simp [keepMask, selectImportantTokens, dense, inside]
  obtain ⟨part, chosen⟩ := topP_returns ranking (schedule.getMassThresh layer) row
    (ne_nil_of_length_pos (by omega))
  rcases le_or_gt row.sum 0 with none | total
  · exact keepMask_zero sparse nonneg chosen inside none
  rw [keepMask_at sparse nonneg chosen inside total]
  rcases all.resolve_left (not_le.mpr sparse) with recent | floor
  · have reached : (row.length : Int) ≤ schedule.recentN + r := by omega
    simp [reached]
  by_cases short : ((keepRecent schedule.recentN part).count true : Int) < schedule.minKeep
  · have runs : 0 < schedule.minKeep := by omega
    have every : r ∈ ranking.topk (min schedule.minKeep.toNat row.length) row := by
      rw [Nat.min_eq_right (by omega)]
      exact topk_all ranking inside
    simp [runs, short, every]
  · -- as many are kept as there are
    have sized := length_topP chosen
    have kept : (keepRecent schedule.recentN part).length = row.length := by
      rw [length_keepRecent, sized]
    have most := count_le_length (a := true) (l := keepRecent schedule.recentN part)
    have all_true : (keepRecent schedule.recentN part).count true =
        (keepRecent schedule.recentN part).length := by omega
    have whole := eq_replicate_of_mem fun kept member =>
      (count_eq_length.mp all_true kept member).symm
    have here := getD_keepRecent schedule.recentN (sized ▸ inside : r < part.length)
    rw [whole, kept, sized] at here
    rw [← here]
    simp [inside]

end

/-- A row of one token keeps it, however it is padded. -/
theorem keepMask_alone (ranking : Ranking) (schedule : SparseFFNSchedule) (layer : Nat) {score : ℚ}
    (nonneg : 0 ≤ score) {size : Nat} (long : 1 ≤ size) :
    (keepMask ranking schedule layer (padRow [score] size)).getD 0 false = true := by
  have sized : (padRow [score] size).length = size := length_padRow long
  have inside : 0 < (padRow [score] size).length := by omega
  have nonneg_row := padRow_nonneg (forall_mem_singleton.mpr nonneg) size
  rcases le_or_gt 1 (schedule.getMassThresh layer) with dense | sparse
  · exact keepMask_all nonneg_row (.inl dense) inside
  obtain ⟨part, chosen⟩ := topP_returns ranking (schedule.getMassThresh layer) _
    (ne_nil_of_length_pos inside)
  rcases le_or_gt (padRow [score] size).sum 0 with none | total
  · exact keepMask_zero sparse nonneg_row chosen inside none
  have positive : 0 < score := by rwa [sum_padRow, sum_singleton] at total
  have listed : 0 ∈ ranking.sort (padRow [score] size) :=
    (ranking.sort_perm _).mem_iff.mpr (mem_range.mpr inside)
  have ordered := ranking.descending (padRow [score] size)
  have first : (ranking.sort (padRow [score] size))[0]? = some 0 := by
    cases order : ranking.sort (padRow [score] size) with
    | nil =>
      rw [order] at listed
      cases listed
    | cons i rest =>
      rw [order] at listed ordered
      rcases mem_cons.mp listed with rfl | later
      · rfl
      · have le := (pairwise_cons.mp ordered).1 0 later
        cases i with
        | zero => rfl
        | succ i =>
          have zero : (padRow [score] size).getD (i + 1) 0 = 0 := by
            simp [padRow, getD_eq_getElem?_getD, getElem?_replicate]
            split <;> rfl
          rw [zero] at le
          exact absurd positive (not_lt.mpr le)
  rw [keepMask_at sparse nonneg_row chosen inside total, topP_rank chosen first]
  simp

def Harmless (schedule : SparseFFNSchedule) (layer len padded : Nat) : Prop :=
  len ≤ 1 ∨ len = padded ∨ 1 ≤ schedule.getMassThresh layer ∨
    (padded : Int) ≤ schedule.recentN ∨ (padded : Int) ≤ schedule.minKeep

theorem paddingUnseen_of_harmless (ranking : Ranking) {schedule : SparseFFNSchedule}
    {layer len padded : Nat} (fits : len ≤ padded) (harmless : Harmless schedule layer len padded) :
    PaddingUnseen ranking schedule layer len padded len := by
  rintro scores rfl nonneg r inside
  rcases harmless with alone | rfl | all
  · obtain ⟨score, rfl⟩ := length_eq_one_iff.mp (by omega : scores.length = 1)
    obtain rfl : r = 0 := by simpa using inside
    have own : 0 ≤ score := nonneg score mem_cons_self
    exact (keepMask_alone ranking schedule layer own fits).trans
      (keepMask_alone ranking schedule layer own (le_refl 1)).symm
  · rfl
  · have whole : ∀ size, scores.length ≤ size → size ≤ padded →
        (keepMask ranking schedule layer (padRow scores size)).getD r false = true := by
      intro size long small
      have sized := length_padRow long
      refine keepMask_all (padRow_nonneg nonneg _) (all.imp_right ?_) (by omega)
      rw [sized]
      rintro (recent | floor)
      · exact .inl (by omega)
      · exact .inr (by omega)
    rw [whole padded fits (le_refl _), whole scores.length (le_refl _) fits]

theorem exists_ranking {row row' : List ℚ} (apart : row ≠ row') {order order' : List Nat}
    (ranks : Ranks row order) (ranks' : Ranks row' order') : ∃ ranking : Ranking,
      (ranking.sort row = order ∧ ∀ k, ranking.topk k row = order.take k) ∧
      ranking.sort row' = order' ∧ ∀ k, ranking.topk k row' = order'.take k := by
  let choose (imp : List ℚ) : List Nat :=
    if imp = row then order else if imp = row' then order' else stableSort imp
  have all : ∀ imp, Ranks imp (choose imp) := by
    intro imp
    dsimp only [choose]
    split
    · next same => exact same ▸ ranks
    · split
      · next same => exact same ▸ ranks'
      · exact stableSort_ranks imp
  have here : choose row = order := if_pos rfl
  have there : choose row' = order' := (if_neg (Ne.symm apart)).trans (if_pos rfl)
  exact ⟨.ofOrder choose all, ⟨here, fun k => congrArg (take k) here⟩,
    there, fun k => congrArg (take k) there⟩

theorem ranks_of_values {row : List ℚ} {order : List Nat} (perm : order.Perm (range row.length))
    {high low : Nat}
    (values : (order.map fun i => row.getD i 0) = replicate high 1 ++ replicate low 0) :
    Ranks row order := by
  have sorted : (order.map fun i => row.getD i 0).Pairwise fun a b => b ≤ a := by
    rw [values]
    refine pairwise_append.mpr ⟨pairwise_replicate.mpr (.inr le_rfl),
      pairwise_replicate.mpr (.inr le_rfl), fun a one b zero => ?_⟩
    rw [eq_of_mem_replicate one, eq_of_mem_replicate zero]
    exact zero_le_one
  exact ⟨perm, pairwise_map.mp sorted⟩

/-- A token that is not ranked first is not kept where the mass before it is all there is. -/
theorem topP_beyond {ranking : Ranking} {massThresh : ℚ} {row : List ℚ} {part : List Bool}
    (chosen : topP ranking massThresh row = .ok part) (sparse : massThresh < 1) {high low : Nat}
    (values : ((ranking.sort row).map fun i => row.getD i 0) = replicate high 1 ++ replicate low 0)
    (some_mass : 0 < high) {i j : Nat} (listed : (ranking.sort row)[j]? = some i) (later : j ≠ 0)
    (beyond : high ≤ j + 1) : part.getD i false = false := by
  have total : row.sum = high := by
    have same := (ranking.sort_perm row).map fun i => row.getD i 0
    rw [values, map_range_getD] at same
    simpa using same.sum_eq.symm
  have reached : (((ranking.sort row).take (j + 1)).map fun i => row.getD i 0).sum = high := by
    rw [map_take, values, take_append, take_of_length_le (by simpa using beyond)]
    simp
  have one : (1 : ℚ) ≤ high := by exact_mod_cast some_mass
  have tiny : float32Tiny ≤ high := le_trans (by norm_num [float32Tiny]) one
  rw [topP_rank chosen listed, reached, total, max_eq_left tiny, div_self (by positivity)]
  simp [later, sparse.le]

/-- The first token is lost where its rank, the recent tokens and the floor all leave it out. -/
theorem keepMask_lost {ranking : Ranking} {schedule : SparseFFNSchedule} {layer : Nat} {row : List ℚ}
    (sparse : schedule.getMassThresh layer < 1) (nonneg : ∀ score ∈ row, 0 ≤ score)
    (total : 0 < row.sum) {high low j : Nat}
    (values : ((ranking.sort row).map fun i => row.getD i 0) = replicate high 1 ++ replicate low 0)
    (some_mass : 0 < high) (listed : (ranking.sort row)[j]? = some 0) (later : j ≠ 0)
    (beyond : high ≤ j + 1) (recent : schedule.recentN < row.length)
    (no_floor : 0 ∉ ranking.topk (min schedule.minKeep.toNat row.length) row) :
    (keepMask ranking schedule layer row).getD 0 false = false := by
  have some_token : row ≠ [] := by
    rintro rfl
    exact lt_irrefl _ total
  obtain ⟨part, chosen⟩ := topP_returns ranking (schedule.getMassThresh layer) row some_token
  rw [keepMask_at sparse nonneg chosen (length_pos_of_ne_nil some_token) total,
    topP_beyond chosen sparse values some_mass listed later beyond,
    decide_eq_false (by omega), decide_eq_false fun runs => no_floor runs.2.2]
  rfl

section Rows

variable (v : ℚ) (m d : Nat)

/-- The last of the tokens has score 1, the others `v`. -/
def lastHigh : List ℚ := replicate (m + 1) v ++ [1]

def lastHighRow : List ℚ := padRow (lastHigh v m) (m + 2 + d)

theorem length_lastHighRow : (lastHighRow v m d).length = m + 2 + d :=
  length_padRow (by simp [lastHigh])

theorem lastHighRow_getD (i : Nat) :
    (lastHighRow v m d).getD i 0 = if i < m + 1 then v else if i = m + 1 then 1 else 0 := by
  simp only [lastHighRow, lastHigh, padRow, getD_eq_getElem?_getD, append_assoc, getElem?_append,
    getElem?_replicate, length_replicate]
  grind

section

variable {v : ℚ} (nonneg : 0 ≤ v)
include nonneg

theorem lastHigh_nonneg : ∀ score ∈ lastHigh v m, 0 ≤ score := by
  intro score member
  rcases mem_append.mp member with other | last
  · rwa [eq_of_mem_replicate other]
  · rw [mem_singleton.mp last]
    exact zero_le_one

theorem lastHighRow_sum : 0 < (lastHighRow v m d).sum := by
  rw [lastHighRow, sum_padRow, lastHigh, sum_append, sum_replicate, sum_singleton]
  positivity

end

theorem map_eq_replicate {value : Nat → ℚ} {v : ℚ} {idx : List Nat} (same : ∀ i ∈ idx, value i = v) :
    idx.map value = replicate idx.length v :=
  eq_replicate_iff.mpr ⟨length_map _, by simpa using same⟩

theorem order_perm {before after : List Nat}
    (others : before ++ after = range' 1 m ++ range' (m + 2) d) :
    ((m + 1) :: (before ++ 0 :: after)).Perm (range (m + 2 + d)) := by
  have tail : (m + 1) :: range' (m + 2) d = range' (1 + m) (d + 1) := by
    rw [range'_succ, Nat.add_comm 1 m]
  have parts : range (m + 2 + d) = 0 :: (range' 1 m ++ (m + 1) :: range' (m + 2) d) := by
    rw [tail, range'_append_1, range_eq_range', (by omega : m + 2 + d = m + (d + 1) + 1)]
    rfl
  rw [parts]
  refine (perm_middle.cons _).trans ((Perm.swap _ _ _).trans ?_)
  rw [others]
  exact perm_middle.symm.cons 0

end Rows

section Seen

variable {schedule : SparseFFNSchedule} {layer m d : Nat} (padded : 0 < d)
  (sparse : schedule.getMassThresh layer < 1)
  (recent : schedule.recentN < ((m + 2 + d : Nat) : Int))

include padded sparse recent

/-- Padding is seen where the segment alone keeps its first token, and an order of the padded row
has so many others before it that neither the mass nor the floor reaches it. -/
theorem seen_of_order {v : ℚ} (nonneg : 0 ≤ v) {before after : List Nat}
    (others : before ++ after = range' 1 m ++ range' (m + 2) d) {high low : Nat}
    (values : (((m + 1) :: (before ++ 0 :: after)).map fun i => (lastHighRow v m d).getD i 0) =
      replicate high 1 ++ replicate low 0)
    (some_mass : 0 < high) (beyond : high ≤ before.length + 2)
    (floor : schedule.minKeep ≤ before.length + 1) {order : List Nat}
    (ranks : Ranks (lastHighRow v m 0) order)
    (kept : ∀ ranking : Ranking, ranking.sort (lastHighRow v m 0) = order →
      (keepMask ranking schedule layer (lastHighRow v m 0)).getD 0 false = true) :
    ∃ ranking, ¬ PaddingUnseen ranking schedule layer (m + 2) (m + 2 + d) (m + 2) := by
  have ranks' := ranks_of_values (length_lastHighRow v m d ▸ order_perm m d others) values
  have apart : lastHighRow v m 0 ≠ lastHighRow v m d := by
    intro same
    have lengths := congrArg length same
    rw [length_lastHighRow, length_lastHighRow] at lengths
    omega
  obtain ⟨ranking, ⟨sort, -⟩, sort', topk'⟩ := exists_ranking apart ranks ranks'
  refine ⟨ranking, fun unseen => ?_⟩
  have scores := lastHigh_nonneg m nonneg
  have same : (keepMask ranking schedule layer (lastHighRow v m d)).getD 0 false =
      (keepMask ranking schedule layer (lastHighRow v m 0)).getD 0 false :=
    unseen (lastHigh v m) (by simp [lastHigh]) scores 0 (by omega)
  have no_floor : 0 ∉ ranking.topk (min schedule.minKeep.toNat (lastHighRow v m d).length)
      (lastHighRow v m d) := by
    have early : 0 ∉ (m + 1) :: before := by
      have distinct := (order_perm m d others).nodup_iff.mpr nodup_range
      rw [← cons_append, nodup_append] at distinct
      exact fun member => distinct.2.2 0 member 0 mem_cons_self rfl
    intro top
    rw [topk', ← cons_append, take_append_of_le_length (by rw [length_cons]; omega)] at top
    exact early (mem_of_mem_take top)
  have listed : (ranking.sort (lastHighRow v m d))[before.length + 1]? = some 0 := by
    rw [sort', getElem?_cons_succ, getElem?_append_right le_rfl, Nat.sub_self]
    rfl
  have lost : (keepMask ranking schedule layer (lastHighRow v m d)).getD 0 false = false :=
    keepMask_lost sparse (padRow_nonneg scores _) (lastHighRow_sum m d nonneg)
      (by rw [sort', values]) some_mass listed (by omega) beyond (by rwa [length_lastHighRow]) no_floor
  rw [lost, kept ranking sort] at same
  cases same

/-- Of equal scores, the first token can be ranked first in one row and last in the other. -/
theorem even_seen (small : schedule.minKeep < ((m + 2 : Nat) : Int)) :
    ∃ ranking, ¬ PaddingUnseen ranking schedule layer (m + 2) (m + 2 + d) (m + 2) := by
  have own : ∀ i < m + 2, ∀ d, (lastHighRow 1 m d).getD i 0 = 1 := by
    intro i inside d
    rw [lastHighRow_getD]
    split
    · rfl
    · rw [if_pos (by omega)]
  have first_ranks : Ranks (lastHighRow 1 m 0) (range (m + 2)) := by
    have values : ((range (m + 2)).map fun i => (lastHighRow 1 m 0).getD i 0) =
        replicate (m + 2) 1 ++ replicate 0 0 := by
      rw [map_eq_replicate fun i inside => own i (mem_range.mp inside) 0, length_range]
      exact (append_nil _).symm
    exact ranks_of_values (by rw [length_lastHighRow]) values
  have values : (((m + 1) :: (range' 1 m ++ 0 :: range' (m + 2) d)).map fun i =>
      (lastHighRow 1 m d).getD i 0) = replicate (m + 2) 1 ++ replicate d 0 := by
    have padding : ∀ i ∈ range' (m + 2) d, (lastHighRow 1 m d).getD i 0 = 0 := by
      intro i member
      rw [lastHighRow_getD, if_neg (by simp at member; omega), if_neg (by simp at member; omega)]
    rw [map_cons, map_append, map_cons,
      map_eq_replicate fun i member => own i (by simp at member; omega) d,
      map_eq_replicate padding, own _ (by omega), own _ (by omega), length_range', length_range',
      append_cons, ← replicate_succ', ← cons_append, ← replicate_succ]
  refine seen_of_order padded sparse recent zero_le_one rfl values (by omega) (by simp)
    (by simp; omega) first_ranks fun ranking sort => ?_
  have nonneg : ∀ score ∈ lastHighRow 1 m 0, 0 ≤ score :=
    padRow_nonneg (lastHigh_nonneg m zero_le_one) _
  have inside : 0 < (lastHighRow 1 m 0).length := by
    rw [length_lastHighRow]
    omega
  obtain ⟨part, chosen⟩ := topP_returns ranking (schedule.getMassThresh layer) (lastHighRow 1 m 0)
    (ne_nil_of_length_pos inside)
  rw [keepMask_at sparse nonneg chosen inside (lastHighRow_sum m 0 zero_le_one),
    topP_rank (j := 0) chosen (by rw [sort, getElem?_range (by omega)])]
  simp

/-- Where only the last token has a score, the floor can take the padding before the first token. -/
theorem last_seen (floor : ((m + 2 : Nat) : Int) ≤ schedule.minKeep)
    (small : schedule.minKeep < ((m + 2 + d : Nat) : Int)) :
    ∃ ranking, ¬ PaddingUnseen ranking schedule layer (m + 2) (m + 2 + d) (m + 2) := by
  have values : (((m + 1) :: (range' 1 m ++ range' (m + 2) d ++ [0])).map fun i =>
      (lastHighRow 0 m d).getD i 0) = replicate 1 1 ++ replicate (m + d + 1) 0 := by
    have zero : ∀ i ∈ range' 1 m ++ range' (m + 2) d ++ [0], (lastHighRow 0 m d).getD i 0 = 0 := by
      intro i member
      rw [lastHighRow_getD, if_neg (c := i = m + 1) (by simp at member; omega), ite_self]
    rw [map_cons, map_eq_replicate zero, lastHighRow_getD, if_neg (by omega), if_pos rfl,
      length_append, length_append, length_range', length_range']
    rfl
  have alone := length_lastHighRow 0 m 0
  refine seen_of_order padded sparse recent le_rfl (append_nil _) values (by omega) (by omega)
    (by simp; omega) (stableSort_ranks _) fun ranking _ => ?_
  have nonneg : ∀ score ∈ lastHighRow 0 m 0, 0 ≤ score :=
    padRow_nonneg (lastHigh_nonneg m le_rfl) _
  exact keepMask_all nonneg (.inr (.inr (by omega))) (by omega)

end Seen

theorem paddingUnseen_iff {schedule : SparseFFNSchedule} {layer len padded : Nat}
    (fits : len ≤ padded) : (∀ ranking, PaddingUnseen ranking schedule layer len padded len) ↔
      Harmless schedule layer len padded := by
  refine ⟨fun unseen => ?_, fun harmless ranking =>
    paddingUnseen_of_harmless ranking fits harmless⟩
  by_contra seen
  simp only [Harmless, not_or, not_le] at seen
  obtain ⟨two, longer, sparse, recent, floor⟩ := seen
  obtain ⟨m, rfl⟩ := Nat.exists_eq_add_of_le' (by omega : 2 ≤ len)
  obtain ⟨d, rfl⟩ := Nat.exists_eq_add_of_le fits
  obtain ⟨ranking, visible⟩ : ∃ ranking,
      ¬ PaddingUnseen ranking schedule layer (m + 2) (m + 2 + d) (m + 2) := by
    by_cases small : schedule.minKeep < ((m + 2 : Nat) : Int)
    · exact even_seen (by omega) sparse (by omega) small
    · exact last_seen (by omega) sparse (by omega) (by omega) (by omega)
  exact visible (unseen ranking)

/-- A segment alone and the segment padded into its batch select the same tokens, over all orders of
equal scores, exactly when the segment has one token at most or is as long as its batch, the layer
is dense, or the recent tokens or the floor are the whole padded row. -/
theorem padded_selection_alone_iff {schedule : SparseFFNSchedule} {layer len padded : Nat}
    (fits : len ≤ padded) :
    (∀ ranking, PaddingUnseen ranking schedule layer len padded len) ↔
      len ≤ 1 ∨ len = padded ∨ 1 ≤ schedule.getMassThresh layer ∨
        (padded : Int) ≤ schedule.recentN ∨ (padded : Int) ≤ schedule.minKeep :=
  paddingUnseen_iff fits

theorem default_recent_unseen : PaddingUnseen stableRanking { denseUntil := 0 } 0 2 3 2 :=
  (padded_selection_alone_iff (by decide)).mpr (.inr (.inr (.inr (.inl (by decide))))) stableRanking

/-- The last token of the shorter segment is recent in it, and not in the padded row. -/
theorem padding_hides_recent : ¬ PaddingUnseen stableRanking
    { denseUntil := 0, massThresh := 1 / 2, recentN := 1 } 0 2 3 2 := by
  intro unseen
  have differs := unseen [3, 1] rfl (by decide) 1 (by decide)
  revert differs
  decide +kernel

end RedKnot.Driver
