import RedKnot.Attention.SparseFFN
import RedKnot.Lib.LargestSum

/-! The previous keys that a retrieval head keeps (`_attn_retrieval_flash` of
`redknot/ops_flash.py`). -/

namespace RedKnot.TopMass

open SparseFFN List LargestSum

/-- `keep.sum(dim=-1)` of one head; `keep[..., 0] = True`. -/
def keepCount (ranking : Ranking) (retrievalTopP : ℚ) (weights : List ℚ) : Nat :=
  let cum := cumsum 0 ((ranking.sort weights).map fun i => weights.getD i 0)
  (true :: (cum.map fun c => decide (c ≤ retrievalTopP)).tail).count true

/-- `topk_idx`, for the softmax weights of all heads and sequences of the bucket. -/
def attnRetrievalFlash (ranking : Ranking) (retrievalTopP : ℚ) (rows : List (List ℚ)) :
    Except PyError (List (List Nat)) :=
  if rows.any isEmpty then .error .indexError
  else
    match (rows.map (keepCount ranking retrievalTopP)).max? with
    | none => .error (.runtimeError "max(): Expected reduction dim to be specified")
    | some pKeep => .ok (rows.map (ranking.topk pKeep))

def massOf (imp : List ℚ) (idx : List Nat) : ℚ := (idx.map fun i => imp.getD i 0).sum

section

variable {ranking : Ranking} {imp : List ℚ}

theorem sorted_perm (ranking : Ranking) (imp : List ℚ) :
    ((ranking.sort imp).map fun i => imp.getD i 0).Perm imp := by
  simpa only [map_range_getD] using (ranking.sort_perm imp).map fun i => imp.getD i 0

theorem massOf_topk {k : Nat} (small : k ≤ imp.length) :
    massOf imp (ranking.topk k imp) = largestSum imp k := by
  have parts : (ranking.topk k imp ++ (range imp.length).filter (· ∉ ranking.topk k imp)).Perm
      (range imp.length) := by
    refine (perm_ext_iff_of_nodup ?_ nodup_range).mpr fun i => ?_
    · refine nodup_append.mpr ⟨ranking.topk_nodup k imp, nodup_range.filter _, ?_⟩
      rintro i here j there rfl
      simpa [here] using (mem_filter.mp there).2
    · have := ranking.topk_lt k imp i
      simp only [mem_append, mem_filter, mem_range, decide_eq_true_eq]
      tauto
  have values := parts.map fun i => imp.getD i 0
  rw [map_append, map_range_getD] at values
  have length : ((ranking.topk k imp).map fun i => imp.getD i 0).length = k := by
    rw [length_map, ranking.topk_length k imp small]
  rw [massOf, ← eq_sum values, length]
  intro x hx y hy
  obtain ⟨i, listed, rfl⟩ := mem_map.mp hx
  obtain ⟨j, other, rfl⟩ := mem_map.mp hy
  obtain ⟨inside, out⟩ := mem_filter.mp other
  exact ranking.topk_largest k imp i listed j (mem_range.mp inside) (of_decide_eq_true out)

theorem cumsum_cut (p : ℚ) {xs : List ℚ} (nonneg : ∀ x ∈ xs, 0 ≤ x) (acc : ℚ) :
    ∃ j ≤ xs.length, ((cumsum acc xs).map fun c => decide (c ≤ p)).count true = j ∧
      (∀ m, 1 ≤ m → m ≤ j → acc + (xs.take m).sum ≤ p) ∧
      ∀ m, j < m → m ≤ xs.length → p < acc + (xs.take m).sum := by
  induction xs generalizing acc with
  | nil => exact ⟨0, Nat.le_refl _, rfl, by omega, fun m => by simp; omega⟩
  | cons x xs ih =>
    obtain ⟨positive, nonneg⟩ := forall_mem_cons.mp nonneg
    obtain ⟨j, small, count, passed, failed⟩ := ih nonneg (acc + x)
    have later : ∀ m, acc + x ≤ acc + x + (xs.take m).sum := fun m =>
      le_add_of_nonneg_right (sum_nonneg fun y member =>
        nonneg y (mem_of_mem_take member))
    by_cases first : acc + x ≤ p
    · refine ⟨j + 1, Nat.succ_le_succ small, by simp [cumsum, first, count], ?_, ?_⟩
      · rintro (_ | _ | m) one le
        · omega
        · simpa using first
        · simpa [add_assoc] using passed (m + 1) (by omega) (by omega)
      · rintro (_ | m) lt le
        · omega
        · simpa [add_assoc] using failed m (by omega) (by simpa using le)
    · obtain rfl : j = 0 := by
        by_contra some
        exact first ((later 1).trans (passed 1 (Nat.le_refl _) (by omega)))
      refine ⟨0, Nat.zero_le _, by simp [cumsum, first, count], by omega, ?_⟩
      rintro (_ | m) lt le
      · omega
      · simpa [add_assoc] using (lt_of_not_ge first).trans_le (later m)

theorem keepCount_spec (ranking : Ranking) (p : ℚ) (nonneg : ∀ x ∈ imp, 0 ≤ x)
    (some_key : 1 ≤ imp.length) :
    1 ≤ keepCount ranking p imp ∧ keepCount ranking p imp ≤ imp.length ∧
      (keepCount ranking p imp = 1 ∨ largestSum imp (keepCount ranking p imp) ≤ p) ∧
      ∀ m, keepCount ranking p imp < m → m ≤ imp.length → p < largestSum imp m := by
  have same := sorted_perm ranking imp
  have sum_take := fun m => eq_take same
    (pairwise_map.mpr (ranking.descending imp)) m
  unfold keepCount
  generalize (ranking.sort imp).map (fun i => imp.getD i 0) = xs at *
  obtain ⟨j, small, count, passed, failed⟩ :=
    cumsum_cut p (fun x member => nonneg x (same.mem_iff.mp member)) 0
  simp only [zero_add, ← sum_take, same.length_eq] at small passed failed
  have kept : (true :: ((cumsum 0 xs).map fun c => decide (c ≤ p)).tail).count true = max 1 j := by
    cases xs with
    | nil => simp [← same.length_eq] at some_key
    | cons x xs =>
      have first : 1 ≤ j → 0 + x ≤ p := fun one => by
        simpa [sum_take] using passed 1 (Nat.le_refl _) one
      simp only [cumsum, map_cons, tail_cons, count_cons, beq_true,
        decide_eq_true_eq, if_true] at count ⊢
      split at count
      · omega
      · next above =>
        have := mt first above
        omega
  rw [kept]
  refine ⟨le_max_left _ _, max_le some_key small, ?_, fun m lt => failed m (by omega)⟩
  rcases Nat.le_total j 1 with le | le
  · exact .inl (max_eq_left le)
  · rw [max_eq_right le]
    exact .inr (passed j le (Nat.le_refl _))

end

structure Weights (P : Nat) (w : List ℚ) : Prop where
  length : w.length = P
  positive : ∀ x ∈ w, 0 < x
  total : w.sum = 1

/-- Every head keeps the mass, in distinct keys. -/
def KeepsMass (p : ℚ) (rows : List (List ℚ)) (kept : List (List Nat)) : Prop :=
  Forall₂ (fun w idx => p * w.sum ≤ massOf w idx ∧ idx.Nodup) rows kept

theorem retrieval_keepsMass_iff (ranking : Ranking) {P : Nat} (some_key : 1 ≤ P)
    {rows : List (List ℚ)} (some_head : rows ≠ []) (soft : ∀ w ∈ rows, Weights P w) (p : ℚ) :
    (∃ kept, attnRetrievalFlash ranking p rows = .ok kept ∧ KeepsMass p rows kept) ↔
      (∀ w ∈ rows, p ≤ largestSum w 1) ∨
        ∃ w ∈ rows, ∃ m ≤ P, largestSum w m = p ∧ ∀ w' ∈ rows, p ≤ largestSum w' m := by
  have nonneg : ∀ w ∈ rows, ∀ x ∈ w, 0 ≤ x := fun w member x inside =>
    ((soft w member).positive x inside).le
  have spec := fun w member => keepCount_spec ranking p (nonneg w member)
    (some_key.trans_eq (soft w member).length.symm)
  obtain ⟨K, max⟩ : ∃ K, (rows.map (keepCount ranking p)).max? = some K :=
    Option.isSome_iff_exists.mp (by simpa [isSome_max?_iff] using some_head)
  obtain ⟨attained, greatest⟩ := max?_eq_some_iff.mp max
  obtain ⟨top, listed, rfl⟩ := mem_map.mp attained
  have full : rows.any isEmpty = false := by
    refine any_eq_false.mpr fun w member empty => ?_
    have length := (soft w member).length
    rw [List.isEmpty_iff.mp empty, length_nil] at length
    omega
  have run : attnRetrievalFlash ranking p rows =
      .ok (rows.map (ranking.topk (keepCount ranking p top))) := by
    simp only [attnRetrievalFlash, full, max, Bool.false_eq_true, if_false]
  obtain ⟨one, small, last, -⟩ := spec top listed
  generalize keepCount ranking p top = K at *
  have keeps : (∃ kept, attnRetrievalFlash ranking p rows = .ok kept ∧ KeepsMass p rows kept) ↔
      ∀ w ∈ rows, p ≤ largestSum w K := by
    simp only [run, Except.ok.injEq, exists_eq_left', KeepsMass, forall₂_map_right_iff,
      forall₂_same]
    refine forall₂_congr fun w member => ?_
    have short : K ≤ w.length := by rwa [(soft w member).length, ← (soft top listed).length]
    rw [massOf_topk short, (soft w member).total, mul_one]
    exact and_iff_left (ranking.topk_nodup _ _)
  rw [keeps]
  constructor
  · intro all
    rcases last with rfl | reached
    · exact .inl all
    · refine .inr ⟨top, listed, K, ?_, reached.antisymm (all top listed), all⟩
      rwa [← (soft top listed).length]
  · rintro (first | ⟨w₀, member₀, m, within, exact, all⟩) w member
    · exact (first w member).trans (mono (nonneg w member) one)
    · have le : m ≤ K := by
        by_contra short
        have count := greatest _ (mem_map_of_mem member₀)
        have above := (spec w₀ member₀).2.2.2 m (by omega) (by rwa [(soft w₀ member₀).length])
        exact above.ne' exact
      exact (all w member).trans (mono (nonneg w member) le)

theorem retrieval_keepsMass_half :
    ∃ kept, attnRetrievalFlash stableRanking (1 / 2) [[1 / 2, 1 / 4, 1 / 4]] = .ok kept ∧
      KeepsMass (1 / 2) [[1 / 2, 1 / 4, 1 / 4]] kept :=
  (retrieval_keepsMass_iff stableRanking (by decide : 1 ≤ 3) (by simp)
    (by simp only [forall_mem_singleton]; exact ⟨rfl, by decide +kernel, by decide +kernel⟩)
    _).mpr (.inl (by decide +kernel))

/-- Of two keys with equal weights one is kept, where nine tenths of the mass are asked for. -/
theorem retrieval_loses_mass :
    ¬ ∃ kept, attnRetrievalFlash stableRanking (9 / 10) [[1 / 2, 1 / 2]] = .ok kept ∧
      KeepsMass (9 / 10) [[1 / 2, 1 / 2]] kept := by
  rintro ⟨kept, run, keeps⟩
  have first : attnRetrievalFlash stableRanking (9 / 10) [[1 / 2, 1 / 2]] = .ok [[0]] := by
    decide +kernel
  cases first.symm.trans run
  cases keeps with
  | cons head _ => exact absurd head.1 (by decide +kernel)

end RedKnot.TopMass
