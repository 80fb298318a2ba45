import RedKnot.Attention.SegPaged.Paging

/-! What a head computes: the weighted mean of the values over its visible positions. -/

namespace RedKnot.SegPaged

open Function List Nat

namespace HeadVisiblePlan

inductive Built : HeadVisiblePlan → Prop where
  | ofGlobal (seqLen : Nat) : Built (globalPlan seqLen)
  | ofLocal (seqLen : Nat) (sink recent : Int) : Built (localPlan seqLen sink recent)
  | ofCustom (seqLen : Nat) (positions : List Int) : Built (customPlan seqLen positions)

structure Selects (plan : HeadVisiblePlan) (len : Nat) : Prop where
  inside : ∀ p ∈ plan.positions, 0 ≤ p ∧ p < len
  distinct : plan.positions.Nodup

def seen (plan : HeadVisiblePlan) : Finset Nat := (plan.positions.map Int.toNat).toFinset

end HeadVisiblePlan

theorem mem_arange {start stop p : Int} : p ∈ arange start stop ↔ start ≤ p ∧ p < stop := by
  simp only [arange, mem_map, mem_range]
  constructor
  · rintro ⟨i, hi, rfl⟩
    omega
  · intro h
    exact ⟨(p - start).toNat, by omega, by omega⟩

theorem nodup_arange (start stop : Int) : (arange start stop).Nodup := by
  apply Nodup.map
  · intro i j hij
    simpa using hij
  · exact nodup_range

theorem HeadVisiblePlan.Built.selects {plan : HeadVisiblePlan} (built : plan.Built) :
    plan.Selects plan.seqLen := by
  cases built with
  | ofGlobal seqLen => exact ⟨fun p hp => mem_arange.mp hp, nodup_arange _ _⟩
  | ofLocal seqLen sink recent =>
    unfold localPlan
    dsimp only
    -- the sink ends where the tail starts or before it
    split
    · refine ⟨fun p hp => ?_, nodup_arange _ _⟩
      have := mem_arange.mp hp
      omega
    · split
      · refine ⟨fun p hp => ?_, nodup_arange _ _⟩
        have := mem_arange.mp hp
        omega
      · refine ⟨fun p hp => ?_, Nodup.append (nodup_arange _ _) (nodup_arange _ _) ?_⟩
        · simp only [mem_append, mem_arange] at hp
          omega
        · intro p hs ht
          have := mem_arange.mp hs
          have := mem_arange.mp ht
          omega
  | ofCustom seqLen positions =>
    unfold customPlan
    split
    · refine ⟨fun p hp => ?_, (perm_insertionSort _ _).nodup_iff.mpr (nodup_dedup _)⟩
      have hp := mem_dedup.mp ((perm_insertionSort _ _).mem_iff.mp hp)
      simpa using (mem_filter.mp hp).2
    · rename_i empty
      have none_given : positions = [] := length_eq_zero_iff.mp (Nat.eq_zero_of_not_pos empty)
      simp only [none_given]
      exact ⟨fun p hp => (nomatch hp), nodup_nil⟩

theorem HeadVisiblePlan.Selects.mono {plan : HeadVisiblePlan} {len len' : Nat}
    (h : plan.Selects len) (le : len ≤ len') : plan.Selects len' :=
  ⟨fun p hp => ⟨(h.inside p hp).1, by have := (h.inside p hp).2; omega⟩, h.distinct⟩

variable {K : Type} [Field K] [LinearOrder K] {D : Nat}

def rowsAt (rows : List (Row K D)) (plan : HeadVisiblePlan) : List (Row K D) :=
  plan.positions.map fun p => rows.getD p.toNat 0

def visibleRow (w : PositiveWeight K) (smScale : K) (k v : List (Row K D)) (seen : Finset Nat)
    (q : Row K D) : Row K D :=
  weightedMean w seen (fun j => (∑ d, q d * k.getD j 0 d) * smScale) fun j => v.getD j 0

variable {w : PositiveWeight K} {smScale : K} {k v q : List (Row K D)} {plan : HeadVisiblePlan}
  {len : Nat}

omit [LinearOrder K] in
theorem indexSelect_of_inside {rows : List (Row K D)} {positions : List Int}
    (inside : ∀ p ∈ positions, 0 ≤ p ∧ p < rows.length) :
    indexSelect rows positions = .ok (positions.map fun p => rows.getD p.toNat 0) := by
  apply mapM_eq_map
  intro p member
  obtain ⟨nonneg, small⟩ := inside p member
  have there : p.toNat < rows.length := by omega
  simp [not_lt.mpr nonneg, pyGet, getElem?_eq_getElem there]

omit [LinearOrder K] in
theorem indexSelect_eq (selects : plan.Selects len) (rows : List (Row K D))
    (length : rows.length = len) : indexSelect rows plan.positions = .ok (rowsAt rows plan) :=
  indexSelect_of_inside fun p member => length ▸ selects.inside p member

omit [LinearOrder K] in
theorem rows_eq_map (rows : List (Row K D)) :
    rows = (range rows.length).map fun j => rows.getD j 0 := by
  apply ext_getElem
  · simp
  · intro i h _
    simp [getElem?_eq_getElem h]

section

variable (selects : plan.Selects len)
include selects

theorem nodup_toNat : (plan.positions.map Int.toNat).Nodup := by
  apply Nodup.map_on _ selects.distinct
  intro p hp p' hp' same
  have := (selects.inside p hp).1
  have := (selects.inside p' hp').1
  omega

theorem attend_rowsAt [IsStrictOrderedRing K] (visible : plan.positions ≠ []) :
    attend w smScale q (rowsAt k plan) (rowsAt v plan) =
      q.map fun row => some (visibleRow w smScale k v plan.seen row) := by
  apply map_congr_left
  intro row _
  rw [visibleRow, HeadVisiblePlan.seen, ← softmaxMean_all (nodup_toNat selects) (by simpa using visible)]
  simp [rowsAt, scores, comp_def]

theorem visibleMask_eq : visibleMask len plan.positions =
      .ok ((range len).map fun j => decide (j ∈ plan.seen)) := by
  have inside : (plan.positions.all fun p => decide (-(len : Int) ≤ p) && decide (p < len)) = true := by
    simp only [all_eq_true, Bool.and_eq_true, decide_eq_true_eq]
    intro p hp
    have := selects.inside p hp
    omega
  have marks : ∀ j ∈ range len, decide ((j : Int) ∈ plan.positions ∨ (j : Int) - len ∈ plan.positions) =
      decide (j ∈ plan.seen) := by
    intro j hj
    have bound := mem_range.mp hj
    apply decide_eq_decide.mpr
    simp only [HeadVisiblePlan.seen, mem_toFinset, mem_map]
    constructor
    · rintro (hp | hp)
      · exact ⟨j, hp, rfl⟩
      · have := (selects.inside _ hp).1
        omega
    · rintro ⟨p, hp, rfl⟩
      left
      rwa [Int.toNat_of_nonneg (selects.inside p hp).1]
  rw [visibleMask, if_pos inside, map_congr_left marks]

theorem seen_subset : plan.seen ⊆ Finset.range len := by
  intro j hj
  obtain ⟨p, hp, rfl⟩ := mem_map.mp (mem_toFinset.mp hj)
  have := selects.inside p hp
  simp only [Finset.mem_range]
  omega

theorem masked_rows [IsStrictOrderedRing K]
    (visible : plan.positions ≠ []) (kLen : k.length = len) (vLen : v.length = len) (row : Row K D) :
    softmaxMean w (maskedFill (scores smScale k row)
        ((range len).map fun j => decide (j ∈ plan.seen))) v =
      some (visibleRow w smScale k v plan.seen row) := by
  have some_seen : ∃ j ∈ range len, decide (j ∈ plan.seen) = true := by
    obtain ⟨p, hp⟩ := exists_mem_of_ne_nil _ visible
    have marked : p.toNat ∈ plan.seen := mem_toFinset.mpr (mem_map_of_mem hp)
    exact ⟨p.toNat, mem_range.mpr (Finset.mem_range.mp (seen_subset selects marked)), by simpa⟩
  have rows : (range len).map (fun j => v.getD j 0) = v := by
    rw [← vLen]
    exact (rows_eq_map v).symm
  have keys : scores smScale k row =
      (range len).map fun j => (∑ d, row d * k.getD j 0 d) * smScale := by
    conv_lhs => rw [rows_eq_map k, kLen]
    simp [scores, comp_def]
  have set : (range len).toFinset.filter (fun j => decide (j ∈ plan.seen) = true) =
      plan.seen := by
    ext j
    have := @seen_subset plan len selects j
    simp only [Finset.mem_filter, mem_toFinset, mem_range, decide_eq_true_eq]
    simp only [Finset.mem_range] at this
    tauto
  rw [keys, maskedFill, zipWith_map, zipWith_self, ← rows,
    softmaxMean_masked _ nodup_range some_seen, set, rows, visibleRow]

end

namespace HeadTensor

variable {H L : Nat}

/-- `tensor[h]`. -/
def head (tensor : HeadTensor K H L D) (h : Nat) : List (Row K D) := tensor.heads.getD h []

omit [Field K] [LinearOrder K] in
theorem getElem?_heads (tensor : HeadTensor K H L D) {h : Nat} (inside : h < H) :
    tensor.heads[h]? = some (tensor.head h) := by
  have there : h < tensor.heads.length := tensor.length_heads.symm ▸ inside
  simp [head, getElem?_eq_getElem there]

omit [Field K] [LinearOrder K] in
theorem length_head_eq (tensor : HeadTensor K H L D) {h : Nat} (inside : h < H) :
    (tensor.head h).length = L :=
  tensor.length_head _ (mem_of_getElem? (tensor.getElem?_heads inside))

end HeadTensor

/-- The result for query head `qh`, which reads KV head `qh / num_q_per_kv`. -/
def visibleHead {Hq Lq H L : Nat} (w : PositiveWeight K) (query : HeadTensor K Hq Lq D)
    (kDense vDense : HeadTensor K H L D) (plans : Nat → HeadVisiblePlan) (numQPerKv : Nat)
    (smScale : K) (qh : Nat) : List (Option (Row K D)) :=
  (query.head qh).map fun row => some (visibleRow w smScale (kDense.head (qh / numQPerKv))
    (vDense.head (qh / numQPerKv)) (plans (qh / numQPerKv)).seen row)

section Heads

variable {H L Lq n : Nat} {query : HeadTensor K (H * n) Lq D} {kDense vDense : HeadTensor K H L D}
  {plans : Nat → HeadVisiblePlan}

theorem flat_lt {h g : Nat} (hh : h < H) (hg : g < n) : h * n + g < H * n := by
  calc h * n + g < h * n + n := Nat.add_lt_add_left hg _
    _ = (h + 1) * n := (succ_mul h n).symm
    _ ≤ H * n := Nat.mul_le_mul_right n hh

theorem flat_div {h g : Nat} (hg : g < n) : (h * n + g) / n = h := by
  rw [Nat.mul_comm, mul_add_div (zero_lt_of_lt hg), div_eq_of_lt hg, Nat.add_zero]

omit [LinearOrder K] in
theorem zerosLike_filled (value : Nat → List (Option (Row K D))) :
    Filled (H * n) value 0 (zerosLike query) :=
  .zero ((length_map _).trans query.length_heads)

theorem pySet_filled {α : Type} {value : Nat → α} {out : List α} {slot : Nat} {rows : α}
    (filled : Filled (H * n) value slot out) (inside : slot < H * n) (eq : rows = value slot) :
    ∃ out', pySet out slot rows = .ok out' ∧ Filled (H * n) value (slot + 1) out' := by
  subst eq
  exact ⟨_, if_pos (filled.length.symm ▸ inside), filled.set inside⟩

theorem denseReferenceAttention_eq [IsStrictOrderedRing K] {planList : List HeadVisiblePlan}
    (listed : ∀ h < H, planList[h]? = some (plans h)) (selects : ∀ h < H, (plans h).Selects L)
    (visible : ∀ h < H, (plans h).positions ≠ []) :
    denseReferenceAttention w query kDense vDense planList n smScale =
      .ok ((range (H * n)).map (visibleHead w query kDense vDense plans n smScale)) := by
  have loop : ∃ out, denseReferenceAttention w query kDense vDense planList n smScale = .ok out ∧
      Filled (H * n) (visibleHead w query kDense vDense plans n smScale) (H * n) out := by
    apply forRange_nested_ok (f := fun h g out => do
      let q ← pyGet query.heads (h * n + g)
      pySet out (h * n + g) (q.map fun row => softmaxMean w (maskedFill
        (scores smScale (kDense.head h) row)
        ((range L).map fun j => decide (j ∈ (plans h).seen))) (vDense.head h)))
    · exact zerosLike_filled _
    · intro h hh out
      simp only [pyGet_eq (listed h hh), visibleMask_eq (selects h hh),
        pyGet_eq (kDense.getElem?_heads hh), pyGet_eq (vDense.getElem?_heads hh), ok_bind]
    · intro h hh g hg out filled
      simp only [pyGet_eq (query.getElem?_heads (flat_lt hh hg)), ok_bind]
      apply pySet_filled filled (flat_lt hh hg)
      simp only [visibleHead, flat_div hg]
      apply map_congr_left
      intro row _
      exact masked_rows (selects h hh) (visible h hh) (kDense.length_head_eq hh)
        (vDense.length_head_eq hh) row
  obtain ⟨out, runs, filled⟩ := loop
  rw [runs, filled.eq_map]

variable {b : Backend K D} {cache : PagedHeadKVCache K D} {layer : Nat}

theorem referenceAttention_eq [IsStrictOrderedRing K] (heads : cache.numKvHeads = H)
    (gathers : ∀ h < H, cache.gatherHead layer h =
      .ok (rowsAt (kDense.head h) (plans h), rowsAt (vDense.head h) (plans h)))
    (selects : ∀ h < H, (plans h).Selects L) (visible : ∀ h < H, (plans h).positions ≠ []) :
    referenceAttention b query cache layer n smScale =
      .ok ((range (H * n)).map (visibleHead b.weight query kDense vDense plans n smScale)) := by
  have loop : ∃ out, referenceAttention b query cache layer n smScale = .ok out ∧
      Filled (H * n) (visibleHead b.weight query kDense vDense plans n smScale) (H * n) out := by
    unfold referenceAttention
    rw [heads]
    apply forRange_nested_ok (f := fun h g out => do
      let q ← pyGet query.heads (h * n + g)
      pySet out (h * n + g) (sdpaOneHead b.weight q (rowsAt (kDense.head h) (plans h))
        (rowsAt (vDense.head h) (plans h)) smScale))
    · exact zerosLike_filled _
    · intro h hh out
      simp only [gathers h hh, ok_bind]
    · intro h hh g hg out filled
      simp only [pyGet_eq (query.getElem?_heads (flat_lt hh hg)), ok_bind]
      apply pySet_filled filled (flat_lt hh hg)
      have some_keys : (rowsAt (kDense.head h) (plans h)).length ≠ 0 := by
        simpa [rowsAt] using visible h hh
      rw [sdpaOneHead, if_neg some_keys, attend_rowsAt (selects h hh) (visible h hh), visibleHead,
        flat_div hg]
  obtain ⟨out, runs, filled⟩ := loop
  rw [runs, filled.eq_map]

end Heads

end RedKnot.SegPaged
