import RedKnot.Attention.SegPaged.Equivalence
import RedKnot.Lib.Ragged

/-! The fused path packs the rows of all query heads for one call of the varlen kernel. -/

namespace RedKnot.SegPaged

open List Option

variable {K : Type} [Field K] [LinearOrder K] {D H L Lq n layer : Nat} {smScale : K}
  {query : HeadTensor K (H * n) Lq D} {kDense vDense : HeadTensor K H L D}
  {plans : Nat → HeadVisiblePlan} {b : Backend K D} {cache : PagedHeadKVCache K D}

/-- The kernel attends, for each packed sequence that has keys, to exactly the keys of that
sequence. -/
def Backend.AttendsPerSequence (b : Backend K D) : Prop :=
  ∀ call : VarlenCall K D, Cuts call.cuSeqlensQ call.q.length call.maxSeqlenQ →
    Cuts call.cuSeqlensK call.k.length call.maxSeqlenK →
    call.cuSeqlensQ.length = call.cuSeqlensK.length → call.v.length = call.k.length →
    ∀ i q₀ q₁ k₀ k₁, call.cuSeqlensQ[i]? = some q₀ → call.cuSeqlensQ[i + 1]? = some q₁ →
      call.cuSeqlensK[i]? = some k₀ → call.cuSeqlensK[i + 1]? = some k₁ → k₀ < k₁ →
      pySlice (b.varlen call) q₀ q₁ = attend b.weight call.softmaxScale (pySlice call.q q₀ q₁)
        (pySlice call.k k₀ k₁) (pySlice call.v k₀ k₁)

/-- The packing after `slot` query heads, whose rows are given by `qOf`, `kOf` and `vOf`. -/
structure Packing.Packs (p : Packing K D) (qOf kOf vOf : Nat → List (Row K D)) (slot : Nat) :
    Prop where
  qParts : p.qParts = (range slot).map qOf
  kParts : p.kParts = (range slot).map kOf
  vParts : p.vParts = (range slot).map vOf
  cuQ : p.cuQ = offsets p.qParts
  cuK : p.cuK = offsets p.kParts
  maxQ : ∀ part ∈ p.qParts, part.length ≤ p.maxQ
  maxK : ∀ part ∈ p.kParts, part.length ≤ p.maxK

variable {qOf kOf vOf : Nat → List (Row K D)} {p : Packing K D} {slot : Nat}

omit [Field K] [LinearOrder K] in
theorem Packing.packs_start : (Packing.start : Packing K D).Packs qOf kOf vOf 0 :=
  ⟨rfl, rfl, rfl, rfl, rfl, fun _ h => (nomatch h), fun _ h => (nomatch h)⟩

omit [Field K] [LinearOrder K] in
theorem Packing.Packs.push (packs : p.Packs qOf kOf vOf slot) {lq : Nat}
    (length : (qOf slot).length = lq) :
    (p.push lq (qOf slot) (kOf slot) (vOf slot)).Packs qOf kOf vOf (slot + 1) := by
  have more : ∀ f : Nat → List (Row K D), (range (slot + 1)).map f =
      (range slot).map f ++ [f slot] := fun f => by rw [range_succ, map_append]; rfl
  refine ⟨?_, ?_, ?_, ?_, ?_, ?_, ?_⟩
  · rw [more, ← packs.qParts]; rfl
  · rw [more, ← packs.kParts]; rfl
  · rw [more, ← packs.vParts]; rfl
  · simp only [Packing.push, packs.cuQ, getLastD_eq_getLast?, getLast?_offsets, offsets_concat,
      length, getD_some]
  · simp only [Packing.push, packs.cuK, getLastD_eq_getLast?, getLast?_offsets, offsets_concat,
      getD_some]
  · intro part hp
    rcases mem_append.mp hp with old | new
    · exact (packs.maxQ part old).trans (le_max_left _ _)
    · rw [mem_singleton.mp new, length]
      exact le_max_right _ _
  · intro part hp
    rcases mem_append.mp hp with old | new
    · exact (packs.maxK part old).trans (le_max_left _ _)
    · rw [mem_singleton.mp new]
      exact le_max_right _ _

omit [Field K] [LinearOrder K] in
theorem pack_spec (query : HeadTensor K (H * n) Lq D) (heads : cache.numKvHeads = H)
    (gathers : ∀ h < H, cache.gatherHead layer h = .ok (kOf h, vOf h)) :
    ∃ packing, pack query cache layer n = .ok packing ∧
      packing.Packs query.head (fun qh => kOf (qh / n)) (fun qh => vOf (qh / n)) (H * n) := by
  unfold pack
  rw [heads]
  apply forRange_nested_ok (P := fun slot (packing : Packing K D) =>
      packing.Packs query.head (fun qh => kOf (qh / n)) (fun qh => vOf (qh / n)) slot)
    (f := fun h g packing => do
      let q ← pyGet query.heads (h * n + g)
      .ok (packing.push Lq q (kOf h) (vOf h)))
  · exact Packing.packs_start
  · intro h hh packing
    simp only [gathers h hh, ok_bind]
  · intro h hh g hg packing packs
    simp only [pyGet_eq (query.getElem?_heads (flat_lt hh hg)), ok_bind]
    have pushed := packs.push (query.length_head_eq (flat_lt hh hg))
    simp only [flat_div hg] at pushed
    exact ⟨_, rfl, pushed⟩

omit [LinearOrder K] in
theorem unpack_spec {packedOut : List (Option (Row K D))} {cuQ : List Nat}
    {value : Nat → List (Option (Row K D))}
    (slices : ∀ qh < H * n, ∃ start stop, cuQ[qh]? = some start ∧ cuQ[qh + 1]? = some stop ∧
      pySlice packedOut start stop = value qh) :
    unpack packedOut cuQ H n (zerosLike query) = .ok ((range (H * n)).map value) := by
  have loop : ∃ state : Output K D × Nat, forRange H (fun kvH state =>
      forRange n (fun g => unpackHead packedOut cuQ (kvH * n + g)) state) (zerosLike query, 0) =
        .ok state ∧ state.2 = H * n ∧ Filled (H * n) value (H * n) state.1 := by
    apply forRange_nested_ok (P := fun slot (state : Output K D × Nat) =>
      state.2 = slot ∧ Filled (H * n) value slot state.1)
    · exact ⟨rfl, zerosLike_filled _⟩
    · intro h hh state
      rfl
    · intro h hh g hg state inv
      obtain ⟨counter, filled⟩ := inv
      obtain ⟨start, stop, hstart, hstop, slice⟩ := slices _ (flat_lt hh hg)
      obtain ⟨out', sets, filled⟩ := pySet_filled filled (flat_lt hh hg) slice
      refine ⟨(out', h * n + g + 1), ?_, rfl, filled⟩
      simp only [unpackHead, counter, pyGet_eq hstart, pyGet_eq hstop, sets, ok_bind]
  obtain ⟨state, runs, -, filled⟩ := loop
  simp only [unpack, runs, ok_bind, ← filled.eq_map]

theorem Packing.Packs.varlen (smScale : K) {size i : Nat} (packs : p.Packs qOf kOf vOf size)
    (kernel : b.AttendsPerSequence) (same : ∀ i, (vOf i).length = (kOf i).length)
    (inside : i < size) (some_key : kOf i ≠ []) :
    ∃ start stop, p.cuQ[i]? = some start ∧ p.cuQ[i + 1]? = some stop ∧
      pySlice (b.varlen ⟨p.qParts.flatten, p.kParts.flatten, p.vParts.flatten, p.cuQ, p.cuK, p.maxQ,
        p.maxK, smScale⟩) start stop = attend b.weight smScale (qOf i) (kOf i) (vOf i) := by
  have part : ∀ f : Nat → List (Row K D), ((range size).map f)[i]? = some (f i) := by
    intro f
    simp [inside]
  have hQ : p.qParts[i]? = some (qOf i) := packs.qParts ▸ part qOf
  have hK : p.kParts[i]? = some (kOf i) := packs.kParts ▸ part kOf
  have hV : p.vParts[i]? = some (vOf i) := packs.vParts ▸ part vOf
  obtain ⟨inQ, -⟩ := List.getElem?_eq_some_iff.mp hQ
  obtain ⟨inK, -⟩ := List.getElem?_eq_some_iff.mp hK
  have lengths : p.vParts.map List.length = p.kParts.map List.length := by
    simp [packs.vParts, packs.kParts, same, Function.comp_def]
  have rows : p.vParts.flatten.length = p.kParts.flatten.length := by
    rw [length_flatten, length_flatten, lengths]
  have count : p.cuQ.length = p.cuK.length := by
    simp [packs.cuQ, packs.cuK, packs.qParts, packs.kParts]
  have startQ : p.cuQ[i]? = some (offset p.qParts i) := packs.cuQ ▸ getElem?_offsets inQ.le
  have stopQ : p.cuQ[i + 1]? = some (offset p.qParts (i + 1)) := packs.cuQ ▸ getElem?_offsets inQ
  have startK : p.cuK[i]? = some (offset p.kParts i) := packs.cuK ▸ getElem?_offsets inK.le
  have stopK : p.cuK[i + 1]? = some (offset p.kParts (i + 1)) := packs.cuK ▸ getElem?_offsets inK
  have key : offset p.kParts i < offset p.kParts (i + 1) := by
    have := length_pos_iff.mpr some_key
    rw [offset_succ hK]
    omega
  have attends := kernel ⟨p.qParts.flatten, p.kParts.flatten, p.vParts.flatten, p.cuQ, p.cuK, p.maxQ,
    p.maxK, smScale⟩ (packs.cuQ ▸ cuts_offsets packs.maxQ) (packs.cuK ▸ cuts_offsets packs.maxK)
    count rows i _ _ _ _ startQ stopQ startK stopK key
  refine ⟨_, _, startQ, stopQ, attends.trans ?_⟩
  rw [slice_flatten hQ, slice_flatten hK, ← offset_congr lengths, ← offset_congr lengths,
    slice_flatten hV]

theorem fusedAttention_eq [IsStrictOrderedRing K] (kernel : b.AttendsPerSequence)
    (some_head : 0 < H * n) (heads : cache.numKvHeads = H)
    (gathers : ∀ h < H, cache.gatherHead layer h =
      .ok (rowsAt (kDense.head h) (plans h), rowsAt (vDense.head h) (plans h)))
    (selects : ∀ h < H, (plans h).Selects L) (visible : ∀ h < H, (plans h).positions ≠ []) :
    fusedAttention b query cache layer n smScale =
      .ok ((range (H * n)).map (visibleHead b.weight query kDense vDense plans n smScale)) := by
  obtain ⟨packing, packed, packs⟩ := pack_spec query heads gathers
  have nonempty : ∀ f : Nat → List (Row K D), (range (H * n)).map f ≠ [] := by
    intro f
    rw [ne_eq, map_eq_nil_iff, range_eq_nil]
    exact some_head.ne'
  have some_q : packing.qParts ≠ [] := packs.qParts ▸ nonempty _
  have some_k : packing.kParts ≠ [] := packs.kParts ▸ nonempty _
  have some_v : packing.vParts ≠ [] := packs.vParts ▸ nonempty _
  simp only [fusedAttention, packed, ok_bind, cat, some_q, some_k, some_v, if_false, heads]
  apply unpack_spec
  intro qh hq
  have kv : qh / n < H := Nat.div_lt_of_lt_mul (mul_comm H n ▸ hq)
  have some_key : rowsAt (kDense.head (qh / n)) (plans (qh / n)) ≠ [] := by
    simpa [rowsAt] using visible _ kv
  obtain ⟨start, stop, hstart, hstop, slice⟩ := packs.varlen smScale kernel
    (fun qh => by simp [rowsAt]) hq some_key
  refine ⟨start, stop, hstart, hstop, slice.trans ?_⟩
  rw [attend_rowsAt (selects _ kv) (visible _ kv), visibleHead]

/-- Attention over the paged store is masked dense attention, on the reference path and on every
path whose kernel attends per sequence. -/
theorem pagedAttention_eq_dense [IsStrictOrderedRing K] (b : Backend K D)
    (kernel : b.AttendsPerSequence) (query : HeadTensor K (H * n) Lq D)
    (kDense vDense : HeadTensor K H L D) (plans : List HeadVisiblePlan) (pageSize layer : Nat)
    (storage : Option (LocalPagedPool K D)) (smScale : K) (positive : 1 ≤ pageSize)
    (sound : ∀ pool ∈ storage, pool.Sound ∧ pool.pageSize = pageSize)
    (one_per_head : plans.length = H)
    (built : ∀ plan ∈ plans, plan.Built ∧ plan.seqLen ≤ L ∧ plan.positions ≠ []) :
    ∃ cache out, buildPagedCache kDense vDense plans pageSize layer storage = .ok cache ∧
      denseReferenceAttention b.weight query kDense vDense plans n smScale = .ok out ∧
      pagedAttention b query cache layer n smScale false = .ok out ∧
      (0 < H * n → ∀ useFused, pagedAttention b query cache layer n smScale useFused = .ok out) := by
  let planOf : Nat → HeadVisiblePlan := fun h => plans.getD h (globalPlan 0)
  have listed : ∀ h < H, plans[h]? = some (planOf h) := by
    intro h hh
    have there : h < plans.length := one_per_head.symm ▸ hh
    simp [planOf, getElem?_eq_getElem there]
  have good : ∀ h < H, (planOf h).Selects L ∧ (planOf h).positions ≠ [] := by
    intro h hh
    obtain ⟨made, fits, visible⟩ := built _ (mem_of_getElem? (listed h hh))
    exact ⟨made.selects.mono fits, visible⟩
  have selects := fun h hh => (good h hh).1
  have visible := fun h hh => (good h hh).2
  obtain ⟨cache, builds, heads, size, holds⟩ := buildPagedCache_spec layer
    (fun h => rowsAt (kDense.head h) (planOf h)) (fun h => rowsAt (vDense.head h) (planOf h))
    positive sound one_per_head
    fun h hh => ⟨_, _, _, kDense.getElem?_heads hh, vDense.getElem?_heads hh, listed h hh,
      indexSelect_eq (selects h hh) _ (kDense.length_head_eq hh),
      indexSelect_eq (selects h hh) _ (vDense.length_head_eq hh), by simp [rowsAt], by simp [rowsAt]⟩
  have gathers : ∀ h < H, cache.gatherHead layer h =
      .ok (rowsAt (kDense.head h) (planOf h), rowsAt (vDense.head h) (planOf h)) := by
    intro h hh
    exact holds.gatherHead (size.symm ▸ positive) hh (by simp [rowsAt])
  have reference : referenceAttention b query cache layer n smScale = _ :=
    referenceAttention_eq heads gathers selects visible
  refine ⟨cache, _, builds, denseReferenceAttention_eq listed selects visible, ?_, ?_⟩
  · simp only [pagedAttention, heads, ne_eq, not_true_eq_false, if_false, Bool.false_and,
      Bool.false_eq_true]
    exact reference
  · intro some_head useFused
    simp only [pagedAttention, heads, ne_eq, not_true_eq_false, if_false]
    split
    · exact fusedAttention_eq kernel some_head heads gathers selects visible
    · exact reference

def varlenBySlices (w : PositiveWeight K) (call : VarlenCall K D) : List (Option (Row K D)) :=
  ((range (call.cuSeqlensQ.length - 1)).map fun i =>
    attend w call.softmaxScale
      (pySlice call.q (call.cuSeqlensQ.getD i 0) (call.cuSeqlensQ.getD (i + 1) 0))
      (pySlice call.k (call.cuSeqlensK.getD i 0) (call.cuSeqlensK.getD (i + 1) 0))
      (pySlice call.v (call.cuSeqlensK.getD i 0) (call.cuSeqlensK.getD (i + 1) 0))).flatten

theorem attendsPerSequence_bySlices (exact : b.varlen = varlenBySlices b.weight) :
    b.AttendsPerSequence := by
  intro call cutsQ _ _ _ i q₀ q₁ k₀ k₁ hq₀ hq₁ hk₀ hk₁ _
  have piece : ∀ i, i + 1 < call.cuSeqlensQ.length → i < call.cuSeqlensQ.length - 1 := by omega
  obtain ⟨inside, -⟩ := List.getElem?_eq_some_iff.mp hq₁
  -- the pieces of the output are as long as those of the queries, so they start where those start
  rw [exact, varlenBySlices]
  generalize hparts : (range (call.cuSeqlensQ.length - 1)).map _ = parts
  have sizes : ∀ i a c, call.cuSeqlensQ[i]? = some a → call.cuSeqlensQ[i + 1]? = some c →
      parts[i]?.map List.length = some (c - a) := by
    intro i a c ha hc
    have within := cutsQ.le_total hc
    obtain ⟨bound, -⟩ := List.getElem?_eq_some_iff.mp hc
    simp [← hparts, piece i bound, attend, pySlice, getD_eq_getElem?_getD, ha, hc,
      min_eq_left within]
  have starts : offsets parts = call.cuSeqlensQ := by
    apply cutsQ.offsets_eq _ sizes
    rw [← hparts, length_map, length_range]
    omega
  have value : parts[i]? = some (attend b.weight call.softmaxScale (pySlice call.q q₀ q₁)
      (pySlice call.k k₀ k₁) (pySlice call.v k₀ k₁)) := by
    simp [← hparts, piece i inside, getD_eq_getElem?_getD, hq₀, hq₁, hk₀, hk₁]
  obtain ⟨there, -⟩ := List.getElem?_eq_some_iff.mp value
  have first : offset parts i = q₀ := by
    rw [← starts, getElem?_offsets there.le] at hq₀
    exact some.inj hq₀
  have last : offset parts (i + 1) = q₁ := by
    rw [← starts, getElem?_offsets there] at hq₁
    exact some.inj hq₁
  rw [← first, ← last, slice_flatten value, first, last]

def exactBackend : Backend ℚ 1 where
  weight := ⟨fun x => 1 + x * x, fun x => add_pos_of_pos_of_nonneg one_pos (mul_self_nonneg x)⟩
  varlen := varlenBySlices ⟨fun x => 1 + x * x, fun x =>
    add_pos_of_pos_of_nonneg one_pos (mul_self_nonneg x)⟩
  fusedVarlenAvailable := true
  queryIsCuda := true

def smallDense : HeadTensor ℚ 2 3 1 where
  heads := [[fun _ => 1, fun _ => 2, fun _ => 3], [fun _ => 4, fun _ => 5, fun _ => 6]]
  length_heads := rfl
  length_head := by simp

def smallQuery : HeadTensor ℚ (2 * 2) 1 1 where
  heads := [[fun _ => 1], [fun _ => 2], [fun _ => 3], [fun _ => 4]]
  length_heads := rfl
  length_head := by simp

theorem dense_of_localAndCustom : ∃ cache out, buildPagedCache smallDense smallDense
        [localPlan 3 1 1, customPlan 3 [2, 0, 2, 7, -1]] 1 0 none = .ok cache ∧
      denseReferenceAttention exactBackend.weight smallQuery smallDense smallDense
        [localPlan 3 1 1, customPlan 3 [2, 0, 2, 7, -1]] 2 1 = .ok out ∧
      pagedAttention exactBackend smallQuery cache 0 2 1 true = .ok out := by
  have kernel : exactBackend.AttendsPerSequence := attendsPerSequence_bySlices rfl
  have built : ∀ plan ∈ [localPlan 3 1 1, customPlan 3 [2, 0, 2, 7, -1]],
      plan.Built ∧ plan.seqLen ≤ 3 ∧ plan.positions ≠ [] := by
    intro plan listed
    rcases mem_cons.mp listed with rfl | listed
    · exact ⟨.ofLocal 3 1 1, by decide, by decide⟩
    · obtain rfl := mem_singleton.mp listed
      exact ⟨.ofCustom 3 _, by decide, by decide⟩
  obtain ⟨cache, out, builds, dense, -, paged⟩ := pagedAttention_eq_dense exactBackend kernel
    smallQuery smallDense smallDense [localPlan 3 1 1, customPlan 3 [2, 0, 2, 7, -1]] 1 0 none 1
    le_rfl (fun _ h => (nomatch h)) rfl built
  exact ⟨cache, out, builds, dense, paged (by decide) true⟩

end RedKnot.SegPaged
