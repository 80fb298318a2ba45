import Mathlib.Tactic

/-! `_ChunkUtils` and `_deduplicate_ordered` of `eplb/expert_location_updater.py`. -/

namespace RedKnot.Eplb

open List Nat

/-- The first component of `_element_slice_from_chunk_index`. -/
def sliceStart (numElements numChunks chunkIndex : Nat) : Nat :=
  chunkIndex * (numElements / numChunks) + min chunkIndex (numElements % numChunks)

def sliceEnd (numElements numChunks chunkIndex : Nat) : Nat :=
  sliceStart numElements numChunks chunkIndex + numElements / numChunks +
    if chunkIndex < numElements % numChunks then 1 else 0

def chunkIndexFromElementIndex (numElements numChunks elementIndex : Nat) : Nat :=
  let shortChunkSize := numElements / numChunks
  let numLongChunks := numElements % numChunks
  let numElementsForLongChunks := numLongChunks * (shortChunkSize + 1)
  if elementIndex < numElementsForLongChunks then elementIndex / (shortChunkSize + 1)
  else numLongChunks + (elementIndex - numElementsForLongChunks) / shortChunkSize

structure ChunkUtils where
  chunkValues : List Nat
  elementValues : List Nat

/-- `values.index(v)`, which raises for a value that is not there. -/
def indexOf (values : List Nat) (v : Nat) : Option Nat :=
  if v ∈ values then some (values.idxOf v) else none

def ChunkUtils.chunkValueFromElementValue (u : ChunkUtils) (elementValue : Nat) : Option Nat :=
  (indexOf u.elementValues elementValue).bind fun elementIndex =>
    if u.chunkValues.length = 0 then none
    else
      let chunkIndex :=
        chunkIndexFromElementIndex u.elementValues.length u.chunkValues.length elementIndex
      u.chunkValues[chunkIndex]?

def ChunkUtils.elementValuesFromChunkValue (u : ChunkUtils) (chunkValue : Nat) :
    Option (List Nat) :=
  if u.elementValues.length = 0 then some []
  else
    (indexOf u.chunkValues chunkValue).map fun chunkIndex =>
      let start := sliceStart u.elementValues.length u.chunkValues.length chunkIndex
      let stop := sliceEnd u.elementValues.length u.chunkValues.length chunkIndex
      (u.elementValues.take stop).drop start

def deduplicateOrdered (arr : List Nat) : List Nat :=
  arr.foldl (fun output item => if output.getLast? = some item then output else output ++ [item]) []

theorem mem_slice_iff {n k c j : Nat} (chunk : c < k) (element : j < n) :
    sliceStart n k c ≤ j ∧ j < sliceEnd n k c ↔ chunkIndexFromElementIndex n k j = c := by
  unfold sliceEnd sliceStart chunkIndexFromElementIndex
  have whole : k * (n / k) + n % k = n := div_add_mod n k
  generalize n / k = q at *
  generalize n % k = r at *
  by_cases long : j < r * (q + 1)
  · rw [if_pos long]
    by_cases inLong : c < r
    · rw [if_pos inLong, min_eq_left inLong.le, Nat.div_eq_iff (succ_pos q),
        Nat.le_sub_one_iff_lt (by positivity)]
      constructor
      · rintro ⟨low, high⟩
        constructor <;> linarith
      · rintro ⟨low, high⟩
        constructor <;> linarith
    · have few : j / (q + 1) < r := (Nat.div_lt_iff_lt_mul (succ_pos q)).mpr long
      rw [if_neg inLong, min_eq_right (not_lt.mp inLong)]
      constructor
      · rintro ⟨low, -⟩
        have before : r * q ≤ c * q := Nat.mul_le_mul_right q (not_lt.mp inLong)
        linarith
      · intro same
        omega
  · rw [if_neg long]
    have qpos : 0 < q := by
      rcases Nat.eq_zero_or_pos q with rfl | qpos
      · simp at whole long
        omega
      · exact qpos
    by_cases inLong : c < r
    · rw [if_pos inLong, min_eq_left inLong.le]
      constructor
      · rintro ⟨-, high⟩
        have before : (c + 1) * (q + 1) ≤ r * (q + 1) := Nat.mul_le_mul_right (q + 1) inLong
        linarith
      · intro same
        exact absurd (same ▸ Nat.le_add_right r _) (not_le.mpr inLong)
    · rw [if_neg inLong, min_eq_right (not_lt.mp inLong)]
      obtain ⟨d, rfl⟩ := Nat.exists_eq_add_of_le (not_lt.mp inLong)
      obtain ⟨i, rfl⟩ := Nat.exists_eq_add_of_le (not_lt.mp long)
      rw [Nat.add_sub_cancel_left, Nat.add_left_cancel_iff, Nat.div_eq_iff qpos,
        Nat.le_sub_one_iff_lt (by positivity)]
      constructor
      · rintro ⟨low, high⟩
        constructor <;> linarith
      · rintro ⟨low, high⟩
        constructor <;> linarith

theorem chunkIndex_lt {n k j : Nat} (pos : 0 < k) (element : j < n) :
    chunkIndexFromElementIndex n k j < k := by
  unfold chunkIndexFromElementIndex
  have whole : k * (n / k) + n % k = n := div_add_mod n k
  have rest : n % k < k := mod_lt n pos
  generalize n / k = q at *
  generalize n % k = r at *
  dsimp only
  split
  · rename_i long
    exact ((Nat.div_lt_iff_lt_mul (succ_pos q)).mpr long).trans rest
  · rename_i short
    obtain ⟨i, rfl⟩ := Nat.exists_eq_add_of_le (not_lt.mp short)
    obtain ⟨d, rfl⟩ := Nat.exists_eq_add_of_lt rest
    rw [Nat.add_sub_cancel_left]
    have few : i / q < d + 1 := by
      refine Nat.div_lt_of_lt_mul ?_
      nlinarith
    omega

theorem indexOf_of_mem {values : List Nat} {v : Nat} (member : v ∈ values) :
    indexOf values v = some (values.idxOf v) := if_pos member

theorem mem_take_drop {l : List Nat} {a b d : Nat} :
    d ∈ (l.take b).drop a ↔ ∃ j, a ≤ j ∧ j < b ∧ l[j]? = some d := by
  rw [mem_iff_getElem?]
  simp only [getElem?_drop, getElem?_take]
  constructor
  · rintro ⟨i, found⟩
    split at found
    · rename_i high
      exact ⟨a + i, Nat.le_add_right a i, high, found⟩
    · cases found
  · rintro ⟨j, low, high, found⟩
    refine ⟨j - a, ?_⟩
    rw [Nat.add_sub_cancel' low, if_pos high]
    exact found

namespace ChunkUtils

variable {u : ChunkUtils} {s d : Nat}

theorem exists_chunkValue (element : d ∈ u.elementValues) (pos : u.chunkValues ≠ []) :
    ∃ s ∈ u.chunkValues, u.chunkValueFromElementValue d = some s := by
  have some : 0 < u.chunkValues.length := length_pos_iff.mpr pos
  have bound := chunkIndex_lt some (idxOf_lt_length_iff.mpr element)
  refine ⟨_, getElem_mem bound, ?_⟩
  simp only [chunkValueFromElementValue, indexOf_of_mem element, Option.bind_some, some.ne',
    if_false, getElem?_eq_getElem bound]

theorem elementValues_spec (distinct : u.chunkValues.Nodup) (apart : u.elementValues.Nodup)
    (chunk : s ∈ u.chunkValues) :
    ∃ l, u.elementValuesFromChunkValue s = some l ∧ l.Nodup ∧
      ∀ d, d ∈ l ↔ d ∈ u.elementValues ∧ u.chunkValueFromElementValue d = some s := by
  have pos : 0 < u.chunkValues.length := length_pos_of_mem chunk
  unfold elementValuesFromChunkValue
  by_cases none : u.elementValues.length = 0
  · refine ⟨[], if_pos none, nodup_nil, fun d => ?_⟩
    simp [length_eq_zero_iff.mp none]
  · rw [if_neg none, indexOf_of_mem chunk, Option.map_some]
    refine ⟨_, rfl, (apart.sublist (take_sublist _ _)).sublist (drop_sublist _ _), ?_⟩
    intro d
    have position : d ∈ u.elementValues → (u.chunkValueFromElementValue d = some s ↔
        chunkIndexFromElementIndex u.elementValues.length u.chunkValues.length
          (u.elementValues.idxOf d) = u.chunkValues.idxOf s) := by
      intro element
      have bound := chunkIndex_lt pos (idxOf_lt_length_iff.mpr element)
      simp only [chunkValueFromElementValue, indexOf_of_mem element, Option.bind_some, pos.ne',
        if_false, getElem?_eq_getElem bound, Option.some.injEq]
      constructor
      · rintro rfl
        rw [distinct.idxOf_getElem]
      · intro same
        simp only [same, getElem_idxOf]
    have chunkBound : u.chunkValues.idxOf s < u.chunkValues.length :=
      idxOf_lt_length_iff.mpr chunk
    rw [mem_take_drop]
    constructor
    · rintro ⟨j, low, high, found⟩
      obtain ⟨bound, here⟩ := List.getElem?_eq_some_iff.mp found
      have element : d ∈ u.elementValues := mem_of_getElem? found
      have same : u.elementValues.idxOf d = j := by
        rw [← here]
        exact apart.idxOf_getElem j bound
      exact ⟨element, (position element).mpr
        (same ▸ (mem_slice_iff chunkBound bound).mp ⟨low, high⟩)⟩
    · rintro ⟨element, found⟩
      have bound := idxOf_lt_length_iff.mpr element
      obtain ⟨low, high⟩ := (mem_slice_iff chunkBound bound).mpr ((position element).mp found)
      exact ⟨_, low, high, by rw [getElem?_eq_getElem bound, getElem_idxOf]⟩

end ChunkUtils

theorem deduplicateOrdered_spec {arr : List Nat} (ascending : arr.Pairwise (· ≤ ·)) :
    (deduplicateOrdered arr).Nodup ∧ ∀ v, v ∈ deduplicateOrdered arr ↔ v ∈ arr := by
  -- The output ends with the largest value seen, so it cannot hold a later one unseen.
  suffices every : ∀ (arr output : List Nat), (output ++ arr).Pairwise (· ≤ ·) → output.Nodup →
      (arr.foldl (fun output item =>
        if output.getLast? = some item then output else output ++ [item]) output).Nodup ∧
      ∀ v, v ∈ arr.foldl (fun output item =>
        if output.getLast? = some item then output else output ++ [item]) output ↔
          v ∈ output ∨ v ∈ arr by
    obtain ⟨distinct, same⟩ := every arr [] (by simpa using ascending) nodup_nil
    exact ⟨distinct, by simpa [deduplicateOrdered] using same⟩
  intro arr
  induction arr with
  | nil => exact fun output _ distinct => ⟨distinct, by simp⟩
  | cons item arr ih =>
    intro output ascending distinct
    rw [foldl_cons]
    split
    · rename_i last
      have known : item ∈ output := mem_of_getLast? last
      obtain ⟨distinct', same⟩ := ih output (ascending.sublist (by simp)) distinct
      refine ⟨distinct', fun v => ?_⟩
      rw [same, mem_cons]
      constructor
      · rintro (old | later)
        · exact .inl old
        · exact .inr (.inr later)
      · rintro (old | rfl | later)
        · exact .inl old
        · exact .inl known
        · exact .inr later
    · rename_i last
      have new : item ∉ output := by
        intro known
        apply last
        obtain ⟨order, -, bound⟩ := pairwise_append.mp ascending
        rcases eq_nil_or_concat output with rfl | ⟨front, l, rfl⟩
        · cases known
        · rw [concat_eq_append] at *
          have above : l ≤ item := bound l (by simp) item mem_cons_self
          have below : item ≤ l := by
            rcases mem_append.mp known with earlier | here
            · exact (pairwise_append.mp order).2.2 item earlier l (by simp)
            · exact (mem_singleton.mp here).le
          rw [getLast?_append, above.antisymm below]
          rfl
      obtain ⟨distinct', same⟩ := ih (output ++ [item]) (by simpa using ascending)
        (nodup_append.mpr ⟨distinct, nodup_singleton _, by
          intro a old b fresh
          rw [mem_singleton.mp fresh]
          exact fun same => new (same ▸ old)⟩)
      refine ⟨distinct', fun v => ?_⟩
      rw [same, mem_append, mem_singleton, mem_cons, or_assoc]

end RedKnot.Eplb
