import RedKnot.Attention.HeadClass.Flash

/-! The single-pass online prefill (`_flat_headclass_attention` of `redknot/driver_batched.py`) and
the pass of one slot (`_headclass_online_attention`). A local head merges two calls of the kernel,
so a key of both counts twice. -/

namespace RedKnot.FlatAttention

open HeadClass List

variable {κ : Type}

/-- `flat_pos` of `online_forward_segments_flat`. -/
def flatPos : Nat → List Nat → List Nat
  | _, [] => []
  | p, docLen :: lens => range' p docLen ++ flatPos (p + docLen) lens

/-- The keys that query `i` of `lq` sees in a call of `_flash_attn_lse`. -/
def flashAttnLse (lq : Nat) (keys : List κ) (causal : Bool) (window : Int) (i : Nat) : List κ :=
  faKeys lq causal (if causal ∧ 0 < window then (window - 1, 0) else (-1, -1)) keys i

/-- `rec_k[:, :, -keep:, :]`. -/
def recentKeys (window lq : Nat) (keys : List κ) : List κ :=
  keys.drop (keys.length - min keys.length (window + lq))

/-- The keys in the softmax of query `i` for the query heads of one KV head. -/
def flatHeadclassAttention (seg0 online : List κ) (isLocal : Bool) (sinkSize : Int)
    (window seg0Len i : Nat) : List κ :=
  let lq := online.length
  if isLocal then
    let s := max 0 (min sinkSize seg0Len)
    let recent := flashAttnLse lq (recentKeys window lq (seg0 ++ online)) true window i
    if 0 < s then recent ++ flashAttnLse lq (seg0.take s.toNat) false (-1) i else recent
  else flashAttnLse lq (seg0 ++ online) true (-1) i

/-- The same for a query of one segment. The recent keys of a local head leave segment 0 out. -/
def headclassOnlineAttention (seg0 onlinePrev self : List κ) (isLocal : Bool) (sinkSize : Int)
    (window i : Nat) : List κ :=
  let lb := self.length
  if isLocal then
    let s := max 0 (min sinkSize seg0.length)
    let recent := flashAttnLse lb (recentKeys window lb (onlinePrev ++ self)) true window i
    if 0 < s then recent ++ flashAttnLse lb (seg0.take s.toNat) false (-1) i else recent
  else flashAttnLse lb (seg0 ++ (onlinePrev ++ self)) true (-1) i

theorem flatPos_eq (p : Nat) (lens : List Nat) : flatPos p lens = range' p lens.sum := by
  induction lens generalizing p with
  | nil => rfl
  | cons docLen lens ih => rw [flatPos, ih, sum_cons, range'_append_1]

theorem zipIdx_range' (a n : Nat) : (range' a n).zipIdx = (range n).map fun j => (a + j, j) := by
  apply ext_getElem
  · simp
  · intro j _ _
    simp

theorem stream_eq (L0 T : Nat) : range L0 ++ range' L0 T = range' 0 (L0 + T) := by
  simpa [range_eq_range'] using @List.range'_append_1 0 L0 T

/-- A stretch of consecutive positions, with the queries at its end. -/
theorem flashAttnLse_range (lq : Nat) (window : Int) (a n i : Nat) :
    flashAttnLse lq (range' a n) true window i = (range' a n).filter fun x =>
      x + lq ≤ a + n + i ∧ (0 < window → (a + n + i : Int) < x + lq + window) := by
  simp only [flashAttnLse, faKeys, zipIdx_range', filter_map, map_map]
  rw [range'_eq_map_range, filter_map]
  refine congrArg₂ map rfl (filter_congr fun j _ => ?_)
  simp only [Function.comp_apply, length_map, length_range, Bool.not_true,
    Bool.false_or, ← Bool.decide_and, ← Bool.decide_or, decide_eq_decide, true_and]
  split <;> omega

/-- No query of the sequence sees what the cut drops. -/
theorem flashAttnLse_recentKeys {window : Nat} (positive : 1 ≤ window) (a m T i : Nat) :
    flashAttnLse T (recentKeys window T (range' a (m + T))) true window i =
      flashAttnLse T (range' a (m + T)) true window i := by
  obtain ⟨k, n, split, small, dropped⟩ : ∃ k n, k + n = m + T ∧ k ≤ m - window ∧
      recentKeys window T (range' a (m + T)) = range' (a + k) n := by
    refine ⟨m + T - min (m + T) (window + T), min (m + T) (window + T), by omega, by omega, ?_⟩
    rw [recentKeys, length_range', drop_range', mul_one]
    congr 1
    omega
  have unseen : (range' a k).filter (fun x => x + T ≤ a + (m + T) + i ∧
      (0 < (window : Int) → (a + (m + T : Nat) + i : Int) < x + T + window)) = [] := by
    refine filter_eq_nil_iff.mpr fun x member => ?_
    have bounds := mem_range'_1.mp member
    simp only [decide_eq_true_eq]
    omega
  rw [dropped, flashAttnLse_range, flashAttnLse_range, ← split,
    ← range'_append_1, filter_append, split, unseen, nil_append]
  refine filter_congr fun x _ => decide_eq_decide.mpr ?_
  omega

section

variable {W : Nat} (positive : 1 ≤ W) (S : Int) (L0 T i x : Nat) (query : i < T)

include positive query

/-- The two calls of a local head whose stream of recent keys starts at `a`. -/
theorem count_local (a m : Nat) :
    (let s := max 0 (min S L0)
    let recent := flashAttnLse T (recentKeys W T (range' a (m + T))) true W i
    if 0 < s then recent ++ flashAttnLse T ((range L0).take s.toNat) false (-1) i
    else recent).count x =
      (if a ≤ x ∧ a + m + i < x + W ∧ x ≤ a + m + i then 1 else 0) +
        if x < S ∧ x < L0 then 1 else 0 := by
  have recent : (flashAttnLse T (recentKeys W T (range' a (m + T))) true W i).count x =
      if a ≤ x ∧ a + m + i < x + W ∧ x ≤ a + m + i then 1 else 0 := by
    rw [flashAttnLse_recentKeys positive, flashAttnLse_range,
      Nodup.count ((nodup_range' ..).filter _)]
    refine if_congr ?_ rfl rfl
    simp only [mem_filter, mem_range'_1, decide_eq_true_eq]
    omega
  have sinks : ∀ n, (flashAttnLse T ((range L0).take n) false (-1) i).count x =
      if x < min n L0 then 1 else 0 := by
    intro n
    rw [flashAttnLse, if_neg (by simp), faKeys_all,
      (nodup_range.sublist (take_sublist _ _)).count, take_range]
    exact if_congr mem_range rfl rfl
  dsimp only
  split
  · rw [count_append, recent, sinks]
    exact congrArg _ (if_congr (by omega) rfl rfl)
  · next none => rw [recent, if_neg (c := (x : Int) < S ∧ x < L0) (by omega), add_zero]

theorem count_flatHeadclassAttention :
    (flatHeadclassAttention (range L0) (range' L0 T) true S W L0 i).count x =
      (if L0 + i < x + W ∧ x ≤ L0 + i then 1 else 0) + if x < S ∧ x < L0 then 1 else 0 := by
  simp only [flatHeadclassAttention, if_pos, length_range', stream_eq]
  simpa using count_local positive S L0 T i x query 0 L0

theorem count_headclassOnlineAttention (m : Nat) :
    (headclassOnlineAttention (range L0) (range' L0 m) (range' (L0 + m) T) true S W
      i).count x = (if L0 ≤ x ∧ L0 + m + i < x + W ∧ x ≤ L0 + m + i then 1 else 0) +
        if x < S ∧ x < L0 then 1 else 0 := by
  simp only [headclassOnlineAttention, if_pos, length_range', range'_append_1, length_range]
  exact count_local positive S L0 T i x query L0 m

end

/-- What a local head reads for the query at position `p`: each sink and each position of the
window once, whether or not the stream is cut. -/
structure SeenOnce (W S L0 : Nat) (lens : List Nat) (i p : Nat) : Prop where
  once : ∀ x, (flatHeadclassAttention (range L0) (flatPos L0 lens) true S W L0 i).count x =
    if (x < S ∨ p < x + W) ∧ x ≤ p then 1 else 0
  uncut : flashAttnLse lens.sum
      (recentKeys W lens.sum (range L0 ++ flatPos L0 lens)) true W i =
    flashAttnLse lens.sum (range L0 ++ flatPos L0 lens) true W i

theorem localHead_seenOnce_iff {W : Nat} (positive : 1 ≤ W) (S L0 : Nat) (lens : List Nat)
    {i p : Nat} (query : (flatPos L0 lens)[i]? = some p) :
    SeenOnce W S L0 lens i p ↔
      (min S L0 = 0 ∨ min S L0 + W ≤ p + 1) ∧ (S ≤ L0 ∨ p + 1 ≤ L0 + W) := by
  rw [flatPos_eq] at query
  obtain ⟨inside, at_p⟩ := List.getElem?_eq_some_iff.mp query
  rw [length_range'] at inside
  rw [getElem_range', one_mul] at at_p
  have uncut := flashAttnLse_recentKeys positive 0 L0 lens.sum i
  constructor
  · intro seen
    have first := seen.once L0
    have overlap := seen.once (p + 1 - W)
    rw [flatPos_eq, count_flatHeadclassAttention positive S L0 lens.sum i _ inside] at first overlap
    split_ifs at first overlap <;> omega
  · rintro ⟨apart, complete⟩
    refine ⟨fun x => ?_, by rwa [flatPos_eq, stream_eq]⟩
    rw [flatPos_eq, count_flatHeadclassAttention positive S L0 lens.sum i x inside]
    split_ifs <;> omega

theorem localHead_seenOnce_far : SeenOnce 2 1 2 [1, 2] 2 4 :=
  (localHead_seenOnce_iff (by decide) 1 2 [1, 2] (by decide)).mpr (by decide)

/-- Position 1 is a sink and in the window. -/
theorem localHead_sink_twice : (flatPos 2 [1])[0]? = some 2 ∧ ¬ SeenOnce 2 2 2 [1] 0 2 :=
  ⟨by decide, fun seen => absurd (seen.once 1) (by decide)⟩

/-- On a query of segment `d` the two passes agree for the global heads, and for the local heads if
segment 0 is all sinks or out of the window. -/
theorem headclass_paths_agree_iff {W : Nat} (positive : 1 ≤ W) (S : Int) (L0 : Nat)
    (lens : List Nat) {d lb i : Nat} (segment : lens[d]? = some lb) (query : i < lb) :
    let start := (lens.take d).sum
    let Agree := fun isLocal => ∀ x,
      x ∈ headclassOnlineAttention (range L0) (flatPos L0 (lens.take d))
        (range' (L0 + start) lb) isLocal S W i ↔
      x ∈ flatHeadclassAttention (range L0) (flatPos L0 lens) isLocal S W L0 (start + i)
    Agree false ∧ (Agree true ↔ L0 ≤ max 0 S ∨ W ≤ start + i + 1) := by
  intro start Agree
  have inside : start + i < lens.sum := by
    have cut := congrArg sum (take_append_drop d lens)
    obtain ⟨short, rfl⟩ := List.getElem?_eq_some_iff.mp segment
    rw [drop_eq_getElem_cons short, sum_append, sum_cons] at cut
    omega
  constructor
  · intro x
    simp only [headclassOnlineAttention, flatHeadclassAttention, flatPos_eq, start, stream_eq,
      range'_append_1, length_range', Bool.false_eq_true, if_false, flashAttnLse_range,
      mem_filter, mem_range'_1, decide_eq_true_eq]
    omega
  · simp only [Agree, flatPos_eq, ← count_pos_iff,
      count_headclassOnlineAttention positive _ _ _ _ _ query,
      count_flatHeadclassAttention positive _ _ _ _ _ inside, start]
    constructor
    · intro agree
      have last := agree (L0 - 1)
      split_ifs at last <;> omega
    · intro fits x
      split_ifs <;> omega

theorem headclass_paths_agree_far : 2 ∈ headclassOnlineAttention [0, 1] [2] [3, 4] true 1 2 0 ↔
      2 ∈ flatHeadclassAttention [0, 1] [2, 3, 4] true 1 2 2 1 :=
  (headclass_paths_agree_iff (by decide) 1 2 [1, 2] (d := 1) rfl (by decide)).2.mpr (by decide) 2

/-- The first online token, with a window of two: the slot does not read the token before it. -/
theorem slot_misses_segment0 : 1 ∉ headclassOnlineAttention [0, 1] [] [2] true 1 2 0 ∧
    1 ∈ flatHeadclassAttention [0, 1] [2] true 1 2 2 0 := by
  decide

end RedKnot.FlatAttention
