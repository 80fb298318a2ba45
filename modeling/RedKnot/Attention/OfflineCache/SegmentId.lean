import RedKnot.MemCache.BlockWords

/-! `OfflineKVCache.compute_segment_id` (`redknot/offline_cache.py`). The blake2b function is a
parameter. -/

namespace RedKnot.OfflineCache

open Function List

structure SegmentContent where
  modelId : String
  prependBos : Bool
  extra : String
  tokenIds : List Int
deriving DecidableEq

def encodeUtf8 (s : String) : List UInt8 := s.toByteArray.data.toList

/-- An entry of the `torch.int32` array, in little-endian order. -/
def int32Bytes (t : Int) : Except PyError (List UInt8) :=
  if -2 ^ 31 ≤ t ∧ t < 2 ^ 31 then .ok (tokenBytes (t % 2 ^ 32).toNat)
  else .error (.runtimeError "value cannot be converted to type int32 without overflow")

namespace SegmentContent

def extraBytes (c : SegmentContent) : List UInt8 :=
  if c.extra = "" then [] else encodeUtf8 "|x=" ++ encodeUtf8 c.extra

/-- What `h.update` is given. -/
def hashed (c : SegmentContent) : Except PyError (List UInt8) := do
  let tokArr ← c.tokenIds.mapM int32Bytes
  let bos := encodeUtf8 "|bos=" ++ encodeUtf8 (if c.prependBos then "1" else "0")
  return encodeUtf8 c.modelId ++ bos ++ c.extraBytes ++ tokArr.flatten

def computeSegmentId (blake2b : List UInt8 → Digest) (c : SegmentContent) :
    Except PyError Digest := do
  return blake2b (← c.hashed)

/-- The token ids fit the dtype, and the model id has no `|`. -/
structure Plain (c : SegmentContent) : Prop where
  model : 124 ∉ encodeUtf8 c.modelId
  tokens : ∀ t ∈ c.tokenIds, -2 ^ 31 ≤ t ∧ t < 2 ^ 31

/-- The token ids have three bytes, so that the fourth is a NUL, and the extra has none. -/
structure Terminated (c : SegmentContent) : Prop where
  tokens : ∀ t ∈ c.tokenIds, 0 ≤ t ∧ t < 2 ^ 24
  extra : 0 ∉ encodeUtf8 c.extra

end SegmentContent

theorem encodeUtf8_inj {s t : String} (same : encodeUtf8 s = encodeUtf8 t) : s = t := by
  unfold encodeUtf8 at same
  exact String.toByteArray_inj.mp (ByteArray.ext (Array.toList_inj.mp same))

theorem append_separator_inj {b : UInt8} {x y r r' : List UInt8} (left : b ∉ x) (right : b ∉ y)
    (same : x ++ b :: r = y ++ b :: r') : x = y ∧ r = r' := by
  rcases append_eq_append_iff.mp same with ⟨gap, longer, cut⟩ | ⟨gap, longer, cut⟩
  · cases gap with
    | nil => exact ⟨by simpa using longer.symm, (List.cons.inj cut).2⟩
    | cons a gap => simp [longer, (List.cons.inj cut).1] at right
  · cases gap with
    | nil => exact ⟨by simpa using longer, (List.cons.inj cut).2.symm⟩
    | cons a gap => simp [longer, (List.cons.inj cut).1] at left

def packed (ts : List Int) : List UInt8 := ts.flatMap fun t => tokenBytes (t % 2 ^ 32).toNat

theorem packed_inj {ts us : List Int} (small : ∀ t ∈ ts, -2 ^ 31 ≤ t ∧ t < 2 ^ 31)
    (small' : ∀ u ∈ us, -2 ^ 31 ≤ u ∧ u < 2 ^ 31) (same : packed ts = packed us) : ts = us := by
  induction ts generalizing us with
  | nil =>
    cases us with
    | nil => rfl
    | cons u us => cases same
  | cons t ts ih =>
    cases us with
    | nil => cases same
    | cons u us =>
      obtain ⟨first, rest⟩ := append_inj same rfl
      have low := small t mem_cons_self
      have low' := small' u mem_cons_self
      have := tokenBytes_inj (by omega) (by omega) first
      rw [ih (fun v later => small v (mem_cons_of_mem _ later))
        (fun v later => small' v (mem_cons_of_mem _ later)) rest, (by omega : t = u)]

theorem length_packed (ts : List Int) : (packed ts).length = 4 * ts.length := by
  induction ts with
  | nil => rfl
  | cons t ts ih =>
    rw [packed, flatMap_cons, ← packed, length_append, ih, length_cons]
    change 4 + 4 * ts.length = _
    omega

/-- Tokens of three bytes do not continue with anything that has no NUL. -/
theorem gap_eq_nil {ts us : List Int} {gap : List UInt8} (small : ∀ t ∈ ts, 0 ≤ t ∧ t < 2 ^ 24)
    (no_nul : 0 ∉ gap) (same : packed ts = gap ++ packed us) : gap = [] := by
  have sizes := congrArg length same
  rw [length_append, length_packed, length_packed] at sizes
  cases ts with
  | nil => exact eq_nil_of_length_eq_zero (by simp only [length_nil] at sizes; omega)
  | cons t ts =>
    by_contra some_byte
    have long : 4 ≤ gap.length := by
      have := length_pos_of_ne_nil some_byte
      omega
    have first := congrArg (take 4) same
    rw [take_append_of_le_length long] at first
    have token : (packed (t :: ts)).take 4 = tokenBytes (t % 2 ^ 32).toNat := rfl
    have top : (t % 2 ^ 32).toNat / 2 ^ 24 = 0 := by
      have low := small t mem_cons_self
      omega
    have nul : 0 ∈ gap.take 4 := by
      rw [← first, token, tokenBytes, top]
      simp
    exact no_nul (mem_of_mem_take nul)

namespace SegmentContent

theorem hashed_eq {c : SegmentContent} (plain : c.Plain) :
    c.hashed = .ok (encodeUtf8 c.modelId ++ 124 :: ([98, 111, 115, 61] ++
      (if c.prependBos then 49 else 48) :: (c.extraBytes ++ packed c.tokenIds))) := by
  have each : c.tokenIds.mapM int32Bytes =
      .ok (c.tokenIds.map fun t => tokenBytes (t % 2 ^ 32).toNat) := by
    apply mapM_eq_map
    intro t member
    rw [int32Bytes, if_pos (plain.tokens t member)]
  have tag : encodeUtf8 "|bos=" = [124, 98, 111, 115, 61] := by decide
  have digit : encodeUtf8 (if c.prependBos then "1" else "0") =
      [if c.prependBos then 49 else 48] := by
    cases c.prependBos <;> decide
  unfold hashed
  rw [each, tag, digit, packed, flatMap_def]
  simp only [ok_bind, pure, Except.pure, append_assoc, cons_append, nil_append]

theorem Terminated.extraBytes {c : SegmentContent} (h : c.Terminated) : 0 ∉ c.extraBytes := by
  have tag : 0 ∉ encodeUtf8 "|x=" := by decide
  unfold SegmentContent.extraBytes
  split
  · exact not_mem_nil
  · exact fun member => (mem_append.mp member).elim tag h.extra

theorem extraBytes_eq {c d : SegmentContent} (terminated : c.Terminated ∧ d.Terminated)
    (same : c.extraBytes ++ packed c.tokenIds = d.extraBytes ++ packed d.tokenIds) :
    c.extraBytes = d.extraBytes := by
  obtain ⟨first, second⟩ := terminated
  rcases append_eq_append_iff.mp same with ⟨gap, longer, tokens⟩ | ⟨gap, longer, tokens⟩
  · have none : gap = [] := gap_eq_nil first.tokens
      (fun nul => second.extraBytes (longer ▸ mem_append_right _ nul)) tokens
    rw [longer, none, append_nil]
  · have none : gap = [] := gap_eq_nil second.tokens
      (fun nul => first.extraBytes (longer ▸ mem_append_right _ nul)) tokens
    rw [longer, none, append_nil]

theorem extraBytes_length (c : SegmentContent) : c.extraBytes.length =
    if (encodeUtf8 c.extra).length = 0 then 0 else 3 + (encodeUtf8 c.extra).length := by
  have empty : c.extra = "" ↔ (encodeUtf8 c.extra).length = 0 := by
    rw [length_eq_zero_iff]
    exact ⟨fun h => h ▸ rfl, fun h => encodeUtf8_inj h⟩
  rw [extraBytes, apply_ite length, if_congr empty rfl rfl, length_append]
  rfl

theorem extraBytes_inj {c d : SegmentContent} (same : c.extraBytes = d.extraBytes) :
    c.extra = d.extra := by
  unfold extraBytes at same
  by_cases absent : c.extra = ""
  · by_cases absent' : d.extra = ""
    · rw [absent, absent']
    · rw [if_pos absent, if_neg absent'] at same
      cases same
  · by_cases absent' : d.extra = ""
    · rw [if_neg absent, if_pos absent'] at same
      cases same
    · rw [if_neg absent, if_neg absent'] at same
      exact encodeUtf8_inj (append_cancel_left same)

theorem extra_eq {c d : SegmentContent}
    (apart : (encodeUtf8 c.extra).length = (encodeUtf8 d.extra).length ∨
      c.Terminated ∧ d.Terminated)
    (same : c.extraBytes ++ packed c.tokenIds = d.extraBytes ++ packed d.tokenIds) :
    c.extra = d.extra ∧ packed c.tokenIds = packed d.tokenIds := by
  have bytes : c.extraBytes = d.extraBytes := by
    rcases apart with long | terminated
    · refine (append_inj same ?_).1
      rw [extraBytes_length, extraBytes_length, long]
    · exact extraBytes_eq terminated same
  rw [bytes] at same
  exact ⟨extraBytes_inj bytes, append_cancel_left same⟩

/-- Contents whose model ids have no `|` have different ids, if their extras are equally long or
their token ids have three bytes and the extras no NUL. -/
theorem computeSegmentId_inj (blake2b : List UInt8 → Digest) (free : Injective blake2b)
    (c d : SegmentContent) (plain : c.Plain) (plain' : d.Plain)
    (apart : (encodeUtf8 c.extra).length = (encodeUtf8 d.extra).length ∨
      c.Terminated ∧ d.Terminated)
    (same : c.computeSegmentId blake2b = d.computeSegmentId blake2b) : c = d := by
  unfold computeSegmentId at same
  rw [hashed_eq plain, hashed_eq plain'] at same
  have bytes := free (Except.ok.inj same)
  obtain ⟨model, rest⟩ := append_separator_inj plain.model plain'.model bytes
  obtain ⟨bos, rest⟩ := List.cons.inj (append_cancel_left rest)
  obtain ⟨extra, rest⟩ := extra_eq apart rest
  have tokens := packed_inj plain.tokens plain'.tokens rest
  have model := encodeUtf8_inj model
  obtain ⟨_, b, _, _⟩ := c
  obtain ⟨_, b', _, _⟩ := d
  cases model
  cases extra
  cases tokens
  cases b <;> cases b' <;> first | rfl | cases bos

def tagged : SegmentContent := ⟨"qwen", false, "a", []⟩

theorem tagged_ne_bos : tagged.computeSegmentId id ≠
    SegmentContent.computeSegmentId id ⟨"qwen", true, "bc", [97]⟩ := by
  intro same
  have equal := computeSegmentId_inj id injective_id tagged ⟨"qwen", true, "bc", [97]⟩
    ⟨by decide, by decide⟩ ⟨by decide, by decide⟩
    (.inr ⟨⟨by decide, by decide⟩, ⟨by decide, by decide⟩⟩) same
  exact absurd equal (by decide)

/-- The one token of the second content has the bytes of `|x=a`. -/
theorem token_imitates_extra : tagged ≠ ⟨"qwen", false, "", [0x613D787C]⟩ ∧
    ∀ blake2b : List UInt8 → Digest, ∃ id, tagged.computeSegmentId blake2b = .ok id ∧
      SegmentContent.computeSegmentId blake2b ⟨"qwen", false, "", [0x613D787C]⟩ = .ok id := by
  have same : tagged.hashed = SegmentContent.hashed ⟨"qwen", false, "", [0x613D787C]⟩ := by rfl
  refine ⟨by decide, fun blake2b => ⟨_, rfl, ?_⟩⟩
  rw [computeSegmentId, ← same]
  rfl

end SegmentContent

end RedKnot.OfflineCache
