import RedKnot.Attention.HeadClass.Flash

/-! Segment reuse in the backend (`_redknot_single_extend` of `redknot_backend.py`). -/

namespace RedKnot.HeadClass

open Function List Option SegmentCall

variable {Q κ κ' : Type} [Zero κ] [Zero κ'] {n : Nat} {plan : LayerMaskPlan}

structure OfflineSegment (κ : Type) (n : Nat) where
  docLen : Nat
  kv : List (KVTensor κ n)

/-- The loop that resolves the ids of the request. `toDevice` is the lookup in the offline cache,
and `reposition` the RoPE helper, if there is one: it moves rows from position 0 to `cursor`. -/
def resolveSegments (toDevice : String → Option (OfflineSegment κ n))
    (reposition : Option (Nat → κ → κ)) (layerId : Nat) :
    Nat → List (Option String) → Except PyError (List (KVTensor κ n))
  | _, [] => .ok []
  | cursor, none :: ids => resolveSegments toDevice reposition layerId cursor ids
  | cursor, some sid :: ids =>
    match toDevice sid with
    | none => resolveSegments toDevice reposition layerId cursor ids
    | some seg => do
      let k ← pyGet seg.kv layerId
      let k := match reposition with
        | some move => if cursor ≠ 0 then k.map (fun _ => move cursor) else k
        | none => k
      let rest ← resolveSegments toDevice reposition layerId (cursor + seg.docLen) ids
      .ok (k :: rest)

/-- What the rest of the call takes: the resolved segments and the rows of the request, of which
the first `prefixLen` were cached. -/
structure ExtendRequest (κ : Type) (plan : LayerMaskPlan) where
  offlineKvs : List (KVTensor κ plan.heads)
  kFull : KVTensor κ plan.heads
  prefixLen : Nat
  extQ : Nat
  whole : kFull.len = prefixLen + extQ
  numQPerKv : Nat
  topP : TopP plan.heads

namespace ExtendRequest

def prev (r : ExtendRequest κ plan) : Option (KVTensor κ plan.heads) :=
  let kPrev := if r.offlineKvs = [] then none else some (KVTensor.catAll r.offlineKvs)
  if 0 < r.prefixLen then
    match kPrev with
    | none => some (r.kFull.take r.prefixLen)
    | some kPrev => some (kPrev.cat (r.kFull.take r.prefixLen))
  else kPrev

def sink (r : ExtendRequest κ plan) : Option (KVTensor κ plan.heads) :=
  match r.offlineKvs with
  | first :: _ => some (padPerHeadSinks plan first)
  | [] => if 0 < r.prefixLen then some (padPerHeadSinks plan (r.kFull.take 1)) else none

def call (r : ExtendRequest κ plan) : SegmentCall κ plan where
  lq := r.extQ
  self := (r.kFull.drop r.prefixLen).take r.extQ
  prev := r.prev
  sink := r.sink
  numQPerKv := r.numQPerKv
  topP := r.topP

end ExtendRequest

/-- `_redknot_single_extend`: every query with its keys, by query head. -/
def redknotSingleExtend (toDevice : String → Option (OfflineSegment κ plan.heads))
    (reposition : Option (Nat → κ → κ)) (layerId : Nat) (offlineSegmentIds : List (Option String))
    (kFull : KVTensor κ plan.heads) (prefixLen extQ : Nat) (whole : kFull.len = prefixLen + extQ)
    (numQPerKv : Nat) (topP : TopP plan.heads) (q : Nat → Nat → Q) :
    Except PyError (Nat → Option (List (Q × List κ))) := do
  let offlineKvs ← resolveSegments toDevice reposition layerId 0 offlineSegmentIds
  let r : ExtendRequest κ plan := ⟨offlineKvs, kFull, prefixLen, extQ, whole, numQPerKv, topP⟩
  .ok (segmentAttentionFlash r.call q)

def labelSegments (i : Nat) : List (KVTensor κ n) → List (KVTensor KeyLabel n)
  | [] => []
  | t :: ts => ⟨t.len, fun _ => (range t.len).map (.offline i), by simp⟩ ::
      labelSegments (i + 1) ts

def segmentTokens (i : Nat) : List Nat → List KeyLabel
  | [] => []
  | len :: lens => (range len).map (.offline i) ++ segmentTokens (i + 1) lens

namespace ExtendRequest

def label (r : ExtendRequest κ plan) : ExtendRequest KeyLabel plan where
  offlineKvs := labelSegments 0 r.offlineKvs
  kFull := ⟨r.kFull.len, fun _ => (range r.kFull.len).map .own, by simp⟩
  prefixLen := r.prefixLen
  extQ := r.extQ
  whole := r.whole
  numQPerKv := r.numQPerKv
  topP := r.topP

def rowOf (r : ExtendRequest κ plan) (h : Fin plan.heads) : KeyLabel → κ
  | .offline i p => ((r.offlineKvs[i]?).bind fun t => (t.rows h)[p]?).getD 0
  | .own p => (r.kFull.rows h).getD p 0
  | _ => 0

def earlierTokens (r : ExtendRequest κ plan) : List KeyLabel :=
  segmentTokens 0 (r.offlineKvs.map KVTensor.len) ++ (range r.prefixLen).map .own

end ExtendRequest

section Tensors

omit [Zero κ] [Zero κ']

section

variable (f : Fin n → κ → κ')

theorem KVTensor.map_catAll (ts : List (KVTensor κ n)) :
    (catAll ts).map f = catAll (ts.map (KVTensor.map f)) := by
  apply KVTensor.ext
  · simp [catAll, map, comp_def]
  · funext h
    simp [catAll, map, map_flatMap, flatMap_map]

theorem KVTensor.map_cat (a b : KVTensor κ n) : (a.cat b).map f = (a.map f).cat (b.map f) := by
  simp [cat, map]

theorem KVTensor.map_take (t : KVTensor κ n) (stop : Nat) :
    (t.take stop).map f = (t.map f).take stop := by
  simp [take, map]

theorem KVTensor.map_drop (t : KVTensor κ n) (start : Nat) :
    (t.drop start).map f = (t.map f).drop start := by
  simp [drop, map]

end

end Tensors

theorem padPerHeadSinks_map (f : Fin plan.heads → κ → κ') (zero : ∀ h, f h 0 = 0)
    (first : KVTensor κ plan.heads) :
    (padPerHeadSinks plan first).map f = padPerHeadSinks plan (first.map f) := by
  apply KVTensor.ext
  · change (padPerHeadSinks plan first).len = _
    rw [padPerHeadSinks_len, padPerHeadSinks_len]
  · funext h
    change ((padPerHeadSinks plan first).rows h).map (f h) = _
    rw [padPerHeadSinks_rows, padPerHeadSinks_rows]
    simp [KVTensor.map, zero]

theorem labelSegments_map (r : ExtendRequest κ plan) (ts : List (KVTensor κ plan.heads)) (i : Nat)
    (listed : ∀ j t, ts[j]? = some t → r.offlineKvs[i + j]? = some t) :
    (labelSegments i ts).map (KVTensor.map r.rowOf) = ts := by
  induction ts generalizing i with
  | nil => rfl
  | cons t ts ih =>
    have rest := ih (i + 1) fun j t' there => by
      have := listed (j + 1) t' (by simpa using there)
      rwa [← add_assoc, add_right_comm] at this
    have here : r.offlineKvs[i]? = some t := listed 0 t rfl
    have head : KVTensor.map r.rowOf (⟨t.len, fun _ => (range t.len).map (.offline i),
        by simp⟩ : KVTensor KeyLabel plan.heads) = t := by
      apply KVTensor.ext
      · rfl
      · funext h
        have named := map_range_getD (t.rows h) 0
        rw [t.sized h] at named
        simpa [KVTensor.map, comp_def, ExtendRequest.rowOf, here, getD_eq_getElem?_getD] using named
    rw [labelSegments, map_cons, head, rest]

namespace ExtendRequest

section

variable (r : ExtendRequest κ plan)

theorem label_offlineKvs : r.label.offlineKvs.map (KVTensor.map r.rowOf) = r.offlineKvs :=
  labelSegments_map r r.offlineKvs 0 fun j t there => by rwa [zero_add]

theorem label_kFull : r.label.kFull.map r.rowOf = r.kFull := by
  apply KVTensor.ext
  · rfl
  · funext h
    have named := map_range_getD (r.kFull.rows h) 0
    rw [r.kFull.sized h] at named
    simpa [KVTensor.map, rowOf, label, comp_def] using named

theorem label_prev : r.label.prev.map (KVTensor.map r.rowOf) = r.prev := by
  have segments := r.label_offlineKvs
  have cached : (r.label.kFull.take r.prefixLen).map r.rowOf = r.kFull.take r.prefixLen := by
    rw [KVTensor.map_take, r.label_kFull]
  have joined : (KVTensor.catAll r.label.offlineKvs).map r.rowOf = KVTensor.catAll r.offlineKvs := by
    rw [KVTensor.map_catAll, segments]
  have empty : r.label.offlineKvs = [] ↔ r.offlineKvs = [] := by
    rw [← segments, map_eq_nil_iff]
  unfold prev
  change (if 0 < r.prefixLen then _ else _ : Option (KVTensor KeyLabel plan.heads)).map _ = _
  by_cases none_there : r.offlineKvs = []
  · by_cases some_cached : 0 < r.prefixLen
    · simp only [empty.mpr none_there, none_there, some_cached, if_true]
      exact congrArg some cached
    · simp [empty.mpr none_there, none_there, some_cached]
  · have some_labels : r.label.offlineKvs ≠ [] := fun e => none_there (empty.mp e)
    by_cases some_cached : 0 < r.prefixLen
    · simp only [some_labels, none_there, some_cached, if_true, if_false, map_some,
        KVTensor.map_cat, joined]
      exact congrArg (fun t => some ((KVTensor.catAll r.offlineKvs).cat t)) cached
    · simp only [some_labels, none_there, some_cached, if_false, map_some, joined]

theorem label_sink : r.label.sink.map (KVTensor.map r.rowOf) = r.sink := by
  have zero : ∀ h, r.rowOf h 0 = 0 := fun h => rfl
  have segments := r.label_offlineKvs
  unfold sink
  cases labelled : r.label.offlineKvs with
  | nil =>
    rw [labelled] at segments
    rw [← segments]
    change (if 0 < r.prefixLen then _ else _ : Option (KVTensor KeyLabel plan.heads)).map _ = _
    by_cases some_cached : 0 < r.prefixLen
    · simp only [some_cached, if_true, map_some, padPerHeadSinks_map r.rowOf zero,
        KVTensor.map_take, r.label_kFull, map_nil]
    · simp [some_cached]
  | cons first rest =>
    rw [labelled, map_cons] at segments
    rw [← segments]
    exact congrArg some (padPerHeadSinks_map r.rowOf zero first)

theorem call_eq_map : r.call = r.label.call.map r.rowOf := by
  have own : (r.label.call.self).map r.rowOf = r.call.self := by
    change ((r.label.kFull.drop r.prefixLen).take r.extQ).map r.rowOf = _
    rw [KVTensor.map_take, KVTensor.map_drop, r.label_kFull]
    rfl
  unfold SegmentCall.map
  rw [own]
  change r.call = ⟨_, _, r.label.prev.map _, r.label.sink.map _, _, _⟩
  rw [r.label_prev, r.label_sink]
  rfl

theorem keysRead_eq_map (h : Fin plan.heads) {g i : Nat}
    (small : g < r.numQPerKv) (query : i < r.extQ) :
    keysRead r.call (h.val * r.numQPerKv + g) i =
      (keysRead r.label.call (h.val * r.numQPerKv + g) i).map (map (r.rowOf h)) := by
  have labelled : keysRead r.label.call (h.val * r.numQPerKv + g) i = _ :=
    keysRead_eq r.label.call h small query
  have rows : keysRead r.call (h.val * r.numQPerKv + g) i = _ := keysRead_eq r.call h small query
  rw [labelled, rows, map_some, ← headKeys_map r.rowOf h rfl, ← r.call_eq_map]

end

end ExtendRequest

def CountedOnce (keys : List KeyLabel) : Prop :=
  (keys.filter fun k => k ≠ .padding).Nodup

instance (keys : List KeyLabel) : Decidable (CountedOnce keys) :=
  inferInstanceAs (Decidable (Nodup _))

variable {k : KeyLabel}

theorem segmentTokens_mem {i : Nat} {lens : List Nat}
    (member : k ∈ segmentTokens i lens) : ∃ j p, i ≤ j ∧ k = .offline j p := by
  induction lens generalizing i with
  | nil => cases member
  | cons len lens ih =>
    rcases mem_append.mp member with here | later
    · obtain ⟨p, -, rfl⟩ := mem_map.mp here
      exact ⟨i, p, le_refl i, rfl⟩
    · obtain ⟨j, p, above, rfl⟩ := ih later
      exact ⟨j, p, by omega, rfl⟩

theorem segmentTokens_nodup (i : Nat) (lens : List Nat) : (segmentTokens i lens).Nodup := by
  induction lens generalizing i with
  | nil => exact nodup_nil
  | cons len lens ih =>
    refine nodup_append'.mpr ⟨?_, ih (i + 1), ?_⟩
    · exact nodup_range.map fun p q same => by cases same; rfl
    · intro k here later
      obtain ⟨p, -, rfl⟩ := mem_map.mp here
      obtain ⟨j, q, above, same⟩ := segmentTokens_mem later
      cases same
      omega

theorem segmentTokens_length (i : Nat) (lens : List Nat) :
    (segmentTokens i lens).length = lens.sum := by
  induction lens generalizing i with
  | nil => rfl
  | cons len lens ih => simp [segmentTokens, ih]

theorem nodup_take_append_drop {α : Type} {l : List α} (distinct : l.Nodup) {s d : Nat}
    (inside : s ≤ l.length) : (l.take s ++ l.drop d).Nodup ↔ s ≤ d := by
  rw [nodup_append']
  constructor
  · rintro ⟨-, -, apart⟩
    by_contra overlap
    have here : d < l.length := by omega
    have in_take : l[d] ∈ l.take s := by
      rw [mem_take_iff_getElem]
      exact ⟨d, by omega, rfl⟩
    have in_drop : l[d] ∈ l.drop d := by
      rw [mem_drop_iff_getElem]
      exact ⟨0, by simpa using here, by simp⟩
    exact apart in_take in_drop
  · intro le
    refine ⟨distinct.sublist (take_sublist s l), distinct.sublist (drop_sublist d l), ?_⟩
    exact (disjoint_take_drop distinct le)

namespace ExtendRequest

def sinkSource (r : ExtendRequest κ plan) : Nat :=
  match r.offlineKvs with
  | first :: _ => first.len
  | [] => min 1 r.prefixLen

def earlierLen (r : ExtendRequest κ plan) : Nat :=
  (r.offlineKvs.map KVTensor.len).sum + r.prefixLen

def reach (r : ExtendRequest κ plan) (h : Fin plan.heads) : Nat :=
  match plan.typeCodes h with
  | .headLocal => bucketWindow plan (plan.headsOf .headLocal) r.extQ
  | _ => r.earlierLen

omit [Zero κ]

theorem earlierTokens_length (r : ExtendRequest κ plan) :
    r.earlierTokens.length = r.earlierLen := by
  simp [earlierTokens, earlierLen, segmentTokens_length]

theorem earlierTokens_nodup (r : ExtendRequest κ plan) : r.earlierTokens.Nodup := by
  refine nodup_append'.mpr ⟨segmentTokens_nodup _ _, ?_, ?_⟩
  · exact nodup_range.map fun p q same => by cases same; rfl
  · intro k offline own
    obtain ⟨j, p, -, rfl⟩ := segmentTokens_mem offline
    obtain ⟨q, -, same⟩ := mem_map.mp own
    cases same

theorem earlierTokens_mem {r : ExtendRequest κ plan} (member : k ∈ r.earlierTokens) :
    (∃ j p, k = .offline j p) ∨ ∃ p, p < r.prefixLen ∧ k = .own p := by
  rcases mem_append.mp member with offline | own
  · obtain ⟨j, p, -, rfl⟩ := segmentTokens_mem offline
    exact .inl ⟨j, p, rfl⟩
  · obtain ⟨p, small, rfl⟩ := mem_map.mp own
    exact .inr ⟨p, mem_range.mp small, rfl⟩

theorem catAll_labelSegments (ts : List (KVTensor κ n)) (i : Nat) (h : Fin n) :
    (KVTensor.catAll (labelSegments i ts)).rows h = segmentTokens i (ts.map KVTensor.len) := by
  induction ts generalizing i with
  | nil => rfl
  | cons t ts ih => exact congrArg ((range t.len).map (.offline i) ++ ·) (ih (i + 1))

theorem label_prevRows (r : ExtendRequest κ plan) (h : Fin plan.heads) :
    r.label.call.prevRows h = r.earlierTokens := by
  have cached : (r.label.kFull.take r.prefixLen).rows h = (range r.prefixLen).map .own := by
    have enough : min r.prefixLen r.kFull.len = r.prefixLen := by
      rw [r.whole]
      omega
    simp [KVTensor.take, label, ← map_take, take_range, enough]
  have joined := catAll_labelSegments r.offlineKvs 0 h
  have none_cached : ¬ 0 < r.prefixLen → (range r.prefixLen).map KeyLabel.own = [] := by
    intro none
    simp [Nat.eq_zero_of_not_pos none]
  rw [prevRows_eq]
  change (r.label.prev.map fun prev => prev.rows h).getD [] = _
  unfold prev earlierTokens
  change ((if 0 < r.prefixLen then _ else _ : Option (KVTensor KeyLabel plan.heads)).map
    fun prev => prev.rows h).getD [] = _
  cases segments : r.offlineKvs with
  | nil =>
    have labels : r.label.offlineKvs = [] := by simp [label, segments, labelSegments]
    by_cases some_cached : 0 < r.prefixLen
    · simp only [labels, some_cached, if_true, segmentTokens, map_nil, nil_append]
      exact cached
    · simp [labels, some_cached, segmentTokens, none_cached some_cached]
  | cons first rest =>
    have labels : r.label.offlineKvs ≠ [] := by simp [label, segments, labelSegments]
    rw [← segments, ← joined]
    by_cases some_cached : 0 < r.prefixLen
    · simp only [labels, some_cached, if_true, if_false, map_some, getD_some]
      rw [← cached]
      rfl
    · simp only [labels, some_cached, if_false, none_cached some_cached, append_nil]
      rfl

variable {h : Fin plan.heads}

theorem padPerHeadSinks_tokens {first : KVTensor KeyLabel plan.heads} {tokens : List KeyLabel}
    (cut : first.rows h = tokens.take first.len)
    (real : ∀ k ∈ tokens, k ≠ .padding) :
    ((padPerHeadSinks plan first).rows h).filter (fun k => k ≠ .padding) =
      tokens.take (min plan.sinkMax first.len) := by
  have blank : (replicate (plan.sinkMax - first.len) (0 : KeyLabel)).filter
      (fun k => k ≠ .padding) = [] := by
    rw [filter_eq_nil_iff]
    intro k member
    rw [eq_of_mem_replicate member]
    decide
  have kept : (tokens.take (min plan.sinkMax first.len)).filter (fun k => k ≠ .padding) =
      tokens.take (min plan.sinkMax first.len) := by
    rw [filter_eq_self]
    intro k member
    simpa using real k (mem_of_mem_take member)
  rw [padPerHeadSinks_rows, cut, take_take, filter_append, blank, kept, append_nil]

theorem earlierTokens_real {r : ExtendRequest κ plan} (member : k ∈ r.earlierTokens) :
    k ≠ .padding := by
  rcases earlierTokens_mem member with ⟨j, p, rfl⟩ | ⟨p, -, rfl⟩
  · intro same; cases same
  · intro same; cases same

section

variable (r : ExtendRequest κ plan)

theorem label_sinkRows (h : Fin plan.heads) :
    (r.label.call.sinkRows h).filter (fun k => k ≠ .padding) =
      r.earlierTokens.take (min plan.sinkMax r.sinkSource) := by
  have real : ∀ k ∈ r.earlierTokens, k ≠ .padding := fun k => earlierTokens_real
  rw [sinkRows_eq]
  change ((r.label.sink.map fun sink => sink.rows h).getD []).filter _ = _
  unfold sink sinkSource
  cases segments : r.offlineKvs with
  | nil =>
    have labels : r.label.offlineKvs = [] := by simp [label, segments, labelSegments]
    have tokens : r.earlierTokens = (range r.prefixLen).map .own := by
      simp [earlierTokens, segments, segmentTokens]
    rw [labels]
    change (((if 0 < r.prefixLen then _ else _ : Option (KVTensor KeyLabel plan.heads)).map
      fun sink => sink.rows h).getD []).filter _ = _
    by_cases some_cached : 0 < r.prefixLen
    · have whole := r.whole
      have len : (r.label.kFull.take 1).len = min 1 r.prefixLen := by
        change min 1 r.kFull.len = _
        omega
      have cut : (r.label.kFull.take 1).rows h = r.earlierTokens.take (r.label.kFull.take 1).len := by
        rw [len, tokens]
        simp only [KVTensor.take, label, ← map_take, take_range]
        congr 2
        omega
      simp only [some_cached, if_true, map_some, getD_some]
      rw [padPerHeadSinks_tokens cut real, len]
    · simp [Nat.eq_zero_of_not_pos some_cached]
  | cons first rest =>
    have tokens : r.earlierTokens = (range first.len).map (.offline 0) ++
        (segmentTokens 1 (rest.map KVTensor.len) ++ (range r.prefixLen).map .own) := by
      simp [earlierTokens, segments, segmentTokens]
    have labels : r.label.offlineKvs = ⟨first.len, fun _ => (range first.len).map (.offline 0),
        by simp⟩ :: labelSegments 1 rest := by
      simp [label, segments, labelSegments]
    rw [labels]
    simp only [map_some, getD_some]
    refine padPerHeadSinks_tokens ?_ real
    rw [tokens, take_append_of_le_length (by simp), take_of_length_le (by simp)]

theorem label_prevRead (kind : plan.typeCodes h ≠ .headRetrieval) :
    r.label.call.prevRead h = r.earlierTokens.drop (r.earlierLen - r.reach h) := by
  have window : r.label.call.localWindow = bucketWindow plan (plan.headsOf .headLocal) r.extQ := by
    have own : r.label.call.self.len = r.extQ := by
      change min r.extQ (r.kFull.len - r.prefixLen) = r.extQ
      rw [r.whole]
      omega
    unfold localWindow
    rw [own]
  unfold prevRead reach
  rw [label_prevRows]
  cases type : plan.typeCodes h with
  | headLocal => simp only [window, r.earlierTokens_length]
  | headGlobal => simp
  | headDense => simp
  | headRetrieval => exact absurd type kind

theorem label_self (h : Fin plan.heads) (windowSize : Int × Int) (i : Nat) :
    (faKeys r.extQ true windowSize (r.label.call.self.rows h) i).Nodup ∧
      ∀ k ∈ faKeys r.extQ true windowSize (r.label.call.self.rows h) i,
        ∃ p, r.prefixLen ≤ p ∧ k = .own p := by
  have rows : r.label.call.self.rows h =
      (((range r.kFull.len).drop r.prefixLen).take r.extQ).map .own := by
    simp [call, KVTensor.take, KVTensor.drop, label, map_take, map_drop]
  rw [rows]
  constructor
  · have distinct : ((((range r.kFull.len).drop r.prefixLen).take r.extQ).map
        KeyLabel.own).Nodup := by
      refine Nodup.map (fun p q same => by cases same; rfl) ?_
      exact (nodup_range.sublist (drop_sublist _ _)).sublist (take_sublist _ _)
    exact distinct.sublist (faKeys_sublist _ _ _ _ _)
  · intro k member
    obtain ⟨p, taken, rfl⟩ := mem_map.mp ((faKeys_sublist _ _ _ _ _).subset member)
    have dropped := mem_of_mem_take taken
    rw [mem_drop_iff_getElem] at dropped
    obtain ⟨j, inside, rfl⟩ := dropped
    exact ⟨_, by simp, rfl⟩

theorem label_countedOnce (kind : plan.typeCodes h ≠ .headRetrieval) (i : Nat) :
    CountedOnce (r.label.call.headKeys h i) ↔
      min plan.sinkMax r.sinkSource ≤ r.earlierLen - r.reach h := by
  have source : r.sinkSource ≤ r.earlierLen := by
    unfold sinkSource earlierLen
    cases r.offlineKvs with
    | nil => simp
    | cons first rest => simp; omega
  obtain ⟨own_distinct, own_new⟩ := r.label_self h (r.label.call.selfWindow h) i
  have earlier_kept : ∀ d, (r.earlierTokens.drop d).filter (fun k => k ≠ .padding) =
      r.earlierTokens.drop d := by
    intro d
    rw [filter_eq_self]
    intro k member
    simpa using earlierTokens_real (mem_of_mem_drop member)
  have own_kept : (faKeys r.extQ true (r.label.call.selfWindow h) (r.label.call.self.rows h)
      i).filter (fun k => k ≠ .padding) =
        faKeys r.extQ true (r.label.call.selfWindow h) (r.label.call.self.rows h) i := by
    rw [filter_eq_self]
    intro k member
    obtain ⟨p, -, rfl⟩ := own_new k member
    simp
  have apart : ∀ s d, Disjoint (r.earlierTokens.take s ++ r.earlierTokens.drop d)
      (faKeys r.extQ true (r.label.call.selfWindow h) (r.label.call.self.rows h) i) := by
    intro s d k earlier new
    obtain ⟨p, later, rfl⟩ := own_new k new
    have member : KeyLabel.own p ∈ r.earlierTokens := by
      rcases mem_append.mp earlier with taken | dropped
      · exact mem_of_mem_take taken
      · exact mem_of_mem_drop dropped
    rcases earlierTokens_mem member with ⟨j, q, same⟩ | ⟨q, before, same⟩
    · cases same
    · cases same
      omega
  unfold CountedOnce headKeys
  rw [filter_append, filter_append, r.label_sinkRows, r.label_prevRead kind, earlier_kept]
  change (_ ++ filter _ (faKeys r.extQ true _ _ i)).Nodup ↔ _
  rw [own_kept, nodup_append',
    nodup_take_append_drop r.earlierTokens_nodup (by rw [r.earlierTokens_length]; omega)]
  exact ⟨fun parts => parts.1, fun before => ⟨before, own_distinct, apart _ _⟩⟩

end

end ExtendRequest

/-- The rows read are those the labels name, and no token is counted twice exactly when the tokens
in the sink slots end before the previous rows begin. -/
theorem redknotSingleExtend_countedOnce_iff (r : ExtendRequest κ plan)
    (toDevice : String → Option (OfflineSegment κ plan.heads)) (reposition : Option (Nat → κ → κ))
    (layerId : Nat) (offlineSegmentIds : List (Option String))
    (resolved : resolveSegments toDevice reposition layerId 0 offlineSegmentIds = .ok r.offlineKvs)
    (h : Fin plan.heads) (kind : plan.typeCodes h ≠ .headRetrieval) (g i : Nat)
    (small : g < r.numQPerKv) (query : i < r.extQ) (q : Nat → Nat → Q) :
    ∃ labels, keysRead r.label.call (h.val * r.numQPerKv + g) i = some labels ∧
      (redknotSingleExtend toDevice reposition layerId offlineSegmentIds r.kFull r.prefixLen
        r.extQ r.whole r.numQPerKv r.topP q).map
          (fun out => (out (h.val * r.numQPerKv + g)).bind fun rows => rows[i]?) =
        .ok (some (q (h.val * r.numQPerKv + g) i, labels.map (r.rowOf h))) ∧
      (CountedOnce labels ↔ min plan.sinkMax r.sinkSource ≤ r.earlierLen - r.reach h) := by
  have labelled : keysRead r.label.call (h.val * r.numQPerKv + g) i = _ :=
    keysRead_eq r.label.call h small query
  refine ⟨_, labelled, ?_, r.label_countedOnce kind i⟩
  unfold redknotSingleExtend
  rw [resolved, ok_bind]
  have rows := r.keysRead_eq_map h small query
  have read : keysRead r.call (h.val * r.numQPerKv + g) i = _ := keysRead_eq r.call h small query
  rw [labelled, read, Option.map_some, Option.some_inj] at rows
  have written : segmentAttentionFlash r.call q (h.val * r.numQPerKv + g) = _ :=
    segmentAttentionFlash_eq r.call q h small
  have inside : i < r.call.lq := query
  change Except.ok ((segmentAttentionFlash r.call q (h.val * r.numQPerKv + g)).bind _) = _
  rw [written, Option.bind_some, headRows, getElem?_map, getElem?_range inside, ← rows]
  rfl

def reusePlan : LayerMaskPlan :=
  .ofStrategies [⟨0, 0, .headLocal, 1, 1⟩, ⟨0, 1, .headGlobal, -1, 1⟩]

def threeTokens : KVTensor Nat reusePlan.heads := ⟨3, fun _ => [5, 6, 7], fun _ => rfl⟩

def reuseRequest : ExtendRequest Nat reusePlan where
  offlineKvs := [threeTokens]
  kFull := ⟨1, fun _ => [8], fun _ => rfl⟩
  prefixLen := 0
  extQ := 1
  whole := rfl
  numQPerKv := 1
  topP := ⟨0, fun _ j => j.elim0⟩

theorem local_head_counts_once :
    ∃ labels, keysRead reuseRequest.label.call 0 0 = some labels ∧ CountedOnce labels := by
  obtain ⟨labels, read, -, once⟩ := redknotSingleExtend_countedOnce_iff reuseRequest
    (fun _ => some ⟨3, [threeTokens]⟩) none 0 [some "doc"] rfl ⟨0, by decide⟩ (by decide) 0 0
    (by decide) (by decide) fun _ _ => ()
  exact ⟨labels, read, once.mpr (by decide)⟩

/-- The global head reads the first token of the document in its sink slot and again in the
document. -/
theorem global_head_counts_twice : keysRead reuseRequest.label.call 1 0 =
      some [.offline 0 0, .offline 0 0, .offline 0 1, .offline 0 2, .own 0] ∧
    ¬ CountedOnce [.offline 0 0, .offline 0 0, .offline 0 1, .offline 0 2, .own 0] := by
  decide +kernel

end RedKnot.HeadClass
