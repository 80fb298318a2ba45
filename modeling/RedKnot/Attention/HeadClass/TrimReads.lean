import RedKnot.Attention.HeadClass.Trim

/-! Which of the rows that a head reads were kept when the offline segments were trimmed. -/

namespace RedKnot.HeadClass

open List KeyLabel

variable {n : Nat}

def labelledSegments (n numLayers : Nat) : Nat → List Nat → List (OfflineSegment KeyLabel n)
  | _, [] => []
  | i, len :: lens =>
    ⟨len, replicate numLayers ⟨len, fun _ => (range len).map (.offline i), by simp⟩⟩ ::
      labelledSegments n numLayers (i + 1) lens

def ownTokens (n len : Nat) : KVTensor KeyLabel n :=
  ⟨len, fun _ => (range len).map .own, by simp⟩

/-- The rows of a head of segment `i` after trimming and expanding. -/
def storedTokens (keep sink : Int) (i len : Nat) : List KeyLabel :=
  (range len).map fun p : Nat =>
    if keep < 0 ∨ (p : Int) < sink ∨ (len : Int) - keep ≤ p then .offline i p else .padding

def storedLists (keep sink : Int) : Nat → List Nat → List (List KeyLabel)
  | _, [] => []
  | i, len :: lens => storedTokens keep sink i len :: storedLists keep sink (i + 1) lens

theorem storedRows_label (keep sink : Int) (i len : Nat) :
    storedRows ((range len).map (offline i)) keep sink = storedTokens keep sink i len := by
  unfold storedRows storedTokens
  rw [length_map, length_range]
  apply map_congr_left
  intro p member
  have inside := mem_range.mp member
  simp only [mem_selectIndices inside]
  simp [inside]
  rfl

def TailKept (keep sink : Int) (len tail : Nat) : Prop :=
  keep < 0 ∨ (tail : Int) ≤ keep ∨ (len : Int) ≤ sink + keep

def SlotsKept (keep sink : Int) (len slots : Nat) : Prop :=
  slots ≤ len ∧ (keep < 0 ∨ (slots : Int) ≤ sink ∨ (len : Int) ≤ sink + keep)

def TailsKept (keep sink : Int) (reach : Nat) : List Nat → Prop
  | [] => True
  | len :: lens => TailKept keep sink len (min len (reach - lens.sum)) ∧
      TailsKept keep sink reach lens

instance (keep sink : Int) (len tail : Nat) : Decidable (TailKept keep sink len tail) :=
  inferInstanceAs (Decidable (_ ∨ _ ∨ _))

instance (keep sink : Int) (len slots : Nat) : Decidable (SlotsKept keep sink len slots) :=
  inferInstanceAs (Decidable (_ ∧ _))

instance decidableTailsKept (keep sink : Int) (reach : Nat) :
    (lens : List Nat) → Decidable (TailsKept keep sink reach lens)
  | [] => isTrue trivial
  | _ :: lens => @instDecidableAnd _ _ _ (decidableTailsKept keep sink reach lens)

section

variable {keep sink : Int}

theorem padding_mem_storedTokens_drop {i len d : Nat} :
    padding ∈ (storedTokens keep sink i len).drop d ↔
      ∃ p, d ≤ p ∧ p < len ∧ ¬ (keep < 0 ∨ (p : Int) < sink ∨ (len : Int) - keep ≤ p) := by
  rw [mem_drop_iff_getElem]
  simp only [storedTokens, length_map, length_range, getElem_map, getElem_range]
  constructor
  · rintro ⟨j, inside, same⟩
    refine ⟨d + j, by omega, by omega, fun kept => ?_⟩
    rw [if_pos kept] at same
    cases same
  · rintro ⟨p, from_d, inside, lost⟩
    refine ⟨p - d, by omega, ?_⟩
    have at_p : d + (p - d) = p := by omega
    rw [at_p, if_neg lost]

theorem tailKept_iff (sink_nonneg : 0 ≤ sink) {i len tail : Nat} (inside : tail ≤ len) :
    padding ∉ (storedTokens keep sink i len).drop (len - tail) ↔ TailKept keep sink len tail := by
  rw [padding_mem_storedTokens_drop]
  unfold TailKept
  constructor
  · intro none_lost
    by_contra uncovered
    -- the token just before the kept tail is read and lost
    exact none_lost ⟨len - keep.toNat - 1, by omega, by omega, by omega⟩
  · rintro covered ⟨p, read, small, lost⟩
    omega

theorem slotsKept_iff (sink_nonneg : 0 ≤ sink) {i len slots : Nat} :
    padding ∉ (storedTokens keep sink i len).take slots ++ replicate (slots - len) padding ↔
      SlotsKept keep sink len slots := by
  have taken : padding ∈ (storedTokens keep sink i len).take slots ↔
      ∃ p, p < slots ∧ p < len ∧ ¬ (keep < 0 ∨ (p : Int) < sink ∨ (len : Int) - keep ≤ p) := by
    rw [mem_take_iff_getElem]
    simp only [storedTokens, length_map, length_range, getElem_map, getElem_range]
    constructor
    · rintro ⟨p, inside, same⟩
      refine ⟨p, by omega, by omega, fun kept => ?_⟩
      rw [if_pos kept] at same
      cases same
    · rintro ⟨p, slot, inside, lost⟩
      exact ⟨p, by omega, if_neg lost⟩
  rw [mem_append, taken, mem_replicate]
  unfold SlotsKept
  constructor
  · intro none_lost
    have enough : slots ≤ len := by
      by_contra short
      exact none_lost (.inr ⟨by omega, rfl⟩)
    refine ⟨enough, ?_⟩
    by_contra uncovered
    exact none_lost (.inl ⟨sink.toNat, by omega, by omega, by omega⟩)
  · rintro ⟨enough, covered⟩ (⟨p, slot, inside, lost⟩ | ⟨padded, -⟩)
    · omega
    · omega

theorem storedLists_length (i : Nat) (lens : List Nat) :
    (storedLists keep sink i lens).flatten.length = lens.sum := by
  induction lens generalizing i with
  | nil => rfl
  | cons len lens ih => simp [storedLists, storedTokens, ih]

theorem tailsKept_iff (sink_nonneg : 0 ≤ sink) (reach : Nat) (i : Nat) (lens : List Nat) :
    padding ∉ (storedLists keep sink i lens).flatten.drop (lens.sum - reach) ↔
      TailsKept keep sink reach lens := by
  induction lens generalizing i with
  | nil => simp [storedLists, TailsKept]
  | cons len lens ih =>
    have split : (storedLists keep sink i (len :: lens)).flatten.drop ((len :: lens).sum - reach) =
          (storedTokens keep sink i len).drop (len - min len (reach - lens.sum)) ++
          (storedLists keep sink (i + 1) lens).flatten.drop (lens.sum - reach) := by
      have width : (storedTokens keep sink i len).length = len := by simp [storedTokens]
      rw [storedLists, flatten_cons, drop_append, sum_cons, width]
      congr 1
      · -- past the end of the first segment nothing of it is left in either form
        rcases lt_or_ge reach lens.sum with before | past
        · rw [drop_of_length_le (by omega), drop_of_length_le (by omega)]
        · congr 1
          omega
      · congr 1
        omega
    rw [split, mem_append, not_or, tailKept_iff sink_nonneg (Nat.min_le_left _ _), ih (i + 1)]
    rfl

end

variable {cfg : HeadClassConfig} {layer : Nat}

theorem trimLens_sink_nonneg (budget : Int) (cls : ClassName) (w s : Int) :
    0 ≤ (trimLens budget cls w s).2 := by
  unfold trimLens
  split <;> first | exact Int.le_refl 0 | (dsimp only; split <;> omega)

theorem store_labelledSegments {policy : HeadTrimPolicy} {budget : Int}
    (reads : ReadsTables cfg budget policy) (heads : n = cfg.numKvHeads)
    (inside : layer < cfg.numLayers) (i : Nat) (lens : List Nat) :
    ∃ dense kvs, (labelledSegments n cfg.numLayers i lens).mapM (storeTrimmed policy) = .ok dense ∧
      dense.mapM (fun segment => pyGet segment.kv layer) = .ok kvs ∧
      kvs.map KVTensor.len = lens ∧
      ∀ (h : Fin n) (trim : Int × Int), trimEntry cfg budget layer h.val = .ok trim →
        kvs.map (fun t => t.rows h) = storedLists trim.1 trim.2 i lens := by
  induction lens generalizing i with
  | nil => exact ⟨[], [], rfl, rfl, rfl, fun h trim entry => rfl⟩
  | cons len lens ih =>
    obtain ⟨stored, done, each⟩ := storeTrimmed_spec reads heads
      (⟨len, replicate cfg.numLayers ⟨len, fun _ => (range len).map (.offline i),
        by simp⟩⟩ : OfflineSegment KeyLabel n) (by simp) (by simp)
    obtain ⟨t, at_layer, t_len, t_rows⟩ := each layer _ (getElem?_replicate_of_lt inside)
    obtain ⟨dense, kvs, done_rest, read_rest, lens_rest, rows_rest⟩ := ih (i + 1)
    refine ⟨stored :: dense, t :: kvs, ?_, ?_, ?_, ?_⟩
    · rw [labelledSegments, mapM_cons, done, ok_bind, done_rest]
      rfl
    · rw [mapM_cons, pyGet_eq at_layer, ok_bind, read_rest]
      rfl
    · simp [t_len, lens_rest]
    · intro h trim entry
      have rows : t.rows h = storedRows ((range len).map (offline i)) trim.1 trim.2 :=
        t_rows h trim entry
      rw [map_cons, rows, storedRows_label, rows_rest h trim entry]
      rfl

def readReach (plan : LayerMaskPlan) (h : Fin plan.heads) (selfLen prevLen : Nat) : Nat :=
  match plan.typeCodes h with
  | .headLocal => bucketWindow plan (plan.headsOf .headLocal) selfLen
  | _ => prevLen

/-- A query reads no zero row in the place of a token exactly when the tables give every head a
distance and a sink, and every segment keeps what the head reads of it. -/
theorem trimmed_reads_kept_iff (cfg : HeadClassConfig) (layer : Nat) (plan : LayerMaskPlan)
    (built : buildLayerMaskPlan cfg layer 0 none = .ok plan) (len : Nat) (lens : List Nat)
    (selfLen lq numQPerKv : Nat) (topP : TopP plan.heads) (h : Fin plan.heads)
    (kind : plan.typeCodes h ≠ .headRetrieval) (g i : Nat) (small : g < numQPerKv)
    (query : i < lq) :
    (∃ call keys, trimmedCall cfg plan layer
        (labelledSegments plan.heads cfg.numLayers 0 (len :: lens)) (ownTokens plan.heads selfLen)
        lq numQPerKv topP = .ok call ∧
      keysRead call (h.val * numQPerKv + g) i = some keys ∧ padding ∉ keys) ↔
    HasTables cfg ∧ ∀ trim, trimEntry cfg 512 layer h.val = .ok trim →
      SlotsKept trim.1 trim.2 len plan.sinkMax ∧
      TailsKept trim.1 trim.2 (readReach plan h selfLen (len :: lens).sum) (len :: lens) := by
  obtain ⟨inside, heads⟩ : layer < cfg.numLayers ∧ plan.heads = cfg.numKvHeads := by
    obtain ⟨row, rfl, entries, width⟩ := buildLayerMaskPlan_spec built
    exact ⟨entries.inside, width⟩
  have head_there : h.val < cfg.numKvHeads := heads ▸ h.isLt
  by_cases tables : HasTables cfg
  · obtain ⟨policy, policy_read, reads⟩ := fromHeadConfig_of_hasTables 512 tables
    obtain ⟨dense, kvs, stored, read, kv_lens, kv_rows⟩ :=
      store_labelledSegments reads heads inside 0 (len :: lens)
    obtain ⟨trim, entry, -, -⟩ := reads.lens layer inside h.val head_there
    have sink_nonneg : 0 ≤ trim.2 := by
      obtain ⟨-, type, w, s, -, -, -, -, rfl⟩ :=
        (trimEntry_ok_iff inside head_there).mp entry
      exact trimLens_sink_nonneg _ _ _ _
    have rows_of_head := kv_rows h trim entry
    cases kvs with
    | nil => cases kv_lens
    | cons first rest =>
      have first_len : first.len = len := (List.cons.inj kv_lens).1
      have first_rows : first.rows h = storedTokens trim.1 trim.2 0 len :=
        (List.cons.inj rows_of_head).1
      let call : SegmentCall KeyLabel plan :=
        ⟨lq, ownTokens plan.heads selfLen, some (.catAll (first :: rest)),
          some (padPerHeadSinks plan first), numQPerKv, topP⟩
      have called : trimmedCall cfg plan layer
          (labelledSegments plan.heads cfg.numLayers 0 (len :: lens))
          (ownTokens plan.heads selfLen) lq numQPerKv topP = .ok call := by
        simp only [trimmedCall, policy_read, ok_bind, stored, read]
        rfl
      have prev_rows : call.prevRows h = (storedLists trim.1 trim.2 0 (len :: lens)).flatten := by
        rw [← rows_of_head]
        exact flatMap_def
      have prev_len : (call.prevRows h).length = (len :: lens).sum := by
        rw [prev_rows, storedLists_length]
      have prev_read : call.prevRead h = (storedLists trim.1 trim.2 0 (len :: lens)).flatten.drop
          ((len :: lens).sum - readReach plan h selfLen (len :: lens).sum) := by
        unfold SegmentCall.prevRead readReach
        rw [prev_len, prev_rows]
        cases type : plan.typeCodes h with
        | headLocal => rfl
        | headGlobal => simp
        | headDense => simp
        | headRetrieval => exact absurd type kind
      have sink_rows : call.sinkRows h = (storedTokens trim.1 trim.2 0 len).take plan.sinkMax ++
          replicate (plan.sinkMax - len) padding := by
        rw [← first_rows, ← first_len]
        exact padPerHeadSinks_rows first h
      have own_real : padding ∉
          faKeys call.lq true (call.selfWindow h) (call.self.rows h) i := by
        intro member
        obtain ⟨p, -, same⟩ := mem_map.mp ((faKeys_sublist _ _ _ _ _).subset member)
        cases same
      have keys : keysRead call (h.val * numQPerKv + g) i = some (call.headKeys h i) :=
        keysRead_eq call h small query
      have none_lost : padding ∉ call.headKeys h i ↔
          SlotsKept trim.1 trim.2 len plan.sinkMax ∧
          TailsKept trim.1 trim.2 (readReach plan h selfLen (len :: lens).sum) (len :: lens) := by
        unfold SegmentCall.headKeys
        rw [mem_append, mem_append, not_or, not_or, sink_rows, prev_read,
          slotsKept_iff sink_nonneg, tailsKept_iff sink_nonneg]
        exact and_iff_left own_real
      constructor
      · rintro ⟨call', keys', called', read', kept⟩
        rw [called] at called'
        cases called'
        rw [keys] at read'
        cases read'
        refine ⟨tables, fun trim' entry' => ?_⟩
        rw [entry] at entry'
        cases entry'
        exact none_lost.mp kept
      · rintro ⟨-, covered⟩
        exact ⟨call, _, called, keys, none_lost.mpr (covered trim entry)⟩
  · constructor
    · rintro ⟨call, keys, called, -⟩
      cases policy_read : HeadTrimPolicy.fromHeadConfig cfg 512 with
      | error e => simp [trimmedCall, policy_read, bind, Except.bind] at called
      | ok policy =>
        exact absurd (hasTables_of_fromHeadConfig (Nat.zero_lt_of_lt head_there) policy_read) tables
    · rintro ⟨given, -⟩
      exact absurd given tables

def shortWindow (densePrefixLayers : Int) : HeadClassConfig :=
  .oneLayer [(.headLocal, 2, 1)] densePrefixLayers

def shortWindowPlan : LayerMaskPlan := .ofStrategies [⟨0, 0, .headLocal, 2, 1⟩]

theorem shortWindow_tables : HasTables (shortWindow 0) := by
  refine ⟨_, rfl, fun li layer hi head => ?_⟩
  cases Nat.lt_one_iff.mp layer
  cases Nat.lt_one_iff.mp head
  exact ⟨⟨2, rfl⟩, ⟨1, rfl⟩⟩

theorem short_window_reads_kept : ∃ call keys, trimmedCall (shortWindow 0) shortWindowPlan 0
        (labelledSegments 1 1 0 [4, 3]) (ownTokens 1 1) 1 1 ⟨0, fun _ j => j.elim0⟩ = .ok call ∧
      keysRead call 0 0 = some keys ∧ padding ∉ keys :=
  (trimmed_reads_kept_iff (shortWindow 0) 0 shortWindowPlan rfl 4 [3] 1 1 1
    ⟨0, fun _ j => j.elim0⟩ ⟨0, by decide⟩ (by decide) 0 0 (by decide) (by decide)).mpr
    ⟨shortWindow_tables, fun trim entry => by
      cases entry
      decide +kernel⟩

/-- As a dense prefix layer, the head reads every token, and the one between its sink and its window
was not kept. -/
theorem dense_prefix_reads_lost_token :
    buildLayerMaskPlan (shortWindow 1) 0 0 none = .ok (.ofStrategies [⟨0, 0, .headDense, -1, 1⟩]) ∧
    (trimmedCall (shortWindow 1) (.ofStrategies [⟨0, 0, .headDense, -1, 1⟩]) 0
        (labelledSegments 1 1 0 [4]) (ownTokens 1 1) 1 1 ⟨0, fun _ j => j.elim0⟩).map
          (fun call => keysRead call 0 0) =
      .ok (some [.offline 0 0, .offline 0 0, .padding, .offline 0 2, .offline 0 3, .own 0]) :=
  ⟨rfl, by decide +kernel⟩

end RedKnot.HeadClass
