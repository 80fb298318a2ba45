import RedKnot.Attention.HeadClass.Reuse
import RedKnot.Attention.HeadClass.Visible

/-! Per-head trimmed storage of offline segments (`redknot/per_head_storage.py`). -/

namespace RedKnot.HeadClass

open List HeadClassConfig

open SegPaged (arange indexSelect mem_arange)

structure HeadTrimPolicy where
  keepLens : List (List Int)
  sinkLens : List (List Int)

open HeadTrimPolicy

namespace HeadTrimPolicy

def numLayers (policy : HeadTrimPolicy) : Nat := policy.keepLens.length

def numKvHeads (policy : HeadTrimPolicy) : Nat :=
  match policy.keepLens with
  | row :: _ => row.length
  | [] => 0

end HeadTrimPolicy

/-- The numbers of tail and sink tokens of a head with the given class, distance and sink; a
negative number of tail tokens keeps everything. -/
def trimLens (retrievalBudget : Int) (cls : ClassName) (w s : Int) : Int × Int :=
  let sink := if 0 < s then s else 0
  match cls with
  | .allowed .headGlobal => (-1, 0)
  | .allowed .headDense => (-1, 0)
  | .allowed .headLocal => (if 0 < w then w else 0, sink)
  | .legacy .localFull => (if 0 < w then w else 0, sink)
  | .allowed .headRetrieval => (retrievalBudget, sink)
  | _ => (-1, 0)

/-- The body of the loop of `from_head_config`. A missing table of sinks cannot be indexed. -/
def trimEntry (cfg : HeadClassConfig) (retrievalBudget : Int) (li hi : Nat) :
    Except PyError (Int × Int) := do
  let cls ← entry cfg.headClass li hi
  let w ← entry cfg.headMaxDistance li hi
  match cfg.headSinkSize with
  | none => .error .typeError
  | some sizes => do
    let s ← entry sizes li hi
    .ok (trimLens retrievalBudget cls w s)

def HeadTrimPolicy.fromHeadConfig (cfg : HeadClassConfig) (retrievalBudget : Int) :
    Except PyError HeadTrimPolicy := do
  let nLayers := cfg.headClass.length
  let nHeads ← (pyGet cfg.headClass 0).map length
  let rows ← (range nLayers).mapM fun li =>
    (range nHeads).mapM fun hi => trimEntry cfg retrievalBudget li hi
  .ok ⟨rows.map (map Prod.fst), rows.map (map Prod.snd)⟩

variable {κ : Type} {n : Nat}

/-- `_select_indices`: all positions, or the sink and the tail as in `local_visible_indices`. -/
def selectIndices (len : Nat) (keepLen sinkLen : Int) : List Int :=
  if keepLen < 0 ∨ (len : Int) ≤ keepLen then arange 0 len
  else localVisibleIndices len sinkLen keepLen

structure TrimmedHead (κ : Type) where
  rows : List κ
  positions : List Int

structure TrimmedSegment (κ : Type) (n : Nat) where
  docLen : Nat
  perHead : List (List (TrimmedHead κ))

def trimHead (policy : HeadTrimPolicy) (len li : Nat) (full : KVTensor κ n) (h : Fin n) :
    Except PyError (TrimmedHead κ) := do
  let keep ← entry policy.keepLens li h.val
  let sink ← entry policy.sinkLens li h.val
  let idx := selectIndices len keep sink
  let rows ← indexSelect (full.rows h) idx
  .ok ⟨rows, idx⟩

def trimLayers (policy : HeadTrimPolicy) (len : Nat) :
    Nat → List (KVTensor κ n) → Except PyError (List (List (TrimmedHead κ)))
  | _, [] => .ok []
  | li, full :: layers => do
    let heads ← (finRange n).mapM (trimHead policy len li full)
    let rest ← trimLayers policy len (li + 1) layers
    .ok (heads :: rest)

def trimSegmentPerHead (segment : OfflineSegment κ n) (policy : HeadTrimPolicy) :
    Except PyError (TrimmedSegment κ n) :=
  match segment.kv with
  | [] => .error (.valueError "trim_segment_per_head: segment.kv is empty")
  | sample :: _ =>
    let len := sample.len
    let docLen := segment.docLen
    let nLayers := segment.kv.length
    let policyLayers := policy.numLayers
    let policyHeads := policy.numKvHeads
    if len ≠ docLen then .error (.valueError
      s!"trim_segment_per_head: K len {len} != segment.doc_len {docLen}")
    else if policyLayers ≠ nLayers then .error (.valueError
      s!"trim_segment_per_head: policy n_layers {policyLayers} != segment n_layers {nLayers}")
    else if policyHeads ≠ n then .error (.valueError
      s!"trim_segment_per_head: policy n_kv_heads {policyHeads} != segment n_kv_heads {n}")
    else do
      let perHead ← trimLayers policy len 0 segment.kv
      .ok ⟨len, perHead⟩

def expandHead [Zero κ] (len : Nat) (head : TrimmedHead κ) : Except PyError (List κ) :=
  if head.rows.length = 0 then .ok (replicate len 0)
  else indexCopyRows (replicate len 0) head.positions head.rows

/-- The tensor with the given rows; every head has `len` of them. -/
def KVTensor.ofHeads (n len : Nat) (heads : List (List κ)) : Except PyError (KVTensor κ n) :=
  if sized : heads.length = n ∧ ∀ rows ∈ heads, rows.length = len then
    .ok ⟨len, fun h => heads.get (h.cast sized.1.symm), fun _ => sized.2 _ (get_mem _ _)⟩
  else .error (.runtimeError "shape mismatch")

def expandLayer [Zero κ] (n len : Nat) (heads : List (TrimmedHead κ)) :
    Except PyError (KVTensor κ n) := do
  let rows ← heads.mapM (expandHead len)
  KVTensor.ofHeads n len rows

def expandToDense [Zero κ] (trimmed : TrimmedSegment κ n) :
    Except PyError (OfflineSegment κ n) := do
  let denseKv ← trimmed.perHead.mapM (expandLayer n trimmed.docLen)
  .ok ⟨trimmed.docLen, denseKv⟩

def storeTrimmed [Zero κ] (policy : HeadTrimPolicy) (segment : OfflineSegment κ n) :
    Except PyError (OfflineSegment κ n) := do
  let trimmed ← trimSegmentPerHead segment policy
  expandToDense trimmed

def trimmedCall [Zero κ] (cfg : HeadClassConfig) (plan : LayerMaskPlan) (layer : Nat)
    (segments : List (OfflineSegment κ plan.heads)) (self : KVTensor κ plan.heads)
    (lq numQPerKv : Nat) (topP : TopP plan.heads) : Except PyError (SegmentCall κ plan) := do
  let policy ← fromHeadConfig cfg 512
  let dense ← segments.mapM (storeTrimmed policy)
  let kvs ← dense.mapM fun segment => pyGet segment.kv layer
  let first ← pyGet kvs 0
  .ok ⟨lq, self, some (.catAll kvs), some (padPerHeadSinks plan first), numQPerKv, topP⟩

def HasTables (cfg : HeadClassConfig) : Prop :=
  ∃ sizes, cfg.headSinkSize = some sizes ∧
    ∀ li < cfg.numLayers, ∀ hi < cfg.numKvHeads,
      (∃ w, entry cfg.headMaxDistance li hi = .ok w) ∧
      ∃ s, entry sizes li hi = .ok s

variable {cfg : HeadClassConfig} {budget : Int}

theorem trimEntry_ok_iff {li hi : Nat} (layer : li < cfg.numLayers) (head : hi < cfg.numKvHeads)
    {lens : Int × Int} : trimEntry cfg budget li hi = .ok lens ↔
      ∃ sizes type w s, cfg.headSinkSize = some sizes ∧
        entry cfg.headClass li hi = .ok (.allowed type) ∧
        entry cfg.headMaxDistance li hi = .ok w ∧
        entry sizes li hi = .ok s ∧
        lens = trimLens budget (.allowed type) w s := by
  obtain ⟨type, class_there⟩ := entry_headClass layer head
  unfold trimEntry
  rw [class_there, ok_bind]
  constructor
  · intro done
    cases distance : entry cfg.headMaxDistance li hi with
    | error e => rw [distance] at done; cases done
    | ok w =>
      rw [distance, ok_bind] at done
      cases given : cfg.headSinkSize with
      | none => rw [given] at done; cases done
      | some sizes =>
        simp only [given] at done
        cases size : entry sizes li hi with
        | error e => rw [size] at done; cases done
        | ok s =>
          rw [size] at done
          cases done
          exact ⟨sizes, type, w, s, rfl, rfl, rfl, size, rfl⟩
  · rintro ⟨sizes, type', w, s, given, same, distance, size, rfl⟩
    cases same
    simp only [distance, ok_bind, given, size]

theorem fromHeadConfig_eq : fromHeadConfig cfg budget =
    ((range cfg.numLayers).mapM fun li => (range cfg.numKvHeads).mapM fun hi =>
      trimEntry cfg budget li hi).map fun rows =>
        ⟨rows.map (map Prod.fst), rows.map (map Prod.snd)⟩ := by
  have width : (pyGet cfg.headClass 0).map length = .ok cfg.numKvHeads := by
    have first := cfg.first
    unfold pyGet
    cases rows : cfg.headClass with
    | nil => simp [rows] at first
    | cons row rest =>
      rw [rows] at first
      exact congrArg Except.ok (Option.some.inj first)
  unfold fromHeadConfig
  rw [width, cfg.layers, ok_bind]
  generalize ((range cfg.numLayers).mapM fun li => (range cfg.numKvHeads).mapM fun hi =>
    trimEntry cfg budget li hi) = collected
  cases collected <;> rfl

theorem hasTables_of_fromHeadConfig {policy : HeadTrimPolicy} (some_head : 0 < cfg.numKvHeads)
    (done : fromHeadConfig cfg budget = .ok policy) : HasTables cfg := by
  rw [fromHeadConfig_eq] at done
  cases collected : ((range cfg.numLayers).mapM fun li => (range cfg.numKvHeads).mapM
      fun hi => trimEntry cfg budget li hi) with
  | error e => rw [collected] at done; cases done
  | ok rows =>
    obtain ⟨count, called⟩ := mapM_range_ok collected
    have cell : ∀ li < cfg.numLayers, ∀ hi < cfg.numKvHeads,
        ∃ lens, trimEntry cfg budget li hi = .ok lens := by
      intro li layer hi head
      have row := called li _ (getElem?_eq_getElem (count.symm ▸ layer))
      obtain ⟨width, cells⟩ := mapM_range_ok row
      exact ⟨_, cells hi _ (getElem?_eq_getElem (width.symm ▸ head))⟩
    have some_layer : 0 < cfg.numLayers := by
      rw [← cfg.layers]
      have first := cfg.first
      cases rows_there : cfg.headClass with
      | nil => simp [rows_there] at first
      | cons row rest => simp
    obtain ⟨lens, entry⟩ := cell 0 some_layer 0 some_head
    obtain ⟨sizes, -, -, -, given, -⟩ := (trimEntry_ok_iff some_layer some_head).mp entry
    refine ⟨sizes, given, fun li layer hi head => ?_⟩
    obtain ⟨lens', entry'⟩ := cell li layer hi head
    obtain ⟨sizes', type, w, s, given', -, distance, size, -⟩ :=
      (trimEntry_ok_iff layer head).mp entry'
    rw [given] at given'
    cases given'
    exact ⟨⟨w, distance⟩, ⟨s, size⟩⟩

structure ReadsTables (cfg : HeadClassConfig) (budget : Int) (policy : HeadTrimPolicy) : Prop where
  numLayers : policy.numLayers = cfg.numLayers
  numKvHeads : policy.numKvHeads = cfg.numKvHeads
  lens : ∀ li < cfg.numLayers, ∀ hi < cfg.numKvHeads, ∃ lens,
    trimEntry cfg budget li hi = .ok lens ∧
    entry policy.keepLens li hi = .ok lens.1 ∧
    entry policy.sinkLens li hi = .ok lens.2

theorem fromHeadConfig_of_hasTables (budget : Int) (tables : HasTables cfg) :
    ∃ policy, fromHeadConfig cfg budget = .ok policy ∧ ReadsTables cfg budget policy := by
  have cell : ∀ li < cfg.numLayers, ∀ hi < cfg.numKvHeads,
      ∃ lens, trimEntry cfg budget li hi = .ok lens := by
    intro li layer hi head
    obtain ⟨sizes, given, entries⟩ := tables
    obtain ⟨⟨w, distance⟩, ⟨s, size⟩⟩ := entries li layer hi head
    obtain ⟨type, class_there⟩ := entry_headClass layer head
    exact ⟨_, (trimEntry_ok_iff layer head).mpr
      ⟨sizes, type, w, s, given, class_there, distance, size, rfl⟩⟩
  obtain ⟨rows, collected⟩ := mapM_returns (l := range cfg.numLayers)
    (f := fun li => (range cfg.numKvHeads).mapM fun hi => trimEntry cfg budget li hi)
    fun li layer => mapM_returns fun hi head =>
      cell li (mem_range.mp layer) hi (mem_range.mp head)
  obtain ⟨count, called⟩ := mapM_range_ok collected
  refine ⟨_, by rw [fromHeadConfig_eq, collected]; rfl, ?_, ?_, ?_⟩
  · simp [HeadTrimPolicy.numLayers, count]
  · cases rows with
    | nil =>
      have first := cfg.first
      rw [eq_nil_of_length_eq_zero (cfg.layers.trans count.symm)] at first
      cases first
    | cons row rest =>
      obtain ⟨width, -⟩ := mapM_range_ok (called 0 row rfl)
      simpa [HeadTrimPolicy.numKvHeads] using width
  · intro li layer hi head
    have inside : li < rows.length := count.symm ▸ layer
    obtain ⟨width, cells⟩ := mapM_range_ok (called li _ (getElem?_eq_getElem inside))
    have cell_there := getElem?_eq_getElem (width.symm ▸ head : hi < rows[li].length)
    refine ⟨_, cells hi _ cell_there, ?_, ?_⟩
    · exact entry_ok_iff.mpr ⟨rows[li].map Prod.fst, by simp [inside],
        by rw [getElem?_map, cell_there]; rfl⟩
    · exact entry_ok_iff.mpr ⟨rows[li].map Prod.snd, by simp [inside],
        by rw [getElem?_map, cell_there]; rfl⟩

variable {keepLen sinkLen : Int}

theorem mem_selectIndices {len : Nat} {p : Nat} (inside : p < len) :
    (p : Int) ∈ selectIndices len keepLen sinkLen ↔
      keepLen < 0 ∨ (p : Int) < sinkLen ∨ (len : Int) - keepLen ≤ p := by
  unfold selectIndices
  split
  · rw [mem_arange]
    omega
  · rw [mem_localVisibleIndices]
    omega

theorem selectIndices_inside {len : Nat} {p : Int}
    (member : p ∈ selectIndices len keepLen sinkLen) : 0 ≤ p ∧ p < len := by
  unfold selectIndices at member
  split at member
  · exact mem_arange.mp member
  · have := mem_localVisibleIndices.mp member
    exact ⟨this.1, this.2.1⟩

variable [Zero κ]

def storedRows (rows : List κ) (keepLen sinkLen : Int) : List κ :=
  (range rows.length).map fun p : Nat =>
    if (p : Int) ∈ selectIndices rows.length keepLen sinkLen then rows.getD p 0 else 0

theorem expandHead_trimHead {policy : HeadTrimPolicy} {li len : Nat} {full : KVTensor κ n}
    {h : Fin n} (full_len : full.len = len)
    (keep : entry policy.keepLens li h.val = .ok keepLen)
    (sink : entry policy.sinkLens li h.val = .ok sinkLen) :
    ∃ head, trimHead policy len li full h = .ok head ∧
      expandHead len head = .ok (storedRows (full.rows h) keepLen sinkLen) := by
  have sized : (full.rows h).length = len := (full.sized h).trans full_len
  obtain ⟨picked, copied, selected, count, done, places⟩ :=
    indexCopyRows_indexSelect (full.rows h) (selectIndices len keepLen sinkLen)
      (by rw [sized]; exact fun p => selectIndices_inside) (replicate len 0) (by simp [sized])
  have stored : copied = storedRows (full.rows h) keepLen sinkLen := by
    apply ext_getElem?
    intro p
    rw [places p, storedRows, sized]
    by_cases inside : p < len
    · by_cases kept : (p : Int) ∈ selectIndices len keepLen sinkLen
      · simp [kept, inside, sized]
      · simp [kept, inside]
    · have out : ¬ (p : Int) ∈ selectIndices len keepLen sinkLen := fun member => by
        have := selectIndices_inside member
        omega
      simp [out, inside]
  refine ⟨⟨picked, selectIndices len keepLen sinkLen⟩, ?_, ?_⟩
  · simp only [trimHead, keep, ok_bind, sink, selected]
  · rw [← stored]
    unfold expandHead
    split
    · next none =>
      -- no row was kept, so the copy that is skipped would have changed nothing
      have no_idx : selectIndices len keepLen sinkLen = [] :=
        eq_nil_of_length_eq_zero (count.symm.trans none)
      have no_rows : picked = [] := eq_nil_of_length_eq_zero none
      rw [no_idx, no_rows] at done
      exact done
    · exact done

omit [Zero κ] in
theorem KVTensor.ofHeads_map {len : Nat} (rows : Fin n → List κ)
    (sized : ∀ h, (rows h).length = len) :
    KVTensor.ofHeads n len ((finRange n).map rows) = .ok ⟨len, rows, sized⟩ := by
  unfold ofHeads
  rw [dif_pos ⟨by simp, by simpa using sized⟩]
  congr 2
  funext h
  simp

section

variable {policy : HeadTrimPolicy}

theorem expandLayer_trimHead (li : Nat) {len : Nat} {full : KVTensor κ n}
    (full_len : full.len = len)
    (entries : ∀ h : Fin n, ∃ keepLen sinkLen, entry policy.keepLens li h.val = .ok keepLen ∧
      entry policy.sinkLens li h.val = .ok sinkLen) :
    ∃ heads t, (finRange n).mapM (trimHead policy len li full) = .ok heads ∧
      expandLayer n len heads = .ok t ∧ t.len = len ∧
      ∀ h keepLen sinkLen, entry policy.keepLens li h.val = .ok keepLen →
        entry policy.sinkLens li h.val = .ok sinkLen →
        t.rows h = storedRows (full.rows h) keepLen sinkLen := by
  choose keepLen sinkLen keep sink using entries
  have each := fun h => expandHead_trimHead full_len (keep h) (sink h)
  choose head trimmed expanded using each
  have sized : ∀ h, (storedRows (full.rows h) (keepLen h) (sinkLen h)).length = len := by
    intro h
    simp [storedRows, full.sized h, full_len]
  have rows : ((finRange n).map head).mapM (expandHead len) =
      .ok ((finRange n).map fun h => storedRows (full.rows h) (keepLen h) (sinkLen h)) := by
    rw [mapM_map]
    exact mapM_eq_map _ fun h _ => expanded h
  refine ⟨(finRange n).map head,
    ⟨len, fun h => storedRows (full.rows h) (keepLen h) (sinkLen h), sized⟩,
    mapM_eq_map _ fun h _ => trimmed h, ?_, rfl, ?_⟩
  · unfold expandLayer
    rw [rows, ok_bind, KVTensor.ofHeads_map _ sized]
  · intro h keepLen' sinkLen' keep' sink'
    rw [keep h] at keep'
    rw [sink h] at sink'
    cases keep'
    cases sink'
    rfl

theorem expand_trimLayers {len : Nat} (layers : List (KVTensor κ n))
    (li : Nat) (sized : ∀ full ∈ layers, full.len = len)
    (entries : ∀ j < layers.length, ∀ h : Fin n, ∃ keepLen sinkLen,
      entry policy.keepLens (li + j) h.val = .ok keepLen ∧
      entry policy.sinkLens (li + j) h.val = .ok sinkLen) :
    ∃ perHead dense, trimLayers policy len li layers = .ok perHead ∧
      perHead.mapM (expandLayer n len) = .ok dense ∧
      ∀ j full, layers[j]? = some full → ∃ t, dense[j]? = some t ∧ t.len = len ∧
        ∀ h keepLen sinkLen, entry policy.keepLens (li + j) h.val = .ok keepLen →
          entry policy.sinkLens (li + j) h.val = .ok sinkLen →
          t.rows h = storedRows (full.rows h) keepLen sinkLen := by
  induction layers generalizing li with
  | nil => exact ⟨[], [], rfl, rfl, by simp⟩
  | cons full layers ih =>
    obtain ⟨heads, t, trimmed, expanded, t_len, t_rows⟩ :=
      expandLayer_trimHead li (sized full mem_cons_self) (entries 0 (by simp))
    obtain ⟨perHead, dense, trimmed_rest, expanded_rest, rest⟩ := ih (li + 1)
      (fun full' member => sized full' (mem_cons_of_mem full member))
      (fun j small h => by
        have := entries (j + 1) (by simpa using small) h
        rwa [← add_assoc, add_right_comm] at this)
    refine ⟨heads :: perHead, t :: dense, ?_, ?_, ?_⟩
    · simp only [trimLayers, trimmed, ok_bind, trimmed_rest]
    · rw [mapM_cons, expanded, ok_bind, expanded_rest]
      rfl
    · intro j full' there
      cases j with
      | zero =>
        cases there
        exact ⟨t, rfl, t_len, t_rows⟩
      | succ j =>
        obtain ⟨t', at_j, t'_len, t'_rows⟩ := rest j full' there
        refine ⟨t', at_j, t'_len, ?_⟩
        rw [← add_assoc, add_right_comm]
        exact t'_rows

theorem storeTrimmed_spec (reads : ReadsTables cfg budget policy)
    (heads : n = cfg.numKvHeads) (segment : OfflineSegment κ n)
    (layers : segment.kv.length = cfg.numLayers)
    (sized : ∀ full ∈ segment.kv, full.len = segment.docLen) :
    ∃ dense, storeTrimmed policy segment = .ok dense ∧
      ∀ li full, segment.kv[li]? = some full → ∃ t, dense.kv[li]? = some t ∧
        t.len = segment.docLen ∧ ∀ (h : Fin n) lens, trimEntry cfg budget li h.val = .ok lens →
          t.rows h = storedRows (full.rows h) lens.1 lens.2 := by
  have entries : ∀ j < segment.kv.length, ∀ h : Fin n, ∃ keepLen sinkLen,
      entry policy.keepLens (0 + j) h.val = .ok keepLen ∧
      entry policy.sinkLens (0 + j) h.val = .ok sinkLen := by
    intro j small h
    rw [zero_add]
    obtain ⟨lens, -, keep, sink⟩ := reads.lens j (layers ▸ small) h.val (heads ▸ h.isLt)
    exact ⟨_, _, keep, sink⟩
  obtain ⟨perHead, dense, trimmed, expanded, each⟩ :=
    expand_trimLayers segment.kv 0 sized entries
  refine ⟨⟨segment.docLen, dense⟩, ?_, ?_⟩
  · have trim : trimSegmentPerHead segment policy = .ok ⟨segment.docLen, perHead⟩ := by
      unfold trimSegmentPerHead
      cases kv : segment.kv with
      | nil =>
        have first := cfg.first
        rw [eq_nil_of_length_eq_zero (cfg.layers.trans (layers.symm.trans (by simp [kv])))]
          at first
        cases first
      | cons sample rest =>
        have sample_len : sample.len = segment.docLen := sized sample (by simp [kv])
        rw [kv] at trimmed layers
        simp only [sample_len, reads.numLayers, reads.numKvHeads, layers, heads, ne_eq,
          not_true_eq_false, if_false, trimmed, ok_bind]
    unfold storeTrimmed expandToDense
    rw [trim, ok_bind, expanded, ok_bind]
  · intro li full there
    obtain ⟨t, at_li, t_len, t_rows⟩ := each li full there
    refine ⟨t, at_li, t_len, fun h lens entry => ?_⟩
    have layer : li < cfg.numLayers := layers ▸ (List.getElem?_eq_some_iff.mp there).1
    obtain ⟨lens', entry', keep, sink⟩ := reads.lens li layer h.val (heads ▸ h.isLt)
    rw [entry] at entry'
    cases entry'
    rw [zero_add] at t_rows
    exact t_rows h _ _ keep sink

end

end RedKnot.HeadClass
