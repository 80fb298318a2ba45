import RedKnot.Attention.SegPaged.Stores

/-! Both caches agree with a map from `(layer, head, segment)` to rows exactly when no key with rows
is stored twice. -/

namespace RedKnot.SegPaged

open LocalPagedPool PagedHeadKVCache Function List Option StoreLog SegmentPageTable ListedCache

variable {K : Type} {D : Nat}

structure AddCall (K : Type) (D : Nat) where
  layer : Nat
  head : Nat
  segment : Nat
  policy : Policy
  k : List (Row K D)
  v : List (Row K D)
  same : v.length = k.length

/-- The arguments of one `store_head_segment`; a plan that leads outside the tensors raises before
anything is stored. -/
structure StoreCall (K : Type) (D : Nat) where
  layer : Nat
  head : Nat
  segment : Nat
  kDense : List (Row K D)
  vDense : List (Row K D)
  plan : HeadVisiblePlan
  kInside : ∀ p ∈ plan.positions, 0 ≤ p ∧ p < kDense.length
  vInside : ∀ p ∈ plan.positions, 0 ≤ p ∧ p < vDense.length

open StoreCall

def AddCall.entry (call : AddCall K D) : Store (Nat × Nat) Nat (Rows K D) :=
  ⟨(call.layer, call.head), call.segment, (call.k, call.v)⟩

variable [Field K]

def StoreCall.entry (call : StoreCall K D) : Store (Nat × Nat) Nat (Rows K D) :=
  ⟨(call.layer, call.head), call.segment, (rowsAt call.kDense call.plan, rowsAt call.vDense call.plan)⟩

def SegPagedKVCache.step (cache : SegPagedKVCache K D) (call : AddCall K D) :
    Except PyError (SegPagedKVCache K D) :=
  cache.addHeadSegment call.layer call.head call.segment call.policy call.k call.v

def ListedCache.step (c : ListedCache K D) (call : StoreCall K D) :
    Except PyError (ListedCache K D) :=
  c.storeHeadSegment call.layer call.head call.segment call.kDense call.vDense call.plan

def SegPagedKVCache.run (pageSize : Nat) (calls : List (AddCall K D)) :
    Except PyError (SegPagedKVCache K D) :=
  calls.foldlM SegPagedKVCache.step (.new K D pageSize)

def ListedCache.run (numKvHeads pageSize : Nat) (calls : List (StoreCall K D)) :
    Except PyError (ListedCache K D) :=
  calls.foldlM ListedCache.step (.new K D numKvHeads pageSize)

def ListedCache.gatherHead (c : ListedCache K D) (layer head : Nat) : Except PyError (Rows K D) :=
  c.cache.gatherHead layer head

variable {log : RowLog K D}

theorem SegPagedKVCache.step_adds {cache : SegPagedKVCache K D} (positive : 0 < cache.pageSize)
    (refines : cache.view.Refines log) (call : AddCall K D) :
    ∃ cache', cache.step call = .ok cache' ∧ cache.view.Adds call.entry cache'.view := by
  obtain ⟨last, writes, keeps, stored⟩ :=
    allocPages_writePages positive refines.sound refines.pageSize call.same
  obtain ⟨grown, next, ids⟩ :=
    allocPages_spec refines.sound ((call.k.length + cache.pageSize - 1) / cache.pageSize)
  have scattered : scatter cache.pageSize call.k call.v 0
      (cache.pages.allocPages ((call.k.length + cache.pageSize - 1) / cache.pageSize)).2
      (cache.pages.allocPages ((call.k.length + cache.pageSize - 1) / cache.pageSize)).1 =
        .ok last := by
    refine (scatter_eq_writePages call.same _ 0 grown.sound (grown.pageSize.trans refines.pageSize)
      (fun vid member => ?_) (fun j small => ?_) positive).trans writes
    · have := mem_range'_1.mp (ids ▸ member)
      exact next ▸ this.2
    · have count := congrArg length ids
      rw [length_range'] at count
      have whole := (Nat.le_div_iff_mul_le positive).mp (Nat.succ_le_of_lt (small.trans_eq count))
      rw [Nat.succ_mul] at whole
      rw [zero_add]
      change j * cache.pageSize < call.k.length
      omega
  have runs : ∃ cache', cache.step call = .ok cache' ∧ cache'.pageSize = cache.pageSize ∧
      cache'.pages = last ∧ cache'.keys = insertKey cache.keys (call.layer, call.head, call.segment) ∧
      cache'.headSegments = update cache.headSegments (call.layer, call.head)
        (cache.headSegments (call.layer, call.head) ++ [call.segment]) ∧
      cache'.segments = update cache.segments (call.layer, call.head, call.segment)
        (some ⟨call.layer, call.head, call.segment, (cache.pages.allocPages
          ((call.k.length + cache.pageSize - 1) / cache.pageSize)).2, call.k.length⟩) := by
    simp only [step, addHeadSegment, scattered, ok_bind]
    exact ⟨_, rfl, rfl, rfl, rfl, rfl, rfl⟩
  obtain ⟨cache', steps, size, pages, keys, order, segments⟩ := runs
  subst pages
  refine ⟨cache', steps, size, keeps, ⟨_, ?_, stored⟩, keys, order⟩
  funext key
  simp only [view, segments]
  by_cases here : key = (call.layer, call.head, call.segment)
  · subst here
    simp [AddCall.entry]
  · simp [AddCall.entry, here]

theorem ListedCache.step_adds {c : ListedCache K D} (positive : 0 < c.cache.pageSize)
    (refines : c.view.Refines log) (call : StoreCall K D) :
    ∃ c', c.step call = .ok c' ∧ c.view.Adds call.entry c'.view := by
  obtain ⟨cache', pageIds, runs, stores⟩ :=
    c.cache.storeHeadSegment_spec call.layer call.head call.segment positive refines.sound
      refines.pageSize (indexSelect_of_inside call.kInside) (indexSelect_of_inside call.vInside)
      (by simp)
  have steps : c.step call = .ok ⟨cache', insertKey c.keys (call.layer, call.head, call.segment)⟩ := by
    simp only [step, storeHeadSegment, runs, ok_bind]
  refine ⟨_, steps, stores.pageSize, stores.storage, ⟨pageIds, ?_, stores.rows⟩, rfl, ?_⟩
  · funext key
    by_cases here : key = (call.layer, call.head, call.segment)
    · subst here
      simp [view, entry, stores.table, add, rowsAt, HeadSegment.kept]
    · simp [view, entry, stores.table, add, here]
  · simp only [view, stores.table]
    rfl

omit [Field K] in
theorem PageView.Refines.run {σ C : Type} (view : σ → PageView K D) {step : σ → C → Except PyError σ}
    {entry : C → Store (Nat × Nat) Nat (Rows K D)}
    (adds : ∀ s log call, 0 < (view s).pageSize → (view s).Refines log →
      ∃ s', step s call = .ok s' ∧ (view s).Adds (entry call) (view s'))
    (calls : List C) (s : σ) {log : RowLog K D} (positive : 0 < (view s).pageSize)
    (refines : (view s).Refines log) :
    ∃ s', calls.foldlM step s = .ok s' ∧ 0 < (view s').pageSize ∧
      (view s').Refines (log ++ calls.map entry) := by
  induction calls generalizing s log with
  | nil => exact ⟨s, rfl, positive, by simpa using refines⟩
  | cons call calls ih =>
    obtain ⟨mid, runs, added⟩ := adds s log call positive refines
    obtain ⟨last, ends, positive', refines'⟩ :=
      ih mid (added.pageSize ▸ positive) (refines.adds added)
    refine ⟨last, ?_, positive', by simpa using refines'⟩
    rw [foldlM_cons, runs, ok_bind, ends]

omit [Field K] in
theorem refines_new (pageSize : Nat) : (SegPagedKVCache.new K D pageSize).view.Refines [] :=
  ⟨sound_new pageSize, rfl, fun _ => rfl, rfl, fun _ _ _ there => by cases there⟩

omit [Field K] in
theorem refines_newListed (numKvHeads pageSize : Nat) :
    (new K D numKvHeads pageSize).view.Refines [] :=
  ⟨sound_new pageSize, rfl, fun _ => rfl, rfl, fun _ _ _ there => by cases there⟩

/-- What a cache that is a map from `(layer, head, segment)` to rows answers after the stores of the
log. -/
structure ActsAsMap (log : RowLog K D) (gather : Nat → Nat → Except PyError (Rows K D))
    (count : Nat) : Prop where
  gathers : ∀ layer head, gather layer head =
    .ok (concatRows log (layer, head) (firsts (order log (layer, head))))
  counts : ((firsts (log.map Store.head)).mapM fun h => gather h.1 h.2).map
    (fun views => (views.map fun view => view.1.length).sum) = .ok count

def LeavesOthers {σ C : Type} (gather : σ → Nat → Nat → Except PyError (Rows K D))
    (step : σ → C → Except PyError σ) (entry : C → Store (Nat × Nat) Nat (Rows K D)) (s : σ) :
    Prop :=
  ∀ call s', step s call = .ok s' → ∀ layer head, (layer, head) ≠ (entry call).head →
    gather s' layer head = gather s layer head

def StoredAgainEmpty (log : RowLog K D) : Prop :=
  ∀ h s, 2 ≤ (order log h).count s → (lastRows log h s).1 = []

def Paired (log : RowLog K D) : Prop := ∀ e ∈ log, e.value.2.length = e.value.1.length

omit [Field K] in
theorem Paired.lastRows {log : RowLog K D} (paired : Paired log) (h : Nat × Nat) (s : Nat) :
    (lastRows log h s).2.length = (lastRows log h s).1.length := by
  unfold SegPaged.lastRows
  cases there : last log h s with
  | none => rfl
  | some value =>
    obtain ⟨e, member, rfl⟩ := exists_of_last there
    exact paired e member

omit [Field K] in
theorem ListedCache.gatherHead_eq {c : ListedCache K D} {log : RowLog K D}
    (positive : 0 < c.cache.pageSize) (paired : Paired log) (refines : c.view.Refines log)
    (layer head : Nat) :
    c.gatherHead layer head = .ok (concatRows log (layer, head) (order log (layer, head))) := by
  unfold gatherHead PagedHeadKVCache.gatherHead segmentsOf
  have order : c.cache.table.headSegments (layer, head) = order log (layer, head) :=
    refines.order (layer, head)
  rw [order]
  apply gather_concat
  intro s member
  obtain ⟨pageIds, there, stored⟩ := refines.segment member
  obtain ⟨seg, at_key, pages⟩ := map_eq_some_iff.mp there
  simp only [Prod.mk.injEq] at pages
  obtain ⟨rfl, rows⟩ := pages
  refine ⟨seg, by simp only [SegmentPageTable.get, at_key], ?_⟩
  unfold gatherSegment
  rw [rows]
  exact gatherPages_spec positive (paired.lastRows _ _) stored

section Map

variable {log : RowLog K D} {gather : Nat → Nat → Except PyError (Rows K D)}

omit [Field K]

def keysOf (log : RowLog K D) : List SegKey := log.map fun e => (e.head.1, e.head.2, e.segment)

theorem gathers_iff (paired : Paired log) (gathered : ∀ layer head, gather layer head =
      .ok (concatRows log (layer, head) (order log (layer, head)))) :
    (∀ layer head, gather layer head =
      .ok (concatRows log (layer, head) (firsts (order log (layer, head))))) ↔
      StoredAgainEmpty log := by
  constructor
  · intro map h s twice
    have same := (gathered h.1 h.2).symm.trans (map h.1 h.2)
    have keys := congrArg Prod.fst (Except.ok.inj same)
    exact (flatMap_firsts_iff _ _).mp keys.symm s twice
  · intro empty layer head
    rw [gathered, concatRows, concatRows, (flatMap_firsts_iff _ _).mpr (empty (layer, head)),
      (flatMap_firsts_iff _ _).mpr fun s twice => ?_]
    have length := paired.lastRows (layer, head) s
    rw [empty (layer, head) s twice] at length
    exact eq_nil_of_length_eq_zero length

theorem gathered_lengths (gathered : ∀ layer head, gather layer head =
      .ok (concatRows log (layer, head) (order log (layer, head)))) :
    ((firsts (log.map Store.head)).mapM fun h => gather h.1 h.2).map
      (fun views => (views.map fun view => view.1.length).sum) =
      .ok ((keysOf log).map fun key => (lastRows log (key.1, key.2.1) key.2.2).1.length).sum := by
  rw [mapM_eq_map (g := fun h => concatRows log h (order log h)) _
    fun h _ => gathered h.1 h.2, Except.map, List.map_map]
  have heads : ∀ e ∈ log, e.head ∈ firsts (log.map Store.head) :=
    fun e member => mem_firsts.mpr (mem_map_of_mem member)
  have total := sum_by_head (fun h s => (lastRows log h s).1.length) _
    (nodup_firsts (log.map Store.head)) log heads
  rw [keysOf, List.map_map]
  simp only [comp_def, concatRows, length_flatMap]
  exact congrArg Except.ok total

theorem storedTokens_eq {view : PageView K D} (refines : view.Refines log) :
    (view.keys.map fun key => ((view.segments key).map Prod.snd).getD 0).sum =
      ((firsts (keysOf log)).map fun key =>
        (lastRows log (key.1, key.2.1) key.2.2).1.length).sum := by
  rw [refines.keys]
  refine congrArg sum (map_congr_left fun key member => ?_)
  obtain ⟨e, stored, rfl⟩ := mem_map.mp (mem_firsts.mp member)
  have listed : e.segment ∈ order log e.head :=
    mem_map.mpr ⟨e, mem_filter.mpr ⟨stored, by simp⟩, rfl⟩
  obtain ⟨pageIds, there, -⟩ := refines.segment listed
  simp only [there, map_some, getD_some]

theorem actsAsMap_iff {view : PageView K D} (paired : Paired log) (refines : view.Refines log)
    (gathered : ∀ layer head, gather layer head =
      .ok (concatRows log (layer, head) (order log (layer, head)))) :
    ActsAsMap log gather (view.keys.map fun key => ((view.segments key).map Prod.snd).getD 0).sum ↔
      StoredAgainEmpty log := by
  constructor
  · intro map
    exact (gathers_iff paired gathered).mp map.gathers
  · intro empty
    refine ⟨(gathers_iff paired gathered).mpr empty, ?_⟩
    rw [gathered_lengths gathered, storedTokens_eq refines, (sum_firsts_iff _ _).mpr]
    rintro ⟨layer, head, segment⟩ twice
    have counted := count_order (fun (h : Nat × Nat) (s : Nat) => (h.1, h.2, s))
      (by grind) log (layer, head) segment
    exact length_eq_zero_iff.mpr (empty (layer, head) segment (twice.trans_eq counted))

theorem leavesOthers {σ C : Type} {gather : σ → Nat → Nat → Except PyError (Rows K D)}
    {step : σ → C → Except PyError σ} {entry : C → Store (Nat × Nat) Nat (Rows K D)} {s : σ}
    (gathered : ∀ layer head, gather s layer head =
      .ok (concatRows log (layer, head) (order log (layer, head))))
    (next : ∀ call, ∃ s', step s call = .ok s' ∧ ∀ layer head, gather s' layer head =
      .ok (concatRows (log ++ [entry call]) (layer, head)
        (order (log ++ [entry call]) (layer, head)))) :
    LeavesOthers gather step entry s := by
  intro call s' steps layer head other
  obtain ⟨s'', steps', after⟩ := next call
  cases steps.symm.trans steps'
  have last : ∀ t, lastRows (log ++ [entry call]) (layer, head) t = lastRows log (layer, head) t := by
    intro t
    rw [lastRows, lastRows, last_concat, if_neg fun both => other both.1.symm]
  rw [after, gathered, order_concat, if_neg (Ne.symm other), concatRows, concatRows]
  simp only [last]

end Map

section Runs

variable {pageSize : Nat}

theorem SegPagedKVCache.run_returns (positive : 0 < pageSize) (calls : List (AddCall K D)) :
    ∃ cache, SegPagedKVCache.run pageSize calls = .ok cache ∧ 0 < cache.pageSize ∧
      cache.view.Refines (calls.map AddCall.entry) := by
  exact PageView.Refines.run view (fun _ _ call positive refines => step_adds positive refines call)
    calls (new K D pageSize) positive (refines_new pageSize)

theorem ListedCache.run_returns (numKvHeads : Nat) (positive : 0 < pageSize)
    (calls : List (StoreCall K D)) :
    ∃ c, run numKvHeads pageSize calls = .ok c ∧ 0 < c.cache.pageSize ∧
      c.view.Refines (calls.map entry) := by
  exact PageView.Refines.run view (fun _ _ call positive refines => step_adds positive refines call)
    calls (new K D numKvHeads pageSize) positive (refines_newListed numKvHeads pageSize)

omit [Field K] in
theorem paired_adds (calls : List (AddCall K D)) : Paired (calls.map AddCall.entry) := by
  intro e member
  obtain ⟨call, -, rfl⟩ := mem_map.mp member
  exact call.same

theorem paired_stores (calls : List (StoreCall K D)) : Paired (calls.map entry) := by
  intro e member
  obtain ⟨call, -, rfl⟩ := mem_map.mp member
  simp [entry, rowsAt]

theorem SegPagedKVCache.run_actsAsMap (positive : 0 < pageSize) (calls : List (AddCall K D)) :
    ∃ cache, SegPagedKVCache.run pageSize calls = .ok cache ∧
      (ActsAsMap (calls.map AddCall.entry) cache.gatherHead cache.storedTokenCount ↔
        StoredAgainEmpty (calls.map AddCall.entry)) ∧
      LeavesOthers gatherHead step AddCall.entry cache := by
  obtain ⟨cache, runs, positive, refines⟩ := run_returns positive calls
  refine ⟨cache, runs, ?_, ?_⟩
  · have iff := actsAsMap_iff (paired_adds calls) refines (gatherHead_eq refines)
    simpa [storedTokenCount, view, comp_def] using iff
  · apply leavesOthers (gatherHead_eq refines)
    intro call
    obtain ⟨cache', steps, added⟩ := step_adds positive refines call
    exact ⟨cache', steps, gatherHead_eq (refines.adds added)⟩

theorem ListedCache.run_actsAsMap (numKvHeads : Nat) (positive : 0 < pageSize)
    (calls : List (StoreCall K D)) :
    ∃ c, run numKvHeads pageSize calls = .ok c ∧
      (ActsAsMap (calls.map entry) c.gatherHead c.storedTokenCount ↔
        StoredAgainEmpty (calls.map entry)) ∧
      LeavesOthers ListedCache.gatherHead step entry c := by
  obtain ⟨c, runs, positive, refines⟩ := run_returns numKvHeads positive calls
  have paired := paired_stores calls
  refine ⟨c, runs, ?_, ?_⟩
  · have iff := actsAsMap_iff paired refines (gatherHead_eq positive paired refines)
    simpa [storedTokenCount, view, comp_def] using iff
  · apply leavesOthers (gatherHead_eq positive paired refines)
    intro call
    obtain ⟨c', steps, added⟩ := step_adds positive refines call
    have more := paired_stores (calls ++ [call])
    rw [map_append] at more
    exact ⟨c', steps, gatherHead_eq (positive.trans_eq added.pageSize.symm) more
      (refines.adds added)⟩

/-- Both stores are maps from `(layer, head, segment)` to rows exactly on the histories in which a
key that is stored again ends with no rows. -/
theorem stores_act_as_map_iff (numKvHeads pageSize : Nat) (positive : 0 < pageSize) :
    (∀ calls : List (AddCall K D), ∃ cache, SegPagedKVCache.run pageSize calls = .ok cache ∧
      (ActsAsMap (calls.map AddCall.entry) cache.gatherHead cache.storedTokenCount ∧
        LeavesOthers SegPagedKVCache.gatherHead SegPagedKVCache.step AddCall.entry cache ↔
        StoredAgainEmpty (calls.map AddCall.entry))) ∧
    ∀ calls : List (StoreCall K D), ∃ c, run numKvHeads pageSize calls = .ok c ∧
      (ActsAsMap (calls.map entry) c.gatherHead c.storedTokenCount ∧
        LeavesOthers ListedCache.gatherHead ListedCache.step entry c ↔
        StoredAgainEmpty (calls.map entry)) := by
  constructor
  · intro calls
    obtain ⟨cache, runs, iff, others⟩ := SegPagedKVCache.run_actsAsMap positive calls
    exact ⟨cache, runs, fun both => iff.mp both.1, fun empty => ⟨iff.mpr empty, others⟩⟩
  · intro calls
    obtain ⟨c, runs, iff, others⟩ := run_actsAsMap numKvHeads positive calls
    exact ⟨c, runs, fun both => iff.mp both.1, fun empty => ⟨iff.mpr empty, others⟩⟩

def addOne (s : Nat) : AddCall ℚ 1 := ⟨0, 0, s, .policyGlobal, [fun _ => 1], [fun _ => 2], rfl⟩

theorem two_segments_act_as_map : ∃ cache, SegPagedKVCache.run 2 [addOne 0, addOne 1] = .ok cache ∧
      ActsAsMap ([addOne 0, addOne 1].map AddCall.entry) cache.gatherHead
        cache.storedTokenCount := by
  obtain ⟨cache, runs, iff⟩ :=
    (stores_act_as_map_iff (K := ℚ) (D := 1) 1 2 (by decide)).1 [addOne 0, addOne 1]
  refine ⟨cache, runs, (iff.mpr fun h s twice => ?_).1⟩
  exfalso
  by_cases here : h = (0, 0)
  · subst here
    have few : ([0, 1] : List Nat).count s ≤ 1 := nodup_iff_count_le_one.mp (by decide) s
    exact absurd (le_trans twice few) (by decide)
  · simp [order, addOne, AddCall.entry, Ne.symm here] at twice

/-- The same segment stored twice: `gather_head` returns its row twice, and the row is counted
once. -/
theorem segment_stored_twice_gathered_twice :
    ∃ cache, SegPagedKVCache.run 2 [addOne 0, addOne 0] = .ok cache ∧
      cache.gatherHead 0 0 = .ok ([fun _ => 1, fun _ => 1], [fun _ => 2, fun _ => 2]) ∧
      cache.storedTokenCount = 1 ∧
      ¬ ActsAsMap ([addOne 0, addOne 0].map AddCall.entry) cache.gatherHead
        cache.storedTokenCount := by
  obtain ⟨cache, runs, -, refines⟩ := SegPagedKVCache.run_returns (by decide : 0 < 2) [addOne 0, addOne 0]
  have gathered := SegPagedKVCache.gatherHead_eq refines 0 0
  refine ⟨cache, runs, gathered.trans rfl, ?_, fun map => ?_⟩
  · have runs' : SegPagedKVCache.run 2 [addOne 0, addOne 0] = .ok _ := rfl
    cases runs.symm.trans runs'
    rfl
  · have same := gathered.symm.trans (map.gathers 0 0)
    have rows := congrArg (fun view : Rows ℚ 1 => view.1.length) (Except.ok.inj same)
    exact absurd rows (by decide)

end Runs

end RedKnot.SegPaged
