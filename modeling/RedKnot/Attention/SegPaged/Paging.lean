import RedKnot.Attention.SegPaged.Model

/-! The paged store gives back what was stored. -/

namespace RedKnot.SegPaged

open List Nat SegmentPageTable

variable {K : Type} {D : Nat}

namespace LocalPagedPool

variable {pool pool' : LocalPagedPool K D} {vid n : Nat} {k v : List (Row K D)}

structure Sound (pool : LocalPagedPool K D) : Prop where
  phys : pool.nextPhys = pool.nextVirt
  kPages : pool.kPages.length = pool.nextVirt
  vPages : pool.vPages.length = pool.nextVirt
  resolves : ∀ vid < pool.nextVirt, pool.virtToPhys vid = some vid

structure Keeps (kept : Nat → Prop) (pool pool' : LocalPagedPool K D) : Prop where
  sound : pool'.Sound
  pageSize : pool'.pageSize = pool.pageSize
  grows : pool.nextVirt ≤ pool'.nextVirt
  page : ∀ vid < pool.nextVirt, kept vid → ∀ n, pool'.readPage vid n = pool.readPage vid n

theorem sound_new (pageSize : Nat) : (new K D pageSize).Sound :=
  ⟨rfl, rfl, rfl, fun _ h => absurd h (Nat.not_lt_zero _)⟩

theorem Keeps.trans {kept kept' : Nat → Prop} {mid : LocalPagedPool K D} (h : Keeps kept pool mid)
    (h' : Keeps kept' mid pool') (sub : ∀ vid < pool.nextVirt, kept vid → kept' vid) :
    Keeps kept pool pool' where
  sound := h'.sound
  pageSize := h'.pageSize.trans h.pageSize
  grows := h.grows.trans h'.grows
  page vid old hk n :=
    (h'.page vid (old.trans_le h.grows) (sub vid old hk) n).trans (h.page vid old hk n)

theorem Keeps.weaken {kept kept' : Nat → Prop} (h : Keeps kept pool pool')
    (sub : ∀ vid < pool.nextVirt, kept' vid → kept vid) : Keeps kept' pool pool' :=
  ⟨h.sound, h.pageSize, h.grows, fun vid old hk n => h.page vid old (sub vid old hk) n⟩

theorem Sound.readPage (sound : pool.Sound) (old : vid < pool.nextVirt) :
    ∃ kPage vPage, pool.kPages[vid]? = some kPage ∧ pool.vPages[vid]? = some vPage ∧
      ∀ n, pool.readPage vid n = .ok (kPage.take n, vPage.take n) := by
  have hk := getElem?_eq_getElem (sound.kPages.symm ▸ old)
  have hv := getElem?_eq_getElem (sound.vPages.symm ▸ old)
  refine ⟨_, _, hk, hv, fun n => ?_⟩
  simp only [LocalPagedPool.readPage, physOf, sound.resolves vid old, ok_bind, pyGet_eq hk,
    pyGet_eq hv]

theorem keeps_allocPage [Field K] (sound : pool.Sound) : Keeps (fun _ => True) pool pool.allocPage where
  sound := by
    refine ⟨?_, ?_, ?_, fun vid hv => ?_⟩
    · simp [allocPage, sound.phys]
    · simp [allocPage, sound.kPages]
    · simp [allocPage, sound.vPages]
    · rcases Nat.lt_succ_iff_lt_or_eq.mp hv with old | rfl
      · simp [allocPage, old.ne, sound.resolves vid old]
      · simp [allocPage, sound.phys]
  pageSize := rfl
  grows := le_succ _
  page vid old _ n := by
    obtain ⟨kPage, vPage, hk, hv, reads⟩ := sound.readPage old
    have hk' : pool.allocPage.kPages[vid]? = some kPage := by
      rw [← hk]
      exact getElem?_append_left (sound.kPages.symm ▸ old)
    have hv' : pool.allocPage.vPages[vid]? = some vPage := by
      rw [← hv]
      exact getElem?_append_left (sound.vPages.symm ▸ old)
    have resolves : pool.allocPage.virtToPhys vid = some vid := by
      simp [allocPage, old.ne, sound.resolves vid old]
    rw [reads]
    simp only [LocalPagedPool.readPage, physOf, resolves, ok_bind, pyGet_eq hk', pyGet_eq hv']

theorem allocPages_spec [Field K] (sound : pool.Sound) (n : Nat) :
    Keeps (fun _ => True) pool (pool.allocPages n).1 ∧
      (pool.allocPages n).1.nextVirt = pool.nextVirt + n ∧
      (pool.allocPages n).2 = range' pool.nextVirt n := by
  induction n with
  | zero => exact ⟨⟨sound, rfl, le_rfl, fun _ _ _ _ => rfl⟩, rfl, rfl⟩
  | succ n ih =>
    obtain ⟨keeps, next, ids⟩ := ih
    refine ⟨keeps.trans (keeps_allocPage keeps.sound) fun _ _ _ => trivial, ?_, ?_⟩
    · simp only [allocPages, allocPage, next]
      omega
    · simp only [allocPages, ids, next]
      rw [range'_concat, Nat.one_mul]

theorem writePage_spec (sound : pool.Sound) (old : vid < pool.nextVirt)
    (fits : k.length ≤ pool.pageSize) (same : v.length = k.length) :
    ∃ pool', pool.writePage vid k v = .ok pool' ∧ Keeps (· ≠ vid) pool pool' ∧
      pool'.nextVirt = pool.nextVirt ∧ pool'.readPage vid k.length = .ok (k, v) := by
  obtain ⟨kPage, vPage, hk, hv, -⟩ := sound.readPage old
  let written : LocalPagedPool K D :=
    { pool with
      kPages := pool.kPages.set vid (k ++ kPage.drop k.length)
      vPages := pool.vPages.set vid (v ++ vPage.drop k.length) }
  have there : vid < pool.kPages.length := sound.kPages.symm ▸ old
  have there' : vid < pool.vPages.length := sound.vPages.symm ▸ old
  refine ⟨written, ?_, ⟨⟨sound.phys, ?_, ?_, sound.resolves⟩, rfl, le_rfl, ?_⟩, rfl, ?_⟩
  · simp only [writePage, not_lt.mpr fits, if_false, physOf, sound.resolves vid old, ok_bind,
      pyGet_eq hk, pyGet_eq hv]
    rfl
  · exact length_set.trans sound.kPages
  · exact length_set.trans sound.vPages
  · intro other hother different n
    simp only [LocalPagedPool.readPage, written, physOf, sound.resolves other hother, ok_bind, pyGet,
      getElem?_set_ne (Ne.symm different)]
  · have hk' : written.kPages[vid]? = some (k ++ kPage.drop k.length) :=
      getElem?_set_self there
    have hv' : written.vPages[vid]? = some (v ++ vPage.drop k.length) :=
      getElem?_set_self there'
    have resolves : written.virtToPhys vid = some vid := sound.resolves vid old
    simp only [LocalPagedPool.readPage, physOf, resolves, ok_bind, pyGet_eq hk', pyGet_eq hv']
    rw [take_left' rfl, take_left' same]

end LocalPagedPool

namespace PagedHeadKVCache

open LocalPagedPool

variable {pageSize : Nat} {pool pool' : LocalPagedPool K D} {vids : List Nat}
  {k v : List (Row K D)}

/-- The pages `vids` hold the rows `k` and `v`, each page but the last one full. -/
def Stored (pageSize : Nat) (pool : LocalPagedPool K D) :
    List Nat → List (Row K D) → List (Row K D) → Prop
  | [], k, v => k = [] ∧ v = []
  | vid :: rest, k, v =>
    vid < pool.nextVirt ∧
      pool.readPage vid (min pageSize k.length) = .ok (k.take pageSize, v.take pageSize) ∧
      Stored pageSize pool rest (k.drop pageSize) (v.drop pageSize)

theorem Stored.keep {kept : Nat → Prop} (h : Stored pageSize pool vids k v)
    (keeps : Keeps kept pool pool') (among : ∀ vid ∈ vids, kept vid) :
    Stored pageSize pool' vids k v := by
  induction vids generalizing k v with
  | nil => exact h
  | cons vid rest ih =>
    obtain ⟨old, reads, others⟩ := h
    obtain ⟨here, later⟩ := forall_mem_cons.mp among
    exact ⟨old.trans_le keeps.grows, (keeps.page vid old here _).trans reads, ih others later⟩

theorem pySlice_page (rows : List (Row K D)) (start len : Nat) (covers : rows.length ≤ len) :
    pySlice rows start (min (start + pageSize) len) = (rows.drop start).take pageSize := by
  unfold pySlice
  rw [drop_take]
  rcases Nat.le_total (start + pageSize) len with h | h
  · rw [Nat.min_eq_left h, Nat.add_sub_cancel_left]
  · rw [Nat.min_eq_right h, take_of_length_le (by rw [length_drop]; omega),
      take_of_length_le (by rw [length_drop]; omega)]

theorem writeSlice_spec {i vid : Nat} (same : v.length = k.length) (sound : pool.Sound)
    (size : pool.pageSize = pageSize) (old : vid < pool.nextVirt) :
    ∃ pool', writeSlice pageSize k v i vid pool = .ok pool' ∧ Keeps (· ≠ vid) pool pool' ∧
      pool'.nextVirt = pool.nextVirt ∧
      pool'.readPage vid (min pageSize (k.drop (i * pageSize)).length) =
        .ok ((k.drop (i * pageSize)).take pageSize, (v.drop (i * pageSize)).take pageSize) := by
  unfold writeSlice
  simp only [pySlice_page k _ _ le_rfl, pySlice_page v _ _ same.le]
  split
  · have fits : ((k.drop (i * pageSize)).take pageSize).length ≤ pool.pageSize := by
      rw [size]
      exact length_take_le _ _
    have same' : ((v.drop (i * pageSize)).take pageSize).length =
        ((k.drop (i * pageSize)).take pageSize).length := by simp [same]
    obtain ⟨mid, writes, keeps, next, reads⟩ := writePage_spec sound old fits same'
    rw [length_take] at reads
    exact ⟨mid, writes, keeps, next, reads⟩
  · rename_i past
    have nothing : k.length ≤ i * pageSize ∨ pageSize = 0 := by omega
    obtain ⟨kPage, vPage, -, -, reads⟩ := sound.readPage old
    refine ⟨pool, rfl, ⟨sound, rfl, le_rfl, fun _ _ _ _ => rfl⟩, rfl, ?_⟩
    rcases nothing with nothing | rfl
    · simp [reads, drop_eq_nil_of_le nothing, drop_eq_nil_of_le (same.symm ▸ nothing)]
    · simp [reads]

theorem writePages_spec (same : v.length = k.length) (vids : List Nat) (i : Nat)
    (sound : pool.Sound) (size : pool.pageSize = pageSize) (distinct : vids.Nodup)
    (old : ∀ vid ∈ vids, vid < pool.nextVirt) (room : k.length ≤ (i + vids.length) * pageSize) :
    ∃ pool', writePages pageSize k v i vids pool = .ok pool' ∧ Keeps (· ∉ vids) pool pool' ∧
      pool'.nextVirt = pool.nextVirt ∧
      Stored pageSize pool' vids (k.drop (i * pageSize)) (v.drop (i * pageSize)) := by
  induction vids generalizing i pool with
  | nil =>
    have bound : k.length ≤ i * pageSize := by simpa using room
    exact ⟨pool, rfl, ⟨sound, rfl, le_rfl, fun _ _ _ _ => rfl⟩, rfl,
      drop_eq_nil_of_le bound, drop_eq_nil_of_le (same.symm ▸ bound)⟩
  | cons vid rest ih =>
    obtain ⟨fresh, distinct⟩ := nodup_cons.mp distinct
    obtain ⟨here, later⟩ := forall_mem_cons.mp old
    obtain ⟨mid, runs, keeps, next, reads⟩ := writeSlice_spec (i := i) same sound size here
    have room' : k.length ≤ (i + 1 + rest.length) * pageSize := by
      rw [length_cons] at room
      rwa [Nat.add_assoc, Nat.add_comm 1]
    obtain ⟨last, ends, keeps', next', stored⟩ := ih (i + 1) keeps.sound (keeps.pageSize.trans size)
      distinct (fun vid hv => next.symm ▸ later vid hv) room'
    refine ⟨last, ?_, ?_, next'.trans next, ?_, ?_, ?_⟩
    · simp only [writePages, runs, ok_bind, ends]
    · refine (keeps.weaken ?_).trans keeps' ?_
      · exact fun vid _ hv => ne_of_not_mem_cons hv
      · exact fun vid _ hv => not_mem_of_not_mem_cons hv
    · exact (next'.trans next).symm ▸ here
    · exact (keeps'.page vid (next.symm ▸ here) fresh _).trans reads
    · rwa [drop_drop, drop_drop, ← succ_mul]

theorem gatherPages_spec (positive : 0 < pageSize) (same : v.length = k.length)
    (stored : Stored pageSize pool vids k v) :
    gatherPages pageSize pool vids k.length = .ok (k, v) := by
  induction vids generalizing k v with
  | nil =>
    obtain ⟨rfl, rfl⟩ := stored
    rfl
  | cons vid rest ih =>
    obtain ⟨-, reads, others⟩ := stored
    simp only [gatherPages]
    split
    · have none_left : k.length = 0 := by omega
      rw [length_eq_zero_iff.mp none_left, length_eq_zero_iff.mp (same.trans none_left)]
    · have rest_rows : k.length - min pageSize k.length = (k.drop pageSize).length := by
        rw [length_drop]
        omega
      simp only [reads, rest_rows, ok_bind, ih (by simp [same]) others, take_append_drop]

variable {cache cache' : PagedHeadKVCache K D} {layer : Nat}

structure Stores (cache : PagedHeadKVCache K D) (seg : HeadSegment) (k v : List (Row K D))
    (cache' : PagedHeadKVCache K D) : Prop where
  heads : cache'.numKvHeads = cache.numKvHeads
  pageSize : cache'.pageSize = cache.pageSize
  storage : Keeps (fun _ => True) cache.storage cache'.storage
  table : cache'.table = cache.table.add seg
  rows : Stored cache.pageSize cache'.storage seg.pageIds k v

theorem allocPages_writePages [Field K] (positive : 0 < pageSize) (sound : pool.Sound)
    (size : pool.pageSize = pageSize) (same : v.length = k.length) :
    ∃ last, writePages pageSize k v 0 (pool.allocPages ((k.length + pageSize - 1) / pageSize)).2
        (pool.allocPages ((k.length + pageSize - 1) / pageSize)).1 = .ok last ∧
      Keeps (fun _ => True) pool last ∧
      Stored pageSize last (pool.allocPages ((k.length + pageSize - 1) / pageSize)).2 k v := by
  have room : k.length ≤ (k.length + pageSize - 1) / pageSize * pageSize := by
    have split := div_add_mod' (k.length + pageSize - 1) pageSize
    have small := mod_lt (k.length + pageSize - 1) positive
    omega
  obtain ⟨grown, next, ids⟩ := allocPages_spec sound ((k.length + pageSize - 1) / pageSize)
  have distinct : (pool.allocPages _).2.Nodup := ids ▸ nodup_range' _ Nat.one_pos
  have count : (pool.allocPages _).2.length = _ := ids ▸ length_range'
  have fresh : ∀ vid ∈ (pool.allocPages _).2, pool.nextVirt ≤ vid ∧ vid < _ :=
    fun vid hv => mem_range'_1.mp (ids ▸ hv)
  obtain ⟨last, writes, keeps, -, stored⟩ := writePages_spec same _ 0 grown.sound
    (grown.pageSize.trans size) distinct (fun vid hv => next ▸ (fresh vid hv).2)
    (by rwa [Nat.zero_add, count])
  refine ⟨last, writes, grown.trans keeps fun vid old _ hv => ?_, by simpa using stored⟩
  have := (fresh vid hv).1
  omega

theorem storeHeadSegment_spec [Field K] (cache : PagedHeadKVCache K D) (layer head segment : Nat)
    {plan : HeadVisiblePlan} {kDense vDense : List (Row K D)}
    (positive : 0 < cache.pageSize) (sound : cache.storage.Sound)
    (size : cache.storage.pageSize = cache.pageSize)
    (kSelect : indexSelect kDense plan.positions = .ok k)
    (vSelect : indexSelect vDense plan.positions = .ok v) (same : v.length = k.length) :
    ∃ cache' pageIds, cache.storeHeadSegment layer head segment kDense vDense plan =
        .ok (cache', ⟨layer, head, segment, pageIds, plan.positions⟩) ∧
      Stores cache ⟨layer, head, segment, pageIds, plan.positions⟩ k v cache' := by
  obtain ⟨last, writes, keeps, stored⟩ := allocPages_writePages positive sound size same
  let virtIds := (cache.storage.allocPages ((k.length + cache.pageSize - 1) / cache.pageSize)).2
  let seg : HeadSegment := ⟨layer, head, segment, virtIds, plan.positions⟩
  have runs : cache.storeHeadSegment layer head segment kDense vDense plan =
      .ok ({ cache with storage := last, table := cache.table.add seg }, seg) := by
    simp only [storeHeadSegment, kSelect, vSelect, ok_bind, writes, seg, virtIds]
  exact ⟨_, _, runs, rfl, rfl, keeps, rfl, stored⟩

structure Holds (cache : PagedHeadKVCache K D) (layer : Nat) (k v : Nat → List (Row K D))
    (count : Nat) : Prop where
  sound : cache.storage.Sound
  pageSize : cache.storage.pageSize = cache.pageSize
  head : ∀ h < count, ∃ seg, cache.table.segments (layer, h, 0) = some seg ∧
    cache.table.headSegments (layer, h) = [0] ∧ seg.kept = (k h).length ∧
    Stored cache.pageSize cache.storage seg.pageIds (k h) (v h)
  later : ∀ h, count ≤ h → cache.table.headSegments (layer, h) = []

variable {kRows vRows : Nat → List (Row K D)} {count : Nat}

theorem Holds.store {seg : HeadSegment} (holds : Holds cache layer kRows vRows count)
    (stores : Stores cache seg (kRows count) (vRows count) cache') (hlayer : seg.layer = layer)
    (hhead : seg.head = count) (hsegment : seg.segment = 0)
    (kept : seg.kept = (kRows count).length) : Holds cache' layer kRows vRows (count + 1) := by
  refine ⟨stores.storage.sound, ?_, fun h hh => ?_, fun h hh => ?_⟩
  · rw [stores.storage.pageSize, holds.pageSize, stores.pageSize]
  · rw [stores.pageSize, stores.table]
    rcases Nat.lt_succ_iff_lt_or_eq.mp hh with before | rfl
    · obtain ⟨old, there, segs, size, rows⟩ := holds.head h before
      refine ⟨old, ?_, ?_, size, rows.keep stores.storage fun _ _ => trivial⟩
      · simp [add, hhead, before.ne, there]
      · simp [add, hhead, before.ne, segs]
    · refine ⟨seg, ?_, ?_, kept, stores.rows⟩
      · simp [add, hlayer, hhead, hsegment]
      · simp [add, hlayer, hhead, hsegment, holds.later h le_rfl]
  · have after : h ≠ count := by omega
    rw [stores.table]
    simp [add, hhead, after, holds.later h (by omega)]

theorem Holds.gatherHead (holds : Holds cache layer kRows vRows count)
    (positive : 0 < cache.pageSize) {h : Nat} (inside : h < count)
    (same : (vRows h).length = (kRows h).length) :
    cache.gatherHead layer h = .ok (kRows h, vRows h) := by
  obtain ⟨seg, there, segs, kept, rows⟩ := holds.head h inside
  have gathered : cache.gatherSegment seg = .ok (kRows h, vRows h) := by
    rw [gatherSegment, kept]
    exact gatherPages_spec positive same rows
  have found : cache.table.segmentsOf layer h = .ok [seg] := by
    simp only [segmentsOf, segs, mapM_cons, mapM_nil, SegmentPageTable.get, there, ok_bind]
    rfl
  have parts : [seg].mapM cache.gatherSegment = .ok [(kRows h, vRows h)] := by
    simp only [mapM_cons, mapM_nil, gathered, ok_bind]
    rfl
  simp only [PagedHeadKVCache.gatherHead, found, parts, ok_bind]
  simp

end PagedHeadKVCache

theorem buildPagedCache_spec [Field K] {H L pageSize : Nat} {kDense vDense : HeadTensor K H L D}
    {plans : List HeadVisiblePlan} {storage : Option (LocalPagedPool K D)} (layer : Nat)
    (kRows vRows : Nat → List (Row K D)) (positive : 0 < pageSize)
    (sound : ∀ pool ∈ storage, pool.Sound ∧ pool.pageSize = pageSize)
    (one_per_head : plans.length = H)
    (selects : ∀ h < H, ∃ k v plan, kDense.heads[h]? = some k ∧ vDense.heads[h]? = some v ∧
      plans[h]? = some plan ∧ indexSelect k plan.positions = .ok (kRows h) ∧
      indexSelect v plan.positions = .ok (vRows h) ∧
      (kRows h).length = plan.positions.length ∧ (vRows h).length = plan.positions.length) :
    ∃ cache, buildPagedCache kDense vDense plans pageSize layer storage = .ok cache ∧
      cache.numKvHeads = H ∧ cache.pageSize = pageSize ∧ cache.Holds layer kRows vRows H := by
  have start : (storage.getD (.new K D pageSize)).Sound ∧
      (storage.getD (.new K D pageSize)).pageSize = pageSize := by
    cases storage with
    | none => exact ⟨LocalPagedPool.sound_new pageSize, rfl⟩
    | some pool => exact sound pool rfl
  unfold buildPagedCache
  simp only [one_per_head, ne_eq, not_true_eq_false, if_false]
  apply forRange_ok (P := fun count (cache : PagedHeadKVCache K D) => cache.numKvHeads = H ∧ cache.pageSize = pageSize ∧
    cache.Holds layer kRows vRows count)
  · exact ⟨rfl, rfl, start.1, start.2, fun h hh => absurd hh h.not_lt_zero, fun _ _ => rfl⟩
  · rintro h hh cache ⟨heads, size, holds⟩
    obtain ⟨k, v, plan, hk, hv, hplan, kSelect, vSelect, kLen, vLen⟩ := selects h hh
    obtain ⟨cache', pageIds, runs, stores⟩ := cache.storeHeadSegment_spec layer h 0 (by rwa [size])
      holds.sound holds.pageSize kSelect vSelect (vLen.trans kLen.symm)
    refine ⟨cache', ?_, stores.heads.trans heads, stores.pageSize.trans size,
      holds.store stores rfl rfl rfl kLen.symm⟩
    simp only [pyGet_eq hk, pyGet_eq hv, pyGet_eq hplan, runs, ok_bind]

end RedKnot.SegPaged
