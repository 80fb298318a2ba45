import RedKnot.Attention.SegPaged.Equivalence
import RedKnot.Lib.StoreLog

/-! Histories of stores into `SegPagedKVCache` (`segpaged.py`) and `PagedHeadKVCache`
(`segpaged_v2/page_table.py`). A second store under a key overwrites the dictionary, while the list
of segments of a head grows. -/

namespace RedKnot.SegPaged

open LocalPagedPool PagedHeadKVCache Function List StoreLog

variable {K : Type} {D : Nat}

/-- A dictionary key `(layer, head, segment)`. -/
abbrev SegKey := Nat × Nat × Nat

/-- The keys of a dictionary after `d[key] = …`. -/
def insertKey (keys : List SegKey) (key : SegKey) : List SegKey :=
  if key ∈ keys then keys else keys ++ [key]

/-- `HeadSegment` of `segpaged.py`. -/
structure SeqSegment where
  layer : Nat
  head : Nat
  segment : Nat
  pageIds : List Nat
  seqLen : Nat

/-- `keys` are the keys of the dictionary `segments`, and `pages` are the fields `_k_pages`,
`_v_pages`, `_virt_to_phys`, `_next_virt` and `_next_phys`. -/
structure SegPagedKVCache (K : Type) (D : Nat) where
  pageSize : Nat
  pages : LocalPagedPool K D
  segments : SegKey → Option SeqSegment
  keys : List SegKey
  headPolicy : Nat × Nat → Option Policy
  headSegments : Nat × Nat → List Nat

namespace SegPagedKVCache

def new (K : Type) (D pageSize : Nat) : SegPagedKVCache K D :=
  ⟨pageSize, .new K D pageSize, fun _ => none, [], fun _ => none, fun _ => []⟩

/-- `_k_pages[phys][:n] = k` and `_v_pages[phys][:n] = v`. -/
def assignPage (pages : LocalPagedPool K D) (vid : Nat) (k v : List (Row K D)) :
    Except PyError (LocalPagedPool K D) := do
  let phys ← pages.physOf vid
  let kPage ← pyGet pages.kPages phys
  let vPage ← pyGet pages.vPages phys
  .ok { pages with
    kPages := pages.kPages.set phys (k ++ kPage.drop k.length)
    vPages := pages.vPages.set phys (v ++ vPage.drop k.length) }

/-- The scatter loop of `add_head_segment` from page `i` on. -/
def scatter (pageSize : Nat) (k v : List (Row K D)) :
    Nat → List Nat → LocalPagedPool K D → Except PyError (LocalPagedPool K D)
  | _, [], pages => .ok pages
  | i, vid :: rest, pages => do
    let start := i * pageSize
    let stop := min (start + pageSize) k.length
    let pages ← assignPage pages vid (pySlice k start stop) (pySlice v start stop)
    scatter pageSize k v (i + 1) rest pages

/-- `k` and `v` have the same number of rows. -/
def addHeadSegment [Field K] (cache : SegPagedKVCache K D) (layer head segment : Nat)
    (policy : Policy) (k v : List (Row K D)) : Except PyError (SegPagedKVCache K D) := do
  let seqLen := k.length
  let nPages := (seqLen + cache.pageSize - 1) / cache.pageSize
  let (pages, virtIds) := cache.pages.allocPages nPages
  let pages ← scatter cache.pageSize k v 0 virtIds pages
  .ok { cache with
    pages := pages
    segments := update cache.segments (layer, head, segment)
      (some ⟨layer, head, segment, virtIds, seqLen⟩)
    keys := insertKey cache.keys (layer, head, segment)
    headPolicy := update cache.headPolicy (layer, head) (some policy)
    headSegments := update cache.headSegments (layer, head)
      (cache.headSegments (layer, head) ++ [segment]) }

def lookup (cache : SegPagedKVCache K D) (layer head segment : Nat) : Except PyError SeqSegment :=
  match cache.segments (layer, head, segment) with
  | some seg => .ok seg
  | none => .error .keyError

/-- The loop of `gather_segment`, which reads every page. -/
def readPages (pageSize : Nat) (pages : LocalPagedPool K D) :
    List Nat → Nat → Except PyError (List (Row K D) × List (Row K D))
  | [], _ => .ok ([], [])
  | vid :: rest, remaining => do
    let take := min pageSize remaining
    let (k, v) ← pages.readPage vid take
    let (ks, vs) ← readPages pageSize pages rest (remaining - take)
    .ok (k ++ ks, v ++ vs)

def gatherSegment (cache : SegPagedKVCache K D) (seg : SeqSegment) :
    Except PyError (List (Row K D) × List (Row K D)) :=
  readPages cache.pageSize cache.pages seg.pageIds seg.seqLen

def gatherHead (cache : SegPagedKVCache K D) (layer head : Nat) :
    Except PyError (List (Row K D) × List (Row K D)) := do
  let segs ← (cache.headSegments (layer, head)).mapM fun s => cache.lookup layer head s
  let parts ← segs.mapM cache.gatherSegment
  .ok ((parts.map Prod.fst).flatten, (parts.map Prod.snd).flatten)

def storedTokenCount (cache : SegPagedKVCache K D) : Nat :=
  (cache.keys.map fun key => ((cache.segments key).map SeqSegment.seqLen).getD 0).sum

end SegPagedKVCache

/-- The second version with the keys of its dictionary `_segments`, which `all_segments` lists. -/
structure ListedCache (K : Type) (D : Nat) where
  cache : PagedHeadKVCache K D
  keys : List SegKey

namespace ListedCache

def new (K : Type) (D numKvHeads pageSize : Nat) : ListedCache K D :=
  ⟨⟨numKvHeads, pageSize, .new K D pageSize, .empty⟩, []⟩

def storeHeadSegment [Field K] (c : ListedCache K D) (layer head segment : Nat)
    (kDense vDense : List (Row K D)) (plan : HeadVisiblePlan) :
    Except PyError (ListedCache K D) := do
  let stored ← c.cache.storeHeadSegment layer head segment kDense vDense plan
  .ok ⟨stored.1, insertKey c.keys (layer, head, segment)⟩

def storedTokenCount (c : ListedCache K D) : Nat :=
  (c.keys.map fun key => ((c.cache.table.segments key).map HeadSegment.kept).getD 0).sum

end ListedCache

abbrev Rows (K : Type) (D : Nat) := List (Row K D) × List (Row K D)

structure PageView (K : Type) (D : Nat) where
  pageSize : Nat
  pool : LocalPagedPool K D
  segments : SegKey → Option (List Nat × Nat)
  keys : List SegKey
  headSegments : Nat × Nat → List Nat

def SegPagedKVCache.view (cache : SegPagedKVCache K D) : PageView K D where
  pageSize := cache.pageSize
  pool := cache.pages
  segments key := (cache.segments key).map fun seg => (seg.pageIds, seg.seqLen)
  keys := cache.keys
  headSegments := cache.headSegments

def ListedCache.view (c : ListedCache K D) : PageView K D where
  pageSize := c.cache.pageSize
  pool := c.cache.storage
  segments key := (c.cache.table.segments key).map fun seg => (seg.pageIds, seg.kept)
  keys := c.keys
  headSegments := c.cache.table.headSegments

abbrev RowLog (K : Type) (D : Nat) := List (Store (Nat × Nat) Nat (Rows K D))

structure PageView.Adds (view : PageView K D) (e : Store (Nat × Nat) Nat (Rows K D))
    (view' : PageView K D) : Prop where
  pageSize : view'.pageSize = view.pageSize
  pool : Keeps (fun _ => True) view.pool view'.pool
  segment : ∃ pageIds, view'.segments =
      update view.segments (e.head.1, e.head.2, e.segment)
        (some (pageIds, e.value.1.length)) ∧
    Stored view.pageSize view'.pool pageIds e.value.1 e.value.2
  keys : view'.keys = insertKey view.keys (e.head.1, e.head.2, e.segment)
  headSegments : view'.headSegments = update view.headSegments e.head
    (view.headSegments e.head ++ [e.segment])

structure PageView.Refines (view : PageView K D) (log : RowLog K D) : Prop where
  sound : view.pool.Sound
  pageSize : view.pool.pageSize = view.pageSize
  order : ∀ h, view.headSegments h = StoreLog.order log h
  keys : view.keys = firsts (log.map fun e => (e.head.1, e.head.2, e.segment))
  rows : ∀ h s value, last log h s = some value → ∃ pageIds,
    view.segments (h.1, h.2, s) = some (pageIds, value.1.length) ∧
    Stored view.pageSize view.pool pageIds value.1 value.2

variable {log : RowLog K D}

theorem PageView.Refines.adds {view view' : PageView K D}
    {e : Store (Nat × Nat) Nat (Rows K D)} (refines : view.Refines log) (adds : view.Adds e view') :
    view'.Refines (log ++ [e]) := by
  obtain ⟨pageIds, segments, stored⟩ := adds.segment
  refine ⟨adds.pool.sound, ?_, fun h => ?_, ?_, fun h s value there => ?_⟩
  · rw [adds.pool.pageSize, refines.pageSize, adds.pageSize]
  · rw [adds.headSegments, order_concat]
    by_cases here : e.head = h
    · subst here
      rw [update_self, if_pos rfl, refines.order]
    · rw [update_of_ne (Ne.symm here), if_neg here, refines.order]
  · rw [adds.keys, refines.keys, map_append, map_singleton, firsts_concat, insertKey]
    congr
  · rw [adds.pageSize, segments]
    rw [last_concat] at there
    by_cases here : e.head = h ∧ e.segment = s
    · rw [if_pos here] at there
      obtain ⟨rfl, rfl⟩ := here
      cases there
      exact ⟨pageIds, update_self .., stored⟩
    · rw [if_neg here] at there
      obtain ⟨old, at_key, rows⟩ := refines.rows h s value there
      refine ⟨old, ?_, rows.keep adds.pool fun _ _ => trivial⟩
      rw [update_of_ne, at_key]
      intro same
      simp only [Prod.mk.injEq] at same
      exact here ⟨Prod.ext same.1.symm same.2.1.symm, same.2.2.symm⟩

def lastRows (log : RowLog K D) (h : Nat × Nat) (s : Nat) : Rows K D :=
  (last log h s).getD ([], [])

def concatRows (log : RowLog K D) (h : Nat × Nat) (segments : List Nat) : Rows K D :=
  (segments.flatMap fun s => (lastRows log h s).1, segments.flatMap fun s => (lastRows log h s).2)

theorem gather_concat {σ : Type} {find : Nat → Except PyError σ}
    {gather : σ → Except PyError (Rows K D)} {h : Nat × Nat}
    {segments : List Nat}
    (each : ∀ s ∈ segments, ∃ seg, find s = .ok seg ∧ gather seg = .ok (lastRows log h s)) :
    (do
      let segs ← segments.mapM find
      let parts ← segs.mapM gather
      .ok ((parts.map Prod.fst).flatten, (parts.map Prod.snd).flatten)) =
      Except.ok (concatRows log h segments) := by
  have both : ∃ segs, segments.mapM find = .ok segs ∧
      segs.mapM gather = .ok (segments.map (lastRows log h)) := by
    induction segments with
    | nil => exact ⟨[], rfl, rfl⟩
    | cons s segments ih =>
      obtain ⟨seg, found, gathered⟩ := each s mem_cons_self
      obtain ⟨segs, rest, parts⟩ := ih fun s' member => each s' (mem_cons_of_mem s member)
      refine ⟨seg :: segs, ?_, ?_⟩
      · rw [mapM_cons, found, ok_bind, rest]
        rfl
      · rw [mapM_cons, gathered, ok_bind, parts]
        rfl
  obtain ⟨segs, found, parts⟩ := both
  rw [found, ok_bind, parts, ok_bind, concatRows, map_map, map_map, flatMap_def, flatMap_def]
  rfl

theorem PageView.Refines.segment {view : PageView K D}
    (refines : view.Refines log) {h : Nat × Nat} {s : Nat} (member : s ∈ StoreLog.order log h) :
    ∃ pageIds, view.segments (h.1, h.2, s) = some (pageIds, (lastRows log h s).1.length) ∧
      Stored view.pageSize view.pool pageIds (lastRows log h s).1 (lastRows log h s).2 := by
  obtain ⟨value, there⟩ := last_isSome_of_mem_order member
  have rows : lastRows log h s = value := by rw [lastRows, there]; rfl
  rw [rows]
  exact refines.rows h s value there

namespace SegPagedKVCache

theorem readPages_spec {pageSize : Nat} {pages : LocalPagedPool K D} {vids : List Nat}
    {k v : List (Row K D)} (stored : Stored pageSize pages vids k v) :
    readPages pageSize pages vids k.length = .ok (k, v) := by
  induction vids generalizing k v with
  | nil =>
    obtain ⟨rfl, rfl⟩ := stored
    rfl
  | cons vid rest ih =>
    obtain ⟨-, reads, others⟩ := stored
    have rest_rows : k.length - min pageSize k.length = (k.drop pageSize).length := by
      rw [length_drop]
      omega
    simp only [readPages, reads, rest_rows, ok_bind, ih others, take_append_drop]

theorem gatherHead_eq {cache : SegPagedKVCache K D}
    (refines : cache.view.Refines log) (layer head : Nat) :
    cache.gatherHead layer head =
      .ok (concatRows log (layer, head) (StoreLog.order log (layer, head))) := by
  unfold gatherHead
  have order : cache.headSegments (layer, head) = StoreLog.order log (layer, head) :=
    refines.order (layer, head)
  rw [order]
  apply gather_concat
  intro s member
  obtain ⟨pageIds, there, stored⟩ := refines.segment member
  obtain ⟨seg, at_key, pages⟩ := Option.map_eq_some_iff.mp there
  simp only [Prod.mk.injEq] at pages
  obtain ⟨rfl, rows⟩ := pages
  refine ⟨seg, by simp only [lookup, at_key], ?_⟩
  unfold gatherSegment
  rw [rows]
  exact readPages_spec stored

theorem scatter_eq_writePages {pageSize : Nat} {k v : List (Row K D)} {pages : LocalPagedPool K D}
    (same : v.length = k.length) (vids : List Nat) (i : Nat) (sound : pages.Sound)
    (size : pages.pageSize = pageSize) (old : ∀ vid ∈ vids, vid < pages.nextVirt)
    (needed : ∀ j < vids.length, (i + j) * pageSize < k.length) (positive : 0 < pageSize) :
    scatter pageSize k v i vids pages = writePages pageSize k v i vids pages := by
  induction vids generalizing i pages with
  | nil => rfl
  | cons vid rest ih =>
    obtain ⟨here, later⟩ := forall_mem_cons.mp old
    have starts : i * pageSize < k.length := needed 0 (Nat.zero_lt_succ _)
    have begins : i * pageSize < min (i * pageSize + pageSize) k.length := by omega
    have fits : ¬ pages.pageSize < (pySlice k (i * pageSize)
        (min (i * pageSize + pageSize) k.length)).length := by
      simp only [pySlice, length_drop, length_take, size]
      omega
    have one : assignPage pages vid
        (pySlice k (i * pageSize) (min (i * pageSize + pageSize) k.length))
        (pySlice v (i * pageSize) (min (i * pageSize + pageSize) k.length)) =
          writeSlice pageSize k v i vid pages := by
      simp only [writeSlice, begins, if_true, writePage, fits, if_false]
      rfl
    obtain ⟨mid, writes, keeps, next, -⟩ := writeSlice_spec (i := i) same sound size here
    rw [scatter, writePages, one, writes, ok_bind, ok_bind]
    refine ih (i + 1) keeps.sound (keeps.pageSize.trans size) (next ▸ later) fun j small => ?_
    have := needed (j + 1) (Nat.succ_lt_succ small)
    rwa [← add_assoc, add_right_comm] at this

end SegPagedKVCache

end RedKnot.SegPaged
