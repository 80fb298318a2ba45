import RedKnot.MemCache.Radix.Steps

/-! The two edits that change what is cached: `_insert_helper` hangs a leaf and `evict`
drops one. -/

namespace RedKnot.Radix.RadixCache

open LinkedTree NodeHeap RadixKey Function Finset List

variable {s s' : RadixCache} {G : Outline} {p x n : NodeId} {k : RadixKey} {v : List Slot}

theorem updateLeafStatus_eq (own : ∃ v, (s.nodes n).value = some v)
    (valued : ∀ j c, (s.nodes n).children.lookup j = some c → ∃ v, (s.nodes c).value = some v) :
    s.updateLeafStatus n = { s with
      evictableLeaves :=
        if (s.nodes n).lockRef ≤ 0 ∧ (s.nodes n).children = ∅ then s.evictableLeaves.insert n
        else s.evictableLeaves.erase n } := by
  have alive : (s.nodes n).evicted = false := by
    obtain ⟨v, hv⟩ := own
    simp [TreeNode.evicted, hv]
  have kids : (s.nodes n).children.entries.any (fun e => !(s.nodes e.2).evicted) =
      decide ((s.nodes n).children ≠ ∅) := by
    rw [Bool.eq_iff_iff]
    simp only [any_eq_true, decide_eq_true_eq]
    constructor
    · rintro ⟨e, he, _⟩ none
      rw [none] at he
      simp at he
    · intro some
      have : (s.nodes n).children.entries ≠ [] := fun h => some (AList.ext h)
      obtain ⟨e, he⟩ := exists_mem_of_ne_nil _ this
      obtain ⟨v, hv⟩ := valued e.1 e.2 (AList.mem_lookup_iff.mpr he)
      exact ⟨e, he, by simp [TreeNode.evicted, hv]⟩
  by_cases both : (s.nodes n).lockRef ≤ 0 ∧ (s.nodes n).children = ∅
  · have free : ¬ (s.nodes n).lockRef > 0 := by omega
    simp [updateLeafStatus, alive, free, both]
  · rw [if_neg both]
    by_cases locked : (s.nodes n).lockRef > 0
    · simp [updateLeafStatus, locked]
    · have inner : (s.nodes n).children ≠ ∅ := fun leaf => both ⟨by omega, leaf⟩
      simp only [updateLeafStatus, alive, locked, kids, inner, ne_eq, not_false_eq_true, decide_true,
        if_true, Bool.false_eq_true, or_self, if_false]

theorem nodeBlockHashes_eq {a : TreeNode} {P : Nat} {hs : List Digest} (pos : 0 < P)
    (hashed : a.hashValue = some hs) (sized : hs.length * P = a.key.len) :
    nodeBlockHashes a P = .ok (hs.map hashStrToInt64) := by
  have pages : (a.key.len + P - 1) / P = hs.length := by
    rw [← sized]
    apply Nat.div_eq_of_lt_le
    · omega
    · rw [Nat.succ_mul]
      omega
  unfold nodeBlockHashes
  rw [pages, hashed, mapM_eq_map (g := fun i => hashStrToInt64 (hs.getD i []))]
  · congr 1
    apply ext_getElem
    · simp
    · intro i h₁ h₂
      have hi : i < hs.length := by simpa using h₁
      simp [getElem?_eq_getElem hi]
  · intro i hi
    have hi : i < hs.length := List.mem_range.mp hi
    simp [pyGet_of_lt hi, getElem?_eq_getElem hi, ok_bind, pure, Except.pure]

def hung (s : RadixCache) (p : NodeId) (k : RadixKey) (v : List Slot) (childKey : ChildKey)
    (priority : Int) (chunked : Bool) : RadixCache :=
  let (newNode, s) := s.newTreeNode priority
  let s := s.modify newNode (fun n => { n with parent := some p, key := k, value := some v })
  let s := s.incHitCount newNode chunked
  let s := s.modify p (fun n => { n with children := n.children.insert childKey newNode })
  { s with evictableSize := s.evictableSize + k.len }

section Hung

variable (s p k v) (fresh : p ≠ s.counter) (j : ChildKey) (priority : Int) (chunked : Bool)
include fresh

theorem hung_new : ∃ accessed created hits, (s.hung p k v j priority chunked).nodes s.counter =
      { children := ∅, parent := some p, key := k, value := some v, lockRef := 0,
        lastAccessTime := accessed, creationTime := created, hitCount := hits, hashValue := none,
        priority := priority } := by
  refine ⟨s.clock s.ticks, s.clock (s.ticks + 1), if chunked then 0 else 1, ?_⟩
  cases chunked <;> simp [hung, newTreeNode, monotonic, incHitCount, modify, fresh.symm]

theorem hung_parent : (s.hung p k v j priority chunked).nodes p =
    { s.nodes p with children := (s.nodes p).children.insert j s.counter } := by
  cases chunked <;> simp [hung, newTreeNode, monotonic, incHitCount, modify, fresh]

omit fresh in
theorem hung_other (np : n ≠ p) (nc : n ≠ s.counter) :
    (s.hung p k v j priority chunked).nodes n = s.nodes n := by
  cases chunked <;> simp [hung, newTreeNode, monotonic, incHitCount, modify, np, nc]

omit fresh in
theorem hung_rest : s.hung p k v j priority chunked = { s with
    nodes := (s.hung p k v j priority chunked).nodes
    ticks := s.ticks + 2
    counter := s.counter + 1
    evictableSize := s.evictableSize + k.len } := by
  cases chunked <;> rfl

end Hung

theorem recordStoreEvent_spec (enabled : s.cfg.enableKvCacheEvents = true) (np : p ≠ n)
    (pos : 0 < s.pageSize) (up : (s.nodes n).parent = some p) (unhashed : (s.nodes n).hashValue = none)
    (paged : s.pageSize ∣ (s.nodes n).key.len) (small : ∀ t ∈ (s.nodes n).key.tokenIds, t < 2 ^ 32) :
    ∃ hs, hs = digests s.cfg.sha256 s.pageSize ((s.nodes n).key.len / s.pageSize)
        (s.nodes n).key.units (s.seedOf p) ∧
      s.recordStoreEvent n = .ok { s with
        nodes := update s.nodes n { s.nodes n with hashValue := some hs }
        kvEventQueue := s.kvEventQueue ++
          storedEvents (s.nodes n).key s.pageSize (hs.map hashStrToInt64) 0 (s.parentBlock p) } := by
  have pages := Nat.div_mul_cancel paged
  have computed : s.computeNodeHashValues n = .ok (digests s.cfg.sha256 s.pageSize
      ((s.nodes n).key.len / s.pageSize) (s.nodes n).key.units (s.seedOf p)) := by
    rw [computeNodeHashValues, up, Option.bind_some]
    exact hashPages_eq s.cfg.sha256 small pos _ _ 0 _ (Nat.div_le_self _ _)
      (by rw [zero_add, pages])
  refine ⟨_, rfl, ?_⟩
  generalize hhs : digests s.cfg.sha256 s.pageSize ((s.nodes n).key.len / s.pageSize)
    (s.nodes n).key.units (s.seedOf p) = hs at computed
  have sized : hs.length * s.pageSize = (s.nodes n).key.len := by
    rw [← hhs, length_digests, pages]
  have ensured : s.ensureHashValue n =
      .ok { s with nodes := update s.nodes n { s.nodes n with hashValue := some hs } } := by
    simp only [ensureHashValue, unhashed, computed]
    rfl
  have blocks := nodeBlockHashes_eq (a := { s.nodes n with hashValue := some hs }) pos rfl sized
  have block : (RadixCache.parentBlock { s with
      nodes := update s.nodes n { s.nodes n with hashValue := some hs } } p) = s.parentBlock p := by
    simp only [parentBlock, update_of_ne np]
  simp only [recordStoreEvent, enabled, if_true, ensured, ok_bind, update_self, blocks]
  rw [up, Option.bind_some, ← up, block]
  rfl

theorem hangsTo_of_hung (fresh : p ≠ s.counter) (j : ChildKey) (priority : Int) (chunked : Bool)
    (filed : j = encPage s.pageSize (k.units.take s.pageSize)) (hash : Option (List Digest))
    (queue : List KVCacheEvent)
    (stored : s.cfg.enableKvCacheEvents = true →
      ∃ hs, hs = digests s.cfg.sha256 s.pageSize (k.len / s.pageSize) k.units (s.seedOf p) ∧
        hash = some hs ∧ queue = s.kvEventQueue ++
          storedEvents k s.pageSize (hs.map hashStrToInt64) 0 (s.parentBlock p))
    (silent : s.cfg.enableKvCacheEvents = false → queue = s.kvEventQueue) :
    HangsTo s { s.hung p k v j priority chunked with
      nodes := update (s.hung p k v j priority chunked).nodes s.counter
        { (s.hung p k v j priority chunked).nodes s.counter with hashValue := hash }
      evictableLeaves := (s.evictableLeaves.erase p).insert s.counter
      kvEventQueue := queue } p k v := by
  obtain ⟨accessed, created, hits, new⟩ := hung_new s p k v fresh j priority chunked
  have top := hung_parent s p k v fresh j priority chunked
  have other := fun n => hung_other (n := n) s p k v j priority chunked
  have rest := hung_rest s p k v j priority chunked
  generalize s.hung p k v j priority chunked = t at *
  rw [new]
  constructor
  case stored =>
    intro enabled
    obtain ⟨hs, hhs, hhash, hqueue⟩ := stored enabled
    exact ⟨hs, hhs, by simp [hhash], hqueue⟩
  case links =>
    refine ⟨?_, ?_, ?_, ?_, ?_, ?_, ?_⟩
    case refine_7 =>
      intro n nc np
      simp [nc, other n np nc, SameLinks.refl]
    all_goals simp [RadixNode.parent, RadixNode.children, RadixNode.key, RadixNode.value, fresh, top,
      filed]
  case other_lock =>
    intro n nc
    by_cases np : n = p
    · simp [np, fresh, top]
    · simp [nc, other n np nc]
  case other_hash =>
    intro n nc
    by_cases np : n = p
    · simp [np, fresh, top]
    · simp [nc, other n np nc]
  case rest => rw [rest]
  case silent => exact silent
  all_goals simp

theorem insertRest_spec (h : Inv s G) (hp : p ∈ G.live) (paged : s.pageSize ∣ k.len)
    (small : s.cfg.enableKvCacheEvents = true → ∀ t ∈ k.tokenIds, t < 2 ^ 32)
    (priority : Int) (chunked : Bool) :
    ∃ s', s.insertRest p k v (encPage s.pageSize (k.units.take s.pageSize)) priority chunked =
      .ok s' ∧ HangsTo s s' p k v := by
  have fresh : p ≠ s.counter := h.tree.ne_next hp
  obtain ⟨j, filed⟩ : ∃ j, j = encPage s.pageSize (k.units.take s.pageSize) := ⟨_, rfl⟩
  obtain ⟨accessed, created, hits, new⟩ := hung_new s p k v fresh j priority chunked
  have top := hung_parent s p k v fresh j priority chunked
  have other := fun n => hung_other (n := n) s p k v j priority chunked
  have rest := hung_rest s p k v j priority chunked
  have build := hangsTo_of_hung (k := k) (v := v) fresh j priority chunked filed
  have unfolded : s.insertRest p k v j priority chunked =
      (((s.hung p k v j priority chunked).updateLeafStatus p).updateLeafStatus
        s.counter).recordStoreEvent s.counter := rfl
  rw [← filed, unfolded]
  generalize s.hung p k v j priority chunked = t at *
  have leaves : t.evictableLeaves = s.evictableLeaves := by rw [rest]
  have cfg : t.cfg = s.cfg := by rw [rest]
  have root : t.rootNode = s.rootNode := by rw [rest]
  have queue : t.kvEventQueue = s.kvEventQueue := by rw [rest]
  -- The parent has a child now, and that child is the new leaf.
  have atParent : t.updateLeafStatus p = { t with evictableLeaves := s.evictableLeaves.erase p } := by
    rw [updateLeafStatus_eq]
    · have : (t.nodes p).children ≠ ∅ := by
        intro empty
        have found : (t.nodes p).children.lookup j = some s.counter := by simp [top]
        rw [empty] at found
        simp at found
      simp [this, leaves]
    · rw [top]
      by_cases inner : p = s.rootNode
      · exact ⟨[], inner ▸ h.root_value⟩
      · obtain ⟨u, hu, _⟩ := h.tree.valued p hp inner
        exact ⟨u, hu⟩
    · intro i c found
      by_cases nc : c = s.counter
      · exact ⟨v, by rw [nc, new]⟩
      · have old : (s.nodes p).children.lookup i = some c := by
          rw [top] at found
          by_cases hij : i = j
          · subst hij
            simp at found
            exact absurd found.symm nc
          · rwa [AList.lookup_insert_ne hij] at found
        obtain ⟨hc, inner, hparent, _⟩ := h.tree.shape.down p hp i c old
        obtain ⟨u, hu, _⟩ := h.tree.valued c hc inner
        have np : c ≠ p := (h.tree.keys.parent_ne hc inner hparent).symm
        exact ⟨u, by rw [other c np nc]; exact hu⟩
  have atLeaf : RadixCache.updateLeafStatus { t with evictableLeaves := s.evictableLeaves.erase p }
      s.counter = { t with evictableLeaves := (s.evictableLeaves.erase p).insert s.counter } := by
    rw [updateLeafStatus_eq]
    · simp [new]
    · exact ⟨v, by simp [new]⟩
    · intro i c found
      simp [new] at found
  rw [atParent, atLeaf]
  cases events : s.cfg.enableKvCacheEvents with
  | false =>
    refine ⟨_, by rw [recordStoreEvent, if_neg (by simp [cfg, events])], ?_⟩
    have := build none t.kvEventQueue (by simp [events]) (fun _ => queue)
    rwa [show { t.nodes s.counter with hashValue := none } = t.nodes s.counter by rw [new],
      update_eq_self] at this
  | true =>
    obtain ⟨hs, hhs, recorded⟩ := recordStoreEvent_spec
      (s := { t with evictableLeaves := (s.evictableLeaves.erase p).insert s.counter })
      (n := s.counter) (p := p) (by rw [cfg, events]) fresh (by simpa [cfg] using h.tree.page_pos)
      (by simp [new]) (by simp [new]) (by simpa [new, cfg] using paged)
      (by simpa [new] using small events)
    refine ⟨_, recorded, build (some hs) _ (fun _ => ⟨hs, ?_, rfl, ?_⟩) (by simp [events])⟩
    · rw [hhs]
      simp [new, cfg, seedOf, top]
    · simp [new, cfg, queue, parentBlock, top, root]

theorem HangsTo.cfg (e : HangsTo s s' p k v) : s'.cfg = s.cfg := by rw [e.rest]

theorem HangsTo.rootNode (e : HangsTo s s' p k v) : s'.rootNode = s.rootNode := by rw [e.rest]

theorem HangsTo.counter (e : HangsTo s s' p k v) : s'.counter = s.counter + 1 := by rw [e.rest]

structure Hangs (s : RadixCache) (G : Outline) (p : NodeId) (k : RadixKey) (v : List Slot) : Prop where
  live : p ∈ G.live
  nonempty : 0 < k.len
  paged : s.pageSize ∣ k.len
  values : v.length = k.len
  free : (s.nodes p).children.lookup (encPage s.pageSize (k.units.take s.pageSize)) = none

theorem HangsTo.tree (e : HangsTo s s' p k v) (g : Hangs s G p k v) (h : Inv s G) :
    IsRadixTree s.pageSize s.rootNode (s.counter + 1) s'.nodes (G.attach p s.counter) := by
  have hkey : RadixNode.key (s'.nodes s.counter) = k := e.new_key
  refine h.tree.hang e.links g.live le_rfl ?_ ?_ ?_ ⟨v, e.new_value, ?_⟩
  · rw [segOf, hkey]
    exact g.free
  · rw [hkey]
    exact g.nonempty
  · rw [hkey]
    exact g.paged
  · rw [hkey]
    exact g.values

theorem Inv.hang (h : Inv s G) (g : Hangs s G p k v) (e : HangsTo s s' p k v) :
    Inv s' (G.attach p s.counter) := by
  have root_fresh := h.tree.ne_next h.tree.root_live
  constructor
  · rw [pageSize, e.cfg, e.rootNode, e.counter]
    exact e.tree g h
  · rw [e.rootNode]
    exact (IsRadixTree.value_hang e.links root_fresh).trans h.root_value
  · rw [e.rootNode, e.other_lock _ root_fresh, h.root_lock]
  · rw [e.leaves]
    exact Nodup.insert (h.leaves_nodup.erase _)
  · intro n hn
    rw [e.leaves, mem_insert_iff, h.leaves_nodup.mem_erase_iff] at hn
    rw [e.rootNode]
    rcases hn with rfl | ⟨np, hn⟩
    · exact ⟨mem_insert_self _ _, root_fresh.symm, e.links.new_children⟩
    · obtain ⟨live, ninner, leaf⟩ := h.leaves_ok n hn
      exact ⟨mem_insert_of_mem live, ninner,
        (e.links.others n (h.tree.ne_next live) np).children.trans leaf⟩
  · rw [e.cfg, pageSize, e.cfg, e.rootNode]
    intro enabled n hn inner
    rcases mem_insert.mp hn with rfl | hn
    · obtain ⟨hs, hhs, hash, _⟩ := e.stored enabled
      refine ⟨hs, hash, ?_⟩
      rw [hhs, length_digests, e.new_key]
      exact Nat.div_mul_cancel g.paged
    · obtain ⟨hs, hhs, sized⟩ := h.hashed enabled n hn inner
      have nc := h.tree.ne_next hn
      have hkey : (s'.nodes n).key = (s.nodes n).key := e.links.keys.key nc
      exact ⟨hs, by rw [e.other_hash n nc, hhs], by rw [hkey, sized]⟩

structure Leaf (s : RadixCache) (G : Outline) (p x : NodeId) : Prop where
  live : x ∈ G.live
  inner : x ≠ s.rootNode
  up : (s.nodes x).parent = some p
  childless : (s.nodes x).children = ∅

theorem recordRemoveEvent_spec (hs : List Digest) (pos : 0 < s.pageSize)
    (hashed : s.cfg.enableKvCacheEvents = true →
      (s.nodes n).hashValue = some hs ∧ hs.length * s.pageSize = (s.nodes n).key.len) :
    s.recordRemoveEvent n = .ok { s with
      kvEventQueue := if s.cfg.enableKvCacheEvents then s.kvEventQueue ++
          (hs.map hashStrToInt64).map (fun h => .blockRemoved [h] .gpu)
        else s.kvEventQueue } := by
  cases events : s.cfg.enableKvCacheEvents with
  | false => simp [recordRemoveEvent, events]
  | true =>
    obtain ⟨hhs, sized⟩ := hashed events
    have blocks := nodeBlockHashes_eq pos hhs sized
    simp [recordRemoveEvent, events, ensureHashValue, hhs, blocks, ok_bind]

/-- The state of `_delete_leaf` before the leaf status of the parent is updated. -/
def unfiled (s : RadixCache) (p x : NodeId) : RadixCache :=
  { s with
    nodes := update s.nodes p { s.nodes p with
      children := (s.nodes p).children.erase
        (encPage s.pageSize ((s.nodes x).key.units.take s.pageSize)) }
    evictableSize := s.evictableSize - (s.nodes x).key.len
    evictableLeaves := s.evictableLeaves.erase x }

theorem unfiled_links : DropOf s.pageSize s.nodes (s.unfiled p x).nodes p x := by
  refine ⟨?_, ?_, ?_, ?_, ?_⟩
  case refine_5 =>
    intro n np
    simp [unfiled, np, SameLinks.refl]
  all_goals simp [unfiled, RadixNode.parent, RadixNode.children, RadixNode.key, RadixNode.value]

theorem deleteLeaf_spec (h : Inv s G) (g : Leaf s G p x) : s.deleteLeaf x = .ok { s.unfiled p x with
      evictableLeaves :=
        if ((s.unfiled p x).nodes p).lockRef ≤ 0 ∧ ((s.unfiled p x).nodes p).children = ∅
        then (s.evictableLeaves.erase x).insert p else (s.evictableLeaves.erase x).erase p } := by
  obtain ⟨live, inner, up, leaf⟩ := g
  have hkey : (s.nodes x).key.childKey s.pageSize = _ :=
    childKey_of_page h.tree.page_pos (h.tree.keys.page_le live inner)
  have found : (s.nodes p).children.lookup
    (encPage s.pageSize ((s.nodes x).key.units.take s.pageSize)) = some x := h.tree.keys.filed live inner up
  have plive := h.tree.keys.parent_live live inner up
  have unfolded : s.deleteLeaf x = .ok ((s.unfiled p x).updateLeafStatus p) := by
    simp only [deleteLeaf, hkey, up, found, ok_bind, ne_eq, not_true_eq_false, if_false]
    rfl
  rw [unfolded, updateLeafStatus_eq]
  · rfl
  · have same : ((s.unfiled p x).nodes p).value = (s.nodes p).value := unfiled_links.top_value
    rw [same]
    by_cases root : p = s.rootNode
    · exact ⟨[], root ▸ h.root_value⟩
    · obtain ⟨u, hu, _⟩ := h.tree.valued p plive root
      exact ⟨u, hu⟩
  · intro j c hc
    have kids : ((s.unfiled p x).nodes p).children = _ := unfiled_links.top_children
    rw [kids] at hc
    have old : (s.nodes p).children.lookup j = some c := by
      by_cases same : j = encPage s.pageSize ((s.nodes x).key.units.take s.pageSize)
      · subst same
        exact absurd (hc.symm.trans (AList.lookup_erase _ _)) (by simp)
      · exact (AList.lookup_erase_ne same).symm.trans hc
    obtain ⟨clive, cinner, cparent, _⟩ := h.tree.shape.down p plive j c old
    obtain ⟨u, hu, _⟩ := h.tree.valued c clive cinner
    exact ⟨u, (IsRadixTree.value_drop unfiled_links c).trans hu⟩

theorem children_length_zero (c : Children) : c.entries.length = 0 ↔ c = ∅ := by
  constructor
  · intro h
    exact AList.ext (length_eq_zero_iff.mp h)
  · rintro rfl
    rfl

theorem Inv.allocatorFree (h : Inv s G) (v : List Slot) : Inv (s.allocatorFree v) G :=
  ⟨h.tree, h.root_value, h.root_lock, h.leaves_nodup, h.leaves_ok, h.hashed⟩

theorem evictOne_spec (hq : Heapq) (h : Inv s G) (g : Leaf s G p x) (heap : List HeapEntry) :
    ∃ s', RemovesTo s s' p x ∧ s.evictOne hq heap x = .ok ((s.nodes x).key.len, s',
      if (s'.nodes p).children = ∅ ∧ (s'.nodes p).lockRef = 0 then
        hq.heappush HeapEntry.key heap (s'.heapEntry p)
      else heap) := by
  have xp : x ≠ p := (h.tree.keys.parent_ne g.live g.inner g.up).symm
  obtain ⟨u, hu, ulen⟩ := h.tree.valued x g.live g.inner
  have slots : (s.nodes x).slots.length = (s.nodes x).key.len := by
    have hu : (s.nodes x).value = some u := hu
    rw [TreeNode.slots, hu]
    exact ulen
  have deleted := deleteLeaf_spec (h.allocatorFree (s.nodes x).slots) ⟨g.live, g.inner, g.up, g.childless⟩
  obtain ⟨hs, hashed⟩ : ∃ hs, s.cfg.enableKvCacheEvents = true →
      (s.nodes x).hashValue = some hs ∧ hs.length * s.pageSize = (s.nodes x).key.len := by
    cases events : s.cfg.enableKvCacheEvents with
    | false => exact ⟨[], by simp⟩
    | true =>
      obtain ⟨hs, hhs, sized⟩ := h.hashed events x g.live g.inner
      exact ⟨hs, fun _ => ⟨hhs, sized⟩⟩
  -- The state in which the removal is recorded.
  obtain ⟨t, ht⟩ : ∃ t, (s.allocatorFree (s.nodes x).slots).deleteLeaf x = .ok t := ⟨_, deleted⟩
  have ht' := Except.ok.inj (deleted.symm.trans ht)
  have atx : t.nodes x = s.nodes x := by
    rw [← ht']
    simp [unfiled, xp, allocatorFree]
  have cfg : t.cfg = s.cfg := by rw [← ht']; rfl
  have recorded := recordRemoveEvent_spec (s := t) (n := x) hs
    (by rw [pageSize, cfg]; exact h.tree.page_pos)
    (by rw [pageSize, cfg, atx]; exact hashed)
  generalize hqueue : (if t.cfg.enableKvCacheEvents = true then _ else t.kvEventQueue) = queue
    at recorded
  have queued : t.kvEventQueue = s.kvEventQueue := by rw [← ht']; rfl
  have removed : s.cfg.enableKvCacheEvents = true → queue = s.kvEventQueue ++
      (((s.nodes x).hashValue.getD []).map hashStrToInt64).map (fun h => .blockRemoved [h] .gpu) := by
    intro enabled
    rw [← hqueue, cfg, if_pos enabled, queued, (hashed enabled).1]
    rfl
  have silent : s.cfg.enableKvCacheEvents = false → queue = s.kvEventQueue := by
    intro disabled
    rw [← hqueue, cfg, if_neg (by simp [disabled]), queued]
  refine ⟨{ t with kvEventQueue := queue }, ?_, ?_⟩
  rotate_left
  · simp only [evictOne, ht, atx, g.up, recorded, ok_bind, slots, children_length_zero]
    rfl
  · clear recorded hqueue queued cfg atx ht
    subst ht'
    refine ⟨?_, ?_, ?_, ?_, ?_, removed, silent, rfl⟩
    · exact unfiled_links
    · intro n
      by_cases np : n = p
      · simp [unfiled, np, allocatorFree]
      · simp [unfiled, np, allocatorFree]
    · intro n
      by_cases np : n = p
      · simp [unfiled, np, allocatorFree]
      · simp [unfiled, np, allocatorFree]
    · intro n
      by_cases np : n = p
      · subst np
        simp only [heapEntry, unfiled, allocatorFree, update_self, HeapEntry.mk.injEq, and_true]
        unfold EvictionStrategy.getPriority
        cases s.cfg.evictionStrategy <;> rfl
      · simp [heapEntry, unfiled, np, allocatorFree]
    · rfl

section

variable (e : RemovesTo s s' p x)
include e

theorem RemovesTo.cfg : s'.cfg = s.cfg := by rw [e.rest]

theorem RemovesTo.rootNode : s'.rootNode = s.rootNode := by rw [e.rest]

theorem RemovesTo.counter : s'.counter = s.counter := by rw [e.rest]

theorem RemovesTo.mem_leaves (nodup : s.evictableLeaves.Nodup) {n : NodeId} :
    n ∈ s'.evictableLeaves ↔ (n = p ∧ (s'.nodes p).lockRef ≤ 0 ∧ (s'.nodes p).children = ∅) ∨
        (n ≠ p ∧ n ≠ x ∧ n ∈ s.evictableLeaves) := by
  rw [e.leaves]
  split
  · rename_i leaf
    rw [mem_insert_iff, nodup.mem_erase_iff]
    by_cases np : n = p
    · simp [np, leaf]
    · simp [np]
  · rename_i busy
    rw [(nodup.erase x).mem_erase_iff, nodup.mem_erase_iff]
    constructor
    · exact .inr
    · rintro (⟨_, leaf⟩ | h)
      · exact absurd leaf busy
      · exact h

end

theorem Inv.remove (h : Inv s G) (g : Leaf s G p x) (e : RemovesTo s s' p x) : Inv s' (G.detach x) := by
  have px : p ≠ x := h.tree.keys.parent_ne g.live g.inner g.up
  constructor
  · rw [pageSize, e.cfg, e.rootNode, e.counter]
    exact h.tree.drop e.links g.live g.inner g.up g.childless
  · rw [e.rootNode]
    exact (IsRadixTree.value_drop e.links _).trans h.root_value
  · rw [e.rootNode, e.lock, h.root_lock]
  · rw [e.leaves]
    split
    · exact (h.leaves_nodup.erase _).insert
    · exact (h.leaves_nodup.erase _).erase _
  · intro n hn
    rw [e.rootNode]
    rcases (e.mem_leaves h.leaves_nodup).mp hn with ⟨rfl, free, leaf⟩ | ⟨np, nx, hn⟩
    · refine ⟨mem_erase.mpr ⟨px, h.tree.keys.parent_live g.live g.inner g.up⟩, ?_, leaf⟩
      rintro rfl
      rw [e.lock, h.root_lock] at free
      omega
    · obtain ⟨live, inner, leaf⟩ := h.leaves_ok n hn
      exact ⟨mem_erase.mpr ⟨nx, live⟩, inner, (e.links.others n np).children.trans leaf⟩
  · rw [e.cfg, pageSize, e.cfg, e.rootNode]
    intro enabled n hn inner
    obtain ⟨hs, hhs, sized⟩ := h.hashed enabled n (mem_of_mem_erase hn) inner
    have hkey : (s'.nodes n).key = (s.nodes n).key := e.links.keys.key n
    exact ⟨hs, by rw [e.hash, hhs], by rw [hkey, sized]⟩

end RedKnot.Radix.RadixCache
