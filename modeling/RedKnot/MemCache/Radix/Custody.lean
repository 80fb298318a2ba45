import RedKnot.MemCache.Radix.NodePages

/-! Custody of pages. A request reads slots of the tree on the path of the node it has locked, and
slots of its own. -/

namespace RedKnot.Radix

open LinkedTree NodeHeap RadixKey Allocator Pages RadixCache List

variable {s s' : RadixCache} {G G' : Outline} {r : Req}

def Req.units (r : Req) (isEagle : Bool) : List KeyUnit := (r.radixKey isEagle r.tokenIds).units

def unitLen (isEagle : Bool) (n : Nat) : Nat := if isEagle then n - 1 else n

theorem units_radixKey_take (r : Req) (isEagle : Bool) (n : Nat) :
    (r.radixKey isEagle (r.tokenIds.take n)).units = (r.units isEagle).take (unitLen isEagle n) := by
  cases isEagle with
  | false =>
    exact map_take
  | true =>
    change ((r.tokenIds.take n).zip (r.tokenIds.take n).tail).map _ =
      ((r.tokenIds.zip r.tokenIds.tail).map _).take (n - 1)
    rw [← map_take]
    congr 1
    cases n with
    | zero => rfl
    | succ n => exact zip_tail_take r.tokenIds n

theorem length_units_req (r : Req) (isEagle : Bool) :
    (r.units isEagle).length = unitLen isEagle r.tokenIds.length := by
  rw [Req.units, length_units]
  unfold RadixKey.len unitLen Req.radixKey
  cases isEagle with
  | false => rfl
  | true =>
    simp only [if_true]
    split <;> omega

def Req.ownPages (P : Nat) (r : Req) : List Nat := pageList P (r.row.drop r.cacheProtectedLen)

/-- The request has locked the path of its cached prefix and reads its slots there; the rest of
its row fills its own pages. -/
structure Served (s : RadixCache) (G : Outline) (r : Req) : Prop where
  live : r.lastNode ∈ G.live
  word : G.along (segOf s.nodes) r.lastNode = (r.units s.cfg.isEagle).take r.cacheProtectedLen
  slots : G.along (valOf s.nodes) r.lastNode = r.row.take r.cacheProtectedLen
  inside : r.cacheProtectedLen ≤ r.row.length
  paged : s.pageSize ∣ r.cacheProtectedLen
  prefixed : r.prefixIndices <+: r.row
  fills : Fills s.pageSize (r.row.drop r.cacheProtectedLen) (r.ownPages s.pageSize)
  small : s.cfg.enableKvCacheEvents = true → ∀ t ∈ r.tokenIds, t < 2 ^ 32

theorem Served.keep (v : Served s G r) (k : Keeps s G s' G' r.lastNode) (same : s'.cfg = s.cfg) :
    Served s' G' r := by
  have page : s'.pageSize = s.pageSize := by rw [RadixCache.pageSize, same]
  refine ⟨k.live, ?_, k.slots.trans v.slots, v.inside, page ▸ v.paged, v.prefixed, ?_, ?_⟩
  · rw [k.word, v.word, same]
  · rw [page]
    exact v.fills
  · rw [same]
    exact v.small

theorem Served.length_word (v : Served s G r) (h : Inv s G) :
    (G.along (segOf s.nodes) r.lastNode).length = r.cacheProtectedLen := by
  rw [← h.tree.length_along v.live, v.slots, length_take_of_le v.inside]

theorem Served.short (v : Served s G r) (h : Inv s G) :
    r.cacheProtectedLen ≤ (r.units s.cfg.isEagle).length := by
  have size := v.length_word h
  rw [v.word, length_take] at size
  omega

theorem fills_along (h : Inv s G) (filled : s.Filled G) {n : NodeId} (live : n ∈ G.live) :
    Fills s.pageSize (G.along (valOf s.nodes) n) (G.along s.nodePages n) ∧
      s.pageSize ∣ (G.along (valOf s.nodes) n).length := by
  have pos := h.tree.page_pos
  have chain := h.tree.shape.chain_live live
  unfold Outline.along
  generalize G.chain n = ms at chain ⊢
  induction ms with
  | nil => exact ⟨fills_slots pos [], by simp⟩
  | cons m ms ih =>
    obtain ⟨mlive, minner⟩ := chain m mem_cons_self
    obtain ⟨rest, restPaged⟩ := ih fun k hk => chain k (mem_cons_of_mem _ hk)
    have paged : s.pageSize ∣ (valOf s.nodes m).length := by
      have size := h.tree.length_valOf mlive minner
      have whole := h.tree.paged mlive minner
      rw [size, segOf, length_units]
      exact whole
    rw [flatMap_cons, flatMap_cons, length_append]
    exact ⟨(filled m mlive minner).append pos paged rest, Nat.dvd_add paged restPaged⟩

theorem Served.row_fills (v : Served s G r) (h : Inv s G) (filled : s.Filled G) :
    Fills s.pageSize r.row (G.along s.nodePages r.lastNode ++ r.ownPages s.pageSize) := by
  obtain ⟨first, paged⟩ := fills_along h filled v.live
  have both := first.append h.tree.page_pos paged v.fills
  rwa [v.slots, take_append_drop] at both

def reqCount (P : Nat) (reqs : List Req) (q : Nat) : Int :=
  (reqs.map (fun r => ((r.ownPages P).count q : Int))).sum

theorem reqCount_cons (P : Nat) (r : Req) (reqs : List Req) (q : Nat) :
    reqCount P (r :: reqs) q = (r.ownPages P).count q + reqCount P reqs q := by
  simp [reqCount]

theorem reqCount_perm {P : Nat} {reqs reqs' : List Req} (same : reqs.Perm reqs') (q : Nat) :
    reqCount P reqs q = reqCount P reqs' q := (same.map _).sum_eq

theorem reqCount_nonneg (P : Nat) (reqs : List Req) (q : Nat) : 0 ≤ reqCount P reqs q := by
  apply sum_nonneg
  simp

structure Holding (cfg : Config) (s : RadixCache) (G : Outline) (reqs : List Req)
    (allocated : Nat → Int) : Prop where
  kept : Kept cfg s G (reqs.map Req.lastNode)
  served : ∀ r ∈ reqs, Served s G r
  stock : Stock s G (fun q => allocated q - reqCount cfg.pageSize reqs q)

theorem Holding.perm {cfg : Config} {reqs reqs' : List Req} {allocated : Nat → Int}
    (c : Holding cfg s G reqs allocated) (same : reqs.Perm reqs') : Holding cfg s G reqs' allocated where
  kept := { c.kept with books := c.kept.books.perm (same.map _) }
  served := fun r hr => c.served r (same.mem_iff.mpr hr)
  stock := ⟨c.stock.filled, fun q => by rw [c.stock.count_eq, reqCount_perm same]⟩

structure Custody (cfg : Config) (size : Nat) (S : Serving) : Prop where
  holding : ∃ G allocated, Holding cfg S.cache G S.reqs (fun q => (count q allocated : Int)) ∧
    PagedAllocator.Conserves S.pool allocated
  size : S.pool.size = size
  pageSize : S.pool.pageSize = cfg.pageSize
  outside : S.pool.isNotInFreeGroup = true

theorem Holding.settle {cfg : Config} {reqs : List Req} {a : PagedAllocator} {allocated : List Nat}
    {vs : List (List Slot)} {gs : List (List Nat)} (pos : 0 < cfg.pageSize)
    (pool : PagedAllocator.Conserves a allocated) (page : a.pageSize = cfg.pageSize)
    (outside : a.isNotInFreeGroup = true) (fills : Forall₂ (Fills cfg.pageSize) vs gs)
    (after : Holding cfg s G reqs (fun q => allocated.count q - gs.flatten.count q)) :
    ∃ left : List Nat, Holding cfg s G reqs (fun q => left.count q) ∧
      PagedAllocator.Conserves (vs.foldl PagedAllocator.freeSlots a) left := by
  have enough : ∀ q, gs.flatten.count q ≤ allocated.count q := by
    intro q
    have total := after.stock.count_eq q
    have tree := treeCount_nonneg s G q
    have held := reqCount_nonneg cfg.pageSize reqs q
    omega
  have parts := subperm_append_diff_self_of_count_le fun q _ => enough q
  have counts : ∀ q, ((allocated.diff gs.flatten).count q : Int) =
      allocated.count q - gs.flatten.count q := by
    intro q
    have := enough q
    rw [count_diff]
    omega
  have kept := PagedAllocator.Conserves.freeAll pos fills page outside (pool.perm parts.symm)
  refine ⟨allocated.diff gs.flatten, ?_, kept⟩
  simpa only [counts] using after

def Config.reqKey (cfg : Config) (r : Req) (n : Nat) : RadixKey :=
  (r.radixKey cfg.isEagle (r.tokenIds.take n)).pageAligned cfg.pageSize

def Config.keyLen (cfg : Config) (n : Nat) : Nat := pageFloor cfg.pageSize (unitLen cfg.isEagle n)

section Keys

variable (cfg : Config) {n : Nat}

theorem keyLen_le (n : Nat) : cfg.keyLen n ≤ n := by
  refine (pageFloor_le _ _).trans ?_
  unfold unitLen
  split <;> omega

section

variable (tokens : n ≤ r.tokenIds.length)
include tokens

theorem len_radixKey_take :
    (r.radixKey cfg.isEagle (r.tokenIds.take n)).len = unitLen cfg.isEagle n := by
  rw [← length_units, units_radixKey_take, length_take, length_units_req]
  apply min_eq_left
  unfold unitLen
  split <;> omega

theorem len_reqKey : (cfg.reqKey r n).len = cfg.keyLen n := by
  rw [Config.reqKey, len_pageAligned, len_radixKey_take cfg tokens]
  rfl

theorem units_reqKey : (cfg.reqKey r n).units = (r.units cfg.isEagle).take (cfg.keyLen n) := by
  rw [Config.reqKey, units_pageAligned, len_radixKey_take cfg tokens, units_radixKey_take,
    take_take, min_eq_left (pageFloor_le _ _)]
  rfl

theorem length_take_keyLen : ((r.units cfg.isEagle).take (cfg.keyLen n)).length = cfg.keyLen n := by
  rw [← units_reqKey cfg tokens, length_units, len_reqKey cfg tokens]

end

theorem view_reqKey (value : Option (List Slot)) :
    (cfg.reqKey r n).maybeToBigramView cfg.isEagle value = (cfg.reqKey r n, value) := by
  have mode : (cfg.reqKey r n).isBigram = cfg.isEagle := by
    unfold Config.reqKey pageAligned
    split
    · rfl
    · exact slice_isBigram _ _ _
  unfold maybeToBigramView
  rw [mode]
  cases cfg.isEagle <;> rfl

theorem units_viewKey_reqKey : (cfg.viewKey (cfg.reqKey r n)).units = (cfg.reqKey r n).units := by
  have paged : pageFloor cfg.pageSize (cfg.reqKey r n).len = (cfg.reqKey r n).len :=
    pageFloor_of_dvd (paged_pageAligned _ _)
  rw [Config.viewKey, view_reqKey, units_pageAligned, paged, ← length_units, take_length]

theorem viewValue_reqKey (v : List Slot) :
    cfg.viewValue (cfg.reqKey r n) (some v) = v.take (cfg.reqKey r n).len := by
  rw [Config.viewValue, view_reqKey]
  change v.take (cfg.viewKey (cfg.reqKey r n)).len = _
  rw [← length_units, units_viewKey_reqKey, length_units]

theorem tokenIds_reqKey : (cfg.reqKey r n).tokenIds ⊆ r.tokenIds := by
  intro t ht
  exact mem_of_mem_take (tokenIds_pageAligned _ _ ht)

end Keys

end RedKnot.Radix
