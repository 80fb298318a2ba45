import RedKnot.MemCache.Radix.Custody

/-! How the calls of a request move pages between the request, the tree and the pool. -/

namespace RedKnot.Radix

open LinkedTree NodeHeap RadixKey Allocator Pages RadixCache List Serving

variable {cfg : Config} {s s' : RadixCache} {G G' : Outline} {r : Req} {n : Nat}

variable {i j : Nat}

theorem Served.piece (v : Served s G r) (h : Inv s G)
    (inside : r.cacheProtectedLen + j * s.pageSize ≤ r.row.length) :
    Fills s.pageSize
      ((r.row.take (r.cacheProtectedLen + j * s.pageSize)).drop (r.cacheProtectedLen + i * s.pageSize))
      (((r.ownPages s.pageSize).take j).drop i) := by
  have pos := h.tree.page_pos
  have part : (r.row.take (r.cacheProtectedLen + j * s.pageSize)).drop
      (r.cacheProtectedLen + i * s.pageSize) =
      ((r.row.drop r.cacheProtectedLen).take (j * s.pageSize)).drop (i * s.pageSize) := by
    rw [drop_take, drop_take, drop_drop]
    congr 1
    omega
  rw [part]
  refine (v.fills.take pos ?_).drop pos i
  rw [length_drop]
  omega

/-- After an insert of the first `n` tokens: the first `i` pages of the request were there already,
and the tree has taken over the others of the first `j`. -/
structure Inserted (s : RadixCache) (G : Outline) (L : List NodeId) (count : Nat → Int) (r : Req)
    (n prefixLen : Nat) (s' : RadixCache) (G' : Outline) (i j : Nat) : Prop where
  cfg_eq : s'.cfg = s.cfg
  freed : s'.freed = s.freed
  books : Books s' G' L
  keeps : ∀ m ∈ G.live, Keeps s G s' G' m
  present : ∃ node ∈ G'.live,
    G'.along (segOf s'.nodes) node = (r.units s.cfg.isEagle).take (s.cfg.keyLen n)
  found : prefixLen = r.cacheProtectedLen + i * s.pageSize
  whole : s.cfg.keyLen n = r.cacheProtectedLen + j * s.pageSize
  le : i ≤ j
  stock : Stock s' G' (fun q => count q + (((r.ownPages s.pageSize).take j).drop i).count q)

theorem Serving.Covers.keyLen_ge (covers : Covers s.cfg r n)
    (v : Served s G r) : r.cacheProtectedLen ≤ s.cfg.keyLen n := by
  apply le_pageFloor v.paged
  have cached := covers.cached
  have beyond := covers.beyond
  unfold unitLen
  split
  · next eagle =>
    have := beyond eagle
    omega
  · exact cached

theorem Serving.Covers.keyLen_eq (covers : Covers s.cfg r n) (v : Served s G r) :
    ∃ j, s.cfg.keyLen n = r.cacheProtectedLen + j * s.pageSize := by
  have covered := covers.keyLen_ge v
  obtain ⟨j, hj⟩ := Nat.dvd_sub (dvd_pageFloor s.pageSize (unitLen s.cfg.isEagle n)) v.paged
  refine ⟨j, ?_⟩
  change s.cfg.keyLen n - _ = _ at hj
  rw [Nat.mul_comm] at hj
  omega

theorem Served.depth_le (v : Served s G r) (h : Inv s G) {node : NodeId} {k : RadixKey} {m : Nat}
    (bound : r.cacheProtectedLen ≤ m) (live : node ∈ G.live)
    (word : (r.units s.cfg.isEagle).take m = G.along (segOf s.nodes) node ++ k.units)
    (free : (s.nodes node).children.lookup (encPage s.pageSize (k.units.take s.pageSize)) = none) :
    r.cacheProtectedLen ≤ (G.along (segOf s.nodes) node).length := by
  have longest := h.tree.longest_here k live word (.inr free)
  have cached := h.tree.cached_word v.live
  have short := v.short h
  refine longest.longest _ (G.along (valOf s.nodes) r.lastNode) ?_ ?_
  · rw [length_take]
    omega
  · rw [take_take, Nat.min_eq_left bound, ← v.word]
    exact cached

variable {L : List NodeId} {count : Nat → Int}

theorem insert_req_spec (b : Books s G L) (v : Served s G r)
    (st : Stock s G count) (enabled : s.cfg.disable = false) (covers : Covers s.cfg r n)
    (chunked : Bool) (priority : Int) :
    ∃ prefixLen s' G' i j,
      s.insert (s.cfg.reqKey r n) (some ((r.row.take n).take (s.cfg.reqKey r n).len)) chunked priority =
        .ok (prefixLen, s') ∧
      Inserted s G L count r n prefixLen s' G' i j := by
  have h := b.inv
  have pos := h.tree.page_pos
  have keyBound := keyLen_le s.cfg n
  have slotBound := covers.slots
  have covered := covers.keyLen_ge v
  have size := len_reqKey s.cfg covers.tokens
  have values : (r.row.take n).take (s.cfg.keyLen n) = r.row.take (s.cfg.keyLen n) := by
    rw [take_take, Nat.min_eq_left keyBound]
  obtain ⟨j, hj⟩ := covers.keyLen_eq v
  have ok : s.cfg.InsertOk (s.cfg.reqKey r n)
      (some ((r.row.take n).take (s.cfg.reqKey r n).len)) := by
    constructor
    · intro u hu
      rw [← Option.some.inj hu, ← length_units, units_viewKey_reqKey, length_units, size, values, length_take]
      omega
    · intro events t ht
      exact v.small events t (tokenIds_reqKey s.cfg ht)
  obtain ⟨prefixLen, s', G', ran, ins⟩ := insert_spec h enabled ok chunked priority
  rw [units_viewKey_reqKey, units_reqKey s.cfg covers.tokens, viewValue_reqKey, size, values,
    take_take, Nat.min_self] at ins
  cases ins with
  | @present _ _ node r' live word =>
    refine ⟨_, s', G', j, j, ran, r'.cfg, r'.freed, b.reshape r', fun m hm => keeps_reshape h r' hm,
      ⟨node, live, word.symm⟩, ?_, hj, le_rfl, ?_⟩
    · rw [length_take_keyLen s.cfg covers.tokens, hj]
    · have none : ((r.ownPages s.pageSize).take j).drop j = [] :=
        drop_eq_nil_of_le (length_take_le _ _)
      have after := st.reshape h r'
      simpa [none] using after
  | @grown t _ G₁ node k _ r' word depth g e =>
    have ht := r'.inv h
    have page : t.pageSize = s.pageSize := r'.pageSize
    have vt := v.keep (keeps_reshape h r' v.live) r'.cfg
    have deep : r.cacheProtectedLen ≤ (G₁.along (segOf t.nodes) node).length := by
      have word' := word
      rw [← r'.cfg] at word' covered
      exact vt.depth_le ht covered g.live word' g.free
    obtain ⟨i, hi⟩ : ∃ i, prefixLen = r.cacheProtectedLen + i * s.pageSize := by
      have paged := ht.tree.labelled.path_paged g.live
      rw [page] at paged
      obtain ⟨i, hi⟩ := Nat.dvd_sub paged v.paged
      refine ⟨i, ?_⟩
      rw [Nat.mul_comm] at hi
      omega
    have shallow : prefixLen ≤ s.cfg.keyLen n := by
      have lengths := congrArg length word
      rw [length_take_keyLen s.cfg covers.tokens, length_append] at lengths
      omega
    have le : i ≤ j := by
      have : i * s.pageSize ≤ j * s.pageSize := by omega
      exact Nat.le_of_mul_le_mul_right this pos
    have fills : Fills t.pageSize ((r.row.take (s.cfg.keyLen n)).drop prefixLen)
        (((r.ownPages s.pageSize).take j).drop i) := by
      rw [page, hj, hi]
      exact v.piece h (by omega)
    refine ⟨prefixLen, s', _, i, j, ran, e.cfg.trans r'.cfg, ?_, (b.reshape r').hang g e, ?_, ?_, hi, hj,
      le, (st.reshape h r').hang ht e fills⟩
    · rw [e.rest]
      exact r'.freed
    · intro m hm
      have first := keeps_reshape h r' hm
      exact first.trans (keeps_hang ht e first.live)
    · refine ⟨t.counter, Finset.mem_insert_self _ _, ?_⟩
      have new : segOf s'.nodes t.counter = k.units := congrArg RadixKey.units e.new_key
      rw [ht.tree.shape.attach_along_new (f := segOf t.nodes) g.live
        (fun m hm _ => e.links.keys.seg (ht.tree.ne_next hm)), new]
      exact word.symm

theorem slots_of_word (h : Inv s G) {m m' : NodeId} (live : m ∈ G.live) (live' : m' ∈ G.live)
    (within : G.along (segOf s.nodes) m <+: G.along (segOf s.nodes) m') :
    G.along (valOf s.nodes) m =
      (G.along (valOf s.nodes) m').take (G.along (segOf s.nodes) m).length := by
  refine h.tree.cached_unique (h.tree.cached_word live) (h.tree.cached_iff.mpr ?_)
  exact ⟨h.tree.labelled.path_paged live, m', live', within, rfl⟩

theorem count_ownPages (own : List Nat) (le : i ≤ j) (q : Nat) :
    own.count q = (own.take i).count q + ((own.take j).drop i).count q + (own.drop j).count q := by
  conv_lhs => rw [← take_append_drop j own, count_append,
    ← take_append_drop i (own.take j), count_append, take_take, Nat.min_eq_left le]

theorem match_req_spec (h : Inv s G) (enabled : s.cfg.disable = false) (tokens : n ≤ r.tokenIds.length)
    (present : ∃ node ∈ G.live,
      G.along (segOf s.nodes) node = (r.units s.cfg.isEagle).take (s.cfg.keyLen n)) :
    ∃ m s' G', s.matchPrefix (s.cfg.reqKey r n) = .ok (m, s') ∧ Reshape s G s' G' ∧
      m.lastDeviceNode ∈ G'.live ∧ m.deviceIndices = G'.along (valOf s'.nodes) m.lastDeviceNode ∧
      G'.along (segOf s'.nodes) m.lastDeviceNode =
        (r.units s.cfg.isEagle).take (s.cfg.keyLen n) := by
  obtain ⟨m, s', G', ran, reshape, live, here, longest⟩ := matchPrefix_spec h enabled (s.cfg.reqKey r n)
  rw [units_viewKey_reqKey, units_reqKey s.cfg tokens] at longest
  refine ⟨m, s', G', ran, reshape, live, here, ?_⟩
  obtain ⟨node, nodeLive, word⟩ := present
  have cached := h.tree.cached_word nodeLive
  rw [word] at cached
  have whole : (r.units s.cfg.isEagle).take (s.cfg.keyLen n) =
      ((r.units s.cfg.isEagle).take (s.cfg.keyLen n)).take
        ((r.units s.cfg.isEagle).take (s.cfg.keyLen n)).length := take_length.symm
  rw [whole] at cached
  exact longest.within.eq_of_length_le (longest.longest _ _ le_rfl cached)

def Req.recached (r : Req) (n : Nat) (newIndices : List Slot) (node : NodeId) : Req :=
  { r with
    row := r.row.take r.cacheProtectedLen ++ newIndices.drop r.cacheProtectedLen ++
      r.row.drop newIndices.length
    cacheProtectedLen := newIndices.length
    prefixIndices :=
      if newIndices.length < (r.row.take n).length then
        newIndices ++ (r.row.take n).drop newIndices.length
      else newIndices
    lastNode := node }

theorem Served.recached (v : Served s G r) (h : Inv s G) (covers : Covers s.cfg r n)
    {node : NodeId} (live : node ∈ G.live)
    (word : G.along (segOf s.nodes) node = (r.units s.cfg.isEagle).take (s.cfg.keyLen n))
    (hj : s.cfg.keyLen n = r.cacheProtectedLen + j * s.pageSize) :
    Served s G (r.recached n (G.along (valOf s.nodes) node) node) ∧
      (r.recached n (G.along (valOf s.nodes) node) node).ownPages s.pageSize =
        (r.ownPages s.pageSize).drop j := by
  have pos := h.tree.page_pos
  have covered := covers.keyLen_ge v
  have size : (G.along (valOf s.nodes) node).length = s.cfg.keyLen n := by
    rw [h.tree.length_along live, word, length_take_keyLen s.cfg covers.tokens]
  have within : G.along (segOf s.nodes) r.lastNode <+: G.along (segOf s.nodes) node := by
    rw [v.word, word]
    exact take_prefix_take_left covered
  have old := slots_of_word h v.live live within
  rw [v.length_word h, v.slots] at old
  generalize hnew : G.along (valOf s.nodes) node = new at size old ⊢
  have row : (r.recached n new node).row = new ++ r.row.drop (s.cfg.keyLen n) := by
    change r.row.take _ ++ new.drop _ ++ r.row.drop new.length = _
    rw [old, take_append_drop, size]
  have rest : (r.recached n new node).row.drop (s.cfg.keyLen n) = r.row.drop (s.cfg.keyLen n) := by
    rw [row]
    exact drop_left' size
  have tail : Fills s.pageSize (r.row.drop (s.cfg.keyLen n)) ((r.ownPages s.pageSize).drop j) := by
    rw [hj, ← drop_drop]
    exact v.fills.drop pos j
  have own : (r.recached n new node).ownPages s.pageSize = (r.ownPages s.pageSize).drop j := by
    change pageList s.pageSize ((r.recached n new node).row.drop new.length) = _
    rw [size, rest, tail.pageList_eq pos]
  have atEnd : (r.recached n new node).cacheProtectedLen = s.cfg.keyLen n := size
  refine ⟨⟨live, ?_, ?_, ?_, ?_, ?_, ?_, v.small⟩, own⟩
  · rw [atEnd]
    exact word
  · rw [atEnd, row, take_left' size]
    exact hnew
  · rw [atEnd, row, length_append]
    omega
  · rw [atEnd]
    exact dvd_pageFloor _ _
  · rw [row]
    change (if new.length < (r.row.take n).length then _ else new) <+: _
    split
    · rw [size, drop_take]
      exact (prefix_append_right_inj new).mpr (List.take_prefix _ _)
    · exact prefix_append _ _
  · rw [atEnd, rest, own]
    exact tail

structure Relocked (s s' : RadixCache) (G : Outline) (L : List NodeId) : Prop where
  cfg_eq : s'.cfg = s.cfg
  freed : s'.freed = s.freed
  books : Books s' G L
  keeps : ∀ k ∈ G.live, Keeps s G s' G k
  stock : ∀ count, Stock s G count → Stock s' G count

theorem release_lock_spec {node : NodeId} (b : Books s G (node :: L))
    (enabled : s.cfg.disable = false) :
    ∃ d s', s.decLockRef node = .ok (d, s') ∧ Relocked s s' G L := by
  have first : node ∈ node :: L := mem_cons_self
  obtain ⟨s', ran, e⟩ := decLockRef_spec b.inv (b.held _ first) enabled
  have books := b.dec first e
  rw [erase_cons_head] at books
  exact ⟨_, s', ran, e.cfg, by rw [e.rest], books, fun k hk => keeps_locks e hk, fun _ st => st.locks e⟩

theorem take_lock_spec {node : NodeId} (b : Books s G L) (live : node ∈ G.live)
    (enabled : s.cfg.disable = false) :
    ∃ d s', s.incLockRef node = .ok (d, s') ∧ Relocked s s' G (node :: L) := by
  obtain ⟨s', ran, e⟩ := incLockRef_spec b.inv live enabled
  exact ⟨_, s', ran, e.cfg, by rw [e.rest], b.inc live e, fun k hk => keeps_locks e hk,
    fun _ st => st.locks e⟩

theorem Served.slice_fills (v : Served s G r) (h : Inv s G) (covers : Covers s.cfg r n)
    (inside : r.cacheProtectedLen + i * s.pageSize ≤ n) :
    Fills s.pageSize (pySlice (r.row.take n) r.cacheProtectedLen (r.cacheProtectedLen + i * s.pageSize))
      ((r.ownPages s.pageSize).take i) := by
  have part := v.piece h (i := 0) (j := i) (inside.trans covers.slots)
  rw [Nat.zero_mul, Nat.add_zero, drop_zero] at part
  rw [pySlice, take_take, Nat.min_eq_left inside]
  exact part

theorem Inserted.dup_fills {prefixLen : Nat}
    (ins : Inserted s G L count r n prefixLen s' G' i j) (v : Served s G r) (h : Inv s G)
    (covers : Covers s.cfg r n) :
    Fills s.pageSize (pySlice (r.row.take n) r.cacheProtectedLen prefixLen)
      ((r.ownPages s.pageSize).take i) := by
  have within : i * s.pageSize ≤ j * s.pageSize := Nat.mul_le_mul_right _ ins.le
  have keyBound := keyLen_le s.cfg n
  have whole := ins.whole
  rw [ins.found]
  exact v.slice_fills h covers (by omega)

theorem cacheUnfinishedReq_spec {others : List Req} {f : Nat → Int}
    (c : Holding cfg s G (r :: others) f) (enabled : cfg.disable = false)
    (covers : Covers s.cfg r n) (chunked : Bool) :
    ∃ r' s' G' vs gs, s.cacheUnfinishedReq r n chunked = .ok (r', s') ∧ s'.freed = s.freed ++ vs ∧
      Forall₂ (Fills cfg.pageSize) vs gs ∧
      Holding cfg s' G' (r' :: others) (fun q => f q - gs.flatten.count q) := by
  obtain ⟨⟨rfl, books, -⟩, served, stock⟩ := c
  have v := served r mem_cons_self
  have tokens : (r.tokenIds.take n).length = n := length_take_of_le covers.tokens
  have key : (r.radixKey s.cfg.isEagle (r.tokenIds.take n)).pageAligned s.pageSize = s.cfg.reqKey r n :=
    rfl
  have size := len_reqKey s.cfg covers.tokens
  obtain ⟨prefixLen, s₁, G₁, i, j, ran₁, ins⟩ :=
    insert_req_spec books v stock enabled covers chunked r.priority
  have dupFills := ins.dup_fills v books.inv covers
  generalize hdup : pySlice (r.row.take n) r.cacheProtectedLen prefixLen = dup at dupFills
  have books₂ := ins.books.allocatorFree dup
  have sameKey : (s₁.allocatorFree dup).cfg = s.cfg := ins.cfg_eq
  obtain ⟨m, s₃, G₃, ran₂, reshape, live, here, word⟩ :=
    match_req_spec (r := r) (n := n) books₂.inv (by rw [sameKey, enabled]) covers.tokens
      (by rw [sameKey]; exact ins.present)
  rw [sameKey] at ran₂ word
  have cfg₃ : s₃.cfg = s.cfg := reshape.cfg.trans ins.cfg_eq
  have books₃ := books₂.reshape reshape
  -- The lock moves from the old node to the new one.
  obtain ⟨d₄, s₄, ran₃, less⟩ := release_lock_spec books₃ (by rw [cfg₃, enabled])
  have cfg₄ : s₄.cfg = s.cfg := less.cfg_eq.trans cfg₃
  obtain ⟨d₅, s₅, ran₄, more⟩ := take_lock_spec less.books live (by rw [cfg₄, enabled])
  have cfg₅ : s₅.cfg = s.cfg := more.cfg_eq.trans cfg₄
  have page : s₅.pageSize = s.pageSize := by rw [RadixCache.pageSize, cfg₅]
  have same : ∀ k ∈ G₃.live, Keeps s₃ G₃ s₅ G₃ k := fun k hk =>
    (less.keeps k hk).trans (more.keeps k hk)
  have keeps : ∀ k ∈ G.live, Keeps s G s₅ G₃ k := by
    intro k hk
    have one := (ins.keeps k hk).trans (keeps_allocatorFree dup (ins.keeps k hk).live)
    have two := one.trans (keeps_reshape books₂.inv reshape one.live)
    exact two.trans (same k two.live)
  -- The request reads the path of its whole key from here on.
  have word₅ : G₃.along (segOf s₅.nodes) m.lastDeviceNode =
      (r.units s₅.cfg.isEagle).take (s₅.cfg.keyLen n) := by
    rw [(same _ live).word, word, cfg₅]
  have here₅ : m.deviceIndices = G₃.along (valOf s₅.nodes) m.lastDeviceNode :=
    here.trans (same _ live).slots.symm
  obtain ⟨served₅, own₅⟩ := (v.keep (keeps _ v.live) cfg₅).recached more.books.inv (cfg₅ ▸ covers) live
    word₅ (by rw [cfg₅, page]; exact ins.whole)
  rw [← here₅] at served₅ own₅
  rw [page] at own₅
  have newLen : m.deviceIndices.length = s.cfg.keyLen n := by
    rw [here, (reshape.inv books₂.inv).tree.length_along live, word,
      length_take_keyLen s.cfg covers.tokens]
  refine ⟨r.recached n m.deviceIndices m.lastDeviceNode, s₅, G₃, [dup],
    [(r.ownPages s.pageSize).take i], ?_, ?_, .cons dupFills .nil, ⟨cfg₅, more.books, ?_⟩, ?_, ?_⟩
  · rw [← size] at newLen
    simp only [cacheUnfinishedReq, enabled, tokens, key, ran₁, hdup, ran₂, newLen, ran₃, ran₄, bind,
      Except.bind, Bool.false_eq_true, if_false, ne_eq, not_true]
    rw [← newLen]
    rfl
  · rw [more.freed, less.freed, reshape.freed]
    exact congrArg (· ++ [dup]) ins.freed
  · simp [enabled]
  · refine forall_mem_cons.mpr ⟨served₅, fun k hk => ?_⟩
    have old := served k (mem_cons_of_mem _ hk)
    exact old.keep (keeps _ old.live) cfg₅
  · have after := more.stock _ (less.stock _ ((ins.stock.allocatorFree dup).reshape books₂.inv reshape))
    refine ⟨after.filled, fun q => ?_⟩
    have parts := count_ownPages (r.ownPages s.pageSize) ins.le q
    rw [after.count_eq q, reqCount_cons, reqCount_cons]
    rw [own₅, flatten_singleton]
    change f q - (((r.ownPages s.pageSize).count q : Int) + _) + _ = _
    omega

structure Released (s : RadixCache) (G : Outline) (L : List NodeId) (count : Nat → Int) (r : Req)
    (j : Nat) (s' : RadixCache) (G' : Outline) (v : List Slot) (g : List Nat) : Prop where
  cfg_eq : s'.cfg = s.cfg
  freed : s'.freed = s.freed ++ [v]
  fills : Fills s.pageSize v g
  books : Books s' G' L
  keeps : ∀ m ∈ G.live, Keeps s G s' G' m
  stock : Stock s' G' (fun q => count q + ((r.ownPages s.pageSize).take j).count q - g.count q)

theorem releaseKey_spec (b : Books s G L) (v : Served s G r)
    (st : Stock s G count) (enabled : s.cfg.disable = false) (covers : Covers s.cfg r n)
    (isInsert : Bool) :
    ∃ s' G' j idx g, s.releaseKey r isInsert (s.cfg.reqKey r n) (r.row.take n) = .ok s' ∧
      s.cfg.keyLen n = r.cacheProtectedLen + j * s.pageSize ∧
      Released s G L count r j s' G' idx g := by
  cases isInsert with
  | true =>
    obtain ⟨prefixLen, s₁, G₁, i, j, ran, ins⟩ := insert_req_spec b v st enabled covers false r.priority
    have dupFills := ins.dup_fills v b.inv covers
    refine ⟨s₁.allocatorFree (pySlice (r.row.take n) r.cacheProtectedLen prefixLen), G₁, j, _, _, ?_,
      ins.whole, ins.cfg_eq, congrArg (· ++ [_]) ins.freed, dupFills, ins.books.allocatorFree _,
      fun m hm => (ins.keeps m hm).trans (keeps_allocatorFree _ (ins.keeps m hm).live), ?_⟩
    · simp only [releaseKey, if_true, ran, ok_bind]
      rfl
    · have after := ins.stock.allocatorFree (pySlice (r.row.take n) r.cacheProtectedLen prefixLen)
      refine ⟨after.filled, fun q => ?_⟩
      have parts := count_ownPages (r.ownPages s.pageSize) ins.le q
      have whole := count_ownPages (r.ownPages s.pageSize) (Nat.zero_le j) q
      rw [take_zero, count_nil, drop_zero] at whole
      rw [after.count_eq q]
      omega
  | false =>
    obtain ⟨j, hj⟩ := covers.keyLen_eq v
    have inside : r.cacheProtectedLen + j * s.pageSize ≤ n := hj ▸ keyLen_le s.cfg n
    have fills := v.slice_fills b.inv covers inside
    rw [← hj, ← len_reqKey s.cfg covers.tokens] at fills
    have after := st.allocatorFree (pySlice (r.row.take n) r.cacheProtectedLen (s.cfg.reqKey r n).len)
    refine ⟨_, G, j, _, _, rfl, hj, rfl, rfl, fills, b.allocatorFree _,
      fun m hm => keeps_allocatorFree _ hm, after.filled, fun q => ?_⟩
    rw [after.count_eq q]
    omega

section

variable (v : Served s G r) (h : Inv s G)
include v h

theorem Served.tail_fills (covers : Covers s.cfg r n)
    (hj : s.cfg.keyLen n = r.cacheProtectedLen + j * s.pageSize) :
    Fills s.pageSize ((r.row.take n).drop (s.cfg.keyLen n))
      (((r.ownPages s.pageSize).take (ceil s.pageSize (n - r.cacheProtectedLen))).drop j) := by
  have pos := h.tree.page_pos
  have slotBound := covers.slots
  have part : (r.row.take n).drop (s.cfg.keyLen n) =
      ((r.row.drop r.cacheProtectedLen).take (n - r.cacheProtectedLen)).drop (j * s.pageSize) := by
    rw [hj, ← drop_take, drop_drop]
  rw [part]
  refine (v.fills.takeSlots pos ?_).drop pos j
  rw [length_drop]
  omega

theorem Served.rest_fills (covers : Covers s.cfg r n) :
    Fills s.pageSize (r.row.drop (ceil s.pageSize n * s.pageSize))
      ((r.ownPages s.pageSize).drop (ceil s.pageSize (n - r.cacheProtectedLen))) := by
  have pos := h.tree.page_pos
  have cached := covers.cached
  obtain ⟨p, hp⟩ := v.paged
  have start : ceil s.pageSize n * s.pageSize =
      r.cacheProtectedLen + ceil s.pageSize (n - r.cacheProtectedLen) * s.pageSize := by
    have split : n = p * s.pageSize + (n - r.cacheProtectedLen) := by
      rw [Nat.mul_comm, ← hp]
      omega
    conv_lhs => rw [split, ceil_add_mul pos, Nat.add_mul, Nat.mul_comm p, ← hp]
  rw [start, ← drop_drop]
  exact v.fills.drop pos _

theorem Served.uncached (bare : G.live = {s.rootNode}) : r.cacheProtectedLen = 0 := by
  have live := v.live
  rw [bare] at live
  rw [← v.length_word h, Finset.mem_singleton.mp live]
  exact congrArg length (h.tree.shape.along_root _)

end

theorem cacheFinishedReq_spec {others : List Req} {f : Nat → Int}
    (c : Holding cfg s G (r :: others) f) (covers : Covers s.cfg r n) (isInsert : Bool) :
    ∃ s' G' vs gs, s.cacheFinishedReq r n isInsert = .ok s' ∧ s'.freed = s.freed ++ vs ∧
      Forall₂ (Fills cfg.pageSize) vs gs ∧
      Holding cfg s' G' others (fun q => f q - gs.flatten.count q -
        ((r.ownPages cfg.pageSize).drop (ceil cfg.pageSize (n - r.cacheProtectedLen))).count q) := by
  obtain ⟨⟨rfl, books, bare⟩, served, stock⟩ := c
  have v := served r mem_cons_self
  have h := books.inv
  cases disabled : s.cfg.disable with
  | true =>
    -- A disabled cache holds nothing, so all slots of the request are its own.
    have none := v.uncached h (bare disabled)
    have fills := v.fills.takeSlots h.tree.page_pos (n := n - r.cacheProtectedLen)
      (by rw [length_drop]; exact Nat.sub_le_sub_right covers.slots _)
    have after := stock.allocatorFree (r.row.take n)
    have held : ∀ m ∈ others.map Req.lastNode, m ∈ G.live := fun m hm =>
      books.held m (mem_cons_of_mem _ hm)
    rw [none, Nat.sub_zero, drop_zero] at fills
    refine ⟨s.allocatorFree (r.row.take n), G, [r.row.take n], [_], ?_, rfl, .cons fills .nil,
      ⟨rfl, (books.of_bare (bare disabled) held).allocatorFree _, bare⟩, ?_, after.filled, fun q => ?_⟩
    · simp only [cacheFinishedReq, disabled, if_true]
    · intro k hk
      have old := served k (mem_cons_of_mem _ hk)
      exact old.keep (keeps_allocatorFree _ old.live) rfl
    · have parts := count_ownPages (r.ownPages s.pageSize)
        (Nat.zero_le (ceil s.pageSize n)) q
      rw [take_zero, count_nil, drop_zero] at parts
      rw [after.count_eq q, reqCount_cons, flatten_singleton, none, Nat.sub_zero]
      change f q - (((r.ownPages s.pageSize).count q : Int) + _) =
        f q - _ - (((r.ownPages s.pageSize).drop (ceil s.pageSize n)).count q : Int) - _
      omega
  | false =>
    have tokens : (r.tokenIds.take n).length = n := length_take_of_le covers.tokens
    have key : (r.radixKey s.cfg.isEagle (r.tokenIds.take n)).pageAligned s.pageSize = s.cfg.reqKey r n :=
      rfl
    have size := len_reqKey s.cfg covers.tokens
    generalize hins : (if s.cfg.disableFinishedInsert then false else isInsert) = ins
    obtain ⟨s₁, G₁, j, idx, g, ran₁, hj, rel⟩ := releaseKey_spec books v stock disabled covers ins
    have tailFills := v.tail_fills h covers hj
    rw [← size] at tailFills
    generalize htail : (r.row.take n).drop (s.cfg.reqKey r n).len = tail at tailFills
    have books₂ := rel.books.allocatorFree tail
    have cfg₂ : (s₁.allocatorFree tail).cfg = s.cfg := rel.cfg_eq
    obtain ⟨d, s₃, ran₂, less⟩ := release_lock_spec books₂ (by rw [cfg₂, disabled])
    have cfg₃ : s₃.cfg = s.cfg := less.cfg_eq.trans cfg₂
    refine ⟨s₃, G₁, [idx, tail], [g, _], ?_, ?_, .cons rel.fills (.cons tailFills .nil),
      ⟨cfg₃, less.books, ?_⟩, ?_, ?_⟩
    · simp only [cacheFinishedReq, disabled, tokens, key, hins, ran₁, htail, ran₂, ok_bind,
        Bool.false_eq_true, if_false]
      rfl
    · rw [less.freed]
      change s₁.freed ++ [tail] = _
      rw [rel.freed, append_assoc]
      rfl
    · simp [disabled]
    · intro k hk
      have old := served k (mem_cons_of_mem _ hk)
      have keep := rel.keeps _ old.live
      have keep₂ := keep.trans (keeps_allocatorFree tail keep.live)
      exact old.keep (keep₂.trans (less.keeps _ keep₂.live)) cfg₃
    · have after := less.stock _ (rel.stock.allocatorFree tail)
      refine ⟨after.filled, fun q => ?_⟩
      have within : j ≤ ceil s.pageSize (n - r.cacheProtectedLen) := by
        have keyBound := keyLen_le s.cfg n
        rw [← ceil_mul h.tree.page_pos j]
        exact ceil_mono h.tree.page_pos (by omega)
      have parts := count_ownPages (r.ownPages s.pageSize) within q
      rw [after.count_eq q, reqCount_cons, flatten_cons, flatten_singleton, count_append]
      change f q - (((r.ownPages s.pageSize).count q : Int) + _) + _ - _ =
        f q - _ - (((r.ownPages s.pageSize).drop (ceil s.pageSize _)).count q : Int) - _
      push_cast
      omega

end RedKnot.Radix
