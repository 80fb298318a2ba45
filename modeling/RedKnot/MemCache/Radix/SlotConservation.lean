import RedKnot.MemCache.Radix.Handover

/-! Conservation of KV slots over whole runs: each page of the pool is in one place. -/

namespace RedKnot.Radix

open LinkedTree NodeHeap RadixKey Allocator Pages RadixCache Finset List Nat Serving Heapq Holding Req PagedAllocator

variable {cfg : Config} {size : Nat} {s s' : RadixCache} {G G' : Outline} {S : Serving} {r : Req}

variable {reqs : List Req} {allocated : List Nat}

theorem Custody.handOver (c : Custody cfg size S)
    {vs : List (List Slot)} {gs : List (List Nat)} (pool : Conserves S.pool allocated)
    (freed : s'.freed = S.cache.freed ++ vs) (fills : Forall₂ (Fills cfg.pageSize) vs gs)
    (after : Holding cfg s' G' reqs (fun q => allocated.count q - gs.flatten.count q)) :
    Custody cfg size { S.withCache s' with reqs := reqs } := by
  have pos : 0 < cfg.pageSize := after.kept.cfg_eq ▸ after.kept.books.inv.tree.page_pos
  have calls : s'.freed.drop S.cache.freed.length = vs := by rw [freed, drop_left]
  obtain ⟨left, held, kept⟩ := settle pos pool c.pageSize c.outside fills after
  rw [← calls] at kept
  have same := freeAll_config (s'.freed.drop S.cache.freed.length) S.pool
  exact ⟨⟨G', left, held, kept⟩, same.size.trans c.size, same.pageSize.trans c.pageSize,
    same.group.trans c.outside⟩

theorem Custody.quiet (c : Custody cfg size S)
    (pool : Conserves S.pool allocated) (freed : s'.freed = S.cache.freed)
    (after : Holding cfg s' G' reqs (fun q => allocated.count q)) :
    Custody cfg size { S.withCache s' with reqs := reqs } := by
  have nothing : Forall₂ (Fills cfg.pageSize) [] [] := .nil
  exact c.handOver pool (by rw [freed, append_nil]) nothing (by simpa using after)

theorem units_viewKey_addReq (cfg : Config) (r : Req) (m : Nat) :
    (cfg.viewKey { tokenIds := r.tokenIds.take m, extraKey := r.extraKey }).units <+:
      r.units cfg.isEagle := by
  have view : (maybeToBigramView { tokenIds := r.tokenIds.take m, extraKey := r.extraKey } cfg.isEagle
      (none : Option (List Slot))).1 = r.radixKey cfg.isEagle (r.tokenIds.take m) := by
    unfold maybeToBigramView radixKey
    cases cfg.isEagle <;> rfl
  rw [Config.viewKey, view, units_pageAligned, units_radixKey_take]
  exact (List.take_prefix _ _).trans (List.take_prefix _ _)

def Req.admitted (r : Req) (slots : List Slot) (node : NodeId) : Req :=
  { r with row := slots, prefixIndices := slots, cacheProtectedLen := slots.length, lastNode := node }

theorem Req.ownPages_admitted {P : Nat} (pos : 0 < P) (slots : List Slot) (node : NodeId) :
    (r.admitted slots node).ownPages P = [] := by
  change pageList P (slots.drop slots.length) = _
  rw [drop_length, pageList_nil pos]

theorem served_admitted {node : NodeId} (h : Inv s G) (live : node ∈ G.live)
    (within : G.along (segOf s.nodes) node <+: r.units s.cfg.isEagle)
    (small : s.cfg.enableKvCacheEvents = true → ∀ t ∈ r.tokenIds, t < 2 ^ 32) :
    Served s G (r.admitted (G.along (valOf s.nodes) node) node) := by
  have pos := h.tree.page_pos
  have size := h.tree.length_along live
  refine ⟨live, ?_, ?_, le_rfl, ?_, prefix_rfl, ?_, small⟩
  · change _ = (r.units s.cfg.isEagle).take (G.along (valOf s.nodes) node).length
    rw [size]
    exact prefix_iff_eq_take.mp within
  · exact take_length.symm
  · change _ ∣ (G.along (valOf s.nodes) node).length
    rw [size]
    exact h.tree.labelled.path_paged live
  · rw [ownPages_admitted pos]
    change Fills _ ((G.along (valOf s.nodes) node).drop (G.along (valOf s.nodes) node).length) _
    rw [drop_length]
    exact fills_nil pos

variable {f : Nat → Int}

theorem Holding.add (kept : Kept cfg s G (r.lastNode :: reqs.map lastNode))
    (served : Served s G r) (others : ∀ k ∈ reqs, Served s G k) (none : r.ownPages cfg.pageSize = [])
    (stock : Stock s G (fun q => f q - reqCount cfg.pageSize reqs q)) :
    Holding cfg s G (r :: reqs) f := by
  refine ⟨kept, forall_mem_cons.mpr ⟨served, others⟩, stock.filled, fun q => ?_⟩
  rw [stock.count_eq q, reqCount_cons, none]
  simp

theorem admitReq_spec (c : Holding cfg s G reqs f) (m : Nat)
    (small : cfg.enableKvCacheEvents = true → ∀ t ∈ r.tokenIds, t < 2 ^ 32) :
    ∃ r' s' G', s.admitReq r m = .ok (r', s') ∧ s'.freed = s.freed ∧
      Holding cfg s' G' (r' :: reqs) f := by
  obtain ⟨⟨rfl, books, bare⟩, served, stock⟩ := c
  have h := books.inv
  have pos := h.tree.page_pos
  cases disabled : s.cfg.disable with
  | true =>
    have slots : G.along (valOf s.nodes) s.rootNode = [] := h.tree.shape.along_root _
    have word : G.along (segOf s.nodes) s.rootNode = [] := h.tree.shape.along_root _
    have new := served_admitted (r := r) h h.tree.root_live (by rw [word]; exact nil_prefix) small
    rw [slots] at new
    have held : ∀ k ∈ s.rootNode :: reqs.map lastNode, k ∈ G.live :=
      forall_mem_cons.mpr ⟨h.tree.root_live, books.held⟩
    refine ⟨r.admitted [] s.rootNode, s, G, ?_, rfl,
      .add ⟨rfl, books.of_bare (bare disabled) held, bare⟩ new served
        (ownPages_admitted pos _ _) stock⟩
    simp [admitReq, RadixCache.matchPrefix, incLockRef, disabled, ok_bind]
    rfl
  | false =>
    obtain ⟨a, s₁, G₁, ran₁, reshape, live, here, longest⟩ :=
      matchPrefix_spec h disabled { tokenIds := r.tokenIds.take m, extraKey := r.extraKey }
    have books₁ := books.reshape reshape
    obtain ⟨d, s₂, ran₂, more⟩ := take_lock_spec books₁ live (by rw [reshape.cfg, disabled])
    have cfg₂ : s₂.cfg = s.cfg := more.cfg_eq.trans reshape.cfg
    have keep := more.keeps _ live
    have within := longest.within.trans (units_viewKey_addReq s.cfg r m)
    have new := served_admitted (r := r) more.books.inv live (by rw [keep.word, cfg₂]; exact within)
      (cfg₂ ▸ small)
    rw [keep.slots, ← here] at new
    refine ⟨r.admitted a.deviceIndices a.lastDeviceNode, s₂, G₁, ?_, more.freed.trans reshape.freed,
      .add (.of_enabled more.books cfg₂ disabled) new ?_ (ownPages_admitted pos _ _)
        (more.stock _ (stock.reshape h reshape))⟩
    · simp only [admitReq, ran₁, ran₂, ok_bind]
      rfl
    · intro k hk
      have old := served k hk
      have first := keeps_reshape h reshape old.live
      exact old.keep (first.trans (more.keeps _ first.live)) cfg₂

def Req.appended (r : Req) (token : Token) : Req := { r with tokenIds := r.tokenIds ++ [token] }

theorem Served.appended (v : Served s G r) (h : Inv s G) {token : Token}
    (small : s.cfg.enableKvCacheEvents = true → token < 2 ^ 32) : Served s G (r.appended token) := by
  have units : r.units s.cfg.isEagle = ((r.appended token).units s.cfg.isEagle).take
      (unitLen s.cfg.isEagle r.tokenIds.length) := by
    rw [← units_radixKey_take]
    change _ = (r.radixKey s.cfg.isEagle ((r.tokenIds ++ [token]).take r.tokenIds.length)).units
    rw [take_left]
    rfl
  have short := v.short h
  rw [length_units_req] at short
  refine { v with word := ?_, small := ?_ }
  · have word := v.word
    rw [units, take_take, Nat.min_eq_left short] at word
    exact word
  · intro events t ht
    rcases mem_append.mp ht with ht | ht
    · exact v.small events t ht
    · rw [List.mem_singleton.mp ht]
      exact small events

def Req.extended (r : Req) (out : List Slot) : Req := { r with row := r.row ++ out }

theorem Served.extended (v : Served s G r) (h : Inv s G) (filled : s.Filled G) {out : List Slot}
    {new : List Nat}
    (fills : Fills s.pageSize (r.row ++ out)
      (G.along s.nodePages r.lastNode ++ r.ownPages s.pageSize ++ new)) :
    Served s G (r.extended out) ∧
      (r.extended out).ownPages s.pageSize = r.ownPages s.pageSize ++ new := by
  have pos := h.tree.page_pos
  obtain ⟨first, paged⟩ := fills_along h filled v.live
  have size : (G.along (valOf s.nodes) r.lastNode).length = r.cacheProtectedLen := by
    rw [v.slots, length_take_of_le v.inside]
  have prefixPages : r.cacheProtectedLen = (G.along s.nodePages r.lastNode).length * s.pageSize := by
    rw [← size, first.whole pos paged, length_slots]
  have rest : Fills s.pageSize ((r.row ++ out).drop r.cacheProtectedLen)
      (r.ownPages s.pageSize ++ new) := by
    have tail := fills.drop pos (G.along s.nodePages r.lastNode).length
    rwa [← prefixPages, append_assoc, drop_left] at tail
  have own : (r.extended out).ownPages s.pageSize = r.ownPages s.pageSize ++ new :=
    rest.pageList_eq pos
  refine ⟨{ v with
    slots := ?_
    inside := ?_
    prefixed := v.prefixed.trans (prefix_append _ _)
    fills := ?_ }, own⟩
  · change _ = (r.row ++ out).take r.cacheProtectedLen
    rw [take_append_of_le_length v.inside]
    exact v.slots
  · exact v.inside.trans (by simp [Req.extended])
  · rw [own]
    exact rest

theorem Holding.replace {r' : Req} {others : List Req} {new : List Nat}
    (c : Holding cfg s G (r :: others) f) (served : Served s G r') (node : r'.lastNode = r.lastNode)
    (own : r'.ownPages cfg.pageSize = r.ownPages cfg.pageSize ++ new) :
    Holding cfg s G (r' :: others) (fun q => f q + new.count q) := by
  refine ⟨?_, forall_mem_cons.mpr ⟨served, (forall_mem_cons.mp c.served).2⟩, c.stock.filled,
    fun q => ?_⟩
  · have kept := c.kept
    rw [List.map_cons, ← node] at kept
    exact kept
  · rw [c.stock.count_eq q, reqCount_cons, reqCount_cons, own, count_append]
    push_cast
    ring

variable {i n : Nat}

theorem Holding.single (c : Holding cfg s G reqs f)
    (there : reqs[i]? = some r) : Holding cfg s G (r :: reqs.eraseIdx i) f := by
  obtain ⟨inside, rfl⟩ := List.getElem?_eq_some_iff.mp there
  exact c.perm (getElem_cons_eraseIdx_perm inside).symm

theorem Holding.put {r' : Req}
    (there : reqs[i]? = some r) (c : Holding cfg s G (r' :: reqs.eraseIdx i) f) :
    Holding cfg s G (reqs.set i r') f := by
  obtain ⟨inside, -⟩ := List.getElem?_eq_some_iff.mp there
  exact c.perm (set_perm_cons_eraseIdx inside r').symm

theorem Serving.req_eq (there : S.reqs[i]? = some r) : S.req i = .ok r := by
  simp only [req, pyGet, there]

theorem Holding.served_at (c : Holding cfg s G reqs f) (there : reqs[i]? = some r) : Served s G r :=
  c.served r (mem_of_getElem? there)

theorem intCount_append (new allocated : List Nat) : (fun q => ((new ++ allocated).count q : Int)) =
      fun q => (allocated.count q : Int) + new.count q := by
  funext q
  rw [count_append]
  push_cast
  ring

section

variable (c : Custody cfg size S)
include c

theorem Custody.pos : 0 < S.pool.pageSize := by
  obtain ⟨G, allocated, held, -⟩ := c.holding
  rw [c.pageSize, ← held.kept.cfg_eq]
  exact held.kept.books.inv.tree.page_pos

theorem Custody.withSlots (there : S.reqs[i]? = some r)
    (call : PagedAllocator → Option (List Slot) × PagedAllocator)
    (grows : ∀ allocated pages, Conserves S.pool allocated →
      Fills S.pool.pageSize r.row pages → Grows S.pool allocated r.row pages n (call S.pool)) :
    Custody cfg size (S.withSlots i (call S.pool) r.extended) := by
  obtain ⟨G, allocated, held, pool⟩ := c.holding
  have v := held.served_at there
  have h := held.kept.books.inv
  have page : S.pool.pageSize = S.cache.pageSize := by
    rw [c.pageSize, RadixCache.pageSize, held.kept.cfg_eq]
  have row := v.row_fills h held.stock.filled
  rw [← page] at row
  have answer := grows allocated _ pool row
  generalize call S.pool = reply at answer
  cases answer with
  | full kept same =>
    exact ⟨⟨G, allocated, held, kept⟩, same.size.trans c.size, same.pageSize.trans c.pageSize,
      same.group.trans c.outside⟩
  | @grown b out new kept same _ fills =>
    rw [page] at fills
    obtain ⟨served, own⟩ := v.extended h held.stock.filled fills
    rw [← page, c.pageSize] at own
    have after := (held.single there).replace served rfl own
    refine ⟨⟨G, new ++ allocated, ?_, kept⟩, same.size.trans c.size, same.pageSize.trans c.pageSize,
      same.group.trans c.outside⟩
    rw [intCount_append]
    exact after.put there

theorem Custody.addReq (hq : Heapq) (tokenIds : List Token)
    (extraKey : Option String) (priority : Int) (maxPrefixLen : Nat)
    (small : S.cache.cfg.enableKvCacheEvents = true → ∀ t ∈ tokenIds, t < 2 ^ 32) :
    ∃ S', S.step hq (.addReq tokenIds extraKey priority maxPrefixLen) = .ok S' ∧ Custody cfg size S' := by
  obtain ⟨G, allocated, held, pool⟩ := c.holding
  rw [held.kept.cfg_eq] at small
  obtain ⟨r', s', G', ran, freed, after⟩ := admitReq_spec
    (r := { tokenIds := tokenIds, extraKey := extraKey, priority := priority }) held maxPrefixLen small
  have appended := after.perm (perm_append_singleton r' S.reqs).symm
  refine ⟨_, ?_, c.quiet pool freed appended⟩
  simp only [step, ran, ok_bind]
  rfl

section

variable (hq : Heapq) (there : S.reqs[i]? = some r)
include there

theorem Custody.output {token : Token}
    (small : S.cache.cfg.enableKvCacheEvents = true → token < 2 ^ 32) :
    ∃ S', S.step hq (.output i token) = .ok S' ∧ Custody cfg size S' := by
  obtain ⟨G, allocated, held, pool⟩ := c.holding
  have served := (held.served_at there).appended held.kept.books.inv small
  have after : Holding cfg S.cache G (r.appended token :: S.reqs.eraseIdx i)
      (fun q => (allocated.count q : Int) + ([] : List Nat).count q) :=
    (held.single there).replace served rfl (append_nil _).symm
  simp only [count_nil, cast_zero, add_zero] at after
  refine ⟨{ S with reqs := S.reqs.set i (r.appended token) }, ?_,
    ⟨G, allocated, after.put there, pool⟩, c.size, c.pageSize, c.outside⟩
  simp only [step, req_eq there, ok_bind]
  rfl

theorem Custody.allocForExtend (whole : r.prefixIndices.length = r.row.length) (n : Nat) :
    ∃ S', S.step hq (.allocForExtend i n) = .ok S' ∧ Custody cfg size S' := by
  obtain ⟨G, allocated, held, -⟩ := c.holding
  have same : r.prefixIndices = r.row := (held.served_at there).prefixed.eq_of_length whole
  have row : r.extended = fun out => { r with row := r.prefixIndices ++ out } := by
    funext out
    simp only [Req.extended, same]
  refine ⟨_, ?_, c.withSlots there (fun a => a.allocForExtend r.row n) fun allocated pages kept fills =>
    grows_allocForExtend c.pos kept fills n⟩
  simp only [step, req_eq there, ok_bind]
  rw [row, ← same]
  rfl

theorem Custody.allocForDecode :
    ∃ S', S.step hq (.allocForDecode i) = .ok S' ∧ Custody cfg size S' := by
  refine ⟨_, ?_, c.withSlots there (fun a => a.allocForDecode r.row) fun allocated pages kept fills =>
    grows_allocForDecode c.pos kept fills⟩
  simp only [step, req_eq there, ok_bind]
  rfl

theorem Custody.cacheUnfinished (covers : Covers S.cache.cfg r n) (chunked : Bool) :
    ∃ S', S.step hq (.cacheUnfinished i n chunked) = .ok S' ∧ Custody cfg size S' := by
  obtain ⟨G, allocated, held, pool⟩ := c.holding
  cases disabled : cfg.disable with
  | true =>
    have off : S.cache.cfg.disable = true := by rw [held.kept.cfg_eq, disabled]
    have after := put there (held.single there)
    refine ⟨_, ?_, c.quiet pool rfl after⟩
    simp only [step, req_eq there, cacheUnfinishedReq, off, if_true, ok_bind]
    rfl
  | false =>
    obtain ⟨r', s', G', vs, gs, ran, freed, fills, after⟩ :=
      cacheUnfinishedReq_spec (held.single there) disabled covers chunked
    refine ⟨_, ?_, c.handOver pool freed fills (after.put there)⟩
    simp only [step, req_eq there, ran, ok_bind]
    rfl

end

end

theorem Serving.freeOverallocated_eq (S : Serving) (r : Req) (n : Nat) (pos : 0 < S.pool.pageSize) :
    S.freeOverallocated r n = { S with
        pool := (if ceil S.pool.pageSize n * S.pool.pageSize < r.row.length then
          [r.row.drop (ceil S.pool.pageSize n * S.pool.pageSize)] else []).foldl
            freeSlots S.pool } := by
  have start : (if S.pool.pageSize > 1 then ceil S.pool.pageSize n * S.pool.pageSize else n) =
      ceil S.pool.pageSize n * S.pool.pageSize := by
    split
    · rfl
    · have one : S.pool.pageSize = 1 := by omega
      rw [one, ceil_of_dvd Nat.one_pos (mod_one n)]
  unfold freeOverallocated
  rw [start]
  dsimp only
  split <;> rfl

section

variable (c : Custody cfg size S) (hq : Heapq)
include c

theorem Custody.release
    (there : S.reqs[i]? = some r) (covers : Covers S.cache.cfg r n) (isInsert : Bool) :
    ∃ S', S.step hq (.release i n isInsert) = .ok S' ∧ Custody cfg size S' := by
  obtain ⟨G, allocated, held, pool⟩ := c.holding
  have v := held.served_at there
  have h := held.kept.books.inv
  have pos : 0 < cfg.pageSize := held.kept.cfg_eq ▸ h.tree.page_pos
  obtain ⟨s', G', vs, gs, ran, freed, fills, after⟩ :=
    cacheFinishedReq_spec (held.single there) covers isInsert
  have beyond := v.rest_fills h covers
  rw [RadixCache.pageSize, held.kept.cfg_eq] at beyond
  generalize hrest : (r.ownPages cfg.pageSize).drop (ceil cfg.pageSize (n - r.cacheProtectedLen)) = rest
    at beyond after
  generalize hover : (if ceil cfg.pageSize n * cfg.pageSize < r.row.length then
    [r.row.drop (ceil cfg.pageSize n * cfg.pageSize)] else []) = extra
  -- Either way the pages beyond the committed ones go back.
  obtain ⟨more, moreFills, counts⟩ : ∃ more, Forall₂ (Fills cfg.pageSize) extra more ∧
      ∀ q, more.flatten.count q = rest.count q := by
    split at hover
    · exact ⟨[rest], hover ▸ .cons beyond .nil, fun q => by rw [flatten_singleton]⟩
    · next short =>
      have empty : rest = [] := by
        rw [drop_eq_nil_of_le (by omega)] at beyond
        rw [← beyond.pageList_eq pos, pageList_nil pos]
      exact ⟨[], hover ▸ .nil, fun q => by rw [empty]; rfl⟩
  have total : Holding cfg s' G' (S.reqs.eraseIdx i)
      (fun q => allocated.count q - (gs ++ more).flatten.count q) := by
    refine ⟨after.kept, after.served, after.stock.filled, fun q => ?_⟩
    rw [after.stock.count_eq q, flatten_append, count_append, counts q]
    push_cast
    ring
  obtain ⟨left, settled, kept⟩ := settle pos pool c.pageSize c.outside
    (rel_append fills moreFills) total
  have calls : s'.freed.drop S.cache.freed.length = vs := by rw [freed, drop_left]
  have page : (S.withCache s').pool.pageSize = cfg.pageSize :=
    (freeAll_config _ S.pool).pageSize.trans c.pageSize
  have same := freeAll_config (vs ++ extra) S.pool
  rw [foldl_append] at kept same
  refine ⟨⟨s', _, S.reqs.eraseIdx i⟩, ?_, ⟨G', left, settled, kept⟩, same.size.trans c.size,
    same.pageSize.trans c.pageSize, same.group.trans c.outside⟩
  simp only [step, req_eq there, ran, ok_bind]
  rw [freeOverallocated_eq _ r n (page ▸ pos), page, hover]
  simp only [withCache, calls]
  rfl

theorem Custody.matchPrefix (key : RadixKey) :
    ∃ S', S.step hq (.matchPrefix key) = .ok S' ∧ Custody cfg size S' := by
  obtain ⟨G, allocated, held, pool⟩ := c.holding
  have h := held.kept.books.inv
  cases disabled : S.cache.cfg.disable with
  | true =>
    refine ⟨S.withCache S.cache, ?_, c.quiet pool rfl held⟩
    simp [step, RadixCache.matchPrefix, disabled, ok_bind, pure, Except.pure]
  | false =>
    obtain ⟨m, s', G', ran, reshape, -⟩ := matchPrefix_spec h disabled key
    have cfg' : s'.cfg = cfg := reshape.cfg.trans held.kept.cfg_eq
    have after : Holding cfg s' G' S.reqs (fun q => allocated.count q) :=
      ⟨.of_enabled (held.kept.books.reshape reshape) cfg' (held.kept.cfg_eq ▸ disabled),
        fun k hk => (held.served k hk).keep (keeps_reshape h reshape (held.served k hk).live) reshape.cfg,
        held.stock.reshape h reshape⟩
    refine ⟨S.withCache s', ?_, c.quiet pool reshape.freed after⟩
    simp only [step, ran, ok_bind]
    rfl

theorem Custody.evict (want : Nat) :
    ∃ S', S.step hq (.evict want) = .ok S' ∧ Custody cfg size S' := by
  obtain ⟨G, allocated, held, pool⟩ := c.holding
  have books := held.kept.books
  have cfg_eq := held.kept.cfg_eq
  cases disabled : S.cache.cfg.disable with
  | true =>
    refine ⟨S.withCache S.cache, ?_, c.quiet pool rfl held⟩
    simp [step, RadixCache.evict, disabled, ok_bind, pure, Except.pure]
  | false =>
    obtain ⟨n, s', G', xs, ran, evicts⟩ := evict_spec hq books.inv disabled want
    obtain ⟨vs, gs, freed, fills, stock, keeps⟩ := evicts.stock books (.refl _) held.stock
    rw [RadixCache.pageSize, cfg_eq] at fills
    have after : Holding cfg s' G' S.reqs (fun q => allocated.count q - gs.flatten.count q) := by
      refine ⟨.of_enabled (Books.evicts evicts books (.refl _)) (evicts.cfg.trans cfg_eq) (cfg_eq ▸ disabled),
        ?_, stock.filled, fun q => ?_⟩
      · intro k hk
        exact (held.served k hk).keep (keeps _ (mem_map_of_mem hk)) evicts.cfg
      · rw [stock.count_eq q]
        ring
    refine ⟨S.withCache s', ?_, c.handOver pool freed fills after⟩
    simp only [step, ran, ok_bind]
    rfl

theorem Custody.step (ev : Event) (allowed : S.Allowed ev) :
    ∃ S', S.step hq ev = .ok S' ∧ Custody cfg size S' := by
  cases ev with
  | addReq tokenIds extraKey priority maxPrefixLen =>
    exact c.addReq hq tokenIds extraKey priority maxPrefixLen allowed
  | output i token => exact c.output hq (getElem?_eq_getElem allowed.1) allowed.2
  | allocForExtend i n =>
    obtain ⟨r, there, whole⟩ := allowed
    exact c.allocForExtend hq there whole n
  | allocForDecode i => exact c.allocForDecode hq (getElem?_eq_getElem allowed)
  | cacheUnfinished i n chunked =>
    obtain ⟨r, there, covers⟩ := allowed
    exact c.cacheUnfinished hq there covers chunked
  | release i n isInsert =>
    obtain ⟨r, there, covers⟩ := allowed
    exact c.release hq there covers isInsert
  | matchPrefix key => exact c.matchPrefix hq key
  | evict want => exact c.evict hq want

end

theorem custody_start (pos : 0 < cfg.pageSize) (clock : Nat → Int) (size : Nat) (needSort : Bool) :
    Custody cfg size (start cfg clock size needSort) := by
  have books := books_reset pos (init_resetsTo cfg clock)
  have kept : Kept cfg (init cfg clock) (bareOutline 0) [] := by
    refine ⟨init_cfg cfg clock, books, fun _ => ?_⟩
    rw [init_rootNode]
    rfl
  have bare : (bareOutline 0).live.erase (init cfg clock).rootNode = ∅ := by
    rw [init_rootNode]
    rfl
  have stock : Stock (init cfg clock) (bareOutline 0) (fun _ => 0) := by
    constructor
    · intro n hn inner
      have gone := mem_erase.mpr ⟨inner, hn⟩
      rw [bare] at gone
      cases gone
    · intro q
      rw [treeCount, Outline.total, bare]
      rfl
  have config := newPool_config size cfg.pageSize needSort
  exact ⟨⟨bareOutline 0, [], ⟨kept, fun r hr => absurd hr not_mem_nil, stock⟩,
    conserves_newPool size cfg.pageSize needSort⟩, config.1, config.2.1, config.2.2⟩

theorem custody_of_serves {hq : Heapq} {clock : Nat → Int} {needSort : Bool} (pos : 0 < cfg.pageSize)
    (run : Serves hq cfg clock size needSort S) : Custody cfg size S := by
  induction run with
  | start => exact custody_start pos clock size needSort
  | step _ allowed ran ih =>
    obtain ⟨S', ran', after⟩ := ih.step hq _ allowed
    cases ran.symm.trans ran'
    exact after

def Req.suffix (r : Req) : List Slot := r.row.drop r.cacheProtectedLen

def Req.reserved (P : Nat) (r : Req) : List Slot := remainder P r.suffix

namespace Serving

def poolSlots (S : Serving) : List Slot :=
  range' S.pool.pageSize (S.pool.numPages * S.pool.pageSize)

def freeSlots (S : Serving) : List Slot :=
  slots S.pool.pageSize (S.pool.freePages ++ S.pool.releasePages)

structure SlotsConserved (S : Serving) : Prop where
  partition : ∃ T : List NodeId, T.Nodup ∧
    (∀ n, n ∈ T ↔ S.cache.links.InTree n ∧ n ≠ S.cache.rootNode) ∧
    (S.freeSlots ++ T.flatMap (fun n => (S.cache.nodes n).slots) ++ S.reqs.flatMap suffix ++
      S.reqs.flatMap (reserved S.pool.pageSize)).Perm S.poolSlots
  reads : ∀ r ∈ S.reqs, ∀ x ∈ r.row, x ∉ S.freeSlots ∧
    (x ∈ r.suffix ∨ ∃ n, S.cache.links.Below n r.lastNode ∧ n ≠ S.cache.rootNode ∧
      x ∈ (S.cache.nodes n).slots)

end Serving

theorem Custody.pages_perm (c : Custody cfg size S) {G : Outline}
    (held : Holding cfg S.cache G S.reqs (fun q => (allocated.count q : Int)))
    (pool : Conserves S.pool allocated) :
    (S.pool.freePages ++ S.pool.releasePages ++
      (G.live.erase S.cache.rootNode).toList.flatMap S.cache.nodePages ++
      S.reqs.flatMap (ownPages cfg.pageSize)).Perm (range' 1 S.pool.numPages) := by
  refine perm_iff_count.mpr fun q => ?_
  have all := perm_iff_count.mp pool.partition q
  have tree : (((G.live.erase S.cache.rootNode).toList.flatMap S.cache.nodePages).count q : Int) =
      S.cache.treeCount G q := by
    rw [count_flatMap, sum_map_toList, cast_sum]
    rfl
  have reqs : ((S.reqs.flatMap (ownPages cfg.pageSize)).count q : Int) =
      reqCount cfg.pageSize S.reqs q := by
    rw [count_flatMap, cast_list_sum, List.map_map]
    rfl
  have total := held.stock.count_eq q
  simp only [pendingPages, c.outside, if_true, count_append, count_nil] at all ⊢
  omega

theorem Custody.slots_partition (c : Custody cfg size S) {G : Outline}
    (held : Holding cfg S.cache G S.reqs (fun q => (allocated.count q : Int)))
    (pool : Conserves S.pool allocated) :
    (S.freeSlots ++ (G.live.erase S.cache.rootNode).toList.flatMap (fun n => (S.cache.nodes n).slots) ++
      S.reqs.flatMap suffix ++ S.reqs.flatMap (reserved S.pool.pageSize)).Perm S.poolSlots := by
  have h := held.kept.books.inv
  have page : S.cache.pageSize = S.pool.pageSize := by
    rw [c.pageSize, RadixCache.pageSize, held.kept.cfg_eq]
  have pos : 0 < S.pool.pageSize := page ▸ h.tree.page_pos
  have whole := slots_perm S.pool.pageSize (c.pages_perm held pool)
  rw [← c.pageSize, slots_range' pos, slots_append, slots_append, slots_flatMap, slots_flatMap] at whole
  have nodes : ∀ n ∈ (G.live.erase S.cache.rootNode).toList,
      slots S.pool.pageSize (S.cache.nodePages n) = (S.cache.nodes n).slots := by
    intro n hn
    obtain ⟨inner, live⟩ := mem_erase.mp (mem_toList.mp hn)
    have paged := h.tree.paged live inner
    have size := h.tree.length_valOf live inner
    rw [segOf, length_units] at size
    rw [← page]
    exact ((held.stock.filled n live inner).whole h.tree.page_pos (size ▸ paged)).symm
  have requests : ∀ r ∈ S.reqs, slots S.pool.pageSize (r.ownPages S.pool.pageSize) =
      r.suffix ++ r.reserved S.pool.pageSize := by
    intro r hr
    have fills := (held.served r hr).fills
    rw [page] at fills
    exact (fills.append_remainder pos).symm
  rw [flatMap_congr nodes, flatMap_congr requests] at whole
  rw [append_assoc]
  exact ((flatMap_append_perm _ _ _).append_left _).trans whole

theorem Custody.slotsConserved (c : Custody cfg size S) : S.SlotsConserved := by
  obtain ⟨G, allocated, held, pool⟩ := c.holding
  have h := held.kept.books.inv
  have shape := h.tree.shape
  have perm := c.slots_partition held pool
  refine ⟨⟨_, nodup_toList _, fun n => ?_, perm⟩, ?_⟩
  · rw [mem_toList, mem_erase, shape.mem_live_iff, and_comm]
  · intro r hr x hx
    have v := held.served r hr
    have distinct := perm.nodup_iff.mpr nodup_range'
    rw [append_assoc, append_assoc] at distinct
    have apart := disjoint_of_nodup_append distinct
    rw [← take_append_drop r.cacheProtectedLen r.row] at hx
    rcases mem_append.mp hx with cached | own
    · rw [← v.slots] at cached
      obtain ⟨n, above, here⟩ := mem_flatMap.mp cached
      obtain ⟨live, inner⟩ := shape.chain_live v.live n above
      refine ⟨fun free => apart free ?_, .inr ⟨n, (shape.mem_chain_iff_below live inner v.live).mp above,
        inner, here⟩⟩
      refine mem_append_left _ (mem_flatMap.mpr ⟨n, ?_, here⟩)
      exact mem_toList.mpr (mem_erase.mpr ⟨inner, live⟩)
    · refine ⟨fun free => apart free ?_, .inl own⟩
      exact mem_append_right _ (mem_append_left _ (mem_flatMap.mpr ⟨r, hr, own⟩))

instance (cfg : Config) (r : Req) (n : Nat) : Decidable (Covers cfg r n) :=
  decidable_of_iff
    (n ≤ r.tokenIds.length ∧ n ≤ r.row.length ∧ r.cacheProtectedLen ≤ n ∧
      (cfg.isEagle = true → 0 < r.cacheProtectedLen → r.cacheProtectedLen < n))
    ⟨fun ⟨tokens, slots, cached, beyond⟩ => ⟨tokens, slots, cached, beyond⟩,
      fun h => ⟨h.tokens, h.slots, h.cached, h.beyond⟩⟩

instance (l : List Req) (i : Nat) (p : Req → Prop) [DecidablePred p] :
    Decidable (∃ r, l[i]? = some r ∧ p r) :=
  match l[i]? with
  | none => isFalse fun ⟨_, there, _⟩ => nomatch there
  | some r => decidable_of_iff (p r) ⟨fun hp => ⟨r, rfl, hp⟩, fun ⟨_, there, hp⟩ => Option.some.inj there ▸ hp⟩

instance (S : Serving) (ev : Event) : Decidable (S.Allowed ev) :=
  match ev with
  | .addReq .. => inferInstanceAs (Decidable (_ → ∀ _ ∈ _, _))
  | .output .. => inferInstanceAs (Decidable (_ ∧ (_ → _)))
  | .allocForExtend .. => inferInstanceAs (Decidable (∃ r, _ ∧ (prefixIndices r).length = r.row.length))
  | .allocForDecode _ => inferInstanceAs (Decidable (_ < _))
  | .cacheUnfinished _ n _ => inferInstanceAs (Decidable (∃ r, _ ∧ Covers _ r n))
  | .release _ n _ => inferInstanceAs (Decidable (∃ r, _ ∧ Covers _ r n))
  | .matchPrefix _ => inferInstanceAs (Decidable True)
  | .evict _ => inferInstanceAs (Decidable True)

def Serving.follow (hq : Heapq) (S : Serving) : List Event → Option Serving
  | [] => some S
  | ev :: evs =>
    if S.Allowed ev then
      match S.step hq ev with
      | .error _ => none
      | .ok S' => follow hq S' evs
    else none

theorem serves_of_follow {hq : Heapq} {clock : Nat → Int} {needSort : Bool} {S' : Serving}
    (evs : List Event) (before : Serves hq cfg clock size needSort S)
    (h : S.follow hq evs = some S') : Serves hq cfg clock size needSort S' := by
  induction evs generalizing S with
  | nil => exact Option.some.inj h ▸ before
  | cons ev evs ih =>
    rw [Serving.follow] at h
    split at h
    · rename_i allowed
      split at h
      · cases h
      · rename_i ran
        exact ih (.step before allowed ran) h
    · cases h

/-- In every run each slot of the pool is free, in one node of the tree, or with one live request,
and every call returns. -/
theorem kvSlots_conserved (hq : Heapq) (cfg : Config) (pos : 0 < cfg.pageSize) (clock : Nat → Int)
    (size : Nat) (needSort : Bool) {S : Serving} (run : Serves hq cfg clock size needSort S) :
    S.SlotsConserved ∧ S.pool.numPages = size / cfg.pageSize ∧
      ∀ ev, S.Allowed ev → ∃ S', S.step hq ev = .ok S' ∧ S'.SlotsConserved := by
  have c := custody_of_serves pos run
  refine ⟨c.slotsConserved, by rw [numPages, c.size, c.pageSize], fun ev allowed => ?_⟩
  obtain ⟨S', ran, after⟩ := c.step hq ev allowed
  exact ⟨S', ran, after.slotsConserved⟩

def smallConfig : Config := { pageSize := 2, sha256 := fun _ => [] }

def sharedRun : List Event :=
  [.addReq [1, 2, 3, 4, 5] none 0 4, .allocForExtend 0 5, .cacheUnfinished 0 5 false,
    .addReq [1, 2, 9, 8, 7] none 0 4, .allocForExtend 1 3, .release 0 5 true, .evict 1,
    .allocForExtend 0 3]

theorem kvSlots_conserved_of_sharedRun :
    ∃ S : Serving, Serves scan smallConfig (fun n => n) 8 true S ∧ S.SlotsConserved ∧
      S.freeSlots = [8, 9] ∧ S.reqs.map row = [[2, 3, 4, 5, 6]] ∧
      S.reqs.map suffix = [[4, 5, 6]] ∧ S.reqs.map (reserved 2) = [[7]] := by
  have run : ((start smallConfig (fun n => n) 8 true).follow scan sharedRun).map
      (fun S => (S.freeSlots, S.reqs.map row, S.reqs.map suffix, S.reqs.map (reserved 2))) =
      some ([8, 9], [[2, 3, 4, 5, 6]], [[4, 5, 6]], [[7]]) := by
    decide +kernel
  obtain ⟨S, followed, facts⟩ := Option.map_eq_some_iff.mp run
  simp only [Prod.mk.injEq] at facts
  have serves := serves_of_follow _ .start followed
  exact ⟨S, serves, (kvSlots_conserved scan smallConfig (by decide) _ 8 true serves).1, facts⟩

/-- A request of five tokens leaves a slot of its third page open. -/
theorem open_slot_of_last_page : ∃ S : Serving, Serves scan smallConfig (fun n => n) 8 true S ∧
      7 ∈ S.poolSlots ∧ 7 ∉ S.freeSlots ∧ (∀ r ∈ S.reqs, 7 ∉ r.suffix) ∧
      ∀ n, S.cache.links.InTree n → n ≠ S.cache.rootNode → 7 ∉ (S.cache.nodes n).slots := by
  have run : ((start smallConfig (fun n => n) 8 true).follow scan (sharedRun.take 2)).map
      (fun S => (S.poolSlots, S.freeSlots, S.reqs.flatMap suffix,
        S.reqs.flatMap (reserved S.pool.pageSize))) =
      some ([2, 3, 4, 5, 6, 7, 8, 9], [8, 9], [2, 3, 4, 5, 6], [7]) := by
    decide +kernel
  obtain ⟨S, followed, facts⟩ := Option.map_eq_some_iff.mp run
  simp only [Prod.mk.injEq] at facts
  obtain ⟨all, free, used, reserved⟩ := facts
  have serves := serves_of_follow _ .start followed
  obtain ⟨T, -, nodes, perm⟩ := (custody_of_serves (by decide) serves).slotsConserved.partition
  refine ⟨S, serves, by rw [all]; decide, by rw [free]; decide, fun r hr here => ?_,
    fun n inTree inner here => ?_⟩
  · have listed : 7 ∈ S.reqs.flatMap suffix := mem_flatMap.mpr ⟨r, hr, here⟩
    rw [used] at listed
    exact absurd listed (by decide)
  · have listed : 7 ∈ T.flatMap (fun n => (S.cache.nodes n).slots) :=
      mem_flatMap.mpr ⟨n, (nodes n).mpr ⟨inTree, inner⟩, here⟩
    have distinct := perm.nodup_iff.mpr nodup_range'
    refine disjoint_of_nodup_append distinct ?_ (by rw [reserved]; exact List.mem_singleton_self 7)
    exact mem_append_left _ (mem_append_right _ listed)

end RedKnot.Radix
