import RedKnot.MemCache.Radix.Eviction
import RedKnot.MemCache.Radix.SlotConservation

/-! Allocation of slots for a batch (`mem_cache/common.py`): the cache is evicted first if the pool
is too small for an estimate of what the batch needs. -/

namespace RedKnot.Radix

open LinkedTree NodeHeap RadixKey Allocator Pages RadixCache Finset Function List PagedAllocator Serving Prod

namespace Serving

/-- `available_and_evictable_str` -/
def availableAndEvictableStr (S : Serving) : String :=
  let available := S.pool.availableSize
  let evictable := S.cache.evictableSize
  let total := available + evictable
  s!"Available tokens: {total} (available_size={available} + evictable_size={evictable})\n"

def outOfMemory (S : Serving) (what : String) (numTokens : Nat) : PyError :=
  let state := S.availableAndEvictableStr
  .runtimeError
    s!"{what}. Try to lower your batch size.\nTry to allocate {numTokens} tokens.\n{state}"

def evictFromTreeCache (hq : Heapq) (S : Serving) (numTokens : Nat) : Except PyError Serving :=
  if S.pool.availableSize < numTokens then do
    let (_, cache) ← S.cache.evict hq numTokens
    return S.withCache cache
  else .ok S

/-- `token_to_kv_pool_allocator.alloc` -/
def allocSlots (a : PagedAllocator) (needSize : Nat) : Option (List Slot) × PagedAllocator :=
  if a.pageSize = 1 then TokenAllocator.alloc a needSize else a.alloc needSize

def returnSlots (S : Serving) (what : String) (numTokens : Nat)
    (answer : Option (List Slot) × PagedAllocator) : Except PyError (List Slot × Serving) :=
  match answer with
  | (none, pool) => .error ({ S with pool := pool }.outOfMemory what numTokens)
  | (some out, pool) => .ok (out, { S with pool := pool })

abbrev Backup := Option (List Nat × List Nat)

def backup (S : Serving) (backupState : Bool) : Backup :=
  if backupState then some S.pool.backupState else none

def allocTokenSlots (hq : Heapq) (S : Serving) (numTokens : Nat) (backupState : Bool) :
    Except PyError (List Slot × Backup × Serving) := do
  let S ← S.evictFromTreeCache hq numTokens
  let state := S.backup backupState
  let (out, S) ← S.returnSlots "Out of memory" numTokens (allocSlots S.pool numTokens)
  return (out, state, S)

def allocPagedTokenSlotsExtend (hq : Heapq) (S : Serving) (reqs : List ExtendReq)
    (extendNumTokens : Nat) (backupState : Bool) :
    Except PyError (List Slot × Backup × Serving) := do
  let numTokens := extendNumTokens + reqs.length * S.pool.pageSize
  let S ← S.evictFromTreeCache hq numTokens
  let state := S.backup backupState
  if S.pool.pageSize = 1 then
    throw (.notImplementedError "alloc_extend is only for paged allocator")
  let (out, S) ← S.returnSlots "Prefill out of memory" extendNumTokens
    (S.pool.allocExtend reqs extendNumTokens none)
  return (out, state, S)

def allocPagedTokenSlotsDecode (hq : Heapq) (S : Serving) (reqs : List DecodeReq)
    (tokenPerReq : Nat) : Except PyError (List Slot × Serving) := do
  let numTokens := reqs.length * S.pool.pageSize
  let S ← S.evictFromTreeCache hq numTokens
  if S.pool.pageSize = 1 then
    throw (.notImplementedError "alloc_decode is only for paged allocator")
  S.returnSlots "Decode out of memory" (reqs.length * tokenPerReq) (S.pool.allocDecode reqs)

/-- The slots of a batch are cut and written behind what each request has, given by `base`. -/
def writeRows (base : Req → List Slot) : List (Nat × Nat) → List Slot → List Req → List Req
  | [], _, reqs => reqs
  | (i, n) :: batch, out, reqs =>
    writeRows base batch (out.drop n)
      (reqs.modify i fun r => { r with row := base r ++ out.take n })

/-- `alloc_for_extend` for requests given by their position and the tokens they are extended by. -/
def allocForExtendBatch (hq : Heapq) (S : Serving) (batch : List (Nat × Nat)) :
    Except PyError Serving := do
  let extendNumTokens := (batch.map snd).sum
  let reqs ← batch.mapM fun b => do
    let r ← S.req b.1
    let prefixLen := r.prefixIndices.length
    return (⟨prefixLen, prefixLen + b.2, lastLoc r.prefixIndices⟩ : ExtendReq)
  let (out, _, S) ←
    if S.pool.pageSize = 1 then S.allocTokenSlots hq extendNumTokens false
    else S.allocPagedTokenSlotsExtend hq reqs extendNumTokens false
  return { S with reqs := writeRows Req.prefixIndices batch out S.reqs }

/-- `alloc_for_decode` with one token for each request. -/
def allocForDecodeBatch (hq : Heapq) (S : Serving) (batch : List Nat) : Except PyError Serving := do
  let reqs ← batch.mapM fun i => do
    let r ← S.req i
    return (⟨r.row.length + 1, lastLoc r.row⟩ : DecodeReq)
  let (out, S) ←
    if S.pool.pageSize = 1 then
      S.allocTokenSlots hq batch.length false >>= fun answer => .ok (answer.1, answer.2.2)
    else S.allocPagedTokenSlotsDecode hq reqs 1
  return { S with reqs := writeRows Req.row (batch.map fun i => (i, 1)) out S.reqs }

inductive Call where
  | event (ev : Event)
  | extendBatch (batch : List (Nat × Nat))
  | decodeBatch (batch : List Nat)

def call (hq : Heapq) (S : Serving) : Call → Except PyError Serving
  | .event ev => S.step hq ev
  | .extendBatch batch => S.allocForExtendBatch hq batch
  | .decodeBatch batch => S.allocForDecodeBatch hq batch

def Permits (S : Serving) : Call → Prop
  | .event ev => S.Allowed ev
  | .extendBatch batch => (batch.map fst).Nodup ∧
    ∀ b ∈ batch, ∃ r, S.reqs[b.1]? = some r ∧ r.prefixIndices.length = r.row.length
  | .decodeBatch batch => batch.Nodup ∧ ∀ i ∈ batch, i < S.reqs.length

end Serving

variable {cfg : Config} {size : Nat} {S S' : Serving} {hq : Heapq}

theorem Holding.tree_tokens {G : Outline} {allocated : List Nat}
    (held : Holding cfg S.cache G S.reqs (fun q => (allocated.count q : Int))) :
    S.cache.evictableSize + S.cache.protectedSize =
      (((G.live.erase S.cache.rootNode).toList.flatMap S.cache.nodePages).length * cfg.pageSize : Nat) := by
  have books := held.kept.books
  have h := books.inv
  have page : S.cache.pageSize = cfg.pageSize := by rw [RadixCache.pageSize, held.kept.cfg_eq]
  have node : ∀ n ∈ G.live, n ≠ S.cache.rootNode → S.cache.freeLen n + S.cache.heldLen n =
      ((S.cache.nodePages n).length * cfg.pageSize : Nat) := by
    intro n live inner
    have size := h.tree.length_valOf live inner
    rw [segOf, length_units] at size
    have whole := (held.stock.filled n live inner).whole h.tree.page_pos
      (size ▸ h.tree.paged live inner)
    have count := congrArg length whole
    rw [length_slots, size, page] at count
    rw [← count]
    exact add_sub_cancel _ _
  rw [books.evictable, books.guarded, Outline.total, Outline.total, ← sum_add_distrib,
    length_flatMap, sum_map_toList, sum_mul, Nat.cast_sum]
  apply sum_congr rfl
  intro n hn
  exact node n (Finset.mem_of_mem_erase hn) (ne_of_mem_erase hn)

theorem Custody.available_total (c : Custody cfg size S) {G : Outline} {allocated : List Nat}
    (held : Holding cfg S.cache G S.reqs (fun q => (allocated.count q : Int)))
    (pool : Conserves S.pool allocated) :
    (S.pool.availableSize : Int) + (S.cache.evictableSize + S.cache.protectedSize) +
      ((S.reqs.flatMap (Req.ownPages cfg.pageSize)).length * cfg.pageSize : Nat) =
      (S.pool.numPages * cfg.pageSize : Nat) := by
  have pages := (c.pages_perm held pool).length_eq
  rw [length_range'] at pages
  rw [held.tree_tokens, availableSize, c.pageSize, ← pages]
  simp only [length_append]
  push_cast
  ring

theorem Custody.evictFromTreeCache (c : Custody cfg size S) (hq : Heapq) (numTokens : Nat) :
    ∃ S', S.evictFromTreeCache hq numTokens = .ok S' ∧ Custody cfg size S' ∧ S'.reqs = S.reqs ∧
      ((numTokens : Int) ≤ S.pool.availableSize + S.cache.evictableSize →
        numTokens ≤ S'.pool.availableSize) := by
  unfold Serving.evictFromTreeCache
  split
  · obtain ⟨G, allocated, held, pool⟩ := c.holding
    obtain ⟨n, s', xs, ran, -, enough, freed, same⟩ := held.kept.evict hq numTokens
    obtain ⟨S', step, after⟩ := c.evict hq numTokens
    have evicted : S' = S.withCache s' := by
      simp only [Serving.step, ran, ok_bind] at step
      exact (Except.ok.inj step).symm
    subst evicted
    refine ⟨_, by simp only [ran, ok_bind]; rfl, after, rfl, fun holds => ?_⟩
    obtain ⟨G', allocated', held', pool'⟩ := after.holding
    have before := c.available_total held pool
    have total := after.available_total held' pool'
    have pages : (S.withCache s').pool.numPages = S.pool.numPages := by
      rw [numPages, numPages, after.size, after.pageSize, c.size, c.pageSize]
    have evictable : (S.withCache s').cache.evictableSize + n = S.cache.evictableSize := by
      rw [add_comm]
      exact freed
    have guarded : (S.withCache s').cache.protectedSize = S.cache.protectedSize := same
    have reqs : (S.withCache s').reqs = S.reqs := rfl
    rw [pages, reqs, guarded] at total
    omega
  · exact ⟨S, rfl, c, rfl, fun _ => by omega⟩

/-- Every slot is in one of the pages, and the slots are different if the pages are. -/
structure Placed (P : Nat) (pages : List Nat) (out : List Slot) : Prop where
  mem : ∀ x ∈ out, x / P ∈ pages
  distinct : pages.Nodup → out.Nodup

theorem Placed.mono {P : Nat} {pages more : List Nat} {out : List Slot} (h : Placed P pages out)
    (sub : pages.Subperm more) : Placed P more out := by
  refine ⟨fun x hx => sub.subset (h.mem x hx), fun distinct => h.distinct ?_⟩
  obtain ⟨listed, perm, sub⟩ := sub
  exact perm.nodup_iff.mp (distinct.sublist sub)

namespace Serving

variable {allocated : List Nat} {a : PagedAllocator}

section

variable (pos : 0 < a.pageSize)
include pos

section

variable (h : Conserves a allocated)
include h

end

end

section

variable {S₁ : Serving} {n : Nat}

theorem allocTokenSlots_eq (evicted : S.evictFromTreeCache hq n = .ok S₁) (backupState : Bool) :
    S.allocTokenSlots hq n backupState =
      (S₁.returnSlots "Out of memory" n (allocSlots S₁.pool n) >>=
        fun answer => .ok (answer.1, S₁.backup backupState, answer.2)) := by
  simp only [allocTokenSlots, evicted, ok_bind]
  rfl

theorem allocPagedTokenSlotsExtend_eq {exts : List ExtendReq}
    (evicted : S.evictFromTreeCache hq (n + exts.length * S.pool.pageSize) = .ok S₁)
    (paged : S₁.pool.pageSize ≠ 1) (backupState : Bool) :
    S.allocPagedTokenSlotsExtend hq exts n backupState =
      (S₁.returnSlots "Prefill out of memory" n (S₁.pool.allocExtend exts n none) >>=
        fun answer => .ok (answer.1, S₁.backup backupState, answer.2)) := by
  simp only [allocPagedTokenSlotsExtend, evicted, ok_bind, paged, if_false]
  rfl

theorem allocPagedTokenSlotsDecode_eq {decs : List DecodeReq}
    (evicted : S.evictFromTreeCache hq (decs.length * S.pool.pageSize) = .ok S₁)
    (paged : S₁.pool.pageSize ≠ 1) :
    S.allocPagedTokenSlotsDecode hq decs n =
      S₁.returnSlots "Decode out of memory" (decs.length * n) (S₁.pool.allocDecode decs) := by
  simp only [allocPagedTokenSlotsDecode, evicted, ok_bind, paged, if_false]

end

end Serving

def rowOf (P : Nat) (s : RadixCache) (G : Outline) (reqs : List Req) (b : Nat × Nat) :
    List Slot × List Nat × Nat :=
  match reqs[b.1]? with
  | some r => (r.row, G.along s.nodePages r.lastNode ++ r.ownPages P, b.2)
  | none => ([], [], b.2)

variable {s : RadixCache} {G : Outline} {reqs : List Req}

theorem Holding.rows {f : Nat → Int} (held : Holding cfg s G reqs f) (batch : List (Nat × Nat)) :
    Rows cfg.pageSize (batch.map (rowOf cfg.pageSize s G reqs)) := by
  have page : s.pageSize = cfg.pageSize := by rw [RadixCache.pageSize, held.kept.cfg_eq]
  have h := held.kept.books.inv
  intro b hb
  obtain ⟨⟨i, n⟩, -, rfl⟩ := mem_map.mp hb
  unfold rowOf
  cases there : reqs[i]? with
  | none => exact fills_nil (page ▸ h.tree.page_pos)
  | some r =>
    have fills := (held.served_at there).row_fills h held.stock.filled
    rwa [page] at fills

theorem Holding.writeRows {base : Req → List Slot} {batch : List (Nat × Nat)} {out : List Slot}
    {new : List Nat} {f : Nat → Int} (held : Holding cfg s G reqs f)
    (distinct : (batch.map fst).Nodup)
    (there : ∀ b ∈ batch, ∃ r, reqs[b.1]? = some r ∧ base r = r.row)
    (continues : Continues cfg.pageSize (batch.map (rowOf cfg.pageSize s G reqs)) out new) :
    Holding cfg s G (writeRows base batch out reqs) (fun q => f q + new.count q) := by
  have page : s.pageSize = cfg.pageSize := by rw [RadixCache.pageSize, held.kept.cfg_eq]
  induction batch generalizing reqs out new f with
  | nil =>
    cases continues
    simpa [writeRows] using held
  | cons b batch ih =>
    obtain ⟨i, n⟩ := b
    obtain ⟨⟨r, here, whole⟩, later⟩ := forall_mem_cons.mp there
    obtain ⟨apart, distinct⟩ := nodup_cons.mp distinct
    rw [List.map_cons] at continues
    have row : rowOf cfg.pageSize s G reqs (i, n) =
        (r.row, G.along s.nodePages r.lastNode ++ r.ownPages cfg.pageSize, n) := by
      simp only [rowOf, here]
    rw [row] at continues
    cases continues with
    | @cons _ first rest _ own more _ _ length fills others =>
      have v := held.served_at here
      rw [← page] at fills
      obtain ⟨served, pages⟩ := v.extended held.kept.books.inv held.stock.filled fills
      rw [page] at pages
      have after := ((held.single here).replace served rfl pages).put here
      have same : ∀ j, j ≠ i → (reqs.set i (r.extended first))[j]? = reqs[j]? := fun j hj =>
        getElem?_set_ne (Ne.symm hj)
      have different : ∀ b ∈ batch, b.1 ≠ i := by
        rintro b hb rfl
        exact apart (mem_map.mpr ⟨b, hb, rfl⟩)
      have rows : batch.map (rowOf cfg.pageSize s G (reqs.set i (r.extended first))) =
          batch.map (rowOf cfg.pageSize s G reqs) := by
        apply map_congr_left
        intro b hb
        simp only [rowOf, same _ (different b hb)]
      have final := ih after distinct
        (fun b hb => by rw [same _ (different b hb)]; exact later b hb) (rows ▸ others)
      have written : writeRows base ((i, n) :: batch) (first ++ rest) reqs =
          writeRows base batch rest (reqs.set i (r.extended first)) := by
        simp only [writeRows, take_left' length, drop_left' length]
        congr 1
        simp [modify_eq_set_getElem?, here, whole, Req.extended]
      rw [written]
      have counts : (fun q => f q + ((own ++ more).count q : Int)) =
          fun q => f q + (own.count q : Int) + (more.count q : Int) := by
        funext q
        rw [count_append]
        push_cast
        ring
      rw [counts]
      exact final

theorem Custody.grow (c : Custody cfg size S) {base : Req → List Slot} {batch : List (Nat × Nat)}
    {what : String} {n : Nat} {S' : Serving}
    {answer : Option (List Slot) × PagedAllocator} (distinct : (batch.map fst).Nodup)
    (there : ∀ b ∈ batch, ∃ r, S.reqs[b.1]? = some r ∧ base r = r.row)
    (grows : ∀ G allocated, Conserves S.pool allocated →
      Rows S.pool.pageSize (batch.map (rowOf cfg.pageSize S.cache G S.reqs)) →
      GrowsBatch S.pool allocated (batch.map (rowOf cfg.pageSize S.cache G S.reqs)) answer)
    (ran : (S.returnSlots what n answer >>= fun found =>
      .ok { found.2 with reqs := writeRows base batch found.1 found.2.reqs }) = .ok S') :
    Custody cfg size S' := by
  obtain ⟨G, allocated, held, pool⟩ := c.holding
  have rows := held.rows batch
  rw [← c.pageSize] at rows
  cases grows G allocated pool (c.pageSize ▸ rows) with
  | full kept same => cases ran
  | @grown b out new kept same continues =>
    cases ran
    rw [c.pageSize] at continues
    have after := held.writeRows distinct there continues
    refine ⟨⟨G, new ++ allocated, ?_, kept⟩, same.size.trans c.size, same.pageSize.trans c.pageSize,
      same.group.trans c.outside⟩
    rw [intCount_append]
    exact after

theorem map_snd_rowOf (P : Nat) (batch : List (Nat × Nat)) :
    ((batch.map (rowOf P s G reqs)).map fun b => b.2.2) = batch.map snd := by
  rw [List.map_map]
  apply map_congr_left
  intro b _
  simp only [comp, rowOf]
  split <;> rfl

section

variable {P : Nat} {b : Nat × Nat} {r : Req} (there : reqs[b.1]? = some r)
include there

theorem extendReq_rowOf :
    extendReq (rowOf P s G reqs b) = ⟨r.row.length, r.row.length + b.2, lastLoc r.row⟩ := by
  simp only [rowOf, there, extendReq]

theorem decodeReq_rowOf : decodeReq (rowOf P s G reqs b) = ⟨r.row.length + 1, lastLoc r.row⟩ := by
  simp only [rowOf, there, decodeReq]

end

theorem Custody.allocForExtendBatch (c : Custody cfg size S) {batch : List (Nat × Nat)}
    (distinct : (batch.map fst).Nodup)
    (whole : ∀ b ∈ batch, ∃ r, S.reqs[b.1]? = some r ∧ r.prefixIndices.length = r.row.length)
    (ran : S.allocForExtendBatch hq batch = .ok S') : Custody cfg size S' := by
  have there : ∀ b ∈ batch, ∃ r, S.reqs[b.1]? = some r ∧ r.prefixIndices = r.row := by
    intro b hb
    obtain ⟨G, allocated, held, -⟩ := c.holding
    obtain ⟨r, here, length⟩ := whole b hb
    exact ⟨r, here, (held.served_at here).prefixed.eq_of_length length⟩
  let exts := (batch.map (rowOf cfg.pageSize S.cache (bareOutline 0) S.reqs)).map extendReq
  have same : ∀ s G, (batch.map (rowOf cfg.pageSize s G S.reqs)).map extendReq = exts := by
    intro s G
    simp only [exts, List.map_map]
    apply map_congr_left
    intro b hb
    obtain ⟨r, here, -⟩ := there b hb
    simp only [comp, extendReq_rowOf here]
  have listed : (batch.mapM fun b => do
      let r ← S.req b.1
      let prefixLen := r.prefixIndices.length
      return (⟨prefixLen, prefixLen + b.2, lastLoc r.prefixIndices⟩ : ExtendReq)) = .ok exts := by
    simp only [exts, List.map_map]
    apply mapM_eq_map
    intro b hb
    obtain ⟨r, here, whole⟩ := there b hb
    simp only [req_eq here, ok_bind, comp, extendReq_rowOf here, whole]
    rfl
  simp only [Serving.allocForExtendBatch, listed, ok_bind] at ran
  split at ran
  · next one =>
    obtain ⟨S₁, evicted, c₁, reqs, -⟩ := c.evictFromTreeCache hq (batch.map snd).sum
    have one₁ : S₁.pool.pageSize = 1 := by rw [c₁.pageSize, ← c.pageSize, one]
    rw [allocTokenSlots_eq evicted, bind_assoc] at ran
    refine c₁.grow distinct (reqs ▸ there) (fun G allocated kept rows => ?_) ran
    rw [allocSlots, if_pos one₁, ← map_snd_rowOf cfg.pageSize batch]
    exact growsBatch_tokenAlloc one₁ kept (one₁ ▸ rows)
  · next paged =>
    obtain ⟨S₁, evicted, c₁, reqs, -⟩ := c.evictFromTreeCache hq
      ((batch.map snd).sum + exts.length * S.pool.pageSize)
    have paged₁ : S₁.pool.pageSize ≠ 1 := by rwa [c₁.pageSize, ← c.pageSize]
    rw [allocPagedTokenSlotsExtend_eq evicted paged₁, bind_assoc] at ran
    refine c₁.grow distinct (reqs ▸ there) (fun G allocated kept rows => ?_) ran
    rw [← same S₁.cache G, ← reqs]
    exact growsBatch_allocExtend c₁.pos kept rows _

theorem Custody.allocForDecodeBatch (c : Custody cfg size S) {batch : List Nat} (distinct : batch.Nodup)
    (inside : ∀ i ∈ batch, i < S.reqs.length) (ran : S.allocForDecodeBatch hq batch = .ok S') :
    Custody cfg size S' := by
  have there : ∀ b ∈ batch.map (fun i => (i, 1)), ∃ r, S.reqs[b.1]? = some r ∧ r.row = r.row := by
    intro b hb
    obtain ⟨i, hi, rfl⟩ := mem_map.mp hb
    exact ⟨_, getElem?_eq_getElem (inside i hi), rfl⟩
  have once : ((batch.map fun i => (i, 1)).map fst).Nodup := by
    simpa [List.map_map, comp_def] using distinct
  let decs := ((batch.map fun i => (i, 1)).map
    (rowOf cfg.pageSize S.cache (bareOutline 0) S.reqs)).map decodeReq
  have same : ∀ s G, ((batch.map fun i => (i, 1)).map (rowOf cfg.pageSize s G S.reqs)).map decodeReq =
      decs := by
    intro s G
    simp only [decs, List.map_map]
    apply map_congr_left
    intro i hi
    obtain ⟨r, here, -⟩ := there (i, 1) (mem_map_of_mem hi)
    simp only [comp, decodeReq_rowOf here]
  have listed : (batch.mapM fun i => do
      let r ← S.req i
      return (⟨r.row.length + 1, lastLoc r.row⟩ : DecodeReq)) = .ok decs := by
    simp only [decs, List.map_map]
    apply mapM_eq_map
    intro i hi
    obtain ⟨r, here, -⟩ := there (i, 1) (mem_map_of_mem hi)
    simp only [req_eq here, ok_bind, comp, decodeReq_rowOf here]
    rfl
  have length : ∀ s G, (((batch.map fun i => (i, 1)).map (rowOf cfg.pageSize s G S.reqs)).map
      fun b => b.2.2).sum = batch.length := by
    intro s G
    rw [map_snd_rowOf]
    simp [comp_def]
  simp only [Serving.allocForDecodeBatch, listed, ok_bind] at ran
  split at ran
  · next one =>
    obtain ⟨S₁, evicted, c₁, reqs, -⟩ := c.evictFromTreeCache hq batch.length
    have one₁ : S₁.pool.pageSize = 1 := by rw [c₁.pageSize, ← c.pageSize, one]
    rw [allocTokenSlots_eq evicted, bind_assoc, bind_assoc] at ran
    refine c₁.grow once (reqs ▸ there) (fun G allocated kept rows => ?_) ran
    rw [allocSlots, if_pos one₁, ← length S₁.cache G, ← reqs]
    exact growsBatch_tokenAlloc one₁ kept (one₁ ▸ rows)
  · next paged =>
    obtain ⟨S₁, evicted, c₁, reqs, -⟩ := c.evictFromTreeCache hq (decs.length * S.pool.pageSize)
    have paged₁ : S₁.pool.pageSize ≠ 1 := by rwa [c₁.pageSize, ← c.pageSize]
    have big : 2 ≤ S₁.pool.pageSize := by
      have := c₁.pos
      omega
    have single : ∀ G, ∀ b ∈ (batch.map fun i => (i, 1)).map (rowOf cfg.pageSize S₁.cache G S₁.reqs),
        b.2.2 = 1 := by
      intro G b hb
      obtain ⟨_, hi, rfl⟩ := mem_map.mp hb
      obtain ⟨i, -, rfl⟩ := mem_map.mp hi
      simp only [rowOf]
      split <;> rfl
    rw [allocPagedTokenSlotsDecode_eq evicted paged₁] at ran
    refine c₁.grow once (reqs ▸ there) (fun G allocated kept rows => ?_) ran
    rw [← same S₁.cache G, ← reqs]
    exact growsBatch_allocDecode big kept rows (single G)

instance (S : Serving) (c : Serving.Call) : Decidable (S.Permits c) :=
  match c with
  | .event ev => inferInstanceAs (Decidable (S.Allowed ev))
  | .extendBatch _ => inferInstanceAs (Decidable (_ ∧ ∀ b ∈ _, ∃ r, S.reqs[fst b]? = some r ∧
      (Req.prefixIndices r).length = r.row.length))
  | .decodeBatch _ => inferInstanceAs (Decidable (_ ∧ ∀ _ ∈ _, _))

def Serving.followCalls (hq : Heapq) (S : Serving) : List Serving.Call → Option Serving
  | [] => some S
  | c :: calls =>
    if S.Permits c then
      match S.call hq c with
      | .error _ => none
      | .ok S' => followCalls hq S' calls
    else none

end RedKnot.Radix
