import RedKnot.MemCache.Allocator.Batch
import RedKnot.MemCache.Radix.Exec

/-! Requests over `RadixCache`: `cache_finished_req`, `cache_unfinished_req` and the calls of the
scheduler around them. The row of a request in `req_to_token_pool` is kept with the request, as far
as it is allocated. -/

namespace RedKnot.Radix

open Allocator

/-- `tokenIds` are `origin_input_ids + output_ids`. -/
structure Req where
  tokenIds : List Token
  extraKey : Option String := none
  priority : Int := 0
  row : List Slot := []
  prefixIndices : List Slot := []
  cacheProtectedLen : Nat := 0
  lastNode : NodeId := 0
deriving DecidableEq

/-- `RadixKey(token_ids, req.extra_key, is_bigram=self.is_eagle)` -/
def Req.radixKey (req : Req) (isEagle : Bool) (tokenIds : List Token) : RadixKey :=
  { tokenIds := tokenIds, extraKey := req.extraKey, isBigram := isEagle }

namespace RadixCache

/-- The frees of `cache_finished_req` before the tail: the duplicates of an insert, or all that the
key covers. -/
def releaseKey (s : RadixCache) (req : Req) (isInsert : Bool) (radixKey : RadixKey)
    (kvIndices : List Slot) : Except PyError RadixCache :=
  if isInsert then do
    let (prefixLen, s) ← s.insert radixKey (some (kvIndices.take radixKey.len)) false req.priority
    return s.allocatorFree (pySlice kvIndices req.cacheProtectedLen prefixLen)
  else .ok (s.allocatorFree (pySlice kvIndices req.cacheProtectedLen radixKey.len))

/-- `cache_finished_req`; `kvCommittedLen` is what `pop_committed_kv_cache` returns. -/
def cacheFinishedReq (s : RadixCache) (req : Req) (kvCommittedLen : Nat) (isInsert : Bool) :
    Except PyError RadixCache :=
  let isInsert := if s.cfg.disableFinishedInsert then false else isInsert
  if s.cfg.disable then .ok (s.allocatorFree (req.row.take kvCommittedLen))
  else do
    let tokenIds := req.tokenIds.take kvCommittedLen
    let kvIndices := req.row.take tokenIds.length
    let radixKey := (req.radixKey s.cfg.isEagle tokenIds).pageAligned s.pageSize
    let s ← s.releaseKey req isInsert radixKey kvIndices
    let s := s.allocatorFree (kvIndices.drop radixKey.len)
    let (_, s) ← s.decLockRef req.lastNode
    return s

/-- `cache_unfinished_req`; the first `fillLen` tokens are `req.fill_ids`. -/
def cacheUnfinishedReq (s : RadixCache) (req : Req) (fillLen : Nat) (chunked : Bool) :
    Except PyError (Req × RadixCache) :=
  if s.cfg.disable then .ok (req, s)
  else do
    let tokenIds := req.tokenIds.take fillLen
    let kvIndices := req.row.take tokenIds.length
    let radixKey := (req.radixKey s.cfg.isEagle tokenIds).pageAligned s.pageSize
    let (newPrefixLen, s) ← s.insert radixKey (some (kvIndices.take radixKey.len)) chunked req.priority
    let s := s.allocatorFree (pySlice kvIndices req.cacheProtectedLen newPrefixLen)
    let (r, s) ← s.matchPrefix radixKey
    let newIndices := r.deviceIndices
    if newIndices.length ≠ radixKey.len then
      throw (.assertionError "len(new_indices) == len(radix_key)")
    let (_, s) ← s.decLockRef req.lastNode
    let (_, s) ← s.incLockRef r.lastDeviceNode
    return ({ req with
      row := req.row.take req.cacheProtectedLen ++ newIndices.drop req.cacheProtectedLen ++
        req.row.drop newIndices.length
      cacheProtectedLen := newIndices.length
      prefixIndices :=
        if newIndices.length < kvIndices.length then newIndices ++ kvIndices.drop newIndices.length
        else newIndices
      lastNode := r.lastDeviceNode }, s)

/-- The prefix match of `init_next_round_input` and the lock that the scheduler takes with it. -/
def admitReq (s : RadixCache) (req : Req) (maxPrefixLen : Nat) : Except PyError (Req × RadixCache) := do
  let (r, s) ← s.matchPrefix { tokenIds := req.tokenIds.take maxPrefixLen, extraKey := req.extraKey }
  let (_, s) ← s.incLockRef r.lastDeviceNode
  return ({ req with
    row := r.deviceIndices
    prefixIndices := r.deviceIndices
    cacheProtectedLen := r.deviceIndices.length
    lastNode := r.lastDeviceNode }, s)

end RadixCache

structure Serving where
  cache : RadixCache
  pool : PagedAllocator
  reqs : List Req

inductive Event where
  | addReq (tokenIds : List Token) (extraKey : Option String) (priority : Int) (maxPrefixLen : Nat)
  | output (i : Nat) (token : Token)
  | allocForExtend (i : Nat) (extendLen : Nat)
  | allocForDecode (i : Nat)
  | cacheUnfinished (i : Nat) (fillLen : Nat) (chunked : Bool)
  | release (i : Nat) (kvCommittedLen : Nat) (isInsert : Bool)
  | matchPrefix (key : RadixKey)
  | evict (numTokens : Nat)
deriving DecidableEq

namespace Serving

def req (S : Serving) (i : Nat) : Except PyError Req := pyGet S.reqs i

def withCache (S : Serving) (cache : RadixCache) : Serving :=
  { S with
    cache := cache
    pool := (cache.freed.drop S.cache.freed.length).foldl PagedAllocator.freeSlots S.pool }

def withSlots (S : Serving) (i : Nat) (answer : Option (List Slot) × PagedAllocator)
    (row : List Slot → Req) : Serving :=
  match answer with
  | (none, pool) => { S with pool := pool }
  | (some out, pool) => { S with pool := pool, reqs := S.reqs.set i (row out) }

/-- The second half of `release_kv_cache`: slots beyond the committed ones go back. -/
def freeOverallocated (S : Serving) (r : Req) (kvCommittedLen : Nat) : Serving :=
  let start := if S.pool.pageSize > 1 then Pages.ceil S.pool.pageSize kvCommittedLen * S.pool.pageSize
    else kvCommittedLen
  if start < r.row.length then { S with pool := S.pool.freeSlots (r.row.drop start) } else S

def step (hq : Heapq) (S : Serving) : Event → Except PyError Serving
  | .addReq tokenIds extraKey priority maxPrefixLen => do
    let (r, cache) ← S.cache.admitReq
      { tokenIds := tokenIds, extraKey := extraKey, priority := priority } maxPrefixLen
    let S := S.withCache cache
    return { S with reqs := S.reqs ++ [r] }
  | .output i token => do
    let r ← S.req i
    return { S with reqs := S.reqs.set i { r with tokenIds := r.tokenIds ++ [token] } }
  | .allocForExtend i extendLen => do
    let r ← S.req i
    return S.withSlots i (S.pool.allocForExtend r.prefixIndices extendLen)
      (fun out => { r with row := r.prefixIndices ++ out })
  | .allocForDecode i => do
    let r ← S.req i
    return S.withSlots i (S.pool.allocForDecode r.row) (fun out => { r with row := r.row ++ out })
  | .cacheUnfinished i fillLen chunked => do
    let r ← S.req i
    let (r, cache) ← S.cache.cacheUnfinishedReq r fillLen chunked
    let S := S.withCache cache
    return { S with reqs := S.reqs.set i r }
  | .release i kvCommittedLen isInsert => do
    let r ← S.req i
    let cache ← S.cache.cacheFinishedReq r kvCommittedLen isInsert
    let S := (S.withCache cache).freeOverallocated r kvCommittedLen
    return { S with reqs := S.reqs.eraseIdx i }
  | .matchPrefix key => do
    let (_, cache) ← S.cache.matchPrefix key
    return S.withCache cache
  | .evict numTokens => do
    let (_, cache) ← S.cache.evict hq numTokens
    return S.withCache cache

/-- What the scheduler keeps to when it caches the first `n` tokens of a request: they have slots
and cover its cached prefix, with one token more in bigram mode. -/
structure Covers (cfg : Config) (r : Req) (n : Nat) : Prop where
  tokens : n ≤ r.tokenIds.length
  slots : n ≤ r.row.length
  cached : r.cacheProtectedLen ≤ n
  beyond : cfg.isEagle = true → 0 < r.cacheProtectedLen → r.cacheProtectedLen < n

/-- Tokens are written with four bytes when their hashes are published; a prefill continues
the prefix that the request has. -/
def Allowed (S : Serving) : Event → Prop
  | .addReq tokenIds _ _ _ => S.cache.cfg.enableKvCacheEvents = true → ∀ t ∈ tokenIds, t < 2 ^ 32
  | .output i token =>
    i < S.reqs.length ∧ (S.cache.cfg.enableKvCacheEvents = true → token < 2 ^ 32)
  | .allocForExtend i _ => ∃ r, S.reqs[i]? = some r ∧ r.prefixIndices.length = r.row.length
  | .allocForDecode i => i < S.reqs.length
  | .cacheUnfinished i fillLen _ => ∃ r, S.reqs[i]? = some r ∧ Covers S.cache.cfg r fillLen
  | .release i kvCommittedLen _ => ∃ r, S.reqs[i]? = some r ∧ Covers S.cache.cfg r kvCommittedLen
  | .matchPrefix _ => True
  | .evict _ => True

def start (cfg : Config) (clock : Nat → Int) (size : Nat) (needSort : Bool) : Serving where
  cache := RadixCache.init cfg clock
  pool := PagedAllocator.newPool size cfg.pageSize needSort
  reqs := []

inductive Serves (hq : Heapq) (cfg : Config) (clock : Nat → Int) (size : Nat) (needSort : Bool) :
    Serving → Prop where
  | start : Serves hq cfg clock size needSort (start cfg clock size needSort)
  | step {S S' : Serving} {ev : Event} (before : Serves hq cfg clock size needSort S)
      (allowed : S.Allowed ev) (ran : S.step hq ev = .ok S') : Serves hq cfg clock size needSort S'

end Serving

end RedKnot.Radix
