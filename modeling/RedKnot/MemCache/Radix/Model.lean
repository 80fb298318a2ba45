import RedKnot.Lib.Heapq
import RedKnot.Lib.Walk
import RedKnot.MemCache.BlockHash
import RedKnot.MemCache.NodeHeap

/-! `RadixCache` of `mem_cache/radix_cache.py`, with `TreeNode`, the eviction strategies and the
event mixin. Nodes are numbered by `TreeNode.counter`; a deleted node stays in the heap. `freed`
collects the tensors passed to `token_to_kv_pool_allocator.free`. -/

namespace RedKnot

open Function

namespace Radix

structure TreeNode where
  children : Children := ∅
  parent : Option NodeId := none
  key : RadixKey := { tokenIds := [] }
  value : Option (List Slot) := none
  lockRef : Int := 0
  lastAccessTime : Int := 0
  creationTime : Int := 0
  hitCount : Nat := 0
  hashValue : Option (List Digest) := none
  priority : Int := 0

instance : RadixNode TreeNode where
  children := TreeNode.children
  parent := TreeNode.parent
  key := TreeNode.key
  value := TreeNode.value

def TreeNode.evicted (n : TreeNode) : Bool := n.value.isNone

def TreeNode.slots (n : TreeNode) : List Slot := n.value.getD []

inductive EvictionStrategy where
  | lru
  | lfu
  | fifo
  | mru
  | filo
  | priority
  | slru (protectedThreshold : Nat)
deriving DecidableEq, Repr

/-- `get_priority`. A priority that is one number is paired with a constant, so that all
strategies compare lexicographically as Python tuples do. -/
def EvictionStrategy.getPriority (st : EvictionStrategy) (n : TreeNode) : Int ×ₗ Int :=
  match st with
  | .lru => toLex (n.lastAccessTime, 0)
  | .lfu => toLex ((n.hitCount : Int), n.lastAccessTime)
  | .fifo => toLex (n.creationTime, 0)
  | .mru => toLex (-n.lastAccessTime, 0)
  | .filo => toLex (-n.creationTime, 0)
  | .priority => toLex (n.priority, n.lastAccessTime)
  | .slru threshold =>
    let isProtected : Int := if n.hitCount ≥ threshold then 1 else 0
    toLex (isProtected, n.lastAccessTime)

structure Config where
  pageSize : Nat
  isEagle : Bool := false
  disable : Bool := false
  disableFinishedInsert : Bool := false
  enableKvCacheEvents : Bool := false
  evictionStrategy : EvictionStrategy := .lru
  sha256 : List UInt8 → Digest

/-- An entry of the eviction heap: the priority of a node and the node, whose `__lt__`
compares access times and decides between equal priorities. -/
structure HeapEntry where
  priority : Int ×ₗ Int
  time : Int
  node : NodeId

def HeapEntry.key (e : HeapEntry) : (Int ×ₗ Int) ×ₗ Int := toLex (e.priority, e.time)

/-- `clock` lists the readings of `time.monotonic()`; `ticks` of them have been taken. The set
`evictable_leaves` is a list without repetition. -/
structure RadixCache where
  cfg : Config
  clock : Nat → Int
  ticks : Nat := 0
  counter : NodeId := 0
  nodes : NodeId → TreeNode := fun _ => {}
  rootNode : NodeId := 0
  evictableSize : Int := 0
  protectedSize : Int := 0
  evictableLeaves : List NodeId := []
  kvEventQueue : List KVCacheEvent := []
  freed : List (List Slot) := []

structure MatchResult where
  deviceIndices : List Slot
  lastDeviceNode : NodeId

namespace RadixCache

abbrev pageSize (s : RadixCache) : Nat := s.cfg.pageSize

def modify (s : RadixCache) (n : NodeId) (f : TreeNode → TreeNode) : RadixCache :=
  { s with nodes := update s.nodes n (f (s.nodes n)) }

def monotonic (s : RadixCache) : Int × RadixCache :=
  (s.clock s.ticks, { s with ticks := s.ticks + 1 })

/-- `TreeNode(priority=priority)` -/
def newTreeNode (s : RadixCache) (priority : Int) : NodeId × RadixCache :=
  let (accessTime, s) := s.monotonic
  let (creationTime, s) := s.monotonic
  (s.counter, { s with
      counter := s.counter + 1
      nodes := update s.nodes s.counter
        { lastAccessTime := accessTime, creationTime := creationTime, priority := priority } })

/-- `token_to_kv_pool_allocator.free(idx)` -/
def allocatorFree (s : RadixCache) (idx : List Slot) : RadixCache :=
  { s with freed := s.freed ++ [idx] }

/-- The hash that seeds the pages of a child of `p`. -/
def seedOf (s : RadixCache) (p : NodeId) : Option Digest := do
  let hs ← (s.nodes p).hashValue
  if (s.nodes p).key.len > 0 then hs.getLast? else none

def computeNodeHashValues (s : RadixCache) (node : NodeId) : Except PyError (List Digest) :=
  let n := s.nodes node
  hashPages s.cfg.sha256 n.key s.pageSize n.key.len 0 (n.parent.bind s.seedOf)

/-- Fill in `hash_value` when it was not computed yet. -/
def ensureHashValue (s : RadixCache) (node : NodeId) : Except PyError RadixCache :=
  match (s.nodes node).hashValue with
  | some _ => .ok s
  | none => do
    let hs ← s.computeNodeHashValues node
    return s.modify node (fun n => { n with hashValue := some hs })

def nodeBlockHashes (n : TreeNode) (pageSize : Nat) : Except PyError (List Int) :=
  (List.range ((n.key.len + pageSize - 1) / pageSize)).mapM
    (fun i => return hashStrToInt64 (← pyGet (n.hashValue.getD []) i))

/-- One `BlockStored` for each page, each naming the block before it. -/
def storedEvents (key : RadixKey) (pageSize : Nat) :
    List Int → Nat → Option Int → List KVCacheEvent
  | [], _, _ => []
  | h :: hs, i, parentBlockHash =>
    let pageTokens := (pySlice key.units (i * pageSize) ((i + 1) * pageSize)).map Prod.snd
    .blockStored [h] parentBlockHash pageTokens pageTokens.length .gpu ::
      storedEvents key pageSize hs (i + 1) (some h)

/-- The block that the first page of a child of `p` names as its parent. -/
def parentBlock (s : RadixCache) (p : NodeId) : Option Int :=
  if p = s.rootNode then none
  else do
    let hs ← (s.nodes p).hashValue
    hashStrToInt64 <$> hs.getLast?

def recordStoreEvent (s : RadixCache) (node : NodeId) : Except PyError RadixCache :=
  if s.cfg.enableKvCacheEvents then do
    let s ← s.ensureHashValue node
    let n := s.nodes node
    let hashes ← nodeBlockHashes n s.pageSize
    return { s with
      kvEventQueue := s.kvEventQueue ++
        storedEvents n.key s.pageSize hashes 0 (n.parent.bind s.parentBlock) }
  else .ok s

def recordRemoveEvent (s : RadixCache) (node : NodeId) : Except PyError RadixCache :=
  if s.cfg.enableKvCacheEvents then do
    let s ← s.ensureHashValue node
    let hashes ← nodeBlockHashes (s.nodes node) s.pageSize
    return { s with
      kvEventQueue := s.kvEventQueue ++ hashes.map (fun h => .blockRemoved [h] .gpu) }
  else .ok s

def recordAllClearedEvent (s : RadixCache) : RadixCache :=
  if s.cfg.enableKvCacheEvents then
    { s with kvEventQueue := s.kvEventQueue ++ [.allBlocksCleared] }
  else s

def reset (s : RadixCache) : RadixCache :=
  let (root, s) := s.newTreeNode (-(2 ^ 63 - 1))
  let s := s.modify root (fun n =>
    { n with
      key := { tokenIds := [], extraKey := none }
      value := some []
      lockRef := 1
      hashValue := some [] })
  let s := { s with
    rootNode := root
    evictableSize := 0
    protectedSize := 0
    evictableLeaves := [] }
  s.recordAllClearedEvent

def updateLeafStatus (s : RadixCache) (node : NodeId) : RadixCache :=
  let n := s.nodes node
  if n.evicted ∨ n.lockRef > 0 then
    { s with evictableLeaves := s.evictableLeaves.erase node }
  else if n.children.entries.any (fun e => !(s.nodes e.2).evicted) then
    { s with evictableLeaves := s.evictableLeaves.erase node }
  else
    { s with evictableLeaves := s.evictableLeaves.insert node }

def splitNode (s : RadixCache) (key : RadixKey) (child : NodeId) (splitLen : Nat) :
    Except PyError (NodeId × RadixCache) := do
  let c := s.nodes child
  let (newNode, s) := s.newTreeNode c.priority
  let lower ← (key.fromIdx splitLen).childKey s.pageSize
  let upper ← key.childKey s.pageSize
  let some value := c.value | throw .typeError
  let some parent := c.parent | throw .attributeError
  let (newHash, childHash) := splitNodeHashValue c.hashValue splitLen s.pageSize
  let s := s.modify newNode (fun n =>
    { n with
      hitCount := c.hitCount
      children := AList.singleton lower child
      parent := some parent
      lockRef := c.lockRef
      key := c.key.upTo splitLen
      value := some (value.take splitLen)
      hashValue := newHash })
  let s := s.modify child (fun n =>
    { n with
      parent := some newNode
      key := c.key.fromIdx splitLen
      value := some (value.drop splitLen)
      hashValue := childHash })
  let s := s.modify parent (fun n => { n with children := n.children.insert upper newNode })
  return (newNode, s)

/-- `if len(key): child_key = key.child_key(self.page_size)` -/
def nextChildKey (s : RadixCache) (key : RadixKey) (childKey : ChildKey) : Except PyError ChildKey :=
  if key.len > 0 then key.childKey s.pageSize else .ok childKey

/-- The loop of `_match_prefix_helper`. -/
def matchLoop (accessTime : Int) : Nat → RadixCache → NodeId → RadixKey → ChildKey →
    List (List Slot) → Except PyError (List (List Slot) × NodeId × RadixCache)
  | 0, _, _, _, _, _ => .error .outOfFuel
  | fuel + 1, s, node, key, childKey, value =>
    if key.len > 0 then
      match (s.nodes node).children.lookup childKey with
      | none => .ok (value, node, s)
      | some child => do
        let s := s.modify child (fun n => { n with lastAccessTime := accessTime })
        let prefixLen ← (s.nodes child).key.matchLen key s.pageSize
        if prefixLen < (s.nodes child).key.len then
          let (newNode, s) ← s.splitNode (s.nodes child).key child prefixLen
          return (value ++ [(s.nodes newNode).slots], newNode, s)
        else
          let value := value ++ [(s.nodes child).slots]
          let key := key.fromIdx prefixLen
          let childKey ← s.nextChildKey key childKey
          matchLoop accessTime fuel s child key childKey value
    else .ok (value, node, s)

def matchPrefixHelper (s : RadixCache) (node : NodeId) (key : RadixKey) :
    Except PyError (List (List Slot) × NodeId × RadixCache) := do
  let (accessTime, s) := s.monotonic
  let s := s.modify node (fun n => { n with lastAccessTime := accessTime })
  let childKey ← key.childKey s.pageSize
  matchLoop accessTime (key.len + 1) s node key childKey []

def matchPrefix (s : RadixCache) (key : RadixKey) : Except PyError (MatchResult × RadixCache) :=
  let (key, _) := key.maybeToBigramView s.cfg.isEagle none
  if s.cfg.disable ∨ key.len = 0 then .ok (⟨[], s.rootNode⟩, s)
  else
    let key := key.pageAligned s.pageSize
    if key.len = 0 then .ok (⟨[], s.rootNode⟩, s)
    else do
      let (value, lastNode, s) ← s.matchPrefixHelper s.rootNode key
      return (⟨value.flatten, lastNode⟩, s)

def incHitCount (s : RadixCache) (node : NodeId) (chunked : Bool) : RadixCache :=
  if chunked then s else s.modify node (fun n => { n with hitCount := n.hitCount + 1 })

/-- The visit of a child in the loop of `_insert_helper`: split it when only a part matched, and
update the statistics. -/
def insertVisit (s : RadixCache) (child : NodeId) (prefixLen : Nat) (priority : Int)
    (chunked : Bool) : Except PyError (NodeId × RadixCache) := do
  if prefixLen < (s.nodes child).key.len then
    let (newNode, s) ← s.splitNode (s.nodes child).key child prefixLen
    let s := s.modify newNode (fun n => { n with priority := max n.priority priority })
    return (newNode, s.incHitCount newNode chunked)
  else
    let s := s.modify child (fun n => { n with priority := max n.priority priority })
    return (child, s.incHitCount child chunked)

/-- The loop of `_insert_helper`. It ends with the node reached, the rest of key and value,
the child key of the rest and the prefix length. -/
def insertLoop (accessTime priority : Int) (chunked : Bool) : Nat → RadixCache → NodeId →
    RadixKey → List Slot → ChildKey → Nat →
    Except PyError (RadixCache × NodeId × RadixKey × List Slot × ChildKey × Nat)
  | 0, _, _, _, _, _, _ => .error .outOfFuel
  | fuel + 1, s, node, key, value, childKey, totalPrefixLength =>
    if key.len > 0 then
      match (s.nodes node).children.lookup childKey with
      | none => .ok (s, node, key, value, childKey, totalPrefixLength)
      | some child => do
        let s := s.modify child (fun n => { n with lastAccessTime := accessTime })
        let prefixLen ← (s.nodes child).key.matchLen key s.pageSize
        let totalPrefixLength := totalPrefixLength + prefixLen
        let key := key.fromIdx prefixLen
        let value := value.drop prefixLen
        let (node, s) ← s.insertVisit child prefixLen priority chunked
        let childKey ← s.nextChildKey key childKey
        insertLoop accessTime priority chunked fuel s node key value childKey totalPrefixLength
    else .ok (s, node, key, value, childKey, totalPrefixLength)

/-- The last block of `_insert_helper`: hang the rest of the key under `node`. -/
def insertRest (s : RadixCache) (node : NodeId) (key : RadixKey) (value : List Slot)
    (childKey : ChildKey) (priority : Int) (chunked : Bool) : Except PyError RadixCache :=
  let (newNode, s) := s.newTreeNode priority
  let s := s.modify newNode (fun n =>
    { n with parent := some node, key := key, value := some value })
  let s := s.incHitCount newNode chunked
  let s := s.modify node (fun n => { n with children := n.children.insert childKey newNode })
  let s := { s with evictableSize := s.evictableSize + key.len }
  let s := s.updateLeafStatus node
  let s := s.updateLeafStatus newNode
  s.recordStoreEvent newNode

def insertHelper (s : RadixCache) (node : NodeId) (key : RadixKey) (value : List Slot)
    (priority : Int) (chunked : Bool) : Except PyError (Nat × RadixCache) := do
  let (accessTime, s) := s.monotonic
  let s := s.modify node (fun n => { n with lastAccessTime := accessTime })
  let s := s.modify node (fun n => { n with priority := max n.priority priority })
  if key.len = 0 then return (0, s)
  let childKey ← key.childKey s.pageSize
  let (s, node, key, value, childKey, totalPrefixLength) ←
    insertLoop accessTime priority chunked (key.len + 1) s node key value childKey 0
  if key.len > 0 then
    let s ← s.insertRest node key value childKey priority chunked
    return (totalPrefixLength, s)
  else return (totalPrefixLength, s)

def alignedValue (key : RadixKey) (value : Option (List Slot)) : List Slot :=
  match value with
  | some v => v.take key.len
  | none => key.tokenIds.take key.len

/-- `insert(InsertParams(key, value, chunked=chunked, priority=priority))` -/
def insert (s : RadixCache) (key : RadixKey) (value : Option (List Slot)) (chunked : Bool)
    (priority : Int) : Except PyError (Nat × RadixCache) :=
  if s.cfg.disable then .ok (0, s)
  else
    let (key, value) := key.maybeToBigramView s.cfg.isEagle value
    let key := key.pageAligned s.pageSize
    s.insertHelper s.rootNode key (alignedValue key value) priority chunked

def deleteLeaf (s : RadixCache) (node : NodeId) : Except PyError RadixCache := do
  let n := s.nodes node
  let key ← n.key.childKey s.pageSize
  let some parent := n.parent | throw .attributeError
  if (s.nodes parent).children.lookup key ≠ some node then
    throw (.assertionError "parent does not have child key")
  let s := s.modify parent (fun p => { p with children := p.children.erase key })
  let s := { s with
    evictableSize := s.evictableSize - n.key.len
    evictableLeaves := s.evictableLeaves.erase node }
  return s.updateLeafStatus parent

def heapEntry (s : RadixCache) (node : NodeId) : HeapEntry :=
  ⟨s.cfg.evictionStrategy.getPriority (s.nodes node), (s.nodes node).lastAccessTime, node⟩

/-- One round of the loop of `evict`: remove `x` and push its parent if it became a leaf.
Returns the number of slots freed. -/
def evictOne (hq : Heapq) (s : RadixCache) (heap : List HeapEntry) (x : NodeId) :
    Except PyError (Nat × RadixCache × List HeapEntry) := do
  let value := (s.nodes x).slots
  let s := s.allocatorFree value
  let s ← s.deleteLeaf x
  let some parent := (s.nodes x).parent | throw .attributeError
  let heap :=
    if (s.nodes parent).children.entries.length = 0 ∧ (s.nodes parent).lockRef = 0 then
      hq.heappush HeapEntry.key heap (s.heapEntry parent)
    else heap
  let s ← s.recordRemoveEvent x
  return (value.length, s, heap)

def evictLoop (hq : Heapq) (numTokens : Nat) : Nat → RadixCache → List HeapEntry → Nat →
    Except PyError (Nat × RadixCache)
  | 0, _, _, _ => .error .outOfFuel
  | fuel + 1, s, heap, numEvicted =>
    if numEvicted < numTokens then
      match hq.heappop HeapEntry.key heap with
      | none => .ok (numEvicted, s)
      | some (e, heap) => do
        let (freed, s, heap) ← s.evictOne hq heap e.node
        evictLoop hq numTokens fuel s heap (numEvicted + freed)
    else .ok (numEvicted, s)

/-- `evict(EvictParams(num_tokens=numTokens))` gives `num_tokens_evicted`. -/
def evict (hq : Heapq) (s : RadixCache) (numTokens : Nat) : Except PyError (Nat × RadixCache) :=
  if s.cfg.disable then .ok (0, s)
  else
    let heap := hq.heapify HeapEntry.key (s.evictableLeaves.map s.heapEntry)
    evictLoop hq numTokens (s.counter + 1) s heap 0

def incLockRef (s : RadixCache) (node : NodeId) : Except PyError (Int × RadixCache) :=
  if s.cfg.disable then .ok (0, s)
  else
    walkUp .outOfFuel .attributeError s.rootNode (fun st n => (st.2.nodes n).parent)
      (fun (delta, s) node =>
        let n := s.nodes node
        let (delta, s) :=
          if n.lockRef = 0 then
            (delta - n.key.len, { s with
              evictableSize := s.evictableSize - n.key.len
              protectedSize := s.protectedSize + n.key.len })
          else (delta, s)
        let s := s.modify node (fun n => { n with lockRef := n.lockRef + 1 })
        .ok (.yield (delta, s.updateLeafStatus node)))
      (s.counter + 1) (0, s) node

def decLockRef (s : RadixCache) (node : NodeId) : Except PyError (Int × RadixCache) :=
  if s.cfg.disable then .ok (0, s)
  else
    walkUp .outOfFuel .attributeError s.rootNode (fun st n => (st.2.nodes n).parent)
      (fun (delta, s) node =>
        let n := s.nodes node
        let (delta, s) :=
          if n.lockRef = 1 then
            (delta + n.key.len, { s with
              evictableSize := s.evictableSize + n.key.len
              protectedSize := s.protectedSize - n.key.len })
          else (delta, s)
        let s := s.modify node (fun n => { n with lockRef := n.lockRef - 1 })
        let s := s.updateLeafStatus node
        if (s.nodes node).parent = none ∧ node ≠ s.rootNode then
          .error (.assertionError "This request holds the node from another tree")
        else .ok (.yield (delta, s)))
      (s.counter + 1) (0, s) node

end RadixCache

end Radix

end RedKnot
