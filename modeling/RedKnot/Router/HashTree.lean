import Mathlib

/-! `HashTree` of `policies/kv_events/tree.rs`: a tree of block hashes in which every node lists the
workers that hold the chain ending at it. Hash maps and sets are iterated over in an order that a
call is given as an argument; so is the time. -/

namespace RedKnot.Router

open Function

structure KvWorkerId where
  url : String
  dpRank : Nat
deriving DecidableEq, Repr

namespace HashTree

abbrev NodeId := Nat

abbrev BlockHash := Int

structure Node where
  blockHash : BlockHash
  parentBlockHash : Option BlockHash
  parent : Option NodeId
  workers : Finset KvWorkerId := ∅
  children : AList (fun _ : BlockHash => NodeId) := ∅
  lastUsed : Nat

/-- An entry of `by_hash` that is absent is an empty set here. -/
structure TreeState where
  nodes : NodeId → Option Node
  byHash : BlockHash → Finset NodeId := fun _ => ∅
  nextId : NodeId := 1

structure Iteration where
  list : Finset NodeId → List NodeId
  nodup : ∀ S, (list S).Nodup
  mem : ∀ S n, n ∈ list S ↔ n ∈ S

def Iteration.sorted : Iteration where
  list S := S.sort (· ≤ ·)
  nodup S := S.sort_nodup _
  mem _ _ := Finset.mem_sort _

def rootId : NodeId := 0

def rootHashSentinel : BlockHash := -2 ^ 63

def Node.childless (n : Node) : Bool := n.children.entries.isEmpty

def Node.isEmpty (n : Node) : Bool := decide (n.workers = ∅) && n.childless

def Node.newChild (now : Nat) (h : BlockHash) (parentHash : Option BlockHash) (parentId : NodeId) :
    Node where
  blockHash := h
  parentBlockHash := parentHash
  parent := some parentId
  lastUsed := now

/-- The node is used by `worker` at the time `now`. -/
def Node.mark (n : Node) (worker : KvWorkerId) (now : Nat) : Node :=
  { n with workers := insert worker n.workers, lastUsed := now }

namespace TreeState

def root (now : Nat) : Node where
  blockHash := rootHashSentinel
  parentBlockHash := none
  parent := none
  lastUsed := now

def new (now : Nat) : TreeState where
  nodes := update (fun _ => none) rootId (some (root now))

def put (s : TreeState) (n : NodeId) (nd : Node) : TreeState :=
  { s with nodes := update s.nodes n (some nd) }

/-- `nodes.keys()`. Every key was drawn from the counter. -/
def keys (s : TreeState) : Finset NodeId :=
  (Finset.range s.nextId).filter (fun n => (s.nodes n).isSome)

def nodeCount (s : TreeState) : Nat := s.keys.card - 1

def child (s : TreeState) (n : NodeId) (h : BlockHash) : Option NodeId :=
  (s.nodes n).bind (fun nd => nd.children.lookup h)

/-- The tree with a fresh node under `parent`, whose id exists. -/
def hang (s : TreeState) (now : Nat) (parentId : NodeId) (parent : Node) (h : BlockHash)
    (parentHash : Option BlockHash) : TreeState where
  nodes := update (update s.nodes s.nextId (some (Node.newChild now h parentHash parentId)))
    parentId (some { parent with children := parent.children.insert h s.nextId })
  byHash := update s.byHash h (insert s.nextId (s.byHash h))
  nextId := s.nextId + 1

def createChild (s : TreeState) (now : Nat) (parentId : NodeId) (h : BlockHash)
    (parentHash : Option BlockHash) : Option NodeId × TreeState :=
  match s.nodes parentId with
  | none => (none, { s with nextId := s.nextId + 1 })
  | some parent => (some s.nextId, s.hang now parentId parent h parentHash)

/-- The child of `current` under `h`, which is created if there is none. -/
def entry (s : TreeState) (now : Nat) (current : NodeId) (h : BlockHash)
    (prevHash : Option BlockHash) :
    Option NodeId × TreeState :=
  match s.child current h with
  | some id => (some id, s)
  | none => s.createChild now current h prevHash

def holds (s : TreeState) (worker : KvWorkerId) (n : NodeId) : Bool :=
  match s.nodes n with
  | some nd => decide (worker ∈ nd.workers)
  | none => false

def resolveParent (it : Iteration) (s : TreeState) (worker : KvWorkerId) :
    Option BlockHash → NodeId
  | none => rootId
  | some parentHash =>
    match it.list (s.byHash parentHash) with
    | [] => rootId
    | [candidate] => candidate
    | candidates => (candidates.find? (s.holds worker)).getD rootId

def insertLoop (now : Nat) (worker : KvWorkerId) : List BlockHash → TreeState → NodeId →
    Option BlockHash → TreeState
  | [], s, _, _ => s
  | h :: hashes, s, current, prevHash =>
    match s.entry now current h prevHash with
    | (none, s) => s
    | (some id, s) =>
      match s.nodes id with
      | none => s
      | some nd =>
        insertLoop now worker hashes (s.put id (nd.mark worker now)) id (some h)

def insert (it : Iteration) (now : Nat) (s : TreeState) (worker : KvWorkerId)
    (parentHash : Option BlockHash) (hashes : List BlockHash) : TreeState :=
  insertLoop now worker hashes s (s.resolveParent it worker parentHash) parentHash

def detach (s : TreeState) (n : NodeId) (nd : Node) (parentId : NodeId) : TreeState where
  nodes := update (match s.nodes parentId with
    | some p => update s.nodes parentId (some { p with children := p.children.erase nd.blockHash })
    | none => s.nodes) n none
  byHash := update s.byHash nd.blockHash ((s.byHash nd.blockHash).erase n)
  nextId := s.nextId

def prunable (s : TreeState) (n : NodeId) : Bool :=
  match s.nodes n with
  | some nd => decide (n ≠ rootId) && nd.isEmpty
  | none => false

def pruneLoop : Nat → TreeState → NodeId → TreeState
  | 0, s, _ => s
  | fuel + 1, s, cursor =>
    if cursor = rootId then s
    else
      match s.nodes cursor with
      | none => s
      | some nd =>
        match nd.parent with
        | none => s
        | some parentId =>
          if nd.isEmpty then
            let s := s.detach cursor nd parentId
            if s.prunable parentId then pruneLoop fuel s parentId else s
          else s

def pruneCascade (s : TreeState) (start : NodeId) : TreeState := pruneLoop (s.nextId + 1) s start

def removeAt (worker : KvWorkerId) (s : TreeState) (id : NodeId) : TreeState :=
  match s.nodes id with
  | none => s
  | some nd =>
    let nd := { nd with workers := nd.workers.erase worker }
    if nd.isEmpty then (s.put id nd).pruneCascade id else s.put id nd

def remove (it : Iteration) (s : TreeState) (worker : KvWorkerId) (hashes : List BlockHash) :
    TreeState :=
  (hashes.flatMap (fun h => it.list (s.byHash h))).foldl (removeAt worker) s

/-- The first loop of `clear_worker`, which collects the nodes to prune. -/
def clearAt (worker : KvWorkerId) (r : TreeState × List NodeId) (id : NodeId) :
    TreeState × List NodeId :=
  match r.1.nodes id with
  | none => r
  | some nd =>
    let after := { nd with workers := nd.workers.erase worker }
    (r.1.put id after, if worker ∈ nd.workers ∧ after.isEmpty then r.2 ++ [id] else r.2)

def pruneAt (s : TreeState) (id : NodeId) : TreeState :=
  if (s.nodes id).isSome then s.pruneCascade id else s

def clearWorker (it : Iteration) (s : TreeState) (worker : KvWorkerId) : TreeState :=
  let r := ((it.list s.keys).filter (· ≠ rootId)).foldl (clearAt worker) (s, [])
  r.2.foldl pruneAt r.1

def touch (now : Nat) (s : TreeState) (n : NodeId) : TreeState :=
  match s.nodes n with
  | some nd => s.put n { nd with lastUsed := now }
  | none => s

/-- The descent of `match_prefix` from `current`: how many hashes matched and the last node. -/
def matchLoop (now : Nat) : List BlockHash → TreeState → NodeId → Nat → Option NodeId →
    Nat × Option NodeId × TreeState
  | [], s, _, matched, last => (matched, last, s)
  | h :: hashes, s, current, matched, last =>
    match s.child current h with
    | some id => matchLoop now hashes (s.touch now id) id (matched + 1) (some id)
    | none => (matched, last, s)

def matchStart (it : Iteration) (s : TreeState) : Option BlockHash → NodeId
  | none => rootId
  | some parentHash =>
    match it.list (s.byHash parentHash) with
    | [n] => n
    | _ => rootId

def workersAt (s : TreeState) : Option NodeId → Finset KvWorkerId
  | some n =>
    match s.nodes n with
    | some nd => nd.workers
    | none => ∅
  | none => ∅

structure MatchResult where
  matchedBlocks : Nat
  workers : Finset KvWorkerId

def matchPrefix (it : Iteration) (now : Nat) (s : TreeState) (parentHash : Option BlockHash)
    (hashes : List BlockHash) : MatchResult × TreeState :=
  let r := matchLoop now hashes s (s.matchStart it parentHash) 0 none
  (⟨r.1, r.2.2.workersAt r.2.1⟩, r.2.2)

/-- The first phase of `evict_lru`, over the empty leaves found at its start. -/
def evictEmpty (maxSize : Nat) : List NodeId → TreeState → TreeState
  | [], s => s
  | id :: rest, s =>
    if s.nodeCount ≤ maxSize then s else evictEmpty maxSize rest (s.pruneAt id)

/-- The older of the oldest leaf so far and the node `id`, if that is a leaf. -/
def older (s : TreeState) (oldest : Option (Nat × NodeId)) (id : NodeId) : Option (Nat × NodeId) :=
  match s.nodes id with
  | none => oldest
  | some nd =>
    if id = rootId ∨ nd.childless = false then oldest
    else
      match oldest with
      | none => some (nd.lastUsed, id)
      | some (cur, other) => if nd.lastUsed < cur then some (nd.lastUsed, id) else some (cur, other)

def oldestLeaf (it : Iteration) (s : TreeState) : Option (Nat × NodeId) :=
  (it.list s.keys).foldl s.older none

def evictOne (s : TreeState) (victim : NodeId) : TreeState :=
  match s.nodes victim with
  | some nd => (s.put victim { nd with workers := ∅ }).pruneCascade victim
  | none => s.pruneCascade victim

/-- The second phase of `evict_lru`, with the number of rounds left. -/
def evictLoop (it : Nat → Iteration) (maxSize : Nat) : Nat → TreeState → TreeState
  | 0, s => s
  | iters + 1, s =>
    if s.nodeCount > maxSize then
      match s.oldestLeaf (it iters) with
      | none => s
      | some (_, victim) => evictLoop it maxSize iters (s.evictOne victim)
    else s

/-- `evict_lru(max_size)` with the number of nodes removed. The iterations are numbered
downwards. -/
def evictLru (it : Nat → Iteration) (s : TreeState) (maxSize : Nat) : Nat × TreeState :=
  if s.nodeCount ≤ maxSize then (0, s)
  else
    let emptyLeaves := ((it (s.keys.card + 1)).list s.keys).filter s.prunable
    let s₁ := evictEmpty maxSize emptyLeaves s
    let s₂ := evictLoop it maxSize (s₁.keys.card + 1) s₁
    (s.keys.card - s₂.keys.card, s₂)

end TreeState

end HashTree

end RedKnot.Router
