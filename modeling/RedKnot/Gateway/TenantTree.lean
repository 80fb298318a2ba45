import Mathlib
import RedKnot.Gateway.CharSlices
import RedKnot.Lib.Heapq

/-! The multi-tenant text tree of the gateway, one call after the other. A reference to a node is
modelled by the keys that lead to it; a dropped node has no tenants. -/

namespace RedKnot.Gateway.TenantTree

open Function

abbrev TenantId := String

structure Node where
  text : List Char
  tenantLastAccessTime : AList (fun _ : TenantId => Nat)
  lastTenant : Option TenantId

inductive Forest
  | nil
  | cons (key : Char) (node : Node) (children rest : Forest)

namespace Forest

def get (c : Char) : Forest → Option (Node × Forest)
  | nil => none
  | cons key node children rest => if key = c then some (node, children) else rest.get c

def remove (c : Char) : Forest → Forest
  | nil => nil
  | cons key node children rest =>
    if key = c then rest.remove c else cons key node children (rest.remove c)

def insert (f : Forest) (c : Char) (node : Node) (children : Forest) : Forest :=
  cons c node children (f.remove c)

def any (p : Node → Bool) : Forest → Bool
  | nil => false
  | cons _ node _ rest => p node || rest.any p

def isEmpty : Forest → Bool
  | nil => true
  | cons _ _ _ _ => false

def places : Forest → List (List Char)
  | nil => []
  | cons key _ children rest => [key] :: children.places.map (key :: ·) ++ rest.places

def load : Forest → Nat
  | nil => 0
  | cons _ node children rest =>
    node.tenantLastAccessTime.keys.length + children.load + rest.load

def Distinct : Forest → Prop
  | nil => True
  | cons key _ children rest => rest.get key = none ∧ children.Distinct ∧ rest.Distinct

end Forest

namespace Node

def containsKey (n : Node) (tenant : TenantId) : Bool :=
  (n.tenantLastAccessTime.lookup tenant).isSome

def Contains (n : Node) (tenant : TenantId) : Prop := tenant ∈ n.tenantLastAccessTime

def touch (n : Node) (tenant : TenantId) (epoch : Nat) : Node :=
  { n with tenantLastAccessTime := n.tenantLastAccessTime.insert tenant epoch }

def attach (n : Node) (tenant : TenantId) : Node :=
  if n.containsKey tenant then n else n.touch tenant 0

def drop (n : Node) (tenant : TenantId) : Node :=
  { n with tenantLastAccessTime := n.tenantLastAccessTime.erase tenant }

end Node

structure Tree where
  root : Node := ⟨[], ∅, none⟩
  children : Forest := .nil
  tenantCharCount : TenantId → Option Nat := fun _ => none
  epoch : Nat := 0

def nextEpoch (epoch : Nat) : Nat := (epoch + 1) % 2 ^ 64

/-- The node that `insert` goes on with: the matched one, or the new one above it if only a part
of its text is shared. -/
def splitMatched (node : Node) (below : Forest) (sharedCount : Nat) : Option (Node × Forest) :=
  if sharedCount < node.text.length then
    let (matchedText, contractedText) := splitAtChar node.text sharedCount
    match contractedText.head? with
    | none => none
    | some firstNewChar => some (⟨matchedText, node.tenantLastAccessTime, node.lastTenant⟩,
        Forest.nil.insert firstNewChar { node with text := contractedText } below)
  else some (node, below)

/-- The loop of `insert`, with what it adds to the character count of the tenant. -/
def insertLoop (tenant : TenantId) (epoch : Nat) :
    Nat → Node → Forest → List Char → Option (Node × Forest × Nat)
  | _, prev, children, [] => some (prev.touch tenant epoch, children, 0)
  | 0, _, _, _ :: _ => none
  | fuel + 1, prev, children, firstChar :: rest =>
    match children.get firstChar with
    | none =>
      let newNode : Node := ⟨firstChar :: rest, AList.insert tenant epoch ∅, some tenant⟩
      some (prev, children.insert firstChar newNode .nil, (firstChar :: rest).length)
    | some (matchedNode, below) =>
      let sharedCount := sharedPrefixCount (firstChar :: rest) matchedNode.text
      match splitMatched matchedNode below sharedCount with
      | none => none
      | some (mid, midChildren) =>
        match insertLoop tenant epoch fuel (mid.attach tenant) midChildren
            (advanceByChars (firstChar :: rest) sharedCount) with
        | none => none
        | some (next, nextChildren, added) =>
          some (prev, children.insert firstChar next nextChildren,
            (if mid.containsKey tenant then 0 else mid.text.length) + added)

/-- The loop of both queries. `enter` says whether a child may be matched, `use` what happens at
the node where the loop ends. -/
def walk {α : Type} (enter : Node → Bool) (use : Node → Node × α) :
    Nat → Node → Forest → List Char → Option (Nat × α × Node × Forest)
  | _, prev, children, [] => some (0, (use prev).2, (use prev).1, children)
  | 0, _, _, _ :: _ => none
  | fuel + 1, prev, children, firstChar :: rest =>
    match children.get firstChar with
    | none => some (0, (use prev).2, (use prev).1, children)
    | some (matchedNode, below) =>
      if enter matchedNode then
        let sharedCount := sharedPrefixCount (firstChar :: rest) matchedNode.text
        if sharedCount = matchedNode.text.length then
          match walk enter use fuel matchedNode below
              (advanceByChars (firstChar :: rest) sharedCount) with
          | none => none
          | some (more, answer, next, nextChildren) =>
            some (sharedCount + more, answer, prev, children.insert firstChar next nextChildren)
        else some (sharedCount, (use matchedNode).2, prev,
          children.insert firstChar (use matchedNode).1 below)
      else some (0, (use prev).2, (use prev).1, children)

structure PrefixMatchResult where
  tenant : TenantId
  matchedCharCount : Nat
  inputCharCount : Nat

def selectTenant (curr : Node) : Node × TenantId :=
  let refill : Node × TenantId :=
    let t := curr.tenantLastAccessTime.keys.head?.getD "empty"
    ({ curr with lastTenant := some t }, t)
  match curr.lastTenant with
  | some t => if curr.containsKey t then (curr, t) else refill
  | none => refill

def selectAndTouch (epoch : Nat) (curr : Node) : Node × TenantId :=
  let (node, t) := selectTenant curr
  (if epoch % 8 = 0 then node.touch t epoch else node, t)

def touchTenant (tenant : TenantId) (epoch : Nat) (curr : Node) : Node × Bool :=
  if curr.containsKey tenant then (curr.touch tenant epoch, true) else (curr, false)

def removeAt (tenant : TenantId) : Node → Forest → List Char → Node × Forest
  | node, children, [] => (node.drop tenant, children)
  | node, children, key :: keys =>
    match children.get key with
    | none => (node, children)
    | some (child, below) =>
      let after := removeAt tenant child below keys
      if keys = [] ∧ after.2.isEmpty ∧ after.1.tenantLastAccessTime.keys = [] then
        match after.1.text.head? with
        | some firstChar => (node, children.remove firstChar)
        | none => (node, children.insert key after.1 after.2)
      else (node, children.insert key after.1 after.2)

def nodeAt : Node → Forest → List Char → Option (Node × Forest)
  | node, children, [] => some (node, children)
  | _, children, key :: keys =>
    match children.get key with
    | none => none
    | some (child, below) => nodeAt child below keys

def isLeafOf (tenant : TenantId) (node : Node) (children : Forest) : Bool :=
  node.containsKey tenant && !children.any (·.containsKey tenant)

def leafAt (tenant : TenantId) (root : Node) (children : Forest) (place : List Char) : Bool :=
  match nodeAt root children place with
  | none => false
  | some (node, below) => isLeafOf tenant node below

def parentLeaf (tenant : TenantId) (root : Node) (children : Forest) (place : List Char) :
    Option (List Char) :=
  if place ≠ [] ∧ leafAt tenant root children place.dropLast then some place.dropLast else none

def removeLoop (tenant : TenantId) :
    Nat → Node → Forest → List (List Char) → Option (Node × Forest)
  | _, root, children, [] => some (root, children)
  | 0, _, _, _ :: _ => none
  | fuel + 1, root, children, curr :: queue =>
    let after := removeAt tenant root children curr
    removeLoop tenant fuel after.1 after.2
      (queue ++ (parentLeaf tenant after.1 after.2 curr).toList)

structure EvictionEntry where
  timestamp : Nat
  tenant : TenantId
  node : List Char

def entryAt (root : Node) (children : Forest) (tenant : TenantId) (place : List Char) :
    Option EvictionEntry :=
  (nodeAt root children place).bind fun p =>
    (p.1.tenantLastAccessTime.lookup tenant).map (⟨·, tenant, place⟩)

def leafOf (node : Node) (children : Forest) : List TenantId :=
  node.tenantLastAccessTime.keys.filter (isLeafOf · node children)

def evictLoop (maxSize : Nat) : Nat → Tree → List EvictionEntry → Option Tree
  | 0, s, pq => if pq.isEmpty then some s else none
  | fuel + 1, s, pq =>
    match Heapq.popMin EvictionEntry.timestamp pq with
    | none => some s
    | some (entry, pq) =>
      if (s.tenantCharCount entry.tenant).any (· ≤ maxSize) then evictLoop maxSize fuel s pq
      else match nodeAt s.root s.children entry.node with
      | none => evictLoop maxSize fuel s pq
      | some (node, below) =>
        if isLeafOf entry.tenant node below then
          let after := removeAt entry.tenant s.root s.children entry.node
          let more := (parentLeaf entry.tenant after.1 after.2 entry.node).bind
            (entryAt after.1 after.2 entry.tenant)
          evictLoop maxSize fuel { s with
            root := after.1
            children := after.2
            tenantCharCount := update s.tenantCharCount entry.tenant
              ((s.tenantCharCount entry.tenant).map (· - node.text.length)) } (more.toList ++ pq)
        else evictLoop maxSize fuel s pq

namespace Tree

def insert (s : Tree) (text : List Char) (tenant : TenantId) : Option Tree :=
  match insertLoop tenant s.epoch text.length (s.root.attach tenant) s.children text with
  | none => none
  | some (root, children, added) => some {
      root := root
      children := children
      tenantCharCount := update s.tenantCharCount tenant
        (some ((s.tenantCharCount tenant).getD 0 + added))
      epoch := nextEpoch s.epoch }

def prefixMatchWithCounts (s : Tree) (text : List Char) : Option (PrefixMatchResult × Tree) :=
  (walk (fun _ => true) (selectAndTouch s.epoch) text.length s.root s.children text).map fun r =>
    (⟨r.2.1, r.1, text.length⟩,
      { s with root := r.2.2.1, children := r.2.2.2, epoch := nextEpoch s.epoch })

def prefixMatchTenant (s : Tree) (text : List Char) (tenant : TenantId) :
    Option (List Char × Tree) :=
  (walk (·.containsKey tenant) (touchTenant tenant s.epoch) text.length s.root s.children text).map
    fun r => (takeChars text r.1, { s with
        root := r.2.2.1
        children := r.2.2.2
        epoch := if r.2.1 then nextEpoch s.epoch else s.epoch })

def places (s : Tree) : List (List Char) := [] :: s.children.places

def load (s : Tree) : Nat := s.root.tenantLastAccessTime.keys.length + s.children.load

def evictTenantBySize (s : Tree) (maxSize : Nat) : Option Tree :=
  let pq := s.places.flatMap fun place => match nodeAt s.root s.children place with
    | none => []
    | some (node, below) =>
      (leafOf node below).filterMap (entryAt s.root s.children · place)
  evictLoop maxSize (pq.length + s.load) s pq

def removeTenant (s : Tree) (tenant : TenantId) : Option Tree :=
  let queue := s.places.filter (leafAt tenant s.root s.children)
  (removeLoop tenant (queue.length + s.load) s.root s.children queue).map fun r =>
    { s with
      root := r.1
      children := r.2
      tenantCharCount := update s.tenantCharCount tenant none }

end Tree

inductive Op
  | insert (text : List Char) (tenant : TenantId)
  | prefixMatchWithCounts (text : List Char)
  | prefixMatchTenant (text : List Char) (tenant : TenantId)
  | evictTenantBySize (maxSize : Nat)
  | removeTenant (tenant : TenantId)

def Tree.exec (s : Tree) : Op → Option Tree
  | .insert text tenant => s.insert text tenant
  | .prefixMatchWithCounts text => (s.prefixMatchWithCounts text).map Prod.snd
  | .prefixMatchTenant text tenant => (s.prefixMatchTenant text tenant).map Prod.snd
  | .evictTenantBySize maxSize => s.evictTenantBySize maxSize
  | .removeTenant tenant => s.removeTenant tenant

def run (history : List Op) : Option Tree := history.foldlM Tree.exec {}

abbrev PrefixSets := TenantId → List Char → Prop

def PrefixSets.Closed (H : PrefixSets) : Prop :=
  ∀ t w v, H t w → v <+: w → v ≠ [] → H t v

def PrefixSets.Step (H : PrefixSets) : Op → PrefixSets → Prop
  | .insert text tenant, H' => ∀ t w, H' t w ↔ H t w ∨ (t = tenant ∧ w ≠ [] ∧ w <+: text)
  | .prefixMatchWithCounts _, H' => H' = H
  | .prefixMatchTenant _ _, H' => H' = H
  | .evictTenantBySize _, H' => (∀ t w, H' t w → H t w) ∧ H'.Closed
  | .removeTenant tenant, H' => ∀ t w, H' t w ↔ H t w ∧ t ≠ tenant

inductive PrefixSets.Run : List Op → PrefixSets → Prop
  | start : Run [] fun _ _ => False
  | step {history : List Op} {H H' : PrefixSets} {op : Op} :
      Run history H → H.Step op H' → Run (history ++ [op]) H'

def Has (t : TenantId) : Node → Forest → List Char → List Char → Prop
  | n, _, [], w => n.Contains t ∧ w = []
  | _, k, c :: cs, w => ∃ n' k' v, k.get c = some (n', k') ∧ w = n'.text ++ v ∧ Has t n' k' cs v

def Holds (t : TenantId) (n : Node) (k : Forest) (w : List Char) : Prop :=
  ∃ a x, Has t n k a x ∧ w <+: x

def Tree.held (s : Tree) : PrefixSets := fun t w => w ≠ [] ∧ Holds t s.root s.children w

end RedKnot.Gateway.TenantTree
