import RedKnot.MemCache.Radix.Ops

/-! The operations of `RadixCache` as one step function, and all that a step can do. -/

namespace RedKnot.Radix

open LinkedTree NodeHeap RadixKey Function

inductive Op where
  | matchPrefix (key : RadixKey)
  | insert (key : RadixKey) (value : Option (List Slot)) (chunked : Bool) (priority : Int)
  | incLockRef (node : NodeId)
  | decLockRef (node : NodeId)
  | evict (numTokens : Nat)
deriving DecidableEq

inductive Reply where
  | matched (deviceIndices : List Slot) (lastDeviceNode : NodeId)
  | inserted (prefixLen : Nat)
  | locked (delta : Int)
  | evicted (numTokens : Nat) (freed : List (List Slot))
deriving DecidableEq

namespace RadixCache

def exec (hq : Heapq) (s : RadixCache) : Op → Except PyError (Reply × RadixCache)
  | .matchPrefix key => do
    let (r, s) ← s.matchPrefix key
    return (.matched r.deviceIndices r.lastDeviceNode, s)
  | .insert key value chunked priority => do
    let (n, s) ← s.insert key value chunked priority
    return (.inserted n, s)
  | .incLockRef node => do
    let (delta, s) ← s.incLockRef node
    return (.locked delta, s)
  | .decLockRef node => do
    let (delta, s) ← s.decLockRef node
    return (.locked delta, s)
  | .evict numTokens => do
    let (n, s') ← s.evict hq numTokens
    return (.evicted n (s'.freed.drop s.freed.length), s')

abbrev links (s : RadixCache) : LinkedTree ChildKey :=
  linksOf s.pageSize s.rootNode s.counter s.nodes

def Admissible (s : RadixCache) : Op → Prop
  | .insert key value _ _ => s.cfg.InsertOk key value
  | .incLockRef node => s.links.InTree node
  | .decLockRef node => s.links.InTree node
  | _ => True

def init (cfg : Config) (clock : Nat → Int) : RadixCache := reset { cfg := cfg, clock := clock }

variable {cfg : Config} {s s' : RadixCache} {G G' : Outline}

section

variable (cfg : Config) (clock : Nat → Int)
include clock

theorem init_resetsTo : ResetsTo { cfg := cfg, clock := clock } (init cfg clock) := reset_spec _

theorem init_cfg : (init cfg clock).cfg = cfg := by
  rw [(init_resetsTo cfg clock).rest]

theorem init_rootNode : (init cfg clock).rootNode = 0 := by
  rw [(init_resetsTo cfg clock).rest]

end

theorem inv_init (pos : 0 < cfg.pageSize) (clock : Nat → Int) :
    Inv (init cfg clock) (bareOutline 0) :=
  inv_reset pos (init_resetsTo cfg clock)

def idle (s : RadixCache) : Op → Reply
  | .matchPrefix _ => .matched [] s.rootNode
  | .insert _ _ _ _ => .inserted 0
  | .incLockRef _ => .locked 0
  | .decLockRef _ => .locked 0
  | .evict _ => .evicted 0 []

inductive Performs (s : RadixCache) (G : Outline) : Op → Reply → RadixCache → Outline → Prop where
  | idle (op : Op) (disabled : s.cfg.disable = true) : Performs s G op (s.idle op) s G
  | matched {s' : RadixCache} {G' : Outline} {key : RadixKey} {slots : List Slot} {node : NodeId}
      (enabled : s.cfg.disable = false) (r : Reshape s G s' G') (live : node ∈ G'.live)
      (here : slots = G'.along (valOf s'.nodes) node)
      (longest : Longest s.pageSize s.rootNode s.nodes (s.cfg.viewKey key).units
        (G'.along (segOf s'.nodes) node) slots) :
      Performs s G (.matchPrefix key) (.matched slots node) s' G'
  | inserted {s' : RadixCache} {G' : Outline} {key : RadixKey} {value : Option (List Slot)} {n : Nat}
      (chunked : Bool) (priority : Int) (enabled : s.cfg.disable = false)
      (values : (s.cfg.viewValue key value).length = (s.cfg.viewKey key).units.length)
      (i : InsertsTo s G (s.cfg.viewKey key).units (s.cfg.viewValue key value) n s' G') :
      Performs s G (.insert key value chunked priority) (.inserted n) s' G'
  | incremented {s' : RadixCache} {node : NodeId} (delta : Int) (enabled : s.cfg.disable = false)
      (live : node ∈ G.live) (e : LocksTo s s' (G.chain node) 1) :
      Performs s G (.incLockRef node) (.locked delta) s' G
  | decremented {s' : RadixCache} {node : NodeId} (delta : Int) (enabled : s.cfg.disable = false)
      (live : node ∈ G.live) (e : LocksTo s s' (G.chain node) (-1)) :
      Performs s G (.decLockRef node) (.locked delta) s' G
  | evicted {s' : RadixCache} {G' : Outline} {want n : Nat} {xs : List NodeId}
      (enabled : s.cfg.disable = false) (v : Evicts want s G s.evictableLeaves 0 xs s' G' n) :
      Performs s G (.evict want) (.evicted n (s'.freed.drop s.freed.length)) s' G'

theorem exec_spec (hq : Heapq) (h : Inv s G) (op : Op) (admissible : s.Admissible op) :
    ∃ reply s' G', s.exec hq op = .ok (reply, s') ∧ Performs s G op reply s' G' := by
  have inTree : ∀ n, s.links.InTree n → n ∈ G.live := fun n hn => h.tree.shape.mem_live_iff.mpr hn
  cases disabled : s.cfg.disable with
  | true =>
    refine ⟨_, s, G, ?_, .idle op disabled⟩
    cases op <;>
      simp [exec, idle, RadixCache.matchPrefix, RadixCache.insert, incLockRef, decLockRef, evict,
        disabled, ok_bind, pure, Except.pure]
  | false =>
    cases op with
    | matchPrefix key =>
      obtain ⟨r, s', G', ran, reshape, live, here, longest⟩ := matchPrefix_spec h disabled key
      refine ⟨.matched r.deviceIndices r.lastDeviceNode, s', G', ?_,
        .matched disabled reshape live here longest⟩
      simp only [exec, ran]
      rfl
    | insert key value chunked priority =>
      obtain ⟨n, s', G', ran, inserts⟩ := insert_spec h disabled admissible chunked priority
      have values := length_viewValue (s := s) admissible
      rw [← length_units] at values
      refine ⟨.inserted n, s', G', ?_, .inserted chunked priority disabled values inserts⟩
      simp only [exec, ran]
      rfl
    | incLockRef node =>
      have live := inTree node admissible
      obtain ⟨s', ran, e⟩ := incLockRef_spec h live disabled
      refine ⟨.locked ((G.chain node).map (s.lockShift 1)).sum, s', G, ?_,
        .incremented _ disabled live e⟩
      simp only [exec, ran]
      rfl
    | decLockRef node =>
      have live := inTree node admissible
      obtain ⟨s', ran, e⟩ := decLockRef_spec h live disabled
      refine ⟨.locked ((G.chain node).map (s.lockShift (-1))).sum, s', G, ?_,
        .decremented _ disabled live e⟩
      simp only [exec, ran]
      rfl
    | evict want =>
      obtain ⟨n, s', G', xs, ran, evicts⟩ := evict_spec hq h disabled want
      refine ⟨.evicted n (s'.freed.drop s.freed.length), s', G', ?_, .evicted disabled evicts⟩
      simp only [exec, ran]
      rfl

end RadixCache

end RedKnot.Radix
