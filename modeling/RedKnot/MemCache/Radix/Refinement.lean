import RedKnot.MemCache.Radix.Exec

/-! `RadixCache` refines a map from page-aligned words to slots. -/

namespace RedKnot.Radix

open LinkedTree NodeHeap RadixKey Function List PrefixMap

namespace RadixCache

inductive Run (hq : Heapq) : RadixCache → List (Op × Reply) → RadixCache → Prop where
  | nil (s : RadixCache) : Run hq s [] s
  | cons {s t s' : RadixCache} {op : Op} {reply : Reply} {rest : List (Op × Reply)}
      (admissible : s.Admissible op) (ran : s.exec hq op = .ok (reply, t))
      (run : Run hq t rest s') : Run hq s ((op, reply) :: rest) s'

end RadixCache

abbrev SlotMap (cfg : Config) := PrefixMap KeyUnit Slot cfg.pageSize

inductive MapStep (cfg : Config) : SlotMap cfg → Op → Reply → SlotMap cfg → Prop where
  | matchPrefix {M : SlotMap cfg} {key : RadixKey} (node : NodeId) :
      MapStep cfg M (.matchPrefix key) (.matched (M.lookup (cfg.viewKey key).units) node) M
  | insert {M : SlotMap cfg} {key : RadixKey} {value : Option (List Slot)} {chunked : Bool}
      {priority : Int} (enabled : cfg.disable = false)
      (values : (cfg.viewValue key value).length = (cfg.viewKey key).units.length) :
      MapStep cfg M (.insert key value chunked priority)
        (.inserted (M.lookup (cfg.viewKey key).units).length)
        (M.insert (cfg.viewKey key).units (cfg.viewValue key value) values)
  | insertDisabled {M : SlotMap cfg} {key : RadixKey} {value : Option (List Slot)} {chunked : Bool}
      {priority : Int} (disabled : cfg.disable = true) :
      MapStep cfg M (.insert key value chunked priority) (.inserted 0) M
  | incLockRef {M : SlotMap cfg} (node : NodeId) (delta : Int) :
      MapStep cfg M (.incLockRef node) (.locked delta) M
  | decLockRef {M : SlotMap cfg} (node : NodeId) (delta : Int) :
      MapStep cfg M (.decLockRef node) (.locked delta) M
  | evict {M N : SlotMap cfg} {freed : List (List Slot)} (numTokens : Nat)
      (prunes : Prunes M freed N) :
      MapStep cfg M (.evict numTokens) (.evicted freed.flatten.length freed) N

theorem MapStep.matched_eq {cfg : Config} {M N : SlotMap cfg} {key : RadixKey} {slots : List Slot}
    {node : NodeId} (step : MapStep cfg M (.matchPrefix key) (.matched slots node) N) :
    slots = M.lookup (cfg.viewKey key).units := by
  cases step
  rfl

inductive MapRun (cfg : Config) : SlotMap cfg → List (Op × Reply) → SlotMap cfg → Prop where
  | nil (M : SlotMap cfg) : MapRun cfg M [] M
  | cons {M N N' : SlotMap cfg} {op : Op} {reply : Reply} {rest : List (Op × Reply)}
      (step : MapStep cfg M op reply N) (run : MapRun cfg N rest N') :
      MapRun cfg M ((op, reply) :: rest) N'

namespace RadixCache

/-- The state `s` with the tree `G` stands for the map `M`. A disabled cache stays empty. -/
structure Sim (cfg : Config) (s : RadixCache) (G : Outline) (M : SlotMap cfg) : Prop where
  cfg_eq : s.cfg = cfg
  inv : Inv s G
  bare : cfg.disable = true → G.live = {s.rootNode}
  rep : Represents s.rootNode s.nodes M

variable {cfg : Config} {s s' : RadixCache} {G G' : Outline} {M : SlotMap cfg}

theorem cached_init (pos : 0 < cfg.pageSize) (clock : Nat → Int) {w : List KeyUnit} {vs : List Slot} :
    Cached cfg.pageSize (init cfg clock).rootNode (init cfg clock).nodes w vs ↔ w = [] ∧ vs = [] := by
  have tree := (inv_init pos clock).tree
  rw [RadixCache.pageSize, init_cfg] at tree
  rw [tree.cached_iff]
  simp only [bareOutline, Finset.mem_singleton, exists_eq_left, Outline.along, flatMap_nil,
    prefix_nil, take_nil]
  constructor
  · exact fun h => h.2
  · rintro ⟨rfl, rfl⟩
    simp

theorem sim_init (pos : 0 < cfg.pageSize) (clock : Nat → Int) :
    Sim cfg (init cfg clock) (bareOutline 0) empty := by
  refine ⟨init_cfg cfg clock, inv_init pos clock, fun _ => ?_, ?_⟩
  · rw [init_rootNode]
    rfl
  · intro w vs
    rw [cached_init pos clock]
    simp only [empty]
    by_cases nil : w = []
    · simp [nil, eq_comm]
    · simp [nil]

section

variable (sim : Sim cfg s G M)
include sim

theorem Sim.reshape (enabled : cfg.disable = false) (r : Reshape s G s' G') : Sim cfg s' G' M := by
  obtain ⟨rfl, inv, _, rep⟩ := sim
  refine ⟨r.cfg, r.inv inv, by simp [enabled], fun w vs => ?_⟩
  rw [rep w vs, r.cached inv]

theorem Sim.lookup_of_disabled (disabled : cfg.disable = true)
    (k : RadixKey) : M.lookup k.units = [] := by
  obtain ⟨rfl, inv, bare, rep⟩ := sim
  have word : G.along (segOf s.nodes) s.rootNode = [] := inv.tree.shape.along_root _
  have slots : G.along (valOf s.nodes) s.rootNode = [] := inv.tree.shape.along_root _
  have none : (s.nodes s.rootNode).children.lookup
      (encPage s.pageSize (k.units.take s.pageSize)) = none := by
    rw [Option.eq_none_iff_forall_ne_some]
    intro c found
    obtain ⟨live, inner, _⟩ := inv.tree.shape.down s.rootNode inv.tree.root_live _ c found
    rw [bare disabled] at live
    exact inner (Finset.mem_singleton.mp live)
  have l := inv.tree.longest_here k inv.tree.root_live rfl (.inr none)
  rw [slots, word, nil_append] at l
  exact (l.lookup rep).2

theorem Sim.insert {us : List KeyUnit} {slots : List Slot} {n : Nat}
    (enabled : cfg.disable = false) (inserts : InsertsTo s G us slots n s' G')
    (values : slots.length = us.length) :
    n = (M.lookup us).length ∧ Sim cfg s' G' (M.insert us slots values) := by
  cases inserts with
  | @present _ _ node r live word =>
    -- Nothing new: the word of the node reached is the whole key.
    have after := sim.reshape enabled r
    have cached : M.get us = some (G'.along (valOf s'.nodes) node) := by
      rw [after.rep, word, ← after.cfg_eq]
      exact after.inv.tree.cached_word live
    rw [insert_of_cached cached]
    refine ⟨?_, after⟩
    rw [M.length_lookup]
    exact le_antisymm (le_depth prefix_rfl cached) (M.depth_le us)
  | @grown t _ G' node k _ r word depth g e =>
    have before := sim.reshape enabled r
    obtain ⟨rfl, inv, _, rep⟩ := before
    have l := inv.tree.longest_here k g.live word (.inr g.free)
    obtain ⟨hdepth, hlookup⟩ := l.lookup rep
    rw [← depth] at hdepth
    refine ⟨by rw [M.length_lookup, hdepth], e.cfg, inv.hang g e, by simp [enabled], ?_⟩
    intro w vs
    have newKey : segOf s'.nodes t.counter = k.units := by
      have : RadixNode.key (s'.nodes t.counter) = k := e.new_key
      rw [segOf, this]
    have newValue : valOf s'.nodes t.counter = slots.drop n := by
      have : RadixNode.value (s'.nodes t.counter) = some (slots.drop n) := e.new_value
      rw [valOf, this]
      rfl
    rw [insert_get_iff, rep w vs, hdepth, hlookup, e.rootNode,
      inv.tree.cached_hang (e.tree g inv) e.links g.live le_rfl, newKey, newValue, ← word]

theorem Sim.locks {ns : List NodeId} {d : Int} (e : LocksTo s s' ns d)
    (chain : ∀ n ∈ ns, n ∈ G.live ∧ n ≠ s.rootNode) : Sim cfg s' G M := by
  obtain ⟨rfl, inv, bare, rep⟩ := sim
  have after := inv.locks e chain
  refine ⟨e.cfg, after, by rw [e.rootNode]; exact bare, fun w vs => ?_⟩
  have tree : IsRadixTree s.pageSize s.rootNode s.counter s'.nodes G := inv.tree.congr e.sameLinks
  rw [rep w vs, e.rootNode, tree.cached_iff, inv.tree.cached_iff, seg_congr e.sameLinks,
    valOf_congr e.sameLinks]

end

theorem Sim.evicts {want n n' : Nat} {cand xs : List NodeId} (v : Evicts want s G cand n xs s' G' n') :
    ∀ {cfg : Config} {M : SlotMap cfg}, Sim cfg s G M → cfg.disable = false →
    ∃ N freed, Prunes M freed N ∧ Sim cfg s' G' N ∧ s'.freed = s.freed ++ freed ∧
      n' = n + freed.flatten.length := by
  induction v with
  | enough | dry => exact fun sim _ => ⟨_, [], .done _, sim, by simp, by simp⟩
  | @take s t s' G G' cand cand' xs n n' p x _ _ _ g e _ _ ih =>
    intro cfg M sim enabled
    obtain ⟨rfl, inv, bare, rep⟩ := sim
    have tree := inv.tree
    have slots := tree.shape.along_up (valOf s.nodes) g.live g.inner g.up
    have plive := tree.keys.parent_live g.live g.inner g.up
    have cached : M.get (G.along (segOf s.nodes) x) = some (G.along (valOf s.nodes) x) :=
      (rep _ _).mpr (tree.cached_word g.live)
    have last : ∀ w vs u, M.get w = some vs → u <+: w → u <+: G.along (segOf s.nodes) x →
        (G.along (segOf s.nodes) p).length < u.length → s.cfg.pageSize ∣ u.length →
        w <+: G.along (segOf s.nodes) x := by
      intro w vs u hw uw ux long paged
      obtain ⟨_, m, hm, wm, _⟩ := tree.cached_iff.mp ((rep w vs).mp hw)
      rw [tree.eq_leaf g.live g.inner g.up g.childless hm paged (uw.trans wm) ux long] at wm
      exact wm
    have inside : (G.along (segOf s.nodes) p).length < (G.along (segOf s.nodes) x).length := by
      have := tree.labelled.path_parent_lt g.live g.inner g.up
      have := tree.page_pos
      omega
    have after : Sim s.cfg t (G.detach x) (M.prune _ _ last) := by
      refine ⟨e.cfg, inv.remove g e, by simp [enabled], fun w vs => ?_⟩
      rw [e.rootNode, tree.cached_drop e.links g.live g.inner g.up g.childless, ← rep w vs]
      simp only [prune]
      split
      · rename_i pruned
        simp [pruned]
      · rename_i kept
        simp [kept]
    obtain ⟨N, freed, prunes, sim', hfreed, hcount⟩ := ih after enabled
    have own : (G.along (valOf s.nodes) x).drop (G.along (segOf s.nodes) p).length =
        (s.nodes x).slots := by
      rw [slots, ← tree.length_along plive, drop_left]
      rfl
    have count : (s.nodes x).slots.length = (s.nodes x).key.len := by
      have := tree.length_valOf g.live g.inner
      rw [segOf, length_units] at this
      exact this
    refine ⟨N, (s.nodes x).slots :: freed, ?_, sim', ?_, ?_⟩
    · rw [← own]
      exact .step cached inside (tree.labelled.path_paged plive) last prunes
    · rw [hfreed, e.rest]
      simp
    · rw [hcount, flatten_cons, length_append, count]
      omega

theorem Sim.performs {op : Op} {reply : Reply} (sim : Sim cfg s G M)
    (p : Performs s G op reply s' G') : ∃ N, MapStep cfg M op reply N ∧ Sim cfg s' G' N := by
  have rep := sim.rep
  obtain rfl := sim.cfg_eq
  cases p with
  | idle _ disabled =>
    refine ⟨M, ?_, sim⟩
    cases op with
    | matchPrefix key =>
      have none := sim.lookup_of_disabled disabled (s.cfg.viewKey key)
      have step : MapStep s.cfg M (.matchPrefix key) _ M := .matchPrefix s.rootNode
      rwa [none] at step
    | insert => exact .insertDisabled disabled
    | incLockRef => exact .incLockRef _ _
    | decLockRef => exact .decLockRef _ _
    | evict => exact .evict _ (.done M)
  | matched enabled r _ _ longest =>
    rw [← (longest.lookup rep).2]
    exact ⟨M, .matchPrefix _, sim.reshape enabled r⟩
  | inserted chunked priority enabled values i =>
    obtain ⟨rfl, after⟩ := sim.insert enabled i values
    exact ⟨_, .insert enabled values, after⟩
  | incremented _ _ live e =>
    exact ⟨M, .incLockRef _ _, sim.locks e (sim.inv.tree.shape.chain_live live)⟩
  | decremented _ _ live e =>
    exact ⟨M, .decLockRef _ _, sim.locks e (sim.inv.tree.shape.chain_live live)⟩
  | evicted enabled v =>
    obtain ⟨N, freed, prunes, after, hfreed, hcount⟩ := Sim.evicts v sim enabled
    rw [hfreed, drop_left, hcount, zero_add]
    exact ⟨N, .evict _ prunes, after⟩

theorem Sim.step (hq : Heapq) (sim : Sim cfg s G M) (op : Op) (admissible : s.Admissible op) :
    ∃ reply s' G' N, s.exec hq op = .ok (reply, s') ∧ MapStep cfg M op reply N ∧ Sim cfg s' G' N := by
  obtain ⟨reply, s', G', ran, performs⟩ := exec_spec hq sim.inv op admissible
  obtain ⟨N, step, after⟩ := sim.performs performs
  exact ⟨reply, s', G', N, ran, step, after⟩

theorem Sim.run {hq : Heapq} {trace : List (Op × Reply)} (run : Run hq s trace s') :
    ∀ {cfg : Config} {G : Outline} {M : SlotMap cfg}, Sim cfg s G M →
    ∃ G' N, MapRun cfg M trace N ∧ Sim cfg s' G' N := by
  induction run with
  | nil => exact fun sim => ⟨_, _, .nil _, sim⟩
  | cons admissible ran _ ih =>
    intro cfg G M sim
    obtain ⟨reply, t, G', N, ran', step, after⟩ := sim.step hq _ admissible
    rw [ran] at ran'
    cases ran'
    obtain ⟨G'', N', steps, last⟩ := ih after
    exact ⟨G'', N', .cons step steps, last⟩

def isFiled (s : RadixCache) : Nat → NodeId → Bool
  | 0, n => n == s.rootNode
  | fuel + 1, n =>
    n == s.rootNode ||
      match (s.nodes n).parent with
      | none => false
      | some p => (s.nodes p).children.lookup (s.links.tag n) == some n && s.isFiled fuel p

def isAdmissible (s : RadixCache) : Op → Bool
  | .insert key value _ _ =>
    value.all (fun v => (s.cfg.viewKey key).len ≤ v.length) &&
      (!s.cfg.enableKvCacheEvents || key.tokenIds.all (· < 2 ^ 32))
  | .incLockRef node => s.isFiled s.counter node
  | .decLockRef node => s.isFiled s.counter node
  | _ => true

theorem inTree_of_isFiled {fuel : Nat} {n : NodeId} (h : s.isFiled fuel n = true) :
    s.links.InTree n := by
  induction fuel generalizing n with
  | zero =>
    obtain rfl : n = s.rootNode := by simpa [isFiled] using h
    exact .root
  | succ fuel ih =>
    rw [isFiled, Bool.or_eq_true] at h
    rcases h with top | inner
    · obtain rfl : n = s.rootNode := by simpa using top
      exact .root
    · split at inner
      · cases inner
      · rename_i p _
        rw [Bool.and_eq_true, beq_iff_eq] at inner
        exact .child (ih inner.2) inner.1

theorem admissible_of_isAdmissible {op : Op} (h : s.isAdmissible op = true) : s.Admissible op := by
  cases op with
  | matchPrefix => trivial
  | evict => trivial
  | incLockRef | decLockRef => exact inTree_of_isFiled h
  | insert key value chunked priority =>
    rw [isAdmissible, Bool.and_eq_true] at h
    constructor
    · rintro v rfl
      simpa using h.1
    · intro events
      simpa [events] using h.2

def replay (hq : Heapq) : RadixCache → List Op → Option (List Reply)
  | _, [] => some []
  | s, op :: ops =>
    if s.isAdmissible op then
      match s.exec hq op with
      | .error _ => none
      | .ok (reply, t) => (replay hq t ops).map (reply :: ·)
    else none

theorem run_of_replay (hq : Heapq) (s : RadixCache) (ops : List Op) (replies : List Reply)
    (h : replay hq s ops = some replies) : ∃ s', Run hq s (ops.zip replies) s' := by
  induction ops generalizing s replies with
  | nil => exact ⟨s, by simpa using Run.nil s⟩
  | cons op ops ih =>
    rw [replay] at h
    split at h
    · rename_i admissible
      split at h
      · cases h
      · rename_i reply t ran
        obtain ⟨rest, hrest, rfl⟩ := Option.map_eq_some_iff.mp h
        obtain ⟨s', run⟩ := ih t rest hrest
        exact ⟨s', .cons (admissible_of_isAdmissible admissible) ran run⟩
    · cases h

end RadixCache

open RadixCache in
/-- Every run of a new cache is a run of the map of cached prefixes, with the same replies and
without a failure. -/
theorem radixCache_refines_slotMap (hq : Heapq) (cfg : Config) (pos : 0 < cfg.pageSize)
    (clock : Nat → Int) {trace : List (Op × Reply)} {s : RadixCache}
    (run : Run hq (init cfg clock) trace s) :
    ∃ M : SlotMap cfg, MapRun cfg empty trace M ∧ Represents s.rootNode s.nodes M ∧
      (∀ op, s.Admissible op → ∃ reply s' N, s.exec hq op = .ok (reply, s') ∧
        MapStep cfg M op reply N ∧ Represents s'.rootNode s'.nodes N) ∧
      ∀ key value chunked priority r t n u, s.matchPrefix key = .ok (r, t) →
        cfg.InsertOk key value → s.insert key value chunked priority = .ok (n, u) →
        n = r.deviceIndices.length := by
  obtain ⟨G, M, steps, sim⟩ := Sim.run run (sim_init pos clock)
  refine ⟨M, steps, sim.rep, fun op admissible => ?_, ?_⟩
  · obtain ⟨reply, s', G', N, ran, step, after⟩ := sim.step hq op admissible
    exact ⟨reply, s', N, ran, step, after.rep⟩
  · intro key value chunked priority r t n u found ok inserted
    have looked : s.exec hq (.matchPrefix key) =
        .ok (.matched r.deviceIndices r.lastDeviceNode, t) := by
      simp only [exec, found]
      rfl
    have grown : s.exec hq (.insert key value chunked priority) = .ok (.inserted n, u) := by
      simp only [exec, inserted]
      rfl
    have lookup : r.deviceIndices = M.lookup (cfg.viewKey key).units := by
      obtain ⟨reply, _, _, _, ran, step, _⟩ := sim.step hq (.matchPrefix key) trivial
      cases looked.symm.trans ran
      exact step.matched_eq
    have okay : s.cfg.InsertOk key value := by rwa [sim.cfg_eq]
    obtain ⟨reply, _, _, _, ran, step, _⟩ :=
      sim.step hq (.insert key value chunked priority) okay
    cases grown.symm.trans ran
    rw [lookup]
    cases step with
    | insert => rfl
    | insertDisabled disabled => rw [sim.lookup_of_disabled disabled]; rfl

theorem slotMap_of_short_run :
    let cfg : Config := { pageSize := 2, sha256 := fun _ => [] }
    let a : RadixKey := { tokenIds := [1, 2, 3, 4, 5] }
    let b : RadixKey := { tokenIds := [1, 2, 9, 9] }
    let c : RadixKey := { tokenIds := [1, 2, 3, 4], extraKey := some "lora" }
    ∃ (s : RadixCache) (M : SlotMap cfg), MapRun cfg empty
      [(.insert a (some [10, 11, 12, 13, 14]) false 0, .inserted 0),
       (.matchPrefix b, .matched [10, 11] 2),
       (.insert c (some [20, 21, 22, 23]) false 0, .inserted 0),
       (.matchPrefix a, .matched [10, 11, 12, 13] 1),
       (.evict 1, .evicted 4 [[20, 21, 22, 23]]),
       (.evict 1, .evicted 2 [[12, 13]]),
       (.matchPrefix a, .matched [10, 11] 2)] M ∧
      Represents s.rootNode s.nodes M := by
  intro cfg a b c
  obtain ⟨s, run⟩ := RadixCache.run_of_replay Heapq.scan (RadixCache.init cfg (fun n => n))
    [.insert a (some [10, 11, 12, 13, 14]) false 0, .matchPrefix b,
      .insert c (some [20, 21, 22, 23]) false 0, .matchPrefix a, .evict 1, .evict 1, .matchPrefix a]
    [.inserted 0, .matched [10, 11] 2, .inserted 0, .matched [10, 11, 12, 13] 1,
      .evicted 4 [[20, 21, 22, 23]], .evicted 2 [[12, 13]], .matched [10, 11] 2]
    (by decide +kernel)
  obtain ⟨M, steps, rep, _⟩ := radixCache_refines_slotMap Heapq.scan cfg (by decide) _ run
  exact ⟨s, M, steps, rep⟩

end RedKnot.Radix
