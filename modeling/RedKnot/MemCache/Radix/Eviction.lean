import RedKnot.MemCache.Radix.Accounting

/-! `evict` removes unlocked leaves of least priority one at a time. -/

namespace RedKnot.Radix

open LinkedTree NodeHeap RadixKey Function List Heapq

namespace RadixCache

structure UnlockedLeaf (s : RadixCache) (n : NodeId) : Prop where
  inTree : s.links.InTree n
  inner : n ≠ s.rootNode
  childless : ∀ k, s.links.kid n k = none
  unlocked : (s.nodes n).lockRef = 0

def priorityOf (s : RadixCache) (n : NodeId) : Int ×ₗ Int :=
  s.cfg.evictionStrategy.getPriority (s.nodes n)

/-- The node `x` is out of the tree and its slots are with the allocator; all other nodes keep
their place, key, slots, lock count and priority. -/
structure Removed (s t : RadixCache) (x : NodeId) : Prop where
  root : t.rootNode = s.rootNode
  tree : ∀ n, t.links.InTree n ↔ s.links.InTree n ∧ n ≠ x
  nodes : ∀ n, (t.nodes n).parent = (s.nodes n).parent ∧ (t.nodes n).key = (s.nodes n).key ∧
    (t.nodes n).slots = (s.nodes n).slots ∧ (t.nodes n).lockRef = (s.nodes n).lockRef
  priority : ∀ n, t.priorityOf n = s.priorityOf n
  freed : t.freed = s.freed ++ [(s.nodes x).slots]

/-- Removal of unlocked leaves of least priority up to the first that makes `want` tokens: from `n`
tokens freed, removing `xs` makes `n'`. -/
inductive Greedy (want : Nat) : RadixCache → Nat → List NodeId → RadixCache → Nat → Prop where
  | enough {s : RadixCache} {n : Nat} (reached : want ≤ n) : Greedy want s n [] s n
  | dry {s : RadixCache} {n : Nat} (none : ∀ x, ¬ s.UnlockedLeaf x) : Greedy want s n [] s n
  | take {s t s' : RadixCache} {n n' : Nat} {x : NodeId} {xs : List NodeId} (short : n < want)
      (leaf : s.UnlockedLeaf x) (least : ∀ y, s.UnlockedLeaf y → s.priorityOf x ≤ s.priorityOf y)
      (removed : Removed s t x) (rest : Greedy want t (n + (s.nodes x).slots.length) xs s' n') :
      Greedy want s n (x :: xs) s' n'

variable {s s' : RadixCache} {G G' : Outline} {L cand xs : List NodeId} {want n n' : Nat}

theorem Greedy.short_before (g : Greedy want s n xs s' n') {ys zs : List NodeId} {x : NodeId}
    (split : xs = ys ++ x :: zs) : n + (ys.map (fun y => (s.nodes y).slots.length)).sum < want := by
  induction g generalizing ys with
  | enough => simp at split
  | dry => simp at split
  | @take s _ _ _ _ _ _ short _ _ removed _ ih =>
    rcases ys with _ | ⟨y, ys⟩
    · simpa using short
    · obtain ⟨rfl, tail⟩ := cons.inj split
      have later := ih tail
      simp only [(removed.nodes _).2.2.1] at later
      rw [map_cons, sum_cons]
      omega

theorem Greedy.effect (g : Greedy want s n xs s' n') :
    (∀ x ∈ xs, s.links.InTree x ∧ x ≠ s.rootNode ∧ (s.nodes x).lockRef = 0) ∧ xs.Nodup ∧
      (∀ m, s'.links.InTree m ↔ s.links.InTree m ∧ m ∉ xs) ∧
      s'.freed = s.freed ++ xs.map (fun x => (s.nodes x).slots) ∧
      n' = n + (xs.map (fun x => (s.nodes x).slots.length)).sum := by
  induction g with
  | enough => simp
  | dry => simp
  | @take s t s' n n' x xs short leaf _ removed _ ih =>
    obtain ⟨old, nodup, stay, freed, count⟩ := ih
    have same : ∀ m, (t.nodes m).slots = (s.nodes m).slots := fun m => (removed.nodes m).2.2.1
    refine ⟨?_, ?_, ?_, ?_, ?_⟩
    · rintro y (_ | ⟨_, hy⟩)
      · exact ⟨leaf.inTree, leaf.inner, leaf.unlocked⟩
      · obtain ⟨inTree, inner, free⟩ := old y hy
        rw [(removed.nodes y).2.2.2] at free
        exact ⟨((removed.tree y).mp inTree).1, removed.root ▸ inner, free⟩
    · refine nodup_cons.mpr ⟨fun hx => ?_, nodup⟩
      exact ((removed.tree x).mp (old x hx).1).2 rfl
    · intro m
      rw [stay, removed.tree, mem_cons, not_or, and_assoc]
    · rw [freed, removed.freed]
      simp [same]
    · rw [count]
      simp only [same, map_cons, sum_cons]
      omega

theorem Books.unlockedLeaf_iff (b : Books s G L) {x : NodeId} :
    s.UnlockedLeaf x ↔ x ∈ s.evictableLeaves := by
  have leaves := b.accounting.leaves x
  constructor
  · exact fun h => leaves.mpr ⟨h.inTree, h.inner, h.childless, h.unlocked⟩
  · intro h
    obtain ⟨inTree, inner, childless, unlocked⟩ := leaves.mp h
    exact ⟨inTree, inner, childless, unlocked⟩

theorem Books.removed {p x : NodeId} (b : Books s G L) (g : Leaf s G p x) (e : RemovesTo s s' p x) :
    Removed s s' x where
  root := e.rootNode
  tree := by
    intro m
    rw [← (b.inv.remove g e).tree.shape.mem_live_iff, ← b.inv.tree.shape.mem_live_iff]
    exact Finset.mem_erase.trans and_comm
  nodes := by
    intro m
    have hvalue : (s'.nodes m).value = (s.nodes m).value := IsRadixTree.value_drop e.links m
    exact ⟨e.links.keys.parent m, e.links.keys.key m,
      by rw [TreeNode.slots, hvalue, TreeNode.slots], e.lock m⟩
  priority := fun m => congrArg HeapEntry.priority (e.entry m)
  freed := by rw [e.rest]

theorem Books.greedy (v : Evicts want s G cand n xs s' G' n') (b : Books s G L)
    (perm : cand.Perm s.evictableLeaves) : Greedy want s n xs s' n' := by
  induction v with
  | enough reached => exact .enough reached
  | dry =>
    refine .dry fun x leaf => ?_
    have := perm.mem_iff.mpr (b.unlockedLeaf_iff.mp leaf)
    cases this
  | @take s t _ G _ _ _ _ n _ p x short member least g e next _ ih =>
    have leaf := b.unlockedLeaf_iff.mpr (perm.mem_iff.mp member)
    have rest := ih (b.remove g e leaf.unlocked) (b.remove_candidates perm g e leaf.unlocked next)
    have count : (s.nodes x).slots.length = (s.nodes x).key.len := by
      have := b.inv.tree.length_valOf g.live g.inner
      rw [segOf, length_units] at this
      exact this
    rw [← count] at rest
    refine .take short leaf (fun y hy => ?_) (b.removed g e) rest
    exact Prod.Lex.monotone_fst _ _ (least y (perm.mem_iff.mpr (b.unlockedLeaf_iff.mp hy)))

theorem Evicts.total (v : Evicts want s G cand n xs s' G' n') :
    n' + s'.evictableSize = n + s.evictableSize := by
  induction v with
  | enough => rfl
  | dry => rfl
  | take _ _ _ _ e _ _ ih =>
    rw [ih, e.rest]
    push_cast
    ring

theorem Greedy.ends (g : Greedy want s n xs s' n') : want ≤ n' ∨ ∀ x, ¬ s'.UnlockedLeaf x := by
  induction g with
  | enough reached => exact .inl reached
  | dry none => exact .inr none
  | take _ _ _ _ _ ih => exact ih

theorem Books.evictable_zero (b : Books s G L) (none : ∀ x, ¬ s.UnlockedLeaf x) :
    s.evictableSize = 0 := by
  have shape := b.inv.tree.shape
  rw [b.evictable]
  apply Finset.sum_eq_zero
  intro m hm
  have live := Finset.mem_of_mem_erase hm
  have inner := Finset.ne_of_mem_erase hm
  unfold freeLen freeShare
  rw [if_neg]
  intro low
  obtain ⟨x, xlive, above, childless⟩ := shape.exists_leaf_below live inner
  have xinner : x ≠ s.rootNode := by
    rintro rfl
    have top : G.chain s.rootNode = [] := shape.chain_root
    rw [top] at above
    cases above
  have fewer := shape.holders_mono above b.held
  have hm := b.lock m live inner
  have hx := b.lock x xlive xinner
  exact none x ⟨shape.mem_live_iff.mp xlive, xinner, childless, by omega⟩

theorem Evicts.protectedSize (v : Evicts want s G cand n xs s' G' n') :
    s'.protectedSize = s.protectedSize := by
  induction v with
  | enough => rfl
  | dry => rfl
  | take _ _ _ _ e _ _ ih => rw [ih, e.rest]

theorem Kept.evict {cfg : Config} (k : Kept cfg s G L) (hq : Heapq) (want : Nat) :
    ∃ n s' xs, s.evict hq want = .ok (n, s') ∧ Greedy want s 0 xs s' n ∧
      min (want : Int) s.evictableSize ≤ n ∧ n + s'.evictableSize = s.evictableSize ∧
      s'.protectedSize = s.protectedSize := by
  have b := k.books
  cases disabled : cfg.disable with
  | true =>
    have none : ∀ x, ¬ s.UnlockedLeaf x := by
      intro x leaf
      have live := b.inv.tree.shape.mem_live_iff.mpr leaf.inTree
      rw [k.bare disabled] at live
      exact leaf.inner (Finset.mem_singleton.mp live)
    refine ⟨0, s, [], ?_, .dry none, ?_, by simp, rfl⟩
    · simp [RadixCache.evict, k.cfg_eq, disabled]
    · rw [b.evictable_zero none]
      exact min_le_right _ _
  | false =>
    obtain ⟨n, s', G', xs, ran, v⟩ := evict_spec hq b.inv (k.cfg_eq ▸ disabled) want
    have greedy := Books.greedy v b (.refl _)
    have after := Books.evicts v b (.refl _)
    have total := v.total
    push_cast at total
    refine ⟨n, s', xs, ran, greedy, ?_, by omega, v.protectedSize⟩
    rcases greedy.ends with reached | none
    · have := min_le_left (want : Int) s.evictableSize
      omega
    · have := min_le_right (want : Int) s.evictableSize
      have := after.evictable_zero none
      omega

end RadixCache

open RadixCache

/-- In every state that a run with balanced locks reaches, `evict` removes unlocked leaves of least
priority, hands the slots of each to the allocator once, and stops at the requested amount. -/
theorem evict_safe_and_complete (hq : Heapq) (cfg : Config) (pos : 0 < cfg.pageSize)
    (clock : Nat → Int) {s : RadixCache} {L : List NodeId} (reach : Reaches hq cfg clock s L)
    (want : Nat) :
    ∃ n s' xs, s.evict hq want = .ok (n, s') ∧ Greedy want s 0 xs s' n ∧
      min (want : Int) s.evictableSize ≤ n ∧
      (∀ x ∈ xs, s.links.InTree x ∧ x ≠ s.rootNode ∧ (s.nodes x).lockRef = 0) ∧ xs.Nodup ∧
      (∀ m, s'.links.InTree m ↔ s.links.InTree m ∧ m ∉ xs) ∧
      s'.freed = s.freed ++ xs.map (fun x => (s.nodes x).slots) ∧
      n = (xs.map (fun x => (s.nodes x).slots.length)).sum ∧
      ∀ ys x zs, xs = ys ++ x :: zs → (ys.map (fun y => (s.nodes y).slots.length)).sum < want := by
  obtain ⟨G, k⟩ := kept_of_reaches pos reach
  obtain ⟨n, s', xs, ran, greedy, enough, -, -⟩ := k.evict hq want
  obtain ⟨old, nodup, stay, freed, count⟩ := greedy.effect
  rw [zero_add] at count
  refine ⟨n, s', xs, ran, greedy, enough, old, nodup, stay, freed, count, fun ys x zs split => ?_⟩
  simpa using greedy.short_before split

theorem evict_takes_parent_after_leaves :
    let cfg : Config := { pageSize := 2, sha256 := fun _ => [] }
    ∃ s s' xs, Reaches scan cfg (fun n => n) s [4] ∧ s.evict scan 5 = .ok (6, s') ∧
      Greedy 5 s 0 xs s' 6 ∧ s'.freed = [[20, 21], [12, 13], [10, 11]] := by
  intro cfg
  have run : (follow scan (init cfg (fun n => n)) []
      [.insert { tokenIds := [1, 2, 3, 4] } (some [10, 11, 12, 13]) false 0,
       .insert { tokenIds := [1, 2, 5, 6] } (some [10, 11, 20, 21]) false 0,
       .matchPrefix { tokenIds := [1, 2, 3, 4] },
       .insert { tokenIds := [7, 8] } (some [30, 31]) false 0, .incLockRef 4]).map
      (fun r => (r.2, (r.1.evict scan 5).toOption.map fun e => (e.1, e.2.freed))) =
      some ([4], some (6, [[20, 21], [12, 13], [10, 11]])) := by
    decide +kernel
  obtain ⟨⟨s, L⟩, followed, facts⟩ := Option.map_eq_some_iff.mp run
  obtain ⟨rfl, evicted⟩ := Prod.mk.inj facts
  have reach := reaches_of_follow _ .init followed
  obtain ⟨n, s', xs, ran, greedy, _⟩ :=
    evict_safe_and_complete scan cfg (by decide) (fun n => n) reach 5
  rw [ran] at evicted
  obtain ⟨rfl, freed⟩ := Prod.mk.inj (Option.some.inj evicted)
  exact ⟨s, s', xs, reach, ran, greedy, freed⟩

end RedKnot.Radix
