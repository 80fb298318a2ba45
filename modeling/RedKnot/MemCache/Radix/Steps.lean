import RedKnot.MemCache.Radix.Model
import RedKnot.MemCache.Represents

/-! What the helpers of `RadixCache` do to the state, said once. Every invariant of the cache is
proved against `Reshape`, `HangsTo`, `RemovesTo` and `LocksTo`. -/

namespace RedKnot.Radix.RadixCache

open LinkedTree NodeHeap RadixKey Function Finset

/-- The tree, and the entries of `evictable_leaves` that the loop of `evict` relies on. -/
structure Inv (s : RadixCache) (G : Outline) : Prop where
  tree : IsRadixTree s.pageSize s.rootNode s.counter s.nodes G
  root_value : (s.nodes s.rootNode).value = some []
  root_lock : (s.nodes s.rootNode).lockRef = 1
  leaves_nodup : s.evictableLeaves.Nodup
  leaves_ok : ∀ n ∈ s.evictableLeaves,
    n ∈ G.live ∧ n ≠ s.rootNode ∧ (s.nodes n).children = ∅
  hashed : s.cfg.enableKvCacheEvents = true → ∀ n ∈ G.live, n ≠ s.rootNode →
    ∃ hs, (s.nodes n).hashValue = some hs ∧ hs.length * s.pageSize = (s.nodes n).key.len

structure SameCore (a b : TreeNode) : Prop where
  links : SameLinks a b
  lockRef : a.lockRef = b.lockRef
  hashValue : a.hashValue = b.hashValue

structure Touched (s s' : RadixCache) : Prop where
  nodes : ∀ n, SameCore (s'.nodes n) (s.nodes n)
  rest : s' = { s with nodes := s'.nodes, ticks := s'.ticks }

/-- The node `c` was split after `len` units; the new upper half is `s.counter`. -/
structure SplitsTo (s s' : RadixCache) (p c : NodeId) (len : Nat) : Prop where
  links : SplitOf s.pageSize s.nodes s'.nodes p c s.counter len
  upper_lock : (s'.nodes s.counter).lockRef = (s.nodes c).lockRef
  upper_hash : (s'.nodes s.counter).hashValue =
    (splitNodeHashValue (s.nodes c).hashValue len s.pageSize).1
  lower_hash : (s'.nodes c).hashValue =
    (splitNodeHashValue (s.nodes c).hashValue len s.pageSize).2
  other_lock : ∀ n, n ≠ s.counter → (s'.nodes n).lockRef = (s.nodes n).lockRef
  other_hash : ∀ n, n ≠ s.counter → n ≠ c → (s'.nodes n).hashValue = (s.nodes n).hashValue
  rest : s' = { s with nodes := s'.nodes, ticks := s'.ticks, counter := s.counter + 1 }

/-- A leaf with key `k` and value `v` was hung under `p`; it is `s.counter`. -/
structure HangsTo (s s' : RadixCache) (p : NodeId) (k : RadixKey) (v : List Slot) : Prop where
  links : HangOf s.pageSize s.nodes s'.nodes p s.counter
  new_key : (s'.nodes s.counter).key = k
  new_value : (s'.nodes s.counter).value = some v
  new_lock : (s'.nodes s.counter).lockRef = 0
  other_lock : ∀ n, n ≠ s.counter → (s'.nodes n).lockRef = (s.nodes n).lockRef
  other_hash : ∀ n, n ≠ s.counter → (s'.nodes n).hashValue = (s.nodes n).hashValue
  leaves : s'.evictableLeaves = (s.evictableLeaves.erase p).insert s.counter
  stored : s.cfg.enableKvCacheEvents = true →
    ∃ hs, hs = digests s.cfg.sha256 s.pageSize (k.len / s.pageSize) k.units (s.seedOf p) ∧
      (s'.nodes s.counter).hashValue = some hs ∧
      s'.kvEventQueue = s.kvEventQueue ++
        storedEvents k s.pageSize (hs.map hashStrToInt64) 0 (s.parentBlock p)
  silent : s.cfg.enableKvCacheEvents = false → s'.kvEventQueue = s.kvEventQueue
  rest : s' = { s with
    nodes := s'.nodes
    ticks := s'.ticks
    counter := s.counter + 1
    evictableSize := s.evictableSize + k.len
    evictableLeaves := s'.evictableLeaves
    kvEventQueue := s'.kvEventQueue }

/-- The leaf `x` was dropped from its parent `p`, its slots freed. -/
structure RemovesTo (s s' : RadixCache) (p x : NodeId) : Prop where
  links : DropOf s.pageSize s.nodes s'.nodes p x
  lock : ∀ n, (s'.nodes n).lockRef = (s.nodes n).lockRef
  hash : ∀ n, (s'.nodes n).hashValue = (s.nodes n).hashValue
  entry : ∀ n, s'.heapEntry n = s.heapEntry n
  leaves : s'.evictableLeaves =
    if (s'.nodes p).lockRef ≤ 0 ∧ (s'.nodes p).children = ∅ then (s.evictableLeaves.erase x).insert p
    else (s.evictableLeaves.erase x).erase p
  removed : s.cfg.enableKvCacheEvents = true → s'.kvEventQueue = s.kvEventQueue ++
    (((s.nodes x).hashValue.getD []).map hashStrToInt64).map (fun h => .blockRemoved [h] .gpu)
  silent : s.cfg.enableKvCacheEvents = false → s'.kvEventQueue = s.kvEventQueue
  rest : s' = { s with
    nodes := s'.nodes
    evictableSize := s.evictableSize - (s.nodes x).key.len
    evictableLeaves := s'.evictableLeaves
    kvEventQueue := s'.kvEventQueue
    freed := s.freed ++ [(s.nodes x).slots] }

theorem SameCore.refl (a : TreeNode) : SameCore a a := ⟨.refl a, rfl, rfl⟩

theorem SameCore.trans {a b c : TreeNode} (h : SameCore a b) (h' : SameCore b c) : SameCore a c :=
  ⟨h.1.trans h'.1, h.2.trans h'.2, h.3.trans h'.3⟩

variable {s s' s'' : RadixCache} {G G' : Outline}

theorem Touched.refl (s : RadixCache) : Touched s s := ⟨fun _ => .refl _, rfl⟩

theorem Touched.trans (t : Touched s s') (t' : Touched s' s'') : Touched s s'' := by
  refine ⟨fun n => (t'.nodes n).trans (t.nodes n), ?_⟩
  have h := t.rest
  have h' := t'.rest
  rw [h] at h'
  exact h'

section

variable (s : RadixCache) (n : NodeId)

theorem touched_modify (f : TreeNode → TreeNode)
    (core : ∀ a, SameCore (f a) a) : Touched s (s.modify n f) := by
  refine ⟨fun m => ?_, rfl⟩
  by_cases h : m = n
  · subst h
    simpa [modify] using core _
  · simp only [modify, update_of_ne h]
    exact .refl _

theorem touched_access (t : Int) :
    Touched s (s.modify n (fun a => { a with lastAccessTime := t })) :=
  touched_modify s n _ (fun _ => ⟨⟨rfl, rfl, rfl, rfl⟩, rfl, rfl⟩)

theorem touched_priority (q : Int) :
    Touched s (s.modify n (fun a => { a with priority := max a.priority q })) :=
  touched_modify s n _ (fun _ => ⟨⟨rfl, rfl, rfl, rfl⟩, rfl, rfl⟩)

theorem touched_incHitCount (chunked : Bool) : Touched s (s.incHitCount n chunked) := by
  unfold incHitCount
  split
  · exact .refl s
  · exact touched_modify s n _ (fun _ => ⟨⟨rfl, rfl, rfl, rfl⟩, rfl, rfl⟩)

end

theorem touched_monotonic (s : RadixCache) : Touched s s.monotonic.2 := ⟨fun _ => .refl _, rfl⟩

section

variable (t : Touched s s')
include t

theorem Touched.cfg : s'.cfg = s.cfg := by rw [t.rest]

theorem Touched.pageSize : s'.pageSize = s.pageSize := by
  simp only [RadixCache.pageSize, t.cfg]

theorem Touched.rootNode : s'.rootNode = s.rootNode := by rw [t.rest]

theorem Touched.counter : s'.counter = s.counter := by rw [t.rest]

theorem Touched.evictableLeaves : s'.evictableLeaves = s.evictableLeaves := by
  rw [t.rest]

theorem Touched.sameLinks (n : NodeId) : SameLinks (s'.nodes n) (s.nodes n) :=
  (t.nodes n).links

end

theorem Inv.touched (h : Inv s G) (t : Touched s s') : Inv s' G where
  tree := by
    rw [t.pageSize, t.rootNode, t.counter]
    exact h.tree.congr t.sameLinks
  root_value := by
    rw [t.rootNode]
    exact (t.sameLinks _).value.trans h.root_value
  root_lock := by rw [t.rootNode, (t.nodes _).lockRef, h.root_lock]
  leaves_nodup := t.evictableLeaves ▸ h.leaves_nodup
  leaves_ok := by
    intro n hn
    rw [t.evictableLeaves] at hn
    obtain ⟨live, inner, leaf⟩ := h.leaves_ok n hn
    exact ⟨live, t.rootNode ▸ inner, (t.sameLinks n).children.trans leaf⟩
  hashed := by
    rw [t.cfg, t.pageSize, t.rootNode]
    intro enabled n hn inner
    obtain ⟨hs, hhs, hlen⟩ := h.hashed enabled n hn inner
    exact ⟨hs, (t.nodes n).hashValue.trans hhs, hlen.trans (congrArg len (t.sameLinks n).key.symm)⟩

section Split

variable {p c : NodeId} {len : Nat}

theorem splitNode_spec (h : Inv s G) (hc : c ∈ G.live) (inner : c ≠ s.rootNode)
    (hp : (s.nodes c).parent = some p) (proper : len < (s.nodes c).key.len)
    (paged : s.pageSize ∣ len) :
    ∃ s', s.splitNode (s.nodes c).key c len = .ok (s.counter, s') ∧ SplitsTo s s' p c len := by
  have page := h.tree.page_pos
  have pc : p ≠ c := h.tree.keys.parent_ne hc inner hp
  have ac : s.counter ≠ c := (h.tree.ne_next hc).symm
  have pa : p ≠ s.counter := h.tree.ne_next (h.tree.keys.parent_live hc inner hp)
  obtain ⟨v, hv, vlen⟩ := h.tree.valued c hc inner
  have hv : (s.nodes c).value = some v := hv
  have whole := h.tree.keys.page_le hc inner
  have rest : s.pageSize ≤ (s.nodes c).key.len - len :=
    Nat.le_of_dvd (by omega) (Nat.dvd_sub (h.tree.paged hc inner) paged)
  have hupper : (s.nodes c).key.childKey s.pageSize = _ := childKey_of_page page whole
  have hlower := childKey_of_page (k := (s.nodes c).key.fromIdx len) page (by rwa [len_fromIdx])
  rw [units_fromIdx] at hlower
  simp only [splitNode, newTreeNode, monotonic, RadixCache.pageSize, hupper, hlower, hv, hp, bind,
    Except.bind]
  refine ⟨_, rfl, ⟨?_, ?_, ?_, ?_, ?_, ?_, ?_, ?_, ?_, ?_, ?_, ?_, ?_⟩, ?_, ?_, ?_, ?_, ?_, ?_⟩
  case refine_19 => rfl
  case refine_13 =>
    intro n na nc np
    simp [modify, na, nc, np, SameLinks.refl]
  case refine_17 =>
    intro n na
    by_cases np : n = p
    · simp [modify, np, pc, pa]
    · by_cases nc : n = c <;> simp [modify, np, nc, na, ac.symm, pc.symm]
  case refine_18 =>
    intro n na nc
    by_cases np : n = p
    · simp [modify, np, pc, pa]
    · simp [modify, np, nc, na]
  -- The three nodes that were written.
  all_goals simp [modify, RadixNode.parent, RadixNode.children, RadixNode.key, RadixNode.value, pc,
    pa, ac, pa.symm, ac.symm, pc.symm, hv]

section

variable (e : SplitsTo s s' p c len)
include e

theorem SplitsTo.cfg : s'.cfg = s.cfg := by rw [e.rest]

theorem SplitsTo.rootNode : s'.rootNode = s.rootNode := by rw [e.rest]

theorem SplitsTo.counter : s'.counter = s.counter + 1 := by rw [e.rest]

theorem SplitsTo.evictableLeaves : s'.evictableLeaves = s.evictableLeaves := by rw [e.rest]

end

theorem splitNodeHashValue_lengths {hs : List Digest} {P n : Nat} (pos : 0 < P) (paged : P ∣ len)
    (proper : len ≤ n) (sized : hs.length * P = n) :
    ∃ us ls, splitNodeHashValue (some hs) len P = (some us, some ls) ∧
      us.length * P = len ∧ ls.length * P = n - len := by
  have pages : (if P = 1 then len else len / P) = len / P := by
    split
    · rename_i one
      simp [one]
    · rfl
  have whole := Nat.div_mul_cancel paged
  have bound : len / P ≤ hs.length := by
    apply Nat.le_of_mul_le_mul_right _ pos
    omega
  refine ⟨hs.take (len / P), hs.drop (len / P), by simp [splitNodeHashValue, pages], ?_, ?_⟩
  · rw [List.length_take, min_eq_left bound, whole]
  · rw [List.length_drop, Nat.sub_mul, whole, sized]

theorem Inv.split (h : Inv s G) (hc : c ∈ G.live) (inner : c ≠ s.rootNode)
    (hp : (s.nodes c).parent = some p) (pos : 0 < len) (proper : len < (s.nodes c).key.len)
    (paged : s.pageSize ∣ len) (e : SplitsTo s s' p c len) :
    Inv s' (G.split p c s.counter) := by
  have root_fresh := h.tree.ne_next h.tree.root_live
  constructor
  · rw [RadixCache.pageSize, e.cfg, e.rootNode, e.counter]
    exact h.tree.split e.links hc inner hp le_rfl pos proper paged
  · rw [e.rootNode]
    exact (IsRadixTree.value_split e.links root_fresh inner.symm).trans h.root_value
  · rw [e.rootNode, e.other_lock _ root_fresh, h.root_lock]
  · exact e.evictableLeaves ▸ h.leaves_nodup
  · intro n hn
    rw [e.evictableLeaves] at hn
    obtain ⟨live, ninner, leaf⟩ := h.leaves_ok n hn
    refine ⟨mem_insert_of_mem live, e.rootNode ▸ ninner, ?_⟩
    -- The parent of `c` is no leaf.
    have np : n ≠ p := by
      rintro rfl
      have found : (s.nodes n).children.lookup _ = some c := h.tree.keys.filed hc inner hp
      rw [leaf] at found
      simp at found
    exact (e.links.keys.children (h.tree.ne_next live) np).trans leaf
  · rw [e.cfg, RadixCache.pageSize, e.cfg, e.rootNode]
    intro enabled n hn ninner
    obtain ⟨hs, hhs, sized⟩ := h.hashed enabled c hc inner
    obtain ⟨us, ls, halves, ulen, llen⟩ :=
      splitNodeHashValue_lengths h.tree.page_pos paged proper.le sized
    rcases mem_insert.mp hn with rfl | hn
    · refine ⟨us, by rw [e.upper_hash, hhs, halves], ?_⟩
      have hkey : (s'.nodes s.counter).key = (s.nodes c).key.upTo len := e.links.upper_key
      rw [hkey, len_upTo, ulen, min_eq_left proper.le]
    · have na := h.tree.ne_next hn
      by_cases nc : n = c
      · subst nc
        refine ⟨ls, by rw [e.lower_hash, hhs, halves], ?_⟩
        have hkey : (s'.nodes n).key = (s.nodes n).key.fromIdx len := e.links.lower_key
        rw [hkey, len_fromIdx, llen]
      · obtain ⟨hs, hhs, sized⟩ := h.hashed enabled n hn ninner
        refine ⟨hs, by rw [e.other_hash n na nc, hhs], ?_⟩
        have hkey : (s'.nodes n).key = (s.nodes n).key := e.links.keys.key na nc
        rw [hkey, sized]

end Split

inductive Reshape : RadixCache → Outline → RadixCache → Outline → Prop where
  | refl (s : RadixCache) (G : Outline) : Reshape s G s G
  | touch {s s' s'' : RadixCache} {G G'' : Outline} (t : Touched s s')
      (rest : Reshape s' G s'' G'') : Reshape s G s'' G''
  | split {s s' s'' : RadixCache} {G G'' : Outline} {p c : NodeId} {len : Nat}
      (live : c ∈ G.live) (inner : c ≠ s.rootNode) (up : (s.nodes c).parent = some p)
      (pos : 0 < len) (proper : len < (s.nodes c).key.len) (paged : s.pageSize ∣ len)
      (e : SplitsTo s s' p c len) (rest : Reshape s' (G.split p c s.counter) s'' G'') :
      Reshape s G s'' G''

theorem Reshape.trans (r : Reshape s G s' G') {G'' : Outline} (r' : Reshape s' G' s'' G'') :
    Reshape s G s'' G'' := by
  induction r with
  | refl => exact r'
  | touch t _ ih => exact .touch t (ih r')
  | split live inner up pos proper paged e _ ih => exact .split live inner up pos proper paged e (ih r')

theorem Reshape.touched (t : Touched s s') : Reshape s G s' G := .touch t (.refl _ _)

section

variable (r : Reshape s G s' G')
include r

theorem Reshape.cfg : s'.cfg = s.cfg := by
  induction r with
  | refl => rfl
  | touch t _ ih => rw [ih, t.cfg]
  | split _ _ _ _ _ _ e _ ih => rw [ih, e.cfg]

theorem Reshape.freed : s'.freed = s.freed := by
  induction r with
  | refl => rfl
  | touch t _ ih => rw [ih, t.rest]
  | split _ _ _ _ _ _ e _ ih => rw [ih, e.rest]

theorem Reshape.inv (h : Inv s G) : Inv s' G' := by
  induction r with
  | refl => exact h
  | touch t _ ih => exact ih (h.touched t)
  | split live inner up pos proper paged e _ ih => exact ih (h.split live inner up pos proper paged e)

theorem Reshape.keeps (h : Inv s G) {n : NodeId} (hn : n ∈ G.live) :
    n ∈ G'.live ∧ G'.along (segOf s'.nodes) n = G.along (segOf s.nodes) n ∧
      G'.along (valOf s'.nodes) n = G.along (valOf s.nodes) n := by
  induction r with
  | refl => exact ⟨hn, rfl, rfl⟩
  | touch t _ ih =>
    rw [← seg_congr t.sameLinks, ← valOf_congr t.sameLinks]
    exact ih (h.touched t) hn
  | @split s s' _ G _ p c len live inner up pos proper paged e _ ih =>
    have shape := h.tree.shape
    rw [← shape.split_along_old (p := p) le_rfl e.links.keys.seg_halves
        (fun m hm _ mc => e.links.keys.seg (h.tree.ne_next hm) mc) hn,
      ← shape.split_along_old (p := p) le_rfl (IsRadixTree.valOf_split_halves e.links)
        (fun m hm _ mc => IsRadixTree.valOf_split e.links (h.tree.ne_next hm) mc) hn]
    exact ih (h.split live inner up pos proper paged e) (mem_insert_of_mem hn)

theorem Reshape.cached (h : Inv s G) {w : List KeyUnit} {vs : List Slot} :
    Cached s.pageSize s'.rootNode s'.nodes w vs ↔ Cached s.pageSize s.rootNode s.nodes w vs := by
  induction r with
  | refl => rfl
  | @touch s s' s'' G G'' t _ ih =>
    have h' := h.touched t
    have same := ih h'
    rw [t.pageSize] at same
    have tree' : IsRadixTree s.pageSize s.rootNode s.counter s'.nodes G := h.tree.congr t.sameLinks
    rw [same, t.rootNode, tree'.cached_iff, h.tree.cached_iff, seg_congr t.sameLinks,
      valOf_congr t.sameLinks]
  | @split s s' _ G _ p c len live inner up pos proper paged e _ ih =>
    have same := ih (h.split live inner up pos proper paged e)
    rw [RadixCache.pageSize, e.cfg] at same
    rw [same, e.rootNode]
    exact h.tree.cached_split e.links live inner up le_rfl pos proper paged

end

structure ResetsTo (s s' : RadixCache) : Prop where
  children : (s'.nodes s.counter).children = ∅
  key : (s'.nodes s.counter).key = { tokenIds := [] }
  value : (s'.nodes s.counter).value = some []
  lockRef : (s'.nodes s.counter).lockRef = 1
  hashValue : (s'.nodes s.counter).hashValue = some []
  rest : s' = { s with
    nodes := s'.nodes
    ticks := s'.ticks
    counter := s.counter + 1
    rootNode := s.counter
    evictableSize := 0
    protectedSize := 0
    evictableLeaves := []
    kvEventQueue := if s.cfg.enableKvCacheEvents then s.kvEventQueue ++ [.allBlocksCleared]
      else s.kvEventQueue }

theorem reset_spec (s : RadixCache) : ResetsTo s s.reset := by
  cases events : s.cfg.enableKvCacheEvents
  all_goals
    constructor <;>
      simp [reset, recordAllClearedEvent, newTreeNode, monotonic, modify, events]

def bareOutline (root : NodeId) : Outline := ⟨{root}, fun _ => []⟩

theorem inv_reset (pos : 0 < s.pageSize) (e : ResetsTo s s') : Inv s' (bareOutline s.counter) := by
  obtain ⟨children, _, value, lock, _, rest⟩ := e
  have hcfg : s'.cfg = s.cfg := by rw [rest]
  have counter : s'.counter = s.counter + 1 := by rw [rest]
  have root : s'.rootNode = s.counter := by rw [rest]
  have leaves : s'.evictableLeaves = [] := by rw [rest]
  constructor
  · rw [RadixCache.pageSize, hcfg, root, counter]
    exact IsRadixTree.single pos (Nat.lt_succ_self _) children
  · rw [root, value]
  · rw [root, lock]
  · simp [leaves]
  · simp [leaves]
  · intro _ n hn inner
    rw [root] at inner
    exact absurd (mem_singleton.mp hn) inner

end RedKnot.Radix.RadixCache
