import RedKnot.MemCache.BlockWords
import RedKnot.MemCache.Radix.Exec

/-! The page hashes kept in the nodes, read from the root down, are the chained hashes of a word. -/

namespace RedKnot.Radix.RadixCache

open LinkedTree NodeHeap RadixKey Function List

def hashOf (s : RadixCache) (n : NodeId) : List Digest := (s.nodes n).hashValue.getD []

structure Hashed (s : RadixCache) (G : Outline) : Prop where
  root : (s.nodes s.rootNode).hashValue = some []
  chain : ∀ n ∈ G.live, G.along s.hashOf n = digests s.cfg.sha256 s.pageSize
    ((G.along (segOf s.nodes) n).length / s.pageSize) (G.along (segOf s.nodes) n) none

variable {s s' : RadixCache} {G G' : Outline} {p c x n : NodeId}

section

variable (h : Inv s G) (events : s.cfg.enableKvCacheEvents = true) (hn : n ∈ G.live)
  (inner : n ≠ s.rootNode)
include h events hn inner

theorem Inv.hashValue_eq : (s.nodes n).hashValue = some (s.hashOf n) ∧
    (s.hashOf n).length * s.pageSize = (s.nodes n).key.len := by
  obtain ⟨hs, hhs, sized⟩ := h.hashed events n hn inner
  have own : s.hashOf n = hs := by rw [hashOf, hhs, Option.getD_some]
  rw [own]
  exact ⟨hhs, sized⟩

theorem Inv.hashOf_ne_nil : s.hashOf n ≠ [] := by
  intro none
  obtain ⟨_, sized⟩ := h.hashValue_eq events hn inner
  rw [none, length_nil, zero_mul] at sized
  have whole : s.pageSize ≤ (s.nodes n).key.len := h.tree.keys.page_le hn inner
  have := h.tree.page_pos
  omega

end

section

variable (k : Hashed s G) (h : Inv s G)
include k h

theorem Hashed.seedOf_eq (events : s.cfg.enableKvCacheEvents = true)
    (hp : p ∈ G.live) : s.seedOf p = (G.along s.hashOf p).getLast? := by
  by_cases top : p = s.rootNode
  · have none : G.along s.hashOf p = [] := top ▸ h.tree.shape.along_root _
    rw [none]
    simp [seedOf, top, k.root]
  · obtain ⟨q, _, hq⟩ := h.tree.keys.has_parent hp top
    obtain ⟨some, _⟩ := h.hashValue_eq events hp top
    have long : (s.nodes p).key.len > 0 :=
      lt_of_lt_of_le h.tree.page_pos (h.tree.keys.page_le hp top)
    have up := h.tree.shape.along_up s.hashOf hp top hq
    rw [up, getLast?_append_of_ne_nil _ (h.hashOf_ne_nil events hp top)]
    simp [seedOf, some, long]

section

variable (hn : n ∈ G.live) (inner : n ≠ s.rootNode) (hp : (s.nodes n).parent = some p)
include hn inner hp

theorem Hashed.hashOf_eq :
    s.hashOf n = ((range ((G.along (segOf s.nodes) n).length / s.pageSize)).drop
      ((G.along (segOf s.nodes) p).length / s.pageSize)).map (fun m => s.cfg.sha256
        (blockInput s.cfg.sha256 s.pageSize ((G.along (segOf s.nodes) n).take ((m + 1) * s.pageSize)))) := by
  have tree := h.tree
  have pos := tree.page_pos
  have plive := tree.keys.parent_live hn inner hp
  have up := tree.shape.along_up s.hashOf hn inner hp
  have front := k.chain p plive
  have all := k.chain n hn
  have whole : (G.along (segOf s.nodes) n).length / s.pageSize * s.pageSize ≤
      (G.along (segOf s.nodes) n).length := Nat.div_mul_le_self _ _
  rw [digests_eq_map pos whole] at all
  have count : (G.along s.hashOf p).length = (G.along (segOf s.nodes) p).length / s.pageSize := by
    rw [front, length_digests]
  rw [map_drop, ← all, up, ← count, drop_left]

theorem Hashed.mem_hashOf {d : Digest} :
    d ∈ s.hashOf n ↔ ∃ w, w <+: G.along (segOf s.nodes) n ∧ s.pageSize ∣ w.length ∧
      (G.along (segOf s.nodes) p).length < w.length ∧
      d = s.cfg.sha256 (blockInput s.cfg.sha256 s.pageSize w) := by
  have tree := h.tree
  have pos := tree.page_pos
  have plive := tree.keys.parent_live hn inner hp
  obtain ⟨i, hi⟩ := tree.labelled.path_paged plive
  obtain ⟨j, hj⟩ := tree.labelled.path_paged hn
  have hi : (G.along (segOf s.nodes) p).length = i * s.pageSize := hi.trans (mul_comm _ _)
  have hj : (G.along (segOf s.nodes) n).length = j * s.pageSize := hj.trans (mul_comm _ _)
  have own := k.hashOf_eq h hn inner hp
  rw [hi, hj, Nat.mul_div_cancel _ pos, Nat.mul_div_cancel _ pos] at own
  rw [own, range_eq_range', drop_range']
  simp only [mem_map, mem_range'_1]
  constructor
  · rintro ⟨m, bounds, rfl⟩
    have inside : (m + 1) * s.pageSize ≤ (G.along (segOf s.nodes) n).length := by
      rw [hj]
      exact Nat.mul_le_mul_right _ (by omega)
    refine ⟨_, take_prefix _ _, ?_, ?_, rfl⟩
    · rw [length_take_of_le inside]
      exact Dvd.intro_left _ rfl
    · rw [length_take_of_le inside, hi]
      exact Nat.mul_lt_mul_of_pos_right (by omega) pos
  · rintro ⟨w, within, ⟨m, hm⟩, long, rfl⟩
    have hm : w.length = m * s.pageSize := hm.trans (mul_comm _ _)
    rw [hm, hi] at long
    have low : i < m := Nat.lt_of_mul_lt_mul_right long
    have high : m ≤ j := by
      have := within.length_le
      rw [hm, hj] at this
      exact Nat.le_of_mul_le_mul_right this pos
    refine ⟨m - 1, by omega, ?_⟩
    rw [Nat.sub_add_cancel (by omega), ← hm, ← prefix_iff_eq_take.mp within]

end

end

theorem Hashed.touched (k : Hashed s G) (t : Touched s s') : Hashed s' G := by
  have same : s'.hashOf = s.hashOf := by
    funext n
    rw [hashOf, (t.nodes n).hashValue, hashOf]
  constructor
  · rw [t.rootNode, (t.nodes _).hashValue]
    exact k.root
  · intro n hn
    rw [same, seg_congr t.sameLinks, pageSize, t.cfg]
    exact k.chain n hn

theorem Hashed.locks {ns : List NodeId} {d : Int} (k : Hashed s G) (e : LocksTo s s' ns d) :
    Hashed s' G := by
  have same : s'.hashOf = s.hashOf := by
    funext n
    rw [hashOf, e.nodes n, hashOf]
  constructor
  · rw [e.rootNode, e.nodes]
    exact k.root
  · intro n hn
    rw [same, seg_congr e.sameLinks, pageSize, e.cfg]
    exact k.chain n hn

theorem Hashed.remove (k : Hashed s G) (e : RemovesTo s s' p x) : Hashed s' (G.detach x) := by
  have same : s'.hashOf = s.hashOf := by
    funext n
    rw [hashOf, e.hash n, hashOf]
  constructor
  · rw [e.rootNode, e.hash]
    exact k.root
  · intro n hn
    rw [same, e.links.keys.seg, pageSize, e.cfg]
    exact k.chain n (Finset.mem_of_mem_erase hn)

theorem Hashed.split {len : Nat} (k : Hashed s G) (h : Inv s G)
    (events : s.cfg.enableKvCacheEvents = true) (hc : c ∈ G.live) (inner : c ≠ s.rootNode)
    (hp : (s.nodes c).parent = some p) (pos : 0 < len) (proper : len < (s.nodes c).key.len)
    (paged : s.pageSize ∣ len) (e : SplitsTo s s' p c len) : Hashed s' (G.split p c s.counter) := by
  have tree := h.tree
  have shape := tree.shape
  have r : Reshape s G s' (G.split p c s.counter) :=
    .split hc inner hp pos proper paged e (.refl _ _)
  obtain ⟨some, sized⟩ := h.hashValue_eq events hc inner
  have pages : (if s.pageSize = 1 then len else len / s.pageSize) = len / s.pageSize := by
    split
    · rename_i one
      simp [one]
    · rfl
  have upper : s'.hashOf s.counter = (s.hashOf c).take (len / s.pageSize) := by
    rw [hashOf, e.upper_hash, some, splitNodeHashValue, pages]
    rfl
  have lower : s'.hashOf c = (s.hashOf c).drop (len / s.pageSize) := by
    rw [hashOf, e.lower_hash, some, splitNodeHashValue, pages]
    rfl
  have others : ∀ m ∈ G.live, m ≠ s.rootNode → m ≠ c → s'.hashOf m = s.hashOf m := by
    intro m hm _ mc
    rw [hashOf, e.other_hash m (tree.ne_next hm) mc, hashOf]
  have old : ∀ m ∈ G.live, (G.split p c s.counter).along s'.hashOf m = G.along s.hashOf m :=
    fun m hm => shape.split_along_old (a := s.counter) le_rfl
      (by rw [upper, lower, take_append_drop]) others hm
  refine ⟨?_, fun n hn => ?_⟩
  · rw [e.rootNode, e.other_hash _ (tree.ne_next tree.root_live) inner.symm]
    exact k.root
  rw [pageSize, e.cfg]
  rcases Finset.mem_insert.mp hn with rfl | hn
  · -- The upper half ends inside the old node, after whole pages.
    have plive := tree.keys.parent_live hc inner hp
    have hashes := shape.split_along_new (a := s.counter) hc inner hp others
    have word : (G.split p c s.counter).along (segOf s'.nodes) s.counter =
        G.along (segOf s.nodes) p ++ segOf s'.nodes s.counter :=
      shape.split_along_new hc inner hp
        (fun m hm _ mc => e.links.keys.seg (tree.ne_next hm) mc)
    have seg : segOf s'.nodes s.counter = (segOf s.nodes c).take len := by
      rw [segOf, e.links.upper_key, units_upTo, segOf]
    have hup := shape.along_up s.hashOf hc inner hp
    have wup := shape.along_up (segOf s.nodes) hc inner hp
    have within : G.along (segOf s.nodes) p ++ (segOf s.nodes c).take len <+:
        G.along (segOf s.nodes) c := by
      rw [wup, prefix_append_right_inj]
      exact take_prefix _ _
    have long : len ≤ (segOf s.nodes c).length := by
      rw [segOf, length_units]
      exact proper.le
    have count : (G.along (segOf s.nodes) p ++ (segOf s.nodes c).take len).length / s.pageSize =
        (G.along s.hashOf p).length + len / s.pageSize := by
      rw [length_append, length_take_of_le long,
        Nat.add_div_of_dvd_right (tree.labelled.path_paged plive), k.chain p plive, length_digests]
    rw [hashes, upper, word, seg, ← take_digests_of_cut within, ← k.chain c hc, hup, count,
      take_length_add_append]
  · obtain ⟨_, word, _⟩ := r.keeps h hn
    rw [old n hn, word]
    exact k.chain n hn

theorem Hashed.reshape (r : Reshape s G s' G') (k : Hashed s G) (h : Inv s G)
    (events : s.cfg.enableKvCacheEvents = true) : Hashed s' G' := by
  induction r with
  | refl => exact k
  | touch t _ ih => exact ih (k.touched t) (h.touched t) (by rw [t.cfg]; exact events)
  | split live inner up pos proper paged e _ ih =>
    exact ih (k.split h events live inner up pos proper paged e) (h.split live inner up pos proper paged e)
      (by rw [e.cfg]; exact events)

theorem Hashed.hang {key : RadixKey} {v : List Slot} (k : Hashed s G) (h : Inv s G)
    (events : s.cfg.enableKvCacheEvents = true) (g : Hangs s G p key v) (e : HangsTo s s' p key v) :
    Hashed s' (G.attach p s.counter) := by
  have tree := h.tree
  have shape := tree.shape
  obtain ⟨hs, hhs, new, _⟩ := e.stored events
  have own : s'.hashOf s.counter = hs := by rw [hashOf, new, Option.getD_some]
  have others : ∀ m ∈ G.live, m ≠ s.rootNode → s'.hashOf m = s.hashOf m := by
    intro m hm _
    rw [hashOf, e.other_hash m (tree.ne_next hm), hashOf]
  have segs : ∀ m ∈ G.live, m ≠ s.rootNode → segOf s'.nodes m = segOf s.nodes m := fun m hm _ =>
    e.links.keys.seg (tree.ne_next hm)
  refine ⟨?_, fun n hn => ?_⟩
  · rw [e.rootNode, e.other_hash _ (tree.ne_next tree.root_live)]
    exact k.root
  rw [pageSize, e.cfg]
  rcases Finset.mem_insert.mp hn with rfl | hn
  · have hashes := shape.attach_along_new (c := s.counter) g.live others
    have word : (G.attach p s.counter).along (segOf s'.nodes) s.counter =
        G.along (segOf s.nodes) p ++ segOf s'.nodes s.counter := shape.attach_along_new g.live segs
    have seg : segOf s'.nodes s.counter = key.units := by
      have hkey : RadixNode.key (s'.nodes s.counter) = key := e.new_key
      rw [segOf, hkey]
    rw [hashes, word, seg, own, digests_append (tree.labelled.path_paged g.live),
      ← k.chain p g.live, ← k.seedOf_eq h events g.live, hhs, length_units]
  · rw [shape.attach_along_old (c := s.counter) le_rfl others hn,
      shape.attach_along_old (c := s.counter) le_rfl segs hn]
    exact k.chain n hn

theorem hashed_reset (e : ResetsTo s s') : Hashed s' (bareOutline s.counter) := by
  have root : s'.rootNode = s.counter := by rw [e.rest]
  refine ⟨by rw [root, e.hashValue], fun n _ => ?_⟩
  simp [bareOutline, Outline.along, digests]

end RedKnot.Radix.RadixCache
