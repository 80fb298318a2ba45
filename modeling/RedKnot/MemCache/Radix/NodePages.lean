import RedKnot.MemCache.Radix.Accounting
import RedKnot.MemCache.Radix.Requests

/-! The pages of the pool that the nodes of the tree hold. -/

namespace RedKnot.Radix.RadixCache

open LinkedTree NodeHeap RadixKey Allocator Pages Finset List IsRadixTree

variable {s s' : RadixCache} {G G' : Outline}

def nodePages (s : RadixCache) (n : NodeId) : List Nat := pageList s.pageSize (valOf s.nodes n)

def treeCount (s : RadixCache) (G : Outline) (q : Nat) : Int :=
  G.total s.rootNode (fun n => ((s.nodePages n).count q : Int))

def Filled (s : RadixCache) (G : Outline) : Prop :=
  ∀ n ∈ G.live, n ≠ s.rootNode → Fills s.pageSize (valOf s.nodes n) (s.nodePages n)

structure Stock (s : RadixCache) (G : Outline) (count : Nat → Int) : Prop where
  filled : s.Filled G
  count_eq : ∀ q, s.treeCount G q = count q

variable {count : Nat → Int}

variable {n p : NodeId}

theorem nodePages_congr (page : s'.pageSize = s.pageSize)
    (same : valOf s'.nodes n = valOf s.nodes n) : s'.nodePages n = s.nodePages n := by
  unfold nodePages
  rw [page, same]

section

variable (st : Stock s G count)
include st

theorem Stock.of_same (page : s'.pageSize = s.pageSize)
    (root : s'.rootNode = s.rootNode) (same : valOf s'.nodes = valOf s.nodes) :
    Stock s' G count := by
  have pages : s'.nodePages = s.nodePages := by
    funext n
    exact nodePages_congr page (congrFun same n)
  constructor
  · intro n hn inner
    rw [page, same, pages]
    exact st.filled n hn (root ▸ inner)
  · intro q
    rw [treeCount, root, pages]
    exact st.count_eq q

theorem Stock.touched (t : Touched s s') : Stock s' G count :=
  st.of_same t.pageSize t.rootNode (valOf_congr t.sameLinks)

theorem Stock.locks {ns : List NodeId} {d : Int} (e : LocksTo s s' ns d) : Stock s' G count :=
  st.of_same (by rw [pageSize, e.cfg]) e.rootNode (valOf_congr e.sameLinks)

theorem Stock.split {c : NodeId} {len : Nat} (h : Inv s G)
    (hc : c ∈ G.live) (inner : c ≠ s.rootNode) (proper : len < (s.nodes c).key.len)
    (paged : s.pageSize ∣ len) (e : SplitsTo s s' p c len) :
    Stock s' (G.split p c s.counter) count := by
  have pos := h.tree.page_pos
  have page : s'.pageSize = s.pageSize := by rw [pageSize, e.cfg]
  have size : (valOf s.nodes c).length = (s.nodes c).key.len :=
    (h.tree.length_valOf hc inner).trans (length_units _)
  obtain ⟨m, rfl⟩ := paged
  rw [mul_comm] at proper e
  have upper := valOf_split_upper e.links
  have lower := valOf_split_lower e.links
  have old := st.filled c hc inner
  have top : Fills s.pageSize (valOf s'.nodes s.counter) ((s.nodePages c).take m) := by
    rw [upper]
    exact old.take pos (by omega)
  have bottom : Fills s.pageSize (valOf s'.nodes c) ((s.nodePages c).drop m) := by
    rw [lower]
    exact old.drop pos m
  have topPages : s'.nodePages s.counter = (s.nodePages c).take m := by
    rw [nodePages, page, top.pageList_eq pos]
  have bottomPages : s'.nodePages c = (s.nodePages c).drop m := by
    rw [nodePages, page, bottom.pageList_eq pos]
  have others : ∀ n ∈ G.live, n ≠ s.rootNode → n ≠ c → s'.nodePages n = s.nodePages n :=
    fun n hn _ nc => nodePages_congr page (valOf_split e.links (h.tree.ne_next hn) nc)
  constructor
  · intro n hn ninner
    rw [e.rootNode] at ninner
    rw [page]
    rcases mem_insert.mp hn with rfl | hn
    · rw [topPages]
      exact top
    · by_cases nc : n = c
      · rw [nc, bottomPages]
        exact bottom
      · rw [others n hn ninner nc, valOf_split e.links (h.tree.ne_next hn) nc]
        exact st.filled n hn ninner
  · intro q
    have halves : ((s'.nodePages s.counter).count q : Int) + (s'.nodePages c).count q =
        (s.nodePages c).count q := by
      rw [topPages, bottomPages]
      have := congrArg (List.count q) (take_append_drop m (s.nodePages c))
      rw [count_append] at this
      omega
    have total := h.tree.shape.split_total (p := p) (a := s.counter)
      (f := fun n => ((s.nodePages n).count q : Int)) (g := fun n => ((s'.nodePages n).count q : Int))
      hc inner le_rfl halves (fun n hn ninner nc => by rw [others n hn ninner nc])
    rw [treeCount, e.rootNode]
    exact total.trans (st.count_eq q)

theorem Stock.reshape (h : Inv s G) (r : Reshape s G s' G') : Stock s' G' count := by
  induction r with
  | refl => exact st
  | touch t _ ih => exact ih (st.touched t) (h.touched t)
  | split live inner up pos proper paged e _ ih =>
    exact ih (st.split h live inner proper paged e) (h.split live inner up pos proper paged e)

theorem Stock.hang {k : RadixKey} {v : List Slot} {pages : List Nat}
    (h : Inv s G) (e : HangsTo s s' p k v) (fills : Fills s.pageSize v pages) :
    Stock s' (G.attach p s.counter) (fun q => count q + pages.count q) := by
  have page : s'.pageSize = s.pageSize := by rw [pageSize, e.cfg]
  have value : valOf s'.nodes s.counter = v := by
    change ((s'.nodes s.counter).value).getD [] = v
    rw [e.new_value, Option.getD_some]
  have new : s'.nodePages s.counter = pages := by
    rw [nodePages, page, value, fills.pageList_eq h.tree.page_pos]
  have others : ∀ n ∈ G.live, s'.nodePages n = s.nodePages n :=
    fun n hn => nodePages_congr page (valOf_hang e.links (h.tree.ne_next hn))
  constructor
  · intro n hn inner
    rw [e.rootNode] at inner
    rw [page]
    rcases mem_insert.mp hn with rfl | hn
    · rw [new, value]
      exact fills
    · rw [others n hn, valOf_hang e.links (h.tree.ne_next hn)]
      exact st.filled n hn inner
  · intro q
    have total := h.tree.shape.attach_total (p := p) (c := s.counter) le_rfl
      (f := fun n => ((s.nodePages n).count q : Int)) (g := fun n => ((s'.nodePages n).count q : Int))
      (fun n hn _ => by rw [others n hn])
    rw [treeCount, e.rootNode]
    refine total.trans ?_
    rw [new]
    exact congrArg (· + (pages.count q : Int)) (st.count_eq q)

theorem Stock.remove {x : NodeId} (g : Leaf s G p x) (e : RemovesTo s s' p x) :
    Stock s' (G.detach x) (fun q => count q - (s.nodePages x).count q) := by
  have page : s'.pageSize = s.pageSize := by rw [pageSize, e.cfg]
  have same : valOf s'.nodes = valOf s.nodes := valOf_drop e.links
  have pages : s'.nodePages = s.nodePages := by
    funext n
    exact nodePages_congr page (congrFun same n)
  constructor
  · intro n hn inner
    rw [page, same, pages]
    exact st.filled n (Finset.mem_of_mem_erase hn) (e.rootNode ▸ inner)
  · intro q
    have total := Shape.detach_total (f := fun n => ((s.nodePages n).count q : Int)) g.live g.inner
    rw [treeCount, e.rootNode, pages]
    exact total.trans (congrArg (· - ((s.nodePages x).count q : Int)) (st.count_eq q))

end

theorem treeCount_nonneg (s : RadixCache) (G : Outline) (q : Nat) : 0 ≤ s.treeCount G q :=
  Finset.sum_nonneg fun _ _ => Int.natCast_nonneg _

structure Keeps (s : RadixCache) (G : Outline) (s' : RadixCache) (G' : Outline) (n : NodeId) : Prop where
  live : n ∈ G'.live
  word : G'.along (segOf s'.nodes) n = G.along (segOf s.nodes) n
  slots : G'.along (valOf s'.nodes) n = G.along (valOf s.nodes) n

theorem Keeps.refl (live : n ∈ G.live) : Keeps s G s G n := ⟨live, rfl, rfl⟩

theorem Keeps.trans {s'' : RadixCache} {G'' : Outline} (k : Keeps s G s' G' n)
    (k' : Keeps s' G' s'' G'' n) : Keeps s G s'' G'' n :=
  ⟨k'.live, k'.word.trans k.word, k'.slots.trans k.slots⟩

theorem keeps_reshape (h : Inv s G) (r : Reshape s G s' G') (live : n ∈ G.live) :
    Keeps s G s' G' n := by
  obtain ⟨live', word, slots⟩ := r.keeps h live
  exact ⟨live', word, slots⟩

theorem keeps_hang {k : RadixKey} {v : List Slot} (h : Inv s G) (e : HangsTo s s' p k v)
    (live : n ∈ G.live) : Keeps s G s' (G.attach p s.counter) n where
  live := Finset.mem_insert_of_mem live
  word := h.tree.shape.attach_along_old (c := s.counter) le_rfl
    (fun _ hm _ => e.links.keys.seg (h.tree.ne_next hm)) live
  slots := h.tree.shape.attach_along_old (c := s.counter) le_rfl
    (fun _ hm _ => valOf_hang e.links (h.tree.ne_next hm)) live

theorem keeps_locks {ns : List NodeId} {d : Int} (e : LocksTo s s' ns d)
    (live : n ∈ G.live) : Keeps s G s' G n :=
  ⟨live, by rw [seg_congr e.sameLinks], by rw [valOf_congr e.sameLinks]⟩

theorem keeps_remove {x : NodeId} (e : RemovesTo s s' p x) (live : n ∈ G.live) (other : n ≠ x) :
    Keeps s G s' (G.detach x) n where
  live := mem_erase.mpr ⟨other, live⟩
  word := by rw [e.links.keys.seg]; rfl
  slots := by rw [valOf_drop e.links]; rfl

theorem Evicts.stock {want n n' : Nat} {cand xs L : List NodeId}
    (v : Evicts want s G cand n xs s' G' n') (b : Books s G L) (perm : cand.Perm s.evictableLeaves)
    (st : Stock s G count) :
    ∃ vs gs, s'.freed = s.freed ++ vs ∧ Forall₂ (Fills s.pageSize) vs gs ∧
      Stock s' G' (fun q => count q - gs.flatten.count q) ∧ ∀ m ∈ L, Keeps s G s' G' m := by
  induction v generalizing count with
  | enough => exact ⟨[], [], by simp, .nil, by simpa using st, fun m hm => .refl (b.held m hm)⟩
  | dry => exact ⟨[], [], by simp, .nil, by simpa using st, fun m hm => .refl (b.held m hm)⟩
  | @take s t s' G G' cand cand' xs n n' p x _ member _ g e next _ ih =>
    have free := ((b.leaves x).mp (perm.mem_iff.mp member)).2.2.2
    have after := b.remove g e free
    obtain ⟨vs, gs, freed, fills, stock, keeps⟩ :=
      ih after (b.remove_candidates perm g e free next) (st.remove g e)
    have page : t.pageSize = s.pageSize := by rw [pageSize, e.cfg]
    have slots : (s.nodes x).slots = valOf s.nodes x := rfl
    refine ⟨valOf s.nodes x :: vs, s.nodePages x :: gs, ?_, .cons (st.filled x g.live g.inner) ?_, ?_, ?_⟩
    · rw [freed, e.rest, slots, append_assoc]
      rfl
    · rwa [page] at fills
    · refine ⟨stock.filled, fun q => ?_⟩
      rw [stock.count_eq q, flatten_cons, count_append]
      push_cast
      ring
    · intro m hm
      have other : m ≠ x := by
        rintro rfl
        exact (mem_erase.mp (after.held m hm)).1 rfl
      exact (keeps_remove e (b.held m hm) other).trans (keeps m hm)

theorem Books.perm {L L' : List NodeId} (b : Books s G L) (same : L.Perm L') : Books s G L' :=
  { b with
    held := fun m hm => b.held m (same.mem_iff.mpr hm)
    lock := fun n hn inner => by
      rw [b.lock n hn inner, Outline.holders, Outline.holders, same.countP_eq] }

theorem Books.allocatorFree {L : List NodeId} (b : Books s G L) (v : List Slot) :
    Books (s.allocatorFree v) G L :=
  { b with inv := b.inv.allocatorFree v }

theorem keeps_allocatorFree (v : List Slot) (live : n ∈ G.live) :
    Keeps s G (s.allocatorFree v) G n := ⟨live, rfl, rfl⟩

theorem Stock.allocatorFree (st : Stock s G count) (v : List Slot) :
    Stock (s.allocatorFree v) G count := st.of_same rfl rfl rfl

end RedKnot.Radix.RadixCache
