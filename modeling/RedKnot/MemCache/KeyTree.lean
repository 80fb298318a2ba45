import Mathlib.Data.List.AList
import RedKnot.Lib.RadixEdit
import RedKnot.MemCache.RadixKey

/-! The part that the prefix caches share: a heap of tree nodes with a parent, a dictionary of
children and a key. -/

namespace RedKnot

open LinkedTree RadixKey Function List

/-- `children`: a dictionary from child keys to nodes. -/
abbrev Children := AList (fun _ : ChildKey => NodeId)

class RadixNode (α : Type) where
  children : α → Children
  parent : α → Option NodeId
  key : α → RadixKey
  value : α → Option (List Slot)

namespace NodeHeap

open RadixNode

variable {α : Type} [RadixNode α]

def linksOf (P : Nat) (root next : NodeId) (nodes : NodeId → α) : LinkedTree ChildKey where
  root := root
  next := next
  parent := fun n => parent (nodes n)
  kid := fun n k => (children (nodes n)).lookup k
  tag := fun n => encPage P ((key (nodes n)).units.take P)

def segOf (nodes : NodeId → α) (n : NodeId) : List KeyUnit := (key (nodes n)).units

abbrev KeyTree (P : Nat) (root next : NodeId) (nodes : NodeId → α) (G : Outline) : Prop :=
  (linksOf P root next nodes).Labelled G P (encPage P) Uniform (segOf nodes)

structure SameKeys (a b : α) : Prop where
  children : children a = children b
  parent : parent a = parent b
  key : key a = key b

/-- What `_split_node` does to the heap: the fresh node `a` takes the first `len` units of
`c` and stands between `c` and its parent `p`. -/
structure KeySplit (P : Nat) (nodes nodes' : NodeId → α) (p c a : NodeId) (len : Nat) : Prop where
  upper_parent : parent (nodes' a) = some p
  upper_children : children (nodes' a) =
    AList.singleton (encPage P (((key (nodes c)).units.drop len).take P)) c
  upper_key : key (nodes' a) = (key (nodes c)).upTo len
  lower_parent : parent (nodes' c) = some a
  lower_children : children (nodes' c) = children (nodes c)
  lower_key : key (nodes' c) = (key (nodes c)).fromIdx len
  top_children : children (nodes' p) =
    (children (nodes p)).insert (encPage P ((key (nodes c)).units.take P)) a
  top_parent : parent (nodes' p) = parent (nodes p)
  top_key : key (nodes' p) = key (nodes p)
  others : ∀ n, n ≠ a → n ≠ c → n ≠ p → SameKeys (nodes' n) (nodes n)

structure KeyHang (P : Nat) (nodes nodes' : NodeId → α) (p c : NodeId) : Prop where
  new_parent : parent (nodes' c) = some p
  new_children : children (nodes' c) = ∅
  top_children : children (nodes' p) =
    (children (nodes p)).insert (encPage P ((key (nodes' c)).units.take P)) c
  top_parent : parent (nodes' p) = parent (nodes p)
  top_key : key (nodes' p) = key (nodes p)
  others : ∀ n, n ≠ c → n ≠ p → SameKeys (nodes' n) (nodes n)

/-- The childless node `c` taken out of the dictionary of `p`. -/
structure KeyDrop (P : Nat) (nodes nodes' : NodeId → α) (p c : NodeId) : Prop where
  top_children : children (nodes' p) =
    (children (nodes p)).erase (encPage P ((key (nodes c)).units.take P))
  top_parent : parent (nodes' p) = parent (nodes p)
  top_key : key (nodes' p) = key (nodes p)
  others : ∀ n, n ≠ p → SameKeys (nodes' n) (nodes n)

theorem eq_empty_iff (d : Children) : d = ∅ ↔ ∀ k, d.lookup k = none := by
  constructor
  · rintro rfl k
    rfl
  · intro none
    apply AList.ext
    rcases entries : d.entries with _ | ⟨⟨k, c⟩, rest⟩
    · rfl
    · have found : c ∈ d.lookup k := AList.mem_lookup_iff.mpr (by simp [entries])
      rw [none k] at found
      cases found

theorem insert_ne_empty (d : Children) (k : ChildKey) (n : NodeId) : d.insert k n ≠ ∅ := by
  intro none
  have found := congrArg (AList.lookup k) none
  simp at found

section Congr

variable {nodes nodes' : NodeId → α} (same : ∀ n, SameKeys (nodes' n) (nodes n))
include same

theorem linksOf_congr {P : Nat} {root next : NodeId} :
    linksOf P root next nodes' = linksOf P root next nodes := by
  simp only [linksOf, (same _).children, (same _).parent, (same _).key]

theorem segOf_congr : segOf nodes' = segOf nodes := by
  funext n
  simp only [segOf, (same n).key]

theorem KeyTree.congr {P : Nat} {root next : NodeId} {G : Outline}
    (h : KeyTree P root next nodes G) : KeyTree P root next nodes' G := by
  unfold KeyTree
  rw [linksOf_congr same, segOf_congr same]
  exact h

end Congr

variable {P : Nat} {root next : NodeId} {nodes nodes' : NodeId → α} {G : Outline}
  {p c a : NodeId} {len : Nat}

namespace KeySplit

variable (e : KeySplit P nodes nodes' p c a len)
include e

section

variable {n : NodeId} (na : n ≠ a)
include na

theorem key (nc : n ≠ c) : RadixNode.key (nodes' n) = RadixNode.key (nodes n) := by
  by_cases np : n = p
  · rw [np, e.top_key]
  · exact (e.others n na nc np).key

theorem children (np : n ≠ p) : RadixNode.children (nodes' n) = RadixNode.children (nodes n) := by
  by_cases nc : n = c
  · rw [nc, e.lower_children]
  · exact (e.others n na nc np).children

theorem seg (nc : n ≠ c) : segOf nodes' n = segOf nodes n := by
  rw [segOf, e.key na nc, segOf]

end

theorem seg_halves : segOf nodes' a ++ segOf nodes' c = segOf nodes c := by
  simp only [segOf, e.upper_key, e.lower_key, units_upTo, units_fromIdx, take_append_drop]

theorem upper_not_childless : RadixNode.children (nodes' a) ≠ ∅ := by
  rw [e.upper_children]
  exact fun none => absurd (congrArg AList.keys none) (by simp)

theorem childless {n : NodeId} (na : n ≠ a) (busy : RadixNode.children (nodes p) ≠ ∅) :
    RadixNode.children (nodes' n) = ∅ ↔ RadixNode.children (nodes n) = ∅ := by
  by_cases np : n = p
  · subst np
    have busy' : RadixNode.children (nodes' n) ≠ ∅ := by
      rw [e.top_children]
      exact insert_ne_empty _ _ _
    exact ⟨fun none => absurd none busy', fun none => absurd none busy⟩
  · rw [e.children na np]

theorem links (next : NodeId) (pc : p ≠ c) (ac : a ≠ c) (pa : p ≠ a) (long : P ≤ len) :
    linksOf P root (a + 1) nodes' = (linksOf P root next nodes).split p c a
      (encPage P ((segOf nodes' c).take P)) := by
  have hseg : (segOf nodes' a).take P = (segOf nodes c).take P := by
    rw [segOf, e.upper_key, units_upTo, take_take, min_eq_left long, segOf]
  have lower : segOf nodes' c = (RadixNode.key (nodes c)).units.drop len := by
    rw [segOf, e.lower_key, units_fromIdx]
  simp only [linksOf, LinkedTree.split, LinkedTree.mk.injEq, true_and]
  refine ⟨?_, ?_, ?_⟩
  · funext n
    by_cases nc : n = c
    · simp [nc, e.lower_parent]
    · by_cases na : n = a
      · simp [na, ac, e.upper_parent]
      · by_cases np : n = p
        · simp [np, pc, pa, e.top_parent]
        · simp [nc, na, (e.others n na nc np).parent]
  · funext n j
    by_cases na : n = a
    · subst na
      simp only [e.upper_children, update_self, lower]
      by_cases hj : j = encPage P (((RadixNode.key (nodes c)).units.drop len).take P)
      · subst hj
        simp [← AList.insert_empty]
      · simp [hj, ← AList.insert_empty, AList.lookup_insert_ne hj]
    · by_cases np : n = p
      · subst np
        simp only [ne_eq, na, not_false_eq_true, update_of_ne, update_self, e.top_children]
        by_cases hj : j = encPage P ((RadixNode.key (nodes c)).units.take P)
        · subst hj
          simp
        · simp [hj, AList.lookup_insert_ne hj]
      · by_cases nc : n = c
        · subst nc
          simp [na, np, e.lower_children]
        · simp [na, np, (e.others n na nc np).children]
  · funext n
    by_cases nc : n = c
    · subst nc
      simp only [update_self]
      rfl
    · by_cases na : n = a
      · subst na
        simp only [ne_eq, nc, not_false_eq_true, update_of_ne, update_self]
        exact congrArg _ hseg
      · have := e.seg na nc
        simp only [ne_eq, nc, na, not_false_eq_true, update_of_ne]
        exact congrArg (fun us => encPage P (take P us)) this

end KeySplit

namespace KeyHang

variable (e : KeyHang P nodes nodes' p c)
include e

section

variable {n : NodeId} (nc : n ≠ c)
include nc

theorem key : RadixNode.key (nodes' n) = RadixNode.key (nodes n) := by
  by_cases np : n = p
  · rw [np, e.top_key]
  · exact (e.others n nc np).key

theorem seg : segOf nodes' n = segOf nodes n := by
  rw [segOf, e.key nc, segOf]

theorem childless :
    RadixNode.children (nodes' n) = ∅ ↔ n ≠ p ∧ RadixNode.children (nodes n) = ∅ := by
  by_cases np : n = p
  · subst np
    rw [e.top_children]
    simp [insert_ne_empty]
  · rw [(e.others n nc np).children]
    simp [np]

end

theorem links (next : NodeId) (pc : p ≠ c) :
    linksOf P root (c + 1) nodes' = (linksOf P root next nodes).attach p c
      (encPage P ((segOf nodes' c).take P)) := by
  simp only [linksOf, LinkedTree.attach, LinkedTree.mk.injEq, true_and]
  refine ⟨?_, ?_, ?_⟩
  · funext n
    by_cases nc : n = c
    · simp [nc, e.new_parent]
    · by_cases np : n = p
      · simp [np, pc, e.top_parent]
      · simp [nc, (e.others n nc np).parent]
  · funext n j
    by_cases nc : n = c
    · simp [nc, e.new_children]
    · by_cases np : n = p
      · subst np
        simp only [ne_eq, nc, not_false_eq_true, update_of_ne, update_self, e.top_children]
        by_cases hj : j = encPage P ((segOf nodes' c).take P)
        · subst hj
          rw [update_self]
          exact AList.lookup_insert _
        · rw [update_of_ne hj]
          exact AList.lookup_insert_ne hj
      · simp [nc, np, (e.others n nc np).children]
  · funext n
    by_cases nc : n = c
    · subst nc
      simp only [update_self]
      rfl
    · simp only [ne_eq, nc, not_false_eq_true, update_of_ne]
      exact congrArg (fun us => encPage P (take P us)) (e.seg nc)

end KeyHang

namespace KeyDrop

variable (e : KeyDrop P nodes nodes' p c)
include e

theorem key (n : NodeId) : RadixNode.key (nodes' n) = RadixNode.key (nodes n) := by
  by_cases np : n = p
  · rw [np, e.top_key]
  · exact (e.others n np).key

theorem parent (n : NodeId) : parent (nodes' n) = parent (nodes n) := by
  by_cases np : n = p
  · rw [np, e.top_parent]
  · exact (e.others n np).parent

theorem seg : segOf nodes' = segOf nodes := by
  funext n
  rw [segOf, e.key, segOf]

theorem links : linksOf P root next nodes' = (linksOf P root next nodes).detach p c := by
  simp only [linksOf, LinkedTree.detach, LinkedTree.mk.injEq, true_and]
  refine ⟨?_, ?_, ?_⟩
  · exact funext e.parent
  · funext n j
    by_cases np : n = p
    · subst np
      simp only [update_self, e.top_children]
      by_cases hj : j = encPage P ((RadixNode.key (nodes c)).units.take P)
      · subst hj
        simp
      · rw [update_of_ne hj]
        exact AList.lookup_erase_ne hj
    · simp [np, (e.others n np).children]
  · funext n
    have := congrFun e.seg n
    exact congrArg (fun us => encPage P (take P us)) this

end KeyDrop

namespace KeyTree

theorem single (pos : 0 < P) (fresh : root < next) (leaf : children (nodes root) = ∅) :
    KeyTree P root next nodes ⟨{root}, fun _ => []⟩ where
  shape := {
    root_live := Finset.mem_singleton_self _
    live_lt := fun n hn => Finset.mem_singleton.mp hn ▸ fresh
    chain_root := rfl
    up := fun n hn inner => absurd (Finset.mem_singleton.mp hn) inner
    down := by
      intro p hp k c found
      have hp : p = root := Finset.mem_singleton.mp hp
      simp [linksOf, hp, leaf] at found }
  page_pos := pos
  enc_inj := encPage_inj pos
  ok_take := fun _ n h => uniform_take h n
  ok_drop := fun _ n h => uniform_drop h n
  seg_ok := fun n hn inner => absurd (Finset.mem_singleton.mp hn) inner
  seg_ne := fun n hn inner => absurd (Finset.mem_singleton.mp hn) inner
  seg_paged := fun n hn inner => absurd (Finset.mem_singleton.mp hn) inner
  tag_eq := fun n hn inner => absurd (Finset.mem_singleton.mp hn) inner

section

variable (h : KeyTree P root next nodes G)
include h

theorem ne_next {n : NodeId} (hn : n ∈ G.live) : n ≠ next :=
  h.shape.ne_of_fresh hn le_rfl

section

variable (hc : c ∈ G.live) (inner : c ≠ root)
include hc inner

theorem parent_live (hp : parent (nodes c) = some p) : p ∈ G.live :=
  (h.shape.chain_up hc inner hp).1

theorem filed (hp : parent (nodes c) = some p) :
    (children (nodes p)).lookup (encPage P ((key (nodes c)).units.take P)) = some c :=
  (h.shape.chain_up hc inner hp).2.1

theorem has_parent : ∃ p ∈ G.live, parent (nodes c) = some p := by
  obtain ⟨p, hp, hparent, _⟩ := h.shape.up c hc inner
  exact ⟨p, hp, hparent⟩

theorem paged : P ∣ (key (nodes c)).len := by
  have := h.seg_paged c hc inner
  rwa [segOf, length_units] at this

theorem page_le : P ≤ (key (nodes c)).len := by
  have := h.seg_page hc inner
  rwa [segOf, length_units] at this

theorem parent_ne (hp : parent (nodes c) = some p) : p ≠ c := by
  rintro rfl
  have := (h.shape.chain_up hc inner hp).2.2
  simpa using congrArg length this

theorem parent_not_childless (hp : parent (nodes c) = some p) : children (nodes p) ≠ ∅ := by
  intro none
  have found := h.filed hc inner hp
  rw [none] at found
  simp at found

end

theorem split (e : KeySplit P nodes nodes' p c a len)
    (hc : c ∈ G.live) (inner : c ≠ root) (hp : parent (nodes c) = some p) (fresh : next ≤ a)
    (pos : 0 < len) (proper : len < (key (nodes c)).len) (paged : P ∣ len) :
    KeyTree P root (a + 1) nodes' (G.split p c a) := by
  have plive := (h.shape.chain_up hc inner hp).1
  have pc := h.parent_ne hc inner hp
  have ac := (h.shape.ne_of_fresh hc fresh).symm
  have pa := h.shape.ne_of_fresh plive fresh
  have long := Nat.le_of_dvd pos paged
  have lengths : (segOf nodes' a).length = len ∧ 0 < (segOf nodes' c).length := by
    simp only [segOf, e.upper_key, e.lower_key, length_units, len_upTo, len_fromIdx]
    omega
  unfold KeyTree
  rw [e.links next pc ac pa long]
  refine Labelled.split h hc inner hp fresh e.seg_halves
    (fun m hm _ mc => e.seg (h.shape.ne_of_fresh hm fresh) mc) ?_ ?_ ?_ rfl
  · exact ne_nil_of_length_pos (by omega)
  · exact ne_nil_of_length_pos lengths.2
  · rwa [lengths.1]

theorem hang (e : KeyHang P nodes nodes' p c) (hp : p ∈ G.live) (fresh : next ≤ c)
    (free : (children (nodes p)).lookup (encPage P ((segOf nodes' c).take P)) = none)
    (nonempty : 0 < (key (nodes' c)).len) (paged : P ∣ (key (nodes' c)).len) :
    KeyTree P root (c + 1) nodes' (G.attach p c) := by
  have pc := h.shape.ne_of_fresh hp fresh
  unfold KeyTree
  rw [e.links next pc]
  refine Labelled.attach h hp fresh free
    (fun m hm _ => e.seg (h.shape.ne_of_fresh hm fresh)) (uniform_units _) ?_ ?_ rfl
  · exact ne_nil_of_length_pos (by rwa [segOf, length_units])
  · rwa [segOf, length_units]

theorem drop (e : KeyDrop P nodes nodes' p c)
    (hc : c ∈ G.live) (inner : c ≠ root) (hp : parent (nodes c) = some p)
    (leaf : children (nodes c) = ∅) : KeyTree P root next nodes' (G.detach c) := by
  unfold KeyTree
  rw [e.links, e.seg]
  refine Labelled.detach h hc inner hp ?_
  intro j
  simp [linksOf, leaf]

theorem descend {k : RadixKey} (hp : p ∈ G.live) (nonempty : 0 < k.len) (paged : P ∣ k.len)
    (found : (children (nodes p)).lookup (encPage P (k.units.take P)) = some c) :
    c ∈ G.live ∧ c ≠ root ∧ parent (nodes c) = some p ∧
    ∃ m, (key (nodes c)).matchLen k P = .ok m ∧ m = pageFloor P (commonLen (segOf nodes c) k.units) ∧
      P ∣ m ∧ P ≤ m ∧ m ≤ (key (nodes c)).len ∧ m ≤ k.len ∧
      (segOf nodes c).take m = k.units.take m := by
  have long : P ≤ k.units.length := by
    rw [length_units]
    exact Nat.le_of_dvd nonempty paged
  obtain ⟨hc, inner, hparent, page, matched⟩ :=
    h.kid_found hp (uniform_units k) long found
  have clen := h.page_le hc inner
  obtain ⟨namespaces, modes⟩ := same_of_page h.page_pos (by have := h.page_pos; omega) page
  have bound := pageFloor_le P (commonLen (segOf nodes c) k.units)
  have left := commonLen_le_left (segOf nodes c) k.units
  have right := commonLen_le_right (segOf nodes c) k.units
  rw [length_units] at right
  rw [segOf, length_units] at left
  refine ⟨hc, inner, hparent, _, matchLen_eq h.page_pos namespaces modes (h.paged hc inner), rfl,
    dvd_pageFloor _ _, matched, ?_, ?_, take_eq_of_le_commonLen bound⟩
  · exact le_trans bound left
  · exact le_trans bound right

end

end KeyTree

end NodeHeap

end RedKnot
