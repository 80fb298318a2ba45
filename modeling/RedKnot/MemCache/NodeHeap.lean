import RedKnot.MemCache.KeyTree

/-! Node heaps in which every node holds a value: one slot for each unit of its key. -/

namespace RedKnot

open LinkedTree RadixKey List

namespace NodeHeap

open RadixNode

variable {α : Type} [RadixNode α]

def valOf (nodes : NodeId → α) (n : NodeId) : List Slot := (value (nodes n)).getD []

/-- Every node other than the root holds a nonempty page-aligned key and one slot for each
unit of it. -/
structure IsRadixTree (P : Nat) (root next : NodeId) (nodes : NodeId → α) (G : Outline) : Prop where
  labelled : (linksOf P root next nodes).Labelled G P (encPage P) Uniform (segOf nodes)
  valued : ∀ n ∈ G.live, n ≠ root → ∃ v, value (nodes n) = some v ∧ v.length = (key (nodes n)).len

structure SameLinks (a b : α) : Prop where
  children : children a = children b
  parent : parent a = parent b
  key : key a = key b
  value : value a = value b

theorem SameLinks.refl (a : α) : SameLinks a a := ⟨rfl, rfl, rfl, rfl⟩

theorem SameLinks.trans {a b c : α} (h : SameLinks a b) (h' : SameLinks b c) : SameLinks a c :=
  ⟨h.1.trans h'.1, h.2.trans h'.2, h.3.trans h'.3, h.4.trans h'.4⟩

theorem SameLinks.keys {a b : α} (h : SameLinks a b) : SameKeys a b :=
  ⟨h.children, h.parent, h.key⟩

section Congr

variable {nodes nodes' : NodeId → α}

theorem seg_congr (same : ∀ n, SameLinks (nodes' n) (nodes n)) : segOf nodes' = segOf nodes :=
  segOf_congr fun n => (same n).keys

theorem valOf_congr (same : ∀ n, SameLinks (nodes' n) (nodes n)) : valOf nodes' = valOf nodes := by
  funext n
  simp only [valOf, (same n).value]

theorem IsRadixTree.congr {P : Nat} {root next : NodeId} {G : Outline}
    (h : IsRadixTree P root next nodes G) (same : ∀ n, SameLinks (nodes' n) (nodes n)) :
    IsRadixTree P root next nodes' G where
  labelled := KeyTree.congr (fun n => (same n).keys) h.labelled
  valued := by
    intro n hn inner
    rw [(same n).value, (same n).key]
    exact h.valued n hn inner

end Congr

structure SplitOf (P : Nat) (nodes nodes' : NodeId → α) (p c a : NodeId) (len : Nat) : Prop where
  upper_parent : parent (nodes' a) = some p
  upper_children : children (nodes' a) =
    AList.singleton (encPage P (((key (nodes c)).units.drop len).take P)) c
  upper_key : key (nodes' a) = (key (nodes c)).upTo len
  upper_value : value (nodes' a) = (value (nodes c)).map (take len)
  lower_parent : parent (nodes' c) = some a
  lower_children : children (nodes' c) = children (nodes c)
  lower_key : key (nodes' c) = (key (nodes c)).fromIdx len
  lower_value : value (nodes' c) = (value (nodes c)).map (List.drop len)
  top_children : children (nodes' p) =
    (children (nodes p)).insert (encPage P ((key (nodes c)).units.take P)) a
  top_parent : parent (nodes' p) = parent (nodes p)
  top_key : key (nodes' p) = key (nodes p)
  top_value : value (nodes' p) = value (nodes p)
  others : ∀ n, n ≠ a → n ≠ c → n ≠ p → SameLinks (nodes' n) (nodes n)

structure HangOf (P : Nat) (nodes nodes' : NodeId → α) (p c : NodeId) : Prop where
  new_parent : parent (nodes' c) = some p
  new_children : children (nodes' c) = ∅
  top_children : children (nodes' p) =
    (children (nodes p)).insert (encPage P ((key (nodes' c)).units.take P)) c
  top_parent : parent (nodes' p) = parent (nodes p)
  top_key : key (nodes' p) = key (nodes p)
  top_value : value (nodes' p) = value (nodes p)
  others : ∀ n, n ≠ c → n ≠ p → SameLinks (nodes' n) (nodes n)

structure DropOf (P : Nat) (nodes nodes' : NodeId → α) (p c : NodeId) : Prop where
  top_children : children (nodes' p) =
    (children (nodes p)).erase (encPage P ((key (nodes c)).units.take P))
  top_parent : parent (nodes' p) = parent (nodes p)
  top_key : key (nodes' p) = key (nodes p)
  top_value : value (nodes' p) = value (nodes p)
  others : ∀ n, n ≠ p → SameLinks (nodes' n) (nodes n)

section Keys

variable {P : Nat} {nodes nodes' : NodeId → α} {p c a : NodeId} {len : Nat}

theorem SplitOf.keys (e : SplitOf P nodes nodes' p c a len) : KeySplit P nodes nodes' p c a len :=
  ⟨e.upper_parent, e.upper_children, e.upper_key, e.lower_parent, e.lower_children, e.lower_key,
    e.top_children, e.top_parent, e.top_key, fun n na nc np => (e.others n na nc np).keys⟩

theorem HangOf.keys (e : HangOf P nodes nodes' p c) : KeyHang P nodes nodes' p c :=
  ⟨e.new_parent, e.new_children, e.top_children, e.top_parent, e.top_key,
    fun n nc np => (e.others n nc np).keys⟩

theorem DropOf.keys (e : DropOf P nodes nodes' p c) : KeyDrop P nodes nodes' p c :=
  ⟨e.top_children, e.top_parent, e.top_key, fun n np => (e.others n np).keys⟩

end Keys

namespace IsRadixTree

variable {P : Nat} {root next : NodeId} {nodes nodes' : NodeId → α} {G : Outline}
  {p c a : NodeId} {len : Nat}

theorem keys (h : IsRadixTree P root next nodes G) : KeyTree P root next nodes G := h.labelled

theorem single (pos : 0 < P) (fresh : root < next) (leaf : children (nodes root) = ∅) :
    IsRadixTree P root next nodes ⟨{root}, fun _ => []⟩ where
  labelled := KeyTree.single pos fresh leaf
  valued := fun _ hn inner => absurd (Finset.mem_singleton.mp hn) inner

variable {n : NodeId}

section

variable (h : IsRadixTree P root next nodes G)
include h

theorem shape : (linksOf P root next nodes).Shape G :=
  h.labelled.shape

theorem page_pos : 0 < P := h.labelled.page_pos

theorem root_live : root ∈ G.live := h.shape.root_live

theorem ne_next (hn : n ∈ G.live) : n ≠ next :=
  h.keys.ne_next hn

section

variable (hc : c ∈ G.live) (inner : c ≠ root)
include hc inner

theorem paged : P ∣ (key (nodes c)).len :=
  h.keys.paged hc inner

theorem length_valOf : (valOf nodes c).length = (segOf nodes c).length := by
  obtain ⟨v, hv, hlen⟩ := h.valued c hc inner
  rw [valOf, hv, segOf, length_units]
  exact hlen

end

theorem length_along (hn : n ∈ G.live) :
    (G.along (valOf nodes) n).length = (G.along (segOf nodes) n).length :=
  h.shape.along_length_eq hn (fun _ hm inner => h.length_valOf hm inner)

end

section Split

variable (e : SplitOf P nodes nodes' p c a len)
include e

theorem value_split (na : n ≠ a) (nc : n ≠ c) : value (nodes' n) = value (nodes n) := by
  by_cases np : n = p
  · rw [np, e.top_value]
  · exact (e.others n na nc np).value

theorem valOf_split (na : n ≠ a) (nc : n ≠ c) : valOf nodes' n = valOf nodes n := by
  rw [valOf, value_split e na nc, valOf]

theorem valOf_split_upper : valOf nodes' a = (valOf nodes c).take len := by
  simp only [valOf, e.upper_value]
  cases value (nodes c) <;> simp

theorem valOf_split_lower : valOf nodes' c = (valOf nodes c).drop len := by
  simp only [valOf, e.lower_value]
  cases value (nodes c) <;> simp

theorem valOf_split_halves : valOf nodes' a ++ valOf nodes' c = valOf nodes c := by
  rw [valOf_split_upper e, valOf_split_lower e, take_append_drop]

end Split

theorem split (h : IsRadixTree P root next nodes G) (e : SplitOf P nodes nodes' p c a len)
    (hc : c ∈ G.live) (inner : c ≠ root) (hp : parent (nodes c) = some p) (fresh : next ≤ a)
    (pos : 0 < len) (proper : len < (key (nodes c)).len) (paged : P ∣ len) :
    IsRadixTree P root (a + 1) nodes' (G.split p c a) where
  labelled := h.keys.split e.keys hc inner hp fresh pos proper paged
  valued := by
    intro n hn ninner
    obtain ⟨v, hv, vlen⟩ := h.valued c hc inner
    rcases Finset.mem_insert.mp hn with rfl | hn
    · refine ⟨v.take len, by simp [e.upper_value, hv], ?_⟩
      simp only [e.upper_key, len_upTo, length_take, vlen]
    · by_cases nc : n = c
      · subst nc
        refine ⟨v.drop len, by simp [e.lower_value, hv], ?_⟩
        simp only [e.lower_key, len_fromIdx, length_drop, vlen]
      · have na := h.shape.ne_of_fresh hn fresh
        rw [value_split e na nc, e.keys.key na nc]
        exact h.valued n hn ninner

section Hang

variable (e : HangOf P nodes nodes' p c)
include e

theorem value_hang (nc : n ≠ c) : value (nodes' n) = value (nodes n) := by
  by_cases np : n = p
  · rw [np, e.top_value]
  · exact (e.others n nc np).value

theorem valOf_hang (nc : n ≠ c) : valOf nodes' n = valOf nodes n := by
  rw [valOf, value_hang e nc, valOf]

end Hang

theorem hang (h : IsRadixTree P root next nodes G) (e : HangOf P nodes nodes' p c)
    (hp : p ∈ G.live) (fresh : next ≤ c)
    (free : (children (nodes p)).lookup (encPage P ((segOf nodes' c).take P)) = none)
    (nonempty : 0 < (key (nodes' c)).len) (paged : P ∣ (key (nodes' c)).len)
    (valued : ∃ v, value (nodes' c) = some v ∧ v.length = (key (nodes' c)).len) :
    IsRadixTree P root (c + 1) nodes' (G.attach p c) where
  labelled := h.keys.hang e.keys hp fresh free nonempty paged
  valued := by
    intro n hn inner
    rcases Finset.mem_insert.mp hn with rfl | hn
    · exact valued
    · have nc := h.shape.ne_of_fresh hn fresh
      rw [value_hang e nc, e.keys.key nc]
      exact h.valued n hn inner

section Drop

variable (e : DropOf P nodes nodes' p c)
include e

theorem value_drop (n : NodeId) : value (nodes' n) = value (nodes n) := by
  by_cases np : n = p
  · rw [np, e.top_value]
  · exact (e.others n np).value

theorem valOf_drop : valOf nodes' = valOf nodes := by
  funext n
  rw [valOf, value_drop e, valOf]

end Drop

theorem drop (h : IsRadixTree P root next nodes G) (e : DropOf P nodes nodes' p c)
    (hc : c ∈ G.live) (inner : c ≠ root) (hp : parent (nodes c) = some p)
    (leaf : children (nodes c) = ∅) : IsRadixTree P root next nodes' (G.detach c) where
  labelled := h.keys.drop e.keys hc inner hp leaf
  valued := by
    intro n hn ninner
    rw [value_drop e, e.keys.key]
    exact h.valued n (Finset.mem_of_mem_erase hn) ninner

end IsRadixTree

end NodeHeap

end RedKnot
