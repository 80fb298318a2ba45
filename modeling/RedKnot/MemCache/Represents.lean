import RedKnot.Lib.PrefixMap
import RedKnot.MemCache.NodeHeap

/-! A node heap as a map from page-aligned words to slots, read off the child dictionaries alone. -/

namespace RedKnot.NodeHeap

open LinkedTree RadixNode RadixKey Finset List

variable {α : Type} [RadixNode α]

inductive PathTo (root : NodeId) (nodes : NodeId → α) : NodeId → List KeyUnit → List Slot → Prop where
  | root : PathTo root nodes root [] []
  | child {p c : NodeId} {k : ChildKey} {us : List KeyUnit} {vs : List Slot} :
    PathTo root nodes p us vs → (children (nodes p)).lookup k = some c →
    PathTo root nodes c (us ++ segOf nodes c) (vs ++ valOf nodes c)

def Cached (P : Nat) (root : NodeId) (nodes : NodeId → α) (w : List KeyUnit) (vs : List Slot) : Prop :=
  P ∣ w.length ∧
    ∃ n us slots, PathTo root nodes n us slots ∧ w <+: us ∧ vs = slots.take w.length

def Represents {P : Nat} (root : NodeId) (nodes : NodeId → α) (M : PrefixMap KeyUnit Slot P) : Prop :=
  ∀ w vs, M.get w = some vs ↔ Cached P root nodes w vs

/-- `w` is the longest prefix of `us` in the tree, with the slots `vs`. -/
structure Longest (P : Nat) (root : NodeId) (nodes : NodeId → α) (us w : List KeyUnit)
    (vs : List Slot) : Prop where
  within : w <+: us
  cached : Cached P root nodes w vs
  longest : ∀ j slots, j ≤ us.length → Cached P root nodes (us.take j) slots → j ≤ w.length

variable {us w : List KeyUnit} {vs : List Slot}

theorem Longest.lookup {P : Nat} {root : NodeId} {nodes : NodeId → α} {M : PrefixMap KeyUnit Slot P}
    (l : Longest P root nodes us w vs)
    (rep : Represents root nodes M) : M.depth us = w.length ∧ M.lookup us = vs := by
  refine PrefixMap.lookup_eq l.within ((rep _ _).mpr l.cached) ?_
  intro j bound _ some
  obtain ⟨slots, hslots⟩ := Option.isSome_iff_exists.mp some
  exact l.longest j slots bound ((rep _ _).mp hslots)

namespace IsRadixTree

variable {P : Nat} {root next next' : NodeId} {nodes nodes' : NodeId → α} {G G' : Outline}
  {p c a : NodeId} {len : Nat}

section

variable (h : IsRadixTree P root next nodes G)
include h

theorem pathTo_iff {n : NodeId} : PathTo root nodes n us vs ↔
      n ∈ G.live ∧ us = G.along (segOf nodes) n ∧ vs = G.along (valOf nodes) n := by
  constructor
  · intro way
    induction way with
    | root =>
      exact ⟨h.shape.root_live, (h.shape.along_root _).symm, (h.shape.along_root _).symm⟩
    | @child p c k us vs _ found ih =>
      obtain ⟨hp, rfl, rfl⟩ := ih
      obtain ⟨hc, inner, hparent, _⟩ := h.shape.down p hp k c found
      exact ⟨hc, (h.shape.along_up _ hc inner hparent).symm, (h.shape.along_up _ hc inner hparent).symm⟩
  · rintro ⟨hn, rfl, rfl⟩
    refine h.shape.induction (P := fun n =>
      PathTo root nodes n (G.along (segOf nodes) n) (G.along (valOf nodes) n)) ?_ ?_ n hn
    · have hroot := h.shape.along_root (segOf nodes)
      have hroot' := h.shape.along_root (valOf nodes)
      change PathTo root nodes root (G.along (segOf nodes) root) (G.along (valOf nodes) root)
      rw [show G.along (segOf nodes) root = [] from hroot, show G.along (valOf nodes) root = [] from hroot']
      exact .root
    · intro q n _ hn inner hparent hkid _ ih
      rw [h.shape.along_up _ hn inner hparent, h.shape.along_up _ hn inner hparent]
      exact .child ih hkid

theorem cached_iff :
    Cached P root nodes w vs ↔ P ∣ w.length ∧ ∃ n ∈ G.live, w <+: G.along (segOf nodes) n ∧
      vs = (G.along (valOf nodes) n).take w.length := by
  unfold Cached
  constructor
  · rintro ⟨paged, n, us, slots, way, here, rfl⟩
    obtain ⟨hn, rfl, rfl⟩ := h.pathTo_iff.mp way
    exact ⟨paged, n, hn, here, rfl⟩
  · rintro ⟨paged, n, hn, here, rfl⟩
    exact ⟨paged, n, _, _, h.pathTo_iff.mpr ⟨hn, rfl, rfl⟩, here, rfl⟩

theorem cached_unique {vs' : List Slot}
    (one : Cached P root nodes w vs) (two : Cached P root nodes w vs') : vs = vs' := by
  obtain ⟨paged, n, hn, wn, rfl⟩ := h.cached_iff.mp one
  obtain ⟨_, m, hm, wm, rfl⟩ := h.cached_iff.mp two
  exact h.labelled.along_take_eq (fun _ hm inner => h.length_valOf hm inner) hn hm paged wn wm

theorem cached_word {n : NodeId} (hn : n ∈ G.live) :
    Cached P root nodes (G.along (segOf nodes) n) (G.along (valOf nodes) n) := by
  rw [h.cached_iff]
  refine ⟨h.labelled.path_paged hn, n, hn, prefix_rfl, ?_⟩
  rw [← h.length_along hn, take_length]

theorem goes_on {k : RadixKey}
    {slots : List Slot} (hp : p ∈ G.live) (split : us = G.along (segOf nodes) p ++ k.units) {j : Nat}
    (long : (G.along (segOf nodes) p).length < j) (bound : j ≤ us.length)
    (cached : Cached P root nodes (us.take j) slots) :
    ∃ c, (children (nodes p)).lookup (encPage P (k.units.take P)) = some c ∧
      (j ≤ (G.along (segOf nodes) p).length + pageFloor P (commonLen (segOf nodes c) k.units) ∨
        pageFloor P (commonLen (segOf nodes c) k.units) = (segOf nodes c).length) := by
  obtain ⟨paged, n, hn, here, _⟩ := h.cached_iff.mp cached
  rw [length_take, min_eq_left bound] at paged
  have cut : us.take j = G.along (segOf nodes) p ++
      k.units.take (j - (G.along (segOf nodes) p).length) := by
    rw [split, take_append, take_of_length_le long.le]
  rw [cut] at here
  have rest : j - (G.along (segOf nodes) p).length ≤ k.units.length := by
    rw [split, length_append] at bound
    omega
  obtain ⟨c, found, reach⟩ := h.labelled.extends_through hp hn (Nat.sub_pos_of_lt long)
    (Nat.dvd_sub paged (h.labelled.path_paged hp)) rest here
  refine ⟨c, found, ?_⟩
  rcases reach with reach | whole
  · left
    omega
  · exact .inr whole

theorem longest_here (k : RadixKey)
    (hp : p ∈ G.live) (split : us = G.along (segOf nodes) p ++ k.units)
    (stop : k.len = 0 ∨ (children (nodes p)).lookup (encPage P (k.units.take P)) = none) :
    Longest P root nodes us (G.along (segOf nodes) p) (G.along (valOf nodes) p) := by
  refine ⟨split ▸ prefix_append _ _, h.cached_word hp, ?_⟩
  intro j slots bound cached
  by_contra long
  obtain ⟨c, found, _⟩ := h.goes_on hp split (by omega) bound cached
  rcases stop with done | missing
  · rw [split, length_append, length_units, done] at bound
    omega
  · rw [missing] at found
    cases found

theorem longest_inside {k : RadixKey}
    {m : Nat} (hp : p ∈ G.live) (split : us = G.along (segOf nodes) p ++ k.units)
    (nonempty : 0 < k.len) (paged : P ∣ k.len)
    (found : (children (nodes p)).lookup (encPage P (k.units.take P)) = some c)
    (matched : m = pageFloor P (commonLen (segOf nodes c) k.units)) (inside : m < (key (nodes c)).len) :
    Longest P root nodes us (G.along (segOf nodes) p ++ (segOf nodes c).take m)
      (G.along (valOf nodes) p ++ (valOf nodes c).take m) := by
  obtain ⟨hc, inner, hparent, m', _, hm', pagedm, _, _, bound, agree⟩ := h.keys.descend hp nonempty paged found
  obtain rfl : m = m' := matched.trans hm'.symm
  have clen : (segOf nodes c).length = (key (nodes c)).len := length_units _
  have word := h.shape.along_up (segOf nodes) hc inner hparent
  have slots := h.shape.along_up (valOf nodes) hc inner hparent
  have wordLen : (G.along (segOf nodes) p ++ (segOf nodes c).take m).length =
      (G.along (segOf nodes) p).length + m := by
    rw [length_append, length_take]
    omega
  refine ⟨?_, ?_, ?_⟩
  · rw [split, prefix_append_right_inj, agree]
    exact take_prefix _ _
  · rw [h.cached_iff]
    refine ⟨wordLen ▸ Dvd.dvd.add (h.labelled.path_paged hp) pagedm, c, hc, ?_, ?_⟩
    · rw [word, prefix_append_right_inj]
      exact take_prefix _ _
    · rw [wordLen, slots, ← h.length_along hp, take_length_add_append]
  · intro j vs jbound cached
    by_contra long
    rw [wordLen] at long
    obtain ⟨d, found', reach⟩ := h.goes_on hp split (by omega) jbound cached
    obtain rfl : c = d := Option.some.inj (found.symm.trans found')
    omega

theorem cached_split (e : SplitOf P nodes nodes' p c a len)
    (hc : c ∈ G.live) (inner : c ≠ root) (hp : parent (nodes c) = some p) (fresh : next ≤ a)
    (pos : 0 < len) (proper : len < (key (nodes c)).len) (paged : P ∣ len) :
      Cached P root nodes' w vs ↔ Cached P root nodes w vs := by
  have h' := h.split e hc inner hp fresh pos proper paged
  have words : ∀ n ∈ G.live,
      (G.split p c a).along (segOf nodes') n = G.along (segOf nodes) n := fun n hn =>
    h.shape.split_along_old fresh e.keys.seg_halves
      (fun m hm _ mc => e.keys.seg (h.shape.ne_of_fresh hm fresh) mc) hn
  have slots : ∀ n ∈ G.live,
      (G.split p c a).along (valOf nodes') n = G.along (valOf nodes) n := fun n hn =>
    h.shape.split_along_old fresh (valOf_split_halves e)
      (fun m hm _ mc => valOf_split e (h.shape.ne_of_fresh hm fresh) mc) hn
  rw [h.cached_iff, h'.cached_iff]
  refine and_congr_right fun pagedw => ⟨?_, ?_⟩
  · rintro ⟨n, hn, here, rfl⟩
    rcases mem_insert.mp hn with rfl | hn
    · -- A word of the upper half is a word of the whole node.
      have clive : c ∈ (G.split p c n).live := mem_insert_of_mem hc
      have above : n ∈ (G.split p c n).chain c :=
        (h.shape.mem_split_chain fresh hc).mpr (.inr ⟨rfl, h.shape.self_mem_chain hc inner⟩)
      have herec := here.trans (h'.shape.along_of_mem (segOf nodes') clive above)
      refine ⟨c, hc, words c hc ▸ herec, ?_⟩
      rw [← slots c hc]
      exact h'.labelled.along_take_eq (fun _ hm inner => h'.length_valOf hm inner)
        (mem_insert_self _ _) clive pagedw here herec
    · exact ⟨n, hn, words n hn ▸ here, by rw [slots n hn]⟩
  · rintro ⟨n, hn, here, rfl⟩
    exact ⟨n, mem_insert_of_mem hn, (words n hn).symm ▸ here, by rw [slots n hn]⟩

theorem cached_hang (h' : IsRadixTree P root (c + 1) nodes' (G.attach p c))
    (e : HangOf P nodes nodes' p c)
    (hp : p ∈ G.live) (fresh : next ≤ c) :
    Cached P root nodes' w vs ↔ Cached P root nodes w vs ∨
      (P ∣ w.length ∧ w <+: G.along (segOf nodes) p ++ segOf nodes' c ∧
        vs = (G.along (valOf nodes) p ++ valOf nodes' c).take w.length) := by
  have words : ∀ n ∈ G.live, (G.attach p c).along (segOf nodes') n = G.along (segOf nodes) n :=
    fun n hn => h.shape.attach_along_old fresh
      (fun m hm _ => e.keys.seg (h.shape.ne_of_fresh hm fresh)) hn
  have slots : ∀ n ∈ G.live, (G.attach p c).along (valOf nodes') n = G.along (valOf nodes) n :=
    fun n hn => h.shape.attach_along_old fresh
      (fun m hm _ => valOf_hang e (h.shape.ne_of_fresh hm fresh)) hn
  have word : (G.attach p c).along (segOf nodes') c = G.along (segOf nodes) p ++ segOf nodes' c :=
    h.shape.attach_along_new hp (fun m hm _ => e.keys.seg (h.shape.ne_of_fresh hm fresh))
  have slot : (G.attach p c).along (valOf nodes') c = G.along (valOf nodes) p ++ valOf nodes' c :=
    h.shape.attach_along_new hp (fun m hm _ => valOf_hang e (h.shape.ne_of_fresh hm fresh))
  rw [h.cached_iff, h'.cached_iff, ← and_or_left]
  refine and_congr_right fun _ => ⟨?_, ?_⟩
  · rintro ⟨n, hn, here, rfl⟩
    rcases mem_insert.mp hn with rfl | hn
    · exact .inr ⟨word ▸ here, by rw [slot]⟩
    · exact .inl ⟨n, hn, words n hn ▸ here, by rw [slots n hn]⟩
  · rintro (⟨n, hn, here, rfl⟩ | ⟨here, rfl⟩)
    · exact ⟨n, mem_insert_of_mem hn, (words n hn).symm ▸ here, by rw [slots n hn]⟩
    · exact ⟨c, mem_insert_self _ _, word.symm ▸ here, by rw [slot]⟩

theorem eq_leaf (hc : c ∈ G.live) (inner : c ≠ root)
    (hp : parent (nodes c) = some p) (leaf : children (nodes c) = ∅) {n : NodeId}
    (hn : n ∈ G.live) (paged : P ∣ w.length) (wn : w <+: G.along (segOf nodes) n)
    (wc : w <+: G.along (segOf nodes) c) (long : (G.along (segOf nodes) p).length < w.length) :
    n = c := by
  by_contra nc
  obtain ⟨d, r, hdn, hd, dinner, hdr, shortr, longd⟩ := h.labelled.cover hn (by omega) wn.length_le
  have wd := prefix_of_prefix_length_le wn (h.shape.along_of_mem _ hn hdn) longd
  have same := h.labelled.cover_unique paged hc inner hp hd dinner hdr long shortr wc wd
  subst same
  obtain ⟨x, hx, xinner, hxp, hxk, _⟩ := h.shape.child_toward hn (.inr hdn) nc
  have : (children (nodes c)).lookup ((linksOf P root next nodes).tag x) = some x := hxk
  rw [leaf] at this
  simp at this

theorem cached_drop (e : DropOf P nodes nodes' p c)
    (hc : c ∈ G.live) (inner : c ≠ root) (hp : parent (nodes c) = some p)
    (leaf : children (nodes c) = ∅) :
    Cached P root nodes' w vs ↔ Cached P root nodes w vs ∧
      ¬ (w <+: G.along (segOf nodes) c ∧ (G.along (segOf nodes) p).length < w.length) := by
  have h' := h.drop e hc inner hp leaf
  have plive := (h.shape.chain_up hc inner hp).1
  rw [h.cached_iff, h'.cached_iff, e.keys.seg, valOf_drop e]
  rw [and_assoc]
  refine and_congr_right fun paged => ⟨?_, ?_⟩
  · rintro ⟨n, hn, here, rfl⟩
    obtain ⟨nc, hn⟩ := mem_erase.mp hn
    refine ⟨⟨n, hn, here, rfl⟩, ?_⟩
    rintro ⟨wc, long⟩
    exact nc (h.eq_leaf hc inner hp leaf hn paged here wc long)
  · rintro ⟨⟨n, hn, here, rfl⟩, kept⟩
    by_cases nc : n = c
    · subst nc
      have short : w.length ≤ (G.along (segOf nodes) p).length := by
        by_contra long
        exact kept ⟨here, by omega⟩
      have above : G.along (segOf nodes) p <+: G.along (segOf nodes) n :=
        h.shape.along_up (segOf nodes) hc inner hp ▸ prefix_append _ _
      have wp := prefix_of_prefix_length_le here above short
      refine ⟨p, mem_erase.mpr ⟨h.keys.parent_ne hc inner hp, plive⟩, wp, ?_⟩
      exact h.labelled.along_take_eq (fun _ hm inner => h.length_valOf hm inner) hc plive paged here wp
    · exact ⟨n, mem_erase.mpr ⟨nc, hn⟩, here, rfl⟩

end

end IsRadixTree

end RedKnot.NodeHeap
