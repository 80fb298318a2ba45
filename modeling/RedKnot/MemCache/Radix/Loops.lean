import RedKnot.MemCache.Radix.LockSteps

/-! The loops of `_match_prefix_helper` and `_insert_helper`. The word of the current node followed
by the rest of the key is the whole key. -/

namespace RedKnot.Radix.RadixCache

open LinkedTree NodeHeap RadixKey Function List

variable {s s' : RadixCache} {G G' : Outline}

theorem Reshape.pageSize (r : Reshape s G s' G') : s'.pageSize = s.pageSize := by
  simp only [RadixCache.pageSize, r.cfg]

theorem Touched.lookup (touched : Touched s s') (n : NodeId) (k : ChildKey) :
    (s'.nodes n).children.lookup k = (s.nodes n).children.lookup k :=
  congrArg (AList.lookup k) (touched.sameLinks n).children

theorem Reshape.longest (r : Reshape s G s' G') (h : Inv s G) {us w : List KeyUnit} {vs : List Slot}
    (l : Longest s'.pageSize s'.rootNode s'.nodes us w vs) :
    Longest s.pageSize s.rootNode s.nodes us w vs := by
  obtain ⟨within, cached, longest⟩ := l
  rw [r.pageSize] at cached longest
  exact ⟨within, (r.cached h).mp cached, fun j slots bound hc =>
    longest j slots bound ((r.cached h).mpr hc)⟩

theorem nextChildKey_spec {k : RadixKey} (pos : 0 < s.pageSize) (paged : s.pageSize ∣ k.len)
    (old : ChildKey) :
    ∃ j, s.nextChildKey k old = .ok j ∧
      (0 < k.len → j = encPage s.pageSize (k.units.take s.pageSize)) := by
  unfold nextChildKey
  by_cases nonempty : 0 < k.len
  · exact ⟨_, by rw [if_pos nonempty, childKey_of_page pos (Nat.le_of_dvd nonempty paged)], fun _ => rfl⟩
  · exact ⟨old, by rw [if_neg nonempty], fun h => absurd h nonempty⟩

theorem split_found {p c : NodeId} {m : Nat} (h : Inv s G) (hc : c ∈ G.live) (inner : c ≠ s.rootNode)
    (hp : (s.nodes c).parent = some p) (e : SplitsTo s s' p c m) :
    (G.split p c s.counter).along (segOf s'.nodes) s.counter =
        G.along (segOf s.nodes) p ++ (segOf s.nodes c).take m ∧
      (G.split p c s.counter).along (valOf s'.nodes) s.counter =
        G.along (valOf s.nodes) p ++ (valOf s.nodes c).take m ∧
      valOf s'.nodes s.counter = (valOf s.nodes c).take m := by
  have upper : segOf s'.nodes s.counter = (segOf s.nodes c).take m := by
    rw [segOf, e.links.upper_key, units_upTo, segOf]
  have value : valOf s'.nodes s.counter = (valOf s.nodes c).take m := by
    rw [valOf, e.links.upper_value, valOf]
    cases RadixNode.value (s.nodes c) <;> simp
  refine ⟨?_, ?_, value⟩
  · rw [h.tree.shape.split_along_new hc inner hp
      (fun n hn _ nc => e.links.keys.seg (h.tree.ne_next hn) nc), upper]
  · rw [h.tree.shape.split_along_new hc inner hp
      (fun n hn _ nc => IsRadixTree.valOf_split e.links (h.tree.ne_next hn) nc), value]

theorem matchLoop_spec (time : Int) : ∀ (fuel : Nat) (s : RadixCache) (G : Outline) (node : NodeId)
    (key : RadixKey) (childKey : ChildKey) (value : List (List Slot)) (us : List KeyUnit),
    Inv s G → node ∈ G.live → us = G.along (segOf s.nodes) node ++ key.units →
    s.pageSize ∣ key.len → (0 < key.len → childKey = encPage s.pageSize (key.units.take s.pageSize)) →
    key.len < fuel → value.flatten = G.along (valOf s.nodes) node →
    ∃ vs n s' G', matchLoop time fuel s node key childKey value = .ok (vs, n, s') ∧
      Reshape s G s' G' ∧ n ∈ G'.live ∧ vs.flatten = G'.along (valOf s'.nodes) n ∧
      Longest s.pageSize s.rootNode s.nodes us (G'.along (segOf s'.nodes) n) vs.flatten := by
  intro fuel
  induction fuel with
  | zero =>
    intro s G node key childKey value us _ _ _ _ _ hfuel
    omega
  | succ fuel ih =>
    intro s G node key childKey value us h hnode split paged hkey hfuel hvalue
    rw [matchLoop]
    by_cases nonempty : key.len > 0
    · rw [if_pos nonempty]
      obtain rfl := hkey nonempty
      cases found : (s.nodes node).children.lookup (encPage s.pageSize (key.units.take s.pageSize)) with
      | none =>
        refine ⟨value, node, s, G, rfl, .refl s G, hnode, hvalue, ?_⟩
        exact hvalue ▸ h.tree.longest_here key hnode split (.inr found)
      | some child =>
        have touched := touched_access s child time
        dsimp only
        generalize s.modify child (fun n => { n with lastAccessTime := time }) = t at touched ⊢
        have ht := h.touched touched
        rw [← touched.lookup, ← touched.pageSize] at found
        rw [← touched.pageSize] at paged
        rw [← seg_congr touched.sameLinks] at split
        rw [← valOf_congr touched.sameLinks] at hvalue
        obtain ⟨hc, inner, hparent, m, matched, hm, pagedm, pos, bound, short, agree⟩ :=
          ht.tree.keys.descend hnode nonempty paged found
        simp only [show (t.nodes child).key.matchLen key t.pageSize = .ok m from matched, ok_bind]
        by_cases inside : m < (t.nodes child).key.len
        · -- The key leaves the segment in its middle: the child is split there.
          rw [if_pos inside]
          have positive : 0 < m := lt_of_lt_of_le ht.tree.page_pos pos
          obtain ⟨s', ran, e⟩ := splitNode_spec ht hc inner hparent inside pagedm
          obtain ⟨word, slots, upper⟩ := split_found ht hc inner hparent e
          have flat : (value ++ [(s'.nodes t.counter).slots]).flatten =
              (G.split node child t.counter).along (valOf s'.nodes) t.counter := by
            rw [slots, flatten_append, hvalue, ← upper, flatten_singleton]
            rfl
          refine ⟨value ++ [(s'.nodes t.counter).slots], t.counter, s', G.split node child t.counter, ?_,
            .touch touched (.split hc inner hparent positive inside pagedm e (.refl _ _)),
            Finset.mem_insert_self _ _, flat, (Reshape.touched touched).longest h ?_⟩
          · simp only [ran]
            rfl
          · rw [flat, word, slots]
            exact ht.tree.longest_inside hnode split nonempty paged found hm inside
        · -- The whole segment agrees: go on below the child.
          rw [if_neg inside]
          have rest : (key.fromIdx m).len = key.len - m := len_fromIdx key m
          have pagedRest : t.pageSize ∣ (key.fromIdx m).len := rest ▸ Nat.dvd_sub paged pagedm
          obtain ⟨j, hj, hjkey⟩ := nextChildKey_spec ht.tree.page_pos pagedRest
            (encPage s.pageSize (key.units.take s.pageSize))
          have segment : segOf t.nodes child = key.units.take m := by
            rw [← agree, take_of_length_le]
            rw [segOf, length_units]
            exact not_lt.mp inside
          have slots := ht.tree.shape.along_up (valOf t.nodes) hc inner hparent
          obtain ⟨vs, n, s', G', ran, r, hn, flat, l⟩ :=
            ih t G child (key.fromIdx m) j (value ++ [(t.nodes child).slots]) us ht hc
              (by rw [ht.tree.shape.along_up (segOf t.nodes) hc inner hparent, segment,
                    units_fromIdx, append_assoc, take_append_drop, split])
              pagedRest hjkey (by have := ht.tree.page_pos; omega)
              (by rw [slots, flatten_append, hvalue, flatten_singleton]; rfl)
          refine ⟨vs, n, s', G', ?_, .touch touched r, hn, flat,
            (Reshape.touched touched).longest h l⟩
          simp only [hj]
          exact ran
    · rw [if_neg nonempty]
      refine ⟨value, node, s, G, rfl, .refl s G, hnode, hvalue, ?_⟩
      exact hvalue ▸ h.tree.longest_here key hnode split (.inl (by omega))

theorem insertVisit_spec {p c : NodeId} {m : Nat} (h : Inv s G) (hc : c ∈ G.live)
    (inner : c ≠ s.rootNode) (hp : (s.nodes c).parent = some p) (pos : 0 < m)
    (bound : m ≤ (s.nodes c).key.len) (paged : s.pageSize ∣ m) (priority : Int) (chunked : Bool) :
    ∃ n s' G', s.insertVisit c m priority chunked = .ok (n, s') ∧ Reshape s G s' G' ∧ n ∈ G'.live ∧
      G'.along (segOf s'.nodes) n = G.along (segOf s.nodes) p ++ (segOf s.nodes c).take m ∧
      G'.along (valOf s'.nodes) n = G.along (valOf s.nodes) p ++ (valOf s.nodes c).take m := by
  unfold insertVisit
  by_cases inside : m < (s.nodes c).key.len
  · obtain ⟨t, ran, e⟩ := splitNode_spec h hc inner hp inside paged
    obtain ⟨word, slots, -⟩ := split_found h hc inner hp e
    have stats := (touched_priority t s.counter priority).trans
      (touched_incHitCount _ s.counter chunked)
    refine ⟨s.counter, _, _, by rw [if_pos inside, ran]; rfl,
      .split hc inner hp pos inside paged e (.touched stats), Finset.mem_insert_self _ _, ?_, ?_⟩
    · rw [seg_congr stats.sameLinks, word]
    · rw [valOf_congr stats.sameLinks, slots]
  · have stats := (touched_priority s c priority).trans (touched_incHitCount _ c chunked)
    have whole : m = (s.nodes c).key.len := by omega
    have segment : (segOf s.nodes c).take m = segOf s.nodes c := by
      rw [take_of_length_le]
      rw [segOf, length_units]
      exact whole.ge
    have value : (valOf s.nodes c).take m = valOf s.nodes c := by
      rw [take_of_length_le]
      rw [h.tree.length_valOf hc inner, segOf, length_units]
      exact whole.ge
    refine ⟨c, _, G, by rw [if_neg inside]; rfl, .touched stats, hc, ?_, ?_⟩
    · rw [seg_congr stats.sameLinks, h.tree.shape.along_up (segOf s.nodes) hc inner hp, segment]
    · rw [valOf_congr stats.sameLinks, h.tree.shape.along_up (valOf s.nodes) hc inner hp, value]

/-- Where the loop of `_insert_helper` ends: at a node which has no entry for the rest of the key.
-/
structure Stops (s : RadixCache) (G : Outline) (us : List KeyUnit) (node : NodeId) (key : RadixKey)
    (childKey : ChildKey) : Prop where
  live : node ∈ G.live
  split : us = G.along (segOf s.nodes) node ++ key.units
  paged : s.pageSize ∣ key.len
  filed : 0 < key.len → childKey = encPage s.pageSize (key.units.take s.pageSize)
  free : 0 < key.len → (s.nodes node).children.lookup childKey = none

theorem insertLoop_spec (time priority : Int) (chunked : Bool) : ∀ (fuel : Nat) (s : RadixCache)
    (G : Outline) (node : NodeId) (key : RadixKey) (value : List Slot) (childKey : ChildKey)
    (total : Nat) (us : List KeyUnit),
    Inv s G → node ∈ G.live → us = G.along (segOf s.nodes) node ++ key.units →
    s.pageSize ∣ key.len → (0 < key.len → childKey = encPage s.pageSize (key.units.take s.pageSize)) →
    key.len < fuel → total = (G.along (segOf s.nodes) node).length →
    ∃ s' G' node' key' childKey' total',
      insertLoop time priority chunked fuel s node key value childKey total =
        .ok (s', node', key', value.drop (total' - total), childKey', total') ∧
      Reshape s G s' G' ∧ Stops s' G' us node' key' childKey' ∧ key'.tokenIds ⊆ key.tokenIds ∧
      total ≤ total' ∧ total' = (G'.along (segOf s'.nodes) node').length := by
  intro fuel
  induction fuel with
  | zero =>
    intro s G node key value childKey total us _ _ _ _ _ hfuel
    omega
  | succ fuel ih =>
    intro s G node key value childKey total us h hnode split paged hkey hfuel htotal
    rw [insertLoop]
    by_cases nonempty : key.len > 0
    · rw [if_pos nonempty]
      obtain rfl := hkey nonempty
      cases found : (s.nodes node).children.lookup (encPage s.pageSize (key.units.take s.pageSize)) with
      | none =>
        refine ⟨s, G, node, key, _, total, by simp, .refl s G,
          ⟨hnode, split, paged, fun _ => rfl, fun _ => found⟩, List.Subset.refl _, le_rfl, htotal⟩
      | some child =>
        have touched := touched_access s child time
        dsimp only
        generalize s.modify child (fun n => { n with lastAccessTime := time }) = t at touched ⊢
        have ht := h.touched touched
        rw [← touched.lookup, ← touched.pageSize] at found
        rw [← touched.pageSize] at paged
        rw [← seg_congr touched.sameLinks] at split htotal
        obtain ⟨hc, inner, hparent, m, matched, hm, pagedm, pos, bound, short, agree⟩ :=
          ht.tree.keys.descend hnode nonempty paged found
        obtain ⟨node', t', G', visited, r, hnode', word, _⟩ := insertVisit_spec ht hc inner hparent
          (lt_of_lt_of_le ht.tree.page_pos pos) bound pagedm priority chunked
        rw [agree] at word
        have rest : (key.fromIdx m).len = key.len - m := len_fromIdx key m
        have pagedRest : t'.pageSize ∣ (key.fromIdx m).len := by
          rw [rest, r.pageSize]
          exact Nat.dvd_sub paged pagedm
        obtain ⟨j, hj, hjkey⟩ := nextChildKey_spec (r.inv ht).tree.page_pos pagedRest
          (encPage s.pageSize (key.units.take s.pageSize))
        have depth : total + m = (G'.along (segOf t'.nodes) node').length := by
          rw [word, length_append, length_take, length_units, min_eq_left short, htotal]
        obtain ⟨s', G'', last, key', childKey', total', ran, r', stops, sub, mono, hlen⟩ :=
          ih t' G' node' (key.fromIdx m) (value.drop m) j (total + m) us (r.inv ht) hnode'
            (by rw [word, units_fromIdx, append_assoc, take_append_drop, split])
            pagedRest hjkey (by have := ht.tree.page_pos; omega) depth
        refine ⟨s', G'', last, key', childKey', total', ?_, .touch touched (r.trans r'), stops,
          List.Subset.trans sub (tokenIds_slice key m _), by omega, hlen⟩
        simp only [show (t.nodes child).key.matchLen key t.pageSize = .ok m from matched, visited,
          hj, ran, ok_bind, drop_drop]
        rw [show m + (total' - (total + m)) = total' - total by omega]
    · rw [if_neg nonempty]
      exact ⟨s, G, node, key, childKey, total, by simp, .refl s G,
        ⟨hnode, split, paged, fun h => absurd h nonempty, fun h => absurd h nonempty⟩,
        List.Subset.refl _, le_rfl, htotal⟩

end RedKnot.Radix.RadixCache
