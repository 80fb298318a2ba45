import RedKnot.MemCache.Radix.Loops

/-! The public methods of `RadixCache`, each described by the steps it makes. -/

namespace RedKnot.Radix

open LinkedTree NodeHeap RadixKey Function Finset List Nat

namespace Config

def viewKey (cfg : Config) (key : RadixKey) : RadixKey :=
  (key.maybeToBigramView cfg.isEagle none).1.pageAligned cfg.pageSize

def viewValue (cfg : Config) (key : RadixKey) (value : Option (List Slot)) : List Slot :=
  RadixCache.alignedValue (cfg.viewKey key) (key.maybeToBigramView cfg.isEagle value).2

/-- What a caller of `insert` promises: a slot for each unit, and tokens of four bytes
when their hashes are published. -/
structure InsertOk (cfg : Config) (key : RadixKey) (value : Option (List Slot)) : Prop where
  enough : ∀ v, value = some v → (cfg.viewKey key).len ≤ v.length
  small : cfg.enableKvCacheEvents = true → ∀ t ∈ key.tokenIds, t < 2 ^ 32

end Config

namespace RadixCache

variable {s s' : RadixCache} {G G' : Outline}

theorem maybeToBigramView_fst (key : RadixKey) (eagle : Bool) (value : Option (List Slot)) :
    (key.maybeToBigramView eagle value).1 = (key.maybeToBigramView eagle none).1 := by
  unfold maybeToBigramView
  split <;> rfl

theorem longest_root (h : Inv s G) {k : RadixKey} (empty : k.len = 0) :
    Longest s.pageSize s.rootNode s.nodes k.units (G.along (segOf s.nodes) s.rootNode) [] := by
  have word : G.along (segOf s.nodes) s.rootNode = [] := h.tree.shape.along_root _
  have slots : G.along (valOf s.nodes) s.rootNode = [] := h.tree.shape.along_root _
  have l := h.tree.longest_here k h.tree.root_live rfl (.inl empty)
  rwa [slots, word, nil_append, ← word] at l

theorem matchPrefix_spec (h : Inv s G) (enabled : s.cfg.disable = false) (key : RadixKey) :
    ∃ r s' G', s.matchPrefix key = .ok (r, s') ∧ Reshape s G s' G' ∧ r.lastDeviceNode ∈ G'.live ∧
      r.deviceIndices = G'.along (valOf s'.nodes) r.lastDeviceNode ∧
      Longest s.pageSize s.rootNode s.nodes (s.cfg.viewKey key).units
        (G'.along (segOf s'.nodes) r.lastDeviceNode) r.deviceIndices := by
  have slots : G.along (valOf s.nodes) s.rootNode = [] := h.tree.shape.along_root _
  have word : G.along (segOf s.nodes) s.rootNode = [] := h.tree.shape.along_root _
  by_cases empty : (s.cfg.viewKey key).len = 0
  · -- Both early exits answer with the root.
    refine ⟨⟨[], s.rootNode⟩, s, G, ?_, .refl s G, h.tree.root_live, slots.symm, longest_root h empty⟩
    · simp only [matchPrefix, enabled, Bool.false_eq_true, false_or]
      split
      · rfl
      · have : ((key.maybeToBigramView s.cfg.isEagle none).1.pageAligned s.pageSize).len = 0 := empty
        simp only [this, if_true]
  · have nonempty : 0 < (s.cfg.viewKey key).len := by omega
    have paged : s.pageSize ∣ (s.cfg.viewKey key).len := paged_pageAligned _ _
    have long : (key.maybeToBigramView s.cfg.isEagle none).1.len ≠ 0 := by
      intro zero
      apply empty
      rw [Config.viewKey, len_pageAligned, zero]
      simp [pageFloor]
    have touched := (touched_monotonic s).trans
      (touched_access s.monotonic.2 s.rootNode (s.clock s.ticks))
    obtain ⟨vs, n, s', G', ran, r, hn, flat, l⟩ := matchLoop_spec (s.clock s.ticks)
      ((s.cfg.viewKey key).len + 1) _ G s.rootNode (s.cfg.viewKey key) _ [] (s.cfg.viewKey key).units
      (h.touched touched) h.tree.root_live
      (by rw [seg_congr touched.sameLinks, word, nil_append]) paged (fun _ => rfl)
      (lt_succ_self _) (by rw [valOf_congr touched.sameLinks, slots]; rfl)
    refine ⟨⟨vs.flatten, n⟩, s', G', ?_, .touch touched r, hn, flat,
      (Reshape.touched touched).longest h l⟩
    have first : (s.cfg.viewKey key).childKey s.pageSize = _ :=
      childKey_of_page h.tree.page_pos (le_of_dvd nonempty paged)
    have helper : s.matchPrefixHelper s.rootNode (s.cfg.viewKey key) = .ok (vs, n, s') := by
      simp only [matchPrefixHelper, monotonic]
      change (do
        let childKey ← (s.cfg.viewKey key).childKey s.pageSize
        matchLoop _ _ _ _ _ childKey []) = _
      rw [first]
      exact ran
    simp only [matchPrefix, enabled, Bool.false_eq_true, false_or, if_neg long]
    change (if (s.cfg.viewKey key).len = 0 then _
      else s.matchPrefixHelper s.rootNode (s.cfg.viewKey key) >>= _) = _
    rw [if_neg empty, helper]
    rfl

theorem tokenIds_viewKey (cfg : Config) (key : RadixKey) :
    (cfg.viewKey key).tokenIds ⊆ key.tokenIds := by
  have view : (key.maybeToBigramView cfg.isEagle none).1.tokenIds = key.tokenIds := by
    unfold maybeToBigramView
    split <;> rfl
  rw [← view]
  exact tokenIds_pageAligned _ _

theorem len_le_tokenIds (k : RadixKey) : k.len ≤ k.tokenIds.length := by
  unfold len
  split
  · split <;> omega
  · exact le_rfl

theorem length_viewValue {key : RadixKey} {value : Option (List Slot)} (ok : s.cfg.InsertOk key value) :
    (s.cfg.viewValue key value).length = (s.cfg.viewKey key).len := by
  unfold Config.viewValue alignedValue
  cases value with
  | none =>
    have none : (key.maybeToBigramView s.cfg.isEagle none).2 = none := by
      unfold maybeToBigramView
      split <;> rfl
    rw [none, length_take]
    exact Nat.min_eq_left (len_le_tokenIds _)
  | some v =>
    have long := ok.enough v rfl
    have view : ∃ u, (key.maybeToBigramView s.cfg.isEagle (some v)).2 = some u ∧
        (s.cfg.viewKey key).len ≤ u.length := by
      have bound : (s.cfg.viewKey key).len ≤ (key.maybeToBigramView s.cfg.isEagle none).1.len := by
        rw [Config.viewKey, len_pageAligned]
        exact pageFloor_le _ _
      unfold maybeToBigramView at bound ⊢
      split
      · rename_i bigram
        refine ⟨_, rfl, ?_⟩
        rw [if_pos bigram] at bound
        rw [length_take]
        exact le_min bound long
      · exact ⟨v, rfl, long⟩
    obtain ⟨u, hu, ulen⟩ := view
    rw [hu, length_take]
    exact Nat.min_eq_left ulen

inductive InsertsTo (s : RadixCache) (G : Outline) (us : List KeyUnit) (slots : List Slot) :
    Nat → RadixCache → Outline → Prop where
  | present {s' : RadixCache} {G' : Outline} {node : NodeId} (r : Reshape s G s' G')
      (live : node ∈ G'.live) (word : us = G'.along (segOf s'.nodes) node) :
      InsertsTo s G us slots us.length s' G'
  | grown {t s' : RadixCache} {G' : Outline} {node : NodeId} {k : RadixKey} {n : Nat}
      (r : Reshape s G t G') (word : us = G'.along (segOf t.nodes) node ++ k.units)
      (depth : n = (G'.along (segOf t.nodes) node).length) (g : Hangs t G' node k (slots.drop n))
      (e : HangsTo t s' node k (slots.drop n)) : InsertsTo s G us slots n s' (G'.attach node t.counter)

theorem insert_spec (h : Inv s G) (enabled : s.cfg.disable = false) {key : RadixKey}
    {value : Option (List Slot)} (ok : s.cfg.InsertOk key value) (chunked : Bool) (priority : Int) :
    ∃ n s' G', s.insert key value chunked priority = .ok (n, s') ∧
      InsertsTo s G (s.cfg.viewKey key).units (s.cfg.viewValue key value) n s' G' := by
  have paged : s.pageSize ∣ (s.cfg.viewKey key).len := paged_pageAligned _ _
  have unfolded : s.insert key value chunked priority =
      s.insertHelper s.rootNode (s.cfg.viewKey key) (s.cfg.viewValue key value) priority chunked := by
    simp only [insert, enabled, Bool.false_eq_true, if_false, Config.viewValue, Config.viewKey,
      maybeToBigramView_fst key s.cfg.isEagle value]
  have touched := ((touched_monotonic s).trans
    (touched_access s.monotonic.2 s.rootNode (s.clock s.ticks))).trans
    (touched_priority _ s.rootNode priority)
  rw [unfolded]
  simp only [insertHelper, monotonic] at touched ⊢
  generalize RadixCache.modify (RadixCache.modify _ _ _) _ _ = t at touched ⊢
  have ht := h.touched touched
  have sameWord : G.along (segOf t.nodes) t.rootNode = [] := ht.tree.shape.along_root _
  by_cases empty : (s.cfg.viewKey key).len = 0
  · have nil : (s.cfg.viewKey key).units = [] := by
      rw [← length_eq_zero_iff, length_units]
      exact empty
    rw [if_pos empty]
    refine ⟨0, t, G, rfl, ?_⟩
    have done : InsertsTo s G _ (s.cfg.viewValue key value) _ t G :=
      .present (.touched touched) ht.tree.root_live (nil.trans sameWord.symm)
    rwa [nil] at done ⊢
  · have nonempty : 0 < (s.cfg.viewKey key).len := by omega
    rw [if_neg empty]
    have paged' : t.pageSize ∣ (s.cfg.viewKey key).len := touched.pageSize ▸ paged
    have first : (s.cfg.viewKey key).childKey t.pageSize = _ :=
      childKey_of_page ht.tree.page_pos (le_of_dvd nonempty paged')
    obtain ⟨u, G', node, k, j, total, ran, r, stops, sub, _, depth⟩ :=
      insertLoop_spec (s.clock s.ticks) priority chunked ((s.cfg.viewKey key).len + 1) t G t.rootNode
        (s.cfg.viewKey key) (s.cfg.viewValue key value) _ 0 (s.cfg.viewKey key).units ht ht.tree.root_live
        (by rw [sameWord, nil_append]) paged' (fun _ => rfl) (lt_succ_self _)
        (by rw [sameWord]; rfl)
    rw [touched.rootNode, Nat.sub_zero] at ran
    have r' : Reshape s G u G' := .touch touched r
    simp only [first, ran, ok_bind]
    by_cases rest : k.len > 0
    · rw [if_pos rest]
      have small : u.cfg.enableKvCacheEvents = true → ∀ t ∈ k.tokenIds, t < 2 ^ 32 := by
        rw [r'.cfg]
        exact fun events t ht => ok.small events t (tokenIds_viewKey s.cfg key (sub ht))
      have filed := stops.filed rest
      subst filed
      obtain ⟨s', hung, e⟩ := insertRest_spec (v := (s.cfg.viewValue key value).drop total) (r'.inv h)
        stops.live stops.paged small priority chunked
      refine ⟨total, s', _, by rw [hung]; rfl, .grown r' stops.split depth ?_ e⟩
      refine ⟨stops.live, rest, stops.paged, ?_, stops.free rest⟩
      have := congrArg length stops.split
      rw [length_append, length_units, length_units] at this
      rw [length_drop, length_viewValue ok]
      omega
    · rw [if_neg rest]
      have done : k.units = [] := by
        rw [← length_eq_zero_iff, length_units]
        omega
      have whole : (s.cfg.viewKey key).units = G'.along (segOf u.nodes) node := by
        rw [stops.split, done, append_nil]
      refine ⟨total, u, G', rfl, ?_⟩
      have all : InsertsTo s G _ (s.cfg.viewValue key value) _ u G' := .present r' stops.live whole
      rw [whole, ← depth] at all
      rwa [whole]

/-- The removal that `evict` performs, with candidates instead of a heap: from `n` tokens freed it
removes the leaves `xs`, each a least candidate, and ends with `n'`. -/
inductive Evicts (want : Nat) : RadixCache → Outline → List NodeId → Nat → List NodeId →
    RadixCache → Outline → Nat → Prop where
  | enough {s : RadixCache} {G : Outline} {cand : List NodeId} {n : Nat} (reached : want ≤ n) :
      Evicts want s G cand n [] s G n
  | dry {s : RadixCache} {G : Outline} {n : Nat} : Evicts want s G [] n [] s G n
  | take {s t s' : RadixCache} {G G' : Outline} {cand cand' xs : List NodeId} {n n' : Nat}
      {p x : NodeId} (short : n < want) (member : x ∈ cand)
      (least : ∀ y ∈ cand, (s.heapEntry x).key ≤ (s.heapEntry y).key) (g : Leaf s G p x)
      (e : RemovesTo s t p x)
      (next : cand'.Perm (if (t.nodes p).children = ∅ ∧ (t.nodes p).lockRef = 0
        then p :: cand.erase x else cand.erase x))
      (rest : Evicts want t (G.detach x) cand' (n + (s.nodes x).key.len) xs s' G' n') :
      Evicts want s G cand n (x :: xs) s' G' n'

structure Candidates (s : RadixCache) (G : Outline) (cand : List NodeId) : Prop where
  nodup : cand.Nodup
  leaf : ∀ x ∈ cand, x ∈ G.live ∧ x ≠ s.rootNode ∧ (s.nodes x).children = ∅

theorem Candidates.remove {p x : NodeId} {cand cand' : List NodeId} (c : Candidates s G cand)
    (h : Inv s G) (g : Leaf s G p x) (e : RemovesTo s s' p x)
    (next : cand'.Perm (if (s'.nodes p).children = ∅ ∧ (s'.nodes p).lockRef = 0
      then p :: cand.erase x else cand.erase x)) : Candidates s' (G.detach x) cand' := by
  have found : (s.nodes p).children.lookup _ = some x := h.tree.keys.filed g.live g.inner g.up
  -- The parent had a child, so it was no candidate before.
  have new : p ∉ cand := by
    intro hp
    rw [(c.leaf p hp).2.2] at found
    simp at found
  have old : ∀ y ∈ cand.erase x, y ∈ (G.detach x).live ∧ y ≠ s'.rootNode ∧ (s'.nodes y).children = ∅ := by
    intro y hy
    obtain ⟨yx, hy⟩ := c.nodup.mem_erase_iff.mp hy
    obtain ⟨live, inner, leaf⟩ := c.leaf y hy
    have yp : y ≠ p := by
      rintro rfl
      exact new hy
    exact ⟨mem_erase.mpr ⟨yx, live⟩, e.rootNode ▸ inner, (e.links.others y yp).children.trans leaf⟩
  have nodup := c.nodup.erase x
  split at next
  · rename_i becomes
    refine ⟨next.nodup_iff.mpr (nodup_cons.mpr ⟨fun hp => new (List.mem_of_mem_erase hp), nodup⟩), ?_⟩
    intro y hy
    rcases List.mem_cons.mp (next.mem_iff.mp hy) with rfl | hy
    · refine ⟨mem_erase.mpr ⟨h.tree.keys.parent_ne g.live g.inner g.up,
        h.tree.keys.parent_live g.live g.inner g.up⟩, ?_, becomes.1⟩
      rintro rfl
      rw [e.lock, e.rootNode, h.root_lock] at becomes
      omega
    · exact old y hy
  · exact ⟨next.nodup_iff.mpr nodup, fun y hy => old y (next.mem_iff.mp hy)⟩

theorem evictLoop_spec (hq : Heapq) (want : Nat) : ∀ (fuel : Nat) (s : RadixCache) (G : Outline)
    (heap : List HeapEntry) (cand : List NodeId) (n : Nat), Inv s G → Candidates s G cand →
    heap.Perm (cand.map s.heapEntry) → hq.Valid HeapEntry.key heap → G.live.card ≤ fuel →
    ∃ n' s' G' xs, evictLoop hq want fuel s heap n = .ok (n', s') ∧
      Evicts want s G cand n xs s' G' n' := by
  intro fuel
  induction fuel with
  | zero =>
    intro s G heap cand n h _ _ _ hfuel
    have := Finset.card_pos.mpr ⟨_, h.tree.root_live⟩
    omega
  | succ fuel ih =>
    intro s G heap cand n h hcand perm valid hfuel
    rw [evictLoop]
    by_cases short : n < want
    · rw [if_pos short]
      by_cases dry : heap = []
      · have none : cand = [] := by
          rw [dry] at perm
          simpa using perm.symm.eq_nil
        rw [dry, hq.heappop_nil, none]
        exact ⟨n, s, G, [], rfl, .dry⟩
      · obtain ⟨entry, rest, popped, hperm, least, validRest⟩ := hq.heappop_cons HeapEntry.key heap valid dry
        have inHeap : entry ∈ cand.map s.heapEntry :=
          perm.mem_iff.mp (hperm.mem_iff.mpr List.mem_cons_self)
        obtain ⟨x, member, rfl⟩ := List.mem_map.mp inHeap
        obtain ⟨live, inner, leaf⟩ := hcand.leaf x member
        obtain ⟨p, _, up⟩ := h.tree.keys.has_parent live inner
        have g : Leaf s G p x := ⟨live, inner, up, leaf⟩
        obtain ⟨t, e, ran⟩ := evictOne_spec hq h g rest
        have same : ∀ l : List NodeId, l.map t.heapEntry = l.map s.heapEntry := fun l =>
          map_congr_left (fun y _ => e.entry y)
        -- The rest of the heap holds the other candidates.
        have others : rest.Perm ((cand.erase x).map t.heapEntry) := by
          rw [same]
          have := hperm.symm.trans (perm.trans ((perm_cons_erase member).map s.heapEntry))
          exact (perm_cons _).mp this
        have hmin : ∀ y ∈ cand, (s.heapEntry x).key ≤ (s.heapEntry y).key := fun y hy =>
          least _ (perm.mem_iff.mpr (List.mem_map_of_mem hy))
        have fewer : (G.detach x).live.card ≤ fuel := by
          change (G.live.erase x).card ≤ fuel
          rw [card_erase_of_mem live]
          omega
        have entryNode : (s.heapEntry x).node = x := rfl
        simp only [popped, entryNode, ran, ok_bind]
        split
        · rename_i becomes
          have next : (p :: cand.erase x).Perm (if (t.nodes p).children = ∅ ∧ (t.nodes p).lockRef = 0
              then p :: cand.erase x else cand.erase x) := by rw [if_pos becomes]
          obtain ⟨n', s', G', xs, looped, evicts⟩ := ih t (G.detach x)
            (hq.heappush HeapEntry.key rest (t.heapEntry p)) (p :: cand.erase x)
            (n + (s.nodes x).key.len) (h.remove g e) (hcand.remove h g e next)
            ((hq.heappush_perm _ _ _).trans (others.cons (t.heapEntry p)))
            (hq.heappush_valid _ _ _ validRest) fewer
          exact ⟨n', s', G', x :: xs, looped, .take short member hmin g e next evicts⟩
        · rename_i stays
          have next : (cand.erase x).Perm (if (t.nodes p).children = ∅ ∧ (t.nodes p).lockRef = 0
              then p :: cand.erase x else cand.erase x) := by rw [if_neg stays]
          obtain ⟨n', s', G', xs, looped, evicts⟩ := ih t (G.detach x) rest (cand.erase x)
            (n + (s.nodes x).key.len) (h.remove g e) (hcand.remove h g e next) others
            validRest fewer
          exact ⟨n', s', G', x :: xs, looped, .take short member hmin g e next evicts⟩
    · rw [if_neg short]
      exact ⟨n, s, G, [], rfl, .enough (by omega)⟩

theorem live_card_le (h : Inv s G) : G.live.card ≤ s.counter := by
  have inside : G.live ⊆ Finset.range s.counter := fun n hn =>
    Finset.mem_range.mpr (h.tree.shape.live_lt n hn)
  simpa using card_le_card inside

theorem evict_spec (hq : Heapq) (h : Inv s G) (enabled : s.cfg.disable = false) (want : Nat) :
    ∃ n s' G' xs, s.evict hq want = .ok (n, s') ∧
      Evicts want s G s.evictableLeaves 0 xs s' G' n := by
  simp only [evict, enabled, Bool.false_eq_true, if_false]
  exact evictLoop_spec hq want _ s G _ s.evictableLeaves 0 h ⟨h.leaves_nodup, h.leaves_ok⟩
    (hq.heapify_perm _ _) (hq.heapify_valid _ _) (le_succ_of_le (live_card_le h))

theorem Evicts.cfg {want n n' : Nat} {cand xs : List NodeId}
    (v : Evicts want s G cand n xs s' G' n') : s'.cfg = s.cfg := by
  induction v with
  | enough => rfl
  | dry => rfl
  | take _ _ _ _ e _ _ ih => rw [ih, e.cfg]

theorem InsertsTo.cfg {us : List KeyUnit} {slots : List Slot} {n : Nat}
    (i : InsertsTo s G us slots n s' G') : s'.cfg = s.cfg := by
  cases i with
  | present r _ _ => exact r.cfg
  | grown r _ _ _ e => rw [e.cfg, r.cfg]

end RadixCache

end RedKnot.Radix
