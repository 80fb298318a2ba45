import RedKnot.Lib.TreeEdit
import RedKnot.Router.HashTree

/-! Every call of `HashTree` keeps the arena a tree whose nodes are all indexed by their hash, and
leaves no node behind that has neither workers nor children. -/

namespace RedKnot.Router.HashTree

open Function LinkedTree Finset List Option Node

theorem Node.childless_iff {nd : Node} :
    nd.childless = true ↔ ∀ h, nd.children.lookup h = none := by
  unfold childless
  constructor
  · intro empty h
    rw [List.isEmpty_iff] at empty
    cases found : nd.children.lookup h with
    | none => rfl
    | some c =>
      have listed := AList.mem_lookup_iff.mp (mem_def.mpr found)
      rw [empty] at listed
      cases listed
  · intro none
    rcases entries : nd.children.entries with - | ⟨⟨h, c⟩, rest⟩
    · rfl
    · have found : c ∈ nd.children.lookup h := AList.mem_lookup_iff.mpr (by simp [entries])
      rw [none h] at found
      cases found

theorem Node.isEmpty_iff {nd : Node} :
    nd.isEmpty = true ↔ nd.workers = ∅ ∧ nd.childless = true := by
  simp [Node.isEmpty]

def Node.SamePlace (nd nd' : Node) : Prop :=
  nd'.blockHash = nd.blockHash ∧ nd'.parent = nd.parent ∧ nd'.children = nd.children

namespace TreeState

def linked (s : TreeState) : LinkedTree BlockHash where
  root := rootId
  next := s.nextId
  parent := fun n => (s.nodes n).bind parent
  kid := fun n h => s.child n h
  tag := fun n => ((s.nodes n).map Node.blockHash).getD rootHashSentinel

structure Shaped (s : TreeState) (G : Outline) : Prop where
  shape : s.linked.Shape G
  live : ∀ n, n ∈ G.live ↔ (s.nodes n).isSome
  index : ∀ h n, n ∈ s.byHash h ↔ n ≠ rootId ∧ ∃ nd, s.nodes n = some nd ∧ nd.blockHash = h

/-- Every empty leaf is one of `R`. -/
def Spare (s : TreeState) (R : List NodeId) : Prop :=
  ∀ n nd, n ≠ rootId → s.nodes n = some nd → nd.isEmpty = true → n ∈ R

variable {s s' : TreeState} {G : Outline} {n p c : NodeId} {nd nd' pn : Node} {h : BlockHash}
  {worker : KvWorkerId} {R : List NodeId} {now : Nat}

theorem child_of_some (there : s.nodes n = some nd) (h : BlockHash) :
    s.child n h = nd.children.lookup h := by
  simp [child, there]

namespace Shaped

section

variable (S : s.Shaped G)
include S

theorem mem_live (there : s.nodes n = some nd) : n ∈ G.live :=
  (S.live n).mpr (by simp [there])

theorem lt_next (there : s.nodes n = some nd) : n < s.nextId :=
  S.shape.live_lt n (S.mem_live there)

theorem root_some : ∃ nd, s.nodes rootId = some nd :=
  isSome_iff_exists.mp ((S.live rootId).mp S.shape.root_live)

theorem up (there : s.nodes n = some nd) (inner : n ≠ rootId) :
    ∃ p pn, nd.parent = some p ∧ s.nodes p = some pn ∧ pn.children.lookup nd.blockHash = some n ∧
      G.chain n = G.chain p ++ [n] := by
  obtain ⟨p, plive, hparent, hkid, hchain⟩ := S.shape.up n (S.mem_live there) inner
  obtain ⟨pn, hpn⟩ := isSome_iff_exists.mp ((S.live p).mp plive)
  refine ⟨p, pn, ?_, hpn, ?_, hchain⟩
  · simpa [linked, there] using hparent
  · simpa [linked, child, there, hpn] using hkid

theorem down (there : s.nodes p = some pn) (filed : pn.children.lookup h = some c) :
    c ≠ rootId ∧ ∃ nd, s.nodes c = some nd ∧ nd.parent = some p ∧ nd.blockHash = h := by
  have hkid : s.linked.kid p h = some c := (child_of_some there h).trans filed
  obtain ⟨clive, cinner, hparent, htag⟩ := S.shape.down p (S.mem_live there) h c hkid
  obtain ⟨nd, hnd⟩ := isSome_iff_exists.mp ((S.live c).mp clive)
  refine ⟨cinner, nd, hnd, ?_, ?_⟩
  · simpa [linked, hnd] using hparent
  · simpa [linked, hnd] using htag

theorem parent_ne (there : s.nodes n = some nd) (inner : n ≠ rootId)
    (up : nd.parent = some p) : p ≠ n := by
  obtain ⟨q, pn, same, -, -, hchain⟩ := S.up there inner
  obtain rfl : q = p := some.inj (same.symm.trans up)
  rintro rfl
  have longer := congrArg length hchain
  simp at longer

theorem mem_keys : n ∈ s.keys ↔ n ∈ G.live := by
  rw [S.live, keys, Finset.mem_filter, Finset.mem_range]
  constructor
  · exact fun h => h.2
  · intro h
    obtain ⟨nd, there⟩ := isSome_iff_exists.mp h
    exact ⟨S.lt_next there, h⟩

theorem keys_eq : s.keys = G.live := Finset.ext fun _ => S.mem_keys

theorem put (there : s.nodes n = some nd) (same : nd.SamePlace nd') : (s.put n nd').Shaped G := by
  obtain ⟨hash, parent, children⟩ := same
  have kept : ∀ m, (s.put n nd').nodes m = if m = n then some nd' else s.nodes m := by
    intro m
    by_cases here : m = n
    · subst here
      simp [TreeState.put]
    · simp [TreeState.put, here]
  refine ⟨S.shape.congr rfl le_rfl ?_, ?_, ?_⟩
  · intro m _
    by_cases here : m = n
    · subst here
      simp [linked, child, kept, there, parent, children, hash]
    · simp [linked, child, kept, here]
  · intro m
    rw [S.live, kept]
    by_cases here : m = n
    · subst here
      simp [there]
    · simp [here]
  · intro k m
    rw [show (s.put n nd').byHash = s.byHash from rfl, S.index, kept]
    by_cases here : m = n
    · subst here
      simp [there, hash]
    · simp [here]

theorem hang (there : s.nodes p = some pn) (free : pn.children.lookup h = none)
    (now : Nat) (ph : Option BlockHash) :
    (s.hang now p pn h ph).Shaped (G.attach p s.nextId) := by
  have plive := S.mem_live there
  have old : p ≠ s.nextId := (S.lt_next there).ne
  have fresh : s.nodes s.nextId = none := by
    cases taken : s.nodes s.nextId with
    | none => rfl
    | some nd => exact absurd (S.lt_next taken) (lt_irrefl _)
  have base := S.shape.attach (c := s.nextId) (k := h) plive le_rfl
    ((child_of_some there h).trans free)
  have kept : ∀ m, m ≠ p → m ≠ s.nextId → (s.hang now p pn h ph).nodes m = s.nodes m := by
    intro m notTop notNew
    simp [TreeState.hang, notTop, notNew]
  have top : (s.hang now p pn h ph).nodes p =
      some { pn with children := pn.children.insert h s.nextId } := by
    simp [TreeState.hang]
  have new : (s.hang now p pn h ph).nodes s.nextId = some (newChild now h ph p) := by
    simp [TreeState.hang, old.symm]
  refine ⟨base.congr rfl le_rfl ?_, ?_, ?_⟩
  · intro m _
    by_cases isNew : m = s.nextId
    · subst isNew
      refine ⟨?_, ?_, ?_⟩
      · simp [linked, LinkedTree.attach, new, newChild]
      · funext k
        simp [linked, LinkedTree.attach, child, new, newChild]
      · simp [linked, LinkedTree.attach, new, newChild]
    · by_cases isTop : m = p
      · subst isTop
        refine ⟨?_, ?_, ?_⟩
        · simp [linked, LinkedTree.attach, top, there, isNew]
        · funext k
          by_cases filed : k = h
          · subst filed
            simp [linked, LinkedTree.attach, child, top, isNew]
          · simp [linked, LinkedTree.attach, child, top, there, isNew, filed,
              AList.lookup_insert_ne filed]
        · simp [linked, LinkedTree.attach, top, there, isNew]
      · simp [linked, LinkedTree.attach, child, kept m isTop isNew, isNew, isTop]
  · intro m
    rw [Outline.attach, mem_insert, S.live]
    by_cases isNew : m = s.nextId
    · subst isNew
      simp [new]
    · by_cases isTop : m = p
      · subst isTop
        simp [top, there]
      · simp [kept m isTop isNew, isNew]
  · intro k m
    have newInner : s.nextId ≠ rootId := (S.shape.ne_of_fresh S.shape.root_live le_rfl).symm
    have listed : m ∈ (s.hang now p pn h ph).byHash k ↔ m ∈ s.byHash k ∨
      (m = s.nextId ∧ k = h) := by
      by_cases filed : k = h
      · subst filed
        simp [TreeState.hang, or_comm]
      · simp [TreeState.hang, filed]
    rw [listed, S.index]
    by_cases isNew : m = s.nextId
    · subst isNew
      simp [new, fresh, newInner, newChild, eq_comm]
    · by_cases isTop : m = p
      · subst isTop
        simp [top, there, isNew]
      · simp [kept m isTop isNew, isNew]

theorem detach (there : s.nodes n = some nd) (inner : n ≠ rootId)
    (up : nd.parent = some p) (leaf : nd.childless = true) :
    (s.detach n nd p).Shaped (G.detach n) := by
  obtain ⟨q, pn, same, hpn, filed, -⟩ := S.up there inner
  obtain rfl : q = p := some.inj (same.symm.trans up)
  have other : q ≠ n := S.parent_ne there inner up
  have hparent : s.linked.parent n = some q := by simp [linked, there, up]
  have base := S.shape.detach (S.mem_live there) inner hparent
    (fun k => (child_of_some there k).trans (childless_iff.mp leaf k))
  have gone : (s.detach n nd q).nodes n = none := by simp [TreeState.detach]
  have top : (s.detach n nd q).nodes q =
      some { pn with children := pn.children.erase nd.blockHash } := by
    simp [TreeState.detach, hpn, other]
  have kept : ∀ m, m ≠ n → m ≠ q → (s.detach n nd q).nodes m = s.nodes m := by
    intro m notHere notTop
    simp [TreeState.detach, hpn, notHere, notTop]
  refine ⟨base.congr rfl le_rfl ?_, ?_, ?_⟩
  · intro m live
    have notHere : m ≠ n := ne_of_mem_erase live
    by_cases isTop : m = q
    · subst isTop
      refine ⟨?_, ?_, ?_⟩
      · simp [linked, LinkedTree.detach, top, hpn]
      · funext k
        have tag : s.linked.tag n = nd.blockHash := by simp [linked, there]
        by_cases here : k = nd.blockHash
        · subst here
          simp [linked, LinkedTree.detach, child, top, there]
        · have old : s.linked.kid m k = pn.children.lookup k := child_of_some hpn k
          rw [LinkedTree.detach]
          simp only [update_self, tag, update_of_ne here, old]
          exact (child_of_some top k).trans (AList.lookup_erase_ne here)
      · simp [linked, LinkedTree.detach, top, hpn]
    · simp [linked, LinkedTree.detach, child, kept m notHere isTop, isTop]
  · intro m
    rw [Outline.detach, mem_erase, S.live]
    by_cases here : m = n
    · subst here
      simp [gone]
    · by_cases isTop : m = q
      · subst isTop
        simp [top, hpn, here]
      · simp [kept m here isTop, here]
  · intro k m
    have listed : m ∈ (s.detach n nd q).byHash k ↔
        m ∈ s.byHash k ∧ ¬ (m = n ∧ k = nd.blockHash) := by
      by_cases filed : k = nd.blockHash
      · subst filed
        simp [TreeState.detach, and_comm]
      · simp [TreeState.detach, filed]
    rw [listed, S.index]
    by_cases here : m = n
    · subst here
      constructor
      · rintro ⟨⟨-, nd', same', hash⟩, apart⟩
        cases there.symm.trans same'
        exact absurd ⟨rfl, hash.symm⟩ apart
      · rintro ⟨-, nd', absent, -⟩
        rw [gone] at absent
        cases absent
    · by_cases isTop : m = q
      · subst isTop
        simp [top, hpn, here]
      · simp [kept m here isTop, here]

end

end Shaped

inductive Drops : TreeState → TreeState → Prop where
  | leaf {s : TreeState} {n p : NodeId} {nd : Node} (there : s.nodes n = some nd)
      (inner : n ≠ rootId) (up : nd.parent = some p)
      (empty : nd.isEmpty = true) : Drops s (s.detach n nd p)

theorem Drops.shaped (d : Drops s s') (S : s.Shaped G) : ∃ G', s'.Shaped G' := by
  cases d with
  | leaf there inner up empty => exact ⟨_, S.detach there inner up (Node.isEmpty_iff.mp empty).2⟩

theorem Spare.mono {R' : List NodeId} (h : s.Spare R) (more : ∀ n ∈ R, n ≠ rootId → n ∈ R') :
    s.Spare R' :=
  fun n nd inner there empty => more n (h n nd inner there empty) inner

theorem Spare.of_busy (spare : s.Spare (n :: R))
    (busy : ∀ nd, n ≠ rootId → s.nodes n = some nd → nd.isEmpty = false) : s.Spare R := by
  intro m md inner there empty
  rcases mem_cons.mp (spare m md inner there empty) with rfl | listed
  · cases (busy md inner there).symm.trans empty
  · exact listed

theorem Shaped.nodes_detach (S : s.Shaped G) (there : s.nodes n = some nd) (inner : n ≠ rootId)
    (up : nd.parent = some p) (m : NodeId) :
    ∃ pn, s.nodes p = some pn ∧ (s.detach n nd p).nodes m = if m = n then none
      else if m = p then some { pn with children := pn.children.erase nd.blockHash }
      else s.nodes m := by
  obtain ⟨q, pn, same, hpn, -, -⟩ := S.up there inner
  obtain rfl : q = p := some.inj (same.symm.trans up)
  refine ⟨pn, hpn, ?_⟩
  by_cases here : m = n
  · simp [TreeState.detach, here]
  · by_cases isTop : m = q
    · simp [TreeState.detach, hpn, isTop, S.parent_ne there inner up]
    · simp [TreeState.detach, hpn, here, isTop]

theorem Shaped.spare_detach (S : s.Shaped G) (there : s.nodes n = some nd) (inner : n ≠ rootId)
    (up : nd.parent = some p) (h : s.Spare (n :: R)) : (s.detach n nd p).Spare (p :: R) := by
  intro m md minner mthere empty
  obtain ⟨pn, -, left⟩ := S.nodes_detach there inner up m
  rw [left] at mthere
  split at mthere
  · cases mthere
  · rename_i notHere
    split at mthere
    · rename_i isTop
      exact isTop ▸ mem_cons_self
    · rcases mem_cons.mp (h m md minner mthere empty) with here | listed
      · exact absurd here notHere
      · exact mem_cons_of_mem _ listed

theorem shaped_of_drops (S : s.Shaped G) (run : Relation.ReflTransGen Drops s s') :
    ∃ G', s'.Shaped G' := by
  induction run with
  | refl => exact ⟨G, S⟩
  | tail _ d ih =>
    obtain ⟨G', S'⟩ := ih
    exact d.shaped S'

theorem pruneLoop_drops (fuel : Nat) : ∀ (s : TreeState) (cursor : NodeId),
    Relation.ReflTransGen Drops s (pruneLoop fuel s cursor) := by
  induction fuel with
  | zero => exact fun _ _ => .refl
  | succ fuel ih =>
    intro s cursor
    rw [pruneLoop]
    split
    · exact .refl
    · rename_i inner
      split
      · exact .refl
      · rename_i nd there
        split
        · exact .refl
        · rename_i p up
          split
          · rename_i empty
            have first : Drops s (s.detach cursor nd p) := .leaf there inner up empty
            dsimp only
            split
            · exact .head first (ih _ p)
            · exact .single first
          · exact .refl

theorem pruneLoop_spare (fuel : Nat) : ∀ {s : TreeState} {G : Outline} {cursor : NodeId},
    s.Shaped G → s.Spare (cursor :: R) →
    ((s.nodes cursor).isSome → (G.chain cursor).length ≤ fuel) →
    (pruneLoop fuel s cursor).Spare R := by
  induction fuel with
  | zero =>
    intro s G cursor S spare short
    refine spare.of_busy fun md inner there => ?_
    have path := short (isSome_iff_exists.mpr ⟨md, there⟩)
    obtain ⟨p, pn, -, -, -, hchain⟩ := S.up there inner
    rw [hchain] at path
    simp at path
  | succ fuel ih =>
    intro s G cursor S spare short
    rw [pruneLoop]
    split
    · rename_i isRoot
      exact spare.of_busy (fun nd inner => absurd isRoot inner)
    · rename_i inner
      cases there : s.nodes cursor with
      | none =>
        exact spare.of_busy (by simp [there])
      | some nd =>
        obtain ⟨p, pn, up, hpn, -, hchain⟩ := S.up there inner
        simp only [up]
        split
        · rename_i empty
          have S' := S.detach there inner up (Node.isEmpty_iff.mp empty).2
          have spare' := S.spare_detach there inner up spare
          split
          · have path := short (by simp [there])
            rw [hchain] at path
            refine ih S' spare' ?_
            intro _
            change (G.chain p).length ≤ fuel
            simpa using path
          · rename_i kept
            exact spare'.of_busy fun md inner there => by simpa [prunable, inner, there] using kept
        · rename_i busy
          refine spare.of_busy (fun md _ present => ?_)
          cases there.symm.trans present
          simpa using busy

theorem pruneCascade_spec (S : s.Shaped G) (spare : s.Spare (n :: R)) :
    ∃ G', (s.pruneCascade n).Shaped G' ∧ (s.pruneCascade n).Spare R := by
  obtain ⟨G', S'⟩ := shaped_of_drops S (pruneLoop_drops (s.nextId + 1) s n)
  refine ⟨G', S', pruneLoop_spare _ S spare ?_⟩
  intro present
  have short := S.shape.chain_length_lt ((S.live n).mpr present)
  exact Nat.le_succ_of_le short.le

theorem Shaped.spare_put (S : s.Shaped G) (there : s.nodes n = some nd) (same : nd.SamePlace nd')
    (spare : s.Spare R) : (s.put n nd').Shaped G ∧ (s.put n nd').Spare (n :: R) := by
  refine ⟨S.put there same, ?_⟩
  intro m md minner mthere empty
  by_cases here : m = n
  · exact here ▸ mem_cons_self
  · exact mem_cons_of_mem _ (spare m md minner (by simpa [TreeState.put, here] using mthere) empty)

theorem Spare.put_busy (spare : s.Spare R) (busy : nd'.isEmpty = false) :
    (s.put n nd').Spare R := by
  intro m md minner mthere empty
  by_cases here : m = n
  · subst here
    have same : nd' = md := by simpa [TreeState.put] using mthere
    rw [← same, busy] at empty
    cases empty
  · exact spare m md minner (by simpa [TreeState.put, here] using mthere) empty

theorem removeAt_spec (S : s.Shaped G) (spare : s.Spare R) (worker : KvWorkerId) (n : NodeId) :
    ∃ G', (removeAt worker s n).Shaped G' ∧ (removeAt worker s n).Spare R := by
  unfold removeAt
  cases there : s.nodes n with
  | none => exact ⟨G, S, spare⟩
  | some nd =>
    have same : nd.SamePlace { nd with workers := nd.workers.erase worker } := ⟨rfl, rfl, rfl⟩
    obtain ⟨S', spare'⟩ := S.spare_put there same spare
    dsimp only
    split
    · exact pruneCascade_spec S' spare'
    · rename_i busy
      exact ⟨G, S', spare.put_busy (by simpa using busy)⟩

variable (it : Iteration)

theorem remove_spec (S : s.Shaped G) (spare : s.Spare []) (worker : KvWorkerId)
    (hashes : List BlockHash) :
    ∃ G', (s.remove it worker hashes).Shaped G' ∧ (s.remove it worker hashes).Spare [] := by
  unfold remove
  generalize hashes.flatMap (fun h => it.list (s.byHash h)) = targets
  induction targets generalizing s G with
  | nil => exact ⟨G, S, spare⟩
  | cons n targets ih =>
    obtain ⟨G', S', spare'⟩ := removeAt_spec S spare worker n
    exact ih S' spare'

theorem clearAt_spec {r : TreeState × List NodeId} (S : r.1.Shaped G) (spare : r.1.Spare r.2)
    (worker : KvWorkerId) (n : NodeId) :
    (clearAt worker r n).1.Shaped G ∧ (clearAt worker r n).1.Spare (clearAt worker r n).2 := by
  unfold clearAt
  cases there : r.1.nodes n with
  | none => exact ⟨S, spare⟩
  | some nd =>
    have same : nd.SamePlace { nd with workers := nd.workers.erase worker } := ⟨rfl, rfl, rfl⟩
    obtain ⟨S', spare'⟩ := S.spare_put there same spare
    refine ⟨S', ?_⟩
    dsimp only
    split
    · refine spare'.mono ?_
      intro m listed _
      rcases mem_cons.mp listed with rfl | old
      · simp
      · simp [old]
    · rename_i kept
      intro m md minner mthere empty
      by_cases here : m = n
      · subst here
        have after : { nd with workers := nd.workers.erase worker } = md := by
          simpa [TreeState.put] using mthere
        -- A node that was empty before stays one of the candidates.
        have absent : worker ∉ nd.workers := fun member => kept ⟨member, after ▸ empty⟩
        have before : nd.isEmpty = true := by
          rw [← after] at empty
          rw [Node.isEmpty_iff] at empty ⊢
          rw [erase_eq_of_notMem absent] at empty
          exact empty
        exact spare m nd minner there before
      · exact spare m md minner (by simpa [TreeState.put, here] using mthere) empty

theorem pruneAt_spec (S : s.Shaped G) (spare : s.Spare (n :: R)) :
    ∃ G', (s.pruneAt n).Shaped G' ∧ (s.pruneAt n).Spare R := by
  unfold pruneAt
  split
  · exact pruneCascade_spec S spare
  · rename_i absent
    exact ⟨G, S, spare.of_busy fun md _ there => absurd (by simp [there]) absent⟩

theorem clearWorker_spec (S : s.Shaped G) (spare : s.Spare []) (worker : KvWorkerId) :
    ∃ G', (s.clearWorker it worker).Shaped G' ∧ (s.clearWorker it worker).Spare [] := by
  unfold clearWorker
  generalize (it.list s.keys).filter (· ≠ rootId) = ids
  have collected : ∀ (ids : List NodeId) (r : TreeState × List NodeId), r.1.Shaped G →
    r.1.Spare r.2 →
      (ids.foldl (clearAt worker) r).1.Shaped G ∧
        (ids.foldl (clearAt worker) r).1.Spare (ids.foldl (clearAt worker) r).2 := by
    intro ids
    induction ids with
    | nil => exact fun r S spare => ⟨S, spare⟩
    | cons n ids ih =>
      intro r S spare
      obtain ⟨S', spare'⟩ := clearAt_spec S spare worker n
      exact ih _ S' spare'
  obtain ⟨S₁, spare₁⟩ := collected ids (s, []) S spare
  generalize ids.foldl (clearAt worker) (s, []) = r at S₁ spare₁ ⊢
  obtain ⟨t, candidates⟩ := r
  clear collected S spare
  induction candidates generalizing t G with
  | nil => exact ⟨G, S₁, spare₁⟩
  | cons n candidates ih =>
    obtain ⟨G', S', rest⟩ := pruneAt_spec S₁ spare₁
    exact ih _ S' rest

theorem Spare.hang (spare : s.Spare R) (there : s.nodes p = some pn) (now : Nat)
    (h : BlockHash) (ph : Option BlockHash) : (s.hang now p pn h ph).Spare (s.nextId :: R) := by
  intro m md minner mthere empty
  by_cases isNew : m = s.nextId
  · exact isNew ▸ mem_cons_self
  · by_cases isTop : m = p
    · subst isTop
      have after : { pn with children := pn.children.insert h s.nextId } = md := by
        simpa [TreeState.hang] using mthere
      rw [← after] at empty
      have filed := childless_iff.mp (Node.isEmpty_iff.mp empty).2 h
      simp at filed
    · exact mem_cons_of_mem _
        (spare m md minner (by simpa [TreeState.hang, isTop, isNew] using mthere) empty)

theorem entry_spec (S : s.Shaped G) (spare : s.Spare []) (there : s.nodes p = some pn) (now : Nat)
    (h : BlockHash) (ph : Option BlockHash) :
    ∃ id nd t G', s.entry now p h ph = (some id, t) ∧ t.Shaped G' ∧ t.Spare [id] ∧
      t.nodes id = some nd := by
  unfold entry
  cases known : s.child p h with
  | some id =>
    rw [child_of_some there] at known
    obtain ⟨inner, nd, here, -, -⟩ := S.down there known
    exact ⟨id, nd, s, G, rfl, S, spare.mono (by simp), here⟩
  | none =>
    rw [child_of_some there] at known
    have new : (s.hang now p pn h ph).nodes s.nextId = some (newChild now h ph p) := by
      simp [TreeState.hang, (S.lt_next there).ne']
    refine ⟨s.nextId, _, s.hang now p pn h ph, _, ?_, S.hang there known now ph,
      spare.hang there now h ph, new⟩
    simp only [createChild, there]

theorem insertLoop_spec (now : Nat) (worker : KvWorkerId) (hashes : List BlockHash) :
    ∀ {s : TreeState} {G : Outline} {current : NodeId} {nd : Node} (prevHash : Option BlockHash),
    s.Shaped G → s.Spare [] → s.nodes current = some nd →
    ∃ G', (insertLoop now worker hashes s current prevHash).Shaped G' ∧
      (insertLoop now worker hashes s current prevHash).Spare [] := by
  induction hashes with
  | nil => exact fun _ S spare _ => ⟨_, S, spare⟩
  | cons h hashes ih =>
    intro s G current nd prevHash S spare there
    obtain ⟨id, nd', t, G', found, S', spare', here⟩ := entry_spec S spare there now h prevHash
    unfold insertLoop
    simp only [found, here]
    have same : nd'.SamePlace (nd'.mark worker now) := ⟨rfl, rfl, rfl⟩
    refine ih (some h) (S'.put here same) ?_ (update_self _ _ _)
    have busy : ∀ md, (t.put id (nd'.mark worker now)).nodes id = some md → md.isEmpty = false := by
      intro md after
      have same : nd'.mark worker now = md := by simpa [TreeState.put] using after
      rw [← same]
      simp [Node.isEmpty, Node.mark]
    intro m md minner mthere empty
    by_cases same : m = id
    · subst same
      rw [busy md mthere] at empty
      cases empty
    · have old := spare' m md minner (by simpa [TreeState.put, same] using mthere) empty
      exact absurd (List.mem_singleton.mp old) same

theorem resolveParent_some (S : s.Shaped G) (worker : KvWorkerId) (parentHash : Option BlockHash) :
      ∃ nd, s.nodes (s.resolveParent it worker parentHash) = some nd := by
  cases parentHash with
  | none => exact S.root_some
  | some ph =>
    have listed : ∀ n ∈ it.list (s.byHash ph), ∃ nd, s.nodes n = some nd := by
      intro n member
      obtain ⟨-, nd, here, -⟩ := (S.index ph n).mp ((it.mem _ n).mp member)
      exact ⟨nd, here⟩
    unfold resolveParent
    dsimp only
    split
    · exact S.root_some
    · rename_i candidate single
      exact listed candidate (by rw [single]; exact List.mem_singleton_self _)
    · cases chosen : (it.list (s.byHash ph)).find? (s.holds worker) with
      | none => exact S.root_some
      | some n => exact listed n (mem_of_find?_eq_some chosen)

theorem insert_spec (now : Nat) (S : s.Shaped G) (spare : s.Spare [])
    (worker : KvWorkerId) (parentHash : Option BlockHash) (hashes : List BlockHash) :
    ∃ G', (s.insert it now worker parentHash hashes).Shaped G' ∧
      (s.insert it now worker parentHash hashes).Spare [] := by
  obtain ⟨nd, there⟩ := resolveParent_some it S worker parentHash
  exact insertLoop_spec now worker hashes parentHash S spare there

theorem touch_spec (now : Nat) (S : s.Shaped G) (spare : s.Spare []) (n : NodeId) :
    (s.touch now n).Shaped G ∧ (s.touch now n).Spare [] := by
  unfold touch
  cases there : s.nodes n with
  | none => exact ⟨S, spare⟩
  | some nd =>
    have same : nd.SamePlace { nd with lastUsed := now } := ⟨rfl, rfl, rfl⟩
    refine ⟨S.put there same, ?_⟩
    intro m md minner mthere empty
    by_cases here : m = n
    · subst here
      have after : { nd with lastUsed := now } = md := by simpa [TreeState.put] using mthere
      rw [← after] at empty
      exact spare m nd minner there empty
    · exact spare m md minner (by simpa [TreeState.put, here] using mthere) empty

theorem matchLoop_spec (now : Nat) (hashes : List BlockHash) :
    ∀ {s : TreeState} (current : NodeId) (matched : Nat) (last : Option NodeId), s.Shaped G →
    s.Spare [] → (matchLoop now hashes s current matched last).2.2.Shaped G ∧
      (matchLoop now hashes s current matched last).2.2.Spare [] := by
  induction hashes with
  | nil => exact fun _ _ _ S spare => ⟨S, spare⟩
  | cons h hashes ih =>
    intro s current matched last S spare
    rw [matchLoop]
    split
    · obtain ⟨S', spare'⟩ := touch_spec now S spare _
      exact ih _ _ _ S' spare'
    · exact ⟨S, spare⟩

end TreeState

end RedKnot.Router.HashTree
