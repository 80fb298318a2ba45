import RedKnot.Router.TreeShape

/-! Eviction removes leaves only, counts them and stops at its bound. What holds between two calls
of the tree holds after every sequence of them. -/

namespace RedKnot.Router.HashTree

open Function LinkedTree Finset List

namespace TreeState

variable {s s' : TreeState} {G : Outline} {n p c : NodeId} {nd nd' pn : Node} {h : BlockHash}

def Leaf (s : TreeState) (n : NodeId) : Prop :=
  n ≠ rootId ∧ ∃ nd, s.nodes n = some nd ∧ nd.childless = true

inductive Evicts : TreeState → TreeState → Prop where
  | drop {s s' : TreeState} (d : Drops s s') : Evicts s s'
  | clear {s : TreeState} {n : NodeId} {nd : Node} (there : s.nodes n = some nd)
      (inner : n ≠ rootId) (leaf : nd.childless = true) :
        Evicts s (s.put n { nd with workers := ∅ })

theorem Drops.keys_subset (d : Drops s s') (S : s.Shaped G) : s'.keys ⊆ s.keys := by
  cases d with
  | leaf there inner up empty =>
    rw [(S.detach there inner up (Node.isEmpty_iff.mp empty).2).keys_eq, S.keys_eq]
    exact Finset.erase_subset _ _

theorem keys_subset_of_drops (S : s.Shaped G) (run : Relation.ReflTransGen Drops s s') :
    s'.keys ⊆ s.keys := by
  induction run with
  | refl => exact Finset.Subset.refl _
  | tail before d ih =>
    obtain ⟨G', S'⟩ := shaped_of_drops S before
    exact (d.keys_subset S').trans ih

theorem pruneCascade_head (there : s.nodes n = some nd) (inner : n ≠ rootId)
    (up : nd.parent = some p)
    (empty : nd.isEmpty = true) :
      Relation.ReflTransGen Drops (s.detach n nd p) (s.pruneCascade n) := by
  rw [pruneCascade, pruneLoop, if_neg inner]
  simp only [there, up, empty, if_true]
  split
  · exact pruneLoop_drops _ _ _
  · exact .refl

theorem evictOne_spec (S : s.Shaped G) (spare : s.Spare []) (leaf : s.Leaf n) :
    ∃ G', (s.evictOne n).Shaped G' ∧ (s.evictOne n).Spare [] ∧
      Relation.ReflTransGen Evicts s (s.evictOne n) ∧ (s.evictOne n).keys ⊂ s.keys := by
  obtain ⟨inner, nd, there, childless⟩ := leaf
  have same : nd.SamePlace { nd with workers := ∅ } := ⟨rfl, rfl, rfl⟩
  obtain ⟨S₁, spare₁⟩ := S.spare_put there same spare
  have there₁ : (s.put n { nd with workers := ∅ }).nodes n = some { nd with workers := ∅ } := by
    simp [TreeState.put]
  obtain ⟨p, pn, up, -, -, -⟩ := S.up there inner
  have empty : Node.isEmpty { nd with workers := ∅ } = true := Node.isEmpty_iff.mpr ⟨rfl, childless⟩
  obtain ⟨G', S', rest⟩ := pruneCascade_spec S₁ spare₁
  have eq : s.evictOne n = (s.put n { nd with workers := ∅ }).pruneCascade n := by
    simp only [evictOne, there]
  rw [eq]
  refine ⟨G', S', rest, ?_, ?_⟩
  · refine .head (.clear there inner childless) ?_
    exact (pruneLoop_drops _ _ n).lift id (fun _ _ => Evicts.drop)
  · have fewer := keys_subset_of_drops (S₁.detach there₁ inner up childless)
      (pruneCascade_head there₁ inner up empty)
    rw [(S₁.detach there₁ inner up childless).keys_eq] at fewer
    refine lt_of_le_of_lt (b := G.live.erase n) fewer ?_
    rw [S.keys_eq]
    exact erase_ssubset (S.mem_live there)

theorem Shaped.exists_leaf (S : s.Shaped G) (inhabited : 0 < s.nodeCount) :
    ∃ n ∈ s.keys, s.Leaf n := by
  obtain ⟨n, live, deepest⟩ := exists_max_image G.live (fun n => (G.chain n).length)
    ⟨rootId, S.shape.root_live⟩
  obtain ⟨nd, there⟩ := Option.isSome_iff_exists.mp ((S.live n).mp live)
  refine ⟨n, S.mem_keys.mpr live, ?_, nd, there, ?_⟩
  · rintro rfl
    have more : 1 < G.live.card := by
      unfold nodeCount at inhabited
      rw [S.keys_eq] at inhabited
      omega
    obtain ⟨m, mlive, inner⟩ := exists_mem_ne more rootId
    obtain ⟨md, mthere⟩ := Option.isSome_iff_exists.mp ((S.live m).mp mlive)
    obtain ⟨p, pn, -, -, -, hchain⟩ := S.up mthere inner
    have bound := deepest m mlive
    rw [hchain, show G.chain rootId = [] from S.shape.chain_root] at bound
    simp at bound
  · rw [Node.childless_iff]
    intro h
    cases filed : nd.children.lookup h with
    | none => rfl
    | some c =>
      obtain ⟨inner, cn, cthere, up, -⟩ := S.down there filed
      obtain ⟨q, qn, same, -, -, hchain⟩ := S.up cthere inner
      obtain rfl : q = n := Option.some.inj (same.symm.trans up)
      have bound := deepest c (S.mem_live cthere)
      rw [hchain] at bound
      simp at bound

theorem older_of_leaf (leaf : s.Leaf n) {oldest : Option (Nat × NodeId)}
    (good : ∀ t m, oldest = some (t, m) → s.Leaf m) :
    ∃ t m, s.older oldest n = some (t, m) ∧ s.Leaf m := by
  obtain ⟨inner, nd, there, childless⟩ := leaf
  have isLeaf : s.Leaf n := ⟨inner, nd, there, childless⟩
  simp only [older, there, inner, childless, Bool.true_eq_false, or_self, if_false]
  rcases oldest with - | ⟨cur, other⟩
  · exact ⟨_, _, rfl, isLeaf⟩
  · dsimp only
    split
    · exact ⟨_, _, rfl, isLeaf⟩
    · exact ⟨_, _, rfl, good _ _ rfl⟩

theorem older_of_not_leaf (other : ¬ s.Leaf n) (oldest : Option (Nat × NodeId)) :
    s.older oldest n = oldest := by
  unfold older
  split
  · rfl
  · rename_i nd there
    rw [if_pos]
    by_contra neither
    rw [not_or, Bool.not_eq_false] at neither
    exact other ⟨neither.1, nd, there, neither.2⟩

theorem oldestLeaf_spec (it : Iteration) (exists_leaf : ∃ n ∈ s.keys, s.Leaf n) :
    ∃ t n, s.oldestLeaf it = some (t, n) ∧ s.Leaf n := by
  obtain ⟨n, member, leaf⟩ := exists_leaf
  have listed := (it.mem _ n).mpr member
  -- Either a leaf is already chosen, or the rest of the list holds one.
  suffices found : ∀ (ids : List NodeId) (oldest : Option (Nat × NodeId)),
      (∀ t m, oldest = some (t, m) → s.Leaf m) → (oldest = none → n ∈ ids) →
      ∃ t m, ids.foldl s.older oldest = some (t, m) ∧ s.Leaf m by
    exact found _ none (by simp) (fun _ => listed)
  intro ids
  induction ids with
  | nil =>
    intro oldest good needed
    cases oldest with
    | none => cases needed rfl
    | some o => exact ⟨o.1, o.2, rfl, good _ _ rfl⟩
  | cons id ids ih =>
    intro oldest good needed
    rw [foldl_cons]
    by_cases isLeaf : s.Leaf id
    · obtain ⟨t, m, chosen, mleaf⟩ := older_of_leaf isLeaf good
      rw [chosen]
      refine ih _ ?_ (fun none => by cases none)
      intro t' m' same
      cases same
      exact mleaf
    · have other : n ≠ id := fun same => isLeaf (same ▸ leaf)
      rw [older_of_not_leaf isLeaf]
      refine ih _ good (fun none => ?_)
      rcases List.mem_cons.mp (needed none) with same | later
      · exact absurd same other
      · exact later

theorem evictLoop_spec (it : Nat → Iteration) (maxSize iters : Nat) :
    ∀ {s : TreeState} {G : Outline},
    s.Shaped G → s.Spare [] → s.keys.card ≤ iters →
    ∃ G', (evictLoop it maxSize iters s).Shaped G' ∧ (evictLoop it maxSize iters s).Spare [] ∧
      Relation.ReflTransGen Evicts s (evictLoop it maxSize iters s) ∧
      (evictLoop it maxSize iters s).keys ⊆ s.keys ∧
      (evictLoop it maxSize iters s).nodeCount ≤ maxSize := by
  induction iters with
  | zero =>
    intro s G S spare enough
    refine ⟨G, S, spare, .refl, Finset.Subset.refl _, ?_⟩
    simp only [evictLoop, nodeCount]
    omega
  | succ iters ih =>
    intro s G S spare enough
    rw [evictLoop]
    split
    · rename_i tooMany
      obtain ⟨t, n, chosen, leaf⟩ := oldestLeaf_spec (it iters) (S.exists_leaf (by omega))
      rw [chosen]
      obtain ⟨G₁, S₁, spare₁, run₁, fewer⟩ := evictOne_spec S spare leaf
      have card := card_lt_card fewer
      obtain ⟨G₂, S₂, spare₂, run₂, fewer₂, bound⟩ := ih S₁ spare₁ (by omega)
      exact ⟨G₂, S₂, spare₂, run₁.trans run₂, fewer₂.trans fewer.subset, bound⟩
    · rename_i fits
      exact ⟨G, S, spare, .refl, Finset.Subset.refl _, by omega⟩

theorem evictLru_spec (it : Nat → Iteration) (S : s.Shaped G) (spare : s.Spare []) (maxSize : Nat) :
    ∃ G', (s.evictLru it maxSize).2.Shaped G' ∧ (s.evictLru it maxSize).2.Spare [] ∧
      Relation.ReflTransGen Evicts s (s.evictLru it maxSize).2 ∧
      (s.evictLru it maxSize).2.keys ⊆ s.keys ∧
      (s.evictLru it maxSize).2.nodeCount ≤ maxSize ∧
      (s.evictLru it maxSize).1 = (s.keys \ (s.evictLru it maxSize).2.keys).card := by
  unfold evictLru
  split
  · rename_i fits
    exact ⟨G, S, spare, .refl, Finset.Subset.refl _, fits, by simp⟩
  · -- Between calls there is no empty leaf, so the first phase finds nothing to do.
    have nothing : ((it (s.keys.card + 1)).list s.keys).filter s.prunable = [] := by
      rw [filter_eq_nil_iff]
      intro n _ empty
      unfold prunable at empty
      split at empty
      · rename_i nd there
        simp only [Bool.and_eq_true, decide_eq_true_eq] at empty
        cases spare n nd empty.1 there empty.2
      · cases empty
    simp only [nothing, evictEmpty]
    obtain ⟨G', S', spare', run, fewer, bound⟩ :=
      evictLoop_spec it maxSize (s.keys.card + 1) S spare (by omega)
    exact ⟨G', S', spare', run, fewer, bound, (card_sdiff_of_subset fewer).symm⟩

inductive Op where
  | insert (it : Iteration) (now : Nat) (worker : KvWorkerId) (parentHash : Option BlockHash)
      (hashes : List BlockHash)
  | remove (it : Iteration) (worker : KvWorkerId) (hashes : List BlockHash)
  | clearWorker (it : Iteration) (worker : KvWorkerId)
  | matchPrefix (it : Iteration) (now : Nat) (parentHash : Option BlockHash)
      (hashes : List BlockHash)
  | evictLru (it : Nat → Iteration) (maxSize : Nat)

def exec (s : TreeState) : Op → TreeState
  | .insert it now worker parentHash hashes => s.insert it now worker parentHash hashes
  | .remove it worker hashes => s.remove it worker hashes
  | .clearWorker it worker => s.clearWorker it worker
  | .matchPrefix it now parentHash hashes => (s.matchPrefix it now parentHash hashes).2
  | .evictLru it maxSize => (s.evictLru it maxSize).2

def Sound (s : TreeState) : Prop := (∃ G, s.Shaped G) ∧ s.Spare []

theorem sound_new (now : Nat) : (new now).Sound := by
  have only : ∀ n, (new now).nodes n = if n = rootId then some (root now) else none := by
    intro n
    by_cases isRoot : n = rootId
    · simp [new, isRoot]
    · simp [new, isRoot]
  refine ⟨⟨⟨{rootId}, fun _ => []⟩, ?_, ?_, ?_⟩, ?_⟩
  · refine ⟨Finset.mem_singleton_self _, ?_, rfl, ?_, ?_⟩
    · intro n live
      rw [Finset.mem_singleton.mp live]
      exact one_pos
    · intro n live inner
      exact absurd (Finset.mem_singleton.mp live) inner
    · intro p live k c filed
      simp [linked, child, only, root, Finset.mem_singleton.mp live] at filed
  · intro n
    by_cases isRoot : n = rootId
    · simp [only, isRoot]
    · simp [only, isRoot]
  · intro h n
    by_cases isRoot : n = rootId
    · simp [new, isRoot]
    · simp [isRoot, new]
  · intro n nd inner there
    simp [only, inner] at there

theorem Sound.exec (sound : s.Sound) (op : Op) : (s.exec op).Sound := by
  obtain ⟨⟨G, S⟩, spare⟩ := sound
  cases op with
  | insert it now worker parentHash hashes =>
    obtain ⟨G', S', spare'⟩ := insert_spec it now S spare worker parentHash hashes
    exact ⟨⟨G', S'⟩, spare'⟩
  | remove it worker hashes =>
    obtain ⟨G', S', spare'⟩ := remove_spec it S spare worker hashes
    exact ⟨⟨G', S'⟩, spare'⟩
  | clearWorker it worker =>
    obtain ⟨G', S', spare'⟩ := clearWorker_spec it S spare worker
    exact ⟨⟨G', S'⟩, spare'⟩
  | matchPrefix it now parentHash hashes =>
    obtain ⟨S', spare'⟩ := matchLoop_spec now hashes (s.matchStart it parentHash) 0 none S spare
    exact ⟨⟨G, S'⟩, spare'⟩
  | evictLru it maxSize =>
    obtain ⟨G', S', spare', -⟩ := evictLru_spec it S spare maxSize
    exact ⟨⟨G', S'⟩, spare'⟩

theorem sound_run (ops : List Op) :
    ∀ {s : TreeState}, s.Sound → (ops.foldl TreeState.exec s).Sound := by
  induction ops with
  | nil => exact fun sound => sound
  | cons op ops ih => exact fun sound => ih (sound.exec op)

/-- After any calls the arena is a tree without gaps and empty leaves, and eviction removes leaves,
counts them and stops at the bound. -/
theorem hashTree_well_formed (now : Nat) (ops : List Op) :
    let s := ops.foldl TreeState.exec (new now)
    (∀ n, n ∈ s.keys ↔ (s.nodes n).isSome) ∧
    (∀ n ∈ s.keys, s.linked.InTree n) ∧
    (∀ n nd, s.nodes n = some nd → n ≠ rootId →
      ∃ p pn, nd.parent = some p ∧ s.nodes p = some pn ∧ pn.children.lookup nd.blockHash = some n) ∧
    (∀ p pn h c, s.nodes p = some pn → pn.children.lookup h = some c →
      c ≠ rootId ∧ ∃ nd, s.nodes c = some nd ∧ nd.parent = some p ∧ nd.blockHash = h) ∧
    (∀ h n, n ∈ s.byHash h ↔ n ≠ rootId ∧ ∃ nd, s.nodes n = some nd ∧ nd.blockHash = h) ∧
    (∀ n nd, s.nodes n = some nd → n ≠ rootId → ¬ (nd.workers = ∅ ∧ nd.childless = true)) ∧
    (∀ it maxSize, (s.evictLru it maxSize).1 = (s.keys \ (s.evictLru it maxSize).2.keys).card ∧
      (s.evictLru it maxSize).2.keys ⊆ s.keys ∧ (s.evictLru it maxSize).2.nodeCount ≤ maxSize ∧
      Relation.ReflTransGen Evicts s (s.evictLru it maxSize).2) := by
  intro s
  obtain ⟨⟨G, S⟩, spare⟩ := sound_run ops (sound_new now)
  refine ⟨fun n => S.mem_keys.trans (S.live n), ?_, ?_, ?_, S.index, ?_, ?_⟩
  · intro n member
    exact S.shape.mem_live_iff.mp (S.mem_keys.mp member)
  · intro n nd there inner
    obtain ⟨p, pn, up, hpn, filed, -⟩ := S.up there inner
    exact ⟨p, pn, up, hpn, filed⟩
  · exact fun p pn h c there filed => S.down there filed
  · intro n nd there inner empty
    cases spare n nd inner there (Node.isEmpty_iff.mpr empty)
  · intro it maxSize
    obtain ⟨-, -, -, run, fewer, bound, count⟩ := evictLru_spec it S spare maxSize
    exact ⟨count, fewer, bound, run⟩

end TreeState

end RedKnot.Router.HashTree
