import RedKnot.MemCache.Radix.Hashes
import RedKnot.MemCache.Radix.Refinement

/-! The stream of placement events. Block hashes do not tell namespaces apart, so a removal in one
withdraws the block of the other. -/

namespace RedKnot

open LinkedTree NodeHeap RadixKey Function List Heapq KVCacheEvent

def KVCacheEvent.apply (S : Finset Int) : KVCacheEvent → Finset Int
  | .blockStored hs _ _ _ _ => S ∪ hs.toFinset
  | .blockRemoved hs _ => S \ hs.toFinset
  | .allBlocksCleared => ∅

def KVCacheEvent.parentBlockHash? : KVCacheEvent → Option Int
  | .blockStored _ parent _ _ _ => parent
  | _ => none

def replayEvents (S : Finset Int) (es : List KVCacheEvent) : Finset Int :=
  es.foldl apply S

def Grounded (S : Finset Int) : List KVCacheEvent → Prop
  | [] => True
  | e :: es => (∀ h, e.parentBlockHash? = some h → h ∈ S) ∧ Grounded (apply S e) es

theorem replayEvents_append (S : Finset Int) (es fs : List KVCacheEvent) :
    replayEvents S (es ++ fs) = replayEvents (replayEvents S es) fs := foldl_append

theorem grounded_append {S : Finset Int} {es fs : List KVCacheEvent} (first : Grounded S es)
    (second : Grounded (replayEvents S es) fs) : Grounded S (es ++ fs) := by
  induction es generalizing S with
  | nil => exact second
  | cons e es ih => exact ⟨first.1, ih first.2 second⟩

namespace Radix

section

variable (k : RadixKey) (P : Nat) (hs : List Int) (i : Nat)

theorem replay_stored (parent : Option Int) (S : Finset Int) :
    replayEvents S (RadixCache.storedEvents k P hs i parent) = S ∪ hs.toFinset := by
  induction hs generalizing i parent S with
  | nil => simp [RadixCache.storedEvents, replayEvents]
  | cons h hs ih =>
    have step := ih (i + 1) (some h) (S ∪ [h].toFinset)
    unfold replayEvents at step ⊢
    rw [RadixCache.storedEvents, foldl_cons, apply, step]
    ext b
    simp

theorem grounded_stored {parent : Option Int}
    {S : Finset Int} (known : ∀ h, parent = some h → h ∈ S) :
    Grounded S (RadixCache.storedEvents k P hs i parent) := by
  induction hs generalizing i parent S with
  | nil => trivial
  | cons h hs ih =>
    refine ⟨known, ih (i + 1) ?_⟩
    intro b hb
    cases hb
    simp [apply]

end

theorem replay_removed (hs : List Int) (S : Finset Int) :
    replayEvents S (hs.map (fun h => .blockRemoved [h] .gpu)) = S \ hs.toFinset := by
  induction hs generalizing S with
  | nil => simp [replayEvents]
  | cons h hs ih =>
    have step := ih (S \ [h].toFinset)
    unfold replayEvents at step ⊢
    rw [map_cons, foldl_cons, apply, step]
    ext b
    simp
    tauto

theorem grounded_removed (hs : List Int) (S : Finset Int) :
    Grounded S (hs.map (fun h => .blockRemoved [h] .gpu)) := by
  induction hs generalizing S with
  | nil => trivial
  | cons h hs ih =>
    refine ⟨fun b named => ?_, ih _⟩
    cases named

inductive Call where
  | op (op : Op)
  | reset

def Op.KeyIn (keys : List RadixKey) : Op → Prop
  | .insert key _ _ _ => key ∈ keys
  | _ => True

instance (keys : List RadixKey) : (op : Op) → Decidable (op.KeyIn keys)
  | .insert key _ _ _ => inferInstanceAs (Decidable (key ∈ keys))
  | .matchPrefix _ => isTrue trivial
  | .incLockRef _ => isTrue trivial
  | .decLockRef _ => isTrue trivial
  | .evict _ => isTrue trivial

namespace RadixCache

def call (hq : Heapq) (s : RadixCache) : Call → Except PyError RadixCache
  | .op op => do
    let (_, s) ← s.exec hq op
    return s
  | .reset => .ok s.reset

def CallOk (s : RadixCache) (keys : List RadixKey) : Call → Prop
  | .op op => s.Admissible op ∧ op.KeyIn keys
  | .reset => True

inductive Emits (hq : Heapq) (cfg : Config) (clock : Nat → Int) (keys : List RadixKey)
    (guard : RadixCache → Call → Prop) : RadixCache → Prop where
  | init : Emits hq cfg clock keys guard (init cfg clock)
  | step {s t : RadixCache} {c : Call} (before : Emits hq cfg clock keys guard s)
      (ok : s.CallOk keys c) (guarded : guard s c) (ran : s.call hq c = .ok t) :
      Emits hq cfg clock keys guard t

def Distinct (s : RadixCache) : Prop :=
  ∀ v w vs ws, Cached s.pageSize s.rootNode s.nodes v vs →
    Cached s.pageSize s.rootNode s.nodes w ws → grams v = grams w → v = w

def EvictsDistinct (s : RadixCache) : Call → Prop
  | .op (.evict numTokens) => 0 < numTokens → s.Distinct
  | _ => True

end RadixCache

open RadixCache

def IsPage (cfg : Config) (keys : List RadixKey) (w : List KeyUnit) : Prop :=
  w ≠ [] ∧ cfg.pageSize ∣ w.length ∧ ∃ k ∈ keys, w <+: (cfg.viewKey k).units

def CollisionFree (cfg : Config) (keys : List RadixKey) : Prop :=
  ∀ v w, IsPage cfg keys v → IsPage cfg keys w →
    blockHash cfg.sha256 cfg.pageSize v = blockHash cfg.sha256 cfg.pageSize w →
    blockInput cfg.sha256 cfg.pageSize v = blockInput cfg.sha256 cfg.pageSize w

def KeysOk (cfg : Config) (keys : List RadixKey) : Prop :=
  ∀ k ∈ keys, (∀ t ∈ k.tokenIds, t < 2 ^ 32) ∧ (k.isBigram = true → cfg.isEagle = true)

theorem collisionFree_of_inits {cfg : Config} {keys : List RadixKey}
    (free : ∀ v ∈ keys.flatMap (fun k => (cfg.viewKey k).units.inits),
      ∀ w ∈ keys.flatMap (fun k => (cfg.viewKey k).units.inits),
      v ≠ [] → w ≠ [] → cfg.pageSize ∣ v.length → cfg.pageSize ∣ w.length →
      blockHash cfg.sha256 cfg.pageSize v = blockHash cfg.sha256 cfg.pageSize w →
      blockInput cfg.sha256 cfg.pageSize v = blockInput cfg.sha256 cfg.pageSize w) :
    CollisionFree cfg keys := by
  rintro v w ⟨nev, pagedv, k, hk, vk⟩ ⟨new, pagedw, k', hk', wk'⟩
  exact free v (mem_flatMap.mpr ⟨k, hk, (mem_inits _ _).mpr vk⟩) w
    (mem_flatMap.mpr ⟨k', hk', (mem_inits _ _).mpr wk'⟩) nev new pagedv pagedw

/-- Replaying the events from nothing gives the block hashes of the pages in the tree, and every
parent is held when it is named. -/
def RadixCache.StreamFaithful (s : RadixCache) : Prop :=
  (∀ b, b ∈ replayEvents ∅ s.kvEventQueue ↔ ∃ w vs, w ≠ [] ∧
    Cached s.pageSize s.rootNode s.nodes w vs ∧ b = blockHash s.cfg.sha256 s.pageSize w) ∧
  Grounded ∅ s.kvEventQueue

namespace RadixCache

variable {cfg : Config} {keys : List RadixKey} {s s' : RadixCache} {G G' : Outline} {p x : NodeId}

structure Tracks (cfg : Config) (keys : List RadixKey) (s : RadixCache) (G : Outline) : Prop where
  cfg_eq : s.cfg = cfg
  events : cfg.enableKvCacheEvents = true
  inv : Inv s G
  bare : cfg.disable = true → G.live = {s.rootNode}
  hashed : Hashed s G
  words : ∀ w vs, w ≠ [] → Cached s.pageSize s.rootNode s.nodes w vs → IsPage cfg keys w
  faithful : s.StreamFaithful

theorem Tracks.enabled (t : Tracks cfg keys s G) : s.cfg.enableKvCacheEvents = true := by
  rw [t.cfg_eq]
  exact t.events

theorem Tracks.of_same (t : Tracks cfg keys s G) (hcfg : s'.cfg = s.cfg) (inv : Inv s' G')
    (bare : cfg.disable = true → G'.live = {s'.rootNode}) (hashed : Hashed s' G')
    (queue : s'.kvEventQueue = s.kvEventQueue)
    (same : ∀ w vs, Cached s.pageSize s'.rootNode s'.nodes w vs ↔
      Cached s.pageSize s.rootNode s.nodes w vs) : Tracks cfg keys s' G' := by
  refine ⟨hcfg.trans t.cfg_eq, t.events, inv, bare, hashed, ?_, ?_⟩
  · intro w vs some cached
    rw [pageSize, hcfg, same] at cached
    exact t.words w vs some cached
  · unfold StreamFaithful
    simp only [pageSize, hcfg, queue, same]
    exact t.faithful

theorem Reshape.kvEventQueue (r : Reshape s G s' G') : s'.kvEventQueue = s.kvEventQueue := by
  induction r with
  | refl => rfl
  | touch t _ ih => rw [ih, t.rest]
  | split _ _ _ _ _ _ e _ ih => rw [ih, e.rest]

theorem Tracks.reshape (t : Tracks cfg keys s G) (enabled : cfg.disable = false)
    (r : Reshape s G s' G') : Tracks cfg keys s' G' :=
  t.of_same r.cfg (r.inv t.inv) (by simp [enabled]) (t.hashed.reshape r t.inv t.enabled)
    r.kvEventQueue (fun _ _ => r.cached t.inv)

theorem Tracks.locks {ns : List NodeId} {d : Int} (t : Tracks cfg keys s G) (e : LocksTo s s' ns d)
    (chain : ∀ n ∈ ns, n ∈ G.live ∧ n ≠ s.rootNode) : Tracks cfg keys s' G := by
  have tree : IsRadixTree s.pageSize s.rootNode s.counter s'.nodes G := t.inv.tree.congr e.sameLinks
  refine t.of_same e.cfg (t.inv.locks e chain) (by rw [e.rootNode]; exact t.bare) (t.hashed.locks e)
    (by rw [e.rest]) fun w vs => ?_
  rw [e.rootNode, tree.cached_iff, t.inv.tree.cached_iff, seg_congr e.sameLinks,
    valOf_congr e.sameLinks]

theorem mem_blocks (h : Inv s G) (k : Hashed s G) {n : NodeId} (hn : n ∈ G.live)
    (inner : n ≠ s.rootNode) (hp : (s.nodes n).parent = some p) {b : Int} :
    b ∈ (s.hashOf n).map hashStrToInt64 ↔ ∃ w, w <+: G.along (segOf s.nodes) n ∧
      s.pageSize ∣ w.length ∧ (G.along (segOf s.nodes) p).length < w.length ∧
      b = blockHash s.cfg.sha256 s.pageSize w := by
  rw [mem_map]
  constructor
  · rintro ⟨d, hd, rfl⟩
    obtain ⟨w, within, paged, long, rfl⟩ := (k.mem_hashOf h hn inner hp).mp hd
    exact ⟨w, within, paged, long, rfl⟩
  · rintro ⟨w, within, paged, long, rfl⟩
    exact ⟨_, (k.mem_hashOf h hn inner hp).mpr ⟨w, within, paged, long, rfl⟩, rfl⟩

theorem HangsTo.words {k : RadixKey} {v : List Slot} (e : HangsTo s s' p k v) (h : Inv s G)
    (g : Hangs s G p k v) : segOf s'.nodes s.counter = k.units ∧ s.counter ≠ s'.rootNode ∧
      (G.attach p s.counter).along (segOf s'.nodes) s.counter =
        G.along (segOf s.nodes) p ++ k.units ∧
      (G.attach p s.counter).along (segOf s'.nodes) p = G.along (segOf s.nodes) p := by
  have tree := h.tree
  have seg : segOf s'.nodes s.counter = k.units := by
    have hkey : RadixNode.key (s'.nodes s.counter) = k := e.new_key
    rw [segOf, hkey]
  refine ⟨seg, ?_, ?_, tree.shape.attach_along_old le_rfl
    (fun m hm _ => e.links.keys.seg (tree.ne_next hm)) g.live⟩
  · rw [e.rootNode]
    exact (tree.ne_next tree.root_live).symm
  · rw [← seg]
    exact tree.shape.attach_along_new g.live (fun m hm _ => e.links.keys.seg (tree.ne_next hm))

theorem HangsTo.cached {k : RadixKey} {v : List Slot} (e : HangsTo s s' p k v) (h : Inv s G)
    (g : Hangs s G p k v) (w : List KeyUnit) (vs : List Slot) :
    Cached s.pageSize s'.rootNode s'.nodes w vs ↔ Cached s.pageSize s.rootNode s.nodes w vs ∨
      (s.pageSize ∣ w.length ∧ w <+: G.along (segOf s.nodes) p ++ k.units ∧
        vs = (G.along (valOf s.nodes) p ++ valOf s'.nodes s.counter).take w.length) := by
  rw [e.rootNode, h.tree.cached_hang (e.tree g h) e.links g.live le_rfl, (e.words h g).1]

theorem Tracks.hang {k : RadixKey} {v : List Slot} (t : Tracks cfg keys s G)
    (enabled : cfg.disable = false) (g : Hangs s G p k v) (e : HangsTo s s' p k v)
    (listed : ∃ key ∈ keys, G.along (segOf s.nodes) p ++ k.units = (cfg.viewKey key).units) :
    Tracks cfg keys s' (G.attach p s.counter) := by
  have tree := t.inv.tree
  have inv := t.inv.hang g e
  have hashed := t.hashed.hang t.inv t.enabled g e
  obtain ⟨seg, fresh, word, top⟩ := e.words t.inv g
  have size : s'.pageSize = s.pageSize := by rw [pageSize, e.cfg]
  have cached := e.cached t.inv g
  obtain ⟨hs, hhs, new, queue⟩ := e.stored t.enabled
  have own : s'.hashOf s.counter = hs := by rw [hashOf, new, Option.getD_some]
  -- The blocks stored are those of the words that end in the new leaf.
  have stored : ∀ b, b ∈ hs.map hashStrToInt64 ↔ ∃ w, w <+: G.along (segOf s.nodes) p ++ k.units ∧
      s.pageSize ∣ w.length ∧ (G.along (segOf s.nodes) p).length < w.length ∧
      b = blockHash s.cfg.sha256 s.pageSize w := by
    intro b
    have blocks := mem_blocks inv hashed (Finset.mem_insert_self _ _) fresh e.links.new_parent (b := b)
    rwa [own, word, top, size, e.cfg] at blocks
  refine ⟨e.cfg.trans t.cfg_eq, t.events, inv, by simp [enabled], hashed, ?_, ?_, ?_⟩
  · intro w vs some here
    rw [size, cached] at here
    rcases here with here | ⟨paged, within, _⟩
    · exact t.words w vs some here
    · obtain ⟨key, hkey, whole⟩ := listed
      refine ⟨some, ?_, key, hkey, whole ▸ within⟩
      rw [← t.cfg_eq]
      exact paged
  · intro b
    rw [queue, replayEvents_append, replay_stored, Finset.mem_union, t.faithful.1, mem_toFinset,
      stored, size, e.cfg]
    constructor
    · rintro (⟨w, vs, some, here, rfl⟩ | ⟨w, within, paged, long, rfl⟩)
      · exact ⟨w, vs, some, (cached w vs).mpr (.inl here), rfl⟩
      · exact ⟨w, _, ne_nil_of_length_pos (by omega),
          (cached w _).mpr (.inr ⟨paged, within, rfl⟩), rfl⟩
    · rintro ⟨w, vs, some, here, rfl⟩
      rcases (cached w vs).mp here with here | ⟨paged, within, _⟩
      · exact .inl ⟨w, vs, some, here, rfl⟩
      · by_cases long : (G.along (segOf s.nodes) p).length < w.length
        · exact .inr ⟨w, within, paged, long, rfl⟩
        · -- A word that ends above the leaf was there before.
          have above : w <+: G.along (segOf s.nodes) p :=
            prefix_of_prefix_length_le within (prefix_append _ _) (by omega)
          exact .inl ⟨w, _, some, tree.cached_iff.mpr ⟨paged, p, g.live, above, rfl⟩, rfl⟩
  · rw [queue]
    refine grounded_append t.faithful.2 (grounded_stored _ _ _ _ fun b named => ?_)
    unfold parentBlock at named
    split at named
    · cases named
    · rename_i inner
      obtain ⟨q, _, hq⟩ := tree.keys.has_parent g.live inner
      obtain ⟨some, _⟩ := t.inv.hashValue_eq t.enabled g.live inner
      rw [some] at named
      obtain ⟨d, hd, rfl⟩ := Option.map_eq_some_iff.mp named
      have member := mem_map_of_mem (f := hashStrToInt64) (mem_of_getLast? hd)
      obtain ⟨w, within, paged, long, hw⟩ := (mem_blocks t.inv t.hashed g.live inner hq).mp member
      rw [t.faithful.1, hw]
      exact ⟨w, _, ne_nil_of_length_pos (by omega),
        tree.cached_iff.mpr ⟨paged, p, g.live, within, rfl⟩, rfl⟩

theorem viewKey_tag (cfg : Config) (k : RadixKey) :
    ∀ u ∈ (cfg.viewKey k).units, u.1 = k.extraKey := by
  have view : (k.maybeToBigramView cfg.isEagle none).1.extraKey = k.extraKey := by
    unfold maybeToBigramView
    split <;> rfl
  have kept : (cfg.viewKey k).extraKey = k.extraKey := by
    rw [← view, Config.viewKey, pageAligned]
    split
    · rfl
    · rw [upTo, slice_extraKey]
  intro u hu
  unfold units at hu
  split at hu <;>
    · obtain ⟨_, _, rfl⟩ := mem_map.mp hu
      exact kept

theorem wordOk_viewKey (ok : KeysOk cfg keys) {k : RadixKey} (hk : k ∈ keys) :
    WordOk cfg.isEagle (cfg.viewKey k).units := by
  obtain ⟨small, mode⟩ := ok k hk
  have bigram : (cfg.viewKey k).isBigram = cfg.isEagle := by
    have view : (k.maybeToBigramView cfg.isEagle none).1.isBigram = cfg.isEagle := by
      unfold maybeToBigramView
      cases eagle : cfg.isEagle with
      | true => cases hb : k.isBigram <;> simp [hb]
      | false =>
        cases hb : k.isBigram with
        | true => exact absurd (mode hb) (by simp [eagle])
        | false => simp [hb]
    rw [Config.viewKey, pageAligned]
    split
    · exact view
    · rw [upTo, slice_isBigram, view]
  have tokens : ∀ t ∈ (cfg.viewKey k).tokenIds, t < 2 ^ 32 := fun t ht =>
    small t (tokenIds_viewKey cfg k ht)
  intro u hu
  unfold units at hu
  split at hu
  · rename_i yes
    obtain ⟨ab, hab, rfl⟩ := mem_map.mp hu
    obtain ⟨ha, hb⟩ := of_mem_zip hab
    exact ⟨bigram ▸ yes, tokens _ ha, tokens _ (mem_of_mem_tail hb)⟩
  · rename_i no
    obtain ⟨t, ht, rfl⟩ := mem_map.mp hu
    exact ⟨by simpa [bigram] using no, tokens t ht⟩

theorem Tracks.same_word (t : Tracks cfg keys s G) (wide : ∀ b, (cfg.sha256 b).length = 32)
    (ok : KeysOk cfg keys) (free : CollisionFree cfg keys) (distinct : s.Distinct)
    {v w : List KeyUnit} {vs ws : List Slot} (nev : v ≠ []) (new : w ≠ [])
    (hv : Cached s.pageSize s.rootNode s.nodes v vs) (hw : Cached s.pageSize s.rootNode s.nodes w ws)
    (same : blockHash s.cfg.sha256 s.pageSize v = blockHash s.cfg.sha256 s.pageSize w) : v = w := by
  obtain rfl := t.cfg_eq
  obtain ⟨_, pagedv, k, hk, vk⟩ := t.words v vs nev hv
  obtain ⟨_, pagedw, k', hk', wk'⟩ := t.words w ws new hw
  apply distinct v w vs ws hv hw
  refine grams_of_blockHash t.inv.tree.page_pos wide ((wordOk_viewKey ok hk).of_sub vk.subset)
    ((wordOk_viewKey ok hk').of_sub wk'.subset) pagedv pagedw nev new ?_ same
  intro v' w' hv' hw' nev' new' pagedv' pagedw'
  exact free v' w' ⟨nev', pagedv', k, hk, hv'.trans vk⟩ ⟨new', pagedw', k', hk', hw'.trans wk'⟩

theorem Distinct.remove (distinct : s.Distinct) (h : Inv s G) (g : Leaf s G p x)
    (e : RemovesTo s s' p x) : s'.Distinct := by
  intro v w vs ws hv hw
  rw [pageSize, e.cfg, e.rootNode,
    h.tree.cached_drop e.links g.live g.inner g.up g.childless] at hv hw
  exact distinct v w vs ws hv.1 hw.1

theorem Tracks.remove (t : Tracks cfg keys s G) (wide : ∀ b, (cfg.sha256 b).length = 32)
    (ok : KeysOk cfg keys) (free : CollisionFree cfg keys) (distinct : s.Distinct)
    (enabled : cfg.disable = false) (g : Leaf s G p x) (e : RemovesTo s s' p x) :
    Tracks cfg keys s' (G.detach x) := by
  have tree := t.inv.tree
  have size : s'.pageSize = s.pageSize := by rw [pageSize, e.cfg]
  have cached : ∀ w vs, Cached s.pageSize s'.rootNode s'.nodes w vs ↔
      Cached s.pageSize s.rootNode s.nodes w vs ∧
        ¬ (w <+: G.along (segOf s.nodes) x ∧ (G.along (segOf s.nodes) p).length < w.length) := by
    intro w vs
    rw [e.rootNode, tree.cached_drop e.links g.live g.inner g.up g.childless]
  have queue := e.removed t.enabled
  refine ⟨e.cfg.trans t.cfg_eq, t.events, t.inv.remove g e, by simp [enabled], t.hashed.remove e, ?_, ?_, ?_⟩
  · intro w vs some here
    rw [size, cached] at here
    exact t.words w vs some here.1
  · intro b
    rw [queue, replayEvents_append, replay_removed, Finset.mem_sdiff, t.faithful.1, mem_toFinset,
      size, e.cfg]
    have blocks := mem_blocks t.inv t.hashed g.live g.inner g.up (b := b)
    unfold hashOf at blocks
    rw [blocks]
    constructor
    · rintro ⟨⟨w, vs, some, here, rfl⟩, kept⟩
      refine ⟨w, vs, some, (cached w vs).mpr ⟨here, fun gone => kept ?_⟩, rfl⟩
      exact ⟨w, gone.1, here.1, gone.2, rfl⟩
    · rintro ⟨w, vs, some, here, rfl⟩
      obtain ⟨here, kept⟩ := (cached w vs).mp here
      refine ⟨⟨w, vs, some, here, rfl⟩, ?_⟩
      -- A removed page with this hash would be the same word.
      rintro ⟨u, within, paged, long, same⟩
      have there := tree.cached_iff.mpr ⟨paged, x, g.live, within, rfl⟩
      have uw := t.same_word wide ok free distinct (ne_nil_of_length_pos (by omega)) some there here
        same.symm
      exact kept (uw ▸ ⟨within, long⟩)
  · rw [queue]
    exact grounded_append t.faithful.2 (grounded_removed _ _)

theorem Tracks.evicts {want n n' : Nat} {cand xs : List NodeId}
    (v : Evicts want s G cand n xs s' G' n') (t : Tracks cfg keys s G)
    (wide : ∀ b, (cfg.sha256 b).length = 32) (ok : KeysOk cfg keys) (free : CollisionFree cfg keys)
    (enabled : cfg.disable = false) (distinct : 0 < want → s.Distinct) : Tracks cfg keys s' G' := by
  induction v with
  | enough => exact t
  | dry => exact t
  | take short _ _ g e _ _ ih =>
    have apart := distinct (by omega)
    exact ih (t.remove wide ok free apart enabled g e) (fun _ => apart.remove t.inv g e)

theorem tracks_reset (pos : 0 < s.pageSize) (events : s.cfg.enableKvCacheEvents = true)
    (grounded : Grounded ∅ s.kvEventQueue) (e : ResetsTo s s') :
    Tracks s.cfg keys s' (bareOutline s.counter) := by
  have hcfg : s'.cfg = s.cfg := by rw [e.rest]
  have root : s'.rootNode = s.counter := by rw [e.rest]
  have inv := inv_reset pos e
  have queue : s'.kvEventQueue = s.kvEventQueue ++ [.allBlocksCleared] := by
    rw [e.rest]
    simp [events]
  have none : ∀ w vs, w ≠ [] → ¬ Cached s'.pageSize s'.rootNode s'.nodes w vs := by
    intro w vs some cached
    obtain ⟨_, n, _, within, _⟩ := inv.tree.cached_iff.mp cached
    exact some (prefix_nil.mp within)
  refine ⟨hcfg, events, inv, fun _ => by rw [root]; rfl, hashed_reset e, ?_, ?_, ?_⟩
  · exact fun w vs some cached => absurd cached (none w vs some)
  · intro b
    rw [queue, replayEvents_append]
    constructor
    · intro held
      cases held
    · rintro ⟨w, vs, some, cached, _⟩
      exact absurd cached (none w vs some)
  · rw [queue]
    refine grounded_append grounded ⟨fun b named => ?_, trivial⟩
    cases named

theorem Tracks.performs {op : Op} {reply : Reply} (t : Tracks cfg keys s G)
    (wide : ∀ b, (cfg.sha256 b).length = 32) (ok : KeysOk cfg keys) (free : CollisionFree cfg keys)
    (allowed : s.CallOk keys (.op op)) (guarded : s.EvictsDistinct (.op op))
    (p : Performs s G op reply s' G') : Tracks cfg keys s' G' := by
  cases p with
  | idle => exact t
  | matched enabled r => exact t.reshape (t.cfg_eq ▸ enabled) r
  | inserted _ _ enabled _ i =>
    have enabled : cfg.disable = false := t.cfg_eq ▸ enabled
    cases i with
    | present r _ _ => exact t.reshape enabled r
    | grown r word _ g e =>
      rw [t.cfg_eq] at word
      exact (t.reshape enabled r).hang enabled g e ⟨_, allowed.2, word.symm⟩
  | incremented _ _ live e => exact t.locks e (t.inv.tree.shape.chain_live live)
  | decremented _ _ live e => exact t.locks e (t.inv.tree.shape.chain_live live)
  | evicted enabled v => exact Tracks.evicts v t wide ok free (t.cfg_eq ▸ enabled) guarded

theorem call_spec (hq : Heapq) (h : Inv s G) {c : Call} (allowed : s.CallOk keys c) :
    ∃ t, s.call hq c = .ok t := by
  cases c with
  | reset => exact ⟨_, rfl⟩
  | op op =>
    obtain ⟨reply, t, _, ran, _⟩ := exec_spec hq h op allowed.1
    refine ⟨t, ?_⟩
    simp only [call, ran]
    rfl

theorem tracks_of_emits {hq : Heapq} {clock : Nat → Int} (pos : 0 < cfg.pageSize)
    (events : cfg.enableKvCacheEvents = true) (wide : ∀ b, (cfg.sha256 b).length = 32)
    (ok : KeysOk cfg keys) (free : CollisionFree cfg keys)
    (run : Emits hq cfg clock keys EvictsDistinct s) : ∃ G, Tracks cfg keys s G := by
  induction run with
  | init =>
    exact ⟨_, tracks_reset (s := { cfg := cfg, clock := clock }) pos events trivial
      (init_resetsTo cfg clock)⟩
  | @step s t c _ allowed guarded ran ih =>
    obtain ⟨G, tracks⟩ := ih
    cases c with
    | op op =>
      obtain ⟨reply, t', G', ran', performs⟩ := exec_spec hq tracks.inv op allowed.1
      simp only [call, ran'] at ran
      cases ran
      exact ⟨G', tracks.performs wide ok free allowed guarded performs⟩
    | reset =>
      cases ran
      obtain rfl := tracks.cfg_eq
      exact ⟨_, tracks_reset pos events tracks.faithful.2 (reset_spec s)⟩

theorem Tracks.distinct_of_one_namespace (t : Tracks cfg keys s G) {e : Option String}
    (one : ∀ k ∈ keys, k.extraKey = e) : s.Distinct := by
  have tag : ∀ w vs, Cached s.pageSize s.rootNode s.nodes w vs → w = (grams w).map (e, ·) := by
    intro w vs cached
    by_cases some : w = []
    · rw [some]
      rfl
    · obtain ⟨_, _, k, hk, within⟩ := t.words w vs some cached
      have whole : w.map id = w.map (fun u => (e, u.2)) :=
        map_congr_left fun u hu =>
          Prod.ext ((viewKey_tag cfg k u (within.subset hu)).trans (one k hk)) rfl
      rw [map_id] at whole
      rw [grams, map_map]
      exact whole
  intro v w vs ws hv hw same
  rw [tag v vs hv, tag w ws hw, same]

def isCallOk (s : RadixCache) (keys : List RadixKey) : Call → Bool
  | .op op => s.isAdmissible op && decide (op.KeyIn keys)
  | .reset => true

def followCalls (hq : Heapq) (keys : List RadixKey) : RadixCache → List Call → Option RadixCache
  | s, [] => some s
  | s, c :: cs =>
    if s.isCallOk keys c then
      match s.call hq c with
      | .error _ => none
      | .ok t => followCalls hq keys t cs
    else none

theorem callOk_of_isCallOk {c : Call} (h : s.isCallOk keys c = true) : s.CallOk keys c := by
  cases c with
  | reset => trivial
  | op op =>
    rw [isCallOk, Bool.and_eq_true] at h
    exact ⟨admissible_of_isAdmissible h.1, of_decide_eq_true h.2⟩

theorem emits_of_followCalls {hq : Heapq} {clock : Nat → Int} {guard : RadixCache → Call → Prop}
    (cs : List Call) (before : Emits hq cfg clock keys guard s) (guarded : ∀ t, ∀ c ∈ cs, guard t c)
    (h : followCalls hq keys s cs = some s') : Emits hq cfg clock keys guard s' := by
  induction cs generalizing s with
  | nil =>
    cases h
    exact before
  | cons c cs ih =>
    rw [followCalls] at h
    split at h
    · rename_i allowed
      split at h
      · cases h
      · rename_i t ran
        refine ih (.step before (callOk_of_isCallOk allowed) (guarded s c mem_cons_self) ran) ?_ h
        exact fun t c hc => guarded t c (mem_cons_of_mem _ hc)
    · cases h

end RadixCache

open RadixCache

/-- In every run that evicts only while no tokens are cached in two namespaces, the stream is
faithful in every state, and every call returns. -/
theorem eventStream_faithful (hq : Heapq) (cfg : Config) (pos : 0 < cfg.pageSize)
    (events : cfg.enableKvCacheEvents = true) (wide : ∀ b, (cfg.sha256 b).length = 32)
    (clock : Nat → Int) (keys : List RadixKey) (ok : KeysOk cfg keys) (free : CollisionFree cfg keys)
    {s : RadixCache} (run : Emits hq cfg clock keys EvictsDistinct s) :
    s.StreamFaithful ∧ ∀ c, s.CallOk keys c → ∃ t, s.call hq c = .ok t := by
  obtain ⟨G, tracks⟩ := tracks_of_emits pos events wide ok free run
  exact ⟨tracks.faithful, fun c allowed => call_spec hq tracks.inv allowed⟩

def lengthHash (b : List UInt8) : Digest := (UInt8.ofNat b.length :: b ++ replicate 32 0).take 32

theorem length_lengthHash (b : List UInt8) : (lengthHash b).length = 32 := by
  simp [lengthHash]

theorem eventStream_of_one_namespace :
    let cfg : Config := { pageSize := 2, sha256 := lengthHash, enableKvCacheEvents := true }
    let a : RadixKey := { tokenIds := [1, 2, 3, 4], extraKey := some "lora" }
    ∃ s, Emits scan cfg (fun n => n) [a] EvictsDistinct s ∧ s.StreamFaithful ∧
      (replayEvents ∅ s.kvEventQueue).card = 1 ∧ s.kvEventQueue.length = 4 := by
  intro cfg a
  have ok : KeysOk cfg [a] := by simp [KeysOk, a]
  have free : CollisionFree cfg [a] := collisionFree_of_inits (by decide +kernel)
  have run : (followCalls scan [a] (init cfg (fun n => n))
      [.op (.insert a (some [10, 11, 12, 13]) false 0),
       .op (.matchPrefix { tokenIds := [1, 2, 9, 9], extraKey := some "lora" })]).map
      (fun r => (r.call scan (.op (.evict 1))).toOption.map fun t =>
        ((replayEvents ∅ t.kvEventQueue).card, t.kvEventQueue.length)) = some (some (1, 4)) := by
    decide +kernel
  obtain ⟨s, followed, evicted⟩ := Option.map_eq_some_iff.mp run
  have before : Emits scan cfg (fun n => n) [a] EvictsDistinct s :=
    emits_of_followCalls _ .init (by simp [EvictsDistinct]) followed
  obtain ⟨G, tracks⟩ := tracks_of_emits (by decide) rfl length_lengthHash ok free before
  have one : s.Distinct := tracks.distinct_of_one_namespace (e := some "lora") (by simp [a])
  have allowed : s.CallOk [a] (.op (.evict 1)) := ⟨trivial, trivial⟩
  obtain ⟨t, ran⟩ := call_spec scan tracks.inv allowed
  have after : Emits scan cfg (fun n => n) [a] EvictsDistinct t :=
    .step before allowed (fun _ => one) ran
  rw [ran] at evicted
  obtain ⟨card, length⟩ := Prod.mk.inj (Option.some.inj evicted)
  exact ⟨t, after,
    (eventStream_faithful scan cfg (by decide) rfl length_lengthHash _ [a] ok free after).1,
    card, length⟩

/-- The token 7 is cached in two namespaces and evicted from one: the consumer drops the block of
the other. -/
theorem removal_withdraws_other_namespace :
    ¬ ∀ (hq : Heapq) (cfg : Config) (clock : Nat → Int) (keys : List RadixKey) (s : RadixCache),
      0 < cfg.pageSize → cfg.enableKvCacheEvents = true → (∀ b, (cfg.sha256 b).length = 32) →
      KeysOk cfg keys → CollisionFree cfg keys → Emits hq cfg clock keys (fun _ _ => True) s →
      s.StreamFaithful := by
  intro claim
  let cfg : Config := { pageSize := 1, sha256 := lengthHash, enableKvCacheEvents := true }
  let a : RadixKey := { tokenIds := [7] }
  let b : RadixKey := { tokenIds := [7], extraKey := some "lora" }
  have ok : KeysOk cfg [a, b] := by simp [KeysOk, a, b]
  have free : CollisionFree cfg [a, b] := collisionFree_of_inits (by decide +kernel)
  have run : (followCalls scan [a, b] (init cfg (fun n => n))
      [.op (.insert a (some [10]) false 0), .op (.insert b (some [20]) false 0), .op (.evict 1)]).map
      (fun r => (r.pageSize, r.rootNode, (r.nodes 0).children.lookup (encPage 1 b.units),
        (r.nodes 2).key, replayEvents ∅ r.kvEventQueue)) = some (1, 0, some 2, b, ∅) := by
    decide +kernel
  obtain ⟨s, followed, facts⟩ := Option.map_eq_some_iff.mp run
  simp only [Prod.mk.injEq] at facts
  obtain ⟨size, root, found, key, lost⟩ := facts
  have faithful := claim scan cfg (fun n => n) [a, b] s (by decide) rfl length_lengthHash ok free
    (emits_of_followCalls _ .init (by simp) followed)
  have found : (RadixNode.children (s.nodes s.rootNode)).lookup (encPage 1 b.units) = some 2 := by
    rw [root]
    exact found
  have hseg : segOf s.nodes 2 = b.units := congrArg units key
  have cached : Cached s.pageSize s.rootNode s.nodes ([] ++ segOf s.nodes 2)
      (([] ++ valOf s.nodes 2).take ([] ++ segOf s.nodes 2).length) :=
    ⟨by rw [size]; exact one_dvd _, 2, _, _, .child .root found, prefix_rfl, rfl⟩
  have held := (faithful.1 _).mpr ⟨_, _, by rw [hseg]; decide, cached, rfl⟩
  rw [lost] at held
  cases held

end Radix

end RedKnot
