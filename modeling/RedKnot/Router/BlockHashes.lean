import RedKnot.MemCache.Radix.Events

/-! `compute_block_hashes` of `policies/kv_events/hash.rs` against the radix cache, which hashes
node by node. The SHA-256 function is the one of the cache. -/

namespace RedKnot.Router

open LinkedTree NodeHeap RadixKey Radix RadixCache Function List Nat Heapq UInt32

/-- `t.to_le_bytes()` -/
def toLeBytes (t : UInt32) : List UInt8 :=
  [t.toUInt8, (t >>> 8).toUInt8, (t >>> 16).toUInt8, (t >>> 24).toUInt8]

def chainBlock (sha256 : List UInt8 → Digest) (parentDigest : Option Digest)
    (blockTokens : List UInt32) : Digest :=
  sha256 (parentDigest.getD [] ++ blockTokens.flatMap toLeBytes)

/-- `i64::from_be_bytes` of the first eight bytes. -/
def sha256ToI64 (digest : Digest) : Int :=
  (BitVec.ofNat 64 ((digest.take 8).foldl (fun acc b => acc * 256 + b.toNat) 0)).toInt

/-- The loop of `compute_block_hashes`; every round takes at least one token. -/
def blockLoop (sha256 : List UInt8 → Digest) (tokenIds : List UInt32) (blockSize : Nat) :
    Nat → Nat → Option Digest → List Int
  | 0, _, _ => []
  | fuel + 1, start, prior =>
    if start < tokenIds.length then
      let stop := min (start + blockSize) tokenIds.length
      let digest := chainBlock sha256 prior ((tokenIds.take stop).drop start)
      sha256ToI64 digest :: blockLoop sha256 tokenIds blockSize fuel stop (some digest)
    else []

def computeBlockHashes (sha256 : List UInt8 → Digest) (tokenIds : List UInt32) (blockSize : Nat) :
    Option (List Int) :=
  if blockSize = 0 then none
  else if tokenIds.isEmpty then some []
  else some (blockLoop sha256 tokenIds blockSize tokenIds.length 0 none)

theorem toLeBytes_ofNat {t : Nat} (small : t < 2 ^ 32) : toLeBytes (ofNat t) = tokenBytes t := by
  have whole : (ofNat t).toNat = t := toNat_ofNat_of_lt small
  simp only [toLeBytes, tokenBytes, List.cons.injEq, and_true]
  refine ⟨?_, ?_, ?_, ?_⟩
  all_goals
    apply UInt8.toNat_inj.mp
    simp [UInt32.toNat_shiftRight, shiftRight_eq_div_pow, whole]

theorem foldl_bytes_lt (l : List UInt8) : ∀ acc k, acc < 256 ^ k →
    l.foldl (fun acc b => acc * 256 + b.toNat) acc < 256 ^ (k + l.length) := by
  induction l with
  | nil => exact fun acc k bound => bound
  | cons b l ih =>
    intro acc k bound
    have byte : b.toNat < 256 := UInt8.toNat_lt b
    have next := ih (acc * 256 + b.toNat) (k + 1) (by
      rw [pow_succ]
      omega)
    rw [foldl_cons, length_cons]
    convert next using 2
    omega

theorem sha256ToI64_eq (digest : Digest) : sha256ToI64 digest = hashStrToInt64 digest := by
  have bound := foldl_bytes_lt (digest.take 8) 0 0 (by decide)
  have short : 256 ^ (0 + (digest.take 8).length) ≤ 256 ^ 8 :=
    Nat.pow_le_pow_right (by decide) (by rw [length_take]; omega)
  unfold sha256ToI64 hashStrToInt64
  generalize (digest.take 8).foldl (fun acc b => acc * 256 + b.toNat) 0 = v at bound ⊢
  have fits : v < 2 ^ 64 := lt_of_lt_of_le (lt_of_lt_of_le bound short) (by decide)
  rw [BitVec.toInt_eq_toNat_cond, BitVec.toNat_ofNat, mod_eq_of_lt fits]
  split
  · rw [if_neg (by omega)]
  · rw [if_pos (by omega)]
    norm_num

def plainUnits (tokens : List Nat) : List KeyUnit := tokens.map (fun t => (none, .token t))

theorem flatMap_leBytes {tokens : List Nat} (small : ∀ t ∈ tokens, t < 2 ^ 32) :
    (tokens.map ofNat).flatMap toLeBytes = (plainUnits tokens).flatMap
      (fun u => gramBytes u.2) := by
  rw [plainUnits, flatMap_map, flatMap_map]
  exact flatMap_congr (fun t member => toLeBytes_ofNat (small t member))

variable {sha256 : List UInt8 → Digest} {tokens : List Nat} {b : Nat}

theorem take_blockLoop (small : ∀ t ∈ tokens, t < 2 ^ 32) (pos : 0 < b) :
    ∀ n fuel start prior, n ≤ fuel → start + n * b ≤ tokens.length →
      (blockLoop sha256 (tokens.map ofNat) b fuel start prior).take n =
        (digests sha256 b n ((plainUnits tokens).drop start) prior).map hashStrToInt64 := by
  intro n
  induction n with
  | zero => simp [digests]
  | succ n ih =>
    intro fuel start prior enough inside
    obtain ⟨fuel, rfl⟩ : ∃ f, fuel = f + 1 := ⟨fuel - 1, by omega⟩
    rw [succ_mul] at inside
    rw [blockLoop, if_pos (by rw [length_map]; omega)]
    have stop : min (start + b) (tokens.map ofNat).length = start + b := by
      rw [length_map]
      omega
    have page : chainBlock sha256 prior (((tokens.map ofNat).take (start + b)).drop start) =
        sha256 (blockBytes prior (((plainUnits tokens).drop start).take b)) := by
      rw [chainBlock, blockBytes, drop_take, Nat.add_sub_cancel_left, ← map_drop,
        ← map_take, flatMap_leBytes (fun t member => small t
          (mem_of_mem_drop (mem_of_mem_take member)))]
      simp only [plainUnits, map_take, map_drop]
    simp only [stop, page, take_succ_cons, sha256ToI64_eq]
    rw [ih fuel (start + b) _ (by omega) (by omega), digests, map_cons, drop_drop]

theorem computeBlockHashes_spec (sha256 : List UInt8 → Digest) (small : ∀ t ∈ tokens, t < 2 ^ 32)
    (pos : 0 < b) : ∃ hs, computeBlockHashes sha256 (tokens.map ofNat) b = some hs ∧
      ∀ n, n * b ≤ tokens.length → hs.take n = (range n).map (fun i =>
        blockHash sha256 b ((plainUnits tokens).take ((i + 1) * b))) := by
  unfold computeBlockHashes
  rw [if_neg pos.ne']
  split
  · rename_i empty
    have nil : tokens = [] := by simpa using empty
    refine ⟨[], rfl, fun n inside => ?_⟩
    have zero : n = 0 := by
      rw [nil, length_nil] at inside
      rcases Nat.mul_eq_zero.mp (le_zero.mp inside) with zero | zero
      · exact zero
      · omega
    simp [zero]
  · refine ⟨_, rfl, fun n inside => ?_⟩
    have enough : n ≤ (tokens.map ofNat).length := by
      rw [length_map]
      exact (Nat.le_mul_of_pos_right n pos).trans inside
    rw [take_blockLoop small pos n _ 0 none enough (by omega), drop_zero,
      digests_eq_map pos (by simpa [plainUnits] using inside), map_map]
    rfl

def before (sha256 : List UInt8 → Digest) (P : Nat) (w : List KeyUnit) : Option Int :=
  if w = [] then none else some (blockHash sha256 P w)

def pageEvent (sha256 : List UInt8 → Digest) (P : Nat) (w : List KeyUnit) : KVCacheEvent :=
  .blockStored [blockHash sha256 P w] (before sha256 P (w.take (w.length - P)))
    (grams (w.drop (w.length - P))) P .gpu

def pathEvents (sha256 : List UInt8 → Digest) (P : Nat) (w : List KeyUnit) : List KVCacheEvent :=
  (range (w.length / P)).map (fun i => pageEvent sha256 P (w.take ((i + 1) * P)))

variable {P : Nat}

theorem pageEvent_append (sha256 : List UInt8 → Digest) (v : List KeyUnit) {us : List KeyUnit}
    {i : Nat}
    (inside : (i + 1) * P ≤ us.length) :
    pageEvent sha256 P (v ++ us.take ((i + 1) * P)) =
      .blockStored [blockHash sha256 P (v ++ us.take ((i + 1) * P))]
        (before sha256 P (v ++ us.take (i * P)))
          (grams (pySlice us (i * P) ((i + 1) * P))) P .gpu := by
  have size : (v ++ us.take ((i + 1) * P)).length - P = v.length + i * P := by
    rw [length_append, length_take_of_le inside, succ_mul]
    omega
  have fewer : i * P ≤ (i + 1) * P := Nat.mul_le_mul_right _ (le_succ i)
  rw [pageEvent, size, take_length_add_append, drop_length_add_append, take_take,
    Nat.min_eq_left fewer]
  rfl

theorem storedEvents_eq (sha256 : List UInt8 → Digest) (pos : 0 < P) (k : RadixKey)
    (v : List KeyUnit) (m : Nat) : ∀ i, (i + m) * P ≤ k.units.length →
    storedEvents k P ((range' i m).map
      (fun j => blockHash sha256 P (v ++ k.units.take ((j + 1) * P))))
        i (before sha256 P (v ++ k.units.take (i * P))) =
      (range' i m).map (fun j => pageEvent sha256 P (v ++ k.units.take ((j + 1) * P))) := by
  induction m with
  | zero => exact fun i _ => rfl
  | succ m ih =>
    intro i inside
    rw [range'_succ, map_cons, map_cons, storedEvents]
    have here : (i + 1) * P ≤ k.units.length :=
      (Nat.mul_le_mul_right P (by omega)).trans inside
    have long : (pySlice k.units (i * P) ((i + 1) * P)).length = P := by
      rw [pySlice, length_drop, length_take_of_le here, succ_mul, Nat.add_sub_cancel_left]
    have next := ih (i + 1) (by rwa [Nat.add_right_comm])
    have some : v ++ k.units.take ((i + 1) * P) ≠ [] := by
      intro none
      have empty := congrArg List.length none
      rw [length_append, length_take_of_le here, succ_mul, length_nil] at empty
      omega
    rw [before, if_neg some] at next
    rw [pageEvent_append _ _ here, next, length_map, long]
    rfl

theorem pathEvents_append {v us : List KeyUnit} (paged : P ∣ v.length) (pos : 0 < P) :
    pathEvents sha256 P (v ++ us) = pathEvents sha256 P v ++ (range' 0 (us.length / P)).map
        (fun j => pageEvent sha256 P (v ++ us.take ((j + 1) * P))) := by
  obtain ⟨c, hc⟩ := paged
  have pages : (v ++ us).length / P = c + us.length / P := by
    rw [length_append, hc, mul_add_div pos]
  have own : v.length / P = c := by rw [hc, Nat.mul_div_cancel_left _ pos]
  unfold pathEvents
  rw [pages, own, range_add, map_append, map_map, ← range_eq_range']
  congr 1
  · refine map_congr_left (fun i member => ?_)
    have inside : (i + 1) * P ≤ v.length := by
      rw [hc, Nat.mul_comm P c]
      exact Nat.mul_le_mul_right _ (mem_range.mp member)
    rw [take_append_of_le_length inside]
  · refine map_congr_left (fun i _ => ?_)
    have place : (c + i + 1) * P = v.length + (i + 1) * P := by
      rw [hc]
      ring
    simp only [comp, place, take_length_add_append]

theorem pathEvents_initial {w v : List KeyUnit} (paged : P ∣ w.length) (pos : 0 < P)
    (within : w <+: v) :
    pathEvents sha256 P w <+: pathEvents sha256 P v := by
  obtain ⟨us, rfl⟩ := within
  rw [pathEvents_append paged pos]
  exact prefix_append _ _

/-- Every stored event is that of a page of some key, and the events of a cached word are there in
their order. -/
structure Publishes (cfg : Config) (keys : List RadixKey) (s : RadixCache) : Prop where
  pages : ∀ hs parent toks size medium, .blockStored hs parent toks size medium ∈ s.kvEventQueue →
    ∃ w, IsPage cfg keys w ∧
      .blockStored hs parent toks size medium = pageEvent cfg.sha256 cfg.pageSize w
  paths : ∀ w vs, Cached cfg.pageSize s.rootNode s.nodes w vs →
    (pathEvents cfg.sha256 cfg.pageSize w).Sublist s.kvEventQueue

structure Serves (cfg : Config) (keys : List RadixKey) (s : RadixCache) (G : Outline) : Prop where
  cfg_eq : s.cfg = cfg
  events : cfg.enableKvCacheEvents = true
  inv : Inv s G
  hashed : Hashed s G
  publishes : Publishes cfg keys s

variable {cfg : Config} {keys : List RadixKey} {s s' : RadixCache} {G G' : Outline} {p x : NodeId}

theorem Serves.enabled (t : Serves cfg keys s G) : s.cfg.enableKvCacheEvents = true := by
  rw [t.cfg_eq]
  exact t.events

theorem Publishes.of_fewer (es : List KVCacheEvent) (t : Publishes cfg keys s)
    (queue : s'.kvEventQueue = s.kvEventQueue ++ es)
    (silent : ∀ hs parent toks size medium, .blockStored hs parent toks size medium ∉ es)
    (fewer : ∀ w vs, Cached cfg.pageSize s'.rootNode s'.nodes w vs →
      w = [] ∨ Cached cfg.pageSize s.rootNode s.nodes w vs) : Publishes cfg keys s' := by
  constructor
  · intro hs parent toks size medium member
    rw [queue] at member
    rcases mem_append.mp member with old | new
    · exact t.pages hs parent toks size medium old
    · exact absurd new (silent _ _ _ _ _)
  · intro w vs cached
    rw [queue]
    rcases fewer w vs cached with rfl | cached
    · simp [pathEvents]
    · exact (t.paths w vs cached).trans (sublist_append_left _ _)

theorem Serves.reshape (t : Serves cfg keys s G) (r : Reshape s G s' G') :
    Serves cfg keys s' G' := by
  refine ⟨r.cfg.trans t.cfg_eq, t.events, r.inv t.inv, t.hashed.reshape r t.inv t.enabled,
    t.publishes.of_fewer [] (by rw [r.kvEventQueue, append_nil]) (by simp) ?_⟩
  intro w vs cached
  rw [← t.cfg_eq] at cached ⊢
  exact .inr ((r.cached t.inv).mp cached)

theorem Serves.locks {ns : List NodeId} {d : Int} (t : Serves cfg keys s G) (e : LocksTo s s' ns d)
    (chain : ∀ n ∈ ns, n ∈ G.live ∧ n ≠ s.rootNode) : Serves cfg keys s' G := by
  have tree : IsRadixTree s.pageSize s.rootNode s.counter s'.nodes G := t.inv.tree.congr e.sameLinks
  refine ⟨e.cfg.trans t.cfg_eq, t.events, t.inv.locks e chain, t.hashed.locks e,
    t.publishes.of_fewer [] (by rw [e.rest, append_nil]) (by simp) ?_⟩
  intro w vs cached
  rw [← t.cfg_eq] at cached ⊢
  refine .inr ?_
  rwa [e.rootNode, tree.cached_iff, seg_congr e.sameLinks,
    valOf_congr e.sameLinks, ← t.inv.tree.cached_iff] at cached

theorem Serves.remove (t : Serves cfg keys s G) (g : Leaf s G p x) (e : RemovesTo s s' p x) :
    Serves cfg keys s' (G.detach x) := by
  refine ⟨e.cfg.trans t.cfg_eq, t.events, t.inv.remove g e, t.hashed.remove e,
    t.publishes.of_fewer _ (e.removed t.enabled) (by simp) ?_⟩
  intro w vs cached
  rw [← t.cfg_eq] at cached ⊢
  rw [e.rootNode, t.inv.tree.cached_drop e.links g.live g.inner g.up g.childless] at cached
  exact .inr cached.1

theorem Serves.evicts {want n n' : Nat} {cand xs : List NodeId}
    (v : Evicts want s G cand n xs s' G' n') (t : Serves cfg keys s G) : Serves cfg keys s' G' := by
  induction v with
  | enough => exact t
  | dry => exact t
  | take _ _ _ g e _ _ ih => exact ih (t.remove g e)

theorem Serves.reset (pos : 0 < cfg.pageSize) (events : cfg.enableKvCacheEvents = true)
    (hcfg : s.cfg = cfg) (stored : ∀ hs parent toks size medium,
      .blockStored hs parent toks size medium ∈ s.kvEventQueue → ∃ w, IsPage cfg keys w ∧
        .blockStored hs parent toks size medium = pageEvent cfg.sha256 cfg.pageSize w)
    (e : ResetsTo s s') : Serves cfg keys s' (bareOutline s.counter) := by
  have hcfg' : s'.cfg = cfg := by rw [e.rest, hcfg]
  have inv := inv_reset (by rw [RadixCache.pageSize, hcfg]; exact pos) e
  have queue : s'.kvEventQueue = s.kvEventQueue ++ [.allBlocksCleared] := by
    rw [e.rest]
    simp [hcfg, events]
  refine ⟨hcfg', events, inv, hashed_reset e, ?_, ?_⟩
  · intro hs parent toks size medium member
    rw [queue] at member
    exact stored hs parent toks size medium (by simpa using member)
  · intro w vs cached
    rw [← hcfg'] at cached
    obtain ⟨-, n, -, within, -⟩ := inv.tree.cached_iff.mp cached
    have empty : w = [] := prefix_nil.mp within
    simp [empty, pathEvents]

theorem parentBlock_eq (t : Serves cfg keys s G) (hp : p ∈ G.live) :
    s.parentBlock p = before s.cfg.sha256 s.pageSize (G.along (segOf s.nodes) p) := by
  have tree := t.inv.tree
  have pos := tree.page_pos
  unfold parentBlock before
  by_cases top : p = s.rootNode
  · have none : G.along (segOf s.nodes) p = [] := top ▸ tree.shape.along_root _
    rw [if_pos top, if_pos none]
  · obtain ⟨some, -⟩ := t.inv.hashValue_eq t.enabled hp top
    obtain ⟨q, -, hq⟩ := tree.keys.has_parent hp top
    obtain ⟨j, hj⟩ := tree.labelled.path_paged hp
    have page : s.pageSize ≤ (G.along (segOf s.nodes) p).length := by
      rw [show G.along (segOf s.nodes) p = _ from tree.shape.along_up (segOf s.nodes) hp top hq,
        length_append, segOf, length_units]
      exact (tree.keys.page_le hp top).trans (Nat.le_add_left _ _)
    have jpos : 0 < j := by
      rcases Nat.eq_zero_or_pos j with rfl | jpos
      · rw [hj, Nat.mul_zero] at page
        omega
      · exact jpos
    have last := t.hashed.seedOf_eq t.inv t.enabled hp
    rw [if_neg top, if_neg (ne_nil_of_length_pos (lt_of_lt_of_le pos page)), some]
    have long : 0 < (s.nodes p).key.len := lt_of_lt_of_le pos (tree.keys.page_le hp top)
    have seed : s.seedOf p = (s.hashOf p).getLast? := by simp [seedOf, some, long]
    have final : (s.hashOf p).getLast? =
        Option.some (s.cfg.sha256
          (blockInput s.cfg.sha256 s.pageSize (G.along (segOf s.nodes) p))) := by
      rw [← seed, last, t.hashed.chain p hp, digests_eq_map pos (div_mul_le_self _ _), hj,
        Nat.mul_div_cancel_left _ pos]
      obtain ⟨j, rfl⟩ : ∃ k, j = k + 1 := ⟨j - 1, by omega⟩
      rw [range_succ, map_append, map_singleton, getLast?_append,
        getLast?_singleton, Option.some_or, Nat.mul_comm (j + 1), ← hj, take_length]
    simp only [Option.bind_eq_bind, Option.bind_some, final]
    rfl

theorem Serves.hang {k : RadixKey} {v : List Slot} (t : Serves cfg keys s G) (g : Hangs s G p k v)
    (e : HangsTo s s' p k v)
    (listed : ∃ key ∈ keys, G.along (segOf s.nodes) p ++ k.units = (cfg.viewKey key).units) :
    Serves cfg keys s' (G.attach p s.counter) := by
  have tree := t.inv.tree
  have pos := tree.page_pos
  have inv := t.inv.hang g e
  have hashed := t.hashed.hang t.inv t.enabled g e
  obtain ⟨seg, fresh, word, top⟩ := e.words t.inv g
  have size : s'.pageSize = s.pageSize := by rw [RadixCache.pageSize, e.cfg]
  obtain ⟨hs, -, new, queue⟩ := e.stored t.enabled
  have own : s'.hashOf s.counter = hs := by rw [hashOf, new, Option.getD_some]
  have paged := tree.labelled.path_paged g.live
  have parent := parentBlock_eq t g.live
  have known := tree.cached_word g.live
  have cached := e.cached t.inv g
  generalize hw : G.along (segOf s.nodes) p = w at *
  obtain ⟨c, hc⟩ := paged
  have place : ∀ j, (w ++ k.units).take ((c + j + 1) * s.pageSize) =
      w ++ k.units.take ((j + 1) * s.pageSize) := by
    intro j
    rw [show (c + j + 1) * s.pageSize = w.length + (j + 1) * s.pageSize by rw [hc]; ring,
      take_length_add_append]
  -- The hashes of the leaf, and so its events, are those of the words that end inside it.
  have blocks : hs.map hashStrToInt64 = (range' 0 (k.units.length / s.pageSize)).map
      (fun j => blockHash s.cfg.sha256 s.pageSize (w ++ k.units.take ((j + 1) * s.pageSize))) := by
    have pages : (w ++ k.units).length / s.pageSize = c + k.units.length / s.pageSize := by
      rw [length_append, hc, mul_add_div pos]
    rw [← own, hashed.hashOf_eq inv (Finset.mem_insert_self _ _) fresh e.links.new_parent, word,
      top, size, e.cfg, pages, hc, Nat.mul_div_cancel_left _ pos, range_eq_range',
      drop_range',
      map_map, range'_eq_map_range, range'_eq_map_range, map_map, map_map]
    simp only [Nat.add_sub_cancel_left, Nat.zero_add, Nat.mul_one]
    refine map_congr_left (fun j _ => ?_)
    simp only [comp, place, blockHash]
  have inside : (0 + k.units.length / s.pageSize) * s.pageSize ≤ k.units.length := by
    rw [Nat.zero_add]
    exact div_mul_le_self _ _
  have added := storedEvents_eq s.cfg.sha256 pos k w (k.units.length / s.pageSize) 0 inside
  rw [Nat.zero_mul, take_zero, append_nil, ← parent, ← blocks] at added
  rw [added] at queue
  obtain rfl := t.cfg_eq
  refine ⟨e.cfg, t.events, inv, hashed, ?_, ?_⟩
  · intro hs' parent' toks sz medium member
    rw [queue] at member
    rcases mem_append.mp member with old | fresh'
    · exact t.publishes.pages _ _ _ _ _ old
    · obtain ⟨j, bound, eq⟩ := mem_map.mp fresh'
      have bound : (j + 1) * s.pageSize ≤ k.units.length := by
        have below := (mem_range'_1.mp bound).2
        exact (Nat.mul_le_mul_right _ (by omega)).trans inside
      have length : (w ++ k.units.take ((j + 1) * s.pageSize)).length =
        (c + j + 1) * s.pageSize := by
        rw [length_append, length_take_of_le bound, hc]
        ring
      obtain ⟨key, hkey, whole⟩ := listed
      refine ⟨_, ⟨ne_nil_of_length_pos (by rw [length]; positivity), ?_, key, hkey, ?_⟩,
        eq.symm⟩
      · rw [length]
        exact Dvd.intro_left _ rfl
      · rw [← whole, ← place]
        exact take_prefix _ _
  · intro v vs here
    rw [queue]
    rcases (cached v vs).mp here with old | ⟨vpaged, within, -⟩
    · exact (t.publishes.paths v vs old).trans (sublist_append_left _ _)
    · have early := t.publishes.paths w _ known
      refine (pathEvents_initial vpaged pos within).sublist.trans ?_
      rw [pathEvents_append ⟨c, hc⟩ pos]
      exact early.append (Sublist.refl _)

theorem Serves.performs {op : Op} {reply : Reply} (t : Serves cfg keys s G)
    (allowed : s.CallOk keys (.op op)) (done : Performs s G op reply s' G') :
      Serves cfg keys s' G' := by
  cases done with
  | idle => exact t
  | matched _ r => exact t.reshape r
  | inserted _ _ _ _ i =>
    cases i with
    | present r _ _ => exact t.reshape r
    | grown r word _ g e =>
      rw [t.cfg_eq] at word
      exact (t.reshape r).hang g e ⟨_, allowed.2, word.symm⟩
  | incremented _ _ live e => exact t.locks e (t.inv.tree.shape.chain_live live)
  | decremented _ _ live e => exact t.locks e (t.inv.tree.shape.chain_live live)
  | evicted _ v => exact Serves.evicts v t

theorem serves_of_emits {hq : Heapq} {clock : Nat → Int} {guard : RadixCache → Call → Prop}
    (pos : 0 < cfg.pageSize) (events : cfg.enableKvCacheEvents = true)
    (run : Emits hq cfg clock keys guard s) : ∃ G, Serves cfg keys s G := by
  induction run with
  | init => exact ⟨_, Serves.reset pos events rfl (by simp) (init_resetsTo cfg clock)⟩
  | @step s t c _ allowed _ ran ih =>
    obtain ⟨G, serves⟩ := ih
    cases c with
    | op op =>
      obtain ⟨reply, t', G', ran', done⟩ := exec_spec hq serves.inv op allowed.1
      simp only [call, ran'] at ran
      cases ran
      exact ⟨G', serves.performs allowed done⟩
    | reset =>
      cases ran
      exact ⟨_, Serves.reset pos events serves.cfg_eq serves.publishes.pages (reset_spec s)⟩

inductive StoredTo (s : RadixCache) : NodeId → List KeyUnit → List Digest → Prop where
  | root : StoredTo s s.rootNode [] []
  | child {p c : NodeId} {k : ChildKey} {us : List KeyUnit} {ds : List Digest}
      (way : StoredTo s p us ds)
      (found : (s.nodes p).children.lookup k = some c) :
      StoredTo s c (us ++ segOf s.nodes c) (ds ++ s.hashOf c)

theorem StoredTo.along {us : List KeyUnit} {ds : List Digest} (way : StoredTo s x us ds)
    (h : Inv s G) :
    x ∈ G.live ∧ us = G.along (segOf s.nodes) x ∧ ds = G.along s.hashOf x := by
  have shape := h.tree.shape
  induction way with
  | root => exact ⟨shape.root_live, (shape.along_root _).symm, (shape.along_root _).symm⟩
  | @child p c k us ds _ found ih =>
    obtain ⟨hp, rfl, rfl⟩ := ih
    obtain ⟨hc, inner, hparent, -⟩ := shape.down p hp k c found
    exact ⟨hc, (shape.along_up _ hc inner hparent).symm, (shape.along_up _ hc inner hparent).symm⟩

def hashBefore (hs : List Int) (i : Nat) : Option Int := if i = 0 then none else hs[i - 1]?

theorem pageEvent_router {hs : List Int} {n i : Nat} (pos : 0 < P)
    (agree : ∀ n, n * P ≤ tokens.length → hs.take n = (range n).map (fun i =>
      blockHash sha256 P ((plainUnits tokens).take ((i + 1) * P))))
    (inside : n * P ≤ tokens.length) (below : i < n) :
    pageEvent sha256 P ((plainUnits tokens).take ((i + 1) * P)) =
      .blockStored [hs.getD i 0] (hashBefore hs i)
        (((tokens.take ((i + 1) * P)).drop (i * P)).map .token)
        P .gpu := by
  have entry : ∀ j, (j + 1) * P ≤ tokens.length →
      hs[j]? = some (blockHash sha256 P ((plainUnits tokens).take ((j + 1) * P))) := by
    intro j room
    have part := congrArg (fun l => l[j]?) (agree (j + 1) room)
    simpa using part
  have room : (i + 1) * P ≤ tokens.length := (Nat.mul_le_mul_right P below).trans inside
  have units : (plainUnits tokens).length = tokens.length := by simp [plainUnits]
  have first := pageEvent_append sha256 [] (units ▸ room)
  rw [nil_append, nil_append] at first
  rw [first, getD_eq_getElem?_getD, entry i room, Option.getD_some]
  have parent : before sha256 P ((plainUnits tokens).take (i * P)) = hashBefore hs i := by
    unfold before hashBefore
    rcases Nat.eq_zero_or_pos i with rfl | ipos
    · simp
    · have fewer : i * P ≤ tokens.length :=
        (Nat.mul_le_mul_right P (le_succ i)).trans room
      have some : (plainUnits tokens).take (i * P) ≠ [] := by
        apply ne_nil_of_length_pos
        rw [length_take_of_le (units ▸ fewer)]
        positivity
      obtain ⟨j, rfl⟩ : ∃ j, i = j + 1 := ⟨i - 1, by omega⟩
      rw [if_neg some, if_neg (succ_ne_zero j), Nat.add_sub_cancel, entry j fewer]
  have page : grams (pySlice (plainUnits tokens) (i * P) ((i + 1) * P)) =
      ((tokens.take ((i + 1) * P)).drop (i * P)).map .token := by
    simp only [pySlice, plainUnits, grams, ← map_take, ← map_drop, map_map]
    rfl
  rw [parent, page]

theorem plain_of_isPage {w : List KeyUnit} (isPage : IsPage cfg keys w)
    (notEagle : cfg.isEagle = false)
    (plain : ∀ k ∈ keys, k.extraKey = none ∧ k.isBigram = false ∧ ∀ t ∈ k.tokenIds, t < 2 ^ 32) :
    ∃ tokens, w = plainUnits tokens ∧ ∀ t ∈ tokens, t < 2 ^ 32 := by
  obtain ⟨-, -, k, hk, within⟩ := isPage
  have ok : KeysOk cfg keys := fun k hk => ⟨(plain k hk).2.2, by simp [(plain k hk).2.1]⟩
  have word := wordOk_viewKey ok hk
  rw [notEagle] at word
  have each : ∀ u ∈ w, ∃ t, u = (none, .token t) ∧ t < 2 ^ 32 := by
    intro u hu
    have gram := word u (within.subset hu)
    have tag := (viewKey_tag cfg k u (within.subset hu)).trans (plain k hk).1
    obtain ⟨ns, g⟩ := u
    cases g with
    | token t => exact ⟨t, by rw [← tag], gram.2⟩
    | bigram a b => cases gram.1
  clear within
  induction w with
  | nil => exact ⟨[], rfl, by simp⟩
  | cons u w ih =>
    obtain ⟨t, rfl, small⟩ := each u mem_cons_self
    obtain ⟨tokens, rfl, rest⟩ := ih (fun u hu => each u (mem_cons_of_mem _ hu))
    exact ⟨t :: tokens, rfl, forall_mem_cons.mpr ⟨small, rest⟩⟩

/-- The hashes kept and published for a cached prefix are the first ones of the router, and every
published block has the router's parent. -/
theorem router_hashes_agree (hq : Heapq) (cfg : Config) (pos : 0 < cfg.pageSize)
    (events : cfg.enableKvCacheEvents = true) (notEagle : cfg.isEagle = false) (clock : Nat → Int)
    (keys : List RadixKey)
    (plain : ∀ k ∈ keys, k.extraKey = none ∧ k.isBigram = false ∧ ∀ t ∈ k.tokenIds, t < 2 ^ 32)
    {s : RadixCache} (run : Emits hq cfg clock keys (fun _ _ => True) s) :
    (∀ (tokens : List Nat) (n : Nat) (vs : List Slot), (∀ t ∈ tokens, t < 2 ^ 32) →
      n * cfg.pageSize ≤ tokens.length →
      Cached cfg.pageSize s.rootNode s.nodes (plainUnits (tokens.take (n * cfg.pageSize))) vs →
      ∃ hs, computeBlockHashes cfg.sha256 (tokens.map ofNat) cfg.pageSize = some hs ∧
        (∀ node us ds, StoredTo s node us ds → plainUnits (tokens.take (n * cfg.pageSize)) <+: us →
          (ds.take n).map hashStrToInt64 = hs.take n) ∧
        ((range n).map (fun i => .blockStored [hs.getD i 0] (hashBefore hs i)
          (((tokens.take ((i + 1) * cfg.pageSize)).drop (i * cfg.pageSize)).map .token)
          cfg.pageSize .gpu)).Sublist s.kvEventQueue) ∧
    (∀ blocks parent toks size medium,
      .blockStored blocks parent toks size medium ∈ s.kvEventQueue →
      ∃ (tokens : List Nat) (n : Nat) (hs : List Int), tokens.length = (n + 1) * cfg.pageSize ∧
        computeBlockHashes cfg.sha256 (tokens.map ofNat) cfg.pageSize = some hs ∧
        blocks = [hs.getD n 0] ∧ parent = hashBefore hs n ∧
        toks = (tokens.drop (n * cfg.pageSize)).map .token) := by
  obtain ⟨G, serves⟩ := serves_of_emits pos events run
  constructor
  · intro tokens n vs small inside cached
    obtain ⟨hs, computed, agree⟩ := computeBlockHashes_spec cfg.sha256 small pos
    have units : plainUnits (tokens.take (n * cfg.pageSize)) =
        (plainUnits tokens).take (n * cfg.pageSize) := by simp [plainUnits, map_take]
    have length : ((plainUnits tokens).take (n * cfg.pageSize)).length = n * cfg.pageSize := by
      rw [length_take_of_le]
      simpa [plainUnits] using inside
    refine ⟨hs, computed, ?_, ?_⟩
    · intro node us ds way within
      obtain ⟨live, rfl, rfl⟩ := way.along serves.inv
      rw [units] at within
      have whole := within.length_le
      rw [length] at whole
      have same := prefix_iff_eq_take.mp within
      rw [length] at same
      have enough : n ≤ (G.along (segOf s.nodes) node).length / cfg.pageSize :=
        (Nat.le_div_iff_mul_le pos).mpr whole
      rw [serves.hashed.chain node live, RadixCache.pageSize, serves.cfg_eq,
        digests_eq_map pos (div_mul_le_self _ _), ← map_take, take_range,
        Nat.min_eq_left enough, map_map, agree n inside]
      refine map_congr_left (fun i member => ?_)
      have below : (i + 1) * cfg.pageSize ≤ n * cfg.pageSize :=
        Nat.mul_le_mul_right _ (mem_range.mp member)
      have page := congrArg (List.take ((i + 1) * cfg.pageSize)) same
      rw [take_take, take_take, Nat.min_eq_left below] at page
      rw [comp, ← page]
      rfl
    · have published := serves.publishes.paths _ _ cached
      rw [units, pathEvents, length, Nat.mul_div_cancel _ pos] at published
      convert published using 1
      refine map_congr_left (fun i member => ?_)
      have below := mem_range.mp member
      rw [take_take, Nat.min_eq_left (Nat.mul_le_mul_right _ below),
        pageEvent_router pos agree inside below]
  · intro blocks parent toks size medium member
    obtain ⟨w, isPage, eq⟩ := serves.publishes.pages _ _ _ _ _ member
    obtain ⟨tokens, rfl, small⟩ := plain_of_isPage isPage notEagle plain
    obtain ⟨some, ⟨m, hm⟩, -⟩ := isPage
    obtain ⟨hs, computed, agree⟩ := computeBlockHashes_spec cfg.sha256 small pos
    have length : tokens.length = m * cfg.pageSize := by
      rw [Nat.mul_comm, ← hm]
      simp [plainUnits]
    obtain ⟨n, rfl⟩ : ∃ n, m = n + 1 := by
      rcases m with - | n
      · rw [Nat.mul_zero] at hm
        exact absurd (length_eq_zero_iff.mp hm) some
      · exact ⟨n, rfl⟩
    have last := pageEvent_router pos agree length.ge (lt_succ_self n)
    rw [← length, take_length, take_of_length_le (by simp [plainUnits]), ← eq] at last
    obtain ⟨rfl, rfl, rfl, -, -⟩ := KVCacheEvent.blockStored.inj last
    exact ⟨tokens, n, hs, length, computed, rfl, rfl, rfl⟩

theorem four_tokens_agree :
    let cfg : Config := { pageSize := 2, sha256 := lengthHash, enableKvCacheEvents := true }
    let a : RadixKey := { tokenIds := [1, 2, 3, 4] }
    ∃ s, Emits scan cfg (fun n => n) [a] (fun _ _ => True) s ∧
      ∀ blocks parent toks size medium,
        .blockStored blocks parent toks size medium ∈ s.kvEventQueue →
        ∃ (tokens : List Nat) (n : Nat) (hs : List Int), tokens.length = (n + 1) * 2 ∧
          computeBlockHashes lengthHash (tokens.map ofNat) 2 = some hs ∧
          blocks = [hs.getD n 0] ∧ parent = hashBefore hs n ∧
            toks = (tokens.drop (n * 2)).map .token := by
  intro cfg a
  have run : (followCalls scan [a] (init cfg (fun n => n))
      [.op (.insert a (some [10, 11, 12, 13]) false 0)]).isSome := by decide +kernel
  obtain ⟨s, followed⟩ := Option.isSome_iff_exists.mp run
  have emitted : Emits scan cfg (fun n => n) [a] (fun _ _ => True) s :=
    emits_of_followCalls _ .init (by simp) followed
  exact ⟨s, emitted, (router_hashes_agree scan cfg (by decide) rfl rfl _ [a]
    (by decide) emitted).2⟩

end RedKnot.Router
