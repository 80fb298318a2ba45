import RedKnot.Lib.TreeLocks
import RedKnot.MemCache.Radix.Refinement

/-! The books of `RadixCache`: lock counts, the two sizes and the set of evictable leaves. -/

namespace RedKnot.Radix

open LinkedTree NodeHeap RadixKey Function Finset List Heapq

def Op.locks (L : List NodeId) : Op → List NodeId
  | .incLockRef node => node :: L
  | .decLockRef node => L.erase node
  | _ => L

namespace RadixCache

def Balanced (s : RadixCache) (L : List NodeId) : Op → Prop
  | .insert key value _ _ => s.cfg.InsertOk key value
  | .incLockRef node => s.links.InTree node
  | .decLockRef node => node ∈ L
  | _ => True

/-- The states of a new cache under operations with balanced locks, each with the locks
outstanding there. -/
inductive Reaches (hq : Heapq) (cfg : Config) (clock : Nat → Int) :
    RadixCache → List NodeId → Prop where
  | init : Reaches hq cfg clock (init cfg clock) []
  | step {s t : RadixCache} {L : List NodeId} {op : Op} {reply : Reply}
      (before : Reaches hq cfg clock s L) (balanced : s.Balanced L op)
      (ran : s.exec hq op = .ok (reply, t)) : Reaches hq cfg clock t (op.locks L)

def freeLen (s : RadixCache) (n : NodeId) : Int :=
  freeShare (s.nodes n).lockRef (s.nodes n).key.len

def heldLen (s : RadixCache) (n : NodeId) : Int := (s.nodes n).key.len - s.freeLen n

structure Books (s : RadixCache) (G : Outline) (L : List NodeId) : Prop where
  inv : Inv s G
  held : ∀ m ∈ L, m ∈ G.live
  lock : ∀ n ∈ G.live, n ≠ s.rootNode → (s.nodes n).lockRef = G.holders L n
  evictable : s.evictableSize = G.total s.rootNode s.freeLen
  guarded : s.protectedSize = G.total s.rootNode s.heldLen
  leaves : ∀ n, n ∈ s.evictableLeaves ↔
    n ∈ G.live ∧ n ≠ s.rootNode ∧ (s.nodes n).children = ∅ ∧ (s.nodes n).lockRef = 0

variable {s s' : RadixCache} {G G' : Outline} {L L' : List NodeId}

theorem Books.lock_nonneg (b : Books s G L) {n : NodeId} (live : n ∈ G.live)
    (inner : n ≠ s.rootNode) : 0 ≤ (s.nodes n).lockRef := by
  rw [b.lock n live inner]
  exact Int.natCast_nonneg _

theorem freeLen_congr {n : NodeId} (lock : (s'.nodes n).lockRef = (s.nodes n).lockRef)
    (key : (s'.nodes n).key.len = (s.nodes n).key.len) :
    s'.freeLen n = s.freeLen n ∧ s'.heldLen n = s.heldLen n := by
  unfold heldLen freeLen
  rw [lock, key]
  exact ⟨rfl, rfl⟩

theorem books_reset (pos : 0 < s.pageSize) (e : ResetsTo s s') :
    Books s' (bareOutline s.counter) [] := by
  have root : s'.rootNode = s.counter := by rw [e.rest]
  have bare : ∀ n ∈ (bareOutline s.counter).live, n = s'.rootNode := by
    intro n hn
    rw [root]
    exact Finset.mem_singleton.mp hn
  have none : ∀ f : NodeId → Int, (bareOutline s.counter).total s'.rootNode f = 0 := by
    intro f
    unfold Outline.total
    rw [root]
    simp [bareOutline]
  refine ⟨inv_reset pos e, by simp, ?_, ?_, ?_, ?_⟩
  · exact fun n hn inner => absurd (bare n hn) inner
  · rw [none, e.rest]
  · rw [none, e.rest]
  · intro n
    have empty : s'.evictableLeaves = [] := by rw [e.rest]
    rw [empty]
    constructor
    · intro hn
      cases hn
    · exact fun h => absurd (bare n h.1) h.2.1

theorem Books.touched (b : Books s G L) (t : Touched s s') : Books s' G L := by
  have same : ∀ n, s'.freeLen n = s.freeLen n ∧ s'.heldLen n = s.heldLen n := fun n =>
    freeLen_congr (t.nodes n).lockRef (congrArg len (t.sameLinks n).key)
  refine ⟨b.inv.touched t, b.held, ?_, ?_, ?_, ?_⟩
  · intro n live inner
    rw [(t.nodes n).lockRef]
    exact b.lock n live (t.rootNode ▸ inner)
  · rw [t.rootNode, Outline.total_congr (fun n _ _ => (same n).1), ← b.evictable, t.rest]
  · rw [t.rootNode, Outline.total_congr (fun n _ _ => (same n).2), ← b.guarded, t.rest]
  · intro n
    have hchildren : (s'.nodes n).children = (s.nodes n).children := (t.sameLinks n).children
    rw [t.evictableLeaves, t.rootNode, hchildren, (t.nodes n).lockRef]
    exact b.leaves n

variable {m p : NodeId}

section

variable (b : Books s G L)
include b

theorem Books.split {c : NodeId} {len : Nat} (hc : c ∈ G.live)
    (inner : c ≠ s.rootNode) (up : (s.nodes c).parent = some p) (pos : 0 < len)
    (proper : len < (s.nodes c).key.len) (paged : s.pageSize ∣ len) (e : SplitsTo s s' p c len) :
    Books s' (G.split p c s.counter) L := by
  have tree := b.inv.tree
  have shape := tree.shape
  have lock : ∀ n ∈ G.live, (s'.nodes n).lockRef = (s.nodes n).lockRef := fun n hn =>
    e.other_lock n (tree.ne_next hn)
  have upper : (s'.nodes s.counter).key.len = len := by
    have hkey : (s'.nodes s.counter).key = (s.nodes c).key.upTo len := e.links.upper_key
    rw [hkey, len_upTo, min_eq_left proper.le]
  have lower : (s'.nodes c).key.len = (s.nodes c).key.len - len := by
    have hkey : (s'.nodes c).key = (s.nodes c).key.fromIdx len := e.links.lower_key
    rw [hkey, len_fromIdx]
  -- Both halves carry the count of the node, so its share is cut with the key.
  have halves : s'.freeLen s.counter + s'.freeLen c = s.freeLen c := by
    unfold freeLen freeShare
    rw [e.upper_lock, lock c hc, upper, lower]
    split <;> omega
  have others : ∀ n ∈ G.live, n ≠ s.rootNode → n ≠ c →
      s'.freeLen n = s.freeLen n ∧ s'.heldLen n = s.heldLen n := fun n hn _ nc =>
    freeLen_congr (lock n hn) (congrArg RadixKey.len (e.links.keys.key (tree.ne_next hn) nc))
  refine ⟨b.inv.split hc inner up pos proper paged e, ?_, ?_, ?_, ?_, ?_⟩
  · exact fun m hm => Finset.mem_insert_of_mem (b.held m hm)
  · intro n hn ninner
    rw [e.rootNode] at ninner
    rcases mem_insert.mp hn with rfl | hn
    · rw [e.upper_lock, shape.holders_split_new (a := s.counter) le_rfl b.held]
      exact b.lock c hc inner
    · rw [lock n hn, shape.holders_split_old (a := s.counter) le_rfl hn b.held]
      exact b.lock n hn ninner
  · have total := shape.split_total (p := p) hc inner le_rfl halves
      (fun n hn ninner nc => (others n hn ninner nc).1)
    rw [e.rootNode, e.rest]
    exact b.evictable.trans total.symm
  · have held : s'.heldLen s.counter + s'.heldLen c = s.heldLen c := by
      unfold heldLen
      rw [upper, lower, ← halves]
      omega
    have total := shape.split_total (p := p) hc inner le_rfl held
      (fun n hn ninner nc => (others n hn ninner nc).2)
    rw [e.rootNode, e.rest]
    exact b.guarded.trans total.symm
  · intro n
    rw [e.evictableLeaves, e.rootNode, b.leaves]
    constructor
    · rintro ⟨hn, ninner, leaf, free⟩
      refine ⟨Finset.mem_insert_of_mem hn, ninner, ?_, (lock n hn).trans free⟩
      exact (e.links.keys.childless (tree.ne_next hn)
        (tree.keys.parent_not_childless hc inner up)).mpr leaf
    · rintro ⟨hn, ninner, leaf, free⟩
      rcases mem_insert.mp hn with rfl | hn
      · exact absurd leaf e.links.keys.upper_not_childless
      · refine ⟨hn, ninner, ?_, (lock n hn).symm.trans free⟩
        exact (e.links.keys.childless (tree.ne_next hn)
          (tree.keys.parent_not_childless hc inner up)).mp leaf

theorem Books.reshape (r : Reshape s G s' G') : Books s' G' L := by
  induction r with
  | refl => exact b
  | touch t _ ih => exact ih (b.touched t)
  | split live inner up pos proper paged e _ ih =>
    exact ih (b.split live inner up pos proper paged e)

theorem Books.hang {k : RadixKey} {v : List Slot}
    (g : Hangs s G p k v) (e : HangsTo s s' p k v) : Books s' (G.attach p s.counter) L := by
  have tree := b.inv.tree
  have shape := tree.shape
  have lock : ∀ n ∈ G.live, (s'.nodes n).lockRef = (s.nodes n).lockRef := fun n hn =>
    e.other_lock n (tree.ne_next hn)
  have others : ∀ n ∈ G.live, n ≠ s.rootNode →
      s'.freeLen n = s.freeLen n ∧ s'.heldLen n = s.heldLen n := fun n hn _ =>
    freeLen_congr (lock n hn) (congrArg RadixKey.len (e.links.keys.key (tree.ne_next hn)))
  have new : s'.freeLen s.counter = k.len ∧ s'.heldLen s.counter = 0 := by
    unfold heldLen freeLen freeShare
    rw [e.new_lock, e.new_key]
    simp
  refine ⟨b.inv.hang g e, ?_, ?_, ?_, ?_, ?_⟩
  · exact fun m hm => Finset.mem_insert_of_mem (b.held m hm)
  · intro n hn ninner
    rw [e.rootNode] at ninner
    rcases mem_insert.mp hn with rfl | hn
    · rw [e.new_lock, shape.holders_attach_new (c := s.counter) le_rfl b.held]
      rfl
    · rw [lock n hn, shape.holders_attach_old (c := s.counter) le_rfl b.held]
      exact b.lock n hn ninner
  · have total := shape.attach_total (p := p) (c := s.counter) le_rfl
      (fun n hn inner => (others n hn inner).1)
    rw [new.1] at total
    rw [e.rootNode]
    refine Eq.trans ?_ total.symm
    rw [e.rest]
    exact congrArg (· + (k.len : Int)) b.evictable
  · have total := shape.attach_total (p := p) (c := s.counter) le_rfl
      (fun n hn inner => (others n hn inner).2)
    rw [new.2, add_zero] at total
    rw [e.rootNode]
    refine Eq.trans ?_ total.symm
    rw [e.rest]
    exact b.guarded
  · intro n
    rw [e.leaves, mem_insert_iff, b.inv.leaves_nodup.mem_erase_iff, b.leaves, e.rootNode]
    constructor
    · rintro (rfl | ⟨np, hn, ninner, leaf, free⟩)
      · refine ⟨Finset.mem_insert_self _ _, ?_, e.links.new_children, e.new_lock⟩
        exact (tree.ne_next tree.root_live).symm
      · refine ⟨Finset.mem_insert_of_mem hn, ninner, ?_, (lock n hn).trans free⟩
        exact (e.links.keys.childless (tree.ne_next hn)).mpr ⟨np, leaf⟩
    · rintro ⟨hn, ninner, leaf, free⟩
      rcases mem_insert.mp hn with rfl | hn
      · exact .inl rfl
      · obtain ⟨np, leaf⟩ := (e.links.keys.childless (tree.ne_next hn)).mp leaf
        exact .inr ⟨np, hn, ninner, leaf, (lock n hn).symm.trans free⟩

theorem Books.remove {x : NodeId} (g : Leaf s G p x) (e : RemovesTo s s' p x)
    (free : (s.nodes x).lockRef = 0) : Books s' (G.detach x) L := by
  have tree := b.inv.tree
  have shape := tree.shape
  have px : p ≠ x := tree.keys.parent_ne g.live g.inner g.up
  have same : ∀ n, s'.freeLen n = s.freeLen n ∧ s'.heldLen n = s.heldLen n := fun n =>
    freeLen_congr (e.lock n) (congrArg RadixKey.len (e.links.keys.key n))
  have own : s.freeLen x = (s.nodes x).key.len ∧ s.heldLen x = 0 := by
    unfold heldLen freeLen freeShare
    simp [free]
  have unheld : x ∉ L := by
    apply shape.not_mem_of_holders_zero g.live g.inner
    have := b.lock x g.live g.inner
    omega
  refine ⟨b.inv.remove g e, ?_, ?_, ?_, ?_, ?_⟩
  · intro m hm
    refine mem_erase.mpr ⟨?_, b.held m hm⟩
    rintro rfl
    exact unheld hm
  · intro n hn ninner
    rw [e.rootNode] at ninner
    rw [e.lock]
    exact b.lock n (Finset.mem_of_mem_erase hn) ninner
  · have total := Shape.detach_total (f := s.freeLen) g.live g.inner
    rw [e.rootNode, Outline.total_congr (fun n _ _ => (same n).1), total, own.1, ← b.evictable, e.rest]
  · have total := Shape.detach_total (f := s.heldLen) g.live g.inner
    rw [e.rootNode, Outline.total_congr (fun n _ _ => (same n).2), total, own.2, sub_zero,
      ← b.guarded, e.rest]
  · intro n
    rw [e.mem_leaves b.inv.leaves_nodup, b.leaves, e.rootNode]
    by_cases np : n = p
    · subst np
      simp only [true_and, ne_eq, not_true, false_and, or_false]
      have plive := tree.keys.parent_live g.live g.inner g.up
      constructor
      · rintro ⟨low, leaf⟩
        have top : n ≠ s.rootNode := by
          rintro rfl
          rw [e.lock, b.inv.root_lock] at low
          omega
        have nonneg := b.lock_nonneg plive top
        rw [e.lock] at low ⊢
        exact ⟨mem_erase.mpr ⟨px, plive⟩, top, leaf, by omega⟩
      · rintro ⟨_, _, leaf, free⟩
        exact ⟨free.le, leaf⟩
    · have hchildren : (s'.nodes n).children = (s.nodes n).children := (e.links.others n np).children
      rw [hchildren, e.lock n]
      change _ ↔ n ∈ G.live.erase x ∧ _
      rw [mem_erase]
      simp only [np, false_and, false_or, ne_eq, not_false_eq_true, true_and, and_assoc]

theorem Books.locks {d : Int} (hm : m ∈ G.live)
    (e : LocksTo s s' (G.chain m) d) (held : ∀ l ∈ L', l ∈ G.live)
    (count : ∀ n, (G.holders L' n : Int) = G.holders L n + if n ∈ G.chain m then d else 0) :
    Books s' G L' := by
  have tree := b.inv.tree
  have shape := tree.shape
  have chain : ∀ n ∈ G.chain m, n ∈ G.live ∧ n ≠ s.rootNode := shape.chain_live hm
  have lock : ∀ n ∈ G.live, n ≠ s.rootNode → (s'.nodes n).lockRef = G.holders L' n := by
    intro n hn ninner
    rw [e.nodes, count]
    exact congrArg (· + ite _ d 0) (b.lock n hn ninner)
  have free : ∀ n ∈ G.live, n ≠ s.rootNode →
      s'.freeLen n = s.freeLen n + if n ∈ G.chain m then s.lockShift d n else 0 := by
    intro n hn ninner
    unfold freeLen lockShift
    rw [e.nodes]
    split <;> simp
  have busy : ∀ n ∈ G.live, n ≠ s.rootNode →
      s'.heldLen n = s.heldLen n + if n ∈ G.chain m then -s.lockShift d n else 0 := by
    intro n hn ninner
    unfold heldLen
    rw [free n hn ninner, e.nodes]
    split <;> ring
  refine ⟨b.inv.locks e chain, held, ?_, ?_, ?_, ?_⟩
  · rw [e.rootNode]
    exact lock
  · rw [e.rootNode, Outline.total_shift (shape.chain_nodup hm) chain free, ← b.evictable, e.rest]
  · have flip : ((G.chain m).map (fun n => -s.lockShift d n)).sum =
        -((G.chain m).map (s.lockShift d)).sum := by
      rw [List.sum_neg, List.map_map]
      rfl
    rw [e.rootNode, Outline.total_shift (shape.chain_nodup hm) chain busy, ← b.guarded, e.rest,
      flip]
    rfl
  · intro n
    have hchildren : (s'.nodes n).children = (s.nodes n).children := (e.sameLinks n).children
    rw [e.mem_leaves, e.rootNode, hchildren]
    split
    · rename_i inside
      obtain ⟨hn, ninner⟩ := chain n inside
      have hlock := lock n hn ninner
      constructor
      · rintro ⟨low, leaf⟩
        exact ⟨hn, ninner, leaf, by omega⟩
      · rintro ⟨_, _, leaf, zero⟩
        exact ⟨zero.le, leaf⟩
    · rename_i outside
      rw [b.leaves, e.nodes, if_neg outside, add_zero]

theorem Books.inc (hm : m ∈ G.live) (e : LocksTo s s' (G.chain m) 1) : Books s' G (m :: L) := by
  refine b.locks hm e (List.forall_mem_cons.mpr ⟨hm, b.held⟩) fun n => ?_
  rw [Outline.holders_cons]
  push_cast
  rfl

theorem Books.dec (hm : m ∈ L) (e : LocksTo s s' (G.chain m) (-1)) : Books s' G (L.erase m) := by
  refine b.locks (b.held m hm) e (fun l hl => b.held l (List.mem_of_mem_erase hl)) fun n => ?_
  rw [Outline.holders_erase hm n]
  push_cast
  split <;> ring

theorem Books.candidates {cand : List NodeId} (perm : cand.Perm s.evictableLeaves) :
    Candidates s G cand := by
  refine ⟨perm.nodup_iff.mpr b.inv.leaves_nodup, fun x hx => ?_⟩
  obtain ⟨live, inner, leaf, _⟩ := (b.leaves x).mp (perm.mem_iff.mp hx)
  exact ⟨live, inner, leaf⟩

theorem Books.remove_candidates {x : NodeId} {cand cand' : List NodeId}
    (perm : cand.Perm s.evictableLeaves) (g : Leaf s G p x) (e : RemovesTo s s' p x)
    (free : (s.nodes x).lockRef = 0)
    (next : cand'.Perm (if (s'.nodes p).children = ∅ ∧ (s'.nodes p).lockRef = 0
      then p :: cand.erase x else cand.erase x)) : cand'.Perm s'.evictableLeaves := by
  have cands := b.candidates perm
  have after := b.remove g e free
  have busy := b.inv.tree.keys.parent_not_childless g.live g.inner g.up
  have plive := b.inv.tree.keys.parent_live g.live g.inner g.up
  have px : p ≠ x := b.inv.tree.keys.parent_ne g.live g.inner g.up
  rw [perm_ext_iff_of_nodup (cands.remove b.inv g e next).nodup after.inv.leaves_nodup]
  intro n
  rw [next.mem_iff, e.mem_leaves b.inv.leaves_nodup]
  have old : n ∈ cand.erase x ↔ n ≠ p ∧ n ≠ x ∧ n ∈ s.evictableLeaves := by
    rw [cands.nodup.mem_erase_iff, perm.mem_iff]
    constructor
    · rintro ⟨nx, hn⟩
      refine ⟨?_, nx, hn⟩
      rintro rfl
      exact busy ((b.leaves n).mp hn).2.2.1
    · exact fun h => h.2
  have judged : ((s'.nodes p).lockRef ≤ 0 ∧ (s'.nodes p).children = ∅) ↔
      (s'.nodes p).children = ∅ ∧ (s'.nodes p).lockRef = 0 := by
    constructor
    · rintro ⟨low, leaf⟩
      refine ⟨leaf, ?_⟩
      have hp : p ∈ s'.evictableLeaves :=
        (e.mem_leaves b.inv.leaves_nodup).mpr (.inl ⟨rfl, low, leaf⟩)
      exact ((after.leaves p).mp hp).2.2.2
    · exact fun h => ⟨h.2.le, h.1⟩
  rw [judged]
  split
  · rename_i becomes
    rw [List.mem_cons, old]
    simp [becomes]
  · rename_i stays
    rw [old]
    simp [stays]

end

theorem Books.evicts {want n n' : Nat} {cand xs : List NodeId}
    (v : Evicts want s G cand n xs s' G' n') (b : Books s G L)
    (perm : cand.Perm s.evictableLeaves) : Books s' G' L := by
  induction v with
  | enough => exact b
  | dry => exact b
  | @take s _ _ G _ _ _ _ _ _ _ x _ member _ g e next _ ih =>
    have free := ((b.leaves x).mp (perm.mem_iff.mp member)).2.2.2
    exact ih (b.remove g e free) (b.remove_candidates perm g e free next)

theorem Books.insert {us : List KeyUnit} {slots : List Slot} {n : Nat} (b : Books s G L)
    (i : InsertsTo s G us slots n s' G') : Books s' G' L := by
  cases i with
  | present r _ _ => exact b.reshape r
  | grown r _ _ g e => exact (b.reshape r).hang g e

theorem Books.of_bare (b : Books s G L) (bare : G.live = {s.rootNode})
    (held : ∀ m ∈ L', m ∈ G.live) : Books s G L' :=
  { b with
    held := held
    lock := fun _ hn inner => absurd (Finset.mem_singleton.mp (bare ▸ hn)) inner }

structure Kept (cfg : Config) (s : RadixCache) (G : Outline) (L : List NodeId) : Prop where
  cfg_eq : s.cfg = cfg
  books : Books s G L
  bare : cfg.disable = true → G.live = {s.rootNode}

variable {cfg : Config}

theorem Kept.of_enabled (b : Books s G L) (hcfg : s.cfg = cfg) (enabled : cfg.disable = false) :
    Kept cfg s G L := ⟨hcfg, b, by simp [enabled]⟩

theorem Kept.admissible (k : Kept cfg s G L) {op : Op} (balanced : s.Balanced L op) :
    s.Admissible op := by
  cases op with
  | decLockRef node => exact k.books.inv.tree.shape.mem_live_iff.mp (k.books.held node balanced)
  | _ => exact balanced

theorem Kept.performs {op : Op} {reply : Reply} (k : Kept cfg s G L) (balanced : s.Balanced L op)
    (p : Performs s G op reply s' G') : Kept cfg s' G' (op.locks L) := by
  obtain ⟨rfl, b, bare⟩ := k
  cases p with
  | idle _ disabled =>
    -- Nothing happens but the bookkeeping of the caller.
    refine ⟨rfl, b.of_bare (bare disabled) ?_, bare⟩
    cases op with
    | incLockRef node =>
      have live := b.inv.tree.shape.mem_live_iff.mpr balanced
      exact List.forall_mem_cons.mpr ⟨live, b.held⟩
    | decLockRef node => exact fun m hm => b.held m (List.mem_of_mem_erase hm)
    | _ => exact b.held
  | matched enabled r => exact .of_enabled (b.reshape r) r.cfg enabled
  | inserted _ _ enabled _ i => exact .of_enabled (b.insert i) i.cfg enabled
  | incremented _ enabled live e =>
    exact .of_enabled (b.inc live e) e.cfg enabled
  | decremented _ enabled live e =>
    exact .of_enabled (b.dec balanced e) e.cfg enabled
  | evicted enabled v => exact .of_enabled (Books.evicts v b (.refl _)) v.cfg enabled

theorem Kept.step (hq : Heapq) (k : Kept cfg s G L) (op : Op) (balanced : s.Balanced L op) :
    ∃ reply s' G', s.exec hq op = .ok (reply, s') ∧ Kept cfg s' G' (op.locks L) := by
  obtain ⟨reply, s', G', ran, performs⟩ := exec_spec hq k.books.inv op (k.admissible balanced)
  exact ⟨reply, s', G', ran, k.performs balanced performs⟩

theorem kept_of_reaches {hq : Heapq} {clock : Nat → Int} (pos : 0 < cfg.pageSize)
    (reach : Reaches hq cfg clock s L) : ∃ G, Kept cfg s G L := by
  induction reach with
  | init =>
    refine ⟨bareOutline 0, init_cfg cfg clock, books_reset pos (init_resetsTo cfg clock), fun _ => ?_⟩
    rw [init_rootNode]
    rfl
  | step _ balanced ran ih =>
    obtain ⟨G, k⟩ := ih
    obtain ⟨reply, s', G', ran', after⟩ := k.step hq _ balanced
    cases ran.symm.trans ran'
    exact ⟨G', after⟩

open Classical in
/-- `lock_ref` of a node counts the locks taken on it or below it, the sizes add up key lengths, and
`evictable_leaves` are the unlocked leaves. -/
structure Accounting (s : RadixCache) (L : List NodeId) : Prop where
  held : ∀ m ∈ L, s.links.InTree m
  root_lock : (s.nodes s.rootNode).lockRef = 1
  lock_ref : ∀ n, s.links.InTree n → n ≠ s.rootNode →
    (s.nodes n).lockRef = L.countP (s.links.Below n ·)
  sizes : ∃ T : Finset NodeId, (∀ n, n ∈ T ↔ s.links.InTree n ∧ n ≠ s.rootNode) ∧
    s.protectedSize = ∑ n ∈ T with (s.nodes n).lockRef > 0, ((s.nodes n).key.len : Int) ∧
    s.evictableSize = ∑ n ∈ T with (s.nodes n).lockRef = 0, ((s.nodes n).key.len : Int)
  leaves_nodup : s.evictableLeaves.Nodup
  leaves : ∀ n, n ∈ s.evictableLeaves ↔ s.links.InTree n ∧ n ≠ s.rootNode ∧
    (∀ k, s.links.kid n k = none) ∧ (s.nodes n).lockRef = 0

theorem Books.accounting (b : Books s G L) : Accounting s L := by
  classical
  have shape := b.inv.tree.shape
  have inTree : ∀ n, s.links.InTree n ↔ n ∈ G.live := fun n => shape.mem_live_iff.symm
  have sum : ∀ (p : NodeId → Prop) [DecidablePred p] (f : NodeId → Int),
      (∀ n ∈ G.live, n ≠ s.rootNode → f n = if p n then ((s.nodes n).key.len : Int) else 0) →
      G.total s.rootNode f = ∑ n ∈ G.live.erase s.rootNode with p n, ((s.nodes n).key.len : Int) := by
    intro p _ f share
    rw [sum_filter]
    exact sum_congr rfl fun n hn =>
      share n (Finset.mem_of_mem_erase hn) (ne_of_mem_erase hn)
  refine ⟨fun m hm => (inTree m).mpr (b.held m hm), b.inv.root_lock, ?_,
    ⟨G.live.erase s.rootNode, ?_, ?_, ?_⟩, b.inv.leaves_nodup, ?_⟩
  · intro n hn inner
    have live := (inTree n).mp hn
    rw [b.lock n live inner, shape.holders_eq_below live inner b.held]
  · intro n
    rw [mem_erase, inTree, and_comm]
  · rw [b.guarded]
    refine sum _ _ fun n live inner => ?_
    have := b.lock_nonneg live inner
    unfold heldLen freeLen freeShare
    split <;> split <;> omega
  · rw [b.evictable]
    refine sum _ _ fun n live inner => ?_
    have := b.lock_nonneg live inner
    unfold freeLen freeShare
    split <;> split <;> omega
  · intro n
    rw [b.leaves, inTree, eq_empty_iff]
    rfl

def isBalanced (s : RadixCache) (L : List NodeId) : Op → Bool
  | .decLockRef node => L.contains node
  | op => s.isAdmissible op

/-- The state and the outstanding locks after a list of operations, as long as each is balanced
and returns. -/
def follow (hq : Heapq) : RadixCache → List NodeId → List Op → Option (RadixCache × List NodeId)
  | s, L, [] => some (s, L)
  | s, L, op :: ops =>
    if s.isBalanced L op then
      match s.exec hq op with
      | .error _ => none
      | .ok (_, t) => follow hq t (op.locks L) ops
    else none

theorem balanced_of_isBalanced {op : Op} (h : s.isBalanced L op = true) : s.Balanced L op := by
  cases op with
  | decLockRef node =>
    change node ∈ L
    simpa [isBalanced] using h
  | matchPrefix => trivial
  | evict => trivial
  | incLockRef node =>
    have : s.Admissible (.incLockRef node) := admissible_of_isAdmissible h
    exact this
  | insert key value chunked priority =>
    have : s.Admissible (.insert key value chunked priority) := admissible_of_isAdmissible h
    exact this

theorem reaches_of_follow {hq : Heapq} {clock : Nat → Int} (ops : List Op)
    (before : Reaches hq cfg clock s L) (h : follow hq s L ops = some (s', L')) :
    Reaches hq cfg clock s' L' := by
  induction ops generalizing s L with
  | nil =>
    cases h
    exact before
  | cons op ops ih =>
    rw [follow] at h
    split at h
    · rename_i balanced
      split at h
      · cases h
      · rename_i ran
        exact ih (.step before (balanced_of_isBalanced balanced) ran) h
    · cases h

end RadixCache

open RadixCache

/-- In every state that a run with balanced locks reaches the books are exact, and every
balanced operation returns. -/
theorem radixCache_accounting (hq : Heapq) (cfg : Config) (pos : 0 < cfg.pageSize)
    (clock : Nat → Int) {s : RadixCache} {L : List NodeId} (reach : Reaches hq cfg clock s L) :
    Accounting s L ∧ ∀ op, s.Balanced L op → ∃ reply s', s.exec hq op = .ok (reply, s') ∧
      Accounting s' (op.locks L) := by
  obtain ⟨G, k⟩ := kept_of_reaches pos reach
  refine ⟨k.books.accounting, fun op balanced => ?_⟩
  obtain ⟨reply, s', G', ran, after⟩ := k.step hq op balanced
  exact ⟨reply, s', ran, after.books.accounting⟩

theorem accounting_of_split_lock : let cfg : Config := { pageSize := 2, sha256 := fun _ => [] }
    ∃ s : RadixCache, Reaches scan cfg (fun n => n) s [1] ∧ Accounting s [1] ∧
      s.protectedSize = 6 ∧ s.evictableSize = 2 ∧
      (s.nodes 1).lockRef = 1 ∧ (s.nodes 2).lockRef = 1 ∧ s.evictableLeaves = [3] := by
  intro cfg
  have run : (follow scan (init cfg (fun n => n)) []
      [.insert { tokenIds := [1, 2, 3, 4, 5, 6] } (some [10, 11, 12, 13, 14, 15]) false 0,
       .incLockRef 1, .matchPrefix { tokenIds := [1, 2, 9] },
       .insert { tokenIds := [1, 2, 7, 8] } (some [20, 21, 22, 23]) false 0]).map
      (fun r => (r.2, r.1.protectedSize, r.1.evictableSize, (r.1.nodes 1).lockRef,
        (r.1.nodes 2).lockRef, r.1.evictableLeaves)) = some ([1], 6, 2, 1, 1, [3]) := by
    decide +kernel
  obtain ⟨⟨s, L⟩, followed, facts⟩ := Option.map_eq_some_iff.mp run
  simp only [Prod.mk.injEq] at facts
  obtain ⟨rfl, facts⟩ := facts
  have reach := reaches_of_follow _ .init followed
  exact ⟨s, reach, (radixCache_accounting scan cfg (by decide) _ reach).1, facts⟩

open Classical in
/-- A new cache counts one lock on its root, which nobody took. -/
theorem root_locked_without_holder :
    ¬ ∀ (hq : Heapq) (cfg : Config) (clock : Nat → Int) (s : RadixCache) (L : List NodeId),
      0 < cfg.pageSize → Reaches hq cfg clock s L →
      ∀ n, s.links.InTree n → (s.nodes n).lockRef = L.countP (s.links.Below n ·) := by
  intro claim
  have root := claim scan { pageSize := 1, sha256 := fun _ => [] } (fun n => n) _ []
    (by decide) .init _ .root
  have lock : ((init { pageSize := 1, sha256 := fun _ => [] } (fun n => n)).nodes 0).lockRef = 1 := by
    decide +kernel
  exact absurd (lock.symm.trans root) (by simp)

end RedKnot.Radix
