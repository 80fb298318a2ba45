import RedKnot.MemCache.Radix.LeafSteps

/-! `inc_lock_ref` and `dec_lock_ref`. Both walk from a node to the root and do the same at
each node up to the sign: `lockOne` with `d = 1` and `d = -1`. -/

namespace RedKnot.Radix.RadixCache

open LinkedTree NodeHeap Function List

variable {s s' : RadixCache} {G : Outline} {ns : List NodeId} {d : Int} {m n : NodeId}

def freeShare (lockRef : Int) (len : Nat) : Int := if lockRef ≤ 0 then len else 0

def lockShift (s : RadixCache) (d : Int) (n : NodeId) : Int :=
  freeShare ((s.nodes n).lockRef + d) (s.nodes n).key.len -
    freeShare (s.nodes n).lockRef (s.nodes n).key.len

structure LocksTo (s s' : RadixCache) (ns : List NodeId) (d : Int) : Prop where
  nodes : ∀ n, s'.nodes n =
    { s.nodes n with lockRef := (s.nodes n).lockRef + if n ∈ ns then d else 0 }
  leaves_nodup : s'.evictableLeaves.Nodup
  mem_leaves : ∀ n, n ∈ s'.evictableLeaves ↔
    if n ∈ ns then (s'.nodes n).lockRef ≤ 0 ∧ (s.nodes n).children = ∅ else n ∈ s.evictableLeaves
  rest : s' = { s with
    nodes := s'.nodes
    evictableSize := s.evictableSize + (ns.map (s.lockShift d)).sum
    protectedSize := s.protectedSize - (ns.map (s.lockShift d)).sum
    evictableLeaves := s'.evictableLeaves }

def lockOne (s : RadixCache) (d : Int) (n : NodeId) : RadixCache :=
  (modify { s with
      evictableSize := s.evictableSize + s.lockShift d n
      protectedSize := s.protectedSize - s.lockShift d n } n
    (fun a => { a with lockRef := a.lockRef + d })).updateLeafStatus n

section

variable (e : LocksTo s s' ns d)
include e

theorem LocksTo.sameLinks (n : NodeId) : SameLinks (s'.nodes n) (s.nodes n) := by
  rw [e.nodes]
  exact ⟨rfl, rfl, rfl, rfl⟩

theorem LocksTo.cfg : s'.cfg = s.cfg := by rw [e.rest]

theorem LocksTo.rootNode : s'.rootNode = s.rootNode := by rw [e.rest]

theorem LocksTo.counter : s'.counter = s.counter := by rw [e.rest]

end

theorem LocksTo.refl (nodup : s.evictableLeaves.Nodup) : LocksTo s s [] d := by
  refine ⟨by simp, nodup, by simp, by simp⟩

theorem LocksTo.step (h : Inv s G) (e : LocksTo s s' ns d) (hm : m ∈ G.live) (inner : m ≠ s.rootNode)
    (new : m ∉ ns) : LocksTo s (s'.lockOne d m) (m :: ns) d := by
  have hnode := e.nodes m
  rw [if_neg new, add_zero] at hnode
  have shift : s'.lockShift d m = s.lockShift d m := by simp only [lockShift, hnode]
  have unfolded : s'.lockOne d m = { s' with
      nodes := update s'.nodes m { s.nodes m with lockRef := (s.nodes m).lockRef + d }
      evictableSize := s'.evictableSize + s.lockShift d m
      protectedSize := s'.protectedSize - s.lockShift d m
      evictableLeaves :=
        if (s.nodes m).lockRef + d ≤ 0 ∧ (s.nodes m).children = ∅ then s'.evictableLeaves.insert m
        else s'.evictableLeaves.erase m } := by
    unfold lockOne
    rw [updateLeafStatus_eq]
    · simp [modify, hnode, shift]
    · obtain ⟨u, hu, _⟩ := h.tree.valued m hm inner
      have hu : (s.nodes m).value = some u := hu
      exact ⟨u, by simp [modify, hnode, hu]⟩
    · intro j c found
      have found : (s.nodes m).children.lookup j = some c := by
        simpa [modify, hnode] using found
      obtain ⟨clive, cinner, cparent, _⟩ := h.tree.shape.down m hm j c found
      obtain ⟨u, hu, _⟩ := h.tree.valued c clive cinner
      have hu : (s.nodes c).value = some u := hu
      have cm : c ≠ m := (h.tree.keys.parent_ne clive cinner cparent).symm
      exact ⟨u, by simp [modify, cm, e.nodes c, hu]⟩
  rw [unfolded]
  refine ⟨?_, ?_, ?_, ?_⟩
  · intro n
    by_cases nm : n = m
    · simp [nm]
    · simp [nm, e.nodes n]
  · dsimp only
    split
    · exact e.leaves_nodup.insert
    · exact e.leaves_nodup.erase _
  · intro n
    by_cases nm : n = m
    · subst nm
      simp only [mem_cons, true_or, if_true, update_self]
      split
      · rename_i leaf
        simp [leaf]
      · rename_i busy
        rw [e.leaves_nodup.mem_erase_iff]
        simpa using busy
    · have same : (n ∈ if (s.nodes m).lockRef + d ≤ 0 ∧ (s.nodes m).children = ∅ then
          s'.evictableLeaves.insert m else s'.evictableLeaves.erase m) ↔ n ∈ s'.evictableLeaves := by
        split
        · simp [mem_insert_iff, nm]
        · simp [e.leaves_nodup.mem_erase_iff, nm]
      rw [same, e.mem_leaves]
      simp [nm]
  · rw [e.rest]
    simp only [map_cons, sum_cons]
    congr 1 <;> ring

theorem lockShift_one (s : RadixCache) (n : NodeId) :
    s.lockShift 1 n = if (s.nodes n).lockRef = 0 then -((s.nodes n).key.len : Int) else 0 := by
  unfold lockShift freeShare
  split <;> split <;> split <;> omega

theorem lockShift_neg_one (s : RadixCache) (n : NodeId) :
    s.lockShift (-1) n = if (s.nodes n).lockRef = 1 then ((s.nodes n).key.len : Int) else 0 := by
  unfold lockShift freeShare
  split <;> split <;> split <;> omega

theorem lockWalk_spec (h : Inv s G) (hn : n ∈ G.live)
    {body : Int × RadixCache → NodeId → Except PyError (ForInStep (Int × RadixCache))}
    (one : ∀ delta t m, (t.nodes m).parent ≠ none →
      body (delta, t) m = .ok (.yield (delta + t.lockShift d m, t.lockOne d m))) :
    ∃ s', walkUp .outOfFuel .attributeError s.rootNode (fun st n => (st.2.nodes n).parent) body
        (s.counter + 1) (0, s) n = .ok (((G.chain n).map (s.lockShift d)).sum, s') ∧
      LocksTo s s' (G.chain n) d := by
  have shape := h.tree.shape
  have walked := shape.walkUp_spec PyError.outOfFuel PyError.attributeError
    (fun (st : Int × RadixCache) m => (st.2.nodes m).parent) body
    (R := fun done st => LocksTo s st.2 done d ∧ st.1 = (done.map (s.lockShift d)).sum)
    (Q := fun st => LocksTo s st.2 (G.chain n) d ∧ st.1 = ((G.chain n).map (s.lockShift d)).sum)
    hn ?_ (fun _ => id) (s.counter + 1) (0, s)
    (Nat.lt_succ_of_lt (shape.chain_length_lt hn)) ⟨.refl h.leaves_nodup, by simp⟩
  · obtain ⟨⟨delta, s'⟩, ran, locks, rfl⟩ := walked
    exact ⟨s', ran, locks⟩
  · rintro rest m done ⟨delta, t⟩ split ⟨locks, total⟩
    dsimp only at locks total
    have nodup := shape.chain_nodup hn
    rw [split, nodup_append] at nodup
    have new : m ∉ done := (nodup_cons.mp nodup.2.1).1
    obtain ⟨hm, inner⟩ := shape.chain_live hn m (by simp [split])
    obtain ⟨q, _, hparent⟩ := h.tree.keys.has_parent hm inner
    have hparent : (s.nodes m).parent = some q := hparent
    have up : (t.nodes m).parent = some q := by rw [locks.nodes m, ← hparent]
    have after := locks.step h hm inner new
    refine ⟨_, one delta t m (by simp [up]), ?_, after, ?_⟩
    · exact (after.sameLinks m).parent
    · have shift : t.lockShift d m = s.lockShift d m := by
        simp only [lockShift, locks.nodes m, if_neg new, add_zero]
      rw [shift, total, map_cons, sum_cons, add_comm]

theorem updateLeafStatus_nodes (s : RadixCache) (n : NodeId) :
    (s.updateLeafStatus n).nodes = s.nodes := by
  simp only [updateLeafStatus]
  split
  · rfl
  · split <;> rfl

section

variable (h : Inv s G) (hn : n ∈ G.live) (enabled : s.cfg.disable = false)
include h hn enabled

theorem incLockRef_spec : ∃ s', s.incLockRef n = .ok (((G.chain n).map (s.lockShift 1)).sum, s') ∧
      LocksTo s s' (G.chain n) 1 := by
  simp only [incLockRef, enabled, Bool.false_eq_true, if_false]
  refine lockWalk_spec h hn ?_
  intro delta t m _
  by_cases free : (t.nodes m).lockRef = 0
  · simp only [lockOne, lockShift_one, free, if_true, sub_eq_add_neg, neg_neg]
  · simp only [lockOne, lockShift_one, free, if_false, add_zero, sub_zero]

theorem decLockRef_spec :
    ∃ s', s.decLockRef n = .ok (((G.chain n).map (s.lockShift (-1))).sum, s') ∧
      LocksTo s s' (G.chain n) (-1) := by
  simp only [decLockRef, enabled, Bool.false_eq_true, if_false]
  refine lockWalk_spec h hn ?_
  intro delta t m up
  by_cases last : (t.nodes m).lockRef = 1
  · simp only [lockOne, lockShift_neg_one, last, if_true]
    rw [if_neg (by rw [updateLeafStatus_nodes]; simp [modify, up])]
    rfl
  · simp only [lockOne, lockShift_neg_one, last, if_false, add_zero, sub_zero]
    rw [if_neg (by rw [updateLeafStatus_nodes]; simp [modify, up])]
    rfl

end

theorem Inv.locks (h : Inv s G) (e : LocksTo s s' ns d) (chain : ∀ n ∈ ns, n ∈ G.live ∧ n ≠ s.rootNode) :
    Inv s' G where
  tree := by
    rw [pageSize, e.cfg, e.rootNode, e.counter]
    exact h.tree.congr e.sameLinks
  root_value := by
    rw [e.rootNode, e.nodes]
    exact h.root_value
  root_lock := by
    have top : s.rootNode ∉ ns := fun hr => (chain _ hr).2 rfl
    rw [e.rootNode, e.nodes, if_neg top]
    simpa using h.root_lock
  leaves_nodup := e.leaves_nodup
  leaves_ok := by
    intro n hn
    rw [e.rootNode, e.nodes]
    rw [e.mem_leaves] at hn
    split at hn
    · rename_i inside
      exact ⟨(chain n inside).1, (chain n inside).2, hn.2⟩
    · exact h.leaves_ok n hn
  hashed := by
    rw [e.cfg, pageSize, e.cfg, e.rootNode]
    intro enabled n hn inner
    rw [e.nodes]
    exact h.hashed enabled n hn inner

end RedKnot.Radix.RadixCache
