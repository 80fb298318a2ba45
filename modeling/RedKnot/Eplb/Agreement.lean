import RedKnot.Eplb.Migration
import RedKnot.Lib.KeyedFlow
import Mathlib

/-! Sender and receiver of an expert compute the same assignment from the two maps. -/

namespace RedKnot.Eplb

open Function List Nat Option ChunkUtils KeyedFlow

namespace Migration

variable {m : Migration} {r s d e x y numTensors : Nat}

theorem mem_localRange : x ∈ m.localRange r ↔ r * m.numLocal ≤ x ∧
    x < r * m.numLocal + m.numLocal :=
  mem_range'_1

theorem rank_of_local (here : x ∈ m.localRange r) : x / m.numLocal = r := by
  obtain ⟨low, high⟩ := mem_localRange.mp here
  have pos : 0 < m.numLocal := by omega
  rw [Nat.div_eq_iff pos, Nat.le_sub_one_iff_lt (by omega)]
  exact ⟨low, high⟩

theorem local_iff : r < m.worldSize ∧ x ∈ m.localRange r ↔ x < m.numPhysical ∧
    x / m.numLocal = r := by
  rw [numPhysical, m.old_length]
  constructor
  · rintro ⟨rank, here⟩
    refine ⟨?_, rank_of_local here⟩
    obtain ⟨-, high⟩ := mem_localRange.mp here
    calc x < (r + 1) * m.numLocal := by rw [succ_mul]; exact high
      _ ≤ m.worldSize * m.numLocal := Nat.mul_le_mul_right _ rank
  · rintro ⟨bound, rfl⟩
    have pos : 0 < m.numLocal := Nat.pos_of_ne_zero (fun zero => by simp [zero] at bound)
    refine ⟨(Nat.div_lt_iff_lt_mul pos).mpr bound, mem_localRange.mpr ⟨div_mul_le_self x _, ?_⟩⟩
    rw [← succ_mul]
    rw [Nat.mul_comm]
    exact lt_mul_div_succ x pos

theorem ranks_ascending (p : Nat → Bool) :
    (((range m.numPhysical).filter p).map (· / m.numLocal)).Pairwise (· ≤ ·) := by
  rw [pairwise_map]
  exact (pairwise_lt_range.filter p).imp (fun lt => Nat.div_le_div_right lt.le)

theorem mem_ranks {p : Nat → Bool} :
    r ∈ deduplicateOrdered (((range m.numPhysical).filter p).map (· / m.numLocal)) ↔
      r < m.worldSize ∧ ∃ x ∈ m.localRange r, p x = true := by
  rw [(deduplicateOrdered_spec (ranks_ascending _)).2, List.mem_map]
  simp only [mem_filter, mem_range]
  constructor
  · rintro ⟨x, ⟨bound, has⟩, rank⟩
    obtain ⟨lt, here⟩ := local_iff.mpr ⟨bound, rank⟩
    exact ⟨lt, x, here, has⟩
  · rintro ⟨lt, x, here, has⟩
    obtain ⟨bound, rank⟩ := local_iff.mp ⟨lt, here⟩
    exact ⟨x, ⟨bound, has⟩, rank⟩

theorem nodup_allSrcRanks : (m.allSrcRanks e).Nodup :=
  (deduplicateOrdered_spec (ranks_ascending _)).1

theorem mem_allSrcRanks :
    r ∈ m.allSrcRanks e ↔ r < m.worldSize ∧ ∃ x ∈ m.localRange r, m.old x = e := by
  simp only [allSrcRanks, mem_ranks, decide_eq_true_eq]

theorem nodup_needCommDstRanks : (m.needCommDstRanks e).Nodup :=
  (deduplicateOrdered_spec (ranks_ascending _)).1

theorem mem_needCommDstRanks : r ∈ m.needCommDstRanks e ↔
      r < m.worldSize ∧ r ∉ m.allSrcRanks e ∧ ∃ x ∈ m.localRange r, m.new x = e := by
  simp only [needCommDstRanks, mem_ranks, decide_eq_true_eq]
  constructor
  · rintro ⟨lt, x, here, has, other⟩
    exact ⟨lt, rank_of_local here ▸ other, x, here, has⟩
  · rintro ⟨lt, other, x, here, has⟩
    exact ⟨lt, x, here, has, (rank_of_local here).symm ▸ other⟩

theorem allSrcRanks_ne_nil (here : x < m.numPhysical) : m.allSrcRanks (m.new x) ≠ [] := by
  rw [numPhysical, m.old_length, ← m.new_length] at here
  have listed : m.new x ∈ m.newMap := by
    rw [new, getD_eq_getElem _ _ here]
    exact getElem_mem here
  obtain ⟨y, bound, has⟩ := mem_iff_getElem.mp (m.covered _ listed)
  have old : m.old y = m.new x := by rw [Migration.old, getD_eq_getElem _ _ bound, has]
  obtain ⟨lt, local'⟩ := local_iff.mpr (show y < m.numPhysical ∧ _ from ⟨bound, rfl⟩)
  exact ne_nil_of_mem (mem_allSrcRanks.mpr ⟨lt, y, local', old⟩)

theorem mem_selfNodeSrcRanks {node : Nat} :
    r ∈ m.selfNodeSrcRanks node e ↔ r ∈ m.allSrcRanks e ∧ r / m.numGpuPerNode = node := by
  simp [selfNodeSrcRanks]

theorem mem_selfNodeDstRanks {node : Nat} :
    r ∈ m.selfNodeDstRanks node e ↔ r ∈ m.needCommDstRanks e ∧ r / m.numGpuPerNode = node ∧
      ∃ s ∈ m.allSrcRanks e, s / m.numGpuPerNode = node := by
  unfold selfNodeDstRanks
  split
  · rename_i pos
    obtain ⟨s, member⟩ := exists_mem_of_length_pos pos
    have source := mem_selfNodeSrcRanks.mp member
    simp only [mem_filter, decide_eq_true_eq]
    exact ⟨fun h => ⟨h.1, h.2, s, source⟩, fun h => ⟨h.1, h.2.1⟩⟩
  · rename_i none
    constructor
    · intro member
      cases member
    · rintro ⟨-, -, s, source, node⟩
      exact absurd (length_pos_of_mem (mem_selfNodeSrcRanks.mpr ⟨source, node⟩)) none

theorem mem_crossNodeDstRanks : r ∈ m.crossNodeDstRanks e ↔ r ∈ m.needCommDstRanks e ∧
      ¬ ∃ s ∈ m.allSrcRanks e, s / m.numGpuPerNode = r / m.numGpuPerNode := by
  simp [crossNodeDstRanks]

theorem nodup_selfNodeDstRanks {node : Nat} : (m.selfNodeDstRanks node e).Nodup := by
  unfold selfNodeDstRanks
  split
  · exact nodup_needCommDstRanks.filter _
  · exact nodup_nil

def Near (m : Migration) (d e : Nat) : Prop :=
  ∃ s ∈ m.allSrcRanks e, s / m.numGpuPerNode = d / m.numGpuPerNode

theorem chosenSrcRank_near (need : d ∈ m.needCommDstRanks e) (near : m.Near d e) :
    m.chosenSrcRank d e = (m.computeCommInfo d e).sameNode.chunkValueFromElementValue d :=
  if_pos (mem_selfNodeDstRanks.mpr ⟨need, rfl, near⟩)

theorem chosenSrcRank_far (far : ¬ m.Near d e) :
    m.chosenSrcRank d e = (m.computeCommInfo d e).crossNode.chunkValueFromElementValue d :=
  if_neg (fun member => far (mem_selfNodeDstRanks.mp member).2.2)

theorem exists_chosenSrcRank_near (need : d ∈ m.needCommDstRanks e) (near : m.Near d e) :
    ∃ s ∈ m.allSrcRanks e, s / m.numGpuPerNode = d / m.numGpuPerNode ∧
      m.chosenSrcRank d e = some s := by
  rw [chosenSrcRank_near need near]
  have member := mem_selfNodeDstRanks.mpr ⟨need, rfl, near⟩
  obtain ⟨s, source, node⟩ := near
  obtain ⟨s', source', found⟩ := exists_chunkValue (u := (m.computeCommInfo d e).sameNode) member
    (ne_nil_of_mem (mem_selfNodeSrcRanks.mpr ⟨source, node⟩))
  obtain ⟨known, here⟩ := mem_selfNodeSrcRanks.mp source'
  exact ⟨s', known, here, found⟩

theorem exists_chosenSrcRank (need : d ∈ m.needCommDstRanks e) (inhabited : m.allSrcRanks e ≠ []) :
    ∃ s ∈ m.allSrcRanks e, m.chosenSrcRank d e = some s := by
  by_cases near : m.Near d e
  · obtain ⟨s, source, -, found⟩ := exists_chosenSrcRank_near need near
    exact ⟨s, source, found⟩
  · rw [chosenSrcRank_far near]
    exact exists_chunkValue (u := (m.computeCommInfo d e).crossNode)
      (mem_crossNodeDstRanks.mpr ⟨need, near⟩) inhabited

theorem dstRanks_spec (source : s ∈ m.allSrcRanks e) :
    ∃ a b, (m.computeCommInfo s e).sameNode.elementValuesFromChunkValue s = some a ∧
      (m.computeCommInfo s e).crossNode.elementValuesFromChunkValue s = some b ∧ (a ++ b).Nodup ∧
      ∀ d, d ∈ a ++ b ↔ d ∈ m.needCommDstRanks e ∧ m.chosenSrcRank d e = some s := by
  obtain ⟨a, same, anodup, amem⟩ := elementValues_spec
    (u := (m.computeCommInfo s e).sameNode) (nodup_allSrcRanks.filter _) nodup_selfNodeDstRanks
    (mem_selfNodeSrcRanks.mpr ⟨source, rfl⟩)
  obtain ⟨b, cross, bnodup, bmem⟩ := elementValues_spec
    (u := (m.computeCommInfo s e).crossNode) nodup_allSrcRanks
    (nodup_needCommDstRanks.filter _) source
  -- The two lists of a source: destinations on its node, and those on nodes without a source.
  have inA : ∀ {d}, d ∈ a → d ∈ m.needCommDstRanks e ∧
    d / m.numGpuPerNode = s / m.numGpuPerNode := by
    intro d member
    obtain ⟨need, node, -⟩ := mem_selfNodeDstRanks.mp ((amem d).mp member).1
    exact ⟨need, node⟩
  have inB : ∀ {d}, d ∈ b → d ∈ m.needCommDstRanks e ∧ ¬ m.Near d e :=
    fun member => mem_crossNodeDstRanks.mp ((bmem _).mp member).1
  refine ⟨a, b, same, cross, nodup_append.mpr ⟨anodup, bnodup, ?_⟩, fun d => ?_⟩
  · rintro d near d' far rfl
    exact (inB far).2 ⟨s, source, (inA near).2.symm⟩
  · rw [mem_append]
    by_cases near : m.Near d e
    · by_cases node : d / m.numGpuPerNode = s / m.numGpuPerNode
      · have mapping : m.computeCommInfo d e = m.computeCommInfo s e := by
          simp only [computeCommInfo, node]
        constructor
        · rintro (here | far)
          · refine ⟨(inA here).1, ?_⟩
            rw [chosenSrcRank_near (inA here).1 near, mapping]
            exact ((amem d).mp here).2
          · exact absurd near (inB far).2
        · rintro ⟨need, found⟩
          rw [chosenSrcRank_near need near, mapping] at found
          exact .inl ((amem d).mpr ⟨mem_selfNodeDstRanks.mpr ⟨need, node, s, source, rfl⟩, found⟩)
      · constructor
        · rintro (here | far)
          · exact absurd (inA here).2 node
          · exact absurd near (inB far).2
        · rintro ⟨need, found⟩
          obtain ⟨s', -, node', found'⟩ := exists_chosenSrcRank_near need near
          obtain rfl : s' = s := some.inj (found'.symm.trans found)
          exact absurd node'.symm node
    · have mapping : (m.computeCommInfo d e).crossNode = (m.computeCommInfo s e).crossNode := rfl
      constructor
      · rintro (here | far)
        · exact absurd ⟨s, source, (inA here).2.symm⟩ near
        · refine ⟨(inB far).1, ?_⟩
          rw [chosenSrcRank_far near, mapping]
          exact ((bmem d).mp far).2
      · rintro ⟨need, found⟩
        rw [chosenSrcRank_far near, mapping] at found
        exact .inr ((bmem d).mpr ⟨mem_crossNodeDstRanks.mpr ⟨need, near⟩, found⟩)

def First (m : Migration) (r x : Nat) : Prop := ∀ y ∈ m.localRange r, y < x → m.new y ≠ m.new x

theorem find_new_none (here : x ∈ m.localRange r)
    (none : (range' (r * m.numLocal) (x - r * m.numLocal)).find? (fun src => m.new src = m.new x) =
      none) : m.First r x := by
  obtain ⟨low, high⟩ := mem_localRange.mp here
  rw [find?_eq_none] at none
  intro y local' below
  have listed : y ∈ range' (r * m.numLocal) (x - r * m.numLocal) := by
    rw [mem_range'_1]
    have := mem_localRange.mp local'
    omega
  simpa using none y listed

theorem find_new_some {src : Nat} (here : x ∈ m.localRange r)
    (found : (range' (r * m.numLocal) (x - r * m.numLocal)).find? (fun src => m.new src = m.new x) =
      some src) : src ∈ m.localRange r ∧ src < x ∧ m.new src = m.new x ∧ m.First r src := by
  obtain ⟨low, high⟩ := mem_localRange.mp here
  obtain ⟨same, member, first⟩ := find?_range'_eq_some.mp found
  rw [mem_range'_1] at member
  rw [decide_eq_true_eq] at same
  refine ⟨mem_localRange.mpr (by omega), by omega, same, ?_⟩
  intro y local' below
  rw [same]
  simpa using first y (mem_localRange.mp local').1 below

section

variable (rank : r < m.worldSize) (here : x ∈ m.localRange r)
include rank here

theorem recvCase_spec : (m.recvCase r x = some .unchanged ∧ m.old x = m.new x) ∨
    (∃ src ∈ m.localRange r, m.recvCase r x = some (.sameGpu src) ∧ m.old src = m.new x) ∨
    (∃ src ∈ m.localRange r, m.recvCase r x = some (.freeRider src) ∧ r ∉ m.allSrcRanks (m.new x) ∧
      src < x ∧ m.new src = m.new x ∧ m.First r src) ∨
    (∃ s ∈ m.allSrcRanks (m.new x), m.recvCase r x = some (.p2p s) ∧
      r ∉ m.allSrcRanks (m.new x) ∧ m.First r x ∧ m.chosenSrcRank r (m.new x) = some s) := by
  unfold recvCase
  by_cases unchanged : m.old x = m.new x
  · exact .inl ⟨if_pos unchanged, unchanged⟩
  · rw [if_neg unchanged]
    cases sameGpu : (m.localRange r).find? (fun src => m.old src = m.new x) with
    | some src =>
      exact .inr (.inl ⟨src, mem_of_find?_eq_some sameGpu, rfl, by
        simpa using find?_some sameGpu⟩)
    | none =>
      have other : r ∉ m.allSrcRanks (m.new x) := by
        intro source
        obtain ⟨-, y, local', has⟩ := mem_allSrcRanks.mp source
        simpa [has] using find?_eq_none.mp sameGpu y local'
      refine .inr (.inr ?_)
      cases rider : (range' (r * m.numLocal) (x - r * m.numLocal)).find?
          (fun src => m.new src = m.new x) with
      | some src =>
        obtain ⟨local', below, same, first⟩ := find_new_some here rider
        exact .inl ⟨src, local', rfl, other, below, same, first⟩
      | none =>
        have need : r ∈ m.needCommDstRanks (m.new x) :=
          mem_needCommDstRanks.mpr ⟨rank, other, x, here, rfl⟩
        obtain ⟨s, source, chosen⟩ :=
          exists_chosenSrcRank need (allSrcRanks_ne_nil (local_iff.mp ⟨rank, here⟩).1)
        exact .inr ⟨s, source, by simp only [chosen, map_some], other,
          find_new_none here rider, chosen⟩

theorem recvCase_p2p : m.recvCase r x = some (.p2p s) ↔ r ∉ m.allSrcRanks (m.new x) ∧ m.First r x ∧
      m.chosenSrcRank r (m.new x) = some s := by
  rcases recvCase_spec rank here with ⟨eq, old⟩ | ⟨src, local', eq, old⟩ |
    ⟨src, local', eq, other, below, same, -⟩ | ⟨s', -, eq, other, first, chosen⟩
  · rw [eq]
    refine ⟨fun no => (by cases no), fun yes => ?_⟩
    exact absurd (mem_allSrcRanks.mpr ⟨rank, x, here, old⟩) yes.1
  · rw [eq]
    refine ⟨fun no => (by cases no), fun yes => ?_⟩
    exact absurd (mem_allSrcRanks.mpr ⟨rank, src, local', old⟩) yes.1
  · rw [eq]
    refine ⟨fun no => (by cases no), fun yes => ?_⟩
    exact absurd same (yes.2.1 src local' below)
  · rw [eq, chosen]
    simp [other, first]

theorem source_of_p2p (found : m.recvCase r x = some (.p2p s)) :
    s ∈ m.allSrcRanks (m.new x) ∧ r ∈ m.needCommDstRanks (m.new x) ∧
      m.chosenSrcRank r (m.new x) = some s := by
  obtain ⟨other, -, chosen⟩ := (recvCase_p2p rank here).mp found
  have need := mem_needCommDstRanks.mpr ⟨rank, other, x, here, rfl⟩
  obtain ⟨s', source, chosen'⟩ :=
    exists_chosenSrcRank need (allSrcRanks_ne_nil (local_iff.mp ⟨rank, here⟩).1)
  obtain rfl : s' = s := some.inj (chosen'.symm.trans chosen)
  exact ⟨source, need, chosen⟩

end

theorem exists_p2p (need : d ∈ m.needCommDstRanks e) (chosen : m.chosenSrcRank d e = some s) :
    ∃ x ∈ m.localRange d, m.new x = e ∧ m.recvCase d x = some (.p2p s) := by
  obtain ⟨rank, other, x, here, rfl⟩ := mem_needCommDstRanks.mp need
  classical
  have some : ∃ y, y ∈ m.localRange d ∧ m.new y = m.new x := ⟨x, here, rfl⟩
  obtain ⟨local', same⟩ := Nat.find_spec some
  refine ⟨Nat.find some, local', same, (recvCase_p2p rank local').mpr ?_⟩
  rw [same]
  refine ⟨other, ?_, chosen⟩
  intro y ylocal below equal
  exact Nat.find_min some below ⟨ylocal, equal.trans same⟩

theorem mapM_of_some {α β : Type} {f : α → Option β} {l : List α}
    (every : ∀ a ∈ l, ∃ b, f a = some b) : l.mapM f = some (l.filterMap f) := by
  induction l with
  | nil => rfl
  | cons a l ih =>
    obtain ⟨b, hb⟩ := every a mem_cons_self
    rw [mapM_cons, hb, ih (fun c member => every c (mem_cons_of_mem _ member)),
      filterMap_cons_some hb]
    rfl

def casesOf (m : Migration) (r : Nat) : List (Nat × RecvCase) :=
  (m.localRange r).filterMap (fun dst => (m.recvCase r dst).map (fun c => (dst, c)))

theorem recvCases_eq (rank : r < m.worldSize) : m.recvCases r = some (m.casesOf r) := by
  refine mapM_of_some (fun x here => ?_)
  rcases recvCase_spec rank here with ⟨eq, -⟩ | ⟨src, -, eq, -⟩ | ⟨src, -, eq, -⟩ | ⟨s, -, eq, -⟩
  all_goals exact ⟨_, by rw [eq]; rfl⟩

theorem mem_casesOf {c : RecvCase} :
    (x, c) ∈ m.casesOf r ↔ x ∈ m.localRange r ∧ m.recvCase r x = some c := by
  simp only [casesOf, mem_filterMap, map_eq_some_iff, Prod.mk.injEq]
  constructor
  · rintro ⟨y, here, c', found, rfl, rfl⟩
    exact ⟨here, found⟩
  · rintro ⟨here, found⟩
    exact ⟨x, here, c, found, rfl, rfl⟩

def recvInfo (m : Migration) (numTensors : Nat) : Nat × RecvCase → Option P2POpInfo
  | (dst, .p2p srcRank) => some (m.new dst, recvOps numTensors dst srcRank)
  | _ => none

def copyOf : Nat × RecvCase → Option (Nat × Nat)
  | (_, .unchanged) => none
  | (dst, .sameGpu _) => some (dst, dst)
  | (dst, .freeRider src) => some (src, dst)
  | (dst, .p2p _) => some (dst, dst)

theorem perform_lists {α : Type} (weights : Tensors α) (cases : List (Nat × RecvCase)) :
    ∀ w : Work α, (cases.foldl (m.perform numTensors weights) w).infos =
        w.infos ++ cases.filterMap (m.recvInfo numTensors) ∧
      (cases.foldl (m.perform numTensors weights) w).copies =
        w.copies ++ cases.filterMap copyOf := by
  induction cases with
  | nil => simp
  | cons c cases ih =>
    intro w
    obtain ⟨infos, copies⟩ := ih (m.perform numTensors weights w c)
    rw [foldl_cons, infos, copies]
    obtain ⟨dst, c⟩ := c
    cases c with
    | unchanged => simp [perform, recvInfo, copyOf, filterMap_cons]
    | sameGpu src => simp [perform, recvInfo, copyOf, filterMap_cons]
    | freeRider src => simp [perform, recvInfo, copyOf, filterMap_cons]
    | p2p s => simp [perform, recvInfo, copyOf]

theorem mem_recvInfos {ops : List P2POp} :
    (e, ops) ∈ (m.casesOf r).filterMap (m.recvInfo numTensors) ↔
      ∃ x ∈ m.localRange r, ∃ s, m.recvCase r x = some (.p2p s) ∧ m.new x = e ∧
        ops = recvOps numTensors x s := by
  rw [mem_filterMap]
  constructor
  · rintro ⟨⟨x, c⟩, member, info⟩
    obtain ⟨here, found⟩ := mem_casesOf.mp member
    cases c with
    | p2p s =>
      cases info
      exact ⟨x, here, s, found, rfl, rfl⟩
    | unchanged => cases info
    | sameGpu src => cases info
    | freeRider src => cases info
  · rintro ⟨x, here, s, found, rfl, rfl⟩
    exact ⟨(x, .p2p s), mem_casesOf.mpr ⟨here, found⟩, rfl⟩

theorem nodup_recvInfos (rank : r < m.worldSize) :
    (((m.casesOf r).filterMap (m.recvInfo numTensors)).map Prod.fst).Nodup := by
  rw [casesOf, filterMap_filterMap, Nodup, pairwise_map, pairwise_filterMap]
  have order : (m.localRange r).Pairwise (· < ·) := pairwise_lt_range'
  refine order.imp_of_mem ?_
  intro x y xhere yhere below a ha b hb
  have p2p : ∀ {x : Nat} {a : P2POpInfo}, ((m.recvCase r x).map (fun c => (x, c))).bind
      (m.recvInfo numTensors) = some a → ∃ s, m.recvCase r x = some (.p2p s) ∧ a.1 = m.new x := by
    intro x a found
    cases known : m.recvCase r x with
    | none =>
      rw [known] at found
      cases found
    | some c =>
      rw [known] at found
      cases c with
      | p2p s => exact ⟨s, rfl, by rw [← some.inj found]⟩
      | unchanged => cases found
      | sameGpu src => cases found
      | freeRider src => cases found
  obtain ⟨-, -, keyA⟩ := p2p ha
  obtain ⟨s, found, keyB⟩ := p2p hb
  rw [keyA, keyB]
  exact ((recvCase_p2p rank yhere).mp found).2.1 x xhere below

theorem isendOpsOf_spec (numTensors : Nat) (source : r ∈ m.allSrcRanks e) (y : Nat) :
    ∃ dsts, m.isendOpsOf numTensors r e y = some (e, sendOps numTensors y dsts) ∧ dsts.Nodup ∧
      ∀ d, d ∈ dsts ↔ d ∈ m.needCommDstRanks e ∧ m.chosenSrcRank d e = some r := by
  obtain ⟨a, b, same, cross, distinct, mem⟩ := dstRanks_spec source
  exact ⟨a ++ b, by simp only [isendOpsOf, same, cross, bind_some, map_some],
    distinct, mem⟩

theorem createIsendOps_spec (numTensors : Nat) (rank : r < m.worldSize) (locations : List Nat)
    (sources : ∀ x ∈ locations, x ∈ m.localRange r) :
    ∀ handled : List Nat, ∃ infos, m.createIsendOps numTensors r locations handled = some infos ∧
      (infos.map Prod.fst).Nodup ∧
      ∀ e ops, (e, ops) ∈ infos ↔ e ∉ handled ∧
        ∃ y, locations.find? (fun x => m.old x = e) = some y ∧
          m.isendOpsOf numTensors r e y = some (e, ops) := by
  induction locations with
  | nil => exact fun handled => ⟨[], rfl, nodup_nil, by simp⟩
  | cons x locations ih =>
    intro handled
    have rest := ih (fun y member => sources y (mem_cons_of_mem _ member))
    rw [createIsendOps]
    by_cases known : m.old x ∈ handled
    · obtain ⟨infos, eq, distinct, mem⟩ := rest handled
      rw [if_pos known]
      refine ⟨infos, eq, distinct, fun e ops => (mem e ops).trans (and_congr_right fun fresh => ?_)⟩
      have other : m.old x ≠ e := fun same => fresh (same ▸ known)
      rw [find?_cons_of_neg (by simpa using other)]
    · obtain ⟨infos, eq, distinct, mem⟩ := rest (m.old x :: handled)
      have source : r ∈ m.allSrcRanks (m.old x) :=
        mem_allSrcRanks.mpr ⟨rank, x, sources x mem_cons_self, rfl⟩
      obtain ⟨dsts, here, -, -⟩ := isendOpsOf_spec numTensors source x
      rw [if_neg known, here, eq]
      refine ⟨_, rfl, ?_, fun e ops => ?_⟩
      · rw [map_cons, nodup_cons]
        refine ⟨fun listed => ?_, distinct⟩
        obtain ⟨⟨e, ops⟩, member, key⟩ := List.mem_map.mp listed
        exact ((mem e ops).mp member).1 (mem_cons.mpr (.inl key))
      · rw [mem_cons, mem]
        by_cases this : m.old x = e
        · subst this
          rw [find?_cons_of_pos (by simp)]
          simp [known, here, eq_comm]
        · rw [find?_cons_of_neg (by simpa using this)]
          simp [Ne.symm this]

def firstSlot (m : Migration) (r e : Nat) : Nat :=
  ((m.localRange r).find? (fun x => m.old x = e)).getD 0

theorem firstSlot_spec (source : r ∈ m.allSrcRanks e) :
    (m.localRange r).find? (fun x => m.old x = e) = some (m.firstSlot r e) ∧
      m.firstSlot r e ∈ m.localRange r ∧ m.old (m.firstSlot r e) = e := by
  unfold firstSlot
  obtain ⟨-, x, here, has⟩ := mem_allSrcRanks.mp source
  cases found : (m.localRange r).find? (fun x => m.old x = e) with
  | none => simpa [has] using find?_eq_none.mp found x here
  | some y => exact ⟨rfl, mem_of_find?_eq_some found, by simpa using find?_some found⟩

structure Batch (m : Migration) (numTensors r : Nat) (infos : List P2POpInfo) : Prop where
  distinct : (infos.map Prod.fst).Nodup
  of_mem : ∀ e ops, (e, ops) ∈ infos →
    (∃ x ∈ m.localRange r, ∃ s, m.recvCase r x = some (.p2p s) ∧ m.new x = e ∧
      ops = recvOps numTensors x s) ∨
    (r ∈ m.allSrcRanks e ∧ ∃ dsts, ops = sendOps numTensors (m.firstSlot r e) dsts ∧ dsts.Nodup ∧
      ∀ d, d ∈ dsts ↔ d ∈ m.needCommDstRanks e ∧ m.chosenSrcRank d e = some r)
  recv_mem : ∀ x ∈ m.localRange r, ∀ s, m.recvCase r x = some (.p2p s) →
    (m.new x, recvOps numTensors x s) ∈ infos
  send_mem : ∀ e, r ∈ m.allSrcRanks e → ∃ dsts,
    (e, sendOps numTensors (m.firstSlot r e) dsts) ∈ infos ∧
    dsts.Nodup ∧ ∀ d, d ∈ dsts ↔ d ∈ m.needCommDstRanks e ∧ m.chosenSrcRank d e = some r

theorem exists_batch (numTensors : Nat) (rank : r < m.worldSize) :
    ∃ sends, m.createIsendOps numTensors r (m.localRange r) [] = some sends ∧
      m.Batch numTensors r ((m.casesOf r).filterMap (m.recvInfo numTensors) ++ sends) := by
  obtain ⟨sends, created, distinct, mem⟩ :=
    createIsendOps_spec numTensors rank (m.localRange r) (fun _ here => here) []
  have source : ∀ {e ops}, (e, ops) ∈ sends → r ∈ m.allSrcRanks e := by
    intro e ops member
    obtain ⟨-, y, found, -⟩ := (mem e ops).mp member
    exact mem_allSrcRanks.mpr ⟨rank, y, mem_of_find?_eq_some found, by
      simpa using find?_some found⟩
  refine ⟨sends, created, ?_, ?_, ?_, ?_⟩
  · rw [map_append, nodup_append]
    refine ⟨nodup_recvInfos rank, distinct, ?_⟩
    rintro e received e' sent rfl
    obtain ⟨⟨e, ops⟩, rmem, rfl⟩ := List.mem_map.mp received
    obtain ⟨⟨e', ops'⟩, smem, same⟩ := List.mem_map.mp sent
    obtain rfl : e' = e := same
    obtain ⟨x, here, s, found, rfl, -⟩ := mem_recvInfos.mp rmem
    exact ((recvCase_p2p rank here).mp found).1 (source smem)
  · intro e ops member
    rcases mem_append.mp member with received | sent
    · exact .inl (mem_recvInfos.mp received)
    · have src := source sent
      obtain ⟨-, y, found, eq⟩ := (mem e ops).mp sent
      obtain ⟨dsts, ops', distinct', dmem⟩ := isendOpsOf_spec numTensors src y
      obtain rfl : y = m.firstSlot r e := some.inj (found.symm.trans (firstSlot_spec src).1)
      rw [ops'] at eq
      obtain ⟨-, rfl⟩ := Prod.mk.inj (some.inj eq)
      exact .inr ⟨src, dsts, rfl, distinct', dmem⟩
  · intro x here s found
    exact mem_append_left _ (mem_recvInfos.mpr ⟨x, here, s, found, rfl, rfl⟩)
  · intro e src
    obtain ⟨dsts, ops', distinct', dmem⟩ := isendOpsOf_spec numTensors src (m.firstSlot r e)
    refine ⟨dsts, mem_append_right _ ((mem e _).mpr ⟨by simp, _, (firstSlot_spec src).1, ops'⟩),
      distinct', dmem⟩

def Matches (m : Migration) (s d : Nat) : P2POp → P2POp → Prop
  | .irecv i x p, .isend j y q => p = s ∧ q = d ∧ i = j ∧ x ∈ m.localRange d ∧
      s ∈ m.allSrcRanks (m.new x) ∧
      m.recvCase d x = some (.p2p s) ∧ y = m.firstSlot s (m.new x)
  | _, _ => False

theorem recvsFrom_recvOps (x s p : Nat) :
    recvsFrom p (recvOps numTensors x s) = if s = p then recvOps numTensors x s else [] := by
  unfold recvsFrom recvOps
  rw [List.filter_map]
  by_cases same : s = p
  · simp [same, comp_def]
  · simp [same, comp_def]

theorem recvsFrom_sendOps (y p : Nat) (dsts : List Nat) :
    recvsFrom p (sendOps numTensors y dsts) = [] := by
  unfold recvsFrom sendOps
  rw [filter_eq_nil_iff]
  intro op member
  obtain ⟨d, -, listed⟩ := mem_flatMap.mp member
  obtain ⟨i, -, rfl⟩ := List.mem_map.mp listed
  simp

theorem sendsTo_recvOps (x s p : Nat) : sendsTo p (recvOps numTensors x s) = [] := by
  unfold sendsTo recvOps
  rw [filter_eq_nil_iff]
  intro op member
  obtain ⟨i, -, rfl⟩ := List.mem_map.mp member
  simp

theorem sendsTo_sendOps (y p : Nat) {dsts : List Nat} (distinct : dsts.Nodup) :
    sendsTo p (sendOps numTensors y dsts) =
      if p ∈ dsts then (range numTensors).map (fun i => .isend i y p) else [] := by
  induction dsts with
  | nil => rfl
  | cons d dsts ih =>
    obtain ⟨fresh, distinct'⟩ := nodup_cons.mp distinct
    have rest := ih distinct'
    unfold sendsTo sendOps at rest ⊢
    rw [flatMap_cons, filter_append, rest, List.filter_map]
    by_cases same : d = p
    · subst same
      simp [fresh, comp_def]
    · simp [same, Ne.symm same, comp_def]

theorem postingOrder_filter (p : P2POp → Bool) (infos : List P2POpInfo) :
    (postingOrder infos).filter p =
      (infos.insertionSort (fun a b => a.1 ≤ b.1)).flatMap (fun info => info.2.filter p) := by
  rw [postingOrder, filter_flatMap]

theorem forall₂_matches {here there : List P2POpInfo} (rank : d < m.worldSize)
    (recv : m.Batch numTensors d here) (send : m.Batch numTensors s there) :
    Forall₂ (m.Matches s d) (recvsFrom s (postingOrder here)) (sendsTo d (postingOrder there)) := by
  have agree : ∀ {x : Nat} {dsts : List Nat}, x ∈ m.localRange d → m.recvCase d x = some (.p2p s) →
      s ∈ m.allSrcRanks (m.new x) → dsts.Nodup → d ∈ dsts →
      Forall₂ (m.Matches s d) (recvsFrom s (recvOps numTensors x s))
        (sendsTo d (sendOps numTensors (m.firstSlot s (m.new x)) dsts)) := by
    intro x dsts local' found source distinct listed
    rw [recvsFrom_recvOps, if_pos rfl, sendsTo_sendOps _ _ distinct, if_pos listed, recvOps,
      forall₂_map_left_iff, forall₂_map_right_iff, forall₂_same]
    exact fun i _ => ⟨rfl, rfl, rfl, local', source, found, rfl⟩
  unfold recvsFrom sendsTo
  rw [postingOrder_filter, postingOrder_filter]
  refine forall₂_flatMap (f := fun ops => recvsFrom s ops)
    (g := fun ops => sendsTo d ops) _ _
    (keyed_insertionSort recv.distinct)
    (keyed_insertionSort send.distinct) ?_ ?_
  · intro e ops member busy
    rw [mem_insertionSort] at member
    rcases recv.of_mem e ops member with ⟨x, local', s', found, rfl, rfl⟩ | ⟨-, dsts, rfl, -, -⟩
    · obtain rfl : s' = s := by
        by_contra other
        exact busy ((recvsFrom_recvOps x s' s).trans (if_neg other))
      obtain ⟨source, need, chosen⟩ := source_of_p2p rank local' found
      obtain ⟨dsts, sent, distinct, dmem⟩ := send.send_mem _ source
      exact ⟨_, mem_insertionSort _ |>.mpr sent,
        agree local' found source distinct ((dmem d).mpr ⟨need, chosen⟩)⟩
    · exact absurd (recvsFrom_sendOps _ _ _) busy
  · intro e ops member busy
    rw [mem_insertionSort] at member
    rcases send.of_mem e ops member with ⟨x, -, s', -, -, rfl⟩ | ⟨source, dsts, rfl, distinct, dmem⟩
    · exact absurd (sendsTo_recvOps _ _ _) busy
    · have listed : d ∈ dsts := by
        by_contra absent
        exact busy ((sendsTo_sendOps _ _ distinct).trans (if_neg absent))
      obtain ⟨need, chosen⟩ := (dmem d).mp listed
      obtain ⟨x, local', rfl, found⟩ := exists_p2p need chosen
      exact ⟨_, mem_insertionSort _ |>.mpr (recv.recv_mem x local' s found),
        (agree local' found source distinct listed).flip⟩

end Migration

end RedKnot.Eplb
