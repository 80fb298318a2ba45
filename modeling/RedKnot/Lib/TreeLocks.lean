import RedKnot.Lib.TreeEdit

/-! Locks on paths. A lock taken on a node counts at each node up to the root, which is left out. -/

namespace LinkedTree

open Finset List

variable {κ : Type} {T : LinkedTree κ} {G : Outline}

def Outline.holders (G : Outline) (L : List Nat) (n : Nat) : Nat := L.countP (n ∈ G.chain ·)

namespace Outline

variable {L : List Nat} {m n : Nat}

theorem holders_cons (G : Outline) (L : List Nat) (m n : Nat) :
    G.holders (m :: L) n = G.holders L n + if n ∈ G.chain m then 1 else 0 := by
  simp [holders, countP_cons]

theorem holders_erase (held : m ∈ L) (n : Nat) :
    G.holders L n = G.holders (L.erase m) n + if n ∈ G.chain m then 1 else 0 := by
  rw [← holders_cons]
  exact (perm_cons_erase held).countP_eq _

theorem holders_congr {G' : Outline} {n' : Nat}
    (same : ∀ m ∈ L, n' ∈ G'.chain m ↔ n ∈ G.chain m) : G'.holders L n' = G.holders L n := by
  apply countP_congr
  intro m hm
  simp [same m hm]

theorem total_shift {M : Type} [AddCommGroup M] {root : Nat} {f g d : Nat → M} {ns : List Nat}
    (nodup : ns.Nodup) (inside : ∀ n ∈ ns, n ∈ G.live ∧ n ≠ root)
    (moved : ∀ n ∈ G.live, n ≠ root → g n = f n + if n ∈ ns then d n else 0) :
    G.total root g = G.total root f + (ns.map d).sum := by
  have sub : ns.toFinset ⊆ G.live.erase root := by
    intro n hn
    obtain ⟨live, inner⟩ := inside n (mem_toFinset.mp hn)
    exact mem_erase.mpr ⟨inner, live⟩
  have split : G.total root g = G.total root f + ∑ n ∈ G.live.erase root, if n ∈ ns then d n else 0 := by
    unfold total
    rw [← sum_add_distrib]
    apply sum_congr rfl
    intro n hn
    exact moved n (Finset.mem_of_mem_erase hn) (ne_of_mem_erase hn)
  have chosen : ∑ n ∈ G.live.erase root, (if n ∈ ns then d n else 0) = ∑ n ∈ ns.toFinset, d n := by
    rw [← sum_filter]
    congr 1
    ext n
    simp only [Finset.mem_filter, mem_toFinset]
    exact ⟨fun h => h.2, fun h => ⟨sub (mem_toFinset.mpr h), h⟩⟩
  rw [split, chosen, sum_toFinset d nodup]

end Outline

namespace Shape

variable (S : T.Shape G) {L : List Nat} {p c a n : Nat}
include S

theorem holders_eq_below [DecidablePred (T.Below n)] (live : n ∈ G.live) (inner : n ≠ T.root)
    (held : ∀ m ∈ L, m ∈ G.live) : G.holders L n = L.countP (T.Below n ·) := by
  apply countP_congr
  intro m hm
  simp [S.mem_chain_iff_below live inner (held m hm)]

theorem not_mem_of_holders_zero (live : n ∈ G.live) (inner : n ≠ T.root)
    (free : G.holders L n = 0) : n ∉ L := by
  intro held
  have := countP_eq_zero.mp free n held
  simp [S.self_mem_chain live inner] at this

theorem holders_mono {m : Nat} (above : n ∈ G.chain m) (held : ∀ l ∈ L, l ∈ G.live) :
    G.holders L m ≤ G.holders L n := by
  apply countP_mono_left
  intro l hl below
  have hm : m ∈ G.chain l := by simpa using below
  have hn : n ∈ G.chain l := (S.chain_of_mem (held l hl) m hm).subset above
  simpa using hn

section

variable (fresh : T.next ≤ c) (held : ∀ m ∈ L, m ∈ G.live)
include fresh held

theorem holders_attach_old : (G.attach p c).holders L n = G.holders L n := by
  apply Outline.holders_congr
  intro m hm
  rw [S.attach_chain_old fresh (held m hm)]

theorem holders_attach_new : (G.attach p c).holders L c = 0 := by
  rw [S.holders_attach_old fresh held]
  apply countP_eq_zero.mpr
  intro m hm below
  have hc : c ∈ G.chain m := by simpa using below
  exact S.fresh_not_mem fresh (S.chain_live (held m hm) c hc).1

end

theorem holders_split_old (fresh : T.next ≤ a) (live : n ∈ G.live) (held : ∀ m ∈ L, m ∈ G.live) :
    (G.split p c a).holders L n = G.holders L n := by
  apply Outline.holders_congr
  intro m hm
  rw [S.mem_split_chain fresh (held m hm)]
  simp [S.ne_of_fresh live fresh]

theorem holders_split_new (fresh : T.next ≤ a) (held : ∀ m ∈ L, m ∈ G.live) :
    (G.split p c a).holders L a = G.holders L c := by
  apply Outline.holders_congr
  intro m hm
  have absent : a ∉ G.chain m := fun h => S.fresh_not_mem fresh (S.chain_live (held m hm) a h).1
  rw [S.mem_split_chain fresh (held m hm)]
  simp [absent]

theorem exists_leaf_below (live : n ∈ G.live) (inner : n ≠ T.root) :
    ∃ m ∈ G.live, n ∈ G.chain m ∧ ∀ k, T.kid m k = none := by
  -- Take the node below with the longest chain.
  obtain ⟨m, hm, longest⟩ := exists_max_image (G.live.filter (n ∈ G.chain ·))
    (fun m => (G.chain m).length) ⟨n, by simp [live, S.self_mem_chain live inner]⟩
  obtain ⟨mlive, above⟩ := Finset.mem_filter.mp hm
  refine ⟨m, mlive, above, fun k => ?_⟩
  by_contra some
  obtain ⟨c, found⟩ := Option.ne_none_iff_exists'.mp some
  obtain ⟨clive, cinner, cparent, _⟩ := S.down m mlive k c found
  obtain ⟨_, _, chain⟩ := S.chain_up clive cinner cparent
  have := longest c (Finset.mem_filter.mpr ⟨clive, by simp [chain, above]⟩)
  rw [chain, length_append] at this
  simp at this

end Shape

end LinkedTree
