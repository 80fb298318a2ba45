import Mathlib.Tactic

/-! Trees stored in a heap of linked nodes. Nothing is known about garbage: every statement is about
live nodes. -/

open Function

structure LinkedTree (κ : Type) where
  root : Nat
  next : Nat
  parent : Nat → Option Nat
  kid : Nat → κ → Option Nat
  tag : Nat → κ

namespace LinkedTree

open Finset List

variable {κ : Type}

inductive InTree (T : LinkedTree κ) : Nat → Prop where
  | root : InTree T T.root
  | child {p c : Nat} {k : κ} : InTree T p → T.kid p k = some c → InTree T c

inductive Below (T : LinkedTree κ) (a : Nat) : Nat → Prop where
  | refl : Below T a a
  | child {p c : Nat} {k : κ} : Below T a p → T.kid p k = some c → Below T a c

structure Outline where
  live : Finset Nat
  chain : Nat → List Nat

structure Shape (T : LinkedTree κ) (G : Outline) : Prop where
  root_live : T.root ∈ G.live
  live_lt : ∀ n ∈ G.live, n < T.next
  chain_root : G.chain T.root = []
  up : ∀ n ∈ G.live, n ≠ T.root →
    ∃ p ∈ G.live, T.parent n = some p ∧ T.kid p (T.tag n) = some n ∧ G.chain n = G.chain p ++ [n]
  down : ∀ p ∈ G.live, ∀ k c, T.kid p k = some c →
    c ∈ G.live ∧ c ≠ T.root ∧ T.parent c = some p ∧ T.tag c = k

def Outline.along {α : Type} (G : Outline) (f : Nat → List α) (n : Nat) : List α :=
  (G.chain n).flatMap f

def Outline.total {M : Type} [AddCommMonoid M] (G : Outline) (root : Nat) (f : Nat → M) : M :=
  ∑ n ∈ G.live.erase root, f n

namespace Shape

variable {T : LinkedTree κ} {G : Outline} (S : T.Shape G)
include S

theorem chain_up {n p : Nat} (live : n ∈ G.live) (inner : n ≠ T.root) (hp : T.parent n = some p) :
    p ∈ G.live ∧ T.kid p (T.tag n) = some n ∧ G.chain n = G.chain p ++ [n] := by
  obtain ⟨q, hq, hparent, hkid, hchain⟩ := S.up n live inner
  have same : q = p := Option.some.inj (hparent.symm.trans hp)
  exact ⟨same ▸ hq, same ▸ hkid, same ▸ hchain⟩

theorem ne_of_fresh {n c : Nat} (live : n ∈ G.live) (fresh : T.next ≤ c) : n ≠ c := by
  have := S.live_lt n live
  omega

theorem fresh_not_mem {c : Nat} (fresh : T.next ≤ c) : c ∉ G.live :=
  fun live => S.ne_of_fresh live fresh rfl

theorem congr {T' : LinkedTree κ} (root : T'.root = T.root) (next : T.next ≤ T'.next)
    (same : ∀ n ∈ G.live, T'.parent n = T.parent n ∧ T'.kid n = T.kid n ∧ T'.tag n = T.tag n) :
    T'.Shape G where
  root_live := root ▸ S.root_live
  live_lt := fun n live => lt_of_lt_of_le (S.live_lt n live) next
  chain_root := by rw [root, S.chain_root]
  up := by
    intro n live inner
    obtain ⟨p, plive, hparent, hkid, hchain⟩ := S.up n live (root ▸ inner)
    refine ⟨p, plive, ?_, ?_, hchain⟩
    · rw [(same n live).1, hparent]
    · rw [(same n live).2.2, (same p plive).2.1, hkid]
  down := by
    intro p plive k c hkid
    rw [(same p plive).2.1] at hkid
    obtain ⟨clive, cinner, hparent, htag⟩ := S.down p plive k c hkid
    refine ⟨clive, root ▸ cinner, ?_, ?_⟩
    · rw [(same c clive).1, hparent]
    · rw [(same c clive).2.2, htag]

theorem induction {P : Nat → Prop} (base : P T.root)
    (step : ∀ p n, p ∈ G.live → n ∈ G.live → n ≠ T.root → T.parent n = some p →
      T.kid p (T.tag n) = some n → G.chain n = G.chain p ++ [n] → P p → P n) :
    ∀ n ∈ G.live, P n := by
  have main : ∀ len n, (G.chain n).length = len → n ∈ G.live → P n := by
    intro len
    induction len with
    | zero =>
      intro n hlen live
      by_cases inner : n = T.root
      · exact inner ▸ base
      · obtain ⟨p, _, _, _, hchain⟩ := S.up n live inner
        simp [hchain] at hlen
    | succ len ih =>
      intro n hlen live
      by_cases inner : n = T.root
      · exact inner ▸ base
      · obtain ⟨p, hp, hparent, hkid, hchain⟩ := S.up n live inner
        have shorter : (G.chain p).length = len := by
          simpa [hchain] using hlen
        exact step p n hp live inner hparent hkid hchain (ih p shorter hp)
  exact fun n live => main _ n rfl live

section

variable {n : Nat} (live : n ∈ G.live)
include live

theorem self_mem_chain (inner : n ≠ T.root) : n ∈ G.chain n := by
  obtain ⟨p, _, _, _, hchain⟩ := S.up n live inner
  simp [hchain]

theorem chain_live : ∀ m ∈ G.chain n, m ∈ G.live ∧ m ≠ T.root := by
  refine S.induction (P := fun n => ∀ m ∈ G.chain n, m ∈ G.live ∧ m ≠ T.root) ?_ ?_ n live
  · simp [S.chain_root]
  · intro p n _ hn inner _ _ hchain ih m hm
    rw [hchain] at hm
    rcases mem_append.mp hm with hm | hm
    · exact ih m hm
    · have same : m = n := by simpa using hm
      exact same ▸ ⟨hn, inner⟩

theorem chain_of_mem : ∀ m ∈ G.chain n, G.chain m <+: G.chain n := by
  refine S.induction (P := fun n => ∀ m ∈ G.chain n, G.chain m <+: G.chain n) ?_ ?_ n live
  · simp [S.chain_root]
  · intro p n _ _ _ _ _ hchain ih m hm
    rw [hchain] at hm ⊢
    rcases mem_append.mp hm with hm | hm
    · exact (ih m hm).trans (prefix_append _ _)
    · have same : m = n := by simpa using hm
      rw [same, hchain]

theorem chain_nodup : (G.chain n).Nodup := by
  refine S.induction (P := fun n => (G.chain n).Nodup) ?_ ?_ n live
  · simp [S.chain_root]
  · intro p n hp _ _ _ _ hchain ih
    rw [hchain]
    refine Nodup.append ih (by simp) ?_
    intro m hm hm'
    have same : m = n := by simpa using hm'
    subst same
    have shorter := (S.chain_of_mem hp m hm).length_le
    rw [hchain] at shorter
    simp at shorter

theorem chain_length_lt : (G.chain n).length < T.next := by
  have inside : (G.chain n).toFinset ⊆ (Finset.range T.next).erase T.root := by
    intro m hm
    have h := S.chain_live live m (mem_toFinset.mp hm)
    exact mem_erase.mpr ⟨h.2, Finset.mem_range.mpr (S.live_lt m h.1)⟩
  have bound := card_le_card inside
  rw [toFinset_card_of_nodup (S.chain_nodup live),
    card_erase_of_mem (Finset.mem_range.mpr (S.live_lt _ S.root_live)),
    card_range] at bound
  have := S.live_lt _ S.root_live
  omega

end

theorem mem_live_iff {n : Nat} : n ∈ G.live ↔ T.InTree n := by
  constructor
  · intro live
    exact S.induction (P := T.InTree) .root (fun p n _ _ _ _ hkid _ ih => .child ih hkid) n live
  · intro h
    induction h with
    | root => exact S.root_live
    | child _ hkid ih => exact (S.down _ ih _ _ hkid).1

theorem below_live {a n : Nat} (alive : a ∈ G.live) (h : T.Below a n) : n ∈ G.live := by
  induction h with
  | refl => exact alive
  | child _ hkid ih => exact (S.down _ ih _ _ hkid).1

theorem mem_chain_iff_below {a n : Nat} (alive : a ∈ G.live) (inner : a ≠ T.root)
    (live : n ∈ G.live) : a ∈ G.chain n ↔ T.Below a n := by
  constructor
  · refine S.induction (P := fun n => a ∈ G.chain n → T.Below a n) ?_ ?_ n live
    · simp [S.chain_root]
    · intro p n _ _ _ _ hkid hchain ih hm
      rw [hchain] at hm
      rcases mem_append.mp hm with hm | hm
      · exact .child (ih hm) hkid
      · have same : a = n := by simpa using hm
        exact same ▸ .refl
  · intro h
    induction h with
    | refl => exact S.self_mem_chain alive inner
    | @child p c k hb hkid ih =>
      have plive := S.below_live alive hb
      obtain ⟨clive, cinner, hparent, _⟩ := S.down p plive k c hkid
      rw [(S.chain_up clive cinner hparent).2.2]
      exact mem_append_left _ (ih plive)

variable {α : Type}

theorem along_root (f : Nat → List α) : G.along f T.root = [] := by
  simp [Outline.along, S.chain_root]

theorem along_up (f : Nat → List α) {n p : Nat} (live : n ∈ G.live)
    (inner : n ≠ T.root) (hp : T.parent n = some p) : G.along f n = G.along f p ++ f n := by
  simp [Outline.along, (S.chain_up live inner hp).2.2]

theorem along_congr {f g : Nat → List α} {n : Nat} (live : n ∈ G.live)
    (same : ∀ m ∈ G.live, m ≠ T.root → f m = g m) : G.along f n = G.along g n := by
  unfold Outline.along
  apply flatMap_congr
  intro m hm
  have h := S.chain_live live m hm
  exact same m h.1 h.2

theorem along_of_mem (f : Nat → List α) {n m : Nat} (live : n ∈ G.live)
    (hm : m ∈ G.chain n) : G.along f m <+: G.along f n := by
  obtain ⟨rest, hrest⟩ := S.chain_of_mem live m hm
  exact ⟨rest.flatMap f, by simp [Outline.along, ← hrest]⟩

theorem along_length_eq {β : Type} {f : Nat → List α} {g : Nat → List β} {n : Nat}
    (live : n ∈ G.live) (same : ∀ m ∈ G.live, m ≠ T.root → (f m).length = (g m).length) :
    (G.along f n).length = (G.along g n).length := by
  refine S.induction (P := fun n => (G.along f n).length = (G.along g n).length) ?_ ?_ n live
  · simp [S.along_root]
  · intro p n _ hn inner hparent _ _ ih
    rw [S.along_up f hn inner hparent, S.along_up g hn inner hparent, length_append,
      length_append, ih, same n hn inner]

end Shape

namespace Outline

variable {M : Type} {G : Outline} {root : Nat} {f g : Nat → M}

theorem total_congr [AddCommMonoid M] (same : ∀ n ∈ G.live, n ≠ root → f n = g n) :
    G.total root f = G.total root g := by
  apply sum_congr rfl
  intro n hn
  exact same n (Finset.mem_of_mem_erase hn) (ne_of_mem_erase hn)

theorem total_change [AddCommGroup M] {a : Nat} (live : a ∈ G.live) (inner : a ≠ root)
    (same : ∀ n ∈ G.live, n ≠ root → n ≠ a → g n = f n) :
    G.total root g = G.total root f - f a + g a := by
  have ha : a ∈ G.live.erase root := mem_erase.mpr ⟨inner, live⟩
  have rest : ∑ n ∈ (G.live.erase root).erase a, g n = ∑ n ∈ (G.live.erase root).erase a, f n := by
    apply sum_congr rfl
    intro n hn
    have h := Finset.mem_of_mem_erase hn
    exact same n (Finset.mem_of_mem_erase h) (ne_of_mem_erase h) (ne_of_mem_erase hn)
  unfold total
  rw [← sum_erase_add _ g ha, ← sum_erase_add _ f ha, rest]
  abel

end Outline

end LinkedTree
