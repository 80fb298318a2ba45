import Mathlib.Tactic

/-! Two lists of entries in increasing order of their keys, where what contributes on one side has
its partner on the other. -/

namespace KeyedFlow

open List

variable {κ α β γ δ : Type}

/-- Every entry of `A` that contributes something has a partner in `B`. -/
def Paired (R : γ → δ → Prop) (f : α → List γ) (g : β → List δ) (A : List (κ × α))
    (B : List (κ × β)) : Prop :=
  ∀ k a, (k, a) ∈ A → f a ≠ [] → ∃ b, (k, b) ∈ B ∧ Forall₂ R (f a) (g b)

variable {R : γ → δ → Prop} {f : α → List γ} {g : β → List δ}

section

variable {A : List (κ × α)}

theorem flatMap_nil (paired : Paired R f g A ([] : List (κ × β))) :
    A.flatMap (fun e => f e.2) = [] := by
  rw [flatMap_eq_nil_iff]
  intro e member
  by_contra some
  obtain ⟨b, missing, -⟩ := paired e.1 e.2 member some
  cases missing

theorem Paired.skip {e : κ × β} {B : List (κ × β)}
    (paired : Paired R f g A (e :: B)) (absent : ∀ a, (e.1, a) ∉ A) : Paired R f g A B := by
  intro k a member some
  obtain ⟨b, found, agree⟩ := paired k a member some
  rcases mem_cons.mp found with same | later
  · exact absurd (congrArg Prod.fst same ▸ member) (absent a)
  · exact ⟨b, later, agree⟩

theorem Paired.tail {e : κ × α} {B : List (κ × β)}
    (paired : Paired R f g (e :: A) B) : Paired R f g A B :=
  fun k a member => paired k a (mem_cons_of_mem _ member)

end

abbrev Keyed [LinearOrder κ] (l : List (κ × α)) : Prop := l.Pairwise (fun a b => a.1 < b.1)

variable [LinearOrder κ]

theorem not_mem_of_lt {l : List (κ × α)} {e : κ × α} (keyed : Keyed (e :: l)) {k : κ}
    (below : k < e.1)
    (a : α) : (k, a) ∉ e :: l := by
  intro member
  rcases mem_cons.mp member with same | later
  · exact absurd (congrArg Prod.fst same) below.ne
  · exact absurd ((rel_of_pairwise_cons keyed later).trans below) (lt_irrefl _)

theorem keyed_insertionSort {l : List (κ × α)} (distinct : (l.map Prod.fst).Nodup) :
    Keyed (l.insertionSort (fun a b => a.1 ≤ b.1)) := by
  have : Std.Total (fun a b : κ × α => a.1 ≤ b.1) := ⟨fun a b => le_total a.1 b.1⟩
  have : IsTrans (κ × α) (fun a b => a.1 ≤ b.1) := ⟨fun _ _ _ => le_trans⟩
  have order := pairwise_insertionSort (fun a b : κ × α => a.1 ≤ b.1) l
  have apart : ((l.insertionSort (fun a b => a.1 ≤ b.1)).map Prod.fst).Nodup :=
    ((perm_insertionSort _ l).map Prod.fst).nodup_iff.mpr distinct
  exact (order.and (pairwise_map.mp apart)).imp (fun both => lt_of_le_of_ne both.1 both.2)

theorem forall₂_flatMap (A : List (κ × α)) (B : List (κ × β)) (orderA : Keyed A) (orderB : Keyed B)
    (forth : Paired R f g A B) (back : Paired (fun d c => R c d) g f B A) :
    Forall₂ R (A.flatMap (fun e => f e.2)) (B.flatMap (fun e => g e.2)) := by
  match A, B with
  | [], B =>
    rw [flatMap_nil back]
    exact .nil
  | a :: A, [] =>
    rw [flatMap_nil forth]
    exact .nil
  | (k, a) :: A, (k', b) :: B =>
    have orderA' := (pairwise_cons.mp orderA).2
    have orderB' := (pairwise_cons.mp orderB).2
    rcases lt_trichotomy k k' with below | rfl | above
    · -- The first entry of `A` has no partner.
      have absent : ∀ d, (k, d) ∉ (k', b) :: B := not_mem_of_lt orderB below
      have silent : f a = [] := by
        by_contra some
        obtain ⟨d, found, -⟩ := forth k a mem_cons_self some
        exact absent d found
      rw [flatMap_cons, silent, nil_append]
      exact forall₂_flatMap A _ orderA' orderB forth.tail (back.skip absent)
    · have onlyA : ∀ d, (k, d) ∉ A := by
        intro d later
        exact absurd (rel_of_pairwise_cons orderA later) (lt_irrefl _)
      have onlyB : ∀ d, (k, d) ∉ B := by
        intro d later
        exact absurd (rel_of_pairwise_cons orderB later) (lt_irrefl _)
      have heads : Forall₂ R (f a) (g b) := by
        by_cases silent : f a = []
        · by_cases silent' : g b = []
          · rw [silent, silent']
            exact .nil
          · obtain ⟨d, found, agree⟩ := back k b mem_cons_self silent'
            rcases mem_cons.mp found with same | later
            · rw [(Prod.mk.inj same).2] at agree
              exact Forall₂.flip agree
            · exact absurd later (onlyA d)
        · obtain ⟨d, found, agree⟩ := forth k a mem_cons_self silent
          rcases mem_cons.mp found with same | later
          · rw [(Prod.mk.inj same).2] at agree
            exact agree
          · exact absurd later (onlyB d)
      rw [flatMap_cons, flatMap_cons]
      exact rel_append heads
        (forall₂_flatMap A B orderA' orderB' (forth.tail.skip onlyA) (back.tail.skip onlyB))
    · have absent : ∀ d, (k', d) ∉ (k, a) :: A := not_mem_of_lt orderA above
      have silent : g b = [] := by
        by_contra some
        obtain ⟨d, found, -⟩ := back k' b mem_cons_self some
        exact absent d found
      rw [flatMap_cons (x := (k', b)), silent, nil_append]
      exact forall₂_flatMap _ B orderA orderB' (forth.skip absent) back.tail
termination_by A.length + B.length

end KeyedFlow
