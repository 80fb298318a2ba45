import Mathlib.Tactic

/-! A binary heap library seen through its documented behaviour. Popping a valid heap gives a
smallest entry; nothing is promised about which of several. -/

structure Heapq where
  Valid : {α κ : Type} → [LinearOrder κ] → (α → κ) → List α → Prop
  heapify : {α κ : Type} → [LinearOrder κ] → (α → κ) → List α → List α
  heappush : {α κ : Type} → [LinearOrder κ] → (α → κ) → List α → α → List α
  heappop : {α κ : Type} → [LinearOrder κ] → (α → κ) → List α → Option (α × List α)
  heapify_valid : ∀ {α κ : Type} [LinearOrder κ] (key : α → κ) (l : List α), Valid key (heapify key l)
  heapify_perm : ∀ {α κ : Type} [LinearOrder κ] (key : α → κ) (l : List α), (heapify key l).Perm l
  heappush_valid : ∀ {α κ : Type} [LinearOrder κ] (key : α → κ) (h : List α) (x : α),
    Valid key h → Valid key (heappush key h x)
  heappush_perm : ∀ {α κ : Type} [LinearOrder κ] (key : α → κ) (h : List α) (x : α),
    (heappush key h x).Perm (x :: h)
  heappop_nil : ∀ {α κ : Type} [LinearOrder κ] (key : α → κ), heappop key ([] : List α) = none
  heappop_cons : ∀ {α κ : Type} [LinearOrder κ] (key : α → κ) (h : List α), Valid key h → h ≠ [] →
    ∃ x rest, heappop key h = some (x, rest) ∧ h.Perm (x :: rest) ∧ (∀ y ∈ h, key x ≤ key y) ∧
      Valid key rest

namespace Heapq

open List

def popMin {α κ : Type} [LinearOrder κ] (key : α → κ) : List α → Option (α × List α)
  | [] => none
  | x :: l =>
    match popMin key l with
    | none => some (x, [])
    | some (y, rest) => if key y < key x then some (y, x :: rest) else some (x, y :: rest)

theorem popMin_spec {α κ : Type} [LinearOrder κ] (key : α → κ) (x : α) (l : List α) :
    ∃ y rest, popMin key (x :: l) = some (y, rest) ∧ (x :: l).Perm (y :: rest) ∧
      ∀ z ∈ x :: l, key y ≤ key z := by
  induction l generalizing x with
  | nil => exact ⟨x, [], rfl, Perm.refl _, by simp⟩
  | cons a l ih =>
    obtain ⟨y, rest, hpop, hperm, hmin⟩ := ih a
    rw [popMin, hpop]
    by_cases less : key y < key x
    · refine ⟨y, x :: rest, by simp [less], ?_, ?_⟩
      · exact (hperm.cons x).trans (Perm.swap y x rest)
      · exact forall_mem_cons.mpr ⟨le_of_lt less, hmin⟩
    · refine ⟨x, y :: rest, by simp [less], hperm.cons x, forall_mem_cons.mpr ⟨le_refl _, ?_⟩⟩
      exact fun z hz => le_trans (not_lt.mp less) (hmin z hz)

def scan : Heapq where
  Valid := fun _ _ => True
  heapify := fun _ l => l
  heappush := fun _ h x => x :: h
  heappop := fun key h => popMin key h
  heapify_valid := fun _ _ => trivial
  heapify_perm := fun _ l => Perm.refl l
  heappush_valid := fun _ _ _ _ => trivial
  heappush_perm := fun _ _ _ => Perm.refl _
  heappop_nil := fun _ => rfl
  heappop_cons := by
    intro α κ _ key h _ ne
    obtain ⟨x, l, rfl⟩ := exists_cons_of_ne_nil ne
    obtain ⟨y, rest, hpop, hperm, hmin⟩ := popMin_spec key x l
    exact ⟨y, rest, hpop, hperm, hmin, trivial⟩

end Heapq
