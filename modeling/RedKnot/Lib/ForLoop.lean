import Mathlib.Data.List.Basic

/-! Loops that may fail, and tables that such loops fill entry by entry. -/

namespace RedKnot

open List

variable {ε σ α : Type}

/-- `for i in range(n)`: the body runs at `0, …, n - 1` and a failure ends the loop. -/
def forRange : Nat → (Nat → σ → Except ε σ) → σ → Except ε σ
  | 0, _, s => .ok s
  | n + 1, body, s => do body n (← forRange n body s)

theorem forRange_ok {P : Nat → σ → Prop} {n : Nat} {body : Nat → σ → Except ε σ} {s : σ}
    (start : P 0 s)
    (turn : ∀ i < n, ∀ s, P i s → ∃ s', body i s = .ok s' ∧ P (i + 1) s') :
    ∃ s', forRange n body s = .ok s' ∧ P n s' := by
  induction n with
  | zero => exact ⟨s, rfl, start⟩
  | succ n ih =>
    obtain ⟨mid, runs, inv⟩ := ih fun i hi => turn i (Nat.lt_succ_of_lt hi)
    obtain ⟨last, ends, inv⟩ := turn n n.lt_succ_self mid inv
    refine ⟨last, ?_, inv⟩
    simp only [forRange, runs]
    exact ends

theorem forRange_nested_ok {P : Nat → σ → Prop} {m n : Nat} {body : Nat → σ → Except ε σ}
    {f : Nat → Nat → σ → Except ε σ} {s : σ} (start : P 0 s)
    (opens : ∀ h < m, ∀ s, body h s = forRange n (f h) s)
    (turn : ∀ h < m, ∀ g < n, ∀ s, P (h * n + g) s →
      ∃ s', f h g s = .ok s' ∧ P (h * n + g + 1) s') :
    ∃ s', forRange m body s = .ok s' ∧ P (m * n) s' := by
  apply forRange_ok (P := fun h s => P (h * n) s)
  · rwa [Nat.zero_mul]
  · intro h hh s inv
    obtain ⟨s', runs, inv⟩ : ∃ s', forRange n (f h) s = .ok s' ∧ P (h * n + n) s' :=
      forRange_ok (P := fun g s => P (h * n + g) s) inv fun g hg s inv => turn h hh g hg s inv
    exact ⟨s', (opens h hh s).trans runs, by rwa [Nat.succ_mul]⟩

theorem of_foldlM {f : σ → α → Option σ} {P : σ → Prop} {as : List α} {s s' : σ}
    (turn : ∀ s, ∀ a ∈ as, ∀ s', P s → f s a = some s' → P s') (start : P s)
    (h : as.foldlM f s = some s') : P s' := by
  induction as generalizing s with
  | nil => exact Option.some.inj h ▸ start
  | cons a as ih =>
    rw [foldlM_cons] at h
    obtain ⟨mid, first, later⟩ := Option.bind_eq_some_iff.mp h
    exact ih (fun s b mem => turn s b (mem_cons_of_mem _ mem))
      (turn s a mem_cons_self mid start first) later

structure Filled (size : Nat) (value : Nat → α) (slot : Nat) (table : List α) : Prop where
  length : table.length = size
  entry : ∀ i < slot, table[i]? = some (value i)

namespace Filled

variable {size slot : Nat} {value : Nat → α} {table : List α}

theorem zero (h : table.length = size) : Filled size value 0 table :=
  ⟨h, fun i hi => absurd hi i.not_lt_zero⟩

theorem set (h : Filled size value slot table) (inside : slot < size) :
    Filled size value (slot + 1) (table.set slot (value slot)) := by
  refine ⟨by rw [length_set, h.length], fun i hi => ?_⟩
  rcases Nat.lt_succ_iff_lt_or_eq.mp hi with hi | rfl
  · rw [getElem?_set_ne (Nat.ne_of_gt hi), h.entry i hi]
  · rw [getElem?_set_self (h.length.symm ▸ inside)]

theorem eq_map (h : Filled size value size table) : table = (range size).map value := by
  apply ext_getElem?
  intro i
  rcases Nat.lt_or_ge i size with hi | hi
  · rw [h.entry i hi]
    simp [hi]
  · simp [h.length, hi]

end Filled

end RedKnot
