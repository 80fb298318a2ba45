import Mathlib.Tactic

/-! Logs of stores under two-part keys, and sums over a log with and without repetitions. -/

namespace RedKnot

open List

section Firsts

variable {α β : Type} [DecidableEq α]

def firsts (l : List α) : List α :=
  l.foldl (fun seen a => if a ∈ seen then seen else seen ++ [a]) []

theorem firsts_concat (l : List α) (a : α) :
    firsts (l ++ [a]) = if a ∈ firsts l then firsts l else firsts l ++ [a] := by
  rw [firsts, foldl_append]
  rfl

@[simp] theorem mem_firsts {l : List α} {a : α} : a ∈ firsts l ↔ a ∈ l := by
  induction l using reverseRecOn with
  | nil => rfl
  | append_singleton l b ih =>
    rw [firsts_concat]
    by_cases there : b ∈ firsts l
    · rw [if_pos there, ih, mem_append, mem_singleton]
      refine ⟨.inl, fun either => either.elim id ?_⟩
      rintro rfl
      exact ih.mp there
    · rw [if_neg there, mem_append, mem_append, ih]

theorem nodup_firsts (l : List α) : (firsts l).Nodup := by
  induction l using reverseRecOn with
  | nil => exact nodup_nil
  | append_singleton l b ih =>
    rw [firsts_concat]
    by_cases there : b ∈ firsts l
    · rwa [if_pos there]
    · rw [if_neg there]
      exact nodup_append'.mpr ⟨ih, nodup_singleton b, by simpa using there⟩

theorem sum_firsts_le (l : List α) (w : α → Nat) : ((firsts l).map w).sum ≤ (l.map w).sum := by
  induction l using reverseRecOn with
  | nil => exact le_refl _
  | append_singleton l b ih =>
    rw [firsts_concat]
    split
    · simp only [map_append, sum_append]
      omega
    · simp only [map_append, sum_append]
      omega

theorem sum_firsts_iff (l : List α) (w : α → Nat) :
    ((firsts l).map w).sum = (l.map w).sum ↔ ∀ a, 2 ≤ l.count a → w a = 0 := by
  induction l using reverseRecOn with
  | nil => simp [firsts]
  | append_singleton l b ih =>
    have bound := sum_firsts_le l w
    have counts : ∀ a, (l ++ [b]).count a = l.count a + if b = a then 1 else 0 := by
      intro a
      rw [count_append, count_singleton]
      simp
    rw [firsts_concat]
    by_cases again : b ∈ l
    · have once : 1 ≤ l.count b := count_pos_iff.mpr again
      rw [if_pos (mem_firsts.mpr again), map_append, sum_append]
      simp only [map_singleton, sum_singleton, counts]
      constructor
      · intro same a twice
        by_cases here : b = a
        · subst here
          omega
        · rw [if_neg here] at twice
          exact ih.mp (by omega) a twice
      · intro weightless
        have none : w b = 0 := weightless b (by simp; omega)
        have rest := ih.mpr fun a twice => weightless a (by omega)
        omega
    · have never : l.count b = 0 := count_eq_zero.mpr again
      rw [if_neg (mt mem_firsts.mp again), map_append, map_append, sum_append, sum_append]
      simp only [map_singleton, sum_singleton, counts]
      constructor
      · intro same a twice
        by_cases here : b = a
        · subst here
          rw [if_pos rfl] at twice
          omega
        · rw [if_neg here] at twice
          exact ih.mp (by omega) a twice
      · intro weightless
        have rest := ih.mpr fun a twice => weightless a (by omega)
        omega

theorem flatMap_firsts_iff (l : List α) (f : α → List β) :
    (firsts l).flatMap f = l.flatMap f ↔ ∀ a, 2 ≤ l.count a → f a = [] := by
  constructor
  · intro same a twice
    have lengths := congrArg length same
    simp only [length_flatMap] at lengths
    have empty := (sum_firsts_iff l fun a => (f a).length).mp lengths a twice
    exact eq_nil_of_length_eq_zero empty
  · induction l using reverseRecOn with
    | nil => simp [firsts]
    | append_singleton l b ih =>
      intro blank
      have rest := ih fun a twice => blank a (by rw [count_append]; omega)
      rw [firsts_concat]
      by_cases again : b ∈ l
      · have once : 1 ≤ l.count b := count_pos_iff.mpr again
        have none : f b = [] := blank b (by rw [count_append, count_singleton_self]; omega)
        rw [if_pos (mem_firsts.mpr again), rest, flatMap_append]
        simp [none]
      · rw [if_neg (mt mem_firsts.mp again), flatMap_append, flatMap_append, rest]

end Firsts

structure Store (H S V : Type) where
  head : H
  segment : S
  value : V

namespace StoreLog

variable {H S V : Type} [DecidableEq H] [DecidableEq S]

def order (log : List (Store H S V)) (h : H) : List S :=
  (log.filter fun e => e.head = h).map Store.segment

def last (log : List (Store H S V)) (h : H) (s : S) : Option V :=
  (log.reverse.find? fun e => e.head = h ∧ e.segment = s).map Store.value

omit [DecidableEq S] in
theorem order_concat (log : List (Store H S V)) (e : Store H S V) (h : H) :
    order (log ++ [e]) h = if e.head = h then order log h ++ [e.segment] else order log h := by
  by_cases here : e.head = h
  · simp [order, here]
  · simp [order, here]

theorem last_concat (log : List (Store H S V)) (e : Store H S V) (h : H) (s : S) :
    last (log ++ [e]) h s = if e.head = h ∧ e.segment = s then some e.value else last log h s := by
  unfold last
  rw [reverse_append, reverse_singleton, singleton_append, find?_cons]
  by_cases here : e.head = h ∧ e.segment = s
  · simp [here]
  · simp [here]

theorem last_isSome_of_mem_order {log : List (Store H S V)} {h : H} {s : S}
    (member : s ∈ order log h) : ∃ value, last log h s = some value := by
  induction log using reverseRecOn with
  | nil => simp [order] at member
  | append_singleton log e ih =>
    rw [last_concat]
    by_cases here : e.head = h ∧ e.segment = s
    · exact ⟨e.value, if_pos here⟩
    · rw [if_neg here]
      rw [order_concat] at member
      split at member
      · next same =>
        rcases mem_append.mp member with before | now
        · exact ih before
        · exact absurd ⟨same, (mem_singleton.mp now).symm⟩ here
      · exact ih member

theorem exists_of_last {log : List (Store H S V)} {h : H} {s : S} {value : V}
    (there : last log h s = some value) : ∃ e ∈ log, e.value = value := by
  obtain ⟨e, found, rfl⟩ := Option.map_eq_some_iff.mp there
  exact ⟨e, mem_reverse.mp (mem_of_find?_eq_some found), rfl⟩

theorem count_order {κ : Type} [DecidableEq κ] (key : H → S → κ)
    (injective : ∀ h s h' s', key h s = key h' s' → h = h' ∧ s = s') (log : List (Store H S V))
    (h : H) (s : S) :
    (log.map fun e => key e.head e.segment).count (key h s) = (order log h).count s := by
  induction log using reverseRecOn with
  | nil => rfl
  | append_singleton log e ih =>
    have same : key e.head e.segment = key h s ↔ e.head = h ∧ e.segment = s := by
      refine ⟨injective _ _ _ _, ?_⟩
      rintro ⟨rfl, rfl⟩
      rfl
    rw [order_concat, map_append, count_append, ih]
    by_cases head : e.head = h
    · subst head
      simp [count_singleton, same]
    · simp [head, same]

omit [DecidableEq S] in
theorem sum_by_head (w : H → S → Nat) (heads : List H) (distinct : heads.Nodup)
    (log : List (Store H S V)) (all : ∀ e ∈ log, e.head ∈ heads) :
    (heads.map fun h => ((order log h).map (w h)).sum).sum =
      (log.map fun e => w e.head e.segment).sum := by
  induction log using reverseRecOn with
  | nil => simp [order]
  | append_singleton log e ih =>
    have one : ∀ heads : List H, heads.Nodup →
        (heads.map fun h => ((order (log ++ [e]) h).map (w h)).sum).sum =
          (heads.map fun h => ((order log h).map (w h)).sum).sum +
            if e.head ∈ heads then w e.head e.segment else 0 := by
      intro heads distinct
      induction heads with
      | nil => rfl
      | cons h heads ih =>
        obtain ⟨fresh, distinct⟩ := nodup_cons.mp distinct
        rw [map_cons, sum_cons, ih distinct, map_cons, sum_cons, order_concat]
        by_cases here : e.head = h
        · subst here
          simp only [if_pos, fresh, if_false, mem_cons_self, map_append, sum_append,
            map_singleton, sum_singleton]
          omega
        · simp only [here, if_false, mem_cons, false_or]
          omega
    rw [one heads distinct, if_pos (all e (by simp)), ih fun e' member => all e' (by simp [member]),
      map_append, sum_append]
    simp

end StoreLog

end RedKnot
