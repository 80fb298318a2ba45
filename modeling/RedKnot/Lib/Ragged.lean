import Mathlib.Tactic
import RedKnot.Python

/-! Sequences of different lengths packed into one list, with the offsets at which they start. -/

namespace RedKnot

open List

variable {α β : Type}

def offset (parts : List (List α)) (i : Nat) : Nat := ((parts.take i).map length).sum

def offsets (parts : List (List α)) : List Nat := (range (parts.length + 1)).map (offset parts)

structure Cuts (cu : List Nat) (total longest : Nat) : Prop where
  start : cu[0]? = some 0
  finish : cu.getLast? = some total
  piece : ∀ i a b, cu[i]? = some a → cu[i + 1]? = some b → a ≤ b ∧ b ≤ a + longest

variable {parts : List (List α)} {part : List α} {i : Nat}

@[simp] theorem offset_cons_succ : offset (part :: parts) (i + 1) = part.length + offset parts i := by
  simp [offset]

theorem offset_succ (there : parts[i]? = some part) :
    offset parts (i + 1) = offset parts i + part.length := by
  simp [offset, take_add_one, there]

theorem offset_length : offset parts parts.length = parts.flatten.length := by
  simp [offset, length_flatten]

theorem offset_congr {others : List (List β)} (same : parts.map length = others.map length)
    (i : Nat) : offset parts i = offset others i := by
  rw [offset, offset, map_take, map_take, same]

@[simp] theorem length_offsets : (offsets parts).length = parts.length + 1 := by simp [offsets]

theorem getElem?_offsets (inside : i ≤ parts.length) : (offsets parts)[i]? = some (offset parts i) := by
  simp [offsets, Nat.lt_succ_of_le inside]

theorem getLast?_offsets : (offsets parts).getLast? = some parts.flatten.length := by
  rw [getLast?_eq_getElem?, length_offsets, Nat.add_sub_cancel, getElem?_offsets (Nat.le_refl _),
    offset_length]

theorem offsets_concat :
    offsets (parts ++ [part]) = offsets parts ++ [parts.flatten.length + part.length] := by
  have before : ∀ i ∈ range (parts.length + 1), offset (parts ++ [part]) i = offset parts i := by
    intro i hi
    have inside : i ≤ parts.length := Nat.lt_succ_iff.mp (mem_range.mp hi)
    simp [offset, take_append_of_le_length inside]
  have last : offset (parts ++ [part]) (parts.length + 1) = parts.flatten.length + part.length := by
    have whole : offset (parts ++ [part]) _ = _ := offset_length
    simpa using whole
  simp only [offsets, length_append, length_singleton]
  rw [range_succ, map_append, map_congr_left before, map_singleton, last]

theorem slice_flatten (there : parts[i]? = some part) :
    pySlice parts.flatten (offset parts i) (offset parts (i + 1)) = part := by
  induction parts generalizing i with
  | nil => cases there
  | cons first rest ih =>
    cases i with
    | zero =>
      cases there
      simp [pySlice, offset]
    | succ i =>
      have inner := ih (i := i) there
      simp only [pySlice, offset_cons_succ, flatten_cons] at inner ⊢
      rw [take_length_add_append, drop_length_add_append]
      exact inner

theorem cuts_offsets {longest : Nat} (short : ∀ part ∈ parts, part.length ≤ longest) :
    Cuts (offsets parts) parts.flatten.length longest := by
  refine ⟨getElem?_offsets (Nat.zero_le _), getLast?_offsets, fun i a b ha hb => ?_⟩
  have inside : i < parts.length := by
    obtain ⟨bound, -⟩ := List.getElem?_eq_some_iff.mp hb
    simpa using bound
  have there := getElem?_eq_getElem inside
  rw [getElem?_offsets (Nat.le_of_lt inside)] at ha
  rw [getElem?_offsets inside, offset_succ there] at hb
  cases ha
  cases hb
  have bound := short _ (getElem_mem inside)
  omega

theorem Cuts.le_total {cu : List Nat} {total longest a : Nat} (cuts : Cuts cu total longest)
    (there : cu[i]? = some a) : a ≤ total := by
  obtain ⟨inside, -⟩ := List.getElem?_eq_some_iff.mp there
  have last : cu[cu.length - 1]? = some total := by
    rw [← getLast?_eq_getElem?]
    exact cuts.finish
  -- the offsets grow, so none is past the last one
  have grows : ∀ n b, cu[i + n]? = some b → a ≤ b := by
    intro n
    induction n with
    | zero =>
      intro b hb
      exact Nat.le_of_eq (Option.some.inj (there.symm.trans hb))
    | succ n ih =>
      intro b hb
      obtain ⟨bound, -⟩ := List.getElem?_eq_some_iff.mp hb
      have before := getElem?_eq_getElem (Nat.lt_of_succ_lt bound)
      exact Nat.le_trans (ih _ before) (cuts.piece _ _ _ before hb).1
  apply grows (cu.length - 1 - i)
  rwa [Nat.add_sub_cancel' (by omega)]

theorem Cuts.offsets_eq {cu : List Nat} {total longest : Nat} (cuts : Cuts cu total longest)
    (pieces : parts.length + 1 = cu.length)
    (sizes : ∀ i a b, cu[i]? = some a → cu[i + 1]? = some b →
      (parts[i]?).map length = some (b - a)) : offsets parts = cu := by
  have agree : ∀ i, i < cu.length → cu[i]? = some (offset parts i) := by
    intro i
    induction i with
    | zero => exact fun _ => cuts.start
    | succ i ih =>
      intro inside
      have here := ih (Nat.lt_of_succ_lt inside)
      have next := getElem?_eq_getElem inside
      obtain ⟨part, there, size⟩ := Option.map_eq_some_iff.mp (sizes i _ _ here next)
      have bound := (cuts.piece i _ _ here next).1
      rw [offset_succ there, next, size]
      congr 1
      omega
  apply ext_getElem?
  intro i
  rcases Nat.lt_or_ge i cu.length with hi | hi
  · rw [agree i hi, getElem?_offsets (by omega)]
  · rw [getElem?_eq_none hi, getElem?_eq_none (by rw [length_offsets]; omega)]

end RedKnot
