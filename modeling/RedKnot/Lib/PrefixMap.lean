import RedKnot.Lib.RadixTree

/-! Maps from page-aligned words to one value for each letter, closed under page-aligned prefixes.
-/

structure PrefixMap (α β : Type) (P : Nat) where
  get : List α → Option (List β)
  get_nil : get [] = some []
  paged : ∀ w vs, get w = some vs → P ∣ w.length
  sized : ∀ w vs, get w = some vs → vs.length = w.length
  closed : ∀ w vs u, get w = some vs → u <+: w → P ∣ u.length → get u = some (vs.take u.length)

namespace PrefixMap

open List Nat Option

variable {α β : Type} {P : Nat}

@[ext]
theorem ext {M N : PrefixMap α β P} (h : ∀ w, M.get w = N.get w) : M = N := by
  obtain ⟨f, _, _, _, _⟩ := M
  obtain ⟨g, _, _, _, _⟩ := N
  obtain rfl : f = g := funext h
  rfl

def empty [DecidableEq α] : PrefixMap α β P where
  get := fun w => if w = [] then some [] else none
  get_nil := by simp
  paged := by
    intro w vs h
    split at h <;> simp_all
  sized := by
    intro w vs h
    split at h <;> simp_all
  closed := by
    intro w vs u h hu _
    split at h
    · rename_i empty
      subst empty
      have : u = [] := prefix_nil.mp hu
      simp_all
    · simp at h

def depth (M : PrefixMap α β P) (us : List α) : Nat :=
  findGreatest (fun k => P ∣ k ∧ (M.get (us.take k)).isSome = true) us.length

def lookup (M : PrefixMap α β P) (us : List α) : List β := (M.get (us.take (M.depth us))).getD []

section Lookup

variable (M : PrefixMap α β P) (us : List α)

theorem depth_spec : P ∣ M.depth us ∧ (M.get (us.take (M.depth us))).isSome = true :=
  findGreatest_spec (P := fun k => P ∣ k ∧ (M.get (us.take k)).isSome = true)
    (Nat.zero_le us.length) (by simp [M.get_nil])

theorem depth_le : M.depth us ≤ us.length := findGreatest_le _

theorem get_depth : M.get (us.take (M.depth us)) = some (M.lookup us) := by
  obtain ⟨vs, hvs⟩ := isSome_iff_exists.mp (M.depth_spec us).2
  simp [lookup, hvs]

theorem length_lookup : (M.lookup us).length = M.depth us := by
  rw [M.sized _ _ (M.get_depth us), length_take]
  exact Nat.min_eq_left (M.depth_le us)

variable {M us}

section

variable {w : List α} {vs : List β} (here : w <+: us) (cached : M.get w = some vs)
include here cached

theorem le_depth : w.length ≤ M.depth us := by
  refine le_findGreatest here.length_le ⟨M.paged _ _ cached, ?_⟩
  rw [← prefix_iff_eq_take.mp here, cached]
  rfl

theorem get_of_prefix_mem : vs = (M.lookup us).take w.length := by
  have inside : w <+: us.take (M.depth us) :=
    prefix_take_iff.mpr ⟨here, le_depth here cached⟩
  have := M.closed _ _ _ (M.get_depth us) inside (M.paged _ _ cached)
  exact some.inj (cached.symm.trans this)

theorem lookup_eq (longest : ∀ j, j ≤ us.length → P ∣ j → (M.get (us.take j)).isSome = true →
    j ≤ w.length) :
    M.depth us = w.length ∧ M.lookup us = vs := by
  have upper := longest _ (M.depth_le us) (M.depth_spec us).1 (M.depth_spec us).2
  have same : M.depth us = w.length := Nat.le_antisymm upper (le_depth here cached)
  refine ⟨same, ?_⟩
  rw [get_of_prefix_mem here cached, ← same, take_of_length_le (M.length_lookup us).le]

end

end Lookup

/-- Add the prefixes of `us`; what the map has already keeps its values, and `vs` supplies
the rest. -/
def insert [DecidableEq α] (M : PrefixMap α β P) (us : List α) (vs : List β)
    (values : vs.length = us.length) : PrefixMap α β P where
  get := fun w =>
    match M.get w with
    | some v => some v
    | none =>
      if w <+: us ∧ P ∣ w.length then some ((M.lookup us ++ vs.drop (M.depth us)).take w.length)
      else none
  get_nil := by simp [M.get_nil]
  paged := by
    intro w v h
    cases old : M.get w with
    | some v' => exact M.paged _ _ old
    | none =>
      rw [old] at h
      dsimp only at h
      split at h
      · rename_i new
        exact new.2
      · simp at h
  sized := by
    intro w v h
    cases old : M.get w with
    | some v' =>
      rw [old] at h
      cases h
      exact M.sized _ _ old
    | none =>
      rw [old] at h
      dsimp only at h
      split at h
      · rename_i new
        have := new.1.length_le
        have := M.depth_le us
        rw [← some.inj h, length_take, length_append, length_drop, M.length_lookup]
        omega
      · simp at h
  closed := by
    intro w v u h hu paged
    cases old : M.get w with
    | some v' =>
      rw [old] at h
      cases h
      rw [M.closed _ _ _ old hu paged]
    | none =>
      rw [old] at h
      dsimp only at h
      split at h
      · rename_i new
        rw [← some.inj h, take_take, Nat.min_eq_left hu.length_le]
        cases olds : M.get u with
        | some v' =>
          have short := le_depth (hu.trans new.1) olds
          rw [get_of_prefix_mem (hu.trans new.1) olds, take_append_of_le_length]
          rwa [M.length_lookup]
        | none => simp [hu.trans new.1, paged]
      · simp at h

section

variable [DecidableEq α] {M : PrefixMap α β P} {us : List α}

theorem insert_get_of_some {vs : List β}
    {values : vs.length = us.length} {w : List α} {v : List β} (h : M.get w = some v) :
    (M.insert us vs values).get w = some v := by
  simp [insert, h]

theorem insert_of_cached {vs old : List β}
    {values : vs.length = us.length} (h : M.get us = some old) : M.insert us vs values = M := by
  ext1 w
  cases there : M.get w with
  | some v => exact insert_get_of_some there
  | none =>
    simp only [insert, there]
    split
    · rename_i new
      rw [M.closed _ _ _ h new.1 new.2] at there
      cases there
    · rfl

theorem insert_get_iff {vs : List β} {values : vs.length = us.length} {w : List α} {v : List β} :
    (M.insert us vs values).get w = some v ↔ M.get w = some v ∨
      (P ∣ w.length ∧ w <+: us ∧ v = (M.lookup us ++ vs.drop (M.depth us)).take w.length) := by
  simp only [insert]
  cases there : M.get w with
  | some old =>
    constructor
    · exact .inl
    · rintro (h | ⟨_, here, rfl⟩)
      · exact h
      · rw [get_of_prefix_mem here there, take_append_of_le_length]
        rw [M.length_lookup]
        exact le_depth here there
  | none =>
    simp only [reduceCtorEq, false_or]
    split
    · rename_i new
      simp [new, eq_comm]
    · rename_i other
      simp only [reduceCtorEq, false_iff]
      rintro ⟨paged, here, _⟩
      exact other ⟨here, paged⟩

end

/-- Forget the prefixes of `u` longer than `k`, provided that no other word goes on from them. -/
def prune [DecidableEq α] (M : PrefixMap α β P) (u : List α) (k : Nat)
    (last : ∀ w vs x, M.get w = some vs → x <+: w → x <+: u → k < x.length → P ∣ x.length → w <+: u) :
    PrefixMap α β P where
  get := fun w => if w <+: u ∧ k < w.length then none else M.get w
  get_nil := by simp [M.get_nil]
  paged := by
    intro w vs h
    split at h
    · simp at h
    · exact M.paged _ _ h
  sized := by
    intro w vs h
    split at h
    · simp at h
    · exact M.sized _ _ h
  closed := by
    intro w vs x h hx paged
    split at h
    · simp at h
    · rename_i kept
      rw [if_neg]
      · exact M.closed _ _ _ h hx paged
      · rintro ⟨hxu, long⟩
        exact kept ⟨last w vs x h hx hxu long paged, lt_of_lt_of_le long hx.length_le⟩

inductive Prunes [DecidableEq α] : PrefixMap α β P → List (List β) → PrefixMap α β P → Prop where
  | done (M : PrefixMap α β P) : Prunes M [] M
  | step {M N : PrefixMap α β P} {u : List α} {vs : List β} {k : Nat} {freed : List (List β)}
      (cached : M.get u = some vs) (inside : k < u.length) (paged : P ∣ k)
      (last : ∀ w vs x, M.get w = some vs → x <+: w → x <+: u → k < x.length → P ∣ x.length →
        w <+: u)
      (rest : Prunes (M.prune u k last) freed N) : Prunes M (vs.drop k :: freed) N

end PrefixMap
