import RedKnot.Attention.SegPaged.Equivalence

/-! The positions that a head keeps, and the round trip of its rows through `index_select` and
`index_copy_`. -/

namespace RedKnot.HeadClass

open List

open SegPaged (arange indexSelect pySet localPlan mem_arange)

variable {κ : Type}

/-- `local_visible_indices` (`redknot/segpaged.py`), computed as `local_plan` does. -/
def localVisibleIndices (len : Nat) (sink recent : Int) : List Int :=
  (localPlan len sink recent).positions

theorem mem_localVisibleIndices {len : Nat} {sink recent p : Int} :
    p ∈ localVisibleIndices len sink recent ↔ 0 ≤ p ∧ p < len ∧ (p < sink ∨ len - recent ≤ p) := by
  unfold localVisibleIndices localPlan
  dsimp only
  split
  · next none =>
    rw [mem_arange]
    simp only [SegPaged.arange, length_map, length_range] at none
    omega
  · split
    · next none =>
      rw [mem_arange]
      simp only [SegPaged.arange, length_map, length_range] at none
      omega
    · rw [mem_append, mem_arange, mem_arange]
      omega

/-- `rows.index_copy_(0, idx, source)`: as many rows as indices. -/
def indexCopyRows (rows : List κ) : List Int → List κ → Except PyError (List κ)
  | [], [] => .ok rows
  | p :: idx, row :: source => do
    if p < 0 then throw .indexError
    let rows ← pySet rows p.toNat row
    indexCopyRows rows idx source
  | _, _ => .error .indexError

theorem indexCopyRows_indexSelect (source : List κ) (idx : List Int)
    (inside : ∀ p ∈ idx, 0 ≤ p ∧ p < source.length) (rows : List κ)
    (same : rows.length = source.length) :
    ∃ picked copied, indexSelect source idx = .ok picked ∧ picked.length = idx.length ∧
      indexCopyRows rows idx picked = .ok copied ∧
      ∀ p : Nat, copied[p]? = if (p : Int) ∈ idx then source[p]? else rows[p]? := by
  induction idx generalizing rows with
  | nil => exact ⟨[], rows, rfl, rfl, rfl, by simp⟩
  | cons q idx ih =>
    obtain ⟨positive, small⟩ := inside q mem_cons_self
    have there : source[q.toNat]? = some source[q.toNat] := getElem?_eq_getElem (by omega)
    obtain ⟨picked, copied, selected, count, done, places⟩ :=
      ih (fun p member => inside p (mem_cons_of_mem q member))
        (rows.set q.toNat source[q.toNat]) (by simpa using same)
    refine ⟨source[q.toNat] :: picked, copied, ?_, by simp [count], ?_, ?_⟩
    · unfold indexSelect at selected ⊢
      rw [mapM_cons, if_neg (by omega), pyGet_eq there, ok_bind, selected]
      rfl
    · unfold indexCopyRows
      rw [if_neg (by omega)]
      have set : pySet rows q.toNat source[q.toNat] = .ok (rows.set q.toNat source[q.toNat]) :=
        if_pos (by omega)
      rw [set, ok_bind, done]
    · intro p
      rw [places p, getElem?_set]
      by_cases later : (p : Int) ∈ idx
      · simp [later]
      · by_cases here : q.toNat = p
        · have equal : (p : Int) = q := by omega
          have room : p < rows.length := by omega
          subst here
          simp [equal, room, there]
        · have differ : (p : Int) ≠ q := by omega
          simp [later, here, differ]

end RedKnot.HeadClass
