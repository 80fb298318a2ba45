import Mathlib.Data.List.Nodup
import RedKnot.Python

/-! `install_linear_segmented` of `redknot/driver_qwen35.py`. The heads do not interact; a recurrent
state is the list of the tokens it has absorbed, and the kernel absorbs a segment in order. -/

namespace RedKnot.LinearSegmented

open List

variable {τ : Type} (isg : Bool) (wseg : Nat)

/-- A global head, or one whose window still covers the whole prefix: `start_seg` is not positive. -/
abbrev Keeps (segIdx : Nat) : Prop := isg ∨ wseg = 0 ∨ segIdx ≤ wseg

/-- `next_state`: the relayed state, or the cached one at the start of the window. -/
def nextState (segIdx : Nat) (fs : List τ) (stateHist : List (List τ)) : Except PyError (List τ) :=
  if Keeps isg wseg segIdx then .ok fs else pyGet stateHist (segIdx - wseg - 1)

/-- The states with which the remaining segments are entered, and the one that is returned. -/
def wrapped : List (List τ) → Nat → List τ → List (List τ) →
    Except PyError (List (List τ) × List τ)
  | [], _, state, _ => .ok ([], state)
  | chunk :: chunks, segIdx, state, stateHist => do
    let fs := state ++ chunk
    let next ← nextState isg wseg (segIdx + 1) fs stateHist
    let (entered, last) ← wrapped chunks (segIdx + 1) next (stateHist ++ [fs])
    .ok (state :: entered, last)

def relayed (initial : List τ) (chunks : List (List τ)) (s : Nat) : List τ :=
  initial ++ (chunks.take s).flatten

variable {isg wseg} {initial : List τ} {chunks : List (List τ)}

theorem relayed_succ {j : Nat} {chunk : List τ} (here : chunks[j]? = some chunk) :
    relayed initial chunks (j + 1) = relayed initial chunks j ++ chunk := by
  simp [relayed, take_add_one, here]

theorem relayed_mono {i j : Nat} (le : i ≤ j) :
    relayed initial chunks i ⊆ relayed initial chunks j := by
  obtain ⟨later, same⟩ := take_prefix_take_left (l := chunks) le
  simp [relayed, ← same]

/-- A head whose window has passed knows nothing of the window. -/
def Enters (isg : Bool) (wseg : Nat) (initial : List τ) (chunks : List (List τ)) (j : Nat)
    (state : List τ) : Prop :=
  if Keeps isg wseg j then state = relayed initial chunks j
  else state ⊆ relayed initial chunks (j - wseg)

theorem wrapped_enters {rest : List (List τ)} {j : Nat} {state : List τ} {hist : List (List τ)}
    (left : chunks.drop j = rest) (now : Enters isg wseg initial chunks j state)
    (count : hist.length = j)
    (past : ∀ i fs, hist[i]? = some fs → fs ⊆ relayed initial chunks (i + 1)) :
    ∃ entered last, wrapped isg wseg rest j state hist = .ok (entered, last) ∧
      entered.length = rest.length ∧
      ∀ s st, entered[s]? = some st → Enters isg wseg initial chunks (j + s) st := by
  induction rest generalizing j state hist with
  | nil => exact ⟨[], state, rfl, rfl, by simp⟩
  | cons chunk rest ih =>
    have here : chunks[j]? = some chunk := by
      rw [← Nat.add_zero j, ← getElem?_drop, left]
      rfl
    obtain ⟨next, carried, enters⟩ : ∃ next,
        nextState isg wseg (j + 1) (state ++ chunk) hist = .ok next ∧
          Enters isg wseg initial chunks (j + 1) next := by
      unfold nextState Enters
      split
      · next keeps =>
        unfold Enters at now
        rw [if_pos (keeps.imp_right (.imp_right Nat.le_of_succ_le))] at now
        exact ⟨_, rfl, by rw [relayed_succ here, now]⟩
      · next drops =>
        -- the window is at least one segment, so the state it starts from is in the history
        have inside : j + 1 - wseg - 1 < hist.length := by omega
        have there := getElem?_eq_getElem inside
        have known := past _ _ there
        rw [show j + 1 - wseg - 1 + 1 = j + 1 - wseg by omega] at known
        exact ⟨_, pyGet_eq there, known⟩
    have absorbed : state ++ chunk ⊆ relayed initial chunks (j + 1) := by
      have known : state ⊆ relayed initial chunks j := by
        unfold Enters at now
        split at now
        · rw [now]
          exact Subset.refl _
        · exact Subset.trans now (relayed_mono (Nat.sub_le j wseg))
      rw [relayed_succ here]
      exact append_subset.mpr ⟨Subset.trans known (subset_append_left _ _), subset_append_right _ _⟩
    obtain ⟨entered, last, ran, length, each⟩ := @ih (j + 1) next (hist ++ [state ++ chunk])
      (by rw [← drop_drop, left]; rfl) enters (by simp [count]) (by
        intro i fs there
        by_cases old : i < hist.length
        · rw [getElem?_append_left old] at there
          exact past i fs there
        · rw [getElem?_append_right (Nat.not_lt.mp old), getElem?_singleton] at there
          split at there
          · cases there
            rwa [show i = j by omega]
          · cases there)
    refine ⟨state :: entered, last, by simp only [wrapped, carried, ok_bind, ran],
      by simp [length], fun s st there => ?_⟩
    cases s with
    | zero =>
      cases there
      exact now
    | succ s =>
      rw [Nat.add_left_comm, Nat.add_comm]
      exact each s st there

/-- The state has absorbed the tokens of the `wseg` segments before segment `s` last, and before them
only older ones. -/
def Windowed (wseg : Nat) (initial : List τ) (chunks : List (List τ)) (s : Nat) (state : List τ) :
    Prop :=
  ∃ older, older <+: relayed initial chunks (s - wseg) ∧
    state = older ++ ((chunks.take s).drop (s - wseg)).flatten

theorem not_windowed {s : Nat} {state : List τ} (distinct : (initial ++ chunks.flatten).Nodup)
    (full : [] ∉ chunks) (inside : s < chunks.length) (window : 0 < wseg) (passed : wseg < s)
    (known : state ⊆ relayed initial chunks (s - wseg)) :
    ¬ Windowed wseg initial chunks s state := by
  rintro ⟨older, -, rfl⟩
  have first : chunks[s - wseg] ∈ (chunks.take s).drop (s - wseg) := by
    rw [mem_drop_iff_getElem]
    exact ⟨0, by simp; omega, by simp⟩
  obtain ⟨x, member⟩ := exists_mem_of_ne_nil _ fun empty => full (empty ▸ getElem_mem _)
  have late : x ∈ (chunks.drop (s - wseg)).flatten :=
    mem_flatten.mpr ⟨_, (take_sublist s chunks).drop _ |>.subset first, member⟩
  rw [← take_append_drop (s - wseg) chunks, flatten_append, ← append_assoc, nodup_append'] at distinct
  exact distinct.2.2 (known (mem_append_right _ (mem_flatten.mpr ⟨_, first, member⟩))) late

/-- A global head enters every segment with all earlier tokens; a local head enters it with those of
its window until the window has passed, and never after that. -/
theorem linearSegmented_window_iff (isg : Bool) (wseg : Nat)
    (distinct : (initial ++ chunks.flatten).Nodup) (full : [] ∉ chunks) :
    ∃ entered last, wrapped isg wseg chunks 0 initial [] = .ok (entered, last) ∧
      entered.length = chunks.length ∧ ∀ s state, entered[s]? = some state →
        (isg ∨ wseg = 0 → state = relayed initial chunks s) ∧
        (isg = false → 0 < wseg → (Windowed wseg initial chunks s state ↔ s ≤ wseg)) := by
  obtain ⟨entered, last, ran, length, each⟩ := @wrapped_enters τ isg wseg initial chunks
    chunks 0 initial [] drop_zero (by simp [Enters, relayed]) rfl (by simp)
  refine ⟨entered, last, ran, length, fun s state there => ?_⟩
  have enters := each s state there
  unfold Enters at enters
  rw [Nat.zero_add] at enters
  split at enters
  · next keeps =>
    subst enters
    refine ⟨fun _ => rfl, fun isLocal window => ⟨fun _ => ?_, fun fits => ?_⟩⟩
    · simpa [Keeps, isLocal, Nat.ne_of_gt window] using keeps
    · unfold Windowed
      rw [Nat.sub_eq_zero_of_le fits]
      exact ⟨initial, by simp [relayed], by simp [relayed]⟩
  · next passed =>
    simp only [not_or] at passed
    refine ⟨fun whole => absurd whole (by simp [passed.1, passed.2.1]), fun _ window => ?_⟩
    have inside := length ▸ (List.getElem?_eq_some_iff.mp there).1
    exact iff_of_false
      (not_windowed distinct full inside window (Nat.not_le.mp passed.2.2) enters) passed.2.2

theorem window_of_three_segments : ∃ entered last,
    wrapped false 1 [[0, 1], [2, 3], [4]] 0 [] [] = .ok (entered, last) ∧ entered.length = 3 ∧
      ∀ s state, entered[s]? = some state →
        (false ∨ 1 = 0 → state = relayed [] [[0, 1], [2, 3], [4]] s) ∧
        (false = false → 0 < 1 → (Windowed 1 [] [[0, 1], [2, 3], [4]] s state ↔ s ≤ 1)) :=
  linearSegmented_window_iff false 1 (by decide) (by decide)

/-- The third segment is entered with the first one and without the second one, its window. -/
theorem passed_window_is_lost :
    wrapped false 1 [[0, 1], [2, 3], [4]] 0 [] [] = .ok ([[], [0, 1], [0, 1]], [0, 1, 2, 3]) := by
  decide

end RedKnot.LinearSegmented
