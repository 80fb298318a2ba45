/-! What the code takes from Python itself: exceptions, slices and indexing of lists. -/

namespace RedKnot

open List

/-- What a call can raise. `outOfFuel` stands for a loop that does not end. -/
inductive PyError where
  | assertionError (msg : String)
  | valueError (msg : String)
  | indexError
  | overflowError
  | attributeError
  | typeError
  | keyError
  | runtimeError (msg : String)
  | notImplementedError (msg : String)
  | outOfFuel
  | segmentationFault
deriving DecidableEq, Repr

/-- `l[start:stop]` for non-negative bounds. -/
def pySlice {α : Type} (l : List α) (start stop : Nat) : List α := (l.take stop).drop start

/-- `l[i]` for a non-negative index. -/
def pyGet {α : Type} (l : List α) (i : Nat) : Except PyError α :=
  match l[i]? with
  | some a => .ok a
  | none => .error .indexError

section

variable {α : Type} {l : List α} {i : Nat} {a : α}

theorem map_range_getD (l : List α) (d : α) : (range l.length).map (fun p => l.getD p d) = l := by
  apply ext_getElem
  · simp
  · intro p _ inside
    simp [getD_eq_getElem?_getD, getElem?_eq_getElem inside]

theorem pyGet_eq (there : l[i]? = some a) : pyGet l i = .ok a := by
  simp only [pyGet, there]

theorem pyGet_ok_iff : pyGet l i = .ok a ↔ l[i]? = some a := by
  constructor
  · intro read
    unfold pyGet at read
    cases there : l[i]? with
    | none => rw [there] at read; cases read
    | some b => rw [there] at read; cases read; rfl
  · exact pyGet_eq

end

@[simp] theorem ok_bind {ε α β : Type} (a : α) (f : α → Except ε β) : (Except.ok a >>= f) = f a := rfl

theorem bind_eq_ok {ε α β : Type} {x : Except ε α} {f : α → Except ε β} {b : β} :
    (x >>= f) = .ok b ↔ ∃ a, x = .ok a ∧ f a = .ok b := by
  cases x with
  | error e =>
    constructor
    · intro h
      cases h
    · rintro ⟨a, h, -⟩
      cases h
  | ok a =>
    constructor
    · exact fun h => ⟨a, rfl, h⟩
    · rintro ⟨a', h, done⟩
      cases h
      exact done

section

variable {α β : Type} {f : α → Except PyError β}

theorem mapM_eq_map {g : α → β} (l : List α)
    (h : ∀ x ∈ l, f x = .ok (g x)) : l.mapM f = .ok (l.map g) := by
  induction l with
  | nil => rfl
  | cons x l ih =>
    have hx := h x (by simp)
    have hl := ih (fun y hy => h y (by simp [hy]))
    rw [mapM_cons, hx, hl]
    rfl

theorem mapM_returns {l : List α}
    (returns : ∀ x ∈ l, ∃ b, f x = .ok b) : ∃ out, l.mapM f = .ok out := by
  induction l with
  | nil => exact ⟨[], rfl⟩
  | cons x l ih =>
    obtain ⟨b, head⟩ := returns x (by simp)
    obtain ⟨out, tail⟩ := ih fun y member => returns y (by simp [member])
    refine ⟨b :: out, ?_⟩
    rw [mapM_cons, head, tail]
    rfl

theorem mapM_ok {l : List α} {out : List β} (done : l.mapM f = .ok out) : out.length = l.length ∧
      ∀ (i : Nat) (b : β), out[i]? = some b → ∃ a, l[i]? = some a ∧ f a = .ok b := by
  induction l generalizing out with
  | nil =>
    cases done
    exact ⟨rfl, by simp⟩
  | cons x l ih =>
    rw [mapM_cons] at done
    cases head : f x with
    | error e => rw [head] at done; cases done
    | ok y =>
      cases tail : l.mapM f with
      | error e => rw [head, ok_bind, tail] at done; cases done
      | ok rest =>
        rw [head, ok_bind, tail] at done
        cases done
        obtain ⟨same, called⟩ := ih tail
        constructor
        · simp [same]
        · intro i b there
          cases i with
          | zero => exact ⟨x, rfl, by simpa [head] using there⟩
          | succ i => exact called i b there

end

theorem mapM_range_ok {β : Type} {f : Nat → Except PyError β} {n : Nat} {out : List β}
    (done : (range n).mapM f = .ok out) :
    out.length = n ∧ ∀ (i : Nat) (b : β), out[i]? = some b → f i = .ok b := by
  obtain ⟨same, called⟩ := mapM_ok done
  refine ⟨by simpa using same, fun i b there => ?_⟩
  obtain ⟨a, at_i, ok⟩ := called i b there
  obtain ⟨inside, value⟩ := List.getElem?_eq_some_iff.mp at_i
  rw [getElem_range] at value
  cases value
  exact ok

end RedKnot
