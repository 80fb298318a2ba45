import RedKnot.Router.Breaker

/-! The requests that share one breaker. -/

namespace RedKnot.Router.Breaker

open CircuitBreaker List

/-- `outstanding` has the requests that have not recorded yet, with `true` for those admitted since
the last opening. `opened` is the time of that opening, until one of them has recorded success. -/
structure Traffic where
  breaker : CircuitBreaker := {}
  now : Nat := 0
  outstanding : List Bool := []
  opened : Option Nat := none

namespace Traffic

inductive Action where
  | advance (elapsed : Nat)
  | arrive
  | settle (i : Nat) (outcome : Record)

def act (cfg : Config) (t : Traffic) : Action → Option Traffic
  | .advance elapsed => some { t with now := t.now + elapsed }
  | .arrive => some { t with
      breaker := (t.breaker.allow cfg t.now).2
      outstanding := if (t.breaker.allow cfg t.now).1 then true :: t.outstanding else t.outstanding }
  | .settle i outcome => t.outstanding[i]?.map fun since : Bool =>
    let breaker := t.breaker.record cfg t.now outcome
    let rest := t.outstanding.eraseIdx i
    if breaker.state ≠ t.breaker.state ∧ breaker.state = .open t.now then
      { t with breaker := breaker, outstanding := rest.map fun _ => false, opened := some t.now }
    else { t with
      breaker := breaker
      outstanding := rest
      opened := if outcome = .success ∧ since then none else t.opened }

inductive Reaches (cfg : Config) (ok : Traffic → Action → Prop) : Traffic → Prop where
  | start : Reaches cfg ok {}
  | step {t t' : Traffic} {a : Action} (run : Reaches cfg ok t) (allowed : ok t a)
      (next : t.act cfg a = some t') : Reaches cfg ok t'

/-- Until a request admitted after the opening succeeds, none is admitted before the cool-down has
passed or while another one is outstanding, and its failure opens the breaker again. -/
def Sheds (cfg : Config) (t : Traffic) : Prop :=
  ∀ since, t.opened = some since →
    ((t.breaker.allow cfg t.now).1 = true → since + cfg.coolDown ≤ t.now ∧ true ∉ t.outstanding) ∧
    t.outstanding.count true ≤ 1 ∧
    (true ∈ t.outstanding → (t.breaker.record cfg t.now .failure).state = .open t.now)

/-- Until then no request from before the opening records. -/
def Fresh (t : Traffic) : Action → Prop
  | .settle i _ => t.opened ≠ none → t.outstanding[i]? = some true
  | _ => True

structure Inv (cfg : Config) (t : Traffic) : Prop where
  charged : t.breaker.Charged cfg
  calm : t.opened = none → t.breaker.state = .closed
  shed : ∀ since, t.opened = some since →
    t.breaker.state = .open since ∧ since ≤ t.now ∧ true ∉ t.outstanding ∨
      t.breaker.state = .halfOpen true ∧ since + cfg.coolDown ≤ t.now ∧
        t.outstanding.count true = 1

variable {cfg : Config} {t t' : Traffic}

theorem Inv.sheds (inv : t.Inv cfg) : t.Sheds cfg := by
  intro since opened
  rcases inv.shed since opened with ⟨state, before, free⟩ | ⟨state, passed, one⟩
  · refine ⟨fun admitted => ⟨?_, free⟩, by simp [count_eq_zero.mpr free], fun no => absurd no free⟩
    simp only [allow, state] at admitted
    split at admitted
    · omega
    · cases admitted
  · refine ⟨fun admitted => ?_, one.le, fun _ => ?_⟩
    · simp [allow, state] at admitted
    · have counted := inv.charged.resolve_left (by simp [state])
      simp only [record, recordFailure, tripped, state]
      exact if_pos (Nat.le_succ_of_le counted)

theorem Inv.arrive (inv : t.Inv cfg) (next : t.act cfg .arrive = some t') : t'.Inv cfg := by
  cases next
  have charged : (t.breaker.allow cfg t.now).2.Charged cfg := inv.charged.allow
  cases opened : t.opened with
  | none =>
    have state := inv.calm opened
    simp only [allow, state] at charged ⊢
    exact ⟨charged, fun _ => state, nofun⟩
  | some since =>
    rcases inv.shed since opened with ⟨state, before, free⟩ | ⟨state, -⟩
    · by_cases passed : t.now - since ≥ cfg.coolDown
      · simp only [allow, state, if_pos passed] at charged ⊢
        refine ⟨charged, nofun, ?_⟩
        rintro since ⟨⟩
        exact .inr ⟨rfl, (Nat.le_sub_iff_add_le' before).mp passed, by simp [count_eq_zero, free]⟩
      · simp only [allow, state, if_neg passed, ← opened]
        exact inv
    · simp only [allow, state, if_true, ← opened]
      exact inv

theorem Inv.settle {i : Nat} {outcome : Record} (inv : t.Inv cfg)
    (fresh : t.Fresh (.settle i outcome)) (next : t.act cfg (.settle i outcome) = some t') :
    t'.Inv cfg := by
  obtain ⟨late, there, rfl⟩ := Option.map_eq_some_iff.mp next
  have charged := (inv.charged.outcome t.now outcome).1
  -- what records is the probe, unless the breaker is closed
  have probe : ∀ since, t.opened = some since → t.breaker.state = .halfOpen true ∧ late = true := by
    intro since opened
    cases there.symm.trans (fresh (by simp [opened]))
    rcases inv.shed since opened with ⟨-, -, free⟩ | ⟨state, -⟩
    · exact absurd (mem_of_getElem? there) free
    · exact ⟨state, rfl⟩
  cases outcome with
  | success =>
    simp only [record, recordSuccess] at charged ⊢
    rw [if_neg (by simp)]
    refine ⟨charged, fun _ => rfl, fun since opened => ?_⟩
    split_ifs at opened with own
    exact absurd ⟨trivial, (probe since opened).2⟩ own
  | failure =>
    have before : t.breaker.state = .closed ∨ t.breaker.state = .halfOpen true := by
      cases opened : t.opened with
      | none => exact .inl (inv.calm opened)
      | some since => exact .inr (probe since opened).1
    have after : t.breaker.record cfg t.now .failure = t.breaker.tripped cfg t.now := by
      rcases before with state | state <;> simp only [record, recordFailure, state]
    simp only [after, tripped] at charged ⊢
    by_cases enough : t.breaker.consecutiveFailures + 1 ≥ cfg.threshold
    · simp only [if_pos enough] at charged ⊢
      rw [if_pos (by rcases before with state | state <;> simp [state])]
      refine ⟨charged, by simp, ?_⟩
      rintro since ⟨⟩
      exact .inl ⟨rfl, le_rfl, by simp⟩
    · have state : t.breaker.state = .closed :=
        inv.charged.resolve_right fun counted => enough (Nat.le_succ_of_le counted)
      simp only [if_neg enough] at charged ⊢
      rw [if_neg (by simp)]
      refine ⟨charged, fun _ => state, fun since opened => ?_⟩
      cases state.symm.trans (probe since (by simpa using opened)).1

/-- A breaker for which only the probe records while it is not closed sheds load. -/
theorem sheds_of_fresh (run : Reaches cfg Fresh t) : t.Sheds cfg := by
  suffices inv : t.Inv cfg from inv.sheds
  induction run with
  | start => exact ⟨.inl rfl, fun _ => rfl, nofun⟩
  | @step t t' a run fresh next inv =>
    cases a with
    | advance elapsed =>
      cases next
      refine ⟨inv.charged, inv.calm, fun since opened => ?_⟩
      rcases inv.shed since opened with ⟨state, before, free⟩ | ⟨state, passed, one⟩
      · exact .inl ⟨state, Nat.le_add_right_of_le before, free⟩
      · exact .inr ⟨state, Nat.le_add_right_of_le passed, one⟩
    | arrive => exact inv.arrive next
    | settle i outcome => exact inv.settle fresh next

theorem half_open_breaker_sheds : Sheds System.quick
    { breaker := ⟨.halfOpen true, 1⟩, now := 30, outstanding := [true], opened := some 0 } :=
  sheds_of_fresh (Reaches.start
    |>.step (a := .arrive) trivial rfl
    |>.step (a := .settle 0 .failure) nofun rfl
    |>.step (a := .advance 30) trivial rfl
    |>.step (a := .arrive) trivial rfl)

/-- One request fails and opens the breaker; another, admitted before, succeeds and closes it. -/
theorem late_success_closes : ∃ t, Reaches System.quick (fun _ _ => True) t ∧
    t.opened = some 0 ∧ t.now = 0 ∧ (t.breaker.allow System.quick t.now).1 = true :=
  ⟨_, Reaches.start
    |>.step (a := .arrive) trivial rfl
    |>.step (a := .arrive) trivial rfl
    |>.step (a := .settle 0 .failure) trivial rfl
    |>.step (a := .settle 0 .success) trivial rfl, rfl, rfl, rfl⟩

end Traffic

end RedKnot.Router.Breaker
