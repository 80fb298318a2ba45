import Mathlib.Tactic

/-! The waiters of a `TokenBucket` of the model gateway (`core/token_bucket.rs`) with refill rate 0,
over every interleaving of `acquire(1.0)` and `return_tokens_sync(1.0)`. A step ends where another
task can see the bucket or the waiters. Calls at the same point are alike; a state counts them. -/

namespace RedKnot.Gateway

structure TokenBucket where
  tokens : Nat
  /-- `acquire` goes on to `try_acquire`, at its start or after a notification. -/
  trying : Nat := 0
  /-- `try_acquire` failed, and `notified()` has not yet registered the call. -/
  refused : Nat := 0
  waiting : Nat := 0
  /-- `return_tokens_sync` has still to notify the waiters. -/
  returning : Nat := 0

namespace TokenBucket

def tryAcquire (capacity : Nat) (s : TokenBucket) : TokenBucket :=
  let tokens := min s.tokens capacity
  if tokens ≥ 1 then { s with tokens := tokens - 1, trying := s.trying - 1 }
  else { s with tokens := tokens, trying := s.trying - 1, refused := s.refused + 1 }

/-- A step, where the waiters are notified only in a state that is `ok` -/
inductive Step (capacity : Nat) (ok : TokenBucket → Prop) : TokenBucket → TokenBucket → Prop where
  | acquire {s} : Step capacity ok s { s with trying := s.trying + 1 }
  | tryAcquire {s} (calls : 0 < s.trying) : Step capacity ok s (s.tryAcquire capacity)
  | notified {s} (calls : 0 < s.refused) :
      Step capacity ok s { s with refused := s.refused - 1, waiting := s.waiting + 1 }
  | returnTokens {s} : Step capacity ok s
      { s with tokens := min (s.tokens + 1) capacity, returning := s.returning + 1 }
  | notifyWaiters {s} (calls : 0 < s.returning) (allowed : ok s) : Step capacity ok s
      { s with trying := s.trying + s.waiting, waiting := 0, returning := s.returning - 1 }

inductive Reaches (capacity : Nat) (ok : TokenBucket → Prop) : TokenBucket → Prop where
  | start : Reaches capacity ok { tokens := capacity }
  | step {s s'} : Reaches capacity ok s → Step capacity ok s s' → Reaches capacity ok s'

/-- No call is between a failed attempt and its registration. -/
def Registered (s : TokenBucket) : Prop := s.refused = 0

variable {capacity : Nat} {s s' : TokenBucket}

/-- A call that was refused and has not been notified since knows of every free token, or will. -/
structure Awake (capacity : Nat) (s : TokenBucket) : Prop where
  bound : s.tokens ≤ capacity
  told : 0 < s.refused + s.waiting → s.tokens = 0 ∨ 0 < s.returning

theorem Awake.step (h : s.Awake capacity) (step : Step capacity Registered s s') :
    s'.Awake capacity := by
  obtain ⟨bound, told⟩ := h
  cases step with
  | acquire => exact ⟨bound, told⟩
  | tryAcquire calls =>
    unfold TokenBucket.tryAcquire
    rw [min_eq_left bound]
    dsimp only
    split
    · exact ⟨by dsimp only; omega, fun left => by have := told left; dsimp only; omega⟩
    · exact ⟨bound, fun _ => .inl (by dsimp only; omega)⟩
  | notified calls => exact ⟨bound, fun _ => told (by omega)⟩
  | returnTokens => exact ⟨min_le_right _ _, fun _ => .inr (Nat.succ_pos _)⟩
  | notifyWaiters calls allowed =>
    -- Who waited is notified, and nobody was about to register.
    exact ⟨bound, fun left => absurd left (by simp [show s.refused = 0 from allowed])⟩

/-- If no notification falls between a failed attempt and the registration that follows it, then
no call waits while a token is free and no return call is running. -/
theorem no_waiter_past_free_token (run : Reaches capacity Registered s) (idle : s.returning = 0)
    (waiter : 0 < s.waiting) : s.tokens = 0 := by
  have awake : s.Awake capacity := by
    clear idle waiter
    induction run with
    | start => exact ⟨le_rfl, by simp⟩
    | step _ step ih => exact ih.step step
  exact (awake.told (by omega)).resolve_right (by omega)

theorem waiter_after_return : ∃ s, Reaches 1 Registered s ∧ 0 < s.waiting ∧ s.tokens = 0 := by
  have run := (Reaches.start : Reaches 1 Registered { tokens := 1 })
    |>.step .acquire |>.step (.tryAcquire (by decide))
    |>.step .acquire |>.step (.tryAcquire (by decide)) |>.step (.notified (by decide))
    |>.step .returnTokens |>.step (.notifyWaiters (by decide) rfl)
    |>.step (.tryAcquire (by decide))
    |>.step .acquire |>.step (.tryAcquire (by decide)) |>.step (.notified (by decide))
  exact ⟨_, run, by decide, no_waiter_past_free_token run rfl (by decide)⟩

/-- The token comes back, and the waiters are notified, between the failed attempt of the second
call and its registration. -/
theorem waiter_past_free_token : ∃ s, Reaches 1 (fun _ => True) s ∧ s.returning = 0 ∧
    0 < s.waiting ∧ s.tokens = 1 := by
  have run := (Reaches.start : Reaches 1 (fun _ => True) { tokens := 1 })
    |>.step .acquire |>.step (.tryAcquire (by decide))
    |>.step .acquire |>.step (.tryAcquire (by decide))
    |>.step .returnTokens |>.step (.notifyWaiters (by decide) trivial)
    |>.step (.notified (by decide))
  exact ⟨_, run, rfl, by decide, rfl⟩

end TokenBucket

end RedKnot.Gateway
