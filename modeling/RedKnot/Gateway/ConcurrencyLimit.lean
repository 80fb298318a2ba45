import Mathlib.Tactic

/-! The concurrency limiter of the model gateway (`middleware.rs`): `concurrency_limit_middleware`,
`QueueProcessor::run` and `TokenGuardBody` over a `TokenBucket` with refill rate 0. Requests have
numbers in the order of arrival. A step runs from one await to the next, or to the next point where
another task can see the bucket or a channel. A waiting task may try the bucket at any time. -/

namespace RedKnot.Gateway

open List Option

structure LimiterConfig where
  capacity : Nat
  queueSize : Option Nat
  queueTimeout : Nat

inductive Phase where
  | handling
  | waiting (permit : Option Bool)
  | streaming
  | finished
  | cancelled
deriving DecidableEq, Repr

inductive QueueEntry where
  | absent
  | queued (queuedAt : Nat)
  /-- The processor has a token for it. -/
  | granting
  /-- A task waits for a token. -/
  | spawned (deadline : Nat)
  /-- The task has a token for it. -/
  | spawnedGranting
deriving DecidableEq, Repr

structure Request where
  phase : Phase
  entry : QueueEntry := .absent
deriving DecidableEq, Repr

open Request

structure Limiter where
  tokens : Nat
  requests : List Request := []
  queue : List Nat := []
  processor : Option Nat := none
  now : Nat := 0
deriving DecidableEq, Repr

inductive LimiterAction where
  | tick
  | arrive
  | processorTake
  | processorSend
  | waiterAcquire (i : Nat)
  | waiterTimeout (i : Nat)
  | waiterSend (i : Nat)
  | receive (i : Nat)
  | respond (i : Nat)
  | dropBody (i : Nat)
  | cancel (i : Nat)
deriving DecidableEq, Repr

/-- `permit_tx.send`, whose result is ignored: it has no effect if the receiver is gone. -/
def Request.send (r : Request) (ok : Bool) : Request :=
  match r.phase with
  | .waiting none => { phase := .waiting (some ok), entry := .absent }
  | _ => { r with entry := .absent }

namespace Limiter

variable (cfg : LimiterConfig)

/-- `try_acquire(1.0)`: the tokens left, if there was one to take -/
def tryAcquire (s : Limiter) : Option Nat :=
  let tokens := min s.tokens cfg.capacity
  if tokens ≥ 1 then some (tokens - 1) else none

/-- `return_tokens_sync(1.0)` -/
def returnToken (s : Limiter) : Nat := min (s.tokens + 1) cfg.capacity

def put (s : Limiter) (i : Nat) (r : Request) : Limiter := { s with requests := s.requests.set i r }

def arrive (s : Limiter) : Limiter :=
  match s.tryAcquire cfg with
  | some tokens => { s with tokens := tokens, requests := s.requests ++ [⟨.handling, .absent⟩] }
  | none =>
    match cfg.queueSize with
    | some size =>
      if s.queue.length < size then
        { s with
          requests := s.requests ++ [⟨.waiting none, .queued s.now⟩]
          queue := s.queue ++ [s.requests.length] }
      else { s with requests := s.requests ++ [⟨.finished, .absent⟩] }
    | none => { s with requests := s.requests ++ [⟨.finished, .absent⟩] }

def processorTake (s : Limiter) : Option Limiter :=
  match s.processor, s.queue with
  | none, i :: rest =>
    match s.requests[i]? with
    | some { phase, entry := .queued queuedAt } =>
      let s := { s with queue := rest }
      let r : Request := { phase, entry := .queued queuedAt }
      if s.now - queuedAt ≥ cfg.queueTimeout then some (s.put i (r.send false))
      else
        match s.tryAcquire cfg with
        | some tokens =>
          some { s.put i { r with entry := .granting } with tokens := tokens, processor := some i }
        | none => some (s.put i { r with entry := .spawned (queuedAt + cfg.queueTimeout) })
    | _ => none
  | _, _ => none

def step (s : Limiter) : LimiterAction → Option Limiter
  | .tick => some { s with now := s.now + 1 }
  | .arrive => some (s.arrive cfg)
  | .processorTake => s.processorTake cfg
  | .processorSend => do
    let i ← s.processor
    let r ← s.requests[i]?
    some { s.put i (r.send true) with processor := none }
  | .waiterAcquire i =>
    match s.requests[i]? with
    | some { phase, entry := .spawned _ } =>
      match s.tryAcquire cfg with
      | some tokens => some { s.put i { phase, entry := .spawnedGranting } with tokens := tokens }
      | none => some s
    | _ => none
  | .waiterTimeout i =>
    match s.requests[i]? with
    | some { phase, entry := .spawned deadline } =>
      if deadline ≤ s.now then
        some (s.put i (send { phase, entry := .spawned deadline } false))
      else none
    | _ => none
  | .waiterSend i =>
    match s.requests[i]? with
    | some { phase, entry := .spawnedGranting } =>
      some (s.put i (send { phase, entry := .spawnedGranting } true))
    | _ => none
  | .receive i =>
    match s.requests[i]? with
    | some { phase := .waiting (some ok), entry } =>
      some (s.put i { phase := if ok then .handling else .finished, entry })
    | _ => none
  | .respond i =>
    match s.requests[i]? with
    | some { phase := .handling, entry } => some (s.put i { phase := .streaming, entry })
    | _ => none
  | .dropBody i =>
    match s.requests[i]? with
    | some { phase := .streaming, entry } =>
      some { s.put i { phase := .finished, entry } with tokens := s.returnToken cfg }
    | _ => none
  | .cancel i =>
    match s.requests[i]? with
    | some { phase := .handling, entry } => some (s.put i { phase := .cancelled, entry })
    | some { phase := .waiting _, entry } => some (s.put i { phase := .cancelled, entry })
    | _ => none

end Limiter

inductive LimiterReaches (cfg : LimiterConfig) (ok : Limiter → LimiterAction → Prop) :
    Limiter → Prop
  | start : LimiterReaches cfg ok { tokens := cfg.capacity }
  | step {s s' : Limiter} {a : LimiterAction} : LimiterReaches cfg ok s → ok s a →
      s.step cfg a = some s' → LimiterReaches cfg ok s'

def Request.isActive (r : Request) : Bool := r.phase = .handling ∨ r.phase = .streaming

/-- No token is on its way to a request: none in the hand of the processor or of a task, and no
permit in a channel. -/
def Limiter.Settled (s : Limiter) : Prop :=
  s.processor = none ∧ ∀ r ∈ s.requests, r.phase ≠ .waiting (some true) ∧ r.entry ≠ .spawnedGranting

def Limiter.Conserves (cfg : LimiterConfig) (s : Limiter) : Prop :=
  s.tokens + s.requests.countP isActive = cfg.capacity

def Request.owned (r : Request) : Nat :=
  (match r.phase with
    | .handling | .streaming | .waiting (some true) => 1
    | _ => 0) +
  match r.entry with
  | .granting | .spawnedGranting => 1
  | _ => 0

/-- A client cancels only while no token is held for its request, and no token is taken for a
request whose client has cancelled. -/
def KeepsToken (cfg : LimiterConfig) (s : Limiter) : LimiterAction → Prop
  | .cancel i => ∀ r, s.requests[i]? = some r → r.owned = 0
  | .processorTake => ∀ i rest r, s.queue = i :: rest → s.requests[i]? = some r →
      r.phase = .cancelled → s.tokens = 0 ∨ ∀ t, r.entry = .queued t → s.now - t ≥ cfg.queueTimeout
  | .waiterAcquire i => ∀ r, s.requests[i]? = some r → r.phase = .cancelled → s.tokens = 0
  | _ => True

def Request.Consistent (r : Request) : Prop :=
  match r.entry with
  | .absent => True
  | .queued _ | .spawned _ => r.phase = .waiting none ∨ r.phase = .cancelled
  | .granting | .spawnedGranting => r.phase = .waiting none

structure Limiter.Inv (cfg : LimiterConfig) (s : Limiter) : Prop where
  total : s.tokens + (s.requests.map owned).sum = cfg.capacity
  consistent : ∀ r ∈ s.requests, r.Consistent
  nodup : s.queue.Nodup
  queued : ∀ i ∈ s.queue, ∃ r t, s.requests[i]? = some r ∧ r.entry = .queued t
  processor : ∀ i, (∃ r, s.requests[i]? = some r ∧ r.entry = .granting) ↔ s.processor = some i

theorem sum_map_set {α : Type} (w : α → Nat) {l : List α} {i : Nat} {r : α} (r' : α)
    (here : l[i]? = some r) : ((l.set i r').map w).sum + w r = (l.map w).sum + w r' := by
  induction l generalizing i with
  | nil => cases here
  | cons a l ih =>
    cases i with
    | zero =>
      cases here
      simp only [set_cons_zero, map_cons, sum_cons]
      omega
    | succ i =>
      have rest := ih (i := i) (by simpa using here)
      simp only [set_cons_succ, map_cons, sum_cons]
      omega

namespace Request

theorem send_entry (r : Request) (ok : Bool) : (r.send ok).entry = .absent := by
  unfold send
  split <;> rfl

theorem consistent_of_absent {r : Request} (h : r.entry = .absent) : r.Consistent := by
  rw [Consistent, h]
  trivial

end Request

theorem absent_of_phase {phase : Phase} {entry : QueueEntry}
    (h : Consistent ⟨phase, entry⟩) (alive : phase ≠ .waiting none)
    (here : phase ≠ .cancelled) : entry = .absent := by
  cases entry with
  | absent => rfl
  | queued | spawned => exact absurd h (not_or.mpr ⟨alive, here⟩)
  | granting => exact absurd h alive
  | spawnedGranting => exact absurd h alive

namespace Limiter

variable {cfg : LimiterConfig} {s s' : Limiter} {i : Nat} {r r' : Request}

def Apart (e : QueueEntry) : Prop := e ≠ .granting ∧ ∀ t, e ≠ .queued t

namespace Inv

theorem start (cfg : LimiterConfig) : Inv cfg { tokens := cfg.capacity } where
  total := rfl
  consistent _ h := absurd h not_mem_nil
  nodup := nodup_nil
  queued _ h := absurd h not_mem_nil
  processor i := by simp

variable (inv : Inv cfg s) (here : s.requests[i]? = some r)

include inv

theorem tokens_le : s.tokens ≤ cfg.capacity := by
  have := inv.total
  omega

theorem tryAcquire_eq : s.tryAcquire cfg = if 1 ≤ s.tokens then some (s.tokens - 1) else none := by
  rw [tryAcquire, min_eq_left inv.tokens_le]

include here

theorem consistent_at : r.Consistent := inv.consistent r (mem_of_getElem? here)

theorem replace (tokens : Nat) (queue : List Nat) (processor : Option Nat)
    (total : tokens + r'.owned = s.tokens + r.owned) (consistent : r'.Consistent)
    (nodup : queue.Nodup) (sub : queue ⊆ s.queue) (entry : i ∈ queue → r'.entry = r.entry)
    (others : ∀ j, j ≠ i → (processor = some j ↔ s.processor = some j))
    (own : r'.entry = .granting ↔ processor = some i) :
    Inv cfg { s with
      tokens := tokens
      requests := s.requests.set i r'
      queue := queue
      processor := processor } where
  total := by
    have sum := sum_map_set owned r' here
    have before := inv.total
    dsimp only
    omega
  consistent x hx := (mem_or_eq_of_mem_set hx).elim (inv.consistent x) fun same => same ▸ consistent
  nodup := nodup
  queued j hj := by
    obtain ⟨x, t, at_j, isQueued⟩ := inv.queued j (sub hj)
    by_cases same : j = i
    · subst same
      cases some.inj (here.symm.trans at_j)
      refine ⟨r', t, ?_, (entry hj).trans isQueued⟩
      rw [getElem?_set_self (List.getElem?_eq_some_iff.mp here).1]
    · exact ⟨x, t, by rw [getElem?_set_ne (Ne.symm same), at_j], isQueued⟩
  processor j := by
    by_cases same : j = i
    · subst same
      rw [← own, getElem?_set_self (List.getElem?_eq_some_iff.mp here).1]
      simp
    · rw [getElem?_set_ne (Ne.symm same), others j same]
      exact inv.processor j

theorem put (tokens : Nat) (total : tokens + r'.owned = s.tokens + r.owned)
    (consistent : r'.Consistent)
    (entry : r'.entry = r.entry ∨ (Apart r.entry ∧ Apart r'.entry)) :
    Inv cfg { s.put i r' with tokens := tokens } := by
  refine inv.replace here _ s.queue s.processor total consistent inv.nodup
    (List.Subset.refl _) (fun mem => ?_) (fun _ _ => Iff.rfl) ?_
  · rcases entry with same | ⟨apart, -⟩
    · exact same
    · obtain ⟨x, t, at_i, isQueued⟩ := inv.queued i mem
      cases some.inj (here.symm.trans at_i)
      exact absurd isQueued (apart.2 t)
  · have before := inv.processor i
    rw [here] at before
    have before : r.entry = .granting ↔ s.processor = some i := by simpa using before
    rcases entry with same | ⟨apart, apart'⟩
    · rw [same, before]
    · exact ⟨fun h => absurd h apart'.1, fun h => absurd (before.mpr h) apart.1⟩

omit here

theorem append {tokens : Nat} {queue : List Nat} (total : tokens + r.owned = s.tokens)
    (consistent : r.Consistent) (apart : r.entry ≠ .granting)
    (queued : queue = s.queue ∨ (queue = s.queue ++ [s.requests.length] ∧ ∃ t, r.entry = .queued t))
      :
    Inv cfg { s with tokens := tokens, requests := s.requests ++ [r], queue := queue } := by
  have old : ∀ {j x}, s.requests[j]? = some x → (s.requests ++ [r])[j]? = some x :=
    fun {j x} h => by
    rw [getElem?_append_left (List.getElem?_eq_some_iff.mp h).1, h]
  constructor
  case total =>
    have before := inv.total
    simp only [map_append, sum_append, map_singleton, sum_singleton]
    omega
  case consistent =>
    intro x hx
    rcases mem_append.mp hx with before | last
    · exact inv.consistent x before
    · exact mem_singleton.mp last ▸ consistent
  case nodup =>
    rcases queued with rfl | ⟨rfl, -⟩
    · exact inv.nodup
    · refine inv.nodup.append (nodup_singleton _) fun j mem last => ?_
      obtain ⟨x, t, at_j, -⟩ := inv.queued j mem
      have := (List.getElem?_eq_some_iff.mp at_j).1
      rw [mem_singleton.mp last] at this
      omega
  case queued =>
    intro j mem
    have waits : ∀ j ∈ s.queue, ∃ x t, (s.requests ++ [r])[j]? = some x ∧ x.entry = .queued t :=
      fun j mem => by
        obtain ⟨x, t, at_j, isQueued⟩ := inv.queued j mem
        exact ⟨x, t, old at_j, isQueued⟩
    rcases queued with rfl | ⟨rfl, t, isQueued⟩
    · exact waits j mem
    · rcases mem_append.mp mem with before | last
      · exact waits j before
      · rw [mem_singleton.mp last]
        exact ⟨r, t, by simp, isQueued⟩
  case processor =>
    intro j
    rw [← inv.processor j]
    constructor
    · rintro ⟨x, at_j, granting⟩
      by_cases last : j < s.requests.length
      · rw [getElem?_append_left last] at at_j
        exact ⟨x, at_j, granting⟩
      · rw [getElem?_append_right (by omega), getElem?_singleton] at at_j
        split at at_j
        · cases at_j
          exact absurd granting apart
        · cases at_j
    · rintro ⟨x, at_j, granting⟩
      exact ⟨x, old at_j, granting⟩

theorem arrive : Inv cfg (s.arrive cfg) := by
  unfold Limiter.arrive
  rw [inv.tryAcquire_eq]
  by_cases free : 1 ≤ s.tokens
  · rw [if_pos free]
    refine inv.append ?_ trivial nofun (.inl rfl)
    show s.tokens - 1 + 1 = s.tokens
    omega
  · rw [if_neg free]
    dsimp only
    split
    · split
      · exact inv.append rfl (.inl rfl) nofun (.inr ⟨rfl, s.now, rfl⟩)
      · exact inv.append rfl trivial nofun (.inl rfl)
    · exact inv.append rfl trivial nofun (.inl rfl)

theorem processorTake (keeps : KeepsToken cfg s .processorTake)
    (h : s.processorTake cfg = some s') : Inv cfg s' := by
  unfold Limiter.processorTake at h
  split at h
  case h_2 => cases h
  next i rest idle head =>
  split at h
  case h_2 => cases h
  next phase queuedAt here =>
  dsimp only at h
  have nodup : (i :: rest).Nodup := head ▸ inv.nodup
  have sub : rest ⊆ s.queue := fun j mem => head ▸ mem_cons_of_mem i mem
  have gone : ∀ {r' : Request}, i ∈ rest → r'.entry = QueueEntry.queued queuedAt := fun mem =>
    absurd mem (nodup_cons.mp nodup).1
  have waits : phase = .waiting none ∨ phase = .cancelled := inv.consistent_at here
  split at h
  · cases h
    refine inv.replace here s.tokens _ s.processor ?_
      (consistent_of_absent (send_entry _ _)) nodup.of_cons sub gone
      (fun _ _ => Iff.rfl) ?_
    · rcases waits with rfl | rfl <;> rfl
    · rw [idle, send_entry]
      exact ⟨nofun, nofun⟩
  · next inTime =>
    have acquire : ({ s with queue := rest } : Limiter).tryAcquire cfg = s.tryAcquire cfg := rfl
    rw [acquire, inv.tryAcquire_eq] at h
    by_cases free : 1 ≤ s.tokens
    · rw [if_pos free] at h
      cases h
      have alive : phase = .waiting none := by
        refine waits.resolve_right fun cancelled => ?_
        rcases keeps i rest _ head here cancelled with empty | late
        · omega
        · exact inTime (late queuedAt rfl)
      subst alive
      refine inv.replace here (s.tokens - 1) _ (some i) ?_ rfl nodup.of_cons sub
        gone (fun j other => ?_) (iff_of_true rfl rfl)
      · show s.tokens - 1 + 1 = s.tokens
        omega
      · rw [idle]
        exact ⟨fun same => absurd (some.inj same).symm other, nofun⟩
    · rw [if_neg free] at h
      cases h
      refine inv.replace here s.tokens _ s.processor rfl waits
        nodup.of_cons sub gone (fun _ _ => Iff.rfl) ?_
      rw [idle]
      exact ⟨nofun, nofun⟩

theorem processorSend (h : s.step cfg .processorSend = some s') : Inv cfg s' := by
  rw [Limiter.step] at h
  cases busy : s.processor with
  | none =>
    rw [busy] at h
    cases h
  | some i =>
    obtain ⟨r, here, granting⟩ := (inv.processor i).mpr busy
    rw [busy, bind_eq_bind, bind_some, here] at h
    cases h
    have alive : r.phase = .waiting none := by
      have := inv.consistent_at here
      rwa [Consistent, granting] at this
    refine inv.replace here s.tokens s.queue none ?_
      (consistent_of_absent (send_entry _ _)) inv.nodup (List.Subset.refl _)
      (fun mem => ?_) (fun j other => ?_) ?_
    · obtain ⟨phase, entry⟩ := r
      cases alive
      cases granting
      rfl
    · obtain ⟨x, t, at_i, isQueued⟩ := inv.queued i mem
      cases some.inj (here.symm.trans at_i)
      rw [granting] at isQueued
      cases isQueued
    · rw [busy]
      exact ⟨nofun, fun same => absurd (some.inj same).symm other⟩
    · rw [send_entry]
      exact ⟨nofun, nofun⟩

theorem step {a : LimiterAction} (keeps : KeepsToken cfg s a) (h : s.step cfg a = some s') :
    Inv cfg s' := by
  cases a with rw [Limiter.step] at h
  | tick =>
    cases h
    exact ⟨inv.total, inv.consistent, inv.nodup, inv.queued, inv.processor⟩
  | arrive =>
    cases h
    exact inv.arrive
  | processorTake => exact inv.processorTake keeps h
  | processorSend => exact inv.processorSend h
  | waiterAcquire i =>
    split at h
    case h_2 => cases h
    next phase deadline here =>
    rw [inv.tryAcquire_eq] at h
    by_cases free : 1 ≤ s.tokens
    · rw [if_pos free] at h
      cases h
      have waits : phase = .waiting none ∨ phase = .cancelled := inv.consistent_at here
      have alive : phase = .waiting none := waits.resolve_right fun cancelled => by
        have := keeps _ here cancelled
        omega
      subst alive
      refine inv.put here _ ?_ rfl (.inr ⟨⟨nofun, nofun⟩, ⟨nofun, nofun⟩⟩)
      show s.tokens - 1 + 1 = s.tokens
      omega
    · rw [if_neg free] at h
      cases h
      exact inv
  | waiterTimeout i =>
    split at h
    case h_2 => cases h
    next phase deadline here =>
    split at h
    case isFalse => cases h
    cases h
    have waits : phase = .waiting none ∨ phase = .cancelled := inv.consistent_at here
    refine inv.put here s.tokens ?_
      (consistent_of_absent (send_entry _ _)) (.inr ⟨⟨nofun, nofun⟩, ?_⟩)
    · rcases waits with rfl | rfl <;> rfl
    · rw [send_entry]
      exact ⟨nofun, nofun⟩
  | waiterSend i =>
    split at h
    case h_2 => cases h
    next phase here =>
    cases h
    have alive : phase = .waiting none := inv.consistent_at here
    subst alive
    exact inv.put here s.tokens rfl trivial (.inr ⟨⟨nofun, nofun⟩, ⟨nofun, nofun⟩⟩)
  | receive i =>
    split at h
    case h_2 => cases h
    next ok entry here =>
    cases h
    have absent : entry = .absent := absent_of_phase (inv.consistent_at here) nofun nofun
    subst absent
    refine inv.put here s.tokens ?_ trivial (.inl rfl)
    cases ok <;> rfl
  | respond i =>
    split at h
    case h_2 => cases h
    next entry here =>
    cases h
    have absent : entry = .absent := absent_of_phase (inv.consistent_at here) nofun nofun
    subst absent
    exact inv.put here s.tokens rfl trivial (.inl rfl)
  | dropBody i =>
    split at h
    case h_2 => cases h
    next entry here =>
    cases h
    have absent : entry = .absent := absent_of_phase (inv.consistent_at here) nofun nofun
    subst absent
    -- The token comes back to a bucket that is not full.
    have room : s.tokens + 1 ≤ cfg.capacity := by
      have total := inv.total
      have one : 1 ≤ (s.requests.map owned).sum :=
        le_sum_of_mem (mem_map.mpr ⟨_, mem_of_getElem? here, rfl⟩)
      omega
    rw [returnToken, min_eq_left room]
    exact inv.put here _ rfl trivial (.inl rfl)
  | cancel i =>
    split at h
    case h_1 entry here =>
      have none_held := keeps _ here
      simp [owned] at none_held
    case h_2 permit entry here =>
      cases h
      have none_held := keeps _ here
      have before := inv.consistent_at here
      refine inv.put here s.tokens ?_ ?_ (.inl rfl)
      · cases entry <;> simp_all [owned]
      · cases entry <;> simp_all [owned, Consistent]
    case h_3 => cases h

end Inv

theorem owned_eq_isActive {r : Request} (noPermit : r.phase ≠ .waiting (some true))
    (noTask : r.entry ≠ .spawnedGranting) (noProcessor : r.entry ≠ .granting) :
    r.owned = if r.isActive then 1 else 0 := by
  obtain ⟨phase, entry⟩ := r
  have free : owned ⟨phase, entry⟩ = owned ⟨phase, .absent⟩ := by
    cases entry with
    | absent | queued | spawned => rfl
    | granting => exact absurd rfl noProcessor
    | spawnedGranting => exact absurd rfl noTask
  rw [free]
  cases phase with
  | handling | streaming | finished | cancelled => rfl
  | waiting permit =>
    rcases permit with _ | _ | _
    · rfl
    · rfl
    · exact absurd rfl noPermit

theorem countP_eq_sum {l : List Request} (h : ∀ r ∈ l, r.owned = if r.isActive then 1 else 0) :
    l.countP isActive = (l.map owned).sum := by
  induction l with
  | nil => rfl
  | cons r l ih =>
    rw [countP_cons, map_cons, sum_cons, h r mem_cons_self,
      ih fun r' mem => h r' (mem_cons_of_mem _ mem), add_comm]

theorem Inv.conserves (inv : s.Inv cfg) (settled : s.Settled) : s.Conserves cfg := by
  rw [Conserves, countP_eq_sum, inv.total]
  intro r mem
  refine owned_eq_isActive (settled.2 r mem).1 (settled.2 r mem).2 fun granting => ?_
  obtain ⟨j, at_j⟩ := getElem?_of_mem mem
  have busy := (inv.processor j).mp ⟨r, at_j, granting⟩
  rw [settled.1] at busy
  cases busy

end Limiter

/-- In every interleaving of steps that keep the tokens of live requests, the limiter conserves its
tokens. -/
theorem limiter_conserves (cfg : LimiterConfig) {s : Limiter}
    (run : LimiterReaches cfg (KeepsToken cfg) s) (settled : s.Settled) : s.Conserves cfg := by
  suffices inv : s.Inv cfg from inv.conserves settled
  clear settled
  induction run with
  | start => exact .start cfg
  | step _ keeps step inv => exact inv.step keeps step

/-- A client that cancels while its request is handled takes the only token with it. -/
theorem limiter_loses_token : ∃ s, LimiterReaches ⟨1, none, 0⟩ (fun _ _ => True) s ∧ s.Settled ∧
      s.tokens = 0 ∧ s.requests = [⟨.cancelled, .absent⟩] ∧ ¬ s.Conserves ⟨1, none, 0⟩ := by
  have run := ((LimiterReaches.start : LimiterReaches ⟨1, none, 0⟩ (fun _ _ => True) _).step
    (a := .arrive) trivial rfl).step (a := .cancel 0) trivial rfl
  refine ⟨_, run, ⟨rfl, ?_⟩, rfl, rfl, by unfold Limiter.Conserves; decide⟩
  intro r mem
  rw [mem_singleton.mp (show r ∈ [⟨.cancelled, .absent⟩] from mem)]
  exact ⟨nofun, nofun⟩

theorem limiter_conserves_two : ∃ s, LimiterReaches ⟨1, some 1, 5⟩ (KeepsToken ⟨1, some 1, 5⟩) s ∧
      s.requests = [⟨.finished, .absent⟩, ⟨.handling, .absent⟩] ∧ s.Conserves ⟨1, some 1, 5⟩ := by
  have run := ((((LimiterReaches.start :
    LimiterReaches ⟨1, some 1, 5⟩ (KeepsToken ⟨1, some 1, 5⟩) _).step (a :=
      .arrive) trivial rfl).step
    (a := .arrive) trivial rfl).step (a := .respond 0) trivial rfl).step
      (a := .dropBody 0) trivial rfl
  have run := ((run.step (a := .processorTake) (by
      intro i rest r head here cancelled
      cases head
      cases here
      cases cancelled) rfl).step (a := .processorSend) trivial rfl).step
        (a := .receive 1) trivial rfl
  refine ⟨_, run, rfl, limiter_conserves ⟨1, some 1, 5⟩ run ⟨rfl, ?_⟩⟩
  intro r mem
  have cases : r = ⟨.finished, .absent⟩ ∨ r = ⟨.handling, .absent⟩ := by
    have mem : r ∈ [(⟨.finished, .absent⟩ : Request), ⟨.handling, .absent⟩] := mem
    simpa using mem
  rcases cases with rfl | rfl <;> exact ⟨nofun, nofun⟩

end RedKnot.Gateway
