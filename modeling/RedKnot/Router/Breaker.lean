import Mathlib.Tactic

/-! `CircuitBreaker` of `health/circuit_breaker.rs`, the two forwards of `proxy/mod.rs` and the pump
of `proxy/sse.rs`. A forward runs from one await to the next; what it finds there is an event. -/

namespace RedKnot.Router

open Function List

namespace Breaker

inductive State where
  | closed
  | «open» (openedAt : Nat)
  | halfOpen (probeInFlight : Bool)
deriving DecidableEq, Repr

structure Config where
  threshold : Nat
  coolDown : Nat
  nonZero : 0 < threshold

/-- `Inner` of the breaker. -/
structure CircuitBreaker where
  state : State := .closed
  consecutiveFailures : Nat := 0

open CircuitBreaker

namespace CircuitBreaker

/-- The answer of `allow` at time `now`, and the breaker after it. -/
def allow (cfg : Config) (now : Nat) (b : CircuitBreaker) : Bool × CircuitBreaker :=
  match b.state with
  | .closed => (true, b)
  | .open openedAt =>
    if now - openedAt ≥ cfg.coolDown then (true, { b with state := .halfOpen true }) else (false, b)
  | .halfOpen probeInFlight =>
    if probeInFlight then (false, b) else (true, { b with state := .halfOpen true })

def recordSuccess (_ : CircuitBreaker) : CircuitBreaker :=
  { state := .closed, consecutiveFailures := 0 }

def tripped (cfg : Config) (now : Nat) (b : CircuitBreaker) : CircuitBreaker :=
  { state := if b.consecutiveFailures + 1 ≥ cfg.threshold then .open now else b.state
    consecutiveFailures := b.consecutiveFailures + 1 }

def recordFailure (cfg : Config) (now : Nat) (b : CircuitBreaker) : CircuitBreaker :=
  match b.state with
  | .closed => b.tripped cfg now
  | .halfOpen _ => b.tripped cfg now
  | .open _ => b

end CircuitBreaker

inductive Record where
  | success
  | failure
deriving DecidableEq, Repr

def CircuitBreaker.record (cfg : Config) (now : Nat) (b : CircuitBreaker) : Record → CircuitBreaker
  | .success => b.recordSuccess
  | .failure => b.recordFailure cfg now

inductive Kind where
  | json
  | streaming
deriving DecidableEq, Repr

/-- What a forward finds when it is polled again. `dropFuture` is no longer possible once a response
is with its pump. -/
inductive Event where
  | proceed
  | sendError
  | response (status : Nat)
  | bodyDone
  | bodyError
  | chunk
  | chunkError
  | clientGone
  | streamEnd
  | delivered
  | panic
  | dropFuture
deriving DecidableEq, Repr

inductive Phase where
  | start
  | sending
  | reading (status : Nat)
  | pumping (hook : Bool)
  | shippingError (hook : Bool)
  | reportingPanic (hook : Bool)
  | ended
deriving DecidableEq, Repr

def isServerError (status : Nat) : Bool := decide (500 ≤ status ∧ status < 600)

/-- `on_complete` -/
def complete (hook ok : Bool) : List Record :=
  if hook then [if ok then .success else .failure] else []

/-- A forward that `allow` has let through. -/
structure Forward where
  kind : Kind
  urlParses : Bool
  pathJoins : Bool
  phase : Phase := .start
  events : List Event := []
  records : List Record := []

open Forward

def Forward.next (f : Forward) : Event → Option (Phase × List Record)
  | .proceed =>
    match f.phase with
    | .start =>
      if f.urlParses then if f.pathJoins then some (.sending, []) else some (.ended, [])
      else some (.ended, [.failure])
    | _ => none
  | .sendError =>
    match f.phase with
    | .sending => some (.ended, [.failure])
    | _ => none
  | .response status =>
    match f.phase, f.kind with
    | .sending, .json => some (.reading status, [])
    | .sending, .streaming =>
      if isServerError status then some (.pumping false, [.failure]) else some (.pumping true, [])
    | _, _ => none
  | .bodyDone =>
    match f.phase with
    | .reading status => some (.ended, [if isServerError status then .failure else .success])
    | _ => none
  | .bodyError =>
    match f.phase with
    | .reading _ => some (.ended, [.failure])
    | _ => none
  | .chunk =>
    match f.phase with
    | .pumping hook => some (.pumping hook, [])
    | _ => none
  | .chunkError =>
    match f.phase with
    | .pumping hook => some (.shippingError hook, [])
    | _ => none
  | .clientGone =>
    match f.phase with
    | .pumping hook => some (.ended, complete hook true)
    | _ => none
  | .streamEnd =>
    match f.phase with
    | .pumping hook => some (.ended, complete hook true)
    | _ => none
  | .delivered =>
    match f.phase with
    | .shippingError hook => some (.ended, complete hook false)
    | .reportingPanic hook => some (.ended, complete hook false)
    | _ => none
  | .panic =>
    match f.phase with
    | .sending => some (.ended, [])
    | .reading _ => some (.ended, [])
    | .pumping hook => some (.reportingPanic hook, [])
    | _ => none
  | .dropFuture =>
    match f.phase with
    | .sending => some (.ended, [])
    | .reading _ => some (.ended, [])
    | _ => none

def Forward.after (f : Forward) (e : Event) (r : Phase × List Record) : Forward :=
  { f with phase := r.1, events := f.events ++ [e], records := f.records ++ r.2 }

/-- The worker's URL is malformed, or the path joins it and the future is neither dropped nor
unwound before its outcome is recorded or its response is with the pump. -/
def Forward.Settles (f : Forward) : Prop :=
  f.urlParses = false ∨ (f.pathJoins = true ∧ .dropFuture ∉ f.events ∧
    (.panic ∈ f.events → f.kind = .streaming ∧ ∃ status, .response status ∈ f.events))

/-- Forwards are numbered as they are admitted; `prober` is the last one that `allow` let through as
the probe of a half-open breaker. -/
structure System where
  breaker : CircuitBreaker := {}
  forwards : List Forward := []
  prober : Option Nat := none
  now : Nat := 0

namespace System

def recorded (cfg : Config) (s : System) (records : List Record) : CircuitBreaker :=
  records.foldl (record cfg s.now) s.breaker

inductive Step (cfg : Config) : System → System → Prop where
  | admitted {s} (f : Forward) (fresh : f.phase = .start ∧ f.events = [] ∧ f.records = [])
      (allowed : (s.breaker.allow cfg s.now).1 = true) :
      Step cfg s { s with
        breaker := (s.breaker.allow cfg s.now).2
        forwards := s.forwards ++ [f]
        prober := if (s.breaker.allow cfg s.now).2.state = .halfOpen true
          then some s.forwards.length else s.prober }
  | refused {s} (denied : (s.breaker.allow cfg s.now).1 = false) :
      Step cfg s { s with breaker := (s.breaker.allow cfg s.now).2 }
  | poll {s} (i : Nat) (f : Forward) (e : Event) (r : Phase × List Record)
      (here : s.forwards[i]? = some f) (next : f.next e = some r) :
      Step cfg s { s with
        breaker := s.recorded cfg r.2
        forwards := s.forwards.set i (f.after e r) }
  | tick {s} (d : Nat) : Step cfg s { s with now := s.now + d }

inductive Reaches (cfg : Config) : System → Prop where
  | start : Reaches cfg {}
  | step {s s'} : Reaches cfg s → Step cfg s s' → Reaches cfg s'

end System

def Forward.Quiet (f : Forward) : Prop :=
  f.urlParses = true ∧ f.pathJoins = true ∧ .dropFuture ∉ f.events ∧ .panic ∉ f.events

def Forward.Answered (f : Forward) : Prop :=
  f.kind = .streaming ∧ ∃ status, .response status ∈ f.events

def pumped (hook : Bool) : List Record := if hook then [] else [.failure]

def Forward.Sound (f : Forward) : Prop :=
  match f.phase with
  | .start => f.records = [] ∧ f.events = []
  | .sending => f.records = [] ∧ f.Quiet ∧ ∀ status, .response status ∉ f.events
  | .reading _ => f.records = [] ∧ f.Quiet ∧ f.kind = .json
  | .pumping hook => f.records = pumped hook ∧ f.Quiet ∧ f.Answered
  | .shippingError hook => f.records = pumped hook ∧ f.Quiet ∧ f.Answered
  | .reportingPanic hook => f.records = pumped hook ∧ f.urlParses = true ∧ f.pathJoins = true ∧
      .dropFuture ∉ f.events ∧ f.Answered
  | .ended => f.records.length = 1 ↔ f.Settles

theorem length_pumped_complete (hook ok : Bool) : (pumped hook ++ complete hook ok).length = 1 := by
  cases hook <;> rfl

variable {f : Forward} {e : Event} {r : Phase × List Record}

theorem Forward.Quiet.after (h : f.Quiet) (kept : e ≠ .dropFuture) (calm : e ≠ .panic)
    (r : Phase × List Record) : (f.after e r).Quiet := by
  obtain ⟨parses, joins, alive, running⟩ := h
  refine ⟨parses, joins, ?_, ?_⟩
  · simp [Forward.after, alive, kept.symm]
  · simp [Forward.after, running, calm.symm]

theorem Forward.Answered.after (h : f.Answered) (e : Event) (r : Phase × List Record) :
    (f.after e r).Answered := by
  obtain ⟨kind, status, mem⟩ := h
  exact ⟨kind, status, mem_append_left _ mem⟩

theorem Forward.settles_of_quiet (h : f.Quiet) : f.Settles :=
  .inr ⟨h.2.1, h.2.2.1, fun unwound => absurd unwound h.2.2.2⟩

theorem Forward.not_settles_of_cut (h : f.Quiet) (cut : e = .dropFuture ∨ e = .panic)
    (unanswered : ¬ f.Answered) (r : Phase × List Record) : ¬ (f.after e r).Settles := by
  rintro (malformed | ⟨-, alive, unwound⟩)
  · have parses : f.urlParses = false := malformed
    rw [h.1] at parses
    cases parses
  · rcases cut with rfl | rfl
    · exact alive (by simp [Forward.after])
    · obtain ⟨kind, status, mem⟩ := unwound (by simp [Forward.after])
      have earlier : Event.response status ∈ f.events := by simpa [Forward.after] using mem
      exact unanswered ⟨kind, status, earlier⟩

theorem Forward.sound_of_ended {records : List Record} (one : (f.records ++ records).length = 1)
    (settles : (f.after e (.ended, records)).Settles) : (f.after e (.ended, records)).Sound := by
  exact ⟨fun _ => settles, fun _ => one⟩

theorem Forward.sound_of_cut (none_yet : f.records = [])
    (lost : ¬ (f.after e (.ended, [])).Settles) : (f.after e (.ended, [])).Sound := by
  change (f.records ++ []).length = 1 ↔ _
  rw [none_yet]
  exact ⟨fun one => absurd one (by decide), fun settles => absurd settles lost⟩

namespace Forward.Sound

variable (h : f.Sound)
include h

/-- A request that is dropped or panics before its answer leaves no record. -/
theorem cut (waits : f.phase = .sending ∨ ∃ status, f.phase = .reading status)
    (cut : e = .dropFuture ∨ e = .panic) : (f.after e (.ended, [])).Sound := by
  unfold Sound at h
  rcases waits with waits | ⟨status, waits⟩
  · simp only [waits] at h
    exact sound_of_cut h.1 (not_settles_of_cut h.2.1 cut
      (fun ⟨_, status, mem⟩ => h.2.2 status mem) _)
  · simp only [waits] at h
    exact sound_of_cut h.1 (not_settles_of_cut h.2.1 cut
      (fun ⟨kind, _⟩ => absurd (h.2.2.symm.trans kind) (by decide)) _)

theorem proceed (next : f.next .proceed = some r) : (f.after .proceed r).Sound := by
  unfold Sound at h
  simp only [Forward.next] at next
  split at next
  · rename_i waits
    simp only [waits] at h
    split at next
    · rename_i parses
      split at next
      · rename_i joins
        cases next
        refine ⟨?_, ⟨parses, joins, ?_, ?_⟩, ?_⟩ <;> simp [Forward.after, h]
      · rename_i unjoined
        cases next
        apply sound_of_cut h.1
        rintro (malformed | ⟨joins, -⟩)
        · exact absurd (parses.symm.trans malformed) (by decide)
        · exact unjoined joins
    · rename_i malformed
      cases next
      exact sound_of_ended (by simp [h.1]) (.inl (Bool.eq_false_iff.mpr malformed))
  · cases next

theorem response {status : Nat} (next : f.next (.response status) = some r) :
    (f.after (.response status) r).Sound := by
  unfold Sound at h
  simp only [Forward.next] at next
  split at next
  · rename_i waits kind
    simp only [waits] at h
    cases next
    refine ⟨?_, h.2.1.after (by simp) (by simp) _, kind⟩
    simp [Forward.after, h.1]
  · rename_i waits kind
    simp only [waits] at h
    have answered : ∀ r, (f.after (.response status) r).Answered :=
      fun r => ⟨kind, status, by simp [Forward.after]⟩
    have quiet : ∀ r, (f.after (.response status) r).Quiet :=
      h.2.1.after (by simp) (by simp)
    split at next <;>
      · cases next
        refine ⟨?_, quiet _, answered _⟩
        simp [Forward.after, h.1, pumped]
  · cases next

theorem poll (next : f.next e = some r) : (f.after e r).Sound := by
  have sound := h
  unfold Sound at h
  cases e with simp only [Forward.next] at next
  | proceed => exact sound.proceed next
  | sendError =>
    split at next
    · rename_i waits
      simp only [waits] at h
      cases next
      exact sound_of_ended (by simp [h.1])
        (settles_of_quiet (h.2.1.after (by decide) (by decide) _))
    · cases next
  | response status => exact sound.response next
  | bodyDone | bodyError =>
    split at next
    · rename_i status waits
      simp only [waits] at h
      cases next
      exact sound_of_ended (by simp [h.1])
        (settles_of_quiet (h.2.1.after (by decide) (by decide) _))
    · cases next
  | chunk | chunkError =>
    split at next
    · rename_i hook waits
      simp only [waits] at h
      cases next
      refine ⟨?_, h.2.1.after (by decide) (by decide) _, h.2.2.after _ _⟩
      simp [Forward.after, h.1]
    · cases next
  | clientGone | streamEnd =>
    split at next
    · rename_i hook waits
      simp only [waits] at h
      cases next
      exact sound_of_ended (h.1 ▸ length_pumped_complete hook true)
        (settles_of_quiet (h.2.1.after (by decide) (by decide) _))
    · cases next
  | delivered =>
    split at next
    · rename_i hook waits
      simp only [waits] at h
      cases next
      exact sound_of_ended (h.1 ▸ length_pumped_complete hook false)
        (settles_of_quiet (h.2.1.after (by decide) (by decide) _))
    · rename_i hook waits
      simp only [waits] at h
      obtain ⟨records, parses, joins, alive, answered⟩ := h
      cases next
      refine sound_of_ended (records ▸ length_pumped_complete hook false)
        (.inr ⟨joins, ?_, ?_⟩)
      · simp [Forward.after, alive]
      · exact fun _ => answered.after _ _
    · cases next
  | panic =>
    split at next
    · rename_i waits
      cases next
      exact sound.cut (.inl waits) (.inr rfl)
    · rename_i status waits
      cases next
      exact sound.cut (.inr ⟨status, waits⟩) (.inr rfl)
    · rename_i hook waits
      simp only [waits] at h
      obtain ⟨records, ⟨parses, joins, alive, -⟩, answered⟩ := h
      cases next
      refine ⟨?_, parses, joins, ?_, answered.after _ _⟩
      · simp [Forward.after, records]
      · simp [Forward.after, alive]
    · cases next
  | dropFuture =>
    split at next
    · rename_i waits
      cases next
      exact sound.cut (.inl waits) (.inl rfl)
    · rename_i status waits
      cases next
      exact sound.cut (.inr ⟨status, waits⟩) (.inl rfl)
    · cases next

end Forward.Sound

def CircuitBreaker.Charged (cfg : Config) (b : CircuitBreaker) : Prop :=
  b.state = .closed ∨ cfg.threshold ≤ b.consecutiveFailures

variable {cfg : Config} {b : CircuitBreaker} {now : Nat}

theorem CircuitBreaker.Charged.allow (h : b.Charged cfg) : (b.allow cfg now).2.Charged cfg := by
  unfold CircuitBreaker.allow
  split
  · exact h
  · rename_i openedAt waits
    split
    · exact .inr (h.resolve_left (by simp [waits]))
    · exact h
  · rename_i probeInFlight waits
    split
    · exact h
    · exact .inr (h.resolve_left (by simp [waits]))

theorem CircuitBreaker.Charged.outcome (h : b.Charged cfg) (now : Nat) (outcome : Record) :
    (b.record cfg now outcome).Charged cfg ∧
      ∀ p, (b.record cfg now outcome).state ≠ .halfOpen p := by
  cases outcome with
  | success => exact ⟨.inl rfl, by intro p; simp [record, recordSuccess]⟩
  | failure =>
    change (b.recordFailure cfg now).Charged cfg ∧
      ∀ p, (b.recordFailure cfg now).state ≠ .halfOpen p
    unfold recordFailure
    split
    · rename_i waits
      unfold tripped
      by_cases enough : b.consecutiveFailures + 1 ≥ cfg.threshold
      · simp only [if_pos enough]
        exact ⟨.inr enough, by intro p; simp⟩
      · simp only [if_neg enough, waits]
        exact ⟨.inl rfl, by intro p; simp⟩
    · rename_i probeInFlight waits
      have counted := h.resolve_left (by simp [waits])
      have enough : b.consecutiveFailures + 1 ≥ cfg.threshold := Nat.le_succ_of_le counted
      unfold tripped
      simp only [if_pos enough]
      exact ⟨.inr enough, by intro p; simp⟩
    · rename_i openedAt waits
      exact ⟨h, by intro p; simp [waits]⟩

theorem charged_foldl (h : b.Charged cfg) (now : Nat) (records : List Record) :
    (records.foldl (record cfg now) b).Charged cfg ∧
      (records ≠ [] →
        ∀ p, (records.foldl (record cfg now) b).state ≠ .halfOpen p) := by
  induction records generalizing b with
  | nil => exact ⟨h, fun some_record => absurd rfl some_record⟩
  | cons outcome records ih =>
    obtain ⟨charged, settled⟩ := h.outcome now outcome
    obtain ⟨charged', settled'⟩ := ih charged
    refine ⟨charged', fun _ => ?_⟩
    cases records with
    | nil => exact settled
    | cons next records => exact settled' (by simp)

namespace System

variable {s s' : System}

structure Watched (cfg : Config) (s : System) : Prop where
  sound : ∀ (i : Nat) (f : Forward), s.forwards[i]? = some f → f.Sound
  charged : s.breaker.Charged cfg
  probe : s.breaker.state = .halfOpen true →
    ∃ (i : Nat) (f : Forward), s.prober = some i ∧ s.forwards[i]? = some f ∧ f.records = []

theorem Watched.step (h : s.Watched cfg) (step : Step cfg s s') : s'.Watched cfg := by
  cases step with
  | admitted f fresh allowed =>
    obtain ⟨waits, noEvents, noRecords⟩ := fresh
    refine ⟨?_, h.charged.allow, ?_⟩
    · intro i g there
      rcases Nat.lt_or_ge i s.forwards.length with old | new
      · rw [getElem?_append_left old] at there
        exact h.sound i g there
      · rw [getElem?_append_right new] at there
        have here : g = f := mem_singleton.mp (mem_of_getElem? there)
        subst here
        simp only [Sound, waits]
        exact ⟨noRecords, noEvents⟩
    · intro probing
      simp only [if_pos probing]
      exact ⟨s.forwards.length, f, rfl, by simp, noRecords⟩
  | refused denied =>
    refine ⟨h.sound, h.charged.allow, ?_⟩
    intro probing
    apply h.probe
    unfold CircuitBreaker.allow at denied probing
    split at denied
    · cases denied
    · split at denied
      · cases denied
      · rename_i waits young
        simp [waits, young] at probing
    · split at denied
      · rename_i waits flight
        simp [waits, flight]
      · cases denied
  | poll i f e r here next =>
    obtain ⟨charged, settled⟩ := charged_foldl h.charged s.now r.2
    have within : i < s.forwards.length := (List.getElem?_eq_some_iff.mp here).1
    refine ⟨?_, charged, ?_⟩
    · intro j g there
      by_cases same : i = j
      · subst same
        rw [getElem?_set_self within] at there
        cases there
        exact (h.sound i f here).poll next
      · rw [getElem?_set_ne same] at there
        exact h.sound j g there
    · intro probing
      have silent : r.2 = [] := by
        by_contra recorded
        exact settled recorded true probing
      have before : s.breaker.state = .halfOpen true := by
        simpa [System.recorded, silent] using probing
      obtain ⟨j, g, prober, there, noRecords⟩ := h.probe before
      by_cases same : i = j
      · subst same
        rw [here] at there
        cases there
        refine ⟨i, f.after e r, prober, getElem?_set_self within, ?_⟩
        simp [Forward.after, noRecords, silent]
      · exact ⟨j, g, prober, by rw [getElem?_set_ne same]; exact there, noRecords⟩
  | tick d => exact ⟨h.sound, h.charged, h.probe⟩

theorem watched_of_reaches (run : Reaches cfg s) : s.Watched cfg := by
  induction run with
  | start => exact ⟨by simp, .inl rfl, by simp⟩
  | step _ step ih => exact ih.step step

/-- Exactly one outcome is recorded of an ended forward if and only if it settles; if all of them
settle, a probe in flight belongs to a forward that has not ended. -/
theorem forward_records_once_iff (run : Reaches cfg s) :
    (∀ f ∈ s.forwards, f.phase = .ended → (f.records.length = 1 ↔ f.Settles)) ∧
    ((∀ f ∈ s.forwards, f.phase = .ended → f.Settles) → s.breaker.state = .halfOpen true →
      ∃ i f, s.prober = some i ∧ s.forwards[i]? = some f ∧ f.phase ≠ .ended) := by
  have watched := watched_of_reaches run
  have each : ∀ f ∈ s.forwards, f.phase = .ended → (f.records.length = 1 ↔ f.Settles) := by
    intro f mem finished
    obtain ⟨i, there⟩ := getElem?_of_mem mem
    have sound := watched.sound i f there
    simpa only [Sound, finished] using sound
  refine ⟨each, ?_⟩
  intro settles probing
  obtain ⟨i, f, prober, there, noRecords⟩ := watched.probe probing
  refine ⟨i, f, prober, there, ?_⟩
  intro finished
  have mem := mem_of_getElem? there
  have one := (each f mem finished).mpr (settles f mem finished)
  rw [noRecords] at one
  cases one

def quick : Config where
  threshold := 1
  coolDown := 30
  nonZero := Nat.one_pos

/-- The breaker of an unreachable worker opens; the next forward is let through as the probe and
waits. -/
def probing : System where
  breaker := { state := .halfOpen true, consecutiveFailures := 1 }
  forwards := [
    { kind := .json, urlParses := true, pathJoins := true, phase := .ended,
      events := [.proceed, .sendError], records := [.failure] },
    { kind := .streaming, urlParses := true, pathJoins := true, phase := .sending,
      events := [.proceed] }]
  prober := some 1
  now := 30

theorem reaches_probing : Reaches quick probing := by
  have run := (Reaches.start : Reaches quick {})
    |>.step (.admitted { kind := .json, urlParses := true, pathJoins := true } ⟨rfl, rfl, rfl⟩ rfl)
    |>.step (.poll 0 _ .proceed _ rfl rfl)
    |>.step (.poll 0 _ .sendError _ rfl rfl)
    |>.step (.tick 30)
    |>.step (.admitted { kind := .streaming, urlParses := true, pathJoins := true }
      ⟨rfl, rfl, rfl⟩ rfl)
    |>.step (.poll 1 _ .proceed _ rfl rfl)
  exact run

theorem probing_in_flight : ∃ i f, probing.prober = some i ∧ probing.forwards[i]? = some f ∧
    f.phase ≠ .ended :=
  (forward_records_once_iff reaches_probing).2
    (by
      intro f mem finished
      simp only [probing, mem_cons, not_mem_nil, or_false] at mem
      rcases mem with rfl | rfl
      · exact .inr ⟨rfl, by decide, fun unwound => absurd unwound (by decide)⟩
      · cases finished) rfl

/-- The client of the probe goes away while the router waits: nothing is recorded, and the breaker
stays half-open with a probe in flight. -/
theorem dropped_probe_never_settles : ∃ s : System, Reaches quick s ∧
    s.breaker.state = .halfOpen true ∧ s.prober = some 1 ∧
    (s.forwards.map (fun f => (f.phase, f.records))) = [(.ended, [.failure]), (.ended, [])] :=
  ⟨_, reaches_probing.step (.poll 1 _ .dropFuture _ rfl rfl), rfl, rfl, rfl⟩

end System

end Breaker

end RedKnot.Router
