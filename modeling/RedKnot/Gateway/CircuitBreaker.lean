import Mathlib.Tactic
import RedKnot.Lib.ForLoop

/-! `CircuitBreaker` of the model gateway (`core/circuit_breaker.rs`), shared by any number of
threads. One step is one atomic operation; the clock is read with the operation that uses it. Times
are in nanoseconds, as in `Duration`. -/

namespace RedKnot.Gateway

open Function List Nat

inductive CircuitState where
  | closed
  | «open»
  | halfOpen
deriving DecidableEq, Repr

structure CircuitBreakerConfig where
  failureThreshold : Nat
  successThreshold : Nat
  timeoutDuration : Nat

/-- The whole milliseconds of `now_ms` and `as_millis`. -/
def millis (time : Nat) : Nat := time / 1000000

inductive Pc where
  | idle
  | loadState
  | loadChange
  | exchange
  | reload
  | stampHalfOpen
  | clearFailures
  | clearSuccesses
  | successTotal
  | successClear
  | successCount
  | successState (successes : Nat)
  | failureTotal
  | failureClear
  | failureCount
  | failureTime (failures : Nat)
  | failureState (failures : Nat)
  | swap (new : CircuitState)
  | stamp (new : CircuitState)
  | resetFailures
  | resetSuccesses
deriving DecidableEq, Repr

inductive Call where
  | canExecute
  | recordSuccess
  | recordFailure
deriving DecidableEq, Repr

def Call.entry : Call → Pc
  | .canExecute => .loadState
  | .recordSuccess => .successTotal
  | .recordFailure => .failureTotal

inductive CircuitEvent where
  | change (old new : CircuitState) (time : Nat)
  | canExecute (answer : Bool) (time : Nat)
deriving DecidableEq, Repr

structure CircuitBreaker where
  state : CircuitState := .closed
  consecutiveFailures : Nat := 0
  consecutiveSuccesses : Nat := 0
  totalFailures : Nat := 0
  totalSuccesses : Nat := 0
  lastFailureTimeMs : Nat := 0
  lastStateChangeMs : Nat := 0
  now : Nat := 0
  pc : Nat → Pc := fun _ => .idle
  log : List CircuitEvent := []

namespace CircuitBreaker

variable (cfg : CircuitBreakerConfig)

def goto (s : CircuitBreaker) (tid : Nat) (pc : Pc) : CircuitBreaker :=
  { s with pc := update s.pc tid pc }

def answer (s : CircuitBreaker) (tid : Nat) (b : Bool) : CircuitBreaker :=
  { s.goto tid .idle with log := .canExecute b s.now :: s.log }

def change (s : CircuitBreaker) (tid : Nat) (new : CircuitState) (pc : Pc) : CircuitBreaker :=
  { s.goto tid pc with state := new, log := .change s.state new s.now :: s.log }

/-- The next atomic operation of a thread. The counters of `u32` wrap. -/
def run (s : CircuitBreaker) (tid : Nat) : Option CircuitBreaker :=
  match s.pc tid with
  | .idle => none
  -- can_execute
  | .loadState => some (if s.state = .open then s.goto tid .loadChange else s.answer tid true)
  | .loadChange =>
    some (if millis s.now - s.lastStateChangeMs ≥ millis cfg.timeoutDuration
      then s.goto tid .exchange else s.answer tid false)
  | .exchange =>
    some (if s.state = .open then s.change tid .halfOpen .stampHalfOpen else s.goto tid .reload)
  | .reload => some (s.answer tid (s.state ≠ .open))
  | .stampHalfOpen => some { s.goto tid .clearFailures with lastStateChangeMs := millis s.now }
  | .clearFailures => some { s.goto tid .clearSuccesses with consecutiveFailures := 0 }
  | .clearSuccesses => some { s.answer tid true with consecutiveSuccesses := 0 }
  -- record_success
  | .successTotal => some { s.goto tid .successClear with totalSuccesses := s.totalSuccesses + 1 }
  | .successClear => some { s.goto tid .successCount with consecutiveFailures := 0 }
  | .successCount =>
    let successes := (s.consecutiveSuccesses + 1) % 2 ^ 32
    some { s.goto tid (.successState successes) with consecutiveSuccesses := successes }
  | .successState successes =>
    some (if s.state = .halfOpen ∧ successes ≥ cfg.successThreshold then s.goto tid (.swap .closed)
      else s.goto tid .idle)
  -- record_failure
  | .failureTotal => some { s.goto tid .failureClear with totalFailures := s.totalFailures + 1 }
  | .failureClear => some { s.goto tid .failureCount with consecutiveSuccesses := 0 }
  | .failureCount =>
    let failures := (s.consecutiveFailures + 1) % 2 ^ 32
    some { s.goto tid (.failureTime failures) with consecutiveFailures := failures }
  | .failureTime failures => some
      { s.goto tid (.failureState failures) with lastFailureTimeMs := millis s.now }
  | .failureState failures =>
    some (match s.state with
      | .closed =>
        if failures ≥ cfg.failureThreshold then s.goto tid (.swap .open) else s.goto tid .idle
      | .halfOpen => s.goto tid (.swap .open)
      | .open => s.goto tid .idle)
  -- transition_to
  | .swap new => some (if s.state = new then s.goto tid .idle else s.change tid new (.stamp new))
  | .stamp new =>
    some { s.goto tid (if new = .open then .resetSuccesses else .resetFailures) with
      lastStateChangeMs := millis s.now }
  | .resetFailures => some { s.goto tid .resetSuccesses with consecutiveFailures := 0 }
  | .resetSuccesses => some { s.goto tid .idle with consecutiveSuccesses := 0 }

end CircuitBreaker

inductive CircuitAction where
  | tick (time : Nat)
  | call (tid : Nat) (call : Call)
  | run (tid : Nat)

def CircuitBreaker.step (cfg : CircuitBreakerConfig) (s : CircuitBreaker) :
    CircuitAction → Option CircuitBreaker
  | .tick time => some { s with now := s.now + time }
  | .call tid call => if s.pc tid = .idle then some (s.goto tid call.entry) else none
  | .run tid => s.run cfg tid

inductive CircuitReaches (cfg : CircuitBreakerConfig) (ok : CircuitBreaker → CircuitAction → Prop) :
    CircuitBreaker → Prop
  | start (t : Nat) : CircuitReaches cfg ok { now := t, lastStateChangeMs := millis t }
  | step {s s' : CircuitBreaker} {a : CircuitAction} : CircuitReaches cfg ok s → ok s a →
      s.step cfg a = some s' → CircuitReaches cfg ok s'

def CircuitEdge : CircuitState → CircuitState → Prop
  | .closed, .open => True
  | .open, .halfOpen => True
  | .halfOpen, .closed => True
  | .halfOpen, .open => True
  | _, _ => False

/-- The log, newest entry first, follows the graph, and no call is let through a millisecond or more
before the whole milliseconds of the timeout have passed since the changes to open before it. -/
def ObeysGraph (timeout : Nat) : List CircuitEvent → Prop
  | [] => True
  | .change old new _ :: older => CircuitEdge old new ∧ ObeysGraph timeout older
  | .canExecute answer t :: older =>
    (answer = true → ∀ old c, .change old .open c ∈ older →
      c + 1000000 * millis timeout < t + 1000000) ∧ ObeysGraph timeout older

/-- Between the read of the state and the end of what is decided on it. -/
def Pc.Deciding : Pc → Prop
  | .loadChange | .exchange | .reload | .stampHalfOpen | .clearFailures | .clearSuccesses => True
  | .swap _ | .stamp _ => True
  | _ => False

/-- The next operation changes the state or its time. -/
def Pc.Changes : Pc → Prop
  | .exchange | .stampHalfOpen | .swap _ | .stamp _ => True
  | _ => False

def Undisturbed (s : CircuitBreaker) : CircuitAction → Prop
  | .run tid => (s.pc tid).Changes → ∀ other, other ≠ tid → ¬ (s.pc other).Deciding
  | _ => True

namespace CircuitBreaker

variable {cfg : CircuitBreakerConfig} {s s' : CircuitBreaker} {tid : Nat}

def Waited (timeout : Nat) (s : CircuitBreaker) : Prop :=
  ∀ old c, .change old .open c ∈ s.log → c + 1000000 * millis timeout < s.now + 1000000

/-- An exchange that was decided on an old time is held up by the thread that has to store the new
one. -/
def Relies (cfg : CircuitBreakerConfig) (s : CircuitBreaker) : Pc → Prop
  | .loadChange => s.state = .open
  | .exchange => s.state = .open ∧ (s.Waited cfg.timeoutDuration ∨ ∃ t, s.pc t = .stamp .open)
  | .reload => False
  | .stampHalfOpen | .clearFailures | .clearSuccesses => s.state = .halfOpen
  | .swap new => (s.state = .halfOpen ∧ new = .closed) ∨ (s.state ≠ .open ∧ new = .open)
  | .stamp new => s.state = new
  | _ => True

variable {pc : Pc}

theorem relies_of_not_deciding (h : ¬ pc.Deciding) : Relies cfg s pc := by
  cases pc <;> first | trivial | exact absurd trivial h

theorem relies_of_same (hstate : s'.state = s.state)
    (waits : s.Waited cfg.timeoutDuration → s'.Waited cfg.timeoutDuration)
    (stamps : ∀ t, s.pc t = .stamp .open → s'.pc t = .stamp .open) (h : Relies cfg s pc) :
    Relies cfg s' pc := by
  cases pc with
  | exchange => exact ⟨hstate.trans h.1, h.2.imp waits fun ⟨t, there⟩ => ⟨t, stamps t there⟩⟩
  | _ => simp_all only [Relies]

structure Inv (cfg : CircuitBreakerConfig) (s : CircuitBreaker) : Prop where
  obeys : ObeysGraph cfg.timeoutDuration s.log
  past : ∀ old c, .change old .open c ∈ s.log → c ≤ s.now
  stampPast : s.lastStateChangeMs ≤ millis s.now
  waited : s.state ≠ .open → s.Waited cfg.timeoutDuration
  /-- Once the time of the change to open is stored, it is not before the change. -/
  stamped : s.state = .open → (∀ tid, s.pc tid ≠ .stamp .open) →
    ∀ old c, .change old .open c ∈ s.log → millis c ≤ s.lastStateChangeMs
  relies : ∀ tid, Relies cfg s (s.pc tid)

namespace Inv

theorem start (cfg : CircuitBreakerConfig) (t : Nat) :
    Inv cfg { now := t, lastStateChangeMs := millis t } where
  obeys := trivial
  past _ _ h := absurd h not_mem_nil
  stampPast := le_rfl
  waited _ _ _ h := absurd h not_mem_nil
  stamped _ _ _ _ h := absurd h not_mem_nil
  relies _ := trivial

theorem tick (inv : Inv cfg s) (time : Nat) : Inv cfg { s with now := s.now + time } := by
  have later : s.Waited cfg.timeoutDuration →
      Waited cfg.timeoutDuration { s with now := s.now + time } := by
    intro waited old c mem
    have := waited old c mem
    show _ < s.now + time + _
    omega
  exact {
    obeys := inv.obeys
    past := fun old c h => (inv.past old c h).trans (le_add_right _ _)
    stampPast := inv.stampPast.trans (Nat.div_le_div_right (le_add_right _ _))
    waited := fun h => later (inv.waited h)
    stamped := inv.stamped
    relies := fun t => relies_of_same (s := s) rfl later (fun _ => id) (inv.relies t) }

theorem of_step (moved : s'.pc = update s.pc tid pc)
    (obeys : ObeysGraph cfg.timeoutDuration s'.log)
    (past : ∀ old c, .change old .open c ∈ s'.log → c ≤ s'.now)
    (stampPast : s'.lastStateChangeMs ≤ millis s'.now)
    (waited : s'.state ≠ .open → s'.Waited cfg.timeoutDuration)
    (stamped : s'.state = .open → (∀ t, s'.pc t ≠ .stamp .open) →
      ∀ old c, .change old .open c ∈ s'.log → millis c ≤ s'.lastStateChangeMs)
    (relies : Relies cfg s' pc) (others : ∀ t, t ≠ tid → Relies cfg s' (s.pc t)) : Inv cfg s' := by
  refine ⟨obeys, past, stampPast, waited, stamped, fun t => ?_⟩
  rw [moved]
  by_cases own : t = tid
  · rwa [own, update_self]
  · rw [update_of_ne own]
    exact others t own

variable (inv : Inv cfg s)

include inv

section

variable (pc : Pc) (own : s.pc tid ≠ .stamp .open) (relies : Relies cfg s pc)
  (hstate : s'.state = s.state) (hnow : s'.now = s.now)
  (hstamp : s'.lastStateChangeMs = s.lastStateChangeMs) (hpc : s'.pc = update s.pc tid pc)

include own relies hstate hnow hstamp hpc

/-- A step that leaves the state and its time as they are. -/
theorem same (obeys : ObeysGraph cfg.timeoutDuration s'.log)
    (changes : ∀ old c, .change old .open c ∈ s'.log → .change old .open c ∈ s.log) :
    Inv cfg s' := by
  have waits : s.Waited cfg.timeoutDuration → s'.Waited cfg.timeoutDuration :=
    fun waited old c mem => hnow ▸ waited old c (changes old c mem)
  have stamps : ∀ t, s.pc t = .stamp .open → s'.pc t = .stamp .open := by
    intro t there
    have other : t ≠ tid := fun same => own (same ▸ there)
    rw [hpc, update_of_ne other, there]
  refine of_step hpc obeys (fun old c mem => hnow ▸ inv.past old c (changes old c mem))
    (hstamp ▸ hnow ▸ inv.stampPast) (fun h => waits (inv.waited (hstate ▸ h))) ?_
    (relies_of_same hstate waits stamps relies)
    fun t _ => relies_of_same hstate waits stamps (inv.relies t)
  intro isOpen none_stamps old c mem
  exact hstamp ▸ inv.stamped (hstate ▸ isOpen) (fun t there => none_stamps t (stamps t there))
    old c (changes old c mem)

theorem quiet (hlog : s'.log = s.log) : Inv cfg s' :=
  inv.same pc own relies hstate hnow hstamp hpc (hlog ▸ inv.obeys) fun _ _ mem => hlog ▸ mem

end

theorem answer (own : s.pc tid ≠ .stamp .open) {b : Bool}
    (allowed : b = true → s.Waited cfg.timeoutDuration) {successes : Nat} :
    Inv cfg { s.answer tid b with consecutiveSuccesses := successes } :=
  inv.same .idle own trivial rfl rfl rfl rfl ⟨allowed, inv.obeys⟩
    fun _ _ mem => (mem_cons.mp mem).resolve_left nofun

variable (alone : ∀ other, other ≠ tid → ¬ (s.pc other).Deciding)

include alone

theorem change {new : CircuitState} (edge : CircuitEdge s.state new)
    (waited : new ≠ .open → s.Waited cfg.timeoutDuration) (stamps : new = .open → pc = .stamp .open)
    (relies : ∀ s' : CircuitBreaker, s'.state = new → Relies cfg s' pc) :
    Inv cfg (s.change tid new pc) := by
  refine of_step rfl ⟨edge, inv.obeys⟩ (fun old c h => ?_) inv.stampPast (fun h old c h' => ?_)
    (fun h none_stamps => ?_) (relies _ rfl) fun t other => relies_of_not_deciding (alone t other)
  · rcases mem_cons.mp h with newest | older
    · cases newest
      exact le_rfl
    · exact inv.past old c older
  · rcases mem_cons.mp h' with newest | older
    · cases newest
      exact absurd rfl h
    · exact waited h old c older
  · exact absurd ((update_self _ _ _).trans (stamps h)) (none_stamps tid)

theorem stamp (relies : ∀ s' : CircuitBreaker, s'.state = s.state → Relies cfg s' pc) :
    Inv cfg { s.goto tid pc with lastStateChangeMs := millis s.now } :=
  of_step rfl inv.obeys inv.past le_rfl inv.waited
    (fun _ _ old c mem => Nat.div_le_div_right (inv.past old c mem)) (relies _ rfl)
    fun t other => relies_of_not_deciding (alone t other)

omit alone

theorem run (h : s.run cfg tid = some s') (alone : (s.pc tid).Changes →
    ∀ other, other ≠ tid → ¬ (s.pc other).Deciding) : Inv cfg s' := by
  have relies := inv.relies tid
  unfold CircuitBreaker.run at h
  cases hpc : s.pc tid <;> rw [hpc] at h relies alone <;> cases h
  case loadState =>
    split
    · next isOpen => exact inv.quiet .loadChange (hpc ▸ nofun) isOpen rfl rfl rfl rfl rfl
    · next other => exact inv.answer (hpc ▸ nofun) fun _ => inv.waited other
  case loadChange =>
    have isOpen : s.state = .open := relies
    split
    · next elapsed =>
      have waits : s.Waited cfg.timeoutDuration ∨ ∃ t, s.pc t = .stamp .open := by
        refine or_iff_not_imp_right.mpr fun none_stamps old c mem => ?_
        have stored := inv.stamped isOpen (fun t there => none_stamps ⟨t, there⟩) old c mem
        have := inv.stampPast
        simp only [millis] at *
        omega
      exact inv.quiet .exchange (hpc ▸ nofun) ⟨isOpen, waits⟩ rfl rfl rfl rfl rfl
    · exact inv.answer (hpc ▸ nofun) fun h => absurd h Bool.false_ne_true
  case exchange =>
    obtain ⟨isOpen, waits⟩ : s.state = .open ∧
      (s.Waited cfg.timeoutDuration ∨ ∃ t, s.pc t = .stamp .open) := relies
    rw [if_pos isOpen]
    refine inv.change (alone trivial) (isOpen ▸ trivial) (fun _ => ?_) nofun fun _ h => h
    refine waits.resolve_right fun ⟨t, there⟩ => ?_
    have other : t ≠ tid := fun same => by rw [same, hpc] at there; cases there
    exact alone trivial t other (there ▸ trivial)
  case reload => exact relies.elim
  case stampHalfOpen =>
    exact inv.stamp (alone trivial) fun _ same => same.trans (show s.state = .halfOpen from relies)
  case clearFailures => exact inv.quiet .clearSuccesses (hpc ▸ nofun) relies rfl rfl rfl rfl rfl
  case clearSuccesses =>
    have halfOpen : s.state = .halfOpen := relies
    exact inv.answer (hpc ▸ nofun) fun _ => inv.waited (by rw [halfOpen]; nofun)
  case successState successes =>
    split
    · next reached =>
      exact inv.quiet (.swap .closed) (hpc ▸ nofun) (.inl ⟨reached.1, rfl⟩) rfl rfl rfl rfl rfl
    · exact inv.quiet .idle (hpc ▸ nofun) trivial rfl rfl rfl rfl rfl
  case failureState failures =>
    split
    · next closed =>
      split
      · exact inv.quiet (.swap .open) (hpc ▸ nofun) (.inr ⟨by rw [closed]; nofun, rfl⟩)
          rfl rfl rfl rfl rfl
      · exact inv.quiet .idle (hpc ▸ nofun) trivial rfl rfl rfl rfl rfl
    · next halfOpen =>
      exact inv.quiet (.swap .open) (hpc ▸ nofun) (.inr ⟨by rw [halfOpen]; nofun, rfl⟩)
        rfl rfl rfl rfl rfl
    · exact inv.quiet .idle (hpc ▸ nofun) trivial rfl rfl rfl rfl rfl
  case swap new =>
    -- The state is still the one that the call has read.
    rcases relies with ⟨halfOpen, rfl⟩ | ⟨other, rfl⟩
    · rw [if_neg (by rw [halfOpen]; nofun)]
      exact inv.change (alone trivial) (halfOpen ▸ trivial)
        (fun _ => inv.waited (by rw [halfOpen]; nofun)) nofun fun _ h => h
    · rw [if_neg other]
      refine inv.change (alone trivial) ?_ (fun h => absurd rfl h) (fun _ => rfl) fun _ h => h
      cases hs : s.state with
      | closed => trivial
      | «open» => exact absurd hs other
      | halfOpen => trivial
  case stamp new =>
    refine inv.stamp (alone trivial) fun _ _ => ?_
    split <;> trivial
  all_goals
    exact inv.quiet _ (hpc ▸ nofun) (by trivial) rfl rfl rfl rfl rfl

end Inv

end CircuitBreaker

/-- In every interleaving in which no transition is interrupted, the breaker obeys its graph and the
timeout. -/
theorem circuitBreaker_obeys (cfg : CircuitBreakerConfig) {s : CircuitBreaker}
    (run : CircuitReaches cfg Undisturbed s) : ObeysGraph cfg.timeoutDuration s.log := by
  suffices inv : s.Inv cfg from inv.obeys
  induction run with
  | start t => exact .start cfg t
  | @step s s' a _ alone step inv =>
    cases a with
    | tick time =>
      cases step
      exact inv.tick time
    | call tid call =>
      rw [CircuitBreaker.step] at step
      split at step
      · next idle =>
        cases step
        have entry : ¬ call.entry.Deciding := by cases call <;> exact id
        exact inv.quiet call.entry (idle ▸ nofun) (CircuitBreaker.relies_of_not_deciding entry)
          rfl rfl rfl rfl rfl
      · cases step
    | run tid => exact inv.run step alone

def CircuitBreaker.steps (cfg : CircuitBreakerConfig) (s : CircuitBreaker)
    (as : List CircuitAction) :
    Option CircuitBreaker := as.foldlM (fun s a => s.step cfg a) s

theorem CircuitReaches.steps {cfg : CircuitBreakerConfig}
    {ok : CircuitBreaker → CircuitAction → Prop} {s s' : CircuitBreaker}
    (run : CircuitReaches cfg ok s) (keeps : CircuitBreaker → Prop) (as : List CircuitAction)
    (holds : keeps s)
    (allowed : ∀ s a, a ∈ as → keeps s → ok s a)
    (kept : ∀ s s' a, a ∈ as → keeps s → s.step cfg a = some s' → keeps s')
    (h : s.steps cfg as = some s') : CircuitReaches cfg ok s' := by
  have both : CircuitReaches cfg ok s' ∧ keeps s' := by
    refine of_foldlM (P := fun s => CircuitReaches cfg ok s ∧ keeps s)
      (fun s a mem s' before first => ?_) ⟨run, holds⟩ h
    exact ⟨before.1.step (allowed s a mem before.2) first, kept s s' a mem before.2 first⟩
  exact both.1

/-- A success that was decided on in the half-open state closes the breaker after a failure has
opened it again. -/
theorem circuitBreaker_open_to_closed : ∃ s, CircuitReaches ⟨1, 1, 1000000⟩ (fun _ _ => True) s ∧
      s.log = [.change .open .closed 1000000, .change .halfOpen .open 1000000,
        .canExecute true 1000000, .change .open .halfOpen 1000000, .change .closed .open 0] ∧
      ¬ ObeysGraph 1000000 s.log := by
  have runs : (({ now := 0, lastStateChangeMs := 0 } : CircuitBreaker).steps ⟨1, 1, 1000000⟩
      (flatten [[.call 0 .recordFailure], .replicate 8 (.run 0),
        [.tick 1000000, .call 0 .canExecute], .replicate 6 (.run 0), [.call 1 .recordSuccess],
        .replicate 4 (.run 1), [.call 2 .recordFailure], .replicate 6 (.run 2),
        [.run 1]])).map CircuitBreaker.log =
      some [.change .open .closed 1000000, .change .halfOpen .open 1000000,
        .canExecute true 1000000, .change .open .halfOpen 1000000, .change .closed .open 0] := by
    decide +kernel
  obtain ⟨s, reached, log⟩ := Option.map_eq_some_iff.mp runs
  have run := (CircuitReaches.start 0 : CircuitReaches ⟨1, 1, 1000000⟩ (fun _ _ => True) _).steps
    (fun _ => True) _ trivial (fun _ _ _ _ => trivial) (fun _ _ _ _ _ _ => trivial) reached
  exact ⟨s, run, log, fun obeys => by rw [log] at obeys; exact obeys.1⟩

theorem CircuitBreaker.run_pc_other {cfg : CircuitBreakerConfig} {s s' : CircuitBreaker}
    {tid other : Nat} (h : s.run cfg tid = some s') (ne : other ≠ tid) :
      s'.pc other = s.pc other := by
  unfold CircuitBreaker.run at h
  cases hpc : s.pc tid <;> rw [hpc] at h <;> cases h <;> (repeat split) <;>
    exact update_of_ne ne _ _

/-- The breaker opens at 0.9 ms and lets a call through at 5 ms, with a timeout of 5 ms. -/
theorem circuitBreaker_obeys_single : ∃ s, CircuitReaches ⟨1, 1, 5000000⟩ Undisturbed s ∧
      s.log = [.canExecute true 5000000, .change .open .halfOpen 5000000,
        .change .closed .open 900000] ∧ ObeysGraph 5000000 s.log := by
  have own : ∀ a ∈ flatten [[CircuitAction.call 0 .recordFailure], .replicate 8 (.run 0),
      [.tick 4100000, .call 0 .canExecute], .replicate 6 (.run 0)],
      a = .run 0 ∨ a = .tick 4100000 ∨ ∃ c, a = .call 0 c := by
    simp
  have runs : (({ now := 900000, lastStateChangeMs := 0 } : CircuitBreaker).steps ⟨1, 1, 5000000⟩
      (flatten [[.call 0 .recordFailure], .replicate 8 (.run 0),
        [.tick 4100000, .call 0 .canExecute], .replicate 6 (.run 0)])).map CircuitBreaker.log =
      some [.canExecute true 5000000, .change .open .halfOpen 5000000,
        .change .closed .open 900000] := by
    decide +kernel
  obtain ⟨s, reached, log⟩ := Option.map_eq_some_iff.mp runs
  have run := (CircuitReaches.start 900000 : CircuitReaches ⟨1, 1, 5000000⟩ Undisturbed _).steps
    (fun s => ∀ other, other ≠ 0 → s.pc other = .idle) _ (fun _ _ => rfl)
    (fun s a mem idle => by
      rcases own a mem with rfl | rfl | ⟨c, rfl⟩
      · intro _ other h
        rw [idle other h]
        exact id
      · trivial
      · trivial)
    (fun s s' a mem idle step other h => by
      rcases own a mem with rfl | rfl | ⟨c, rfl⟩
      · rw [CircuitBreaker.run_pc_other step h, idle other h]
      · cases step
        exact idle other h
      · rw [CircuitBreaker.step] at step
        split at step
        · cases step
          exact (update_of_ne h _ _).trans (idle other h)
        · cases step) reached
  exact ⟨s, run, log, circuitBreaker_obeys ⟨1, 1, 5000000⟩ run⟩

end RedKnot.Gateway
