import Mathlib.Tactic

/-! `ActiveLoadRegistry` of `policies/active_load.rs`. Every call is a thread that makes one
operation on a counter or a map at a time. The gauge only reads the counters and is left out. -/

namespace RedKnot.Router.ActiveLoad

open Function Finset Nat Option
open Multiset (map_zero mem_cons mem_cons_of_mem mem_cons_self mem_map sum_zero)

abbrev WorkerId := String

abbrev RequestId := Nat

/-- An instance of `WorkerCounters`, as an `Arc` points to it. -/
abbrev SlotId := Nat

/-- The two counters of `WorkerCounters`. -/
inductive Axis where
  | prefill
  | decode
deriving DecidableEq, Repr

structure RequestEntry where
  worker : WorkerId
  workerUrl : String
  counters : SlotId
  load : Axis → Nat
  registeredAt : Nat

/-- The call in progress. The prefill axis comes first; the sweeper goes on with the rest of its
list, a guard does not. -/
inductive Thread where
  | register (id : RequestId) (worker : WorkerId) (workerUrl : String) (load : Axis → Nat)
  | add (ax : Axis) (id : RequestId) (e : RequestEntry)
  | insertRequest (id : RequestId) (e : RequestEntry)
  | drop (id : RequestId)
  | scan (now : Nat) (expired : List RequestId)
  | expire (expired : List RequestId)
  | sub (ax : Axis) (id : RequestId) (e : RequestEntry) (rest : Option (List RequestId))
  | cancel (id : RequestId) (rest : List RequestId)
  | forgetWorker (worker : WorkerId)

open Thread

/-- `subtracted` and `swept` record how often the load of a request was taken away, and what the
sweeper removed. The counters are `AtomicUsize` and do not wrap: loads stay far below 2 ^ 64. -/
structure Registry where
  workers : WorkerId → Option SlotId := fun _ => none
  counters : SlotId → Axis → Int := fun _ _ => 0
  nextSlot : SlotId := 0
  requests : RequestId → Option RequestEntry := fun _ => none
  cancelled : RequestId → Bool := fun _ => false
  now : Nat := 0
  guards : Finset RequestId := ∅
  subtracted : Axis → RequestId → Nat := fun _ _ => 0
  swept : Finset RequestId := ∅

open Registry

namespace Registry

/-- `workers.entry(worker).or_insert_with(..)` -/
def slotOf (s : Registry) (worker : WorkerId) : SlotId × Registry :=
  match s.workers worker with
  | some c => (c, s)
  | none => (s.nextSlot, { s with
      workers := update s.workers worker (some s.nextSlot)
      counters := update s.counters s.nextSlot (fun _ => 0)
      nextSlot := s.nextSlot + 1 })

def bump (s : Registry) (c : SlotId) (ax : Axis) (d : Int) : Registry :=
  { s with counters := update s.counters c (update (s.counters c) ax (s.counters c ax + d)) }

def fetchAdd (s : Registry) (ax : Axis) (e : RequestEntry) : Registry :=
  s.bump e.counters ax (e.load ax)

def fetchSub (s : Registry) (ax : Axis) (id : RequestId) (e : RequestEntry) : Registry :=
  { s.bump e.counters ax (-(e.load ax)) with
    subtracted := update s.subtracted ax (update (s.subtracted ax) id (s.subtracted ax id + 1)) }

def insert (s : Registry) (id : RequestId) (e : RequestEntry) : Registry :=
  { s with
    requests := update s.requests id (some { e with registeredAt := s.now })
    guards := Insert.insert id s.guards }

def remove (s : Registry) (id : RequestId) : Registry :=
  { s with requests := update s.requests id none }

/-- The current load of a worker on one axis: `prefill_load` and `decode_load`. -/
def load (s : Registry) (worker : WorkerId) (ax : Axis) : Int :=
  match s.workers worker with
  | some c => s.counters c ax
  | none => 0

end Registry

def stale (timeout now : Nat) : Option RequestEntry → Bool
  | some e => decide (now - e.registeredAt ≥ timeout)
  | none => false

/-- The next operation of a call. While the sweeper iterates over the requests, `seen` is the one
that the iterator yields, if any is left. -/
def Thread.step (timeout : Nat) (seen : Option RequestId) (s : Registry) :
    Thread → Registry × Option Thread
  | .register id worker workerUrl load =>
    ((s.slotOf worker).2, some (.add .prefill id ⟨worker, workerUrl, (s.slotOf worker).1, load, 0⟩))
  | .add .prefill id e => (s.fetchAdd .prefill e, some (.add .decode id e))
  | .add .decode id e => (s.fetchAdd .decode e, some (.insertRequest id e))
  | .insertRequest id e => (s.insert id e, none)
  | .drop id =>
    match s.requests id with
    | some e => (s.remove id, some (.sub .prefill id e none))
    | none => (s, none)
  | .scan now expired =>
    match seen with
    | some id =>
      (s, some (.scan now (if stale timeout now (s.requests id) then expired ++ [id] else expired)))
    | none => (s, some (.expire expired))
  | .expire [] => (s, none)
  | .expire (id :: rest) =>
    match s.requests id with
    | some e => ({ s.remove id with swept := insert id s.swept },
        some (.sub .prefill id e (some rest)))
    | none => (s, some (.expire rest))
  | .sub .prefill id e rest => (s.fetchSub .prefill id e, some (.sub .decode id e rest))
  | .sub .decode id e none => (s.fetchSub .decode id e, none)
  | .sub .decode id e (some rest) => (s.fetchSub .decode id e, some (.cancel id rest))
  | .cancel id rest => ({ s with cancelled := update s.cancelled id true }, some (.expire rest))
  | .forgetWorker worker => ({ s with workers := update s.workers worker none }, none)

structure System where
  registry : Registry := {}
  threads : Multiset Thread := 0
  nextId : RequestId := 0

namespace System

def call (s : System) (t : Thread) : System := { s with threads := t ::ₘ s.threads }

inductive Step (timeout : Nat) : System → System → Prop where
  | register {s} (worker : WorkerId) (workerUrl : String) (load : Axis → Nat) :
      Step timeout s
        { s.call (.register s.nextId worker workerUrl load) with nextId := s.nextId + 1 }
  | dropGuard {s} (id : RequestId) (alive : id ∈ s.registry.guards) :
      Step timeout s { s.call (.drop id) with
        registry := { s.registry with guards := s.registry.guards.erase id } }
  | sweepStale {s} : Step timeout s (s.call (.scan s.registry.now []))
  | forgetWorker {s} (worker : WorkerId) : Step timeout s (s.call (.forgetWorker worker))
  | tick {s} (d : Nat) :
      Step timeout s { s with registry := { s.registry with now := s.registry.now + d } }
  | run {s} (seen : Option RequestId) (t : Thread) (rest : Multiset Thread)
      (running : s.threads = t ::ₘ rest) :
      Step timeout s { s with
        registry := (t.step timeout seen s.registry).1
        threads := (t.step timeout seen s.registry).2.elim rest (· ::ₘ rest) }

inductive Reaches (timeout : Nat) : System → Prop where
  | start : Reaches timeout {}
  | step {s s'} : Reaches timeout s → Step timeout s s' → Reaches timeout s'

end System

/-! What the calls in progress still account for -/

/-- The entry whose load the thread has added without listing the request, or has still to take
away. -/
def Thread.holds : Axis → Thread → Option RequestEntry
  | .prefill, .add .decode _ e => some e
  | _, .insertRequest _ e => some e
  | _, .sub .prefill _ e _ => some e
  | .decode, .sub .decode _ e _ => some e
  | _, _ => none

def Thread.owes : Axis → Thread → Option RequestId
  | _, .register id _ _ _ => some id
  | _, .add _ id _ => some id
  | _, .insertRequest id _ => some id
  | _, .sub .prefill id _ _ => some id
  | .decode, .sub .decode id _ _ => some id
  | _, _ => none

def Thread.entry : Thread → Option RequestEntry
  | .add _ _ e => some e
  | .insertRequest _ e => some e
  | .sub _ _ e _ => some e
  | _ => none

def Thread.ending : Thread → Option RequestId
  | .sub _ id _ (some _) => some id
  | .cancel id _ => some id
  | _ => none

def amount (ax : Axis) (c : SlotId) : Option RequestEntry → Int
  | some e => if e.counters = c then e.load ax else 0
  | none => 0

theorem amount_nonneg (ax : Axis) (c : SlotId) (o : Option RequestEntry) : 0 ≤ amount ax c o := by
  cases o with
  | none => exact le_rfl
  | some e =>
    simp only [amount]
    split
    · exact Int.natCast_nonneg _
    · exact le_rfl

structure Registry.InBounds (s : Registry) : Prop where
  zero : ∀ c, s.nextSlot ≤ c → ∀ ax, s.counters c ax = 0
  workers : ∀ w c, s.workers w = some c → c < s.nextSlot
  requests : ∀ id e, s.requests id = some e → e.counters < s.nextSlot

def Thread.InBounds (n : Nat) (t : Thread) : Prop := ∀ e, t.entry = some e → e.counters < n

def loads (requests : RequestId → Option RequestEntry) (n : Nat) (c : SlotId) (ax : Axis) : Int :=
  ∑ id ∈ range n, amount ax c (requests id)

theorem loads_update {requests : RequestId → Option RequestEntry} {n : Nat} {id : RequestId}
    (below : id < n) (o : Option RequestEntry) (c : SlotId) (ax : Axis) :
    loads (update requests id o) n c ax =
      loads requests n c ax - amount ax c (requests id) + amount ax c o := by
  have here : id ∈ range n := mem_range.mpr below
  have others : ∀ i ∈ (range n).erase id,
      amount ax c (update requests id o i) = amount ax c (requests i) := by
    intro i hi
    rw [update_of_ne (ne_of_mem_erase hi)]
  rw [loads, loads, ← add_sum_erase _ _ here, ← add_sum_erase _ _ here,
    sum_congr rfl others, update_self]
  ring

namespace System

def listed (s : System) (c : SlotId) (ax : Axis) : Int := loads s.registry.requests s.nextId c ax

def held (s : System) (c : SlotId) (ax : Axis) : Int :=
  (s.threads.map (fun t => amount ax c (t.holds ax))).sum

def owed (s : System) (ax : Axis) (id : RequestId) : Nat :=
  (s.threads.map (fun t => if t.owes ax = some id then 1 else 0)).sum

structure Balanced (s : System) : Prop where
  exact : ∀ c ax, s.registry.counters c ax = s.listed c ax + s.held c ax
  once : ∀ id < s.nextId, ∀ ax, s.registry.subtracted ax id +
    (s.registry.requests id).isSome.toNat + s.owed ax id = 1
  fresh : ∀ id, s.nextId ≤ id → s.registry.requests id = none
  untouched : ∀ id, s.nextId ≤ id → ∀ ax, s.registry.subtracted ax id = 0
  unowed : ∀ t ∈ s.threads, ∀ ax id, t.owes ax = some id → id < s.nextId
  bounded : s.registry.InBounds ∧ ∀ t ∈ s.threads, t.InBounds s.registry.nextSlot

structure SweptOnly (s : System) : Prop where
  cancelled : ∀ id, s.registry.cancelled id = true → id ∈ s.registry.swept
  ending : ∀ t ∈ s.threads, ∀ id, t.ending = some id → id ∈ s.registry.swept

end System

section Operation

variable (timeout : Nat) (seen : Option RequestId) {s : Registry} {t : Thread}

theorem slotOf_workers (w : WorkerId) {v : WorkerId} {c : SlotId}
    (h : (s.slotOf w).2.workers v = some c) :
    s.workers v = some c ∨ (c = (s.slotOf w).1 ∧ c < (s.slotOf w).2.nextSlot) := by
  unfold slotOf at h ⊢
  cases known : s.workers w with
  | some d =>
    rw [known] at h
    exact .inl h
  | none =>
    rw [known] at h
    by_cases same : v = w
    · subst same
      have here : s.nextSlot = c := by simpa using h
      exact .inr ⟨here.symm, by simp [← here]⟩
    · exact .inl (by simpa [update_of_ne same] using h)

theorem slotOf_frame (s : Registry) (w : WorkerId) : ∃ ws cs n, s.nextSlot ≤ n ∧
      (s.slotOf w).2 = { s with workers := ws, counters := cs, nextSlot := n } := by
  unfold slotOf
  cases s.workers w with
  | some d => exact ⟨_, _, _, le_rfl, rfl⟩
  | none => exact ⟨_, _, _, le_succ _, rfl⟩

theorem slotOf_counters (zero : ∀ c, s.nextSlot ≤ c → ∀ ax, s.counters c ax = 0) (w : WorkerId) :
    (s.slotOf w).2.counters = s.counters := by
  unfold slotOf
  cases s.workers w with
  | some d => rfl
  | none =>
    funext c ax
    by_cases same : c = s.nextSlot
    · subst same
      simp [zero _ le_rfl]
    · simp [update_of_ne same]

theorem slotOf_lt (known : ∀ w c, s.workers w = some c → c < s.nextSlot) (w : WorkerId) :
    (s.slotOf w).1 < (s.slotOf w).2.nextSlot := by
  unfold slotOf
  cases here : s.workers w with
  | some d => exact known w d here
  | none => exact lt_succ_self _

theorem bump_counters (s : Registry) (c c' : SlotId) (ax ax' : Axis) (d : Int) :
    (s.bump c ax d).counters c' ax' = s.counters c' ax' + if c = c' ∧ ax = ax' then d else 0 := by
  by_cases slot : c = c'
  · subst slot
    by_cases axis : ax = ax'
    · subst axis
      simp [bump]
    · simp [bump, axis, update_of_ne (Ne.symm axis)]
  · simp [bump, slot, update_of_ne (Ne.symm slot)]

section

variable (ax : Axis) (c : SlotId) (e : RequestEntry)

theorem amount_some : amount ax c (some e) = if e.counters = c then (e.load ax : Int) else 0 := rfl

end

theorem fetchAdd_counters (s : Registry) (e : RequestEntry) (ax ax' : Axis) (c : SlotId) :
    (s.fetchAdd ax e).counters c ax' =
      s.counters c ax' + if ax = ax' then amount ax c (some e) else 0 := by
  rw [fetchAdd, bump_counters, amount_some]
  by_cases axis : ax = ax' <;> by_cases slot : e.counters = c <;> simp [axis, slot]

theorem fetchSub_counters (s : Registry) (id : RequestId) (e : RequestEntry) (ax ax' : Axis)
    (c : SlotId) :
    (s.fetchSub ax id e).counters c ax' =
      s.counters c ax' - if ax = ax' then amount ax c (some e) else 0 := by
  change (s.bump e.counters ax (-(e.load ax))).counters c ax' = _
  rw [bump_counters, amount_some]
  by_cases axis : ax = ax' <;> by_cases slot : e.counters = c <;> simp [axis, slot]
  ring

theorem fetchSub_subtracted (s : Registry) (id id' : RequestId) (e : RequestEntry) (ax ax' : Axis) :
    (s.fetchSub ax id e).subtracted ax' id' =
      s.subtracted ax' id' + if ax = ax' ∧ id = id' then 1 else 0 := by
  by_cases axis : ax = ax'
  · subst axis
    by_cases same : id = id'
    · subst same
      simp [fetchSub]
    · simp [fetchSub, same, update_of_ne (Ne.symm same)]
  · simp [fetchSub, axis, update_of_ne (Ne.symm axis)]

theorem step_counters {n : Nat} (zero : ∀ c, s.nextSlot ≤ c → ∀ ax, s.counters c ax = 0)
    (fresh : ∀ id, n ≤ id → s.requests id = none)
    (unlisted : ∀ id e, t = .insertRequest id e → id < n ∧ s.requests id = none)
    (c : SlotId) (ax : Axis) :
    (t.step timeout seen s).1.counters c ax + amount ax c (t.holds ax) + loads s.requests n c ax =
      s.counters c ax + amount ax c ((t.step timeout seen s).2.bind (holds ax)) +
        loads (t.step timeout seen s).1.requests n c ax := by
  have below : ∀ {id e}, s.requests id = some e → id < n := by
    intro id e there
    by_contra beyond
    rw [fresh id (Nat.le_of_not_lt beyond)] at there
    cases there
  cases t with
  | register id worker workerUrl load =>
    obtain ⟨ws, cs, m, -, frame⟩ := slotOf_frame s worker
    have same := slotOf_counters zero worker
    have kept : (s.slotOf worker).2.requests = s.requests := by rw [frame]
    simp only [step, same, kept, bind_some]
    cases ax <;> simp [holds, amount]
  | add axis id e =>
    cases axis <;> simp only [step, fetchAdd_counters, bind_some] <;> cases ax <;>
      simp [holds, amount, fetchAdd, bump]
  | insertRequest id e =>
    obtain ⟨lt, absent⟩ := unlisted id e rfl
    simp only [step, Registry.insert, loads_update lt, absent, bind_none]
    cases ax <;> simp [holds, amount] <;> ring
  | drop id =>
    cases there : s.requests id with
    | none => cases ax <;> simp [step, there, holds, amount]
    | some e =>
      simp only [step, there, remove, loads_update (below there), bind_some]
      cases ax <;> simp [holds, amount]
  | scan now expired => cases seen <;> cases ax <;> simp [step, holds, amount]
  | expire expired =>
    cases expired with
    | nil => cases ax <;> simp [step, holds, amount]
    | cons id rest =>
      cases there : s.requests id with
      | none => cases ax <;> simp [step, there, holds, amount]
      | some e =>
        simp only [step, there, remove, loads_update (below there), bind_some]
        cases ax <;> simp [holds, amount]
  | sub axis id e rest =>
    cases axis with
    | prefill =>
      simp only [step, fetchSub_counters, bind_some]
      cases ax <;> simp [holds, amount, fetchSub, bump]
    | decode =>
      cases rest <;> simp only [step, fetchSub_counters] <;> cases ax <;>
        simp [holds, amount, fetchSub, bump]
  | cancel id rest | forgetWorker worker => cases ax <;> simp [step, holds, amount]

theorem remove_listed {s : Registry} {i : RequestId} {e : RequestEntry}
    (there : s.requests i = some e) (id : RequestId) :
    ((s.remove i).requests id).isSome.toNat + (if i = id then 1 else 0) =
      (s.requests id).isSome.toNat := by
  by_cases same : i = id
  · subst same
    simp [remove, there]
  · simp [remove, same, update_of_ne (Ne.symm same)]

theorem step_owes (unlisted : ∀ id e, t = .insertRequest id e → s.requests id = none)
    (ax : Axis) (id : RequestId) :
    (t.step timeout seen s).1.subtracted ax id +
        ((t.step timeout seen s).1.requests id).isSome.toNat +
        (if (t.step timeout seen s).2.bind (Thread.owes ax) = some id then 1 else 0) =
      s.subtracted ax id + (s.requests id).isSome.toNat +
        (if t.owes ax = some id then 1 else 0) := by
  cases t with
  | register i worker workerUrl load =>
    obtain ⟨ws, cs, m, -, frame⟩ := slotOf_frame s worker
    simp only [step, frame, bind_some]
    cases ax <;> simp [Thread.owes]
  | add axis i e =>
    cases axis <;> cases ax <;> simp [step, Thread.owes, fetchAdd, bump]
  | insertRequest i e =>
    have absent := unlisted i e rfl
    by_cases same : i = id
    · subst same
      cases ax <;> simp [step, Thread.owes, Registry.insert, absent]
    · cases ax <;>
        simp [step, Thread.owes, Registry.insert, same, update_of_ne (Ne.symm same)]
  | drop i =>
    cases there : s.requests i with
    | none => cases ax <;> simp [step, there, Thread.owes]
    | some e =>
      have listed := remove_listed there id
      have kept : (s.remove i).subtracted = s.subtracted := rfl
      cases ax <;> simp [step, there, Thread.owes, kept] <;> omega
  | scan now expired => cases seen <;> cases ax <;> simp [step, Thread.owes]
  | expire expired =>
    cases expired with
    | nil => cases ax <;> simp [step, Thread.owes]
    | cons i rest =>
      cases there : s.requests i with
      | none => cases ax <;> simp [step, there, Thread.owes]
      | some e =>
        have listed := remove_listed there id
        have kept : (s.remove i).subtracted = s.subtracted := rfl
        cases ax <;> simp [step, there, Thread.owes, kept] <;> omega
  | sub axis i e rest =>
    have kept : ∀ ax', (s.fetchSub ax' i e).requests = s.requests := fun _ => rfl
    cases axis with
    | prefill =>
      simp only [step, fetchSub_subtracted, kept, bind_some]
      cases ax <;> by_cases same : i = id <;> simp [Thread.owes, same]
      all_goals omega
    | decode =>
      cases rest <;> simp only [step, fetchSub_subtracted, kept] <;> cases ax <;>
        by_cases same : i = id <;> simp [Thread.owes, same]
      all_goals omega
  | cancel i rest | forgetWorker worker => cases ax <;> simp [step, Thread.owes]

section

variable (h : s.InBounds)
include h

theorem bump_inBounds {c : SlotId} (lt : c < s.nextSlot) (ax : Axis) (d : Int) :
    (s.bump c ax d).InBounds where
  zero := by
    intro c' beyond ax'
    have other : c ≠ c' := (lt_of_lt_of_le lt beyond).ne
    rw [bump_counters, if_neg (fun same => other same.1), h.zero c' beyond, add_zero]
  workers := h.workers
  requests := h.requests

theorem remove_inBounds (id : RequestId) : (s.remove id).InBounds where
  zero := h.zero
  workers := h.workers
  requests := by
    intro i e there
    by_cases same : i = id
    · subst same
      simp [remove] at there
    · exact h.requests i e (by simpa [remove, update_of_ne same] using there)

theorem insert_inBounds (id : RequestId) {e : RequestEntry}
    (lt : e.counters < s.nextSlot) : (s.insert id e).InBounds where
  zero := h.zero
  workers := h.workers
  requests := by
    intro i e' there
    by_cases same : i = id
    · subst same
      have here : { e with registeredAt := s.now } = e' := by simpa [Registry.insert] using there
      rw [← here]
      exact lt
    · exact h.requests i e' (by simpa [Registry.insert, update_of_ne same] using there)

theorem slotOf_inBounds (w : WorkerId) : (s.slotOf w).2.InBounds := by
  have counters := slotOf_counters h.zero w
  obtain ⟨ws, cs, n, grows, frame⟩ := slotOf_frame s w
  refine ⟨?_, ?_, ?_⟩
  · intro c beyond ax
    rw [counters]
    rw [frame] at beyond
    exact h.zero c (le_trans grows beyond) ax
  · intro v c there
    rcases slotOf_workers w there with old | ⟨-, lt⟩
    · rw [frame]
      exact lt_of_lt_of_le (h.workers v c old) grows
    · exact lt
  · intro id e there
    rw [frame] at there ⊢
    exact lt_of_lt_of_le (h.requests id e there) grows

theorem step_inBounds (here : t.InBounds s.nextSlot) :
    s.nextSlot ≤ (t.step timeout seen s).1.nextSlot ∧ (t.step timeout seen s).1.InBounds ∧
      ∀ t', (t.step timeout seen s).2 = some t' →
        t'.InBounds (t.step timeout seen s).1.nextSlot := by
  have idle : ∀ r : Registry × Option Thread, r.1.nextSlot = s.nextSlot → r.1.InBounds →
      (∀ t', r.2 = some t' → t'.InBounds s.nextSlot) → s.nextSlot ≤ r.1.nextSlot ∧ r.1.InBounds ∧
        ∀ t', r.2 = some t' → t'.InBounds r.1.nextSlot :=
    fun r same bounds next => ⟨same.ge, bounds, same ▸ next⟩
  cases t with
  | register id worker workerUrl load =>
    obtain ⟨ws, cs, n, grows, frame⟩ := slotOf_frame s worker
    refine ⟨?_, slotOf_inBounds h worker, ?_⟩
    · simp only [step, frame]
      exact grows
    · rintro t' ⟨⟩ e ⟨⟩
      exact slotOf_lt h.workers worker
  | add axis id e =>
    cases axis <;>
      exact idle _ rfl (bump_inBounds h (here e rfl) _ _) (by rintro t' ⟨⟩; exact here)
  | insertRequest id e => exact idle _ rfl (insert_inBounds h id (here e rfl)) (by rintro t' ⟨⟩)
  | drop id =>
    simp only [step]
    cases there : s.requests id with
    | none => exact idle _ rfl h (by rintro t' ⟨⟩)
    | some e =>
      refine idle _ rfl (remove_inBounds h id) ?_
      rintro t' ⟨⟩ e' ⟨⟩
      exact h.requests id e there
  | scan now expired => cases seen <;> exact idle _ rfl h (by rintro t' ⟨⟩ e ⟨⟩)
  | expire expired =>
    cases expired with
    | nil => exact idle _ rfl h (by rintro t' ⟨⟩)
    | cons id rest =>
      simp only [step]
      cases there : s.requests id with
      | none => exact idle _ rfl h (by rintro t' ⟨⟩ e ⟨⟩)
      | some e =>
        have gone := remove_inBounds h id
        refine idle _ rfl ⟨gone.zero, gone.workers, gone.requests⟩ ?_
        rintro t' ⟨⟩ e' ⟨⟩
        exact h.requests id e there
  | sub axis id e rest =>
    have moved := bump_inBounds h (here e rfl) axis (-(e.load axis))
    have kept : (s.fetchSub axis id e).InBounds := ⟨moved.zero, moved.workers, moved.requests⟩
    cases axis with
    | prefill => exact idle _ rfl kept (by rintro t' ⟨⟩; exact here)
    | decode => cases rest <;> exact idle _ rfl kept (by rintro t' ⟨⟩ e' ⟨⟩)
  | cancel id rest =>
    exact idle _ rfl ⟨h.zero, h.workers, h.requests⟩ (by rintro t' ⟨⟩ e ⟨⟩)
  | forgetWorker worker =>
    refine idle _ rfl ⟨h.zero, ?_, h.requests⟩ (by rintro t' ⟨⟩)
    intro w c there
    by_cases same : w = worker
    · subst same
      simp [step] at there
    · exact h.workers w c (by simpa [step, update_of_ne same] using there)

end

theorem step_swept (cancelled : ∀ id, s.cancelled id = true → id ∈ s.swept)
    (ending : ∀ id, t.ending = some id → id ∈ s.swept) :
    s.swept ⊆ (t.step timeout seen s).1.swept ∧
      (∀ id, (t.step timeout seen s).1.cancelled id = true → id ∈ (t.step timeout seen s).1.swept) ∧
      ∀ t', (t.step timeout seen s).2 = some t' → ∀ id, t'.ending = some id →
        id ∈ (t.step timeout seen s).1.swept := by
  -- Most steps leave both sets alone and end no request that the thread was not ending.
  have quiet : ∀ r : Registry × Option Thread, r.1.swept = s.swept → r.1.cancelled = s.cancelled →
      (∀ t', r.2 = some t' → ∀ id, t'.ending = some id → t.ending = some id) →
      s.swept ⊆ r.1.swept ∧ (∀ id, r.1.cancelled id = true → id ∈ r.1.swept) ∧
        ∀ t', r.2 = some t' → ∀ id, t'.ending = some id → id ∈ r.1.swept := by
    intro r same flags next
    rw [same, flags]
    exact ⟨subset_rfl, cancelled, fun t' here id about => ending id (next t' here id about)⟩
  cases t with
  | register i worker workerUrl load =>
    obtain ⟨ws, cs, m, -, frame⟩ := slotOf_frame s worker
    exact quiet _ (by rw [step, frame]) (by rw [step, frame]) (by rintro t' ⟨⟩ id ⟨⟩)
  | add axis i e => cases axis <;> exact quiet _ rfl rfl (by rintro t' ⟨⟩ id ⟨⟩)
  | insertRequest i e | forgetWorker worker => exact quiet _ rfl rfl (by rintro t' ⟨⟩)
  | drop i =>
    simp only [step]
    cases there : s.requests i with
    | none => exact quiet _ rfl rfl (by rintro t' ⟨⟩)
    | some e => exact quiet _ rfl rfl (by rintro t' ⟨⟩ id ⟨⟩)
  | scan now expired => cases seen <;> exact quiet _ rfl rfl (by rintro t' ⟨⟩ id ⟨⟩)
  | expire expired =>
    cases expired with
    | nil => exact quiet _ rfl rfl (by rintro t' ⟨⟩)
    | cons i rest =>
      simp only [step]
      cases there : s.requests i with
      | none => exact quiet _ rfl rfl (by rintro t' ⟨⟩ id ⟨⟩)
      | some e =>
        refine ⟨subset_insert _ _, ?_, ?_⟩
        · exact fun id fired => mem_insert_of_mem (cancelled id fired)
        · rintro t' ⟨⟩ id ⟨⟩
          exact mem_insert_self _ _
  | sub axis i e rest =>
    cases axis <;> cases rest <;> exact quiet _ rfl rfl (by rintro t' ⟨⟩ id about <;> exact about)
  | cancel i rest =>
    refine ⟨subset_rfl, ?_, ?_⟩
    · intro id fired
      by_cases same : id = i
      · exact same ▸ ending i rfl
      · exact cancelled id (by simpa [step, update_of_ne same] using fired)
    · rintro t' ⟨⟩ id ⟨⟩

end Operation

namespace System

variable {timeout : Nat} {s s' : System}

section

variable {next : Option Thread} {rest : Multiset Thread}

theorem mem_elim {u : Thread} : u ∈ next.elim rest (· ::ₘ rest) ↔ next = some u ∨ u ∈ rest := by
  cases next <;> simp [eq_comm]

theorem sum_elim {M : Type} [AddCommMonoid M] (f : Thread → M) :
    ((next.elim rest (· ::ₘ rest)).map f).sum = next.elim 0 f + (rest.map f).sum := by
  cases next <;> simp

theorem amount_bind (c : SlotId) (ax : Axis) : amount ax c (next.bind (holds ax)) =
    next.elim 0 (fun t => amount ax c (t.holds ax)) := by
  cases next <;> rfl

theorem owes_bind (ax : Axis) (id : RequestId) :
    (if next.bind (Thread.owes ax) = some id then 1 else 0) =
      next.elim 0 (fun t => if t.owes ax = some id then 1 else 0) := by
  cases next <;> simp

end

section

variable (h : s.Balanced)
include h

theorem Balanced.call {t : Thread} (holds : ∀ ax, t.holds ax = none)
    (owes : ∀ ax, t.owes ax = none) (entry : t.entry = none) : (s.call t).Balanced where
  exact := by
    intro c ax
    have same := h.exact c ax
    simpa [System.call, held, listed, holds, amount] using same
  once := by
    intro id lt ax
    have same := h.once id lt ax
    simpa [System.call, owed, owes] using same
  fresh := h.fresh
  untouched := h.untouched
  unowed := by
    intro u hu ax id owed
    rcases mem_cons.mp hu with rfl | hu
    · rw [owes ax] at owed
      cases owed
    · exact h.unowed u hu ax id owed
  bounded := by
    refine ⟨h.bounded.1, ?_⟩
    intro u hu e there
    rcases mem_cons.mp hu with rfl | hu
    · rw [entry] at there
      cases there
    · exact h.bounded.2 u hu e there

theorem Balanced.register (worker : WorkerId) (workerUrl : String) (load : Axis → Nat) :
    Balanced { s.call (.register s.nextId worker workerUrl load) with nextId := s.nextId + 1 } where
  exact := by
    intro c ax
    have same := h.exact c ax
    have absent := h.fresh s.nextId le_rfl
    have none_held : (Thread.register s.nextId worker workerUrl load).holds ax = none := by
      cases ax <;> rfl
    simpa [System.call, held, listed, loads, sum_range_succ, absent, none_held,
      amount] using same
  once := by
    intro id lt ax
    have owes : (Thread.register s.nextId worker workerUrl load).owes ax = some s.nextId := by
      cases ax <;> rfl
    simp only [System.call, owed, Multiset.map_cons, Multiset.sum_cons, owes]
    by_cases new : id = s.nextId
    · subst new
      have nobody :
          (s.threads.map (fun t => if t.owes ax = some s.nextId then 1 else 0)).sum = 0 := by
        apply Multiset.sum_eq_zero
        intro x hx
        obtain ⟨t, ht, rfl⟩ := mem_map.mp hx
        rw [if_neg]
        intro owed
        exact absurd (h.unowed t ht ax _ owed) (lt_irrefl _)
      simp [nobody, h.fresh s.nextId le_rfl, h.untouched s.nextId le_rfl ax]
    · have old : id < s.nextId := lt_of_le_of_ne (Nat.lt_succ_iff.mp lt) new
      have same := h.once id old ax
      simpa [owed, Ne.symm new] using same
  fresh := fun id beyond => h.fresh id (le_of_succ_le beyond)
  untouched := fun id beyond => h.untouched id (le_of_succ_le beyond)
  unowed := by
    intro u hu ax id owed
    rcases mem_cons.mp hu with rfl | hu
    · cases ax <;> cases owed <;> exact lt_succ_self _
    · exact lt_succ_of_lt (h.unowed u hu ax id owed)
  bounded := by
    refine ⟨h.bounded.1, ?_⟩
    intro u hu e there
    rcases mem_cons.mp hu with rfl | hu
    · cases there
    · exact h.bounded.2 u hu e there

theorem Balanced.unlisted {id : RequestId} {e : RequestEntry}
    (running : .insertRequest id e ∈ s.threads) :
      id < s.nextId ∧ s.registry.requests id = none := by
  have lt := h.unowed _ running .prefill id rfl
  refine ⟨lt, ?_⟩
  have once := h.once id lt .prefill
  have owed : 1 ≤ s.owed .prefill id := by
    apply Multiset.single_le_sum (fun x _ => Nat.zero_le x)
    exact mem_map.mpr ⟨_, running, by simp [Thread.owes]⟩
  cases there : s.registry.requests id with
  | none => rfl
  | some e' =>
    rw [there] at once
    simp at once
    omega

theorem Balanced.run (seen : Option RequestId) {t : Thread} {rest : Multiset Thread}
    (running : s.threads = t ::ₘ rest) :
    Balanced { s with
      registry := (t.step timeout seen s.registry).1
      threads := (t.step timeout seen s.registry).2.elim rest (· ::ₘ rest) } := by
  have here : t ∈ s.threads := running ▸ mem_cons_self t rest
  have others : ∀ u ∈ rest, u ∈ s.threads := fun u hu => running ▸ mem_cons_of_mem hu
  have unlisted : ∀ id e, t = .insertRequest id e →
      id < s.nextId ∧ s.registry.requests id = none := by
    rintro id e rfl
    exact h.unlisted here
  obtain ⟨grows, bounds, bound⟩ :=
    step_inBounds timeout seen h.bounded.1 (h.bounded.2 t here)
  have counters := step_counters timeout seen h.bounded.1.zero h.fresh unlisted
  have owes := step_owes timeout seen (fun id e same => (unlisted id e same).2)
  generalize t.step timeout seen s.registry = r at *
  have quiet : ∀ id, s.nextId ≤ id → ∀ ax, r.1.subtracted ax id = 0 ∧ r.1.requests id = none ∧
      r.2.bind (Thread.owes ax) ≠ some id := by
    intro id beyond ax
    have moved := owes ax id
    rw [h.untouched id beyond ax, h.fresh id beyond, if_neg fun owed =>
      absurd (h.unowed t here ax id owed) (not_lt.mpr beyond)] at moved
    simp only [isSome_none, Bool.toNat_false, add_zero, Nat.add_eq_zero_iff] at moved
    exact ⟨moved.1.1, by simpa using moved.1.2, fun owed => by simp [owed] at moved⟩
  constructor
  · intro c ax
    have before := h.exact c ax
    have moved := counters c ax
    rw [amount_bind] at moved
    simp only [held, listed, running, sum_elim, Multiset.map_cons,
      Multiset.sum_cons] at before ⊢
    omega
  · intro id lt ax
    have before := h.once id lt ax
    have moved := owes ax id
    rw [owes_bind] at moved
    simp only [owed, running, sum_elim, Multiset.map_cons, Multiset.sum_cons] at before ⊢
    omega
  · exact fun id beyond => (quiet id beyond .prefill).2.1
  · exact fun id beyond ax => (quiet id beyond ax).1
  · intro u hu ax id owed
    rcases mem_elim.mp hu with next | hu
    · by_contra beyond
      exact (quiet id (not_lt.mp beyond) ax).2.2 (by rw [next]; exact owed)
    · exact h.unowed u (others u hu) ax id owed
  · refine ⟨bounds, ?_⟩
    intro u hu
    rcases mem_elim.mp hu with next | hu
    · exact bound u next
    · exact fun e there => lt_of_lt_of_le (h.bounded.2 u (others u hu) e there) grows

theorem Balanced.step (step : Step timeout s s') : s'.Balanced := by
  cases step with
  | register worker workerUrl load => exact h.register worker workerUrl load
  | dropGuard id alive =>
    have called := h.call (t := .drop id) (by intro ax; cases ax <;> rfl)
      (by intro ax; cases ax <;> rfl) rfl
    exact ⟨called.exact, called.once, called.fresh, called.untouched, called.unowed,
      ⟨⟨called.bounded.1.zero, called.bounded.1.workers, called.bounded.1.requests⟩,
        called.bounded.2⟩⟩
  | sweepStale | forgetWorker worker =>
    exact h.call (by intro ax; cases ax <;> rfl) (by intro ax; cases ax <;> rfl) rfl
  | tick d =>
    exact ⟨h.exact, h.once, h.fresh, h.untouched, h.unowed,
      ⟨⟨h.bounded.1.zero, h.bounded.1.workers, h.bounded.1.requests⟩, h.bounded.2⟩⟩
  | run seen t rest running => exact h.run seen running

end

theorem SweptOnly.step (h : s.SweptOnly) (step : Step timeout s s') : s'.SweptOnly := by
  have call : ∀ t : Thread, t.ending = none → (s.call t).SweptOnly := by
    intro t quiet
    refine ⟨h.cancelled, ?_⟩
    intro u hu id about
    rcases mem_cons.mp hu with rfl | hu
    · rw [quiet] at about
      cases about
    · exact h.ending u hu id about
  cases step with
  | register worker workerUrl load =>
    have called := call (.register s.nextId worker workerUrl load) rfl
    exact ⟨called.cancelled, called.ending⟩
  | dropGuard id alive =>
    have called := call (.drop id) rfl
    exact ⟨called.cancelled, called.ending⟩
  | sweepStale => exact call _ rfl
  | forgetWorker worker => exact call _ rfl
  | tick d => exact ⟨h.cancelled, h.ending⟩
  | run seen t rest running =>
    have here : t ∈ s.threads := running ▸ mem_cons_self t rest
    obtain ⟨grows, cancelled, ending⟩ :=
      step_swept timeout seen h.cancelled (h.ending t here)
    refine ⟨cancelled, ?_⟩
    intro u hu id about
    rcases mem_elim.mp hu with next | hu
    · exact ending u next id about
    · exact grows (h.ending u (running ▸ mem_cons_of_mem hu) id about)

theorem balanced_of_reaches (run : Reaches timeout s) : s.Balanced ∧ s.SweptOnly := by
  induction run with
  | start =>
    refine ⟨⟨?_, ?_, fun _ _ => rfl, fun _ _ _ => rfl, ?_, ⟨?_, ?_, ?_⟩, ?_⟩, ?_, ?_⟩
    · intro c ax
      simp [listed, held, loads]
    all_goals simp
  | step _ step ih => exact ⟨ih.1.step step, ih.2.step step⟩

theorem Balanced.counters_nonneg (h : s.Balanced) (c : SlotId) (ax : Axis) :
    0 ≤ s.registry.counters c ax := by
  rw [h.exact c ax]
  apply add_nonneg
  · unfold listed loads
    exact sum_nonneg (fun id _ => amount_nonneg ax c _)
  · apply Multiset.sum_nonneg
    intro x hx
    obtain ⟨t, -, rfl⟩ := mem_map.mp hx
    exact amount_nonneg ax c _

/-- In every interleaving no counter is below zero and no load is taken away twice. When no call is
in progress, a counter is the sum of the loads of the requests listed on its slot. -/
theorem activeLoad_counters_exact (run : Reaches timeout s) :
    (∀ c ax, 0 ≤ s.registry.counters c ax) ∧
    (∀ id ax, s.registry.subtracted ax id ≤ 1) ∧
    (∀ id, s.registry.cancelled id = true → id ∈ s.registry.swept) ∧
    (s.threads = 0 → (∀ w c ax, s.registry.workers w = some c → s.registry.load w ax =
        ∑ id ∈ range s.nextId, amount ax c (s.registry.requests id)) ∧
      ∀ id < s.nextId, ∀ ax, s.registry.subtracted ax id =
        if (s.registry.requests id).isSome then 0 else 1) := by
  obtain ⟨balanced, swept⟩ := balanced_of_reaches run
  refine ⟨balanced.counters_nonneg, ?_, swept.cancelled, ?_⟩
  · intro id ax
    by_cases known : id < s.nextId
    · have once := balanced.once id known ax
      omega
    · rw [balanced.untouched id (Nat.le_of_not_lt known) ax]
      exact Nat.zero_le 1
  · intro idle
    constructor
    · intro w c ax slot
      have exact := balanced.exact c ax
      rw [held, idle, map_zero, sum_zero, add_zero] at exact
      simp only [load, slot]
      exact exact
    · intro id known ax
      have once := balanced.once id known ax
      rw [owed, idle, map_zero, sum_zero, add_zero] at once
      cases there : s.registry.requests id with
      | none | some e =>
        rw [there] at once
        simpa using once

theorem remaining_request_counted : ∃ s : System, Reaches 5 s ∧ s.threads = 0 ∧
    s.registry.subtracted .prefill 0 = 1 ∧ s.registry.cancelled 1 ∧
    s.registry.load "w" .prefill = 2 ∧ s.registry.load "w" .prefill =
      ∑ id ∈ range s.nextId, amount .prefill 0 (s.registry.requests id) := by
  have registered := (Reaches.start : Reaches 5 {})
    |>.step (.register "w" "http://w" (fun _ => 7))
    |>.step (.run none _ 0 rfl) |>.step (.run none _ 0 rfl)
    |>.step (.run none _ 0 rfl) |>.step (.run none _ 0 rfl)
    |>.step (.register "w" "http://w" (fun _ => 5))
    |>.step (.run none _ 0 rfl) |>.step (.run none _ 0 rfl)
    |>.step (.run none _ 0 rfl) |>.step (.run none _ 0 rfl)
  have dropped := registered
    |>.step (.dropGuard 0 (by decide))
    |>.step (.run none _ 0 rfl) |>.step (.run none _ 0 rfl) |>.step (.run none _ 0 rfl)
  have run := dropped
    |>.step (.tick 5)
    |>.step (.register "w" "http://w" (fun _ => 2))
    |>.step (.run none _ 0 rfl) |>.step (.run none _ 0 rfl)
    |>.step (.run none _ 0 rfl) |>.step (.run none _ 0 rfl)
    |>.step .sweepStale
    |>.step (.run (some 1) _ 0 rfl) |>.step (.run none _ 0 rfl) |>.step (.run none _ 0 rfl)
    |>.step (.run none _ 0 rfl) |>.step (.run none _ 0 rfl) |>.step (.run none _ 0 rfl)
    |>.step (.run none _ 0 rfl)
  exact ⟨_, run, rfl, by decide, by decide, by decide,
    ((activeLoad_counters_exact run).2.2.2 rfl).1 "w" 0 .prefill rfl⟩

end System

end RedKnot.Router.ActiveLoad
