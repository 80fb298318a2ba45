import Mathlib.Tactic

/-! `WorkerRegistry` of `workers/registry.rs` with the event loop and the registration tasks of
`workers/manager.rs`. At most one task is in flight for a worker id. The validation of a task and
its insertion happen under the write lock; a mode change does not take it. -/

namespace RedKnot.Router

open Function List

abbrev WorkerId := String

abbrev ModelId := String

inductive WorkerMode where
  | plain
  | prefill
  | decode
deriving DecidableEq, Repr

structure WorkerSpec where
  id : WorkerId
  url : String
  mode : WorkerMode
  modelIds : List ModelId := []
  bootstrapPort : Option Nat := none
deriving DecidableEq, Repr

inductive DisaggregationRole where
  | plain
  | prefill (bootstrapPort : Nat)
  | decode
deriving DecidableEq, Repr

/-- What `/server_info` tells about a worker. `publishes` tells whether there is an event
configuration in it. -/
structure ServerInfo where
  servedModelName : Option String := none
  publishes : Bool := false
  disaggregationRole : Option DisaggregationRole := none
deriving DecidableEq, Repr

def modesAreMixed : WorkerMode → WorkerMode → Bool
  | .plain, .prefill => true
  | .plain, .decode => true
  | .prefill, .plain => true
  | .decode, .plain => true
  | _, _ => false

theorem modesAreMixed_comm (a b : WorkerMode) : modesAreMixed a b = modesAreMixed b a := by
  cases a <;> cases b <;> rfl

theorem modesAreMixed_self (a : WorkerMode) : modesAreMixed a a = false := by cases a <;> rfl

/-- The spec that `register_one` hands to the registry. -/
def WorkerSpec.resolve (spec : WorkerSpec) (info : ServerInfo) : WorkerSpec :=
  let spec := match info.servedModelName with
    | some name => { spec with modelIds := [name] }
    | none => spec
  match info.disaggregationRole with
  | none => spec
  | some .plain => { spec with mode := .plain, bootstrapPort := none }
  | some (.prefill port) => { spec with mode := .prefill, bootstrapPort := some port }
  | some .decode => { spec with mode := .decode, bootstrapPort := none }

section

variable (spec : WorkerSpec) (info : ServerInfo)

theorem resolve_id : (spec.resolve info).id = spec.id := by
  obtain ⟨name, publishes, role⟩ := info
  cases name <;> rcases role with - | (- | - | -) <;> rfl

theorem resolve_url : (spec.resolve info).url = spec.url := by
  obtain ⟨name, publishes, role⟩ := info
  cases name <;> rcases role with - | (- | - | -) <;> rfl

end

structure WorkerRegistry where
  byId : WorkerId → Option WorkerSpec := fun _ => none
  byModel : ModelId → List WorkerId := fun _ => []

open WorkerRegistry

namespace WorkerRegistry

def workersFor (r : WorkerRegistry) (model : ModelId) : List WorkerSpec :=
  (r.byModel model).filterMap r.byId

def removeLocked (r : WorkerRegistry) (id : WorkerId) : WorkerRegistry :=
  match r.byId id with
  | none => r
  | some w =>
    { byId := update r.byId id none
      byModel := fun m => if m ∈ w.modelIds then (r.byModel m).filter (· ≠ id) else r.byModel m }

def enlist (r : WorkerRegistry) (w : WorkerSpec) : WorkerRegistry :=
  { r with byModel := fun m => if m ∈ w.modelIds then (r.byModel m).insert w.id else r.byModel m }

def insert (r : WorkerRegistry) (w : WorkerSpec) : WorkerRegistry :=
  { r with byId := update r.byId w.id (some w) }

def setMode (r : WorkerRegistry) (id : WorkerId) (mode : WorkerMode) : WorkerRegistry :=
  match r.byId id with
  | none => r
  | some w => { r with byId := update r.byId id (some { w with mode := mode }) }

def Unmixed (r : WorkerRegistry) : Prop :=
  ∀ model, ∀ v ∈ r.workersFor model, ∀ w ∈ r.workersFor model, modesAreMixed v.mode w.mode = false

end WorkerRegistry

/-- Where a registration task is. `checking` goes through the models that are left and the workers
of the current one that are left. -/
inductive Task where
  | fetching (spec : WorkerSpec)
  | locking (spec : WorkerSpec)
  | checking (spec : WorkerSpec) (models : List ModelId) (existing : List WorkerId)
  | removing (spec : WorkerSpec)
  | enlisting (spec : WorkerSpec)
  | inserting (spec : WorkerSpec)
  | subscribing (spec : WorkerSpec)

def Task.critical : Task → Option WorkerSpec
  | .checking spec _ _ => some spec
  | .removing spec => some spec
  | .enlisting spec => some spec
  | .inserting spec => some spec
  | _ => none

structure Manager where
  registry : WorkerRegistry := {}
  tasks : WorkerId → Option Task := fun _ => none
  lock : Option WorkerId := none

namespace Manager

def withTask (s : Manager) (id : WorkerId) (t : Option Task) : Manager :=
  { s with tasks := update s.tasks id t }

def proceed (s : Manager) (id : WorkerId) : Task → Option Manager
  | .checking spec models (x :: existing) =>
    match s.registry.byId x with
    | none => some (s.withTask id (some (.checking spec models existing)))
    | some w =>
      if x ≠ spec.id ∧ modesAreMixed spec.mode w.mode then
        some { s.withTask id none with lock := none }
      else some (s.withTask id (some (.checking spec models existing)))
  | .checking spec (m :: models) [] =>
    some (s.withTask id (some (.checking spec models (s.registry.byModel m))))
  | .checking spec [] [] => some (s.withTask id (some (.removing spec)))
  | .removing spec =>
    some { s.withTask id (some (.enlisting spec)) with registry := s.registry.removeLocked spec.id }
  | .enlisting spec =>
    some { s.withTask id (some (.inserting spec)) with registry := s.registry.enlist spec }
  | .inserting spec =>
    some { s.withTask id (some (.subscribing spec)) with
      registry := s.registry.insert spec
      lock := none }
  | _ => none

/-- Whether a mode change would leave every pool unmixed, counting the worker that is just being
entered. -/
def Compatible (s : Manager) (id : WorkerId) (mode : WorkerMode) : Prop :=
  ∀ w, s.registry.byId id = some w → ∀ m ∈ w.modelIds,
    (∀ v ∈ s.registry.workersFor m, v.id ≠ id → modesAreMixed mode v.mode = false) ∧
    ∀ i t spec, s.tasks i = some t → t.critical = some spec → m ∈ spec.modelIds →
      modesAreMixed mode spec.mode = false

/-- `allowed` says which mode changes occur. -/
inductive Step (allowed : Manager → WorkerId → WorkerMode → Prop) : Manager → Manager → Prop where
  | added {s} (spec : WorkerSpec) (idle : s.tasks spec.id = none) :
      Step allowed s (s.withTask spec.id (some (.fetching spec)))
  | fetched {s} (id : WorkerId) (spec : WorkerSpec) (info : ServerInfo)
      (waits : s.tasks id = some (.fetching spec)) :
      Step allowed s (s.withTask id (some (.locking (spec.resolve info))))
  | acquired {s} (id : WorkerId) (spec : WorkerSpec) (waits : s.tasks id = some (.locking spec))
      (free : s.lock = none) :
      Step allowed s { s.withTask id (some (.checking spec spec.modelIds [])) with lock := some id }
  | proceeded {s s'} (id : WorkerId) (t : Task) (here : s.tasks id = some t)
      (next : s.proceed id t = some s') : Step allowed s s'
  | subscribed {s} (id : WorkerId) (spec : WorkerSpec)
      (waits : s.tasks id = some (.subscribing spec)) :
      Step allowed s (s.withTask id none)
  | removed {s} (id : WorkerId) (idle : s.tasks id = none) (free : s.lock = none) :
      Step allowed s { s with registry := s.registry.removeLocked id }
  | modeChanged {s} (id : WorkerId) (mode : WorkerMode) (idle : s.tasks id = none)
      (ok : allowed s id mode) : Step allowed s { s with registry := s.registry.setMode id mode }

inductive Reaches (allowed : Manager → WorkerId → WorkerMode → Prop) : Manager → Prop where
  | start : Reaches allowed {}
  | step {s s'} : Reaches allowed s → Step allowed s s' → Reaches allowed s'

end Manager

def Task.spec : Task → WorkerSpec
  | .fetching spec => spec
  | .locking spec => spec
  | .checking spec _ _ => spec
  | .removing spec => spec
  | .enlisting spec => spec
  | .inserting spec => spec
  | .subscribing spec => spec

namespace WorkerRegistry

variable {r : WorkerRegistry} {id x : WorkerId} {w : WorkerSpec} {m : ModelId} {mode : WorkerMode}

theorem mem_workersFor : w ∈ r.workersFor m ↔ ∃ x ∈ r.byModel m, r.byId x = some w := by
  simp [workersFor]

structure Indexed (r : WorkerRegistry) : Prop where
  ids : ∀ x w, r.byId x = some w → w.id = x
  listed : ∀ x w m, r.byId x = some w → (m ∈ w.modelIds ↔ x ∈ r.byModel m)

def Apart (r : WorkerRegistry) : Prop :=
  ∀ m x y v w, r.byId x = some v → r.byId y = some w → m ∈ v.modelIds → m ∈ w.modelIds →
    modesAreMixed v.mode w.mode = false

theorem Indexed.unmixed (h : r.Indexed) (apart : r.Apart) : r.Unmixed := by
  intro m v hv w hw
  obtain ⟨x, hx, there⟩ := mem_workersFor.mp hv
  obtain ⟨y, hy, there'⟩ := mem_workersFor.mp hw
  exact apart m x y v w there there' ((h.listed x v m there).mpr hx)
    ((h.listed y w m there').mpr hy)

theorem Indexed.mem_workersFor_iff (h : r.Indexed) :
    w ∈ r.workersFor m ↔ ∃ x, r.byId x = some w ∧ m ∈ w.modelIds := by
  rw [mem_workersFor]
  constructor
  · rintro ⟨x, hx, there⟩
    exact ⟨x, there, (h.listed x w m there).mpr hx⟩
  · rintro ⟨x, there, serves⟩
    exact ⟨x, (h.listed x w m there).mp serves, there⟩

theorem removeLocked_byId (r : WorkerRegistry) (id : WorkerId) :
    (r.removeLocked id).byId = update r.byId id none := by
  unfold removeLocked
  cases there : r.byId id with
  | none =>
    funext x
    by_cases same : x = id
    · subst same
      simp [there]
    · simp [update_of_ne same]
  | some w => rfl

theorem removeLocked_byId_of_some (there : (r.removeLocked id).byId x = some w) :
    x ≠ id ∧ r.byId x = some w := by
  rw [removeLocked_byId] at there
  by_cases same : x = id
  · subst same
    simp at there
  · exact ⟨same, by simpa [update_of_ne same] using there⟩

theorem mem_removeLocked_byModel (other : x ≠ id) :
    x ∈ (r.removeLocked id).byModel m ↔ x ∈ r.byModel m := by
  unfold removeLocked
  cases r.byId id with
  | none => exact Iff.rfl
  | some w =>
    by_cases serves : m ∈ w.modelIds
    · simp [serves, other]
    · simp [serves]

theorem not_mem_removeLocked (h : r.Indexed) (bare : r.byId id = none → id ∉ r.byModel m) :
    id ∉ (r.removeLocked id).byModel m := by
  unfold removeLocked
  cases there : r.byId id with
  | none => exact bare there
  | some w =>
    by_cases serves : m ∈ w.modelIds
    · simp [serves]
    · simpa [serves] using fun listed => serves ((h.listed id w m there).mpr listed)

theorem Indexed.removeLocked (h : r.Indexed) (id : WorkerId) : (r.removeLocked id).Indexed where
  ids := fun x w there => h.ids x w (removeLocked_byId_of_some there).2
  listed := by
    intro x w m there
    obtain ⟨other, old⟩ := removeLocked_byId_of_some there
    rw [mem_removeLocked_byModel other]
    exact h.listed x w m old

theorem Apart.removeLocked (h : r.Apart) (id : WorkerId) : (r.removeLocked id).Apart := by
  intro m x y v w hx hy
  exact h m x y v w (removeLocked_byId_of_some hx).2 (removeLocked_byId_of_some hy).2

theorem mem_enlist_byModel :
    x ∈ (r.enlist w).byModel m ↔ x ∈ r.byModel m ∨ (x = w.id ∧ m ∈ w.modelIds) := by
  unfold enlist
  by_cases serves : m ∈ w.modelIds
  · simp [serves, or_comm]
  · simp [serves]

theorem Indexed.enlist (h : r.Indexed) (free : r.byId w.id = none) : (r.enlist w).Indexed where
  ids := h.ids
  listed := by
    intro x v m there
    have other : x ≠ w.id := by
      rintro rfl
      have taken : r.byId w.id = some v := there
      rw [free] at taken
      cases taken
    rw [mem_enlist_byModel]
    simp only [other, false_and, or_false]
    exact h.listed x v m there

theorem insert_byId_self {v : WorkerSpec} (there : (r.insert w).byId w.id = some v) : v = w := by
  simpa [WorkerRegistry.insert] using there.symm

theorem insert_byId_of_ne {v : WorkerSpec} (other : x ≠ w.id)
    (there : (r.insert w).byId x = some v) : r.byId x = some v := by
  simpa [WorkerRegistry.insert, update_of_ne other] using there

theorem Indexed.insert (h : r.Indexed) (entered : ∀ m, m ∈ w.modelIds ↔ w.id ∈ r.byModel m) :
    (r.insert w).Indexed where
  ids := by
    intro x v there
    by_cases same : x = w.id
    · subst same
      rw [insert_byId_self there]
    · exact h.ids x v (insert_byId_of_ne same there)
  listed := by
    intro x v m there
    by_cases same : x = w.id
    · subst same
      rw [insert_byId_self there]
      exact entered m
    · exact h.listed x v m (insert_byId_of_ne same there)

theorem Apart.insert (h : r.Apart)
    (checked : ∀ m ∈ w.modelIds, ∀ x v, r.byId x = some v → m ∈ v.modelIds → x ≠ w.id →
      modesAreMixed w.mode v.mode = false) : (r.insert w).Apart := by
  intro m x y v u hx hy hv hu
  by_cases first : x = w.id
  · subst first
    obtain rfl := insert_byId_self hx
    by_cases second : y = v.id
    · subst second
      obtain rfl := insert_byId_self hy
      exact modesAreMixed_self _
    · exact checked m hv y u (insert_byId_of_ne second hy) hu second
  · by_cases second : y = w.id
    · subst second
      obtain rfl := insert_byId_self hy
      rw [modesAreMixed_comm]
      exact checked m hu x v (insert_byId_of_ne first hx) hv first
    · exact h m x y v u (insert_byId_of_ne first hx) (insert_byId_of_ne second hy) hv hu

theorem setMode_byId (there : (r.setMode id mode).byId x = some w) :
    ∃ v, r.byId x = some v ∧ w.modelIds = v.modelIds ∧ w.id = v.id ∧
      w.mode = if x = id then mode else v.mode := by
  unfold setMode at there
  cases known : r.byId id with
  | none =>
    rw [known] at there
    have other : x ≠ id := by
      rintro rfl
      rw [known] at there
      cases there
    exact ⟨w, there, rfl, rfl, by simp [other]⟩
  | some u =>
    rw [known] at there
    by_cases same : x = id
    · subst same
      have here : { u with mode := mode } = w := by simpa using there
      exact ⟨u, known, by rw [← here], by rw [← here], by simp [← here]⟩
    · exact ⟨w, by simpa [update_of_ne same] using there, rfl, rfl, by simp [same]⟩

theorem setMode_byModel : (r.setMode id mode).byModel = r.byModel := by
  unfold setMode
  cases r.byId id <;> rfl

theorem setMode_byId_url (r : WorkerRegistry) (id : WorkerId) (mode : WorkerMode) (x : WorkerId) :
    ((r.setMode id mode).byId x).map WorkerSpec.url = (r.byId x).map WorkerSpec.url := by
  unfold setMode
  cases known : r.byId id with
  | none => rfl
  | some u =>
    by_cases same : x = id
    · subst same
      simp [known]
    · simp [update_of_ne same]

theorem setMode_byId_none : (r.setMode id mode).byId x = none ↔ r.byId x = none := by
  rw [← Option.map_eq_none_iff (f := WorkerSpec.url), setMode_byId_url, Option.map_eq_none_iff]

theorem Indexed.setMode (h : r.Indexed) : (r.setMode id mode).Indexed where
  ids := by
    intro x w there
    obtain ⟨v, old, -, same, -⟩ := setMode_byId there
    rw [same]
    exact h.ids x v old
  listed := by
    intro x w m there
    obtain ⟨v, old, models, -, -⟩ := setMode_byId there
    rw [models, setMode_byModel]
    exact h.listed x v m old

end WorkerRegistry

def Task.pending : Task → ModelId → WorkerId → Prop
  | .checking _ models existing, m, x => m ∈ models ∨ x ∈ existing
  | _, _, _ => False

namespace Manager

variable {s s' : Manager} {id i x : WorkerId} {t : Task} {spec : WorkerSpec} {mode : WorkerMode}

/-- What is known of a task where it is. A worker with whom the new one would be mixed has still to
be compared with it. -/
structure Placed (s : Manager) (i : WorkerId) (t : Task) : Prop where
  spec : t.spec.id = i
  lock : ∀ spec, t.critical = some spec → s.lock = some i
  checked : ∀ spec, t.critical = some spec → ∀ m ∈ spec.modelIds, ∀ x v,
    s.registry.byId x = some v → m ∈ v.modelIds → x ≠ spec.id →
    modesAreMixed spec.mode v.mode = false ∨ t.pending m x
  gone : ∀ spec, t = .enlisting spec ∨ t = .inserting spec → s.registry.byId i = none
  entered : ∀ spec, t = .inserting spec → ∀ m ∈ spec.modelIds, i ∈ s.registry.byModel m

structure Sound (s : Manager) : Prop where
  indexed : s.registry.Indexed
  apart : s.registry.Apart
  placed : ∀ i t, s.tasks i = some t → s.Placed i t
  bare : ∀ x m, s.registry.byId x = none → x ∈ s.registry.byModel m →
    ∃ spec, s.tasks x = some (.inserting spec) ∧ m ∈ spec.modelIds

theorem Sound.unmixed (h : s.Sound) : s.registry.Unmixed := h.indexed.unmixed h.apart

theorem Placed.outside (spec : t.spec.id = i) (quiet : t.critical = none) : s.Placed i t := by
  refine ⟨spec, by simp [quiet], by simp [quiet], ?_, ?_⟩
  · rintro spec (rfl | rfl) <;> cases quiet
  · rintro spec rfl
    cases quiet

theorem withTask_self (s : Manager) (i : WorkerId) (o : Option Task) :
    (s.withTask i o).tasks i = o := by
  simp [withTask]

theorem withTask_of_ne (s : Manager) (o : Option Task) (other : x ≠ i) :
    (s.withTask i o).tasks x = s.tasks x := by
  simp [withTask, update_of_ne other]

section

variable (h : s.Sound)
include h

theorem Sound.one_critical {t' : Task} {spec' : WorkerSpec} (here : s.tasks i = some t)
    (inside : t.critical = some spec) (there : s.tasks x = some t')
      (inside' : t'.critical = some spec') :
    x = i := by
  have first := (h.placed i t here).lock spec inside
  have second := (h.placed x t' there).lock spec' inside'
  exact Option.some.inj (second.symm.trans first)

theorem Sound.move (lock : Option WorkerId)
    (here : ∀ spec, s.tasks i ≠ some (.inserting spec)) {o : Option Task}
    (others : ∀ x t spec, x ≠ i → s.tasks x = some t → t.critical = some spec → lock = some x)
    (placed : ∀ t, o = some t → Placed { s.withTask i o with lock := lock } i t) :
    Sound { s.withTask i o with lock := lock } where
  indexed := h.indexed
  apart := h.apart
  placed := by
    intro x t there
    by_cases same : x = i
    · subst same
      exact placed t (by simpa [withTask] using there)
    · have old : s.tasks x = some t := by simpa [withTask, update_of_ne same] using there
      have known := h.placed x t old
      exact ⟨known.spec, fun spec inside => others x t spec same old inside, known.checked,
        known.gone, known.entered⟩
  bare := by
    intro x m unknown listed
    obtain ⟨spec, entering, serves⟩ := h.bare x m unknown listed
    have other : x ≠ i := by
      rintro rfl
      exact here spec entering
    exact ⟨spec, (withTask_of_ne _ _ other).trans entering, serves⟩

theorem Sound.moveOutside {o : Option Task} (outside : ∀ t, s.tasks i = some t → t.critical = none)
    (next : ∀ t, o = some t → t.spec.id = i ∧ t.critical = none) : (s.withTask i o).Sound := by
  refine h.move s.lock ?_ ?_ ?_
  · intro spec entering
    have := outside _ entering
    cases this
  · exact fun x t spec _ there inside => (h.placed x t there).lock spec inside
  · intro t same
    obtain ⟨spec, quiet⟩ := next t same
    exact .outside spec quiet

theorem Sound.moveInside {t t' : Task} (here : s.tasks i = some t)
    (entered : ∀ spec, t ≠ .inserting spec) (placed : (s.withTask i (some t')).Placed i t') :
    (s.withTask i (some t')).Sound := by
  refine h.move s.lock (by simpa [here] using entered)
    (fun x t spec _ there inside => (h.placed x t there).lock spec inside) ?_
  rintro t ⟨⟩
  exact placed

theorem Sound.check {models models' : List ModelId} {existing existing' : List WorkerId}
    (here : s.tasks i = some (.checking spec models existing))
    (compared : ∀ m ∈ spec.modelIds, ∀ x v, s.registry.byId x = some v → m ∈ v.modelIds →
      x ≠ spec.id → m ∈ models ∨ x ∈ existing →
      modesAreMixed spec.mode v.mode = false ∨ m ∈ models' ∨ x ∈ existing') :
    (s.withTask i (some (.checking spec models' existing'))).Sound := by
  have known := h.placed i _ here
  refine h.moveInside here (by simp)
    ⟨known.spec, fun spec' inside => known.lock spec' inside, ?_, by simp, by simp⟩
  rintro spec' ⟨⟩ m hm x v there serves other
  rcases known.checked spec rfl m hm x v there serves other with apart | pending
  · exact .inl apart
  · exact compared m hm x v there serves other pending

theorem Sound.leave (here : s.tasks i = some t) (inside : t.critical = some spec)
    (outside : ∀ spec, t ≠ .inserting spec) : Sound { s.withTask i none with lock := none } := by
  refine h.move _ (by simpa [here] using outside) ?_ (by simp)
  intro x t' spec' other there inside'
  exact absurd (h.one_critical here inside there inside') other

theorem Sound.acquire (waits : s.tasks i = some (.locking spec)) (free : s.lock = none) :
    Sound { s.withTask i (some (.checking spec spec.modelIds [])) with lock := some i } := by
  refine h.move _ (by simp [waits]) ?_ ?_
  · intro x t spec' _ there inside
    have held := (h.placed x t there).lock spec' inside
    rw [free] at held
    cases held
  · rintro t ⟨⟩
    refine ⟨(h.placed i _ waits).spec, fun _ _ => rfl, ?_, by simp, by simp⟩
    rintro spec' ⟨⟩ m hm x v - - -
    exact .inr (.inl hm)

theorem Sound.checkedAll (here : s.tasks i = some (.checking spec [] [])) :
    (s.withTask i (some (.removing spec))).Sound := by
  have known := h.placed i _ here
  refine h.moveInside here (by simp)
    ⟨known.spec, fun spec' inside => known.lock spec' inside, ?_, by simp, by simp⟩
  rintro spec' ⟨⟩ m hm x v there serves other
  exact .inl (by simpa [Task.pending] using known.checked spec rfl m hm x v there serves other)

theorem Sound.placedAll (here : s.tasks i = some t) (inside : t.critical = some spec) {t' : Task}
    {s' : Manager} (tasks : s'.tasks = (s.withTask i (some t')).tasks) (own : s'.Placed i t')
    (x : WorkerId) (u : Task) (there : s'.tasks x = some u) : s'.Placed x u := by
  rw [tasks] at there
  by_cases self : x = i
  · subst self
    rw [withTask_self] at there
    cases there
    exact own
  · rw [withTask_of_ne _ _ self] at there
    refine .outside (h.placed x u there).spec ?_
    cases critical : u.critical with
    | none => rfl
    | some spec' => exact absurd (h.one_critical here inside there critical) self

theorem Sound.removing (here : s.tasks i = some (.removing spec)) :
    Sound { s.withTask i (some (.enlisting spec)) with
      registry := s.registry.removeLocked spec.id } := by
  have known := h.placed i _ here
  have same : spec.id = i := known.spec
  have unlisted : ∀ m, spec.id ∉ (s.registry.removeLocked spec.id).byModel m := by
    intro m
    apply not_mem_removeLocked h.indexed
    intro unknown listed
    obtain ⟨spec', entering, -⟩ := h.bare _ m unknown listed
    rw [same, here] at entering
    cases entering
  refine ⟨h.indexed.removeLocked _, h.apart.removeLocked _, ?_, ?_⟩
  · refine h.placedAll here rfl rfl ⟨same, fun spec' inside => known.lock spec' inside, ?_, ?_, ?_⟩
    · rintro spec' ⟨⟩ m hm y v left serves other
      exact known.checked spec rfl m hm y v (removeLocked_byId_of_some left).2 serves other
    · intro spec' _
      simp [removeLocked_byId, same]
    · rintro spec' ⟨⟩
  · intro x m unknown listed
    by_cases self : x = spec.id
    · exact absurd (self ▸ listed) (unlisted m)
    · have before : s.registry.byId x = none := by
        simpa [removeLocked_byId, update_of_ne self] using unknown
      obtain ⟨spec', entering, serves⟩ :=
        h.bare x m before ((mem_removeLocked_byModel self).mp listed)
      have other : x ≠ i := same ▸ self
      exact ⟨spec', (withTask_of_ne _ _ other).trans entering, serves⟩

theorem Sound.enlisting (here : s.tasks i = some (.enlisting spec)) :
    Sound { s.withTask i (some (.inserting spec)) with registry := s.registry.enlist spec } := by
  have known := h.placed i _ here
  have same : spec.id = i := known.spec
  have gone : s.registry.byId i = none := known.gone spec (.inl rfl)
  refine ⟨h.indexed.enlist (same ▸ gone), h.apart, ?_, ?_⟩
  · refine h.placedAll here rfl rfl
      ⟨same, fun spec' inside => known.lock spec' inside, ?_, fun _ _ => gone, ?_⟩
    · rintro spec' ⟨⟩ m hm y v left serves other
      exact known.checked spec rfl m hm y v left serves other
    · rintro spec' ⟨⟩ m hm
      exact mem_enlist_byModel.mpr (.inr ⟨same.symm, hm⟩)
  · intro x m unknown listed
    rcases mem_enlist_byModel.mp listed with before | ⟨rfl, serves⟩
    · obtain ⟨spec', entering, serves⟩ := h.bare x m unknown before
      have other : x ≠ i := by
        rintro rfl
        rw [here] at entering
        cases entering
      exact ⟨spec', (withTask_of_ne _ _ other).trans entering, serves⟩
    · exact ⟨spec, by simp [withTask, same], serves⟩

theorem Sound.inserting (here : s.tasks i = some (.inserting spec)) :
    Sound { s.withTask i (some (.subscribing spec)) with
      registry := s.registry.insert spec
      lock := none } := by
  have known := h.placed i _ here
  have same : spec.id = i := known.spec
  have gone : s.registry.byId i = none := known.gone spec (.inr rfl)
  have entered : ∀ m, m ∈ spec.modelIds ↔ spec.id ∈ s.registry.byModel m := by
    intro m
    constructor
    · exact fun serves => same ▸ known.entered spec rfl m serves
    · intro listed
      obtain ⟨spec', entering, serves⟩ := h.bare spec.id m (same ▸ gone) listed
      rw [same, here] at entering
      cases entering
      exact serves
  have apart : (s.registry.insert spec).Apart := by
    apply h.apart.insert
    intro m hm y v left serves other
    rcases known.checked spec rfl m hm y v left serves other with apart | pending
    · exact apart
    · cases pending
  refine ⟨h.indexed.insert entered, apart, ?_, ?_⟩
  · exact h.placedAll here rfl rfl (.outside same rfl)
  · intro x m unknown listed
    by_cases self : x = spec.id
    · subst self
      simp [WorkerRegistry.insert] at unknown
    · have before : s.registry.byId x = none := by
        simpa [WorkerRegistry.insert, update_of_ne self] using unknown
      obtain ⟨spec', entering, serves⟩ := h.bare x m before listed
      have other : x ≠ i := same ▸ self
      exact ⟨spec', (withTask_of_ne _ _ other).trans entering, serves⟩

theorem Sound.proceed (here : s.tasks i = some t) (next : s.proceed i t = some s') : s'.Sound := by
  cases t with
  | checking spec models existing =>
    cases existing with
    | cons x existing =>
      simp only [Manager.proceed] at next
      cases there : s.registry.byId x with
      | none =>
        simp only [there] at next
        cases next
        apply h.check here
        intro m _ y v left _ _ pending
        rcases pending with hm | hy
        · exact .inr (.inl hm)
        · rcases mem_cons.mp hy with rfl | hy
          · rw [there] at left
            cases left
          · exact .inr (.inr hy)
      | some w =>
        simp only [there] at next
        split at next
        · cases next
          exact h.leave here rfl (by intro spec' bad; cases bad)
        · rename_i fits
          cases next
          apply h.check here
          intro m _ y v left _ other pending
          rcases pending with hm | hy
          · exact .inr (.inl hm)
          · rcases mem_cons.mp hy with rfl | hy
            · rw [there] at left
              cases left
              exact .inl (by simpa [other] using fits)
            · exact .inr (.inr hy)
    | nil =>
      cases models with
      | cons m models =>
        cases next
        apply h.check here
        intro m' _ y v left serves _ pending
        rcases pending with hm | hy
        · rcases mem_cons.mp hm with rfl | hm
          · exact .inr (.inr ((h.indexed.listed y v m' left).mp serves))
          · exact .inr (.inl hm)
        · cases hy
      | nil =>
        cases next
        exact h.checkedAll here
  | removing spec =>
    cases next
    exact h.removing here
  | enlisting spec =>
    cases next
    exact h.enlisting here
  | inserting spec =>
    cases next
    exact h.inserting here
  | fetching | locking | subscribing => cases next

theorem Sound.removed (idle : s.tasks i = none) (free : s.lock = none) :
    Sound { s with registry := s.registry.removeLocked i } := by
  refine ⟨h.indexed.removeLocked i, h.apart.removeLocked i, ?_, ?_⟩
  · intro x u there
    have known := h.placed x u there
    have quiet : u.critical = none := by
      cases critical : u.critical with
      | none => rfl
      | some spec =>
        have held := known.lock spec critical
        rw [free] at held
        cases held
    exact .outside known.spec quiet
  · intro x m unknown listed
    by_cases self : x = i
    · subst self
      refine absurd listed (not_mem_removeLocked h.indexed ?_)
      intro unknown listed
      obtain ⟨spec, entering, -⟩ := h.bare x m unknown listed
      rw [idle] at entering
      cases entering
    · have before : s.registry.byId x = none := by
        simpa [removeLocked_byId, update_of_ne self] using unknown
      exact h.bare x m before ((mem_removeLocked_byModel self).mp listed)

theorem Sound.modeChanged (idle : s.tasks i = none) (fits : s.Compatible i mode) :
    Sound { s with registry := s.registry.setMode i mode } := by
  have against : ∀ m v, s.registry.byId i = some v → m ∈ v.modelIds → ∀ y w, y ≠ i →
      s.registry.byId y = some w → m ∈ w.modelIds → modesAreMixed mode w.mode = false := by
    intro m v known serves y w other there serves'
    refine (fits v known m serves).1 w (h.indexed.mem_workersFor_iff.mpr ⟨y, there, serves'⟩) ?_
    rw [h.indexed.ids y w there]
    exact other
  refine ⟨h.indexed.setMode, ?_, ?_, ?_⟩
  · intro m x y v w hx hy hv hw
    obtain ⟨v', oldx, models, -, modev⟩ := setMode_byId hx
    obtain ⟨w', oldy, models', -, modew⟩ := setMode_byId hy
    rw [models] at hv
    rw [models'] at hw
    rw [modev, modew]
    by_cases first : x = i
    · subst first
      by_cases second : y = x
      · rw [if_pos rfl, if_pos second]
        exact modesAreMixed_self mode
      · rw [if_pos rfl, if_neg second]
        exact against m v' oldx hv y w' second oldy hw
    · by_cases second : y = i
      · subst second
        rw [if_neg first, if_pos rfl, modesAreMixed_comm]
        exact against m w' oldy hw x v' first oldx hv
      · rw [if_neg first, if_neg second]
        exact h.apart m x y v' w' oldx oldy hv hw
  · intro x u there
    have known := h.placed x u there
    refine ⟨known.spec, known.lock, ?_, ?_, ?_⟩
    · intro spec inside m hm y v left serves other
      obtain ⟨v', old, models, -, modev⟩ := setMode_byId left
      rw [models] at serves
      rw [modev]
      by_cases changed : y = i
      · subst changed
        rw [if_pos rfl, modesAreMixed_comm]
        exact .inl ((fits v' old m serves).2 x u spec there inside hm)
      · rw [if_neg changed]
        exact known.checked spec inside m hm y v' old serves other
    · exact fun spec stage => setMode_byId_none.mpr (known.gone spec stage)
    · intro spec stage m hm
      rw [setMode_byModel]
      exact known.entered spec stage m hm
  · intro x m unknown listed
    have before := setMode_byId_none.mp unknown
    rw [setMode_byModel] at listed
    exact h.bare x m before listed

theorem Sound.step (step : Step Compatible s s') : s'.Sound := by
  cases step with
  | added spec idle =>
    exact h.moveOutside (by simp [idle]) (by simp [Task.spec, Task.critical])
  | fetched id spec info waits =>
    refine h.moveOutside (by simp [waits, Task.critical]) ?_
    rintro t ⟨⟩
    exact ⟨(resolve_id spec info).trans (h.placed id _ waits).spec, rfl⟩
  | acquired id spec waits free => exact h.acquire waits free
  | proceeded id t here next => exact h.proceed here next
  | subscribed id spec waits =>
    exact h.moveOutside (by simp [waits, Task.critical]) (by simp)
  | removed id idle free => exact h.removed idle free
  | modeChanged id mode idle ok => exact h.modeChanged idle ok

end

theorem sound_of_reaches (run : Reaches Compatible s) : s.Sound := by
  induction run with
  | start =>
    refine ⟨⟨?_, ?_⟩, ?_, ?_, ?_⟩
    · rintro x w ⟨⟩
    · rintro x w m ⟨⟩
    · rintro m x y v w ⟨⟩
    · rintro i t ⟨⟩
    · intro x m _ listed
      cases listed
  | step _ step ih => exact ih.step step

/-- In every run whose mode changes are all compatible no model ever has a mixed pool. -/
theorem pools_unmixed_of_compatible (run : Reaches Compatible s) : s.registry.Unmixed :=
  (sound_of_reaches run).unmixed

def firstWorker : WorkerSpec := { id := "a", url := "http://a", mode := .prefill, modelIds := ["m"] }

def secondWorker : WorkerSpec := { id := "b", url := "http://b", mode := .decode, modelIds := ["m"] }

def bothWorkers : WorkerRegistry :=
  (((({} : WorkerRegistry).enlist firstWorker).insert firstWorker).enlist secondWorker).insert
    secondWorker

theorem reaches_bothWorkers (allowed : Manager → WorkerId → WorkerMode → Prop) :
    Reaches allowed { registry := bothWorkers } := by
  have run := (Reaches.start : Reaches allowed {})
    |>.step (.added firstWorker rfl)
    |>.step (.fetched "a" firstWorker {} rfl)
    |>.step (.acquired "a" firstWorker rfl rfl)
    |>.step (.proceeded "a" _ rfl rfl)
    |>.step (.proceeded "a" _ rfl rfl)
    |>.step (.proceeded "a" _ rfl rfl)
    |>.step (.proceeded "a" _ rfl rfl)
    |>.step (.proceeded "a" _ rfl rfl)
    |>.step (.subscribed "a" firstWorker rfl)
    |>.step (.added secondWorker rfl)
    |>.step (.fetched "b" secondWorker {} rfl)
    |>.step (.acquired "b" secondWorker rfl rfl)
    |>.step (.proceeded "b" _ rfl rfl)
    |>.step (.proceeded "b" _ rfl rfl)
    |>.step (.proceeded "b" _ rfl rfl)
    |>.step (.proceeded "b" _ rfl rfl)
    |>.step (.proceeded "b" _ rfl rfl)
    |>.step (.proceeded "b" _ rfl rfl)
    |>.step (.subscribed "b" secondWorker rfl)
  convert run using 2
  · rfl
  · funext x
    by_cases first : x = "a"
    · subst first
      rfl
    · simp [withTask, firstWorker, secondWorker]
  · rfl

theorem decode_pair_unmixed : (bothWorkers.setMode "a" .decode).Unmixed := by
  have fits : Compatible { registry := bothWorkers } "a" .decode := by
    rintro w ⟨⟩ m serves
    obtain rfl : m = "m" := by simpa [firstWorker] using serves
    constructor
    · decide
    · rintro i t spec ⟨⟩
  exact pools_unmixed_of_compatible
    ((reaches_bothWorkers Compatible).step (.modeChanged "a" .decode rfl fits))

/-- A prefill and a decode worker serve one model, and one of them is announced as plain. -/
theorem mode_change_mixes_pool :
    ∃ s : Manager, Reaches (fun _ _ _ => True) s ∧ ¬ s.registry.Unmixed := by
  refine ⟨_, (reaches_bothWorkers _).step (.modeChanged "b" .plain rfl trivial), ?_⟩
  intro unmixed
  have clash := unmixed "m" firstWorker (by decide) { secondWorker with mode := .plain }
    (by decide)
  cases clash

end Manager

end RedKnot.Router
