import Mathlib.Tactic

/-! `WorkerRegistry` of the model gateway (`core/worker_registry.rs`) against one list of the
registered workers. Health, metrics and the mesh are left out. -/

namespace RedKnot.Gateway

open List Option

inductive WorkerType where
  | regular
  | prefill (bootstrapPort : Option Nat)
  | decode
deriving DecidableEq, Repr

inductive ConnectionMode where
  | http
  | grpc (port : Option Nat)
deriving DecidableEq, Repr

abbrev WorkerId := String

/-- A worker object; `object` tells objects with equal attributes apart. -/
structure Worker where
  url : String
  modelId : String
  workerType : WorkerType
  connectionMode : ConnectionMode
  object : Nat
deriving DecidableEq, Repr

def virtualNodesPerWorker : Nat := 150

/-- `position` is the hash of a URL with the number of a virtual node; `sort` is
`sort_unstable_by_key`, with any order of equal positions. -/
structure RingBuilder where
  position : String → Nat → Nat
  sort : List (Nat × String) → List (Nat × String)
  sort_perm : ∀ entries, (sort entries).Perm entries

namespace RingBuilder

def virtualNodes (b : RingBuilder) (w : Worker) : List (Nat × String) :=
  (range virtualNodesPerWorker).map (fun vnode => (b.position w.url vnode, w.url))

def hashRing (b : RingBuilder) (workers : List Worker) : List (Nat × String) :=
  b.sort (workers.flatMap b.virtualNodes)

end RingBuilder

structure Registry where
  workers : WorkerId → Option Worker := fun _ => none
  modelIndex : String → Option (List Worker) := fun _ => none
  hashRings : String → Option (List (Nat × String)) := fun _ => none
  typeWorkers : WorkerType → Option (List WorkerId) := fun _ => none
  connectionWorkers : ConnectionMode → Option (List WorkerId) := fun _ => none
  urlToId : String → Option WorkerId := fun _ => none

open Registry

section Maps

variable {K α : Type} [DecidableEq K]

def setKey (m : K → Option α) (k : K) (v : Option α) : K → Option α :=
  fun k' => if k' = k then v else m k'

/-- `entry(k).or_default().push(x)` -/
def push (m : K → Option (List α)) (k : K) (x : α) : K → Option (List α) :=
  setKey m k (some ((m k).getD [] ++ [x]))

/-- `if let Some(mut l) = get_mut(k) { l.retain(keep) }` -/
def retain (m : K → Option (List α)) (k : K) (keep : α → Bool) : K → Option (List α) :=
  setKey m k ((m k).map (filter keep))

end Maps

namespace Registry

variable (b : RingBuilder)

def rebuildHashRing (r : Registry) (modelId : String) : Registry :=
  { r with hashRings := setKey r.hashRings modelId ((r.modelIndex modelId).map b.hashRing) }

/-- `uuid` is the id that `WorkerId::new` makes. -/
def register (r : Registry) (worker : Worker) (uuid : WorkerId) : Registry :=
  let workerId := (r.urlToId worker.url).getD uuid
  let r := { r with workers := setKey r.workers workerId (some worker) }
  let r := { r with urlToId := setKey r.urlToId worker.url (some workerId) }
  let r := { r with modelIndex := push r.modelIndex worker.modelId worker }
  let r := r.rebuildHashRing b worker.modelId
  let r := { r with typeWorkers := push r.typeWorkers worker.workerType workerId }
  { r with connectionWorkers := push r.connectionWorkers worker.connectionMode workerId }

def remove (r : Registry) (workerId : WorkerId) : Registry :=
  match r.workers workerId with
  | none => r
  | some worker =>
    let r := { r with workers := setKey r.workers workerId none }
    let r := { r with urlToId := setKey r.urlToId worker.url none }
    let r := { r with
      modelIndex := retain r.modelIndex worker.modelId (fun w => w.url ≠ worker.url) }
    let r := r.rebuildHashRing b worker.modelId
    let r := { r with
      typeWorkers := retain r.typeWorkers worker.workerType (fun id => id ≠ workerId) }
    { r with
      connectionWorkers := retain r.connectionWorkers worker.connectionMode
        (fun id => id ≠ workerId) }

def removeByUrl (r : Registry) (url : String) : Registry :=
  match r.urlToId url with
  | none => r
  | some workerId => remove b { r with urlToId := setKey r.urlToId url none } workerId

def getByModel (r : Registry) (modelId : String) : List Worker := (r.modelIndex modelId).getD []

def getByType (r : Registry) (workerType : WorkerType) : List Worker :=
  ((r.typeWorkers workerType).map (filterMap r.workers)).getD []

def getByConnection (r : Registry) (connectionMode : ConnectionMode) : List Worker :=
  ((r.connectionWorkers connectionMode).map (filterMap r.workers)).getD []

def getHashRing (r : Registry) (modelId : String) : Option (List (Nat × String)) :=
  r.hashRings modelId

end Registry

inductive Op where
  | register (worker : Worker) (uuid : WorkerId)
  | remove (workerId : WorkerId)
  | removeByUrl (url : String)

def Registry.exec (b : RingBuilder) (r : Registry) : Op → Registry
  | .register worker uuid => r.register b worker uuid
  | .remove workerId => r.remove b workerId
  | .removeByUrl url => r.removeByUrl b url

structure Entry where
  id : WorkerId
  worker : Worker
deriving DecidableEq, Repr

/-- What the calls mean: a URL has one worker, the last that was registered for it, and keeps its
id until it is removed. -/
def track (live : List Entry) : Op → List Entry
  | .register worker uuid =>
    live.filter (fun e => e.worker.url ≠ worker.url) ++
      [⟨((live.find? (fun e => e.worker.url = worker.url)).map Entry.id).getD uuid, worker⟩]
  | .remove workerId => live.filter (fun e => e.id ≠ workerId)
  | .removeByUrl url => live.filter (fun e => e.worker.url ≠ url)

def Unique (live : List Entry) : Op → Prop
  | .register _ uuid => ∀ e ∈ live, e.id ≠ uuid
  | _ => True

inductive Reaches (b : RingBuilder) (ok : List Entry → Op → Prop) : Registry → List Entry → Prop
  | start : Reaches b ok {} []
  | step {r : Registry} {live : List Entry} (op : Op) : Reaches b ok r live → Unique live op →
      ok live op → Reaches b ok (r.exec b op) (track live op)

structure Agrees (b : RingBuilder) (r : Registry) (live : List Entry) : Prop where
  byModel : ∀ m, (r.getByModel m).Perm
    ((live.filter (fun e => e.worker.modelId = m)).map Entry.worker)
  byType : ∀ t, (r.getByType t).Perm
    ((live.filter (fun e => e.worker.workerType = t)).map Entry.worker)
  byConnection : ∀ c, (r.getByConnection c).Perm
    ((live.filter (fun e => e.worker.connectionMode = c)).map Entry.worker)
  urlToId : ∀ url id, r.urlToId url = some id ↔ ∃ e ∈ live, e.id = id ∧ e.worker.url = url
  oneId : ∀ e ∈ live, ∀ e' ∈ live, e.id = e'.id ↔ e.worker.url = e'.worker.url
  once : live.Nodup
  rings : ∀ m, ((r.getHashRing m).getD []).Perm
    ((live.filter (fun e => e.worker.modelId = m)).flatMap (fun e => b.virtualNodes e.worker))

def NewUrl (live : List Entry) : Op → Prop
  | .register worker _ => ∀ e ∈ live, e.worker.url ≠ worker.url
  | _ => True

instance (live : List Entry) (op : Op) : Decidable (NewUrl live op) := by
  cases op <;> unfold NewUrl <;> infer_instance

section Maps

variable {K α : Type} [DecidableEq K]

theorem setKey_same (m : K → Option α) (k : K) (v : Option α) : setKey m k v k = v := if_pos rfl

theorem setKey_other (m : K → Option α) {k k' : K} (v : Option α) (h : k' ≠ k) :
    setKey m k v k' = m k' := if_neg h

section

variable (m : K → Option (List α)) (k k' : K)

theorem push_getD (x : α) :
    (push m k x k').getD [] = (m k').getD [] ++ if k = k' then [x] else [] := by
  by_cases same : k' = k
  · subst same
    simp [push, setKey_same]
  · simp [push, setKey_other _ _ same, Ne.symm same]

theorem retain_getD (keep : α → Bool) :
    (retain m k keep k').getD [] = if k = k' then ((m k').getD []).filter keep else (m k').getD
      [] := by
  by_cases same : k' = k
  · subst same
    cases h : m k' <;> simp [retain, setKey_same, h]
  · simp [retain, setKey_other _ _ same, Ne.symm same]

end

end Maps

def having {K : Type} [DecidableEq K] (key : Worker → K) (live : List Entry) (k : K) : List Entry :=
  live.filter (fun e => key e.worker = k)

section

variable {K : Type} [DecidableEq K] (key : Worker → K)

theorem having_append (live : List Entry) (e : Entry) (k : K) : having key (live ++ [e]) k =
      having key live k ++ if key e.worker = k then [e] else [] := by
  by_cases same : key e.worker = k <;> simp [having, same]

theorem having_filter {live : List Entry} {e : Entry}
    {keep : Entry → Bool} (only : ∀ e' ∈ live, keep e' = false → e' = e) (k : K) :
    having key (live.filter keep) k =
      if key e.worker = k then (having key live k).filter keep else having key live k := by
  unfold having
  split
  · rw [filter_comm]
  · next other =>
    rw [filter_comm]
    refine filter_eq_self.mpr fun e' mem => ?_
    obtain ⟨member, same⟩ := mem_filter.mp mem
    by_contra dropped
    rw [only e' member (by simpa using dropped)] at same
    exact other (by simpa using same)

end

structure Inv (b : RingBuilder) (r : Registry) (live : List Entry) : Prop where
  workers : ∀ id w, r.workers id = some w ↔ (⟨id, w⟩ : Entry) ∈ live
  urls : ∀ url id, r.urlToId url = some id ↔ ∃ e ∈ live, e.id = id ∧ e.worker.url = url
  models : ∀ m, (r.modelIndex m).getD [] = (having Worker.modelId live m).map Entry.worker
  types : ∀ t, (r.typeWorkers t).getD [] = (having Worker.workerType live t).map Entry.id
  connections : ∀ c, (r.connectionWorkers c).getD [] =
    (having Worker.connectionMode live c).map Entry.id
  rings : ∀ m, r.hashRings m = (r.modelIndex m).map b.hashRing
  ids : (live.map Entry.id).Nodup
  distinct : (live.map (fun e => e.worker.url)).Nodup

namespace Inv

variable {b : RingBuilder} {r : Registry} {live : List Entry}

theorem start (b : RingBuilder) : Inv b {} [] where
  workers _ _ := by simp
  urls _ _ := by simp
  models _ := rfl
  types _ := rfl
  connections _ := rfl
  rings _ := rfl
  ids := nodup_nil
  distinct := nodup_nil

section

variable (inv : Inv b r live)
include inv

theorem eq_of_id {e e' : Entry} (h : e ∈ live) (h' : e' ∈ live)
    (same : e.id = e'.id) : e = e' := inj_on_of_nodup_map inv.ids h h' same

theorem eq_of_url {e e' : Entry} (h : e ∈ live) (h' : e' ∈ live)
    (same : e.worker.url = e'.worker.url) : e = e' :=
  inj_on_of_nodup_map (f := fun e : Entry => e.worker.url) inv.distinct h h' same

theorem url_ne_iff {e : Entry} (mem : e ∈ live) :
    ∀ e' ∈ live, (e'.worker.url ≠ e.worker.url ↔ e'.id ≠ e.id) := fun _ mem' =>
  not_congr ⟨fun same => congrArg Entry.id (inv.eq_of_url mem' mem same),
    fun same => congrArg (fun e : Entry => e.worker.url) (inv.eq_of_id mem' mem same)⟩

theorem register {worker : Worker} {uuid : WorkerId}
    (fresh : ∀ e ∈ live, e.id ≠ uuid) (new : ∀ e ∈ live, e.worker.url ≠ worker.url) :
    Inv b (r.register b worker uuid) (live ++ [⟨uuid, worker⟩]) := by
  have unknown : r.urlToId worker.url = none := by
    cases h : r.urlToId worker.url with
    | none => rfl
    | some id =>
      obtain ⟨e, mem, -, same⟩ := (inv.urls _ _).mp h
      exact absurd same (new e mem)
  unfold Registry.register Registry.rebuildHashRing
  rw [unknown, getD_none]
  constructor
  case workers =>
    intro id w
    rw [mem_append, mem_singleton, Entry.mk.injEq]
    by_cases same : id = uuid
    · subst same
      have absent : (⟨id, w⟩ : Entry) ∉ live := fun mem => fresh _ mem rfl
      simp [setKey_same, absent, eq_comm]
    · simp [setKey_other _ _ same, same, inv.workers]
  case urls =>
    intro url id
    dsimp only
    by_cases same : url = worker.url
    · subst same
      rw [setKey_same, Option.some.injEq]
      constructor
      · rintro rfl
        exact ⟨⟨uuid, worker⟩, by simp, rfl, rfl⟩
      · rintro ⟨e, mem, rfl, same⟩
        rcases mem_append.mp mem with old | last
        · exact absurd same (new e old)
        · rw [mem_singleton.mp last]
    · rw [setKey_other _ _ same, inv.urls]
      constructor
      · rintro ⟨e, mem, rest⟩
        exact ⟨e, mem_append_left _ mem, rest⟩
      · rintro ⟨e, mem, rfl, rfl⟩
        rcases mem_append.mp mem with old | last
        · exact ⟨e, old, rfl, rfl⟩
        · rw [mem_singleton.mp last] at same
          exact absurd rfl same
  case models =>
    intro m
    rw [push_getD, inv.models, having_append, map_append]
    by_cases same : worker.modelId = m <;> simp [same]
  case types =>
    intro t
    dsimp only
    rw [push_getD, inv.types, having_append, map_append]
    by_cases same : worker.workerType = t <;> simp [same]
  case connections =>
    intro c
    dsimp only
    rw [push_getD, inv.connections, having_append, map_append]
    by_cases same : worker.connectionMode = c <;> simp [same]
  case rings =>
    intro m
    dsimp only
    by_cases same : m = worker.modelId
    · subst same
      rw [setKey_same]
    · rw [setKey_other _ _ same, push, setKey_other _ _ same, inv.rings]
  case ids =>
    rw [map_append, map_singleton]
    refine Nodup.append inv.ids (nodup_singleton _) fun id mem last => ?_
    obtain ⟨e, member, rfl⟩ := List.mem_map.mp mem
    exact fresh e member (mem_singleton.mp last)
  case distinct =>
    rw [map_append, map_singleton]
    refine Nodup.append inv.distinct (nodup_singleton _) fun url mem last => ?_
    obtain ⟨e, member, rfl⟩ := List.mem_map.mp mem
    exact new e member (mem_singleton.mp last)

theorem removeEntry {e : Entry} (mem : e ∈ live) {urlToId : String → Option WorkerId}
    (mapped : ∀ url, url ≠ e.worker.url → urlToId url = r.urlToId url) :
    Inv b (remove b { r with urlToId := urlToId } e.id)
      (live.filter (fun e' => e'.id ≠ e.id)) := by
  have only : ∀ e' ∈ live, decide (e'.id ≠ e.id) = false → e' = e := fun e' mem' dropped =>
    inv.eq_of_id mem' mem (by simpa using dropped)
  have byUrl := inv.url_ne_iff mem
  have found : r.workers e.id = some e.worker := (inv.workers _ _).mpr mem
  unfold remove Registry.rebuildHashRing
  simp only [found]
  constructor
  case workers =>
    intro id w
    rw [mem_filter]
    by_cases same : id = e.id
    · subst same
      simp [setKey_same]
    · simp [setKey_other _ _ same, same, inv.workers]
  case urls =>
    intro url id
    dsimp only
    by_cases same : url = e.worker.url
    · subst same
      rw [setKey_same]
      constructor
      · intro h
        cases h
      · rintro ⟨e', kept, -, same⟩
        obtain ⟨member, other⟩ := mem_filter.mp kept
        exact absurd same ((byUrl e' member).mpr (by simpa using other))
    · rw [setKey_other _ _ same, mapped url same, inv.urls]
      constructor
      · rintro ⟨e', member, rfl, rfl⟩
        exact ⟨e', mem_filter.mpr ⟨member, by simpa using (byUrl e' member).mp same⟩, rfl, rfl⟩
      · rintro ⟨e', kept, rest⟩
        exact ⟨e', (mem_filter.mp kept).1, rest⟩
  case models =>
    intro m
    rw [retain_getD, inv.models, having_filter _ only]
    split
    · rw [List.filter_map]
      refine congrArg _ (filter_congr fun e' member => ?_)
      exact decide_eq_decide.mpr (byUrl e' (mem_filter.mp member).1)
    · rfl
  case types =>
    intro t
    rw [retain_getD, inv.types, having_filter _ only]
    split
    · rw [List.filter_map]
      rfl
    · rfl
  case connections =>
    intro c
    dsimp only
    rw [retain_getD, inv.connections, having_filter _ only]
    split
    · rw [List.filter_map]
      rfl
    · rfl
  case rings =>
    intro m
    dsimp only
    by_cases same : m = e.worker.modelId
    · subst same
      rw [setKey_same]
    · rw [setKey_other _ _ same, retain, setKey_other _ _ same, inv.rings]
  case ids => exact inv.ids.sublist (filter_sublist.map _)
  case distinct => exact inv.distinct.sublist (filter_sublist.map _)

theorem exec {op : Op} (unique : Unique live op) (new : NewUrl live op) :
    Inv b (r.exec b op) (track live op) := by
  cases op with
  | register worker uuid =>
    have keeps : live.filter (fun e => e.worker.url ≠ worker.url) = live :=
      filter_eq_self.mpr fun e mem => decide_eq_true (new e mem)
    have unknown : live.find? (fun e => e.worker.url = worker.url) = none :=
      find?_eq_none.mpr fun e mem => by simpa using new e mem
    rw [track, keeps, unknown]
    exact inv.register unique new
  | remove workerId =>
    rw [track, Registry.exec]
    by_cases known : ∃ e ∈ live, e.id = workerId
    · obtain ⟨e, mem, rfl⟩ := known
      exact inv.removeEntry mem fun _ _ => rfl
    · have absent : r.workers workerId = none := by
        cases h : r.workers workerId with
        | none => rfl
        | some w => exact absurd ⟨_, (inv.workers _ _).mp h, rfl⟩ known
      have keeps : live.filter (fun e => e.id ≠ workerId) = live :=
        filter_eq_self.mpr fun e mem => decide_eq_true fun same => known ⟨e, mem, same⟩
      rw [keeps, remove, absent]
      exact inv
  | removeByUrl url =>
    rw [track, Registry.exec, Registry.removeByUrl]
    cases h : r.urlToId url with
    | none =>
      have keeps : live.filter (fun e => e.worker.url ≠ url) = live := by
        refine filter_eq_self.mpr fun e mem => decide_eq_true fun same => ?_
        have mapped := (inv.urls url e.id).mpr ⟨e, mem, rfl, same⟩
        rw [h] at mapped
        cases mapped
      rw [keeps]
      exact inv
    | some workerId =>
      obtain ⟨e, mem, rfl, rfl⟩ := (inv.urls _ _).mp h
      have same : live.filter (fun e' => e'.worker.url ≠ e.worker.url) =
          live.filter (fun e' => e'.id ≠ e.id) :=
        filter_congr fun e' mem' => decide_eq_decide.mpr (inv.url_ne_iff mem e' mem')
      rw [same]
      exact inv.removeEntry mem fun url other => setKey_other _ _ other

theorem filterMap_workers {entries : List Entry} (sub : entries ⊆ live) :
    (entries.map Entry.id).filterMap r.workers = entries.map Entry.worker := by
  rw [filterMap_map, ← filterMap_eq_map]
  refine filterMap_congr fun e mem => ?_
  exact (inv.workers _ _).mpr (sub mem)

theorem lookup {index : Option (List WorkerId)} {entries : List Entry}
    (sub : entries ⊆ live) (ids : index.getD [] = entries.map Entry.id) :
    (index.map (filterMap r.workers)).getD [] = entries.map Entry.worker := by
  rw [← inv.filterMap_workers sub, ← ids]
  cases index <;> rfl

theorem agrees : Agrees b r live where
  byModel m := by
    rw [getByModel, inv.models]
    rfl
  byType t := .of_eq (inv.lookup (filter_sublist.subset) (inv.types t))
  byConnection c := .of_eq (inv.lookup (filter_sublist.subset) (inv.connections c))
  urlToId := inv.urls
  oneId e mem e' mem' := ⟨fun same => congrArg (fun e : Entry => e.worker.url)
    (inv.eq_of_id mem mem' same), fun same => congrArg Entry.id (inv.eq_of_url mem mem' same)⟩
  once := inv.ids.of_map _
  rings m := by
    have models := inv.models m
    rw [getHashRing, inv.rings]
    cases h : r.modelIndex m with
    | none =>
      rw [h, getD_none, eq_comm, map_eq_nil_iff] at models
      rw [having] at models
      rw [models]
      rfl
    | some l =>
      rw [h, getD_some] at models
      rw [map_some, getD_some, RingBuilder.hashRing, models]
      refine (b.sort_perm _).trans ?_
      rw [flatMap_map]
      rfl

end

end Inv

/-- In every sequence of calls in which no URL is registered while it is registered, the indexes
agree. -/
theorem registry_agrees (b : RingBuilder) {r : Registry} {live : List Entry}
    (run : Reaches b NewUrl r live) : Agrees b r live := by
  suffices inv : Inv b r live from inv.agrees
  induction run with
  | start => exact .start b
  | step op _ unique new inv => exact inv.exec unique new

def plainBuilder : RingBuilder := ⟨fun _ vnode => vnode, id, fun _ => .refl _⟩

theorem registry_agrees_two : ∃ r live, Reaches plainBuilder NewUrl r live ∧ live.length = 1 ∧
      Agrees plainBuilder r live := by
  have run := ((Reaches.start : Reaches plainBuilder NewUrl {} []).step
    (.register ⟨"u", "m", .regular, .http, 0⟩ "a") (by simp [Unique]) (by simp [NewUrl])).step
    (.register ⟨"v", "m", .decode, .http, 1⟩ "b") (by simp [Unique, track])
    (by simp [NewUrl, track])
  have run := run.step (.removeByUrl "u") trivial trivial
  exact ⟨_, _, run, by simp [track], registry_agrees plainBuilder run⟩

/-- A URL that is registered again is in the index of its model twice, with the old object. -/
theorem registry_keeps_replaced : ∃ r live, Reaches plainBuilder (fun _ _ => True) r live ∧
      live = [⟨"a", ⟨"u", "m", .regular, .http, 1⟩⟩] ∧
      r.getByModel "m" = [⟨"u", "m", .regular, .http, 0⟩, ⟨"u", "m", .regular, .http, 1⟩] ∧
      ¬ Agrees plainBuilder r live := by
  have run := ((Reaches.start : Reaches plainBuilder (fun _ _ => True) {} []).step
    (.register ⟨"u", "m", .regular, .http, 0⟩ "a") (by simp [Unique]) trivial).step
    (.register ⟨"u", "m", .regular, .http, 1⟩ "b") (by simp [Unique, track]) trivial
  refine ⟨_, _, run, by decide, by decide, fun agrees => ?_⟩
  have count := (agrees.byModel "m").length_eq
  exact absurd count (by decide)

end RedKnot.Gateway
