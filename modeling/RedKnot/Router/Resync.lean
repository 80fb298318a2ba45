import RedKnot.Router.FleetRuns

/-! A full listing of slices that have not changed. -/

namespace RedKnot.Router.Discovery

open List Option Fleet Watch

variable {mode : K8sDiscoveryMode} {slices : List EndpointSlice} {it : Order}

namespace Watch

/-- `process_events`: the state after the events, and what was sent. -/
def process (mode : K8sDiscoveryMode) (w : Watch) :
    List (Order × WatchEvent) → Watch × List DiscoveryEvent
  | [] => (w, [])
  | (it, e) :: rest =>
    let now := w.handle mode it e
    let later := process mode now.1 rest
    (later.1, now.2 ++ later.2)

theorem Sound.process (mode : K8sDiscoveryMode) (events : List (Order × WatchEvent)) {w : Watch}
    (sound : w.Sound) : (w.process mode events).1.Sound := by
  induction events generalizing w with
  | nil => exact sound
  | cons e events ih => exact ih (turns_handle sound mode e.1 e.2).sound

end Watch

/-- The map holds the workers of exactly these slices. -/
def Lists (mode : K8sDiscoveryMode) (slices : List EndpointSlice) (perSlice : Slices) : Prop :=
  ∀ key ws, perSlice.lookup key = some ws ↔
    ∃ es ∈ slices, sliceKey es = key ∧ workersForSlice mode es = ws

/-- Slices that list one id list it with one address and one mode. -/
def Agree (mode : K8sDiscoveryMode) (slices : List EndpointSlice) : Prop :=
  ∀ es ∈ slices, ∀ es' ∈ slices, ∀ i p q, (workersForSlice mode es).lookup i = some p →
    (workersForSlice mode es').lookup i = some q → p = q

def OneEach (mode : K8sDiscoveryMode) (slices : List EndpointSlice) : Prop :=
  ∀ es ∈ slices, ∀ es' ∈ slices, sliceKey es = sliceKey es' →
    workersForSlice mode es = workersForSlice mode es'

theorem Lists.oneEach {perSlice : Slices} (lists : Lists mode slices perSlice) :
    OneEach mode slices := by
  intro es member es' member' key
  have held := (lists _ _).mpr ⟨es, member, key, rfl⟩
  exact some.inj (held.symm.trans ((lists _ _).mpr ⟨es', member', rfl, rfl⟩))

theorem lookup_iff_of {β : Type} {m : AList fun _ : String => β} {i : String} {x : β}
    {P : β → Prop} (sound : ∀ y, m.lookup i = some y → P y) (known : P x → m.lookup i ≠ none)
    (one : ∀ y, P y → P x → y = x) : m.lookup i = some x ↔ P x := by
  refine ⟨sound x, fun holds => ?_⟩
  obtain ⟨y, there⟩ := ne_none_iff_exists'.mp (known holds)
  rw [there, one y (sound y there) holds]

theorem lookup_union_iff {union : Workers} {perSlice : Slices} (unites : Unites union perSlice)
    (lists : Lists mode slices perSlice) (agree : Agree mode slices) {i : WorkerId}
    {spec : WorkerSpec} : union.lookup i = some spec ↔
      ∃ es ∈ slices, (workersForSlice mode es).lookup i = some spec := by
  apply lookup_iff_of
  · intro p there
    obtain ⟨key, ws, listed, inner⟩ := unites.sound i p there
    obtain ⟨es, member, -, rfl⟩ := (lists key ws).mp listed
    exact ⟨es, member, inner⟩
  · rintro ⟨es, member, inner⟩
    exact unites.complete _ _ i spec ((lists _ _).mpr ⟨es, member, rfl, rfl⟩) inner
  · rintro p ⟨es', member', inner'⟩ ⟨es, member, inner⟩
    exact agree es' member' es member i p spec inner' inner

theorem emitDiff_silent {perSlice : Slices} {prev : Workers}
    (same : ∀ i, (unionOf it perSlice).lookup i = prev.lookup i) :
    (emitDiff it perSlice prev).1 = [] := by
  refine append_eq_nil_iff.mpr ⟨flatMap_eq_nil_iff.mpr fun e member => ?_, ?_⟩
  · have there := AList.mem_lookup_iff.mpr ((it.perm _).mem_iff.mp member)
    rw [same] at there
    simp [changes, mem_def.mp there]
  · refine map_eq_nil_iff.mpr (filter_eq_nil_iff.mpr fun i member => ?_)
    have known := AList.mem_keys.mpr ((it.perm _).mem_iff.mp member)
    rw [← AList.lookup_isSome, ← same, AList.lookup_isSome] at known
    simpa using AList.mem_keys.mp known

def buffered (mode : K8sDiscoveryMode) (slices : List EndpointSlice) (buf : Slices) : Slices :=
  (slices.map fun es => (⟨sliceKey es, workersForSlice mode es⟩ : Sigma fun _ => Workers)).foldl
    (fun buf e => buf.insert e.1 e.2) buf

theorem lists_buffered {listed : List EndpointSlice} (each : OneEach mode slices)
    (same : ∀ es, es ∈ listed ↔ es ∈ slices) : Lists mode slices (buffered mode listed ∅) := by
  intro key ws
  apply lookup_iff_of
  · intro ws there
    rcases lookup_foldl_insert _ there with member | no
    · obtain ⟨es, listed, entry⟩ := mem_map.mp member
      cases entry
      exact ⟨es, (same es).mp listed, rfl, rfl⟩
    · cases no
  · rintro ⟨es, member, rfl, -⟩
    exact lookup_foldl_ne_none _ (.inl ⟨_, mem_map.mpr ⟨es, (same es).mpr member, rfl⟩⟩)
  · rintro _ ⟨es', member', key', rfl⟩ ⟨es, member, rfl, rfl⟩
    exact each es' member' es member key'

theorem process_listed {w : Watch} {buf : Slices} (buffer : w.initBuffer = some buf)
    (listed : List EndpointSlice) :
    (w.process mode (listed.map (fun es => (it, .initApply es)) ++ [(it, .initDone)])).2 =
      (emitDiff it (buffered mode listed buf) w.prevUnion).1 := by
  induction listed generalizing w buf with
  | nil => simp [process, handle, buffer, emit, buffered]
  | cons es listed ih =>
    simp only [map_cons, cons_append, process, handle, buffer]
    exact ih rfl

def listing (it : Order) (slices : List EndpointSlice) : List (Order × WatchEvent) :=
  (it, .init) :: (slices.map (fun es => (it, .initApply es)) ++ [(it, .initDone)])

/-- A listing of the slices that were handled, in any order, sends nothing if they agree. -/
theorem resync_silent (history : List (Order × WatchEvent))
    (lists : Lists mode slices (process mode {} history).1.perSlice)
    (agree : Agree mode slices) (it : Order) (listed : List EndpointSlice)
    (same : ∀ es, es ∈ listed ↔ es ∈ slices) :
    ((process mode {} history).1.process mode (listing it listed)).2 = [] := by
  have start : Sound {} := ⟨⟨nofun, nofun⟩, nofun, nofun⟩
  refine (process_listed rfl listed).trans (emitDiff_silent fun i => Option.ext fun spec => ?_)
  exact (lookup_union_iff (unites_unionOf it _) (lists_buffered lists.oneEach same) agree).trans
    (lookup_union_iff (start.process mode history).unites lists agree).symm

def addressSlice (uid address : String) : EndpointSlice where
  uid := some uid
  endpoints := [{ uid := some "pod", addresses := [address] }]

theorem shared_pod_resync : ((process .plain {} [(asListed, .apply (addressSlice "s" "1")),
    (asListed, .apply (addressSlice "t" "1"))]).1.process .plain
      (listing asListed [addressSlice "t" "1", addressSlice "s" "1"])).2 = [] := by
  have same : ∀ es ∈ [addressSlice "s" "1", addressSlice "t" "1"],
      workersForSlice .plain es = workersForSlice .plain (addressSlice "s" "1") := by
    simp only [mem_cons, not_mem_nil, or_false]
    rintro es (rfl | rfl) <;> rfl
  have lists := lists_buffered (fun es here es' there _ => (same es here).trans (same es' there).symm)
    fun es => Iff.refl (es ∈ [addressSlice "s" "1", addressSlice "t" "1"])
  refine resync_silent _ lists ?_ asListed _ fun _ => by simp [or_comm]
  intro es here es' there i p q at_p at_q
  rw [same es here] at at_p
  rw [same es' there] at at_q
  exact some.inj (at_p.symm.trans at_q)

/-- Two slices list one pod with two addresses and are listed again in the other order. -/
theorem resync_moves_pod : ((process .plain {} [(asListed, .apply (addressSlice "s" "1")),
    (asListed, .apply (addressSlice "t" "2"))]).1.process .plain
      (listing asListed [addressSlice "t" "2", addressSlice "s" "1"])).2.length = 2 := by
  decide

end RedKnot.Router.Discovery
