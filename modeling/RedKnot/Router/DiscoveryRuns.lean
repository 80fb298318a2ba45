import RedKnot.Router.Discovery

/-! The registry and the index follow the union of the slices as long as no two workers of
successive unions share an address. -/

namespace RedKnot.Router.Discovery

open Function List Option DiscoveryEvent Fleet AList

variable {prev union ws : Workers} {i id : WorkerId} {spec : WorkerSpec} {it : Order}

section

variable {α β : Type} [DecidableEq α] {i : α} {spec : β} (pairs : List (Sigma fun _ : α => β))

theorem lookup_foldl_insert :
    ∀ {ws : AList fun _ : α => β}, (pairs.foldl (fun ws e => ws.insert e.1 e.2) ws).lookup i = some spec →
    ⟨i, spec⟩ ∈ pairs ∨ ws.lookup i = some spec := by
  induction pairs with
  | nil => exact fun there => .inr there
  | cons e pairs ih =>
    intro ws there
    rcases ih there with later | now
    · exact .inl (mem_cons_of_mem _ later)
    · by_cases same : i = e.1
      · subst same
        rw [lookup_insert] at now
        cases now
        exact .inl mem_cons_self
      · exact .inr (by rwa [lookup_insert_ne same] at now)

theorem lookup_foldl_ne_none : ∀ {ws : AList fun _ : α => β},
    (∃ spec, ⟨i, spec⟩ ∈ pairs) ∨ ws.lookup i ≠ none →
    (pairs.foldl (fun ws e => ws.insert e.1 e.2) ws).lookup i ≠ none := by
  induction pairs with
  | nil =>
    rintro ws (⟨spec, no⟩ | there)
    · cases no
    · exact there
  | cons e pairs ih =>
    intro ws known
    refine ih ?_
    by_cases same : i = e.1
    · subst same
      exact .inr (by simp)
    · rcases known with ⟨spec, member⟩ | there
      · rcases mem_cons.mp member with rfl | later
        · exact absurd rfl same
        · exact .inl ⟨spec, later⟩
      · exact .inr (by rwa [lookup_insert_ne same])

end

section

variable {pairs : List (Sigma fun _ : WorkerId => WorkerSpec)}

theorem mem_of_lookup_collect (there : (collect pairs).lookup i = some spec) :
    ⟨i, spec⟩ ∈ pairs := by
  rcases lookup_foldl_insert pairs there with member | no
  · exact member
  · cases no

theorem lookup_collect_ne_none (spec : WorkerSpec)
    (member : ⟨i, spec⟩ ∈ pairs) : (collect pairs).lookup i ≠ none :=
  lookup_foldl_ne_none pairs (.inl ⟨spec, member⟩)

end

def Keyed (ws : Workers) : Prop := ∀ i spec, ws.lookup i = some spec → spec.id = i

theorem keyed_workersForSlice (mode : K8sDiscoveryMode) (es : EndpointSlice) :
    Keyed (workersForSlice mode es) := by
  intro i spec there
  unfold workersForSlice at there
  split at there
  · obtain ⟨w, -, same⟩ := List.mem_map.mp (mem_of_lookup_collect there)
    cases same
    rfl
  · cases there

structure Unites (union : Workers) (perSlice : Slices) : Prop where
  sound : ∀ i spec, union.lookup i = some spec →
    ∃ key slice, perSlice.lookup key = some slice ∧ slice.lookup i = some spec
  complete : ∀ key slice i spec, perSlice.lookup key = some slice → slice.lookup i = some spec →
    union.lookup i ≠ none

theorem unites_unionOf (it : Order) (perSlice : Slices) :
    Unites (unionOf it perSlice) perSlice where
  sound := by
    intro i spec there
    obtain ⟨s, listed, member⟩ := mem_flatMap.mp (mem_of_lookup_collect there)
    exact ⟨s.1, s.2, mem_lookup_iff.mpr ((it.perm _).mem_iff.mp listed),
      mem_lookup_iff.mpr ((it.perm _).mem_iff.mp member)⟩
  complete := by
    intro key slice i spec listed there
    refine lookup_collect_ne_none spec (mem_flatMap.mpr ⟨⟨key, slice⟩, ?_, ?_⟩)
    · exact (it.perm _).mem_iff.mpr (mem_lookup_iff.mp listed)
    · exact (it.perm _).mem_iff.mpr (mem_lookup_iff.mp there)

abbrev Urls := WorkerId → Option String

def urlsOf (ws : Workers) : Urls := fun i => (ws.lookup i).map WorkerSpec.url

def after (c : Urls) : DiscoveryEvent → Urls
  | .added spec => update c spec.id (some spec.url)
  | .removed id => update c id none
  | .modeChanged _ _ => c

def Distinct (c : Urls) : Prop := ∀ i j u, c i = some u → c j = some u → i = j

def Fits : List DiscoveryEvent → Urls → Prop
  | [], c => Distinct c
  | ev :: evs, c => Distinct c ∧ (∀ spec, ev = .added spec → c spec.id = none) ∧
      Fits evs (after c ev)

variable {c : Urls}

theorem Fits.distinct {evs : List DiscoveryEvent} (fits : Fits evs c) : Distinct c := by
  cases evs with
  | nil => exact fits
  | cons ev evs => exact fits.1

theorem fits_append {first second : List DiscoveryEvent} : ∀ {c : Urls}, Fits first c →
    Fits second (first.foldl after c) → Fits (first ++ second) c := by
  induction first with
  | nil => exact fun _ later => later
  | cons ev first ih =>
    rintro c ⟨distinct, absent, rest⟩ later
    exact ⟨distinct, absent, ih rest later⟩

def Within (prev union : Workers) (c : Urls) : Prop :=
  ∀ i u, c i = some u → ∃ p, (prev.lookup i = some p ∨ union.lookup i = some p) ∧ p.url = u

theorem Within.distinct (apart : Apart prev union) (within : Within prev union c) :
    Distinct c := by
  intro i j u hi hj
  obtain ⟨p, at_i, urlp⟩ := within i u hi
  obtain ⟨q, at_j, urlq⟩ := within j u hj
  exact apart i j p q at_i at_j (urlp.trans urlq.symm)

theorem Within.gone (within : Within prev union c) (i : WorkerId) :
    Within prev union (update c i none) := by
  intro j u hj
  by_cases same : j = i
  · subst same
    simp at hj
  · exact within j u (by rwa [update_of_ne same] at hj)

theorem Within.arrive (within : Within prev union c) (there : union.lookup i = some spec) :
    Within prev union (update c i (some spec.url)) := by
  intro j u hj
  by_cases same : j = i
  · subst same
    rw [update_self] at hj
    exact ⟨spec, .inr there, Option.some.inj hj⟩
  · exact within j u (by rwa [update_of_ne same] at hj)

section

variable (apart : Apart prev union)
include apart

theorem changes_spec (within : Within prev union c)
    (there : union.lookup i = some spec) (key : spec.id = i) (here : c i = urlsOf prev i) :
    Fits (changes prev ⟨i, spec⟩) c ∧
      (changes prev ⟨i, spec⟩).foldl after c = update c i (some spec.url) := by
  have now := within.arrive there
  unfold changes
  cases was : prev.lookup i with
  | none =>
    have absent : c i = none := by simp [here, urlsOf, was]
    subst key
    refine ⟨⟨within.distinct apart, ?_, now.distinct apart⟩, rfl⟩
    intro spec' same
    injection same with same
    subst same
    exact absent
  | some p =>
    have at_p : c i = some p.url := by simp [here, urlsOf, was]
    have mode : ∀ evs : List DiscoveryEvent, Fits evs c →
        Fits ((if p.mode ≠ spec.mode then [.modeChanged i spec.mode] else []) ++ evs) c ∧
        ((if p.mode ≠ spec.mode then [modeChanged i spec.mode] else []) ++
          evs).foldl after c = evs.foldl after c := by
      intro evs fits
      split
      · exact ⟨⟨within.distinct apart, by simp, fits⟩, rfl⟩
      · exact ⟨fits, rfl⟩
    by_cases moved : p.url ≠ spec.url ∨ p.modelIds ≠ spec.modelIds
    · simp only [moved, if_true]
      subst key
      have steps : Fits [.removed spec.id, .added spec] c := by
        refine ⟨within.distinct apart, by simp, (within.gone _).distinct apart, ?_, ?_⟩
        · intro spec' same
          injection same with same
          subst same
          simp [after]
        · simpa [after, Fits] using now.distinct apart
      refine ⟨(mode _ steps).1, (mode _ steps).2.trans ?_⟩
      simp [after]
    · simp only [moved, if_false]
      -- nothing but a change of mode is sent: the worker is already at its new URL
      have stays : p.url = spec.url := by
        by_contra differs
        exact moved (.inl differs)
      refine ⟨(mode [] (within.distinct apart)).1, (mode [] (within.distinct apart)).2.trans ?_⟩
      rw [← stays, ← at_p, update_eq_self]
      rfl

theorem walk_spec (keyed : Keyed union) (entries : List (Sigma fun _ : WorkerId => WorkerSpec)) :
    ∀ {c : Urls}, (entries.map Sigma.fst).Nodup → (∀ e ∈ entries, union.lookup e.1 = some e.2) →
    Within prev union c → (∀ e ∈ entries, c e.1 = urlsOf prev e.1) →
    Fits (entries.flatMap (changes prev)) c ∧
      Within prev union ((entries.flatMap (changes prev)).foldl after c) ∧
      ∀ j, (entries.flatMap (changes prev)).foldl after c j =
        if j ∈ entries.map Sigma.fst then urlsOf union j else c j := by
  induction entries with
  | nil =>
    intro c _ _ within _
    exact ⟨within.distinct apart, within, fun _ => by simp⟩
  | cons e entries ih =>
    intro c once listed within here
    obtain ⟨fresh, once⟩ := nodup_cons.mp once
    have there := listed e mem_cons_self
    obtain ⟨fits, lands⟩ :=
      changes_spec apart within there (keyed _ _ there) (here e mem_cons_self)
    have later : ∀ e' ∈ entries, update c e.1 (some e.2.url) e'.1 = urlsOf prev e'.1 := by
      intro e' member
      have other : e'.1 ≠ e.1 := fun same => fresh (same ▸ List.mem_map_of_mem member)
      rw [update_of_ne other]
      exact here e' (mem_cons_of_mem _ member)
    obtain ⟨fits', within', lands'⟩ :=
      ih once (fun e' member => listed e' (mem_cons_of_mem _ member))
      (within.arrive there) later
    rw [flatMap_cons, foldl_append, lands]
    refine ⟨fits_append fits (by rw [lands]; exact fits'), within', fun j => ?_⟩
    rw [lands' j]
    by_cases same : j = e.1
    · subst same
      simp [fresh, urlsOf, there]
    · simp only [update_of_ne same, map_cons, mem_cons, same, false_or]

theorem drop_spec (dropped : List WorkerId) :
    ∀ {c : Urls}, Within prev union c → Fits (dropped.map .removed) c ∧
      ∀ j, (dropped.map removed).foldl after c j =
        if j ∈ dropped then none else c j := by
  induction dropped with
  | nil => exact fun within => ⟨within.distinct apart, fun _ => by simp⟩
  | cons i dropped ih =>
    intro c within
    obtain ⟨fits, lands⟩ := ih (within.gone i)
    refine ⟨⟨within.distinct apart, by simp, fits⟩, fun j => ?_⟩
    refine (lands j).trans ?_
    by_cases same : j = i
    · subst same
      simp
    · simp [same]

end

theorem emitDiff_spec {perSlice : Slices} (apart : Apart prev (unionOf it perSlice))
    (keyed : Keyed (unionOf it perSlice)) :
    Fits (emitDiff it perSlice prev).1 (urlsOf prev) ∧
      (emitDiff it perSlice prev).1.foldl after (urlsOf prev) = urlsOf (unionOf it perSlice) := by
  have within : Within prev (unionOf it perSlice) (urlsOf prev) := by
    intro i u there
    obtain ⟨p, was, url⟩ := map_eq_some_iff.mp there
    exact ⟨p, .inl was, url⟩
  have perm := it.perm (unionOf it perSlice).entries
  have keys : ∀ j, j ∈ (it.list (unionOf it perSlice).entries).map Sigma.fst ↔
      j ∈ (unionOf it perSlice).keys :=
    fun j => (perm.map _).mem_iff
  obtain ⟨fits, within', lands⟩ := walk_spec apart keyed (it.list (unionOf it perSlice).entries)
    ((perm.map _).nodup_iff.mpr (unionOf it perSlice).keys_nodup)
    (fun e member => mem_lookup_iff.mpr (perm.mem_iff.mp member)) within (fun _ _ => rfl)
  obtain ⟨fits', lands'⟩ := drop_spec apart
    ((it.list prev.keys).filter (fun id => id ∉ (unionOf it perSlice).keys)) within'
  refine ⟨fits_append fits fits', ?_⟩
  funext j
  rw [emitDiff, foldl_append, lands' j]
  by_cases inUnion : j ∈ (unionOf it perSlice).keys
  · rw [if_neg (by simp [inUnion]), lands j, if_pos ((keys j).mpr inUnion)]
  · have absent : urlsOf (unionOf it perSlice) j = none := by
      simp [urlsOf, lookup_eq_none.mpr (fun member => inUnion (mem_keys.mp member))]
    rw [absent]
    by_cases inPrev : j ∈ prev.keys
    · rw [if_pos (mem_filter.mpr ⟨(it.perm _).mem_iff.mpr inPrev, by simpa using inUnion⟩)]
    · rw [if_neg (fun member => inPrev ((it.perm _).mem_iff.mp (mem_of_mem_filter member))),
        lands j,
        if_neg (fun member => inUnion ((keys j).mp member))]
      simp [urlsOf, lookup_eq_none.mpr (fun member => inPrev (mem_keys.mp member))]

namespace Watch

structure Sound (w : Watch) : Prop where
  unites : Unites w.prevUnion w.perSlice
  keyed : ∀ key slice, w.perSlice.lookup key = some slice → Keyed slice
  buffered : ∀ buf, w.initBuffer = some buf → ∀ key slice, buf.lookup key = some slice → Keyed slice

variable {w : Watch}

theorem keyed_insert {slices : Slices} {mode : K8sDiscoveryMode} (es : EndpointSlice)
    (keyed : ∀ key slice, slices.lookup key = some slice → Keyed slice) :
    ∀ key slice, (slices.insert (sliceKey es) (workersForSlice mode es)).lookup key = some slice →
      Keyed slice := by
  intro key slice there
  by_cases same : key = sliceKey es
  · subst same
    rw [lookup_insert] at there
    cases there
    exact keyed_workersForSlice mode es
  · rw [lookup_insert_ne same] at there
    exact keyed key slice there

theorem keyed_union {perSlice : Slices}
    (keyed : ∀ key slice, perSlice.lookup key = some slice → Keyed slice) :
    Keyed (unionOf it perSlice) := by
  intro i spec there
  obtain ⟨key, slice, listed, inner⟩ := (unites_unionOf it perSlice).sound i spec there
  exact keyed key slice listed i spec inner

structure Turns (w : Watch) (r : Watch × List DiscoveryEvent) : Prop where
  sound : r.1.Sound
  fits : Apart w.prevUnion r.1.prevUnion → Fits r.2 (urlsOf w.prevUnion) ∧
    r.2.foldl after (urlsOf w.prevUnion) = urlsOf r.1.prevUnion

theorem turns_emit {slices : Slices} {buffer : Option Slices}
    (keyed : ∀ key slice, slices.lookup key = some slice → Keyed slice)
    (buffered : ∀ buf, buffer = some buf → ∀ key slice, buf.lookup key = some slice → Keyed slice) :
    Turns w (emit it { w with perSlice := slices, initBuffer := buffer }) :=
  ⟨⟨unites_unionOf it slices, keyed, buffered⟩, fun apart =>
    emitDiff_spec apart (keyed_union keyed)⟩

theorem turns_quiet (sound : w.Sound) {buffer : Option Slices}
    (buffered : ∀ buf, buffer = some buf → ∀ key slice, buf.lookup key = some slice → Keyed slice) :
    Turns w ({ w with initBuffer := buffer }, []) := by
  refine ⟨⟨sound.unites, sound.keyed, buffered⟩, fun apart => ⟨?_, rfl⟩⟩
  intro i j u hi hj
  obtain ⟨p, at_i, urlp⟩ := map_eq_some_iff.mp hi
  obtain ⟨q, at_j, urlq⟩ := map_eq_some_iff.mp hj
  exact apart i j p q (.inl at_i) (.inl at_j) (urlp.trans urlq.symm)

theorem turns_handle (sound : w.Sound) (mode : K8sDiscoveryMode) (it : Order) (e : WatchEvent) :
    Turns w (w.handle mode it e) := by
  cases e with
  | init =>
    refine turns_quiet sound (fun buf same => ?_)
    cases same
    intro key slice no
    cases no
  | initApply es =>
    unfold handle
    cases buffer : w.initBuffer with
    | some buf =>
      refine turns_quiet sound (fun buf' same => ?_)
      cases same
      exact keyed_insert es (sound.buffered buf buffer)
    | none => exact turns_emit (keyed_insert es sound.keyed) (by simp)
  | initDone =>
    unfold handle
    cases buffer : w.initBuffer with
    | some buf => exact turns_emit (sound.buffered buf buffer) (by simp)
    | none => exact turns_quiet sound sound.buffered
  | apply es => exact turns_emit (keyed_insert es sound.keyed) sound.buffered
  | delete es =>
    refine turns_emit (fun key slice there => ?_) sound.buffered
    by_cases same : key = sliceKey es
    · subst same
      rw [lookup_erase] at there
      cases there
    · rw [lookup_erase_ne same] at there
      exact sound.keyed key slice there
  | error => exact turns_quiet sound sound.buffered

end Watch

namespace Subscriptions

variable {s : Subscriptions} {url : String} {cfg : Option EventConfig}

theorem addWorker_cases (s : Subscriptions) (url : String) (cfg : EventConfig) :
    (s.addWorker url (some cfg) = s ∧ ¬ s.Accepts cfg ∧ (cfg.blockSize ≠ 0 → s.blockSize ≠ 0)) ∨
    (cfg.blockSize ≠ 0 ∧ (s.blockSize = 0 ∨ s.blockSize = cfg.blockSize) ∧
      s.addWorker url (some cfg) =
        { blockSize := cfg.blockSize
          urls := if cfg.dpRanks = [] then s.urls else insert url s.urls }) := by
  unfold addWorker trySet
  by_cases zero : cfg.blockSize = 0
  · exact .inl ⟨by simp [zero], fun accepts => accepts.1 zero, fun some => absurd zero some⟩
  by_cases unset : s.blockSize = 0
  · refine .inr ⟨zero, .inl unset, ?_⟩
    by_cases ranks : cfg.dpRanks = [] <;> simp [zero, unset, ranks]
  by_cases same : s.blockSize = cfg.blockSize
  · refine .inr ⟨zero, .inr same, ?_⟩
    by_cases ranks : cfg.dpRanks = [] <;> simp [zero, same, ranks]
  · exact .inl ⟨by simp [zero, unset, same], fun accepts => same accepts.2.1, fun _ => unset⟩

theorem addWorker_accepts {cfg' : EventConfig}
    (established : cfg'.blockSize ≠ 0 → s.blockSize ≠ 0) :
    (s.addWorker url cfg).Accepts cfg' ↔ s.Accepts cfg' := by
  cases cfg with
  | none => exact Iff.rfl
  | some cfg =>
    rcases addWorker_cases s url cfg with ⟨same, -, -⟩ | ⟨-, size, eq⟩
    · rw [same]
    · rw [eq]
      constructor
      · rintro ⟨positive, agrees, ranks⟩
        exact ⟨positive, (size.resolve_left (established positive)).trans agrees, ranks⟩
      · rintro ⟨positive, agrees, ranks⟩
        exact ⟨positive, (size.resolve_left (established positive)).symm.trans agrees, ranks⟩

theorem mem_addWorker_urls {u : String} : u ∈ (s.addWorker url cfg).urls ↔
    u ∈ s.urls ∨ (u = url ∧ ∃ cfg', cfg = some cfg' ∧ (s.addWorker url cfg).Accepts cfg') := by
  cases cfg with
  | none => simp [addWorker]
  | some cfg =>
    rcases addWorker_cases s url cfg with ⟨same, refuses, -⟩ | ⟨positive, -, eq⟩
    · rw [same]
      constructor
      · exact .inl
      · rintro (old | ⟨-, cfg', same', accepts⟩)
        · exact old
        · cases same'
          exact absurd accepts refuses
    · rw [eq]
      by_cases ranks : cfg.dpRanks = []
      · simp [ranks, Accepts]
      · simp [ranks, Accepts, positive, or_comm]

theorem addWorker_blockSize (set : s.blockSize ≠ 0) : (s.addWorker url cfg).blockSize ≠ 0 := by
  cases cfg with
  | none => exact set
  | some cfg =>
    rcases addWorker_cases s url cfg with ⟨same, -, -⟩ | ⟨positive, -, eq⟩
    · rwa [same]
    · rwa [eq]

theorem addWorker_blockSize_self {cfg : EventConfig} (positive : cfg.blockSize ≠ 0) :
    (s.addWorker url (some cfg)).blockSize ≠ 0 := by
  rcases addWorker_cases s url cfg with ⟨same, -, set⟩ | ⟨-, -, eq⟩
  · rw [same]
    exact set positive
  · rwa [eq]

end Subscriptions

end RedKnot.Router.Discovery
