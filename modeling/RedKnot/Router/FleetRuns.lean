import RedKnot.Router.DiscoveryRuns

/-! The registry and the index once every discovery event is processed. -/

namespace RedKnot.Router

open Function Finset Option Manager WorkerRegistry

variable {t : Task}

theorem Manager.proceed_effect {s m : Manager} {id : WorkerId}
    (next : s.proceed id t = some m) (absent : s.registry.byId t.spec.id = none) :
    ∃ o, m.tasks = update s.tasks id o ∧ ((m.registry.byId = s.registry.byId ∧
          ∀ t', o = some t' → t'.spec = t.spec ∧ ∀ spec, t' ≠ .subscribing spec) ∨
        (m.registry.byId = update s.registry.byId t.spec.id (some t.spec) ∧
          o = some (.subscribing t.spec))) := by
  have moved : ∀ t' : Task, t'.spec = t.spec → (∀ spec, t' ≠ .subscribing spec) →
      ∀ t'', some t' = some t'' → t''.spec = t.spec ∧ ∀ spec, t'' ≠ .subscribing spec := by
    intro t' spec other t'' same
    cases same
    exact ⟨spec, other⟩
  cases t with
  | checking spec models existing =>
    cases existing with
    | cons x existing =>
      simp only [proceed] at next
      split at next
      · cases next
        exact ⟨_, rfl, .inl ⟨rfl, moved _ rfl (by simp)⟩⟩
      · split at next
        · cases next
          exact ⟨none, rfl, .inl ⟨rfl, by simp⟩⟩
        · cases next
          exact ⟨_, rfl, .inl ⟨rfl, moved _ rfl (by simp)⟩⟩
    | nil =>
      cases models with
      | cons m models | nil =>
        cases next
        exact ⟨_, rfl, .inl ⟨rfl, moved _ rfl (by simp)⟩⟩
  | removing spec =>
    cases next
    refine ⟨_, rfl, .inl ⟨?_, moved _ rfl (by simp)⟩⟩
    have same : s.registry.byId spec.id = none := absent
    rw [removeLocked_byId, ← same, update_eq_self]
  | enlisting spec =>
    cases next
    exact ⟨_, rfl, .inl ⟨rfl, moved _ rfl (by simp)⟩⟩
  | inserting spec =>
    cases next
    exact ⟨_, rfl, .inr ⟨rfl, rfl⟩⟩
  | fetching | locking | subscribing => cases next

namespace Discovery.Fleet

variable {x y : Fleet} {c : Urls} {id : WorkerId} {mode : K8sDiscoveryMode}

def Serves (x : Fleet) (id : WorkerId) (url : String) : Prop :=
  ∃ w cfg, x.manager.registry.byId id = some w ∧ w.url = url ∧ x.manager.tasks id = none ∧
    x.config id = some cfg ∧ x.index.Accepts cfg

structure Books (x : Fleet) (c : Urls) : Prop where
  distinct : Distinct c
  tasks : ∀ id t, x.manager.tasks id = some t → t.spec.id = id ∧ c id = some t.spec.url ∧
    id ∉ x.refused ∧ ((∃ spec, t = .subscribing spec) ↔ x.manager.registry.byId id ≠ none)
  registered : ∀ id w, x.manager.registry.byId id = some w → c id = some w.url
  known : ∀ id u, c id = some u →
    x.manager.tasks id ≠ none ∨ x.manager.registry.byId id ≠ none ∨ id ∈ x.refused
  refusal : ∀ id ∈ x.refused, x.manager.registry.byId id = none
  leaving : ∀ url, x.leaving = some url → ∀ id, c id ≠ some url
  urls : ∀ url ∈ x.index.urls, x.leaving = some url ∨ ∃ id, x.Serves id url
  served : ∀ id url, x.Serves id url → url ∈ x.index.urls
  established : ∀ id cfg, x.config id = some cfg → cfg.blockSize ≠ 0 → x.index.blockSize ≠ 0

variable {rest : List DiscoveryEvent}

section

variable (books : Books x c)
include books

theorem Books.absent (here : x.manager.tasks id = some t)
    (other : ∀ spec, t ≠ .subscribing spec) : x.manager.registry.byId id = none := by
  by_contra present
  obtain ⟨spec, same⟩ := (books.tasks id t here).2.2.2.mpr present
  exact other spec same

theorem Books.added {spec : WorkerSpec} (vacant : c spec.id = none) (idle : x.leaving = none)
    (distinct : Distinct (update c spec.id (some spec.url))) :
    Books { x with
      channel := rest
      manager := x.manager.withTask spec.id (some (.fetching spec))
      refused := x.refused.erase spec.id
      config := update x.config spec.id none } (update c spec.id (some spec.url)) := by
  have absent : x.manager.registry.byId spec.id = none := by
    cases there : x.manager.registry.byId spec.id with
    | none => rfl
    | some w => cases vacant.symm.trans (books.registered _ w there)
  have same : ∀ id url, Serves { x with
      channel := rest
      manager := x.manager.withTask spec.id (some (.fetching spec))
      refused := x.refused.erase spec.id
      config := update x.config spec.id none } id url ↔ x.Serves id url := by
    intro id url
    by_cases self : id = spec.id
    · simp [Serves, self, withTask, absent]
    · simp only [Serves, withTask_of_ne _ _ self, update_of_ne self]
      rfl
  refine ⟨distinct, ?_, ?_, ?_, ?_, ?_, ?_, ?_, ?_⟩
  · intro id t here
    by_cases self : id = spec.id
    · subst self
      rw [withTask_self] at here
      cases here
      refine ⟨rfl, update_self _ _ _, notMem_erase _ _, ?_⟩
      exact iff_of_false (by simp) (fun present => present absent)
    · rw [withTask_of_ne _ _ self] at here
      obtain ⟨key, url, fine, stage⟩ := books.tasks id t here
      exact ⟨key, (update_of_ne self _ _).trans url, fun no => fine (mem_of_mem_erase no),
        stage⟩
  · intro id w there
    have self : id ≠ spec.id := by
      rintro rfl
      cases absent.symm.trans there
    exact (update_of_ne self _ _).trans (books.registered id w there)
  · intro id u at_u
    by_cases self : id = spec.id
    · subst self
      exact .inl (by simp [withTask])
    · rw [update_of_ne self] at at_u
      rw [withTask_of_ne _ _ self]
      exact (books.known id u at_u).imp_right (Or.imp_right (fun r => mem_erase.mpr ⟨self, r⟩))
  · exact fun id out => books.refusal id (mem_of_mem_erase out)
  · intro url no
    rw [show x.leaving = none from idle] at no
    cases no
  · intro url listed
    obtain ⟨id, serves⟩ := (books.urls url listed).resolve_left (by simp [idle])
    exact .inr ⟨id, (same id url).mpr serves⟩
  · exact fun id url serves => books.served id url ((same id url).mp serves)
  · intro id cfg there
    by_cases self : id = spec.id
    · subst self
      simp at there
    · exact books.established id cfg ((update_of_ne self _ _).symm.trans there)

theorem Books.removed (idle : x.leaving = none)
    (awaited : x.manager.tasks id = none) (distinct : Distinct (update c id none)) :
    Books { x with
      channel := rest
      leaving := (x.manager.registry.byId id).map WorkerSpec.url
      manager := { x.manager with registry := x.manager.registry.removeLocked id } }
      (update c id none) := by
  refine ⟨distinct, ?_, ?_, ?_, ?_, ?_, ?_, ?_, books.established⟩
  · intro j t here
    have self : j ≠ id := by
      rintro rfl
      cases awaited.symm.trans here
    obtain ⟨key, url, fine, stage⟩ := books.tasks j t here
    refine ⟨key, (update_of_ne self _ _).trans url, fine, ?_⟩
    simpa [removeLocked_byId, update_of_ne self] using stage
  · intro j w there
    obtain ⟨self, old⟩ := removeLocked_byId_of_some there
    exact (update_of_ne self _ _).trans (books.registered j w old)
  · intro j u at_u
    have self : j ≠ id := by
      rintro rfl
      simp at at_u
    rw [update_of_ne self] at at_u
    simpa [removeLocked_byId, update_of_ne self] using books.known j u at_u
  · intro j out
    simp only [removeLocked_byId]
    by_cases self : j = id
    · subst self
      exact update_self _ _ _
    · exact (update_of_ne self _ _).trans (books.refusal j out)
  · intro url left j at_j
    -- the worker that leaves was the only one at its URL
    obtain ⟨w, there, rfl⟩ := map_eq_some_iff.mp left
    have self : j ≠ id := by
      rintro rfl
      simp at at_j
    rw [update_of_ne self] at at_j
    exact self (books.distinct j id _ at_j (books.registered id w there))
  · intro url listed
    obtain ⟨j, w, cfg, there, at_url, rest⟩ := (books.urls url listed).resolve_left (by simp [idle])
    by_cases self : j = id
    · subst self
      exact .inl (by simp [there, at_url])
    · refine .inr ⟨j, w, cfg, ?_, at_url, rest⟩
      simpa [removeLocked_byId, update_of_ne self] using there
  · rintro j url ⟨w, cfg, there, rest⟩
    exact books.served j url ⟨w, cfg, (removeLocked_byId_of_some there).2, rest⟩

theorem Books.unsubscribed {url : String} (awaits : x.leaving = some url) :
    Books { x with leaving := none, index := x.index.removeWorker url } c := by
  refine ⟨books.distinct, books.tasks, books.registered, books.known, books.refusal, by simp, ?_,
    ?_, books.established⟩
  · intro u listed
    obtain ⟨other, old⟩ := mem_erase.mp listed
    rcases books.urls u old with left | serves
    · exact absurd (Option.some.inj (left.symm.trans awaits)) other
    · exact .inr serves
  · intro id u serves
    refine mem_erase.mpr ⟨?_, books.served id u serves⟩
    rintro rfl
    obtain ⟨w, -, there, at_u, -⟩ := serves
    exact books.leaving u awaits id (at_u ▸ books.registered id w there)

end

theorem serves_iff {url : String} : x.Serves id url ↔
    (x.manager.registry.byId id).map WorkerSpec.url = some url ∧ x.manager.tasks id = none ∧
      ∃ cfg, x.config id = some cfg ∧ x.index.Accepts cfg := by
  rw [map_eq_some_iff]
  constructor
  · rintro ⟨w, cfg, there, at_url, free, set⟩
    exact ⟨⟨w, there, at_url⟩, free, cfg, set⟩
  · rintro ⟨⟨w, there, at_url⟩, free, cfg, set⟩
    exact ⟨w, cfg, there, at_url, free, set⟩

section

variable (books : Books x c)
include books

theorem Books.modeChanged (wm : WorkerMode) : Books { x with
      channel := rest
      manager := { x.manager with registry := x.manager.registry.setMode id wm } } c := by
  have same : ∀ j url, Serves { x with
      channel := rest
      manager := { x.manager with registry := x.manager.registry.setMode id wm } } j url ↔
        x.Serves j url := by
    intro j url
    rw [serves_iff, serves_iff, setMode_byId_url]
  refine ⟨books.distinct, ?_, ?_, ?_, ?_, books.leaving, ?_, ?_, books.established⟩
  · intro j t here
    obtain ⟨key, url, fine, stage⟩ := books.tasks j t here
    exact ⟨key, url, fine, stage.trans (not_congr setMode_byId_none).symm⟩
  · intro j w there
    have urls := setMode_byId_url x.manager.registry id wm j
    rw [show (x.manager.registry.setMode id wm).byId j = some w from there] at urls
    obtain ⟨v, old, same⟩ := map_eq_some_iff.mp urls.symm
    exact same ▸ books.registered j v old
  · intro j u at_u
    exact (books.known j u at_u).imp_right (Or.imp_left (not_congr setMode_byId_none).mpr)
  · exact fun j out => setMode_byId_none.mpr (books.refusal j out)
  · intro url listed
    exact (books.urls url listed).imp_right (Exists.imp fun j serves => (same j url).mpr serves)
  · exact fun j url serves => books.served j url ((same j url).mp serves)

theorem Books.turn (m : Manager) (o : Option Task)
    (here : x.manager.tasks id = some t) (absent : x.manager.registry.byId id = none)
    (tasks : m.tasks = update x.manager.tasks id o)
    (byId : m.registry.byId = x.manager.registry.byId)
    (next : ∀ t', o = some t' → t'.spec.id = t.spec.id ∧ t'.spec.url = t.spec.url ∧
      ∀ spec, t' ≠ .subscribing spec) (refused : Finset WorkerId)
    (out : ∀ j, j ∈ refused ↔ j ∈ x.refused ∨ (j = id ∧ o = none)) :
    Books { x with manager := m, refused := refused } c := by
  obtain ⟨key, at_url, fine, -⟩ := books.tasks id t here
  have others : ∀ j, j ≠ id → m.tasks j = x.manager.tasks j := by
    intro j self
    rw [tasks, update_of_ne self]
  have same : ∀ j url,
      Serves { x with manager := m, refused := refused } j url ↔ x.Serves j url := by
    intro j url
    by_cases self : j = id
    · simp [Serves, byId, self, absent]
    · simp only [Serves, byId, others j self]
  refine ⟨books.distinct, ?_, ?_, ?_, ?_, books.leaving, ?_, ?_, books.established⟩
  · intro j t' there
    simp only [byId]
    by_cases self : j = id
    · subst self
      have now : o = some t' := by simpa [tasks] using there
      obtain ⟨id', url', other⟩ := next t' now
      refine ⟨id'.trans key, by rw [url']; exact at_url, fun no => ?_, ?_⟩
      · rcases (out j).mp no with old | ⟨-, none⟩
        · exact fine old
        · cases none.symm.trans now
      · exact iff_of_false (not_exists.mpr other) (fun present => present absent)
    · obtain ⟨key', url', fine', stage⟩ := books.tasks j t' ((others j self).symm.trans there)
      refine ⟨key', url', fun no => ?_, stage⟩
      rcases (out j).mp no with old | ⟨eq, -⟩
      · exact fine' old
      · exact self eq
  · intro j w there
    exact books.registered j w (by rwa [byId] at there)
  · intro j u at_u
    simp only [byId]
    by_cases self : j = id
    · subst self
      cases o with
      | none => exact .inr (.inr ((out j).mpr (.inr ⟨rfl, rfl⟩)))
      | some t' => exact .inl (by simp [tasks])
    · rw [others j self]
      exact (books.known j u at_u).imp_right (Or.imp_right (fun r => (out j).mpr (.inl r)))
  · intro j gone
    simp only [byId]
    rcases (out j).mp gone with old | ⟨rfl, -⟩
    · exact books.refusal j old
    · exact absent
  · intro url listed
    exact (books.urls url listed).imp_right (Exists.imp fun j serves => (same j url).mpr serves)
  · exact fun j url serves => books.served j url ((same j url).mp serves)

theorem Books.insert {m : Manager} (here : x.manager.tasks id = some t)
    (tasks : m.tasks = update x.manager.tasks id (some (.subscribing t.spec)))
    (byId : m.registry.byId = update x.manager.registry.byId id (some t.spec)) :
    Books { x with manager := m } c := by
  obtain ⟨key, at_url, fine, -⟩ := books.tasks id t here
  have others : ∀ j, j ≠ id → m.tasks j = x.manager.tasks j ∧
      m.registry.byId j = x.manager.registry.byId j := by
    intro j self
    rw [tasks, byId, update_of_ne self, update_of_ne self]
    exact ⟨rfl, rfl⟩
  have self_task : m.tasks id = some (.subscribing t.spec) := by rw [tasks, update_self]
  have self_byId : m.registry.byId id = some t.spec := by rw [byId, update_self]
  have same : ∀ j url, Serves { x with manager := m } j url ↔ x.Serves j url := by
    intro j url
    by_cases self : j = id
    · simp [Serves, self, self_task, here]
    · simp only [Serves, others j self]
  refine ⟨books.distinct, ?_, ?_, ?_, ?_, books.leaving, ?_, ?_, books.established⟩
  · intro j t' there
    by_cases self : j = id
    · subst self
      cases self_task.symm.trans there
      exact ⟨key, at_url, fine, iff_of_true ⟨_, rfl⟩ (by simp [self_byId])⟩
    · obtain ⟨task, entry⟩ := others j self
      simp only [entry]
      exact books.tasks j t' (task.symm.trans there)
  · intro j w there
    by_cases self : j = id
    · subst self
      cases self_byId.symm.trans there
      exact at_url
    · exact books.registered j w ((others j self).2.symm.trans there)
  · intro j u at_u
    by_cases self : j = id
    · subst self
      exact .inl (by simp [self_task])
    · simp only [others j self]
      exact books.known j u at_u
  · intro j gone
    have self : j ≠ id := by
      rintro rfl
      exact fine gone
    simp only [others j self]
    exact books.refusal j gone
  · intro url listed
    exact (books.urls url listed).imp_right (Exists.imp fun j serves => (same j url).mpr serves)
  · exact fun j url serves => books.served j url ((same j url).mp serves)

theorem Books.subscribed {spec : WorkerSpec} (cfg : Option EventConfig)
    (waits : x.manager.tasks id = some (.subscribing spec)) :
    Books { x with
      manager := x.manager.withTask id none
      index := x.index.addWorker spec.url cfg
      config := update x.config id cfg } c := by
  obtain ⟨key, at_url, fine, stage⟩ := books.tasks id _ waits
  obtain ⟨w, entry⟩ := ne_none_iff_exists'.mp (stage.mp ⟨spec, rfl⟩)
  have url : w.url = spec.url := Option.some.inj ((books.registered id w entry).symm.trans at_url)
  have others : ∀ j u, j ≠ id → (Serves { x with
      manager := x.manager.withTask id none
      index := x.index.addWorker spec.url cfg
      config := update x.config id cfg } j u ↔ x.Serves j u) := by
    -- a configuration that was looked at before has fixed the block size
    intro j u self
    simp only [Serves, withTask_of_ne _ _ self, update_of_ne self]
    constructor
    · rintro ⟨v, cfg', there, at_u, free, set, accepts⟩
      exact ⟨v, cfg', there, at_u, free, set,
        (Subscriptions.addWorker_accepts (books.established j cfg' set)).mp accepts⟩
    · rintro ⟨v, cfg', there, at_u, free, set, accepts⟩
      exact ⟨v, cfg', there, at_u, free, set,
        (Subscriptions.addWorker_accepts (books.established j cfg' set)).mpr accepts⟩
  have busy : ∀ u, ¬ x.Serves id u := by
    rintro u ⟨v, cfg', -, -, free, -⟩
    cases waits.symm.trans free
  refine ⟨books.distinct, ?_, books.registered, ?_, books.refusal, books.leaving, ?_, ?_, ?_⟩
  · intro j t there
    have self : j ≠ id := by
      rintro rfl
      simp [withTask] at there
    exact books.tasks j t (by rwa [withTask_of_ne _ _ self] at there)
  · intro j u at_u
    by_cases self : j = id
    · subst self
      exact .inr (.inl (stage.mp ⟨spec, rfl⟩))
    · rw [withTask_of_ne _ _ self]
      exact books.known j u at_u
  · intro u listed
    rcases Subscriptions.mem_addWorker_urls.mp listed with old | ⟨rfl, cfg', rfl, accepts⟩
    · refine (books.urls u old).imp_right (Exists.imp fun j serves => (others j u ?_).mpr serves)
      rintro rfl
      exact busy u serves
    · exact .inr ⟨id, w, cfg', entry, url, withTask_self _ _ _, update_self _ _ _, accepts⟩
  · intro j u serves
    by_cases self : j = id
    · subst self
      obtain ⟨v, cfg', there, rfl, -, set, accepts⟩ := serves
      cases entry.symm.trans there
      exact Subscriptions.mem_addWorker_urls.mpr (.inr ⟨url, cfg', by simpa using set, accepts⟩)
    · exact Subscriptions.mem_addWorker_urls.mpr
        (.inl (books.served j u ((others j u self).mp serves)))
  · intro j cfg' set positive
    by_cases self : j = id
    · subst self
      have now : cfg = some cfg' := by simpa using set
      subst now
      exact Subscriptions.addWorker_blockSize_self positive
    · exact Subscriptions.addWorker_blockSize
        (books.established j cfg' ((update_of_ne self _ _).symm.trans set) positive)

end

structure Tracks (x : Fleet) (c : Urls) : Prop where
  books : Books x c
  fits : Fits x.channel c
  lands : x.channel.foldl after c = urlsOf x.watch.prevUnion
  watch : x.watch.Sound

theorem tracks_start : Tracks {} (fun _ => none) where
  books := by
    refine ⟨by simp [Distinct], by simp, by simp, by simp, by simp, by simp, by simp, ?_, by simp⟩
    rintro id url ⟨w, cfg, no, -⟩
    cases no
  fits := by simp [Fits, Distinct]
  lands := rfl
  watch := by
    refine ⟨⟨?_, ?_⟩, ?_, by simp⟩
    · intro i spec no
      cases no
    · intro key slice i spec no
      cases no
    · intro key slice no
      cases no

theorem Tracks.step (tracks : Tracks x c) (stepped : Step mode Apart x y) : ∃ c', Tracks y c' := by
  obtain ⟨books, fits, lands, watch⟩ := tracks
  cases stepped with
  | watched it e meets =>
    obtain ⟨sound, turn⟩ := Watch.turns_handle watch mode it e
    obtain ⟨fits', lands'⟩ := turn meets
    refine ⟨c, ⟨books.distinct, books.tasks, books.registered, books.known, books.refusal,
      books.leaving, books.urls, books.served, books.established⟩, ?_, ?_, sound⟩
    · exact fits_append fits (by rw [lands]; exact fits')
    · rw [List.foldl_append, lands]
      exact lands'
  | added head idle awaited =>
    rename_i spec rest
    rw [head] at fits lands
    exact ⟨_, books.added (fits.2.1 spec rfl) idle fits.2.2.distinct, fits.2.2, lands, watch⟩
  | removed head idle awaited free =>
    rw [head] at fits lands
    exact ⟨_, books.removed idle awaited fits.2.2.distinct, fits.2.2, lands, watch⟩
  | unsubscribed awaits => exact ⟨c, books.unsubscribed awaits, fits, lands, watch⟩
  | modeChanged head idle awaited =>
    rw [head] at fits lands
    exact ⟨c, books.modeChanged _, fits.2.2, lands, watch⟩
  | fetched info waits =>
    rename_i id spec
    refine ⟨c, books.turn (x.manager.withTask id (some (.locking (spec.resolve info)))) _ waits
      (books.absent waits (by simp)) rfl rfl ?_ x.refused (by simp), fits, lands, watch⟩
    intro t' same
    cases same
    exact ⟨resolve_id spec info, resolve_url spec info, by simp⟩
  | acquired waits free =>
    rename_i id spec
    refine ⟨c, books.turn { x.manager.withTask id (some (.checking spec spec.modelIds [])) with
        lock := some id } _ waits (books.absent waits (by simp)) rfl rfl ?_ x.refused (by simp),
      fits, lands, watch⟩
    intro t' same
    cases same
    exact ⟨rfl, rfl, by simp⟩
  | proceeded here next stays =>
    rename_i id t m
    have other : ∀ spec, t ≠ .subscribing spec := by
      rintro spec rfl
      cases next
    have key := (books.tasks id t here).1
    have absent := books.absent here other
    obtain ⟨o, tasks, ⟨byId, moved⟩ | ⟨byId, rfl⟩⟩ := proceed_effect next (key ▸ absent)
    · refine ⟨c, books.turn m o here absent tasks byId ?_ x.refused ?_, fits, lands, watch⟩
      · intro t' same
        obtain ⟨spec, rest⟩ := moved t' same
        exact ⟨by rw [spec], by rw [spec], rest⟩
      · have goes : o ≠ none := by simpa [tasks] using stays
        simp [goes]
    · exact ⟨c, books.insert here tasks (key ▸ byId), fits, lands, watch⟩
  | refused here next out =>
    rename_i id t m
    have other : ∀ spec, t ≠ .subscribing spec := by
      rintro spec rfl
      cases next
    have key := (books.tasks id t here).1
    have absent := books.absent here other
    obtain ⟨o, tasks, ⟨byId, -⟩ | ⟨-, rfl⟩⟩ := proceed_effect next (key ▸ absent)
    · have gone : o = none := by simpa [tasks] using out
      subst gone
      refine ⟨c, books.turn m none here absent tasks byId (by simp) (Insert.insert id x.refused) ?_,
        fits, lands, watch⟩
      simp [or_comm]
    · simp [tasks] at out
  | subscribed cfg waits => exact ⟨c, books.subscribed cfg waits, fits, lands, watch⟩

theorem tracks_of_reaches (reached : Reaches mode Apart x) : ∃ c, Tracks x c := by
  induction reached with
  | start => exact ⟨_, tracks_start⟩
  | step _ stepped ih =>
    obtain ⟨c, tracks⟩ := ih
    exact tracks.step stepped

/-- The registered workers are those of the slices that were not refused, and the index is
subscribed to those of them whose events it accepts. -/
theorem fleet_follows_slices (reached : Reaches mode Apart x) (processed : x.Processed) :
    (∀ id, x.manager.registry.byId id ≠ none ↔
      (∃ key slice, x.watch.perSlice.lookup key = some slice ∧ slice.lookup id ≠ none) ∧
        id ∉ x.refused) ∧
    (∀ id w, x.manager.registry.byId id = some w → ∃ key slice spec,
      x.watch.perSlice.lookup key = some slice ∧ slice.lookup id = some spec ∧ w.url = spec.url) ∧
    ∀ url, url ∈ x.index.urls ↔ ∃ id w cfg, x.manager.registry.byId id = some w ∧ w.url = url ∧
      x.config id = some cfg ∧ x.index.Accepts cfg := by
  obtain ⟨c, books, -, lands, watch⟩ := tracks_of_reaches reached
  rw [processed.channel] at lands
  have at_union : ∀ id, c id = (x.watch.prevUnion.lookup id).map WorkerSpec.url := congrFun lands
  refine ⟨fun id => ⟨fun present => ⟨?_, fun out => present (books.refusal id out)⟩, ?_⟩, ?_,
    fun url => ⟨fun listed => ?_, ?_⟩⟩
  · obtain ⟨w, there⟩ := ne_none_iff_exists'.mp present
    obtain ⟨spec, inUnion, -⟩ :=
      map_eq_some_iff.mp ((at_union id).symm.trans (books.registered id w there))
    obtain ⟨key, slice, listed, inner⟩ := watch.unites.sound id spec inUnion
    exact ⟨key, slice, listed, by simp [inner]⟩
  · rintro ⟨⟨key, slice, listed, inner⟩, fine⟩
    obtain ⟨spec, inner⟩ := ne_none_iff_exists'.mp inner
    obtain ⟨spec', inUnion⟩ :=
      ne_none_iff_exists'.mp (watch.unites.complete key slice id spec listed inner)
    have at_url : c id = some spec'.url := by rw [at_union, inUnion]; rfl
    rcases books.known id _ at_url with busy | present | out
    · exact absurd (processed.tasks id) busy
    · exact present
    · exact absurd out fine
  · intro id w there
    obtain ⟨spec, inUnion, same⟩ :=
      map_eq_some_iff.mp ((at_union id).symm.trans (books.registered id w there))
    obtain ⟨key, slice, listed, inner⟩ := watch.unites.sound id spec inUnion
    exact ⟨key, slice, spec, listed, inner, same.symm⟩
  · obtain ⟨id, w, cfg, there, at_url, -, set⟩ :=
      (books.urls url listed).resolve_left (by simp [processed.leaving])
    exact ⟨id, w, cfg, there, at_url, set⟩
  · rintro ⟨id, w, cfg, there, at_url, set⟩
    exact books.served id url ⟨w, cfg, there, at_url, processed.tasks id, set⟩

def asListed : Order := ⟨fun l => l, fun l => .refl l⟩

def podSlice (pod address : String) : EndpointSlice where
  uid := some "slice"
  endpoints := [{ uid := some pod, addresses := [address] }]

def podConfig : EventConfig := ⟨5557, 16, 1⟩

def podWorker (pod address : String) : WorkerSpec where
  id := "/" ++ pod
  url := "http://" ++ address ++ ":30000"
  mode := .plain

/-- After the pod `a` was listed. -/
def firstWatch : Watch :=
  (({} : Watch).handle .plain asListed (.apply (podSlice "a" "10.0.0.1"))).1

theorem registers {ok : Workers → Workers → Prop} (reached : Reaches mode ok x) (spec : WorkerSpec)
    (waits : x.manager.tasks spec.id = some (.fetching spec)) (free : x.manager.lock = none)
    (models : spec.modelIds = []) (cfg : Option EventConfig) :
    ∃ m : Manager, Reaches mode ok { x with
        manager := m
        index := x.index.addWorker spec.url cfg
        config := update x.config spec.id cfg } ∧
      m.tasks = update x.manager.tasks spec.id none ∧ m.lock = none ∧
      m.registry.byId = update x.manager.registry.byId spec.id (some spec) := by
  let locking := x.manager.withTask spec.id (some (.locking spec))
  let checking : Manager :=
    { locking.withTask spec.id (some (.checking spec spec.modelIds [])) with lock := some spec.id }
  let removing := checking.withTask spec.id (some (.removing spec))
  let enlisting : Manager := { removing.withTask spec.id (some (.enlisting spec)) with
    registry := removing.registry.removeLocked spec.id }
  let inserting : Manager := { enlisting.withTask spec.id (some (.inserting spec)) with
    registry := enlisting.registry.enlist spec }
  let subscribing : Manager := { inserting.withTask spec.id (some (.subscribing spec)) with
    registry := inserting.registry.insert spec
    lock := none }
  have toLocking : Reaches mode ok { x with manager := locking } := reached.step (.fetched {} waits)
  have toChecking : Reaches mode ok { x with manager := checking } :=
    toLocking.step (.acquired (withTask_self _ _ _) free)
  have toRemoving : Reaches mode ok { x with manager := removing } :=
    toChecking.step (.proceeded (withTask_self locking _ _) (by rw [models]; rfl)
      (by simp [removing, withTask_self]))
  have toEnlisting : Reaches mode ok { x with manager := enlisting } :=
    toRemoving.step (.proceeded (withTask_self checking _ _) rfl
      (by simp [enlisting, withTask_self]))
  have toInserting : Reaches mode ok { x with manager := inserting } :=
    toEnlisting.step (.proceeded (withTask_self removing _ _) rfl
      (by simp [inserting, withTask_self]))
  have toSubscribing : Reaches mode ok { x with manager := subscribing } :=
    toInserting.step (.proceeded (withTask_self enlisting _ _) rfl
      (by simp [subscribing, withTask_self]))
  refine ⟨subscribing.withTask spec.id none,
    toSubscribing.step (.subscribed cfg (withTask_self inserting _ _)), ?_, rfl, ?_⟩
  · simp [subscribing, inserting, enlisting, removing, checking, locking, withTask]
  · change update (removing.registry.removeLocked spec.id).byId spec.id (some spec) = _
    rw [removeLocked_byId, update_idem]
    rfl

theorem idle_after {m m' : Manager} {id : WorkerId} {task : Option Task}
    (before : ∀ id, m.tasks id = none)
    (after : m'.tasks = update (m.withTask id task).tasks id none) (i : WorkerId) :
    m'.tasks i = none := by
  rw [after]
  by_cases self : i = id
  · exact self ▸ update_self _ _ _
  · exact (update_of_ne self _ _).trans ((withTask_of_ne _ _ self).trans (before i))

theorem first_pod (ok : Workers → Workers → Prop) (meets : ok ∅ firstWatch.prevUnion) :
    ∃ x, Reaches .plain ok x ∧ x.Processed ∧ x.manager.lock = none ∧ x.watch = firstWatch ∧
      x.manager.registry.byId "/a" = some (podWorker "a" "10.0.0.1") ∧
      x.index = Subscriptions.addWorker {} "http://10.0.0.1:30000" (some podConfig) := by
  have added := (Reaches.start : Reaches .plain ok {})
    |>.step (.watched asListed (.apply (podSlice "a" "10.0.0.1")) meets)
    |>.step (.added rfl rfl rfl)
  obtain ⟨m, run, tasks, lock, byId⟩ :=
    registers added (podWorker "a" "10.0.0.1") (withTask_self _ _ _) rfl rfl (some podConfig)
  exact ⟨_, run, ⟨rfl, rfl, idle_after (fun _ => rfl) tasks⟩, lock, rfl,
    (congrFun byId "/a").trans (update_self _ _ _), rfl⟩

/-- The pod `b` replaces the pod `a` in the slice. -/
theorem replaced_pod (ok : Workers → Workers → Prop) (meets : ok ∅ firstWatch.prevUnion)
    (address : String)
    (sent : (firstWatch.handle .plain asListed (.apply (podSlice "b" address))).2 =
      [.added (podWorker "b" address), .removed "/a"])
    (meets' : ok firstWatch.prevUnion
      (firstWatch.handle .plain asListed (.apply (podSlice "b" address))).1.prevUnion) :
    ∃ x, Reaches .plain ok x ∧ x.Processed ∧
      x.manager.registry.byId "/b" = some (podWorker "b" address) ∧
      x.config "/b" = some podConfig ∧
      x.index = ((Subscriptions.addWorker {} "http://10.0.0.1:30000" (some podConfig)).addWorker
        (podWorker "b" address).url (some podConfig)).removeWorker "http://10.0.0.1:30000" := by
  obtain ⟨x, run, ⟨channel, leaving, tasks⟩, lock, watch, byId, index⟩ := first_pod ok meets
  rw [← watch] at sent meets'
  have queued : x.channel ++ (x.watch.handle .plain asListed (.apply (podSlice "b" address))).2 =
      [.added (podWorker "b" address), .removed "/a"] := by
    rw [channel, sent]
    rfl
  have added := run
    |>.step (.watched asListed (.apply (podSlice "b" address)) meets')
    |>.step (.added queued leaving (tasks "/b"))
  obtain ⟨m, run', tasks', lock', byId'⟩ :=
    registers added (podWorker "b" address) (withTask_self _ _ _) lock rfl (some podConfig)
  have idle : ∀ id, m.tasks id = none := idle_after tasks tasks'
  have old : m.registry.byId "/a" = some (podWorker "a" "10.0.0.1") :=
    (congrFun byId' "/a").trans ((update_of_ne (by simp [podWorker]) _ _).trans byId)
  have final := run'
    |>.step (.removed rfl leaving (idle "/a") lock')
    |>.step (.unsubscribed (congrArg (Option.map WorkerSpec.url) old))
  refine ⟨_, final, ⟨rfl, rfl, idle⟩, ?_, ?_, ?_⟩
  · change (m.registry.removeLocked "/a").byId "/b" = _
    rw [removeLocked_byId, update_of_ne (by decide), byId']
    exact update_self _ _ _
  · simp [podWorker]
  · rw [← index]
    rfl

theorem only_pod {u : Workers} {id i : WorkerId} {w p : WorkerSpec} (keys : u.keys = [id])
    (here : u.lookup id = some w) (there : u.lookup i = some p) : i = id ∧ p = w := by
  have member : i ∈ u.keys := AList.mem_keys.mp (AList.lookup_isSome.mp (isSome_of_mem there))
  rw [keys] at member
  cases List.mem_singleton.mp member
  exact ⟨rfl, Option.some.inj (there.symm.trans here)⟩

theorem replaced_pod_followed : ∃ x, Reaches .plain Apart x ∧ x.Processed ∧
    x.index.urls = {"http://10.0.0.2:30000"} ∧ ∃ id w cfg, x.manager.registry.byId id = some w ∧
      w.url = "http://10.0.0.2:30000" ∧ x.config id = some cfg ∧ x.index.Accepts cfg := by
  have first : ∀ i p, firstWatch.prevUnion.lookup i = some p →
      i = "/a" ∧ p = podWorker "a" "10.0.0.1" := fun _ _ => only_pod rfl rfl
  have second : ∀ i p, (firstWatch.handle .plain asListed
      (.apply (podSlice "b" "10.0.0.2"))).1.prevUnion.lookup i = some p →
      i = "/b" ∧ p = podWorker "b" "10.0.0.2" := fun _ _ => only_pod rfl rfl
  have meets : Apart ∅ firstWatch.prevUnion := by
    rintro i j p q (no | at_i) (no' | at_j) -
    · cases no
    · cases no
    · cases no'
    · rw [(first i p at_i).1, (first j q at_j).1]
  have meets' : Apart firstWatch.prevUnion (firstWatch.handle .plain asListed
      (.apply (podSlice "b" "10.0.0.2"))).1.prevUnion := by
    rintro i j p q (at_i | at_i) (at_j | at_j) same
    · rw [(first i p at_i).1, (first j q at_j).1]
    · rw [(first i p at_i).2, (second j q at_j).2] at same
      exact absurd same (by decide)
    · rw [(second i p at_i).2, (first j q at_j).2] at same
      exact absurd same (by decide)
    · rw [(second i p at_i).1, (second j q at_j).1]
  obtain ⟨x, run, processed, -, -, index⟩ := replaced_pod Apart meets "10.0.0.2" rfl meets'
  have urls : x.index.urls = {"http://10.0.0.2:30000"} := by
    rw [index]
    decide
  exact ⟨x, run, processed, urls,
    ((fleet_follows_slices run processed).2.2 _).mp (urls ▸ mem_singleton_self _)⟩

/-- A pod takes over the address of the pod it replaces: the removal of the old pod ends the
subscription to the address. -/
theorem reused_address_unsubscribed : ¬ ∀ x, Reaches .plain (fun _ _ => True) x → x.Processed →
    ∀ url, url ∈ x.index.urls ↔ ∃ id w cfg, x.manager.registry.byId id = some w ∧ w.url = url ∧
      x.config id = some cfg ∧ x.index.Accepts cfg := by
  obtain ⟨x, run, processed, byId, config, index⟩ :=
    replaced_pod (fun _ _ => True) trivial "10.0.0.1" rfl trivial
  intro follows
  have listed := (follows x run processed "http://10.0.0.1:30000").mpr ?_
  · rw [index] at listed
    exact notMem_erase _ _ listed
  · refine ⟨"/b", podWorker "b" "10.0.0.1", podConfig, byId, by decide, config, by decide, ?_,
      by decide⟩
    rw [index]
    decide

end Discovery.Fleet

end RedKnot.Router
