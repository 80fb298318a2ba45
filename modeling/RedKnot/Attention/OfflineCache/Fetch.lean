import Mathlib
import RedKnot.Attention.OfflineCache.Accounting

/-! The segments of one request stay on the device exactly when they fit there together. -/

namespace RedKnot.OfflineCache

open Finset List Option OrderedDict OfflineSegment

variable {τ : Type}

namespace OfflineSegment

variable {seg : OfflineSegment τ} {d : Device}

def Placed (seg : OfflineSegment τ) : Prop :=
  ∀ pair ∈ seg.kv, pair = (none, none) ∨
    ∃ k v, pair = (some k, some v) ∧ k.device = seg.device ∧ v.device = seg.device

def LivesOn (d : Device) (seg : OfflineSegment τ) : Prop :=
  seg.device = d ∧ ∀ pair ∈ seg.kv, ∀ t, pair.1 = some t ∨ pair.2 = some t → t.device = d

theorem Placed.livesOn (h : seg.Placed) : seg.LivesOn seg.device := by
  refine ⟨rfl, fun pair hp t ht => ?_⟩
  rcases h pair hp with rfl | ⟨k, v, rfl, hk, hv⟩
  · rcases ht with ht | ht <;> cases ht
  · rcases ht with ht | ht
    · exact some.inj ht ▸ hk
    · exact some.inj ht ▸ hv

theorem Placed.moveTo (h : seg.Placed) (d : Device) : (seg.moveTo d).Placed := by
  intro pair hp
  obtain ⟨old, ho, rfl⟩ := mem_map.mp hp
  rcases h old ho with rfl | ⟨k, v, rfl, -, -⟩
  · exact .inl rfl
  · exact .inr ⟨k.to d, v.to d, rfl, rfl, rfl⟩

theorem Placed.livesOn_moveTo (h : seg.Placed) (d : Device) : (seg.moveTo d).LivesOn d :=
  (h.moveTo d).livesOn

end OfflineSegment

namespace OfflineKVCache

variable {s s' t : OfflineKVCache τ} {id : String} {seg : OfflineSegment τ} {d : Device}

def bytesOf (s : OfflineKVCache τ) (id : String) : Nat := ((s.segments.get? id).map (·.nbytes)).getD 0

def requestedBytes (s : OfflineKVCache τ) (ids : List (Option String)) : Nat :=
  ∑ id ∈ ids.reduceOption.toFinset, s.bytesOf id

structure SameStock (s s' : OfflineKVCache τ) : Prop where
  length : s'.segments.entries.length = s.segments.entries.length
  size : ∀ id, (s'.segments.get? id).map (·.nbytes) = (s.segments.get? id).map (·.nbytes)
  placed : (∀ e ∈ s.segments.entries, e.2.Placed) → ∀ e ∈ s'.segments.entries, e.2.Placed

theorem SameStock.refl (s : OfflineKVCache τ) : SameStock s s := ⟨rfl, fun _ => rfl, fun h => h⟩

theorem SameStock.trans (h : SameStock s t) (h' : SameStock t s') : SameStock s s' :=
  ⟨h'.length.trans h.length, fun id => (h'.size id).trans (h.size id), fun hp => h'.placed (h.placed hp)⟩

theorem SameStock.bytesOf (h : SameStock s s') (id : String) : s'.bytesOf id = s.bytesOf id := by
  rw [OfflineKVCache.bytesOf, OfflineKVCache.bytesOf, h.size]

theorem SameStock.requestedBytes (h : SameStock s s') (ids : List (Option String)) :
    s'.requestedBytes ids = s.requestedBytes ids :=
  sum_congr rfl fun id _ => h.bytesOf id

theorem sameStock_putLast (new : OfflineSegment τ) (there : s.segments.get? id = some seg)
    (size : new.nbytes = seg.nbytes) (placed : seg.Placed → new.Placed)
    (entries : s'.segments = s.segments.putLast id new) : SameStock s s' := by
  refine ⟨?_, fun k => ?_, ?_⟩
  · rw [entries, length_putLast there]
  · rw [entries]
    by_cases same : k = id
    · rw [same, get?_putLast, there, map_some, map_some, size]
    · rw [get?_putLast_of_ne same]
  · intro all e he
    rw [entries] at he
    rcases mem_putLast.mp he with ⟨old, -⟩ | rfl
    · exact all e old
    · exact placed (all (id, seg) (get?_eq_some.mp there))

theorem sameStock_promote (there : s.segments.get? id = some seg) : SameStock s (s.promote id seg) :=
  sameStock_putLast seg there rfl (fun h => h) rfl

theorem sameStock_relocate (there : s.segments.get? id = some seg) (d : Device) :
    SameStock s (s.relocate id seg d) :=
  sameStock_putLast (seg.moveTo d) there rfl (fun h => h.moveTo d) (relocate_segments s id seg d)

variable {fuel m : Nat}

theorem Offloads.sameStock (o : Offloads m s s') : SameStock s s' := by
  induction o with
  | enough => exact .refl _
  | offload first _ _ ih => exact (sameStock_relocate (get?_of_cudas first).1 cpu).trans ih

theorem sum_cudas (s : OfflineKVCache τ) :
    s.segments.total cudaBytes = ((s.cudas.map (fun e => e.2.nbytes)).sum : Nat) := by
  unfold OrderedDict.total cudas
  induction s.segments.entries with
  | nil => rfl
  | cons e l ih =>
    rw [List.map_cons, List.sum_cons, ih, List.filter_cons, cudaBytes]
    split
    · rw [List.map_cons, List.sum_cons]
      push_cast
      rfl
    · rw [Int.zero_add]

theorem relocate_total (s : OfflineKVCache τ) (id : String) (seg : OfflineSegment τ) (d : Device) :
    (s.relocate id seg d).deviceBytes + (s.relocate id seg d).hostBytes = s.deviceBytes + s.hostBytes := by
  have old := seg.cudaBytes_add
  have new := (seg.moveTo d).cudaBytes_add
  rw [nbytes_moveTo] at new
  rw [relocate_deviceBytes, relocate_hostBytes]
  omega

theorem Offloads.total (o : Offloads m s s') :
    s'.deviceBytes + s'.hostBytes = s.deviceBytes + s.hostBytes := by
  induction o with
  | enough => rfl
  | offload _ _ _ ih => rw [ih, relocate_total]

theorem Enforces.of_move (e : Enforces (s.relocate id seg d) t s') (w : Within s) :
    (s.maxDeviceBytes = none → s' = s.relocate id seg d) ∧
      ∀ m, s.maxDeviceBytes = some m → Offloads m (s.relocate id seg d) s' := by
  obtain ⟨sameDevice, sameHost⟩ := sameLimits_relocate s id seg d
  have total : t.deviceBytes + t.hostBytes = s.deviceBytes + s.hostBytes := by
    rw [← relocate_total s id seg d]
    cases device : s.maxDeviceBytes with
    | none => rw [e.unlimited (sameDevice.trans device)]
    | some m => rw [(e.device m (sameDevice.trans device)).total]
  have same : s' = t := by
    cases host : s.maxHostBytes with
    | none => exact e.unbounded (sameHost.trans host)
    | some n =>
      have room := w.total n host
      have removes := e.host n (sameHost.trans host)
      rw [sameDevice] at removes
      cases removes with
      | enough => rfl
      | remove _ excess => exact absurd room (by omega)
  constructor
  · intro device
    rw [same, e.unlimited (sameDevice.trans device)]
  · intro m device
    rw [same]
    exact e.device m (sameDevice.trans device)

theorem current_of_get? (there : s.segments.get? id = some seg) : s.current id = some seg := by
  rw [current, there]
  rfl

/-- The segments `F` are on `d`; on a cuda device they stand behind all others. -/
structure Held (d : Device) (F : Finset String) (s : OfflineKVCache τ) : Prop where
  lives : ∀ id ∈ F, ∃ seg, s.segments.get? id = some seg ∧ seg.LivesOn d
  back : d.type = .cuda → ∃ front back, s.cudas = front ++ back ∧ (∀ e ∈ front, e.1 ∉ F) ∧
    ∀ e ∈ back, e.1 ∈ F

theorem held_empty (d : Device) (s : OfflineKVCache τ) : Held d ∅ s :=
  ⟨nofun, fun _ => ⟨s.cudas, [], (append_nil _).symm, fun _ _ => notMem_empty _, nofun⟩⟩

section

variable {l : List (String × OfflineSegment τ)} (sub : l.Sublist s.segments.entries)
include sub

theorem sum_nbytes_eq :
    (l.map (fun e => e.2.nbytes)).sum = ∑ id ∈ (l.map Prod.fst).toFinset, s.bytesOf id := by
  have distinct : (l.map Prod.fst).Nodup := s.segments.nodup.sublist (sub.map _)
  rw [sum_toFinset _ distinct, List.map_map]
  refine congrArg sum (map_congr_left fun e he => ?_)
  have there := get?_eq_some.mpr (sub.subset he)
  change _ = s.bytesOf e.1
  rw [bytesOf, there]
  rfl

theorem sum_nbytes_le {F : Finset String} (inside : ∀ e ∈ l, e.1 ∈ F) :
    (l.map (fun e => e.2.nbytes)).sum ≤ ∑ id ∈ F, s.bytesOf id := by
  rw [sum_nbytes_eq sub]
  refine sum_le_sum_of_subset fun id hid => ?_
  obtain ⟨e, he, rfl⟩ := mem_map.mp (mem_toFinset.mp hid)
  exact inside e he

end

section Step

variable {F : Finset String}

theorem Held.putLast {new : OfflineSegment τ} (held : Held d F s) (lives : new.LivesOn d)
    (entries : s'.segments = s.segments.putLast id new) : Held d (insert id F) s' := by
  constructor
  · intro k hk
    rw [entries]
    by_cases same : k = id
    · exact ⟨new, by rw [same, get?_putLast], lives⟩
    · rw [get?_putLast_of_ne same]
      exact held.lives k (mem_of_mem_insert_of_ne hk same)
  · intro cuda
    obtain ⟨front, back, parts, others, inside⟩ := held.back cuda
    have onCuda : new.onCuda = true := by
      rw [OfflineSegment.onCuda, lives.1]
      exact decide_eq_true cuda
    refine ⟨front.filter (fun e => e.1 ≠ id), back.filter (fun e => e.1 ≠ id) ++ [(id, new)], ?_, ?_, ?_⟩
    · change s'.segments.entries.filter _ = _
      rw [entries, filter_putLast, if_pos onCuda, ← append_assoc, ← filter_append, ← parts]
      rfl
    · intro e he
      obtain ⟨old, other⟩ := mem_filter.mp he
      rw [mem_insert, not_or]
      exact ⟨by simpa using other, others e old⟩
    · intro e he
      rcases mem_append.mp he with he | he
      · exact mem_insert_of_mem (inside e (mem_filter.mp he).1)
      · rw [List.mem_singleton.mp he]
        exact mem_insert_self _ _

theorem Held.offload {rest : List (String × OfflineSegment τ)} (held : Held d F s)
    (h : Accounted s) (first : s.cudas = (id, seg) :: rest) (excess : m < s.deviceBytes)
    (room : d.type = .cuda → ∑ id ∈ F, s.bytesOf id ≤ m) : Held d F (s.relocate id seg cpu) := by
  obtain ⟨there, cuda⟩ := get?_of_cudas first
  have other : id ∉ F := by
    intro member
    by_cases target : d.type = .cuda
    · obtain ⟨front, back, parts, others, inside⟩ := held.back target
      cases front with
      | nil =>
        have sub : back.Sublist s.segments.entries := by
          rw [nil_append] at parts
          exact parts ▸ filter_sublist
        have few := sum_nbytes_le sub inside
        have all := room target
        rw [h.device_eq, sum_cudas, parts, nil_append] at excess
        omega
      | cons e front =>
        rw [parts] at first
        obtain ⟨rfl, -⟩ := List.cons.inj first
        exact others _ List.mem_cons_self member
    · obtain ⟨old, same, lives⟩ := held.lives id member
      cases there.symm.trans same
      rw [OfflineSegment.onCuda, lives.1] at cuda
      exact target (of_decide_eq_true cuda)
  constructor
  · intro k hk
    have different : k ≠ id := by
      rintro rfl
      exact other hk
    rw [relocate_segments, get?_putLast_of_ne different]
    exact held.lives k hk
  · intro target
    obtain ⟨front, back, parts, others, inside⟩ := held.back target
    cases front with
    | nil =>
      rw [first] at parts
      exact absurd (inside _ (parts ▸ List.mem_cons_self)) other
    | cons e front =>
      refine ⟨front, back, ?_, fun x hx => others x (mem_cons_of_mem _ hx), inside⟩
      rw [cudas_offload first]
      rw [parts] at first
      exact (List.cons.inj first).2.symm

theorem Offloads.held (o : Offloads m s s') (held : Held d F s) (h : Accounted s)
    (room : d.type = .cuda → ∑ id ∈ F, s.bytesOf id ≤ m) : Held d F s' := by
  induction o with
  | enough => exact held
  | offload first excess _ ih =>
    have there := (get?_of_cudas first).1
    refine ih (held.offload h first excess room) (h.relocate there cpu) fun target => ?_
    simpa only [(sameStock_relocate there cpu).bytesOf] using room target

structure Fetched (s s' : OfflineKVCache τ) : Prop where
  sound : Sound s'
  stock : SameStock s s'
  limits : SameLimits s s'

theorem Fetched.trans (f : Fetched s t) (f' : Fetched t s') : Fetched s s' :=
  ⟨f'.sound, f.stock.trans f'.stock, f.limits.trans f'.limits⟩

theorem fetched_promote (sound : Sound s) (there : s.segments.get? id = some seg) :
    Fetched s (s.promote id seg) :=
  ⟨⟨sound.accounted.promote there, sound.within.device, sound.within.total⟩, sameStock_promote there,
    rfl, rfl⟩

theorem fetched_move (sound : Sound s) (there : s.segments.get? id = some seg)
    (e : Enforces (s.relocate id seg d) t s') : Fetched s s' := by
  obtain ⟨unlimited, limited⟩ := e.of_move sound.within
  refine ⟨⟨e.accounted (sound.accounted.relocate there d), e.within⟩, ?_,
    (sameLimits_relocate s id seg d).trans e.limits⟩
  cases device : s.maxDeviceBytes with
  | none =>
    rw [unlimited device]
    exact sameStock_relocate there d
  | some m => exact (sameStock_relocate there d).trans (limited m device).sameStock

theorem get?_of_sameStock (stock : SameStock s s') (there : s.segments.get? id = some seg) :
    ∃ seg', s'.segments.get? id = some seg' := by
  have size := stock.size id
  rw [there, map_some] at size
  obtain ⟨seg', found, -⟩ := map_eq_some_iff.mp size
  exact ⟨seg', found⟩

theorem toDevice_fetched (sound : Sound s) (enough : s.segments.entries.length + 3 ≤ fuel)
    (id : String) (d : Device) :
    ∃ found s', s.toDevice fuel id d = .ok (found, s') ∧ Fetched s s' ∧
      (found = none ↔ s.segments.get? id = none) := by
  have few : s.cudas.length ≤ s.segments.entries.length := length_filter_le _ _
  rcases toDevice_spec sound.accounted ((Nat.add_le_add_right few 3).trans enough) id d with
    ⟨absent, ran⟩ | ⟨seg, there, -, ran⟩ | ⟨seg, t, s', there, -, ran, e⟩
  · exact ⟨none, s, ran, ⟨sound, .refl s, rfl, rfl⟩, by simp [absent]⟩
  · exact ⟨_, _, ran, fetched_promote sound there, by simp [there]⟩
  · have fetched := fetched_move sound there e
    obtain ⟨seg', here⟩ := get?_of_sameStock fetched.stock there
    exact ⟨_, s', ran, fetched, by simp [there, current_of_get? here]⟩

theorem toDevice_absent (pos : 0 < fuel) (absent : s.segments.get? id = none) (d : Device) :
    s.toDevice fuel id d = .ok (none, s) := by
  obtain ⟨fuel, rfl⟩ := Nat.exists_eq_add_one.mpr pos
  rw [toDevice, absent]

theorem toDevice_held (sound : Sound s) (placed : ∀ e ∈ s.segments.entries, e.2.Placed)
    (enough : s.segments.entries.length + 3 ≤ fuel) (held : Held d F s)
    (there : s.segments.get? id = some seg)
    (room : d.type = .cuda → ∀ m, s.maxDeviceBytes = some m → ∑ k ∈ insert id F, s.bytesOf k ≤ m) :
    ∃ seg' s', s.toDevice fuel id d = .ok (some seg', s') ∧ seg'.LivesOn d ∧
      Held d (insert id F) s' ∧ Fetched s s' := by
  have few : s.cudas.length ≤ s.segments.entries.length := length_filter_le _ _
  have place := placed (id, seg) (get?_eq_some.mp there)
  rcases toDevice_spec sound.accounted ((Nat.add_le_add_right few 3).trans enough) id d with
    ⟨absent, -⟩ | ⟨old, here, same, ran⟩ | ⟨old, t, s', here, -, ran, e⟩
  · cases absent.symm.trans there
  · cases here.symm.trans there
    have lives : seg.LivesOn d := same ▸ place.livesOn
    exact ⟨seg, _, ran, lives, held.putLast lives rfl, fetched_promote sound there⟩
  · cases here.symm.trans there
    have moved : Held d (insert id F) (s.relocate id seg d) :=
      held.putLast (place.livesOn_moveTo d) (relocate_segments s id seg d)
    obtain ⟨unlimited, limited⟩ := e.of_move sound.within
    have after : Held d (insert id F) s' := by
      cases device : s.maxDeviceBytes with
      | none =>
        rw [unlimited device]
        exact moved
      | some m =>
        refine (limited m device).held moved (sound.accounted.relocate there d) fun target => ?_
        simpa only [(sameStock_relocate there d).bytesOf] using room target m device
    obtain ⟨seg', found, lives⟩ := after.lives id (mem_insert_self _ _)
    rw [current_of_get? found] at ran
    exact ⟨seg', s', ran, lives, after, fetched_move sound there e⟩

end Step

theorem resolveSegments_fetched (d : Device) (ids : List (Option String)) (cursor : Nat)
    (sound : Sound s) (enough : s.segments.entries.length + 3 ≤ fuel) :
    ∃ rs s', resolveSegments fuel d ids cursor s = .ok (rs, s') ∧ Fetched s s' ∧
      ∀ id, some id ∈ ids → s.segments.get? id ≠ none → id ∈ rs.map Prod.fst := by
  induction ids generalizing s cursor with
  | nil => exact ⟨[], s, rfl, ⟨sound, .refl s, rfl, rfl⟩, nofun⟩
  | cons head ids ih =>
    cases head with
    | none =>
      obtain ⟨rs, s', ran, fetched, all⟩ := ih cursor sound enough
      refine ⟨rs, s', ran, fetched, fun id hid resident => all id ?_ resident⟩
      exact (mem_cons.mp hid).resolve_left nofun
    | some id =>
      obtain ⟨found, s₁, ran₁, fetched₁, missing⟩ := toDevice_fetched sound enough id d
      have enough₁ : s₁.segments.entries.length + 3 ≤ fuel := by rw [fetched₁.stock.length]; exact enough
      have resident₁ : ∀ k, s.segments.get? k ≠ none → s₁.segments.get? k ≠ none := by
        intro k resident
        obtain ⟨seg, there⟩ := ne_none_iff_exists'.mp resident
        obtain ⟨seg', here⟩ := get?_of_sameStock fetched₁.stock there
        rw [here]
        nofun
      cases found with
      | none =>
        obtain ⟨rs, s', ran, fetched, all⟩ := ih cursor fetched₁.sound enough₁
        refine ⟨rs, s', ?_, fetched₁.trans fetched, fun k hk resident => ?_⟩
        · simp only [resolveSegments, ran₁, ok_bind]
          exact ran
        · rcases mem_cons.mp hk with same | hk
          · cases same
            exact absurd (missing.mp rfl) resident
          · exact all k hk (resident₁ k resident)
      | some seg =>
        obtain ⟨rs, s', ran, fetched, all⟩ := ih (cursor + seg.docLen) fetched₁.sound enough₁
        refine ⟨(id, seg, cursor, cursor + seg.docLen) :: rs, s', ?_, fetched₁.trans fetched,
          fun k hk resident => ?_⟩
        · simp only [resolveSegments, ran₁, ran, ok_bind]
          rfl
        · rcases mem_cons.mp hk with same | hk
          · cases same
            exact List.mem_cons_self
          · exact mem_cons_of_mem _ (all k hk (resident₁ k resident))

def Usable (d : Device) (rs : List (String × OfflineSegment τ × Nat × Nat)) (s : OfflineKVCache τ) : Prop :=
  ∀ r ∈ rs, r.2.1.LivesOn d ∧ ∃ seg, s.segments.get? r.1 = some seg ∧ seg.LivesOn d

theorem resolveSegments_held {F : Finset String} (ids : List (Option String)) (cursor : Nat)
    (sound : Sound s) (placed : ∀ e ∈ s.segments.entries, e.2.Placed)
    (enough : s.segments.entries.length + 3 ≤ fuel) (held : Held d F s)
    (room : d.type = .cuda → ∀ m, s.maxDeviceBytes = some m →
      ∑ id ∈ F ∪ ids.reduceOption.toFinset, s.bytesOf id ≤ m) :
    ∃ rs s' F', resolveSegments fuel d ids cursor s = .ok (rs, s') ∧ Held d F' s' ∧ F ⊆ F' ∧
      ∀ r ∈ rs, r.2.1.LivesOn d ∧ r.1 ∈ F' := by
  induction ids generalizing s cursor F with
  | nil => exact ⟨[], s, F, rfl, held, subset_rfl, nofun⟩
  | cons head ids ih =>
    cases head with
    | none => exact ih cursor sound placed enough held room
    | some id =>
      have asked : (some id :: ids).reduceOption = id :: ids.reduceOption := rfl
      rw [asked, toFinset_cons] at room
      cases there : s.segments.get? id with
      | none =>
        have ran₁ := toDevice_absent ((Nat.succ_pos _).trans_le enough) there d
        obtain ⟨rs, s', F', ran, after, grows, all⟩ := ih cursor sound placed enough held
          fun target m device => (sum_le_sum_of_subset
            (union_subset_union_right (Finset.subset_insert _ _))).trans (room target m device)
        refine ⟨rs, s', F', ?_, after, grows, all⟩
        simp only [resolveSegments, ran₁, ok_bind]
        exact ran
      | some seg =>
        have part : insert id F ⊆ F ∪ insert id ids.reduceOption.toFinset := by
          intro k hk
          rcases mem_insert.mp hk with rfl | hk
          · exact mem_union_right _ (mem_insert_self _ _)
          · exact mem_union_left _ hk
        obtain ⟨seg', s₁, ran₁, lives, held₁, fetched₁⟩ := toDevice_held sound placed enough held there
          fun target m device => (sum_le_sum_of_subset part).trans (room target m device)
        have enough₁ : s₁.segments.entries.length + 3 ≤ fuel := by rw [fetched₁.stock.length]; exact enough
        obtain ⟨rs, s', F', ran, after, grows, all⟩ := ih (cursor + seg'.docLen) fetched₁.sound
          (fetched₁.stock.placed placed) enough₁ held₁ (by
            intro target m device
            simp only [fetched₁.stock.bytesOf]
            rw [insert_union, ← union_insert]
            exact room target m (fetched₁.limits.1.symm.trans device))
        refine ⟨(id, seg', cursor, cursor + seg'.docLen) :: rs, s', F', ?_, after,
          (Finset.subset_insert _ _).trans grows, ?_⟩
        · simp only [resolveSegments, ran₁, ran, ok_bind]
          rfl
        · exact forall_mem_cons.mpr ⟨⟨lives, grows (mem_insert_self _ _)⟩, all⟩

end OfflineKVCache

open OfflineKVCache

theorem requestedBytes_le {s s' : OfflineKVCache τ} {d : Device} (target : d.type = .cuda)
    (ids : List (Option String)) (stock : SameStock s s') (h : Accounted s')
    (there : ∀ id, some id ∈ ids → s.segments.get? id ≠ none →
      ∃ seg, s'.segments.get? id = some seg ∧ seg.LivesOn d) :
    (s.requestedBytes ids : Int) ≤ s'.deviceBytes := by
  have used : s.requestedBytes ids ≤ (s'.cudas.map (fun e => e.2.nbytes)).sum := by
    rw [← stock.requestedBytes, sum_nbytes_eq (l := s'.cudas) filter_sublist]
    refine sum_le_sum_of_ne_zero fun id hid weight => ?_
    have resident : s.segments.get? id ≠ none := by
      intro absent
      rw [stock.bytesOf, bytesOf, absent] at weight
      exact weight rfl
    obtain ⟨seg, here, lives⟩ := there id (reduceOption_mem_iff.mp (mem_toFinset.mp hid)) resident
    have cuda : seg.onCuda = true := by
      rw [OfflineSegment.onCuda, lives.1]
      exact decide_eq_true target
    have member : (id, seg) ∈ s'.cudas := mem_filter.mpr ⟨get?_eq_some.mp here, cuda⟩
    exact mem_toFinset.mpr (mem_map_of_mem member)
  rw [h.device_eq, sum_cudas]
  exact_mod_cast used

/-- The segments that a request gets are all on its device, and stay there, exactly when the device
has no limit or the resident ones fit together. -/
theorem resolveSegments_usable_iff (maxDeviceBytes maxHostBytes : Option Nat) {s : OfflineKVCache τ}
    (reach : Reaches maxDeviceBytes maxHostBytes s) (placed : ∀ e ∈ s.segments.entries, e.2.Placed)
    (ids : List (Option String)) (d : Device) (fuel : Nat)
    (enough : s.segments.entries.length + 3 ≤ fuel) :
    ∃ rs s', resolveSegments fuel d ids 0 s = .ok (rs, s') ∧ (Usable d rs s' ↔
        (d.type = .cuda → ∀ m, maxDeviceBytes = some m → s.requestedBytes ids ≤ m)) := by
  obtain ⟨sound, device, -⟩ := reach.sound
  obtain ⟨rs, s', ran, fetched, all⟩ := resolveSegments_fetched d ids 0 sound enough
  refine ⟨rs, s', ran, ?_, ?_⟩
  · intro usable target m limit
    have bound := fetched.sound.within.device m (fetched.limits.1.trans (device.trans limit))
    have used := requestedBytes_le target ids fetched.stock fetched.sound.accounted fun id hid resident => by
      obtain ⟨r, hr, rfl⟩ := mem_map.mp (all id hid resident)
      exact (usable r hr).2
    omega
  · intro room
    obtain ⟨rs', u, F, ran', held, -, lives⟩ := resolveSegments_held ids 0 sound placed enough
      (held_empty d s) (by
        intro target m limit
        rw [empty_union]
        exact room target m (device.symm.trans limit))
    cases ran.symm.trans ran'
    intro r hr
    exact ⟨(lives r hr).1, held.lives r.1 (lives r hr).2⟩

def mixedRun : List (Op Unit) := [.put (blob "a" .cpu 4), .put (blob "b" .cpu 6), .put (blob "c" .cuda 5)]

def oneLayer (s : OfflineKVCache Unit) : Bool :=
  s.segments.entries.all fun e => e.2.kv = [(some ⟨(), e.2.device⟩, some ⟨(), e.2.device⟩)]

theorem placed_of_oneLayer {s : OfflineKVCache Unit} (h : oneLayer s = true) :
    ∀ e ∈ s.segments.entries, e.2.Placed := by
  intro e he pair hp
  have kv : e.2.kv = [(some ⟨(), e.2.device⟩, some ⟨(), e.2.device⟩)] := by
    simpa using all_eq_true.mp h e he
  rw [kv, List.mem_singleton] at hp
  exact .inr ⟨_, _, hp, rfl, rfl⟩

theorem usable_of_mixedRun :
    ∃ s : OfflineKVCache Unit, Reaches (some 10) (some 8) s ∧ s.cudas.map Prod.fst = ["c"] ∧
      ∃ rs s', resolveSegments 9 { type := .cuda } [some "a", none, some "b"] 0 s = .ok (rs, s') ∧
        Usable { type := .cuda } rs s' := by
  have run : (do
      let s ← (init (some 10) (some 8)).after mixedRun
      return (s.cudas.map Prod.fst, oneLayer s, s.segments.entries.length,
        s.requestedBytes [some "a", none, some "b"])) = .ok (["c"], true, 3, 10) := by
    decide +kernel
  obtain ⟨s, ran, facts⟩ := bind_eq_ok.mp run
  obtain ⟨cudas, layers, length, bytes⟩ : _ ∧ _ ∧ _ ∧ _ := by
    simpa only [Prod.mk.injEq] using Except.ok.inj facts
  have reach := reaches_after mixedRun .init ran
  obtain ⟨rs, s', fetched, iff⟩ := resolveSegments_usable_iff (some 10) (some 8) reach
    (placed_of_oneLayer layers) [some "a", none, some "b"] { type := .cuda } 9
    (by rw [length]; decide)
  refine ⟨s, reach, cudas, rs, s', fetched, iff.mpr fun _ m limit => ?_⟩
  cases limit
  exact bytes.le

/-- The second segment of a request sends the first one back to the host. -/
theorem later_fetch_offloads_earlier :
    ∃ s : OfflineKVCache Unit, Reaches (some 8) (some 8) s ∧ (∀ e ∈ s.segments.entries, e.2.Placed) ∧
      ∃ rs s', resolveSegments 9 { type := .cuda } [some "a", some "b"] 0 s = .ok (rs, s') ∧
        rs.map (fun r => (r.1, r.2.1.device.type)) = [("a", .cuda), ("b", .cuda)] ∧
        (s'.segments.get? "a").map (fun seg => seg.device.type) = some .cpu ∧
        ¬ Usable { type := .cuda } rs s' := by
  have run : (do
      let s ← (init (some 8) (some 8)).after mixedRun
      let out ← resolveSegments 9 { type := .cuda } [some "a", some "b"] 0 s
      return (oneLayer s, out.1.map (fun r => (r.1, r.2.1.device.type)),
        (out.2.segments.get? "a").map (fun seg => seg.device.type)) : Except PyError _) =
      .ok (true, [("a", .cuda), ("b", .cuda)], some .cpu) := by
    decide +kernel
  obtain ⟨s, ran, run⟩ := bind_eq_ok.mp run
  obtain ⟨⟨rs, s'⟩, fetched, facts⟩ := bind_eq_ok.mp run
  obtain ⟨layers, returned, moved⟩ : _ ∧ _ ∧ _ := by
    simpa only [Prod.mk.injEq] using Except.ok.inj facts
  refine ⟨s, reaches_after mixedRun .init ran, placed_of_oneLayer layers, rs, s', fetched, returned,
    moved, fun usable => ?_⟩
  have first : ("a", DeviceType.cuda) ∈ rs.map (fun r => (r.1, r.2.1.device.type)) := by
    rw [returned]
    exact List.mem_cons_self
  obtain ⟨r, hr, same⟩ := mem_map.mp first
  obtain ⟨seg, there, lives⟩ := (usable r hr).2
  rw [(Prod.mk.inj same).1] at there
  rw [there, map_some, lives.1] at moved
  cases moved

end RedKnot.OfflineCache
