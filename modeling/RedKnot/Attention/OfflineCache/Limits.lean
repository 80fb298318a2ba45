import RedKnot.Attention.OfflineCache.Model

/-! What `_enforce_limits` does: it offloads first, and then removes the first entries. -/

namespace RedKnot.OfflineCache

open List OrderedDict OfflineSegment

variable {τ : Type}

def OfflineSegment.cudaBytes (seg : OfflineSegment τ) : Int := if seg.onCuda then seg.nbytes else 0

def OfflineSegment.hostBytes (seg : OfflineSegment τ) : Int := if seg.onCuda then 0 else seg.nbytes

section

variable (seg : OfflineSegment τ)

@[simp]
theorem OfflineSegment.onCuda_moveTo (d : Device) :
    (seg.moveTo d).onCuda = decide (d.type = .cuda) := rfl

@[simp]
theorem OfflineSegment.nbytes_moveTo (d : Device) : (seg.moveTo d).nbytes = seg.nbytes := rfl

theorem OfflineSegment.cudaBytes_add : seg.cudaBytes + seg.hostBytes = seg.nbytes := by
  unfold cudaBytes hostBytes
  split <;> simp

end

namespace OfflineKVCache

variable {s s' t : OfflineKVCache τ} {id : String} {seg : OfflineSegment τ} {d : Device}

def cudas (s : OfflineKVCache τ) : List (String × OfflineSegment τ) :=
  s.segments.entries.filter (fun e => e.2.onCuda)

def promote (s : OfflineKVCache τ) (id : String) (seg : OfflineSegment τ) : OfflineKVCache τ :=
  { s with segments := s.segments.putLast id seg }

def evict (s : OfflineKVCache τ) (id : String) (seg : OfflineSegment τ) : OfflineKVCache τ :=
  { s.forget id seg with evicted := s.evicted ++ [(id, seg)] }

section

variable (s : OfflineKVCache τ) (id : String) (seg : OfflineSegment τ) (d : Device)

theorem relocate_segments :
    (s.relocate id seg d).segments = s.segments.putLast id (seg.moveTo d) := by
  unfold relocate
  split
  · rfl
  · split <;> rfl

theorem relocate_deviceBytes :
    (s.relocate id seg d).deviceBytes = s.deviceBytes - seg.cudaBytes + (seg.moveTo d).cudaBytes := by
  unfold relocate cudaBytes
  rw [onCuda_moveTo, nbytes_moveTo]
  cases seg.onCuda <;> by_cases cuda : d.type = .cuda <;> simp [cuda]

theorem relocate_hostBytes :
    (s.relocate id seg d).hostBytes = s.hostBytes - seg.hostBytes + (seg.moveTo d).hostBytes := by
  unfold relocate OfflineSegment.hostBytes
  rw [onCuda_moveTo, nbytes_moveTo]
  cases seg.onCuda <;> by_cases cuda : d.type = .cuda <;> simp [cuda]

theorem relocate_rest : (s.relocate id seg d).maxDeviceBytes = s.maxDeviceBytes ∧
      (s.relocate id seg d).maxHostBytes = s.maxHostBytes ∧
      (s.relocate id seg d).evicted = s.evicted := by
  unfold relocate
  split
  · exact ⟨rfl, rfl, rfl⟩
  · split <;> exact ⟨rfl, rfl, rfl⟩

end

section

variable (s : OfflineKVCache τ)

theorem addBytes_eq (seg : OfflineSegment τ) (n : Int) : s.addBytes seg n = { s with
      deviceBytes := s.deviceBytes + if seg.onCuda then n else 0
      hostBytes := s.hostBytes + if seg.onCuda then 0 else n } := by
  unfold addBytes
  cases seg.onCuda <;> simp

theorem store_eq (seg : OfflineSegment τ) : s.store seg = { s with
      segments := s.segments.putLast seg.segmentId seg
      deviceBytes := s.deviceBytes + seg.cudaBytes
      hostBytes := s.hostBytes + seg.hostBytes } := addBytes_eq _ _ _

section

variable (id : String) (seg : OfflineSegment τ)

theorem forget_eq : s.forget id seg = { s with
      segments := s.segments.erase id
      deviceBytes := s.deviceBytes - seg.cudaBytes
      hostBytes := s.hostBytes - seg.hostBytes } := by
  rw [forget, addBytes_eq]
  unfold cudaBytes OfflineSegment.hostBytes
  cases seg.onCuda <;> simp [Int.sub_eq_add_neg]

theorem evict_eq : s.evict id seg = { s with
      segments := s.segments.erase id
      deviceBytes := s.deviceBytes - seg.cudaBytes
      hostBytes := s.hostBytes - seg.hostBytes
      evicted := s.evicted ++ [(id, seg)] } := by
  rw [evict, forget_eq]

end

end

structure Accounted (s : OfflineKVCache τ) : Prop where
  keyed : ∀ e ∈ s.segments.entries, e.2.segmentId = e.1
  device_eq : s.deviceBytes = s.segments.total cudaBytes
  host_eq : s.hostBytes = s.segments.total OfflineSegment.hostBytes

section

variable (h : Accounted s)
include h

theorem Accounted.promote (there : s.segments.get? id = some seg) :
    Accounted (s.promote id seg) := by
  refine ⟨fun e he => ?_, ?_, ?_⟩
  · rcases mem_putLast.mp he with ⟨old, -⟩ | rfl
    · exact h.keyed e old
    · exact h.keyed _ (get?_eq_some.mp there)
  · change s.deviceBytes = (s.segments.putLast id seg).total _
    rw [total_putLast _ there, h.device_eq]
    omega
  · change s.hostBytes = (s.segments.putLast id seg).total _
    rw [total_putLast _ there, h.host_eq]
    omega

theorem Accounted.relocate (there : s.segments.get? id = some seg) (d : Device) :
    Accounted (s.relocate id seg d) := by
  refine ⟨fun e he => ?_, ?_, ?_⟩
  · rw [relocate_segments] at he
    rcases mem_putLast.mp he with ⟨old, -⟩ | rfl
    · exact h.keyed e old
    · exact h.keyed (id, seg) (get?_eq_some.mp there)
  · rw [relocate_deviceBytes, relocate_segments, total_putLast _ there, h.device_eq]
  · rw [relocate_hostBytes, relocate_segments, total_putLast _ there, h.host_eq]

theorem Accounted.store (new : s.segments.get? seg.segmentId = none) : Accounted (s.store seg) := by
  rw [store_eq]
  refine ⟨fun e he => ?_, ?_, ?_⟩
  · rcases mem_putLast.mp he with ⟨old, -⟩ | rfl
    · exact h.keyed e old
    · rfl
  · dsimp only
    rw [total_putLast_new _ new, h.device_eq]
  · dsimp only
    rw [total_putLast_new _ new, h.host_eq]

theorem Accounted.forget (there : s.segments.get? id = some seg) : Accounted (s.forget id seg) := by
  rw [forget_eq]
  refine ⟨fun e he => h.keyed e (mem_erase.mp he).1, ?_, ?_⟩
  · dsimp only
    rw [total_erase _ there, h.device_eq]
  · dsimp only
    rw [total_erase _ there, h.host_eq]

theorem Accounted.evict (there : s.segments.get? id = some seg) : Accounted (s.evict id seg) :=
  ⟨(h.forget there).keyed, (h.forget there).device_eq, (h.forget there).host_eq⟩

end

variable {rest : List (String × OfflineSegment τ)}

theorem get?_of_cudas (first : s.cudas = (id, seg) :: rest) :
    s.segments.get? id = some seg ∧ seg.onCuda = true := by
  have here : (id, seg) ∈ s.cudas := by
    rw [first]
    exact mem_cons_self
  obtain ⟨member, cuda⟩ := mem_filter.mp here
  exact ⟨get?_eq_some.mpr member, cuda⟩

theorem cudas_relocate (s : OfflineKVCache τ) (id : String) (seg : OfflineSegment τ) (d : Device) :
    (s.relocate id seg d).cudas = s.cudas.filter (fun e => e.1 ≠ id) ++
      if d.type = .cuda then [(id, seg.moveTo d)] else [] := by
  rw [cudas, relocate_segments, filter_putLast, onCuda_moveTo]
  simp only [decide_eq_true_eq]
  rfl

theorem nodup_cudas (s : OfflineKVCache τ) : (s.cudas.map Prod.fst).Nodup :=
  s.segments.nodup.sublist (filter_sublist.map _)

theorem cudas_offload (first : s.cudas = (id, seg) :: rest) :
    (s.relocate id seg cpu).cudas = rest := by
  have distinct := s.nodup_cudas
  rw [first] at distinct
  rw [cudas_relocate, first, filter_first distinct]
  exact append_nil _

theorem entries_evict
    (first : s.segments.entries = (id, seg) :: rest) : (s.evict id seg).segments.entries = rest := by
  have distinct := s.segments.nodup
  rw [first] at distinct
  rw [evict_eq]
  change s.segments.entries.filter _ = _
  rw [first, filter_first distinct]

theorem Accounted.deviceBytes_of_none (h : Accounted s)
    (none : ∀ e ∈ s.segments.entries, e.2.onCuda = false) : s.deviceBytes = 0 := by
  rw [h.device_eq]
  refine sum_eq_zero fun x hx => ?_
  obtain ⟨e, he, rfl⟩ := mem_map.mp hx
  simp [cudaBytes, none e he]

inductive Offloads (limit : Nat) : OfflineKVCache τ → OfflineKVCache τ → Prop
  | enough {s : OfflineKVCache τ} (fits : s.deviceBytes ≤ limit) : Offloads limit s s
  | offload {s s' : OfflineKVCache τ} {id : String} {seg : OfflineSegment τ}
      {rest : List (String × OfflineSegment τ)} (first : s.cudas = (id, seg) :: rest)
      (excess : limit < s.deviceBytes) (next : Offloads limit (s.relocate id seg cpu) s') :
      Offloads limit s s'

inductive Removes (limit : Int) : OfflineKVCache τ → OfflineKVCache τ → Prop
  | enough {s : OfflineKVCache τ} (fits : s.deviceBytes + s.hostBytes ≤ limit) : Removes limit s s
  | remove {s s' : OfflineKVCache τ} {id : String} {seg : OfflineSegment τ}
      {rest : List (String × OfflineSegment τ)} (first : s.segments.entries = (id, seg) :: rest)
      (excess : limit < s.deviceBytes + s.hostBytes) (next : Removes limit (s.evict id seg) s') :
      Removes limit s s'

structure Enforces (s t s' : OfflineKVCache τ) : Prop where
  unlimited : s.maxDeviceBytes = none → t = s
  device : ∀ m, s.maxDeviceBytes = some m → Offloads m s t
  unbounded : s.maxHostBytes = none → s' = t
  host : ∀ m, s.maxHostBytes = some m → Removes (s.maxDeviceBytes.getD 0 + m) t s'

def SameLimits (s s' : OfflineKVCache τ) : Prop :=
  s'.maxDeviceBytes = s.maxDeviceBytes ∧ s'.maxHostBytes = s.maxHostBytes

section

variable (s : OfflineKVCache τ) (id : String) (seg : OfflineSegment τ)

theorem sameLimits_relocate (d : Device) : SameLimits s (s.relocate id seg d) :=
  ⟨(s.relocate_rest id seg d).1, (s.relocate_rest id seg d).2.1⟩

theorem sameLimits_evict : SameLimits s (s.evict id seg) := by
  rw [evict_eq]
  exact ⟨rfl, rfl⟩

end

theorem SameLimits.trans (h : SameLimits s t) (h' : SameLimits t s') : SameLimits s s' :=
  ⟨h'.1.trans h.1, h'.2.trans h.2⟩

section Loops

variable {m : Nat} {limit : Int}

theorem Offloads.limits (o : Offloads m s s') : SameLimits s s' := by
  induction o with
  | enough => exact ⟨rfl, rfl⟩
  | offload _ _ _ ih => exact (sameLimits_relocate _ _ _ _).trans ih

theorem Offloads.accounted (o : Offloads m s s') (h : Accounted s) : Accounted s' := by
  induction o with
  | enough => exact h
  | offload first _ _ ih => exact ih (h.relocate (get?_of_cudas first).1 cpu)

theorem Offloads.fits (o : Offloads m s s') : s'.deviceBytes ≤ m := by
  induction o with
  | enough fits => exact fits
  | offload _ _ _ ih => exact ih

theorem Removes.limits (r : Removes limit s s') : SameLimits s s' := by
  induction r with
  | enough => exact ⟨rfl, rfl⟩
  | remove _ _ _ ih => exact (sameLimits_evict _ _ _).trans ih

theorem get?_of_first
    (first : s.segments.entries = (id, seg) :: rest) : s.segments.get? id = some seg := by
  rw [get?_eq_some, first]
  exact mem_cons_self

section

variable (r : Removes limit s s')
include r

theorem Removes.accounted (h : Accounted s) : Accounted s' := by
  induction r with
  | enough => exact h
  | remove first _ _ ih => exact ih (h.evict (get?_of_first first))

theorem Removes.fits : s'.deviceBytes + s'.hostBytes ≤ limit := by
  induction r with
  | enough fits => exact fits
  | remove _ _ _ ih => exact ih

theorem Removes.deviceBytes_le : s'.deviceBytes ≤ s.deviceBytes := by
  induction r with
  | enough => exact le_rfl
  | @remove s _ id seg _ _ _ _ ih =>
    refine ih.trans ?_
    rw [evict_eq]
    unfold cudaBytes
    dsimp only
    split <;> omega

end

section

variable (offload : OfflineKVCache τ → String → Except PyError (OfflineKVCache τ))

theorem deviceLoop_enough (sids : List String) (fits : s.deviceBytes ≤ m) :
    deviceLoop offload m sids s = .ok s := by
  cases sids with
  | nil => rfl
  | cons sid sids => rw [deviceLoop, if_pos fits]

theorem deviceLoop_spec (h : Accounted s)
    (call : ∀ id seg rest, s.cudas = (id, seg) :: rest → m < s.deviceBytes →
      ∃ u, offload s id = .ok u ∧ u.deviceBytes ≤ m)
    (pre rest : List (String × OfflineSegment τ)) (parts : s.segments.entries = pre ++ rest)
    (clean : ∀ e ∈ pre, e.2.onCuda = false) :
    ∃ u, deviceLoop offload m (rest.map Prod.fst) s = .ok u ∧
      ((s.deviceBytes ≤ m ∧ u = s) ∨ (m < s.deviceBytes ∧
        ∃ id seg rest, s.cudas = (id, seg) :: rest ∧ offload s id = .ok u)) := by
  induction rest generalizing pre with
  | nil =>
    have zero := h.deviceBytes_of_none fun e he => clean e (by rwa [parts, append_nil] at he)
    exact ⟨s, rfl, .inl ⟨by omega, rfl⟩⟩
  | cons e rest ih =>
    by_cases fits : s.deviceBytes ≤ m
    · exact ⟨s, deviceLoop_enough _ _ fits, .inl ⟨fits, rfl⟩⟩
    · have there : s.segments.get? e.1 = some e.2 := by
        rw [get?_eq_some, parts]
        exact mem_append_right _ mem_cons_self
      rw [map_cons, deviceLoop, if_neg fits, there]
      cases cuda : e.2.onCuda with
      | true =>
        have first : s.cudas = (e.1, e.2) :: rest.filter (fun e => e.2.onCuda) := by
          rw [cudas, parts, filter_append, filter_eq_nil_iff.mpr fun e he => by simp [clean e he],
            filter_cons, if_pos cuda]
          rfl
        obtain ⟨u, ran, small⟩ := call _ _ _ first (by omega)
        refine ⟨u, ?_, .inr ⟨by omega, _, _, _, first, ran⟩⟩
        simp only [cuda, if_true, ran, ok_bind]
        exact deviceLoop_enough _ _ small
      | false =>
        simp only [cuda, Bool.false_eq_true, if_false]
        refine ih (pre ++ [e]) (by rw [parts, append_assoc]; rfl) ?_
        intro k hk
        rcases mem_append.mp hk with hk | hk
        · exact clean k hk
        · rw [mem_singleton.mp hk, cuda]

end

theorem hostLoop_spec (nonneg : 0 ≤ limit) (rest : List (String × OfflineSegment τ)) (h : Accounted s)
    (parts : s.segments.entries = rest) :
    ∃ u, hostLoop limit (rest.map Prod.fst) s = .ok u ∧ Removes limit s u := by
  induction rest generalizing s with
  | nil =>
    have zero : s.deviceBytes + s.hostBytes = 0 := by
      rw [h.device_eq, h.host_eq, total, total, parts]
      rfl
    exact ⟨s, rfl, .enough (by omega)⟩
  | cons e rest ih =>
    have there : s.segments.get? e.1 = some e.2 := get?_of_first parts
    rw [map_cons, hostLoop]
    split
    · next fits => exact ⟨s, rfl, .enough fits⟩
    · next excess =>
      obtain ⟨u, ran, removes⟩ := ih (h.evict there) (entries_evict parts)
      refine ⟨u, ?_, .remove parts (by omega) removes⟩
      rw [there]
      exact ran

theorem Enforces.limits (e : Enforces s t s') : SameLimits s s' := by
  have first : SameLimits s t := by
    cases device : s.maxDeviceBytes with
    | none => exact e.unlimited device ▸ ⟨rfl, rfl⟩
    | some m => exact (e.device m device).limits
  cases host : s.maxHostBytes with
  | none => exact e.unbounded host ▸ first
  | some m => exact first.trans (e.host m host).limits

theorem Enforces.accounted (e : Enforces s t s') (h : Accounted s) : Accounted s' := by
  have first : Accounted t := by
    cases device : s.maxDeviceBytes with
    | none => exact e.unlimited device ▸ h
    | some m => exact (e.device m device).accounted h
  cases host : s.maxHostBytes with
  | none => exact e.unbounded host ▸ first
  | some m => exact (e.host m host).accounted first

theorem Enforces.deviceBytes_le (e : Enforces s t s') (device : s.maxDeviceBytes = some m) :
    s'.deviceBytes ≤ m := by
  have first := (e.device m device).fits
  cases host : s.maxHostBytes with
  | none => exact e.unbounded host ▸ first
  | some m => exact (e.host m host).deviceBytes_le.trans first

theorem Enforces.offload (device : s.maxDeviceBytes = some m)
    (first : s.cudas = (id, seg) :: rest) (excess : m < s.deviceBytes)
    (e : Enforces (s.relocate id seg cpu) t s') : Enforces s t s' := by
  obtain ⟨sameDevice, sameHost⟩ := sameLimits_relocate s id seg cpu
  refine ⟨fun none => ?_, fun n hn => ?_, fun none => e.unbounded (sameHost.trans none), fun n hn => ?_⟩
  · rw [device] at none
    cases none
  · rw [device] at hn
    cases hn
    exact .offload first excess (e.device m (sameDevice.trans device))
  · rw [← sameDevice]
    exact e.host n (sameHost.trans hn)

theorem device_ne_cpu (cuda : seg.onCuda = true) : seg.device ≠ cpu := by
  rintro same
  rw [onCuda, same] at cuda
  cases cuda

theorem hostLoop_enough (sids : List String) (fits : s.deviceBytes + s.hostBytes ≤ limit) :
    hostLoop limit sids s = .ok s := by
  cases sids with
  | nil => rfl
  | cons sid sids => rw [hostLoop, if_pos fits]

theorem enforceHost_spec (h : Accounted s) :
    ∃ s', s.enforceHost = .ok s' ∧ (s.maxHostBytes = none → s' = s) ∧
      ∀ n, s.maxHostBytes = some n → Removes (s.maxDeviceBytes.getD 0 + n) s s' := by
  unfold enforceHost
  cases s.maxHostBytes with
  | none => exact ⟨s, rfl, fun _ => rfl, nofun⟩
  | some n =>
    have nonneg : (0 : Int) ≤ s.maxDeviceBytes.getD 0 + n := by omega
    obtain ⟨s', ran, removes⟩ := hostLoop_spec nonneg _ h rfl
    exact ⟨s', ran, nofun, fun _ hn => Option.some.inj hn ▸ removes⟩

theorem Enforces.enforceHost (e : Enforces s t s') : s'.enforceHost = .ok s' := by
  obtain ⟨sameDevice, sameHost⟩ := e.limits
  unfold OfflineKVCache.enforceHost
  rw [sameDevice, sameHost]
  cases host : s.maxHostBytes with
  | none => rfl
  | some n => exact hostLoop_enough _ (e.host n host).fits

theorem enforceLimits_spec (fuel : Nat) (h : Accounted s) (enough : s.cudas.length < fuel) :
    ∃ t s', s.enforceLimits fuel = .ok s' ∧ Enforces s t s' := by
  induction fuel generalizing s with
  | zero => cases enough
  | succ fuel ih =>
    -- What a call of the device loop gives.
    have nested : ∀ id seg rest, s.cudas = (id, seg) :: rest →
        ∃ t s', (Prod.snd <$> s.toDevice (fuel + 1) id cpu) = .ok s' ∧
          Enforces (s.relocate id seg cpu) t s' := by
      intro id seg rest first
      obtain ⟨there, cuda⟩ := get?_of_cudas first
      have fewer : (s.relocate id seg cpu).cudas.length < fuel := by
        rw [cudas_offload first]
        rw [first, length_cons] at enough
        omega
      obtain ⟨t, s', ran, e⟩ := ih (h.relocate there cpu) fewer
      refine ⟨t, s', ?_, e⟩
      unfold enforceLimits at ran
      rw [toDevice, there]
      simp only [device_ne_cpu cuda, if_false, ran, ok_bind]
      rfl
    unfold enforceLimits enforceWith enforceDevice
    cases device : s.maxDeviceBytes with
    | none =>
      obtain ⟨s', ran, unbounded, host⟩ := enforceHost_spec h
      exact ⟨s, s', ran, ⟨fun _ => rfl, fun m hm => (nomatch device.symm.trans hm), unbounded, host⟩⟩
    | some m =>
      obtain ⟨u, ran, outcome⟩ := deviceLoop_spec
        (fun s sid => Prod.snd <$> s.toDevice (fuel + 1) sid cpu) (m := m) h
        (by
          intro id seg rest first _
          obtain ⟨t, u, ran, e⟩ := nested id seg rest first
          exact ⟨u, ran, e.deviceBytes_le ((sameLimits_relocate s id seg cpu).1.trans device)⟩)
        [] s.segments.entries rfl nofun
      change deviceLoop _ m s.segments.keys s = .ok u at ran
      simp only [ran, ok_bind]
      rcases outcome with ⟨fits, rfl⟩ | ⟨excess, id, seg, rest, first, ran'⟩
      · obtain ⟨s', ran, unbounded, host⟩ := enforceHost_spec h
        refine ⟨u, s', ran, ⟨fun none => (nomatch device.symm.trans none), fun n hn => ?_, unbounded, host⟩⟩
        rw [device] at hn
        cases hn
        exact .enough fits
      · obtain ⟨t, u', ran, e⟩ := nested id seg rest first
        cases ran'.symm.trans ran
        exact ⟨t, u, e.enforceHost, e.offload device first excess⟩

end Loops

end OfflineKVCache

end RedKnot.OfflineCache
