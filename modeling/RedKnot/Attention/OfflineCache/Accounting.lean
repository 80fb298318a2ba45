import RedKnot.Attention.OfflineCache.Limits

/-! Runs of the offline cache keep the totals exact and stay within the limits. -/

namespace RedKnot.OfflineCache

open List OfflineSegment

variable {τ : Type}

def Op.used : Op τ → Option String
  | .put seg => some seg.segmentId
  | .get id => some id
  | .toDevice id _ => some id
  | .offload id => some id
  | .drop _ => none
  | .clear => none

namespace OfflineKVCache

variable {s s' t : OfflineKVCache τ} {id : String} {seg : OfflineSegment τ} {d : Device}

/-- The cache when a move of `id` comes to `_enforce_limits`, or ends if it does not. -/
def enteringMove (s : OfflineKVCache τ) (id : String) (d : Device) : OfflineKVCache τ :=
  match s.segments.get? id with
  | none => s
  | some seg => if seg.device = d then s.promote id seg else s.relocate id seg d

def entering (s : OfflineKVCache τ) : Op τ → OfflineKVCache τ
  | .put seg =>
    match s.segments.get? seg.segmentId with
    | some old => s.promote seg.segmentId old
    | none => s.store seg
  | .get id => (s.get id).2
  | .drop id => s.drop id
  | .toDevice id d => s.enteringMove id d
  | .offload id => s.enteringMove id cpu
  | .clear => s.clear

def enters (s : OfflineKVCache τ) : Op τ → Bool
  | .put seg => (s.segments.get? seg.segmentId).isNone
  | .toDevice id d => (s.segments.get? id).any (fun seg => seg.device ≠ d)
  | .offload id => (s.segments.get? id).any (fun seg => seg.device ≠ cpu)
  | _ => false

inductive Performs (s : OfflineKVCache τ) (op : Op τ) : OfflineKVCache τ → Prop where
  | quiet (calm : s.enters op = false) : Performs s op (s.entering op)
  | enforced {t s' : OfflineKVCache τ} (e : Enforces (s.entering op) t s') : Performs s op s'

theorem length_cudas_putLast (s : OfflineKVCache τ) (id : String) (seg : OfflineSegment τ) :
    ((s.segments.putLast id seg).entries.filter (fun e => e.2.onCuda)).length ≤ s.cudas.length + 1 := by
  rw [OrderedDict.filter_putLast, length_append]
  have : (s.cudas.filter (fun e => decide (e.1 ≠ id))).length ≤ s.cudas.length := length_filter_le _ _
  unfold cudas at this ⊢
  split <;> simp only [length_singleton, length_nil] <;> omega

section

variable (h : Accounted s) {fuel : Nat} (enough : s.cudas.length + 3 ≤ fuel)
include h enough

theorem toDevice_spec (id : String) (d : Device) :
    (s.segments.get? id = none ∧ s.toDevice fuel id d = .ok (none, s)) ∨
    (∃ seg, s.segments.get? id = some seg ∧ seg.device = d ∧
      s.toDevice fuel id d = .ok (some seg, s.promote id seg)) ∨
    (∃ seg t s', s.segments.get? id = some seg ∧ seg.device ≠ d ∧
      s.toDevice fuel id d = .ok (s'.current id, s') ∧ Enforces (s.relocate id seg d) t s') := by
  obtain ⟨fuel, rfl⟩ : ∃ f, fuel = f + 1 := Nat.exists_eq_add_one.mpr (by omega)
  rw [toDevice]
  cases there : s.segments.get? id with
  | none => exact .inl ⟨rfl, rfl⟩
  | some seg =>
    by_cases here : seg.device = d
    · refine .inr (.inl ⟨seg, rfl, here, ?_⟩)
      simp only [here, if_true]
      rfl
    · have few : (s.relocate id seg d).cudas.length < fuel := by
        have := s.length_cudas_putLast id (seg.moveTo d)
        rw [cudas, relocate_segments]
        omega
      obtain ⟨t, s', ran, e⟩ := enforceLimits_spec fuel (h.relocate there d) few
      unfold enforceLimits at ran
      refine .inr (.inr ⟨seg, t, s', rfl, here, ?_, e⟩)
      simp only [here, if_false, ran, ok_bind]
      rfl

theorem exec_spec (op : Op τ) : ∃ s', s.exec fuel op = .ok s' ∧ Performs s op s' := by
  have move : ∀ id d, s.entering op = s.enteringMove id d →
      s.enters op = (s.segments.get? id).any (fun seg => seg.device ≠ d) →
      ∃ s', (Prod.snd <$> s.toDevice fuel id d) = .ok s' ∧ Performs s op s' := by
    intro id d same calls
    rcases toDevice_spec h enough id d with ⟨absent, ran⟩ | ⟨seg, there, here, ran⟩ |
      ⟨seg, t, s', there, away, ran, e⟩
    · refine ⟨s.entering op, ?_, .quiet (by rw [calls, absent]; rfl)⟩
      rw [ran, same, enteringMove, absent]
      rfl
    · refine ⟨s.entering op, ?_, .quiet (by rw [calls, there]; simp [here])⟩
      simp only [ran, same, enteringMove, there, here, if_true]
      rfl
    · refine ⟨s', by rw [ran]; rfl, .enforced (t := t) ?_⟩
      simp only [same, enteringMove, there, away, if_false]
      exact e
  cases op with
  | put seg =>
    cases there : s.segments.get? seg.segmentId with
    | some old =>
      refine ⟨_, ?_, .quiet (by rw [enters, there]; rfl)⟩
      simp only [exec, put, entering, there]
      rfl
    | none =>
      have few : (s.store seg).cudas.length < fuel := by
        have := s.length_cudas_putLast seg.segmentId seg
        rw [store_eq, cudas]
        dsimp only
        omega
      obtain ⟨t, s', ran, e⟩ := enforceLimits_spec fuel (h.store there) few
      refine ⟨s', ?_, .enforced (t := t) ?_⟩
      · simp only [exec, put, there, ran]
      · simp only [entering, there]
        exact e
  | get id | drop id | clear => exact ⟨_, rfl, .quiet rfl⟩
  | toDevice id d => exact move id d rfl rfl
  | offload id => exact move id cpu rfl rfl

end

structure Within (s : OfflineKVCache τ) : Prop where
  device : ∀ m, s.maxDeviceBytes = some m → s.deviceBytes ≤ m
  total : ∀ n, s.maxHostBytes = some n → s.deviceBytes + s.hostBytes ≤ s.maxDeviceBytes.getD 0 + n

theorem Enforces.within (e : Enforces s t s') : Within s' := by
  obtain ⟨sameDevice, sameHost⟩ := e.limits
  constructor
  · intro m hm
    exact e.deviceBytes_le (sameDevice.symm.trans hm)
  · intro n hn
    rw [sameDevice]
    exact (e.host n (sameHost.symm.trans hn)).fits

theorem Within.forget (w : Within s) (id : String) (seg : OfflineSegment τ) : Within (s.forget id seg) := by
  have device : 0 ≤ seg.cudaBytes := by
    unfold cudaBytes
    split <;> omega
  have host : 0 ≤ seg.hostBytes := by
    unfold OfflineSegment.hostBytes
    split <;> omega
  rw [forget_eq]
  constructor
  · intro m hm
    have := w.device m hm
    dsimp only
    omega
  · intro n hn
    have := w.total n hn
    dsimp only at hn ⊢
    omega

structure Sound (s : OfflineKVCache τ) : Prop where
  accounted : Accounted s
  within : Within s

inductive Entry (s : OfflineKVCache τ) (op : Op τ) : OfflineKVCache τ → Prop where
  | missed (absent : ∀ id, op.used = some id → s.segments.get? id = none) : Entry s op s
  | promoted {id : String} {seg : OfflineSegment τ} (uses : op.used = some id)
      (there : s.segments.get? id = some seg) : Entry s op (s.promote id seg)
  | stored {seg : OfflineSegment τ} (uses : op.used = some seg.segmentId)
      (new : s.segments.get? seg.segmentId = none) (calls : s.enters op = true) : Entry s op (s.store seg)
  | relocated {id : String} {seg : OfflineSegment τ} {d : Device} (uses : op.used = some id)
      (there : s.segments.get? id = some seg) (calls : s.enters op = true) :
      Entry s op (s.relocate id seg d)
  | dropped {id : String} {seg : OfflineSegment τ} (unused : op.used = none)
      (there : s.segments.get? id = some seg) : Entry s op (s.forget id seg)
  | cleared (unused : op.used = none) : Entry s op s.clear

theorem entry_spec (h : Accounted s) (op : Op τ) : Entry s op (s.entering op) := by
  have move : ∀ id d, op.used = some id →
      s.enters op = (s.segments.get? id).any (fun seg => seg.device ≠ d) →
      Entry s op (s.enteringMove id d) := by
    intro id d uses calls
    unfold enteringMove
    cases there : s.segments.get? id with
    | none => exact .missed fun i hi => Option.some.inj (uses.symm.trans hi) ▸ there
    | some seg =>
      by_cases here : seg.device = d
      · simp only [here, if_true]
        exact .promoted uses there
      · simp only [here, if_false]
        exact .relocated uses there (by rw [calls, there]; simp [here])
  cases op with
  | put seg =>
    cases there : s.segments.get? seg.segmentId with
    | some old =>
      simp only [entering, there]
      exact .promoted rfl there
    | none =>
      simp only [entering, there]
      exact .stored rfl there (by rw [enters, there]; rfl)
  | get id =>
    cases there : s.segments.get? id with
    | some seg =>
      have key : seg.segmentId = id := h.keyed _ (OrderedDict.get?_eq_some.mp there)
      simp only [entering, get, there, key]
      exact .promoted rfl there
    | none =>
      simp only [entering, get, there]
      exact .missed fun i hi => Option.some.inj hi ▸ there
  | drop id =>
    cases there : s.segments.get? id with
    | some seg =>
      simp only [entering, drop, there]
      exact .dropped rfl there
    | none =>
      simp only [entering, drop, there]
      exact .missed fun i hi => by cases hi
  | toDevice id d => exact move id d rfl rfl
  | offload id => exact move id cpu rfl rfl
  | clear => exact .cleared rfl

section

variable {op : Op τ} (e : Entry s op s')
include e

theorem Entry.accounted (h : Accounted s) : Accounted s' := by
  cases e with
  | missed => exact h
  | promoted _ there => exact h.promote there
  | stored _ new => exact h.store new
  | relocated _ there => exact h.relocate there _
  | dropped _ there => exact h.forget there
  | cleared => exact ⟨nofun, rfl, rfl⟩

theorem Entry.limits : SameLimits s s' := by
  cases e with
  | stored =>
    rw [store_eq]
    exact ⟨rfl, rfl⟩
  | relocated => exact sameLimits_relocate _ _ _ _
  | dropped =>
    rw [forget_eq]
    exact ⟨rfl, rfl⟩
  | _ => exact ⟨rfl, rfl⟩

theorem Entry.within (w : Within s) (calm : s.enters op = false) : Within s' := by
  cases e with
  | missed => exact w
  | promoted => exact ⟨w.device, w.total⟩
  | stored _ _ calls | relocated _ _ calls => cases calm.symm.trans calls
  | dropped => exact w.forget _ _
  | cleared =>
    refine ⟨fun m _ => Int.natCast_nonneg m, fun n _ => ?_⟩
    change (0 : Int) + 0 ≤ _
    omega

end

theorem Sound.performs (h : Sound s) {op : Op τ} (p : Performs s op s') : Sound s' := by
  cases p with
  | quiet calm => exact ⟨(entry_spec h.accounted op).accounted h.accounted,
      (entry_spec h.accounted op).within h.within calm⟩
  | enforced e => exact ⟨e.accounted ((entry_spec h.accounted op).accounted h.accounted), e.within⟩

theorem Performs.limits {op : Op τ} (h : Accounted s) (p : Performs s op s') : SameLimits s s' := by
  have first := (entry_spec h op).limits
  cases p with
  | quiet => exact first
  | enforced e => exact first.trans e.limits

/-- `OfflineKVCache(max_device_bytes, max_host_bytes)` -/
def init (maxDeviceBytes maxHostBytes : Option Nat) : OfflineKVCache τ :=
  { maxDeviceBytes := maxDeviceBytes, maxHostBytes := maxHostBytes }

inductive Reaches (maxDeviceBytes maxHostBytes : Option Nat) : OfflineKVCache τ → Prop where
  | init : Reaches maxDeviceBytes maxHostBytes (init maxDeviceBytes maxHostBytes)
  | step {s s' : OfflineKVCache τ} {fuel : Nat} {op : Op τ} (before : Reaches maxDeviceBytes maxHostBytes s)
      (enough : s.segments.entries.length + 3 ≤ fuel) (ran : s.exec fuel op = .ok s') :
      Reaches maxDeviceBytes maxHostBytes s'

theorem sound_init (maxDeviceBytes maxHostBytes : Option Nat) :
    Sound (init maxDeviceBytes maxHostBytes : OfflineKVCache τ) :=
  ⟨⟨nofun, rfl, rfl⟩, fun m _ => Int.natCast_nonneg m, fun n _ => by
    change (0 : Int) + 0 ≤ _
    omega⟩

theorem Sound.exec (h : Sound s) {fuel : Nat} (enough : s.segments.entries.length + 3 ≤ fuel)
    (op : Op τ) : ∃ s', s.exec fuel op = .ok s' ∧ Performs s op s' ∧ Sound s' := by
  have few : s.cudas.length ≤ s.segments.entries.length := length_filter_le _ _
  obtain ⟨s', ran, performs⟩ := exec_spec h.accounted ((Nat.add_le_add_right few 3).trans enough) op
  exact ⟨s', ran, performs, h.performs performs⟩

theorem Reaches.sound {maxDeviceBytes maxHostBytes : Option Nat}
    (reach : Reaches maxDeviceBytes maxHostBytes s) :
    Sound s ∧ s.maxDeviceBytes = maxDeviceBytes ∧ s.maxHostBytes = maxHostBytes := by
  induction reach with
  | init => exact ⟨sound_init _ _, rfl, rfl⟩
  | @step s s' fuel op _ enough ran ih =>
    obtain ⟨sound, device, host⟩ := ih
    obtain ⟨u, ran', performs, after⟩ := sound.exec enough op
    cases ran.symm.trans ran'
    obtain ⟨sameDevice, sameHost⟩ := performs.limits sound.accounted
    exact ⟨after, sameDevice.trans device, sameHost.trans host⟩

def after (s : OfflineKVCache τ) : List (Op τ) → Except PyError (OfflineKVCache τ)
  | [] => .ok s
  | op :: ops => do
    let s' ← s.exec (s.segments.entries.length + 3) op
    after s' ops

theorem reaches_after {maxDeviceBytes maxHostBytes : Option Nat} (ops : List (Op τ))
    (before : Reaches maxDeviceBytes maxHostBytes s) (h : s.after ops = .ok s') :
    Reaches maxDeviceBytes maxHostBytes s' := by
  induction ops generalizing s with
  | nil => exact Except.ok.inj h ▸ before
  | cons op ops ih =>
    unfold after at h
    cases ran : s.exec (s.segments.entries.length + 3) op with
    | error e =>
      rw [ran] at h
      cases h
    | ok u =>
      rw [ran] at h
      exact ih (before.step le_rfl ran) h

end OfflineKVCache

open OfflineKVCache

/-- In every run the totals are the sums over the resident segments and stay within the limits, and
every call returns. -/
theorem offlineCache_accounting (maxDeviceBytes maxHostBytes : Option Nat) {s : OfflineKVCache τ}
    (reach : Reaches maxDeviceBytes maxHostBytes s) :
    (s.deviceBytes = s.segments.total cudaBytes ∧
      s.hostBytes = s.segments.total OfflineSegment.hostBytes ∧
      (∀ m, maxDeviceBytes = some m → s.deviceBytes ≤ m) ∧
      ∀ n, maxHostBytes = some n → s.deviceBytes + s.hostBytes ≤ maxDeviceBytes.getD 0 + n) ∧
    ∀ op fuel, s.segments.entries.length + 3 ≤ fuel →
      ∃ s', s.exec fuel op = .ok s' ∧ Reaches maxDeviceBytes maxHostBytes s' := by
  obtain ⟨sound, device, host⟩ := reach.sound
  refine ⟨⟨sound.accounted.device_eq, sound.accounted.host_eq, fun m hm => ?_, fun n hn => ?_⟩,
    fun op fuel enough => ?_⟩
  · exact sound.within.device m (device.trans hm)
  · rw [← device]
    exact sound.within.total n (host.trans hn)
  · obtain ⟨s', ran, -⟩ := sound.exec enough op
    exact ⟨s', ran, reach.step enough ran⟩

def blob (id : String) (type : DeviceType) (nbytes : Nat) : OfflineSegment Unit :=
  { segmentId := id, docLen := 1, kv := [(some ⟨(), { type := type }⟩, some ⟨(), { type := type }⟩)],
    device := { type := type }, nbytes := nbytes }

def fullRun : List (Op Unit) :=
  [.put (blob "a" .cuda 4), .put (blob "b" .cuda 6), .get "a", .put (blob "c" .cuda 9)]

theorem accounting_of_fullRun :
    ∃ s : OfflineKVCache Unit, Reaches (some 10) (some 3) s ∧ s.deviceBytes = 0 ∧ s.hostBytes = 10 ∧
      s.segments.keys = ["b", "a"] ∧ s.deviceBytes + s.hostBytes ≤ 10 + 3 := by
  have run : (do
      let s ← (init (some 10) (some 3)).after fullRun
      return (s.deviceBytes, s.hostBytes, s.segments.keys)) = .ok (0, 10, ["b", "a"]) := by
    decide +kernel
  obtain ⟨s, ran, facts⟩ := bind_eq_ok.mp run
  obtain ⟨device, host, keys⟩ : _ ∧ _ ∧ _ := by simpa using Except.ok.inj facts
  have reach := reaches_after fullRun .init ran
  exact ⟨s, reach, device, host, keys,
    (offlineCache_accounting (some 10) (some 3) reach).1.2.2.2 3 rfl⟩

end RedKnot.OfflineCache
