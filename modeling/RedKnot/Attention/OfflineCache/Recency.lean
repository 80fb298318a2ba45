import RedKnot.Attention.OfflineCache.Accounting

/-! The order of eviction. An offload moves its victim to the end, so the order follows the clients
only as long as nothing has to be offloaded. -/

namespace RedKnot.OfflineCache

open Function List Nat OfflineSegment OrderedDict

variable {τ : Type}

/-- The time of the last use of each segment, after a call at time `n`. -/
def Op.touch (use : String → Nat) (n : Nat) (op : Op τ) : String → Nat :=
  match op.used with
  | some id => update use id n
  | none => use

def Ordered (use : String → Nat) (l : List (String × OfflineSegment τ)) : Prop :=
  l.Pairwise (fun a b => use a.1 ≤ use b.1)

section Order

variable {use : String → Nat} {n : Nat} {l l' : List (String × OfflineSegment τ)} {id : String}

theorem Ordered.congr {use' : String → Nat} (h : Ordered use l) (same : ∀ e ∈ l, use' e.1 = use e.1) :
    Ordered use' l := by
  refine h.imp_of_mem fun {a b} ha hb le => ?_
  rw [same a ha, same b hb]
  exact le

theorem Ordered.sublist (h : Ordered use l) (sub : l'.Sublist l) : Ordered use l' := List.Pairwise.sublist sub h

theorem Ordered.use_last (h : Ordered use l) (past : ∀ k, use k ≤ n)
    {tail : List (String × OfflineSegment τ)} (short : tail.length ≤ 1) (last : ∀ e ∈ tail, e.1 = id) :
    Ordered (update use id n) (l.filter (fun e => e.1 ≠ id) ++ tail) := by
  have others : ∀ e ∈ l.filter (fun e => e.1 ≠ id), update use id n e.1 = use e.1 := by
    intro e he
    exact update_of_ne (by simpa using (mem_filter.mp he).2) _ _
  refine pairwise_append.mpr ⟨(h.sublist filter_sublist).congr others, ?_, ?_⟩
  · match tail, short with
    | [], _ => exact .nil
    | [e], _ => exact pairwise_singleton _ _
  · intro a ha b hb
    rw [others a ha, last b hb, update_self]
    exact past a.1

theorem Ordered.front (h : Ordered use l) (cut : l' <:+ l) {x y : String}
    (hx : x ∈ l.map Prod.fst) (gone : x ∉ l'.map Prod.fst) (hy : y ∈ l'.map Prod.fst) : use x ≤ use y := by
  obtain ⟨front, rfl⟩ := cut
  obtain ⟨a, ha, rfl⟩ := mem_map.mp hx
  obtain ⟨b, hb, rfl⟩ := mem_map.mp hy
  rcases mem_append.mp ha with ha | ha
  · exact (pairwise_append.mp h).2.2 a ha b hb
  · exact absurd (mem_map_of_mem ha) gone

end Order

namespace OfflineKVCache

variable {s s' t : OfflineKVCache τ} {use : String → Nat} {n : Nat}

def visible (p : OfflineSegment τ → Bool) (s : OfflineKVCache τ) : List (String × OfflineSegment τ) :=
  s.segments.entries.filter (fun e => p e.2)

theorem visible_true (s : OfflineKVCache τ) : s.visible (fun _ => true) = s.segments.entries :=
  filter_true _

theorem ordered_putLast (p : OfflineSegment τ → Bool) (h : Ordered use (s.visible p))
    (past : ∀ k, use k ≤ n) (id : String) (seg : OfflineSegment τ) :
    Ordered (update use id n) ((s.segments.putLast id seg).entries.filter (fun e => p e.2)) := by
  rw [filter_putLast]
  refine h.use_last past ?_ ?_
  · split <;> simp
  · intro e he
    split at he
    · rw [mem_singleton.mp he]
    · cases he

theorem touch_used {op : Op τ} {id : String} (uses : op.used = some id) :
    op.touch use n = update use id n := by
  rw [Op.touch, uses]

theorem touch_unused {op : Op τ} (unused : op.used = none) : op.touch use n = use := by
  rw [Op.touch, unused]

theorem Entry.ordered {op : Op τ} (e : Entry s op s') (p : OfflineSegment τ → Bool)
    (h : Ordered use (s.visible p)) (past : ∀ k, use k ≤ n) :
    Ordered (op.touch use n) (s'.visible p) := by
  cases e with
  | missed absent =>
    cases uses : op.used with
    | none => rwa [touch_unused uses]
    | some id =>
      rw [touch_used uses]
      refine h.congr fun e he => update_of_ne ?_ _ _
      rintro rfl
      refine get?_eq_none.mp (absent _ uses) ?_
      exact mem_map_of_mem (mem_of_mem_filter he)
  | promoted uses =>
    rw [touch_used uses]
    exact ordered_putLast p h past _ _
  | stored uses =>
    rw [touch_used uses, store_eq]
    exact ordered_putLast p h past _ _
  | relocated uses =>
    rw [touch_used uses, visible, relocate_segments]
    exact ordered_putLast p h past _ _
  | dropped unused =>
    rw [touch_unused unused, forget_eq]
    exact h.sublist (filter_sublist.filter _)
  | cleared unused =>
    rw [touch_unused unused]
    exact .nil

theorem Offloads.suffix {m : Nat} (o : Offloads m s s') : s'.cudas <:+ s.cudas := by
  induction o with
  | enough => exact suffix_rfl
  | offload first _ _ ih =>
    rw [cudas_offload first] at ih
    rw [first]
    exact ih.trans (suffix_cons _ _)

theorem Removes.suffix {limit : Int} (r : Removes limit s s') :
    s'.segments.entries <:+ s.segments.entries := by
  induction r with
  | enough => exact suffix_rfl
  | remove first _ _ ih =>
    rw [entries_evict first] at ih
    rw [first]
    exact ih.trans (suffix_cons _ _)

theorem Enforces.suffix_cudas (e : Enforces s t s') : s'.cudas <:+ s.cudas := by
  have first : t.cudas <:+ s.cudas := by
    cases device : s.maxDeviceBytes with
    | none => exact e.unlimited device ▸ suffix_rfl
    | some m => exact (e.device m device).suffix
  cases host : s.maxHostBytes with
  | none => exact e.unbounded host ▸ first
  | some m => exact ((e.host m host).suffix.filter _).trans first

theorem Enforces.suffix_entries (e : Enforces s t s')
    (fits : ∀ m, s.maxDeviceBytes = some m → s.deviceBytes ≤ m) :
    s'.segments.entries <:+ s.segments.entries := by
  have same : t = s := by
    cases device : s.maxDeviceBytes with
    | none => exact e.unlimited device
    | some m =>
      cases e.device m device with
      | enough => rfl
      | offload _ excess => exact absurd (fits m device) (by omega)
  subst same
  cases host : t.maxHostBytes with
  | none => exact e.unbounded host ▸ suffix_rfl
  | some m => exact (e.host m host).suffix

theorem Enforces.keys_of_unbounded (e : Enforces s t s') (unbounded : s.maxHostBytes = none)
    {id : String} (there : id ∈ s.segments.keys) : id ∈ s'.segments.keys := by
  rw [e.unbounded unbounded]
  cases device : s.maxDeviceBytes with
  | none => rwa [e.unlimited device]
  | some m =>
    have o := e.device m device
    clear e unbounded device
    induction o with
    | enough => exact there
    | @offload s s' i seg rest first _ _ ih =>
      refine ih ?_
      obtain ⟨x, hx, rfl⟩ := mem_map.mp there
      rw [relocate_segments]
      by_cases same : x.1 = i
      · rw [same]
        exact mem_keys_of_get? get?_putLast
      · exact mem_map_of_mem (mem_putLast.mpr (.inl ⟨hx, same⟩))

/-- `n` more bytes fit on the device, or there is no limit that an entry could be removed for. -/
def fits (s : OfflineKVCache τ) (n : Nat) : Bool :=
  match s.maxDeviceBytes, s.maxHostBytes with
  | some m, some _ => s.deviceBytes + n ≤ m
  | _, _ => true

def roomy (s : OfflineKVCache τ) : Op τ → Bool
  | .put seg => (s.segments.get? seg.segmentId).isSome || !seg.onCuda || s.fits seg.nbytes
  | .toDevice id d =>
    d.type ≠ .cuda || (s.segments.get? id).all (fun seg => seg.onCuda || s.fits seg.nbytes)
  | _ => true

theorem deviceBytes_add_of_fits {n m k : Nat} (room : s.fits n = true) (device : s.maxDeviceBytes = some m)
    (host : s.maxHostBytes = some k) : s.deviceBytes + n ≤ m := by
  simpa [fits, device, host] using room

theorem Within.enteringMove (w : Within s) {m k : Nat} (device : s.maxDeviceBytes = some m)
    (host : s.maxHostBytes = some k) (id : String) (d : Device)
    (room : d.type = .cuda → ∀ seg, s.segments.get? id = some seg → seg.onCuda = false →
      s.fits seg.nbytes = true) : (s.enteringMove id d).deviceBytes ≤ m := by
  have before := w.device m device
  unfold OfflineKVCache.enteringMove
  split
  · exact before
  · next seg there =>
    split
    · exact before
    · rw [relocate_deviceBytes]
      unfold cudaBytes
      rw [onCuda_moveTo, nbytes_moveTo]
      by_cases target : d.type = .cuda
      · cases cuda : seg.onCuda with
        | true =>
          simp only [target, decide_true, if_true]
          omega
        | false =>
          have := deviceBytes_add_of_fits (room target seg there cuda) device host
          simp only [target, decide_true, if_true, Bool.false_eq_true, if_false]
          omega
      · simp only [target, decide_false, Bool.false_eq_true, if_false]
        split <;> omega

theorem Within.entering_le (w : Within s) {op : Op τ} (room : s.roomy op = true) {m k : Nat}
    (device : s.maxDeviceBytes = some m) (host : s.maxHostBytes = some k) :
    (s.entering op).deviceBytes ≤ m := by
  have before := w.device m device
  cases op with
  | put seg =>
    unfold entering
    dsimp only
    split
    · exact before
    · next new =>
      rw [store_eq]
      unfold cudaBytes
      dsimp only
      split
      · next cuda =>
        have fits : s.fits seg.nbytes = true := by simpa [roomy, new, cuda] using room
        exact deviceBytes_add_of_fits fits device host
      · omega
  | get id =>
    change (s.get id).2.deviceBytes ≤ m
    unfold get
    split <;> exact before
  | drop id =>
    change (s.drop id).deviceBytes ≤ m
    unfold drop
    split
    · next seg _ => exact (w.forget id seg).device m (by rw [forget_eq]; exact device)
    · exact before
  | toDevice id d =>
    refine w.enteringMove device host id d fun target seg there cuda => ?_
    simpa [roomy, target, there, cuda] using room
  | offload id => exact w.enteringMove device host id cpu nofun
  | clear => exact Int.natCast_nonneg m

inductive Runs (meets : OfflineKVCache τ → Op τ → Bool) (maxDeviceBytes maxHostBytes : Option Nat) :
    OfflineKVCache τ → (String → Nat) → Nat → Prop where
  | init : Runs meets maxDeviceBytes maxHostBytes (init maxDeviceBytes maxHostBytes) (fun _ => 0) 0
  | step {s s' : OfflineKVCache τ} {use : String → Nat} {n fuel : Nat} {op : Op τ}
      (before : Runs meets maxDeviceBytes maxHostBytes s use n) (met : meets s op = true)
      (enough : s.segments.entries.length + 3 ≤ fuel) (ran : s.exec fuel op = .ok s') :
      Runs meets maxDeviceBytes maxHostBytes s' (op.touch use (n + 1)) (n + 1)

section Runs

variable {meets : OfflineKVCache τ → Op τ → Bool} {maxDeviceBytes maxHostBytes : Option Nat}

section

variable (run : Runs meets maxDeviceBytes maxHostBytes s use n)
include run

theorem Runs.reaches : Reaches maxDeviceBytes maxHostBytes s := by
  induction run with
  | init => exact .init
  | step _ _ enough ran ih => exact ih.step enough ran

theorem Runs.past (id : String) : use id ≤ n := by
  induction run with
  | init => exact le_rfl
  | @step _ _ use n _ op _ _ _ _ ih =>
    cases uses : op.used with
    | none =>
      rw [touch_unused uses]
      omega
    | some other =>
      rw [touch_used uses, update_apply]
      split <;> omega

end

theorem Runs.entered {op : Op τ} {fuel : Nat} (run : Runs meets maxDeviceBytes maxHostBytes s use n)
    (enough : s.segments.entries.length + 3 ≤ fuel) (ran : s.exec fuel op = .ok s') :
    Entry s op (s.entering op) ∧ (s' = s.entering op ∨ ∃ t, Enforces (s.entering op) t s') := by
  obtain ⟨sound, -⟩ := run.reaches.sound
  obtain ⟨u, ran', performs, -⟩ := sound.exec enough op
  cases ran.symm.trans ran'
  refine ⟨entry_spec sound.accounted op, ?_⟩
  cases performs with
  | quiet => exact .inl rfl
  | enforced e => exact .inr ⟨_, e⟩

theorem suffix_cudas_of_entered {e : OfflineKVCache τ} (h : s' = e ∨ ∃ t, Enforces e t s') :
    s'.cudas <:+ e.cudas := by
  rcases h with rfl | ⟨t, e⟩
  · exact suffix_rfl
  · exact e.suffix_cudas

theorem Runs.ordered_cudas (run : Runs meets maxDeviceBytes maxHostBytes s use n) :
    Ordered use s.cudas := by
  induction run with
  | init => exact .nil
  | step before _ enough ran ih =>
    obtain ⟨entry, entered⟩ := before.entered enough ran
    have here := entry.ordered onCuda ih fun id => (before.past id).trans (le_succ _)
    exact here.sublist (suffix_cudas_of_entered entered).sublist

theorem suffix_of_roomy {op : Op τ} (sound : Sound s) (room : s.roomy op = true)
    (bounded : s.maxHostBytes ≠ none) (h : s' = s.entering op ∨ ∃ t, Enforces (s.entering op) t s') :
    s'.segments.entries <:+ (s.entering op).segments.entries := by
  rcases h with rfl | ⟨t, e⟩
  · exact suffix_rfl
  · refine e.suffix_entries fun m hm => ?_
    obtain ⟨k, host⟩ := Option.ne_none_iff_exists'.mp bounded
    have same := (entry_spec sound.accounted op).limits
    exact sound.within.entering_le room (same.1.symm.trans hm) host

theorem Runs.ordered (run : Runs roomy maxDeviceBytes maxHostBytes s use n)
    (bounded : maxHostBytes ≠ none) : Ordered use s.segments.entries := by
  induction run with
  | init => exact .nil
  | @step s _ use _ _ op before room enough ran ih =>
    obtain ⟨sound, -, host⟩ := before.reaches.sound
    obtain ⟨entry, entered⟩ := before.entered enough ran
    have here := entry.ordered (fun _ => true) (by rw [visible_true]; exact ih)
      fun id => (before.past id).trans (le_succ _)
    rw [visible_true] at here
    exact here.sublist (suffix_of_roomy sound room (host ▸ bounded) entered).sublist

end Runs

end OfflineKVCache

open OfflineKVCache

/-- `_enforce_limits` offloads in the order of client use in every run; it removes entries in
that order in every run in which what comes to the device fits. -/
theorem offlineCache_evicts_lru (maxDeviceBytes maxHostBytes : Option Nat) :
    (∀ (s s' : OfflineKVCache τ) (use : String → Nat) (n fuel : Nat) (op : Op τ),
      Runs (fun _ _ => true) maxDeviceBytes maxHostBytes s use n →
      s.segments.entries.length + 3 ≤ fuel → s.exec fuel op = .ok s' →
      ∀ x ∈ (s.entering op).cudas.map Prod.fst, x ∉ s'.cudas.map Prod.fst →
      ∀ y ∈ s'.cudas.map Prod.fst, op.touch use (n + 1) x ≤ op.touch use (n + 1) y) ∧
    (∀ (s s' : OfflineKVCache τ) (use : String → Nat) (n fuel : Nat) (op : Op τ),
      Runs roomy maxDeviceBytes maxHostBytes s use n → s.roomy op = true →
      s.segments.entries.length + 3 ≤ fuel → s.exec fuel op = .ok s' →
      ∀ x ∈ (s.entering op).segments.keys, x ∉ s'.segments.keys →
      ∀ y ∈ s'.segments.keys, op.touch use (n + 1) x ≤ op.touch use (n + 1) y) := by
  constructor
  · intro s s' use n fuel op run enough ran x hx gone y hy
    obtain ⟨entry, entered⟩ := run.entered enough ran
    have here := entry.ordered onCuda run.ordered_cudas
      fun id => (run.past id).trans (le_succ _)
    exact here.front (suffix_cudas_of_entered entered) hx gone hy
  · intro s s' use n fuel op run room enough ran x hx gone y hy
    obtain ⟨sound, -, host⟩ := run.reaches.sound
    obtain ⟨entry, entered⟩ := run.entered enough ran
    cases bounded : maxHostBytes with
    | none =>
      -- Nothing is ever removed.
      refine absurd ?_ gone
      rcases entered with rfl | ⟨t, e⟩
      · exact hx
      · exact e.keys_of_unbounded (entry.limits.2.trans (host.trans bounded)) hx
    | some k =>
      have limited : maxHostBytes ≠ none := by rw [bounded]; nofun
      have here := entry.ordered (fun _ => true) (by rw [visible_true]; exact run.ordered limited)
        fun id => (run.past id).trans (le_succ _)
      rw [visible_true] at here
      exact here.front (suffix_of_roomy sound room (host ▸ limited) entered) hx gone hy

def OfflineKVCache.runOps (meets : OfflineKVCache τ → Op τ → Bool) :
    OfflineKVCache τ → (String → Nat) → Nat → List (Op τ) →
    Option (OfflineKVCache τ × (String → Nat) × Nat)
  | s, use, n, [] => some (s, use, n)
  | s, use, n, op :: ops =>
    if meets s op then
      match s.exec (s.segments.entries.length + 3) op with
      | .ok s' => runOps meets s' (op.touch use (n + 1)) (n + 1) ops
      | .error _ => none
    else none

theorem runs_of_runOps {meets : OfflineKVCache τ → Op τ → Bool} {maxDeviceBytes maxHostBytes : Option Nat}
    (ops : List (Op τ)) {s s' : OfflineKVCache τ} {use use' : String → Nat} {n n' : Nat}
    (before : Runs meets maxDeviceBytes maxHostBytes s use n)
    (h : s.runOps meets use n ops = some (s', use', n')) :
    Runs meets maxDeviceBytes maxHostBytes s' use' n' := by
  induction ops generalizing s use n with
  | nil =>
    cases h
    exact before
  | cons op ops ih =>
    unfold runOps at h
    split at h
    · next met =>
      split at h
      · next ran => exact ih (before.step met le_rfl ran) h
      · cases h
    · cases h

def OfflineKVCache.verdict (meets : OfflineKVCache τ → Op τ → Bool) (s : OfflineKVCache τ)
    (ops : List (Op τ)) (op : Op τ) (x y : String) : Option (List String × List String × Nat × Nat) :=
  match s.runOps meets (fun _ => 0) 0 ops with
  | some (s, use, n) =>
    match s.exec (s.segments.entries.length + 3) op with
    | .ok s' => some ((s.entering op).segments.keys, s'.segments.keys, op.touch use (n + 1) x,
        op.touch use (n + 1) y)
    | .error _ => none
  | none => none

theorem of_verdict {meets : OfflineKVCache τ → Op τ → Bool} {maxDeviceBytes maxHostBytes : Option Nat}
    {ops : List (Op τ)} {op : Op τ} {x y : String} {before after : List String} {i j : Nat}
    (h : (init maxDeviceBytes maxHostBytes).verdict meets ops op x y = some (before, after, i, j)) :
    ∃ (s s' : OfflineKVCache τ) (use : String → Nat) (n : Nat),
      Runs meets maxDeviceBytes maxHostBytes s use n ∧
      s.exec (s.segments.entries.length + 3) op = .ok s' ∧ (s.entering op).segments.keys = before ∧
      s'.segments.keys = after ∧ op.touch use (n + 1) x = i ∧ op.touch use (n + 1) y = j := by
  unfold verdict at h
  split at h
  · next s use n ran =>
    split at h
    · next s' ran' =>
      simp only [Option.some.injEq, Prod.mk.injEq] at h
      exact ⟨s, s', use, n, runs_of_runOps ops .init ran, ran', h⟩
    · cases h
  · cases h

theorem evicts_lru_of_hostRun : ∃ (s s' : OfflineKVCache Unit) (use : String → Nat) (n : Nat),
      Runs roomy (some 10) (some 3) s use n ∧
      (s.entering (.put (blob "c" .cpu 6))).segments.keys = ["b", "a", "c"] ∧
      s'.segments.keys = ["a", "c"] ∧
      (Op.put (blob "c" .cpu 6)).touch use (n + 1) "b" ≤
        (Op.put (blob "c" .cpu 6)).touch use (n + 1) "a" := by
  have computed : (init (some 10) (some 3)).verdict roomy (fullRun.take 3) (.put (blob "c" .cpu 6))
      "b" "a" = some (["b", "a", "c"], ["a", "c"], 2, 3) := by
    decide +kernel
  obtain ⟨s, s', use, n, run, ran, before, after, -⟩ := of_verdict computed
  have room : s.roomy (.put (blob "c" .cpu 6)) = true := by simp [roomy, blob, onCuda]
  refine ⟨s, s', use, n, run, before, after, ?_⟩
  refine (offlineCache_evicts_lru (some 10) (some 3)).2 s s' use n _ _ run room le_rfl ran "b" ?_ ?_ "a" ?_
  · rw [before]
    decide
  · rw [after]
    decide
  · rw [after]
    decide

/-- The newest segment is removed and older ones stay: their offload has moved them behind it. -/
theorem offload_breaks_lru : ∃ (s s' : OfflineKVCache Unit) (use : String → Nat) (n : Nat),
      Runs (fun _ _ => true) (some 10) (some 3) s use n ∧
      s.exec (s.segments.entries.length + 3) (.put (blob "c" .cuda 9)) = .ok s' ∧
      "c" ∈ (s.entering (.put (blob "c" .cuda 9))).segments.keys ∧ "c" ∉ s'.segments.keys ∧
      "b" ∈ s'.segments.keys ∧
      (Op.put (blob "c" .cuda 9)).touch use (n + 1) "b" <
        (Op.put (blob "c" .cuda 9)).touch use (n + 1) "c" := by
  have computed : (init (some 10) (some 3)).verdict (fun _ _ => true) (fullRun.take 3)
      (.put (blob "c" .cuda 9)) "b" "c" = some (["b", "a", "c"], ["b", "a"], 2, 4) := by
    decide +kernel
  obtain ⟨s, s', use, n, run, ran, before, after, first, last⟩ := of_verdict computed
  refine ⟨s, s', use, n, run, ran, ?_, ?_, ?_, ?_⟩
  · rw [before]
    decide
  · rw [after]
    decide
  · rw [after]
    decide
  · rw [first, last]
    decide

end RedKnot.OfflineCache
