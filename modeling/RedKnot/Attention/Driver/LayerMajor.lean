import RedKnot.Attention.Driver.Batched

/-! The batched prefill without micro-batches: all online segments layer by layer. -/

open Function List

namespace RedKnot.HeadClass.KVTensor

variable {κ : Type} {n : Nat}

theorem ofTokens_congr {len : Nat} {row row' : Nat → Fin n → κ}
    (same : ∀ r < len, row r = row' r) : ofTokens len row = ofTokens len row' := by
  apply KVTensor.ext
  · rfl
  · funext h
    apply map_congr_left
    intro r inside
    rw [same r (mem_range.mp inside)]

theorem catAll_append (parts : List (KVTensor κ n)) (last : KVTensor κ n) :
    catAll (parts ++ [last]) = (catAll parts).cat last := by
  apply KVTensor.ext
  · simp [catAll, cat]
  · funext h
    simp [catAll, cat]

theorem catAll_singleton (part : KVTensor κ n) : catAll [part] = part := by
  apply KVTensor.ext
  · simp [catAll]
  · funext h
    simp [catAll]

theorem catParts_append (parts : List (KVTensor κ n)) (last : KVTensor κ n) :
    catParts (parts ++ [last]) =
      match catParts parts with
      | none => some last
      | some prev => some (prev.cat last) := by
  cases parts with
  | nil => exact congrArg some (catAll_singleton last)
  | cons part parts => exact congrArg some (catAll_append (part :: parts) last)

end RedKnot.HeadClass.KVTensor

namespace RedKnot.Driver

open HeadClass (KVTensor)
open SparseFFN (SparseFFNSchedule Ranking selectImportantTokens selectImportantTokens_returns)

variable {E Q κ A : Type} {n : Nat}

def keepMask (ranking : Ranking) (schedule : SparseFFNSchedule) (layer : Nat)
    (importance : List ℚ) : List Bool :=
  match selectImportantTokens ranking schedule (some (schedule.getMassThresh layer)) importance with
  | .ok keep => keep
  | .error _ => []

theorem select_eq_keepMask (ranking : Ranking) (schedule : SparseFFNSchedule) (layer : Nat)
    {importance : List ℚ} (some_token : importance ≠ []) :
    selectImportantTokens ranking schedule (some (schedule.getMassThresh layer)) importance =
      .ok (keepMask ranking schedule layer importance) := by
  obtain ⟨keep, chosen⟩ := selectImportantTokens_returns ranking schedule
    (some (schedule.getMassThresh layer)) some_token
  simp only [keepMask, chosen]

namespace Run

section Reference

variable (run : Run E Q κ A n) (layer : Nat)
  -- the rows that enter the layer, by slot
  (hidden : Nat → Nat → E)

def projectedAt (slot r : Nat) : Q × (Fin n → κ) :=
  run.decoder.project layer (run.offset slot + r) (hidden slot r)

def kvOf (slot : Nat) : KVTensor κ n :=
  .ofTokens (run.len slot) fun r => (run.projectedAt layer hidden slot r).2

def queriesOf (slot : Nat) : List Q :=
  (range (run.len slot)).map fun r => (run.projectedAt layer hidden slot r).1

variable [Zero κ]

/-- Segment 0 and the self KV of the online segments before `slot`. -/
def prevOf (slot : Nat) : SlotPrev κ n :=
  let parts := (range slot).map (run.kvOf layer hidden)
  match run.path with
  | .headclass => .headclass (run.first.kv layer) (KVTensor.catParts parts) (run.offset slot)
  | .segpaged =>
    .segpaged (filterSeg0 (run.strategy layer) (run.first.kv layer)) (KVTensor.catParts parts)
  | .dense => .dense (KVTensor.catParts (run.first.kv layer :: parts)) (run.first.kv layer)

def callOf (slot : Nat) : SlotCall Q κ n where
  layer := layer
  queries := run.queriesOf layer hidden slot
  self := run.kvOf layer hidden slot
  prev := run.prevOf layer hidden slot

/-- A row of `attn_out`, zero in the padding. -/
def attnOf (slot r : Nat) : A :=
  if r < run.len slot then run.attend (run.callOf layer hidden slot) r else run.decoder.zero

/-- What is kept of a slot that is padded to `padTo slot`. -/
def keepOf (padTo : Nat → Nat) (slot r : Nat) : Bool :=
  match run.schedule with
  | none => true
  | some schedule =>
    schedule.isDenseLayer layer || (keepMask run.ranking schedule layer
      ((range (padTo slot)).map fun r =>
        run.decoder.importance (run.attnOf layer hidden slot r))).getD r false

end Reference

section Reference

variable [Zero κ] (run : Run E Q κ A n) (padTo : Nat → Nat)

def hiddenRef : Nat → Nat → Nat → E
  | 0 => fun slot r => run.decoder.embed ((run.tokens slot).getD r 0)
  | layer + 1 => fun slot r =>
    let hidden := hiddenRef layer
    run.decoder.update layer (hidden slot r) (run.attnOf layer hidden slot r)
      (run.keepOf layer hidden padTo slot r)

variable (layer slot : Nat)

def kvRef : KVTensor κ n := run.kvOf layer (run.hiddenRef padTo layer) slot

def callRef : SlotCall Q κ n := run.callOf layer (run.hiddenRef padTo layer) slot

def attnRef (r : Nat) : A := run.attnOf layer (run.hiddenRef padTo layer) slot r

def keepRef (r : Nat) : Bool := run.keepOf layer (run.hiddenRef padTo layer) padTo slot r

theorem hiddenRef_succ (r : Nat) : run.hiddenRef padTo (layer + 1) slot r =
    run.decoder.update layer (run.hiddenRef padTo layer slot r) (run.attnRef padTo layer slot r)
      (run.keepRef padTo layer slot r) := rfl

end Reference

variable [Zero κ]

structure Progress (run : Run E Q κ A n) (padTo : Nat → Nat) (done : Nat → Nat → Prop)
    (captured : Captured κ n) (log : List (Nat × SlotCall Q κ n)) : Prop where
  captured : ∀ slot layer, done slot layer → captured slot layer = some (run.kvRef padTo layer slot)
  log : ∀ e, e ∈ log ↔ ∃ slot layer, done slot layer ∧ e = (slot + 1, run.callRef padTo layer slot)

variable {run : Run E Q κ A n} {padTo : Nat → Nat}

section

variable {done done' : Nat → Nat → Prop} {captured : Captured κ n}
  {log : List (Nat × SlotCall Q κ n)} (h : run.Progress padTo done captured log)
include h

theorem Progress.congr (same : ∀ slot layer, done slot layer ↔ done' slot layer) :
    run.Progress padTo done' captured log := by
  have same : done = done' := funext fun slot => funext fun layer => propext (same slot layer)
  exact same ▸ h

theorem Progress.step (slot layer : Nat) :
    run.Progress padTo (fun s l => done s l ∨ (s = slot ∧ l = layer)) (update captured slot
        (update (captured slot) layer (some (run.kvRef padTo layer slot))))
      (log ++ [(slot + 1, run.callRef padTo layer slot)]) := by
  constructor
  · intro s l reached
    rcases eq_or_ne s slot with rfl | other
    · rw [update_self]
      rcases eq_or_ne l layer with rfl | other
      · rw [update_self]
      · rw [update_of_ne other]
        exact h.captured s l (reached.resolve_right fun this => other this.2)
    · rw [update_of_ne other]
      exact h.captured s l (reached.resolve_right fun this => other this.1)
  · intro e
    rw [mem_append, h.log, mem_singleton]
    constructor
    · rintro (⟨s, l, reached, rfl⟩ | rfl)
      · exact ⟨s, l, .inl reached, rfl⟩
      · exact ⟨slot, layer, .inr ⟨rfl, rfl⟩, rfl⟩
    · rintro ⟨s, l, reached | ⟨rfl, rfl⟩, rfl⟩
      · exact .inl ⟨s, l, reached, rfl⟩
      · exact .inr rfl

end

variable {mb : MicroBatch} {layer : Nat} {q : Nat → Nat → Q}
  {k : Nat → Nat → Fin n → κ}

structure Projects (run : Run E Q κ A n) (padTo : Nat → Nat) (mb : MicroBatch) (layer : Nat)
    (q : Nat → Nat → Q) (k : Nat → Nat → Fin n → κ) : Prop where
  query : ∀ b < mb.size, ∀ r < run.len (mb.start + b),
    q b r = (run.projectedAt layer (run.hiddenRef padTo layer) (mb.start + b) r).1
  row : ∀ b < mb.size, ∀ r < run.len (mb.start + b),
    k b r = (run.projectedAt layer (run.hiddenRef padTo layer) (mb.start + b) r).2

theorem Projects.self (h : run.Projects padTo mb layer q k) {b : Nat} (inside : b < mb.size) :
    KVTensor.ofTokens (run.len (mb.start + b)) (k b) =
      run.kvRef padTo layer (mb.start + b) :=
  KVTensor.ofTokens_congr fun r there => h.row b inside r there

theorem Projects.queries (h : run.Projects padTo mb layer q k) {b : Nat} (inside : b < mb.size) :
    (range (run.len (mb.start + b))).map (q b) =
      (run.callRef padTo layer (mb.start + b)).queries := by
  apply map_congr_left
  intro r there
  exact h.query b inside r (mem_range.mp there)

section Slot

variable {captured : Captured κ n} {b : Nat} {runPrev : Option (KVTensor κ n)}
  (h : run.Projects padTo mb layer q k) (inside : b < mb.size)
  (earlier : ∀ slot < mb.start,
    captured slot layer = some (run.kvRef padTo layer slot))

include h inside earlier

theorem prevPart_eq {slot : Nat} (before : slot < mb.start + b) :
    run.prevPart mb layer k captured slot = .ok (run.kvRef padTo layer slot) := by
  unfold prevPart
  split
  · next across => rw [earlier slot across]
  · next here =>
    have place : mb.start + (slot - mb.start) = slot := by omega
    dsimp only
    rw [h.self (by omega), place]

theorem gatherPrev_eq : run.gatherPrev mb layer k captured (mb.start + b + 1) =
      .ok ((range (mb.start + b)).map (run.kvRef padTo layer)) :=
  mapM_eq_map _ fun _ before => prevPart_eq h inside earlier (mem_range.mp before)

theorem gatherChecked_eq : run.gatherChecked mb layer k captured b (mb.start + b + 1) =
      .ok ((range (mb.start + b)).map (run.kvRef padTo layer)) := by
  apply mapM_eq_map
  intro slot listed
  have before : slot < mb.start + b := mem_range.mp listed
  rw [if_pos before]
  exact prevPart_eq h inside earlier before

theorem headclassOnline_eq (buffer : runPrev = KVTensor.catParts
      ((range b).map fun b => run.kvRef padTo layer (mb.start + b))) :
    run.headclassOnline mb layer k captured runPrev (mb.start + b + 1) = .ok (KVTensor.catParts
        ((range (mb.start + b)).map (run.kvRef padTo layer))) := by
  unfold headclassOnline
  split
  · rw [gatherPrev_eq h inside earlier, ok_bind]
  · next within =>
    -- this is the first micro-batch: its slots are the online segments themselves
    have first : mb.start = 0 := by omega
    rw [buffer, first]
    simp only [zero_add]

theorem slotPrev_eq (buffer : run.path = .headclass → runPrev = KVTensor.catParts
      ((range b).map fun b => run.kvRef padTo layer (mb.start + b))) :
    run.slotPrev mb layer k captured runPrev b (mb.start + b + 1) =
      .ok (run.callRef padTo layer (mb.start + b)).prev := by
  change _ = Except.ok (run.prevOf layer (run.hiddenRef padTo layer) (mb.start + b))
  unfold slotPrev prevOf
  cases path : run.path with
  | headclass =>
    rw [headclassOnline_eq h inside earlier (buffer path), ok_bind]
    rfl
  | segpaged =>
    rw [gatherPrev_eq h inside earlier, ok_bind]
    rfl
  | dense =>
    rw [gatherChecked_eq h inside earlier, ok_bind]
    rfl

end Slot

structure SlotsDone (run : Run E Q κ A n) (padTo : Nat → Nat) (mb : MicroBatch) (layer b : Nat)
    (s : SlotState Q κ A n) : Prop where
  progress : run.Progress padTo (fun slot l =>
    (slot < mb.start ∧ l < run.numLayers) ∨ (mb.start ≤ slot ∧ slot < mb.stop ∧ l < layer) ∨
      (mb.start ≤ slot ∧ slot < mb.start + b ∧ l = layer)) s.captured s.log
  buffer : run.path = .headclass → s.runPrev = KVTensor.catParts
    ((range b).map fun b => run.kvRef padTo layer (mb.start + b))
  attnOut : ∀ b' < b, ∀ r,
    s.attnOut b' r = run.attnRef padTo layer (mb.start + b') r

theorem slotTurn_ok (h : run.Projects padTo mb layer q k) (there : layer < run.numLayers) {b : Nat}
    (inside : b < mb.size) {s : SlotState Q κ A n} (inv : run.SlotsDone padTo mb layer b s) :
    ∃ s', run.slotTurn mb layer q k b s = .ok s' ∧ run.SlotsDone padTo mb layer (b + 1) s' := by
  have self := h.self inside
  have grown := inv.progress.step (mb.start + b) layer
  have earlier : ∀ slot < mb.start, update s.captured (mb.start + b)
      (update (s.captured (mb.start + b)) layer
        (some (run.kvRef padTo layer (mb.start + b)))) slot layer =
      some (run.kvRef padTo layer slot) :=
    fun slot before => grown.captured slot layer (.inl (.inl ⟨before, there⟩))
  have prev := slotPrev_eq h inside earlier inv.buffer
  have call : (⟨layer, (range (run.len (mb.start + b))).map (q b),
      run.kvRef padTo layer (mb.start + b),
      (run.callRef padTo layer (mb.start + b)).prev⟩ :
      SlotCall Q κ n) = run.callRef padTo layer (mb.start + b) := by
    rw [h.queries inside]
    rfl
  simp only [slotTurn, Nat.add_sub_cancel, self, prev, ok_bind, call]
  refine ⟨_, rfl, ?_, ?_, ?_⟩
  · apply grown.congr
    intro slot l
    unfold MicroBatch.size at inside
    omega
  · intro path
    rw [range_succ, map_append, map_singleton, KVTensor.catParts_append,
      ← inv.buffer path]
    unfold extendRunPrev
    rw [path]
    cases s.runPrev with
    | none => rfl
    | some prev => rfl
  · intro b' before r
    dsimp only
    rcases eq_or_ne b' b with rfl | other
    · rw [update_self]
      rfl
    · rw [update_of_ne other]
      exact inv.attnOut b' (by omega) r

structure Fits (run : Run E Q κ A n) (padTo : Nat → Nat) (mb : MicroBatch) : Prop where
  some_token : 0 < run.lenMax mb
  padded : ∀ b < mb.size, padTo (mb.start + b) = run.lenMax mb

theorem keepRows_eq (fits : run.Fits padTo mb) {attnOut : Nat → Nat → A} (rows : ∀ b < mb.size, ∀ r,
      attnOut b r = run.attnRef padTo layer (mb.start + b) r) :
    ∃ keep, run.keepRows mb layer attnOut = .ok keep ∧ ∀ b < mb.size, ∀ r,
      keep b r = run.keepRef padTo layer (mb.start + b) r := by
  unfold keepRows keepRef keepOf
  cases run.schedule with
  | none => exact ⟨_, rfl, fun _ _ _ => rfl⟩
  | some schedule =>
    dsimp only
    cases schedule.isDenseLayer layer with
    | true => exact ⟨_, rfl, fun _ _ _ => rfl⟩
    | false =>
      have some_row : ∀ b, ((range (run.lenMax mb)).map fun r =>
          run.decoder.importance (attnOut b r)) ≠ [] := by
        intro b empty
        have none := congrArg List.length empty
        rw [length_map, length_range, length_nil] at none
        exact absurd none (Nat.ne_of_gt fits.some_token)
      have selected := mapM_eq_map (range mb.size) fun b _ =>
        select_eq_keepMask run.ranking schedule layer (some_row b)
      refine ⟨_, by rw [if_neg Bool.false_ne_true, selected, ok_bind], ?_⟩
      intro b inside r
      have row : ((range (run.lenMax mb)).map fun r => run.decoder.importance (attnOut b r)) =
          (range (padTo (mb.start + b))).map fun r => run.decoder.importance
            (run.attnRef padTo layer (mb.start + b) r) := by
        rw [fits.padded b inside]
        simp only [rows b inside]
      simp [List.getD, inside, row, attnRef]

structure LayersDone (run : Run E Q κ A n) (padTo : Nat → Nat) (mb : MicroBatch) (layer : Nat)
    (s : LayerState E Q κ n) : Prop where
  hidden : ∀ b < mb.size, ∀ r < run.len (mb.start + b),
    s.hidden b r = run.hiddenRef padTo layer (mb.start + b) r
  progress : run.Progress padTo (fun slot l =>
    (slot < mb.start ∧ l < run.numLayers) ∨ (mb.start ≤ slot ∧ slot < mb.stop ∧ l < layer))
    s.captured s.log

theorem layerForward_ok (fits : run.Fits padTo mb) (there : layer < run.numLayers)
    {s : LayerState E Q κ n} (inv : run.LayersDone padTo mb layer s) :
    ∃ s', run.layerForward mb layer s = .ok s' ∧ run.LayersDone padTo mb (layer + 1) s' := by
  have projected : ∀ b < mb.size, ∀ r < run.len (mb.start + b),
      run.decoder.project layer (run.position mb b r) (s.hidden b r) =
        run.projectedAt layer (run.hiddenRef padTo layer) (mb.start + b) r := by
    intro b inside r valid
    unfold position projectedAt
    rw [if_pos valid, inv.hidden b inside r valid]
  have projects : run.Projects padTo mb layer
      (fun b r => (run.decoder.project layer (run.position mb b r) (s.hidden b r)).1)
      (fun b r => (run.decoder.project layer (run.position mb b r) (s.hidden b r)).2) :=
    ⟨fun b inside r valid => congrArg Prod.fst (projected b inside r valid),
      fun b inside r valid => congrArg Prod.snd (projected b inside r valid)⟩
  have start : run.SlotsDone padTo mb layer 0
      ⟨s.captured, none, fun _ _ => run.decoder.zero, s.log⟩ := by
    refine ⟨inv.progress.congr fun slot l => ?_, fun _ => rfl, fun _ before => ?_⟩
    · omega
    · exact absurd before (Nat.not_lt_zero _)
  obtain ⟨slots, runs, done⟩ := forRange_ok start fun b inside s inv =>
    slotTurn_ok projects there inside inv
  obtain ⟨keep, kept, same⟩ := keepRows_eq fits done.attnOut
  refine ⟨⟨fun b r => run.decoder.update layer (s.hidden b r) (slots.attnOut b r) (keep b r),
    slots.captured, slots.log⟩, by simp only [layerForward, runs, kept, ok_bind], ?_, ?_⟩
  · intro b inside r valid
    rw [hiddenRef_succ, ← inv.hidden b inside r valid, ← done.attnOut b inside r, ← same b inside r]
  · apply done.progress.congr
    intro slot l
    unfold MicroBatch.size
    omega

theorem microBatchForward_ok (fits : run.Fits padTo mb) (ordered : mb.start ≤ mb.stop)
    {s : Result Q κ n}
    (inv : run.Progress padTo (fun slot l => slot < mb.start ∧ l < run.numLayers)
      s.captured s.log) :
    ∃ s', run.microBatchForward mb s = .ok s' ∧
      run.Progress padTo (fun slot l => slot < mb.stop ∧ l < run.numLayers)
        s'.captured s'.log := by
  have start : run.LayersDone padTo mb 0 ⟨run.embedded mb, s.captured, s.log⟩ := by
    refine ⟨fun _ _ _ _ => rfl, inv.congr fun slot l => ?_⟩
    omega
  obtain ⟨s', runs, done⟩ := forRange_ok start fun layer there s inv =>
    layerForward_ok fits there inv
  refine ⟨⟨s'.captured, s'.log⟩, by simp only [microBatchForward, runs, ok_bind],
    done.progress.congr fun slot l => ?_⟩
  omega

end Run

end RedKnot.Driver
