import RedKnot.Attention.SparseFFN
import RedKnot.Attention.HeadClass.MaskPlan
import RedKnot.Attention.HeadClass.Visible

/-! The batched online prefill (`online_forward_segments_batched` of `redknot/driver_batched.py`).
What the transformer computes on one token is a parameter. -/

open Function List

namespace RedKnot.HeadClass.KVTensor

variable {κ : Type} {n : Nat}

def ofTokens (len : Nat) (row : Nat → Fin n → κ) : KVTensor κ n where
  len := len
  rows h := (range len).map fun r => row r h
  sized _ := by rw [length_map, length_range]

/-- `torch.cat(parts, dim=2) if parts else None`. -/
def catParts : List (KVTensor κ n) → Option (KVTensor κ n)
  | [] => none
  | parts => some (catAll parts)

end RedKnot.HeadClass.KVTensor

namespace RedKnot.Driver

open HeadClass (KVTensor HeadStrategy localVisibleIndices)
open SparseFFN (SparseFFNSchedule Ranking selectImportantTokens)

variable {E Q κ A : Type} {n : Nat}

structure OfflineSegment (κ : Type) (n : Nat) where
  tokenIds : List Nat
  kv : Nat → KVTensor κ n
  some_token : tokenIds ≠ []
  sized : ∀ layer, (kv layer).len = tokenIds.length

def OfflineSegment.docLen (segment : OfflineSegment κ n) : Nat := segment.tokenIds.length

/-- The transformer token by token: `E` is the residual stream, `A` a row of `attn_out`. `update` is
the layer after the attention, with or without the FFN. -/
structure Decoder (E Q κ A : Type) (n : Nat) where
  embed : Nat → E
  project : Nat → Nat → E → Q × (Fin n → κ)
  update : Nat → E → A → Bool → E
  zero : A
  -- the L2 norm of `token_importance_from_attn`
  importance : A → ℚ
  importance_nonneg : ∀ a, 0 ≤ importance a
  importance_zero : importance zero = 0

/-- The attention paths: by default, with `use_headclass`, and with `use_segpaged` alone. -/
inductive Path where
  | dense
  | headclass
  | segpaged
deriving DecidableEq

/-- `filtered_seg0_k/v` and `filtered_seg0_lens`. -/
structure FilteredSeg0 (κ : Type) (n : Nat) where
  rows : Fin n → List κ
  lens : Fin n → Nat

/-- The previous rows as a path hands them to its kernel, on the dense path with the segment that
the sinks are taken from. -/
inductive SlotPrev (κ : Type) (n : Nat) where
  | dense (prev : Option (KVTensor κ n)) (sinkFrom : KVTensor κ n)
  | headclass (seg0 : KVTensor κ n) (online : Option (KVTensor κ n)) (segOffset : Nat)
  | segpaged (seg0 : FilteredSeg0 κ n) (online : Option (KVTensor κ n))

structure SlotCall (Q κ : Type) (n : Nat) where
  layer : Nat
  queries : List Q
  self : KVTensor κ n
  prev : SlotPrev κ n

def localIdx (strategy : Fin n → HeadStrategy) (len : Nat) : List Int :=
  match (finRange n).find? fun h => (strategy h).isLocal with
  | some first =>
    let window := if 0 < (strategy first).window then (strategy first).window else 512
    localVisibleIndices len (strategy first).sinkSize window
  | none => []

/-- Segment 0 filtered for the segpaged path: local heads keep `localIdx` and are padded with
zeros. -/
def filterSeg0 [Zero κ] (strategy : Fin n → HeadStrategy) (seg0 : KVTensor κ n) :
    FilteredSeg0 κ n :=
  let idx := localIdx strategy seg0.len
  let lens h := if (strategy h).isLocal then idx.length else seg0.len
  let lenMax := ((finRange n).map lens).max?.getD 0
  { lens
    rows h :=
      if (strategy h).isLocal ∧ 0 < idx.length then
        (idx.map fun p => (seg0.rows h).getD p.toNat 0) ++
          replicate (lenMax - idx.length) 0
      else (seg0.rows h).take lenMax }

/-- The arguments of a run. `attend` is the kernel of the chosen path: the row of `attn_out` for
every query. -/
structure Run (E Q κ A : Type) (n : Nat) where
  decoder : Decoder E Q κ A n
  numLayers : Nat
  first : OfflineSegment κ n
  online : List (OfflineSegment κ n)
  strategy : Nat → Fin n → HeadStrategy
  path : Path
  attend : SlotCall Q κ n → Nat → A
  schedule : Option SparseFFNSchedule
  ranking : Ranking

namespace Run

def tokens (run : Run E Q κ A n) (slot : Nat) : List Nat :=
  (run.online[slot]?.map OfflineSegment.tokenIds).getD []

/-- `online_lens`. -/
def len (run : Run E Q κ A n) (slot : Nat) : Nat := (run.tokens slot).length

/-- `online_offsets`. -/
def offset (run : Run E Q κ A n) (slot : Nat) : Nat :=
  run.first.docLen + ((run.online.take slot).map OfflineSegment.docLen).sum

end Run

structure MicroBatch where
  start : Nat
  stop : Nat

def MicroBatch.size (mb : MicroBatch) : Nat := mb.stop - mb.start

namespace Run

/-- `mb_L_max`. -/
def lenMax (run : Run E Q κ A n) (mb : MicroBatch) : Nat :=
  ((range mb.size).map fun b => run.len (mb.start + b)).max?.getD 0

/-- `position_ids_mb`. -/
def position (run : Run E Q κ A n) (mb : MicroBatch) (b r : Nat) : Nat :=
  if r < run.len (mb.start + b) then run.offset (mb.start + b) + r else 0

/-- `input_ids_mb` through the embedding. -/
def embedded (run : Run E Q κ A n) (mb : MicroBatch) (b r : Nat) : E :=
  run.decoder.embed ((run.tokens (mb.start + b)).getD r 0)

/-- `captured_kv_global`, by slot and layer. -/
abbrev Captured (κ : Type) (n : Nat) := Nat → Nat → Option (KVTensor κ n)

/-- The state of the loop over the slots of a micro-batch; `log` lists the calls of the kernel with
their `d_idx`. -/
structure SlotState (Q κ A : Type) (n : Nat) where
  captured : Captured κ n
  runPrev : Option (KVTensor κ n)
  attnOut : Nat → Nat → A
  log : List (Nat × SlotCall Q κ n)

section Layer

variable [Zero κ] (run : Run E Q κ A n) (mb : MicroBatch) (layer : Nat)
  -- the projections of the layer, by slot and row
  (q : Nat → Nat → Q) (k : Nat → Nat → Fin n → κ)

def prevPart (captured : Captured κ n) (prevOnlineSlot : Nat) : Except PyError (KVTensor κ n) :=
  if prevOnlineSlot < mb.start then
    match captured prevOnlineSlot layer with
    | some rows => .ok rows
    | none => .error .typeError
  else
    let rel := prevOnlineSlot - mb.start
    .ok (.ofTokens (run.len (mb.start + rel)) (k rel))

/-- The loop over `prev_seg_idx in range(1, d_idx)`, where the slot is `prev_seg_idx - 1`. -/
def gatherPrev (captured : Captured κ n) (dIdx : Nat) : Except PyError (List (KVTensor κ n)) :=
  (range (dIdx - 1)).mapM fun slot => run.prevPart mb layer k captured slot

def gatherChecked (captured : Captured κ n) (b dIdx : Nat) : Except PyError (List (KVTensor κ n)) :=
  (range (dIdx - 1)).mapM fun slot =>
    let here := mb.start + b
    if slot < here then run.prevPart mb layer k captured slot
    else .error (.runtimeError
      s!"unexpected prev order: prev_online_slot={slot}, mb_start+b={here}")

/-- The online rows of the head-class path: the running buffer, or a gather across
micro-batches. -/
def headclassOnline (captured : Captured κ n) (runPrev : Option (KVTensor κ n)) (dIdx : Nat) :
    Except PyError (Option (KVTensor κ n)) :=
  if 0 < mb.start ∧ 0 < dIdx - 1 then do
    let parts ← run.gatherPrev mb layer k captured dIdx
    .ok (KVTensor.catParts parts)
  else .ok runPrev

def slotPrev (captured : Captured κ n) (runPrev : Option (KVTensor κ n)) (b dIdx : Nat) :
    Except PyError (SlotPrev κ n) :=
  match run.path with
  | .headclass => do
    let online ← run.headclassOnline mb layer k captured runPrev dIdx
    .ok (.headclass (run.first.kv layer) online (run.offset (mb.start + b)))
  | .segpaged => do
    let parts ← run.gatherPrev mb layer k captured dIdx
    .ok (.segpaged (filterSeg0 (run.strategy layer) (run.first.kv layer)) (KVTensor.catParts parts))
  | .dense => do
    let parts ← run.gatherChecked mb layer k captured b dIdx
    .ok (.dense (KVTensor.catParts (run.first.kv layer :: parts)) (run.first.kv layer))

/-- `_run_prev_k` after a slot; only the head-class path has it. -/
def extendRunPrev (runPrev : Option (KVTensor κ n)) (self : KVTensor κ n) : Option (KVTensor κ n) :=
  match run.path, runPrev with
  | .headclass, none => some self
  | .headclass, some prev => some (prev.cat self)
  | _, runPrev => runPrev

def slotTurn (b : Nat) (s : SlotState Q κ A n) : Except PyError (SlotState Q κ A n) := do
  let dIdx := mb.start + b + 1
  let lb := run.len (mb.start + b)
  let self := KVTensor.ofTokens lb (k b)
  let captured := update s.captured (dIdx - 1)
    (update (s.captured (dIdx - 1)) layer (some self))
  let prev ← run.slotPrev mb layer k captured s.runPrev b dIdx
  let call : SlotCall Q κ n := ⟨layer, (range lb).map (q b), self, prev⟩
  .ok
    { captured
      runPrev := run.extendRunPrev s.runPrev self
      -- zero rows up to `mb_L_max`
      attnOut := update s.attnOut b fun r =>
        if r < lb then run.attend call r else run.decoder.zero
      log := s.log ++ [(dIdx, call)] }

def keepRows (attnOut : Nat → Nat → A) : Except PyError (Nat → Nat → Bool) :=
  match run.schedule with
  | none => .ok fun _ _ => true
  | some schedule =>
    if schedule.isDenseLayer layer then .ok fun _ _ => true
    else do
      let keep ← (range mb.size).mapM fun b =>
        selectImportantTokens run.ranking schedule (some (schedule.getMassThresh layer))
          ((range (run.lenMax mb)).map fun r => run.decoder.importance (attnOut b r))
      .ok fun b r => (keep.getD b []).getD r false

end Layer

structure LayerState (E Q κ : Type) (n : Nat) where
  hidden : Nat → Nat → E
  captured : Captured κ n
  log : List (Nat × SlotCall Q κ n)

def layerForward [Zero κ] (run : Run E Q κ A n) (mb : MicroBatch) (layer : Nat)
    (s : LayerState E Q κ n) : Except PyError (LayerState E Q κ n) := do
  let projected b r := run.decoder.project layer (run.position mb b r) (s.hidden b r)
  let slots ← forRange mb.size
    (run.slotTurn mb layer (fun b r => (projected b r).1) fun b r => (projected b r).2)
    ⟨s.captured, none, fun _ _ => run.decoder.zero, s.log⟩
  let keep ← run.keepRows mb layer slots.attnOut
  .ok
    { hidden b r := run.decoder.update layer (s.hidden b r) (slots.attnOut b r) (keep b r)
      captured := slots.captured
      log := slots.log }

structure Result (Q κ : Type) (n : Nat) where
  captured : Captured κ n
  log : List (Nat × SlotCall Q κ n)

def microBatchForward [Zero κ] (run : Run E Q κ A n) (mb : MicroBatch) (s : Result Q κ n) :
    Except PyError (Result Q κ n) := do
  let s ← forRange run.numLayers (run.layerForward mb) ⟨run.embedded mb, s.captured, s.log⟩
  .ok ⟨s.captured, s.log⟩

def effectiveSize (microBatchSize : Option Int) (nOnline : Nat) : Nat :=
  match microBatchSize with
  | some size => if size ≤ 0 then nOnline else min size.toNat nOnline
  | none => nOnline

/-- The entry of `micro_batches` for `s = i * size`. -/
def microBatch (size nOnline i : Nat) : MicroBatch := ⟨i * size, min (i * size + size) nOnline⟩

def onlineForwardSegmentsBatched [Zero κ] (run : Run E Q κ A n) (microBatchSize : Option Int) :
    Except PyError (Result Q κ n) :=
  let nOnline := run.online.length
  if nOnline = 0 then .ok ⟨fun _ _ => none, []⟩
  else
    let size := effectiveSize microBatchSize nOnline
    forRange ((nOnline + size - 1) / size)
      (fun i => run.microBatchForward (microBatch size nOnline i)) ⟨fun _ _ => none, []⟩

end Run

end RedKnot.Driver
