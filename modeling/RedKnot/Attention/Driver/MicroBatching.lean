import RedKnot.Attention.Driver.Padding

/-! What a micro-batch size changes in the batched prefill: the previous rows never, the KV through
the padded length that the Sparse FFN selects on. -/

namespace RedKnot.Driver

open HeadClass (KVTensor HeadStrategy)
open SparseFFN Function List Nat OfflineSegment Run

variable {E Q κ A : Type} {n : Nat}

def rowsIn (t : Option (KVTensor κ n)) (h : Fin n) : List κ :=
  match t with
  | some t => t.rows h
  | none => []

def SlotPrev.rows (prev : SlotPrev κ n) (h : Fin n) : List κ :=
  match prev with
  | .dense prev _ => rowsIn prev h
  | .headclass seg0 online _ => seg0.rows h ++ rowsIn online h
  | .segpaged seg0 online => (seg0.rows h).take (seg0.lens h) ++ rowsIn online h

def Run.seg0Rows [Zero κ] (run : Run E Q κ A n) (layer : Nat) (h : Fin n) : List κ :=
  let rows := (run.first.kv layer).rows h
  if run.path = .segpaged ∧ (run.strategy layer h).isLocal then
    (localIdx (run.strategy layer) (run.first.kv layer).len).map fun p => rows.getD p.toNat 0
  else rows

theorem rowsIn_catParts (parts : List (KVTensor κ n)) (h : Fin n) :
    rowsIn (KVTensor.catParts parts) h = parts.flatMap fun part => part.rows h := by
  cases parts with
  | nil => rfl
  | cons part parts => rfl

theorem filterSeg0_rows [Zero κ] (strategy : Fin n → HeadStrategy) (seg0 : KVTensor κ n)
    (h : Fin n) :
    ((filterSeg0 strategy seg0).rows h).take ((filterSeg0 strategy seg0).lens h) =
      if (strategy h).isLocal then
        (localIdx strategy seg0.len).map fun p => (seg0.rows h).getD p.toNat 0
      else seg0.rows h := by
  unfold filterSeg0
  dsimp only
  cases isLocal : (strategy h).isLocal with
  | true =>
    rw [if_pos rfl, if_pos rfl]
    split
    · rw [take_left' (by simp)]
    · next none =>
      have empty : localIdx strategy seg0.len = [] :=
        eq_nil_of_length_eq_zero (by simpa using none)
      rw [empty]
      rfl
  | false =>
    have long : seg0.len ≤ ((finRange n).map fun h => if (strategy h).isLocal
        then (localIdx strategy seg0.len).length else seg0.len).max?.getD 0 := by
      apply le_max?_getD_of_mem
      exact mem_map.mpr ⟨h, mem_finRange h, by rw [isLocal]; rfl⟩
    rw [if_neg Bool.false_ne_true, if_neg Bool.false_ne_true, if_neg (by simp), take_take,
      Nat.min_eq_left long, ← seg0.sized h, take_length]

theorem prevOf_rows [Zero κ] (run : Run E Q κ A n) (layer : Nat) (hidden : Nat → Nat → E)
    (slot : Nat) (h : Fin n) :
    (run.prevOf layer hidden slot).rows h = run.seg0Rows layer h ++
      ((range slot).map (run.kvOf layer hidden)).flatMap fun part => part.rows h := by
  unfold Run.prevOf seg0Rows SlotPrev.rows
  cases run.path with
  | headclass => simp [rowsIn_catParts]
  | segpaged => simp [rowsIn_catParts, filterSeg0_rows]
  | dense => simp [rowsIn_catParts]

def lenMaxOf (lens : List Nat) (mb : MicroBatch) : Nat :=
  ((range mb.size).map fun b => lens.getD (mb.start + b) 0).max?.getD 0

def paddedLen (lens : List Nat) (microBatchSize : Option Int) (slot : Nat) : Nat :=
  let size := Run.effectiveSize microBatchSize lens.length
  lenMaxOf lens (Run.microBatch size lens.length (slot / size))

namespace Run

def lens (run : Run E Q κ A n) : List Nat := run.online.map docLen

section

variable (run : Run E Q κ A n)

theorem len_eq (slot : Nat) : run.len slot = run.lens.getD slot 0 := by
  unfold len tokens lens docLen
  cases there : run.online[slot]? with
  | none => simp [getD, there]
  | some segment => simp [getD, there]

theorem lenMax_eq (mb : MicroBatch) : run.lenMax mb = lenMaxOf run.lens mb := by
  simp only [lenMax, lenMaxOf, len_eq]

theorem len_pos {slot : Nat} (there : slot < run.online.length) : 0 < run.len slot := by
  unfold len tokens
  rw [getElem?_eq_getElem there]
  exact length_pos_of_ne_nil run.online[slot].some_token

theorem len_le_lenMax {mb : MicroBatch} {b : Nat} (inside : b < mb.size) :
    run.len (mb.start + b) ≤ run.lenMax mb := by
  apply le_max?_getD_of_mem
  exact mem_map.mpr ⟨b, mem_range.mpr inside, rfl⟩

end

theorem effectiveSize_pos (microBatchSize : Option Int) {nOnline : Nat}
    (some_segment : 0 < nOnline) : 0 < effectiveSize microBatchSize nOnline := by
  unfold effectiveSize
  cases microBatchSize with
  | none => exact some_segment
  | some size =>
    dsimp only
    split
    · exact some_segment
    · omega

theorem slot_in_microBatch {size nOnline slot : Nat} (positive : 0 < size)
    (there : slot < nOnline) :
    ∃ b < (microBatch size nOnline (slot / size)).size,
      (microBatch size nOnline (slot / size)).start + b = slot := by
  have parts := div_add_mod slot size
  have small := mod_lt slot positive
  rw [Nat.mul_comm] at parts
  refine ⟨slot % size, ?_, parts⟩
  simp only [microBatch, MicroBatch.size]
  omega

theorem getD_le_paddedLen (lens : List Nat) (microBatchSize : Option Int) {slot : Nat}
    (there : slot < lens.length) : lens.getD slot 0 ≤ paddedLen lens microBatchSize slot := by
  have positive := effectiveSize_pos microBatchSize (zero_lt_of_lt there)
  obtain ⟨b, inside, place⟩ := slot_in_microBatch positive there
  apply le_max?_getD_of_mem
  exact mem_map.mpr ⟨b, mem_range.mpr inside, by rw [place]⟩

section

variable (run : Run E Q κ A n) (microBatchSize : Option Int)

theorem len_le_paddedLen {slot : Nat} (there : slot < run.online.length) :
    run.len slot ≤ paddedLen run.lens microBatchSize slot := by
  rw [len_eq]
  exact getD_le_paddedLen run.lens microBatchSize (by rwa [lens, length_map])

theorem fits_microBatch {i : Nat}
    (starts : i * effectiveSize microBatchSize run.online.length < run.online.length) :
    run.Fits (paddedLen run.lens microBatchSize)
      (microBatch (effectiveSize microBatchSize run.online.length) run.online.length i) := by
  have many : run.lens.length = run.online.length := length_map _
  have positive := effectiveSize_pos microBatchSize (zero_lt_of_lt starts)
  constructor
  · have first : 0 < (microBatch (effectiveSize microBatchSize run.online.length)
        run.online.length i).size := by
      simp only [microBatch, MicroBatch.size]
      omega
    exact Nat.lt_of_lt_of_le (run.len_pos starts) (run.len_le_lenMax first)
  · intro b inside
    simp only [microBatch, MicroBatch.size] at inside
    have here : (i * effectiveSize microBatchSize run.online.length + b) /
        effectiveSize microBatchSize run.online.length = i := by
      rw [Nat.mul_comm, mul_add_div positive, div_eq_of_lt (by omega), Nat.add_zero]
    unfold paddedLen
    rw [many, lenMax_eq]
    dsimp only [microBatch]
    rw [here]

end

/-- The online segments below `stop` have been through all layers. -/
abbrev DoneTo [Zero κ] (run : Run E Q κ A n) (padTo : Nat → Nat) (stop : Nat)
    (s : Result Q κ n) : Prop :=
  run.Progress padTo (fun slot layer => slot < stop ∧ layer < run.numLayers)
    s.captured s.log

theorem onlineForwardSegmentsBatched_ok [Zero κ] (run : Run E Q κ A n)
    (microBatchSize : Option Int) :
    ∃ result, run.onlineForwardSegmentsBatched microBatchSize = .ok result ∧
      run.DoneTo (paddedLen run.lens microBatchSize) run.online.length result := by
  have start : ∀ stop ≤ 0,
      run.DoneTo (paddedLen run.lens microBatchSize) stop ⟨fun _ _ => none, []⟩ := by
    intro stop none
    constructor
    · intro slot layer reached
      omega
    · intro e
      constructor
      · intro member
        cases member
      · rintro ⟨slot, layer, reached, -⟩
        omega
  unfold onlineForwardSegmentsBatched
  dsimp only
  split
  · next none => exact ⟨_, rfl, start _ (by omega)⟩
  · next some_segment =>
    have positive := effectiveSize_pos microBatchSize (Nat.pos_of_ne_zero some_segment)
    generalize size_eq : effectiveSize microBatchSize run.online.length = size at positive ⊢
    have turn : ∀ i < (run.online.length + size - 1) / size, ∀ s : Result Q κ n,
        run.DoneTo (paddedLen run.lens microBatchSize) (min (i * size) run.online.length) s →
        ∃ s', run.microBatchForward (microBatch size run.online.length i) s = .ok s' ∧
          run.DoneTo (paddedLen run.lens microBatchSize)
            (min ((i + 1) * size) run.online.length) s' := by
      intro i inside s inv
      have starts : i * size < run.online.length := by
        have := (Nat.lt_div_iff_mul_lt positive).mp inside
        omega
      have fits := run.fits_microBatch microBatchSize (i := i) (by rw [size_eq]; exact starts)
      rw [size_eq] at fits
      obtain ⟨s', runs, done⟩ := microBatchForward_ok fits
        (by simp only [microBatch]; omega) (inv.congr fun slot layer => by
          simp only [microBatch]
          omega)
      refine ⟨s', runs, done.congr fun slot layer => ?_⟩
      simp only [microBatch, succ_mul]
    obtain ⟨result, runs, done⟩ := forRange_ok (s := ⟨fun _ _ => none, []⟩)
      (P := fun i => run.DoneTo (paddedLen run.lens microBatchSize)
        (min (i * size) run.online.length)) (start _ (by simp)) turn
    refine ⟨result, runs, done.congr fun slot layer => ?_⟩
    have covered : run.online.length ≤ (run.online.length + size - 1) / size * size := by
      have parts := div_add_mod (run.online.length + size - 1) size
      have small := mod_lt (run.online.length + size - 1) positive
      rw [Nat.mul_comm] at parts
      omega
    rw [Nat.min_eq_right covered]

/-- Every online segment gets its call in every layer, with the rows of segment 0 and the KV that
the run returns for the online segments before. -/
structure GivesHistory [Zero κ] (run : Run E Q κ A n) (result : Result Q κ n) : Prop where
  called : ∀ slot < run.online.length, ∀ layer < run.numLayers,
    ∃ call, (slot + 1, call) ∈ result.log ∧ call.layer = layer
  self : ∀ dIdx call, (dIdx, call) ∈ result.log →
    result.captured (dIdx - 1) call.layer = some call.self
  history : ∀ dIdx call, (dIdx, call) ∈ result.log → ∃ parts : List (KVTensor κ n),
    ((range (dIdx - 1)).map fun slot => result.captured slot call.layer) = parts.map some ∧
      ∀ h, call.prev.rows h =
        run.seg0Rows call.layer h ++ parts.flatMap fun part => part.rows h

def Unobservable [Zero κ] (run : Run E Q κ A n) (size size' : Int) : Prop :=
  ∃ result result', run.onlineForwardSegmentsBatched (some size) = .ok result ∧
    run.onlineForwardSegmentsBatched (some size') = .ok result' ∧
    run.GivesHistory result ∧ run.GivesHistory result' ∧
    ∀ slot < run.online.length, ∀ layer < run.numLayers,
      result.captured slot layer = result'.captured slot layer

theorem givesHistory_of_progress [Zero κ] {run : Run E Q κ A n} {padTo : Nat → Nat}
    {result : Result Q κ n} (done : run.DoneTo padTo run.online.length result) :
    run.GivesHistory result := by
  constructor
  · intro slot there layer below
    exact ⟨run.callRef padTo layer slot,
      (done.log _).mpr ⟨slot, layer, ⟨there, below⟩, rfl⟩, rfl⟩
  · intro dIdx call member
    obtain ⟨slot, layer, reached, entry⟩ := (done.log _).mp member
    cases entry
    exact done.captured slot layer reached
  · intro dIdx call member
    obtain ⟨slot, layer, ⟨there, below⟩, entry⟩ := (done.log _).mp member
    cases entry
    refine ⟨(range slot).map (run.kvRef padTo layer), ?_, fun h => ?_⟩
    · rw [map_map]
      apply map_congr_left
      intro earlier before
      have before : earlier < slot := mem_range.mp before
      exact done.captured earlier layer ⟨by omega, below⟩
    · exact prevOf_rows run layer _ slot h

end Run

/-- In every layer with Sparse FFN, but for the last, no segment sees which of the two sizes padded
it. -/
def SizesUnseen (numLayers : Nat) (lens : List Nat) (ranking : Ranking)
    (schedule : Option SparseFFNSchedule) (size size' : Int) : Prop :=
  ∀ policy, schedule = some policy → ∀ layer, layer + 1 < numLayers →
    policy.isDenseLayer layer = false → ∀ slot < lens.length,
      PaddingUnseen ranking policy layer (lens.getD slot 0)
        (paddedLen lens (some size) slot) (paddedLen lens (some size') slot)

theorem paddedLen_one (lens : List Nat) {slot : Nat} (there : slot < lens.length) :
    paddedLen lens (some 1) slot = lens.getD slot 0 := by
  have one : effectiveSize (some 1) lens.length = 1 := by
    simp [effectiveSize]
    omega
  have last : min (slot + 1) lens.length = slot + 1 := Nat.min_eq_left there
  simp [paddedLen, lenMaxOf, one, microBatch, MicroBatch.size, last]

/-- Against micro-batches of one segment, and over all orders of equal scores, the condition is one on
the schedule and the lengths. -/
theorem sizesUnseen_iff {numLayers : Nat} {lens : List Nat} {schedule : Option SparseFFNSchedule}
    {size : Int} : (∀ ranking, SizesUnseen numLayers lens ranking schedule size 1) ↔
      ∀ policy, schedule = some policy → ∀ layer, layer + 1 < numLayers →
        policy.isDenseLayer layer = false → ∀ slot < lens.length,
          Harmless policy layer (lens.getD slot 0) (paddedLen lens (some size) slot) := by
  constructor
  · intro unseen policy given layer below sparse slot there
    refine (paddingUnseen_iff (getD_le_paddedLen lens _ there)).mp fun ranking => ?_
    have here := unseen ranking policy given layer below sparse slot there
    rwa [paddedLen_one lens there] at here
  · intro harmless ranking policy given layer below sparse slot there
    rw [paddedLen_one lens there]
    exact paddingUnseen_of_harmless ranking (getD_le_paddedLen lens _ there)
      (harmless policy given layer below sparse slot there)

namespace Run

variable {run : Run E Q κ A n} {padTo padTo' : Nat → Nat} {layer : Nat}
  {hidden hidden' : Nat → Nat → E}

theorem kvOf_congr {slot : Nat} (same : ∀ r < run.len slot, hidden slot r = hidden' slot r) :
    run.kvOf layer hidden slot = run.kvOf layer hidden' slot := by
  apply KVTensor.ofTokens_congr
  intro r valid
  unfold projectedAt
  rw [same r valid]

theorem queriesOf_congr {slot : Nat} (same : ∀ r < run.len slot, hidden slot r = hidden' slot r) :
    run.queriesOf layer hidden slot = run.queriesOf layer hidden' slot := by
  apply map_congr_left
  intro r valid
  unfold projectedAt
  rw [same r (mem_range.mp valid)]

variable [Zero κ]

theorem prevOf_congr {slot : Nat}
    (same : ∀ earlier < slot, ∀ r < run.len earlier, hidden earlier r = hidden' earlier r) :
    run.prevOf layer hidden slot = run.prevOf layer hidden' slot := by
  have parts : (range slot).map (run.kvOf layer hidden) =
      (range slot).map (run.kvOf layer hidden') := by
    apply map_congr_left
    intro earlier before
    exact kvOf_congr (same earlier (mem_range.mp before))
  unfold prevOf
  rw [parts]

theorem scores_eq_padRow (run : Run E Q κ A n) (layer : Nat) (hidden : Nat → Nat → E) (slot : Nat)
    {padded : Nat} (long : run.len slot ≤ padded) :
    ((range padded).map fun r => run.decoder.importance (run.attnOf layer hidden slot r)) =
      padRow ((range (run.len slot)).map fun r =>
        run.decoder.importance (run.attend (run.callOf layer hidden slot) r)) padded := by
  obtain ⟨rest, rfl⟩ := Nat.exists_eq_add_of_le long
  rw [range_add, map_append, padRow]
  congr 1
  · apply map_congr_left
    intro r valid
    rw [attnOf, if_pos (mem_range.mp valid)]
  · rw [map_map, length_map, length_range, Nat.add_sub_cancel_left, eq_replicate_iff]
    refine ⟨by simp, fun score member => ?_⟩
    obtain ⟨r, -, rfl⟩ := mem_map.mp member
    rw [comp, attnOf, if_neg (by omega), run.decoder.importance_zero]

theorem keepOf_eq_of_unseen {slot r : Nat}
    (call : run.callOf layer hidden slot = run.callOf layer hidden' slot)
    (long : run.len slot ≤ padTo slot) (long' : run.len slot ≤ padTo' slot)
    (unseen : ∀ policy, run.schedule = some policy → policy.isDenseLayer layer = false →
      PaddingUnseen run.ranking policy layer (run.len slot) (padTo slot) (padTo' slot))
    (valid : r < run.len slot) :
    run.keepOf layer hidden padTo slot r = run.keepOf layer hidden' padTo' slot r := by
  unfold keepOf
  cases given : run.schedule with
  | none => rfl
  | some policy =>
    dsimp only
    cases dense : policy.isDenseLayer layer with
    | true => simp only [Bool.true_or]
    | false =>
      rw [run.scores_eq_padRow layer hidden slot long,
        run.scores_eq_padRow layer hidden' slot long', call]
      congr 1
      apply unseen policy given dense _ _ _ r valid
      · rw [length_map, length_range]
      · intro score member
        obtain ⟨i, -, rfl⟩ := mem_map.mp member
        exact run.decoder.importance_nonneg _

section

variable {size size' : Int}
  (unseen : SizesUnseen run.numLayers run.lens run.ranking run.schedule size size')
include unseen

theorem hiddenRef_of_unseen (layer : Nat) (below : layer < run.numLayers) :
    ∀ slot < run.online.length, ∀ r < run.len slot,
      run.hiddenRef (paddedLen run.lens (some size)) layer slot r =
        run.hiddenRef (paddedLen run.lens (some size')) layer slot r := by
  induction layer with
  | zero => exact fun _ _ _ _ => rfl
  | succ layer ih =>
    have ih := ih (by omega)
    intro slot there r valid
    have call : run.callRef (paddedLen run.lens (some size)) layer slot =
        run.callRef (paddedLen run.lens (some size')) layer slot := by
      unfold callRef callOf
      rw [queriesOf_congr (ih slot there), kvOf_congr (ih slot there),
        prevOf_congr fun earlier before => ih earlier (by omega)]
    have keep := keepOf_eq_of_unseen call (run.len_le_paddedLen (some size) there)
      (run.len_le_paddedLen (some size') there) (fun policy given dense => by
        rw [len_eq]
        exact unseen policy given layer below dense slot (by rwa [lens, length_map])) valid
    rw [hiddenRef_succ, hiddenRef_succ, ih slot there r valid]
    unfold keepRef attnRef attnOf
    unfold callRef at call
    rw [keep, call]

theorem unobservable_of_unseen : run.Unobservable size size' := by
  obtain ⟨result, runs, done⟩ := run.onlineForwardSegmentsBatched_ok (some size)
  obtain ⟨result', runs', done'⟩ := run.onlineForwardSegmentsBatched_ok (some size')
  refine ⟨result, result', runs, runs', givesHistory_of_progress done,
    givesHistory_of_progress done', fun slot there layer below => ?_⟩
  rw [done.captured slot layer ⟨there, below⟩, done'.captured slot layer ⟨there, below⟩]
  exact congrArg some (kvOf_congr (hiddenRef_of_unseen unseen layer below slot there))

end

end Run

/-! ### A transformer that shows its selection

The rows of one layer have given scores, and the KV of the next layer tells which of them ran the
FFN. -/

def probeDecoder (layer : Nat) : Decoder Bool Unit Nat ℚ 1 where
  embed _ := false
  project _ _ ran := ((), fun _ => if ran then 1 else 0)
  update l _ _ ran := decide (l = layer) && ran
  zero := 0
  importance := abs
  importance_nonneg := abs_nonneg
  importance_zero := abs_zero

def blankSegment (len : Nat) : OfflineSegment Nat 1 where
  tokenIds := replicate (len - 1 + 1) 0
  kv _ := ⟨len - 1 + 1, fun _ => replicate (len - 1 + 1) 0, fun _ => length_replicate⟩
  some_token := by simp
  sized _ := by simp

structure Probe where
  numLayers : Nat
  lens : List Nat
  some_tokens : ∀ len ∈ lens, 0 < len
  path : Path
  schedule : Option SparseFFNSchedule
  ranking : Ranking
  layer : Nat
  scores : List ℚ

namespace Probe

def run (probe : Probe) : Run Bool Unit Nat ℚ 1 where
  decoder := probeDecoder probe.layer
  numLayers := probe.numLayers
  first := blankSegment 1
  online := probe.lens.map blankSegment
  strategy l h := ⟨l, h, .headGlobal, -1, 0⟩
  path := probe.path
  attend call r := if call.layer = probe.layer then probe.scores.getD r 0 else 0
  schedule := probe.schedule
  ranking := probe.ranking

variable (probe : Probe) {policy : SparseFFNSchedule} {padTo padTo' : Nat → Nat} {slot r : Nat}

theorem run_lens : probe.run.lens = probe.lens := by
  simp only [run, Run.lens, map_map]
  conv_rhs => rw [← map_id probe.lens]
  apply map_congr_left
  intro len member
  have positive := probe.some_tokens len member
  simp only [comp, docLen, blankSegment, length_replicate, id]
  omega

theorem run_length : probe.run.online.length = probe.lens.length := length_map _

variable (sized : probe.scores.length = probe.run.len slot)
  (nonneg : ∀ score ∈ probe.scores, 0 ≤ score)

include nonneg in
theorem abs_scores :
    ((range probe.scores.length).map fun r => |probe.scores.getD r 0|) = probe.scores := by
  apply ext_getElem
  · simp
  · intro r inside inside'
    have same := abs_of_nonneg (nonneg _ (getElem_mem inside'))
    simpa [getD, inside'] using same

include sized nonneg in
theorem hidden_next (given : probe.schedule = some policy)
    (sparse : policy.isDenseLayer probe.layer = false) (long : probe.scores.length ≤ padTo slot) :
    probe.run.hiddenRef padTo (probe.layer + 1) slot r =
      (keepMask probe.ranking policy probe.layer (padRow probe.scores (padTo slot))).getD r
        false := by
  have shown := probe.run.scores_eq_padRow probe.layer (probe.run.hiddenRef padTo probe.layer)
    slot (sized ▸ long)
  have selected : probe.run.keepRef padTo probe.layer slot r =
      (keepMask probe.ranking policy probe.layer (padRow probe.scores (padTo slot))).getD r
        false := by
    unfold keepRef Run.keepOf
    rw [shown, ← sized]
    simp only [run, probeDecoder, Run.callOf, if_true, probe.abs_scores nonneg, given, sparse,
      Bool.false_or]
  rw [← selected]
  simp only [hiddenRef, keepRef, run, probeDecoder, decide_true, Bool.true_and]

theorem ran_of_kvRef {layer : Nat} (inside : r < probe.run.len slot)
    (same : probe.run.kvRef padTo layer slot = probe.run.kvRef padTo' layer slot) :
    probe.run.hiddenRef padTo layer slot r = probe.run.hiddenRef padTo' layer slot r := by
  have flag (padTo : Nat → Nat) : ((probe.run.kvRef padTo layer slot).rows 0)[r]? =
      some (if probe.run.hiddenRef padTo layer slot r then 1 else 0) := by
    simp only [kvRef, kvOf, KVTensor.ofTokens, getElem?_map, getElem?_range inside, Option.map_some]
    rfl
  have row := flag padTo
  rw [same, flag padTo'] at row
  cases ran : probe.run.hiddenRef padTo layer slot r <;>
    cases ran' : probe.run.hiddenRef padTo' layer slot r <;> simp [ran, ran'] at row ⊢

end Probe

theorem unseen_of_unobservable {numLayers : Nat} {lens : List Nat}
    (some_tokens : ∀ len ∈ lens, 0 < len) {path : Path} {schedule : Option SparseFFNSchedule}
    {ranking : Ranking} {size size' : Int}
    (unobservable : ∀ layer scores, (Probe.mk numLayers lens some_tokens path schedule ranking layer
      scores).run.Unobservable size size') :
    SizesUnseen numLayers lens ranking schedule size size' := by
  rintro policy given layer below sparse slot there scores sized nonneg r inside
  let probe : Probe := ⟨numLayers, lens, some_tokens, path, schedule, ranking, layer, scores⟩
  have here : slot < probe.run.online.length := probe.run_length ▸ there
  have len_slot : probe.run.len slot = lens.getD slot 0 := by rw [Run.len_eq, probe.run_lens]
  have shown (size : Int) :
      probe.run.hiddenRef (paddedLen probe.run.lens (some size)) (layer + 1) slot r =
        (keepMask ranking policy layer (padRow scores (paddedLen lens (some size) slot))).getD r
          false := by
    have long := probe.run.len_le_paddedLen (some size) here
    rw [len_slot, ← sized] at long
    rw [probe.hidden_next (sized.trans len_slot.symm) nonneg given sparse long, probe.run_lens]
  obtain ⟨result, result', runs, runs', -, -, same⟩ : probe.run.Unobservable size size' :=
    unobservable layer scores
  obtain ⟨made, returns, done⟩ := probe.run.onlineForwardSegmentsBatched_ok (some size)
  obtain ⟨made', returns', done'⟩ := probe.run.onlineForwardSegmentsBatched_ok (some size')
  cases runs.symm.trans returns
  cases runs'.symm.trans returns'
  have kv := same slot here (layer + 1) below
  rw [done.captured slot (layer + 1) ⟨here, below⟩,
    done'.captured slot (layer + 1) ⟨here, below⟩] at kv
  rw [← shown size, ← shown size']
  exact probe.ran_of_kvRef (len_slot ▸ inside) (Option.some.inj kv)

/-- Micro-batching is unobservable in every transformer if and only if the Sparse FFN does not see
the difference in padding. -/
theorem microBatching_unobservable_iff (numLayers : Nat) (lens : List Nat)
    (some_tokens : ∀ len ∈ lens, 0 < len) (path : Path) (schedule : Option SparseFFNSchedule)
    (ranking : Ranking) (size size' : Int) :
    (∀ (E Q κ A : Type) (_ : Zero κ) (n : Nat) (run : Run E Q κ A n), run.numLayers = numLayers →
      run.lens = lens → run.path = path → run.schedule = schedule → run.ranking = ranking →
      run.Unobservable size size') ↔
      SizesUnseen numLayers lens ranking schedule size size' := by
  constructor
  · intro unobservable
    apply unseen_of_unobservable some_tokens
    intro layer scores
    exact unobservable _ _ _ _ _ _ _ rfl (Probe.run_lens _) rfl rfl rfl
  · rintro unseen E Q κ A _ n run rfl rfl rfl rfl rfl
    exact Run.unobservable_of_unseen unseen

def evenProbe : Probe where
  numLayers := 2
  lens := [2, 2]
  some_tokens := by decide
  path := .headclass
  schedule := some { denseUntil := 0 }
  ranking := SparseFFN.stableRanking
  layer := 0
  scores := [3, 1]

theorem evenProbe_unobservable : evenProbe.run.Unobservable 1 2 := by
  refine (microBatching_unobservable_iff 2 [2, 2] (by decide) .headclass
    (some { denseUntil := 0 }) SparseFFN.stableRanking 1 2).mpr ?_ _ _ _ _ _ _ evenProbe.run rfl
    evenProbe.run_lens rfl rfl rfl
  intro policy _ layer _ _ slot there scores _ _ r _
  have same : ∀ slot < 2, paddedLen [2, 2] (some 1) slot = paddedLen [2, 2] (some 2) slot := by
    decide
  rw [same slot there]

def unevenProbe : Probe where
  numLayers := 2
  lens := [2, 3]
  some_tokens := by decide
  path := .dense
  schedule := some { denseUntil := 0, massThresh := 1 / 2, recentN := 1 }
  ranking := SparseFFN.stableRanking
  layer := 0
  scores := [3, 1]

theorem unevenProbe_kv : (unevenProbe.run.onlineForwardSegmentsBatched (some 1)).map (fun result =>
        (result.captured 0 1).map fun kv => kv.rows 0) = .ok (some [1, 1]) ∧
      (unevenProbe.run.onlineForwardSegmentsBatched (some 2)).map (fun result =>
        (result.captured 0 1).map fun kv => kv.rows 0) = .ok (some [1, 0]) := by
  decide +kernel

/-- With the longer segment in one micro-batch, the most recent token of the shorter one no longer
runs the FFN. -/
theorem uneven_segments_observable : ¬ unevenProbe.run.Unobservable 1 2 := by
  rintro ⟨result, result', runs, runs', -, -, same⟩
  obtain ⟨alone, together⟩ := unevenProbe_kv
  rw [runs] at alone
  rw [runs'] at together
  have kv := same 0 (by decide) 1 (by decide)
  simp only [Except.map, Except.ok.injEq] at alone together
  rw [← kv, alone] at together
  exact absurd together (by decide)

end RedKnot.Driver
