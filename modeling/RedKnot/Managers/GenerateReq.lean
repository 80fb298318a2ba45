import Mathlib.Tactic
import RedKnot.Python

/-! `GenerateReqInput` (`managers/io_struct.py`): normalisation turns every argument into a list
with an entry for each request, from which `obj[i]` takes the request `i`. -/

namespace RedKnot.GenerateReq

open List

/-- The arguments of a call. `embeds` is an instance of `PositionalEmbeds` and `obj` any other object
without a length or entries, such as an image. -/
inductive PyVal where
  | pyNone
  | bool (b : Bool)
  | int (n : Int)
  | float (x : ℚ)
  | str (s : String)
  | dict (entries : List (String × PyVal))
  | list (items : List PyVal)
  | embeds (id : Nat)
  | obj (id : Nat)

open PyVal

namespace PyVal

def isNone : PyVal → Bool
  | pyNone => true
  | _ => false

def isStr : PyVal → Bool
  | str _ => true
  | _ => false

def isList : PyVal → Bool
  | list _ => true
  | _ => false

/-- `isinstance(v, int)`, which is true of a `bool`. -/
def isInt : PyVal → Bool
  | int _ => true
  | bool _ => true
  | _ => false

def isFloat : PyVal → Bool
  | float _ => true
  | _ => false

/-- `bool(v)`. -/
def truthy : PyVal → Bool
  | pyNone => false
  | bool b => b
  | int n => n ≠ 0
  | float x => x ≠ 0
  | str s => s ≠ ""
  | dict entries => entries.length ≠ 0
  | list items => items.length ≠ 0
  | embeds _ => true
  | obj _ => true

/-- `len(v)`. -/
def len : PyVal → Except PyError Nat
  | str s => .ok s.toList.length
  | dict entries => .ok entries.length
  | list items => .ok items.length
  | _ => .error .typeError

/-- `v[i]` for a non-negative index; the keys of a dictionary are strings. -/
def index : PyVal → Nat → Except PyError PyVal
  | str s, i => do .ok (str (String.singleton (← pyGet s.toList i)))
  | dict _, _ => .error .keyError
  | list items, i => pyGet items i
  | _, _ => .error .typeError

/-- `[v] * num`. -/
def repeated (v : PyVal) (num : Int) : PyVal := list (replicate num.toNat v)

/-- `items * n`. -/
def times (items : List PyVal) (n : Int) : PyVal := list (replicate n.toNat items).flatten

/-- `v[i] if v is not None else None`. -/
def readOptional : PyVal → Nat → Except PyError PyVal
  | pyNone, _ => .ok pyNone
  | v, i => v.index i

/-- `v[i] if isinstance(v, list) else v`. -/
def readListed : PyVal → Nat → Except PyError PyVal
  | list items, i => pyGet items i
  | v, _ => .ok v

end PyVal

inductive Rid where
  | pyNone
  | one (rid : String)
  | many (rids : List String)
  | other

/-- The fields that normalisation or `__getitem__` look into. `R` is what a request hands on as it
is: `stream`, `priority` and the like. -/
structure GenerateReqInput (R : Type) where
  rid : Rid
  text : PyVal
  inputIds : PyVal
  inputEmbeds : PyVal
  imageData : PyVal
  videoData : PyVal
  audioData : PyVal
  samplingParams : PyVal
  returnLogprob : PyVal
  logprobStartLen : PyVal
  topLogprobsNum : PyVal
  tokenIdsLogprob : PyVal
  returnHiddenStates : PyVal
  modalities : PyVal
  loraPath : PyVal
  loraId : PyVal
  redknotOfflineSegments : PyVal
  customLogitProcessor : PyVal
  positionalEmbedOverrides : PyVal
  bootstrapHost : PyVal
  bootstrapPort : PyVal
  bootstrapRoom : PyVal
  bootstrapPairKey : PyVal
  decodeTpSize : PyVal
  multiItemDelimiterIndices : PyVal
  routedDpRank : PyVal
  dataParallelRank : PyVal
  passed : R

structure Normalized (R : Type) extends GenerateReqInput R where
  isSingle : Bool
  batchSize : Nat
  parallelSampleNum : Int

variable {R : Type}

def validateInputs (r : GenerateReqInput R) : Except PyError Unit :=
  if (r.text.isNone && r.inputIds.isNone && r.inputEmbeds.isNone) ||
      (!r.text.isNone && !r.inputIds.isNone && !r.inputEmbeds.isNone) then
    .error (.valueError "Either text, input_ids or input_embeds should be provided.")
  else .ok ()

/-- `is_single` and `batch_size`. -/
def determineBatchSize (r : GenerateReqInput R) : Except PyError (Bool × Nat) :=
  if !r.text.isNone then
    if r.text.isStr then .ok (true, 1)
    else do .ok (false, ← r.text.len)
  else if !r.inputIds.isNone then do
    if (← r.inputIds.len) = 0 then throw (.valueError "input_ids cannot be empty.")
    let first ← r.inputIds.index 0
    if first.isInt then .ok (true, 1)
    else .ok (false, ← r.inputIds.len)
  else do
    let first ← (← r.inputEmbeds.index 0).index 0
    if first.isFloat then .ok (true, 1)
    else .ok (false, ← r.inputEmbeds.len)

/-- `_determine_batch_size` drops `input_embeds` where another input is given. -/
def keptEmbeds (r : GenerateReqInput R) : PyVal :=
  if r.text.isNone && r.inputIds.isNone then r.inputEmbeds else .pyNone

/-- `params.get("n", 1)`, where `n` has to multiply lists. -/
def sampleNum : PyVal → Except PyError Int
  | .dict entries =>
    match entries.lookup "n" with
    | none => .ok 1
    | some (.int n) => .ok n
    | some (.bool b) => .ok (if b then 1 else 0)
    | some _ => .error .typeError
  | _ => .error .attributeError

def parallelSampleNum : PyVal → Except PyError Int
  | .pyNone => .ok 1
  | .dict entries => sampleNum (.dict entries)
  | .list [] => .error .indexError
  | .list (first :: rest) => do
    let n ← sampleNum first
    for params in rest do
      if n ≠ (← sampleNum params) then throw (.valueError
        "The parallel_sample_num should be the same for all samples in sample params.")
    .ok n
  | _ => .error .typeError

/-- `if v is not None: v = [v]`. -/
def wrapGiven (v : PyVal) : PyVal := if v.isNone then v else .list [v]

/-- `default if v is None else v`. -/
def orDefault (default : PyVal) : PyVal → PyVal
  | .pyNone => default
  | v => v

def normalizeSingleInputs (uuid : Nat → String) (r : GenerateReqInput R) : GenerateReqInput R :=
  { r with
    samplingParams := orDefault (.dict []) r.samplingParams
    rid := match r.rid with
      | .pyNone => .one (uuid 0)
      | rid => rid
    returnLogprob := orDefault (.bool false) r.returnLogprob
    logprobStartLen := orDefault (.int (-1)) r.logprobStartLen
    topLogprobsNum := orDefault (.int 0) r.topLogprobsNum
    tokenIdsLogprob := if r.tokenIdsLogprob.truthy then r.tokenIdsLogprob else .pyNone }

section Batch

variable (b : Nat) (n num : Int)

def expandArgument (default : PyVal) : PyVal → PyVal
  | .pyNone => default.repeated num
  | .list items => .times items n
  | v => v.repeated num

/-- The three inputs; `text` comes first, then `input_ids`. -/
def expandInputs (r : GenerateReqInput R) : Except PyError (GenerateReqInput R) :=
  if !r.text.isNone then
    match r.text with
    | .list items => .ok { r with text := .times items n }
    | _ => .error (.valueError "Text should be a list for batch processing.")
  else if !r.inputIds.isNone then
    match r.inputIds with
    | .list items => do
      if (← pyGet items 0).isList then .ok { r with inputIds := .times items n }
      else throw (.valueError "input_ids should be a list of lists for batch processing.")
    | _ => .error (.valueError "input_ids should be a list of lists for batch processing.")
  else if !r.inputEmbeds.isNone then
    match r.inputEmbeds with
    | .list items => .ok { r with inputEmbeds := .times items n }
    | _ => .error (.valueError "input_embeds should be a list for batch processing.")
  else .ok r

def normalizeRid (uuid : Nat → String) : Rid → Except PyError (List String)
  | .pyNone => .ok ((range num.toNat).map uuid)
  | .one rid => .ok ((range num.toNat).map fun i : Nat => s!"{rid}_{i}")
  | .many rids =>
    if rids.length ≠ b then .error (.valueError
      "The specified rids length mismatch with the batch_size for batch processing.")
    else .ok rids
  | .other => .error (.valueError "The rid should be a string or a list of strings.")

def normalizeLoraPaths : PyVal → Except PyError PyVal
  | .pyNone => .ok .pyNone
  | .str s => .ok ((str s).repeated num)
  | .list items => .ok (.times items n)
  | _ => .error (.valueError "lora_path should be a list or a string.")

def isFlatSegments : List PyVal → Bool
  | [] => true
  | first :: _ => first.isStr

def normalizeRedknotOfflineSegments : PyVal → Except PyError PyVal
  | .pyNone => .ok (pyNone.repeated num)
  | .list seg =>
    if isFlatSegments seg then .ok ((list seg).repeated num) else .ok (.times seg n)
  | _ => .error (.valueError ("redknot_offline_segments should be None, a list of str, or a " ++
      "list of per-request lists."))

def imageModality : PyVal → Except PyError PyVal
  | .pyNone => .ok .pyNone
  | .list [.pyNone] => .ok .pyNone
  | v => do
    let count ← v.len
    if count = 1 then .ok (.str "image")
    else if 1 < count then .ok (.str "multi-images")
    else .ok .pyNone

def normalizeImageData (modalities : PyVal) : PyVal → Except PyError (PyVal × PyVal)
  | .pyNone => .ok (pyNone.repeated num, modalities)
  | .list [] => .ok (pyNone.repeated num, modalities)
  | .list (first :: rest) => do
    if (first :: rest).length ≠ b then
      throw (.valueError "The length of image_data should be equal to the batch size.")
    if first.isList then
      let kinds ← (first :: rest).mapM imageModality
      .ok (.times (first :: rest) n, .times kinds n)
    else
      .ok (.times ((first :: rest).map fun img => .list [img]) n, (str "image").repeated num)
  | v => .ok ((list [v]).repeated num, (str "image").repeated num)

def normalizeVideoData (v : PyVal) : PyVal := expandArgument n num .pyNone v

def normalizeAudioData (v : PyVal) : PyVal := expandArgument n num .pyNone v

def normalizeSamplingParams (v : PyVal) : PyVal := expandArgument n num (.dict []) v

def normalizeParam (default : PyVal) (name : String) : PyVal → Except PyError PyVal
  | .pyNone => .ok (default.repeated num)
  | .list items =>
    if 1 < n then .error (.valueError s!"Cannot use list {name} with parallel_sample_num > 1")
    else .ok (.list items)
  | v => .ok (v.repeated num)

def normalizeTokenIdsLogprob (v : PyVal) : Except PyError PyVal :=
  if !v.truthy then .ok (pyNone.repeated num)
  else
    match v with
    | .list [] => .ok (pyNone.repeated num)
    | .list (first :: rest) =>
      if !first.isList then .ok ((list (first :: rest)).repeated num)
      else if 1 < n then .error (.valueError
        "Cannot use list token_ids_logprob with parallel_sample_num > 1")
      else .ok (.list (first :: rest))
    | v => .ok ((list [v]).repeated num)

def normalizeCustomLogitProcessor (v : PyVal) : Except PyError PyVal :=
  normalizeParam n num .pyNone "custom_logit_processor" v

/-- `room + i`. -/
def addIndex : PyVal → Nat → Except PyError PyVal
  | .int room, i => .ok (.int (room + i))
  | .bool room, i => .ok (.int ((if room then 1 else 0) + i))
  | .float room, i => .ok (.float (room + i))
  | _, _ => .error .typeError

def normalizeBootstrapRoom : PyVal → Except PyError PyVal
  | .pyNone => .ok (pyNone.repeated num)
  | .list items => .ok (.times items n)
  | v => do .ok (.list (← (range num.toNat).mapM (addIndex v)))

def normalizeBatchInputs (uuid : Nat → String) (r : GenerateReqInput R) :
    Except PyError (Normalized R) := do
  let num := if n = 1 then (b : Int) else b * n
  let r ← expandInputs n r
  let rids ← normalizeRid b num uuid r.rid
  let loraPath ← normalizeLoraPaths n num r.loraPath
  let segments ← normalizeRedknotOfflineSegments n num r.redknotOfflineSegments
  let image ← normalizeImageData b n num r.modalities r.imageData
  let returnLogprob ← normalizeParam n num (.bool false) "return_logprob" r.returnLogprob
  let logprobStartLen ← normalizeParam n num (.int (-1)) "logprob_start_len" r.logprobStartLen
  let topLogprobsNum ← normalizeParam n num (.int 0) "top_logprobs_num" r.topLogprobsNum
  let tokenIdsLogprob ← normalizeTokenIdsLogprob n num r.tokenIdsLogprob
  let processor ← normalizeCustomLogitProcessor n num r.customLogitProcessor
  let room ← normalizeBootstrapRoom n num r.bootstrapRoom
  .ok { r with
    rid := .many rids
    loraPath := loraPath
    redknotOfflineSegments := segments
    imageData := image.1
    modalities := image.2
    videoData := normalizeVideoData n num r.videoData
    audioData := normalizeAudioData n num r.audioData
    samplingParams := normalizeSamplingParams n num r.samplingParams
    returnLogprob := returnLogprob
    logprobStartLen := logprobStartLen
    topLogprobsNum := topLogprobsNum
    tokenIdsLogprob := tokenIdsLogprob
    customLogitProcessor := processor
    bootstrapHost := expandArgument n num .pyNone r.bootstrapHost
    bootstrapPort := expandArgument n num .pyNone r.bootstrapPort
    bootstrapRoom := room
    bootstrapPairKey := expandArgument n num .pyNone r.bootstrapPairKey
    isSingle := false
    batchSize := b
    parallelSampleNum := n }

end Batch

def duplicateRids (rids : List String) : String :=
  let repeated := rids.dedup.filter fun rid => 1 < rids.count rid
  "[" ++ ", ".intercalate (repeated.map fun rid => s!"'{rid}'") ++ "]"

def validateRidUniqueness : Rid → Except PyError Unit
  | .many rids =>
    if rids.dedup.length ≠ rids.length then
      let duplicates := duplicateRids rids
      .error (.valueError s!"Duplicate request IDs detected within the request: {duplicates}")
    else .ok ()
  | _ => .ok ()

/-- The deprecated name of `routed_dp_rank`. -/
def renameDataParallelRank (r : GenerateReqInput R) : GenerateReqInput R :=
  if r.dataParallelRank.isNone then r
  else
    { r with
      routedDpRank := orDefault r.dataParallelRank r.routedDpRank
      dataParallelRank := .pyNone }

def wrapInputs (r : GenerateReqInput R) : GenerateReqInput R :=
  { r with
    text := wrapGiven r.text
    inputIds := wrapGiven r.inputIds
    inputEmbeds := wrapGiven r.inputEmbeds }

def normalizeInputs (uuid : Nat → String) (isSingle : Bool) (batchSize : Nat) (n : Int)
    (r : GenerateReqInput R) : Except PyError (Normalized R) :=
  if isSingle then
    if 1 < n then normalizeBatchInputs batchSize n uuid (wrapInputs r)
    else .ok ⟨normalizeSingleInputs uuid r, true, batchSize, n⟩
  else normalizeBatchInputs batchSize n uuid r

def normalizeBatchAndArguments (uuid : Nat → String) (r : GenerateReqInput R) :
    Except PyError (Normalized R) := do
  let r := renameDataParallelRank r
  validateInputs r
  let shape ← determineBatchSize r
  let r := { r with inputEmbeds := keptEmbeds r }
  let n ← parallelSampleNum r.samplingParams
  let out ← normalizeInputs uuid shape.1 shape.2 n r
  validateRidUniqueness out.rid
  .ok out

def getPositionalEmbedOverridesItem : PyVal → Nat → Except PyError PyVal
  | .pyNone, _ => .ok .pyNone
  | .embeds id, _ => .ok (.embeds id)
  | v, i => v.index i

def getModality (modalities : PyVal) (i : Nat) : Except PyError PyVal :=
  if modalities.truthy then modalities.index i else .ok .pyNone

def getRid : Rid → Nat → Except PyError Rid
  | .many rids, i => do .ok (.one (← pyGet rids i))
  | .one rid, i => do .ok (.one (String.singleton (← pyGet rid.toList i)))
  | _, _ => .error .typeError

/-- `obj[i]`; the object is not changed between two reads, so that the cached result is this one. -/
def Normalized.getItem (obj : Normalized R) (i : Nat) : Except PyError (GenerateReqInput R) := do
  let text ← obj.text.readOptional i
  let inputIds ← obj.inputIds.readOptional i
  let inputEmbeds ← obj.inputEmbeds.readOptional i
  let overrides ← getPositionalEmbedOverridesItem obj.positionalEmbedOverrides i
  let imageData ← obj.imageData.index i
  let videoData ← obj.videoData.index i
  let audioData ← obj.audioData.index i
  let samplingParams ← obj.samplingParams.index i
  let rid ← getRid obj.rid i
  let returnLogprob ← obj.returnLogprob.index i
  let logprobStartLen ← obj.logprobStartLen.index i
  let topLogprobsNum ← obj.topLogprobsNum.index i
  let tokenIdsLogprob ← obj.tokenIdsLogprob.index i
  let returnHiddenStates ← obj.returnHiddenStates.readListed i
  let modalities ← getModality obj.modalities i
  let loraPath ← obj.loraPath.readOptional i
  let loraId ← obj.loraId.readOptional i
  let segments ← obj.redknotOfflineSegments.readOptional i
  let processor ← obj.customLogitProcessor.readOptional i
  let host ← obj.bootstrapHost.readOptional i
  let port ← obj.bootstrapPort.readOptional i
  let room ← obj.bootstrapRoom.readOptional i
  let pairKey ← obj.bootstrapPairKey.readOptional i
  let decodeTpSize ← obj.decodeTpSize.readOptional i
  let delimiters ← obj.multiItemDelimiterIndices.readOptional i
  .ok ⟨rid, text, inputIds, inputEmbeds, imageData, videoData, audioData, samplingParams,
    returnLogprob, logprobStartLen, topLogprobsNum, tokenIdsLogprob, returnHiddenStates, modalities,
    loraPath, loraId, segments, processor, overrides, host, port, room, pairKey, decodeTpSize,
    delimiters, obj.routedDpRank, .pyNone, obj.passed⟩

end RedKnot.GenerateReq
