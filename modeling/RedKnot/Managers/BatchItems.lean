import RedKnot.Managers.BatchInputs

/-! The whole of normalisation followed by `obj[i]`. -/

namespace RedKnot.GenerateReq

open PyVal

variable {R : Type} {single : Bool} {b : Nat} {n : Int} {r r' : GenerateReqInput R}
  {uuid : Nat → String}

def withPrompts (single : Bool) (r : GenerateReqInput R) : GenerateReqInput R :=
  if single then wrapInputs { r with inputEmbeds := keptEmbeds r }
  else { r with inputEmbeds := keptEmbeds r }

theorem wrapGiven_given {v : PyVal} (given : v.isNone = false) : wrapGiven v = .list [v] := by
  rw [wrapGiven, given, if_neg Bool.false_ne_true]

theorem ne_pyNone {v : PyVal} (given : v.isNone = false) : v ≠ .pyNone := by
  rintro rfl
  cases given

theorem determineBatchSize_one (shape : determineBatchSize r = .ok (single, b)) :
    single = true → b = 1 := by
  rintro rfl
  unfold determineBatchSize at shape
  split at shape
  · split at shape
    · cases shape
      rfl
    · obtain ⟨size, -, done⟩ := bind_eq_ok.mp shape
      cases done
  · split at shape
    · obtain ⟨size, -, shape⟩ := bind_eq_ok.mp shape
      split at shape
      · cases shape
      · obtain ⟨first, -, shape⟩ := bind_eq_ok.mp shape
        split at shape
        · cases shape
          rfl
        · obtain ⟨size, -, done⟩ := bind_eq_ok.mp shape
          cases done
    · obtain ⟨entry, -, shape⟩ := bind_eq_ok.mp shape
      obtain ⟨first, -, shape⟩ := bind_eq_ok.mp shape
      split at shape
      · cases shape
        rfl
      · obtain ⟨size, -, done⟩ := bind_eq_ok.mp shape
        cases done

theorem len_list {v : PyVal} {items : List PyVal} {size : Nat} (is_list : v = .list items)
    (len : v.len = .ok size) : items.length = size := by
  subst is_list
  cases len
  rfl

section

variable (shape : determineBatchSize r = .ok (single, b))
  (expanded : expandInputs n (withPrompts single r) = .ok r')
include shape expanded

theorem expanded_ofText (given : r.text.isNone = false) : Expanded single b n r r' := by
  have embeds : keptEmbeds r = .pyNone := by simp only [keptEmbeds, given, Bool.false_and]; rfl
  simp only [determineBatchSize, given, Bool.not_false, if_true] at shape
  split at shape
  · cases shape
    simp only [withPrompts, if_true, wrapInputs, embeds, expandInputs, wrapGiven_given given] at expanded
    cases expanded
    exact .ofText [r.text] rfl ⟨ne_pyNone given, rfl⟩ rfl rfl rfl
  · obtain ⟨size, len, done⟩ := bind_eq_ok.mp shape
    cases done
    simp only [withPrompts, Bool.false_eq_true, if_false, expandInputs, given, Bool.not_false, if_true,
      embeds] at expanded
    split at expanded
    · next items text =>
      cases expanded
      exact .ofText items (len_list text len) ⟨ne_pyNone given, text⟩ rfl rfl rfl
    · cases expanded

theorem expanded_ofIds (noText : r.text = .pyNone) (given : r.inputIds.isNone = false) :
    Expanded single b n r r' := by
  have absent : r.text.isNone = true := isNone_iff.mpr noText
  have embeds : keptEmbeds r = .pyNone := by simp only [keptEmbeds, given, Bool.and_false]; rfl
  simp only [determineBatchSize, absent, given, Bool.not_true, Bool.not_false, Bool.false_eq_true,
    if_false, if_true] at shape
  obtain ⟨size, len, shape⟩ := bind_eq_ok.mp shape
  split at shape
  · cases shape
  · obtain ⟨first, -, shape⟩ := bind_eq_ok.mp shape
    split at shape
    · cases shape
      simp only [withPrompts, if_true, wrapInputs, embeds, expandInputs, noText, wrapGiven_given given]
        at expanded
      obtain ⟨ids, read, expanded⟩ := bind_eq_ok.mp expanded
      split at expanded
      · cases expanded
        exact .ofIds [r.inputIds] rfl noText ⟨ne_pyNone given, rfl⟩ rfl rfl rfl
      · cases expanded
    · obtain ⟨size', len', done⟩ := bind_eq_ok.mp shape
      cases done
      simp only [withPrompts, Bool.false_eq_true, if_false, expandInputs, absent, given,
        Bool.not_true, Bool.not_false, if_true, embeds] at expanded
      split at expanded
      · next items ids =>
        obtain ⟨entry, read, expanded⟩ := bind_eq_ok.mp expanded
        split at expanded
        · cases expanded
          exact .ofIds items (len_list ids len') noText ⟨ne_pyNone given, ids⟩ noText rfl rfl
        · cases expanded
      · cases expanded

theorem expanded_ofEmbeds (noText : r.text = .pyNone) (noIds : r.inputIds = .pyNone)
    (given : r.inputEmbeds.isNone = false) : Expanded single b n r r' := by
  have absent : r.text.isNone = true := isNone_iff.mpr noText
  have absentIds : r.inputIds.isNone = true := isNone_iff.mpr noIds
  have embeds : keptEmbeds r = r.inputEmbeds := by
    simp only [keptEmbeds, absent, absentIds, Bool.and_self, if_true]
  simp only [determineBatchSize, absent, absentIds, Bool.not_true, Bool.false_eq_true, if_false]
    at shape
  obtain ⟨entry, -, shape⟩ := bind_eq_ok.mp shape
  obtain ⟨first, -, shape⟩ := bind_eq_ok.mp shape
  split at shape
  · cases shape
    simp only [withPrompts, if_true, wrapInputs, embeds, expandInputs, noText, noIds,
      wrapGiven_given given] at expanded
    cases expanded
    exact .ofEmbeds [r.inputEmbeds] rfl noText noIds rfl rfl rfl
  · obtain ⟨size, len, done⟩ := bind_eq_ok.mp shape
    cases done
    simp only [withPrompts, Bool.false_eq_true, if_false, expandInputs, absent, absentIds, given,
      Bool.not_true, Bool.not_false, if_true, embeds] at expanded
    split at expanded
    · next items embeds =>
      cases expanded
      exact .ofEmbeds items (len_list embeds len) noText noIds noText noIds rfl
    · cases expanded

theorem expandInputs_expanded (valid : validateInputs r = .ok ()) : Expanded single b n r r' := by
  cases text : r.text.isNone with
  | false => exact expanded_ofText shape expanded text
  | true =>
    cases ids : r.inputIds.isNone with
    | false => exact expanded_ofIds shape expanded (isNone_iff.mp text) ids
    | true =>
      cases embeds : r.inputEmbeds.isNone with
      | false =>
        exact expanded_ofEmbeds shape expanded (isNone_iff.mp text) (isNone_iff.mp ids) embeds
      | true =>
        simp only [validateInputs, text, ids, embeds, Bool.and_self, Bool.true_or, if_true] at valid
        cases valid

end

theorem expandInputs_frame (expanded : expandInputs n r = .ok r') :
    ∃ text ids embeds, r' = { r with text := text, inputIds := ids, inputEmbeds := embeds } := by
  unfold expandInputs at expanded
  split at expanded
  · split at expanded
    · cases expanded
      exact ⟨_, _, _, rfl⟩
    · cases expanded
  · split at expanded
    · split at expanded
      · obtain ⟨first, -, expanded⟩ := bind_eq_ok.mp expanded
        split at expanded
        · cases expanded
          exact ⟨_, _, _, rfl⟩
        · cases expanded
      · cases expanded
    · split at expanded
      · split at expanded
        · cases expanded
          exact ⟨_, _, _, rfl⟩
        · cases expanded
      · cases expanded
        exact ⟨_, _, _, rfl⟩

theorem withPrompts_frame (single : Bool) (r : GenerateReqInput R) : ∃ text ids embeds,
      withPrompts single r = { r with text := text, inputIds := ids, inputEmbeds := embeds } := by
  cases single with
  | true => exact ⟨_, _, _, rfl⟩
  | false => exact ⟨_, _, _, rfl⟩

theorem expanded_frame (expanded : expandInputs n (withPrompts single r) = .ok r') :
    ∃ text ids embeds, r' = { r with text := text, inputIds := ids, inputEmbeds := embeds } := by
  obtain ⟨text, ids, embeds, rfl⟩ := expandInputs_frame expanded
  obtain ⟨text', ids', embeds', prompts⟩ := withPrompts_frame single r
  exact ⟨text, ids, embeds, by rw [prompts]⟩

structure ItemReads (single : Bool) (r : GenerateReqInput R) (obj : Normalized R) (i : Nat) :
    Prop where
  text : ∃ w, obj.text.readOptional i = .ok w ∧ OwnPrompt single r.text i w
  inputIds : ∃ w, obj.inputIds.readOptional i = .ok w ∧ OwnPrompt single r.inputIds i w
  inputEmbeds : ∃ w, obj.inputEmbeds.readOptional i = .ok w
  overrides : ∃ w, getPositionalEmbedOverridesItem obj.positionalEmbedOverrides i = .ok w
  imageData : ∃ w, obj.imageData.index i = .ok w ∧ OwnMedia single r.imageData i w
  videoData : ∃ w, obj.videoData.index i = .ok w ∧ OwnMedia single r.videoData i w
  audioData : ∃ w, obj.audioData.index i = .ok w ∧ OwnMedia single r.audioData i w
  samplingParams : ∃ w, obj.samplingParams.index i = .ok w ∧
    OwnValue (.dict []) r.samplingParams i w
  rid : ∃ w, getRid obj.rid i = .ok w
  returnLogprob : ∃ w, obj.returnLogprob.index i = .ok w
  logprobStartLen : ∃ w, obj.logprobStartLen.index i = .ok w
  topLogprobsNum : ∃ w, obj.topLogprobsNum.index i = .ok w
  tokenIdsLogprob : ∃ w, obj.tokenIdsLogprob.index i = .ok w
  returnHiddenStates : ∃ w, obj.returnHiddenStates.readListed i = .ok w
  modalities : ∃ w, getModality obj.modalities i = .ok w
  loraPath : ∃ w, obj.loraPath.readOptional i = .ok w ∧ OwnValue .pyNone r.loraPath i w
  loraId : ∃ w, obj.loraId.readOptional i = .ok w
  segments : ∃ w, obj.redknotOfflineSegments.readOptional i = .ok w ∧
    OwnSegments r.redknotOfflineSegments i w
  customLogitProcessor : ∃ w, obj.customLogitProcessor.readOptional i = .ok w
  bootstrapHost : ∃ w, obj.bootstrapHost.readOptional i = .ok w
  bootstrapPort : ∃ w, obj.bootstrapPort.readOptional i = .ok w
  bootstrapRoom : ∃ w, obj.bootstrapRoom.readOptional i = .ok w
  bootstrapPairKey : ∃ w, obj.bootstrapPairKey.readOptional i = .ok w
  decodeTpSize : ∃ w, obj.decodeTpSize.readOptional i = .ok w
  delimiters : ∃ w, obj.multiItemDelimiterIndices.readOptional i = .ok w

theorem getItem_carries_iff (single : Bool) (r : GenerateReqInput R) (obj : Normalized R) (i : Nat) :
    (∃ sub, obj.getItem i = .ok sub ∧ Carries single r i sub) ↔ ItemReads single r obj i := by
  constructor
  · rintro ⟨sub, read, carries⟩
    simp only [Normalized.getItem, bind_eq_ok] at read
    obtain ⟨text, textRead, ids, idsRead, embeds, embedsRead, overrides, overridesRead, image,
      imageRead, video, videoRead, audio, audioRead, sampling, samplingRead, rid, ridRead, logprob,
      logprobRead, start, startRead, top, topRead, tokens, tokensRead, hidden, hiddenRead, modality,
      modalityRead, lora, loraRead, loraId, loraIdRead, segments, segmentsRead, processor,
      processorRead, host, hostRead, port, portRead, room, roomRead, pair, pairRead, tp, tpRead,
      delimiters, delimitersRead, done⟩ := read
    cases done
    exact ⟨⟨text, textRead, carries.text⟩, ⟨ids, idsRead, carries.inputIds⟩, ⟨embeds, embedsRead⟩,
      ⟨overrides, overridesRead⟩, ⟨image, imageRead, carries.imageData⟩,
      ⟨video, videoRead, carries.videoData⟩, ⟨audio, audioRead, carries.audioData⟩,
      ⟨sampling, samplingRead, carries.samplingParams⟩, ⟨rid, ridRead⟩, ⟨logprob, logprobRead⟩,
      ⟨start, startRead⟩, ⟨top, topRead⟩, ⟨tokens, tokensRead⟩, ⟨hidden, hiddenRead⟩,
      ⟨modality, modalityRead⟩, ⟨lora, loraRead, carries.loraPath⟩, ⟨loraId, loraIdRead⟩,
      ⟨segments, segmentsRead, carries.segments⟩, ⟨processor, processorRead⟩, ⟨host, hostRead⟩,
      ⟨port, portRead⟩, ⟨room, roomRead⟩, ⟨pair, pairRead⟩, ⟨tp, tpRead⟩,
      ⟨delimiters, delimitersRead⟩⟩
  · rintro ⟨⟨text, textRead, textOwn⟩, ⟨ids, idsRead, idsOwn⟩, ⟨embeds, embedsRead⟩,
      ⟨overrides, overridesRead⟩, ⟨image, imageRead, imageOwn⟩, ⟨video, videoRead, videoOwn⟩,
      ⟨audio, audioRead, audioOwn⟩, ⟨sampling, samplingRead, samplingOwn⟩, ⟨rid, ridRead⟩,
      ⟨logprob, logprobRead⟩, ⟨start, startRead⟩, ⟨top, topRead⟩, ⟨tokens, tokensRead⟩,
      ⟨hidden, hiddenRead⟩, ⟨modality, modalityRead⟩, ⟨lora, loraRead, loraOwn⟩,
      ⟨loraId, loraIdRead⟩, ⟨segments, segmentsRead, segmentsOwn⟩, ⟨processor, processorRead⟩,
      ⟨host, hostRead⟩, ⟨port, portRead⟩, ⟨room, roomRead⟩, ⟨pair, pairRead⟩, ⟨tp, tpRead⟩,
      ⟨delimiters, delimitersRead⟩⟩
    simp only [Normalized.getItem, textRead, idsRead, embedsRead, overridesRead, imageRead, videoRead,
      audioRead, samplingRead, ridRead, logprobRead, startRead, topRead, tokensRead, hiddenRead,
      modalityRead, loraRead, loraIdRead, segmentsRead, processorRead, hostRead, portRead, roomRead,
      pairRead, tpRead, delimitersRead, ok_bind]
    exact ⟨_, rfl, textOwn, idsOwn, imageOwn, videoOwn, audioOwn, samplingOwn, loraOwn, segmentsOwn⟩

theorem le_num (samples : 1 ≤ n) : b ≤ (if n = 1 then (b : Int) else b * n).toNat := by
  split
  · omega
  · have grows : (b : Int) * 1 ≤ b * n := Int.mul_le_mul_of_nonneg_left samples (by omega)
    omega

theorem normalizeBatchInputs_reads {out : Normalized R} (valid : validateInputs r = .ok ())
    (shape : determineBatchSize r = .ok (single, b))
    (accepted : normalizeBatchInputs b n uuid (withPrompts single r) = .ok out) :
    (∀ i < b, ItemReads single r out i) ↔ b = 0 ∨ Aligned single b n r := by
  simp only [normalizeBatchInputs, bind_eq_ok] at accepted
  obtain ⟨r', inputs, rids, ridOk, lora, loraOk, segments, segmentsOk, image, imageOk, logprob,
    logprobOk, start, startOk, top, topOk, tokens, tokensOk, processor, processorOk, room, roomOk,
    done⟩ := accepted
  have expanded := expandInputs_expanded shape inputs valid
  obtain ⟨text, ids, embeds, rfl⟩ := expanded_frame inputs
  have one := determineBatchSize_one shape
  cases done
  suffices fields : 1 ≤ n → ((∀ i < b, ItemReads single r _ i) ↔ Aligned single b n r) by
    constructor
    · intro all
      rcases Nat.eq_zero_or_pos b with none_left | some_request
      · exact .inl none_left
      · have first := all 0 some_request
        obtain ⟨w, textRead, -⟩ := first.text
        obtain ⟨w', idsRead, -⟩ := first.inputIds
        exact .inr ((fields (expanded.samples_of_read ⟨w, textRead⟩ ⟨w', idsRead⟩
          first.inputEmbeds)).mp all)
    · rintro (rfl | aligned)
      · exact fun i small => absurd small i.not_lt_zero
      · exact (fields aligned.samples).mpr aligned
  intro samples
  have enough := le_num (b := b) samples
  have own := expanded.ids_own samples one
  have images := normalizeImageData_media samples enough one imageOk
  have media := expandArgument_media samples enough one
  have paths := normalizeLoraPaths_ownValue samples enough loraOk
  have covered := normalizeSegments_own samples enough segmentsOk
  have listed := normalizeTokenIdsLogprob_readable enough tokensOk
  have kinds := normalizeImageData_modalities samples enough imageOk
  have processors := normalizeCustomLogitProcessor_readable enough processorOk
  have rooms := normalizeBootstrapRoom_readable enough roomOk
  constructor
  · intro all
    exact {
    samples := samples
    inputIds := own.mp fun i small => (all i small).inputIds
    imageData := images.mp fun i small => (all i small).imageData
    videoData := (media _).mp fun i small => (all i small).videoData
    audioData := (media _).mp fun i small => (all i small).audioData
    samplingParams := (expandArgument_ownValue samples enough _ _).mp
      fun i small => (all i small).samplingParams
    loraPath := paths.mp fun i small => (all i small).loraPath
    segments := covered.mp fun i small => (all i small).segments
    returnLogprob := (normalizeParam_readable enough logprobOk).mp
      fun i small => (all i small).returnLogprob
    logprobStartLen := (normalizeParam_readable enough startOk).mp
      fun i small => (all i small).logprobStartLen
    topLogprobsNum := (normalizeParam_readable enough topOk).mp
      fun i small => (all i small).topLogprobsNum
    tokenIdsLogprob := listed.mp fun i small => (all i small).tokenIdsLogprob
    returnHiddenStates := readListed_readable.mp fun i small => (all i small).returnHiddenStates
    modalities := kinds.mp fun i small => (all i small).modalities
    loraId := fun i small => (all i small).loraId
    customLogitProcessor := processors.mp fun i small => (all i small).customLogitProcessor
    overrides := fun i small => (all i small).overrides
    bootstrapHost := (expandArgument_readable enough _ _).mp
      fun i small => (all i small).bootstrapHost
    bootstrapPort := (expandArgument_readable enough _ _).mp
      fun i small => (all i small).bootstrapPort
    bootstrapRoom := rooms.mp fun i small => (all i small).bootstrapRoom
    bootstrapPairKey := (expandArgument_readable enough _ _).mp
      fun i small => (all i small).bootstrapPairKey
    decodeTpSize := fun i small => (all i small).decodeTpSize
    delimiters := fun i small => (all i small).delimiters }
  · intro aligned i small
    exact {
    text := expanded.text_own samples one i small
    inputIds := own.mpr aligned.inputIds i small
    inputEmbeds := expanded.embeds_readable samples i small
    overrides := aligned.overrides i small
    imageData := images.mpr aligned.imageData i small
    videoData := (media _).mpr aligned.videoData i small
    audioData := (media _).mpr aligned.audioData i small
    samplingParams := (expandArgument_ownValue samples enough _ _).mpr
      aligned.samplingParams i small
    rid := normalizeRid_readable enough ridOk i small
    returnLogprob := (normalizeParam_readable enough logprobOk).mpr aligned.returnLogprob i small
    logprobStartLen := (normalizeParam_readable enough startOk).mpr aligned.logprobStartLen i small
    topLogprobsNum := (normalizeParam_readable enough topOk).mpr aligned.topLogprobsNum i small
    tokenIdsLogprob := listed.mpr aligned.tokenIdsLogprob i small
    returnHiddenStates := readListed_readable.mpr aligned.returnHiddenStates i small
    modalities := kinds.mpr aligned.modalities i small
    loraPath := paths.mpr aligned.loraPath i small
    loraId := aligned.loraId i small
    segments := covered.mpr aligned.segments i small
    customLogitProcessor := processors.mpr aligned.customLogitProcessor i small
    bootstrapHost := (expandArgument_readable enough _ _).mpr aligned.bootstrapHost i small
    bootstrapPort := (expandArgument_readable enough _ _).mpr aligned.bootstrapPort i small
    bootstrapRoom := rooms.mpr aligned.bootstrapRoom i small
    bootstrapPairKey := (expandArgument_readable enough _ _).mpr aligned.bootstrapPairKey i small
    decodeTpSize := aligned.decodeTpSize i small
    delimiters := aligned.delimiters i small }

section Renamed

variable {x y : PyVal}

theorem aligned_renamed : Aligned single b n { r with routedDpRank := x, dataParallelRank := y } ↔
    Aligned single b n r := by
  constructor
  · intro aligned
    cases aligned
    constructor <;> assumption
  · intro aligned
    cases aligned
    constructor <;> assumption

theorem carries_renamed {i : Nat} {sub : GenerateReqInput R} :
    Carries single { r with routedDpRank := x, dataParallelRank := y } i sub ↔
      Carries single r i sub := by
  constructor
  · intro carries
    cases carries
    constructor <;> assumption
  · intro carries
    cases carries
    constructor <;> assumption

theorem renameDataParallelRank_frame (r : GenerateReqInput R) :
    ∃ x y, renameDataParallelRank r = { r with routedDpRank := x, dataParallelRank := y } := by
  unfold renameDataParallelRank
  split
  · exact ⟨_, _, rfl⟩
  · exact ⟨_, _, rfl⟩

end Renamed

/-- Every request of an accepted batch can be read and carries its own inputs exactly when the
arguments of the call are aligned. -/
theorem batch_carries_inputs_iff (uuid : Nat → String) (r : GenerateReqInput R)
    (out : Normalized R) (accepted : normalizeBatchAndArguments uuid r = .ok out)
    (shape : determineBatchSize r = .ok (single, b))
    (sampled : parallelSampleNum r.samplingParams = .ok n) (batch : single = false ∨ 1 < n) :
    out.batchSize = b ∧
      ((∀ i < out.batchSize, ∃ sub, out.getItem i = .ok sub ∧ Carries single r i sub) ↔
        b = 0 ∨ Aligned single b n r) := by
  unfold normalizeBatchAndArguments at accepted
  obtain ⟨x, y, renamed⟩ := renameDataParallelRank_frame r
  rw [renamed] at accepted
  obtain ⟨⟨⟩, valid, accepted⟩ := bind_eq_ok.mp accepted
  obtain ⟨⟨single', b'⟩, shape', accepted⟩ := bind_eq_ok.mp accepted
  cases shape.symm.trans shape'
  obtain ⟨n', sampled', accepted⟩ := bind_eq_ok.mp accepted
  cases sampled.symm.trans sampled'
  obtain ⟨out', normalized, accepted⟩ := bind_eq_ok.mp accepted
  obtain ⟨⟨⟩, -, done⟩ := bind_eq_ok.mp accepted
  cases done
  have prompts : normalizeBatchInputs b n uuid
      (withPrompts single { r with routedDpRank := x, dataParallelRank := y }) = .ok out := by
    cases single with
    | true =>
      have several : 1 < n := batch.resolve_left Bool.noConfusion
      simp only [normalizeInputs, if_true, several] at normalized
      exact normalized
    | false => exact normalized
  have size : out.batchSize = b := by
    simp only [normalizeBatchInputs, bind_eq_ok] at prompts
    obtain ⟨_, _, _, _, _, _, _, _, _, _, _, _, _, _, _, _, _, _, _, _, _, _, done⟩ := prompts
    cases done
    rfl
  refine ⟨size, ?_⟩
  rw [size, ← aligned_renamed (x := x) (y := y), ← normalizeBatchInputs_reads valid shape' prompts]
  simp only [← getItem_carries_iff, carries_renamed]

def videoCall (text videos sampling : PyVal) (rids : List String) : GenerateReqInput Unit where
  rid := .many rids
  text := text
  inputIds := .pyNone
  inputEmbeds := .pyNone
  imageData := .pyNone
  videoData := videos
  audioData := .pyNone
  samplingParams := sampling
  returnLogprob := .pyNone
  logprobStartLen := .pyNone
  topLogprobsNum := .pyNone
  tokenIdsLogprob := .pyNone
  returnHiddenStates := .bool false
  modalities := .pyNone
  loraPath := .pyNone
  loraId := .pyNone
  redknotOfflineSegments := .pyNone
  customLogitProcessor := .pyNone
  positionalEmbedOverrides := .pyNone
  bootstrapHost := .pyNone
  bootstrapPort := .pyNone
  bootstrapRoom := .pyNone
  bootstrapPairKey := .pyNone
  decodeTpSize := .pyNone
  multiItemDelimiterIndices := .pyNone
  routedDpRank := .pyNone
  dataParallelRank := .pyNone
  passed := ()

def twoVideos : GenerateReqInput Unit :=
  videoCall (.list [.str "p", .str "q"]) (.list [.str "v", .str "w"]) .pyNone ["0", "1"]

theorem two_prompts_carry_videos : ∃ out, normalizeBatchAndArguments toString twoVideos = .ok out ∧
      ∀ i < out.batchSize, ∃ sub, out.getItem i = .ok sub ∧ Carries false twoVideos i sub := by
  refine ⟨_, rfl, (batch_carries_inputs_iff (b := 2) (n := 1) toString twoVideos _ rfl rfl rfl
    (.inl rfl)).2.mpr (.inr ?_)⟩
  constructor
  case samples => decide
  case modalities => exact .inr (.inl rfl)
  case inputIds => exact .inr fun i _ => ⟨_, rfl⟩
  case loraId | overrides | decodeTpSize | delimiters => exact fun i _ => ⟨_, rfl⟩
  case videoData => exact le_refl 2
  all_goals exact trivial

def sampledVideos : GenerateReqInput Unit :=
  videoCall (.str "p") (.list [.str "v", .str "w"]) (.dict [("n", .int 2)]) ["0"]

/-- The prompt keeps its first video only. -/
theorem single_prompt_loses_video :
    ∃ out sub, normalizeBatchAndArguments toString sampledVideos = .ok out ∧
      out.batchSize = 1 ∧ out.getItem 0 = .ok sub ∧ sub.videoData = .str "v" ∧
      ¬ Carries true sampledVideos 0 sub := by
  refine ⟨_, _, rfl, rfl, rfl, rfl, fun carries => ?_⟩
  have videos := congrArg List.length carries.videoData
  cases videos

end RedKnot.GenerateReq
