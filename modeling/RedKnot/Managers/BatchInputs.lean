import RedKnot.Managers.GenerateReq

/-! What `obj[i]` carries. Each argument is expanded by a rule of its own. -/

namespace RedKnot.GenerateReq

open Bool (false_eq_true)
open PyVal List

variable {R : Type}

def PyVal.media : PyVal → List PyVal
  | .pyNone => []
  | .list items => items.filter fun item => !item.isNone
  | v => [v]

def OwnPrompt (single : Bool) (given : PyVal) (i : Nat) (w : PyVal) : Prop :=
  match given with
  | .pyNone => w = .pyNone
  | v => if single then w = v else v.index i = .ok w

/-- The value of request `i`, where `default` stands for a missing argument. -/
def OwnValue (default given : PyVal) (i : Nat) (w : PyVal) : Prop :=
  match given with
  | .pyNone => w = default
  | .list items => items[i]? = some w
  | v => w = v

/-- The media of request `i`. With a single prompt all of them are its own, and an empty list brings
none. -/
def OwnMedia (single : Bool) (given : PyVal) (i : Nat) (w : PyVal) : Prop :=
  match given with
  | .pyNone => w.media = []
  | .list items =>
    if single then w.media = items.flatMap media
    else (items = [] ∧ w.media = []) ∨ ∃ own, items[i]? = some own ∧ w.media = own.media
  | v => w.media = [v]

def OwnSegments (given : PyVal) (i : Nat) (w : PyVal) : Prop :=
  match given with
  | .pyNone => w = .pyNone
  | .list items => if isFlatSegments items then w = .list items else items[i]? = some w
  | _ => False

structure Carries (single : Bool) (r : GenerateReqInput R) (i : Nat) (sub : GenerateReqInput R) :
    Prop where
  text : OwnPrompt single r.text i sub.text
  inputIds : OwnPrompt single r.inputIds i sub.inputIds
  imageData : OwnMedia single r.imageData i sub.imageData
  videoData : OwnMedia single r.videoData i sub.videoData
  audioData : OwnMedia single r.audioData i sub.audioData
  samplingParams : OwnValue (.dict []) r.samplingParams i sub.samplingParams
  loraPath : OwnValue .pyNone r.loraPath i sub.loraPath
  segments : OwnSegments r.redknotOfflineSegments i sub.redknotOfflineSegments

def Covers (b : Nat) : PyVal → Prop
  | .list items => b ≤ items.length
  | _ => True

def CoversRepeated (b : Nat) (n : Int) : PyVal → Prop
  | .list items => b ≤ items.length * n.toNat
  | _ => True

def CoversNested (b : Nat) : PyVal → Prop
  | .list (first :: rest) => first.isList = true → b ≤ (first :: rest).length
  | _ => True

def SegmentsCover (b : Nat) : PyVal → Prop
  | .list items => isFlatSegments items = true ∨ b ≤ items.length
  | _ => True

def ImagesAlike : PyVal → Prop
  | .list (first :: rest) => first.isList = true ∨ ∀ image ∈ first :: rest, image.isList = false
  | _ => True

def someImages : PyVal → Bool
  | .pyNone => false
  | .list [] => false
  | _ => true

def MediaCover (single : Bool) (b : Nat) : PyVal → Prop
  | .list items =>
    if single then items ≠ [] ∧ items.tail.flatMap media = [] else b ≤ items.length
  | _ => True

def Readable (b : Nat) (read : Nat → Except PyError PyVal) : Prop :=
  ∀ i < b, ∃ w, read i = .ok w

structure Aligned (single : Bool) (b : Nat) (n : Int) (r : GenerateReqInput R) : Prop where
  samples : 1 ≤ n
  inputIds : single = true ∨ Readable b r.inputIds.readOptional
  imageData : ImagesAlike r.imageData
  videoData : MediaCover single b r.videoData
  audioData : MediaCover single b r.audioData
  samplingParams : Covers b r.samplingParams
  loraPath : Covers b r.loraPath
  segments : SegmentsCover b r.redknotOfflineSegments
  returnLogprob : Covers b r.returnLogprob
  logprobStartLen : Covers b r.logprobStartLen
  topLogprobsNum : Covers b r.topLogprobsNum
  tokenIdsLogprob : CoversNested b r.tokenIdsLogprob
  returnHiddenStates : Covers b r.returnHiddenStates
  modalities : someImages r.imageData = true ∨ r.modalities.truthy = false ∨
    Readable b r.modalities.index
  loraId : Readable b r.loraId.readOptional
  customLogitProcessor : Covers b r.customLogitProcessor
  overrides : Readable b (getPositionalEmbedOverridesItem r.positionalEmbedOverrides)
  bootstrapHost : CoversRepeated b n r.bootstrapHost
  bootstrapPort : CoversRepeated b n r.bootstrapPort
  bootstrapRoom : CoversRepeated b n r.bootstrapRoom
  bootstrapPairKey : CoversRepeated b n r.bootstrapPairKey
  decodeTpSize : Readable b r.decodeTpSize.readOptional
  delimiters : Readable b r.multiItemDelimiterIndices.readOptional

section Fields

variable {b : Nat} {n num : Int} {i : Nat} {v out : PyVal} {items : List PyVal}

theorem repeated_index (small : i < num.toNat) (v : PyVal) : (v.repeated num).index i = .ok v := by
  apply pyGet_eq
  rw [getElem?_replicate, if_pos small]

theorem length_times (items : List PyVal) (n : Int) :
    (replicate n.toNat items).flatten.length = items.length * n.toNat := by
  simp [mul_comm]

theorem times_index (samples : 1 ≤ n) {w : PyVal} (there : items[i]? = some w) :
    (times items n).index i = .ok w := by
  apply pyGet_eq
  obtain ⟨k, counted⟩ : ∃ k, n.toNat = k + 1 := ⟨n.toNat - 1, by omega⟩
  have inside := (List.getElem?_eq_some_iff.mp there).1
  rw [counted, replicate_succ, flatten_cons, getElem?_append_left inside, there]

theorem le_length_iff {α : Type} {items : List α} :
    (∀ i < b, ∃ w, items[i]? = some w) ↔ b ≤ items.length := by
  constructor
  · intro all
    by_contra short
    obtain ⟨w, there⟩ := all items.length (by omega)
    rw [getElem?_eq_none (le_refl _)] at there
    cases there
  · intro enough i small
    exact ⟨_, getElem?_eq_getElem (lt_of_lt_of_le small enough)⟩

theorem list_readable : (∀ i < b, ∃ w, (PyVal.list items).index i = .ok w) ↔ b ≤ items.length := by
  rw [← le_length_iff]
  simp only [index, pyGet_ok_iff]

theorem times_readable : (∀ i < b, ∃ w, (times items n).index i = .ok w) ↔
    b ≤ items.length * n.toNat := by
  rw [← length_times]
  exact list_readable

theorem expandArgument_ownValue (samples : 1 ≤ n) (enough : b ≤ num.toNat) (default v : PyVal) :
    (∀ i < b, ∃ w, (expandArgument n num default v).index i = .ok w ∧ OwnValue default v i w) ↔
      Covers b v := by
  cases v with
  | list items =>
    simp only [expandArgument, OwnValue, Covers]
    rw [← le_length_iff]
    constructor
    · intro all i small
      obtain ⟨w, -, own⟩ := all i small
      exact ⟨w, own⟩
    · intro all i small
      obtain ⟨w, there⟩ := all i small
      exact ⟨w, times_index samples there, there⟩
  | _ =>
    simp only [Covers, iff_true]
    intro i small
    exact ⟨_, repeated_index (by omega) _, rfl⟩

theorem expandArgument_readable (enough : b ≤ num.toNat) (default v : PyVal) :
    (∀ i < b, ∃ w, (expandArgument n num default v).readOptional i = .ok w) ↔
      CoversRepeated b n v := by
  cases v with
  | list items => exact times_readable
  | _ =>
    simp only [CoversRepeated, iff_true]
    intro i small
    exact ⟨_, repeated_index (by omega) _⟩

theorem normalizeLoraPaths_ownValue (samples : 1 ≤ n) (enough : b ≤ num.toNat)
    (accepted : normalizeLoraPaths n num v = .ok out) :
    (∀ i < b, ∃ w, out.readOptional i = .ok w ∧ OwnValue .pyNone v i w) ↔ Covers b v := by
  cases v with
  | pyNone =>
    cases accepted
    simp only [Covers, iff_true]
    exact fun i small => ⟨.pyNone, rfl, rfl⟩
  | str s =>
    cases accepted
    exact expandArgument_ownValue samples enough .pyNone (.str s)
  | list items =>
    cases accepted
    exact expandArgument_ownValue samples enough .pyNone (.list items)
  | _ => cases accepted

theorem normalizeSegments_own (samples : 1 ≤ n) (enough : b ≤ num.toNat)
    (accepted : normalizeRedknotOfflineSegments n num v = .ok out) :
    (∀ i < b, ∃ w, out.readOptional i = .ok w ∧ OwnSegments v i w) ↔ SegmentsCover b v := by
  cases v with
  | pyNone =>
    cases accepted
    simp only [SegmentsCover, iff_true]
    exact fun i small => ⟨_, repeated_index (by omega) _, rfl⟩
  | list items =>
    simp only [normalizeRedknotOfflineSegments] at accepted
    simp only [OwnSegments, SegmentsCover]
    cases flat : isFlatSegments items with
    | true =>
      rw [flat] at accepted
      cases accepted
      simp only [if_true, true_or, iff_true]
      exact fun i small => ⟨_, repeated_index (by omega) _, rfl⟩
    | false =>
      rw [flat] at accepted
      cases accepted
      simp only [false_eq_true, if_false, false_or]
      exact expandArgument_ownValue (b := b) samples enough .pyNone (.list items)
  | _ => cases accepted

theorem normalizeParam_readable {default : PyVal} {name : String} (enough : b ≤ num.toNat)
    (accepted : normalizeParam n num default name v = .ok out) :
    (∀ i < b, ∃ w, out.index i = .ok w) ↔ Covers b v := by
  cases v with
  | list items =>
    simp only [normalizeParam] at accepted
    split at accepted
    · cases accepted
    · cases accepted
      exact list_readable
  | _ =>
    cases accepted
    simp only [Covers, iff_true]
    exact fun i small => ⟨_, repeated_index (by omega) _⟩

section

variable (enough : b ≤ num.toNat)
include enough

theorem normalizeTokenIdsLogprob_readable (accepted : normalizeTokenIdsLogprob n num v = .ok out) :
    (∀ i < b, ∃ w, out.index i = .ok w) ↔ CoversNested b v := by
  have always : ∀ v, ∀ i < b, ∃ w, (PyVal.repeated v num).index i = .ok w :=
    fun v i small => ⟨v, repeated_index (by omega) v⟩
  unfold normalizeTokenIdsLogprob at accepted
  split at accepted
  · next falsy =>
    cases accepted
    cases v with
    | list items =>
      cases items with
      | nil => exact ⟨fun _ => trivial, fun _ => always _⟩
      | cons first rest => simp [truthy] at falsy
    | _ => exact ⟨fun _ => trivial, fun _ => always _⟩
  · cases v with
    | list items =>
      cases items with
      | nil =>
        cases accepted
        exact ⟨fun _ => trivial, fun _ => always _⟩
      | cons first rest =>
        simp only [CoversNested]
        cases nested : first.isList with
        | false =>
          simp only [nested, Bool.not_false, if_true] at accepted
          cases accepted
          exact ⟨fun _ => by simp, fun _ => always _⟩
        | true =>
          simp only [nested, Bool.not_true, false_eq_true, if_false] at accepted
          split at accepted
          · cases accepted
          · cases accepted
            simp only [forall_const]
            exact list_readable
    | _ =>
      cases accepted
      exact ⟨fun _ => trivial, fun _ => always _⟩

theorem normalizeBootstrapRoom_readable (accepted : normalizeBootstrapRoom n num v = .ok out) :
    (∀ i < b, ∃ w, out.readOptional i = .ok w) ↔ CoversRepeated b n v := by
  cases v with
  | pyNone =>
    cases accepted
    exact ⟨fun _ => trivial, fun _ i small => ⟨_, repeated_index (by omega) _⟩⟩
  | list items =>
    cases accepted
    exact times_readable
  | _ =>
    obtain ⟨rooms, added, done⟩ := bind_eq_ok.mp accepted
    cases done
    refine ⟨fun _ => trivial, fun _ => list_readable.mpr ?_⟩
    rw [(mapM_range_ok added).1]
    exact enough

theorem normalizeCustomLogitProcessor_readable
    (accepted : normalizeCustomLogitProcessor n num v = .ok out) :
    (∀ i < b, ∃ w, out.readOptional i = .ok w) ↔ Covers b v := by
  have read := normalizeParam_readable enough accepted
  cases out with
  | pyNone =>
    -- the result is always a list
    cases v with
    | list items =>
      simp only [normalizeCustomLogitProcessor, normalizeParam] at accepted
      split at accepted <;> cases accepted
    | _ => cases accepted
  | _ => exact read

end

theorem readListed_readable : (∀ i < b, ∃ w, v.readListed i = .ok w) ↔ Covers b v := by
  cases v with
  | list items => exact list_readable
  | _ => exact ⟨fun _ => trivial, fun _ i _ => ⟨_, rfl⟩⟩

theorem expandArgument_media {single : Bool} (samples : 1 ≤ n) (enough : b ≤ num.toNat)
    (one : single = true → b = 1) (v : PyVal) :
    (∀ i < b, ∃ w, (expandArgument n num .pyNone v).index i = .ok w ∧ OwnMedia single v i w) ↔
      MediaCover single b v := by
  cases v with
  | list items =>
    simp only [expandArgument, OwnMedia, MediaCover]
    cases items with
    | nil =>
      have unread : ∀ i w, ¬ (times [] n).index i = .ok w := by
        intro i w read
        have there := pyGet_ok_iff.mp read
        simp at there
      cases single with
      | true =>
        simp only [one rfl, ne_eq, not_true_eq_false, false_and, if_true, iff_false]
        intro all
        obtain ⟨w, read, -⟩ := all 0 one_pos
        exact unread 0 w read
      | false =>
        simp only [false_eq_true, if_false, length_nil]
        constructor
        · intro all
          by_contra some_request
          obtain ⟨w, read, -⟩ := all 0 (by omega)
          exact unread 0 w read
        · intro none_left i small
          omega
    | cons first rest =>
      cases single with
      | true =>
        have read : (times (first :: rest) n).index 0 = .ok first := times_index samples rfl
        simp only [one rfl, Nat.lt_one_iff, forall_eq, read, Except.ok.injEq, if_true,
          exists_eq_left', flatMap_cons, ne_eq, reduceCtorEq, not_false_eq_true, true_and,
          tail_cons]
        exact self_eq_append_right
      | false =>
        simp only [false_eq_true, if_false, reduceCtorEq, false_and, false_or]
        rw [← le_length_iff]
        constructor
        · intro all i small
          obtain ⟨w, -, own, there, -⟩ := all i small
          exact ⟨own, there⟩
        · intro all i small
          obtain ⟨own, there⟩ := all i small
          exact ⟨own, times_index samples there, own, there, rfl⟩
  | _ =>
    simp only [MediaCover, iff_true]
    exact fun i small => ⟨_, repeated_index (by omega) _, rfl⟩

theorem media_wrapped (image : PyVal) :
    (PyVal.list [image]).media = image.media ↔ image.isList = false := by
  cases image with
  | list items =>
    simp only [media, isList, isNone, Bool.not_false, filter_cons_of_pos, filter_nil,
      Bool.true_eq_false, iff_false]
    intro same
    have member : PyVal.list items ∈ items :=
      mem_of_mem_filter (same ▸ mem_singleton_self _)
    have smaller := sizeOf_lt_of_mem member
    simp at smaller
  | _ => simp [media, isList, isNone]

theorem ownMedia_entry {single : Bool} {own w : PyVal} (length : items.length = b)
    (one : single = true → b = 1) (small : i < b) (there : items[i]? = some own) :
    OwnMedia single (.list items) i w ↔ w.media = own.media := by
  cases single with
  | true =>
    have alone := one rfl
    obtain ⟨entry, rfl⟩ := length_eq_one_iff.mp (length.trans alone)
    obtain rfl : i = 0 := by omega
    cases there
    simp only [OwnMedia, if_true, flatMap_singleton]
  | false =>
    have some_entry : items ≠ [] := by
      rintro rfl
      cases there
    simp only [OwnMedia, false_eq_true, if_false, some_entry, false_and, false_or, there,
      Option.some.injEq, exists_eq_left']

theorem normalizeImageData_media {single : Bool} {modalities : PyVal} {result : PyVal × PyVal}
    (samples : 1 ≤ n) (enough : b ≤ num.toNat) (one : single = true → b = 1)
    (accepted : normalizeImageData b n num modalities v = .ok result) :
    (∀ i < b, ∃ w, result.1.index i = .ok w ∧ OwnMedia single v i w) ↔ ImagesAlike v := by
  cases v with
  | list items =>
    cases items with
    | nil =>
      cases accepted
      refine ⟨fun _ => trivial, fun _ i small => ⟨_, repeated_index (by omega) _, ?_⟩⟩
      cases single with
      | true => rfl
      | false => exact .inl ⟨rfl, rfl⟩
    | cons first rest =>
      simp only [normalizeImageData] at accepted
      split at accepted
      · cases accepted
      · next same =>
        have length : (first :: rest).length = b := by simpa using same
        have own : ∀ i, ∀ small : i < b, ∃ image, (first :: rest)[i]? = some image :=
          fun i small => ⟨_, getElem?_eq_getElem (length.symm ▸ small)⟩
        simp only [ImagesAlike]
        cases nested : first.isList with
        | true =>
          simp only [nested, if_true] at accepted
          obtain ⟨kinds, -, done⟩ := bind_eq_ok.mp accepted
          cases done
          refine ⟨fun _ => .inl rfl, fun _ i small => ?_⟩
          obtain ⟨image, there⟩ := own i small
          exact ⟨image, times_index samples there, (ownMedia_entry length one small there).mpr rfl⟩
        | false =>
          simp only [nested, false_eq_true, if_false] at accepted
          cases accepted
          simp only [false_eq_true, false_or]
          have read : ∀ i image, (first :: rest)[i]? = some image →
              (times ((first :: rest).map fun img => .list [img]) n).index i =
                .ok (.list [image]) := by
            intro i image there
            apply times_index samples
            rw [getElem?_map, there]
            rfl
          constructor
          · intro all image member
            obtain ⟨i, inside, rfl⟩ := mem_iff_getElem.mp member
            obtain ⟨w, reads, media⟩ := all i (length ▸ inside)
            rw [read i _ (getElem?_eq_getElem inside)] at reads
            cases reads
            exact (media_wrapped _).mp ((ownMedia_entry length one (length ▸ inside)
              (getElem?_eq_getElem inside)).mp media)
          · intro alike i small
            obtain ⟨image, there⟩ := own i small
            refine ⟨_, read i image there, (ownMedia_entry length one small there).mpr ?_⟩
            exact (media_wrapped image).mpr (alike image (mem_of_getElem? there))
  | _ =>
    cases accepted
    exact ⟨fun _ => trivial, fun _ i small => ⟨_, repeated_index (by omega) _, rfl⟩⟩

theorem getModality_repeated (small : i < num.toNat) (v : PyVal) :
    ∃ w, getModality (v.repeated num) i = .ok w := by
  refine ⟨v, ?_⟩
  have some_entry : (v.repeated num).truthy = true := by
    simp only [repeated, truthy, length_replicate, decide_eq_true_eq]
    omega
  rw [getModality, if_pos some_entry, repeated_index small]

theorem normalizeImageData_modalities {modalities : PyVal} {result : PyVal × PyVal}
    (samples : 1 ≤ n) (enough : b ≤ num.toNat)
    (accepted : normalizeImageData b n num modalities v = .ok result) :
    (∀ i < b, ∃ w, getModality result.2 i = .ok w) ↔
      someImages v = true ∨ modalities.truthy = false ∨ Readable b modalities.index := by
  have given : (∀ i < b, ∃ w, getModality modalities i = .ok w) ↔
      modalities.truthy = false ∨ Readable b modalities.index := by
    cases present : modalities.truthy with
    | false => simp [getModality, present]
    | true => simp [getModality, present, Readable]
  cases v with
  | pyNone =>
    cases accepted
    simpa [someImages] using given
  | list items =>
    cases items with
    | nil =>
      cases accepted
      simpa [someImages] using given
    | cons first rest =>
      refine ⟨fun _ => .inl rfl, fun _ i small => ?_⟩
      simp only [normalizeImageData] at accepted
      split at accepted
      · cases accepted
      · next same =>
        cases nested : first.isList with
        | true =>
          simp only [nested, if_true] at accepted
          obtain ⟨kinds, read, done⟩ := bind_eq_ok.mp accepted
          cases done
          have inside : i < kinds.length := by
            rw [(mapM_ok read).1]
            omega
          have there := getElem?_eq_getElem inside
          have some_entry : (times kinds n).truthy = true := by
            have positive : 0 < kinds.length * n.toNat := Nat.mul_pos (by omega) (by omega)
            simp only [times, truthy, length_times, decide_eq_true_eq]
            omega
          refine ⟨kinds[i], ?_⟩
          rw [getModality, if_pos some_entry, times_index samples there]
        | false =>
          simp only [nested, false_eq_true, if_false] at accepted
          cases accepted
          exact getModality_repeated (by omega) _
  | _ =>
    cases accepted
    exact ⟨fun _ => .inl rfl, fun _ i small => getModality_repeated (by omega) _⟩

theorem normalizeRid_readable {uuid : Nat → String} {rid : Rid} {rids : List String}
    (enough : b ≤ num.toNat) (accepted : normalizeRid b num uuid rid = .ok rids) :
    ∀ i < b, ∃ w, getRid (.many rids) i = .ok w := by
  have length : b ≤ rids.length := by
    cases rid with
    | pyNone | one rid =>
      cases accepted
      simpa using enough
    | many given =>
      simp only [normalizeRid] at accepted
      split at accepted
      · cases accepted
      · next same =>
        cases accepted
        omega
    | other => cases accepted
  intro i small
  have there := getElem?_eq_getElem (lt_of_lt_of_le small length)
  refine ⟨.one rids[i], ?_⟩
  simp only [getRid, pyGet_eq there, ok_bind]

end Fields

section Prompts

variable {single : Bool} {b : Nat} {n : Int} {r r' : GenerateReqInput R} {v : PyVal}
  {items : List PyVal}

def IsPrompts (single : Bool) (v : PyVal) (items : List PyVal) : Prop :=
  v ≠ .pyNone ∧ if single then items = [v] else v = .list items

/-- What `_expand_inputs` makes of the three inputs; the first that is given holds the prompts. -/
inductive Expanded (single : Bool) (b : Nat) (n : Int) (r r' : GenerateReqInput R) : Prop where
  | ofText (items : List PyVal) (length : items.length = b) (given : IsPrompts single r.text items)
      (text : r'.text = times items n)
      (ids : r'.inputIds = if single then wrapGiven r.inputIds else r.inputIds)
      (embeds : r'.inputEmbeds = .pyNone)
  | ofIds (items : List PyVal) (length : items.length = b) (noText : r.text = .pyNone)
      (given : IsPrompts single r.inputIds items) (text : r'.text = .pyNone)
      (ids : r'.inputIds = times items n) (embeds : r'.inputEmbeds = .pyNone)
  | ofEmbeds (items : List PyVal) (length : items.length = b) (noText : r.text = .pyNone)
      (noIds : r.inputIds = .pyNone) (text : r'.text = .pyNone) (ids : r'.inputIds = .pyNone)
      (embeds : r'.inputEmbeds = times items n)

theorem isNone_iff : v.isNone = true ↔ v = .pyNone := by
  cases v <;> simp [isNone]

theorem times_own (samples : 1 ≤ n) (length : items.length = b) (one : single = true → b = 1)
    (given : IsPrompts single v items) :
    ∀ i < b, ∃ w, (times items n).readOptional i = .ok w ∧ OwnPrompt single v i w := by
  intro i small
  obtain ⟨some_prompt, prompts⟩ := given
  have there := getElem?_eq_getElem (length.symm ▸ small)
  refine ⟨items[i], times_index samples there, ?_⟩
  cases single with
  | true =>
    obtain rfl : items = [v] := prompts
    obtain rfl : i = 0 := by
      have := one rfl
      omega
    cases v with
    | pyNone => exact absurd rfl some_prompt
    | _ => rfl
  | false =>
    obtain rfl : v = .list items := prompts
    exact pyGet_eq there

theorem Expanded.text_own (expanded : Expanded single b n r r') (samples : 1 ≤ n)
    (one : single = true → b = 1) :
    ∀ i < b, ∃ w, r'.text.readOptional i = .ok w ∧ OwnPrompt single r.text i w := by
  cases expanded with
  | ofText items length given text _ _ =>
    rw [text]
    exact times_own samples length one given
  | ofIds _ _ noText _ text _ _ | ofEmbeds _ _ noText _ text _ _ =>
    rw [text, noText]
    exact fun i _ => ⟨.pyNone, rfl, rfl⟩

theorem readOptional_own (v : PyVal) :
    (∀ i < b, ∃ w, v.readOptional i = .ok w ∧ OwnPrompt false v i w) ↔
      Readable b v.readOptional := by
  constructor
  · intro all i small
    obtain ⟨w, read, -⟩ := all i small
    exact ⟨w, read⟩
  · intro all i small
    obtain ⟨w, read⟩ := all i small
    refine ⟨w, read, ?_⟩
    cases v with
    | pyNone =>
      cases read
      rfl
    | _ => exact read

section

variable (expanded : Expanded single b n r r')
include expanded

theorem Expanded.ids_own (samples : 1 ≤ n) (one : single = true → b = 1) :
    (∀ i < b, ∃ w, r'.inputIds.readOptional i = .ok w ∧ OwnPrompt single r.inputIds i w) ↔
      single = true ∨ Readable b r.inputIds.readOptional := by
  cases expanded with
  | ofText _ _ _ _ ids _ =>
    cases single with
    | true =>
      rw [ids, if_pos rfl, one rfl]
      refine ⟨fun _ => .inl rfl, fun _ i small => ?_⟩
      obtain rfl : i = 0 := by omega
      cases r.inputIds with
      | pyNone => exact ⟨.pyNone, rfl, rfl⟩
      | _ => exact ⟨_, rfl, rfl⟩
    | false =>
      rw [ids, if_neg Bool.false_ne_true]
      simp only [false_eq_true, false_or]
      exact readOptional_own _
  | ofIds items length _ given _ ids _ =>
    have own := times_own samples length one given
    rw [ids]
    refine ⟨fun _ => ?_, fun _ => own⟩
    cases single with
    | true => exact .inl rfl
    | false =>
      obtain ⟨-, prompts⟩ := given
      right
      rw [show r.inputIds = .list items from prompts]
      exact list_readable.mpr (Nat.le_of_eq length.symm)
  | ofEmbeds _ _ _ noIds _ ids _ =>
    rw [ids, noIds]
    exact ⟨fun _ => .inr fun i _ => ⟨.pyNone, rfl⟩, fun _ i _ => ⟨.pyNone, rfl, rfl⟩⟩

theorem Expanded.embeds_readable (samples : 1 ≤ n) :
    ∀ i < b, ∃ w, r'.inputEmbeds.readOptional i = .ok w := by
  cases expanded with
  | ofText _ _ _ _ _ embeds | ofIds _ _ _ _ _ _ embeds =>
    rw [embeds]
    exact fun i _ => ⟨.pyNone, rfl⟩
  | ofEmbeds items length _ _ _ _ embeds =>
    rw [embeds]
    apply times_readable.mpr
    rw [length]
    exact Nat.le_mul_of_pos_right b (by omega)

theorem Expanded.samples_of_read {i : Nat}
    (text : ∃ w, r'.text.readOptional i = .ok w) (ids : ∃ w, r'.inputIds.readOptional i = .ok w)
    (embeds : ∃ w, r'.inputEmbeds.readOptional i = .ok w) : 1 ≤ n := by
  have read : ∀ items : List PyVal, (∃ w, (times items n).readOptional i = .ok w) → 1 ≤ n := by
    rintro items ⟨w, read⟩
    by_contra none_left
    have empty : n.toNat = 0 := by omega
    have there := pyGet_ok_iff.mp read
    rw [empty] at there
    cases there
  cases expanded with
  | ofText items _ _ same _ _ => exact read items (same ▸ text)
  | ofIds items _ _ _ _ same _ => exact read items (same ▸ ids)
  | ofEmbeds items _ _ _ _ _ same => exact read items (same ▸ embeds)

end

end Prompts

end RedKnot.GenerateReq
