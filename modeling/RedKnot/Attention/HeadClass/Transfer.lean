import RedKnot.Attention.HeadClass.MaskPlan
import RedKnot.Attention.HeadClass.Visible

/-! KV transfer between prefill and decode (`redknot/pd_transfer.py`). -/

namespace RedKnot.HeadClass

open Function List

open SegPaged (Policy arange indexSelect mem_arange)

structure HeadKVSlice (κ : Type) where
  layer : Nat
  head : Nat
  policy : Policy
  positions : List Int
  k : List κ
  v : List κ

/-- A payload. `head_dim` and `dtype` are carried along and never read. -/
structure HeadClassKVPayload (κ : Type) where
  numLayers : Nat
  numKvHeads : Nat
  seqLen : Nat
  slices : List (HeadKVSlice κ)

open HeadClassKVPayload

structure SliceMeta where
  layer : Nat
  head : Nat
  policy : Policy
  kept : Nat

structure PayloadMeta where
  numLayers : Nat
  numKvHeads : Nat
  seqLen : Nat
  slices : List SliceMeta

/-- The names `pos_i`, `k_i` and `v_i`. -/
inductive TensorKey where
  | pos (i : Nat)
  | k (i : Nat)
  | v (i : Nat)
deriving DecidableEq

inductive SavedTensor (κ : Type) where
  | long (positions : List Int)
  | rows (rows : List κ)

structure Blob (κ : Type) where
  info : PayloadMeta
  tensors : TensorKey → Option (SavedTensor κ)

/-- `torch.save` to bytes and `torch.load` from them. -/
structure TorchIO (κ β : Type) where
  save : Blob κ → β
  load : β → Except PyError (Blob κ)

variable {κ β : Type}

def nameTensors (tensors : TensorKey → Option (SavedTensor κ)) :
    Nat → List (HeadKVSlice κ) → TensorKey → Option (SavedTensor κ)
  | _, [] => tensors
  | i, s :: slices =>
    let tensors := update tensors (.pos i) (some (.long s.positions))
    let tensors := update tensors (.k i) (some (.rows s.k))
    let tensors := update tensors (.v i) (some (.rows s.v))
    nameTensors tensors (i + 1) slices

namespace HeadClassKVPayload

def serialize (io : TorchIO κ β) (payload : HeadClassKVPayload κ) : β :=
  io.save
    { info :=
        { numLayers := payload.numLayers
          numKvHeads := payload.numKvHeads
          seqLen := payload.seqLen
          slices := payload.slices.map fun s => ⟨s.layer, s.head, s.policy, s.positions.length⟩ }
      tensors := nameTensors (fun _ => none) 0 payload.slices }

/-- `tensors[key]` as positions. -/
def loadLong (tensors : TensorKey → Option (SavedTensor κ)) (key : TensorKey) :
    Except PyError (List Int) :=
  match tensors key with
  | some (.long positions) => .ok positions
  | some (.rows _) => .error .typeError
  | none => .error .keyError

/-- `tensors[key]` as rows. -/
def loadRows (tensors : TensorKey → Option (SavedTensor κ)) (key : TensorKey) :
    Except PyError (List κ) :=
  match tensors key with
  | some (.rows rows) => .ok rows
  | some (.long _) => .error .typeError
  | none => .error .keyError

def loadSlices (tensors : TensorKey → Option (SavedTensor κ)) :
    Nat → List SliceMeta → Except PyError (List (HeadKVSlice κ))
  | _, [] => .ok []
  | i, sm :: metas => do
    let positions ← loadLong tensors (.pos i)
    let k ← loadRows tensors (.k i)
    let v ← loadRows tensors (.v i)
    let slices ← loadSlices tensors (i + 1) metas
    .ok (⟨sm.layer, sm.head, sm.policy, positions, k, v⟩ :: slices)

def deserialize (io : TorchIO κ β) (blob : β) : Except PyError (HeadClassKVPayload κ) := do
  let obj ← io.load blob
  let slices ← loadSlices obj.tensors 0 obj.info.slices
  .ok ⟨obj.info.numLayers, obj.info.numKvHeads, obj.info.seqLen, slices⟩

end HeadClassKVPayload

variable {H : Nat}

def keptPositions (strat : HeadStrategy) (len : Nat) : List Int :=
  if strat.isLocal then
    localVisibleIndices len (max strat.sinkSize 0) (if 0 < strat.window then strat.window else 0)
  else arange 0 len

def buildSlice (cfg : HeadClassConfig) (len li : Nat) (k v : KVTensor κ H) (h : Fin H) :
    Except PyError (HeadKVSlice κ) := do
  let strat ← cfg.getStrategy li h.val
  let policy : Policy := if strat.isLocal then .policyLocal else .policyGlobal
  let pos := keptPositions strat len
  let kH ← indexSelect (k.rows h) pos
  let vH ← indexSelect (v.rows h) pos
  .ok ⟨li, h.val, policy, pos, kH, vH⟩

def buildSlices (cfg : HeadClassConfig) (len : Nat) :
    Nat → List (KVTensor κ H × KVTensor κ H) → Except PyError (List (HeadKVSlice κ))
  | _, [] => .ok []
  | li, kv :: layers => do
    let slices ← (finRange H).mapM (buildSlice cfg len li kv.1 kv.2)
    let rest ← buildSlices cfg len (li + 1) layers
    .ok (slices ++ rest)

def buildTransferPayload (kvPerLayer : List (KVTensor κ H × KVTensor κ H)) (cfg : HeadClassConfig) :
    Except PyError (HeadClassKVPayload κ) :=
  match kvPerLayer with
  | [] => .error (.valueError "build_transfer_payload: empty kv_per_layer")
  | sample :: _ => do
    let slices ← buildSlices cfg sample.1.len 0 kvPerLayer
    .ok ⟨kvPerLayer.length, H, sample.1.len, slices⟩

abbrev DenseKV (κ : Type) := Nat → Nat → List κ × List κ

def restoreSlice (numLayers numKvHeads : Nat) (out : DenseKV κ) (s : HeadKVSlice κ) :
    Except PyError (DenseKV κ) :=
  if s.layer < numLayers ∧ s.head < numKvHeads then do
    let k ← indexCopyRows (out s.layer s.head).1 s.positions s.k
    let v ← indexCopyRows (out s.layer s.head).2 s.positions s.v
    .ok (update out s.layer (update (out s.layer) s.head (k, v)))
  else .error .indexError

def restorePayload [Zero κ] (payload : HeadClassKVPayload κ) : Except PyError (DenseKV κ) :=
  payload.slices.foldlM (restoreSlice payload.numLayers payload.numKvHeads) fun _ _ =>
    (replicate payload.seqLen 0, replicate payload.seqLen 0)

def transfer [Zero κ] (io : TorchIO κ β) (kvPerLayer : List (KVTensor κ H × KVTensor κ H))
    (cfg : HeadClassConfig) : Except PyError (DenseKV κ) := do
  let payload ← buildTransferPayload kvPerLayer cfg
  let received ← deserialize io (payload.serialize io)
  restorePayload received

def TensorKey.index : TensorKey → Nat
  | .pos i => i
  | .k i => i
  | .v i => i

theorem nameTensors_before {tensors : TensorKey → Option (SavedTensor κ)} {i : Nat}
    {slices : List (HeadKVSlice κ)} {key : TensorKey} (before : key.index < i) :
    nameTensors tensors i slices key = tensors key := by
  induction slices generalizing tensors i with
  | nil => rfl
  | cons s slices ih =>
    have other : ∀ j, j = i → key ≠ .pos j ∧ key ≠ .k j ∧ key ≠ .v j := by
      rintro j rfl
      refine ⟨?_, ?_, ?_⟩ <;> rintro rfl <;> exact lt_irrefl _ before
    obtain ⟨not_pos, not_k, not_v⟩ := other i rfl
    rw [nameTensors, ih (Nat.lt_succ_of_lt before), update_of_ne not_v,
      update_of_ne not_k, update_of_ne not_pos]

theorem loadSlices_nameTensors (slices : List (HeadKVSlice κ))
    (tensors : TensorKey → Option (SavedTensor κ)) (i : Nat) :
    loadSlices (nameTensors tensors i slices) i
      (slices.map fun s => ⟨s.layer, s.head, s.policy, s.positions.length⟩) = .ok slices := by
  induction slices generalizing tensors i with
  | nil => rfl
  | cons s slices ih =>
    have named : ∀ key : TensorKey, key.index = i →
        nameTensors tensors i (s :: slices) key =
          update (update (update tensors (.pos i)
            (some (.long s.positions))) (.k i) (some (.rows s.k))) (.v i) (some (.rows s.v)) key :=
      fun key same => nameTensors_before (i := i + 1) (same ▸ Nat.lt_succ_self i)
    have pos : loadLong (nameTensors tensors i (s :: slices)) (.pos i) =
        .ok s.positions := by
      simp [loadLong, named (.pos i) rfl]
    have k : loadRows (nameTensors tensors i (s :: slices)) (.k i) =
        .ok s.k := by
      simp [loadRows, named (.k i) rfl]
    have v : loadRows (nameTensors tensors i (s :: slices)) (.v i) =
        .ok s.v := by
      simp [loadRows, named (.v i) rfl]
    have rest := ih (update (update (update tensors (.pos i)
      (some (.long s.positions))) (.k i) (some (.rows s.k))) (.v i) (some (.rows s.v))) (i + 1)
    rw [map_cons, loadSlices, pos, ok_bind, k, ok_bind, v, ok_bind]
    change (loadSlices (nameTensors _ (i + 1) slices) (i + 1) _ >>= _) = _
    rw [rest]
    rfl

theorem HeadClassKVPayload.deserialize_serialize {io : TorchIO κ β}
    (saved : ∀ blob, io.load (io.save blob) = .ok blob) (payload : HeadClassKVPayload κ) :
    deserialize io (payload.serialize io) = .ok payload := by
  unfold deserialize serialize
  rw [saved, ok_bind]
  rw [loadSlices_nameTensors, ok_bind]

structure CutFrom (cfg : HeadClassConfig) (kvPerLayer : List (KVTensor κ H × KVTensor κ H))
    (len : Nat) (s : HeadKVSlice κ) (k v : KVTensor κ H) (h : Fin H) (strat : HeadStrategy) :
    Prop where
  layer : kvPerLayer[s.layer]? = some (k, v)
  head : s.head = h.val
  strategy : cfg.getStrategy s.layer h.val = .ok strat
  positions : s.positions = keptPositions strat len
  keys : indexSelect (k.rows h) s.positions = .ok s.k
  values : indexSelect (v.rows h) s.positions = .ok s.v

variable {strat : HeadStrategy}

theorem keptPositions_inside {len : Nat} {p : Int}
    (member : p ∈ keptPositions strat len) : 0 ≤ p ∧ p < len := by
  unfold keptPositions at member
  split at member
  · have := mem_localVisibleIndices.mp member
    exact ⟨this.1, this.2.1⟩
  · exact mem_arange.mp member

theorem indexSelect_returns (rows : List κ) (idx : List Int)
    (inside : ∀ p ∈ idx, 0 ≤ p ∧ p < rows.length) : ∃ picked, indexSelect rows idx = .ok picked := by
  obtain ⟨picked, -, selected, -⟩ := indexCopyRows_indexSelect rows idx inside rows rfl
  exact ⟨picked, selected⟩

variable {cfg : HeadClassConfig} {len : Nat}

theorem buildSlice_spec {li : Nat} {k v : KVTensor κ H} (h : Fin H) (k_len : k.len = len)
    (v_len : v.len = len) (strategy : cfg.getStrategy li h.val = .ok strat) :
    ∃ s, buildSlice cfg len li k v h = .ok s ∧ s.layer = li ∧ s.head = h.val ∧
      s.positions = keptPositions strat len ∧ indexSelect (k.rows h) s.positions = .ok s.k ∧
      indexSelect (v.rows h) s.positions = .ok s.v := by
  obtain ⟨kH, keys⟩ := indexSelect_returns (k.rows h) (keptPositions strat len)
    fun p member => by rw [k.sized h, k_len]; exact keptPositions_inside member
  obtain ⟨vH, values⟩ := indexSelect_returns (v.rows h) (keptPositions strat len)
    fun p member => by rw [v.sized h, v_len]; exact keptPositions_inside member
  refine ⟨⟨li, h.val, if strat.isLocal then .policyLocal else .policyGlobal,
    keptPositions strat len, kH, vH⟩, ?_, rfl, rfl, rfl, keys, values⟩
  simp only [buildSlice, strategy, ok_bind, keys, values]

theorem buildSlices_spec (cfg : HeadClassConfig) (len : Nat)
    (kvPerLayer : List (KVTensor κ H × KVTensor κ H))
    (layers : List (KVTensor κ H × KVTensor κ H)) (li : Nat)
    (listed : ∀ j kv, layers[j]? = some kv → kvPerLayer[li + j]? = some kv)
    (sized : ∀ kv ∈ layers, kv.1.len = len ∧ kv.2.len = len)
    (strategies : ∀ j < layers.length, ∀ h : Fin H,
      ∃ strat, cfg.getStrategy (li + j) h.val = .ok strat) :
    ∃ slices, buildSlices cfg len li layers = .ok slices ∧
      (∀ s ∈ slices, ∃ k v h strat, CutFrom cfg kvPerLayer len s k v h strat) ∧
      ∀ j < layers.length, ∀ h : Fin H, ∃ s ∈ slices, s.layer = li + j ∧ s.head = h.val := by
  induction layers generalizing li with
  | nil => exact ⟨[], rfl, by simp, fun j small => absurd small (Nat.not_lt_zero j)⟩
  | cons kv layers ih =>
    obtain ⟨k_len, v_len⟩ := sized kv mem_cons_self
    obtain ⟨rest, built_rest, cut_rest, all_rest⟩ := ih (li + 1) (fun j kv' there => by
        have := listed (j + 1) kv' (by simpa using there)
        rwa [← add_assoc, add_right_comm] at this)
      (fun kv' member => sized kv' (mem_cons_of_mem kv member))
      (fun j small h => by
        have := strategies (j + 1) (by simpa using small) h
        rwa [← add_assoc, add_right_comm] at this)
    have here := strategies 0 (by simp)
    rw [add_zero] at here
    obtain ⟨slices, built⟩ := mapM_returns (l := finRange H)
      (f := buildSlice cfg len li kv.1 kv.2) fun h _ => by
        obtain ⟨strat, strategy⟩ := here h
        obtain ⟨s, ok, -⟩ := buildSlice_spec h k_len v_len strategy
        exact ⟨s, ok⟩
    obtain ⟨count, called⟩ := mapM_ok built
    have each : ∀ s ∈ slices, ∃ k v h strat, CutFrom cfg kvPerLayer len s k v h strat := by
      intro s member
      obtain ⟨a, at_a⟩ := getElem?_of_mem member
      obtain ⟨h, -, ok⟩ := called a s at_a
      obtain ⟨strat, strategy⟩ := here h
      obtain ⟨s', ok', layer, head, positions, keys, values⟩ :=
        buildSlice_spec h k_len v_len strategy
      rw [ok] at ok'
      cases ok'
      exact ⟨kv.1, kv.2, h, strat, ⟨by rw [layer]; exact listed 0 kv rfl, head,
        by rw [layer]; exact strategy, positions, keys, values⟩⟩
    refine ⟨slices ++ rest, ?_, ?_, ?_⟩
    · rw [buildSlices, built, ok_bind, built_rest, ok_bind]
    · intro s member
      rcases mem_append.mp member with now | later
      · exact each s now
      · exact cut_rest s later
    · intro j small h
      cases j with
      | zero =>
        have inside : h.val < slices.length := by
          rw [count]
          simp
        obtain ⟨h', listed_h, ok⟩ := called h.val _ (getElem?_eq_getElem inside)
        obtain ⟨strat, strategy⟩ := here h'
        obtain ⟨s, ok', layer, head, -⟩ := buildSlice_spec h' k_len v_len strategy
        rw [ok] at ok'
        cases ok'
        have same : h' = h := by
          simpa using listed_h.symm
        exact ⟨_, mem_append_left _ (getElem_mem inside), layer, by rw [head, same]⟩
      | succ j =>
        obtain ⟨s, member, layer, head⟩ := all_rest j (by simpa using small) h
        exact ⟨s, mem_append_right _ member, by omega, head⟩

def Shipped (slices : List (HeadKVSlice κ)) (li h p : Nat) : Prop :=
  ∃ s ∈ slices, s.layer = li ∧ s.head = h ∧ (p : Int) ∈ s.positions

def Overwrites (source before after : List κ) (shipped : Nat → Prop) : Prop :=
  after.length = before.length ∧
    ∀ p, (shipped p → after[p]? = source[p]?) ∧ (¬ shipped p → after[p]? = before[p]?)

theorem Overwrites.trans {source before mid after : List κ} {first second : Nat → Prop}
    (one : Overwrites source before mid first) (two : Overwrites source mid after second) :
    Overwrites source before after fun p => first p ∨ second p := by
  refine ⟨two.1.trans one.1, fun p => ⟨?_, ?_⟩⟩
  · intro shipped
    by_cases later : second p
    · exact (two.2 p).1 later
    · rw [(two.2 p).2 later]
      exact (one.2 p).1 (shipped.resolve_right later)
  · intro neither
    rw [(two.2 p).2 fun later => neither (.inr later)]
    exact (one.2 p).2 fun earlier => neither (.inl earlier)

theorem Overwrites.refl (source rows : List κ) {shipped : Nat → Prop} (none : ∀ p, ¬ shipped p) :
    Overwrites source rows rows shipped :=
  ⟨rfl, fun p => ⟨fun some => absurd some (none p), fun _ => rfl⟩⟩

theorem indexCopyRows_overwrites (rows : List κ) {source picked : List κ} {idx : List Int}
    (inside : ∀ p ∈ idx, 0 ≤ p ∧ p < source.length) (same : rows.length = source.length)
    (selected : indexSelect source idx = .ok picked) :
    ∃ copied, indexCopyRows rows idx picked = .ok copied ∧
      Overwrites source rows copied fun p => (p : Int) ∈ idx := by
  obtain ⟨picked', copied, selected', -, done, places⟩ :=
    indexCopyRows_indexSelect source idx inside rows same
  rw [selected] at selected'
  cases selected'
  refine ⟨copied, done, ?_, fun p => ⟨fun shipped => ?_, fun not_shipped => ?_⟩⟩
  · apply le_antisymm
    · by_contra longer
      have beyond := places rows.length
      rw [getElem?_eq_getElem (by omega), getElem?_eq_none (by omega),
        getElem?_eq_none (le_refl _), ite_self] at beyond
      cases beyond
    · by_contra shorter
      have missing := places copied.length
      rw [getElem?_eq_none (le_refl _), getElem?_eq_getElem (by omega),
        getElem?_eq_getElem (by omega)] at missing
      split at missing <;> cases missing
  · rw [places p, if_pos shipped]
  · rw [places p, if_neg not_shipped]

variable {kvPerLayer : List (KVTensor κ H × KVTensor κ H)}

theorem restoreSlice_spec {out : DenseKV κ} {s : HeadKVSlice κ} {k v : KVTensor κ H} {h : Fin H}
    (cut : CutFrom cfg kvPerLayer len s k v h strat)
    (sized : ∀ kv ∈ kvPerLayer, kv.1.len = len ∧ kv.2.len = len)
    (shape : ∀ li h, (out li h).1.length = len ∧ (out li h).2.length = len) :
    ∃ out', restoreSlice kvPerLayer.length H out s = .ok out' ∧
      (∀ li h, (out' li h).1.length = len ∧ (out' li h).2.length = len) ∧
      ∀ li k v, kvPerLayer[li]? = some (k, v) → ∀ h : Fin H,
        Overwrites (k.rows h) (out li h).1 (out' li h).1 (Shipped [s] li h) ∧
        Overwrites (v.rows h) (out li h).2 (out' li h).2 (Shipped [s] li h) := by
  obtain ⟨k_len, v_len⟩ := sized (k, v) (mem_of_getElem? cut.layer)
  have inside : ∀ p ∈ s.positions, 0 ≤ p ∧ p < len := by
    rw [cut.positions]
    exact fun p => keptPositions_inside
  obtain ⟨shape_k, shape_v⟩ := shape s.layer s.head
  obtain ⟨kRows, k_done, k_copied⟩ := indexCopyRows_overwrites (out s.layer s.head).1
    (by rw [k.sized h, k_len]; exact inside) (by rw [k.sized h, k_len, shape_k]) cut.keys
  obtain ⟨vRows, v_done, v_copied⟩ := indexCopyRows_overwrites (out s.layer s.head).2
    (by rw [v.sized h, v_len]; exact inside) (by rw [v.sized h, v_len, shape_v]) cut.values
  have layer_inside : s.layer < kvPerLayer.length := (List.getElem?_eq_some_iff.mp cut.layer).1
  have head_inside : s.head < H := cut.head ▸ h.isLt
  refine ⟨update out s.layer (update (out s.layer) s.head (kRows, vRows)), ?_, ?_, ?_⟩
  · unfold restoreSlice
    rw [if_pos ⟨layer_inside, head_inside⟩, k_done, ok_bind, v_done, ok_bind]
  · intro li h'
    by_cases here : li = s.layer
    · subst here
      by_cases head : h' = s.head
      · subst head
        simp only [update_self]
        exact ⟨k_copied.1.trans shape_k, v_copied.1.trans shape_v⟩
      · simpa only [update_self, update_of_ne head] using shape _ _
    · simpa only [update_of_ne here] using shape _ _
  · intro li k' v' there h'
    by_cases here : li = s.layer ∧ h'.val = s.head
    · obtain ⟨rfl, head⟩ := here
      rw [cut.layer] at there
      cases there
      have same : h' = h := Fin.ext (head.trans cut.head)
      subst same
      have shipped : ∀ p, Shipped [s] s.layer h'.val p ↔ (p : Int) ∈ s.positions := by
        simp [Shipped, cut.head]
      simp only [update_self, ← cut.head]
      rw [cut.head]
      exact ⟨⟨cut.head ▸ k_copied.1, fun p => by rw [shipped p]; exact cut.head ▸ k_copied.2 p⟩,
        ⟨cut.head ▸ v_copied.1, fun p => by rw [shipped p]; exact cut.head ▸ v_copied.2 p⟩⟩
    · have untouched : (update out s.layer
          (update (out s.layer) s.head (kRows, vRows))) li h'.val = out li h'.val := by
        by_cases layer : li = s.layer
        · subst layer
          rw [update_self, update_of_ne fun head => here ⟨rfl, head⟩]
        · rw [update_of_ne layer]
      have none : ∀ p, ¬ Shipped [s] li h'.val p := by
        rintro p ⟨s', member, layer, head, -⟩
        cases mem_singleton.mp member
        exact here ⟨layer.symm, head.symm⟩
      rw [untouched]
      exact ⟨.refl _ _ none, .refl _ _ none⟩

theorem restore_spec (sized : ∀ kv ∈ kvPerLayer, kv.1.len = len ∧ kv.2.len = len)
    (slices : List (HeadKVSlice κ))
    (cut : ∀ s ∈ slices, ∃ k v h strat, CutFrom cfg kvPerLayer len s k v h strat)
    (out : DenseKV κ) (shape : ∀ li h, (out li h).1.length = len ∧ (out li h).2.length = len) :
    ∃ out', slices.foldlM (restoreSlice kvPerLayer.length H) out = .ok out' ∧
      ∀ li k v, kvPerLayer[li]? = some (k, v) → ∀ h : Fin H,
        Overwrites (k.rows h) (out li h).1 (out' li h).1 (Shipped slices li h) ∧
        Overwrites (v.rows h) (out li h).2 (out' li h).2 (Shipped slices li h) := by
  induction slices generalizing out with
  | nil =>
    have none : ∀ li h p, ¬ Shipped ([] : List (HeadKVSlice κ)) li h p := by
      rintro li h p ⟨s, member, -⟩
      cases member
    exact ⟨out, rfl, fun li k v _ h => ⟨.refl _ _ (none li h), .refl _ _ (none li h)⟩⟩
  | cons s slices ih =>
    obtain ⟨k, v, h, strat, cut_s⟩ := cut s mem_cons_self
    obtain ⟨mid, step, mid_shape, one⟩ := restoreSlice_spec cut_s sized shape
    obtain ⟨out', rest, two⟩ := ih (fun s' member => cut s' (mem_cons_of_mem s member)) mid
      mid_shape
    refine ⟨out', ?_, ?_⟩
    · rw [foldlM_cons, step, ok_bind, rest]
    · intro li k' v' there h'
      have either : (fun p => Shipped [s] li h'.val p ∨ Shipped slices li h'.val p) =
          Shipped (s :: slices) li h'.val := by
        funext p
        simp [Shipped]
      obtain ⟨one_k, one_v⟩ := one li k' v' there h'
      obtain ⟨two_k, two_v⟩ := two li k' v' there h'
      exact ⟨either ▸ one_k.trans two_k, either ▸ one_v.trans two_v⟩

/-- The positions that a head can see: all of them, or the sink and the last window of a local
head. -/
def Visible (strat : HeadStrategy) (len p : Nat) : Prop :=
  strat.isLocal = false ∨ (p : Int) < strat.sinkSize ∨ (len : Int) - strat.window ≤ p

theorem mem_keptPositions {p : Nat} (inside : p < len) :
    (p : Int) ∈ keptPositions strat len ↔ Visible strat len p := by
  unfold keptPositions Visible
  by_cases isLocal : strat.isLocal
  · simp only [isLocal, if_true, mem_localVisibleIndices, Bool.true_eq_false, false_or]
    split <;> omega
  · simp only [isLocal, Bool.false_eq_true, if_false, mem_arange]
    simp
    omega

variable [Zero κ]

/-- What arrives is the original at every position that the head can see, and zero elsewhere. -/
theorem transfer_round_trip (io : TorchIO κ β) (saved : ∀ blob, io.load (io.save blob) = .ok blob)
    (kvPerLayer : List (KVTensor κ H × KVTensor κ H)) (some_layer : kvPerLayer ≠ []) (len : Nat)
    (sized : ∀ kv ∈ kvPerLayer, kv.1.len = len ∧ kv.2.len = len) (cfg : HeadClassConfig)
    (strategies : ∀ li < kvPerLayer.length, ∀ h : Fin H,
      ∃ strat, cfg.getStrategy li h.val = .ok strat) :
    ∃ out, transfer io kvPerLayer cfg = .ok out ∧
      ∀ li k v, kvPerLayer[li]? = some (k, v) → ∀ (h : Fin H) (strat : HeadStrategy),
        cfg.getStrategy li h.val = .ok strat →
        (out li h.val).1.length = len ∧ (out li h.val).2.length = len ∧
        ∀ p < len, (Visible strat len p → (out li h.val).1[p]? = (k.rows h)[p]? ∧
            (out li h.val).2[p]? = (v.rows h)[p]?) ∧
          (¬ Visible strat len p → (out li h.val).1[p]? = some 0 ∧
            (out li h.val).2[p]? = some 0) := by
  obtain ⟨slices, built, cut, all⟩ := buildSlices_spec cfg len kvPerLayer kvPerLayer 0
    (fun j kv there => by rwa [zero_add]) sized
    (fun j small h => by rw [zero_add]; exact strategies j small h)
  obtain ⟨out, restored, overwritten⟩ := restore_spec sized slices cut
    (fun _ _ => (replicate len 0, replicate len 0)) (by simp)
  have payload : buildTransferPayload kvPerLayer cfg =
      .ok ⟨kvPerLayer.length, H, len, slices⟩ := by
    cases kvPerLayer with
    | nil => exact absurd rfl some_layer
    | cons sample layers =>
      obtain ⟨rfl, -⟩ := sized sample mem_cons_self
      simp only [buildTransferPayload, built, ok_bind]
  refine ⟨out, ?_, ?_⟩
  · unfold transfer
    rw [payload, ok_bind, deserialize_serialize saved, ok_bind]
    exact restored
  · intro li k v there h strat strategy
    obtain ⟨copied_k, copied_v⟩ := overwritten li k v there h
    have layer_inside : li < kvPerLayer.length := (List.getElem?_eq_some_iff.mp there).1
    have shipped : ∀ p < len, Shipped slices li h.val p ↔ Visible strat len p := by
      intro p inside
      rw [← mem_keptPositions inside]
      constructor
      · rintro ⟨s, member, rfl, head, kept⟩
        obtain ⟨k', v', h', strat', cut_s⟩ := cut s member
        have same := cut_s.strategy
        rw [← cut_s.head, head, strategy] at same
        cases same
        rwa [cut_s.positions] at kept
      · intro kept
        obtain ⟨s, member, layer, head⟩ := all li layer_inside h
        rw [zero_add] at layer
        obtain ⟨k', v', h', strat', cut_s⟩ := cut s member
        have same := cut_s.strategy
        rw [← cut_s.head, head, layer, strategy] at same
        cases same
        exact ⟨s, member, layer, head, by rwa [cut_s.positions]⟩
    refine ⟨by simpa using copied_k.1, by simpa using copied_v.1, fun p inside => ⟨?_, ?_⟩⟩
    · intro visible
      have carried := (shipped p inside).mpr visible
      exact ⟨(copied_k.2 p).1 carried, (copied_v.2 p).1 carried⟩
    · intro hidden
      have missing : ¬ Shipped slices li h.val p := fun carried =>
        hidden ((shipped p inside).mp carried)
      rw [(copied_k.2 p).2 missing, (copied_v.2 p).2 missing]
      simp [inside]

def plainIO : TorchIO Nat (Blob Nat) := ⟨id, .ok⟩

theorem local_head_round_trip :
    ∃ out, transfer plainIO [((⟨4, fun _ => [1, 2, 3, 4], fun _ => rfl⟩ : KVTensor Nat 1),
        (⟨4, fun _ => [5, 6, 7, 8], fun _ => rfl⟩ : KVTensor Nat 1))]
        (.oneLayer [(.headLocal, 1, 1)] 0) = .ok out ∧
      (out 0 0).1[0]? = some 1 ∧ (out 0 0).1[1]? = some 0 ∧ (out 0 0).2[3]? = some 8 := by
  obtain ⟨out, arrived, places⟩ := transfer_round_trip plainIO (fun _ => rfl)
    [((⟨4, fun _ => [1, 2, 3, 4], fun _ => rfl⟩ : KVTensor Nat 1),
      (⟨4, fun _ => [5, 6, 7, 8], fun _ => rfl⟩ : KVTensor Nat 1))] (by simp) 4 (by simp)
    (.oneLayer [(.headLocal, 1, 1)] 0)
    (by
      intro li one_layer h
      cases Nat.lt_one_iff.mp one_layer
      cases Fin.fin_one_eq_zero h
      exact ⟨_, rfl⟩)
  obtain ⟨-, -, rows⟩ := places 0 _ _ rfl 0 ⟨0, 0, .headLocal, 1, 1⟩ rfl
  refine ⟨out, arrived, ?_, ?_, ?_⟩
  · exact ((rows 0 (by decide)).1 (by simp [Visible])).1
  · exact ((rows 1 (by decide)).2 (by simp [Visible, HeadStrategy.isLocal])).1
  · exact ((rows 3 (by decide)).1 (by simp [Visible])).2

end RedKnot.HeadClass
