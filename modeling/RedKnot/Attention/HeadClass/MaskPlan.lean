import Mathlib.Tactic
import RedKnot.Attention.HeadClass.Config

/-! The mask plan of a layer (`redknot/mask_plan.py`). A row of a tensor stands for the key and the
value of one token in one head. -/

namespace RedKnot.HeadClass

open List HeadStrategy

/-- The keys and values `[1, n, len, D]` of `n` KV heads. -/
@[ext]
structure KVTensor (κ : Type) (n : Nat) where
  len : Nat
  rows : Fin n → List κ
  sized : ∀ h, (rows h).length = len

namespace KVTensor

variable {κ κ' : Type} {n : Nat}

/-- `t[:, :, :stop]`. -/
def take (t : KVTensor κ n) (stop : Nat) : KVTensor κ n where
  len := min stop t.len
  rows h := (t.rows h).take stop
  sized h := by rw [length_take, t.sized h]

/-- `t[:, :, start:]`. -/
def drop (t : KVTensor κ n) (start : Nat) : KVTensor κ n where
  len := t.len - start
  rows h := (t.rows h).drop start
  sized h := by rw [length_drop, t.sized h]

def zeros [Zero κ] (n len : Nat) : KVTensor κ n where
  len := len
  rows _ := replicate len 0
  sized _ := length_replicate

/-- `torch.cat([a, b], dim=2)`. -/
def cat (a b : KVTensor κ n) : KVTensor κ n where
  len := a.len + b.len
  rows h := a.rows h ++ b.rows h
  sized h := by rw [length_append, a.sized h, b.sized h]

/-- `torch.cat(parts, dim=2)`, with the empty tensor for no parts. -/
def catAll (parts : List (KVTensor κ n)) : KVTensor κ n where
  len := (parts.map len).sum
  rows h := parts.flatMap fun part => part.rows h
  sized h := by
    induction parts with
    | nil => rfl
    | cons part parts ih => simp [part.sized h, ih]

/-- `t.index_select(1, idx)`. -/
def indexSelect (t : KVTensor κ n) (idx : List (Fin n)) : KVTensor κ idx.length where
  len := t.len
  rows j := t.rows (idx.get j)
  sized _ := t.sized _

def map (f : Fin n → κ → κ') (t : KVTensor κ n) : KVTensor κ' n where
  len := t.len
  rows h := (t.rows h).map (f h)
  sized h := by rw [length_map, t.sized h]

end KVTensor

/-- `type_codes`, `window`, `sink_keep` and `sink_max` for the KV heads of one rank. -/
structure LayerMaskPlan where
  heads : Nat
  typeCodes : Fin heads → HeadType
  window : Fin heads → Int
  sinkKeep : Fin heads → List Bool
  sinkMax : Nat

def sinkMaxOf (row : List HeadStrategy) : Nat :=
  ((row.map sinkSize).max?.getD 0).toNat

def LayerMaskPlan.ofStrategies (row : List HeadStrategy) : LayerMaskPlan where
  heads := row.length
  typeCodes h := (row.get h).headType
  window h := (row.get h).window
  sinkKeep h := (range (sinkMaxOf row)).map fun col : Nat =>
    decide ((col : Int) < (row.get h).sinkSize)
  sinkMax := sinkMaxOf row

def buildLayerMaskPlan (cfg : HeadClassConfig) (layerIdx kvHeadStart : Nat)
    (kvHeadCount : Option Nat) : Except PyError LayerMaskPlan := do
  let tensors ← cfg.asTensors
  let row ← pyGet tensors layerIdx
  match kvHeadCount with
  | some count => .ok (.ofStrategies (pySlice row kvHeadStart (kvHeadStart + count)))
  | none => .ok (.ofStrategies row)

/-- The sinks of every head: the first `sink_max` rows of the first segment, zero rows after its
end. -/
def padPerHeadSinks {κ : Type} [Zero κ] (plan : LayerMaskPlan)
    (first : KVTensor κ plan.heads) : KVTensor κ plan.heads :=
  if plan.sinkMax = 0 then first.take 0
  else if plan.sinkMax ≤ first.len then first.take plan.sinkMax
  else first.cat (.zeros plan.heads (plan.sinkMax - first.len))

def LayerMaskPlan.headsOf (plan : LayerMaskPlan) (code : HeadType) : List (Fin plan.heads) :=
  (finRange plan.heads).filter fun h => plan.typeCodes h = code

def groupHeadsByType (plan : LayerMaskPlan) : List (HeadType × List (Fin plan.heads)) :=
  [.headLocal, .headGlobal, .headRetrieval, .headDense].filterMap fun code =>
    if plan.headsOf code = [] then none else some (code, plan.headsOf code)

def qHeadIndices {n : Nat} (kvHeadIdx : List (Fin n)) (numQPerKv : Nat) : List Nat :=
  kvHeadIdx.flatMap fun h => (range numQPerKv).map fun g : Nat => h.val * numQPerKv + g

/-- The first head of the slice: `kv_head_start` counts only with `kv_head_count`. -/
def sliceStart (kvHeadStart : Nat) (kvHeadCount : Option Nat) : Nat :=
  match kvHeadCount with
  | some _ => kvHeadStart
  | none => 0

def sliceCount (numKvHeads kvHeadStart : Nat) (kvHeadCount : Option Nat) : Nat :=
  match kvHeadCount with
  | some count => min count (numKvHeads - kvHeadStart)
  | none => numKvHeads

variable {cfg : HeadClassConfig} {layer start : Nat} {count : Option Nat} {plan : LayerMaskPlan}

structure PlanRow (cfg : HeadClassConfig) (layer first : Nat) (row : List HeadStrategy) :
    Prop where
  inside : layer < cfg.numLayers
  strategy : ∀ (h : Nat) (strat : HeadStrategy), row[h]? = some strat →
    cfg.getStrategy layer (first + h) = .ok strat

theorem buildLayerMaskPlan_spec (built : buildLayerMaskPlan cfg layer start count = .ok plan) :
    ∃ row, plan = .ofStrategies row ∧ PlanRow cfg layer (sliceStart start count) row ∧
      row.length = sliceCount cfg.numKvHeads start count := by
  unfold buildLayerMaskPlan at built
  cases table : cfg.asTensors with
  | error e => rw [table] at built; cases built
  | ok tensors =>
    rw [table, ok_bind] at built
    cases there : tensors[layer]? with
    | none => simp only [pyGet, there] at built; cases built
    | some row =>
      rw [pyGet_eq there, ok_bind] at built
      obtain ⟨layers, rows⟩ := mapM_range_ok table
      obtain ⟨width, cells⟩ := mapM_range_ok (rows layer row there)
      have inside : layer < cfg.numLayers := layers ▸ (List.getElem?_eq_some_iff.mp there).1
      cases count with
      | none =>
        cases built
        refine ⟨row, rfl, ⟨inside, fun h strat at_h => ?_⟩, width⟩
        simpa [sliceStart] using cells h strat at_h
      | some count =>
        cases built
        refine ⟨_, rfl, ⟨inside, fun h strat at_h => ?_⟩, ?_⟩
        · simp only [pySlice, getElem?_drop, getElem?_take] at at_h
          split at at_h
          · exact cells _ strat at_h
          · cases at_h
        · simp only [pySlice, length_drop, length_take, sliceCount, width]
          omega

theorem buildLayerMaskPlan_ok (start : Nat) (count : Option Nat)
    (complete : ∃ tensors, cfg.asTensors = .ok tensors)
    (inside : layer < cfg.numLayers) :
    ∃ plan, buildLayerMaskPlan cfg layer start count = .ok plan := by
  obtain ⟨tensors, table⟩ := complete
  have there := getElem?_eq_getElem ((mapM_range_ok table).1.symm ▸ inside)
  unfold buildLayerMaskPlan
  rw [table, ok_bind, pyGet_eq there, ok_bind]
  cases count with
  | none => exact ⟨_, rfl⟩
  | some count => exact ⟨_, rfl⟩

theorem sinkSize_le_sinkMaxOf {row : List HeadStrategy} {strat : HeadStrategy}
    (member : strat ∈ row) : strat.sinkSize ≤ sinkMaxOf row := by
  have in_sinks : strat.sinkSize ∈ row.map sinkSize :=
    mem_map_of_mem member
  cases largest : (row.map sinkSize).max? with
  | none => simp [max?_eq_none_iff.mp largest] at in_sinks
  | some m =>
    have bound := (max?_eq_some_iff.mp largest).2 _ in_sinks
    simp only [sinkMaxOf, largest, Option.getD_some]
    omega

theorem sinkKeep_ofStrategies (row : List HeadStrategy) (h : Fin row.length) (col : Nat) :
    ((LayerMaskPlan.ofStrategies row).sinkKeep h)[col]? = some true ↔
      (col : Int) < (row.get h).sinkSize := by
  have bound := sinkSize_le_sinkMaxOf (get_mem row h)
  simp only [LayerMaskPlan.ofStrategies, getElem?_map, Option.map_eq_some_iff,
    List.getElem?_eq_some_iff, getElem_range, length_range, decide_eq_true_eq]
  constructor
  · rintro ⟨a, ⟨-, rfl⟩, small⟩
    exact small
  · intro small
    exact ⟨col, ⟨by omega, rfl⟩, small⟩

section Sinks

variable {κ : Type} [Zero κ]

theorem padPerHeadSinks_rows (first : KVTensor κ plan.heads) (h : Fin plan.heads) :
    (padPerHeadSinks plan first).rows h =
      (first.rows h).take plan.sinkMax ++ replicate (plan.sinkMax - first.len) 0 := by
  have sized := first.sized h
  unfold padPerHeadSinks
  split
  · next none => simp [KVTensor.take, none]
  · split
    · next enough => simp [KVTensor.take, Nat.sub_eq_zero_of_le enough]
    · next short =>
      have all : (first.rows h).take plan.sinkMax = first.rows h :=
        take_of_length_le (by omega)
      simp [KVTensor.cat, KVTensor.zeros, all]

theorem padPerHeadSinks_len (first : KVTensor κ plan.heads) :
    (padPerHeadSinks plan first).len = plan.sinkMax := by
  unfold padPerHeadSinks
  split
  · next none => simp [KVTensor.take, none]
  · split
    · next enough => simpa [KVTensor.take] using enough
    · next short => simp only [KVTensor.cat, KVTensor.zeros]; omega

end Sinks

end RedKnot.HeadClass
