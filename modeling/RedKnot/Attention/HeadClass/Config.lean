import Mathlib.Data.List.Basic
import RedKnot.Python

/-! Head classification (`redknot/head_config.py`). The tables of a constructed configuration are
normalised. -/

namespace RedKnot.HeadClass

open List

inductive HeadType where
  | headLocal
  | headGlobal
  | headRetrieval
  | headDense
deriving DecidableEq, Repr

/-- The names of `_LEGACY_MAP`. -/
inductive LegacyType where
  | localFull
  | limited
  | streaming
  | sinkDominant
deriving DecidableEq, Repr

def LegacyType.text : LegacyType → String
  | .localFull => "local_full"
  | .limited => "limited"
  | .streaming => "streaming"
  | .sinkDominant => "sink_dominant"

inductive ClassName where
  | allowed (type : HeadType)
  | legacy (name : LegacyType)
  | other (name : String)
deriving DecidableEq, Repr

structure HeadStrategy where
  layer : Nat
  kvHead : Nat
  headType : HeadType
  window : Int
  sinkSize : Int
deriving DecidableEq, Repr

def HeadStrategy.isLocal (strat : HeadStrategy) : Bool := strat.headType == .headLocal

def ClassName.normalize (li kvh : Nat) : ClassName → Except PyError ClassName
  | .allowed type => .ok (.allowed type)
  | .legacy _ => .ok (.allowed .headLocal)
  | .other name => .error (.valueError
      (s!"Unknown head_type '{name}' at (layer={li}, kvh={kvh}); " ++
        "allowed: ['dense', 'global', 'local', 'retrieval'] " ++
        "(or legacy ['limited', 'local_full', 'sink_dominant', 'streaming'])."))

/-- `_normalize` on the entries `kvh, kvh + 1, …` of one row, `n` of them. -/
def normalizeRow (li : Nat) : Nat → Nat → List ClassName → Except PyError (List ClassName)
  | 0, _, row => .ok row
  | _ + 1, _, [] => .error .indexError
  | n + 1, kvh, t :: row => do
    let t ← t.normalize li kvh
    let row ← normalizeRow li n (kvh + 1) row
    .ok (t :: row)

def normalize (numKvHeads : Nat) : Nat → List (List ClassName) →
    Except PyError (List (List ClassName))
  | _, [] => .ok []
  | li, row :: rows => do
    let row ← normalizeRow li numKvHeads 0 row
    let rows ← normalize numKvHeads (li + 1) rows
    .ok (row :: rows)

/-- A row whose first `n` entries are there and name a head type. -/
structure NormalRow (n : Nat) (row : List ClassName) : Prop where
  wide : n ≤ row.length
  named : ∀ t ∈ row.take n, ∃ type, t = .allowed type

theorem ClassName.normalize_named {li kvh : Nat} {t t' : ClassName}
    (done : t.normalize li kvh = .ok t') : ∃ type, t' = .allowed type := by
  cases t with
  | allowed type =>
    cases done
    exact ⟨type, rfl⟩
  | legacy name =>
    cases done
    exact ⟨.headLocal, rfl⟩
  | other name => cases done

section

variable {li n kvh : Nat} {row row' : List ClassName}

theorem normalizeRow_succ (done : normalizeRow li (n + 1) kvh row = .ok row') :
    ∃ t t' rest rest', row = t :: rest ∧ row' = t' :: rest' ∧ t.normalize li kvh = .ok t' ∧
      normalizeRow li n (kvh + 1) rest = .ok rest' := by
  cases row with
  | nil => cases done
  | cons t rest =>
    obtain ⟨t', head, done⟩ := bind_eq_ok.mp done
    obtain ⟨rest', tail, done⟩ := bind_eq_ok.mp done
    cases done
    exact ⟨t, t', rest, rest', rfl, rfl, head, tail⟩

theorem normalizeRow_length (done : normalizeRow li n kvh row = .ok row') :
    row'.length = row.length := by
  induction n generalizing kvh row row' with
  | zero => cases done; rfl
  | succ n ih =>
    obtain ⟨t, t', rest, rest', rfl, rfl, -, tail⟩ := normalizeRow_succ done
    simp [ih tail]

theorem normalizeRow_normal (done : normalizeRow li n kvh row = .ok row') : NormalRow n row' := by
  induction n generalizing kvh row row' with
  | zero =>
    cases done
    exact ⟨Nat.zero_le _, by simp⟩
  | succ n ih =>
    obtain ⟨t, t', rest, rest', rfl, rfl, head, tail⟩ := normalizeRow_succ done
    have rest_normal := ih tail
    constructor
    · simpa using rest_normal.wide
    · intro u member
      rcases mem_cons.mp (by simpa using member) with rfl | later
      · exact ClassName.normalize_named head
      · exact rest_normal.named u later

end

theorem normalize_normal {numKvHeads li : Nat} {rows rows' : List (List ClassName)}
    (done : normalize numKvHeads li rows = .ok rows') :
    rows'.length = rows.length ∧ rows'.head?.map length = rows.head?.map length ∧
      ∀ row ∈ rows', NormalRow numKvHeads row := by
  induction rows generalizing li rows' with
  | nil =>
    cases done
    exact ⟨rfl, rfl, by simp⟩
  | cons row rows ih =>
    unfold normalize at done
    cases head : normalizeRow li numKvHeads 0 row with
    | error e => rw [head] at done; cases done
    | ok row' =>
      cases tail : normalize numKvHeads (li + 1) rows with
      | error e => rw [head, ok_bind, tail] at done; cases done
      | ok rest =>
        rw [head, ok_bind, tail] at done
        cases done
        obtain ⟨same, -, normal⟩ := ih tail
        exact ⟨by simp [same], by simp [normalizeRow_length head],
          forall_mem_cons.mpr ⟨normalizeRow_normal head, normal⟩⟩

structure HeadClassConfig where
  headClass : List (List ClassName)
  headMaxDistance : List (List Int)
  headSinkSize : Option (List (List Int))
  numLayers : Nat
  numKvHeads : Nat
  defaultSinkSize : Int
  localDefaultWindow : Int
  densePrefixLayers : Int
  layers : headClass.length = numLayers
  first : headClass.head?.map length = some numKvHeads
  normal : ∀ row ∈ headClass, NormalRow numKvHeads row

namespace HeadClassConfig

def init (headClass : List (List ClassName)) (headMaxDistance : List (List Int))
    (numLayers numKvHeads : Nat) (headSinkSize : Option (List (List Int)))
    (defaultSinkSize localDefaultWindow densePrefixLayers : Int) :
    Except PyError HeadClassConfig :=
  let given := headClass.length
  if layers : headClass.length = numLayers then
    match headClass.head?.map length with
    | none => .error .indexError
    | some width =>
      if wide : headClass.head?.map length = some numKvHeads then
        match done : normalize numKvHeads 0 headClass with
        | .ok table => .ok
          { headClass := table, headMaxDistance, headSinkSize, numLayers, numKvHeads,
            defaultSinkSize, localDefaultWindow, densePrefixLayers
            layers := (normalize_normal done).1.trans layers
            first := (normalize_normal done).2.1.trans wide
            normal := (normalize_normal done).2.2 }
        | .error e => .error e
      else .error (.assertionError
        s!"head_class kv_heads={width} != num_kv_heads={numKvHeads}")
  else .error (.assertionError s!"head_class layers={given} != num_layers={numLayers}")

/-- `table[layer][kv_head]`. -/
def entry {α : Type} (table : List (List α)) (layer kvHead : Nat) : Except PyError α := do
  let row ← pyGet table layer
  pyGet row kvHead

theorem entry_ok_iff {α : Type} {table : List (List α)} {layer kvHead : Nat} {a : α} :
    entry table layer kvHead = .ok a ↔ ∃ row, table[layer]? = some row ∧ row[kvHead]? = some a := by
  unfold entry pyGet
  cases there : table[layer]? with
  | none => simp [bind, Except.bind]
  | some row =>
    rw [ok_bind]
    cases cell : row[kvHead]? with
    | none => simp [cell]
    | some b => simp [cell]

theorem entry_headClass {cfg : HeadClassConfig} {layer kvHead : Nat}
    (layer_there : layer < cfg.numLayers) (head_there : kvHead < cfg.numKvHeads) :
    ∃ type, entry cfg.headClass layer kvHead = .ok (.allowed type) := by
  have inside : layer < cfg.headClass.length := cfg.layers.symm ▸ layer_there
  have normal := cfg.normal _ (getElem_mem inside)
  have wide := Nat.lt_of_lt_of_le head_there normal.wide
  have in_take : cfg.headClass[layer][kvHead] ∈ cfg.headClass[layer].take cfg.numKvHeads := by
    rw [mem_take_iff_getElem]
    exact ⟨kvHead, by omega, rfl⟩
  obtain ⟨type, named⟩ := normal.named _ in_take
  refine ⟨type, entry_ok_iff.mpr ⟨_, getElem?_eq_getElem inside, ?_⟩⟩
  rw [getElem?_eq_getElem wide, named]

def sinkAt (cfg : HeadClassConfig) (layer kvHead : Nat) : Except PyError Int :=
  match cfg.headSinkSize with
  | some sizes => entry sizes layer kvHead
  | none => .ok cfg.defaultSinkSize

/-- The window of a head of the given type with `max_d` from the table. -/
def windowOf (cfg : HeadClassConfig) (htype : HeadType) (maxD : Int) : Int :=
  match htype with
  | .headGlobal => -1
  | .headLocal => if 0 < maxD then maxD else cfg.localDefaultWindow
  | .headRetrieval => -1
  | .headDense => -1

def getStrategy (cfg : HeadClassConfig) (layer kvHead : Nat) : Except PyError HeadStrategy :=
  if (layer : Int) < cfg.densePrefixLayers then do
    let ss ← cfg.sinkAt layer kvHead
    .ok ⟨layer, kvHead, .headDense, -1, ss⟩
  else do
    let htype ← entry cfg.headClass layer kvHead
    let maxD ← entry cfg.headMaxDistance layer kvHead
    let ss ← cfg.sinkAt layer kvHead
    match htype with
    | .allowed type => .ok ⟨layer, kvHead, type, cfg.windowOf type maxD, ss⟩
    -- an entry past `num_kv_heads` is not normalised
    | .legacy name =>
      let name := name.text
      .error (.valueError s!"Unknown head_type '{name}'")
    | .other name => .error (.valueError s!"Unknown head_type '{name}'")

/-- One row of the tensors of `as_tensors`; a cell holds the type, window and sink of a head. -/
def strategies (cfg : HeadClassConfig) (layer : Nat) : Except PyError (List HeadStrategy) :=
  (range cfg.numKvHeads).mapM fun kvh => cfg.getStrategy layer kvh

def asTensors (cfg : HeadClassConfig) : Except PyError (List (List HeadStrategy)) :=
  (range cfg.numLayers).mapM fun li => cfg.strategies li

theorem asTensors_returns {cfg : HeadClassConfig}
    (strategies : ∀ li < cfg.numLayers, ∀ kvh < cfg.numKvHeads,
      ∃ strat, cfg.getStrategy li kvh = .ok strat) : ∃ tensors, cfg.asTensors = .ok tensors := by
  apply mapM_returns
  intro li layer_there
  apply mapM_returns
  intro kvh head_there
  exact strategies li (mem_range.mp layer_there) kvh (mem_range.mp head_there)

def oneLayer (heads : List (HeadType × Int × Int)) (densePrefixLayers : Int) :
    HeadClassConfig where
  headClass := [heads.map fun head => .allowed head.1]
  headMaxDistance := [heads.map fun head => head.2.1]
  headSinkSize := some [heads.map fun head => head.2.2]
  numLayers := 1
  numKvHeads := heads.length
  defaultSinkSize := 4
  localDefaultWindow := 512
  densePrefixLayers := densePrefixLayers
  layers := rfl
  first := by simp
  normal := by
    intro row member
    cases mem_singleton.mp member
    refine ⟨by simp, fun t named => ?_⟩
    obtain ⟨head, -, rfl⟩ := mem_map.mp (mem_of_mem_take named)
    exact ⟨_, rfl⟩

theorem oneLayer_strategy {heads : List (HeadType × Int × Int)} {h : Nat}
    {head : HeadType × Int × Int} (there : heads[h]? = some head) :
    (oneLayer heads 0).getStrategy 0 h =
      .ok ⟨0, h, head.1, (oneLayer heads 0).windowOf head.1 head.2.1, head.2.2⟩ := by
  have type_there : entry (oneLayer heads 0).headClass 0 h = .ok (.allowed head.1) :=
    pyGet_eq (by simp [there])
  have distance_there : entry (oneLayer heads 0).headMaxDistance 0 h = .ok head.2.1 :=
    pyGet_eq (by simp [there])
  have sink_there : (oneLayer heads 0).sinkAt 0 h = .ok head.2.2 := pyGet_eq (by simp [there])
  unfold getStrategy
  rw [if_neg (by simp [oneLayer]), type_there, distance_there, sink_there]
  rfl

end HeadClassConfig

end RedKnot.HeadClass
