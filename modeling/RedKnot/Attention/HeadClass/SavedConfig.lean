import RedKnot.Attention.HeadClass.Config

/-! A configuration that is written to a file (`redknot/head_profiler.py`) and loaded again. -/

namespace RedKnot.HeadClass

structure SavedConfig where
  numLayers : Nat
  numKvHeads : Nat
  kvHeadClassification : List (List ClassName)
  kvHeadMaxDistance : List (List Int)
  kvHeadSinkSize : Option (List (List Int))
  densePrefixLayers : Int

/-- The fallback values are not written. -/
def saveHeadConfigJson (cfg : HeadClassConfig) : SavedConfig where
  numLayers := cfg.numLayers
  numKvHeads := cfg.numKvHeads
  kvHeadClassification := cfg.headClass
  kvHeadMaxDistance := cfg.headMaxDistance
  kvHeadSinkSize := cfg.headSinkSize
  densePrefixLayers := cfg.densePrefixLayers

namespace HeadClassConfig

def fromJson (data : SavedConfig) (defaultSinkSize : Int := 4) (localDefaultWindow : Int := 512) :
    Except PyError HeadClassConfig :=
  init data.kvHeadClassification data.kvHeadMaxDistance data.numLayers data.numKvHeads
    data.kvHeadSinkSize defaultSinkSize localDefaultWindow data.densePrefixLayers

theorem normalizeRow_self {li n kvh : Nat} {row : List ClassName} (normal : NormalRow n row) :
    normalizeRow li n kvh row = .ok row := by
  induction n generalizing kvh row with
  | zero => rfl
  | succ n ih =>
    obtain ⟨wide, named⟩ := normal
    cases row with
    | nil => cases wide
    | cons t row =>
      obtain ⟨type, rfl⟩ := named t (by simp)
      have rest : NormalRow n row :=
        ⟨Nat.le_of_succ_le_succ wide, fun u member => named u (by simp [member])⟩
      simp only [normalizeRow, ClassName.normalize, ok_bind, ih rest]

theorem normalize_self {n li : Nat} {rows : List (List ClassName)}
    (normal : ∀ row ∈ rows, NormalRow n row) : normalize n li rows = .ok rows := by
  induction rows generalizing li with
  | nil => rfl
  | cons row rows ih =>
    have rest := @ih (li + 1) fun u member => normal u (List.mem_cons_of_mem _ member)
    simp only [normalize, normalizeRow_self (normal row List.mem_cons_self), ok_bind, rest]

variable (cfg : HeadClassConfig)

theorem fromJson_saved (s w : Int) : fromJson (saveHeadConfigJson cfg) s w =
    .ok { cfg with defaultSinkSize := s, localDefaultWindow := w } := by
  unfold fromJson init saveHeadConfigJson
  simp only [cfg.layers, cfg.first, dite_true]
  split
  · next table done =>
    rw [normalize_self cfg.normal] at done
    cases done
    rfl
  · next e done =>
    rw [normalize_self cfg.normal] at done
    cases done

/-- A cell whose strategy needs no fallback value that the file lacks. -/
def Carried (layer kvHead : Nat) (strat : HeadStrategy) : Prop :=
  (cfg.headSinkSize = none → cfg.defaultSinkSize = 4) ∧
    (strat.isLocal → ∀ maxD, entry cfg.headMaxDistance layer kvHead = .ok maxD → maxD ≤ 0 →
      cfg.localDefaultWindow = 512)

variable {cfg} {layer kvHead : Nat}

theorem sinkAt_reloaded (s w : Int) :
    sinkAt { cfg with defaultSinkSize := s, localDefaultWindow := w } layer kvHead =
      (cfg.sinkAt layer kvHead).map fun ss => if cfg.headSinkSize = none then s else ss := by
  unfold sinkAt
  cases cfg.headSinkSize with
  | none => rfl
  | some sizes => cases read : entry sizes layer kvHead <;> simp [read, Except.map]

theorem sinkAt_kept_iff {ss : Int} (sink : cfg.sinkAt layer kvHead = .ok ss) :
    (if cfg.headSinkSize = none then 4 else ss) = ss ↔
      (cfg.headSinkSize = none → cfg.defaultSinkSize = 4) := by
  unfold sinkAt at sink
  cases given : cfg.headSinkSize with
  | none =>
    rw [given] at sink
    cases sink
    simp [eq_comm]
  | some sizes => simp

theorem windowOf_kept_iff {type : HeadType} {maxD : Int} :
    windowOf { cfg with defaultSinkSize := 4, localDefaultWindow := 512 } type maxD =
      cfg.windowOf type maxD ↔ (type = .headLocal → maxD ≤ 0 → cfg.localDefaultWindow = 512) := by
  cases type with
  | headLocal =>
    unfold windowOf
    by_cases given : 0 < maxD
    · simp [given, Int.not_le.mpr given]
    · simp [given, Int.not_lt.mp given, eq_comm]
  | _ => simp [windowOf]

theorem getStrategy_reloaded_iff :
    getStrategy { cfg with defaultSinkSize := 4, localDefaultWindow := 512 } layer kvHead =
        cfg.getStrategy layer kvHead ↔
      ∀ strat, cfg.getStrategy layer kvHead = .ok strat → cfg.Carried layer kvHead strat := by
  unfold getStrategy
  rw [sinkAt_reloaded]
  cases sink : cfg.sinkAt layer kvHead with
  | error e =>
    by_cases dense : (layer : Int) < cfg.densePrefixLayers
    · simp [dense, Except.map, bind, Except.bind]
    · cases entry cfg.headClass layer kvHead <;> cases entry cfg.headMaxDistance layer kvHead <;>
        simp [dense, Except.map, bind, Except.bind]
  | ok ss =>
    have kept := sinkAt_kept_iff sink
    by_cases dense : (layer : Int) < cfg.densePrefixLayers
    · simp [dense, Except.map, Carried, HeadStrategy.isLocal, kept]
    · cases entry cfg.headClass layer kvHead with
      | error e => simp [dense, bind, Except.bind]
      | ok name =>
        cases distance : entry cfg.headMaxDistance layer kvHead with
        | error e => simp [dense, bind, Except.bind]
        | ok maxD =>
          cases name with
          | allowed type =>
            simp [dense, Except.map, Carried, HeadStrategy.isLocal, kept, windowOf_kept_iff, distance,
              and_comm]
          | _ => simp [dense, Except.map]

/-- Exactly the cells that need no fallback value other than the default of `from_json` come back
with their strategy. -/
theorem fromJson_keeps_strategies_iff (cfg : HeadClassConfig) :
    ∃ cfg', fromJson (saveHeadConfigJson cfg) = .ok cfg' ∧
      ((∀ layer < cfg.numLayers, ∀ kvHead < cfg.numKvHeads,
          cfg'.getStrategy layer kvHead = cfg.getStrategy layer kvHead) ↔
        ∀ layer < cfg.numLayers, ∀ kvHead < cfg.numKvHeads, ∀ strat,
          cfg.getStrategy layer kvHead = .ok strat → cfg.Carried layer kvHead strat) :=
  ⟨_, fromJson_saved cfg 4 512, by simp only [getStrategy_reloaded_iff]⟩

/-- The local head of a configuration with its own fallback window and sink gets the default ones. -/
theorem reload_forgets_fallbacks :
    let cfg : HeadClassConfig := { oneLayer [(.headLocal, 0, 0)] 0 with
      headSinkSize := none, defaultSinkSize := 16, localDefaultWindow := 64 }
    cfg.getStrategy 0 0 = .ok ⟨0, 0, .headLocal, 64, 16⟩ ∧
      ∃ cfg', fromJson (saveHeadConfigJson cfg) = .ok cfg' ∧
        cfg'.getStrategy 0 0 = .ok ⟨0, 0, .headLocal, 512, 4⟩ :=
  ⟨rfl, _, fromJson_saved _ 4 512, rfl⟩

end HeadClassConfig

end RedKnot.HeadClass
