import RedKnot.Attention.HeadClass.MaskPlan

/-! Tensor parallelism of the KV heads (`layers/linear.py`, `redknot_backend.py`). -/

namespace RedKnot.HeadClass

open Function List Nat HeadClassConfig HeadStrategy

def divide (numerator denominator : Nat) : Except PyError Nat :=
  if numerator % denominator = 0 then .ok (numerator / denominator)
  else .error (.assertionError s!"{numerator} is not divisible by {denominator}")

theorem divide_eq {numerator denominator : Nat} (divides : denominator ∣ numerator) :
    divide numerator denominator = .ok (numerator / denominator) :=
  if_pos (mod_eq_zero_of_dvd divides)

structure QKVParallelLinear where
  tpRank : Nat
  numKvHeads : Nat
  numKvHeadReplicas : Nat

open QKVParallelLinear

namespace QKVParallelLinear

def init (totalNumKvHeads tpRank tpSize : Nat) : Except PyError QKVParallelLinear :=
  if totalNumKvHeads ≤ tpSize then do
    let replicas ← divide tpSize totalNumKvHeads
    .ok ⟨tpRank, 1, replicas⟩
  else do
    let numKvHeads ← divide totalNumKvHeads tpSize
    .ok ⟨tpRank, numKvHeads, 1⟩

/-- `shard_id` of `weight_loader` for the keys and the values. -/
def shardId (linear : QKVParallelLinear) : Nat := linear.tpRank / linear.numKvHeadReplicas

/-- The KV head of the model whose weights are loaded for head `j` of the rank: a shard has the
rows of `num_kv_heads` heads. -/
def loadedHead (linear : QKVParallelLinear) (j : Nat) : Nat :=
  linear.shardId * linear.numKvHeads + j

end QKVParallelLinear

/-- The KV heads of the attention layer on a rank (`layer.tp_k_head_num`). -/
def tpKHeadNum (totalNumKvHeads tpSize : Nat) : Nat := max 1 (totalNumKvHeads / tpSize)

def backendPlan (cfg : HeadClassConfig) (hcIdx tpSize attnTpRank : Nat) :
    Except PyError LayerMaskPlan :=
  let tpKHeads := tpKHeadNum cfg.numKvHeads tpSize
  buildLayerMaskPlan cfg hcIdx (attnTpRank * tpKHeads) (some tpKHeads)

def LayerMaskPlan.sinkOf (plan : LayerMaskPlan) (h : Fin plan.heads) : Nat :=
  (plan.sinkKeep h).count true

/-- Every KV head of the rank has in the plan the type, window and sink of the head of the model
whose weights it has. -/
def PlanFollowsShard (cfg : HeadClassConfig) (layer tpSize rank : Nat) : Prop :=
  ∃ plan linear, backendPlan cfg layer tpSize rank = .ok plan ∧
    QKVParallelLinear.init cfg.numKvHeads rank tpSize = .ok linear ∧
    ∀ j < linear.numKvHeads, ∃ (h : Fin plan.heads) (strat : HeadStrategy), h.val = j ∧
      cfg.getStrategy layer (linear.loadedHead j) = .ok strat ∧
      plan.typeCodes h = strat.headType ∧ plan.window h = strat.window ∧
      plan.sinkOf h = strat.sinkSize.toNat

theorem count_lt_range (n : Nat) (bound : Int) (small : bound ≤ n) :
    ((range n).map fun col : Nat => decide ((col : Int) < bound)).count true = bound.toNat := by
  rw [count_eq_countP, countP_map]
  have split : range n = range bound.toNat ++ (range (n - bound.toNat)).map (bound.toNat + ·) := by
    rw [← range_add]
    congr 1
    omega
  have below : ∀ col ∈ range bound.toNat,
      ((· == true) ∘ fun col : Nat => decide ((col : Int) < bound)) col := by
    intro col member
    have := mem_range.mp member
    simp only [comp, beq_true, decide_eq_true_eq]
    omega
  have above : ∀ col ∈ (range (n - bound.toNat)).map (bound.toNat + ·),
      ¬ ((· == true) ∘ fun col : Nat => decide ((col : Int) < bound)) col := by
    intro col member
    obtain ⟨i, -, rfl⟩ := mem_map.mp member
    simp only [comp, beq_true, decide_eq_true_eq]
    omega
  rw [split, countP_append, countP_eq_length.mpr below,
    countP_eq_zero.mpr above, length_range, Nat.add_zero]

theorem sinkOf_ofStrategies (row : List HeadStrategy) (h : Fin row.length) :
    (LayerMaskPlan.ofStrategies row).sinkOf h = (row.get h).sinkSize.toNat :=
  count_lt_range _ _ (sinkSize_le_sinkMaxOf (get_mem row h))

section Ranks

variable {K T r : Nat}

theorem planFollowsShard_of_shard {cfg : HeadClassConfig} {layer : Nat}
    {linear : QKVParallelLinear} (complete : ∃ tensors, cfg.asTensors = .ok tensors)
    (inside : layer < cfg.numLayers)
    (loads : QKVParallelLinear.init cfg.numKvHeads r T = .ok linear)
    (heads : linear.numKvHeads = tpKHeadNum cfg.numKvHeads T)
    (shard : linear.shardId = r)
    (held : (r + 1) * tpKHeadNum cfg.numKvHeads T ≤ cfg.numKvHeads) :
    PlanFollowsShard cfg layer T r := by
  obtain ⟨plan, built⟩ := buildLayerMaskPlan_ok (r * tpKHeadNum cfg.numKvHeads T)
    (some (tpKHeadNum cfg.numKvHeads T)) complete inside
  obtain ⟨row, rfl, strategies, width⟩ := buildLayerMaskPlan_spec built
  refine ⟨_, linear, built, loads, fun j small => ?_⟩
  have enough : j < row.length := by
    simp only [sliceCount] at width
    rw [succ_mul] at held
    omega
  have there := getElem?_eq_getElem enough
  refine ⟨⟨j, enough⟩, row[j], rfl, ?_, rfl, rfl, sinkOf_ofStrategies row ⟨j, enough⟩⟩
  unfold loadedHead
  rw [shard, heads]
  exact strategies.strategy j _ there

def oddHead (K odd : Nat) : HeadClassConfig :=
  .oneLayer ((range K).map fun h : Nat =>
    (if h = odd then .headGlobal else .headLocal, 1, 4)) 0

@[simp] theorem oddHead_heads (K odd : Nat) : (oddHead K odd).numKvHeads = K := by
  simp [oddHead, oneLayer]

theorem oddHead_strategy {o h : Nat} (inside : h < K) : ∃ window, (oddHead K o).getStrategy 0 h =
      .ok ⟨0, h, if h = o then .headGlobal else .headLocal, window, 4⟩ := by
  have listed : ((range K).map fun h : Nat =>
      ((if h = o then .headGlobal else .headLocal : HeadType), (1 : Int), (4 : Int)))[h]? =
        some (if h = o then .headGlobal else .headLocal, 1, 4) := by
    simp [inside]
  exact ⟨_, oneLayer_strategy listed⟩

theorem oddHead_complete (odd : Nat) : ∃ tensors, (oddHead K odd).asTensors = .ok tensors := by
  apply asTensors_returns
  intro li one_layer kvh inside
  cases lt_one_iff.mp one_layer
  rw [oddHead_heads] at inside
  obtain ⟨window, strategy⟩ := oddHead_strategy inside
  exact ⟨_, strategy⟩

theorem not_planFollowsShard (positive : 0 < K) (divides : K ∣ T) (more : K < T) (later : 0 < r) :
    ¬ PlanFollowsShard (oddHead K r) 0 T r := by
  rintro ⟨plan, linear, built, loads, follows⟩
  have shard : linear = ⟨r, 1, T / K⟩ := by
    rw [oddHead_heads] at loads
    unfold QKVParallelLinear.init at loads
    rw [if_pos more.le, divide_eq divides] at loads
    cases loads
    rfl
  subst shard
  have one_head : tpKHeadNum K T = 1 := by
    have none : K / T = 0 := div_eq_of_lt more
    simp [tpKHeadNum, none]
  simp only [backendPlan, oddHead_heads, one_head, Nat.mul_one] at built
  obtain ⟨row, rfl, entries, width⟩ := buildLayerMaskPlan_spec built
  obtain ⟨⟨_, in_row⟩, strat, rfl, strategy, same_type, -, -⟩ := follows 0 Nat.one_pos
  change 0 < row.length at in_row
  have inside : r < K := by
    simp only [sliceCount, oddHead_heads] at width
    omega
  have at_h := entries.strategy 0 _ (getElem?_eq_getElem in_row)
  simp only [sliceStart, Nat.add_zero] at at_h
  obtain ⟨window, own⟩ := oddHead_strategy (o := r) inside
  rw [own] at at_h
  have replicas : 1 < T / K := by
    obtain ⟨m, rfl⟩ := divides
    rw [Nat.mul_div_cancel_left m positive]
    by_contra few
    have : K * m ≤ K * 1 := Nat.mul_le_mul_left K (by omega)
    omega
  have earlier : r / (T / K) < r := Nat.div_lt_self later replicas
  obtain ⟨window', loaded⟩ := oddHead_strategy (o := r) (earlier.trans inside)
  simp only [loadedHead, shardId, Nat.mul_one, Nat.add_zero] at strategy
  rw [loaded] at strategy
  cases strategy
  have head_type : row[0].headType = .headGlobal := by
    rw [← Except.ok.inj at_h]
    exact if_pos rfl
  have type_of_plan : row[0].headType = .headLocal := same_type.trans (if_neg earlier.ne)
  rw [head_type] at type_of_plan
  cases type_of_plan

/-- The plan slice of a rank is the plan of its heads exactly when the KV heads are not replicated
or the rank is the first. -/
theorem planFollowsShard_iff (K T r : Nat) (heads : 0 < K) (ranks : 0 < T) (rank : r < T)
    (divides : T ∣ K ∨ K ∣ T) :
    (∀ (cfg : HeadClassConfig) (layer : Nat), cfg.numKvHeads = K → layer < cfg.numLayers →
      (∃ tensors, cfg.asTensors = .ok tensors) → PlanFollowsShard cfg layer T r) ↔
    T ≤ K ∨ r = 0 := by
  constructor
  · intro follows
    by_contra neither
    push Not at neither
    have more : K ∣ T := by
      rcases divides with small | large
      · exact absurd (le_of_dvd heads small) (by omega)
      · exact large
    exact not_planFollowsShard heads more neither.1 (by omega)
      (follows (oddHead K r) 0 (oddHead_heads K r) Nat.one_pos (oddHead_complete r))
  · rintro condition cfg layer rfl inside complete
    rcases Nat.lt_or_ge T cfg.numKvHeads with fewer | replicated
    · have split : T ∣ cfg.numKvHeads := by
        rcases divides with small | large
        · exact small
        · exact absurd (le_of_dvd ranks large) (by omega)
      have loads : QKVParallelLinear.init cfg.numKvHeads r T =
          .ok ⟨r, cfg.numKvHeads / T, 1⟩ := by
        unfold QKVParallelLinear.init
        rw [if_neg (by omega), divide_eq split]
        rfl
      have some_heads : 1 ≤ cfg.numKvHeads / T := Nat.div_pos fewer.le ranks
      have count : tpKHeadNum cfg.numKvHeads T = cfg.numKvHeads / T := Nat.max_eq_right some_heads
      refine planFollowsShard_of_shard complete inside loads count.symm (Nat.div_one r) ?_
      rw [count]
      calc (r + 1) * (cfg.numKvHeads / T)
          ≤ T * (cfg.numKvHeads / T) := Nat.mul_le_mul_right _ rank
        _ = cfg.numKvHeads := Nat.mul_div_cancel' split
    · have whole : cfg.numKvHeads ∣ T := by
        rcases divides with small | large
        · exact (Nat.le_antisymm (le_of_dvd heads small) replicated) ▸ Nat.dvd_refl _
        · exact large
      have loads : QKVParallelLinear.init cfg.numKvHeads r T =
          .ok ⟨r, 1, T / cfg.numKvHeads⟩ := by
        unfold QKVParallelLinear.init
        rw [if_pos replicated, divide_eq whole]
        rfl
      have count : tpKHeadNum cfg.numKvHeads T = 1 := by
        have few : cfg.numKvHeads / T ≤ 1 := by
          calc cfg.numKvHeads / T ≤ T / T := Nat.div_le_div_right replicated
            _ = 1 := Nat.div_self ranks
        exact Nat.max_eq_left few
      refine planFollowsShard_of_shard complete inside loads count.symm ?_ ?_
      · -- either nothing is replicated or the rank is 0
        rcases condition with equal | rfl
        · have : cfg.numKvHeads = T := by omega
          simp [shardId, this, Nat.div_self ranks]
        · simp [shardId]
      · rw [count]
        rcases condition with equal | rfl <;> omega

theorem rank_of_split_heads : PlanFollowsShard (oddHead 8 2) 0 4 1 :=
  (planFollowsShard_iff 8 4 1 (by decide) (by decide) (by decide) (by decide)).mpr
    (by decide) (oddHead 8 2) 0 (oddHead_heads 8 2) (by decide) (oddHead_complete 2)

/-- Two heads on four ranks: rank 1 holds the weights of the local head 0 and takes the entry of
the global head 1. -/
theorem replicated_rank_takes_next_head : (backendPlan (oddHead 2 1) 0 4 1).map (fun plan =>
      (finRange plan.heads).map plan.typeCodes) = .ok [.headGlobal] ∧
    (QKVParallelLinear.init 2 1 4).map (fun linear => linear.loadedHead 0) = .ok 0 ∧
    ((oddHead 2 1).getStrategy 0 0).map headType = .ok .headLocal ∧
    ¬ PlanFollowsShard (oddHead 2 1) 0 4 1 := by
  have plan : (backendPlan (oddHead 2 1) 0 4 1).map (fun plan =>
      (finRange plan.heads).map plan.typeCodes) = .ok [.headGlobal] := by decide +kernel
  have loaded : (QKVParallelLinear.init 2 1 4).map (fun linear => linear.loadedHead 0) =
      .ok 0 := by decide +kernel
  have own : ((oddHead 2 1).getStrategy 0 0).map headType = .ok .headLocal := by
    decide +kernel
  exact ⟨plan, loaded, own, not_planFollowsShard (by decide) (by decide) (by decide) (by decide)⟩

end Ranks

end RedKnot.HeadClass
