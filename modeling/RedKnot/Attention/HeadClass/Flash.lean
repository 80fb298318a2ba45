import RedKnot.Attention.HeadClass.MaskPlan

/-! Per-head attention over segments (`redknot/ops_flash.py`). Calls merged by their log-sum-exp are
one softmax over the keys of both, so the model keeps the list of keys. -/

namespace RedKnot.HeadClass

open Function List Nat Option KVTensor

variable {Q κ κ' : Type} {m n : Nat}

/-- The keys that query `i` of `lq` sees in one call of `flash_attn_func`: the masks are aligned to
the last key, and a negative bound of the window is none. -/
def faKeys (lq : Nat) (causal : Bool) (windowSize : Int × Int) (keys : List κ) (i : Nat) : List κ :=
  let diagonal : Int := i + keys.length - lq
  (keys.zipIdx.filter fun e =>
    (!causal || decide ((e.2 : Int) ≤ diagonal)) &&
    (decide (windowSize.1 < 0) || decide (diagonal - windowSize.1 ≤ e.2)) &&
    (decide (windowSize.2 < 0) || decide ((e.2 : Int) ≤ diagonal + windowSize.2))).map Prod.fst

/-- Pass A over the parts that every query sees, pass B over `self`, merged. Without parts there is
only pass B. -/
def twoPass (lq : Nat) (parts : List (KVTensor κ m)) (self : KVTensor κ m)
    (windowSize : Int × Int) (h : Fin m) (i : Nat) : List κ :=
  let own := faKeys lq true windowSize (self.rows h) i
  match parts with
  | [] => own
  | parts => faKeys lq false (-1, -1) ((catAll parts).rows h) i ++ own

def sinkPart (sink : Option (KVTensor κ m)) : List (KVTensor κ m) :=
  match sink with
  | some sink => if 0 < sink.len then [sink] else []
  | none => []

def attnLocalFlash (lq : Nat) (sink : Option (KVTensor κ m)) (self : KVTensor κ m)
    (prev : Option (KVTensor κ m)) (window : Nat) : Fin m → Nat → List κ :=
  let tailPart : List (KVTensor κ m) :=
    match prev with
    | some prev =>
      let tail := min window prev.len
      if 0 < tail then [prev.drop (prev.len - tail)] else []
    | none => []
  twoPass lq (sinkPart sink ++ tailPart) self (window, 0)

def attnGlobalDenseFlash (lq : Nat) (sink : Option (KVTensor κ m)) (self : KVTensor κ m)
    (prev : Option (KVTensor κ m)) : Fin m → Nat → List κ :=
  let prevPart : List (KVTensor κ m) :=
    match prev with
    | some prev => if 0 < prev.len then [prev] else []
    | none => []
  twoPass lq (sinkPart sink ++ prevPart) self (-1, -1)

/-- What the scores of a retrieval bucket choose: `P_keep` positions of the previous rows for every
head. -/
structure TopP (n : Nat) where
  keep : Nat
  index : Fin n → Fin keep → Nat

/-- `torch.gather` of the chosen rows. -/
def KVTensor.gather [Zero κ] (t : KVTensor κ n) (top : TopP n) : KVTensor κ n where
  len := top.keep
  rows h := ofFn fun j => (t.rows h).getD (top.index h j) 0
  sized _ := length_ofFn

def TopP.indexSelect (top : TopP n) (idx : List (Fin n)) : TopP idx.length where
  keep := top.keep
  index j := top.index (idx.get j)

/-- The arguments of `segment_attention_flash` that say which keys there are. -/
structure SegmentCall (κ : Type) (plan : LayerMaskPlan) where
  lq : Nat
  self : KVTensor κ plan.heads
  prev : Option (KVTensor κ plan.heads)
  sink : Option (KVTensor κ plan.heads)
  numQPerKv : Nat
  topP : TopP plan.heads

open SegmentCall

variable {plan : LayerMaskPlan} [Zero κ] [Zero κ']

/-- The window of the local bucket: the largest of its heads, or all of `self` when that is not
positive. -/
def bucketWindow (plan : LayerMaskPlan) (idx : List (Fin plan.heads)) (selfLen : Nat) : Nat :=
  let w := (idx.map plan.window).max?.getD 0
  if w ≤ 0 then selfLen else w.toNat

namespace SegmentCall

def bucket (c : SegmentCall κ plan) (code : HeadType) (idx : List (Fin plan.heads)) :
    Fin idx.length → Nat → List κ :=
  let self := c.self.indexSelect idx
  let prev := c.prev.map fun prev => prev.indexSelect idx
  let sink := c.sink.map fun sink => sink.indexSelect idx
  match code with
  | .headLocal => attnLocalFlash c.lq sink self prev (bucketWindow plan idx self.len)
  | .headGlobal => attnGlobalDenseFlash c.lq sink self prev
  | .headDense => attnGlobalDenseFlash c.lq sink self prev
  | .headRetrieval =>
    match prev with
    | some prev =>
      if prev.len = 0 then attnGlobalDenseFlash c.lq sink self none
      else attnGlobalDenseFlash c.lq sink self (some (prev.gather (c.topP.indexSelect idx)))
    | none => attnGlobalDenseFlash c.lq sink self none

/-- The rows of a bucket, every query with its keys: of the query heads `q.index_select(1, qh_idx)`,
`flash_attn_func` gives each `num_q_per_kv` in a row one KV head. -/
def bucketRows (c : SegmentCall κ plan) (q : Nat → Nat → Q) (code : HeadType)
    (idx : List (Fin plan.heads)) : List (List (Q × List κ)) :=
  zipWith (fun (query : Nat → Q) j => (range c.lq).map fun i => (query i, c.bucket code idx j i))
    ((qHeadIndices idx c.numQPerKv).map q) ((finRange idx.length).flatMap (replicate c.numQPerKv))

end SegmentCall

/-- `out.index_copy_(1, idx, rows)`. -/
def indexCopy {α : Type} (out : Nat → Option α) (idx : List Nat) (rows : List α) : Nat → Option α :=
  (idx.zip rows).foldl (fun out e => update out e.1 (some e.2)) out

/-- `segment_attention_flash` of the queries `q`, by query head and row: every query with its keys;
`none` is a head of `out` that was never written. -/
def segmentAttentionFlash (c : SegmentCall κ plan) (q : Nat → Nat → Q) :
    Nat → Option (List (Q × List κ)) :=
  (groupHeadsByType plan).foldl (fun out group =>
    indexCopy out (qHeadIndices group.2 c.numQPerKv) (c.bucketRows q group.1 group.2)) fun _ => none

def keysRead (c : SegmentCall κ plan) (qh i : Nat) : Option (List κ) :=
  (segmentAttentionFlash c (fun _ _ => ()) qh).bind fun rows => rows[i]?.map Prod.snd

namespace SegmentCall

def sinkRows (c : SegmentCall κ plan) (h : Fin plan.heads) : List κ :=
  match c.sink with
  | some sink => sink.rows h
  | none => []

def prevRows (c : SegmentCall κ plan) (h : Fin plan.heads) : List κ :=
  match c.prev with
  | some prev => prev.rows h
  | none => []

def localWindow (c : SegmentCall κ plan) : Nat :=
  bucketWindow plan (plan.headsOf .headLocal) c.self.len

def prevRead (c : SegmentCall κ plan) (h : Fin plan.heads) : List κ :=
  match plan.typeCodes h with
  | .headLocal => (c.prevRows h).drop ((c.prevRows h).length - c.localWindow)
  | .headGlobal => c.prevRows h
  | .headDense => c.prevRows h
  | .headRetrieval =>
    if c.prevRows h = [] then []
    else ofFn fun j => (c.prevRows h).getD (c.topP.index h j) 0

def selfWindow (c : SegmentCall κ plan) (h : Fin plan.heads) : Int × Int :=
  match plan.typeCodes h with
  | .headLocal => (c.localWindow, 0)
  | _ => (-1, -1)

def headKeys (c : SegmentCall κ plan) (h : Fin plan.heads) (i : Nat) : List κ :=
  c.sinkRows h ++ c.prevRead h ++ faKeys c.lq true (c.selfWindow h) (c.self.rows h) i

end SegmentCall

section Keys

omit [Zero κ]

theorem faKeys_all (lq : Nat) (keys : List κ) (i : Nat) :
    faKeys lq false (-1, -1) keys i = keys := by
  simp [faKeys, zipIdx_map_fst]

theorem twoPass_eq (lq : Nat) (parts : List (KVTensor κ m)) (self : KVTensor κ m)
    (windowSize : Int × Int) (h : Fin m) (i : Nat) :
    twoPass lq parts self windowSize h i =
      (parts.flatMap fun part => part.rows h) ++ faKeys lq true windowSize (self.rows h) i := by
  cases parts with
  | nil => rfl
  | cons part parts =>
    simp only [twoPass, faKeys_all]
    rfl

theorem sinkPart_rows (sink : Option (KVTensor κ m)) (h : Fin m) :
    ((sinkPart sink).flatMap fun part => part.rows h) = (sink.map fun s => s.rows h).getD [] := by
  cases sink with
  | none => rfl
  | some sink =>
    have sized := sink.sized h
    rcases Nat.eq_zero_or_pos sink.len with empty | some_rows
    · simp [sinkPart, empty, eq_nil_of_length_eq_zero (sized.trans empty)]
    · simp [sinkPart, some_rows]

section

variable (lq : Nat) (sink : Option (KVTensor κ m)) (self : KVTensor κ m)
  (prev : Option (KVTensor κ m))

theorem attnLocalFlash_eq (window : Nat) (h : Fin m) (i : Nat) :
    attnLocalFlash lq sink self prev window h i =
      (sink.map fun s => s.rows h).getD [] ++
        (let rows := (prev.map fun p => p.rows h).getD []
         rows.drop (rows.length - window)) ++
        faKeys lq true (window, 0) (self.rows h) i := by
  unfold attnLocalFlash
  rw [twoPass_eq, flatMap_append, sinkPart_rows]
  congr 2
  cases prev with
  | none => simp
  | some prev =>
    have sized := prev.sized h
    simp only [map_some, getD_some, sized]
    rcases Nat.eq_zero_or_pos (min window prev.len) with empty | some_rows
    · have all_dropped : (prev.rows h).length ≤ prev.len - window := by omega
      simp [empty, drop_of_length_le all_dropped]
    · have same : prev.len - min window prev.len = prev.len - window := by omega
      simp [some_rows, KVTensor.drop, same]

theorem attnGlobalDenseFlash_eq (h : Fin m) (i : Nat) : attnGlobalDenseFlash lq sink self prev h i =
      (sink.map fun s => s.rows h).getD [] ++ (prev.map fun p => p.rows h).getD [] ++
        faKeys lq true (-1, -1) (self.rows h) i := by
  unfold attnGlobalDenseFlash
  rw [twoPass_eq, flatMap_append, sinkPart_rows]
  congr 2
  -- previous rows and sinks are taken up alike
  exact sinkPart_rows prev h

end

end Keys

theorem typeCodes_of_mem {code : HeadType} {h : Fin plan.heads} (member : h ∈ plan.headsOf code) :
    plan.typeCodes h = code := by
  simpa [LayerMaskPlan.headsOf] using member

omit [Zero κ] in
theorem SegmentCall.sinkRows_eq (c : SegmentCall κ plan) (h : Fin plan.heads) :
    c.sinkRows h = (c.sink.map fun sink => sink.rows h).getD [] := by
  unfold sinkRows
  cases c.sink <;> rfl

omit [Zero κ] in
theorem SegmentCall.prevRows_eq (c : SegmentCall κ plan) (h : Fin plan.heads) :
    c.prevRows h = (c.prev.map fun prev => prev.rows h).getD [] := by
  unfold prevRows
  cases c.prev <;> rfl

theorem SegmentCall.bucket_eq (c : SegmentCall κ plan) (code : HeadType)
    (j : Fin (plan.headsOf code).length) (i : Nat) :
    c.bucket code (plan.headsOf code) j i = c.headKeys ((plan.headsOf code).get j) i := by
  have type := typeCodes_of_mem (List.get_mem (plan.headsOf code) j)
  unfold headKeys prevRead selfWindow bucket
  rw [type, c.sinkRows_eq, c.prevRows_eq]
  cases code with
  | headLocal => simp [attnLocalFlash_eq, comp_def, localWindow, indexSelect]
  | headGlobal => simp [attnGlobalDenseFlash_eq, comp_def, indexSelect]
  | headDense => simp [attnGlobalDenseFlash_eq, comp_def, indexSelect]
  | headRetrieval =>
    cases given : c.prev with
    | none => simp [attnGlobalDenseFlash_eq, comp_def, indexSelect]
    | some prev =>
      have sized := prev.sized ((plan.headsOf .headRetrieval).get j)
      rcases Nat.eq_zero_or_pos prev.len with empty | some_rows
      · have none_there := eq_nil_of_length_eq_zero (sized.trans empty)
        simp only [get_eq_getElem] at none_there
        simp [attnGlobalDenseFlash_eq, comp_def, indexSelect, empty, none_there]
      · have some_there := ne_nil_of_length_pos (sized.symm ▸ some_rows)
        simp only [get_eq_getElem] at some_there
        simp [attnGlobalDenseFlash_eq, comp_def, indexSelect, some_there,
          some_rows.ne', gather, TopP.indexSelect]

theorem foldl_update_eq {α : Type} {key : Nat} {v : α} (pairs : List (Nat × α))
    (out : Nat → Option α) (agree : ∀ e ∈ pairs, e.1 = key → e.2 = v) :
    pairs.foldl (fun (out : Nat → Option α) e => update out e.1 (some e.2)) out key =
      if key ∈ pairs.map Prod.fst then some v else out key := by
  induction pairs generalizing out with
  | nil => rfl
  | cons e pairs ih =>
    rw [foldl_cons, ih _ fun e' later => agree e' (mem_cons_of_mem _ later)]
    by_cases later : key ∈ pairs.map Prod.fst
    · simp [later]
    · by_cases here : e.1 = key
      · simp [later, here, ← agree e mem_cons_self here]
      · simp [later, Ne.symm here]

theorem zipWith_flatMap {α β γ δ : Type} (f : α → β → γ) (l : List δ) {a : δ → List α}
    {b : δ → List β} (same : ∀ x, (a x).length = (b x).length) :
    zipWith f (l.flatMap a) (l.flatMap b) = l.flatMap fun x => zipWith f (a x) (b x) := by
  induction l with
  | nil => rfl
  | cons x l ih => rw [flatMap_cons, flatMap_cons, zipWith_append (same x), ih, flatMap_cons]

theorem zip_qHeadIndices {α : Type} (idx : List (Fin n)) (numQPerKv : Nat) (rows : Fin n → Nat → α) :
    (qHeadIndices idx numQPerKv).zip (idx.flatMap fun h => (range numQPerKv).map (rows h)) =
      idx.flatMap fun h => (range numQPerKv).map fun g : Nat =>
        (h.val * numQPerKv + g, rows h g) := by
  refine (zipWith_flatMap Prod.mk idx (by simp)).trans ?_
  congr 1
  funext h
  apply ext_getElem
  · simp
  · intro i in_zip in_map
    simp

section

variable (c : SegmentCall κ plan) (q : Nat → Nat → Q)

/-- The queries of a query head, each with the rows that it reads of the KV head. -/
def SegmentCall.headRows (h : Fin plan.heads) (qh : Nat) : List (Q × List κ) :=
  (range c.lq).map fun i => (q qh i, c.headKeys h i)

theorem SegmentCall.bucketRows_eq (code : HeadType) :
    c.bucketRows q code (plan.headsOf code) = (plan.headsOf code).flatMap fun h =>
      (range c.numQPerKv).map fun g : Nat => c.headRows q h (h.val * c.numQPerKv + g) := by
  have listed : qHeadIndices (plan.headsOf code) c.numQPerKv = (finRange _).flatMap fun j =>
      (range c.numQPerKv).map fun g : Nat =>
        ((plan.headsOf code).get j).val * c.numQPerKv + g := by
    conv => lhs; rw [← map_get_finRange (plan.headsOf code), qHeadIndices, flatMap_map]
  conv => rhs; rw [← map_get_finRange (plan.headsOf code), flatMap_map]
  rw [bucketRows, listed, map_flatMap, zipWith_flatMap _ _ (by simp)]
  congr 1
  funext j
  apply ext_getElem
  · simp
  · intro g in_zip in_map
    simp [c.bucket_eq, headRows]

theorem indexCopy_bucket (code : HeadType) (h : Fin plan.heads) {g : Nat}
    (small : g < c.numQPerKv) (out : Nat → Option (List (Q × List κ))) :
    indexCopy out (qHeadIndices (plan.headsOf code) c.numQPerKv)
        (c.bucketRows q code (plan.headsOf code)) (h.val * c.numQPerKv + g) =
      if plan.typeCodes h = code then some (c.headRows q h (h.val * c.numQPerKv + g))
      else out (h.val * c.numQPerKv + g) := by
  have head_of : ∀ (h' : Fin plan.heads) (g' : Nat), g' < c.numQPerKv →
      h'.val * c.numQPerKv + g' = h.val * c.numQPerKv + g → h' = h := by
    intro h' g' small' same
    have quotients := congrArg (· / c.numQPerKv) same
    simp only [Nat.mul_comm _ c.numQPerKv, mul_add_div (zero_lt_of_lt small),
      div_eq_of_lt small, div_eq_of_lt small', Nat.add_zero] at quotients
    exact Fin.ext quotients
  unfold indexCopy
  rw [c.bucketRows_eq, zip_qHeadIndices, foldl_update_eq
    (v := c.headRows q h (h.val * c.numQPerKv + g))]
  · congr 1
    simp only [List.mem_map, mem_flatMap, eq_iff_iff]
    constructor
    · rintro ⟨e, ⟨h', member, g', in_range, rfl⟩, same⟩
      have := head_of h' g' (mem_range.mp in_range) same
      exact this ▸ typeCodes_of_mem member
    · intro type
      have member : h ∈ plan.headsOf code := by simp [LayerMaskPlan.headsOf, type]
      exact ⟨_, ⟨h, member, g, mem_range.mpr small, rfl⟩, rfl⟩
  · intro e member same
    obtain ⟨h', -, in_head⟩ := mem_flatMap.mp member
    obtain ⟨g', in_range, rfl⟩ := List.mem_map.mp in_head
    dsimp only at same ⊢
    rw [same, head_of h' g' (mem_range.mp in_range) same]

theorem segmentAttentionFlash_eq (h : Fin plan.heads) {g : Nat} (small : g < c.numQPerKv) :
    segmentAttentionFlash c q (h.val * c.numQPerKv + g) =
      some (c.headRows q h (h.val * c.numQPerKv + g)) := by
  -- an empty bucket is left out, and would have copied nothing
  have grouped : ∀ (codes : List HeadType) (out : Nat → Option (List (Q × List κ))),
      (codes.filterMap fun code => if plan.headsOf code = [] then none
        else some (code, plan.headsOf code)).foldl (fun out group =>
          indexCopy out (qHeadIndices group.2 c.numQPerKv) (c.bucketRows q group.1 group.2)) out
        (h.val * c.numQPerKv + g) =
      if plan.typeCodes h ∈ codes then some (c.headRows q h (h.val * c.numQPerKv + g))
      else out (h.val * c.numQPerKv + g) := by
    intro codes
    induction codes with
    | nil => intro out; rfl
    | cons code codes ih =>
      intro out
      by_cases empty : plan.headsOf code = []
      · have other : plan.typeCodes h ≠ code := by
          intro type
          have member : h ∈ plan.headsOf code := by simp [LayerMaskPlan.headsOf, type]
          simp [empty] at member
        simp [empty, ih, other]
      · simp only [empty, if_false, filterMap_cons, foldl_cons, ih,
          indexCopy_bucket c q code h small, mem_cons]
        by_cases type : plan.typeCodes h = code
        · simp [type]
        · simp [type]
  have every : plan.typeCodes h ∈ [HeadType.headLocal, .headGlobal, .headRetrieval, .headDense] := by
    cases plan.typeCodes h <;> simp
  exact (grouped _ _).trans (if_pos every)

omit q in
theorem keysRead_eq (h : Fin plan.heads) {g i : Nat} (small : g < c.numQPerKv) (query : i < c.lq) :
    keysRead c (h.val * c.numQPerKv + g) i = some (c.headKeys h i) := by
  unfold keysRead
  rw [segmentAttentionFlash_eq c _ h small]
  simp [SegmentCall.headRows, query]

theorem groupHeadsByType_heads (plan : LayerMaskPlan) :
    ((groupHeadsByType plan).flatMap Prod.snd).Perm (finRange plan.heads) := by
  -- a bucket that is left out is empty
  have joined : ∀ codes : List HeadType,
      (codes.filterMap fun code => if plan.headsOf code = [] then none
        else some (code, plan.headsOf code)).flatMap Prod.snd = codes.flatMap plan.headsOf := by
    intro codes
    induction codes with
    | nil => rfl
    | cons code codes ih =>
      by_cases empty : plan.headsOf code = []
      · simp [empty, ih]
      · simp [empty, ih]
  unfold groupHeadsByType
  rw [joined]
  refine (perm_ext_iff_of_nodup ?_ (nodup_finRange _)).mpr fun h => ?_
  · refine nodup_flatMap.2 ⟨fun _ _ => (nodup_finRange _).filter _, ?_⟩
    have apart : ∀ code code', code ≠ code' →
        List.Disjoint (plan.headsOf code) (plan.headsOf code') := by
      intro code code' other h here there
      exact other ((typeCodes_of_mem here).symm.trans (typeCodes_of_mem there))
    exact List.Pairwise.imp (apart _ _) (by decide)
  · cases type : plan.typeCodes h <;> simp [LayerMaskPlan.headsOf, type]

theorem qHeadIndices_finRange (heads numQPerKv : Nat) :
    qHeadIndices (finRange heads) numQPerKv = range (heads * numQPerKv) := by
  have in_order : ∀ heads, (range heads).flatMap (fun h => (range numQPerKv).map
      (h * numQPerKv + ·)) = range (heads * numQPerKv) := by
    intro heads
    induction heads with
    | zero => simp
    | succ heads ih => simp [range_succ, succ_mul, range_add, ih]
  rw [← in_order, ← map_coe_finRange_eq_range (n := heads), flatMap_map]
  rfl

/-- Every query head is written by one bucket, from its own queries and the rows of its own KV
head. -/
theorem segmentAttentionFlash_dispatch :
    ((groupHeadsByType plan).flatMap Prod.snd).Perm (finRange plan.heads) ∧
    ((groupHeadsByType plan).flatMap fun group => qHeadIndices group.2 c.numQPerKv).Perm
      (range (plan.heads * c.numQPerKv)) ∧
    ∀ qh < plan.heads * c.numQPerKv, ∃ h : Fin plan.heads, h.val = qh / c.numQPerKv ∧
      segmentAttentionFlash c q qh = some ((range c.lq).map fun i => (q qh i,
        c.sinkRows h ++ c.prevRead h ++ faKeys c.lq true (c.selfWindow h) (c.self.rows h) i)) := by
  have heads := groupHeadsByType_heads plan
  refine ⟨heads, ?_, fun qh inside => ?_⟩
  · have queries := heads.flatMap_right fun h =>
      (range c.numQPerKv).map fun g : Nat => h.val * c.numQPerKv + g
    rw [flatMap_assoc] at queries
    rwa [← qHeadIndices_finRange]
  · have pos : 0 < c.numQPerKv := Nat.pos_of_lt_mul_left inside
    have head := (Nat.div_lt_iff_lt_mul pos).mpr inside
    have written := segmentAttentionFlash_eq c q ⟨_, head⟩ (mod_lt qh pos)
    rw [div_add_mod'] at written
    exact ⟨⟨_, head⟩, rfl, written⟩

end

/-- Where a row comes from. The code never looks into a row to choose the rows it moves, so a run
on labels names the rows that the run on tensors reads. -/
inductive KeyLabel where
  | padding
  | slot (j : Nat)
  | offline (segment position : Nat)
  | online (segment position : Nat)
  | own (position : Nat)
deriving DecidableEq, Repr

instance : Zero KeyLabel := ⟨.padding⟩

def SegmentCall.map (f : Fin plan.heads → κ → κ') (c : SegmentCall κ plan) : SegmentCall κ' plan where
  lq := c.lq
  self := c.self.map f
  prev := c.prev.map (KVTensor.map f)
  sink := c.sink.map (KVTensor.map f)
  numQPerKv := c.numQPerKv
  topP := c.topP

section Membership

omit [Zero κ] in
theorem faKeys_sublist (lq : Nat) (causal : Bool) (windowSize : Int × Int) (keys : List κ)
    (i : Nat) : (faKeys lq causal windowSize keys i).Sublist keys := by
  have kept : (faKeys lq causal windowSize keys i).Sublist (keys.zipIdx.map Prod.fst) :=
    filter_sublist.map Prod.fst
  rwa [zipIdx_map_fst] at kept

omit [Zero κ] [Zero κ'] in
theorem faKeys_map (f : κ → κ') (lq : Nat) (causal : Bool) (windowSize : Int × Int)
    (keys : List κ) (i : Nat) :
    faKeys lq causal windowSize (keys.map f) i = (faKeys lq causal windowSize keys i).map f := by
  simp only [faKeys, zipIdx_map, List.filter_map, List.map_map, length_map]
  rfl

theorem SegmentCall.mem_prevRead {c : SegmentCall κ plan} {h : Fin plan.heads} {k : κ}
    (member : k ∈ c.prevRead h) : k ∈ c.prevRows h ∨ k = 0 := by
  unfold prevRead at member
  cases type : plan.typeCodes h with
  | headLocal => rw [type] at member; exact .inl (mem_of_mem_drop member)
  | headGlobal | headDense => rw [type] at member; exact .inl member
  | headRetrieval =>
    simp only [type] at member
    split at member
    · cases member
    · obtain ⟨j, rfl⟩ := mem_ofFn.mp member
      rw [getD_eq_getElem?_getD]
      cases there : (c.prevRows h)[c.topP.index h j]? with
      | none => exact .inr rfl
      | some row => exact .inl (mem_of_getElem? there)

end Membership

theorem SegmentCall.headKeys_map (f : Fin plan.heads → κ → κ') (h : Fin plan.heads)
    (zero : f h 0 = 0) (c : SegmentCall κ plan) (i : Nat) :
    (c.map f).headKeys h i = (c.headKeys h i).map (f h) := by
  have sinks : (c.map f).sinkRows h = (c.sinkRows h).map (f h) := by
    unfold sinkRows map
    cases c.sink <;> rfl
  have prevs : (c.map f).prevRows h = (c.prevRows h).map (f h) := by
    unfold prevRows map
    cases c.prev <;> rfl
  have read : (c.map f).prevRead h = (c.prevRead h).map (f h) := by
    unfold prevRead
    rw [prevs]
    cases plan.typeCodes h with
    | headLocal => simp [map_drop, localWindow, map, KVTensor.map]
    | headGlobal => rfl
    | headDense => rfl
    | headRetrieval =>
      by_cases empty : c.prevRows h = []
      · simp [empty]
      · simp only [map_eq_nil_iff, empty, if_false, map_ofFn]
        congr 1
        funext j
        simp only [comp, getD_eq_getElem?_getD, getElem?_map]
        change (Option.map (f h) (c.prevRows h)[c.topP.index h j]?).getD 0 =
          f h (((c.prevRows h)[c.topP.index h j]?).getD 0)
        cases (c.prevRows h)[c.topP.index h j]? with
        | none => exact zero.symm
        | some row => rfl
  unfold headKeys
  rw [sinks, read, map_append, map_append, ← faKeys_map]
  rfl

def KeyLabel.slot? : KeyLabel → Option Nat
  | .slot j => some j
  | _ => none

def SegmentCall.numberSlots (c : SegmentCall κ plan) : SegmentCall KeyLabel plan where
  lq := c.lq
  self := c.self.map fun _ _ => .padding
  prev := c.prev.map (KVTensor.map fun _ _ => .padding)
  sink := c.sink.map fun sink => ⟨sink.len, fun _ => (range sink.len).map .slot, by simp⟩
  numQPerKv := c.numQPerKv
  topP := c.topP

def SegmentCall.sinkSlots (c : SegmentCall κ plan) (qh i : Nat) : Option (List Nat) :=
  (keysRead c.numberSlots qh i).map (filterMap KeyLabel.slot?)

/-- The slots that a KV head owns, in a first segment of `len` tokens. -/
def ownedSlots (plan : LayerMaskPlan) (h : Fin plan.heads) (len : Nat) : List Nat :=
  (range plan.sinkMax).filter fun j =>
    decide ((plan.sinkKeep h)[j]? = some true) && decide (j < len)

omit [Zero κ] in
theorem sinkSlots_eq (c : SegmentCall κ plan) {sink : KVTensor κ plan.heads}
    (given : c.sink = some sink) (h : Fin plan.heads) {g i : Nat} (small : g < c.numQPerKv)
    (query : i < c.lq) :
    c.sinkSlots (h.val * c.numQPerKv + g) i = some (range sink.len) := by
  have blank : ∀ k ∈ c.numberSlots.prevRead h, k.slot? = none := by
    intro k member
    rcases mem_prevRead member with row | rfl
    · unfold prevRows numberSlots at row
      cases prev : c.prev with
      | none => simp [prev] at row
      | some prev' =>
        simp only [prev, map_some, KVTensor.map, List.mem_map] at row
        obtain ⟨-, -, rfl⟩ := row
        rfl
    · rfl
  have self_blank : ∀ k ∈ faKeys c.numberSlots.lq true (c.numberSlots.selfWindow h)
      (c.numberSlots.self.rows h) i, k.slot? = none := by
    intro k member
    obtain ⟨-, -, rfl⟩ := List.mem_map.mp ((faKeys_sublist _ _ _ _ _).subset member)
    rfl
  have slots : c.numberSlots.sinkRows h = (range sink.len).map .slot := by
    simp only [sinkRows, numberSlots, given, map_some]
  have read : keysRead c.numberSlots (h.val * c.numQPerKv + g) i = _ :=
    keysRead_eq c.numberSlots h small query
  unfold sinkSlots
  rw [read]
  unfold headKeys
  rw [map_some, filterMap_append, filterMap_append, slots,
    filterMap_eq_nil_iff.mpr blank, filterMap_eq_nil_iff.mpr self_blank,
    filterMap_map]
  simp [comp_def, KeyLabel.slot?]

theorem ownedSlots_all_iff (row : List HeadStrategy) (h : Fin row.length) (len : Nat) :
    ownedSlots (.ofStrategies row) h len = range (sinkMaxOf row) ↔
      sinkMaxOf row = 0 ∨ ((row.get h).sinkSize = sinkMaxOf row ∧ sinkMaxOf row ≤ len) := by
  have bound := sinkSize_le_sinkMaxOf (List.get_mem row h)
  have owned : ownedSlots (.ofStrategies row) h len = range (sinkMaxOf row) ↔
      ∀ j < sinkMaxOf row, (j : Int) < (row.get h).sinkSize ∧ j < len := by
    refine filter_eq_self.trans ?_
    simp only [Bool.and_eq_true, decide_eq_true_eq, sinkKeep_ofStrategies, mem_range]
    rfl
  rw [owned]
  constructor
  · intro all
    rcases Nat.eq_zero_or_pos (sinkMaxOf row) with none | some_slots
    · exact .inl none
    · have last := all (sinkMaxOf row - 1) (by omega)
      exact .inr ⟨by omega, by omega⟩
  · rintro (none | ⟨largest, long⟩) j slot
    · omega
    · exact ⟨by omega, by omega⟩

/-- A query head attends to its own slots exactly when the layer has no sinks, or its KV head has
the largest sink and the first segment is as long as that. -/
theorem sinkSlots_owned_iff {cfg : HeadClassConfig} {layer start : Nat} {count : Option Nat}
    (built : buildLayerMaskPlan cfg layer start count = .ok plan)
    (first : KVTensor κ plan.heads) (c : SegmentCall κ plan)
    (sinks : c.sink = some (padPerHeadSinks plan first)) (h : Fin plan.heads) (g i : Nat)
    (small : g < c.numQPerKv) (query : i < c.lq) (strat : HeadStrategy)
    (strategy : cfg.getStrategy layer (sliceStart start count + h.val) = .ok strat) :
    c.sinkSlots (h.val * c.numQPerKv + g) i = some (ownedSlots plan h first.len) ↔
      plan.sinkMax = 0 ∨ (strat.sinkSize = plan.sinkMax ∧ plan.sinkMax ≤ first.len) := by
  rw [sinkSlots_eq c sinks h small query, padPerHeadSinks_len, some_inj, eq_comm]
  obtain ⟨row, rfl, entries, -⟩ := buildLayerMaskPlan_spec built
  have listed := entries.strategy h.val _ (getElem?_eq_getElem h.isLt)
  rw [strategy] at listed
  cases listed
  exact ownedSlots_all_iff row h first.len

def unevenSinks : HeadClassConfig :=
  .oneLayer [(.headGlobal, -1, 1), (.headGlobal, -1, 2)] 0

def unevenPlan : LayerMaskPlan :=
  .ofStrategies [⟨0, 0, .headGlobal, -1, 1⟩, ⟨0, 1, .headGlobal, -1, 2⟩]

theorem unevenPlan_built : buildLayerMaskPlan unevenSinks 0 0 none = .ok unevenPlan := rfl

def twoTokens : KVTensor Nat unevenPlan.heads := ⟨2, fun _ => [5, 6], fun _ => rfl⟩

def unevenCall : SegmentCall Nat unevenPlan where
  lq := 1
  self := ⟨1, fun _ => [7], fun _ => rfl⟩
  prev := none
  sink := some (padPerHeadSinks unevenPlan twoTokens)
  numQPerKv := 1
  topP := ⟨0, fun _ j => j.elim0⟩

theorem larger_sink_reads_owned :
    unevenCall.sinkSlots 1 0 = some (ownedSlots unevenPlan ⟨1, by decide⟩ 2) :=
  (sinkSlots_owned_iff unevenPlan_built twoTokens unevenCall rfl ⟨1, by decide⟩ 0 0 (by decide)
    (by decide) ⟨0, 1, .headGlobal, -1, 2⟩ (by decide +kernel)).mpr (by decide +kernel)

/-- The head with the smaller sink reads a slot past its own. -/
theorem smaller_sink_reads_past_owned :
    unevenCall.sinkSlots 0 0 = some [0, 1] ∧ ownedSlots unevenPlan ⟨0, by decide⟩ 2 = [0] := by
  decide +kernel

end RedKnot.HeadClass
