import RedKnot.Lib.ForLoop
import RedKnot.Lib.Softmax
import RedKnot.Python

/-! SegPaged v2 (`segpaged_v2/`). A tensor `[n, head_dim]` is a list of rows over an exact field; a
row of the result is `none` where it is not a number. -/

namespace RedKnot.SegPaged

open Function List

inductive Policy where
  | policyGlobal
  | policyLocal
  | policyCustom
deriving DecidableEq, Repr

structure HeadVisiblePlan where
  policy : Policy
  positions : List Int
  seqLen : Nat
deriving DecidableEq, Repr

/-- `torch.arange(start, stop)` with `start ≤ stop`. -/
def arange (start stop : Int) : List Int :=
  (range (stop - start).toNat).map fun i : Nat => start + i

/-- `torch.unique(pos, sorted=True)`. -/
def unique (pos : List Int) : List Int := pos.dedup.insertionSort (· ≤ ·)

def globalPlan (seqLen : Nat) : HeadVisiblePlan :=
  ⟨.policyGlobal, arange 0 seqLen, seqLen⟩

def localPlan (seqLen : Nat) (sink recent : Int) : HeadVisiblePlan :=
  let sink := max 0 (min sink seqLen)
  let recent := max 0 (min recent seqLen)
  let tailStart := max sink (seqLen - recent)
  let sinkIdx := arange 0 sink
  let tailIdx := arange tailStart seqLen
  let pos :=
    if sinkIdx.length = 0 then tailIdx
    else if tailIdx.length = 0 then sinkIdx
    else sinkIdx ++ tailIdx
  ⟨.policyLocal, pos, seqLen⟩

def customPlan (seqLen : Nat) (positions : List Int) : HeadVisiblePlan :=
  let pos :=
    if 0 < positions.length then
      unique (positions.filter fun p => decide (0 ≤ p) && decide (p < seqLen))
    else positions
  ⟨.policyCustom, pos, seqLen⟩

abbrev Row (K : Type) (D : Nat) := Fin D → K

/-- A tensor `[H, L, D]`. -/
structure HeadTensor (K : Type) (H L D : Nat) where
  heads : List (List (Row K D))
  length_heads : heads.length = H
  length_head : ∀ head ∈ heads, head.length = L

/-- `index_select(0, pos)`: no negative index, none past the end. -/
def indexSelect {α : Type} (rows : List α) (pos : List Int) : Except PyError (List α) :=
  pos.mapM fun p => if p < 0 then .error .indexError else pyGet rows p.toNat

/-- `out[i] = value`. -/
def pySet {α : Type} (out : List α) (i : Nat) (value : α) : Except PyError (List α) :=
  if i < out.length then .ok (out.set i value) else .error .indexError

/-- `torch.cat` along the rows. -/
def cat {α : Type} (parts : List (List α)) : Except PyError (List α) :=
  if parts = [] then .error (.runtimeError "torch.cat(): expected a non-empty list of Tensors")
  else .ok parts.flatten

variable {K : Type} [Field K] [LinearOrder K] {D : Nat}

structure LocalPagedPool (K : Type) (D : Nat) where
  pageSize : Nat
  kPages : List (List (Row K D))
  vPages : List (List (Row K D))
  virtToPhys : Nat → Option Nat
  nextVirt : Nat
  nextPhys : Nat

namespace LocalPagedPool

def new (K : Type) (D pageSize : Nat) : LocalPagedPool K D := ⟨pageSize, [], [], fun _ => none, 0, 0⟩

/-- One turn of the loop of `alloc_pages`. -/
def allocPage (pool : LocalPagedPool K D) : LocalPagedPool K D :=
  { pool with
    nextVirt := pool.nextVirt + 1
    nextPhys := pool.nextPhys + 1
    virtToPhys := update pool.virtToPhys pool.nextVirt (some pool.nextPhys)
    kPages := pool.kPages ++ [replicate pool.pageSize 0]
    vPages := pool.vPages ++ [replicate pool.pageSize 0] }

def allocPages : Nat → LocalPagedPool K D → LocalPagedPool K D × List Nat
  | 0, pool => (pool, [])
  | n + 1, pool =>
    let (pool, virtIds) := allocPages n pool
    (pool.allocPage, virtIds ++ [pool.nextVirt])

/-- `_virt_to_phys[virt_id]`. -/
def physOf (pool : LocalPagedPool K D) (virtId : Nat) : Except PyError Nat :=
  match pool.virtToPhys virtId with
  | some phys => .ok phys
  | none => .error .keyError

/-- `k` and `v` have the same number of rows. -/
def writePage (pool : LocalPagedPool K D) (virtId : Nat) (k v : List (Row K D)) :
    Except PyError (LocalPagedPool K D) := do
  let n := k.length
  let pageSize := pool.pageSize
  if pageSize < n then
    throw (.valueError s!"write_page: {n} tokens exceed page_size={pageSize}")
  let phys ← pool.physOf virtId
  let kPage ← pyGet pool.kPages phys
  let vPage ← pyGet pool.vPages phys
  .ok { pool with
    kPages := pool.kPages.set phys (k ++ kPage.drop n)
    vPages := pool.vPages.set phys (v ++ vPage.drop n) }

def readPage (pool : LocalPagedPool K D) (virtId n : Nat) :
    Except PyError (List (Row K D) × List (Row K D)) := do
  let phys ← pool.physOf virtId
  let kPage ← pyGet pool.kPages phys
  let vPage ← pyGet pool.vPages phys
  .ok (kPage.take n, vPage.take n)

end LocalPagedPool

structure HeadSegment where
  layer : Nat
  head : Nat
  segment : Nat
  pageIds : List Nat
  positions : List Int

def HeadSegment.kept (seg : HeadSegment) : Nat := seg.positions.length

structure SegmentPageTable where
  segments : Nat × Nat × Nat → Option HeadSegment
  headSegments : Nat × Nat → List Nat

namespace SegmentPageTable

def empty : SegmentPageTable := ⟨fun _ => none, fun _ => []⟩

def add (table : SegmentPageTable) (seg : HeadSegment) : SegmentPageTable where
  segments := update table.segments (seg.layer, seg.head, seg.segment) (some seg)
  headSegments := update table.headSegments (seg.layer, seg.head)
    (table.headSegments (seg.layer, seg.head) ++ [seg.segment])

def get (table : SegmentPageTable) (layer head segment : Nat) : Except PyError HeadSegment :=
  match table.segments (layer, head, segment) with
  | some seg => .ok seg
  | none => .error .keyError

def segmentsOf (table : SegmentPageTable) (layer head : Nat) : Except PyError (List HeadSegment) :=
  (table.headSegments (layer, head)).mapM fun s => table.get layer head s

end SegmentPageTable

structure PagedHeadKVCache (K : Type) (D : Nat) where
  numKvHeads : Nat
  pageSize : Nat
  storage : LocalPagedPool K D
  table : SegmentPageTable

namespace PagedHeadKVCache

/-- One turn of the loop of `store_head_segment`: page `i` gets its slice of the rows. -/
def writeSlice (pageSize : Nat) (kVis vVis : List (Row K D)) (i vid : Nat)
    (pool : LocalPagedPool K D) : Except PyError (LocalPagedPool K D) :=
  let start := i * pageSize
  let stop := min (start + pageSize) kVis.length
  if start < stop then pool.writePage vid (pySlice kVis start stop) (pySlice vVis start stop)
  else .ok pool

/-- The loop of `store_head_segment` over the allocated pages, from page `i` on. -/
def writePages (pageSize : Nat) (kVis vVis : List (Row K D)) :
    Nat → List Nat → LocalPagedPool K D → Except PyError (LocalPagedPool K D)
  | _, [], pool => .ok pool
  | i, vid :: rest, pool => do
    let pool ← writeSlice pageSize kVis vVis i vid pool
    writePages pageSize kVis vVis (i + 1) rest pool

def storeHeadSegment (cache : PagedHeadKVCache K D) (layer head segment : Nat)
    (kDense vDense : List (Row K D)) (plan : HeadVisiblePlan) :
    Except PyError (PagedHeadKVCache K D × HeadSegment) := do
  let pos := plan.positions
  let kVis ← indexSelect kDense pos
  let vVis ← indexSelect vDense pos
  let n := kVis.length
  let nPages := (n + cache.pageSize - 1) / cache.pageSize
  let (pool, virtIds) := cache.storage.allocPages nPages
  let pool ← writePages cache.pageSize kVis vVis 0 virtIds pool
  let seg : HeadSegment := ⟨layer, head, segment, virtIds, pos⟩
  .ok ({ cache with storage := pool, table := cache.table.add seg }, seg)

/-- The loop of `gather_segment`, with the rows of the remaining pages appended. -/
def gatherPages (pageSize : Nat) (pool : LocalPagedPool K D) :
    List Nat → Nat → Except PyError (List (Row K D) × List (Row K D))
  | [], _ => .ok ([], [])
  | vid :: rest, remaining =>
    let take := min pageSize remaining
    if take = 0 then .ok ([], [])
    else do
      let (k, v) ← pool.readPage vid take
      let (ks, vs) ← gatherPages pageSize pool rest (remaining - take)
      .ok (k ++ ks, v ++ vs)

def gatherSegment (cache : PagedHeadKVCache K D) (seg : HeadSegment) :
    Except PyError (List (Row K D) × List (Row K D)) :=
  gatherPages cache.pageSize cache.storage seg.pageIds seg.kept

def gatherHead (cache : PagedHeadKVCache K D) (layer head : Nat) :
    Except PyError (List (Row K D) × List (Row K D)) := do
  let segs ← cache.table.segmentsOf layer head
  let parts ← segs.mapM cache.gatherSegment
  .ok ((parts.map Prod.fst).flatten, (parts.map Prod.snd).flatten)

end PagedHeadKVCache

/-- `build_paged_cache`. `storage` is the backend of the caller, if there is one. -/
def buildPagedCache {H L : Nat} (kDense vDense : HeadTensor K H L D) (plans : List HeadVisiblePlan)
    (pageSize layer : Nat) (storage : Option (LocalPagedPool K D)) :
    Except PyError (PagedHeadKVCache K D) := do
  let given := plans.length
  if given ≠ H then throw (.valueError s!"build_paged_cache: {given} plans for {H} heads")
  let storage := storage.getD (.new K D pageSize)
  forRange H (fun h cache => do
    let k ← pyGet kDense.heads h
    let v ← pyGet vDense.heads h
    let plan ← pyGet plans h
    let (cache, _) ← cache.storeHeadSegment layer h 0 k v plan
    .ok cache) ⟨H, pageSize, storage, .empty⟩

/-- The result of an attention call: `[Hq, Lq, D]`. -/
abbrev Output (K : Type) (D : Nat) := List (List (Option (Row K D)))

def zerosLike {Hq Lq : Nat} (query : HeadTensor K Hq Lq D) : Output K D :=
  query.heads.map fun head => head.map fun _ => some 0

/-- `q @ k.T * sm_scale` for one row of `q`. -/
def scores (smScale : K) (k : List (Row K D)) (q : Row K D) : List K :=
  k.map fun key => (∑ d, q d * key d) * smScale

/-- `softmax(q @ k.T * sm_scale) @ v` without a mask. -/
def attend (w : PositiveWeight K) (smScale : K) (q k v : List (Row K D)) :
    List (Option (Row K D)) :=
  q.map fun row => softmaxMean w ((scores smScale k row).map some) v

def sdpaOneHead (w : PositiveWeight K) (q k v : List (Row K D)) (smScale : K) :
    List (Option (Row K D)) :=
  if k.length = 0 then q.map fun _ => some 0 else attend w smScale q k v

structure VarlenCall (K : Type) (D : Nat) where
  q : List (Row K D)
  k : List (Row K D)
  v : List (Row K D)
  cuSeqlensQ : List Nat
  cuSeqlensK : List Nat
  maxSeqlenQ : Nat
  maxSeqlenK : Nat
  softmaxScale : K

/-- What the attention runs on: the function in the place of `exp`, the varlen kernel (its packed
output), whether it is supported, and whether the query is on its device. -/
structure Backend (K : Type) [Field K] [LinearOrder K] (D : Nat) where
  weight : PositiveWeight K
  varlen : VarlenCall K D → List (Option (Row K D))
  fusedVarlenAvailable : Bool
  queryIsCuda : Bool

structure Packing (K : Type) (D : Nat) where
  qParts : List (List (Row K D))
  kParts : List (List (Row K D))
  vParts : List (List (Row K D))
  cuQ : List Nat
  cuK : List Nat
  maxQ : Nat
  maxK : Nat

def Packing.start : Packing K D := ⟨[], [], [], [0], [0], 0, 0⟩

def Packing.push (p : Packing K D) (lq : Nat) (q k v : List (Row K D)) : Packing K D where
  qParts := p.qParts ++ [q]
  kParts := p.kParts ++ [k]
  vParts := p.vParts ++ [v]
  cuQ := p.cuQ ++ [p.cuQ.getLastD 0 + lq]
  cuK := p.cuK ++ [p.cuK.getLastD 0 + k.length]
  maxQ := max p.maxQ lq
  maxK := max p.maxK k.length

variable {Hq Lq : Nat}

def pack (query : HeadTensor K Hq Lq D) (cache : PagedHeadKVCache K D) (layer numQPerKv : Nat) :
    Except PyError (Packing K D) :=
  forRange cache.numKvHeads (fun kvH packing => do
    let (kView, vView) ← cache.gatherHead layer kvH
    forRange numQPerKv (fun g packing => do
      let q ← pyGet query.heads (kvH * numQPerKv + g)
      .ok (packing.push Lq q kView vView)) packing) .start

/-- One turn of the loop that cuts the packed output; the state is the output and `slot`. -/
def unpackHead (packedOut : List (Option (Row K D))) (cuQ : List Nat) (qh : Nat)
    (state : Output K D × Nat) : Except PyError (Output K D × Nat) := do
  let start ← pyGet cuQ state.2
  let stop ← pyGet cuQ (state.2 + 1)
  let out ← pySet state.1 qh (pySlice packedOut start stop)
  .ok (out, state.2 + 1)

def unpack (packedOut : List (Option (Row K D))) (cuQ : List Nat) (numKvHeads numQPerKv : Nat)
    (out : Output K D) : Except PyError (Output K D) := do
  let state ← forRange numKvHeads (fun kvH state =>
    forRange numQPerKv (fun g => unpackHead packedOut cuQ (kvH * numQPerKv + g)) state) (out, 0)
  .ok state.1

def fusedAttention (b : Backend K D) (query : HeadTensor K Hq Lq D) (cache : PagedHeadKVCache K D)
    (layer numQPerKv : Nat) (smScale : K) : Except PyError (Output K D) := do
  let packing ← pack query cache layer numQPerKv
  let qPacked ← cat packing.qParts
  let kPacked ← cat packing.kParts
  let vPacked ← cat packing.vParts
  let packedOut := b.varlen
    ⟨qPacked, kPacked, vPacked, packing.cuQ, packing.cuK, packing.maxQ, packing.maxK, smScale⟩
  unpack packedOut packing.cuQ cache.numKvHeads numQPerKv (zerosLike query)

def referenceAttention (b : Backend K D) (query : HeadTensor K Hq Lq D)
    (cache : PagedHeadKVCache K D) (layer numQPerKv : Nat) (smScale : K) :
    Except PyError (Output K D) :=
  forRange cache.numKvHeads (fun kvH out => do
    let (kView, vView) ← cache.gatherHead layer kvH
    forRange numQPerKv (fun g out => do
      let qh := kvH * numQPerKv + g
      let q ← pyGet query.heads qh
      pySet out qh (sdpaOneHead b.weight q kView vView smScale)) out) (zerosLike query)

def pagedAttention (b : Backend K D) (query : HeadTensor K Hq Lq D) (cache : PagedHeadKVCache K D)
    (layer numQPerKv : Nat) (smScale : K) (useFused : Bool) : Except PyError (Output K D) :=
  let hkv := cache.numKvHeads
  if Hq ≠ hkv * numQPerKv then
    .error (.valueError s!"paged_attention: Hq={Hq} != Hkv({hkv}) * num_q_per_kv({numQPerKv})")
  else if useFused && b.fusedVarlenAvailable && b.queryIsCuda then
    fusedAttention b query cache layer numQPerKv smScale
  else referenceAttention b query cache layer numQPerKv smScale

/-- `visible = zeros(L); visible[positions] = True`: a negative index counts from the end. -/
def visibleMask (len : Nat) (positions : List Int) : Except PyError (List Bool) :=
  if positions.all fun p => decide (-(len : Int) ≤ p) && decide (p < len) then
    .ok ((range len).map fun j : Nat =>
      decide ((j : Int) ∈ positions ∨ (j : Int) - len ∈ positions))
  else .error .indexError

/-- `scores.masked_fill(~visible, -inf)` for one row of scores. -/
def maskedFill (row : List K) (visible : List Bool) : List (Option K) :=
  zipWith (fun score seen => if seen then some score else none) row visible

def denseReferenceAttention {H L : Nat} (w : PositiveWeight K) (query : HeadTensor K Hq Lq D)
    (kDense vDense : HeadTensor K H L D) (plans : List HeadVisiblePlan) (numQPerKv : Nat)
    (smScale : K) : Except PyError (Output K D) :=
  forRange H (fun kvH out => do
    let plan ← pyGet plans kvH
    let visible ← visibleMask L plan.positions
    let kH ← pyGet kDense.heads kvH
    let vH ← pyGet vDense.heads kvH
    forRange numQPerKv (fun g out => do
      let qh := kvH * numQPerKv + g
      let q ← pyGet query.heads qh
      pySet out qh (q.map fun row =>
        softmaxMean w (maskedFill (scores smScale kH row) visible) vH)) out) (zerosLike query)

end RedKnot.SegPaged
