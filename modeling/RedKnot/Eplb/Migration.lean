import RedKnot.Eplb.Chunks

/-! `update_expert_weights_single_layer` of `eplb/expert_location_updater.py`, without elastic
expert parallelism. A location is a physical slot counted over all ranks. `none` is an exception. -/

namespace RedKnot.Eplb

open Function List

structure Migration where
  numLocal : Nat
  numGpuPerNode : Nat
  worldSize : Nat
  oldMap : List Nat
  newMap : List Nat
  gpu_pos : 0 < numGpuPerNode
  old_length : oldMap.length = worldSize * numLocal
  new_length : newMap.length = worldSize * numLocal
  covered : ∀ e ∈ newMap, e ∈ oldMap

inductive P2POp where
  | isend (tensor location peer : Nat)
  | irecv (tensor location peer : Nat)
deriving DecidableEq, Repr

def P2POp.peer : P2POp → Nat
  | .isend _ _ peer => peer
  | .irecv _ _ peer => peer

abbrev P2POpInfo := Nat × List P2POp

/-- What `_handle_recv_of_dst_expert_location` decides for a location. -/
inductive RecvCase where
  | unchanged
  | sameGpu (src : Nat)
  | freeRider (src : Nat)
  | p2p (srcRank : Nat)

abbrev Tensors (α : Type) := Nat → Nat → α

structure CommInfo where
  sameNode : ChunkUtils
  crossNode : ChunkUtils
  needCommSelfNodeDstRanks : List Nat

namespace Migration

variable (m : Migration)

def old (x : Nat) : Nat := m.oldMap.getD x 0

def new (x : Nat) : Nat := m.newMap.getD x 0

def numPhysical : Nat := m.oldMap.length

def localRange (rank : Nat) : List Nat := range' (rank * m.numLocal) m.numLocal

def allSrcRanks (e : Nat) : List Nat :=
  deduplicateOrdered
    (((range m.numPhysical).filter (fun x => m.old x = e)).map (· / m.numLocal))

def needCommDstRanks (e : Nat) : List Nat :=
  deduplicateOrdered
    (((range m.numPhysical).filter
      (fun x => m.new x = e ∧ x / m.numLocal ∉ m.allSrcRanks e)).map (· / m.numLocal))

def selfNodeSrcRanks (node e : Nat) : List Nat :=
  (m.allSrcRanks e).filter (fun r => r / m.numGpuPerNode = node)

def selfNodeDstRanks (node e : Nat) : List Nat :=
  if 0 < (m.selfNodeSrcRanks node e).length then
    (m.needCommDstRanks e).filter (fun r => r / m.numGpuPerNode = node)
  else []

def crossNodeDstRanks (e : Nat) : List Nat :=
  (m.needCommDstRanks e).filter
    (fun r => r / m.numGpuPerNode ∉ (m.allSrcRanks e).map (· / m.numGpuPerNode))

def computeCommInfo (rank e : Nat) : CommInfo :=
  let node := rank / m.numGpuPerNode
  { sameNode := ⟨m.selfNodeSrcRanks node e, m.selfNodeDstRanks node e⟩
    crossNode := ⟨m.allSrcRanks e, m.crossNodeDstRanks e⟩
    needCommSelfNodeDstRanks := m.selfNodeDstRanks node e }

def chosenSrcRank (rank e : Nat) : Option Nat :=
  let info := m.computeCommInfo rank e
  if rank ∈ info.needCommSelfNodeDstRanks then info.sameNode.chunkValueFromElementValue rank
  else info.crossNode.chunkValueFromElementValue rank

def recvCase (rank dst : Nat) : Option RecvCase :=
  let e := m.new dst
  if m.old dst = e then some .unchanged
  else
    match (m.localRange rank).find? (fun src => m.old src = e) with
    | some src => some (.sameGpu src)
    | none =>
      match (range' (rank * m.numLocal) (dst - rank * m.numLocal)).find?
          (fun src => m.new src = e) with
      | some src => some (.freeRider src)
      | none => (m.chosenSrcRank rank e).map .p2p

def recvOps (numTensors dst srcRank : Nat) : List P2POp :=
  (range numTensors).map (fun i => .irecv i dst srcRank)

def sendOps (numTensors src : Nat) (dstRanks : List Nat) : List P2POp :=
  dstRanks.flatMap (fun dst => (range numTensors).map (fun i => .isend i src dst))

section Rank

variable {α : Type}

def get (t : Tensors α) (i x : Nat) : α := t i (x % m.numLocal)

def set (t : Tensors α) (i x : Nat) (v : α) : Tensors α :=
  update t i (update (t i) (x % m.numLocal) v)

def copy (numTensors : Nat) (source target : Tensors α) (src dst : Nat) : Tensors α :=
  (range numTensors).foldl (fun t i => m.set t i dst (m.get source i src)) target

/-- The temporary buffers, `p2p_op_infos` and `buffer2weight_copy_infos`. -/
structure Work (α : Type) where
  buffers : Tensors α
  infos : List P2POpInfo
  copies : List (Nat × Nat)

def perform (numTensors : Nat) (weights : Tensors α) (w : Work α) : Nat × RecvCase → Work α
  | (_, .unchanged) => w
  | (dst, .sameGpu src) =>
    { w with
      buffers := m.copy numTensors weights w.buffers src dst
      copies := w.copies ++ [(dst, dst)] }
  | (dst, .freeRider src) => { w with copies := w.copies ++ [(src, dst)] }
  | (dst, .p2p srcRank) =>
    { w with infos := w.infos ++ [(m.new dst, recvOps numTensors dst srcRank)]
             copies := w.copies ++ [(dst, dst)] }

def recvCases (rank : Nat) : Option (List (Nat × RecvCase)) :=
  (m.localRange rank).mapM (fun dst => (m.recvCase rank dst).map (fun c => (dst, c)))

def handleRecv (numTensors rank : Nat) (weights buffers : Tensors α) : Option (Work α) :=
  (m.recvCases rank).map (fun cases => cases.foldl (m.perform numTensors weights) ⟨buffers, [], []⟩)

end Rank

def isendOpsOf (numTensors rank e src : Nat) : Option P2POpInfo :=
  let info := m.computeCommInfo rank e
  (info.sameNode.elementValuesFromChunkValue rank).bind fun sameNodeDstRanks =>
    (info.crossNode.elementValuesFromChunkValue rank).map fun crossNodeDstRanks =>
      (e, sendOps numTensors src (sameNodeDstRanks ++ crossNodeDstRanks))

/-- `_create_isend_ops` over the locations left, with the experts already handled. -/
def createIsendOps (numTensors rank : Nat) : List Nat → List Nat → Option (List P2POpInfo)
  | [], _ => some []
  | src :: locations, handled =>
    if m.old src ∈ handled then createIsendOps numTensors rank locations handled
    else
      (m.isendOpsOf numTensors rank (m.old src) src).bind fun info =>
        (createIsendOps numTensors rank locations (m.old src :: handled)).map (info :: ·)

def postingOrder (infos : List P2POpInfo) : List P2POp :=
  (infos.insertionSort (fun a b => a.1 ≤ b.1)).flatMap Prod.snd

section Exchange

variable {α : Type}

def plan (numTensors rank : Nat) (weights buffers : Tensors α) : Option (Work α × List P2POp) :=
  (m.handleRecv numTensors rank weights buffers).bind fun w =>
    (m.createIsendOps numTensors rank (m.localRange rank) []).map fun sends =>
      (w, postingOrder (w.infos ++ sends))

def sendsTo (peer : Nat) (ops : List P2POp) : List P2POp :=
  ops.filter (fun op => match op with
    | .isend _ _ p => p = peer
    | .irecv .. => false)

def recvsFrom (peer : Nat) (ops : List P2POp) : List P2POp :=
  ops.filter (fun op => match op with
    | .isend .. => false
    | .irecv _ _ p => p = peer)

def payload (weights : Tensors α) : P2POp → Option α
  | .isend i x _ => some (m.get weights i x)
  | .irecv .. => none

def receive : List P2POp → (Nat → List α) → Tensors α → Tensors α
  | [], _, t => t
  | .isend .. :: ops, queue, t => receive ops queue t
  | .irecv i x peer :: ops, queue, t =>
    match queue peer with
    | [] => receive ops queue t
    | v :: rest => receive ops (update queue peer rest) (m.set t i x v)

def executeCopies (numTensors : Nat) (buffers : Tensors α) (copies : List (Nat × Nat))
    (weights : Tensors α) : Tensors α :=
  copies.foldl (fun t c => m.copy numTensors buffers t c.1 c.2) weights

def batch (numTensors : Nat) (weights buffers : Nat → Tensors α) (rank : Nat) :
    Option (List P2POp) :=
  (m.plan numTensors rank (weights rank) (buffers rank)).map Prod.snd

def channel (numTensors : Nat) (weights buffers : Nat → Tensors α) (dst src : Nat) : List α :=
  if src < m.worldSize then
    (sendsTo dst ((m.batch numTensors weights buffers src).getD [])).filterMap
      (m.payload (weights src))
  else []

/-- The weights of `rank` after all ranks have run the update. -/
def updateExpertWeights (numTensors : Nat) (weights buffers : Nat → Tensors α) (rank : Nat) :
    Option (Tensors α) :=
  (m.plan numTensors rank (weights rank) (buffers rank)).map fun p =>
    let buffers' := m.receive p.2 (m.channel numTensors weights buffers rank) p.1.buffers
    m.executeCopies numTensors buffers' p.1.copies (weights rank)

end Exchange

end Migration

end RedKnot.Eplb
