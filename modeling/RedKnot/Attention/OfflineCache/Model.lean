import RedKnot.Lib.OrderedDict
import RedKnot.Python

/-! `OfflineKVCache` of `layers/attention/redknot/offline_cache.py` and the loop of
`_redknot_single_extend` over it. Calls hold `self._lock`, so they are atomic. `evicted` keeps what
an entry was, for a caller that still has the object. -/

namespace RedKnot.OfflineCache

inductive DeviceType where
  | cuda
  | cpu
  | other (name : String)
deriving DecidableEq, Repr

/-- `torch.device` -/
structure Device where
  type : DeviceType
  index : Option Nat := none
deriving DecidableEq, Repr

/-- `torch.device("cpu")` -/
def cpu : Device := { type := .cpu }

structure Tensor (τ : Type) where
  data : τ
  device : Device
deriving DecidableEq, Repr

def Tensor.to {τ : Type} (t : Tensor τ) (d : Device) : Tensor τ := { t with device := d }

abbrev KvPair (τ : Type) := Option (Tensor τ) × Option (Tensor τ)

structure OfflineSegment (τ : Type) where
  segmentId : String
  docLen : Nat
  kv : List (KvPair τ)
  device : Device
  nbytes : Nat
deriving DecidableEq, Repr

def movePair {τ : Type} (d : Device) : KvPair τ → KvPair τ
  | (some k, some v) => (some (k.to d), some (v.to d))
  | pair => pair

namespace OfflineSegment

variable {τ : Type}

def onCuda (seg : OfflineSegment τ) : Bool := seg.device.type = .cuda

def moveTo (seg : OfflineSegment τ) (d : Device) : OfflineSegment τ :=
  { seg with kv := seg.kv.map (movePair d), device := d }

end OfflineSegment

structure OfflineKVCache (τ : Type) where
  segments : OrderedDict String (OfflineSegment τ) := .empty
  maxDeviceBytes : Option Nat := none
  maxHostBytes : Option Nat := none
  deviceBytes : Int := 0
  hostBytes : Int := 0
  evicted : List (String × OfflineSegment τ) := []

namespace OfflineKVCache

variable {τ : Type}

/-- The running total of the tier that `seg` is in changes by `n`. -/
def addBytes (s : OfflineKVCache τ) (seg : OfflineSegment τ) (n : Int) : OfflineKVCache τ :=
  if seg.onCuda then { s with deviceBytes := s.deviceBytes + n }
  else { s with hostBytes := s.hostBytes + n }

def store (s : OfflineKVCache τ) (seg : OfflineSegment τ) : OfflineKVCache τ :=
  addBytes { s with segments := s.segments.putLast seg.segmentId seg } seg seg.nbytes

def forget (s : OfflineKVCache τ) (id : String) (seg : OfflineSegment τ) : OfflineKVCache τ :=
  addBytes { s with segments := s.segments.erase id } seg (-seg.nbytes)

/-- The body of `to_device` for a segment on another device, before the limits are enforced. -/
def relocate (s : OfflineKVCache τ) (id : String) (seg : OfflineSegment τ) (d : Device) :
    OfflineKVCache τ :=
  let s :=
    if seg.onCuda ∧ d.type ≠ .cuda then
      { s with deviceBytes := s.deviceBytes - seg.nbytes, hostBytes := s.hostBytes + seg.nbytes }
    else if ¬ seg.onCuda ∧ d.type = .cuda then
      { s with hostBytes := s.hostBytes - seg.nbytes, deviceBytes := s.deviceBytes + seg.nbytes }
    else s
  { s with segments := s.segments.putLast id (seg.moveTo d) }

/-- What a caller sees that got hold of the object `id`. -/
def current (s : OfflineKVCache τ) (id : String) : Option (OfflineSegment τ) :=
  (s.segments.get? id).or ((s.evicted.reverse.find? (fun e => e.1 = id)).map Prod.snd)

/-- The first loop of `_enforce_limits`, over a snapshot of the keys. -/
def deviceLoop (offload : OfflineKVCache τ → String → Except PyError (OfflineKVCache τ))
    (limit : Nat) : List String → OfflineKVCache τ → Except PyError (OfflineKVCache τ)
  | [], s => .ok s
  | sid :: sids, s =>
    if s.deviceBytes ≤ limit then .ok s
    else
      match s.segments.get? sid with
      | none => .error .keyError
      | some seg =>
        if seg.onCuda then do
          let s ← offload s sid
          deviceLoop offload limit sids s
        else deviceLoop offload limit sids s

/-- The second loop of `_enforce_limits`. -/
def hostLoop (limit : Int) : List String → OfflineKVCache τ → Except PyError (OfflineKVCache τ)
  | [], s => .ok s
  | sid :: sids, s =>
    if s.deviceBytes + s.hostBytes ≤ limit then .ok s
    else
      match s.segments.get? sid with
      | none => .error .keyError
      | some seg => hostLoop limit sids { s.forget sid seg with evicted := s.evicted ++ [(sid, seg)] }

def enforceDevice (offload : OfflineKVCache τ → String → Except PyError (OfflineKVCache τ))
    (s : OfflineKVCache τ) : Except PyError (OfflineKVCache τ) :=
  match s.maxDeviceBytes with
  | none => .ok s
  | some limit => deviceLoop offload limit s.segments.keys s

def enforceHost (s : OfflineKVCache τ) : Except PyError (OfflineKVCache τ) :=
  match s.maxHostBytes with
  | none => .ok s
  | some limit => hostLoop (s.maxDeviceBytes.getD 0 + limit) s.segments.keys s

/-- `_enforce_limits` with the `to_device` that it calls. -/
def enforceWith (offload : OfflineKVCache τ → String → Except PyError (OfflineKVCache τ))
    (s : OfflineKVCache τ) : Except PyError (OfflineKVCache τ) := do
  let s ← s.enforceDevice offload
  s.enforceHost

/-- `to_device`; `fuel` bounds the depth of the recursion through `_enforce_limits`. A level takes
two Python frames, so the default recursion limit is met at about 500 offloads in one call. -/
def toDevice : Nat → OfflineKVCache τ → String → Device →
    Except PyError (Option (OfflineSegment τ) × OfflineKVCache τ)
  | 0, _, _, _ => .error .outOfFuel
  | fuel + 1, s, id, d =>
    match s.segments.get? id with
    | none => .ok (none, s)
    | some seg =>
      if seg.device = d then .ok (some seg, { s with segments := s.segments.putLast id seg })
      else do
        let s ← enforceWith (fun s sid => Prod.snd <$> toDevice fuel s sid cpu) (s.relocate id seg d)
        return (s.current id, s)

def enforceLimits (fuel : Nat) (s : OfflineKVCache τ) : Except PyError (OfflineKVCache τ) :=
  enforceWith (fun s sid => Prod.snd <$> toDevice fuel s sid cpu) s

def put (fuel : Nat) (s : OfflineKVCache τ) (seg : OfflineSegment τ) :
    Except PyError (OfflineKVCache τ) :=
  match s.segments.get? seg.segmentId with
  | some old => .ok { s with segments := s.segments.putLast seg.segmentId old }
  | none => enforceLimits fuel (s.store seg)

def get (s : OfflineKVCache τ) (id : String) : Option (OfflineSegment τ) × OfflineKVCache τ :=
  match s.segments.get? id with
  | some seg => (some seg, { s with segments := s.segments.putLast seg.segmentId seg })
  | none => (none, s)

def drop (s : OfflineKVCache τ) (id : String) : OfflineKVCache τ :=
  match s.segments.get? id with
  | some seg => s.forget id seg
  | none => s

def offload (fuel : Nat) (s : OfflineKVCache τ) (id : String) : Except PyError (OfflineKVCache τ) :=
  Prod.snd <$> toDevice fuel s id cpu

def clear (s : OfflineKVCache τ) : OfflineKVCache τ :=
  { s with segments := .empty, deviceBytes := 0, hostBytes := 0 }

/-- The segments that `_redknot_single_extend` gets for a request, in order, with the positions that
they take. -/
def resolveSegments (fuel : Nat) (d : Device) : List (Option String) → Nat → OfflineKVCache τ →
    Except PyError (List (String × OfflineSegment τ × Nat × Nat) × OfflineKVCache τ)
  | [], _, s => .ok ([], s)
  | none :: ids, cursor, s => resolveSegments fuel d ids cursor s
  | some id :: ids, cursor, s => do
    let (found, s) ← s.toDevice fuel id d
    match found with
    | none => resolveSegments fuel d ids cursor s
    | some seg => do
      let (rest, s) ← resolveSegments fuel d ids (cursor + seg.docLen) s
      return ((id, seg, cursor, cursor + seg.docLen) :: rest, s)

end OfflineKVCache

inductive Op (τ : Type) where
  | put (seg : OfflineSegment τ)
  | get (id : String)
  | drop (id : String)
  | toDevice (id : String) (d : Device)
  | offload (id : String)
  | clear

def OfflineKVCache.exec {τ : Type} (fuel : Nat) (s : OfflineKVCache τ) :
    Op τ → Except PyError (OfflineKVCache τ)
  | .put seg => s.put fuel seg
  | .get id => .ok (s.get id).2
  | .drop id => .ok (s.drop id)
  | .toDevice id d => Prod.snd <$> s.toDevice fuel id d
  | .offload id => s.offload fuel id
  | .clear => .ok s.clear

end RedKnot.OfflineCache
