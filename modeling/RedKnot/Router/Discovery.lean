import RedKnot.Router.Registry
import Mathlib

/-! The Kubernetes discovery of `discovery/k8s.rs`, the event loop of `workers/manager.rs` behind
its channel, and the URLs that `KvEventIndex` is subscribed to. The maps are walked in any order. -/

namespace RedKnot.Router.Discovery

open Function

structure Endpoint where
  ready : Option Bool := none
  uid : Option String := none
  addresses : List String := []

structure EndpointSlice where
  ns : Option String := none
  name : Option String := none
  uid : Option String := none
  labels : List (String × String) := []
  ports : List (Option Nat) := []
  endpoints : List Endpoint := []

inductive K8sDiscoveryMode where
  | plain
  | pdDisaggregation (prefillSelector decodeSelector : String)

def splitOnce (term sep : String) : Option (String × String) :=
  match term.splitOn sep with
  | key :: expected :: rest => some (key, sep.intercalate (expected :: rest))
  | _ => none

/-- `char::is_whitespace`. -/
def isWhitespace (c : Char) : Bool :=
  let n := c.toNat
  (9 ≤ n && n ≤ 13) || (8192 ≤ n && n ≤ 8202) ||
    [32, 133, 160, 5760, 8232, 8233, 8239, 8287, 12288].contains n

def trim (term : String) : String :=
  .ofList ((term.toList.dropWhile isWhitespace).reverse.dropWhile isWhitespace).reverse

def labelsMatchSelector (labels : List (String × String)) (selector : String) : Bool :=
  (selector.splitOn ",").all fun term =>
    let term := trim term
    term.isEmpty ||
      match (splitOnce term "==").orElse (fun _ => splitOnce term "=") with
      | some (key, expected) => labels.lookup (trim key) = some (trim expected)
      | none => false

def classifyMode (es : EndpointSlice) : K8sDiscoveryMode → Option WorkerMode
  | .plain => some .plain
  | .pdDisaggregation prefillSelector decodeSelector =>
    if labelsMatchSelector es.labels prefillSelector then some .prefill
    else if labelsMatchSelector es.labels decodeSelector then some .decode
    else none

def extractWorkers (es : EndpointSlice) (mode : WorkerMode) : List WorkerSpec :=
  let port := (es.ports.head?.join).getD 30000
  let ns := es.ns.getD ""
  let sliceName := es.name.getD ""
  (es.endpoints.filter (fun ep => ep.ready.getD true)).flatMap fun ep =>
    ep.addresses.map fun addr =>
      { id := match ep.uid with
          | some uid => ns ++ "/" ++ uid
          | none => ns ++ "/" ++ sliceName ++ "/" ++ addr ++ ":" ++ toString port
        url := "http://" ++ addr ++ ":" ++ toString port
        mode := mode }

def sliceKey (es : EndpointSlice) : String :=
  match es.uid with
  | some uid => if uid.isEmpty then es.ns.getD "" ++ "/" ++ es.name.getD "" else uid
  | none => es.ns.getD "" ++ "/" ++ es.name.getD ""

abbrev Workers := AList (fun _ : WorkerId => WorkerSpec)

abbrev Slices := AList (fun _ : String => Workers)

def collect (pairs : List (Sigma fun _ : WorkerId => WorkerSpec)) : Workers :=
  pairs.foldl (fun ws e => ws.insert e.1 e.2) ∅

def workersForSlice (mode : K8sDiscoveryMode) (es : EndpointSlice) : Workers :=
  match classifyMode es mode with
  | some wm => collect ((extractWorkers es wm).map fun w => ⟨w.id, w⟩)
  | none => ∅

structure Order where
  list : {α : Type} → List α → List α
  perm : ∀ {α : Type} (l : List α), (list l).Perm l

inductive DiscoveryEvent where
  | added (spec : WorkerSpec)
  | removed (id : WorkerId)
  | modeChanged (id : WorkerId) (mode : WorkerMode)

def changes (prev : Workers) (e : Sigma fun _ : WorkerId => WorkerSpec) : List DiscoveryEvent :=
  match prev.lookup e.1 with
  | some p =>
    (if p.mode ≠ e.2.mode then [.modeChanged e.1 e.2.mode] else []) ++
      if p.url ≠ e.2.url ∨ p.modelIds ≠ e.2.modelIds then [.removed e.1, .added e.2] else []
  | none => [.added e.2]

def unionOf (it : Order) (perSlice : Slices) : Workers :=
  collect ((it.list perSlice.entries).flatMap fun s => it.list s.2.entries)

def emitDiff (it : Order) (perSlice : Slices) (prevUnion : Workers) :
    List DiscoveryEvent × Workers :=
  let union := unionOf it perSlice
  ((it.list union.entries).flatMap (changes prevUnion) ++
    ((it.list prevUnion.keys).filter (fun id => id ∉ union.keys)).map .removed, union)

inductive WatchEvent where
  | init
  | initApply (es : EndpointSlice)
  | initDone
  | apply (es : EndpointSlice)
  | delete (es : EndpointSlice)
  | error

structure Watch where
  perSlice : Slices := ∅
  prevUnion : Workers := ∅
  initBuffer : Option Slices := none

namespace Watch

def emit (it : Order) (w : Watch) : Watch × List DiscoveryEvent :=
  ({ w with prevUnion := (emitDiff it w.perSlice w.prevUnion).2 },
    (emitDiff it w.perSlice w.prevUnion).1)

/-- One turn of `process_events`. -/
def handle (mode : K8sDiscoveryMode) (it : Order) (w : Watch) :
    WatchEvent → Watch × List DiscoveryEvent
  | .init => ({ w with initBuffer := some ∅ }, [])
  | .initApply es =>
    match w.initBuffer with
    | some buf =>
      ({ w with initBuffer := some (buf.insert (sliceKey es) (workersForSlice mode es)) }, [])
    | none =>
      emit it { w with perSlice := w.perSlice.insert (sliceKey es) (workersForSlice mode es) }
  | .initDone =>
    match w.initBuffer with
    | some buf => emit it { w with perSlice := buf, initBuffer := none }
    | none => (w, [])
  | .apply es =>
    emit it { w with perSlice := w.perSlice.insert (sliceKey es) (workersForSlice mode es) }
  | .delete es => emit it { w with perSlice := w.perSlice.erase (sliceKey es) }
  | .error => (w, [])

end Watch

structure EventConfig where
  portBase : Nat
  blockSize : Nat
  dpSize : Nat

def EventConfig.dpRanks (cfg : EventConfig) : List Nat :=
  (List.range cfg.dpSize).filter (fun rank => cfg.portBase + rank ≤ 65535)

/-- `BlockSizeOracle::try_set`; zero stands for no value. -/
def trySet (established candidate : Nat) : Option Nat :=
  if candidate = 0 then none
  else if established = 0 then some candidate
  else if established = candidate then some established
  else none

structure Subscriptions where
  blockSize : Nat := 0
  urls : Finset String := ∅

namespace Subscriptions

/-- `add_worker` with the configuration that `/server_info` gave, if the worker publishes. -/
def addWorker (s : Subscriptions) (url : String) : Option EventConfig → Subscriptions
  | none => s
  | some cfg =>
    match trySet s.blockSize cfg.blockSize with
    | none => s
    | some size =>
      if cfg.dpRanks = [] then { s with blockSize := size }
      else { blockSize := size, urls := insert url s.urls }

def removeWorker (s : Subscriptions) (url : String) : Subscriptions :=
  { s with urls := s.urls.erase url }

def Accepts (s : Subscriptions) (cfg : EventConfig) : Prop :=
  cfg.blockSize ≠ 0 ∧ s.blockSize = cfg.blockSize ∧ cfg.dpRanks ≠ []

end Subscriptions

/-- `leaving` is the URL whose removal the event loop awaits; `refused` and `config` record the
latest registration of a worker. -/
structure Fleet where
  watch : Watch := {}
  channel : List DiscoveryEvent := []
  leaving : Option String := none
  manager : Manager := {}
  index : Subscriptions := {}
  refused : Finset WorkerId := ∅
  config : WorkerId → Option EventConfig := fun _ => none

namespace Fleet

/-- `ok` says which unions may follow one another. -/
inductive Step (mode : K8sDiscoveryMode) (ok : Workers → Workers → Prop) :
    Fleet → Fleet → Prop where
  | watched {x : Fleet} (it : Order) (e : WatchEvent)
      (meets : ok x.watch.prevUnion (x.watch.handle mode it e).1.prevUnion) :
      Step mode ok x { x with
        watch := (x.watch.handle mode it e).1
        channel := x.channel ++ (x.watch.handle mode it e).2 }
  | added {x : Fleet} {spec : WorkerSpec} {rest : List DiscoveryEvent}
      (head : x.channel = .added spec :: rest) (idle : x.leaving = none)
      (awaited : x.manager.tasks spec.id = none) :
      Step mode ok x { x with
        channel := rest
        manager := x.manager.withTask spec.id (some (.fetching spec))
        refused := x.refused.erase spec.id
        config := update x.config spec.id none }
  | removed {x : Fleet} {id : WorkerId} {rest : List DiscoveryEvent}
      (head : x.channel = .removed id :: rest) (idle : x.leaving = none)
      (awaited : x.manager.tasks id = none) (free : x.manager.lock = none) :
      Step mode ok x { x with
        channel := rest
        leaving := (x.manager.registry.byId id).map WorkerSpec.url
        manager := { x.manager with registry := x.manager.registry.removeLocked id } }
  | unsubscribed {x : Fleet} {url : String} (awaits : x.leaving = some url) :
      Step mode ok x { x with leaving := none, index := x.index.removeWorker url }
  | modeChanged {x : Fleet} {id : WorkerId} {wm : WorkerMode} {rest : List DiscoveryEvent}
      (head : x.channel = .modeChanged id wm :: rest) (idle : x.leaving = none)
      (awaited : x.manager.tasks id = none) :
      Step mode ok x { x with
        channel := rest
        manager := { x.manager with registry := x.manager.registry.setMode id wm } }
  | fetched {x : Fleet} {id : WorkerId} {spec : WorkerSpec} (info : ServerInfo)
      (waits : x.manager.tasks id = some (.fetching spec)) :
      Step mode ok x { x with
        manager := x.manager.withTask id (some (.locking (spec.resolve info))) }
  | acquired {x : Fleet} {id : WorkerId} {spec : WorkerSpec}
      (waits : x.manager.tasks id = some (.locking spec)) (free : x.manager.lock = none) :
      Step mode ok x { x with
        manager := { x.manager.withTask id (some (.checking spec spec.modelIds [])) with
          lock := some id } }
  | proceeded {x : Fleet} {id : WorkerId} {t : Task} {m : Manager}
      (here : x.manager.tasks id = some t) (next : x.manager.proceed id t = some m)
      (stays : m.tasks id ≠ none) : Step mode ok x { x with manager := m }
  | refused {x : Fleet} {id : WorkerId} {t : Task} {m : Manager}
      (here : x.manager.tasks id = some t) (next : x.manager.proceed id t = some m)
      (out : m.tasks id = none) :
      Step mode ok x { x with manager := m, refused := insert id x.refused }
  | subscribed {x : Fleet} {id : WorkerId} {spec : WorkerSpec} (cfg : Option EventConfig)
      (waits : x.manager.tasks id = some (.subscribing spec)) :
      Step mode ok x { x with
        manager := x.manager.withTask id none
        index := x.index.addWorker spec.url cfg
        config := update x.config id cfg }

inductive Reaches (mode : K8sDiscoveryMode) (ok : Workers → Workers → Prop) : Fleet → Prop where
  | start : Reaches mode ok {}
  | step {x y : Fleet} (reached : Reaches mode ok x) (stepped : Step mode ok x y) :
      Reaches mode ok y

structure Processed (x : Fleet) : Prop where
  channel : x.channel = []
  leaving : x.leaving = none
  tasks : ∀ id, x.manager.tasks id = none

def Apart (prev union : Workers) : Prop :=
  ∀ i j p q, (prev.lookup i = some p ∨ union.lookup i = some p) →
    (prev.lookup j = some q ∨ union.lookup j = some q) → p.url = q.url → i = j

end Fleet

end RedKnot.Router.Discovery
