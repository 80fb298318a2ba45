import RedKnot.Router.TreeRefinement

/-! `KvEventIndex` of `policies/kv_events/index.rs`: calls, subscriber tasks and the pump interleave
at every lock. The numbers of the subscriptions and the lists of what was sent and removed are for
stating results only. -/

namespace RedKnot.Router.KvIndex

open Function HashTree

inductive KvCacheEvent where
  | blockStored (parentBlockHash : Option BlockHash) (blockHashes : List BlockHash)
  | blockRemoved (blockHashes : List BlockHash)
  | allBlocksCleared

def KvCacheEvent.op (it : Iteration) (now : Nat) (w : KvWorkerId) : KvCacheEvent → TreeState.Op
  | .blockStored parent hashes => .insert it now w parent hashes
  | .blockRemoved hashes => .remove it w hashes
  | .allBlocksCleared => .clearWorker it w

def KvCacheEvent.stored : KvCacheEvent → List BlockHash
  | .blockStored _ hashes => hashes
  | _ => []

inductive Message where
  | batch (seq : Int) (events : List KvCacheEvent)
  | publisherReset

structure WorkerEvent where
  worker : KvWorkerId
  message : Message
  subscription : Nat

def Message.stored : Message → List BlockHash
  | .batch _ events => events.flatMap KvCacheEvent.stored
  | .publisherReset => []

inductive Pump where
  | idle
  | received (ev : WorkerEvent)
  | checked (ev : WorkerEvent)
  | applying (ev : WorkerEvent) (seq : Int) (left : List KvCacheEvent)

def Pump.event : Pump → Option WorkerEvent
  | .idle => none
  | .received ev => some ev
  | .checked ev => some ev
  | .applying ev _ _ => some ev

def Pump.accepted : Pump → Option WorkerEvent
  | .checked ev => some ev
  | .applying ev _ _ => some ev
  | _ => none

/-- What a call of `add_worker` or `remove_worker` does next. -/
inductive Call where
  | mark (url : String) (ranks : List Nat)
  | enter (url : String) (ranks : List Nat)
  | subscribe (url : String) (ranks : List Nat)
  | take (url : String)
  | kill (url : String) (ranks : List Nat)
  | cancel (url : String) (ranks : List Nat)
  | join (url : String) (ranks : List Nat)
  | clear (url : String) (ranks : List Nat)

def Call.url : Call → String
  | .mark url _ => url
  | .enter url _ => url
  | .subscribe url _ => url
  | .take url => url
  | .kill url _ => url
  | .cancel url _ => url
  | .join url _ => url
  | .clear url _ => url

structure Index where
  tree : TreeState := TreeState.new 0
  cursors : KvWorkerId → Option Int := fun _ => none
  liveWorkers : Finset KvWorkerId := ∅
  workers : String → Option (List Nat) := fun _ => none
  handles : List (KvWorkerId × Nat) := []
  stopping : List (KvWorkerId × Nat) := []
  channel : List WorkerEvent := []
  pump : Pump := .idle
  calls : List Call := []
  started : KvWorkerId → Nat := fun _ => 0
  sent : List WorkerEvent := []
  removed : Finset String := ∅

def ids (url : String) (ranks : List Nat) : Finset KvWorkerId :=
  (ranks.map (KvWorkerId.mk url)).toFinset

namespace Index

/-- The next operation of a call; `none` when it returns. -/
def advance (it : Iteration) (x : Index) : Call → Index × Option Call
  | .mark url ranks =>
    ({ x with liveWorkers := x.liveWorkers ∪ ids url ranks, removed := x.removed.erase url },
      some (.enter url ranks))
  | .enter url ranks =>
    ({ x with workers := update x.workers url (some ranks) }, some (.subscribe url ranks))
  | .subscribe _ [] => (x, none)
  | .subscribe url (rank :: ranks) =>
    -- a rank whose subscriber is running keeps it
    if x.handles.any (fun h => h.1 = ⟨url, rank⟩) then (x, some (.subscribe url ranks))
    else
      ({ x with
          handles := x.handles ++ [(⟨url, rank⟩, x.started ⟨url, rank⟩ + 1)]
          started := update x.started ⟨url, rank⟩ (x.started ⟨url, rank⟩ + 1) },
        some (.subscribe url ranks))
  | .take url =>
    match x.workers url with
    | none => ({ x with removed := insert url x.removed }, none)
    | some ranks => ({ x with workers := update x.workers url none }, some (.kill url ranks))
  | .kill url ranks =>
    ({ x with liveWorkers := x.liveWorkers \ ids url ranks }, some (.cancel url ranks))
  | .cancel url ranks =>
    ({ x with
        handles := x.handles.filter (fun h => h.1.url ≠ url)
        stopping := x.stopping ++ x.handles.filter (fun h => h.1.url = url) },
      some (.join url ranks))
  | .join url ranks =>
    ({ x with stopping := x.stopping.filter (fun h => h.1.url ≠ url) }, some (.clear url ranks))
  | .clear url [] => ({ x with removed := insert url x.removed }, none)
  | .clear url (rank :: ranks) =>
    ({ x with
        tree := x.tree.exec (.clearWorker it ⟨url, rank⟩)
        cursors := update x.cursors ⟨url, rank⟩ none },
      some (.clear url ranks))

inductive Action where
  | addWorker (url : String) (ranks : List Nat)
  | removeWorker (url : String)
  | advance (i : Nat) (it : Iteration)
  | send (worker : KvWorkerId) (subscription : Nat) (message : Message)
  | pump (it : Iteration) (now : Nat)

def pumpStep (it : Iteration) (now : Nat) (x : Index) : Option Index :=
  match x.pump with
  | .idle =>
    match x.channel with
    | [] => none
    | ev :: rest => some { x with channel := rest, pump := .received ev }
  | .received ev =>
    if ev.worker ∈ x.liveWorkers then some { x with pump := .checked ev }
    else some { x with pump := .idle }
  | .checked ev =>
    match ev.message with
    -- the tree keeps what was stored before the reset
    | .publisherReset => some { x with cursors := update x.cursors ev.worker none, pump := .idle }
    | .batch seq events =>
      match x.cursors ev.worker with
      | some prev =>
        if seq ≤ prev then some { x with pump := .idle }
        else some { x with pump := .applying ev seq events }
      | none => some { x with pump := .applying ev seq events }
  | .applying ev seq [] =>
    some { x with cursors := update x.cursors ev.worker (some seq), pump := .idle }
  | .applying ev seq (e :: left) =>
    some { x with tree := x.tree.exec (e.op it now ev.worker), pump := .applying ev seq left }

def step (x : Index) : Action → Option Index
  | .addWorker url ranks => some { x with calls := x.calls ++ [.mark url ranks] }
  | .removeWorker url => some { x with calls := x.calls ++ [.take url] }
  | .advance i it =>
    match x.calls[i]? with
    | none => none
    | some c =>
      let r := x.advance it c
      some { r.1 with calls := x.calls.eraseIdx i ++ r.2.toList }
  | .send worker subscription message =>
    if (worker, subscription) ∈ x.handles ∨ (worker, subscription) ∈ x.stopping then
      some { x with
        channel := x.channel ++ [⟨worker, message, subscription⟩]
        sent := x.sent ++ [⟨worker, message, subscription⟩] }
    else none
  | .pump it now => x.pumpStep it now

def Quiet (x : Index) (w : KvWorkerId) : Prop :=
  (∀ ev ∈ x.channel, ev.worker ≠ w) ∧ (∀ ev, x.pump.event = some ev → ev.worker ≠ w) ∧
    (∀ g, (w, g) ∉ x.handles) ∧ ∀ g, (w, g) ∉ x.stopping

/-- Calls for one URL follow one another; a worker is live again only when nothing of its earlier
subscription is left, and dead only when the pump is not at its event. -/
def Orderly (x : Index) : Action → Prop
  | .addWorker url _ => ∀ c ∈ x.calls, c.url ≠ url
  | .removeWorker url => ∀ c ∈ x.calls, c.url ≠ url
  | .advance i _ =>
    match x.calls[i]? with
    | some (.mark url ranks) =>
      (∀ rank ∈ ranks, (⟨url, rank⟩ : KvWorkerId) ∉ x.liveWorkers → x.Quiet ⟨url, rank⟩) ∧
        ∀ w ∈ x.liveWorkers, w.url = url → w.dpRank ∈ ranks
    | some (.kill url _) => ∀ ev, x.pump.accepted = some ev → ev.worker.url ≠ url
    | _ => True
  | _ => True

inductive Reaches (ok : Index → Action → Prop) : Index → Prop where
  | start : Reaches ok {}
  | step {x y : Index} {a : Action} (reached : Reaches ok x) (meets : ok x a)
      (stepped : x.step a = some y) :
      Reaches ok y

end Index

end RedKnot.Router.KvIndex
