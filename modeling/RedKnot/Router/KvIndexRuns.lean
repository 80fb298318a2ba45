import RedKnot.Router.KvIndex

/-! In runs whose calls are orderly, the entries of a worker come from its current subscription. -/

namespace RedKnot.Router

open List

variable {now : Nat}

namespace HashTree.TreeState

open Function LinkedTree TreeState

variable {s s' : TreeState} {G : Outline} {n p : NodeId} {nd pn : Node} {h b : BlockHash}
  {v w : KvWorkerId}

def Attributes (s : TreeState) (w : KvWorkerId) (h : BlockHash) : Prop :=
  ∃ n nd, n ≠ rootId ∧ s.nodes n = some nd ∧ nd.blockHash = h ∧ w ∈ nd.workers

theorem attributes_of_trims {T : NodeId → Prop} (trims : Trims T v s s') (has : s'.Attributes w h) :
    ∃ n nd, n ≠ rootId ∧ s.nodes n = some nd ∧ nd.blockHash = h ∧ w ∈ nd.workers ∧
      ¬ (w = v ∧ T n) := by
  obtain ⟨n, nd', inner, there', rfl, member⟩ := has
  obtain ⟨nd, there, hash, -, workers⟩ := trims.stays n nd' there'
  obtain ⟨before, kept⟩ := (workers w).mp member
  exact ⟨n, nd, inner, there, hash.symm, before, kept⟩

theorem attributes_mark (there : s.nodes n = some nd)
    (has : (s.put n (nd.mark v now)).Attributes w b) :
    s.Attributes w b ∨ (w = v ∧ b = nd.blockHash) := by
  obtain ⟨m, md, inner, mthere, rfl, member⟩ := has
  by_cases here : m = n
  · subst here
    have same : nd.mark v now = md := by simpa [put] using mthere
    subst same
    rcases Finset.mem_insert.mp member with rfl | old
    · exact .inr ⟨rfl, rfl⟩
    · exact .inl ⟨m, nd, inner, there, rfl, old⟩
  · exact .inl ⟨m, md, inner, by simpa [put, here] using mthere, rfl, member⟩

theorem attributes_hang (there : s.nodes p = some pn) {ph : Option BlockHash}
    (has : (s.hang now p pn h ph).Attributes w b) : s.Attributes w b := by
  obtain ⟨m, md, inner, mthere, rfl, member⟩ := has
  by_cases isTop : m = p
  · subst isTop
    have same : { pn with children := pn.children.insert h s.nextId } = md := by
      simpa [hang] using mthere
    subst same
    exact ⟨m, pn, inner, there, rfl, member⟩
  · by_cases isNew : m = s.nextId
    · subst isNew
      have same : Node.newChild now h ph p = md := by simpa [hang, isTop] using mthere
      subst same
      cases member
    · exact ⟨m, md, inner, by simpa [hang, isTop, isNew] using mthere, rfl, member⟩

theorem attributes_entry (S : s.Shaped G) (there : s.nodes p = some pn)
    {ph : Option BlockHash} {id : NodeId} {t : TreeState}
      (found : s.entry now p h ph = (some id, t))
    (here : t.nodes id = some nd) :
    nd.blockHash = h ∧ ∀ w b, t.Attributes w b → s.Attributes w b := by
  unfold entry at found
  cases known : s.child p h with
  | some c =>
    rw [known] at found
    obtain ⟨same, rfl⟩ := Prod.mk.inj found
    cases same
    rw [child_of_some there] at known
    obtain ⟨-, nd', here', -, hash⟩ := S.down there known
    cases here.symm.trans here'
    exact ⟨hash, fun _ _ has => has⟩
  | none =>
    rw [known] at found
    simp only [createChild, there] at found
    obtain ⟨new, rfl⟩ := Prod.mk.inj found
    cases new
    have old : p ≠ s.nextId := (S.lt_next there).ne
    have same : Node.newChild now h ph p = nd := by simpa [hang, old.symm] using here
    exact ⟨by rw [← same]; rfl, fun _ _ has => attributes_hang there has⟩

theorem attributes_insertLoop (now : Nat) (v : KvWorkerId) (hashes : List BlockHash) :
    ∀ {s : TreeState} {G : Outline} {p : NodeId} {pn : Node} (ph : Option BlockHash), s.Shaped G →
    s.Spare [] → s.nodes p = some pn → (insertLoop now v hashes s p ph).Attributes w b →
    s.Attributes w b ∨ (w = v ∧ b ∈ hashes) := by
  induction hashes with
  | nil => exact fun _ _ _ _ has => .inl has
  | cons h hashes ih =>
    intro s G p pn ph S spare there has
    obtain ⟨id, nd, t, G', found, S', spare', here⟩ := entry_spec S spare there now h ph
    obtain ⟨hash, before⟩ := attributes_entry S there found here
    unfold insertLoop at has
    simp only [found, here] at has
    have same : nd.SamePlace (nd.mark v now) := ⟨rfl, rfl, rfl⟩
    have rest : (t.put id (nd.mark v now)).Spare [] := by
      intro m md minner mthere empty
      by_cases isHere : m = id
      · subst isHere
        have after : nd.mark v now = md := by simpa [put] using mthere
        rw [← after] at empty
        simp [Node.isEmpty, Node.mark] at empty
      · have old := spare' m md minner (by simpa [put, isHere] using mthere) empty
        exact absurd (mem_singleton.mp old) isHere
    rcases ih (some h) (S'.put here same) rest (update_self _ _ _) has with early | ⟨rfl, later⟩
    · rcases attributes_mark here early with old | ⟨rfl, rfl⟩
      · exact .inl (before _ _ old)
      · exact .inr ⟨rfl, by simp [hash]⟩
    · exact .inr ⟨rfl, mem_cons_of_mem _ later⟩

theorem attributes_clear (sound : s.Sound) (it : Iteration)
    (has : (s.exec (.clearWorker it v)).Attributes w b) : s.Attributes w b ∧ w ≠ v := by
  obtain ⟨⟨G, S⟩, spare⟩ := sound
  obtain ⟨n, nd, inner, there, hash, member, kept⟩ :=
    attributes_of_trims (clearWorker_trims it S spare v) has
  refine ⟨⟨n, nd, inner, there, hash, member⟩, fun same => kept ⟨same, ?_⟩⟩
  have listed : n ∈ it.list s.keys := (it.mem _ n).mpr (S.mem_keys.mpr (S.mem_live there))
  simpa [inner] using listed

end HashTree.TreeState

namespace KvIndex

open Function HashTree

theorem attributes_event {s : TreeState} {w v : KvWorkerId} {b : BlockHash} (sound : s.Sound)
    (it : Iteration) (now : Nat) (e : KvCacheEvent)
      (has : (s.exec (e.op it now v)).Attributes w b) :
    s.Attributes w b ∨ (w = v ∧ b ∈ e.stored) := by
  obtain ⟨⟨G, S⟩, spare⟩ := sound
  cases e with
  | blockStored parent hashes =>
    obtain ⟨pn, there⟩ := TreeState.resolveParent_some it S v parent
    exact TreeState.attributes_insertLoop now v hashes parent S spare there has
  | blockRemoved hashes =>
    obtain ⟨n, nd, inner, there, hash, member, -⟩ :=
      TreeState.attributes_of_trims (TreeState.remove_trims it ⟨⟨G, S⟩, spare⟩ v hashes) has
    exact .inl ⟨n, nd, inner, there, hash, member⟩
  | allBlocksCleared => exact .inl (TreeState.attributes_clear ⟨⟨G, S⟩, spare⟩ it has).1

namespace Index

def Clean (x : Index) (w : KvWorkerId) : Prop := (∀ b, ¬ x.tree.Attributes w b) ∧ x.cursors w = none

def callOf (calls : List Call) (url : String) : Option Call := calls.find? (fun c => c.url = url)

def Settled (entry : Option (List Nat)) (live clean : Nat → Prop) : Option Call → Prop
  | none | some (.mark ..) | some (.take _) =>
    (∀ r, live r → ∃ ranks, entry = some ranks ∧ r ∈ ranks) ∧ ∀ r, ¬ live r → clean r
  | some (.enter _ ranks) => (∀ r, live r ↔ r ∈ ranks) ∧ ∀ r, ¬ live r → clean r
  | some (.subscribe _ left) =>
    (∀ r ∈ left, live r) ∧ (∀ r, live r → ∃ ranks, entry = some ranks ∧ r ∈ ranks) ∧
      ∀ r, ¬ live r → clean r
  | some (.kill _ ranks) => entry = none ∧ (∀ r, live r → r ∈ ranks) ∧ ∀ r, ¬ live r → clean r
  | some (.cancel _ ranks) | some (.join _ ranks) | some (.clear _ ranks) =>
    entry = none ∧ (∀ r, ¬ live r) ∧ ∀ r, r ∉ ranks → clean r

theorem Settled.mono {entry : Option (List Nat)} {live clean clean' : Nat → Prop} {c : Option Call}
    (settled : Settled entry live clean c) (keeps : ∀ r, ¬ live r → clean r → clean' r) :
    Settled entry live clean' c := by
  rcases c with - | c
  · exact ⟨settled.1, fun r dead => keeps r dead (settled.2 r dead)⟩
  cases c with
  | mark | take | enter => exact ⟨settled.1, fun r dead => keeps r dead (settled.2 r dead)⟩
  | subscribe => exact ⟨settled.1, settled.2.1, fun r dead => keeps r dead (settled.2.2 r dead)⟩
  | kill => exact ⟨settled.1, settled.2.1, fun r dead => keeps r dead (settled.2.2 r dead)⟩
  | cancel | join | clear =>
    exact ⟨settled.1, settled.2.1, fun r other => keeps r (settled.2.1 r) (settled.2.2 r other)⟩

def Resting : Option Call → Prop
  | none | some (.mark ..) | some (.take _) => True
  | _ => False

structure Sane (x : Index) : Prop where
  tree : x.tree.Sound
  apart : (x.calls.map Call.url).Nodup
  channel : ∀ ev ∈ x.channel, ev.subscription = x.started ev.worker ∧ ev ∈ x.sent
  pump : ∀ ev, x.pump.event = some ev → ev.subscription = x.started ev.worker ∧ ev ∈ x.sent
  applying : ∀ ev seq left, x.pump = .applying ev seq left →
    ∃ events, ev.message = .batch seq events ∧ ∀ e ∈ left, e ∈ events
  tasks : ∀ w g, (w, g) ∈ x.handles ∨ (w, g) ∈ x.stopping → g = x.started w
  blocks : ∀ w b, x.tree.Attributes w b →
    ∃ ev ∈ x.sent, ev.worker = w ∧ ev.subscription = x.started w ∧ b ∈ ev.message.stored
  cursor : ∀ w c, x.cursors w = some c →
    ∃ ev ∈ x.sent, ev.worker = w ∧ ev.subscription = x.started w ∧
      ∃ events, ev.message = .batch c events
  accepted : ∀ ev, x.pump.accepted = some ev → ev.worker ∈ x.liveWorkers
  settled : ∀ url, Settled (x.workers url) (fun r => ⟨url, r⟩ ∈ x.liveWorkers)
    (fun r => x.Clean ⟨url, r⟩) (callOf x.calls url)
  window : ∀ w ∈ x.liveWorkers, (∀ g, (w, g) ∉ x.handles) → x.Quiet w ∧ x.Clean w
  gone : ∀ url ∈ x.removed, x.workers url = none ∧ (∀ r, (⟨url, r⟩ : KvWorkerId) ∉ x.liveWorkers) ∧
    Resting (callOf x.calls url)

variable {x y : Index}

theorem sane_start : Sane {} where
  tree := TreeState.sound_new 0
  apart := nodup_nil
  channel := by simp
  pump := by simp [Pump.event]
  applying := by simp
  tasks := by simp
  blocks := by
    rintro w b ⟨n, nd, inner, there, -⟩
    simp [TreeState.new, inner] at there
  cursor := by simp
  accepted := by simp [Pump.accepted]
  settled := by
    intro url
    refine ⟨by simp, fun r _ => ⟨?_, rfl⟩⟩
    rintro b ⟨n, nd, inner, there, -⟩
    simp [TreeState.new, inner] at there
  window := by simp
  gone := by simp

section

variable (sane : x.Sane)
include sane

variable {ev : WorkerEvent}

theorem Sane.pumped (tree : TreeState)
    (cursors : KvWorkerId → Option Int) (pump : Pump) (at_ev : x.pump.event = some ev)
    (live : ev.worker ∈ x.liveWorkers) (sound : tree.Sound)
    (blocks : ∀ w b, tree.Attributes w b →
      x.tree.Attributes w b ∨ (w = ev.worker ∧ b ∈ ev.message.stored))
    (cursor : ∀ w, w ≠ ev.worker → cursors w = x.cursors w)
    (own : ∀ c, cursors ev.worker = some c → x.cursors ev.worker = some c ∨
      ∃ events, ev.message = .batch c events)
    (next : pump.event = none ∨ pump.event = some ev)
    (applying : ∀ ev' seq left, pump = .applying ev' seq left →
      ∃ events, ev'.message = .batch seq events ∧ ∀ e ∈ left, e ∈ events) :
    Sane { x with tree := tree, cursors := cursors, pump := pump } := by
  obtain ⟨stamp, sent⟩ := sane.pump ev at_ev
  have clean : ∀ w, w ≠ ev.worker → x.Clean w →
      Clean { x with tree := tree, cursors := cursors, pump := pump } w := by
    rintro w other ⟨none, cur⟩
    refine ⟨fun b has => ?_, (cursor w other).trans cur⟩
    rcases blocks w b has with old | ⟨same, -⟩
    · exact none b old
    · exact other same
  have kept : ∀ ev', pump.event = some ev' → ev' = ev := by
    intro ev' same
    rcases next with none | eq
    · rw [none] at same
      cases same
    · exact Option.some.inj (same.symm.trans eq)
  refine ⟨sound, sane.apart, sane.channel, ?_, applying, sane.tasks, ?_, ?_, ?_, ?_, ?_, sane.gone⟩
  · intro ev' at_ev'
    exact kept ev' at_ev' ▸ ⟨stamp, sent⟩
  · intro w b has
    rcases blocks w b has with old | ⟨rfl, stored⟩
    · exact sane.blocks w b old
    · exact ⟨ev, sent, rfl, stamp, stored⟩
  · intro w c set
    by_cases other : w = ev.worker
    · subst other
      rcases own c set with old | batch
      · exact sane.cursor _ c old
      · exact ⟨ev, sent, rfl, stamp, batch⟩
    · exact sane.cursor w c ((cursor w other).symm.trans set)
  · intro ev' accepted
    have at_ev' : pump.event = some ev' := by
      cases pump with
      | idle => cases accepted
      | received => cases accepted
      | checked => exact accepted
      | applying => exact accepted
    exact kept ev' at_ev' ▸ live
  · intro url
    exact (sane.settled url).mono
      (fun r dead was => clean _ (fun same => dead (by rw [same]; exact live)) was)
  · intro w wlive free
    obtain ⟨⟨channel, pumped, handles, stopping⟩, was⟩ := sane.window w wlive free
    -- a live worker without a handle is quiet, so the pump is at an event of another one
    have other : w ≠ ev.worker := fun same => pumped ev at_ev same.symm
    refine ⟨⟨channel, fun ev' at_ev' => ?_, handles, stopping⟩, clean w other was⟩
    exact kept ev' at_ev' ▸ other.symm

theorem Sane.receive {rest : List WorkerEvent}
    (queue : x.channel = ev :: rest) : Sane { x with channel := rest, pump := .received ev } := by
  have listed : ev ∈ x.channel := by
    rw [queue]
    exact mem_cons_self
  have fewer : ∀ ev' ∈ rest, ev' ∈ x.channel := by
    intro ev' member
    rw [queue]
    exact mem_cons_of_mem _ member
  refine ⟨sane.tree, sane.apart, fun ev' member => sane.channel ev' (fewer ev' member), ?_, ?_,
    sane.tasks, sane.blocks, sane.cursor, ?_, sane.settled, ?_, sane.gone⟩
  · intro ev' at_ev
    cases at_ev
    exact sane.channel ev listed
  · intro ev' seq left no
    cases no
  · intro ev' no
    cases no
  · intro w live free
    obtain ⟨⟨channel, -, handles, stopping⟩, was⟩ := sane.window w live free
    refine ⟨⟨fun ev' member => channel ev' (fewer ev' member), ?_, handles, stopping⟩, was⟩
    intro ev' at_ev
    cases at_ev
    exact channel ev listed

theorem Sane.drop : Sane { x with pump := .idle } := by
  refine { sane with pump := ?_, applying := ?_, accepted := ?_, window := ?_ }
  · intro ev' no
    cases no
  · intro ev' seq left no
    cases no
  · intro ev' no
    cases no
  · intro w live free
    obtain ⟨⟨channel, -, handles, stopping⟩, was⟩ := sane.window w live free
    refine ⟨⟨channel, ?_, handles, stopping⟩, was⟩
    intro ev' no
    cases no

theorem Sane.start {seq : Int} {events : List KvCacheEvent}
    (at_ev : x.pump.event = some ev) (live : ev.worker ∈ x.liveWorkers)
    (batch : ev.message = .batch seq events) : Sane { x with pump := .applying ev seq events } := by
  refine sane.pumped x.tree x.cursors (.applying ev seq events) at_ev live sane.tree
    (fun _ _ has => .inl has) (fun _ _ => rfl) (fun _ set => .inl set) (.inr rfl) ?_
  intro ev' seq' left same
  injection same with same_ev same_seq same_left
  subst same_ev same_seq same_left
  exact ⟨events, batch, fun _ member => member⟩

theorem Sane.pumpStep {it : Iteration} (stepped : x.pumpStep it now = some y) : y.Sane := by
  cases at_pump : x.pump with
  | idle =>
    cases queue : x.channel with
    | nil => simp [Index.pumpStep, at_pump, queue] at stepped
    | cons ev rest =>
      simp only [Index.pumpStep, at_pump, queue] at stepped
      cases stepped
      exact sane.receive queue
  | received ev =>
    simp only [Index.pumpStep, at_pump] at stepped
    split at stepped
    · rename_i live
      cases stepped
      exact sane.pumped x.tree x.cursors (.checked ev) (by rw [at_pump]; rfl) live sane.tree
        (fun _ _ has => .inl has) (fun _ _ => rfl) (fun _ set => .inl set) (.inr rfl) (by simp)
    · cases stepped
      exact sane.drop
  | checked ev =>
    have at_ev : x.pump.event = some ev := by rw [at_pump]; rfl
    have live := sane.accepted ev (by rw [at_pump]; rfl)
    cases sent : ev.message with
    | publisherReset =>
      simp only [Index.pumpStep, at_pump, sent] at stepped
      cases stepped
      exact sane.pumped x.tree (update x.cursors ev.worker none) .idle at_ev live sane.tree
        (fun _ _ has => .inl has) (fun _ other => update_of_ne other _ _)
        (fun c set => by simp at set) (.inl rfl) (by simp)
    | batch seq events =>
      simp only [Index.pumpStep, at_pump, sent] at stepped
      split at stepped
      · split at stepped
        · cases stepped
          exact sane.drop
        · cases stepped
          exact sane.start at_ev live sent
      · cases stepped
        exact sane.start at_ev live sent
  | applying ev seq left =>
    have at_ev : x.pump.event = some ev := by rw [at_pump]; rfl
    have live := sane.accepted ev (by rw [at_pump]; rfl)
    obtain ⟨events, batch, within⟩ := sane.applying ev seq left at_pump
    cases left with
    | nil =>
      simp only [Index.pumpStep, at_pump] at stepped
      cases stepped
      refine sane.pumped x.tree (update x.cursors ev.worker (some seq)) .idle at_ev live sane.tree
        (fun _ _ has => .inl has) (fun _ other => update_of_ne other _ _) (fun c set => ?_)
          (.inl rfl)
        (by simp)
      rw [update_self] at set
      cases set
      exact .inr ⟨events, batch⟩
    | cons e left =>
      simp only [Index.pumpStep, at_pump] at stepped
      cases stepped
      refine sane.pumped (x.tree.exec (e.op it now ev.worker)) x.cursors
        (.applying ev seq left) at_ev
        live (sane.tree.exec _) ?_ (fun _ _ => rfl) (fun _ set => .inl set) (.inr rfl) ?_
      · intro w b has
        rcases attributes_event sane.tree it now e has with old | ⟨same, stored⟩
        · exact .inl old
        · refine .inr ⟨same, ?_⟩
          rw [batch]
          exact mem_flatMap.mpr ⟨e, within e mem_cons_self, stored⟩
      · intro ev' seq' left' same
        injection same with same_ev same_seq same_left
        subst same_ev same_seq same_left
        exact ⟨events, batch, fun e' member => within e' (mem_cons_of_mem _ member)⟩

end

variable {calls : List Call}

theorem callOf_eq_some (apart : (calls.map Call.url).Nodup) {url : String} {c : Call} :
    callOf calls url = some c ↔ c ∈ calls ∧ c.url = url := by
  constructor
  · intro found
    exact ⟨mem_of_find?_eq_some found, by simpa using find?_some found⟩
  · rintro ⟨member, same⟩
    cases found : callOf calls url with
    | none =>
      have no := find?_eq_none.mp found c member
      simp [same] at no
    | some d =>
      have dsame : d.url = url := by simpa using find?_some found
      have dmember := mem_of_find?_eq_some found
      rw [inj_on_of_nodup_map apart dmember member (dsame.trans same.symm)]

structure Moves (calls calls' : List Call) (url : String) (was next : Option Call) : Prop where
  apart : (calls'.map Call.url).Nodup
  before : callOf calls url = was
  after : callOf calls' url = next
  others : ∀ other, other ≠ url → callOf calls' other = callOf calls other

theorem moves_advance {i : Nat} {c : Call} {next : Option Call}
    (apart : (calls.map Call.url).Nodup) (at_i : calls[i]? = some c)
    (same : ∀ d, next = some d → d.url = c.url) :
    Moves calls (calls.eraseIdx i ++ next.toList) c.url (some c) next := by
  obtain ⟨bound, rfl⟩ := List.getElem?_eq_some_iff.mp at_i
  have perm := getElem_cons_eraseIdx_perm bound
  have split : ((calls[i] :: calls.eraseIdx i).map Call.url).Nodup :=
    (perm.map _).nodup_iff.mpr apart
  obtain ⟨fresh, rest⟩ := nodup_cons.mp split
  have apart' : ((calls.eraseIdx i ++ next.toList).map Call.url).Nodup := by
    cases next with
    | none => simpa using rest
    | some d =>
      rw [map_append, nodup_append]
      refine ⟨rest, by simp, ?_⟩
      rintro u left v right rfl
      have : u = calls[i].url := by simpa [same d rfl] using right
      exact fresh (this ▸ left)
  have mem : ∀ d, d ∈ calls ↔ d = calls[i] ∨ d ∈ calls.eraseIdx i := by
    intro d
    rw [← perm.mem_iff, mem_cons]
  refine ⟨apart', (callOf_eq_some apart).mpr ⟨getElem_mem bound, rfl⟩, ?_, ?_⟩
  · ext d
    rw [callOf_eq_some apart', mem_append, Option.mem_toList]
    constructor
    · rintro ⟨left | now, url⟩
      · exact absurd (mem_map.mpr ⟨d, left, url⟩) fresh
      · exact now
    · exact fun now => ⟨.inr now, same d now⟩
  · intro other differs
    ext d
    rw [callOf_eq_some apart', callOf_eq_some apart, mem_append, Option.mem_toList, mem]
    constructor
    · rintro ⟨left | now, rfl⟩
      · exact ⟨.inr left, rfl⟩
      · exact absurd (same d now) differs
    · rintro ⟨rfl | left, rfl⟩
      · exact absurd rfl differs
      · exact ⟨.inl left, rfl⟩

theorem moves_call {c : Call} (apart : (calls.map Call.url).Nodup)
    (alone : ∀ d ∈ calls, d.url ≠ c.url) : Moves calls (calls ++ [c]) c.url none (some c) := by
  have apart' : ((calls ++ [c]).map Call.url).Nodup := by
    rw [map_append, nodup_append]
    refine ⟨apart, by simp, ?_⟩
    rintro u left v right rfl
    obtain ⟨d, member, rfl⟩ := mem_map.mp left
    exact alone d member (by simpa using right)
  refine ⟨apart', ?_, (callOf_eq_some apart').mpr ⟨by simp, rfl⟩, ?_⟩
  · exact find?_eq_none.mpr (fun d member => by simpa using alone d member)
  · intro other differs
    ext d
    rw [callOf_eq_some apart', callOf_eq_some apart, mem_append, mem_singleton]
    constructor
    · rintro ⟨left | rfl, rfl⟩
      · exact ⟨left, rfl⟩
      · exact absurd rfl differs
    · rintro ⟨left, rfl⟩
      exact ⟨.inl left, rfl⟩

end Index

end KvIndex

end RedKnot.Router
