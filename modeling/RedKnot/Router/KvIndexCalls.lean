import RedKnot.Lib.ForLoop
import RedKnot.Router.KvIndexRuns

/-! What is attributed to a worker comes from its current subscription, as long as the calls are
orderly. -/

namespace RedKnot.Router.KvIndex.Index

open Function HashTree Finset List

variable {x y : Index} {calls : List Call} {url : String} {ranks : List Nat}

theorem mem_ids {w : KvWorkerId} : w ∈ ids url ranks ↔ w.url = url ∧ w.dpRank ∈ ranks := by
  simp only [ids, mem_toFinset, List.mem_map]
  constructor
  · rintro ⟨r, member, rfl⟩
    exact ⟨rfl, member⟩
  · rintro ⟨rfl, member⟩
    exact ⟨w.dpRank, member, rfl⟩

theorem Moves.settled {was next : Option Call} (moves : Moves x.calls calls url was next)
    (here : Settled (y.workers url) (fun r => ⟨url, r⟩ ∈ y.liveWorkers)
      (fun r => y.Clean ⟨url, r⟩) next)
    (others : ∀ u, u ≠ url → Settled (y.workers u) (fun r => ⟨u, r⟩ ∈ y.liveWorkers)
      (fun r => y.Clean ⟨u, r⟩) (callOf x.calls u)) (u : String) :
    Settled (y.workers u) (fun r => ⟨u, r⟩ ∈ y.liveWorkers) (fun r => y.Clean ⟨u, r⟩)
      (callOf calls u) := by
  by_cases same : u = url
  · subst same
    rw [moves.after]
    exact here
  · rw [moves.others u same]
    exact others u same

section

variable (sane : x.Sane)
include sane

theorem Sane.move {was next : Option Call} (moves : Moves x.calls calls url was next)
    (settled : Settled (x.workers url) (fun r => ⟨url, r⟩ ∈ x.liveWorkers)
      (fun r => x.Clean ⟨url, r⟩) next)
    (gone : url ∈ x.removed → Resting next) : Sane { x with calls := calls } := by
  refine { sane with
    apart := moves.apart
    settled := moves.settled settled (fun u _ => sane.settled u)
    gone := ?_ }
  · intro u left
    obtain ⟨empty, dead, rest⟩ := sane.gone u left
    refine ⟨empty, dead, ?_⟩
    by_cases same : u = url
    · subst same
      rw [show callOf calls u = next from moves.after]
      exact gone left
    · rw [show callOf calls u = _ from moves.others u same]
      exact rest

theorem Sane.not_removed {c : Call} (at_c : callOf x.calls url = some c)
    (busy : ¬ Resting (some c)) : url ∉ x.removed := by
  intro left
  have rest := (sane.gone url left).2.2
  rw [at_c] at rest
  exact busy rest

theorem Sane.here {was next : Option Call} (moves : Moves x.calls calls url was next) :
    Settled (x.workers url) (fun r => ⟨url, r⟩ ∈ x.liveWorkers) (fun r => x.Clean ⟨url, r⟩) was :=
  moves.before ▸ sane.settled url

/-- A removed URL is not the one of a call that is under way. -/
theorem Sane.gone_other {c : Call} {next : Option Call} {u : String}
    (moves : Moves x.calls calls url (some c) next) (busy : ¬ Resting (some c))
    (left : u ∈ x.removed) : u ≠ url ∧ x.workers u = none ∧
      (∀ r, (⟨u, r⟩ : KvWorkerId) ∉ x.liveWorkers) ∧ Resting (callOf calls u) := by
  have differs : u ≠ url := fun same => sane.not_removed moves.before busy (same ▸ left)
  rw [moves.others u differs]
  exact ⟨differs, sane.gone u left⟩

theorem Sane.mark (moves : Moves x.calls calls url (some (.mark url ranks))
    (some (.enter url ranks)))
    (quiet : ∀ rank ∈ ranks, (⟨url, rank⟩ : KvWorkerId) ∉ x.liveWorkers → x.Quiet ⟨url, rank⟩)
    (all : ∀ w ∈ x.liveWorkers, w.url = url → w.dpRank ∈ ranks) :
    Sane { x with
      liveWorkers := x.liveWorkers ∪ ids url ranks
      removed := x.removed.erase url
      calls := calls } := by
  have here := sane.here moves
  have others : ∀ u, u ≠ url → ∀ r,
      ((⟨u, r⟩ : KvWorkerId) ∈ x.liveWorkers ∪ ids url ranks ↔ ⟨u, r⟩ ∈ x.liveWorkers) := by
    intro u differs r
    simp [mem_ids, differs]
  refine { sane with
    apart := moves.apart
    accepted := fun ev accepted => Finset.mem_union_left _ (sane.accepted ev accepted)
    settled := moves.settled ⟨fun r => ⟨fun live => ?_, fun member => ?_⟩, fun r dead => ?_⟩ ?_
    window := ?_
    gone := ?_ }
  · rcases mem_union.mp live with old | new
    · exact all _ old rfl
    · exact (mem_ids.mp new).2
  · exact Finset.mem_union_right _ (mem_ids.mpr ⟨rfl, member⟩)
  · exact here.2 r (fun live => dead (Finset.mem_union_left _ live))
  · intro u differs
    simp only [others u differs]
    exact sane.settled u
  · intro w live free
    by_cases old : w ∈ x.liveWorkers
    · exact sane.window w old free
    · obtain ⟨rfl, member⟩ := mem_ids.mp ((mem_union.mp live).resolve_left old)
      exact ⟨quiet _ member old, here.2 _ old⟩
  · intro u left
    obtain ⟨differs, left⟩ := mem_erase.mp left
    rw [show callOf calls u = _ from moves.others u differs]
    simp only [others u differs]
    exact sane.gone u left

theorem Sane.enter (moves : Moves x.calls calls url (some (.enter url ranks))
    (some (.subscribe url ranks))) :
    Sane { x with workers := update x.workers url (some ranks), calls := calls } := by
  have here := sane.here moves
  refine { sane with
    apart := moves.apart
    settled := moves.settled ⟨fun r member => (here.1 r).mpr member,
      fun r live => ⟨ranks, update_self _ _ _, (here.1 r).mp live⟩, here.2⟩ ?_
    gone := ?_ }
  · intro u differs
    simp only [update_of_ne differs]
    exact sane.settled u
  · intro u left
    obtain ⟨differs, gone⟩ := sane.gone_other moves id left
    simp only [update_of_ne differs]
    exact gone

theorem Sane.subscribe {rank : Nat}
    (moves : Moves x.calls calls url (some (.subscribe url (rank :: ranks)))
      (some (.subscribe url ranks)))
    (free : ∀ g, ((⟨url, rank⟩ : KvWorkerId), g) ∉ x.handles) :
    Sane { x with
      handles := x.handles ++ [(⟨url, rank⟩, x.started ⟨url, rank⟩ + 1)]
      started := update x.started ⟨url, rank⟩ (x.started ⟨url, rank⟩ + 1)
      calls := calls } := by
  have here := sane.here moves
  have live := here.1 rank mem_cons_self
  -- nothing of an earlier subscription is left when the number of the subscription changes
  obtain ⟨⟨channel, pumped, -, stopping⟩, none, cur⟩ := sane.window ⟨url, rank⟩ live free
  generalize (⟨url, rank⟩ : KvWorkerId) = w at live free channel pumped stopping none cur ⊢
  have kept : ∀ v, v ≠ w → update x.started w (x.started w + 1) v = x.started v :=
    fun v other => update_of_ne other _ _
  refine ⟨sane.tree, moves.apart, ?_, ?_, sane.applying, ?_, ?_, ?_, sane.accepted,
    moves.settled ⟨fun r member => here.1 r (mem_cons_of_mem _ member), here.2⟩
      (fun u _ => sane.settled u), ?_, ?_⟩
  · intro ev member
    simp only [kept _ (channel ev member)]
    exact sane.channel ev member
  · intro ev at_ev
    simp only [kept _ (pumped ev at_ev)]
    exact sane.pump ev at_ev
  · intro v g task
    rcases task with handle | stop
    · rcases mem_append.mp handle with old | new
      · have other : v ≠ w := by
          rintro rfl
          exact free g old
        exact (sane.tasks v g (.inl old)).trans (kept v other).symm
      · cases List.mem_singleton.mp new
        simp
    · have other : v ≠ w := by
        rintro rfl
        exact stopping g stop
      exact (sane.tasks v g (.inr stop)).trans (kept v other).symm
  · intro v b has
    have other : v ≠ w := by
      rintro rfl
      exact none b has
    simp only [kept v other]
    exact sane.blocks v b has
  · intro v c set
    have other : v ≠ w := by
      rintro rfl
      rw [cur] at set
      cases set
    simp only [kept v other]
    exact sane.cursor v c set
  · intro v vlive vfree
    have fewer : ∀ g, (v, g) ∉ x.handles := fun g handle => vfree g (mem_append_left _ handle)
    obtain ⟨⟨vchannel, vpumped, -, vstopping⟩, vclean⟩ := sane.window v vlive fewer
    exact ⟨⟨vchannel, vpumped, vfree, vstopping⟩, vclean⟩
  · exact fun u left => (sane.gone_other moves id left).2

theorem Sane.return {was : Option Call} (moves : Moves x.calls calls url was none)
    (empty : x.workers url = none) (dead : ∀ r, (⟨url, r⟩ : KvWorkerId) ∉ x.liveWorkers)
    (clean : ∀ r, x.Clean ⟨url, r⟩) :
    Sane { x with removed := insert url x.removed, calls := calls } := by
  refine { sane with
    apart := moves.apart
    settled := moves.settled ⟨fun r live => absurd live (dead r), fun r _ => clean r⟩
      (fun u _ => sane.settled u)
    gone := ?_ }
  · intro u left
    by_cases same : u = url
    · subst same
      rw [show callOf calls u = _ from moves.after]
      exact ⟨empty, dead, trivial⟩
    · rw [show callOf calls u = _ from moves.others u same]
      exact sane.gone u ((mem_insert.mp left).resolve_left same)

theorem Sane.take (moves : Moves x.calls calls url (some (.take url)) (some (.kill url ranks)))
    (entry : x.workers url = some ranks) :
    Sane { x with workers := update x.workers url none, calls := calls } := by
  have here := sane.here moves
  refine { sane with
    apart := moves.apart
    settled := moves.settled ⟨update_self _ _ _, fun r live => ?_, here.2⟩ ?_
    gone := ?_ }
  · obtain ⟨listed, there, member⟩ := here.1 r live
    cases entry.symm.trans there
    exact member
  · intro u differs
    simp only [update_of_ne differs]
    exact sane.settled u
  · intro u left
    have differs : u ≠ url := by
      rintro rfl
      have empty := (sane.gone u left).1
      rw [entry] at empty
      cases empty
    rw [show callOf calls u = _ from moves.others u differs]
    simp only [update_of_ne differs]
    exact sane.gone u left

theorem Sane.kill (moves : Moves x.calls calls url (some (.kill url ranks))
    (some (.cancel url ranks)))
    (between : ∀ ev, x.pump.accepted = some ev → ev.worker.url ≠ url) :
    Sane { x with liveWorkers := x.liveWorkers \ ids url ranks, calls := calls } := by
  obtain ⟨empty, listed, clean⟩ := sane.here moves
  have others : ∀ u, u ≠ url → ∀ r,
      ((⟨u, r⟩ : KvWorkerId) ∈ x.liveWorkers \ ids url ranks ↔ ⟨u, r⟩ ∈ x.liveWorkers) := by
    intro u differs r
    simp [mem_ids, differs]
  refine { sane with
    apart := moves.apart
    accepted := ?_
    settled := moves.settled ⟨empty, fun r live => ?_,
      fun r unlisted => clean r (fun live => unlisted (listed r live))⟩ ?_
    window := fun w live free => sane.window w (mem_sdiff.mp live).1 free
    gone := ?_ }
  · intro ev accepted
    refine mem_sdiff.mpr ⟨sane.accepted ev accepted, fun killed => ?_⟩
    exact between ev accepted (mem_ids.mp killed).1
  · obtain ⟨was, spared⟩ := mem_sdiff.mp live
    exact spared (mem_ids.mpr ⟨rfl, listed r was⟩)
  · intro u differs
    simp only [others u differs]
    exact sane.settled u
  · intro u left
    obtain ⟨differs, gone⟩ := sane.gone_other moves id left
    simp only [others u differs]
    exact gone

theorem Sane.cancel (moves : Moves x.calls calls url (some (.cancel url ranks))
    (some (.join url ranks))) :
    Sane { x with
      handles := x.handles.filter (fun h => h.1.url ≠ url)
      stopping := x.stopping ++ x.handles.filter (fun h => h.1.url = url)
      calls := calls } := by
  have here := sane.here moves
  have moved := sane.move moves here (fun left => sane.not_removed moves.before id left)
  refine { moved with tasks := ?_, window := ?_ }
  · intro w g task
    rcases task with handle | stop
    · exact sane.tasks w g (.inl (mem_of_mem_filter handle))
    · rcases mem_append.mp stop with old | new
      · exact sane.tasks w g (.inr old)
      · exact sane.tasks w g (.inl (mem_of_mem_filter new))
  · intro w live free
    -- the ranks of the URL are dead since `kill`
    have differs : w.url ≠ url := by
      rintro rfl
      exact here.2.1 w.dpRank live
    have none : ∀ g, (w, g) ∉ x.handles := by
      intro g handle
      exact free g (mem_filter.mpr ⟨handle, by simpa using differs⟩)
    obtain ⟨⟨channel, pumped, -, stopping⟩, clean⟩ := sane.window w live none
    refine ⟨⟨channel, pumped, free, fun g stop => ?_⟩, clean⟩
    rcases mem_append.mp stop with old | new
    · exact stopping g old
    · exact none g (mem_of_mem_filter new)

theorem Sane.join (moves : Moves x.calls calls url (some (.join url ranks))
    (some (.clear url ranks))) :
    Sane { x with stopping := x.stopping.filter (fun h => h.1.url ≠ url), calls := calls } := by
  have here := sane.here moves
  have moved := sane.move moves here (fun left => sane.not_removed moves.before id left)
  refine { moved with tasks := ?_, window := ?_ }
  · intro w g task
    exact sane.tasks w g (task.imp_right mem_of_mem_filter)
  · intro w live free
    obtain ⟨⟨channel, pumped, handles, stopping⟩, clean⟩ := sane.window w live free
    exact ⟨⟨channel, pumped, handles, fun g stop => stopping g (mem_of_mem_filter stop)⟩,
      clean⟩

theorem Sane.clear {rank : Nat} (it : Iteration)
    (moves : Moves x.calls calls url (some (.clear url (rank :: ranks)))
      (some (.clear url ranks))) :
    Sane { x with
      tree := x.tree.exec (.clearWorker it ⟨url, rank⟩)
      cursors := update x.cursors ⟨url, rank⟩ none
      calls := calls } := by
  obtain ⟨empty, dead, others⟩ := sane.here moves
  generalize same : (⟨url, rank⟩ : KvWorkerId) = w
  have clean : ∀ v, v = w ∨ x.Clean v → Clean { x with
      tree := x.tree.exec (.clearWorker it w)
      cursors := update x.cursors w none
      calls := calls } v := by
    intro v was
    constructor
    · intro b has
      obtain ⟨old, other⟩ := TreeState.attributes_clear sane.tree it has
      exact (was.resolve_left other).1 b old
    · by_cases other : v = w
      · subst other
        exact update_self _ _ _
      · exact (update_of_ne other _ _).trans (was.resolve_left other).2
  refine ⟨sane.tree.exec (.clearWorker it w), moves.apart, sane.channel, sane.pump, sane.applying,
    sane.tasks, ?_, ?_,
    sane.accepted, moves.settled ⟨empty, dead, fun r left => clean _ ?_⟩
      (fun u _ => (sane.settled u).mono (fun r _ was => clean _ (.inr was))), ?_, ?_⟩
  · intro v b has
    exact sane.blocks v b (TreeState.attributes_clear sane.tree it has).1
  · intro v c set
    by_cases other : v = w
    · subst other
      simp at set
    · exact sane.cursor v c ((update_of_ne other _ _).symm.trans set)
  · by_cases now : r = rank
    · exact .inl (now ▸ same)
    · exact .inr (others r (by simp [now, left]))
  · intro v live free
    obtain ⟨quiet, was⟩ := sane.window v live free
    exact ⟨quiet, clean v (.inr was)⟩
  · exact fun u left => (sane.gone_other moves id left).2

theorem Sane.advance {i : Nat} {c : Call} (it : Iteration) (at_i : x.calls[i]? = some c)
    (orderly : Orderly x (.advance i it)) :
    Sane { (x.advance it c).1 with calls := x.calls.eraseIdx i ++ (x.advance it c).2.toList } := by
  simp only [Orderly, at_i] at orderly
  have moves : ∀ next : Option Call, (∀ d, next = some d → d.url = c.url) →
      Moves x.calls (x.calls.eraseIdx i ++ next.toList) c.url (some c) next :=
    fun _ same => moves_advance sane.apart at_i same
  have here := sane.settled c.url
  rw [(moves none (by simp)).before] at here
  cases c with
  | mark url ranks =>
    exact sane.mark (moves (some (.enter url ranks)) (by rintro _ ⟨⟩; rfl)) orderly.1 orderly.2
  | enter url ranks => exact sane.enter (moves (some (.subscribe url ranks)) (by rintro _ ⟨⟩; rfl))
  | subscribe url ranks =>
    cases ranks with
    | nil =>
      have moved := moves none (by simp)
      exact sane.move moved here.2 (fun _ => trivial)
    | cons rank ranks =>
      have moved := moves (some (.subscribe url ranks)) (by rintro _ ⟨⟩; rfl)
      simp only [Index.advance]
      split
      · refine sane.move moved ?_ (fun left => sane.not_removed moved.before id left)
        exact ⟨fun r member => here.1 r (mem_cons_of_mem _ member), here.2⟩
      · rename_i free
        refine sane.subscribe moved (fun g handle => free ?_)
        exact any_eq_true.mpr ⟨_, handle, by simp⟩
  | take url =>
    cases entry : x.workers url with
    | none =>
      have dead : ∀ r, (⟨url, r⟩ : KvWorkerId) ∉ x.liveWorkers := by
        intro r live
        obtain ⟨ranks, there, -⟩ := here.1 r live
        cases entry.symm.trans there
      simp only [Index.advance, entry]
      exact sane.return (moves none (by simp)) entry dead (fun r => here.2 r (dead r))
    | some ranks =>
      simp only [Index.advance, entry]
      exact sane.take (moves (some (.kill url ranks)) (by rintro _ ⟨⟩; rfl)) entry
  | kill url ranks =>
    exact sane.kill (moves (some (.cancel url ranks)) (by rintro _ ⟨⟩; rfl)) orderly
  | cancel url ranks => exact sane.cancel (moves (some (.join url ranks)) (by rintro _ ⟨⟩; rfl))
  | join url ranks => exact sane.join (moves (some (.clear url ranks)) (by rintro _ ⟨⟩; rfl))
  | clear url ranks =>
    cases ranks with
    | nil =>
      exact sane.return (moves none (by simp)) here.1 here.2.1
        (fun r => here.2.2 r not_mem_nil)
    | cons rank ranks => exact sane.clear it (moves (some (.clear url ranks)) (by rintro _ ⟨⟩; rfl))

theorem Sane.send {w : KvWorkerId} {g : Nat} (message : Message)
    (task : (w, g) ∈ x.handles ∨ (w, g) ∈ x.stopping) :
    Sane { x with
      channel := x.channel ++ [⟨w, message, g⟩]
      sent := x.sent ++ [⟨w, message, g⟩] } := by
  refine { sane with channel := ?_, pump := ?_, blocks := ?_, cursor := ?_, window := ?_ }
  · intro ev member
    rcases mem_append.mp member with old | new
    · obtain ⟨stamp, sent⟩ := sane.channel ev old
      exact ⟨stamp, mem_append_left _ sent⟩
    · obtain rfl := List.mem_singleton.mp new
      exact ⟨sane.tasks w g task, mem_append_right _ new⟩
  · intro ev at_ev
    obtain ⟨stamp, sent⟩ := sane.pump ev at_ev
    exact ⟨stamp, mem_append_left _ sent⟩
  · intro v b has
    obtain ⟨ev, sent, rest⟩ := sane.blocks v b has
    exact ⟨ev, mem_append_left _ sent, rest⟩
  · intro v c set
    obtain ⟨ev, sent, rest⟩ := sane.cursor v c set
    exact ⟨ev, mem_append_left _ sent, rest⟩
  · intro v live free
    obtain ⟨⟨channel, pumped, handles, stopping⟩, clean⟩ := sane.window v live free
    refine ⟨⟨fun ev member => ?_, pumped, handles, stopping⟩, clean⟩
    rcases mem_append.mp member with old | new
    · exact channel ev old
    · obtain rfl := List.mem_singleton.mp new
      rintro rfl
      exact task.elim (free g) (stopping g)

theorem Sane.step {a : Action} (orderly : Orderly x a) (stepped : x.step a = some y) : y.Sane := by
  cases a with
  | addWorker url ranks =>
    cases stepped
    have moves : Moves x.calls (x.calls ++ [.mark url ranks]) url none _ :=
      moves_call sane.apart orderly
    have here := sane.here moves
    exact sane.move moves here (fun _ => trivial)
  | removeWorker url =>
    cases stepped
    have moves : Moves x.calls (x.calls ++ [.take url]) url none _ := moves_call sane.apart orderly
    have here := sane.here moves
    exact sane.move moves here (fun _ => trivial)
  | advance i it =>
    cases at_i : x.calls[i]? with
    | none => simp [Index.step, at_i] at stepped
    | some c =>
      simp only [Index.step, at_i] at stepped
      cases stepped
      exact sane.advance it at_i orderly
  | send w g message =>
    simp only [Index.step] at stepped
    split at stepped
    · rename_i task
      cases stepped
      exact sane.send message task
    · cases stepped
  | pump it now => exact sane.pumpStep stepped

end

theorem sane_of_reaches (reached : Reaches Orderly x) : x.Sane := by
  induction reached with
  | start => exact sane_start
  | step _ orderly stepped ih => exact ih.step orderly stepped

/-- What the index says about a worker was sent by its current subscription, and it says nothing
about a URL that was removed. -/
theorem index_knows_current_subscription (reached : Reaches Orderly x) :
    (∀ w b, x.tree.Attributes w b →
      ∃ ev ∈ x.sent, ev.worker = w ∧ ev.subscription = x.started w ∧ b ∈ ev.message.stored) ∧
    (∀ w, w.url ∈ x.removed → ∀ b, ¬ x.tree.Attributes w b) ∧
    ∀ w c, x.cursors w = some c → ∃ ev ∈ x.sent, ev.worker = w ∧ ev.subscription = x.started w ∧
      ∃ events, ev.message = .batch c events := by
  have sane := sane_of_reaches reached
  refine ⟨sane.blocks, fun w left b => ?_, sane.cursor⟩
  obtain ⟨-, dead, rest⟩ := sane.gone w.url left
  have here := sane.settled w.url
  cases call : callOf x.calls w.url with
  | none =>
    rw [call] at here
    exact (here.2 w.dpRank (dead w.dpRank)).1 b
  | some c =>
    rw [call] at here rest
    cases c with
    | mark | take => exact (here.2 w.dpRank (dead w.dpRank)).1 b
    | _ => exact rest.elim

theorem Reaches.pumps (run : Reaches Orderly x) (n : Nat)
    (h : (replicate n (.pump .sorted 0)).foldlM Index.step x = some y) : Reaches Orderly y :=
  of_foldlM (fun _ _ member _ before next =>
    before.step (eq_of_mem_replicate member ▸ trivial) next) run h

theorem clear_new (it : Iteration) (w : KvWorkerId) :
    (TreeState.new 0).exec (.clearWorker it w) = TreeState.new 0 := by
  have empty : (it.list (TreeState.new 0).keys).filter (· ≠ rootId) = [] := by
    refine filter_eq_nil_iff.mpr fun n member other => ?_
    have only : ∀ n ∈ (TreeState.new 0).keys, n = rootId := by decide
    exact of_decide_eq_true other (only n ((it.mem _ n).mp member))
  simp only [TreeState.exec, TreeState.clearWorker, empty, foldl_nil]

theorem re_added_worker_known : ∃ x, Reaches Orderly x ∧ x.tree.Attributes ⟨"a", 0⟩ 1 ∧
    ∃ ev ∈ x.sent, ev.worker = ⟨"a", 0⟩ ∧ ev.subscription = x.started ⟨"a", 0⟩ ∧
      1 ∈ ev.message.stored := by
  have first := (Reaches.start : Reaches Orderly {})
    |>.step (a := .addWorker "a" [0]) (by simp [Orderly]) rfl
    |>.step (a := .advance 0 .sorted) (by simp [Orderly, Quiet, Pump.event]) rfl
    |>.step (a := .advance 0 .sorted) trivial rfl
    |>.step (a := .advance 0 .sorted) trivial rfl
    |>.step (a := .advance 0 .sorted) trivial rfl
  have removed := first
    |>.step (a := .removeWorker "a") (fun _ call => by cases call) rfl
    |>.step (a := .advance 0 .sorted) trivial rfl
    |>.step (a := .advance 0 .sorted) (fun _ ev => by cases ev) rfl
    |>.step (a := .advance 0 .sorted) trivial rfl
    |>.step (a := .advance 0 .sorted) trivial rfl
    |>.step (a := .advance 0 .sorted) trivial rfl
    |>.step (a := .advance 0 .sorted) trivial rfl
  have run := removed
    |>.step (a := .addWorker "a" [0]) (fun _ call => by cases call) rfl
    |>.step (a := .advance 0 .sorted) ⟨fun _ _ _ => ⟨fun _ sent => (by cases sent),
      fun _ ev => (by cases ev), fun _ => not_mem_nil, fun _ => not_mem_nil⟩, by decide⟩ rfl
    |>.step (a := .advance 0 .sorted) trivial rfl
    |>.step (a := .advance 0 .sorted) trivial rfl
    |>.step (a := .advance 0 .sorted) trivial rfl
    |>.step (a := .send ⟨"a", 0⟩ 2 (.batch 1 [.blockStored none [1]])) trivial rfl
    |>.pumps 5 rfl
  have known : (((TreeState.new 0).exec (.clearWorker .sorted ⟨"a", 0⟩)).exec
      (.insert .sorted 0 ⟨"a", 0⟩ none [1])).Attributes ⟨"a", 0⟩ 1 := by
    rw [clear_new]
    exact ⟨1, _, by decide, rfl, rfl, by decide⟩
  exact ⟨_, run, known, (index_knows_current_subscription run).1 _ _ known⟩

def isReset : Message → Bool
  | .publisherReset => true
  | .batch _ _ => false

def recent (x : Index) (w : KvWorkerId) : List WorkerEvent :=
  (x.sent.filter (fun ev => ev.worker = w ∧ ev.subscription = x.started w)).reverse.takeWhile
    (fun ev => !isReset ev.message)

/-- A reset of the publisher forgets the cursor only: the tree keeps what was stored before it. -/
theorem reset_keeps_blocks : ¬ ∀ x, Reaches Orderly x → x.pump = .idle → ∀ w b,
    x.tree.Attributes w b → ∃ ev ∈ x.recent w, b ∈ ev.message.stored := by
  have run := (Reaches.start : Reaches Orderly {})
    |>.step (a := .addWorker "a" [0]) (by simp [Orderly]) rfl
    |>.step (a := .advance 0 .sorted) (by simp [Orderly, Quiet, Pump.event]) rfl
    |>.step (a := .advance 0 .sorted) trivial rfl
    |>.step (a := .advance 0 .sorted) trivial rfl
    |>.step (a := .advance 0 .sorted) trivial rfl
    |>.step (a := .send ⟨"a", 0⟩ 1 (.batch 1 [.blockStored none [1]])) trivial rfl
    |>.step (a := .send ⟨"a", 0⟩ 1 .publisherReset) trivial rfl
    |>.pumps 8 rfl
  intro current
  obtain ⟨ev, member, -⟩ :=
    current _ run rfl ⟨"a", 0⟩ 1 ⟨1, _, by decide, rfl, rfl, by decide⟩
  exact not_mem_nil (show ev ∈ [] from member)

end RedKnot.Router.KvIndex.Index
