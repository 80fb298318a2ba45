import RedKnot.Router.TreeEvict

/-! The tree as a refinement of the blocks that every worker holds. -/

namespace RedKnot.Router.HashTree

open Function LinkedTree Finset List TreeState

abbrev Held := KvWorkerId → Finset BlockHash

abbrev Parents := BlockHash → Option BlockHash

def Chained (par : Parents) : Option BlockHash → List BlockHash → Prop
  | _, [] => True
  | q, h :: hashes => par h = q ∧ Chained par (some h) hashes

namespace Held

def Closed (par : Parents) (held : Held) : Prop :=
  ∀ w h q, h ∈ held w → par h = some q → q ∈ held w

def gain (held : Held) (w : KvWorkerId) (h : BlockHash) : Held := update held w (insert h (held w))

def after (held : Held) : Op → Held
  | .insert _ _ w _ hashes => update held w (held w ∪ hashes.toFinset)
  | .remove _ w hashes => update held w (held w \ hashes.toFinset)
  | .clearWorker _ w => update held w ∅
  | .matchPrefix .. => held
  | .evictLru .. => held

inductive Allows (par : Parents) (held : Held) : Op → Prop where
  | insert {it : Iteration} {now : Nat} {w : KvWorkerId} {q : Option BlockHash}
      {hashes : List BlockHash} (chain : Chained par q hashes)
        (under : ∀ h, q = some h → h ∈ held w) :
      Allows par held (.insert it now w q hashes)
  | remove {it : Iteration} {w : KvWorkerId} {hashes : List BlockHash} :
      Allows par held (.remove it w hashes)
  | clearWorker {it : Iteration} {w : KvWorkerId} : Allows par held (.clearWorker it w)
  | matchPrefix {it : Iteration} {now : Nat} {q : Option BlockHash} {hashes : List BlockHash} :
      Allows par held (.matchPrefix it now q hashes)

end Held

namespace TreeState

inductive Reaches (par : Parents) : TreeState → Held → Prop where
  | start (now : Nat) : Reaches par (new now) (fun _ => ∅)
  | call {s : TreeState} {held : Held} (reached : Reaches par s held) (op : Op)
      (allowed : held.Allows par op) (closed : (held.after op).Closed par) :
      Reaches par (s.exec op) (held.after op)

def At (s : TreeState) (n : NodeId) : Option BlockHash → Prop
  | none => n = rootId
  | some q => n ≠ rootId ∧ ∃ nd, s.nodes n = some nd ∧ nd.blockHash = q

/-- The tree shows the sets: a node for every block that is held, under the node of its parent and
with the workers that hold it. -/
structure Shows (par : Parents) (s : TreeState) (held : Held) : Prop where
  shaped : ∃ G, s.Shaped G
  workers : ∀ n nd, n ≠ rootId → s.nodes n = some nd → ∀ w, w ∈ nd.workers ↔ nd.blockHash ∈ held w
  covers : ∀ w h, h ∈ held w → ∃ n, s.At n (some h)
  filed : ∀ n nd p, n ≠ rootId → s.nodes n = some nd → nd.parent = some p →
    s.At p (par nd.blockHash)

variable {par : Parents} {held : Held} {s s' : TreeState} {G : Outline} {n m p c : NodeId}
  {nd pn : Node} {h : BlockHash} {q r : Option BlockHash} {w : KvWorkerId}

theorem At.unique_hash (first : s.At n q) (second : s.At n r) : q = r := by
  cases q with
  | none =>
    cases r with
    | none => rfl
    | some b => exact absurd first second.1
  | some a =>
    cases r with
    | none => exact absurd second first.1
    | some b =>
      obtain ⟨-, nd, here, rfl⟩ := first
      obtain ⟨-, nd', here', rfl⟩ := second
      rw [Option.some.inj (here.symm.trans here')]

theorem At.node (S : s.Shaped G) (place : s.At n q) : ∃ nd, s.nodes n = some nd := by
  cases q with
  | none => exact (show n = rootId from place) ▸ S.root_some
  | some a => exact ⟨_, place.2.choose_spec.1⟩

namespace Shows

section

variable (shows : Shows par s held)
include shows

theorem unique (first : s.At n q) (second : s.At m q) : n = m := by
  obtain ⟨G, S⟩ := shows.shaped
  suffices deep : ∀ (k : Nat) (n m : NodeId) (q : Option BlockHash), (G.chain n).length ≤ k →
      s.At n q → s.At m q → n = m from deep _ n m q le_rfl first second
  intro k
  induction k with
  | zero =>
    intro n m q short first second
    cases q with
    | none => exact Eq.trans first (Eq.symm second)
    | some a =>
      obtain ⟨inner, nd, here, -⟩ := first
      obtain ⟨p, pn, -, -, -, hchain⟩ := S.up here inner
      rw [hchain] at short
      simp at short
  | succ k ih =>
    intro n m q short first second
    cases q with
    | none => exact Eq.trans first (Eq.symm second)
    | some a =>
      obtain ⟨inner, nd, here, rfl⟩ := first
      obtain ⟨minner, md, mhere, same⟩ := second
      obtain ⟨p, pn, up, hpn, filed, hchain⟩ := S.up here inner
      obtain ⟨p', pn', up', hpn', filed', -⟩ := S.up mhere minner
      have above := shows.filed n nd p inner here up
      have above' := shows.filed m md p' minner mhere up'
      rw [same] at above' filed'
      rw [hchain, length_append, length_singleton, Nat.add_le_add_iff_right] at short
      obtain rfl := ih p p' _ short above above'
      cases hpn.symm.trans hpn'
      exact Option.some.inj (filed.symm.trans filed')

theorem child_of_at (place : s.At n (par h)) (found : s.At c (some h)) : s.child n h = some c := by
  obtain ⟨G, S⟩ := shows.shaped
  obtain ⟨inner, nd, here, rfl⟩ := found
  obtain ⟨p, pn, up, hpn, filed, -⟩ := S.up here inner
  obtain rfl := shows.unique place (shows.filed c nd p inner here up)
  exact (child_of_some hpn _).trans filed

theorem at_of_child (place : s.At n q) (found : s.child n h = some c) :
    s.At c (some h) ∧ par h = q := by
  obtain ⟨G, S⟩ := shows.shaped
  obtain ⟨pn, there⟩ := place.node S
  rw [child_of_some there] at found
  obtain ⟨inner, nd, here, up, rfl⟩ := S.down there found
  exact ⟨⟨inner, nd, here, rfl⟩, (shows.filed c nd n inner here up).unique_hash place⟩

theorem peopled (spare : s.Spare []) (closed : held.Closed par)
    (inner : n ≠ rootId) (there : s.nodes n = some nd) : ∃ w, w ∈ nd.workers := by
  obtain ⟨G, S⟩ := shows.shaped
  -- The induction goes down, as the paths are shorter than the counter.
  suffices deep : ∀ (k : Nat) (n : NodeId) (nd : Node), s.linked.next ≤ (G.chain n).length + k →
    n ≠ rootId →
      s.nodes n = some nd → ∃ w, w ∈ nd.workers by
    exact deep s.linked.next n nd (by omega) inner there
  intro k
  induction k with
  | zero =>
    intro n nd bound inner there
    have short := S.shape.chain_length_lt (S.mem_live there)
    exact absurd short (not_lt.mpr bound)
  | succ k ih =>
    intro n nd bound inner there
    by_contra none
    have free : nd.workers = ∅ := by
      rw [eq_empty_iff_forall_notMem]
      exact fun w member => none ⟨w, member⟩
    have busy : ¬ ∀ h, nd.children.lookup h = Option.none := by
      intro childless
      cases spare n nd inner there (Node.isEmpty_iff.mpr ⟨free, Node.childless_iff.mpr childless⟩)
    obtain ⟨h, found⟩ := not_forall.mp busy
    obtain ⟨c, filed⟩ := Option.ne_none_iff_exists'.mp found
    obtain ⟨cinner, cn, chere, up, rfl⟩ := S.down there filed
    obtain ⟨p, pn, up', -, -, hchain⟩ := S.up chere cinner
    obtain rfl : p = n := Option.some.inj (up'.symm.trans up)
    obtain ⟨w, member⟩ := ih c cn (by rw [hchain, length_append, length_singleton]; omega)
      cinner chere
    have above := shows.filed c cn p cinner chere up
    have place : s.At p (some nd.blockHash) := ⟨inner, nd, there, rfl⟩
    have holds := closed w cn.blockHash nd.blockHash ((shows.workers c cn cinner chere w).mp member)
      (above.unique_hash place)
    exact none ⟨w, (shows.workers p nd inner there w).mpr holds⟩

end

end Shows

structure Trims (T : NodeId → Prop) (w : KvWorkerId) (s s' : TreeState) : Prop where
  stays : ∀ n nd', s'.nodes n = some nd' → ∃ nd, s.nodes n = some nd ∧
    nd'.blockHash = nd.blockHash ∧
    nd'.parent = nd.parent ∧ ∀ v, v ∈ nd'.workers ↔ v ∈ nd.workers ∧ ¬ (v = w ∧ T n)
  goes : ∀ n nd, s.nodes n = some nd → s'.nodes n = none → ∀ v ∈ nd.workers, v = w ∧ T n

theorem Trims.refl (w : KvWorkerId) (s : TreeState) : Trims (fun _ => False) w s s where
  stays n nd' there := ⟨nd', there, rfl, rfl, by simp⟩
  goes n nd there gone := by
    rw [there] at gone
    cases gone

theorem Trims.trans {T T' : NodeId → Prop} {s₀ s₁ s₂ : TreeState} (first : Trims T w s₀ s₁)
    (second : Trims T' w s₁ s₂) : Trims (fun n => T n ∨ T' n) w s₀ s₂ where
  stays n nd₂ there₂ := by
    obtain ⟨nd₁, there₁, hash₁, parent₁, workers₁⟩ := second.stays n nd₂ there₂
    obtain ⟨nd₀, there₀, hash₀, parent₀, workers₀⟩ := first.stays n nd₁ there₁
    refine ⟨nd₀, there₀, hash₁.trans hash₀, parent₁.trans parent₀, fun v => ?_⟩
    rw [workers₁, workers₀]
    tauto
  goes n nd₀ there₀ gone v member := by
    cases there₁ : s₁.nodes n with
    | none =>
      obtain ⟨same, target⟩ := first.goes n nd₀ there₀ there₁ v member
      exact ⟨same, .inl target⟩
    | some nd₁ =>
      obtain ⟨nd, there, -, -, workers⟩ := first.stays n nd₁ there₁
      cases there₀.symm.trans there
      by_cases taken : v = w ∧ T n
      · exact ⟨taken.1, .inl taken.2⟩
      · obtain ⟨same, target⟩ := second.goes n nd₁ there₁ gone v ((workers v).mpr ⟨member, taken⟩)
        exact ⟨same, .inr target⟩

theorem Trims.congr {T T' : NodeId → Prop} (trims : Trims T w s s') (same : ∀ n, T n ↔ T' n) :
    Trims T' w s s' := by
  obtain rfl : T = T' := funext fun n => propext (same n)
  exact trims

theorem Drops.trims (d : Drops s s') (S : s.Shaped G) (w : KvWorkerId) :
    Trims (fun _ => False) w s s' := by
  cases d with
  | @leaf n p nd there inner up empty =>
    refine ⟨fun m md mthere => ?_, fun m md mthere gone v member => ?_⟩
    · obtain ⟨pn, hpn, left⟩ := S.nodes_detach there inner up m
      rw [left] at mthere
      split at mthere
      · cases mthere
      · split at mthere
        · rename_i isTop
          cases mthere
          exact ⟨pn, isTop ▸ hpn, rfl, rfl, by simp⟩
        · exact ⟨md, mthere, rfl, rfl, by simp⟩
    · obtain ⟨pn, hpn, left⟩ := S.nodes_detach there inner up m
      rw [left] at gone
      split at gone
      · rename_i here
        subst here
        cases there.symm.trans mthere
        rw [(Node.isEmpty_iff.mp empty).1] at member
        cases member
      · split at gone
        · cases gone
        · rw [mthere] at gone
          cases gone

theorem trims_of_drops (S : s.Shaped G) (w : KvWorkerId) (run : Relation.ReflTransGen Drops s s') :
    Trims (fun _ => False) w s s' := by
  induction run with
  | refl => exact Trims.refl w s
  | tail before d ih =>
    obtain ⟨G', S'⟩ := shaped_of_drops S before
    exact (ih.trans (d.trims S' w)).congr (by simp)

theorem trims_of_put {T : NodeId → Prop} {nd' : Node} (there : s.nodes n = some nd)
    (others : ∀ m, m ≠ n → ¬ T m) (hash : nd'.blockHash = nd.blockHash)
    (parent : nd'.parent = nd.parent)
    (workers : ∀ v, v ∈ nd'.workers ↔ v ∈ nd.workers ∧ ¬ (v = w ∧ T n)) :
    Trims T w s (s.put n nd') := by
  refine ⟨fun m md mthere => ?_, fun m md mthere gone => ?_⟩
  · by_cases here : m = n
    · subst here
      obtain rfl : nd' = md := by simpa [put] using mthere
      exact ⟨nd, there, hash, parent, workers⟩
    · exact ⟨md, by simpa [put, here] using mthere, rfl, rfl, by simp [others m here]⟩
  · by_cases here : m = n
    · simp [put, here] at gone
    · simp [put, here, mthere] at gone

theorem trims_put (there : s.nodes n = some nd) (w : KvWorkerId) :
    Trims (fun m => m = n) w s (s.put n { nd with workers := nd.workers.erase w }) :=
  trims_of_put there (fun _ => id) rfl rfl (by simp [and_comm])

theorem trims_absent (gone : s.nodes n = none) (w : KvWorkerId) : Trims (fun m => m = n) w s s := by
  refine ⟨fun m md mthere => ?_, fun m md mthere absent => ?_⟩
  · refine ⟨md, mthere, rfl, rfl, fun v => ?_⟩
    have other : m ≠ n := by
      rintro rfl
      rw [gone] at mthere
      cases mthere
    simp [other]
  · rw [mthere] at absent
    cases absent

theorem removeAt_trims (S : s.Shaped G) (w : KvWorkerId) (n : NodeId) :
    Trims (fun m => m = n) w s (removeAt w s n) := by
  unfold removeAt
  cases there : s.nodes n with
  | none => exact trims_absent there w
  | some nd =>
    dsimp only
    split
    · have same : nd.SamePlace { nd with workers := nd.workers.erase w } := ⟨rfl, rfl, rfl⟩
      have S' := S.put there same
      exact ((trims_put there w).trans (trims_of_drops S' w (pruneLoop_drops _ _ n))).congr
        (by simp)
    · exact trims_put there w

theorem remove_trims (it : Iteration) (sound : s.Sound) (w : KvWorkerId) (hashes : List BlockHash) :
    Trims (fun n => n ∈ hashes.flatMap (fun h => it.list (s.byHash h))) w s
      (s.remove it w hashes) := by
  unfold remove
  generalize hashes.flatMap (fun h => it.list (s.byHash h)) = targets
  induction targets generalizing s with
  | nil => exact (Trims.refl w _).congr (by simp)
  | cons n targets ih =>
    obtain ⟨⟨G, S⟩, spare⟩ := sound
    obtain ⟨G', S', spare'⟩ := removeAt_spec S spare w n
    exact ((removeAt_trims S w n).trans (ih ⟨⟨G', S'⟩, spare'⟩)).congr (by simp)

theorem clearAt_trims (r : TreeState × List NodeId) (w : KvWorkerId) (n : NodeId) :
    Trims (fun m => m = n) w r.1 (clearAt w r n).1 := by
  unfold clearAt
  cases there : r.1.nodes n with
  | none => exact trims_absent there w
  | some nd => exact trims_put there w

theorem pruneAt_drops (s : TreeState) (n : NodeId) :
    Relation.ReflTransGen Drops s (s.pruneAt n) := by
  unfold pruneAt
  split
  · exact pruneLoop_drops _ _ n
  · exact .refl

theorem clearWorker_trims (it : Iteration) (S : s.Shaped G) (spare : s.Spare []) (w : KvWorkerId) :
    Trims (fun n => n ∈ (it.list s.keys).filter (· ≠ rootId)) w s (s.clearWorker it w) := by
  unfold clearWorker
  generalize (it.list s.keys).filter (· ≠ rootId) = ids
  have collects : ∀ (ids : List NodeId) (r : TreeState × List NodeId), r.1.Shaped G →
    r.1.Spare r.2 →
      Trims (fun n => n ∈ ids) w r.1 (ids.foldl (clearAt w) r).1 ∧
        (ids.foldl (clearAt w) r).1.Shaped G := by
    intro ids
    induction ids with
    | nil => exact fun r S _ => ⟨(Trims.refl w _).congr (by simp), S⟩
    | cons n ids ih =>
      intro r S spare
      obtain ⟨S', spare'⟩ := clearAt_spec S spare w n
      obtain ⟨trims, S''⟩ := ih _ S' spare'
      exact ⟨((clearAt_trims r w n).trans trims).congr (by simp), S''⟩
  have prunes : ∀ (ids : List NodeId) (s : TreeState),
    Relation.ReflTransGen Drops s (ids.foldl pruneAt s) := by
    intro ids
    induction ids with
    | nil => exact fun s => .refl
    | cons n ids ih => exact fun s => (pruneAt_drops s n).trans (ih _)
  obtain ⟨trims, S'⟩ := collects ids (s, []) S spare
  exact (trims.trans (trims_of_drops S' w (prunes _ _))).congr (by simp)

variable (now : Nat)

theorem touch_trims (s : TreeState) (n : NodeId) (w : KvWorkerId) :
    Trims (fun _ => False) w s (s.touch now n) := by
  unfold touch
  cases there : s.nodes n with
  | none => exact Trims.refl w s
  | some nd => exact trims_of_put there (fun _ _ => id) rfl rfl (by simp)

namespace Shows

section

variable (shows : Shows par s held)
include shows

theorem trims {T : NodeId → Prop} {X : Finset BlockHash}
    (S' : s'.Shaped G) (trims : Trims T w s s')
    (target : ∀ n nd, n ≠ rootId → s.nodes n = some nd → nd.blockHash ∈ held w →
      (T n ↔ nd.blockHash ∈ X)) :
    Shows par s' (update held w (held w \ X)) := by
  have still : ∀ (n : NodeId) (nd : Node), n ≠ rootId → s.nodes n = some nd → ∀ v,
      v ∈ nd.workers ∧ ¬ (v = w ∧ T n) ↔ nd.blockHash ∈ update held w (held w \ X) v := by
    intro n nd inner there v
    rw [shows.workers n nd inner there]
    by_cases same : v = w
    · subst same
      rw [update_self, mem_sdiff]
      have known := target n nd inner there
      tauto
    · simp [same]
  refine ⟨⟨G, S'⟩, ?_, ?_, ?_⟩
  · intro n nd' inner there' v
    obtain ⟨nd, there, hash, -, workers⟩ := trims.stays n nd' there'
    rw [workers, hash]
    exact still n nd inner there v
  · intro v h member
    have before : h ∈ held v := by
      by_cases same : v = w
      · subst same
        rw [update_self] at member
        exact (mem_sdiff.mp member).1
      · rwa [update_of_ne same] at member
    obtain ⟨n, inner, nd, there, rfl⟩ := shows.covers v h before
    obtain ⟨has, kept⟩ := (still n nd inner there v).mpr member
    cases there' : s'.nodes n with
    | none => exact absurd (trims.goes n nd there there' v has) kept
    | some nd' =>
      obtain ⟨nd₀, there₀, hash, -, -⟩ := trims.stays n nd' there'
      cases there.symm.trans there₀
      exact ⟨n, inner, nd', there', hash⟩
  · intro n nd' p inner there' up'
    obtain ⟨nd, there, hash, parent, -⟩ := trims.stays n nd' there'
    have above := shows.filed n nd p inner there (parent ▸ up')
    obtain ⟨q, qn, same, hqn, -, -⟩ := S'.up there' inner
    obtain rfl : q = p := Option.some.inj (same.symm.trans up')
    rw [hash]
    cases known : par nd.blockHash with
    | none =>
      rw [known] at above
      exact above
    | some a =>
      rw [known] at above
      obtain ⟨pinner, pn, hpn, rfl⟩ := above
      obtain ⟨pn₀, hpn₀, phash, -, -⟩ := trims.stays q qn hqn
      cases hpn.symm.trans hpn₀
      exact ⟨pinner, qn, hqn, phash⟩

theorem touch (spare : s.Spare []) (now : Nat) (n : NodeId) :
    Shows par (s.touch now n) held := by
  obtain ⟨G, S⟩ := shows.shaped
  obtain ⟨S', -⟩ := touch_spec now S spare n
  have after := shows.trims (w := ⟨"", 0⟩) (X := ∅) S' (touch_trims now s n _) (by simp)
  rwa [sdiff_empty, update_eq_self] at after

theorem gain {id current : NodeId} {here : Node} (S' : s'.Shaped G)
    (old : ∀ n nd', n ≠ id → s'.nodes n = some nd' → ∃ nd, s.nodes n = some nd ∧
      nd'.blockHash = nd.blockHash ∧ nd'.parent = nd.parent ∧ nd'.workers = nd.workers)
    (kept : ∀ n q, s.At n q → s'.At n q) (there : s'.nodes id = some here)
    (hash : here.blockHash = h) (up : here.parent = some current) (place : s.At current (par h))
    (only : ∀ n, s.At n (some h) → n = id) (inner : id ≠ rootId)
    (workers : ∀ v, v ∈ here.workers ↔ v = w ∨ h ∈ held v) :
    Shows par s' (held.gain w h) := by
  have grown : ∀ (v : KvWorkerId) (b : BlockHash), b ∈ held.gain w h v ↔
      (v = w ∧ b = h) ∨ b ∈ held v := by
    intro v b
    by_cases same : v = w
    · subst same
      simp [Held.gain]
    · simp [Held.gain, same]
  refine ⟨⟨G, S'⟩, ?_, ?_, ?_⟩
  · intro n nd' ninner there' v
    rw [grown]
    by_cases isHere : n = id
    · subst isHere
      cases there.symm.trans there'
      rw [workers, hash]
      tauto
    · obtain ⟨nd, before, nhash, -, nworkers⟩ := old n nd' isHere there'
      have other : nd.blockHash ≠ h := fun same => isHere (only n ⟨ninner, nd, before, same⟩)
      rw [nworkers, nhash, shows.workers n nd ninner before]
      simp [other]
  · intro v b member
    rcases (grown v b).mp member with ⟨-, rfl⟩ | before
    · exact ⟨id, inner, here, there, hash⟩
    · obtain ⟨n, place'⟩ := shows.covers v b before
      exact ⟨n, kept n _ place'⟩
  · intro n nd' p ninner there' up'
    by_cases isHere : n = id
    · subst isHere
      cases there.symm.trans there'
      obtain rfl : current = p := Option.some.inj (up.symm.trans up')
      exact kept _ _ (hash ▸ place)
    · obtain ⟨nd, before, nhash, nparent, -⟩ := old n nd' isHere there'
      rw [nhash]
      exact kept _ _ (shows.filed n nd p ninner before (nparent ▸ up'))

theorem insertStep (place : s.At n (par h)) (now : Nat) (w : KvWorkerId)
    (prevHash : Option BlockHash) : ∃ id nd t, s.entry now n h prevHash = (some id, t) ∧
      t.nodes id = some nd ∧
      Shows par (t.put id (nd.mark w now))
        (held.gain w h) ∧
      (t.put id (nd.mark w now)).At id (some h) := by
  obtain ⟨G, S⟩ := shows.shaped
  obtain ⟨pn, there⟩ := place.node S
  unfold entry
  cases found : s.child n h with
  | some id =>
    obtain ⟨⟨inner, nd, here, hash⟩, -⟩ := shows.at_of_child place found
    have same : nd.SamePlace (nd.mark w now) :=
      ⟨rfl, rfl, rfl⟩
    have hplace : s.At id (some h) := ⟨inner, nd, here, hash⟩
    rw [child_of_some there] at found
    obtain ⟨-, nd₀, here₀, up, -⟩ := S.down there found
    cases here.symm.trans here₀
    have after : (s.put id (nd.mark w now)).nodes id =
        some (nd.mark w now) := update_self _ _ _
    refine ⟨id, nd, s, rfl, here, ?_, inner, _, after, hash⟩
    refine shows.gain (S.put here same) ?_ ?_ after hash up place
      (fun m found => shows.unique found hplace) inner ?_
    · intro m md other mthere
      exact ⟨md, by simpa [put, other] using mthere, rfl, rfl, rfl⟩
    · intro m q mplace
      cases q with
      | none => exact mplace
      | some b =>
        obtain ⟨minner, md, mthere, mhash⟩ := mplace
        by_cases isHere : m = id
        · subst isHere
          cases here.symm.trans mthere
          exact ⟨minner, _, after, mhash⟩
        · exact ⟨minner, md, by simpa [put, isHere] using mthere, mhash⟩
    · intro v
      rw [Node.mark, mem_insert, shows.workers id nd inner here, hash]
  | none =>
    have missing := found
    rw [child_of_some there] at missing
    have S₁ := S.hang there missing now prevHash
    have old : n ≠ s.nextId := (S.lt_next there).ne
    have new : (s.hang now n pn h prevHash).nodes s.nextId =
        some (Node.newChild now h prevHash n) := by
      simp [hang, old.symm]
    -- A node of this hash would be filed under `n`.
    have absent : ∀ m, ¬ s.At m (some h) := by
      intro m mplace
      rw [shows.child_of_at place mplace] at found
      cases found
    have inner : s.nextId ≠ rootId := (S.shape.ne_of_fresh S.shape.root_live le_rfl).symm
    have same : (Node.newChild now h prevHash n).SamePlace
        ((Node.newChild now h prevHash n).mark w now) := ⟨rfl, rfl, rfl⟩
    refine ⟨s.nextId, _, s.hang now n pn h prevHash, by simp only [createChild, there], new, ?_,
      inner, _, update_self _ _ _, rfl⟩
    refine shows.gain (S₁.put new same) ?_ ?_ (update_self _ _ _) rfl rfl place
      (fun m mplace => absurd mplace (absent m)) inner ?_
    · intro m md other mthere
      by_cases isTop : m = n
      · subst isTop
        have after : { pn with children := pn.children.insert h s.nextId } = md := by
          simpa [put, hang, other] using mthere
        exact ⟨pn, there, by rw [← after], by rw [← after], by rw [← after]⟩
      · exact ⟨md, by simpa [put, hang, other, isTop] using mthere, rfl, rfl,
          rfl⟩
    · intro m q mplace
      cases q with
      | none => exact mplace
      | some b =>
        obtain ⟨minner, md, mthere, mhash⟩ := mplace
        have other : m ≠ s.nextId := (S.lt_next mthere).ne
        by_cases isTop : m = n
        · subst isTop
          cases there.symm.trans mthere
          exact ⟨minner, { pn with children := pn.children.insert h s.nextId },
            by simp [put, hang, other], mhash⟩
        · exact ⟨minner, md, by simpa [put, hang, other, isTop] using mthere,
            mhash⟩
    · intro v
      have nobody : ¬ h ∈ held v := fun member => absent _ (shows.covers v h member).choose_spec
      simp [Node.mark, Node.newChild, nobody]

end

theorem insertLoop (w : KvWorkerId) (hashes : List BlockHash) :
    ∀ {s : TreeState} {held : Held} {n : NodeId} {q : Option BlockHash}, Shows par s held →
    s.At n q → Chained par q hashes →
    Shows par (TreeState.insertLoop now w hashes s n q)
      (update held w (held w ∪ hashes.toFinset)) := by
  induction hashes with
  | nil =>
    intro s held n q shows place chain
    simpa [TreeState.insertLoop] using shows
  | cons h hashes ih =>
    intro s held n q shows place chain
    obtain ⟨rfl, rest⟩ := chain
    obtain ⟨id, nd, t, found, here, shows', place'⟩ := shows.insertStep place now w (par h)
    unfold TreeState.insertLoop
    simp only [found, here]
    have both : update held w (held w ∪ (h :: hashes).toFinset) =
        update (held.gain w h) w (held.gain w h w ∪ hashes.toFinset) := by
      simp [Held.gain, union_insert]
    rw [both]
    exact ih shows' place' rest

theorem resolveParent (shows : Shows par s held) (it : Iteration)
    (under : ∀ h, q = some h → h ∈ held w) : s.At (s.resolveParent it w q) q := by
  cases q with
  | none => rfl
  | some h =>
    obtain ⟨G, S⟩ := shows.shaped
    obtain ⟨n, place⟩ := shows.covers w h (under h rfl)
    have single : it.list (s.byHash h) = [n] := by
      rw [← perm_singleton, perm_ext_iff_of_nodup (it.nodup _) (nodup_singleton n)]
      intro m
      rw [it.mem, S.index, List.mem_singleton]
      constructor
      · exact fun mplace => shows.unique (q := some h) mplace place
      · rintro rfl
        exact place
    simp only [resolveParent, single]
    exact place

theorem matchLoop (hashes : List BlockHash) :
    ∀ {s : TreeState} (n : NodeId) (matched : Nat) (last : Option NodeId), Shows par s held →
    s.Spare [] → Shows par (TreeState.matchLoop now hashes s n matched last).2.2 held := by
  induction hashes with
  | nil => exact fun _ _ _ shows _ => shows
  | cons h hashes ih =>
    intro s n matched last shows spare
    obtain ⟨G, S⟩ := shows.shaped
    rw [TreeState.matchLoop]
    split
    · exact ih _ _ _ (shows.touch spare now _) (touch_spec now S spare _).2
    · exact shows

theorem exec {op : Op} (shows : Shows par s held) (spare : s.Spare [])
    (allowed : held.Allows par op) :
    Shows par (s.exec op) (held.after op) := by
  obtain ⟨G, S⟩ := shows.shaped
  cases allowed with
  | @insert it now w q hashes chain under =>
    exact shows.insertLoop now w hashes (shows.resolveParent it under) chain
  | @remove it w hashes =>
    obtain ⟨G', S', -⟩ := remove_spec it S spare w hashes
    refine shows.trims S' (remove_trims it ⟨⟨G, S⟩, spare⟩ w hashes) ?_
    intro n nd inner there _
    rw [mem_flatMap, mem_toFinset]
    constructor
    · rintro ⟨h, listed, member⟩
      obtain ⟨-, nd', there', rfl⟩ := (S.index h n).mp ((it.mem _ n).mp member)
      cases there.symm.trans there'
      exact listed
    · intro listed
      exact ⟨nd.blockHash, listed, (it.mem _ n).mpr ((S.index _ n).mpr ⟨inner, nd, there, rfl⟩)⟩
  | @clearWorker it w =>
    obtain ⟨G', S', -⟩ := clearWorker_spec it S spare w
    have cleared := shows.trims (X := held w) S' (clearWorker_trims it S spare w) (by
      intro n nd inner there member
      have listed : n ∈ it.list s.keys := (it.mem _ n).mpr (S.mem_keys.mpr (S.mem_live there))
      simp [listed, inner, member])
    rwa [Finset.sdiff_self] at cleared
  | @matchPrefix it now q hashes =>
    exact shows.matchLoop now hashes _ _ _ spare

end Shows

theorem Reaches.shows (reached : Reaches par s held) :
    Shows par s held ∧ s.Spare [] ∧ held.Closed par := by
  induction reached with
  | start now =>
    obtain ⟨shaped, spare⟩ := sound_new now
    have only : ∀ n, n ≠ rootId → (new now).nodes n = none := fun n inner => by simp [new, inner]
    refine ⟨⟨shaped, ?_, by simp, ?_⟩, spare, by simp [Held.Closed]⟩
    · intro n nd inner there
      rw [only n inner] at there
      cases there
    · intro n nd p inner there
      rw [only n inner] at there
      cases there
  | call reached op allowed closed ih =>
    obtain ⟨shows, spare, -⟩ := ih
    exact ⟨shows.exec spare allowed, (Sound.exec ⟨shows.shaped, spare⟩ op).2, closed⟩

def Holds (par : Parents) (held : Held) (hashes : List BlockHash) (w : KvWorkerId) : Prop :=
  Chained par none hashes ∧ ∀ h ∈ hashes, h ∈ held w

theorem holds_of_last (closed : held.Closed par) {hashes : List BlockHash} :
    ∀ {q : Option BlockHash}, Chained par q hashes → hashes.getLast? = some h → h ∈ held w →
    ∀ b ∈ hashes, b ∈ held w := by
  induction hashes with
  | nil =>
    intro q _ last
    cases last
  | cons a hashes ih =>
    intro q chain last member
    cases hashes with
    | nil =>
      obtain rfl : a = h := by simpa using last
      simpa using member
    | cons a' rest =>
      have later := ih chain.2 (by simpa using last) member
      have first : a ∈ held w := closed w a' a (later a' (by simp)) chain.2.1
      exact List.forall_mem_cons.mpr ⟨first, later⟩

theorem At.touch (place : s.At n q) (now : Nat) (m : NodeId) : (s.touch now m).At n q := by
  unfold TreeState.touch
  cases there : s.nodes m with
  | none => exact place
  | some md =>
    cases q with
    | none => exact place
    | some h =>
      obtain ⟨inner, nd, here, hash⟩ := place
      by_cases same : n = m
      · subst same
        cases there.symm.trans here
        exact ⟨inner, _, update_self _ _ _, hash⟩
      · exact ⟨inner, nd, by simpa [put, same] using here, hash⟩

theorem matchLoop_longest (hashes : List BlockHash) :
    ∀ {s : TreeState} {n : NodeId} {q : Option BlockHash} (matched : Nat) (last : Option NodeId),
    Shows par s held → s.Spare [] → s.At n q →
    ∃ j ≤ hashes.length, (matchLoop now hashes s n matched last).1 = matched + j ∧
      Chained par q (hashes.take j) ∧
      (∀ i w, i ≤ hashes.length → Chained par q (hashes.take i) →
        (∀ h ∈ hashes.take i, h ∈ held w) →
        i ≤ j) ∧
      (j = 0 → (matchLoop now hashes s n matched last).2 = (last, s)) ∧
      (0 < j → ∃ c h, (matchLoop now hashes s n matched last).2.1 = some c ∧
        (hashes.take j).getLast? = some h ∧
          (matchLoop now hashes s n matched last).2.2.At c (some h)) := by
  induction hashes with
  | nil =>
    intro s n q matched last shows spare place
    refine ⟨0, le_rfl, rfl, trivial, fun i w bound _ _ => bound, fun _ => rfl, fun pos => ?_⟩
    exact absurd pos (lt_irrefl _)
  | cons h hashes ih =>
    intro s n q matched last shows spare place
    cases found : s.child n h with
    | none =>
      have stop : matchLoop now (h :: hashes) s n matched last = (matched, last, s) := by
        simp only [matchLoop, found]
      rw [stop]
      refine ⟨0, Nat.zero_le _, rfl, trivial, ?_, fun _ => rfl, fun pos => absurd pos (lt_irrefl _)⟩
      intro i w _ chain member
      cases i with
      | zero => exact le_rfl
      | succ i =>
        obtain ⟨rfl, -⟩ := chain
        obtain ⟨c, cplace⟩ := shows.covers w h (member h (by simp))
        rw [shows.child_of_at place cplace] at found
        cases found
    | some id =>
      obtain ⟨G, S⟩ := shows.shaped
      obtain ⟨below, link⟩ := shows.at_of_child place found
      have go : matchLoop now (h :: hashes) s n matched last =
          matchLoop now hashes (s.touch now id) id (matched + 1) (some id) := by
        simp only [matchLoop, found]
      obtain ⟨j, bound, count, chain, longest, none, some⟩ :=
        ih (matched + 1) (some id) (shows.touch spare now id) (touch_spec now S spare id).2
          (below.touch now id)
      rw [go]
      refine ⟨j + 1, Nat.succ_le_succ bound, by omega, ⟨link, chain⟩, ?_, by simp, fun _ => ?_⟩
      · intro i w ibound ichain member
        cases i with
        | zero => exact Nat.zero_le _
        | succ i =>
          exact Nat.succ_le_succ (longest i w (Nat.le_of_succ_le_succ ibound) ichain.2
            (fun b listed => member b (List.mem_cons_of_mem _ listed)))
      · rcases Nat.eq_zero_or_pos j with rfl | pos
        · rw [none rfl]
          exact ⟨id, h, rfl, rfl, below.touch now id⟩
        · obtain ⟨c, b, node, final, cplace⟩ := some pos
          refine ⟨c, b, node, ?_, cplace⟩
          rw [take_succ_cons, getLast?_cons, final]
          rfl

/-- A lookup finds the longest prefix that some worker holds, and the workers that hold it if it is
not empty. -/
theorem matchPrefix_longest_held (reached : Reaches par s held) (it : Iteration) (now : Nat)
    (hashes : List BlockHash) :
    IsGreatest {k | k ≤ hashes.length ∧ ∃ w, Holds par held (hashes.take k) w}
      (s.matchPrefix it now none hashes).1.matchedBlocks ∧
    (0 < (s.matchPrefix it now none hashes).1.matchedBlocks →
      ∀ w, w ∈ (s.matchPrefix it now none hashes).1.workers ↔
        Holds par held (hashes.take (s.matchPrefix it now none hashes).1.matchedBlocks) w) ∧
    ((s.matchPrefix it now none hashes).1.matchedBlocks = 0 →
      (s.matchPrefix it now none hashes).1.workers = ∅) := by
  obtain ⟨shows, spare, closed⟩ := reached.shows
  obtain ⟨G, S⟩ := shows.shaped
  obtain ⟨j, bound, count, chain, longest, none, some⟩ :=
    matchLoop_longest now hashes 0 Option.none shows spare (show s.At rootId Option.none from rfl)
  have shows' := shows.matchLoop now hashes rootId 0 Option.none spare
  have spare' := (matchLoop_spec now hashes rootId 0 Option.none S spare).2
  have matched : (s.matchPrefix it now Option.none hashes).1.matchedBlocks = j :=
    count.trans (Nat.zero_add j)
  have listed : (s.matchPrefix it now Option.none hashes).1.workers =
      (matchLoop now hashes s rootId 0 Option.none).2.2.workersAt
        (matchLoop now hashes s rootId 0 Option.none).2.1 := rfl
  rw [matched, listed]
  have who : 0 < j → (∃ w, Holds par held (hashes.take j) w) ∧
      ∀ w, w ∈ (matchLoop now hashes s rootId 0 Option.none).2.2.workersAt
        (matchLoop now hashes s rootId 0 Option.none).2.1 ↔ Holds par held (hashes.take j) w := by
    intro pos
    obtain ⟨c, h, node, final, inner, nd, here, rfl⟩ := some pos
    have whole : ∀ w, w ∈ nd.workers ↔ Holds par held (hashes.take j) w := by
      intro w
      rw [shows'.workers c nd inner here]
      constructor
      · exact fun member => ⟨chain, holds_of_last closed chain final member⟩
      · exact fun holds => holds.2 _ (mem_of_getLast? final)
    obtain ⟨w, member⟩ := shows'.peopled spare' closed inner here
    refine ⟨⟨w, (whole w).mp member⟩, ?_⟩
    rw [node]
    simpa only [workersAt, here] using whole
  refine ⟨⟨⟨bound, ?_⟩, ?_⟩, fun pos => (who pos).2, ?_⟩
  · rcases Nat.eq_zero_or_pos j with rfl | pos
    · exact ⟨⟨"", 0⟩, trivial, by simp⟩
    · exact (who pos).1
  · rintro i ⟨ibound, w, ichain, member⟩
    exact longest i w ibound ichain member
  · intro zero
    rw [none zero]
    rfl

theorem two_blocks_matched : ∃ s, Reaches (fun h => if h = 2 then some 1 else none) s
      (update (fun _ => ∅) ⟨"a", 0⟩ {1, 2}) ∧
    IsGreatest {k | k ≤ 3 ∧ ∃ w, Holds (fun h => if h = 2 then some 1 else none)
        (update (fun _ => ∅) ⟨"a", 0⟩ {1, 2}) ([1, 2, 3].take k) w}
      (s.matchPrefix .sorted 1 none [1, 2, 3]).1.matchedBlocks := by
  have run := (Reaches.start 0 : Reaches (fun h => if h = 2 then some 1 else none) _ _).call
    (.insert .sorted 0 ⟨"a", 0⟩ none [1, 2]) (.insert (by simp [Chained]) (by simp)) (by
      intro w h q member link
      by_cases same : w = ⟨"a", 0⟩
      · subst same
        by_cases second : h = 2
        · simp only [second, if_true, Option.some.injEq] at link
          simp [Held.after, ← link]
        · simp [second] at link
      · simp [Held.after, same] at member)
  exact ⟨_, run, (matchPrefix_longest_held run .sorted 1 [1, 2, 3]).1⟩

/-- A worker holds the empty chain, but is not listed when nothing is matched. -/
theorem empty_match_lists_nobody : ∃ par s held hashes, Reaches par s held ∧
      ¬ ∀ w, w ∈ (s.matchPrefix .sorted 1 none hashes).1.workers ↔
        Holds par held (hashes.take (s.matchPrefix .sorted 1 none hashes).1.matchedBlocks) w := by
  have run := (Reaches.start 0 : Reaches (fun _ => none) _ _).call
    (.insert .sorted 0 ⟨"a", 0⟩ none [1]) (.insert (by simp [Chained]) (by simp))
      (by simp [Held.Closed])
  refine ⟨_, _, _, [2], run, fun every => ?_⟩
  have nothing : (matchPrefix .sorted 1 ((new 0).exec (.insert .sorted 0 ⟨"a", 0⟩ none [1])) none
    [2]).1 =
      ⟨0, ∅⟩ := rfl
  rw [nothing] at every
  have listed := (every ⟨"a", 0⟩).mpr ⟨trivial, by simp⟩
  simp at listed

end TreeState

end RedKnot.Router.HashTree
