import RedKnot.Lib.OrderedDict

/-! The chunk cache of `redknot/scheduler.py`. A chunk that needs room evicts those of lowest
priority, which are exact rationals. -/

namespace RedKnot.CachePolicy

open List OrderedDict

/-- `ChunkEntry`; `M` is the type of its `meta`. -/
structure ChunkEntry (M : Type) where
  chunkId : String
  nbytes : Int
  reuseCount : Nat
  recoveryCost : ℚ
  lastUsedStep : Nat
  metaData : M

variable {M : Type}

def ChunkEntry.priority (e : ChunkEntry M) (nowStep : Nat) : ℚ :=
  let recency : ℚ := 1 / (1 + (max 0 ((nowStep : Int) - e.lastUsedStep) : Int))
  (e.reuseCount + 1) * e.recoveryCost * (1 + recency)

/-- `e.reuse_count += 1; e.last_used_step = step`. -/
def ChunkEntry.use (e : ChunkEntry M) (step : Nat) : ChunkEntry M :=
  { e with reuseCount := e.reuseCount + 1, lastUsedStep := step }

structure Stats where
  hits : Nat
  misses : Nat
  admissions : Nat
  evictions : Nat
deriving DecidableEq, Repr

structure HeadAwareCachePolicy (M : Type) where
  capacityBytes : Int
  entries : OrderedDict String (ChunkEntry M)
  usedBytes : Int
  step : Nat
  stats : Stats

namespace HeadAwareCachePolicy

def init (M : Type) (capacityBytes : Int) : HeadAwareCachePolicy M :=
  ⟨capacityBytes, .empty, 0, 0, ⟨0, 0, 0, 0⟩⟩

def tick (p : HeadAwareCachePolicy M) : HeadAwareCachePolicy M := { p with step := p.step + 1 }

def touch (p : HeadAwareCachePolicy M) (chunkId : String) (e : ChunkEntry M) :
    HeadAwareCachePolicy M :=
  { p with entries := p.entries.putLast chunkId (e.use p.step) }

def get (p : HeadAwareCachePolicy M) (chunkId : String) :
    Option (ChunkEntry M) × HeadAwareCachePolicy M :=
  match p.entries.get? chunkId with
  | none => (none, { p with stats := { p.stats with misses := p.stats.misses + 1 } })
  | some e =>
    let hit := { p with stats := { p.stats with hits := p.stats.hits + 1 } }
    (some (e.use p.step), hit.touch chunkId e)

/-- `min(self._entries, key=...)`: the first of the entries of lowest priority. -/
def victim (p : HeadAwareCachePolicy M) : Option (String × ChunkEntry M) :=
  p.entries.entries.argmin fun e => e.2.priority p.step

def evict (p : HeadAwareCachePolicy M) (cand : String × ChunkEntry M) : HeadAwareCachePolicy M :=
  { p with
    usedBytes := p.usedBytes - cand.2.nbytes
    entries := p.entries.erase cand.1
    stats := { p.stats with evictions := p.stats.evictions + 1 } }

/-- The eviction loop, at most `turns` turns. The comparison with the priority of the new chunk
leaves the loop as it is. -/
def evictUntilFits (nbytes : Int) : Nat → HeadAwareCachePolicy M → HeadAwareCachePolicy M
  | 0, p => p
  | turns + 1, p =>
    if p.capacityBytes < p.usedBytes + nbytes then
      match p.victim with
      | none => p
      | some cand => evictUntilFits nbytes turns (p.evict cand)
    else p

def insert (p : HeadAwareCachePolicy M) (e : ChunkEntry M) : HeadAwareCachePolicy M :=
  { p with
    entries := p.entries.putLast e.chunkId e
    usedBytes := p.usedBytes + e.nbytes
    stats := { p.stats with admissions := p.stats.admissions + 1 } }

/-- `admit`. Every turn of the loop takes one entry, so that it ends within the number of
entries. -/
def admitChunk [EmptyCollection M] (p : HeadAwareCachePolicy M) (chunkId : String) (nbytes : Int)
    (recoveryCost : ℚ) (metaData : Option M) : Bool × HeadAwareCachePolicy M :=
  match p.entries.get? chunkId with
  | some e => (true, p.touch chunkId e)
  | none =>
    if p.capacityBytes < nbytes then (false, p)
    else
      let p := p.evictUntilFits nbytes p.entries.entries.length
      if p.capacityBytes < p.usedBytes + nbytes then (false, p)
      else (true, p.insert ⟨chunkId, nbytes, 0, recoveryCost, p.step, metaData.getD ∅⟩)

def residentChunks (p : HeadAwareCachePolicy M) : List String := p.entries.keys

end HeadAwareCachePolicy

open HeadAwareCachePolicy

inductive Call (M : Type) where
  | tick
  | get (chunkId : String)
  | admitChunk (chunkId : String) (nbytes : Int) (recoveryCost : ℚ) (metaData : Option M)

section Calls

variable [EmptyCollection M]

def Call.run (p : HeadAwareCachePolicy M) : Call M → HeadAwareCachePolicy M
  | .tick => p.tick
  | .get chunkId => (p.get chunkId).2
  | .admitChunk chunkId nbytes recoveryCost metaData =>
    (p.admitChunk chunkId nbytes recoveryCost metaData).2

def history (capacityBytes : Int) (calls : List (Call M)) : HeadAwareCachePolicy M :=
  calls.foldl Call.run (.init M capacityBytes)

end Calls

/-- The entries `victims` go one after the other, each with the lowest priority among the entries
that are there. -/
inductive EvictedInTurn : HeadAwareCachePolicy M → List (String × ChunkEntry M) →
    HeadAwareCachePolicy M → Prop where
  | done (p : HeadAwareCachePolicy M) : EvictedInTurn p [] p
  | next {p q : HeadAwareCachePolicy M} {cand : String × ChunkEntry M}
      {victims : List (String × ChunkEntry M)} (member : cand ∈ p.entries.entries)
      (lowest : ∀ e ∈ p.entries.entries, cand.2.priority p.step ≤ e.2.priority p.step)
      (rest : EvictedInTurn (p.evict cand) victims q) : EvictedInTurn p (cand :: victims) q

structure Balanced (p : HeadAwareCachePolicy M) : Prop where
  used : p.usedBytes = p.entries.total ChunkEntry.nbytes
  counted : (p.stats.admissions : Int) - p.stats.evictions = p.entries.entries.length

variable {p q : HeadAwareCachePolicy M} {chunkId : String} {nbytes : Int}

variable {cand : String × ChunkEntry M}

theorem victim_spec (found : p.victim = some cand) : cand ∈ p.entries.entries ∧
      ∀ e ∈ p.entries.entries, cand.2.priority p.step ≤ e.2.priority p.step :=
  ⟨argmin_mem found, fun _ member => le_of_mem_argmin member found⟩

theorem victim_none : p.victim = none ↔ p.entries.entries = [] := argmin_eq_none

theorem length_evict (member : cand ∈ p.entries.entries) :
    (p.evict cand).entries.entries.length + 1 = p.entries.entries.length := by
  obtain ⟨pre, post, parts, rest⟩ := split (get?_eq_some.mpr member)
  change (p.entries.erase cand.1).entries.length + 1 = _
  rw [rest, parts]
  simp only [length_append, length_cons]
  omega

theorem Balanced.evict (balanced : Balanced p)
    (member : cand ∈ p.entries.entries) : Balanced (p.evict cand) := by
  have there : p.entries.get? cand.1 = some cand.2 := get?_eq_some.mpr member
  have shorter := length_evict member
  have counted := balanced.counted
  constructor
  · change p.usedBytes - cand.2.nbytes = (p.entries.erase cand.1).total _
    rw [total_erase _ there, balanced.used]
  · simp only [HeadAwareCachePolicy.evict] at shorter ⊢
    omega

variable {victims : List (String × ChunkEntry M)}

theorem EvictedInTurn.balanced
    (evicted : EvictedInTurn p victims q) (balanced : Balanced p) : Balanced q := by
  induction evicted with
  | done p => exact balanced
  | next member _ _ ih => exact ih (balanced.evict member)

theorem EvictedInTurn.frame (evicted : EvictedInTurn p victims q) :
    q.capacityBytes = p.capacityBytes ∧ q.step = p.step ∧
      q.stats.evictions = p.stats.evictions + victims.length := by
  induction evicted with
  | done p => exact ⟨rfl, rfl, rfl⟩
  | next _ _ _ ih =>
    obtain ⟨capacity, step, evictions⟩ := ih
    refine ⟨capacity, step, evictions.trans ?_⟩
    simp only [HeadAwareCachePolicy.evict, length_cons]
    omega

theorem mem_keys_evict {id : String} :
    id ∈ (p.evict cand).entries.keys ↔ id ∈ p.entries.keys ∧ id ≠ cand.1 := by
  simp only [HeadAwareCachePolicy.evict, OrderedDict.keys, mem_map, mem_erase]
  constructor
  · rintro ⟨e, ⟨member, other⟩, rfl⟩
    exact ⟨⟨e, member, rfl⟩, other⟩
  · rintro ⟨⟨e, member, rfl⟩, other⟩
    exact ⟨e, ⟨member, other⟩, rfl⟩

theorem EvictedInTurn.keys (evicted : EvictedInTurn p victims q) (id : String) :
    (id ∈ q.entries.keys ↔ id ∈ p.entries.keys ∧ id ∉ victims.map Prod.fst) ∧
      (id ∈ victims.map Prod.fst → id ∈ p.entries.keys) := by
  induction evicted with
  | done p => simp
  | next member _ _ ih =>
    obtain ⟨left, listed⟩ := ih
    have here := mem_map_of_mem (f := Prod.fst) member
    rw [mem_keys_evict] at left listed
    constructor
    · rw [left, map_cons, mem_cons]
      tauto
    · rw [map_cons, mem_cons]
      rintro (rfl | later)
      · exact here
      · exact (listed later).1

theorem evictUntilFits_spec (nbytes : Int) (turns : Nat) (p : HeadAwareCachePolicy M)
    (enough : p.entries.entries.length ≤ turns) :
    ∃ victims, EvictedInTurn p victims (p.evictUntilFits nbytes turns) ∧
      ((p.evictUntilFits nbytes turns).capacityBytes <
          (p.evictUntilFits nbytes turns).usedBytes + nbytes →
        (p.evictUntilFits nbytes turns).entries.entries = []) := by
  induction turns generalizing p with
  | zero => exact ⟨[], .done p, fun _ => eq_nil_of_length_eq_zero (Nat.le_zero.mp enough)⟩
  | succ turns ih =>
    unfold evictUntilFits
    split
    · cases found : p.victim with
      | none => exact ⟨[], .done p, fun _ => victim_none.mp found⟩
      | some cand =>
        obtain ⟨member, lowest⟩ := victim_spec found
        have shorter := length_evict member
        obtain ⟨victims, rest, ends⟩ := ih (p.evict cand) (by omega)
        exact ⟨cand :: victims, .next member lowest rest, ends⟩
    · next fits => exact ⟨[], .done p, fun full => absurd full fits⟩

variable {e : ChunkEntry M}

theorem Balanced.touch (balanced : Balanced p)
    (there : p.entries.get? chunkId = some e) : Balanced (p.touch chunkId e) := by
  constructor
  · change p.usedBytes = (p.entries.putLast chunkId _).total _
    rw [total_putLast _ there, balanced.used]
    exact (Int.sub_add_cancel _ _).symm
  · change _ = ((p.entries.putLast chunkId _).entries.length : Int)
    rw [length_putLast there]
    exact balanced.counted

theorem Balanced.insert (balanced : Balanced p)
    (fresh : p.entries.get? e.chunkId = none) : Balanced (p.insert e) := by
  have counted := balanced.counted
  constructor
  · change p.usedBytes + e.nbytes = (p.entries.putLast e.chunkId e).total _
    rw [total_putLast_new _ fresh, balanced.used]
  · simp only [HeadAwareCachePolicy.insert, putLast, erase_of_not_mem fresh,
      length_append, length_singleton]
    omega

theorem mem_keys_putLast {d : OrderedDict String (ChunkEntry M)} {id : String} :
    id ∈ (d.putLast chunkId e).keys ↔ id ∈ d.keys ∨ id = chunkId := by
  simp only [OrderedDict.keys, mem_map, mem_putLast]
  constructor
  · rintro ⟨e', ⟨member, -⟩ | rfl, rfl⟩
    · exact .inl ⟨e', member, rfl⟩
    · exact .inr rfl
  · rintro (⟨e', member, rfl⟩ | rfl)
    · by_cases here : e'.1 = chunkId
      · exact ⟨_, .inr rfl, here.symm⟩
      · exact ⟨e', .inl ⟨member, here⟩, rfl⟩
    · exact ⟨_, .inr rfl, rfl⟩

variable [EmptyCollection M]

theorem admitChunk_cases (balanced : Balanced p) (chunkId : String) (nbytes : Int) (recoveryCost : ℚ)
    (metaData : Option M) :
    (∃ e, p.entries.get? chunkId = some e ∧
      p.admitChunk chunkId nbytes recoveryCost metaData = (true, p.touch chunkId e)) ∨
    (p.entries.get? chunkId = none ∧ p.capacityBytes < nbytes ∧
      p.admitChunk chunkId nbytes recoveryCost metaData = (false, p)) ∨
    (p.entries.get? chunkId = none ∧ nbytes ≤ p.capacityBytes ∧
      ∃ victims q, EvictedInTurn p victims q ∧ q.usedBytes + nbytes ≤ p.capacityBytes ∧
        p.admitChunk chunkId nbytes recoveryCost metaData =
          (true, q.insert ⟨chunkId, nbytes, 0, recoveryCost, q.step, metaData.getD ∅⟩)) := by
  cases there : p.entries.get? chunkId with
  | some e =>
    left
    exact ⟨e, rfl, by simp only [admitChunk, there]⟩
  | none =>
    right
    rcases Int.lt_or_le p.capacityBytes nbytes with large | small
    · left
      exact ⟨rfl, large, by simp only [admitChunk, there, large, if_true]⟩
    · right
      obtain ⟨victims, evicted, ends⟩ := evictUntilFits_spec nbytes _ p (le_refl _)
      have capacity := evicted.frame.1
      have fits : ¬ (p.evictUntilFits nbytes p.entries.entries.length).capacityBytes <
          (p.evictUntilFits nbytes p.entries.entries.length).usedBytes + nbytes := by
        intro full
        have used := (evicted.balanced balanced).used
        rw [total, ends full, map_nil, sum_nil] at used
        omega
      refine ⟨rfl, small, victims, _, evicted, by omega, ?_⟩
      simp only [admitChunk, there, Int.not_lt.mpr small, fits, if_false]

structure Sound (capacity : Int) (p : HeadAwareCachePolicy M) : Prop extends Balanced p where
  limit : p.capacityBytes = capacity
  within : 0 ≤ capacity → p.usedBytes ≤ capacity

variable {capacity : Int}

theorem Sound.admitChunk (sound : Sound capacity p) (chunkId : String) (nbytes : Int)
    (recoveryCost : ℚ) (metaData : Option M) :
    Sound capacity (p.admitChunk chunkId nbytes recoveryCost metaData).2 := by
  rcases admitChunk_cases sound.toBalanced chunkId nbytes recoveryCost metaData with
    ⟨e, there, runs⟩ | ⟨-, -, runs⟩ | ⟨fresh, -, victims, q, evicted, fits, runs⟩
  · rw [runs]
    exact ⟨sound.toBalanced.touch there, sound.limit, sound.within⟩
  · rw [runs]
    exact sound
  · rw [runs]
    obtain ⟨same, -, -⟩ := evicted.frame
    have absent : q.entries.get? chunkId = none := by
      rw [get?_eq_none] at fresh ⊢
      exact fun member => fresh ((evicted.keys chunkId).1.mp member).1
    refine ⟨(evicted.balanced sound.toBalanced).insert absent, same.trans sound.limit, ?_⟩
    intro _
    rw [← sound.limit]
    exact fits

theorem Sound.run (sound : Sound capacity p) (call : Call M) : Sound capacity (call.run p) := by
  cases call with
  | tick => exact ⟨⟨sound.used, sound.counted⟩, sound.limit, sound.within⟩
  | get chunkId =>
    simp only [Call.run, HeadAwareCachePolicy.get]
    cases there : p.entries.get? chunkId with
    | none => exact ⟨⟨sound.used, sound.counted⟩, sound.limit, sound.within⟩
    | some e =>
      let hit := { p with stats := { p.stats with hits := p.stats.hits + 1 } }
      have balanced : Balanced hit := ⟨sound.used, sound.counted⟩
      exact ⟨balanced.touch there, sound.limit, sound.within⟩
  | admitChunk chunkId nbytes recoveryCost metaData =>
    exact sound.admitChunk chunkId nbytes recoveryCost metaData

theorem sound_history (capacity : Int) (calls : List (Call M)) :
    Sound capacity (history capacity calls) := by
  induction calls using reverseRecOn with
  | nil => exact ⟨⟨rfl, rfl⟩, rfl, id⟩
  | append_singleton calls call ih =>
    rw [history, foldl_append]
    exact ih.run call

/-- What `admit` answers: `ok` is its result and `p'` the policy after it. -/
structure AnswersAdmit (capacity : Int) (chunkId : String) (nbytes : Int)
    (p : HeadAwareCachePolicy M) (ok : Bool) (p' : HeadAwareCachePolicy M) : Prop where
  resident : ok = true ↔ chunkId ∈ p'.residentChunks
  fits : ok = true ↔ chunkId ∈ p.residentChunks ∨ nbytes ≤ capacity
  refused : ok = false → p'.entries = p.entries

theorem Sound.answersAdmit (sound : Sound capacity p) (chunkId : String)
    (nbytes : Int) (recoveryCost : ℚ) (metaData : Option M) :
    AnswersAdmit capacity chunkId nbytes p (p.admitChunk chunkId nbytes recoveryCost metaData).1
      (p.admitChunk chunkId nbytes recoveryCost metaData).2 := by
  rcases admitChunk_cases sound.toBalanced chunkId nbytes recoveryCost metaData with
    ⟨e, there, runs⟩ | ⟨fresh, large, runs⟩ | ⟨-, small, victims, q, -, -, runs⟩
  · have resident : chunkId ∈ p.residentChunks := mem_keys_of_get? there
    have after : chunkId ∈ (p.touch chunkId e).residentChunks := mem_keys_putLast.mpr (.inr rfl)
    rw [runs]
    exact ⟨by simp [after], by simp [resident], by simp⟩
  · have absent : chunkId ∉ p.residentChunks := get?_eq_none.mp fresh
    rw [sound.limit] at large
    rw [runs]
    exact ⟨by simp [absent], by simp [absent, large], by simp⟩
  · have after : chunkId ∈ (q.insert ⟨chunkId, nbytes, 0, recoveryCost, q.step,
        metaData.getD ∅⟩).residentChunks := mem_keys_putLast.mpr (.inr rfl)
    rw [sound.limit] at small
    rw [runs]
    exact ⟨by simp [after], by simp [small], by simp⟩

def RemovesLowest (p p' : HeadAwareCachePolicy M) : Prop :=
  ∃ victims q, EvictedInTurn p victims q ∧
    (∀ id, id ∈ victims.map Prod.fst ↔ id ∈ p.residentChunks ∧ id ∉ p'.residentChunks) ∧
    p'.stats.evictions = p.stats.evictions + victims.length

omit [EmptyCollection M] in
theorem removesLowest_of_keys {p' : HeadAwareCachePolicy M}
    (kept : ∀ id ∈ p.residentChunks, id ∈ p'.residentChunks)
    (evictions : p'.stats.evictions = p.stats.evictions) : RemovesLowest p p' := by
  refine ⟨[], p, .done p, fun id => ?_, evictions⟩
  simp only [map_nil, not_mem_nil, false_iff, not_and, not_not]
  exact kept id

theorem Sound.removesLowest (sound : Sound capacity p) (call : Call M) :
    RemovesLowest p (call.run p) := by
  cases call with
  | tick => exact removesLowest_of_keys (fun _ member => member) rfl
  | get chunkId =>
    simp only [Call.run, HeadAwareCachePolicy.get]
    cases there : p.entries.get? chunkId with
    | none => exact removesLowest_of_keys (fun _ member => member) rfl
    | some e => exact removesLowest_of_keys (fun _ member => mem_keys_putLast.mpr (.inl member)) rfl
  | admitChunk chunkId nbytes recoveryCost metaData =>
    simp only [Call.run]
    rcases admitChunk_cases sound.toBalanced chunkId nbytes recoveryCost metaData with
      ⟨e, -, runs⟩ | ⟨-, -, runs⟩ | ⟨fresh, -, victims, q, evicted, -, runs⟩
    · rw [runs]
      exact removesLowest_of_keys (fun _ member => mem_keys_putLast.mpr (.inl member)) rfl
    · rw [runs]
      exact removesLowest_of_keys (fun _ member => member) rfl
    · rw [runs]
      refine ⟨victims, q, evicted, fun id => ?_, evicted.frame.2.2⟩
      have absent : chunkId ∉ p.residentChunks := get?_eq_none.mp fresh
      obtain ⟨left, listed⟩ := evicted.keys id
      constructor
      · intro gone
        refine ⟨listed gone, fun back => ?_⟩
        rcases mem_keys_putLast.mp back with there | rfl
        · exact (left.mp there).2 gone
        · exact absent (listed gone)
      · rintro ⟨before, gone⟩
        by_contra kept
        exact gone (mem_keys_putLast.mpr (.inl (left.mpr ⟨before, kept⟩)))

/-- In every history the totals agree with the entries, `admit` answers whether the chunk is
resident, and chunks are removed in the order of their priority. -/
theorem cachePolicy_invariant (capacity : Int) (calls : List (Call M)) :
    (history capacity calls).usedBytes = (history capacity calls).entries.total ChunkEntry.nbytes ∧
    (0 ≤ capacity → (history capacity calls).usedBytes ≤ capacity) ∧
    ((history capacity calls).stats.admissions : Int) - (history capacity calls).stats.evictions =
      (history capacity calls).entries.entries.length ∧
    (∀ chunkId nbytes recoveryCost metaData, AnswersAdmit capacity chunkId nbytes
      (history capacity calls) ((history capacity calls).admitChunk chunkId nbytes recoveryCost metaData).1
      ((history capacity calls).admitChunk chunkId nbytes recoveryCost metaData).2) ∧
    ∀ call : Call M, RemovesLowest (history capacity calls) (call.run (history capacity calls)) := by
  have sound := sound_history capacity calls
  exact ⟨sound.used, sound.within, sound.counted, sound.answersAdmit, sound.removesLowest⟩

end RedKnot.CachePolicy
