import Mathlib.Data.List.Nodup
import RedKnot.Python

/-! Out-of-window eviction of one request (`ScheduleBatch.maybe_evict_swa` and `_evict_swa` of
`managers/schedule_batch.py`). Slots stand for the positions that they hold. -/

namespace RedKnot.SwaEviction

open List

/-- What the batches share. `windowShare` is `int(sliding_window_size * multiplier)`. -/
structure Settings where
  slidingWindowSize : Nat
  pageSize : Nat
  windowShare : Int
  dropPageMargin : Bool
  isChunkCache : Bool
  enableOverlap : Bool
  chunkedPrefillSize : Int
  paged : 0 < pageSize

inductive ForwardMode where
  | decode (seqlen decodeBatchIdx : Nat)
  | extend (prefixLen extendBatchIdx : Nat)

/-- A batch with the request; other code moves `cache_protected_len` between batches. -/
structure Visit where
  mode : ForwardMode
  cacheProtectedLen : Nat

structure Entry where
  visit : Visit
  swaEvictedSeqlen : Nat
  freed : List Nat

namespace Settings

variable (c : Settings)

def evictionInterval : Int := max (c.pageSize : Int) c.windowShare / c.pageSize * c.pageSize

/-- The `pre_len` that `_evict_swa` is called with, if it is. -/
def preLen : ForwardMode → Option Int
  | .decode seqlen decodeBatchIdx =>
    if decodeBatchIdx % c.evictionInterval = 1 then some (seqlen - 1) else none
  | .extend prefixLen extendBatchIdx =>
    if !c.isChunkCache then none
    else if !c.enableOverlap then some prefixLen
    else if extendBatchIdx < 2 then none
    else some (if 0 < c.chunkedPrefillSize then prefixLen - c.chunkedPrefillSize else prefixLen)

def evictThreshold (preLen : Int) : Int :=
  if c.dropPageMargin then preLen - c.slidingWindowSize
  else preLen - c.slidingWindowSize - c.pageSize

def pageFloor (n : Nat) : Nat := if 1 < c.pageSize then n / c.pageSize * c.pageSize else n

def evictSwa (visit : Visit) (evicted : Nat) (preLen : Int) : Except PyError Entry :=
  if visit.cacheProtectedLen % c.pageSize ≠ 0 then
    .error (.assertionError "cache_protected_len must be page aligned")
  else
    let evicted := max evicted visit.cacheProtectedLen
    -- the maximum is not negative, so the rounding is one of natural numbers
    let frontier := c.pageFloor (max (evicted : Int) (c.evictThreshold preLen)).toNat
    .ok (if evicted < frontier then ⟨visit, frontier, range' evicted (frontier - evicted)⟩
      else ⟨visit, evicted, []⟩)

def maybeEvictSwa (evicted : Nat) (visit : Visit) : Except PyError Entry :=
  match c.preLen visit.mode with
  | some preLen => c.evictSwa visit evicted preLen
  | none => .ok ⟨visit, evicted, []⟩

def life : Nat → List Visit → List Entry
  | _, [] => []
  | evicted, visit :: rest =>
    match c.maybeEvictSwa evicted visit with
    | .ok e => e :: life e.swaEvictedSeqlen rest
    | .error _ => []

structure Step (evicted : Nat) (e : Entry) (start : Nat) : Prop where
  after : evicted ≤ start
  grows : start ≤ e.swaEvictedSeqlen
  from_page : c.pageSize ∣ start
  aligned : c.pageSize ∣ e.swaEvictedSeqlen
  freed : e.freed = range' start (e.swaEvictedSeqlen - start)
  moved : start < e.swaEvictedSeqlen → e.visit.cacheProtectedLen ≤ start ∧
    ∃ preLen, c.preLen e.visit.mode = some preLen ∧
      (e.swaEvictedSeqlen : Int) ≤ preLen - c.slidingWindowSize

variable {c} {visit : Visit} {evicted start : Nat} {e : Entry}

theorem pageFloor_spec (n : Nat) : c.pageSize ∣ c.pageFloor n ∧ c.pageFloor n ≤ n := by
  unfold pageFloor
  split
  · exact ⟨Nat.dvd_mul_left _ _, Nat.div_mul_le_self _ _⟩
  · next small =>
    have one : c.pageSize = 1 := by have := c.paged; omega
    exact ⟨one ▸ Nat.one_dvd _, Nat.le_refl _⟩

theorem maybeEvictSwa_spec (before : c.pageSize ∣ evicted)
    (done : c.maybeEvictSwa evicted visit = .ok e) :
    e.visit = visit ∧ ∃ start, c.Step evicted e start := by
  unfold maybeEvictSwa at done
  split at done
  case h_2 =>
    cases done
    exact ⟨rfl, evicted, Nat.le_refl _, Nat.le_refl _, before, before, by simp, by simp⟩
  next preLen called =>
  unfold evictSwa at done
  split at done
  case isTrue => cases done
  next whole =>
  have from_page : c.pageSize ∣ max evicted visit.cacheProtectedLen := by
    rcases Nat.le_total evicted visit.cacheProtectedLen with le | le
    · rw [Nat.max_eq_right le]
      exact Nat.dvd_of_mod_eq_zero (not_not.mp whole)
    · rwa [Nat.max_eq_left le]
  have margin : c.evictThreshold preLen ≤ preLen - c.slidingWindowSize := by
    unfold evictThreshold
    split <;> omega
  dsimp only at done
  generalize start_eq : max evicted visit.cacheProtectedLen = start at done from_page
  obtain ⟨aligned, below⟩ := pageFloor_spec (c := c)
    (max (start : Int) (c.evictThreshold preLen)).toNat
  generalize c.pageFloor _ = frontier at done aligned below
  split at done <;> cases done
  · exact ⟨rfl, start, by omega, by dsimp only; omega, from_page, aligned, rfl,
      fun _ => ⟨by dsimp only; omega, preLen, called, by dsimp only; omega⟩⟩
  · exact ⟨rfl, start, by omega, Nat.le_refl _, from_page, from_page, by simp, by simp⟩

theorem maybeEvictSwa_ok (evicted : Nat) (whole : c.pageSize ∣ visit.cacheProtectedLen) :
    ∃ e, c.maybeEvictSwa evicted visit = .ok e := by
  simp only [maybeEvictSwa, evictSwa, Nat.mod_eq_zero_of_dvd whole, ne_eq, not_true, if_false]
  split <;> exact ⟨_, rfl⟩

theorem life_steps (visits : List Visit) (before : c.pageSize ∣ evicted) :
    (∀ e ∈ c.life evicted visits, ∃ start, c.Step evicted e start) ∧
    (c.life evicted visits).Pairwise (fun e e' =>
      e.swaEvictedSeqlen ≤ e'.swaEvictedSeqlen ∧ ∀ x ∈ e'.freed, e.swaEvictedSeqlen ≤ x) ∧
    ((∀ v ∈ visits, c.pageSize ∣ v.cacheProtectedLen) →
      (c.life evicted visits).map Entry.visit = visits) := by
  induction visits generalizing evicted with
  | nil => exact ⟨by simp [life], .nil, fun _ => rfl⟩
  | cons visit rest ih =>
    cases done : c.maybeEvictSwa evicted visit with
    | ok e =>
      obtain ⟨of, start, step⟩ := maybeEvictSwa_spec before done
      obtain ⟨steps, ordered, complete⟩ := ih step.aligned
      have le := Nat.le_trans step.after step.grows
      rw [life, done]
      refine ⟨?_, .cons ?_ ordered, fun whole => ?_⟩
      · rintro e' (_ | ⟨_, member⟩)
        · exact ⟨start, step⟩
        · obtain ⟨start', step'⟩ := steps e' member
          exact ⟨start', { step' with after := Nat.le_trans le step'.after }⟩
      · intro e' member
        obtain ⟨start', step'⟩ := steps e' member
        refine ⟨Nat.le_trans step'.after step'.grows, fun x freed => ?_⟩
        rw [step'.freed, mem_range'_1] at freed
        exact Nat.le_trans step'.after freed.1
      · rw [map_cons, of, complete fun v member => whole v (.tail _ member)]
    | error err =>
      rw [life, done]
      refine ⟨by simp, .nil, fun whole => ?_⟩
      obtain ⟨e, ok⟩ := maybeEvictSwa_ok evicted (whole visit (.head _))
      rw [done] at ok
      cases ok

end Settings

structure Orderly (c : Settings) (visits : List Visit) (log : List Entry) : Prop where
  complete : (∀ v ∈ visits, c.pageSize ∣ v.cacheProtectedLen) → log.map Entry.visit = visits
  outside : ∀ e ∈ log, ∀ seqlen idx, e.visit.mode = .decode seqlen idx →
    ∀ x ∈ e.freed, e.visit.cacheProtectedLen ≤ x ∧ (x : Int) < seqlen - 1 - c.slidingWindowSize
  once : (log.flatMap Entry.freed).Nodup
  pages : ∀ e ∈ log, ∃ first count,
    e.freed = range' (c.pageSize * first) (c.pageSize * count)
  monotone : (log.map Entry.swaEvictedSeqlen).Pairwise (· ≤ ·)
  aligned : ∀ e ∈ log, c.pageSize ∣ e.swaEvictedSeqlen

/-- A request starts with `swa_evicted_seqlen = 0`. -/
theorem swaEviction_orderly (c : Settings) (visits : List Visit) :
    Orderly c visits (c.life 0 visits) := by
  obtain ⟨steps, ordered, complete⟩ := Settings.life_steps visits (c.pageSize.dvd_zero)
  refine ⟨complete, ?_, ?_, ?_, pairwise_map.mpr (ordered.imp And.left), ?_⟩
  · intro e member seqlen idx decode x freed
    obtain ⟨start, step⟩ := steps e member
    rw [step.freed, mem_range'_1] at freed
    obtain ⟨kept, preLen, called, below⟩ := step.moved (by omega)
    rw [decode, Settings.preLen] at called
    split at called <;> cases called
    exact ⟨by omega, by omega⟩
  · refine nodup_flatMap.mpr ⟨fun e member => ?_, ordered.imp_of_mem ?_⟩
    · obtain ⟨start, step⟩ := steps e member
      exact step.freed ▸ nodup_range' ..
    · intro e e' member _ later x here there
      obtain ⟨start, step⟩ := steps e member
      have above := later.2 x there
      rw [step.freed, mem_range'_1] at here
      omega
  · intro e member
    obtain ⟨start, step⟩ := steps e member
    obtain ⟨first, rfl⟩ := step.from_page
    obtain ⟨last, there⟩ := step.aligned
    exact ⟨first, last - first, by rw [step.freed, there, Nat.mul_sub]⟩
  · intro e member
    obtain ⟨start, step⟩ := steps e member
    exact step.aligned

end RedKnot.SwaEviction
