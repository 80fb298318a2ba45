import RedKnot.Gateway.WorkerRegistry

/-! `HashRing` of the model gateway (`core/worker_registry.rs`): which keys move when a worker
leaves the ring -/

namespace RedKnot.Gateway

open List

/-- `hashPosition` is the hash of a routing key. -/
structure HashRing extends RingBuilder where
  hashPosition : String → Nat
  sorted : ∀ entries, (sort entries).Pairwise (·.1 ≤ ·.1)

/-- The loop of `find_healthy_url` over the URLs that it meets -/
def firstHealthy (isHealthy : String → Bool) (checkedUrls : List String) :
    List String → Option String
  | [] => none
  | url :: rest =>
    if url ∈ checkedUrls then firstHealthy isHealthy checkedUrls rest
    else if isHealthy url then some url
    else firstHealthy isHealthy (url :: checkedUrls) rest

namespace HashRing

/-- On the ring of the workers; `start` is the partition point, which a binary search finds as the
entries are sorted. -/
def findHealthyUrl (b : HashRing) (workers : List Worker) (key : String)
    (isHealthy : String → Bool) : Option String :=
  let entries := b.hashRing workers
  if entries.isEmpty then none
  else
    let start := (entries.takeWhile (·.1 < b.hashPosition key)).length
    firstHealthy isHealthy [] (ofFn (fun i : Fin entries.length =>
      (entries.get ⟨(start + i) % entries.length, Nat.mod_lt _ i.pos⟩).2))

/-- Distinct virtual nodes of the workers have distinct positions. -/
def Distinct (b : HashRing) (workers : List Worker) : Prop :=
  ∀ v ∈ workers, ∀ w ∈ workers, ∀ i < virtualNodesPerWorker, ∀ j < virtualNodesPerWorker,
    b.position v.url i = b.position w.url j → v.url = w.url ∧ i = j

end HashRing

theorem firstHealthy_eq_find? (isHealthy : String → Bool) (urls : List String) :
    ∀ checkedUrls, (∀ url ∈ checkedUrls, isHealthy url = false) →
      firstHealthy isHealthy checkedUrls urls = urls.find? isHealthy := by
  induction urls with
  | nil => exact fun _ _ => rfl
  | cons url rest ih =>
    intro checkedUrls sick
    rw [firstHealthy]
    by_cases seen : url ∈ checkedUrls
    · rw [if_pos seen, find?_cons_of_neg (by simp [sick url seen]), ih _ sick]
    · rw [if_neg seen]
      cases here : isHealthy url with
      | true => rw [if_pos rfl, find?_cons_of_pos here]
      | false =>
        rw [if_neg (by simp), find?_cons_of_neg (by simp [here]), ih]
        exact forall_mem_cons.mpr ⟨here, sick⟩

theorem find?_and (p q : String → Bool) (l : List String) :
    l.find? (fun a => q a && p a) = l.find? p ∨ ∃ a, l.find? p = some a ∧ q a = false := by
  induction l with
  | nil => exact .inl rfl
  | cons a l ih =>
    cases good : p a with
    | false => simpa [find?_cons, good] using ih
    | true =>
      cases kept : q a with
      | false => exact .inr ⟨a, by simp [good], kept⟩
      | true => exact .inl (by simp [good, kept])

namespace HashRing

variable (b : HashRing) {workers : List Worker}

/-- The URLs in the order in which the key meets them -/
def met (key : String) (entries : List (Nat × String)) : List String :=
  (entries.filter (b.hashPosition key ≤ ·.1) ++ entries.filter (·.1 < b.hashPosition key)).map (·.2)

theorem dropWhile_append_takeWhile {l : List (Nat × String)} (sorted : l.Pairwise (·.1 ≤ ·.1))
    (k : Nat) : l.dropWhile (·.1 < k) ++ l.takeWhile (·.1 < k) =
      l.filter (k ≤ ·.1) ++ l.filter (·.1 < k) := by
  have parts : l.takeWhile (·.1 < k) = l.filter (·.1 < k) ∧
      l.dropWhile (·.1 < k) = l.filter (k ≤ ·.1) := by
    induction l with
    | nil => exact ⟨rfl, rfl⟩
    | cons e l ih =>
      obtain ⟨least, later⟩ := pairwise_cons.mp sorted
      by_cases low : e.1 < k
      · simp [low, ih later]
      · have high : ∀ x ∈ l, k ≤ x.1 := fun x hx => (not_lt.mp low).trans (least x hx)
        have nothing : l.filter (·.1 < k) = [] := filter_eq_nil_iff.mpr (by simpa using high)
        have all : l.filter (k ≤ ·.1) = l := filter_eq_self.mpr (by simpa using high)
        simp [low, nothing, all, not_lt.mp low]
  rw [parts.1, parts.2]

theorem findHealthyUrl_eq (key : String) (isHealthy : String → Bool) :
    b.findHealthyUrl workers key isHealthy =
      (b.met key (b.hashRing workers)).find? isHealthy := by
  have walk : ∀ (l : List (Nat × String)) (start : Nat), ofFn (fun i : Fin l.length =>
      (l.get ⟨(start + i) % l.length, Nat.mod_lt _ i.pos⟩).2) = (l.rotate start).map (·.2) := by
    intro l start
    refine ext_getElem (by simp) fun i _ _ => ?_
    simp [getElem_rotate, Nat.add_comm]
  have sorted : (b.hashRing workers).Pairwise (·.1 ≤ ·.1) := b.sorted _
  simp only [findHealthyUrl, walk]
  rw [firstHealthy_eq_find? _ _ _ (by simp), met, ← dropWhile_append_takeWhile sorted,
    ← rotate_append_length_eq, takeWhile_append_dropWhile]
  split
  · next empty => simp [isEmpty_iff.mp empty]
  · rfl

theorem hashRing_unique (distinct : b.Distinct workers) {entries : List (Nat × String)}
    (sorted : entries.Pairwise (·.1 ≤ ·.1)) {left : List Worker} (subset : left ⊆ workers)
    (perm : entries.Perm (left.flatMap b.virtualNodes)) : b.hashRing left = entries := by
  refine Perm.eq_of_pairwise ?_ (b.sorted _) sorted ((b.sort_perm _).trans perm.symm)
  intro x y hx hy low high
  have hx := (b.sort_perm _).mem_iff.mp hx
  have hy := perm.mem_iff.mp hy
  simp only [mem_flatMap, RingBuilder.virtualNodes, mem_map, mem_range] at hx hy
  obtain ⟨v, hv, i, hi, rfl⟩ := hx
  obtain ⟨w, hw, j, hj, rfl⟩ := hy
  obtain ⟨same, rfl⟩ := distinct v (subset hv) w (subset hw) i hi j hj (le_antisymm low high)
  rw [same]

theorem virtualNodes_without (url : String) : (workers.flatMap b.virtualNodes).filter (·.2 != url) =
    (workers.filter (·.url != url)).flatMap b.virtualNodes := by
  induction workers with
  | nil => rfl
  | cons v rest ih =>
    rw [flatMap_cons, filter_append, ih]
    by_cases same : v.url = url <;> simp [RingBuilder.virtualNodes, same]

theorem met_without (distinct : b.Distinct workers) (key url : String) :
    b.met key (b.hashRing (workers.filter (·.url != url))) =
      (b.met key (b.hashRing workers)).filter (· != url) := by
  have removed : b.hashRing (workers.filter (·.url != url)) =
      (b.hashRing workers).filter (·.2 != url) := by
    refine b.hashRing_unique distinct ((b.sorted _).filter _) (filter_subset_self _) ?_
    rw [← b.virtualNodes_without]
    exact (b.sort_perm _).filter _
  rw [removed]
  simp only [met, filter_map, filter_append, filter_filter, Function.comp_def, Bool.and_comm]

/-- Without a worker only its keys move, a worker that is marked unhealthy is like a removed one,
and the order of the workers does not matter. -/
theorem only_keys_of_removed_move (distinct : b.Distinct workers) (w : Worker) (key : String)
    (isHealthy : String → Bool) :
    (b.findHealthyUrl (workers.filter (·.url != w.url)) key isHealthy ≠
        b.findHealthyUrl workers key isHealthy →
      b.findHealthyUrl workers key isHealthy = some w.url) ∧
    b.findHealthyUrl workers key (fun url => url != w.url && isHealthy url) =
      b.findHealthyUrl (workers.filter (·.url != w.url)) key isHealthy ∧
    ∀ others, others.Perm workers →
      b.findHealthyUrl others key isHealthy = b.findHealthyUrl workers key isHealthy := by
  have removed : b.findHealthyUrl (workers.filter (·.url != w.url)) key isHealthy =
      (b.met key (b.hashRing workers)).find? (fun url => url != w.url && isHealthy url) := by
    rw [findHealthyUrl_eq, b.met_without distinct]
    simp only [find?_filter, Bool.decide_and, Bool.decide_eq_true]
  rw [removed, findHealthyUrl_eq, findHealthyUrl_eq]
  refine ⟨fun moved => ?_, rfl, fun others perm => ?_⟩
  · obtain ⟨url, found, own⟩ := (find?_and isHealthy (· != w.url) _).resolve_left moved
    rw [found, show url = w.url by simpa using own]
  · rw [findHealthyUrl_eq, b.hashRing_unique distinct (b.sorted _) perm.subset
      ((b.sort_perm _).trans (perm.symm.flatMap_right _))]
    rfl

theorem mem_met (key url : String) :
    url ∈ b.met key (b.hashRing workers) ↔ ∃ w ∈ workers, w.url = url := by
  simp only [met, RingBuilder.hashRing, RingBuilder.virtualNodes, mem_map, mem_append, mem_filter,
    (b.sort_perm _).mem_iff, ← and_or_left, mem_flatMap, mem_range]
  constructor
  · rintro ⟨_, ⟨⟨w, known, _, -, rfl⟩, -⟩, rfl⟩
    exact ⟨w, known, rfl⟩
  · rintro ⟨w, known, rfl⟩
    exact ⟨_, ⟨⟨w, known, 0, by decide, rfl⟩, by simp [le_or_gt]⟩, rfl⟩

/-- Also where positions collide, the walk meets every worker and no other URL. -/
theorem finds_healthy_worker (key : String) (isHealthy : String → Bool) :
    (b.findHealthyUrl workers key isHealthy = none ↔ ∀ w ∈ workers, isHealthy w.url = false) ∧
    ∀ url ∈ b.findHealthyUrl workers key isHealthy, isHealthy url ∧ ∃ w ∈ workers, w.url = url := by
  rw [findHealthyUrl_eq]
  constructor
  · simp [find?_eq_none, b.mem_met]
  · intro url found
    exact ⟨find?_some found, (b.mem_met key url).mp (mem_of_find?_eq_some found)⟩

/-- The virtual nodes of "a" and "bb" alternate on the ring. -/
def alternating : HashRing where
  position url vnode := 2 * vnode + url.length
  hashPosition key := key.length
  sort entries := entries.insertionSort (·.1 ≤ ·.1)
  sort_perm entries := perm_insertionSort _ entries
  sorted entries := entries.pairwise_insertionSort (·.1 ≤ ·.1)

/-- Without the worker at "bb" the key of length 2 moves and the empty key stays. -/
theorem alternating_removed :
    let workers : List Worker := [⟨"a", "m", .regular, .http, 0⟩, ⟨"bb", "m", .regular, .http, 0⟩]
    let healthy : String → Bool := fun _ => true
    alternating.findHealthyUrl workers "kk" healthy = some "bb" ∧
      alternating.findHealthyUrl (workers.filter (·.url != "bb")) "kk" healthy = some "a" ∧
      alternating.findHealthyUrl workers "" healthy = some "a" ∧
      alternating.findHealthyUrl (workers.filter (·.url != "bb")) "" healthy = some "a" := by
  intro workers healthy
  have distinct : alternating.Distinct workers := by
    intro v hv w hw i _ j _ same
    simp only [workers, mem_cons, not_mem_nil, or_false] at hv hw
    rcases hv with rfl | rfl <;> rcases hw with rfl | rfl <;>
      simp [alternating, String.length] at same ⊢ <;> omega
  have moves := alternating.only_keys_of_removed_move distinct (workers.get ⟨1, by decide⟩)
  have stays : alternating.findHealthyUrl workers "" healthy = some "a" := by decide +kernel
  refine ⟨by decide +kernel, ?_, stays, ?_⟩
  · exact (moves "kk" healthy).2.1.symm.trans (by decide +kernel)
  · by_contra moved
    have taken := (moves "" healthy).1 fun same => moved (same.trans stays)
    rw [stays] at taken
    exact absurd taken (by decide)

end HashRing

end RedKnot.Gateway
