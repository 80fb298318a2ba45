import RedKnot.MemCache.RadixKey

/-! Page hashes and placement events (`RadixKey.hash_page`, `mem_cache/utils.py` and
`disaggregation/kv_events.py`). A digest is its bytes; the SHA-256 function is a parameter. -/

namespace RedKnot

open List Nat RadixKey

abbrev Digest := List UInt8

/-- `t.to_bytes(4, byteorder="little", signed=False)` -/
def toBytes4 (t : Token) : Except PyError (List UInt8) :=
  if t < 2 ^ 32 then
    .ok [UInt8.ofNat t, UInt8.ofNat (t / 2 ^ 8), UInt8.ofNat (t / 2 ^ 16), UInt8.ofNat (t / 2 ^ 24)]
  else .error .overflowError

/-- The bytes fed to the hasher for unit `j`. -/
def unitBytes (k : RadixKey) (j : Nat) : Except PyError (List UInt8) := do
  let t := k.tokenIds
  if k.isBigram then
    return (← toBytes4 (← pyGet t j)) ++ (← toBytes4 (← pyGet t (j + 1)))
  else
    toBytes4 (← pyGet t j)

/-- Input of the hash of the units `[start, stop)`. -/
def pageBytes (k : RadixKey) (start stop : Nat) (priorHash : Option Digest) :
    Except PyError (List UInt8) := do
  let pages ← (range' start (stop - start)).mapM (unitBytes k)
  return priorHash.getD [] ++ pages.flatten

def RadixKey.hashPage (sha256 : List UInt8 → Digest) (k : RadixKey) (start stop : Nat)
    (priorHash : Option Digest) : Except PyError Digest := do
  return sha256 (← pageBytes k start stop priorHash)

def hashStrToInt64 (h : Digest) : Int :=
  let v : Nat := (h.take 8).foldl (fun acc b => acc * 256 + b.toNat) 0
  if v ≥ 2 ^ 63 then (v : Int) - 2 ^ 64 else v

/-- The page loop of `compute_node_hash_values`, from position `start`. -/
def hashPages (sha256 : List UInt8 → Digest) (k : RadixKey) (pageSize : Nat) :
    Nat → Nat → Option Digest → Except PyError (List Digest)
  | 0, _, _ => .ok []
  | fuel + 1, start, parentHash =>
    if start < k.len then do
      let stop := min (start + pageSize) k.len
      let h ← k.hashPage sha256 start stop parentHash
      let rest ← hashPages sha256 k pageSize fuel (start + pageSize) (some h)
      return h :: rest
    else .ok []

def splitNodeHashValue (childHash : Option (List Digest)) (splitLen pageSize : Nat) :
    Option (List Digest) × Option (List Digest) :=
  match childHash with
  | none => (none, none)
  | some hs =>
    let splitPages := if pageSize = 1 then splitLen else splitLen / pageSize
    (some (hs.take splitPages), some (hs.drop splitPages))

inductive StorageMedium where
  | gpu
  | cpu
  | disk
  | external
deriving DecidableEq, Repr

inductive KVCacheEvent where
  | blockStored (blockHashes : List Int) (parentBlockHash : Option Int) (tokenIds : List Gram)
      (blockSize : Nat) (medium : StorageMedium)
  | blockRemoved (blockHashes : List Int) (medium : StorageMedium)
  | allBlocksCleared
deriving DecidableEq, Repr

/-! The page hashes of a key depend on its units only, and the hashes of a word cut in two
are those of the two parts, the second seeded with the last hash of the first. -/

def tokenBytes (t : Token) : List UInt8 :=
  [UInt8.ofNat t, UInt8.ofNat (t / 2 ^ 8), UInt8.ofNat (t / 2 ^ 16), UInt8.ofNat (t / 2 ^ 24)]

def gramBytes : Gram → List UInt8
  | .token t => tokenBytes t
  | .bigram a b => tokenBytes a ++ tokenBytes b

def blockBytes (prior : Option Digest) (page : List KeyUnit) : List UInt8 :=
  prior.getD [] ++ page.flatMap (fun u => gramBytes u.2)

def digests (sha256 : List UInt8 → Digest) (P : Nat) :
    Nat → List KeyUnit → Option Digest → List Digest
  | 0, _, _ => []
  | n + 1, us, prior =>
    let h := sha256 (blockBytes prior (us.take P))
    h :: digests sha256 P n (us.drop P) (some h)

section Digests

variable (sha256 : List UInt8 → Digest) (P : Nat)

@[simp]
theorem length_digests (n : Nat) (us : List KeyUnit) (prior : Option Digest) :
    (digests sha256 P n us prior).length = n := by
  induction n generalizing us prior with
  | zero => rfl
  | succ n ih => simp [digests, ih]

/-- The hash that the page after `n` pages is seeded with. -/
def seedAfter (n : Nat) (us : List KeyUnit) (prior : Option Digest) : Option Digest :=
  (digests sha256 P n us prior).getLast?.or prior

theorem digests_add (n m : Nat) (us : List KeyUnit) (prior : Option Digest) :
    digests sha256 P (n + m) us prior = digests sha256 P n us prior ++
      digests sha256 P m (us.drop (n * P)) (seedAfter sha256 P n us prior) := by
  induction n generalizing us prior with
  | zero => simp [digests, seedAfter]
  | succ n ih =>
    rw [succ_add_eq_add_succ, add_succ, digests, digests, ih, cons_append]
    have hdrop : (us.drop P).drop (n * P) = us.drop ((n + 1) * P) := by
      rw [drop_drop, succ_mul, Nat.add_comm]
    have hseed : seedAfter sha256 P n (us.drop P) (some (sha256 (blockBytes prior (us.take P)))) =
        seedAfter sha256 P (n + 1) us prior := by
      simp only [seedAfter, digests]
      cases h : digests sha256 P n (us.drop P) (some (sha256 (blockBytes prior (us.take P)))) with
      | nil => simp
      | cons d ds => simp [getLast?_cons]
    rw [hdrop, hseed]

theorem digests_take (n : Nat) (us vs : List KeyUnit) (prior : Option Digest)
    (same : us.take (n * P) = vs.take (n * P)) :
    digests sha256 P n us prior = digests sha256 P n vs prior := by
  induction n generalizing us vs prior with
  | zero => rfl
  | succ n ih =>
    have page : us.take P = vs.take P := by
      have := congrArg (take P) same
      rwa [take_take, take_take, Nat.min_eq_left (by rw [succ_mul]; omega)] at this
    have rest : (us.drop P).take (n * P) = (vs.drop P).take (n * P) := by
      have := congrArg (drop P) same
      rwa [drop_take, drop_take, succ_mul, Nat.add_sub_cancel] at this
    rw [digests, digests, page, ih _ _ _ rest]

end Digests

theorem toBytes4_of_lt {t : Token} (small : t < 2 ^ 32) : toBytes4 t = .ok (tokenBytes t) := by
  simp only [toBytes4, if_pos small, tokenBytes]

section

variable {k : RadixKey} (small : ∀ t ∈ k.tokenIds, t < 2 ^ 32)
include small

theorem unitBytes_eq {j : Nat}
    (inside : j < k.units.length) : unitBytes k j = .ok (gramBytes k.units[j].2) := by
  cases hb : k.isBigram with
  | false =>
    have hj : j < k.tokenIds.length := by simpa [RadixKey.units, hb] using inside
    have hs := toBytes4_of_lt (small _ (getElem_mem hj))
    simp [unitBytes, hb, pyGet_of_lt hj, hs, bind, Except.bind, RadixKey.units, gramBytes]
  | true =>
    have hj : j + 1 < k.tokenIds.length := by
      simp [RadixKey.units, hb] at inside
      omega
    have h₀ := toBytes4_of_lt (small _ (getElem_mem (by omega : j < k.tokenIds.length)))
    have h₁ := toBytes4_of_lt (small _ (getElem_mem hj))
    simp [unitBytes, hb, pyGet_of_lt hj, pyGet_of_lt (by omega : j < k.tokenIds.length),
      h₀, h₁, bind, Except.bind, pure, Except.pure, RadixKey.units, gramBytes]

theorem pageBytes_eq {start stop : Nat} (inside : stop ≤ k.len) (prior : Option Digest) :
    pageBytes k start stop prior = .ok (blockBytes prior ((k.units.take stop).drop start)) := by
  have hlen := k.length_units
  have each : (range' start (stop - start)).mapM (unitBytes k) =
      .ok ((range' start (stop - start)).map
        (fun j => gramBytes ((k.units[j]?).getD (none, .token 0)).2)) := by
    apply mapM_eq_map
    intro j hj
    have hj := mem_range'_1.mp hj
    rw [unitBytes_eq small (by omega : j < k.units.length)]
    simp [getElem?_eq_getElem (by omega : j < k.units.length)]
  have units : (range' start (stop - start)).map (fun j => (k.units[j]?).getD (none, .token 0)) =
      (k.units.take stop).drop start := by
    apply ext_getElem
    · simp
      omega
    · intro i h₁ h₂
      have hi : start + i < k.units.length := by
        simp at h₁
        omega
      simp [getElem?_eq_getElem hi]
  simp only [pageBytes, each, bind, Except.bind, pure, Except.pure, blockBytes]
  rw [← units, flatMap_map]
  rfl

end

theorem hashPages_eq (sha256 : List UInt8 → Digest) {k : RadixKey}
    (small : ∀ t ∈ k.tokenIds, t < 2 ^ 32) {P : Nat} (pos : 0 < P) :
    ∀ n fuel start prior, n ≤ fuel → start + n * P = k.len →
      hashPages sha256 k P fuel start prior = .ok (digests sha256 P n (k.units.drop start) prior) := by
  intro n
  induction n with
  | zero =>
    intro fuel start prior _ hlen
    cases fuel with
    | zero => rfl
    | succ fuel =>
      rw [hashPages, if_neg (by omega)]
      rfl
  | succ n ih =>
    intro fuel start prior hfuel hlen
    obtain ⟨fuel, rfl⟩ : ∃ f, fuel = f + 1 := ⟨fuel - 1, by omega⟩
    rw [succ_mul] at hlen
    have bound : start + P ≤ k.len := by omega
    rw [hashPages, if_pos (by omega), Nat.min_eq_left bound]
    have page : (k.units.take (start + P)).drop start = (k.units.drop start).take P := by
      rw [drop_take, Nat.add_sub_cancel_left]
    simp only [hashPage, pageBytes_eq small bound, page, bind, Except.bind, pure, Except.pure]
    rw [ih fuel (start + P) _ (by omega) (by omega), digests, drop_drop]

end RedKnot
