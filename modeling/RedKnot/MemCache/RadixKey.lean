import RedKnot.Lib.RadixTree
import RedKnot.Python

/-! `RadixKey` of `mem_cache/radix_cache.py`. Results about keys are stated on the list of logical
units, each tagged with the namespace of the key; in bigram mode a unit is an overlapping pair. -/

namespace RedKnot

open Function List

abbrev Token := Nat
abbrev Slot := Nat
abbrev NodeId := Nat

structure RadixKey where
  tokenIds : List Token
  extraKey : Option String := none
  isBigram : Bool := false
deriving DecidableEq, Repr

inductive PlainKey where
  | token (t : Token)
  | tokens (ts : List Token)
  | bigram (a b : Token)
  | bigrams (bs : List (Token × Token))
deriving DecidableEq, Repr

inductive ChildKey where
  | plain (key : PlainKey)
  | namespaced (extraKey : String) (key : PlainKey)
deriving DecidableEq, Repr

namespace RadixKey

def len (k : RadixKey) : Nat :=
  if k.isBigram then (if k.tokenIds.length > 0 then k.tokenIds.length - 1 else 0)
  else k.tokenIds.length

/-- `self[start:stop]` with the bounds clamped as `slice.indices` does. -/
def slice (k : RadixKey) (start stop : Nat) : RadixKey :=
  let start := min start k.len
  let stop := min stop k.len
  if k.isBigram then
    { tokenIds := if stop > start then pySlice k.tokenIds start (stop + 1) else []
      extraKey := k.extraKey, isBigram := true }
  else { tokenIds := pySlice k.tokenIds start stop, extraKey := k.extraKey, isBigram := false }

/-- `self[:stop]` -/
def upTo (k : RadixKey) (stop : Nat) : RadixKey := k.slice 0 stop

/-- `self[start:]` -/
def fromIdx (k : RadixKey) (start : Nat) : RadixKey := k.slice start k.len

def pageAligned (k : RadixKey) (pageSize : Nat) : RadixKey :=
  if pageSize = 1 then k else k.upTo (k.len / pageSize * pageSize)

def maybeToBigramView (k : RadixKey) (isEagle : Bool) (value : Option (List Slot)) :
    RadixKey × Option (List Slot) :=
  if isEagle && !k.isBigram then
    let k := { k with isBigram := true }
    (k, value.map (fun v => v.take k.len))
  else (k, value)

def checkCompatible (k other : RadixKey) : Except PyError Unit :=
  if k.extraKey ≠ other.extraKey then
    .error (.valueError "RadixKey operations require matching extra_key")
  else .ok ()

/-- The page loop of `match`, from position `i`. -/
def matchPages (t0 t1 : List Token) (pageSize minLen : Nat) : Nat → Nat → Nat
  | 0, i => i
  | fuel + 1, i =>
    if i < minLen then
      if pySlice t0 i (i + pageSize) ≠ pySlice t1 i (i + pageSize) then i
      else matchPages t0 t1 pageSize minLen fuel (i + pageSize)
    else i

/-- `match`; `commonLen` is the loop over `zip(t0, t1)` up to the first mismatch. -/
def matchLen (k other : RadixKey) (pageSize : Nat) : Except PyError Nat := do
  k.checkCompatible other
  if k.isBigram then
    let i := commonLen k.tokenIds other.tokenIds
    let matched := min (min (i - 1) k.len) other.len
    return if pageSize > 1 then matched / pageSize * pageSize else matched
  else if pageSize = 1 then
    return commonLen k.tokenIds other.tokenIds
  else
    let minLen := min k.len other.len
    return matchPages k.tokenIds other.tokenIds pageSize minLen minLen 0

/-- The value of `plain` in `child_key`. -/
def plainKey (k : RadixKey) (pageSize : Nat) : Except PyError PlainKey :=
  let t := k.tokenIds
  if k.isBigram then
    if pageSize = 1 then do
      return .bigram (← pyGet t 0) (← pyGet t 1)
    else do
      return .bigrams (← (range pageSize).mapM
        (fun j => do return (← pyGet t j, ← pyGet t (j + 1))))
  else if pageSize = 1 then do
    return .token (← pyGet t 0)
  else
    return .tokens (t.take pageSize)

def childKey (k : RadixKey) (pageSize : Nat) : Except PyError ChildKey := do
  let plain ← k.plainKey pageSize
  match k.extraKey with
  | none => return .plain plain
  | some e => return .namespaced e plain

end RadixKey

inductive Gram where
  | token (t : Token)
  | bigram (a b : Token)
deriving DecidableEq, Repr

abbrev KeyUnit := Option String × Gram

namespace RadixKey

/-- `__iter__`, with every unit tagged by the namespace of the key. -/
def units (k : RadixKey) : List KeyUnit :=
  if k.isBigram then (k.tokenIds.zip k.tokenIds.tail).map (fun ab => (k.extraKey, .bigram ab.1 ab.2))
  else k.tokenIds.map (fun t => (k.extraKey, .token t))

theorem length_units (k : RadixKey) : k.units.length = k.len := by
  cases hb : k.isBigram with
  | false => simp [units, len, hb]
  | true =>
    simp only [units, len, hb, if_true, length_map, length_zip, length_tail]
    split <;> omega

def tokenUnits (e : Option String) (ts : List Token) : List KeyUnit :=
  ts.map (fun t => (e, .token t))

def bigramUnits (e : Option String) (bs : List (Token × Token)) : List KeyUnit :=
  bs.map (fun ab => (e, .bigram ab.1 ab.2))

def Uniform (us : List KeyUnit) : Prop :=
  (∃ e ts, us = tokenUnits e ts) ∨ (∃ e bs, us = bigramUnits e bs)

theorem units_of_tokens {k : RadixKey} (hb : k.isBigram = false) :
    k.units = tokenUnits k.extraKey k.tokenIds := by
  simp [units, hb, tokenUnits]

theorem units_of_bigrams {k : RadixKey} (hb : k.isBigram = true) :
    k.units = bigramUnits k.extraKey (k.tokenIds.zip k.tokenIds.tail) := by
  simp [units, hb, bigramUnits]

theorem uniform_units (k : RadixKey) : Uniform k.units := by
  cases hb : k.isBigram with
  | false => exact .inl ⟨_, _, units_of_tokens hb⟩
  | true => exact .inr ⟨_, _, units_of_bigrams hb⟩

theorem uniform_take {us : List KeyUnit} (h : Uniform us) (n : Nat) : Uniform (us.take n) := by
  rcases h with ⟨e, ts, rfl⟩ | ⟨e, bs, rfl⟩
  · exact .inl ⟨e, ts.take n, by simp [tokenUnits]⟩
  · exact .inr ⟨e, bs.take n, by simp [bigramUnits]⟩

theorem uniform_drop {us : List KeyUnit} (h : Uniform us) (n : Nat) : Uniform (us.drop n) := by
  rcases h with ⟨e, ts, rfl⟩ | ⟨e, bs, rfl⟩
  · exact .inl ⟨e, ts.drop n, by simp [tokenUnits]⟩
  · exact .inr ⟨e, bs.drop n, by simp [bigramUnits]⟩

theorem zip_tail_take (l : List Token) (n : Nat) :
    (l.take (n + 1)).zip (l.take (n + 1)).tail = (l.zip l.tail).take n := by
  apply ext_getElem
  · simp
    omega
  · intro i h₁ h₂
    simp

theorem zip_tail_drop (l : List Token) (n : Nat) :
    (l.drop n).zip (l.drop n).tail = (l.zip l.tail).drop n := by
  simp [zip, drop_zipWith]

theorem slice_clamp {α : Type} (l : List α) (start stop : Nat) :
    (l.take (min stop l.length)).drop (min start l.length) = (l.take stop).drop start := by
  apply ext_getElem
  · simp
    omega
  · intro i h₁ h₂
    simp at h₁ h₂ ⊢
    congr 1
    omega

section

variable (k : RadixKey)

theorem units_slice (start stop : Nat) :
    (k.slice start stop).units = (k.units.take stop).drop start := by
  rw [← slice_clamp k.units, k.length_units]
  cases hb : k.isBigram with
  | false => simp [slice, hb, units, pySlice, map_drop, map_take]
  | true =>
    by_cases nonempty : min stop k.len > min start k.len
    · simp only [slice, hb, if_true, if_pos nonempty, units, pySlice, zip_tail_drop, zip_tail_take]
      simp only [map_drop, map_take]
    · have empty : (k.units.take (min stop k.len)).drop (min start k.len) = [] := by
        apply drop_eq_nil_of_le
        rw [length_take]
        omega
      rw [empty]
      simp [slice, hb, nonempty, units]

theorem units_upTo (stop : Nat) : (k.upTo stop).units = k.units.take stop := by
  simp [upTo, units_slice]

theorem units_fromIdx (start : Nat) : (k.fromIdx start).units = k.units.drop start := by
  rw [fromIdx, units_slice, ← k.length_units, take_length]

theorem slice_extraKey (start stop : Nat) : (k.slice start stop).extraKey = k.extraKey := by
  unfold slice
  split <;> rfl

theorem slice_isBigram (start stop : Nat) : (k.slice start stop).isBigram = k.isBigram := by
  unfold slice
  split <;> simp_all

theorem tokenIds_slice (start stop : Nat) : (k.slice start stop).tokenIds ⊆ k.tokenIds := by
  intro t ht
  simp only [slice, pySlice] at ht
  split at ht
  · split at ht
    · exact mem_of_mem_take (mem_of_mem_drop ht)
    · simp at ht
  · exact mem_of_mem_take (mem_of_mem_drop ht)

theorem tokenIds_pageAligned (P : Nat) : (k.pageAligned P).tokenIds ⊆ k.tokenIds := by
  unfold pageAligned
  split
  · exact fun _ ht => ht
  · exact tokenIds_slice k _ _

theorem len_upTo (stop : Nat) : (k.upTo stop).len = min stop k.len := by
  rw [← length_units, units_upTo, length_take, length_units]

theorem len_fromIdx (start : Nat) : (k.fromIdx start).len = k.len - start := by
  rw [← length_units, units_fromIdx, length_drop, length_units]

theorem units_pageAligned (P : Nat) :
    (k.pageAligned P).units = k.units.take (pageFloor P k.len) := by
  unfold pageAligned
  split
  · rename_i one
    simp [one, pageFloor, ← k.length_units]
  · exact k.units_upTo _

theorem len_pageAligned (P : Nat) : (k.pageAligned P).len = pageFloor P k.len := by
  rw [← length_units, units_pageAligned, length_take, length_units]
  exact Nat.min_eq_left (pageFloor_le P k.len)

theorem paged_pageAligned (P : Nat) : P ∣ (k.pageAligned P).len := by
  rw [len_pageAligned]
  exact dvd_pageFloor P k.len

end

def ChildKey.wrap (e : Option String) (plain : PlainKey) : ChildKey :=
  match e with
  | none => .plain plain
  | some e => .namespaced e plain

theorem ChildKey.wrap_inj {e f : Option String} {a b : PlainKey} (h : wrap e a = wrap f b) :
    e = f ∧ a = b := by
  cases e <;> cases f <;> simp_all [wrap]

def encPage (P : Nat) (us : List KeyUnit) : ChildKey :=
  ChildKey.wrap (us.head?.bind (fun u => u.1)) <|
    match us with
    | (_, .token t) :: _ =>
      if P = 1 then .token t
      else .tokens (us.map (fun u => match u.2 with | .token t => t | .bigram a _ => a))
    | (_, .bigram a b) :: _ =>
      if P = 1 then .bigram a b
      else .bigrams (us.map (fun u => match u.2 with | .token t => (t, t) | .bigram a b => (a, b)))
    | [] => .tokens []

theorem encPage_tokens (P : Nat) (e : Option String) (t : Token) (ts : List Token) :
    encPage P (tokenUnits e (t :: ts)) =
      ChildKey.wrap e (if P = 1 then .token t else .tokens (t :: ts)) := by
  simp [encPage, tokenUnits, comp_def]

theorem encPage_bigrams (P : Nat) (e : Option String) (ab : Token × Token)
    (bs : List (Token × Token)) :
    encPage P (bigramUnits e (ab :: bs)) =
      ChildKey.wrap e (if P = 1 then .bigram ab.1 ab.2 else .bigrams (ab :: bs)) := by
  simp [encPage, bigramUnits, comp_def]

theorem length_tokenUnits (e : Option String) (ts : List Token) :
    (tokenUnits e ts).length = ts.length := by simp [tokenUnits]

theorem length_bigramUnits (e : Option String) (bs : List (Token × Token)) :
    (bigramUnits e bs).length = bs.length := by simp [bigramUnits]

variable {P : Nat}

theorem encPage_inj (pos : 0 < P) (us vs : List KeyUnit) (hu : Uniform us)
    (hv : Uniform vs) (lu : us.length = P) (lv : vs.length = P)
    (same : encPage P us = encPage P vs) : us = vs := by
  rcases hu with ⟨e, ts, rfl⟩ | ⟨e, bs, rfl⟩ <;> rcases hv with ⟨f, ss, rfl⟩ | ⟨f, cs, rfl⟩
  · rw [length_tokenUnits] at lu lv
    obtain ⟨t, ts, rfl⟩ := exists_cons_of_length_pos (lu ▸ pos)
    obtain ⟨s, ss, rfl⟩ := exists_cons_of_length_pos (lv ▸ pos)
    rw [encPage_tokens, encPage_tokens] at same
    obtain ⟨rfl, h⟩ := ChildKey.wrap_inj same
    by_cases one : P = 1
    · simp_all
    · simp_all
  · rw [length_tokenUnits] at lu
    rw [length_bigramUnits] at lv
    obtain ⟨t, ts, rfl⟩ := exists_cons_of_length_pos (lu ▸ pos)
    obtain ⟨c, cs, rfl⟩ := exists_cons_of_length_pos (lv ▸ pos)
    rw [encPage_tokens, encPage_bigrams] at same
    have h := (ChildKey.wrap_inj same).2
    split at h <;> cases h
  · rw [length_bigramUnits] at lu
    rw [length_tokenUnits] at lv
    obtain ⟨b, bs, rfl⟩ := exists_cons_of_length_pos (lu ▸ pos)
    obtain ⟨s, ss, rfl⟩ := exists_cons_of_length_pos (lv ▸ pos)
    rw [encPage_tokens, encPage_bigrams] at same
    have h := (ChildKey.wrap_inj same).2
    split at h <;> cases h
  · rw [length_bigramUnits] at lu lv
    obtain ⟨b, bs, rfl⟩ := exists_cons_of_length_pos (lu ▸ pos)
    obtain ⟨c, cs, rfl⟩ := exists_cons_of_length_pos (lv ▸ pos)
    rw [encPage_bigrams, encPage_bigrams] at same
    obtain ⟨rfl, h⟩ := ChildKey.wrap_inj same
    by_cases one : P = 1
    · obtain ⟨b₁, b₂⟩ := b
      obtain ⟨c₁, c₂⟩ := c
      simp_all
    · simp_all

theorem childKey_eq_wrap (k : RadixKey) (P : Nat) :
    k.childKey P = (k.plainKey P).map (ChildKey.wrap k.extraKey) := by
  unfold childKey
  cases k.plainKey P <;> cases k.extraKey <;> rfl

theorem pyGet_of_lt {α : Type} {l : List α} {i : Nat} (h : i < l.length) :
    pyGet l i = .ok l[i] := by
  simp [pyGet, h]

theorem mapM_pyGet_pairs (t : List Token) (n : Nat) (h : n < t.length) :
    (range n).mapM (fun j => do return (← pyGet t j, ← pyGet t (j + 1))) =
      Except.ok ((t.zip t.tail).take n) := by
  rw [mapM_eq_map (g := fun j => (t.getD j 0, t.getD (j + 1) 0))]
  · congr 1
    apply ext_getElem
    · simp
      omega
    · intro i h₁ h₂
      have hi : i < n := by simpa using h₁
      simp [getD_eq_getElem?_getD, getElem?_eq_getElem (by omega : i < t.length),
        getElem?_eq_getElem (by omega : i + 1 < t.length)]
  · intro j hj
    have hj : j < n := by simpa using hj
    have h₀ : j < t.length := by omega
    have h₁ : j + 1 < t.length := by omega
    simp [pyGet, h₀, h₁]

theorem childKey_of_tokens {k : RadixKey} (hb : k.isBigram = false) (pos : 0 < P)
    (long : 0 < k.len) : k.childKey P = .ok (encPage P (k.units.take P)) := by
  have hl : k.len = k.tokenIds.length := by simp [len, hb]
  obtain ⟨t, ts, ht⟩ := exists_cons_of_length_pos (by omega : 0 < k.tokenIds.length)
  obtain ⟨n, rfl⟩ : ∃ n, P = n + 1 := ⟨P - 1, by omega⟩
  have hpage : k.units.take (n + 1) = tokenUnits k.extraKey (t :: ts.take n) := by
    rw [units_of_tokens hb, ht, tokenUnits, ← map_take, take_succ_cons, tokenUnits]
  rw [hpage, encPage_tokens, childKey_eq_wrap]
  by_cases one : n + 1 = 1
  · simp [plainKey, hb, one, ht, pyGet]
    rfl
  · have hn : n ≠ 0 := by omega
    simp [plainKey, hb, hn, ht]
    rfl

theorem childKey_of_page {k : RadixKey} (pos : 0 < P) (long : P ≤ k.len) :
    k.childKey P = .ok (encPage P (k.units.take P)) := by
  cases hb : k.isBigram with
  | false => exact childKey_of_tokens hb pos (by omega)
  | true =>
    have hl : P < k.tokenIds.length := by
      simp only [len, hb, if_true] at long
      split at long <;> omega
    have hpage : k.units.take P =
        bigramUnits k.extraKey ((k.tokenIds.zip k.tokenIds.tail).take P) := by
      rw [units_of_bigrams hb, bigramUnits, ← map_take, bigramUnits]
    have hpairs : 0 < ((k.tokenIds.zip k.tokenIds.tail).take P).length := by
      simp
      omega
    obtain ⟨ab, bs, hbs⟩ := exists_cons_of_length_pos hpairs
    rw [hpage, hbs, encPage_bigrams, childKey_eq_wrap]
    by_cases one : P = 1
    · subst one
      obtain ⟨a, b, rest, ht⟩ : ∃ a b rest, k.tokenIds = a :: b :: rest := by
        match k.tokenIds, hl with
        | a :: b :: rest, _ => exact ⟨a, b, rest, rfl⟩
      have hab : ab = (a, b) := by simp [ht] at hbs; exact hbs.1.symm
      simp [plainKey, hb, ht, pyGet, hab]
      rfl
    · simp only [plainKey, hb, if_true, if_neg one, mapM_pyGet_pairs _ _ hl, hbs]
      rfl

theorem commonLen_map {α β : Type} [DecidableEq α] [DecidableEq β] {f : α → β}
    (inj : Injective f) (as bs : List α) :
    commonLen (as.map f) (bs.map f) = commonLen as bs := by
  induction as generalizing bs with
  | nil => rfl
  | cons a as ih =>
    cases bs with
    | nil => rfl
    | cons b bs => simp [commonLen, ih, inj.eq_iff]

theorem commonLen_zip_tail (t s : List Token) :
    commonLen (t.zip t.tail) (s.zip s.tail) = commonLen t s - 1 := by
  induction t generalizing s with
  | nil => simp [commonLen]
  | cons a t ih =>
    cases s with
    | nil => simp [commonLen]
    | cons b s =>
      cases t with
      | nil => by_cases h : a = b <;> simp [commonLen, h]
      | cons a' t =>
        cases s with
        | nil => by_cases h : a = b <;> simp [commonLen, h]
        | cons b' s =>
          have tail := ih (b' :: s)
          simp only [tail_cons, zip_cons_cons, commonLen, Prod.mk.injEq] at tail ⊢
          by_cases h : a = b <;> by_cases h' : a' = b' <;> simp_all

theorem matchPages_eq (t0 t1 : List Token) (pos : 0 < P) (paged : P ∣ t0.length) :
    ∀ fuel i, min t0.length t1.length - i ≤ fuel → P ∣ i → i ≤ commonLen t0 t1 →
      matchPages t0 t1 P (min t0.length t1.length) fuel i = pageFloor P (commonLen t0 t1) := by
  have left := commonLen_le_left t0 t1
  have right := commonLen_le_right t0 t1
  intro fuel
  induction fuel with
  | zero =>
    intro i hfuel hi hle
    have same : commonLen t0 t1 = i := by omega
    rw [matchPages, same, pageFloor_of_dvd hi]
  | succ fuel ih =>
    intro i hfuel hi hle
    rw [matchPages]
    split
    · rename_i inside
      -- The page at `i` lies inside `t0`, so equal slices are whole pages of both lists.
      have page : i + P ≤ t0.length := by
        obtain ⟨a, ha⟩ := paged
        obtain ⟨b, hb⟩ := hi
        have : b < a := by
          by_contra h
          have := Nat.mul_le_mul_left P (Nat.le_of_not_lt h)
          omega
        have := Nat.mul_le_mul_left P this
        rw [Nat.mul_succ] at this
        omega
      by_cases eq : pySlice t0 i (i + P) = pySlice t1 i (i + P)
      · rw [if_neg (by simpa using eq)]
        have hlen := congrArg length eq
        simp only [pySlice, length_drop, length_take] at hlen
        have both : i + P ≤ t1.length := by omega
        have front := take_eq_of_le_commonLen hle
        have whole : t0.take (i + P) = t1.take (i + P) := by
          rw [← take_append_drop i (t0.take (i + P)), ← take_append_drop i (t1.take (i + P)),
            take_take, take_take, Nat.min_eq_left (by omega), front]
          exact congrArg _ eq
        exact ih (i + P) (by omega) (Dvd.dvd.add hi (dvd_refl P)) (le_commonLen page both whole)
      · rw [if_pos (by simpa using eq)]
        have stop : commonLen t0 t1 < i + P := by
          by_contra h
          apply eq
          have := take_eq_of_le_commonLen (Nat.le_of_not_lt h)
          rw [pySlice, pySlice, this]
        have := le_pageFloor hi hle
        have low := pageFloor_le P (commonLen t0 t1)
        obtain ⟨a, ha⟩ := hi
        obtain ⟨b, hb⟩ := dvd_pageFloor P (commonLen t0 t1)
        have hab : b < a + 1 := by
          by_contra h
          have := Nat.mul_le_mul_left P (Nat.le_of_not_lt h)
          rw [Nat.mul_succ] at this
          omega
        have := Nat.mul_le_mul_left P (Nat.le_of_lt_succ hab)
        omega
    · have same : commonLen t0 t1 = i := by omega
      rw [same, pageFloor_of_dvd hi]

theorem matchLen_eq {k other : RadixKey} (pos : 0 < P) (namespaces : k.extraKey = other.extraKey)
    (modes : k.isBigram = other.isBigram) (paged : P ∣ k.len) :
    k.matchLen other P = .ok (pageFloor P (commonLen k.units other.units)) := by
  have compatible : k.checkCompatible other = .ok () := by simp [checkCompatible, namespaces]
  cases hb : k.isBigram with
  | false =>
    have hb' := modes ▸ hb
    have hunits : commonLen k.units other.units = commonLen k.tokenIds other.tokenIds := by
      rw [units_of_tokens hb, units_of_tokens hb', namespaces, tokenUnits, tokenUnits]
      exact commonLen_map (fun a b h => by simpa using h) _ _
    have hl : k.len = k.tokenIds.length := by simp [len, hb]
    have hl' : other.len = other.tokenIds.length := by simp [len, hb']
    rw [hunits]
    by_cases one : P = 1
    · simp [matchLen, compatible, hb, one, pageFloor]
    · simp only [matchLen, compatible, hb, if_neg one, hl, hl']
      rw [matchPages_eq _ _ pos (hl ▸ paged) _ _ (by omega) (dvd_zero P) (Nat.zero_le _)]
      rfl
  | true =>
    have hb' := modes ▸ hb
    have hunits : commonLen k.units other.units = commonLen k.tokenIds other.tokenIds - 1 := by
      rw [units_of_bigrams hb, units_of_bigrams hb', namespaces, bigramUnits, bigramUnits,
        commonLen_map (fun a b h => by simpa [Prod.ext_iff] using h), commonLen_zip_tail]
    have hl := commonLen_le_left k.units other.units
    have hr := commonLen_le_right k.units other.units
    rw [length_units] at hl hr
    have hmin : min (min (commonLen k.tokenIds other.tokenIds - 1) k.len) other.len =
        commonLen k.units other.units := by omega
    simp only [matchLen, compatible, hb, if_true, hmin]
    by_cases one : P > 1
    · simp only [if_pos one]
      rfl
    · have : P = 1 := by omega
      subst this
      simp [pageFloor]

theorem of_mem_units {k : RadixKey} {u : KeyUnit} (hu : u ∈ k.units) :
    k.extraKey = u.1 ∧ (k.isBigram = true ↔ ∃ a b, u.2 = .bigram a b) := by
  cases hb : k.isBigram with
  | false =>
    rw [units_of_tokens hb, tokenUnits, mem_map] at hu
    obtain ⟨t, _, rfl⟩ := hu
    simp
  | true =>
    rw [units_of_bigrams hb, bigramUnits, mem_map] at hu
    obtain ⟨t, _, rfl⟩ := hu
    simp

theorem same_of_page {k other : RadixKey} (pos : 0 < P) (nonempty : 0 < k.len)
    (page : k.units.take P = other.units.take P) :
    k.extraKey = other.extraKey ∧ k.isBigram = other.isBigram := by
  have hk : 0 < (k.units.take P).length := by
    rw [length_take, length_units]
    omega
  obtain ⟨u, hu⟩ := exists_mem_of_length_pos hk
  obtain ⟨extra, kind⟩ := of_mem_units (mem_of_mem_take hu)
  obtain ⟨extra', kind'⟩ := of_mem_units (mem_of_mem_take (page ▸ hu))
  exact ⟨extra.trans extra'.symm, Bool.eq_iff_iff.mpr (kind.trans kind'.symm)⟩

end RadixKey

end RedKnot
