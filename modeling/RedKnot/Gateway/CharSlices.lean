import Mathlib.Tactic

/-! The string helpers of the gateway's text tree (`policies/tree.rs`). The fast paths look at UTF-8
bytes and agree with the functions on characters. -/

namespace RedKnot.Gateway

open List Nat Option

def asBytes (s : List Char) : List UInt8 := s.flatMap String.utf8EncodeChar

def isAscii (bytes : List UInt8) : Bool := bytes.all (· < 128)

/-- `&s[n..]` for an offset at a character boundary -/
def sliceFrom : List Char → Nat → List Char
  | [], _ => []
  | c :: s, n => if n = 0 then c :: s else sliceFrom s (n - c.utf8Size)

/-- `&s[..n]` for an offset at a character boundary -/
def sliceTo : List Char → Nat → List Char
  | [], _ => []
  | c :: s, n => if n = 0 then [] else c :: sliceTo s (n - c.utf8Size)

def charIndices : List Char → List Nat
  | [] => []
  | c :: s => 0 :: (charIndices s).map (· + c.utf8Size)

def advanceByChars (s : List Char) (n : Nat) : List Char :=
  if n = 0 then s
  else if n ≥ (asBytes s).length then []
  else if isAscii ((asBytes s).take n) then sliceFrom s n
  else (((charIndices s)[n]?).map (sliceFrom s)).getD []

def takeChars (s : List Char) (n : Nat) : List Char :=
  if n = 0 then [] else (((charIndices s)[n]?).map (sliceTo s)).getD s

/-- `NodeText::split_at_char`; the cached count is the number of characters. -/
def splitAtChar (s : List Char) (n : Nat) : List Char × List Char :=
  if n = 0 then ([], s)
  else if n ≥ s.length then (s, [])
  else
    let byteIdx := ((charIndices s)[n]?).getD (asBytes s).length
    (sliceTo s byteIdx, sliceFrom s byteIdx)

def commonByteLen (a b : List UInt8) : Nat :=
  ((a.zip b).findIdx? (fun p => p.1 ≠ p.2)).getD (min a.length b.length)

def sharedPrefixCountChars (a b : List Char) : Nat :=
  ((a.zip b).takeWhile (fun p => p.1 = p.2)).length

def sharedPrefixCount (a b : List Char) : Nat :=
  let n := commonByteLen (asBytes a) (asBytes b)
  if isAscii ((asBytes a).take n) then n else sharedPrefixCountChars a b

theorem not_lt_of_ofNat {n : Nat} (low : 128 ≤ n) (high : n < 256) : ¬ UInt8.ofNat n < 128 := by
  rw [UInt8.lt_iff_toNat_lt, UInt8.toNat_ofNat', mod_eq_of_lt high]
  exact Nat.not_lt.mpr low

theorem utf8EncodeChar_cases (c : Char) :
    (c.utf8Size = 1 ∧ ∃ x : UInt8, x < 128 ∧ x.toNat = c.val.toNat ∧ String.utf8EncodeChar c = [x])
      ∨
      ∃ x rest, String.utf8EncodeChar c = x :: rest ∧ ¬ x < 128 := by
  have size := String.length_utf8EncodeChar c
  unfold String.utf8EncodeChar at size ⊢
  dsimp only at size ⊢
  split
  · next ascii =>
    rw [if_pos ascii] at size
    refine .inl ⟨size.symm, _, ?_, ?_, rfl⟩
    · rw [UInt8.lt_iff_toNat_lt, UInt8.toNat_ofNat']
      exact Nat.lt_of_le_of_lt (mod_le _ _) (lt_succ_of_le ascii)
    · rw [UInt8.toNat_ofNat', mod_eq_of_lt (by omega)]
  · split
    · exact .inr ⟨_, _, rfl, not_lt_of_ofNat (by omega) (by omega)⟩
    · split
      · exact .inr ⟨_, _, rfl, not_lt_of_ofNat (by omega) (by omega)⟩
      · exact .inr ⟨_, _, rfl, not_lt_of_ofNat (by omega) (by omega)⟩

theorem asBytes_cons (c : Char) (s : List Char) :
    asBytes (c :: s) = String.utf8EncodeChar c ++ asBytes s := flatMap_cons

theorem length_le_length_asBytes (s : List Char) : s.length ≤ (asBytes s).length := by
  induction s with
  | nil => rfl
  | cons c s ih =>
    rw [asBytes_cons, length_append, String.length_utf8EncodeChar, length_cons]
    have := c.utf8Size_pos
    omega

theorem sliceFrom_eq_drop {s : List Char} {n : Nat} (ascii : isAscii ((asBytes s).take n)) :
    sliceFrom s n = s.drop n := by
  induction s generalizing n with
  | nil => simp [sliceFrom]
  | cons c s ih =>
    cases n with
    | zero => rfl
    | succ n =>
      rcases utf8EncodeChar_cases c with ⟨size, x, -, -, bytes⟩ | ⟨x, rest, bytes, high⟩
      · rw [asBytes_cons, bytes, singleton_append, take_succ_cons, isAscii, all_cons,
          Bool.and_eq_true_iff] at ascii
        rw [sliceFrom, if_neg (succ_ne_zero n), size, Nat.add_sub_cancel, drop_succ_cons]
        exact ih ascii.2
      · rw [asBytes_cons, bytes, cons_append, take_succ_cons, isAscii, all_cons,
          Bool.and_eq_true_iff] at ascii
        exact absurd (of_decide_eq_true ascii.1) high

theorem sliceFrom_charIndices {s : List Char} {n idx : Nat} (h : (charIndices s)[n]? = some idx) :
    sliceFrom s idx = s.drop n ∧ sliceTo s idx = s.take n := by
  induction s generalizing n idx with
  | nil => cases h
  | cons c s ih =>
    cases n with
    | zero =>
      cases h
      exact ⟨rfl, rfl⟩
    | succ n =>
      rw [charIndices, getElem?_cons_succ, getElem?_map, map_eq_some_iff] at h
      obtain ⟨before, found, rfl⟩ := h
      have := c.utf8Size_pos
      rw [sliceFrom, sliceTo, if_neg (by omega), if_neg (by omega), Nat.add_sub_cancel,
        (ih found).1, (ih found).2]
      exact ⟨rfl, rfl⟩

section

variable (s : List Char)

theorem length_charIndices : (charIndices s).length = s.length := by
  induction s with
  | nil => rfl
  | cons c s ih => rw [charIndices, length_cons, length_map, ih, length_cons]

theorem advanceByChars_eq (n : Nat) : advanceByChars s n = s.drop n := by
  unfold advanceByChars
  split
  · next zero => rw [zero, drop_zero]
  · split
    · next long =>
      rw [drop_eq_nil_of_le ((length_le_length_asBytes s).trans long)]
    · split
      · next ascii => exact sliceFrom_eq_drop ascii
      · cases h : (charIndices s)[n]? with
        | none =>
          rw [List.getElem?_eq_none_iff, length_charIndices] at h
          rw [map_none, getD_none, drop_eq_nil_of_le h]
        | some idx => exact (sliceFrom_charIndices h).1

theorem takeChars_eq (n : Nat) : takeChars s n = s.take n := by
  unfold takeChars
  split
  · next zero => rw [zero, take_zero]
  · cases h : (charIndices s)[n]? with
    | none =>
      rw [List.getElem?_eq_none_iff, length_charIndices] at h
      rw [map_none, getD_none, take_of_length_le h]
    | some idx => exact (sliceFrom_charIndices h).2

theorem splitAtChar_eq (n : Nat) : splitAtChar s n = (s.take n, s.drop n) := by
  unfold splitAtChar
  split
  · next zero => rw [zero, take_zero, drop_zero]
  · split
    · next long => rw [take_of_length_le long, drop_eq_nil_of_le long]
    · next short =>
      have inside : n < (charIndices s).length := by
        rw [length_charIndices]
        omega
      dsimp only
      rw [getElem?_eq_getElem inside, getD_some]
      have found := sliceFrom_charIndices (getElem?_eq_getElem inside)
      rw [found.1, found.2]

end

theorem commonByteLen_cons (x y : UInt8) (a b : List UInt8) :
    commonByteLen (x :: a) (y :: b) = if x = y then commonByteLen a b + 1 else 0 := by
  unfold commonByteLen
  rw [zip_cons_cons, findIdx?_cons]
  by_cases same : x = y
  · rw [if_pos same]
    cases h : (a.zip b).findIdx? (fun p => p.1 ≠ p.2) with
    | none => simp [same, succ_min_succ]
    | some i => simp [same]
  · simp [same]

theorem sharedPrefixCountChars_cons (c d : Char) (a b : List Char) :
    sharedPrefixCountChars (c :: a) (d :: b) =
      if c = d then sharedPrefixCountChars a b + 1 else 0 := by
  unfold sharedPrefixCountChars
  rw [zip_cons_cons, takeWhile_cons]
  by_cases same : c = d <;> simp [same]

section

variable (a b : List Char)

theorem sharedPrefixCount_eq : sharedPrefixCount a b = sharedPrefixCountChars a b := by
  suffices h : isAscii ((asBytes a).take (commonByteLen (asBytes a) (asBytes b))) →
      commonByteLen (asBytes a) (asBytes b) = sharedPrefixCountChars a b by
    unfold sharedPrefixCount
    dsimp only
    split
    · next ascii => exact h ascii
    · rfl
  induction a generalizing b with
  | nil => simp [asBytes, commonByteLen, sharedPrefixCountChars]
  | cons c a ih =>
    cases b with
    | nil => simp [asBytes, commonByteLen, sharedPrefixCountChars]
    | cons d b =>
      rw [asBytes_cons, asBytes_cons, sharedPrefixCountChars_cons]
      rcases utf8EncodeChar_cases c with ⟨-, x, low, value, bytes⟩ | ⟨x, rest, bytes, high⟩
      · rw [bytes, singleton_append]
        rcases utf8EncodeChar_cases d with ⟨-, y, -, value', bytes'⟩ | ⟨y, rest', bytes', high'⟩
        · rw [bytes', singleton_append, commonByteLen_cons]
          by_cases same : x = y
          · have equal : c = d := by
              rw [same, value'] at value
              exact Char.ext (UInt32.toNat_inj.mp value.symm)
            rw [if_pos same, if_pos equal, take_succ_cons, isAscii, all_cons, Bool.and_eq_true_iff]
            rintro ⟨-, ascii⟩
            rw [ih b ascii]
          · have differ : c ≠ d := by
              rintro rfl
              exact same (UInt8.toNat_inj.mp (value.trans value'.symm))
            rw [if_neg same, if_neg differ]
            exact fun _ => rfl
        · have differ : x ≠ y := fun same => high' (same ▸ low)
          have other : c ≠ d := by
            rintro rfl
            rw [bytes] at bytes'
            exact differ (List.cons.inj bytes').1
          rw [bytes', cons_append, commonByteLen_cons, if_neg differ, if_neg other]
          exact fun _ => rfl
      · rw [bytes, cons_append]
        obtain ⟨y, rest', bytes'⟩ :=
          exists_cons_of_ne_nil (String.utf8EncodeChar_ne_nil (c := d))
        rw [bytes', cons_append, commonByteLen_cons]
        by_cases same : x = y
        · rw [if_pos same, take_succ_cons, isAscii, all_cons, Bool.and_eq_true_iff]
          exact fun ascii => absurd (of_decide_eq_true ascii.1) high
        · have other : c ≠ d := by
            rintro rfl
            rw [bytes] at bytes'
            exact same (List.cons.inj bytes').1
          rw [if_neg same, if_neg other]
          exact fun _ => rfl

theorem sharedPrefixCountChars_le_left : sharedPrefixCountChars a b ≤ a.length := by
  induction a generalizing b with
  | nil => simp [sharedPrefixCountChars]
  | cons c a ih =>
    cases b with
    | nil => simp [sharedPrefixCountChars]
    | cons d b =>
      rw [sharedPrefixCountChars_cons, length_cons]
      have := ih b
      split <;> omega

theorem take_sharedPrefixCountChars :
    a.take (sharedPrefixCountChars a b) = b.take (sharedPrefixCountChars a b) := by
  induction a generalizing b with
  | nil => simp [sharedPrefixCountChars]
  | cons c a ih =>
    cases b with
    | nil => simp [sharedPrefixCountChars]
    | cons d b =>
      rw [sharedPrefixCountChars_cons]
      split
      · next same => rw [take_succ_cons, take_succ_cons, same, ih b]
      · rfl

theorem sharedPrefixCountChars_le_right : sharedPrefixCountChars a b ≤ b.length := by
  have same := congrArg length (take_sharedPrefixCountChars a b)
  have := sharedPrefixCountChars_le_left a b
  rw [length_take, length_take] at same
  omega

end

theorem sharedPrefixCountChars_pos {c : Char} {text : List Char} (rest : List Char)
    (first : text.head? = some c) :
    0 < sharedPrefixCountChars (c :: rest) text := by
  cases text with
  | nil => cases first
  | cons d text =>
    cases first
    rw [sharedPrefixCountChars_cons, if_pos rfl]
    exact succ_pos _

end RedKnot.Gateway
