import Mathlib

/-! Pages of `P` consecutive slots: page `q` holds the slots from `q * P` on. -/

namespace Pages

open List Nat

def slots (P : Nat) (pages : List Nat) : List Nat :=
  pages.flatMap (fun q => (range P).map (q * P + ·))

def ceil (P n : Nat) : Nat := (n + P - 1) / P

def slotAt (P : Nat) (pages : List Nat) (j : Nat) : Nat := pages.getD (j / P) 0 * P + j % P

variable {P : Nat}

@[simp]
theorem slots_nil (P : Nat) : slots P [] = [] := rfl

theorem slots_append (P : Nat) (a b : List Nat) : slots P (a ++ b) = slots P a ++ slots P b :=
  flatMap_append

theorem slots_flatMap {α : Type} (P : Nat) (l : List α) (f : α → List Nat) :
    slots P (l.flatMap f) = l.flatMap (fun x => slots P (f x)) := flatMap_assoc

theorem slots_perm (P : Nat) {a b : List Nat} (h : a.Perm b) : (slots P a).Perm (slots P b) :=
  h.flatMap_right _

@[simp]
theorem length_slots (P : Nat) (pages : List Nat) : (slots P pages).length = pages.length * P := by
  induction pages with
  | nil => simp
  | cons q pages ih =>
    simp only [slots, flatMap_cons, length_append, length_map, length_range,
      length_cons, succ_mul] at ih ⊢
    omega

variable {a b m n q x : Nat}

theorem mem_slots (pos : 0 < P) {pages : List Nat} : x ∈ slots P pages ↔ x / P ∈ pages := by
  simp only [slots, mem_flatMap, mem_map, mem_range]
  constructor
  · rintro ⟨q, hq, r, hr, rfl⟩
    rwa [Nat.mul_comm q P, mul_add_div pos, div_eq_of_lt hr, Nat.add_zero]
  · intro hx
    exact ⟨x / P, hx, x % P, mod_lt _ pos, div_add_mod' x P⟩

theorem slots_eq_map (pos : 0 < P) (pages : List Nat) :
    slots P pages = (range (pages.length * P)).map (slotAt P pages) := by
  induction pages with
  | nil => simp
  | cons q pages ih =>
    have tail : ∀ j, slotAt P (q :: pages) (P + j) = slotAt P pages j := by
      intro j
      simp [slotAt, add_div_left _ pos]
    have head : ∀ j < P, slotAt P (q :: pages) j = q * P + j := by
      intro j hj
      simp [slotAt, div_eq_of_lt hj, mod_eq_of_lt hj]
    have first : (range P).map (slotAt P (q :: pages)) = (range P).map (q * P + ·) :=
      map_congr_left fun j hj => head j (mem_range.mp hj)
    rw [length_cons, succ_mul, Nat.add_comm, range_add, map_append, map_map, first]
    simp only [slots] at ih ⊢
    rw [flatMap_cons, ih]
    congr 1
    exact map_congr_left fun j _ => (tail j).symm

theorem drop_take_slots (pos : 0 < P) {pages : List Nat} (enough : b ≤ pages.length * P) :
    ((slots P pages).take b).drop a = (range (b - a)).map (fun i => slotAt P pages (a + i)) := by
  rw [slots_eq_map pos, ← map_take, ← map_drop, take_range, Nat.min_eq_left enough,
    range_eq_range', drop_range', range'_eq_map_range, map_map]
  simp [Function.comp_def]

theorem slots_range' (pos : 0 < P) (n : Nat) : slots P (range' 1 n) = range' P (n * P) := by
  rw [slots_eq_map pos, length_range', range'_eq_map_range (s := P)]
  refine map_congr_left fun j hj => ?_
  have inside : j / P < n := Nat.div_lt_of_lt_mul (by rw [Nat.mul_comm]; exact mem_range.mp hj)
  have whole := div_add_mod j P
  rw [slotAt, getD_eq_getElem _ _ (by rwa [length_range']), getElem_range', Nat.add_mul,
    Nat.one_mul, Nat.one_mul, Nat.mul_comm (j / P)]
  omega

theorem slotAt_of_bounds {pages : List Nat} {j : Nat} (low : q * P ≤ j) (high : j < (q + 1) * P) :
    slotAt P pages j = pages.getD q 0 * P + (j - q * P) := by
  have hdiv : j / P = q := Nat.div_eq_of_lt_le low high
  have hmod : j % P = j - q * P := by
    have := div_add_mod j P
    rw [hdiv, Nat.mul_comm] at this
    omega
  rw [slotAt, hdiv, hmod]

theorem slotAt_append_left {a b : List Nat} {j : Nat} (inside : j / P < a.length) :
    slotAt P (a ++ b) j = slotAt P a j := by
  rw [slotAt, slotAt, getD_append _ _ _ _ inside]

section

variable (pos : 0 < P)
include pos

theorem slotAt_append_right (a b : List Nat) (j : Nat) :
    slotAt P (a ++ b) (a.length * P + j) = slotAt P b j := by
  have hdiv : (a.length * P + j) / P = a.length + j / P := by
    rw [Nat.mul_comm, mul_add_div pos]
  rw [slotAt, slotAt, hdiv, getD_append_right _ _ _ _ (Nat.le_add_right _ _),
    Nat.add_sub_cancel_left, mul_add_mod_self_right]

theorem ceil_mul_ge (n : Nat) : n ≤ ceil P n * P := by
  have := div_add_mod (n + P - 1) P
  have := mod_lt (n + P - 1) pos
  rw [ceil, Nat.mul_comm]
  omega

theorem ceil_mul_lt (n : Nat) : ceil P n * P < n + P := by
  have := div_add_mod (n + P - 1) P
  rw [ceil, Nat.mul_comm]
  omega

theorem ceil_le_iff : ceil P n ≤ m ↔ n ≤ m * P := by
  constructor
  · intro h
    exact (ceil_mul_ge pos n).trans (Nat.mul_le_mul_right P h)
  · intro h
    have := ceil_mul_lt pos n
    by_contra more
    have := Nat.mul_le_mul_right P (by omega : m + 1 ≤ ceil P n)
    rw [succ_mul] at this
    omega

theorem ceil_mono (h : n ≤ m) : ceil P n ≤ ceil P m :=
  (ceil_le_iff pos).mpr (h.trans (ceil_mul_ge pos m))

theorem ceil_mul (n : Nat) : ceil P (n * P) = n := by
  apply Nat.le_antisymm
  · exact (ceil_le_iff pos).mpr le_rfl
  · exact Nat.le_of_mul_le_mul_right (ceil_mul_ge pos (n * P)) pos

theorem ceil_of_dvd (paged : n % P = 0) : ceil P n * P = n := by
  obtain ⟨m, rfl⟩ := dvd_of_mod_eq_zero paged
  rw [Nat.mul_comm P m, ceil_mul pos]

theorem ceil_of_not_dvd (cut : n % P ≠ 0) : ceil P n = n / P + 1 := by
  have split := div_add_mod n P
  have small := mod_lt n pos
  apply Nat.le_antisymm
  · rw [ceil_le_iff pos, succ_mul, Nat.mul_comm]
    omega
  · by_contra fewer
    have := (ceil_le_iff pos (n := n) (m := n / P)).mp (by omega)
    rw [Nat.mul_comm] at this
    omega

theorem ceil_add_mul (m n : Nat) : ceil P (m * P + n) = m + ceil P n := by
  rw [ceil, ceil, Nat.mul_comm, Nat.add_assoc, Nat.add_sub_assoc (by omega), mul_add_div pos]

theorem ceil_sub_mul (m n : Nat) : ceil P (n - m * P) = ceil P n - m := by
  rcases Nat.le_total (m * P) n with inside | beyond
  · obtain ⟨k, rfl⟩ := Nat.exists_eq_add_of_le inside
    rw [Nat.add_sub_cancel_left, ceil_add_mul pos, Nat.add_sub_cancel_left]
  · have low := (ceil_le_iff pos (n := n) (m := m)).mpr beyond
    have none : ceil P (n - m * P) ≤ 0 := by
      rw [ceil_le_iff pos]
      omega
    omega

theorem mem_piece_of_page {pages : List Nat}
    (full : pages.length = ceil P b) (hq : q ∈ pages.drop (ceil P a)) :
    ∃ x ∈ ((slots P pages).take b).drop a, x / P = q := by
  obtain ⟨k, hk, rfl⟩ := mem_drop_iff_getElem.mp hq
  have enough : b ≤ pages.length * P := full ▸ ceil_mul_ge pos b
  have low := ceil_mul_ge pos a
  have first : (ceil P a + k) * P < b := by
    by_contra beyond
    have := (ceil_le_iff pos (n := b) (m := ceil P a + k)).mpr (by omega)
    omega
  have start : a ≤ (ceil P a + k) * P := low.trans (Nat.mul_le_mul_right P (Nat.le_add_right _ _))
  refine ⟨slotAt P pages ((ceil P a + k) * P), ?_, ?_⟩
  · rw [drop_take_slots pos enough]
    exact mem_map.mpr ⟨(ceil P a + k) * P - a, mem_range.mpr (by omega),
      by rw [Nat.add_sub_cancel' start]⟩
  · rw [slotAt, Nat.mul_div_cancel _ pos, mul_mod_left, Nat.add_zero, Nat.mul_div_cancel _ pos,
      getD_eq_getElem]

end

theorem split_slots (P : Nat) {pages : List Nat} (inside : m ≤ pages.length) :
    slots P pages = slots P (pages.take m) ++ slots P (pages.drop m) ∧
      (slots P (pages.take m)).length = m * P := by
  rw [← slots_append, take_append_drop, length_slots, length_take_of_le inside]
  exact ⟨rfl, rfl⟩

section

variable (P : Nat) (pages : List Nat) (m : Nat)

theorem take_slots : (slots P pages).take (m * P) = slots P (pages.take m) := by
  rcases Nat.le_total m pages.length with inside | beyond
  · obtain ⟨parts, size⟩ := split_slots P inside
    rw [parts]
    exact take_left' size
  · rw [take_of_length_le beyond, take_of_length_le]
    rw [length_slots]
    exact Nat.mul_le_mul_right P beyond

theorem drop_slots : (slots P pages).drop (m * P) = slots P (pages.drop m) := by
  rcases Nat.le_total m pages.length with inside | beyond
  · obtain ⟨parts, size⟩ := split_slots P inside
    rw [parts]
    exact drop_left' size
  · rw [drop_eq_nil_of_le beyond, drop_eq_nil_of_le]
    · rfl
    · rw [length_slots]
      exact Nat.mul_le_mul_right P beyond

end

/-- `v` fills the pages one after the other; the last one need not be full. -/
structure Fills (P : Nat) (v pages : List Nat) : Prop where
  eq_take : v = (slots P pages).take v.length
  count : pages.length = ceil P v.length

def pageList (P : Nat) (v : List Nat) : List Nat :=
  (range (ceil P v.length)).map (fun i => v.getD (i * P) 0 / P)

theorem fills_slots (pos : 0 < P) (pages : List Nat) : Fills P (slots P pages) pages := by
  constructor
  · rw [take_length]
  · rw [length_slots, ceil_mul pos]

theorem fills_nil (pos : 0 < P) : Fills P [] [] := fills_slots pos []

theorem fills_take (pos : 0 < P) {pages : List Nat} (full : pages.length = ceil P n) :
    Fills P ((slots P pages).take n) pages := by
  have size : ((slots P pages).take n).length = n := by
    rw [length_take, length_slots, full]
    exact Nat.min_eq_left (ceil_mul_ge pos n)
  exact ⟨by rw [size], by rw [size, full]⟩

namespace Fills

variable {v w pages more : List Nat}

section

variable (pos : 0 < P) (h : Fills P v pages)
include pos h

theorem le : v.length ≤ pages.length * P :=
  h.count ▸ ceil_mul_ge pos _

theorem getD_eq {i : Nat} (inside : i < v.length) : v.getD i 0 = slotAt P pages i := by
  have := h.le pos
  have there : i < pages.length * P := by omega
  rw [h.eq_take, getD_eq_getElem?_getD, getElem?_take_of_lt inside, slots_eq_map pos,
    getElem?_map, getElem?_range there]
  rfl

theorem pageList_eq : pageList P v = pages := by
  have size : (pageList P v).length = pages.length := by
    rw [pageList, length_map, length_range, h.count]
  apply ext_getElem size
  intro i _ hi
  have first : i * P < v.length := by
    by_contra beyond
    have := (ceil_le_iff pos (n := v.length) (m := i)).mpr (by omega)
    rw [← h.count] at this
    omega
  have page : v.getD (i * P) 0 / P = pages[i] := by
    rw [h.getD_eq pos first, slotAt, Nat.mul_div_cancel _ pos, mul_mod_left, Nat.add_zero,
      Nat.mul_div_cancel _ pos, getD_eq_getElem _ _ hi]
  simpa only [pageList, getElem_map, getElem_range] using page

theorem mem_page (hx : x ∈ v) : x / P ∈ pages := by
  rw [h.eq_take] at hx
  exact (mem_slots pos).mp (mem_of_mem_take hx)

theorem page_mem (hq : q ∈ pages) : ∃ x ∈ v, x / P = q := by
  have zero : ceil P 0 = 0 := by simpa using ceil_mul pos 0
  obtain ⟨x, hx, page⟩ := mem_piece_of_page (a := 0) pos h.count (by rwa [zero, drop_zero])
  rw [drop_zero, ← h.eq_take] at hx
  exact ⟨x, hx, page⟩

theorem whole (paged : P ∣ v.length) : v = slots P pages := by
  obtain ⟨m, hm⟩ := paged
  have count := h.count
  rw [hm, Nat.mul_comm, ceil_mul pos] at count
  rw [h.eq_take, take_of_length_le]
  rw [length_slots, count, hm, Nat.mul_comm]

theorem takeSlots (inside : n ≤ v.length) : Fills P (v.take n) (pages.take (ceil P n)) := by
  have part : v.take n = (slots P (pages.take (ceil P n))).take n := by
    rw [h.eq_take, take_take, Nat.min_eq_left inside, ← take_slots, take_take,
      Nat.min_eq_left (ceil_mul_ge pos n)]
  rw [part]
  apply fills_take pos
  rw [length_take, h.count, Nat.min_eq_left (ceil_mono pos inside)]

theorem take (inside : m * P ≤ v.length) : Fills P (v.take (m * P)) (pages.take m) := by
  have part := h.takeSlots pos inside
  rwa [ceil_mul pos] at part

theorem drop (m : Nat) : Fills P (v.drop (m * P)) (pages.drop m) := by
  have piece : v.drop (m * P) = (slots P (pages.drop m)).take (v.length - m * P) := by
    conv_lhs => rw [h.eq_take, drop_take, drop_slots]
  rw [piece]
  apply fills_take pos
  rw [length_drop, h.count, ceil_sub_mul pos]

theorem append (paged : P ∣ v.length) (h' : Fills P w more) : Fills P (v ++ w) (pages ++ more) := by
  have first := h.whole pos paged
  have whole : v.length = pages.length * P := by rw [first, length_slots]
  constructor
  · rw [length_append, slots_append, ← first, take_length_add_append, ← h'.eq_take]
  · rw [length_append, length_append, h'.count, whole, ceil_add_mul pos]

end

end Fills

theorem pageList_nil (pos : 0 < P) : pageList P [] = [] := (fills_nil pos).pageList_eq pos

def remainder (P : Nat) (v : List Nat) : List Nat :=
  match v.getLast? with
  | some x => range' (x + 1) (P - 1 - x % P)
  | none => []

theorem Fills.append_remainder {v pages : List Nat} (pos : 0 < P) (h : Fills P v pages) :
    v ++ remainder P v = slots P pages := by
  have rest : remainder P v = (slots P pages).drop v.length := by
    rcases Nat.eq_zero_or_pos v.length with none | nonempty
    · rw [length_eq_zero_iff.mp none] at h ⊢
      have empty : pages = [] := by
        rw [← h.pageList_eq pos, pageList_nil pos]
      rw [empty]
      rfl
    · -- All positions from the last one on lie in the last page.
      have high := h.le pos
      have low := ceil_mul_lt pos v.length
      rw [← h.count] at low
      obtain ⟨c, hc⟩ : ∃ c, pages.length = c + 1 := exists_eq_succ_of_ne_zero (by
        rintro zero
        rw [zero] at high
        omega)
      rw [hc, Nat.add_mul, Nat.one_mul] at high low
      have here : ∀ j, v.length ≤ j + 1 → j < c * P + P →
          slotAt P pages j = pages.getD c 0 * P + (j - c * P) := by
        intro j above below
        exact slotAt_of_bounds (by omega) (by rw [Nat.add_mul, Nat.one_mul]; exact below)
      have last : v.getLast? = some (pages.getD c 0 * P + (v.length - 1 - c * P)) := by
        rw [← here (v.length - 1) (by omega) (by omega), ← h.getD_eq pos (by omega),
          getLast?_eq_getElem?, getD_eq_getElem?_getD, getElem?_eq_getElem (by omega)]
        rfl
      have offset : (pages.getD c 0 * P + (v.length - 1 - c * P)) % P = v.length - 1 - c * P := by
        rw [Nat.mul_comm, mul_add_mod, mod_eq_of_lt (by omega)]
      have whole : slots P pages = (slots P pages).take (c * P + P) := by
        rw [take_of_length_le]
        rw [length_slots, hc, Nat.add_mul, Nat.one_mul]
      rw [whole, drop_take_slots pos (by rw [hc, Nat.add_mul, Nat.one_mul]), remainder, last]
      dsimp only
      rw [offset, range'_eq_map_range]
      have count : P - 1 - (v.length - 1 - c * P) = c * P + P - v.length := by omega
      rw [count]
      refine map_congr_left fun i hi => ?_
      rw [here (v.length + i) (by omega) (by have := mem_range.mp hi; omega)]
      omega
  rw [rest]
  conv_lhs => lhs; rw [h.eq_take]
  exact take_append_drop _ _

end Pages
