import RedKnot.MemCache.Allocator.Model

/-! What the allocation kernels write. The slots of a request fill its pages one after the other. -/

namespace RedKnot.Allocator

open Nat (add_assoc mod_eq_of_lt mod_lt mul_add_mod mul_div_cancel sub_mul)
open Pages Function List

variable {P : Nat}

def taken (freePages : List Nat) (start count : Nat) : List Nat := (freePages.drop start).take count

variable {freePages : List Nat}

theorem getD_taken {start count i : Nat} (h : i < count) :
    (taken freePages start count).getD i 0 = freePages.getD (start + i) 0 := by
  rw [taken, getD_eq_getElem?_getD, getElem?_take_of_lt h, getElem?_drop, ← getD_eq_getElem?_getD]

theorem length_taken {start count : Nat}
    (enough : start + count ≤ freePages.length) : (taken freePages start count).length = count := by
  rw [taken, length_take, length_drop]
  omega

structure ExtendReq.Owns (P : Nat) (r : ExtendReq) (pages : List Nat) : Prop where
  grows : r.prefixLen ≤ r.seqLen
  count : pages.length = ceil P r.prefixLen
  last : r.prefixLen % P ≠ 0 → r.lastLoc = slotAt P pages (r.prefixLen - 1)

namespace ExtendReq.Owns

variable {r : ExtendReq} {pages : List Nat}

theorem slotAt_rest (pos : 0 < P) (owns : r.Owns P pages) (new : List Nat) {o : Nat}
    (inside : r.prefixLen + o < ceil P r.prefixLen * P) :
    slotAt P (pages ++ new) (r.prefixLen + o) = (r.lastLoc + 1 + (o : Int)).toNat := by
  have cut : r.prefixLen % P ≠ 0 := by
    intro paged
    have := ceil_of_dvd pos paged
    omega
  have low : r.prefixLen / P * P < r.prefixLen := by
    have := Nat.div_add_mod r.prefixLen P
    rw [Nat.mul_comm] at this
    omega
  have count := owns.count
  rw [ceil_of_not_dvd pos cut] at inside count
  have here : (r.prefixLen + o) / P = r.prefixLen / P :=
    Nat.div_eq_of_lt_le (by omega) (by omega)
  rw [owns.last cut, slotAt_append_left (by omega),
    slotAt_of_bounds (q := r.prefixLen / P) (by omega) (by omega),
    slotAt_of_bounds (q := r.prefixLen / P) (by omega) (by omega)]
  omega

theorem slotAt_new (pos : 0 < P) (owns : r.Owns P pages) (freePages : List Nat) (start : Nat)
    {count j : Nat} (inside : j / P < count) :
    slotAt P (pages ++ taken freePages start count) (ceil P r.prefixLen * P + j) =
      freePages.getD (start + j / P) 0 * P + j % P := by
  rw [← owns.count, slotAt_append_right pos, slotAt, getD_taken inside]

end ExtendReq.Owns

theorem map_range_append {α : Type} (g : Nat → α) {p q n m : Nat} (next : p + n = q) :
    (range n).map (fun o => g (p + o)) ++ (range m).map (fun o => g (q + o)) =
      (range (n + m)).map (fun o => g (p + o)) := by
  subst next
  simp [range_add, comp_def, add_assoc]

theorem extendOne_eq (pos : 0 < P) {r : ExtendReq} {pages : List Nat} {start : Nat}
    (owns : r.Owns P pages) (enough : start + r.newPages P ≤ freePages.length) :
    extendOne P freePages start r =
      ((slots P (pages ++ taken freePages start (r.newPages P))).take r.seqLen).drop r.prefixLen := by
  have more := ceil_mono pos owns.grows
  have above := ceil_mul_ge pos r.prefixLen
  have grows := owns.grows
  have span : r.seqLen / P * P ≤ r.seqLen := Nat.div_mul_le_self _ _
  have hnew : r.newPages P = ceil P r.seqLen - ceil P r.prefixLen := rfl
  have room : r.seqLen ≤ (pages ++ taken freePages start (r.newPages P)).length * P := by
    rw [length_append, owns.count, length_taken enough, hnew, Nat.add_sub_cancel' more]
    exact ceil_mul_ge pos _
  have old : ∀ n, r.prefixLen + n ≤ ceil P r.prefixLen * P →
      (range n).map (fun o : Nat => (r.lastLoc + 1 + (o : Int)).toNat) = (range n).map (fun o =>
        slotAt P (pages ++ taken freePages start (r.newPages P)) (r.prefixLen + o)) := by
    refine fun n inside => map_congr_left fun o ho => (owns.slotAt_rest pos _ ?_).symm
    rw [mem_range] at ho
    omega
  rw [drop_take_slots pos room]
  unfold extendOne
  dsimp only
  rw [old _ (by omega)]
  split
  · next done =>
    congr 2
    omega
  · next beyond =>
    -- The prefix ends in a page that the request fills; what follows is in new pages.
    have hlen : min r.seqLen (ceil P r.prefixLen * P) - r.prefixLen =
        ceil P r.prefixLen * P - r.prefixLen := by omega
    rw [hlen] at beyond ⊢
    have full : ceil P r.prefixLen ≤ r.seqLen / P := (Nat.le_div_iff_mul_le pos).mpr (by omega)
    have fullMul := Nat.mul_le_mul_right P full
    have whole : (range (r.seqLen / P * P - ceil P r.prefixLen * P)).map
        (fun o => freePages.getD (start + o / P) 0 * P + o % P) =
        (range (r.seqLen / P * P - ceil P r.prefixLen * P)).map
          (fun o => slotAt P (pages ++ taken freePages start (r.newPages P))
            (ceil P r.prefixLen * P + o)) := by
      refine map_congr_left fun o ho => (owns.slotAt_new pos _ _ ?_).symm
      rw [mem_range] at ho
      rw [Nat.div_lt_iff_lt_mul pos, hnew, sub_mul]
      have := ceil_mul_ge pos r.seqLen
      omega
    rw [whole, map_range_append _ (Nat.add_sub_cancel' above)]
    split
    · next done =>
      congr 2
      omega
    · next left =>
      have cut : r.seqLen % P ≠ 0 := by
        intro paged
        have := Nat.div_mul_cancel (Nat.dvd_of_mod_eq_zero paged)
        omega
      have last : (range (r.seqLen - r.seqLen / P * P)).map
          (freePages.getD (start + r.newPages P - 1) 0 * P + ·) =
          (range (r.seqLen - r.seqLen / P * P)).map
            (fun o => slotAt P (pages ++ taken freePages start (r.newPages P))
              (r.seqLen / P * P + o)) := by
        refine map_congr_left fun o ho => ?_
        rw [mem_range] at ho
        have small : o < P := by
          have := Nat.lt_div_mul_add pos (a := r.seqLen)
          omega
        have hpage : (r.seqLen / P * P - ceil P r.prefixLen * P + o) / P = r.newPages P - 1 := by
          rw [← sub_mul, Nat.mul_comm, Nat.mul_add_div pos, Nat.div_eq_of_lt small, hnew,
            ceil_of_not_dvd pos cut]
          omega
        have hmod : (r.seqLen / P * P - ceil P r.prefixLen * P + o) % P = o := by
          rw [← sub_mul, Nat.mul_add_mod_self_right, mod_eq_of_lt small]
        have some : 0 < r.newPages P := by
          rw [hnew, ceil_of_not_dvd pos cut]
          omega
        have hpos : r.seqLen / P * P + o =
            ceil P r.prefixLen * P + (r.seqLen / P * P - ceil P r.prefixLen * P + o) := by omega
        rw [hpos, owns.slotAt_new pos _ _ (by omega), hpage, hmod, Nat.add_sub_assoc some]
      rw [last, map_range_append _ (by omega)]
      congr 2
      omega

structure Takes (P : Nat) (allocated new : List Nat) (out : List Slot) : Prop where
  sound : ∀ x ∈ out, x / P ∈ new ∨ x / P ∈ allocated
  complete : ∀ q ∈ new, ∃ x ∈ out, x / P = q

namespace Takes

variable {allocated : List Nat}

theorem append {new new' : List Nat} {out out' : List Slot} (h : Takes P allocated new out)
    (h' : Takes P allocated new' out') : Takes P allocated (new ++ new') (out ++ out') where
  sound x hx := by
    simp only [mem_append] at hx ⊢
    rcases hx with hx | hx
    · exact (h.sound x hx).imp_left .inl
    · exact (h'.sound x hx).imp_left .inr
  complete q hq := by
    simp only [mem_append] at hq ⊢
    rcases hq with hq | hq
    · obtain ⟨x, hx, page⟩ := h.complete q hq
      exact ⟨x, .inl hx, page⟩
    · obtain ⟨x, hx, page⟩ := h'.complete q hq
      exact ⟨x, .inr hx, page⟩

theorem nil : Takes P allocated [] [] := ⟨by simp, by simp⟩

theorem slots (pos : 0 < P) (new : List Nat) : Takes P allocated new (slots P new) where
  sound _ hx := .inl ((mem_slots pos).mp hx)
  complete q hq := ⟨q * P, (mem_slots pos).mpr (by rwa [mul_div_cancel q pos]), mul_div_cancel q pos⟩

end Takes

theorem taken_add (freePages : List Nat) (start a b : Nat) :
    taken freePages start (a + b) = taken freePages start a ++ taken freePages (start + a) b := by
  rw [taken, taken, taken, take_add, drop_drop]

/-- What the caller promises about a request: its last slot is in an allocated page, at the
offset that its length gives. -/
structure ExtendReq.Continues (P : Nat) (allocated : List Nat) (r : ExtendReq) : Prop where
  grows : r.prefixLen ≤ r.seqLen
  known : r.prefixLen % P ≠ 0 → 0 ≤ r.lastLoc ∧ r.lastLoc.toNat / P ∈ allocated
  offset : r.prefixLen % P ≠ 0 → (r.lastLoc.toNat + 1) % P = r.prefixLen % P

theorem getNumNewPages_cons (r : ExtendReq) (rs : List ExtendReq) :
    getNumNewPages P (r :: rs) = r.newPages P + getNumNewPages P rs := by
  simp [getNumNewPages]

/-- The last pages of the requests that go on in them. -/
def lastPages (P : Nat) (reqs : List ExtendReq) : List Nat :=
  (reqs.filter (fun r => r.prefixLen % P ≠ 0)).map (fun r => r.lastLoc.toNat / P)

section

variable (pos : 0 < P) {allocated : List Nat}
include pos

theorem ExtendReq.Continues.owns {r : ExtendReq} (h : r.Continues P allocated) :
    r.Owns P (replicate (ceil P r.prefixLen) (r.lastLoc.toNat / P)) where
  grows := h.grows
  count := length_replicate
  last cut := by
    have offset := h.offset cut
    have split := Nat.div_add_mod r.prefixLen P
    have size := mod_lt r.prefixLen pos
    have before : (r.prefixLen - 1) / P = r.prefixLen / P ∧
        (r.prefixLen - 1) % P = r.prefixLen % P - 1 := by
      have inside : r.prefixLen % P - 1 < P := by omega
      rw [show r.prefixLen - 1 = P * (r.prefixLen / P) + (r.prefixLen % P - 1) by omega,
        Nat.mul_add_div pos, mul_add_mod, Nat.div_eq_of_lt inside, mod_eq_of_lt inside]
      exact ⟨rfl, rfl⟩
    have lastOffset : r.lastLoc.toNat % P = r.prefixLen % P - 1 := by
      have hsmall := mod_lt r.lastLoc.toNat pos
      rw [Nat.add_mod] at offset
      rcases Nat.lt_or_ge (r.lastLoc.toNat % P + 1) P with fits | wraps
      · have one : 1 % P = 1 := mod_eq_of_lt (by omega)
        rw [one, mod_eq_of_lt fits] at offset
        omega
      · have : (r.lastLoc.toNat % P + 1 % P) % P = 0 := by
          rw [Nat.add_mod_mod, show r.lastLoc.toNat % P + 1 = P by omega, Nat.mod_self]
        omega
    have index : r.prefixLen / P < (replicate (ceil P r.prefixLen) (r.lastLoc.toNat / P)).length := by
      rw [length_replicate, ceil_of_not_dvd pos cut]
      omega
    rw [slotAt, before.1, before.2, ← lastOffset, getD_eq_getElem _ _ index,
      getElem_replicate, Nat.div_add_mod']
    exact (Int.toNat_of_nonneg (h.known cut).1).symm

section

variable {start : Nat} {r : ExtendReq} (h : r.Continues P allocated)
  (enough : start + r.newPages P ≤ freePages.length)
include h enough

theorem extendOne_subperm :
    (extendOne P freePages start r).Subperm
      (slots P (lastPages P [r] ++ taken freePages start (r.newPages P))) := by
  have pages : (replicate (ceil P r.prefixLen) (r.lastLoc.toNat / P) ++
      taken freePages start (r.newPages P)).drop (r.prefixLen / P) =
      lastPages P [r] ++ taken freePages start (r.newPages P) := by
    by_cases paged : r.prefixLen % P = 0
    · have whole : r.prefixLen / P = ceil P r.prefixLen := by
        rw [Nat.div_eq_iff_eq_mul_left pos (Nat.dvd_of_mod_eq_zero paged), ceil_of_dvd pos paged]
      rw [whole, drop_left' length_replicate]
      simp [lastPages, paged]
    · rw [ceil_of_not_dvd pos paged, drop_append_of_le_length (by simp), drop_replicate,
        Nat.add_sub_cancel_left]
      simp [lastPages, paged]
  rw [extendOne_eq pos (h.owns pos) enough, ← pages, ← drop_slots]
  exact (((take_sublist _ _).drop _).trans
    (drop_sublist_drop_left _ (Nat.div_mul_le_self _ _))).subperm

theorem takes_extendOne :
    Takes P allocated (taken freePages start (r.newPages P)) (extendOne P freePages start r) := by
  constructor
  · intro x hx
    have page := (mem_slots pos).mp ((extendOne_subperm pos h enough).subset hx)
    refine (mem_append.mp page).symm.imp_right fun last => ?_
    obtain ⟨cut, own⟩ : r.prefixLen % P ≠ 0 ∧ r.lastLoc.toNat / P = x / P := by
      simpa [lastPages, filter_cons] using last
    exact own ▸ (h.known cut).2
  · intro q hq
    have total : (replicate (ceil P r.prefixLen) (r.lastLoc.toNat / P) ++
        taken freePages start (r.newPages P)).length = ceil P r.seqLen := by
      have := ceil_mono pos h.grows
      rw [length_append, length_replicate, length_taken enough, ExtendReq.newPages]
      omega
    rw [extendOne_eq pos (h.owns pos) enough]
    refine mem_piece_of_page pos total ?_
    rwa [drop_left' length_replicate]

end

section

variable {reqs : List ExtendReq} {start : Nat} (h : ∀ r ∈ reqs, r.Continues P allocated)
  (enough : start + getNumNewPages P reqs ≤ freePages.length)
include h enough

theorem takes_allocExtendKernel :
    Takes P allocated (taken freePages start (getNumNewPages P reqs))
      (allocExtendKernel P freePages start reqs) := by
  induction reqs generalizing start with
  | nil => simpa [getNumNewPages, taken, allocExtendKernel] using Takes.nil
  | cons r rs ih =>
    rw [getNumNewPages_cons] at enough ⊢
    rw [taken_add, allocExtendKernel]
    apply Takes.append
    · exact takes_extendOne pos (h r mem_cons_self) (by omega)
    · exact ih (fun r' h' => h r' (mem_cons_of_mem _ h')) (by omega)

end

end

def DecodeReq.asExtend (r : DecodeReq) : ExtendReq := ⟨r.seqLen - 1, r.seqLen, r.lastLoc⟩

structure DecodeReq.Continues (P : Nat) (allocated : List Nat) (r : DecodeReq) : Prop where
  nonempty : 1 ≤ r.seqLen
  known : r.seqLen % P ≠ 1 → 0 ≤ r.lastLoc ∧ r.lastLoc.toNat / P ∈ allocated
  offset : r.seqLen % P ≠ 1 → (r.lastLoc.toNat + 2) % P = r.seqLen % P

theorem succ_mod_eq_one (big : 2 ≤ P) (n : Nat) : (n + 1) % P = 1 ↔ n % P = 0 := by
  have size := mod_lt n (show 0 < P by omega)
  rw [Nat.add_mod, mod_eq_of_lt (show 1 < P by omega)]
  by_cases last : n % P + 1 = P
  · rw [last, Nat.mod_self]
    omega
  · rw [mod_eq_of_lt (by omega)]
    omega

theorem DecodeReq.newPages_eq (big : 2 ≤ P) {r : DecodeReq} (nonempty : 1 ≤ r.seqLen) :
    r.newPages P = if r.seqLen % P = 1 then 1 else 0 := by
  have pos : 0 < P := by omega
  obtain ⟨n, hn⟩ : ∃ n, r.seqLen = n + 1 := ⟨r.seqLen - 1, by omega⟩
  rw [DecodeReq.newPages, hn, Nat.add_sub_cancel]
  have hmod := succ_mod_eq_one big n
  have next : ceil P (n + 1) = n / P + 1 := by
    rw [ceil, show n + 1 + P - 1 = n + P by omega, Nat.add_div_right _ pos]
  rw [next]
  split
  · next h =>
    have here : ceil P n = n / P := by
      rw [eq_comm, Nat.div_eq_iff_eq_mul_left pos (Nat.dvd_of_mod_eq_zero (hmod.mp h)),
        ceil_of_dvd pos (hmod.mp h)]
    omega
  · next h =>
    rw [ceil_of_not_dvd pos (mt hmod.mpr h), Nat.sub_self]

theorem getNumNewPagesDecode_cons (P : Nat) (r : DecodeReq) (rs : List DecodeReq) :
    getNumNewPagesDecode P (r :: rs) =
      (if r.seqLen % P = 1 then 1 else 0) + getNumNewPagesDecode P rs := by
  unfold getNumNewPagesDecode
  by_cases h : r.seqLen % P = 1 <;> simp [h, Nat.add_comm]

theorem getNumNewPagesDecode_eq (big : 2 ≤ P) {reqs : List DecodeReq}
    (nonempty : ∀ r ∈ reqs, 1 ≤ r.seqLen) :
    getNumNewPagesDecode P reqs = getNumNewPages P (reqs.map DecodeReq.asExtend) := by
  induction reqs with
  | nil => rfl
  | cons r rs ih =>
    rw [getNumNewPagesDecode_cons, map_cons, getNumNewPages_cons,
      ← r.newPages_eq big (nonempty r mem_cons_self),
      ih fun r' h' => nonempty r' (mem_cons_of_mem _ h')]
    rfl

theorem DecodeReq.Continues.asExtend (big : 2 ≤ P) {allocated : List Nat} {r : DecodeReq}
    (h : r.Continues P allocated) : r.asExtend.Continues P allocated := by
  have turn := succ_mod_eq_one big (r.seqLen - 1)
  rw [Nat.sub_add_cancel h.nonempty] at turn
  refine ⟨Nat.sub_le _ _, fun cut => h.known (mt turn.mp cut), fun cut => ?_⟩
  refine Nat.ModEq.add_right_cancel' 1 ?_
  show (r.lastLoc.toNat + 2) % P = (r.seqLen - 1 + 1) % P
  rw [Nat.sub_add_cancel h.nonempty, h.offset (mt turn.mp cut)]

theorem extendOne_asExtend (big : 2 ≤ P) {r : DecodeReq} (nonempty : 1 ≤ r.seqLen) (start : Nat) :
    extendOne P freePages start r.asExtend =
      [if r.newPages P = 0 then (r.lastLoc + 1).toNat else freePages.getD start 0 * P] := by
  have pos : 0 < P := by omega
  have above := ceil_mul_ge pos (r.seqLen - 1)
  have new := r.newPages_eq big nonempty
  have turn := succ_mod_eq_one big (r.seqLen - 1)
  rw [Nat.sub_add_cancel nonempty] at turn
  unfold extendOne
  simp only [DecodeReq.asExtend]
  by_cases first : r.seqLen % P = 1
  · -- The page before is full, and the token is the first one of a new page.
    have full := ceil_of_dvd pos (turn.mp first)
    have split := Nat.div_add_mod' r.seqLen P
    rw [if_pos first] at new
    have page : r.seqLen / P * P = r.seqLen - 1 := by omega
    have one : r.seqLen - (r.seqLen - 1) = 1 := by omega
    have more : r.seqLen - 1 ≠ r.seqLen := by omega
    have start_page : ExtendReq.newPages P ⟨r.seqLen - 1, r.seqLen, r.lastLoc⟩ = 1 := new
    simp [full, page, one, more, start_page, new]
  · have cut : (r.seqLen - 1) % P ≠ 0 := mt turn.mpr first
    have inside : r.seqLen - 1 < ceil P (r.seqLen - 1) * P := by
      refine lt_of_le_of_ne above fun same => cut ?_
      rw [same, Nat.mul_mod_left]
    rw [if_neg first] at new
    have one : min r.seqLen (ceil P (r.seqLen - 1) * P) - (r.seqLen - 1) = 1 := by omega
    simp [one, Nat.sub_add_cancel nonempty, new]

theorem allocDecodeKernel_eq (big : 2 ≤ P) {reqs : List DecodeReq}
    (nonempty : ∀ r ∈ reqs, 1 ≤ r.seqLen) (start : Nat) :
    allocDecodeKernel P freePages start reqs =
      allocExtendKernel P freePages start (reqs.map DecodeReq.asExtend) := by
  induction reqs generalizing start with
  | nil => rfl
  | cons r rs ih =>
    rw [map_cons, allocExtendKernel, extendOne_asExtend big (nonempty r mem_cons_self),
      allocDecodeKernel, ih fun r' h' => nonempty r' (mem_cons_of_mem _ h')]
    rfl

theorem continues_map_asExtend (big : 2 ≤ P) {allocated : List Nat} {reqs : List DecodeReq}
    (h : ∀ r ∈ reqs, r.Continues P allocated) :
    ∀ r ∈ reqs.map DecodeReq.asExtend, r.Continues P allocated := by
  intro r hr
  obtain ⟨r, member, rfl⟩ := mem_map.mp hr
  exact (h r member).asExtend big

end RedKnot.Allocator
