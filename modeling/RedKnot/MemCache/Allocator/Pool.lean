import RedKnot.MemCache.Allocator.Conservation

/-! The allocator as the scheduler uses it for one request. The row of a request fills pages. -/

namespace RedKnot.Allocator

open Pages List ExtendReq

def lastLoc (row : List Slot) : Int :=
  match row.getLast? with
  | some x => x
  | none => -1

namespace PagedAllocator

def newPool (size pageSize : Nat) (needSort : Bool) : PagedAllocator :=
  let a : PagedAllocator := { size, pageSize, needSort }
  if pageSize = 1 then TokenAllocator.clear a else a.clear

/-- The allocation of `alloc_for_extend`, for a batch of one request. -/
def allocForExtend (a : PagedAllocator) (prefixIndices : List Slot) (extendLen : Nat) :
    Option (List Slot) × PagedAllocator :=
  if a.pageSize = 1 then TokenAllocator.alloc a extendLen
  else
    a.allocExtend
      [⟨prefixIndices.length, prefixIndices.length + extendLen, lastLoc prefixIndices⟩] extendLen none

/-- The allocation of `alloc_for_decode`, for a batch of one request. -/
def allocForDecode (a : PagedAllocator) (row : List Slot) : Option (List Slot) × PagedAllocator :=
  if a.pageSize = 1 then TokenAllocator.alloc a 1
  else a.allocDecode [⟨row.length + 1, lastLoc row⟩]

def freeSlots (a : PagedAllocator) (freeIndex : List Slot) : PagedAllocator :=
  if a.pageSize = 1 then TokenAllocator.free a freeIndex else a.free freeIndex

variable {a : PagedAllocator} {allocated : List Nat}

section

variable (size pageSize : Nat) (needSort : Bool)

theorem conserves_newPool : Conserves (newPool size pageSize needSort) [] := by
  unfold newPool
  split
  · next one =>
    refine ⟨?_, fun _ => rfl⟩
    simp [TokenAllocator.clear, pendingPages, numPages, one]
  · exact conserves_clear _

theorem newPool_config :
    (newPool size pageSize needSort).size = size ∧ (newPool size pageSize needSort).pageSize = pageSize ∧
      (newPool size pageSize needSort).isNotInFreeGroup = true := by
  unfold newPool
  split <;> exact ⟨rfl, rfl, rfl⟩

end

structure SameConfig (a b : PagedAllocator) : Prop where
  size : b.size = a.size
  pageSize : b.pageSize = a.pageSize
  group : b.isNotInFreeGroup = a.isNotInFreeGroup

section

variable {row : List Slot} {pages : List Nat}

section

variable (merge : Prop) [Decidable merge] (count : Nat → Nat) (out : Nat → List Nat → List Slot)

theorem serve_cases (h : Conserves a allocated) :
    ∃ b, SameConfig a b ∧ ((a.serve merge count out = (none, b) ∧ Conserves b allocated) ∨
      ∃ freePages, count a.pageSize ≤ freePages.length ∧
        a.serve merge count out = (some (out a.pageSize freePages), b) ∧
        Conserves b (freePages.take (count a.pageSize) ++ allocated)) := by
  have config := serve_config a merge count out
  refine ⟨(a.serve merge count out).2, ⟨config.1, config.2.1, config.2.2⟩, ?_⟩
  rw [← mergeIf_pageSize a merge]
  unfold serve
  dsimp only
  split
  · exact .inl ⟨rfl, h.mergeIf⟩
  · next many => exact .inr ⟨_, Nat.le_of_not_gt many, rfl, h.mergeIf.take_front _⟩

end

theorem fills_one (v : List Nat) : Fills 1 v v := by
  have same : slots 1 v = v := by simp [slots]
  exact ⟨by rw [same, List.take_length], by simp [ceil]⟩

theorem lastLoc_eq {P : Nat} (pos : 0 < P) (fills : Fills P row pages) (nonempty : row ≠ []) :
    lastLoc row = slotAt P pages (row.length - 1) := by
  have inside : row.length - 1 < row.length := by
    have := length_pos_of_ne_nil nonempty
    omega
  rw [← fills.getD_eq pos inside, lastLoc, getLast?_eq_getElem?, getD_eq_getElem?_getD,
    getElem?_eq_getElem inside]
  rfl

theorem fills_extendOne {P start : Nat} (pos : 0 < P) (fills : Fills P row pages) (n : Nat)
    {freePages : List Nat} {r : ExtendReq} (hr : r = ⟨row.length, row.length + n, lastLoc row⟩)
    (enough : start + r.newPages P ≤ freePages.length) :
    (extendOne P freePages start r).length = n ∧
      Fills P (row ++ extendOne P freePages start r) (pages ++ taken freePages start (r.newPages P)) := by
  have owns : r.Owns P pages := by
    rw [hr]
    refine ⟨Nat.le_add_right _ _, fills.count, fun cut => lastLoc_eq pos fills ?_⟩
    rintro rfl
    exact cut (Nat.zero_mod P)
  have piece := extendOne_eq pos owns enough
  have more : ceil P row.length ≤ ceil P (row.length + n) := ceil_mono pos (Nat.le_add_right _ _)
  have total : (pages ++ taken freePages start (r.newPages P)).length = ceil P (row.length + n) := by
    rw [length_append, length_taken enough, fills.count, newPages, hr]
    exact Nat.add_sub_cancel' more
  have both : row ++ extendOne P freePages start r =
      (slots P (pages ++ taken freePages start (r.newPages P))).take (row.length + n) := by
    have first : row = ((slots P (pages ++ taken freePages start (r.newPages P))).take
        (row.length + n)).take row.length := by
      rw [take_take, min_eq_left (Nat.le_add_right _ _), slots_append,
        take_append_of_le_length (by rw [length_slots]; exact fills.le pos)]
      exact fills.eq_take
    rw [piece, hr]
    conv_lhs => lhs; rw [first, hr]
    exact take_append_drop _ _
  refine ⟨?_, by rw [both]; exact fills_take pos total⟩
  have size := congrArg length both
  rw [length_append, length_take, length_slots, total, min_eq_left (ceil_mul_ge pos _)] at size
  omega

theorem taken_zero (freePages : List Nat) (n : Nat) : taken freePages 0 n = freePages.take n := by
  rw [taken, drop_zero]

end

theorem freeSlots_config (a : PagedAllocator) (idx : List Slot) : SameConfig a (a.freeSlots idx) := by
  unfold freeSlots
  split
  · unfold TokenAllocator.free
    split
    · exact ⟨rfl, rfl, rfl⟩
    · split
      · split <;> exact ⟨rfl, rfl, rfl⟩
      · exact ⟨rfl, rfl, rfl⟩
  · have config := free_config a idx
    exact ⟨config.1, config.2.1, config.2.2⟩

theorem Conserves.freeSlots (pos : 0 < a.pageSize) (outside : a.isNotInFreeGroup = true)
    {given rest : List Nat} {idx : List Slot} (h : Conserves a (given ++ rest))
    (fills : Fills a.pageSize idx given) : Conserves (a.freeSlots idx) rest := by
  have distinct : (given ++ rest).Nodup := (nodup_append.mp h.nodup).2.1
  unfold PagedAllocator.freeSlots
  split
  · next one =>
    have whole : idx = given := by
      have := (one ▸ fills).whole one_pos (one_dvd _)
      rw [this]
      simp [slots]
    subst whole
    have counts := perm_iff_count.mp h.partition
    unfold TokenAllocator.free
    split
    · next empty =>
      rw [length_eq_zero_iff.mp empty] at h
      exact h
    · split
      · next sorted =>
        refine ⟨perm_iff_count.mpr fun q => ?_, fun eager => ?_⟩
        · have := counts q
          simp only [pendingPages, outside, if_true, numPages, count_append] at this ⊢
          omega
        · cases sorted.symm.trans eager
      · refine ⟨perm_iff_count.mpr fun q => ?_, h.eager⟩
        have := counts q
        simp only [pendingPages, outside, if_true, numPages, count_append] at this ⊢
        omega
  · have same : (pagesOf a.pageSize idx).Perm given := by
      rw [perm_ext_iff_of_nodup (nodup_pagesOf _ _) (nodup_append.mp distinct).1]
      intro q
      rw [mem_pagesOf]
      constructor
      · rintro ⟨x, hx, rfl⟩
        exact fills.mem_page pos hx
      · exact fills.page_mem pos
    have held : Conserves a (pagesOf a.pageSize idx ++ rest) := h.perm (same.symm.append_right rest)
    have freed := held.free fun x hx => mem_append_left rest (mem_pagesOf.mpr ⟨x, hx, rfl⟩)
    rwa [withdraw_append (nodup_append.mp held.nodup).2.1] at freed

theorem SameConfig.trans {b c : PagedAllocator} (h : SameConfig a b) (h' : SameConfig b c) :
    SameConfig a c :=
  ⟨h'.size.trans h.size, h'.pageSize.trans h.pageSize, h'.group.trans h.group⟩

theorem freeAll_config (vs : List (List Slot)) (a : PagedAllocator) :
    SameConfig a (vs.foldl PagedAllocator.freeSlots a) := by
  induction vs generalizing a with
  | nil => exact ⟨rfl, rfl, rfl⟩
  | cons v vs ih => exact (freeSlots_config a v).trans (ih _)

theorem Conserves.freeAll {P : Nat} (pos : 0 < P) {vs : List (List Slot)} {gs : List (List Nat)}
    {rest : List Nat} (fills : Forall₂ (Fills P) vs gs) (page : a.pageSize = P)
    (outside : a.isNotInFreeGroup = true) (h : Conserves a (gs.flatten ++ rest)) :
    Conserves (vs.foldl PagedAllocator.freeSlots a) rest := by
  induction fills generalizing a with
  | nil => exact h
  | @cons v g vs gs first _ ih =>
    rw [flatten_cons, append_assoc] at h
    have config := freeSlots_config a v
    exact ih (config.pageSize.trans page) (config.group.trans outside)
      (h.freeSlots (page ▸ pos) outside (page ▸ first))

end PagedAllocator

end RedKnot.Allocator
