import RedKnot.MemCache.Allocator.Pool

/-! Allocations for a batch: each request gets slots that continue its row. -/

namespace RedKnot.Allocator

open Pages PagedAllocator List

variable {P : Nat}

/-- The slots `out` continue the rows of a batch, in pages of `new`. A request is given by its row,
the pages that the row fills, and the number of slots that it wants. -/
inductive Continues (P : Nat) : List (List Slot × List Nat × Nat) → List Slot → List Nat → Prop
  | nil : Continues P [] [] []
  | cons {row out rest : List Slot} {pages new more : List Nat} {n : Nat}
      {batch : List (List Slot × List Nat × Nat)} (size : out.length = n)
      (fills : Fills P (row ++ out) (pages ++ new)) (others : Continues P batch rest more) :
      Continues P ((row, pages, n) :: batch) (out ++ rest) (new ++ more)

def Rows (P : Nat) (batch : List (List Slot × List Nat × Nat)) : Prop :=
  ∀ b ∈ batch, Fills P b.1 b.2.1

def extendReq (b : List Slot × List Nat × Nat) : ExtendReq := ⟨b.1.length, b.1.length + b.2.2, lastLoc b.1⟩

def decodeReq (b : List Slot × List Nat × Nat) : DecodeReq := ⟨b.1.length + 1, lastLoc b.1⟩

variable {batch : List (List Slot × List Nat × Nat)} {freePages : List Nat} {start : Nat}

theorem continues_extend (pos : 0 < P) (rows : Rows P batch)
    (enough : start + getNumNewPages P (batch.map extendReq) ≤ freePages.length) :
    Continues P batch (allocExtendKernel P freePages start (batch.map extendReq))
      (taken freePages start (getNumNewPages P (batch.map extendReq))) := by
  induction batch generalizing start with
  | nil =>
    have none_taken : taken freePages start 0 = [] := take_zero
    exact none_taken ▸ .nil
  | cons b batch ih =>
    obtain ⟨row, pages, n⟩ := b
    obtain ⟨here, later⟩ := forall_mem_cons.mp rows
    simp only [map_cons, getNumNewPages, sum_cons] at enough ⊢
    have first : start + (extendReq (row, pages, n)).newPages P ≤ freePages.length := by omega
    obtain ⟨size, fills⟩ := fills_extendOne pos here n rfl first
    rw [allocExtendKernel, taken_add]
    exact .cons size fills (ih later (by rw [getNumNewPages]; omega))

theorem continues_decode (big : 2 ≤ P) (rows : Rows P batch) (single : ∀ b ∈ batch, b.2.2 = 1)
    (enough : start + getNumNewPagesDecode P (batch.map decodeReq) ≤ freePages.length) :
    Continues P batch (allocDecodeKernel P freePages start (batch.map decodeReq))
      (taken freePages start (getNumNewPagesDecode P (batch.map decodeReq))) := by
  have nonempty : ∀ r ∈ batch.map decodeReq, 1 ≤ r.seqLen := by
    intro r hr
    obtain ⟨b, -, rfl⟩ := mem_map.mp hr
    exact Nat.succ_pos _
  have same : (batch.map decodeReq).map DecodeReq.asExtend = batch.map extendReq := by
    rw [map_map]
    refine map_congr_left fun b hb => ?_
    simp [decodeReq, extendReq, DecodeReq.asExtend, single b hb]
  rw [getNumNewPagesDecode_eq big nonempty, same] at enough ⊢
  rw [allocDecodeKernel_eq big nonempty, same]
  exact continues_extend (by omega) rows enough

theorem continues_token (rows : Rows 1 batch) {out : List Slot}
    (size : out.length = (batch.map fun b => b.2.2).sum) : Continues 1 batch out out := by
  induction batch generalizing out with
  | nil =>
    obtain rfl := length_eq_zero_iff.mp size
    exact .nil
  | cons b batch ih =>
    obtain ⟨row, pages, n⟩ := b
    obtain ⟨here, later⟩ := forall_mem_cons.mp rows
    simp only [map_cons, sum_cons] at size
    have first : (out.take n).length = n := length_take_of_le (by omega)
    have rest : (out.drop n).length = (batch.map fun b => b.2.2).sum := by
      rw [length_drop]
      omega
    have fills := here.append one_pos (one_dvd _) (fills_one (out.take n))
    have both := Continues.cons first fills (ih later rest)
    rwa [take_append_drop] at both

namespace PagedAllocator

variable {a : PagedAllocator} {allocated : List Nat}

inductive GrowsBatch (a : PagedAllocator) (allocated : List Nat)
    (batch : List (List Slot × List Nat × Nat)) : Option (List Slot) × PagedAllocator → Prop
  | full {b : PagedAllocator} (kept : Conserves b allocated) (same : SameConfig a b) :
    GrowsBatch a allocated batch (none, b)
  | grown {b : PagedAllocator} {out : List Slot} {new : List Nat}
    (kept : Conserves b (new ++ allocated)) (same : SameConfig a b)
    (continues : Continues a.pageSize batch out new) : GrowsBatch a allocated batch (some out, b)

theorem growsBatch_of_serve (merge : Prop) [Decidable merge] (count : Nat → Nat)
    (out : Nat → List Nat → List Slot) (h : Conserves a allocated)
    (piece : ∀ freePages, count a.pageSize ≤ freePages.length →
      Continues a.pageSize batch (out a.pageSize freePages) (freePages.take (count a.pageSize))) :
    GrowsBatch a allocated batch (a.serve merge count out) := by
  obtain ⟨b, same, ⟨served, kept⟩ | ⟨freePages, enough, served, kept⟩⟩ :=
    serve_cases merge count out h
  · rw [served]
    exact .full kept same
  · rw [served]
    exact .grown kept same (piece _ enough)

theorem growsBatch_tokenAlloc (one : a.pageSize = 1) (h : Conserves a allocated) (rows : Rows 1 batch) :
    GrowsBatch a allocated batch (TokenAllocator.alloc a (batch.map fun b => b.2.2).sum) := by
  refine growsBatch_of_serve (a.needSort ∧ (batch.map fun b => b.2.2).sum > a.freePages.length)
    (fun _ => (batch.map fun b => b.2.2).sum)
    (fun _ freePages => freePages.take (batch.map fun b => b.2.2).sum) h ?_
  intro freePages enough
  rw [one]
  exact continues_token rows (length_take_of_le enough)

theorem growsBatch_allocExtend (pos : 0 < a.pageSize) (h : Conserves a allocated)
    (rows : Rows a.pageSize batch) (extendNumTokens : Nat) :
    GrowsBatch a allocated batch (a.allocExtend (batch.map extendReq) extendNumTokens none) := by
  refine growsBatch_of_serve
    (a.needSort ∧ extendNumTokens / a.pageSize + (batch.map extendReq).length + 1 > a.freePages.length)
    (fun P => (none : Option Nat).getD (getNumNewPages P (batch.map extendReq)))
    (fun P freePages => allocExtendKernel P freePages 0 (batch.map extendReq)) h ?_
  intro freePages enough
  rw [Option.getD_none] at enough ⊢
  rw [← taken_zero]
  exact continues_extend pos rows (by rwa [zero_add])

theorem growsBatch_allocDecode (big : 2 ≤ a.pageSize) (h : Conserves a allocated)
    (rows : Rows a.pageSize batch) (single : ∀ b ∈ batch, b.2.2 = 1) :
    GrowsBatch a allocated batch (a.allocDecode (batch.map decodeReq)) := by
  refine growsBatch_of_serve (a.needSort ∧ (batch.map decodeReq).length > a.freePages.length)
    (fun P => getNumNewPagesDecode P (batch.map decodeReq))
    (fun P freePages => allocDecodeKernel P freePages 0 (batch.map decodeReq)) h ?_
  intro freePages enough
  rw [← taken_zero]
  exact continues_decode big rows single (by rwa [zero_add])

/-- What an allocation of `n` slots for a request with these slots and pages gives. -/
inductive Grows (a : PagedAllocator) (allocated : List Nat) (row : List Slot) (pages : List Nat)
    (n : Nat) : Option (List Slot) × PagedAllocator → Prop
  | full {b : PagedAllocator} (kept : Conserves b allocated) (same : SameConfig a b) :
    Grows a allocated row pages n (none, b)
  | grown {b : PagedAllocator} {out : List Slot} {new : List Nat}
    (kept : Conserves b (new ++ allocated)) (same : SameConfig a b) (size : out.length = n)
    (fills : Fills a.pageSize (row ++ out) (pages ++ new)) :
    Grows a allocated row pages n (some out, b)

section

variable {row : List Slot} {pages : List Nat} {n : Nat}

theorem GrowsBatch.grows {answer : Option (List Slot) × PagedAllocator}
    (h : GrowsBatch a allocated [(row, pages, n)] answer) : Grows a allocated row pages n answer := by
  cases h with
  | full kept same => exact .full kept same
  | grown kept same continues =>
    cases continues with
    | cons size fills others =>
      cases others
      rw [append_nil] at *
      exact .grown kept same size fills

variable (pos : 0 < a.pageSize) (h : Conserves a allocated) (fills : Fills a.pageSize row pages)
include pos h fills

theorem grows_allocForExtend (n : Nat) : Grows a allocated row pages n (a.allocForExtend row n) := by
  have rows : Rows a.pageSize [(row, pages, n)] := by simpa [Rows] using fills
  unfold allocForExtend
  split
  · next one =>
    have grows := growsBatch_tokenAlloc one h (one ▸ rows)
    simpa using grows.grows
  · exact (growsBatch_allocExtend pos h rows n).grows

theorem grows_allocForDecode : Grows a allocated row pages 1 (a.allocForDecode row) := by
  have rows : Rows a.pageSize [(row, pages, 1)] := by simpa [Rows] using fills
  unfold allocForDecode
  split
  · next one =>
    have grows := growsBatch_tokenAlloc one h (one ▸ rows)
    simpa using grows.grows
  · next many => exact (growsBatch_allocDecode (by omega) h rows (by simp)).grows

end

end PagedAllocator

end RedKnot.Allocator
