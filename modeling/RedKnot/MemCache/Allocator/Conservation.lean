import RedKnot.MemCache.Allocator.Kernel

/-! Conservation of pages. The ledger beside the allocator records the pages it has handed out. -/

namespace RedKnot.Allocator

open Pages List DecodeReq

variable {P : Nat}

variable {idx : List Slot}

theorem mem_pagesOf {q : Nat} : q ∈ pagesOf P idx ↔ ∃ x ∈ idx, x / P = q := by
  unfold pagesOf
  rw [mem_insertionSort, mem_dedup, mem_map]

theorem nodup_pagesOf (P : Nat) (idx : List Slot) : (pagesOf P idx).Nodup := by
  unfold pagesOf
  exact (perm_insertionSort _ _).nodup_iff.mpr (nodup_dedup _)

def grant (P : Nat) (allocated : List Nat) (out : List Slot) : List Nat :=
  allocated ++ (pagesOf P out).filter (fun q => q ∉ allocated)

def withdraw (P : Nat) (allocated : List Nat) (idx : List Slot) : List Nat :=
  allocated.filter (fun q => q ∉ pagesOf P idx)

theorem Takes.grant_perm {allocated new : List Nat} {out : List Slot} (h : Takes P allocated new out)
    (distinct : new.Nodup) (apart : ∀ q ∈ new, q ∉ allocated) :
    (grant P allocated out).Perm (new ++ allocated) := by
  have added : ((pagesOf P out).filter (fun q => q ∉ allocated)).Perm new := by
    rw [perm_ext_iff_of_nodup ((nodup_pagesOf P out).filter _) distinct]
    intro q
    rw [mem_filter, mem_pagesOf, decide_eq_true_iff]
    constructor
    · rintro ⟨⟨x, hx, rfl⟩, fresh⟩
      exact (h.sound x hx).resolve_right fresh
    · intro hq
      exact ⟨h.complete q hq, apart q hq⟩
  exact perm_append_comm.trans (added.append_right _)

theorem withdraw_perm {allocated : List Nat} (distinct : allocated.Nodup)
    (known : ∀ x ∈ idx, x / P ∈ allocated) :
    (pagesOf P idx ++ withdraw P allocated idx).Perm allocated := by
  have given : (allocated.filter (fun q => q ∈ pagesOf P idx)).Perm (pagesOf P idx) := by
    rw [perm_ext_iff_of_nodup (distinct.filter _) (nodup_pagesOf P idx)]
    intro q
    rw [mem_filter, decide_eq_true_iff]
    refine ⟨And.right, fun hq => ⟨?_, hq⟩⟩
    obtain ⟨x, hx, rfl⟩ := mem_pagesOf.mp hq
    exact known x hx
  have both := filter_append_perm (fun q => decide (q ∈ pagesOf P idx)) allocated
  simp only [← decide_not] at both
  exact (given.symm.append_right _).trans both

theorem withdraw_append {allocated : List Nat} (distinct : (pagesOf P idx ++ allocated).Nodup) :
    withdraw P (pagesOf P idx ++ allocated) idx = allocated := by
  have gone : (pagesOf P idx).filter (fun q => q ∉ pagesOf P idx) = [] := by simp
  have kept : allocated.filter (fun q => q ∉ pagesOf P idx) = allocated := by
    rw [filter_eq_self]
    intro q hq
    exact decide_eq_true fun there => (nodup_append.mp distinct).2.2 q there q hq rfl
  rw [withdraw, filter_append, gone, kept, nil_append]

namespace PagedAllocator

variable {a : PagedAllocator} {allocated : List Nat}

def pendingPages (a : PagedAllocator) : List Nat :=
  if a.isNotInFreeGroup then [] else a.freeGroup.flatMap (pagesOf a.pageSize)

def available (a : PagedAllocator) : List Nat := a.freePages ++ a.releasePages

structure Conserves (a : PagedAllocator) (allocated : List Nat) : Prop where
  partition : (a.freePages ++ a.releasePages ++ a.pendingPages ++ allocated).Perm
    (range' 1 a.numPages)
  eager : a.needSort = false → a.releasePages = []

theorem Conserves.nodup (h : Conserves a allocated) :
    (a.freePages ++ a.releasePages ++ a.pendingPages ++ allocated).Nodup :=
  h.partition.nodup_iff.mpr (nodup_range' 1)

section

variable (a : PagedAllocator)

theorem conserves_clear : Conserves a.clear [] where
  partition := by simp [clear, pendingPages, numPages]
  eager _ := rfl

theorem mergeAndSortFree_available :
    (a.mergeAndSortFree.freePages ++ a.mergeAndSortFree.releasePages).Perm
      (a.freePages ++ a.releasePages) := by
  unfold mergeAndSortFree
  split
  · rw [append_nil]
    exact perm_insertionSort _ _
  · exact Perm.refl _

theorem mergeAndSortFree_release : a.mergeAndSortFree.releasePages = [] := by
  unfold mergeAndSortFree
  split
  · rfl
  · next h => exact length_eq_zero_iff.mp (by omega)

theorem mergeAndSortFree_rest :
    a.mergeAndSortFree.pendingPages = a.pendingPages ∧ a.mergeAndSortFree.numPages = a.numPages ∧
      a.mergeAndSortFree.pageSize = a.pageSize := by
  unfold mergeAndSortFree
  split <;> exact ⟨rfl, rfl, rfl⟩

end

section

variable (h : Conserves a allocated)
include h

theorem Conserves.merge : Conserves a.mergeAndSortFree allocated where
  partition := by
    rw [(mergeAndSortFree_rest a).1, (mergeAndSortFree_rest a).2.1]
    exact (((mergeAndSortFree_available a).append_right _).append_right _).trans h.partition
  eager _ := mergeAndSortFree_release a

theorem Conserves.perm {held : List Nat} (same : allocated.Perm held) : Conserves a held :=
  ⟨(same.symm.append_left _).trans h.partition, h.eager⟩

theorem Conserves.take_front (count : Nat) :
    Conserves { a with freePages := a.freePages.drop count }
      (a.freePages.take count ++ allocated) where
  partition := by
    refine Perm.trans (perm_iff_count.mpr fun q => ?_) h.partition
    have parts := congrArg (List.count q) (take_append_drop count a.freePages)
    simp only [count_append] at parts ⊢
    change List.count q (a.freePages.drop count) + _ + List.count q a.pendingPages + _ = _
    omega
  eager := h.eager

theorem Conserves.take {count : Nat} {out : List Slot}
    (takes : Takes a.pageSize allocated (taken a.freePages 0 count) out) :
    Conserves { a with freePages := a.freePages.drop count } (grant a.pageSize allocated out) := by
  have after := h.take_front count
  have front : taken a.freePages 0 count = a.freePages.take count := by rw [taken, drop_zero]
  rw [front] at takes
  obtain ⟨distinct, _, apart⟩ := nodup_append.mp (nodup_append.mp after.nodup).2.1
  exact after.perm (takes.grant_perm distinct fun q hq there => apart q hq q there rfl).symm

end

/-! The shape that the three allocation calls share: the released pages are merged if `merge` says
so; then `count` pages are taken, if there are as many. -/

def mergeIf (a : PagedAllocator) (merge : Prop) [Decidable merge] : PagedAllocator :=
  if merge then a.mergeAndSortFree else a

def serve (a : PagedAllocator) (merge : Prop) [Decidable merge] (count : Nat → Nat)
    (out : Nat → List Nat → List Slot) : Option (List Slot) × PagedAllocator :=
  let a := a.mergeIf merge
  if count a.pageSize > a.freePages.length then (none, a)
  else
    (some (out a.pageSize a.freePages), { a with freePages := a.freePages.drop (count a.pageSize) })

section serve

variable {merge : Prop} [Decidable merge] {count : Nat → Nat} {out : Nat → List Nat → List Slot}

section

variable (a : PagedAllocator) (merge : Prop) [Decidable merge]

theorem mergeIf_available : ((a.mergeIf merge).freePages ++ (a.mergeIf merge).releasePages).Perm
      (a.freePages ++ a.releasePages) := by
  unfold mergeIf
  split
  · exact mergeAndSortFree_available a
  · exact Perm.refl _

theorem mergeIf_pageSize : (a.mergeIf merge).pageSize = a.pageSize := by
  unfold mergeIf
  split
  · exact (mergeAndSortFree_rest a).2.2
  · rfl

end

section

variable (h : Conserves a allocated)
include h

theorem Conserves.mergeIf : Conserves (a.mergeIf merge) allocated := by
  unfold PagedAllocator.mergeIf
  split
  · exact h.merge
  · exact h

theorem Conserves.mergeIf_short {n : Nat}
    (covers : a.needSort = true → a.freePages.length < n → merge) :
    (a.mergeIf merge).freePages.length < n ↔ a.freePages.length + a.releasePages.length < n := by
  unfold PagedAllocator.mergeIf
  split
  · have same := (mergeAndSortFree_available a).length_eq
    rw [mergeAndSortFree_release, append_nil, length_append] at same
    rw [same]
  · next unmerged =>
    cases sorted : a.needSort with
    | false => rw [h.eager sorted, length_nil, add_zero]
    | true =>
      have := mt (covers sorted) unmerged
      constructor <;> intro <;> omega

section

variable (covers : a.needSort = true → a.freePages.length < count a.pageSize → merge)
include covers

theorem Conserves.serve_none_iff : (a.serve merge count out).1 = none ↔
      count a.pageSize > a.freePages.length + a.releasePages.length := by
  have short := h.mergeIf_short covers
  rw [← mergeIf_pageSize a merge] at short ⊢
  unfold serve
  dsimp only
  split
  · next few => exact ⟨fun _ => short.mp few, fun _ => rfl⟩
  · next many => exact ⟨nofun, fun few => absurd (short.mpr few) many⟩

end

end

theorem serve_none_available (failed : (a.serve merge count out).1 = none) :
    ((a.serve merge count out).2.freePages ++ (a.serve merge count out).2.releasePages).Perm
      (a.freePages ++ a.releasePages) := by
  unfold serve at failed ⊢
  dsimp only at failed ⊢
  split at failed
  · next few =>
    rw [if_pos few]
    exact mergeIf_available a merge
  · cases failed

theorem Conserves.serve (h : Conserves a allocated)
    (takes : ∀ freePages, count a.pageSize ≤ freePages.length →
      Takes a.pageSize allocated (taken freePages 0 (count a.pageSize)) (out a.pageSize freePages)) :
    Conserves (a.serve merge count out).2
      (((a.serve merge count out).1.map (grant a.pageSize allocated)).getD allocated) := by
  rw [← mergeIf_pageSize a merge] at takes ⊢
  unfold PagedAllocator.serve
  dsimp only
  split
  · exact h.mergeIf
  · next many => exact h.mergeIf.take (takes _ (Nat.le_of_not_gt many))

end serve

theorem pagesOf_nil (P : Nat) : pagesOf P [] = [] := by simp [pagesOf]

theorem Conserves.free (h : Conserves a allocated) (known : ∀ x ∈ idx, x / a.pageSize ∈ allocated) :
    Conserves (a.free idx) (withdraw a.pageSize allocated idx) := by
  have back := withdraw_perm (nodup_append.mp h.nodup).2.1 known
  unfold PagedAllocator.free
  split
  · next empty =>
    obtain rfl := length_eq_zero_iff.mp empty
    refine ⟨(Perm.append_left _ ?_).trans h.partition, h.eager⟩
    rwa [pagesOf_nil, nil_append] at back
  · have counts := perm_iff_count.mp (back.append_left
      (a.freePages ++ a.releasePages ++ a.pendingPages) |>.trans h.partition)
    split
    · next outside =>
      split
      · next sorted =>
        refine ⟨perm_iff_count.mpr fun q => ?_, fun eager => absurd (sorted.symm.trans eager) nofun⟩
        have := counts q
        simp only [pendingPages, outside, if_true, numPages, count_append] at this ⊢
        omega
      · next unsorted =>
        refine ⟨perm_iff_count.mpr fun q => ?_, h.eager⟩
        have := counts q
        simp only [pendingPages, outside, if_true, numPages, count_append] at this ⊢
        omega
    · next inside =>
      refine ⟨perm_iff_count.mpr fun q => ?_, h.eager⟩
      have := counts q
      simp only [pendingPages, inside, Bool.false_eq_true, if_false, numPages, count_append,
        flatMap_append, flatMap_singleton] at this ⊢
      omega

theorem Conserves.freeGroupBegin (h : Conserves a allocated) (settled : a.pendingPages = []) :
    Conserves a.freeGroupBegin allocated where
  partition := by
    have := h.partition
    rw [settled] at this
    exact this
  eager := h.eager

theorem pagesOf_flatten {freeGroup : List (List Slot)}
    (distinct : (freeGroup.flatMap (pagesOf P)).Nodup) :
    (pagesOf P freeGroup.flatten).Perm (freeGroup.flatMap (pagesOf P)) := by
  rw [perm_ext_iff_of_nodup (nodup_pagesOf P _) distinct]
  intro q
  simp only [mem_pagesOf, mem_flatten, mem_flatMap]
  constructor
  · rintro ⟨x, ⟨idx, hidx, hx⟩, page⟩
    exact ⟨idx, hidx, x, hx, page⟩
  · rintro ⟨idx, hidx, x, hx, page⟩
    exact ⟨x, ⟨idx, hidx, hx⟩, page⟩

theorem Conserves.freeGroupEnd (h : Conserves a allocated)
    (balanced : a.isNotInFreeGroup = true → a.freeGroup = []) : Conserves a.freeGroupEnd allocated := by
  have outside : ∀ b : PagedAllocator, b.isNotInFreeGroup = true → b.pendingPages = [] := by
    intro b hb
    rw [pendingPages, hb, if_pos rfl]
  cases open_ : a.isNotInFreeGroup with
  | true =>
    unfold PagedAllocator.freeGroupEnd
    rw [if_neg (by simpa using balanced open_)]
    have := h.partition
    rw [outside a open_] at this
    exact ⟨this, h.eager⟩
  | false =>
    have pending : a.pendingPages = a.freeGroup.flatMap (pagesOf a.pageSize) := by
      rw [pendingPages, open_, if_neg nofun]
    have counts := h.partition
    rw [pending] at counts
    have distinct : (a.freeGroup.flatMap (pagesOf a.pageSize)).Nodup := by
      have := (nodup_append.mp (nodup_append.mp h.nodup).1).2.1
      rwa [pending] at this
    have merged := pagesOf_flatten distinct
    -- The group is freed as if it had been allocated until now.
    have held : Conserves { a with isNotInFreeGroup := true }
        (pagesOf a.pageSize a.freeGroup.flatten ++ allocated) := by
      refine ⟨?_, h.eager⟩
      rw [outside _ rfl, append_nil]
      refine Perm.trans ?_ counts
      rw [← append_assoc]
      exact (merged.append_left _).append_right _
    have left : withdraw a.pageSize (pagesOf a.pageSize a.freeGroup.flatten ++ allocated)
        a.freeGroup.flatten = allocated :=
      withdraw_append (nodup_append.mp held.nodup).2.1
    have freed : Conserves (PagedAllocator.free { a with isNotInFreeGroup := true } a.freeGroup.flatten)
        allocated :=
      left ▸ held.free fun x hx => mem_append_left _ (mem_pagesOf.mpr ⟨x, hx, rfl⟩)
    unfold PagedAllocator.freeGroupEnd
    dsimp only
    split
    · exact freed
    · next empty =>
      have none : a.freeGroup.flatten = [] := by rw [not_not.mp empty, flatten_nil]
      rw [none] at freed
      exact freed

inductive Op
  | alloc (needSize : Nat)
  | allocExtend (reqs : List ExtendReq) (extendNumTokens : Nat) (numNewPages : Option Nat)
  | allocDecode (reqs : List DecodeReq)
  | free (freeIndex : List Slot)
  | freeGroupBegin
  | freeGroupEnd
deriving DecidableEq, Repr

def exec (a : PagedAllocator) : Op → Option (List Slot) × PagedAllocator
  | .alloc needSize => a.alloc needSize
  | .allocExtend reqs extendNumTokens numNewPages => a.allocExtend reqs extendNumTokens numNewPages
  | .allocDecode reqs => a.allocDecode reqs
  | .free freeIndex => (none, a.free freeIndex)
  | .freeGroupBegin => (none, a.freeGroupBegin)
  | .freeGroupEnd => (none, a.freeGroupEnd)

/-- The new pages that an allocation needs; `none` for the other calls. -/
def Op.pagesNeeded (P : Nat) : Op → Option Nat
  | .alloc needSize => some (needSize / P)
  | .allocExtend reqs _ _ => some (reqs.map (ExtendReq.newPages P)).sum
  | .allocDecode reqs => some (reqs.map (newPages P)).sum
  | _ => none

def ledger (P : Nat) (allocated : List Nat) : Op → Option (List Slot) → List Nat
  | .free freeIndex, _ => withdraw P allocated freeIndex
  | _, reply => (reply.map (grant P allocated)).getD allocated

/-- A launch that needs a page reads a null pointer if there is none at all. -/
def Launches (a : PagedAllocator) (numNewPages : Nat) : Prop :=
  numNewPages ≠ 0 → a.available ≠ []

/-- What the callers keep to. A group is not opened over pending frees, and not closed when it is
not open, unless the last group was empty. -/
def Allowed (a : PagedAllocator) (allocated : List Nat) : Op → Prop
  | .alloc _ => True
  | .allocExtend reqs extendNumTokens numNewPages =>
    PowerOfTwo a.pageSize ∧ a.Launches (getNumNewPages a.pageSize reqs) ∧
      (∀ r ∈ reqs, r.Continues a.pageSize allocated) ∧
      extendNumTokens = (reqs.map (fun r => r.seqLen - r.prefixLen)).sum ∧
      (numNewPages = none ∨ numNewPages = some (getNumNewPages a.pageSize reqs))
  | .allocDecode reqs => a.Launches (getNumNewPagesDecode a.pageSize reqs) ∧
      ∀ r ∈ reqs, r.Continues a.pageSize allocated
  | .free freeIndex => ∀ x ∈ freeIndex, x / a.pageSize ∈ allocated
  | .freeGroupBegin => a.pendingPages = []
  | .freeGroupEnd => a.isNotInFreeGroup = true → a.freeGroup = []

inductive Reaches (a : PagedAllocator) : PagedAllocator → List Nat → Prop
  | start : Reaches a a.clear []
  | step {b : PagedAllocator} {allocated : List Nat} {op : Op} :
    Reaches a b allocated → Allowed b allocated op →
      Reaches a (b.exec op).2 (ledger b.pageSize allocated op (b.exec op).1)

theorem getNumNewPages_le (pos : 0 < P) (reqs : List ExtendReq) :
    getNumNewPages P reqs ≤ (reqs.map (fun r => r.seqLen - r.prefixLen)).sum / P + reqs.length := by
  induction reqs with
  | nil => simp [getNumNewPages]
  | cons r rs ih =>
    have here : r.newPages P ≤ (r.seqLen - r.prefixLen) / P + 1 := by
      have low := ceil_mul_ge pos r.prefixLen
      have size := Nat.lt_div_mul_add pos (a := r.seqLen - r.prefixLen)
      have : ceil P r.seqLen ≤ ceil P r.prefixLen + (r.seqLen - r.prefixLen) / P + 1 := by
        rw [ceil_le_iff pos, add_mul, add_mul, one_mul]
        omega
      rw [ExtendReq.newPages]
      exact Nat.sub_le_of_le_add (by omega)
    have sums : (r.seqLen - r.prefixLen) / P + (rs.map (fun r => r.seqLen - r.prefixLen)).sum / P ≤
        (r.seqLen - r.prefixLen + (rs.map (fun r => r.seqLen - r.prefixLen)).sum) / P :=
      Nat.div_add_div_le_add_div
    simp only [getNumNewPages, map_cons, sum_cons, length_cons] at ih ⊢
    omega

theorem exec_serve (big : 2 ≤ a.pageSize) {op : Op} {n : Nat} (allowed : Allowed a allocated op)
    (needed : op.pagesNeeded a.pageSize = some n) :
    ∃ (merge : Prop) (_ : Decidable merge) (count : Nat → Nat) (out : Nat → List Nat → List Slot),
      a.exec op = a.serve merge count out ∧ count a.pageSize = n ∧
      (a.needSort = true → a.freePages.length < n → merge) ∧
      ∀ freePages, n ≤ freePages.length →
        Takes a.pageSize allocated (taken freePages 0 n) (out a.pageSize freePages) := by
  have pos : 0 < a.pageSize := by omega
  cases op with
  | alloc needSize =>
    cases needed
    exact ⟨a.needSort ∧ needSize / a.pageSize > a.freePages.length, inferInstance,
      fun _ => needSize / a.pageSize, fun P freePages => slots P (freePages.take (needSize / a.pageSize)),
      rfl, rfl, fun sorted short => ⟨sorted, short⟩, fun freePages _ => Takes.slots pos _⟩
  | allocExtend reqs extendNumTokens numNewPages =>
    cases needed
    obtain ⟨-, -, continues, tokens, pages⟩ := allowed
    have estimate := getNumNewPages_le pos reqs
    refine ⟨a.needSort ∧ extendNumTokens / a.pageSize + reqs.length + 1 > a.freePages.length,
      inferInstance, fun P => numNewPages.getD (getNumNewPages P reqs),
      fun P freePages => allocExtendKernel P freePages 0 reqs,
      rfl, ?_, fun sorted short => ⟨sorted, ?_⟩, fun freePages enough => ?_⟩
    · rcases pages with rfl | rfl <;> rfl
    · rw [← tokens] at estimate
      change a.freePages.length < getNumNewPages a.pageSize reqs at short
      omega
    · exact takes_allocExtendKernel pos continues (by rwa [zero_add])
  | allocDecode reqs =>
    obtain ⟨-, continues⟩ := allowed
    have nonempty := fun r hr => (continues r hr).nonempty
    have count := getNumNewPagesDecode_eq big nonempty
    rw [getNumNewPages, map_map] at count
    obtain rfl := count.trans (Option.some.inj needed)
    refine ⟨a.needSort ∧ reqs.length > a.freePages.length, inferInstance,
      fun P => getNumNewPagesDecode P reqs, fun P freePages => allocDecodeKernel P freePages 0 reqs,
      rfl, rfl, fun sorted short => ⟨sorted, short.trans_le (length_filter_le _ _)⟩,
      fun freePages enough => ?_⟩
    rw [getNumNewPagesDecode_eq big nonempty] at enough ⊢
    have takes := takes_allocExtendKernel pos (continues_map_asExtend big continues)
      (show 0 + _ ≤ freePages.length by rwa [zero_add])
    rwa [← allocDecodeKernel_eq big nonempty] at takes
  | free | freeGroupBegin | freeGroupEnd => cases needed

theorem Conserves.step (big : 2 ≤ a.pageSize) (h : Conserves a allocated) {op : Op}
    (allowed : Allowed a allocated op) :
    Conserves (a.exec op).2 (ledger a.pageSize allocated op (a.exec op).1) := by
  cases needed : op.pagesNeeded a.pageSize with
  | some n =>
    obtain ⟨merge, _, count, out, heq, rfl, -, takes⟩ := exec_serve big allowed needed
    have kept := heq ▸ h.serve takes
    cases op with
    | alloc | allocExtend | allocDecode => exact kept
    | free | freeGroupBegin | freeGroupEnd => cases needed
  | none =>
    cases op with
    | alloc | allocExtend | allocDecode => cases needed
    | free freeIndex => exact h.free allowed
    | freeGroupBegin => exact h.freeGroupBegin allowed
    | freeGroupEnd => exact h.freeGroupEnd allowed

section

variable (a : PagedAllocator)

theorem serve_config (merge : Prop) [Decidable merge] (count : Nat → Nat)
    (out : Nat → List Nat → List Slot) :
    (a.serve merge count out).2.size = a.size ∧ (a.serve merge count out).2.pageSize = a.pageSize ∧
      (a.serve merge count out).2.isNotInFreeGroup = a.isNotInFreeGroup := by
  have merged : (a.mergeIf merge).size = a.size ∧ (a.mergeIf merge).pageSize = a.pageSize ∧
      (a.mergeIf merge).isNotInFreeGroup = a.isNotInFreeGroup := by
    unfold mergeIf mergeAndSortFree
    split
    · split <;> exact ⟨rfl, rfl, rfl⟩
    · exact ⟨rfl, rfl, rfl⟩
  unfold serve
  dsimp only
  split <;> exact merged

theorem free_config (freeIndex : List Slot) :
    (a.free freeIndex).size = a.size ∧ (a.free freeIndex).pageSize = a.pageSize ∧
      (a.free freeIndex).isNotInFreeGroup = a.isNotInFreeGroup := by
  unfold free
  split
  · exact ⟨rfl, rfl, rfl⟩
  · split
    · split <;> exact ⟨rfl, rfl, rfl⟩
    · exact ⟨rfl, rfl, rfl⟩

theorem exec_config (op : Op) :
    (a.exec op).2.size = a.size ∧ (a.exec op).2.pageSize = a.pageSize := by
  cases op with
  | alloc needSize =>
    have same := serve_config a (a.needSort ∧ needSize / a.pageSize > a.freePages.length)
      (fun _ => needSize / a.pageSize)
      (fun P freePages => slots P (freePages.take (needSize / a.pageSize)))
    exact ⟨same.1, same.2.1⟩
  | allocExtend reqs extendNumTokens numNewPages =>
    have same := serve_config a
      (a.needSort ∧ extendNumTokens / a.pageSize + reqs.length + 1 > a.freePages.length)
      (fun P => numNewPages.getD (getNumNewPages P reqs))
      (fun P freePages => allocExtendKernel P freePages 0 reqs)
    exact ⟨same.1, same.2.1⟩
  | allocDecode reqs =>
    have same := serve_config a (a.needSort ∧ reqs.length > a.freePages.length)
      (fun P => getNumNewPagesDecode P reqs) (fun P freePages => allocDecodeKernel P freePages 0 reqs)
    exact ⟨same.1, same.2.1⟩
  | free freeIndex => exact ⟨(free_config a freeIndex).1, (free_config a freeIndex).2.1⟩
  | freeGroupBegin => exact ⟨rfl, rfl⟩
  | freeGroupEnd =>
    unfold exec freeGroupEnd
    dsimp only
    split
    · exact ⟨(free_config _ _).1, (free_config _ _).2.1⟩
    · exact ⟨rfl, rfl⟩

end

theorem conserves_of_reaches {b : PagedAllocator} (big : 2 ≤ a.pageSize) (run : Reaches a b allocated) :
    Conserves b allocated ∧ b.size = a.size ∧ b.pageSize = a.pageSize := by
  induction run with
  | start => exact ⟨conserves_clear a, rfl, rfl⟩
  | @step b allocated op _ allowed ih =>
    obtain ⟨kept, size, pageSize⟩ := ih
    have config := exec_config b op
    exact ⟨kept.step (pageSize ▸ big) allowed, config.1.trans size, config.2.trans pageSize⟩

/-- In every run the free, released, pending and allocated pages are the pages of the pool, each
once, and an allocation fails exactly when too few are free or released. -/
theorem pagedAllocator_conserves_pages {b : PagedAllocator} (big : 2 ≤ a.pageSize)
    (run : Reaches a b allocated) :
    (b.freePages ++ b.releasePages ++ b.pendingPages ++ allocated).Perm
        (range' 1 (a.size / a.pageSize)) ∧
      ∀ op n, Allowed b allocated op → op.pagesNeeded b.pageSize = some n →
        ((b.exec op).1 = none ↔ n > b.freePages.length + b.releasePages.length) ∧
        ((b.exec op).1 = none → ((b.exec op).2.freePages ++ (b.exec op).2.releasePages).Perm
          (b.freePages ++ b.releasePages)) := by
  obtain ⟨kept, size, pageSize⟩ := conserves_of_reaches big run
  refine ⟨?_, fun op n allowed needed => ?_⟩
  · rw [← size, ← pageSize]
    exact kept.partition
  · obtain ⟨merge, _, count, out, heq, rfl, covers, -⟩ := exec_serve (pageSize ▸ big) allowed needed
    rw [heq]
    exact ⟨kept.serve_none_iff covers, serve_none_available⟩

def after (a : PagedAllocator) (ops : List Op) : PagedAllocator × List Nat :=
  ops.foldl (fun s op => ((s.1.exec op).2, ledger s.1.pageSize s.2 op (s.1.exec op).1)) (a.clear, [])

instance (r : ExtendReq) : Decidable (r.Continues P allocated) :=
  decidable_of_iff
    (r.prefixLen ≤ r.seqLen ∧ (r.prefixLen % P ≠ 0 → 0 ≤ r.lastLoc ∧ r.lastLoc.toNat / P ∈ allocated) ∧
      (r.prefixLen % P ≠ 0 → (r.lastLoc.toNat + 1) % P = r.prefixLen % P))
    ⟨fun ⟨grows, known, offset⟩ => ⟨grows, known, offset⟩, fun h => ⟨h.grows, h.known, h.offset⟩⟩

instance (r : DecodeReq) : Decidable (r.Continues P allocated) :=
  decidable_of_iff
    (1 ≤ r.seqLen ∧ (r.seqLen % P ≠ 1 → 0 ≤ r.lastLoc ∧ r.lastLoc.toNat / P ∈ allocated) ∧
      (r.seqLen % P ≠ 1 → (r.lastLoc.toNat + 2) % P = r.seqLen % P))
    ⟨fun ⟨nonempty, known, offset⟩ => ⟨nonempty, known, offset⟩,
      fun h => ⟨h.nonempty, h.known, h.offset⟩⟩

instance (a : PagedAllocator) (numNewPages : Nat) : Decidable (a.Launches numNewPages) :=
  inferInstanceAs (Decidable (_ → _))

instance (a : PagedAllocator) (allocated : List Nat) (op : Op) : Decidable (Allowed a allocated op) :=
  match op with
  | .alloc _ => inferInstanceAs (Decidable True)
  | .allocExtend .. => inferInstanceAs (Decidable (_ ∧ _ ∧ _ ∧ _ ∧ _))
  | .allocDecode _ => inferInstanceAs (Decidable (_ ∧ ∀ _ ∈ _, _))
  | .free _ => inferInstanceAs (Decidable (∀ _ ∈ _, _))
  | .freeGroupBegin => inferInstanceAs (Decidable (_ = _))
  | .freeGroupEnd => inferInstanceAs (Decidable (_ → _))

def allAllowed (a : PagedAllocator) (ops : List Op) : Bool :=
  (range ops.length).all fun i =>
    let s := after a (ops.take i)
    match ops[i]? with
    | some op => Allowed s.1 s.2 op
    | none => true

theorem reaches_after {ops : List Op} (allowed : allAllowed a ops = true) :
    Reaches a (after a ops).1 (after a ops).2 := by
  induction ops using reverseRecOn with
  | nil => exact .start
  | append_singleton ops op ih =>
    have last : Allowed (after a ops).1 (after a ops).2 op := by
      have := (all_eq_true.mp allowed) ops.length (by simp)
      simpa using this
    have before : allAllowed a ops = true := by
      refine all_eq_true.mpr fun i hi => ?_
      rw [mem_range] at hi
      have := (all_eq_true.mp allowed) i (by simp; omega)
      rwa [take_append_of_le_length hi.le, getElem?_append_left hi] at this
    have next := (ih before).step last
    simpa [after] using next

def smallPool : PagedAllocator := { size := 6, pageSize := 2, needSort := true }

def groupRun : List Op :=
  [.allocExtend [⟨0, 3, -1⟩] 3 none, .allocDecode [⟨4, 4⟩], .alloc 2, .freeGroupBegin,
    .free [2, 3, 4, 5]]

theorem conserves_pages_of_groupRun : Reaches smallPool (after smallPool groupRun).1 [3] ∧
      (after smallPool groupRun).1.pendingPages = [1, 2] ∧
      ((after smallPool groupRun).1.freePages ++ (after smallPool groupRun).1.releasePages ++
        (after smallPool groupRun).1.pendingPages ++ [3]).Perm (range' 1 3) ∧
      ((after smallPool groupRun).1.exec (.alloc 2)).1 = none := by
  have run : Reaches smallPool (after smallPool groupRun).1 [3] := reaches_after (by decide)
  obtain ⟨partition, served⟩ := pagedAllocator_conserves_pages (by decide) run
  exact ⟨run, by decide, partition, (served (.alloc 2) 1 (by decide) (by decide)).1.mpr (by decide)⟩

def recorded (s : PagedAllocator × List Nat) : List Nat :=
  s.1.freePages ++ s.1.releasePages ++ s.1.pendingPages ++ s.2

/-- A group opened over pending frees drops them, and a group closed twice frees its pages twice. -/
theorem unbalanced_groups_break_partition :
    (∀ x ∈ [2, 3], x / 2 ∈ (after smallPool [.alloc 2, .freeGroupBegin]).2) ∧
      1 ∉ recorded (after smallPool [.alloc 2, .freeGroupBegin, .free [2, 3], .freeGroupBegin]) ∧
      ¬ (recorded (after smallPool
        [.alloc 2, .freeGroupBegin, .free [2, 3], .freeGroupEnd, .freeGroupEnd])).Nodup := by
  decide

end PagedAllocator

end RedKnot.Allocator
