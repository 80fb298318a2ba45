import RedKnot.Lib.Pages
import RedKnot.MemCache.RadixKey

/-! `PagedTokenToKVPoolAllocator` of `mem_cache/allocator.py` with its kernels, and
`TokenToKVPoolAllocator` for pages of one slot. What the kernels read beyond the free list is not
used. The assertions of `SGLANG_DEBUG_MEMORY_POOL` are left out. -/

namespace RedKnot.Allocator

open Pages List

/-- One request of a prefill batch. `lastLoc` is the slot of its last token, -1 if it has none. -/
structure ExtendReq where
  prefixLen : Nat
  seqLen : Nat
  lastLoc : Int
deriving DecidableEq, Repr

/-- One request of a decode batch; `seqLen` counts the token that is to be written. -/
structure DecodeReq where
  seqLen : Nat
  lastLoc : Int
deriving DecidableEq, Repr

def ExtendReq.newPages (P : Nat) (r : ExtendReq) : Nat := ceil P r.seqLen - ceil P r.prefixLen

def DecodeReq.newPages (P : Nat) (r : DecodeReq) : Nat := ceil P r.seqLen - ceil P (r.seqLen - 1)

/-- `get_num_new_pages(seq_lens, page_size, prefix_lens)` -/
def getNumNewPages (P : Nat) (reqs : List ExtendReq) : Nat := (reqs.map (ExtendReq.newPages P)).sum

/-- `get_num_new_pages(seq_lens, page_size, decode=True)` -/
def getNumNewPagesDecode (P : Nat) (reqs : List DecodeReq) : Nat :=
  (reqs.filter (fun r => r.seqLen % P = 1)).length

/-- The page sizes that `tl.arange(0, page_size)` takes. -/
def PowerOfTwo (P : Nat) : Prop := 2 ^ P.log2 = P

instance (P : Nat) : Decidable (PowerOfTwo P) := inferInstanceAs (Decidable (_ = _))

/-- What program `pid` of `alloc_extend_kernel` stores, in order. `newPageStart` pages go to the
requests before it. -/
def extendOne (P : Nat) (freePages : List Nat) (newPageStart : Nat) (r : ExtendReq) : List Slot :=
  let pagesBefore := ceil P r.prefixLen
  let numPart1 := min r.seqLen (pagesBefore * P) - r.prefixLen
  let part1 := (range numPart1).map (fun o : Nat => (r.lastLoc + 1 + (o : Int)).toNat)
  if r.prefixLen + numPart1 = r.seqLen then part1
  else
    let numPart2 := r.seqLen / P * P - pagesBefore * P
    let part2 := (range numPart2).map
      (fun o => freePages.getD (newPageStart + o / P) 0 * P + o % P)
    if r.prefixLen + numPart1 + numPart2 = r.seqLen then part1 ++ part2
    else
      let numPart3 := r.seqLen - r.seqLen / P * P
      let startLoc := freePages.getD (newPageStart + r.newPages P - 1) 0
      part1 ++ part2 ++ (range numPart3).map (startLoc * P + ·)

def allocExtendKernel (P : Nat) (freePages : List Nat) : Nat → List ExtendReq → List Slot
  | _, [] => []
  | newPageStart, r :: rs =>
    extendOne P freePages newPageStart r ++
      allocExtendKernel P freePages (newPageStart + r.newPages P) rs

def allocDecodeKernel (P : Nat) (freePages : List Nat) : Nat → List DecodeReq → List Slot
  | _, [] => []
  | newPageStart, r :: rs =>
    (if r.newPages P = 0 then (r.lastLoc + 1).toNat else freePages.getD newPageStart 0 * P) ::
      allocDecodeKernel P freePages (newPageStart + r.newPages P) rs

/-- `torch.unique(free_index // page_size)` -/
def pagesOf (P : Nat) (freeIndex : List Slot) : List Nat :=
  ((freeIndex.map (· / P)).dedup).insertionSort (· ≤ ·)

structure PagedAllocator where
  size : Nat
  pageSize : Nat
  needSort : Bool
  freePages : List Nat := []
  releasePages : List Nat := []
  isNotInFreeGroup : Bool := true
  freeGroup : List (List Slot) := []
deriving DecidableEq, Repr

namespace PagedAllocator

def numPages (a : PagedAllocator) : Nat := a.size / a.pageSize

def availableSize (a : PagedAllocator) : Nat :=
  (a.freePages.length + a.releasePages.length) * a.pageSize

def backupState (a : PagedAllocator) : List Nat × List Nat := (a.freePages, a.releasePages)

def clear (a : PagedAllocator) : PagedAllocator :=
  { a with
    freePages := range' 1 a.numPages
    isNotInFreeGroup := true
    freeGroup := []
    releasePages := [] }

def mergeAndSortFree (a : PagedAllocator) : PagedAllocator :=
  if a.releasePages.length > 0 then
    { a with freePages := (a.freePages ++ a.releasePages).insertionSort (· ≤ ·), releasePages := [] }
  else a

def alloc (a : PagedAllocator) (needSize : Nat) : Option (List Slot) × PagedAllocator :=
  let numPages := needSize / a.pageSize
  let a := if a.needSort ∧ numPages > a.freePages.length then a.mergeAndSortFree else a
  if numPages > a.freePages.length then (none, a)
  else
    (some (slots a.pageSize (a.freePages.take numPages)),
      { a with freePages := a.freePages.drop numPages })

/-- `numNewPages` may be computed by the caller. -/
def allocExtend (a : PagedAllocator) (reqs : List ExtendReq) (extendNumTokens : Nat)
    (numNewPages : Option Nat) : Option (List Slot) × PagedAllocator :=
  let bs := reqs.length
  let a := if a.needSort ∧ extendNumTokens / a.pageSize + bs + 1 > a.freePages.length
    then a.mergeAndSortFree else a
  let outIndices := allocExtendKernel a.pageSize a.freePages 0 reqs
  let numNewPages := numNewPages.getD (getNumNewPages a.pageSize reqs)
  if numNewPages > a.freePages.length then (none, a)
  else (some outIndices, { a with freePages := a.freePages.drop numNewPages })

def allocDecode (a : PagedAllocator) (reqs : List DecodeReq) : Option (List Slot) × PagedAllocator :=
  let bs := reqs.length
  let a := if a.needSort ∧ bs > a.freePages.length then a.mergeAndSortFree else a
  let outIndices := allocDecodeKernel a.pageSize a.freePages 0 reqs
  let numNewPages := getNumNewPagesDecode a.pageSize reqs
  if numNewPages > a.freePages.length then (none, a)
  else (some outIndices, { a with freePages := a.freePages.drop numNewPages })

def free (a : PagedAllocator) (freeIndex : List Slot) : PagedAllocator :=
  if freeIndex.length = 0 then a
  else if a.isNotInFreeGroup then
    let freePageIndices := pagesOf a.pageSize freeIndex
    if a.needSort then { a with releasePages := freePageIndices ++ a.releasePages }
    else { a with freePages := freePageIndices ++ a.freePages }
  else { a with freeGroup := a.freeGroup ++ [freeIndex] }

def freeGroupBegin (a : PagedAllocator) : PagedAllocator :=
  { a with isNotInFreeGroup := false, freeGroup := [] }

def freeGroupEnd (a : PagedAllocator) : PagedAllocator :=
  let a := { a with isNotInFreeGroup := true }
  if a.freeGroup ≠ [] then a.free a.freeGroup.flatten else a

end PagedAllocator

/-- `TokenToKVPoolAllocator` has the same fields, from their base class, and pages of one slot. -/
abbrev TokenAllocator := PagedAllocator

namespace TokenAllocator

def clear (a : TokenAllocator) : TokenAllocator :=
  { a with
    freePages := range' 1 a.size
    isNotInFreeGroup := true
    freeGroup := []
    releasePages := [] }

def alloc (a : TokenAllocator) (needSize : Nat) : Option (List Slot) × TokenAllocator :=
  let a := if a.needSort ∧ needSize > a.freePages.length then a.mergeAndSortFree else a
  if needSize > a.freePages.length then (none, a)
  else (some (a.freePages.take needSize), { a with freePages := a.freePages.drop needSize })

def free (a : TokenAllocator) (freeIndex : List Slot) : TokenAllocator :=
  if freeIndex.length = 0 then a
  else if a.isNotInFreeGroup then
    if a.needSort then { a with releasePages := a.releasePages ++ freeIndex }
    else { a with freePages := a.freePages ++ freeIndex }
  else { a with freeGroup := a.freeGroup ++ [freeIndex] }

end TokenAllocator

end RedKnot.Allocator
