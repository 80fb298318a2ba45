import RedKnot.MemCache.Allocator.Conservation

/-! `SWATokenToKVPoolAllocator` of `mem_cache/swa_memory_pool.py`: two pools and the map from the
slots of the first to those of the second. -/

namespace RedKnot.Allocator

open List

namespace PagedAllocator

/-- The kernel of a decode batch that needs a page gets the null pointer of an empty list. -/
def ReadsNull (a : PagedAllocator) (reqs : List DecodeReq) : Prop :=
  (a.mergeIf (a.needSort ∧ reqs.length > a.freePages.length)).freePages = [] ∧
    getNumNewPagesDecode a.pageSize reqs ≠ 0

instance (a : PagedAllocator) (reqs : List DecodeReq) : Decidable (a.ReadsNull reqs) :=
  inferInstanceAs (Decidable (_ ∧ _))

end PagedAllocator

/-- The pools are `TokenAllocator`s when pages have one slot. -/
structure SWAAllocator where
  pageSize : Nat
  full : PagedAllocator
  swa : PagedAllocator
  fullToSwa : List Int
deriving DecidableEq, Repr

abbrev Outcome := Except PyError (Option (List Slot)) × SWAAllocator

namespace SWAAllocator

variable (s : SWAAllocator)

/-- The entry for `-1` is the last one. -/
def translateLoc (loc : Int) : Int :=
  s.fullToSwa.getD (if loc < 0 then loc + s.fullToSwa.length else loc).toNat 0

/-- `full_to_swa_index_mapping[full] = swa` -/
def assign (mapping : List Int) (full : List Slot) (swa : List Int) : List Int :=
  (full.zip swa).foldl (fun mapping e => mapping.set e.1 e.2) mapping

def failed (message : String) : Outcome := (.error (.assertionError message), s)

/-- Both pools have to have served the call. -/
def link (full swa : Option (List Slot)) : Outcome :=
  match full, swa with
  | some full, some swa =>
    (.ok (some full), { s with fullToSwa := assign s.fullToSwa full (swa.map Int.ofNat) })
  | _, _ => s.failed ""

/-- The tests that come before anything is taken. -/
def checked (fullPages swaPages : Nat) (served : Outcome) : Outcome :=
  if fullPages > s.full.availableSize / s.pageSize then (.ok none, s)
  else if swaPages > s.swa.availableSize / s.pageSize then (.ok none, s)
  else served

def alloc (needSize : Nat) : Outcome :=
  if s.pageSize ≠ 1 then s.failed ""
  else
    let full := TokenAllocator.alloc s.full needSize
    let swa := TokenAllocator.alloc s.swa needSize
    s.checked needSize needSize ({ s with full := full.2, swa := swa.2 }.link full.1 swa.1)

def allocExtend (reqs : List ExtendReq) (extendNumTokens : Nat) : Outcome :=
  let numNewPages := getNumNewPages s.pageSize reqs
  if s.pageSize ≤ 1 then s.failed ""
  else
    let swaReqs := reqs.map fun r => { r with lastLoc := s.translateLoc r.lastLoc }
    let full := s.full.allocExtend reqs extendNumTokens (some numNewPages)
    let swa := s.swa.allocExtend swaReqs extendNumTokens (some numNewPages)
    s.checked numNewPages numNewPages ({ s with full := full.2, swa := swa.2 }.link full.1 swa.1)

/-- The SWA slots of the last `tail` tokens of `out`; the tokens before them have none. -/
def linkTail (out : List Slot) (extendNumTokens tail : Nat) : Outcome :=
  let swa := s.swa.allocExtend [⟨0, tail, -1⟩] tail none
  let s := { s with swa := swa.2 }
  match swa.1 with
  | none => s.failed ""
  | some swaOut =>
    let cut := out.length - tail
    let mapping := assign s.fullToSwa (out.drop cut) (swaOut.map Int.ofNat)
    (.ok (some out), { s with
      fullToSwa := if tail < extendNumTokens then
        assign mapping (out.take cut) ((out.take cut).map fun _ => 0) else mapping })

def allocExtendSwaTail (reqs : List ExtendReq) (extendNumTokens : Nat) (swaTailLen : Int) :
    Outcome :=
  let tail := swaTailLen.toNat
  if s.pageSize ≤ 1 then s.failed ""
  else if reqs.length ≠ 1 then s.failed "SWA tail allocation currently supports bs=1"
  else if ¬ (0 ≤ swaTailLen ∧ swaTailLen ≤ extendNumTokens) then s.failed ""
  else
    let full := s.full.allocExtend reqs extendNumTokens none
    let after := { s with full := full.2 }
    s.checked (getNumNewPages s.pageSize reqs) ((tail + s.pageSize - 1) / s.pageSize)
      (match full.1 with
      | none => after.failed ""
      | some out =>
        if tail = 0 then (.ok (some out), after) else after.linkTail out extendNumTokens tail)

def swaReqs (reqs : List DecodeReq) : List DecodeReq :=
  reqs.map fun r => { r with lastLoc := s.translateLoc r.lastLoc }

def allocDecode (reqs : List DecodeReq) : Outcome :=
  if s.pageSize ≤ 1 then s.failed ""
  else if s.full.ReadsNull reqs ∨ s.swa.ReadsNull (s.swaReqs reqs) then
    (.error .segmentationFault, s)
  else
    let full := s.full.allocDecode reqs
    let swa := s.swa.allocDecode (s.swaReqs reqs)
    let after := { s with full := full.2, swa := swa.2 }
    if full.1.isNone ∨ swa.1.isNone then (.ok none, after) else after.link full.1 swa.1

inductive Call where
  | alloc (needSize : Nat)
  | allocExtend (reqs : List ExtendReq) (extendNumTokens : Nat)
  | allocExtendSwaTail (reqs : List ExtendReq) (extendNumTokens : Nat) (swaTailLen : Int)
  | allocDecode (reqs : List DecodeReq)

def exec : Call → Outcome
  | .alloc needSize => s.alloc needSize
  | .allocExtend reqs tokens => s.allocExtend reqs tokens
  | .allocExtendSwaTail reqs tokens tail => s.allocExtendSwaTail reqs tokens tail
  | .allocDecode reqs => s.allocDecode reqs

end SWAAllocator

namespace PagedAllocator

variable (a : PagedAllocator) (reqs : List DecodeReq)

/-- The pool has the new pages of a decode batch, where it looks for them. -/
def CanDecode : Prop :=
  getNumNewPagesDecode a.pageSize reqs ≤
    if a.needSort then a.available.length else a.freePages.length

instance : Decidable (a.CanDecode reqs) := inferInstanceAs (Decidable (_ ≤ _))

theorem merged_short :
    (a.mergeIf (a.needSort ∧ reqs.length > a.freePages.length)).freePages.length <
      getNumNewPagesDecode a.pageSize reqs ↔ ¬ a.CanDecode reqs := by
  have few : getNumNewPagesDecode a.pageSize reqs ≤ reqs.length := length_filter_le _ _
  unfold CanDecode mergeIf available
  split
  · next merged =>
    have same := (mergeAndSortFree_available a).length_eq
    rw [mergeAndSortFree_release, append_nil] at same
    rw [if_pos merged.1, same, Nat.not_le]
  · next unmerged =>
    rw [length_append]
    split
    · next sorted =>
      have : ¬ reqs.length > a.freePages.length := fun short => unmerged ⟨sorted, short⟩
      omega
    · exact Nat.not_le.symm

/-- A decode that is served takes its new pages; one that is not leaves the pages. -/
theorem allocDecode_cases :
    (a.CanDecode reqs ∧ (a.allocDecode reqs).1.isNone = false ∧
      (a.allocDecode reqs).2.available.length + getNumNewPagesDecode a.pageSize reqs =
        a.available.length) ∨
    (¬ a.CanDecode reqs ∧ (a.allocDecode reqs).1.isNone = true ∧
      (a.allocDecode reqs).2.available.Perm a.available) := by
  have short := merged_short a reqs
  have same := mergeIf_available a (a.needSort ∧ reqs.length > a.freePages.length)
  rw [show a.allocDecode reqs = a.serve _ (getNumNewPagesDecode · reqs)
    (allocDecodeKernel · · 0 reqs)
    from rfl, serve, mergeIf_pageSize]
  split
  · next few => exact .inr ⟨short.mp few, rfl, same⟩
  · next many =>
    refine .inl ⟨not_not.mp (mt short.mpr many), rfl, ?_⟩
    have size := same.length_eq
    simp only [available, length_append, length_drop] at size ⊢
    omega

end PagedAllocator

namespace SWAAllocator

structure Unchanged (s after : SWAAllocator) : Prop where
  full : after.full.available.Perm s.full.available
  swa : after.swa.available.Perm s.swa.available
  map : after.fullToSwa = s.fullToSwa

def AllOrNothing (s : SWAAllocator) (o : Outcome) : Prop := o.1 = .ok none → s.Unchanged o.2

section

variable {s after : SWAAllocator}

theorem allOrNothing_failed (message : String) : s.AllOrNothing (after.failed message) := nofun

theorem allOrNothing_some (out : List Slot) : s.AllOrNothing (.ok (some out), after) := nofun

theorem allOrNothing_none : s.AllOrNothing (.ok none, s) := fun _ => ⟨.refl _, .refl _, rfl⟩

theorem allOrNothing_link (full swa : Option (List Slot)) :
    s.AllOrNothing (after.link full swa) := by
  unfold link
  split
  · exact allOrNothing_some _
  · exact allOrNothing_failed _

theorem allOrNothing_tested {o : Outcome} (fullPages swaPages : Nat) (served : s.AllOrNothing o) :
    s.AllOrNothing (s.checked fullPages swaPages o) := by
  unfold checked
  split_ifs
  · exact allOrNothing_none
  · exact allOrNothing_none
  · exact served

theorem allOrNothing_of_tests {call : Call} (tests : ∀ reqs, call ≠ .allocDecode reqs) :
    s.AllOrNothing (s.exec call) := by
  cases call with
  | alloc needSize =>
    dsimp only [exec, alloc]
    split_ifs
    · exact allOrNothing_failed _
    · exact allOrNothing_tested _ _ (allOrNothing_link _ _)
  | allocExtend reqs tokens =>
    dsimp only [exec, allocExtend]
    split_ifs
    · exact allOrNothing_failed _
    · exact allOrNothing_tested _ _ (allOrNothing_link _ _)
  | allocExtendSwaTail reqs tokens tail =>
    dsimp only [exec, allocExtendSwaTail]
    split_ifs
    any_goals exact allOrNothing_failed _
    all_goals
      refine allOrNothing_tested _ _ ?_
      split
      · exact allOrNothing_failed _
    · exact allOrNothing_some _
    · unfold linkTail
      dsimp only
      split
      · exact allOrNothing_failed _
      · exact allOrNothing_some _
  | allocDecode reqs => exact absurd rfl (tests reqs)

end

theorem canDecode_translated (s : SWAAllocator) (a : PagedAllocator) (reqs : List DecodeReq) :
    a.CanDecode (s.swaReqs reqs) ↔ a.CanDecode reqs := by
  simp [PagedAllocator.CanDecode, getNumNewPagesDecode, swaReqs, filter_map, Function.comp_def]

/-- A pool that serves a decode alone loses the pages, since the other one has too few. -/
theorem not_perm_of_served {a b : PagedAllocator} {reqs : List DecodeReq}
    (taken : (a.allocDecode reqs).2.available.length + getNumNewPagesDecode a.pageSize reqs =
      a.available.length)
    (pages : a.pageSize = b.pageSize) (short : ¬ b.CanDecode reqs) :
    ¬ (a.allocDecode reqs).2.available.Perm a.available := by
  intro kept
  have same := kept.length_eq
  refine short ?_
  have none : getNumNewPagesDecode b.pageSize reqs = 0 := by
    rw [← pages]
    omega
  rw [PagedAllocator.CanDecode, none]
  exact Nat.zero_le _

theorem allocDecode_allOrNothing_iff (s : SWAAllocator) (reqs : List DecodeReq)
    (pages : s.full.pageSize = s.swa.pageSize) (paged : ¬ s.pageSize ≤ 1)
    (reads : ¬ (s.full.ReadsNull reqs ∨ s.swa.ReadsNull (s.swaReqs reqs))) :
    s.AllOrNothing (s.allocDecode reqs) ↔ (s.full.CanDecode reqs ↔ s.swa.CanDecode reqs) := by
  have swa := s.swa.allocDecode_cases (s.swaReqs reqs)
  rw [canDecode_translated] at swa
  simp only [allocDecode, if_neg paged, if_neg reads]
  rcases s.full.allocDecode_cases reqs with ⟨can, served, taken⟩ | ⟨cannot, none, kept⟩ <;>
    rcases swa with ⟨can', served', taken'⟩ | ⟨cannot', none', kept'⟩
  · rw [if_neg (by simp [served, served'])]
    exact ⟨fun _ => ⟨fun _ => can', fun _ => can⟩, fun _ => allOrNothing_link _ _⟩
  · rw [if_pos (.inr none')]
    refine ⟨fun whole => ?_, fun both => absurd (both.mp can) cannot'⟩
    exact absurd (whole rfl).full (not_perm_of_served taken pages cannot')
  · rw [if_pos (.inl none)]
    refine ⟨fun whole => ?_, fun both => absurd (both.mpr can') cannot⟩
    exact absurd (whole rfl).swa (not_perm_of_served taken' pages.symm
      (mt (canDecode_translated s _ reqs).mp cannot))
  · rw [if_pos (.inl none)]
    exact ⟨fun _ => iff_of_false cannot cannot', fun _ _ => ⟨kept, kept', rfl⟩⟩

theorem hybrid_allOrNothing_iff (s : SWAAllocator) (call : Call)
    (pages : s.full.pageSize = s.swa.pageSize) :
    s.AllOrNothing (s.exec call) ↔ ∀ reqs, call = .allocDecode reqs → 1 < s.pageSize →
      ¬ (s.full.ReadsNull reqs ∨ s.swa.ReadsNull (s.swaReqs reqs)) →
      (s.full.CanDecode reqs ↔ s.swa.CanDecode reqs) := by
  cases call with
  | alloc | allocExtend | allocExtendSwaTail =>
    exact ⟨fun _ => nofun, fun _ => allOrNothing_of_tests nofun⟩
  | allocDecode reqs =>
    by_cases paged : s.pageSize ≤ 1
    · rw [exec, allocDecode, if_pos paged]
      exact ⟨fun _ _ _ big => absurd paged (Nat.not_le.mpr big), fun _ => allOrNothing_failed _⟩
    · by_cases reads : s.full.ReadsNull reqs ∨ s.swa.ReadsNull (s.swaReqs reqs)
      · rw [exec, allocDecode, if_neg paged, if_pos reads]
        exact ⟨fun _ reqs' same _ fine => absurd (Call.allocDecode.inj same ▸ reads) fine,
          fun _ => nofun⟩
      · rw [exec, allocDecode_allOrNothing_iff s reqs pages paged reads]
        exact ⟨fun both reqs' same _ _ => Call.allocDecode.inj same ▸ both,
          fun both => both reqs rfl (Nat.lt_of_not_le paged) reads⟩

def lowPages (fullPages : List Nat) : SWAAllocator where
  pageSize := 2
  full := { size := 4, pageSize := 2, needSort := false, freePages := fullPages }
  swa := { size := 4, pageSize := 2, needSort := false, freePages := [1] }
  fullToSwa := [0, 0, 0, 0, 0, 0, -1]

/-- Two requests need two pages, and both pools have one. -/
theorem hybrid_allOrNothing_both_short :
    ((lowPages [1]).exec (.allocDecode [⟨1, -1⟩, ⟨1, -1⟩])).1 = .ok none ∧
      (lowPages [1]).Unchanged ((lowPages [1]).exec (.allocDecode [⟨1, -1⟩, ⟨1, -1⟩])).2 := by
  have whole := (hybrid_allOrNothing_iff (lowPages [1]) (.allocDecode [⟨1, -1⟩, ⟨1, -1⟩])
    rfl).mpr fun _ same _ _ => Call.allocDecode.inj same ▸ by decide
  exact ⟨rfl, whole rfl⟩

/-- The decode returns `None`, and the full pages are gone. -/
theorem lowPages_lost :
    ¬ (lowPages [1, 2]).AllOrNothing ((lowPages [1, 2]).exec (.allocDecode [⟨1, -1⟩, ⟨1, -1⟩])) :=
  fun whole => absurd (whole rfl).full.length_eq (by decide)

end SWAAllocator

end RedKnot.Allocator
