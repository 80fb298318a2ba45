import RedKnot.MemCache.Allocator.Conservation

/-! The stores of `alloc_extend_naive`, `alloc_extend_kernel` and `alloc_decode_kernel` into
`out_indices`. A lane that is masked out holds some value. Lengths are natural numbers: a difference
that would be negative belongs to a part that the early return skips. -/

namespace RedKnot.Allocator

open Pages List Nat Option PagedAllocator ExtendReq

/-- `out_indices`, by index. -/
abbrev Memory := Nat → Int

def write (out : Memory) (base n : Nat) (value : Nat → Int) : Memory :=
  fun a => if base ≤ a ∧ a < base + n then value (a - base) else out a

/-- `tl.store(out + base + lane, value, mask=lane < count)` for the lanes below `lanes` -/
def storeLanes (out : Memory) (base lanes count : Nat) (value : Nat → Int) : Memory :=
  fun a => if base ≤ a ∧ a - base < lanes ∧ a - base < count then value (a - base) else out a

/-- `out[start:stop] = values`; the shapes have to agree. -/
def assignSlice (out : Memory) (start stop : Nat) (values : List Int) : Option Memory :=
  if values.length = stop - start then some (write out start (stop - start) (values.getD · 0))
  else none

/-- `if n: out[start:start + n] = values` -/
def assignSome (out : Memory) (start n : Nat) (values : List Int) : Option Memory :=
  if n ≠ 0 then assignSlice out start (start + n) values else some out

def ExtendReq.extendLen (r : ExtendReq) : Nat := r.seqLen - r.prefixLen

/-- `torch.cumsum` of a length of the requests, at index `i` -/
def cumsum (f : ExtendReq → Nat) (reqs : List ExtendReq) (i : Nat) : Nat :=
  ((reqs.take (i + 1)).map f).sum

/-- The body of the loop of `alloc_extend_naive`. -/
def naiveRequest (P : Nat) (freePages : List Nat) (reqs : List ExtendReq) (i : Nat) (r : ExtendReq)
    (out : Memory) : Option Memory := do
  let endPos := cumsum extendLen reqs i
  let startPos := endPos - r.extendLen
  let numNewPages := ceil P r.seqLen - ceil P r.prefixLen
  let numFullNewPages := r.seqLen / P - ceil P r.prefixLen
  let needPage := numNewPages - numFullNewPages
  let endNewPages := cumsum (newPages P) reqs i
  let startNewPages := endNewPages - numNewPages
  let posInPage := (range P).map Int.ofNat
  let num1 := min r.seqLen (ceil P r.prefixLen * P) - r.prefixLen
  let out ← assignSome out startPos num1 ((posInPage.take num1).map (r.lastLoc + 1 + ·))
  if r.prefixLen + num1 = r.seqLen then some out
  else
    let num2 := (r.seqLen / P - ceil P r.prefixLen) * P
    let pages := ((freePages.drop startNewPages).take (endNewPages - needPage - startNewPages)).map
      (fun q : Nat => (q : Int) * P)
    let out ← assignSome out (startPos + num1) num2
      (pages.flatMap (fun page => posInPage.map (page + ·)))
    if r.prefixLen + num1 + num2 = r.seqLen then some out
    else
      let num3 := r.seqLen - r.seqLen / P * P
      if num3 ≠ 0 then do
        let page ← freePages[endNewPages - 1]?
        assignSlice out (endPos - num3) endPos
          ((posInPage.take num3).map ((page : Int) * P + ·))
      else some out

def allocExtendNaive (P : Nat) (freePages : List Nat) (reqs : List ExtendReq) (out : Memory) :
    Option Memory :=
  (range reqs.length).foldlM
    (fun out i => (reqs[i]?).bind fun r => naiveRequest P freePages reqs i r out) out

/-- `tl.load(ptr + lane, mask=lane <= pid)`; `masked` is what a lane holds that is masked out. -/
def load (ptr masked : Nat → Nat) (pid lane : Nat) : Nat :=
    if lane ≤ pid then ptr lane else masked lane

/-- `tl.sum` over the lanes of `tl.arange(0, bs_upper)` -/
def sumLanes (bsUpper : Nat) (f : Nat → Nat) : Nat := ((range bsUpper).map f).sum

def column {α : Type} (f : α → Nat) (reqs : List α) (i : Nat) : Nat := ((reqs[i]?).map f).getD 0

/-- One store of `BLOCK_EXTEND` lanes. -/
def blockExtend : Nat := 4096

def extendProgram (P bsUpper : Nat) (maskedSeq maskedPre : Nat → Nat) (freePages : List Nat)
    (reqs : List ExtendReq) (pid : Nat) (r : ExtendReq) (out : Memory) : Memory :=
  let seqLens := load (column seqLen reqs) maskedSeq pid
  let preLens := load (column prefixLen reqs) maskedPre pid
  let extendLen := r.seqLen - r.prefixLen
  let sumExtendLens := sumLanes bsUpper (fun o => seqLens o - preLens o)
  let outputStartLoc := sumExtendLens - extendLen
  let numPageStartLocSelf := ceil P r.seqLen - ceil P r.prefixLen
  let sumNumNewPages := sumLanes bsUpper (fun o => ceil P (seqLens o) - ceil P (preLens o))
  let newPageStartLoc := sumNumNewPages - numPageStartLocSelf
  let numPart1 := min r.seqLen (ceil P r.prefixLen * P) - r.prefixLen
  let out := storeLanes out outputStartLoc P numPart1 (fun o => r.lastLoc + 1 + o)
  if r.prefixLen + numPart1 = r.seqLen then out
  else
    let numPart2 := r.seqLen / P * P - ceil P r.prefixLen * P
    let numBlocks := (numPart2 + blockExtend - 1) / blockExtend
    let out := (range numBlocks).foldl
      (fun out blockId =>
        let start := blockId * blockExtend
        storeLanes out (outputStartLoc + numPart1 + start) blockExtend (numPart2 - start)
          (fun o => freePages.getD (newPageStartLoc + (start + o) / P) 0 * P +
            ((start + o) % P : Nat)))
      out
    if r.prefixLen + numPart1 + numPart2 = r.seqLen then out
    else
      let numPart3 := r.seqLen - r.seqLen / P * P
      let startLoc := freePages.getD (newPageStartLoc + numPageStartLocSelf - 1) 0
      storeLanes out (outputStartLoc + numPart1 + numPart2) P numPart3 (fun o => startLoc * P + o)

/-- Triton compiles `tl.arange(0, page_size)` for powers of two only. -/
def launchExtend (P bsUpper : Nat) (maskedSeq maskedPre : Nat → Nat) (freePages : List Nat)
    (reqs : List ExtendReq) (order : List Nat) (out : Memory) : Option Memory :=
  if PowerOfTwo P then
    some (order.foldl (fun out pid => ((reqs[pid]?).map fun r =>
      extendProgram P bsUpper maskedSeq maskedPre freePages reqs pid r out).getD out) out)
  else none

def decodeProgram (P bsUpper : Nat) (masked : Nat → Nat) (freePages : List Nat)
    (reqs : List DecodeReq) (pid : Nat) (r : DecodeReq) (out : Memory) : Memory :=
  let seqLens := load (column DecodeReq.seqLen reqs) masked pid
  let preLens := fun o => if o ≤ pid then seqLens o - 1 else seqLens o
  let preLen := r.seqLen - 1
  let numPageStartLocSelf := ceil P r.seqLen - ceil P preLen
  let sumNumNewPages := sumLanes bsUpper (fun o => ceil P (seqLens o) - ceil P (preLens o))
  let newPageStartLoc := sumNumNewPages - numPageStartLocSelf
  if numPageStartLocSelf = 0 then write out pid 1 (fun _ => r.lastLoc + 1)
  else write out pid 1 (fun _ => freePages.getD newPageStartLoc 0 * P)

def launchDecode (P bsUpper : Nat) (masked : Nat → Nat) (freePages : List Nat)
    (reqs : List DecodeReq) (order : List Nat) (out : Memory) : Memory :=
  order.foldl (fun out pid =>
    ((reqs[pid]?).map fun r => decodeProgram P bsUpper masked freePages reqs pid r out).getD out)
      out

variable {P : Nat}

section

variable (out : Memory)

theorem write_zero (base : Nat) (value : Nat → Int) : write out base 0 value = out := by
  funext a
  rw [write, if_neg (by omega)]

theorem write_write (base m n : Nat) (value : Nat → Int) :
    write (write out base m value) (base + m) n (fun o => value (m + o)) =
      write out base (m + n) value := by
  funext a
  unfold write
  by_cases second : base + m ≤ a ∧ a < base + m + n
  · rw [if_pos second, if_pos (by omega)]
    exact congrArg value (by omega)
  · rw [if_neg second]
    by_cases first : base ≤ a ∧ a < base + m
    · rw [if_pos first, if_pos (by omega)]
    · rw [if_neg first, if_neg (by omega)]

theorem write_congr (base n : Nat) {value value' : Nat → Int}
    (same : ∀ o < n, value o = value' o) : write out base n value = write out base n value' := by
  funext a
  unfold write
  by_cases inside : base ≤ a ∧ a < base + n
  · rw [if_pos inside, if_pos inside, same _ (by omega)]
  · rw [if_neg inside, if_neg inside]

theorem write_append (base : Nat) {m n : Nat} {first second value : Nat → Int}
    (left : ∀ o < m, first o = value o) (right : ∀ o < n, second o = value (m + o)) :
    write (write out base m first) (base + m) n second = write out base (m + n) value := by
  rw [write_congr out base m left, write_congr _ _ _ right, write_write]

theorem storeLanes_eq_write (base lanes count : Nat) (value : Nat → Int) :
    storeLanes out base lanes count value = write out base (min lanes count) value := by
  funext a
  unfold storeLanes write
  exact if_congr (by omega) rfl rfl

end

theorem blocks_eq_write {B : Nat} (pos : 0 < B) (out : Memory) (base count : Nat)
    (value : Nat → Int) (k : Nat) :
    (range k).foldl
      (fun out b => storeLanes out (base + b * B) B (count - b * B) (fun o => value (b * B + o)))
        out =
      write out base (min (k * B) count) value := by
  induction k with
  | zero => rw [Nat.zero_mul, Nat.zero_min, write_zero, range_zero, foldl_nil]
  | succ k ih =>
    rw [range_succ, foldl_append, ih, foldl_cons, foldl_nil, storeLanes_eq_write, succ_mul]
    by_cases inside : k * B ≤ count
    · rw [Nat.min_eq_left inside, write_write]
      congr 1
      omega
    · rw [Nat.sub_eq_zero_of_le (by omega), Nat.min_zero, write_zero, Nat.min_eq_right (by omega),
        Nat.min_eq_right (by omega)]

variable {i j k n o : Nat}

theorem assignSlice_eq (out : Memory) {start stop : Nat} {values : List Int} {value : Nat → Int}
    (span : stop - start = n) (length : values.length = n)
    (entries : ∀ o < n, values.getD o 0 = value o) :
    assignSlice out start stop values = some (write out start n value) := by
  rw [assignSlice, if_pos (by rw [length, span]), span, write_congr out start n entries]

theorem assignSome_eq (out : Memory) {start : Nat} {values : List Int} (value : Nat → Int)
    (length : values.length = n) (entries : ∀ o < n, values.getD o 0 = value o) :
    assignSome out start n values = some (write out start n value) := by
  unfold assignSome
  split
  · exact assignSlice_eq out (Nat.add_sub_cancel_left _ _) length entries
  · next none_new =>
    obtain rfl : n = 0 := by omega
    rw [write_zero]

theorem getD_page_take (inside : o < n) (short : n ≤ P) (offset : Int) :
    ((((range P).map Int.ofNat).take n).map (offset + ·)).getD o 0 = offset + o := by
  rw [← map_take, take_range, Nat.min_eq_left short, List.map_map]
  simp [getD_eq_getElem?_getD, getElem?_map, getElem?_range inside]

theorem length_page_take (short : n ≤ P) (offset : Int) :
    ((((range P).map Int.ofNat).take n).map (offset + ·)).length = n := by
  simp [short]

theorem pages_flatMap (pages : List Nat) : (pages.map (fun q : Nat => (q : Int) * P)).flatMap
      (fun page => ((range P).map Int.ofNat).map (page + ·)) =
      (slots P pages).map Int.ofNat := by
  rw [slots, map_flatMap, flatMap_map]
  refine flatMap_congr fun q _ => ?_
  rw [List.map_map, List.map_map]
  refine map_congr_left fun o _ => ?_
  simp

def before {α : Type} (f : α → Nat) (reqs : List α) (i : Nat) : Nat :=
  ((reqs.take i).map f).sum

section

variable {α : Type} (f : α → Nat)

theorem before_succ {reqs : List α} {r : α}
    (here : reqs[i]? = some r) : before f reqs (i + 1) = before f reqs i + f r := by
  rw [before, before, take_add_one, here, toList_some, map_append, List.sum_append,
    map_singleton, sum_singleton]

theorem before_mono (reqs : List α) (h : i ≤ j) : before f reqs i ≤ before f reqs j := by
  obtain ⟨d, rfl⟩ := Nat.exists_eq_add_of_le h
  rw [before, before, take_add, map_append, List.sum_append]
  exact Nat.le_add_right _ _

theorem before_all {reqs : List α} (h : reqs.length ≤ i) :
    before f reqs i = (reqs.map f).sum := by rw [before, take_of_length_le h]

end

theorem cumsum_eq (f : ExtendReq → Nat) {reqs : List ExtendReq} {r : ExtendReq}
    (here : reqs[i]? = some r) : cumsum f reqs i = before f reqs i + f r := before_succ f here

theorem sumLanes_masked {bsUpper pid : Nat} {f : Nat → Nat} (inside : pid < bsUpper)
    (masked : ∀ o, pid < o → f o = 0) : sumLanes bsUpper f = ((range (pid + 1)).map f).sum := by
  obtain ⟨d, rfl⟩ := Nat.exists_eq_add_of_le inside
  rw [sumLanes, range_add, map_append, List.sum_append, List.map_map]
  have none_left : ((range d).map (f ∘ (pid + 1 + ·))).sum = 0 := by
    rw [sum_eq_zero_iff]
    intro x hx
    obtain ⟨o, -, rfl⟩ := mem_map.mp hx
    exact masked (pid + 1 + o) (by omega)
  exact none_left ▸ Nat.add_zero _

theorem sum_range_column {α : Type} (f : α → Nat) (reqs : List α) (g : Nat → Nat)
    (short : k ≤ reqs.length) (same : ∀ i r, i < k → reqs[i]? = some r → g i = f r) :
    ((range k).map g).sum = ((reqs.take k).map f).sum := by
  induction k with
  | zero => simp
  | succ k ih =>
    have here : reqs[k]? = some (reqs.get ⟨k, short⟩) := getElem?_eq_getElem short
    rw [range_succ, map_append, List.sum_append,
      ih (by omega) fun i r hi => same i r (by omega), take_add_one, here, toList_some,
      map_append, List.sum_append]
    simp [same k _ (lt_succ_self k) here]

section Place

variable {reqs : List ExtendReq} {bsUpper pid : Nat} {masked maskedSeq maskedPre : Nat → Nat}
  {r : ExtendReq}

theorem load_of_le {ptr : Nat → Nat} {lane : Nat} (h : lane ≤ pid) :
    load ptr masked pid lane = ptr lane := if_pos h

theorem load_of_lt {ptr : Nat → Nat} {lane : Nat} (h : pid < lane) :
    load ptr masked pid lane = masked lane := if_neg (by omega)

theorem column_eq {α : Type} {f : α → Nat} {l : List α} {x : α} (here : l[i]? = some x) :
    column f l i = f x := by rw [column, here, map_some, getD_some]

theorem sumLanes_load (alike : ∀ lane, maskedSeq lane = maskedPre lane) (g : Nat → Nat → Nat)
    (cancel : ∀ n, g n n = 0) (here : reqs[pid]? = some r) (upper : reqs.length ≤ bsUpper) :
    sumLanes bsUpper (fun o => g (load (column seqLen reqs) maskedSeq pid o)
      (load (column prefixLen reqs) maskedPre pid o)) =
      before (fun r => g r.seqLen r.prefixLen) reqs (pid + 1) := by
  have inside := (List.getElem?_eq_some_iff.mp here).1
  rw [sumLanes_masked (inside.trans_le upper)]
  · refine sum_range_column _ reqs _ inside fun i r' hi here' => ?_
    rw [load_of_le (by omega), load_of_le (by omega), column_eq here', column_eq here']
  · intro o ho
    rw [load_of_lt ho, load_of_lt ho, alike, cancel]

end Place

/-- The slot of position `p` of a request: the page of the last token first, then new pages. -/
def extendSlot (P : Nat) (freePages : List Nat) (start : Nat) (r : ExtendReq) (p : Nat) : Int :=
  if p < ceil P r.prefixLen * P then r.lastLoc + 1 + ((p - r.prefixLen : Nat) : Int)
  else (freePages.getD (start + (p / P - ceil P r.prefixLen)) 0 : Int) * P + ((p % P : Nat) : Int)

section One

variable {r : ExtendReq} {freePages : List Nat} {start : Nat}

theorem extendSlot_old (h : r.prefixLen + o < ceil P r.prefixLen * P) :
    extendSlot P freePages start r (r.prefixLen + o) = r.lastLoc + 1 + o := by
  rw [extendSlot, if_pos h, Nat.add_sub_cancel_left]

theorem extendSlot_new (pos : 0 < P) : extendSlot P freePages start r (ceil P r.prefixLen * P + o) =
      freePages.getD (start + o / P) 0 * P + (o % P : Nat) := by
  rw [extendSlot, if_neg (by omega), Nat.mul_comm, mul_add_div pos, mul_add_mod,
    Nat.add_sub_cancel_left]

theorem ceil_le_of_beyond (grows : r.prefixLen ≤ r.seqLen)
    (beyond : r.prefixLen + (min r.seqLen (ceil P r.prefixLen * P) - r.prefixLen) ≠ r.seqLen)
    (pos : 0 < P) : ceil P r.prefixLen * P < r.seqLen ∧ ceil P r.prefixLen ≤ r.seqLen / P := by
  have less : ceil P r.prefixLen * P < r.seqLen := by omega
  exact ⟨less, (Nat.le_div_iff_mul_le pos).mpr less.le⟩

theorem newPages_of_left (pos : 0 < P) (full : ceil P r.prefixLen ≤ r.seqLen / P)
    (cut : r.seqLen % P ≠ 0) : r.newPages P = r.seqLen / P - ceil P r.prefixLen + 1 := by
  rw [newPages, ceil_of_not_dvd pos cut]
  omega

theorem num1_lt (pos : 0 < P) (r : ExtendReq) :
    min r.seqLen (ceil P r.prefixLen * P) - r.prefixLen < P := by
  have := ceil_mul_lt pos r.prefixLen
  omega

theorem extendSlot_last (pos : 0 < P) (full : ceil P r.prefixLen ≤ r.seqLen / P)
    (cut : r.seqLen % P ≠ 0) (small : o < P) :
    extendSlot P freePages start r (r.seqLen / P * P + o) =
      freePages.getD (start + r.newPages P - 1) 0 * P + o := by
  have fullMul := Nat.mul_le_mul_right P full
  rw [extendSlot, if_neg (by omega), Nat.mul_comm (r.seqLen / P) P, mul_add_div pos, mul_add_mod,
    div_eq_of_lt small, mod_eq_of_lt small, newPages_of_left pos full cut]
  rfl

theorem cut_of_left (full : ceil P r.prefixLen ≤ r.seqLen / P)
    (above : r.prefixLen ≤ ceil P r.prefixLen * P)
    (left : r.prefixLen + (ceil P r.prefixLen * P - r.prefixLen) +
      (r.seqLen / P * P - ceil P r.prefixLen * P) ≠ r.seqLen) : r.seqLen % P ≠ 0 := by
  intro paged
  have := Nat.div_mul_cancel (dvd_of_mod_eq_zero paged)
  have := Nat.mul_le_mul_right P full
  omega

end One

def writeRequest (P : Nat) (freePages : List Nat) (reqs : List ExtendReq) (i : Nat) (r : ExtendReq)
    (out : Memory) : Memory :=
  write out (before extendLen reqs i) r.extendLen
    (fun o => extendSlot P freePages (before (newPages P) reqs i) r (r.prefixLen + o))

section Programs

variable {freePages : List Nat} {reqs : List ExtendReq} {r : ExtendReq}

/-- Both programs write the rest of the last page, the full new pages and the beginning of another
one. -/
theorem writeRequest_eq (pos : 0 < P) (grows : r.prefixLen ≤ r.seqLen) (out : Memory) (i : Nat) :
    writeRequest P freePages reqs i r out =
      let base := before extendLen reqs i
      let start := before (newPages P) reqs i
      let num1 := min r.seqLen (ceil P r.prefixLen * P) - r.prefixLen
      let num2 := r.seqLen / P * P - ceil P r.prefixLen * P
      let out1 := write out base num1 (fun o => r.lastLoc + 1 + (o : Int))
      let out2 := write out1 (base + num1) num2
        (fun o => (freePages.getD (start + o / P) 0 : Int) * P + ((o % P : Nat) : Int))
      if r.prefixLen + num1 = r.seqLen then out1
      else if r.prefixLen + num1 + num2 = r.seqLen then out2
      else write out2 (base + num1 + num2) (r.seqLen - r.seqLen / P * P)
        (fun o => (freePages.getD (start + r.newPages P - 1) 0 : Int) * P + o) := by
  have above := ceil_mul_ge pos r.prefixLen
  unfold writeRequest
  dsimp only
  generalize before (newPages P) reqs i = start
  have old : ∀ o < min r.seqLen (ceil P r.prefixLen * P) - r.prefixLen, r.lastLoc + 1 + (o : Int) =
      extendSlot P freePages start r (r.prefixLen + o) :=
    fun o ho => (extendSlot_old (by omega)).symm
  split
  · next done =>
    rw [write_congr _ _ _ old, extendLen]
    congr 1
    omega
  · next beyond =>
    obtain ⟨less, full⟩ := ceil_le_of_beyond grows beyond pos
    have fullMul := Nat.mul_le_mul_right P full
    have span := div_mul_le_self r.seqLen P
    rw [Nat.min_eq_right less.le] at old ⊢
    rw [write_append _ _ old fun o _ => ?_]
    · split
      · rw [extendLen]
        congr 1
        omega
      · next left =>
        rw [Nat.add_assoc, write_append _ _ (fun _ _ => rfl) fun o ho => ?_, extendLen]
        · congr 1
          omega
        · have size := lt_div_mul_add pos (a := r.seqLen)
          rw [← extendSlot_last pos full (cut_of_left full above left) (by omega)]
          exact congrArg _ (by omega)
    · rw [← extendSlot_new (r := r) pos]
      exact congrArg _ (by omega)

theorem num3_lt (pos : 0 < P) (n : Nat) : n - n / P * P < P := by
  have := lt_div_mul_add pos (a := n)
  omega

theorem extendProgram_eq (pos : 0 < P) {bsUpper pid : Nat} {maskedSeq maskedPre : Nat → Nat}
    (alike : ∀ lane, maskedSeq lane = maskedPre lane) (here : reqs[pid]? = some r)
    (upper : reqs.length ≤ bsUpper) (grows : r.prefixLen ≤ r.seqLen) (out : Memory) :
    extendProgram P bsUpper maskedSeq maskedPre freePages reqs pid r out =
      writeRequest P freePages reqs pid r out := by
  have places : sumLanes bsUpper (fun o => load (column seqLen reqs) maskedSeq pid o -
      load (column prefixLen reqs) maskedPre pid o) - (r.seqLen - r.prefixLen) =
      before extendLen reqs pid := by
    rw [sumLanes_load alike (fun a b => a - b) Nat.sub_self here upper, before_succ _ here]
    exact Nat.add_sub_cancel _ _
  have pages : sumLanes bsUpper (fun o => ceil P (load (column seqLen reqs) maskedSeq pid o) -
      ceil P (load (column prefixLen reqs) maskedPre pid o)) -
      (ceil P r.seqLen - ceil P r.prefixLen) = before (newPages P) reqs pid := by
    rw [sumLanes_load alike (fun a b => ceil P a - ceil P b) (fun _ => Nat.sub_self _) here upper,
      before_succ _ here]
    exact Nat.add_sub_cancel _ _
  have cover : ∀ n, min ((n + blockExtend - 1) / blockExtend * blockExtend) n = n :=
    fun n => Nat.min_eq_right (ceil_mul_ge (by decide) n)
  rw [writeRequest_eq pos grows]
  unfold extendProgram
  dsimp only
  rw [places, pages, storeLanes_eq_write, Nat.min_eq_right (num1_lt pos r).le,
    blocks_eq_write (B := blockExtend) (by decide) _ _ _
      (fun o => (freePages.getD (before (newPages P) reqs pid + o / P) 0 : Int) * P +
        ((o % P : Nat) : Int)), cover, storeLanes_eq_write,
    Nat.min_eq_right (num3_lt pos r.seqLen).le]
  rfl

theorem naiveRequest_eq (pos : 0 < P) (here : reqs[i]? = some r) (grows : r.prefixLen ≤ r.seqLen)
    (enough : before (newPages P) reqs i + r.newPages P ≤ freePages.length) (out : Memory) :
    naiveRequest P freePages reqs i r out = some (writeRequest P freePages reqs i r out) := by
  have above := ceil_mul_ge pos r.prefixLen
  have short := num1_lt pos r
  rw [writeRequest_eq pos grows]
  unfold naiveRequest
  dsimp only
  rw [cumsum_eq _ here, cumsum_eq _ here, Nat.add_sub_cancel]
  rw [assignSome_eq out _ (length_page_take short.le _) fun o ho => getD_page_take ho short.le _,
    bind_eq_bind, bind_some]
  generalize before (newPages P) reqs i = start at *
  generalize before extendLen reqs i = base
  split
  · rfl
  · next beyond =>
    obtain ⟨less, full⟩ := ceil_le_of_beyond grows beyond pos
    have more : r.seqLen / P ≤ ceil P r.seqLen := by
      rw [← ceil_mul pos (r.seqLen / P)]
      exact ceil_mono pos (div_mul_le_self _ _)
    have count : start + r.newPages P -
        (ceil P r.seqLen - ceil P r.prefixLen - (r.seqLen / P - ceil P r.prefixLen)) -
        start = r.seqLen / P - ceil P r.prefixLen := by
      rw [newPages]
      omega
    have room : start + (r.seqLen / P - ceil P r.prefixLen) ≤
        freePages.length := by
      rw [newPages] at enough
      omega
    have self : start + r.newPages P -
        (ceil P r.seqLen - ceil P r.prefixLen) = start :=
      Nat.add_sub_cancel _ _
    rw [self, count, pages_flatMap, ← taken, assignSome_eq _ (fun o =>
        (freePages.getD (start + o / P) 0 : Int) * P +
          ((o % P : Nat) : Int)) (by rw [length_map, length_slots, length_taken room]),
      bind_some, Nat.sub_mul]
    · split
      · rfl
      · next left =>
        rw [Nat.min_eq_right less.le] at left ⊢
        have cut := cut_of_left full above left
        have rest := num3_lt pos r.seqLen
        have some_left : r.seqLen - r.seqLen / P * P ≠ 0 := by
          have split := div_add_mod' r.seqLen P
          generalize r.seqLen % P = m at split cut
          omega
        have newPos := newPages_of_left pos full cut
        have inside : start + r.newPages P - 1 <
          freePages.length := by
          omega
        have fullMul := Nat.mul_le_mul_right P full
        have length : base + r.extendLen -
            (r.seqLen - r.seqLen / P * P) = base +
              (ceil P r.prefixLen * P - r.prefixLen) +
                (r.seqLen / P * P - ceil P r.prefixLen * P) := by
          rw [extendLen]
          omega
        have span : base + r.extendLen -
            (base + r.extendLen - (r.seqLen - r.seqLen / P * P)) =
            r.seqLen - r.seqLen / P * P := by
          rw [extendLen]
          omega
        rw [if_pos some_left, getElem?_eq_getElem inside, bind_eq_bind, bind_some,
          assignSlice_eq _ span (length_page_take rest.le _) fun o ho =>
            getD_page_take ho rest.le _,
          length, ← getD_eq_getElem _ 0 inside]
    · intro o ho
      have page : o / P < r.seqLen / P - ceil P r.prefixLen := (Nat.div_lt_iff_lt_mul pos).mpr ho
      rw [slots_eq_map pos, List.map_map, length_taken room, getD_eq_getElem?_getD,
        getElem?_map, getElem?_range ho, map_some, getD_some,
        Function.comp_apply, slotAt, getD_taken page]
      simp

end Programs

section Batch

variable {freePages : List Nat} {reqs : List ExtendReq}

theorem before_add_le {α : Type} {f : α → Nat} {reqs : List α} {r : α} (here : reqs[i]? = some r)
    (less : i < j) : before f reqs i + f r ≤ before f reqs j := by
  rw [← before_succ f here]
  exact before_mono f reqs less

theorem write_comm {b b' n' : Nat} {v v' : Nat → Int} (apart : b + n ≤ b' ∨ b' + n' ≤ b)
    (out : Memory) : write (write out b n v) b' n' v' = write (write out b' n' v') b n v := by
  funext a
  unfold write
  by_cases first : b ≤ a ∧ a < b + n
  · rw [if_pos first, if_neg (by omega), if_pos first]
  · rw [if_neg first, if_neg first]

def writeAt (P : Nat) (freePages : List Nat) (reqs : List ExtendReq) (out : Memory) (i : Nat) :
    Memory :=
  ((reqs[i]?).map fun r => writeRequest P freePages reqs i r out).getD out

theorem writeAt_eq {r : ExtendReq} (here : reqs[i]? = some r) (out : Memory) :
    writeAt P freePages reqs out i = writeRequest P freePages reqs i r out := by
  rw [writeAt, here, map_some, getD_some]

theorem writeAt_comm (out : Memory) (i j : Nat) :
    writeAt P freePages reqs (writeAt P freePages reqs out i) j =
      writeAt P freePages reqs (writeAt P freePages reqs out j) i := by
  cases hi : reqs[i]? with
  | none => simp [writeAt, hi]
  | some r =>
    cases hj : reqs[j]? with
    | none => simp [writeAt, hj]
    | some r' =>
      rw [writeAt_eq hi, writeAt_eq hj, writeAt_eq hj, writeAt_eq hi]
      rcases Nat.lt_trichotomy i j with less | rfl | more
      · exact write_comm (.inl (before_add_le hi less)) out
      · cases Option.some.inj (hi.symm.trans hj)
        rfl
      · exact write_comm (.inr (before_add_le hj more)) out

def writeBatch (P : Nat) (freePages : List Nat) (reqs : List ExtendReq) (n : Nat) (out : Memory) :
    Memory := (range n).foldl (writeAt P freePages reqs) out

theorem launchExtend_eq (pos : 0 < P) (compiles : PowerOfTwo P) {bsUpper : Nat}
    {maskedSeq maskedPre : Nat → Nat} (alike : ∀ lane, maskedSeq lane = maskedPre lane)
    {order : List Nat} (grows : ∀ r ∈ reqs, r.prefixLen ≤ r.seqLen) (upper : reqs.length ≤ bsUpper)
    (all : order.Perm (range reqs.length)) (out : Memory) :
    launchExtend P bsUpper maskedSeq maskedPre freePages reqs order out =
      some (writeBatch P freePages reqs reqs.length out) := by
  have same : ∀ out pid, ((reqs[pid]?).map fun r =>
      extendProgram P bsUpper maskedSeq maskedPre freePages reqs pid r out).getD out =
      writeAt P freePages reqs out pid := by
    intro out pid
    cases here : reqs[pid]? with
    | none => simp [writeAt, here]
    | some r =>
      rw [writeAt_eq here, map_some, getD_some,
        extendProgram_eq pos alike here upper (grows r (mem_of_getElem? here))]
  rw [launchExtend, if_pos compiles, writeBatch, funext fun out => funext fun pid => same out pid]
  exact congrArg some (all.foldl_eq' (fun i _ j _ z => writeAt_comm z i j) out)

theorem getNumNewPages_eq (reqs : List ExtendReq) :
    getNumNewPages P reqs = before (newPages P) reqs reqs.length :=
  (before_all _ le_rfl).symm

theorem allocExtendNaive_eq (pos : 0 < P) (grows : ∀ r ∈ reqs, r.prefixLen ≤ r.seqLen)
    (enough : getNumNewPages P reqs ≤ freePages.length) (out : Memory) :
    allocExtendNaive P freePages reqs out = some (writeBatch P freePages reqs reqs.length out) := by
  have upTo : ∀ n ≤ reqs.length, (range n).foldlM
      (fun out i => (reqs[i]?).bind fun r => naiveRequest P freePages reqs i r out) out =
      some (writeBatch P freePages reqs n out) := by
    intro n hn
    induction n with
    | zero => rfl
    | succ n ih =>
      have here : reqs[n]? = some (reqs.get ⟨n, hn⟩) := getElem?_eq_getElem hn
      have room := (before_add_le (f := newPages P) here hn).trans
        ((getNumNewPages_eq reqs).symm.trans_le enough)
      rw [range_succ, foldlM_append, ih (by omega), bind_eq_bind, bind_some,
        foldlM_cons, here, bind_some,
        naiveRequest_eq pos here (grows _ (get_mem _ _)) room, bind_eq_bind,
        bind_some, foldlM_nil, writeBatch, writeBatch, range_succ,
        foldl_append, foldl_cons, foldl_nil, writeAt_eq here]
      rfl
  exact upTo _ le_rfl

theorem writeBatch_at {r : ExtendReq} (here : reqs[i]? = some r) (less : i < n)
    (inside : o < r.extendLen) (out : Memory) :
    writeBatch P freePages reqs n out (before extendLen reqs i + o) =
      extendSlot P freePages (before (newPages P) reqs i) r (r.prefixLen + o) := by
  induction n with
  | zero => omega
  | succ n ih =>
    rw [writeBatch, range_succ, foldl_append, ← writeBatch, foldl_cons, foldl_nil]
    by_cases last : i = n
    · subst last
      rw [writeAt_eq here, writeRequest, write, if_pos (by omega), Nat.add_sub_cancel_left]
    · have earlier : i < n := by omega
      have ends := before_add_le (f := extendLen) here earlier
      cases hn : reqs[n]? with
      | none => rw [writeAt, hn, map_none, getD_none, ih earlier]
      | some r' => rw [writeAt_eq hn, writeRequest, write, if_neg (by omega), ih earlier]

def extendPage (P : Nat) (freePages : List Nat) (start : Nat) (r : ExtendReq) (p : Nat) : Int :=
  if p < ceil P r.prefixLen * P then r.lastLoc / P
  else (freePages.getD (start + (p / P - ceil P r.prefixLen)) 0 : Int)

theorem extendSlot_eq (pos : 0 < P) {r : ExtendReq} {start p : Nat} (old : r.prefixLen ≤ p)
    (consistent : r.lastLoc % P = ((r.prefixLen : Int) - 1) % P) :
    extendSlot P freePages start r p = extendPage P freePages start r p * P + (p % P : Nat) := by
  unfold extendSlot extendPage
  split
  · next inside =>
    have cut : r.prefixLen % P ≠ 0 := by
      intro paged
      have := ceil_of_dvd pos paged
      omega
    rw [ceil_of_not_dvd pos cut, succ_mul] at inside
    obtain ⟨m, hm⟩ : ∃ m, r.prefixLen % P = m + 1 := ⟨r.prefixLen % P - 1, by omega⟩
    have split := div_add_mod' r.prefixLen P
    have small := mod_lt r.prefixLen pos
    have rem : r.lastLoc % P = m := by
      have shape : (r.prefixLen : Int) - 1 = m + P * ((r.prefixLen / P : Nat) : Int) := by
        rw [← cast_mul, Nat.mul_comm P]
        omega
      rw [consistent, shape, Int.add_mul_emod_self_left, Int.emod_eq_of_lt (by omega) (by omega)]
    have place : p % P = m + 1 + (p - r.prefixLen) := by
      have shape : p = r.prefixLen / P * P + (m + 1 + (p - r.prefixLen)) := by omega
      rw [shape, Nat.mul_comm, mul_add_mod, ← Nat.mul_comm, ← shape]
      exact mod_eq_of_lt (by omega)
    have whole := Int.mul_ediv_add_emod r.lastLoc P
    rw [rem, Int.mul_comm] at whole
    rw [place]
    omega
  · rfl

/-- The slot that the batch gets for position `p` of request `i`. -/
def slotOf (reqs : List ExtendReq) (out : Memory) (i : Nat) (r : ExtendReq) (p : Nat) : Int :=
  out (before extendLen reqs i + (p - r.prefixLen))

theorem slotOf_writeBatch (pos : 0 < P) {p : Nat} {r : ExtendReq} (here : reqs[i]? = some r)
    (old : r.prefixLen ≤ p) (new : p < r.seqLen)
    (consistent : r.lastLoc % P = ((r.prefixLen : Int) - 1) % P) (out : Memory) :
    slotOf reqs (writeBatch P freePages reqs reqs.length out) i r p =
      extendPage P freePages (before (newPages P) reqs i) r p * P + (p % P : Nat) := by
  have inside := (List.getElem?_eq_some_iff.mp here).1
  rw [slotOf, writeBatch_at here inside (by rw [extendLen]; omega),
    Nat.add_sub_cancel' old, extendSlot_eq pos old consistent]

theorem place_lt (pos : 0 < P) {p : Nat} {r : ExtendReq}
    (beyond : ceil P r.prefixLen * P ≤ p) (new : p < r.seqLen) :
    p / P - ceil P r.prefixLen < r.newPages P := by
  have first : ceil P r.prefixLen ≤ p / P := (Nat.le_div_iff_mul_le pos).mpr beyond
  have last : p / P < ceil P r.seqLen := by
    rw [← Nat.not_le, ceil_le_iff pos, Nat.not_le]
    exact (div_mul_le_self p P).trans_lt new
  rw [newPages]
  omega

theorem exists_place (f : ExtendReq → Nat) (h : k < before f reqs n) :
    ∃ i r, reqs[i]? = some r ∧ before f reqs i ≤ k ∧ k < before f reqs i + f r := by
  induction n with
  | zero => simp [before] at h
  | succ n ih =>
    by_cases earlier : k < before f reqs n
    · exact ih earlier
    · cases here : reqs[n]? with
      | none =>
        have short := getElem?_eq_none_iff.mp here
        rw [before_all f (by omega), ← before_all f short] at h
        exact absurd h earlier
      | some r =>
        rw [before_succ f here] at h
        exact ⟨n, r, here, by omega, h⟩

theorem index_of_place {f : ExtendReq → Nat} {r r' : ExtendReq}
    (hi : reqs[i]? = some r) (hj : reqs[j]? = some r') (low : before f reqs i ≤ k)
    (high : k < before f reqs i + f r) (low' : before f reqs j ≤ k)
    (high' : k < before f reqs j + f r') : i = j := by
  rcases Nat.lt_trichotomy i j with less | same | more
  · have := before_add_le (f := f) hi less
    omega
  · exact same
  · have := before_add_le (f := f) hj more
    omega

def ExtendReq.Resumes (P : Nat) (r : ExtendReq) : Prop :=
  r.prefixLen % P ≠ 0 ∧ r.prefixLen < r.seqLen

/-- The pages that the batch writes to are different: those of the free list, and the last pages
of the requests that go on in them. -/
structure Separate (P : Nat) (freePages : List Nat) (reqs : List ExtendReq) : Prop where
  free : freePages.Nodup
  notFree : ∀ r ∈ reqs, r.Resumes P → ∀ q ∈ freePages, r.lastLoc / P ≠ q
  last : ∀ (i j : Nat) (r r' : ExtendReq), reqs[i]? = some r → reqs[j]? = some r' → r.Resumes P →
    r'.Resumes P →
    r.lastLoc / P = r'.lastLoc / P → i = j

theorem resumes_of_old (pos : 0 < P) {r : ExtendReq} {p : Nat} (old : r.prefixLen ≤ p)
    (new : p < r.seqLen) (inside : p < ceil P r.prefixLen * P) : r.Resumes P := by
  refine ⟨fun paged => ?_, by omega⟩
  have := ceil_of_dvd pos paged
  omega

theorem extendPage_inj (pos : 0 < P) (separate : Separate P freePages reqs)
    (enough : getNumNewPages P reqs ≤ freePages.length) {p p' : Nat} {r r' : ExtendReq}
    (hi : reqs[i]? = some r) (hj : reqs[j]? = some r') (old : r.prefixLen ≤ p) (new : p < r.seqLen)
    (old' : r'.prefixLen ≤ p') (new' : p' < r'.seqLen)
    (same : extendPage P freePages (before (newPages P) reqs i) r p =
      extendPage P freePages (before (newPages P) reqs j) r' p') :
    i = j ∧ p / P = p' / P := by
  have room : ∀ {i : Nat} {r : ExtendReq}, reqs[i]? = some r →
      before (newPages P) reqs i + r.newPages P ≤ freePages.length := fun {i r} here =>
    (before_add_le here (List.getElem?_eq_some_iff.mp here).1).trans
      ((getNumNewPages_eq reqs).symm.trans_le enough)
  have member : ∀ {k : Nat}, k < freePages.length → freePages.getD k 0 ∈ freePages :=
    fun {k} h => by
    rw [getD_eq_getElem _ _ h]
    exact getElem_mem h
  unfold extendPage at same
  by_cases inside : p < ceil P r.prefixLen * P
  · have resumes := resumes_of_old pos old new inside
    by_cases inside' : p' < ceil P r'.prefixLen * P
    · rw [if_pos inside, if_pos inside'] at same
      obtain rfl := separate.last i j r r' hi hj resumes (resumes_of_old pos old' new' inside') same
      cases Option.some.inj (hi.symm.trans hj)
      have page : ∀ q, r.prefixLen ≤ q → q < ceil P r.prefixLen * P → q / P = r.prefixLen / P := by
        intro q low high
        rw [ceil_of_not_dvd pos resumes.1] at high
        have := div_mul_le_self r.prefixLen P
        exact Nat.div_eq_of_lt_le (by omega) high
      exact ⟨rfl, (page p old inside).trans (page p' old' inside').symm⟩
    · rw [if_pos inside, if_neg inside'] at same
      have index := place_lt pos (by omega) new'
      have fits := room hj
      exact absurd same (separate.notFree r (mem_of_getElem? hi) resumes _ (member (by omega)))
  · have index := place_lt pos (by omega) new
    have fits := room hi
    by_cases inside' : p' < ceil P r'.prefixLen * P
    · rw [if_neg inside, if_pos inside'] at same
      exact absurd same.symm (separate.notFree r' (mem_of_getElem? hj)
        (resumes_of_old pos old' new' inside') _ (member (by omega)))
    · rw [if_neg inside, if_neg inside'] at same
      have index' := place_lt pos (by omega) new'
      have fits' := room hj
      have place : before (newPages P) reqs i + (p / P - ceil P r.prefixLen) =
          before (newPages P) reqs j + (p' / P - ceil P r'.prefixLen) := by
        have equal := cast_injective (R := Int) same
        rw [getD_eq_getElem _ _ (by omega), getD_eq_getElem _ _ (by omega)] at equal
        exact (separate.free.getElem_inj_iff).mp equal
      obtain rfl := index_of_place hi hj (f := newPages P) (k := before
        (newPages P) reqs i + (p / P - ceil P r.prefixLen)) (by omega) (by omega)
          (by omega)
        (by omega)
      cases Option.some.inj (hi.symm.trans hj)
      have first : ceil P r.prefixLen ≤ p / P := (Nat.le_div_iff_mul_le pos).mpr (by omega)
      have first' : ceil P r.prefixLen ≤ p' / P := (Nat.le_div_iff_mul_le pos).mpr (by omega)
      exact ⟨rfl, by omega⟩

/-- The kernel, in whatever order its programs store, writes what the reference writes: every slot
in its place of the page, and different slots for different positions if the pages are different. -/
theorem allocExtend_correct (big : 2 ≤ P) (compiles : PowerOfTwo P)
    (grows : ∀ r ∈ reqs, r.prefixLen ≤ r.seqLen)
    (consistent : ∀ r ∈ reqs, r.lastLoc % P = ((r.prefixLen : Int) - 1) % P)
    (enough : getNumNewPages P reqs ≤ freePages.length) (out : Memory) :
    ∃ out', allocExtendNaive P freePages reqs out = some out' ∧
      (∀ (bsUpper : Nat) (maskedSeq maskedPre : Nat → Nat) (order : List Nat),
        (∀ lane, maskedSeq lane = maskedPre lane) → reqs.length ≤ bsUpper →
        order.Perm (range reqs.length) →
        launchExtend P bsUpper maskedSeq maskedPre freePages reqs order out = some out') ∧
      (∀ i r p, reqs[i]? = some r → r.prefixLen ≤ p → p < r.seqLen →
        slotOf reqs out' i r p % P = (p % P : Nat) ∧
        ((p + 1) / P = p / P → p + 1 < r.seqLen →
          slotOf reqs out' i r (p + 1) = slotOf reqs out' i r p + 1) ∧
        (p < ceil P r.prefixLen * P →
          slotOf reqs out' i r p = r.lastLoc + 1 + ((p - r.prefixLen : Nat) : Int)) ∧
        (ceil P r.prefixLen * P ≤ p → ∃ k < getNumNewPages P reqs,
          slotOf reqs out' i r p / P = (freePages.getD k 0 : Int))) ∧
      (∀ k < getNumNewPages P reqs, ∃ i r p, reqs[i]? = some r ∧ ceil P r.prefixLen * P ≤ p ∧
        p < r.seqLen ∧ slotOf reqs out' i r p / P = (freePages.getD k 0 : Int)) ∧
      (Separate P freePages reqs → ∀ i j r r' p p', reqs[i]? = some r → reqs[j]? = some r' →
        r.prefixLen ≤ p → p < r.seqLen → r'.prefixLen ≤ p' → p' < r'.seqLen →
        slotOf reqs out' i r p = slotOf reqs out' j r' p' → i = j ∧ p = p') := by
  have pos : 0 < P := by omega
  have wide : (0 : Int) < P := by omega
  have slot : ∀ {i : Nat} {r : ExtendReq} {p : Nat}, reqs[i]? = some r → r.prefixLen ≤ p →
      p < r.seqLen → slotOf reqs (writeBatch P freePages reqs reqs.length out) i r p =
        extendPage P freePages (before (newPages P) reqs i) r p * P + (p % P : Nat) :=
    fun here old new =>
      slotOf_writeBatch pos here old new (consistent _ (mem_of_getElem? here)) out
  have small : ∀ p : Nat, ((p % P : Nat) : Int) < P := fun p => by
    exact_mod_cast mod_lt p pos
  have page : ∀ {i : Nat} {r : ExtendReq} {p : Nat}, reqs[i]? = some r → r.prefixLen ≤ p →
      p < r.seqLen → slotOf reqs (writeBatch P freePages reqs reqs.length out) i r p / P =
        extendPage P freePages (before (newPages P) reqs i) r p := by
    intro i r p here old new
    rw [slot here old new, Int.add_comm, Int.add_mul_ediv_right _ _ wide.ne',
      Int.ediv_eq_zero_of_lt (Int.natCast_nonneg _) (small p), Int.zero_add]
  refine ⟨_, allocExtendNaive_eq pos grows enough out,
    fun bsUpper _ _ order alike upper all =>
      launchExtend_eq pos compiles alike grows upper all out,
    fun i r p here old new => ⟨?_, ?_, ?_, ?_⟩, ?_, ?_⟩
  · rw [slot here old new, Int.add_comm, Int.add_mul_emod_self_right]
    exact Int.emod_eq_of_lt (Int.natCast_nonneg _) (small p)
  · intro together more
    have same : extendPage P freePages (before (newPages P) reqs i) r (p + 1) =
        extendPage P freePages (before (newPages P) reqs i) r p := by
      simp only [extendPage, ← Nat.div_lt_iff_lt_mul pos, together]
    have next : (p + 1) % P = p % P + 1 := by
      have split := div_add_mod p P
      have split' := div_add_mod (p + 1) P
      rw [together] at split'
      omega
    rw [slot here (by omega) more, slot here old new, same, next]
    push_cast
    ring
  · intro inside
    have index := (List.getElem?_eq_some_iff.mp here).1
    rw [slotOf, writeBatch_at here index (by rw [extendLen]; omega),
      Nat.add_sub_cancel' old, extendSlot, if_pos inside]
  · intro beyond
    have index := place_lt pos beyond new
    refine ⟨before (newPages P) reqs i + (p / P - ceil P r.prefixLen), ?_, ?_⟩
    · rw [getNumNewPages_eq]
      have := before_add_le (f := newPages P) here (List.getElem?_eq_some_iff.mp here).1
      omega
    · rw [page here old new, extendPage, if_neg (by omega)]
  · intro k hk
    rw [getNumNewPages_eq] at hk
    obtain ⟨i, r, here, low, high⟩ := exists_place _ hk
    have fits : (ceil P r.prefixLen + (k - before (newPages P) reqs i)) * P <
      r.seqLen := by
      rw [← Nat.not_le, ← ceil_le_iff pos, Nat.not_le]
      rw [newPages] at high
      omega
    have start : ceil P r.prefixLen * P ≤
        (ceil P r.prefixLen + (k - before (newPages P) reqs i)) * P :=
      Nat.mul_le_mul_right P (Nat.le_add_right _ _)
    refine ⟨i, r, _, here, start, fits, ?_⟩
    rw [page here ((ceil_mul_ge pos _).trans start) fits, extendPage, if_neg (by omega),
      Nat.mul_div_cancel _ pos, Nat.add_sub_cancel_left, Nat.add_sub_cancel' low]
  · intro separate i j r r' p p' hi hj old new old' new' same
    have pages : extendPage P freePages (before (newPages P) reqs i) r p =
        extendPage P freePages (before (newPages P) reqs j) r' p' := by
      rw [← page hi old new, ← page hj old' new', same]
    obtain ⟨rfl, together⟩ := extendPage_inj pos separate enough hi hj old new old' new' pages
    rw [slot hi old new, slot hj old' new', pages] at same
    have rest : p % P = p' % P := by omega
    exact ⟨rfl, by rw [← div_add_mod p P, ← div_add_mod p' P, together, rest]⟩

/-- Two requests whose last tokens share a slot get the same slots. -/
theorem allocExtend_shared : let reqs : List ExtendReq := [⟨1, 2, 0⟩, ⟨1, 2, 0⟩]
    (∀ r ∈ reqs, r.prefixLen ≤ r.seqLen) ∧
      (∀ r ∈ reqs, r.lastLoc % (2 : Nat) = ((r.prefixLen : Int) - 1) % (2 : Nat)) ∧
      getNumNewPages 2 reqs ≤ ([] : List Nat).length ∧
      ∃ out', allocExtendNaive 2 [] reqs (fun _ => 0) = some out' ∧
        slotOf reqs out' 0 ⟨1, 2, 0⟩ 1 = slotOf reqs out' 1 ⟨1, 2, 0⟩ 1 :=
  ⟨by decide, by decide, by decide, _, rfl, by decide⟩

theorem allocExtend_correct_two :
    ∃ out', allocExtendNaive 4 [7, 9] [⟨2, 5, 13⟩, ⟨0, 3, -1⟩] (fun _ => 0) = some out' ∧
      launchExtend 4 2 id id [7, 9] [⟨2, 5, 13⟩, ⟨0, 3, -1⟩] [1, 0] (fun _ => 0) = some out' ∧
      slotOf [⟨2, 5, 13⟩, ⟨0, 3, -1⟩] out' 0 ⟨2, 5, 13⟩ 4 ≠
        slotOf [⟨2, 5, 13⟩, ⟨0, 3, -1⟩] out' 1 ⟨0, 3, -1⟩ 0 := by
  obtain ⟨out', naive, kernel, -, -, different⟩ := @allocExtend_correct 4 [7, 9]
    [⟨2, 5, 13⟩, ⟨0, 3, -1⟩] (by decide) (by decide) (by decide) (by decide) (by decide)
    (fun _ => 0)
  refine ⟨out', naive, kernel 2 _ _ [1, 0] (fun _ => rfl) (by decide) (by decide), fun same => ?_⟩
  have separate : Separate 4 [7, 9] [⟨2, 5, 13⟩, ⟨0, 3, -1⟩] := by
    refine ⟨by decide, ?_, ?_⟩
    · intro r hr _ q hq
      fin_cases hr <;> fin_cases hq <;> decide
    · intro i j r r' hi hj resumes resumes' _
      match i, j, hi, hj with
      | 0, 0, _, _ => rfl
      | 1, 1, _, _ => rfl
      | 0, 1, _, hj => cases hj; exact absurd rfl resumes'.1
      | 1, 0, hi, _ => cases hi; exact absurd rfl resumes.1
  have := different separate 0 1 _ _ 4 0 rfl rfl (by decide) (by decide) (by decide)
    (by decide) same
  exact absurd this.1 (by decide)

end Batch

section Decode

variable {freePages : List Nat} {reqs : List DecodeReq}

def decodeSlot (P : Nat) (freePages : List Nat) (start : Nat) (r : DecodeReq) : Int :=
  if r.newPages P = 0 then r.lastLoc + 1 else freePages.getD start 0 * P

theorem decodeProgram_eq {bsUpper pid : Nat} (masked : Nat → Nat) {r : DecodeReq}
    (here : reqs[pid]? = some r) (upper : reqs.length ≤ bsUpper) (out : Memory) :
    decodeProgram P bsUpper masked freePages reqs pid r out = write out pid 1 (fun _ =>
        decodeSlot P freePages (before (DecodeReq.newPages P) reqs pid) r) := by
  have inside := (List.getElem?_eq_some_iff.mp here).1
  have pages : sumLanes bsUpper
    (fun o => ceil P (load (column DecodeReq.seqLen reqs) masked pid o) -
      ceil P (if o ≤ pid then load (column DecodeReq.seqLen reqs) masked pid o - 1
        else load (column DecodeReq.seqLen reqs) masked pid o)) =
      before (DecodeReq.newPages P) reqs (pid + 1) := by
    rw [sumLanes_masked (inside.trans_le upper)]
    · refine sum_range_column _ reqs _ inside fun i r' hi here' => ?_
      rw [load_of_le (by omega), if_pos (by omega), column_eq here', DecodeReq.newPages]
    · intro o ho
      rw [if_neg (by omega), Nat.sub_self]
  unfold decodeProgram decodeSlot
  dsimp only
  rw [pages, before_succ _ here]
  unfold DecodeReq.newPages
  split
  · rfl
  · rw [Nat.add_sub_cancel]

theorem launchDecode_at {bsUpper : Nat} (masked : Nat → Nat) {order : List Nat}
    (upper : reqs.length ≤ bsUpper) {pid : Nat} {r : DecodeReq} (here : reqs[pid]? = some r)
    (runs : pid ∈ order) (out : Memory) :
    launchDecode P bsUpper masked freePages reqs order out pid =
      decodeSlot P freePages (before (DecodeReq.newPages P) reqs pid) r := by
  induction order using reverseRecOn generalizing out with
  | nil => cases runs
  | append_singleton order last ih =>
    rw [launchDecode, foldl_append, foldl_cons, foldl_nil, ← launchDecode]
    by_cases own : last = pid
    · rw [own, here, map_some, getD_some, decodeProgram_eq masked here upper, write,
        if_pos (by omega)]
    · -- A later program stores to its own place.
      have earlier : pid ∈ order := by
        simpa [Ne.symm own] using runs
      cases other : reqs[last]? with
      | none => rw [map_none, getD_none, ih earlier]
      | some r' =>
        rw [map_some, getD_some, decodeProgram_eq masked other upper, write,
          if_neg (by omega), ih earlier]

theorem before_asExtend (pid : Nat) : before (newPages P) (reqs.map DecodeReq.asExtend) pid =
      before (DecodeReq.newPages P) reqs pid := by
  rw [before, before, ← map_take, List.map_map]
  rfl

theorem getNumNewPagesDecode_before (big : 2 ≤ P) (nonempty : ∀ r ∈ reqs, 1 ≤ r.seqLen) :
    getNumNewPagesDecode P reqs = before (DecodeReq.newPages P) reqs reqs.length := by
  rw [getNumNewPagesDecode_eq big nonempty, getNumNewPages_eq, length_map, before_asExtend]

theorem before_extendLen (nonempty : ∀ r ∈ reqs, 1 ≤ r.seqLen) {pid : Nat}
    (inside : pid ≤ reqs.length) :
    before extendLen (reqs.map DecodeReq.asExtend) pid = pid := by
  induction pid with
  | zero => rfl
  | succ pid ih =>
    have here : reqs[pid]? = some (reqs.get ⟨pid, inside⟩) := getElem?_eq_getElem inside
    have one : (reqs.get ⟨pid, inside⟩).asExtend.extendLen = 1 := by
      have := nonempty _ (get_mem reqs ⟨pid, inside⟩)
      simp only [DecodeReq.asExtend, extendLen]
      omega
    rw [before_succ _ (r := (reqs.get ⟨pid, inside⟩).asExtend)
      (by rw [getElem?_map, here, map_some]), ih (by omega), one]

theorem extendSlot_asExtend (big : 2 ≤ P) {r : DecodeReq} (nonempty : 1 ≤ r.seqLen) (start : Nat) :
    extendSlot P freePages start r.asExtend r.asExtend.prefixLen = decodeSlot P freePages start
      r := by
  have pos : 0 < P := by omega
  have remainder : r.seqLen % P = 1 ↔ (r.seqLen - 1) % P = 0 := by
    rw [← succ_mod_eq_one big, Nat.sub_add_cancel nonempty]
  rw [decodeSlot, DecodeReq.newPages_eq big nonempty, extendSlot]
  simp only [DecodeReq.asExtend, Nat.sub_self]
  by_cases paged : (r.seqLen - 1) % P = 0
  · have whole := ceil_of_dvd pos paged
    have page : (r.seqLen - 1) / P = ceil P (r.seqLen - 1) := by
      rw [← Nat.mul_div_cancel (ceil P (r.seqLen - 1)) pos, whole]
    rw [if_neg (by omega), if_pos (remainder.mpr paged), if_neg Nat.one_ne_zero, page, Nat.sub_self,
      paged]
    simp
  · have above : r.seqLen - 1 < ceil P (r.seqLen - 1) * P := by
      refine lt_of_le_of_ne (ceil_mul_ge pos _) fun same => paged ?_
      rw [same, mul_mod_left]
    rw [if_pos above, if_neg (mt remainder.mp paged), if_pos rfl]
    simp

def pagesTaken (P : Nat) (reqs : List DecodeReq) (out : Memory) (n : Nat) : List Int :=
  ((range n).filter (fun i => column (DecodeReq.newPages P) reqs i ≠ 0)).map
    (fun i => out i / P)

theorem pagesTaken_eq (big : 2 ≤ P) (nonempty : ∀ r ∈ reqs, 1 ≤ r.seqLen) {out : Memory}
    (enough : getNumNewPagesDecode P reqs ≤ freePages.length)
    (slots : ∀ (pid : Nat) (r : DecodeReq), reqs[pid]? = some r →
      out pid = decodeSlot P freePages (before (DecodeReq.newPages P) reqs pid) r) (inside :
        n ≤ reqs.length) :
    pagesTaken P reqs out n =
      (freePages.take (before (DecodeReq.newPages P) reqs n)).map (fun q : Nat => (q : Int)) := by
  induction n with
  | zero => rfl
  | succ n ih =>
    have here : reqs[n]? = some (reqs.get ⟨n, inside⟩) := getElem?_eq_getElem inside
    have count := DecodeReq.newPages_eq big (nonempty _ (get_mem reqs ⟨n, inside⟩))
    generalize reqs.get ⟨n, inside⟩ = r at here count
    have room : before (DecodeReq.newPages P) reqs n + r.newPages P ≤ freePages.length := by
      refine (before_add_le here inside).trans ?_
      rwa [← getNumNewPagesDecode_before big nonempty]
    have step : pagesTaken P reqs out (n + 1) =
        pagesTaken P reqs out n ++ if r.newPages P = 0 then [] else [out n / P] := by
      rw [pagesTaken, range_succ, filter_append, map_append, ← pagesTaken,
        filter_cons, filter_nil, column_eq here]
      by_cases none_new : r.newPages P = 0 <;> simp [none_new]
    rw [step, ih (by omega), before_succ _ here, slots n r here, decodeSlot]
    by_cases none_new : r.newPages P = 0
    · rw [if_pos none_new, none_new, append_nil, Nat.add_zero]
    · have one : r.newPages P = 1 := by
        rw [count] at none_new ⊢
        split at none_new
        · rw [if_pos ‹_›]
        · exact absurd rfl none_new
      rw [if_neg none_new, if_neg none_new, one, take_add_one, map_append,
        Int.mul_ediv_cancel _ (by omega), getElem?_eq_getElem (by omega),
        getD_eq_getElem _ _ (by omega)]
      rfl

/-- Decoding is extension by one token, and takes the pages that the remainder test counts. -/
theorem allocDecode_is_extend (big : 2 ≤ P) (compiles : PowerOfTwo P)
    (nonempty : ∀ r ∈ reqs, 1 ≤ r.seqLen) (enough : getNumNewPagesDecode P reqs ≤ freePages.length)
    {bsUpper : Nat} (masked : Nat → Nat) {maskedSeq maskedPre : Nat → Nat}
    (alike : ∀ lane, maskedSeq lane = maskedPre lane) (upper : reqs.length ≤ bsUpper)
    {order order' : List Nat} (all : order.Perm (range reqs.length))
    (all' : order'.Perm (range reqs.length)) (out : Memory) :
    (∀ pid < reqs.length,
      (launchExtend P bsUpper maskedSeq maskedPre freePages (reqs.map DecodeReq.asExtend) order'
        out).map (· pid) = some (launchDecode P bsUpper masked freePages reqs order out pid)) ∧
    pagesTaken P reqs (launchDecode P bsUpper masked freePages reqs order out) reqs.length =
      (freePages.take (getNumNewPagesDecode P reqs)).map (fun q : Nat => (q : Int)) ∧
    getNumNewPagesDecode P reqs = getNumNewPages P (reqs.map DecodeReq.asExtend) := by
  have pos : 0 < P := by omega
  have decode : ∀ (pid : Nat) (r : DecodeReq), reqs[pid]? = some r →
      launchDecode P bsUpper masked freePages reqs order out pid =
        decodeSlot P freePages (before (DecodeReq.newPages P) reqs pid) r := by
    intro pid r here
    exact launchDecode_at masked upper here
      (all.mem_iff.mpr (mem_range.mpr (List.getElem?_eq_some_iff.mp here).1)) out
  refine ⟨fun pid inside => ?_, ?_, ?_⟩
  · have here : reqs[pid]? = some (reqs.get ⟨pid, inside⟩) := getElem?_eq_getElem inside
    have one := nonempty _ (get_mem reqs ⟨pid, inside⟩)
    generalize reqs.get ⟨pid, inside⟩ = r at here one
    have there : (reqs.map DecodeReq.asExtend)[pid]? = some r.asExtend := by
      rw [getElem?_map, here, map_some]
    have grows : ∀ e ∈ reqs.map DecodeReq.asExtend, e.prefixLen ≤ e.seqLen := by
      intro e he
      obtain ⟨r', -, rfl⟩ := mem_map.mp he
      exact sub_le _ _
    have slot := @writeBatch_at P _ (reqs.map DecodeReq.asExtend).length 0 freePages _ _ there
      (by rwa [length_map]) (by simp only [DecodeReq.asExtend, extendLen]; omega) out
    rw [before_extendLen nonempty inside.le, before_asExtend, Nat.add_zero, Nat.add_zero,
      extendSlot_asExtend big one] at slot
    rw [decode pid r here, launchExtend_eq pos compiles alike grows (by rwa [length_map])
      (by rwa [length_map]), map_some, slot]
  · rw [pagesTaken_eq big nonempty enough decode le_rfl, getNumNewPagesDecode_before big nonempty]
  · exact getNumNewPagesDecode_eq big nonempty

theorem allocDecode_is_extend_two :
    (launchExtend 4 2 id id [7] [⟨4, 5, 11⟩, ⟨2, 3, 17⟩] [0, 1] (fun _ => 0)).map (· 0) =
      some (launchDecode 4 2 (fun _ => 9) [7] [⟨5, 11⟩, ⟨3, 17⟩] [1, 0] (fun _ => 0) 0) :=
  (@allocDecode_is_extend 4 [7] [⟨5, 11⟩, ⟨3, 17⟩] (by decide) (by decide) (by decide) (by decide)
    2 (fun _ => 9) id id (fun _ => rfl) (by decide) [1, 0] [0, 1] (by decide) (by decide)
    (fun _ => 0)).1 0 (by decide)

/-- With three slots a page there is a kernel for decoding only. -/
theorem allocDecode_of_three_slots :
    launchDecode 3 1 id [7] [⟨1, -1⟩] [0] (fun _ => 0) 0 = 21 ∧
      launchExtend 3 1 id id [7] [⟨0, 1, -1⟩] [0] (fun _ => 0) = none := by
  decide

end Decode

end RedKnot.Allocator
