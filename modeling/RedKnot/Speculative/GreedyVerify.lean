import Mathlib.Tactic

/-! `VerifyTreeGreedy` of `sgl-kernel/csrc/speculative/eagle_utils.cu`. A block walks the draft tree
of its request. The inner loop is run with fuel; the number of draft tokens is enough. -/

namespace RedKnot.Speculative

open List Nat
open Function (update update_self update_of_ne)

structure VerifyInput where
  candidates : Nat → Nat
  retriveIndex : Nat → Nat
  retriveNextToken : Nat → Int
  retriveNextSibling : Nat → Int
  targetPredict : Nat → Nat
  numSpeculativeTokens : Nat
  numDraftTokens : Nat

/-- The tensors that the kernel writes. They are int32: token ids and the indices
`bx * num_draft_tokens + i` are below 2 ^ 31. -/
structure VerifyOutput where
  predicts : Nat → Nat
  acceptIndex : Nat → Nat
  acceptTokenNum : Nat → Nat

structure Block where
  out : VerifyOutput
  lastAcceptedRetriveIdx : Nat
  numAcceptedTokens : Nat
  curIndex : Int

namespace VerifyInput

/-- `while (cur_index != -1)`: the first sibling with the predicted token, or -1. -/
def firstMatch (v : VerifyInput) (base last : Nat) : Nat → Int → Option Int
  | 0, _ => none
  | fuel + 1, cur =>
    if cur = -1 then some (-1)
    else if v.candidates (base + cur.toNat) = v.targetPredict last then some cur
    else v.firstMatch base last fuel (v.retriveNextSibling (base + cur.toNat))

/-- `// accept token` -/
def acceptToken (v : VerifyInput) (bx : Nat) (b : Block) (cur : Int) : Block :=
  let draftIndex := v.retriveIndex (bx * v.numDraftTokens + cur.toNat)
  let num := b.numAcceptedTokens + 1
  { out := { b.out with
      predicts := update b.out.predicts b.lastAcceptedRetriveIdx
        (v.targetPredict b.lastAcceptedRetriveIdx)
      acceptIndex := update b.out.acceptIndex (bx * v.numSpeculativeTokens + num) draftIndex }
    lastAcceptedRetriveIdx := draftIndex
    numAcceptedTokens := num
    curIndex := cur }

/-- `for (j = 1; j < num_speculative_tokens; ++j)`, with the number of iterations left -/
def acceptLoop (v : VerifyInput) (bx : Nat) : Nat → Block → Option Block
  | 0, b => some b
  | left + 1, b => do
    let base := bx * v.numDraftTokens
    let cur ← v.firstMatch base b.lastAcceptedRetriveIdx (v.numDraftTokens + 1)
      (v.retriveNextToken (base + b.curIndex.toNat))
    if cur = -1 then some { b with curIndex := cur }
    else v.acceptLoop bx left (v.acceptToken bx b cur)

def acceptRoot (v : VerifyInput) (bx : Nat) (out : VerifyOutput) : Block :=
  let root := v.retriveIndex (bx * v.numDraftTokens)
  { out := { out with acceptIndex := update out.acceptIndex (bx * v.numSpeculativeTokens) root }
    lastAcceptedRetriveIdx := root
    numAcceptedTokens := 0
    curIndex := 0 }

def finish (v : VerifyInput) (bx : Nat) (b : Block) : VerifyOutput :=
  { b.out with
    acceptTokenNum := update b.out.acceptTokenNum bx b.numAcceptedTokens
    predicts := update b.out.predicts b.lastAcceptedRetriveIdx
      (v.targetPredict b.lastAcceptedRetriveIdx) }

/-- Block `bx` of `VerifyTreeGreedy`. -/
def verifyBlock (v : VerifyInput) (bx : Nat) (out : VerifyOutput) : Option VerifyOutput :=
  (v.acceptLoop bx (v.numSpeculativeTokens - 1) (v.acceptRoot bx out)).map (v.finish bx)

def verifyTreeGreedy (v : VerifyInput) (order : List Nat) (out : VerifyOutput) :
    Option VerifyOutput := order.foldlM (fun out bx => v.verifyBlock bx out) out

inductive Siblings (v : VerifyInput) (base : Nat) : Int → List Nat → Prop
  | nil : Siblings v base (-1) []
  | cons {i : Nat} {rest : List Nat} : Siblings v base (v.retriveNextSibling (base + i)) rest →
      Siblings v base (i : Int) (i :: rest)

structure DraftTree (v : VerifyInput) (bx : Nat) where
  children : Nat → List Nat
  linked : ∀ i < v.numDraftTokens, Siblings v (bx * v.numDraftTokens)
    (v.retriveNextToken (bx * v.numDraftTokens + i)) (children i)
  inside : ∀ i, ∀ c ∈ children i, c < v.numDraftTokens
  nodup : ∀ i, (children i).Nodup
  nonempty : 0 < v.numDraftTokens

end VerifyInput

namespace VerifyInput.DraftTree

variable {v : VerifyInput} {bx : Nat}

def token (_ : DraftTree v bx) (i : Nat) : Nat := v.candidates (bx * v.numDraftTokens + i)

inductive Path (t : DraftTree v bx) : Nat → List Nat → Prop
  | root : Path t 0 []
  | child {i c : Nat} {tokens : List Nat} : Path t i tokens → c ∈ t.children i →
      Path t c (tokens ++ [t.token c])

def Labels (t : DraftTree v bx) (tokens : List Nat) : Prop := ∃ i, t.Path i tokens

def FirstHasChildren (t : DraftTree v bx) : Prop :=
  ∀ i, (t.children i).Pairwise (fun c d => t.token c = t.token d → t.children d = [])

def Predicts (t : DraftTree v bx) (g : List Nat → Nat) (start : List Nat) : Prop :=
  ∀ i tokens, t.Path i tokens →
    v.targetPredict (v.retriveIndex (bx * v.numDraftTokens + i)) = g (start ++ tokens)

end VerifyInput.DraftTree

def greedy (g : List Nat → Nat) (start : List Nat) : Nat → List Nat
  | 0 => []
  | k + 1 => greedy g start k ++ [g (start ++ greedy g start k)]

/-- The tokens emitted for a request: `predicts` at the accepted indices, in order. -/
def emitted (v : VerifyInput) (bx : Nat) (out : VerifyOutput) : List Nat :=
  (range (out.acceptTokenNum bx + 1)).map
    (fun j => out.predicts (out.acceptIndex (bx * v.numSpeculativeTokens + j)))

variable (a : Nat → Nat)

theorem greedy_eq_map (g : List Nat → Nat) (start : List Nat) (k : Nat) :
    greedy g start k = (range k).map (fun j => g (start ++ greedy g start j)) := by
  induction k with
  | zero => rfl
  | succ k ih =>
    rw [range_succ, map_append, ← ih, greedy]
    rfl

namespace VerifyInput

variable {v : VerifyInput} {bx : Nat}

theorem firstMatch_eq {base last fuel : Nat} {link : Int} {nodes : List Nat}
    (linked : Siblings v base link nodes) (enough : nodes.length < fuel) :
    v.firstMatch base last fuel link = some (((nodes.find? (fun i =>
      v.candidates (base + i) = v.targetPredict last)).map (fun i : Nat => (i : Int))).getD
        (-1)) := by
  induction linked generalizing fuel with
  | nil =>
    cases fuel with
    | zero => omega
    | succ fuel => rfl
  | @cons i rest _ ih =>
    cases fuel with
    | zero => omega
    | succ fuel =>
      have real : (i : Int) ≠ -1 := by omega
      rw [firstMatch, if_neg real, Int.toNat_natCast, find?_cons]
      by_cases found : v.candidates (base + i) = v.targetPredict last
      · rw [if_pos found]
        simp [found]
      · rw [if_neg found, ih (by simp only [length_cons] at enough; omega)]
        simp [found]

namespace DraftTree

variable {t : DraftTree v bx} {g : List Nat → Nat} {start : List Nat}

theorem length_children (t : DraftTree v bx) (i : Nat) :
    (t.children i).length ≤ v.numDraftTokens := by
  have short := (t.nodup i).subperm fun c hc => mem_range.mpr (t.inside i c hc)
  exact short.length_le.trans_eq length_range

theorem Path.lt {i : Nat} {tokens : List Nat} (path : t.Path i tokens) : i < v.numDraftTokens := by
  cases path with
  | root => exact t.nonempty
  | child _ mem => exact t.inside _ _ mem

theorem Path.snoc {c x : Nat} {tokens : List Nat} (path : t.Path c (tokens ++ [x])) :
    ∃ i, t.Path i tokens ∧ c ∈ t.children i ∧ t.token c = x := by
  generalize whole : tokens ++ [x] = all at path
  cases path with
  | root => simp at whole
  | @child i _ before path mem =>
    obtain ⟨rfl, same⟩ := append_inj' whole rfl
    exact ⟨i, path, mem, (List.cons.inj same).1.symm⟩

theorem labels_greedy_of_succ {k : Nat} (h : t.Labels (greedy g start (k + 1))) :
    t.Labels (greedy g start k) := by
  obtain ⟨c, path⟩ := h
  obtain ⟨i, before, -, -⟩ := path.snoc
  exact ⟨i, before⟩

theorem labels_greedy_le {k m : Nat} (less : k ≤ m) (h : t.Labels (greedy g start m)) :
    t.Labels (greedy g start k) := by
  induction m, less using le_induction with
  | base => exact h
  | succ m _ ih => exact ih (labels_greedy_of_succ h)

end DraftTree

/-- The block stands at node `cur` after `j` accepted tokens. -/
structure Stands (t : DraftTree v bx) (g : List Nat → Nat) (start : List Nat) (j cur : Nat)
    (b : Block) : Prop where
  path : t.Path cur (greedy g start j)
  last : b.lastAcceptedRetriveIdx = v.retriveIndex (bx * v.numDraftTokens + cur)
  count : b.numAcceptedTokens = j
  only : ∀ d, t.Path d (greedy g start j) → d = cur ∨ t.children d = []
  accepted : ∀ i ≤ j, v.targetPredict (b.out.acceptIndex (bx * v.numSpeculativeTokens + i)) =
    g (start ++ greedy g start i)
  predicted : ∀ i < j, b.out.predicts (b.out.acceptIndex (bx * v.numSpeculativeTokens + i)) =
    v.targetPredict (b.out.acceptIndex (bx * v.numSpeculativeTokens + i))
  final : b.out.acceptIndex (bx * v.numSpeculativeTokens + j) = b.lastAcceptedRetriveIdx

structure Frame (v : VerifyInput) (bx : Nat) (out out' : VerifyOutput) : Prop where
  acceptIndex : ∀ a, a < bx * v.numSpeculativeTokens ∨
    bx * v.numSpeculativeTokens + v.numSpeculativeTokens ≤ a →
      out'.acceptIndex a = out.acceptIndex a
  acceptTokenNum : ∀ other, other ≠ bx → out'.acceptTokenNum other = out.acceptTokenNum other
  predicts : ∀ x, out'.predicts x = out.predicts x ∨ out'.predicts x = v.targetPredict x

namespace Frame

theorem refl (v : VerifyInput) (bx : Nat) (out : VerifyOutput) : Frame v bx out out :=
  ⟨fun _ _ => rfl, fun _ _ => rfl, fun _ => .inl rfl⟩

theorem trans {out₁ out₂ out₃ : VerifyOutput} (first : Frame v bx out₁ out₂)
    (second : Frame v bx out₂ out₃) : Frame v bx out₁ out₃ where
  acceptIndex a h := (second.acceptIndex a h).trans (first.acceptIndex a h)
  acceptTokenNum other h := (second.acceptTokenNum other h).trans (first.acceptTokenNum other h)
  predicts x := by
    rcases second.predicts x with same | written
    · rw [same]
      exact first.predicts x
    · exact .inr written

end Frame

theorem update_predicts (last x : Nat) : update a last (v.targetPredict last) x = a x ∨
      update a last (v.targetPredict last) x = v.targetPredict x := by
  by_cases same : x = last
  · rw [same, update_self]
    exact .inr rfl
  · exact .inl (update_of_ne same _ _)

theorem update_predicted {a : Nat → Nat} {last x : Nat} (h : a x = v.targetPredict x) :
    update a last (v.targetPredict last) x = v.targetPredict x :=
  (update_predicts a last x).elim (·.trans h) id

section Walk

variable {t : DraftTree v bx} {g : List Nat → Nat} {start : List Nat} {j cur : Nat} {b : Block}

section

variable (stands : Stands t g start j cur b)
include stands

theorem Stands.child_of_path {d : Nat} (path : t.Path d (greedy g start (j + 1))) :
    d ∈ t.children cur ∧ t.token d = g (start ++ greedy g start j) := by
  obtain ⟨i, before, mem, same⟩ := path.snoc
  rcases stands.only i before with rfl | leaf
  · exact ⟨mem, same⟩
  · rw [leaf] at mem
    cases mem

theorem Stands.target (pred : t.Predicts g start) :
    v.targetPredict b.lastAcceptedRetriveIdx = g (start ++ greedy g start j) := by
  rw [stands.last, pred cur _ stands.path]

theorem Stands.accept (first : t.FirstHasChildren) (pred : t.Predicts g start) {c : Nat}
    (found : (t.children cur).find? (fun i => v.candidates (bx * v.numDraftTokens + i) =
      v.targetPredict b.lastAcceptedRetriveIdx) = some c) :
    Stands t g start (j + 1) c (v.acceptToken bx b c) := by
  obtain ⟨hit, earlier, later, split, missed⟩ := find?_eq_some_iff_append.mp found
  have target := stands.target pred
  have token : t.token c = g (start ++ greedy g start j) := by
    rw [← target]
    exact of_decide_eq_true hit
  have mem : c ∈ t.children cur := mem_of_find?_eq_some found
  have path : t.Path c (greedy g start (j + 1)) := by
    rw [greedy, ← token]
    exact .child stands.path mem
  have row : ∀ i ≤ j, update b.out.acceptIndex
      (bx * v.numSpeculativeTokens + (b.numAcceptedTokens + 1))
      (v.retriveIndex (bx * v.numDraftTokens + c)) (bx * v.numSpeculativeTokens + i) =
      b.out.acceptIndex (bx * v.numSpeculativeTokens + i) := fun i hi =>
    update_of_ne (by rw [stands.count]; omega) _ _
  have newest : update b.out.acceptIndex (bx * v.numSpeculativeTokens + (b.numAcceptedTokens + 1))
      (v.retriveIndex (bx * v.numDraftTokens + c)) (bx * v.numSpeculativeTokens + (j + 1)) =
      v.retriveIndex (bx * v.numDraftTokens + c) := by rw [stands.count, update_self]
  refine ⟨path, rfl, congrArg (· + 1) stands.count, fun d other => ?_, fun i hi => ?_, fun i hi =>
    ?_, newest⟩
  · obtain ⟨member, same⟩ := stands.child_of_path other
    rw [split, mem_append, mem_cons] at member
    rcases member with before | rfl | after
    · have := missed d before
      rw [target, ← same] at this
      simp [DraftTree.token] at this
    · exact .inl rfl
    · have pairs := first cur
      rw [split, pairwise_append, pairwise_cons] at pairs
      exact .inr (pairs.2.1.1 d after (token.trans same.symm))
  · dsimp only [acceptToken, Int.toNat_natCast]
    rcases Nat.lt_or_eq_of_le hi with less | rfl
    · rw [row i (by omega)]
      exact stands.accepted i (by omega)
    · rw [newest, pred c _ path]
  · rw [acceptToken]
    dsimp only [Int.toNat_natCast]
    rw [row i (by omega)]
    rcases Nat.lt_or_eq_of_le (le_of_lt_succ hi) with less | rfl
    · exact update_predicted (stands.predicted i less)
    · rw [stands.final, update_self]

end

theorem acceptLoop_spec (first : t.FirstHasChildren) (pred : t.Predicts g start) (left : Nat)
    (stands : Stands t g start j cur b) (here : b.curIndex = cur)
    (room : j + left < v.numSpeculativeTokens) :
    ∃ b' k cur', v.acceptLoop bx left b = some b' ∧ Stands t g start k cur' b' ∧ k ≤ j + left ∧
      (k = j + left ∨ ¬ t.Labels (greedy g start (k + 1))) ∧ Frame v bx b.out b'.out := by
  induction left generalizing j cur b with
  | zero => exact ⟨b, j, cur, rfl, stands, le_rfl, .inl rfl, .refl v bx _⟩
  | succ left ih =>
    have fuel := lt_succ_of_le (t.length_children cur)
    rw [acceptLoop, here, Int.toNat_natCast, firstMatch_eq (t.linked cur stands.path.lt) fuel]
    cases found : (t.children cur).find? (fun i => v.candidates (bx * v.numDraftTokens + i) =
        v.targetPredict b.lastAcceptedRetriveIdx) with
    | none =>
      refine ⟨{ b with curIndex := -1 }, j, cur, by rfl, ⟨stands.path, stands.last, stands.count,
        stands.only, stands.accepted, stands.predicted, stands.final⟩, by omega, .inr ?_,
        .refl v bx _⟩
      rintro ⟨d, path⟩
      obtain ⟨mem, same⟩ := stands.child_of_path path
      have missed := find?_eq_none.mp found d mem
      rw [stands.target pred, ← same] at missed
      simp [DraftTree.token] at missed
    | some c =>
      have real : (c : Int) ≠ -1 := by omega
      obtain ⟨b', k, cur', runs, stands', bound, stops, frame⟩ :=
        ih (stands.accept first pred found) rfl (by omega)
      have accepts : Frame v bx b.out (v.acceptToken bx b c).out := by
        refine ⟨fun a outside => ?_, fun _ _ => rfl, fun x => update_predicts _ _ x⟩
        have count := stands.count
        exact update_of_ne (by omega) _ _
      refine ⟨b', k, cur', ?_, stands', by omega, ?_, accepts.trans frame⟩
      · simpa [real] using runs
      · exact stops.imp_left fun limit => by omega

end Walk

/-- What a request gets: the longest part of the greedy continuation that the tree holds, and one
token more. -/
def Correct (t : DraftTree v bx) (g : List Nat → Nat) (start : List Nat) (out : VerifyOutput) :
    Prop :=
  ∃ k < v.numSpeculativeTokens, emitted v bx out = greedy g start (k + 1) ∧
    t.Labels (greedy g start k) ∧
    ∀ m < v.numSpeculativeTokens, t.Labels (greedy g start m) → m ≤ k

structure Emits (t : DraftTree v bx) (g : List Nat → Nat) (start : List Nat) (k : Nat)
    (out : VerifyOutput) : Prop where
  bound : k < v.numSpeculativeTokens
  count : out.acceptTokenNum bx = k
  accepted : ∀ i ≤ k, v.targetPredict (out.acceptIndex (bx * v.numSpeculativeTokens + i)) =
    g (start ++ greedy g start i)
  predicted : ∀ i ≤ k, out.predicts (out.acceptIndex (bx * v.numSpeculativeTokens + i)) =
    v.targetPredict (out.acceptIndex (bx * v.numSpeculativeTokens + i))
  path : t.Labels (greedy g start k)
  longest : ∀ m < v.numSpeculativeTokens, t.Labels (greedy g start m) → m ≤ k

section Blocks

variable {t : DraftTree v bx} {g : List Nat → Nat} {start : List Nat}

theorem Emits.correct {k : Nat} {out : VerifyOutput} (h : Emits t g start k out) :
    Correct t g start out := by
  refine ⟨k, h.bound, ?_, h.path, h.longest⟩
  rw [emitted, h.count, greedy_eq_map]
  refine map_congr_left fun i hi => ?_
  have le : i ≤ k := le_of_lt_succ (mem_range.mp hi)
  rw [h.predicted i le, h.accepted i le]

theorem Emits.frame {k other : Nat} {out out' : VerifyOutput} (h : Emits t g start k out)
    (frame : Frame v other out out') (apart : other ≠ bx) : Emits t g start k out' := by
  have row : ∀ i ≤ k, out'.acceptIndex (bx * v.numSpeculativeTokens + i) =
      out.acceptIndex (bx * v.numSpeculativeTokens + i) := by
    intro i hi
    have bound := h.bound
    apply frame.acceptIndex
    rcases Nat.lt_or_gt_of_ne apart with less | more
    · right
      have := Nat.mul_le_mul_right v.numSpeculativeTokens (show other + 1 ≤ bx from less)
      rw [succ_mul] at this
      omega
    · left
      have := Nat.mul_le_mul_right v.numSpeculativeTokens (show bx + 1 ≤ other from more)
      rw [succ_mul] at this
      omega
  refine ⟨h.bound, (frame.acceptTokenNum bx apart.symm).trans h.count, fun i hi => ?_,
    fun i hi => ?_, h.path, h.longest⟩
  · rw [row i hi]
    exact h.accepted i hi
  · rw [row i hi]
    exact (frame.predicts _).elim (·.trans (h.predicted i hi)) id

theorem verifyBlock_spec (first : t.FirstHasChildren) (pred : t.Predicts g start)
    (some_tokens : 0 < v.numSpeculativeTokens) (out : VerifyOutput) :
    ∃ out' k, v.verifyBlock bx out = some out' ∧ Frame v bx out out' ∧ Emits t g start k out' := by
  have begins : Stands t g start 0 0 (v.acceptRoot bx out) := by
    refine ⟨.root, rfl, rfl, fun d path => ?_, fun i hi => ?_, fun i hi => absurd hi (by omega),
      update_self _ _ _⟩
    · generalize nothing : greedy g start 0 = tokens at path
      cases path with
      | root => exact .inl rfl
      | child => simp [greedy] at nothing
    · obtain rfl : i = 0 := by omega
      rw [Nat.add_zero, acceptRoot]
      dsimp only
      rw [update_self]
      exact pred 0 [] .root
  obtain ⟨b, k, cur, runs, stands, bound, stops, frame⟩ :=
    acceptLoop_spec first pred (v.numSpeculativeTokens - 1) begins rfl (by omega)
  rw [Nat.zero_add] at bound stops
  refine ⟨v.finish bx b, k, by rw [verifyBlock, runs]; rfl, ?_, ?_⟩
  · have root : Frame v bx out (v.acceptRoot bx out).out :=
      ⟨fun a outside => update_of_ne (by omega) _ _, fun _ _ => rfl, fun _ => .inl rfl⟩
    have finish : Frame v bx b.out (v.finish bx b) :=
      ⟨fun _ _ => rfl, fun other apart => update_of_ne apart _ _, fun x => update_predicts _ _ x⟩
    exact (root.trans frame).trans finish
  · refine ⟨by omega, ?_, stands.accepted, fun i hi => ?_, ⟨cur, stands.path⟩, fun m hm labels =>
      ?_⟩
    · exact (update_self _ _ _).trans stands.count
    · rcases Nat.lt_or_eq_of_le hi with less | rfl
      · exact update_predicted (stands.predicted i less)
      · dsimp only [finish]
        rw [stands.final, update_self]
    · by_contra more
      rcases stops with limit | leaves
      · omega
      · exact leaves (DraftTree.labels_greedy_le (by omega) labels)

end Blocks

/-- Every request gets the tokens of greedy decoding by `g`: the longest part of the continuation
that its tree holds, and one token more. -/
theorem verifyTreeGreedy_is_greedy (v : VerifyInput) (some_tokens : 0 < v.numSpeculativeTokens)
    {batchSize : Nat} (tree : (bx : Nat) → bx < batchSize → DraftTree v bx)
    (first : ∀ bx h, (tree bx h).FirstHasChildren) (g : List Nat → Nat) (start : Nat → List Nat)
    (pred : ∀ bx h, (tree bx h).Predicts g (start bx)) {order : List Nat}
    (all : order.Perm (range batchSize)) (out : VerifyOutput) :
    ∃ out', v.verifyTreeGreedy order out = some out' ∧
      ∀ bx h, Correct (tree bx h) g (start bx) out' := by
  have inside : ∀ bx ∈ order, bx < batchSize := fun bx h => mem_range.mp (all.mem_iff.mp h)
  have apart : order.Nodup := all.nodup_iff.mpr nodup_range
  have runs : ∃ out', v.verifyTreeGreedy order out = some out' ∧
      ∀ bx (mem : bx ∈ order), ∃ k, Emits (tree bx (inside bx mem)) g (start bx) k out' := by
    clear all
    induction order using reverseRecOn with
    | nil => exact ⟨out, rfl, fun bx mem => absurd mem not_mem_nil⟩
    | append_singleton order last ih =>
      obtain ⟨distinct, -, fresh⟩ := nodup_append.mp apart
      obtain ⟨mid, before, earlier⟩ :=
        ih (fun bx mem => inside bx (mem_append_left _ mem)) distinct
      have own : last < batchSize := inside last (by simp)
      obtain ⟨out', k, runs, frame, emits⟩ :=
        verifyBlock_spec (first last own) (pred last own) some_tokens mid
      refine ⟨out', ?_, fun bx mem => ?_⟩
      · rw [verifyTreeGreedy] at before ⊢
        rw [foldlM_append, before]
        simpa using runs
      · by_cases same : bx = last
        · subst same
          exact ⟨k, emits⟩
        · have old : bx ∈ order := by simpa [same] using mem
          obtain ⟨m, emitted⟩ := earlier bx old
          exact ⟨m, emitted.frame frame (Ne.symm same)⟩
  obtain ⟨out', runs, emits⟩ := runs
  refine ⟨out', runs, fun bx h => ?_⟩
  obtain ⟨k, emitted⟩ := emits bx (all.mem_iff.mpr (mem_range.mpr h))
  exact emitted.correct

def forked : VerifyInput where
  candidates i := [5, 6, 7].getD i 0
  retriveIndex i := i
  retriveNextToken i := [1, -1, -1].getD i (-1)
  retriveNextSibling i := [-1, 2, -1].getD i (-1)
  targetPredict i := [7, 0, 0].getD i 0
  numSpeculativeTokens := 3
  numDraftTokens := 3

def forkedTree : (bx : Nat) → bx < 1 → DraftTree forked bx
  | 0, _ =>
    { children := fun i => if i = 0 then [1, 2] else []
      linked := fun i hi => by
        match i, hi with
        | 0, _ => exact .cons (i := 1) (.cons (i := 2) .nil)
        | 1, _ => exact .nil
        | 2, _ => exact .nil
      inside := fun i c hc => by
        split at hc
        · simp only [mem_cons, not_mem_nil, or_false] at hc
          rcases hc with rfl | rfl <;> decide
        · cases hc
      nodup := fun i => by split <;> decide
      nonempty := by decide }
  | _ + 1, h => absurd h (by omega)

theorem verifyTreeGreedy_forked :
    ∃ out', forked.verifyTreeGreedy [0] ⟨fun _ => 0, fun _ => 0, fun _ => 0⟩ = some out' ∧
      Correct (forkedTree 0 (by decide)) (fun l => if l = [] then 7 else 0) [] out' := by
  have parents : ∀ {i : Nat} {tokens : List Nat}, (forkedTree 0 (by decide)).Path i tokens →
      (i = 0 ∧ tokens = []) ∨ (i ≠ 0 ∧ i < 3 ∧ tokens ≠ []) := by
    intro i tokens path
    cases path with
    | root => exact .inl ⟨rfl, rfl⟩
    | @child parent _ _ _ mem =>
      have inside : i = 1 ∨ i = 2 := by
        by_cases root : parent = 0
        · subst root
          simpa [forkedTree] using mem
        · simp [forkedTree, root] at mem
      exact .inr ⟨by omega, by omega, by simp⟩
  obtain ⟨out', runs, correct⟩ := verifyTreeGreedy_is_greedy forked (by decide) forkedTree
    (fun bx h i => by
      obtain rfl : bx = 0 := by omega
      by_cases root : i = 0
      · subst root
        exact pairwise_pair.mpr fun (same : (6 : Nat) = 7) => absurd same (by decide)
      · simp [forkedTree, root])
    (fun l => if l = [] then 7 else 0) (fun _ => [])
    (fun bx h i tokens path => by
      obtain rfl : bx = 0 := by omega
      rcases parents path with ⟨rfl, rfl⟩ | ⟨real, small, some_tokens⟩
      · rfl
      · show _ = if [] ++ tokens = [] then 7 else 0
        rw [nil_append, if_neg some_tokens]
        match i, real, small with
        | 1, _, _ => rfl
        | 2, _, _ => rfl)
    (show [0].Perm (range 1) by decide) ⟨fun _ => 0, fun _ => 0, fun _ => 0⟩
  exact ⟨out', runs, correct 0 (by decide)⟩

end VerifyInput

end RedKnot.Speculative
