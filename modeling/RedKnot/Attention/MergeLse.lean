import Mathlib

/-! `_merge_two_attn` and `_merge_lse`: two partial attentions of one query and head, combined by
their log-sum-exps, over the reals. -/

namespace RedKnot.Attention

open Real

variable {ι : Type} {D : Nat}

/-- `_merge_two_attn`, with the maximum taken out of both weights. -/
noncomputable def mergeTwoAttn (oA : Fin D → ℝ) (lseA : ℝ) (oB : Fin D → ℝ) (lseB : ℝ) :
    Fin D → ℝ :=
  let m := max lseA lseB
  let wA := exp (lseA - m)
  let wB := exp (lseB - m)
  fun d => (wA * oA d + wB * oB d) / (wA + wB)

noncomputable def mergeLse (outA : Fin D → ℝ) (lseA : ℝ) (outB : Fin D → ℝ) (lseB : ℝ) :
    Fin D → ℝ :=
  let wa := sigmoid (lseA - lseB)
  fun d => outA d * wa + outB d * (1 - wa)

theorem mergeTwoAttn_eq (oA oB : Fin D → ℝ) (lseA lseB : ℝ) :
    mergeTwoAttn oA lseA oB lseB =
      fun d => (exp lseA * oA d + exp lseB * oB d) / (exp lseA + exp lseB) := by
  funext d
  simp only [mergeTwoAttn, exp_sub]
  field_simp

/-- The sigmoid is the share of the first weight, so both merges are one function. -/
theorem mergeLse_eq : mergeLse (D := D) = mergeTwoAttn := by
  funext oA lseA oB lseB d
  simp only [mergeTwoAttn_eq, mergeLse, sigmoid_def, neg_sub, exp_sub]
  field_simp
  ring

/-- The keys of a query: their value rows and their weights, which are `exp` of the scores or any
other positive numbers. -/
structure Keys (ι : Type) (D : Nat) where
  weight : ι → ℝ
  pos : ∀ j, 0 < weight j
  value : ι → Fin D → ℝ

/-- The output row of attention over a list of keys, and its log-sum-exp. -/
noncomputable def Keys.attend (q : Keys ι D) (keys : List ι) : (Fin D → ℝ) × ℝ :=
  let total := (keys.map q.weight).sum
  (fun d => (keys.map fun j => q.weight j * q.value j d).sum / total, log total)

/-- Non-empty lists of keys, to be merged two by two. -/
inductive MergeTree (ι : Type)
  | part (first : ι) (rest : List ι)
  | merge (left right : MergeTree ι)

def MergeTree.keys : MergeTree ι → List ι
  | part first rest => first :: rest
  | merge left right => left.keys ++ right.keys

variable (q : Keys ι D) (merge : (Fin D → ℝ) → ℝ → (Fin D → ℝ) → ℝ → Fin D → ℝ)

noncomputable def mergeOutputs (a b : (Fin D → ℝ) × ℝ) : (Fin D → ℝ) × ℝ :=
  (merge a.1 a.2 b.1 b.2, log (exp a.2 + exp b.2))

noncomputable def MergeTree.run : MergeTree ι → (Fin D → ℝ) × ℝ
  | part first rest => q.attend (first :: rest)
  | .merge left right => mergeOutputs merge left.run right.run

theorem Keys.attend_append {A B : List ι} (hA : A ≠ []) (hB : B ≠ []) :
    mergeOutputs mergeTwoAttn (q.attend A) (q.attend B) = q.attend (A ++ B) := by
  have posA : 0 < (A.map q.weight).sum := List.sum_pos _ (by simp [q.pos]) (by simpa using hA)
  have posB : 0 < (B.map q.weight).sum := List.sum_pos _ (by simp [q.pos]) (by simpa using hB)
  simp only [attend, mergeOutputs, mergeTwoAttn_eq, exp_log posA, exp_log posB, List.map_append,
    List.sum_append, Prod.mk.injEq, and_true]
  funext d
  field_simp

theorem MergeTree.keys_ne_nil (t : MergeTree ι) : t.keys ≠ [] := by
  induction t with
  | part first rest => simp [keys]
  | merge left right ihl ihr => simp [keys, ihl]

theorem MergeTree.run_eq (t : MergeTree ι) : t.run q mergeTwoAttn = q.attend t.keys := by
  induction t with
  | part first rest => rfl
  | merge left right ihl ihr =>
    rw [run, ihl, ihr]
    exact q.attend_append left.keys_ne_nil right.keys_ne_nil

/-- Either function merges two lists of keys into the attention over both, and lists merged in any
grouping and any order give the attention over all of them. -/
theorem merging_is_one_softmax (known : merge = mergeTwoAttn ∨ merge = mergeLse)
    {A B : List ι} (hA : A ≠ []) (hB : B ≠ []) {t t' : MergeTree ι} (same : t.keys.Perm t'.keys) :
    merge (q.attend A).1 (q.attend A).2 (q.attend B).1 (q.attend B).2 = (q.attend (A ++ B)).1 ∧
      t.run q merge = q.attend t.keys ∧ t'.run q merge = t.run q merge := by
  obtain rfl : merge = mergeTwoAttn := known.elim id fun h => h.trans mergeLse_eq
  have permuted : q.attend t.keys = q.attend t'.keys := by
    simp only [Keys.attend, (same.map _).sum_eq]
  rw [← q.attend_append hA hB, t.run_eq, t'.run_eq]
  exact ⟨rfl, rfl, permuted.symm⟩

def oddKeys : Keys Nat 1 :=
  ⟨fun j => 2 * j + 1, fun j => by positivity, fun j _ => 4 * j + 4⟩

theorem merging_three_keys :
    mergeLse (fun _ : Fin 1 => 4) (log 1) (fun _ => 8) (log 3) = (fun _ => 7) ∧
      (MergeTree.merge (.part 2 []) (.merge (.part 1 []) (.part 0 []))).run oddKeys mergeLse =
        (MergeTree.merge (.merge (.part 0 []) (.part 1 [])) (.part 2 [])).run oddKeys mergeLse := by
  have same : (MergeTree.merge (.merge (.part 0 []) (.part 1 [])) (.part 2 [])).keys.Perm
      (MergeTree.merge (.part 2 []) (.merge (.part 1 []) (.part 0 []))).keys := by decide
  obtain ⟨merged, -, regrouped⟩ := merging_is_one_softmax oddKeys mergeLse (.inr rfl)
    (List.cons_ne_nil 0 []) (List.cons_ne_nil 1 []) same
  norm_num [Keys.attend, oddKeys] at merged
  exact ⟨by simpa using merged, regrouped⟩

end RedKnot.Attention
