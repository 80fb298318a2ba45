import RedKnot.Lib.LinkedTree

/-! Loops over a heap. `walkUp` is `while node != root: body; node = node.parent`. -/

/-- The upward loop. The body may end it early with `done`. -/
def walkUp {ε σ : Type} (stuck lost : ε) (root : Nat) (parentOf : σ → Nat → Option Nat)
    (body : σ → Nat → Except ε (ForInStep σ)) : Nat → σ → Nat → Except ε σ
  | 0, _, _ => .error stuck
  | fuel + 1, s, node =>
    if node = root then .ok s
    else
      match body s node with
      | .error e => .error e
      | .ok (.done s') => .ok s'
      | .ok (.yield s') =>
        match parentOf s' node with
        | none => .error lost
        | some p => walkUp stuck lost root parentOf body fuel s' p

namespace LinkedTree.Shape

variable {κ ε σ : Type} {T : LinkedTree κ} {G : Outline}

theorem walkUp_spec (S : T.Shape G) (stuck lost : ε) (parentOf : σ → Nat → Option Nat)
    (body : σ → Nat → Except ε (ForInStep σ)) {R : List Nat → σ → Prop} {Q : σ → Prop}
    {n : Nat} (live : n ∈ G.live)
    (step : ∀ rest m done s, G.chain n = rest ++ m :: done → R done s → ∃ r, body s m = .ok r ∧
        match r with
        | .yield s' => parentOf s' m = T.parent m ∧ R (m :: done) s'
        | .done s' => Q s')
    (finish : ∀ s, R (G.chain n) s → Q s) :
    ∀ fuel s, (G.chain n).length < fuel → R [] s →
      ∃ s', walkUp stuck lost T.root parentOf body fuel s n = .ok s' ∧ Q s' := by
  have main : ∀ fuel m done s, m ∈ G.live → G.chain n = G.chain m ++ done → R done s →
      (G.chain m).length < fuel →
      ∃ s', walkUp stuck lost T.root parentOf body fuel s m = .ok s' ∧ Q s' := by
    intro fuel
    induction fuel with
    | zero =>
      intro m done s _ _ _ hfuel
      omega
    | succ fuel ih =>
      intro m done s hm hsplit hR hfuel
      rw [walkUp]
      by_cases top : m = T.root
      · rw [if_pos top]
        refine ⟨s, rfl, finish s ?_⟩
        rw [hsplit, top, S.chain_root]
        exact hR
      · rw [if_neg top]
        obtain ⟨p, hp, hparent, _, hchain⟩ := S.up m hm top
        have hsplit' : G.chain n = G.chain p ++ m :: done := by
          rw [hsplit, hchain, List.append_assoc]
          rfl
        obtain ⟨r, hbody, hr⟩ := step _ m done s hsplit' hR
        rw [hbody]
        cases r with
        | done s' => exact ⟨s', rfl, hr⟩
        | yield s' =>
          obtain ⟨hpar, hR'⟩ := hr
          simp only [hpar, hparent]
          refine ih p (m :: done) s' hp hsplit' hR' ?_
          rw [hchain] at hfuel
          simp at hfuel
          omega
  exact fun fuel s hfuel hR => main fuel n [] s live (by simp) hR hfuel

end LinkedTree.Shape
