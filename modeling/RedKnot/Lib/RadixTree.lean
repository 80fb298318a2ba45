import RedKnot.Lib.TreeEdit

/-! Linked trees whose edges carry segments of a word, cut at multiples of a page length, and whose
dictionaries are keyed by the first page of a segment. -/

def commonLen {α : Type} [DecidableEq α] : List α → List α → Nat
  | a :: as, b :: bs => if a = b then commonLen as bs + 1 else 0
  | _, _ => 0

def pageFloor (P n : Nat) : Nat := n / P * P

section CommonLen

variable {α : Type} [DecidableEq α]

theorem commonLen_le_left (as bs : List α) : commonLen as bs ≤ as.length := by
  induction as generalizing bs with
  | nil => simp [commonLen]
  | cons a as ih =>
    cases bs with
    | nil => simp [commonLen]
    | cons b bs =>
      have := ih bs
      simp only [commonLen, List.length_cons]
      split <;> omega

theorem take_commonLen (as bs : List α) :
    as.take (commonLen as bs) = bs.take (commonLen as bs) := by
  induction as generalizing bs with
  | nil => simp [commonLen]
  | cons a as ih =>
    cases bs with
    | nil => simp [commonLen]
    | cons b bs =>
      simp only [commonLen]
      split
      · rename_i hab
        simp [hab, ih bs]
      · simp

theorem commonLen_le_right (as bs : List α) : commonLen as bs ≤ bs.length := by
  have same := congrArg List.length (take_commonLen as bs)
  rw [List.length_take_of_le (commonLen_le_left as bs)] at same
  exact same.trans_le (List.length_take_le' _ _)

theorem le_commonLen {as bs : List α} {k : Nat} (left : k ≤ as.length) (right : k ≤ bs.length)
    (same : as.take k = bs.take k) : k ≤ commonLen as bs := by
  induction as generalizing bs k with
  | nil => simp_all
  | cons a as ih =>
    cases bs with
    | nil => simp_all
    | cons b bs =>
      cases k with
      | zero => omega
      | succ k =>
        simp only [List.take_succ_cons, List.cons.injEq] at same
        simp only [commonLen, same.1, if_true]
        have := ih (by simpa using left) (by simpa using right) same.2
        omega

theorem take_eq_of_le_commonLen {as bs : List α} {k : Nat} (h : k ≤ commonLen as bs) :
    as.take k = bs.take k := by
  have full := congrArg (List.take k) (take_commonLen as bs)
  simpa [List.take_take, min_eq_left h] using full

end CommonLen

theorem pageFloor_le (P n : Nat) : pageFloor P n ≤ n := Nat.div_mul_le_self n P

theorem dvd_pageFloor (P n : Nat) : P ∣ pageFloor P n := Dvd.intro_left _ rfl

theorem pageFloor_of_dvd {P n : Nat} (h : P ∣ n) : pageFloor P n = n := Nat.div_mul_cancel h

theorem le_pageFloor {P k n : Nat} (paged : P ∣ k) (h : k ≤ n) : k ≤ pageFloor P n := by
  obtain ⟨q, rfl⟩ := paged
  rcases Nat.eq_zero_or_pos P with rfl | pos
  · simp
  · have : q ≤ n / P := by
      rw [Nat.le_div_iff_mul_le pos, mul_comm]
      exact h
    calc P * q = q * P := mul_comm _ _
      _ ≤ n / P * P := Nat.mul_le_mul_right _ this

namespace LinkedTree

open List

variable {κ α : Type} {T : LinkedTree κ} {G : Outline}

theorem Shape.child_toward (S : T.Shape G) {p m : Nat} (hm : m ∈ G.live) (above : p = T.root ∨ p ∈ G.chain m)
    (ne : m ≠ p) :
    ∃ c ∈ G.live, c ≠ T.root ∧ T.parent c = some p ∧ T.kid p (T.tag c) = some c ∧
      c ∈ G.chain m := by
  refine S.induction (P := fun m => (p = T.root ∨ p ∈ G.chain m) → m ≠ p → ∃ c ∈ G.live,
    c ≠ T.root ∧ T.parent c = some p ∧ T.kid p (T.tag c) = some c ∧ c ∈ G.chain m)
    ?_ ?_ m hm above ne
  · intro above ne
    rcases above with rfl | above
    · exact absurd rfl ne
    · simp [S.chain_root] at above
  · intro q n hq hn inner hparent hkid hchain ih above ne
    by_cases hqp : q = p
    · subst hqp
      exact ⟨n, hn, inner, hparent, hkid, S.self_mem_chain hn inner⟩
    · have above' : p = T.root ∨ p ∈ G.chain q := by
        rcases above with h | h
        · exact .inl h
        · rw [hchain] at h
          rcases mem_append.mp h with h | h
          · exact .inr h
          · exact absurd (by simpa using h : p = n) ne.symm
      obtain ⟨c, hc, cinner, hcp, hck, hcm⟩ := ih above' hqp
      exact ⟨c, hc, cinner, hcp, hck, hchain ▸ mem_append_left _ hcm⟩

/-- Segments are whole nonempty pages, and a node is filed under its first page. Pages
are told apart by their code only among the words that `ok` admits. -/
structure Labelled (T : LinkedTree κ) (G : Outline) (P : Nat) (enc : List α → κ)
    (ok : List α → Prop) (seg : Nat → List α) : Prop where
  shape : T.Shape G
  page_pos : 0 < P
  enc_inj : ∀ a b : List α, ok a → ok b → a.length = P → b.length = P → enc a = enc b → a = b
  ok_take : ∀ (a : List α) (k : Nat), ok a → ok (a.take k)
  ok_drop : ∀ (a : List α) (k : Nat), ok a → ok (a.drop k)
  seg_ok : ∀ n ∈ G.live, n ≠ T.root → ok (seg n)
  seg_ne : ∀ n ∈ G.live, n ≠ T.root → seg n ≠ []
  seg_paged : ∀ n ∈ G.live, n ≠ T.root → P ∣ (seg n).length
  tag_eq : ∀ n ∈ G.live, n ≠ T.root → T.tag n = enc ((seg n).take P)

namespace Labelled

variable {P : Nat} {enc : List α → κ} {ok : List α → Prop} {seg : Nat → List α}

section

variable (L : T.Labelled G P enc ok seg)
include L

theorem seg_page {n : Nat} (live : n ∈ G.live) (inner : n ≠ T.root) : P ≤ (seg n).length :=
  Nat.le_of_dvd (length_pos_of_ne_nil (L.seg_ne n live inner)) (L.seg_paged n live inner)

theorem path_paged {n : Nat} (live : n ∈ G.live) : P ∣ (G.along seg n).length := by
  refine L.shape.induction (P := fun n => P ∣ (G.along seg n).length) ?_ ?_ n live
  · simp [L.shape.along_root]
  · intro p n _ hn inner hparent _ _ ih
    rw [L.shape.along_up seg hn inner hparent, length_append]
    exact Dvd.dvd.add ih (L.seg_paged n hn inner)

theorem path_parent_lt {n p : Nat} (live : n ∈ G.live)
    (inner : n ≠ T.root) (hp : T.parent n = some p) :
    (G.along seg p).length + P ≤ (G.along seg n).length := by
  rw [L.shape.along_up seg live inner hp, length_append]
  have := L.seg_page live inner
  omega

theorem child_unique {p c d : Nat} (hc : c ∈ G.live)
    (cinner : c ≠ T.root) (hd : d ∈ G.live) (dinner : d ≠ T.root)
    (hcp : T.kid p (T.tag c) = some c) (hdp : T.kid p (T.tag d) = some d)
    (same : (seg c).take P = (seg d).take P) : c = d := by
  rw [L.tag_eq c hc cinner, same, ← L.tag_eq d hd dinner, hdp] at hcp
  exact (Option.some.inj hcp).symm

end

theorem take_page_eq {a b rest : List α} (ha : a <+: rest) (hb : b <+: rest) (pa : P ≤ a.length)
    (pb : P ≤ b.length) : a.take P = b.take P := by
  obtain ⟨ta, rfl⟩ := ha
  obtain ⟨tb, hb⟩ := hb
  have := congrArg (take P) hb
  rw [take_append_of_le_length pb, take_append_of_le_length pa] at this
  exact this.symm

theorem path_prefix_iff (L : T.Labelled G P enc ok seg) {p m : Nat} (hp : p ∈ G.live)
    (hm : m ∈ G.live) : G.along seg p <+: G.along seg m ↔ p = T.root ∨ p ∈ G.chain m := by
  constructor
  · refine L.shape.induction (P := fun p => G.along seg p <+: G.along seg m → p = T.root ∨ p ∈ G.chain m)
      ?_ ?_ p hp
    · exact fun _ => .inl rfl
    · intro q p hq hp inner hparent hkid _ ih pre
      have hword := L.shape.along_up seg hp inner hparent
      have above := ih ((hword ▸ prefix_append _ _).trans pre)
      have ne : m ≠ q := by
        rintro rfl
        have := pre.length_le
        have := L.path_parent_lt hp inner hparent
        have := L.page_pos
        omega
      obtain ⟨c, hc, cinner, hcp, hck, hcm⟩ := L.shape.child_toward hm above ne
      rw [hword] at pre
      obtain ⟨rest, hrest⟩ := L.shape.along_of_mem seg hm hcm
      rw [L.shape.along_up seg hc cinner hcp, append_assoc] at hrest
      rw [← hrest, prefix_append_right_inj] at pre
      have same : (seg p).take P = (seg c).take P :=
        take_page_eq pre (prefix_append _ _) (L.seg_page hp inner) (L.seg_page hc cinner)
      exact .inr (L.child_unique hp inner hc cinner hkid hck same ▸ hcm)
  · rintro (rfl | h)
    · simp [L.shape.along_root]
    · exact L.shape.along_of_mem seg hm h

section Walk

variable [DecidableEq α]

theorem kid_found (L : T.Labelled G P enc ok seg) {p c : Nat} {r : List α} (hp : p ∈ G.live)
    (admitted : ok r) (long : P ≤ r.length) (found : T.kid p (enc (r.take P)) = some c) :
    c ∈ G.live ∧ c ≠ T.root ∧ T.parent c = some p ∧ (seg c).take P = r.take P ∧
      P ≤ pageFloor P (commonLen (seg c) r) := by
  obtain ⟨hc, inner, hparent, htag⟩ := L.shape.down p hp _ c found
  refine ⟨hc, inner, hparent, ?_⟩
  have hseg := L.seg_page hc inner
  have same : (seg c).take P = r.take P := by
    apply L.enc_inj
    · exact L.ok_take _ _ (L.seg_ok c hc inner)
    · exact L.ok_take _ _ admitted
    · simp [hseg]
    · simp [long]
    · rw [← L.tag_eq c hc inner, htag]
  exact ⟨same, le_pageFloor (dvd_refl P) (le_commonLen hseg long same)⟩

theorem extends_through (L : T.Labelled G P enc ok seg) {p m j : Nat} {r : List α} (hp : p ∈ G.live)
    (hm : m ∈ G.live) (pos : 0 < j) (paged : P ∣ j) (bound : j ≤ r.length)
    (pre : G.along seg p ++ r.take j <+: G.along seg m) :
    ∃ c, T.kid p (enc (r.take P)) = some c ∧
      (j ≤ pageFloor P (commonLen (seg c) r) ∨ pageFloor P (commonLen (seg c) r) = (seg c).length) := by
  have hPj : P ≤ j := Nat.le_of_dvd pos paged
  have above := (L.path_prefix_iff hp hm).mp ((prefix_append _ _).trans pre)
  have ne : m ≠ p := by
    rintro rfl
    have := pre.length_le
    rw [length_append, length_take] at this
    omega
  obtain ⟨c, hc, cinner, hcp, hck, hcm⟩ := L.shape.child_toward hm above ne
  obtain ⟨rest, hrest⟩ := L.shape.along_of_mem seg hm hcm
  rw [L.shape.along_up seg hc cinner hcp, append_assoc] at hrest
  rw [← hrest, prefix_append_right_inj] at pre
  have hseg := L.seg_page hc cinner
  have page : (seg c).take P = (r.take j).take P :=
    take_page_eq (prefix_append _ _) pre hseg (by simp; omega)
  have page' : (seg c).take P = r.take P := by
    rw [page, take_take, min_eq_left hPj]
  refine ⟨c, by rw [← page', ← L.tag_eq c hc cinner, hck], ?_⟩
  rcases le_total j (seg c).length with short | long
  · left
    apply le_pageFloor paged
    apply le_commonLen short bound
    obtain ⟨tail, htail⟩ := pre
    have := congrArg (take j) htail
    rw [take_append_of_le_length (by simp; omega), take_append_of_le_length short,
      take_take, Nat.min_self] at this
    exact this.symm
  · right
    have whole : (seg c).length ≤ commonLen (seg c) r := by
      apply le_commonLen le_rfl (le_trans long bound)
      obtain ⟨tail, htail⟩ := pre
      have := congrArg (take (seg c).length) htail
      rw [take_append_of_le_length (by simp; omega), take_append_of_le_length le_rfl,
        take_take, min_eq_left long] at this
      exact this.symm
    have := commonLen_le_left (seg c) r
    have := le_pageFloor (L.seg_paged c hc cinner) whole
    have := pageFloor_le P (commonLen (seg c) r)
    omega

end Walk

end Labelled

end LinkedTree
