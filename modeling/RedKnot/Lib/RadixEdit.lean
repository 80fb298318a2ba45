import RedKnot.Lib.RadixTree

/-! Edits of a labelled tree. The node that covers a page-aligned word is unique. -/

open Function

namespace LinkedTree

open Finset List

namespace Labelled

variable {κ α : Type} {T : LinkedTree κ} {G : Outline} {P : Nat} {enc : List α → κ}
  {ok : List α → Prop} {seg seg' : Nat → List α} {p c a : Nat} {k : κ}

section Edits

variable [DecidableEq κ]

section

variable (L : T.Labelled G P enc ok seg)
include L

theorem attach (hp : p ∈ G.live) (fresh : T.next ≤ c)
    (free : T.kid p k = none) (same : ∀ m ∈ G.live, m ≠ T.root → seg' m = seg m)
    (admitted : ok (seg' c)) (nonempty : seg' c ≠ []) (paged : P ∣ (seg' c).length)
    (filed : k = enc ((seg' c).take P)) :
    (T.attach p c k).Labelled (G.attach p c) P enc ok seg' where
  shape := L.shape.attach hp fresh free
  page_pos := L.page_pos
  enc_inj := L.enc_inj
  ok_take := L.ok_take
  ok_drop := L.ok_drop
  seg_ok := by
    intro n hn inner
    rcases mem_insert.mp hn with rfl | hn
    · exact admitted
    · exact same n hn inner ▸ L.seg_ok n hn inner
  seg_ne := by
    intro n hn inner
    rcases mem_insert.mp hn with rfl | hn
    · exact nonempty
    · exact same n hn inner ▸ L.seg_ne n hn inner
  seg_paged := by
    intro n hn inner
    rcases mem_insert.mp hn with rfl | hn
    · exact paged
    · exact same n hn inner ▸ L.seg_paged n hn inner
  tag_eq := by
    intro n hn inner
    rcases mem_insert.mp hn with rfl | hn
    · simpa [LinkedTree.attach] using filed
    · rw [same n hn inner, ← L.tag_eq n hn inner]
      simp [LinkedTree.attach, L.shape.ne_of_fresh hn fresh]

section

variable (hc : c ∈ G.live) (inner : c ≠ T.root) (hp : T.parent c = some p)
include hc inner hp

theorem detach (leaf : ∀ j, T.kid c j = none) :
    (T.detach p c).Labelled (G.detach c) P enc ok seg where
  shape := L.shape.detach hc inner hp leaf
  page_pos := L.page_pos
  enc_inj := L.enc_inj
  ok_take := L.ok_take
  ok_drop := L.ok_drop
  seg_ok := fun n hn => L.seg_ok n (mem_of_mem_erase hn)
  seg_ne := fun n hn => L.seg_ne n (mem_of_mem_erase hn)
  seg_paged := fun n hn => L.seg_paged n (mem_of_mem_erase hn)
  tag_eq := fun n hn => L.tag_eq n (mem_of_mem_erase hn)

theorem split (fresh : T.next ≤ a) (here : seg' a ++ seg' c = seg c)
    (there : ∀ m ∈ G.live, m ≠ T.root → m ≠ c → seg' m = seg m) (upper : seg' a ≠ [])
    (lower : seg' c ≠ []) (paged : P ∣ (seg' a).length) (filed : k = enc ((seg' c).take P)) :
    (T.split p c a k).Labelled (G.split p c a) P enc ok seg' := by
  have hca := L.shape.ne_of_fresh hc fresh
  have whole := L.seg_ok c hc inner
  have okUpper : ok (seg' a) := by
    have := L.ok_take _ (seg' a).length whole
    rwa [← here, take_left] at this
  have okLower : ok (seg' c) := by
    have := L.ok_drop _ (seg' a).length whole
    rwa [← here, drop_left] at this
  have pagedLower : P ∣ (seg' c).length := by
    have := L.seg_paged c hc inner
    rw [← here, length_append] at this
    exact (Nat.dvd_add_right paged).mp this
  have firstPage : (seg' a).take P = (seg c).take P := by
    rw [← here, take_append_of_le_length]
    exact Nat.le_of_dvd (length_pos_of_ne_nil upper) paged
  refine ⟨L.shape.split hc inner hp fresh, L.page_pos, L.enc_inj, L.ok_take, L.ok_drop, ?_, ?_, ?_, ?_⟩
  all_goals
    intro n hn ninner
    rcases mem_insert.mp hn with rfl | hn
  · exact okUpper
  · by_cases hnc : n = c
    · exact hnc ▸ okLower
    · exact there n hn ninner hnc ▸ L.seg_ok n hn ninner
  · exact upper
  · by_cases hnc : n = c
    · exact hnc ▸ lower
    · exact there n hn ninner hnc ▸ L.seg_ne n hn ninner
  · exact paged
  · by_cases hnc : n = c
    · exact hnc ▸ pagedLower
    · exact there n hn ninner hnc ▸ L.seg_paged n hn ninner
  · simp [LinkedTree.split, hca.symm, firstPage, L.tag_eq c hc inner]
  · by_cases hnc : n = c
    · subst hnc
      simpa [LinkedTree.split] using filed
    · rw [there n hn ninner hnc, ← L.tag_eq n hn ninner]
      simp [LinkedTree.split, hnc, L.shape.ne_of_fresh hn fresh]

end

end

end Edits

section

variable (L : T.Labelled G P enc ok seg)
include L

theorem cover {n : Nat} {len : Nat} (hn : n ∈ G.live)
    (pos : 0 < len) (bound : len ≤ (G.along seg n).length) :
    ∃ c q, c ∈ G.chain n ∧ c ∈ G.live ∧ c ≠ T.root ∧ T.parent c = some q ∧
      (G.along seg q).length < len ∧ len ≤ (G.along seg c).length := by
  refine L.shape.induction (P := fun n => len ≤ (G.along seg n).length → ∃ c q, c ∈ G.chain n ∧
    c ∈ G.live ∧ c ≠ T.root ∧ T.parent c = some q ∧ (G.along seg q).length < len ∧
    len ≤ (G.along seg c).length) ?_ ?_ n hn bound
  · intro h
    simp [L.shape.along_root] at h
    omega
  · intro q m hq hm inner hparent _ hchain ih h
    by_cases short : len ≤ (G.along seg q).length
    · obtain ⟨c, r, hc, rest⟩ := ih short
      exact ⟨c, r, hchain ▸ mem_append_left _ hc, rest⟩
    · exact ⟨m, q, L.shape.self_mem_chain hm inner, hm, inner, hparent, by omega, h⟩

theorem cover_unique {c d q r : Nat} {w : List α} (paged : P ∣ w.length)
    (hc : c ∈ G.live) (cinner : c ≠ T.root) (hcq : T.parent c = some q)
    (hd : d ∈ G.live) (dinner : d ≠ T.root) (hdr : T.parent d = some r)
    (shortq : (G.along seg q).length < w.length) (shortr : (G.along seg r).length < w.length)
    (wc : w <+: G.along seg c) (wd : w <+: G.along seg d) : c = d := by
  -- The parents lie on one way to `w`; the lower one would have to pass through the other node.
  have half : ∀ {c d q r : Nat}, c ∈ G.live → c ≠ T.root → T.parent c = some q →
      d ∈ G.live → d ≠ T.root → T.parent d = some r → (G.along seg r).length < w.length →
      w <+: G.along seg c → w <+: G.along seg d →
      (G.along seg q).length ≤ (G.along seg r).length → (G.along seg q).length < w.length → c = d := by
    intro c d q r hc cinner hcq hd dinner hdr shortr wc wd order shortq
    have hq := (L.shape.chain_up hc cinner hcq).1
    have hr := (L.shape.chain_up hd dinner hdr).1
    have wordc := L.shape.along_up seg hc cinner hcq
    have qw : G.along seg q <+: w := prefix_of_prefix_length_le (wordc ▸ prefix_append _ _)
      wc (Nat.le_of_lt shortq)
    have qd := qw.trans wd
    have above := (L.path_prefix_iff hq hd).mp qd
    have ne : d ≠ q := by
      rintro rfl
      have := wd.length_le
      omega
    obtain ⟨e, he, einner, heq, hek, hed⟩ := L.shape.child_toward hd above ne
    have worde := L.shape.along_up seg he einner heq
    have page : (seg c).take P = (seg e).take P := by
      obtain ⟨restw, hw⟩ := qw
      have long : P ≤ restw.length := by
        have sub : P ∣ restw.length := by
          have hlen := congrArg length hw
          rw [length_append] at hlen
          rw [← hlen] at paged
          exact (Nat.dvd_add_right (L.path_paged hq)).mp paged
        refine Nat.le_of_dvd ?_ sub
        rw [← hw, length_append] at shortq
        omega
      have fromc : restw <+: seg c := by
        rw [← hw, wordc, prefix_append_right_inj] at wc
        exact wc
      obtain ⟨tail, htail⟩ := L.shape.along_of_mem seg hd hed
      have frome : restw <+: seg e ++ tail := by
        rw [← hw, ← htail, worde, append_assoc, prefix_append_right_inj] at wd
        exact wd
      have first := take_page_eq fromc prefix_rfl long (L.seg_page hc cinner)
      have second := take_page_eq frome prefix_rfl long (le_trans (L.seg_page he einner) (by simp))
      rw [← first, second, take_append_of_le_length (L.seg_page he einner)]
    have same : c = e := L.child_unique hc cinner he einner
      (L.shape.chain_up hc cinner hcq).2.1 hek page
    subst same
    -- If `c` were above the parent of `d`, that parent would already be as long as `w`.
    rw [(L.shape.chain_up hd dinner hdr).2.2] at hed
    rcases mem_append.mp hed with high | low
    · have := (L.shape.along_of_mem seg hr high).length_le
      have := wc.length_le
      omega
    · exact by simpa using low
  rcases le_total (G.along seg q).length (G.along seg r).length with order | order
  · exact half hc cinner hcq hd dinner hdr shortr wc wd order shortq
  · exact (half hd dinner hdr hc cinner hcq shortq wd wc order shortr).symm

theorem along_take_eq {β : Type} {val : Nat → List β}
    (sized : ∀ n ∈ G.live, n ≠ T.root → (val n).length = (seg n).length) {n m : Nat} {w : List α}
    (hn : n ∈ G.live) (hm : m ∈ G.live) (paged : P ∣ w.length) (wn : w <+: G.along seg n)
    (wm : w <+: G.along seg m) : (G.along val n).take w.length = (G.along val m).take w.length := by
  rcases Nat.eq_zero_or_pos w.length with zero | pos
  · simp [zero]
  · obtain ⟨c, q, hcn, hc, cinner, hcq, shortq, longc⟩ := L.cover hn pos wn.length_le
    obtain ⟨d, r, hdm, hd, dinner, hdr, shortr, longd⟩ := L.cover hm pos wm.length_le
    have wc := prefix_of_prefix_length_le wn (L.shape.along_of_mem seg hn hcn) longc
    have wd := prefix_of_prefix_length_le wm (L.shape.along_of_mem seg hm hdm) longd
    have same := L.cover_unique paged hc cinner hcq hd dinner hdr shortq shortr wc wd
    subst same
    have short : w.length ≤ (G.along val c).length := L.shape.along_length_eq hc sized ▸ longc
    obtain ⟨tn, htn⟩ := L.shape.along_of_mem val hn hcn
    obtain ⟨tm, htm⟩ := L.shape.along_of_mem val hm hdm
    rw [← htn, ← htm, take_append_of_le_length short, take_append_of_le_length short]

end

end Labelled

end LinkedTree
