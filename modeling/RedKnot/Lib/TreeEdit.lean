import RedKnot.Lib.LinkedTree

/-! The three edits of a linked tree: hang a fresh leaf, drop a leaf, and put a fresh node on the
edge above a node. -/

open Function

namespace LinkedTree

open Finset List Outline Option

variable {κ : Type}

/-- Hang the fresh node `c` under `p` with tag `k`. -/
def attach [DecidableEq κ] (T : LinkedTree κ) (p c : Nat) (k : κ) : LinkedTree κ where
  root := T.root
  next := c + 1
  parent := update T.parent c (some p)
  kid := update (update T.kid p (update (T.kid p) k (some c))) c (fun _ => none)
  tag := update T.tag c k

/-- Drop `c` from the dictionary of its parent `p`. The node itself stays in the heap. -/
def detach [DecidableEq κ] (T : LinkedTree κ) (p c : Nat) : LinkedTree κ where
  root := T.root
  next := T.next
  parent := T.parent
  kid := update T.kid p (update (T.kid p) (T.tag c) none)
  tag := T.tag

/-- Put the fresh node `a` between `p` and its child `c`; `a` takes over the tag of `c`,
which is filed under `k` from now on. -/
def split [DecidableEq κ] (T : LinkedTree κ) (p c a : Nat) (k : κ) : LinkedTree κ where
  root := T.root
  next := a + 1
  parent := update (update T.parent a (some p)) c (some a)
  kid := update (update T.kid p (update (T.kid p) (T.tag c) (some a))) a
    (fun j => if j = k then some c else none)
  tag := update (update T.tag a (T.tag c)) c k

def insertAbove (c a : Nat) (l : List Nat) : List Nat :=
  l.flatMap (fun m => if m = c then [a, m] else [m])

namespace Outline

def attach (G : Outline) (p c : Nat) : Outline where
  live := insert c G.live
  chain := update G.chain c (G.chain p ++ [c])

def detach (G : Outline) (c : Nat) : Outline where
  live := G.live.erase c
  chain := G.chain

def split (G : Outline) (p c a : Nat) : Outline where
  live := insert a G.live
  chain := fun n => if n = a then G.chain p ++ [a] else insertAbove c a (G.chain n)

end Outline

namespace Shape

variable {T : LinkedTree κ} {G : Outline}

section Edits

variable [DecidableEq κ]

theorem attach (S : T.Shape G) {p c : Nat} {k : κ} (hp : p ∈ G.live) (fresh : T.next ≤ c)
    (free : T.kid p k = none) : (T.attach p c k).Shape (G.attach p c) where
  root_live := mem_insert_of_mem S.root_live
  live_lt := by
    intro n hn
    change n < c + 1
    rcases mem_insert.mp hn with rfl | hn
    · omega
    · have := S.live_lt n hn
      omega
  chain_root := by
    change update G.chain c _ T.root = []
    rw [update_of_ne (S.ne_of_fresh S.root_live fresh), S.chain_root]
  up := by
    intro n hn inner
    rcases mem_insert.mp hn with rfl | hn
    · refine ⟨p, mem_insert_of_mem hp, by simp [LinkedTree.attach], ?_, ?_⟩
      · simp [LinkedTree.attach, S.ne_of_fresh hp fresh]
      · simp [Outline.attach, S.ne_of_fresh hp fresh]
    · obtain ⟨q, hq, hparent, hkid, hchain⟩ := S.up n hn inner
      have hnc := S.ne_of_fresh hn fresh
      have hqc := S.ne_of_fresh hq fresh
      refine ⟨q, mem_insert_of_mem hq, ?_, ?_, ?_⟩
      · simp [LinkedTree.attach, hnc, hparent]
      · by_cases hqp : q = p
        · subst hqp
          have hk : T.tag n ≠ k := by
            intro h
            rw [h, free] at hkid
            cases hkid
          simp [LinkedTree.attach, hqc, hnc, hk, hkid]
        · simp [LinkedTree.attach, hqc, hqp, hnc, hkid]
      · simp [Outline.attach, hnc, hqc, hchain]
  down := by
    intro q hq j d hkid
    rcases mem_insert.mp hq with rfl | hq
    · simp [LinkedTree.attach] at hkid
    · have hqc := S.ne_of_fresh hq fresh
      have old : T.kid q j = some d → d ∈ insert c G.live ∧ d ≠ T.root ∧
          (T.attach p c k).parent d = some q ∧ (T.attach p c k).tag d = j := by
        intro h
        obtain ⟨hd, dinner, hparent, htag⟩ := S.down q hq j d h
        have hdc := S.ne_of_fresh hd fresh
        exact ⟨mem_insert_of_mem hd, dinner,
          by simp [LinkedTree.attach, hdc, hparent], by simp [LinkedTree.attach, hdc, htag]⟩
      by_cases hqp : q = p
      · subst hqp
        by_cases hjk : j = k
        · subst hjk
          have hd : d = c := by
            simpa [LinkedTree.attach, hqc] using hkid.symm
          subst hd
          exact ⟨mem_insert_self _ _, (S.ne_of_fresh S.root_live fresh).symm,
            by simp [LinkedTree.attach], by simp [LinkedTree.attach]⟩
        · exact old (by simpa [LinkedTree.attach, hqc, hjk] using hkid)
      · exact old (by simpa [LinkedTree.attach, hqc, hqp] using hkid)

theorem detach (S : T.Shape G) {p c : Nat} (hc : c ∈ G.live) (inner : c ≠ T.root)
    (hp : T.parent c = some p) (leaf : ∀ k, T.kid c k = none) :
    (T.detach p c).Shape (G.detach c) where
  root_live := mem_erase.mpr ⟨inner.symm, S.root_live⟩
  live_lt := fun n hn => S.live_lt n (mem_of_mem_erase hn)
  chain_root := S.chain_root
  up := by
    intro n hn ninner
    have hn' := mem_of_mem_erase hn
    obtain ⟨q, hq, hparent, hkid, hchain⟩ := S.up n hn' ninner
    have hqc : q ≠ c := by
      rintro rfl
      rw [leaf] at hkid
      cases hkid
    refine ⟨q, mem_erase.mpr ⟨hqc, hq⟩, hparent, ?_, hchain⟩
    by_cases hqp : q = p
    · subst hqp
      have htag : T.tag n ≠ T.tag c := by
        intro h
        have hkc := (S.chain_up hc inner hp).2.1
        rw [h, hkc] at hkid
        exact ne_of_mem_erase hn (some.inj hkid).symm
      simp [LinkedTree.detach, htag, hkid]
    · simp [LinkedTree.detach, hqp, hkid]
  down := by
    intro q hq j d hkid
    have old : T.kid q j = some d := by
      by_cases hqp : q = p
      · subst hqp
        by_cases hj : j = T.tag c
        · subst hj
          simp [LinkedTree.detach] at hkid
        · simpa [LinkedTree.detach, hj] using hkid
      · simpa [LinkedTree.detach, hqp] using hkid
    obtain ⟨hd, dinner, hparent, htag⟩ := S.down q (mem_of_mem_erase hq) j d old
    refine ⟨mem_erase.mpr ⟨?_, hd⟩, dinner, hparent, htag⟩
    rintro rfl
    have hqp : q = p := some.inj (hparent.symm.trans hp)
    subst hqp
    simp [LinkedTree.detach, ← htag] at hkid

variable {l : List Nat}

theorem insertAbove_of_not_mem {c a : Nat} (h : c ∉ l) : insertAbove c a l = l := by
  induction l with
  | nil => rfl
  | cons m l ih =>
    have hm : m ≠ c := fun e => h (by simp [e])
    have hl : c ∉ l := fun e => h (by simp [e])
    have tail := ih hl
    simp only [insertAbove] at tail
    simp [insertAbove, hm, tail]

theorem mem_insertAbove {c a m : Nat} : m ∈ insertAbove c a l ↔ m ∈ l ∨ (m = a ∧ c ∈ l) := by
  simp only [insertAbove, mem_flatMap]
  constructor
  · rintro ⟨x, hx, hm⟩
    by_cases hxc : x = c
    · simp only [hxc, if_pos] at hm
      rcases List.mem_cons.mp hm with rfl | hm
      · exact .inr ⟨rfl, hxc ▸ hx⟩
      · have : m = c := by simpa using hm
        exact .inl (this ▸ hxc ▸ hx)
    · have : m = x := by simpa [hxc] using hm
      exact .inl (this ▸ hx)
  · rintro (hm | ⟨rfl, hc⟩)
    · refine ⟨m, hm, ?_⟩
      by_cases hmc : m = c <;> simp [hmc]
    · exact ⟨c, hc, by simp⟩

theorem flatMap_insertAbove {α : Type} {f g : Nat → List α} {c a : Nat}
    (here : g a ++ g c = f c) (there : ∀ m ∈ l, m ≠ c → g m = f m) :
    (insertAbove c a l).flatMap g = l.flatMap f := by
  rw [insertAbove, flatMap_assoc]
  apply flatMap_congr
  intro m hm
  by_cases hmc : m = c
  · simp [hmc, here]
  · simp [hmc, there m hm hmc]

theorem split (S : T.Shape G) {p c a : Nat} {k : κ} (hc : c ∈ G.live) (inner : c ≠ T.root)
    (hp : T.parent c = some p) (fresh : T.next ≤ a) : (T.split p c a k).Shape (G.split p c a) where
  root_live := mem_insert_of_mem S.root_live
  live_lt := by
    intro n hn
    change n < a + 1
    rcases mem_insert.mp hn with rfl | hn
    · omega
    · have := S.live_lt n hn
      omega
  chain_root := by
    have h := S.ne_of_fresh S.root_live fresh
    simp [LinkedTree.split, Outline.split, h, S.chain_root, insertAbove]
  up := by
    intro n hn ninner
    obtain ⟨plive, hkc, hchainc⟩ := S.chain_up hc inner hp
    have hpa := S.ne_of_fresh plive fresh
    have hca := S.ne_of_fresh hc fresh
    -- The parent of `c` is never `c` itself, nor below it: its chain is shorter.
    have above : c ∉ G.chain p := by
      intro h
      have := (S.chain_of_mem plive c h).length_le
      simp [hchainc] at this
    rcases mem_insert.mp hn with rfl | hn
    · refine ⟨p, mem_insert_of_mem plive, ?_, ?_, ?_⟩
      · simp [LinkedTree.split, hca.symm]
      · simp [LinkedTree.split, hpa, hca.symm]
      · simp [Outline.split, hpa, insertAbove_of_not_mem above]
    · obtain ⟨q, hq, hparent, hkid, hchain⟩ := S.up n hn ninner
      have hna := S.ne_of_fresh hn fresh
      have hqa := S.ne_of_fresh hq fresh
      by_cases hnc : n = c
      · subst hnc
        refine ⟨a, mem_insert_self _ _, by simp [LinkedTree.split], ?_, ?_⟩
        · simp [LinkedTree.split]
        · have same := insertAbove_of_not_mem (a := a) above
          simp only [insertAbove] at same
          simp [Outline.split, hna, hchainc, insertAbove, same]
      · refine ⟨q, mem_insert_of_mem hq, ?_, ?_, ?_⟩
        · simp [LinkedTree.split, hnc, hna, hparent]
        · by_cases hqp : q = p
          · subst hqp
            have htag : T.tag n ≠ T.tag c := by
              intro h
              rw [h, hkc] at hkid
              exact hnc (some.inj hkid).symm
            simp [LinkedTree.split, hqa, hnc, hna, htag, hkid]
          · simp [LinkedTree.split, hqa, hqp, hnc, hna, hkid]
        · simp [Outline.split, hna, hqa, hchain, insertAbove, hnc]
  down := by
    intro q qlive j d hkid
    have hca := S.ne_of_fresh hc fresh
    obtain ⟨plive, hkc, _⟩ := S.chain_up hc inner hp
    rcases mem_insert.mp qlive with rfl | hq
    · by_cases hj : j = k
      · subst hj
        have hd : d = c := by simpa [LinkedTree.split] using hkid.symm
        subst hd
        exact ⟨mem_insert_of_mem hc, inner, by simp [LinkedTree.split],
          by simp [LinkedTree.split]⟩
      · simp [LinkedTree.split, hj] at hkid
    · have hqa := S.ne_of_fresh hq fresh
      -- Every other entry is an old one whose node is not `c`: `c` is filed under `p` only.
      have old : T.kid q j = some d → d ≠ c → d ∈ insert a G.live ∧ d ≠ T.root ∧
          (T.split p c a k).parent d = some q ∧ (T.split p c a k).tag d = j := by
        intro h hdc
        obtain ⟨hd, dinner, hparent, htag⟩ := S.down q hq j d h
        have hda := S.ne_of_fresh hd fresh
        exact ⟨mem_insert_of_mem hd, dinner, by simp [LinkedTree.split, hdc, hda, hparent],
          by simp [LinkedTree.split, hdc, hda, htag]⟩
      by_cases hqp : q = p
      · subst hqp
        by_cases hj : j = T.tag c
        · subst hj
          have hd : d = a := by simpa [LinkedTree.split, hqa] using hkid.symm
          subst hd
          exact ⟨mem_insert_self _ _, (S.ne_of_fresh S.root_live fresh).symm,
            by simp [LinkedTree.split, hca.symm], by simp [LinkedTree.split, hca.symm]⟩
        · have h : T.kid q j = some d := by simpa [LinkedTree.split, hqa, hj] using hkid
          refine old h ?_
          rintro rfl
          exact hj (S.down q hq j d h).2.2.2.symm
      · have h : T.kid q j = some d := by simpa [LinkedTree.split, hqa, hqp] using hkid
        refine old h ?_
        rintro rfl
        exact hqp (some.inj ((S.down q hq j d h).2.2.1.symm.trans hp))

end Edits

theorem attach_chain_old (S : T.Shape G) {p c : Nat} (fresh : T.next ≤ c) {n : Nat}
    (live : n ∈ G.live) : (G.attach p c).chain n = G.chain n := by
  simp [Outline.attach, S.ne_of_fresh live fresh]

theorem mem_split_chain (S : T.Shape G) {p c a : Nat} (fresh : T.next ≤ a) {n m : Nat}
    (live : n ∈ G.live) :
    m ∈ (G.split p c a).chain n ↔ m ∈ G.chain n ∨ (m = a ∧ c ∈ G.chain n) := by
  simp only [Outline.split, if_neg (S.ne_of_fresh live fresh)]
  exact mem_insertAbove

section Along

variable {α : Type} {f g : Nat → List α} {p c a : Nat}

theorem attach_along_old (S : T.Shape G) (fresh : T.next ≤ c)
    (same : ∀ m ∈ G.live, m ≠ T.root → g m = f m) {n : Nat} (live : n ∈ G.live) :
    (G.attach p c).along g n = G.along f n := by
  rw [← S.along_congr live same]
  simp [along, Outline.attach, S.ne_of_fresh live fresh]

theorem attach_along_new (S : T.Shape G) (hp : p ∈ G.live)
    (same : ∀ m ∈ G.live, m ≠ T.root → g m = f m) :
    (G.attach p c).along g c = G.along f p ++ g c := by
  rw [← S.along_congr hp same]
  simp [along, Outline.attach]

theorem split_along_old (S : T.Shape G) (fresh : T.next ≤ a) (here : g a ++ g c = f c)
    (there : ∀ m ∈ G.live, m ≠ T.root → m ≠ c → g m = f m) {n : Nat} (live : n ∈ G.live) :
    (G.split p c a).along g n = G.along f n := by
  have hn := S.ne_of_fresh live fresh
  simp only [along, Outline.split, if_neg hn]
  apply flatMap_insertAbove here
  intro m hm hmc
  have h := S.chain_live live m hm
  exact there m h.1 h.2 hmc

theorem split_along_new (S : T.Shape G) (hc : c ∈ G.live) (inner : c ≠ T.root)
    (hp : T.parent c = some p) (there : ∀ m ∈ G.live, m ≠ T.root → m ≠ c → g m = f m) :
    (G.split p c a).along g a = G.along f p ++ g a := by
  obtain ⟨plive, _, hchain⟩ := S.chain_up hc inner hp
  have above : ∀ m ∈ G.chain p, g m = f m := by
    intro m hm
    have h := S.chain_live plive m hm
    refine there m h.1 h.2 ?_
    rintro rfl
    have := (S.chain_of_mem plive m hm).length_le
    simp [hchain] at this
  simp [along, Outline.split, flatMap_congr above]

end Along

section Sums

variable {M : Type} {f g : Nat → M} {p c a : Nat}

theorem attach_total [AddCommMonoid M] (S : T.Shape G) (fresh : T.next ≤ c)
    (same : ∀ n ∈ G.live, n ≠ T.root → g n = f n) :
    (G.attach p c).total T.root g = G.total T.root f + g c := by
  have hroot : c ≠ T.root := (S.ne_of_fresh S.root_live fresh).symm
  have hset : (insert c G.live).erase T.root = insert c (G.live.erase T.root) :=
    erase_insert_of_ne hroot
  have hc : c ∉ G.live.erase T.root := fun h => S.fresh_not_mem fresh (mem_of_mem_erase h)
  change ∑ n ∈ (insert c G.live).erase T.root, g n = _
  rw [hset, sum_insert hc, add_comm]
  exact congrArg (· + g c) (total_congr same)

theorem detach_total [AddCommGroup M] {root : Nat} (hc : c ∈ G.live) (inner : c ≠ root) :
    (G.detach c).total root f = G.total root f - f c := by
  have ha : c ∈ G.live.erase root := mem_erase.mpr ⟨inner, hc⟩
  change ∑ n ∈ (G.live.erase c).erase root, f n = ∑ n ∈ G.live.erase root, f n - f c
  rw [erase_right_comm, ← sum_erase_add _ f ha]
  abel

theorem split_total [AddCommGroup M] (S : T.Shape G) (hc : c ∈ G.live) (inner : c ≠ T.root)
    (fresh : T.next ≤ a) (here : g a + g c = f c)
    (there : ∀ m ∈ G.live, m ≠ T.root → m ≠ c → g m = f m) :
    (G.split p c a).total T.root g = G.total T.root f := by
  have hroot : a ≠ T.root := (S.ne_of_fresh S.root_live fresh).symm
  have hset : (insert a G.live).erase T.root = insert a (G.live.erase T.root) :=
    erase_insert_of_ne hroot
  have ha : a ∉ G.live.erase T.root := fun h => S.fresh_not_mem fresh (mem_of_mem_erase h)
  change ∑ n ∈ (insert a G.live).erase T.root, g n = _
  rw [hset, sum_insert ha]
  change g a + G.total T.root g = G.total T.root f
  rw [total_change hc inner there, ← here]
  abel

end Sums

end Shape

end LinkedTree
