import RedKnot.Gateway.TenantTree

/-! The tree of the gateway refines the prefix sets of its tenants. -/

namespace RedKnot.Gateway.TenantTree

open List Forest AList

namespace Forest

theorem get_remove (f : Forest) (c d : Char) :
    (f.remove c).get d = if d = c then none else f.get d := by
  induction f with
  | nil => simp [remove, get]
  | cons key node children rest _ ih =>
    by_cases same : key = c
    · rw [remove, if_pos same, ih, get]
      split
      · rfl
      · next other => rw [if_neg fun h : key = d => other (h ▸ same)]
    · rw [remove, if_neg same, get, ih, get]
      split
      · next here => rw [if_neg fun h => same (here.trans h)]
      · rfl

theorem get_insert (f : Forest) (c d : Char) (node : Node) (children : Forest) :
    (f.insert c node children).get d = if d = c then some (node, children) else f.get d := by
  rw [insert, get, get_remove]
  by_cases same : d = c
  · rw [if_pos same.symm, if_pos same]
  · rw [if_neg (Ne.symm same), if_neg same, if_neg same]

variable {f : Forest}

theorem distinct_remove (distinct : f.Distinct) (c : Char) : (f.remove c).Distinct := by
  induction f with
  | nil => trivial
  | cons key node children rest _ ih =>
    rw [remove]
    split
    · exact ih distinct.2.2
    · refine ⟨?_, distinct.2.1, ih distinct.2.2⟩
      rw [get_remove, distinct.1, ite_self]

theorem distinct_insert {k : Forest} (distinct : f.Distinct) (below : k.Distinct) (c : Char)
    (n : Node) : (f.insert c n k).Distinct :=
  ⟨by rw [get_remove, if_pos rfl], below, distinct_remove distinct c⟩

theorem any_iff (distinct : f.Distinct) (p : Node → Bool) :
    f.any p = true ↔ ∃ c n k, f.get c = some (n, k) ∧ p n = true := by
  induction f with
  | nil => simp [any, get]
  | cons key node children rest _ ih =>
    rw [any, Bool.or_eq_true, ih distinct.2.2]
    constructor
    · rintro (here | ⟨c, n, k, there, holds⟩)
      · exact ⟨key, node, children, if_pos rfl, here⟩
      · refine ⟨c, n, k, ?_, holds⟩
        rw [get, if_neg, there]
        rintro rfl
        rw [distinct.1] at there
        cases there
    · rintro ⟨c, n, k, there, holds⟩
      rw [get] at there
      split at there
      · cases there
        exact .inl holds
      · exact .inr ⟨c, n, k, there, holds⟩

theorem isEmpty_iff (f : Forest) : f.isEmpty = true ↔ ∀ c, f.get c = none := by
  cases f with
  | nil => exact ⟨fun _ _ => rfl, fun _ => rfl⟩
  | cons key node children rest =>
    refine ⟨nofun, fun h => ?_⟩
    have := h key
    rw [get, if_pos rfl] at this
    cases this

theorem load_get {k : Forest} {n : Node} {c : Char} (distinct : f.Distinct)
    (here : f.get c = some (n, k)) :
    f.load = n.tenantLastAccessTime.keys.length + k.load + (f.remove c).load := by
  induction f with
  | nil => cases here
  | cons key node children rest _ ih =>
    rw [get] at here
    split at here
    · next same =>
      cases here
      have absent : ∀ g : Forest, g.get c = none → g.remove c = g := by
        intro g
        induction g with
        | nil => exact fun _ => rfl
        | cons key' _ _ _ _ ih' =>
          intro h
          rw [get] at h
          split at h
          · cases h
          · next other => rw [remove, if_neg other, ih' h]
      rw [remove, if_pos same, absent rest (same ▸ distinct.1), load]
    · next other =>
      rw [remove, if_neg other, load, load, ih distinct.2.2 here]
      omega

theorem sizeOf_get {k : Forest} {n : Node} {c : Char} (here : f.get c = some (n, k)) :
    sizeOf k < sizeOf f := by
  induction f with
  | nil => cases here
  | cons key node children rest _ ih =>
    rw [get] at here
    split at here
    · cases here
      simp only [cons.sizeOf_spec]
      omega
    · have := ih here
      simp only [cons.sizeOf_spec]
      omega

theorem ne_nil_of_mem_places {a : List Char} (mem : a ∈ f.places) :
    ∃ c cs, a = c :: cs ∧ f.get c ≠ none := by
  induction f with
  | nil => cases mem
  | cons key node children rest _ ih =>
    have here : (cons key node children rest).get key ≠ none := by
      rw [get, if_pos rfl]
      nofun
    rcases mem_append.mp mem with first | later
    · rcases mem_cons.mp first with rfl | inside
      · exact ⟨key, [], rfl, here⟩
      · obtain ⟨cs, -, rfl⟩ := mem_map.mp inside
        exact ⟨key, cs, rfl, here⟩
    · obtain ⟨c, cs, rfl, there⟩ := ih later
      refine ⟨c, cs, rfl, ?_⟩
      rw [get]
      split
      · nofun
      · exact there

theorem places_nodup (distinct : f.Distinct) : f.places.Nodup := by
  induction f with
  | nil => exact nodup_nil
  | cons key node children rest ihChildren ihRest =>
    refine nodup_append.mpr ⟨nodup_cons.mpr ⟨?_, ?_⟩, ihRest distinct.2.2, ?_⟩
    · intro mem
      obtain ⟨cs, inside, same⟩ := mem_map.mp mem
      obtain ⟨_, _, rfl, -⟩ := ne_nil_of_mem_places inside
      cases same
    · exact (ihChildren distinct.2.1).map fun _ _ => tail_eq_of_cons_eq
    · rintro a first b later rfl
      obtain ⟨c, cs, rfl, there⟩ := ne_nil_of_mem_places later
      have keyed : c = key := by
        rcases mem_cons.mp first with same | inside
        · exact head_eq_of_cons_eq same
        · obtain ⟨_, -, same⟩ := mem_map.mp inside
          exact (head_eq_of_cons_eq same).symm
      exact there (keyed ▸ distinct.1)

theorem mem_places_of_get {k : Forest} {n : Node} {c : Char} {cs : List Char}
    (here : f.get c = some (n, k)) (below : cs = [] ∨ cs ∈ k.places) : c :: cs ∈ f.places := by
  induction f with
  | nil => cases here
  | cons key node children rest _ ih =>
    rw [get] at here
    rw [places, mem_append]
    split at here
    · next same =>
      cases here
      subst same
      refine .inl (mem_cons.mpr ?_)
      rcases below with rfl | inside
      · exact .inl rfl
      · exact .inr (mem_map_of_mem inside)
    · exact .inr (ih here)

end Forest

namespace Node

section

variable (n : Node)

theorem containsKey_iff (t : TenantId) : n.containsKey t = true ↔ n.Contains t :=
  lookup_isSome

theorem contains_touch (t u : TenantId) (e : Nat) :
    (n.touch t e).Contains u ↔ u = t ∨ n.Contains u := mem_insert _

theorem contains_attach (t u : TenantId) : (n.attach t).Contains u ↔ u = t ∨ n.Contains u := by
  rw [attach]
  split
  · next there =>
    refine ⟨.inr, fun h => h.elim ?_ id⟩
    rintro rfl
    exact (n.containsKey_iff u).mp there
  · exact n.contains_touch t u 0

theorem contains_drop (t u : TenantId) :
    (n.drop t).Contains u ↔ u ≠ t ∧ n.Contains u := mem_erase

theorem text_attach (t : TenantId) : (n.attach t).text = n.text := by
  rw [attach]
  split <;> rfl

end

end Node

/-- A child stands under the first character of its text, has a tenant, and its tenants are
tenants of its parent. -/
structure Edge (c : Char) (parent child : Node) : Prop where
  first : child.text.head? = some c
  used : ∃ t, child.Contains t
  up : ∀ t, child.Contains t → parent.Contains t

inductive Good : Node → Forest → Prop
  | mk {n : Node} {k : Forest} (distinct : k.Distinct)
      (edge : ∀ c n' k', k.get c = some (n', k') → Edge c n n')
      (below : ∀ c n' k', k.get c = some (n', k') → Good n' k') : Good n k

namespace Good

variable {n m : Node} {k l : Forest} {c : Char} {t u : TenantId}

theorem distinct (good : Good n k) : k.Distinct := by cases good; assumption

theorem edge (good : Good n k) (here : k.get c = some (m, l)) : Edge c n m := by
  cases good with
  | mk _ edge _ => exact edge c m l here

theorem sub (good : Good n k) (here : k.get c = some (m, l)) : Good m l := by
  cases good with
  | mk _ _ below => exact below c m l here

theorem leaf (n : Node) : Good n .nil := .mk trivial nofun nofun

theorem mono (good : Good n k) (more : ∀ u, n.Contains u → m.Contains u) : Good m k :=
  .mk good.distinct
    (fun _ _ _ here =>
      ⟨(good.edge here).first, (good.edge here).used, fun u h => more u ((good.edge here).up u h)⟩)
    fun _ _ _ here => good.sub here

theorem remove (good : Good n k) (c : Char) : Good n (k.remove c) := by
  have old : ∀ {d m l}, (k.remove c).get d = some (m, l) → k.get d = some (m, l) := by
    intro d m l here
    rw [get_remove] at here
    split at here
    · cases here
    · exact here
  exact .mk (distinct_remove good.distinct c) (fun _ _ _ here => good.edge (old here))
    fun _ _ _ here => good.sub (old here)

theorem insert (good : Good n k) (edge : Edge c n m) (sub : Good m l) :
    Good n (k.insert c m l) := by
  have either : ∀ {d m' l'}, (k.insert c m l).get d = some (m', l') →
      (d = c ∧ m' = m ∧ l' = l) ∨ k.get d = some (m', l') := by
    intro d m' l' here
    rw [get_insert] at here
    split at here
    · next same =>
      cases here
      exact .inl ⟨same, rfl, rfl⟩
    · exact .inr here
  refine .mk (distinct_insert good.distinct sub.distinct c m) ?_ ?_
  · intro d m' l' here
    rcases either here with ⟨rfl, rfl, rfl⟩ | old
    · exact edge
    · exact good.edge old
  · intro d m' l' here
    rcases either here with ⟨rfl, rfl, rfl⟩ | old
    · exact sub
    · exact good.sub old

theorem contains_of_has (good : Good n k) {a x : List Char} (has : Has t n k a x) :
    n.Contains t := by
  induction a generalizing n k x with
  | nil => exact has.1
  | cons c cs ih =>
    obtain ⟨m, l, v, here, -, has⟩ := has
    exact (good.edge here).up t (ih (good.sub here) has)

end Good

def Under (t : TenantId) (n : Node) (k : Forest) (w : List Char) : Prop :=
  ∃ a x, Has t n k a x ∧ w <+: n.text ++ x

theorem prefix_append_cases {w a b : List Char} :
    w <+: a ++ b ↔ w <+: a ∨ ∃ v, w = a ++ v ∧ v <+: b := by
  constructor
  · intro h
    rcases prefix_or_prefix_of_prefix h (prefix_append a b) with short | ⟨v, rfl⟩
    · exact .inl short
    · exact .inr ⟨v, rfl, (prefix_append_right_inj a).mp h⟩
  · rintro (short | ⟨v, rfl, h⟩)
    · exact short.trans (prefix_append a b)
    · exact (prefix_append_right_inj a).mpr h

section Holds

variable {n m : Node} {k l : Forest} {c : Char} {t u : TenantId} {w : List Char}

theorem holds_iff : Holds u n k w ↔
    (n.Contains u ∧ w = []) ∨ ∃ c m l, k.get c = some (m, l) ∧ Under u m l w := by
  constructor
  · rintro ⟨a, x, has, pre⟩
    cases a with
    | nil => exact .inl ⟨has.1, prefix_nil.mp (has.2 ▸ pre)⟩
    | cons c cs =>
      obtain ⟨m, l, v, here, rfl, has⟩ := has
      exact .inr ⟨c, m, l, here, cs, v, has, pre⟩
  · rintro (⟨has, rfl⟩ | ⟨c, m, l, here, a, x, has, pre⟩)
    · exact ⟨[], [], ⟨has, rfl⟩, prefix_rfl⟩
    · exact ⟨c :: a, m.text ++ x, ⟨m, l, x, here, rfl, has⟩, pre⟩

theorem under_iff (good : Good n k) : Under u n k w ↔
    (n.Contains u ∧ w <+: n.text) ∨ ∃ v, w = n.text ++ v ∧ Holds u n k v := by
  constructor
  · rintro ⟨a, x, has, pre⟩
    rcases prefix_append_cases.mp pre with short | ⟨v, rfl, rest⟩
    · exact .inl ⟨good.contains_of_has has, short⟩
    · exact .inr ⟨v, rfl, a, x, has, rest⟩
  · rintro (⟨has, short⟩ | ⟨v, rfl, a, x, has, rest⟩)
    · exact ⟨[], [], ⟨has, rfl⟩, by rwa [append_nil]⟩
    · exact ⟨a, x, has, (prefix_append_right_inj _).mpr rest⟩

theorem holds_nil (good : Good n k) : Holds u n k [] ↔ n.Contains u := by
  constructor
  · rintro ⟨a, x, has, -⟩
    exact good.contains_of_has has
  · exact fun has => ⟨[], [], ⟨has, rfl⟩, prefix_rfl⟩

theorem holds_get (here : k.get c = some (m, l)) :
    Holds u n k w ↔ Holds u n (k.remove c) w ∨ Under u m l w := by
  rw [holds_iff, holds_iff]
  simp only [get_remove]
  constructor
  · rintro (empty | ⟨d, m', l', there, under⟩)
    · exact .inl (.inl empty)
    · by_cases same : d = c
      · subst same
        cases here.symm.trans there
        exact .inr under
      · exact .inl (.inr ⟨d, m', l', by rw [if_neg same, there], under⟩)
  · rintro ((empty | ⟨d, m', l', there, under⟩) | under)
    · exact .inl empty
    · split at there
      · cases there
      · exact .inr ⟨d, m', l', there, under⟩
    · exact .inr ⟨c, m, l, here, under⟩

theorem holds_insert : Holds u n (k.insert c m l) w ↔ Holds u n (k.remove c) w ∨ Under u m l w := by
  have here : (k.insert c m l).get c = some (m, l) := by rw [get_insert, if_pos rfl]
  have rest : ∀ d, ((k.insert c m l).remove c).get d = (k.remove c).get d := by
    intro d
    rw [get_remove, get_remove, get_insert]
    split <;> rfl
  rw [holds_get here]
  refine or_congr_left ?_
  rw [holds_iff, holds_iff]
  simp only [rest]

theorem holds_remove_of_none (here : k.get c = none) :
    Holds u n (k.remove c) w ↔ Holds u n k w := by
  have same : ∀ d, (k.remove c).get d = k.get d := by
    intro d
    rw [get_remove]
    split
    · next h => rw [h, here]
    · rfl
  rw [holds_iff, holds_iff]
  simp only [same]

end Holds

section Shared

variable {r text w : List Char}

theorem length_le_shared (left : w <+: r) (right : w <+: text) :
    w.length ≤ sharedPrefixCountChars r text := by
  induction w generalizing r text with
  | nil => exact Nat.zero_le _
  | cons c w ih =>
    obtain ⟨r', rfl⟩ := left
    obtain ⟨text', rfl⟩ := right
    rw [cons_append, cons_append, sharedPrefixCountChars_cons, if_pos rfl,
      length_cons]
    exact Nat.succ_le_succ (ih (prefix_append w r') (prefix_append w text'))

end Shared

section Insert

variable {n m node : Node} {k l below : Forest} {c : Char} {t u : TenantId} {w : List Char}

theorem has_text {a x text : List Char} : Has u { n with text := text } k a x ↔ Has u n k a x := by
  cases a <;> rfl

theorem splitMatched_spec {shared : Nat} (good : Good node below) (used : ∃ t, node.Contains t)
    (cut : shared ≤ node.text.length) :
    ∃ mid midChildren, splitMatched node below shared = some (mid, midChildren) ∧
      Good mid midChildren ∧ mid.text = node.text.take shared ∧
      (∀ u, mid.Contains u ↔ node.Contains u) ∧
      ∀ u w, Under u mid midChildren w ↔ Under u node below w := by
  unfold splitMatched
  split
  · next less =>
    rw [splitAtChar_eq]
    obtain ⟨d, left, split⟩ : ∃ d left, node.text.drop shared = d :: left :=
      exists_cons_of_ne_nil fun empty => by
        have := drop_eq_nil_iff.mp empty
        omega
    rw [split]
    have whole : ∀ x, node.text ++ x = node.text.take shared ++ (d :: left ++ x) := fun x => by
      rw [← split, ← append_assoc, take_append_drop]
    have midGood : Good ⟨node.text.take shared, node.tenantLastAccessTime, node.lastTenant⟩
        (nil.insert d { node with text := d :: left } below) :=
      (Good.leaf _).insert ⟨rfl, used, fun _ h => h⟩ (good.mono fun _ h => h)
    refine ⟨_, _, rfl, midGood, rfl, fun _ => Iff.rfl, fun u w => ⟨fun h => ?_, ?_⟩⟩
    · rcases (under_iff midGood).mp h with ⟨has, short⟩ | ⟨v, rfl, holds⟩
      · exact ⟨[], [], ⟨has, rfl⟩, by
          rw [append_nil]
          exact short.trans (List.take_prefix _ _)⟩
      · rcases holds_insert.mp holds with empty | ⟨a, x, has, pre⟩
        · rcases holds_iff.mp empty with ⟨has, rfl⟩ | ⟨_, _, _, absent, -⟩
          · exact ⟨[], [], ⟨has, rfl⟩, by
              rw [append_nil, append_nil]
              exact List.take_prefix _ _⟩
          · cases absent
        · refine ⟨a, x, has_text.mp has, ?_⟩
          rw [whole]
          exact (prefix_append_right_inj _).mpr pre
    · rintro ⟨a, x, has, pre⟩
      rw [whole] at pre
      refine (under_iff midGood).mpr ?_
      rcases prefix_append_cases.mp pre with short | ⟨v, rfl, rest⟩
      · exact .inl ⟨good.contains_of_has has, short⟩
      · exact .inr ⟨v, rfl, holds_insert.mpr (.inr ⟨a, x, has_text.mpr has, rest⟩)⟩
  · next full =>
    refine ⟨node, below, rfl, good, ?_, fun _ => Iff.rfl, fun _ _ => Iff.rfl⟩
    rw [take_of_length_le (by omega)]

theorem under_attach : Under u (n.attach t) k w ↔ Under u n k w ∨ (u = t ∧ w <+: n.text) := by
  have has : ∀ a x, Has u (n.attach t) k a x ↔ Has u n k a x ∨ (u = t ∧ a = [] ∧ x = []) := by
    intro a x
    cases a with
    | nil =>
      simp only [Has, n.contains_attach]
      tauto
    | cons c cs => simp [Has]
  unfold Under
  simp only [has, n.text_attach]
  constructor
  · rintro ⟨a, x, old | ⟨rfl, rfl, rfl⟩, pre⟩
    · exact .inl ⟨a, x, old, pre⟩
    · exact .inr ⟨rfl, by rwa [append_nil] at pre⟩
  · rintro (⟨a, x, old, pre⟩ | ⟨rfl, pre⟩)
    · exact ⟨a, x, .inl old, pre⟩
    · exact ⟨[], [], .inr ⟨rfl, rfl, rfl⟩, by rwa [append_nil]⟩

theorem insertLoop_end (t : TenantId) (e fuel : Nat) (good : Good n k) (has : n.Contains t) :
    ∃ n' k' added, insertLoop t e fuel n k [] = some (n', k', added) ∧ Good n' k' ∧
      n'.text = n.text ∧ (∀ u, n'.Contains u ↔ n.Contains u) ∧
      ∀ u w, Holds u n' k' w ↔ Holds u n k w ∨ (u = t ∧ w <+: []) := by
  refine ⟨n.touch t e, k, 0, by cases fuel <;> rfl,
    good.mono fun u h => (n.contains_touch t u e).mpr (.inr h), rfl, fun u => ?_, fun u w => ?_⟩
  · rw [n.contains_touch]
    exact ⟨fun h => h.elim (fun same => same ▸ has) id, .inr⟩
  · rw [holds_iff, holds_iff, n.contains_touch, prefix_nil, or_and_right, or_assoc, or_comm]

theorem insertLoop_spec (t : TenantId) (e : Nat) {fuel : Nat} {r : List Char} (good : Good n k)
    (has : n.Contains t) (enough : r.length ≤ fuel) :
    ∃ n' k' added, insertLoop t e fuel n k r = some (n', k', added) ∧ Good n' k' ∧
      n'.text = n.text ∧ (∀ u, n'.Contains u ↔ n.Contains u) ∧
      ∀ u w, Holds u n' k' w ↔ Holds u n k w ∨ (u = t ∧ w <+: r) := by
  induction fuel generalizing n k r with
  | zero =>
    obtain rfl := eq_nil_of_length_eq_zero (Nat.le_zero.mp enough)
    exact insertLoop_end t e 0 good has
  | succ fuel ih =>
    cases r with
    | nil => exact insertLoop_end t e _ good has
    | cons c rest =>
      rw [insertLoop]
      cases here : k.get c with
      | none =>
        refine ⟨_, _, _, rfl, good.insert ⟨rfl, ⟨t, mem_insert _ |>.mpr (.inl rfl)⟩, ?_⟩
          (.leaf _), rfl, fun _ => Iff.rfl, fun u w => ?_⟩
        · intro u h
          rcases (mem_insert _).mp h with rfl | h
          · exact has
          · exact absurd h (notMem_empty _)
        · rw [holds_insert, holds_remove_of_none here]
          refine or_congr_right ⟨?_, ?_⟩
          · rintro ⟨a, x, leaf, pre⟩
            cases a with
            | nil =>
              obtain ⟨mem, rfl⟩ := leaf
              rcases (mem_insert _).mp mem with rfl | h
              · exact ⟨rfl, by rwa [append_nil] at pre⟩
              · exact absurd h (notMem_empty _)
            | cons d ds =>
              obtain ⟨_, _, _, h, -⟩ := leaf
              cases h
          · rintro ⟨rfl, pre⟩
            exact ⟨[], [], ⟨(mem_insert _).mpr (.inl rfl), rfl⟩, by rwa [append_nil]⟩
      | some p =>
        obtain ⟨node, below⟩ := p
        have edge := good.edge here
        dsimp only
        rw [sharedPrefixCount_eq, advanceByChars_eq]
        have pos := sharedPrefixCountChars_pos rest edge.first
        have inside := sharedPrefixCountChars_le_right (c :: rest) node.text
        have same := take_sharedPrefixCountChars (c :: rest) node.text
        generalize sharedPrefixCountChars (c :: rest) node.text = q at pos inside same ⊢
        obtain ⟨mid, midChildren, split, midGood, midText, midHas, midUnder⟩ :=
          splitMatched_spec (good.sub here) edge.used inside
        have common : mid.text = (c :: rest).take q := by rw [midText, same]
        have mono : ∀ u, mid.Contains u → (mid.attach t).Contains u := fun u h =>
          (mid.contains_attach t u).mpr (.inr h)
        have shorter : ((c :: rest).drop q).length ≤ fuel := by
          rw [length_drop]
          rw [length_cons] at enough ⊢
          omega
        obtain ⟨next, nextChildren, added, runs, nextGood, nextText, nextHas, nextHolds⟩ :=
          ih (midGood.mono mono) ((mid.contains_attach t t).mpr (.inl rfl)) shorter
        rw [split]
        dsimp only
        rw [runs]
        have under : ∀ u w, Under u next nextChildren w ↔
            Under u node below w ∨ (u = t ∧ w <+: c :: rest) := by
          intro u w
          have parts : w <+: c :: rest ↔ w <+: mid.text ∨
              ∃ v, w = mid.text ++ v ∧ v <+: (c :: rest).drop q := by
            rw [← prefix_append_cases, common, take_append_drop]
          have next : Under u next nextChildren w ↔ Under u (mid.attach t) midChildren w ∨
              (u = t ∧ ∃ v, w = mid.text ++ v ∧ v <+: (c :: rest).drop q) := by
            rw [under_iff nextGood, under_iff (midGood.mono mono), nextText, mid.text_attach,
              nextHas]
            simp only [nextHolds]
            constructor
            · rintro (short | ⟨v, rfl, old | ⟨rfl, new⟩⟩)
              · exact .inl (.inl short)
              · exact .inl (.inr ⟨v, rfl, old⟩)
              · exact .inr ⟨rfl, v, rfl, new⟩
            · rintro ((short | ⟨v, rfl, old⟩) | ⟨rfl, v, rfl, new⟩)
              · exact .inl short
              · exact .inr ⟨v, rfl, .inl old⟩
              · exact .inr ⟨v, rfl, .inr ⟨rfl, new⟩⟩
          rw [next, under_attach, midUnder, parts, and_or_left, or_assoc]
        refine ⟨_, _, _, rfl, good.insert ⟨?_, ⟨t, ?_⟩, ?_⟩ nextGood, rfl, fun _ => Iff.rfl, ?_⟩
        · rw [nextText, mid.text_attach, common, head?_take, if_neg pos.ne']
          rfl
        · exact (nextHas t).mpr ((mid.contains_attach t t).mpr (.inl rfl))
        · intro u h
          rcases (mid.contains_attach t u).mp ((nextHas u).mp h) with rfl | old
          · exact has
          · exact edge.up u ((midHas u).mp old)
        · intro u w
          rw [holds_insert, under, holds_get here, or_assoc]

end Insert

section Walk

variable {α : Type} {n m : Node} {k l : Forest} {c : Char} {t u : TenantId} {w : List Char}
  {U : TenantId → Prop} {enter : Node → Bool} {use : Node → Node × α}

structure Keeps (n n' : Node) : Prop where
  text : n'.text = n.text
  more : ∀ u, n.Contains u → n'.Contains u
  same : (∃ t, n.Contains t) → ∀ u, n'.Contains u → n.Contains u

theorem under_head (edge : Edge c n m) (under : Under u m l w) : w = [] ∨ w.head? = some c := by
  obtain ⟨a, x, -, pre⟩ := under
  have first := edge.first
  cases w with
  | nil => exact .inl rfl
  | cons d w =>
    cases text : m.text with
    | nil =>
      rw [text] at first
      cases first
    | cons d' rest =>
      rw [text] at first pre
      cases first
      rw [cons_append, cons_prefix_cons] at pre
      exact .inr (pre.1 ▸ rfl)

theorem exists_under {rest : List Char} (good : Good n k) (holds : Holds u n k w)
    (some_char : w ≠ []) (pre : w <+: c :: rest) : ∃ m l, k.get c = some (m, l) ∧ Under u m l w := by
  rcases holds_iff.mp holds with ⟨-, empty⟩ | ⟨d, m, l, here, under⟩
  · exact absurd empty some_char
  · have first : w.head? = some c := by
      cases w with
      | nil => exact absurd rfl some_char
      | cons d w => rw [(cons_prefix_cons.mp pre).1]; rfl
    rcases under_head (good.edge here) under with empty | head
    · exact absurd empty some_char
    · rw [first] at head
      cases head
      exact ⟨m, l, here, under⟩

theorem under_of_get {rest : List Char} (good : Good n k) (here : k.get c = some (m, l))
    (holds : Holds u n k w) (some_char : w ≠ []) (pre : w <+: c :: rest) : Under u m l w := by
  obtain ⟨m', l', there, under⟩ := exists_under good holds some_char pre
  cases here.symm.trans there
  exact under

/-- One character more would be shared by the text. -/
theorem length_le_of_cut {r text x : List Char}
    (cut : sharedPrefixCountChars r text ≠ text.length) (pre : w <+: r) (under : w <+: text ++ x) :
    w.length ≤ sharedPrefixCountChars r text := by
  have inside := sharedPrefixCountChars_le_right r text
  by_contra long
  have first : w.take (sharedPrefixCountChars r text + 1) <+: text := by
    refine prefix_of_prefix_length_le ((List.take_prefix _ _).trans under) (prefix_append _ _) ?_
    rw [length_take]
    omega
  have := length_le_shared ((List.take_prefix _ _).trans pre) first
  rw [length_take] at this
  omega

theorem under_congr {n' : Node} {k' : Forest} (good : Good n k) (good' : Good n' k')
    (text : n'.text = n.text) (has : ∀ u, n'.Contains u ↔ n.Contains u)
    (holds : ∀ u w, w ≠ [] → (Holds u n' k' w ↔ Holds u n k w)) :
    Under u n' k' w ↔ Under u n k w := by
  have all : ∀ v, Holds u n' k' v ↔ Holds u n k v := by
    intro v
    by_cases empty : v = []
    · rw [empty, holds_nil good, holds_nil good', has]
    · exact holds u v empty
  rw [under_iff good, under_iff good', text, has]
  simp only [all]

theorem holds_keeps {n' : Node} (some_char : w ≠ []) : Holds u n' k w ↔ Holds u n k w := by
  rw [holds_iff, holds_iff]
  simp [some_char]

theorem put_child {m' : Node} {l' : Forest} (good : Good n k) (here : k.get c = some (m, l))
    (good' : Good m' l') (kept : Keeps m m')
    (same : ∀ u w, w ≠ [] → (Holds u m' l' w ↔ Holds u m l w)) : Good n (k.insert c m' l') ∧
      ∀ u w, w ≠ [] → (Holds u n (k.insert c m' l') w ↔ Holds u n k w) := by
  have edge := good.edge here
  have has : ∀ u, m'.Contains u ↔ m.Contains u := fun u => ⟨kept.same edge.used u, kept.more u⟩
  refine ⟨good.insert ⟨?_, ?_, ?_⟩ good', fun u w _ => ?_⟩
  · rw [kept.text, edge.first]
  · exact edge.used.imp fun t h => kept.more t h
  · exact fun u h => edge.up u ((has u).mp h)
  · rw [holds_insert, holds_get here, under_congr (good.sub here) good' kept.text has same]

structure Found (U : TenantId → Prop) (use : Node → Node × α) (n : Node) (k : Forest)
    (r : List Char) (matched : Nat) (answer : α) (n' : Node) (k' : Forest) : Prop where
  good : Good n' k'
  keeps : Keeps n n'
  same : ∀ u w, w ≠ [] → (Holds u n' k' w ↔ Holds u n k w)
  short : matched ≤ r.length
  longest : ∀ u w, U u → Holds u n k w → w <+: r → w.length ≤ matched
  curr : ∃ node, answer = (use node).2 ∧ (∀ u, node.Contains u → Holds u n k (r.take matched)) ∧
    ((node = n ∧ matched = 0) ∨ ∃ u, U u ∧ node.Contains u)

theorem Found.stop (keeps : ∀ n, Keeps n (use n).1) (good : Good n k) {r : List Char}
    (none_longer : ∀ u w, U u → Holds u n k w → w <+: r → w = []) :
    Found U use n k r 0 (use n).2 (use n).1 k where
  good := good.mono (keeps n).more
  keeps := keeps n
  same _ _ := holds_keeps
  short := Nat.zero_le _
  longest u w hu holds pre := by rw [none_longer u w hu holds pre, length_nil]
  curr := ⟨n, rfl, fun _ has => (holds_nil good).mpr has, .inl ⟨rfl, rfl⟩⟩

theorem walk_spec (U : TenantId → Prop) (enter : Node → Bool) (keeps : ∀ n, Keeps n (use n).1)
    (enters : ∀ n : Node, (∃ t, n.Contains t) → (enter n = true ↔ ∃ u, U u ∧ n.Contains u))
    {fuel : Nat} {r : List Char} (good : Good n k) (enough : r.length ≤ fuel) :
    ∃ matched answer n' k', walk enter use fuel n k r = some (matched, answer, n', k') ∧
      Found U use n k r matched answer n' k' := by
  induction fuel generalizing n k r with
  | zero =>
    obtain rfl := eq_nil_of_length_eq_zero (Nat.le_zero.mp enough)
    exact ⟨_, _, _, _, rfl, .stop keeps good fun _ _ _ _ pre => prefix_nil.mp pre⟩
  | succ fuel ih =>
    cases r with
    | nil => exact ⟨_, _, _, _, rfl, .stop keeps good fun _ _ _ _ pre => prefix_nil.mp pre⟩
    | cons c rest =>
      rw [walk]
      cases here : k.get c with
      | none =>
        refine ⟨_, _, _, _, rfl, .stop keeps good fun u w _ holds pre => ?_⟩
        by_contra some_char
        obtain ⟨m, l, there, -⟩ := exists_under good holds some_char pre
        rw [here] at there
        cases there
      | some p =>
        obtain ⟨child, below⟩ := p
        have edge := good.edge here
        have sub := good.sub here
        dsimp only
        split
        case isFalse closed =>
          refine ⟨_, _, _, _, rfl, .stop keeps good fun u w hu holds pre => ?_⟩
          by_contra some_char
          obtain ⟨a, x, has, -⟩ := under_of_get good here holds some_char pre
          exact closed ((enters child edge.used).mpr ⟨u, hu, sub.contains_of_has has⟩)
        next entered =>
        have entry := (enters child edge.used).mp entered
        rw [sharedPrefixCount_eq]
        have common := take_sharedPrefixCountChars (c :: rest) child.text
        have inner := sharedPrefixCountChars_le_left (c :: rest) child.text
        have inside := sharedPrefixCountChars_le_right (c :: rest) child.text
        have some_shared := sharedPrefixCountChars_pos rest edge.first
        have bounded : sharedPrefixCountChars (c :: rest) child.text ≠ child.text.length →
            ∀ w x, w <+: c :: rest → w <+: child.text ++ x →
              w.length ≤ sharedPrefixCountChars (c :: rest) child.text :=
          fun cut _ _ => length_le_of_cut cut
        generalize sharedPrefixCountChars (c :: rest) child.text = q at *
        split
        · next full =>
          have text : child.text = (c :: rest).take q := by rw [common, full, take_length]
          have whole : c :: rest = child.text ++ (c :: rest).drop q :=
            (take_append_drop _ _).symm.trans (congrArg (· ++ _) text.symm)
          obtain ⟨more, answer, child', below', runs, found⟩ :=
            ih sub (r := (c :: rest).drop q) (by rw [length_drop]; omega)
          rw [advanceByChars_eq, runs]
          obtain ⟨putGood, same⟩ := put_child good here found.good found.keeps found.same
          obtain ⟨node, answered, holds, at_node⟩ := found.curr
          refine ⟨_, _, _, _, rfl, putGood, ⟨rfl, fun _ h => h, fun _ _ h => h⟩, same, ?_, ?_,
            node, answered, fun u has => ?_, .inr ?_⟩
          · have := found.short
            rw [length_drop] at this
            omega
          · intro u w hu held pre
            by_cases empty : w = []
            · rw [empty]
              exact Nat.zero_le _
            rcases (under_iff sub).mp (under_of_get good here held empty pre) with ⟨-, short⟩ | ⟨v, rfl, deeper⟩
            · have := short.length_le
              omega
            · rw [whole] at pre
              have := found.longest u v hu deeper ((prefix_append_right_inj _).mp pre)
              rw [length_append]
              omega
          · rw [take_add, ← text]
            exact (holds_get here).mpr (.inr ((under_iff sub).mpr (.inr ⟨_, rfl, holds u has⟩)))
          · rcases at_node with ⟨rfl, -⟩ | found
            · exact entry
            · exact found
        · next cut =>
          obtain ⟨putGood, same⟩ := put_child good here (sub.mono (keeps child).more)
            (keeps child) fun _ _ => holds_keeps
          refine ⟨_, _, _, _, rfl, putGood, ⟨rfl, fun _ h => h, fun _ _ h => h⟩, same,
            inner, ?_, child, rfl, fun u has => ?_, .inr entry⟩
          · intro u w _ held pre
            by_cases empty : w = []
            · rw [empty]
              exact Nat.zero_le _
            obtain ⟨a, x, -, under⟩ := under_of_get good here held empty pre
            exact bounded cut w _ pre under
          · refine (holds_get here).mpr (.inr ((under_iff sub).mpr (.inl ⟨has, ?_⟩)))
            rw [common]
            exact List.take_prefix _ _

end Walk

section Remove

variable {n m : Node} {k l : Forest} {c : Char} {t u : TenantId} {a b w : List Char}

theorem text_removeAt (t : TenantId) (n : Node) (k : Forest) (a : List Char) :
    (removeAt t n k a).1.text = n.text := by
  cases a with
  | nil => rfl
  | cons c cs =>
    rw [removeAt]
    split
    · rfl
    · dsimp only
      split
      · split <;> rfl
      · rfl

theorem has_get (here : k.get c = some (m, l)) :
    Has u n k (c :: b) w ↔ ∃ v, w = m.text ++ v ∧ Has u m l b v := by
  constructor
  · rintro ⟨_, _, v, there, rfl, has⟩
    cases here.symm.trans there
    exact ⟨v, rfl, has⟩
  · rintro ⟨v, rfl, has⟩
    exact ⟨m, l, v, here, rfl, has⟩

theorem not_has_of_empty (empty : k.isEmpty = true) (none_left : n.tenantLastAccessTime.keys = []) :
    ¬ Has u n k b w := by
  intro has
  cases b with
  | nil =>
    have mem : u ∈ n.tenantLastAccessTime.keys := has.1
    rw [none_left] at mem
    cases mem
  | cons c cs =>
    obtain ⟨_, _, _, there, -⟩ := has
    rw [(k.isEmpty_iff.mp empty) c] at there
    cases there

theorem has_removeAt (t : TenantId) (good : Good n k) (a : List Char) :
    Has u (removeAt t n k a).1 (removeAt t n k a).2 b w ↔ Has u n k b w ∧ ¬ (u = t ∧ b = a) := by
  induction a generalizing n k b w with
  | nil =>
    cases b with
    | nil =>
      simp only [removeAt, Has, n.contains_drop]
      tauto
    | cons d ds => simp [removeAt, Has]
  | cons c cs ih =>
    rw [removeAt]
    cases here : k.get c with
    | none =>
      refine ⟨fun h => ⟨h, ?_⟩, And.left⟩
      rintro ⟨rfl, rfl⟩
      obtain ⟨_, _, _, there, -⟩ := h
      rw [here] at there
      cases there
    | some p =>
      obtain ⟨child, below⟩ := p
      have edge := good.edge here
      have first : (removeAt t child below cs).1.text.head? = some c := by
        rw [text_removeAt, edge.first]
      dsimp only
      rw [first]
      cases b with
      | nil => split <;> simp [Has]
      | cons d ds =>
        by_cases same : d = c
        · subst same
          have inner := fun v => ih (good.sub here) (b := ds) (w := v)
          have last : d :: ds = d :: cs ↔ ds = cs := by rw [List.cons.injEq, and_iff_right rfl]
          rw [has_get here, last]
          split
          · next dropped =>
            constructor
            · rintro ⟨_, _, _, there, -⟩
              rw [get_remove, if_pos rfl] at there
              cases there
            · rintro ⟨⟨v, rfl, has⟩, other⟩
              exact absurd ((inner v).mpr ⟨has, other⟩) (not_has_of_empty dropped.2.1 dropped.2.2)
          · rw [has_get (by rw [get_insert, if_pos rfl]), text_removeAt]
            simp only [inner]
            constructor
            · rintro ⟨v, rfl, has, other⟩
              exact ⟨⟨v, rfl, has⟩, other⟩
            · rintro ⟨⟨v, rfl, has⟩, other⟩
              exact ⟨v, rfl, has, other⟩
        · have other : ∀ f : Forest, (∀ x, x ≠ c → f.get x = k.get x) →
              (Has u n f (d :: ds) w ↔ Has u n k (d :: ds) w ∧ ¬ (u = t ∧ d :: ds = c :: cs)) := by
            intro f h
            rw [and_iff_left fun h => same (head_eq_of_cons_eq h.2)]
            simp only [Has, h d same]
          split
          · exact other _ fun x h => by rw [get_remove, if_neg h]
          · exact other _ fun x h => by rw [get_insert, if_neg h]

def Leaf (t : TenantId) (n : Node) (k : Forest) (a : List Char) : Prop :=
  (∃ x, Has t n k a x) ∧ ∀ c y, ¬ Has t n k (a ++ [c]) y

section

variable (good : Good n k)
include good

theorem leafAt_iff : leafAt t n k a = true ↔ Leaf t n k a := by
  induction a generalizing n k with
  | nil =>
    rw [leafAt, nodeAt]
    dsimp only
    rw [isLeafOf, Bool.and_eq_true, n.containsKey_iff, Bool.not_eq_true', ← Bool.not_eq_true,
      any_iff good.distinct]
    refine and_congr ⟨fun h => ⟨[], h, rfl⟩, fun h => h.elim fun _ has => has.1⟩ ⟨?_, ?_⟩
    · rintro none_has c y ⟨m, l, v, here, -, has⟩
      exact none_has ⟨c, m, l, here, (m.containsKey_iff t).mpr has.1⟩
    · rintro none_has ⟨c, m, l, here, has⟩
      exact none_has c (m.text ++ []) ⟨m, l, [], here, rfl, (m.containsKey_iff t).mp has, rfl⟩
  | cons c cs ih =>
    rw [leafAt, nodeAt]
    cases here : k.get c with
    | none =>
      refine ⟨nofun, ?_⟩
      rintro ⟨⟨x, _, _, _, there, -⟩, -⟩
      rw [here] at there
      cases there
    | some p =>
      obtain ⟨m, l⟩ := p
      have step := ih (good.sub here)
      rw [leafAt] at step
      rw [step]
      unfold Leaf
      simp only [cons_append, has_get here]
      refine and_congr ⟨?_, ?_⟩ ⟨?_, ?_⟩
      · rintro ⟨x, has⟩
        exact ⟨_, x, rfl, has⟩
      · rintro ⟨_, x, -, has⟩
        exact ⟨x, has⟩
      · rintro none_has d y ⟨v, -, has⟩
        exact none_has d v has
      · exact fun none_has d y has => none_has d _ ⟨y, rfl, has⟩

theorem exists_leaf (has : n.Contains t) : ∃ a, Leaf t n k a := by
  induction size : sizeOf k using Nat.strong_induction_on generalizing n k with
  | h size' ih =>
    by_cases deeper : ∃ c m l, k.get c = some (m, l) ∧ m.Contains t
    · obtain ⟨c, m, l, here, inside⟩ := deeper
      obtain ⟨a, ⟨x, has⟩, none_has⟩ :=
        ih (sizeOf l) (size ▸ sizeOf_get here) (good.sub here) inside rfl
      refine ⟨c :: a, ⟨_, (has_get here).mpr ⟨x, rfl, has⟩⟩, fun d y h => ?_⟩
      obtain ⟨v, -, h⟩ := (has_get here).mp h
      exact none_has d v h
    · refine ⟨[], ⟨[], has, rfl⟩, ?_⟩
      rintro c y ⟨m, l, v, here, -, has⟩
      exact deeper ⟨c, m, l, here, has.1⟩

theorem good_removeAt (none_has : ∀ c y, ¬ Has t n k (a ++ [c]) y) :
    Good (removeAt t n k a).1 (removeAt t n k a).2 := by
  induction a generalizing n k with
  | nil =>
    refine .mk good.distinct (fun c m l here => ?_) fun c m l here => good.sub here
    have edge := good.edge here
    refine ⟨edge.first, edge.used, fun u h => (n.contains_drop t u).mpr ⟨?_, edge.up u h⟩⟩
    rintro rfl
    exact none_has c _ ⟨m, l, [], here, rfl, h, rfl⟩
  | cons c cs ih =>
    rw [removeAt]
    cases here : k.get c with
    | none => exact good
    | some p =>
      obtain ⟨child, below⟩ := p
      have edge := good.edge here
      have sub := good.sub here
      have inner : ∀ d y, ¬ Has t child below (cs ++ [d]) y := fun d y h =>
        none_has d _ ((has_get here).mpr ⟨y, rfl, h⟩)
      have after := ih sub inner
      have shrinks : ∀ u, (removeAt t child below cs).1.Contains u → child.Contains u := fun u h =>
        (((has_removeAt t sub cs).mp (show Has u _ _ [] [] from ⟨h, rfl⟩)).1).1
      dsimp only
      split
      · rw [text_removeAt, edge.first]
        exact good.remove c
      · next stays =>
        refine good.insert ⟨?_, ?_, fun u h => edge.up u (shrinks u h)⟩ after
        · rw [text_removeAt, edge.first]
        · by_cases last : cs = []
          · subst last
            by_contra unused
            refine stays ⟨rfl, below.isEmpty_iff.mpr fun d => ?_,
              eq_nil_iff_forall_not_mem.mpr fun u h => unused ⟨u, h⟩⟩
            cases there : below.get d with
            | none => rfl
            | some q =>
              obtain ⟨m, l⟩ := q
              obtain ⟨u, has⟩ := (sub.edge there).used
              refine absurd ⟨u, (child.contains_drop t u).mpr ⟨?_, (sub.edge there).up u has⟩⟩
                unused
              rintro rfl
              exact inner d _ ⟨m, l, [], there, rfl, has, rfl⟩
          · obtain ⟨u, has⟩ := edge.used
            have kept := (has_removeAt t sub cs).mpr
              ⟨show Has u child below [] [] from ⟨has, rfl⟩, fun h => last h.2.symm⟩
            exact ⟨u, kept.1⟩

theorem load_removeAt {x : List Char} (has : Has t n k a x) :
    (removeAt t n k a).1.tenantLastAccessTime.keys.length + (removeAt t n k a).2.load + 1 ≤
      n.tenantLastAccessTime.keys.length + k.load := by
  induction a generalizing n k x with
  | nil =>
    have mem : t ∈ n.tenantLastAccessTime.keys := has.1
    have pos := length_pos_of_mem mem
    show (n.tenantLastAccessTime.erase t).keys.length + k.load + 1 ≤ _
    rw [keys_erase, length_erase_of_mem mem]
    omega
  | cons c cs ih =>
    obtain ⟨child, below, v, here, -, has⟩ := has
    have less := ih (good.sub here) has
    have total := load_get good.distinct here
    rw [removeAt, here]
    dsimp only
    rw [text_removeAt, (good.edge here).first]
    split
    · dsimp only
      omega
    · dsimp only [Forest.insert, Forest.load]
      omega

theorem mem_parentLeaf : parentLeaf t n k a = some b ↔ a ≠ [] ∧ b = a.dropLast ∧ Leaf t n k b := by
  unfold parentLeaf
  rw [Option.ite_none_right_eq_some, Option.some_inj, leafAt_iff good]
  constructor
  · rintro ⟨⟨inner, leaf⟩, rfl⟩
    exact ⟨inner, rfl, leaf⟩
  · rintro ⟨inner, rfl, leaf⟩
    exact ⟨⟨inner, leaf⟩, rfl⟩

end

theorem removeLoop_end (fuel : Nat) (good : Good n k) (none_left : ∀ a, ¬ Leaf t n k a) :
    ∃ n' k', removeLoop t fuel n k [] = some (n', k') ∧ Good n' k' ∧
      ∀ u b w, Has u n' k' b w ↔ Has u n k b w ∧ u ≠ t := by
  refine ⟨n, k, by cases fuel <;> rfl, good, fun u b w => ⟨fun has => ⟨has, ?_⟩, And.left⟩⟩
  rintro rfl
  obtain ⟨a, leaf⟩ := exists_leaf good (good.contains_of_has has)
  exact none_left a leaf

theorem removeLoop_spec {fuel : Nat} {queue : List (List Char)} (good : Good n k)
    (nodup : queue.Nodup) (leaves : ∀ a, a ∈ queue ↔ Leaf t n k a)
    (enough : queue.length + (n.tenantLastAccessTime.keys.length + k.load) ≤ fuel) :
    ∃ n' k', removeLoop t fuel n k queue = some (n', k') ∧ Good n' k' ∧
      ∀ u b w, Has u n' k' b w ↔ Has u n k b w ∧ u ≠ t := by
  induction fuel generalizing n k queue with
  | zero =>
    obtain rfl := eq_nil_of_length_eq_zero (show queue.length = 0 by omega)
    exact removeLoop_end 0 good fun a leaf => not_mem_nil ((leaves a).mpr leaf)
  | succ fuel ih =>
    cases queue with
    | nil => exact removeLoop_end _ good fun a leaf => not_mem_nil ((leaves a).mpr leaf)
    | cons a queue =>
      obtain ⟨⟨x, has⟩, none_has⟩ := (leaves a).mp mem_cons_self
      obtain ⟨fresh, nodup⟩ := nodup_cons.mp nodup
      have after := good_removeAt good none_has
      have less := load_removeAt good has
      have step : ∀ {u b w}, Has u (removeAt t n k a).1 (removeAt t n k a).2 b w ↔
          Has u n k b w ∧ ¬ (u = t ∧ b = a) := has_removeAt t good a
      have leaves' : ∀ b, b ∈ queue ++
          (parentLeaf t (removeAt t n k a).1 (removeAt t n k a).2 a).toList ↔
          Leaf t (removeAt t n k a).1 (removeAt t n k a).2 b := by
        intro b
        rw [mem_append, Option.mem_toList, mem_parentLeaf after]
        constructor
        · rintro (mem | ⟨-, -, leaf⟩)
          · obtain ⟨⟨y, old⟩, none_old⟩ := (leaves b).mp (mem_cons_of_mem a mem)
            refine ⟨⟨y, step.mpr ⟨old, fun same => fresh (same.2 ▸ mem)⟩⟩, fun c y h => ?_⟩
            exact none_old c y (step.mp h).1
          · exact leaf
        · intro leaf
          obtain ⟨⟨y, now⟩, none_now⟩ := leaf
          obtain ⟨old, other⟩ := step.mp now
          by_cases lost : ∃ c y, Has t n k (b ++ [c]) y
          · -- The child with the tenant is the node that has lost it.
            obtain ⟨c, y', child⟩ := lost
            obtain rfl : b ++ [c] = a := by
              by_contra ne
              exact none_now c y' (step.mpr ⟨child, fun same => ne same.2⟩)
            exact .inr ⟨by simp, dropLast_concat.symm, ⟨y, now⟩, none_now⟩
          · have leaf : Leaf t n k b := ⟨⟨y, old⟩, fun c y h => lost ⟨c, y, h⟩⟩
            rcases mem_cons.mp ((leaves b).mpr leaf) with same | mem
            · exact absurd ⟨rfl, same⟩ other
            · exact .inl mem
      have apart : (queue ++
          (parentLeaf t (removeAt t n k a).1 (removeAt t n k a).2 a).toList).Nodup := by
        refine nodup_append.mpr ⟨nodup, ?_, ?_⟩
        · cases parentLeaf t (removeAt t n k a).1 (removeAt t n k a).2 a <;> simp
        · rintro b mem b' parent rfl
          obtain ⟨inner, rfl, -⟩ := (mem_parentLeaf after).mp (Option.mem_toList.mp parent)
          refine ((leaves _).mp (mem_cons_of_mem a mem)).2 (a.getLast inner) x ?_
          rwa [dropLast_append_getLast inner]
      obtain ⟨n', k', runs, good', holds⟩ := ih after apart leaves' (by
        have := Option.length_toList_le
          (o := parentLeaf t (removeAt t n k a).1 (removeAt t n k a).2 a)
        rw [length_append]
        rw [length_cons] at enough
        omega)
      refine ⟨n', k', runs, good', fun u b w => ?_⟩
      rw [holds, step]
      constructor
      · exact fun h => ⟨h.1.1, h.2⟩
      · exact fun h => ⟨⟨h.1, fun same => h.2 same.1⟩, h.2⟩

theorem evictLoop_spec {maxSize fuel : Nat} {s : Tree} {pq : List EvictionEntry}
    (good : Good s.root s.children) (enough : pq.length + s.load ≤ fuel) :
    ∃ s', evictLoop maxSize fuel s pq = some s' ∧ Good s'.root s'.children ∧
      (∀ u b w, Has u s'.root s'.children b w → Has u s.root s.children b w) ∧
      ∀ u, (s.tenantCharCount u).any (· ≤ maxSize) = true →
        ∀ b w, Has u s.root s.children b w → Has u s'.root s'.children b w := by
  induction fuel generalizing s pq with
  | zero =>
    obtain rfl := eq_nil_of_length_eq_zero (show pq.length = 0 by omega)
    exact ⟨s, rfl, good, fun _ _ _ => id, fun _ _ _ _ => id⟩
  | succ fuel ih =>
    cases pq with
    | nil => exact ⟨s, rfl, good, fun _ _ _ => id, fun _ _ _ _ => id⟩
    | cons first pq =>
      obtain ⟨entry, rest, popped, perm, -⟩ := Heapq.popMin_spec EvictionEntry.timestamp first pq
      have length := perm.length_eq
      rw [length_cons, length_cons] at length
      rw [length_cons] at enough
      have skip := @ih s rest good (by omega)
      rw [evictLoop, popped]
      dsimp only
      split
      case isTrue => exact skip
      next large =>
      cases here : nodeAt s.root s.children entry.node with
      | none => exact skip
      | some p =>
        obtain ⟨node, below⟩ := p
        dsimp only
        split
        case isFalse => exact skip
        next leaf =>
        have leaf : Leaf entry.tenant s.root s.children entry.node :=
          (leafAt_iff good).mp (by rw [leafAt, here]; exact leaf)
        obtain ⟨⟨x, has⟩, none_has⟩ := leaf
        have less := load_removeAt good has
        refine (ih (by exact good_removeAt good none_has) ?_).imp fun s' h =>
          ⟨h.1, h.2.1, fun u b w held => ((has_removeAt _ good _).mp (h.2.2.1 u b w held)).1,
            fun u small b w held => ?_⟩
        case refine_2 =>
          have other : u ≠ entry.tenant := by
            rintro rfl
            exact large small
          refine h.2.2.2 u ?_ b w ((has_removeAt _ good _).mpr ⟨held, fun same => other same.1⟩)
          dsimp only
          rwa [Function.update_of_ne other]
        rw [length_append]
        refine le_trans (Nat.add_le_add_right (Nat.add_le_add_right Option.length_toList_le _) _) ?_
        rw [Tree.load] at enough ⊢
        dsimp only
        omega

end Remove

theorem selectTenant_spec (n : Node) : (selectTenant n).1.text = n.text ∧
    (selectTenant n).1.tenantLastAccessTime = n.tenantLastAccessTime ∧
    ((∃ u, n.Contains u) → n.Contains (selectTenant n).2) := by
  have first : (∃ u, n.Contains u) →
      n.Contains (n.tenantLastAccessTime.keys.head?.getD "empty") := by
    rintro ⟨u, has⟩
    have mem : u ∈ n.tenantLastAccessTime.keys := has
    obtain ⟨t, rest, keys⟩ := exists_cons_of_ne_nil (ne_nil_of_mem mem)
    show _ ∈ n.tenantLastAccessTime.keys
    rw [keys]
    exact mem_cons_self
  unfold selectTenant
  split
  · next t _ =>
    split
    · next there => exact ⟨rfl, rfl, fun _ => (n.containsKey_iff t).mp there⟩
    · exact ⟨rfl, rfl, first⟩
  · exact ⟨rfl, rfl, first⟩

theorem keeps_selectAndTouch (e : Nat) (n : Node) : Keeps n (selectAndTouch e n).1 := by
  obtain ⟨text, tenants, chosen⟩ := selectTenant_spec n
  have has : ∀ u, (selectTenant n).1.Contains u ↔ n.Contains u := fun u => by
    rw [Node.Contains, Node.Contains, tenants]
  unfold selectAndTouch
  dsimp only
  split
  · refine ⟨text, fun u h => ?_, fun some_tenant u h => ?_⟩
    · exact (Node.contains_touch _ _ u e).mpr (.inr ((has u).mpr h))
    · rcases (Node.contains_touch _ _ u e).mp h with rfl | h
      · exact chosen some_tenant
      · exact (has u).mp h
  · exact ⟨text, fun u => (has u).mpr, fun _ u => (has u).mp⟩

theorem keeps_touchTenant (t : TenantId) (e : Nat) (n : Node) : Keeps n (touchTenant t e n).1 := by
  unfold touchTenant
  split
  · next there =>
    refine ⟨rfl, fun u h => (n.contains_touch t u e).mpr (.inr h), fun _ u h => ?_⟩
    rcases (n.contains_touch t u e).mp h with rfl | h
    · exact (n.containsKey_iff u).mp there
    · exact h
  · exact ⟨rfl, fun _ h => h, fun _ _ h => h⟩

def Longest (P : List Char → Prop) (text : List Char) (count : Nat) : Prop :=
  IsGreatest {k | k ≤ text.length ∧ (k = 0 ∨ P (text.take k))} count

theorem take_ne_nil {text : List Char} {count : Nat} (pos : count ≠ 0)
    (short : count ≤ text.length) :
    text.take count ≠ [] := by
  intro empty
  have := congrArg List.length empty
  rw [length_take, length_nil] at this
  omega

theorem Found.isLongest {α : Type} {U : TenantId → Prop} {use : Node → Node × α} {n n' : Node}
    {k k' : Forest} {text : List Char} {matched : Nat} {answer : α}
    (found : Found U use n k text matched answer n' k') :
    Longest (fun w => ∃ u, U u ∧ w ≠ [] ∧ Holds u n k w) text matched := by
  refine ⟨⟨found.short, ?_⟩, ?_⟩
  · by_cases zero : matched = 0
    · exact .inl zero
    · obtain ⟨node, -, holds, ⟨-, none⟩ | ⟨u, hu, has⟩⟩ := found.curr
      · exact absurd none zero
      · exact .inr ⟨u, hu, take_ne_nil zero found.short, holds u has⟩
  · rintro j ⟨short, rfl | ⟨u, hu, -, holds⟩⟩
    · exact Nat.zero_le _
    · have := found.longest u _ hu holds (List.take_prefix _ _)
      rwa [length_take, Nat.min_eq_left short] at this

namespace Tree

variable {s : Tree}

theorem held_closed (s : Tree) : s.held.Closed := by
  rintro t w v ⟨-, a, x, has, pre⟩ shorter some_char
  exact ⟨some_char, a, x, has, shorter.trans pre⟩

section

variable (good : Good s.root s.children) (text : List Char)
include good

theorem prefixMatchWithCounts_spec : ∃ result s', s.prefixMatchWithCounts text = some (result, s') ∧
      Good s'.root s'.children ∧ s'.held = s.held ∧
      Longest (fun w => ∃ t, s.held t w) text result.matchedCharCount ∧
      (0 < result.matchedCharCount →
        s.held result.tenant (text.take result.matchedCharCount)) := by
  obtain ⟨matched, answer, n', k', runs, found⟩ := walk_spec (fun _ => True) (fun _ => true)
    (keeps_selectAndTouch s.epoch)
      (fun n used => ⟨fun _ => used.imp fun _ h => ⟨trivial, h⟩, fun _ => rfl⟩) good le_rfl
  refine ⟨_, _, by rw [prefixMatchWithCounts, runs]; rfl, found.good, ?_, ?_, fun pos => ?_⟩
  · funext t w
    exact propext (and_congr_right fun some_char => found.same t w some_char)
  · have longest := found.isLongest
    simp only [true_and] at longest
    exact longest
  · obtain ⟨node, rfl, holds, ⟨-, none⟩ | ⟨u, -, has⟩⟩ := found.curr
    · exact absurd none pos.ne'
    · exact ⟨take_ne_nil pos.ne' found.short, holds _ ((selectTenant_spec node).2.2 ⟨u, has⟩)⟩

theorem prefixMatchTenant_spec (tenant : TenantId) :
    ∃ count s', s.prefixMatchTenant text tenant = some (text.take count, s') ∧
      Good s'.root s'.children ∧ s'.held = s.held ∧ Longest (s.held tenant) text count := by
  obtain ⟨matched, answer, n', k', runs, found⟩ := walk_spec (· = tenant) (·.containsKey tenant)
    (keeps_touchTenant tenant s.epoch)
      (fun n _ => (n.containsKey_iff tenant).trans ⟨fun h => ⟨tenant, rfl, h⟩, by
      rintro ⟨u, rfl, h⟩
      exact h⟩) good le_rfl
  refine ⟨matched, _, by rw [prefixMatchTenant, runs, Option.map_some, takeChars_eq], found.good,
    ?_, ?_⟩
  · funext t w
    exact propext (and_congr_right fun some_char => found.same t w some_char)
  · have longest := found.isLongest
    simp only [exists_eq_left] at longest
    exact longest

theorem insert_spec (tenant : TenantId) :
    ∃ s', s.insert text tenant = some s' ∧ Good s'.root s'.children ∧
      s.held.Step (.insert text tenant) s'.held := by
  obtain ⟨n', k', added, runs, good', -, -, holds⟩ := insertLoop_spec tenant s.epoch
    (good.mono fun u h => (s.root.contains_attach tenant u).mpr (.inr h))
    ((s.root.contains_attach tenant tenant).mpr (.inl rfl)) (le_refl text.length)
  refine ⟨_, by rw [insert, runs], good', fun t w => ?_⟩
  show w ≠ [] ∧ Holds t n' k' w ↔ (w ≠ [] ∧ Holds t s.root s.children w) ∨ _
  rw [holds]
  by_cases some_char : w ≠ []
  · rw [holds_keeps (n := s.root) some_char]
    simp [some_char]
  · simp [some_char]

end

theorem mem_places {n : Node} {k : Forest} {t : TenantId} {a x : List Char} (has : Has t n k a x) :
    a ∈ [] :: k.places := by
  induction a generalizing n k x with
  | nil => exact mem_cons_self
  | cons c cs ih =>
    obtain ⟨m, l, v, here, -, has⟩ := has
    exact mem_cons_of_mem _ (mem_places_of_get here (mem_cons.mp (ih has)))

theorem removeTenant_spec (good : Good s.root s.children) (tenant : TenantId) :
    ∃ s', s.removeTenant tenant = some s' ∧ Good s'.root s'.children ∧
      s.held.Step (.removeTenant tenant) s'.held := by
  have nodup : s.places.Nodup := by
    refine nodup_cons.mpr ⟨fun mem => ?_, places_nodup good.distinct⟩
    obtain ⟨_, _, empty, -⟩ := ne_nil_of_mem_places mem
    cases empty
  have leaves : ∀ a, a ∈ s.places.filter (leafAt tenant s.root s.children) ↔
      Leaf tenant s.root s.children a := by
    intro a
    rw [mem_filter, leafAt_iff good]
    refine and_iff_right_of_imp ?_
    rintro ⟨⟨x, has⟩, -⟩
    exact mem_places has
  obtain ⟨n', k', runs, good', has⟩ := removeLoop_spec good (nodup.filter _) leaves le_rfl
  refine ⟨_, by rw [removeTenant, load, runs]; rfl, good', fun t w => ?_⟩
  show w ≠ [] ∧ Holds t n' k' w ↔ (w ≠ [] ∧ Holds t s.root s.children w) ∧ _
  simp only [Holds, has]
  constructor
  · rintro ⟨some_char, a, x, ⟨old, other⟩, pre⟩
    exact ⟨⟨some_char, a, x, old, pre⟩, other⟩
  · rintro ⟨⟨some_char, a, x, old, pre⟩, other⟩
    exact ⟨some_char, a, x, ⟨old, other⟩, pre⟩

theorem exec_spec (good : Good s.root s.children) (op : Op) :
    ∃ s', s.exec op = some s' ∧ Good s'.root s'.children ∧ s.held.Step op s'.held := by
  cases op with
  | insert text tenant => exact insert_spec good text tenant
  | prefixMatchWithCounts text =>
    obtain ⟨result, s', runs, good', same, -⟩ := prefixMatchWithCounts_spec good text
    exact ⟨s', by rw [exec, runs]; rfl, good', same⟩
  | prefixMatchTenant text tenant =>
    obtain ⟨count, s', runs, good', same, -⟩ := prefixMatchTenant_spec good text tenant
    exact ⟨s', by rw [exec, runs]; rfl, good', same⟩
  | evictTenantBySize maxSize =>
    obtain ⟨s', runs, good', sub, -⟩ := @evictLoop_spec maxSize _ s _ good le_rfl
    refine ⟨s', runs, good', ?_, held_closed s'⟩
    rintro t w ⟨some_char, a, x, has, pre⟩
    exact ⟨some_char, a, x, sub t a x has, pre⟩
  | removeTenant tenant => exact removeTenant_spec good tenant

end Tree

theorem run_spec (history : List Op) : ∃ s, run history = some s ∧ Good s.root s.children ∧
    PrefixSets.Run history s.held := by
  induction history using reverseRecOn with
  | nil =>
    refine ⟨{}, rfl, .leaf _, ?_⟩
    have empty : ({} : Tree).held = fun _ _ => False := by
      funext t w
      refine propext ⟨?_, False.elim⟩
      rintro ⟨some_char, holds⟩
      rcases holds_iff.mp holds with ⟨-, nothing⟩ | ⟨_, _, _, absent, -⟩
      · exact some_char nothing
      · cases absent
    rw [empty]
    exact .start
  | append_singleton history op ih =>
    obtain ⟨s, runs, good, sets⟩ := ih
    obtain ⟨s', step, good', held⟩ := s.exec_spec good op
    refine ⟨s', ?_, good', .step sets held⟩
    rw [run, foldlM_append, ← run, runs]
    show s.exec op >>= some = some s'
    rw [step]
    rfl

theorem answer_eq {s s' : Tree} {tenant : TenantId} (good : Good s.root s.children)
    (good' : Good s'.root s'.children) (same : s'.held tenant = s.held tenant) (query : List Char) :
    (s'.prefixMatchTenant query tenant).map Prod.fst =
      (s.prefixMatchTenant query tenant).map Prod.fst := by
  obtain ⟨count, _, before, -, -, longest⟩ := s.prefixMatchTenant_spec good query tenant
  obtain ⟨count', _, after, -, -, longest'⟩ := s'.prefixMatchTenant_spec good' query tenant
  rw [same] at longest'
  rw [before, after, IsGreatest.unique longest longest']
  rfl

/-- After every history of calls the tree answers from the prefix sets of its tenants. -/
theorem tree_refines_prefixSets (history : List Op) :
    ∃ s H, run history = some s ∧ PrefixSets.Run history H ∧ H.Closed ∧
      (∀ text, ∃ result s', s.prefixMatchWithCounts text = some (result, s') ∧
        Longest (fun w => ∃ t, H t w) text result.matchedCharCount ∧
        (0 < result.matchedCharCount →
          H result.tenant (text.take result.matchedCharCount))) ∧
      (∀ text tenant, ∃ count s', s.prefixMatchTenant text tenant = some (text.take count, s') ∧
        Longest (H tenant) text count) ∧
      (∀ text tenant, ∃ s', s.insert text tenant = some s' ∧ ∀ query other, other ≠ tenant →
        (s'.prefixMatchTenant query other).map Prod.fst =
          (s.prefixMatchTenant query other).map Prod.fst) ∧
      ∀ maxSize, ∃ s', s.evictTenantBySize maxSize = some s' ∧ ∀ query tenant,
        (s.tenantCharCount tenant).any (· ≤ maxSize) = true →
          (s'.prefixMatchTenant query tenant).map Prod.fst =
            (s.prefixMatchTenant query tenant).map Prod.fst := by
  obtain ⟨s, runs, good, sets⟩ := run_spec history
  refine ⟨s, s.held, runs, sets, s.held_closed, fun text => ?_, fun text tenant => ?_,
    fun text tenant => ?_, fun maxSize => ?_⟩
  · obtain ⟨result, s', found, -, -, longest, holder⟩ := s.prefixMatchWithCounts_spec good text
    exact ⟨result, s', found, longest, holder⟩
  · obtain ⟨count, s', found, -, -, longest⟩ := s.prefixMatchTenant_spec good text tenant
    exact ⟨count, s', found, longest⟩
  · obtain ⟨s', step, good', held⟩ := s.insert_spec good text tenant
    refine ⟨s', step, fun query other apart => answer_eq good good' ?_ query⟩
    funext w
    refine propext ((held other w).trans ?_)
    simp [apart]
  · obtain ⟨s', evicted, good', sub, keeps⟩ := @evictLoop_spec maxSize _ s _ good le_rfl
    refine ⟨s', evicted, fun query tenant small => answer_eq good good' ?_ query⟩
    funext w
    refine propext (and_congr_right fun _ => ⟨?_, ?_⟩)
    · rintro ⟨a, x, has, pre⟩
      exact ⟨a, x, sub tenant a x has, pre⟩
    · rintro ⟨a, x, has, pre⟩
      exact ⟨a, x, keeps tenant small a x has, pre⟩

end RedKnot.Gateway.TenantTree
