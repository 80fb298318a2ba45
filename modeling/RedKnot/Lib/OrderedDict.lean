import Mathlib.Tactic

/-! A dictionary that keeps its keys in an order: a new key comes last, and a key can be moved
to the end. -/

structure OrderedDict (κ α : Type) where
  entries : List (κ × α)
  nodup : (entries.map Prod.fst).Nodup

namespace OrderedDict

open List

variable {κ α : Type}

def empty : OrderedDict κ α := ⟨[], nodup_nil⟩

def keys (d : OrderedDict κ α) : List κ := d.entries.map Prod.fst

def total (d : OrderedDict κ α) (w : α → Int) : Int := (d.entries.map (fun e => w e.2)).sum

variable [DecidableEq κ]

def get? (d : OrderedDict κ α) (k : κ) : Option α := (d.entries.find? (fun e => e.1 = k)).map Prod.snd

def erase (d : OrderedDict κ α) (k : κ) : OrderedDict κ α :=
  ⟨d.entries.filter (fun e => e.1 ≠ k), d.nodup.sublist (filter_sublist.map _)⟩

theorem nodup_putLast (d : OrderedDict κ α) (k : κ) (a : α) :
    (((d.erase k).entries ++ [(k, a)]).map Prod.fst).Nodup := by
  rw [map_append, nodup_append]
  refine ⟨(d.erase k).nodup, nodup_singleton _, ?_⟩
  rintro x hx y hy rfl
  obtain ⟨e, he, rfl⟩ := mem_map.mp hx
  have other : e.1 ≠ k := by simpa using (mem_filter.mp he).2
  exact other (by simpa using hy)

def putLast (d : OrderedDict κ α) (k : κ) (a : α) : OrderedDict κ α :=
  ⟨(d.erase k).entries ++ [(k, a)], d.nodup_putLast k a⟩

variable {d : OrderedDict κ α} {k k' : κ} {a b : α}

theorem get?_eq_some : d.get? k = some a ↔ (k, a) ∈ d.entries := by
  unfold get?
  constructor
  · intro h
    obtain ⟨e, found, rfl⟩ := Option.map_eq_some_iff.mp h
    have here : e.1 = k := by simpa using find?_some found
    exact here ▸ mem_of_find?_eq_some found
  · intro h
    cases found : d.entries.find? (fun e => e.1 = k) with
    | none =>
      have missed := find?_eq_none.mp found _ h
      simp at missed
    | some e =>
      have here : e.1 = k := by simpa using find?_some found
      have same := inj_on_of_nodup_map d.nodup (mem_of_find?_eq_some found) h here
      rw [same]
      rfl

theorem get?_eq_none : d.get? k = none ↔ k ∉ d.keys := by
  constructor
  · intro h hk
    obtain ⟨e, he, rfl⟩ := mem_map.mp hk
    rw [get?_eq_some.mpr he] at h
    cases h
  · intro h
    cases found : d.get? k with
    | none => rfl
    | some a => exact absurd (mem_map_of_mem (get?_eq_some.mp found)) h

theorem mem_keys_of_get? (h : d.get? k = some a) : k ∈ d.keys :=
  mem_map_of_mem (get?_eq_some.mp h)

theorem filter_first {l : List (κ × α)} (distinct : (((k, a) :: l).map Prod.fst).Nodup) :
    ((k, a) :: l).filter (fun e => e.1 ≠ k) = l := by
  rw [map_cons, nodup_cons] at distinct
  rw [filter_cons_of_neg (by simp), filter_eq_self]
  intro e he
  apply decide_eq_true
  rintro rfl
  have listed : e.1 ∈ l.map Prod.fst := mem_map_of_mem he
  exact distinct.1 listed

theorem split (h : d.get? k = some a) :
    ∃ pre post, d.entries = pre ++ (k, a) :: post ∧ (d.erase k).entries = pre ++ post := by
  obtain ⟨pre, post, parts⟩ := append_of_mem (get?_eq_some.mp h)
  refine ⟨pre, post, parts, ?_⟩
  have distinct := d.nodup
  rw [parts, map_append, map_cons, nodup_append] at distinct
  obtain ⟨-, later, apart⟩ := distinct
  have before : ∀ e ∈ pre, decide (e.1 ≠ k) = true := fun e he =>
    decide_eq_true (apart e.1 (mem_map_of_mem he) k mem_cons_self)
  change d.entries.filter _ = _
  rw [parts, filter_append, filter_eq_self.mpr before, filter_first later]

theorem erase_of_not_mem (h : d.get? k = none) : (d.erase k).entries = d.entries := by
  apply filter_eq_self.mpr
  intro e he
  apply decide_eq_true
  rintro rfl
  exact get?_eq_none.mp h (mem_map_of_mem he)

theorem mem_erase {e : κ × α} : e ∈ (d.erase k).entries ↔ e ∈ d.entries ∧ e.1 ≠ k := by
  simp [erase]

theorem mem_putLast {e : κ × α} :
    e ∈ (d.putLast k a).entries ↔ (e ∈ d.entries ∧ e.1 ≠ k) ∨ e = (k, a) := by
  simp [putLast, mem_erase]

theorem get?_putLast : (d.putLast k a).get? k = some a := get?_eq_some.mpr (mem_putLast.mpr (.inr rfl))

theorem get?_putLast_of_ne (other : k' ≠ k) : (d.putLast k a).get? k' = d.get? k' := by
  apply Option.ext
  intro b
  rw [get?_eq_some, get?_eq_some, mem_putLast]
  constructor
  · rintro (⟨here, -⟩ | same)
    · exact here
    · exact absurd (Prod.mk.inj same).1 other
  · exact fun here => .inl ⟨here, other⟩

theorem length_putLast (h : d.get? k = some b) : (d.putLast k a).entries.length = d.entries.length := by
  obtain ⟨pre, post, parts, rest⟩ := split h
  change ((d.erase k).entries ++ [(k, a)]).length = _
  rw [rest, parts]
  simp only [length_append, length_cons, length_nil]
  omega

theorem filter_putLast (d : OrderedDict κ α) (k : κ) (a : α) (p : α → Bool) :
    (d.putLast k a).entries.filter (fun e => p e.2) =
      (d.entries.filter (fun e => p e.2)).filter (fun e => e.1 ≠ k) ++ if p a then [(k, a)] else [] := by
  change (d.entries.filter _ ++ [(k, a)]).filter _ = _
  rw [filter_append, filter_filter, filter_filter]
  congr 1
  · simp only [Bool.and_comm]
  · cases kept : p a <;> simp [kept]

variable (w : α → Int)

theorem total_erase (h : d.get? k = some a) : (d.erase k).total w = d.total w - w a := by
  obtain ⟨pre, post, parts, rest⟩ := split h
  simp only [total, parts, rest, map_append, map_cons, sum_append, sum_cons]
  ring

theorem total_putLast (h : d.get? k = some b) :
    (d.putLast k a).total w = d.total w - w b + w a := by
  have rest := total_erase w h
  simp only [total, putLast, map_append, sum_append, map_cons, map_nil, sum_cons, sum_nil] at rest ⊢
  omega

theorem total_putLast_new (h : d.get? k = none) : (d.putLast k a).total w = d.total w + w a := by
  simp only [total, putLast, erase_of_not_mem h, map_append, sum_append, map_cons,
    map_nil, sum_cons, sum_nil]
  omega

end OrderedDict
