import RedKnot.Gateway.CharSlices
import RedKnot.Lib.ForLoop

/-! Any number of `insert` calls and one `prefix_match_with_counts` on the gateway's text tree
(`policies/tree.rs`). Nodes have numbers; a step is one operation on a map of children, which may
hold the guard of an entry, or on the text of a node. Tenants, times and parents do not matter to
the number of matched characters and are left out. -/

namespace RedKnot.Gateway.TextTree

open Function List

structure Node where
  text : List Char := []
  children : Char → Option Nat := fun _ => none

/-- Where an `insert` stands. From `locked` to `shortened` it holds the guard of the entry of
`prev` for the character `c`. -/
inductive Writer where
  | idle
  | walk (prev : Nat) (remaining : List Char)
  | locked (prev : Nat) (c : Char) (remaining : List Char)
  | splitting (prev : Nat) (c : Char) (node : Nat) (matched contracted remaining : List Char)
  | published (prev : Nat) (c : Char) (node new : Nat) (contracted remaining : List Char)
  | shortened (prev : Nat) (c : Char) (new : Nat) (remaining : List Char)

open Writer

inductive Reader where
  | idle
  | walk (prev : Nat) (remaining : List Char) (matchedChars : Nat)
  | fetched (node : Nat) (remaining : List Char) (matchedChars : Nat)
  | done (matchedCharCount : Nat)

/-- `whole` and `asked` are the arguments of the calls, and `inserted` are the strings whose
insertion has taken effect. -/
structure State where
  nodes : Nat → Node := fun _ => {}
  size : Nat := 1
  locks : List (Nat × Char) := []
  writer : Nat → Writer := fun _ => .idle
  whole : Nat → List Char := fun _ => []
  reader : Reader := .idle
  asked : List Char := []
  inserted : List (List Char) := []

open State

inductive Action where
  | begin (tid : Nat) (text : List Char)
  | finish (tid : Nat)
  | lock (tid : Nat)
  | access (tid : Nat)
  | publish (tid : Nat)
  | shorten (tid : Nat)
  | release (tid : Nat)
  | query (text : List Char)
  | get
  | read

namespace State

def goto (s : State) (tid : Nat) (w : Writer) : State :=
  { s with writer := update s.writer tid w }

def unlock (s : State) (e : Nat × Char) : State := { s with locks := s.locks.filter (· ≠ e) }

def setChild (s : State) (n : Nat) (c : Char) (k : Nat) : State :=
  let node : Node := { s.nodes n with children := update (s.nodes n).children c (some k) }
  { s with nodes := update s.nodes n node }

def setText (s : State) (n : Nat) (text : List Char) : State :=
  let node : Node := { s.nodes n with text := text }
  { s with nodes := update s.nodes n node }

def newNode (s : State) (node : Node) : State :=
  { s with nodes := update s.nodes s.size node, size := s.size + 1 }

def insertStep (s : State) (tid : Nat) : Writer → Option State
  | .locked prev c remaining =>
    match (s.nodes prev).children c with
    | none =>
      some { ((s.newNode { text := remaining }).setChild prev c s.size).unlock (prev, c) with
        writer := update s.writer tid .idle
        inserted := s.whole tid :: s.inserted }
    | some node =>
      let text := (s.nodes node).text
      let shared := sharedPrefixCount remaining text
      if shared < text.length then
        let (matched, contracted) := splitAtChar text shared
        some (s.goto tid (.splitting prev c node matched contracted remaining))
      else some ((s.goto tid (.walk node (advanceByChars remaining shared))).unlock (prev, c))
  | _ => none

def step (s : State) : Action → Option State
  | .begin tid text =>
    match s.writer tid with
    | .idle => some { s.goto tid (.walk 0 text) with whole := update s.whole tid text }
    | _ => none
  | .finish tid =>
    match s.writer tid with
    | .walk _ [] => some { s.goto tid .idle with inserted := s.whole tid :: s.inserted }
    | _ => none
  | .lock tid =>
    match s.writer tid with
    | .walk prev (c :: rest) =>
      if (prev, c) ∈ s.locks then none
      else some { s.goto tid (.locked prev c (c :: rest)) with locks := (prev, c) :: s.locks }
    | _ => none
  | .access tid => s.insertStep tid (s.writer tid)
  | .publish tid =>
    match s.writer tid with
    | .splitting prev c node matched contracted remaining =>
      match contracted with
      | [] => none
      | firstNewChar :: _ =>
        let new := s.size
        let s := (s.newNode { text := matched }).setChild new firstNewChar node
        some ((s.setChild prev c new).goto tid
          (.published prev c node new contracted (advanceByChars remaining matched.length)))
    | _ => none
  | .shorten tid =>
    match s.writer tid with
    | .published prev c node new contracted remaining =>
      some ((s.setText node contracted).goto tid (.shortened prev c new remaining))
    | _ => none
  | .release tid =>
    match s.writer tid with
    | .shortened prev c new remaining => some ((s.goto tid (.walk new remaining)).unlock (prev, c))
    | _ => none
  | .query text =>
    match s.reader with
    | .idle => some { s with reader := .walk 0 text 0, asked := text }
    | _ => none
  | .get =>
    match s.reader with
    | .walk _ [] matchedChars => some { s with reader := .done matchedChars }
    | .walk prev (c :: rest) matchedChars =>
      if (prev, c) ∈ s.locks then none
      else
        match (s.nodes prev).children c with
        | some node => some { s with reader := .fetched node (c :: rest) matchedChars }
        | none => some { s with reader := .done matchedChars }
    | _ => none
  | .read =>
    match s.reader with
    | .fetched node remaining matchedChars =>
      let text := (s.nodes node).text
      let shared := sharedPrefixCount remaining text
      if shared = text.length then
        let rest := advanceByChars remaining shared
        some { s with reader := .walk node rest (matchedChars + shared) }
      else some { s with reader := .done (matchedChars + shared) }
    | _ => none

end State

inductive Reaches (ok : State → Action → Prop) : State → Prop
  | start : Reaches ok {}
  | step {s s' : State} {a : Action} : Reaches ok s → ok s a → s.step a = some s' → Reaches ok s'

/-- The matched characters begin a string whose insertion has taken effect. An answer of 0 says
nothing. -/
def State.Truthful (s : State) : Prop :=
  ∀ count, s.reader = .done count →
    count = 0 ∨ ∃ w ∈ s.inserted, s.asked.take count <+: w

/-- No `insert` shortens the text of a node that the reader has fetched and not yet read. -/
def LeavesFetched (s : State) : Action → Prop
  | .shorten tid => ∀ prev c node new contracted remaining, s.writer tid =
      .published prev c node new contracted remaining → ∀ rest k, s.reader ≠ .fetched node rest k
  | _ => True

def Writer.guard : Writer → Option (Nat × Char)
  | .locked prev c _ => some (prev, c)
  | .splitting prev c _ _ _ _ => some (prev, c)
  | .published prev c _ _ _ _ => some (prev, c)
  | .shortened prev c _ _ => some (prev, c)
  | _ => none

def Writer.place : Writer → Option Nat
  | .idle => none
  | .walk prev _ => some prev
  | .locked prev _ _ => some prev
  | .splitting prev _ _ _ _ _ => some prev
  | .published prev _ _ _ _ _ => some prev
  | .shortened prev _ _ _ => some prev

def Writer.Hides (w : Writer) (n : Nat) : Prop :=
  ∃ prev c node contracted remaining, w = .published prev c node n contracted remaining

/-- What an `insert` of `whole` relies on. `path n` are the characters from the root to the end of
node `n`. -/
def Relies (path : Nat → List Char) (s : State) (whole : List Char) : Writer → Prop
  | .idle => True
  | .walk prev remaining => prev < s.size ∧ whole = path prev ++ remaining
  | .locked prev c remaining => prev < s.size ∧ whole = path prev ++ remaining ∧
      remaining.head? = some c
  | .splitting prev c node matched contracted remaining =>
      prev < s.size ∧ whole = path prev ++ remaining ∧ (s.nodes prev).children c = some node ∧
      (s.nodes node).text = matched ++ contracted ∧ contracted ≠ [] ∧ matched.head? = some c ∧
      matched <+: remaining
  | .published prev c node new contracted remaining =>
      prev < s.size ∧ new < s.size ∧ prev ≠ new ∧ whole = path new ++ remaining ∧
      (s.nodes prev).children c = some new ∧ path node = path new ++ contracted ∧
      (∃ d, contracted.head? = some d ∧ (s.nodes new).children d = some node) ∧
      ∀ e k, (s.nodes new).children e = some k → k = node
  | .shortened prev c new remaining => prev < s.size ∧ new < s.size ∧
      whole = path new ++ remaining ∧ (s.nodes prev).children c = some new

def ReaderRelies (path : Nat → List Char) (s : State) : Reader → Prop
  | .idle => True
  | .walk prev remaining matchedChars => prev < s.size ∧ s.asked = path prev ++ remaining ∧
      matchedChars = (path prev).length
  | .fetched node remaining matchedChars => node < s.size ∧ node ≠ 0 ∧ ∃ begun,
      s.asked = begun ++ remaining ∧ matchedChars = begun.length ∧
      path node = begun ++ (s.nodes node).text
  | .done count => count = 0 ∨ ∃ w ∈ s.inserted, s.asked.take count <+: w

def Reader.place : Reader → Option Nat
  | .walk prev _ _ => some prev
  | .fetched node _ _ => some node
  | _ => none

structure Layout (path : Nat → List Char) (s : State) : Prop where
  root : path 0 = []
  size : 0 < s.size
  closed : ∀ n c k, (s.nodes n).children c = some k → n < s.size ∧ k < s.size ∧ k ≠ 0
  unique : ∀ n c n' c' k, (s.nodes n).children c = some k → (s.nodes n').children c' = some k →
    n = n' ∧ c = c'
  edge : ∀ n c k, (s.nodes n).children c = some k → (∀ tid, ¬ (s.writer tid).Hides n) →
    path k = path n ++ (s.nodes k).text ∧ (s.nodes k).text.head? = some c
  held : ∀ tid e, (s.writer tid).guard = some e → e ∈ s.locks
  only : ∀ tid tid' e, (s.writer tid).guard = some e → (s.writer tid').guard = some e → tid = tid'
  hidden : ∀ tid n, (s.writer tid).Hides n → (∀ tid', (s.writer tid').place ≠ some n) ∧
    s.reader.place ≠ some n
  begins : ∀ n, n < s.size → n ≠ 0 → ∃ w ∈ s.inserted, path n <+: w
  relies : ∀ tid, Relies path s (s.whole tid) (s.writer tid)
  reads : ReaderRelies path s s.reader

section Nodes

variable (s : State)

theorem children_setChild (n : Nat) (c : Char) (k n' : Nat) (c' : Char) :
    ((s.setChild n c k).nodes n').children c' =
      if n' = n ∧ c' = c then some k else (s.nodes n').children c' := by
  unfold setChild
  by_cases node : n' = n
  · subst node
    by_cases char : c' = c
    · subst char
      simp
    · simp [char]
  · simp [node]

@[simp]
theorem text_setChild (n : Nat) (c : Char) (k n' : Nat) :
    ((s.setChild n c k).nodes n').text = (s.nodes n').text := by
  unfold setChild
  by_cases node : n' = n
  · subst node
    simp
  · simp [node]

section

variable (n : Nat) (text : List Char) (n' : Nat)

@[simp]
theorem children_setText : ((s.setText n text).nodes n').children = (s.nodes n').children := by
  unfold setText
  by_cases node : n' = n
  · subst node
    simp
  · simp [node]

theorem text_setText :
    ((s.setText n text).nodes n').text = if n' = n then text else (s.nodes n').text := by
  simp only [setText, update_apply]
  split <;> rfl

end

theorem nodes_newNode (node : Node) (n : Nat) :
    (s.newNode node).nodes n = if n = s.size then node else s.nodes n := update_apply _ _ _ _

end Nodes

namespace Layout

variable {path : Nat → List Char} {s : State} {tid : Nat}

theorem start : Layout (fun _ => []) {} where
  root := rfl
  size := one_pos
  closed _ _ _ h := nomatch h
  unique _ _ _ _ _ h := nomatch h
  edge _ _ _ h := nomatch h
  held _ _ h := nomatch h
  only _ _ _ h := nomatch h
  hidden _ _ h := by
    obtain ⟨_, _, _, _, _, h⟩ := h
    cases h
  begins n inside other := absurd (Nat.lt_one_iff.mp inside) other
  relies _ := trivial
  reads := trivial

theorem quiet_of {w w' : Writer} (here : w = w') (other : ∀ prev c node n contracted remaining,
    w' ≠ .published prev c node n contracted remaining) (n : Nat) : ¬ w.Hides n := by
  rintro ⟨prev, c, node, contracted, remaining, hides⟩
  exact other _ _ _ _ _ _ (here.symm.trans hides)

theorem hides_update {w : Writer} (quiet : ∀ n, ¬ w.Hides n) :
    ∀ t n, (update s.writer tid w t).Hides n → (s.writer t).Hides n :=
  (forall_update_iff s.writer fun t v => ∀ n, v.Hides n → (s.writer t).Hides n).mpr
    ⟨fun n h => absurd h (quiet n), fun _ _ _ h => h⟩

section

variable (lay : Layout path s)
include lay

theorem relies_of {w : Writer} (here : s.writer tid = w) : Relies path s (s.whole tid) w :=
  here ▸ lay.relies tid

theorem reads_of {r : Reader} (here : s.reader = r) : ReaderRelies path s r := here ▸ lay.reads

theorem keep_reads {path' : Nat → List Char} {s' : State} (size : s.size ≤ s'.size)
    (paths : ∀ n < s.size, path' n = path n)
    (texts : ∀ n rest k, s.reader = .fetched n rest k → n < s.size →
      (s'.nodes n).text = (s.nodes n).text)
    (asked : s'.asked = s.asked) (sub : s.inserted ⊆ s'.inserted) :
    ReaderRelies path' s' s.reader := by
  have reads := lay.reads
  cases here : s.reader with rw [here] at reads
  | idle => trivial
  | walk prev' remaining matched =>
    obtain ⟨inside, whole, count⟩ := reads
    exact ⟨by omega, by rw [asked, paths _ inside]; exact whole,
      by rw [paths _ inside]; exact count⟩
  | fetched node remaining matched =>
    obtain ⟨inside, other, begun, whole, count, below⟩ := reads
    exact ⟨by omega, other, begun, by rw [asked]; exact whole, count,
      by rw [paths _ inside, texts _ _ _ here inside]; exact below⟩
  | done count =>
    rcases reads with zero | ⟨w, mem, pre⟩
    · exact .inl zero
    · exact .inr ⟨w, sub mem, by rwa [asked]⟩

theorem target_not_hidden {n k : Nat} {c : Char} (edge : (s.nodes n).children c = some k)
    (free : ∀ tid, (s.writer tid).guard = some (n, c) → ∀ m, ¬ (s.writer tid).Hides m) (tid : Nat) :
    ¬ (s.writer tid).Hides k := by
  rintro ⟨prev, d, node, contracted, remaining, here⟩
  obtain ⟨rfl, rfl⟩ := lay.unique _ _ _ _ _ edge (lay.relies_of here).2.2.2.2.1
  exact free tid (by rw [here]; rfl) k ⟨_, _, _, _, _, here⟩

theorem move {w : Writer} (locks : List (Nat × Char))
    (whole : Nat → List Char) (inserted : List (List Char))
    (quiet : ∀ n, ¬ (s.writer tid).Hides n) (quiet' : ∀ n, ¬ w.Hides n)
    (own : ∀ e, w.guard = some e → e ∈ locks)
    (others : ∀ tid' e, tid' ≠ tid → (s.writer tid').guard = some e → e ∈ locks)
    (apart : ∀ tid' e, tid' ≠ tid → (s.writer tid').guard = some e → w.guard ≠ some e)
    (place : ∀ n, w.place = some n → ∀ tid', ¬ (s.writer tid').Hides n)
    (same : ∀ tid', tid' ≠ tid → whole tid' = s.whole tid') (sub : s.inserted ⊆ inserted)
    (relies : Relies path s (whole tid) w) :
    Layout path { s with
      writer := update s.writer tid w
      locks := locks
      whole := whole
      inserted := inserted } := by
  constructor
  case root => exact lay.root
  case size => exact lay.size
  case closed => exact lay.closed
  case unique => exact lay.unique
  case edge =>
    intro n c k edge free
    refine lay.edge n c k edge fun tid' h => ?_
    by_cases mine : tid' = tid
    · exact quiet n (mine ▸ h)
    · refine free tid' ?_
      dsimp only
      rwa [update_of_ne mine]
  case held =>
    exact (forall_update_iff s.writer fun _ v => ∀ e, v.guard = some e → e ∈ locks).mpr
      ⟨own, fun t other e => others t e other⟩
  case only =>
    intro t t' e h h'
    dsimp only at h h'
    by_cases mine : t = tid
    · by_cases mine' : t' = tid
      · rw [mine, mine']
      · rw [mine, update_self] at h
        rw [update_of_ne mine'] at h'
        exact absurd h (apart t' e mine' h')
    · rw [update_of_ne mine] at h
      by_cases mine' : t' = tid
      · rw [mine', update_self] at h'
        exact absurd h' (apart t e mine h)
      · rw [update_of_ne mine'] at h'
        exact lay.only t t' e h h'
  case hidden =>
    intro t n h
    have before := hides_update quiet' t n h
    exact ⟨(forall_update_iff s.writer fun _ v => v.place ≠ some n).mpr
      ⟨fun h' => place n h' t before, fun t' _ => (lay.hidden t n before).1 t'⟩,
      (lay.hidden t n before).2⟩
  case begins =>
    intro n inside other
    obtain ⟨w, mem, pre⟩ := lay.begins n inside other
    exact ⟨w, sub mem, pre⟩
  case relies =>
    exact (forall_update_iff s.writer fun t v => Relies path s (whole t) v).mpr
      ⟨relies, fun t other => same t other ▸ lay.relies t⟩
  case reads => exact lay.keep_reads le_rfl (fun _ _ => rfl) (fun _ _ _ _ _ => rfl) rfl sub

theorem root_not_hidden (tid : Nat) : ¬ (s.writer tid).Hides 0 := by
  rintro ⟨prev, c, node, contracted, remaining, here⟩
  exact (lay.closed _ _ _ (lay.relies_of here).2.2.2.2.1).2.2 rfl

theorem place_not_hidden {n : Nat} (here : (s.writer tid).place = some n)
    (tid' : Nat) : ¬ (s.writer tid').Hides n := fun hides => (lay.hidden tid' n hides).1 tid here

theorem begin (idle : s.writer tid = .idle) (text : List Char) :
    Layout path { s.goto tid (.walk 0 text) with whole := update s.whole tid text } := by
  refine lay.move s.locks _ s.inserted (quiet_of idle nofun) (quiet_of rfl nofun) nofun
    (fun t e _ => lay.held t e) (fun _ _ _ _ => nofun) ?_ (fun t other => update_of_ne other _ _)
      (List.Subset.refl _) ?_
  · rintro n ⟨⟩
    exact lay.root_not_hidden
  · rw [update_self]
    exact ⟨lay.size, by rw [lay.root, nil_append]⟩

theorem finish {prev : Nat} (here : s.writer tid = .walk prev []) :
    Layout path { s.goto tid .idle with inserted := s.whole tid :: s.inserted } :=
  lay.move s.locks s.whole _ (quiet_of here nofun) (quiet_of rfl nofun) nofun
    (fun t e _ => lay.held t e) (fun _ _ _ _ => nofun) nofun (fun _ _ => rfl)
    (subset_cons_self _ _) trivial

theorem lock {prev : Nat} {c : Char} {rest : List Char}
    (here : s.writer tid = .walk prev (c :: rest)) (free : (prev, c) ∉ s.locks) :
    Layout path { s.goto tid (.locked prev c (c :: rest)) with
      locks := (prev, c) :: s.locks } := by
  have relies := lay.relies_of here
  refine lay.move _ s.whole s.inserted (quiet_of here nofun) (quiet_of rfl nofun) ?_
    (fun t e _ h => mem_cons_of_mem _ (lay.held t e h)) ?_ ?_ (fun _ _ => rfl)
    (List.Subset.refl _) ⟨relies.1, relies.2, rfl⟩
  · rintro e ⟨⟩
    exact mem_cons_self
  · rintro t e - guard ⟨⟩
    exact free (lay.held t _ guard)
  · rintro n ⟨⟩
    exact lay.place_not_hidden (congrArg place here)

theorem held_unlock {e : Nat × Char} (own : (s.writer tid).guard = some e) :
    ∀ t e', t ≠ tid → (s.writer t).guard = some e' → e' ∈ s.locks.filter (· ≠ e) := by
  intro t e' other guard
  refine mem_filter.mpr ⟨lay.held t e' guard, decide_eq_true ?_⟩
  rintro rfl
  exact other (lay.only t tid _ guard own)

theorem target_of_guard {n k : Nat} {c : Char}
    (edge : (s.nodes n).children c = some k) (own : (s.writer tid).guard = some (n, c))
    (quiet : ∀ m, ¬ (s.writer tid).Hides m) (tid' : Nat) : ¬ (s.writer tid').Hides k :=
  lay.target_not_hidden edge (fun t guard => lay.only t tid _ guard own ▸ quiet) tid'

end

section Access

variable {prev node : Nat} {c : Char} {remaining : List Char}

theorem eq_append_of_shared {text : List Char}
    (all : text.length ≤ sharedPrefixCount remaining text) :
    remaining = text ++ advanceByChars remaining (sharedPrefixCount remaining text) := by
  rw [sharedPrefixCount_eq] at all ⊢
  have same := take_sharedPrefixCountChars remaining text
  rw [take_of_length_le all] at same
  calc remaining = remaining.take (sharedPrefixCountChars remaining text) ++
        remaining.drop (sharedPrefixCountChars remaining text) := (take_append_drop _ _).symm
    _ = text ++ advanceByChars remaining (sharedPrefixCountChars remaining text) := by
      rw [same, advanceByChars_eq]

variable (lay : Layout path s) (here : s.writer tid = .locked prev c remaining)
  (edge : (s.nodes prev).children c = some node)

include lay here edge

theorem edge_of_locked : path node = path prev ++ (s.nodes node).text ∧
    (s.nodes node).text.head? = some c :=
  lay.edge prev c node edge fun t =>
    lay.place_not_hidden (congrArg place here) t

theorem pass (all : ¬ sharedPrefixCount remaining (s.nodes node).text < (s.nodes node).text.length)
    :
    Layout path ((s.goto tid (.walk node (advanceByChars remaining
      (sharedPrefixCount remaining (s.nodes node).text)))).unlock (prev, c)) := by
  have relies := lay.relies_of here
  have own := congrArg guard here
  have quiet := quiet_of here nofun
  refine lay.move _ s.whole s.inserted quiet (quiet_of rfl nofun) nofun (lay.held_unlock own)
    (fun _ _ _ _ => nofun) ?_ (fun _ _ => rfl) (List.Subset.refl _)
      ⟨(lay.closed _ _ _ edge).2.1, ?_⟩
  · rintro n ⟨⟩
    exact lay.target_of_guard edge own quiet
  · rw [relies.2.1, (lay.edge_of_locked here edge).1, append_assoc,
      ← eq_append_of_shared (Nat.not_lt.mp all)]

theorem split (part : sharedPrefixCount remaining (s.nodes node).text < (s.nodes node).text.length)
    :
    Layout path (s.goto tid (.splitting prev c node
      (splitAtChar (s.nodes node).text (sharedPrefixCount remaining (s.nodes node).text)).1
      (splitAtChar (s.nodes node).text (sharedPrefixCount remaining (s.nodes node).text)).2
      remaining)) := by
  have relies := lay.relies_of here
  have own := congrArg guard here
  have some_shared : 0 < sharedPrefixCount remaining (s.nodes node).text := by
    obtain ⟨rest, head⟩ := head?_eq_some_iff.mp relies.2.2
    rw [sharedPrefixCount_eq, head]
    exact sharedPrefixCountChars_pos rest (lay.edge_of_locked here edge).2
  have begins := (lay.edge_of_locked here edge).2
  have same := take_sharedPrefixCountChars remaining (s.nodes node).text
  rw [splitAtChar_eq]
  rw [← sharedPrefixCount_eq] at same
  refine lay.move s.locks s.whole s.inserted (quiet_of here nofun) (quiet_of rfl nofun) ?_
    (fun t e _ => lay.held t e) ?_ ?_ (fun _ _ => rfl) (List.Subset.refl _)
    ⟨relies.1, relies.2.1, edge, (take_append_drop _ _).symm, ?_, ?_, ?_⟩
  · rintro e ⟨⟩
    exact lay.held tid _ own
  · rintro t e other guard ⟨⟩
    exact other (lay.only t tid _ guard own)
  · rintro n ⟨⟩
    exact lay.place_not_hidden (congrArg place here)
  · intro empty
    have := drop_eq_nil_iff.mp empty
    omega
  · rw [head?_take, if_neg (by omega), begins]
  · rw [← same]
    exact take_prefix _ _

end Access

theorem release (lay : Layout path s) {prev new : Nat} {c : Char} {remaining : List Char}
    (here : s.writer tid = .shortened prev c new remaining) :
    Layout path ((s.goto tid (.walk new remaining)).unlock (prev, c)) := by
  have relies := lay.relies_of here
  have own := congrArg guard here
  have quiet := quiet_of here nofun
  refine lay.move _ s.whole s.inserted quiet (quiet_of rfl nofun) nofun (lay.held_unlock own)
    (fun _ _ _ _ => nofun) ?_ (fun _ _ => rfl) (List.Subset.refl _) ⟨relies.2.1, relies.2.2.1⟩
  · rintro n ⟨⟩
    exact lay.target_of_guard relies.2.2.2 own quiet

theorem fresh_children (lay : Layout path s) (c : Char) : (s.nodes s.size).children c = none := by
  cases h : (s.nodes s.size).children c with
  | none => rfl
  | some k => exact absurd (lay.closed _ _ _ h).1 (lt_irrefl _)

theorem children_newNode (lay : Layout path s) (text : List Char) (n : Nat) (c : Char) :
    ((s.newNode { text := text }).nodes n).children c = (s.nodes n).children c := by
  rw [nodes_newNode]
  split
  · next fresh => rw [fresh, lay.fresh_children]
  · rfl

structure Grows (path path' : Nat → List Char) (s s' : State) (prev : Nat) (c : Char) : Prop where
  paths : ∀ n < s.size, path' n = path n
  size : s'.size = s.size + 1
  texts : ∀ n < s.size, (s'.nodes n).text = (s.nodes n).text
  entries : ∀ n < s.size, ∀ e, ¬ (n = prev ∧ e = c) →
    (s'.nodes n).children e = (s.nodes n).children e
  new : (s'.nodes prev).children c = some s.size

namespace Grows

variable {path' : Nat → List Char} {s' : State} {prev : Nat} {c : Char}

theorem relies (grows : Grows path path' s s' prev c) (lay : Layout path s) {t : Nat}
    (other : (s.writer t).guard ≠ some (prev, c)) (place : (s.writer tid).place = some prev) :
    Relies path' s' (s.whole t) (s.writer t) := by
  have relies := lay.relies t
  have size := grows.size
  have kept : ∀ {p e}, (s.writer t).guard = some (p, e) → p < s.size →
      (s'.nodes p).children e = (s.nodes p).children e := by
    intro p e held inside
    refine grows.entries _ inside _ ?_
    rintro ⟨rfl, rfl⟩
    exact other held
  cases here : s.writer t with rw [here] at relies
  | idle => trivial
  | walk prev' remaining =>
    obtain ⟨inside, whole⟩ := relies
    exact ⟨by omega, by rw [grows.paths _ inside]; exact whole⟩
  | locked prev' c' remaining =>
    obtain ⟨inside, whole, first⟩ := relies
    exact ⟨by omega, by rw [grows.paths _ inside]; exact whole, first⟩
  | splitting prev' c' node matched contracted remaining =>
    obtain ⟨inside, whole, edge, text, rest⟩ := relies
    refine ⟨by omega, by rw [grows.paths _ inside]; exact whole, ?_, ?_, rest⟩
    · rw [kept (congrArg guard here) inside, edge]
    · rw [grows.texts _ (lay.closed _ _ _ edge).2.1, text]
  | published prev' c' node new contracted remaining =>
    obtain ⟨inside, inside', ne, whole, edge, paths, ⟨d, first, child⟩, single⟩ := relies
    have hides : new ≠ prev := fun same =>
      (lay.hidden t new ⟨_, _, _, _, _, here⟩).1 tid (same ▸ place)
    refine ⟨by omega, by omega, ne, by rw [grows.paths _ inside']; exact whole, ?_, ?_,
      ⟨d, first, ?_⟩, fun e k child => ?_⟩
    · rw [kept (congrArg guard here) inside, edge]
    · rw [grows.paths _ inside', grows.paths _ (lay.closed _ _ _ child).2.1, paths]
    · rw [grows.entries _ inside' _ fun h => hides h.1, child]
    · rw [grows.entries _ inside' _ fun h => hides h.1] at child
      exact single e k child
  | shortened prev' c' new remaining =>
    obtain ⟨inside, inside', whole, edge⟩ := relies
    exact ⟨by omega, by omega, by rw [grows.paths _ inside']; exact whole,
      by rw [kept (congrArg guard here) inside, edge]⟩

end Grows

section

variable (lay : Layout path s)
include lay

theorem place_lt {n : Nat} (here : (s.writer tid).place = some n) : n < s.size := by
  have relies := lay.relies tid
  cases h : s.writer tid <;> rw [h] at here relies <;> cases here <;> exact relies.1

theorem reader_place_lt {n : Nat} (here : s.reader.place = some n) : n < s.size := by
  have reads := lay.reads
  cases h : s.reader <;> rw [h] at here reads <;> cases here <;> exact reads.1

theorem grow {path' : Nat → List Char} {s' : State} {prev : Nat} {c : Char}
    {w : Writer} (grows : Grows path path' s s' prev c)
    (own : (s.writer tid).guard = some (prev, c)) (place : (s.writer tid).place = some prev)
    (quiet : ∀ n, ¬ (s.writer tid).Hides n) (writer : s'.writer = update s.writer tid w)
    (whole : s'.whole = s.whole) (reader : s'.reader = s.reader) (asked : s'.asked = s.asked)
    (edges : ∀ n e k, (s'.nodes n).children e = some k → (n = prev ∧ e = c ∧ k = s.size) ∨
      (¬ (n = prev ∧ e = c) ∧ (s.nodes n).children e = some k) ∨
      (n = s.size ∧ w.Hides s.size ∧ (s.nodes prev).children c = some k ∧
        ∀ e', (s'.nodes s.size).children e' = some k → e' = e))
    (text : path' s.size = path prev ++ (s'.nodes s.size).text ∧
      (s'.nodes s.size).text.head? = some c)
    (hidesOnly : ∀ n, w.Hides n → n = s.size)
    (held : ∀ t e, t ≠ tid → (s.writer t).guard = some e → e ∈ s'.locks)
    (guard : ∀ e, w.guard = some e → e = (prev, c) ∧ e ∈ s'.locks)
    (place' : ∀ n, w.place = some n → n = prev)
    (sub : s.inserted ⊆ s'.inserted) (begins : ∃ v ∈ s'.inserted, path' s.size <+: v)
    (relies : Relies path' s' (s.whole tid) w) : Layout path' s' := by
  have mine : s'.writer tid = w := by rw [writer, update_self]
  have others : ∀ t, t ≠ tid → s'.writer t = s.writer t := fun t other => by
    rw [writer, update_of_ne other]
  have old : ∀ {n e k}, (s.nodes n).children e = some k → k ≠ s.size := fun edge =>
    Nat.ne_of_lt (lay.closed _ _ _ edge).2.1
  have size := grows.size
  constructor
  case root => rw [grows.paths 0 lay.size, lay.root]
  case size => omega
  case closed =>
    intro n e k edge
    have inside := lay.place_lt place
    have positive := lay.size
    rcases edges n e k edge with ⟨rfl, rfl, rfl⟩ | ⟨-, before⟩ | ⟨rfl, -, before, -⟩
    · exact ⟨by omega, by omega, by omega⟩
    · obtain ⟨hn, hk, real⟩ := lay.closed _ _ _ before
      exact ⟨by omega, by omega, real⟩
    · obtain ⟨-, hk, real⟩ := lay.closed _ _ _ before
      exact ⟨by omega, by omega, real⟩
  case unique =>
    intro n e n' e' k edge edge'
    rcases edges n e k edge with ⟨rfl, rfl, rfl⟩ | ⟨apart, before⟩ | ⟨rfl, -, before, only⟩
    · rcases edges n' e' _ edge' with ⟨rfl, rfl, -⟩ | ⟨-, before'⟩ | ⟨-, -, before', -⟩
      · exact ⟨rfl, rfl⟩
      · exact absurd rfl (old before')
      · exact absurd rfl (old before')
    · rcases edges n' e' _ edge' with ⟨-, -, rfl⟩ | ⟨-, before'⟩ | ⟨-, -, before', -⟩
      · exact absurd rfl (old before)
      · exact lay.unique _ _ _ _ _ before before'
      · exact absurd (lay.unique _ _ _ _ _ before before') apart
    · rcases edges n' e' _ edge' with ⟨-, -, rfl⟩ | ⟨apart, before'⟩ | ⟨rfl, -, -, -⟩
      · exact absurd rfl (old before)
      · exact absurd (lay.unique _ _ _ _ _ before' before) apart
      · exact ⟨rfl, (only e' edge').symm⟩
  case edge =>
    intro n e k edge free
    rcases edges n e k edge with ⟨rfl, rfl, rfl⟩ | ⟨-, before⟩ | ⟨rfl, hides, -, -⟩
    · rw [grows.paths _ (lay.place_lt place)]
      exact text
    · obtain ⟨hn, hk, -⟩ := lay.closed _ _ _ before
      rw [grows.paths _ hn, grows.paths _ hk, grows.texts _ hk]
      refine lay.edge _ _ _ before fun t h => ?_
      by_cases same : t = tid
      · exact quiet n (same ▸ h)
      · exact free t (others t same ▸ h)
    · exact absurd (mine ▸ hides) (free tid)
  case held =>
    intro t e h
    by_cases same : t = tid
    · rw [same, mine] at h
      exact (guard e h).2
    · exact held t e same (others t same ▸ h)
  case only =>
    have back : ∀ {t e}, (s'.writer t).guard = some e → (s.writer t).guard = some e := by
      intro t e h
      by_cases same : t = tid
      · subst same
        rw [mine] at h
        rw [own, (guard e h).1]
      · rwa [others t same] at h
    exact fun t t' e h h' => lay.only t t' e (back h) (back h')
  case hidden =>
    intro t n h
    by_cases same : t = tid
    · -- Nothing refers to the new node yet.
      rw [same, mine] at h
      obtain rfl := hidesOnly n h
      refine ⟨fun t' there => ?_, fun there => ?_⟩
      · by_cases same' : t' = tid
        · rw [same', mine] at there
          exact Nat.ne_of_gt (lay.place_lt place) (place' _ there)
        · exact lt_irrefl _ (lay.place_lt (others t' same' ▸ there))
      · exact lt_irrefl _ (lay.reader_place_lt (reader ▸ there))
    · rw [others t same] at h
      have before := lay.hidden t n h
      refine ⟨fun t' there => ?_, reader ▸ before.2⟩
      by_cases same' : t' = tid
      · rw [same', mine] at there
        exact before.1 tid (place' n there ▸ place)
      · exact before.1 t' (others t' same' ▸ there)
  case begins =>
    intro n inside other
    by_cases fresh : n = s.size
    · exact fresh ▸ begins
    · obtain ⟨v, mem, pre⟩ := lay.begins n (by omega) other
      exact ⟨v, sub mem, by rwa [grows.paths n (by omega)]⟩
  case relies =>
    intro t
    rw [whole]
    by_cases same : t = tid
    · rw [same, mine]
      exact relies
    · rw [others t same]
      exact grows.relies lay (fun h => same (lay.only t tid _ h own)) place
  case reads =>
    exact reader ▸ lay.keep_reads (by omega) grows.paths (fun n _ _ _ => grows.texts n) asked sub

theorem leaf {prev : Nat} {c : Char} {remaining : List Char}
    (here : s.writer tid = .locked prev c remaining) :
    Layout (update path s.size (s.whole tid))
      { ((s.newNode { text := remaining }).setChild prev c s.size).unlock (prev, c) with
        writer := update s.writer tid .idle
        inserted := s.whole tid :: s.inserted } := by
  obtain ⟨inside, whole, first⟩ := lay.relies_of here
  have own := congrArg guard here
  set grown := (s.newNode { text := remaining }).setChild prev c s.size with grown_def
  have text : ∀ n, (grown.nodes n).text = if n = s.size then remaining else (s.nodes n).text := by
    intro n
    rw [grown_def, text_setChild, nodes_newNode]
    split <;> rfl
  have children : ∀ n e, (grown.nodes n).children e =
      if n = prev ∧ e = c then some s.size else (s.nodes n).children e := by
    intro n e
    rw [grown_def, children_setChild, lay.children_newNode]
  have idle : ∀ n, ¬ idle.Hides n := quiet_of rfl nofun
  refine lay.grow (w := .idle) ⟨fun n h => update_of_ne (Nat.ne_of_lt h) _ _, rfl,
      fun n h => (text n).trans (if_neg (Nat.ne_of_lt h)),
      fun n _ e apart => (children n e).trans (if_neg apart),
      (children prev c).trans (if_pos ⟨rfl, rfl⟩)⟩
    own (congrArg place here) (quiet_of here nofun) rfl rfl rfl rfl ?_ ⟨?_, ?_⟩
    (fun n h => absurd h (idle n)) (lay.held_unlock own) nofun nofun
    (subset_cons_self _ _) ⟨_, mem_cons_self, by rw [update_self]⟩ trivial
  · intro n e k edge
    replace edge := (children n e).symm.trans edge
    split at edge
    · next h => exact .inl ⟨h.1, h.2, (Option.some.inj edge).symm⟩
    · next h => exact .inr (.inl ⟨h, edge⟩)
  · rw [update_self, whole]
    exact congrArg (path prev ++ ·) ((text s.size).trans (if_pos rfl)).symm
  · exact (congrArg head? ((text s.size).trans (if_pos rfl))).trans first

theorem publish {prev node : Nat} {c d : Char} {matched rest remaining : List Char}
    (here : s.writer tid = .splitting prev c node matched (d :: rest) remaining) :
    Layout (update path s.size (path prev ++ matched))
      ((((s.newNode { text := matched }).setChild s.size d node).setChild prev c s.size).goto tid
        (.published prev c node s.size (d :: rest) (advanceByChars remaining matched.length))) := by
  obtain ⟨inside, whole, edge, text, -, first, shared⟩ := lay.relies_of here
  have own := congrArg guard here
  have place := congrArg place here
  have apart : prev ≠ s.size := Nat.ne_of_lt inside
  obtain ⟨-, nodeInside, real⟩ := lay.closed _ _ _ edge
  set grown := ((s.newNode { text := matched }).setChild s.size d node).setChild prev c s.size
    with grown_def
  have texts : ∀ n, (grown.nodes n).text = if n = s.size then matched else (s.nodes n).text := by
    intro n
    rw [grown_def, text_setChild, text_setChild, nodes_newNode]
    split <;> rfl
  have children : ∀ n e, (grown.nodes n).children e = if n = prev ∧ e = c then some s.size
        else if n = s.size ∧ e = d then some node else (s.nodes n).children e := by
    intro n e
    rw [grown_def, children_setChild, children_setChild, lay.children_newNode]
  have child : (grown.nodes s.size).children d = some node := by
    rw [children, if_neg fun h => apart h.1.symm, if_pos ⟨rfl, rfl⟩]
  have single : ∀ e k, (grown.nodes s.size).children e = some k → k = node ∧ e = d := by
    intro e k h
    rw [children, if_neg fun h => apart h.1.symm] at h
    split at h
    · next same => exact ⟨(Option.some.inj h).symm, same.2⟩
    · rw [lay.fresh_children] at h
      cases h
  have below : path node = path prev ++ matched ++ d :: rest := by
    rw [(lay.edge prev c node edge (lay.place_not_hidden place)).1, text, append_assoc]
  have grows : Grows path (update path s.size (path prev ++ matched)) s
      (grown.goto tid (.published prev c node s.size (d :: rest)
        (advanceByChars remaining matched.length))) prev c :=
    ⟨fun n h => update_of_ne (Nat.ne_of_lt h) _ _, rfl,
      fun n h => (texts n).trans (if_neg (Nat.ne_of_lt h)),
      fun n h e apart => ((children n e).trans (if_neg apart)).trans
        (if_neg fun fresh => Nat.ne_of_lt h fresh.1),
      (children prev c).trans (if_pos ⟨rfl, rfl⟩)⟩
  refine lay.grow grows own place (quiet_of here nofun) rfl rfl rfl rfl ?_ ⟨?_, ?_⟩ ?_
    (fun t e _ => lay.held t e) ?_ ?_ (List.Subset.refl _) ?_
    ⟨Nat.lt_succ_of_lt inside, Nat.lt_succ_self _, apart, ?_, grows.new, ?_, ⟨d, rfl, child⟩,
      fun e k h => (single e k h).1⟩
  · intro n e k h
    have h' := (children n e).symm.trans h
    split at h'
    · next own => exact .inl ⟨own.1, own.2, (Option.some.inj h').symm⟩
    · next other =>
      split at h'
      · next fresh =>
        obtain ⟨rfl, rfl⟩ := fresh
        cases h'
        exact .inr (.inr ⟨rfl, ⟨_, _, _, _, _, rfl⟩, edge, fun e' there => (single e' _ there).2⟩)
      · exact .inr (.inl ⟨other, h'⟩)
  · rw [update_self]
    exact congrArg (path prev ++ ·) ((texts s.size).trans (if_pos rfl)).symm
  · exact (congrArg head? ((texts s.size).trans (if_pos rfl))).trans first
  · rintro n ⟨_, _, _, _, _, h⟩
    cases h
    rfl
  · rintro e ⟨⟩
    exact ⟨rfl, lay.held tid _ own⟩
  · rintro n ⟨⟩
    rfl
  · obtain ⟨v, mem, pre⟩ := lay.begins node nodeInside real
    rw [update_self]
    exact ⟨v, mem, (below ▸ prefix_append _ _ : path prev ++ matched <+: path node).trans pre⟩
  · obtain ⟨after, rfl⟩ := shared
    rw [update_self, advanceByChars_eq, drop_left, whole, append_assoc]
  · rw [update_self, update_of_ne (Nat.ne_of_lt nodeInside), below]

theorem shorten {prev node new : Nat} {c : Char} {contracted remaining : List Char}
    (here : s.writer tid = .published prev c node new contracted remaining)
    (leaves : ∀ rest k, s.reader ≠ .fetched node rest k) :
    Layout path ((s.setText node contracted).goto tid (.shortened prev c new remaining)) := by
  obtain ⟨inside, newInside, apart, whole, edge, below, ⟨d, first, child⟩, single⟩ :=
    lay.relies_of here
  have own := congrArg guard here
  have hidden := lay.hidden tid new ⟨_, _, _, _, _, here⟩
  set after := (s.setText node contracted).goto tid (.shortened prev c new remaining)
  have others : ∀ t, t ≠ tid → after.writer t = s.writer t := fun t other =>
    update_of_ne other _ _
  have mine : after.writer tid = .shortened prev c new remaining := update_self _ _ _
  have children : ∀ n, (after.nodes n).children = (s.nodes n).children :=
    children_setText s node contracted
  have texts : ∀ n, (after.nodes n).text =
        if n = node then contracted else (s.nodes n).text := text_setText s node contracted
  have guards : ∀ t e, (after.writer t).guard = some e → (s.writer t).guard = some e :=
    (forall_update_iff s.writer fun t v => ∀ e, v.guard = some e → (s.writer t).guard = some e).mpr
      ⟨fun _ h => own.trans h, fun _ _ _ h => h⟩
  constructor
  case root => exact lay.root
  case size => exact lay.size
  case closed =>
    intro n e k h
    rw [children] at h
    exact lay.closed n e k h
  case unique =>
    intro n e n' e' k h h'
    rw [children] at h h'
    exact lay.unique n e n' e' k h h'
  case edge =>
    intro n e k h free
    rw [children] at h
    rw [texts]
    by_cases target : k = node
    · subst target
      obtain ⟨rfl, rfl⟩ := lay.unique _ _ _ _ _ h child
      rw [if_pos rfl]
      exact ⟨below, first⟩
    · rw [if_neg target]
      refine lay.edge n e k h fun t before => ?_
      by_cases same : t = tid
      · subst same
        rw [here] at before
        obtain ⟨_, _, _, _, _, before⟩ := before
        cases before
        exact target (single e k h)
      · exact free t (others t same ▸ before)
  case held => exact fun t e h => lay.held t e (guards t e h)
  case only => exact fun t t' e h h' => lay.only t t' e (guards t e h) (guards t' e h')
  case hidden =>
    intro t n h
    have before := lay.hidden t n
      (hides_update (w := .shortened prev c new remaining) (quiet_of rfl nofun) t n h)
    exact ⟨(forall_update_iff s.writer fun _ v => v.place ≠ some n).mpr
      ⟨fun there => before.1 tid ((congrArg place here).trans there), fun t' _ => before.1 t'⟩,
      before.2⟩
  case begins => exact lay.begins
  case relies =>
    intro t
    by_cases same : t = tid
    · subst same
      rw [mine]
      exact ⟨inside, newInside, whole, by rw [children]; exact edge⟩
    · rw [others t same]
      have relies := lay.relies t
      cases there : s.writer t with rw [there] at relies
      | splitting prev' c' node' matched contracted' remaining' =>
        obtain ⟨inside', whole', edge', text', rest⟩ := relies
        have other : node' ≠ node := by
          rintro rfl
          obtain ⟨rfl, -⟩ := lay.unique _ _ _ _ _ edge' child
          exact hidden.1 t (by rw [there]; rfl)
        refine ⟨inside', whole', ?_, ?_, rest⟩
        · rw [children]
          exact edge'
        · rw [texts, if_neg other]
          exact text'
      | idle => trivial
      | walk | locked =>
        exact relies
      | published | shortened =>
        unfold Relies at relies ⊢
        simp only [children]
        exact relies
  case reads =>
    refine lay.keep_reads le_rfl (fun _ _ => rfl) (fun n rest k there _ => ?_) rfl
      (List.Subset.refl _)
    rw [texts, if_neg]
    rintro rfl
    exact leaves rest k there

theorem ask {reader : Reader} (asked : List Char)
    (place : ∀ n, reader.place = some n → ∀ tid, ¬ (s.writer tid).Hides n)
    (reads : ReaderRelies path { s with reader := reader, asked := asked } reader) :
    Layout path { s with reader := reader, asked := asked } :=
  { lay with
    hidden := fun t n h => ⟨(lay.hidden t n h).1, fun there => place n there t h⟩
    relies := lay.relies
    reads := reads }

theorem query (text : List Char) :
    Layout path { s with reader := .walk 0 text 0, asked := text } := by
  refine lay.ask text ?_ ⟨lay.size, by rw [lay.root, nil_append], by rw [lay.root]; rfl⟩
  rintro n ⟨⟩
  exact lay.root_not_hidden

end

section Walk

variable {prev : Nat} {remaining : List Char} {matchedChars : Nat}
  (lay : Layout path s) (here : s.reader = .walk prev remaining matchedChars)

include lay here

theorem stop : Layout path { s with reader := .done matchedChars } := by
  obtain ⟨inside, asked, rfl⟩ := lay.reads_of here
  refine lay.ask s.asked nofun ?_
  by_cases root : prev = 0
  · left
    rw [root, lay.root]
    rfl
  · right
    obtain ⟨v, mem, pre⟩ := lay.begins prev inside root
    exact ⟨v, mem, by rw [asked, take_left]; exact pre⟩

theorem fetch {c : Char} {node : Nat} (free : (prev, c) ∉ s.locks)
    (edge : (s.nodes prev).children c = some node) :
    Layout path { s with reader := .fetched node remaining matchedChars } := by
  obtain ⟨inside, asked, count⟩ := lay.reads_of here
  obtain ⟨-, nodeInside, real⟩ := lay.closed _ _ _ edge
  have open_place : ∀ tid, ¬ (s.writer tid).Hides prev := fun tid h =>
    (lay.hidden tid prev h).2 (by rw [here]; rfl)
  refine lay.ask s.asked ?_
    ⟨nodeInside, real, path prev, asked, count, (lay.edge _ _ _ edge open_place).1⟩
  rintro n ⟨⟩
  exact lay.target_not_hidden edge fun t guard => absurd (lay.held t _ guard) free

end Walk

section Read

variable {node : Nat} {remaining : List Char} {matchedChars : Nat}
  (lay : Layout path s) (here : s.reader = .fetched node remaining matchedChars)

include lay here

theorem descend
    (all : sharedPrefixCount remaining (s.nodes node).text = (s.nodes node).text.length) :
    Layout path { s with
      reader := .walk node
        (advanceByChars remaining (sharedPrefixCount remaining (s.nodes node).text))
        (matchedChars + sharedPrefixCount remaining (s.nodes node).text) } := by
  obtain ⟨inside, -, begun, asked, rfl, below⟩ := lay.reads_of here
  refine lay.ask s.asked ?_ ⟨inside, ?_, ?_⟩
  · rintro n ⟨⟩ tid h
    exact (lay.hidden tid node h).2 (by rw [here]; rfl)
  · rw [asked, below, append_assoc, ← eq_append_of_shared all.ge]
  · rw [below, length_append, all]

theorem partly : Layout path { s with
    reader := .done (matchedChars + sharedPrefixCount remaining (s.nodes node).text) } := by
  obtain ⟨inside, real, begun, asked, rfl, below⟩ := lay.reads_of here
  refine lay.ask s.asked nofun (.inr ?_)
  obtain ⟨v, mem, pre⟩ := lay.begins node inside real
  refine ⟨v, mem, IsPrefix.trans ?_ pre⟩
  rw [asked, take_length_add_append, sharedPrefixCount_eq, take_sharedPrefixCountChars, below]
  exact (prefix_append_right_inj begun).mpr (List.take_prefix _ _)

end Read

theorem step {s' : State} {a : Action} (lay : Layout path s) (leaves : LeavesFetched s a)
    (h : s.step a = some s') : ∃ path', Layout path' s' := by
  cases a with rw [State.step] at h
  | begin tid text =>
    split at h
    case h_2 => cases h
    next idle =>
    cases h
    exact ⟨path, lay.begin idle text⟩
  | finish tid =>
    split at h
    case h_2 => cases h
    next here =>
    cases h
    exact ⟨path, lay.finish here⟩
  | lock tid =>
    split at h
    case h_2 => cases h
    next here =>
    split at h
    · cases h
    · next free =>
      cases h
      exact ⟨path, lay.lock here free⟩
  | access tid =>
    rw [State.insertStep.eq_def] at h
    split at h
    case h_2 => cases h
    next here =>
    split at h
    · cases h
      exact ⟨_, lay.leaf here⟩
    · next node edge =>
      dsimp only at h
      split at h
      · next part =>
        cases h
        exact ⟨path, lay.split here edge part⟩
      · next all =>
        cases h
        exact ⟨path, lay.pass here edge all⟩
  | publish tid =>
    split at h
    case h_2 => cases h
    next here =>
    split at h
    · cases h
    · cases h
      exact ⟨_, lay.publish here⟩
  | shorten tid =>
    split at h
    case h_2 => cases h
    next here =>
    cases h
    exact ⟨path, lay.shorten here (leaves _ _ _ _ _ _ here)⟩
  | release tid =>
    split at h
    case h_2 => cases h
    next here =>
    cases h
    exact ⟨path, lay.release here⟩
  | query text =>
    split at h
    case h_2 => cases h
    cases h
    exact ⟨path, lay.query text⟩
  | get =>
    split at h
    case h_3 => cases h
    · next here =>
      cases h
      exact ⟨path, lay.stop here⟩
    · next here =>
      split at h
      · cases h
      · next free =>
        split at h
        · next edge =>
          cases h
          exact ⟨path, lay.fetch here free edge⟩
        · cases h
          exact ⟨path, lay.stop here⟩
  | read =>
    split at h
    case h_2 => cases h
    next here =>
    dsimp only at h
    split at h
    · next all =>
      cases h
      exact ⟨path, lay.descend here all⟩
    · cases h
      exact ⟨path, lay.partly here⟩

end Layout

/-- In every interleaving in which no `insert` shortens a node between the reader's fetch of the
node and its read, the answer is truthful. -/
theorem prefixMatch_truthful {s : State} (run : Reaches LeavesFetched s) : s.Truthful := by
  have layout : ∃ path, Layout path s := by
    induction run with
    | start => exact ⟨_, .start⟩
    | step _ leaves step ih =>
      obtain ⟨path, lay⟩ := ih
      exact lay.step leaves step
  obtain ⟨path, lay⟩ := layout
  intro count here
  have reads := lay.reads
  rwa [here] at reads

def State.steps (s : State) (as : List Action) : Option State := as.foldlM State.step s

theorem Reaches.steps {ok : State → Action → Prop} {s s' : State}
    (run : Reaches ok s) (as : List Action) (allowed : ∀ s, ∀ a ∈ as, ok s a)
      (h : s.steps as = some s') :
    Reaches ok s' :=
  of_foldlM (fun s a mem _ before first => before.step (allowed s a mem) first) run h

/-- The reader of "ab" fetches the node of "aab"; an `insert` of "ac" shortens it to "ab". -/
theorem prefixMatch_split_between :
    ∃ s, Reaches (fun _ _ => True) s ∧ s.reader = .done 2 ∧ s.asked = ['a', 'b'] ∧
      s.inserted = [['a', 'a', 'b']] ∧ ¬ s.Truthful := by
  have run := (Reaches.start : Reaches (fun _ _ => True) {}).steps
    [.begin 0 ['a', 'a', 'b'], .lock 0, .access 0, .query ['a', 'b'], .get, .begin 1 ['a', 'c'],
      .lock 1, .access 1, .publish 1, .shorten 1, .read, .get] (fun _ _ _ => trivial) rfl
  refine ⟨_, run, rfl, rfl, rfl, fun truthful => ?_⟩
  rcases truthful 2 rfl with zero | ⟨w, mem, pre⟩
  · cases zero
  · rw [mem_singleton.mp (show w ∈ [['a', 'a', 'b']] from mem)] at pre
    exact absurd pre (by decide)

theorem prefixMatch_truthful_between :
    ∃ s, Reaches LeavesFetched s ∧ s.reader = .done 2 ∧ s.inserted = [['d'], ['a', 'b', 'c']] ∧
      s.Truthful := by
  have run := (Reaches.start : Reaches LeavesFetched {}).steps
    [.begin 0 ['a', 'b', 'c'], .lock 0, .access 0, .query ['a', 'b'], .get, .begin 1 ['d'],
      .lock 1, .access 1, .read]
    (by
      intro s a mem
      simp only [mem_cons, not_mem_nil, or_false] at mem
      rcases mem with rfl | rfl | rfl | rfl | rfl | rfl | rfl | rfl | rfl <;> trivial) rfl
  exact ⟨_, run, rfl, rfl, prefixMatch_truthful run⟩

end RedKnot.Gateway.TextTree
