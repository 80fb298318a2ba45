import RedKnot.MemCache.BlockHash

/-! A block hash names a word: the tokens from the start of the sequence to the end of a page. The
namespace of a key is no part of the bytes. -/

namespace RedKnot

open RadixKey List Nat

def blockInput (sha256 : List UInt8 → Digest) (P : Nat) (w : List KeyUnit) : List UInt8 :=
  blockBytes (seedAfter sha256 P (w.length / P - 1) w none) (w.drop ((w.length / P - 1) * P))

def blockHash (sha256 : List UInt8 → Digest) (P : Nat) (w : List KeyUnit) : Int :=
  hashStrToInt64 (sha256 (blockInput sha256 P w))

def grams (w : List KeyUnit) : List Gram := w.map Prod.snd

def GramOk (bigram : Bool) : Gram → Prop
  | .token t => bigram = false ∧ t < 2 ^ 32
  | .bigram a b => bigram = true ∧ a < 2 ^ 32 ∧ b < 2 ^ 32

def WordOk (bigram : Bool) (w : List KeyUnit) : Prop := ∀ u ∈ w, GramOk bigram u.2

variable {v w : List KeyUnit} {bigram : Bool}

theorem WordOk.of_sub (h : WordOk bigram w) (sub : v ⊆ w) :
    WordOk bigram v := fun u hu => h u (sub hu)

theorem tokenBytes_inj {a b : Nat} (ha : a < 2 ^ 32) (hb : b < 2 ^ 32)
    (h : tokenBytes a = tokenBytes b) : a = b := by
  simp only [tokenBytes, List.cons.injEq, and_true] at h
  obtain ⟨h0, h1, h2, h3⟩ := h
  have e0 : a % 256 = b % 256 := by simpa using congrArg UInt8.toNat h0
  have e1 : a / 256 % 256 = b / 256 % 256 := by simpa using congrArg UInt8.toNat h1
  have e2 : a / 65536 % 256 = b / 65536 % 256 := by simpa using congrArg UInt8.toNat h2
  have e3 : a / 16777216 % 256 = b / 16777216 % 256 := by simpa using congrArg UInt8.toNat h3
  omega

def unitWidth (bigram : Bool) : Nat := if bigram then 8 else 4

theorem length_gramBytes {g : Gram} (ok : GramOk bigram g) :
    (gramBytes g).length = unitWidth bigram := by
  cases g with
  | token t | bigram a b =>
    obtain ⟨rfl, _⟩ := ok
    rfl

theorem gramBytes_inj {g g' : Gram} (ok : GramOk bigram g) (ok' : GramOk bigram g')
    (h : gramBytes g = gramBytes g') : g = g' := by
  cases g with
  | token t =>
    cases g' with
    | token t' => rw [tokenBytes_inj ok.2 ok'.2 h]
    | bigram a b => exact absurd (ok.1.symm.trans ok'.1) (by simp)
  | bigram a b =>
    cases g' with
    | token t' => exact absurd (ok.1.symm.trans ok'.1) (by simp)
    | bigram a' b' =>
      obtain ⟨ha, hb⟩ := append_inj h rfl
      rw [tokenBytes_inj ok.2.1 ok'.2.1 ha, tokenBytes_inj ok.2.2 ok'.2.2 hb]

def pageText (w : List KeyUnit) : List UInt8 := w.flatMap (fun u => gramBytes u.2)

theorem length_pageText (ok : WordOk bigram w) :
    (pageText w).length = w.length * unitWidth bigram := by
  induction w with
  | nil => simp [pageText]
  | cons u w ih =>
    have hu := length_gramBytes (ok u mem_cons_self)
    have hw := ih (ok.of_sub (subset_cons_self u w))
    unfold pageText at hw ⊢
    rw [flatMap_cons, length_append, hu, hw, length_cons, succ_mul, Nat.add_comm]

theorem grams_of_pageText (okv : WordOk bigram v)
    (okw : WordOk bigram w) (same : v.length = w.length) (h : pageText v = pageText w) :
    grams v = grams w := by
  induction v generalizing w with
  | nil =>
    cases w with
    | nil => rfl
    | cons u w => cases same
  | cons u v ih =>
    cases w with
    | nil => cases same
    | cons u' w =>
      have hu := okv u mem_cons_self
      have hu' := okw u' mem_cons_self
      obtain ⟨first, rest⟩ := append_inj h ((length_gramBytes hu).trans (length_gramBytes hu').symm)
      have tail := ih (okv.of_sub (subset_cons_self u v)) (okw.of_sub (subset_cons_self u' w))
        (Nat.succ.inj same) rest
      simp only [grams, map_cons] at tail ⊢
      rw [gramBytes_inj hu hu' first, tail]

section Words

variable {sha256 : List UInt8 → Digest} {P : Nat}

theorem take_digests (n m : Nat) (us : List KeyUnit) (prior : Option Digest) :
    (digests sha256 P (n + m) us prior).take n = digests sha256 P n us prior := by
  rw [digests_add, take_left' (by simp)]

section

variable (pos : 0 < P) {us : List KeyUnit} {n : Nat}
include pos

theorem blockInput_take (long : (n + 1) * P ≤ us.length) :
    blockInput sha256 P (us.take ((n + 1) * P)) =
      blockBytes (seedAfter sha256 P n us none) ((us.drop (n * P)).take P) := by
  have pages : (us.take ((n + 1) * P)).length / P - 1 = n := by
    rw [length_take_of_le long, Nat.mul_div_cancel _ pos, Nat.add_sub_cancel]
  have seed : seedAfter sha256 P n (us.take ((n + 1) * P)) none = seedAfter sha256 P n us none := by
    unfold seedAfter
    rw [digests_take sha256 P n (us.take ((n + 1) * P)) us]
    rw [take_take, Nat.min_eq_left (Nat.mul_le_mul_right P (le_succ n))]
  have page : (us.take ((n + 1) * P)).drop (n * P) = (us.drop (n * P)).take P := by
    rw [drop_take, succ_mul, Nat.add_sub_cancel_left]
  rw [blockInput, pages, seed, page]

theorem digests_succ (long : (n + 1) * P ≤ us.length) : digests sha256 P (n + 1) us none =
      digests sha256 P n us none ++ [sha256 (blockInput sha256 P (us.take ((n + 1) * P)))] := by
  rw [digests_add, blockInput_take pos long]
  rfl

theorem digests_eq_map (long : n * P ≤ us.length) : digests sha256 P n us none =
      (range n).map (fun i => sha256 (blockInput sha256 P (us.take ((i + 1) * P)))) := by
  induction n with
  | zero => rfl
  | succ n ih =>
    have fewer : n * P ≤ us.length := by
      rw [succ_mul] at long
      omega
    rw [digests_succ pos long, ih fewer, range_succ, map_append]
    rfl

end

theorem digests_append {us : List KeyUnit} (hw : P ∣ w.length) :
    digests sha256 P ((w ++ us).length / P) (w ++ us) none =
      digests sha256 P (w.length / P) w none ++
        digests sha256 P (us.length / P) us (digests sha256 P (w.length / P) w none).getLast? := by
  have front : digests sha256 P (w.length / P) (w ++ us) none = digests sha256 P (w.length / P) w none := by
    apply digests_take
    rw [Nat.div_mul_cancel hw, take_left, take_length]
  have pages : (w ++ us).length / P = w.length / P + us.length / P := by
    rw [length_append, Nat.add_div_of_dvd_right hw]
  rw [pages, digests_add, seedAfter, front, Option.or_none, Nat.div_mul_cancel hw, drop_left]

theorem take_digests_of_cut (within : v <+: w) :
    (digests sha256 P (w.length / P) w none).take (v.length / P) =
      digests sha256 P (v.length / P) v none := by
  obtain ⟨m, hm⟩ := Nat.exists_eq_add_of_le (Nat.div_le_div_right (c := P) within.length_le)
  rw [hm, take_digests]
  apply digests_take
  obtain ⟨rest, rfl⟩ := within
  rw [take_append_of_le_length (div_mul_le_self _ _)]

theorem blockInput_of_length (pos : 0 < P) {n : Nat} (hw : w.length = (n + 1) * P) :
    blockInput sha256 P w = (match n with
      | 0 => []
      | m + 1 => sha256 (blockInput sha256 P (w.take ((m + 1) * P)))) ++ pageText (w.drop (n * P)) := by
  have input : blockInput sha256 P (w.take ((n + 1) * P)) =
      blockBytes (seedAfter sha256 P n w none) ((w.drop (n * P)).take P) :=
    blockInput_take pos hw.ge
  rw [← hw, take_length] at input
  have page : (w.drop (n * P)).take P = w.drop (n * P) := by
    apply take_of_length_le
    rw [length_drop, hw, succ_mul]
    omega
  rw [input, page]
  cases n with
  | zero => rfl
  | succ m =>
    have long : (m + 1) * P ≤ w.length := by
      rw [hw]
      exact Nat.mul_le_mul_right P (by omega)
    simp only [blockBytes, seedAfter, digests_succ pos long, getLast?_concat]
    rfl

theorem pages_of_ne_nil (paged : P ∣ w.length) (some : w ≠ []) : ∃ n, w.length = (n + 1) * P := by
  obtain ⟨n, hn⟩ := paged
  cases n with
  | zero => exact absurd (length_eq_zero_iff.mp hn) some
  | succ n => exact ⟨n, hn.trans (Nat.mul_comm _ _)⟩

theorem ne_nil_of_pages (pos : 0 < P) {n : Nat} (hw : w.length = (n + 1) * P) : w ≠ [] := by
  rintro rfl
  have := Nat.mul_pos (succ_pos n) pos
  simp at hw
  omega

theorem length_take_page {m : Nat} (hw : w.length = (m + 1 + 1) * P) :
    (w.take ((m + 1) * P)).length = (m + 1) * P := by
  apply length_take_of_le
  rw [hw]
  exact Nat.mul_le_mul_right P (le_succ _)

theorem length_drop_page {k : Nat} (hw : w.length = (k + 1) * P) : (w.drop (k * P)).length = P := by
  rw [length_drop, hw, succ_mul]
  omega

theorem priors_of_input (okv : WordOk bigram v) (okw : WordOk bigram w) {k l : Nat}
    {p q : List UInt8} (hv : v.length = (k + 1) * P) (hw : w.length = (l + 1) * P)
    (input : p ++ pageText (v.drop (k * P)) = q ++ pageText (w.drop (l * P))) :
    p.length = q.length := by
  have long := congrArg length input
  rw [length_append, length_append, length_pageText (okv.of_sub (drop_subset _ _)),
    length_pageText (okw.of_sub (drop_subset _ _)), length_drop_page hv,
    length_drop_page hw] at long
  omega

theorem grams_of_blockHash (pos : 0 < P) (wide : ∀ b, (sha256 b).length = 32)
    (okv : WordOk bigram v) (okw : WordOk bigram w)
    (pagedv : P ∣ v.length) (pagedw : P ∣ w.length) (nev : v ≠ []) (new : w ≠ [])
    (free : ∀ v' w', v' <+: v → w' <+: w → v' ≠ [] → w' ≠ [] → P ∣ v'.length → P ∣ w'.length →
      blockHash sha256 P v' = blockHash sha256 P w' →
      blockInput sha256 P v' = blockInput sha256 P w')
    (same : blockHash sha256 P v = blockHash sha256 P w) : grams v = grams w := by
  obtain ⟨n, hv⟩ := pages_of_ne_nil pagedv nev
  obtain ⟨m, hw⟩ := pages_of_ne_nil pagedw new
  induction n generalizing v w m with
  | zero =>
    have input := free v w prefix_rfl prefix_rfl nev new pagedv pagedw same
    rw [blockInput_of_length pos hv, blockInput_of_length pos hw] at input
    cases m with
    | zero =>
      simp only [Nat.zero_mul, drop_zero, nil_append] at input
      exact grams_of_pageText okv okw (hv.trans hw.symm) input
    | succ m =>
      -- A first page has fewer bytes than a later one.
      exact absurd (priors_of_input okv okw hv hw input) (by simp [wide])
  | succ n ih =>
    have input := free v w prefix_rfl prefix_rfl nev new pagedv pagedw same
    rw [blockInput_of_length pos hv, blockInput_of_length pos hw] at input
    cases m with
    | zero =>
      exact absurd (priors_of_input okv okw hv hw input) (by simp [wide])
    | succ m =>
      obtain ⟨prior, page⟩ := append_inj input ((wide _).trans (wide _).symm)
      have last := grams_of_pageText (okv.of_sub (drop_subset _ _))
        (okw.of_sub (drop_subset _ _)) ((length_drop_page hv).trans (length_drop_page hw).symm) page
      have shortv := length_take_page (m := n) hv
      have shortw := length_take_page (m := m) hw
      have somev : v.take ((n + 1) * P) ≠ [] := ne_nil_of_pages pos shortv
      have somew : w.take ((m + 1) * P) ≠ [] := ne_nil_of_pages pos shortw
      have front := ih (okv.of_sub (take_subset _ _)) (okw.of_sub (take_subset _ _))
        (Dvd.intro_left _ shortv.symm) (Dvd.intro_left _ shortw.symm) somev somew
        (fun v' w' hv' hw' => free v' w' (hv'.trans (List.take_prefix _ _))
          (hw'.trans (List.take_prefix _ _)))
        (congrArg hashStrToInt64 prior) shortv m shortw
      rw [← take_append_drop ((n + 1) * P) v, ← take_append_drop ((m + 1) * P) w]
      unfold grams at front last ⊢
      rw [map_append, map_append, front, last]

end Words

end RedKnot
