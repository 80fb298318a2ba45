import Mathlib

/-! Repositioning of rotated keys: `RoPEHelper` (`redknot/rope_helper.py`) and `_reposition_rope_k`
(`redknot/driver_qwen35.py`), in exact arithmetic. The model's `rotary_emb` is a parameter. -/

namespace RedKnot.Rope

variable {R β η : Type} [CommRing R] {T m : Nat}

/-- The last dimension `D = 2 * m`, its two halves apart. -/
abbrev Halves (R : Type) (m : Nat) := (Fin m → R) × (Fin m → R)

/-- `[B, H, T, D]` -/
abbrev Keys (R β η : Type) (T m : Nat) := β → η → Fin T → Halves R m

/-- `[B, T]`. A tensor `[T]` is the same for every entry of the batch. -/
abbrev Positions (β : Type) (T : Nat) := β → Fin T → Int

/-- `cos` and `sin` of the angle `position * inv_freq`. -/
structure RotaryEmb (R : Type) (m : Nat) where
  cos : Int → Fin m → R
  sin : Int → Fin m → R

structure RotaryEmb.Rotates (rope : RotaryEmb R m) : Prop where
  unit : ∀ p j, rope.cos p j * rope.cos p j + rope.sin p j * rope.sin p j = 1
  cos_add : ∀ p q j, rope.cos (p + q) j = rope.cos p j * rope.cos q j - rope.sin p j * rope.sin q j
  sin_add : ∀ p q j, rope.sin (p + q) j = rope.sin p j * rope.cos q j + rope.cos p j * rope.sin q j

def rotateHalf (x : Halves R m) : Halves R m := (fun j => -x.2 j, x.1)

/-- `k * cos + rotate_half(k) * sin`, with the frequencies once for each half. -/
def applyRow (x : Halves R m) (cos sin : Fin m → R) : Halves R m :=
  (fun j => x.1 j * cos j + (rotateHalf x).1 j * sin j,
    fun j => x.2 j * cos j + (rotateHalf x).2 j * sin j)

theorem applyRow_cancel (x : Halves R m) (cos sin : Fin m → R)
    (unit : ∀ j, cos j * cos j + sin j * sin j = 1) :
    applyRow (applyRow x cos sin) cos (fun j => -sin j) = x := by
  refine Prod.ext (funext fun j => ?_) (funext fun j => ?_)
  · simp only [applyRow, rotateHalf]
    linear_combination x.1 j * unit j
  · simp only [applyRow, rotateHalf]
    linear_combination x.2 j * unit j

namespace RotaryEmb

variable (rope : RotaryEmb R m)

def apply (k : Keys R β η T m) (pos : Positions β T) : Keys R β η T m := fun b h t =>
  applyRow (k b h t) (rope.cos (pos b t)) (rope.sin (pos b t))

def unapply (k : Keys R β η T m) (pos : Positions β T) : Keys R β η T m := fun b h t =>
  applyRow (k b h t) (rope.cos (pos b t)) fun j => -rope.sin (pos b t) j

def reposition (k : Keys R β η T m) (src dst : Positions β T) : Keys R β η T m :=
  rope.apply (rope.unapply k src) dst

/-- With the default `length`, the number of tokens of `k`. -/
def repositionOffset (k : Keys R β η T m) (srcStart dstStart : Int) : Keys R β η T m :=
  rope.reposition k (fun _ t => srcStart + t.val) fun _ t => dstStart + t.val

/-- `_reposition_rope_k`. `apply_rotary_pos_emb` rotates the first `2 * m` dimensions and hands on
the others, `pass`. -/
def repositionRopeK {π : Type} (k : Keys R β η T m) (pass : π) (delta : Int) : Keys R β η T m × π :=
  if delta = 0 then (k, pass) else (rope.apply k fun _ _ => delta, pass)

variable {rope} (rotates : rope.Rotates)

include rotates

section

variable (k : Keys R β η T m)
include k

theorem unapply_apply (pos : Positions β T) : rope.unapply (rope.apply k pos) pos = k := by
  funext b h t
  exact applyRow_cancel _ _ _ (rotates.unit _)

theorem reposition_self (pos : Positions β T) : rope.reposition k pos pos = k := by
  funext b h t
  have back := applyRow_cancel (k b h t) (rope.cos (pos b t)) (fun j => -rope.sin (pos b t) j)
  simp only [neg_mul_neg, neg_neg] at back
  exact back (rotates.unit _)

theorem reposition_eq {src dst : Positions β T} {delta : Int}
    (apart : ∀ b t, dst b t = src b t + delta) :
    rope.reposition k src dst = rope.apply k fun _ _ => delta := by
  funext b h t
  have unit := rotates.unit (src b t)
  refine Prod.ext (funext fun j => ?_) (funext fun j => ?_)
  · simp only [reposition, unapply, apply, applyRow, rotateHalf, apart, rotates.cos_add,
      rotates.sin_add]
    linear_combination ((k b h t).1 j * rope.cos delta j - (k b h t).2 j * rope.sin delta j) *
      unit j
  · simp only [reposition, unapply, apply, applyRow, rotateHalf, apart, rotates.cos_add,
      rotates.sin_add]
    linear_combination ((k b h t).2 j * rope.cos delta j + (k b h t).1 j * rope.sin delta j) *
      unit j

theorem repositionRopeK_eq {π : Type} (pass : π) {src dst : Positions β T}
    {delta : Int} (apart : ∀ b t, dst b t = src b t + delta) :
    rope.repositionRopeK k pass delta = (rope.reposition k src dst, pass) := by
  unfold repositionRopeK
  split
  · next none =>
    obtain rfl : dst = src := funext fun b => funext fun t => by rw [apart, none, add_zero]
    rw [reposition_self rotates]
  · rw [reposition_eq rotates k apart]

/-- Repositioning acts on rotated keys, and the three functions agree. -/
theorem reposition_acts (a b c : Positions β T) :
    rope.reposition (rope.apply k a) a b = rope.apply k b ∧
    rope.reposition (rope.reposition k a b) b c = rope.reposition k a c ∧
    (∀ (π : Type) (pass : π) (delta : Int), (∀ i t, b i t - a i t = delta) →
      rope.repositionRopeK k pass delta = (rope.reposition k a b, pass)) ∧
    ∀ (π : Type) (pass : π) (src dst : Int),
      rope.repositionRopeK k pass (dst - src) = (rope.repositionOffset k src dst, pass) := by
  refine ⟨?_, ?_, fun π pass delta apart => ?_, fun π pass src dst => ?_⟩
  · rw [reposition, unapply_apply rotates]
  · rw [reposition, reposition, unapply_apply rotates, ← reposition]
  · exact repositionRopeK_eq rotates k pass fun i t => by
      rw [← apart i t]
      omega
  · exact repositionRopeK_eq rotates k pass fun _ _ => by omega

end

end RotaryEmb

noncomputable def circle : RotaryEmb ℝ 1 := ⟨fun p _ => Real.cos p, fun p _ => Real.sin p⟩

theorem circle_moves_two_tokens : ∃ k : Keys ℝ Unit Unit 2 1,
    circle.reposition (circle.apply k fun _ t => t.val) (fun _ t => t.val) (fun _ t => t.val + 7) =
      circle.apply k fun _ t => t.val + 7 := by
  have rotates : circle.Rotates := by
    refine ⟨fun p _ => ?_, fun p q _ => ?_, fun p q _ => ?_⟩
    · rw [← sq, ← sq]
      exact Real.cos_sq_add_sin_sq p
    · exact (congrArg Real.cos (Int.cast_add p q)).trans (Real.cos_add p q)
    · exact (congrArg Real.sin (Int.cast_add p q)).trans (Real.sin_add p q)
  exact ⟨fun _ _ _ => (1, 0), (RotaryEmb.reposition_acts rotates _ _ _ fun _ _ => 0).1⟩

end RedKnot.Rope
