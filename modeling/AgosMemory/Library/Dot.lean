import Mathlib.Algebra.Order.Ring.Defs
import Mathlib.Algebra.Order.BigOperators.Group.List
import Mathlib.Tactic.Linarith
import Mathlib.Tactic.Ring

/-!
# Dot products of lists

Vectors as lists over an ordered field. For unit vectors of one length the product is in `[-1, 1]`.
-/

namespace Library

variable {F : Type} [Field F]

def dot (a b : List F) : F := (List.zipWith (· * ·) a b).sum

theorem dot_cons (x y : F) (a b : List F) : dot (x :: a) (y :: b) = x * y + dot a b := by
  rw [dot, List.zipWith_cons_cons, List.sum_cons, dot]

theorem dot_comm (a b : List F) : dot a b = dot b a := by
  rw [dot, dot, List.zipWith_comm]
  exact congrArg List.sum (congrArg (fun f => List.zipWith f b a)
    (funext fun x => funext fun y => mul_comm y x))

variable [LinearOrder F] [IsStrictOrderedRing F]

/-- The squares of the differences and of the sums add up to something that is not negative. -/
theorem two_dot_bounds {a b : List F} (h : a.length = b.length) :
    2 * dot a b ≤ dot a a + dot b b ∧ -(2 * dot a b) ≤ dot a a + dot b b := by
  induction a generalizing b with
  | nil =>
    obtain rfl := List.length_eq_zero_iff.mp h.symm
    simp [dot]
  | cons x a ih =>
    cases b with
    | nil => cases h
    | cons y b =>
      obtain ⟨hle, hge⟩ := ih (Nat.succ.inj h)
      simp only [dot_cons]
      constructor
      · have hsq := sq_nonneg (x - y)
        nlinarith only [hsq, hle]
      · have hsq := sq_nonneg (x + y)
        nlinarith only [hsq, hge]

theorem dot_le_one {a b : List F} (h : a.length = b.length) (ha : dot a a = 1) (hb : dot b b = 1) :
    dot a b ≤ 1 := by
  have hle := (two_dot_bounds h).1
  linarith only [hle, ha, hb]

theorem neg_one_le_dot {a b : List F} (h : a.length = b.length) (ha : dot a a = 1)
    (hb : dot b b = 1) : -1 ≤ dot a b := by
  have hge := (two_dot_bounds h).2
  linarith only [hge, ha, hb]

end Library
