import Mathlib.Algebra.Order.Field.Rat

/-!
# Exact numbers with the special values

Rational numbers with the two infinities and NaN, and the operations that IEEE 754 gives on them: exact
where the result is a number, and otherwise one of the special values. There is one zero. NaN is the
result of every operation on it and compares with nothing.
-/

namespace Library

inductive Extended where
  | nan
  | inf (negative : Bool)
  | fin (q : ℚ)
  deriving DecidableEq

namespace Extended

def neg : Extended → Extended
  | nan => nan
  | inf s => inf !s
  | fin a => fin (-a)

def add : Extended → Extended → Extended
  | fin a, fin b => fin (a + b)
  | inf s, inf t => if s = t then inf s else nan
  | inf s, fin _ => inf s
  | fin _, inf s => inf s
  | nan, _ | _, nan => nan

def sub (x y : Extended) : Extended := add x (neg y)

/-- An infinity times a number, which is not defined for zero. -/
def scale (s : Bool) (a : ℚ) : Extended := if a = 0 then nan else inf (s != decide (a < 0))

def mul : Extended → Extended → Extended
  | fin a, fin b => fin (a * b)
  | inf s, inf t => inf (s != t)
  | inf s, fin a | fin a, inf s => scale s a
  | nan, _ | _, nan => nan

def div : Extended → Extended → Extended
  | fin a, fin b => if b = 0 then scale false a else fin (a / b)
  | inf s, fin b => inf (s != decide (b < 0))
  | fin _, inf _ => fin 0
  | inf _, inf _ => nan
  | nan, _ | _, nan => nan

def lt : Extended → Extended → Bool
  | fin a, fin b => decide (a < b)
  | inf s, inf t => s && !t
  | inf s, fin _ => s
  | fin _, inf s => !s
  | nan, _ | _, nan => false

def le : Extended → Extended → Bool
  | fin a, fin b => decide (a ≤ b)
  | inf s, inf t => s || !t
  | inf s, fin _ => s
  | fin _, inf s => !s
  | nan, _ | _, nan => false

theorem div_fin (a : ℚ) {b : ℚ} (hb : b ≠ 0) : div (fin a) (fin b) = fin (a / b) := if_neg hb

end Extended

end Library
