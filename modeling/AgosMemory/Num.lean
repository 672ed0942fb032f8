import Mathlib.Data.Rat.Floor
import Mathlib.Tactic.Common

/-!
# Numbers

The model is generic in the `f64` type. No arithmetic law is assumed: the operations are parameters,
and the one law is about text, that a printed number contains no quotation mark. Integers are
unbounded, and a computation of the code that can leave the range of an `i64` wraps explicitly.
-/

namespace AgosMemory

/-- The operations on `f64` that the code uses. Comparisons are the IEEE ones, false on NaN. -/
class F64 (F : Type) where
  ofRat : ℚ → F
  add : F → F → F
  sub : F → F → F
  mul : F → F → F
  div : F → F → F
  powf : F → F → F
  lt : F → F → Bool
  le : F → F → Bool
  /-- `x.round() as u64`, which saturates and sends NaN to `0`. -/
  roundToU64 : F → Nat
  /-- `x.ceil() as u64` -/
  ceilToU64 : F → Nat
  /-- `{:.n}`. -/
  fixed : Nat → F → String
  /-- `{}`. -/
  display : F → String
  fixed_plain : ∀ n x, '"' ∉ (fixed n x).toList

namespace F64

variable {F : Type} [F64 F]

def partialCmp (a b : F) : Option Ordering :=
  if lt a b then some .lt
  else if lt b a then some .gt
  else if le a b then some .eq
  else none

/-- `f64::max`, which prefers the argument that is not NaN. -/
def max (a b : F) : F :=
  if lt a b then b else if le a a then a else b

def clamp (lo hi x : F) : F :=
  if lt x lo then lo else if lt hi x then hi else x

end F64

/-! ## Exact rationals -/

namespace RatF64

/-- Decimal digits of `x` with `n` places, half rounded up. -/
def fixedChars (n : Nat) (x : ℚ) : List Char :=
  let scaled := (|x| * 10 ^ n + 1 / 2).floor.toNat
  let part := Nat.toDigits 10 (scaled % 10 ^ n)
  let body := Nat.toDigits 10 (scaled / 10 ^ n) ++
    if n = 0 then [] else '.' :: (List.replicate (n - part.length) '0' ++ part)
  if x < 0 then '-' :: body else body

private theorem fixedChars_plain (n : Nat) (x : ℚ) : '"' ∉ fixedChars n x := by
  have hdigits : ∀ m, '"' ∉ Nat.toDigits 10 m := fun m hm =>
    absurd (Nat.isDigit_of_mem_toDigits (by decide) (by decide) hm) (by decide)
  have hbody : '"' ∉ Nat.toDigits 10 ((|x| * 10 ^ n + 1 / 2).floor.toNat / 10 ^ n) ++
      if n = 0 then [] else '.' :: (List.replicate (n - (Nat.toDigits 10
        ((|x| * 10 ^ n + 1 / 2).floor.toNat % 10 ^ n)).length) '0' ++
        Nat.toDigits 10 ((|x| * 10 ^ n + 1 / 2).floor.toNat % 10 ^ n)) := by
    rw [List.mem_append, not_or]
    refine ⟨hdigits _, ?_⟩
    split
    · exact List.not_mem_nil
    · simp only [List.mem_cons, List.mem_append, List.mem_replicate, not_or]
      exact ⟨by decide, by simp, hdigits _⟩
  unfold fixedChars
  simp only
  split
  · rw [List.mem_cons, not_or]
    exact ⟨by decide, hbody⟩
  · exact hbody

/-- The shortest expansion with at most six places. -/
def displayChars (x : ℚ) : List Char :=
  fixedChars (((List.range 6).find? fun n => (x * 10 ^ n).den = 1).getD 6) x

/-- Exact arithmetic. A power is taken at the floor of its exponent. -/
instance : F64 ℚ where
  ofRat x := x
  add := (· + ·)
  sub := (· - ·)
  mul := (· * ·)
  div := (· / ·)
  powf x e := x ^ e.floor
  lt x y := decide (x < y)
  le x y := decide (x ≤ y)
  roundToU64 x := min (x + 1 / 2).floor.toNat (2 ^ 64 - 1)
  ceilToU64 x := min x.ceil.toNat (2 ^ 64 - 1)
  fixed n x := String.ofList (fixedChars n x)
  display x := String.ofList (displayChars x)
  fixed_plain n x := by rw [String.toList_ofList]; exact fixedChars_plain n x

end RatF64

/-! ## 64-bit integers -/

/-- Arithmetic on `i64` wraps. -/
def wrapI64 (x : Int) : Int := x.bmod 18446744073709551616

/-- The values of an `i64`. -/
def InI64 (x : Int) : Prop := -9223372036854775808 ≤ x ∧ x < 9223372036854775808

instance (x : Int) : Decidable (InI64 x) := inferInstanceAs (Decidable (_ ∧ _))

/-- A result is kept exactly when it is in range. -/
theorem wrapI64_eq_iff {x : Int} : wrapI64 x = x ↔ InI64 x := by
  unfold wrapI64 InI64
  rw [Int.bmod_eq_iff (by decide)]
  constructor
  · rintro ⟨hlo, hhi, _⟩
    omega
  · intro h
    omega

/-- The largest of the numbers from one to `n`. -/
theorem max?_range (n : Nat) :
    (((List.range n).map fun i : Nat => (i : Int) + 1).max?).getD 0 = n := by
  cases n with
  | zero => rfl
  | succ n =>
    have hmax : ((List.range (n + 1)).map fun i : Nat => (i : Int) + 1).max? = some ((n : Int) + 1) := by
      rw [List.max?_eq_some_iff]
      refine ⟨List.mem_map.mpr ⟨n, List.mem_range.mpr (by omega), rfl⟩, fun b hb => ?_⟩
      obtain ⟨i, hi, rfl⟩ := List.mem_map.mp hb
      have := List.mem_range.mp hi
      omega
    rw [hmax]
    simp

end AgosMemory
