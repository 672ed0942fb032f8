import AgosMemory.Exact
import AgosMemory.Recall.Rerank
import Mathlib.Algebra.Order.Field.Power
import Mathlib.Analysis.SpecialFunctions.Pow.Real

/-!
# The decay of a row

The age of a row is a difference of two `i64`. While it is in range the decay is the power of one half
that the formula says; a difference out of range wraps, and then the oldest of rows counts as new.
-/

namespace AgosMemory.Recall

/-! ## The range of an age -/

/-- The instant that the age of a row is measured from. -/
def CanonicalRow.base {F : Type} (row : CanonicalRow F) : Int :=
  row.lastReferencedAt.getD row.createdAt

/-- An instant whose distance from every current time between `lo` and `hi` is an `i64`. -/
structure Dated (lo hi t : Int) : Prop where
  recent : hi - 9223372036854775808 < t
  near : t ≤ lo + 9223372036854775808

theorem dated_iff {lo hi t : Int} (h : lo ≤ hi) :
    Dated lo hi t ↔ ∀ now, lo ≤ now → now ≤ hi → InI64 (now - t) := by
  constructor
  · rintro ⟨hrecent, hnear⟩ now hlo hhi
    exact ⟨by omega, by omega⟩
  · intro hfits
    obtain ⟨_, hrecent⟩ := hfits hi h (le_refl hi)
    obtain ⟨hnear, _⟩ := hfits lo (le_refl lo) h
    exact ⟨by omega, by omega⟩

/-- The current times themselves are such instants, if they span less than the range of an `i64`. -/
theorem dated_self {lo hi t : Int} (h : hi - lo < 9223372036854775808) (hlo : lo ≤ t) (hhi : t ≤ hi) :
    Dated lo hi t := ⟨by omega, by omega⟩

/-! ## Powers of one half -/

/-- What the decay needs of the powers of one half. -/
class HalfPower (F : Type) [Field F] [LinearOrder F] [F64 F] : Prop where
  pos : ∀ x : F, 0 ≤ x → 0 < F64.powf (F64.ofRat (1 / 2)) x
  zero : F64.powf (F64.ofRat (1 / 2)) (0 : F) = 1
  anti : ∀ x y : F, 0 ≤ x → x ≤ y →
    F64.powf (F64.ofRat (1 / 2)) y ≤ F64.powf (F64.ofRat (1 / 2)) x

/-- The powers of the real numbers are such. -/
theorem halfPower_rpow [F64 ℝ] [Exact ℝ] (hpow : ∀ x y : ℝ, F64.powf x y = x ^ y) : HalfPower ℝ := by
  have hhalf : (F64.ofRat (1 / 2) : ℝ) = 1 / 2 := by
    rw [Exact.ofRat]
    norm_num
  constructor
  · intro x _
    rw [hpow, hhalf]
    exact Real.rpow_pos_of_pos (by norm_num) x
  · rw [hpow, hhalf, Real.rpow_zero]
  · intro x y _ hxy
    rw [hpow, hpow, hhalf]
    exact Real.rpow_le_rpow_of_exponent_ge (by norm_num) (by norm_num) hxy

instance : HalfPower ℚ where
  pos x _ := zpow_pos (by norm_num : (0 : ℚ) < 1 / 2) x.floor
  zero := by
    show (1 / 2 : ℚ) ^ ⌊(0 : ℚ)⌋ = 1
    rw [Int.floor_zero, zpow_zero]
  anti x y _ hxy := by
    show (1 / 2 : ℚ) ^ ⌊y⌋ ≤ (1 / 2 : ℚ) ^ ⌊x⌋
    exact zpow_le_zpow_right_of_le_one₀ (by norm_num) (by norm_num) (Int.floor_le_floor hxy)

/-! ## The formula -/

section

variable {F : Type} [Field F] [LinearOrder F] [IsStrictOrderedRing F] [F64 F] [Exact F]
  {tier : Tier} {hl : RecallHalfLives F} {row : CanonicalRow F}

/-- The decay at an age in milliseconds. -/
def decayAt (tier : Tier) (hl : RecallHalfLives F) (age : Int) : F :=
  if halfLifeMinutes tier hl ≤ 0 then 1
  else F64.powf (F64.ofRat (1 / 2)) (max ((age : F) / 60000) 0 / halfLifeMinutes tier hl)

/-- The code computes the decay at the wrapped difference. -/
theorem decay_eq (now : Int) :
    decay tier hl row now = decayAt tier hl (wrapI64 (now - row.base)) := by
  unfold decay decayAt
  simp only [Exact.le, Exact.div, F64.max_exact, Exact.ofRat, decide_eq_true_eq]
  norm_num
  rfl

/-- A difference in range is the age. -/
theorem decay_exact {now : Int} (h : InI64 (now - row.base)) :
    decay tier hl row now = decayAt tier hl (now - row.base) := by
  rw [decay_eq, wrapI64_eq_iff.mpr h]

omit [Exact F] in
private theorem exponent_nonneg (hhl : 0 < halfLifeMinutes tier hl) (age : Int) :
    0 ≤ max ((age : F) / 60000) 0 / halfLifeMinutes tier hl :=
  div_nonneg (le_max_right _ _) hhl.le

variable [HalfPower F]

omit [Exact F] in
theorem decayAt_pos (age : Int) : 0 < decayAt tier hl age := by
  unfold decayAt
  split
  · exact one_pos
  · next hhl => exact HalfPower.pos _ (exponent_nonneg (not_le.mp hhl) age)

omit [Exact F] in
theorem decayAt_le_one (age : Int) : decayAt tier hl age ≤ 1 := by
  unfold decayAt
  split
  · exact le_refl 1
  · next hhl =>
    rw [← HalfPower.zero (F := F)]
    exact HalfPower.anti _ _ (le_refl 0) (exponent_nonneg (not_le.mp hhl) age)

omit [Exact F] in
theorem decayAt_anti {age age' : Int} (h : age ≤ age') : decayAt tier hl age' ≤ decayAt tier hl age := by
  unfold decayAt
  split
  · exact le_refl 1
  · next hhl =>
    have hhl := not_le.mp hhl
    refine HalfPower.anti _ _ (exponent_nonneg hhl age) ?_
    have hcast : (age : F) ≤ (age' : F) := Int.cast_le.mpr h
    gcongr

end

end AgosMemory.Recall
