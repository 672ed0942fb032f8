import AgosMemory.Num

/-!
# Laws of the number type

Where an order matters, the comparisons are those of IEEE. Some results are about the formulas and not
about rounding; they take the number type to be an ordered field that computes with itself, and the
power function stays arbitrary.
-/

namespace AgosMemory

/-! ## Comparisons -/

/-- The IEEE order: total and transitive on what is not NaN, and false on NaN. -/
class F64.Ordered (F : Type) [F64 F] : Prop where
  le_trans : ∀ a b c : F, F64.le a b = true → F64.le b c = true → F64.le a c = true
  le_total : ∀ a b : F, F64.le a a = true → F64.le b b = true →
    F64.le a b = true ∨ F64.le b a = true
  lt_iff : ∀ a b : F, F64.lt a b = true ↔ F64.le a b = true ∧ F64.le b a = false
  not_nan : ∀ a b : F, F64.le a b = true → F64.le a a = true ∧ F64.le b b = true

instance : F64.Ordered ℚ where
  le_trans _ _ _ hab hbc := decide_eq_true ((of_decide_eq_true hab).trans (of_decide_eq_true hbc))
  le_total a b _ _ := (le_total a b).imp decide_eq_true decide_eq_true
  lt_iff a b := by
    show decide (a < b) = true ↔ decide (a ≤ b) = true ∧ decide (b ≤ a) = false
    rw [decide_eq_true_eq, decide_eq_true_eq, decide_eq_false_iff_not, not_le]
    exact ⟨fun h => ⟨h.le, h⟩, And.right⟩
  not_nan a b _ := ⟨decide_eq_true le_rfl, decide_eq_true le_rfl⟩

namespace F64

variable {F : Type} [F64 F] [Ordered F]

theorem lt_asymm {a b : F} (h : lt a b = true) : lt b a = false := by
  rw [Bool.eq_false_iff]
  intro hba
  have hle := ((Ordered.lt_iff a b).mp h).2
  rw [((Ordered.lt_iff b a).mp hba).1] at hle
  cases hle

theorem lt_irrefl (a : F) : lt a a = false := by
  rw [Bool.eq_false_iff]
  intro h
  rw [lt_asymm h] at h
  cases h

end F64

/-! ## Exact arithmetic -/

/-- The operations are those of an ordered field. -/
class Exact (F : Type) [Field F] [LinearOrder F] [IsStrictOrderedRing F] [F64 F] : Prop where
  ofRat : ∀ q : ℚ, (F64.ofRat q : F) = q
  add : ∀ a b : F, F64.add a b = a + b
  sub : ∀ a b : F, F64.sub a b = a - b
  mul : ∀ a b : F, F64.mul a b = a * b
  div : ∀ a b : F, F64.div a b = a / b
  lt : ∀ a b : F, F64.lt a b = decide (a < b)
  le : ∀ a b : F, F64.le a b = decide (a ≤ b)

instance : Exact ℚ where
  ofRat _ := rfl
  add _ _ := rfl
  sub _ _ := rfl
  mul _ _ := rfl
  div _ _ := rfl
  lt _ _ := rfl
  le _ _ := rfl

namespace F64

variable {F : Type} [Field F] [LinearOrder F] [IsStrictOrderedRing F] [F64 F] [Exact F]

theorem ordered_of_exact : Ordered F where
  le_trans a b c hab hbc := by
    rw [Exact.le, decide_eq_true_eq] at hab hbc ⊢
    exact hab.trans hbc
  le_total a b _ _ := by
    rw [Exact.le, Exact.le, decide_eq_true_eq, decide_eq_true_eq]
    exact le_total a b
  lt_iff a b := by
    rw [Exact.lt, Exact.le, Exact.le, decide_eq_true_eq, decide_eq_true_eq, decide_eq_false_iff_not,
      not_le]
    exact ⟨fun h => ⟨h.le, h⟩, And.right⟩
  not_nan a b _ := by
    rw [Exact.le, Exact.le, decide_eq_true_eq, decide_eq_true_eq]
    exact ⟨le_rfl, le_rfl⟩

/-- No exact number is NaN. -/
theorem le_self_exact (a : F) : le a a = true := by
  rw [Exact.le, decide_eq_true_eq]

theorem partialCmp_exact (a b : F) : partialCmp a b = some (compare a b) := by
  unfold partialCmp
  simp only [Exact.lt, Exact.le, decide_eq_true_eq]
  rcases lt_trichotomy a b with hlt | heq | hgt
  · rw [if_pos hlt, compare_lt_iff_lt.mpr hlt]
  · rw [if_neg heq.not_lt, if_neg heq.not_gt, if_pos heq.le, compare_eq_iff_eq.mpr heq]
  · rw [if_neg hgt.not_gt, if_pos hgt, compare_gt_iff_gt.mpr hgt]

theorem clamp_exact (lo hi x : F) (hlo : lo ≤ x) (hhi : x ≤ hi) : clamp lo hi x = x := by
  unfold clamp
  simp only [Exact.lt, decide_eq_true_eq]
  rw [if_neg hlo.not_gt, if_neg hhi.not_gt]

theorem max_exact (a b : F) : max a b = Max.max a b := by
  unfold max
  simp only [Exact.lt, Exact.le, decide_eq_true_eq, le_refl, if_true]
  rcases lt_or_ge a b with h | h
  · rw [if_pos h, max_eq_right h.le]
  · rw [if_neg h.not_gt, max_eq_left h]

end F64

end AgosMemory
