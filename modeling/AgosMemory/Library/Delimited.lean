import Mathlib.Data.List.Infix

/-!
# Fields that end at a delimiter

A reader that takes everything up to the first occurrence of a delimiter returns the field that was
written exactly when the field does not contain the delimiter. The delimiter must not overlap
itself; here its first symbol occurs in it once.
-/

namespace Library.Delimited

variable {α : Type} [DecidableEq α]

/-- What follows a literal. -/
def expect (lit s : List α) : Option (List α) :=
  if lit.isPrefixOf s then some (s.drop lit.length) else none

@[simp] theorem expect_append (lit s : List α) : expect lit (lit ++ s) = some s := by
  unfold expect
  rw [if_pos (List.isPrefixOf_iff_prefix.mpr (List.prefix_append _ _)), List.drop_left]

/-- Split at the first occurrence of `stop`. -/
def upTo (stop : List α) : List α → Option (List α × List α)
  | [] => if stop = [] then some ([], []) else none
  | a :: as =>
    if stop.isPrefixOf (a :: as) then some ([], (a :: as).drop stop.length)
    else (upTo stop as).map fun p => (a :: p.1, p.2)

theorem upTo_eq {stop s x rest : List α} (h : upTo stop s = some (x, rest)) :
    s = x ++ stop ++ rest := by
  induction s generalizing x with
  | nil =>
    unfold upTo at h
    split at h
    · next hstop =>
      obtain ⟨rfl, rfl⟩ := Prod.mk.inj (Option.some.inj h)
      rw [hstop, List.append_nil, List.append_nil]
    · cases h
  | cons a as ih =>
    unfold upTo at h
    split at h
    · next hprefix =>
      obtain ⟨rfl, rfl⟩ := Prod.mk.inj (Option.some.inj h)
      obtain ⟨t, ht⟩ := List.isPrefixOf_iff_prefix.mp hprefix
      rw [← ht, List.drop_left, List.nil_append]
    · obtain ⟨⟨y, r⟩, hy, hyx⟩ := Option.map_eq_some_iff.mp h
      obtain ⟨rfl, rfl⟩ := Prod.mk.inj hyx
      rw [ih hy]
      rfl

section

variable {c : α} {cs : List α}

omit [DecidableEq α] in
/-- A delimiter that starts in a field and would end after it cannot occur. -/
theorem prefix_of_prefix_append (hc : c ∉ cs) {x : List α} (hx : x ≠ []) {rest : List α}
    (h : (c :: cs) <+: x ++ ((c :: cs) ++ rest)) : (c :: cs) <+: x := by
  rcases List.prefix_or_prefix_of_prefix h (List.prefix_append x _) with hpre | ⟨d, hd⟩
  · exact hpre
  · rw [← hd, List.prefix_append_right_inj, hd] at h
    cases d with
    | nil =>
      rw [List.append_nil] at hd
      rw [hd]
    | cons e d =>
      obtain ⟨rfl, _⟩ := List.cons_prefix_cons.mp h
      cases x with
      | nil => exact absurd rfl hx
      | cons a x =>
        obtain ⟨_, htail⟩ := List.cons.inj hd
        exact absurd (htail ▸ List.mem_append_right _ List.mem_cons_self) hc

/-- The field comes back exactly when it does not contain the delimiter. -/
theorem upTo_append_iff (hc : c ∉ cs) (x rest : List α) :
    upTo (c :: cs) (x ++ ((c :: cs) ++ rest)) = some (x, rest) ↔ ¬ (c :: cs) <:+: x := by
  induction x with
  | nil =>
    have hhere : (c :: cs).isPrefixOf (c :: (cs ++ rest)) = true :=
      List.isPrefixOf_iff_prefix.mpr (List.prefix_append (c :: cs) rest)
    have hread : upTo (c :: cs) ([] ++ ((c :: cs) ++ rest)) = some ([], rest) := by
      rw [List.nil_append, List.cons_append, upTo, if_pos hhere, ← List.cons_append,
        List.drop_left]
    exact iff_of_true hread (by simp)
  | cons a x ih =>
    rw [List.infix_cons_iff, not_or, ← ih, List.cons_append, upTo]
    by_cases hpre : (c :: cs) <+: a :: (x ++ ((c :: cs) ++ rest))
    · have hx := prefix_of_prefix_append hc (List.cons_ne_nil a x) hpre
      rw [if_pos (List.isPrefixOf_iff_prefix.mpr hpre)]
      exact iff_of_false (by simp) fun h => h.1 hx
    · have hx : ¬ (c :: cs) <+: a :: x := fun h => hpre (h.trans (List.prefix_append (a :: x) _))
      rw [if_neg (by simpa only [List.isPrefixOf_iff_prefix] using hpre)]
      simp only [Option.map_eq_some_iff, Prod.mk.injEq, List.cons.injEq, true_and, Prod.exists]
      constructor
      · rintro ⟨y, r, hread, rfl, rfl⟩
        exact ⟨hx, hread⟩
      · rintro ⟨_, hread⟩
        exact ⟨x, rest, hread, rfl, rfl⟩

/-- What the reader returns never contains the delimiter. -/
theorem not_infix_of_upTo (hc : c ∉ cs) {s x rest : List α}
    (h : upTo (c :: cs) s = some (x, rest)) : ¬ (c :: cs) <:+: x := by
  rw [upTo_eq h, List.append_assoc] at h
  exact (upTo_append_iff hc x rest).mp h

end

end Library.Delimited
