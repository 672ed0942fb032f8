import Mathlib.Data.List.Basic

/-!
# Quoting by doubling

A quoted text stands between two marks, and a mark inside it is written twice. A reader of a
language with an end symbol gives up where that symbol stands before the closing mark, so it gets
back what was quoted exactly when the symbol does not occur in it.
-/

namespace Library.Doubled

variable {α : Type} [DecidableEq α]

/-- Every mark written twice. -/
def double (mark : α) (s : List α) : List α := s.flatMap fun a => if a = mark then [a, a] else [a]

def enclose (mark : α) (s : List α) : List α := mark :: (double mark s ++ [mark])

/-- The text behind an opening mark, and what follows the closing one. -/
def content (mark stop : α) : List α → Option (List α × List α)
  | [] => none
  | [a] => if a = mark then some ([], []) else none
  | a :: b :: s =>
    if a = mark then
      if b = mark then (content mark stop s).map fun p => (mark :: p.1, p.2)
      else some ([], b :: s)
    else if a = stop then none
    else (content mark stop (b :: s)).map fun p => (a :: p.1, p.2)

/-- The text of a quoted one, and what follows it. -/
def read (mark stop : α) : List α → Option (List α × List α)
  | [] => none
  | a :: s => if a = mark then content mark stop s else none

variable {mark stop : α}

@[simp] theorem double_nil : double mark [] = [] := rfl

theorem double_mark (s : List α) : double mark (mark :: s) = mark :: mark :: double mark s := by
  simp [double]

theorem double_other {a : α} (ha : a ≠ mark) (s : List α) :
    double mark (a :: s) = a :: double mark s := by
  simp [double, ha]

/-! ## One symbol of the text -/

theorem content_close {rest : List α} (hrest : rest.head? ≠ some mark) :
    content mark stop (mark :: rest) = some ([], rest) := by
  cases rest with
  | nil => simp [content]
  | cons b rest =>
    have hb : b ≠ mark := fun h => hrest (congrArg some h)
    rw [content, if_pos rfl, if_neg hb]

theorem content_mark (s : List α) : content mark stop (mark :: mark :: s) =
    (content mark stop s).map fun p => (mark :: p.1, p.2) := by
  rw [content, if_pos rfl, if_pos rfl]

theorem content_stop (hne : stop ≠ mark) (s : List α) : content mark stop (stop :: s) = none := by
  cases s with
  | nil => rw [content, if_neg hne]
  | cons b s => rw [content, if_neg hne, if_pos rfl]

theorem content_other {a : α} (hmark : a ≠ mark) (hstop : a ≠ stop) (s : List α) :
    content mark stop (a :: s) = (content mark stop s).map fun p => (a :: p.1, p.2) := by
  cases s with
  | nil => simp [content, hmark]
  | cons b s => rw [content, if_neg hmark, if_neg hstop]

/-! ## A quoted text -/

/-- Reading ends at the first end symbol of the quoted text, if there is one. -/
theorem content_double (hne : stop ≠ mark) {rest : List α} (hrest : rest.head? ≠ some mark)
    (s : List α) : content mark stop (double mark s ++ mark :: rest) =
      if stop ∈ s then none else some (s, rest) := by
  induction s with
  | nil => simpa using content_close hrest
  | cons a s ih =>
    by_cases hmark : a = mark
    · subst hmark
      rw [double_mark, List.cons_append, List.cons_append, content_mark, ih]
      have hmem : stop ∈ a :: s ↔ stop ∈ s := by simp [hne]
      simp only [hmem]
      split <;> rfl
    · rw [double_other hmark, List.cons_append]
      by_cases hstop : a = stop
      · subst hstop
        rw [content_stop hne, if_pos List.mem_cons_self]
      · rw [content_other hmark hstop, ih]
        have hmem : stop ∈ a :: s ↔ stop ∈ s := by simp [Ne.symm hstop]
        simp only [hmem]
        split <;> rfl

theorem read_enclose (hne : stop ≠ mark) {rest : List α} (hrest : rest.head? ≠ some mark)
    (s : List α) : read mark stop (enclose mark s ++ rest) =
      if stop ∈ s then none else some (s, rest) := by
  have htext : enclose mark s ++ rest = mark :: (double mark s ++ mark :: rest) := by
    simp [enclose]
  rw [htext, read, if_pos rfl, content_double hne hrest]

/-- The reader gets back what was quoted exactly when no end symbol occurs in it. -/
theorem read_enclose_iff (hne : stop ≠ mark) {rest : List α} (hrest : rest.head? ≠ some mark)
    (s : List α) : read mark stop (enclose mark s ++ rest) = some (s, rest) ↔ stop ∉ s := by
  rw [read_enclose hne hrest]
  split
  · next hmem => exact iff_of_false (fun h => by cases h) (fun h => h hmem)
  · next hmem => exact iff_of_true rfl hmem

end Library.Doubled
