import Mathlib.Data.List.Basic
import Mathlib.Order.Lattice
import Mathlib.Tactic.Common

/-!
# Keyset pagination

A table in strict key order is read in pages: the rows above a cursor, at most `size` of them. The
cursor of the next page is an arbitrary function of the page number. The loop returns the whole
table exactly when each cursor separates the rows read so far from the others.
-/

namespace Library.Keyset

variable {α κ : Type} [LinearOrder κ]

/-- The rows above a cursor. -/
def above (key : α → κ) (rows : List α) (c : κ) : List α := rows.filter fun a => c < key a

def page (key : α → κ) (size : Nat) (rows : List α) (c : κ) : List α := (above key rows c).take size

/-- Read page after page until a short one. `none` is a loop that needs more fuel. -/
def pages (key : α → κ) (size : Nat) (rows : List α) (cursor : Nat → κ) :
    Nat → Nat → κ → Option (List α)
  | 0, _, _ => none
  | fuel + 1, k, c =>
    let p := page key size rows c
    if p.isEmpty then some []
    else if p.length < size then some p
    else (pages key size rows cursor fuel (k + 1) (cursor k)).map (p ++ ·)

section

variable {key : α → κ} {size : Nat} {rows : List α} {cursor : Nat → κ}

/-- In key order the rows above a cursor are a final stretch of the table. -/
theorem above_eq_drop (hrows : rows.Pairwise fun a b => key a < key b) (c : κ) :
    ∃ j ≤ rows.length, above key rows c = rows.drop j := by
  induction rows with
  | nil => exact ⟨0, Nat.le_refl 0, rfl⟩
  | cons a rows ih =>
    obtain ⟨hfirst, htail⟩ := List.pairwise_cons.mp hrows
    by_cases ha : c < key a
    · refine ⟨0, Nat.zero_le _, ?_⟩
      rw [List.drop_zero]
      apply List.filter_eq_self.mpr
      intro b hb
      rcases List.mem_cons.mp hb with rfl | hb
      · exact decide_eq_true ha
      · exact decide_eq_true (ha.trans (hfirst b hb))
    · obtain ⟨j, hj, heq⟩ := ih htail
      refine ⟨j + 1, Nat.succ_le_succ hj, ?_⟩
      rw [List.drop_succ_cons, ← heq, above, List.filter_cons_of_neg (by simpa using ha)]
      rfl

/-- Two final stretches with the same first row are the same stretch. -/
theorem drop_eq_of_head (hrows : rows.Pairwise fun a b => key a < key b) {i j : Nat} {a : α}
    (hi : (rows.drop i).head? = some a) (hj : (rows.drop j).head? = some a) : i = j := by
  rw [List.head?_drop] at hi hj
  obtain ⟨hil, hia⟩ := List.getElem?_eq_some_iff.mp hi
  obtain ⟨hjl, hja⟩ := List.getElem?_eq_some_iff.mp hj
  rcases Nat.lt_trichotomy i j with h | h | h
  · have hlt := List.pairwise_iff_getElem.mp hrows i j hil hjl h
    rw [hia, hja] at hlt
    exact absurd hlt (lt_irrefl _)
  · exact h
  · have hlt := List.pairwise_iff_getElem.mp hrows j i hjl hil h
    rw [hia, hja] at hlt
    exact absurd hlt (lt_irrefl _)

/-- A run that returns a stretch of the table started at that stretch. -/
theorem above_of_pages (hrows : rows.Pairwise fun a b => key a < key b) (hsize : 0 < size)
    {fuel k i : Nat} {c : κ} (h : pages key size rows cursor fuel k c = some (rows.drop i)) :
    above key rows c = rows.drop i := by
  cases fuel with
  | zero => cases h
  | succ fuel =>
    obtain ⟨j, hj, heq⟩ := above_eq_drop hrows c
    simp only [pages, page, heq] at h
    rw [heq]
    cases hd : rows.drop j with
    | nil =>
      rw [hd] at h
      simpa using h
    | cons a tail =>
      obtain ⟨n, rfl⟩ := Nat.exists_eq_succ_of_ne_zero (Nat.ne_of_gt hsize)
      rw [hd, List.take_succ_cons] at h
      have hhead : (rows.drop i).head? = some a := by
        simp only [List.isEmpty_cons, Bool.false_eq_true, if_false] at h
        split at h
        · rw [← Option.some.inj h]
          rfl
        · obtain ⟨rest, _, hrest⟩ := Option.map_eq_some_iff.mp h
          rw [← hrest]
          rfl
      have hji : j = i := drop_eq_of_head hrows (by rw [hd]; rfl) hhead
      rw [← hd, hji]

theorem mem_of_pages {fuel k : Nat} {c : κ} {out : List α}
    (h : pages key size rows cursor fuel k c = some out) : ∀ a ∈ out, a ∈ rows := by
  have hpage : ∀ c, ∀ a ∈ page key size rows c, a ∈ rows := fun c a ha =>
    (List.mem_filter.mp (List.mem_of_mem_take ha)).1
  induction fuel generalizing k c out with
  | zero => cases h
  | succ fuel ih =>
    simp only [pages] at h
    split at h
    · cases h
      intro a ha
      cases ha
    · split at h
      · cases h
        exact hpage c
      · obtain ⟨rest, hrest, rfl⟩ := Option.map_eq_some_iff.mp h
        intro a ha
        rcases List.mem_append.mp ha with ha | ha
        · exact hpage c a ha
        · exact ih hrest a ha

/-- From a cursor that stands right below row `i`, the loop returns every later row exactly when
each later cursor stands right below the first row not yet read. -/
theorem pages_eq_drop_iff (hrows : rows.Pairwise fun a b => key a < key b) (hsize : 0 < size)
    {k i : Nat} {c : κ} (hc : above key rows c = rows.drop i) :
    (∃ fuel, pages key size rows cursor fuel k c = some (rows.drop i)) ↔
      ∀ j, i + size * (j + 1) ≤ rows.length →
        above key rows (cursor (k + j)) = rows.drop (i + size * (j + 1)) := by
  have advance : ∀ i j, i + size * (j + 1 + 1) = i + size + size * (j + 1) := by
    intro i j
    rw [Nat.mul_succ size (j + 1)]
    omega
  induction hn : rows.length - i using Nat.strongRecOn generalizing k i c with
  | _ n ih =>
    have hpage : page key size rows c = (rows.drop i).take size := by rw [page, hc]
    by_cases hfull : i + size ≤ rows.length
    · -- a full page: the loop goes on from the next cursor
      have hlen : ((rows.drop i).take size).length = size := by
        rw [List.length_take, List.length_drop]
        omega
      have hsplit : (rows.drop i).take size ++ rows.drop (i + size) = rows.drop i := by
        rw [← List.drop_drop, List.take_append_drop]
      have hstep : ∀ fuel, pages key size rows cursor (fuel + 1) k c = some (rows.drop i) ↔
          pages key size rows cursor fuel (k + 1) (cursor k) = some (rows.drop (i + size)) := by
        intro fuel
        have hne : ((rows.drop i).take size).isEmpty = false := by
          rw [List.isEmpty_eq_false_iff, ← List.length_pos_iff, hlen]
          exact hsize
        simp only [pages, hpage, hne, hlen, Nat.lt_irrefl, Bool.false_eq_true, if_false]
        constructor
        · intro h
          obtain ⟨rest, hrest, heq⟩ := Option.map_eq_some_iff.mp h
          rw [hrest, ← List.append_cancel_left (heq.trans hsplit.symm)]
        · intro h
          rw [h, Option.map_some, hsplit]
      have hnext : (∃ fuel, pages key size rows cursor fuel k c = some (rows.drop i)) ↔
          ∃ fuel, pages key size rows cursor fuel (k + 1) (cursor k) =
            some (rows.drop (i + size)) := by
        constructor
        · rintro ⟨fuel, h⟩
          cases fuel with
          | zero => cases h
          | succ fuel => exact ⟨fuel, (hstep fuel).mp h⟩
        · rintro ⟨fuel, h⟩
          exact ⟨fuel + 1, (hstep fuel).mpr h⟩
      rw [hnext]
      constructor
      · rintro ⟨fuel, h⟩ j hj
        have hcursor := above_of_pages hrows hsize h
        cases j with
        | zero => simpa using hcursor
        | succ j =>
          have hshift := advance i j
          have hrest := (ih (rows.length - (i + size)) (by omega) hcursor rfl).mp ⟨fuel, h⟩ j
            (by omega)
          rw [show k + (j + 1) = k + 1 + j by omega, hrest, hshift]
      · intro h
        have hcursor := h 0 (by simpa using hfull)
        rw [Nat.add_zero, Nat.zero_add, Nat.mul_one] at hcursor
        apply (ih (rows.length - (i + size)) (by omega) hcursor rfl).mpr
        intro j hj
        have hshift := advance i j
        have hrest := h (j + 1) (by omega)
        rw [show k + 1 + j = k + (j + 1) by omega, hrest, hshift]
    · -- a short page ends the loop, and no later cursor is used
      constructor
      · intro _ j hj
        have : size * 1 ≤ size * (j + 1) := Nat.mul_le_mul_left size (by omega)
        omega
      · intro _
        refine ⟨1, ?_⟩
        have hshort : (rows.drop i).take size = rows.drop i :=
          List.take_of_length_le (by rw [List.length_drop]; omega)
        simp only [pages, hpage, hshort]
        by_cases hnil : rows.drop i = []
        · rw [hnil]
          rfl
        · have hlen : (rows.drop i).length < size := by rw [List.length_drop]; omega
          rw [if_neg (by simpa using hnil), if_pos hlen]

end

end Library.Keyset
