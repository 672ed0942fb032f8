import Mathlib.Data.List.DropRight

/-!
# Trimming

Elements of a kind are dropped from both ends of a list. Trimming leaves a stretch of the list, is
idempotent, and depends only on which elements of the list are of the kind.
-/

namespace Library

variable {α : Type} {p q : α → Bool} {l : List α}

/-- The list without the elements of a kind at its ends. -/
def trimList (p : α → Bool) (l : List α) : List α := (l.dropWhile p).rdropWhile p

theorem trimList_infix (p : α → Bool) (l : List α) : (trimList p l).IsInfix l :=
  (List.rdropWhile_prefix p _).isInfix.trans (List.dropWhile_suffix p).isInfix

/-- What is around the stretch that stays is of the kind. -/
theorem trimList_split (p : α → Bool) (l : List α) :
    ∃ before after, l = before ++ trimList p l ++ after ∧ (∀ a ∈ before, p a = true) ∧
      ∀ a ∈ after, p a = true := by
  refine ⟨l.takeWhile p, (l.dropWhile p).rtakeWhile p, ?_, fun a ha => List.mem_takeWhile_imp ha,
    fun a ha => List.mem_rtakeWhile_imp ha⟩
  rw [List.append_assoc, trimList, List.rdropWhile_append_rtakeWhile, List.takeWhile_append_dropWhile]

/-- What stays does not begin with an element of the kind. -/
theorem trimList_head (p : α → Bool) (l : List α) (h : 0 < (trimList p l).length) :
    ¬ p ((trimList p l).get ⟨0, h⟩) = true := by
  obtain ⟨after, hafter⟩ := List.rdropWhile_prefix p (l.dropWhile p)
  have hlt : 0 < (l.dropWhile p).length := by
    rw [← hafter, List.length_append]
    exact Nat.add_pos_left h _
  have hhead : (trimList p l)[0]? = (l.dropWhile p)[0]? := by
    rw [← hafter]
    exact (List.getElem?_append_left h).symm
  rw [List.getElem?_eq_getElem h, List.getElem?_eq_getElem hlt] at hhead
  rw [List.get_eq_getElem, Option.some.inj hhead]
  exact List.dropWhile_get_zero_not p l hlt

theorem trimList_trimList (p : α → Bool) (l : List α) :
    trimList p (trimList p l) = trimList p l := by
  have hdrop : (trimList p l).dropWhile p = trimList p l :=
    List.dropWhile_eq_self_iff.mpr (trimList_head p l)
  calc trimList p (trimList p l) = (trimList p l).rdropWhile p := by rw [trimList, hdrop]
    _ = trimList p l := List.rdropWhile_idempotent p _

theorem dropWhile_congr (h : ∀ a ∈ l, p a = q a) : l.dropWhile p = l.dropWhile q := by
  induction l with
  | nil => rfl
  | cons a l ih =>
    rw [List.dropWhile_cons, List.dropWhile_cons, h a List.mem_cons_self,
      ih fun b hb => h b (List.mem_cons_of_mem _ hb)]

theorem trimList_congr (h : ∀ a ∈ l, p a = q a) : trimList p l = trimList q l := by
  have hdrop := dropWhile_congr h
  have hreverse : ∀ a ∈ (l.dropWhile q).reverse, p a = q a := fun a ha =>
    h a ((List.dropWhile_suffix q).subset (List.mem_reverse.mp ha))
  rw [trimList, trimList, hdrop, List.rdropWhile, List.rdropWhile, dropWhile_congr hreverse]

end Library
