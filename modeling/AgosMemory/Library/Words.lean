import AgosMemory.Library.Trim
import Mathlib.Data.List.Basic

/-!
# Words

A list is cut at the elements of a kind, and the empty pieces are left out. The words that remain are
those of the trimmed list, and the words of lists joined by a separator are those of the parts.
-/

namespace Library

variable {α : Type} {p : α → Bool}

/-- The stretches between elements of a kind, without the empty ones. -/
def words (p : α → Bool) (s : List α) : List (List α) := (s.splitOnP p).filter (· ≠ [])

/-- A stretch without an element of the kind. -/
structure IsWord (p : α → Bool) (w : List α) : Prop where
  nonempty : w ≠ []
  plain : ∀ a ∈ w, p a = false

@[simp] theorem words_nil : words p [] = [] := by
  simp [words]

theorem words_append_cons (s : List α) {a : α} (ha : p a = true) (t : List α) :
    words p (s ++ a :: t) = words p s ++ words p t := by
  rw [words, List.splitOnP_append_cons s t ha, List.filter_append]
  rfl

theorem words_cons (s : List α) {a : α} (ha : p a = true) : words p (a :: s) = words p s := by
  have h := words_append_cons [] ha s
  simpa using h

theorem words_of_word {w : List α} (h : IsWord p w) : words p w = [w] := by
  rw [words, List.splitOnP_eq_singleton h.plain]
  simp [h.nonempty]

/-- The words are what is left of the list without the elements of the kind. -/
theorem flatten_words (p : α → Bool) (s : List α) :
    (words p s).flatten = s.filter fun a => !p a := by
  induction h : s.length using Nat.strong_induction_on generalizing s with
  | _ n ih =>
    have hsplit : s.takeWhile (fun a => !p a) ++ s.dropWhile (fun a => !p a) = s :=
      List.takeWhile_append_dropWhile
    have hplain : ∀ a ∈ s.takeWhile (fun a => !p a), p a = false := fun a ha => by
      simpa using List.mem_takeWhile_imp ha
    have hkept : (s.takeWhile fun a => !p a).filter (fun a => !p a) =
        s.takeWhile fun a => !p a :=
      List.filter_eq_self.mpr fun a ha => by simpa using hplain a ha
    have hfirst : (words p (s.takeWhile fun a => !p a)).flatten = s.takeWhile fun a => !p a := by
      by_cases hnil : s.takeWhile (fun a => !p a) = []
      · rw [hnil]
        rfl
      · rw [words_of_word ⟨hnil, hplain⟩, List.flatten_singleton]
    cases hrest : s.dropWhile fun a => !p a with
    | nil =>
      rw [hrest, List.append_nil] at hsplit
      rw [← hsplit, hfirst, hkept]
    | cons a t =>
      have ha : p a = true := by
        have hhead := List.head_dropWhile_not (fun a => !p a) (l := s) (by simp [hrest])
        simpa [hrest] using hhead
      have hlt : t.length < n := by
        rw [hrest] at hsplit
        rw [← h, ← hsplit, List.length_append, List.length_cons]
        omega
      rw [hrest] at hsplit
      rw [← hsplit, words_append_cons _ ha, List.flatten_append, ih t.length hlt t rfl, hfirst,
        List.filter_append, hkept, List.filter_cons_of_neg (by simp [ha])]

/-- A stretch without separators before a word lengthens that word. -/
theorem words_glue {front : List α} (hfront : ∀ a ∈ front, p a = false) {b : α} (hb : p b = false)
    (s : List α) : ∃ w ws, words p (b :: s) = w :: ws ∧ w.head? = some b ∧
      words p (front ++ b :: s) = (front ++ w) :: ws := by
  have hsplit : s.takeWhile (fun a => !p a) ++ s.dropWhile (fun a => !p a) = s :=
    List.takeWhile_append_dropWhile
  have hplain : ∀ a ∈ b :: s.takeWhile (fun a => !p a), p a = false := by
    intro a ha
    rcases List.mem_cons.mp ha with rfl | ha
    · exact hb
    · simpa using List.mem_takeWhile_imp ha
  have hword : IsWord p (b :: s.takeWhile fun a => !p a) := ⟨List.cons_ne_nil _ _, hplain⟩
  have hglued : IsWord p (front ++ b :: s.takeWhile fun a => !p a) := by
    refine ⟨by simp, fun a ha => ?_⟩
    exact (List.mem_append.mp ha).elim (hfront a) (hplain a)
  cases hrest : s.dropWhile fun a => !p a with
  | nil =>
    rw [hrest, List.append_nil] at hsplit
    rw [hsplit] at hword hglued
    exact ⟨b :: s, [], words_of_word hword, rfl, words_of_word hglued⟩
  | cons a t =>
    have ha : p a = true := by
      have hhead := List.head_dropWhile_not (fun a => !p a) (l := s) (by simp [hrest])
      simpa [hrest] using hhead
    rw [hrest] at hsplit
    have hcons : b :: s = (b :: s.takeWhile fun a => !p a) ++ a :: t := by
      rw [List.cons_append, hsplit]
    refine ⟨b :: s.takeWhile fun a => !p a, words p t, ?_, rfl, ?_⟩
    · rw [hcons, words_append_cons _ ha, words_of_word hword, List.singleton_append]
    · rw [hcons, ← List.append_assoc, words_append_cons _ ha, words_of_word hglued,
        List.singleton_append]

theorem mem_words {s w : List α} (h : w ∈ words p s) : IsWord p w := by
  have hne : w ≠ [] := by simpa using (List.mem_filter.mp h).2
  refine ⟨hne, fun a ha => ?_⟩
  have hmem : a ∈ (words p s).flatten := List.mem_flatten.mpr ⟨w, h, ha⟩
  rw [flatten_words] at hmem
  simpa using (List.mem_filter.mp hmem).2

/-- An element of another kind is in a word. -/
theorem exists_word {s : List α} {a : α} (ha : p a = false) :
    (∃ w ∈ words p s, a ∈ w) ↔ a ∈ s := by
  rw [← List.mem_flatten, flatten_words, List.mem_filter]
  simp [ha]

theorem words_eq_nil {s : List α} : words p s = [] ↔ ∀ a ∈ s, p a = true := by
  constructor
  · intro h a ha
    by_contra hp
    obtain ⟨w, hw, _⟩ := (exists_word (p := p) (Bool.eq_false_iff.mpr hp)).mpr ha
    rw [h] at hw
    cases hw
  · intro h
    rw [List.eq_nil_iff_forall_not_mem]
    intro w hw
    obtain ⟨a, ha⟩ := List.exists_mem_of_ne_nil w (mem_words hw).nonempty
    have hmem := (exists_word (s := s) ((mem_words hw).plain a ha)).mp ⟨w, hw, ha⟩
    have hplain := (mem_words hw).plain a ha
    rw [h a hmem] at hplain
    cases hplain

/-! ## Trimming and joining -/

theorem words_append_left {before : List α} (h : ∀ a ∈ before, p a = true) (s : List α) :
    words p (before ++ s) = words p s := by
  induction before with
  | nil => rfl
  | cons a before ih =>
    rw [List.cons_append, words_cons _ (h a List.mem_cons_self)]
    exact ih fun b hb => h b (List.mem_cons_of_mem _ hb)

theorem words_append_right {after : List α} (h : ∀ a ∈ after, p a = true) (s : List α) :
    words p (s ++ after) = words p s := by
  cases after with
  | nil => rw [List.append_nil]
  | cons a after =>
    have hafter : words p after = [] :=
      words_eq_nil.mpr fun b hb => h b (List.mem_cons_of_mem _ hb)
    rw [words_append_cons s (h a List.mem_cons_self), hafter, List.append_nil]

theorem words_trimList (s : List α) : words p (trimList p s) = words p s := by
  obtain ⟨before, after, hs, hbefore, hafter⟩ := trimList_split p s
  conv_rhs => rw [hs]
  rw [words_append_right hafter, words_append_left hbefore]

/-- A list without words is trimmed to nothing. -/
theorem words_eq_nil_iff_trimList {s : List α} : words p s = [] ↔ trimList p s = [] := by
  constructor
  · intro h
    rw [← words_trimList] at h
    by_contra hne
    have hpos := List.length_pos_of_ne_nil hne
    exact trimList_head p s hpos (words_eq_nil.mp h _ (List.get_mem _ _))
  · intro h
    rw [← words_trimList, h, words_nil]

/-- The words of parts that a separator joins. -/
theorem words_intercalate {sep : α} (hsep : p sep = true) (parts : List (List α)) :
    words p ([sep].intercalate parts) = parts.flatMap (words p) := by
  induction parts with
  | nil => simp
  | cons s parts ih =>
    cases parts with
    | nil => simp [List.intercalate]
    | cons t parts =>
      rw [List.intercalate_cons_cons, List.append_assoc, List.singleton_append,
        words_append_cons s hsep, ih]
      rfl

end Library
