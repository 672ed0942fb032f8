import AgosMemory.Library.Words
import AgosMemory.Text

/-!
# Words of a text

The words that `split_whitespace` finds, under trimming and joining.
-/

namespace AgosMemory.Text

open Library

theorem toList_join (sep : String) (ws : List String) :
    (join sep ws).toList = sep.toList.intercalate (ws.map String.toList) := by
  induction ws with
  | nil => rfl
  | cons w ws ih =>
    cases ws with
    | nil => simp [join, List.intercalate]
    | cons v ws =>
      have hstep : join sep (w :: v :: ws) = w ++ sep ++ join sep (v :: ws) := rfl
      rw [hstep, List.map_cons, List.map_cons, List.intercalate_cons_cons, String.toList_append,
        String.toList_append, ih, List.map_cons]

theorem trim_eq_empty_iff (s : String) : trim s = "" ↔ trimList isSpace s.toList = [] := by
  have htrim : trim s = String.ofList (trimList isSpace s.toList) := rfl
  rw [htrim, ← String.toList_inj, String.toList_ofList]
  rfl

theorem splitWhitespace_eq (s : String) :
    splitWhitespace s = (words isSpace s.toList).map String.ofList := rfl

theorem splitWhitespace_trim (s : String) : splitWhitespace (trim s) = splitWhitespace s := by
  have htrim : (trim s).toList = trimList isSpace s.toList := String.toList_ofList
  rw [splitWhitespace_eq, splitWhitespace_eq, htrim, words_trimList]

/-- The words of parts joined by a blank are those of the parts. -/
theorem splitWhitespace_join (parts : List String) :
    splitWhitespace (join " " parts) = parts.flatMap splitWhitespace := by
  have hblank : " ".toList = [' '] := rfl
  rw [splitWhitespace_eq, toList_join, hblank, words_intercalate (by decide), List.flatMap_map,
    List.map_flatMap]
  rfl

theorem splitWhitespace_of_mem {s w : String} (h : w ∈ splitWhitespace s) :
    splitWhitespace w = [w] := by
  obtain ⟨v, hv, rfl⟩ := List.mem_map.mp h
  rw [splitWhitespace_eq, String.toList_ofList, words_of_word (mem_words hv)]
  rfl

/-- Joined words come apart again. -/
private theorem splitWhitespace_join_words {ws : List String}
    (h : ∀ w ∈ ws, splitWhitespace w = [w]) :
    splitWhitespace (join " " ws) = ws := by
  rw [splitWhitespace_join]
  induction ws with
  | nil => rfl
  | cons w ws ih =>
    rw [List.flatMap_cons, h w List.mem_cons_self, ih fun v hv => h v (List.mem_cons_of_mem _ hv),
      List.singleton_append]

theorem splitWhitespace_normalize (s : String) :
    splitWhitespace (join " " (splitWhitespace s)) = splitWhitespace s :=
  splitWhitespace_join_words fun _ hw => splitWhitespace_of_mem hw

/-- A text of words is empty only without words. -/
theorem join_words_eq_empty {ws : List String} (h : ∀ w ∈ ws, splitWhitespace w = [w]) :
    join " " ws = "" ↔ ws = [] := by
  constructor
  · intro hempty
    rw [← splitWhitespace_join_words h, hempty]
    rfl
  · rintro rfl
    rfl

end AgosMemory.Text
