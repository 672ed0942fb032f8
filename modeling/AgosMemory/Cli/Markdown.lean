import AgosMemory.Cli.Ingest
import AgosMemory.Words

/-!
# Items of a Markdown file

A file is cut into units: a list item is one line, a paragraph the lines up to the next blank line,
heading or list item. Each unit becomes one item or is left out, and its words are those of its lines
but for a list marker. Digits with a dot are taken for a marker whatever follows the dot, so a number
like `3.14` at the start of a line loses its front.
-/

namespace AgosMemory.Ingest

open Library

/-! ## Units -/

/-- The line is neither blank nor a heading. -/
def isContent (raw : String) : Bool := !(Text.trim raw = "" || (Text.trim raw).startsWith "#")

/-- The lines of a list item or of a paragraph, from line number `start` on. -/
structure MarkdownUnit where
  start : Nat
  lines : List String
  deriving DecidableEq, Repr

namespace MarkdownUnit

def numbered (u : MarkdownUnit) : List (String × Nat) := u.lines.zipIdx u.start

/-- The words of the lines. -/
def words (u : MarkdownUnit) : List String := u.lines.flatMap Text.splitWhitespace

def push (u : MarkdownUnit) (raw : String) : MarkdownUnit := ⟨u.start, u.lines ++ [raw]⟩

/-- What becomes the text of the item: what follows a list marker, or the lines together. -/
def body (u : MarkdownUnit) : String :=
  match u.lines with
  | [raw] => (listItem (Text.trim raw)).getD (Text.trim raw)
  | lines => Text.join " " (lines.map Text.trim)

end MarkdownUnit

/-- The units of the lines from number `line` on, with the paragraph that is open. -/
def unitsFrom : List String → Nat → Option MarkdownUnit → List MarkdownUnit
  | [], _, paragraph => paragraph.toList
  | raw :: rest, line, paragraph =>
    if !isContent raw then paragraph.toList ++ unitsFrom rest (line + 1) none
    else if (listItem (Text.trim raw)).isSome then
      paragraph.toList ++ ⟨line, [raw]⟩ :: unitsFrom rest (line + 1) none
    else unitsFrom rest (line + 1) (some ((paragraph.getD ⟨line, []⟩).push raw))

def contentLines (file : MarkdownFile) : List (String × Nat) :=
  ((Diff.lines file.contents).zipIdx 1).filter fun l => isContent l.1

/-- A list marker: `-`, `*`, `+`, or digits and a dot. -/
def IsMarker (w : String) : Prop :=
  w ∈ ["-", "*", "+"] ∨
    ∃ digits : List Char, digits ≠ [] ∧ (∀ c ∈ digits, c.isDigit = true) ∧
      w.toList = digits ++ ['.']

/-- The words of a unit, with nothing left out but the marker of a list item. -/
def Keeps (u : MarkdownUnit) (ws : List String) : Prop :=
  ws = u.words ∨ u.lines.length = 1 ∧ ∃ marker, IsMarker marker ∧ u.words = marker :: ws

/-- Each unit is an item in its place, or is left out as empty or too long. -/
inductive Listed (relative : String) : List MarkdownUnit → List ParsedItem → Nat → Prop where
  | nil : Listed relative [] [] 0
  | item {u : MarkdownUnit} {us : List MarkdownUnit} {item : ParsedItem} {items : List ParsedItem}
      {skipped : Nat} (keeps : Keeps u (Text.splitWhitespace item.text))
      (text : item.text = Text.join " " (Text.splitWhitespace item.text))
      (sourceRef : item.sourceRef = relative ++ ":" ++ toString u.start)
      (fits : item.text ≠ "" ∧ item.text.toList.length ≤ MAX_ITEM_CHARS) :
      Listed relative us items skipped → Listed relative (u :: us) (item :: items) skipped
  | leftOut {u : MarkdownUnit} {us : List MarkdownUnit} {ws : List String}
      {items : List ParsedItem} {skipped : Nat} (keeps : Keeps u ws)
      (unfit : ws = [] ∨ MAX_ITEM_CHARS < (Text.join " " ws).toList.length) :
      Listed relative us items skipped → Listed relative (u :: us) items (skipped + 1)

/-- The items are a partition of the lines that are neither blank nor headings. -/
structure FaithfulItems (file : MarkdownFile) (p : Parsed) : Prop where
  partition : ∃ us : List MarkdownUnit, us.flatMap MarkdownUnit.numbered = contentLines file ∧
    (∀ u ∈ us, u.lines ≠ []) ∧ Listed file.relative us p.items p.skipped
  increasing : ∃ starts : List Nat, starts.Pairwise (· < ·) ∧
    p.items.map ParsedItem.sourceRef = starts.map fun n => file.relative ++ ":" ++ toString n
  distinct : (p.items.map ParsedItem.sourceRef).Nodup

/-! ## The loop goes over the units -/

/-- Add the item of a unit. -/
def pushUnit (relative : String) (p : Parsed) (u : MarkdownUnit) : Parsed :=
  p.push relative u.start (normalizeText u.body)

/-- A paragraph: its lines are no list items. -/
def IsParagraph (u : MarkdownUnit) : Prop :=
  u.lines ≠ [] ∧ ∀ raw ∈ u.lines, listItem (Text.trim raw) = none

theorem IsParagraph.body {u : MarkdownUnit} (h : IsParagraph u) :
    u.body = Text.join " " (u.lines.map Text.trim) := by
  obtain ⟨start, lines⟩ := u
  match lines, h.2 with
  | [], _ => rfl
  | [raw], hnone =>
    show (listItem (Text.trim raw)).getD (Text.trim raw) = _
    rw [hnone raw (List.mem_singleton_self _)]
    rfl
  | _ :: _ :: _, _ => rfl

/-- The open paragraph as the loop holds it. -/
def openLines (u : MarkdownUnit) : Nat × List String := (u.start, u.lines.map Text.trim)

private theorem flush_eq (relative : String) {paragraph : Option MarkdownUnit}
    (h : ∀ u ∈ paragraph, IsParagraph u) (p : Parsed) :
    flush relative (paragraph.map openLines) p =
      paragraph.toList.foldl (pushUnit relative) p := by
  cases paragraph with
  | none => rfl
  | some u =>
    show p.push relative u.start (normalizeText (Text.join " " (u.lines.map Text.trim))) = _
    rw [← (h u rfl).body]
    rfl

private theorem parseLines_eq_foldl (relative : String) (raws : List String) (line : Nat)
    (paragraph : Option MarkdownUnit) (h : ∀ u ∈ paragraph, IsParagraph u) (p : Parsed) :
    parseLines relative raws line (paragraph.map openLines) p =
      (unitsFrom raws line paragraph).foldl (pushUnit relative) p := by
  induction raws generalizing line paragraph p with
  | nil => exact flush_eq relative h p
  | cons raw rest ih =>
    have hnone : ∀ u ∈ (none : Option MarkdownUnit), IsParagraph u := fun u hu => by cases hu
    rw [parseLines, unitsFrom]
    dsimp only
    by_cases hcontent : isContent raw = true
    · have hline : ¬ (Text.trim raw = "" ∨ (Text.trim raw).startsWith "#" = true) := by
        simpa [isContent] using hcontent
      rw [if_neg hline, if_neg (by simp [hcontent])]
      cases hitem : listItem (Text.trim raw) with
      | some text =>
        have hbody : MarkdownUnit.body ⟨line, [raw]⟩ = text := by
          show (listItem (Text.trim raw)).getD (Text.trim raw) = text
          rw [hitem]
          rfl
        rw [if_pos Option.isSome_some, List.foldl_append, List.foldl_cons, ← flush_eq relative h,
          pushUnit, hbody]
        exact ih (line + 1) none hnone _
      | none =>
        rw [if_neg (by simp)]
        have hnext : IsParagraph ((paragraph.getD ⟨line, []⟩).push raw) := by
          refine ⟨by simp [MarkdownUnit.push], fun r hr => ?_⟩
          rcases List.mem_append.mp hr with hr | hr
          · cases paragraph with
            | none => cases hr
            | some u => exact (h u rfl).2 r hr
          · rw [List.mem_singleton.mp hr]
            exact hitem
        rw [← ih (line + 1) _ (fun u hu => by cases hu; exact hnext)]
        cases paragraph <;> simp [openLines, MarkdownUnit.push]
    · have hline : Text.trim raw = "" ∨ (Text.trim raw).startsWith "#" = true := by
        simpa [isContent, Decidable.or_iff_not_imp_left] using hcontent
      rw [if_pos hline, if_pos (by simp [hcontent]), List.foldl_append, ← flush_eq relative h]
      exact ih (line + 1) none hnone _

/-! ## The units cover the lines -/

private theorem numbered_push {u : MarkdownUnit} {line : Nat} (h : u.start + u.lines.length = line)
    (raw : String) : (u.push raw).numbered = u.numbered ++ [(raw, line)] := by
  rw [MarkdownUnit.numbered, MarkdownUnit.push, List.zipIdx_append, h]
  rfl

/-- Every line that is neither blank nor a heading is in one unit, and no other line is. -/
private theorem numbered_unitsFrom (raws : List String) (line : Nat) (paragraph : Option MarkdownUnit)
    (h : ∀ u ∈ paragraph, u.start + u.lines.length = line) :
    (unitsFrom raws line paragraph).flatMap MarkdownUnit.numbered =
      paragraph.toList.flatMap MarkdownUnit.numbered ++
        (raws.zipIdx line).filter fun l => isContent l.1 := by
  induction raws generalizing line paragraph with
  | nil => simp [unitsFrom]
  | cons raw rest ih =>
    have hnone : ∀ u ∈ (none : Option MarkdownUnit), u.start + u.lines.length = line + 1 :=
      fun u hu => by cases hu
    rw [unitsFrom, List.zipIdx_cons]
    by_cases hcontent : isContent raw = true
    · rw [if_neg (by simp [hcontent]), List.filter_cons_of_pos (by exact hcontent)]
      cases hitem : listItem (Text.trim raw) with
      | some text =>
        rw [if_pos Option.isSome_some, List.flatMap_append, List.flatMap_cons, ih _ _ hnone]
        rfl
      | none =>
        rw [if_neg (by simp)]
        cases paragraph with
        | none =>
          rw [ih _ _ (fun u hu => by cases hu; rfl)]
          rfl
        | some u =>
          have hend := h u rfl
          rw [Option.getD_some, ih _ _ (fun v hv => by
            cases hv
            rw [MarkdownUnit.push, List.length_append, List.length_singleton]
            dsimp only
            omega)]
          simp [numbered_push hend]
    · rw [if_pos (by simp [hcontent]), List.filter_cons_of_neg (by exact hcontent),
        List.flatMap_append, ih _ _ hnone]
      rfl

/-- A unit is a paragraph or one list item. -/
def IsBlock (u : MarkdownUnit) : Prop :=
  IsParagraph u ∨ ∃ raw text, u.lines = [raw] ∧ listItem (Text.trim raw) = some text

private theorem isBlock_of_mem {raws : List String} {line : Nat} {paragraph : Option MarkdownUnit}
    (h : ∀ u ∈ paragraph, IsParagraph u) {u : MarkdownUnit}
    (hu : u ∈ unitsFrom raws line paragraph) : IsBlock u := by
  induction raws generalizing line paragraph with
  | nil => exact .inl (h u (Option.mem_toList.mp hu))
  | cons raw rest ih =>
    have hnone : ∀ u ∈ (none : Option MarkdownUnit), IsParagraph u := fun u hu => by cases hu
    rw [unitsFrom] at hu
    split at hu
    · rcases List.mem_append.mp hu with hu | hu
      · exact .inl (h u (Option.mem_toList.mp hu))
      · exact ih hnone hu
    · split at hu
      · next hitem =>
        rcases List.mem_append.mp hu with hu | hu
        · exact .inl (h u (Option.mem_toList.mp hu))
        · rcases List.mem_cons.mp hu with rfl | hu
          · obtain ⟨text, htext⟩ := Option.isSome_iff_exists.mp hitem
            exact .inr ⟨raw, text, rfl, htext⟩
          · exact ih hnone hu
      · next hitem =>
        refine ih (fun v hv => ?_) hu
        obtain rfl := Option.some.inj hv
        refine ⟨by simp [MarkdownUnit.push], fun r hr => ?_⟩
        rcases List.mem_append.mp hr with hr | hr
        · cases paragraph with
          | none => cases hr
          | some v => exact (h v rfl).2 r hr
        · rw [List.mem_singleton.mp hr]
          exact Option.not_isSome_iff_eq_none.mp hitem

/-! ## What a list marker takes away -/

/-- Digits and a dot with something else than a space right after the dot, and what is after the
dot. -/
def Glued (line rest : String) : Prop :=
  ∃ (digits : List Char) (c : Char) (cs : List Char), digits ≠ [] ∧
    (∀ d ∈ digits, d.isDigit = true) ∧ Text.isSpace c = false ∧
    line.toList = digits ++ '.' :: c :: cs ∧ rest = String.ofList (c :: cs)

private theorem not_space_of_isDigit {c : Char} (h : c.isDigit = true) : Text.isSpace c = false := by
  have hspaces : ∀ s ∈ Text.spaces, s.isDigit = false :=
    Text.forall_of_all (p := fun s => s.isDigit = false) (by decide)
  rw [Bool.eq_false_iff]
  intro hspace
  have hno := hspaces c (List.contains_iff_mem.mp hspace)
  rw [h] at hno
  cases hno

/-- The digits of a marker and its dot are no space. -/
private theorem numeral_plain {digits : List Char} (h : ∀ d ∈ digits, d.isDigit = true) :
    ∀ c ∈ digits ++ ['.'], Text.isSpace c = false := by
  intro c hc
  rcases List.mem_append.mp hc with hc | hc
  · exact not_space_of_isDigit (h c hc)
  · rw [List.mem_singleton.mp hc]
    decide

/-- The signs of a list are words without digits. -/
private theorem sign_plain {sign : String} (h : sign ∈ ["-", "*", "+"]) :
    IsWord Text.isSpace sign.toList ∧ ∀ c ∈ sign.toList, c.isDigit = false := by
  have hsigns : (["-", "*", "+"].all fun s =>
      !s.toList.isEmpty && s.toList.all fun c => !Text.isSpace c && !c.isDigit) = true := by decide
  have hsign := List.all_eq_true.mp hsigns sign h
  rw [Bool.and_eq_true, List.all_eq_true] at hsign
  simp only [Bool.and_eq_true, Bool.not_eq_true'] at hsign
  exact ⟨⟨by simpa using hsign.1, fun c hc => (hsign.2 c hc).1⟩, fun c hc => (hsign.2 c hc).2⟩

private theorem splitWhitespace_marker {line marker : String} {c : Char} {rest : List Char}
    (hline : line.toList = marker.toList ++ c :: rest)
    (hmarker : IsWord Text.isSpace marker.toList) (hc : Text.isSpace c = true) :
    Text.splitWhitespace line = marker :: Text.splitWhitespace (String.ofList rest) := by
  rw [Text.splitWhitespace_eq, hline, words_append_cons _ hc, words_of_word hmarker]
  simp [Text.splitWhitespace_eq]

private theorem numeral_cases {line : String} {digits rest : List Char} (hne : digits ≠ [])
    (hdigits : ∀ d ∈ digits, d.isDigit = true) (hline : line.toList = digits ++ '.' :: rest) :
    (∃ marker, IsMarker marker ∧ Text.splitWhitespace line =
      marker :: Text.splitWhitespace (String.ofList (rest.dropWhile Text.isSpace))) ∨
      Glued line (String.ofList (rest.dropWhile Text.isSpace)) := by
  have hmarker : IsMarker (String.ofList (digits ++ ['.'])) :=
    .inr ⟨digits, hne, hdigits, String.toList_ofList⟩
  have hword : IsWord Text.isSpace (String.ofList (digits ++ ['.'])).toList := by
    rw [String.toList_ofList]
    exact ⟨by simp, numeral_plain hdigits⟩
  cases rest with
  | nil =>
    refine .inl ⟨_, hmarker, ?_⟩
    rw [String.toList_ofList] at hword
    rw [Text.splitWhitespace_eq, hline, words_of_word hword]
    rfl
  | cons c cs =>
    have hchars : line.toList = (String.ofList (digits ++ ['.'])).toList ++ c :: cs := by
      rw [String.toList_ofList, hline, List.append_assoc]
      rfl
    by_cases hc : Text.isSpace c = true
    · refine .inl ⟨_, hmarker, ?_⟩
      rw [splitWhitespace_marker hchars hword hc, Text.splitWhitespace_eq, Text.splitWhitespace_eq,
        String.toList_ofList, String.toList_ofList, List.dropWhile_cons_of_pos hc]
      have hfront : ∀ a ∈ cs.takeWhile Text.isSpace, Text.isSpace a = true := fun a ha =>
        List.mem_takeWhile_imp ha
      conv_lhs => rw [← List.takeWhile_append_dropWhile (p := Text.isSpace) (l := cs)]
      rw [words_append_left hfront]
    · rw [List.dropWhile_cons_of_neg hc]
      exact .inr ⟨digits, c, cs, hne, hdigits, Bool.eq_false_iff.mpr hc, hline, rfl⟩

/-- Either a marker stands alone before the text of an item, or digits and a dot are glued to it. -/
private theorem listItem_cases {line text : String} (h : listItem line = some text) :
    (∃ marker, IsMarker marker ∧
      Text.splitWhitespace line = marker :: Text.splitWhitespace text) ∨ Glued line text := by
  unfold listItem at h
  split at h
  · next rest hline =>
    obtain rfl := Option.some.inj h
    have hsign : "-" ∈ ["-", "*", "+"] := by decide
    refine .inl ⟨"-", .inl hsign, ?_⟩
    rw [Text.splitWhitespace_trim]
    exact splitWhitespace_marker hline (sign_plain hsign).1 (by decide)
  · next rest hline =>
    obtain rfl := Option.some.inj h
    have hsign : "*" ∈ ["-", "*", "+"] := by decide
    refine .inl ⟨"*", .inl hsign, ?_⟩
    rw [Text.splitWhitespace_trim]
    exact splitWhitespace_marker hline (sign_plain hsign).1 (by decide)
  · next rest hline =>
    obtain rfl := Option.some.inj h
    have hsign : "+" ∈ ["-", "*", "+"] := by decide
    refine .inl ⟨"+", .inl hsign, ?_⟩
    rw [Text.splitWhitespace_trim]
    exact splitWhitespace_marker hline (sign_plain hsign).1 (by decide)
  · split at h
    · next rest hdrop =>
      split at h
      · cases h
      · next hempty =>
        obtain rfl := Option.some.inj h
        have hdigits : line.toList.takeWhile Char.isDigit ≠ [] := fun hnil => by
          rw [hnil] at hempty
          exact hempty rfl
        refine numeral_cases hdigits (fun d hd => List.mem_takeWhile_imp hd) ?_
        · rw [← hdrop, List.takeWhile_append_dropWhile]
    · cases h

/-- A glued numeral is taken for a marker. -/
private theorem listItem_of_glued {line rest : String} (h : Glued line rest) :
    listItem line = some rest := by
  obtain ⟨digits, c, cs, hne, hdigits, hc, hline, rfl⟩ := h
  have htake : line.toList.takeWhile Char.isDigit = digits := by
    rw [hline, List.takeWhile_append_of_pos hdigits]
    simp
  have hdrop : line.toList.dropWhile Char.isDigit = '.' :: c :: cs := by
    rw [hline, List.dropWhile_append_of_pos hdigits]
    simp
  obtain ⟨d, ds, rfl⟩ := List.exists_cons_of_ne_nil hne
  have hd : d.isDigit = true := hdigits d List.mem_cons_self
  unfold listItem
  split
  · next heq => rw [hline] at heq; obtain ⟨rfl, _⟩ := List.cons.inj heq; cases hd
  · next heq => rw [hline] at heq; obtain ⟨rfl, _⟩ := List.cons.inj heq; cases hd
  · next heq => rw [hline] at heq; obtain ⟨rfl, _⟩ := List.cons.inj heq; cases hd
  · rw [htake, hdrop]
    show (if (d :: ds).isEmpty = true then none
      else some (String.ofList ((c :: cs).dropWhile Text.isSpace))) = _
    rw [if_neg (by simp), List.dropWhile_cons_of_neg (by simp [hc])]

/-- The first word of a line with a glued numeral is longer than that of the text taken from it, and
the other words are the same. -/
theorem Glued.words {line rest : String} (h : Glued line rest) :
    ∃ (digits : List Char) (w : List Char) (ws : List String), digits ≠ [] ∧ w ≠ [] ∧
      (∀ d ∈ digits, d.isDigit = true) ∧
      Text.splitWhitespace rest = String.ofList w :: ws ∧
      Text.splitWhitespace line = String.ofList (digits ++ '.' :: w) :: ws := by
  obtain ⟨digits, c, cs, hne, hdigits, hc, hline, rfl⟩ := h
  obtain ⟨w, ws, hrest, hhead, hglued⟩ := words_glue (numeral_plain hdigits) hc cs
  refine ⟨digits, w, ws.map String.ofList, hne, fun hw => ?_, hdigits, ?_, ?_⟩
  · rw [hw] at hhead
    cases hhead
  · rw [Text.splitWhitespace_eq, String.toList_ofList, hrest]
    rfl
  · have hchars : line.toList = (digits ++ ['.']) ++ c :: cs := by
      rw [hline, List.append_assoc]
      rfl
    rw [Text.splitWhitespace_eq, hchars, hglued]
    simp

/-! ## The items of the units -/

/-- A unit keeps its words but for a marker, unless its numeral is glued to the text. -/
private theorem keeps_body {u : MarkdownUnit} (h : IsBlock u) :
    Keeps u (Text.splitWhitespace u.body) ∨
      ∃ raw, u.lines = [raw] ∧ Glued (Text.trim raw) u.body := by
  rcases h with hparagraph | ⟨raw, text, hlines, hitem⟩
  · refine .inl (.inl ?_)
    rw [hparagraph.body, Text.splitWhitespace_join, List.flatMap_map]
    simp only [Text.splitWhitespace_trim]
    rfl
  · have hbody : u.body = text := by
      rw [MarkdownUnit.body, hlines]
      show (listItem (Text.trim raw)).getD (Text.trim raw) = text
      rw [hitem]
      rfl
    rcases listItem_cases hitem with ⟨marker, hmarker, hwords⟩ | hglued
    · refine .inl (.inr ⟨by rw [hlines]; rfl, marker, hmarker, ?_⟩)
      rw [hbody, ← hwords, Text.splitWhitespace_trim, MarkdownUnit.words, hlines]
      exact List.append_nil _
    · exact .inr ⟨raw, hlines, hbody ▸ hglued⟩

private theorem toList_join_cons (ws : List String) : ∃ tail : List Char, ∀ w : String,
    (Text.join " " (w :: ws)).toList = w.toList ++ tail := by
  cases ws with
  | nil => exact ⟨[], fun w => (List.append_nil _).symm⟩
  | cons v ws =>
    refine ⟨" ".toList ++ (Text.join " " (v :: ws)).toList, fun w => ?_⟩
    have hstep : Text.join " " (w :: v :: ws) = w ++ " " ++ Text.join " " (v :: ws) := rfl
    rw [hstep, String.toList_append, String.toList_append, List.append_assoc]

/-- A line is at least as long as what is taken from it. -/
theorem Glued.length_le {line rest : String} (h : Glued line rest) :
    (normalizeText rest).toList.length ≤
      (Text.join " " (Text.splitWhitespace line)).toList.length := by
  obtain ⟨digits, w, ws, _, _, _, hrest, hline⟩ := h.words
  obtain ⟨tail, htail⟩ := toList_join_cons ws
  rw [normalizeText, hrest, hline, htail, htail, List.length_append, List.length_append,
    String.toList_ofList, String.toList_ofList, List.length_append, List.length_cons]
  omega

/-- The item that a unit becomes. -/
def itemOf (relative : String) (u : MarkdownUnit) : ParsedItem :=
  ⟨normalizeText u.body, relative ++ ":" ++ toString u.start, relative.startsWith "memory/"⟩

/-- The text of a unit is empty or too long. -/
def Unfit (text : String) : Prop := text = "" ∨ MAX_ITEM_CHARS < text.toList.length

private theorem pushUnit_cases (relative : String) (p : Parsed) (u : MarkdownUnit) :
    Unfit (normalizeText u.body) ∧
        pushUnit relative p u = ⟨p.items, p.skipped + 1⟩ ∨
      ¬ Unfit (normalizeText u.body) ∧
        pushUnit relative p u = ⟨p.items ++ [itemOf relative u], p.skipped⟩ := by
  unfold pushUnit Parsed.push
  by_cases hunfit : Unfit (normalizeText u.body)
  · exact .inl ⟨hunfit, if_pos hunfit⟩
  · exact .inr ⟨hunfit, if_neg hunfit⟩

/-- Without a glued numeral that fits, the loop lists each unit. -/
private theorem listed_pushUnits (relative : String) {us : List MarkdownUnit}
    (hunit : ∀ u ∈ us, IsBlock u)
    (hlong : ∀ u ∈ us, ∀ raw, u.lines = [raw] → Glued (Text.trim raw) u.body →
      MAX_ITEM_CHARS < (normalizeText u.body).toList.length) (p : Parsed) :
    ∃ items skipped, us.foldl (pushUnit relative) p =
      ⟨p.items ++ items, p.skipped + skipped⟩ ∧ Listed relative us items skipped := by
  induction us generalizing p with
  | nil => exact ⟨[], 0, by simp, .nil⟩
  | cons u us ih =>
    obtain ⟨items, skipped, hrun, hlisted⟩ := ih
      (fun v hv => hunit v (List.mem_cons_of_mem _ hv))
      (fun v hv => hlong v (List.mem_cons_of_mem _ hv)) (pushUnit relative p u)
    have hkept := keeps_body (hunit u List.mem_cons_self)
    rcases pushUnit_cases relative p u with ⟨hunfit, hpush⟩ | ⟨hfit, hpush⟩
    · refine ⟨items, skipped + 1, ?_, ?_⟩
      · rw [List.foldl_cons, hrun, hpush]
        simp only [Parsed.mk.injEq, true_and]
        omega
      · rcases hkept with hkeeps | ⟨raw, hlines, hglued⟩
        · refine .leftOut hkeeps (hunfit.imp (fun hempty => ?_) id) hlisted
          exact (Text.join_words_eq_empty fun _ hw => Text.splitWhitespace_of_mem hw).mp hempty
        · refine .leftOut (.inl rfl) (.inr ?_) hlisted
          have hwords : u.words = Text.splitWhitespace (Text.trim raw) := by
            rw [MarkdownUnit.words, hlines, Text.splitWhitespace_trim]
            exact List.append_nil _
          rw [hwords]
          exact (hlong u List.mem_cons_self raw hlines hglued).trans_le hglued.length_le
    · refine ⟨itemOf relative u :: items, skipped, ?_, ?_⟩
      · rw [List.foldl_cons, hrun, hpush, List.append_assoc]
        rfl
      · rcases hkept with hkeeps | ⟨raw, hlines, hglued⟩
        · have hwords : Text.splitWhitespace (itemOf relative u).text =
              Text.splitWhitespace u.body := Text.splitWhitespace_normalize u.body
          refine .item (by rw [hwords]; exact hkeeps) (by rw [hwords]; rfl) rfl ?_ hlisted
          exact ⟨fun h => hfit (.inl h), Nat.le_of_not_lt fun h => hfit (.inr h)⟩
        · exact absurd (.inr (hlong u List.mem_cons_self raw hlines hglued)) hfit

/-- Each item is that of a unit, in order. -/
private theorem items_pushUnits (relative : String) (us : List MarkdownUnit) (p : Parsed) :
    ∃ vs : List MarkdownUnit, vs.Sublist us ∧ (us.foldl (pushUnit relative) p).items =
      p.items ++ vs.map (itemOf relative) ∧
      ∀ u ∈ us, ¬ Unfit (normalizeText u.body) → u ∈ vs := by
  induction us generalizing p with
  | nil => exact ⟨[], .slnil, (List.append_nil _).symm, fun u hu => by cases hu⟩
  | cons u us ih =>
    obtain ⟨vs, hsub, hitems, hall⟩ := ih (pushUnit relative p u)
    rw [List.foldl_cons, hitems]
    rcases pushUnit_cases relative p u with ⟨hunfit, hpush⟩ | ⟨hfit, hpush⟩
    · refine ⟨vs, hsub.cons u, by rw [hpush], fun v hv hv' => ?_⟩
      rcases List.mem_cons.mp hv with rfl | hv
      · exact absurd hunfit hv'
      · exact hall v hv hv'
    · refine ⟨u :: vs, hsub.cons_cons u, by rw [hpush]; simp, fun v hv hv' => ?_⟩
      rcases List.mem_cons.mp hv with rfl | hv
      · exact List.mem_cons_self
      · exact List.mem_cons_of_mem _ (hall v hv hv')

/-! ## Source references -/

private theorem starts_sublist {us : List MarkdownUnit} (h : ∀ u ∈ us, u.lines ≠ []) :
    (us.map MarkdownUnit.start).Sublist ((us.flatMap MarkdownUnit.numbered).map Prod.snd) := by
  induction us with
  | nil => exact .slnil
  | cons u us ih =>
    obtain ⟨raw, raws, hlines⟩ := List.exists_cons_of_ne_nil (h u List.mem_cons_self)
    have hfirst : u.numbered.map Prod.snd =
        u.start :: (raws.zipIdx (u.start + 1)).map Prod.snd := by
      rw [MarkdownUnit.numbered, hlines, List.zipIdx_cons]
      rfl
    rw [List.map_cons, List.flatMap_cons, List.map_append, hfirst, List.cons_append]
    exact ((ih fun v hv => h v (List.mem_cons_of_mem _ hv)).trans
      (List.sublist_append_right _ _)).cons_cons _

private theorem contentLines_sorted (file : MarkdownFile) :
    ((contentLines file).map Prod.snd).Pairwise (· < ·) := by
  refine List.Pairwise.sublist (List.filter_sublist.map _) ?_
  rw [List.zipIdx_map_snd]
  exact List.pairwise_lt_range'

private theorem sourceRef_injective (relative : String) :
    Function.Injective fun n : Nat => relative ++ ":" ++ toString n := by
  intro m n h
  have hchars := congrArg String.toList h
  simp only [String.toList_append, List.append_assoc] at hchars
  have hdigits : (toString m).toList = (toString n).toList :=
    List.append_cancel_left (List.append_cancel_left hchars)
  have hread : ∀ k : Nat, Nat.ofDigitChars 10 (toString k).toList 0 = k := fun k => by
    rw [Nat.toString_eq_repr, Nat.toList_repr]
    exact Nat.ofDigitChars_toDigits (by decide) (by decide)
  rw [← hread m, hdigits, hread n]

/-- The units of a file, and what the loop makes of them. -/
def unitsOf (file : MarkdownFile) : List MarkdownUnit :=
  unitsFrom (Diff.lines file.contents) 1 none

private theorem parseFile_items {file : MarkdownFile} {p : Parsed} (h : parseFile file = .ok p) :
    p = (unitsOf file).foldl (pushUnit file.relative) {} := by
  have hloop := parseLines_eq_foldl file.relative (Diff.lines file.contents) 1 none
    (fun u hu => by cases hu) {}
  unfold parseFile at h
  dsimp only at h
  split at h
  · cases h
  · split at h
    · cases h
    · exact (Except.ok.inj h).symm.trans hloop

private theorem numbered_unitsOf (file : MarkdownFile) :
    (unitsOf file).flatMap MarkdownUnit.numbered = contentLines file :=
  numbered_unitsFrom _ 1 none fun u hu => by cases hu

private theorem isBlock_unitsOf (file : MarkdownFile) : ∀ u ∈ unitsOf file, IsBlock u :=
  fun _ => isBlock_of_mem fun u hu => by cases hu

theorem IsBlock.lines_ne_nil {u : MarkdownUnit} (h : IsBlock u) : u.lines ≠ [] := by
  rcases h with hparagraph | ⟨raw, text, hlines, _⟩
  · exact hparagraph.1
  · rw [hlines]
    exact List.cons_ne_nil _ _

/-- The references of a file's items go up with the lines. -/
private theorem increasing_of_parseFile {file : MarkdownFile} {p : Parsed}
    (h : parseFile file = .ok p) :
    ∃ starts : List Nat, starts.Pairwise (· < ·) ∧
      p.items.map ParsedItem.sourceRef = starts.map fun n => file.relative ++ ":" ++ toString n := by
  obtain ⟨vs, hsub, hitems, _⟩ := items_pushUnits file.relative (unitsOf file) {}
  rw [parseFile_items h, hitems]
  refine ⟨vs.map MarkdownUnit.start, ?_, by simp [itemOf, Function.comp_def]⟩
  have hstarts := starts_sublist fun u hu => (isBlock_unitsOf file u hu).lines_ne_nil
  rw [numbered_unitsOf] at hstarts
  exact (contentLines_sorted file).sublist ((hsub.map _).trans hstarts)

private theorem distinct_of_increasing {relative : String} {refs : List String} {starts : List Nat}
    (hsorted : starts.Pairwise (· < ·))
    (hrefs : refs = starts.map fun n => relative ++ ":" ++ toString n) : refs.Nodup := by
  rw [hrefs]
  exact (hsorted.imp fun hlt => Nat.ne_of_lt hlt).map _ fun _ _ hne heq =>
    hne (sourceRef_injective relative heq)

/-! ## Exactly the glued numerals are wrong -/

/-- A list item is a unit of its own. -/
private theorem item_mem_unitsFrom {raws : List String} {line : Nat} {paragraph : Option MarkdownUnit}
    {raw : String} {n : Nat} (hmem : (raw, n) ∈ raws.zipIdx line) (hcontent : isContent raw = true)
    (hitem : (listItem (Text.trim raw)).isSome = true) :
    ⟨n, [raw]⟩ ∈ unitsFrom raws line paragraph := by
  induction raws generalizing line paragraph with
  | nil => cases hmem
  | cons r rest ih =>
    rw [List.zipIdx_cons] at hmem
    rw [unitsFrom]
    rcases List.mem_cons.mp hmem with heq | hmem
    · obtain ⟨rfl, rfl⟩ := Prod.mk.inj heq
      rw [if_neg (by simp [hcontent]), if_pos hitem]
      exact List.mem_append_right _ List.mem_cons_self
    · split
      · exact List.mem_append_right _ (ih hmem)
      · split
        · exact List.mem_append_right _ (List.mem_cons_of_mem _ (ih hmem))
        · exact ih hmem

private theorem isContent_of_glued {raw rest : String} (h : Glued (Text.trim raw) rest) :
    isContent raw = true := by
  obtain ⟨digits, c, cs, hne, hdigits, _, hline, _⟩ := h
  obtain ⟨d, ds, rfl⟩ := List.exists_cons_of_ne_nil hne
  have hd : d.isDigit = true := hdigits d List.mem_cons_self
  have hnonempty : Text.trim raw ≠ "" := fun hempty => by
    rw [hempty] at hline
    cases hline
  have hplain : (Text.trim raw).startsWith "#" = false := by
    rw [String.startsWith_string_eq_false_iff, hline]
    intro hprefix
    have hhead := (List.cons_prefix_cons.mp hprefix).1
    rw [← hhead] at hd
    cases hd
  simp [isContent, hnonempty, hplain]

/-- An item of a list comes from a unit that starts where the item says. -/
theorem Listed.unit_of_mem {relative : String} {us : List MarkdownUnit} {items : List ParsedItem}
    {skipped : Nat} (h : Listed relative us items skipped) {item : ParsedItem}
    (hitem : item ∈ items) : ∃ u ∈ us, Keeps u (Text.splitWhitespace item.text) ∧
      item.sourceRef = relative ++ ":" ++ toString u.start := by
  induction h with
  | nil => cases hitem
  | item keeps _ sourceRef _ _ ih =>
    rcases List.mem_cons.mp hitem with rfl | hitem
    · exact ⟨_, List.mem_cons_self, keeps, sourceRef⟩
    · obtain ⟨u, hu, hkeeps, href⟩ := ih hitem
      exact ⟨u, List.mem_cons_of_mem _ hu, hkeeps, href⟩
  | leftOut _ _ _ ih =>
    obtain ⟨u, hu, hkeeps, href⟩ := ih hitem
    exact ⟨u, List.mem_cons_of_mem _ hu, hkeeps, href⟩

/-- A unit that starts with a glued numeral does not keep the words taken from it. -/
private theorem not_keeps_of_glued {u : MarkdownUnit} {raw rest : String} {raws : List String}
    (hlines : u.lines = raw :: raws) (h : Glued (Text.trim raw) rest) :
    ¬ Keeps u (Text.splitWhitespace rest) := by
  obtain ⟨digits, w, ws, hne, hw, hdigits, hrest, hline⟩ := h.words
  rw [Text.splitWhitespace_trim] at hline
  have hwords : u.words = String.ofList (digits ++ '.' :: w) ::
      (ws ++ raws.flatMap Text.splitWhitespace) := by
    rw [MarkdownUnit.words, hlines, List.flatMap_cons, hline]
    rfl
  rintro (hall | ⟨_, marker, hmarker, hall⟩)
  · rw [hwords, hrest] at hall
    have hfirst := String.ofList_inj.mp (List.cons.inj hall).1
    have hlength := congrArg List.length hfirst
    rw [List.length_append, List.length_cons] at hlength
    omega
  · rw [hwords] at hall
    obtain ⟨hmark, _⟩ := List.cons.inj hall
    obtain ⟨d, ds, rfl⟩ := List.exists_cons_of_ne_nil hne
    have hd : d.isDigit = true := hdigits d List.mem_cons_self
    rcases hmarker with hsign | ⟨digits', _, hdigits', hchars⟩
    · have hplain := (sign_plain hsign).2 d (by
        rw [← hmark, String.toList_ofList]
        exact List.mem_cons_self)
      rw [hd] at hplain
      cases hplain
    · -- the dot of the marker would be the last character, but it stands before `w`
      rw [← hmark, String.toList_ofList] at hchars
      have hdot : (d :: ds) ++ '.' :: w = (d :: ds ++ ['.']) ++ w := by simp
      rw [hdot] at hchars
      have hmem : '.' ∈ digits' := by
        have hinit := congrArg List.dropLast hchars
        rw [List.dropLast_append_of_ne_nil hw, List.dropLast_concat] at hinit
        rw [← hinit]
        simp
      have hno := hdigits' '.' hmem
      cases hno

private theorem mem_lines_of_numbered {file : MarkdownFile} {us : List MarkdownUnit}
    (h : us.flatMap MarkdownUnit.numbered = contentLines file) {u : MarkdownUnit} (hu : u ∈ us)
    {raw : String} {raws : List String} (hlines : u.lines = raw :: raws) :
    (raw, u.start) ∈ (Diff.lines file.contents).zipIdx 1 := by
  have hmem : (raw, u.start) ∈ us.flatMap MarkdownUnit.numbered := by
    refine List.mem_flatMap.mpr ⟨u, hu, ?_⟩
    rw [MarkdownUnit.numbered, hlines, List.zipIdx_cons]
    exact List.mem_cons_self
  rw [h] at hmem
  exact (List.mem_filter.mp hmem).1

private theorem zipIdx_unique {lines : List String} {raw raw' : String} {n : Nat}
    (h : (raw, n) ∈ lines.zipIdx 1) (h' : (raw', n) ∈ lines.zipIdx 1) : raw' = raw := by
  rw [List.mem_zipIdx_iff_le_and_getElem?_sub] at h h'
  exact Option.some.inj (h'.2.symm.trans h.2)

/-- In a faithful partition no line loses the front of a numeral. -/
private theorem long_of_faithful {file : MarkdownFile} {p : Parsed} (h : parseFile file = .ok p)
    (hfaithful : FaithfulItems file p) {raw : String} (hraw : raw ∈ Diff.lines file.contents)
    {rest : String} (hglued : Glued (Text.trim raw) rest) :
    MAX_ITEM_CHARS < (normalizeText rest).toList.length := by
  obtain ⟨us, hnumbered, hne, hlisted⟩ := hfaithful.partition
  by_contra hlong
  have hnum : raw ∈ ((Diff.lines file.contents).zipIdx 1).map Prod.fst := by
    rwa [List.zipIdx_map_fst]
  obtain ⟨⟨raw, n⟩, hmem, rfl⟩ := List.mem_map.mp hnum
  have hitem := listItem_of_glued hglued
  have hunit : (⟨n, [raw]⟩ : MarkdownUnit) ∈ unitsFrom (Diff.lines file.contents) 1 none :=
    item_mem_unitsFrom hmem (isContent_of_glued hglued)
      (Option.isSome_iff_exists.mpr ⟨rest, hitem⟩)
  have hbody : MarkdownUnit.body ⟨n, [raw]⟩ = rest := by
    show (listItem (Text.trim raw)).getD (Text.trim raw) = rest
    rw [hitem]
    rfl
  have hfit : ¬ Unfit (normalizeText (MarkdownUnit.body ⟨n, [raw]⟩)) := by
    rw [hbody]
    rintro (hempty | hover)
    · obtain ⟨_, w, ws, _, _, _, hrest, _⟩ := hglued.words
      have hnone := (Text.join_words_eq_empty fun _ hw => Text.splitWhitespace_of_mem hw).mp hempty
      rw [hrest] at hnone
      cases hnone
    · exact hlong hover
  -- the item of the line would have to be that of a unit which starts at the line
  obtain ⟨vs, _, hitems, hall⟩ := items_pushUnits file.relative (unitsOf file) {}
  have hmemItem : itemOf file.relative ⟨n, [raw]⟩ ∈ p.items := by
    rw [parseFile_items h, hitems]
    exact List.mem_append_right _ (List.mem_map_of_mem (hall _ hunit hfit))
  obtain ⟨u, hu, hkeeps, href⟩ := hlisted.unit_of_mem hmemItem
  obtain hstart : n = u.start := sourceRef_injective file.relative href
  obtain ⟨raw', raws, hlines⟩ := List.exists_cons_of_ne_nil (hne u hu)
  have hfirst := mem_lines_of_numbered hnumbered hu hlines
  rw [← hstart] at hfirst
  obtain rfl := zipIdx_unique hmem hfirst
  have hwords : Text.splitWhitespace (itemOf file.relative ⟨n, [raw']⟩).text =
      Text.splitWhitespace rest := by
    rw [itemOf, hbody]
    exact Text.splitWhitespace_normalize rest
  rw [hwords] at hkeeps
  exact not_keeps_of_glued hlines hglued hkeeps

private theorem faithful_of_long {file : MarkdownFile} {p : Parsed} (h : parseFile file = .ok p)
    (hlong : ∀ raw ∈ Diff.lines file.contents, ∀ rest, Glued (Text.trim raw) rest →
      MAX_ITEM_CHARS < (normalizeText rest).toList.length) : FaithfulItems file p := by
  have hunits : ∀ u ∈ unitsOf file, ∀ raw, u.lines = [raw] → Glued (Text.trim raw) u.body →
      MAX_ITEM_CHARS < (normalizeText u.body).toList.length := by
    intro u hu raw hlines hglued
    have hmem := mem_lines_of_numbered (numbered_unitsOf file) hu hlines
    have hraw := List.mem_map_of_mem (f := Prod.fst) hmem
    rw [List.zipIdx_map_fst] at hraw
    exact hlong raw hraw u.body hglued
  obtain ⟨items, skipped, hrun, hlisted⟩ :=
    listed_pushUnits file.relative (isBlock_unitsOf file) hunits {}
  obtain ⟨starts, hsorted, hrefs⟩ := increasing_of_parseFile h
  refine ⟨⟨unitsOf file, numbered_unitsOf file,
    fun u hu => (isBlock_unitsOf file u hu).lines_ne_nil, ?_⟩, ⟨starts, hsorted, hrefs⟩,
    distinct_of_increasing hsorted hrefs⟩
  rw [parseFile_items h, hrun]
  simpa using hlisted

/-- The items of a file that is accepted are a faithful partition of its lines exactly when every
line that begins with digits, a dot and no space is left out for the length of what follows the
dot. -/
theorem items_faithful_iff {file : MarkdownFile} {p : Parsed} (h : parseFile file = .ok p) :
    FaithfulItems file p ↔ ∀ raw ∈ Diff.lines file.contents, ∀ rest,
      Glued (Text.trim raw) rest → MAX_ITEM_CHARS < (normalizeText rest).toList.length :=
  ⟨fun hfaithful _ hraw _ hglued => long_of_faithful h hfaithful hraw hglued, faithful_of_long h⟩

def sampleFile : MarkdownFile :=
  ⟨"notes/MEMORY.md", "MEMORY.md", "# sky\n\n- it is  blue\n12. it is wide\nand\nhigh\n"⟩

theorem items_faithful_sample : ∃ p, parseFile sampleFile = .ok p ∧
    p.items.map ParsedItem.text = ["it is blue", "it is wide", "and high"] ∧
    FaithfulItems sampleFile p := by
  have h : parseFile sampleFile = .ok ⟨[⟨"it is blue", "MEMORY.md:3", false⟩,
      ⟨"it is wide", "MEMORY.md:4", false⟩, ⟨"and high", "MEMORY.md:5", false⟩], 0⟩ := by
    decide +kernel
  -- the one numeral with a dot has a space after the dot
  have hspaced : ∀ raw ∈ Diff.lines sampleFile.contents,
      ((Text.trim raw).toList.dropWhile Char.isDigit).head? = some '.' →
        Text.isSpace (((Text.trim raw).toList.dropWhile Char.isDigit).getD 1 ' ') = true := by
    decide +kernel
  refine ⟨_, h, rfl, (items_faithful_iff h).mpr fun raw hraw rest hglued => ?_⟩
  obtain ⟨digits, c, cs, -, hdigits, hc, hline, -⟩ := hglued
  have hdrop : (Text.trim raw).toList.dropWhile Char.isDigit = '.' :: c :: cs := by
    rw [hline, List.dropWhile_append_of_pos hdigits]
    rfl
  have hspace := hspaced raw hraw (by rw [hdrop]; rfl)
  rw [hdrop] at hspace
  exact absurd (hc.symm.trans hspace) Bool.false_ne_true

/-- A number at the start of a line loses its front. -/
theorem numeral_loses_front : ∃ p,
    parseFile ⟨"notes/MEMORY.md", "MEMORY.md", "3.14 is pi\n"⟩ = .ok p ∧
    p.items.map ParsedItem.text = ["14 is pi"] ∧
    ¬ FaithfulItems ⟨"notes/MEMORY.md", "MEMORY.md", "3.14 is pi\n"⟩ p := by
  have h : parseFile ⟨"notes/MEMORY.md", "MEMORY.md", "3.14 is pi\n"⟩ =
      .ok ⟨[⟨"14 is pi", "MEMORY.md:1", false⟩], 0⟩ := by decide +kernel
  refine ⟨_, h, rfl, fun hfaithful => ?_⟩
  have hraw : "3.14 is pi" ∈ Diff.lines "3.14 is pi\n" := by decide +kernel
  have hglued : Glued (Text.trim "3.14 is pi") "14 is pi" :=
    ⟨['3'], '1', "4 is pi".toList, by simp, by simp, by decide, by decide +kernel, rfl⟩
  have hlong := long_of_faithful h hfaithful hraw hglued
  exact absurd hlong (by decide +kernel)

end AgosMemory.Ingest
