import AgosMemory.Memory.Extract
import AgosMemory.Memory.RedactFixpoint

/-!
# Secrets in the extraction prompt

A traced text says of each character which occurrence it is a copy of: the turn and the position in
its content, or none for a character that the program writes itself. The traced versions of `redact`
and of the prompt erase to the functions of the code.
-/

namespace AgosMemory.Extract

open Library Library.Regex Redact

/-- A character with the turn and the position it was copied from. -/
abbrev Traced := Char × Option (Nat × Nat)

/-- Characters that the program writes. -/
def written (s : String) : List Traced := s.toList.map fun c => (c, none)

/-- The content of turn `i`. -/
def occurrences (i : Nat) (content : String) : List Traced :=
  content.toList.zipIdx.map fun p => (p.1, some (i, p.2))

def erase (text : List Traced) : List Char := text.map Prod.fst

/-! ## Redaction -/

/-- One pass. -/
def tracedPass (p : Regex Char × Replacement) (text : List Traced) : List Traced :=
  replaceAll (p.1.comap Prod.fst) (p.2.expand fun c => (c, none)) text

def tracedRedact (text : List Traced) : List Traced :=
  patterns.foldl (fun out p => tracedPass p out) text

private theorem erase_tracedPass (p : Regex Char × Replacement) (text : List Traced) :
    erase (tracedPass p text) = replaceAll p.1 (p.2.expand id) (erase text) := by
  refine replaceAll_comap Prod.fst p.1 (fun m => ?_) text
  unfold Replacement.expand
  rw [List.map_append, List.map_map, apply_ite (List.map Prod.fst), List.map_nil]
  congr 1
  cases hm : m.group <;> simp [Match.map, hm]

private theorem erase_tracedRedact (text : List Traced) :
    erase (tracedRedact text) = redactChars (erase text) := by
  unfold tracedRedact redactChars
  generalize patterns = ps
  induction ps generalizing text with
  | nil => rfl
  | cons p ps ih => rw [List.foldl_cons, List.foldl_cons, ih, erase_tracedPass]

/-! ## The prompt -/

def tracedLine (p : Turn × Nat) : List Traced :=
  written ((if p.1.role = "tool" then "[untrusted-tool-data] " else "") ++ "#" ++
    toString p.1.seq ++ " " ++ p.1.role ++ ": ") ++ occurrences p.2 p.1.content ++ written "\n"

/-- The turns of a prompt, numbered as in the list they are taken from. -/
def numbered (turns : List Turn) : List (Turn × Nat) :=
  (prompted turns).zipIdx (turns.length - 50)

def tracedPrompt (turns : List Turn) : List Traced :=
  written promptHeader ++ (numbered turns).flatMap tracedLine

private theorem erase_written (s : String) : erase (written s) = s.toList := by
  simp [erase, written, Function.comp_def]

private theorem erase_occurrences (i : Nat) (content : String) :
    erase (occurrences i content) = content.toList := by
  simp [erase, occurrences, Function.comp_def]

private theorem erase_append (a b : List Traced) :
    erase (a ++ b) = erase a ++ erase b := List.map_append

private theorem erase_tracedLine (p : Turn × Nat) :
    erase (tracedLine p) = (promptLine p.1).toList := by
  unfold tracedLine promptLine
  rw [erase_append, erase_append, erase_written, erase_occurrences, erase_written]
  simp only [String.toList_append]

theorem toList_join (xs : List String) : (String.join xs).toList = xs.flatMap String.toList := by
  induction xs with
  | nil => rfl
  | cons x xs ih => rw [String.join_cons, String.toList_append, ih, List.flatMap_cons]

private theorem erase_tracedPrompt (turns : List Turn) :
    erase (tracedPrompt turns) = (buildPrompt turns).toList := by
  have hlines : ∀ (ts : List Turn) (n : Nat),
      erase ((ts.zipIdx n).flatMap tracedLine) = (ts.map promptLine).flatMap String.toList := by
    intro ts
    induction ts with
    | nil => exact fun n => rfl
    | cons t ts ih =>
      intro n
      rw [List.zipIdx_cons, List.flatMap_cons, erase_append, erase_tracedLine, ih, List.map_cons,
        List.flatMap_cons]
  unfold tracedPrompt buildPrompt numbered
  rw [erase_append, erase_written, hlines, String.toList_append, toList_join, promptLines_eq_map]
  rfl

/-! ## What redaction removes -/

/-- The character is a copy. -/
def copied (x : Traced) : Bool := x.2.isSome

/-- A match loses at least one of its characters. -/
structure Drops (p : Regex Char × Replacement) : Prop where
  consuming : Consuming p.1
  group : p.2.firstGroup = true → ∀ s m, matchHere p.1 s = some m →
    (m.group.getD []).length < m.text.length

private theorem drops_patterns : ∀ p ∈ patterns, Drops p := by
  intro p hp
  simp only [patterns, List.mem_cons, List.not_mem_nil, or_false] at hp
  rcases hp with rfl | rfl | rfl | rfl
  · exact ⟨consuming_openAiKey, fun h => by cases h⟩
  · exact ⟨consuming_bearerToken, fun h => by cases h⟩
  · exact ⟨consuming_pemBlock, fun h => by cases h⟩
  · refine ⟨consuming_labelledValue, fun _ s m hm => ?_⟩
    obtain ⟨l, a, c, b, v, htext, hgroup, _⟩ := labelledValue_match hm
    rw [htext, hgroup, Option.getD_some, List.length_append, List.length_append, List.length_cons]
    omega

section

variable {p : Regex Char × Replacement} {s : List Traced} {m : Match Traced}

private theorem expand_copied (p : Regex Char × Replacement) (m : Match Traced) :
    (p.2.expand (fun c => (c, none)) m).filter copied =
      (if p.2.firstGroup then m.group.getD [] else []).filter copied := by
  have hwritten : ((p.2.text.toList.map fun c => ((c, none) : Traced)).filter copied) = [] := by
    rw [List.filter_eq_nil_iff]
    intro x hx
    obtain ⟨c, _, rfl⟩ := List.mem_map.mp hx
    exact Bool.false_ne_true
  rw [Replacement.expand, List.filter_append, hwritten, List.append_nil]

private theorem expand_sublist (hm : matchHere (p.1.comap Prod.fst) s = some m) :
    ((p.2.expand (fun c => (c, none)) m).filter copied).Sublist (m.text.filter copied) := by
  rw [expand_copied]
  refine List.Sublist.filter copied ?_
  split
  · cases hgroup : m.group with
    | none => exact List.nil_sublist _
    | some g => exact (infix_of_group (List.mem_of_mem_head? hm) hgroup).sublist
  · exact List.nil_sublist _

private theorem expand_length_lt (hp : Drops p) (hm : matchHere (p.1.comap Prod.fst) s = some m) :
    ((p.2.expand (fun c => (c, none)) m).filter copied).length < m.text.length := by
  rw [expand_copied]
  refine (List.length_filter_le _ _).trans_lt ?_
  split
  · next hfirst =>
    have hmap : matchHere p.1 (s.map Prod.fst) = some (m.map Prod.fst) := by
      rw [matchHere_comap, hm, Option.map_some]
    have hlt := hp.group hfirst _ _ hmap
    rw [Match.map, List.length_map] at hlt
    cases hgroup : m.group with
    | none =>
      rw [hgroup] at hlt
      exact hlt
    | some g =>
      rw [hgroup, Option.map_some, Option.getD_some, List.length_map] at hlt
      exact hlt
  · refine List.length_pos_iff.mpr fun hnil => ?_
    exact hp.consuming.comap Prod.fst (hnil ▸ (matchHere_sound hm).2)

private theorem tracedPass_sublist (hp : Drops p) (s : List Traced) :
    ((tracedPass p s).filter copied).Sublist (s.filter copied) :=
  (scan_scanned (hp.consuming.comap Prod.fst) s).filter_sublist fun _ _ hm => expand_sublist hm

private theorem tracedPass_length_lt (hp : Drops p) (hs : ∀ x ∈ s, copied x = true)
    (hmatch : ¬ Avoids p.1 (erase s)) : ((tracedPass p s).filter copied).length < s.length :=
  (scan_scanned (hp.consuming.comap Prod.fst) s).filter_length_lt (hp.consuming.comap Prod.fst)
    (fun _ _ hm => expand_sublist hm) (fun _ _ hm => expand_length_lt hp hm) hs
    fun ha => hmatch ((avoids_comap Prod.fst).mp ha)

private theorem tracedPass_of_avoids (h : Avoids p.1 (erase s)) : tracedPass p s = s :=
  replaceAll_of_avoids _ ((avoids_comap Prod.fst).mpr h)

/-- The passes lose a character of a text exactly when one of the patterns matches in it. -/
private theorem passes_lose_iff (ps : List (Regex Char × Replacement)) (hps : ∀ p ∈ ps, Drops p)
    (hs : ∀ x ∈ s, copied x = true) (hnodup : s.Nodup) :
    (∃ x ∈ s, x ∉ ps.foldl (fun out p => tracedPass p out) s) ↔
      ∃ p ∈ ps, ¬ Avoids p.1 (erase s) := by
  induction ps with
  | nil =>
    refine iff_of_false ?_ ?_
    · rintro ⟨x, hx, hlost⟩
      exact hlost hx
    · rintro ⟨p, hp, _⟩
      cases hp
  | cons p ps ih =>
    have hp := hps p List.mem_cons_self
    have htail := ih fun p' hp' => hps p' (List.mem_cons_of_mem _ hp')
    rw [List.foldl_cons, List.exists_mem_cons_iff]
    by_cases h : Avoids p.1 (erase s)
    · rw [tracedPass_of_avoids h, htail]
      exact ⟨.inr, fun hor => hor.resolve_left fun hno => hno h⟩
    · refine iff_of_true ?_ (.inl h)
      -- the pass comes out shorter, and the passes after it copy nothing back
      have hrest : ∀ (ps : List (Regex Char × Replacement)) (t : List Traced),
          (∀ p ∈ ps, Drops p) →
            ((ps.foldl (fun out p => tracedPass p out) t).filter copied).Sublist (t.filter copied) := by
        intro ps
        induction ps with
        | nil => exact fun t _ => List.Sublist.refl _
        | cons p ps ih =>
          intro t h
          exact (ih _ fun p' hp' => h p' (List.mem_cons_of_mem _ hp')).trans
            (tracedPass_sublist (h p List.mem_cons_self) t)
      have hlen := (hrest ps (tracedPass p s) fun p' hp' =>
        hps p' (List.mem_cons_of_mem _ hp')).length_le
      have hlt := tracedPass_length_lt hp hs h
      by_contra hall
      have hsub : s ⊆ (ps.foldl (fun out p => tracedPass p out) (tracedPass p s)).filter copied :=
        fun x hx => List.mem_filter.mpr ⟨by_contra fun hlost => hall ⟨x, hx, hlost⟩, hs x hx⟩
      have hle := (List.subperm_of_subset hnodup hsub).length_le
      omega

end

private theorem occurrences_copied {i : Nat} {content : String} :
    ∀ x ∈ occurrences i content, copied x = true := by
  intro x hx
  obtain ⟨p, _, rfl⟩ := List.mem_map.mp hx
  rfl

private theorem occurrences_nodup (i : Nat) (content : String) : (occurrences i content).Nodup := by
  have hpositions : ((occurrences i content).map fun x => (x.2.map Prod.snd).getD 0).Nodup := by
    simp only [occurrences, List.map_map, Function.comp_def, Option.map_some, Option.getD_some]
    rw [List.zipIdx_map_snd]
    exact List.nodup_range' ..
  exact hpositions.of_map _

/-- Redaction removes a character of a content exactly when a pattern is found in it. -/
private theorem redact_removes_iff (i : Nat) (content : String) :
    (∃ x ∈ occurrences i content, x ∉ tracedRedact (occurrences i content)) ↔
      ∃ p ∈ patterns, findAt p.1 content.toList 0 ≠ none := by
  rw [tracedRedact, passes_lose_iff patterns drops_patterns occurrences_copied
    (occurrences_nodup i content), erase_occurrences]
  exact exists_congr fun p => and_congr_right fun _ => not_congr findAt_eq_none_iff.symm

/-! ## What the prompt copies -/

private theorem fitting_prefix (used : Nat) (turns : List Turn) : fitting used turns <+: turns := by
  induction turns generalizing used with
  | nil => exact List.prefix_refl _
  | cons t turns ih =>
    rw [fitting]
    split
    · exact List.nil_prefix
    · exact List.cons_prefix_cons.mpr ⟨rfl, ih _⟩

/-- A numbered turn of the prompt has the number it has in the whole list. -/
private theorem numbered_subset {turns : List Turn} {p : Turn × Nat} (h : p ∈ numbered turns) :
    p ∈ turns.zipIdx ∧ p.1 ∈ prompted turns := by
  obtain ⟨hle, hget⟩ := List.mem_zipIdx_iff_le_and_getElem?_sub.mp h
  refine ⟨List.mem_zipIdx_iff_getElem?.mpr ?_, List.mem_of_getElem? hget⟩
  obtain ⟨rest, hrest⟩ : prompted turns <+: recent turns := fitting_prefix 0 (recent turns)
  have hrecent : (recent turns)[p.2 - (turns.length - 50)]? = some p.1 := by
    rw [← hrest, List.getElem?_append_left (List.getElem?_eq_some_iff.mp hget).1]
    exact hget
  rw [recent, List.getElem?_drop] at hrecent
  rwa [Nat.add_sub_cancel' hle] at hrecent

private theorem mem_tracedLine {p : Turn × Nat} {c : Char} {o : Nat × Nat} :
    (c, some o) ∈ tracedLine p ↔ (c, some o) ∈ occurrences p.2 p.1.content := by
  have hwritten : ∀ s, (c, some o) ∉ written s := by
    intro s h
    obtain ⟨_, _, heq⟩ := List.mem_map.mp h
    cases heq
  unfold tracedLine
  rw [List.mem_append, List.mem_append]
  exact ⟨fun h => (h.resolve_right (hwritten _)).resolve_left (hwritten _),
    fun h => .inl (.inr h)⟩

private theorem mem_tracedPrompt {turns : List Turn} {c : Char} {o : Nat × Nat} :
    (c, some o) ∈ tracedPrompt turns ↔
      ∃ p ∈ numbered turns, (c, some o) ∈ occurrences p.2 p.1.content := by
  have hheader : (c, some o) ∉ written promptHeader := by
    intro h
    obtain ⟨_, _, heq⟩ := List.mem_map.mp h
    cases heq
  unfold tracedPrompt
  rw [List.mem_append, List.mem_flatMap]
  constructor
  · intro h
    obtain ⟨p, hp, hmem⟩ := h.resolve_left hheader
    exact ⟨p, hp, mem_tracedLine.mp hmem⟩
  · exact fun ⟨p, hp, hmem⟩ => .inr ⟨p, hp, mem_tracedLine.mpr hmem⟩

private theorem erase_tracedOccurrences (i : Nat) (content : String) :
    erase (tracedRedact (occurrences i content)) = (redact content).toList := by
  rw [erase_tracedRedact, erase_occurrences, redact, String.toList_ofList]

/-- No character occurrence that redaction removes from a content is copied into the prompt. -/
def PromptRedacted (turns : List Turn) : Prop :=
  ∀ p ∈ turns.zipIdx, ∀ x ∈ occurrences p.2 p.1.content,
    x ∉ tracedRedact (occurrences p.2 p.1.content) → x ∉ tracedPrompt turns

/-- The traced prompt is the prompt and a traced redaction the redaction, and the prompt copies no removed
character exactly when none of the patterns is found in the content of a turn whose line is in it. -/
theorem promptRedacted_iff (turns : List Turn) :
    erase (tracedPrompt turns) = (buildPrompt turns).toList ∧
      (∀ p ∈ turns.zipIdx, erase (tracedRedact (occurrences p.2 p.1.content)) =
        (redact p.1.content).toList) ∧
      (PromptRedacted turns ↔
        ∀ t ∈ prompted turns, ∀ p ∈ patterns, findAt p.1 t.content.toList 0 = none) := by
  refine ⟨erase_tracedPrompt turns, fun p _ => erase_tracedOccurrences p.2 p.1.content, ?_⟩
  constructor
  · intro h t ht p hp
    by_contra hfound
    obtain ⟨k, hk⟩ := List.mem_iff_getElem?.mp ht
    have hnumbered : (t, (turns.length - 50) + k) ∈ numbered turns :=
      List.mk_add_mem_zipIdx_iff_getElem?.mpr hk
    obtain ⟨x, hx, hlost⟩ := (redact_removes_iff ((turns.length - 50) + k) t.content).mpr
      ⟨p, hp, hfound⟩
    refine h _ (numbered_subset hnumbered).1 x hx hlost ?_
    obtain ⟨q, _, rfl⟩ := List.mem_map.mp hx
    exact mem_tracedPrompt.mpr ⟨_, hnumbered, hx⟩
  · intro h p hp x hx hlost hprompt
    obtain ⟨q, _, rfl⟩ := List.mem_map.mp hx
    obtain ⟨p', hp', hx'⟩ := mem_tracedPrompt.mp hprompt
    -- the occurrence says which turn it belongs to
    obtain ⟨q', _, heq⟩ := List.mem_map.mp hx'
    have hindex : p'.2 = p.2 := by
      have ho := Option.some.inj (Prod.mk.inj heq).2
      exact (Prod.mk.inj ho).1
    obtain ⟨hall, hprompted⟩ := numbered_subset hp'
    have hget := List.mem_zipIdx_iff_getElem?.mp hall
    rw [hindex, List.mem_zipIdx_iff_getElem?.mp hp] at hget
    obtain ⟨pat, hpat, hfound⟩ := (redact_removes_iff p.2 p.1.content).mp ⟨_, hx, hlost⟩
    exact hfound (h p.1 (Option.some.inj hget ▸ hprompted) pat hpat)

/-- A password that a user typed. -/
theorem password_in_prompt : ¬ ∀ turns, PromptRedacted turns := by
  intro h
  have hcontent : ('h', some (0, 9)) ∈ occurrences 0 "password=hunter2" := by decide +kernel
  have hclean := h [⟨1, 1, "user", "password=hunter2", "", 0⟩] _ (List.mem_singleton_self _)
    ('h', some (0, 9)) hcontent (by decide +kernel)
  exact hclean (mem_tracedPrompt.mpr ⟨(⟨1, 1, "user", "password=hunter2", "", 0⟩, 0),
    by decide +kernel, hcontent⟩)

end AgosMemory.Extract
