import AgosMemory.Memory.Redact

/-!
# Redacted text is a fixed point

The first three passes write a marker that can neither start nor extend a match of an earlier
pattern, so the output of the last pass avoids all three. The last pass rewrites each of its own
outputs to itself.
-/

namespace AgosMemory.Redact

open Library Library.Regex Text

/-! ## The words of the patterns -/

private theorem lang_literal {cs w : List Char} : Lang (literal cs) w ↔ w = cs := by
  induction cs generalizing w with
  | nil => rfl
  | cons c cs ih =>
    simp only [literal, Lang, ih]
    constructor
    · rintro ⟨u, v, rfl, ⟨d, hd, rfl⟩, rfl⟩
      simp [beq_iff_eq.mp hd]
    · rintro rfl
      exact ⟨[c], cs, rfl, ⟨c, by simp, rfl⟩, rfl⟩

private theorem lang_foldedLiteral {cs w : List Char} :
    Lang (foldedLiteral cs) w ↔ w.map fold = cs := by
  induction cs generalizing w with
  | nil => simp [foldedLiteral, Lang]
  | cons c cs ih =>
    simp only [foldedLiteral, Lang, ih]
    constructor
    · rintro ⟨u, v, rfl, ⟨d, hd, rfl⟩, rfl⟩
      simp [beq_iff_eq.mp hd]
    · intro h
      cases w with
      | nil => simp at h
      | cons d w =>
        obtain ⟨hd, hw⟩ := List.cons.inj h
        exact ⟨[d], w, rfl, ⟨d, by simp [hd], rfl⟩, hw⟩

private theorem lang_openAiKey {w : List Char} :
    Lang openAiKey w ↔ ∃ k, w = "sk-".toList ++ k ∧ 8 ≤ k.length ∧ ∀ c ∈ k, isKeyChar c = true := by
  simp only [openAiKey, Lang, lang_literal]
  constructor
  · rintro ⟨u, k, rfl, rfl, h⟩
    exact ⟨k, rfl, h⟩
  · rintro ⟨k, rfl, h⟩
    exact ⟨_, k, rfl, rfl, h⟩

private theorem lang_bearerToken {w : List Char} :
    Lang bearerToken w ↔ ∃ b a k, w = b ++ a ++ k ∧ b.map fold = "bearer".toList ∧
      (1 ≤ a.length ∧ ∀ c ∈ a, isSpace c = true) ∧
      4 ≤ k.length ∧ ∀ c ∈ k, isTokenChar c = true := by
  simp only [bearerToken, bearerLead, Lang, lang_foldedLiteral]
  constructor
  · rintro ⟨_, k, rfl, ⟨b, a, rfl, hb, ha⟩, hk⟩
    exact ⟨b, a, k, rfl, hb, ha, hk⟩
  · rintro ⟨b, a, k, rfl, hb, ha, hk⟩
    exact ⟨_, k, rfl, ⟨b, a, rfl, hb, ha⟩, hk⟩

private theorem lang_pemBoundary {word : String} {w : List Char} :
    Lang (pemBoundary word) w ↔ ∃ a, w = word.toList ++ (a ++ "PRIVATE KEY-----".toList) ∧
      ∀ c ∈ a, isPemLabelChar c = true := by
  simp only [pemBoundary, Lang, lang_literal, Nat.zero_le, true_and]
  constructor
  · rintro ⟨_, _, rfl, rfl, a, _, rfl, ha, rfl⟩
    exact ⟨a, rfl, ha⟩
  · rintro ⟨a, rfl, ha⟩
    exact ⟨_, _, rfl, rfl, a, _, rfl, ha, rfl⟩

private theorem lang_pemBlock {w : List Char} :
    Lang pemBlock w ↔ ∃ u x v, w = u ++ x ++ v ∧ Lang (pemBoundary "-----BEGIN ") u ∧
      Lang (pemBoundary "-----END ") v := by
  simp only [pemBlock, Lang, Nat.zero_le, true_and, implies_true]
  constructor
  · rintro ⟨u, _, rfl, hu, x, v, rfl, hv⟩
    exact ⟨u, x, v, by simp, hu, hv⟩
  · rintro ⟨u, x, v, rfl, hu, hv⟩
    exact ⟨u, x ++ v, by simp, hu, x, v, rfl, hv⟩

/-- The labels of a pair after case folding. -/
def labels : List (List Char) :=
  ["password".toList, "passwd".toList, "secret".toList, "apikey".toList, "api_key".toList,
    "api-key".toList]

private theorem lang_label {w : List Char} : Lang label w → w.map fold ∈ labels := by
  simp only [label, Lang, lang_foldedLiteral]
  rintro (h | h | h | ⟨u, _, rfl, hu, x, v, rfl, hx, hv⟩)
  · rw [h]; decide
  · rw [h]; decide
  · rw [h]; decide
  · rw [List.map_append, List.map_append, hu, hv]
    rcases hx with ⟨c, hc, rfl⟩ | rfl
    · simp only [Bool.or_eq_true, beq_iff_eq] at hc
      rcases hc with rfl | rfl <;> decide
    · decide

/-- The characters that occur in folded labels. -/
def labelChars : List Char := "abcdefghijklmnopqrstuvwxyz_-".toList

private theorem label_char {l : List Char} (hl : Lang label l) {c : Char} (hc : c ∈ l) :
    fold c ∈ labelChars := by
  have hall : ∀ d ∈ labels.flatten, d ∈ labelChars := forall_of_all (by decide)
  exact hall _ (List.mem_flatten_of_mem (lang_label hl) (List.mem_map_of_mem hc))

/-- No white space, separator or bracket folds to a character of a label. -/
private theorem label_char_plain {l : List Char} (hl : Lang label l) {c : Char} (hc : c ∈ l) :
    isSpace c = false ∧ isSeparator c = false ∧ c ≠ '[' ∧ c ≠ ']' := by
  have hfold := label_char hl hc
  have hspace : ∀ d ∈ spaces, fold d ∉ labelChars := forall_of_all (by decide)
  refine ⟨?_, ?_, ?_, ?_⟩
  · by_contra h
    exact hspace c (by simpa [isSpace] using h) hfold
  · by_contra h
    simp only [isSeparator, Bool.or_eq_false_iff, not_and_or, Bool.not_eq_false,
      beq_iff_eq] at h
    rcases h with rfl | rfl <;> exact absurd hfold (by decide)
  · rintro rfl; exact absurd hfold (by decide)
  · rintro rfl; exact absurd hfold (by decide)

private theorem label_length {l : List Char} (hl : Lang label l) : 6 ≤ l.length := by
  have hall : ∀ f ∈ labels, 6 ≤ f.length := by decide
  simpa using hall _ (lang_label hl)

private theorem eq_of_prefix_map {l l' : List Char} (h : l' <+: l)
    (hf : l'.map fold = l.map fold) : l' = l :=
  h.eq_of_length (by simpa using congrArg List.length hf)

/-- Two labels at the same place are one label. -/
private theorem label_prefix_unique {l l' t : List Char} (hl : Lang label l) (hl' : Lang label l')
    (h : l <+: t) (h' : l' <+: t) : l = l' := by
  have hall : ∀ f ∈ labels, ∀ g ∈ labels, f <+: g → f = g := by decide
  rcases List.prefix_or_prefix_of_prefix h h' with hp | hp
  · exact eq_of_prefix_map hp (hall _ (lang_label hl) _ (lang_label hl') (hp.map fold))
  · exact (eq_of_prefix_map hp (hall _ (lang_label hl') _ (lang_label hl) (hp.map fold))).symm

/-- No label ends with a shorter label. -/
private theorem label_suffix_unique {u l l' : List Char} (hl : Lang label l) (hl' : Lang label l')
    (h : l = u ++ l') : u = [] := by
  have hall : ∀ f ∈ labels, ∀ g ∈ labels, g <:+ f → g = f := by decide
  have hsuf : l'.map fold <:+ l.map fold := ⟨u.map fold, by rw [h, List.map_append]⟩
  have hlen := congrArg List.length (hall _ (lang_label hl) _ (lang_label hl') hsuf)
  rw [h] at hlen
  simp only [List.length_map, List.length_append] at hlen
  exact List.length_eq_zero_iff.mp (by omega)

/-! ## The first three passes -/

/-- The two markers, split at their brackets. -/
private theorem marker_split :
    "[REDACTED]".toList = [] ++ '[' :: ("REDACTED".toList ++ [']']) := by decide

private theorem pair_marker_split :
    "=[REDACTED]".toList = ['='] ++ '[' :: ("REDACTED".toList ++ [']']) := by decide

private theorem openAiKey_plain {w : List Char} (h : Lang openAiKey w) {c : Char} (hc : c ∈ w) :
    c ≠ '[' ∧ c ≠ '=' := by
  obtain ⟨k, rfl, _, hk⟩ := lang_openAiKey.mp h
  have hlead : ∀ d ∈ "sk-".toList, d ≠ '[' ∧ d ≠ '=' := forall_of_all (by decide)
  rcases List.mem_append.mp hc with hc | hc
  · exact hlead c hc
  · refine ⟨?_, ?_⟩ <;> rintro rfl <;> exact absurd (hk _ hc) (by decide)

private theorem openAiKey_head {w : List Char} (h : Lang openAiKey w) : w.head? = some 's' := by
  obtain ⟨k, rfl, _⟩ := lang_openAiKey.mp h
  rfl

private theorem inert_openAiKey_marker : Inert openAiKey "[REDACTED]".toList where
  head w h := ⟨'s', openAiKey_head h, by decide⟩
  reflects s o w hm hw h := by
    rw [marker_split] at hm
    exact ⟨w, hm.front hw (fun hc => (openAiKey_plain h hc).1 rfl) (by simp), h⟩

private theorem inert_openAiKey_pair : Inert openAiKey "=[REDACTED]".toList where
  head w h := ⟨'s', openAiKey_head h, by decide⟩
  reflects s o w hm hw h := by
    rw [pair_marker_split] at hm
    refine ⟨w, hm.front hw (fun hc => (openAiKey_plain h hc).1 rfl) ?_, h⟩
    intro c hc
    simpa using (openAiKey_plain h hc).2

/-- No character of a bearer match is a bracket, and the first one folds to `b`. -/
private theorem bearerToken_plain {w : List Char} (h : Lang bearerToken w) :
    '[' ∉ w ∧ ∃ c, w.head? = some c ∧ fold c = 'b' := by
  obtain ⟨b, a, k, rfl, hb, ⟨_, ha⟩, _, hk⟩ := lang_bearerToken.mp h
  constructor
  · intro hc
    rcases List.mem_append.mp hc with hc | hc
    · rcases List.mem_append.mp hc with hc | hc
      · have hmem := List.mem_map_of_mem (f := fold) hc
        rw [hb] at hmem
        exact absurd hmem (by decide)
      · exact absurd (ha _ hc) (by decide)
    · exact absurd (hk _ hc) (by decide)
  · cases b with
    | nil => simp at hb
    | cons c b => exact ⟨c, rfl, (List.cons.inj hb).1⟩

private theorem inert_bearerToken_marker : Inert bearerToken "[REDACTED]".toList where
  head w h := by
    obtain ⟨_, c, hc, hf⟩ := bearerToken_plain h
    refine ⟨c, hc, fun hmem => ?_⟩
    have hall : ∀ d ∈ "[REDACTED]".toList, fold d ≠ 'b' := forall_of_all (by decide)
    exact hall c hmem hf
  reflects s o w hm hw h := by
    rw [marker_split] at hm
    exact ⟨w, hm.front hw (bearerToken_plain h).1 (by simp), h⟩

private theorem pemBoundary_plain {word : String} {w : List Char} (h : Lang (pemBoundary word) w)
    (hword : ∀ c ∈ word.toList, c ≠ '[' ∧ c ≠ ']' ∧ c ≠ '=') {c : Char} (hc : c ∈ w) :
    c ≠ '[' ∧ c ≠ ']' ∧ c ≠ '=' := by
  obtain ⟨a, rfl, ha⟩ := lang_pemBoundary.mp h
  have hkey : ∀ d ∈ "PRIVATE KEY-----".toList, d ≠ '[' ∧ d ≠ ']' ∧ d ≠ '=' := forall_of_all (by decide)
  rcases List.mem_append.mp hc with hc | hc
  · exact hword c hc
  · rcases List.mem_append.mp hc with hc | hc
    · refine ⟨?_, ?_, ?_⟩ <;> rintro rfl <;> exact absurd (ha _ hc) (by decide)
    · exact hkey c hc

private theorem dash_mem_pemBoundary {word : String} {w : List Char} (h : Lang (pemBoundary word) w) :
    '-' ∈ w := by
  obtain ⟨a, rfl, _⟩ := lang_pemBoundary.mp h
  exact List.mem_append_right _ (List.mem_append_right _ (by decide))

private theorem pemBlock_reflects {z s o w : List Char}
    (hm : Masked (z ++ '[' :: ("REDACTED".toList ++ [']'])) s o) (hz : ∀ c ∈ z, c = '=')
    (hw : w <+: o) (h : Lang pemBlock w) : ∃ w', w' <+: s ∧ Lang pemBlock w' := by
  obtain ⟨u, x, v, rfl, hu, hv⟩ := lang_pemBlock.mp h
  have hbegin := @pemBoundary_plain _ _ hu (forall_of_all (by decide))
  have hend := @pemBoundary_plain _ _ hv (forall_of_all (by decide))
  have hbody : ¬ v <:+: "REDACTED".toList := fun hi =>
    absurd (hi.subset (dash_mem_pemBoundary hv)) (by decide)
  obtain ⟨x', hx'⟩ := hm.span hw (fun hc => (hbegin hc).1 rfl)
    (fun c hc hcz => (hbegin hc).2.2 (hz c hcz)) (fun hc => (hend hc).1 rfl)
    (fun hc => (hend hc).2.1 rfl) (fun c hc hcz => (hend hc).2.2 (hz c hcz)) hbody
  exact ⟨_, hx', lang_pemBlock.mpr ⟨u, x', v, rfl, hu, hv⟩⟩

private theorem pemBlock_head {w : List Char} (h : Lang pemBlock w) : w.head? = some '-' := by
  obtain ⟨u, x, v, rfl, hu, _⟩ := lang_pemBlock.mp h
  obtain ⟨a, rfl, _⟩ := lang_pemBoundary.mp hu
  rfl

private theorem inert_pemBlock_marker : Inert pemBlock "[REDACTED]".toList where
  head w h := ⟨'-', pemBlock_head h, by decide⟩
  reflects s o w hm hw h := by
    rw [marker_split] at hm
    exact pemBlock_reflects hm (by simp) hw h

private theorem inert_pemBlock_pair : Inert pemBlock "=[REDACTED]".toList where
  head w h := ⟨'-', pemBlock_head h, by decide⟩
  reflects s o w hm hw h := by
    rw [pair_marker_split] at hm
    exact pemBlock_reflects hm (by simp) hw h

/-! ## The last pass -/

private theorem pairLead_match {s : List Char} {m : Match Char} (h : m ∈ matchesAt pairLead s) :
    ∃ l a c b, m.text = l ++ (a ++ c :: b) ∧ m.group = some l ∧ Lang label l ∧
      (∀ d ∈ a, isSpace d = true) ∧ isSeparator c = true ∧ ∀ d ∈ b, isSpace d = true := by
  obtain ⟨g, hg, k, hk, rfl⟩ := mem_matchesAt_seq.mp h
  obtain ⟨l, hl, rfl⟩ := List.mem_map.mp hg
  obtain ⟨_, a, _, hka, ⟨_, ha⟩, _, b, rfl, ⟨c, hc, rfl⟩, _, hb⟩ := matchesAt_sound hk
  refine ⟨l.text, a, c, b, by simp [hka], ?_, (matchesAt_sound hl).2, ha, hc, hb⟩
  simp [group_eq_none rfl hk]

/-- What a match of the last pattern is made of. Its value runs to the next white space. -/
theorem labelledValue_match {s : List Char} {m : Match Char}
    (h : matchHere labelledValue s = some m) :
    ∃ l a c b v, m.text = l ++ (a ++ c :: (b ++ v)) ∧ m.group = some l ∧ Lang label l ∧
      (∀ d ∈ a, isSpace d = true) ∧ isSeparator c = true ∧ (∀ d ∈ b, isSpace d = true) ∧
      v ≠ [] ∧ (∀ d ∈ v, isSpace d = false) ∧ ∀ d ∈ m.rest.head?, isSpace d = true := by
  obtain ⟨lead, hlead, k, hk, rfl⟩ := matchHere_seq_inv h
  obtain ⟨l, a, c, b, htext, hgroup, hl, ha, hc, hb⟩ := pairLead_match hlead
  obtain ⟨_, hlen, hv⟩ := matchHere_sound hk
  have hnone : k.group = none := group_eq_none rfl (List.mem_of_mem_head? hk)
  refine ⟨l, a, c, b, k.text, by simp [htext], by simp [hgroup, hnone], hl, ha, hc, hb, ?_, ?_, ?_⟩
  · exact List.length_pos_iff.mp hlen
  · exact fun d hd => by simpa using hv d hd
  · exact fun d hd => by simpa using matchHere_greedy_rest hk d hd

private theorem lang_labelledValue {l a b v : List Char} {c : Char} (hl : Lang label l)
    (ha : ∀ d ∈ a, isSpace d = true) (hc : isSeparator c = true) (hb : ∀ d ∈ b, isSpace d = true)
    (hne : v ≠ []) (hv : ∀ d ∈ v, isSpace d = false) :
    Lang labelledValue (l ++ (a ++ c :: (b ++ v))) :=
  ⟨l ++ (a ++ c :: b), v, by simp, ⟨l, _, rfl, hl, a, _, rfl, ⟨Nat.zero_le _, ha⟩, [c], b, rfl,
    ⟨c, hc, rfl⟩, Nat.zero_le _, hb⟩, List.length_pos_iff.mpr hne, fun d hd => by simp [hv d hd]⟩

/-- What the last pass writes for a match. -/
def pairOut (m : Match Char) : List Char := m.group.getD [] ++ "=[REDACTED]".toList

/-- Where the output of the last pass comes from, one character after a stretch without bracket:
it was copied with the stretch, or the two end inside what the pass wrote after a label. -/
private theorem pairOut_prefix {s u : List Char} {ps : List (Piece Char)} {v : Char}
    (h : Scanned labelledValue s ps) (hw : u ++ [v] <+: render pairOut ps) (hu : '[' ∉ u) :
    u ++ [v] <+: s ∨
      (∃ p l, u = p ++ l ∧ Lang label l ∧ v = '=' ∧ u <+: s) ∨
      ∃ p l, u = p ++ l ++ ['='] ∧ Lang label l ∧ v = '[' ∧ p ++ l <+: s := by
  induction h generalizing u with
  | nil => simp at hw
  | @kept c s ps _ _ ih =>
    cases u with
    | nil =>
      obtain ⟨rfl, _⟩ := List.cons_prefix_cons.mp hw
      exact Or.inl ⟨s, rfl⟩
    | cons d u =>
      obtain ⟨rfl, htail⟩ := List.cons_prefix_cons.mp hw
      rcases ih htail (fun hc => hu (List.mem_cons_of_mem _ hc)) with
        h | ⟨p, l, rfl, hl, rfl, h⟩ | ⟨p, l, rfl, hl, rfl, h⟩
      · exact Or.inl (List.cons_prefix_cons.mpr ⟨rfl, h⟩)
      · exact Or.inr (Or.inl ⟨d :: p, l, rfl, hl, rfl, List.cons_prefix_cons.mpr ⟨rfl, h⟩⟩)
      · exact Or.inr (Or.inr ⟨d :: p, l, rfl, hl, rfl, List.cons_prefix_cons.mpr ⟨rfl, h⟩⟩)
  | @found s m ps hm _ _ _ =>
    obtain ⟨l, a, c, b, x, htext, hgroup, hl, _⟩ := labelledValue_match hm
    have hs : l <+: s := by
      rw [(matchHere_sound hm).1, htext, List.append_assoc]
      exact List.prefix_append _ _
    rw [render_found, pairOut, hgroup, Option.getD_some, List.append_assoc] at hw
    have hmark : "=[REDACTED]".toList = '=' :: '[' :: "REDACTED]".toList := by decide
    rw [hmark] at hw
    obtain ⟨y, hy⟩ := hw
    rw [List.cons_append, List.cons_append] at hy
    rcases List.append_eq_append_iff.mp hy with ⟨d, hd, _⟩ | ⟨d, hd, hrest⟩
    · exact Or.inl ((List.prefix_append _ d).trans (hd ▸ hs))
    · rcases d with _ | ⟨e, _ | ⟨f, d⟩⟩
      · exact Or.inl ((List.append_nil l ▸ hd) ▸ hs)
      · obtain ⟨rfl, _⟩ := List.cons.inj hrest
        obtain ⟨rfl, hv⟩ := List.append_inj' hd rfl
        exact Or.inr (Or.inl ⟨[], u, rfl, hl, List.singleton_inj.mp hv, hs⟩)
      · obtain ⟨rfl, hrest'⟩ := List.cons.inj hrest
        obtain ⟨rfl, _⟩ := List.cons.inj hrest'
        rcases List.eq_nil_or_concat d with rfl | ⟨d, z, rfl⟩
        · rw [List.append_cons l] at hd
          obtain ⟨rfl, hv⟩ := List.append_inj' hd rfl
          exact Or.inr (Or.inr ⟨[], l, rfl, hl, List.singleton_inj.mp hv, hs⟩)
        · have hsplit : l ++ '=' :: '[' :: (d ++ [z]) = (l ++ '=' :: '[' :: d) ++ [z] := by simp
          rw [List.concat_eq_append, hsplit] at hd
          obtain ⟨rfl, _⟩ := List.append_inj' hd rfl
          exact absurd (by simp) hu

/-- A bearer match in the output of the last pass was already one in its input: what the pass
writes after a label adds one token character to at least six. -/
private theorem bearerToken_reflects {s w : List Char} {ps : List (Piece Char)}
    (h : Scanned labelledValue s ps) (hw : w <+: render pairOut ps) (hl : Lang bearerToken w) :
    ∃ w', w' <+: s ∧ Lang bearerToken w' := by
  obtain ⟨b, a, k, rfl, hb, ha, hlen, hk⟩ := lang_bearerToken.mp hl
  have hplain := (bearerToken_plain hl).1
  rcases List.eq_nil_or_concat k with rfl | ⟨k, v, rfl⟩
  · simp at hlen
  rw [List.concat_eq_append] at hw hplain hk hlen
  rw [← List.append_assoc] at hw hplain
  rcases pairOut_prefix h hw (fun hc => hplain (List.mem_append_left _ hc)) with
    h | ⟨p, l, hu, hlab, rfl, h⟩ | ⟨p, l, _, _, rfl, _⟩
  · exact ⟨_, h, lang_bearerToken.mpr ⟨b, a, k ++ [v], by simp, hb, ha, hlen, hk⟩⟩
  · refine ⟨_, h, lang_bearerToken.mpr ⟨b, a, k, rfl, hb, ha, ?_,
      fun c hc => hk c (List.mem_append_left _ hc)⟩⟩
    -- a token shorter than the label would put the white space before it inside the label
    by_contra hshort
    have hlong := label_length hlab
    rcases List.append_eq_append_iff.mp hu with ⟨d, _, hd⟩ | ⟨d, hd, hlabel⟩
    · have := congrArg List.length hd
      simp only [List.length_append] at this
      omega
    · rcases List.eq_nil_or_concat d with rfl | ⟨d, x, rfl⟩
      · rw [hlabel, List.nil_append] at hlong
        omega
      · rcases List.eq_nil_or_concat a with rfl | ⟨a, y, rfl⟩
        · simp at ha
        · rw [List.concat_eq_append, List.concat_eq_append, ← List.append_assoc,
            ← List.append_assoc] at hd
          obtain ⟨_, hxy⟩ := List.append_inj' hd rfl
          have hx := (label_char_plain hlab (c := x) (by simp [hlabel])).1
          rw [← List.singleton_inj.mp hxy, ha.2 y (by simp)] at hx
          cases hx
  · exact absurd (by simp) hplain

private theorem avoids_bearerToken_pairOut {s : List Char} {ps : List (Piece Char)}
    (h : Scanned labelledValue s ps) (hs : Avoids bearerToken s) :
    Avoids bearerToken (render pairOut ps) := by
  induction h with
  | nil => exact hs
  | @kept c s ps hn tail ih =>
    intro w hw hl
    rcases List.infix_cons_iff.mp hw with hw | hw
    · obtain ⟨w', hw', hl'⟩ := bearerToken_reflects (.kept hn tail) hw hl
      exact hs w' hw'.isInfix hl'
    · exact ih (hs.mono (List.suffix_cons c s).isInfix) w hw hl
  | @found s m ps hm _ _ ih =>
    intro w hw hl
    have hrest : m.rest <:+: s := ⟨m.text, [], by simp [(matchHere_sound hm).1]⟩
    rw [render_found] at hw
    rcases infix_append_cases hw with ⟨d, hd, hsuf, hpre⟩ | hw
    · -- no character of the replacement starts a bearer match
      obtain ⟨l, _, _, _, _, _, hgroup, hlab, _⟩ := labelledValue_match hm
      obtain ⟨_, c, hc, hfold⟩ := bearerToken_plain hl
      have hmem : c ∈ pairOut m := by
        cases d with
        | nil => exact absurd rfl hd
        | cons e d =>
          obtain ⟨t, rfl⟩ := List.head?_eq_some_iff.mp hc
          obtain ⟨rfl, _⟩ := List.cons_prefix_cons.mp hpre
          exact hsuf.subset List.mem_cons_self
      rw [pairOut, hgroup, Option.getD_some, List.mem_append] at hmem
      have hlabels : ∀ f ∈ labels, 'b' ∉ f := by decide
      have hmark : ∀ e ∈ "=[REDACTED]".toList, fold e ≠ 'b' := forall_of_all (by decide)
      rcases hmem with hmem | hmem
      · exact hlabels _ (lang_label hlab) (hfold ▸ List.mem_map_of_mem hmem)
      · exact hmark c hmem hfold
    · exact ih (hs.mono hrest) w hw hl

private theorem eq_of_runs {p : Char → Bool} {u v x y : List Char} (h : u ++ x = v ++ y)
    (hu : ∀ d ∈ u, p d = false) (hv : ∀ d ∈ v, p d = false) (hx : ∀ d ∈ x.head?, p d = true)
    (hy : ∀ d ∈ y.head?, p d = true) : u = v ∧ x = y := by
  rcases List.append_eq_append_iff.mp h with ⟨d, rfl, rfl⟩ | ⟨d, rfl, rfl⟩
  · cases d with
    | nil => simp
    | cons e d =>
      have h1 := hx e rfl
      rw [hv e (by simp)] at h1
      cases h1
  · cases d with
    | nil => simp
    | cons e d =>
      have h1 := hy e rfl
      rw [hu e (by simp)] at h1
      cases h1

/-- The last pass matches what it wrote for a pair, and nothing more. -/
private theorem labelledValue_pairOut {l o : List Char} (hl : Lang label l)
    (ho : ∀ d ∈ o.head?, isSpace d = true) :
    matchHere labelledValue (l ++ "=[REDACTED]".toList ++ o) =
      some ⟨l ++ "=[REDACTED]".toList, o, some l⟩ := by
  have hmark : "=[REDACTED]".toList = [] ++ '=' :: ([] ++ "[REDACTED]".toList) := by decide
  have hvalue : ∀ d ∈ "[REDACTED]".toList, isSpace d = false := forall_of_all (by decide)
  have hlang : Lang labelledValue (l ++ "=[REDACTED]".toList) := by
    rw [hmark]
    exact lang_labelledValue hl (by simp) rfl (by simp) (by decide) hvalue
  obtain ⟨m, hm⟩ := matchHere_of_lang (List.prefix_append _ o) hlang
  obtain ⟨l', a, c, b, v, htext, hgroup, hl', ha, hc, hb, hne, hv, hrest⟩ := labelledValue_match hm
  have hs := (matchHere_sound hm).1
  have hsame : l = l' := by
    apply label_prefix_unique hl hl' (t := l ++ "=[REDACTED]".toList ++ o)
    · rw [List.append_assoc]
      exact List.prefix_append _ _
    · rw [hs, htext, List.append_assoc]
      exact List.prefix_append _ _
  subst hsame
  have htail : '=' :: ("[REDACTED]".toList ++ o) = a ++ c :: (b ++ (v ++ m.rest)) := by
    rw [htext, hmark] at hs
    simpa using hs
  have hnil : a = [] := by
    cases a with
    | nil => rfl
    | cons d a =>
      obtain ⟨rfl, _⟩ := List.cons.inj htail
      exact absurd (ha _ List.mem_cons_self) (by decide)
  subst hnil
  obtain ⟨rfl, hvalues⟩ := List.cons.inj htail
  have hnil : b = [] := by
    cases b with
    | nil => rfl
    | cons d b =>
      obtain ⟨rfl, _⟩ := List.cons.inj hvalues
      exact absurd (hb _ List.mem_cons_self) (by decide)
  subst hnil
  rw [List.nil_append] at hvalues
  obtain ⟨rfl, hrest⟩ := eq_of_runs hvalues hvalue hv ho hrest
  obtain ⟨text, rest, group⟩ := m
  simp only at htext hgroup hrest
  rw [hm, htext, hgroup, hrest]
  rfl

/-- The characters after a match of the last pattern are copied up to the next white space. -/
private theorem render_pairOut_head {s : List Char} {ps : List (Piece Char)}
    (h : Scanned labelledValue s ps) (hs : ∀ d ∈ s.head?, isSpace d = true) :
    ∀ d ∈ (render pairOut ps).head?, isSpace d = true := by
  cases h with
  | nil => exact hs
  | kept _ _ => exact hs
  | @found _ m ps hm hne tail =>
    obtain ⟨l, _, _, _, _, htext, _, hlab, _⟩ := labelledValue_match hm
    cases l with
    | nil => exact absurd (label_length hlab) (by decide)
    | cons d l =>
      have hd := hs d (by rw [(matchHere_sound hm).1, htext]; rfl)
      rw [(label_char_plain hlab List.mem_cons_self).1] at hd
      cases hd

/-- A label does not end where a separator and its white space end. -/
private theorem pairLead_ne_label {w a b p l : List Char} {e : Char} (hl : Lang label l)
    (he : isSeparator e = true) (hb : ∀ d ∈ b, isSpace d = true) :
    w ++ (a ++ e :: b) ≠ p ++ l := by
  intro h
  rcases List.eq_nil_or_concat l with rfl | ⟨l, x, rfl⟩
  · exact absurd (label_length hl) (by decide)
  have hx := label_char_plain hl (c := x) (by simp)
  rcases List.eq_nil_or_concat b with rfl | ⟨b, y, rfl⟩
  · rw [List.concat_eq_append, ← List.append_assoc, ← List.append_assoc] at h
    obtain ⟨_, h⟩ := List.append_inj' h rfl
    rw [List.singleton_inj.mp h, hx.2.1] at he
    cases he
  · have hy := hb y (by simp)
    have hsplit : w ++ (a ++ e :: (b ++ [y])) = (w ++ (a ++ e :: b)) ++ [y] := by simp
    rw [List.concat_eq_append, List.concat_eq_append, hsplit, ← List.append_assoc p] at h
    obtain ⟨_, h⟩ := List.append_inj' h rfl
    rw [List.singleton_inj.mp h, hx.1] at hy
    cases hy

/-- A separator written right after a label is the separator of a pair with that very label. -/
private theorem pairLead_label {l a b p l' : List Char} {e : Char} (hl : Lang label l)
    (ha : ∀ d ∈ a, isSpace d = true) (hb : ∀ d ∈ b, isSpace d = true) (hl' : Lang label l')
    (h : l ++ (a ++ e :: b) = p ++ l' ++ ['=']) : p = [] := by
  have hb' : b = [] := by
    rcases List.eq_nil_or_concat b with rfl | ⟨b, y, rfl⟩
    · rfl
    · have hsplit : l ++ (a ++ e :: (b ++ [y])) = (l ++ (a ++ e :: b)) ++ [y] := by simp
      rw [List.concat_eq_append, hsplit] at h
      obtain ⟨_, h⟩ := List.append_inj' h rfl
      have hy := hb y (by simp)
      rw [List.singleton_inj.mp h] at hy
      exact absurd hy (by decide)
  subst hb'
  rw [← List.append_assoc] at h
  obtain ⟨h, _⟩ := List.append_inj' h rfl
  have ha' : a = [] := by
    rcases List.eq_nil_or_concat a with rfl | ⟨a, y, rfl⟩
    · rfl
    · rcases List.eq_nil_or_concat l' with rfl | ⟨l', x, rfl⟩
      · exact absurd (label_length hl') (by decide)
      · rw [List.concat_eq_append, List.concat_eq_append, ← List.append_assoc l,
          ← List.append_assoc p] at h
        obtain ⟨_, h⟩ := List.append_inj' h rfl
        have hx := (label_char_plain hl' (c := x) (by simp)).1
        rw [← List.singleton_inj.mp h, ha y (by simp)] at hx
        cases hx
  subst ha'
  rw [List.append_nil] at h
  exact label_suffix_unique hl hl' h

/-- Where the last pass copies a character, its output has no match either. -/
private theorem labelledValue_kept {c : Char} {s : List Char} {ps : List (Piece Char)}
    (hn : matchHere labelledValue (c :: s) = none) (tail : Scanned labelledValue s ps) :
    matchHere labelledValue (c :: render pairOut ps) = none := by
  cases hm : matchHere labelledValue (c :: render pairOut ps) with
  | none => rfl
  | some m =>
    exfalso
    obtain ⟨l, a, e, b, v, htext, _, hl, ha, he, hb, hne, hv, _⟩ := labelledValue_match hm
    obtain ⟨f, v, rfl⟩ := List.exists_cons_of_ne_nil hne
    obtain ⟨d, l, rfl⟩ : ∃ d l', l = d :: l' := by
      cases l with
      | nil => exact absurd (label_length hl) (by decide)
      | cons d l => exact ⟨d, l, rfl⟩
    have hword : d :: (l ++ (a ++ e :: b) ++ [f]) <+: c :: render pairOut ps := by
      rw [(matchHere_sound hm).1, htext]
      exact ⟨v ++ m.rest, by simp⟩
    obtain ⟨rfl, hcopied⟩ := List.cons_prefix_cons.mp hword
    have hspace : isSpace '[' = false := by decide
    have hopen : '[' ∉ l ++ (a ++ e :: b) := by
      simp only [List.mem_append, List.mem_cons, not_or]
      refine ⟨fun h => ?_, fun h => ?_, fun h => ?_, fun h => ?_⟩
      · exact (label_char_plain hl (List.mem_cons_of_mem _ h)).2.2.1 rfl
      · rw [ha _ h] at hspace; cases hspace
      · rw [← h] at he; exact absurd he (by decide)
      · rw [hb _ h] at hspace; cases hspace
    rcases pairOut_prefix tail hcopied hopen with h | ⟨p, l', hu, hl', _⟩ | ⟨p, l', hu, hl', _, _⟩
    · refine matchHere_eq_none.mp hn _ (List.cons_prefix_cons.mpr ⟨rfl, h⟩) ?_
      have hlang := lang_labelledValue (v := [f]) hl ha he hb (by simp) (by simpa using hv f (by simp))
      simpa using hlang
    · exact pairLead_ne_label hl' he hb hu
    · have hlead : (d :: l) ++ (a ++ e :: b) = (d :: p) ++ l' ++ ['='] := by simp [hu]
      cases pairLead_label hl ha hb hl' hlead

/-- The last pass rewrites its own output to itself. -/
private theorem labelledValue_stable {s : List Char} {ps : List (Piece Char)}
    (h : Scanned labelledValue s ps) :
    ∃ qs, Scanned labelledValue (render pairOut ps) qs ∧ render pairOut qs = render pairOut ps := by
  induction h with
  | nil => exact ⟨[], .nil, rfl⟩
  | @kept c s ps hn tail ih =>
    obtain ⟨qs, hqs, heq⟩ := ih
    exact ⟨.kept c :: qs, .kept (labelledValue_kept hn tail) hqs, by simp [heq]⟩
  | @found s m ps hm _ tail ih =>
    obtain ⟨qs, hqs, heq⟩ := ih
    obtain ⟨l, _, _, _, _, _, hgroup, hl, _, _, _, _, _, hrest⟩ := labelledValue_match hm
    have hout : pairOut m = l ++ "=[REDACTED]".toList := by simp [pairOut, hgroup]
    refine ⟨.found ⟨l ++ "=[REDACTED]".toList, render pairOut ps, some l⟩ :: qs, ?_, ?_⟩
    · rw [render_found, hout]
      exact .found (labelledValue_pairOut hl (render_pairOut_head tail hrest)) (by simp) hqs
    · rw [render_found, render_found, heq, hout]
      rfl

/-! ## The four passes together -/

private theorem consuming_of_head {r : Regex Char} (h : ∀ w, Lang r w → w ≠ []) : Consuming r :=
  fun hl => h [] hl rfl

private theorem redactChars_eq (text : List Char) :
    redactChars text = replaceAll labelledValue pairOut
      (replaceAll pemBlock (fun _ => "[REDACTED]".toList)
        (replaceAll bearerToken (fun _ => "[REDACTED]".toList)
          (replaceAll openAiKey (fun _ => "[REDACTED]".toList) text))) := by
  have hmark : (fun m => Replacement.expand ⟨false, REDACTED⟩ id m) =
      fun _ : Match Char => "[REDACTED]".toList := by
    funext m
    simp [Replacement.expand, REDACTED]
  have hpair : (fun m => Replacement.expand ⟨true, "=[REDACTED]"⟩ id m) = pairOut := by
    funext m
    simp [Replacement.expand, pairOut]
  simp only [redactChars, patterns, List.foldl_cons, List.foldl_nil]
  rw [← hmark, ← hpair]

theorem consuming_openAiKey : Consuming openAiKey := consuming_of_head fun w h he => by
  simpa [he] using openAiKey_head h

theorem consuming_bearerToken : Consuming bearerToken := consuming_of_head fun w h he => by
  obtain ⟨_, c, hc, _⟩ := bearerToken_plain h
  simp [he] at hc

theorem consuming_pemBlock : Consuming pemBlock := consuming_of_head fun w h he => by
  simpa [he] using pemBlock_head h

theorem consuming_labelledValue : Consuming labelledValue := consuming_of_head fun w h he => by
  obtain ⟨_, v, rfl, _, hlen, _⟩ := h
  rw [(List.append_eq_nil_iff.mp he).2] at hlen
  cases hlen

/-- Redaction is idempotent: what it returns holds no secret that it would remove. -/
private theorem redactChars_redactChars (text : List Char) :
    redactChars (redactChars text) = redactChars text := by
  have hkey := consuming_openAiKey
  have hbearer := consuming_bearerToken
  have hpem := consuming_pemBlock
  have hpair := consuming_labelledValue
  have hmarked : ∀ {r : Regex Char} {s ps}, Scanned r s ps →
      Masked "[REDACTED]".toList s (render (fun _ => "[REDACTED]".toList) ps) := fun h =>
    h.masked fun _ m _ => ⟨[], m.text, rfl, rfl⟩
  rw [redactChars_eq text]
  set t1 := replaceAll openAiKey (fun _ => "[REDACTED]".toList) text with h1
  set t2 := replaceAll bearerToken (fun _ => "[REDACTED]".toList) t1 with h2
  set t3 := replaceAll pemBlock (fun _ => "[REDACTED]".toList) t2 with h3
  set t4 := replaceAll labelledValue pairOut t3 with h4
  -- each pattern is gone after its own pass
  have k1 : Avoids openAiKey t1 := inert_openAiKey_marker.avoids_scanned (scan_scanned hkey text)
  have b2 : Avoids bearerToken t2 := inert_bearerToken_marker.avoids_scanned (scan_scanned hbearer t1)
  have p3 : Avoids pemBlock t3 := inert_pemBlock_marker.avoids_scanned (scan_scanned hpem t2)
  -- and later passes do not bring it back
  have k2 : Avoids openAiKey t2 :=
    inert_openAiKey_marker.avoids_masked (hmarked (scan_scanned hbearer t1)) k1
  have k3 : Avoids openAiKey t3 :=
    inert_openAiKey_marker.avoids_masked (hmarked (scan_scanned hpem t2)) k2
  have b3 : Avoids bearerToken t3 :=
    inert_bearerToken_marker.avoids_masked (hmarked (scan_scanned hpem t2)) b2
  have hlast : Masked "=[REDACTED]".toList t3 t4 :=
    (scan_scanned hpair t3).masked fun s m hm => by
      obtain ⟨l, a, c, b, v, htext, hgroup, _⟩ := labelledValue_match hm
      exact ⟨l, _, htext, by simp [pairOut, hgroup]⟩
  have k4 : Avoids openAiKey t4 := inert_openAiKey_pair.avoids_masked hlast k3
  have b4 : Avoids bearerToken t4 := avoids_bearerToken_pairOut (scan_scanned hpair t3) b3
  have p4 : Avoids pemBlock t4 := inert_pemBlock_pair.avoids_masked hlast p3
  obtain ⟨qs, hqs, heq⟩ := labelledValue_stable (scan_scanned hpair t3)
  rw [redactChars_eq t4, replaceAll_of_avoids _ k4, replaceAll_of_avoids _ b4,
    replaceAll_of_avoids _ p4, h4]
  exact (replaceAll_of_scanned hpair pairOut hqs).trans heq

/-- A marker takes the place of what is removed. -/
theorem redact_ne_empty {text : String} (h : text ≠ "") : redact text ≠ "" := by
  have hchars : text.toList ≠ [] := fun hnil => h (String.toList_inj.mp hnil)
  have hmark : ∀ _ : Match Char, "[REDACTED]".toList ≠ [] := fun _ => by decide
  have hpair : ∀ m : Match Char, pairOut m ≠ [] := fun m =>
    List.append_ne_nil_of_right_ne_nil _ (by decide)
  have hout : redactChars text.toList ≠ [] := by
    rw [redactChars_eq]
    exact replaceAll_ne_nil hpair (replaceAll_ne_nil hmark
      (replaceAll_ne_nil hmark (replaceAll_ne_nil hmark hchars)))
  intro hempty
  have hlist := congrArg String.toList hempty
  rw [redact, String.toList_ofList] at hlist
  exact hout hlist

theorem redact_redact (text : String) : redact (redact text) = redact text := by
  unfold redact
  rw [String.toList_ofList, redactChars_redactChars]

theorem containsSecret_redact (text : String) : containsSecret (redact text) = false := by
  simp [containsSecret, redact_redact]

end AgosMemory.Redact
