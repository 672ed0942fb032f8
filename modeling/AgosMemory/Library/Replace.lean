import AgosMemory.Library.Regex

/-!
# Searching and replacing

`scan` walks a text once and records the non-overlapping matches that a replace-all pass takes.
`Masked` relates a text to a copy in which some stretches were overwritten by one fixed mark. It
forgets why a stretch was overwritten, which is what a second pattern sees of an earlier pass.
-/

namespace Library.Regex

variable {α β : Type}


/-- Search forward from `pos`, the position of the head of the list. -/
def search (r : Regex α) : Nat → List α → Option (Nat × Match α)
  | pos, [] => (matchHere r []).map fun m => (pos, m)
  | pos, c :: s =>
    match matchHere r (c :: s) with
    | some m => some (pos, m)
    | none => search r (pos + 1) s

/-- Search a text from a start offset. -/
def findAt (r : Regex α) (s : List α) (start : Nat) : Option (Nat × Match α) :=
  search r start (s.drop start)

/-- One step of a replace-all pass: a character it copies, or a match it replaces. -/
inductive Piece (α : Type) where
  | kept (c : α)
  | found (m : Match α)

/-- The pieces of a text. The counter skips the characters of the match just taken. -/
def scanFrom (r : Regex α) : Nat → List α → List (Piece α)
  | _, [] => []
  | k + 1, _ :: s => scanFrom r k s
  | 0, c :: s =>
    match matchHere r (c :: s) with
    | none => .kept c :: scanFrom r 0 s
    | some m =>
      match m.text.length with
      | 0 => .kept c :: scanFrom r 0 s
      | n + 1 => .found m :: scanFrom r n s

def scan (r : Regex α) (s : List α) : List (Piece α) := scanFrom r 0 s

/-- Copy the kept characters and write `f m` for each match. -/
def render (f : Match α → List α) (ps : List (Piece α)) : List α :=
  ps.flatMap fun
    | .kept c => [c]
    | .found m => f m

@[simp] theorem render_nil (f : Match α → List α) : render f [] = [] := rfl

@[simp] theorem render_kept (f : Match α → List α) (c : α) (ps : List (Piece α)) :
    render f (.kept c :: ps) = c :: render f ps := rfl

@[simp] theorem render_found (f : Match α → List α) (m : Match α) (ps : List (Piece α)) :
    render f (.found m :: ps) = f m ++ render f ps := rfl

def replaceAll (r : Regex α) (f : Match α → List α) (s : List α) : List α := render f (scan r s)

/-- A pass that writes something for each match leaves something of each text. -/
theorem replaceAll_ne_nil {r : Regex α} {f : Match α → List α} (hf : ∀ m, f m ≠ []) {s : List α}
    (hs : s ≠ []) : replaceAll r f s ≠ [] := by
  cases s with
  | nil => exact absurd rfl hs
  | cons c s =>
    unfold replaceAll scan scanFrom
    split
    · exact List.cons_ne_nil _ _
    next m _ =>
    split
    · exact List.cons_ne_nil _ _
    · exact List.append_ne_nil_of_left_ne_nil (hf m) _

/-- The pattern accepts no empty text, so every match it reports moves the scan forward. -/
def Consuming (r : Regex α) : Prop := ¬ Lang r []

/-- The pieces of a text as a relation. A kept character is one where nothing matches, and a
found piece is the leftmost-first match where it stands. -/
inductive Scanned (r : Regex α) : List α → List (Piece α) → Prop
  | nil : Scanned r [] []
  | kept {c : α} {s : List α} {ps : List (Piece α)} (hn : matchHere r (c :: s) = none)
      (tail : Scanned r s ps) : Scanned r (c :: s) (.kept c :: ps)
  | found {s : List α} {m : Match α} {ps : List (Piece α)} (hm : matchHere r s = some m)
      (hne : m.text ≠ []) (tail : Scanned r m.rest ps) : Scanned r s (.found m :: ps)

theorem scanFrom_drop (r : Regex α) (k : Nat) (s : List α) :
    scanFrom r k s = scanFrom r 0 (s.drop k) := by
  induction s generalizing k with
  | nil => cases k <;> simp [scanFrom]
  | cons c s ih =>
    cases k with
    | zero => rfl
    | succ k => simpa [scanFrom] using ih k

theorem scan_scanned {r : Regex α} (hr : Consuming r) (s : List α) : Scanned r s (scan r s) := by
  induction hn : s.length using Nat.strong_induction_on generalizing s with
  | _ n ih =>
    cases s with
    | nil => exact .nil
    | cons c s =>
      unfold scan scanFrom
      cases hm : matchHere r (c :: s) with
      | none => exact .kept hm (ih s.length (by simp [← hn]) s rfl)
      | some m =>
        obtain ⟨hs, hw⟩ := matchHere_sound hm
        have hne : m.text ≠ [] := fun he => hr (he ▸ hw)
        obtain ⟨k, hk⟩ := Nat.exists_eq_succ_of_ne_zero (List.length_pos_iff.mpr hne).ne'
        have hrest : s.drop k = m.rest := by
          have h := congrArg (List.drop (k + 1)) hs
          rw [List.drop_succ_cons, ← Nat.succ_eq_add_one, ← hk, List.drop_left] at h
          exact h
        simp only [hk, scanFrom_drop r k s, hrest]
        refine .found hm hne (ih m.rest.length ?_ m.rest rfl)
        have h := congrArg List.length hs
        simp only [List.length_cons, List.length_append, hk] at h
        simp only [List.length_cons] at hn
        omega

/-- The relation determines the pieces. -/
theorem scanned_unique {r : Regex α} {s : List α} {ps qs : List (Piece α)}
    (h : Scanned r s ps) (k : Scanned r s qs) : ps = qs := by
  induction h generalizing qs with
  | nil =>
    cases k with
    | nil => rfl
    | found hm hne _ => exact absurd (List.append_eq_nil_iff.mp (matchHere_sound hm).1.symm).1 hne
  | kept hn _ ih =>
    cases k with
    | kept _ tail => rw [ih tail]
    | found hm _ _ => rw [hn] at hm; cases hm
  | found hm _ _ ih =>
    cases k with
    | nil => exact absurd (List.append_eq_nil_iff.mp (matchHere_sound hm).1.symm).1 ‹_›
    | kept hn _ => rw [hn] at hm; cases hm
    | found hm' _ tail =>
      obtain rfl := Option.some.inj (hm.symm.trans hm')
      rw [ih tail]

theorem replaceAll_of_scanned {r : Regex α} (hr : Consuming r) (f : Match α → List α) {s : List α}
    {ps : List (Piece α)} (h : Scanned r s ps) : replaceAll r f s = render f ps := by
  rw [replaceAll, scanned_unique (scan_scanned hr s) h]

/-! ## Texts without a match -/

/-- No word of the pattern occurs anywhere in the text. -/
def Avoids (r : Regex α) (s : List α) : Prop := ∀ w, w <:+: s → ¬ Lang r w

theorem Avoids.mono {r : Regex α} {s t : List α} (h : Avoids r s) (ht : t <:+: s) : Avoids r t :=
  fun w hw => h w (hw.trans ht)

/-- A search from the start fails exactly on these texts. -/
theorem search_eq_none_iff {r : Regex α} {pos : Nat} {s : List α} :
    search r pos s = none ↔ Avoids r s := by
  induction s generalizing pos with
  | nil =>
    rw [search, Option.map_eq_none_iff, matchHere_eq_none]
    exact forall_congr' fun w => by rw [List.prefix_nil, List.infix_nil]
  | cons c s ih =>
    rw [search]
    constructor
    · intro h w hw
      split at h
      · cases h
      · next hnone =>
        rcases List.infix_cons_iff.mp hw with hw | hw
        · exact matchHere_eq_none.mp hnone w hw
        · exact ih.mp h w hw
    · intro h
      have hnone : matchHere r (c :: s) = none :=
        matchHere_eq_none.mpr fun w hw => h w hw.isInfix
      rw [hnone]
      exact ih.mpr (h.mono (List.suffix_cons c s).isInfix)

theorem findAt_eq_none_iff {r : Regex α} {s : List α} : findAt r s 0 = none ↔ Avoids r s :=
  search_eq_none_iff

theorem avoids_comap (f : β → α) {r : Regex α} {s : List β} :
    Avoids (r.comap f) s ↔ Avoids r (s.map f) := by
  constructor
  · intro h w hw
    obtain ⟨u, v, hs⟩ := hw
    obtain ⟨uw, v', rfl, huw, rfl⟩ := List.map_eq_append_iff.mp hs.symm
    obtain ⟨u', w', rfl, rfl, rfl⟩ := List.map_eq_append_iff.mp huw
    exact fun hl => h w' ⟨u', v', rfl⟩ ((lang_comap f).mpr hl)
  · exact fun h w hw hl => h (w.map f) (hw.map f) ((lang_comap f).mp hl)

theorem Consuming.comap (f : β → α) {r : Regex α} (h : Consuming r) : Consuming (r.comap f) :=
  fun hl => h ((lang_comap f).mp hl)

/-- A pass over a text without a match copies it. -/
theorem replaceAll_of_avoids {r : Regex α} {s : List α} (f : Match α → List α) (h : Avoids r s) :
    replaceAll r f s = s := by
  unfold replaceAll scan
  induction s with
  | nil => rfl
  | cons c s ih =>
    have hn : matchHere r (c :: s) = none :=
      matchHere_eq_none.mpr fun w hw => h w hw.isInfix
    rw [scanFrom, hn]
    simp only [render_kept, ih (h.mono (List.suffix_cons c s).isInfix)]

/-- A word that does not use the separating character lies on one side of it. -/
theorem infix_append_cons {w a c : List α} {b : α} (h : w <:+: a ++ b :: c) (hb : b ∉ w) :
    w <:+: a ∨ w <:+: c := by
  obtain ⟨x, y, hxy⟩ := h
  rw [List.append_assoc, List.append_eq_append_iff] at hxy
  rcases hxy with ⟨a', ha, hw⟩ | ⟨c', hx, hc⟩
  · rw [List.append_eq_append_iff] at hw
    rcases hw with ⟨d, hd, _⟩ | ⟨d, hd, hcons⟩
    · exact Or.inl ⟨x, d, by rw [ha, hd, List.append_assoc]⟩
    · cases d with
      | nil => exact Or.inl ⟨x, [], by simp [ha, hd]⟩
      | cons e d =>
        obtain ⟨rfl, _⟩ := List.cons.inj hcons
        exact absurd (hd ▸ by simp) hb
  · cases c' with
    | nil =>
      cases w with
      | nil => exact Or.inl (List.nil_infix)
      | cons e w =>
        obtain ⟨rfl, _⟩ := List.cons.inj hc
        exact absurd List.mem_cons_self hb
    | cons e c' =>
      obtain ⟨_, hc⟩ := List.cons.inj hc
      exact Or.inr ⟨c', y, by rw [List.append_assoc]; exact hc.symm⟩

theorem prefix_append_cons {w a c : List α} {b : α} (h : w <+: a ++ b :: c) (hb : b ∉ w) :
    w <+: a := by
  rcases List.prefix_or_prefix_of_prefix h (List.prefix_append a (b :: c)) with hw | ⟨d, rfl⟩
  · exact hw
  · rw [List.prefix_append_right_inj] at h
    cases d with
    | nil => simp
    | cons e d =>
      obtain ⟨rfl, _⟩ := List.cons_prefix_cons.mp h
      exact absurd (by simp) hb

/-- An occurrence in a concatenation either begins in the left part or lies in the right part. -/
theorem infix_append_cases {w a c : List α} (h : w <:+: a ++ c) :
    (∃ d, d ≠ [] ∧ d <:+ a ∧ w <+: d ++ c) ∨ w <:+: c := by
  obtain ⟨x, y, hxy⟩ := h
  rw [List.append_assoc, List.append_eq_append_iff] at hxy
  rcases hxy with ⟨a', ha, hw⟩ | ⟨c', hx, hc⟩
  · cases a' with
    | nil => exact Or.inr ⟨[], y, by simpa using hw⟩
    | cons e d => exact Or.inl ⟨e :: d, by simp, ⟨x, ha.symm⟩, y, hw⟩
  · exact Or.inr ⟨c', y, by rw [List.append_assoc]; exact hc.symm⟩

/-! ## Scanning through a projection -/

def Piece.map (f : β → α) : Piece β → Piece α
  | .kept c => .kept (f c)
  | .found m => .found (m.map f)

theorem scanFrom_comap (f : β → α) (r : Regex α) (k : Nat) (s : List β) :
    scanFrom r k (s.map f) = (scanFrom (r.comap f) k s).map (Piece.map f) := by
  induction s generalizing k with
  | nil => cases k <;> rfl
  | cons c s ih =>
    cases k with
    | succ k => exact ih k
    | zero =>
      have hm := matchHere_comap f r (c :: s)
      rw [List.map_cons] at hm
      rw [List.map_cons, scanFrom, hm, scanFrom]
      cases matchHere (r.comap f) (c :: s) with
      | none => simp [ih, Piece.map]
      | some m =>
        obtain ⟨text, rest, group⟩ := m
        cases text <;> simp [ih, Piece.map, Match.map]

/-- A replace-all pass commutes with the projection when the replacement does. -/
theorem replaceAll_comap (f : β → α) (r : Regex α) {g : Match β → List β} {g' : Match α → List α}
    (hg : ∀ m, (g m).map f = g' (m.map f)) (s : List β) :
    (replaceAll (r.comap f) g s).map f = replaceAll r g' (s.map f) := by
  unfold replaceAll scan
  rw [scanFrom_comap]
  induction scanFrom (r.comap f) 0 s with
  | nil => rfl
  | cons piece ps ih =>
    cases piece with
    | kept c => simp [Piece.map, ih]
    | found m => simp [Piece.map, ih, hg]

/-! ## What a pass leaves of a text -/

section

variable {r : Regex α} {f : Match α → List α} {q : α → Bool} {s : List α} {ps : List (Piece α)}

/-- When a match keeps no more than its own characters with `q`, in order, so does the pass. -/
theorem Scanned.filter_sublist (h : Scanned r s ps)
    (hf : ∀ s m, matchHere r s = some m → ((f m).filter q).Sublist (m.text.filter q)) :
    ((render f ps).filter q).Sublist (s.filter q) := by
  induction h with
  | nil => exact List.Sublist.refl _
  | @kept c s ps _ _ ih =>
    rw [render_kept, List.filter_cons, List.filter_cons]
    split
    · exact ih.cons_cons c
    · exact ih
  | @found s m ps hm _ _ ih =>
    rw [render_found, (matchHere_sound hm).1, List.filter_append, List.filter_append]
    exact (hf _ _ hm).append ih

/-- When a match loses a character with `q`, a pass over a text with a match does. -/
theorem Scanned.filter_length_lt (hr : Consuming r) (h : Scanned r s ps)
    (hf : ∀ s m, matchHere r s = some m → ((f m).filter q).Sublist (m.text.filter q))
    (hlt : ∀ s m, matchHere r s = some m → ((f m).filter q).length < m.text.length)
    (hq : ∀ c ∈ s, q c = true) (hs : ¬ Avoids r s) :
    ((render f ps).filter q).length < s.length := by
  induction h with
  | nil =>
    exact absurd (fun w hw hl => hr (List.infix_nil.mp hw ▸ hl)) hs
  | @kept c s ps hnone _ ih =>
    have htail : ¬ Avoids r s := by
      intro ha
      refine hs fun w hw => ?_
      rcases List.infix_cons_iff.mp hw with hw | hw
      · exact matchHere_eq_none.mp hnone w hw
      · exact ha w hw
    have hlt := ih (fun d hd => hq d (List.mem_cons_of_mem _ hd)) htail
    rw [render_kept, List.filter_cons_of_pos (hq c List.mem_cons_self), List.length_cons,
      List.length_cons]
    omega
  | @found s m ps hm hne tail _ =>
    have hrest := (tail.filter_sublist hf).length_le
    have hfilter := List.length_filter_le q m.rest
    have hhead := hlt _ _ hm
    have hlen := congrArg List.length (matchHere_sound hm).1
    rw [List.length_append] at hlen
    rw [render_found, List.filter_append, List.length_append]
    omega

end

/-! ## Texts overwritten by a mark -/

/-- The second list is the first with some stretches overwritten by the mark. -/
inductive Masked (mark : List α) : List α → List α → Prop
  | nil : Masked mark [] []
  | keep {c : α} {s o : List α} (tail : Masked mark s o) : Masked mark (c :: s) (c :: o)
  | mask {t s o : List α} (tail : Masked mark s o) : Masked mark (t ++ s) (mark ++ o)

theorem Masked.append_left {mark s o : List α} (p : List α) (h : Masked mark s o) :
    Masked mark (p ++ s) (p ++ o) := by
  induction p with
  | nil => exact h
  | cons c p ih => exact ih.keep

/-- A pass that copies the start of each match and marks the remainder is a masking. -/
theorem Scanned.masked {r : Regex α} {f : Match α → List α} {mark s : List α}
    {ps : List (Piece α)} (h : Scanned r s ps)
    (hf : ∀ s m, matchHere r s = some m → ∃ p d, m.text = p ++ d ∧ f m = p ++ mark) :
    Masked mark s (render f ps) := by
  induction h with
  | nil => exact .nil
  | kept _ _ ih => exact ih.keep
  | found hm _ _ ih =>
    obtain ⟨p, d, htext, hout⟩ := hf _ _ hm
    rw [render_found, hout, (matchHere_sound hm).1, htext, List.append_assoc, List.append_assoc]
    exact ih.mask.append_left p

section Bracketed

variable {z body q s o u v w x : List α} {b e : α}

private theorem eq_nil_of_prefix_disjoint (h : w <+: z) (hz : ∀ c ∈ w, c ∉ z) : w = [] := by
  cases w with
  | nil => rfl
  | cons c w => exact absurd (h.subset List.mem_cons_self) (hz c List.mem_cons_self)

/-- A prefix that uses no character of the start of the mark was copied. -/
theorem Masked.front (h : Masked (z ++ b :: q) s o) (hw : w <+: o) (hb : b ∉ w)
    (hz : ∀ c ∈ w, c ∉ z) : w <+: s := by
  induction h generalizing w with
  | nil => exact hw
  | keep _ ih =>
    cases w with
    | nil => exact List.nil_prefix
    | cons d w =>
      obtain ⟨rfl, htail⟩ := List.cons_prefix_cons.mp hw
      refine List.cons_prefix_cons.mpr ⟨rfl, ih htail ?_ ?_⟩
      · exact fun hmem => hb (List.mem_cons_of_mem _ hmem)
      · exact fun c hc => hz c (List.mem_cons_of_mem _ hc)
  | mask _ _ =>
    rw [List.append_assoc, List.cons_append] at hw
    rw [eq_nil_of_prefix_disjoint (prefix_append_cons hw hb) hz]
    exact List.nil_prefix

/-- A word that avoids the brackets of the mark, and does not lie between them, was copied. -/
theorem Masked.inner (h : Masked (z ++ b :: (body ++ [e])) s o) (hv : v <:+: o) (hb : b ∉ v)
    (he : e ∉ v) (hz : ∀ c ∈ v, c ∉ z) (hbody : ¬ v <:+: body) : v <:+: s := by
  induction h with
  | nil => exact hv
  | keep tail ih =>
    rcases List.infix_cons_iff.mp hv with hv | hv
    · exact (tail.keep.front hv hb hz).isInfix
    · exact List.infix_cons (ih hv)
  | @mask t s o _ ih =>
    rw [List.append_assoc, List.cons_append, List.append_assoc] at hv
    rcases infix_append_cons hv hb with hv | hv
    · obtain ⟨y, y', hy⟩ := hv
      have hnil : v = [] := by
        cases v with
        | nil => rfl
        | cons c v => exact absurd (by simp [← hy]) (hz c List.mem_cons_self)
      exact absurd (hnil ▸ List.nil_infix) hbody
    · rcases infix_append_cons hv he with hv | hv
      · exact absurd hv hbody
      · exact (ih hv).trans (List.suffix_append t s).isInfix

/-- A stretch of the copy whose two ends were copied comes from a stretch with the same ends. -/
theorem Masked.span (h : Masked (z ++ b :: (body ++ [e])) s o) (hp : u ++ x ++ v <+: o)
    (hub : b ∉ u) (huz : ∀ c ∈ u, c ∉ z) (hvb : b ∉ v) (hve : e ∉ v) (hvz : ∀ c ∈ v, c ∉ z)
    (hbody : ¬ v <:+: body) : ∃ x', u ++ x' ++ v <+: s := by
  have hnil : ∀ {s o}, Masked (z ++ b :: (body ++ [e])) s o → [] ++ x ++ v <+: o →
      ∃ x', [] ++ x' ++ v <+: s := by
    intro s o h hp
    have hv : v <:+: o := (List.suffix_append _ v).isInfix.trans hp.isInfix
    obtain ⟨x', y, hs⟩ := h.inner hv hvb hve hvz hbody
    exact ⟨x', y, by simpa using hs⟩
  induction h generalizing u with
  | nil =>
    cases u with
    | nil => exact hnil .nil hp
    | cons d u => simp at hp
  | keep tail ih =>
    cases u with
    | nil => exact hnil tail.keep hp
    | cons d u =>
      rw [List.cons_append, List.cons_append] at hp
      obtain ⟨rfl, htail⟩ := List.cons_prefix_cons.mp hp
      obtain ⟨x', hx⟩ := ih htail (fun hmem => hub (List.mem_cons_of_mem _ hmem))
        (fun c hc => huz c (List.mem_cons_of_mem _ hc))
      exact ⟨x', List.cons_prefix_cons.mpr ⟨rfl, hx⟩⟩
  | mask tail _ =>
    cases u with
    | nil => exact hnil tail.mask hp
    | cons d u =>
      rw [List.append_assoc, List.append_assoc, List.cons_append] at hp
      have hu := prefix_append_cons ((List.prefix_append _ _).trans hp) hub
      exact absurd (hu.subset List.mem_cons_self) (huz d List.mem_cons_self)

end Bracketed

/-- The mark contributes to no word of the pattern: no word starts in it, and a word that starts
in a copied character was already a word of the original. -/
structure Inert (r : Regex α) (mark : List α) : Prop where
  head : ∀ w, Lang r w → ∃ c ∈ w.head?, c ∉ mark
  reflects : ∀ s o w, Masked mark s o → w <+: o → Lang r w → ∃ w', w' <+: s ∧ Lang r w'

private theorem Inert.skip_mark {r : Regex α} {mark w o : List α} (h : Inert r mark)
    (hl : Lang r w) (hw : w <:+: mark ++ o) : w <:+: o := by
  rcases infix_append_cases hw with ⟨d, hd, hsuf, hpre⟩ | hw
  · obtain ⟨c, hc, hmem⟩ := h.head w hl
    cases w with
    | nil => cases hc
    | cons c' w =>
      obtain rfl := Option.some.inj hc
      cases d with
      | nil => exact absurd rfl hd
      | cons d' d =>
        obtain ⟨rfl, _⟩ := List.cons_prefix_cons.mp hpre
        exact absurd (hsuf.subset List.mem_cons_self) hmem
  · exact hw

/-- Masking with an inert mark brings no word of the pattern into a text without one. -/
theorem Inert.avoids_masked {r : Regex α} {mark s o : List α} (h : Inert r mark)
    (hm : Masked mark s o) (hs : Avoids r s) : Avoids r o := by
  induction hm with
  | nil => exact hs
  | @keep c s o tail ih =>
    intro w hw hl
    rcases List.infix_cons_iff.mp hw with hw | hw
    · obtain ⟨w', hw', hl'⟩ := h.reflects _ _ w tail.keep hw hl
      exact hs w' hw'.isInfix hl'
    · exact ih (hs.mono (List.suffix_cons c s).isInfix) w hw hl
  | @mask t s o _ ih =>
    intro w hw hl
    exact ih (hs.mono (List.suffix_append t s).isInfix) w (h.skip_mark hl hw) hl

/-- A pass that writes an inert mark for each match leaves no match. -/
theorem Inert.avoids_scanned {r : Regex α} {mark s : List α} {ps : List (Piece α)}
    (h : Inert r mark) (hp : Scanned r s ps) : Avoids r (render (fun _ => mark) ps) := by
  induction hp with
  | nil =>
    intro w hw hl
    obtain ⟨c, hc, _⟩ := h.head w hl
    rw [List.infix_nil.mp hw] at hc
    cases hc
  | @kept c s ps hn tail ih =>
    intro w hw hl
    rcases List.infix_cons_iff.mp hw with hw | hw
    · have hmask : Masked mark (c :: s) (c :: render (fun _ => mark) ps) :=
        (tail.masked fun _ m _ => ⟨[], m.text, rfl, rfl⟩).keep
      obtain ⟨w', hw', hl'⟩ := h.reflects _ _ w hmask hw hl
      exact matchHere_eq_none.mp hn w' hw' hl'
    · exact ih w hw hl
  | found _ _ _ ih =>
    intro w hw hl
    exact ih w (h.skip_mark hl hw) hl

end Library.Regex
