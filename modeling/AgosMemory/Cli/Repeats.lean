import AgosMemory.Cli.Fates

/-!
# Ids and texts that a file repeats

The rows of a file, classified at once, count as they do batch by batch unless a row has the id or
the text of a row of an earlier batch. Which repeats move a row is said of the stored rows and the
file alone.
-/

namespace AgosMemory.Export

open Library

/-- What a fate adds to the counts of an import. -/
def Fate.counted (fate : Fate) : Bool × Bool := (fate.isInsert, fate.isBump)

theorem Fate.isInsert_iff {fate : Fate} : fate.isInsert = true ↔ fate = .insert := by
  cases fate <;> simp [Fate.isInsert]

def Entry.key (e : Entry) : Key := ⟨e.publicId, e.textHash, e.own⟩

namespace Catalogue

/-! ## Repeats -/

/-- The id of a row is stored. -/
def Stored (cat : Catalogue) (k : Key) : Prop := ∃ e ∈ cat.entries, e.publicId = k.publicId

/-- The text of a row is on a live row of the agent. -/
def Twinned (cat : Catalogue) (k : Key) : Prop := ∃ e ∈ cat.entries, e.textHash = k.textHash ∧ e.own

def Fresh (cat : Catalogue) (k : Key) : Prop := ¬ cat.Stored k ∧ ¬ cat.Twinned k

instance (cat : Catalogue) (k : Key) : Decidable (cat.Stored k) :=
  inferInstanceAs (Decidable (∃ e ∈ cat.entries, e.publicId = k.publicId))

instance (cat : Catalogue) (k : Key) : Decidable (cat.Twinned k) :=
  inferInstanceAs (Decidable (∃ e ∈ cat.entries, e.textHash = k.textHash ∧ e.own))

instance (cat : Catalogue) (k : Key) : Decidable (cat.Fresh k) :=
  inferInstanceAs (Decidable (¬ cat.Stored k ∧ ¬ cat.Twinned k))

/-- The last text that rows of a file bring to a stored id, other than the one it has. -/
def lastText (e : Entry) (ks : List Key) : String :=
  ks.foldl (fun hash k => if k.publicId = e.publicId ∧ k.textHash ≠ e.textHash then k.textHash
    else hash) e.textHash

/-- What the rows of earlier batches leave alone about a row. -/
structure Steady (cat : Catalogue) (earlier : List Key) (k : Key) : Prop where
  text : ∀ e ∈ cat.entries, e.publicId = k.publicId →
    (lastText e earlier = k.textHash ↔ e.textHash = k.textHash)
  unused : ∀ k' ∈ earlier, cat.Fresh k' → k'.publicId ≠ k.publicId
  twin : ¬ cat.Stored k → (cat.Twinned k ↔
    (∃ e ∈ cat.entries, lastText e earlier = k.textHash ∧ e.own) ∨
      ∃ k' ∈ earlier, cat.Fresh k' ∧ k'.textHash = k.textHash ∧ k'.live)

instance (cat : Catalogue) (earlier : List Key) (k : Key) : Decidable (cat.Steady earlier k) :=
  decidable_of_iff
    ((∀ e ∈ cat.entries, e.publicId = k.publicId →
        (lastText e earlier = k.textHash ↔ e.textHash = k.textHash)) ∧
      (∀ k' ∈ earlier, cat.Fresh k' → k'.publicId ≠ k.publicId) ∧
      (¬ cat.Stored k → (cat.Twinned k ↔
        (∃ e ∈ cat.entries, lastText e earlier = k.textHash ∧ e.own) ∨
          ∃ k' ∈ earlier, cat.Fresh k' ∧ k'.textHash = k.textHash ∧ k'.live)))
    ⟨fun h => ⟨h.1, h.2.1, h.2.2⟩, fun h => ⟨h.text, h.unused, h.twin⟩⟩

/-- No batch adds an id twice, and earlier batches move no row. -/
def Foreseen (cat : Catalogue) (earlier : List Key) : List (List Key) → Prop
  | [] => True
  | ks :: kss => ((ks.filter fun k => cat.Fresh k).map Key.publicId).Nodup ∧
      (∀ k ∈ ks, cat.Steady earlier k) ∧ cat.Foreseen (earlier ++ ks) kss

instance instDecidableForeseen (cat : Catalogue) :
    (earlier : List Key) → (kss : List (List Key)) → Decidable (cat.Foreseen earlier kss)
  | _, [] => isTrue trivial
  | earlier, ks :: kss =>
    have := instDecidableForeseen cat (earlier ++ ks) kss
    inferInstanceAs (Decidable (_ ∧ _ ∧ _))

/-- Before the last batch, no row brings another text to a stored id. -/
def Undisputed (cat : Catalogue) (kss : List (List Key)) : Prop :=
  ∀ ks ∈ kss.dropLast, ∀ k ∈ ks, ∀ e ∈ cat.entries, e.publicId = k.publicId →
    e.textHash = k.textHash

/-- A file goes through batch by batch, and its rows count as they do at once. -/
def Unmoved (cat cat' : Catalogue) (kss : List (List Key)) : Prop :=
  ∃ once ∈ cat.fates kss.flatten, ∃ turn ∈ cat'.run kss,
    once.map Fate.counted = turn.1.map Fate.counted

/-! ## How a row counts -/

private theorem fate_insert_iff {cat : Catalogue} {k : Key} (hpurged : k.publicId ∉ cat.purged) :
    cat.fate k = some .insert ↔ cat.Fresh k := by
  constructor
  · refine fun h => ⟨fun ⟨e, he, hname⟩ => fate_insert h e he hname, fun htwin => ?_⟩
    obtain ⟨id, hbump⟩ := (fate_of_unstored hpurged (fate_insert h)).mpr htwin
    rw [h] at hbump
    cases hbump
  · rintro ⟨hunstored, hnone⟩
    have hnamed : ∀ e ∈ cat.entries, e.publicId ≠ k.publicId := fun e he heq =>
      hunstored ⟨e, he, heq⟩
    obtain ⟨fate, hfate⟩ := Option.isSome_iff_exists.mp (fate_isSome_iff.mpr hpurged)
    cases fate with
    | insert => exact hfate
    | bump id => exact absurd ((fate_of_unstored hpurged hnamed).mp ⟨id, hfate⟩) hnone
    | conflict id =>
      obtain ⟨e, he, _, hname⟩ := fate_conflict hfate
      exact absurd hname (hnamed e he)

private theorem counted_of_mem {cat : Catalogue} (h : cat.Keyed) {e : Entry} (he : e ∈ cat.entries)
    {k : Key} (hname : e.publicId = k.publicId) (hpurged : k.publicId ∉ cat.purged) :
    (cat.fate k).map Fate.counted = some (false, decide (e.textHash = k.textHash)) := by
  rw [fate_of_mem h he hname hpurged]
  split
  · next hash => rw [decide_eq_true hash]; rfl
  · next hash => rw [decide_eq_false hash]; rfl

private theorem counted_of_unstored {cat : Catalogue} {k : Key} (hpurged : k.publicId ∉ cat.purged)
    (hunstored : ¬ cat.Stored k) :
    (cat.fate k).map Fate.counted = some (!decide (cat.Twinned k), decide (cat.Twinned k)) := by
  have hnamed : ∀ e ∈ cat.entries, e.publicId ≠ k.publicId := fun e he heq =>
    hunstored ⟨e, he, heq⟩
  by_cases htwin : cat.Twinned k
  · obtain ⟨id, hfate⟩ := (fate_of_unstored hpurged hnamed).mpr htwin
    rw [hfate, decide_eq_true htwin]
    rfl
  · rw [(fate_insert_iff hpurged).mpr ⟨hunstored, htwin⟩, decide_eq_false htwin]
    rfl

/-- Rows count alike in two catalogues if each does. -/
private theorem counted_iff {cat cat' : Catalogue} {ks : List Key} {fates fates' : List Fate}
    (h : cat.fates ks = some fates) (h' : cat'.fates ks = some fates') :
    fates.map Fate.counted = fates'.map Fate.counted ↔
      ∀ k ∈ ks, (cat.fate k).map Fate.counted = (cat'.fate k).map Fate.counted := by
  induction ks generalizing fates fates' with
  | nil =>
    obtain rfl := Option.some.inj h
    obtain rfl := Option.some.inj h'
    exact ⟨fun _ _ hk => (by cases hk), fun _ => rfl⟩
  | cons k ks ih =>
    obtain ⟨fate, hfate, hrest⟩ := Option.bind_eq_some_iff.mp h
    obtain ⟨rest, hks, rfl⟩ := Option.map_eq_some_iff.mp hrest
    obtain ⟨fate', hfate', hrest'⟩ := Option.bind_eq_some_iff.mp h'
    obtain ⟨rest', hks', rfl⟩ := Option.map_eq_some_iff.mp hrest'
    rw [List.map_cons, List.map_cons, List.cons.injEq, ih hks hks', List.forall_mem_cons, hfate,
      hfate', Option.map_some, Option.map_some, Option.some.injEq]

private theorem fresh_of_fates {cat : Catalogue} {ks : List Key} {fates : List Fate}
    (h : cat.fates ks = some fates) :
    ((ks.zip fates).filter fun p => p.2.isInsert).map Prod.fst = ks.filter fun k => cat.Fresh k := by
  induction ks generalizing fates with
  | nil => rfl
  | cons k ks ih =>
    obtain ⟨fate, hfate, hrest⟩ := Option.bind_eq_some_iff.mp h
    obtain ⟨rest, hks, rfl⟩ := Option.map_eq_some_iff.mp hrest
    have hpurged := fate_isSome_iff.mp (by rw [hfate]; rfl)
    have hinsert : fate.isInsert = true ↔ cat.Fresh k := by
      rw [← fate_insert_iff hpurged, hfate, Option.some.injEq]
      exact Fate.isInsert_iff
    rw [List.zip_cons_cons, List.filter_cons, List.filter_cons]
    by_cases hfresh : cat.Fresh k
    · rw [if_pos (hinsert.mpr hfresh), if_pos (decide_eq_true hfresh), List.map_cons, ih hks]
    · rw [if_neg fun h => hfresh (hinsert.mp h), if_neg (by simpa using hfresh), ih hks]

/-! ## What the write phase adds -/

private theorem writeAll_added {cat cat' : Catalogue} {ps : List (Key × Fate)}
    (h : cat.writeAll ps = some cat') :
    ∃ added, cat'.entries = cat.entries ++ added ∧
      added.map Entry.key = (ps.filter fun p => p.2.isInsert).map Prod.fst := by
  induction ps generalizing cat with
  | nil =>
    obtain rfl := Option.some.inj h
    exact ⟨[], (List.append_nil _).symm, rfl⟩
  | cons p ps ih =>
    obtain ⟨k, fate⟩ := p
    obtain ⟨mid, hmid, hrest⟩ := Option.bind_eq_some_iff.mp h
    obtain ⟨added, hentries, hkeys⟩ := ih hrest
    cases fate with
    | insert =>
      unfold write add at hmid
      simp only at hmid
      split at hmid
      · cases hmid
      · obtain rfl := Option.some.inj hmid
        refine ⟨_ :: added, hentries.trans (List.append_assoc _ [_] _), ?_⟩
        rw [List.map_cons, hkeys]
        rfl
    | bump id =>
      obtain rfl := Option.some.inj hmid
      exact ⟨added, hentries, hkeys⟩
    | conflict id =>
      obtain rfl := Option.some.inj hmid
      exact ⟨added, hentries, hkeys⟩

/-- The write phase goes through if the fresh ids are new and distinct. -/
private theorem writeAll_isSome_iff {cat : Catalogue} {ps : List (Key × Fate)} :
    (cat.writeAll ps).isSome ↔
      (((ps.filter fun p => p.2.isInsert).map Prod.fst).map Key.publicId).Nodup ∧
        ∀ k ∈ (ps.filter fun p => p.2.isInsert).map Prod.fst, ¬ cat.Stored k := by
  induction ps generalizing cat with
  | nil => exact ⟨fun _ => ⟨List.nodup_nil, fun _ hk => (by cases hk)⟩, fun _ => rfl⟩
  | cons p ps ih =>
    obtain ⟨k, fate⟩ := p
    cases fate with
    | insert =>
      show ((cat.add k).bind fun cat => cat.writeAll ps).isSome ↔ ((k ::
        (ps.filter fun p => p.2.isInsert).map Prod.fst).map Key.publicId).Nodup ∧
          ∀ k' ∈ k :: (ps.filter fun p => p.2.isInsert).map Prod.fst, ¬ cat.Stored k'
      unfold Catalogue.add
      split
      · next htaken =>
        obtain ⟨e, he, hname⟩ := List.any_eq_true.mp htaken
        exact ⟨fun h => (by cases h), fun h =>
          absurd ⟨e, he, of_decide_eq_true hname⟩ (h.2 k List.mem_cons_self)⟩
      · next hunused =>
        have hunstored : ¬ cat.Stored k := fun ⟨e, he, hname⟩ =>
          hunused (List.any_eq_true.mpr ⟨e, he, decide_eq_true hname⟩)
        rw [Option.bind_some, ih, List.map_cons, List.nodup_cons, List.forall_mem_cons]
        refine ⟨fun ⟨hnodup, hnew⟩ => ⟨⟨fun hk => ?_, hnodup⟩, hunstored, fun k' hk' => ?_⟩,
          fun ⟨⟨hk, hnodup⟩, _, hnew⟩ => ⟨hnodup, fun k' hk' => ?_⟩⟩
        · obtain ⟨k', hk', hname⟩ := List.mem_map.mp hk
          exact hnew k' hk' ⟨_, List.mem_append_right _ List.mem_cons_self, hname.symm⟩
        · rintro ⟨e, he, hname⟩
          exact hnew k' hk' ⟨e, List.mem_append_left _ he, hname⟩
        · rintro ⟨e, he, hname⟩
          rcases List.mem_append.mp he with he | he
          · exact hnew k' hk' ⟨e, he, hname⟩
          · obtain rfl := List.mem_singleton.mp he
            exact hk (List.mem_map.mpr ⟨k', hk', hname.symm⟩)
    | bump id => exact ih
    | conflict id => exact ih

private theorem revised_unnamed {ps : List (Key × Fate)} {e : Entry}
    (h : ∀ p ∈ ps, p.2 ≠ .conflict e.id) : revised ps e = e := by
  induction ps with
  | nil => rfl
  | cons p ps ih =>
    rw [revised, if_neg (h p List.mem_cons_self)]
    exact ih fun q hq => h q (List.mem_cons_of_mem _ hq)

/-! ## What batches leave -/

def retexted (ks : List Key) (e : Entry) : Entry := { e with textHash := lastText e ks }

/-- The catalogue after batches that moved no row: the stored rows with their last texts, and the
fresh rows. -/
structure Left (cat : Catalogue) (earlier : List Key) (cat' : Catalogue) : Prop where
  keyed : cat'.Keyed
  purged : cat'.purged = cat.purged
  entries : ∃ added, cat'.entries = cat.entries.map (retexted earlier) ++ added ∧
    added.map Entry.key = earlier.filter fun k => cat.Fresh k

theorem Left.refl {cat : Catalogue} (h : cat.Keyed) : cat.Left [] cat :=
  ⟨h, rfl, [], by rw [List.append_nil]; exact (List.map_id _).symm, rfl⟩

/-- What is asked of keys is asked of the stored rows and of the fresh ones. -/
theorem Left.exists_iff {cat cat' : Catalogue} {earlier : List Key} (h : cat.Left earlier cat')
    (P : Key → Prop) : (∃ e ∈ cat'.entries, P e.key) ↔
      (∃ e ∈ cat.entries, P (retexted earlier e).key) ∨ ∃ k ∈ earlier, cat.Fresh k ∧ P k := by
  obtain ⟨added, hentries, hkeys⟩ := h.entries
  have hadded : (∃ e ∈ added, P e.key) ↔ ∃ k ∈ earlier, cat.Fresh k ∧ P k := by
    have hmem : (∃ e ∈ added, P e.key) ↔ ∃ k ∈ added.map Entry.key, P k := by
      simp only [List.mem_map, exists_exists_and_eq_and]
    rw [hmem, hkeys]
    simp only [List.mem_filter, decide_eq_true_eq, and_assoc]
  rw [hentries, ← hadded]
  simp only [List.mem_append, List.mem_map, or_and_right, exists_or, exists_exists_and_eq_and]

theorem Left.stored_iff {cat cat' : Catalogue} {earlier : List Key} (h : cat.Left earlier cat')
    {k : Key} : cat'.Stored k ↔
      cat.Stored k ∨ ∃ k' ∈ earlier, cat.Fresh k' ∧ k'.publicId = k.publicId :=
  h.exists_iff fun k' => k'.publicId = k.publicId

theorem Left.twinned_iff {cat cat' : Catalogue} {earlier : List Key} (h : cat.Left earlier cat')
    {k : Key} : cat'.Twinned k ↔
      (∃ e ∈ cat.entries, lastText e earlier = k.textHash ∧ e.own) ∨
        ∃ k' ∈ earlier, cat.Fresh k' ∧ k'.textHash = k.textHash ∧ k'.live :=
  h.exists_iff fun k' => k'.textHash = k.textHash ∧ k'.live

theorem Left.mem {cat cat' : Catalogue} {earlier : List Key} (h : cat.Left earlier cat')
    {e : Entry} (he : e ∈ cat.entries) : retexted earlier e ∈ cat'.entries := by
  obtain ⟨added, hentries, _⟩ := h.entries
  rw [hentries]
  exact List.mem_append_left _ (List.mem_map_of_mem he)

/-- A row counts as it does at once if and only if the earlier rows leave it alone. -/
theorem Left.steady_iff {cat cat' : Catalogue} {earlier : List Key} (h : cat.Left earlier cat')
    (hkeyed : cat.Keyed) {k : Key} (hpurged : k.publicId ∉ cat.purged) :
    cat.Steady earlier k ↔ (cat.fate k).map Fate.counted = (cat'.fate k).map Fate.counted := by
  have hpurged' : k.publicId ∉ cat'.purged := h.purged ▸ hpurged
  by_cases hstored : cat.Stored k
  · obtain ⟨e, he, hname⟩ := hstored
    rw [counted_of_mem hkeyed he hname hpurged,
      counted_of_mem h.keyed (h.mem he) hname hpurged', Option.some.injEq, Prod.mk.injEq,
      decide_eq_decide]
    refine ⟨fun hsteady => ⟨rfl, (hsteady.text e he hname).symm⟩, fun heq =>
      ⟨fun e' he' hname' => ?_, fun k' _ hfresh heq => hfresh.1 ⟨e, he, hname.trans heq.symm⟩,
        fun hunstored => absurd ⟨e, he, hname⟩ hunstored⟩⟩
    obtain rfl := List.inj_on_of_nodup_map hkeyed.publicIds he he' (hname.trans hname'.symm)
    exact heq.2.symm
  · rw [counted_of_unstored hpurged hstored]
    by_cases hused : ∃ k' ∈ earlier, cat.Fresh k' ∧ k'.publicId = k.publicId
    · -- the id is stored by now, with a text that was on no live row
      obtain ⟨k', hk', hfresh, hname⟩ := hused
      obtain ⟨e, he, hkey⟩ := (h.exists_iff (· = k')).mpr (.inr ⟨k', hk', hfresh, rfl⟩)
      subst hkey
      refine ⟨fun hsteady => absurd hname (hsteady.unused _ hk' hfresh), fun heq => ?_⟩
      rw [counted_of_mem h.keyed he hname hpurged', Option.some.injEq, Prod.mk.injEq] at heq
      have htwin : cat.Twinned k := by simpa using heq.1
      have hhash : e.textHash = k.textHash := by simpa [htwin] using heq.2
      obtain ⟨e', he', hhash', hown⟩ := htwin
      exact absurd ⟨e', he', hhash'.trans hhash.symm, hown⟩ hfresh.2
    · have hunstored : ¬ cat'.Stored k := fun hstored' =>
        (h.stored_iff.mp hstored').elim hstored hused
      rw [counted_of_unstored hpurged' hunstored, Option.some.injEq, Prod.mk.injEq,
        Bool.not_inj_iff, and_self, decide_eq_decide, h.twinned_iff]
      refine ⟨fun hsteady => hsteady.twin hstored, fun htwin => ⟨fun e he hname => ?_, ?_, fun _ =>
        htwin⟩⟩
      · exact absurd ⟨e, he, hname⟩ hstored
      · exact fun k' hk' hfresh hname => hused ⟨k', hk', hfresh, hname⟩

/-- A row that counts alike is fresh alike. -/
private theorem fresh_iff_of_counted {cat cat' : Catalogue} {k : Key}
    (hpurged : k.publicId ∉ cat.purged)
    (hpurged' : k.publicId ∉ cat'.purged)
    (h : (cat.fate k).map Fate.counted = (cat'.fate k).map Fate.counted) :
    cat'.Fresh k ↔ cat.Fresh k := by
  obtain ⟨fate, hfate⟩ := Option.isSome_iff_exists.mp (fate_isSome_iff.mpr hpurged)
  obtain ⟨fate', hfate'⟩ := Option.isSome_iff_exists.mp (fate_isSome_iff.mpr hpurged')
  rw [hfate, hfate', Option.map_some, Option.map_some, Option.some.injEq, Prod.mk.injEq] at h
  have hinsert : fate.isInsert = fate'.isInsert := h.1
  rw [← fate_insert_iff hpurged, ← fate_insert_iff hpurged', hfate, hfate', Option.some.injEq,
    Option.some.injEq, ← Fate.isInsert_iff, ← Fate.isInsert_iff, hinsert]

/-- Versioning gives an entry the last of the other texts, if its conflicts are the rows with one. -/
private theorem revised_retexted {e : Entry} {ps : List (Key × Fate)} (h : ∀ p ∈ ps,
    (p.2 = .conflict e.id ↔ p.1.publicId = e.publicId ∧ p.1.textHash ≠ e.textHash))
    (earlier : List Key) :
    revised ps (retexted earlier e) = retexted (earlier ++ ps.map Prod.fst) e := by
  induction ps generalizing earlier with
  | nil =>
    rw [List.map_nil, List.append_nil]
    rfl
  | cons p ps ih =>
    have hstep : (if p.2 = .conflict (retexted earlier e).id then
        { retexted earlier e with textHash := p.1.textHash } else retexted earlier e) =
          retexted (earlier ++ [p.1]) e := by
      unfold retexted lastText
      rw [List.foldl_append, List.foldl_cons, List.foldl_nil]
      simp only [h p List.mem_cons_self]
      split <;> rfl
    rw [revised, hstep, ih (fun q hq => h q (List.mem_cons_of_mem _ hq)), List.map_cons,
      List.append_assoc, List.singleton_append]

/-- A row under a stored id conflicts in turn if it does at once. -/
theorem Left.conflict_iff {cat cat' : Catalogue} {earlier : List Key} (h : cat.Left earlier cat')
    {k : Key} (hsteady : cat.Steady earlier k) {fate : Fate} (hfate : cat'.fate k = some fate)
    {e : Entry} (he : e ∈ cat.entries) :
    fate = .conflict e.id ↔ k.publicId = e.publicId ∧ k.textHash ≠ e.textHash := by
  have hpurged : k.publicId ∉ cat'.purged := fate_isSome_iff.mp (by rw [hfate]; rfl)
  have htext (hname : e.publicId = k.publicId) :
      (retexted earlier e).textHash = k.textHash ↔ e.textHash = k.textHash :=
    hsteady.text e he hname
  constructor
  · rintro rfl
    obtain ⟨e₀, he₀, hid, hname⟩ := fate_conflict hfate
    obtain rfl := List.inj_on_of_nodup_map h.keyed.ids he₀ (h.mem he) hid
    refine ⟨hname.symm, fun heq => ?_⟩
    rw [fate_of_mem h.keyed (h.mem he) hname hpurged,
      if_pos ((htext hname).mpr heq.symm)] at hfate
    cases hfate
  · rintro ⟨hname, hne⟩
    rw [fate_of_mem h.keyed (h.mem he) hname.symm hpurged,
      if_neg fun heq => hne ((htext hname.symm).mp heq).symm] at hfate
    exact (Option.some.inj hfate).symm

/-- A batch of rows that no earlier row moves. -/
theorem Left.batch {cat cat' cat'' : Catalogue} {earlier ks : List Key} (h : cat.Left earlier cat')
    (hkeyed : cat.Keyed) (hsteady : ∀ k ∈ ks, cat.Steady earlier k) {fates : List Fate}
    (hbatch : cat'.batch ks = some (fates, cat'')) : cat.Left (earlier ++ ks) cat'' := by
  obtain ⟨hfates, written, hwrite, rfl⟩ := batch_some hbatch
  obtain ⟨added, hentries, hkeys⟩ := h.entries
  obtain ⟨new, hwritten, hnew⟩ := writeAll_added hwrite
  have hunpurged' : ∀ k ∈ ks, k.publicId ∉ cat'.purged :=
    fates_isSome_iff.mp (by rw [hfates]; rfl)
  have hunpurged : ∀ k ∈ ks, k.publicId ∉ cat.purged := h.purged ▸ hunpurged'
  have hcounted : ∀ k ∈ ks, (cat.fate k).map Fate.counted = (cat'.fate k).map Fate.counted :=
    fun k hk => (h.steady_iff hkeyed (hunpurged k hk)).mp (hsteady k hk)
  refine ⟨h.keyed.batch hbatch, (purged_batch hbatch).trans h.purged, added ++ new, ?_, ?_⟩
  · have hconflict : ∀ p ∈ ks.zip fates, ∀ e ∈ cat'.entries, p.2 = .conflict e.id →
        e.publicId = p.1.publicId := by
      intro p hp e he heq
      obtain ⟨e₀, he₀, hid, hname⟩ := fate_conflict (heq ▸ fate_of_zip hfates p hp)
      obtain rfl := List.inj_on_of_nodup_map h.keyed.ids he₀ he hid
      exact hname
    have hstored : ∀ e ∈ cat.entries,
        revised (ks.zip fates) (retexted earlier e) = retexted (earlier ++ ks) e := by
      intro e he
      rw [revised_retexted (fun p hp => h.conflict_iff (hsteady p.1 (List.of_mem_zip hp).1)
        (fate_of_zip hfates p hp) he), List.map_fst_zip (fates_length hfates).ge]
    have hadded : ∀ e ∈ added, revised (ks.zip fates) e = e := by
      intro e he
      have hfresh : e.key ∈ earlier.filter fun k => cat.Fresh k :=
        hkeys ▸ List.mem_map_of_mem he
      obtain ⟨hearlier, hfresh⟩ := List.mem_filter.mp hfresh
      refine revised_unnamed fun p hp heq => (hsteady p.1 (List.of_mem_zip hp).1).unused _ hearlier
        (of_decide_eq_true hfresh) ?_
      exact hconflict p hp e (hentries ▸ List.mem_append_right _ he) heq
    have hnewest : ∀ e ∈ new, revised (ks.zip fates) e = e := by
      -- a conflict names a row that was there before the write phase
      intro e he
      refine revised_unnamed fun p hp heq => ?_
      obtain ⟨e₀, he₀, hid⟩ := List.mem_map.mp (has_of_fates hfates p hp e.id (by rw [heq]; rfl))
      have hids := (h.keyed.writeAll hwrite).1.ids
      rw [hwritten, List.map_append, List.nodup_append] at hids
      exact hids.2.2 e₀.id (List.mem_map_of_mem he₀) e.id (List.mem_map_of_mem he) hid
    rw [reviseAll_entries, hwritten, hentries, List.map_append, List.map_append, List.map_map,
      List.append_assoc, List.map_congr_left hadded, List.map_congr_left hnewest, List.map_id',
      List.map_id']
    exact congrArg (· ++ _) (List.map_congr_left hstored)
  · rw [List.map_append, hkeys, hnew, fresh_of_fates hfates, List.filter_append]
    refine congrArg _ (List.filter_congr fun k hk => decide_eq_decide.mpr ?_)
    exact fresh_iff_of_counted (hunpurged k hk) (hunpurged' k hk) (hcounted k hk)

/-- Such a batch goes through if it adds no id twice. -/
theorem Left.batch_isSome_iff {cat cat' : Catalogue} {earlier ks : List Key}
    (h : cat.Left earlier cat') (hkeyed : cat.Keyed) (hpurged : ∀ k ∈ ks, k.publicId ∉ cat.purged)
    (hsteady : ∀ k ∈ ks, cat.Steady earlier k) :
    (cat'.batch ks).isSome ↔ ((ks.filter fun k => cat.Fresh k).map Key.publicId).Nodup := by
  have hpurged' : ∀ k ∈ ks, k.publicId ∉ cat'.purged := h.purged ▸ hpurged
  obtain ⟨fates, hfates⟩ := Option.isSome_iff_exists.mp (fates_isSome_iff.mpr hpurged')
  have hfresh : (ks.filter fun k => cat'.Fresh k) = ks.filter fun k => cat.Fresh k := by
    refine List.filter_congr fun k hk => decide_eq_decide.mpr ?_
    exact fresh_iff_of_counted (hpurged k hk) (hpurged' k hk)
      ((h.steady_iff hkeyed (hpurged k hk)).mp (hsteady k hk))
  have hbatch : (cat'.batch ks).isSome ↔ (cat'.writeAll (ks.zip fates)).isSome := by
    unfold Catalogue.batch
    rw [hfates, Option.bind_some, Option.isSome_map]
  rw [hbatch, writeAll_isSome_iff, fresh_of_fates hfates, ← hfresh]
  refine and_iff_left fun k hk => ?_
  exact (of_decide_eq_true (List.mem_filter.mp hk).2).1

theorem Left.foreseen_iff {cat cat' : Catalogue} {earlier : List Key} (h : cat.Left earlier cat')
    (hkeyed : cat.Keyed) {kss : List (List Key)}
    (hpurged : ∀ k ∈ kss.flatten, k.publicId ∉ cat.purged) :
    cat.Foreseen earlier kss ↔ cat.Unmoved cat' kss := by
  induction kss generalizing earlier cat' with
  | nil => exact ⟨fun _ => ⟨[], rfl, ([], cat'), rfl, rfl⟩, fun _ => trivial⟩
  | cons ks kss ih =>
    have hhead : ∀ k ∈ ks, k.publicId ∉ cat.purged := fun k hk =>
      hpurged k (List.mem_append_left _ hk)
    have htail : ∀ k ∈ kss.flatten, k.publicId ∉ cat.purged := fun k hk =>
      hpurged k (List.mem_append_right _ hk)
    obtain ⟨first, hfirst⟩ := Option.isSome_iff_exists.mp (fates_isSome_iff.mpr hhead)
    constructor
    · rintro ⟨hnodup, hsteady, hrest⟩
      obtain ⟨⟨fates, mid⟩, hbatch⟩ := Option.isSome_iff_exists.mp
        ((h.batch_isSome_iff hkeyed hhead hsteady).mpr hnodup)
      obtain ⟨once, honce, ⟨turn, last⟩, hturn, hcounted⟩ :=
        (ih (h.batch hkeyed hsteady hbatch) htail).mp hrest
      refine ⟨first ++ once, ?_, (fates ++ turn, last), ?_, ?_⟩
      · rw [List.flatten_cons, fates_append, hfirst, honce]
        rfl
      · rw [run, hbatch, Option.bind_some, hturn]
        rfl
      · rw [List.map_append, List.map_append, hcounted, (counted_iff hfirst
          (batch_some hbatch).1).mpr fun k hk => (h.steady_iff hkeyed (hhead k hk)).mp (hsteady k hk)]
    · rintro ⟨all, hall, ⟨turns, last⟩, hrun, hcounted⟩
      obtain ⟨⟨fates, mid⟩, hbatch, hrest⟩ := Option.bind_eq_some_iff.mp hrun
      obtain ⟨⟨turn, last'⟩, hturn, heq⟩ := Option.map_eq_some_iff.mp hrest
      obtain ⟨rfl, rfl⟩ := Prod.mk.inj heq
      rw [List.flatten_cons, fates_append, hfirst, Option.bind_some] at hall
      obtain ⟨once, honce, rfl⟩ := Option.map_eq_some_iff.mp hall
      have hlen : (first.map Fate.counted).length = (fates.map Fate.counted).length := by
        rw [List.length_map, List.length_map, fates_length hfirst,
          fates_length (batch_some hbatch).1]
      rw [List.map_append, List.map_append] at hcounted
      obtain ⟨hfates, hlater⟩ := List.append_inj hcounted hlen
      have hsteady : ∀ k ∈ ks, cat.Steady earlier k := fun k hk =>
        (h.steady_iff hkeyed (hhead k hk)).mpr
          ((counted_iff hfirst (batch_some hbatch).1).mp hfates k hk)
      refine ⟨(h.batch_isSome_iff hkeyed hhead hsteady).mp (by rw [hbatch]; rfl), hsteady, ?_⟩
      exact (ih (h.batch hkeyed hsteady hbatch) htail).mpr ⟨once, honce, _, hturn, hlater⟩

/-- No row is moved exactly when no batch adds an id twice and the rows before a batch leave its
rows alone. -/
theorem foreseen_iff_unmoved {cat : Catalogue} (hkeyed : cat.Keyed) {kss : List (List Key)}
    (hpurged : ∀ k ∈ kss.flatten, k.publicId ∉ cat.purged) :
    cat.Foreseen [] kss ↔ cat.Unmoved cat kss :=
  (Left.refl hkeyed).foreseen_iff hkeyed hpurged

/-! ## Equal counts -/

/-- A row in turn counts as fresh only if it does at once, and then as a reference only if it does
at once. -/
def Lags (once turn : Fate) : Prop :=
  (turn.isInsert → once.isInsert) ∧ (once.isInsert = turn.isInsert → turn.isBump → once.isBump)

private theorem ite_le_of_imp {a b : Bool} (h : a → b) :
    (if a = true then 1 else 0) ≤ if b = true then 1 else 0 := by
  cases a <;> cases b <;> simp at h ⊢

private theorem eq_of_ite_eq {a b : Bool}
    (h : (if a = true then 1 else 0) = if b = true then 1 else 0) : a = b := by
  cases a <;> cases b <;> simp at h ⊢

/-- Rows that lag never gain fresh ones, and equal counts leave none behind. -/
private theorem counted_of_lags {once turn : List Fate} (h : List.Forall₂ Lags once turn) :
    turn.countP Fate.isInsert ≤ once.countP Fate.isInsert ∧
      (once.countP Fate.isInsert = turn.countP Fate.isInsert →
        turn.countP Fate.isBump ≤ once.countP Fate.isBump ∧
          (once.countP Fate.isBump = turn.countP Fate.isBump →
            once.map Fate.counted = turn.map Fate.counted)) := by
  induction h with
  | nil => exact ⟨Nat.le_refl _, fun _ => ⟨Nat.le_refl _, fun _ => rfl⟩⟩
  | @cons f g once turn hlags _ ih =>
    obtain ⟨hinsert, hbump⟩ := hlags
    obtain ⟨hle, hrest⟩ := ih
    have hfirst := ite_le_of_imp hinsert
    simp only [List.countP_cons]
    refine ⟨by omega, fun heq => ?_⟩
    have hsame : f.isInsert = g.isInsert := eq_of_ite_eq (by omega)
    obtain ⟨hle', hcounted⟩ := hrest (by omega)
    have hfirst' := ite_le_of_imp (hbump hsame)
    refine ⟨by omega, fun heq' => ?_⟩
    rw [List.map_cons, List.map_cons, hcounted (by omega)]
    have hsame' : f.isBump = g.isBump := eq_of_ite_eq (by omega)
    rw [Fate.counted, hsame, hsame', Fate.counted]

/-- The stored rows are there as they were. -/
structure Extends (cat cat' : Catalogue) : Prop where
  keyed : cat'.Keyed
  purged : cat'.purged = cat.purged
  kept : ∀ e ∈ cat.entries, e ∈ cat'.entries

theorem Extends.lags {cat cat' : Catalogue} (h : cat.Extends cat') (hkeyed : cat.Keyed) {k : Key}
    {once turn : Fate} (honce : cat.fate k = some once) (hturn : cat'.fate k = some turn) :
    Lags once turn := by
  have hpurged : k.publicId ∉ cat.purged := fate_isSome_iff.mp (by rw [honce]; rfl)
  have hpurged' : k.publicId ∉ cat'.purged := h.purged ▸ hpurged
  by_cases hstored : cat.Stored k
  · obtain ⟨e, he, hname⟩ := hstored
    rw [fate_of_mem hkeyed he hname hpurged] at honce
    rw [fate_of_mem h.keyed (h.kept e he) hname hpurged', honce] at hturn
    obtain rfl := Option.some.inj hturn
    exact ⟨id, fun _ => id⟩
  · have hcounted := counted_of_unstored hpurged hstored
    rw [honce, Option.map_some, Option.some.injEq, Prod.mk.injEq] at hcounted
    obtain ⟨hinsert, hbump⟩ : once.isInsert = _ ∧ once.isBump = _ := hcounted
    constructor
    · intro h'
      obtain rfl := Fate.isInsert_iff.mp h'
      have hnone : ¬ cat.Twinned k := fun ⟨e, he, htwin⟩ =>
        ((fate_insert_iff hpurged').mp hturn).2 ⟨e, h.kept e he, htwin⟩
      rw [hinsert, decide_eq_false hnone]
      rfl
    · intro hsame hturn'
      have hnone : turn.isInsert = false := by
        cases turn <;> first | rfl | cases hturn'
      rw [hinsert, hnone, Bool.not_eq_false'] at hsame
      rw [hbump, hsame]

theorem Extends.fates_lag {cat cat' : Catalogue} (h : cat.Extends cat') (hkeyed : cat.Keyed)
    {ks : List Key} {once turn : List Fate} (honce : cat.fates ks = some once)
    (hturn : cat'.fates ks = some turn) : List.Forall₂ Lags once turn := by
  induction ks generalizing once turn with
  | nil =>
    obtain rfl := Option.some.inj honce
    obtain rfl := Option.some.inj hturn
    exact .nil
  | cons k ks ih =>
    obtain ⟨f, hf, hrest⟩ := Option.bind_eq_some_iff.mp honce
    obtain ⟨once, honce', rfl⟩ := Option.map_eq_some_iff.mp hrest
    obtain ⟨g, hg, hrest'⟩ := Option.bind_eq_some_iff.mp hturn
    obtain ⟨turn, hturn', rfl⟩ := Option.map_eq_some_iff.mp hrest'
    exact .cons (h.lags hkeyed hf hg) (ih honce' hturn')

/-- Rows that bring no other text to a stored id leave the stored rows as they were. -/
theorem Extends.batch {cat cat' cat'' : Catalogue} (h : cat.Extends cat') {ks : List Key}
    {fates : List Fate}
    (hks : ∀ k ∈ ks, ∀ e ∈ cat.entries, e.publicId = k.publicId → e.textHash = k.textHash)
    (hbatch : cat'.batch ks = some (fates, cat'')) : cat.Extends cat'' := by
  refine ⟨h.keyed.batch hbatch, (purged_batch hbatch).trans h.purged, fun e he => ?_⟩
  obtain ⟨hfates, written, hwrite, rfl⟩ := batch_some hbatch
  have hthere : e ∈ written.entries := (h.keyed.writeAll hwrite).2 e (h.kept e he)
  rw [reviseAll_entries]
  refine List.mem_map.mpr ⟨e, hthere, revised_unnamed fun p hp heq => ?_⟩
  have hfate : cat'.fate p.1 = some (.conflict e.id) := heq ▸ fate_of_zip hfates p hp
  have hpurged : p.1.publicId ∉ cat'.purged := fate_isSome_iff.mp (by rw [hfate]; rfl)
  obtain ⟨e₀, he₀, hid, hname⟩ := fate_conflict hfate
  obtain rfl := List.inj_on_of_nodup_map h.keyed.ids he₀ (h.kept e he) hid
  rw [fate_of_mem h.keyed he₀ hname hpurged,
    if_pos (hks p.1 (List.of_mem_zip hp).1 e₀ he hname)] at hfate
  cases hfate

theorem Extends.run_lags {cat cat' last : Catalogue} (h : cat.Extends cat') (hkeyed : cat.Keyed)
    {kss : List (List Key)} (hund : cat.Undisputed kss) {once turn : List Fate}
    (honce : cat.fates kss.flatten = some once) (hturn : cat'.run kss = some (turn, last)) :
    List.Forall₂ Lags once turn := by
  induction kss generalizing cat' once turn with
  | nil =>
    obtain rfl := Option.some.inj honce
    obtain ⟨rfl, _⟩ := Prod.mk.inj (Option.some.inj hturn)
    exact .nil
  | cons ks kss ih =>
    obtain ⟨⟨fates, mid⟩, hbatch, hrest⟩ := Option.bind_eq_some_iff.mp hturn
    obtain ⟨⟨later, last'⟩, hlater, heq⟩ := Option.map_eq_some_iff.mp hrest
    obtain ⟨rfl, rfl⟩ := Prod.mk.inj heq
    rw [List.flatten_cons, fates_append] at honce
    obtain ⟨first, hfirst, hmap⟩ := Option.bind_eq_some_iff.mp honce
    obtain ⟨rest, hrest', rfl⟩ := Option.map_eq_some_iff.mp hmap
    refine List.rel_append (h.fates_lag hkeyed hfirst (batch_some hbatch).1) ?_
    cases kss with
    | nil =>
      obtain rfl := Option.some.inj hrest'
      obtain ⟨rfl, _⟩ := Prod.mk.inj (Option.some.inj hlater)
      exact .nil
    | cons ks' kss =>
      have hdrop : (ks :: ks' :: kss).dropLast = ks :: (ks' :: kss).dropLast := rfl
      rw [Undisputed, hdrop, List.forall_mem_cons] at hund
      exact ih (h.batch hund.1 hbatch) hund.2 hrest' hlater

/-- If no row before the last batch brings another text to a stored id, equal counts mean that no
row is moved. -/
theorem unmoved_of_counts {cat last : Catalogue} (hkeyed : cat.Keyed) {kss : List (List Key)}
    (hund : cat.Undisputed kss) {once turn : List Fate}
    (honce : cat.fates kss.flatten = some once) (hturn : cat.run kss = some (turn, last))
    (hinsert : once.countP Fate.isInsert = turn.countP Fate.isInsert)
    (hbump : once.countP Fate.isBump = turn.countP Fate.isBump) : cat.Unmoved cat kss := by
  have hextends : cat.Extends cat := ⟨hkeyed, rfl, fun _ he => he⟩
  have hlags := hextends.run_lags hkeyed hund honce hturn
  exact ⟨once, honce, (turn, last), hturn, ((counted_of_lags hlags).2 hinsert).2 hbump⟩

/-- Without that, counts can agree by chance: "z" is fresh in turn, as "x" has lost its text, and
"w" is a reference, as "y" has brought its own. -/
example :
    let cat : Catalogue := ⟨[⟨1, "x", "tea", true⟩], 1, []⟩
    let kss : List (List Key) := [[⟨"x", "mug", true⟩, ⟨"y", "cup", true⟩],
      [⟨"z", "tea", true⟩, ⟨"w", "cup", true⟩]]
    ¬ cat.Foreseen [] kss ∧ cat.fates kss.flatten = some [.conflict 1, .insert, .bump 1, .insert] ∧
      (cat.run kss).map Prod.fst = some [.conflict 1, .insert, .insert, .bump 2] := by
  decide

/-- Rows that count alike are as many fresh ones and as many references. -/
theorem countP_of_counted {once turn : List Fate}
    (h : once.map Fate.counted = turn.map Fate.counted) :
    once.countP Fate.isInsert = turn.countP Fate.isInsert ∧
      once.countP Fate.isBump = turn.countP Fate.isBump := by
  have hinsert : ∀ fates : List Fate,
      fates.countP Fate.isInsert = (fates.map Fate.counted).countP Prod.fst := by
    intro fates
    rw [List.countP_map]
    rfl
  have hbump : ∀ fates : List Fate,
      fates.countP Fate.isBump = (fates.map Fate.counted).countP Prod.snd := by
    intro fates
    rw [List.countP_map]
    rfl
  rw [hinsert, hinsert, hbump, hbump, h]
  exact ⟨rfl, rfl⟩

end Catalogue

end AgosMemory.Export
