import AgosMemory.Cli.Catalogue

/-!
# Classifying the rows of a file

Ids and numbers name one entry of a catalogue, through every batch. With them the fate of a row is
decided by the entry under its public id, or else by the live rows with its text.
-/

namespace AgosMemory.Export

open Library

namespace Catalogue

/-! ## Rows in turn and at once -/

theorem fates_append (cat : Catalogue) (ks ks' : List Key) :
    cat.fates (ks ++ ks') =
      (cat.fates ks).bind fun fates => (cat.fates ks').map fun rest => fates ++ rest := by
  induction ks with
  | nil =>
    show cat.fates ks' = (cat.fates ks').map fun rest => [] ++ rest
    exact Option.map_id'.symm
  | cons k ks ih =>
    rw [List.cons_append, fates, fates, ih]
    cases cat.fate k with
    | none => rfl
    | some fate =>
      cases cat.fates ks with
      | none => rfl
      | some fates => cases cat.fates ks' <;> rfl

theorem fate_isSome_iff {cat : Catalogue} {k : Key} :
    (cat.fate k).isSome ↔ k.publicId ∉ cat.purged := by
  unfold Catalogue.fate
  split
  · next hpurged => exact ⟨fun h => (by cases h), fun h => absurd hpurged h⟩
  · next hpurged =>
    refine ⟨fun _ => hpurged, fun _ => ?_⟩
    split
    · split <;> rfl
    · split <;> rfl

/-- Rows are classified unless the id of one was purged. -/
theorem fates_isSome_iff {cat : Catalogue} {ks : List Key} :
    (cat.fates ks).isSome ↔ ∀ k ∈ ks, k.publicId ∉ cat.purged := by
  induction ks with
  | nil => exact ⟨fun _ _ hk => (by cases hk), fun _ => rfl⟩
  | cons k ks ih =>
    rw [List.forall_mem_cons, ← ih, ← fate_isSome_iff, fates]
    cases cat.fate k with
    | none => exact ⟨fun h => (by cases h), fun h => (by cases h.1)⟩
    | some fate =>
      rw [Option.bind_some, Option.isSome_map]
      exact ⟨fun h => ⟨rfl, h⟩, fun h => h.2⟩

/-! A batch purges nothing. -/

private theorem purged_write {cat cat' : Catalogue} {p : Key × Fate} (h : cat.write p = some cat') :
    cat'.purged = cat.purged := by
  unfold write at h
  split at h
  · unfold add at h
    split at h
    · cases h
    · obtain rfl := Option.some.inj h
      rfl
  all_goals
    obtain rfl := Option.some.inj h
    rfl

private theorem purged_writeAll {cat cat' : Catalogue} {ps : List (Key × Fate)}
    (h : cat.writeAll ps = some cat') : cat'.purged = cat.purged := by
  induction ps generalizing cat with
  | nil =>
    obtain rfl := Option.some.inj h
    rfl
  | cons p ps ih =>
    obtain ⟨mid, hmid, hrest⟩ := Option.bind_eq_some_iff.mp h
    exact (ih hrest).trans (purged_write hmid)

private theorem purged_reviseAll (cat : Catalogue) (ps : List (Key × Fate)) :
    (cat.reviseAll ps).purged = cat.purged := by
  induction ps generalizing cat with
  | nil => rfl
  | cons p ps ih =>
    rw [reviseAll, ih]
    unfold revise
    split <;> rfl

theorem purged_batch {cat cat' : Catalogue} {ks : List Key} {fates : List Fate}
    (h : cat.batch ks = some (fates, cat')) : cat'.purged = cat.purged := by
  obtain ⟨_, written, hwrite, rfl⟩ := batch_some h
  rw [purged_reviseAll, purged_writeAll hwrite]

/-- What goes through in turn is classified at once. -/
theorem fates_of_run {cat : Catalogue} {kss : List (List Key)} (h : (cat.run kss).isSome) :
    (cat.fates kss.flatten).isSome := by
  rw [fates_isSome_iff]
  induction kss generalizing cat with
  | nil => exact List.forall_mem_nil _
  | cons ks kss ih =>
    obtain ⟨⟨all, last⟩, hall⟩ := Option.isSome_iff_exists.mp h
    obtain ⟨⟨fates, mid⟩, hfirst, hrest⟩ := Option.bind_eq_some_iff.mp hall
    obtain ⟨rest, hrun, _⟩ := Option.map_eq_some_iff.mp hrest
    intro k hk
    rcases List.mem_append.mp hk with hk | hk
    · exact fates_isSome_iff.mp (by rw [(batch_some hfirst).1]; rfl) k hk
    · rw [← purged_batch hfirst]
      exact ih (by rw [hrun]; rfl) k hk

/-! ## Keys of a catalogue -/

/-- Row numbers and public ids name one entry, and numbers are given out in turn. -/
structure Keyed (cat : Catalogue) : Prop where
  ids : (cat.entries.map Entry.id).Nodup
  bound : ∀ e ∈ cat.entries, e.id ≤ cat.seq
  publicIds : (cat.entries.map Entry.publicId).Nodup

theorem Keyed.add {cat cat' : Catalogue} (h : cat.Keyed) {k : Key} (hadd : cat.add k = some cat') :
    cat'.Keyed := by
  unfold Catalogue.add at hadd
  split at hadd
  · cases hadd
  next hunused =>
  obtain rfl := Option.some.inj hadd
  refine ⟨?_, ?_, ?_⟩
  · rw [List.map_append, List.nodup_append]
    refine ⟨h.ids, List.nodup_singleton _, fun i hi j hj => ?_⟩
    obtain ⟨e, he, rfl⟩ := List.mem_map.mp hi
    obtain rfl := List.mem_singleton.mp hj
    have := h.bound e he
    show e.id ≠ cat.seq + 1
    omega
  · intro e he
    rcases List.mem_append.mp he with he | he
    · have := h.bound e he
      show e.id ≤ cat.seq + 1
      omega
    · obtain rfl := List.mem_singleton.mp he
      exact Int.le_refl _
  · rw [List.map_append, List.nodup_append]
    refine ⟨h.publicIds, List.nodup_singleton _, fun i hi j hj => ?_⟩
    obtain ⟨e, he, rfl⟩ := List.mem_map.mp hi
    obtain rfl := List.mem_singleton.mp hj
    intro heq
    exact hunused (List.any_eq_true.mpr ⟨e, he, decide_eq_true heq⟩)

/-- An entry that the write phase leaves was there, or is that of a fresh row. -/
theorem mem_writeAll {cat cat' : Catalogue} {ps : List (Key × Fate)}
    (h : cat.writeAll ps = some cat') {e : Entry} (he : e ∈ cat'.entries) :
    e ∈ cat.entries ∨ ∃ p ∈ ps, e.publicId = p.1.publicId ∧ e.textHash = p.1.textHash := by
  induction ps generalizing cat with
  | nil =>
    obtain rfl := Option.some.inj h
    exact .inl he
  | cons p ps ih =>
    obtain ⟨mid, hmid, hrest⟩ := Option.bind_eq_some_iff.mp h
    rcases ih hrest with hthere | ⟨q, hq, hkey⟩
    · unfold write at hmid
      split at hmid
      · unfold add at hmid
        split at hmid
        · cases hmid
        · obtain rfl := Option.some.inj hmid
          rcases List.mem_append.mp hthere with hthere | hnew
          · exact .inl hthere
          · obtain rfl := List.mem_singleton.mp hnew
            exact .inr ⟨p, List.mem_cons_self, rfl, rfl⟩
      all_goals
        obtain rfl := Option.some.inj hmid
        exact .inl hthere
    · exact .inr ⟨q, List.mem_cons_of_mem _ hq, hkey⟩

theorem Keyed.writeAll {cat cat' : Catalogue} (h : cat.Keyed) {ps : List (Key × Fate)}
    (hwrite : cat.writeAll ps = some cat') : cat'.Keyed ∧ ∀ e ∈ cat.entries, e ∈ cat'.entries := by
  induction ps generalizing cat with
  | nil =>
    obtain rfl := Option.some.inj hwrite
    exact ⟨h, fun _ he => he⟩
  | cons p ps ih =>
    obtain ⟨mid, hmid, hrest⟩ := Option.bind_eq_some_iff.mp hwrite
    unfold write at hmid
    split at hmid
    · obtain ⟨hkeyed, hkept⟩ := ih (h.add hmid) hrest
      refine ⟨hkeyed, fun e he => hkept e ?_⟩
      unfold Catalogue.add at hmid
      split at hmid
      · cases hmid
      · obtain rfl := Option.some.inj hmid
        exact List.mem_append_left _ he
    all_goals
      obtain rfl := Option.some.inj hmid
      exact ih h hrest

/-- What the versioning phase makes of an entry: the text of its last conflict. -/
def revised : List (Key × Fate) → Entry → Entry
  | [], e => e
  | p :: ps, e => revised ps (if p.2 = .conflict e.id then { e with textHash := p.1.textHash } else e)

private theorem revise_entries (cat : Catalogue) (p : Key × Fate) :
    (cat.revise p).entries = cat.entries.map fun e =>
      if p.2 = .conflict e.id then { e with textHash := p.1.textHash } else e := by
  unfold revise
  split
  · next id hfate =>
    refine List.map_congr_left fun e _ => ?_
    simp only [hfate, Fate.conflict.injEq, eq_comm]
  · next hfate => simp [hfate]
  · next hfate => simp [hfate]

theorem reviseAll_entries (cat : Catalogue) (ps : List (Key × Fate)) :
    (cat.reviseAll ps).entries = cat.entries.map (revised ps) := by
  induction ps generalizing cat with
  | nil => exact (List.map_id _).symm
  | cons p ps ih =>
    rw [reviseAll, ih, revise_entries, List.map_map]
    rfl

private theorem reviseAll_seq (cat : Catalogue) (ps : List (Key × Fate)) :
    (cat.reviseAll ps).seq = cat.seq := by
  induction ps generalizing cat with
  | nil => rfl
  | cons p ps ih =>
    rw [reviseAll, ih]
    unfold revise
    split <;> rfl

/-- Nothing but the text changes. -/
theorem revised_fixed (ps : List (Key × Fate)) (e : Entry) :
    (revised ps e).id = e.id ∧ (revised ps e).publicId = e.publicId ∧
      (revised ps e).own = e.own := by
  induction ps generalizing e with
  | nil => exact ⟨rfl, rfl, rfl⟩
  | cons p ps ih =>
    rw [revised]
    split
    · exact ih { e with textHash := p.1.textHash }
    · exact ih e

/-- An entry whose conflicts agree on a text has that text, if it had it or there was one. -/
theorem revised_hash {ps : List (Key × Fate)} {e : Entry} {hash : String}
    (hall : ∀ p ∈ ps, p.2 = .conflict e.id → p.1.textHash = hash)
    (hsome : e.textHash = hash ∨ ∃ p ∈ ps, p.2 = .conflict e.id) :
    (revised ps e).textHash = hash := by
  induction ps generalizing e with
  | nil =>
    rcases hsome with heq | ⟨p, hp, _⟩
    · exact heq
    · cases hp
  | cons p ps ih =>
    rw [revised]
    split
    · next hfate =>
      exact ih (e := { e with textHash := p.1.textHash })
        (fun q hq => hall q (List.mem_cons_of_mem _ hq)) (.inl (hall p List.mem_cons_self hfate))
    · next hfate =>
      refine ih (fun q hq => hall q (List.mem_cons_of_mem _ hq)) ?_
      rcases hsome with heq | ⟨q, hq, hconflict⟩
      · exact .inl heq
      · rcases List.mem_cons.mp hq with rfl | hq
        · exact absurd hconflict hfate
        · exact .inr ⟨q, hq, hconflict⟩

theorem Keyed.reviseAll {cat : Catalogue} (h : cat.Keyed) (ps : List (Key × Fate)) :
    (cat.reviseAll ps).Keyed := by
  have hids : (cat.reviseAll ps).entries.map Entry.id = cat.entries.map Entry.id := by
    rw [reviseAll_entries, List.map_map]
    exact List.map_congr_left fun e _ => (revised_fixed ps e).1
  have hnames : (cat.reviseAll ps).entries.map Entry.publicId = cat.entries.map Entry.publicId := by
    rw [reviseAll_entries, List.map_map]
    exact List.map_congr_left fun e _ => (revised_fixed ps e).2.1
  refine ⟨hids ▸ h.ids, fun e he => ?_, hnames ▸ h.publicIds⟩
  rw [reviseAll_entries] at he
  obtain ⟨e₀, he₀, rfl⟩ := List.mem_map.mp he
  rw [reviseAll_seq, (revised_fixed ps e₀).1]
  exact h.bound e₀ he₀

theorem Keyed.batch {cat cat' : Catalogue} (h : cat.Keyed) {ks : List Key} {fates : List Fate}
    (hbatch : cat.batch ks = some (fates, cat')) : cat'.Keyed := by
  obtain ⟨_, written, hwrite, rfl⟩ := batch_some hbatch
  exact (h.writeAll hwrite).1.reviseAll _

/-! ## Fates -/

private theorem find_of_mem {cat : Catalogue} (h : cat.Keyed) {e : Entry} (he : e ∈ cat.entries) :
    cat.entries.find? (fun e' => e'.publicId = e.publicId) = some e := by
  cases hfind : cat.entries.find? fun e' => e'.publicId = e.publicId with
  | none =>
    have hnone := List.find?_eq_none.mp hfind e he
    exact absurd (decide_eq_true rfl) hnone
  | some e' =>
    have hmem := List.mem_of_find?_eq_some hfind
    have hname := List.find?_some hfind
    exact congrArg some (List.inj_on_of_nodup_map h.publicIds hmem he (of_decide_eq_true hname))

/-- The fate of a row whose id is stored. -/
theorem fate_of_mem {cat : Catalogue} (h : cat.Keyed) {e : Entry} (he : e ∈ cat.entries) {k : Key}
    (hname : e.publicId = k.publicId) (hpurged : k.publicId ∉ cat.purged) :
    cat.fate k = if e.textHash = k.textHash then some (.bump e.id) else some (.conflict e.id) := by
  unfold Catalogue.fate
  rw [if_neg hpurged, ← hname, find_of_mem h he]

theorem fate_of_unstored {cat : Catalogue} {k : Key} (hpurged : k.publicId ∉ cat.purged)
    (hunstored : ∀ e ∈ cat.entries, e.publicId ≠ k.publicId) :
    (∃ id, cat.fate k = some (.bump id)) ↔ ∃ e ∈ cat.entries, e.textHash = k.textHash ∧ e.own := by
  have hnone : cat.entries.find? (fun e => e.publicId = k.publicId) = none :=
    List.find?_eq_none.mpr fun e he heq => hunstored e he (of_decide_eq_true heq)
  unfold Catalogue.fate
  rw [if_neg hpurged, hnone]
  cases htwin : cat.entries.find? fun e => e.textHash = k.textHash ∧ e.own with
  | some e =>
    have hheld := List.find?_some htwin
    exact ⟨fun _ => ⟨e, List.mem_of_find?_eq_some htwin, of_decide_eq_true hheld⟩,
      fun _ => ⟨e.id, rfl⟩⟩
  | none =>
    refine ⟨fun ⟨id, h⟩ => (by cases h), fun ⟨e, he, hheld⟩ => ?_⟩
    exact absurd (decide_eq_true hheld) (List.find?_eq_none.mp htwin e he)

theorem Keyed.run {cat cat' : Catalogue} (h : cat.Keyed) {kss : List (List Key)}
    {fates : List Fate} (hrun : cat.run kss = some (fates, cat')) :
    cat'.Keyed ∧ cat'.purged = cat.purged := by
  induction kss generalizing cat fates with
  | nil =>
    obtain ⟨_, rfl⟩ := Prod.mk.inj (Option.some.inj hrun)
    exact ⟨h, rfl⟩
  | cons ks kss ih =>
    obtain ⟨⟨first, mid⟩, hbatch, hrest⟩ := Option.bind_eq_some_iff.mp hrun
    obtain ⟨⟨rest, last⟩, hrun', heq⟩ := Option.map_eq_some_iff.mp hrest
    obtain ⟨_, rfl⟩ := Prod.mk.inj heq
    obtain ⟨hkeyed, hpurged⟩ := ih (h.batch hbatch) hrun'
    exact ⟨hkeyed, hpurged.trans (purged_batch hbatch)⟩

end Catalogue

end AgosMemory.Export
