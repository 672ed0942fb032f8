import AgosMemory.Cli.DryRun

/-!
# A file imported twice

The second import of a file finds the ids and the hashes that the first one left. A row is a
reference again when its id is stored with its text, or its text is still on a live row.
-/

namespace AgosMemory.Export

open Library Library.Program Store

namespace Catalogue

/-! ## What a run leaves of an id -/

/-- Whatever the catalogue stores under an id has the given text. -/
def Settles (cat : Catalogue) (publicId hash : String) : Prop :=
  ∀ e ∈ cat.entries, e.publicId = publicId → e.textHash = hash

/-- A batch that gives an id one text settles it, and leaves it settled. -/
theorem Settles.batch {cat cat' : Catalogue} (hkeyed : cat.Keyed) {ks : List Key}
    {fates : List Fate} (hbatch : cat.batch ks = some (fates, cat')) {publicId hash : String}
    (hone : ∀ k ∈ ks, k.publicId = publicId → k.textHash = hash)
    (h : cat.Settles publicId hash ∨ ∃ k ∈ ks, k.publicId = publicId) :
    cat'.Settles publicId hash := by
  obtain ⟨hfates, written, hwrite, rfl⟩ := batch_some hbatch
  obtain ⟨hwritten, hkept⟩ := hkeyed.writeAll hwrite
  intro e' he' hname'
  rw [reviseAll_entries] at he'
  obtain ⟨e, he, rfl⟩ := List.mem_map.mp he'
  have hname : e.publicId = publicId := (revised_fixed _ e).2.1.symm.trans hname'
  apply revised_hash
  · -- a conflict with the entry is of a row under its public id
    intro p hp hconflict
    obtain ⟨e₀, he₀, hid, hnamed⟩ := fate_conflict (hconflict ▸ fate_of_zip hfates p hp)
    obtain rfl := List.inj_on_of_nodup_map hwritten.ids (hkept e₀ he₀) he hid
    exact hone p.1 (List.of_mem_zip hp).1 (hnamed.symm.trans hname)
  · rcases mem_writeAll hwrite he with hold | ⟨p, hp, hnamed, hhash⟩
    · rcases h with hsettled | ⟨k, hk, hkname⟩
      · exact .inl (hsettled e hold hname)
      · obtain ⟨fate, hzip⟩ := zip_of_mem hfates hk
        have hfate := fate_of_zip hfates _ hzip
        have hpurged := fate_isSome_iff.mp (by rw [hfate]; rfl)
        rw [fate_of_mem hkeyed hold (hname.trans hkname.symm) hpurged] at hfate
        split at hfate
        · next heq => exact .inl (heq.trans (hone k hk hkname))
        · exact .inr ⟨_, hzip, (Option.some.inj hfate).symm⟩
    · exact .inl (hhash.trans (hone p.1 (List.of_mem_zip hp).1 (hnamed.symm.trans hname)))

theorem Settles.run {cat cat' : Catalogue} (hkeyed : cat.Keyed) {kss : List (List Key)}
    {fates : List Fate} (hrun : cat.run kss = some (fates, cat')) {publicId hash : String}
    (hone : ∀ k ∈ kss.flatten, k.publicId = publicId → k.textHash = hash)
    (h : cat.Settles publicId hash ∨ ∃ k ∈ kss.flatten, k.publicId = publicId) :
    cat'.Settles publicId hash := by
  induction kss generalizing cat fates with
  | nil =>
    obtain ⟨_, rfl⟩ := Prod.mk.inj (Option.some.inj hrun)
    rcases h with hsettled | ⟨k, hk, _⟩
    · exact hsettled
    · cases hk
  | cons ks kss ih =>
    obtain ⟨⟨first, mid⟩, hbatch, hrest⟩ := Option.bind_eq_some_iff.mp hrun
    obtain ⟨⟨rest, last⟩, hrun', heq⟩ := Option.map_eq_some_iff.mp hrest
    obtain ⟨_, rfl⟩ := Prod.mk.inj heq
    have hhead : ∀ k ∈ ks, k.publicId = publicId → k.textHash = hash := fun k hk =>
      hone k (List.mem_append_left _ hk)
    refine ih (hkeyed.batch hbatch) hrun' (fun k hk => hone k (List.mem_append_right _ hk)) ?_
    rcases h with hsettled | ⟨k, hk, hname⟩
    · exact .inl (Settles.batch hkeyed hbatch hhead (.inl hsettled))
    · rcases List.mem_append.mp hk with hk | hk
      · exact .inl (Settles.batch hkeyed hbatch hhead (.inr ⟨k, hk, hname⟩))
      · exact .inr ⟨k, hk, hname⟩

/-- No stored id is given two texts, and a row whose id is not stored has its text on a live row. -/
structure Settled (cat : Catalogue) (ks : List Key) : Prop where
  stored : ∀ k ∈ ks, ∀ k' ∈ ks, k.publicId = k'.publicId →
    (∃ e ∈ cat.entries, e.publicId = k.publicId) → k.textHash = k'.textHash
  twin : ∀ k ∈ ks, (∀ e ∈ cat.entries, e.publicId ≠ k.publicId) →
    ∃ e ∈ cat.entries, e.textHash = k.textHash ∧ e.own

/-- After a run, its rows are references exactly in a settled catalogue. -/
private theorem references_iff {cat cat' : Catalogue} (hkeyed : cat.Keyed) {kss : List (List Key)}
    {fates : List Fate} (hrun : cat.run kss = some (fates, cat')) :
    (∀ k ∈ kss.flatten, ∃ id, cat'.fate k = some (.bump id)) ↔ cat'.Settled kss.flatten := by
  obtain ⟨hkeyed', hpurged⟩ := hkeyed.run hrun
  have hunpurged : ∀ k ∈ kss.flatten, k.publicId ∉ cat'.purged := by
    rw [hpurged]
    exact fates_isSome_iff.mp (fates_of_run (by rw [hrun]; rfl))
  constructor
  · refine fun hall => ⟨fun k hk k' hk' hname ⟨e, he, hstored⟩ => ?_, fun k hk hunstored => ?_⟩
    · have hsame : ∀ k ∈ kss.flatten, e.publicId = k.publicId → e.textHash = k.textHash := by
        intro k hk hstored
        obtain ⟨id, hfate⟩ := hall k hk
        rw [fate_of_mem hkeyed' he hstored (hunpurged k hk)] at hfate
        split at hfate
        · assumption
        · cases hfate
      exact (hsame k hk hstored).symm.trans (hsame k' hk' (hstored.trans hname))
    · exact (fate_of_unstored (hunpurged k hk) hunstored).mp (hall k hk)
  · intro hsettled k hk
    by_cases hstored : ∃ e ∈ cat'.entries, e.publicId = k.publicId
    · obtain ⟨e, he, hname⟩ := hstored
      have hone : ∀ k' ∈ kss.flatten, k'.publicId = k.publicId → k'.textHash = k.textHash :=
        fun k' hk' hsame => (hsettled.stored k hk k' hk' hsame.symm ⟨e, he, hname⟩).symm
      have hhash := Settles.run hkeyed hrun hone (.inr ⟨k, hk, rfl⟩) e he hname
      exact ⟨e.id, by rw [fate_of_mem hkeyed' he hname (hunpurged k hk), if_pos hhash]⟩
    · exact (fate_of_unstored (hunpurged k hk) fun e he hname => hstored ⟨e, he, hname⟩).mpr
        (hsettled.twin k hk fun e he hname => hstored ⟨e, he, hname⟩)

/-! ## Runs of references -/

private theorem fates_of_references {cat : Catalogue} {ks : List Key}
    (h : ∀ k ∈ ks, ∃ id, cat.fate k = some (.bump id)) :
    ∃ fates, cat.fates ks = some fates ∧ ∀ fate ∈ fates, ∃ id, fate = .bump id := by
  induction ks with
  | nil => exact ⟨[], rfl, List.forall_mem_nil _⟩
  | cons k ks ih =>
    obtain ⟨id, hfate⟩ := h k List.mem_cons_self
    obtain ⟨fates, hfates, hall⟩ := ih fun k hk => h k (List.mem_cons_of_mem _ hk)
    exact ⟨.bump id :: fates, by rw [Catalogue.fates, hfate, hfates]; rfl,
      List.forall_mem_cons.mpr ⟨⟨id, rfl⟩, hall⟩⟩

private theorem writeAll_references {cat : Catalogue} {ps : List (Key × Fate)}
    (h : ∀ p ∈ ps, ∃ id, p.2 = .bump id) : cat.writeAll ps = some cat := by
  induction ps with
  | nil => rfl
  | cons p ps ih =>
    obtain ⟨id, hp⟩ := h p List.mem_cons_self
    rw [writeAll, write, hp]
    exact ih fun q hq => h q (List.mem_cons_of_mem _ hq)

private theorem reviseAll_references {cat : Catalogue} {ps : List (Key × Fate)}
    (h : ∀ p ∈ ps, ∃ id, p.2 = .bump id) : cat.reviseAll ps = cat := by
  induction ps with
  | nil => rfl
  | cons p ps ih =>
    obtain ⟨id, hp⟩ := h p List.mem_cons_self
    rw [reviseAll, revise, hp]
    exact ih fun q hq => h q (List.mem_cons_of_mem _ hq)

private theorem batch_of_references {cat cat' : Catalogue} {ks : List Key} {fates : List Fate}
    (h : cat.batch ks = some (fates, cat')) (hall : ∀ fate ∈ fates, ∃ id, fate = .bump id) :
    cat' = cat := by
  obtain ⟨_, written, hwrite, rfl⟩ := batch_some h
  have hzip : ∀ p ∈ ks.zip fates, ∃ id, p.2 = .bump id := fun p hp =>
    hall p.2 (List.of_mem_zip hp).2
  rw [writeAll_references hzip] at hwrite
  obtain rfl := Option.some.inj hwrite
  exact reviseAll_references hzip

/-- A run that counted nothing but references left the catalogue as it was. -/
private theorem references_of_run {cat cat' : Catalogue} {kss : List (List Key)} {fates : List Fate}
    (hrun : cat.run kss = some (fates, cat')) (hall : ∀ fate ∈ fates, ∃ id, fate = .bump id) :
    ∀ k ∈ kss.flatten, ∃ id, cat.fate k = some (.bump id) := by
  induction kss generalizing cat fates with
  | nil => intro k hk; cases hk
  | cons ks kss ih =>
    obtain ⟨⟨first, mid⟩, hbatch, hrest⟩ := Option.bind_eq_some_iff.mp hrun
    obtain ⟨⟨rest, last⟩, hrun', heq⟩ := Option.map_eq_some_iff.mp hrest
    obtain ⟨rfl, rfl⟩ := Prod.mk.inj heq
    have hfirst : ∀ fate ∈ first, ∃ id, fate = .bump id := fun fate hfate =>
      hall fate (List.mem_append_left _ hfate)
    obtain rfl := batch_of_references hbatch hfirst
    intro k hk
    rcases List.mem_append.mp hk with hk | hk
    · obtain ⟨fate, hzip⟩ := zip_of_mem (batch_some hbatch).1 hk
      obtain ⟨id, rfl⟩ := hfirst fate (List.of_mem_zip hzip).2
      exact ⟨id, fate_of_zip (batch_some hbatch).1 _ hzip⟩
    · exact ih hrun' (fun fate hfate => hall fate (List.mem_append_right _ hfate)) k hk

end Catalogue

variable {F : Type} [F64 F] {env : Env F}

/-! ## Batches of references -/

/-- A row without the columns that a reference writes. -/
def unreferenced (m : Memory F) : Memory F :=
  { m with
    refCount := 0, lastReferencedAt := none, updatedAt := 0, dedupClusterId := none
    trust := .untrusted, sourceKind := .imported }

/-- No row is new, no version is, and rows differ in what a reference writes. -/
structure OnlyReferenced (db db' : Db F) : Prop where
  memories : db'.memories.map unreferenced = db.memories.map unreferenced
  memorySeq : db'.memorySeq = db.memorySeq
  versions : db'.versions = db.versions
  tombstones : db'.tombstones = db.tombstones

instance : Std.Refl (OnlyReferenced (F := F)) where
  refl _ := ⟨rfl, rfl, rfl, rfl⟩

instance : IsTrans (Db F) OnlyReferenced where
  trans _ _ _ hab hbc := ⟨hbc.memories.trans hab.memories, hbc.memorySeq.trans hab.memorySeq,
    hbc.versions.trans hab.versions, hbc.tombstones.trans hab.tombstones⟩

omit [F64 F] in
private theorem onlyReferenced_bump {id now : Int} {source : String} :
    Moves (OnDb OnlyReferenced) (bumpImported env id source now) := by
  refine onDb_bump (fun db _ _ _ _ h => ?_) (fun _ _ => ⟨rfl, rfl, rfl, rfl⟩) fun _ _ h => ?_
  · obtain ⟨sk, merged, bumps, rfl⟩ := mergeSource_update h
    exact ⟨map_updateMemory (by exact fun _ => rfl), rfl, rfl, rfl⟩
  · obtain ⟨links, rfl⟩ := linkRefines_ok h
    exact ⟨rfl, rfl, rfl, rfl⟩

omit [F64 F] in
private theorem freshTexts_references {batch : List (Nat × ExportRow F)} {fates : List Fate}
    (h : ∀ fate ∈ fates, ∃ id, fate = .bump id) : freshTexts batch fates = [] := by
  have hnone : (batch.zip fates).filter (fun p => p.2.isInsert) = [] := by
    rw [List.filter_eq_nil_iff]
    intro p hp
    obtain ⟨id, hfate⟩ := h p.2 (List.of_mem_zip hp).2
    rw [hfate]
    exact Bool.false_ne_true
  rw [freshTexts, hnone]
  rfl

private theorem tally_references {fates : List Fate} (h : ∀ fate ∈ fates, ∃ id, fate = .bump id) :
    tally fates = (0, fates.length, 0) := by
  induction fates with
  | nil => rfl
  | cons fate fates ih =>
    obtain ⟨id, rfl⟩ := h fate List.mem_cons_self
    have hrest := ih fun fate hfate => h fate (List.mem_cons_of_mem _ hfate)
    obtain ⟨hinsert, hrest⟩ := Prod.mk.inj hrest
    obtain ⟨hbump, hconflict⟩ := Prod.mk.inj hrest
    rw [tally, List.countP_cons, List.countP_cons, List.countP_cons, hinsert, hbump, hconflict]
    rfl

/-- The write phase of references. -/
private theorem writeReferences_succeeds (hfault : ∀ n, env.fault n = false) {emb : Embedder F}
    (agent : String) {dim : Nat} {now : Int} {ps : List (PlannedRow F)} {s : Conn F}
    (h : ∀ p ∈ ps, (∃ id, p.fate = .bump id ∧ (catalogueOf agent s.db).Has id) ∧
      (SourceKind.ofSql? p.row.provenance.sourceKind).isSome) :
    Succeeds (forEach ps (writeRow env emb agent dim now)) s := by
  refine succeeds_forEach (P := fun ps s =>
    ∀ p ∈ ps, (∃ id, p.fate = .bump id ∧ (catalogueOf agent s.db).Has id) ∧
      (SourceKind.ofSql? p.row.provenance.sourceKind).isSome) ?_ ?_ h
  · intro p ps s hps
    obtain ⟨⟨id, hfate, hid⟩, hsource⟩ := hps p List.mem_cons_self
    obtain ⟨m, hm⟩ := memory?_of_has hid
    rw [writeRow, hfate]
    exact bump_succeeds hfault hm rfl hsource
  · intro p ps s t hps hrun q hq
    obtain ⟨⟨id, hfate, hid⟩, hsource⟩ := hps q (List.mem_cons_of_mem _ hq)
    exact ⟨⟨id, hfate, Catalogue.has_write (writeRow_ok hrun) hid⟩, hsource⟩

/-- A batch of references goes through, whatever the embedder does. -/
private theorem processBatch_references (hfault : ∀ n, env.fault n = false) (emb : Embedder F)
    {agent : String} (dim : Nat) {batch : List (Nat × ExportRow F)} {s : Conn F}
    (hvetted : ∀ r ∈ batch, Vetted env r.2)
    (h : ∀ k ∈ keysOf batch, ∃ id, (catalogueOf agent s.db).fate k = some (.bump id)) :
    ∃ t, processBatch env emb agent dim batch false s = (.ok (0, batch.length, 0), t) ∧
      OnlyReferenced s.db t.db := by
  obtain ⟨fates, hfates, hall⟩ := Catalogue.fates_of_references h
  have hplanned : ∀ ps : List (PlannedRow F),
      ps.map PlannedRow.keyed = (keysOf batch).zip fates → ∀ p ∈ ps, ∃ id, p.fate = .bump id := by
    intro ps hkeyed p hp
    have hmem := List.mem_map_of_mem (f := PlannedRow.keyed) hp
    rw [hkeyed] at hmem
    exact hall p.fate (List.of_mem_zip hmem).2
  have hunconflicted : ∀ ps : List (PlannedRow F),
      ps.map PlannedRow.keyed = (keysOf batch).zip fates → ∀ p ∈ ps, ∀ id, p.fate ≠ .conflict id := by
    intro ps hkeyed p hp id heq
    obtain ⟨id', hfate⟩ := hplanned ps hkeyed p hp
    rw [hfate] at heq
    cases heq
  have hsucceeds : Succeeds (processBatch env emb agent dim batch false) s := by
    unfold processBatch
    refine succeeds_bind (succeeds_query hfault ⟨fates, classifyAll_ok_iff.mpr hfates⟩)
      fun fates' s₁ hread => ?_
    obtain ⟨hclass, hs₁⟩ := query_ok hread
    obtain rfl := Option.some.inj (hfates.symm.trans (classifyAll_ok_iff.mp hclass))
    rw [if_neg Bool.false_ne_true, freshTexts_references hall]
    refine succeeds_bind ⟨[], s₁, by rw [embedFresh, if_neg (by simp)]; rfl⟩ fun vectors s₂ hembed => ?_
    refine succeeds_bind ⟨_, _, rfl⟩ fun now s₃ hnow => ?_
    have hs₃ : s₃.db = s.db := by
      rw [← (Prod.mk.inj hnow).2, embedFresh_db hembed, hs₁]
    have hkeyed := planRows_keyed (if 0 < emb.dim then dim else 0) batch fates vectors
    refine succeeds_bind (writeReferences_succeeds hfault agent fun p hp => ?_) fun _ s₄ _ =>
      succeeds_bind ⟨(), s₄, versionAll_unconflicted (hunconflicted _ hkeyed) s₄⟩
        fun _ _ _ => succeeds_pure _ _
    obtain ⟨⟨r, hr, hpr⟩, _⟩ := mem_planRows hp
    obtain ⟨id, hfate⟩ := hplanned _ hkeyed p hp
    refine ⟨⟨id, hfate, ?_⟩, hpr ▸ (hvetted r hr).source⟩
    have hmem := List.mem_map_of_mem (f := PlannedRow.keyed) hp
    rw [hkeyed] at hmem
    rw [hs₃]
    refine Catalogue.has_of_fates hfates _ hmem id ?_
    show id ∈ Catalogue.target p.fate
    rw [hfate]
    rfl
  obtain ⟨done, t, hrun⟩ := hsucceeds
  obtain ⟨fates', ps, now, u, v, hclass, hu, hkeyed, hrows, hwrite, hversion, hdone⟩ :=
    processBatch_phases hrun
  obtain rfl := Option.some.inj (hfates.symm.trans (classifyAll_ok_iff.mp hclass))
  rw [versionAll_unconflicted (hunconflicted ps hkeyed)] at hversion
  obtain rfl := (Prod.mk.inj hversion).2
  have hlen : fates.length = batch.length := by
    rw [Catalogue.fates_length hfates, keysOf, List.length_map]
  refine ⟨v, by rw [hrun, hdone, tally_references hall, hlen], ?_⟩
  rw [← hu]
  refine yields_forEach (R := OnDb OnlyReferenced) (fun p hp => ?_) u () v hwrite
  obtain ⟨id, hfate⟩ := hplanned ps hkeyed p hp
  unfold writeRow
  rw [hfate]
  exact onlyReferenced_bump.yields

/-! ## The second import -/

omit [F64 F] in
private theorem catalogueOf_referenced {agent : String} {db db' : Db F} (h : OnlyReferenced db db') :
    catalogueOf agent db' = catalogueOf agent db := by
  have hentries : ∀ db : Db F, db.memories.map (entryOf agent) =
      (db.memories.map unreferenced).map (entryOf agent) := by
    intro db
    rw [List.map_map]
    rfl
  unfold catalogueOf
  rw [hentries db', h.memories, ← hentries db, h.memorySeq, h.tombstones]

private theorem runBatches_references (hfault : ∀ n, env.fault n = false) (emb : Embedder F)
    {agent : String} (dim : Nat) {schema : Int} {batches : List (List (Nat × ExportRow F))}
    (hrows : ∀ b ∈ batches, Validated env schema b) (stats : ImportStats) {s : Conn F}
    (h : ∀ k ∈ (batches.map keysOf).flatten,
      ∃ id, (catalogueOf agent s.db).fate k = some (.bump id)) :
    ∃ n t, runBatches env emb agent dim false batches stats s =
        (.ok { stats with rows := stats.rows + n, deduped := stats.deduped + n }, t) ∧
      OnlyReferenced s.db t.db := by
  induction batches generalizing stats s with
  | nil => exact ⟨0, s, rfl, Std.Refl.refl s.db⟩
  | cons batch batches ih =>
    obtain ⟨t, hbatch, hkept⟩ := processBatch_references hfault emb dim
      (hrows batch List.mem_cons_self).vetted fun k hk => h k (List.mem_append_left _ hk)
    have hrest : ∀ k ∈ (batches.map keysOf).flatten,
        ∃ id, (catalogueOf agent t.db).fate k = some (.bump id) := by
      rw [catalogueOf_referenced hkept]
      exact fun k hk => h k (List.mem_append_right _ hk)
    obtain ⟨n, u, hrun, hkept'⟩ := ih (fun b hb => hrows b (List.mem_cons_of_mem _ hb))
      (stats.addBatch batch (0, batch.length, 0)) hrest
    refine ⟨batch.length + n, u, ?_, IsTrans.trans _ _ _ hkept hkept'⟩
    have hfirst : (processBatch env emb agent dim batch false >>= fun done =>
        pure (stats.addBatch batch done)) s =
          (.ok (stats.addBatch batch (0, batch.length, 0)), t) := bind_of_ok _ hbatch
    rw [runBatches, foldEach, bind_of_ok _ hfirst]
    refine hrun.trans ?_
    simp only [ImportStats.addBatch, ImportStats.add, Nat.add_zero, Nat.add_assoc]

/-- Nothing of the second import was more than a reference. -/
structure Reimported (db : Db F) (outcome : Except Error ImportStats × Conn F) : Prop where
  counts : ∃ stats, outcome.1 = .ok stats ∧ stats.inserted = 0 ∧ stats.updated = 0 ∧
    stats.deduped = stats.rows
  kept : OnlyReferenced db outcome.2.db

private theorem references_of_counts {stats : ImportStats} {fates : List Fate}
    (hinserted : (stats.count fates).inserted = 0) (hupdated : (stats.count fates).updated = 0) :
    ∀ fate ∈ fates, ∃ id, fate = .bump id := by
  have hnoInsert : fates.countP Fate.isInsert = 0 := (Nat.add_eq_zero_iff.mp hinserted).2
  have hnoConflict : fates.countP Fate.isConflict = 0 := (Nat.add_eq_zero_iff.mp hupdated).2
  intro fate hfate
  cases fate with
  | bump id => exact ⟨id, rfl⟩
  | insert => exact absurd rfl (List.countP_eq_zero.mp hnoInsert _ hfate)
  | conflict id => exact absurd rfl (List.countP_eq_zero.mp hnoConflict _ hfate)

/-- Without faults, and whatever the embedder does, the second import of a file is references only
if and only if the first one left no stored id with two texts in the file, and left the text of
every row whose id is not stored on a live row of the agent. -/
theorem reimport_iff (hfault : ∀ n, env.fault n = false) (emb emb' : Embedder F) (schema : Int)
    (file : ImportFile F) (c c' : Conn F) (stats : ImportStats) (hdb : Wellformed env c.db)
    (hfirst : importFile env emb schema file false c = (.ok stats, c')) :
    Reimported c'.db (importFile env emb' schema file false c') ↔
      (catalogueOf c'.agentId c'.db).Settled
        ((planFile env schema BATCH file).batches.map keysOf).flatten := by
  have hagent : (importFile env emb schema file false c).2.agentId = c.agentId :=
    (importFile_edits c).agentId
  rw [hfirst] at hagent
  have hheader : checkHeader file.name file.header = .ok () := by
    cases hheader : checkHeader file.name file.header with
    | ok u => rfl
    | error e =>
      rw [importFile_eq, importFileBy_header hheader] at hfirst
      cases hfirst
  rw [importFile_eq, importFileBy_run hheader, dimRead_of_noFault (hfault _)] at hfirst
  obtain ⟨hstop, hbatches⟩ := runPlan_stop hfirst
  obtain ⟨fates, hrun, _⟩ := runBatches_ok planFile_validated hbatches
  have hrun' : (catalogueOf c'.agentId c.db).run ((planFile env schema BATCH file).batches.map
      keysOf) = some (fates, catalogueOf c'.agentId c'.db) := by
    rw [hagent]
    exact hrun
  rw [importFile_eq, importFileBy_run hheader, dimRead_of_noFault (hfault _), runPlan_read hstop,
    ← Catalogue.references_iff (keyed_catalogueOf hdb) hrun']
  constructor
  · rintro ⟨⟨stats', hok, hinserted, hupdated, _⟩, _⟩
    obtain ⟨fates', hagain, rfl⟩ := runBatches_ok planFile_validated (Prod.ext hok rfl)
    exact Catalogue.references_of_run hagain (references_of_counts hinserted hupdated)
  · intro hall
    obtain ⟨n, t, hagain, hkept⟩ := runBatches_references hfault emb'
      c'.db.embedDim planFile_validated ⟨0, 0, 0, 0, false⟩
      (s := { c' with stmts := c'.stmts + 1 }) hall
    rw [hagain]
    exact ⟨⟨_, rfl, rfl, rfl, rfl⟩, hkept⟩

/-- Two rows with ids and texts of their own. -/
theorem reimport_iff_two :
    Reimported (importFile sampleEnv sampleEmbedder 1 (plainFile [plainRow "a" "tea",
        plainRow "b" "mug"]) false teaStore).2.db
      (importFile sampleEnv sampleEmbedder 1 (plainFile [plainRow "a" "tea", plainRow "b" "mug"])
        false (importFile sampleEnv sampleEmbedder 1 (plainFile [plainRow "a" "tea",
          plainRow "b" "mug"]) false teaStore).2) := by
  have hok : (importFile sampleEnv sampleEmbedder 1 (plainFile [plainRow "a" "tea",
      plainRow "b" "mug"]) false teaStore).1 = .ok ⟨2, 1, 1, 0, false⟩ := by
    decide +kernel
  have hagent : (importFile sampleEnv sampleEmbedder 1 (plainFile [plainRow "a" "tea",
      plainRow "b" "mug"]) false teaStore).2.agentId = "a" := by
    decide +kernel
  have hcat : catalogueOf "a" (importFile sampleEnv sampleEmbedder 1 (plainFile [plainRow "a" "tea",
      plainRow "b" "mug"]) false teaStore).2.db =
        ⟨[⟨1, "a", "tea", true⟩, ⟨2, "b", "mug", true⟩], 2, []⟩ := by
    decide +kernel
  have hkeys : ((planFile sampleEnv 1 BATCH (plainFile [plainRow "a" "tea",
      plainRow "b" "mug"])).batches.map keysOf).flatten =
        [⟨"a", "tea", true⟩, ⟨"b", "mug", true⟩] := by
    decide +kernel
  have hfirst : importFile sampleEnv sampleEmbedder 1 (plainFile [plainRow "a" "tea",
      plainRow "b" "mug"]) false teaStore = (.ok ⟨2, 1, 1, 0, false⟩, (importFile sampleEnv
        sampleEmbedder 1 (plainFile [plainRow "a" "tea", plainRow "b" "mug"]) false teaStore).2) :=
    run_of_outcome hok
  revert hagent hcat hfirst
  generalize (importFile sampleEnv sampleEmbedder 1 (plainFile [plainRow "a" "tea",
    plainRow "b" "mug"]) false teaStore).2 = c'
  intro hagent hcat hfirst
  refine (reimport_iff (fun _ => rfl) sampleEmbedder sampleEmbedder 1
    (plainFile [plainRow "a" "tea", plainRow "b" "mug"]) teaStore c' ⟨2, 1, 1, 0, false⟩
    teaStore_wellformed hfirst).mpr ?_
  rw [hagent, hcat, hkeys]
  exact ⟨by decide, by decide⟩

/-- Two texts for the stored id "a": the first import goes through and leaves the second text, and
the second import versions the first text again. -/
theorem reimport_two_texts :
    (importFile sampleEnv sampleEmbedder 1 (plainFile [plainRow "a" "tea", plainRow "a" "mug"])
        false teaStore).1 = .ok ⟨2, 0, 1, 1, false⟩ ∧
      (importFile sampleEnv sampleEmbedder 1 (plainFile [plainRow "a" "tea", plainRow "a" "mug"])
        false (importFile sampleEnv sampleEmbedder 1
          (plainFile [plainRow "a" "tea", plainRow "a" "mug"]) false teaStore).2).1 =
            .ok ⟨2, 0, 1, 1, false⟩ := by
  constructor
  · decide +kernel
  · decide +kernel

end AgosMemory.Export
