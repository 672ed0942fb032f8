import AgosMemory.Cli.Plan
import AgosMemory.Cli.Repeats

/-!
# The dry run of an import

A dry run classifies every batch against the store as it stands. The import classifies a batch
against what the batches before it left, and adds its fresh rows one by one. Ids and texts that
come twice, in the file or in file and store, decide whether the counts agree.
-/

namespace AgosMemory.Export

open Library Library.Program Store

variable {F : Type} [F64 F] {env : Env F}

omit [F64 F] in
theorem keyed_catalogueOf {agent : String} {db : Db F} (h : Wellformed env db) :
    (catalogueOf agent db).Keyed := by
  refine ⟨?_, fun e he => ?_, ?_⟩
  · have hids : (catalogueOf agent db).entries.map Entry.id = db.memories.map Memory.id := by
      rw [catalogueOf, List.map_map]
      rfl
    exact hids ▸ h.ids
  · obtain ⟨m, hm, rfl⟩ := List.mem_map.mp he
    exact h.idBound m hm
  · have hnames : (catalogueOf agent db).entries.map Entry.publicId =
        db.memories.map Memory.publicId := by
      rw [catalogueOf, List.map_map]
      rfl
    exact hnames ▸ h.publicIds

/-! ## A dry run reads the catalogue -/

/-- The counts of a dry run. -/
def ImportStats.foresee (s : ImportStats) (fates : List Fate) : ImportStats :=
  { s with
    rows := s.rows + fates.length, inserted := s.inserted + fates.countP Fate.isInsert
    deduped := s.deduped + fates.countP Fate.isBump }

private theorem processBatch_dry (emb : Embedder F) (agent : String) (dim : Nat)
    (batch : List (Nat × ExportRow F)) :
    processBatch env emb agent dim batch true =
      (query env (fun db => classifyAll db agent batch) >>= fun fates =>
        pure (fates.countP Fate.isInsert, fates.countP Fate.isBump, 0)) := rfl

private theorem dryBatch_ok {emb : Embedder F} {agent : String} {dim : Nat}
    {batch : List (Nat × ExportRow F)} {s t : Conn F} {done : Nat × Nat × Nat}
    (h : processBatch env emb agent dim batch true s = (.ok done, t)) :
    ∃ fates, (catalogueOf agent s.db).fates (keysOf batch) = some fates ∧ t.db = s.db ∧
      done = (fates.countP Fate.isInsert, fates.countP Fate.isBump, 0) := by
  rw [processBatch_dry] at h
  obtain ⟨fates, u, hfates, hcount⟩ := bind_ok h
  obtain ⟨rfl, rfl⟩ := pure_ok hcount
  obtain ⟨hclass, hu⟩ := query_ok hfates
  exact ⟨fates, classifyAll_ok_iff.mp hclass, hu, rfl⟩

private theorem dryBatches_ok {emb : Embedder F} {agent : String} {dim : Nat}
    {batches : List (List (Nat × ExportRow F))} {stats stats' : ImportStats} {s t : Conn F}
    (h : runBatches env emb agent dim true batches stats s = (.ok stats', t)) :
    ∃ fates, (catalogueOf agent s.db).fates (batches.map keysOf).flatten = some fates ∧
      stats' = stats.foresee fates := by
  induction batches generalizing stats s with
  | nil =>
    obtain ⟨rfl, rfl⟩ := pure_ok h
    exact ⟨[], rfl, rfl⟩
  | cons batch batches ih =>
    obtain ⟨mid, s₁, hbatch, hrest⟩ := bind_ok h
    obtain ⟨done, s₂, hdone, hpure⟩ := bind_ok hbatch
    obtain ⟨rfl, rfl⟩ := pure_ok hpure
    obtain ⟨fates, hfates, hdb, rfl⟩ := dryBatch_ok hdone
    obtain ⟨rest, hrun, rfl⟩ := ih hrest
    rw [hdb] at hrun
    have hlen : fates.length = batch.length := by
      rw [Catalogue.fates_length hfates, keysOf, List.length_map]
    refine ⟨fates ++ rest, ?_, ?_⟩
    · rw [List.map_cons, List.flatten_cons, Catalogue.fates_append, hfates, Option.bind_some]
      exact Option.map_eq_some_iff.mpr ⟨rest, hrun, rfl⟩
    · simp only [ImportStats.foresee, ImportStats.addBatch, ImportStats.add, List.length_append,
        List.countP_append, hlen, Nat.add_assoc, Nat.add_zero]

private theorem dryBatches_succeeds (hfault : ∀ n, env.fault n = false) {emb : Embedder F}
    {agent : String} {dim : Nat} {batches : List (List (Nat × ExportRow F))} {stats : ImportStats}
    {s : Conn F}
    (hcat : ((catalogueOf agent s.db).fates (batches.map keysOf).flatten).isSome) :
    Succeeds (runBatches env emb agent dim true batches stats) s := by
  induction batches generalizing stats s with
  | nil => exact succeeds_pure stats s
  | cons batch batches ih =>
    rw [Catalogue.fates_isSome_iff] at hcat
    have hfirst : ((catalogueOf agent s.db).fates (keysOf batch)).isSome :=
      Catalogue.fates_isSome_iff.mpr fun k hk => hcat k (List.mem_append_left _ hk)
    obtain ⟨fates, hfates⟩ := Option.isSome_iff_exists.mp hfirst
    have hread : Succeeds (query env fun db => classifyAll db agent batch) s :=
      succeeds_query hfault ⟨fates, classifyAll_ok_iff.mpr hfates⟩
    have hbatch : Succeeds (processBatch env emb agent dim batch true) s := by
      rw [processBatch_dry]
      exact succeeds_bind hread fun _ _ _ => succeeds_pure _ _
    refine succeeds_bind (succeeds_bind hbatch fun _ _ _ => succeeds_pure _ _)
      fun stats' t hrun => ih ?_
    obtain ⟨done, t', hdone, hpure⟩ := bind_ok hrun
    obtain ⟨_, rfl⟩ := pure_ok hpure
    obtain ⟨_, _, hdb, _⟩ := dryBatch_ok hdone
    rw [hdb]
    exact Catalogue.fates_isSome_iff.mpr fun k hk => hcat k (List.mem_append_right _ hk)

private theorem same_dryBatch {emb : Embedder F} {agent : String} {dim : Nat}
    {batch : List (Nat × ExportRow F)} :
    Moves (OnDb Eq) (processBatch env emb agent dim batch true) := by
  rw [processBatch_dry]
  exact moves_bind onDb_query fun _ => moves_pure _

/-- Nothing is written. -/
theorem dryRun_db (emb : Embedder F) (schema : Int) (file : ImportFile F) (c : Conn F) :
    (importFile env emb schema file true c).2.db = c.db := by
  have h : Moves (OnDb Eq) (importFile env emb schema file true) := by
    rw [importFile_eq]
    exact onDb_importFileBy fun _ _ _ _ => same_dryBatch
  exact (h c).symm

/-! ## The prediction -/

/-- Both fail, or both go through with the same counts of fresh rows and of references. -/
structure Foretold (dry real : Except Error ImportStats) : Prop where
  fails : dry.isOk = real.isOk
  counts : ∀ a b, dry = .ok a → real = .ok b → a.inserted = b.inserted ∧ a.deduped = b.deduped

/-- The file is refused for its header, for a line, or for a purged id. -/
def Refused (env : Env F) (schema : Int) (file : ImportFile F) (c : Conn F) : Prop :=
  checkHeader file.name file.header ≠ .ok () ∨ (planFile env schema BATCH file).stop ≠ none ∨
    ∃ k ∈ ((planFile env schema BATCH file).batches.map keysOf).flatten,
      k.publicId ∈ (catalogueOf c.agentId c.db).purged

private theorem runPlan_stopped {plan : Plan F} (h : plan.stop ≠ none) (emb : Embedder F)
    (agent : String) (dim : Nat) (dryRun : Bool) (stats : ImportStats) (s : Conn F) :
    (runPlan env emb agent dim dryRun plan stats s).1.isOk = false := by
  cases hrun : runPlan env emb agent dim dryRun plan stats s with
  | mk r t =>
    cases r with
    | error e => rfl
    | ok stats' => exact absurd (runPlan_stop hrun).1 h

theorem runPlan_read {emb : Embedder F} {agent : String} {dim : Nat} {dryRun : Bool}
    {plan : Plan F} {stats : ImportStats} {s : Conn F} (h : plan.stop = none) :
    runPlan env emb agent dim dryRun plan stats s =
      runBatches env emb agent dim dryRun plan.batches stats s := by
  unfold runPlan
  rw [h]
  rw [bind_run]
  cases runBatches env emb agent dim dryRun plan.batches stats s with
  | mk r t => cases r <;> rfl

/-- The dry run of batches goes through if no id of a row was purged. -/
private theorem dryBatches_succeeds_iff (hfault : ∀ n, env.fault n = false) {emb : Embedder F}
    {agent : String} {dim : Nat} {batches : List (List (Nat × ExportRow F))} {stats : ImportStats}
    {s : Conn F} :
    Succeeds (runBatches env emb agent dim true batches stats) s ↔
      ((catalogueOf agent s.db).fates (batches.map keysOf).flatten).isSome := by
  refine ⟨fun ⟨stats, t, h⟩ => ?_, dryBatches_succeeds hfault⟩
  obtain ⟨fates, hfates, _⟩ := dryBatches_ok h
  rw [hfates]
  rfl

private theorem runBatches_succeeds_iff (hfault : ∀ n, env.fault n = false) {emb : Embedder F}
    {agent : String} {schema : Int} {batches : List (List (Nat × ExportRow F))}
    (hrows : ∀ b ∈ batches, Validated env schema b) {stats : ImportStats} {s : Conn F}
    (hdb : Wellformed env s.db) (hemb : Answers emb s.db.embedDim) :
    Succeeds (runBatches env emb agent s.db.embedDim false batches stats) s ↔
      ((catalogueOf agent s.db).run (batches.map keysOf)).isSome := by
  refine ⟨fun ⟨stats, t, h⟩ => ?_, runBatches_succeeds hfault hrows hemb hdb rfl⟩
  obtain ⟨fates, hfates, _⟩ := runBatches_ok hrows h
  rw [hfates]
  rfl

section Prediction

variable (hfault : ∀ n, env.fault n = false) (emb : Embedder F) (agent : String) {schema : Int}
  {batches : List (List (Nat × ExportRow F))} (hrows : ∀ b ∈ batches, Validated env schema b)
  {s : Conn F} (hdb : Wellformed env s.db) (hemb : Answers emb s.db.embedDim)
include hfault hrows hdb hemb

/-- A file with a purged id fails, and one whose rows are not moved goes through with the counts
of its dry run. -/
private theorem foretold_of_foreseen (h : (∃ k ∈ (batches.map keysOf).flatten,
      k.publicId ∈ (catalogueOf agent s.db).purged) ∨
        (catalogueOf agent s.db).Foreseen [] (batches.map keysOf)) :
    Foretold (runBatches env emb agent s.db.embedDim true batches ⟨0, 0, 0, 0, true⟩ s).1
      (runBatches env emb agent s.db.embedDim false batches ⟨0, 0, 0, 0, false⟩ s).1 := by
  have hdry : Succeeds (runBatches env emb agent s.db.embedDim true batches ⟨0, 0, 0, 0, true⟩) s ↔
      _ := dryBatches_succeeds_iff hfault
  have hreal : Succeeds (runBatches env emb agent s.db.embedDim false batches
      ⟨0, 0, 0, 0, false⟩) s ↔ _ := runBatches_succeeds_iff hfault hrows hdb hemb
  have hnone : ((catalogueOf agent s.db).fates (batches.map keysOf).flatten).isSome →
      (catalogueOf agent s.db).Unmoved (catalogueOf agent s.db) (batches.map keysOf) := by
    intro honce
    have hpurged := Catalogue.fates_isSome_iff.mp honce
    rcases h with ⟨k, hk, hpurged'⟩ | hforeseen
    · exact absurd hpurged' (hpurged k hk)
    · exact (Catalogue.foreseen_iff_unmoved (keyed_catalogueOf hdb) hpurged).mp hforeseen
  refine ⟨?_, fun a b ha hb => ?_⟩
  · rw [Bool.eq_iff_iff, ← succeeds_iff_isOk, ← succeeds_iff_isOk, hdry, hreal]
    refine ⟨fun honce => ?_, Catalogue.fates_of_run⟩
    obtain ⟨_, _, turn, hturn, _⟩ := hnone honce
    exact Option.isSome_iff_exists.mpr ⟨turn, hturn⟩
  · obtain ⟨fates, hfates, rfl⟩ := dryBatches_ok (Prod.ext ha rfl)
    obtain ⟨turn, hrun, rfl⟩ := runBatches_ok hrows (Prod.ext hb rfl)
    obtain ⟨once, honce, turn', hturn, hcounted⟩ := hnone (by rw [hfates]; rfl)
    obtain rfl := Option.some.inj (hfates.symm.trans honce)
    obtain rfl := Option.some.inj (hrun.symm.trans hturn)
    simpa only [ImportStats.foresee, ImportStats.count, Nat.zero_add] using
      Catalogue.countP_of_counted hcounted

/-- Where no row before the last batch brings another text to a stored id, nothing else agrees. -/
private theorem foreseen_of_foretold
    (hund : (catalogueOf agent s.db).Undisputed (batches.map keysOf))
    (h : Foretold (runBatches env emb agent s.db.embedDim true batches ⟨0, 0, 0, 0, true⟩ s).1
      (runBatches env emb agent s.db.embedDim false batches ⟨0, 0, 0, 0, false⟩ s).1) :
    (∃ k ∈ (batches.map keysOf).flatten, k.publicId ∈ (catalogueOf agent s.db).purged) ∨
      (catalogueOf agent s.db).Foreseen [] (batches.map keysOf) := by
  have hdry : Succeeds (runBatches env emb agent s.db.embedDim true batches ⟨0, 0, 0, 0, true⟩) s ↔
      _ := dryBatches_succeeds_iff hfault
  have hreal : Succeeds (runBatches env emb agent s.db.embedDim false batches
      ⟨0, 0, 0, 0, false⟩) s ↔ _ := runBatches_succeeds_iff hfault hrows hdb hemb
  have hfails := Bool.eq_iff_iff.mp h.fails
  rw [← succeeds_iff_isOk, ← succeeds_iff_isOk, hdry, hreal] at hfails
  by_cases hpurged : ∃ k ∈ (batches.map keysOf).flatten,
      k.publicId ∈ (catalogueOf agent s.db).purged
  · exact .inl hpurged
  have hkept : ∀ k ∈ (batches.map keysOf).flatten,
      k.publicId ∉ (catalogueOf agent s.db).purged := fun k hk hp => hpurged ⟨k, hk, hp⟩
  have honce := Catalogue.fates_isSome_iff.mpr hkept
  obtain ⟨dryStats, u, hdryRun⟩ := hdry.mpr honce
  obtain ⟨realStats, v, hrealRun⟩ := hreal.mpr (hfails.mp honce)
  have hcounts := h.counts dryStats realStats (by rw [hdryRun]) (by rw [hrealRun])
  obtain ⟨once, hfates, rfl⟩ := dryBatches_ok hdryRun
  obtain ⟨turn, hrun, rfl⟩ := runBatches_ok hrows hrealRun
  simp only [ImportStats.foresee, ImportStats.count, Nat.zero_add] at hcounts
  refine .inr ((Catalogue.foreseen_iff_unmoved (keyed_catalogueOf hdb) hkept).mpr ?_)
  exact Catalogue.unmoved_of_counts (keyed_catalogueOf hdb) hund hfates hrun hcounts.1 hcounts.2

end Prediction

/-- The keys of the rows that a file gives to its batches. -/
def fileKeys (env : Env F) (schema : Int) (file : ImportFile F) : List (List Key) :=
  (planFile env schema BATCH file).batches.map keysOf

/-- The stored row 500 times, and again with a new row. -/
@[irreducible]
def twoBatches : ImportFile ℚ :=
  plainFile (List.replicate 500 (plainRow "a" "tea") ++ [plainRow "a" "tea", plainRow "b" "mug"])

private theorem fileKeys_twoBatches : fileKeys sampleEnv 1 twoBatches =
    [List.replicate 500 ⟨"a", "tea", true⟩, [⟨"a", "tea", true⟩, ⟨"b", "mug", true⟩]] := by
  have hrows : ∀ row ∈ List.replicate 500 (plainRow "a" "tea"), ∀ n,
      validateRow sampleEnv n row 1 = .ok () := by
    intro row hrow n
    rw [List.eq_of_mem_replicate hrow]
    rfl
  have hlines : twoBatches.lines = (List.replicate 500 (plainRow "a" "tea")).map
      (fun row => some (.ok row)) ++ [some (.ok (plainRow "a" "tea")),
        some (.ok (plainRow "b" "mug"))] := by
    unfold twoBatches
    exact List.map_append
  have hne : List.replicate 500 (plainRow "a" "tea") ≠ [] :=
    List.ne_nil_of_length_pos (by rw [List.length_replicate]; exact Nat.succ_pos _)
  rw [fileKeys, planFile, hlines, planLines_fill hrows hne
    (by rw [List.length_replicate]; rfl), List.map_replicate]
  rfl

/-- A dry run writes nothing. Without faults, and with an embedder that answers, it predicts what
the import does if the file is refused by both, or no batch adds one id twice and the rows of
earlier batches leave every row alone. The latter says exactly that the import goes through and
gives each row the kind of fate that the dry run counted. Counts of rows that are moved can agree
by chance only where a row before the last batch brings another text to a stored id. -/
theorem dry_run_iff (env : Env F) (emb : Embedder F) (schema : Int) (file : ImportFile F)
    (c : Conn F) :
    (importFile env emb schema file true c).2.db = c.db ∧
      ((∀ n, env.fault n = false) → Wellformed env c.db → Answers emb c.db.embedDim →
        (Refused env schema file c ∨
            (catalogueOf c.agentId c.db).Foreseen [] (fileKeys env schema file) →
          Foretold (importFile env emb schema file true c).1
            (importFile env emb schema file false c).1) ∧
        (¬ Refused env schema file c →
          ((catalogueOf c.agentId c.db).Foreseen [] (fileKeys env schema file) ↔
            (catalogueOf c.agentId c.db).Unmoved (catalogueOf c.agentId c.db)
              (fileKeys env schema file))) ∧
        ((catalogueOf c.agentId c.db).Undisputed (fileKeys env schema file) →
          (Foretold (importFile env emb schema file true c).1
              (importFile env emb schema file false c).1 ↔
            Refused env schema file c ∨
              (catalogueOf c.agentId c.db).Foreseen [] (fileKeys env schema file)))) := by
  refine ⟨dryRun_db emb schema file c, fun hfault hdb hemb => ?_⟩
  have hmoved : ¬ Refused env schema file c →
      ((catalogueOf c.agentId c.db).Foreseen [] (fileKeys env schema file) ↔
        (catalogueOf c.agentId c.db).Unmoved (catalogueOf c.agentId c.db)
          (fileKeys env schema file)) := fun hrefused =>
    Catalogue.foreseen_iff_unmoved (keyed_catalogueOf hdb) fun k hk hpurged =>
      hrefused (.inr (.inr ⟨k, hk, hpurged⟩))
  suffices h : (Refused env schema file c ∨
      (catalogueOf c.agentId c.db).Foreseen [] (fileKeys env schema file) →
        Foretold (importFile env emb schema file true c).1
          (importFile env emb schema file false c).1) ∧
      ((catalogueOf c.agentId c.db).Undisputed (fileKeys env schema file) →
        Foretold (importFile env emb schema file true c).1
          (importFile env emb schema file false c).1 → Refused env schema file c ∨
            (catalogueOf c.agentId c.db).Foreseen [] (fileKeys env schema file)) from
    ⟨h.1, hmoved, fun hund => ⟨h.2 hund, h.1⟩⟩
  unfold Refused
  rw [importFile_eq, importFile_eq]
  cases hheader : checkHeader file.name file.header with
  | error e =>
    rw [importFileBy_header hheader, importFileBy_header hheader]
    exact ⟨fun _ => ⟨rfl, fun a b ha => (by cases ha)⟩,
      fun _ _ => .inl (.inl fun h => (by cases h))⟩
  | ok u =>
    rw [importFileBy_run hheader, importFileBy_run hheader, dimRead_of_noFault (hfault _)]
    by_cases hstop : (planFile env schema BATCH file).stop = none
    · rw [runPlan_read hstop, runPlan_read hstop]
      have hrows : ∀ b ∈ (planFile env schema BATCH file).batches, Validated env schema b :=
        planFile_validated
      simp only [ne_eq, not_true_eq_false, hstop, false_or]
      exact ⟨foretold_of_foreseen hfault emb c.agentId hrows
          (s := { c with stmts := c.stmts + 1 }) hdb hemb,
        foreseen_of_foretold hfault emb c.agentId hrows
          (s := { c with stmts := c.stmts + 1 }) hdb hemb⟩
    · refine ⟨fun _ => ⟨?_, fun a b ha => ?_⟩, fun _ _ => .inl (.inr (.inl hstop))⟩
      · rw [runPlan_stopped hstop, runPlan_stopped hstop]
      · exact absurd (runPlan_stop (Prod.ext ha rfl)).1 hstop

/-- A full batch of a stored row, and a batch of that row and a new one. -/
theorem dry_run_iff_two :
    Foretold (importFile sampleEnv sampleEmbedder 1 twoBatches true teaStore).1
      (importFile sampleEnv sampleEmbedder 1 twoBatches false teaStore).1 := by
  have hforeseen : (catalogueOf teaStore.agentId teaStore.db).Foreseen []
      (fileKeys sampleEnv 1 twoBatches) := by
    rw [fileKeys_twoBatches]
    decide +kernel
  exact ((dry_run_iff sampleEnv sampleEmbedder 1 twoBatches teaStore).2 (fun _ => rfl)
    teaStore_wellformed sampleEmbedder_answers).1 (.inr hforeseen)

/-- One new id twice: the dry run counts two fresh rows, and the import stops at the second. -/
theorem dry_run_repeated :
    (importFile sampleEnv sampleEmbedder 1 (plainFile [plainRow "a" "tea", plainRow "a" "mug"])
        true (emptyStore ℚ "a" 1)).1 = .ok ⟨2, 2, 0, 0, true⟩ ∧
      (importFile sampleEnv sampleEmbedder 1 (plainFile [plainRow "a" "tea", plainRow "a" "mug"])
        false (emptyStore ℚ "a" 1)).1.isOk = false := by
  decide +kernel

end AgosMemory.Export
