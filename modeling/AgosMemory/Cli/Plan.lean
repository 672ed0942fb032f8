import AgosMemory.Cli.Batches

/-!
# The batches of a file

Reading a file fixes its batches, and the line at which it stops, before anything is written.
After that the batches are applied one after the other, with a failure at the end if reading had
one. The size of a batch is a parameter here; the import of the program is the one with `BATCH`.
-/

namespace AgosMemory.Export

open Library Library.Program Store

variable {F : Type} [F64 F] {env : Env F}

/-- The batches that are applied, and the error that reading ends with. -/
structure Plan (F : Type) where
  batches : List (List (Nat × ExportRow F))
  stop : Option Error

def planLines (env : Env F) (schema : Int) (size : Nat) :
    List (ImportLine F) → Nat → List (Nat × ExportRow F) → Plan F
  | [], _, batch => ⟨if batch.isEmpty then [] else [batch], none⟩
  | none :: lines, lineNo, batch => planLines env schema size lines (lineNo + 1) batch
  | some (.error msg) :: _, lineNo, _ => ⟨[], some (atLine lineNo ("invalid JSON: " ++ msg))⟩
  | some (.ok row) :: lines, lineNo, batch =>
    match validateRow env lineNo row schema with
    | .error e => ⟨[], some e⟩
    | .ok () =>
      if (batch ++ [(lineNo, row)]).length = size then
        ⟨(batch ++ [(lineNo, row)]) :: (planLines env schema size lines (lineNo + 1) []).batches,
          (planLines env schema size lines (lineNo + 1) []).stop⟩
      else planLines env schema size lines (lineNo + 1) (batch ++ [(lineNo, row)])

/-- Rows are numbered from the second line. -/
def planFile (env : Env F) (schema : Int) (size : Nat) (file : ImportFile F) : Plan F :=
  planLines env schema size file.lines 2 []

def ImportStats.addBatch (s : ImportStats) (batch : List (Nat × ExportRow F))
    (done : Nat × Nat × Nat) : ImportStats :=
  { s.add done with rows := s.rows + batch.length }

/-- Apply the batches in order. -/
def runBatches (env : Env F) (emb : Embedder F) (agent : String) (dim : Nat) (dryRun : Bool)
    (batches : List (List (Nat × ExportRow F))) (stats : ImportStats) : Write F ImportStats :=
  foldEach batches stats fun stats batch => do
    let done ← processBatch env emb agent dim batch dryRun
    return stats.addBatch batch done

/-- Apply a plan, and fail where reading did. -/
def runPlan (env : Env F) (emb : Embedder F) (agent : String) (dim : Nat) (dryRun : Bool)
    (plan : Plan F) (stats : ImportStats) : Write F ImportStats := do
  let stats ← runBatches env emb agent dim dryRun plan.batches stats
  match plan.stop with
  | none => return stats
  | some e => fail e

/-- The import with batches of a given size. -/
def importFileBy (size : Nat) (env : Env F) (emb : Embedder F) (schema : Int)
    (file : ImportFile F) (dryRun : Bool) : Write F ImportStats := do
  lift (checkHeader file.name file.header)
  let c ← get
  let dim ← embedDim env
  runPlan env emb c.agentId dim dryRun (planFile env schema size file) ⟨0, 0, 0, 0, dryRun⟩

theorem runPlan_cons (emb : Embedder F) (agent : String) (dim : Nat) (dryRun : Bool)
    (batch : List (Nat × ExportRow F)) (batches : List (List (Nat × ExportRow F)))
    (stop : Option Error) (stats : ImportStats) :
    runPlan env emb agent dim dryRun ⟨batch :: batches, stop⟩ stats =
      (processBatch env emb agent dim batch dryRun >>= fun done =>
        runPlan env emb agent dim dryRun ⟨batches, stop⟩ (stats.addBatch batch done)) := by
  show (foldEach (batch :: batches) stats _ >>= _) = _
  rw [foldEach, Program.bind_assoc, Program.bind_assoc]
  rfl

/-- The rows read but not yet applied are counted when their batch is. -/
private theorem importLines_eq_runPlan (emb : Embedder F) (agent : String) (dim : Nat) (schema : Int)
    (dryRun : Bool) (lines : List (ImportLine F)) (lineNo : Nat) (batch : List (Nat × ExportRow F))
    (stats : ImportStats) :
    importLines env emb agent dim schema dryRun lines lineNo batch
        { stats with rows := stats.rows + batch.length } =
      runPlan env emb agent dim dryRun (planLines env schema BATCH lines lineNo batch) stats := by
  induction lines generalizing lineNo batch stats with
  | nil =>
    rw [importLines, planLines]
    cases batch with
    | nil => rfl
    | cons r batch =>
      rw [if_neg (by simp), if_neg (by simp)]
      exact (runPlan_cons emb agent dim dryRun (r :: batch) [] none stats).symm
  | cons line lines ih =>
    rcases line with _ | msg | row
    · exact ih (lineNo + 1) batch stats
    · rfl
    · rw [importLines, planLines]
      cases hrow : validateRow env lineNo row schema with
      | error e => rfl
      | ok u =>
        dsimp only
        split
        · rw [runPlan_cons]
          refine congrArg (processBatch env emb agent dim _ dryRun >>= ·) (funext fun done => ?_)
          refine Eq.trans ?_ (ih (lineNo + 1) [] (stats.addBatch (batch ++ [(lineNo, row)]) done))
          rw [ImportStats.addBatch, List.length_append]
          rfl
        · rw [← ih (lineNo + 1) (batch ++ [(lineNo, row)]) stats, List.length_append]
          rfl

theorem importFile_eq (emb : Embedder F) (schema : Int) (file : ImportFile F) (dryRun : Bool) :
    importFile env emb schema file dryRun = importFileBy BATCH env emb schema file dryRun := by
  refine congrArg (lift (checkHeader file.name file.header) >>= ·) (funext fun _ => ?_)
  refine congrArg (get >>= ·) (funext fun c => ?_)
  refine congrArg (embedDim env >>= ·) (funext fun dim => ?_)
  exact importLines_eq_runPlan emb c.agentId dim schema dryRun file.lines 2 [] ⟨0, 0, 0, 0, dryRun⟩

/-! What an import does before its plan. -/

theorem importFileBy_run {size : Nat} {emb : Embedder F} {schema : Int} {file : ImportFile F}
    {dryRun : Bool} {c : Conn F} (hheader : checkHeader file.name file.header = .ok ()) :
    importFileBy size env emb schema file dryRun c =
      runPlan env emb c.agentId (dimRead env c) dryRun (planFile env schema size file)
        ⟨0, 0, 0, 0, dryRun⟩ { c with stmts := c.stmts + 1 } := by
  unfold importFileBy
  rw [hheader]
  rfl

theorem importFileBy_header {size : Nat} {emb : Embedder F} {schema : Int} {file : ImportFile F}
    {dryRun : Bool} {c : Conn F} {e : Error} (hheader : checkHeader file.name file.header = .error e) :
    importFileBy size env emb schema file dryRun c = (.error e, c) := by
  unfold importFileBy
  rw [hheader]
  rfl

/-- What every batch of a file keeps, its import keeps. -/
theorem onDb_importFileBy {T : Db F → Db F → Prop} [Std.Refl T] [IsTrans (Db F) T] {size : Nat}
    {emb : Embedder F} {schema : Int} {file : ImportFile F} {dryRun : Bool}
    (h : ∀ agent dim, ∀ b ∈ (planFile env schema size file).batches,
      Moves (OnDb T) (processBatch env emb agent dim b dryRun)) :
    Moves (OnDb T) (importFileBy size env emb schema file dryRun) := by
  unfold importFileBy
  refine moves_bind (moves_lift _) fun _ => ?_
  refine moves_bind moves_get fun c => ?_
  refine moves_bind onDb_embedDim fun dim => ?_
  refine moves_bind (moves_foldEach fun stats b hb => ?_) fun stats => ?_
  · exact moves_bind (h c.agentId dim b hb) fun done => moves_pure _
  · cases (planFile env schema size file).stop with
    | none => exact moves_pure stats
    | some e => exact moves_fail e

theorem rest_importFile {emb : Embedder F} {schema : Int} {file : ImportFile F} {dryRun : Bool} :
    Moves (OnDb SameRest) (importFile env emb schema file dryRun) := by
  rw [importFile_eq]
  exact onDb_importFileBy fun _ _ _ _ => rest_processBatch

/-- The rules of an import: it may store any text. -/
theorem importRules : Rules env importGrant (Edits env importGrant) where
  edits _ _ h := h
  redacted _ := trivial
  bump _ _ _ _ := moves_bump (.inr trivial)
  update _ _ _ _ _ htext := moves_update trivial trivial htext

theorem importFile_edits {emb : Embedder F} {schema : Int} {file : ImportFile F} {dryRun : Bool} :
    Moves (Edits env importGrant) (importFile env emb schema file dryRun) := by
  unfold importFile
  refine moves_bind (moves_lift _) fun _ => ?_
  refine moves_bind moves_get fun c => ?_
  refine moves_bind moves_embedDim fun dim => ?_
  exact moves_importLines importRules
    (Inserts.of_edits (fun _ _ h => h) (fun _ => trivial) trivial emb) (fun _ _ => trivial)
    (List.forall_mem_nil _)

/-! ## What a plan holds -/

/-- A batch has rows, and each passed its validation. -/
structure Validated (env : Env F) (schema : Int) (batch : List (Nat × ExportRow F)) : Prop where
  nonempty : batch ≠ []
  rows : ∀ r ∈ batch, validateRow env r.1 r.2 schema = .ok ()

private theorem planLines_validated {schema : Int} {size : Nat} {lines : List (ImportLine F)}
    {lineNo : Nat} {batch : List (Nat × ExportRow F)}
    (hbatch : ∀ r ∈ batch, validateRow env r.1 r.2 schema = .ok ()) :
    ∀ b ∈ (planLines env schema size lines lineNo batch).batches, Validated env schema b := by
  induction lines generalizing lineNo batch with
  | nil =>
    intro b hb
    rw [planLines] at hb
    cases batch with
    | nil => cases hb
    | cons r batch =>
      rw [List.mem_singleton.mp hb]
      exact ⟨List.cons_ne_nil _ _, hbatch⟩
  | cons line lines ih =>
    rcases line with _ | msg | row
    · exact ih hbatch
    · intro b hb; cases hb
    · rw [planLines]
      cases hrow : validateRow env lineNo row schema with
      | error e => intro b hb; cases hb
      | ok u =>
        have hnext : ∀ r ∈ batch ++ [(lineNo, row)], validateRow env r.1 r.2 schema = .ok () := by
          intro r hr
          rcases List.mem_append.mp hr with hr | hr
          · exact hbatch r hr
          · rw [List.mem_singleton.mp hr]
            exact hrow
        dsimp only
        split
        · intro b hb
          rcases List.mem_cons.mp hb with rfl | hb
          · exact ⟨by simp, hnext⟩
          · exact ih (List.forall_mem_nil _) b hb
        · exact ih hnext

theorem planFile_validated {schema : Int} {size : Nat} {file : ImportFile F} :
    ∀ b ∈ (planFile env schema size file).batches, Validated env schema b :=
  planLines_validated (List.forall_mem_nil _)

theorem Validated.vetted {schema : Int} {batch : List (Nat × ExportRow F)}
    (h : Validated env schema batch) : ∀ r ∈ batch, Vetted env r.2 :=
  fun r hr => vetted_of_validate (h.rows r hr)

theorem Validated.hashed {schema : Int} {batch : List (Nat × ExportRow F)}
    (h : Validated env schema batch) : Hashed env batch :=
  fun r hr => (h.vetted r hr).hash

/-! ## A plan refines the catalogue -/

/-- The counts after fates were applied. -/
def ImportStats.count (s : ImportStats) (fates : List Fate) : ImportStats :=
  { s with
    rows := s.rows + fates.length, inserted := s.inserted + fates.countP Fate.isInsert
    deduped := s.deduped + fates.countP Fate.isBump
    updated := s.updated + fates.countP Fate.isConflict }

/-- A batch of hashed rows is a run like any other. -/
private theorem processBatch_ran {emb : Embedder F} {agent : String} {dim : Nat}
    {batch : List (Nat × ExportRow F)} (hash : Hashed env batch) {dryRun : Bool} :
    Moves (Ran env importGrant) (processBatch env emb agent dim batch dryRun) :=
  moves_processBatch (stepRules_ran fun _ => trivial).toRules (inserts_ran (fun _ => trivial) emb)
    fun r hr => ⟨trivial, hash r hr⟩

theorem runBatches_ok {emb : Embedder F} {agent : String} {dim : Nat} {schema : Int}
    {batches : List (List (Nat × ExportRow F))} (hrows : ∀ b ∈ batches, Validated env schema b)
    {stats stats' : ImportStats} {s t : Conn F}
    (h : runBatches env emb agent dim false batches stats s = (.ok stats', t)) :
    ∃ fates, (catalogueOf agent s.db).run (batches.map keysOf) =
      some (fates, catalogueOf agent t.db) ∧ stats' = stats.count fates := by
  induction batches generalizing stats s with
  | nil =>
    obtain ⟨rfl, rfl⟩ := pure_ok h
    exact ⟨[], rfl, rfl⟩
  | cons batch batches ih =>
    obtain ⟨mid, s₁, hbatch, hrest⟩ := bind_ok h
    obtain ⟨done, s₂, hdone, hpure⟩ := bind_ok hbatch
    obtain ⟨rfl, rfl⟩ := pure_ok hpure
    obtain ⟨fates, hcat, rfl⟩ := processBatch_ok (hrows batch List.mem_cons_self).hashed hdone
    obtain ⟨rest, hrun, rfl⟩ := ih (fun b hb => hrows b (List.mem_cons_of_mem _ hb)) hrest
    have hlen : fates.length = batch.length := by
      rw [Catalogue.fates_length (Catalogue.batch_some hcat).1, keysOf, List.length_map]
    refine ⟨fates ++ rest, ?_, ?_⟩
    · rw [List.map_cons, Catalogue.run, hcat, Option.bind_some]
      show Option.map _ ((catalogueOf agent s₂.db).run _) = _
      rw [hrun]
      rfl
    · simp only [ImportStats.count, ImportStats.addBatch, ImportStats.add, tally,
        List.length_append, List.countP_append, hlen, Nat.add_assoc]

/-- A successful run read the file to its end. -/
theorem runPlan_stop {emb : Embedder F} {agent : String} {dim : Nat} {dryRun : Bool}
    {plan : Plan F} {stats stats' : ImportStats} {s t : Conn F}
    (h : runPlan env emb agent dim dryRun plan stats s = (.ok stats', t)) :
    plan.stop = none ∧ runBatches env emb agent dim dryRun plan.batches stats s = (.ok stats', t) := by
  obtain ⟨mid, u, hbatches, hstop⟩ := bind_ok h
  cases hend : plan.stop with
  | none =>
    rw [hend] at hstop
    obtain ⟨rfl, rfl⟩ := pure_ok hstop
    exact ⟨rfl, hbatches⟩
  | some e =>
    rw [hend] at hstop
    cases hstop

/-- Without faults the batches go through when the catalogue lets them. -/
theorem runBatches_succeeds (hfault : ∀ n, env.fault n = false) {emb : Embedder F}
    {agent : String} {schema : Int} {batches : List (List (Nat × ExportRow F))}
    (hrows : ∀ b ∈ batches, Validated env schema b) {d : Nat} (hemb : Answers emb d)
    {stats : ImportStats} {s : Conn F} (hdb : Wellformed env s.db) (hd : s.db.embedDim = d)
    (hcat : ((catalogueOf agent s.db).run (batches.map keysOf)).isSome) :
    Succeeds (runBatches env emb agent d false batches stats) s := by
  induction batches generalizing stats s with
  | nil => exact succeeds_pure stats s
  | cons batch batches ih =>
    obtain ⟨⟨all, cat⟩, hall⟩ := Option.isSome_iff_exists.mp hcat
    obtain ⟨⟨fates, mid⟩, hfirst, hrest⟩ := Option.bind_eq_some_iff.mp hall
    have hvalid := hrows batch List.mem_cons_self
    have hbatch : Succeeds (processBatch env emb agent d batch false) s := by
      subst hd
      exact processBatch_succeeds hfault hdb hvalid.vetted hemb (by rw [hfirst]; rfl)
    refine succeeds_bind (succeeds_bind hbatch fun _ _ _ => succeeds_pure _ _)
      fun stats' t hrun => ?_
    obtain ⟨done, t', hdone, hpure⟩ := bind_ok hrun
    obtain ⟨_, rfl⟩ := pure_ok hpure
    obtain ⟨fates', hcat', _⟩ := processBatch_ok hvalid.hashed hdone
    rw [hfirst] at hcat'
    obtain ⟨rfl, hmid⟩ := Prod.mk.inj (Option.some.inj hcat')
    have hran : Ran env importGrant s (processBatch env emb agent d batch false s).2 :=
      processBatch_ran hvalid.hashed s
    have hsame : SameRest s.db (processBatch env emb agent d batch false s).2.db :=
      rest_processBatch s
    rw [hdone] at hran hsame
    refine ih (fun b hb => hrows b (List.mem_cons_of_mem _ hb)) ?_ (hsame.embedDim.trans hd) ?_
    · exact hran.preserves (fun _ _ => Edit.wellformed) hdb
    · obtain ⟨rest, hrun', _⟩ := Option.map_eq_some_iff.mp hrest
      rw [← hmid, hrun']
      rfl

/-- Valid rows fill a batch. -/
theorem planLines_fill {schema : Int} {size : Nat} {rows : List (ExportRow F)}
    (hrows : ∀ row ∈ rows, ∀ n, validateRow env n row schema = .ok ()) (hne : rows ≠ [])
    {batch : List (Nat × ExportRow F)} (hsize : batch.length + rows.length = size)
    (lines : List (ImportLine F)) (n : Nat) :
    (planLines env schema size (rows.map (fun row => some (.ok row)) ++ lines) n batch).batches.map
        keysOf = (keysOf batch ++ rows.map ExportRow.key) ::
          (planLines env schema size lines (n + rows.length) []).batches.map keysOf := by
  induction rows generalizing n batch with
  | nil => exact absurd rfl hne
  | cons row rows ih =>
    have hrow := hrows row List.mem_cons_self n
    have hkeys : keysOf (batch ++ [(n, row)]) = keysOf batch ++ [row.key] := List.map_append
    rw [List.map_cons, List.cons_append, planLines, hrow]
    dsimp only
    cases rows with
    | nil =>
      rw [if_pos (by rw [List.length_append]; exact hsize)]
      exact congrArg (· :: _) hkeys
    | cons row' rows =>
      have hmore : (batch ++ [(n, row)]).length + (row' :: rows).length = size := by
        rw [List.length_append, Nat.add_assoc]
        exact (Nat.add_comm 1 _).symm ▸ hsize
      rw [if_neg (fun h => by rw [h, List.length_cons] at hmore; omega),
        ih (fun r hr => hrows r (List.mem_cons_of_mem _ hr)) (List.cons_ne_nil _ _) hmore, hkeys,
        List.append_assoc, Nat.add_assoc, Nat.add_comm 1]
      rfl

/-! Files of plain rows, and an embedder for them. -/

theorem sampleEmbedder_answers : Answers sampleEmbedder 1 := by
  intro _ n texts
  refine ⟨texts.map sampleEmbed, rfl, fun vec hvec => ?_⟩
  obtain ⟨text, _, rfl⟩ := List.mem_map.mp hvec
  rfl

/-- A fact of the user, hashed as it stands. -/
def plainRow (publicId text : String) : ExportRow ℚ where
  schemaVersion := 1
  publicId := publicId
  tier := "semantic"
  kind := "fact"
  text := text
  textHash := text
  status := "active"
  trust := "trusted"
  confidence := 1
  provenance := ⟨"user", none⟩
  createdAt := 0
  updatedAt := 0

/-- A store that holds the row "a" with the text "tea". -/
def teaStore : Conn ℚ where
  agentId := "a"
  db := withImported (plainRow "a" "tea") 0 none
    { id := 1, publicId := "a", agentId := "a", tier := .semantic, kind := .fact, text := "tea"
      textHash := "tea", importanceCurrent := 1, confidence := 1, status := .active
      trust := .trusted, sourceKind := .user, embedStatus := .skipped, createdAt := 0
      updatedAt := 0 } (emptyStore ℚ "a" 1).db

theorem teaStore_wellformed : Wellformed sampleEnv teaStore.db := by
  constructor <;> decide

def plainFile (rows : List (ExportRow ℚ)) : ImportFile ℚ :=
  ⟨"rows.jsonl", some (.ok ⟨FORMAT, FORMAT_VERSION, 0, "a"⟩), rows.map fun row => some (.ok row)⟩

end AgosMemory.Export
