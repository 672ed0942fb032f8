import AgosMemory.Library.Clients
import AgosMemory.Runs.Tombstones

/-!
# Operations as clients

Between two of its reads, embedder calls and writer closures an operation leaves the store to others.
Each operation is cut at these points into a client, whose steps are the reads, the calls, and the
closures inside `tx`. With every statement on its own and no one else at work, a client does what its
operation does.
-/

namespace AgosMemory

open Library Store
open Library.Client hiding fail lift onlyIf forEach foldEach attempt
open Library.Program (Moves Yields)

variable {F : Type} [F64 F]

/-- One call's work as seen by the other calls. -/
abbrev Work (F α : Type) := Client Error (Conn F) α

/-- A closure whose statements take effect together or not at all. -/
def transaction {α : Type} (m : Write F α) : Write F α :=
  Program.atomically (fun s t => { t with db := s.db }) m

/-- A closure whose statements take effect one by one. -/
def autocommit {α : Type} (m : Write F α) : Write F α := m

section

variable (env : Env F) (tx : {α : Type} → Write F α → Write F α)

/-! ## Store -/

/-- Rollback reads its target in a step of its own. -/
def rollbackClient (id targetVersion : Int) (createdBy : Option String) : Work F MemoryRow := do
  match ← call (getMemoryVersion env id targetVersion) with
  | none => Client.fail (.invalidInput
      ("version " ++ toString targetVersion ++ " not found for memory " ++ toString id))
  | some target =>
    call (tx (updateMemory env id target.text
      (some ("rollback to version " ++ toString targetVersion)) createdBy))

/-- The four jobs of a hard purge. -/
def hardPurgeClient (id : Int) (deletedBy reason : Option String) (action : String) :
    Work F Unit := do
  let now ← call (nowMillis env)
  let c ← call Program.get
  let e ← call (tx (Tombstones.deleteJob env id))
  call (Tombstones.vacuumJob env)
  call (Tombstones.vacuumJob env)
  call (tx (Tombstones.recordJob env ⟨id, deletedBy, reason, action, c.agentId, now⟩ e))

/-! ## Persist -/

/-- The writer closure of the embedded path. -/
def persistEmbedded (emb : Embedder F) (cand : Persist.Candidate F)
    (text extractorVersion sourceKind : String) (pendingThreshold dedupThreshold : F)
    (vec : List F) : Write F Persist.PersistReport := do
  let now ← nowMillis env
  match ← query env fun db => .ok (Persist.duplicateOf env db vec cand.tier dedupThreshold) with
  | some rowid =>
    Persist.bumpEmbedded env rowid sourceKind now
    let row ← query env fun db => one (db.memory? rowid)
    return ⟨rowOf row, true⟩
  | none =>
    Persist.insertEmbedded env emb cand text extractorVersion sourceKind pendingThreshold vec now

def persistFullClient (emb : Embedder F) (cand : Persist.Candidate F)
    (extractorVersion sourceKind : String) (pendingThreshold dedupThreshold : F) :
    Work F Persist.PersistReport := do
  let text := Redact.redact cand.text
  let vecs ← call (emb.call [text])
  call (tx (persistEmbedded env emb cand text extractorVersion sourceKind pendingThreshold
    dedupThreshold (vecs.headD [])))

def rememberClient (emb : Embedder F) (cand : Persist.Candidate F)
    (extractorVersion sourceKind : String) (pendingThreshold dedupThreshold : F) :
    Work F MemoryRow := do
  match ← (persistFullClient env tx emb cand extractorVersion sourceKind pendingThreshold
      dedupThreshold).attempt with
  | .ok report => return report.row
  | .error (.embedder _) =>
    let report ← call (tx (Persist.persistCandidateUnembedded env cand extractorVersion sourceKind
      pendingThreshold))
    return report.row
  | .error e => Client.fail e

/-! ## Import -/

/-- The writer closure of a batch. -/
def writeRows (emb : Embedder F) (agent : String) (effectiveDim : Nat)
    (planned : List (Export.PlannedRow F)) : Write F Unit := do
  let now ← nowMillis env
  Program.forEach planned (Export.writeRow env emb agent effectiveDim now)

/-- Each conflict is a closure of its own, after the batch. -/
def processBatchClient (emb : Embedder F) (agent : String) (dim : Nat)
    (batch : List (Nat × Export.ExportRow F)) (dryRun : Bool) : Work F (Nat × Nat × Nat) := do
  let fates ← call (query env fun db => Export.classifyAll db agent batch)
  let inserted := fates.countP Export.Fate.isInsert
  let deduped := fates.countP Export.Fate.isBump
  if dryRun then return (inserted, deduped, 0)
  else do
    let effectiveDim := if 0 < emb.dim then dim else 0
    let vectors ← call (Export.embedFresh emb effectiveDim (Export.freshTexts batch fates))
    let planned := Export.planRows batch fates (Export.embedPlan effectiveDim fates vectors)
    call (tx (writeRows env emb agent effectiveDim planned))
    Client.forEach planned fun p =>
      Client.onlyIf p.fate.isConflict (call (tx (Export.versionConflict env p)))
    return (inserted, deduped, fates.countP Export.Fate.isConflict)

def importLinesClient (emb : Embedder F) (agent : String) (dim : Nat) (targetSchema : Int)
    (dryRun : Bool) : List (Export.ImportLine F) → Nat → List (Nat × Export.ExportRow F) →
    Export.ImportStats → Work F Export.ImportStats
  | [], _, batch, stats =>
    if batch.isEmpty then pure stats
    else do
      let done ← processBatchClient env tx emb agent dim batch dryRun
      return stats.add done
  | none :: lines, lineNo, batch, stats =>
    importLinesClient emb agent dim targetSchema dryRun lines (lineNo + 1) batch stats
  | some (.error msg) :: _, lineNo, _, _ =>
    Client.fail (Export.atLine lineNo ("invalid JSON: " ++ msg))
  | some (.ok row) :: lines, lineNo, batch, stats => do
    Client.lift (Export.validateRow env lineNo row targetSchema)
    let stats := { stats with rows := stats.rows + 1 }
    let batch := batch ++ [(lineNo, row)]
    if batch.length = Export.BATCH then do
      let done ← processBatchClient env tx emb agent dim batch dryRun
      importLinesClient emb agent dim targetSchema dryRun lines (lineNo + 1) [] (stats.add done)
    else importLinesClient emb agent dim targetSchema dryRun lines (lineNo + 1) batch stats

def importFileClient (emb : Embedder F) (targetSchema : Int) (file : Export.ImportFile F)
    (dryRun : Bool) : Work F Export.ImportStats := do
  Client.lift (Export.checkHeader file.name file.header)
  let c ← call Program.get
  let dim ← call (embedDim env)
  importLinesClient env tx emb c.agentId dim targetSchema dryRun file.lines 2 []
    ⟨0, 0, 0, 0, dryRun⟩

/-! ## Ingest -/

open Ingest in
def writeEmbeddedClient (cfg : IngestConfig F) (emb : Embedder F) (item : ParsedItem) :
    Work F Persist.PersistReport := do
  call (validateEmbedDim env emb)
  persistFullClient env tx emb (itemCandidate item) "openclaw-ingest-v1" "file"
    cfg.pendingThreshold cfg.dedupThreshold

open Ingest in
def writeItemClient (cfg : IngestConfig F) (item : ParsedItem) : Work F Persist.PersistReport :=
  match cfg.provider with
  | .none => call (tx (Persist.persistCandidateDegraded env (itemCandidate item)
      "openclaw-ingest-v1" "file" cfg.pendingThreshold))
  | .hash emb => writeEmbeddedClient env tx cfg emb item
  | .openAiCompat model emb =>
    if model = "" then
      Client.fail (.config "embed.model is empty; set [embed] model or use provider = 'none'")
    else writeEmbeddedClient env tx cfg emb item

def recordDailyTurnClient (item : Ingest.ParsedItem) : Work F Unit := do
  let c ← call Program.get
  let session ← match ← call (Sessions.getOpenSession env c.agentId) with
    | some session => pure session
    | none => call (tx (Sessions.openSession env c.agentId))
  let content := "[untrusted-file " ++ item.sourceRef ++ "] " ++ Redact.redact item.text
  let _ ← call (tx (Sessions.appendTurn env session.id "tool" content))
  return ()

def rewriteItemClient (item : Ingest.ParsedItem) (id : Int) : Work F String := do
  let updated ← call (tx (updateMemoryWithProvenance env id (Redact.redact item.text) (some "file")
    (some "openclaw ingest: edited source item") (some "openclaw-ingest")))
  call (tx (setSourceRef env updated.id item.sourceRef))
  return updated.publicId

def storeItemClient (cfg : Ingest.IngestConfig F) (item : Ingest.ParsedItem) : Work F String := do
  let report ← writeItemClient env tx cfg item
  Client.onlyIf (!report.deduped) (call (tx (setSourceRef env report.row.id item.sourceRef)))
  return report.row.publicId

/-- The second lookup insists on the row that the first one found. -/
def namedMemoryClient : Option String → Work F (Option MemoryRow)
  | none => pure none
  | some publicId => do
    match ← call (getMemory env publicId) with
    | none => return none
    | some _ =>
      match ← call (getMemory env publicId) with
      | some row => return some row
      | none => Client.fail (.storage "checked above")

open Ingest in
def ingestStepClient (cfg : IngestConfig F) (manifest : Manifest) (p : PlannedItem) :
    Work F Manifest :=
  if p.action = .unchanged then pure manifest
  else do
    let publicId ← match ← namedMemoryClient env p.oldPublicId with
      | some row => rewriteItemClient env tx p.item row.id
      | none => storeItemClient env tx cfg p.item
    Client.onlyIf p.item.daily (recordDailyTurnClient env tx p.item)
    return setEntry manifest p.item.sourceRef ⟨p.hash, publicId⟩

open Ingest in
def ingestClient (cfg : IngestConfig F) (tree : Tree) (dryRun : Bool) : Work F IngestReport := do
  let files ← Client.lift (discoverFiles tree)
  if files.isEmpty then
    Client.fail (.invalidInput ("no OpenClaw Markdown files found under " ++ tree.path))
  else do
    let manifest ← call (query env fun db => .ok db.manifest)
    let parsed ← Client.lift (parseFiles files [])
    let planned := sortPlanned (parsed.items.map (planItem env manifest))
    let report : IngestReport := {
      seen := planned.length
      new := planned.countP fun p => p.action = .new
      updated := planned.countP fun p => p.action = .update
      unchanged := planned.countP fun p => p.action = .unchanged
      stale := manifest.countP fun e => e.1 ∉ parsed.items.map ParsedItem.sourceRef
      skipped := parsed.skipped
      dryRun }
    if dryRun then return report
    else do
      let next ← Client.foldEach planned manifest (ingestStepClient env tx cfg)
      call (tx (run env fun db => { db with manifest := next }))
      return report

end

/-! ## Operations -/

/-- Run a client for its effect. -/
def Client.effect {α : Type} (c : Work F α) : Work F Unit := c >>= fun _ => pure ()

def Op.client (env : Env F) (tx : {α : Type} → Write F α → Write F α) : Op F → Work F Unit
  | openAs agentId => call fun c => (.ok (), { c with agentId })
  | insertMemory m => Client.effect (call (tx (Store.insertMemory env m)))
  | persistFull emb cand ev sk pending dedup =>
    Client.effect (persistFullClient env tx emb cand ev sk pending dedup)
  | persistDegraded cand ev sk pending =>
    Client.effect (call (tx (Persist.persistCandidateDegraded env cand ev sk pending)))
  | persistUnembedded cand ev sk pending =>
    Client.effect (call (tx (Persist.persistCandidateUnembedded env cand ev sk pending)))
  | remember emb cand ev sk pending dedup =>
    Client.effect (rememberClient env tx emb cand ev sk pending dedup)
  | update id text source reason by_ =>
    Client.effect (call (tx (updateMemoryWithProvenance env id text source reason by_)))
  | rollback id version by_ => Client.effect (rollbackClient env tx id version by_)
  | setPinned id pinned requester => Client.effect (call (tx (setMemoryPinned env id pinned requester)))
  | setSourceRef id sourceRef => call (tx (Store.setSourceRef env id sourceRef))
  | setSummary id summary tokens => call (tx (Store.setSummary env id summary tokens))
  | importFile emb schema file dryRun =>
    Client.effect (importFileClient env tx emb schema file dryRun)
  | ingest cfg tree dryRun => Client.effect (ingestClient env tx cfg tree dryRun)
  | deprecateMemory id by_ => call (tx (Store.deprecateMemory env id by_))
  | deprecateForTtl id => call (tx (Store.deprecateForTtl env id))
  | restoreMemory id by_ => call (tx (Store.restoreMemory env id by_))
  | hardPurgeMemory id by_ reason => hardPurgeClient env tx id by_ reason "hard_delete"
  | hardPurgeForTtl id =>
    hardPurgeClient env tx id (some "ttl-reaper") (some "TTL grace period expired") "ttl_purge"
  | setDedupCluster id clusterId => call (tx (Store.setDedupCluster env id clusterId))
  | bumpRefCount id => call (tx (Store.bumpRefCount env id))

/-! ## Without other calls -/

section

variable {env : Env F}

omit [F64 F] in
private theorem alone_rollback (id version : Int) (createdBy : Option String) :
    (rollbackClient env autocommit id version createdBy).alone =
      rollbackMemory env id version createdBy := by
  unfold rollbackClient rollbackMemory
  rw [alone_bind, alone_call]
  congr
  funext target
  cases target <;> rfl

omit [F64 F] in
theorem alone_hardPurge (id : Int) (deletedBy reason : Option String) (action : String) :
    (hardPurgeClient env autocommit id deletedBy reason action).alone =
      hardPurgeWithAction env id deletedBy reason action := by
  rw [Tombstones.hardPurge_jobs]
  unfold hardPurgeClient
  simp only [alone_bind, alone_call]
  rfl

private theorem alone_persistFull (emb : Embedder F) (cand : Persist.Candidate F) (ev sk : String)
    (pending dedup : F) :
    (persistFullClient env autocommit emb cand ev sk pending dedup).alone =
      Persist.persistCandidateFull env emb cand ev sk pending dedup := by
  unfold persistFullClient
  simp only [alone_bind, alone_call]
  rfl

private theorem alone_remember (emb : Embedder F) (cand : Persist.Candidate F) (ev sk : String)
    (pending dedup : F) :
    (rememberClient env autocommit emb cand ev sk pending dedup).alone =
      Persist.remember env emb cand ev sk pending dedup := by
  unfold rememberClient Persist.remember
  rw [alone_bind, alone_attempt, alone_persistFull]
  congr
  funext outcome
  cases outcome with
  | ok report => rfl
  | error e =>
    cases e with
    | embedder msg =>
      simp only [alone_bind, alone_call, alone_pure]
      rfl
    | _ => rfl

omit [F64 F] in
private theorem versionConflict_onlyIf (p : Export.PlannedRow F) :
    Program.onlyIf p.fate.isConflict (Export.versionConflict env p) =
      Export.versionConflict env p := by
  unfold Export.versionConflict
  cases p.fate <;> rfl

private theorem alone_processBatch (emb : Embedder F) (agent : String) (dim : Nat)
    (batch : List (Nat × Export.ExportRow F)) (dryRun : Bool) :
    (processBatchClient env autocommit emb agent dim batch dryRun).alone =
      Export.processBatch env emb agent dim batch dryRun := by
  unfold processBatchClient Export.processBatch writeRows autocommit
  rw [alone_bind, alone_call]
  congr
  funext fates
  dsimp only
  split
  · rfl
  · simp only [alone_bind, alone_call, alone_forEach, alone_onlyIf, alone_pure,
      versionConflict_onlyIf, Program.bind_assoc]

private theorem alone_importLines (emb : Embedder F) (agent : String) (dim : Nat) (schema : Int)
    (dryRun : Bool) (lines : List (Export.ImportLine F)) (lineNo : Nat)
    (batch : List (Nat × Export.ExportRow F)) (stats : Export.ImportStats) :
    (importLinesClient env autocommit emb agent dim schema dryRun lines lineNo batch stats).alone =
      Export.importLines env emb agent dim schema dryRun lines lineNo batch stats := by
  induction lines generalizing lineNo batch stats with
  | nil =>
    unfold importLinesClient Export.importLines
    split
    · rfl
    · rw [alone_bind, alone_processBatch]
      rfl
  | cons line lines ih =>
    rcases line with _ | msg | row
    · exact ih _ _ _
    · rfl
    · unfold importLinesClient Export.importLines
      rw [alone_bind, alone_lift]
      congr
      funext _
      dsimp only
      split
      · rw [alone_bind, alone_processBatch]
        congr
        funext done
        exact ih _ _ _
      · exact ih _ _ _

private theorem alone_importFile (emb : Embedder F) (schema : Int) (file : Export.ImportFile F)
    (dryRun : Bool) :
    (importFileClient env autocommit emb schema file dryRun).alone =
      Export.importFile env emb schema file dryRun := by
  unfold importFileClient Export.importFile
  simp only [alone_bind, alone_lift, alone_call, alone_importLines]

omit [F64 F] in
private theorem alone_recordDailyTurn (item : Ingest.ParsedItem) :
    (recordDailyTurnClient env autocommit item).alone = Ingest.recordDailyTurn env item := by
  unfold recordDailyTurnClient Ingest.recordDailyTurn autocommit
  simp only [alone_bind, alone_call]
  congr
  funext c
  congr
  funext open?
  cases open? with
  | none => simp only [alone_bind, alone_call, alone_pure]
  | some session => simp only [alone_bind, alone_call, alone_pure]

omit [F64 F] in
/-- Nothing comes between the two lookups. -/
private theorem alone_namedMemory (publicId : Option String) :
    (namedMemoryClient env publicId).alone = Ingest.namedMemory env publicId := by
  cases publicId with
  | none => rfl
  | some publicId =>
    unfold namedMemoryClient Ingest.namedMemory
    dsimp only
    rw [alone_bind, alone_call]
    funext s
    rw [Program.bind_run, Program.bind_run]
    cases hfirst : getMemory env publicId s with
    | mk r t =>
      match r with
      | .error e => rfl
      | .ok none => rfl
      | .ok (some found) =>
        obtain ⟨hfound, hdb⟩ := query_ok hfirst
        dsimp only
        rw [alone_bind, alone_call, Program.bind_run]
        cases hsecond : getMemory env publicId t with
        | mk r u =>
          match r with
          | .error e => rfl
          | .ok (some row) => rfl
          | .ok none =>
            have hnone := (query_ok hsecond).1
            rw [hdb, hfound] at hnone
            cases hnone

private theorem alone_writeItem (cfg : Ingest.IngestConfig F) (item : Ingest.ParsedItem) :
    (writeItemClient env autocommit cfg item).alone = Ingest.writeItem env cfg item := by
  have hembedded : ∀ emb, (writeEmbeddedClient env autocommit cfg emb item).alone =
      Ingest.writeEmbedded env cfg emb item := fun emb => by
    unfold writeEmbeddedClient Ingest.writeEmbedded
    rw [alone_bind, alone_call]
    congr
    funext _
    exact alone_persistFull _ _ _ _ _ _
  unfold writeItemClient Ingest.writeItem
  cases cfg.provider with
  | none => rfl
  | hash emb => exact hembedded emb
  | openAiCompat model emb =>
    dsimp only
    split
    · rfl
    · exact hembedded emb

private theorem alone_storeItem (cfg : Ingest.IngestConfig F) (item : Ingest.ParsedItem) :
    (storeItemClient env autocommit cfg item).alone = Ingest.storeItem env cfg item := by
  unfold storeItemClient Ingest.storeItem autocommit
  simp only [alone_bind, alone_onlyIf, alone_call, alone_pure]
  rw [← alone_writeItem]
  rfl

omit [F64 F] in
private theorem alone_rewriteItem (item : Ingest.ParsedItem) (id : Int) :
    (rewriteItemClient env autocommit item id).alone = Ingest.rewriteItem env item id := by
  unfold rewriteItemClient Ingest.rewriteItem autocommit
  simp only [alone_bind, alone_call, alone_pure]

private theorem alone_ingestStep (cfg : Ingest.IngestConfig F) (manifest : Ingest.Manifest)
    (p : Ingest.PlannedItem) :
    (ingestStepClient env autocommit cfg manifest p).alone =
      Ingest.ingestStep env cfg manifest p := by
  unfold ingestStepClient Ingest.ingestStep Ingest.ingestItem
  split
  · rfl
  rw [alone_bind, alone_namedMemory]
  congr
  funext found
  cases found with
  | some row =>
    simp only [alone_bind, alone_onlyIf, alone_recordDailyTurn, alone_rewriteItem, alone_pure]
  | none =>
    simp only [alone_bind, alone_onlyIf, alone_recordDailyTurn, alone_storeItem, alone_pure]

private theorem alone_ingest (cfg : Ingest.IngestConfig F) (tree : Ingest.Tree) (dryRun : Bool) :
    (ingestClient env autocommit cfg tree dryRun).alone = Ingest.ingest env cfg tree dryRun := by
  unfold ingestClient Ingest.ingest
  rw [alone_bind, alone_lift]
  congr
  funext files
  split
  · rfl
  simp only [alone_bind, alone_lift, alone_call]
  congr
  funext manifest
  congr
  funext parsed
  split
  · rfl
  · simp only [alone_bind, alone_foldEach, alone_ingestStep, alone_call, alone_pure]
    rfl

omit [F64 F] in
private theorem alone_effect {α : Type} {c : Work F α} {m : Write F α} (h : c.alone = m) :
    (Client.effect c).alone = Op.effect m := by
  unfold Client.effect Op.effect
  rw [alone_bind, h]
  rfl

/-- An operation that nobody interrupts. -/
theorem alone_client (op : Op F) : (op.client env autocommit).alone = op.step env := by
  cases op with
  | persistFull => exact alone_effect (alone_persistFull _ _ _ _ _ _)
  | remember => exact alone_effect (alone_remember _ _ _ _ _ _)
  | rollback => exact alone_effect (alone_rollback _ _ _)
  | importFile => exact alone_effect (alone_importFile _ _ _ _)
  | ingest => exact alone_effect (alone_ingest _ _ _)
  | hardPurgeMemory => exact alone_hardPurge _ _ _ _
  | hardPurgeForTtl => exact alone_hardPurge _ _ _ _
  | insertMemory | persistDegraded | persistUnembedded | update | setPinned =>
    exact alone_effect rfl
  | _ => rfl

end

/-! ## What every client keeps -/

/-- The memory that an operation purges. -/
def Op.purgeId : Op F → Option Int
  | hardPurgeMemory id _ _ | hardPurgeForTtl id => some id
  | _ => none

/-- The write of a summary, which a summarization makes. -/
def Op.summarizes : Op F → Bool
  | setSummary .. => true
  | _ => false

/-- A step that keeps `I` of the database and moves it along `R`. -/
abbrev Inside (I : Db F → Prop) (R : Db F → Db F → Prop) : Conn F → Conn F → Prop :=
  Within (fun c => I c.db) (OnDb R)

/-- The writer closures, apart from the one of a summary, keep `I` and `R`, where only memories with
`P` are purged. -/
structure WriterClosures (env : Env F) (tx : {α : Type} → Write F α → Write F α) (I : Db F → Prop)
    (R : Db F → Db F → Prop) (P : Int → Prop) : Prop where
  insertMemory : ∀ m, Moves (Inside I R) (tx (Store.insertMemory env m))
  persistEmbedded : ∀ emb (cand : Persist.Candidate F) ev sk pending dedup vec,
    Moves (Inside I R) (tx (persistEmbedded env emb cand (Redact.redact cand.text) ev sk pending
      dedup vec))
  persistNoVector : ∀ cand ev sk pending status,
    Moves (Inside I R) (tx (Persist.persistCandidateNoVector env cand ev sk pending status))
  update : ∀ id text source reason createdBy,
    Moves (Inside I R) (tx (updateMemoryWithProvenance env id text source reason createdBy))
  writeRows : ∀ emb agent dim planned,
    (∀ p ∈ planned, p.row.textHash = env.sha256Hex p.row.text) →
      Moves (Inside I R) (tx (writeRows env emb agent dim planned))
  versionConflict : ∀ p, Moves (Inside I R) (tx (Export.versionConflict env p))
  pin : ∀ id pinned requester, Moves (Inside I R) (tx (setMemoryPinned env id pinned requester))
  sourceRef : ∀ id sourceRef, Moves (Inside I R) (tx (setSourceRef env id sourceRef))
  retire : ∀ id deletedBy action reason,
    Moves (Inside I R) (tx (deprecateWithAction env id deletedBy action reason))
  restore : ∀ id restoredBy, Moves (Inside I R) (tx (restoreMemory env id restoredBy))
  dedupCluster : ∀ id clusterId, Moves (Inside I R) (tx (setDedupCluster env id clusterId))
  refCount : ∀ id, Moves (Inside I R) (tx (bumpRefCount env id))
  openSession : ∀ agentId, Moves (Inside I R) (tx (Sessions.openSession env agentId))
  appendTurn : ∀ sessionId role content,
    Moves (Inside I R) (tx (Sessions.appendTurn env sessionId role content))
  manifest : ∀ manifest, Moves (Inside I R) (tx (run env fun db => { db with manifest }))
  delete : ∀ id, P id → Moves (Inside I R) (tx (Tombstones.deleteJob env id))
  record : ∀ r e, Moves (Inside I R) (tx (Tombstones.recordJob env r e))

/-- All writer closures keep `I` and `R`. -/
structure Closures (env : Env F) (tx : {α : Type} → Write F α → Write F α) (I : Db F → Prop)
    (R : Db F → Db F → Prop) (P : Int → Prop) : Prop extends WriterClosures env tx I R P where
  summary : ∀ id summary tokens, Moves (Inside I R) (tx (setSummary env id summary tokens))

section

variable {env : Env F} {tx : {α : Type} → Write F α → Write F α} {I : Db F → Prop}
  {R : Db F → Db F → Prop} {P : Int → Prop} [Std.Refl R]

omit [F64 F] in
/-- A program that leaves the database as it is. -/
theorem inside_same {α : Type} {m : Write F α} (h : ∀ s, (m s).2.db = s.db) :
    Moves (Inside I R) m := by
  intro s hs
  refine ⟨?_, onDb_same h s⟩
  show I (m s).2.db
  rw [h s]
  exact hs

omit [F64 F] in
private theorem keeps_same {α : Type} {m : Write F α} (h : ∀ s, (m s).2.db = s.db) :
    (call m).Keeps (fun c : Conn F => I c.db) (OnDb R) := keeps_call (inside_same h)

omit [F64 F] in
private theorem keeps_query {α : Type} {f : Db F → Except Error α} :
    (call (query env f)).Keeps (fun c : Conn F => I c.db) (OnDb R) := keeps_same (query_db f)

omit [F64 F] in
/-- A closure steps as a whole. -/
theorem moves_transaction {α : Type} {m : Write F α} (h : Yields (Inside I R) m) :
    Moves (Inside I R) (transaction m) :=
  Program.moves_atomically h fun s _ hs => ⟨hs, Std.Refl.refl s.db⟩

omit [F64 F] in
theorem embedFresh_db (emb : Embedder F) (dim : Nat) (inputs : List String) (s : Conn F) :
    (Export.embedFresh emb dim inputs s).2.db = s.db := by
  unfold Export.embedFresh
  split <;> rfl

variable (hR : WriterClosures env tx I R P)

include hR

private theorem keeps_persistFull {emb : Embedder F} {cand : Persist.Candidate F} {ev sk : String}
    {pending dedup : F} : (persistFullClient env tx emb cand ev sk pending dedup).Keeps
      (fun c => I c.db) (OnDb R) := by
  unfold persistFullClient
  refine keeps_bind (keeps_same fun _ => rfl) fun vecs => ?_
  exact keeps_call (hR.persistEmbedded _ _ _ _ _ _ _)

private theorem keeps_remember {emb : Embedder F} {cand : Persist.Candidate F} {ev sk : String}
    {pending dedup : F} : (rememberClient env tx emb cand ev sk pending dedup).Keeps
      (fun c => I c.db) (OnDb R) := by
  unfold rememberClient
  refine keeps_bind (keeps_attempt (keeps_persistFull hR)) fun outcome => ?_
  split
  · exact keeps_pure _
  · exact keeps_bind (keeps_call (hR.persistNoVector _ _ _ _ _)) fun report => keeps_pure _
  · exact keeps_fail _

theorem keeps_rollback {id version : Int} {createdBy : Option String} :
    (rollbackClient env tx id version createdBy).Keeps (fun c => I c.db) (OnDb R) := by
  unfold rollbackClient
  refine keeps_bind keeps_query fun target => ?_
  cases target with
  | none => exact keeps_fail _
  | some target => exact keeps_call (hR.update _ _ _ _ _)

private theorem keeps_hardPurge {id : Int} (hP : P id) {deletedBy reason : Option String}
    {action : String} :
    (hardPurgeClient env tx id deletedBy reason action).Keeps (fun c => I c.db) (OnDb R) := by
  unfold hardPurgeClient
  refine keeps_bind (keeps_same fun _ => rfl) fun now => ?_
  refine keeps_bind (keeps_same fun _ => rfl) fun c => ?_
  refine keeps_bind (keeps_call (hR.delete id hP)) fun e => ?_
  have hvacuum : ∀ s, (Tombstones.vacuumJob env s).2.db = s.db := fun s => by
    unfold Tombstones.vacuumJob run exec
    dsimp only
    split <;> rfl
  refine keeps_bind (keeps_same hvacuum) fun _ => ?_
  refine keeps_bind (keeps_same hvacuum) fun _ => ?_
  exact keeps_call (hR.record _ _)

private theorem keeps_processBatch {emb : Embedder F} {agent : String} {dim : Nat}
    {batch : List (Nat × Export.ExportRow F)} {dryRun : Bool}
    (hash : ∀ r ∈ batch, r.2.textHash = env.sha256Hex r.2.text) :
    (processBatchClient env tx emb agent dim batch dryRun).Keeps (fun c => I c.db) (OnDb R) := by
  unfold processBatchClient
  refine keeps_bind keeps_query fun fates => ?_
  dsimp only
  split
  · exact keeps_pure _
  refine keeps_bind (keeps_same (embedFresh_db _ _ _)) fun vectors => ?_
  refine keeps_bind (keeps_call (hR.writeRows _ _ _ _ fun p hp => ?_)) fun _ => ?_
  · obtain ⟨⟨r, hr, heq⟩, _⟩ := mem_planRows hp
    rw [heq]
    exact hash r hr
  refine keeps_bind (keeps_forEach fun p _ => ?_) fun _ => keeps_pure _
  exact keeps_onlyIf (keeps_call (hR.versionConflict p))

private theorem keeps_importLines {emb : Embedder F} {agent : String} {dim : Nat} {schema : Int}
    {dryRun : Bool} {lines : List (Export.ImportLine F)} {lineNo : Nat}
    {batch : List (Nat × Export.ExportRow F)}
    (hash : ∀ r ∈ batch, r.2.textHash = env.sha256Hex r.2.text) {stats : Export.ImportStats} :
    (importLinesClient env tx emb agent dim schema dryRun lines lineNo batch stats).Keeps
      (fun c => I c.db) (OnDb R) := by
  induction lines generalizing lineNo batch stats with
  | nil =>
    unfold importLinesClient
    split
    · exact keeps_pure _
    · exact keeps_bind (keeps_processBatch hR hash) fun done => keeps_pure _
  | cons line lines ih =>
    rcases line with _ | msg | row
    · exact ih hash
    · exact keeps_fail _
    · unfold importLinesClient
      refine keeps_bind_lift fun _ hvalid => ?_
      have hrows : ∀ r ∈ batch ++ [(lineNo, row)], r.2.textHash = env.sha256Hex r.2.text := by
        intro r hr
        rcases List.mem_append.mp hr with hr | hr
        · exact hash r hr
        · rw [List.mem_singleton.mp hr]
          exact validateRow_hash hvalid
      dsimp only
      split
      · exact keeps_bind (keeps_processBatch hR hrows) fun done => ih (List.forall_mem_nil _)
      · exact ih hrows

private theorem keeps_recordDailyTurn {item : Ingest.ParsedItem} :
    (recordDailyTurnClient env tx item).Keeps (fun c => I c.db) (OnDb R) := by
  unfold recordDailyTurnClient
  refine keeps_bind (keeps_same fun _ => rfl) fun c => ?_
  refine keeps_bind keeps_query fun session => ?_
  have hturn : ∀ session : Session, (call (tx (Sessions.appendTurn env session.id "tool"
      ("[untrusted-file " ++ item.sourceRef ++ "] " ++ Redact.redact item.text))) >>= fun _ =>
        pure () : Work F Unit).Keeps (fun c => I c.db) (OnDb R) :=
    fun session => keeps_bind (keeps_call (hR.appendTurn _ _ _)) fun _ => keeps_pure ()
  cases session with
  | some session => exact hturn session
  | none => exact keeps_bind (keeps_call (hR.openSession _)) hturn

private theorem keeps_writeItem {cfg : Ingest.IngestConfig F} {item : Ingest.ParsedItem} :
    (writeItemClient env tx cfg item).Keeps (fun c => I c.db) (OnDb R) := by
  have hembedded : ∀ emb, (writeEmbeddedClient env tx cfg emb item).Keeps
      (fun c => I c.db) (OnDb R) := fun emb =>
    keeps_bind (keeps_same (validateEmbedDim_db emb)) fun _ => keeps_persistFull hR
  unfold writeItemClient
  split
  · exact keeps_call (hR.persistNoVector _ _ _ _ _)
  · exact hembedded _
  · split
    · exact keeps_fail _
    · exact hembedded _

private theorem keeps_ingestStep {cfg : Ingest.IngestConfig F} {manifest : Ingest.Manifest}
    {p : Ingest.PlannedItem} :
    (ingestStepClient env tx cfg manifest p).Keeps (fun c => I c.db) (OnDb R) := by
  unfold ingestStepClient
  split
  · exact keeps_pure _
  have hnamed : (namedMemoryClient env p.oldPublicId).Keeps
      (fun c : Conn F => I c.db) (OnDb R) := by
    cases p.oldPublicId with
    | none => exact keeps_pure none
    | some publicId =>
      refine keeps_bind keeps_query fun found => ?_
      cases found with
      | none => exact keeps_pure none
      | some _ =>
        refine keeps_bind keeps_query fun found => ?_
        cases found with
        | none => exact keeps_fail _
        | some row => exact keeps_pure _
  have hrest : ∀ publicId : String,
      (Client.onlyIf p.item.daily (recordDailyTurnClient env tx p.item) >>= fun _ =>
        pure (Ingest.setEntry manifest p.item.sourceRef ⟨p.hash, publicId⟩) :
          Work F Ingest.Manifest).Keeps (fun c => I c.db) (OnDb R) := fun publicId =>
    keeps_bind (keeps_onlyIf (keeps_recordDailyTurn hR)) fun _ => keeps_pure _
  refine keeps_bind hnamed fun named => ?_
  cases named with
  | some row =>
    refine keeps_bind ?_ hrest
    refine keeps_bind (keeps_call (hR.update _ _ _ _ _)) fun updated => ?_
    exact keeps_bind (keeps_call (hR.sourceRef _ _)) fun _ => keeps_pure _
  | none =>
    refine keeps_bind ?_ hrest
    refine keeps_bind (keeps_writeItem hR) fun report => ?_
    exact keeps_bind (keeps_onlyIf (keeps_call (hR.sourceRef _ _))) fun _ => keeps_pure _

private theorem keeps_ingest {cfg : Ingest.IngestConfig F} {tree : Ingest.Tree} {dryRun : Bool} :
    (ingestClient env tx cfg tree dryRun).Keeps (fun c => I c.db) (OnDb R) := by
  unfold ingestClient
  refine keeps_bind (keeps_lift _) fun files => ?_
  split
  · exact keeps_fail _
  refine keeps_bind keeps_query fun manifest => ?_
  refine keeps_bind (keeps_lift _) fun parsed => ?_
  dsimp only
  split
  · exact keeps_pure _
  refine keeps_bind (keeps_foldEach fun _ p _ => keeps_ingestStep hR) fun next => ?_
  exact keeps_bind (keeps_call (hR.manifest next)) fun _ => keeps_pure _

/-- The steps of every other operation keep what its closures keep. -/
theorem keeps_writer {op : Op F} (hP : ∀ id ∈ op.purgeId, P id) (hop : op.summarizes = false) :
    (op.client env tx).Keeps (fun c => I c.db) (OnDb R) := by
  have heffect : ∀ {α : Type} {c : Work F α}, c.Keeps (fun c => I c.db) (OnDb R) →
      (Client.effect c).Keeps (fun c => I c.db) (OnDb R) := fun hc =>
    keeps_bind hc fun _ => keeps_pure ()
  cases op with
  | openAs agentId => exact keeps_same fun _ => rfl
  | insertMemory m => exact heffect (keeps_call (hR.insertMemory m))
  | persistFull emb cand ev sk pending dedup => exact heffect (keeps_persistFull hR)
  | persistDegraded cand ev sk pending => exact heffect (keeps_call (hR.persistNoVector _ _ _ _ _))
  | persistUnembedded cand ev sk pending =>
    exact heffect (keeps_call (hR.persistNoVector _ _ _ _ _))
  | remember emb cand ev sk pending dedup => exact heffect (keeps_remember hR)
  | update id text source reason createdBy => exact heffect (keeps_call (hR.update _ _ _ _ _))
  | rollback id version createdBy => exact heffect (keeps_rollback hR)
  | setPinned id pinned requester => exact heffect (keeps_call (hR.pin _ _ _))
  | setSourceRef id sourceRef => exact keeps_call (hR.sourceRef _ _)
  | setSummary id summary tokens => cases hop
  | importFile emb schema file dryRun =>
    refine heffect (keeps_bind (keeps_lift _) fun _ => ?_)
    refine keeps_bind (keeps_same fun _ => rfl) fun c => ?_
    refine keeps_bind (keeps_same fun _ => rfl) fun dim => ?_
    exact keeps_importLines hR (List.forall_mem_nil _)
  | ingest cfg tree dryRun => exact heffect (keeps_ingest hR)
  | deprecateMemory id deletedBy => exact keeps_call (hR.retire _ _ _ _)
  | deprecateForTtl id => exact keeps_call (hR.retire _ _ _ _)
  | restoreMemory id restoredBy => exact keeps_call (hR.restore _ _)
  | hardPurgeMemory id deletedBy reason => exact keeps_hardPurge hR (hP id rfl)
  | hardPurgeForTtl id => exact keeps_hardPurge hR (hP id rfl)
  | setDedupCluster id clusterId => exact keeps_call (hR.dedupCluster _ _)
  | bumpRefCount id => exact keeps_call (hR.refCount _)

omit hR in
/-- The steps of every operation keep what its closures keep. -/
theorem keeps_client (hR : Closures env tx I R P) {op : Op F} (hP : ∀ id ∈ op.purgeId, P id) :
    (op.client env tx).Keeps (fun c => I c.db) (OnDb R) := by
  cases hop : op.summarizes with
  | false => exact keeps_writer hR.toWriterClosures hP hop
  | true =>
    cases op with
    | setSummary id summary tokens => exact keeps_call (hR.summary _ _ _)
    | _ => cases hop

end

end AgosMemory
