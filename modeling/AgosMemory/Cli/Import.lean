import AgosMemory.Cli.Export
import AgosMemory.Memory.Persist

/-!
# Import

Rows are validated one by one and applied in batches: classify against the store as it stands before
the batch, embed the fresh rows, write, then version the conflicts. A line of the file is blank, not
JSON (with the parser's message), or a row.
-/

namespace AgosMemory.Export

open Library Library.Program Store

variable {F : Type} [F64 F]

/-- Header `format` marker. -/
def FORMAT : String := "agos-memory-export"

/-- Header `format_version` this binary reads and writes. -/
def FORMAT_VERSION : Nat := 1

def KINDS : List String :=
  ["fact", "decision", "preference", "promise", "correction", "lesson", "summary", "note"]

/-- `deleted` is absent: a purged row must never be replayed. -/
def STATUSES : List String := ["active", "pending", "deprecated"]

def TRUSTS : List String := ["trusted", "untrusted", "system"]

def SOURCES : List String := ["user", "agent", "tool", "file", "web", "import"]

/-- First line of every export file. -/
structure Header where
  format : String
  formatVersion : Nat
  exportedAt : Int
  agentId : String
  deriving DecidableEq, Repr

/-- What import does with one validated row. -/
inductive Fate where
  | bump (id : Int)
  | conflict (id : Int)
  | insert
  deriving DecidableEq, Repr

structure ImportStats where
  rows : Nat
  inserted : Nat
  deduped : Nat
  updated : Nat
  dryRun : Bool
  deriving DecidableEq, Repr

def atLine (lineNo : Nat) (msg : String) : Error :=
  .invalidInput ("import line " ++ toString lineNo ++ ": " ++ msg)

/-- Validate one row against the schema it will be written into: the first check that fails. -/
def validateRow (env : Env F) (lineNo : Nat) (row : ExportRow F) (targetSchema : Int) :
    Except Error Unit :=
  if row.tombstoneOf.isSome then
    .error (atLine lineNo "row carries a tombstone marker; refusing (leak rule)")
  else if targetSchema < row.schemaVersion then
    .error (atLine lineNo ("row schema_version " ++ toString row.schemaVersion ++
      " is newer than this store's schema v" ++ toString targetSchema ++
      "; upgrade agos-memory and retry"))
  else if Text.trim row.publicId = "" then .error (atLine lineNo "public_id must not be empty")
  else if Text.trim row.text = "" then .error (atLine lineNo "text must not be empty")
  else if row.textHash ≠ env.sha256Hex row.text then
    .error (atLine lineNo ("text_hash does not match sha256(text) for " ++ row.publicId ++
      " (corrupted file?)"))
  else if row.tier ∉ TIERS then .error (atLine lineNo ("invalid tier `" ++ row.tier ++ "`"))
  else if row.kind ∉ KINDS then .error (atLine lineNo ("invalid kind `" ++ row.kind ++ "`"))
  else if row.status ∉ STATUSES then
    .error (atLine lineNo ("invalid status `" ++ row.status ++
      "` (only active/pending/deprecated may be imported)"))
  else if row.trust ∉ TRUSTS then .error (atLine lineNo ("invalid trust `" ++ row.trust ++ "`"))
  else if row.provenance.sourceKind ∉ SOURCES then
    .error (atLine lineNo ("invalid source_kind `" ++ row.provenance.sourceKind ++ "`"))
  else if !(F64.le (F64.ofRat 0) row.confidence && F64.le row.confidence (F64.ofRat 1)) then
    .error (atLine lineNo ("confidence " ++ F64.display row.confidence ++ " outside 0..=1"))
  else if row.summaryTokens < 0 then .error (atLine lineNo "summary_tokens must be >= 0")
  else .ok ()

/-- Classify one row against the store. -/
def classify (db : Db F) (agent : String) (lineNo : Nat) (row : ExportRow F) : Except Error Fate :=
  if db.tombstones.any fun t => t.publicId = row.publicId then
    .error (.invalidInput ("import line " ++ toString lineNo ++ ": public_id " ++ row.publicId ++
      " was hard-purged (tombstoned) in this store; refusing import"))
  else
    match db.byPublicId? row.publicId with
    | some m => if m.textHash = row.textHash then .ok (.bump m.id) else .ok (.conflict m.id)
    | none =>
      -- the same content under another id of this agent is a reference to it
      match db.memories.find? fun m =>
        m.textHash = row.textHash ∧ m.agentId = agent ∧ m.status.live with
      | some m => .ok (.bump m.id)
      | none => .ok .insert

def classifyAll (db : Db F) (agent : String) : List (Nat × ExportRow F) → Except Error (List Fate)
  | [] => .ok []
  | (lineNo, row) :: batch => do
    let fate ← classify db agent lineNo row
    let fates ← classifyAll db agent batch
    return fate :: fates

/-- Hand the vectors out to the fresh rows, in order. -/
def embedPlan {F : Type} (effectiveDim : Nat) :
    List Fate → List (List F) → List (Option (List F))
  | [], _ => []
  | .insert :: fates, vectors =>
    if 0 < effectiveDim then vectors.head? :: embedPlan effectiveDim fates vectors.tail
    else none :: embedPlan effectiveDim fates vectors
  | .bump _ :: fates, vectors => none :: embedPlan effectiveDim fates vectors
  | .conflict _ :: fates, vectors => none :: embedPlan effectiveDim fates vectors

/-- A row of a batch with its fate and its vector. -/
structure PlannedRow (F : Type) where
  row : ExportRow F
  fate : Fate
  vector : Option (List F)

def planRows {F : Type} : List (Nat × ExportRow F) → List Fate → List (Option (List F)) →
    List (PlannedRow F)
  | (_, row) :: batch, fate :: fates, vector :: vectors =>
    ⟨row, fate, vector⟩ :: planRows batch fates vectors
  | _, _, _ => []

/-- What a fresh row records about its vector, and the vector stored. -/
def embedding (emb : Embedder F) (effectiveDim : Nat) (vector : Option (List F)) :
    Persist.Embedded × Option (List F) :=
  if effectiveDim = 0 then (⟨.skipped, none, none⟩, none)
  else
    match vector with
    | some (x :: xs) => (⟨.ok, some emb.model, some ((x :: xs).length : Int)⟩, some (x :: xs))
    | _ => (⟨.failed, none, none⟩, none)

/-- The statements of a fresh row. -/
def insertRow (env : Env F) (emb : Embedder F) (agent : String) (effectiveDim : Nat) (now : Int)
    (p : PlannedRow F) : Write F Unit := do
  let row := p.row
  let embedded := (embedding emb effectiveDim p.vector).1
  let m ← exec env (insertMemoryRow {
    publicId := row.publicId, agentId := agent, tier := row.tier, kind := row.kind
    text := row.text, textHash := row.textHash, summaryText := row.summaryText
    summaryTokens := some row.summaryTokens, confidence := row.confidence, status := row.status
    trust := trustForSourceKind row.provenance.sourceKind, pinned := row.pinned
    expiresAt := row.expiresAt, sourceKind := row.provenance.sourceKind
    sourceRef := row.provenance.sourceRef, embedModel := embedded.model, embedDim := embedded.dim
    embedStatus := embedded.status, createdAt := row.createdAt, updatedAt := row.updatedAt })
  exec env (insertVersion {
    memoryId := m.id, version := 1, text := row.text, textHash := row.textHash
    changeReason := some ("import from " ++ FORMAT), createdBy := some "import", createdAt := now })
  match (embedding emb effectiveDim p.vector).2 with
  | none => pure ()
  | some vec =>
    exec env (insertVec ⟨m.id, vec, m.tier, m.status.code, m.trust.code, m.kind, row.pinned⟩)

/-- The bump of an import: no cluster and no link. -/
def bumpImported (env : Env F) : Int → String → Int → Write F Unit := bump env ⟨false, true, false⟩

/-- Phase 3 for one row. -/
def writeRow (env : Env F) (emb : Embedder F) (agent : String) (effectiveDim : Nat) (now : Int)
    (p : PlannedRow F) : Write F Unit :=
  match p.fate with
  | .bump id => bumpImported env id p.row.provenance.sourceKind now
  | .conflict _ => pure ()
  | .insert => insertRow env emb agent effectiveDim now p

/-- Phase 4 for one row: a conflict becomes a version. -/
def versionConflict (env : Env F) (p : PlannedRow F) : Write F Unit :=
  match p.fate with
  | .conflict id => do
    let _ ← updateMemoryWithProvenance env id p.row.text (some p.row.provenance.sourceKind)
      (some "import: conflicting text") (some "import")
    return ()
  | .bump _ | .insert => pure ()

def Fate.isInsert : Fate → Bool
  | .insert => true
  | .bump _ | .conflict _ => false

def Fate.isBump : Fate → Bool
  | .bump _ => true
  | .insert | .conflict _ => false

def Fate.isConflict : Fate → Bool
  | .conflict _ => true
  | .bump _ | .insert => false

/-- The texts of the fresh rows, in order. -/
def freshTexts {F : Type} (batch : List (Nat × ExportRow F)) (fates : List Fate) : List String :=
  ((batch.zip fates).filter fun p => p.2.isInsert).map fun p => p.1.2.text

/-- Phase 2: one call for all the fresh rows, if there is anything to embed. -/
def embedFresh (emb : Embedder F) (effectiveDim : Nat) (inputs : List String) :
    Write F (List (List F)) :=
  if 0 < effectiveDim ∧ inputs ≠ [] then emb.call inputs else pure []

/-- Classify, embed, and apply one batch: `(inserted, deduped, updated)`. -/
def processBatch (env : Env F) (emb : Embedder F) (agent : String) (dim : Nat)
    (batch : List (Nat × ExportRow F)) (dryRun : Bool) : Write F (Nat × Nat × Nat) := do
  let fates ← query env fun db => classifyAll db agent batch
  let inserted := fates.countP Fate.isInsert
  let deduped := fates.countP Fate.isBump
  if dryRun then return (inserted, deduped, 0)
  else do
    let effectiveDim := if 0 < emb.dim then dim else 0
    let vectors ← embedFresh emb effectiveDim (freshTexts batch fates)
    let planned := planRows batch fates (embedPlan effectiveDim fates vectors)
    let now ← nowMillis env
    forEach planned (writeRow env emb agent effectiveDim now)
    forEach planned (versionConflict env)
    return (inserted, deduped, fates.countP Fate.isConflict)

def ImportStats.add (s : ImportStats) (done : Nat × Nat × Nat) : ImportStats :=
  { s with
    inserted := s.inserted + done.1, deduped := s.deduped + done.2.1
    updated := s.updated + done.2.2 }

/-- A line of the file: blank, not JSON, or a row. -/
abbrev ImportLine (F : Type) := Option (Except String (ExportRow F))

/-- Validate and batch the lines, whose numbers start at `lineNo`. -/
def importLines (env : Env F) (emb : Embedder F) (agent : String) (dim : Nat) (targetSchema : Int)
    (dryRun : Bool) : List (ImportLine F) → Nat → List (Nat × ExportRow F) → ImportStats →
    Write F ImportStats
  | [], _, batch, stats =>
    if batch.isEmpty then pure stats
    else do
      let done ← processBatch env emb agent dim batch dryRun
      return stats.add done
  | none :: lines, lineNo, batch, stats =>
    importLines env emb agent dim targetSchema dryRun lines (lineNo + 1) batch stats
  | some (.error msg) :: _, lineNo, _, _ => fail (atLine lineNo ("invalid JSON: " ++ msg))
  | some (.ok row) :: lines, lineNo, batch, stats => do
    lift (validateRow env lineNo row targetSchema)
    let stats := { stats with rows := stats.rows + 1 }
    let batch := batch ++ [(lineNo, row)]
    if batch.length = BATCH then do
      let done ← processBatch env emb agent dim batch dryRun
      importLines env emb agent dim targetSchema dryRun lines (lineNo + 1) [] (stats.add done)
    else importLines env emb agent dim targetSchema dryRun lines (lineNo + 1) batch stats

/-- An export file, read line by line. -/
structure ImportFile (F : Type) where
  name : String
  header : Option (Except String Header)
  lines : List (ImportLine F)

def checkHeader (name : String) : Option (Except String Header) → Except Error Unit
  | none => .error (.invalidInput (name ++ ": empty file (missing header)"))
  | some (.error msg) =>
    .error (.invalidInput (name ++ ": not an agos-memory export (bad header: " ++ msg ++ ")"))
  | some (.ok h) =>
    if h.format ≠ FORMAT ∨ h.formatVersion ≠ FORMAT_VERSION then
      .error (.invalidInput (name ++ ": unsupported export format `" ++ h.format ++ "` version " ++
        toString h.formatVersion ++ " (expected " ++ FORMAT ++ " version " ++
        toString FORMAT_VERSION ++ ")"))
    else .ok ()

/-- Replay an export file into this store, with the embedder for the dimension that is read. -/
def importFile (env : Env F) (emb : Embedder F) (targetSchema : Int) (file : ImportFile F)
    (dryRun : Bool) : Write F ImportStats := do
  lift (checkHeader file.name file.header)
  let c ← get
  let dim ← embedDim env
  importLines env emb c.agentId dim targetSchema dryRun file.lines 2 [] ⟨0, 0, 0, 0, dryRun⟩

end AgosMemory.Export
