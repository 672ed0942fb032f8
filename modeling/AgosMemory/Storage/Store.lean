import AgosMemory.Library.Program
import AgosMemory.Storage.Diff
import AgosMemory.Text

/-!
# Store

Every writer closure is a program over one connection. Its statements run in autocommit mode, so a
statement that fails leaves the earlier ones in place. Each statement may also fail for a reason
of its own (`Env.fault`), which stands for the errors SQLite returns outside the schema's rules.
-/

namespace AgosMemory

open Library Library.Program

/-- What the process calls: the digest, the vector distance of `sqlite-vec`, the random ids, the
clock and the faults of the storage layer, each by the number of the call. -/
structure Env (F : Type) where
  sha256Hex : String → String
  distance : List F → List F → F
  uuid : Nat → String
  clock : Nat → Int
  fault : Nat → Bool

/-- An open store: its agent, the database, the calls made so far and the texts sent to embedders. -/
structure Conn (F : Type) where
  agentId : String
  db : Db F
  stmts : Nat := 0
  ticks : Nat := 0
  uuids : Nat := 0
  sent : List (List String) := []

abbrev Write (F α : Type) := Program Error (Conn F) α

namespace Store

variable {F : Type} [F64 F]

/-! ## Statements -/

/-- Run one statement on the database. -/
def exec {α : Type} (env : Env F) (f : Db F → Except Error (α × Db F)) : Write F α := fun c =>
  let c' := { c with stmts := c.stmts + 1 }
  if env.fault c.stmts then (.error (.storage "disk I/O error"), c')
  else
    match f c.db with
    | .ok (a, db) => (.ok a, { c' with db })
    | .error e => (.error e, c')

def query {α : Type} (env : Env F) (f : Db F → Except Error α) : Write F α :=
  exec env fun db => (f db).map fun a => (a, db)

def run (env : Env F) (f : Db F → Db F) : Write F Unit := exec env fun db => .ok ((), f db)

/-- The dimension in `meta`, or 1536 where it cannot be read. -/
def dimRead (env : Env F) (c : Conn F) : Nat := if env.fault c.stmts then 1536 else c.db.embedDim

/-- `embed_dim`: a statement that fails is no error. -/
def embedDim (env : Env F) : Write F Nat := fun c =>
  (.ok (dimRead env c), { c with stmts := c.stmts + 1 })

/-- `query_row` without a result. -/
def noRows : Error := .storage "Query returned no rows"

def one {α : Type} : Option α → Except Error α
  | some a => .ok a
  | none => .error noRows

def nowMillis (env : Env F) : Write F Int := fun c =>
  (.ok (env.clock c.ticks), { c with ticks := c.ticks + 1 })

def newUuid (env : Env F) : Write F String := fun c =>
  (.ok (env.uuid c.uuids), { c with uuids := c.uuids + 1 })

/-! ## Provenance -/

/-- Derive trust from provenance. Unknown values are treated as untrusted. -/
def trustForSourceKind (sourceKind : String) : Trust :=
  if sourceKind = "user" ∨ sourceKind = "agent" then .trusted else .untrusted

/-- Merge provenance into an existing trust value. -/
def trustAfterSource (current : Trust) (sourceKind : String) : Trust :=
  if current = .untrusted ∨ trustForSourceKind sourceKind = .untrusted then .untrusted
  else if current = .system then .system
  else .trusted

/-- The source kind kept by a merge: an untrusted row keeps its own. -/
def sourceKindAfter (m : Memory F) (sourceKind : String) : String :=
  if m.trust = .untrusted then m.sourceKind.sql else sourceKind

/-! ## Inserts -/

/-- The columns of an `INSERT INTO memories`, before the `CHECK` constraints. -/
structure NewRow (F : Type) where
  publicId : String
  agentId : String
  tier : String
  kind : String
  text : String
  textHash : String
  summaryText : Option String := none
  summaryTokens : Option Int := none
  confidence : F
  status : String
  trust : Trust
  pinned : Int := 0
  expiresAt : Option Int := none
  sourceKind : String
  sourceRef : Option String := none
  extractorVersion : Option String := none
  embedModel : Option String := none
  embedDim : Option Int := none
  embedStatus : EmbedStatus := .pending
  createdAt : Int
  updatedAt : Int

def check {α : Type} (column : String) : Option α → Except Error α
  | some a => .ok a
  | none => .error (.storage ("CHECK constraint failed: " ++ column))

/-- The row an `INSERT` adds, when every value passes its `CHECK`. -/
def NewRow.build (r : NewRow F) (id : Int) : Except Error (Memory F) := do
  let tier ← check "tier" (Tier.ofSql? r.tier)
  let kind ← check "kind" (Kind.ofSql? r.kind)
  let status ← check "status" (Status.ofSql? r.status)
  let sourceKind ← check "source_kind" (SourceKind.ofSql? r.sourceKind)
  let confidence ← check "confidence"
    (if F64.le (F64.ofRat 0) r.confidence && F64.le r.confidence (F64.ofRat 1)
      then some r.confidence else none)
  return {
    id, publicId := r.publicId, agentId := r.agentId, tier, kind, text := r.text
    textHash := r.textHash, summaryText := r.summaryText, summaryTokens := r.summaryTokens
    importanceCurrent := F64.ofRat (1 / 2), confidence, status, trust := r.trust
    pinned := r.pinned, expiresAt := r.expiresAt, sourceKind, sourceRef := r.sourceRef
    extractorVersion := r.extractorVersion, embedModel := r.embedModel, embedDim := r.embedDim
    embedStatus := r.embedStatus, createdAt := r.createdAt, updatedAt := r.updatedAt }

/-- `INSERT INTO memories ...`; returns the row with its `last_insert_rowid()`. -/
def insertMemoryRow (r : NewRow F) (db : Db F) : Except Error (Memory F × Db F) := do
  let m ← r.build (db.memorySeq + 1)
  if db.memories.any fun m' => m'.publicId = m.publicId then
    throw (.storage "UNIQUE constraint failed: memories.public_id")
  return (m, { db with
    memories := db.memories ++ [m], memorySeq := m.id
    merged := db.merged ++ [(m.id, m.sourceKind.sql)] })

/-- `INSERT INTO memory_versions ...` -/
def insertVersion (v : MemoryVersion) (db : Db F) : Except Error (Unit × Db F) :=
  if (db.memory? v.memoryId).isNone then .error (.storage "FOREIGN KEY constraint failed")
  else if db.versions.any fun v' => v'.memoryId = v.memoryId ∧ v'.version = v.version then
    .error (.storage "UNIQUE constraint failed: memory_versions.memory_id, memory_versions.version")
  else .ok ((), { db with versions := db.versions ++ [v] })

/-- `INSERT INTO vec_memories ...`; `vec0` checks the dimension and the rowid. -/
def insertVec (v : VecRow F) (db : Db F) : Except Error (Unit × Db F) :=
  if v.embedding.length ≠ db.embedDim then
    .error (.storage "Dimension mismatch for inserted vector for the embedding column")
  else if db.vecs.any fun v' => v'.rowid = v.rowid then
    .error (.storage "UNIQUE constraint failed on vec_memories primary key")
  else .ok ((), { db with vecs := db.vecs ++ [v], vecLog := db.vecLog ++ [.insert v] })

/-- `INSERT OR IGNORE INTO memory_links (id, id, 'refines')`. -/
def linkRefines (id now : Int) (db : Db F) : Except Error (Unit × Db F) :=
  if (db.memory? id).isNone then .error (.storage "FOREIGN KEY constraint failed")
  else if db.links.any fun l => l.fromMemoryId = id ∧ l.toMemoryId = id ∧ l.kind = "refines" then
    .ok ((), db)
  else .ok ((), { db with links := db.links ++ [⟨id, id, "refines", now⟩] })

/-! ## Updates -/

/-- `UPDATE memories SET ..., trust, source_kind WHERE id`, where `g` gives the other columns and
`incoming` is the source kind being merged. The `CHECK` only runs when a row is updated. -/
def setProvenance (id : Int) (trust : Trust) (sourceKind : String) (incoming : Option String)
    (g : Memory F → Memory F) (db : Db F) : Except Error (Unit × Db F) :=
  if (db.memory? id).isNone then .ok ((), db)
  else
    match SourceKind.ofSql? sourceKind with
    | none => .error (.storage "CHECK constraint failed: source_kind")
    | some sk => .ok ((), { db.updateMemory id fun m => { g m with trust, sourceKind := sk } with
        merged := db.merged ++ (incoming.map fun k => (id, k)).toList })

/-- `UPDATE memories SET text, text_hash, trust, source_kind, updated_at WHERE id` -/
def retext (id : Int) (text textHash : String) (trust : Trust) (sourceKind : String)
    (incoming : Option String) (now : Int) (db : Db F) : Except Error (Unit × Db F) := do
  let ((), db') ← setProvenance id trust sourceKind incoming
    (fun m => { m with text, textHash, updatedAt := now }) db
  return ((), { db' with rewrites := db'.rewrites ++ (db.memory? id).toList.map fun m => (m, text) })

/-! ## Reading rows back -/

/-- A single memory row as read back from storage. -/
structure MemoryRow where
  id : Int
  publicId : String
  tier : Tier
  kind : Kind
  text : String
  status : Status
  trust : Trust
  createdAt : Int
  updatedAt : Int
  summaryText : Option String
  summaryTokens : Int
  deriving DecidableEq, Repr

def rowOf (m : Memory F) : MemoryRow :=
  ⟨m.id, m.publicId, m.tier, m.kind, m.text, m.status, m.trust, m.createdAt, m.updatedAt,
    m.summaryText, m.summaryTokens.getD 0⟩

/-- Fetch one memory by public id. -/
def getMemory (env : Env F) (publicId : String) : Write F (Option MemoryRow) :=
  query env fun db => .ok ((db.byPublicId? publicId).map rowOf)

/-- Fetch one memory by internal id. -/
def getMemoryById (env : Env F) (id : Int) : Write F (Option MemoryRow) :=
  query env fun db => .ok ((db.memory? id).map rowOf)

def getMemoryVersion (env : Env F) (id version : Int) : Write F (Option MemoryVersion) :=
  query env fun db => .ok (db.versions.find? fun v => v.memoryId = id ∧ v.version = version)

/-! ## Writer closures -/

/-- Data for a new memory; storage assigns ids and timestamps. -/
structure NewMemory where
  tier : String
  kind : String
  text : String
  sourceKind : String
  deriving DecidableEq, Repr

/-- Maximum allowed memory text size (1 MiB). -/
def maxMemoryTextSize : Nat := 1048576

/-- Insert a memory row; returns the inserted row. -/
def insertMemory (env : Env F) (m : NewMemory) : Write F MemoryRow :=
  if maxMemoryTextSize < m.text.utf8ByteSize then
    fail (.invalidInput "memory text exceeds maximum size of 1048576 bytes")
  else if 64 < m.tier.utf8ByteSize ∨ 64 < m.kind.utf8ByteSize ∨ 64 < m.sourceKind.utf8ByteSize then
    fail (.invalidInput "tier, kind, or source_kind exceeds maximum length of 64 characters")
  else do
    let publicId ← newUuid env
    let now ← nowMillis env
    let c ← get
    let textHash := env.sha256Hex m.text
    let row ← exec env (insertMemoryRow {
      publicId, agentId := c.agentId, tier := m.tier, kind := m.kind, text := m.text, textHash
      confidence := F64.ofRat 1, status := "active", trust := trustForSourceKind m.sourceKind
      sourceKind := m.sourceKind, createdAt := now, updatedAt := now })
    exec env (insertVersion {
      memoryId := row.id, version := 1, text := m.text, textHash, createdAt := now })
    return rowOf row

/-- Attach a source reference to an existing memory. -/
def setSourceRef (env : Env F) (id : Int) (sourceRef : String) : Write F Unit :=
  if Text.trim sourceRef = "" ∨ 1024 < sourceRef.utf8ByteSize then
    fail (.invalidInput "source_ref must be 1..=1024 bytes")
  else do
    let now ← nowMillis env
    run env fun db =>
      db.updateMemory id fun m => { m with sourceRef := some sourceRef, updatedAt := now }

/-- `SELECT COALESCE(MAX(version), 0) FROM memory_versions WHERE memory_id = ?1` -/
def maxVersion (db : Db F) (id : Int) : Int :=
  ((db.versions.filter fun v => v.memoryId = id).map MemoryVersion.version).max?.getD 0

/-- Update text while optionally re-deriving trust from the update's provenance. -/
def updateMemoryWithProvenance (env : Env F) (id : Int) (newText : String)
    (sourceKind changeReason createdBy : Option String) : Write F MemoryRow := do
  let newHash := env.sha256Hex newText
  let currentVersion ← query env fun db => .ok (maxVersion db id)
  let prev ← attempt (getMemoryVersion env id currentVersion)
  let diffJson := (prev.toOption.join.map MemoryVersion.text).map fun old =>
    let diff := Diff.computeLineDiff old newText
    { oldHash := env.sha256Hex old, newHash, addedLines := diff.added, removedLines := diff.removed
      changed := !diff.added.isEmpty || !diff.removed.isEmpty : DiffJson }
  let now ← nowMillis env
  exec env (insertVersion {
    memoryId := id, version := currentVersion + 1, text := newText, textHash := newHash
    supersedesVersion := if 0 < currentVersion then some currentVersion else none
    changeReason, diffJson, createdBy, createdAt := now })
  -- trust and source kind are read and merged after the version is in place
  let current ← query env fun db => one (db.memory? id)
  let trust := (sourceKind.map (trustAfterSource current.trust)).getD current.trust
  let kept := (sourceKind.map (sourceKindAfter current)).getD current.sourceKind.sql
  exec env (retext id newText newHash trust kept sourceKind now)
  run env fun db => db.updateVec id fun v => { v with trust := trust.code }
  query env fun db => (one (db.memory? id)).map rowOf

/-- Update a memory's text and record a new version. -/
def updateMemory (env : Env F) (id : Int) (newText : String)
    (changeReason createdBy : Option String) : Write F MemoryRow :=
  updateMemoryWithProvenance env id newText none changeReason createdBy

/-- Rollback a memory to a specific version. -/
def rollbackMemory (env : Env F) (id targetVersion : Int) (createdBy : Option String) :
    Write F MemoryRow := do
  match ← getMemoryVersion env id targetVersion with
  | none => fail (.invalidInput
      ("version " ++ toString targetVersion ++ " not found for memory " ++ toString id))
  | some target =>
    updateMemory env id target.text (some ("rollback to version " ++ toString targetVersion))
      createdBy

/-- The columns of a bump apart from trust and source kind. -/
def countReference (cluster : Option String) (now : Int) (m : Memory F) : Memory F :=
  { m with
    refCount := m.refCount + 1, lastReferencedAt := some now, updatedAt := now
    dedupClusterId := m.dedupClusterId <|> cluster }

/-- `UPDATE memories SET ref_count = ref_count + 1, ..., trust, source_kind WHERE id` -/
def mergeSource (shape : BumpShape) (id : Int) (trust : Trust) (sourceKind incoming : String)
    (cluster : Option String) (now : Int) (db : Db F) : Except Error (Unit × Db F) := do
  let ((), db') ← setProvenance id trust sourceKind (some incoming) (countReference cluster now) db
  return ((), { db' with
    bumps := db'.bumps ++ (db.memory? id).toList.map fun m => (m, shape, incoming) })

/-- `COALESCE(dedup_cluster_id, id)` of a row, where the path records it. -/
def clusterOf (env : Env F) (shape : BumpShape) (id : Int) : Write F (Option String) :=
  if shape.cluster then
    query env fun db => .ok (some (((db.memory? id).bind Memory.dedupClusterId).getD (toString id)))
  else pure none

/-- Bump a row that a new source repeats: count the reference and merge trust and source kind. -/
def bump (env : Env F) (shape : BumpShape) (id : Int) (sourceKind : String) (now : Int) :
    Write F Unit := do
  let current ← query env fun db => one (db.memory? id)
  let trust := trustAfterSource current.trust sourceKind
  let cluster ← clusterOf env shape id
  exec env (mergeSource shape id trust (sourceKindAfter current sourceKind) sourceKind cluster now)
  onlyIf shape.vec (run env fun db => db.updateVec id fun v => { v with trust := trust.code })
  onlyIf shape.link (exec env (linkRefines id now))

/-- The `pins` ledger of a row: an upsert, or a delete. -/
def recordPin (env : Env F) (id now : Int) (pinned : Bool) (requester : String) : Write F Unit :=
  if pinned then
    exec env fun db =>
      if (db.memory? id).isNone then .error (.storage "FOREIGN KEY constraint failed")
      else .ok ((), { db with
        pins := (db.pins.filter fun p => p.memoryId ≠ id) ++ [⟨id, now, requester⟩] })
  else run env fun db => { db with pins := db.pins.filter fun p => p.memoryId ≠ id }

/-- Set or clear a memory pin in the canonical row, vector metadata, and `pins` ledger. -/
def setMemoryPinned (env : Env F) (id : Int) (pinned : Bool) (requester : String) :
    Write F Bool := do
  let now ← nowMillis env
  let code : Int := if pinned then 1 else 0
  let changed ← exec env fun db => .ok ((db.memory? id).isSome,
    db.updateMemory id fun m => { m with pinned := code, updatedAt := now })
  if !changed then return false
  else do
    run env fun db => db.updateVec id fun v => { v with pinned := code }
    recordPin env id now pinned requester
    return true

def selectorJson (id : Int) : String := "\x7b\"memory_id\":" ++ toString id ++ "\x7d"

def appendAudit (env : Env F) (row : ForgetAudit) : Write F Unit :=
  run env fun db => { db with forgetAudit := db.forgetAudit ++ [row] }

/-- `UPDATE memories SET status, ... WHERE id`, where `g` gives the other columns. -/
def restate (id : Int) (status : Status) (g : Memory F → Memory F) (db : Db F) : Db F :=
  { db.updateMemory id fun m => { g m with status } with
    restated := db.restated ++ (db.memory? id).toList.map fun m => (m, status) }

/-- Shared body of the soft state changes: an `UPDATE`, then an audit row if the memory exists. -/
def softChange (env : Env F) (id : Int) (action requester : String) (reason : Option String)
    (status : Status) (change : Int → Memory F → Memory F) : Write F Unit := do
  let now ← nowMillis env
  let publicId ← query env fun db => .ok ((db.memory? id).map Memory.publicId)
  run env (restate id status (change now))
  match publicId with
  | none => pure ()
  | some pid => appendAudit env ⟨action, selectorJson id, pid, requester, reason, now⟩

def deprecateWithAction (env : Env F) (id : Int) (deletedBy : Option String) (action : String)
    (reason : Option String) : Write F Unit :=
  softChange env id action (deletedBy.getD "agent") reason .deprecated fun now m =>
    { m with deletedAt := some now, updatedAt := now }

def deprecateMemory (env : Env F) (id : Int) (deletedBy : Option String) : Write F Unit :=
  deprecateWithAction env id deletedBy "deprecate" none

def deprecateForTtl (env : Env F) (id : Int) : Write F Unit :=
  deprecateWithAction env id (some "ttl-reaper") "ttl_deprecate" (some "TTL expired")

/-- Restore a soft-deprecated memory back to active. -/
def restoreMemory (env : Env F) (id : Int) (restoredBy : Option String) : Write F Unit :=
  softChange env id "restore" (restoredBy.getD "agent") none .active fun now m =>
    { m with deletedAt := none, updatedAt := now }

/-- Rows on each table that mention a memory, in the order of the purge's verification. -/
def mentions (db : Db F) (id : Int) : List (String × Nat) :=
  [("memories", (db.memories.filter fun m => m.id = id).length),
   ("memory_versions", (db.versions.filter fun v => v.memoryId = id).length),
   ("memory_links",
     (db.links.filter fun l => l.fromMemoryId = id ∨ l.toMemoryId = id).length),
   ("recall_items", (db.recallItems.filter fun r => r.memoryId = id).length),
   ("pins", (db.pins.filter fun p => p.memoryId = id).length),
   ("vec_memories", (db.vecs.filter fun v => v.rowid = id).length),
   -- the FTS index is kept equal to `memories` by its triggers
   ("fts_memories", (db.memories.filter fun m => m.id = id).length)]

/-- The delete phase, one transaction: a row that still references the memory rolls it back. -/
def deletePhase (id : Int) (db : Db F) : Except Error (Unit × Db F) :=
  if db.memories.any fun m => m.id ≠ id ∧ (m.supersedesId = some id ∨ m.supersededById = some id) then
    .error (.storage "FOREIGN KEY constraint failed")
  else .ok ((), { db with
    links := db.links.filter fun l => ¬ (l.fromMemoryId = id ∨ l.toMemoryId = id)
    versions := db.versions.filter fun v => v.memoryId ≠ id
    recallItems := db.recallItems.filter fun r => r.memoryId ≠ id
    pins := db.pins.filter fun p => p.memoryId ≠ id
    vecs := db.vecs.filter fun v => v.rowid ≠ id
    vecLog := db.vecLog ++ [.delete id]
    memories := db.memories.filter fun m => m.id ≠ id })

/-- Hard purge: delete phase, verification, `VACUUM`, checkpoint, then tombstone and audit row. -/
def hardPurgeWithAction (env : Env F) (id : Int) (deletedBy reason : Option String)
    (action : String) : Write F Unit := do
  let now ← nowMillis env
  let c ← get
  let m ← query env fun db => one (db.memory? id)
  let before ← query env fun db => .ok (((mentions db id).dropLast.tail.map Prod.snd).sum)
  exec env (deletePhase id)
  query env fun db =>
    match (mentions db id).find? fun entry => entry.2 ≠ 0 with
    | some (table, n) => .error (.storage
        ("purge verification failed: " ++ toString n ++ " row(s) survived on " ++ table))
    | none => .ok ()
  run env id_
  run env id_
  run env fun db => { db with
    tombstones := db.tombstones ++ [⟨m.publicId, c.agentId, some id, m.textHash, now, deletedBy,
      reason, 1 + before, 0⟩] }
  appendAudit env ⟨action, selectorJson id, m.publicId, deletedBy.getD "agent", reason, now⟩
where
  /-- `VACUUM` and the WAL checkpoint change no row. -/
  id_ (db : Db F) : Db F := db

def hardPurgeMemory (env : Env F) (id : Int) (deletedBy reason : Option String) : Write F Unit :=
  hardPurgeWithAction env id deletedBy reason "hard_delete"

def hardPurgeForTtl (env : Env F) (id : Int) : Write F Unit :=
  hardPurgeWithAction env id (some "ttl-reaper") (some "TTL grace period expired") "ttl_purge"

/-- Update `dedup_cluster_id` for a memory. -/
def setDedupCluster (env : Env F) (id : Int) (clusterId : String) : Write F Unit := do
  let now ← nowMillis env
  run env fun db =>
    db.updateMemory id fun m => { m with dedupClusterId := some clusterId, updatedAt := now }

/-- Bump `ref_count` and `last_referenced_at` for a memory (dedup consolidation). -/
def bumpRefCount (env : Env F) (id : Int) : Write F Unit := do
  let now ← nowMillis env
  run env fun db => db.updateMemory id fun m =>
    { m with refCount := m.refCount + 1, lastReferencedAt := some now }

/-- The write of a summarization: `summary` is what the model returned for the memory's text. -/
def setSummary (env : Env F) (id : Int) (summary : String) (tokens : Int) : Write F Unit := do
  let now ← nowMillis env
  run env fun db => db.updateMemory id fun m =>
    { m with summaryText := some summary, summaryTokens := some tokens, updatedAt := now }

end Store

end AgosMemory
