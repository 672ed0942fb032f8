import AgosMemory.Library.Ddl
import AgosMemory.Library.Exclusive
import AgosMemory.Storage.Diff
import AgosMemory.Text

/-!
# Opening the database

`StoreHandle::open` takes the process lock, brings the schema up to date, pins the embedding dimension and
seeds the agent row. Each statement outside a transaction and each transaction is one step, and so is each
call on the lock file, so that openers of one file may interleave, fail or be killed in between. The jobs of
an open store change nothing that is modelled here.
-/

namespace AgosMemory.Opening

open Library Client Exclusive
open Library.Ddl (Catalog Failure runScript)

inductive Error where
  | storage (msg : String)
  | schemaTooNew (db supported : Int)
  | dbLocked (path : String) (pid : UInt32)
  /-- Not an error of the code: the rounds that a loop was given are used up. -/
  | endless
  deriving DecidableEq, Repr

/-- The parts of the database file that opening reads or writes. -/
structure Db where
  userVersion : Int := 0
  catalog : Catalog String := []
  /-- The dimension of the `vec_memories` table, if there is one. -/
  vecDim : Option Nat := none
  /-- The row `embed_dim` of `meta`, as an integer. -/
  embedDim : Option Int := none
  agents : List (String × Int) := []
  wal : Bool := false
  deriving DecidableEq

/-- One database and its lock file, whatever paths its openers write for it. -/
structure World where
  db : Db
  sidecar : Option (List Char)
  deriving DecidableEq

/-- One call of `open`: the configuration, the process, its clock in milliseconds and as nanoseconds, and
how many of the writes of the pid line succeed; their errors are ignored. -/
structure Opener where
  path : String
  agentId : String
  pid : UInt32
  now : Int := 0
  nanos : UInt64 := 0
  written : Nat := 3
  deriving DecidableEq

/-! ## Schema and migrations -/

section

open Library.Ddl.Statement

def SCHEMA_VERSION : Int := 5

/-- The names and columns; types, defaults and constraints are left out. -/
def MIGRATIONS : List (List (Ddl.Statement String)) := [
  [createTable "agents" ["id", "created_at"],
    createTable "meta" ["key", "value"],
    createTable "sessions" ["id", "public_id", "agent_id", "started_at", "ended_at", "end_reason",
      "status", "summary_memory_id"],
    createIndex "idx_sessions_agent" "sessions" ["agent_id", "started_at"],
    createTable "turns" ["id", "session_id", "seq", "role", "content", "content_hash", "created_at",
      "tokens"]],
  [createTable "memories" ["id", "public_id", "agent_id", "tier", "kind", "text", "text_hash",
      "summary_text", "summary_tokens", "importance_current", "confidence", "status", "trust", "pinned",
      "ref_count", "last_referenced_at", "expires_at", "deleted_at", "supersedes_id",
      "superseded_by_id", "source_kind", "source_ref", "session_id", "turn_id", "extractor_version",
      "extractor_model", "embed_model", "embed_dim", "embed_status", "dedup_cluster_id", "created_at",
      "updated_at"],
    createIndex "idx_memories_agent" "memories" ["agent_id", "tier", "status"],
    createIndex "idx_memories_text_hash" "memories" ["text_hash"],
    createIndex "idx_memories_expires" "memories" ["expires_at"],
    createTable "memory_versions" ["id", "memory_id", "version", "text", "text_hash", "source_turn_id",
      "supersedes_version", "change_reason", "diff_json", "created_by", "created_at"],
    createTable "memory_links" ["id", "from_memory_id", "to_memory_id", "kind", "created_at"],
    createTable "embeddings_cache" ["content_hash", "embed_model", "dim", "vector", "created_at",
      "last_used_at", "use_count"]],
  [createTable "jobs" ["id", "kind", "payload_json", "status", "attempts", "max_attempts", "run_after",
      "locked_at", "lock_owner", "last_error", "idempotency_key", "created_at", "updated_at"],
    createTable "jobs_dead" ["id", "job_id", "kind", "payload_json", "error", "attempts", "failed_at",
      "reprocessed_at"],
    createTable "llm_calls" ["id", "purpose", "model", "prompt_tokens", "completion_tokens",
      "total_tokens", "latency_ms", "ok", "cost_usd_est", "created_at"],
    createIndex "idx_llm_calls_time" "llm_calls" ["created_at"],
    createTable "token_ledger" ["id", "session_id", "budget", "tokens_used", "tier_split_json",
      "items_injected", "items_dropped", "created_at"],
    createTable "recalls" ["id", "query_hash", "query_text", "k", "budget", "candidates", "injected",
      "dropped", "top_score", "no_hit", "latency_ms", "session_id", "created_at"],
    createTable "recall_items" ["id", "recall_id", "memory_id", "rank", "score", "components_json",
      "injected"],
    createTable "pins" ["id", "memory_id", "pinned_at", "by", "note"],
    createTable "forget_audit" ["id", "action", "selector_json", "memory_ids", "requester", "reason",
      "cascade_json", "verification", "secure_erase", "created_at"],
    createTable "tombstones" ["id", "public_id", "agent_id", "memory_id", "text_hash", "deleted_at",
      "deleted_by", "reason", "rowcount_before", "rowcount_after", "vacuum_duration_ms"]],
  [createTrigger "tombstones_no_update" "tombstones",
    createTrigger "tombstones_no_delete" "tombstones",
    createTrigger "forget_audit_no_update" "forget_audit",
    createTrigger "forget_audit_no_delete" "forget_audit"],
  [addColumn "llm_calls" "session_id",
    createIndex "idx_llm_calls_session" "llm_calls" ["session_id", "created_at"]]]

/-- The columns of the virtual table are left out. -/
def FTS_DDL : List (Ddl.Statement String) := [
  createTable "fts_memories" [],
  createTrigger "memories_ai" "memories",
  createTrigger "memories_ad" "memories",
  createTrigger "memories_au" "memories"]

end

/-- The message of SQLite. -/
def failureText : Failure String → String
  | .noSuchTable table => "no such table: " ++ table
  | .noSuchColumn table => "table " ++ table ++ " has no column of that name"
  | .duplicateColumn column => "duplicate column name: " ++ column

/-- The settings of the connection are left out; the journal mode is one of the file. -/
def applyPragmas : Program Error Db Unit := fun db => (.ok (), { db with wal := true })

def userVersion : Program Error Db Int := fun db => (.ok db.userVersion, db)

def checkSchemaSupported : Program Error Db Unit := fun db =>
  if SCHEMA_VERSION < db.userVersion then (.error (.schemaTooNew db.userVersion SCHEMA_VERSION), db)
  else (.ok (), db)

def execute (s : Ddl.Statement String) : Program Error Db Unit := fun db =>
  match s.run db.catalog with
  | .ok catalog => (.ok (), { db with catalog })
  | .error e => (.error (.storage (failureText e)), db)

/-- The transaction of one migration, from its `BEGIN` to its `COMMIT`. -/
def applyMigration (v : Int) (sql : List (Ddl.Statement String)) : Program Error Db Unit := fun db =>
  match runScript sql db.catalog with
  | .ok catalog => (.ok (), { db with catalog, userVersion := v + 1 })
  | .error e => (.error (.storage (failureText e)), db)

/-- The loop of `migrate`, up to a number of rounds. A negative version is no index. -/
def migrateLoop : Nat → Client Error Db Unit
  | 0 => fail .endless
  | rounds + 1 => do
    let v ← call userVersion
    if SCHEMA_VERSION ≤ v then pure ()
    else
      match if 0 ≤ v then MIGRATIONS[v.toNat]? else none with
      | none => fail (.storage ("no migration for schema version " ++ toString v ++ " -> " ++
          toString (v + 1)))
      | some sql => do
        call (applyMigration v sql)
        migrateLoop rounds

def migrate : Client Error Db Unit := do
  call checkSchemaSupported
  migrateLoop (MIGRATIONS.length + 1)
  forEach FTS_DDL fun s => call (execute s)

/-- `vec_ddl`: the table is created unless it is there. -/
def createVecTable (dim : Nat) : Program Error Db Unit := fun db =>
  if db.vecDim.isSome then (.ok (), db)
  else if dim = 0 ∨ 2 ^ 31 ≤ dim then
    (.error (.storage ("vec0 constructor error: could not parse vector column 'embedding float[" ++
      toString dim ++ "] distance_metric=cosine'")), db)
  else if 8192 < dim then
    (.error (.storage ("vec0 constructor error: Dimension on vector column too large, provided " ++
      toString dim ++ ", maximum 8192")), db)
  else (.ok (), { db with vecDim := some dim })

/-- `INSERT INTO meta ... ON CONFLICT(key) DO UPDATE` -/
def recordEmbedDim (dim : Nat) : Program Error Db Unit := fun db =>
  if db.catalog.contains (.table "meta") then (.ok (), { db with embedDim := some dim })
  else (.error (.storage "no such table: meta"), db)

def ensureVecTable (dim : Nat) : Client Error Db Unit := do
  call (createVecTable dim)
  call (recordEmbedDim dim)

/-! ## The process lock -/

/-- `open_lock_file`: created if needed, and not truncated. -/
def openLockFile : Program Error World Unit := fun w =>
  (.ok (), { w with sidecar := some (w.sidecar.getD []) })

/-- `set_len(0)` on the open file -/
def truncate : Program Error World Unit := fun w => (.ok (), { w with sidecar := some [] })

def writePiece (piece : List Char) : Program Error World Unit := fun w =>
  (.ok (), { w with sidecar := some (w.sidecar.getD [] ++ piece) })

/-- `writeln!(file, "pid {pid}")`, write by write. -/
def Opener.pidLine (o : Opener) : List (List Char) :=
  ["pid ".toList, Nat.toDigits 10 o.pid.toNat, ['\n']]

/-- `str::parse::<u32>` -/
def parseU32 (s : String) : Option UInt32 :=
  let digits := if s.toList.head? = some '+' then s.toList.tail else s.toList
  if digits.isEmpty || !digits.all Char.isDigit then none
  else if 2 ^ 32 ≤ Nat.ofDigitChars 10 digits 0 then none
  else some (UInt32.ofNat (Nat.ofDigitChars 10 digits 0))

/-- What a line says after `pid `. -/
def pidOfLine (line : String) : Option UInt32 :=
  if "pid ".toList.isPrefixOf line.toList then
    parseU32 (Text.trim (String.ofList (line.toList.drop 4)))
  else none

/-- `read_holder_pid`, of the file or of none. -/
def holderPid (sidecar : Option (List Char)) : UInt32 :=
  (sidecar.bind fun text => (Diff.lines (String.ofList text)).findSome? pidOfLine).getD 0

example : holderPid (some "pid 999999999\n".toList) = 999999999 := by decide +kernel

/-- The file is taken by one `read`. The one that finds its end, which would go on in the new text if
the file were written anew in between, is left out. -/
def readHolderPid : Program Error World UInt32 := fun w => (.ok (holderPid w.sidecar), w)

/-- `ProcessLock::acquire_flock`, for opener number `k`. -/
def acquireFlock (k : Nat) (o : Opener) : Client Error (Locked Opener World) Unit := do
  call (shared openLockFile)
  let locked ← call (tryLock k o)
  if locked then do
    call (shared truncate)
    forEach (o.pidLine.take o.written) fun piece => call (shared (writePiece piece))
  else do
    let pid ← call (shared readHolderPid)
    fail (.dbLocked o.path pid)

/-- `create_new`, which is the lock where there is no `flock`: the file is never removed. -/
def createLockFile (k : Nat) (o : Opener) : Program Error (Locked Opener World) Bool := fun l =>
  match l.shared.sidecar with
  | some _ => (.ok false, l)
  | none => tryLock k o { l with shared := { l.shared with sidecar := some [] } }

/-- The token of the other platforms, `{:x}` of the clock and the pid. -/
def Opener.token (o : Opener) : List Char := Nat.toDigits 16 (o.nanos ^^^ o.pid.toUInt64).toNat

/-- `ProcessLock::acquire_o_excl` -/
def acquireOExcl (k : Nat) (o : Opener) : Client Error (Locked Opener World) Unit := do
  let created ← call (createLockFile k o)
  if created then call (shared (writePiece (o.token ++ ['\n'])))
  else do
    let pid ← call (shared readHolderPid)
    fail (.dbLocked o.path pid)

/-! ## Opening -/

/-- The dimension pinned in `meta`, 1536 by default, as a `u32`. A missing row counts as 0. -/
def readDim : Program Error Db Nat := fun db =>
  let dim := db.embedDim.getD 0
  (.ok (if dim = 0 then 1536 else (dim % 2 ^ 32).toNat), db)

/-- `INSERT INTO agents ... ON CONFLICT(id) DO NOTHING` -/
def seedAgent (o : Opener) : Program Error Db Unit := fun db =>
  if !db.catalog.contains (.table "agents") then (.error (.storage "no such table: agents"), db)
  else if db.agents.any (fun a => a.1 = o.agentId) then (.ok (), db)
  else (.ok (), { db with agents := db.agents ++ [(o.agentId, o.now)] })

/-- What `open` does with the connection. -/
def prepare (o : Opener) : Client Error Db Unit := do
  call applyPragmas
  migrate
  let dim ← call readDim
  ensureVecTable dim
  call (seedAgent o)

/-- A client of the database as one of the locked files. -/
def onDb {α : Type} (c : Client Error Db α) : Client Error (Locked Opener World) α :=
  c.zoom (fun l => l.shared.db) fun l db => { l with shared := { l.shared with db } }

/-- `StoreHandle::open` -/
def openStore (k : Nat) (o : Opener) : Client Error (Locked Opener World) Unit := do
  acquireFlock k o
  onDb (prepare o)

/-- `StoreHandle::open` with the lock of other platforms. -/
def openStoreOExcl (k : Nat) (o : Opener) : Client Error (Locked Opener World) Unit := do
  acquireOExcl k o
  onDb (prepare o)

end AgosMemory.Opening
