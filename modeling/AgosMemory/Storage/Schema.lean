import AgosMemory.Num

/-!
# Schema

Rows of the tables, with the `CHECK` vocabularies as enumerations. A text that arrives from a caller
is a string until the `INSERT` that stores it; `ofSql?` is the `CHECK` that statement performs.
-/

namespace AgosMemory

/-- Recoverable failures, with the message of each. -/
inductive Error where
  | config (msg : String)
  | storage (msg : String)
  | embedder (msg : String)
  | embeddingMismatch (model : String) (dim : Nat) (found : String) (foundDim : Nat)
  | invalidInput (msg : String)
  | memoryNotFound (id : String)
  | llm (msg : String)
  deriving DecidableEq, Repr

/-! ## Vocabularies -/

inductive Tier where
  | working | episodic | semantic | procedural
  deriving DecidableEq, Repr

inductive Kind where
  | fact | decision | preference | promise | correction | lesson | summary | note
  deriving DecidableEq, Repr

inductive Status where
  | active | pending | deprecated | deleted
  deriving DecidableEq, Repr

inductive Trust where
  | trusted | untrusted | system
  deriving DecidableEq, Repr

inductive SourceKind where
  | user | agent | tool | file | web | imported
  deriving DecidableEq, Repr

inductive EmbedStatus where
  | pending | ok | skipped | failed
  deriving DecidableEq, Repr

namespace Tier

def sql : Tier → String
  | working => "working" | episodic => "episodic" | semantic => "semantic"
  | procedural => "procedural"

def all : List Tier := [working, episodic, semantic, procedural]

def ofSql? (s : String) : Option Tier := all.find? fun t => t.sql = s

theorem sql_of_ofSql? {s : String} {t : Tier} (h : ofSql? s = some t) : t.sql = s := by
  have hsql := List.find?_some h
  exact of_decide_eq_true hsql

end Tier

namespace Kind

def sql : Kind → String
  | fact => "fact" | decision => "decision" | preference => "preference" | promise => "promise"
  | correction => "correction" | lesson => "lesson" | summary => "summary" | note => "note"

def all : List Kind := [fact, decision, preference, promise, correction, lesson, summary, note]

def ofSql? (s : String) : Option Kind := all.find? fun t => t.sql = s

theorem sql_of_ofSql? {s : String} {t : Kind} (h : ofSql? s = some t) : t.sql = s := by
  have hsql := List.find?_some h
  exact of_decide_eq_true hsql

end Kind

namespace Status

def sql : Status → String
  | active => "active" | pending => "pending" | deprecated => "deprecated" | deleted => "deleted"

def all : List Status := [active, pending, deprecated, deleted]

def ofSql? (s : String) : Option Status := all.find? fun t => t.sql = s

theorem sql_of_ofSql? {s : String} {t : Status} (h : ofSql? s = some t) : t.sql = s := by
  have hsql := List.find?_some h
  exact of_decide_eq_true hsql

/-- Integer code of the `vec_memories` metadata column. -/
def code : Status → Int
  | active => 0 | pending => 1 | deprecated => 2 | deleted => 3

/-- `status IN ('active','pending')` -/
def live : Status → Bool
  | active | pending => true
  | deprecated | deleted => false

end Status

namespace Trust

def sql : Trust → String
  | trusted => "trusted" | untrusted => "untrusted" | system => "system"

/-- Integer code of the `vec_memories` metadata column. -/
def code : Trust → Int
  | trusted => 0 | untrusted => 1 | system => 2

end Trust

namespace SourceKind

def sql : SourceKind → String
  | user => "user" | agent => "agent" | tool => "tool" | file => "file" | web => "web"
  | imported => "import"

def all : List SourceKind := [user, agent, tool, file, web, imported]

def ofSql? (s : String) : Option SourceKind := all.find? fun t => t.sql = s

theorem sql_of_ofSql? {s : String} {t : SourceKind} (h : ofSql? s = some t) : t.sql = s := by
  have hsql := List.find?_some h
  exact of_decide_eq_true hsql

end SourceKind

/-! ## Rows -/

/-- A `memories` row. -/
structure Memory (F : Type) where
  id : Int
  publicId : String
  agentId : String
  tier : Tier
  kind : Kind
  text : String
  textHash : String
  summaryText : Option String := none
  summaryTokens : Option Int := none
  importanceCurrent : F
  confidence : F
  status : Status
  trust : Trust
  pinned : Int := 0
  refCount : Int := 0
  lastReferencedAt : Option Int := none
  expiresAt : Option Int := none
  deletedAt : Option Int := none
  supersedesId : Option Int := none
  supersededById : Option Int := none
  sourceKind : SourceKind
  sourceRef : Option String := none
  extractorVersion : Option String := none
  embedModel : Option String := none
  embedDim : Option Int := none
  embedStatus : EmbedStatus := .pending
  dedupClusterId : Option String := none
  createdAt : Int
  updatedAt : Int

/-- What `compute_line_diff` found, as recorded in `diff_json`. -/
structure DiffJson where
  oldHash : String
  newHash : String
  addedLines : List String
  removedLines : List String
  changed : Bool
  deriving DecidableEq, Repr

/-- A `memory_versions` row. -/
structure MemoryVersion where
  memoryId : Int
  version : Int
  text : String
  textHash : String
  supersedesVersion : Option Int := none
  changeReason : Option String := none
  diffJson : Option DiffJson := none
  createdBy : Option String := none
  createdAt : Int

/-- A `memory_links` row; the write paths only record `refines`. -/
structure MemoryLink where
  fromMemoryId : Int
  toMemoryId : Int
  kind : String
  createdAt : Int

/-- A `vec_memories` row: the embedding and the metadata columns beside it. -/
structure VecRow (F : Type) where
  rowid : Int
  embedding : List F
  tier : Tier
  status : Int
  trust : Int
  kind : Kind
  pinned : Int

/-- A statement on `vec_memories` that the table accepts. -/
inductive VecStatement (F : Type) where
  | insert (v : VecRow F)
  | update (rowid : Int) (f : VecRow F → VecRow F)
  | delete (rowid : Int)

structure Pin where
  memoryId : Int
  pinnedAt : Int
  by_ : String
  deriving DecidableEq, Repr

structure RecallItemRow where
  recallId : Int
  memoryId : Int
  deriving DecidableEq, Repr

structure Tombstone where
  publicId : String
  agentId : String
  memoryId : Option Int
  textHash : String
  deletedAt : Int
  deletedBy : Option String
  reason : Option String
  rowcountBefore : Int
  rowcountAfter : Int
  deriving DecidableEq, Repr

structure ForgetAudit where
  action : String
  selectorJson : String
  memoryIds : String
  requester : String
  reason : Option String
  createdAt : Int
  deriving DecidableEq, Repr

structure Session where
  id : Int
  publicId : String
  agentId : String
  startedAt : Int
  endedAt : Option Int := none
  endReason : Option String := none
  isOpen : Bool := true
  deriving DecidableEq, Repr

structure Turn where
  sessionId : Int
  seq : Int
  role : String
  content : String
  contentHash : String
  createdAt : Int
  deriving DecidableEq, Repr

/-- One entry of the Markdown ingest manifest, which `meta` stores under its own key. -/
structure ManifestEntry where
  hash : String
  publicId : String
  deriving DecidableEq, Repr

/-- The three places where a duplicate bumps an existing row differ in what else they touch. -/
structure BumpShape where
  cluster : Bool
  vec : Bool
  link : Bool
  deriving DecidableEq, Repr

/-- The database file. `memories` lists its rows in id order, since ids come from `AUTOINCREMENT`.
`vecLog` has the statements that made `vecs`, in order: the chunks of `vec_memories` are what they leave.
The last four fields are history variables, which no statement reads: the source kinds merged into
each row, and the rows whose text was replaced, that were bumped, or whose status was set, as they
were before, with what was written. -/
structure Db (F : Type) where
  embedDim : Nat := 1536
  memories : List (Memory F) := []
  memorySeq : Int := 0
  versions : List MemoryVersion := []
  links : List MemoryLink := []
  vecs : List (VecRow F) := []
  vecLog : List (VecStatement F) := []
  pins : List Pin := []
  recallItems : List RecallItemRow := []
  tombstones : List Tombstone := []
  forgetAudit : List ForgetAudit := []
  sessions : List Session := []
  sessionSeq : Int := 0
  turns : List Turn := []
  manifest : List (String × ManifestEntry) := []
  merged : List (Int × String) := []
  rewrites : List (Memory F × String) := []
  bumps : List (Memory F × BumpShape × String) := []
  restated : List (Memory F × Status) := []

namespace Db

variable {F : Type}

/-- `... FROM memories WHERE id = ?1` -/
def memory? (db : Db F) (id : Int) : Option (Memory F) := db.memories.find? fun m => m.id = id

/-- `... FROM memories WHERE public_id = ?1` -/
def byPublicId? (db : Db F) (publicId : String) : Option (Memory F) :=
  db.memories.find? fun m => m.publicId = publicId

/-- `UPDATE memories SET ... WHERE id = ?` -/
def updateMemory (db : Db F) (id : Int) (f : Memory F → Memory F) : Db F :=
  { db with memories := db.memories.map fun m => if m.id = id then f m else m }

/-- `UPDATE vec_memories SET ... WHERE rowid = ?` -/
def updateVec (db : Db F) (rowid : Int) (f : VecRow F → VecRow F) : Db F :=
  { db with
    vecs := db.vecs.map fun v => if v.rowid = rowid then f v else v
    vecLog := db.vecLog ++ [.update rowid f] }

end Db

end AgosMemory
