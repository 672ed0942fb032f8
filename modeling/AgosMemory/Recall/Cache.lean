import AgosMemory.Memory.Persist
import AgosMemory.Recall.Recall

/-!
# The embeddings cache

A query is embedded through a table keyed by content hash and model. Reading and writing the table is
best effort: what fails falls through to the embedder.
-/

namespace AgosMemory.Recall

variable {F : Type}

/-! ## Blobs -/

/-- The little-endian bytes of an `f32`, and which numbers are one. -/
structure F32Bytes (F : Type) where
  IsF32 : F → Prop
  toLeBytes : F → List UInt8
  fromLeBytes : List UInt8 → F
  length_toLeBytes : ∀ x, (toLeBytes x).length = 4
  from_toLeBytes : ∀ x, IsF32 x → fromLeBytes (toLeBytes x) = x

/-- Vec-leg parameter blob. -/
def blob (codec : F32Bytes F) (vec : List F) : List UInt8 := vec.flatMap codec.toLeBytes

/-- `as_chunks::<4>().0` -/
def chunks4 : List UInt8 → List (List UInt8)
  | a :: b :: c :: d :: rest => [a, b, c, d] :: chunks4 rest
  | _ => []

/-- Decode a cached blob, rejecting dimension drift. -/
def decodeBlob (codec : F32Bytes F) (bytes : List UInt8) (expectedDim : Nat) : Option (List F) :=
  if bytes.length ≠ expectedDim * 4 then none else some ((chunks4 bytes).map codec.fromLeBytes)

private theorem chunks4_append {bytes : List UInt8} (h : bytes.length = 4) (rest : List UInt8) :
    chunks4 (bytes ++ rest) = bytes :: chunks4 rest := by
  match bytes, h with
  | [a, b, c, d], _ => rfl

theorem length_blob (codec : F32Bytes F) (vec : List F) : (blob codec vec).length = 4 * vec.length := by
  induction vec with
  | nil => rfl
  | cons x vec ih =>
    have hcons : blob codec (x :: vec) = codec.toLeBytes x ++ blob codec vec := List.flatMap_cons
    rw [hcons, List.length_append, ih, codec.length_toLeBytes, List.length_cons]
    omega

/-- A blob decodes to its vector at the dimension of the vector only. -/
theorem decode_blob (codec : F32Bytes F) {vec : List F} (h : ∀ x ∈ vec, codec.IsF32 x) (dim : Nat) :
    decodeBlob codec (blob codec vec) dim = if vec.length = dim then some vec else none := by
  have hchunks : (chunks4 (blob codec vec)).map codec.fromLeBytes = vec := by
    induction vec with
    | nil => rfl
    | cons x vec ih =>
      obtain ⟨hx, hvec⟩ := List.forall_mem_cons.mp h
      have hcons : blob codec (x :: vec) = codec.toLeBytes x ++ blob codec vec := List.flatMap_cons
      rw [hcons, chunks4_append (codec.length_toLeBytes x), List.map_cons,
        codec.from_toLeBytes x hx, ih hvec]
  unfold decodeBlob
  rw [hchunks, length_blob]
  by_cases hdim : vec.length = dim
  · rw [if_pos hdim, if_neg (by omega)]
  · rw [if_neg hdim, if_pos (by omega)]

/-! ## The table -/

/-- A row of `embeddings_cache`. -/
structure CacheRow where
  contentHash : String
  embedModel : String
  dim : Int
  vector : List UInt8
  createdAt : Int
  lastUsedAt : Int
  useCount : Int
  deriving DecidableEq

/-- The primary key. -/
def CacheRow.key (row : CacheRow) : String × String := (row.contentHash, row.embedModel)

/-- `INSERT ... ON CONFLICT(content_hash, embed_model) DO UPDATE SET last_used_at = ?5,
use_count = use_count + 1` -/
def cacheUpsert (new : CacheRow) : List CacheRow → List CacheRow
  | [] => [new]
  | row :: cache =>
    if row.key = new.key then
      { row with lastUsedAt := new.lastUsedAt, useCount := row.useCount + 1 } :: cache
    else row :: cacheUpsert new cache

/-! ## Query embedding -/

/-- One recall: its embedder and the number of the call to it, the outages of the two accesses to the
cache, and what the rest of the call reads. -/
structure CachedCall (F : Type) where
  embedder : Embedder F
  call : Nat
  readFails : Bool
  writeFails : Bool
  agentId : String
  query : RecallQuery F
  now : Int
  legs : HardFilter → Nat → Option (List F) → Except Error (List (VecLegHit F) × List FtsLegHit)
  gate2 : Except Error (Db F)
  gate3 : Except Error (Db F)

def CachedCall.reads (c : CachedCall F) (queryVec : Option (List F)) : Reads F :=
  ⟨queryVec, c.legs, c.gate2, c.gate3⟩

def CachedCall.key (sha256Hex : String → String) (c : CachedCall F) : String × String :=
  (sha256Hex c.query.text, c.embedder.model)

/-- The first vector of an answer. -/
def firstVector : Except Error (List (List F)) → Option (List F)
  | .ok (vec :: _) => some vec
  | .ok [] | .error _ => none

/-- What the embedder says to the query. -/
def CachedCall.embedded (c : CachedCall F) : Option (List F) :=
  firstVector (c.embedder.embed c.call [c.query.text])

/-- Best-effort cache read. -/
def cachedVector (codec : F32Bytes F) (sha256Hex : String → String) (c : CachedCall F)
    (cache : List CacheRow) : Option (List F) :=
  if c.readFails then none
  else (cache.find? fun row => row.key = c.key sha256Hex).bind fun row =>
    decodeBlob codec row.vector c.embedder.dim

/-- The row that is inserted for a vector. -/
def cacheEntry (codec : F32Bytes F) (sha256Hex : String → String) (c : CachedCall F) (vec : List F) :
    CacheRow where
  contentHash := sha256Hex c.query.text
  embedModel := c.embedder.model
  dim := c.embedder.dim
  vector := blob codec vec
  createdAt := c.now
  lastUsedAt := c.now
  useCount := 1

/-- Query embedding with the cache. -/
def queryEmbedding (codec : F32Bytes F) (sha256Hex : String → String) (c : CachedCall F)
    (cache : List CacheRow) : Option (List F) × List CacheRow :=
  match cachedVector codec sha256Hex c cache with
  | some vec => (some vec, cache)
  | none =>
    match c.embedded with
    -- degraded: no vec leg
    | none => (none, cache)
    | some vec =>
      (some vec, if c.writeFails then cache
        else cacheUpsert (cacheEntry codec sha256Hex c vec) cache)

/-- Run recall at one instant, with the query embedded through the cache. -/
def recallCached [F64 F] (codec : F32Bytes F) (sha256Hex : String → String) (c : CachedCall F)
    (cache : List CacheRow) : Except Error (RecallReport F) × List CacheRow :=
  if Text.trim c.query.text = "" then (.error (.invalidInput "recall query text is empty"), cache)
  else
    let (queryVec, cache') := queryEmbedding codec sha256Hex c cache
    (recallWithClock (c.reads queryVec) c.agentId c.query c.now, cache')

theorem queryEmbedding_cases (codec : F32Bytes F) (sha256Hex : String → String) (c : CachedCall F)
    (cache : List CacheRow) :
    (∃ vec, cachedVector codec sha256Hex c cache = some vec ∧
      queryEmbedding codec sha256Hex c cache = (some vec, cache)) ∨
    (cachedVector codec sha256Hex c cache = none ∧ c.embedded = none ∧
      queryEmbedding codec sha256Hex c cache = (none, cache)) ∨
    ∃ vec, cachedVector codec sha256Hex c cache = none ∧ c.embedded = some vec ∧
      queryEmbedding codec sha256Hex c cache = (some vec, if c.writeFails then cache
        else cacheUpsert (cacheEntry codec sha256Hex c vec) cache) := by
  unfold queryEmbedding
  cases hcached : cachedVector codec sha256Hex c cache with
  | some vec => exact .inl ⟨vec, rfl, rfl⟩
  | none =>
    cases hembedded : c.embedded with
    | none => exact .inr (.inl ⟨rfl, rfl, rfl⟩)
    | some vec => exact .inr (.inr ⟨vec, rfl, rfl, rfl⟩)

/-- The same recall with no cache. -/
def recallEmbedding [F64 F] (c : CachedCall F) : Except Error (RecallReport F) :=
  recallWithClock (c.reads c.embedded) c.agentId c.query c.now

/-! ## Eviction and statistics -/

/-- A call of `evict_embeddings_cache`: the clock and the arguments, and whether SQLite was built to
take an `ORDER BY` and a `LIMIT` in a `DELETE`. -/
structure Eviction where
  deleteLimit : Bool
  now : Int
  maxAgeMillis : Int
  minUseCount : Int
  limit : Int

/-- `WHERE last_used_at < ?1 AND use_count < ?2` -/
def Eviction.matching (e : Eviction) (cache : List CacheRow) : List CacheRow :=
  cache.filter fun row =>
    row.lastUsedAt < wrapI64 (e.now - e.maxAgeMillis) ∧ row.useCount < e.minUseCount

/-- `ORDER BY last_used_at ASC LIMIT ?3`, where a negative limit is none. -/
def Eviction.doomed (e : Eviction) (cache : List CacheRow) : List CacheRow :=
  let listed := (e.matching cache).insertionSort fun a b => a.lastUsedAt ≤ b.lastUsedAt
  if e.limit < 0 then listed else listed.take e.limit.toNat

/-- Evict old entries; the number of evicted ones. -/
def evictEmbeddingsCache (e : Eviction) (cache : List CacheRow) : Except Error Int × List CacheRow :=
  if e.deleteLimit then
    let doomed := e.doomed cache
    (.ok doomed.length, cache.filter fun row => row.key ∉ doomed.map CacheRow.key)
  else (.error (.storage "near \"ORDER\": syntax error"), cache)

/-- `SELECT COUNT(*) as count, COALESCE(SUM(use_count), 0) as total_uses,
COALESCE(MAX(last_used_at), 0) as last_used` -/
def embeddingsCacheStats (cache : List CacheRow) : Int × Int × Int :=
  (cache.length, (cache.map CacheRow.useCount).sum, (cache.map CacheRow.lastUsedAt).max?.getD 0)

structure EmbeddingsCacheStats where
  entries : Int
  hits : Int
  misses : Int
  deriving DecidableEq

structure StatusCount where
  status : String
  count : Int
  deriving DecidableEq

structure StatusOutcome where
  schemaVersion : Int
  agentId : String
  counts : List StatusCount
  embeddingsCache : EmbeddingsCacheStats
  deriving DecidableEq

/-- The buckets that are always shown. -/
def STATUS_BUCKETS : List String := ["active", "deprecated", "hard-deleted"]

/-- Database health: schema version, per-status counts, index cache stats. -/
def status (schema : Int) (agentId : String) (raw : List (String × Int)) (cache : List CacheRow) :
    StatusOutcome :=
  let counts := STATUS_BUCKETS.map fun bucket => StatusCount.mk bucket ((raw.lookup bucket).getD 0)
  let extra := (raw.filter fun e => e.1 ∉ STATUS_BUCKETS).map fun e => StatusCount.mk e.1 e.2
  let (hits, misses, entries) := embeddingsCacheStats cache
  { schemaVersion := schema, agentId, counts := counts ++ extra
    embeddingsCache := { entries, hits, misses } }

end AgosMemory.Recall
