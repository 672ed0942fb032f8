import AgosMemory.Storage.Store
import AgosMemory.Storage.VecMemories
import Mathlib.Data.List.Sort
import AgosMemory.Memory.Redact

/-!
# Persist and dedup

A candidate is redacted, embedded and compared with the vectors of its tier; a near duplicate bumps
the row it repeats and anything else is inserted. Without a vector the comparison is by text hash.
-/

namespace AgosMemory

open Library Library.Program

/-- An embedding provider. The number is that of the call, so an outage may start at any call. -/
structure Embedder (F : Type) where
  model : String
  dim : Nat
  embed : Nat → List String → Except Error (List (List F))

def Embedder.call {F : Type} (e : Embedder F) (texts : List String) : Write F (List (List F)) :=
  fun c => (e.embed c.sent.length texts, { c with sent := c.sent ++ [texts] })

namespace Persist

open Store

variable {F : Type} [F64 F]

/-- One fact to persist. -/
structure Candidate (F : Type) where
  tier : String
  kind : String
  text : String
  confidence : F

/-- Outcome of a persist call: the surviving row, and whether it was there before. -/
structure PersistReport where
  row : MemoryRow
  deduped : Bool
  deriving DecidableEq, Repr

/-- `SELECT rowid, distance FROM vec_memories WHERE embedding MATCH ?1 AND k = 3 AND tier = ?2
ORDER BY distance`: the chunks are searched in order, and the rows found are sorted. A query vector of
another dimension makes the query an error, and a distance that is NaN comes back as `NULL` and makes its
row one; the caller skips errors. -/
def knn (env : Env F) (db : Db F) (q : List F) (tier : String) : List (Int × F) :=
  if q.length = 0 ∨ q.length ≠ db.embedDim then []
  else
    let cells := (db.vecs.filter fun v => v.tier.sql = tier).map
      (Vec0.cellOf (Vec0.positions db) fun embedding => env.distance embedding q)
    let found := Vec0.nearest (Vec0.vecLayout F db.embedDim).chunkSize 3 (Vec0.byChunk cells)
    let rows := (found.filter fun n => F64.le n.distance n.distance).map fun n => (n.rowid, n.distance)
    rows.insertionSort fun a b => F64.le a.2 b.2

/-- What a search finds is a vector of the tier, with its distance. -/
theorem mem_knn {env : Env F} {db : Db F} {q : List F} {tier : String} {p : Int × F}
    (hp : p ∈ knn env db q tier) : ∃ v ∈ db.vecs, v.tier.sql = tier ∧
      p = (v.rowid, env.distance v.embedding q) := by
  unfold knn at hp
  split at hp
  · cases hp
  · obtain ⟨n, hn, rfl⟩ := List.mem_map.mp ((List.mem_insertionSort _).mp hp)
    obtain ⟨chunk, hchunk, c, hc, rfl⟩ := Vec0.mem_nearest (List.mem_filter.mp hn).1
    obtain ⟨v, hv, rfl⟩ := List.mem_map.mp (Vec0.mem_byChunk hchunk hc)
    obtain ⟨hv, htier⟩ := List.mem_filter.mp hv
    exact ⟨v, hv, of_decide_eq_true htier, rfl⟩

/-- Cosine similarity, the complement of the distance clamped to its range. -/
def similarity (dist : F) : F :=
  F64.sub (F64.ofRat 1) (F64.clamp (F64.ofRat 0) (F64.ofRat 2) dist)

/-- The row that a candidate duplicates: the nearest one, when it is similar enough. -/
def duplicateOf (env : Env F) (db : Db F) (q : List F) (tier : String) (dedupThreshold : F) :
    Option Int :=
  match (knn env db q tier).head? with
  | some (rowid, dist) => if F64.lt dedupThreshold (similarity dist) then some rowid else none
  | none => none

/-- How a fresh row records its embedding. -/
structure Embedded where
  status : EmbedStatus
  model : Option String := none
  dim : Option Int := none

/-- The columns of a fresh row. `text` is the redacted text; the `confidence` column is left to its
default. -/
def freshRow (env : Env F) (agentId publicId : String) (cand : Candidate F)
    (text extractorVersion sourceKind : String) (pendingThreshold : F) (embedded : Embedded)
    (now : Int) : NewRow F where
  publicId := publicId
  agentId := agentId
  tier := cand.tier
  kind := cand.kind
  text := text
  textHash := env.sha256Hex text
  confidence := F64.ofRat 1
  status := if F64.lt cand.confidence pendingThreshold then "pending" else "active"
  trust := trustForSourceKind sourceKind
  sourceKind := sourceKind
  extractorVersion := some extractorVersion
  embedModel := embedded.model
  embedDim := embedded.dim
  embedStatus := embedded.status
  createdAt := now
  updatedAt := now

/-- The `memories` row and its first version. -/
def insertFresh (env : Env F) (cand : Candidate F) (text extractorVersion sourceKind : String)
    (pendingThreshold : F) (embedded : Embedded) (now : Int) : Write F (Memory F) := do
  let publicId ← newUuid env
  let c ← get
  let row ← exec env (insertMemoryRow (freshRow env c.agentId publicId cand text extractorVersion
    sourceKind pendingThreshold embedded now))
  exec env (insertVersion {
    memoryId := row.id, version := 1, text, textHash := env.sha256Hex text, createdAt := now })
  return row

/-- A fresh row with its vector. -/
def insertEmbedded (env : Env F) (emb : Embedder F) (cand : Candidate F)
    (text extractorVersion sourceKind : String) (pendingThreshold : F) (vec : List F) (now : Int) :
    Write F PersistReport := do
  let row ← insertFresh env cand text extractorVersion sourceKind pendingThreshold
    ⟨.ok, some emb.model, some vec.length⟩ now
  exec env (insertVec ⟨row.id, vec, row.tier, row.status.code, row.trust.code, row.kind, 0⟩)
  return ⟨rowOf row, false⟩

/-- The bump of the embedded path. -/
def bumpEmbedded (env : Env F) : Int → String → Int → Write F Unit := bump env ⟨true, true, true⟩

/-- The bump of the path without a vector: the vector metadata is left alone. -/
def bumpNoVector (env : Env F) : Int → String → Int → Write F Unit := bump env ⟨false, false, true⟩

/-- Embed + dedup + insert one candidate; returns the surviving row. -/
def persistCandidateFull (env : Env F) (emb : Embedder F) (cand : Candidate F)
    (extractorVersion sourceKind : String) (pendingThreshold dedupThreshold : F) :
    Write F PersistReport := do
  let text := Redact.redact cand.text
  let vecs ← emb.call [text]
  let vec := vecs.headD []
  let now ← nowMillis env
  match ← query env fun db => .ok (duplicateOf env db vec cand.tier dedupThreshold) with
  | some rowid =>
    bumpEmbedded env rowid sourceKind now
    let row ← query env fun db => one (db.memory? rowid)
    return ⟨rowOf row, true⟩
  | none => insertEmbedded env emb cand text extractorVersion sourceKind pendingThreshold vec now

/-- `SELECT id FROM memories WHERE text_hash = ?1 AND status IN ('active','pending')` -/
def sameHash (db : Db F) (hash : String) : Option (Memory F) :=
  db.memories.find? fun m => m.textHash = hash ∧ m.status.live

/-- Shared no-vector persist. `embedStatus` is `skipped` or `failed`. -/
def persistCandidateNoVector (env : Env F) (cand : Candidate F)
    (extractorVersion sourceKind : String) (pendingThreshold : F) (embedStatus : EmbedStatus) :
    Write F PersistReport := do
  let text := Redact.redact cand.text
  let now ← nowMillis env
  match ← query env fun db => .ok ((sameHash db (env.sha256Hex text)).map Memory.id) with
  | some id =>
    bumpNoVector env id sourceKind now
    let row ← query env fun db => one (db.memory? id)
    return ⟨rowOf row, true⟩
  | none =>
    let row ← insertFresh env cand text extractorVersion sourceKind pendingThreshold
      ⟨embedStatus, none, none⟩ now
    return ⟨rowOf row, false⟩

/-- Degraded persist: no embedding provider. -/
def persistCandidateDegraded (env : Env F) (cand : Candidate F)
    (extractorVersion sourceKind : String) (pendingThreshold : F) : Write F PersistReport :=
  persistCandidateNoVector env cand extractorVersion sourceKind pendingThreshold .skipped

/-- Persist without a vector because the embedder failed. -/
def persistCandidateUnembedded (env : Env F) (cand : Candidate F)
    (extractorVersion sourceKind : String) (pendingThreshold : F) : Write F PersistReport :=
  persistCandidateNoVector env cand extractorVersion sourceKind pendingThreshold .failed

/-- Cosine similarity above which a candidate is a duplicate. -/
def DEDUP_THRESHOLD : F := F64.ofRat (92 / 100)

/-- Confidence below which a candidate is stored as pending. -/
def PENDING_THRESHOLD_DEFAULT : F := F64.ofRat (4 / 10)

def persistCandidate (env : Env F) (emb : Embedder F) (cand : Candidate F)
    (extractorVersion : String) : Write F PersistReport :=
  persistCandidateFull env emb cand extractorVersion "user" PENDING_THRESHOLD_DEFAULT
    DEDUP_THRESHOLD

/-- The public entry: one fact in, one memory out. An embedder failure falls back to a row without
a vector; any other failure is returned. -/
def remember (env : Env F) (emb : Embedder F) (cand : Candidate F)
    (extractorVersion sourceKind : String) (pendingThreshold dedupThreshold : F) :
    Write F MemoryRow := do
  match ← attempt (persistCandidateFull env emb cand extractorVersion sourceKind pendingThreshold
      dedupThreshold) with
  | .ok report => return report.row
  | .error (.embedder _) =>
    let report ← persistCandidateUnembedded env cand extractorVersion sourceKind pendingThreshold
    return report.row
  | .error e => fail e

/-- Degraded write path: no embedding provider. -/
def rememberDegraded (env : Env F) (cand : Candidate F) (extractorVersion sourceKind : String)
    (pendingThreshold : F) : Write F MemoryRow := do
  let report ← persistCandidateDegraded env cand extractorVersion sourceKind pendingThreshold
  return report.row

end Persist

end AgosMemory
