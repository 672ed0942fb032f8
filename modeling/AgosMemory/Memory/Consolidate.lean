import AgosMemory.Memory.Summarize
import AgosMemory.Runs.Clients

/-!
# Consolidation

Summarization of what is due, dedup of the active rows of each tier, and the deletion of versions
whose memory is gone. Each statement is a call of its own.
-/

namespace AgosMemory.Consolidate

open Library Store Summarize
open Library.Client hiding fail lift onlyIf forEach foldEach attempt

variable {F : Type} [F64 F]

/-- The settings of a consolidation, and the text proxy of rows without a vector. -/
structure Config (F : Type) where
  memory : MemoryConfig
  dedupThreshold : F
  hashToUnitVector : String → Nat → List F

structure ConsolidateReport where
  summariesGenerated : Nat
  dedupClustersMerged : Nat
  orphansDeleted : Nat
  deriving DecidableEq, Repr

/-! ## Dedup -/

structure DedupRow (F : Type) where
  id : Int
  publicId : String
  tier : Tier
  text : String
  textHash : String
  embedding : Option (List F)

/-- `ORDER BY m.tier, m.id` -/
def dedupOrder (a b : Memory F) : Prop :=
  a.tier.sql < b.tier.sql ∨ a.tier.sql = b.tier.sql ∧ a.id ≤ b.id

instance : DecidableRel (dedupOrder (F := F)) := fun a b =>
  inferInstanceAs (Decidable (a.tier.sql < b.tier.sql ∨ a.tier.sql = b.tier.sql ∧ a.id ≤ b.id))

/-- Rows eligible for dedup, each with its stored vector. -/
def dedupRows (db : Db F) : List (DedupRow F) :=
  ((db.memories.filter fun m => m.status = .active).insertionSort dedupOrder).map fun m =>
    ⟨m.id, m.publicId, m.tier, m.text, m.textHash,
      (db.vecs.find? fun v => v.rowid = m.id).map VecRow.embedding⟩

def allActiveMemoriesForDedup (env : Env F) : Write F (List (DedupRow F)) :=
  query env fun db => .ok (dedupRows db)

/-- A vector of another dimension counts as none. -/
def decodeF32Blob (blob : List F) (dim : Nat) : Option (List F) :=
  if blob.length ≠ dim then none else some blob

/-- Cosine similarity of two unit vectors: dot product, clamped. -/
def cosineSimilarity (a b : List F) : F :=
  F64.clamp (F64.ofRat (-1)) (F64.ofRat 1)
    ((List.zipWith F64.mul a b).foldl F64.add (F64.ofRat 0))

/-- One row with the vector it is compared by. -/
structure Member (F : Type) where
  id : Int
  publicId : String
  tier : Tier
  vec : List F

/-- The stored embedding, else the deterministic text proxy. -/
def memberOf (cfg : Config F) (dim : Nat) (row : DedupRow F) : Member F :=
  ⟨row.id, row.publicId, row.tier,
    (row.embedding.bind fun blob => decodeF32Blob blob dim).getD (cfg.hashToUnitVector row.text dim)⟩

structure Cluster (F : Type) where
  clusterId : String
  ownerId : Int
  ownerVec : List F
  tier : Tier

/-- A row is near the owner of a cluster of its tier. -/
def near (threshold : F) (m : Member F) (c : Cluster F) : Bool :=
  c.tier = m.tier && F64.le threshold (cosineSimilarity m.vec c.ownerVec)

def clusterIdOf (env : Env F) (publicId : String) : String := "dedup-" ++ env.sha256Hex publicId

/-- The cluster that a row starts. -/
def clusterOf (env : Env F) (m : Member F) : Cluster F :=
  ⟨clusterIdOf env m.publicId, m.id, m.vec, m.tier⟩

/-- One row of the pass: it joins the first cluster it is near to, or starts one. -/
def dedupStep (env : Env F) (threshold : F) (st : List (Cluster F) × Nat) (m : Member F) :
    Work F (List (Cluster F) × Nat) :=
  match st.1.find? (near threshold m) with
  | some c => do
    call (bumpRefCount env c.ownerId)
    call (setDedupCluster env m.id c.clusterId)
    return (st.1, st.2 + 1)
  | none => do
    call (setDedupCluster env m.id (clusterIdOf env m.publicId))
    return (st.1 ++ [clusterOf env m], st.2)

/-- Re-run cosine dedup across all active memories; the number of clusters merged. -/
def dedupConsolidation (env : Env F) (cfg : Config F) : Work F Nat := do
  let dim ← call (embedDim env)
  let memories ← call (allActiveMemoriesForDedup env)
  let st ← Client.foldEach (memories.map (memberOf cfg dim)) ([], 0)
    (dedupStep env cfg.dedupThreshold)
  return st.2

/-! ## The job -/

/-- The versions whose memory is gone. -/
def orphans (db : Db F) : List MemoryVersion :=
  db.versions.filter fun v => v.memoryId ∉ db.memories.map Memory.id

def deleteOrphanedVersions (env : Env F) : Write F Nat :=
  exec env fun db => .ok ((orphans db).length,
    { db with versions := db.versions.filter fun v => v.memoryId ∈ db.memories.map Memory.id })

/-- Run the full consolidation job. -/
def runConsolidationJob (env : Env F) (tools : Tools F) (cfg : Config F) :
    Task F ConsolidateReport := do
  let summaries ← runSummarizationJob env tools cfg.memory
  let merged ← (dedupConsolidation env cfg).zoom Desk.conn fun d conn => { d with conn }
  let deleted ← call (onConn (deleteOrphanedVersions env))
  return ⟨summaries, merged, deleted⟩

end AgosMemory.Consolidate
