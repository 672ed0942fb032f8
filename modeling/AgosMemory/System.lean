import AgosMemory.Cli.Import
import AgosMemory.Cli.Ingest

/-!
# The store over whole runs

The operations that write memories, under the names of their entry points, and the states that
sequences of them reach. An operation may fail; what its statements did before stays.
-/

namespace AgosMemory

open Library Library.Program Store

variable {F : Type} [F64 F]

/-- One call on the store. `openAs` is a later process that opens the database for another agent. -/
inductive Op (F : Type) where
  | openAs (agentId : String)
  | insertMemory (m : NewMemory)
  | persistFull (emb : Embedder F) (cand : Persist.Candidate F) (extractorVersion : String)
      (sourceKind : String) (pendingThreshold dedupThreshold : F)
  | persistDegraded (cand : Persist.Candidate F) (extractorVersion sourceKind : String)
      (pendingThreshold : F)
  | persistUnembedded (cand : Persist.Candidate F) (extractorVersion sourceKind : String)
      (pendingThreshold : F)
  | remember (emb : Embedder F) (cand : Persist.Candidate F) (extractorVersion : String)
      (sourceKind : String) (pendingThreshold dedupThreshold : F)
  | update (id : Int) (text : String) (sourceKind changeReason createdBy : Option String)
  | rollback (id targetVersion : Int) (createdBy : Option String)
  | setPinned (id : Int) (pinned : Bool) (requester : String)
  | setSourceRef (id : Int) (sourceRef : String)
  | setSummary (id : Int) (summary : String) (tokens : Int)
  | importFile (emb : Embedder F) (targetSchema : Int) (file : Export.ImportFile F) (dryRun : Bool)
  | ingest (cfg : Ingest.IngestConfig F) (tree : Ingest.Tree) (dryRun : Bool)
  | deprecateMemory (id : Int) (deletedBy : Option String)
  | deprecateForTtl (id : Int)
  | restoreMemory (id : Int) (restoredBy : Option String)
  | hardPurgeMemory (id : Int) (deletedBy reason : Option String)
  | hardPurgeForTtl (id : Int)
  | setDedupCluster (id : Int) (clusterId : String)
  | bumpRefCount (id : Int)

namespace Op

/-- Run a program for its effect. -/
def effect {α : Type} (m : Write F α) : Write F Unit := m >>= fun _ => pure ()

def step (env : Env F) : Op F → Write F Unit
  | openAs agentId => fun c => (.ok (), { c with agentId })
  | insertMemory m => effect (Store.insertMemory env m)
  | persistFull emb cand ev sk pending dedup =>
    effect (Persist.persistCandidateFull env emb cand ev sk pending dedup)
  | persistDegraded cand ev sk pending =>
    effect (Persist.persistCandidateDegraded env cand ev sk pending)
  | persistUnembedded cand ev sk pending =>
    effect (Persist.persistCandidateUnembedded env cand ev sk pending)
  | remember emb cand ev sk pending dedup =>
    effect (Persist.remember env emb cand ev sk pending dedup)
  | update id text source reason by_ =>
    effect (updateMemoryWithProvenance env id text source reason by_)
  | rollback id version by_ => effect (rollbackMemory env id version by_)
  | setPinned id pinned requester => effect (setMemoryPinned env id pinned requester)
  | setSourceRef id sourceRef => Store.setSourceRef env id sourceRef
  | setSummary id summary tokens => Store.setSummary env id summary tokens
  | importFile emb schema file dryRun => effect (Export.importFile env emb schema file dryRun)
  | ingest cfg tree dryRun => effect (Ingest.ingest env cfg tree dryRun)
  | deprecateMemory id by_ => Store.deprecateMemory env id by_
  | deprecateForTtl id => Store.deprecateForTtl env id
  | restoreMemory id by_ => Store.restoreMemory env id by_
  | hardPurgeMemory id by_ reason => Store.hardPurgeMemory env id by_ reason
  | hardPurgeForTtl id => Store.hardPurgeForTtl env id
  | setDedupCluster id clusterId => Store.setDedupCluster env id clusterId
  | bumpRefCount id => Store.bumpRefCount env id

/-- The texts that an operation is given and stores as they are. -/
def storesText : Op F → String → Prop
  | insertMemory m, text => text = m.text
  | update _ new _ _ _, text => text = new
  | importFile _ _ file _, text => ∃ row, some (.ok row) ∈ file.lines ∧ text = row.text
  | _, _ => False

/-- The embedder an operation calls, if it has one. -/
def embedder : Op F → Option (Embedder F)
  | persistFull emb .. | remember emb .. | importFile emb .. => some emb
  | ingest cfg .. => cfg.provider.embedder
  | _ => none

end Op

/-- The state after a sequence of operations. -/
def runOps (env : Env F) (ops : List (Op F)) (c : Conn F) : Conn F :=
  ops.foldl (fun c op => (op.step env c).2) c

/-- A new database, opened for its first agent. -/
def emptyStore (F : Type) (agentId : String) (embedDim : Nat) : Conn F :=
  { agentId, db := { embedDim } }

/-- A concrete environment: nothing fails, and two vectors are either equal or far apart. -/
def sampleEnv : Env ℚ where
  sha256Hex s := s
  distance v w := if v = w then 0 else 1
  uuid n := "m" ++ toString n
  clock n := n
  fault _ := false

/-- One component, the length of the text. -/
def sampleEmbed (text : String) : List ℚ := [text.length]

def sampleEmbedder : Embedder ℚ where
  model := "length"
  dim := 1
  embed _ texts := .ok (texts.map sampleEmbed)

example : (runOps sampleEnv [.insertMemory ⟨"semantic", "fact", "sky", "web"⟩]
    (emptyStore ℚ "a" 1)).db.memories.map (fun m => (m.text, m.trust)) = [("sky", .untrusted)] := by
  decide +kernel

end AgosMemory
