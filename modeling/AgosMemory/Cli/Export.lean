import AgosMemory.Storage.Store
import Mathlib.Data.List.Sort

/-!
# Export

`export` streams the eligible rows in batches. The cursor that selects the next batch is what the
source computes from the batch just read: the memory address of its last element.
-/

namespace AgosMemory.Export

open Store

variable {F : Type} [F64 F]

/-- Rows per read batch / per import transaction / per embed call. -/
def BATCH : Nat := 500

def TIERS : List String := ["working", "episodic", "semantic", "procedural"]

/-- The source kind is authoritative; the `trust` field of a row is retained for compatibility. -/
structure Provenance where
  sourceKind : String
  sourceRef : Option String := none
  deriving DecidableEq, Repr

/-- One memory per line. -/
structure ExportRow (F : Type) where
  schemaVersion : Int
  publicId : String
  tier : String
  kind : String
  text : String
  textHash : String
  status : String
  trust : String
  confidence : F
  summaryText : Option String := none
  summaryTokens : Int := 0
  provenance : Provenance
  pinned : Int := 0
  expiresAt : Option Int := none
  createdAt : Int
  updatedAt : Int
  tombstoneOf : Option String := none

/-- Map one selected row. -/
def exportRow (schemaVersion : Int) (m : Memory F) : ExportRow F where
  schemaVersion
  publicId := m.publicId
  tier := m.tier.sql
  kind := m.kind.sql
  text := m.text
  textHash := m.textHash
  status := m.status.sql
  trust := m.trust.sql
  confidence := m.confidence
  summaryText := m.summaryText
  summaryTokens := m.summaryTokens.getD 0
  provenance := ⟨m.sourceKind.sql, m.sourceRef⟩
  pinned := m.pinned
  expiresAt := m.expiresAt
  createdAt := m.createdAt
  updatedAt := m.updatedAt

/-- The `WHERE` clause apart from the cursor; the empty tier stands for no tier filter. -/
def eligible (db : Db F) (agent tier : String) (m : Memory F) : Bool :=
  m.agentId = agent && (m.status = .active || m.status = .deprecated) &&
    (tier = "" || m.tier.sql = tier) && !db.tombstones.any fun t => t.publicId = m.publicId

/-- The rows one read returns: `id > cursor`, `ORDER BY id`, `LIMIT 500`. -/
def batchRows (db : Db F) (agent tier : String) (cursor : Int) : List (Memory F) :=
  ((db.memories.filter fun m => eligible db agent tier m && cursor < m.id).insertionSort
    fun a b => a.id ≤ b.id).take BATCH

/-- The read loop. `addr k` is the address of the last element of the `k`-th batch, which the loop
takes for its next cursor. The fuel bounds the number of reads; `none` is a loop still running. -/
def exportLoop (db : Db F) (schemaVersion : Int) (agent tier : String) (addr : Nat → Int) :
    Nat → Nat → Int → Nat → List (ExportRow F) → Option (List (ExportRow F) × Nat)
  | 0, _, _, _, _ => none
  | fuel + 1, k, lastId, written, out =>
    let rows := (batchRows db agent tier lastId).map (exportRow schemaVersion)
    if rows.isEmpty then some (out, written)
    else if rows.length < BATCH then some (out ++ rows, written + rows.length)
    else exportLoop db schemaVersion agent tier addr fuel (k + 1) (addr k) (written + rows.length)
      (out ++ rows)

/-- Stream the store to JSONL: the lines after the header, and the number of rows written. -/
def exportJsonl (db : Db F) (schemaVersion : Int) (agent : String) (tier : Option String)
    (addr : Nat → Int) (fuel : Nat) : Except Error (Option (List (ExportRow F) × Nat)) :=
  match tier with
  | some t =>
    if t ∈ TIERS then .ok (exportLoop db schemaVersion agent t addr fuel 0 0 0 [])
    else .error (.invalidInput
      ("unknown tier `" ++ t ++ "` (expected one of " ++ Text.join ", " TIERS ++ ")"))
  | none => .ok (exportLoop db schemaVersion agent "" addr fuel 0 0 0 [])

end AgosMemory.Export
