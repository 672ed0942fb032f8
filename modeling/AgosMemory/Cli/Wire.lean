import AgosMemory.Cli.Import
import AgosMemory.Library.Json

/-!
# The lines of an export file

The header and the rows as JSON objects, with the fields that are skipped when they are empty and
the defaults of those that may be missing. A row that is written reads back as it was.
-/

namespace AgosMemory.Export

open Library Library.Json

variable {F : Type} [F64 F]

/-! ## Provenance -/

def Provenance.fields (p : Provenance) : List (String × Json F) :=
  ("source_kind", .str p.sourceKind) :: skipNone "source_ref" (p.sourceRef.map .str)

def Provenance.ofJson? : Json F → Option Provenance
  | .obj fields => do
    let sourceKind ← required asStr fields "source_kind"
    let sourceRef ← defaulted none (asOption asStr) fields "source_ref"
    return { sourceKind, sourceRef }
  | _ => none

/-! ## Rows -/

/-- The fields of a row in the order in which they are written. -/
def ExportRow.fields (row : ExportRow F) : List (String × Json F) :=
  [("schema_version", .int row.schemaVersion), ("public_id", .str row.publicId),
    ("tier", .str row.tier), ("kind", .str row.kind), ("text", .str row.text),
    ("text_hash", .str row.textHash), ("status", .str row.status), ("trust", .str row.trust),
    ("confidence", .num row.confidence)] ++
  skipNone "summary_text" (row.summaryText.map .str) ++
  [("summary_tokens", .int row.summaryTokens), ("provenance", .obj row.provenance.fields),
    ("pinned", .int row.pinned)] ++
  skipNone "expires_at" (row.expiresAt.map .int) ++
  [("created_at", .int row.createdAt), ("updated_at", .int row.updatedAt)] ++
  skipNone "tombstone_of" (row.tombstoneOf.map .str)

def ExportRow.toJson (row : ExportRow F) : Json F := .obj row.fields

def ExportRow.ofFields (fields : List (String × Json F)) : Option (ExportRow F) := do
  let schemaVersion ← required asInt fields "schema_version"
  let publicId ← required asStr fields "public_id"
  let tier ← required asStr fields "tier"
  let kind ← required asStr fields "kind"
  let text ← required asStr fields "text"
  let textHash ← required asStr fields "text_hash"
  let status ← required asStr fields "status"
  let trust ← required asStr fields "trust"
  let confidence ← required (asNum fun n => F64.ofRat n) fields "confidence"
  let summaryText ← defaulted none (asOption asStr) fields "summary_text"
  let summaryTokens ← defaulted 0 asInt fields "summary_tokens"
  let provenance ← required Provenance.ofJson? fields "provenance"
  let pinned ← defaulted 0 asInt fields "pinned"
  let expiresAt ← defaulted none (asOption asInt) fields "expires_at"
  let createdAt ← required asInt fields "created_at"
  let updatedAt ← required asInt fields "updated_at"
  let tombstoneOf ← defaulted none (asOption asStr) fields "tombstone_of"
  return {
    schemaVersion, publicId, tier, kind, text, textHash, status, trust, confidence, summaryText
    summaryTokens, provenance, pinned, expiresAt, createdAt, updatedAt, tombstoneOf }

def ExportRow.ofJson? : Json F → Option (ExportRow F)
  | .obj fields => ExportRow.ofFields fields
  | _ => none

/-! ## The header -/

def Header.fields (h : Header) : List (String × Json F) :=
  [("format", .str h.format), ("format_version", .int h.formatVersion),
    ("exported_at", .int h.exportedAt), ("agent_id", .str h.agentId)]

def Header.toJson (h : Header) : Json F := .obj h.fields

/-- A `u32`. -/
def asU32 (v : Json F) : Option Nat :=
  (asInt v).bind fun n => if 0 ≤ n ∧ n ≤ 4294967295 then some n.toNat else none

def Header.ofFields (fields : List (String × Json F)) : Option Header := do
  let format ← required asStr fields "format"
  let formatVersion ← required asU32 fields "format_version"
  let exportedAt ← required asInt fields "exported_at"
  let agentId ← required asStr fields "agent_id"
  return { format, formatVersion, exportedAt, agentId }

def Header.ofJson? : Json F → Option Header
  | .obj fields => Header.ofFields fields
  | _ => none

/-! ## Files -/

/-- Read a value as a record; `explain` is the message of the parser when it is not one. -/
def parsed {α : Type} (explain : Json F → String) (read : Json F → Option α) (v : Json F) :
    Except String α :=
  match read v with
  | some a => .ok a
  | none => .error (explain v)

/-- The file with a header and one line for each value. -/
def readFile (explain : Json F → String) (name : String) (header : Json F) (lines : List (Json F)) :
    ImportFile F where
  name
  header := some (parsed explain Header.ofJson? header)
  lines := lines.map fun v => some (parsed explain ExportRow.ofJson? v)

/-! ## What is written reads back -/

def rowKeys : List String :=
  ["schema_version", "public_id", "tier", "kind", "text", "text_hash", "status", "trust",
    "confidence", "summary_text", "summary_tokens", "provenance", "pinned", "expires_at",
    "created_at", "updated_at", "tombstone_of"]

omit [F64 F] in
private theorem fields_keys (row : ExportRow F) : (row.fields.map Prod.fst).Sublist rowKeys := by
  simp only [ExportRow.fields, List.map_append]
  exact ((((List.Sublist.refl _).append skipNone_keys).append (List.Sublist.refl _)).append
    skipNone_keys |>.append (List.Sublist.refl _)).append skipNone_keys

omit [F64 F] in
private theorem fields_nodup (row : ExportRow F) : (row.fields.map Prod.fst).Nodup :=
  (fields_keys row).nodup (by decide)

omit [F64 F] in
private theorem provenance_roundTrip (p : Provenance) :
    Provenance.ofJson? (.obj (F := F) p.fields) = some p := by
  obtain ⟨sourceKind, sourceRef⟩ := p
  cases sourceRef <;> rfl

/-- A row that is written reads back as it was. -/
theorem row_roundTrip (row : ExportRow F) : ExportRow.ofJson? row.toJson = some row := by
  have hread : ∀ (name : String) (v : Json F), (name, v) ∈ row.fields →
      ∀ {α : Type} (read : Json F → Option α), required read row.fields name = read v :=
    fun _ _ h _ _ => required_of_mem (fields_nodup row) h
  have hdefault : ∀ (name : String) (v : Json F), (name, v) ∈ row.fields →
      ∀ {α : Type} (default : α) (read : Json F → Option α),
        defaulted default read row.fields name = read v :=
    fun _ _ h _ _ _ => defaulted_of_mem (fields_nodup row) h
  have hsummary : defaulted none (asOption asStr) row.fields "summary_text" =
      some row.summaryText := by
    apply defaulted_skipNone .str (fun _ => rfl) (fields_nodup row)
    · intro f hf
      simp [ExportRow.fields, hf]
    · intro hnone
      simp [ExportRow.fields, hnone, not_mem_skipNone]
  have hexpires : defaulted none (asOption asInt) row.fields "expires_at" =
      some row.expiresAt := by
    apply defaulted_skipNone .int (fun _ => rfl) (fields_nodup row)
    · intro f hf
      simp [ExportRow.fields, hf]
    · intro hnone
      simp [ExportRow.fields, hnone, not_mem_skipNone]
  have htombstone : defaulted none (asOption asStr) row.fields "tombstone_of" =
      some row.tombstoneOf := by
    apply defaulted_skipNone .str (fun _ => rfl) (fields_nodup row)
    · intro f hf
      simp [ExportRow.fields, hf]
    · intro hnone
      simp [ExportRow.fields, hnone, not_mem_skipNone]
  show ExportRow.ofFields row.fields = _
  unfold ExportRow.ofFields
  rw [hread "schema_version" (.int row.schemaVersion) (by simp [ExportRow.fields]),
    hread "public_id" (.str row.publicId) (by simp [ExportRow.fields]),
    hread "tier" (.str row.tier) (by simp [ExportRow.fields]),
    hread "kind" (.str row.kind) (by simp [ExportRow.fields]),
    hread "text" (.str row.text) (by simp [ExportRow.fields]),
    hread "text_hash" (.str row.textHash) (by simp [ExportRow.fields]),
    hread "status" (.str row.status) (by simp [ExportRow.fields]),
    hread "trust" (.str row.trust) (by simp [ExportRow.fields]),
    hread "confidence" (.num row.confidence) (by simp [ExportRow.fields]), hsummary,
    hdefault "summary_tokens" (.int row.summaryTokens) (by simp [ExportRow.fields]),
    hread "provenance" (.obj row.provenance.fields) (by simp [ExportRow.fields]),
    hdefault "pinned" (.int row.pinned) (by simp [ExportRow.fields]), hexpires,
    hread "created_at" (.int row.createdAt) (by simp [ExportRow.fields]),
    hread "updated_at" (.int row.updatedAt) (by simp [ExportRow.fields]), htombstone,
    provenance_roundTrip]
  rfl

omit [F64 F] in
theorem header_roundTrip (h : Header) (hversion : h.formatVersion ≤ 4294967295) :
    Header.ofJson? (h.toJson (F := F)) = some h := by
  have hu32 : asU32 (F := F) (.int h.formatVersion) = some h.formatVersion := by
    have hrange : (0 : Int) ≤ h.formatVersion ∧ (h.formatVersion : Int) ≤ 4294967295 := by omega
    show (if _ then some (h.formatVersion : Int).toNat else none) = _
    rw [if_pos hrange, Int.toNat_natCast]
  have hkeys : ((h.fields (F := F)).map Prod.fst).Nodup := by
    show ["format", "format_version", "exported_at", "agent_id"].Nodup
    decide
  have hread : ∀ (name : String) (v : Json F), (name, v) ∈ h.fields →
      ∀ {α : Type} (read : Json F → Option α), required read h.fields name = read v :=
    fun _ _ hmem _ _ => required_of_mem hkeys hmem
  show Header.ofFields h.fields = _
  unfold Header.ofFields
  rw [hread "format" (.str h.format) (by simp [Header.fields]),
    hread "format_version" (.int h.formatVersion) (by simp [Header.fields]),
    hread "exported_at" (.int h.exportedAt) (by simp [Header.fields]),
    hread "agent_id" (.str h.agentId) (by simp [Header.fields]), hu32]
  rfl

end AgosMemory.Export
