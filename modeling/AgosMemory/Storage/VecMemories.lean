import AgosMemory.Storage.Positions

/-!
# The table of vectors

`vec_memories` as it is declared to `vec0`, and what its statements leave: the shadow tables, and in
them the position of each row.
-/

namespace AgosMemory.Vec0

variable {F : Type}

/-! ## The declaration -/

/-- The columns of `vec_memories`. -/
structure Columns (F : Type) where
  embedding : List F
  tier : String
  status : Int
  trust : Int
  kind : String
  pinned : Int

/-- `CREATE VIRTUAL TABLE vec_memories USING vec0(embedding float[dim] ...)`, with chunks of the default
size. -/
def vecLayout (F : Type) [F64 F] (dim : Nat) : Layout (Columns F) where
  chunkSize := 1024
  positive := by decide
  whole := by decide
  width := 4 * dim
  blank := ⟨List.replicate dim (F64.ofRat 0), "", 0, 0, "", 0⟩
  check c :=
    if c.embedding.length ≠ dim then
      .error (.storage ("Dimension mismatch for inserted vector for the \"embedding\" column. " ++
        s!"Expected {dim} dimensions but received {c.embedding.length}."))
    else .ok ()

def columnsOf (v : VecRow F) : Columns F :=
  ⟨v.embedding, v.tier.sql, v.status, v.trust, v.kind.sql, v.pinned⟩

def rowOfVec (v : VecRow F) : Int × Columns F := (v.rowid, columnsOf v)

/-- The row of a rowid with these columns. -/
def vecOf? (rowid : Int) (c : Columns F) : Option (VecRow F) := do
  let tier ← Tier.ofSql? c.tier
  let kind ← Kind.ofSql? c.kind
  return ⟨rowid, c.embedding, tier, c.status, c.trust, kind, c.pinned⟩

theorem vecOf?_columnsOf (v : VecRow F) : vecOf? v.rowid (columnsOf v) = some v := by
  obtain ⟨rowid, embedding, tier, status, trust, kind, pinned⟩ := v
  cases tier <;> cases kind <;> rfl

/-! ## The statements -/

/-- The statement as `vec0` runs it. -/
def shadow : VecStatement F → Statement (Columns F)
  | .insert v => .insert v.rowid (columnsOf v)
  | .update rowid f => .update rowid fun c => ((vecOf? rowid c).map fun v => columnsOf (f v)).getD c
  | .delete rowid => .delete rowid

def statements (db : Db F) : List (Statement (Columns F)) := db.vecLog.map shadow

/-- The shadow tables of `vec_memories`. -/
def shadowTables [F64 F] (db : Db F) : Table (Columns F) :=
  final (Statement.run (vecLayout F db.embedDim)) (statements db) {}

/-- The positions of the rows of `vec_memories`. -/
def positions [F64 F] (db : Db F) : Positions :=
  (statements db).foldl (Positions.step (vecLayout F db.embedDim).chunkSize) {}

/-- A vector at its position, with its distance. -/
def cellOf (p : Positions) (dist : List F → F) (v : VecRow F) : Cell F :=
  ⟨(p.of v.rowid).chunkId, (p.of v.rowid).chunkOffset, v.rowid, dist v.embedding⟩

end AgosMemory.Vec0
