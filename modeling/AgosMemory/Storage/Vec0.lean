import AgosMemory.Library.Bitmap
import AgosMemory.Storage.Schema
import Mathlib.Data.List.Sort

/-!
# The chunks of the vector table

`vec0` keeps its rows in chunks of fixed size. A chunk has a bitmap of the positions in use, the rowid of
each position and what the columns hold there; `_rowids` says where a row is. A row goes to the first
free position of the newest chunk, or to a new chunk. A deleted row is zeroed, and a chunk with no row
left is dropped.
-/

namespace AgosMemory.Vec0

open Library

variable {α : Type}

/-! ## The shadow tables -/

/-- What the declaration of the table fixes: the positions of a chunk, the bytes of a vector, what a
zeroed position holds, and the checks of an inserted row. -/
structure Layout (α : Type) where
  chunkSize : Nat
  positive : 0 < chunkSize
  whole : 8 ∣ chunkSize
  width : Nat
  blank : α
  check : α → Except Error Unit

/-- A row of `_chunks`, with the vector chunk and the metadata chunks of the same rowid. -/
structure Chunk (α : Type) where
  id : Int
  validity : Bitmap
  rowids : List Int
  columns : List α

/-- A row of `_rowids`. -/
structure RowidsRow where
  rowid : Int
  chunkId : Int
  chunkOffset : Nat
  deriving DecidableEq

/-- By chunk, and in a chunk by position. -/
def RowidsRow.Upto (r r' : RowidsRow) : Prop :=
  r.chunkId < r'.chunkId ∨ r.chunkId = r'.chunkId ∧ r.chunkOffset ≤ r'.chunkOffset

instance : DecidableRel RowidsRow.Upto := fun _ _ => inferInstanceAs (Decidable (_ ∨ _))

structure Table (α : Type) where
  chunks : List (Chunk α) := []
  chunkSeq : Int := 0
  rowids : List RowidsRow := []

namespace Table

/-- `SELECT id, chunk_id, chunk_offset FROM _rowids WHERE rowid = ?` -/
def position? (t : Table α) (rowid : Int) : Option RowidsRow := t.rowids.find? fun r => r.rowid = rowid

def chunk? (t : Table α) (id : Int) : Option (Chunk α) := t.chunks.find? fun c => c.id = id

/-- `SELECT max(rowid) FROM _chunks` -/
def latestChunk? (t : Table α) : Option (Chunk α) :=
  t.chunks.find? fun c => some c.id = (t.chunks.map Chunk.id).max?

/-- A write to a blob of one chunk. -/
def updateChunk (t : Table α) (id : Int) (f : Chunk α → Chunk α) : Table α :=
  { t with chunks := t.chunks.map fun c => if c.id = id then f c else c }

/-- `vec0_rowids_update_position` -/
def updatePosition (t : Table α) (rowid chunkId : Int) (chunkOffset : Nat) : Table α :=
  { t with rowids := t.rowids.map fun r => if r.rowid = rowid then ⟨rowid, chunkId, chunkOffset⟩ else r }

/-- `DELETE FROM _rowids WHERE rowid = ?` -/
def deleteRowids (t : Table α) (rowid : Int) : Table α :=
  { t with rowids := t.rowids.filter fun r => r.rowid ≠ rowid }

end Table

/-! ## Inserting -/

def blankChunk (layout : Layout α) (id : Int) : Chunk α where
  id := id
  validity := Bitmap.zero layout.chunkSize
  rowids := List.replicate layout.chunkSize 0
  columns := List.replicate layout.chunkSize layout.blank

/-- A blank chunk of the next id. -/
def newChunk (layout : Layout α) (t : Table α) : Table α :=
  { t with
    chunks := t.chunks ++ [blankChunk layout (t.chunkSeq + 1)]
    chunkSeq := t.chunkSeq + 1 }

/-- The new row of `_rowids` has no position yet; a `NULL` reads as `0`. -/
def insertRowidStep (rowid : Int) (t : Table α) : Except Error (Table α) :=
  if t.rowids.any fun r => r.rowid = rowid then
    .error (.storage "UNIQUE constraint failed on vec_memories primary key")
  else .ok { t with rowids := t.rowids ++ [⟨rowid, 0, 0⟩] }

structure Available (α : Type) where
  table : Table α
  chunkId : Int
  chunkOffset : Nat

def fresh (layout : Layout α) (t : Table α) : Available α := ⟨newChunk layout t, t.chunkSeq + 1, 0⟩

/-- The next available position: the first clear bit of the latest chunk, or the first position of a
new one. -/
def insertNextAvailableStep (layout : Layout α) (t : Table α) : Except Error (Available α) :=
  match t.latestChunk? with
  | none => .ok (fresh layout t)
  | some c =>
    if c.validity.length ≠ layout.chunkSize / 8 then
      .error (.storage ("Internal sqlite-vec error: validity blob size mismatch on " ++
        s!"main.vec_memories_chunks.{c.id}, expected {layout.chunkSize / 8} but received " ++
        s!"{c.validity.length}."))
    else
      match c.validity.firstClear with
      | some offset => .ok ⟨t, c.id, offset⟩
      | none => .ok (fresh layout t)

/-- Mark the position as valid, write the columns and the rowid, and record the position. -/
def insertWriteFinalStep (layout : Layout α) (rowid : Int) (value : α) (a : Available α) :
    Except Error (Table α) :=
  match a.table.chunk? a.chunkId with
  | none =>
    .error (.storage s!"Error opening vector blob at main.vec_memories_vector_chunks00.{a.chunkId}")
  | some c =>
    if c.columns.length ≠ layout.chunkSize then
      .error (.storage ("Internal sqlite-vec error: vector blob size mismatch on " ++
        s!"main.vec_memories_vector_chunks00.{a.chunkId}. Expected " ++
        s!"{layout.chunkSize * layout.width}, actual {c.columns.length * layout.width}"))
    else if c.rowids.length ≠ layout.chunkSize then
      .error (.storage ("Internal sqlite-vec error: rowids blob size mismatch on " ++
        s!"main.vec_memories_chunks.{a.chunkId}. Expected {layout.chunkSize * 8}, actual " ++
        s!"{c.rowids.length * 8}"))
    else
      .ok ((a.table.updateChunk a.chunkId fun c =>
        { c with
          validity := c.validity.set a.chunkOffset true
          columns := c.columns.set a.chunkOffset value
          rowids := c.rowids.set a.chunkOffset rowid }).updatePosition rowid a.chunkId a.chunkOffset)

/-- `vec0Update_Insert` -/
def insert (layout : Layout α) (rowid : Int) (value : α) (t : Table α) : Except Error (Table α) := do
  layout.check value
  let t ← insertRowidStep rowid t
  let a ← insertNextAvailableStep layout t
  insertWriteFinalStep layout rowid value a

/-! ## Reading, updating and deleting -/

/-- The point query: the columns of a row, read where `_rowids` says it is. -/
def read (t : Table α) (rowid : Int) : Except Error (Option α) :=
  match t.position? rowid with
  | none => .ok none
  | some r =>
    match t.chunk? r.chunkId with
    | none => .error (.storage s!"Could not fetch vector data for {rowid}, opening blob failed")
    | some c =>
      match c.columns[r.chunkOffset]? with
      | none => .error (.storage s!"Could not fetch vector data for {rowid}, reading from blob failed")
      | some value => .ok (some value)

def scanRow (t : Table α) (rowid : Int) : Except Error (Int × α) := do
  match ← read t rowid with
  | none => .error (.storage "unknown error")
  | some value => return (rowid, value)

/-- `vec0Filter_fullscan`: `SELECT rowid FROM _rowids ORDER BY chunk_id, chunk_offset`, and the columns
of each row. -/
def fullscan (t : Table α) : Except Error (List (Int × α)) :=
  ((t.rowids.insertionSort RowidsRow.Upto).map RowidsRow.rowid).mapM (scanRow t)

def Chunk.revise (i : Nat) (f : α → α) (c : Chunk α) : Chunk α :=
  { c with columns := c.columns.modify i f }

/-- `vec0Update_Update` -/
def update (rowid : Int) (f : α → α) (t : Table α) : Except Error (Table α) :=
  match t.position? rowid with
  | none => .error (.storage "unknown error")
  | some r =>
    match t.chunk? r.chunkId with
    | none => .error (.storage s!"no such rowid: {r.chunkId}")
    | some c =>
      if c.columns.length ≤ r.chunkOffset then .error (.storage "SQL logic error")
      else .ok (t.updateChunk r.chunkId (Chunk.revise r.chunkOffset f))

def Chunk.clearBit (i : Nat) (c : Chunk α) : Chunk α := { c with validity := c.validity.set i false }

def Chunk.zeroRowid (i : Nat) (c : Chunk α) : Chunk α := { c with rowids := c.rowids.set i 0 }

def Chunk.zeroColumns (layout : Layout α) (i : Nat) (c : Chunk α) : Chunk α :=
  { c with columns := c.columns.set i layout.blank }

/-- Clear a validity bit that is set, or has a higher one beside it. -/
def clearValidity (chunkId : Int) (chunkOffset : Nat) (t : Table α) : Except Error (Table α) :=
  match t.chunk? chunkId with
  | none =>
    .error (.storage s!"could not open validity blob for main.vec_memories_chunks.{chunkId}")
  | some c =>
    match c.validity[chunkOffset / 8]? with
    | none =>
      .error (.storage (s!"could not read validity blob for main.vec_memories_chunks.{chunkId} " ++
        s!"at {chunkOffset / 8}"))
    | some bx =>
      if bx >>> (chunkOffset % 8) = 0 then
        .error (.storage ("vec0 deletion error: validity bit is not set for " ++
          s!"main.vec_memories_chunks.{chunkId} at {chunkOffset / 8}"))
      else .ok (t.updateChunk chunkId (Chunk.clearBit chunkOffset))

def clearRowid (chunkId : Int) (chunkOffset : Nat) (t : Table α) : Except Error (Table α) :=
  match t.chunk? chunkId with
  | none => .error (.storage s!"could not open rowids blob for main.vec_memories_chunks.{chunkId}")
  | some c =>
    if c.rowids.length ≤ chunkOffset then
      .error (.storage (s!"could not write to rowids blob for main.vec_memories_chunks.{chunkId} " ++
        s!"at {chunkOffset}"))
    else .ok (t.updateChunk chunkId (Chunk.zeroRowid chunkOffset))

/-- `vec0Update_Delete_ClearVectors`, and of each metadata column `vec0Update_Delete_ClearMetadata`. -/
def clearColumns (layout : Layout α) (chunkId : Int) (chunkOffset : Nat) (t : Table α) :
    Except Error (Table α) :=
  match t.chunk? chunkId with
  | none =>
    .error (.storage (s!"could not open vector blob for main.vec_memories_vector_chunks00.{chunkId} " ++
      "column 0"))
  | some c =>
    if c.columns.length ≤ chunkOffset then
      .error (.storage ("could not write to vector blob for " ++
        s!"main.vec_memories_vector_chunks00.{chunkId} at {chunkOffset} column 0"))
    else .ok (t.updateChunk chunkId (Chunk.zeroColumns layout chunkOffset))

def deleteChunkIfEmpty (chunkId : Int) (t : Table α) : Except Error (Table α) :=
  match t.chunk? chunkId with
  | none => .error (.storage s!"could not open validity blob for chunk {chunkId}")
  | some c =>
    if c.validity.all fun x => x = 0 then
      .ok { t with chunks := t.chunks.filter fun c => c.id ≠ chunkId }
    else .ok t

/-- `vec0Update_Delete` -/
def delete (layout : Layout α) (rowid : Int) (t : Table α) : Except Error (Table α) :=
  match t.position? rowid with
  | none => .error (.storage "unknown error")
  | some r => do
    let t ← clearValidity r.chunkId r.chunkOffset t
    let t ← clearRowid r.chunkId r.chunkOffset t
    let t ← clearColumns layout r.chunkId r.chunkOffset t
    deleteChunkIfEmpty r.chunkId (t.deleteRowids rowid)

/-! ## Statements -/

inductive Statement (α : Type)
  | insert (rowid : Int) (value : α)
  | update (rowid : Int) (f : α → α)
  | delete (rowid : Int)

/-- A statement; the point query gives an `UPDATE` or a `DELETE` its rows. -/
def Statement.run (layout : Layout α) : Statement α → Table α → Except Error (Table α)
  | insert rowid value, t => Vec0.insert layout rowid value t
  | update rowid f, t => do
    match ← read t rowid with
    | none => return t
    | some _ => Vec0.update rowid f t
  | delete rowid, t => do
    match ← read t rowid with
    | none => return t
    | some _ => Vec0.delete layout rowid t

/-- The statement on a plain list of rows. -/
def Statement.plain (layout : Layout α) :
    Statement α → List (Int × α) → Except Error (List (Int × α))
  | insert rowid value, rows =>
    match layout.check value with
    | .error e => .error e
    | .ok _ =>
      if rows.any fun row => row.1 = rowid then
        .error (.storage "UNIQUE constraint failed on vec_memories primary key")
      else .ok (rows ++ [(rowid, value)])
  | update rowid f, rows => .ok (rows.map fun row => if row.1 = rowid then (row.1, f row.2) else row)
  | delete rowid, rows => .ok (rows.filter fun row => row.1 ≠ rowid)

section

variable {σ : Type}

/-- A statement that fails is rolled back. -/
def settled (s : σ) : Except Error σ → σ
  | .ok s' => s'
  | .error _ => s

/-- The outcomes of statements one after the other. -/
def outcomes (run : Statement α → σ → Except Error σ) : List (Statement α) → σ → List (Except Error Unit)
  | [], _ => []
  | s :: rest, state =>
    (run s state).map (fun _ => ()) :: outcomes run rest (settled state (run s state))

def final (run : Statement α → σ → Except Error σ) : List (Statement α) → σ → σ
  | [], state => state
  | s :: rest, state => final run rest (settled state (run s state))

end

end AgosMemory.Vec0
