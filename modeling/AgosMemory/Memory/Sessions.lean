import AgosMemory.Storage.Store
import Mathlib.Data.List.Sort

/-!
# Sessions and turns

The raw conversation log: sessions are opened and closed, turns are appended with the next sequence
number of their session.
-/

namespace AgosMemory.Sessions

open Library Library.Program Store

variable {F : Type} [F64 F]

/-- Valid turn roles (matches the schema `CHECK`). -/
def ROLES : List String := ["user", "assistant", "system", "tool"]

/-- Open a session for `agentId`; returns the row. -/
def openSession (env : Env F) (agentId : String) : Write F Session :=
  if Text.trim agentId = "" then fail (.invalidInput "agent_id must not be empty")
  else do
    let publicId ← newUuid env
    let now ← nowMillis env
    exec env fun db =>
      if db.sessions.any fun s => s.publicId = publicId then
        .error (.storage "UNIQUE constraint failed: sessions.public_id")
      else
        let s : Session := { id := db.sessionSeq + 1, publicId, agentId, startedAt := now }
        .ok (s, { db with sessions := db.sessions ++ [s], sessionSeq := s.id })

/-- `SELECT COALESCE(MAX(seq), 0) + 1 FROM turns WHERE session_id = ?1` -/
def nextSeq (db : Db F) (sessionId : Int) : Int :=
  ((db.turns.filter fun t => t.sessionId = sessionId).map Turn.seq).max?.getD 0 + 1

/-- Append a turn; `seq` is assigned as `max+1` inside the writer closure. -/
def appendTurn (env : Env F) (sessionId : Int) (role content : String) : Write F Turn :=
  if role ∉ ROLES then
    fail (.invalidInput ("role must be one of user/assistant/system/tool, got '" ++ role ++ "'"))
  else if content = "" then fail (.invalidInput "turn content must not be empty")
  else do
    let now ← nowMillis env
    let found ← query env fun db =>
      .ok (db.sessions.any fun s => s.id = sessionId ∧ s.isOpen)
    if !found then
      fail (.invalidInput ("session " ++ toString sessionId ++ " does not exist or is closed"))
    else do
      let seq ← query env fun db => .ok (nextSeq db sessionId)
      let t : Turn := ⟨sessionId, seq, role, content, env.sha256Hex content, now⟩
      run env fun db => { db with turns := db.turns ++ [t] }
      return t

/-- `end_reason` vocabulary (matches the schema `CHECK`). -/
def REASONS : List String := ["explicit", "idle", "forced"]

def endSession (now : Int) (reason : String) (s : Session) : Session :=
  { s with isOpen := false, endedAt := some now, endReason := some reason }

/-- `UPDATE sessions SET status = 'closed', ended_at, end_reason WHERE ...` -/
def endWhere (which : Session → Bool) (now : Int) (reason : String) (db : Db F) : Db F :=
  { db with sessions := db.sessions.map fun s => if which s then endSession now reason s else s }

/-- The writer closure of `closeSession`. -/
def closeJob (env : Env F) (sessionId : Int) (reason : String) (now : Int) : Write F Unit := do
  let which (s : Session) : Bool := s.id = sessionId ∧ s.isOpen
  let n ← exec env fun db => .ok (db.sessions.countP which, endWhere which now reason db)
  if n = 0 then fail (.invalidInput
    ("session " ++ toString sessionId ++ " does not exist or is already closed"))
  else pure ()

/-- Close a session with `reason` (explicit / idle / forced). -/
def closeSession (env : Env F) (sessionId : Int) (reason : String) : Write F Unit :=
  if reason ∉ REASONS then fail (.invalidInput
    ("end_reason must be explicit/idle/forced, got '" ++ reason ++ "'"))
  else do
    let now ← nowMillis env
    closeJob env sessionId reason now

/-- `COALESCE((SELECT MAX(created_at) FROM turns WHERE turns.session_id = sessions.id), started_at)` -/
def lastActivity (db : Db F) (s : Session) : Int :=
  ((db.turns.filter fun t => t.sessionId = s.id).map Turn.createdAt).max?.getD s.startedAt

/-- The writer closure of `closeIdleSessions`: the ids are those of the sessions that ended at `now`
as idle. -/
def closeIdleJob (env : Env F) (now cutoff : Int) : Write F (List Int) := do
  run env fun db => endWhere (fun s => s.isOpen ∧ lastActivity db s < cutoff) now "idle" db
  query env fun db => .ok ((db.sessions.filter fun s =>
    !s.isOpen ∧ s.endReason = some "idle" ∧ s.endedAt = some now).map Session.id)

/-- Close sessions idle longer than `idleMinutes`; returns the ids closed. -/
def closeIdleSessions (env : Env F) (idleMinutes : Nat) : Write F (List Int) := do
  let before ← nowMillis env
  let now ← nowMillis env
  closeIdleJob env now (wrapI64 (before - wrapI64 (wrapI64 idleMinutes * 60000)))

/-- Latest open session for an agent, if any. -/
def latestOpen (db : Db F) (agentId : String) : Option Session :=
  ((db.sessions.filter fun s => s.agentId = agentId ∧ s.isOpen).insertionSort
    fun a b => b.startedAt ≤ a.startedAt).head?

def getOpenSession (env : Env F) (agentId : String) : Write F (Option Session) :=
  query env fun db => .ok (latestOpen db agentId)

end AgosMemory.Sessions
