import AgosMemory.Runs.Clients

/-!
# Forgetting

`forget` as the API, the MCP tool and the command line offer it: the memory is looked up by its public
id in a read of its own, and the writes go by the row id that was found.
-/

namespace AgosMemory.Forget

open Library Store
open Library.Client hiding fail lift onlyIf forEach foldEach attempt

variable {F : Type} [F64 F]

/-- Arguments of `forget`, for the API and for the MCP tool. -/
structure ForgetInput where
  id : String
  action : Option String := none
  toVersion : Option Int := none
  reason : Option String := none
  deriving DecidableEq, Repr

structure ForgetOutcome where
  publicId : String
  action : String
  toVersion : Option Int := none
  status : Option Status := none
  deriving DecidableEq, Repr

/-- Forget subcommands. The two that list a ledger write nothing and are left out. -/
inductive ForgetCmd where
  | soft (id : String) (reason : Option String)
  | restore (id : String)
  | hard (id : String) (reason : Option String)
  | rollback (id : String) (toVersion : Int)
  deriving DecidableEq, Repr

section

variable (env : Env F)

/-- The memory of a public id, in a step of its own. -/
def lookup (id : String) (missing : Error) : Work F MemoryRow := do
  match ← call (getMemory env id) with
  | none => Client.fail missing
  | some row => return row

/-- What the API and the MCP tool do once the memory is found. -/
def perform (args : ForgetInput) (row : MemoryRow) : Work F ForgetOutcome :=
  let action := args.action.getD "soft"
  if action = "soft" then do
    call (deprecateMemory env row.id (args.reason.or (some "agent")))
    return { publicId := row.publicId, action := "soft" }
  else if action = "restore" then do
    call (restoreMemory env row.id (some "agent"))
    return { publicId := row.publicId, action := "restore" }
  else if action = "hard" then do
    hardPurgeClient env autocommit row.id (some "agent") args.reason "hard_delete"
    return { publicId := row.publicId, action := "hard" }
  else if action = "rollback" then
    match args.toVersion with
    | none => Client.fail (.invalidInput "rollback requires to_version")
    | some toVersion =>
      if toVersion < 1 then Client.fail (.invalidInput "to_version must be >= 1")
      else do
        let rolled ← rollbackClient env autocommit row.id toVersion (some "agent")
        return ⟨rolled.publicId, "rollback", some toVersion, some rolled.status⟩
  else Client.fail (.invalidInput
    ("unknown forget action '" ++ action ++ "' (soft|restore|hard|rollback)"))

/-- `forget` of the API. -/
def forget (args : ForgetInput) : Work F ForgetOutcome :=
  lookup env args.id (.memoryNotFound args.id) >>= perform env args

/-- The line that the MCP tool answers with. -/
def ForgetOutcome.text (o : ForgetOutcome) : String :=
  if o.action = "soft" then "deprecated: " ++ o.publicId ++ " (restorable)"
  else if o.action = "restore" then "restored: " ++ o.publicId
  else if o.action = "hard" then "purged: " ++ o.publicId ++ " (irreversible, tombstoned)"
  else "rolled back: " ++ o.publicId ++ " to v" ++ toString (o.toVersion.getD 0) ++ " (" ++
    (o.status.elim "" Status.sql) ++ ")"

/-- The `forget` tool. An error goes out with the code that `proto` gives it, which is left out. -/
def forgetTool (args : ForgetInput) : Work F (String × ForgetOutcome) := do
  let row ← lookup env args.id (.invalidInput ("memory " ++ args.id ++ " not found"))
  let outcome ← perform env args row
  return (outcome.text, outcome)

/-- The memory a subcommand names. -/
def lookupCmd (id : String) : Work F MemoryRow :=
  lookup env id (.invalidInput ("memory " ++ id ++ " not found"))

/-- The `forget` command, with the lines it prints. -/
def forgetCmd : ForgetCmd → Work F (List String)
  | .soft id reason => do
    let row ← lookupCmd env id
    call (deprecateMemory env row.id (some "agent"))
    return ("deprecated: " ++ row.publicId ++ " (" ++ row.status.sql ++ ")") ::
      reason.toList.map fun r => "reason: " ++ r
  | .restore id => do
    let row ← lookupCmd env id
    call (restoreMemory env row.id (some "agent"))
    return ["restored: " ++ row.publicId ++ " (" ++ row.status.sql ++ ")"]
  | .hard id reason => do
    let row ← lookupCmd env id
    hardPurgeClient env autocommit row.id (some "agent") reason "hard_delete"
    return ["hard-purged: " ++ row.publicId ++ " (tombstone written)"]
  | .rollback id toVersion => do
    let row ← lookupCmd env id
    if toVersion < 1 then Client.fail (.invalidInput "to-version must be >= 1")
    else do
      let rolled ← rollbackClient env autocommit row.id toVersion (some "agent")
      return ["rolled back: " ++ rolled.publicId ++ " to v" ++ toString toVersion ++ " (" ++
        rolled.status.sql ++ ")"]

end

/-! ## Requests -/

/-- A call of one of the three surfaces, or an operation of the store. The two TTL operations among
these are the requests of the reaper. -/
inductive Request (F : Type) where
  | api (args : ForgetInput)
  | mcp (args : ForgetInput)
  | cli (cmd : ForgetCmd)
  | op (op : Op F)

def Request.client (env : Env F) : Request F → Work F Unit
  | api args => forget env args >>= fun _ => pure ()
  | mcp args => forgetTool env args >>= fun _ => pure ()
  | cli cmd => forgetCmd env cmd >>= fun _ => pure ()
  | op o => o.client env autocommit

/-- How a memory is named. -/
inductive Target where
  | publicId (publicId : String)
  | row (id : Int)
  deriving DecidableEq, Repr

/-- The state that is asked for. -/
inductive Change where
  | soft | restore | hard
  deriving DecidableEq, Repr

/-- What a request asks for: the change, and what the ledger is to say of it. -/
structure Asked where
  target : Target
  change : Change
  action : String
  requester : String
  reason : Option String
  deriving DecidableEq, Repr

/-- The agent is the requester on all three surfaces. -/
def ForgetInput.asked? (args : ForgetInput) : Option Asked :=
  let action := args.action.getD "soft"
  if action = "soft" then some ⟨.publicId args.id, .soft, "deprecate", "agent", args.reason⟩
  else if action = "restore" then
    some ⟨.publicId args.id, .restore, "restore", "agent", args.reason⟩
  else if action = "hard" then
    some ⟨.publicId args.id, .hard, "hard_delete", "agent", args.reason⟩
  else none

def ForgetCmd.asked? : ForgetCmd → Option Asked
  | soft id reason => some ⟨.publicId id, .soft, "deprecate", "agent", reason⟩
  | restore id => some ⟨.publicId id, .restore, "restore", "agent", none⟩
  | hard id reason => some ⟨.publicId id, .hard, "hard_delete", "agent", reason⟩
  | rollback .. => none

/-- The reaper gives its own reasons. -/
def Request.asked? : Request F → Option Asked
  | api args | mcp args => args.asked?
  | cli cmd => cmd.asked?
  | op (.deprecateForTtl id) =>
    some ⟨.row id, .soft, "ttl_deprecate", "ttl-reaper", some "TTL expired"⟩
  | op (.hardPurgeForTtl id) =>
    some ⟨.row id, .hard, "ttl_purge", "ttl-reaper", some "TTL grace period expired"⟩
  | op _ => none

end AgosMemory.Forget
