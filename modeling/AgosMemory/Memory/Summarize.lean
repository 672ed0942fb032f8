import AgosMemory.Library.Clients
import AgosMemory.Memory.Extract

/-!
# Summarization

A memory is read, the chat client is asked for a summary of its text, and the answer is written to the
row by id. Other calls may come in between, so a summarization is a client of the store. The ledger
entry of the call is left out: nothing here reads it and its failure is ignored.
-/

namespace AgosMemory.Summarize

open Library Store
open Library.Client hiding fail lift onlyIf forEach foldEach attempt

variable {F : Type} [F64 F]

/-- Summarization prompt for the chat client. -/
def SUMMARIZATION_PROMPT : String :=
  "You are a precise summarization engine. Given a memory text, produce a concise summary that " ++
  "preserves the key facts, entities, and actionable information. The summary must be " ++
  "self-contained and usable as a standalone replacement for the original text when space is " ++
  "limited.\n\nRules:\n" ++
  "- Preserve all specific facts, dates, numbers, names, and decisions.\n" ++
  "- Preserve actionable instructions or commitments.\n" ++
  "- Remove conversational filler, hedging, and redundancy.\n" ++
  "- Do not add information not present in the original.\n" ++
  "- Target length: 1/3 to 1/2 of original token count, but never exceed 500 tokens.\n" ++
  "- Output ONLY the summary text, no preamble or formatting."

def promptFor (text : String) : String :=
  SUMMARIZATION_PROMPT ++ "\n\nText to summarize:\n" ++ text

/-- What a summarization calls: the chat client, the token counter and the ROUGE-L score. -/
structure Tools (F : Type) where
  chat : Extract.Chat
  count : String → Nat
  rougeL : String → String → F

/-- Days after which a row of a tier is due; zero is never. -/
structure MemoryConfig where
  working : Nat
  episodic : Nat
  semantic : Nat
  procedural : Nat
  deriving DecidableEq, Repr

def MemoryConfig.summarizeAfterDays (cfg : MemoryConfig) (tier : String) : Nat :=
  if tier = "working" then cfg.working
  else if tier = "episodic" then cfg.episodic
  else if tier = "semantic" then cfg.semantic
  else if tier = "procedural" then cfg.procedural
  else 0

/-- A summary that was written: the row, the text that was read and the summary of it. -/
structure Written where
  id : Int
  text : String
  summary : String
  deriving DecidableEq, Repr

/-- The store and the prompts sent. `written` is a history variable: the summaries that reached a
row. -/
structure Desk (F : Type) where
  conn : Conn F
  prompts : List String := []
  written : List Written := []

abbrev Run (F α : Type) := Program Error (Desk F) α

abbrev Task (F α : Type) := Client Error (Desk F) α

/-- A call on the store. -/
def onConn {α : Type} (m : Write F α) : Run F α := fun d =>
  ((m d.conn).1, { d with conn := (m d.conn).2 })

/-- Ask the chat client. -/
def complete (chat : Extract.Chat) (prompt : String) : Run F String := fun d =>
  (chat.complete d.prompts.length prompt, { d with prompts := d.prompts ++ [prompt] })

/-- Generate a summary. -/
def generateSummary (chat : Extract.Chat) (text : String) : Task F String := do
  let response ← call (complete chat (promptFor text))
  return Text.trim response

/-- The writer closure: one `UPDATE`, by id. -/
def writeSummary (env : Env F) (memory : MemoryRow) (summary : String) (tokens : Int) :
    Run F Unit := fun d =>
  match setSummary env memory.id summary tokens d.conn with
  | (.ok (), c) => (.ok (), { d with
      conn := c
      written := d.written ++
        (d.conn.db.memory? memory.id).toList.map fun _ => ⟨memory.id, memory.text, summary⟩ })
  | (.error e, c) => (.error e, { d with conn := c })

/-- Outcome of a summarization operation. -/
structure SummarizeReport (F : Type) where
  memory : MemoryRow
  summaryText : String
  summaryTokens : Int
  qualityScore : F
  overwrote : Bool

/-- A row that was read: ask, write, read back. -/
def summarizeRow (env : Env F) (tools : Tools F) (memory : MemoryRow) (overwrote : Bool) :
    Task F (SummarizeReport F) := do
  let summary ← generateSummary tools.chat memory.text
  let tokens : Int := tools.count summary
  call (writeSummary env memory summary tokens)
  match ← call (onConn (getMemory env memory.publicId)) with
  | none => Client.fail (.invalidInput "memory not found after update")
  | some updated =>
    return ⟨updated, summary, tokens, tools.rougeL memory.text summary, overwrote⟩

/-- Summarize a single memory by id. -/
def summarizeById (env : Env F) (tools : Tools F) (memoryId : Int) (force : Bool) :
    Task F (SummarizeReport F) := do
  match ← call (onConn (getMemoryById env memoryId)) with
  | none => Client.fail (.invalidInput ("memory " ++ toString memoryId ++ " not found"))
  | some memory =>
    let overwrote := memory.summaryText.isSome
    if !force && overwrote then
      Client.fail (.invalidInput "memory already has a summary; use --force to overwrite")
    else summarizeRow env tools memory overwrote

/-- The rows of a tier without a summary that are older than the cutoff, oldest first. -/
def dueRows (env : Env F) (tier : String) (cutoff : Int) : Write F (List MemoryRow) :=
  query env fun db =>
    let due := db.memories.filter fun m => m.tier.sql = tier ∧ m.summaryText = none ∧
      m.status ≠ .deleted ∧ m.createdAt < cutoff
    .ok ((due.insertionSort fun a b => a.createdAt ≤ b.createdAt).map rowOf)

/-- Milliseconds of a day. -/
def DAY_MILLIS : Int := 24 * 60 * 60 * 1000

/-- Summarize all memories in a tier that don't have a summary and are old enough. -/
def summarizeTier (env : Env F) (tools : Tools F) (cfg : MemoryConfig) (tier : String) :
    Task F (List (SummarizeReport F)) :=
  let days := cfg.summarizeAfterDays tier
  if days = 0 then pure []
  else do
    let now ← call (onConn (nowMillis env))
    let memories ← call (onConn (dueRows env tier (now - days * DAY_MILLIS)))
    Client.foldEach memories [] fun reports memory => do
      let report ← summarizeRow env tools memory false
      return reports ++ [report]

def TIERS : List String := ["working", "episodic", "semantic", "procedural"]

/-- Summarize all memories across every tier. -/
def summarizeAll (env : Env F) (tools : Tools F) (cfg : MemoryConfig) :
    Task F (List (SummarizeReport F)) :=
  Client.foldEach TIERS [] fun all tier => do
    let reports ← summarizeTier env tools cfg tier
    return all ++ reports

/-- Periodic summarization job. -/
def runSummarizationJob (env : Env F) (tools : Tools F) (cfg : MemoryConfig) : Task F Nat :=
  Client.foldEach TIERS 0 fun total tier => do
    let reports ← summarizeTier env tools cfg tier
    return total + reports.length

end AgosMemory.Summarize
