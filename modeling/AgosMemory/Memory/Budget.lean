import AgosMemory.Memory.Summarize
import AgosMemory.Observe.Ledger
import AgosMemory.Runs.Sessions

/-!
# The token ceiling of a session

What is recorded for a session is compared with the ceiling before an extraction of it, and before a fact
is remembered while it is open. Reading the ledger, calling the provider and recording the call are steps
of their own, between which any other call may run. A call that could not be recorded leaves a warning.
-/

namespace AgosMemory.Budget

open Library Store Ledger
open Library.Client hiding fail lift onlyIf forEach foldEach attempt

variable {F : Type} [F64 F]

inductive Error where
  | budgetExceeded (used ceiling : Nat)
  | other (e : AgosMemory.Error)
  deriving DecidableEq, Repr

/-- The store with its watermarks, the rows of `llm_calls`, how many recordings were tried, and the entries
that a warning names because they could not be recorded. `asked` is a history variable: session, prompt and
answer, if there was one, of each chat call for an extraction. -/
structure Billing (F : Type) where
  ext : Extract.Extraction F
  calls : List (LlmCall F) := []
  callSeq : Int := 0
  recordings : Nat := 0
  warned : List (LedgerEntry F) := []
  asked : List (Int × String × Option String) := []

abbrev Bill (F α : Type) := Program Error (Billing F) α

/-- One call's work as seen by the other calls. -/
abbrev Job (F α : Type) := Client Error (Billing F) α

inductive EmbedProvider where
  | none | hash | openAiCompat
  deriving DecidableEq, Repr

/-- The configuration that these calls read. -/
structure Config (F : Type) where
  maxTokensPerSession : Nat
  provider : EmbedProvider
  embedModel : String
  pendingThreshold : F
  dedupThreshold : F

/-- What these calls use: the chat client with its model, the JSON readers of answers and of job payloads
(the integer under `session`, if there is one), the embedder that the configuration builds for a dimension
and the one of the server, how long provider call number `n` took, and the time that recording number `n`
reads, or its failure. -/
structure Tools (F : Type) where
  chat : Extract.Chat
  chatModel : String
  json : Extract.Json F
  payload : String → Except String (Option Int)
  embedder : Nat → Embedder F
  serverEmbedder : Embedder F
  elapsed : Nat → Nat
  recordedAt : Nat → Except AgosMemory.Error Int

section

variable (env : Env F)

/-! ## Steps -/

/-- A step of the extraction state. -/
def onExt {α : Type} (m : Extract.Run F α) : Bill F α := fun s =>
  ((m s.ext).1.mapError .other, { s with ext := (m s.ext).2 })

/-- A read or a writer closure of the store. -/
def onStore {α : Type} (m : Write F α) : Bill F α := onExt (Extract.onConn m)

/-- `REFERENCES sessions(id)` -/
def checkSession (db : Db F) (sessionId : Option Int) : Except AgosMemory.Error Unit :=
  if sessionId.all fun id => db.sessions.any fun s => s.id = id then .ok ()
  else .error (.storage "FOREIGN KEY constraint failed")

/-- Read what is recorded for a session. -/
def readTokens (sessionId : Int) : Bill F Nat := fun s =>
  match onStore (query env fun _ => .ok ()) s with
  | (.ok _, t) => ((tokensForSession t.calls sessionId).mapError .other, t)
  | (.error e, t) => (.error e, t)

variable (cfg : Config F) (tools : Tools F)

/-- Record an entry through the writer. -/
def recordEntry (entry : LedgerEntry F) : Bill F Unit := fun s =>
  let tried := { s with recordings := s.recordings + 1 }
  match tools.recordedAt s.recordings with
  | .error e => (.error (.other e), tried)
  | .ok now =>
    match checkSession s.ext.conn.db entry.sessionId with
    | .error e => (.error (.other e), tried)
    | .ok () => (.ok (), { tried with
        calls := s.calls ++ [entry.row (s.callSeq + 1) now], callSeq := s.callSeq + 1 })

/-- The provider call already happened, so a failure to record it is a warning only. -/
def recordOrWarn (entry : LedgerEntry F) : Bill F Unit := fun s =>
  match recordEntry tools entry s with
  | (.ok _, t) => (.ok (), t)
  | (.error _, t) => (.ok (), { t with warned := t.warned ++ [entry] })

/-- A provider call, with how long it took. -/
def timed {α : Type} (m : Bill F α) : Bill F (α × Nat) := fun s =>
  ((m s).1.map fun a => (a, tools.elapsed (s.ext.prompts.length + s.ext.conn.sent.length)), (m s).2)

/-- Ask the chat client for an extraction. -/
def ask (sessionId : Int) (prompt : String) : Bill F (String × Nat) := fun s =>
  match timed tools (onExt (Extract.complete tools.chat prompt)) s with
  | (.ok a, t) => (.ok a, { t with asked := t.asked ++ [(sessionId, prompt, some a.1)] })
  | (.error e, t) => (.error e, { t with asked := t.asked ++ [(sessionId, prompt, none)] })

/-! ## The gate -/

/-- Refuse further work once one session's attributed token ceiling is reached. Calls without a session
are not charged to a ceiling. -/
def checkSessionBudget (sessionId : Option Int) : Job F Unit :=
  match sessionId with
  | none => pure ()
  | some sessionId =>
    if cfg.maxTokensPerSession = 0 then pure ()
    else do
      let used ← call (readTokens env sessionId)
      if cfg.maxTokensPerSession ≤ used then
        Client.fail (.budgetExceeded used cfg.maxTokensPerSession)
      else pure ()

/-- Check the agent's current open session, if any. -/
def checkOpenSessionBudget : Job F Unit := do
  let s ← call Program.get
  let session ← call (onStore (Sessions.getOpenSession env s.ext.conn.agentId))
  checkSessionBudget env cfg (session.map Session.id)

/-! ## Remember -/

/-- Embed, record the call, then the writer closure. -/
def persistCandidateFull (emb : Embedder F) (cand : Persist.Candidate F)
    (extractorVersion sourceKind : String) (pendingThreshold dedupThreshold : F) :
    Job F Persist.PersistReport := do
  let text := Redact.redact cand.text
  let vecs ← call (timed tools (onStore (emb.call [text])))
  call (recordOrWarn tools (estimatedEntry .embed emb.model text "" vecs.2 true))
  call (onStore (persistEmbedded env emb cand text extractorVersion sourceKind pendingThreshold
    dedupThreshold (vecs.1.headD [])))

def remember (emb : Embedder F) (cand : Persist.Candidate F) (sourceKind : String) :
    Job F MemoryRow := do
  match ← (persistCandidateFull env tools emb cand Extract.EXTRACTOR_VERSION sourceKind
      cfg.pendingThreshold cfg.dedupThreshold).attempt with
  | .ok report => return report.row
  | .error (.other (.embedder _)) =>
    let report ← call (onStore (Persist.persistCandidateUnembedded env cand
      Extract.EXTRACTOR_VERSION sourceKind cfg.pendingThreshold))
    return report.row
  | .error e => Client.fail e

def rememberDegraded (cand : Persist.Candidate F) (sourceKind : String) : Job F MemoryRow :=
  call (onStore (Persist.rememberDegraded env cand Extract.EXTRACTOR_VERSION sourceKind
    cfg.pendingThreshold))

structure RememberInput (F : Type) where
  text : String
  tier : Option String := none
  kind : Option String := none
  sourceKind : Option String := none
  confidence : Option F := none

/-- `remember` of the library interface and of the tool server. -/
def rememberInput (args : RememberInput F) : Job F MemoryRow :=
  if Text.trim args.text = "" then
    Client.fail (.other (.invalidInput "text must not be empty"))
  else do
    let cand : Persist.Candidate F := {
      tier := args.tier.getD "episodic", kind := args.kind.getD "fact", text := args.text
      confidence := args.confidence.getD (F64.ofRat 1) }
    checkOpenSessionBudget env cfg
    match cfg.provider with
    | .none => rememberDegraded env cfg cand (args.sourceKind.getD "agent")
    | .hash | .openAiCompat =>
      remember env cfg tools tools.serverEmbedder cand (args.sourceKind.getD "agent")

/-- With the embedder for the dimension of the database, once that is checked. -/
def rememberEmbedded (cand : Persist.Candidate F) (sourceKind : String) : Job F MemoryRow := do
  let dim ← call (onStore (embedDim env))
  call (onStore (Ingest.validateEmbedDim env (tools.embedder dim)))
  remember env cfg tools (tools.embedder dim) cand sourceKind

/-- `remember` of the command line. -/
def runRemember (cand : Persist.Candidate F) (sourceKind : String) : Job F MemoryRow := do
  checkOpenSessionBudget env cfg
  match cfg.provider with
  | .none => rememberDegraded env cfg cand sourceKind
  | .hash => rememberEmbedded env cfg tools cand sourceKind
  | .openAiCompat =>
    if cfg.embedModel = "" then Client.fail (.other
      (.config "embed.model is empty; set [embed] model or use provider = 'none'"))
    else rememberEmbedded env cfg tools cand sourceKind

/-! ## Extract -/

def persistAll (emb : Embedder F) (candidates : List (Extract.Candidate F)) : Job F Nat :=
  Client.foldEach candidates 0 fun n c => do
    let _ ← persistCandidateFull env tools emb (Extract.adjustTier c) Extract.EXTRACTOR_VERSION "user"
      Persist.PENDING_THRESHOLD_DEFAULT Persist.DEDUP_THRESHOLD
    return n + 1

/-- The part of a run after the chat client has answered. -/
def consume (emb : Embedder F) (sessionId upto : Int) (fresh : List Turn)
    (report : Extract.ParseReport F) : Job F Extract.ExtractReport := do
  let inserted ← persistAll env tools emb report.candidates
  call (onExt (Extract.notePersisted sessionId (Extract.buildPrompt fresh) fresh))
  call (onExt (Extract.recordUpto env sessionId (Extract.maxSeq upto fresh)))
  return ⟨inserted, report.dropped, fresh.length⟩

/-- The part of a run after it has found fresh turns. -/
def extractFresh (emb : Embedder F) (sessionId upto : Int) (fresh : List Turn) :
    Job F Extract.ExtractReport := do
  let prompt := Extract.buildPrompt fresh
  let response ← call (ask tools sessionId prompt)
  let report ← Client.lift ((Extract.parseOutput tools.json response.1).mapError .other)
  call (recordOrWarn tools (estimatedEntryForSession .extract (some sessionId) tools.chatModel prompt
    response.1 response.2 true))
  consume env tools emb sessionId upto fresh report

/-- Run extraction for one session: prompt, chat, parse, persist. -/
def extractSession (emb : Embedder F) (sessionId : Int) : Job F Extract.ExtractReport := do
  let turns ← call (onStore (query env fun db => .ok (Extract.sessionTurns db sessionId)))
  let upto ← call (onExt (Extract.recordedUpto env sessionId))
  let fresh := turns.filter fun t => upto < t.seq
  if fresh.isEmpty then return ⟨0, 0, 0⟩
  else extractFresh env tools emb sessionId upto fresh

def noSession : AgosMemory.Error :=
  .invalidInput "extract payload must be \x7b\"session\": <id>\x7d"

/-- The session that the payload of an `extract` job names. -/
def payloadSession (payload : String) : Except AgosMemory.Error Int :=
  if Text.trim payload = "" then .error noSession
  else
    match tools.payload payload with
    | .error e => .error (.invalidInput ("extract payload is not JSON: " ++ e))
    | .ok none => .error noSession
    | .ok (some sessionId) => .ok sessionId

/-- Run an `extract` job. -/
def runExtractJob (payload : String) : Job F Unit := do
  let dim ← call (onStore (embedDim env))
  call (onStore (Ingest.validateEmbedDim env (tools.embedder dim)))
  let sessionId ← Client.lift ((payloadSession tools payload).mapError .other)
  checkSessionBudget env cfg (some sessionId)
  let _ ← extractSession env tools (tools.embedder dim) sessionId
  return ()

/-! ## Summarize -/

/-- Ask the chat client for a summary and record the call, which is no session's. -/
def generateSummary (text : String) : Job F String := do
  let prompt := Summarize.promptFor text
  let response ← call (timed tools (onExt (Extract.complete tools.chat prompt)))
  call (recordOrWarn tools (estimatedEntry .summarize tools.chatModel prompt response.1 response.2 true))
  return Text.trim response.1

/-! ## Requests -/

/-- What is asked of the store: the calls of this module, those on sessions, and any other work, which
knows nothing of the ledger. -/
inductive Request (F : Type) where
  | extract (payload : String)
  | rememberInput (args : RememberInput F)
  | runRemember (cand : Persist.Candidate F) (sourceKind : String)
  | summary (text : String)
  | session (c : Sessions.Call)
  | work (c : Work F Unit)

/-- A client of the store among those of the ledger. -/
def ofWork {α : Type} : Work F α → Job F α
  | .done r => .done (r.mapError .other)
  | .step act next => .step
    (fun s => { s with ext := { s.ext with conn := act s.ext.conn } })
    fun s => ofWork (next s.ext.conn)

def job : Request F → Job F Unit
  | .extract payload => runExtractJob env cfg tools payload
  | .rememberInput args => do
    let _ ← rememberInput env cfg tools args
    return ()
  | .runRemember cand sourceKind => do
    let _ ← runRemember env cfg tools cand sourceKind
    return ()
  | .summary text => do
    let _ ← generateSummary tools text
    return ()
  | .session c => do
    let _ ← ofWork (Sessions.client env autocommit c)
    return ()
  | .work c => ofWork c

end

end AgosMemory.Budget
