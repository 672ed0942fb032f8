import AgosMemory.Recall.Filter
import AgosMemory.Server.Addr

/-!
# Bearer tokens

Startup checks the pair of bind and token twice, and the middleware decides on each request from the
pair and the `Authorization` header alone.
-/

namespace AgosMemory.Server

variable {F : Type} [F64 F]

/-! ## Configuration -/

structure SessionConfig where
  idleMinutes : Nat

structure MemoryConfig (F : Type) where
  pendingThreshold : F
  dedupThreshold : F

structure RecallConfig (F : Type) where
  topK : Nat
  budgetTokens : Nat
  minScore : F
  budgetSplit : Recall.BudgetSplit F

structure ServerConfig where
  bind : String
  token : String
  deriving DecidableEq, Repr

/-- The settings that `validate` reads. -/
structure Config (F : Type) where
  dbPath : String
  agentId : String
  session : SessionConfig
  memory : MemoryConfig F
  «recall» : RecallConfig F
  server : ServerConfig

/-- `RangeInclusive::contains` -/
def between (lo hi x : F) : Bool := F64.le lo x && F64.le x hi

/-- Validate invariants. Fail closed on unsafe server exposure. -/
def Config.validate (cfg : Config F) : Except Error Unit :=
  let split := cfg.«recall».budgetSplit
  let splitSum := F64.add (F64.add (F64.add split.working split.episodic) split.semantic)
    split.procedural
  if cfg.dbPath = "" then .error (.config "db_path must not be empty")
  else if Text.trim cfg.agentId = "" then .error (.config "agent_id must not be empty")
  else if cfg.session.idleMinutes = 0 then .error (.config "session.idle_minutes must be > 0")
  else if !between (F64.ofRat 0) (F64.ofRat 1) cfg.memory.pendingThreshold then
    .error (.config "memory.pending_threshold must be between 0.0 and 1.0")
  else if !between (F64.ofRat 0) (F64.ofRat 1) cfg.memory.dedupThreshold then
    .error (.config "memory.dedup_threshold must be between 0.0 and 1.0")
  else if cfg.«recall».topK = 0 then .error (.config "recall.top_k must be > 0")
  else if cfg.«recall».budgetTokens = 0 then .error (.config "recall.budget_tokens must be > 0")
  else if F64.lt cfg.«recall».minScore (F64.ofRat 0) || F64.lt (F64.ofRat 1) cfg.«recall».minScore then
    .error (.config "recall.min_score must be between 0.0 and 1.0")
  else if !between (F64.ofRat (95 / 100)) (F64.ofRat (105 / 100)) splitSum then
    .error (.config ("recall.budget_split must sum to ~1.0 (got " ++ F64.display splitSum ++ ")"))
  else if !isLoopback cfg.server.bind then
    if cfg.server.token = "" then
      .error (.config ("binding to a non-loopback address (" ++ cfg.server.bind ++
        ") requires a token (set AGOS_MEMORY_TOKEN or server.token); refusing to start"))
    else if cfg.server.token.utf8ByteSize < 16 then
      .error (.config "server.token must be at least 16 characters")
    else .ok ()
  else .ok ()

/-- Validate the server token for a given bind address. -/
def validateServerToken (bind token : String) : Except String Unit :=
  if isLoopback bind then .ok ()
  else if token.utf8ByteSize < 16 then
    .error ("binding to non-loopback address " ++ bind ++
      " requires a token of at least 16 characters")
  else .ok ()

/-! ## Requests -/

/-- Outcome of the auth decision: pass, or the 401 body to send back. -/
inductive AuthDecision where
  | allow
  | reject (reason : String)
  deriving DecidableEq, Repr

/-- Extract the credential from an `Authorization: Bearer <credential>` header. -/
def bearerCredential (value : String) : Option String :=
  (splitOnce ' ' value).bind fun (scheme, credential) =>
    if !eqIgnoreAsciiCase scheme "Bearer" || Text.trim credential = "" then none
    else some (Text.trim credential)

/-- The bytes of a string. -/
def utf8 (s : String) : List UInt8 := s.toList.flatMap String.utf8EncodeChar

section

variable (sha256Hex : String → String)

/-- Equality of the digests, accumulated over their bytes. -/
def ctEq (a b : String) : Bool :=
  ((utf8 (sha256Hex a)).zip (utf8 (sha256Hex b))).foldl (fun acc p => acc ||| (p.1 ^^^ p.2)) 0 = 0

/-- Decide whether one request may pass. -/
def authorize (expectedToken bind : String) (authorization : Option String) : AuthDecision :=
  if expectedToken ≠ "" then
    match authorization.bind bearerCredential with
    | some credential =>
      if ctEq sha256Hex credential expectedToken then .allow else .reject "invalid token"
    | none => .reject "invalid token"
  else if isLoopback bind then .allow
  else .reject "bearer token required for non-loopback bind"

/-- A byte that a header value may hold. -/
def Carried (b : UInt8) : Prop := b = 9 ∨ 32 ≤ b ∧ b ≠ 127

instance : DecidablePred Carried := fun b => inferInstanceAs (Decidable (b = 9 ∨ 32 ≤ b ∧ b ≠ 127))

/-- The value of a request header. -/
structure HeaderValue where
  bytes : List UInt8
  carried : ∀ b ∈ bytes, Carried b

def isVisibleAscii (b : UInt8) : Bool := (32 ≤ b && b < 127) || b = 9

/-- `HeaderValue::to_str` -/
def HeaderValue.toStr (v : HeaderValue) : Option String :=
  if v.bytes.all isVisibleAscii then
    some (String.ofList (v.bytes.map fun b => Char.ofNat b.toNat))
  else none

/-- The decision of the middleware on a request with this `Authorization` header. -/
def authCheck (token bind : String) (authorization : Option HeaderValue) : AuthDecision :=
  authorize sha256Hex token bind (authorization.bind HeaderValue.toStr)

end

end AgosMemory.Server
