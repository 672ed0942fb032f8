import AgosMemory.Recall.Audit

/-!
# The ledger of provider calls

Each recorded call of a provider is a row with estimated token counts, and for an extraction with the
session it served. The ceiling of a session and the cost report read these rows. Texts are shorter than
`2^63` bytes, so a token count is the same number as an `i64`. What SQLite does with floating point in
`AVG` and `SUM` is a parameter.
-/

namespace AgosMemory.Ledger

variable {F : Type} [F64 F]

/-! ## Rows -/

/-- Purpose of a recorded provider call. -/
inductive Purpose where
  | extract | summarize | embed | eval
  deriving DecidableEq, Repr

def Purpose.asStr : Purpose → String
  | .extract => "extract"
  | .summarize => "summarize"
  | .embed => "embed"
  | .eval => "eval"

/-- The purposes that the table admits, in the order of their names. -/
def PURPOSES : List Purpose := [.embed, .eval, .extract, .summarize]

/-- One record for the `llm_calls` table. -/
structure LedgerEntry (F : Type) where
  purpose : Purpose
  sessionId : Option Int
  model : String
  promptTokens : Nat
  completionTokens : Nat
  latencyMs : Nat
  ok : Bool
  costUsdEst : F

/-- An `llm_calls` row. -/
structure LlmCall (F : Type) where
  id : Int
  purpose : Purpose
  sessionId : Option Int
  model : String
  promptTokens : Nat
  completionTokens : Nat
  totalTokens : Nat
  latencyMs : Nat
  ok : Bool
  costUsdEst : F
  createdAt : Int

/-- The row of an entry. -/
def LedgerEntry.row (entry : LedgerEntry F) (id now : Int) : LlmCall F where
  id
  purpose := entry.purpose
  sessionId := entry.sessionId
  model := entry.model
  promptTokens := entry.promptTokens
  completionTokens := entry.completionTokens
  totalTokens := entry.promptTokens + entry.completionTokens
  latencyMs := entry.latencyMs
  ok := entry.ok
  costUsdEst := entry.costUsdEst
  createdAt := now

omit [F64 F] in
@[simp] theorem LedgerEntry.row_sessionId (entry : LedgerEntry F) (id now : Int) :
    (entry.row id now).sessionId = entry.sessionId := rfl

/-- Rough list-price estimate used for `cost_usd_est`. -/
def USD_PER_1M_TOKENS : F := F64.ofRat (6 / 10)

/-- Local mock calls are not billable spend. -/
def isLocal (model : String) : Bool :=
  "mock-".toList.isPrefixOf model.toList || "hash-".toList.isPrefixOf model.toList

/-- Build an entry with estimated token counts from the texts. -/
def estimatedEntryForSession (purpose : Purpose) (sessionId : Option Int)
    (model prompt completion : String) (latencyMs : Nat) (ok : Bool) : LedgerEntry F :=
  let promptTokens := Recall.heuristicCount F prompt
  let completionTokens := Recall.heuristicCount F completion
  let total : F := F64.ofRat ((promptTokens + completionTokens : Nat) : ℚ)
  { purpose, sessionId, model, promptTokens, completionTokens, latencyMs, ok
    costUsdEst := if isLocal model then F64.ofRat 0
      else F64.mul (F64.div total (F64.ofRat 1000000)) USD_PER_1M_TOKENS }

def estimatedEntry (purpose : Purpose) (model prompt completion : String) (latencyMs : Nat)
    (ok : Bool) : LedgerEntry F :=
  estimatedEntryForSession purpose none model prompt completion latencyMs ok

/-! ## Sums -/

def addI64 (a b : Int) : Except Error Int :=
  if InI64 (a + b) then .ok (a + b) else .error (.storage "integer overflow")

/-- `COALESCE(SUM(..), 0)` of an integer column. -/
def sumI64 (column : List Int) : Except Error Int := column.foldlM addI64 0

def sumNat (column : List Nat) : Except Error Int := sumI64 (column.map fun n : Nat => (n : Int))

/-- Total tokens attributed to one session. -/
def tokensForSession (calls : List (LlmCall F)) (sessionId : Int) : Except Error Nat := do
  let total ← sumNat ((calls.filter fun c => c.sessionId = some sessionId).map LlmCall.totalTokens)
  return total.toNat

/-! ## The cost report -/

/-- `SUM` and `AVG` where they are floating point, of a column that is not empty. -/
structure Aggregates (F : Type) where
  sum : List F → F
  avg : List Nat → F

/-- Per-purpose provider-call rollup. -/
structure PurposeCost (F : Type) where
  purpose : String
  calls : Nat
  failedCalls : Nat
  promptTokens : Nat
  completionTokens : Nat
  totalTokens : Nat
  meanLatencyMs : F
  costUsdEst : F

/-- Aggregated recall-budget rows in the selected scope and window. -/
structure RecallBudgetSummary where
  rows : Nat
  budgetTokensTotal : Nat
  tokensUsedTotal : Nat
  itemsInjectedTotal : Nat
  itemsDroppedTotal : Nat
  deriving DecidableEq, Repr

/-- Per-session ceiling state; absent from an all-time report. -/
structure SessionBudget where
  ceilingTokens : Nat
  usedTokens : Nat
  remainingTokens : Option Nat
  overBudget : Bool
  deriving DecidableEq, Repr

/-- Price metadata embedded in every report. -/
structure PricingInfo (F : Type) where
  estimated : Bool
  usdPer1mTokens : F

structure CostReport (F : Type) where
  sessionId : Option Int
  sinceMillis : Int
  calls : Nat
  failedCalls : Nat
  promptTokens : Nat
  completionTokens : Nat
  totalTokens : Nat
  meanLatencyMs : F
  costUsdEst : F
  byPurpose : List (PurposeCost F)
  recallBudget : RecallBudgetSummary
  maxTokensPerSession : Nat
  sessionBudget : Option SessionBudget
  pricing : PricingInfo F

/-- `created_at >= ?1 AND session_id = ?`, the second part for a report on one session. -/
def inScope (sessionId : Option Int) (since : Int) (session : Option Int) (createdAt : Int) : Bool :=
  decide (since ≤ createdAt) && sessionId.all fun id => session == some id

/-- The rows of a report. -/
def callsInScope (sessionId : Option Int) (since : Int) (calls : List (LlmCall F)) : List (LlmCall F) :=
  calls.filter fun c => inScope sessionId since c.sessionId c.createdAt

/-- The `SELECT` list that the report applies to all its rows and to those of each purpose. -/
def rollup (agg : Aggregates F) (purpose : String) (rows : List (LlmCall F)) :
    Except Error (PurposeCost F) := do
  let failed ← sumNat (rows.map fun c => if c.ok then 0 else 1)
  let prompt ← sumNat (rows.map LlmCall.promptTokens)
  let completion ← sumNat (rows.map LlmCall.completionTokens)
  let total ← sumNat (rows.map LlmCall.totalTokens)
  return {
    purpose
    calls := rows.length
    failedCalls := failed.toNat
    promptTokens := prompt.toNat
    completionTokens := completion.toNat
    totalTokens := total.toNat
    meanLatencyMs := if rows.isEmpty then F64.ofRat 0 else agg.avg (rows.map LlmCall.latencyMs)
    costUsdEst := if rows.isEmpty then F64.ofRat 0 else agg.sum (rows.map LlmCall.costUsdEst) }

/-- `GROUP BY purpose ORDER BY purpose` -/
def byPurpose (agg : Aggregates F) (rows : List (LlmCall F)) : Except Error (List (PurposeCost F)) :=
  (PURPOSES.filter fun p => rows.any fun c => c.purpose == p).mapM fun p =>
    rollup agg p.asStr (rows.filter fun c => c.purpose == p)

def recallBudget (rows : List (Recall.LedgerRow F)) : Except Error RecallBudgetSummary := do
  let budget ← sumI64 (rows.map Recall.LedgerRow.budget)
  let used ← sumI64 (rows.map Recall.LedgerRow.tokensUsed)
  let injected ← sumI64 (rows.map Recall.LedgerRow.itemsInjected)
  let dropped ← sumI64 (rows.map Recall.LedgerRow.itemsDropped)
  return ⟨rows.length, budget.toNat, used.toNat, injected.toNat, dropped.toNat⟩

/-- The ceiling beside what the report counts. -/
def sessionBudget (maxTokensPerSession totalTokens : Nat) : SessionBudget where
  ceilingTokens := maxTokensPerSession
  usedTokens := totalTokens
  remainingTokens :=
    if 0 < maxTokensPerSession then some (maxTokensPerSession - totalTokens) else none
  overBudget := decide (0 < maxTokensPerSession) && decide (maxTokensPerSession < totalTokens)

/-- Query the complete cost report from `llm_calls` and `token_ledger`. The three `SELECT`s are in no
transaction, and each sees what was written before it: `calls` is what the first sees, `callsThen` what
the one by purpose sees, and `ledger` what the last sees. -/
def costReport (agg : Aggregates F) (calls callsThen : List (LlmCall F))
    (ledger : List (Recall.LedgerRow F)) (sessionId : Option Int) (since : Int)
    (maxTokensPerSession : Nat) : Except Error (CostReport F) := do
  let all ← rollup agg "" (callsInScope sessionId since calls)
  let purposes ← byPurpose agg (callsInScope sessionId since callsThen)
  let summary ← recallBudget
    (ledger.filter fun row => inScope sessionId since row.sessionId row.createdAt)
  return {
    sessionId
    sinceMillis := since
    calls := all.calls
    failedCalls := all.failedCalls
    promptTokens := all.promptTokens
    completionTokens := all.completionTokens
    totalTokens := all.totalTokens
    meanLatencyMs := all.meanLatencyMs
    costUsdEst := all.costUsdEst
    byPurpose := purposes
    recallBudget := summary
    maxTokensPerSession
    sessionBudget := sessionId.map fun _ => sessionBudget maxTokensPerSession all.totalTokens
    pricing := ⟨true, USD_PER_1M_TOKENS⟩ }

end AgosMemory.Ledger
