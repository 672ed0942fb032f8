import AgosMemory.Library.Json
import AgosMemory.Recall.Accounting
import AgosMemory.Recall.Recall
import AgosMemory.Storage.Store

/-!
# Recall audit

After a report is made its rows are written in one transaction: what was recalled, one row for each hit
whose memory still exists, and the tokens. The hits are resolved again by their public ids, and other
writers may have purged some of them since.
-/

namespace AgosMemory.Recall

open Library Library.Program

variable {F : Type} [F64 F]

/-! ## The report and what is audited beside it -/

/-- Parameters needed to write one recall's audit rows. -/
structure RecallAuditInput where
  queryText : String
  k : Nat
  budget : Nat
  candidates : Nat
  sessionId : Option Int

/-- The candidates that survive rerank, before the cuts. -/
def reranked (filter : HardFilter) (rows : List (CanonicalRow F)) (surviving : List String)
    (fused : List (RecallHit F)) (q : RecallQuery F) : List (RecallHit F) :=
  rerank q.weights q.halfLife filter.now (fused.filter fun h => h.publicId ∈ surviving) rows

/-- The report of a recall and the input of its audit. -/
def recallAndAudit (reads : Reads F) (agentId : String) (q : RecallQuery F) (now : Int) :
    Except Error (RecallReport F × RecallAuditInput) := do
  if Text.trim q.text = "" then throw (.invalidInput "recall query text is empty")
  let filter := HardFilter.fromQuery agentId q now
  let pool := saturatingMul (max 1 q.k) RERANK_POOL_FACTOR
  let (vecHits, ftsHits) ← reads.legs filter pool reads.queryVec
  let rowids := (vecHits.map Prod.fst ++ ftsHits.map Prod.fst).dedup
  let rows ← readKeys reads.gate2 rowids (loadByRowids filter)
  let fused := fuse filter vecHits rows ftsHits
  let surviving ← readKeys reads.gate3 (fused.map RecallHit.publicId) (survivingPublicIds filter)
  let report := packReport q rows (candidates filter rows surviving fused q) reads.queryVec.isNone
  return (report, ⟨q.text, q.k, q.budgetTokens, (reranked filter rows surviving fused q).length,
    none⟩)

/-! ## Rows -/

/-- A `recalls` row. -/
structure RecallRow (F : Type) where
  id : Int
  queryHash : String
  queryText : String
  k : Int
  budget : Int
  candidates : Int
  injected : Int
  dropped : Int
  topScore : Option F
  noHit : Int
  latencyMs : Int
  sessionId : Option Int
  createdAt : Int

/-- A `recall_items` row. -/
structure RecallItem (F : Type) where
  recallId : Int
  memoryId : Int
  rank : Int
  score : F
  componentsJson : Json F
  injected : Int

/-- A `token_ledger` row. -/
structure LedgerRow (F : Type) where
  sessionId : Option Int
  budget : Int
  tokensUsed : Int
  tierSplitJson : Json F
  itemsInjected : Int
  itemsDropped : Int
  createdAt : Int

/-- The connection and the audit tables. Of `recall_items` the database itself keeps the two columns
that a purge reads. -/
structure AuditConn (F : Type) where
  conn : Conn F
  recalls : List (RecallRow F) := []
  recallSeq : Int := 0
  items : List (RecallItem F) := []
  ledger : List (LedgerRow F) := []

abbrev AuditWrite (F α : Type) := Program Error (AuditConn F) α

/-! ## Columns

The length of a vector is below `2^63`, so a count is the same number as an `i64`. -/

/-- `n as i64` for a `u64` or a `usize`. -/
def asI64 (n : Nat) : Int :=
  if n % 2 ^ 64 < 2 ^ 63 then (n % 2 ^ 64 : Nat) else (n % 2 ^ 64 : Nat) - 2 ^ 64

/-- `b as i64` -/
def flag (b : Bool) : Int := if b then 1 else 0

def RecallHit.dropped (h : RecallHit F) : Bool :=
  match h.placement with
  | .dropped _ => true
  | _ => false

/-- The largest score, or none for no hits and for NaN. -/
def topScore (hits : List (RecallHit F)) : Option F :=
  match hits.map RecallHit.score with
  | [] => none
  | score :: scores =>
    let max := scores.foldl F64.max score
    if F64.le max max then some max else none

def optional {α : Type} (f : α → Json F) : Option α → Json F
  | none => .null
  | some a => f a

/-- A float that is not finite is written as `null`. -/
def numJson (x : F) : Json F := if F64.le x x then .num x else .null

def componentsJson (c : RecallComponents F) : Json F := .obj [
  ("sim", optional numJson c.sim), ("bm25_rank", optional (fun n : Nat => .int n) c.bm25Rank),
  ("rrf", numJson c.rrf), ("sim_norm", numJson c.simNorm), ("importance", numJson c.importance),
  ("confidence", numJson c.confidence), ("decay", numJson c.decay)]

def tierSplitJson (t : TierTokens) : Json F := .obj [
  ("working", .int t.working), ("episodic", .int t.episodic), ("semantic", .int t.semantic),
  ("procedural", .int t.procedural)]

def recallRow (env : Env F) (report : RecallReport F) (input : RecallAuditInput) (latencyMs : Nat)
    (now : Int) (id : Int) : RecallRow F where
  id
  queryHash := env.sha256Hex input.queryText
  queryText := input.queryText
  k := asI64 input.k
  budget := asI64 input.budget
  candidates := input.candidates
  injected := report.hits.countP RecallHit.injected
  dropped := report.hits.countP RecallHit.dropped
  topScore := topScore report.hits
  noHit := flag report.noHit
  latencyMs := asI64 latencyMs
  sessionId := input.sessionId
  createdAt := now

def ledgerRow (report : RecallReport F) (input : RecallAuditInput) (now : Int) : LedgerRow F where
  sessionId := input.sessionId
  budget := asI64 input.budget
  tokensUsed := asI64 report.tokensUsed
  tierSplitJson := tierSplitJson report.tierTokens
  itemsInjected := report.hits.countP RecallHit.injected
  itemsDropped := report.hits.countP RecallHit.dropped
  createdAt := now

/-! ## Statements -/

/-- Wrap an error as an audit-write storage error. -/
def auditErr (msg : String) : Error := .storage ("audit write: " ++ msg)

/-- Run one statement. -/
def statement {α : Type} (env : Env F) (f : AuditConn F → Except Error (α × AuditConn F)) :
    AuditWrite F α := fun c =>
  let c' := { c with conn := { c.conn with stmts := c.conn.stmts + 1 } }
  if env.fault c.conn.stmts then (.error (auditErr "disk I/O error"), c')
  else
    match f c' with
    | .ok (a, c'') => (.ok a, c'')
    | .error e => (.error e, c')

/-- `REFERENCES sessions(id)` -/
def checkSession (db : Db F) (sessionId : Option Int) : Except Error Unit :=
  if sessionId.all fun id => db.sessions.any fun s => s.id = id then .ok ()
  else .error (auditErr "FOREIGN KEY constraint failed")

/-- `INSERT INTO recalls ... RETURNING id` -/
def insertRecall (env : Env F) (report : RecallReport F) (input : RecallAuditInput)
    (latencyMs : Nat) (now : Int) : AuditWrite F Int :=
  statement env fun c => do
    checkSession c.conn.db input.sessionId
    let id := c.recallSeq + 1
    let row := recallRow env report input latencyMs now id
    return (id, { c with recalls := c.recalls ++ [row], recallSeq := id })

/-- `SELECT id FROM memories WHERE public_id = ?1` -/
def findMemory (env : Env F) (publicId : String) : AuditWrite F (Option Int) :=
  statement env fun c =>
    .ok ((c.conn.db.memories.find? fun m => m.publicId = publicId).map Memory.id, c)

/-- `INSERT INTO recall_items ...`; SQLite stores NaN as `NULL`. -/
def insertItem (env : Env F) (item : RecallItem F) : AuditWrite F Unit :=
  statement env fun c =>
    if F64.le item.score item.score then
      let db := c.conn.db
      .ok ((), { c with
        conn := { c.conn with
          db := { db with recallItems := db.recallItems ++ [⟨item.recallId, item.memoryId⟩] } }
        items := c.items ++ [item] })
    else .error (auditErr "NOT NULL constraint failed: recall_items.score")

/-- The item rows; a memory that is gone is skipped. -/
def insertItems (env : Env F) (recallId : Int) : List (RecallHit F) → Nat → AuditWrite F Unit
  | [], _ => pure ()
  | h :: hits, rank => do
    match ← findMemory env h.publicId with
    | none => pure ()
    | some memoryId =>
      insertItem env ⟨recallId, memoryId, rank, h.score, componentsJson h.components,
        flag h.injected⟩
    insertItems env recallId hits (rank + 1)

/-- `INSERT INTO token_ledger ...` -/
def insertLedger (env : Env F) (report : RecallReport F) (input : RecallAuditInput) (now : Int) :
    AuditWrite F Unit :=
  statement env fun c => do
    checkSession c.conn.db input.sessionId
    return ((), { c with ledger := c.ledger ++ [ledgerRow report input now] })

/-- `BEGIN ... COMMIT`; whatever fails in it, the commit included, is rolled back. -/
def auditTransaction {α : Type} (env : Env F) (m : AuditWrite F α) : AuditWrite F α :=
  atomically (fun s t => { s with conn := { s.conn with stmts := t.conn.stmts } }) do
    statement env fun c => .ok ((), c)
    let a ← m
    statement env fun c => .ok ((), c)
    return a

/-- Write the audit trail for one recall call; returns the `recalls.id`. -/
def writeRecallAudit (env : Env F) (report : RecallReport F) (input : RecallAuditInput)
    (latencyMs : Nat) (now : Int) : AuditWrite F Int :=
  auditTransaction env do
    let recallId ← insertRecall env report input latencyMs now
    insertItems env recallId report.hits 0
    insertLedger env report input now
    return recallId

/-! ## What a successful run writes -/

omit [F64 F] in
private theorem statement_ok {α : Type} {env : Env F}
    {f : AuditConn F → Except Error (α × AuditConn F)}
    {c c' : AuditConn F} {a : α} (h : statement env f c = (.ok a, c')) :
    f { c with conn := { c.conn with stmts := c.conn.stmts + 1 } } = .ok (a, c') := by
  unfold statement at h
  dsimp only at h
  split at h
  · cases h
  · split at h
    · next a' c'' hf =>
      obtain ⟨rfl, rfl⟩ := Prod.mk.inj h |>.imp Except.ok.inj id
      exact hf
    · cases h

omit [F64 F] in
private theorem checkSession_ok {α : Type} {db : Db F} {sessionId : Option Int} {x : Except Error α}
    {a : α}
    (h : (checkSession db sessionId >>= fun _ => x) = .ok a) : x = .ok a := by
  unfold checkSession at h
  split at h
  · exact h
  · cases h

/-- The row for a hit whose memory exists. -/
def itemRow? (db : Db F) (recallId : Int) (h : RecallHit F) (rank : Nat) :
    Option (RecallItem F) :=
  (db.memories.find? fun m => m.publicId = h.publicId).map fun m =>
    ⟨recallId, m.id, rank, h.score, componentsJson h.components, flag h.injected⟩

/-- The rows for the hits whose memory exists, each with its position in the report. -/
def itemRows (db : Db F) (recallId : Int) (hits : List (RecallHit F)) (rank : Nat) :
    List (RecallItem F) :=
  (hits.zipIdx rank).filterMap fun x => itemRow? db recallId x.1 x.2

private theorem itemRows_cons (db : Db F) (recallId : Int) (h : RecallHit F)
    (hits : List (RecallHit F))
    (rank : Nat) : itemRows db recallId (h :: hits) rank =
      (itemRow? db recallId h rank).toList ++ itemRows db recallId hits (rank + 1) := by
  unfold itemRows
  rw [List.zipIdx_cons, List.filterMap_cons]
  cases itemRow? db recallId h rank <;> rfl

/-- What the item rows leave alone. -/
structure SameAudit (c c' : AuditConn F) : Prop where
  recalls : c'.recalls = c.recalls
  recallSeq : c'.recallSeq = c.recallSeq
  ledger : c'.ledger = c.ledger
  memories : c'.conn.db.memories = c.conn.db.memories
  sessions : c'.conn.db.sessions = c.conn.db.sessions

private theorem insertItems_ok {env : Env F} {recallId : Int} {hits : List (RecallHit F)} {rank : Nat}
    {c c' : AuditConn F} (h : insertItems env recallId hits rank c = (.ok (), c')) :
    SameAudit c c' ∧ c'.items = c.items ++ itemRows c.conn.db recallId hits rank := by
  induction hits generalizing rank c with
  | nil =>
    obtain ⟨-, rfl⟩ := pure_ok h
    exact ⟨⟨rfl, rfl, rfl, rfl, rfl⟩, (List.append_nil _).symm⟩
  | cons hit hits ih =>
    obtain ⟨found, s₁, hfind, h⟩ := bind_ok h
    obtain ⟨rfl, rfl⟩ := Prod.mk.inj (Except.ok.inj (statement_ok hfind))
    rw [itemRows_cons, itemRow?]
    cases hmem : c.conn.db.memories.find? fun m => m.publicId = hit.publicId with
    | none =>
      simp only [hmem, Option.map_none] at h
      obtain ⟨hsame, hitems⟩ := ih h
      exact ⟨⟨hsame.recalls, hsame.recallSeq, hsame.ledger, hsame.memories, hsame.sessions⟩, hitems⟩
    | some m =>
      simp only [hmem, Option.map_some] at h
      obtain ⟨_, s₂, hinsert, h⟩ := bind_ok h
      have hinsert := statement_ok hinsert
      split at hinsert
      · obtain ⟨-, rfl⟩ := Prod.mk.inj (Except.ok.inj hinsert)
        obtain ⟨hsame, hitems⟩ := ih h
        refine ⟨⟨hsame.recalls, hsame.recallSeq, hsame.ledger, hsame.memories, hsame.sessions⟩, ?_⟩
        rw [hitems, List.append_assoc]
        rfl
      · cases hinsert

/-- The rows of an audit: what was recalled, the hits and the tokens. -/
structure Recorded (env : Env F) (report : RecallReport F) (input : RecallAuditInput)
    (latencyMs : Nat) (now : Int) (c c' : AuditConn F) (recallId : Int) : Prop where
  recalls : c'.recalls = c.recalls ++ [recallRow env report input latencyMs now recallId]
  items : c'.items = c.items ++ itemRows c.conn.db recallId report.hits 0
  ledger : c'.ledger = c.ledger ++ [ledgerRow report input now]

/-- A run that succeeds writes all its rows. -/
private theorem writeRecallAudit_ok {env : Env F} {report : RecallReport F} {input : RecallAuditInput}
    {latencyMs : Nat} {now : Int} {c c' : AuditConn F} {recallId : Int}
    (h : writeRecallAudit env report input latencyMs now c = (.ok recallId, c')) :
    Recorded env report input latencyMs now c c' recallId := by
  unfold writeRecallAudit auditTransaction at h
  obtain ⟨_, s₁, hbegin, h⟩ := bind_ok (atomically_ok h)
  obtain ⟨-, rfl⟩ := Prod.mk.inj (Except.ok.inj (statement_ok hbegin))
  obtain ⟨id, s₅, hbody, h⟩ := bind_ok h
  obtain ⟨_, s₆, hcommit, h⟩ := bind_ok h
  obtain ⟨-, rfl⟩ := Prod.mk.inj (Except.ok.inj (statement_ok hcommit))
  obtain ⟨rfl, rfl⟩ := pure_ok h
  obtain ⟨_, s₂, hrecall, hbody⟩ := bind_ok hbody
  obtain ⟨_, s₃, hitems, hbody⟩ := bind_ok hbody
  obtain ⟨_, s₄, hledger, hbody⟩ := bind_ok hbody
  obtain ⟨rfl, rfl⟩ := pure_ok hbody
  obtain ⟨rfl, rfl⟩ := Prod.mk.inj (Except.ok.inj (checkSession_ok (statement_ok hrecall)))
  obtain ⟨hsame, hitems⟩ := insertItems_ok hitems
  obtain ⟨-, rfl⟩ := Prod.mk.inj (Except.ok.inj (checkSession_ok (statement_ok hledger)))
  exact ⟨hsame.recalls, hitems, congrArg (· ++ [ledgerRow report input now]) hsame.ledger⟩

/-- A run that fails writes nothing. -/
private theorem writeRecallAudit_error {env : Env F} {report : RecallReport F}
    {input : RecallAuditInput}
    {latencyMs : Nat} {now : Int} {c c' : AuditConn F} {e : Error}
    (h : writeRecallAudit env report input latencyMs now c = (.error e, c')) :
    c'.recalls = c.recalls ∧ c'.items = c.items ∧ c'.ledger = c.ledger ∧ c'.conn.db = c.conn.db := by
  unfold writeRecallAudit auditTransaction at h
  obtain ⟨u, _, rfl⟩ := atomically_error h
  exact ⟨rfl, rfl, rfl, rfl⟩

/-! ## Counts -/

private theorem asI64_of_lt {n : Nat} (h : n < 2 ^ 63) : asI64 n = n := by
  have hmod : n % 2 ^ 64 = n := Nat.mod_eq_of_lt (h.trans (by decide))
  rw [asI64, hmod, if_pos h]

private theorem flag_eq_one {b : Bool} : flag b = 1 ↔ b = true := by
  cases b <;> decide

omit [F64 F] in
/-- Every settled hit is injected or dropped. -/
private theorem countP_settled {hits : List (RecallHit F)}
    (h : ∀ hit ∈ hits, hit.placement ≠ .unpacked) :
    hits.countP RecallHit.injected + hits.countP RecallHit.dropped = hits.length := by
  induction hits with
  | nil => rfl
  | cons hit hits ih =>
    have hrest := ih fun x hx => h x (List.mem_cons_of_mem _ hx)
    have hhit := h hit List.mem_cons_self
    rw [List.countP_cons, List.countP_cons, List.length_cons]
    cases hp : hit.placement with
    | unpacked => exact absurd hp hhit
    | full => simp only [RecallHit.injected, RecallHit.dropped, hp]; simp; omega
    | summary => simp only [RecallHit.injected, RecallHit.dropped, hp]; simp; omega
    | dropped _ => simp only [RecallHit.injected, RecallHit.dropped, hp]; simp; omega

/-- The tokens of the tiers in a `tier_split_json`. -/
def splitTotal : Json F → Int
  | .obj fields => (fields.map fun field => match field.2 with
    | .int n => n
    | _ => 0).sum
  | _ => 0

omit [F64 F] in
private theorem splitTotal_tierSplitJson (t : TierTokens) :
    splitTotal (tierSplitJson t : Json F) = t.total := by
  simp only [splitTotal, tierSplitJson, TierTokens.total, List.map_cons, List.map_nil,
    List.sum_cons, List.sum_nil]
  push_cast
  ring

/-- Ranks go up along the item rows. -/
private theorem itemRows_ranks (db : Db F) (recallId : Int) (hits : List (RecallHit F)) (rank : Nat) :
    ((itemRows db recallId hits rank).map RecallItem.rank).Pairwise (· < ·) ∧
      ∀ item ∈ itemRows db recallId hits rank, (rank : Int) ≤ item.rank := by
  induction hits generalizing rank with
  | nil => exact ⟨.nil, nofun⟩
  | cons h hits ih =>
    obtain ⟨hpairwise, hle⟩ := ih (rank + 1)
    rw [itemRows_cons]
    cases hitem : itemRow? db recallId h rank with
    | none =>
      refine ⟨hpairwise, fun item hmem => ?_⟩
      have hitem := hle item hmem
      omega
    | some item =>
      obtain ⟨m, _, rfl⟩ := Option.map_eq_some_iff.mp hitem
      refine ⟨List.pairwise_cons.mpr ⟨fun r hr => ?_, hpairwise⟩, fun item hmem => ?_⟩
      · obtain ⟨later, hlater, rfl⟩ := List.mem_map.mp hr
        have hrank := hle later hlater
        dsimp only
        omega
      · rcases List.mem_cons.mp hmem with rfl | hmem
        · exact le_rfl
        · have hitem := hle item hmem
          omega

/-! ## Reports -/

/-- The audit changes nothing about the report. -/
theorem recallAndAudit_report (reads : Reads F) (agentId : String) (q : RecallQuery F) (now : Int) :
    (recallAndAudit reads agentId q now).map Prod.fst = recallWithClock reads agentId q now := by
  unfold recallAndAudit recallWithClock
  split
  · rfl
  · simp only [bind, Except.bind, pure, Except.pure]
    split
    · rfl
    · split
      · rfl
      · split <;> rfl

/-- What is known of a report when it is audited. -/
structure Reported (q : RecallQuery F) (report : RecallReport F) (input : RecallAuditInput) :
    Prop where
  k : input.k = q.k
  budget : input.budget = q.budgetTokens
  candidates : report.hits.length ≤ input.candidates
  settled : ∀ h ∈ report.hits, h.placement ≠ .unpacked
  noHit : report.noHit = report.hits.all fun h => !h.injected
  within : report.tokensUsed ≤ q.budgetTokens
  total : report.tokensUsed = report.tierTokens.total

private theorem recallAndAudit_reported {reads : Reads F} {agentId : String} {q : RecallQuery F}
    {now : Int}
    {report : RecallReport F} {input : RecallAuditInput}
    (h : recallAndAudit reads agentId q now = .ok (report, input)) : Reported q report input := by
  obtain ⟨vecHits, ftsHits, rows, surviving, hreport, hinput⟩ : ∃ vecHits ftsHits rows surviving,
      report = packReport q rows (candidates (.fromQuery agentId q now) rows surviving
        (fuse (.fromQuery agentId q now) vecHits rows ftsHits) q) reads.queryVec.isNone ∧
      input = ⟨q.text, q.k, q.budgetTokens, (reranked (.fromQuery agentId q now) rows surviving
        (fuse (.fromQuery agentId q now) vecHits rows ftsHits) q).length, none⟩ := by
    unfold recallAndAudit at h
    split at h
    · cases h
    · simp only [bind, Except.bind, pure, Except.pure] at h
      split at h
      · cases h
      · next legs _ =>
        split at h
        · cases h
        · next rows _ =>
          split at h
          · cases h
          · next surviving _ =>
            obtain ⟨rfl, rfl⟩ := Prod.mk.inj (Except.ok.inj h)
            exact ⟨legs.1, legs.2, rows, surviving, rfl, rfl⟩
  subst hreport hinput
  have hunpacked : ∀ hit ∈ candidates (.fromQuery agentId q now) rows surviving
      (fuse (.fromQuery agentId q now) vecHits rows ftsHits) q,
      hit.placement = .unpacked ∧ hit.tokens = 0 := fun hit hm => (mem_candidates hm).2.2
  have hpacked := pack_packed (heuristicCount F) q.budgetSplit q.budgetTokens rows hunpacked
  refine ⟨rfl, rfl, ?_, fun hit hm => pack_settled hm, rfl, hpacked.within,
    pack_balanced hunpacked⟩
  have hlength := congrArg List.length hpacked.ids_eq
  rw [List.length_map, List.length_map] at hlength
  have hsorted : ∀ hits : List (RecallHit F),
      (sortHits (injectionOrder rows) hits).length = hits.length :=
    fun hits => List.length_insertionSort _ _
  refine (hlength.trans (hsorted _)).trans_le ?_
  exact (List.length_filter_le _ _).trans (List.length_take_le' _ _)

/-- The rows of one audit agree with the report and with each other. -/
structure Conserved (q : RecallQuery F) (report : RecallReport F) (c c' : AuditConn F)
    (row : RecallRow F) (ledger : LedgerRow F) : Prop where
  recalls : c'.recalls = c.recalls ++ [row]
  ledgers : c'.ledger = c.ledger ++ [ledger]
  items : c'.items = c.items ++ itemRows c.conn.db row.id report.hits 0
  ranks : ((itemRows c.conn.db row.id report.hits 0).map RecallItem.rank).Pairwise (· < ·)
  asked : row.k = q.k ∧ row.budget = q.budgetTokens ∧ ledger.budget = q.budgetTokens
  hits : row.injected + row.dropped = report.hits.length ∧ report.hits.length ≤ row.candidates
  noHit : row.noHit = 1 ↔ row.injected = 0
  counts : row.injected = report.hits.countP RecallHit.injected ∧
    ledger.itemsInjected = row.injected ∧ ledger.itemsDropped = row.dropped
  tokens : ledger.tokensUsed ≤ ledger.budget ∧ ledger.tokensUsed = splitTotal ledger.tierSplitJson

/-- An audit of a report writes nothing, or its rows for every hit whose memory exists when it runs,
whatever was written since the report was made. -/
theorem recall_audit_conserved {reads : Reads F} {agentId : String} {q : RecallQuery F} {now : Int}
    {report : RecallReport F} {input : RecallAuditInput}
    (h : recallAndAudit reads agentId q now = .ok (report, input)) (hk : q.k < 2 ^ 63)
    (hbudget : q.budgetTokens < 2 ^ 63) (env : Env F) (latencyMs : Nat) (c : AuditConn F) :
    let c' := (writeRecallAudit env report input latencyMs now c).2
    (c'.recalls = c.recalls ∧ c'.items = c.items ∧ c'.ledger = c.ledger ∧
      c'.conn.db = c.conn.db) ∨
    ∃ row ledger, (writeRecallAudit env report input latencyMs now c).1 = .ok row.id ∧
      Conserved q report c c' row ledger := by
  have hreported := recallAndAudit_reported h
  dsimp only
  cases hrun : writeRecallAudit env report input latencyMs now c with
  | mk r c' =>
    cases r with
    | error e => exact .inl (writeRecallAudit_error hrun)
    | ok recallId =>
      have hrecorded := writeRecallAudit_ok hrun
      have hused := hreported.within.trans_lt hbudget
      refine .inr ⟨recallRow env report input latencyMs now recallId, ledgerRow report input now,
        rfl, hrecorded.recalls, hrecorded.ledger, hrecorded.items, (itemRows_ranks _ _ _ _).1, ?_,
        ?_, ?_, ⟨rfl, rfl, rfl⟩, ?_⟩
      · refine ⟨?_, ?_, ?_⟩
        · exact (congrArg asI64 hreported.k).trans (asI64_of_lt hk)
        · exact (congrArg asI64 hreported.budget).trans (asI64_of_lt hbudget)
        · exact (congrArg asI64 hreported.budget).trans (asI64_of_lt hbudget)
      · have hsettled := countP_settled hreported.settled
        have hcandidates := hreported.candidates
        simp only [recallRow]
        omega
      · have hnone : report.noHit = true ↔ report.hits.countP RecallHit.injected = 0 := by
          rw [hreported.noHit, List.countP_eq_zero, List.all_eq_true]
          simp
        simp only [recallRow, flag_eq_one, hnone]
        omega
      · have htotal : (asI64 report.tokensUsed : Int) = report.tierTokens.total := by
          rw [asI64_of_lt hused, hreported.total]
        refine ⟨?_, htotal.trans (splitTotal_tierSplitJson _).symm⟩
        simp only [ledgerRow]
        rw [hreported.budget, asI64_of_lt hused, asI64_of_lt hbudget]
        exact Nat.cast_le.mpr hreported.within

def sampleAuditEnv : Env ℚ where
  sha256Hex s := s
  distance _ _ := 0
  uuid _ := "m"
  clock _ := 0
  fault _ := false

def auditRow (id : Int) (publicId : String) (tier : Tier) (text : String)
    (summaryText : Option String) : Memory ℚ :=
  { sampleMemory id publicId .active with tier, text, summaryText }

def auditRows : List (Memory ℚ) := [
  auditRow 1 "m1" .semantic "the sky is blue" none,
  auditRow 2 "m2" .working "the grass is green in spring, in summer and in the autumn months"
    (some "grass: green"),
  auditRow 3 "m3" .procedural "the sea is grey in winter" none,
  auditRow 4 "m4" .semantic "sky" none]

def auditReads : Reads ℚ where
  queryVec := none
  legs _ _ _ := .ok ([(2, 0), (1, 0), (3, 0), (4, 0)],
    [(1, "m1", .semantic, .trusted), (4, "m4", .semantic, .trusted)])
  gate2 := .ok { memories := auditRows }
  gate3 := .ok { memories := auditRows }

def auditQuery : RecallQuery ℚ := { sampleQuery with budgetTokens := 16 }

/-- A store whose last row was purged since. -/
def sampleAudit : AuditConn ℚ where
  conn := { agentId := "default", db := { memories := auditRows.take 3 } }

/-- Two rows in full, one by its summary and one dropped; the second of them is gone by now. -/
theorem recall_audit_conserved_sample : ∃ report input row ledger,
    recallAndAudit auditReads "default" auditQuery 0 = .ok (report, input) ∧
    row.injected = 3 ∧ row.dropped = 1 ∧
    (writeRecallAudit sampleAuditEnv report input 0 0 sampleAudit).2.items.map
      (fun item => (item.memoryId, item.rank)) = [(1, 0), (2, 2), (3, 3)] ∧
    Conserved auditQuery report sampleAudit
      (writeRecallAudit sampleAuditEnv report input 0 0 sampleAudit).2 row ledger := by
  have hwrites : ((recallAndAudit auditReads "default" auditQuery 0).toOption.map fun r =>
      (((writeRecallAudit sampleAuditEnv r.1 r.2 0 0 sampleAudit).2.recalls.map fun row =>
          (row.injected, row.dropped)),
        (writeRecallAudit sampleAuditEnv r.1 r.2 0 0 sampleAudit).2.items.map fun item =>
          (item.memoryId, item.rank))) = some ([(3, 1)], [(1, 0), (2, 2), (3, 3)]) := by
    decide +kernel
  cases hrun : recallAndAudit auditReads "default" auditQuery 0 with
  | error e => rw [hrun] at hwrites; cases hwrites
  | ok r =>
    rw [hrun] at hwrites
    obtain ⟨hrecalls, hitems⟩ := Prod.mk.inj (Option.some.inj hwrites)
    rcases recall_audit_conserved hrun (by decide) (by decide) sampleAuditEnv 0 sampleAudit with
      ⟨hnone, _⟩ | ⟨row, ledger, _, hconserved⟩
    · rw [hnone] at hrecalls
      cases hrecalls
    · rw [hconserved.recalls] at hrecalls
      obtain ⟨hinjected, hdropped⟩ := Prod.mk.inj (List.cons.inj hrecalls).1
      exact ⟨r.1, r.2, row, ledger, rfl, hinjected, hdropped, hitems, hconserved⟩

end AgosMemory.Recall
