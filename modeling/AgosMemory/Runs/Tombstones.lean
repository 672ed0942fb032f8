import AgosMemory.SystemFrame
import AgosMemory.Storage.Purge
import AgosMemory.Runs.History

/-!
# Tombstones over whole runs

A hard purge sends four jobs to the writer: the deletes, `VACUUM`, the checkpoint, and the two rows
of the ledger. Other calls, other purges and a crash of the process may come between any two of them,
and each job may fail. Two fields of a state are history variables: the public ids that a purge
deleted, and those whose purge came through its last job.
-/

namespace AgosMemory.Tombstones

open Library Library.Program Store

variable {F : Type} [F64 F]

/-! ## The jobs of a purge -/

/-- What a purge is called with, and what it reads before its first job. -/
structure Request where
  id : Int
  deletedBy : Option String
  reason : Option String
  action : String
  agentId : String
  now : Int

/-- What the first job hands to the last one. -/
structure Evidence where
  publicId : String
  textHash : String
  rowcountBefore : Nat

/-- Existence gate, counts, deletes and verification. -/
def deleteJob (env : Env F) (id : Int) : Write F Evidence := do
  let m ← query env fun db => one (db.memory? id)
  let before ← query env fun db => .ok (((mentions db id).dropLast.tail.map Prod.snd).sum)
  exec env (deletePhase id)
  query env fun db =>
    match (mentions db id).find? fun entry => entry.2 ≠ 0 with
    | some (table, n) => .error (.storage
        ("purge verification failed: " ++ toString n ++ " row(s) survived on " ++ table))
    | none => .ok ()
  return ⟨m.publicId, m.textHash, 1 + before⟩

/-- `VACUUM`, and the WAL checkpoint. Neither changes a row. -/
def vacuumJob (env : Env F) : Write F Unit := run env hardPurgeWithAction.id_

def tombstoneOf (r : Request) (e : Evidence) : Tombstone :=
  ⟨e.publicId, r.agentId, some r.id, e.textHash, r.now, r.deletedBy, r.reason, e.rowcountBefore, 0⟩

def auditOf (r : Request) (e : Evidence) : ForgetAudit :=
  ⟨r.action, selectorJson r.id, e.publicId, r.deletedBy.getD "agent", r.reason, r.now⟩

/-- The two rows of the ledger, one statement each. -/
def recordJob (env : Env F) (r : Request) (e : Evidence) : Write F Unit := do
  run env fun db => { db with tombstones := db.tombstones ++ [tombstoneOf r e] }
  appendAudit env (auditOf r e)

omit [F64 F] in
/-- A purge that nothing interrupts is its jobs in a row. -/
theorem hardPurge_jobs (env : Env F) (id : Int) (deletedBy reason : Option String)
    (action : String) :
    hardPurgeWithAction env id deletedBy reason action = (do
      let now ← nowMillis env
      let c ← get
      let e ← deleteJob env id
      vacuumJob env
      vacuumJob env
      recordJob env ⟨id, deletedBy, reason, action, c.agentId, now⟩ e) := by
  unfold hardPurgeWithAction deleteJob
  simp only [bind_assoc]
  rfl

/-! ## Runs -/

/-- How far a purge has come. -/
inductive Stage where
  | requested
  | deleted (e : Evidence)
  | vacuumed (e : Evidence)
  | checkpointed (e : Evidence)

structure Purge where
  request : Request
  stage : Stage := .requested

/-- The store, the purges in flight, and the two history variables. -/
structure Forgetting (F : Type) where
  conn : Conn F
  inFlight : List Purge := []
  purged : List String := []
  finished : List String := []

/-- What happens next: a call other than a purge, a new purge, the next job of a purge in flight, or
a crash. -/
inductive Event (F : Type) where
  | call (op : Op F)
  | hardPurge (id : Int) (deletedBy reason : Option String)
  | ttlPurge (id : Int)
  | advance (k : Nat)
  | crash

/-- The public ids that the first job removed from `memories`, whatever its outcome. -/
def removed (id : Int) (db db' : Db F) : List String :=
  match db.memory? id, db'.memory? id with
  | some m, none => [m.publicId]
  | _, _ => []

/-- The next job of a purge: the outcome is its next stage, or nothing when the purge is over. -/
def job (env : Env F) (p : Purge) : Write F (Option Stage) :=
  match p.stage with
  | .requested => do return some (.deleted (← deleteJob env p.request.id))
  | .deleted e => do
    vacuumJob env
    return some (.vacuumed e)
  | .vacuumed e => do
    vacuumJob env
    return some (.checkpointed e)
  | .checkpointed e => do
    recordJob env p.request e
    return none

/-- The purge's last job runs with no storage fault in either of its statements. -/
def finishes (env : Env F) (c : Conn F) : Stage → List String
  | .checkpointed e => if !env.fault c.stmts && !env.fault (c.stmts + 1) then [e.publicId] else []
  | _ => []

def advance (env : Env F) (s : Forgetting F) (k : Nat) (p : Purge) : Forgetting F :=
  let c := (job env p s.conn).2
  { conn := c
    inFlight :=
      match (job env p s.conn).1 with
      | .ok (some stage) => s.inFlight.set k { p with stage }
      | .ok none | .error _ => s.inFlight.eraseIdx k
    purged := s.purged ++ removed p.request.id s.conn.db c.db
    finished := s.finished ++ finishes env s.conn p.stage }

/-- Start a purge: it reads the clock and its agent. -/
def request (env : Env F) (s : Forgetting F) (id : Int) (deletedBy reason : Option String)
    (action : String) : Forgetting F :=
  { s with
    conn := (nowMillis env s.conn).2
    inFlight := s.inFlight ++
      [⟨⟨id, deletedBy, reason, action, s.conn.agentId, env.clock s.conn.ticks⟩, .requested⟩] }

def Event.step (env : Env F) : Event F → Forgetting F → Forgetting F
  | call op, s => if op.purges then s else { s with conn := (op.step env s.conn).2 }
  | hardPurge id deletedBy reason, s => request env s id deletedBy reason "hard_delete"
  | ttlPurge id, s =>
    request env s id (some "ttl-reaper") (some "TTL grace period expired") "ttl_purge"
  | advance k, s =>
    match s.inFlight[k]? with
    | some p => Tombstones.advance env s k p
    | none => s
  | crash, s => { s with inFlight := [] }

def run (env : Env F) (events : List (Event F)) (s : Forgetting F) : Forgetting F :=
  events.foldl (fun s e => e.step env s) s

/-- A new database. -/
def start (F : Type) (agentId : String) (embedDim : Nat) : Forgetting F :=
  { conn := emptyStore F agentId embedDim }

/-! ## The ledger follows the last jobs -/

/-- The ledger has the tombstone of a purged id, and the audit row of its purge. -/
def Recorded (db : Db F) (publicId : String) : Prop :=
  (∃ t ∈ db.tombstones, t.publicId = publicId) ∧
    ∃ a ∈ db.forgetAudit, a.memoryIds = publicId ∧ a.action ∈ PURGE_ACTIONS

instance (db : Db F) (publicId : String) : Decidable (Recorded db publicId) :=
  inferInstanceAs (Decidable (_ ∧ _))

omit [F64 F] in
theorem Recorded.kept {db db' : Db F} {publicId : String} (h : Recorded db publicId)
    (hkept : LedgerKept db db') : Recorded db' publicId := by
  obtain ⟨⟨t, ht, heq⟩, a, ha, hname, haction⟩ := h
  obtain ⟨rows, hrows, _⟩ := hkept.audit
  exact ⟨⟨t, hkept.tombstones ▸ ht, heq⟩, a, hrows ▸ List.mem_append_left _ ha, hname, haction⟩

/-- The invariant of all runs. -/
structure Ledger (s : Forgetting F) : Prop where
  recorded : ∀ publicId ∈ s.finished, Recorded s.conn.db publicId
  audited : ∀ a ∈ s.conn.db.forgetAudit, a.action ∈ PURGE_ACTIONS → a.memoryIds ∈ s.finished
  actions : ∀ p ∈ s.inFlight, p.request.action ∈ PURGE_ACTIONS

omit [F64 F] in
/-- A step that writes neither tombstones nor audit rows of a purge. -/
theorem Ledger.kept {s s' : Forgetting F} (h : Ledger s) (hkept : LedgerKept s.conn.db s'.conn.db)
    (hfinished : s'.finished = s.finished)
    (hactions : ∀ p ∈ s'.inFlight, p.request.action ∈ PURGE_ACTIONS) : Ledger s' where
  recorded publicId hp := (h.recorded publicId (hfinished ▸ hp)).kept hkept
  audited a ha haction := by
    obtain ⟨rows, hrows, hsoft⟩ := hkept.audit
    rw [hfinished]
    rw [hrows] at ha
    rcases List.mem_append.mp ha with ha | ha
    · exact h.audited a ha haction
    · exact absurd haction (hsoft a ha)
  actions := hactions

omit [F64 F] in
private theorem ledger_deleteJob {env : Env F} {id : Int} :
    Moves (OnDb LedgerKept) (deleteJob env id) := by
  unfold deleteJob
  refine moves_bind onDb_query fun m => ?_
  refine moves_bind onDb_query fun before => ?_
  refine moves_bind (onDb_exec fun db _ db' h => ?_) fun _ => ?_
  · obtain rfl := deletePhase_ok h
    exact .of_same rfl rfl
  exact moves_bind onDb_query fun _ => moves_pure _

omit [F64 F] in
private theorem ledger_vacuumJob {env : Env F} : Moves (OnDb LedgerKept) (vacuumJob env) :=
  onDb_run fun _ => .of_same rfl rfl

omit [F64 F] in
/-- What the two statements of the last job leave: their outcome depends on the storage alone. -/
private theorem recordJob_db (env : Env F) (r : Request) (e : Evidence) (c : Conn F) :
    (recordJob env r e c).2.db =
      if env.fault c.stmts then c.db
      else if env.fault (c.stmts + 1) then
        { c.db with tombstones := c.db.tombstones ++ [tombstoneOf r e] }
      else { c.db with
        tombstones := c.db.tombstones ++ [tombstoneOf r e]
        forgetAudit := c.db.forgetAudit ++ [auditOf r e] } := by
  unfold recordJob appendAudit
  by_cases hfirst : env.fault c.stmts
  · rw [bind_of_error _ (run_of_fault hfirst), if_pos hfirst]
  rw [bind_of_ok _ (run_of_noFault (Bool.eq_false_iff.mpr hfirst)), if_neg hfirst]
  by_cases hsecond : env.fault (c.stmts + 1)
  · rw [run_of_fault hsecond, if_pos hsecond]
  · rw [run_of_noFault (Bool.eq_false_iff.mpr hsecond), if_neg hsecond]

omit [F64 F] in
private theorem mem_inFlight_advance {env : Env F} {s : Forgetting F} {k : Nat} {p : Purge}
    (hp : s.inFlight[k]? = some p) {q : Purge} (hq : q ∈ (advance env s k p).inFlight) :
    ∃ q' ∈ s.inFlight, q'.request = q.request := by
  unfold advance at hq
  dsimp only at hq
  split at hq
  · next stage _ =>
    rcases List.mem_or_eq_of_mem_set hq with hq | rfl
    · exact ⟨q, hq, rfl⟩
    · exact ⟨p, List.mem_of_getElem? hp, rfl⟩
  · exact ⟨q, List.mem_of_mem_eraseIdx hq, rfl⟩
  · exact ⟨q, List.mem_of_mem_eraseIdx hq, rfl⟩

omit [F64 F] in
/-- The last job of a purge. -/
theorem Ledger.record {env : Env F} {s s' : Forgetting F} (h : Ledger s) {r : Request}
    {e : Evidence} (haction : r.action ∈ PURGE_ACTIONS)
    (hdb : s'.conn.db = (recordJob env r e s.conn).2.db)
    (hfinished : s'.finished = s.finished ++ finishes env s.conn (.checkpointed e))
    (hactions : ∀ p ∈ s'.inFlight, p.request.action ∈ PURGE_ACTIONS) : Ledger s' := by
  rw [recordJob_db] at hdb
  by_cases hfirst : env.fault s.conn.stmts
  · -- nothing was written
    rw [if_pos hfirst] at hdb
    refine h.kept (.of_same (by rw [hdb]) (by rw [hdb])) ?_ hactions
    rw [hfinished, finishes, hfirst]
    exact List.append_nil _
  rw [if_neg hfirst] at hdb
  by_cases hsecond : env.fault (s.conn.stmts + 1)
  · -- a tombstone without its audit row
    rw [if_pos hsecond] at hdb
    have hsame : s'.finished = s.finished := by
      rw [hfinished, finishes, hsecond, Bool.not_true, Bool.and_false]
      exact List.append_nil _
    constructor
    · intro publicId hp
      rw [hdb]
      obtain ⟨⟨t, ht, heq⟩, haudit⟩ := h.recorded publicId (hsame ▸ hp)
      exact ⟨⟨t, List.mem_append_left _ ht, heq⟩, haudit⟩
    · intro a ha hpurge
      rw [hdb] at ha
      rw [hsame]
      exact h.audited a ha hpurge
    · exact hactions
  · rw [if_neg hsecond] at hdb
    have hadded : s'.finished = s.finished ++ [e.publicId] := by
      rw [hfinished, finishes, Bool.eq_false_iff.mpr hfirst, Bool.eq_false_iff.mpr hsecond]
      rfl
    constructor
    · intro publicId hp
      rw [hadded] at hp
      rw [hdb]
      rcases List.mem_append.mp hp with hp | hp
      · obtain ⟨⟨t, ht, heq⟩, a, ha, hrest⟩ := h.recorded publicId hp
        exact ⟨⟨t, List.mem_append_left _ ht, heq⟩, a, List.mem_append_left _ ha, hrest⟩
      · obtain rfl := List.mem_singleton.mp hp
        exact ⟨⟨_, List.mem_append_right _ (List.mem_singleton_self _), rfl⟩, _,
          List.mem_append_right _ (List.mem_singleton_self _), rfl, haction⟩
    · intro a ha hpurge
      rw [hdb] at ha
      rw [hadded]
      rcases List.mem_append.mp ha with ha | ha
      · exact List.mem_append_left _ (h.audited a ha hpurge)
      · obtain rfl := List.mem_singleton.mp ha
        exact List.mem_append_right _ (List.mem_singleton_self _)
    · exact hactions

omit [F64 F] in
theorem Ledger.advance {env : Env F} {s : Forgetting F} (h : Ledger s) {k : Nat} {p : Purge}
    (hp : s.inFlight[k]? = some p) : Ledger (advance env s k p) := by
  have hactions : ∀ q ∈ (Tombstones.advance env s k p).inFlight,
      q.request.action ∈ PURGE_ACTIONS := fun q hq => by
    obtain ⟨q', hq', heq⟩ := mem_inFlight_advance hp hq
    rw [← heq]
    exact h.actions q' hq'
  have hjob : ∀ m : Write F (Option Stage), Moves (OnDb LedgerKept) m →
      LedgerKept s.conn.db (m s.conn).2.db := fun m hm => hm s.conn
  cases hstage : p.stage with
  | requested =>
    refine h.kept (hjob (job env p) ?_) ?_ hactions
    · unfold job
      rw [hstage]
      exact moves_bind ledger_deleteJob fun _ => moves_pure _
    · show s.finished ++ finishes env s.conn p.stage = s.finished
      rw [hstage]
      exact List.append_nil _
  | deleted e =>
    refine h.kept (hjob (job env p) ?_) ?_ hactions
    · unfold job
      rw [hstage]
      exact moves_bind ledger_vacuumJob fun _ => moves_pure _
    · show s.finished ++ finishes env s.conn p.stage = s.finished
      rw [hstage]
      exact List.append_nil _
  | vacuumed e =>
    refine h.kept (hjob (job env p) ?_) ?_ hactions
    · unfold job
      rw [hstage]
      exact moves_bind ledger_vacuumJob fun _ => moves_pure _
    · show s.finished ++ finishes env s.conn p.stage = s.finished
      rw [hstage]
      exact List.append_nil _
  | checkpointed e =>
    have hdb : (Tombstones.advance env s k p).conn.db =
        (recordJob env p.request e s.conn).2.db := by
      show (job env p s.conn).2.db = _
      unfold job
      rw [hstage]
      dsimp only
      rw [bind_run]
      cases recordJob env p.request e s.conn with
      | mk r c => cases r <;> rfl
    have hfinished : (Tombstones.advance env s k p).finished =
        s.finished ++ finishes env s.conn (.checkpointed e) := by
      rw [← hstage]
      rfl
    exact h.record (h.actions p (List.mem_of_getElem? hp)) hdb hfinished hactions

theorem Ledger.step {env : Env F} {s : Forgetting F} (h : Ledger s) (e : Event F) :
    Ledger (e.step env s) := by
  have hrequest : ∀ id deletedBy reason action, action ∈ PURGE_ACTIONS →
      Ledger (request env s id deletedBy reason action) := by
    intro id deletedBy reason action haction
    refine h.kept (.of_same rfl rfl) rfl fun p hp => ?_
    rcases List.mem_append.mp hp with hp | hp
    · exact h.actions p hp
    · rw [List.mem_singleton.mp hp]
      exact haction
  cases e with
  | call op =>
    show Ledger (if op.purges then s else { s with conn := (op.step env s.conn).2 })
    split
    · exact h
    · next hop => exact h.kept (ledger_step (Bool.eq_false_iff.mpr hop) s.conn) rfl h.actions
  | hardPurge id deletedBy reason => exact hrequest _ _ _ _ (by decide)
  | ttlPurge id => exact hrequest _ _ _ _ (by decide)
  | advance k =>
    simp only [Event.step]
    split
    · next p hp => exact h.advance hp
    · exact h
  | crash => exact h.kept (Std.Refl.refl _) rfl (List.forall_mem_nil _)

omit [F64 F] in
private theorem start_ledger (agentId : String) (embedDim : Nat) :
    Ledger (start F agentId embedDim) where
  recorded := List.forall_mem_nil _
  audited := List.forall_mem_nil _
  actions := List.forall_mem_nil _

private theorem run_ledger {env : Env F} (events : List (Event F)) {s : Forgetting F} (h : Ledger s) :
    Ledger (run env events s) := by
  induction events generalizing s with
  | nil => exact h
  | cons e events ih => exact ih (h.step e)

omit [F64 F] in
theorem Ledger.recorded_iff {s : Forgetting F} (h : Ledger s) {publicId : String} :
    Recorded s.conn.db publicId ↔ publicId ∈ s.finished := by
  refine ⟨fun hrecorded => ?_, h.recorded publicId⟩
  obtain ⟨_, a, ha, rfl, haction⟩ := hrecorded
  exact h.audited a ha haction

/-! ## Runs without a crash or a storage fault -/

def Stage.evidence : Stage → Option Evidence
  | .requested => none
  | .deleted e | .vacuumed e | .checkpointed e => some e

/-- A purge of the id is between its first job and its last. -/
def UnderWay (s : Forgetting F) (publicId : String) : Prop :=
  ∃ p ∈ s.inFlight, ∃ e ∈ p.stage.evidence, e.publicId = publicId

omit [F64 F] in
private theorem removed_self (id : Int) (db : Db F) : removed id db db = [] := by
  unfold removed
  cases db.memory? id <;> rfl

omit [F64 F] in
private theorem removed_subset {id : Int} {db db' : Db F} {m : Memory F}
    (hm : db.memory? id = some m) :
    removed id db db' ⊆ [m.publicId] := by
  unfold removed
  rw [hm]
  cases db'.memory? id with
  | none => exact List.Subset.refl _
  | some m' => exact List.nil_subset _

omit [F64 F] in
theorem query_of_noFault {env : Env F} (hfault : ∀ n, env.fault n = false) {α : Type}
    {f : Db F → Except Error α} {c : Conn F} {a : α} (h : f c.db = .ok a) :
    ∃ c', query env f c = (.ok a, c') := by
  refine ⟨{ c with stmts := c.stmts + 1 }, ?_⟩
  unfold query exec
  simp only [hfault, h, Except.map, Bool.false_eq_true, if_false]

omit [F64 F] in
/-- Without a fault, the first job removes nothing or reports what it removed. -/
private theorem deleteJob_removed {env : Env F} (hfault : ∀ n, env.fault n = false) (id : Int)
    (c : Conn F) :
    removed id c.db (deleteJob env id c).2.db = [] ∨ ∃ e c', deleteJob env id c = (.ok e, c') ∧
      removed id c.db (deleteJob env id c).2.db ⊆ [e.publicId] := by
  have hsame : (deleteJob env id c).2.db = c.db →
      removed id c.db (deleteJob env id c).2.db = [] := fun h => by rw [h, removed_self]
  unfold deleteJob at hsame ⊢
  rcases same_bind (query_db _) _ c with h | ⟨m, c₁, hm, hdb₁, heq⟩
  · exact .inl (hsame h)
  rw [heq] at hsame ⊢
  rcases same_bind (query_db _) _ c₁ with h | ⟨before, c₂, _, hdb₂, heq⟩
  · exact .inl (hsame (h.trans hdb₁))
  rw [heq] at hsame ⊢
  rcases exec_noFault hfault (f := deletePhase id) c₂ with
    ⟨_, c₃, hexec, hdelete⟩ | ⟨e, c₃, hexec, _, hdb₃⟩
  · rw [bind_of_ok _ hexec]
    have hdb₃ : c₃.db = Purge.without id c₂.db := deletePhase_ok hdelete
    have hnone : (mentions c₃.db id).find? (fun entry => entry.2 ≠ 0) = none := by
      rw [List.find?_eq_none]
      intro entry hentry hne
      rw [hdb₃] at hentry
      exact of_decide_eq_true hne (Purge.mentions_without entry hentry)
    obtain ⟨c₄, hverify⟩ := query_of_noFault hfault (c := c₃) (a := ())
      (f := fun db => match (mentions db id).find? fun entry => entry.2 ≠ 0 with
        | some (table, n) => .error (.storage
            ("purge verification failed: " ++ toString n ++ " row(s) survived on " ++ table))
        | none => .ok ()) (by rw [hnone])
    rw [bind_of_ok _ hverify]
    exact .inr ⟨_, _, rfl, removed_subset (one_ok (query_ok hm).1)⟩
  · rw [bind_of_error _ hexec] at hsame ⊢
    exact .inl (hsame (hdb₃.trans (hdb₂.trans hdb₁)))

omit [F64 F] in
/-- A purge other than the one that moves keeps its place. -/
theorem UnderWay.other {s s' : Forgetting F} {k : Nat} {publicId : String} {p : Purge}
    (h : UnderWay s publicId) (hp : s.inFlight[k]? = some p)
    (hflight : s'.inFlight = s.inFlight.eraseIdx k ∨ ∃ q, s'.inFlight = s.inFlight.set k q)
    (hself : (∃ e ∈ p.stage.evidence, e.publicId = publicId) → UnderWay s' publicId) :
    UnderWay s' publicId := by
  obtain ⟨q, hq, hevidence⟩ := h
  obtain ⟨i, hi⟩ := List.getElem?_of_mem hq
  by_cases hik : i = k
  · rw [hik, hp] at hi
    obtain rfl := Option.some.inj hi
    exact hself hevidence
  · refine ⟨q, ?_, hevidence⟩
    rcases hflight with hflight | ⟨r, hflight⟩
    · rw [hflight]
      exact List.mem_eraseIdx_iff_getElem?.mpr ⟨i, hik, hi⟩
    · rw [hflight]
      refine List.mem_of_getElem? (i := i) ?_
      rw [List.getElem?_set_ne (fun heq => hik heq.symm)]
      exact hi

/-- Every purged id is accounted for. -/
def Accounted (s : Forgetting F) : Prop :=
  ∀ publicId ∈ s.purged, publicId ∈ s.finished ∨ UnderWay s publicId

omit [F64 F] in
/-- A job after the first, which succeeds and keeps the memories. -/
theorem Accounted.later {env : Env F} {s : Forgetting F} (h : Accounted s) {k : Nat} {p : Purge}
    (hp : s.inFlight[k]? = some p) {e : Evidence} {next : Option Stage} {c' : Conn F}
    (hjob : job env p s.conn = (.ok next, c')) (hevidence : p.stage.evidence = some e)
    (hmemories : c'.db.memories = s.conn.db.memories)
    (hnext : (∃ stage, next = some stage ∧ stage.evidence = some e) ∨
      next = none ∧ e.publicId ∈ finishes env s.conn p.stage) :
    Accounted (advance env s k p) := by
  have hpurged : (advance env s k p).purged = s.purged := by
    have hnone : removed p.request.id s.conn.db c'.db = [] := by
      unfold removed Db.memory?
      rw [hmemories]
      cases s.conn.db.memories.find? fun m => m.id = p.request.id <;> rfl
    show s.purged ++ removed p.request.id s.conn.db (job env p s.conn).2.db = s.purged
    rw [hjob, hnone, List.append_nil]
  have hk : k < s.inFlight.length := (List.getElem?_eq_some_iff.mp hp).1
  intro publicId hpublicId
  rw [hpurged] at hpublicId
  rcases h publicId hpublicId with hfinished | hunderWay
  · exact .inl (List.mem_append_left _ hfinished)
  rcases hnext with ⟨stage, rfl, hstage⟩ | ⟨rfl, hfinishes⟩
  · have hflight : (advance env s k p).inFlight = s.inFlight.set k { p with stage } := by
      unfold Tombstones.advance
      rw [hjob]
    refine .inr (hunderWay.other hp (.inr ⟨_, hflight⟩) fun ⟨e', he', hname⟩ => ?_)
    refine ⟨{ p with stage }, hflight ▸ List.mem_set hk _, e', ?_, hname⟩
    rw [hevidence] at he'
    exact hstage.trans he'
  · by_cases hname : e.publicId = publicId
    · exact .inl (List.mem_append_right _ (hname ▸ hfinishes))
    · have hflight : (advance env s k p).inFlight = s.inFlight.eraseIdx k := by
        unfold Tombstones.advance
        rw [hjob]
      refine .inr (hunderWay.other hp (.inl hflight) fun ⟨e', he', hname'⟩ => ?_)
      rw [hevidence] at he'
      rw [← Option.some.inj he'] at hname'
      exact absurd hname' hname

omit [F64 F] in
/-- The first job. -/
theorem Accounted.first {env : Env F} (hfault : ∀ n, env.fault n = false) {s : Forgetting F}
    (h : Accounted s) {k : Nat} {p : Purge} (hp : s.inFlight[k]? = some p)
    (hstage : p.stage = .requested) : Accounted (advance env s k p) := by
  have hk : k < s.inFlight.length := (List.getElem?_eq_some_iff.mp hp).1
  have hjob : job env p s.conn = (deleteJob env p.request.id >>= fun e =>
      pure (some (Stage.deleted e))) s.conn := by
    unfold job
    rw [hstage]
  have hdb : (job env p s.conn).2.db = (deleteJob env p.request.id s.conn).2.db := by
    rw [hjob, bind_run]
    cases deleteJob env p.request.id s.conn with
    | mk r c => cases r <;> rfl
  have hflight : (advance env s k p).inFlight = s.inFlight.eraseIdx k ∨
      ∃ q, (advance env s k p).inFlight = s.inFlight.set k q := by
    unfold Tombstones.advance
    dsimp only
    split
    · exact .inr ⟨_, rfl⟩
    · exact .inl rfl
    · exact .inl rfl
  have hold : ∀ publicId ∈ s.purged, publicId ∈ (advance env s k p).finished ∨
      UnderWay (advance env s k p) publicId := by
    intro publicId hpublicId
    rcases h publicId hpublicId with hfinished | hunderWay
    · exact .inl (List.mem_append_left _ hfinished)
    · refine .inr (hunderWay.other hp hflight fun ⟨e, he, _⟩ => ?_)
      rw [hstage] at he
      cases he
  intro publicId hpublicId
  rcases List.mem_append.mp hpublicId with hpublicId | hremoved
  · exact hold publicId hpublicId
  rw [hdb] at hremoved
  rcases deleteJob_removed hfault p.request.id s.conn with hnone | ⟨e, c', hok, hsubset⟩
  · rw [hnone] at hremoved
    cases hremoved
  · have hname := List.mem_singleton.mp (hsubset hremoved)
    have hset : (advance env s k p).inFlight = s.inFlight.set k { p with stage := .deleted e } := by
      unfold Tombstones.advance
      rw [hjob, bind_of_ok _ hok]
      rfl
    exact .inr ⟨_, hset ▸ List.mem_set hk _, e, rfl, hname.symm⟩

omit [F64 F] in
theorem Accounted.advance {env : Env F} (hfault : ∀ n, env.fault n = false) {s : Forgetting F}
    (h : Accounted s) {k : Nat} {p : Purge} (hp : s.inFlight[k]? = some p) :
    Accounted (advance env s k p) := by
  have hvacuum : ∀ stage : Stage,
      (vacuumJob env >>= fun _ => pure (some stage) : Write F (Option Stage)) s.conn =
        (.ok (some stage), { s.conn with stmts := s.conn.stmts + 1 }) := fun stage => by
    rw [vacuumJob, bind_of_ok _ (run_of_noFault (hfault _))]
    rfl
  cases hstage : p.stage with
  | requested => exact h.first hfault hp hstage
  | deleted e =>
    have hjob : job env p s.conn =
        (.ok (some (.vacuumed e)), { s.conn with stmts := s.conn.stmts + 1 }) := by
      unfold job
      rw [hstage]
      exact hvacuum (.vacuumed e)
    exact h.later hp hjob (by rw [hstage]; rfl) rfl (.inl ⟨_, rfl, rfl⟩)
  | vacuumed e =>
    have hjob : job env p s.conn =
        (.ok (some (.checkpointed e)), { s.conn with stmts := s.conn.stmts + 1 }) := by
      unfold job
      rw [hstage]
      exact hvacuum (.checkpointed e)
    exact h.later hp hjob (by rw [hstage]; rfl) rfl (.inl ⟨_, rfl, rfl⟩)
  | checkpointed e =>
    have hjob : ∃ c', job env p s.conn = (.ok none, c') ∧
        c'.db.memories = s.conn.db.memories := by
      unfold job recordJob appendAudit
      rw [hstage]
      dsimp only
      rw [Program.bind_assoc, bind_of_ok _ (run_of_noFault (hfault _)),
        bind_of_ok _ (run_of_noFault (hfault _))]
      exact ⟨_, rfl, rfl⟩
    obtain ⟨c', hjob, hmemories⟩ := hjob
    have hfinishes : e.publicId ∈ finishes env s.conn p.stage := by
      rw [hstage, finishes, hfault, hfault]
      exact List.mem_singleton_self _
    exact h.later hp hjob (by rw [hstage]; rfl) hmemories (.inr ⟨rfl, hfinishes⟩)

omit [F64 F] in
theorem UnderWay.mono {s s' : Forgetting F} {publicId : String} (h : UnderWay s publicId)
    (hflight : s.inFlight ⊆ s'.inFlight) : UnderWay s' publicId := by
  obtain ⟨p, hp, hevidence⟩ := h
  exact ⟨p, hflight hp, hevidence⟩

theorem Accounted.step {env : Env F} (hfault : ∀ n, env.fault n = false) {s : Forgetting F}
    (h : Accounted s) {e : Event F} (hcrash : Event.crash ≠ e) : Accounted (e.step env s) := by
  have hrequest : ∀ id deletedBy reason action,
      Accounted (request env s id deletedBy reason action) := fun _ _ _ _ publicId hpublicId =>
    (h publicId hpublicId).imp_right fun hunderWay =>
      hunderWay.mono (List.subset_append_left _ _)
  cases e with
  | call op =>
    show Accounted (if op.purges then s else { s with conn := (op.step env s.conn).2 })
    split
    · exact h
    · exact h
  | hardPurge id deletedBy reason => exact hrequest _ _ _ _
  | ttlPurge id => exact hrequest _ _ _ _
  | advance k =>
    simp only [Event.step]
    split
    · next p hp => exact h.advance hfault hp
    · exact h
  | crash => exact absurd rfl hcrash

private theorem run_accounted {env : Env F} (hfault : ∀ n, env.fault n = false)
    {events : List (Event F)}
    (hcrash : Event.crash ∉ events) {s : Forgetting F} (h : Accounted s) :
    Accounted (run env events s) := by
  induction events generalizing s with
  | nil => exact h
  | cons e events ih =>
    rw [List.mem_cons, not_or] at hcrash
    exact ih hcrash.2 (h.step hfault hcrash.1)

/-- Only a crash or a storage fault separates a removal from its record for good: in any other run
every purged memory is recorded, or its purge still has jobs to run. -/
theorem recorded_or_underWay {env : Env F} (hfault : ∀ n, env.fault n = false)
    {events : List (Event F)} (hcrash : Event.crash ∉ events) (agentId : String) (embedDim : Nat) :
    ∀ publicId ∈ (run env events (start F agentId embedDim)).purged,
      Recorded (run env events (start F agentId embedDim)).conn.db publicId ∨
        UnderWay (run env events (start F agentId embedDim)) publicId := by
  have haccounted : Accounted (run env events (start F agentId embedDim)) :=
    run_accounted hfault hcrash (List.forall_mem_nil _)
  have hledger := @run_ledger F _ env events _ (start_ledger agentId embedDim)
  exact fun publicId hpublicId => (haccounted publicId hpublicId).imp_left hledger.recorded_iff.mpr

/-! ## Tombstones -/

/-- A step added a row under the public id. -/
def Inserted (publicId : String) (db db' : Db F) : Prop :=
  ∃ m' ∈ db'.memories, m'.publicId = publicId ∧ ∀ m ∈ db.memories, m.id ≠ m'.id

instance (publicId : String) (db db' : Db F) : Decidable (Inserted publicId db db') :=
  inferInstanceAs (Decidable (∃ m' ∈ db'.memories, _ ∧ _))

/-- The public id is recorded, and no import inserts it. -/
def Tombstoned (env : Env F) (c : Conn F) (publicId : String) : Prop :=
  Recorded c.db publicId ∧ ∀ emb schema file dryRun,
    ¬ Inserted publicId c.db (Export.importFile env emb schema file dryRun c).2.db

theorem Recorded.tombstoned {env : Env F} {c : Conn F} {publicId : String}
    (h : Recorded c.db publicId) : Tombstoned env c publicId := by
  refine ⟨h, fun emb schema file dryRun ⟨m', hm', hname, hnew⟩ => ?_⟩
  obtain ⟨⟨t, ht, heq⟩, _⟩ := h
  have himport : NoRevival c.db (Export.importFile env emb schema file dryRun c).2.db :=
    noRevival_importFile c
  rcases himport.memories m' hm' with ⟨m, hm, hid, _⟩ | hfree
  · exact hnew m hm hid
  · exact hfree t ht (heq.trans hname.symm)

/-- In every state of every run, a purged memory has its tombstone and its audit row, and no import
inserts it again, exactly when a purge of it came through its last job. -/
theorem tombstoned_iff_finished (env : Env F) (events : List (Event F)) (agentId : String)
    (embedDim : Nat) :
    ∀ publicId ∈ (run env events (start F agentId embedDim)).purged,
      (Tombstoned env (run env events (start F agentId embedDim)).conn publicId ↔
        publicId ∈ (run env events (start F agentId embedDim)).finished) := by
  intro publicId _
  have hledger := @run_ledger F _ env events _ (start_ledger agentId embedDim)
  exact ⟨fun h => hledger.recorded_iff.mp h.1, fun h => (hledger.recorded publicId h).tombstoned⟩

/-- One memory and its purge, with nothing in between. -/
def uninterrupted : List (Event ℚ) :=
  [.call (.insertMemory ⟨"semantic", "fact", "sky", "user"⟩), .hardPurge 1 none none, .advance 0,
    .advance 0, .advance 0, .advance 0]

theorem tombstoned_uninterrupted :
    Tombstoned sampleEnv (run sampleEnv uninterrupted (start ℚ "a" 1)).conn "m0" :=
  (tombstoned_iff_finished sampleEnv uninterrupted "a" 1 "m0" (by decide +kernel)).mpr
    (by decide +kernel)

/-- One memory, whose purge is cut short after its first job. -/
def crashed : Forgetting ℚ :=
  run sampleEnv [.call (.insertMemory ⟨"semantic", "fact", "sky", "user"⟩), .hardPurge 1 none none,
    .advance 0, .crash] (start ℚ "a" 1)

/-- An export taken before the purge. -/
def oldExport : Export.ImportFile ℚ where
  name := "memories.jsonl"
  header := some (.ok ⟨Export.FORMAT, Export.FORMAT_VERSION, 0, "a"⟩)
  lines := [some (.ok {
    schemaVersion := 1, publicId := "m0", tier := "semantic", kind := "fact", text := "sky"
    textHash := "sky", status := "active", trust := "trusted", confidence := 1
    provenance := ⟨"user", none⟩, createdAt := 0, updatedAt := 0 })]

/-- The crash leaves a purged memory without a record, and the old export brings it back. -/
theorem purged_then_imported : "m0" ∈ crashed.purged ∧ ¬ Recorded crashed.conn.db "m0" ∧
    Inserted "m0" crashed.conn.db
      (Export.importFile sampleEnv sampleEmbedder 1 oldExport false crashed.conn).2.db ∧
    ¬ Tombstoned sampleEnv crashed.conn "m0" := by
  have hlost : ¬ Recorded crashed.conn.db "m0" := by decide +kernel
  exact ⟨by decide +kernel, hlost, by decide +kernel, fun h => hlost h.1⟩

end AgosMemory.Tombstones
