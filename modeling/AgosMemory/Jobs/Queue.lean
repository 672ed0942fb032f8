import AgosMemory.Library.Program
import AgosMemory.Storage.Schema

/-!
# Durable jobs queue

The `jobs` and `jobs_dead` tables and the writer closures over them. Each closure reads the clock
before it is sent, so `now` is a parameter.
-/

namespace AgosMemory.Jobs

open Library

/-! ## Tables -/

inductive JobKind where
  | extract | summarize | maintain | reembed | reeval
  deriving DecidableEq, Repr

def JobKind.sql : JobKind → String
  | extract => "extract" | summarize => "summarize" | maintain => "maintain"
  | reembed => "reembed" | reeval => "reeval"

/-- Valid job kinds (matches the schema `CHECK`). -/
def KINDS : List JobKind := [.extract, .summarize, .maintain, .reembed, .reeval]

def JobKind.ofSql? (s : String) : Option JobKind := KINDS.find? fun k => k.sql = s

inductive JobStatus where
  | queued | running | done | failed | dead
  deriving DecidableEq, Repr

/-- A `jobs` row. -/
structure Job where
  id : Int
  kind : JobKind
  payloadJson : String
  status : JobStatus := .queued
  attempts : Int := 0
  maxAttempts : Int := 3
  runAfter : Int := 0
  lockedAt : Option Int := none
  lockOwner : Option String := none
  lastError : Option String := none
  idempotencyKey : String
  createdAt : Int
  updatedAt : Int
  deriving DecidableEq, Repr

/-- A `jobs_dead` row. -/
structure JobDead where
  jobId : Int
  kind : JobKind
  payloadJson : String
  error : String
  attempts : Int
  failedAt : Int
  reprocessedAt : Option Int := none
  deriving DecidableEq, Repr

structure Queue where
  jobs : List Job := []
  seq : Int := 0
  dead : List JobDead := []
  deriving DecidableEq, Repr

abbrev Closure (α : Type) := Program Error Queue α

namespace Queue

/-- `... FROM jobs WHERE id = ?1` -/
def job? (q : Queue) (id : Int) : Option Job := q.jobs.find? fun j => j.id = id

/-- `... FROM jobs WHERE idempotency_key = ?1` -/
def byKey? (q : Queue) (key : String) : Option Job := q.jobs.find? fun j => j.idempotencyKey = key

/-- `UPDATE jobs SET ... WHERE id = ?` -/
def updateJob (q : Queue) (id : Int) (f : Job → Job) : Queue :=
  { q with jobs := q.jobs.map fun j => if j.id = id then f j else j }

end Queue

/-! ## Closures -/

/-- Default attempts before a job goes to the dead letters. -/
def DEFAULT_MAX_ATTEMPTS : Int := 5

def kindError (kind : String) : Error := .invalidInput
  ("job kind must be one of extract/summarize/maintain/reembed/reeval, got '" ++ kind ++ "'")

/-- Without a key, one is derived from kind and payload. -/
def keyOf (sha256Hex : String → String) (kind payloadJson : String) (key : Option String) : String :=
  key.getD (sha256Hex (kind ++ ":" ++ payloadJson))

/-- The row that `INSERT INTO jobs` adds. -/
def freshJob (id : Int) (kind : JobKind) (payloadJson key : String) (now : Int) : Job where
  id := id
  kind := kind
  payloadJson := payloadJson
  maxAttempts := DEFAULT_MAX_ATTEMPTS
  idempotencyKey := key
  createdAt := now
  updatedAt := now

/-- Enqueue a job; the same `idempotency_key` returns the existing id. -/
def enqueue (sha256Hex : String → String) (kind payloadJson : String) (key : Option String)
    (now : Int) : Closure Int := fun q =>
  match JobKind.ofSql? kind with
  | none => (.error (kindError kind), q)
  | some k =>
    match q.byKey? (keyOf sha256Hex kind payloadJson key) with
    | some j => (.ok j.id, q)
    | none =>
      (.ok (q.seq + 1), { q with
        seq := q.seq + 1
        jobs := q.jobs ++
          [freshJob (q.seq + 1) k payloadJson (keyOf sha256Hex kind payloadJson key) now] })

/-- One claimed job, as its handler sees it. -/
structure JobRow where
  id : Int
  kind : JobKind
  payloadJson : String
  attempts : Int
  deriving DecidableEq, Repr

/-- `status = 'queued' AND run_after <= ?1` -/
def Job.eligible (now : Int) (j : Job) : Bool := j.status = .queued ∧ j.runAfter ≤ now

/-- `SELECT ... WHERE status = 'queued' AND run_after <= ?1 ORDER BY id LIMIT 1` -/
def Queue.nextJob (q : Queue) (now : Int) : Option Job :=
  (q.jobs.filter (Job.eligible now)).minOn? Job.id

/-- The row of a claimed job. -/
def Job.claimed (owner : String) (now : Int) (j : Job) : Job :=
  { j with
    status := .running, attempts := j.attempts + 1, lockedAt := some now, lockOwner := some owner
    updatedAt := now }

/-- Claim the oldest queued job whose `run_after` has passed. -/
def claimNext (owner : String) (now : Int) : Closure (Option JobRow) := fun q =>
  match q.nextJob now with
  | none => (.ok none, q)
  | some j =>
    (.ok (some ⟨j.id, j.kind, j.payloadJson, j.attempts + 1⟩),
      q.updateJob j.id (Job.claimed owner now))

def Job.completed (now : Int) (j : Job) : Job :=
  { j with status := .done, lockedAt := none, lockOwner := none, updatedAt := now }

/-- Mark a job done. -/
def complete (jobId now : Int) : Closure Unit := fun q =>
  (.ok (), q.updateJob jobId (Job.completed now))

/-- `1i64 << attempts.min(10)` -/
def backoffSecs (attempts : Int) : Int := 2 ^ (min attempts 10).toNat

def Job.retried (err : String) (attempts now : Int) (j : Job) : Job :=
  { j with
    status := .queued, runAfter := now + backoffSecs attempts * 1000, lastError := some err
    lockedAt := none, lockOwner := none, updatedAt := now }

def Job.buried (err : String) (now : Int) (j : Job) : Job :=
  { j with
    status := .dead, lastError := some err, lockedAt := none, lockOwner := none, updatedAt := now }

/-- Fail a job: retry with backoff, or move to the dead letters when attempts are exhausted. -/
def fail (jobId : Int) (err : String) (now : Int) : Closure Unit := fun q =>
  match q.job? jobId with
  | none => (.error (.storage "Query returned no rows"), q)
  | some j =>
    if j.attempts < j.maxAttempts then
      (.ok (), q.updateJob jobId (Job.retried err j.attempts now))
    else
      (.ok (), { q.updateJob jobId (Job.buried err now) with
        dead := q.dead ++ [⟨jobId, j.kind, j.payloadJson, err, j.attempts, now, none⟩] })

def Job.requeued (now : Int) (j : Job) : Job :=
  if j.status = .dead then
    { j with status := .queued, attempts := 0, runAfter := 0, lastError := none, updatedAt := now }
  else j

/-- `UPDATE jobs_dead SET reprocessed_at = ?1 WHERE job_id = ?2 AND reprocessed_at IS NULL` -/
def JobDead.reprocess (jobId now : Int) (d : JobDead) : JobDead :=
  if d.jobId = jobId ∧ d.reprocessedAt = none then { d with reprocessedAt := some now } else d

/-- Recover a dead job back to queued (clears attempts). -/
def requeueDead (jobId now : Int) : Closure Unit := fun q =>
  if q.jobs.any fun j => j.id = jobId ∧ j.status = .dead then
    (.ok (), { q.updateJob jobId (Job.requeued now) with
      dead := q.dead.map (JobDead.reprocess jobId now) })
  else (.error (.invalidInput ("job " ++ toString jobId ++ " is not dead; nothing to requeue")), q)

/-! ## What a claim and an enqueue return -/

/-- A claim takes the smallest id among the queued jobs that are due. -/
theorem nextJob_some {q : Queue} {now : Int} {j : Job} (h : q.nextJob now = some j) :
    j ∈ q.jobs ∧ j.status = .queued ∧ j.runAfter ≤ now ∧
      ∀ i ∈ q.jobs, i.status = .queued → i.runAfter ≤ now → j.id ≤ i.id := by
  have hmem := List.mem_filter.mp (List.minOn?_mem h)
  obtain ⟨hstatus, hdue⟩ := of_decide_eq_true hmem.2
  refine ⟨hmem.1, hstatus, hdue, fun i hi hqueued hle => ?_⟩
  have heligible : i ∈ q.jobs.filter (Job.eligible now) :=
    List.mem_filter.mpr ⟨hi, decide_eq_true ⟨hqueued, hle⟩⟩
  have hmin := List.apply_get_minOn?_le_of_mem (f := Job.id) heligible
  have hget : ((q.jobs.filter (Job.eligible now)).minOn? Job.id).get
      (List.isSome_minOn?_of_mem heligible) = j := Option.get_of_eq_some _ h
  rwa [hget] at hmin

theorem job?_some {q : Queue} {id : Int} {j : Job} (h : q.job? id = some j) :
    j ∈ q.jobs ∧ j.id = id :=
  ⟨List.mem_of_find?_eq_some h, by simpa using List.find?_some h⟩

theorem byKey?_some {q : Queue} {key : String} {j : Job} (h : q.byKey? key = some j) :
    j ∈ q.jobs ∧ j.idempotencyKey = key :=
  ⟨List.mem_of_find?_eq_some h, by simpa using List.find?_some h⟩

theorem byKey?_none {q : Queue} {key : String} (h : q.byKey? key = none) :
    ∀ j ∈ q.jobs, j.idempotencyKey ≠ key := fun j hj => by
  have hno := List.find?_eq_none.mp h j hj
  simpa using hno

theorem mem_updateJob {q : Queue} {id : Int} {f : Job → Job} {j : Job} :
    j ∈ (q.updateJob id f).jobs ↔ ∃ i ∈ q.jobs, j = if i.id = id then f i else i := by
  simp only [Queue.updateJob, List.mem_map, eq_comm]

end AgosMemory.Jobs
