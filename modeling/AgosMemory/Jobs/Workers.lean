import AgosMemory.Jobs.Queue
import Mathlib.Data.List.Nodup
import Mathlib.Logic.Function.Basic

/-!
# Workers on the queue

Any number of workers claim a job, run its handler and record one outcome; anyone may enqueue or
requeue at any time. A step is one writer closure. The invariant ties the status of each job to the
worker that holds it and to its dead-letter row.
-/

namespace AgosMemory.Jobs

open Library

/-! ## Invariant of the two tables -/

/-- Dead-letter rows of a job that nobody has reprocessed. -/
def openRows (dead : List JobDead) (id : Int) : Nat :=
  dead.countP fun d => d.jobId = id ∧ d.reprocessedAt = none

structure Queue.Valid (q : Queue) : Prop where
  ids : (q.jobs.map Job.id).Nodup
  idBound : ∀ j ∈ q.jobs, j.id ≤ q.seq
  keys : (q.jobs.map Job.idempotencyKey).Nodup
  attempts : ∀ j ∈ q.jobs, 0 ≤ j.attempts ∧ j.attempts ≤ j.maxAttempts
  /-- A queued job has an attempt left. -/
  left : ∀ j ∈ q.jobs, j.status = .queued → j.attempts < j.maxAttempts
  maxAttempts : ∀ j ∈ q.jobs, 0 < j.maxAttempts
  dead : ∀ j ∈ q.jobs, openRows q.dead j.id = if j.status = .dead then 1 else 0
  deadJobs : ∀ d ∈ q.dead, ∃ j ∈ q.jobs, j.id = d.jobId
  /-- No closure writes `failed`. -/
  status : ∀ j ∈ q.jobs, j.status ≠ .failed

theorem Queue.Valid.empty : Queue.Valid {} := by
  constructor <;> simp

section

variable {q : Queue} {id : Int}

theorem Queue.Valid.eq_of_id (h : q.Valid) {i j : Job} (hi : i ∈ q.jobs) (hj : j ∈ q.jobs)
    (hid : i.id = j.id) : i = j :=
  List.inj_on_of_nodup_map h.ids hi hj hid

theorem Queue.Valid.job? (h : q.Valid) {j : Job} (hj : j ∈ q.jobs) : q.job? j.id = some j := by
  cases hfound : q.job? j.id with
  | none =>
    have hno := List.find?_eq_none.mp hfound j hj
    simp at hno
  | some i =>
    obtain ⟨hi, hid⟩ := job?_some hfound
    rw [h.eq_of_id hi hj hid]

/-- An update that keeps the keys of a job. -/
structure KeepsKeys (f : Job → Job) : Prop where
  id : ∀ j, (f j).id = j.id
  key : ∀ j, (f j).idempotencyKey = j.idempotencyKey
  maxAttempts : ∀ j, (f j).maxAttempts = j.maxAttempts

private theorem map_updateJob {α : Type} {f : Job → Job} {g : Job → α} (hg : ∀ j, g (f j) = g j) :
    (q.updateJob id f).jobs.map g = q.jobs.map g := by
  rw [Queue.updateJob, List.map_map]
  refine List.map_congr_left fun j _ => ?_
  show g (if j.id = id then f j else j) = g j
  split
  · exact hg j
  · rfl

/-- One job changes, and the dead letters with it. -/
theorem Queue.Valid.update (h : q.Valid) {f : Job → Job} (hf : KeepsKeys f) {dead : List JobDead}
    (hattempts : ∀ j ∈ q.jobs, j.id = id → 0 ≤ (f j).attempts ∧ (f j).attempts ≤ j.maxAttempts)
    (hleft : ∀ j ∈ q.jobs, j.id = id → (f j).status = .queued → (f j).attempts < j.maxAttempts)
    (hother : ∀ i, i ≠ id → openRows dead i = openRows q.dead i)
    (hdead : ∀ j ∈ q.jobs, j.id = id → openRows dead id = if (f j).status = .dead then 1 else 0)
    (hjobs : ∀ d ∈ dead, ∃ j ∈ q.jobs, j.id = d.jobId)
    (hstatus : ∀ j ∈ q.jobs, (f j).status ≠ .failed) :
    Queue.Valid { q.updateJob id f with dead } := by
  have hcases : ∀ j ∈ (q.updateJob id f).jobs,
      (j ∈ q.jobs ∧ j.id ≠ id) ∨ ∃ i ∈ q.jobs, i.id = id ∧ j = f i := by
    intro j hj
    obtain ⟨i, hi, rfl⟩ := mem_updateJob.mp hj
    by_cases hid : i.id = id
    · rw [if_pos hid]
      exact .inr ⟨i, hi, hid, rfl⟩
    · rw [if_neg hid]
      exact .inl ⟨hi, hid⟩
  constructor
  case ids => rw [map_updateJob hf.id]; exact h.ids
  case keys => rw [map_updateJob hf.key]; exact h.keys
  case idBound =>
    intro j hj
    rcases hcases j hj with ⟨hj, _⟩ | ⟨i, hi, _, rfl⟩
    · exact h.idBound j hj
    · rw [hf.id]
      exact h.idBound i hi
  case attempts =>
    intro j hj
    rcases hcases j hj with ⟨hj, _⟩ | ⟨i, hi, hid, rfl⟩
    · exact h.attempts j hj
    · rw [hf.maxAttempts]
      exact hattempts i hi hid
  case left =>
    intro j hj hstatus
    rcases hcases j hj with ⟨hj, _⟩ | ⟨i, hi, hid, rfl⟩
    · exact h.left j hj hstatus
    · rw [hf.maxAttempts]
      exact hleft i hi hid hstatus
  case maxAttempts =>
    intro j hj
    rcases hcases j hj with ⟨hj, _⟩ | ⟨i, hi, _, rfl⟩
    · exact h.maxAttempts j hj
    · rw [hf.maxAttempts]
      exact h.maxAttempts i hi
  case dead =>
    intro j hj
    rcases hcases j hj with ⟨hj, hne⟩ | ⟨i, hi, hid, rfl⟩
    · rw [hother j.id hne]
      exact h.dead j hj
    · rw [hf.id, hid]
      exact hdead i hi hid
  case deadJobs =>
    intro d hd
    obtain ⟨j, hj, hid⟩ := hjobs d hd
    refine ⟨if j.id = id then f j else j, mem_updateJob.mpr ⟨j, hj, rfl⟩, ?_⟩
    split
    · rw [hf.id]
      exact hid
    · exact hid
  case status =>
    intro j hj
    rcases hcases j hj with ⟨hj, _⟩ | ⟨i, hi, _, rfl⟩
    · exact h.status j hj
    · exact hstatus i hi

theorem keepsKeys_claimed {owner : String} {now : Int} : KeepsKeys (Job.claimed owner now) :=
  ⟨fun _ => rfl, fun _ => rfl, fun _ => rfl⟩

theorem keepsKeys_completed {now : Int} : KeepsKeys (Job.completed now) :=
  ⟨fun _ => rfl, fun _ => rfl, fun _ => rfl⟩

private theorem keepsKeys_retried {err : String} {attempts now : Int} :
    KeepsKeys (Job.retried err attempts now) :=
  ⟨fun _ => rfl, fun _ => rfl, fun _ => rfl⟩

private theorem keepsKeys_buried {err : String} {now : Int} : KeepsKeys (Job.buried err now) :=
  ⟨fun _ => rfl, fun _ => rfl, fun _ => rfl⟩

theorem keepsKeys_requeued {now : Int} : KeepsKeys (Job.requeued now) := by
  constructor <;> intro j <;> unfold Job.requeued <;> split <;> rfl

/-! ## Each closure keeps the tables valid -/

private theorem enqueue_valid (sha256Hex : String → String) (kind payloadJson : String)
    (key : Option String) (now : Int) (h : q.Valid) :
    (enqueue sha256Hex kind payloadJson key now q).2.Valid := by
  unfold enqueue
  cases JobKind.ofSql? kind with
  | none => exact h
  | some k =>
    cases hkey : q.byKey? (keyOf sha256Hex kind payloadJson key) with
    | some j => exact h
    | none =>
      have hfresh : ∀ j ∈ q.jobs, j.id ≠ q.seq + 1 := fun j hj => by
        have hle := h.idBound j hj
        omega
      have hopen : openRows q.dead (q.seq + 1) = 0 := by
        refine List.countP_eq_zero.mpr fun d hd => ?_
        obtain ⟨j, hj, hid⟩ := h.deadJobs d hd
        have hne := hfresh j hj
        simp only [decide_eq_true_eq, not_and]
        omega
      constructor
      case ids =>
        simp only [List.map_append, List.map_cons, List.map_nil]
        refine List.nodup_append.mpr ⟨h.ids, List.nodup_singleton _, fun a ha b hb => ?_⟩
        obtain ⟨j, hj, rfl⟩ := List.mem_map.mp ha
        rw [List.mem_singleton.mp hb]
        exact hfresh j hj
      case keys =>
        simp only [List.map_append, List.map_cons, List.map_nil]
        refine List.nodup_append.mpr ⟨h.keys, List.nodup_singleton _, fun a ha b hb => ?_⟩
        obtain ⟨j, hj, rfl⟩ := List.mem_map.mp ha
        rw [List.mem_singleton.mp hb]
        exact byKey?_none hkey j hj
      case deadJobs =>
        intro d hd
        obtain ⟨j, hj, hid⟩ := h.deadJobs d hd
        exact ⟨j, List.mem_append_left _ hj, hid⟩
      all_goals
        intro j hj
        rcases List.mem_append.mp hj with hj | hj
      · have hle := h.idBound j hj
        show j.id ≤ q.seq + 1
        omega
      · rw [List.mem_singleton.mp hj]
        show q.seq + 1 ≤ q.seq + 1
        omega
      · exact h.attempts j hj
      · rw [List.mem_singleton.mp hj]
        show (0 : Int) ≤ 0 ∧ (0 : Int) ≤ 5
        omega
      · exact h.left j hj
      · rw [List.mem_singleton.mp hj]
        show JobStatus.queued = .queued → (0 : Int) < 5
        omega
      · exact h.maxAttempts j hj
      · rw [List.mem_singleton.mp hj]
        show (0 : Int) < 5
        omega
      · exact h.dead j hj
      · rw [List.mem_singleton.mp hj]
        exact hopen
      · exact h.status j hj
      · rw [List.mem_singleton.mp hj]
        show JobStatus.queued ≠ .failed
        decide

private theorem running_ne_failed : JobStatus.running ≠ .failed := by decide

private theorem claimNext_valid (owner : String) (now : Int) (h : q.Valid) :
    (claimNext owner now q).2.Valid := by
  unfold claimNext
  cases hnext : q.nextJob now with
  | none => exact h
  | some j =>
    obtain ⟨hj, hqueued, _⟩ := nextJob_some hnext
    refine h.update keepsKeys_claimed (fun i hi hid => ?_) (fun i _ _ hstatus => ?_)
      (fun _ _ => rfl) (fun i hi hid => ?_) h.deadJobs fun _ _ => running_ne_failed
    · obtain rfl := h.eq_of_id hi hj hid
      have hattempts := h.attempts i hi
      have hleft := h.left i hi hqueued
      simp only [Job.claimed]
      omega
    · cases hstatus
    · obtain rfl := h.eq_of_id hi hj hid
      have hdead := h.dead i hi
      rw [hqueued] at hdead
      exact hdead

/-- Completing a job that is not dead. -/
private theorem complete_valid (now : Int) (h : q.Valid)
    (hlive : ∀ j ∈ q.jobs, j.id = id → j.status ≠ .dead) : (complete id now q).2.Valid := by
  refine h.update keepsKeys_completed (fun i hi _ => h.attempts i hi) (fun i _ _ hstatus => ?_)
    (fun _ _ => rfl) (fun i hi hid => ?_) h.deadJobs fun _ _ hfailed => ?_
  · cases hstatus
  · have hdead := h.dead i hi
    rw [if_neg (hlive i hi hid), hid] at hdead
    exact hdead
  · cases hfailed

private theorem openRows_append {dead : List JobDead} {d : JobDead} (hd : d.reprocessedAt = none)
    (i : Int) :
    openRows (dead ++ [d]) i = openRows dead i + if d.jobId = i then 1 else 0 := by
  simp only [openRows, List.countP_append, List.countP_cons, List.countP_nil, hd, and_true,
    decide_eq_true_eq, Nat.zero_add]

/-- Failing a job that is not dead, either way. -/
private theorem fail_valid (err : String) (now : Int) (h : q.Valid)
    (hlive : ∀ j ∈ q.jobs, j.id = id → j.status ≠ .dead) : (fail id err now q).2.Valid := by
  unfold fail
  cases hjob : q.job? id with
  | none => exact h
  | some j =>
    obtain ⟨hj, hid⟩ := job?_some hjob
    have hzero : openRows q.dead id = 0 := by
      have hdead := h.dead j hj
      rw [if_neg (hlive j hj hid), hid] at hdead
      exact hdead
    have hsame : ∀ i ∈ q.jobs, i.id = id → i = j := fun i hi hi' =>
      h.eq_of_id hi hj (hi'.trans hid.symm)
    by_cases hretry : j.attempts < j.maxAttempts
    · simp only [if_pos hretry]
      refine h.update keepsKeys_retried (fun i hi _ => h.attempts i hi) (fun i hi hi' _ => ?_)
        (fun _ _ => rfl) (fun _ _ _ => hzero) h.deadJobs fun _ _ hfailed => ?_
      · rw [hsame i hi hi']
        exact hretry
      · cases hfailed
    · simp only [if_neg hretry]
      refine h.update keepsKeys_buried (fun i hi _ => h.attempts i hi) (fun i _ _ hstatus => ?_)
        (fun i hi => ?_) (fun _ _ _ => ?_) (fun d hd => ?_) fun _ _ hfailed => ?_
      · cases hstatus
      · rw [openRows_append rfl, if_neg (Ne.symm hi), Nat.add_zero]
      · rw [openRows_append rfl, if_pos rfl, hzero]
        rfl
      · rcases List.mem_append.mp hd with hd | hd
        · exact h.deadJobs d hd
        · rw [List.mem_singleton.mp hd]
          exact ⟨j, hj, hid⟩
      · cases hfailed

private theorem openRows_reprocess (dead : List JobDead) (jobId now i : Int) :
    openRows (dead.map (JobDead.reprocess jobId now)) i =
      if i = jobId then 0 else openRows dead i := by
  unfold openRows
  rw [List.countP_map]
  split
  · next hi =>
    refine List.countP_eq_zero.mpr fun d _ => ?_
    simp only [Function.comp_apply, JobDead.reprocess]
    split
    · simp
    · next hd => rw [hi, decide_eq_true_eq]; exact hd
  · next hi =>
    refine List.countP_congr fun d _ => ?_
    simp only [Function.comp_apply, JobDead.reprocess]
    split
    · next hd => simp [hd.1, Ne.symm hi]
    · exact Iff.rfl

private theorem requeueDead_valid (jobId now : Int) (h : q.Valid) :
    (requeueDead jobId now q).2.Valid := by
  unfold requeueDead
  split
  · refine h.update keepsKeys_requeued (fun i hi _ => ?_) (fun i hi _ hstatus => ?_)
      (fun i hi => ?_) (fun i hi hid => ?_) (fun d hd => ?_) fun i hi => ?_
    · have hattempts := h.attempts i hi
      have hmax := h.maxAttempts i hi
      unfold Job.requeued
      split
      · exact ⟨Int.le_refl 0, Int.le_of_lt hmax⟩
      · exact hattempts
    · unfold Job.requeued at hstatus ⊢
      split
      · exact h.maxAttempts i hi
      · next hnot =>
        rw [if_neg hnot] at hstatus
        exact h.left i hi hstatus
    · rw [openRows_reprocess, if_neg hi]
    · have hnot : (Job.requeued now i).status ≠ .dead := by
        unfold Job.requeued
        split
        · nofun
        · assumption
      rw [openRows_reprocess, if_pos rfl, if_neg hnot]
    · obtain ⟨d', hd', rfl⟩ := List.mem_map.mp hd
      obtain ⟨j, hj, hid⟩ := h.deadJobs d' hd'
      refine ⟨j, hj, hid.trans ?_⟩
      unfold JobDead.reprocess
      split <;> rfl
    · unfold Job.requeued
      split
      · show JobStatus.queued ≠ .failed
        decide
      · exact h.status i hi
  · exact h

end

/-! ## The protocol -/

/-- The queue and the job that each worker holds. -/
structure System (W : Type) where
  queue : Queue := {}
  held : W → Option Int := fun _ => none

/-- One writer closure, and the worker that sent it. -/
inductive Event (W : Type) where
  | enqueue (kind payloadJson : String) (key : Option String) (now : Int)
  | requeueDead (jobId now : Int)
  | claimNext (w : W) (owner : String) (now : Int)
  | complete (w : W) (now : Int)
  | fail (w : W) (err : String) (now : Int)

variable {W : Type} [DecidableEq W]

/-- A worker claims only when it holds nothing, and records one outcome of the job it holds. -/
def Event.step (sha256Hex : String → String) : Event W → System W → System W
  | .enqueue kind payloadJson key now, s =>
    { s with queue := (Jobs.enqueue sha256Hex kind payloadJson key now s.queue).2 }
  | .requeueDead jobId now, s => { s with queue := (Jobs.requeueDead jobId now s.queue).2 }
  | .claimNext w owner now, s =>
    match s.held w with
    | some _ => s
    | none =>
      { queue := (Jobs.claimNext owner now s.queue).2
        held := Function.update s.held w ((s.queue.nextJob now).map Job.id) }
  | .complete w now, s =>
    match s.held w with
    | none => s
    | some id =>
      { queue := (Jobs.complete id now s.queue).2, held := Function.update s.held w none }
  | .fail w err now, s =>
    match s.held w with
    | none => s
    | some id =>
      { queue := (Jobs.fail id err now s.queue).2, held := Function.update s.held w none }

def run (sha256Hex : String → String) (events : List (Event W)) (s : System W) : System W :=
  events.foldl (fun s e => e.step sha256Hex s) s

/-- A job runs exactly while one worker holds it. -/
structure System.Valid (s : System W) : Prop where
  queue : s.queue.Valid
  held : ∀ w id, s.held w = some id → ∃ j ∈ s.queue.jobs, j.id = id ∧ j.status = .running
  single : ∀ w w' id, s.held w = some id → s.held w' = some id → w = w'
  running : ∀ j ∈ s.queue.jobs, j.status = .running → ∃ w, s.held w = some j.id

omit [DecidableEq W] in
theorem System.Valid.empty : System.Valid ({} : System W) where
  queue := .empty
  held _ _ h := by cases h
  single _ _ _ h := by cases h
  running _ h := by cases h

/-! ## One step -/

variable {sha256Hex : String → String} {s : System W} {w : W} {id : Int}

theorem enqueue_jobs (sha256Hex : String → String) (kind payloadJson : String)
    (key : Option String) (now : Int) (q : Queue) :
    (enqueue sha256Hex kind payloadJson key now q).2.jobs = q.jobs ∨
      ∃ j, j.status = .queued ∧
        (enqueue sha256Hex kind payloadJson key now q).2.jobs = q.jobs ++ [j] := by
  unfold enqueue
  cases JobKind.ofSql? kind with
  | none => exact .inl rfl
  | some k =>
    cases q.byKey? (keyOf sha256Hex kind payloadJson key) with
    | some j => exact .inl rfl
    | none => exact .inr ⟨_, rfl, rfl⟩

theorem requeueDead_jobs (jobId now : Int) (q : Queue) :
    (requeueDead jobId now q).2.jobs = q.jobs ∨
      (requeueDead jobId now q).2.jobs = (q.updateJob jobId (Job.requeued now)).jobs := by
  unfold requeueDead
  split
  · exact .inr rfl
  · exact .inl rfl

theorem fail_jobs (err : String) (now : Int) {q : Queue} {j : Job} (hj : q.job? id = some j) :
    ∃ f, KeepsKeys f ∧ (∀ i, (f i).status ≠ .running) ∧ (∀ i, (f i).status ≠ .done) ∧
      (fail id err now q).2.jobs = (q.updateJob id f).jobs := by
  unfold fail
  rw [hj]
  by_cases hretry : j.attempts < j.maxAttempts
  · simp only [if_pos hretry]
    have hne : JobStatus.queued ≠ .running ∧ JobStatus.queued ≠ .done := by decide
    exact ⟨_, keepsKeys_retried, fun _ => hne.1, fun _ => hne.2, rfl⟩
  · simp only [if_neg hretry]
    have hne : JobStatus.dead ≠ .running ∧ JobStatus.dead ≠ .done := by decide
    exact ⟨_, keepsKeys_buried, fun _ => hne.1, fun _ => hne.2, rfl⟩

/-- The worker that holds a job gives it up, and the job stops running. -/
theorem System.Valid.release (h : s.Valid) (hw : s.held w = some id) {q : Queue} (hq : q.Valid)
    {f : Job → Job} (hstatus : ∀ i, (f i).status ≠ .running)
    (hjobs : q.jobs = (s.queue.updateJob id f).jobs) :
    System.Valid { queue := q, held := Function.update s.held w none } where
  queue := hq
  held w' id' hheld := by
    change Function.update s.held w none w' = some id' at hheld
    by_cases hw' : w' = w
    · rw [hw', Function.update_self] at hheld
      cases hheld
    · rw [Function.update_of_ne hw'] at hheld
      obtain ⟨j, hj, hid, hrunning⟩ := h.held w' id' hheld
      have hne : j.id ≠ id := fun heq => by
        rw [← hid, heq] at hheld
        exact hw' (h.single w' w id hheld hw)
      refine ⟨j, ?_, hid, hrunning⟩
      show j ∈ q.jobs
      rw [hjobs]
      exact mem_updateJob.mpr ⟨j, hj, (if_neg hne).symm⟩
  single w₁ w₂ id' h₁ h₂ := by
    change Function.update s.held w none w₁ = some id' at h₁
    change Function.update s.held w none w₂ = some id' at h₂
    by_cases hw₁ : w₁ = w
    · rw [hw₁, Function.update_self] at h₁
      cases h₁
    · by_cases hw₂ : w₂ = w
      · rw [hw₂, Function.update_self] at h₂
        cases h₂
      · rw [Function.update_of_ne hw₁] at h₁
        rw [Function.update_of_ne hw₂] at h₂
        exact h.single w₁ w₂ id' h₁ h₂
  running j hj hrunning := by
    change j ∈ q.jobs at hj
    show ∃ w', Function.update s.held w none w' = some j.id
    rw [hjobs] at hj
    obtain ⟨i, hi, rfl⟩ := mem_updateJob.mp hj
    by_cases hid : i.id = id
    · rw [if_pos hid] at hrunning
      exact absurd hrunning (hstatus i)
    · rw [if_neg hid] at hrunning ⊢
      obtain ⟨w', hw'⟩ := h.running i hi hrunning
      have hne : w' ≠ w := fun heq => by
        rw [heq, hw] at hw'
        exact hid (Option.some.inj hw').symm
      exact ⟨w', by rw [Function.update_of_ne hne]; exact hw'⟩

omit [DecidableEq W] in
/-- A held job is running. -/
theorem System.Valid.held_live (h : s.Valid) (hw : s.held w = some id) :
    ∀ j ∈ s.queue.jobs, j.id = id → j.status = .running := by
  intro j hj hid
  obtain ⟨i, hi, hid', hrunning⟩ := h.held w id hw
  rw [h.queue.eq_of_id hj hi (hid.trans hid'.symm)]
  exact hrunning

private theorem claimNext_system_valid (owner : String) (now : Int) (h : s.Valid)
    (hw : s.held w = none) :
    System.Valid {
      queue := (claimNext owner now s.queue).2
      held := Function.update s.held w ((s.queue.nextJob now).map Job.id) } := by
  have hqueue := claimNext_valid owner now h.queue
  unfold claimNext at hqueue ⊢
  cases hnext : s.queue.nextJob now with
  | none =>
    have hsame : Function.update s.held w none = s.held := by rw [← hw, Function.update_eq_self]
    rw [Option.map_none, hsame]
    exact h
  | some j =>
    rw [hnext] at hqueue
    obtain ⟨hj, hqueued, _⟩ := nextJob_some hnext
    -- nobody held the job before
    have hfree : ∀ w', s.held w' ≠ some j.id := fun w' hw' => by
      have hrunning := h.held_live hw' j hj rfl
      rw [hqueued] at hrunning
      cases hrunning
    refine ⟨hqueue, fun w' id' hheld => ?_, fun w₁ w₂ id' h₁ h₂ => ?_, fun i hi hrunning => ?_⟩
    · change Function.update s.held w (some j.id) w' = some id' at hheld
      by_cases hw' : w' = w
      · rw [hw', Function.update_self] at hheld
        obtain rfl := Option.some.inj hheld
        exact ⟨_, mem_updateJob.mpr ⟨j, hj, (if_pos rfl).symm⟩, rfl, rfl⟩
      · rw [Function.update_of_ne hw'] at hheld
        obtain ⟨i, hi, hid, hrunning⟩ := h.held w' id' hheld
        have hne : i.id ≠ j.id := fun heq => hfree w' (by rw [hheld, ← hid, heq])
        exact ⟨i, mem_updateJob.mpr ⟨i, hi, (if_neg hne).symm⟩, hid, hrunning⟩
    · change Function.update s.held w (some j.id) w₁ = some id' at h₁
      change Function.update s.held w (some j.id) w₂ = some id' at h₂
      by_cases hw₁ : w₁ = w <;> by_cases hw₂ : w₂ = w
      · rw [hw₁, hw₂]
      · rw [hw₁, Function.update_self] at h₁
        rw [Function.update_of_ne hw₂] at h₂
        exact absurd (h₂.trans h₁.symm) (hfree w₂)
      · rw [hw₂, Function.update_self] at h₂
        rw [Function.update_of_ne hw₁] at h₁
        exact absurd (h₁.trans h₂.symm) (hfree w₁)
      · rw [Function.update_of_ne hw₁] at h₁
        rw [Function.update_of_ne hw₂] at h₂
        exact h.single w₁ w₂ id' h₁ h₂
    · show ∃ w', Function.update s.held w (some j.id) w' = some i.id
      obtain ⟨i', hi', rfl⟩ := mem_updateJob.mp hi
      by_cases hid : i'.id = j.id
      · rw [if_pos hid]
        exact ⟨w, by rw [Function.update_self]; exact congrArg some hid.symm⟩
      · rw [if_neg hid] at hrunning ⊢
        obtain ⟨w', hw'⟩ := h.running i' hi' hrunning
        have hne : w' ≠ w := fun heq => by
          rw [heq, hw] at hw'
          cases hw'
        exact ⟨w', by rw [Function.update_of_ne hne]; exact hw'⟩

/-- Every closure of the protocol keeps the invariant. -/
theorem step_valid (e : Event W) (h : s.Valid) : (e.step sha256Hex s).Valid := by
  cases e with
  | enqueue kind payloadJson key now =>
    have hqueue := enqueue_valid sha256Hex kind payloadJson key now h.queue
    rcases enqueue_jobs sha256Hex kind payloadJson key now s.queue with hjobs | ⟨j, hj, hjobs⟩
    · refine ⟨hqueue, fun w id hw => ?_, h.single, fun i hi hrunning => ?_⟩
      · show ∃ i ∈ (enqueue sha256Hex kind payloadJson key now s.queue).2.jobs, _
        rw [hjobs]
        exact h.held w id hw
      · change i ∈ (enqueue sha256Hex kind payloadJson key now s.queue).2.jobs at hi
        rw [hjobs] at hi
        exact h.running i hi hrunning
    · refine ⟨hqueue, fun w id hw => ?_, h.single, fun i hi hrunning => ?_⟩
      · obtain ⟨i, hi, hid, hrunning⟩ := h.held w id hw
        refine ⟨i, ?_, hid, hrunning⟩
        show i ∈ (enqueue sha256Hex kind payloadJson key now s.queue).2.jobs
        rw [hjobs]
        exact List.mem_append_left _ hi
      · change i ∈ (enqueue sha256Hex kind payloadJson key now s.queue).2.jobs at hi
        rw [hjobs] at hi
        rcases List.mem_append.mp hi with hi | hi
        · exact h.running i hi hrunning
        · rw [List.mem_singleton.mp hi, hj] at hrunning
          cases hrunning
  | requeueDead jobId now =>
    have hqueue := requeueDead_valid jobId now h.queue
    -- a requeue moves only dead jobs, so it neither starts nor stops one
    have hmem : ∀ i, i.status = .running →
        (i ∈ (requeueDead jobId now s.queue).2.jobs ↔ i ∈ s.queue.jobs) := by
      intro i hrunning
      rcases requeueDead_jobs jobId now s.queue with hjobs | hjobs <;> rw [hjobs]
      have hkeep : ∀ i' : Job, i'.status = .running → Job.requeued now i' = i' := fun i' hi' =>
        if_neg (by rw [hi']; nofun)
      constructor
      · intro hi
        obtain ⟨i', hi', rfl⟩ := mem_updateJob.mp hi
        have hrunning' : i'.status = .running := by
          split at hrunning
          · unfold Job.requeued at hrunning
            split at hrunning
            · cases hrunning
            · exact hrunning
          · exact hrunning
        rw [hkeep i' hrunning', ite_self]
        exact hi'
      · intro hi
        exact mem_updateJob.mpr ⟨i, hi, by rw [hkeep i hrunning, ite_self]⟩
    refine ⟨hqueue, fun w id hw => ?_, h.single, fun i hi hrunning => ?_⟩
    · obtain ⟨i, hi, hid, hrunning⟩ := h.held w id hw
      exact ⟨i, (hmem i hrunning).mpr hi, hid, hrunning⟩
    · exact h.running i ((hmem i hrunning).mp hi) hrunning
  | claimNext w owner now =>
    cases hw : s.held w with
    | some id => simp only [Event.step, hw]; exact h
    | none =>
      simp only [Event.step, hw]
      exact claimNext_system_valid owner now h hw
  | complete w now =>
    cases hw : s.held w with
    | none => simp only [Event.step, hw]; exact h
    | some id =>
      simp only [Event.step, hw]
      have hlive : ∀ j ∈ s.queue.jobs, j.id = id → j.status ≠ .dead := fun j hj hid => by
        rw [h.held_live hw j hj hid]; nofun
      exact h.release hw (complete_valid now h.queue hlive) (fun _ hstatus => by cases hstatus) rfl
  | fail w err now =>
    cases hw : s.held w with
    | none => simp only [Event.step, hw]; exact h
    | some id =>
      simp only [Event.step, hw]
      have hlive : ∀ j ∈ s.queue.jobs, j.id = id → j.status ≠ .dead := fun j hj hid => by
        rw [h.held_live hw j hj hid]; nofun
      obtain ⟨j, hj, hid, _⟩ := h.held w id hw
      obtain ⟨f, _, hstatus, _, hjobs⟩ := fail_jobs err now (hid ▸ h.queue.job? hj)
      exact h.release hw (fail_valid err now h.queue hlive) hstatus hjobs

theorem run_valid (events : List (Event W)) (h : s.Valid) : (run sha256Hex events s).Valid := by
  induction events generalizing s with
  | nil => exact h
  | cons e events ih => exact ih (step_valid e h)

end AgosMemory.Jobs
