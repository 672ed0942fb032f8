import AgosMemory.Jobs.Durable

/-!
# Jobs that nobody holds

A worker may die with its job, the reply to a claim may be lost, and an outcome may never be
recorded. The lease columns are written by a claim and cleared by an outcome, and nothing reads
them: a job that is running with no worker stays so.
-/

namespace AgosMemory.Jobs

variable {W : Type} [DecidableEq W]

/-- The closure that records the outcome of a job. -/
inductive Outcome where
  | complete (now : Int)
  | fail (err : String) (now : Int)

def Outcome.record (id : Int) : Outcome → Queue → Queue
  | .complete now, q => (Jobs.complete id now q).2
  | .fail err now, q => (Jobs.fail id err now q).2

/-- The system, with the outcomes whose caller has stopped waiting for the writer. -/
structure Faulty (W : Type) where
  sys : System W := {}
  late : List (Int × Outcome) := []

/-- A step of the protocol, or something that goes wrong. -/
inductive Happening (W : Type) where
  | event (e : Event W)
  /-- A worker dies. -/
  | crash (w : W)
  /-- The process ends and starts again: no worker holds a job and the writer's queue is gone. -/
  | restart
  /-- A claim is executed and its reply does not arrive: the worker sleeps and polls again. -/
  | lostClaim (owner : String) (now : Int)
  /-- The closure of an outcome is refused, or fails: the worker ignores it and polls again. -/
  | unrecorded (w : W)
  /-- The worker stops waiting for an outcome that the writer has yet to execute. -/
  | timeout (w : W) (o : Outcome)
  /-- The writer executes the first such outcome. -/
  | settle

namespace Happening

/-- A worker forgets its job. -/
def drop (w : W) (s : Faulty W) : Faulty W :=
  { s with sys := { s.sys with held := Function.update s.sys.held w none } }

def step (sha256Hex : String → String) : Happening W → Faulty W → Faulty W
  | event e, s => { s with sys := e.step sha256Hex s.sys }
  | crash w, s => drop w s
  | restart, s => { sys := { s.sys with held := fun _ => none } }
  | lostClaim owner now, s =>
    { s with sys := { s.sys with queue := (claimNext owner now s.sys.queue).2 } }
  | unrecorded w, s => drop w s
  | timeout w o, s =>
    { drop w s with late := s.late ++ ((s.sys.held w).map fun id => (id, o)).toList }
  | settle, s =>
    match s.late with
    | [] => s
    | (id, o) :: late => { sys := { s.sys with queue := o.record id s.sys.queue }, late }

/-- The step leaves a running job without a worker: one that dies, gives up or fails to record while
it holds a job, or a lost claim that takes one. -/
def Loses (s : Faulty W) : Happening W → Prop
  | event _ | settle => False
  | crash w | unrecorded w | timeout w _ => (s.sys.held w).isSome
  | restart => ∃ w, (s.sys.held w).isSome
  | lostClaim _ now => (s.sys.queue.nextJob now).isSome

end Happening

def runFaulty (sha256Hex : String → String) (hs : List (Happening W)) (s : Faulty W) : Faulty W :=
  hs.foldl (fun s h => h.step sha256Hex s) s

/-- Every job is held by a worker, done, dead with its dead-letter row, or claimable again. -/
def Recoverable (s : System W) : Prop :=
  ∀ j ∈ s.queue.jobs, (∃ w, s.held w = some j.id) ∨ j.status = .done ∨
    (j.status = .dead ∧ ∃ d ∈ s.queue.dead, d.jobId = j.id ∧ d.reprocessedAt = none) ∨
    j.status = .queued

omit [DecidableEq W] in
theorem System.Valid.recoverable {s : System W} (h : s.Valid) : Recoverable s := by
  intro j hj
  cases hstatus : j.status with
  | queued => exact .inr (.inr (.inr rfl))
  | running => exact .inl (h.running j hj hstatus)
  | done => exact .inr (.inl rfl)
  | failed => exact absurd hstatus (h.queue.status j hj)
  | dead =>
    have hdead := h.queue.dead j hj
    rw [if_pos hstatus] at hdead
    have hpos : 0 < openRows s.queue.dead j.id := by omega
    obtain ⟨d, hd, hopen⟩ := List.countP_pos_iff.mp hpos
    exact .inr (.inr (.inl ⟨rfl, d, hd, of_decide_eq_true hopen⟩))

/-! ## One step -/

/-- Nothing has gone wrong so far. -/
structure Faulty.Sound (s : Faulty W) : Prop where
  sys : s.sys.Valid
  late : s.late = []

variable {sha256Hex : String → String} {s : Faulty W}

private theorem drop_of_idle {w : W} (h : ¬ (s.sys.held w).isSome) : Happening.drop w s = s := by
  have hnone : s.sys.held w = none := by simpa using h
  have hsame : Function.update s.sys.held w none = s.sys.held := by
    rw [← hnone, Function.update_eq_self]
  unfold Happening.drop
  rw [hsame]

/-- A step that loses nothing keeps the invariant. -/
theorem sound_step {h : Happening W} (hs : s.Sound) (hloses : ¬ h.Loses s) :
    (h.step sha256Hex s).Sound := by
  cases h with
  | event e => exact ⟨step_valid e hs.sys, hs.late⟩
  | crash w => rw [Happening.step, drop_of_idle hloses]; exact hs
  | unrecorded w => rw [Happening.step, drop_of_idle hloses]; exact hs
  | timeout w o =>
    have hnone : s.sys.held w = none := by simpa [Happening.Loses] using hloses
    rw [Happening.step, drop_of_idle hloses, hnone]
    exact ⟨hs.sys, by simpa using hs.late⟩
  | restart =>
    have hidle : s.sys.held = fun _ => none := by
      funext w
      by_contra hw
      exact hloses ⟨w, Option.isSome_iff_ne_none.mpr hw⟩
    rw [Happening.step, ← hidle]
    exact ⟨hs.sys, rfl⟩
  | lostClaim owner now =>
    have hnone : s.sys.queue.nextJob now = none := by simpa [Happening.Loses] using hloses
    rw [Happening.step, claimNext, hnone]
    exact hs
  | settle =>
    rw [Happening.step, hs.late]
    exact hs

omit [DecidableEq W] in
/-- The job of a worker that forgets it is running and held by nobody. -/
private theorem not_recoverable_of_drop {w : W} {s' : System W} (hs : s.Sound)
    (hw : (s.sys.held w).isSome) (hqueue : s'.queue = s.sys.queue) (hgone : s'.held w = none)
    (hheld : ∀ w' id, s'.held w' = some id → s.sys.held w' = some id) : ¬ Recoverable s' := by
  obtain ⟨id, hid⟩ := Option.isSome_iff_exists.mp hw
  obtain ⟨j, hj, rfl, hrunning⟩ := hs.sys.held w id hid
  intro hrecoverable
  rcases hrecoverable j (hqueue ▸ hj) with ⟨w', hw'⟩ | hdone | ⟨hdead, _⟩ | hqueued
  · obtain rfl := hs.sys.single w' w j.id (hheld w' _ hw') hid
    rw [hgone] at hw'
    cases hw'
  · rw [hrunning] at hdone
    cases hdone
  · rw [hrunning] at hdead
    cases hdead
  · rw [hrunning] at hqueued
    cases hqueued

private theorem held_of_drop {w w' : W} {id : Int}
    (h : (Happening.drop w s).sys.held w' = some id) : s.sys.held w' = some id := by
  change Function.update s.sys.held w none w' = some id at h
  by_cases hw : w' = w
  · rw [hw, Function.update_self] at h
    cases h
  · rw [Function.update_of_ne hw] at h
    exact h

/-- A step that loses a job leaves a state in which it cannot be recovered. -/
private theorem not_recoverable_of_loses {h : Happening W} (hs : s.Sound) (hloses : h.Loses s) :
    ¬ Recoverable (h.step sha256Hex s).sys := by
  have hdrop : ∀ w, (s.sys.held w).isSome → ¬ Recoverable (Happening.drop w s).sys :=
    fun w hw => not_recoverable_of_drop hs hw rfl
      (by show Function.update s.sys.held w none w = none; rw [Function.update_self])
      fun _ _ => held_of_drop
  cases h with
  | event e => exact hloses.elim
  | settle => exact hloses.elim
  | crash w => exact hdrop w hloses
  | unrecorded w => exact hdrop w hloses
  | timeout w o => exact hdrop w hloses
  | restart =>
    obtain ⟨w, hw⟩ := hloses
    exact not_recoverable_of_drop hs hw rfl rfl fun _ _ h => by cases h
  | lostClaim owner now =>
    obtain ⟨j, hnext⟩ := Option.isSome_iff_exists.mp hloses
    obtain ⟨hj, hqueued, _⟩ := nextJob_some hnext
    intro hrecoverable
    rw [Happening.step, claimNext, hnext] at hrecoverable
    -- the claimed job is running, and whoever holds it held it while it was queued
    have hmem : Job.claimed owner now j ∈ (s.sys.queue.updateJob j.id (Job.claimed owner now)).jobs :=
      mem_updateJob.mpr ⟨j, hj, (if_pos rfl).symm⟩
    rcases hrecoverable _ hmem with ⟨w, hw⟩ | hdone | ⟨hdead, _⟩ | hqueued'
    · have hrunning := hs.sys.held_live hw j hj rfl
      rw [hqueued] at hrunning
      cases hrunning
    · cases hdone
    · cases hdead
    · cases hqueued'

/-! ## Runs -/

private theorem runFaulty_take_succ {hs : List (Happening W)} {k : Nat} {h : Happening W}
    (hk : hs[k]? = some h) (s : Faulty W) :
    runFaulty sha256Hex (hs.take (k + 1)) s = h.step sha256Hex (runFaulty sha256Hex (hs.take k) s) := by
  unfold runFaulty
  rw [List.take_add_one, hk, List.foldl_append]
  rfl

/-- As long as no step loses a job, nothing is wrong. -/
theorem sound_run {hs : List (Happening W)} (k : Nat)
    (hloses : ∀ i < k, ∀ h, hs[i]? = some h → ¬ h.Loses (runFaulty sha256Hex (hs.take i) {})) :
    (runFaulty sha256Hex (hs.take k) {}).Sound := by
  induction k with
  | zero => exact ⟨.empty, rfl⟩
  | succ k ih =>
    have hsound := ih fun i hi => hloses i (Nat.lt_succ_of_lt hi)
    cases hk : hs[k]? with
    | none =>
      rw [List.take_add_one, hk, Option.toList_none, List.append_nil]
      exact hsound
    | some h =>
      rw [runFaulty_take_succ hk]
      exact sound_step hsound (hloses k (Nat.lt_succ_self k) h hk)

/-- In a run of any length every job can be recovered in every state exactly when no step loses
one. -/
theorem no_job_lost_iff (sha256Hex : String → String) (hs : List (Happening W)) :
    (∀ k, Recoverable (runFaulty sha256Hex (hs.take k) {}).sys) ↔
      ∀ (k : Nat) (h : Happening W), hs[k]? = some h →
        ¬ h.Loses (runFaulty sha256Hex (hs.take k) {}) := by
  constructor
  · intro hrecoverable k
    induction k using Nat.strong_induction_on with
    | _ k ih =>
      intro h hk hloses
      have hlost := @not_recoverable_of_loses W _ sha256Hex _ h (sound_run k ih) hloses
      rw [← runFaulty_take_succ hk] at hlost
      exact hlost (hrecoverable (k + 1))
  · intro hloses k
    exact (sound_run k fun i _ => hloses i).sys.recoverable

/-- The process ends while a worker holds a job: the job is running, and stays so. -/
theorem job_lost_on_restart :
    ¬ ∀ hs : List (Happening Unit), Recoverable (runFaulty id hs {}).sys := by
  intro h
  have hlost := h [.event (.enqueue "extract" "" (some "k") 0), .event (.claimNext () "worker-1" 1),
    .restart]
  have hjobs : (runFaulty id [.event (.enqueue "extract" "" (some "k") 0),
      .event (.claimNext () "worker-1" 1), (.restart : Happening Unit)] {}).sys.queue.jobs.map
        Job.status = [.running] := by decide +kernel
  have hmem := List.mem_singleton_self JobStatus.running
  rw [← hjobs] at hmem
  obtain ⟨j, hj, hrunning⟩ := List.mem_map.mp hmem
  rcases hlost j hj with ⟨w, hw⟩ | hdone | ⟨hdead, _⟩ | hqueued
  · cases hw
  · rw [hrunning] at hdone
    cases hdone
  · rw [hrunning] at hdead
    cases hdead
  · rw [hrunning] at hqueued
    cases hqueued

end AgosMemory.Jobs
