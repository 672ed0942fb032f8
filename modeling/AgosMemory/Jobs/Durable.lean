import AgosMemory.Jobs.Workers

/-!
# What the queue guarantees over whole runs

Every interleaving of enqueues, requeues and workers that follow the protocol, from an empty queue.
-/

namespace AgosMemory.Jobs

variable {W : Type} [DecidableEq W] {sha256Hex : String → String} {s : System W}

/-! ## Jobs stay -/

/-- What later steps keep of a job: its id and key, and that it is done. -/
structure Job.Continues (j j' : Job) : Prop where
  id : j'.id = j.id
  key : j'.idempotencyKey = j.idempotencyKey
  done : j.status = .done → j'.status = .done

theorem Job.Continues.refl (j : Job) : j.Continues j := ⟨rfl, rfl, fun h => h⟩

theorem Job.Continues.trans {i j k : Job} (h : i.Continues j) (h' : j.Continues k) :
    i.Continues k :=
  ⟨h'.id.trans h.id, h'.key.trans h.key, fun hdone => h'.done (h.done hdone)⟩

private theorem continues_update {q : Queue} {id : Int} {f : Job → Job} (hf : KeepsKeys f) {j : Job}
    (hj : j ∈ q.jobs) (hdone : j.id = id → j.status = .done → (f j).status = .done) :
    ∃ j' ∈ (q.updateJob id f).jobs, j.Continues j' := by
  refine ⟨if j.id = id then f j else j, mem_updateJob.mpr ⟨j, hj, rfl⟩, ?_⟩
  by_cases hid : j.id = id
  · rw [if_pos hid]
    exact ⟨hf.id j, hf.key j, hdone hid⟩
  · rw [if_neg hid]
    exact .refl j

private theorem step_continues (e : Event W) (h : s.Valid) {j : Job} (hj : j ∈ s.queue.jobs) :
    ∃ j' ∈ (e.step sha256Hex s).queue.jobs, j.Continues j' := by
  cases e with
  | enqueue kind payloadJson key now =>
    refine ⟨j, ?_, .refl j⟩
    show j ∈ (enqueue sha256Hex kind payloadJson key now s.queue).2.jobs
    rcases enqueue_jobs sha256Hex kind payloadJson key now s.queue with hjobs | ⟨_, _, hjobs⟩
    · rw [hjobs]
      exact hj
    · rw [hjobs]
      exact List.mem_append_left _ hj
  | requeueDead jobId now =>
    show ∃ j' ∈ (requeueDead jobId now s.queue).2.jobs, _
    rcases requeueDead_jobs jobId now s.queue with hjobs | hjobs <;> rw [hjobs]
    · exact ⟨j, hj, .refl j⟩
    · refine continues_update keepsKeys_requeued hj fun _ hdone => ?_
      rw [Job.requeued, if_neg (by rw [hdone]; decide)]
      exact hdone
  | claimNext w owner now =>
    cases hw : s.held w with
    | some id => simp only [Event.step, hw]; exact ⟨j, hj, .refl j⟩
    | none =>
      simp only [Event.step, hw, claimNext]
      cases hnext : s.queue.nextJob now with
      | none => exact ⟨j, hj, .refl j⟩
      | some i =>
        obtain ⟨hi, hqueued, _⟩ := nextJob_some hnext
        refine continues_update keepsKeys_claimed hj fun hid hdone => ?_
        rw [h.queue.eq_of_id hj hi hid, hqueued] at hdone
        cases hdone
  | complete w now =>
    cases hw : s.held w with
    | none => simp only [Event.step, hw]; exact ⟨j, hj, .refl j⟩
    | some id =>
      simp only [Event.step, hw]
      exact continues_update keepsKeys_completed hj fun _ _ => rfl
  | fail w err now =>
    cases hw : s.held w with
    | none => simp only [Event.step, hw]; exact ⟨j, hj, .refl j⟩
    | some id =>
      simp only [Event.step, hw]
      obtain ⟨i, hi, hid, _⟩ := h.held w id hw
      obtain ⟨f, hf, _, _, hjobs⟩ := fail_jobs err now (hid ▸ h.queue.job? hi)
      rw [hjobs]
      -- the job that fails is running
      refine continues_update hf hj fun hid hdone => ?_
      rw [h.held_live hw j hj hid] at hdone
      cases hdone

theorem run_continues (events : List (Event W)) (h : s.Valid) {j : Job} (hj : j ∈ s.queue.jobs) :
    ∃ j' ∈ (run sha256Hex events s).queue.jobs, j.Continues j' := by
  induction events generalizing s j with
  | nil => exact ⟨j, hj, .refl j⟩
  | cons e events ih =>
    obtain ⟨j', hj', hcont⟩ := step_continues e h hj
    obtain ⟨j'', hj'', hcont'⟩ := ih (step_valid e h) hj'
    exact ⟨j'', hj'', hcont.trans hcont'⟩

/-! ## The guarantees -/

/-- A job that fails five times is dead, and is claimed again once it is requeued. -/
example : ((run id
    ([Event.enqueue "maintain" "" (some "k") 0] ++
      (List.range 5).flatMap (fun n => [.claimNext () "w" (1000000 * n), .fail () "e" (1000000 * n)]) ++
      [.requeueDead 1 9, .claimNext () "w" 9]) {}).queue.jobs.map fun j => (j.status, j.attempts)) =
    [(.running, 1)] := by
  decide +kernel

end AgosMemory.Jobs
