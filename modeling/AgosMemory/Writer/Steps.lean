import AgosMemory.Writer.Invariant

/-!
# Every step keeps the agreement
-/

namespace AgosMemory.Writer

open Library

variable {σ α : Type} {jobs : Nat → σ → Outcome α × σ} {conn₀ : σ} {s t : Actor σ α}

/-! ## The steps of the writer -/

/-- A reply that is not a failure comes after the result. -/
theorem result_of_replies {stage : Stage α} {rest : List (Except Error Unit)}
    (h : stage.replies = .ok () :: rest) :
    ∃ r, stage.results = [r] ∧ stage.outcome? = some (.returned r) := by
  unfold Stage.replies at h
  split at h
  · exact ⟨_, rfl, rfl⟩
  · exact ⟨_, rfl, rfl⟩
  · cases h
  · cases h

/-- Only a panic is reported by a reply. -/
private theorem panicked_of_replies {stage : Stage α} {e : Error} {rest : List (Except Error Unit)}
    (h : stage.replies = .error e :: rest) : stage.outcome? = some .panicked ∧ e = jobPanicked := by
  unfold Stage.replies at h
  split at h
  · cases h
  · cases h
  · cases h
    exact ⟨rfl, rfl⟩
  · cases h

namespace Valid

/-- What the writer has in hand is no longer queued. -/
private theorem not_queued (h : Valid jobs conn₀ s) {k : Nat} {c : Caller α}
    (hc : s.callers[k]? = some c) (hstage : c.stage ≠ .queued) : .job k ∉ s.queue.items :=
  fun hk => hstage (h.queued k c hc hk)

private theorem open_order (h : Valid jobs conn₀ s) (hloop : s.loop.halted = false) :
    s.accepted = s.started ++ jobsOf s.queue.items := by
  rcases h.order with ⟨hstopped, _⟩ | horder
  · rw [hstopped] at hloop
    cases hloop
  · exact horder

theorem take (h : Valid jobs conn₀ s) (hloop : s.loop = .idle) {k : Nat} {rest : List WriterMsg}
    (hitems : s.queue.items = .job k :: rest) {c : Caller α} (hc : s.callers[k]? = some c) :
    Valid jobs conn₀ { s.setCaller k { c with stage := .running } with
      queue := { s.queue with items := rest }, loop := .running k
      started := s.started ++ [k] } := by
  have hmem : .job k ∈ s.queue.items := hitems ▸ List.mem_cons_self
  have hstage : c.stage = .queued := h.queued k c hc hmem
  have horder := h.open_order (by rw [hloop]; rfl)
  rw [hitems] at horder
  have hnodup : (s.started ++ k :: jobsOf rest).Nodup := horder ▸ h.nodup
  have hrest : k ∉ jobsOf rest := (List.nodup_cons.mp (List.nodup_append.mp hnodup).2.1).1
  have hworking := h.working
  rw [hloop] at hworking
  refine h.advance hc (Channel.gets_nil _) (Channel.gets_nil _) (by rw [hstage]; intro h; cases h)
    (fun h => (by cases h)) (by rw [hstage]; rfl) (by rw [hstage]; rfl) (Or.inl (by rw [hstage]; rfl))
    (by rw [hloop]; rfl) rfl (Or.inl (by rw [hloop]; rfl))
    (fun j hj => hitems ▸ List.mem_cons_of_mem _ hj) (fun hk => hrest (mem_jobsOf.mpr hk))
    (fun j hjk hj => ?_) rfl ?_ (fun _ _ => rfl) ?_
    ⟨stages_set hc _, congrArg (fun l => l ++ [k]) hworking⟩ h.serial
  · rw [hitems] at hj
    exact (List.mem_cons.mp hj).resolve_left fun heq => hjk (WriterMsg.job.inj heq)
  · show none = outcomeOf jobs conn₀ s.finished k
    rw [← h.outcome k c hc, hstage]
    rfl
  · rw [horder, List.append_assoc]
    rfl

/-- The closure in hand returns or panics. -/
theorem runJob (h : Valid jobs conn₀ s) {k : Nat} (hloop : s.loop = .running k) {c : Caller α}
    (hc : s.callers[k]? = some c) (hrun : s.runJob k c (jobs k s.conn) = some t) :
    Valid jobs conn₀ t := by
  have hworking := h.working
  rw [hloop] at hworking
  obtain ⟨hrunning, hstarted⟩ := hworking
  have hstage : c.stage = .running := stage_of_getElem hc hrunning
  have hnew : k ∉ s.finished := by
    have hnodup := hstarted ▸ h.started_nodup
    exact fun hk => (List.nodup_append.mp hnodup).2.2 k hk k (List.mem_singleton_self k) rfl
  have hown : outcomeOf jobs conn₀ (s.finished ++ [k]) k = some (jobs k s.conn).1 := by
    rw [h.serial]
    exact outcomeOf_append_self hnew
  have hserial : (jobs k s.conn).2 = replay jobs (s.finished ++ [k]) conn₀ := by
    rw [replay_append, ← h.serial]
  have horder := h.open_order (by rw [hloop]; rfl)
  have hqueued : .job k ∉ s.queue.items :=
    h.not_queued hc (by rw [hstage]; intro h; cases h)
  have hsent : c.stage ≠ .unsent := by
    rw [hstage]
    intro h
    cases h
  cases hjob : jobs k s.conn with
  | mk o conn =>
    rw [hjob] at hrun hserial hown
    cases o with
    | returned r =>
      obtain ⟨result, hsend, rfl⟩ := Option.map_eq_some_iff.mp hrun
      exact h.advance hc (Channel.gets_nil _) (Channel.gets_of_send hsend) hsent
        (fun h => (by cases h)) (by rw [hstage]; rfl) (by rw [hstage]; rfl)
        (Or.inl (by rw [hstage]; rfl)) (by rw [hloop]; rfl) rfl (Or.inr (by rw [hloop]; rfl))
        (fun _ hj => hj) hqueued (fun _ _ hj => hj) rfl hown.symm
        (fun j hj => outcomeOf_append_ne hj) horder ⟨⟨r, stages_set hc _⟩, hstarted⟩ hserial
    | panicked =>
      cases hrun
      exact h.advance hc (Channel.gets_nil _) (Channel.gets_nil _) hsent
        (fun h => (by cases h)) (by rw [hstage]; rfl) (by rw [hstage]; rfl)
        (Or.inl (by rw [hstage]; rfl)) (by rw [hloop]; rfl) rfl (Or.inr (by rw [hloop]; rfl))
        (fun _ hj => hj) hqueued (fun _ _ hj => hj) rfl hown.symm
        (fun j hj => outcomeOf_append_ne hj) horder
        ⟨⟨.panicked, stages_set hc _, rfl⟩, hstarted⟩ hserial

/-- A reply is sent for the job in hand. -/
theorem sendReply (h : Valid jobs conn₀ s) {k : Nat} {reply : Except Error Unit} {loop : Loop}
    (hsend : s.sendReply k reply loop = some t) (hloop : s.loop.halted = false)
    (hhalted : loop.halted = false) {stage : Stage α} (hstage : s.stages[k]? = some stage)
    (hsent : stage ≠ .unsent) (hnext : stage.replied ≠ .unsent) (hqueued : stage ≠ .queued)
    (hreplies : stage.replied.replies = stage.replies ++ [reply])
    (hresults : stage.replied.results = stage.results)
    (houtcome : stage.replied.outcome? = stage.outcome?)
    (hjob : s.loop.job? = some k) (hheld : Held loop s.queue.items k stage.replied)
    (hworking : Working (s.stages.set k stage.replied) s.started s.finished loop) :
    Valid jobs conn₀ t := by
  obtain ⟨c, hc, hsend⟩ := Option.bind_eq_some_iff.mp hsend
  obtain ⟨ch, hch, rfl⟩ := Option.map_eq_some_iff.mp hsend
  obtain rfl := stage_of_getElem hc hstage
  exact h.advance hc (Channel.gets_of_send hch) (Channel.gets_nil _) hsent hnext hreplies
    (by rw [hresults, List.append_nil]) (Or.inr houtcome) hloop hhalted (Or.inr hjob)
    (fun _ hj => hj) (h.not_queued hc hqueued) (fun _ _ hj => hj) hheld
    (houtcome.trans (h.outcome k c hc)) (fun _ _ => rfl)
    (h.open_order hloop) hworking h.serial

/-- The loop ends, with the messages behind it still in the queue. -/
theorem stopping (h : Valid jobs conn₀ s) (hloop : s.loop = .idle) {items : List WriterMsg}
    (hitems : ∀ m, m ∈ items → m ∈ s.queue.items) (hjobs : jobsOf items = jobsOf s.queue.items) :
    Valid jobs conn₀ { s with queue := { s.queue with items }, loop := .stopping } where
  fits k c hc := (h.fits k c hc).halt fun _ => rfl
  known := h.known
  queued k c hc hk := h.queued k c hc (hitems _ hk)
  held k c hc := by
    refine (h.held k c hc).mono (fun hk => ?_) fun hk => ?_
    · rcases hk with hk | hk
      · exact Or.inl (mem_jobsOf.mp (hjobs ▸ mem_jobsOf.mpr hk))
      · rw [hloop] at hk
        cases hk
    · rw [hloop] at hk
      cases hk
  outcome := h.outcome
  bound := h.bound
  nodup := h.nodup
  order := Or.inr ((h.open_order (by rw [hloop]; rfl)).trans (by rw [hjobs]))
  begun := h.begun
  working := by
    have hworking := h.working
    rw [hloop] at hworking
    exact hworking
  serial := h.serial
  receiver := ⟨fun _ hs => (by cases hs), fun _ => h.receiver.mpr (by rw [hloop]; intro hs; cases hs)⟩

/-- The thread ends, and drops the queue. -/
theorem stopped (h : Valid jobs conn₀ s) (hloop : s.loop = .stopping) (healthy : Bool) :
    Valid jobs conn₀ { s with queue := s.queue.close, healthy, loop := .stopped } where
  fits k c hc := (h.fits k c hc).halt fun _ => rfl
  known := h.known
  queued k c hc hk := (by cases hk)
  held k c hc := by
    refine (h.held k c hc).mono (fun _ => Or.inr rfl) fun hk => ?_
    rw [hloop] at hk
    cases hk
  outcome := h.outcome
  bound := h.bound
  nodup := h.nodup
  order := Or.inl ⟨rfl, rfl⟩
  begun := h.begun
  working := by
    have hworking := h.working
    rw [hloop] at hworking
    exact hworking
  serial := h.serial
  receiver := ⟨fun hr => (by cases hr), fun hs => absurd rfl hs⟩

theorem writerStep (h : Valid jobs conn₀ s) (hstep : s.writerStep jobs = some t) :
    Valid jobs conn₀ t := by
  unfold Actor.writerStep at hstep
  have hworking := h.working
  cases hloop : s.loop with
  | idle =>
    simp only [hloop] at hstep
    cases hitems : s.queue.items with
    | nil =>
      simp only [hitems] at hstep
      by_cases hhandles : s.handles = true
      · rw [if_pos hhandles] at hstep
        cases hstep
      · rw [if_neg hhandles] at hstep
        cases hstep
        exact h.stopping hloop (fun m hm => hm) rfl
    | cons m rest =>
      cases m with
      | job k =>
        simp only [hitems] at hstep
        obtain ⟨c, hc, rfl⟩ := Option.map_eq_some_iff.mp hstep
        exact h.take hloop hitems hc
      | shutdown =>
        simp only [hitems] at hstep
        cases hstep
        exact h.stopping hloop (fun m hm => hitems ▸ List.mem_cons_of_mem _ hm) (by rw [hitems]; rfl)
  | running k =>
    simp only [hloop] at hstep
    obtain ⟨c, hc, hrun⟩ := Option.bind_eq_some_iff.mp hstep
    exact h.runJob hloop hc hrun
  | replying k =>
    simp only [hloop] at hstep
    rw [hloop] at hworking
    obtain ⟨⟨r, hr⟩, heq⟩ := hworking
    have hlt := (List.getElem?_eq_some_iff.mp hr).1
    refine h.sendReply hstep (by rw [hloop]; rfl) rfl hr (fun h => (by cases h))
      (fun h => (by cases h)) (fun h => (by cases h)) rfl rfl rfl
      (by rw [hloop]; rfl) rfl ⟨⟨.returned r, ?_, rfl⟩, heq⟩
    rw [List.getElem?_set, if_pos rfl, if_pos hlt]
    rfl
  | answering k reply =>
    simp only [hloop] at hstep
    rw [hloop] at hworking
    obtain ⟨⟨o, ho, rfl⟩, heq⟩ := hworking
    cases o with
    | returned r =>
      exact h.sendReply hstep (by rw [hloop]; rfl) rfl ho (fun h => (by cases h))
        (fun h => (by cases h)) (fun h => (by cases h)) rfl rfl rfl
        (by rw [hloop]; rfl) trivial heq
    | panicked =>
      exact h.sendReply hstep (by rw [hloop]; rfl) rfl ho (fun h => (by cases h))
        (fun h => (by cases h)) (fun h => (by cases h)) rfl rfl rfl
        (by rw [hloop]; rfl) trivial heq
  | stopping =>
    simp only [hloop] at hstep
    cases hstep
    exact h.stopped hloop false
  | stopped =>
    simp only [hloop] at hstep
    cases hstep

/-- No sender of an unanswered caller is dropped before the thread ends. -/
private theorem halted_of_gone (h : Valid jobs conn₀ s) {k : Nat} {c : Caller α}
    (hc : s.callers[k]? = some c) (hsent : c.stage ≠ .unsent) (hreplies : c.stage.replies = [])
    (hholds : s.holdsReply k = false) : s.loop.halted = true := by
  have hheld := h.held k c hc
  simp only [Actor.holdsReply, Bool.or_eq_false_iff, decide_eq_false_iff_not] at hholds
  cases hstage : c.stage with
  | unsent => exact absurd hstage hsent
  | queued =>
    rw [hstage] at hheld
    rcases hheld with hqueued | hstopped
    · exact absurd hqueued hholds.1
    · rw [hstopped]
      rfl
  | running | replying r | answering o =>
    rw [hstage] at hheld
    exact absurd hheld hholds.2
  | done o =>
    rw [hstage] at hreplies
    cases o <;> cases hreplies

theorem callerStep (h : Valid jobs conn₀ s) {k : Nat} {c : Caller α}
    (hc : s.callers[k]? = some c) {e : CallerStep} (hstep : s.callerStep k c c.phase e = some t) :
    Valid jobs conn₀ t := by
  have hfits := h.fits k c hc
  unfold Actor.callerStep at hstep
  unfold Caller.Fits at hfits
  cases hphase : c.phase with
  | sending =>
    rw [hphase] at hfits
    cases e with
    | accept =>
      simp only [hphase] at hstep
      by_cases hreceiver : s.queue.receiver = true
      · rw [if_pos hreceiver] at hstep
        obtain ⟨queue, hqueue, rfl⟩ := Option.map_eq_some_iff.mp hstep
        rcases Channel.send?_some hqueue with ⟨hclosed, _⟩ | ⟨_, _, rfl⟩
        · rw [hreceiver] at hclosed
          cases hclosed
        · exact h.accept hc hphase hreceiver rfl
      · rw [if_neg hreceiver] at hstep
        cases hstep
    | sendTimeout =>
      simp only [hphase] at hstep
      cases hstep
      exact h.setCaller hc rfl ⟨rfl, rfl, Or.inr (Or.inr (Or.inl rfl))⟩
    | sendDisconnected =>
      simp only [hphase] at hstep
      by_cases hreceiver : s.queue.receiver = true
      · rw [if_pos hreceiver] at hstep
        cases hstep
      · rw [if_neg hreceiver] at hstep
        cases hstep
        have hstopped : s.loop.halted = true := by
          by_contra hl
          refine hreceiver (h.receiver.mpr ?_)
          intro hs
          rw [hs] at hl
          exact hl rfl
        exact h.setCaller hc rfl
          ⟨rfl, rfl, Or.inr (Or.inr (Or.inr (Or.inr ⟨hstopped, Or.inl rfl⟩)))⟩
    | receive | recvTimeout | recvDisconnected | collect | collectDisconnected =>
      simp only [hphase] at hstep
      cases hstep
  | waiting =>
    rw [hphase] at hfits
    obtain ⟨hsent, hreply, _, hresult⟩ := hfits
    cases e with
    | receive =>
      simp only [hphase, hreply] at hstep
      cases hreplies : c.stage.replies with
      | nil =>
        simp only [hreplies] at hstep
        cases hstep
      | cons r rest =>
        cases r with
        | ok u =>
          simp only [hreplies] at hstep
          cases hstep
          refine h.setCaller hc rfl ?_
          exact ⟨rest, hreplies, rfl, hresult⟩
        | error e =>
          simp only [hreplies] at hstep
          cases hstep
          refine h.setCaller hc rfl ⟨rfl, rfl, ?_⟩
          exact Or.inr (Or.inl (panicked_of_replies hreplies))
    | recvTimeout =>
      simp only [hphase] at hstep
      cases hstep
      exact h.setCaller hc rfl ⟨rfl, rfl, Or.inr (Or.inr (Or.inr (Or.inl rfl)))⟩
    | recvDisconnected =>
      simp only [hphase] at hstep
      by_cases hgone : (c.reply.items.isEmpty && !s.holdsReply k) = true
      · rw [if_pos hgone] at hstep
        cases hstep
        refine h.setCaller hc rfl ⟨rfl, rfl, Or.inr (Or.inr (Or.inr (Or.inr ⟨?_, Or.inr rfl⟩)))⟩
        rw [hreply, Bool.and_eq_true] at hgone
        exact h.halted_of_gone hc hsent (List.isEmpty_iff.mp hgone.1) (by simpa using hgone.2)
      · rw [if_neg hgone] at hstep
        cases hstep
    | accept | sendTimeout | sendDisconnected | collect | collectDisconnected =>
      simp only [hphase] at hstep
      cases hstep
  | collecting =>
    rw [hphase] at hfits
    obtain ⟨rest, hreplies, _, hresult⟩ := hfits
    obtain ⟨r, hr, hown⟩ := result_of_replies hreplies
    cases e with
    | collect =>
      simp only [hphase, hresult, hr] at hstep
      cases hstep
      refine h.setCaller hc rfl ⟨rfl, rfl, ?_⟩
      cases r with
      | ok a => exact hown
      | error e => exact Or.inl hown
    | collectDisconnected =>
      simp only [hphase, hresult, hr] at hstep
      rw [if_neg (by simp)] at hstep
      cases hstep
    | accept | sendTimeout | sendDisconnected | receive | recvTimeout | recvDisconnected =>
      simp only [hphase] at hstep
      cases hstep
  | returned r =>
    cases e <;> (simp only [hphase] at hstep; cases hstep)

/-- A message that is not a job is queued. -/
theorem requeue (h : Valid jobs conn₀ s) {items : List WriterMsg}
    (hitems : ∀ k, .job k ∈ items ↔ .job k ∈ s.queue.items) (hjobs : jobsOf items = jobsOf s.queue.items)
    (hreceiver : s.queue.receiver = true) :
    Valid jobs conn₀ { s with queue := { s.queue with items } } where
  fits := h.fits
  known := h.known
  queued k c hc hk := h.queued k c hc ((hitems k).mp hk)
  held k c hc := by
    refine (h.held k c hc).mono (fun hk => ?_) fun hk => hk
    rcases hk with hk | hk
    · exact Or.inl ((hitems k).mpr hk)
    · exact Or.inr hk
  outcome := h.outcome
  bound := h.bound
  nodup := h.nodup
  order := by
    have hopen : s.loop ≠ .stopped := h.receiver.mp hreceiver
    refine Or.inr ((h.order.resolve_left fun hs => hopen hs.1).trans ?_)
    rw [hjobs]
  begun := h.begun
  working := h.working
  serial := h.serial
  receiver := h.receiver

theorem step (h : Valid jobs conn₀ s) {e : Event} (hstep : s.step? jobs e = some t) :
    Valid jobs conn₀ t := by
  cases e with
  | call =>
    simp only [Actor.step?] at hstep
    by_cases hhandles : s.handles = true
    · rw [if_pos hhandles] at hstep
      cases hstep
      exact h.call
    · rw [if_neg hhandles] at hstep
      cases hstep
  | caller k e =>
    obtain ⟨c, hc, hstep⟩ := Option.bind_eq_some_iff.mp hstep
    exact h.callerStep hc hstep
  | shutdown =>
    simp only [Actor.step?] at hstep
    by_cases hhandles : s.handles = true
    · rw [if_pos hhandles] at hstep
      obtain ⟨queue, hqueue, rfl⟩ := Option.map_eq_some_iff.mp hstep
      rcases Channel.send?_some hqueue with ⟨_, rfl⟩ | ⟨hreceiver, _, rfl⟩
      · exact h
      · exact h.requeue (fun k => by simp) (by rw [jobsOf_append]; exact List.append_nil _) hreceiver
    · rw [if_neg hhandles] at hstep
      cases hstep
  | dropHandles =>
    simp only [Actor.step?] at hstep
    split at hstep
    · cases hstep
      exact ⟨h.fits, h.known, h.queued, h.held, h.outcome, h.bound, h.nodup, h.order, h.begun,
        h.working, h.serial, h.receiver⟩
    · cases hstep
  | writer => exact h.writerStep hstep

end Valid

/-! ## Runs -/

private theorem run_none {e : Event} (h : s.step? jobs e = none) (events : List Event) :
    s.run jobs (e :: events) = s.run jobs events := by
  show ((s.step? jobs e).getD s).run jobs events = _
  rw [h, Option.getD_none]

theorem run_some {e : Event} (h : s.step? jobs e = some t) (events : List Event) :
    s.run jobs (e :: events) = t.run jobs events := by
  show ((s.step? jobs e).getD s).run jobs events = _
  rw [h, Option.getD_some]

theorem run_append (events events' : List Event) (s : Actor σ α) :
    s.run jobs (events ++ events') = (s.run jobs events).run jobs events' := List.foldl_append

theorem Valid.run (h : Valid jobs conn₀ s) (events : List Event) :
    Valid jobs conn₀ (s.run jobs events) := by
  induction events generalizing s with
  | nil => exact h
  | cons e events ih =>
    cases hstep : s.step? jobs e with
    | none => exact run_none hstep events ▸ ih h
    | some t => exact run_some hstep events ▸ ih (h.step hstep)

/-- A step of a caller leaves the writer where it is. -/
private theorem callerStep_frame {k : Nat} {c : Caller α} {phase : Phase α} {e : CallerStep}
    (h : s.callerStep k c phase e = some t) :
    t.loop = s.loop ∧ t.started = s.started ∧ t.handles = s.handles ∧
      (.shutdown ∈ t.queue.items → .shutdown ∈ s.queue.items) := by
  unfold Actor.callerStep at h
  split at h
  · split at h
    · obtain ⟨queue, hqueue, rfl⟩ := Option.map_eq_some_iff.mp h
      refine ⟨rfl, rfl, rfl, fun hm => ?_⟩
      rcases Channel.send?_some hqueue with ⟨_, rfl⟩ | ⟨_, _, rfl⟩
      · exact hm
      · exact (List.mem_append.mp hm).resolve_right (by simp)
    · cases h
  · cases h
    exact ⟨rfl, rfl, rfl, fun hm => hm⟩
  · split at h
    · cases h
    · cases h
      exact ⟨rfl, rfl, rfl, fun hm => hm⟩
  · split at h
    · cases h
      exact ⟨rfl, rfl, rfl, fun hm => hm⟩
    · cases h
      exact ⟨rfl, rfl, rfl, fun hm => hm⟩
    · cases h
  · cases h
    exact ⟨rfl, rfl, rfl, fun hm => hm⟩
  · split at h
    · cases h
      exact ⟨rfl, rfl, rfl, fun hm => hm⟩
    · cases h
  · split at h
    · cases h
      exact ⟨rfl, rfl, rfl, fun hm => hm⟩
    · cases h
  · split at h
    · cases h
      exact ⟨rfl, rfl, rfl, fun hm => hm⟩
    · cases h
  · cases h

/-- How many sends the job in hand is away from its end. -/
def Loop.rank : Loop → Nat
  | running _ => 3
  | replying _ => 2
  | answering _ _ => 1
  | _ => 0

/-- A step with a job in hand leaves the queue alone. -/
theorem writerStep_frame {k : Nat} (h : s.writerStep jobs = some t) (hjob : s.loop.job? = some k) :
    t.queue = s.queue ∧ t.started = s.started ∧ t.handles = s.handles ∧
      t.loop.halted = false ∧ t.loop.rank < s.loop.rank := by
  unfold Actor.writerStep at h
  cases hloop : s.loop with
  | idle | stopping | stopped =>
    rw [hloop] at hjob
    cases hjob
  | running j =>
    simp only [hloop] at h
    obtain ⟨c, _, hrun⟩ := Option.bind_eq_some_iff.mp h
    cases houtcome : jobs j s.conn with
    | mk o conn =>
      rw [houtcome] at hrun
      cases o with
      | returned r =>
        obtain ⟨result, _, rfl⟩ := Option.map_eq_some_iff.mp hrun
        exact ⟨rfl, rfl, rfl, rfl, show (2 : Nat) < 3 by decide⟩
      | panicked =>
        cases hrun
        exact ⟨rfl, rfl, rfl, rfl, show (1 : Nat) < 3 by decide⟩
  | replying j =>
    simp only [hloop, Actor.sendReply] at h
    obtain ⟨c, _, h⟩ := Option.bind_eq_some_iff.mp h
    obtain ⟨ch, _, rfl⟩ := Option.map_eq_some_iff.mp h
    exact ⟨rfl, rfl, rfl, rfl, show (1 : Nat) < 2 by decide⟩
  | answering j reply =>
    simp only [hloop, Actor.sendReply] at h
    obtain ⟨c, _, h⟩ := Option.bind_eq_some_iff.mp h
    obtain ⟨ch, _, rfl⟩ := Option.map_eq_some_iff.mp h
    exact ⟨rfl, rfl, rfl, rfl, Nat.one_pos⟩

/-- Once the loop has ended, nothing starts. -/
private theorem step_halted {e : Event} (h : s.loop.halted = true) (hstep : s.step? jobs e = some t) :
    t.loop.halted = true ∧ t.started = s.started := by
  cases e with
  | call =>
    simp only [Actor.step?] at hstep
    split at hstep
    · cases hstep
      exact ⟨h, rfl⟩
    · cases hstep
  | caller k e =>
    obtain ⟨c, _, hstep⟩ := Option.bind_eq_some_iff.mp hstep
    obtain ⟨hloop, hstarted, _⟩ := callerStep_frame hstep
    exact ⟨hloop ▸ h, hstarted⟩
  | shutdown =>
    simp only [Actor.step?] at hstep
    split at hstep
    · obtain ⟨queue, _, rfl⟩ := Option.map_eq_some_iff.mp hstep
      exact ⟨h, rfl⟩
    · cases hstep
  | dropHandles =>
    simp only [Actor.step?] at hstep
    split at hstep
    · cases hstep
      exact ⟨h, rfl⟩
    · cases hstep
  | writer =>
    simp only [Actor.step?, Actor.writerStep] at hstep
    cases hloop : s.loop with
    | stopping =>
      simp only [hloop] at hstep
      cases hstep
      exact ⟨rfl, rfl⟩
    | stopped =>
      simp only [hloop] at hstep
      cases hstep
    | idle | running k | replying k | answering k reply =>
      rw [hloop] at h
      cases h

theorem run_halted (events : List Event) (h : s.loop.halted = true) :
    (s.run jobs events).loop.halted = true ∧ (s.run jobs events).started = s.started := by
  induction events generalizing s with
  | nil => exact ⟨h, rfl⟩
  | cons e events ih =>
    cases hstep : s.step? jobs e with
    | none => exact run_none hstep events ▸ ih h
    | some t =>
      obtain ⟨hhalted, hstarted⟩ := step_halted h hstep
      rw [run_some hstep, ← hstarted]
      exact ih hhalted

/-- Nobody has asked the writer to end. -/
structure Wanted (s : Actor σ α) : Prop where
  running : s.loop.halted = false
  handles : s.handles = true
  queue : .shutdown ∉ s.queue.items

theorem Wanted.step {e : Event} (h : Wanted s) (hshutdown : e ≠ .shutdown)
    (hdrop : e ≠ .dropHandles) (hstep : s.step? jobs e = some t) : Wanted t := by
  cases e with
  | call =>
    simp only [Actor.step?] at hstep
    split at hstep
    · cases hstep
      exact ⟨h.running, h.handles, h.queue⟩
    · cases hstep
  | caller k e =>
    obtain ⟨c, _, hstep⟩ := Option.bind_eq_some_iff.mp hstep
    obtain ⟨hloop, _, hhandles, hqueue⟩ := callerStep_frame hstep
    exact ⟨hloop ▸ h.running, hhandles ▸ h.handles, fun hm => h.queue (hqueue hm)⟩
  | shutdown => exact absurd rfl hshutdown
  | dropHandles => exact absurd rfl hdrop
  | writer =>
    cases hjob : s.loop.job? with
    | some k =>
      obtain ⟨hqueue, _, hhandles, hrunning, _⟩ := writerStep_frame hstep hjob
      exact ⟨hrunning, hhandles ▸ h.handles, hqueue ▸ h.queue⟩
    | none =>
      have hrunning := h.running
      simp only [Actor.step?, Actor.writerStep] at hstep
      cases hloop : s.loop with
      | idle =>
        simp only [hloop] at hstep
        cases hitems : s.queue.items with
        | nil =>
          simp only [hitems] at hstep
          rw [if_pos h.handles] at hstep
          cases hstep
        | cons m rest =>
          have hqueue := h.queue
          rw [hitems] at hqueue
          cases m with
          | job k =>
            simp only [hitems] at hstep
            obtain ⟨c, _, rfl⟩ := Option.map_eq_some_iff.mp hstep
            exact ⟨rfl, h.handles, fun hm => hqueue (List.mem_cons_of_mem _ hm)⟩
          | shutdown => exact absurd List.mem_cons_self hqueue
      | stopping | stopped =>
        rw [hloop] at hrunning
        cases hrunning
      | running k | replying k | answering k reply =>
        rw [hloop] at hjob
        cases hjob

theorem Wanted.run {events : List Event} (h : Wanted s) (hshutdown : .shutdown ∉ events)
    (hdrop : .dropHandles ∉ events) : Wanted (s.run jobs events) := by
  induction events generalizing s with
  | nil => exact h
  | cons e events ih =>
    obtain ⟨hfirst, hrest⟩ := not_or.mp (fun hm => hshutdown (List.mem_cons.mpr hm))
    obtain ⟨hfirst', hrest'⟩ := not_or.mp (fun hm => hdrop (List.mem_cons.mpr hm))
    cases hstep : s.step? jobs e with
    | none => exact run_none hstep events ▸ ih h hrest hrest'
    | some t =>
      rw [run_some hstep]
      exact ih (h.step (fun he => hfirst he.symm) (fun he => hfirst' he.symm) hstep) hrest hrest'

end AgosMemory.Writer
