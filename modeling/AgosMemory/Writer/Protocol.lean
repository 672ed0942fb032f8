import AgosMemory.Writer.Steps

/-!
# The protocol of the writer

Jobs run one at a time in the order in which they were accepted, callers get what their own closures
returned, a panic stays with its caller, nothing runs after a shutdown, and whoever blocks the writer
can always take the step that frees it.
-/

namespace AgosMemory.Writer

open Library

variable {σ α : Type} {jobs : Nat → σ → Outcome α × σ} {conn₀ : σ} {s t : Actor σ α}

/-! ## Progress -/

/-- A reply goes through unless the caller still waits with one in its channel. -/
theorem Caller.Fits.sends {config : WriterConfig} {halted : Bool} {c : Caller α}
    (h : c.Fits config halted) (hlen : c.stage.replies.length ≤ 1)
    (hwaiting : c.phase = .waiting → c.stage.replies = []) (reply : Except Error Unit) :
    ∃ ch, c.reply.send? false reply = some ch := by
  unfold Caller.Fits at h
  cases hphase : c.phase with
  | sending =>
    rw [hphase] at h
    exact Channel.send?_room (by rw [h.2.1]; rfl) reply
  | waiting =>
    rw [hphase] at h
    rw [h.2.1, hwaiting hphase]
    exact Channel.send?_room rfl reply
  | collecting =>
    rw [hphase] at h
    obtain ⟨rest, hreplies, hreply, _⟩ := h
    rw [hreplies, List.length_cons] at hlen
    have hrest : rest = [] := List.length_eq_zero_iff.mp (by omega)
    rw [hreply, hrest]
    exact Channel.send?_room rfl reply
  | returned r =>
    rw [hphase] at h
    exact ⟨c.reply, Channel.send?_closed h.1 false reply⟩

/-- The result channel never blocks the writer. -/
theorem Caller.Fits.sendsResult {config : WriterConfig} {halted : Bool} {c : Caller α}
    (h : c.Fits config halted) (hresults : c.stage.results = []) (r : Except Error α) :
    ∃ ch, c.result.send? false r = some ch := by
  unfold Caller.Fits at h
  cases hphase : c.phase with
  | sending =>
    rw [hphase] at h
    exact Channel.send?_room (by rw [h.2.2]; rfl) r
  | waiting =>
    rw [hphase] at h
    rw [h.2.2.2, hresults]
    exact Channel.send?_room rfl r
  | collecting =>
    rw [hphase] at h
    obtain ⟨rest, _, _, hresult⟩ := h
    rw [hresult, hresults]
    exact Channel.send?_room rfl r
  | returned r' =>
    rw [hphase] at h
    exact ⟨c.result, Channel.send?_closed h.2.1 false r⟩

namespace Valid

/-- The caller of the job in hand. -/
private theorem inHand (h : Valid jobs conn₀ s) {k : Nat} {stage : Stage α}
    (hstage : s.stages[k]? = some stage) :
    ∃ c, s.callers[k]? = some c ∧ c.stage = stage ∧ c.Fits s.config s.loop.halted := by
  rw [Actor.stages, List.getElem?_map] at hstage
  obtain ⟨c, hc, rfl⟩ := Option.map_eq_some_iff.mp hstage
  exact ⟨c, hc, rfl, h.fits k c hc⟩

/-- With a job in hand the writer moves, unless the caller has not taken the first reply. -/
theorem moves (h : Valid jobs conn₀ s) {k : Nat} (hjob : s.loop.job? = some k) :
    (∃ t, s.writerStep jobs = some t) ∨
      (s.loop = .answering k (.ok ()) ∧
        ∃ c, s.callers[k]? = some c ∧ c.phase = .waiting ∧ c.reply = ⟨1, [.ok ()], true⟩) := by
  have hworking := h.working
  unfold Actor.writerStep
  cases hloop : s.loop with
  | idle | stopping | stopped =>
    rw [hloop] at hjob
    cases hjob
  | running j =>
    rw [hloop] at hworking
    obtain ⟨c, hc, hstage, hfits⟩ := h.inHand hworking.1
    have hsends := hfits.sendsResult (by rw [hstage]; rfl)
    left
    simp only [hc, Option.bind_some]
    cases jobs j s.conn with
    | mk o conn =>
      cases o with
      | returned r =>
        obtain ⟨ch, hch⟩ := hsends r
        simp only [Actor.runJob, hch, Option.map_some]
        exact ⟨_, rfl⟩
      | panicked => exact ⟨_, rfl⟩
  | replying j =>
    rw [hloop] at hworking
    obtain ⟨⟨r, hr⟩, _⟩ := hworking
    obtain ⟨c, hc, hstage, hfits⟩ := h.inHand hr
    obtain ⟨ch, hch⟩ := hfits.sends (by rw [hstage]; exact Nat.zero_le _)
      (fun _ => by rw [hstage]; rfl) (.ok ())
    left
    simp only [Actor.sendReply, hc, Option.bind_some, hch, Option.map_some]
    exact ⟨_, rfl⟩
  | answering j reply =>
    rw [hloop] at hworking hjob
    obtain rfl := Option.some.inj hjob
    obtain ⟨⟨o, ho, rfl⟩, _⟩ := hworking
    obtain ⟨c, hc, hstage, hfits⟩ := h.inHand ho
    have hlen : c.stage.replies.length ≤ 1 := by
      rw [hstage]
      cases o <;> simp [Stage.replies]
    have hgo : (c.phase = .waiting → c.stage.replies = []) →
        ∃ t, s.sendReply j o.reply .idle = some t := by
      intro hwaiting
      obtain ⟨ch, hch⟩ := hfits.sends hlen hwaiting o.reply
      simp only [Actor.sendReply, hc, Option.bind_some, hch, Option.map_some]
      exact ⟨_, rfl⟩
    cases hphase : c.phase with
    | waiting =>
      cases o with
      | panicked => exact Or.inl (hgo fun _ => by rw [hstage]; rfl)
      | returned r =>
        right
        rw [Caller.Fits, hphase, hstage] at hfits
        exact ⟨rfl, c, hc, hphase, hfits.2.1⟩
    | sending | collecting | returned r =>
      left
      refine hgo fun hwaiting => ?_
      rw [hphase] at hwaiting
      cases hwaiting

/-- A caller that no longer waits does not block the writer. -/
private theorem freed (h : Valid jobs conn₀ s) {k : Nat} (hjob : s.loop.job? = some k) {c : Caller α}
    (hc : s.callers[k]? = some c) (hphase : c.phase ≠ .waiting) :
    ∃ t, s.writerStep jobs = some t := by
  refine (h.moves hjob).resolve_right ?_
  rintro ⟨_, d, hd, hwaiting, _⟩
  rw [hc] at hd
  cases hd
  exact hphase hwaiting

end Valid

/-- The writer cannot send the reply it is at. -/
def Actor.Blocked (jobs : Nat → σ → Outcome α × σ) (s : Actor σ α) (k : Nat) : Prop :=
  s.loop.job? = some k ∧ s.writerStep jobs = none

private theorem setCaller_getElem {k : Nat} {c c' : Caller α} (hc : s.callers[k]? = some c) :
    (s.setCaller k c').callers[k]? = some c' := by
  show (s.callers.set k c')[k]? = some c'
  rw [List.getElem?_set, if_pos rfl, if_pos (List.getElem?_eq_some_iff.mp hc).1]

/-- The caller that blocks the writer waits, and either step it can take lets the writer go on. -/
theorem Valid.unblocks (h : Valid jobs conn₀ s) {k : Nat} (hblocked : s.Blocked jobs k)
    {e : CallerStep} (he : e = .receive ∨ e = .recvTimeout) :
    ∃ t, s.step? jobs (.caller k e) = some t ∧ t.loop = s.loop ∧ t.queue = s.queue ∧
      t.started = s.started ∧ ∃ u, t.step? jobs .writer = some u := by
  obtain ⟨hjob, hnone⟩ := hblocked
  rcases h.moves hjob with ⟨t, ht⟩ | ⟨_, c, hc, hphase, hreply⟩
  · rw [hnone] at ht
    cases ht
  · have hgo : ∀ (c' : Caller α) (t : Actor σ α), t = s.setCaller k c' → c'.phase ≠ .waiting →
        s.step? jobs (.caller k e) = some t → ∃ t, s.step? jobs (.caller k e) = some t ∧
          t.loop = s.loop ∧ t.queue = s.queue ∧ t.started = s.started ∧
          ∃ u, t.step? jobs .writer = some u := by
      rintro c' t rfl hleft hstep
      exact ⟨_, hstep, rfl, rfl, rfl, (h.step hstep).freed hjob (setCaller_getElem hc) hleft⟩
    rcases he with rfl | rfl
    · refine hgo { c with phase := .collecting, reply := { c.reply with items := [] } } _ rfl
        (fun hp => by cases hp) ?_
      simp only [Actor.step?, hc, Option.bind_some, Actor.callerStep, hphase, hreply]
    · refine hgo (c.finish (.error (notInTime s.config))) _ rfl (fun hp => by cases hp) ?_
      simp only [Actor.step?, hc, Option.bind_some, Actor.callerStep, hphase]

/-- The steps that take the writer on: its own, and a caller's receipt of a reply. -/
def Event.helps : Event → Bool
  | .writer | .caller _ .receive => true
  | _ => false

/-- The job in hand comes to its end. -/
theorem Valid.settle (h : Valid jobs conn₀ s) (hrunning : s.loop.halted = false) :
    ∃ events, (∀ e ∈ events, e.helps) ∧ (s.run jobs events).loop = .idle ∧
      (s.run jobs events).queue = s.queue ∧ (s.run jobs events).started = s.started := by
  induction hrank : s.loop.rank using Nat.strong_induction_on generalizing s with
  | _ n ih =>
    cases hjob : s.loop.job? with
    | none =>
      refine ⟨[], fun e he => (by cases he), ?_, rfl, rfl⟩
      show s.loop = .idle
      cases hloop : s.loop with
      | idle => rfl
      | stopping | stopped =>
        rw [hloop] at hrunning
        cases hrunning
      | running k | replying k | answering k reply =>
        rw [hloop] at hjob
        cases hjob
    | some k =>
      -- the first steps, up to one of the writer's own
      obtain ⟨first, t, u, hfirst, hrun, ht, hloop, hqueue, hstarted, hu⟩ :
          ∃ (first : List Event) (t u : Actor σ α), (∀ e ∈ first, e.helps) ∧
            s.run jobs first = t ∧ Valid jobs conn₀ t ∧ t.loop = s.loop ∧ t.queue = s.queue ∧
            t.started = s.started ∧ t.step? jobs .writer = some u := by
        cases hstep : s.writerStep jobs with
        | some u => exact ⟨[], s, u, fun e he => (by cases he), rfl, h, rfl, rfl, rfl, hstep⟩
        | none =>
          obtain ⟨t, ht, hloop, hqueue, hstarted, u, hu⟩ :=
            h.unblocks ⟨hjob, hstep⟩ (Or.inl rfl)
          refine ⟨[.caller k .receive], t, u, ?_, run_some ht [], h.step ht, hloop, hqueue,
            hstarted, hu⟩
          intro e he
          rw [List.mem_singleton.mp he]
          rfl
      obtain ⟨hqueue', hstarted', _, hrunning', hless⟩ := writerStep_frame hu (hloop ▸ hjob)
      rw [hloop] at hless
      obtain ⟨rest, hrest, hidle, hq, hs⟩ := ih _ (hrank ▸ hless) (ht.step hu) hrunning' rfl
      have hall : s.run jobs (first ++ .writer :: rest) = u.run jobs rest := by
        rw [run_append, hrun, run_some hu]
      refine ⟨first ++ .writer :: rest, ?_, hall ▸ hidle, ?_, ?_⟩
      · intro e he
        rcases List.mem_append.mp he with he | he
        · exact hfirst e he
        · rcases List.mem_cons.mp he with rfl | he
          · rfl
          · exact hrest e he
      · rw [hall, hq, hqueue', hqueue]
      · rw [hall, hs, hstarted', hstarted]

/-- The head of the queue is taken when the writer is idle. -/
theorem Valid.takes (h : Valid jobs conn₀ s) (hloop : s.loop = .idle) {k : Nat}
    {rest : List WriterMsg} (hitems : s.queue.items = .job k :: rest) :
    ∃ t, s.step? jobs .writer = some t ∧ t.loop.halted = false ∧ t.queue.items = rest ∧
      t.started = s.started ++ [k] := by
  have hlt := h.bound k (h.accepted_of_queued (hitems ▸ List.mem_cons_self))
  obtain ⟨c, hc⟩ : ∃ c, s.callers[k]? = some c := ⟨_, List.getElem?_eq_getElem hlt⟩
  refine ⟨{ s.setCaller k { c with stage := .running } with
    queue := { s.queue with items := rest }, loop := .running k, started := s.started ++ [k] },
    ?_, rfl, rfl, rfl⟩
  simp only [Actor.step?, Actor.writerStep, hloop, hitems, hc, Option.map_some]

/-- Every job in front of a shutdown comes to run. -/
theorem Valid.serves (h : Valid jobs conn₀ s) (hrunning : s.loop.halted = false)
    {before : List Nat} {k : Nat} {rest : List WriterMsg}
    (hitems : s.queue.items = before.map .job ++ .job k :: rest) :
    ∃ events, (∀ e ∈ events, e.helps) ∧ k ∈ (s.run jobs events).started := by
  induction before generalizing s with
  | nil =>
    obtain ⟨events, hhelps, hidle, hqueue, _⟩ := h.settle hrunning
    obtain ⟨t, ht, _, _, hstarted⟩ := (h.run events).takes hidle (hqueue ▸ hitems)
    refine ⟨events ++ [.writer], ?_, ?_⟩
    · intro e he
      rcases List.mem_append.mp he with he | he
      · exact hhelps e he
      · rw [List.mem_singleton.mp he]
        rfl
    · rw [run_append, run_some ht]
      show k ∈ t.started
      rw [hstarted]
      exact List.mem_append_right _ List.mem_cons_self
  | cons j before ih =>
    obtain ⟨events, hhelps, hidle, hqueue, _⟩ := h.settle hrunning
    obtain ⟨t, ht, hrunning', hrest, _⟩ := (h.run events).takes hidle (hqueue ▸ hitems)
    obtain ⟨events', hhelps', hk⟩ := ih ((h.run events).step ht) hrunning' hrest
    refine ⟨events ++ .writer :: events', ?_, ?_⟩
    · intro e he
      rcases List.mem_append.mp he with he | he
      · exact hhelps e he
      · rcases List.mem_cons.mp he with rfl | he
        · rfl
        · exact hhelps' e he
    · rw [run_append, run_some ht]
      exact hk

/-- A caller that has not returned has a step to take. -/
theorem Valid.canStep (h : Valid jobs conn₀ s) {k : Nat} {c : Caller α}
    (hc : s.callers[k]? = some c) (hphase : c.phase.isReturned = false) :
    ∃ e t, s.step? jobs (.caller k e) = some t := by
  have hfits := h.fits k c hc
  unfold Caller.Fits at hfits
  cases hp : c.phase with
  | sending =>
    refine ⟨.sendTimeout, s.setCaller k (c.finish (.error (queueFull s.config))), ?_⟩
    simp only [Actor.step?, hc, Option.bind_some, hp, Actor.callerStep]
  | waiting =>
    refine ⟨.recvTimeout, s.setCaller k (c.finish (.error (notInTime s.config))), ?_⟩
    simp only [Actor.step?, hc, Option.bind_some, hp, Actor.callerStep]
  | collecting =>
    rw [hp] at hfits
    obtain ⟨rest, hreplies, _, hresult⟩ := hfits
    obtain ⟨r, hr, _⟩ := result_of_replies hreplies
    refine ⟨.collect, s.setCaller k (c.finish r), ?_⟩
    simp only [Actor.step?, hc, Option.bind_some, hp, Actor.callerStep, hresult, hr]
  | returned r =>
    rw [hp] at hphase
    cases hphase

/-- The job of a caller that was accepted and not started: every step it takes ends in an error. -/
theorem Valid.errs (h : Valid jobs conn₀ s) {k : Nat} {c : Caller α}
    (hc : s.callers[k]? = some c) (haccepted : k ∈ s.accepted) (hstarted : k ∉ s.started) :
    (∀ r, c.phase = .returned r → ∃ e, r = .error e) ∧
      ∀ e t, s.step? jobs (.caller k e) = some t →
        ∃ d err, t.callers[k]? = some d ∧ d.phase = .returned (.error err) := by
  have hfits := h.fits k c hc
  have hnone : c.stage.outcome? = none := by
    rw [h.outcome k c hc, outcomeOf, if_neg]
    exact fun hf => hstarted (h.working.finished_prefix.subset hf)
  have hreplies : c.stage.replies = [] := by
    cases hstage : c.stage with
    | unsent | queued | running | replying r => rfl
    | answering o | done o =>
      rw [hstage] at hnone
      cases hnone
  unfold Caller.Fits at hfits
  constructor
  · intro r hr
    rw [hr] at hfits
    have hanswers := hfits.2.2
    rw [hnone] at hanswers
    cases r with
    | ok a => cases hanswers
    | error e => exact ⟨e, rfl⟩
  · intro e t hstep
    simp only [Actor.step?, hc, Option.bind_some] at hstep
    unfold Actor.callerStep at hstep
    cases hphase : c.phase with
    | sending =>
      rw [hphase] at hfits
      exact absurd hfits.1 ((h.known k c hc).mp haccepted)
    | collecting =>
      rw [hphase] at hfits
      obtain ⟨rest, hfirst, _⟩ := hfits
      rw [hreplies] at hfirst
      cases hfirst
    | returned r =>
      cases e <;> (simp only [hphase] at hstep; cases hstep)
    | waiting =>
      rw [hphase] at hfits
      obtain ⟨_, hreply, _⟩ := hfits
      rw [hreplies] at hreply
      cases e with
      | receive =>
        simp only [hphase, hreply] at hstep
        cases hstep
      | recvTimeout =>
        simp only [hphase] at hstep
        cases hstep
        exact ⟨_, _, setCaller_getElem hc, rfl⟩
      | recvDisconnected =>
        simp only [hphase] at hstep
        split at hstep
        · cases hstep
          exact ⟨_, _, setCaller_getElem hc, rfl⟩
        · cases hstep
      | accept | sendTimeout | sendDisconnected | collect | collectDisconnected =>
        simp only [hphase] at hstep
        cases hstep

/-! ## The protocol -/

/-- What holds in every state of the actor. -/
structure Protocol (jobs : Nat → σ → Outcome α × σ) (conn₀ : σ) (s : Actor σ α) : Prop where
  /-- Accepted jobs start in the order of their submission, each at most once. -/
  inOrder : s.started <+: s.accepted ∧ s.accepted.Nodup
  /-- At most one job has started and not ended. -/
  oneAtATime : s.started = s.finished ∨
    ∃ k, s.loop = .running k ∧ s.started = s.finished ++ [k]
  /-- The connection is as if the closures had run one after the other. -/
  serial : s.conn = replay jobs s.finished conn₀
  /-- A caller gets what its own closure returned, or an error; a panic is reported to the caller
  whose closure panicked. -/
  answers : ∀ (k : Nat) (c : Caller α) (r : Except Error α), s.callers[k]? = some c →
    c.phase = .returned r → Answers s.config s.loop.halted (outcomeOf jobs conn₀ s.finished k) r
  /-- While the writer runs, every job in front of a shutdown can come to run. -/
  served : s.loop.halted = false → ∀ (before : List Nat) (k : Nat) (rest : List WriterMsg),
    s.queue.items = before.map .job ++ .job k :: rest →
    ∃ events, (∀ e ∈ events, e.helps) ∧ k ∈ (s.run jobs events).started
  /-- After the shutdown nothing starts, and who waits for a job behind it ends in an error. -/
  halted : s.loop.halted = true → ∀ events : List Event,
    (s.run jobs events).started = s.started ∧
      ∀ (k : Nat) (c : Caller α), k ∉ s.started → k ∈ (s.run jobs events).accepted →
        (s.run jobs events).callers[k]? = some c →
        (∀ r, c.phase = .returned r → ∃ e, r = .error e) ∧
          (c.phase.isReturned = false →
            (∃ e t, (s.run jobs events).step? jobs (.caller k e) = some t) ∧
              ∀ e t, (s.run jobs events).step? jobs (.caller k e) = some t →
                ∃ d err, t.callers[k]? = some d ∧ d.phase = .returned (.error err))
  /-- Only a reply blocks the writer, and either step of the caller that waits unblocks it. -/
  unblocked : ∀ k, s.Blocked jobs k →
    (∃ reply, s.loop = .answering k reply) ∧
    ∀ e, e = .receive ∨ e = .recvTimeout → ∃ t, s.step? jobs (.caller k e) = some t ∧
      ∃ u, t.step? jobs .writer = some u
  /-- No caller is stuck, and the writer rests only when it is blocked, without work or ended. -/
  live : (∀ (k : Nat) (c : Caller α), s.callers[k]? = some c → c.phase.isReturned = false →
      ∃ e t, s.step? jobs (.caller k e) = some t) ∧
    ((∃ t, s.step? jobs .writer = some t) ∨ (∃ k, s.Blocked jobs k) ∨
      (s.loop = .idle ∧ s.queue.items = []) ∨ s.loop = .stopped)

theorem Valid.protocol (h : Valid jobs conn₀ s) : Protocol jobs conn₀ s where
  inOrder := ⟨h.begun, h.nodup⟩
  oneAtATime := by
    have hworking := h.working
    cases hloop : s.loop with
    | running k =>
      rw [hloop] at hworking
      exact Or.inr ⟨k, rfl, hworking.2⟩
    | replying k | answering k reply =>
      rw [hloop] at hworking
      exact Or.inl hworking.2
    | idle | stopping | stopped =>
      rw [hloop] at hworking
      exact Or.inl hworking
  serial := h.serial
  answers k c r hc hphase := by
    have hfits := h.fits k c hc
    rw [Caller.Fits, hphase] at hfits
    exact h.outcome k c hc ▸ hfits.2.2
  served hrunning before k rest hitems := h.serves hrunning hitems
  halted hhalted events := by
    have hstarted : (s.run jobs events).started = s.started := (run_halted events hhalted).2
    refine ⟨hstarted, fun k c hk haccepted hc => ?_⟩
    have hvalid := h.run events
    obtain ⟨hreturned, hsteps⟩ := hvalid.errs hc haccepted (hstarted ▸ hk)
    exact ⟨hreturned, fun hwaits => ⟨hvalid.canStep hc hwaits, hsteps⟩⟩
  unblocked k hblocked := by
    refine ⟨⟨.ok (), ?_⟩, fun e he => ?_⟩
    · rcases h.moves hblocked.1 with ⟨t, ht⟩ | ⟨hloop, _⟩
      · rw [hblocked.2] at ht
        cases ht
      · exact hloop
    · obtain ⟨t, ht, _, _, _, hu⟩ := h.unblocks hblocked he
      exact ⟨t, ht, hu⟩
  live := by
    refine ⟨fun k c hc hwaits => h.canStep hc hwaits, ?_⟩
    cases hstep : s.writerStep jobs with
    | some t => exact Or.inl ⟨t, hstep⟩
    | none =>
      cases hloop : s.loop with
      | running k | replying k | answering k reply =>
        exact Or.inr (Or.inl ⟨k, by rw [hloop]; rfl, hstep⟩)
      | stopping =>
        simp only [Actor.writerStep, hloop] at hstep
        cases hstep
      | stopped => exact Or.inr (Or.inr (Or.inr rfl))
      | idle =>
        cases hitems : s.queue.items with
        | nil => exact Or.inr (Or.inr (Or.inl ⟨rfl, rfl⟩))
        | cons m rest =>
          cases m with
          | job k =>
            obtain ⟨t, ht, _⟩ := h.takes hloop hitems
            exact Or.inl ⟨t, ht⟩
          | shutdown =>
            simp only [Actor.writerStep, hloop, hitems] at hstep
            cases hstep

/-- In every run the actor keeps to its protocol, and it ends only when it is asked to or when the
last handle is dropped; no panic ends it. -/
theorem writer_protocol (jobs : Nat → σ → Outcome α × σ) (config : WriterConfig) (conn : σ)
    (events : List Event) :
    Protocol jobs conn ((spawn α config conn).run jobs events) ∧
      (.shutdown ∉ events → .dropHandles ∉ events →
        ((spawn α config conn).run jobs events).loop.halted = false) := by
  refine ⟨((Valid.spawn jobs config conn).run events).protocol, fun hshutdown hdrop => ?_⟩
  have hwanted : Wanted (spawn α config conn) := ⟨rfl, rfl, fun hm => (by cases hm)⟩
  exact (hwanted.run hshutdown hdrop).running

end AgosMemory.Writer
