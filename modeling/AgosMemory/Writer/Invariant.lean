import AgosMemory.Writer.Actor
import Mathlib.Data.List.Infix
import Mathlib.Data.List.Nodup
import Mathlib.Data.List.TakeWhile

/-!
# Callers and the writer agree

What a caller has taken and what is left in its channels is what the writer sent to it, and the
queue, the job in hand and the history of the writer account for every accepted job.
-/

namespace AgosMemory.Writer

open Library

variable {σ α : Type}

def Outcome.reply : Outcome α → Except Error Unit
  | returned _ => .ok ()
  | panicked => .error jobPanicked

namespace Stage

/-- The replies sent so far. -/
def replies : Stage α → List (Except Error Unit)
  | answering (.returned _) => [.ok ()]
  | done (.returned _) => [.ok (), .ok ()]
  | done .panicked => [.error jobPanicked]
  | _ => []

/-- The results sent so far. -/
def results : Stage α → List (Except Error α)
  | replying r | answering (.returned r) | done (.returned r) => [r]
  | _ => []

def outcome? : Stage α → Option (Outcome α)
  | replying r => some (.returned r)
  | answering o | done o => some o
  | _ => none

end Stage

def Loop.halted : Loop → Bool
  | stopping | stopped => true
  | _ => false

/-- What a call of `write` may return, when `own` is how its closure ended. -/
def Answers (config : WriterConfig) (halted : Bool) (own : Option (Outcome α)) :
    Except Error α → Prop
  | .ok a => own = some (.returned (.ok a))
  | .error e => own = some (.returned (.error e)) ∨ (own = some .panicked ∧ e = jobPanicked) ∨
      e = queueFull config ∨ e = notInTime config ∨
      (halted = true ∧ (e = threadStopped ∨ e = replyDropped))

/-- What a caller has taken and what is left in its channels is what the writer sent. -/
def Caller.Fits (config : WriterConfig) (halted : Bool) (c : Caller α) : Prop :=
  match c.phase with
  | .sending => c.stage = .unsent ∧ c.reply = ⟨1, [], true⟩ ∧ c.result = ⟨1, [], true⟩
  | .waiting => c.stage ≠ .unsent ∧ c.reply = ⟨1, c.stage.replies, true⟩ ∧
      c.stage.replies.length ≤ 1 ∧ c.result = ⟨1, c.stage.results, true⟩
  | .collecting => ∃ rest, c.stage.replies = .ok () :: rest ∧ c.reply = ⟨1, rest, true⟩ ∧
      c.result = ⟨1, c.stage.results, true⟩
  | .returned r => c.reply.receiver = false ∧ c.result.receiver = false ∧
      Answers config halted c.stage.outcome? r

/-- The numbers of the queued jobs. -/
def jobsOf (items : List WriterMsg) : List Nat :=
  items.filterMap fun
    | .job k => some k
    | .shutdown => none

def Actor.stages (s : Actor σ α) : List (Stage α) := s.callers.map Caller.stage

/-- The job in hand, against the stages of the callers. -/
def Working (stages : List (Stage α)) (started finished : List Nat) : Loop → Prop
  | .running k => stages[k]? = some .running ∧ started = finished ++ [k]
  | .replying k => (∃ r, stages[k]? = some (.replying r)) ∧ started = finished
  | .answering k reply =>
    (∃ o, stages[k]? = some (.answering o) ∧ reply = o.reply) ∧ started = finished
  | _ => started = finished

/-- Where the job of caller `k` is while its stage is not final. -/
def Held (loop : Loop) (items : List WriterMsg) (k : Nat) : Stage α → Prop
  | .queued => .job k ∈ items ∨ loop = .stopped
  | .running | .replying _ | .answering _ => loop.job? = some k
  | .unsent | .done _ => True

variable {jobs : Nat → σ → Outcome α × σ} {conn₀ : σ} {s t : Actor σ α}

structure Valid (jobs : Nat → σ → Outcome α × σ) (conn₀ : σ) (s : Actor σ α) : Prop where
  fits : ∀ (k : Nat) (c : Caller α), s.callers[k]? = some c → c.Fits s.config s.loop.halted
  known : ∀ (k : Nat) (c : Caller α), s.callers[k]? = some c → (k ∈ s.accepted ↔ c.stage ≠ .unsent)
  queued : ∀ (k : Nat) (c : Caller α), s.callers[k]? = some c → .job k ∈ s.queue.items → c.stage = .queued
  held : ∀ (k : Nat) (c : Caller α), s.callers[k]? = some c →
    Held s.loop s.queue.items k c.stage
  outcome : ∀ (k : Nat) (c : Caller α), s.callers[k]? = some c →
    c.stage.outcome? = outcomeOf jobs conn₀ s.finished k
  bound : ∀ k ∈ s.accepted, k < s.callers.length
  nodup : s.accepted.Nodup
  order : (s.loop = .stopped ∧ s.queue.items = []) ∨
    s.accepted = s.started ++ jobsOf s.queue.items
  begun : s.started <+: s.accepted
  working : Working s.stages s.started s.finished s.loop
  serial : s.conn = replay jobs s.finished conn₀
  receiver : s.queue.receiver = true ↔ s.loop ≠ .stopped

theorem replay_append (jobs : Nat → σ → Outcome α × σ) (ks : List Nat) (k : Nat) (conn : σ) :
    replay jobs (ks ++ [k]) conn = (jobs k (replay jobs ks conn)).2 := by
  simp [replay]

theorem outcomeOf_append_ne {finished : List Nat} {j k : Nat} (h : j ≠ k) :
    outcomeOf jobs conn₀ (finished ++ [k]) j = outcomeOf jobs conn₀ finished j := by
  unfold outcomeOf
  by_cases hj : j ∈ finished
  · have htake : (finished ++ [k]).takeWhile (fun i => i ≠ j) = finished.takeWhile fun i => i ≠ j := by
      rw [List.takeWhile_append, if_neg]
      intro hlen
      have hall := List.takeWhile_eq_self_iff.mp
        ((List.takeWhile_prefix fun i => decide (i ≠ j)).eq_of_length hlen)
      simpa using hall j hj
    rw [if_pos (List.mem_append_left _ hj), if_pos hj, htake]
  · rw [if_neg (by simp [hj, h]), if_neg hj]

theorem outcomeOf_append_self {finished : List Nat} {k : Nat} (h : k ∉ finished) :
    outcomeOf jobs conn₀ (finished ++ [k]) k = some (jobs k (replay jobs finished conn₀)).1 := by
  have htake : (finished ++ [k]).takeWhile (fun i => i ≠ k) = finished := by
    have hself : finished.takeWhile (fun i => i ≠ k) = finished :=
      List.takeWhile_eq_self_iff.mpr fun i hi => decide_eq_true (ne_of_mem_of_not_mem hi h)
    rw [List.takeWhile_append, if_pos (congrArg _ hself)]
    simp
  rw [outcomeOf, if_pos (by simp), htake]

/-! ### What a step does to one caller -/

theorem Answers.later {config : WriterConfig} {halted halted' : Bool} {own own' : Option (Outcome α)}
    {r : Except Error α} (h : Answers config halted own r) (hown : own = none ∨ own' = own)
    (hhalted : halted = true → halted' = true) : Answers config halted' own' r := by
  rcases hown with rfl | rfl
  · cases r with
    | ok a => cases h
    | error e =>
      rcases h with h | h | h | h | ⟨hh, h⟩
      · cases h
      · cases h.1
      · exact Or.inr (Or.inr (Or.inl h))
      · exact Or.inr (Or.inr (Or.inr (Or.inl h)))
      · exact Or.inr (Or.inr (Or.inr (Or.inr ⟨hhalted hh, h⟩)))
  · cases r with
    | ok a => exact h
    | error e =>
      rcases h with h | h | h | h | ⟨hh, h⟩
      · exact Or.inl h
      · exact Or.inr (Or.inl h)
      · exact Or.inr (Or.inr (Or.inl h))
      · exact Or.inr (Or.inr (Or.inr (Or.inl h)))
      · exact Or.inr (Or.inr (Or.inr (Or.inr ⟨hhalted hh, h⟩)))

/-- The writer moves a caller to its next stage and sends what that stage asks for. -/
theorem Caller.Fits.move {config : WriterConfig} {halted halted' : Bool} {c : Caller α}
    (h : c.Fits config halted) {reply : Channel (Except Error Unit)}
    {result : Channel (Except Error α)} {stage : Stage α} {rs : List (Except Error Unit)}
    {ts : List (Except Error α)} (hreply : c.reply.Gets rs reply)
    (hresult : c.result.Gets ts result) (hsent : c.stage ≠ .unsent) (hstage : stage ≠ .unsent)
    (hreplies : stage.replies = c.stage.replies ++ rs)
    (hresults : stage.results = c.stage.results ++ ts)
    (houtcome : c.stage.outcome? = none ∨ stage.outcome? = c.stage.outcome?)
    (hhalted : halted = true → halted' = true) :
    Caller.Fits config halted' { c with reply, result, stage } := by
  unfold Caller.Fits at h ⊢
  dsimp only
  cases hphase : c.phase with
  | sending =>
    rw [hphase] at h
    exact absurd h.1 hsent
  | waiting =>
    rw [hphase] at h
    obtain ⟨_, hr, hlen, ht⟩ := h
    rw [hr] at hreply
    rw [ht] at hresult
    rcases hreply with ⟨hclosed, _⟩ | ⟨_, rfl, hroom⟩
    · cases hclosed
    · rcases hresult with ⟨hclosed, _⟩ | ⟨_, rfl, _⟩
      · cases hclosed
      · refine ⟨hstage, by rw [hreplies], ?_, by rw [hresults]⟩
        by_cases hrs : rs = []
        · rw [hreplies, hrs, List.append_nil]
          exact hlen
        · rw [hreplies]
          exact hroom hrs
  | collecting =>
    rw [hphase] at h
    obtain ⟨rest, hfirst, hr, ht⟩ := h
    rw [hr] at hreply
    rw [ht] at hresult
    rcases hreply with ⟨hclosed, _⟩ | ⟨_, rfl, _⟩
    · cases hclosed
    · rcases hresult with ⟨hclosed, _⟩ | ⟨_, rfl, _⟩
      · cases hclosed
      · exact ⟨rest ++ rs, by rw [hreplies, hfirst, List.cons_append], rfl, by rw [hresults]⟩
  | returned r =>
    rw [hphase] at h
    obtain ⟨hr, ht, hanswers⟩ := h
    rcases hreply with ⟨_, rfl⟩ | ⟨hopen, _⟩
    · rcases hresult with ⟨_, rfl⟩ | ⟨hopen, _⟩
      · exact ⟨hr, ht, hanswers.later houtcome hhalted⟩
      · rw [ht] at hopen
        cases hopen
    · rw [hr] at hopen
      cases hopen

theorem Caller.Fits.halt {config : WriterConfig} {halted halted' : Bool} {c : Caller α}
    (h : c.Fits config halted) (hhalted : halted = true → halted' = true) :
    c.Fits config halted' := by
  unfold Caller.Fits at h ⊢
  cases hphase : c.phase with
  | returned r =>
    rw [hphase] at h
    exact ⟨h.1, h.2.1, h.2.2.later (Or.inr rfl) hhalted⟩
  | sending | waiting | collecting =>
    rw [hphase] at h
    exact h

/-! ### What a step does to the actor -/

private theorem forall_set {P : Nat → Caller α → Prop} {callers : List (Caller α)} {k : Nat}
    {c' : Caller α} (h : ∀ j c, callers[j]? = some c → j ≠ k → P j c) (hk : P k c') :
    ∀ j c, (callers.set k c')[j]? = some c → P j c := by
  intro j c hj
  rw [List.getElem?_set] at hj
  by_cases hjk : k = j
  · subst hjk
    rw [if_pos rfl] at hj
    split at hj
    · cases hj
      exact hk
    · cases hj
  · rw [if_neg hjk] at hj
    exact h j c hj (Ne.symm hjk)

private theorem stages_getElem {k : Nat} {c : Caller α} (hc : s.callers[k]? = some c) :
    s.stages[k]? = some c.stage := by
  rw [Actor.stages, List.getElem?_map, hc, Option.map_some]

/-- The stage of a caller that is in hand, given the list of stages. -/
theorem stage_of_getElem {k : Nat} {c : Caller α} {stage : Stage α}
    (hc : s.callers[k]? = some c) (h : s.stages[k]? = some stage) : c.stage = stage :=
  Option.some.inj ((stages_getElem hc).symm.trans h)

private theorem stages_setCaller {k : Nat} {c c' : Caller α} (hc : s.callers[k]? = some c)
    (hstage : c'.stage = c.stage) : (s.setCaller k c').stages = s.stages := by
  refine List.ext_getElem? fun j => ?_
  simp only [Actor.stages, Actor.setCaller, List.getElem?_map, List.getElem?_set]
  by_cases hjk : k = j
  · subst hjk
    have hlt := (List.getElem?_eq_some_iff.mp hc).1
    rw [if_pos rfl, if_pos hlt, hc, Option.map_some, Option.map_some, hstage]
  · rw [if_neg hjk]

/-- A stage that the writer does not have in hand may change. -/
theorem Working.set {stages : List (Stage α)} {started finished : List Nat} {loop : Loop}
    (h : Working stages started finished loop) {k : Nat} (hk : stages[k]? = some .unsent)
    (stage : Stage α) : Working (stages.set k stage) started finished loop := by
  have hother : ∀ (j : Nat) (x : Stage α), stages[j]? = some x → x ≠ .unsent →
      (stages.set k stage)[j]? = some x := by
    intro j x hj hx
    rw [List.getElem?_set, if_neg]
    · exact hj
    · rintro rfl
      exact hx (Option.some.inj (hj.symm.trans hk))
  cases loop with
  | running j => exact ⟨hother j _ h.1 (fun h => (by cases h)), h.2⟩
  | replying j =>
    obtain ⟨⟨r, hr⟩, heq⟩ := h
    exact ⟨⟨r, hother j _ hr (fun h => (by cases h))⟩, heq⟩
  | answering j reply =>
    obtain ⟨⟨o, ho, hreply⟩, heq⟩ := h
    exact ⟨⟨o, hother j _ ho (fun h => (by cases h)), hreply⟩, heq⟩
  | idle | stopping | stopped => exact h

theorem Working.call {stages : List (Stage α)} {started finished : List Nat} {loop : Loop}
    (h : Working stages started finished loop) :
    Working (stages ++ [.unsent]) started finished loop := by
  have hold : ∀ (j : Nat) (x : Stage α), stages[j]? = some x →
      (stages ++ [.unsent])[j]? = some x := fun j x hj =>
    (List.getElem?_append_left (List.getElem?_eq_some_iff.mp hj).1).trans hj
  cases loop with
  | running j => exact ⟨hold j _ h.1, h.2⟩
  | replying j =>
    obtain ⟨⟨r, hr⟩, heq⟩ := h
    exact ⟨⟨r, hold j _ hr⟩, heq⟩
  | answering j reply =>
    obtain ⟨⟨o, ho, hreply⟩, heq⟩ := h
    exact ⟨⟨o, hold j _ ho, hreply⟩, heq⟩
  | idle | stopping | stopped => exact h

theorem Working.finished_prefix {stages : List (Stage α)} {started finished : List Nat}
    {loop : Loop} (h : Working stages started finished loop) : finished <+: started := by
  cases loop with
  | running j => exact ⟨[j], h.2.symm⟩
  | replying j => exact h.2 ▸ List.prefix_refl _
  | answering j reply => exact h.2 ▸ List.prefix_refl _
  | idle => exact (show started = finished from h) ▸ List.prefix_refl _
  | stopping => exact (show started = finished from h) ▸ List.prefix_refl _
  | stopped => exact (show started = finished from h) ▸ List.prefix_refl _

theorem Held.mono {loop loop' : Loop} {items items' : List WriterMsg} {k : Nat} {stage : Stage α}
    (h : Held loop items k stage)
    (hqueued : .job k ∈ items ∨ loop = .stopped → .job k ∈ items' ∨ loop' = .stopped)
    (hhand : loop.job? = some k → loop'.job? = some k) : Held loop' items' k stage := by
  cases stage with
  | queued => exact hqueued h
  | running => exact hhand h
  | replying r => exact hhand h
  | answering o => exact hhand h
  | unsent => trivial
  | done o => trivial

theorem mem_jobsOf {items : List WriterMsg} {k : Nat} : k ∈ jobsOf items ↔ .job k ∈ items := by
  unfold jobsOf
  rw [List.mem_filterMap]
  constructor
  · rintro ⟨m, hm, hk⟩
    cases m with
    | job j => exact Option.some.inj hk ▸ hm
    | shutdown => cases hk
  · exact fun h => ⟨.job k, h, rfl⟩

theorem jobsOf_append (items items' : List WriterMsg) :
    jobsOf (items ++ items') = jobsOf items ++ jobsOf items' := List.filterMap_append

namespace Valid

theorem spawn (jobs : Nat → σ → Outcome α × σ) (config : WriterConfig) (conn : σ) :
    Valid jobs conn (Writer.spawn α config conn) where
  fits k c hc := (by cases hc)
  known k c hc := (by cases hc)
  queued k c hc := (by cases hc)
  held k c hc := (by cases hc)
  outcome k c hc := (by cases hc)
  bound k hk := (by cases hk)
  nodup := List.nodup_nil
  order := Or.inr rfl
  begun := List.prefix_refl _
  working := rfl
  serial := rfl
  receiver := ⟨fun _ h => (by cases h), fun _ => rfl⟩

theorem started_nodup (h : Valid jobs conn₀ s) : s.started.Nodup :=
  h.nodup.sublist h.begun.sublist

theorem accepted_of_queued (h : Valid jobs conn₀ s) {k : Nat} (hk : .job k ∈ s.queue.items) :
    k ∈ s.accepted := by
  rcases h.order with ⟨_, hitems⟩ | horder
  · rw [hitems] at hk
    cases hk
  · rw [horder]
    exact List.mem_append_right _ (mem_jobsOf.mpr hk)

private theorem accepted_of_finished (h : Valid jobs conn₀ s) {k : Nat} (hk : k ∈ s.finished) :
    k ∈ s.accepted :=
  h.begun.subset (h.working.finished_prefix.subset hk)

private theorem outcome_unsent (h : Valid jobs conn₀ s) {k : Nat} (hk : k ∉ s.accepted) :
    outcomeOf jobs conn₀ s.finished k = none := by
  rw [outcomeOf, if_neg]
  exact fun hf => hk (h.accepted_of_finished hf)

/-- A caller moves, and the writer is where it was with its job. -/
theorem setCaller (h : Valid jobs conn₀ s) {k : Nat} {c c' : Caller α}
    (hc : s.callers[k]? = some c) (hstage : c'.stage = c.stage)
    (hfits : c'.Fits s.config s.loop.halted) : Valid jobs conn₀ (s.setCaller k c') where
  fits := forall_set (fun j d hd _ => h.fits j d hd) hfits
  known := forall_set (fun j d hd _ => h.known j d hd) (hstage ▸ h.known k c hc)
  queued := forall_set (fun j d hd _ => h.queued j d hd) (hstage ▸ h.queued k c hc)
  held := forall_set (fun j d hd _ => h.held j d hd) (hstage ▸ h.held k c hc)
  outcome := forall_set (fun j d hd _ => h.outcome j d hd) (hstage ▸ h.outcome k c hc)
  bound j hj := by
    show j < (s.callers.set k c').length
    rw [List.length_set]
    exact h.bound j hj
  nodup := h.nodup
  order := h.order
  begun := h.begun
  working := by
    show Working (s.setCaller k c').stages _ _ _
    rw [stages_setCaller hc hstage]
    exact h.working
  serial := h.serial
  receiver := h.receiver

/-- A job gets its place in the queue. -/
theorem accept (h : Valid jobs conn₀ s) {k : Nat} {c : Caller α} (hc : s.callers[k]? = some c)
    (hphase : c.phase = .sending) {queue : Channel WriterMsg}
    (hreceiver : s.queue.receiver = true)
    (hqueue : queue = { s.queue with items := s.queue.items ++ [.job k] }) :
    Valid jobs conn₀ { s.setCaller k { c with phase := .waiting, stage := .queued } with
      queue, accepted := s.accepted ++ [k] } := by
  have hfits := h.fits k c hc
  rw [Caller.Fits, hphase] at hfits
  obtain ⟨hstage, hreply, hresult⟩ := hfits
  have hnew : k ∉ s.accepted := fun hk => (h.known k c hc).mp hk hstage
  have hopen : s.loop ≠ .stopped := h.receiver.mp hreceiver
  have horder : s.accepted = s.started ++ jobsOf s.queue.items :=
    h.order.resolve_left fun hs => hopen hs.1
  subst hqueue
  constructor
  · exact forall_set (fun j d hd _ => h.fits j d hd)
      ⟨fun h => (by cases h), hreply, Nat.zero_le _, hresult⟩
  · refine forall_set (fun j d hd hjk => ?_) ?_
    · rw [← h.known j d hd]
      simp [hjk]
    · exact ⟨fun _ h => (by cases h), fun _ => List.mem_append_right _ List.mem_cons_self⟩
  · refine forall_set (fun j d hd hjk hj => ?_) (fun _ => rfl)
    refine h.queued j d hd ((List.mem_append.mp hj).resolve_right fun hlast => hjk ?_)
    exact WriterMsg.job.inj (List.mem_singleton.mp hlast)
  · refine forall_set (fun j d hd _ => (h.held j d hd).mono (fun hj => ?_) fun hj => hj)
      (Or.inl (List.mem_append_right _ List.mem_cons_self))
    rcases hj with hj | hj
    · exact Or.inl (List.mem_append_left _ hj)
    · exact Or.inr hj
  · exact forall_set (fun j d hd _ => h.outcome j d hd) (h.outcome_unsent hnew).symm
  · intro j hj
    show j < (s.callers.set k _).length
    rw [List.length_set]
    rcases List.mem_append.mp hj with hj | hj
    · exact h.bound j hj
    · rw [List.mem_singleton.mp hj]
      exact (List.getElem?_eq_some_iff.mp hc).1
  · exact List.nodup_append.mpr ⟨h.nodup, List.nodup_singleton k, fun a ha b hb =>
      List.mem_singleton.mp hb ▸ ne_of_mem_of_not_mem ha hnew⟩
  · right
    show s.accepted ++ [k] = s.started ++ jobsOf (s.queue.items ++ [.job k])
    rw [jobsOf_append, horder, List.append_assoc]
    rfl
  · exact h.begun.trans (List.prefix_append _ _)
  · have hset := h.working.set (k := k) (by rw [stages_getElem hc, hstage]) .queued
    have hstages : (s.callers.set k { c with phase := .waiting, stage := .queued }).map
        Caller.stage = s.stages.set k .queued := by
      rw [List.map_set]
      rfl
    show Working ((s.callers.set k _).map Caller.stage) s.started s.finished s.loop
    rw [hstages]
    exact hset
  · exact h.serial
  · exact ⟨fun _ => hopen, fun _ => hreceiver⟩

/-- The next call of `write`. -/
theorem call (h : Valid jobs conn₀ s) :
    Valid jobs conn₀ { s with callers := s.callers ++ [Caller.new] } := by
  have hnew : s.callers.length ∉ s.accepted := fun hk => Nat.lt_irrefl _ (h.bound _ hk)
  have hsplit : ∀ (k : Nat) (c : Caller α), (s.callers ++ [Caller.new])[k]? = some c →
      s.callers[k]? = some c ∨ (k = s.callers.length ∧ c = Caller.new) := by
    intro k c hk
    rw [List.getElem?_append] at hk
    by_cases hlt : k < s.callers.length
    · rw [if_pos hlt] at hk
      exact Or.inl hk
    · rw [if_neg hlt] at hk
      have hzero : k - s.callers.length = 0 := by
        have hlt' := (List.getElem?_eq_some_iff.mp hk).1
        rw [List.length_singleton] at hlt'
        omega
      rw [hzero] at hk
      exact Or.inr ⟨by omega, (Option.some.inj hk).symm⟩
  constructor
  · intro k c hk
    rcases hsplit k c hk with hk | ⟨rfl, rfl⟩
    · exact h.fits k c hk
    · exact ⟨rfl, rfl, rfl⟩
  · intro k c hk
    rcases hsplit k c hk with hk | ⟨rfl, rfl⟩
    · exact h.known k c hk
    · exact ⟨fun hk => absurd hk hnew, fun hk => absurd rfl hk⟩
  · intro k c hk hjob
    rcases hsplit k c hk with hk | ⟨rfl, rfl⟩
    · exact h.queued k c hk hjob
    · exact absurd (h.accepted_of_queued hjob) hnew
  · intro k c hk
    rcases hsplit k c hk with hk | ⟨rfl, rfl⟩
    · exact h.held k c hk
    · trivial
  · intro k c hk
    rcases hsplit k c hk with hk | ⟨rfl, rfl⟩
    · exact h.outcome k c hk
    · exact (h.outcome_unsent hnew).symm
  · intro k hk
    show k < (s.callers ++ [Caller.new]).length
    rw [List.length_append]
    exact Nat.lt_add_right _ (h.bound k hk)
  · exact h.nodup
  · exact h.order
  · exact h.begun
  · have hstages : (s.callers ++ [Caller.new]).map Caller.stage = s.stages ++ [.unsent] := by
      rw [List.map_append]
      rfl
    show Working ((s.callers ++ [Caller.new]).map Caller.stage) s.started s.finished s.loop
    rw [hstages]
    exact h.working.call
  · exact h.serial
  · exact h.receiver

/-- The writer gives caller `k` its next stage, with what is sent on the way. -/
theorem advance (h : Valid jobs conn₀ s) {k : Nat} {c : Caller α} (hc : s.callers[k]? = some c)
    {reply : Channel (Except Error Unit)} {result : Channel (Except Error α)} {stage : Stage α}
    {rs : List (Except Error Unit)} {ts : List (Except Error α)}
    (hreply : c.reply.Gets rs reply) (hresult : c.result.Gets ts result)
    (hsent : c.stage ≠ .unsent) (hstage : stage ≠ .unsent)
    (hreplies : stage.replies = c.stage.replies ++ rs)
    (hresults : stage.results = c.stage.results ++ ts)
    (houtcome : c.stage.outcome? = none ∨ stage.outcome? = c.stage.outcome?)
    {conn : σ} {healthy : Bool} {items : List WriterMsg} {loop : Loop} {started finished : List Nat}
    (hloop : s.loop.halted = false) (hhalted : loop.halted = false)
    (hjob : s.loop.job? = none ∨ s.loop.job? = some k)
    (hitems : ∀ j, .job j ∈ items → .job j ∈ s.queue.items) (hk : .job k ∉ items)
    (hrest : ∀ j, j ≠ k → .job j ∈ s.queue.items → .job j ∈ items)
    (hheld : Held loop items k stage)
    (hown : stage.outcome? = outcomeOf jobs conn₀ finished k)
    (hothers : ∀ j, j ≠ k → outcomeOf jobs conn₀ finished j = outcomeOf jobs conn₀ s.finished j)
    (horder : s.accepted = started ++ jobsOf items)
    (hworking : Working (s.stages.set k stage) started finished loop)
    (hserial : conn = replay jobs finished conn₀) :
    Valid jobs conn₀ { s.setCaller k { c with reply, result, stage } with
      conn, healthy, queue := { s.queue with items }, loop, started, finished } where
  fits := forall_set
    (fun j d hd _ => (h.fits j d hd).halt fun hh => absurd (hloop.symm.trans hh) (by decide))
    ((h.fits k c hc).move hreply hresult hsent hstage hreplies hresults houtcome
      fun hh => absurd (hloop.symm.trans hh) (by decide))
  known := forall_set (fun j d hd _ => h.known j d hd)
    ⟨fun _ => hstage, fun _ => (h.known k c hc).mpr hsent⟩
  queued := forall_set (fun j d hd _ hj => h.queued j d hd (hitems j hj)) fun hj => absurd hj hk
  held := forall_set (fun j d hd hjk => by
    refine (h.held j d hd).mono (fun hj => ?_) fun hj => ?_
    · rcases hj with hj | hj
      · exact Or.inl (hrest j hjk hj)
      · rw [hj] at hloop
        cases hloop
    · rcases hjob with hjob | hjob
      · rw [hjob] at hj
        cases hj
      · rw [hjob] at hj
        exact absurd (Option.some.inj hj).symm hjk) hheld
  outcome := forall_set (fun j d hd hjk => (h.outcome j d hd).trans (hothers j hjk).symm) hown
  bound j hj := by
    show j < (s.callers.set k _).length
    rw [List.length_set]
    exact h.bound j hj
  nodup := h.nodup
  order := Or.inr horder
  begun := ⟨_, horder.symm⟩
  working := by
    show Working ((s.callers.set k _).map Caller.stage) started finished loop
    rw [List.map_set]
    exact hworking
  serial := hserial
  receiver := by
    have hopen : ∀ l : Loop, l.halted = false → l ≠ .stopped := by
      rintro l hl rfl
      cases hl
    exact ⟨fun _ => hopen loop hhalted, fun _ => h.receiver.mpr (hopen s.loop hloop)⟩

end Valid

theorem stages_set {k : Nat} {c : Caller α} (hc : s.callers[k]? = some c) (stage : Stage α) :
    (s.stages.set k stage)[k]? = some stage := by
  have hlt : k < s.stages.length := by
    rw [Actor.stages, List.length_map]
    exact (List.getElem?_eq_some_iff.mp hc).1
  rw [List.getElem?_set, if_pos rfl, if_pos hlt]

end AgosMemory.Writer
