import AgosMemory.Jobs.Durable

/-!
# The maintenance scheduler

The loop reads the clock, enqueues what is due in that minute under one fixed key for each action,
and sleeps for a minute. Between two readings anything may happen to the queue. Since a key is
enqueued once, an action that has run is never enqueued again.
-/

namespace AgosMemory.Jobs

/-! ## The loop -/

inductive Action where
  | ttl | consolidate
  deriving DecidableEq, Repr

def Action.name : Action → String
  | ttl => "ttl" | consolidate => "consolidate"

def Action.payload (a : Action) : String := "\x7b\"action\":\"" ++ a.name ++ "\"\x7d"

/-- `scheduler:ttl`, `scheduler:consolidate` -/
def Action.key (a : Action) : String := "scheduler:" ++ a.name

/-- The settings that the scheduler reads. -/
structure SchedulerConfig where
  reaperHour : Nat
  consolidateEnabled : Bool
  consolidateDay : Nat
  consolidateHour : Nat
  deriving DecidableEq, Repr

/-- `as u32` -/
def u32 (n : Nat) : Nat := n % 2 ^ 32

/-- Day of week of the Unix epoch, in the `0 = Sunday` convention: Thursday. -/
def EPOCH_WEEKDAY : Nat := 4

/-- What the scheduler enqueues at one tick; `u32::MAX` disables the reaper. -/
def schedulerTick (nowMinutes : Nat) (cfg : SchedulerConfig) : List Action :=
  let hour := u32 (nowMinutes / 60) % 24
  let minute := u32 (nowMinutes % 60)
  let day := u32 (EPOCH_WEEKDAY + u32 (nowMinutes / (24 * 60))) % 7
  (if cfg.reaperHour ≠ 2 ^ 32 - 1 ∧ hour = cfg.reaperHour ∧ minute = 0 then [.ttl] else []) ++
    (if cfg.consolidateEnabled ∧ day = cfg.consolidateDay ∧ hour = cfg.consolidateHour ∧ minute = 0
      then [.consolidate] else [])

/-- One reading of the clock, in milliseconds, the enqueues after it that write nothing (they never
reach the writer, or a statement fails), and what happens to the queue until the next reading. -/
structure Tick (W : Type) where
  now : Nat
  failing : Action → Bool := fun _ => false
  events : List (Event W) := []

/-- `now / 60_000` -/
def Tick.minute {W : Type} (t : Tick W) : Nat := t.now / 60000

/-- A job that the scheduler inserted. -/
structure Entry where
  action : Action
  minute : Nat
  jobId : Int
  deriving DecidableEq, Repr

variable {W : Type} [DecidableEq W]

/-- The enqueue of one action. A failure is printed, and the loop goes on. -/
def enqueueAction (sha256Hex : String → String) (t : Tick W) (a : Action) (s : System W) :
    System W :=
  if t.failing a then s
  else (Event.enqueue "maintain" a.payload (some a.key) t.now).step sha256Hex s

/-- The job that it inserted. -/
def entriesBetween (t : Tick W) (a : Action) (s s' : System W) : List Entry :=
  if s'.queue.seq = s.queue.seq then [] else [⟨a, t.minute, s'.queue.seq⟩]

/-- The enqueues of one tick, and the jobs that they inserted. -/
def enqueueActions (sha256Hex : String → String) (t : Tick W) :
    List Action → System W → System W × List Entry
  | [], s => (s, [])
  | a :: as, s =>
    let s' := enqueueAction sha256Hex t a s
    let rest := enqueueActions sha256Hex t as s'
    (rest.1, entriesBetween t a s s' ++ rest.2)

def runScheduler (sha256Hex : String → String) (cfg : SchedulerConfig) :
    List (Tick W) → System W → System W × List Entry
  | [], s => (s, [])
  | t :: ts, s =>
    let ticked := enqueueActions sha256Hex t (schedulerTick t.minute cfg) s
    let slept := run sha256Hex t.events ticked.1
    ((runScheduler sha256Hex cfg ts slept).1, ticked.2 ++ (runScheduler sha256Hex cfg ts slept).2)

/-! ## Slots -/

/-- Minute `b` begins a slot of the action. -/
def Due (cfg : SchedulerConfig) (a : Action) (b : Nat) : Prop := a ∈ schedulerTick b cfg

instance (cfg : SchedulerConfig) (a : Action) (b : Nat) : Decidable (Due cfg a b) :=
  inferInstanceAs (Decidable (a ∈ schedulerTick b cfg))

/-- The slot begins between two readings of the run. -/
def InRun (ticks : List (Tick W)) (b : Nat) : Prop :=
  (∃ t ∈ ticks, t.minute ≤ b) ∧ ∃ t ∈ ticks, b ≤ t.minute

/-- The job was enqueued, and so became claimable, after slot `b` of the action began and before a
later one did. -/
def Entry.forSlot (cfg : SchedulerConfig) (a : Action) (b : Nat) (e : Entry) : Bool :=
  decide (e.action = a) && decide (b ≤ e.minute) &&
    (List.range (e.minute + 1)).all fun c => decide (b < c → ¬ Due cfg a c)

/-- Exactly one job is enqueued for the slot. -/
def Served (cfg : SchedulerConfig) (a : Action) (b : Nat) (log : List Entry) : Prop :=
  log.countP (Entry.forSlot cfg a b) = 1

/-! ## One enqueue -/

variable {sha256Hex : String → String} {s : System W} {cfg : SchedulerConfig} {a : Action}
  {t : Tick W}

def HasKey (q : Queue) (a : Action) : Prop := ∃ j ∈ q.jobs, j.idempotencyKey = a.key

private theorem key_injective : Function.Injective Action.key := by
  intro a b
  cases a <;> cases b <;> decide

private theorem ofSql?_maintain : JobKind.ofSql? "maintain" = some .maintain := by decide

theorem enqueue_known {now : Int} {q : Queue} (h : HasKey q a) :
    (enqueue sha256Hex "maintain" a.payload (some a.key) now q).2 = q := by
  obtain ⟨j, hj, hkey⟩ := h
  unfold enqueue keyOf
  rw [ofSql?_maintain, Option.getD_some]
  cases hfound : q.byKey? a.key with
  | none => exact absurd hkey (byKey?_none hfound j hj)
  | some i => rfl

private theorem enqueue_new {now : Int} {q : Queue} (h : ¬ HasKey q a) :
    (enqueue sha256Hex "maintain" a.payload (some a.key) now q).2 = { q with
      seq := q.seq + 1, jobs := q.jobs ++ [freshJob (q.seq + 1) .maintain a.payload a.key now] } := by
  unfold enqueue keyOf
  rw [ofSql?_maintain, Option.getD_some]
  cases hfound : q.byKey? a.key with
  | none => rfl
  | some i =>
    obtain ⟨hi, hkey⟩ := byKey?_some hfound
    exact absurd ⟨i, hi, hkey⟩ h

/-- After its enqueue an action has a job, and the other actions have what they had. -/
private theorem hasKey_enqueue {now : Int} {q : Queue} {a' : Action} :
    HasKey (enqueue sha256Hex "maintain" a.payload (some a.key) now q).2 a' ↔
      HasKey q a' ∨ a' = a := by
  by_cases h : HasKey q a
  · rw [enqueue_known h]
    exact ⟨.inl, fun h' => h'.elim id fun heq => heq ▸ h⟩
  · rw [enqueue_new h]
    constructor
    · intro ⟨j, hj, hkey⟩
      rcases List.mem_append.mp hj with hj | hj
      · exact .inl ⟨j, hj, hkey⟩
      · rw [List.mem_singleton.mp hj] at hkey
        exact .inr (key_injective hkey).symm
    · rintro (⟨j, hj, hkey⟩ | rfl)
      · exact ⟨j, List.mem_append_left _ hj, hkey⟩
      · exact ⟨_, List.mem_append_right _ (List.mem_singleton_self _), rfl⟩

private theorem enqueueAction_valid (h : s.Valid) : (enqueueAction sha256Hex t a s).Valid := by
  unfold enqueueAction
  split
  · exact h
  · exact step_valid _ h

private theorem hasKey_enqueueAction {a' : Action} : HasKey (enqueueAction sha256Hex t a s).queue a' ↔
    HasKey s.queue a' ∨ a' = a ∧ t.failing a = false := by
  unfold enqueueAction
  cases hfails : t.failing a with
  | true =>
    rw [if_pos rfl]
    exact ⟨.inl, fun h => h.resolve_right fun h => Bool.noConfusion h.2⟩
  | false =>
    rw [if_neg Bool.false_ne_true, and_iff_left rfl]
    exact hasKey_enqueue

/-- An enqueue inserts the job of the action if it has none and the enqueue does not fail, and otherwise
nothing. -/
private theorem enqueueAction_cases (t : Tick W) (a : Action) (s : System W) :
    (t.failing a = false ∧ ¬ HasKey s.queue a ∧
        ∃ id, entriesBetween t a s (enqueueAction sha256Hex t a s) = [⟨a, t.minute, id⟩]) ∨
      ((t.failing a = false → HasKey s.queue a) ∧ enqueueAction sha256Hex t a s = s) := by
  cases hfails : t.failing a with
  | true => exact .inr ⟨nofun, if_pos hfails⟩
  | false =>
    have hruns : enqueueAction sha256Hex t a s =
        (Event.enqueue "maintain" a.payload (some a.key) t.now).step sha256Hex s :=
      if_neg (by rw [hfails]; exact Bool.false_ne_true)
    have hqueue : (enqueueAction sha256Hex t a s).queue =
        (enqueue sha256Hex "maintain" a.payload (some a.key) t.now s.queue).2 := by rw [hruns]; rfl
    by_cases hknown : HasKey s.queue a
    · rw [enqueue_known hknown] at hqueue
      refine .inr ⟨fun _ => hknown, ?_⟩
      rw [hruns] at hqueue ⊢
      show { s with queue := _ } = s
      exact congrArg (fun queue => { s with queue := queue }) hqueue
    · rw [enqueue_new hknown] at hqueue
      refine .inl ⟨rfl, hknown, s.queue.seq + 1, ?_⟩
      unfold entriesBetween
      rw [hqueue, if_neg (by simp)]

/-! ## One tick -/

private theorem enqueueActions_valid {as : List Action} (h : s.Valid) :
    (enqueueActions sha256Hex t as s).1.Valid := by
  induction as generalizing s with
  | nil => exact h
  | cons a as ih => exact ih (enqueueAction_valid h)

private theorem hasKey_enqueueActions {as : List Action} :
    HasKey (enqueueActions sha256Hex t as s).1.queue a ↔
      HasKey s.queue a ∨ a ∈ as ∧ t.failing a = false := by
  induction as generalizing s with
  | nil => simp [enqueueActions]
  | cons a' as ih =>
    rw [enqueueActions, ih, hasKey_enqueueAction, List.mem_cons, or_assoc, or_and_right]
    refine or_congr_right (or_congr_left (and_congr_right fun heq => ?_))
    rw [heq]

/-- The jobs inserted for one action. -/
def entriesOf (a : Action) (log : List Entry) : List Entry := log.filter fun e => e.action = a

/-- A tick inserts one job for each action that is due, has none, and whose enqueue does not fail. -/
private theorem entriesOf_enqueueActions (a : Action) (s : System W) (t : Tick W) (as : List Action) :
    ((a ∈ as ∧ t.failing a = false) ∧ ¬ HasKey s.queue a ∧
        ∃ id, entriesOf a (enqueueActions sha256Hex t as s).2 = [⟨a, t.minute, id⟩]) ∨
      ((a ∈ as ∧ t.failing a = false → HasKey s.queue a) ∧
        entriesOf a (enqueueActions sha256Hex t as s).2 = []) := by
  induction as generalizing s with
  | nil => exact .inr ⟨fun h => absurd h.1 List.not_mem_nil, rfl⟩
  | cons a' as ih =>
    have hkey : HasKey (enqueueAction sha256Hex t a' s).queue a ↔
        HasKey s.queue a ∨ a = a' ∧ t.failing a' = false := hasKey_enqueueAction
    have hrest := ih (enqueueAction sha256Hex t a' s)
    simp only [enqueueActions, entriesOf, List.filter_append]
    rcases enqueueAction_cases t a' s with ⟨hruns, hno, id, hone⟩ | ⟨hknown, hsame⟩
    · by_cases haa : a = a'
      · -- the action's own enqueue: whatever follows finds its key
        subst haa
        rcases hrest with ⟨_, hno', _⟩ | ⟨_, hentries⟩
        · exact absurd (hkey.mpr (.inr ⟨rfl, hruns⟩)) hno'
        · refine .inl ⟨⟨List.mem_cons_self, hruns⟩, hno, id, ?_⟩
          unfold entriesOf at hentries
          rw [hone, hentries, List.append_nil]
          simp
      · have hother : List.filter (fun e : Entry => decide (e.action = a))
            [⟨a', t.minute, id⟩] = [] := by
          simp [Ne.symm haa]
        rw [hone, hother, List.nil_append]
        rcases hrest with ⟨⟨ha, hruns'⟩, hno', hentries⟩ | ⟨ha, hentries⟩
        · exact .inl ⟨⟨List.mem_cons_of_mem _ ha, hruns'⟩, fun h => hno' (hkey.mpr (.inl h)),
            hentries⟩
        · refine .inr ⟨fun ⟨hmem, hruns'⟩ => ?_, hentries⟩
          have hin := (List.mem_cons.mp hmem).resolve_left haa
          exact (hkey.mp (ha ⟨hin, hruns'⟩)).resolve_right fun h => haa h.1
    · -- nothing is inserted
      have hnone : entriesBetween t a' s s = [] := if_pos rfl
      rw [hsame] at hrest ⊢
      rw [hnone, List.filter_nil, List.nil_append]
      rcases hrest with ⟨⟨ha, hruns⟩, hno, hentries⟩ | ⟨ha, hentries⟩
      · exact .inl ⟨⟨List.mem_cons_of_mem _ ha, hruns⟩, hno, hentries⟩
      · refine .inr ⟨fun ⟨hmem, hruns⟩ => ?_, hentries⟩
        rcases List.mem_cons.mp hmem with rfl | hmem
        · exact hknown hruns
        · exact ha ⟨hmem, hruns⟩

/-! ## The run -/

private theorem hasKey_run (events : List (Event W)) (h : s.Valid) (hkey : HasKey s.queue a) :
    HasKey (run sha256Hex events s).queue a := by
  obtain ⟨j, hj, hjkey⟩ := hkey
  obtain ⟨j', hj', hcont⟩ := run_continues events h hj
  exact ⟨j', hj', hcont.key.trans hjkey⟩

/-- The state between two readings. -/
def afterTick (sha256Hex : String → String) (cfg : SchedulerConfig) (t : Tick W) (s : System W) :
    System W :=
  run sha256Hex t.events (enqueueActions sha256Hex t (schedulerTick t.minute cfg) s).1

private theorem afterTick_valid (t : Tick W) (h : s.Valid) : (afterTick sha256Hex cfg t s).Valid :=
  run_valid _ (enqueueActions_valid h)

private theorem hasKey_afterTick (t : Tick W) (h : s.Valid)
    (hkey : HasKey s.queue a ∨ Due cfg a t.minute ∧ t.failing a = false) :
    HasKey (afterTick sha256Hex cfg t s).queue a :=
  hasKey_run _ (enqueueActions_valid h) (hasKey_enqueueActions.mpr hkey)

private theorem runScheduler_append (pre post : List (Tick W)) (s : System W) :
    (runScheduler sha256Hex cfg (pre ++ post) s).1 =
      (runScheduler sha256Hex cfg post (runScheduler sha256Hex cfg pre s).1).1 := by
  induction pre generalizing s with
  | nil => rfl
  | cons t pre ih => exact ih _

private theorem runScheduler_valid (ticks : List (Tick W)) (h : s.Valid) :
    (runScheduler sha256Hex cfg ticks s).1.Valid := by
  induction ticks generalizing s with
  | nil => exact h
  | cons t ticks ih => exact ih (afterTick_valid t h)

private theorem hasKey_runScheduler (ticks : List (Tick W)) (h : s.Valid) (hkey : HasKey s.queue a) :
    HasKey (runScheduler sha256Hex cfg ticks s).1.queue a := by
  induction ticks generalizing s with
  | nil => exact hkey
  | cons t ticks ih => exact ih (afterTick_valid t h) (hasKey_afterTick t h (.inl hkey))

/-- Once a tick of a slot whose enqueue did not fail is past, the action has its job. -/
private theorem hasKey_past (pre mid : List (Tick W)) {t : Tick W} (h : s.Valid)
    (hdue : Due cfg a t.minute ∧ t.failing a = false) :
    HasKey (runScheduler sha256Hex cfg (pre ++ t :: mid) s).1.queue a := by
  rw [runScheduler_append]
  have hpre : (runScheduler sha256Hex cfg pre s).1.Valid := runScheduler_valid pre h
  exact hasKey_runScheduler mid (afterTick_valid t hpre) (hasKey_afterTick t hpre (.inr hdue))

/-- The slot finds the loop awake, no job under the action's key, and an enqueue that does not fail. -/
def Fires (sha256Hex : String → String) (cfg : SchedulerConfig) (a : Action)
    (ticks : List (Tick W)) (s : System W) (b : Nat) : Prop :=
  ∃ pre t post, ticks = pre ++ t :: post ∧ t.minute = b ∧ t.failing a = false ∧
    ¬ HasKey (runScheduler sha256Hex cfg pre s).1.queue a

private theorem entriesOf_append (a : Action) (log log' : List Entry) :
    entriesOf a (log ++ log') = entriesOf a log ++ entriesOf a log' := List.filter_append ..

/-- A run inserts at most one job for an action, at the first of its slots that fires. -/
private theorem entriesOf_runScheduler (ticks : List (Tick W)) (h : s.Valid) :
    (∃ b id, Due cfg a b ∧ Fires sha256Hex cfg a ticks s b ∧
        entriesOf a (runScheduler sha256Hex cfg ticks s).2 = [⟨a, b, id⟩]) ∨
      ((∀ b, Due cfg a b → ¬ Fires sha256Hex cfg a ticks s b) ∧
        entriesOf a (runScheduler sha256Hex cfg ticks s).2 = []) := by
  induction ticks generalizing s with
  | nil =>
    refine .inr ⟨fun b _ hfires => ?_, rfl⟩
    obtain ⟨pre, t, post, heq, _⟩ := hfires
    cases pre <;> cases heq
  | cons t ticks ih =>
    have hafter : (afterTick sha256Hex cfg t s).Valid := afterTick_valid t h
    have hrest := ih hafter
    simp only [runScheduler, entriesOf_append]
    -- what fires later has no job now
    have hlater : ∀ b, Fires sha256Hex cfg a ticks (afterTick sha256Hex cfg t s) b →
        Fires sha256Hex cfg a (t :: ticks) s b := fun b ⟨pre, t', post, heq, hb, hno⟩ =>
      ⟨t :: pre, t', post, by rw [heq, List.cons_append], hb, hno⟩
    rcases entriesOf_enqueueActions a s t
      (schedulerTick t.minute cfg) with ⟨hdue, hno, id, hentries⟩ | ⟨hdue, hentries⟩
    · refine .inl ⟨t.minute, id, hdue.1, ⟨[], t, ticks, rfl, rfl, hdue.2, hno⟩, ?_⟩
      have hkey : HasKey (afterTick sha256Hex cfg t s).queue a := hasKey_afterTick t h (.inr hdue)
      rcases hrest with ⟨b, _, _, ⟨pre, t', post, heq, _, _, hno'⟩, _⟩ | ⟨_, hnone⟩
      · exact absurd (hasKey_runScheduler pre hafter hkey) hno'
      · rw [hentries]
        exact congrArg (List.cons _) hnone
    · rw [hentries, List.nil_append]
      rcases hrest with ⟨b, id, hb, hfires, hone⟩ | ⟨hnofire, hnone⟩
      · exact .inl ⟨b, id, hb, hlater b hfires, hone⟩
      · refine .inr ⟨fun b hb hfires => ?_, hnone⟩
        obtain ⟨pre, t', post, heq, rfl, hruns, hno⟩ := hfires
        cases pre with
        | nil =>
          obtain ⟨rfl, _⟩ := List.cons.inj heq
          exact hno (hdue ⟨hb, hruns⟩)
        | cons t'' pre =>
          obtain ⟨rfl, hticks⟩ := List.cons.inj heq
          exact hnofire _ hb ⟨pre, t', post, hticks, rfl, hruns, hno⟩

/-- Two slots of one action do not both fire. -/
private theorem fires_once {ticks : List (Tick W)} (h : s.Valid) {b c : Nat} (hb : Due cfg a b)
    (hc : Due cfg a c) (hfb : Fires sha256Hex cfg a ticks s b)
    (hfc : Fires sha256Hex cfg a ticks s c) : b = c := by
  obtain ⟨pre, t, post, heq, rfl, hruns, hno⟩ := hfb
  obtain ⟨pre', t', post', heq', rfl, hruns', hno'⟩ := hfc
  rcases List.append_eq_append_iff.mp (heq.symm.trans heq') with ⟨mid, hpre, hpost⟩ |
    ⟨mid, hpre, hpost⟩
  · cases mid with
    | nil =>
      obtain ⟨rfl, _⟩ := List.cons.inj hpost
      rfl
    | cons t'' mid =>
      obtain ⟨rfl, _⟩ := List.cons.inj hpost
      rw [hpre] at hno'
      exact absurd (hasKey_past pre mid h ⟨hb, hruns⟩) hno'
  · cases mid with
    | nil =>
      obtain ⟨rfl, _⟩ := List.cons.inj hpost
      rfl
    | cons t'' mid =>
      obtain ⟨rfl, _⟩ := List.cons.inj hpost
      rw [hpre] at hno
      exact absurd (hasKey_past pre' mid h ⟨hc, hruns'⟩) hno

private theorem forSlot_iff {b m : Nat} {id : Int} (hm : Due cfg a m) :
    Entry.forSlot cfg a b ⟨a, m, id⟩ = true ↔ b = m := by
  simp only [Entry.forSlot, Bool.and_eq_true, decide_eq_true_eq, List.all_eq_true, List.mem_range,
    true_and]
  constructor
  · intro ⟨hle, hlast⟩
    have hnot := hlast m (by omega)
    by_contra hne
    exact hnot (by omega) hm
  · rintro rfl
    exact ⟨Nat.le_refl _, fun c hc hlt => by omega⟩

private theorem countP_forSlot (b : Nat) (log : List Entry) :
    log.countP (Entry.forSlot cfg a b) = (entriesOf a log).countP (Entry.forSlot cfg a b) := by
  rw [entriesOf, List.countP_filter]
  refine List.countP_congr fun e _ => ?_
  simp only [Entry.forSlot, Bool.and_eq_true, decide_eq_true_eq]
  tauto

/-- In every run of the scheduler, from any queue that the protocol reaches and with anything done
to the queue between its readings: a slot is served exactly when it fires, and so at most one slot
of each action is. -/
theorem slot_served_iff (sha256Hex : String → String) (cfg : SchedulerConfig)
    (before : List (Event W)) (ticks : List (Tick W)) (a : Action) :
    let s := run sha256Hex before ({} : System W)
    let log := (runScheduler sha256Hex cfg ticks s).2
    (∀ b, Due cfg a b → (Served cfg a b log ↔ Fires sha256Hex cfg a ticks s b)) ∧
      ∀ b c, Due cfg a b → Due cfg a c → Served cfg a b log → Served cfg a c log → b = c := by
  intro s log
  have hs : s.Valid := run_valid before .empty
  have hiff : ∀ b, Due cfg a b → (Served cfg a b log ↔ Fires sha256Hex cfg a ticks s b) := by
    intro b hb
    unfold Served
    rw [countP_forSlot]
    rcases @entriesOf_runScheduler W _ sha256Hex s cfg a ticks hs with
      ⟨m, id, hm, hfires, hone⟩ | ⟨hnofire, hnone⟩
    · rw [hone, List.countP_cons, List.countP_nil, Nat.zero_add]
      constructor
      · intro hcount
        have hslot : Entry.forSlot cfg a b ⟨a, m, id⟩ = true := by
          by_contra hnot
          rw [if_neg hnot] at hcount
          cases hcount
        exact (forSlot_iff hm).mp hslot ▸ hfires
      · intro hfb
        rw [if_pos ((forSlot_iff hm).mpr (fires_once hs hb hm hfb hfires))]
    · rw [hnone]
      exact iff_of_false (by rw [List.countP_nil]; decide) (hnofire b hb)
  exact ⟨hiff, fun b c hb hc hsb hsc => fires_once hs hb hc ((hiff b hb).mp hsb) ((hiff c hc).mp hsc)⟩

/-- A day and a minute of ticks from 03:00, one each minute; the first job is done at once. -/
def dayOfTicks : List (Tick Unit) :=
  (List.range 1441).map fun k =>
    { now := 10800000 + 60000 * k
      events := if k = 0 then [.claimNext () "worker-1" 10800001, .complete () 10800002] else [] }

/-- The reaper's second slot, a day later, enqueues nothing. -/
theorem second_slot_unserved :
    ¬ ∀ (cfg : SchedulerConfig) (ticks : List (Tick Unit)) (a : Action) (b : Nat), InRun ticks b →
      Due cfg a b → Served cfg a b (runScheduler id cfg ticks {}).2 := by
  intro h
  have hfirst : InRun dayOfTicks 1620 :=
    ⟨⟨_, List.mem_map_of_mem (List.mem_range.mpr (by decide : 0 < 1441)), by decide⟩,
      ⟨_, List.mem_map_of_mem (List.mem_range.mpr (by decide : 1440 < 1441)), by decide⟩⟩
  have hserved := h ⟨3, false, 0, 4⟩ dayOfTicks .ttl 1620 hfirst (by decide)
  have hcount : (runScheduler id ⟨3, false, 0, 4⟩ dayOfTicks {}).2.countP
      (Entry.forSlot ⟨3, false, 0, 4⟩ .ttl 1620) = 0 := by decide +kernel
  unfold Served at hserved
  rw [hcount] at hserved
  cases hserved

end AgosMemory.Jobs
