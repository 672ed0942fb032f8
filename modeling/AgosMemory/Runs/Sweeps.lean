import AgosMemory.Runs.Sessions

/-!
# Idle sweeps

A sweep ends the sessions whose last activity is before its cutoff, then reads back the sessions that
ended as idle at its own instant. The cutoff is computed in 64 bits from a setting that has no upper
bound, and the instant of a sweep need not be its own.
-/

namespace AgosMemory.Sessions

open Library Store
open Library.Program (bind_of_ok bind_ok run_of_outcome)

variable {F : Type} [F64 F]

/-- The check of `Config::validate` on `session.idle_minutes`, which is a `u64`. -/
def validateIdleMinutes (idleMinutes : Nat) : Except Error Unit :=
  if idleMinutes = 0 then .error (.config "session.idle_minutes must be > 0") else .ok ()

/-! ## One sweep -/

/-- The session is open and its last activity is more than `idleMinutes` before the instant. -/
def idleFor (db : Db F) (instant : Int) (idleMinutes : Nat) (s : Session) : Bool :=
  s.isOpen ∧ (idleMinutes : Int) * 60000 < instant - lastActivity db s

/-- The session has ended as idle at the instant. -/
def endedIdle (instant : Int) (s : Session) : Bool :=
  !s.isOpen ∧ s.endReason = some "idle" ∧ s.endedAt = some instant

/-- What a sweep should do: compute its cutoff without overflow, close the idle sessions at the first
of its two clock readings, and return their ids. -/
structure SweepExact (env : Env F) (idleMinutes : Nat) (c c' : Conn F) (ids : List Int) : Prop where
  cast : wrapI64 idleMinutes = idleMinutes
  product : wrapI64 (wrapI64 idleMinutes * 60000) = wrapI64 idleMinutes * 60000
  difference : wrapI64 (env.clock c.ticks - wrapI64 (wrapI64 idleMinutes * 60000)) =
    env.clock c.ticks - wrapI64 (wrapI64 idleMinutes * 60000)
  closed : c'.db = endWhere (idleFor c.db (env.clock c.ticks) idleMinutes) (env.clock (c.ticks + 1))
    "idle" c.db
  returned : ids = (c.db.sessions.filter
    (idleFor c.db (env.clock c.ticks) idleMinutes)).map Session.id

/-- The setting is no longer than 64 bits of milliseconds, the cutoff is in range, and no session has
ended as idle at the instant of the sweep. -/
structure SweepFits (env : Env F) (idleMinutes : Nat) (c : Conn F) : Prop where
  duration : (idleMinutes : Int) * 60000 < 9223372036854775808
  cutoff : InI64 (env.clock c.ticks - (idleMinutes : Int) * 60000)
  unused : ∀ s ∈ c.db.sessions, endedIdle (env.clock (c.ticks + 1)) s = false

omit [F64 F] in
private theorem closeIdleSessions_ok {env : Env F} {idleMinutes : Nat} {c c' : Conn F}
    {ids : List Int}
    (h : closeIdleSessions env idleMinutes c = (.ok ids, c')) :
    c'.db = endWhere (fun s => s.isOpen ∧ lastActivity c.db s <
        wrapI64 (env.clock c.ticks - wrapI64 (wrapI64 idleMinutes * 60000)))
        (env.clock (c.ticks + 1)) "idle" c.db ∧
      ids = (c'.db.sessions.filter (endedIdle (env.clock (c.ticks + 1)))).map Session.id := by
  unfold closeIdleSessions at h
  rw [bind_of_ok _ (nowMillis_run env c), bind_of_ok _ (nowMillis_run env _)] at h
  obtain ⟨_, c₃, hrun, h⟩ := bind_ok h
  have hended := (Prod.mk.inj (Except.ok.inj (exec_ok hrun))).2
  obtain ⟨hids, hdb⟩ := query_ok h
  refine ⟨hdb.trans hended.symm, ?_⟩
  rw [hdb]
  exact (Except.ok.inj hids).symm

omit [F64 F] in
/-- What a sweep returns: the sessions it closes, and those that had ended as idle at its instant. -/
private theorem ended_of_endWhere (db : Db F) (which : Session → Bool) (now : Int) :
    ((endWhere which now "idle" db).sessions.filter (endedIdle now)).map Session.id =
      (db.sessions.filter fun s => which s || endedIdle now s).map Session.id := by
  unfold endWhere
  rw [List.filter_map, List.map_map]
  have hid : Session.id ∘ (fun s => if which s then endSession now "idle" s else s) = Session.id := by
    funext s
    rw [Function.comp_apply]
    split <;> rfl
  have hended : endedIdle now ∘ (fun s => if which s then endSession now "idle" s else s) =
      fun s => which s || endedIdle now s := by
    funext s
    rw [Function.comp_apply]
    cases which s <;> simp [endedIdle, endSession]
  rw [hid, hended]

/-- A filter of distinct conditions finds only what the first one does when nothing else is there. -/
private theorem filter_or_eq_iff {α β : Type} {l : List α} {p q : α → Bool} {f : α → β}
    (hapart : ∀ a, q a = true → p a = false) :
    (l.filter fun a => p a || q a).map f = (l.filter p).map f ↔ ∀ a ∈ l, q a = false := by
  constructor
  · intro h a ha
    by_contra hq
    have hq : q a = true := by simpa using hq
    have hsub : (l.filter p).Sublist (l.filter fun a => p a || q a) :=
      List.monotone_filter_right l fun b hb => by simp [hb]
    have hlength := congrArg List.length h
    rw [List.length_map, List.length_map] at hlength
    have hsame := hsub.eq_of_length hlength.symm
    have hmem : a ∈ l.filter fun a => p a || q a := List.mem_filter.mpr ⟨ha, by simp [hq]⟩
    rw [← hsame] at hmem
    have hp := (List.mem_filter.mp hmem).2
    rw [hapart a hq] at hp
    cases hp
  · intro h
    congr 1
    refine List.filter_congr fun a ha => ?_
    rw [h a ha, Bool.or_false]

omit [F64 F] in
/-- A sweep that returns is exact when, and only when, its setting fits and its instant is its own. -/
private theorem sweep_exact_iff {env : Env F} {idleMinutes : Nat} {c c' : Conn F} {ids : List Int}
    (h : closeIdleSessions env idleMinutes c = (.ok ids, c')) :
    SweepExact env idleMinutes c c' ids ↔ SweepFits env idleMinutes c := by
  obtain ⟨hdb, hids⟩ := closeIdleSessions_ok h
  have hopen : ∀ s, idleFor c.db (env.clock c.ticks) idleMinutes s = true → s.isOpen = true :=
    fun s hs => (of_decide_eq_true hs).1
  have hapart : ∀ s, endedIdle (env.clock (c.ticks + 1)) s = true →
      idleFor c.db (env.clock c.ticks) idleMinutes s = false := by
    intro s hs
    by_contra hidle
    have hclosed := (of_decide_eq_true hs).1
    rw [hopen s (by simpa using hidle)] at hclosed
    cases hclosed
  constructor
  · intro hexact
    have hproduct := hexact.product
    have hdifference := hexact.difference
    rw [hproduct, hexact.cast, wrapI64_eq_iff] at hdifference
    rw [hexact.cast, wrapI64_eq_iff] at hproduct
    refine ⟨hproduct.2, hdifference, ?_⟩
    have hreturned := hexact.returned
    rw [hids, hexact.closed, ended_of_endWhere] at hreturned
    exact (filter_or_eq_iff hapart).mp hreturned
  · intro hfits
    have hduration := hfits.duration
    have hcast : wrapI64 idleMinutes = idleMinutes := wrapI64_eq_iff.mpr ⟨by omega, by omega⟩
    have hproduct : wrapI64 ((idleMinutes : Int) * 60000) = (idleMinutes : Int) * 60000 :=
      wrapI64_eq_iff.mpr ⟨by omega, hduration⟩
    have hdifference := wrapI64_eq_iff.mpr hfits.cutoff
    rw [hcast, hproduct, hdifference] at hdb
    have hwhich : (fun s : Session => decide (s.isOpen = true ∧ lastActivity c.db s <
        env.clock c.ticks - (idleMinutes : Int) * 60000)) =
        idleFor c.db (env.clock c.ticks) idleMinutes := by
      funext s
      unfold idleFor
      rw [decide_eq_decide]
      constructor <;> exact fun ⟨ho, hlast⟩ => ⟨ho, by omega⟩
    rw [hwhich] at hdb
    refine ⟨hcast, by rw [hcast, hproduct], by rw [hcast, hproduct, hdifference], hdb, ?_⟩
    rw [hids, hdb, ended_of_endWhere]
    exact (filter_or_eq_iff hapart).mpr hfits.unused

/-! ## Runs -/

/-- Every sweep of a sequence of calls that returns has a property. -/
def EverySweep (env : Env F) (P : Nat → Conn F → Conn F → List Int → Prop) :
    List Call → Conn F → Prop
  | [], _ => True
  | .closeIdleSessions idleMinutes :: calls, c =>
    (∀ ids c', closeIdleSessions env idleMinutes c = (.ok ids, c') → P idleMinutes c c' ids) ∧
      EverySweep env P calls (program env (.closeIdleSessions idleMinutes) c).2
  | call :: calls, c => EverySweep env P calls (program env call c).2

omit [F64 F] in
private theorem everySweep_congr {env : Env F} {P Q : Nat → Conn F → Conn F → List Int → Prop}
    (h : ∀ idleMinutes c c' ids, closeIdleSessions env idleMinutes c = (.ok ids, c') →
      (P idleMinutes c c' ids ↔ Q idleMinutes c c' ids)) {calls : List Call} {c : Conn F} :
    EverySweep env P calls c ↔ EverySweep env Q calls c := by
  induction calls generalizing c with
  | nil => exact Iff.rfl
  | cons call calls ih =>
    cases call with
    | closeIdleSessions idleMinutes =>
      refine and_congr ⟨fun hall ids c' hrun => ?_, fun hall ids c' hrun => ?_⟩ ih
      · exact (h _ _ _ _ hrun).mp (hall ids c' hrun)
      · exact (h _ _ _ _ hrun).mpr (hall ids c' hrun)
    | openSession _ => exact ih
    | appendTurn _ _ _ => exact ih
    | closeSession _ _ => exact ih

omit [F64 F] in
/-- In every sequence of calls, from every store and at every clock, the sweeps are exact if and only
if each of them has a setting that fits and an instant of its own. -/
theorem sweeps_exact_iff (env : Env F) (calls : List Call) (c : Conn F) :
    EverySweep env (SweepExact env) calls c ↔
      EverySweep env (fun idleMinutes c _ _ => SweepFits env idleMinutes c) calls c :=
  everySweep_congr fun _ _ _ _ hrun => sweep_exact_iff hrun

/-- A clock that stands still after its first reading. -/
def stillEnv (now : Int) : Env ℚ := { sampleEnv with clock := fun n => if n = 0 then 0 else now }

/-- The second of two sweeps in one millisecond returns the session that the first one closed, and
a sweep with the largest setting closes a session that has just been opened. -/
theorem sweeps_not_exact :
    validateIdleMinutes 1 = .ok () ∧ validateIdleMinutes 18446744073709551615 = .ok () ∧
      ¬ EverySweep (stillEnv 6000000) (SweepExact (stillEnv 6000000))
        [.openSession "a", .closeIdleSessions 1, .closeIdleSessions 1] (emptyStore ℚ "a" 1) ∧
      ¬ EverySweep (stillEnv 1) (SweepExact (stillEnv 1))
        [.openSession "a", .closeIdleSessions 18446744073709551615] (emptyStore ℚ "a" 1) := by
  refine ⟨rfl, rfl, fun h => ?_, fun h => ?_⟩
  · have hsecond := h.2.1 [1] _ (run_of_outcome (by decide +kernel))
    exact absurd hsecond.returned (by decide +kernel)
  · have hfirst := h.1 [1] _ (run_of_outcome (by decide +kernel))
    exact absurd hfirst.returned (by decide +kernel)

end AgosMemory.Sessions
