import AgosMemory.Runs.Clients

/-!
# The session log

Calls of the session interface are clients: each reads the clock, then its writer closure runs as one
transaction. Between the two any other call may run. The turns of a session are numbered from one
without a gap, and what a closed session holds does not change again.
-/

namespace AgosMemory.Sessions

open Library Store
open Library.Client hiding fail lift onlyIf forEach foldEach attempt
open Library.Program (bind_run bind_ok)

variable {F : Type} [F64 F]

/-! ## Calls -/

inductive Call where
  | openSession (agentId : String)
  | appendTurn (sessionId : Int) (role content : String)
  | closeSession (sessionId : Int) (reason : String)
  | closeIdleSessions (idleMinutes : Nat)
  deriving DecidableEq, Repr

inductive Reply where
  | opened (s : Session)
  | appended (t : Turn)
  | closed
  | swept (ids : List Int)
  deriving DecidableEq, Repr

/-- The writer closure of `openSession`. -/
def openJob (env : Env F) (agentId publicId : String) (now : Int) : Write F Session :=
  exec env fun db =>
    if db.sessions.any fun s => s.publicId = publicId then
      .error (.storage "UNIQUE constraint failed: sessions.public_id")
    else
      let s : Session := { id := db.sessionSeq + 1, publicId, agentId, startedAt := now }
      .ok (s, { db with sessions := db.sessions ++ [s], sessionSeq := s.id })

/-- The writer closure of `appendTurn`. -/
def appendJob (env : Env F) (sessionId : Int) (role content : String) (now : Int) :
    Write F Turn := do
  let found ← query env fun db => .ok (db.sessions.any fun s => s.id = sessionId ∧ s.isOpen)
  if !found then
    Program.fail (.invalidInput ("session " ++ toString sessionId ++ " does not exist or is closed"))
  else do
    let seq ← query env fun db => .ok (nextSeq db sessionId)
    let t : Turn := ⟨sessionId, seq, role, content, env.sha256Hex content, now⟩
    run env fun db => { db with turns := db.turns ++ [t] }
    return t

section

variable (env : Env F) (tx : {α : Type} → Write F α → Write F α)

/-- The last step of a call. -/
def job {α : Type} (m : Write F α) (reply : α → Reply) : Work F Reply :=
  call (tx (m >>= fun a => pure (reply a)))

def client : Call → Work F Reply
  | .openSession agentId =>
    if Text.trim agentId = "" then Client.fail (.invalidInput "agent_id must not be empty")
    else do
      let publicId ← call (newUuid env)
      let now ← call (nowMillis env)
      job tx (openJob env agentId publicId now) .opened
  | .appendTurn sessionId role content =>
    if role ∉ ROLES then Client.fail
      (.invalidInput ("role must be one of user/assistant/system/tool, got '" ++ role ++ "'"))
    else if content = "" then Client.fail (.invalidInput "turn content must not be empty")
    else do
      let now ← call (nowMillis env)
      job tx (appendJob env sessionId role content now) .appended
  | .closeSession sessionId reason =>
    if reason ∉ REASONS then Client.fail
      (.invalidInput ("end_reason must be explicit/idle/forced, got '" ++ reason ++ "'"))
    else do
      let now ← call (nowMillis env)
      job tx (closeJob env sessionId reason now) fun _ => .closed
  | .closeIdleSessions idleMinutes => do
    let before ← call (nowMillis env)
    let now ← call (nowMillis env)
    job tx (closeIdleJob env now (wrapI64 (before - wrapI64 (wrapI64 idleMinutes * 60000)))) .swept

end

/-- The call without others at work. -/
def program (env : Env F) : Call → Write F Reply
  | .openSession agentId => openSession env agentId >>= fun s => pure (.opened s)
  | .appendTurn sessionId role content =>
    appendTurn env sessionId role content >>= fun t => pure (.appended t)
  | .closeSession sessionId reason => closeSession env sessionId reason >>= fun _ => pure .closed
  | .closeIdleSessions idleMinutes =>
    closeIdleSessions env idleMinutes >>= fun ids => pure (.swept ids)

omit [F64 F] in
private theorem appendTurn_job (env : Env F) (sessionId : Int) (role content : String) :
    appendTurn env sessionId role content =
      if role ∉ ROLES then Program.fail
        (.invalidInput ("role must be one of user/assistant/system/tool, got '" ++ role ++ "'"))
      else if content = "" then
        Program.fail (.invalidInput "turn content must not be empty")
      else nowMillis env >>= appendJob env sessionId role content := rfl

omit [F64 F] in
theorem alone_client (env : Env F) (c : Call) : (client env autocommit c).alone = program env c := by
  cases c with
  | openSession agentId =>
    simp only [client, program, openSession]
    split
    · rfl
    · simp only [alone_bind, alone_call, job, Program.bind_assoc]
      rfl
  | appendTurn sessionId role content =>
    rw [client, program, appendTurn_job]
    split
    · rfl
    split
    · rfl
    · rw [alone_bind, alone_call, Program.bind_assoc]
      rfl
  | closeSession sessionId reason =>
    simp only [client, program, closeSession]
    split
    · rfl
    · rw [alone_bind, alone_call, Program.bind_assoc]
      rfl
  | closeIdleSessions idleMinutes =>
    simp only [client, program, closeIdleSessions, alone_bind, alone_call, Program.bind_assoc, job]
    rfl

/-! ## What a step does -/

def turnsOf (db : Db F) (sessionId : Int) : List Turn :=
  db.turns.filter fun t => t.sessionId = sessionId

/-- The tables of the session log are the same. -/
structure SameLog (db db' : Db F) : Prop where
  sessions : db'.sessions = db.sessions
  seq : db'.sessionSeq = db.sessionSeq
  turns : db'.turns = db.turns

/-- The open sessions of a choice are closed at once, all in the same way. -/
def Ends (which : Session → Prop) (db db' : Db F) : Prop :=
  ∃ (now : Int) (reason : String) (f : Session → Bool), (∀ s, f s = true → s.isOpen = true ∧ which s) ∧
    db'.sessions = db.sessions.map fun s => if f s then endSession now reason s else s

/-- What a call that succeeds has written. -/
inductive Writes (db db' : Db F) : Call → Reply → Prop where
  | opened (agentId : String) (s : Session) (hopen : s.isOpen = true) (hid : s.id = db.sessionSeq + 1)
      (hsessions : db'.sessions = db.sessions ++ [s]) (hseq : db'.sessionSeq = s.id)
      (hturns : db'.turns = db.turns) : Writes db db' (.openSession agentId) (.opened s)
  | appended (role content : String) (t : Turn)
      (hopen : ∃ s ∈ db.sessions, s.id = t.sessionId ∧ s.isOpen = true)
      (hseq : t.seq = nextSeq db t.sessionId) (hsessions : db'.sessions = db.sessions)
      (hids : db'.sessionSeq = db.sessionSeq) (hturns : db'.turns = db.turns ++ [t]) :
      Writes db db' (.appendTurn t.sessionId role content) (.appended t)
  | closed (sessionId : Int) (reason : String) (hends : Ends (fun s => s.id = sessionId) db db')
      (hids : db'.sessionSeq = db.sessionSeq) (hturns : db'.turns = db.turns) :
      Writes db db' (.closeSession sessionId reason) .closed
  | swept (idleMinutes : Nat) (ids : List Int) (hends : Ends (fun _ => True) db db')
      (hids : db'.sessionSeq = db.sessionSeq) (hturns : db'.turns = db.turns) :
      Writes db db' (.closeIdleSessions idleMinutes) (.swept ids)

/-- A step that is not the successful end of its call leaves the log alone. -/
def Logs (c : Call) (r : Option (Except Error Reply)) (s t : Conn F) : Prop :=
  match r with
  | some (.ok reply) => Writes s.db t.db c reply
  | _ => SameLog s.db t.db

omit [F64 F] in
theorem SameLog.refl (db : Db F) : SameLog db db := ⟨rfl, rfl, rfl⟩

omit [F64 F] in
theorem SameLog.of_db {db db' : Db F} (h : db' = db) : SameLog db db' := h ▸ SameLog.refl db

section

variable {env : Env F}

omit [F64 F] in
private theorem obeys_job {α : Type} {c : Call} {m : Write F α} {reply : α → Reply}
    (h : ∀ s a t, m s = (.ok a, t) → Writes s.db t.db c (reply a)) :
    (job transaction m reply).Obeys (Logs c) := by
  refine obeys_call fun s => ?_
  show Logs c (some (transaction (m >>= fun a => pure (reply a)) s).1) s
    (transaction (m >>= fun a => pure (reply a)) s).2
  cases hrun : transaction (m >>= fun a => pure (reply a)) s with
  | mk r t =>
    cases r with
    | ok b =>
      obtain ⟨a, u, hm, hpure⟩ := bind_ok (Program.atomically_ok hrun)
      obtain ⟨rfl, rfl⟩ := Program.pure_ok hpure
      exact h s a u hm
    | error e =>
      obtain ⟨u, _, rfl⟩ := Program.atomically_error hrun
      exact SameLog.refl s.db

omit [F64 F] in
private theorem obeys_quiet {α : Type} {c : Call} {m : Write F α} (hm : ∀ s, (m s).2.db = s.db)
    {k : α → Work F Reply} (hnext : ∀ a, (k a).outcome? = none) (hk : ∀ a, (k a).Obeys (Logs c)) :
    (call m >>= k).Obeys (Logs c) := by
  refine obeys_call_bind (fun s e t hrun => ?_) (fun s a t hrun => ?_) hk
  · have hdb := hm s
    rw [hrun] at hdb
    exact SameLog.of_db hdb
  · have hdb := hm s
    rw [hrun] at hdb
    rw [hnext a]
    exact SameLog.of_db hdb

omit [F64 F] in
private theorem openJob_writes {agentId publicId : String} {now : Int} {s t : Conn F} {a : Session}
    (h : openJob env agentId publicId now s = (.ok a, t)) :
    Writes s.db t.db (.openSession agentId) (.opened a) := by
  have hf := exec_ok h
  dsimp only at hf
  split at hf
  · cases hf
  · obtain ⟨rfl, hdb⟩ := Prod.mk.inj (Except.ok.inj hf)
    rw [← hdb]
    exact .opened agentId _ rfl rfl rfl rfl rfl

omit [F64 F] in
private theorem appendJob_writes {sessionId : Int} {role content : String} {now : Int} {s t : Conn F}
    {a : Turn} (h : appendJob env sessionId role content now s = (.ok a, t)) :
    Writes s.db t.db (.appendTurn sessionId role content) (.appended a) := by
  obtain ⟨found, s₁, hfound, h⟩ := bind_ok h
  obtain ⟨hfound, hdb₁⟩ := query_ok hfound
  cases hopen : found with
  | false =>
    rw [hopen] at h
    cases h
  | true =>
    rw [hopen] at h
    obtain ⟨seq, s₂, hseq, h⟩ := bind_ok h
    obtain ⟨hseq, hdb₂⟩ := query_ok hseq
    obtain ⟨_, s₃, hrun, h⟩ := bind_ok h
    obtain ⟨rfl, rfl⟩ := Program.pure_ok h
    have hdb₃ := (Prod.mk.inj (Except.ok.inj (exec_ok hrun))).2
    have hany := Except.ok.inj hfound
    rw [hopen, List.any_eq_true] at hany
    obtain ⟨row, hrow, hrow'⟩ := hany
    rw [hdb₂, hdb₁] at hdb₃
    rw [← hdb₃]
    refine .appended role content ⟨sessionId, seq, role, content, env.sha256Hex content, now⟩
      ⟨row, hrow, of_decide_eq_true hrow'⟩ ?_ rfl rfl rfl
    rw [← Except.ok.inj hseq, hdb₁]

omit [F64 F] in
private theorem closeJob_writes {sessionId : Int} {reason : String} {now : Int} {s t : Conn F}
    {a : Unit}
    (h : closeJob env sessionId reason now s = (.ok a, t)) :
    Writes s.db t.db (.closeSession sessionId reason) .closed := by
  obtain ⟨n, s₁, hn, h⟩ := bind_ok h
  have hf := (Prod.mk.inj (Except.ok.inj (exec_ok hn))).2
  have hdb : t.db = s₁.db := by
    split at h
    · cases h
    · rw [(Program.pure_ok h).2]
  rw [hdb, ← hf]
  refine .closed sessionId reason ⟨now, reason, fun r => r.id = sessionId ∧ r.isOpen, ?_, rfl⟩
    rfl rfl
  intro r hr
  have hr' := of_decide_eq_true hr
  exact ⟨hr'.2, hr'.1⟩

omit [F64 F] in
private theorem closeIdleJob_writes {idleMinutes : Nat} {now cutoff : Int} {s t : Conn F}
    {ids : List Int}
    (h : closeIdleJob env now cutoff s = (.ok ids, t)) :
    Writes s.db t.db (.closeIdleSessions idleMinutes) (.swept ids) := by
  obtain ⟨_, s₁, hrun, h⟩ := bind_ok h
  have hf := (Prod.mk.inj (Except.ok.inj (exec_ok hrun))).2
  rw [(query_ok h).2, ← hf]
  refine .swept idleMinutes ids
    ⟨now, "idle", fun r => r.isOpen ∧ lastActivity s.db r < cutoff, ?_, rfl⟩ rfl rfl
  intro r hr
  exact ⟨(of_decide_eq_true hr).1, trivial⟩

omit [F64 F] in
private theorem client_logs (env : Env F) (c : Call) : (client env transaction c).Obeys (Logs c) := by
  have huuid : ∀ s : Conn F, (newUuid env s).2.db = s.db := fun _ => rfl
  have hnow : ∀ s : Conn F, (nowMillis env s).2.db = s.db := fun _ => rfl
  cases c with
  | openSession agentId =>
    simp only [client]
    split
    · exact obeys_fail _
    · refine obeys_quiet huuid (fun _ => rfl) fun publicId => ?_
      exact obeys_quiet hnow (fun _ => rfl) fun now => obeys_job fun s a t => openJob_writes
  | appendTurn sessionId role content =>
    simp only [client]
    split
    · exact obeys_fail _
    split
    · exact obeys_fail _
    · exact obeys_quiet hnow (fun _ => rfl) fun now => obeys_job fun s a t => appendJob_writes
  | closeSession sessionId reason =>
    simp only [client]
    split
    · exact obeys_fail _
    · exact obeys_quiet hnow (fun _ => rfl) fun now => obeys_job fun s a t => closeJob_writes
  | closeIdleSessions idleMinutes =>
    refine obeys_quiet hnow (fun _ => rfl) fun before => ?_
    exact obeys_quiet hnow (fun _ => rfl) fun now => obeys_job fun s a t => closeIdleJob_writes

end

/-! ## The log over whole runs -/

/-- The invariant of the log. -/
structure Sound (db : Db F) : Prop where
  ids : (db.sessions.map Session.id).Nodup
  bound : ∀ s ∈ db.sessions, s.id ≤ db.sessionSeq
  known : ∀ t ∈ db.turns, ∃ s ∈ db.sessions, s.id = t.sessionId
  numbered : ∀ id, (turnsOf db id).map Turn.seq =
    (List.range (turnsOf db id).length).map fun i : Nat => (i : Int) + 1

/-- Closed sessions and their turns stay as they are, and no session disappears. -/
structure Extends (db db' : Db F) : Prop where
  kept : ∀ s ∈ db.sessions, ∃ s' ∈ db'.sessions, s'.id = s.id
  frozen : ∀ s ∈ db.sessions, s.isOpen = false →
    s ∈ db'.sessions ∧ turnsOf db' s.id = turnsOf db s.id

omit [F64 F] in
theorem Extends.of_same {db db' : Db F} (h : SameLog db db') : Extends db db' where
  kept s hs := ⟨s, h.sessions ▸ hs, rfl⟩
  frozen s hs _ := ⟨h.sessions ▸ hs, by rw [turnsOf, h.turns, turnsOf]⟩

omit [F64 F] in
theorem Extends.trans {a b c : Db F} (hab : Extends a b) (hbc : Extends b c) : Extends a c where
  kept s hs := by
    obtain ⟨s', hs', hid⟩ := hab.kept s hs
    obtain ⟨s'', hs'', hid'⟩ := hbc.kept s' hs'
    exact ⟨s'', hs'', hid'.trans hid⟩
  frozen s hs hclosed := by
    obtain ⟨hs', hturns⟩ := hab.frozen s hs hclosed
    obtain ⟨hs'', hturns'⟩ := hbc.frozen s hs' hclosed
    exact ⟨hs'', hturns'.trans hturns⟩

omit [F64 F] in
theorem Sound.of_same {db db' : Db F} (h : Sound db) (hsame : SameLog db db') : Sound db' where
  ids := hsame.sessions ▸ h.ids
  bound s hs := by
    rw [hsame.seq]
    exact h.bound s (hsame.sessions ▸ hs)
  known t ht := by
    rw [hsame.sessions]
    exact h.known t (hsame.turns ▸ ht)
  numbered id := by
    rw [turnsOf, hsame.turns]
    exact h.numbered id

omit [F64 F] in
theorem Sound.eq_of_id {db : Db F} (h : Sound db) {s s' : Session} (hs : s ∈ db.sessions)
    (hs' : s' ∈ db.sessions) (hid : s.id = s'.id) : s = s' :=
  List.inj_on_of_nodup_map h.ids hs hs' hid

private theorem endSession_id (now : Int) (reason : String) (s : Session) :
    (endSession now reason s).id = s.id := rfl

omit [F64 F] in
/-- Only open sessions change when some are closed. -/
theorem Sound.ends {db db' : Db F} {which : Session → Prop} (h : Sound db)
    (hends : Ends which db db') (hids : db'.sessionSeq = db.sessionSeq)
    (hturns : db'.turns = db.turns) : Sound db' ∧ Extends db db' := by
  obtain ⟨now, reason, f, hf, hsessions⟩ := hends
  have hmap : db'.sessions.map Session.id = db.sessions.map Session.id := by
    rw [hsessions, List.map_map]
    refine List.map_congr_left fun s _ => ?_
    rw [Function.comp_apply]
    split
    · exact endSession_id now reason s
    · rfl
  have hmem : ∀ s ∈ db.sessions, (if f s then endSession now reason s else s) ∈ db'.sessions :=
    fun s hs => hsessions ▸ List.mem_map_of_mem hs
  have hkept : ∀ s ∈ db.sessions, ∃ s' ∈ db'.sessions, s'.id = s.id := by
    intro s hs
    refine ⟨_, hmem s hs, ?_⟩
    split
    · exact endSession_id now reason s
    · rfl
  refine ⟨⟨hmap ▸ h.ids, fun s hs => ?_, fun t ht => ?_, fun id => ?_⟩, hkept, fun s hs hclosed => ?_⟩
  · have hid : s.id ∈ db.sessions.map Session.id := hmap ▸ List.mem_map_of_mem hs
    obtain ⟨s', hs', heq⟩ := List.mem_map.mp hid
    rw [hids, ← heq]
    exact h.bound s' hs'
  · obtain ⟨s, hs, hid⟩ := h.known t (hturns ▸ ht)
    obtain ⟨s', hs', hid'⟩ := hkept s hs
    exact ⟨s', hs', hid'.trans hid⟩
  · rw [turnsOf, hturns]
    exact h.numbered id
  · refine ⟨?_, by rw [turnsOf, hturns, turnsOf]⟩
    have hs' := hmem s hs
    rwa [if_neg] at hs'
    intro hfs
    rw [(hf s hfs).1] at hclosed
    cases hclosed

omit [F64 F] in
private theorem turnsOf_append (db db' : Db F) (t : Turn) (h : db'.turns = db.turns ++ [t])
    (id : Int) :
    turnsOf db' id = turnsOf db id ++ if t.sessionId = id then [t] else [] := by
  rw [turnsOf, h, List.filter_append, turnsOf]
  congr 1
  by_cases hid : t.sessionId = id
  · simp [hid]
  · simp [hid]

omit [F64 F] in
/-- The next number is one more than the number of turns. -/
theorem Sound.nextSeq {db : Db F} (h : Sound db) (id : Int) :
    nextSeq db id = ((turnsOf db id).length : Int) + 1 := by
  show ((turnsOf db id).map Turn.seq).max?.getD 0 + 1 = _
  rw [h.numbered id, max?_range]

omit [F64 F] in
theorem Sound.writes {db db' : Db F} {c : Call} {r : Reply} (h : Sound db)
    (hwrites : Writes db db' c r) : Sound db' ∧ Extends db db' := by
  cases hwrites with
  | opened agentId s hopen hid hsessions hseq hturns =>
    have hold : ∀ s' ∈ db.sessions, s'.id ≠ s.id := by
      intro s' hs' heq
      have hle := h.bound s' hs'
      rw [heq, hid] at hle
      omega
    refine ⟨⟨?_, fun s' hs' => ?_, fun t ht => ?_, fun id => ?_⟩, fun s' hs' => ?_,
      fun s' hs' _ => ?_⟩
    · rw [hsessions, List.map_append]
      refine List.nodup_append.mpr ⟨h.ids, List.nodup_singleton _, fun a ha b hb => ?_⟩
      obtain ⟨s', hs', rfl⟩ := List.mem_map.mp ha
      rw [List.mem_singleton.mp hb]
      exact hold s' hs'
    · rw [hsessions] at hs'
      rw [hseq]
      rcases List.mem_append.mp hs' with hs' | hs'
      · have hle := h.bound s' hs'
        omega
      · rw [List.mem_singleton.mp hs']
    · obtain ⟨s', hs', heq⟩ := h.known t (hturns ▸ ht)
      exact ⟨s', hsessions ▸ List.mem_append_left _ hs', heq⟩
    · rw [turnsOf, hturns]
      exact h.numbered id
    · exact ⟨s', hsessions ▸ List.mem_append_left _ hs', rfl⟩
    · exact ⟨hsessions ▸ List.mem_append_left _ hs', by rw [turnsOf, hturns, turnsOf]⟩
  | appended role content t hopen hseq hsessions hids hturns =>
    obtain ⟨row, hrow, hid, hrowOpen⟩ := hopen
    refine ⟨⟨hsessions ▸ h.ids, fun s hs => ?_, fun t' ht' => ?_, fun id => ?_⟩, fun s hs => ?_,
      fun s hs hclosed => ?_⟩
    · rw [hids]
      exact h.bound s (hsessions ▸ hs)
    · rw [hsessions]
      rw [hturns] at ht'
      rcases List.mem_append.mp ht' with ht' | ht'
      · exact h.known t' ht'
      · rw [List.mem_singleton.mp ht']
        exact ⟨row, hrow, hid⟩
    · rw [turnsOf_append db db' t hturns id]
      by_cases hsame : t.sessionId = id
      · subst hsame
        rw [if_pos rfl, List.map_append, h.numbered, List.length_append, List.length_singleton,
          List.range_succ, List.map_append, List.map_singleton, List.map_singleton, hseq, h.nextSeq]
      · rw [if_neg hsame, List.append_nil]
        exact h.numbered id
    · exact ⟨s, hsessions ▸ hs, rfl⟩
    · refine ⟨hsessions ▸ hs, ?_⟩
      rw [turnsOf_append db db' t hturns s.id, if_neg, List.append_nil]
      intro hsame
      rw [h.eq_of_id hs hrow (hsame.symm.trans hid.symm), hrowOpen] at hclosed
      cases hclosed
  | closed sessionId reason hends hids hturns => exact h.ends hends hids hturns
  | swept idleMinutes ids hends hids hturns => exact h.ends hends hids hturns

omit [F64 F] in
theorem Sound.logs {s t : Conn F} {c : Call} {r : Option (Except Error Reply)} (h : Sound s.db)
    (hlogs : Logs c r s t) : Sound t.db ∧ Extends s.db t.db := by
  rcases r with _ | e | reply
  · exact ⟨h.of_same hlogs, .of_same hlogs⟩
  · exact ⟨h.of_same hlogs, .of_same hlogs⟩
  · exact h.writes hlogs

/-! ## Interleavings -/

abbrev Log (F : Type) := Pool Call Error (Conn F) Reply

/-- The calls that arrive and the steps that they take, from a new database on. -/
def runLog (env : Env F) (agentId : String) (embedDim : Nat) (events : List (Pool.Event Call)) :
    Log F :=
  Pool.run (client env transaction) events ⟨emptyStore F agentId embedDim, []⟩

def Open (db : Db F) (id : Int) : Prop := ∃ s ∈ db.sessions, s.id = id ∧ s.isOpen = true

def Closed (db : Db F) (id : Int) : Prop := ∃ s ∈ db.sessions, s.id = id ∧ s.isOpen = false

section

variable {env : Env F} {agentId : String} {embedDim : Nat}

omit [F64 F] in
private theorem runLog_append (events later : List (Pool.Event Call)) :
    runLog env agentId embedDim (events ++ later) =
      Pool.run (client env transaction) later (runLog env agentId embedDim events) :=
  List.foldl_append

omit [F64 F] in
private theorem runLog_obeys (events : List (Pool.Event Call)) :
    (runLog env agentId embedDim events).Obeys Logs :=
  Pool.Obeys.run (fun c hc => (by cases hc)) (client_logs env) events

omit [F64 F] in
private theorem empty_sound : Sound (emptyStore F agentId embedDim).db where
  ids := List.nodup_nil
  bound := List.forall_mem_nil _
  known := List.forall_mem_nil _
  numbered _ := rfl

omit [F64 F] in
theorem sound_step {p : Log F} (hp : p.Obeys Logs) (h : Sound p.shared.db) (e : Pool.Event Call) :
    Sound (p.step (client env transaction) e).shared.db ∧
      Extends p.shared.db (p.step (client env transaction) e).shared.db := by
  rcases hp.shared _ e with hsame | ⟨k, c, act, next, _, _, hshared, hlogs⟩
  · rw [hsame]
    exact ⟨h, .of_same (.refl _)⟩
  · rw [hshared]
    exact h.logs hlogs

omit [F64 F] in
theorem sound_run {p : Log F} (hp : p.Obeys Logs) (h : Sound p.shared.db)
    (events : List (Pool.Event Call)) :
    Sound (p.run (client env transaction) events).shared.db ∧
      Extends p.shared.db (p.run (client env transaction) events).shared.db := by
  induction events generalizing p with
  | nil => exact ⟨h, .of_same (.refl _)⟩
  | cons e events ih =>
    have hp' := hp.step (client_logs env) e
    obtain ⟨hsound, hextends⟩ := ih hp' (sound_step hp h e).1
    exact ⟨hsound, (sound_step hp h e).2.trans hextends⟩

omit [F64 F] in
private theorem runLog_sound (events : List (Pool.Event Call)) :
    Sound (runLog env agentId embedDim events).shared.db :=
  (sound_run (fun c hc => (by cases hc)) empty_sound events).1

omit [F64 F] in
theorem Sound.not_open {db : Db F} (h : Sound db) {id : Int} (hclosed : Closed db id) :
    ¬ Open db id := by
  rintro ⟨s, hs, rfl, hopen⟩
  obtain ⟨s', hs', hid, hshut⟩ := hclosed
  rw [h.eq_of_id hs' hs hid, hopen] at hshut
  cases hshut

omit [F64 F] in
theorem Closed.extends {db db' : Db F} {id : Int} (h : Closed db id) (hextends : Extends db db') :
    Closed db' id := by
  obtain ⟨s, hs, hid, hshut⟩ := h
  exact ⟨s, (hextends.frozen s hs hshut).1, hid, hshut⟩

/-- The call closes session `id` when it gets to it. -/
def Call.closes (id : Int) (c : Call) : Prop :=
  (∃ reason, c = .closeSession id reason) ∨ ∃ idleMinutes, c = .closeIdleSessions idleMinutes

omit [F64 F] in
theorem Ends.closed {db db' : Db F} {which : Session → Prop} {id : Int} (h : Ends which db db')
    (hbefore : ¬ Closed db id) (hafter : Closed db' id) :
    ∃ s ∈ db.sessions, s.id = id ∧ s.isOpen = true ∧ which s := by
  obtain ⟨now, reason, f, hf, hsessions⟩ := h
  obtain ⟨s', hs', hid, hshut⟩ := hafter
  rw [hsessions] at hs'
  obtain ⟨s, hs, rfl⟩ := List.mem_map.mp hs'
  by_cases hfs : f s = true
  · rw [if_pos hfs] at hid
    exact ⟨s, hs, hid, hf s hfs⟩
  · rw [if_neg hfs] at hid hshut
    exact absurd ⟨s, hs, hid, hshut⟩ hbefore

omit [F64 F] in
/-- Nothing but a close or a sweep closes a session, and the session was open. -/
theorem Writes.closes {db db' : Db F} {c : Call} {r : Reply} {id : Int} (h : Writes db db' c r)
    (hbefore : ¬ Closed db id) (hafter : Closed db' id) : Open db id ∧ c.closes id := by
  cases h with
  | opened agentId s hopen hid hsessions hseq hturns =>
    obtain ⟨s', hs', heq, hshut⟩ := hafter
    rw [hsessions] at hs'
    rcases List.mem_append.mp hs' with hs' | hs'
    · exact absurd ⟨s', hs', heq, hshut⟩ hbefore
    · rw [List.mem_singleton.mp hs', hopen] at hshut
      cases hshut
  | appended role content t hopen hseq hsessions hids hturns =>
    obtain ⟨s', hs', heq, hshut⟩ := hafter
    exact absurd ⟨s', hsessions ▸ hs', heq, hshut⟩ hbefore
  | closed sessionId reason hends hids hturns =>
    obtain ⟨s, hs, rfl, hopen, rfl⟩ := hends.closed hbefore hafter
    exact ⟨⟨s, hs, rfl, hopen⟩, .inl ⟨reason, rfl⟩⟩
  | swept idleMinutes ids hends hids hturns =>
    obtain ⟨s, hs, rfl, hopen, _⟩ := hends.closed hbefore hafter
    exact ⟨⟨s, hs, rfl, hopen⟩, .inr ⟨idleMinutes, rfl⟩⟩

omit [F64 F] in
private theorem step_closes {p : Log F} (hp : p.Obeys Logs) {e : Pool.Event Call} {id : Int}
    (hbefore : ¬ Closed p.shared.db id)
    (hafter : Closed (p.step (client env transaction) e).shared.db id) :
    Open p.shared.db id ∧ ∃ k c rest, e = .advance k ∧ p.clients[k]? = some (c, rest) ∧
      c.closes id := by
  rcases hp.shared (client env transaction) e with
    hsame | ⟨k, c, act, next, rfl, hk, hshared, hlogs⟩
  · rw [hsame] at hafter
    exact absurd hafter hbefore
  · rw [hshared] at hafter
    have hquiet : ¬ SameLog p.shared.db (act p.shared).db := by
      intro h
      exact hbefore (hafter.extends (.of_same ⟨h.sessions.symm, h.seq.symm, h.turns.symm⟩))
    rcases hr : (next p.shared).outcome? with _ | e | reply
    · rw [hr] at hlogs
      exact absurd hlogs hquiet
    · rw [hr] at hlogs
      exact absurd hlogs hquiet
    · rw [hr] at hlogs
      obtain ⟨hopen, hcloses⟩ := Writes.closes hlogs hbefore hafter
      exact ⟨hopen, k, c, _, rfl, hk, hcloses⟩

/-- Step `n` of the run closes session `id`. -/
def ClosesAt (env : Env F) (agentId : String) (embedDim : Nat) (events : List (Pool.Event Call))
    (n : Nat) (id : Int) : Prop :=
  Open (runLog env agentId embedDim (events.take n)).shared.db id ∧
    Closed (runLog env agentId embedDim (events.take (n + 1))).shared.db id

omit [F64 F] in
private theorem closed_mono {events : List (Pool.Event Call)} {id : Int} {m n : Nat} (hmn : m ≤ n)
    (h : Closed (runLog env agentId embedDim (events.take m)).shared.db id) :
    Closed (runLog env agentId embedDim (events.take n)).shared.db id := by
  obtain ⟨k, rfl⟩ := Nat.exists_eq_add_of_le hmn
  rw [List.take_add, runLog_append]
  exact h.extends (sound_run (runLog_obeys _) (runLog_sound _) _).2

omit [F64 F] in
/-- A session that was closed was closed by one step, which serves a close of it or a sweep. -/
private theorem closed_once (events : List (Pool.Event Call)) {id : Int}
    (hclosed : Closed (runLog env agentId embedDim events).shared.db id) :
    ∃ n, ClosesAt env agentId embedDim events n id ∧
      (∃ k c rest, events[n]? = some (.advance k) ∧
        (runLog env agentId embedDim (events.take n)).clients[k]? = some (c, rest) ∧ c.closes id) ∧
      ∀ m, ClosesAt env agentId embedDim events m id → m = n := by
  classical
  have hex : ∃ n, Closed (runLog env agentId embedDim (events.take n)).shared.db id :=
    ⟨events.length, by rwa [List.take_length]⟩
  obtain ⟨n, hn⟩ : ∃ n, Nat.find hex = n + 1 := by
    refine Nat.exists_eq_succ_of_ne_zero fun hzero => ?_
    obtain ⟨s, hs, _⟩ := hzero ▸ Nat.find_spec hex
    cases hs
  have hafter := Nat.find_spec hex
  rw [hn] at hafter
  have hbefore := Nat.find_min hex (m := n) (by omega)
  have hlt : n < events.length := by
    by_contra hge
    rw [List.take_of_length_le (by omega)] at hafter hbefore
    exact hbefore hafter
  have hstep : runLog env agentId embedDim (events.take (n + 1)) =
      (runLog env agentId embedDim (events.take n)).step (client env transaction) events[n] := by
    rw [List.take_succ_eq_append_getElem hlt, runLog_append]
    rfl
  have hafter' := hafter
  rw [hstep] at hafter'
  obtain ⟨hopen, k, c, rest, he, hk, hcloses⟩ := step_closes (runLog_obeys _) hbefore hafter'
  refine ⟨n, ⟨hopen, hafter⟩, ⟨k, c, rest, ?_, hk, hcloses⟩, fun m hm => ?_⟩
  · rw [List.getElem?_eq_getElem hlt, he]
  · rcases Nat.lt_trichotomy m n with hless | heq | hmore
    · exact absurd (closed_mono (by omega) hm.2) hbefore
    · exact heq
    · exact absurd hm.1 ((runLog_sound _).not_open (closed_mono (by omega) hafter))

omit [F64 F] in
/-- In every interleaving of the calls the turns of a session are numbered from one in the order in
which they were appended; closed sessions and their turns do not change; each closed session was
closed by one step, of a close of it or of a sweep; and a step that is not the successful end of its
call changes neither sessions nor turns. -/
theorem session_log (env : Env F) (agentId : String) (embedDim : Nat)
    (events : List (Pool.Event Call)) :
    (∀ id, (turnsOf (runLog env agentId embedDim events).shared.db id).map Turn.seq =
      (List.range (turnsOf (runLog env agentId embedDim events).shared.db id).length).map
        fun i : Nat => (i : Int) + 1) ∧
    (∀ later, ∀ s ∈ (runLog env agentId embedDim events).shared.db.sessions, s.isOpen = false →
      s ∈ (runLog env agentId embedDim (events ++ later)).shared.db.sessions ∧
      (∀ s' ∈ (runLog env agentId embedDim (events ++ later)).shared.db.sessions,
        s'.id = s.id → s' = s) ∧
      turnsOf (runLog env agentId embedDim (events ++ later)).shared.db s.id =
        turnsOf (runLog env agentId embedDim events).shared.db s.id) ∧
    (∀ id, Closed (runLog env agentId embedDim events).shared.db id →
      ∃ n, ClosesAt env agentId embedDim events n id ∧
        (∃ k c rest, events[n]? = some (.advance k) ∧
          (runLog env agentId embedDim (events.take n)).clients[k]? = some (c, rest) ∧
          c.closes id) ∧
        ∀ m, ClosesAt env agentId embedDim events m id → m = n) ∧
    (∀ (k : Nat) (c : Call) (act : Conn F → Conn F) (next : Conn F → Work F Reply),
      (runLog env agentId embedDim events).clients[k]? = some (c, .step act next) →
      (∀ reply, (next (runLog env agentId embedDim events).shared).outcome? ≠ some (.ok reply)) →
      SameLog (runLog env agentId embedDim events).shared.db
        (act (runLog env agentId embedDim events).shared).db) := by
  have hobeys : (runLog env agentId embedDim events).Obeys Logs := runLog_obeys events
  have hsound : Sound (runLog env agentId embedDim events).shared.db := runLog_sound events
  refine ⟨hsound.numbered, fun later s hs hshut => ?_, fun id => closed_once events,
    fun k c act next hk hfails => ?_⟩
  · rw [runLog_append]
    have hsound' : Sound (Pool.run (client env transaction) later
      (runLog env agentId embedDim events)).shared.db := (sound_run hobeys hsound later).1
    obtain ⟨hs', hturns⟩ := (sound_run hobeys hsound later).2.frozen s hs hshut
    exact ⟨hs', fun s' hmem hid => hsound'.eq_of_id hmem hs' hid, hturns⟩
  · have hlogs := (hobeys _ (List.mem_of_getElem? hk) (runLog env agentId embedDim events).shared).1
    rcases hr : (next (runLog env agentId embedDim events).shared).outcome? with _ | e | reply
    · rw [hr] at hlogs
      exact hlogs
    · rw [hr] at hlogs
      exact hlogs
    · exact absurd hr (hfails reply)

end

end AgosMemory.Sessions
