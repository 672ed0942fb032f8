import AgosMemory.Memory.Extract
import AgosMemory.Storage.Frame
import AgosMemory.Storage.Wellformed
import AgosMemory.System

/-!
# Extraction over whole runs

Turns are appended and sessions extracted in any order, with any outcome of the chat client, the
parser and the store. The watermark of a session is the number of one of its turns, and every turn
up to it was handed to the prompt of a run whose candidates were persisted.
-/

namespace AgosMemory.Extract

open Library Library.Program Store

variable {F : Type} [F64 F]

/-- One call on the pipeline. -/
inductive Op (F : Type) where
  | openSession (agentId : String)
  | appendTurn (sessionId : Int) (role content : String)
  | extract (chat : Chat) (json : Json F) (emb : Embedder F) (sessionId : Int)

def Op.step (env : Env F) : Op F → Extraction F → Extraction F
  | openSession agentId, s => (onConn (Sessions.openSession env agentId) s).2
  | appendTurn sessionId role content, s =>
    (onConn (Sessions.appendTurn env sessionId role content) s).2
  | extract chat json emb sessionId, s => (extractSession env chat json emb sessionId s).2

def runOps (env : Env F) (ops : List (Op F)) (s : Extraction F) : Extraction F :=
  ops.foldl (fun s op => op.step env s) s

/-- A new database. -/
def start (F : Type) (agentId : String) (embedDim : Nat) : Extraction F :=
  { conn := { agentId, db := { embedDim } } }

/-- The watermark that a run of the pipeline reads: zero when its read fails. -/
def readUpto (env : Env F) (s : Extraction F) (sessionId : Int) : Int :=
  if env.fault (s.conn.stmts + 1) then 0 else (s.upto sessionId).getD 0

/-- The turns that a run of the pipeline finds fresh. -/
def freshTurns (env : Env F) (s : Extraction F) (sessionId : Int) : List Turn :=
  (sessionTurns s.conn.db sessionId).filter fun t => readUpto env s sessionId < t.seq

/-! ## Turns are left alone -/

/-- Two databases with the same turns. -/
def SameTurns (db db' : Db F) : Prop := db'.turns = db.turns

omit [F64 F] in
instance : Std.Refl (SameTurns (F := F)) where
  refl _ := rfl

omit [F64 F] in
instance : IsTrans (Db F) SameTurns where
  trans _ _ _ hab hbc := Eq.trans hbc hab

/-! ## The quiet part of a run -/

/-- Nothing was recorded: the turns, the watermarks and the persisted runs are as they were. -/
structure Quiet (s s' : Extraction F) : Prop where
  turns : s'.conn.db.turns = s.conn.db.turns
  upto : s'.upto = s.upto
  persisted : s'.persisted = s.persisted
  prompts : ∀ p ∈ s.prompts, p ∈ s'.prompts

omit [F64 F] in
instance : Std.Refl (Quiet (F := F)) where
  refl _ := ⟨rfl, rfl, rfl, fun _ h => h⟩

omit [F64 F] in
instance : IsTrans (Extraction F) Quiet where
  trans _ _ _ hab hbc := ⟨hbc.turns.trans hab.turns, hbc.upto.trans hab.upto,
    hbc.persisted.trans hab.persisted, fun p h => hbc.prompts p (hab.prompts p h)⟩

omit [F64 F] in
private theorem quiet_onConn {α : Type} {m : Write F α} (h : Moves (OnDb SameTurns) m) :
    Moves Quiet (onConn m) :=
  fun s => ⟨h s.conn, rfl, rfl, fun _ hp => hp⟩

omit [F64 F] in
private theorem quiet_complete {chat : Chat} {prompt : String} :
    Moves (Quiet (F := F)) (complete chat prompt) :=
  fun _ => ⟨rfl, rfl, rfl, fun _ h => List.mem_append_left _ h⟩

private theorem quiet_persistAll {env : Env F} {emb : Embedder F} {candidates : List (Candidate F)} :
    Moves Quiet (persistAll env emb candidates) := by
  unfold persistAll
  refine moves_foldEach fun n c _ => ?_
  exact moves_bind (quiet_onConn (rest_persistFull.mono fun _ _ h => h.turns)) fun _ => moves_pure _

omit [F64 F] in
private theorem quiet_recordedUpto {env : Env F} {sessionId : Int} :
    Moves Quiet (recordedUpto env sessionId) := by
  unfold recordedUpto
  refine moves_bind (moves_attempt (quiet_onConn onDb_query)) fun read => ?_
  exact moves_bind moves_get fun s => moves_pure _

/-! ## One run of the pipeline -/

omit [F64 F] in
/-- A failing read counts as zero. -/
theorem recordedUpto_run (env : Env F) (sessionId : Int) (s : Extraction F) :
    recordedUpto env sessionId s =
      (.ok (if env.fault s.conn.stmts then 0 else (s.upto sessionId).getD 0),
        { s with conn := { s.conn with stmts := s.conn.stmts + 1 } }) := by
  unfold recordedUpto
  cases hfault : env.fault s.conn.stmts with
  | true =>
    have hread : onConn (query env fun _ => .ok ()) s = (.error (.storage "disk I/O error"),
        { s with conn := { s.conn with stmts := s.conn.stmts + 1 } }) := by
      rw [onConn, query_of_fault hfault]
    rw [bind_run, attempt, hread]
    rfl
  | false =>
    have hread : onConn (query env fun _ => .ok ()) s = (.ok (),
        { s with conn := { s.conn with stmts := s.conn.stmts + 1 } }) := by
      rw [onConn, query_of_noFault hfault]
    rw [bind_run, attempt, hread]
    rfl

omit [F64 F] in
private theorem recordedUpto_ok {env : Env F} {sessionId u : Int} {s t : Extraction F}
    (h : recordedUpto env sessionId s = (.ok u, t)) :
    u = (if env.fault s.conn.stmts then 0 else (s.upto sessionId).getD 0) ∧
      t.prompts = s.prompts := by
  rw [recordedUpto_run] at h
  obtain ⟨hu, rfl⟩ := Prod.mk.inj h
  exact ⟨(Except.ok.inj hu).symm, rfl⟩

/-- The chat client answers the prompt of the fresh turns, with what the parser can read. -/
def Answers (env : Env F) (chat : Chat) (json : Json F) (sessionId : Int) (s : Extraction F) : Prop :=
  ∃ response report, chat.complete s.prompts.length (buildPrompt (freshTurns env s sessionId)) =
    .ok response ∧ parseOutput json response = .ok report

/-- What a run leaves: nothing, or a persisted run over its fresh turns, and with it the watermark
unless that write fails. -/
inductive Left (env : Env F) (chat : Chat) (json : Json F) (sessionId : Int) (s s' : Extraction F) :
    Prop
  | quiet (h : Quiet s s')
  | persisted (answers : Answers env chat json sessionId s) (fresh : freshTurns env s sessionId ≠ [])
      (turns : s'.conn.db.turns = s.conn.db.turns) (prompts : ∀ p ∈ s.prompts, p ∈ s'.prompts)
      (sent : buildPrompt (freshTurns env s sessionId) ∈ s'.prompts)
      (entry : s'.persisted = s.persisted ++
        [(sessionId, buildPrompt (freshTurns env s sessionId), freshTurns env s sessionId)])
      (upto : ∀ sid, s'.upto sid = s.upto sid ∨ sid = sessionId ∧
        s'.upto sid = some (maxSeq (readUpto env s sessionId) (freshTurns env s sessionId)))

omit [F64 F] in
/-- A quiet program fails quietly, or hands over to what follows it. -/
private theorem quiet_bind {α β : Type} {m : Run F α} (hm : Moves Quiet m) (k : α → Run F β)
    (s : Extraction F) :
    Quiet s ((m >>= k) s).2 ∨ ∃ a t, m s = (.ok a, t) ∧ Quiet s t ∧ (m >>= k) s = k a t := by
  have h := hm s
  rw [bind_run]
  cases hms : m s with
  | mk r t =>
    rw [hms] at h
    cases r with
    | ok a => exact .inr ⟨a, t, rfl, h, rfl⟩
    | error e => exact .inl h

/-- What follows once the candidates are persisted. -/
private theorem record_left {env : Env F} {chat : Chat} {json : Json F} {sessionId : Int}
    {s t : Extraction F} {report : ExtractReport}
    (hst : Quiet s t) (hanswers : Answers env chat json sessionId s)
    (hsent : buildPrompt (freshTurns env s sessionId) ∈ t.prompts)
    (hfresh : freshTurns env s sessionId ≠ []) :
    Left env chat json sessionId s ((do
      notePersisted sessionId (buildPrompt (freshTurns env s sessionId)) (freshTurns env s sessionId)
      recordUpto env sessionId (maxSeq (readUpto env s sessionId) (freshTurns env s sessionId))
      return report : Run F ExtractReport) t).2 := by
  have hwrite : Moves (OnDb SameTurns) (run env (id : Db F → Db F)) := onDb_run fun _ => rfl
  have hturns := (hwrite t.conn).trans hst.turns
  have hentry := congrArg (· ++ [(sessionId, buildPrompt (freshTurns env s sessionId),
    freshTurns env s sessionId)]) hst.persisted
  simp only [recordUpto, bind_run, onConn, notePersisted]
  cases hr : run env (id : Db F → Db F) t.conn with
  | mk r c =>
    rw [hr] at hturns
    cases r with
    | error e =>
      exact .persisted hanswers hfresh hturns hst.prompts hsent hentry fun sid =>
        .inl (congrFun hst.upto sid)
    | ok u =>
      refine .persisted hanswers hfresh hturns hst.prompts hsent hentry fun sid => ?_
      by_cases hsid : sid = sessionId
      · exact .inr ⟨hsid, if_pos hsid⟩
      · exact .inl ((if_neg hsid).trans (congrFun hst.upto sid))

private theorem extractFresh_left {env : Env F} {chat : Chat} {json : Json F} {emb : Embedder F}
    {sessionId : Int} {s t : Extraction F} (hst : Quiet s t) (hcalls : t.prompts = s.prompts)
    (hfresh : freshTurns env s sessionId ≠ []) :
    Left env chat json sessionId s (extractFresh env chat json emb sessionId (readUpto env s sessionId)
      (freshTurns env s sessionId) t).2 := by
  unfold extractFresh
  rcases quiet_bind quiet_complete _ t with hquiet | ⟨response, t₁, hsent, h₁, heq⟩
  · exact .quiet (IsTrans.trans _ _ _ hst hquiet)
  have hprompt : buildPrompt (freshTurns env s sessionId) ∈ t₁.prompts := by
    rw [← (Prod.mk.inj hsent).2]
    exact List.mem_append_right _ (List.mem_singleton_self _)
  have hresponse := (Prod.mk.inj hsent).1
  rw [hcalls] at hresponse
  rw [heq]
  rcases quiet_bind (moves_lift _) _ t₁ with hquiet | ⟨report, t₂, hreport, h₂, heq⟩
  · exact .quiet (IsTrans.trans _ _ _ hst (IsTrans.trans _ _ _ h₁ hquiet))
  rw [heq]
  have h₁₂ : Quiet t t₂ := IsTrans.trans _ _ _ h₁ h₂
  rcases quiet_bind quiet_persistAll _ t₂ with hquiet | ⟨inserted, t₃, _, h₃, heq⟩
  · exact .quiet (IsTrans.trans _ _ _ hst (IsTrans.trans _ _ _ h₁₂ hquiet))
  rw [heq]
  exact record_left (IsTrans.trans _ _ _ hst (IsTrans.trans _ _ _ h₁₂ h₃))
    ⟨response, report, hresponse, (lift_ok hreport).1⟩ (h₃.prompts _ (h₂.prompts _ hprompt)) hfresh

private theorem extractSession_left (env : Env F) (chat : Chat) (json : Json F) (emb : Embedder F)
    (sessionId : Int) (s : Extraction F) :
    Left env chat json sessionId s (extractSession env chat json emb sessionId s).2 := by
  unfold extractSession
  rcases quiet_bind (quiet_onConn onDb_query) _ s with hquiet | ⟨turns, s₁, hturns, h₁, heq⟩
  · exact .quiet hquiet
  rw [heq]
  rcases quiet_bind quiet_recordedUpto _ s₁ with hquiet | ⟨u, s₂, hu, h₂, heq⟩
  · exact .quiet (IsTrans.trans _ _ _ h₁ hquiet)
  rw [heq]
  obtain ⟨hread, hs₁⟩ := Prod.mk.inj hturns
  have hquery : query env (fun db => .ok (sessionTurns db sessionId)) s.conn = (.ok turns, s₁.conn) :=
    Prod.ext hread (congrArg Extraction.conn hs₁)
  have hsession : turns = sessionTurns s.conn.db sessionId :=
    (Except.ok.inj (query_ok hquery).1).symm
  have hconn : (query env (fun db => .ok (sessionTurns db sessionId)) s.conn).2 = s₁.conn :=
    congrArg Prod.snd hquery
  have hstmts : s₁.conn.stmts = s.conn.stmts + 1 := by
    rw [← hconn]
    exact exec_stmts _ _
  have hupto : u = readUpto env s sessionId := by
    rw [(recordedUpto_ok hu).1, hstmts, h₁.upto]
    rfl
  have hcalls : s₂.prompts = s.prompts := (recordedUpto_ok hu).2.trans
    (congrArg Extraction.prompts hs₁).symm
  subst hupto hsession
  have hst : Quiet s s₂ := IsTrans.trans _ _ _ h₁ h₂
  split
  · exact .quiet hst
  · next hfresh => exact extractFresh_left hst hcalls fun hnil => hfresh (List.isEmpty_iff.mpr hnil)

/-! ## Watermarks -/

omit [F64 F] in
private theorem mem_sessionTurns {db : Db F} {sessionId : Int} {t : Turn} :
    t ∈ sessionTurns db sessionId ↔ t ∈ db.turns ∧ t.sessionId = sessionId := by
  rw [sessionTurns, List.mem_insertionSort, List.mem_filter, decide_eq_true_eq]

/-- The new watermark is the old one or the number of a fresh turn, and no fresh turn is above it. -/
private theorem maxSeq_spec (upto : Int) (fresh : List Turn) :
    (maxSeq upto fresh = upto ∨ ∃ t ∈ fresh, t.seq = maxSeq upto fresh) ∧
      upto ≤ maxSeq upto fresh ∧ ∀ t ∈ fresh, t.seq ≤ maxSeq upto fresh := by
  induction fresh generalizing upto with
  | nil => exact ⟨.inl rfl, le_refl _, fun t ht => by cases ht⟩
  | cons t fresh ih =>
    obtain ⟨hfrom, hle, hall⟩ := ih (max upto t.seq)
    have hstep : maxSeq upto (t :: fresh) = maxSeq (max upto t.seq) fresh := rfl
    rw [hstep]
    refine ⟨?_, by omega, fun t' ht' => ?_⟩
    · rcases hfrom with hfrom | ⟨t', ht', hseq⟩
      · rcases le_total t.seq upto with hlt | hlt
        · exact .inl (hfrom.trans (max_eq_left hlt))
        · exact .inr ⟨t, List.mem_cons_self, (hfrom.trans (max_eq_right hlt)).symm⟩
      · exact .inr ⟨t', List.mem_cons_of_mem _ ht', hseq⟩
    · rcases List.mem_cons.mp ht' with rfl | ht'
      · omega
      · exact hall t' ht'

/-- What the numbers and the history say in every state of a run whose extractions fit. -/
structure Sound (s : Extraction F) : Prop where
  positive : ∀ t ∈ s.conn.db.turns, 1 ≤ t.seq
  /-- A watermark is the number of a turn, so later turns are above it. -/
  mark : ∀ sid u, s.upto sid = some u → ∃ t ∈ s.conn.db.turns, t.sessionId = sid ∧ t.seq = u
  covered : ∀ sid u, s.upto sid = some u → ∀ t ∈ s.conn.db.turns, t.sessionId = sid → t.seq ≤ u →
    ∃ prompt fresh, (sid, prompt, fresh) ∈ s.persisted ∧ t ∈ fresh
  prompt : ∀ entry ∈ s.persisted, entry.2.1 = buildPrompt entry.2.2 ∧ entry.2.1 ∈ s.prompts ∧
    Fits entry.2.2

omit [F64 F] in
theorem Sound.quiet {s s' : Extraction F} (h : Sound s) (hq : Quiet s s') : Sound s' where
  positive t ht := h.positive t (hq.turns ▸ ht)
  mark sid u hu := hq.turns ▸ h.mark sid u (hq.upto ▸ hu)
  covered sid u hu t ht := by
    rw [hq.persisted]
    exact h.covered sid u (hq.upto ▸ hu) t (hq.turns ▸ ht)
  prompt entry he := by
    obtain ⟨heq, hmem, hfits⟩ := h.prompt entry (hq.persisted ▸ he)
    exact ⟨heq, hq.prompts _ hmem, hfits⟩

omit [F64 F] in
/-- A turn that is not fresh is below the recorded watermark. -/
theorem Sound.below_mark {env : Env F} {s : Extraction F} (h : Sound s) {t : Turn} {sid : Int}
    (ht : t ∈ s.conn.db.turns) (hread : ¬ readUpto env s sid < t.seq) :
    ∃ u, s.upto sid = some u ∧ t.seq ≤ u := by
  have hpositive := h.positive t ht
  unfold readUpto at hread
  cases hu : s.upto sid with
  | none =>
    have hzero : (if env.fault (s.conn.stmts + 1) then 0 else (none : Option Int).getD 0) = 0 :=
      ite_self 0
    rw [hu, hzero] at hread
    omega
  | some u =>
    refine ⟨u, rfl, ?_⟩
    rw [hu] at hread
    split at hread
    · omega
    · rw [Option.getD_some] at hread
      omega

/-- A run of the pipeline over fresh turns that fit. -/
theorem Sound.left {env : Env F} {chat : Chat} {json : Json F} {sessionId : Int}
    {s s' : Extraction F} (h : Sound s)
    (hfits : Answers env chat json sessionId s → Fits (freshTurns env s sessionId))
    (hleft : Left env chat json sessionId s s') : Sound s' := by
  rcases hleft with hq | ⟨hanswers, hfresh, hturns, hprompts, hsent, hentry, hupto⟩
  · exact h.quiet hq
  have hmem_fresh : ∀ t, t ∈ freshTurns env s sessionId ↔ (t ∈ s.conn.db.turns ∧
      t.sessionId = sessionId) ∧ readUpto env s sessionId < t.seq := fun t => by
    rw [freshTurns, List.mem_filter, mem_sessionTurns, decide_eq_true_eq]
  obtain ⟨hfrom, hle, hall⟩ := maxSeq_spec (readUpto env s sessionId) (freshTurns env s sessionId)
  have hlast : ∃ t ∈ freshTurns env s sessionId,
      t.seq = maxSeq (readUpto env s sessionId) (freshTurns env s sessionId) := by
    rcases hfrom with hfrom | hfrom
    · obtain ⟨t, ht⟩ := List.exists_mem_of_ne_nil _ hfresh
      have hlt := ((hmem_fresh t).mp ht).2
      have hmax := hall t ht
      omega
    · exact hfrom
  have hold : ∀ sid u, s.upto sid = some u → ∀ t ∈ s.conn.db.turns, t.sessionId = sid →
      t.seq ≤ u → ∃ prompt fresh, (sid, prompt, fresh) ∈ s'.persisted ∧ t ∈ fresh := by
    intro sid u hu t ht hsid hseq
    obtain ⟨prompt, fresh, hmem, hin⟩ := h.covered sid u hu t ht hsid hseq
    exact ⟨prompt, fresh, hentry ▸ List.mem_append_left _ hmem, hin⟩
  have hnew : (sessionId, buildPrompt (freshTurns env s sessionId), freshTurns env s sessionId) ∈
      s'.persisted := hentry ▸ List.mem_append_right _ (List.mem_singleton_self _)
  constructor
  · rw [hturns]
    exact h.positive
  · intro sid u hu
    rw [hturns]
    rcases hupto sid with hsame | ⟨rfl, hset⟩
    · exact h.mark sid u (hsame ▸ hu)
    · obtain ⟨t, ht, hseq⟩ := hlast
      obtain ⟨hturn, hsession⟩ := ((hmem_fresh t).mp ht).1
      exact ⟨t, hturn, hsession, hseq.trans (Option.some.inj (hset.symm.trans hu))⟩
  · intro sid u hu t ht hsid hseq
    rw [hturns] at ht
    rcases hupto sid with hsame | ⟨rfl, _⟩
    · exact hold sid u (hsame ▸ hu) t ht hsid hseq
    · by_cases hread : readUpto env s sid < t.seq
      · exact ⟨_, _, hnew, (hmem_fresh t).mpr ⟨⟨ht, hsid⟩, hread⟩⟩
      · obtain ⟨u', hu', hle'⟩ := h.below_mark ht hread
        exact hold sid u' hu' t ht hsid hle'
  · intro entry he
    rw [hentry] at he
    rcases List.mem_append.mp he with he | he
    · obtain ⟨heq, hmem, hfits⟩ := h.prompt entry he
      exact ⟨heq, hprompts _ hmem, hfits⟩
    · obtain rfl := List.mem_singleton.mp he
      exact ⟨rfl, hsent, hfits hanswers⟩

/-! ## Appending -/

omit [F64 F] in
private theorem quiet_openSession {env : Env F} {agentId : String} :
    Moves Quiet (onConn (Sessions.openSession env agentId)) := by
  refine quiet_onConn ?_
  unfold Sessions.openSession
  split
  · exact moves_fail _
  refine moves_bind onDb_newUuid fun publicId => ?_
  refine moves_bind onDb_nowMillis fun now => ?_
  refine onDb_exec fun db session db' h => ?_
  split at h
  · cases h
  · obtain ⟨_, rfl⟩ := Prod.mk.inj (Except.ok.inj h)
    rfl

omit [F64 F] in
/-- An append adds at most one turn, under the next number of its session. -/
private theorem appendTurn_cases (env : Env F) (sessionId : Int) (role content : String)
    (c : Conn F) :
    (Sessions.appendTurn env sessionId role content c).2.db.turns = c.db.turns ∨
      ∃ t : Turn, t.sessionId = sessionId ∧ t.seq = Sessions.nextSeq c.db sessionId ∧
        (Sessions.appendTurn env sessionId role content c).2.db.turns = c.db.turns ++ [t] := by
  unfold Sessions.appendTurn
  split
  · exact .inl rfl
  split
  · exact .inl rfl
  rcases same_bind (m := nowMillis env) (fun _ => rfl) _ c with h | ⟨now, c₁, _, h₁, heq⟩
  · exact .inl (congrArg Db.turns h)
  rw [heq]
  rcases same_bind (query_db _) _ c₁ with h | ⟨found, c₂, _, h₂, heq⟩
  · exact .inl (congrArg Db.turns (h.trans h₁))
  rw [heq]
  split
  · exact .inl (congrArg Db.turns (h₂.trans h₁))
  rcases same_bind (query_db _) _ c₂ with h | ⟨seq, c₃, hseq, h₃, heq⟩
  · exact .inl (congrArg Db.turns (h.trans (h₂.trans h₁)))
  rw [heq]
  have hdb : c₃.db = c.db := h₃.trans (h₂.trans h₁)
  have hnext : seq = Sessions.nextSeq c.db sessionId := by
    rw [← h₂.trans h₁]
    exact (Except.ok.inj (query_ok hseq).1).symm
  rw [← hdb, bind_run]
  cases hrun : run env _ c₃ with
  | mk r c₄ =>
    rcases exec_cases hrun with ⟨_, _, ⟨⟨e, rfl⟩, h⟩ | ⟨u, rfl, h⟩⟩
    · exact .inl (congrArg Db.turns h)
    · refine .inr ⟨⟨sessionId, seq, role, content, env.sha256Hex content, now⟩, rfl, ?_, ?_⟩
      · rw [hnext, hdb]
      · have hdb₄ := (Prod.mk.inj (Except.ok.inj h)).2.symm
        exact congrArg Db.turns hdb₄

omit [F64 F] in
/-- A number that no turn of the session has reached. -/
private theorem nextSeq_spec {db : Db F} (sessionId : Int) (h : ∀ t ∈ db.turns, 1 ≤ t.seq) :
    1 ≤ Sessions.nextSeq db sessionId ∧
      ∀ t ∈ db.turns, t.sessionId = sessionId → t.seq < Sessions.nextSeq db sessionId := by
  unfold Sessions.nextSeq
  have hmem : ∀ t ∈ db.turns, t.sessionId = sessionId →
      t.seq ∈ (db.turns.filter fun t => t.sessionId = sessionId).map Turn.seq := fun t ht hsid =>
    List.mem_map_of_mem (List.mem_filter.mpr ⟨ht, decide_eq_true hsid⟩)
  cases hmax : ((db.turns.filter fun t => t.sessionId = sessionId).map Turn.seq).max? with
  | none =>
    rw [List.max?_eq_none_iff] at hmax
    refine ⟨by simp, fun t ht hsid => ?_⟩
    have hin := hmem t ht hsid
    rw [hmax] at hin
    cases hin
  | some n =>
    rw [List.max?_eq_some_iff] at hmax
    obtain ⟨t, ht, hseq⟩ := List.mem_map.mp hmax.1
    have hpositive := h t (List.mem_filter.mp ht).1
    rw [Option.getD_some]
    refine ⟨by omega, fun t' ht' hsid => ?_⟩
    have hle := hmax.2 _ (hmem t' ht' hsid)
    omega

omit [F64 F] in
/-- A new turn is above every recorded watermark of its session. -/
theorem Sound.append {s s' : Extraction F} (h : Sound s) {t : Turn}
    (hseq : t.seq = Sessions.nextSeq s.conn.db t.sessionId)
    (hturns : s'.conn.db.turns = s.conn.db.turns ++ [t]) (hupto : s'.upto = s.upto)
    (hpersisted : s'.persisted = s.persisted) (hprompts : s'.prompts = s.prompts) : Sound s' := by
  obtain ⟨hpositive, habove⟩ := nextSeq_spec t.sessionId h.positive
  constructor
  · intro t' ht'
    rw [hturns] at ht'
    rcases List.mem_append.mp ht' with ht' | ht'
    · exact h.positive t' ht'
    · obtain rfl := List.mem_singleton.mp ht'
      omega
  · intro sid u hu
    obtain ⟨t', ht', hmark⟩ := h.mark sid u (hupto ▸ hu)
    exact ⟨t', hturns ▸ List.mem_append_left _ ht', hmark⟩
  · intro sid u hu t' ht' hsid hle
    rw [hupto] at hu
    rw [hturns] at ht'
    rw [hpersisted]
    rcases List.mem_append.mp ht' with ht' | ht'
    · exact h.covered sid u hu t' ht' hsid hle
    · obtain rfl := List.mem_singleton.mp ht'
      obtain ⟨last, hlast, hlastSid, hlastSeq⟩ := h.mark sid u hu
      have hlt := habove last hlast (hlastSid.trans hsid.symm)
      omega
  · intro entry he
    rw [hprompts]
    exact h.prompt entry (hpersisted ▸ he)

/-- The fresh turns of an extraction fit into one prompt, unless the prompt gets no usable answer. -/
def Op.FitsAt (env : Env F) (s : Extraction F) : Op F → Prop
  | extract chat json _ sessionId =>
    Answers env chat json sessionId s → Fits (freshTurns env s sessionId)
  | _ => True

private theorem step_sound {env : Env F} {op : Op F} {s : Extraction F} (h : Sound s)
    (hfits : op.FitsAt env s) : Sound (op.step env s) := by
  cases op with
  | openSession agentId => exact h.quiet (quiet_openSession s)
  | appendTurn sessionId role content =>
    rcases appendTurn_cases env sessionId role content s.conn with hsame | ⟨t, rfl, hseq, hturns⟩
    · exact h.quiet ⟨hsame, rfl, rfl, fun _ hp => hp⟩
    · exact h.append hseq hturns rfl rfl rfl
  | extract chat json emb sessionId =>
    exact h.left hfits (extractSession_left env chat json emb sessionId s)

omit [F64 F] in
private theorem start_sound (agentId : String) (embedDim : Nat) :
    Sound (start F agentId embedDim) where
  positive := List.forall_mem_nil _
  mark _ _ hu := by cases hu
  covered _ _ hu := by cases hu
  prompt := List.forall_mem_nil _

private theorem runOps_sound {env : Env F} {ops : List (Op F)} {s : Extraction F} (h : Sound s)
    (hfits : ∀ pre op post, ops = pre ++ op :: post → op.FitsAt env (runOps env pre s)) :
    Sound (runOps env ops s) := by
  induction ops generalizing s with
  | nil => exact h
  | cons op ops ih =>
    refine ih (step_sound h (hfits [] op ops rfl)) fun pre op' post heq => ?_
    exact hfits (op :: pre) op' post (by rw [heq, List.cons_append])

/-- Every turn up to a watermark was included in a prompt of a run that was persisted. -/
def Covered (s : Extraction F) : Prop :=
  ∀ sid u, s.upto sid = some u → ∀ t ∈ s.conn.db.turns, t.sessionId = sid → t.seq ≤ u →
    ∃ prompt fresh, (sid, prompt, fresh) ∈ s.persisted ∧ prompt ∈ s.prompts ∧ Included t prompt

/-- In every run in which each answered prompt is one that its fresh turns fit into, no turn is
skipped. -/
theorem covered_of_fits (env : Env F) (ops : List (Op F)) (agentId : String) (embedDim : Nat)
    (hfits : ∀ pre op post, ops = pre ++ op :: post →
      op.FitsAt env (runOps env pre (start F agentId embedDim))) :
    Covered (runOps env ops (start F agentId embedDim)) := by
  have hsound := runOps_sound (start_sound agentId embedDim) hfits
  intro sid u hu t ht hsid hle
  obtain ⟨prompt, fresh, hmem, hin⟩ := hsound.covered sid u hu t ht hsid hle
  obtain ⟨heq, hsent, hfresh⟩ := hsound.prompt _ hmem
  refine ⟨prompt, fresh, hmem, hsent, ?_⟩
  rw [show prompt = buildPrompt fresh from heq]
  exact included_of_fits hfresh hin

/-! ## One turn, and a client with nothing to remember -/

def silentChat : Chat := ⟨fun _ _ => .ok ""⟩

def noMemories : Json ℚ := fun _ => .ok []

def sampleOps (content : String) : List (Op ℚ) :=
  [.openSession "a", .appendTurn 1 "user" content, .extract silentChat noMemories sampleEmbedder 1]

def sampleTurn (content : String) : Turn := ⟨1, 1, "user", content, content, 1⟩

private theorem sample_appended {content : String} (h : content ≠ "") :
    runOps sampleEnv [.openSession "a", .appendTurn 1 "user" content] (start ℚ "a" 1) =
      { conn := { agentId := "a", stmts := 4, ticks := 2, uuids := 1, db := {
          embedDim := 1, sessions := [⟨1, "m0", "a", 0, none, none, true⟩], sessionSeq := 1
          turns := [sampleTurn content] } } } := by
  show Op.step sampleEnv (.appendTurn 1 "user" content)
    ((Op.openSession "a").step sampleEnv (start ℚ "a" 1)) = _
  have hopen : (Op.openSession "a").step sampleEnv (start ℚ "a" 1) =
      { conn := { agentId := "a", stmts := 1, ticks := 1, uuids := 1, db := {
          embedDim := 1, sessions := [⟨1, "m0", "a", 0, none, none, true⟩], sessionSeq := 1 } } } :=
    rfl
  rw [hopen]
  simp only [Op.step, Sessions.appendTurn, if_neg h]
  rfl

/-- The turn is recorded as consumed, whatever its prompt includes. -/
private theorem sample_state {content : String} (h : content ≠ "") :
    (runOps sampleEnv (sampleOps content) (start ℚ "a" 1)).upto 1 = some 1 ∧
      (runOps sampleEnv (sampleOps content) (start ℚ "a" 1)).conn.db.turns =
        [sampleTurn content] ∧
      (runOps sampleEnv (sampleOps content) (start ℚ "a" 1)).prompts =
        [buildPrompt [sampleTurn content]] := by
  have hsplit : runOps sampleEnv (sampleOps content) (start ℚ "a" 1) =
      Op.step sampleEnv (.extract silentChat noMemories sampleEmbedder 1)
        (runOps sampleEnv [.openSession "a", .appendTurn 1 "user" content] (start ℚ "a" 1)) := rfl
  rw [hsplit, sample_appended h]
  exact ⟨rfl, rfl, rfl⟩

def teaJson : Json ℚ := fun _ =>
  .ok [{ tier := some "semantic", kind := some "fact", text := some "likes tea" }]

/-- Two extractions of one session: the first finds two turns and a memory, the second one turn. -/
def talkOps : List (Op ℚ) :=
  [.openSession "a", .appendTurn 1 "user" "tea?", .appendTurn 1 "assistant" "yes",
    .extract silentChat teaJson sampleEmbedder 1, .appendTurn 1 "user" "now",
    .extract silentChat noMemories sampleEmbedder 1]

theorem covered_sample : Covered (runOps sampleEnv talkOps (start ℚ "a" 1)) ∧
    (runOps sampleEnv talkOps (start ℚ "a" 1)).upto 1 = some 3 ∧
    (runOps sampleEnv talkOps (start ℚ "a" 1)).prompts.length = 2 ∧
    (runOps sampleEnv talkOps (start ℚ "a" 1)).conn.db.memories.map Memory.text =
      ["likes tea"] := by
  refine ⟨covered_of_fits sampleEnv talkOps "a" 1 fun pre op post heq => ?_, by decide +kernel,
    by decide +kernel, by decide +kernel⟩
  rcases pre with _ | ⟨op₁, _ | ⟨op₂, _ | ⟨op₃, _ | ⟨op₄, _ | ⟨op₅, _ | ⟨op₆, pre⟩⟩⟩⟩⟩⟩
  · cases heq; trivial
  · cases heq; trivial
  · cases heq; trivial
  · cases heq
    intro _
    exact ⟨by decide +kernel, by decide +kernel⟩
  · cases heq; trivial
  · cases heq
    intro _
    exact ⟨by decide +kernel, by decide +kernel⟩
  · cases pre <;> cases heq

def longContent : Nat → String
  | 0 => ""
  | n + 1 => longContent n ++ "a"

private theorem longContent_size (n : Nat) : (longContent n).utf8ByteSize = n := by
  induction n with
  | zero => rfl
  | succ n ih =>
    rw [longContent, String.utf8ByteSize_append, ih]
    rfl

/-- A turn whose line alone exceeds the limit is not in its prompt. -/
private theorem not_included_of_long {t : Turn} (h : MAX_PROMPT_CHARS < t.content.utf8ByteSize) :
    ¬ Included t (buildPrompt [t]) := by
  intro ⟨pre, post, heq⟩
  have hline : t.content.utf8ByteSize ≤ (promptLine t).utf8ByteSize := by
    delta promptLine
    rw [String.utf8ByteSize_append, String.utf8ByteSize_append]
    exact (Nat.le_add_left _ _).trans (Nat.le_add_right _ _)
  -- the line does not fit, so the prompt is its header
  have hlines : promptLines 0 (recent [t]) = [] := if_pos (by omega)
  have hshort : promptHeader.utf8ByteSize < MAX_PROMPT_CHARS := by decide +kernel
  rw [buildPrompt, hlines, String.join_nil, String.append_empty] at heq
  rw [heq, String.utf8ByteSize_append, String.utf8ByteSize_append] at hshort
  omega

/-- A turn of 8001 bytes is recorded as consumed, and no prompt has it. -/
theorem turn_skipped : ¬ ∀ (env : Env ℚ) (ops : List (Op ℚ)) (agentId : String) (embedDim : Nat),
    Covered (runOps env ops (start ℚ agentId embedDim)) := by
  intro h
  have hsize := longContent_size 8001
  have hne : longContent 8001 ≠ "" := fun heq => by rw [heq] at hsize; cases hsize
  obtain ⟨hupto, hturns, hprompts⟩ := sample_state hne
  obtain ⟨prompt, fresh, _, hsent, hincluded⟩ := h sampleEnv (sampleOps (longContent 8001)) "a" 1
    1 1 hupto (sampleTurn (longContent 8001)) (hturns ▸ List.mem_singleton_self _) rfl (le_refl _)
  rw [hprompts, List.mem_singleton] at hsent
  rw [hsent] at hincluded
  refine not_included_of_long ?_ hincluded
  show 8000 < (longContent 8001).utf8ByteSize
  omega

end AgosMemory.Extract
