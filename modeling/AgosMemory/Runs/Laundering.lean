import AgosMemory.Runs.Extraction
import AgosMemory.Runs.Trust

/-!
# Trust across an extraction

The candidates of an extraction are persisted as facts of a user, whatever roles the turns of the
prompt have. A bump merges trust conservatively, so no row rises; a fresh row is trusted.
-/

namespace AgosMemory.Extract

open Library Library.Program Store

variable {F : Type} [F64 F] {env : Env F}

/-! ## Runs of the whole system -/

/-- A call on the store or on the pipeline. -/
inductive Call (F : Type) where
  | store (op : AgosMemory.Op F)
  | pipeline (op : Op F)

def Call.step (env : Env F) : Call F → Extraction F → Extraction F
  | store op, s => (onConn (op.step env) s).2
  | pipeline op, s => op.step env s

def runCalls (env : Env F) (calls : List (Call F)) (s : Extraction F) : Extraction F :=
  calls.foldl (fun s call => call.step env s) s

/-- The connections before and after are related. -/
def OnConn (R : Conn F → Conn F → Prop) (s s' : Extraction F) : Prop := R s.conn s'.conn

section

variable {R : Conn F → Conn F → Prop}

omit [F64 F] in
instance [h : Std.Refl R] : Std.Refl (OnConn R) where
  refl s := h.refl s.conn

omit [F64 F] in
instance [h : IsTrans (Conn F) R] : IsTrans (Extraction F) (OnConn R) where
  trans _ _ _ hab hbc := h.trans _ _ _ hab hbc

variable [Std.Refl R] [IsTrans (Conn F) R]

omit [F64 F] [Std.Refl R] [IsTrans (Conn F) R] in
private theorem moves_onConn {α : Type} {m : Write F α} (h : Moves R m) :
    Moves (OnConn R) (onConn m) :=
  fun s => h s.conn

/-- An extraction touches the store through reads, persists and the write of its watermark. -/
private theorem moves_extractSession {chat : Chat} {json : Json F} {emb : Embedder F}
    {sessionId : Int}
    (hquery : ∀ {α : Type} (f : Db F → Except Error α), Moves R (query env f))
    (hpersist : ∀ cand, Moves R (Persist.persistCandidate env emb cand EXTRACTOR_VERSION))
    (hrecord : Moves R (run env id)) :
    Moves (OnConn R) (extractSession env chat json emb sessionId) := by
  unfold extractSession
  refine moves_bind (moves_onConn (hquery _)) fun turns => ?_
  refine moves_bind ?_ fun upto => ?_
  · unfold recordedUpto
    refine moves_bind (moves_attempt (moves_onConn (hquery _))) fun read => ?_
    exact moves_bind moves_get fun s => moves_pure _
  dsimp only
  split
  · exact moves_pure _
  unfold extractFresh
  refine moves_bind (fun s => Std.Refl.refl s.conn) fun response => ?_
  refine moves_bind (moves_lift _) fun report => ?_
  refine moves_bind ?_ fun inserted => ?_
  · unfold persistAll
    refine moves_foldEach fun n c _ => ?_
    exact moves_bind (moves_onConn (hpersist _)) fun _ => moves_pure _
  refine moves_bind (fun s => Std.Refl.refl s.conn) fun _ => ?_
  refine moves_bind ?_ fun _ => moves_pure _
  exact moves_bind (moves_onConn hrecord) fun _ s => Std.Refl.refl s.conn

end

/-- Every call changes the database through edits. -/
private theorem runCalls_ran (calls : List (Call F)) (s : Extraction F) :
    Ran env (.storing (fun _ => True) True) s.conn (runCalls env calls s).conn := by
  have hrules : StepRules env (.storing (fun _ => True) True)
      (Ran env (.storing (fun _ => True) True)) := stepRules_ran fun _ => trivial
  induction calls generalizing s with
  | nil => exact Std.Refl.refl _
  | cons call calls ih =>
    refine IsTrans.trans _ _ _ ?_ (ih _)
    cases call with
    | store op =>
      exact moves_step hrules (fun _ _ => trivial)
        (fun emb _ => inserts_ran (fun _ => trivial) emb) s.conn
    | pipeline op =>
      cases op with
      | openSession agentId => exact moves_openSession.mono ran_of_edits s.conn
      | appendTurn sessionId role content => exact moves_appendTurn.mono ran_of_edits s.conn
      | extract chat json emb sessionId =>
        exact moves_extractSession (fun f => moves_query.mono ran_of_edits)
          (fun cand => moves_persistFull hrules.toRules (inserts_ran (fun _ => trivial) emb))
          ((moves_run fun db => .other ⟨rfl, rfl, rfl, rfl, rfl, rfl, rfl, rfl, rfl, rfl⟩).mono
            ran_of_edits) s

/-- Every state that calls reach is well-formed. -/
private theorem runCalls_wellformed (calls : List (Call F)) (agentId : String) (embedDim : Nat) :
    Wellformed env (runCalls env calls (start F agentId embedDim)).conn.db :=
  (runCalls_ran calls _).preserves (fun _ _ => Edit.wellformed) (.empty embedDim)

/-! ## What may not happen -/

/-- No row appears as trusted, and no untrusted row becomes trusted. -/
structure Unlaundered (db db' : Db F) : Prop where
  inserted : ∀ m' ∈ db'.memories, (∀ m ∈ db.memories, m.id ≠ m'.id) → m'.trust ≠ .trusted
  upgraded : ∀ m ∈ db.memories, m.trust = .untrusted →
    ∀ m' ∈ db'.memories, m'.id = m.id → m'.trust ≠ .trusted

/-- A trusted row was there as a trusted row. -/
def NoneRises (db db' : Db F) : Prop :=
  ∀ m' ∈ db'.memories, ∃ m ∈ db.memories, m.id = m'.id ∧ (m'.trust = .trusted → m.trust = .trusted)

/-- The trusted rows stay, and the counter of ids never falls. -/
structure TrustedStay (db db' : Db F) : Prop where
  rows : ∀ m ∈ db.memories, m.trust = .trusted →
    ∃ m' ∈ db'.memories, m'.id = m.id ∧ m'.trust = .trusted
  memorySeq : db.memorySeq ≤ db'.memorySeq

omit [F64 F] in
instance : Std.Refl (NoneRises (F := F)) where
  refl _ m hm := ⟨m, hm, rfl, fun h => h⟩

omit [F64 F] in
instance : IsTrans (Db F) NoneRises where
  trans a b c hab hbc m'' hm'' := by
    obtain ⟨m', hm', hid', ht'⟩ := hbc m'' hm''
    obtain ⟨m, hm, hid, ht⟩ := hab m' hm'
    exact ⟨m, hm, hid.trans hid', fun h => ht (ht' h)⟩

omit [F64 F] in
instance : Std.Refl (TrustedStay (F := F)) where
  refl _ := ⟨fun m hm ht => ⟨m, hm, rfl, ht⟩, le_refl _⟩

omit [F64 F] in
instance : IsTrans (Db F) TrustedStay where
  trans a b c hab hbc := by
    refine ⟨fun m hm ht => ?_, hab.memorySeq.trans hbc.memorySeq⟩
    obtain ⟨m', hm', hid', ht'⟩ := hab.rows m hm ht
    obtain ⟨m'', hm'', hid'', ht''⟩ := hbc.rows m' hm' ht'
    exact ⟨m'', hm'', hid''.trans hid', ht''⟩

omit [F64 F] in
theorem NoneRises.of_memories {db db' : Db F} (h : db'.memories = db.memories) :
    NoneRises db db' := fun m' hm' => ⟨m', h ▸ hm', rfl, fun ht => ht⟩

omit [F64 F] in
theorem TrustedStay.of_memories {db db' : Db F} (h : db'.memories = db.memories)
    (hseq : db'.memorySeq = db.memorySeq) : TrustedStay db db' :=
  ⟨fun m hm ht => ⟨m, h ▸ hm, rfl, ht⟩, le_of_eq hseq.symm⟩

omit [F64 F] in
/-- Ids are unique, so a row that rises would have been trusted before. -/
theorem NoneRises.unlaundered {db db' : Db F} (h : NoneRises db db') (hdb : Wellformed env db) :
    Unlaundered db db' where
  inserted m' hm' hnew _ := by
    obtain ⟨m, hm, hid, _⟩ := h m' hm'
    exact hnew m hm hid
  upgraded m hm hu m' hm' hid ht := by
    obtain ⟨m₀, hm₀, hid₀, htrust⟩ := h m' hm'
    obtain rfl := List.inj_on_of_nodup_map hdb.ids hm₀ hm (hid₀.trans hid)
    have htrusted := htrust ht
    rw [hu] at htrusted
    cases htrusted

/-! ## One bump -/

omit [F64 F] in
private theorem trustAfterSource_user (t : Trust) : trustAfterSource t "user" = t := by
  cases t <;> rfl

omit [F64 F] in
/-- A bump by a user leaves the trust of every row as it is. -/
private theorem mergeUser_trust {shape : BumpShape} {id now : Int} {m : Memory F} {kept : String}
    {cluster : Option String} {db db' : Db F} (hdb : Wellformed env db)
    (hm : db.memory? id = some m)
    (h : mergeSource shape id (trustAfterSource m.trust "user") kept "user" cluster now db =
      .ok ((), db')) : NoneRises db db' ∧ TrustedStay db db' := by
  obtain ⟨sk, _, rfl⟩ := mergeSource_ok hm h
  have hsame : ∀ m' ∈ db.memories, m'.id = id → m'.trust = trustAfterSource m.trust "user" := by
    intro m' hm' hid
    have hfound := hdb.memory? hm'
    rw [hid, hm] at hfound
    rw [trustAfterSource_user, Option.some.inj hfound]
  refine ⟨fun m' hm' => ?_, fun m' hm' ht => ⟨_, mem_updateMemory.mpr ⟨m', hm', rfl⟩, ?_⟩, le_refl _⟩
  · obtain ⟨m₀, hm₀, rfl⟩ := mem_updateMemory.mp hm'
    refine ⟨m₀, hm₀, ?_⟩
    split
    · next hid => exact ⟨rfl, fun ht => (hsame m₀ hm₀ hid).trans ht⟩
    · exact ⟨rfl, fun ht => ht⟩
  · split
    · next hid => exact ⟨rfl, (hsame m' hm' hid).symm.trans ht⟩
    · exact ⟨rfl, ht⟩

/-- A step that inserts nothing. -/
def Mild (db db' : Db F) : Prop := NoneRises db db' ∧ TrustedStay db db'

omit [F64 F] in
instance : Std.Refl (Mild (F := F)) where
  refl db := ⟨Std.Refl.refl db, Std.Refl.refl db⟩

omit [F64 F] in
instance : IsTrans (Db F) Mild where
  trans a b c hab hbc := ⟨IsTrans.trans a b c hab.1 hbc.1, IsTrans.trans a b c hab.2 hbc.2⟩

omit [F64 F] in
theorem Mild.of_memories {db db' : Db F} (h : db'.memories = db.memories)
    (hseq : db'.memorySeq = db.memorySeq) : Mild db db' := ⟨.of_memories h, .of_memories h hseq⟩

omit [F64 F] in
private theorem mild_bump {shape : BumpShape} {id now : Int} :
    MovesFrom (fun c => Wellformed env c.db) (OnDb Mild) (bump env shape id "user" now) := by
  unfold bump
  refine movesFrom_bind (fun m c => Wellformed env c.db ∧ c.db.memory? id = some m)
    onDb_query.from (fun s m t hs h => ?_) fun m => ?_
  · obtain ⟨hm, hdb⟩ := query_ok h
    exact ⟨hdb ▸ hs, hdb ▸ one_ok hm⟩
  refine movesFrom_bind (fun _ c => Wellformed env c.db ∧ c.db.memory? id = some m)
    (onDb_same (clusterOf_db env shape id)).from (fun s _ t hs h => ?_) fun cluster => ?_
  · rw [← clusterOf_db env shape id s, h] at hs
    exact hs
  refine movesFrom_bind (fun _ _ => True)
    (onDbFrom_exec fun c _ db' hc h => mergeUser_trust hc.1 hc.2 h) (fun _ _ _ _ _ => trivial)
    fun _ => Moves.from ?_
  refine moves_bind (moves_onlyIf (onDb_run fun db => .of_memories rfl rfl)) fun _ => ?_
  refine moves_onlyIf (onDb_exec fun db _ db' h => ?_)
  obtain ⟨links, rfl⟩ := linkRefines_ok h
  exact .of_memories rfl rfl

/-! ## One persist -/

/-- The row that a candidate becomes when the embedder answers with `vec`. -/
def candidateRow (env : Env F) (emb : Embedder F) (cand : Persist.Candidate F) (c : Conn F)
    (vec : List F) : NewRow F :=
  Persist.freshRow env c.agentId (env.uuid c.uuids) cand (Redact.redact cand.text)
    EXTRACTOR_VERSION "user" Persist.PENDING_THRESHOLD_DEFAULT
    ⟨.ok, some emb.model, some vec.length⟩ (env.clock c.ticks)

/-- A persist from this state comes to a new row that the table accepts: the embedder answers, no
row is near, and neither the search nor the insert fails. -/
def StoresNew (env : Env F) (emb : Embedder F) (cand : Persist.Candidate F) (c : Conn F) : Prop :=
  env.fault c.stmts = false ∧ env.fault (c.stmts + 1) = false ∧
    ∃ vecs, emb.embed c.sent.length [Redact.redact cand.text] = .ok vecs ∧
      Persist.duplicateOf env c.db (vecs.headD []) cand.tier Persist.DEDUP_THRESHOLD = none ∧
      (candidateRow env emb cand c (vecs.headD [])).Accepted c.db

/-- What is left of a persist that added a row: the row, under the next id, as trusted. -/
def AddsTrusted (db db' : Db F) : Prop :=
  ∃ m, m.id = db.memorySeq + 1 ∧ m.trust = .trusted ∧ db'.memories = db.memories ++ [m] ∧
    db'.memorySeq = m.id

private theorem addsTrusted_of_insert {r : NewRow F} {m : Memory F} {db db₁ db₂ : Db F}
    (h : insertMemoryRow r db = .ok (m, db₁)) (htrust : r.trust = .trusted)
    (hmem : db₂.memories = db₁.memories) (hseq : db₂.memorySeq = db₁.memorySeq) :
    AddsTrusted db db₂ := by
  obtain ⟨hbuilt, _, rfl⟩ := insertMemoryRow_ok h
  exact ⟨m, hbuilt.id, hbuilt.trust.trans htrust, hmem, hseq⟩

/-- The rows and the counter are as they were. -/
def SameMemories (db db' : Db F) : Prop :=
  db'.memories = db.memories ∧ db'.memorySeq = db.memorySeq

omit [F64 F] in
instance : Std.Refl (SameMemories (F := F)) where
  refl _ := ⟨rfl, rfl⟩

omit [F64 F] in
instance : IsTrans (Db F) SameMemories where
  trans _ _ _ hab hbc := ⟨hbc.1.trans hab.1, hbc.2.trans hab.2⟩

/-- The insert branch, up to the row and after it. -/
private theorem insertEmbedded_adds (emb : Embedder F) (cand : Persist.Candidate F) (text ev : String)
    (pending : F) (vec : List F) (now : Int) (s : Conn F) :
    let row := Persist.freshRow env s.agentId (env.uuid s.uuids) cand text ev "user" pending
      ⟨.ok, some emb.model, some vec.length⟩ now
    (env.fault s.stmts = false ∧ row.Accepted s.db ∧ AddsTrusted s.db
        (Persist.insertEmbedded env emb cand text ev "user" pending vec now s).2.db) ∨
      (¬ (env.fault s.stmts = false ∧ row.Accepted s.db) ∧
        (Persist.insertEmbedded env emb cand text ev "user" pending vec now s).2.db = s.db) := by
  intro row
  unfold Persist.insertEmbedded
  rw [insertFresh_bind]
  cases hfault : env.fault s.stmts with
  | true =>
    rw [bind_of_error _ (exec_of_fault (c := { s with uuids := s.uuids + 1 }) hfault)]
    exact .inr ⟨fun h => (by cases h.1), rfl⟩
  | false =>
    cases hrow : insertMemoryRow row s.db with
    | error e =>
      rw [bind_of_error _ (exec_of_error (c := { s with uuids := s.uuids + 1 }) hfault hrow)]
      refine .inr ⟨fun h => ?_, rfl⟩
      obtain ⟨m, db', hok⟩ := h.2.insert
      rw [hrow] at hok
      cases hok
    | ok inserted =>
      obtain ⟨m, db₁⟩ := inserted
      rw [bind_of_ok _ (exec_of_ok (c := { s with uuids := s.uuids + 1 }) hfault hrow)]
      refine .inl ⟨rfl, accepted_of_insert hrow, ?_⟩
      have hrest : Moves (OnDb SameMemories) (exec env (insertVersion {
          memoryId := m.id, version := 1, text, textHash := env.sha256Hex text
          createdAt := now }) >>= fun _ => exec env (insertVec ⟨m.id, vec, m.tier, m.status.code,
            m.trust.code, m.kind, 0⟩) >>= fun _ => (pure ⟨rowOf m, false⟩ :
              Write F Persist.PersistReport)) := by
        refine moves_bind (onDb_exec fun db _ db' h => ?_) fun _ => ?_
        · obtain ⟨_, _, rfl⟩ := insertVersion_ok h
          exact ⟨rfl, rfl⟩
        refine moves_bind (onDb_exec fun db _ db' h => ?_) fun _ => moves_pure _
        obtain ⟨_, rfl⟩ := insertVec_ok h
        exact ⟨rfl, rfl⟩
      obtain ⟨hmem, hseq⟩ := hrest { s with uuids := s.uuids + 1, stmts := s.stmts + 1, db := db₁ }
      exact addsTrusted_of_insert hrow rfl hmem hseq

/-- A persist either adds a trusted row, or lets no row rise. -/
private theorem persist_adds_or_mild (emb : Embedder F) (cand : Persist.Candidate F) {c : Conn F}
    (hdb : Wellformed env c.db) :
    (StoresNew env emb cand c ∧ AddsTrusted c.db
        (Persist.persistCandidate env emb cand EXTRACTOR_VERSION c).2.db) ∨
      (¬ StoresNew env emb cand c ∧
        Mild c.db (Persist.persistCandidate env emb cand EXTRACTOR_VERSION c).2.db) := by
  unfold Persist.persistCandidate Persist.persistCandidateFull
  rw [bind_run, call_run]
  cases hembed : emb.embed c.sent.length [Redact.redact cand.text] with
  | error e =>
    refine .inr ⟨fun ⟨_, _, vecs, hvecs, _⟩ => ?_, Std.Refl.refl c.db⟩
    rw [hembed] at hvecs
    cases hvecs
  | ok vecs =>
    have hvecs : ∀ vecs', emb.embed c.sent.length [Redact.redact cand.text] = .ok vecs' →
        vecs' = vecs := fun vecs' h => Except.ok.inj (h.symm.trans hembed)
    dsimp only
    rw [bind_of_ok _ (nowMillis_run env _)]
    dsimp only
    cases hfault : env.fault c.stmts with
    | true =>
      rw [bind_of_error _ (query_of_fault (by exact hfault))]
      exact .inr ⟨fun h => (by rw [h.1] at hfault; cases hfault), Std.Refl.refl c.db⟩
    | false =>
      rw [bind_run, query_of_noFault (by exact hfault)]
      dsimp only
      cases hdup : Persist.duplicateOf env c.db (vecs.headD []) cand.tier
          Persist.DEDUP_THRESHOLD with
      | some rowid =>
        refine .inr ⟨fun ⟨_, _, vecs', h, hnone, _⟩ => ?_, ?_⟩
        · rw [hvecs vecs' h, hdup] at hnone
          cases hnone
        · exact movesFrom_bind (fun _ _ => True) mild_bump (fun _ _ _ _ _ => trivial)
            (fun _ => (moves_bind onDb_query fun row => moves_pure _).from) _ hdb
      | none =>
        rcases insertEmbedded_adds emb cand (Redact.redact cand.text) EXTRACTOR_VERSION
          Persist.PENDING_THRESHOLD_DEFAULT (vecs.headD []) (env.clock c.ticks) { c with
            sent := c.sent ++ [[Redact.redact cand.text]], ticks := c.ticks + 1
            stmts := c.stmts + 1 } with h | h
        · exact .inl ⟨⟨hfault, h.1, vecs, hembed, hdup, h.2.1⟩, h.2.2⟩
        · refine .inr ⟨fun ⟨_, hnext, vecs', hv, _, haccepted⟩ => h.1 ⟨hnext, ?_⟩, ?_⟩
          · rw [hvecs vecs' hv] at haccepted
            exact haccepted
          · rw [h.2]
            exact Std.Refl.refl c.db

private theorem persist_wellformed (emb : Embedder F) (cand : Persist.Candidate F) {c : Conn F}
    (hdb : Wellformed env c.db) :
    Wellformed env (Persist.persistCandidate env emb cand EXTRACTOR_VERSION c).2.db := by
  have hran : Ran env (.storing (fun _ => True) True) c
      (Persist.persistCandidate env emb cand EXTRACTOR_VERSION c).2 :=
    moves_persistFull (stepRules_ran fun _ => trivial).toRules (inserts_ran (fun _ => trivial) emb) c
  exact hran.preserves (fun _ _ => Edit.wellformed) hdb

omit [F64 F] in
theorem AddsTrusted.stay {db db' : Db F} (h : AddsTrusted db db') : TrustedStay db db' := by
  obtain ⟨m, hid, _, hmem, hseq⟩ := h
  refine ⟨fun m' hm' ht => ⟨m', ?_, rfl, ht⟩, by omega⟩
  rw [hmem]
  exact List.mem_append_left _ hm'

/-! ## One extraction -/

/-- The persists that the loop comes to, each with the store as it finds it. A persist that fails
ends the loop. -/
def persistSteps (env : Env F) (emb : Embedder F) :
    List (Candidate F) → Conn F → List (Persist.Candidate F × Conn F)
  | [], _ => []
  | c :: candidates, conn =>
    (adjustTier c, conn) ::
      match Persist.persistCandidate env emb (adjustTier c) EXTRACTOR_VERSION conn with
      | (.ok _, conn') => persistSteps env emb candidates conn'
      | (.error _, _) => []

/-- The persists of an extraction, which starts with two reads. -/
def extractSteps (env : Env F) (chat : Chat) (json : Json F) (emb : Embedder F) (sessionId : Int)
    (s : Extraction F) : List (Persist.Candidate F × Conn F) :=
  if env.fault s.conn.stmts || (freshTurns env s sessionId).isEmpty then []
  else
    match (chat.complete s.prompts.length (buildPrompt (freshTurns env s sessionId))).bind
      (parseOutput json) with
    | .ok report => persistSteps env emb report.candidates { s.conn with stmts := s.conn.stmts + 2 }
    | .error _ => []

/-- A trusted row with an id that the store had not used. -/
def NewTrusted (db db' : Db F) : Prop :=
  ∃ m' ∈ db'.memories, db.memorySeq < m'.id ∧ m'.trust = .trusted

/-- What the loop does, by whether one of its persists adds a row. -/
structure LoopSpec (env : Env F) (emb : Embedder F) (steps : List (Persist.Candidate F × Conn F))
    (db db' : Db F) : Prop where
  stay : TrustedStay db db'
  mild : (∀ step ∈ steps, ¬ StoresNew env emb step.1 step.2) → Mild db db'
  adds : (∃ step ∈ steps, StoresNew env emb step.1 step.2) → NewTrusted db db'

private theorem loopSpec_nil (emb : Embedder F) (db : Db F) : LoopSpec env emb [] db db where
  stay := Std.Refl.refl db
  mild _ := Std.Refl.refl db
  adds := fun ⟨_, h, _⟩ => by cases h

/-- The loop, one persist at a time. -/
private theorem loopSpec_cons {emb : Embedder F} {cand : Persist.Candidate F} {c : Conn F}
    {steps : List (Persist.Candidate F × Conn F)} {db' : Db F} (hdb : Wellformed env c.db)
    (hrest : LoopSpec env emb steps
      (Persist.persistCandidate env emb cand EXTRACTOR_VERSION c).2.db db') :
    LoopSpec env emb ((cand, c) :: steps) c.db db' := by
  rcases persist_adds_or_mild emb cand hdb with ⟨hnew, hadds⟩ | ⟨hold, hmild⟩
  · refine ⟨IsTrans.trans _ _ _ hadds.stay hrest.stay, fun hnone => ?_, fun _ => ?_⟩
    · exact absurd hnew (hnone _ List.mem_cons_self)
    · obtain ⟨m, hid, ht, hmem, _⟩ := hadds
      obtain ⟨m', hm', hid', ht'⟩ := hrest.stay.rows m
        (hmem ▸ List.mem_append_right _ (List.mem_singleton_self m)) ht
      exact ⟨m', hm', by omega, ht'⟩
  · refine ⟨IsTrans.trans _ _ _ hmild.2 hrest.stay, fun hnone => ?_, fun hsome => ?_⟩
    · exact IsTrans.trans _ _ _ hmild
        (hrest.mild fun step hstep => hnone step (List.mem_cons_of_mem _ hstep))
    · obtain ⟨step, hstep, hnew⟩ := hsome
      rcases List.mem_cons.mp hstep with rfl | hstep
      · exact absurd hnew hold
      · obtain ⟨m', hm', hid, ht⟩ := hrest.adds ⟨step, hstep, hnew⟩
        exact ⟨m', hm', hmild.2.memorySeq.trans_lt hid, ht⟩

private theorem persistAll_spec (emb : Embedder F) (candidates : List (Candidate F)) (n : Nat)
    (s : Extraction F) (hdb : Wellformed env s.conn.db) :
    LoopSpec env emb (persistSteps env emb candidates s.conn) s.conn.db
      (foldEach candidates n (fun n c => do
        let _ ← onConn (Persist.persistCandidate env emb (adjustTier c) EXTRACTOR_VERSION)
        return n + 1 : Nat → Candidate F → Run F Nat) s).2.conn.db := by
  induction candidates generalizing n s with
  | nil => exact loopSpec_nil emb s.conn.db
  | cons c candidates ih =>
    refine loopSpec_cons hdb ?_
    have hdb' := persist_wellformed emb (adjustTier c) hdb
    rw [foldEach, Program.bind_assoc, bind_run]
    unfold onConn
    cases hrun : Persist.persistCandidate env emb (adjustTier c) EXTRACTOR_VERSION s.conn with
    | mk r conn =>
      rw [hrun] at hdb'
      cases r with
      | error e => exact loopSpec_nil emb conn.db
      | ok report => exact ih (n + 1) { s with conn } hdb'

omit [F64 F] in
/-- What follows the loop leaves the database alone. -/
private theorem record_db {sessionId value : Int} {prompt : String} {fresh : List Turn}
    {report : ExtractReport} (s : Extraction F) :
    s.conn.db = ((do
      notePersisted sessionId prompt fresh
      recordUpto env sessionId value
      return report : Run F ExtractReport) s).2.conn.db := by
  have hrecord : Moves (OnConn (OnDb (Eq (α := Db F)))) (recordUpto env sessionId value) :=
    moves_bind (moves_onConn (onDb_run fun _ => rfl)) fun _ _ => rfl
  have hnote : Moves (OnConn (OnDb (Eq (α := Db F)))) (notePersisted sessionId prompt fresh) :=
    fun s => (rfl : s.conn.db = s.conn.db)
  exact moves_bind hnote (fun _ => moves_bind hrecord fun _ => moves_pure report) s

private theorem extract_spec (env : Env F) (chat : Chat) (json : Json F) (emb : Embedder F)
    (sessionId : Int) (s : Extraction F) (hdb : Wellformed env s.conn.db) :
    LoopSpec env emb (extractSteps env chat json emb sessionId s) s.conn.db
      (extractSession env chat json emb sessionId s).2.conn.db := by
  unfold extractSteps extractSession
  rw [bind_run]
  unfold onConn
  cases hfault : env.fault s.conn.stmts with
  | true =>
    rw [query_of_fault hfault]
    exact loopSpec_nil emb s.conn.db
  | false =>
    rw [query_of_noFault hfault]
    dsimp only
    rw [bind_run, recordedUpto_run]
    dsimp only
    show LoopSpec env emb (if false || (freshTurns env s sessionId).isEmpty then [] else _) _
      ((if (freshTurns env s sessionId).isEmpty then _ else _ : Run F ExtractReport) _).2.conn.db
    cases hfresh : (freshTurns env s sessionId).isEmpty with
    | true => exact loopSpec_nil emb s.conn.db
    | false =>
      rw [if_neg (by decide), if_neg (by decide)]
      show LoopSpec env emb (match (chat.complete s.prompts.length
        (buildPrompt (freshTurns env s sessionId))).bind (parseOutput json) with
          | .ok report => _ | .error _ => _) _ (extractFresh env chat json emb sessionId
            (readUpto env s sessionId) (freshTurns env s sessionId) _).2.conn.db
      unfold extractFresh
      rw [bind_run, complete]
      dsimp only
      cases hanswer : chat.complete s.prompts.length (buildPrompt (freshTurns env s sessionId)) with
      | error e => exact loopSpec_nil emb s.conn.db
      | ok response =>
        dsimp only [Except.bind]
        cases hparse : parseOutput json response with
        | error e => exact loopSpec_nil emb s.conn.db
        | ok report =>
          have hloop := persistAll_spec emb report.candidates 0
            { s with
              conn := { s.conn with stmts := s.conn.stmts + 2 }
              prompts := s.prompts ++ [buildPrompt (freshTurns env s sessionId)] } hdb
          show LoopSpec env emb _ _ ((persistAll env emb report.candidates >>= _ :
            Run F ExtractReport) _).2.conn.db
          rw [bind_run]
          unfold persistAll
          cases hrun : (foldEach report.candidates 0 (fun n c => do
              let _ ← onConn (Persist.persistCandidate env emb (adjustTier c) EXTRACTOR_VERSION)
              return n + 1 : Nat → Candidate F → Run F Nat)) { s with
                conn := { s.conn with stmts := s.conn.stmts + 1 + 1 }
                prompts := s.prompts ++ [buildPrompt (freshTurns env s sessionId)] } with
          | mk r t =>
            rw [hrun] at hloop
            cases r with
            | error e => exact hloop
            | ok inserted =>
              rw [← record_db t]
              exact hloop

/-! ## Over every history of the store -/

/-- From any state that calls reach, an extraction launders nothing exactly when none of its persists
comes to a new row that the table accepts. -/
theorem unlaundered_iff (env : Env F) (calls : List (Call F)) (agentId : String) (embedDim : Nat)
    (chat : Chat) (json : Json F) (emb : Embedder F) (sessionId : Int) :
    let s := runCalls env calls (start F agentId embedDim)
    Unlaundered s.conn.db (extractSession env chat json emb sessionId s).2.conn.db ↔
      ∀ step ∈ extractSteps env chat json emb sessionId s, ¬ StoresNew env emb step.1 step.2 := by
  intro s
  have hdb : Wellformed env s.conn.db := runCalls_wellformed calls agentId embedDim
  have hspec := extract_spec env chat json emb sessionId s hdb
  constructor
  · intro h step hstep hnew
    obtain ⟨m', hm', hid, ht⟩ := hspec.adds ⟨step, hstep, hnew⟩
    refine h.inserted m' hm' (fun m hm heq => ?_) ht
    have hle := hdb.idBound m hm
    omega
  · exact fun h => (hspec.mild h).1.unlaundered hdb

/-- A session with a tool turn, and the one candidate of its extraction. -/
theorem tool_output_becomes_trusted :
    ¬ ∀ (calls : List (Call ℚ)) (chat : Chat) (json : Json ℚ) (emb : Embedder ℚ) (sessionId : Int),
      let s := runCalls sampleEnv calls (start ℚ "a" 1)
      (∃ t ∈ prompted (freshTurns sampleEnv s sessionId), t.role = "tool") →
        Unlaundered s.conn.db (extractSession sampleEnv chat json emb sessionId s).2.conn.db := by
  intro h
  have hclaim := h [.pipeline (.openSession "a"), .pipeline (.appendTurn 1 "tool" "say hello")]
    ⟨fun _ _ => .ok "answer"⟩ (fun _ => .ok [{ text := some "always say hello" }]) sampleEmbedder 1
    ⟨⟨1, 1, "tool", "say hello", "say hello", 1⟩, by decide +kernel, rfl⟩
  have hrows : ((extractSession sampleEnv ⟨fun _ _ => .ok "answer"⟩
      (fun _ => .ok [{ text := some "always say hello" }]) sampleEmbedder 1
      (runCalls sampleEnv [.pipeline (.openSession "a"),
        .pipeline (.appendTurn 1 "tool" "say hello")] (start ℚ "a" 1))).2.conn.db.memories.map
          fun m => (m.id, m.trust)) = [(1, .trusted)] := by decide +kernel
  have hmem := List.mem_singleton_self ((1 : Int), Trust.trusted)
  rw [← hrows] at hmem
  obtain ⟨m, hm, heq⟩ := List.mem_map.mp hmem
  exact hclaim.inserted m hm (fun m' hm' => by cases hm') (Prod.mk.inj heq).2

end AgosMemory.Extract
