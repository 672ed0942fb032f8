import AgosMemory.Memory.Persist
import AgosMemory.Storage.Edits

/-!
# Frames

What a program leaves alone. A preorder on databases that every statement of a program respects, the
program respects, whatever its outcome.
-/

namespace AgosMemory.Store

open Library Library.Program

variable {F : Type}

/-- The databases before and after a program are related. -/
def OnDb (T : Db F → Db F → Prop) (c c' : Conn F) : Prop := T c.db c'.db

variable {T : Db F → Db F → Prop} {env : Env F}

instance [h : Std.Refl T] : Std.Refl (OnDb T) where
  refl c := h.refl c.db

instance [h : IsTrans (Db F) T] : IsTrans (Conn F) (OnDb T) where
  trans _ _ _ hab hbc := h.trans _ _ _ hab hbc

/-- Every statement is counted, whatever its outcome. -/
theorem exec_stmts {α : Type} (f : Db F → Except Error (α × Db F)) (s : Conn F) :
    (exec env f s).2.stmts = s.stmts + 1 := by
  unfold exec
  simp only
  split
  · rfl
  · split <;> rfl

/-- A statement that succeeds counts itself and writes the database. -/
theorem exec_ok_conn {α : Type} {f : Db F → Except Error (α × Db F)} {s t : Conn F} {a : α}
    (h : exec env f s = (.ok a, t)) :
    t = { s with stmts := s.stmts + 1, db := t.db } ∧ f s.db = .ok (a, t.db) := by
  refine ⟨?_, exec_ok h⟩
  unfold exec at h
  simp only at h
  split at h
  · cases h
  split at h
  · rw [← (Prod.mk.inj h).2]
  · cases h

theorem exec_of_fault {α : Type} {f : Db F → Except Error (α × Db F)} {c : Conn F}
    (h : env.fault c.stmts = true) :
    exec env f c = (.error (.storage "disk I/O error"), { c with stmts := c.stmts + 1 }) := by
  unfold exec
  rw [if_pos h]

theorem exec_of_ok {α : Type} {f : Db F → Except Error (α × Db F)} {c : Conn F} {a : α}
    {db : Db F} (h : env.fault c.stmts = false) (hf : f c.db = .ok (a, db)) :
    exec env f c = (.ok a, { c with stmts := c.stmts + 1, db }) := by
  unfold exec
  rw [h, hf]
  rfl

theorem exec_of_error {α : Type} {f : Db F → Except Error (α × Db F)} {c : Conn F} {e : Error}
    (h : env.fault c.stmts = false) (hf : f c.db = .error e) :
    exec env f c = (.error e, { c with stmts := c.stmts + 1 }) := by
  unfold exec
  rw [h, hf]
  rfl

theorem query_of_fault {α : Type} {f : Db F → Except Error α} {c : Conn F}
    (h : env.fault c.stmts = true) :
    query env f c = (.error (.storage "disk I/O error"), { c with stmts := c.stmts + 1 }) :=
  exec_of_fault h

theorem query_of_noFault {α : Type} {f : Db F → Except Error α} {c : Conn F}
    (h : env.fault c.stmts = false) :
    query env f c = (f c.db, { c with stmts := c.stmts + 1 }) := by
  unfold query
  cases hf : f c.db with
  | ok a => exact exec_of_ok h (by rw [hf]; rfl)
  | error e => exact exec_of_error h (by rw [hf]; rfl)

theorem dimRead_of_noFault {c : Conn F} (h : env.fault c.stmts = false) :
    dimRead env c = c.db.embedDim := by
  rw [dimRead, h]
  rfl

theorem embedDim_ok {c c' : Conn F} {dim : Nat} (h : embedDim env c = (.ok dim, c')) :
    dim = dimRead env c ∧ c'.db = c.db := by
  obtain ⟨hdim, hc⟩ := Prod.mk.inj h
  exact ⟨(Except.ok.inj hdim).symm, hc ▸ rfl⟩

theorem nowMillis_run (env : Env F) (c : Conn F) :
    nowMillis env c = (.ok (env.clock c.ticks), { c with ticks := c.ticks + 1 }) := rfl

theorem call_run (emb : Embedder F) (texts : List String) (c : Conn F) :
    emb.call texts c = (emb.embed c.sent.length texts, { c with sent := c.sent ++ [texts] }) := rfl

theorem run_of_fault {f : Db F → Db F} {c : Conn F} (h : env.fault c.stmts = true) :
    run env f c = (.error (.storage "disk I/O error"), { c with stmts := c.stmts + 1 }) :=
  exec_of_fault h

theorem run_of_noFault {f : Db F → Db F} {c : Conn F} (h : env.fault c.stmts = false) :
    run env f c = (.ok (), { c with stmts := c.stmts + 1, db := f c.db }) := by
  unfold run exec
  rw [h]
  rfl

section

variable [Std.Refl T]

theorem onDbFrom_exec {α : Type} {P : Conn F → Prop} {f : Db F → Except Error (α × Db F)}
    (h : ∀ c a db', P c → f c.db = .ok (a, db') → T c.db db') :
    MovesFrom P (OnDb T) (exec env f) := by
  intro s hs
  have hrun : exec env f s = ((exec env f s).1, (exec env f s).2) := rfl
  obtain ⟨_, _, ⟨_, hdb⟩ | ⟨a, _, hf⟩⟩ := exec_cases hrun
  · show T s.db _
    rw [hdb]
    exact Std.Refl.refl s.db
  · exact h _ _ _ hs hf

theorem onDb_exec {α : Type} {f : Db F → Except Error (α × Db F)}
    (h : ∀ db a db', f db = .ok (a, db') → T db db') : Moves (OnDb T) (exec env f) := fun s =>
  onDbFrom_exec (P := fun _ => True) (fun c a db' _ => h c.db a db') s trivial

theorem onDb_run {f : Db F → Db F} (h : ∀ db, T db (f db)) : Moves (OnDb T) (run env f) :=
  onDb_exec fun db _ _ heq => (Prod.mk.inj (Except.ok.inj heq)).2 ▸ h db

/-- A program that leaves the database as it is. -/
theorem onDb_same {α : Type} {m : Write F α} (h : ∀ s, (m s).2.db = s.db) : Moves (OnDb T) m := by
  intro s
  show T s.db _
  rw [h s]
  exact Std.Refl.refl s.db

theorem onDb_query {α : Type} {f : Db F → Except Error α} : Moves (OnDb T) (query env f) :=
  onDb_same (query_db f)

theorem onDb_embedDim : Moves (OnDb T) (embedDim env) := onDb_same fun _ => rfl

theorem onDb_nowMillis : Moves (OnDb T) (nowMillis env) := onDb_same fun _ => rfl

theorem onDb_newUuid : Moves (OnDb T) (newUuid env) := onDb_same fun _ => rfl

theorem onDb_call {emb : Embedder F} {texts : List String} : Moves (OnDb T) (emb.call texts) :=
  onDb_same fun _ => rfl

end

/-- A program that leaves the database as it is fails so, or hands over to what follows it. -/
theorem same_bind {α β : Type} {m : Write F α} (hm : ∀ s, (m s).2.db = s.db) (k : α → Write F β)
    (s : Conn F) :
    ((m >>= k) s).2.db = s.db ∨
      ∃ a t, m s = (.ok a, t) ∧ t.db = s.db ∧ (m >>= k) s = k a t := by
  have h := hm s
  rw [bind_run]
  cases hms : m s with
  | mk r t =>
    rw [hms] at h
    cases r with
    | ok a => exact .inr ⟨a, t, rfl, h, rfl⟩
    | error e => exact .inl h

/-! ## The closures that touch a row -/

section

variable [Std.Refl T] [IsTrans (Db F) T]

theorem onDb_bump {shape : BumpShape} {id now : Int} {source : String}
    (hmerge : ∀ db db' trust kept cluster,
      mergeSource shape id trust kept source cluster now db = .ok ((), db') → T db db')
    (hvec : ∀ db (trust : Trust), T db (db.updateVec id fun v => { v with trust := trust.code }))
    (hlink : ∀ db db', linkRefines id now db = .ok ((), db') → T db db') :
    Moves (OnDb T) (bump env shape id source now) := by
  unfold bump
  refine moves_bind onDb_query fun current => ?_
  refine moves_bind ?_ fun cluster => ?_
  · unfold clusterOf
    split
    · exact onDb_query
    · exact moves_pure none
  refine moves_bind (onDb_exec fun db _ db' h => hmerge _ _ _ _ _ h) fun _ => ?_
  refine moves_bind (moves_onlyIf (onDb_run fun db => hvec db _)) fun _ => ?_
  exact moves_onlyIf (onDb_exec fun db _ db' h => hlink _ _ h)

theorem onDb_update {id : Int} {text : String} {source reason createdBy : Option String}
    (hversion : ∀ (db db' : Db F) v, insertVersion v db = .ok ((), db') → T db db')
    (hretext : ∀ db db' trust kept now,
      retext id text (env.sha256Hex text) trust kept source now db = .ok ((), db') → T db db')
    (hvec : ∀ db (trust : Trust), T db (db.updateVec id fun v => { v with trust := trust.code })) :
    Moves (OnDb T) (updateMemoryWithProvenance env id text source reason createdBy) := by
  unfold updateMemoryWithProvenance
  refine moves_bind onDb_query fun version => ?_
  refine moves_bind (moves_attempt onDb_query) fun prev => ?_
  refine moves_bind onDb_nowMillis fun now => ?_
  refine moves_bind (onDb_exec fun db _ db' h => hversion _ _ _ h) fun _ => ?_
  refine moves_bind onDb_query fun current => ?_
  refine moves_bind (onDb_exec fun db _ db' h => hretext _ _ _ _ _ h) fun _ => ?_
  refine moves_bind (onDb_run fun db => hvec db _) fun _ => ?_
  exact onDb_query

theorem onDb_setMemoryPinned {id : Int} {pinned : Bool} {requester : String}
    (hrow : ∀ db (code now : Int),
      T db (db.updateMemory id fun m => { m with pinned := code, updatedAt := now }))
    (hvec : ∀ db (code : Int), T db (db.updateVec id fun v => { v with pinned := code }))
    (hpins : ∀ db (entry : List Pin), (∀ p ∈ entry, p.memoryId = id) → T db
      { db with pins := (db.pins.filter fun p => p.memoryId ≠ id) ++ entry }) :
    Moves (OnDb T) (setMemoryPinned env id pinned requester) := by
  unfold setMemoryPinned
  refine moves_bind onDb_nowMillis fun now => ?_
  refine moves_bind (onDb_exec fun db changed db' h => ?_) fun changed => ?_
  · obtain ⟨_, rfl⟩ := Prod.mk.inj (Except.ok.inj h)
    exact hrow db _ _
  split
  · exact moves_pure _
  refine moves_bind (onDb_run fun db => hvec db _) fun _ => ?_
  refine moves_bind ?_ fun _ => moves_pure _
  unfold recordPin
  split
  · refine onDb_exec fun db _ db' h => ?_
    split at h
    · cases h
    · obtain ⟨_, rfl⟩ := Prod.mk.inj (Except.ok.inj h)
      exact hpins db _ fun p hp => by rw [List.mem_singleton.mp hp]
  · refine onDb_run fun db => ?_
    have hnone := hpins db [] (List.forall_mem_nil _)
    rw [List.append_nil] at hnone
    exact hnone

theorem onDb_softChange {id : Int} {action requester : String} {reason : Option String}
    {status : Status} {change : Int → Memory F → Memory F}
    (hrow : ∀ db now, T db (restate id status (change now) db))
    (haudit : ∀ (db : Db F) (row : ForgetAudit), row.action = action →
      T db { db with forgetAudit := db.forgetAudit ++ [row] }) :
    Moves (OnDb T) (softChange env id action requester reason status change) := by
  unfold softChange
  refine moves_bind onDb_nowMillis fun now => ?_
  refine moves_bind onDb_query fun publicId => ?_
  refine moves_bind (onDb_run fun db => hrow db now) fun _ => ?_
  cases publicId with
  | none => exact moves_pure ()
  | some pid => exact onDb_run fun db => haudit db _ rfl

end

/-! ## Writes of memories -/

/-- Two databases that agree on the tables no write of a memory touches. -/
structure SameRest (db db' : Db F) : Prop where
  embedDim : db'.embedDim = db.embedDim
  recallItems : db'.recallItems = db.recallItems
  tombstones : db'.tombstones = db.tombstones
  forgetAudit : db'.forgetAudit = db.forgetAudit
  sessions : db'.sessions = db.sessions
  sessionSeq : db'.sessionSeq = db.sessionSeq
  turns : db'.turns = db.turns
  manifest : db'.manifest = db.manifest

instance : Std.Refl (SameRest (F := F)) where
  refl _ := ⟨rfl, rfl, rfl, rfl, rfl, rfl, rfl, rfl⟩

instance : IsTrans (Db F) SameRest where
  trans _ _ _ hab hbc := ⟨hbc.embedDim.trans hab.embedDim, hbc.recallItems.trans hab.recallItems,
    hbc.tombstones.trans hab.tombstones, hbc.forgetAudit.trans hab.forgetAudit,
    hbc.sessions.trans hab.sessions, hbc.sessionSeq.trans hab.sessionSeq,
    hbc.turns.trans hab.turns, hbc.manifest.trans hab.manifest⟩

private theorem sameRest_updateMemory {db : Db F} {id : Int} {f : Memory F → Memory F} :
    SameRest db (db.updateMemory id f) := ⟨rfl, rfl, rfl, rfl, rfl, rfl, rfl, rfl⟩

private theorem sameRest_updateVec {db : Db F} {rowid : Int} {f : VecRow F → VecRow F} :
    SameRest db (db.updateVec rowid f) := ⟨rfl, rfl, rfl, rfl, rfl, rfl, rfl, rfl⟩

theorem sameRest_restate {db : Db F} {id : Int} {status : Status} {f : Memory F → Memory F} :
    SameRest db (restate id status f db) := ⟨rfl, rfl, rfl, rfl, rfl, rfl, rfl, rfl⟩

theorem sameRest_insertVersion {v : MemoryVersion} {db db' : Db F}
    (h : insertVersion v db = .ok ((), db')) : SameRest db db' := by
  obtain ⟨_, _, rfl⟩ := insertVersion_ok h
  exact ⟨rfl, rfl, rfl, rfl, rfl, rfl, rfl, rfl⟩

theorem sameRest_insertVec {v : VecRow F} {db db' : Db F} (h : insertVec v db = .ok ((), db')) :
    SameRest db db' := by
  obtain ⟨_, rfl⟩ := insertVec_ok h
  exact ⟨rfl, rfl, rfl, rfl, rfl, rfl, rfl, rfl⟩

private theorem sameRest_mergeSource {shape : BumpShape} {id : Int} {trust : Trust}
    {sourceKind incoming : String} {cluster : Option String} {now : Int} {db db' : Db F}
    (h : mergeSource shape id trust sourceKind incoming cluster now db = .ok ((), db')) :
    SameRest db db' := by
  obtain ⟨sk, merged, bumps, rfl⟩ := mergeSource_update h
  exact ⟨rfl, rfl, rfl, rfl, rfl, rfl, rfl, rfl⟩

private theorem sameRest_retext {id : Int} {text textHash : String} {trust : Trust}
    {sourceKind : String}
    {incoming : Option String} {now : Int} {db db' : Db F}
    (h : retext id text textHash trust sourceKind incoming now db = .ok ((), db')) :
    SameRest db db' := by
  obtain ⟨sk, merged, rewrites, rfl⟩ := retext_update h
  exact ⟨rfl, rfl, rfl, rfl, rfl, rfl, rfl, rfl⟩

theorem sameRest_linkRefines {id now : Int} {db db' : Db F}
    (h : linkRefines id now db = .ok ((), db')) : SameRest db db' := by
  obtain ⟨links, rfl⟩ := linkRefines_ok h
  exact ⟨rfl, rfl, rfl, rfl, rfl, rfl, rfl, rfl⟩

section

variable [F64 F]

theorem sameRest_insertMemoryRow {r : NewRow F} {m : Memory F} {db db' : Db F}
    (h : insertMemoryRow r db = .ok (m, db')) : SameRest db db' := by
  obtain ⟨_, _, rfl⟩ := insertMemoryRow_ok h
  exact ⟨rfl, rfl, rfl, rfl, rfl, rfl, rfl, rfl⟩

omit [F64 F] in
private theorem rest_touch {id : Int} {f : Memory F → Memory F} :
    Moves (OnDb SameRest) (run env fun db => db.updateMemory id f) :=
  onDb_run fun _ => sameRest_updateMemory

omit [F64 F] in
theorem rest_bump {shape : BumpShape} {id now : Int} {source : String} :
    Moves (OnDb SameRest) (bump env shape id source now) :=
  onDb_bump (fun _ _ _ _ _ h => sameRest_mergeSource h) (fun _ _ => sameRest_updateVec)
    fun _ _ h => sameRest_linkRefines h

theorem rest_insertMemory {m : NewMemory} : Moves (OnDb SameRest) (insertMemory env m) := by
  unfold insertMemory
  split
  · exact moves_fail _
  split
  · exact moves_fail _
  refine moves_bind onDb_newUuid fun publicId => ?_
  refine moves_bind onDb_nowMillis fun now => ?_
  refine moves_bind moves_get fun c => ?_
  refine moves_bind (onDb_exec fun db row db' h => sameRest_insertMemoryRow h) fun row => ?_
  refine moves_bind (onDb_exec fun db _ db' h => sameRest_insertVersion h) fun _ => ?_
  exact moves_pure _

omit [F64 F] in
theorem rest_update {id : Int} {text : String} {source reason createdBy : Option String} :
    Moves (OnDb SameRest) (updateMemoryWithProvenance env id text source reason createdBy) :=
  onDb_update (fun _ _ _ h => sameRest_insertVersion h) (fun _ _ _ _ _ h => sameRest_retext h)
    fun _ _ => sameRest_updateVec

omit [F64 F] in
theorem rest_rollback {id version : Int} {createdBy : Option String} :
    Moves (OnDb SameRest) (rollbackMemory env id version createdBy) := by
  unfold rollbackMemory
  refine moves_bind onDb_query fun target => ?_
  cases target with
  | none => exact moves_fail _
  | some target => exact rest_update

omit [F64 F] in
theorem rest_setSourceRef {id : Int} {sourceRef : String} :
    Moves (OnDb SameRest) (setSourceRef env id sourceRef) := by
  unfold setSourceRef
  split
  · exact moves_fail _
  · exact moves_bind onDb_nowMillis fun now => rest_touch

omit [F64 F] in
theorem rest_setSummary {id : Int} {summary : String} {tokens : Int} :
    Moves (OnDb SameRest) (setSummary env id summary tokens) :=
  moves_bind onDb_nowMillis fun _ => rest_touch

omit [F64 F] in
theorem rest_setDedupCluster {id : Int} {clusterId : String} :
    Moves (OnDb SameRest) (setDedupCluster env id clusterId) :=
  moves_bind onDb_nowMillis fun _ => rest_touch

omit [F64 F] in
theorem rest_bumpRefCount {id : Int} : Moves (OnDb SameRest) (bumpRefCount env id) :=
  moves_bind onDb_nowMillis fun _ => rest_touch

omit [F64 F] in
theorem rest_setMemoryPinned {id : Int} {pinned : Bool} {requester : String} :
    Moves (OnDb SameRest) (setMemoryPinned env id pinned requester) := by
  exact onDb_setMemoryPinned (fun _ _ _ => sameRest_updateMemory) (fun _ _ => sameRest_updateVec)
    fun _ _ _ => ⟨rfl, rfl, rfl, rfl, rfl, rfl, rfl, rfl⟩

/-! ## Persist paths -/

private theorem rest_insertFresh {cand : Persist.Candidate F} {text ev sk : String} {pending : F}
    {e : Persist.Embedded} {now : Int} :
    Moves (OnDb SameRest) (Persist.insertFresh env cand text ev sk pending e now) := by
  unfold Persist.insertFresh
  refine moves_bind onDb_newUuid fun publicId => ?_
  refine moves_bind moves_get fun c => ?_
  refine moves_bind (onDb_exec fun db m db' h => sameRest_insertMemoryRow h) fun row => ?_
  refine moves_bind (onDb_exec fun db _ db' h => sameRest_insertVersion h) fun _ => ?_
  exact moves_pure row

theorem rest_persistFull {emb : Embedder F} {cand : Persist.Candidate F} {ev sk : String}
    {pending dedup : F} :
    Moves (OnDb SameRest) (Persist.persistCandidateFull env emb cand ev sk pending dedup) := by
  unfold Persist.persistCandidateFull
  refine moves_bind onDb_call fun vecs => ?_
  refine moves_bind onDb_nowMillis fun now => ?_
  refine moves_bind onDb_query fun chosen => ?_
  cases chosen with
  | none =>
    refine moves_bind rest_insertFresh fun row => ?_
    refine moves_bind (onDb_exec fun db _ db' h => sameRest_insertVec h) fun _ => ?_
    exact moves_pure _
  | some rowid =>
    refine moves_bind rest_bump fun _ => ?_
    exact moves_bind onDb_query fun row => moves_pure _

theorem rest_persistNoVector {cand : Persist.Candidate F} {ev sk : String} {pending : F}
    {status : EmbedStatus} :
    Moves (OnDb SameRest) (Persist.persistCandidateNoVector env cand ev sk pending status) := by
  unfold Persist.persistCandidateNoVector
  refine moves_bind onDb_nowMillis fun now => ?_
  refine moves_bind onDb_query fun chosen => ?_
  cases chosen with
  | none => exact moves_bind rest_insertFresh fun row => moves_pure _
  | some id =>
    refine moves_bind rest_bump fun _ => ?_
    exact moves_bind onDb_query fun row => moves_pure _

theorem rest_remember {emb : Embedder F} {cand : Persist.Candidate F} {ev sk : String}
    {pending dedup : F} :
    Moves (OnDb SameRest) (Persist.remember env emb cand ev sk pending dedup) := by
  unfold Persist.remember
  refine moves_bind (moves_attempt rest_persistFull) fun outcome => ?_
  split
  · exact moves_pure _
  · exact moves_bind rest_persistNoVector fun report => moves_pure _
  · exact moves_fail _

end

end AgosMemory.Store
