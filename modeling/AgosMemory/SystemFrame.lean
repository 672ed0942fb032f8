import AgosMemory.SystemEdits
import AgosMemory.Storage.Frame
import AgosMemory.Storage.Wellformed

/-!
# The forgetting ledger under every operation

Only a purge writes tombstones and the audit rows of a purge. An import adds rows under the public
ids of its own batches, and refuses a batch that names a tombstoned one.
-/

namespace AgosMemory

open Library Library.Program Store

variable {F : Type} [F64 F] {env : Env F}

/-! ## Import -/

section Import

open Export

/-- Every row has the name of an earlier one, or one of `names`. -/
structure NewFrom (names : String → Prop) (db db' : Db F) : Prop where
  tombstones : db'.tombstones = db.tombstones
  memories : ∀ m' ∈ db'.memories,
    (∃ m ∈ db.memories, m.id = m'.id ∧ m.publicId = m'.publicId) ∨ names m'.publicId

variable {names : String → Prop}

omit [F64 F] in
theorem onDb_embedFresh {T : Db F → Db F → Prop} [Std.Refl T] {emb : Embedder F} {dim : Nat}
    {inputs : List String} : Moves (OnDb T) (embedFresh emb dim inputs) := by
  unfold embedFresh
  split
  · exact onDb_call
  · exact moves_pure (ε := Error) []

omit [F64 F] in
instance : Std.Refl (NewFrom (F := F) names) where
  refl _ := ⟨rfl, fun m' hm' => .inl ⟨m', hm', rfl, rfl⟩⟩

omit [F64 F] in
instance : IsTrans (Db F) (NewFrom names) where
  trans a b c hab hbc := by
    refine ⟨hbc.tombstones.trans hab.tombstones, fun m'' hm'' => ?_⟩
    rcases hbc.memories m'' hm'' with ⟨m', hm', hid, hname⟩ | hnew
    · rcases hab.memories m' hm' with ⟨m, hm, hid', hname'⟩ | hnew
      · exact .inl ⟨m, hm, hid'.trans hid, hname'.trans hname⟩
      · exact .inr (hname ▸ hnew)
    · exact .inr hnew

omit [F64 F] in
theorem NewFrom.of_memories {db db' : Db F} (htombstones : db'.tombstones = db.tombstones)
    (hmemories : db'.memories = db.memories) : NewFrom names db db' :=
  ⟨htombstones, fun m' hm' => .inl ⟨m', hmemories ▸ hm', rfl, rfl⟩⟩

omit [F64 F] in
private theorem newFrom_updateMemory {db db' : Db F} {id : Int} {f : Memory F → Memory F}
    (hid : ∀ m, (f m).id = m.id) (hname : ∀ m, (f m).publicId = m.publicId)
    (htombstones : db'.tombstones = db.tombstones)
    (hmemories : db'.memories = (db.updateMemory id f).memories) : NewFrom names db db' := by
  refine ⟨htombstones, fun m' hm' => .inl ?_⟩
  rw [hmemories] at hm'
  obtain ⟨m, hm, rfl⟩ := mem_updateMemory.mp hm'
  refine ⟨m, hm, ?_⟩
  split
  · exact ⟨(hid m).symm, (hname m).symm⟩
  · exact ⟨rfl, rfl⟩

omit [F64 F] in
private theorem newFrom_bump {shape : BumpShape} {id now : Int} {source : String} :
    Moves (OnDb (NewFrom names)) (bump env shape id source now) := by
  refine onDb_bump (fun db db' _ _ _ h => ?_) (fun _ _ => .of_memories rfl rfl) fun db db' h => ?_
  · obtain ⟨sk, merged, bumps, rfl⟩ := mergeSource_update h
    exact newFrom_updateMemory (by exact fun _ => rfl) (by exact fun _ => rfl) rfl rfl
  · exact .of_memories (sameRest_linkRefines h).tombstones (memories_of_linkRefines h)

omit [F64 F] in
private theorem newFrom_update {id : Int} {text : String} {source reason createdBy : Option String} :
    Moves (OnDb (NewFrom names))
      (updateMemoryWithProvenance env id text source reason createdBy) := by
  refine onDb_update (fun db db' _ h => ?_) (fun db db' _ _ _ h => ?_)
    fun _ _ => .of_memories rfl rfl
  · obtain ⟨_, _, rfl⟩ := insertVersion_ok h
    exact .of_memories rfl rfl
  · obtain ⟨sk, merged, rewrites, rfl⟩ := retext_update h
    exact newFrom_updateMemory (by exact fun _ => rfl) (by exact fun _ => rfl) rfl rfl

private theorem newFrom_insertRow {emb : Embedder F} {agent : String} {dim : Nat} {now : Int}
    {p : PlannedRow F} (hname : names p.row.publicId) :
    Moves (OnDb (NewFrom names)) (insertRow env emb agent dim now p) := by
  unfold insertRow
  refine moves_bind (onDb_exec fun db m db' h => ?_) fun m => ?_
  · obtain ⟨hbuilt, _, rfl⟩ := insertMemoryRow_ok h
    refine ⟨rfl, fun m' hm' => ?_⟩
    rcases List.mem_append.mp hm' with hm' | hm'
    · exact .inl ⟨m', hm', rfl, rfl⟩
    · obtain rfl := List.mem_singleton.mp hm'
      refine .inr ?_
      rw [hbuilt.publicId]
      exact hname
  refine moves_bind (onDb_exec fun db _ db' h => ?_) fun _ => ?_
  · obtain ⟨_, _, rfl⟩ := insertVersion_ok h
    exact .of_memories rfl rfl
  split
  · exact moves_pure ()
  · refine onDb_exec fun db _ db' h => ?_
    obtain ⟨_, rfl⟩ := insertVec_ok h
    exact .of_memories rfl rfl

private theorem newFrom_writeRow {emb : Embedder F} {agent : String} {dim : Nat} {now : Int}
    {p : PlannedRow F} (hname : names p.row.publicId) :
    Moves (OnDb (NewFrom names)) (writeRow env emb agent dim now p) := by
  unfold writeRow
  split
  · exact newFrom_bump
  · exact moves_pure ()
  · exact newFrom_insertRow hname

omit [F64 F] in
private theorem newFrom_versionConflict {p : PlannedRow F} :
    Moves (OnDb (NewFrom names)) (versionConflict env p) := by
  unfold versionConflict
  split
  · exact moves_bind newFrom_update fun _ => moves_pure ()
  all_goals exact moves_pure ()

/-- No row appears under a tombstoned public id. -/
def NoRevival (db db' : Db F) : Prop :=
  NewFrom (fun name => ∀ t ∈ db.tombstones, t.publicId ≠ name) db db'

omit [F64 F] in
instance : Std.Refl (NoRevival (F := F)) where
  refl db := Std.Refl.refl (r := NewFrom _) db

omit [F64 F] in
instance : IsTrans (Db F) NoRevival where
  trans a b c hab hbc := by
    unfold NoRevival at hbc
    rw [hab.tombstones] at hbc
    exact IsTrans.trans (r := NewFrom _) a b c hab hbc

omit [F64 F] in
/-- A batch that names a tombstoned public id is refused. -/
private theorem classifyAll_tombstones {db : Db F} {agent : String} {batch : List (Nat × ExportRow F)}
    {fates : List Fate} (h : classifyAll db agent batch = .ok fates) :
    ∀ r ∈ batch, ∀ t ∈ db.tombstones, t.publicId ≠ r.2.publicId := by
  induction batch generalizing fates with
  | nil => exact fun r hr => absurd hr List.not_mem_nil
  | cons r batch ih =>
    obtain ⟨lineNo, row⟩ := r
    rw [classifyAll] at h
    simp only [bind, Except.bind, pure, Except.pure] at h
    split at h
    · cases h
    next fate hfate =>
    split at h
    · cases h
    next rest hrest =>
    intro r hr t ht heq
    rcases List.mem_cons.mp hr with rfl | hr
    · unfold classify at hfate
      rw [if_pos (List.any_eq_true.mpr ⟨t, ht, decide_eq_true heq⟩)] at hfate
      cases hfate
    · exact ih hrest r hr t ht heq

private theorem noRevival_processBatch {emb : Embedder F} {agent : String} {dim : Nat}
    {batch : List (Nat × ExportRow F)} {dryRun : Bool} :
    Moves (OnDb NoRevival) (processBatch env emb agent dim batch dryRun) := by
  unfold processBatch
  refine moves_bind_from
    (fun _ (c : Conn F) => ∀ r ∈ batch, ∀ t ∈ c.db.tombstones, t.publicId ≠ r.2.publicId)
    onDb_query (fun s fates t h => ?_) fun fates => ?_
  · obtain ⟨hfates, hdb⟩ := query_ok h
    rw [hdb]
    exact classifyAll_tombstones hfates
  split
  · exact (moves_pure _).from
  dsimp only
  intro s hnames
  refine moves_bind (R := OnDb (NewFrom fun name => ∀ t ∈ s.db.tombstones, t.publicId ≠ name))
    onDb_embedFresh (fun vectors => ?_) s
  refine moves_bind onDb_nowMillis fun now => ?_
  refine moves_bind (moves_forEach fun p hp => newFrom_writeRow ?_) fun _ => ?_
  · obtain ⟨⟨r, hr, hrow⟩, _⟩ := mem_planRows hp
    rw [hrow]
    exact hnames r hr
  refine moves_bind (moves_forEach fun p _ => newFrom_versionConflict) fun _ => ?_
  exact moves_pure _

private theorem noRevival_importLines {emb : Embedder F} {agent : String} {dim : Nat} {schema : Int}
    {dryRun : Bool} {lines : List (ImportLine F)} {lineNo : Nat} {batch : List (Nat × ExportRow F)}
    {stats : ImportStats} :
    Moves (OnDb NoRevival)
      (importLines env emb agent dim schema dryRun lines lineNo batch stats) := by
  induction lines generalizing lineNo batch stats with
  | nil =>
    rw [importLines]
    split
    · exact moves_pure _
    · exact moves_bind noRevival_processBatch fun _ => moves_pure _
  | cons line lines ih =>
    rcases line with _ | msg | row
    · exact ih
    · exact moves_fail _
    · rw [importLines]
      refine moves_bind (moves_lift _) fun _ => ?_
      dsimp only
      split
      · exact moves_bind noRevival_processBatch fun done => ih
      · exact ih

/-- No import brings a tombstoned memory back, whatever its outcome. -/
theorem noRevival_importFile {emb : Embedder F} {schema : Int} {file : ImportFile F}
    {dryRun : Bool} : Moves (OnDb NoRevival) (importFile env emb schema file dryRun) := by
  unfold importFile
  refine moves_bind (moves_lift _) fun _ => ?_
  refine moves_bind moves_get fun c => ?_
  refine moves_bind onDb_embedDim fun dim => ?_
  exact noRevival_importLines

/-! The same walk, for the tables that no write of a memory touches. -/

theorem rest_insertRow {emb : Embedder F} {agent : String} {dim : Nat} {now : Int}
    {p : PlannedRow F} : Moves (OnDb SameRest) (insertRow env emb agent dim now p) := by
  unfold insertRow
  refine moves_bind (onDb_exec fun db m db' h => sameRest_insertMemoryRow h) fun m => ?_
  refine moves_bind (onDb_exec fun db _ db' h => sameRest_insertVersion h) fun _ => ?_
  split
  · exact moves_pure ()
  · exact onDb_exec fun db _ db' h => sameRest_insertVec h

theorem rest_processBatch {emb : Embedder F} {agent : String} {dim : Nat}
    {batch : List (Nat × ExportRow F)} {dryRun : Bool} :
    Moves (OnDb SameRest) (processBatch env emb agent dim batch dryRun) := by
  unfold processBatch
  refine moves_bind onDb_query fun fates => ?_
  split
  · exact moves_pure _
  dsimp only
  refine moves_bind onDb_embedFresh fun vectors => ?_
  refine moves_bind onDb_nowMillis fun now => ?_
  refine moves_bind (moves_forEach fun p _ => ?_) fun _ => ?_
  · unfold writeRow
    split
    · exact rest_bump
    · exact moves_pure ()
    · exact rest_insertRow
  refine moves_bind (moves_forEach fun p _ => ?_) fun _ => moves_pure _
  unfold versionConflict
  split
  · exact moves_bind rest_update fun _ => moves_pure ()
  all_goals exact moves_pure ()

private theorem rest_importLines {emb : Embedder F} {agent : String} {dim : Nat} {schema : Int}
    {dryRun : Bool} {lines : List (ImportLine F)} {lineNo : Nat} {batch : List (Nat × ExportRow F)}
    {stats : ImportStats} :
    Moves (OnDb SameRest)
      (importLines env emb agent dim schema dryRun lines lineNo batch stats) := by
  induction lines generalizing lineNo batch stats with
  | nil =>
    rw [importLines]
    split
    · exact moves_pure _
    · exact moves_bind rest_processBatch fun _ => moves_pure _
  | cons line lines ih =>
    rcases line with _ | msg | row
    · exact ih
    · exact moves_fail _
    · rw [importLines]
      refine moves_bind (moves_lift _) fun _ => ?_
      dsimp only
      split
      · exact moves_bind rest_processBatch fun done => ih
      · exact ih

end Import

/-! ## Every operation but a purge -/

/-- The actions under which a purge is audited. -/
def PURGE_ACTIONS : List String := ["hard_delete", "ttl_purge"]

/-- No tombstone was written, and no audit row of a purge. -/
structure LedgerKept (db db' : Db F) : Prop where
  tombstones : db'.tombstones = db.tombstones
  audit : ∃ rows, db'.forgetAudit = db.forgetAudit ++ rows ∧ ∀ r ∈ rows, r.action ∉ PURGE_ACTIONS

omit [F64 F] in
theorem LedgerKept.of_same {db db' : Db F} (htombstones : db'.tombstones = db.tombstones)
    (haudit : db'.forgetAudit = db.forgetAudit) : LedgerKept db db' :=
  ⟨htombstones, [], by rw [haudit, List.append_nil], List.forall_mem_nil _⟩

omit [F64 F] in
private theorem ledgerKept_of_rest (db db' : Db F) (h : SameRest db db') : LedgerKept db db' :=
  .of_same h.tombstones h.forgetAudit

omit [F64 F] in
instance : Std.Refl (LedgerKept (F := F)) where
  refl _ := .of_same rfl rfl

omit [F64 F] in
instance : IsTrans (Db F) LedgerKept where
  trans _ _ _ hab hbc := by
    obtain ⟨rows, hrows, hsoft⟩ := hab.audit
    obtain ⟨rows', hrows', hsoft'⟩ := hbc.audit
    refine ⟨hbc.tombstones.trans hab.tombstones, rows ++ rows', ?_, fun r hr => ?_⟩
    · rw [hrows', hrows, List.append_assoc]
    · exact (List.mem_append.mp hr).elim (hsoft r) (hsoft' r)

omit [F64 F] in
private theorem ledger_of_rest {α : Type} {m : Write F α} (h : Moves (OnDb SameRest) m) :
    Moves (OnDb LedgerKept) m :=
  h.mono fun c c' hrest => ledgerKept_of_rest (F := F) c.db c'.db hrest

omit [F64 F] in
private theorem ledger_softChange {id : Int} {action requester : String} {reason : Option String}
    {status : Status} {change : Int → Memory F → Memory F} (hsoft : action ∉ PURGE_ACTIONS) :
    Moves (OnDb LedgerKept) (softChange env id action requester reason status change) := by
  refine onDb_softChange (fun _ _ => ledgerKept_of_rest _ _ sameRest_restate) fun db row haction =>
    ⟨rfl, _, rfl, fun r hr => ?_⟩
  rw [List.mem_singleton.mp hr, haction]
  exact hsoft

section Ingest

open Ingest

omit [F64 F] in
theorem onDb_openSession {T : Db F → Db F → Prop} [Std.Refl T] [IsTrans (Db F) T] {agentId : String}
    (h : ∀ db sessions sessionSeq, T db { db with sessions, sessionSeq }) :
    Moves (OnDb T) (Sessions.openSession env agentId) := by
  unfold Sessions.openSession
  split
  · exact moves_fail _
  refine moves_bind onDb_newUuid fun publicId => ?_
  refine moves_bind onDb_nowMillis fun now => ?_
  refine onDb_exec fun db session db' hopen => ?_
  split at hopen
  · cases hopen
  · obtain ⟨_, rfl⟩ := Prod.mk.inj (Except.ok.inj hopen)
    exact h db _ _

omit [F64 F] in
theorem onDb_appendTurn {T : Db F → Db F → Prop} [Std.Refl T] [IsTrans (Db F) T] {sessionId : Int}
    {role content : String} (h : ∀ db turns, T db { db with turns }) :
    Moves (OnDb T) (Sessions.appendTurn env sessionId role content) := by
  unfold Sessions.appendTurn
  split
  · exact moves_fail _
  split
  · exact moves_fail _
  refine moves_bind onDb_nowMillis fun now => ?_
  refine moves_bind onDb_query fun found => ?_
  split
  · exact moves_fail _
  refine moves_bind onDb_query fun seq => ?_
  refine moves_bind (onDb_run fun db => h db _) fun _ => ?_
  exact moves_pure _

omit [F64 F] in
private theorem ledger_recordDailyTurn {item : ParsedItem} :
    Moves (OnDb LedgerKept) (recordDailyTurn env item) := by
  unfold recordDailyTurn
  refine moves_bind moves_get fun c => ?_
  refine moves_bind onDb_query fun session => ?_
  have hturn : ∀ session : Session, Moves (OnDb LedgerKept)
      (Sessions.appendTurn env session.id "tool"
        ("[untrusted-file " ++ item.sourceRef ++ "] " ++ Redact.redact item.text) >>= fun _ =>
          pure ()) :=
    fun session => moves_bind (onDb_appendTurn fun _ _ => .of_same rfl rfl) fun _ => moves_pure ()
  cases session with
  | some session => exact hturn session
  | none => exact moves_bind (onDb_openSession fun _ _ _ => .of_same rfl rfl) hturn

omit [F64 F] in
theorem validateEmbedDim_db (emb : Embedder F) (s : Conn F) :
    (validateEmbedDim env emb s).2.db = s.db := by
  show ((if dimRead env s ≠ emb.dim then fail _ else pure ()) { s with stmts := s.stmts + 1 }).2.db = _
  split <;> rfl

private theorem rest_writeItem {cfg : IngestConfig F} {item : ParsedItem} :
    Moves (OnDb SameRest) (writeItem env cfg item) := by
  have hembedded : ∀ emb, Moves (OnDb SameRest) (writeEmbedded env cfg emb item) := fun emb =>
    moves_bind (onDb_same (validateEmbedDim_db emb)) fun _ => rest_persistFull
  unfold writeItem
  split
  · exact rest_persistNoVector
  · exact hembedded _
  · split
    · exact moves_fail _
    · exact hembedded _

private theorem ledger_ingestStep {cfg : IngestConfig F} {manifest : Manifest} {p : PlannedItem} :
    Moves (OnDb LedgerKept) (ingestStep env cfg manifest p) := by
  unfold ingestStep
  split
  · exact moves_pure _
  unfold ingestItem
  have hnamed : Moves (OnDb LedgerKept) (namedMemory env p.oldPublicId) := by
    cases p.oldPublicId with
    | none => exact moves_pure none
    | some publicId =>
      refine moves_bind onDb_query fun found => ?_
      cases found with
      | none => exact moves_pure none
      | some _ => exact onDb_query
  have hrest : ∀ publicId : String, Moves (OnDb LedgerKept)
      (onlyIf p.item.daily (recordDailyTurn env p.item) >>= fun _ =>
        pure (setEntry manifest p.item.sourceRef ⟨p.hash, publicId⟩)) := fun publicId =>
    moves_bind (moves_onlyIf ledger_recordDailyTurn) fun _ => moves_pure _
  refine moves_bind hnamed fun named => ?_
  cases named with
  | some row =>
    refine moves_bind ?_ hrest
    refine moves_bind (ledger_of_rest rest_update) fun updated => ?_
    exact moves_bind (ledger_of_rest rest_setSourceRef) fun _ => moves_pure _
  | none =>
    refine moves_bind ?_ hrest
    refine moves_bind (ledger_of_rest rest_writeItem) fun report => ?_
    exact moves_bind (moves_onlyIf (ledger_of_rest rest_setSourceRef)) fun _ => moves_pure _

private theorem ledger_ingest {cfg : IngestConfig F} {tree : Tree} {dryRun : Bool} :
    Moves (OnDb LedgerKept) (Ingest.ingest env cfg tree dryRun) := by
  unfold Ingest.ingest
  refine moves_bind (moves_lift _) fun files => ?_
  split
  · exact moves_fail _
  refine moves_bind onDb_query fun manifest => ?_
  refine moves_bind (moves_lift _) fun parsed => ?_
  dsimp only
  split
  · exact moves_pure _
  refine moves_bind (moves_foldEach fun _ p _ => ledger_ingestStep) fun next => ?_
  exact moves_bind (onDb_run fun db => .of_same rfl rfl) fun _ => moves_pure _

end Ingest

/-- The operations that purge. -/
def Op.purges : Op F → Bool
  | .hardPurgeMemory .. | .hardPurgeForTtl .. => true
  | _ => false

theorem ledger_step {op : Op F} (h : op.purges = false) :
    Moves (OnDb LedgerKept) (op.step env) := by
  cases op with
  | openAs agentId => exact onDb_same fun _ => rfl
  | insertMemory m => exact moves_effect (ledger_of_rest rest_insertMemory)
  | persistFull emb cand ev sk pending dedup => exact moves_effect (ledger_of_rest rest_persistFull)
  | persistDegraded cand ev sk pending => exact moves_effect (ledger_of_rest rest_persistNoVector)
  | persistUnembedded cand ev sk pending => exact moves_effect (ledger_of_rest rest_persistNoVector)
  | remember emb cand ev sk pending dedup => exact moves_effect (ledger_of_rest rest_remember)
  | update id new source reason createdBy => exact moves_effect (ledger_of_rest rest_update)
  | rollback id version createdBy => exact moves_effect (ledger_of_rest rest_rollback)
  | setPinned id pinned requester => exact moves_effect (ledger_of_rest rest_setMemoryPinned)
  | setSourceRef id sourceRef => exact ledger_of_rest rest_setSourceRef
  | setSummary id summary tokens => exact ledger_of_rest rest_setSummary
  | importFile emb schema file dryRun =>
    refine moves_effect (moves_bind (moves_lift _) fun _ => ?_)
    refine moves_bind moves_get fun c => ?_
    refine moves_bind onDb_embedDim fun dim => ?_
    exact ledger_of_rest rest_importLines
  | ingest cfg tree dryRun => exact moves_effect ledger_ingest
  | deprecateMemory id deletedBy => exact ledger_softChange (by decide)
  | deprecateForTtl id => exact ledger_softChange (by decide)
  | restoreMemory id restoredBy => exact ledger_softChange (by decide)
  | hardPurgeMemory id deletedBy reason => cases h
  | hardPurgeForTtl id => cases h
  | setDedupCluster id clusterId => exact ledger_of_rest rest_setDedupCluster
  | bumpRefCount id => exact ledger_of_rest rest_bumpRefCount

end AgosMemory
