import AgosMemory.Cli.Plan
import AgosMemory.Runs.Clients
import AgosMemory.SystemFrame

/-!
# The statements of each operation

What a relation between databases has to allow of each statement is written down once, and every
operation that is a sequence of those statements then keeps to it, wherever it stops. Pins, summaries
and imports are not ordinary in this sense: what they write depends on who calls them, or on a file.
-/

namespace AgosMemory

open Library Library.Program Store

variable {F : Type} [F64 F] {env : Env F}

/-- The columns of a row that no file supplies. -/
structure Plain (r : NewRow F) : Prop where
  status : r.status = "active" ∨ r.status = "pending"
  pinned : r.pinned = 0
  summaryText : r.summaryText = none

/-- An update that leaves the status, the pin, the deletion time and the summary of a row alone. -/
structure Idle (f : Memory F → Memory F) : Prop where
  core : ∀ m, SameCore m (f m)
  status : ∀ m, (f m).status = m.status
  pinned : ∀ m, (f m).pinned = m.pinned
  deletedAt : ∀ m, (f m).deletedAt = m.deletedAt
  summaryText : ∀ m, (f m).summaryText = m.summaryText

/-- Two databases that differ in their sessions, manifest, ledgers and recalls at most. -/
structure SameTables (db db' : Db F) : Prop extends SameRows db db' where
  links : db'.links = db.links
  pins : db'.pins = db.pins

omit [F64 F] in
theorem SameTables.of_eq {db db' : Db F} (h : db' = { db with
      recallItems := db'.recallItems, tombstones := db'.tombstones, forgetAudit := db'.forgetAudit
      sessions := db'.sessions, sessionSeq := db'.sessionSeq, turns := db'.turns
      manifest := db'.manifest }) : SameTables db db' := by
  rw [h]
  exact ⟨⟨rfl, rfl, rfl, rfl, rfl, rfl, rfl, rfl, rfl, rfl⟩, rfl, rfl⟩

/-- The vector row of a memory. -/
def vecRowOf (m : Memory F) (embedding : List F) : VecRow F :=
  ⟨m.id, embedding, m.tier, m.status.code, m.trust.code, m.kind, m.pinned⟩

/-- The statements that a relation allows, where `added` bounds the rows that are inserted. -/
structure Statements (added : NewRow F → Prop) (T : Db F → Db F → Prop) : Prop where
  plain : ∀ r, Plain r → added r
  insertRow : ∀ r (m : Memory F) db db', added r → insertMemoryRow r db = .ok (m, db') → T db db'
  insertVersion : ∀ v db db', insertVersion v db = .ok ((), db') → T db db'
  insertVec : ∀ m embedding db db', m ∈ db.memories →
    insertVec (vecRowOf m embedding) db = .ok ((), db') → T db db'
  merge : ∀ shape id trust kept source cluster now db db',
    mergeSource shape id trust kept source cluster now db = .ok ((), db') → T db db'
  link : ∀ id now db db', linkRefines id now db = .ok ((), db') → T db db'
  retext : ∀ id text hash trust kept source now db db',
    retext id text hash trust kept source now db = .ok ((), db') → T db db'
  vecTrust : ∀ rowid (trust : Trust) db,
    T db (db.updateVec rowid fun v => { v with trust := trust.code })
  touch : ∀ id f db, Idle f → T db (db.updateMemory id f)
  deprecated : ∀ id now db, T db
    (restate id .deprecated (fun m => { m with deletedAt := some now, updatedAt := now }) db)
  restored : ∀ id now db, T db
    (restate id .active (fun m => { m with deletedAt := none, updatedAt := now }) db)
  purged : ∀ id db db', deletePhase id db = .ok ((), db') → T db db'
  other : ∀ db db', SameTables db db' → T db db'

/-- A reading of the clock. -/
def Reading (env : Env F) (now : Int) : Prop := ∃ n, env.clock n = now

omit [F64 F] in
/-- What follows a look at the clock works with a reading. -/
private theorem onDb_bind_now {α : Type} {T : Db F → Db F → Prop} [Std.Refl T] [IsTrans (Db F) T]
    {k : Int → Write F α} (h : ∀ now, Reading env now → Moves (OnDb T) (k now)) :
    Moves (OnDb T) (nowMillis env >>= k) :=
  moves_bind_from (fun now _ => Reading env now) onDb_nowMillis
    (fun s _ _ hnow => ⟨s.ticks, Except.ok.inj (Prod.mk.inj hnow).1⟩) fun now _ hnow => h now hnow _

/-- An update that does not set the time of the last reference, or sets it to a reading. -/
def Referenced (env : Env F) (f : Memory F → Memory F) : Prop :=
  (∀ m, (f m).lastReferencedAt = m.lastReferencedAt) ∨
    ∃ now, Reading env now ∧ ∀ m, (f m).lastReferencedAt = some now

/-- The statements that a relation allows, where the times that no file supplies are readings. -/
structure Stamped (env : Env F) (added : NewRow F → Prop) (T : Db F → Db F → Prop) : Prop where
  plain : ∀ r, Plain r → Reading env r.createdAt → added r
  insertRow : ∀ r (m : Memory F) db db', added r → insertMemoryRow r db = .ok (m, db') → T db db'
  insertVersion : ∀ v db db', insertVersion v db = .ok ((), db') → T db db'
  insertVec : ∀ m embedding db db', m ∈ db.memories →
    insertVec (vecRowOf m embedding) db = .ok ((), db') → T db db'
  merge : ∀ shape id trust kept source cluster now db db', Reading env now →
    mergeSource shape id trust kept source cluster now db = .ok ((), db') → T db db'
  link : ∀ id now db db', linkRefines id now db = .ok ((), db') → T db db'
  retext : ∀ id text hash trust kept source now db db',
    retext id text hash trust kept source now db = .ok ((), db') → T db db'
  vecTrust : ∀ rowid (trust : Trust) db,
    T db (db.updateVec rowid fun v => { v with trust := trust.code })
  touch : ∀ id f db, Idle f → Referenced env f → T db (db.updateMemory id f)
  deprecated : ∀ id now db, T db
    (restate id .deprecated (fun m => { m with deletedAt := some now, updatedAt := now }) db)
  restored : ∀ id now db, T db
    (restate id .active (fun m => { m with deletedAt := none, updatedAt := now }) db)
  purged : ∀ id db db', deletePhase id db = .ok ((), db') → T db db'
  other : ∀ db db', SameTables db db' → T db db'

theorem Statements.stamped {added : NewRow F → Prop} {T : Db F → Db F → Prop}
    (h : Statements added T) : Stamped env added T where
  plain r hr _ := h.plain r hr
  insertRow := h.insertRow
  insertVersion := h.insertVersion
  insertVec := h.insertVec
  merge shape id trust kept source cluster now db db' _ hmerge :=
    h.merge shape id trust kept source cluster now db db' hmerge
  link := h.link
  retext := h.retext
  vecTrust := h.vecTrust
  touch id f db hf _ := h.touch id f db hf
  deprecated := h.deprecated
  restored := h.restored
  purged := h.purged
  other := h.other

/-! ## What an import adds -/

section Import

open Export

/-- The rows of a batch that the store does not know, in any form. -/
def freshRows {F : Type} (db : Db F) (agent : String) (batch : List (Nat × ExportRow F)) :
    List (ExportRow F) :=
  match classifyAll db agent batch with
  | .ok fates => ((batch.zip fates).filter fun p => p.2.isInsert).map fun p => p.1.2
  | .error _ => []

/-- Every row that the batches add has a property, where each batch is read against the store as the
batches before it leave it. -/
def AddsOnly (P : ExportRow F → Prop) (env : Env F) (emb : Embedder F) (agent : String)
    (dim : Nat) : List (List (Nat × ExportRow F)) → Conn F → Prop
  | [], _ => True
  | batch :: batches, c => (∀ row ∈ freshRows c.db agent batch, P row) ∧
      AddsOnly P env emb agent dim batches (processBatch env emb agent dim batch false c).2

/-- An import, if it is one and writes, only adds rows with a property. -/
def Op.AddsOnly (P : ExportRow F → Prop) (env : Env F) : Op F → Conn F → Prop
  | .importFile emb schema file dryRun, c => checkHeader file.name file.header = .ok () →
      dryRun = false → AgosMemory.AddsOnly P env emb c.agentId (dimRead env c)
        (planFile env schema BATCH file).batches { c with stmts := c.stmts + 1 }
  | _, _ => True

/-- The columns that a row takes over from its line of the file. -/
structure Copies (row : ExportRow F) (r : NewRow F) : Prop where
  status : r.status = row.status
  pinned : r.pinned = row.pinned
  summaryText : r.summaryText = row.summaryText
  createdAt : r.createdAt = row.createdAt

omit [F64 F] in
private theorem zip_of_planRows {batch : List (Nat × ExportRow F)} {fates : List Fate}
    {vectors : List (Option (List F))} {p : PlannedRow F} (hp : p ∈ planRows batch fates vectors) :
    ∃ r, (r, p.fate) ∈ batch.zip fates ∧ p.row = r.2 := by
  induction batch generalizing fates vectors with
  | nil => cases hp
  | cons r batch ih =>
    cases fates with
    | nil => cases hp
    | cons fate fates =>
      cases vectors with
      | nil => cases hp
      | cons vector vectors =>
        rcases List.mem_cons.mp hp with rfl | hp
        · exact ⟨r, List.mem_cons_self, rfl⟩
        · obtain ⟨r', hr', hrow⟩ := ih hp
          exact ⟨r', List.mem_cons_of_mem _ hr', hrow⟩

omit [F64 F] in
private theorem freshRows_subset {db : Db F} {agent : String} {batch : List (Nat × ExportRow F)}
    {row : ExportRow F} (h : row ∈ freshRows db agent batch) : ∃ r ∈ batch, r.2 = row := by
  unfold freshRows at h
  split at h
  · obtain ⟨p, hp, rfl⟩ := List.mem_map.mp h
    exact ⟨p.1, (List.of_mem_zip (List.mem_filter.mp hp).1).1, rfl⟩
  · cases h

private theorem addsOnly_of_rows {P : ExportRow F → Prop} {emb : Embedder F} {agent : String}
    {dim : Nat}
    {batches : List (List (Nat × ExportRow F))} (h : ∀ batch ∈ batches, ∀ r ∈ batch, P r.2)
    (c : Conn F) : AddsOnly P env emb agent dim batches c := by
  induction batches generalizing c with
  | nil => trivial
  | cons batch batches ih =>
    refine ⟨fun row hrow => ?_, ih (fun b hb => h b (List.mem_cons_of_mem _ hb)) _⟩
    obtain ⟨r, hr, rfl⟩ := freshRows_subset hrow
    exact h batch List.mem_cons_self r hr

private theorem planLines_rows {P : ExportRow F → Prop} {schema : Int} {size : Nat}
    {lines : List (ImportLine F)} (hlines : ∀ row, some (.ok row) ∈ lines → P row) {lineNo : Nat}
    {batch : List (Nat × ExportRow F)} (hbatch : ∀ r ∈ batch, P r.2) :
    ∀ b ∈ (planLines env schema size lines lineNo batch).batches, ∀ r ∈ b, P r.2 := by
  induction lines generalizing lineNo batch with
  | nil =>
    intro b hb
    rw [planLines] at hb
    split at hb
    · cases hb
    · rw [List.mem_singleton.mp hb]
      exact hbatch
  | cons line lines ih =>
    have htail : ∀ row, some (.ok row) ∈ lines → P row :=
      fun row h => hlines row (List.mem_cons_of_mem _ h)
    rcases line with _ | msg | row
    · exact ih htail hbatch
    · intro b hb; cases hb
    · rw [planLines]
      split
      · intro b hb; cases hb
      have hnext : ∀ r ∈ batch ++ [(lineNo, row)], P r.2 := by
        intro r hr
        rcases List.mem_append.mp hr with hr | hr
        · exact hbatch r hr
        · rw [List.mem_singleton.mp hr]
          exact hlines row List.mem_cons_self
      split
      · intro b hb
        rcases List.mem_cons.mp hb with rfl | hb
        · exact hnext
        · exact ih htail (List.forall_mem_nil _) b hb
      · exact ih htail hnext

/-- A file whose rows all have a property adds no others. -/
theorem Op.AddsOnly.of_file {P : ExportRow F → Prop} {emb : Embedder F} {schema : Int}
    {file : ImportFile F} {dryRun : Bool} (h : ∀ row, some (.ok row) ∈ file.lines → P row)
    (c : Conn F) : Op.AddsOnly P env (.importFile emb schema file dryRun) c := fun _ _ =>
  addsOnly_of_rows (planLines_rows h (List.forall_mem_nil _)) _

end Import

/-- The operations that only make ordinary statements. -/
def Op.ordinary : Op F → Bool
  | .setPinned .. | .setSummary .. | .importFile .. => false
  | _ => true

section

variable {added : NewRow F → Prop} {T : Db F → Db F → Prop} [Std.Refl T] [IsTrans (Db F) T]
  (hT : Stamped env added T)

include hT

namespace Stamped

/-! ## Writer closures -/

omit [IsTrans (Db F) T] in
private theorem onDb_touch {id : Int} {f : Memory F → Memory F} (hf : Idle f)
    (href : Referenced env f) :
    Moves (OnDb T) (run env fun db => db.updateMemory id f) :=
  onDb_run fun db => hT.touch id f db hf href

omit [IsTrans (Db F) T] in
private theorem onDb_other {f : Db F → Db F} (h : ∀ db, SameTables db (f db)) :
    Moves (OnDb T) (run env f) :=
  onDb_run fun db => hT.other db _ (h db)

theorem onDb_bump {shape : BumpShape} {id now : Int} {source : String} (hnow : Reading env now) :
    Moves (OnDb T) (bump env shape id source now) :=
  Store.onDb_bump (fun _ _ _ _ _ h => hT.merge _ _ _ _ _ _ _ _ _ hnow h)
    (fun db trust => hT.vecTrust id trust db) fun _ _ h => hT.link _ _ _ _ h

theorem onDb_update {id : Int} {text : String} {source reason createdBy : Option String} :
    Moves (OnDb T) (updateMemoryWithProvenance env id text source reason createdBy) :=
  Store.onDb_update (fun _ _ _ h => hT.insertVersion _ _ _ h)
    (fun _ _ _ _ _ h => hT.retext _ _ _ _ _ _ _ _ _ h) fun db trust => hT.vecTrust id trust db

private theorem onDb_rollback {id version : Int} {createdBy : Option String} :
    Moves (OnDb T) (rollbackMemory env id version createdBy) := by
  unfold rollbackMemory
  refine moves_bind onDb_query fun target => ?_
  cases target with
  | none => exact moves_fail _
  | some target => exact hT.onDb_update

private theorem onDb_insertMemory {m : NewMemory} : Moves (OnDb T) (insertMemory env m) := by
  unfold insertMemory
  split
  · exact moves_fail _
  split
  · exact moves_fail _
  refine moves_bind onDb_newUuid fun publicId => ?_
  refine onDb_bind_now fun now hnow => ?_
  refine moves_bind moves_get fun c => ?_
  refine moves_bind (onDb_exec fun db row db' h => ?_) fun row => ?_
  · exact hT.insertRow _ _ _ _ (hT.plain _ ⟨.inl rfl, rfl, rfl⟩ hnow) h
  refine moves_bind (onDb_exec fun db _ db' h => hT.insertVersion _ _ _ h) fun _ => ?_
  exact moves_pure _

private theorem onDb_setSourceRef {id : Int} {sourceRef : String} :
    Moves (OnDb T) (setSourceRef env id sourceRef) := by
  unfold setSourceRef
  split
  · exact moves_fail _
  · refine moves_bind onDb_nowMillis fun now => hT.onDb_touch ?_ (.inl fun _ => rfl)
    exact ⟨fun _ => by constructor <;> rfl, fun _ => rfl, fun _ => rfl, fun _ => rfl, fun _ => rfl⟩

private theorem onDb_setDedupCluster {id : Int} {clusterId : String} :
    Moves (OnDb T) (setDedupCluster env id clusterId) := by
  refine moves_bind onDb_nowMillis fun now => hT.onDb_touch ?_ (.inl fun _ => rfl)
  exact ⟨fun _ => by constructor <;> rfl, fun _ => rfl, fun _ => rfl, fun _ => rfl, fun _ => rfl⟩

private theorem onDb_bumpRefCount {id : Int} : Moves (OnDb T) (bumpRefCount env id) := by
  refine onDb_bind_now fun now hnow =>
    hT.onDb_touch ?_ (.inr ⟨now, hnow, fun _ => rfl⟩)
  exact ⟨fun _ => by constructor <;> rfl, fun _ => rfl, fun _ => rfl, fun _ => rfl, fun _ => rfl⟩

omit [Std.Refl T] [IsTrans (Db F) T] in
private theorem onDb_audit (db : Db F) (row : ForgetAudit) :
    T db { db with forgetAudit := db.forgetAudit ++ [row] } :=
  hT.other _ _ (.of_eq rfl)

private theorem onDb_deprecate {id : Int} {deletedBy reason : Option String} {action : String} :
    Moves (OnDb T) (deprecateWithAction env id deletedBy action reason) :=
  onDb_softChange (fun db now => hT.deprecated id now db) fun db row _ => hT.onDb_audit db row

private theorem onDb_restore {id : Int} {restoredBy : Option String} :
    Moves (OnDb T) (restoreMemory env id restoredBy) :=
  onDb_softChange (fun db now => hT.restored id now db) fun db row _ => hT.onDb_audit db row

private theorem onDb_hardPurge {id : Int} {deletedBy reason : Option String} {action : String} :
    Moves (OnDb T) (hardPurgeWithAction env id deletedBy reason action) := by
  unfold hardPurgeWithAction
  refine moves_bind onDb_nowMillis fun now => ?_
  refine moves_bind moves_get fun c => ?_
  refine moves_bind onDb_query fun m => ?_
  refine moves_bind onDb_query fun before => ?_
  refine moves_bind (onDb_exec fun db _ db' h => hT.purged _ _ _ h) fun _ => ?_
  refine moves_bind onDb_query fun _ => ?_
  refine moves_bind (hT.onDb_other fun _ => .of_eq rfl) fun _ => ?_
  refine moves_bind (hT.onDb_other fun _ => .of_eq rfl) fun _ => ?_
  refine moves_bind (hT.onDb_other fun _ => .of_eq rfl) fun _ => ?_
  exact hT.onDb_other fun _ => .of_eq rfl

/-! ## Persist paths -/

private theorem onDb_insertFresh {cand : Persist.Candidate F} {text ev sk : String} {pending : F}
    {e : Persist.Embedded} {now : Int} (hnow : Reading env now) :
    Moves (OnDb T) (Persist.insertFresh env cand text ev sk pending e now) := by
  unfold Persist.insertFresh
  refine moves_bind onDb_newUuid fun publicId => ?_
  refine moves_bind moves_get fun c => ?_
  refine moves_bind (onDb_exec fun db m db' h => ?_) fun row => ?_
  · refine hT.insertRow _ _ _ _ (hT.plain _ ⟨?_, rfl, rfl⟩ hnow) h
    unfold Persist.freshRow
    dsimp only
    split
    · exact .inr rfl
    · exact .inl rfl
  refine moves_bind (onDb_exec fun db _ db' h => hT.insertVersion _ _ _ h) fun _ => ?_
  exact moves_pure row

private theorem onDb_insertEmbedded {emb : Embedder F} {cand : Persist.Candidate F}
    {text ev sk : String}
    {pending : F} {vec : List F} {now : Int} (hnow : Reading env now) :
    Moves (OnDb T) (Persist.insertEmbedded env emb cand text ev sk pending vec now) := by
  unfold Persist.insertEmbedded
  refine moves_bind_from (fun m (c : Conn F) => m ∈ c.db.memories ∧ m.pinned = 0)
    (hT.onDb_insertFresh hnow) (fun s m t h => ?_) fun m => ?_
  · obtain ⟨publicId, db, hrow, hversion, _⟩ := insertFresh_ok h
    obtain ⟨hbuilt, _, rfl⟩ := insertMemoryRow_ok hrow
    refine ⟨?_, hbuilt.pinned⟩
    rw [memories_of_insertVersion hversion]
    exact List.mem_append_right _ (List.mem_singleton_self m)
  · refine movesFrom_bind (fun _ _ => True) (onDbFrom_exec fun c _ db' hc h => ?_)
      (fun _ _ _ _ _ => trivial) fun _ => (moves_pure _).from
    rw [← hc.2] at h
    exact hT.insertVec m _ _ _ hc.1 h

private theorem onDb_persistFull {emb : Embedder F} {cand : Persist.Candidate F} {ev sk : String}
    {pending dedup : F} :
    Moves (OnDb T) (Persist.persistCandidateFull env emb cand ev sk pending dedup) := by
  unfold Persist.persistCandidateFull
  refine moves_bind onDb_call fun vecs => ?_
  refine onDb_bind_now fun now hnow => ?_
  refine moves_bind onDb_query fun chosen => ?_
  cases chosen with
  | none => exact hT.onDb_insertEmbedded hnow
  | some rowid =>
    refine moves_bind (hT.onDb_bump hnow) fun _ => ?_
    exact moves_bind onDb_query fun row => moves_pure _

private theorem onDb_persistNoVector {cand : Persist.Candidate F} {ev sk : String} {pending : F}
    {status : EmbedStatus} :
    Moves (OnDb T) (Persist.persistCandidateNoVector env cand ev sk pending status) := by
  unfold Persist.persistCandidateNoVector
  refine onDb_bind_now fun now hnow => ?_
  refine moves_bind onDb_query fun chosen => ?_
  cases chosen with
  | none => exact moves_bind (hT.onDb_insertFresh hnow) fun row => moves_pure _
  | some id =>
    refine moves_bind (hT.onDb_bump hnow) fun _ => ?_
    exact moves_bind onDb_query fun row => moves_pure _

private theorem onDb_remember {emb : Embedder F} {cand : Persist.Candidate F} {ev sk : String}
    {pending dedup : F} :
    Moves (OnDb T) (Persist.remember env emb cand ev sk pending dedup) := by
  unfold Persist.remember
  refine moves_bind (moves_attempt hT.onDb_persistFull) fun outcome => ?_
  split
  · exact moves_pure _
  · exact moves_bind hT.onDb_persistNoVector fun report => moves_pure _
  · exact moves_fail _

/-! ## Import -/

section Import

open Export

private theorem onDb_insertRow {emb : Embedder F} {agent : String} {dim : Nat} {now : Int}
    {p : PlannedRow F} (hadd : ∀ r : NewRow F, Copies p.row r → added r) :
    Moves (OnDb T) (Export.insertRow env emb agent dim now p) := by
  unfold Export.insertRow
  refine moves_bind_from (fun m (c : Conn F) => m ∈ c.db.memories ∧ m.pinned = p.row.pinned)
    (onDb_exec fun db m db' h => ?_) (fun s m t h => ?_) fun m => ?_
  · exact hT.insertRow _ _ _ _ (hadd _ ⟨rfl, rfl, rfl, rfl⟩) h
  · obtain ⟨hbuilt, _, hdb⟩ := insertMemoryRow_ok (exec_ok h)
    exact ⟨hdb ▸ List.mem_append_right _ (List.mem_singleton_self m), hbuilt.pinned⟩
  refine movesFrom_bind (fun _ c => m ∈ c.db.memories ∧ m.pinned = p.row.pinned)
    (Moves.from (onDb_exec fun db _ db' h => hT.insertVersion _ db db' h))
    (fun s _ t hs h => ⟨memories_of_insertVersion (exec_ok h) ▸ hs.1, hs.2⟩) fun _ => ?_
  split
  · exact (moves_pure ()).from
  · refine onDbFrom_exec fun c _ db' hc h => ?_
    rw [← hc.2] at h
    exact hT.insertVec m _ _ _ hc.1 h

private theorem onDb_writeRow {emb : Embedder F} {agent : String} {dim : Nat} {now : Int}
    {p : PlannedRow F} (hnow : Reading env now)
    (hadd : p.fate = .insert → ∀ r : NewRow F, Copies p.row r → added r) :
    Moves (OnDb T) (writeRow env emb agent dim now p) := by
  unfold writeRow
  split
  · exact hT.onDb_bump hnow
  · exact moves_pure ()
  · next hfate => exact hT.onDb_insertRow (hadd hfate)

private theorem onDb_versionConflict {p : PlannedRow F} : Moves (OnDb T) (versionConflict env p) := by
  unfold versionConflict
  split
  · exact moves_bind hT.onDb_update fun _ => moves_pure ()
  all_goals exact moves_pure ()

/-- A batch is bounded by the rows that it finds to be fresh. -/
private theorem onDb_processBatch {emb : Embedder F} {agent : String} {dim : Nat}
    {batch : List (Nat × ExportRow F)} {dryRun : Bool} :
    MovesFrom
      (fun c => dryRun = false → ∀ row ∈ freshRows c.db agent batch, ∀ r, Copies row r → added r)
      (OnDb T) (processBatch env emb agent dim batch dryRun) := by
  unfold processBatch
  refine movesFrom_bind (fun fates _ => dryRun = false → ∀ p ∈ batch.zip fates, p.2 = .insert →
    ∀ r, Copies p.1.2 r → added r) onDb_query.from (fun s fates t hs h hwrite p hp hfate => ?_)
    fun fates => ?_
  · refine hs hwrite p.1.2 ?_
    unfold freshRows
    rw [(query_ok h).1]
    exact List.mem_map.mpr ⟨p, List.mem_filter.mpr ⟨hp, by rw [hfate]; rfl⟩, rfl⟩
  split
  · exact (moves_pure _).from
  next hwrite =>
  intro s hadd
  have hadd := hadd (Bool.eq_false_iff.mpr hwrite)
  dsimp only
  refine moves_bind onDb_embedFresh (fun vectors => ?_) s
  refine onDb_bind_now fun now hnow => ?_
  refine moves_bind (moves_forEach fun p hp => hT.onDb_writeRow hnow fun hfate => ?_) fun _ => ?_
  · obtain ⟨r, hr, hrow⟩ := zip_of_planRows hp
    rw [hrow]
    exact hadd _ hr hfate
  refine moves_bind (moves_forEach fun p _ => hT.onDb_versionConflict) fun _ => ?_
  exact moves_pure _

private theorem onDb_runPlan {emb : Embedder F} {agent : String} {dim : Nat} {dryRun : Bool}
    {P : ExportRow F → Prop} (hadd : ∀ row, P row → ∀ r, Copies row r → added r) {plan : Plan F}
    {stats : ImportStats} :
    MovesFrom (fun c => dryRun = false → AddsOnly P env emb agent dim plan.batches c) (OnDb T)
      (runPlan env emb agent dim dryRun plan stats) := by
  obtain ⟨batches, stop⟩ := plan
  induction batches generalizing stats with
  | nil =>
    refine Moves.from (moves_bind (moves_pure stats) fun stats => ?_)
    cases stop with
    | none => exact moves_pure stats
    | some e => exact moves_fail e
  | cons batch batches ih =>
    rw [runPlan_cons]
    refine movesFrom_bind (fun _ c => dryRun = false → AddsOnly P env emb agent dim batches c)
      (fun s hs => ?_) (fun s done t hs h hwrite => ?_) fun done => ih
    · exact hT.onDb_processBatch s fun hwrite row hrow => hadd row ((hs hwrite).1 row hrow)
    · rw [hwrite] at h
      have hrest := (hs hwrite).2
      rw [h] at hrest
      exact hrest

theorem onDb_importFile {emb : Embedder F} {schema : Int} {file : ImportFile F} {dryRun : Bool}
    {P : ExportRow F → Prop} (hadd : ∀ row, P row → ∀ r, Copies row r → added r) :
    MovesFrom (Op.AddsOnly P env (.importFile emb schema file dryRun)) (OnDb T)
      ((Op.importFile emb schema file dryRun).step env) := by
  refine movesFrom_bind (fun _ _ => True) ?_ (fun _ _ _ _ _ => trivial)
    fun _ => (moves_pure ()).from
  intro c hc
  rw [importFile_eq]
  cases hheader : checkHeader file.name file.header with
  | error e =>
    rw [importFileBy_header hheader]
    exact Std.Refl.refl c.db
  | ok u =>
    rw [importFileBy_run hheader]
    exact hT.onDb_runPlan hadd { c with stmts := c.stmts + 1 } (hc hheader)

end Import

/-! ## Markdown ingest -/

section Ingest

open Ingest

private theorem onDb_recordDailyTurn {item : ParsedItem} :
    Moves (OnDb T) (recordDailyTurn env item) := by
  unfold recordDailyTurn
  refine moves_bind moves_get fun c => ?_
  refine moves_bind onDb_query fun session => ?_
  have hturn : ∀ session : Session, Moves (OnDb T)
      (Sessions.appendTurn env session.id "tool"
        ("[untrusted-file " ++ item.sourceRef ++ "] " ++ Redact.redact item.text) >>= fun _ =>
          pure ()) :=
    fun session => moves_bind (onDb_appendTurn fun _ _ => hT.other _ _ (.of_eq rfl)) fun _ =>
      moves_pure ()
  cases session with
  | some session => exact hturn session
  | none => exact moves_bind (onDb_openSession fun _ _ _ => hT.other _ _ (.of_eq rfl)) hturn

private theorem onDb_writeItem {cfg : IngestConfig F} {item : ParsedItem} :
    Moves (OnDb T) (writeItem env cfg item) := by
  have hembedded : ∀ emb, Moves (OnDb T) (writeEmbedded env cfg emb item) := fun emb =>
    moves_bind (onDb_same (validateEmbedDim_db emb)) fun _ => hT.onDb_persistFull
  unfold writeItem
  split
  · exact hT.onDb_persistNoVector
  · exact hembedded _
  · split
    · exact moves_fail _
    · exact hembedded _

private theorem onDb_ingestStep {cfg : IngestConfig F} {manifest : Manifest} {p : PlannedItem} :
    Moves (OnDb T) (ingestStep env cfg manifest p) := by
  unfold ingestStep
  split
  · exact moves_pure _
  unfold ingestItem
  have hnamed : Moves (OnDb T) (namedMemory env p.oldPublicId) := by
    cases p.oldPublicId with
    | none => exact moves_pure none
    | some publicId =>
      refine moves_bind onDb_query fun found => ?_
      cases found with
      | none => exact moves_pure none
      | some _ => exact onDb_query
  have hrest : ∀ publicId : String, Moves (OnDb T)
      (onlyIf p.item.daily (recordDailyTurn env p.item) >>= fun _ =>
        pure (setEntry manifest p.item.sourceRef ⟨p.hash, publicId⟩)) := fun publicId =>
    moves_bind (moves_onlyIf hT.onDb_recordDailyTurn) fun _ => moves_pure _
  refine moves_bind hnamed fun named => ?_
  cases named with
  | some row =>
    refine moves_bind ?_ hrest
    refine moves_bind hT.onDb_update fun updated => ?_
    exact moves_bind hT.onDb_setSourceRef fun _ => moves_pure _
  | none =>
    refine moves_bind ?_ hrest
    refine moves_bind hT.onDb_writeItem fun report => ?_
    exact moves_bind (moves_onlyIf hT.onDb_setSourceRef) fun _ => moves_pure _

private theorem onDb_ingest {cfg : IngestConfig F} {tree : Tree} {dryRun : Bool} :
    Moves (OnDb T) (Ingest.ingest env cfg tree dryRun) := by
  unfold Ingest.ingest
  refine moves_bind (moves_lift _) fun files => ?_
  split
  · exact moves_fail _
  refine moves_bind onDb_query fun manifest => ?_
  refine moves_bind (moves_lift _) fun parsed => ?_
  dsimp only
  split
  · exact moves_pure _
  refine moves_bind (moves_foldEach fun _ p _ => hT.onDb_ingestStep) fun next => ?_
  exact moves_bind (hT.onDb_other fun _ => .of_eq rfl) fun _ => moves_pure _

end Ingest

/-! ## One operation -/

/-- Every operation but a pin, a summary and an import. -/
theorem onDb_step {op : Op F} (h : op.ordinary = true) : Moves (OnDb T) (op.step env) := by
  cases op with
  | openAs agentId => exact onDb_same fun _ => rfl
  | insertMemory m => exact moves_effect hT.onDb_insertMemory
  | persistFull emb cand ev sk pending dedup => exact moves_effect hT.onDb_persistFull
  | persistDegraded cand ev sk pending => exact moves_effect hT.onDb_persistNoVector
  | persistUnembedded cand ev sk pending => exact moves_effect hT.onDb_persistNoVector
  | remember emb cand ev sk pending dedup => exact moves_effect hT.onDb_remember
  | update id new source reason createdBy => exact moves_effect hT.onDb_update
  | rollback id version createdBy => exact moves_effect hT.onDb_rollback
  | setPinned id pinned requester => cases h
  | setSourceRef id sourceRef => exact hT.onDb_setSourceRef
  | setSummary id summary tokens => cases h
  | importFile emb schema file dryRun => cases h
  | ingest cfg tree dryRun => exact moves_effect hT.onDb_ingest
  | deprecateMemory id deletedBy => exact hT.onDb_deprecate
  | deprecateForTtl id => exact hT.onDb_deprecate
  | restoreMemory id restoredBy => exact hT.onDb_restore
  | hardPurgeMemory id deletedBy reason => exact hT.onDb_hardPurge
  | hardPurgeForTtl id => exact hT.onDb_hardPurge
  | setDedupCluster id clusterId => exact hT.onDb_setDedupCluster
  | bumpRefCount id => exact hT.onDb_bumpRefCount

/-! ## The closures of the clients -/

private theorem onDb_persistEmbedded {emb : Embedder F} {cand : Persist.Candidate F}
    {text ev sk : String}
    {pending dedup : F} {vec : List F} :
    Moves (OnDb T) (persistEmbedded env emb cand text ev sk pending dedup vec) := by
  unfold persistEmbedded
  refine onDb_bind_now fun now hnow => ?_
  refine moves_bind onDb_query fun chosen => ?_
  cases chosen with
  | none => exact hT.onDb_insertEmbedded hnow
  | some rowid =>
    refine moves_bind (hT.onDb_bump hnow) fun _ => ?_
    exact moves_bind onDb_query fun row => moves_pure _

private theorem onDb_deleteJob {id : Int} : Moves (OnDb T) (Tombstones.deleteJob env id) := by
  unfold Tombstones.deleteJob
  refine moves_bind onDb_query fun m => ?_
  refine moves_bind onDb_query fun before => ?_
  refine moves_bind (onDb_exec fun db _ db' h => hT.purged _ _ _ h) fun _ => ?_
  exact moves_bind onDb_query fun _ => moves_pure _

private theorem onDb_recordJob {r : Tombstones.Request} {e : Tombstones.Evidence} :
    Moves (OnDb T) (Tombstones.recordJob env r e) := by
  refine moves_bind (hT.onDb_other fun _ => .of_eq rfl) fun _ => ?_
  exact hT.onDb_other fun _ => .of_eq rfl

end Stamped

end

/-- Statements that keep an invariant and a relation make closures that do, wherever they stop. -/
theorem Stamped.writerClosures {I : Db F → Prop} {R : Db F → Db F → Prop} [Std.Refl R]
    [IsTrans (Db F) R] (hT : Stamped env (fun _ => True) (Client.Within I R)) (P : Int → Prop)
    (hpin : ∀ id pinned requester, Moves (Inside I R) (setMemoryPinned env id pinned requester)) :
    WriterClosures env autocommit I R P where
  insertMemory _ := hT.onDb_insertMemory
  persistEmbedded _ _ _ _ _ _ _ := hT.onDb_persistEmbedded
  persistNoVector _ _ _ _ _ := hT.onDb_persistNoVector
  update _ _ _ _ _ := hT.onDb_update
  writeRows _ _ _ _ _ :=
    onDb_bind_now fun _ hnow =>
      moves_forEach fun _ _ => hT.onDb_writeRow hnow fun _ _ _ => trivial
  versionConflict _ := hT.onDb_versionConflict
  pin := hpin
  sourceRef _ _ := hT.onDb_setSourceRef
  retire _ _ _ _ := hT.onDb_deprecate
  restore _ _ := hT.onDb_restore
  dedupCluster _ _ := hT.onDb_setDedupCluster
  refCount _ := hT.onDb_bumpRefCount
  openSession _ := onDb_openSession fun _ _ _ => hT.other _ _ (.of_eq rfl)
  appendTurn _ _ _ := onDb_appendTurn fun _ _ => hT.other _ _ (.of_eq rfl)
  manifest _ := hT.onDb_other fun _ => .of_eq rfl
  delete _ _ := hT.onDb_deleteJob
  record _ _ := hT.onDb_recordJob

/-! ## Ids -/

/-- Ids are used once. -/
structure Keyed (db : Db F) : Prop where
  ids : (db.memories.map Memory.id).Nodup
  idBound : ∀ m ∈ db.memories, m.id ≤ db.memorySeq

namespace Keyed

variable {db db' : Db F}

omit [F64 F] in
theorem empty (dim : Nat) : Keyed ({ embedDim := dim } : Db F) :=
  ⟨List.nodup_nil, List.forall_mem_nil _⟩

omit [F64 F] in
theorem row_eq (h : Keyed db) {m m' : Memory F} (hm : m ∈ db.memories) (hm' : m' ∈ db.memories)
    (hid : m.id = m'.id) : m = m' :=
  List.inj_on_of_nodup_map h.ids hm hm' hid

omit [F64 F] in
theorem congr (h : Keyed db) (hmem : db'.memories = db.memories)
    (hseq : db'.memorySeq = db.memorySeq) : Keyed db' :=
  ⟨hmem ▸ h.ids, fun m hm => hseq ▸ h.idBound m (hmem ▸ hm)⟩

omit [F64 F] in
theorem updateMemory (h : Keyed db) {id : Int} {f : Memory F → Memory F}
    (hmem : db'.memories = (db.updateMemory id f).memories) (hseq : db'.memorySeq = db.memorySeq)
    (hid : ∀ m, (f m).id = m.id) : Keyed db' := by
  refine ⟨?_, fun m' hm' => ?_⟩
  · rw [hmem, map_updateMemory hid]
    exact h.ids
  · rw [hmem] at hm'
    obtain ⟨m, hm, rfl⟩ := mem_updateMemory.mp hm'
    rw [hseq]
    split
    · exact hid m ▸ h.idBound m hm
    · exact h.idBound m hm

theorem insertRow (h : Keyed db) {r : NewRow F} {m : Memory F}
    (hrow : insertMemoryRow r db = .ok (m, db')) : Keyed db' := by
  obtain ⟨hbuilt, _, rfl⟩ := insertMemoryRow_ok hrow
  have hid : m.id = db.memorySeq + 1 := hbuilt.id
  refine ⟨?_, fun m' hm' => ?_⟩
  · rw [List.map_append, List.nodup_append]
    refine ⟨h.ids, List.nodup_singleton _, fun i hi j hj heq => ?_⟩
    obtain ⟨m', hm', rfl⟩ := List.mem_map.mp hi
    have hbound := h.idBound m' hm'
    have hj : j = m.id := List.mem_singleton.mp hj
    omega
  · show m'.id ≤ m.id
    rcases List.mem_append.mp hm' with hm' | hm'
    · have hbound := h.idBound m' hm'
      omega
    · rw [List.mem_singleton.mp hm']

omit [F64 F] in
theorem purge (h : Keyed db) {id : Int} (hd : deletePhase id db = .ok ((), db')) : Keyed db' := by
  rw [deletePhase_ok hd]
  exact ⟨h.ids.sublist (List.filter_sublist.map _), fun m hm => h.idBound m (List.mem_filter.mp hm).1⟩

end Keyed

/-! ## Runs -/

/-- An invariant of whole runs, whose operations each meet a condition in the state they find. -/
theorem runOps_preserves {I : Db F → Prop} {C : Op F → Conn F → Prop}
    (hstep : ∀ op, MovesFrom (C op) (OnDb (Preserves I)) (op.step env)) {ops : List (Op F)}
    {c : Conn F} (hmeets : ∀ pre op post, ops = pre ++ op :: post → C op (runOps env pre c))
    (h : I c.db) : I (runOps env ops c).db := by
  induction ops generalizing c with
  | nil => exact h
  | cons op ops ih =>
    refine ih (fun pre later post heq => ?_) (hstep op c (hmeets [] op ops rfl) h)
    exact hmeets (op :: pre) later post (by rw [heq, List.cons_append])

end AgosMemory
