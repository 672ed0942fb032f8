import AgosMemory.Storage.Store
import Mathlib.Logic.Relation

/-!
# What a write can do

Every writer closure is a sequence of edits of the database, one for each statement that takes effect,
whichever statement fails. An invariant is checked once for each kind of edit. A grant bounds what an
operation may do: which texts it stores or sends, which rows it rewrites, and whether it sets a
status, purges, inserts a row that is marked as embedded, or writes what a vector mirrors.
-/

namespace AgosMemory.Store

open Library Library.Program

variable {F : Type} [F64 F]

/-- What an operation is allowed to write. -/
structure Grant where
  text : String → Prop
  retext : Int → Prop
  restate : Prop
  purge : Prop
  embedded : Prop
  mirror : Prop

/-- Every operation may do everything, apart from what is said of the texts and the embedded rows. -/
def Grant.storing (text : String → Prop) (embedded : Prop) : Grant :=
  ⟨text, fun _ => True, True, True, embedded, True⟩

/-- Two versions of a row that agree on what only inserts, rewrites and bumps set. -/
structure SameCore (m m' : Memory F) : Prop where
  id : m'.id = m.id
  publicId : m'.publicId = m.publicId
  agentId : m'.agentId = m.agentId
  tier : m'.tier = m.tier
  kind : m'.kind = m.kind
  text : m'.text = m.text
  textHash : m'.textHash = m.textHash
  trust : m'.trust = m.trust
  sourceKind : m'.sourceKind = m.sourceKind
  embedStatus : m'.embedStatus = m.embedStatus
  supersedesId : m'.supersedesId = m.supersedesId
  supersededById : m'.supersededById = m.supersededById
  createdAt : m'.createdAt = m.createdAt

/-- Two versions of a vector row that agree apart from its trust and its pin. -/
structure SameVec (v v' : VecRow F) : Prop where
  rowid : v'.rowid = v.rowid
  embedding : v'.embedding = v.embedding
  tier : v'.tier = v.tier
  kind : v'.kind = v.kind

/-- Two databases that agree on memories, versions and vectors. -/
structure SameRows (db db' : Db F) : Prop where
  embedDim : db'.embedDim = db.embedDim
  memories : db'.memories = db.memories
  memorySeq : db'.memorySeq = db.memorySeq
  versions : db'.versions = db.versions
  vecs : db'.vecs = db.vecs
  vecLog : db'.vecLog = db.vecLog
  merged : db'.merged = db.merged
  rewrites : db'.rewrites = db.rewrites
  bumps : db'.bumps = db.bumps
  restated : db'.restated = db.restated

/-- A text that may be stored: one that is granted, or one that a version holds already. -/
def Storable (G : Grant) (db : Db F) (text : String) : Prop :=
  G.text text ∨ ∃ v ∈ db.versions, v.text = text

/-- The trust and source kind that a rewrite leaves, with or without a source of its own. -/
def mergedTrust (m : Memory F) (source : Option String) : Trust :=
  (source.map (trustAfterSource m.trust)).getD m.trust

def mergedKind (m : Memory F) (source : Option String) : String :=
  (source.map (sourceKindAfter m)).getD m.sourceKind.sql

/-- The effect of one statement. -/
inductive Edit (env : Env F) (G : Grant) : Db F → Db F → Prop
  | insertRow {db db' : Db F} {r : NewRow F} {m : Memory F}
      (h : insertMemoryRow r db = .ok (m, db')) (text : G.text r.text)
      (hash : r.textHash = env.sha256Hex r.text)
      (trust : r.trust = trustForSourceKind r.sourceKind)
      (embedded : r.embedStatus ≠ .ok ∨ G.embedded) : Edit env G db db'
  | insertVersion {db db' : Db F} {v : MemoryVersion} (h : insertVersion v db = .ok ((), db'))
      (text : Storable G db v.text) (hash : v.textHash = env.sha256Hex v.text) : Edit env G db db'
  | insertVec {db db' : Db F} {m : Memory F} {embedding : List F} (hm : m ∈ db.memories)
      (ok : m.embedStatus = .ok)
      (h : insertVec ⟨m.id, embedding, m.tier, m.status.code, m.trust.code, m.kind, m.pinned⟩ db =
        .ok ((), db')) : Edit env G db db'
  | retext {db db' : Db F} {id : Int} {m : Memory F} {text : String} {source : Option String}
      {now : Int} (hm : db.memory? id = some m) (row : G.retext id) (text_ok : Storable G db text)
      (h : retext id text (env.sha256Hex text) (mergedTrust m source) (mergedKind m source) source
        now db = .ok ((), db')) : Edit env G db db'
  | bump {db db' : Db F} {shape : BumpShape} {id : Int} {m : Memory F} {source : String}
      {cluster : Option String} {now : Int} (hm : db.memory? id = some m)
      (mirror : shape.vec = false ∨ G.mirror)
      (h : mergeSource shape id (trustAfterSource m.trust source) (sourceKindAfter m source) source
        cluster now db = .ok ((), db')) : Edit env G db db'
  | restate {db : Db F} {id : Int} {status : Status} {f : Memory F → Memory F}
      (allowed : G.restate) (core : ∀ m, SameCore m (f m)) (pinned : ∀ m, (f m).pinned = m.pinned) :
      Edit env G db (restate id status f db)
  | touch {db : Db F} {id : Int} {f : Memory F → Memory F} (core : ∀ m, SameCore m (f m))
      (status : ∀ m, (f m).status = m.status)
      (pinned : (∀ m, (f m).pinned = m.pinned) ∨ G.mirror) : Edit env G db (db.updateMemory id f)
  | updateVec {db : Db F} {rowid : Int} {f : VecRow F → VecRow F} (allowed : G.mirror)
      (same : ∀ v, SameVec v (f v)) : Edit env G db (db.updateVec rowid f)
  | purge {db db' : Db F} {id : Int} (allowed : G.purge) (h : deletePhase id db = .ok ((), db')) :
      Edit env G db db'
  | other {db db' : Db F} (same : SameRows db db') : Edit env G db db'

/-- A run of a program: its edits, and what it sent to an embedder. -/
structure Edits (env : Env F) (G : Grant) (c c' : Conn F) : Prop where
  agentId : c'.agentId = c.agentId
  db : Relation.ReflTransGen (Edit env G) c.db c'.db
  sent : ∀ texts ∈ c'.sent, texts ∈ c.sent ∨ ∀ t ∈ texts, G.text t

section

variable {env : Env F} {G : Grant}

instance : Std.Refl (Edits env G) where
  refl _ := ⟨rfl, .refl, fun _ h => .inl h⟩

instance : IsTrans (Conn F) (Edits env G) where
  trans a b c hab hbc := by
    refine ⟨hbc.agentId.trans hab.agentId, hab.db.trans hbc.db, fun texts ht => ?_⟩
    rcases hbc.sent texts ht with hb | hgranted
    · exact hab.sent texts hb
    · exact .inr hgranted

/-- What every edit preserves, a sequence of edits preserves. -/
theorem preserves_of_edits {db db' : Db F} (h : Relation.ReflTransGen (Edit env G) db db')
    {P : Db F → Prop} (step : ∀ db db', Edit env G db db' → P db → P db') (hdb : P db) : P db' := by
  induction h with
  | refl => exact hdb
  | tail _ hedit ih => exact step _ _ hedit ih

/-! ## Statements -/

omit [F64 F] in
theorem exec_cases {α : Type} {f : Db F → Except Error (α × Db F)} {s t : Conn F}
    {r : Except Error α} (h : exec env f s = (r, t)) :
    t.agentId = s.agentId ∧ t.sent = s.sent ∧
      ((∃ e, r = .error e) ∧ t.db = s.db ∨ ∃ a, r = .ok a ∧ f s.db = .ok (a, t.db)) := by
  unfold exec at h
  simp only at h
  split at h
  · obtain ⟨rfl, rfl⟩ := Prod.mk.inj h
    exact ⟨rfl, rfl, .inl ⟨⟨_, rfl⟩, rfl⟩⟩
  · split at h
    · next a db hf =>
      obtain ⟨rfl, rfl⟩ := Prod.mk.inj h
      exact ⟨rfl, rfl, .inr ⟨a, rfl, hf⟩⟩
    · obtain ⟨rfl, rfl⟩ := Prod.mk.inj h
      exact ⟨rfl, rfl, .inl ⟨⟨_, rfl⟩, rfl⟩⟩

omit [F64 F] in
theorem exec_ok {α : Type} {f : Db F → Except Error (α × Db F)} {s t : Conn F} {a : α}
    (h : exec env f s = (.ok a, t)) : f s.db = .ok (a, t.db) := by
  obtain ⟨_, _, ⟨⟨e, he⟩, _⟩ | ⟨a', ha, hf⟩⟩ := exec_cases h
  · cases he
  · obtain rfl := Except.ok.inj ha
    exact hf

omit [F64 F] in
/-- A read leaves the database as it is, whatever its outcome. -/
theorem query_db {α : Type} (f : Db F → Except Error α) (s : Conn F) :
    (query env f s).2.db = s.db := by
  have hrun : exec env (fun db => (f db).map fun a => (a, db)) s =
      ((query env f s).1, (query env f s).2) := rfl
  obtain ⟨_, _, ⟨_, hdb⟩ | ⟨a, _, hf⟩⟩ := exec_cases hrun
  · exact hdb
  · cases hs : f s.db with
    | error e => rw [hs] at hf; cases hf
    | ok a' =>
      rw [hs] at hf
      exact (Prod.mk.inj (Except.ok.inj hf)).2.symm

omit [F64 F] in
theorem query_ok {α : Type} {f : Db F → Except Error α} {s t : Conn F} {a : α}
    (h : query env f s = (.ok a, t)) : f s.db = .ok a ∧ t.db = s.db := by
  have hdb := @query_db F env α f s
  have hf := exec_ok h
  rw [h] at hdb
  refine ⟨?_, hdb⟩
  cases hs : f s.db with
  | error e => rw [hs] at hf; cases hf
  | ok a' =>
    rw [hs] at hf
    rw [(Prod.mk.inj (Except.ok.inj hf)).1]

omit [F64 F] in
theorem attempt_query_ok {α : Type} {f : Db F → Except Error α} {s t : Conn F}
    {a : Except Error α} (h : attempt (query env f) s = (.ok a, t)) : t.db = s.db := by
  rw [← (Prod.mk.inj h).2]
  exact query_db f s

/-! ## Inserted rows -/

/-- What a row keeps of the columns it is inserted with. -/
structure Built (r : NewRow F) (id : Int) (m : Memory F) : Prop where
  id : m.id = id
  publicId : m.publicId = r.publicId
  agentId : m.agentId = r.agentId
  tier : m.tier.sql = r.tier
  text : m.text = r.text
  textHash : m.textHash = r.textHash
  status : m.status.sql = r.status
  trust : m.trust = r.trust
  pinned : m.pinned = r.pinned
  sourceKind : m.sourceKind.sql = r.sourceKind
  embedStatus : m.embedStatus = r.embedStatus
  supersedesId : m.supersedesId = none
  supersededById : m.supersededById = none
  lastReferencedAt : m.lastReferencedAt = none
  createdAt : m.createdAt = r.createdAt

omit [F64 F] in
theorem check_ok {α : Type} {column : String} {x : Option α} {a : α}
    (h : check column x = .ok a) : x = some a := by
  cases x with
  | none => cases h
  | some b => rw [Except.ok.inj h]

/-- The row with given columns, once its vocabularies are read. -/
def NewRow.row (r : NewRow F) (id : Int) (tier : Tier) (kind : Kind) (status : Status)
    (sourceKind : SourceKind) : Memory F where
  id
  publicId := r.publicId
  agentId := r.agentId
  tier
  kind
  text := r.text
  textHash := r.textHash
  summaryText := r.summaryText
  summaryTokens := r.summaryTokens
  importanceCurrent := F64.ofRat (1 / 2)
  confidence := r.confidence
  status
  trust := r.trust
  pinned := r.pinned
  expiresAt := r.expiresAt
  sourceKind
  sourceRef := r.sourceRef
  extractorVersion := r.extractorVersion
  embedModel := r.embedModel
  embedDim := r.embedDim
  embedStatus := r.embedStatus
  createdAt := r.createdAt
  updatedAt := r.updatedAt

theorem build_ok {r : NewRow F} {id : Int} {m : Memory F} (h : r.build id = .ok m) :
    ∃ tier kind status sourceKind, Tier.ofSql? r.tier = some tier ∧
      Kind.ofSql? r.kind = some kind ∧ Status.ofSql? r.status = some status ∧
      SourceKind.ofSql? r.sourceKind = some sourceKind ∧
      (F64.le (F64.ofRat 0) r.confidence && F64.le r.confidence (F64.ofRat 1)) = true ∧
      m = r.row id tier kind status sourceKind := by
  unfold NewRow.build at h
  simp only [bind, Except.bind, pure, Except.pure] at h
  split at h
  · cases h
  next tier htier =>
  split at h
  · cases h
  next kind hkind =>
  split at h
  · cases h
  next status hstatus =>
  split at h
  · cases h
  next sourceKind hsource =>
  split at h
  · cases h
  next confidence hconfidence =>
  have hin : (F64.le (F64.ofRat 0) r.confidence && F64.le r.confidence (F64.ofRat 1)) = true := by
    by_contra hout
    have hsome := check_ok hconfidence
    rw [if_neg hout] at hsome
    cases hsome
  have hvalue := check_ok hconfidence
  rw [if_pos hin] at hvalue
  refine ⟨tier, kind, status, sourceKind, check_ok htier, check_ok hkind, check_ok hstatus,
    check_ok hsource, hin, ?_⟩
  rw [← Except.ok.inj h, ← Option.some.inj hvalue]
  rfl

theorem built_of_build {r : NewRow F} {id : Int} {m : Memory F} (h : r.build id = .ok m) :
    Built r id m := by
  obtain ⟨tier, kind, status, sourceKind, htier, _, hstatus, hsource, _, rfl⟩ := build_ok h
  constructor
  case tier => exact Tier.sql_of_ofSql? htier
  case status => exact Status.sql_of_ofSql? hstatus
  case sourceKind => exact SourceKind.sql_of_ofSql? hsource
  all_goals rfl

theorem build_of_insert {r : NewRow F} {m : Memory F} {db db' : Db F}
    (h : insertMemoryRow r db = .ok (m, db')) : r.build (db.memorySeq + 1) = .ok m := by
  unfold insertMemoryRow at h
  simp only [bind, Except.bind, pure, Except.pure] at h
  split at h
  · cases h
  · next row hrow =>
    split at h
    · cases h
    · rw [hrow, (Prod.mk.inj (Except.ok.inj h)).1]

/-- An `INSERT INTO memories` appends the row it built, under the next id and an unused public id. -/
theorem insertMemoryRow_ok {r : NewRow F} {m : Memory F} {db db' : Db F}
    (h : insertMemoryRow r db = .ok (m, db')) :
    Built r (db.memorySeq + 1) m ∧ (∀ m' ∈ db.memories, m'.publicId ≠ m.publicId) ∧
      db' = { db with
        memories := db.memories ++ [m], memorySeq := m.id
        merged := db.merged ++ [(m.id, m.sourceKind.sql)] } := by
  unfold insertMemoryRow at h
  simp only [bind, Except.bind, pure, Except.pure] at h
  split at h
  · cases h
  · next row hrow =>
    split at h
    · cases h
    · next hunique =>
      obtain ⟨rfl, rfl⟩ := Prod.mk.inj (Except.ok.inj h)
      refine ⟨built_of_build hrow, fun m' hm' heq => hunique ?_, rfl⟩
      exact List.any_eq_true.mpr ⟨m', hm', decide_eq_true heq⟩

/-- The values that the `CHECK`s of the table and its unique key let in. -/
structure NewRow.Accepted (r : NewRow F) (db : Db F) : Prop where
  tier : (Tier.ofSql? r.tier).isSome
  kind : (Kind.ofSql? r.kind).isSome
  status : (Status.ofSql? r.status).isSome
  sourceKind : (SourceKind.ofSql? r.sourceKind).isSome
  confidence : (F64.le (F64.ofRat 0) r.confidence && F64.le r.confidence (F64.ofRat 1)) = true
  publicId : ∀ m ∈ db.memories, m.publicId ≠ r.publicId

theorem NewRow.Accepted.insert {r : NewRow F} {db : Db F} (h : r.Accepted db) :
    ∃ m db', insertMemoryRow r db = .ok (m, db') := by
  obtain ⟨tier, htier⟩ := Option.isSome_iff_exists.mp h.tier
  obtain ⟨kind, hkind⟩ := Option.isSome_iff_exists.mp h.kind
  obtain ⟨status, hstatus⟩ := Option.isSome_iff_exists.mp h.status
  obtain ⟨sourceKind, hsource⟩ := Option.isSome_iff_exists.mp h.sourceKind
  have hbuild : ∃ m, r.build (db.memorySeq + 1) = .ok m := by
    unfold NewRow.build
    simp only [htier, hkind, hstatus, hsource, h.confidence, if_true, check, bind, Except.bind,
      pure, Except.pure]
    exact ⟨_, rfl⟩
  obtain ⟨m, hm⟩ := hbuild
  have hunused : ¬ (db.memories.any fun m' => decide (m'.publicId = m.publicId)) = true := by
    rw [List.any_eq_true]
    rintro ⟨m', hm', heq⟩
    exact h.publicId m' hm' ((of_decide_eq_true heq).trans (built_of_build hm).publicId)
  unfold insertMemoryRow
  simp only [hm, bind, Except.bind, pure, Except.pure, if_neg hunused]
  exact ⟨_, _, rfl⟩

theorem accepted_of_insert {r : NewRow F} {m : Memory F} {db db' : Db F}
    (h : insertMemoryRow r db = .ok (m, db')) : r.Accepted db := by
  obtain ⟨hbuilt, hunique, _⟩ := insertMemoryRow_ok h
  obtain ⟨tier, kind, status, sourceKind, htier, hkind, hstatus, hsource, hconfidence, _⟩ :=
    build_ok (build_of_insert h)
  exact ⟨Option.isSome_of_mem htier, Option.isSome_of_mem hkind, Option.isSome_of_mem hstatus,
    Option.isSome_of_mem hsource, hconfidence, fun m' hm' => hbuilt.publicId ▸ hunique m' hm'⟩

/-- An `INSERT` that violates a `CHECK` or the key fails, and no other does. -/
theorem insertMemoryRow_ok_iff {r : NewRow F} {db : Db F} :
    (∃ m db', insertMemoryRow r db = .ok (m, db')) ↔ r.Accepted db :=
  ⟨fun ⟨_, _, h⟩ => accepted_of_insert h, fun h => h.insert⟩

theorem one_ok {α : Type} {x : Option α} {a : α} (h : one x = .ok a) : x = some a := by
  cases x with
  | none => cases h
  | some b => rw [Except.ok.inj h]

theorem movesFrom_exec {α : Type} {P : Conn F → Prop} {f : Db F → Except Error (α × Db F)}
    (h : ∀ c a db', P c → f c.db = .ok (a, db') → Edit env G c.db db') :
    MovesFrom P (Edits env G) (exec env f) := by
  intro s hs
  have hrun : exec env f s = ((exec env f s).1, (exec env f s).2) := rfl
  obtain ⟨hagent, hsent, ⟨_, hdb⟩ | ⟨a, _, hf⟩⟩ := exec_cases hrun
  · exact ⟨hagent, hdb ▸ .refl, fun _ ht => .inl (hsent ▸ ht)⟩
  · exact ⟨hagent, .single (h s a _ hs hf), fun _ ht => .inl (hsent ▸ ht)⟩

theorem moves_exec {α : Type} {f : Db F → Except Error (α × Db F)}
    (h : ∀ db a db', f db = .ok (a, db') → Edit env G db db') :
    Moves (Edits env G) (exec env f) := fun s =>
  movesFrom_exec (P := fun _ => True) (fun c a db' _ => h c.db a db') s trivial

theorem moves_query {α : Type} {f : Db F → Except Error α} : Moves (Edits env G) (query env f) := by
  refine moves_exec fun db a db' h => ?_
  cases hf : f db with
  | error e => rw [hf] at h; cases h
  | ok a' =>
    rw [hf] at h
    obtain ⟨_, rfl⟩ := Prod.mk.inj (Except.ok.inj h)
    exact .other ⟨rfl, rfl, rfl, rfl, rfl, rfl, rfl, rfl, rfl, rfl⟩

theorem moves_run {f : Db F → Db F} (h : ∀ db, Edit env G db (f db)) :
    Moves (Edits env G) (run env f) :=
  moves_exec fun db _ _ heq => (Prod.mk.inj (Except.ok.inj heq)).2 ▸ h db

private theorem moves_same {α : Type} {m : Write F α}
    (h : ∀ s, (m s).2.agentId = s.agentId ∧ (m s).2.db = s.db ∧ (m s).2.sent = s.sent) :
    Moves (Edits env G) m := fun s =>
  ⟨(h s).1, (h s).2.1 ▸ .refl, fun _ ht => .inl ((h s).2.2 ▸ ht)⟩

theorem moves_embedDim : Moves (Edits env G) (embedDim env) :=
  moves_same fun _ => ⟨rfl, rfl, rfl⟩

theorem moves_nowMillis : Moves (Edits env G) (nowMillis env) :=
  moves_same fun _ => ⟨rfl, rfl, rfl⟩

theorem moves_newUuid : Moves (Edits env G) (newUuid env) :=
  moves_same fun _ => ⟨rfl, rfl, rfl⟩

private theorem moves_touch {id : Int} {f : Memory F → Memory F} (core : ∀ m, SameCore m (f m))
    (status : ∀ m, (f m).status = m.status) (pinned : (∀ m, (f m).pinned = m.pinned) ∨ G.mirror) :
    Moves (Edits env G) (run env fun db => db.updateMemory id f) :=
  moves_run fun _ => .touch core status pinned

theorem moves_updateVec {rowid : Int} {f : VecRow F → VecRow F} (allowed : G.mirror)
    (same : ∀ v, SameVec v (f v)) :
    Moves (Edits env G) (run env fun db => db.updateVec rowid f) :=
  moves_run fun _ => .updateVec allowed same

/-! ## Writer closures -/

theorem moves_insertMemory {m : NewMemory} (h : G.text m.text) :
    Moves (Edits env G) (insertMemory env m) := by
  unfold insertMemory
  split
  · exact moves_fail _
  split
  · exact moves_fail _
  refine moves_bind moves_newUuid fun publicId => ?_
  refine moves_bind moves_nowMillis fun now => ?_
  refine moves_bind moves_get fun c => ?_
  refine moves_bind (moves_exec fun db row db' hrow =>
    .insertRow hrow h rfl rfl (.inl nofun)) fun row => ?_
  refine moves_bind (moves_exec fun db _ db' hv => .insertVersion hv (.inl h) rfl) fun _ => ?_
  exact moves_pure _

theorem moves_setSourceRef {id : Int} {sourceRef : String} :
    Moves (Edits env G) (setSourceRef env id sourceRef) := by
  unfold setSourceRef
  split
  · exact moves_fail _
  · refine moves_bind moves_nowMillis fun now => ?_
    exact moves_touch (fun m => by constructor <;> rfl) (fun _ => rfl) (.inl fun _ => rfl)

omit [F64 F] in
theorem insertVersion_ok {v : MemoryVersion} {db db' : Db F}
    (h : insertVersion v db = .ok ((), db')) :
    (∃ m, db.memory? v.memoryId = some m) ∧
      (∀ v' ∈ db.versions, v'.memoryId = v.memoryId → v'.version ≠ v.version) ∧
      db' = { db with versions := db.versions ++ [v] } := by
  unfold insertVersion at h
  split at h
  · cases h
  next hfound =>
  split at h
  · cases h
  · next hunique =>
    refine ⟨Option.ne_none_iff_exists'.mp fun hnone => hfound (by rw [hnone]; rfl),
      fun v' hv' hid heq => hunique ?_, (Prod.mk.inj (Except.ok.inj h)).2.symm⟩
    exact List.any_eq_true.mpr ⟨v', hv', decide_eq_true ⟨hid, heq⟩⟩

omit [F64 F] in
theorem insertVec_ok {v : VecRow F} {db db' : Db F} (h : insertVec v db = .ok ((), db')) :
    (∀ v' ∈ db.vecs, v'.rowid ≠ v.rowid) ∧
      db' = { db with vecs := db.vecs ++ [v], vecLog := db.vecLog ++ [.insert v] } := by
  unfold insertVec at h
  split at h
  · cases h
  split at h
  · cases h
  · next hunique =>
    refine ⟨fun v' hv' heq => hunique ?_, (Prod.mk.inj (Except.ok.inj h)).2.symm⟩
    exact List.any_eq_true.mpr ⟨v', hv', decide_eq_true heq⟩

omit [F64 F] in
private theorem mem_versions_of_insertVersion {v : MemoryVersion} {db db' : Db F}
    (h : insertVersion v db = .ok ((), db')) : v ∈ db'.versions := by
  rw [(insertVersion_ok h).2.2]
  exact List.mem_append_right _ (List.mem_singleton_self v)

omit [F64 F] in
theorem memories_of_insertVersion {v : MemoryVersion} {db db' : Db F}
    (h : insertVersion v db = .ok ((), db')) : db'.memories = db.memories := by
  rw [(insertVersion_ok h).2.2]

/-- A rewrite stores a text that may be stored, of a row that may be rewritten. -/
private theorem movesFrom_update {id : Int} {text : String} {source reason createdBy : Option String}
    (hid : G.retext id) (hmirror : G.mirror) :
    MovesFrom (fun c => Storable G c.db text) (Edits env G)
      (updateMemoryWithProvenance env id text source reason createdBy) := by
  unfold updateMemoryWithProvenance
  refine movesFrom_bind (fun _ c => Storable G c.db text) moves_query.from
    (fun s _ t hs h => (query_ok h).2 ▸ hs) fun version => ?_
  refine movesFrom_bind (fun _ c => Storable G c.db text) (moves_attempt moves_query).from
    (fun s _ t hs h => attempt_query_ok h ▸ hs) fun prev => ?_
  refine movesFrom_bind (fun _ c => Storable G c.db text) moves_nowMillis.from
    (fun s _ t hs h => (Prod.mk.inj h).2 ▸ hs) fun now => ?_
  refine movesFrom_bind (fun _ c => Storable G c.db text)
    (movesFrom_exec fun c _ db' hs hv => .insertVersion hv hs rfl)
    (fun s _ t _ h => .inr ⟨_, mem_versions_of_insertVersion (exec_ok h), rfl⟩) fun _ => ?_
  refine movesFrom_bind (fun m c => Storable G c.db text ∧ c.db.memory? id = some m)
    moves_query.from (fun s m t hs h => ?_) fun m => ?_
  · obtain ⟨hm, hdb⟩ := query_ok h
    exact ⟨hdb ▸ hs, hdb ▸ one_ok hm⟩
  refine movesFrom_bind (fun _ _ => True)
    (movesFrom_exec fun c _ db' hs hr => .retext hs.2 hid hs.1 hr) (fun _ _ _ _ _ => trivial)
    fun _ => Moves.from ?_
  refine moves_bind (moves_updateVec hmirror fun v => ⟨rfl, rfl, rfl, rfl⟩) fun _ => ?_
  exact moves_query

theorem moves_update {id : Int} {text : String} {source reason createdBy : Option String}
    (hid : G.retext id) (hmirror : G.mirror) (htext : G.text text) :
    Moves (Edits env G) (updateMemoryWithProvenance env id text source reason createdBy) :=
  fun s => movesFrom_update hid hmirror s (.inl htext)

theorem moves_rollback {id targetVersion : Int} {createdBy : Option String} (hid : G.retext id)
    (hmirror : G.mirror) :
    Moves (Edits env G) (rollbackMemory env id targetVersion createdBy) := by
  unfold rollbackMemory
  refine moves_bind_from (fun target (c : Conn F) => ∀ v ∈ target, v ∈ c.db.versions) moves_query
    (fun s target t h v hv => ?_) fun target => ?_
  · obtain ⟨hfound, hdb⟩ := query_ok h
    rw [hdb]
    exact List.mem_of_find?_eq_some ((Except.ok.inj hfound).trans hv)
  · cases target with
    | none => exact (moves_fail _).from
    | some v => exact fun s hs => movesFrom_update hid hmirror s (.inr ⟨v, hs v rfl, rfl⟩)

omit [F64 F] in
/-- An update of a row that is not there changes nothing. -/
theorem updateMemory_of_none {db : Db F} {id : Int} (h : db.memory? id = none)
    (f : Memory F → Memory F) : db.updateMemory id f = db := by
  have hmap : (db.memories.map fun m => if m.id = id then f m else m) = db.memories := by
    conv_rhs => rw [← List.map_id db.memories]
    refine List.map_congr_left fun m hm => ?_
    have hne := List.find?_eq_none.mp h m hm
    exact if_neg fun heq => hne (decide_eq_true heq)
  rw [Db.updateMemory, hmap]

omit [F64 F] in
/-- The columns that an update with a provenance writes, of whichever row it finds. -/
private theorem setProvenance_update {id : Int} {trust : Trust} {sourceKind : String}
    {incoming : Option String} {g : Memory F → Memory F} {db db' : Db F}
    (h : setProvenance id trust sourceKind incoming g db = .ok ((), db')) :
    ∃ sk merged,
      db' = { db.updateMemory id fun m => { g m with trust, sourceKind := sk } with merged } := by
  unfold setProvenance at h
  split at h
  · next hnone =>
    refine ⟨.user, db.merged, ?_⟩
    rw [updateMemory_of_none (Option.isNone_iff_eq_none.mp hnone)]
    exact (Prod.mk.inj (Except.ok.inj h)).2.symm
  split at h
  · cases h
  · next sk _ => exact ⟨sk, _, (Prod.mk.inj (Except.ok.inj h)).2.symm⟩

omit [F64 F] in
theorem mergeSource_update {shape : BumpShape} {id : Int} {trust : Trust}
    {sourceKind incoming : String} {cluster : Option String} {now : Int} {db db' : Db F}
    (h : mergeSource shape id trust sourceKind incoming cluster now db = .ok ((), db')) :
    ∃ sk merged bumps, db' = { db.updateMemory id fun m =>
      { countReference cluster now m with trust, sourceKind := sk } with merged, bumps } := by
  unfold mergeSource at h
  simp only [bind, Except.bind, pure, Except.pure] at h
  split at h
  · cases h
  · next u hu =>
    obtain ⟨sk, merged, hset⟩ := setProvenance_update hu
    refine ⟨sk, merged, u.2.bumps ++ (db.memory? id).toList.map fun m => (m, shape, incoming), ?_⟩
    rw [← (Prod.mk.inj (Except.ok.inj h)).2, hset]

omit [F64 F] in
theorem retext_update {id : Int} {text textHash : String} {trust : Trust} {sourceKind : String}
    {incoming : Option String} {now : Int} {db db' : Db F}
    (h : retext id text textHash trust sourceKind incoming now db = .ok ((), db')) :
    ∃ sk merged rewrites, db' = { db.updateMemory id fun m =>
      { m with text, textHash, updatedAt := now, trust, sourceKind := sk } with
        merged, rewrites } := by
  unfold retext at h
  simp only [bind, Except.bind, pure, Except.pure] at h
  split at h
  · cases h
  · next u hu =>
    obtain ⟨sk, merged, hset⟩ := setProvenance_update hu
    refine ⟨sk, merged, u.2.rewrites ++ (db.memory? id).toList.map fun m => (m, text), ?_⟩
    rw [← (Prod.mk.inj (Except.ok.inj h)).2, hset]

omit [F64 F] in
theorem clusterOf_db (env : Env F) (shape : BumpShape) (id : Int) (s : Conn F) :
    (clusterOf env shape id s).2.db = s.db := by
  unfold clusterOf
  split
  · exact query_db _ s
  · rfl

theorem moves_clusterOf {shape : BumpShape} {id : Int} :
    Moves (Edits env G) (clusterOf env shape id) := by
  unfold clusterOf
  split
  · exact moves_query
  · exact moves_pure none

omit [F64 F] in
theorem linkRefines_ok {id now : Int} {db db' : Db F} (h : linkRefines id now db = .ok ((), db')) :
    ∃ links, db' = { db with links } := by
  unfold linkRefines at h
  split at h
  · cases h
  split at h
  · exact ⟨db.links, (Prod.mk.inj (Except.ok.inj h)).2.symm⟩
  · exact ⟨_, (Prod.mk.inj (Except.ok.inj h)).2.symm⟩

theorem moves_linkRefines {id now : Int} :
    Moves (Edits env G) (exec env (linkRefines (F := F) id now)) := by
  refine moves_exec fun db _ db' h => .other ?_
  obtain ⟨links, rfl⟩ := linkRefines_ok h
  exact ⟨rfl, rfl, rfl, rfl, rfl, rfl, rfl, rfl, rfl, rfl⟩

theorem moves_bump {shape : BumpShape} {id : Int} {source : String} {now : Int}
    (hmirror : shape.vec = false ∨ G.mirror) : Moves (Edits env G) (bump env shape id source now) := by
  unfold bump
  refine moves_bind_from (fun m (c : Conn F) => c.db.memory? id = some m) moves_query
    (fun s m t h => ?_) fun m => ?_
  · obtain ⟨hm, hdb⟩ := query_ok h
    exact hdb ▸ one_ok hm
  refine movesFrom_bind (fun _ c => c.db.memory? id = some m) moves_clusterOf.from
    (fun s _ t hs h => ?_) fun cluster => ?_
  · rw [← clusterOf_db env shape id s, h] at hs
    exact hs
  refine movesFrom_bind (fun _ _ => True) (movesFrom_exec fun c _ db' hs h => .bump hs hmirror h)
    (fun _ _ _ _ _ => trivial) fun _ => Moves.from ?_
  refine moves_bind ?_ fun _ => moves_onlyIf moves_linkRefines
  rcases hmirror with hvec | hmirror
  · rw [hvec]
    exact moves_pure ()
  · exact moves_onlyIf (moves_updateVec hmirror fun v => ⟨rfl, rfl, rfl, rfl⟩)

theorem moves_recordPin {id now : Int} {pinned : Bool} {requester : String} :
    Moves (Edits env G) (recordPin env id now pinned requester) := by
  unfold recordPin
  split
  · refine moves_exec fun db _ db' h => .other ?_
    split at h
    · cases h
    · obtain ⟨_, rfl⟩ := Prod.mk.inj (Except.ok.inj h)
      exact ⟨rfl, rfl, rfl, rfl, rfl, rfl, rfl, rfl, rfl, rfl⟩
  · exact moves_run fun db => .other ⟨rfl, rfl, rfl, rfl, rfl, rfl, rfl, rfl, rfl, rfl⟩

theorem moves_setMemoryPinned {id : Int} {pinned : Bool} {requester : String}
    (hmirror : G.mirror) : Moves (Edits env G) (setMemoryPinned env id pinned requester) := by
  unfold setMemoryPinned
  refine moves_bind moves_nowMillis fun now => ?_
  refine moves_bind (moves_exec fun db changed db' h => ?_) fun changed => ?_
  · obtain ⟨_, rfl⟩ := Prod.mk.inj (Except.ok.inj h)
    exact .touch (fun m => by constructor <;> rfl) (fun _ => rfl) (.inr hmirror)
  split
  · exact moves_pure false
  refine moves_bind (moves_updateVec hmirror fun v => ⟨rfl, rfl, rfl, rfl⟩) fun _ => ?_
  exact moves_bind moves_recordPin fun _ => moves_pure true

private theorem moves_appendAudit {row : ForgetAudit} : Moves (Edits env G) (appendAudit env row) :=
  moves_run fun _ => .other ⟨rfl, rfl, rfl, rfl, rfl, rfl, rfl, rfl, rfl, rfl⟩

private theorem moves_softChange {id : Int} {action requester : String} {reason : Option String}
    {status : Status} {change : Int → Memory F → Memory F}
    (core : ∀ now m, SameCore m (change now m)) (pinned : ∀ now m, (change now m).pinned = m.pinned)
    (h : G.restate) :
    Moves (Edits env G) (softChange env id action requester reason status change) := by
  unfold softChange
  refine moves_bind moves_nowMillis fun now => ?_
  refine moves_bind moves_query fun publicId => ?_
  refine moves_bind (moves_run fun db => .restate h (core now) (pinned now)) fun _ => ?_
  cases publicId with
  | none => exact moves_pure ()
  | some pid => exact moves_appendAudit

theorem moves_deprecate {id : Int} {deletedBy reason : Option String} {action : String}
    (h : G.restate) : Moves (Edits env G) (deprecateWithAction env id deletedBy action reason) :=
  moves_softChange (fun _ _ => by constructor <;> rfl) (fun _ _ => rfl) h

theorem moves_restore {id : Int} {restoredBy : Option String} (h : G.restate) :
    Moves (Edits env G) (restoreMemory env id restoredBy) :=
  moves_softChange (fun _ _ => by constructor <;> rfl) (fun _ _ => rfl) h

theorem moves_hardPurge {id : Int} {deletedBy reason : Option String} {action : String}
    (h : G.purge) : Moves (Edits env G) (hardPurgeWithAction env id deletedBy reason action) := by
  unfold hardPurgeWithAction
  refine moves_bind moves_nowMillis fun now => ?_
  refine moves_bind moves_get fun c => ?_
  refine moves_bind moves_query fun m => ?_
  refine moves_bind moves_query fun before => ?_
  refine moves_bind (moves_exec fun db _ db' hd => .purge h hd) fun _ => ?_
  refine moves_bind moves_query fun _ => ?_
  refine moves_bind (moves_run fun _ =>
    .other ⟨rfl, rfl, rfl, rfl, rfl, rfl, rfl, rfl, rfl, rfl⟩) fun _ => ?_
  refine moves_bind (moves_run fun _ =>
    .other ⟨rfl, rfl, rfl, rfl, rfl, rfl, rfl, rfl, rfl, rfl⟩) fun _ => ?_
  refine moves_bind (moves_run fun _ =>
    .other ⟨rfl, rfl, rfl, rfl, rfl, rfl, rfl, rfl, rfl, rfl⟩) fun _ => ?_
  exact moves_appendAudit

theorem moves_setDedupCluster {id : Int} {clusterId : String} :
    Moves (Edits env G) (setDedupCluster env id clusterId) :=
  moves_bind moves_nowMillis fun _ =>
    moves_touch (fun _ => by constructor <;> rfl) (fun _ => rfl) (.inl fun _ => rfl)

theorem moves_bumpRefCount {id : Int} : Moves (Edits env G) (bumpRefCount env id) :=
  moves_bind moves_nowMillis fun _ =>
    moves_touch (fun _ => by constructor <;> rfl) (fun _ => rfl) (.inl fun _ => rfl)

theorem moves_setSummary {id : Int} {summary : String} {tokens : Int} :
    Moves (Edits env G) (setSummary env id summary tokens) :=
  moves_bind moves_nowMillis fun _ =>
    moves_touch (fun _ => by constructor <;> rfl) (fun _ => rfl) (.inl fun _ => rfl)

end

end AgosMemory.Store
