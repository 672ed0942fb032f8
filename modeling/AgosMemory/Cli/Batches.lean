import AgosMemory.Cli.Catalogue
import AgosMemory.Runs.History
import AgosMemory.Storage.Succeeds

/-!
# A batch refines the catalogue

What each statement group of an import leaves, and when it goes through. A batch that goes through
does to the catalogue what the catalogue says; without faults, and with vectors of the right
dimension, a batch goes through when the catalogue lets it.
-/

namespace AgosMemory.Export

open Library Library.Program Store

variable {F : Type} [F64 F] {env : Env F}

/-! ## Fresh rows -/

/-- The columns of a fresh row. -/
def importedRow (agent : String) (embedded : Persist.Embedded) (row : ExportRow F) : NewRow F where
  publicId := row.publicId
  agentId := agent
  tier := row.tier
  kind := row.kind
  text := row.text
  textHash := row.textHash
  summaryText := row.summaryText
  summaryTokens := some row.summaryTokens
  confidence := row.confidence
  status := row.status
  trust := trustForSourceKind row.provenance.sourceKind
  pinned := row.pinned
  expiresAt := row.expiresAt
  sourceKind := row.provenance.sourceKind
  sourceRef := row.provenance.sourceRef
  embedModel := embedded.model
  embedDim := embedded.dim
  embedStatus := embedded.status
  createdAt := row.createdAt
  updatedAt := row.updatedAt

def importedVersion (row : ExportRow F) (now : Int) (m : Memory F) : MemoryVersion where
  memoryId := m.id
  version := 1
  text := row.text
  textHash := row.textHash
  changeReason := some ("import from " ++ FORMAT)
  createdBy := some "import"
  createdAt := now

def importedVec (row : ExportRow F) (m : Memory F) (vec : List F) : VecRow F :=
  ⟨m.id, vec, m.tier, m.status.code, m.trust.code, m.kind, row.pinned⟩

/-- The last statement of a fresh row, when it has a vector. -/
def storeImported (env : Env F) (row : ExportRow F) (m : Memory F) : Option (List F) → Write F Unit
  | none => pure ()
  | some vec => exec env (insertVec (importedVec row m vec))

theorem insertRow_eq (env : Env F) (emb : Embedder F) (agent : String) (dim : Nat) (now : Int)
    (p : PlannedRow F) :
    insertRow env emb agent dim now p =
      (exec env (insertMemoryRow
        (importedRow agent (embedding emb dim p.vector).1 p.row)) >>= fun m =>
      exec env (insertVersion (importedVersion p.row now m)) >>= fun _ =>
      storeImported env p.row m (embedding emb dim p.vector).2) := rfl

/-- What a fresh row leaves in the database, `m` being the row. -/
def withImported (row : ExportRow F) (now : Int) (vec : Option (List F)) (m : Memory F)
    (db : Db F) : Db F :=
  { db with
    memories := db.memories ++ [m], memorySeq := m.id
    merged := db.merged ++ [(m.id, m.sourceKind.sql)]
    versions := db.versions ++ [importedVersion row now m]
    vecs := db.vecs ++ vec.toList.map (importedVec row m)
    vecLog := db.vecLog ++ vec.toList.map fun vec => .insert (importedVec row m vec) }

theorem insertRow_ok {emb : Embedder F} {agent : String} {dim : Nat} {now : Int}
    {p : PlannedRow F} {s t : Conn F} (h : insertRow env emb agent dim now p s = (.ok (), t)) :
    ∃ m, Built (importedRow agent (embedding emb dim p.vector).1 p.row) (s.db.memorySeq + 1) m ∧
      (importedRow agent (embedding emb dim p.vector).1 p.row).build (s.db.memorySeq + 1) = .ok m ∧
      (∀ m' ∈ s.db.memories, m'.publicId ≠ p.row.publicId) ∧
      t.db = withImported p.row now (embedding emb dim p.vector).2 m s.db := by
  rw [insertRow_eq] at h
  obtain ⟨m, s₁, hrow, h⟩ := bind_ok h
  obtain ⟨hbuilt, hunique, hs₁⟩ := insertMemoryRow_ok (exec_ok hrow)
  obtain ⟨_, s₂, hversion, h⟩ := bind_ok h
  obtain ⟨_, _, hs₂⟩ := insertVersion_ok (exec_ok hversion)
  have hname : ∀ m' ∈ s.db.memories, m'.publicId ≠ p.row.publicId := fun m' hm' heq =>
    hunique m' hm' (heq.trans hbuilt.publicId.symm)
  refine ⟨m, hbuilt, build_of_insert (exec_ok hrow), hname, ?_⟩
  rw [hs₁] at hs₂
  cases hvec : (embedding emb dim p.vector).2 with
  | none =>
    rw [hvec] at h
    obtain ⟨_, rfl⟩ := pure_ok h
    rw [hs₂]
    simp [withImported, importedVersion]
  | some vec =>
    rw [hvec] at h
    obtain ⟨_, ht⟩ := insertVec_ok (exec_ok h)
    rw [ht, hs₂]
    rfl

omit [F64 F] in
private theorem live_of_sql {m : Memory F} {status : String} (h : m.status.sql = status) :
    m.status.live = (status = "active" || status = "pending") := by
  subst h
  cases m.status <;> rfl

omit [F64 F] in
/-- A fresh row is a new entry of the catalogue. -/
private theorem catalogueOf_imported {agent : String} {row : ExportRow F}
    {embedded : Persist.Embedded}
    {now : Int} {vec : Option (List F)} {m : Memory F} {db : Db F}
    (hm : Built (importedRow agent embedded row) (db.memorySeq + 1) m)
    (hname : ∀ m' ∈ db.memories, m'.publicId ≠ row.publicId) :
    (catalogueOf agent db).add row.key =
      some (catalogueOf agent (withImported row now vec m db)) := by
  have hunused : ¬ ((catalogueOf agent db).entries.any fun e => e.publicId = row.key.publicId) =
      true := by
    rw [List.any_eq_true]
    rintro ⟨e, he, heq⟩
    obtain ⟨m', hm', rfl⟩ := List.mem_map.mp he
    exact hname m' hm' (of_decide_eq_true heq)
  have hentry : entryOf agent m = ⟨db.memorySeq + 1, row.publicId, row.textHash, row.key.live⟩ := by
    unfold entryOf
    rw [hm.id, hm.publicId, hm.textHash, hm.agentId, live_of_sql hm.status]
    show (⟨_, _, _, decide (agent = agent) && _⟩ : Entry) = _
    rw [decide_eq_true rfl, Bool.true_and]
    rfl
  rw [Catalogue.add, if_neg hunused]
  unfold catalogueOf withImported
  rw [List.map_append, List.map_singleton, hentry, hm.id]
  rfl

/-- The write phase of a row, as the catalogue sees it. -/
theorem writeRow_ok {emb : Embedder F} {agent : String} {dim : Nat} {now : Int}
    {p : PlannedRow F} {s t : Conn F} (h : writeRow env emb agent dim now p s = (.ok (), t)) :
    (catalogueOf agent s.db).write (p.row.key, p.fate) = some (catalogueOf agent t.db) := by
  unfold writeRow at h
  unfold Catalogue.write
  cases hfate : p.fate with
  | bump id =>
    rw [hfate] at h
    have hrun : bumpImported env id p.row.provenance.sourceKind now s = (.ok (), t) := h
    have hsame : SameCatalogue agent s.db (bumpImported env id p.row.provenance.sourceKind now
        s).2.db := sameCatalogue_bump s
    rw [hrun] at hsame
    exact congrArg some hsame.symm
  | conflict id =>
    rw [hfate] at h
    rw [(pure_ok h).2]
  | insert =>
    rw [hfate] at h
    obtain ⟨m, hbuilt, _, hname, ht⟩ := insertRow_ok h
    rw [ht]
    exact catalogueOf_imported hbuilt hname

omit [F64 F] in
private theorem catalogueOf_retext {agent : String} {db db' : Db F} {id : Int} {textHash : String}
    {f : Memory F → Memory F} (hf : ∀ m, entryOf agent (f m) = { entryOf agent m with textHash })
    (hm : db'.memories = (db.updateMemory id f).memories) (hseq : db'.memorySeq = db.memorySeq)
    (ht : db'.tombstones = db.tombstones) :
    catalogueOf agent db' = (catalogueOf agent db).replace id textHash := by
  unfold catalogueOf Catalogue.replace
  rw [hm, hseq, ht, Db.updateMemory, List.map_map, List.map_map]
  refine congrArg (Catalogue.mk · _ _) (List.map_congr_left fun m _ => ?_)
  show entryOf agent (if m.id = id then f m else m) = if m.id = id then _ else entryOf agent m
  split
  · exact hf m
  · rfl

omit [F64 F] in
/-- The versioning phase of a row, as the catalogue sees it. -/
private theorem versionConflict_ok {agent : String} {p : PlannedRow F} {s t : Conn F}
    (hash : p.row.textHash = env.sha256Hex p.row.text)
    (h : versionConflict env p s = (.ok (), t)) :
    catalogueOf agent t.db = (catalogueOf agent s.db).revise (p.row.key, p.fate) := by
  unfold versionConflict at h
  unfold Catalogue.revise
  cases hfate : p.fate with
  | bump id =>
    rw [hfate] at h
    rw [(pure_ok h).2]
  | insert =>
    rw [hfate] at h
    rw [(pure_ok h).2]
  | conflict id =>
    rw [hfate] at h
    obtain ⟨row, t', hupdate, h⟩ := bind_ok h
    obtain ⟨_, rfl⟩ := pure_ok h
    obtain ⟨m, v, hupdated⟩ := update_ok hupdate
    obtain ⟨sk, now, _, hmemories⟩ := hupdated.memories
    have hrest : SameRest s.db (updateMemoryWithProvenance env id p.row.text
        (some p.row.provenance.sourceKind) (some "import: conflicting text") (some "import") s).2.db :=
      rest_update s
    rw [hupdate] at hrest
    show _ = (catalogueOf agent s.db).replace id p.row.textHash
    rw [hash]
    exact catalogueOf_retext (by exact fun _ => rfl) hmemories hupdated.memorySeq hrest.tombstones

omit [F64 F] in
/-- Without conflicts nothing is versioned. -/
theorem versionAll_unconflicted {ps : List (PlannedRow F)}
    (h : ∀ p ∈ ps, ∀ id, p.fate ≠ .conflict id) (s : Conn F) :
    forEach ps (versionConflict env) s = (.ok (), s) := by
  induction ps with
  | nil => rfl
  | cons p ps ih =>
    have hrow : versionConflict env p s = (.ok (), s) := by
      unfold versionConflict
      cases hfate : p.fate with
      | conflict id => exact absurd hfate (h p List.mem_cons_self id)
      | bump id => rfl
      | insert => rfl
    exact (bind_of_ok _ hrow).trans (ih fun q hq => h q (List.mem_cons_of_mem _ hq))

/-! ## A batch -/

omit [F64 F] in
theorem embedFresh_db {emb : Embedder F} {dim : Nat} {inputs : List String}
    {vectors : List (List F)} {s t : Conn F}
    (h : embedFresh emb dim inputs s = (.ok vectors, t)) : t.db = s.db := by
  unfold embedFresh at h
  split at h
  · exact (call_ok h).2
  · rw [(pure_ok h).2]

def PlannedRow.keyed (p : PlannedRow F) : Key × Fate := (p.row.key, p.fate)

private theorem writeAll_ok {emb : Embedder F} {agent : String} {dim : Nat} {now : Int}
    {ps : List (PlannedRow F)} {s t : Conn F}
    (h : forEach ps (writeRow env emb agent dim now) s = (.ok (), t)) :
    (catalogueOf agent s.db).writeAll (ps.map PlannedRow.keyed) = some (catalogueOf agent t.db) := by
  induction ps generalizing s with
  | nil =>
    rw [(pure_ok h).2]
    rfl
  | cons p ps ih =>
    obtain ⟨_, s₁, hrow, hrest⟩ := bind_ok h
    rw [List.map_cons, Catalogue.writeAll, PlannedRow.keyed, writeRow_ok hrow]
    exact ih hrest

omit [F64 F] in
private theorem reviseAll_ok (agent : String) {ps : List (PlannedRow F)}
    (hash : ∀ p ∈ ps, p.row.textHash = env.sha256Hex p.row.text) {s t : Conn F}
    (h : forEach ps (versionConflict env) s = (.ok (), t)) :
    catalogueOf agent t.db = (catalogueOf agent s.db).reviseAll (ps.map PlannedRow.keyed) := by
  induction ps generalizing s with
  | nil =>
    rw [(pure_ok h).2]
    rfl
  | cons p ps ih =>
    obtain ⟨_, s₁, hrow, hrest⟩ := bind_ok h
    rw [ih (fun q hq => hash q (List.mem_cons_of_mem _ hq)) hrest,
      versionConflict_ok (hash p List.mem_cons_self) hrow]
    rfl

omit [F64 F] in
/-- Every row of a batch is planned, with its fate. -/
theorem planRows_keyed (dim : Nat) (batch : List (Nat × ExportRow F)) (fates : List Fate)
    (vectors : List (List F)) :
    (planRows batch fates (embedPlan dim fates vectors)).map PlannedRow.keyed =
      (keysOf batch).zip fates := by
  induction batch generalizing fates vectors with
  | nil => rfl
  | cons r batch ih =>
    cases fates with
    | nil => rfl
    | cons fate fates =>
      cases fate with
      | insert =>
        rw [embedPlan]
        split
        · exact congrArg (_ :: ·) (ih fates vectors.tail)
        · exact congrArg (_ :: ·) (ih fates vectors)
      | bump id => exact congrArg (_ :: ·) (ih fates vectors)
      | conflict id => exact congrArg (_ :: ·) (ih fates vectors)

omit [F64 F] in
private theorem planRows_rows (dim : Nat) {batch : List (Nat × ExportRow F)} {fates : List Fate}
    (vectors : List (List F)) (hlen : fates.length = batch.length) :
    (planRows batch fates (embedPlan dim fates vectors)).map PlannedRow.row =
      batch.map Prod.snd := by
  induction batch generalizing fates vectors with
  | nil => rfl
  | cons r batch ih =>
    cases fates with
    | nil => cases hlen
    | cons fate fates =>
      have hrest : fates.length = batch.length := Nat.succ.inj hlen
      cases fate with
      | insert =>
        rw [embedPlan]
        split
        · exact congrArg (_ :: ·) (ih vectors.tail hrest)
        · exact congrArg (_ :: ·) (ih vectors hrest)
      | bump id => exact congrArg (_ :: ·) (ih vectors hrest)
      | conflict id => exact congrArg (_ :: ·) (ih vectors hrest)

/-- The counts of a batch that was applied. -/
def tally (fates : List Fate) : Nat × Nat × Nat :=
  (fates.countP Fate.isInsert, fates.countP Fate.isBump, fates.countP Fate.isConflict)

/-- Rows whose recorded hash is that of their text. -/
def Hashed (env : Env F) (batch : List (Nat × ExportRow F)) : Prop :=
  ∀ r ∈ batch, r.2.textHash = env.sha256Hex r.2.text

/-- The phases of a batch that goes through. -/
theorem processBatch_phases {emb : Embedder F} {agent : String} {dim : Nat}
    {batch : List (Nat × ExportRow F)} {s t : Conn F} {done : Nat × Nat × Nat}
    (h : processBatch env emb agent dim batch false s = (.ok done, t)) :
    ∃ fates ps now u v, classifyAll s.db agent batch = .ok fates ∧ u.db = s.db ∧
      ps.map PlannedRow.keyed = (keysOf batch).zip fates ∧ ps.map PlannedRow.row = batch.map Prod.snd ∧
      forEach ps (writeRow env emb agent (if 0 < emb.dim then dim else 0) now) u = (.ok (), v) ∧
      forEach ps (versionConflict env) v = (.ok (), t) ∧ done = tally fates := by
  unfold processBatch at h
  obtain ⟨fates, s₁, hfates, h⟩ := bind_ok h
  obtain ⟨hclass, hs₁⟩ := query_ok hfates
  rw [if_neg Bool.false_ne_true] at h
  obtain ⟨vectors, s₂, hembed, h⟩ := bind_ok h
  obtain ⟨now, s₃, hnow, h⟩ := bind_ok h
  obtain ⟨_, s₄, hwrite, h⟩ := bind_ok h
  obtain ⟨_, s₅, hversion, h⟩ := bind_ok h
  obtain ⟨rfl, rfl⟩ := pure_ok h
  have hs₃ : s₃.db = s.db := by
    rw [← (Prod.mk.inj hnow).2, embedFresh_db hembed, hs₁]
  have hlen : fates.length = batch.length := by
    rw [Catalogue.fates_length (classifyAll_ok_iff.mp hclass), keysOf, List.length_map]
  exact ⟨fates, _, now, s₃, s₄, hclass, hs₃, planRows_keyed _ batch fates vectors,
    planRows_rows _ vectors hlen, hwrite, hversion, rfl⟩

/-- A batch that goes through does to the catalogue what the catalogue says. -/
theorem processBatch_ok {emb : Embedder F} {agent : String} {dim : Nat}
    {batch : List (Nat × ExportRow F)} (hash : Hashed env batch) {s t : Conn F}
    {done : Nat × Nat × Nat}
    (h : processBatch env emb agent dim batch false s = (.ok done, t)) :
    ∃ fates, (catalogueOf agent s.db).batch (keysOf batch) =
      some (fates, catalogueOf agent t.db) ∧ done = tally fates := by
  obtain ⟨fates, ps, now, u, v, hclass, hu, hkeyed, hrows, hwrite, hversion, hdone⟩ :=
    processBatch_phases h
  have hwritten := writeAll_ok hwrite
  have hrevised := reviseAll_ok agent (fun p hp => ?_) hversion
  · rw [hkeyed, hu] at hwritten
    rw [hkeyed] at hrevised
    refine ⟨fates, ?_, hdone⟩
    rw [Catalogue.batch, classifyAll_ok_iff.mp hclass, Option.bind_some, hwritten, hrevised]
    rfl
  · have hrow : p.row ∈ batch.map Prod.snd := hrows ▸ List.mem_map_of_mem hp
    obtain ⟨r, hr, heq⟩ := List.mem_map.mp hrow
    rw [← heq]
    exact hash r hr

/-! ## When a batch goes through -/

/-- What validation establishes about a row. -/
structure Vetted (env : Env F) (row : ExportRow F) : Prop where
  tombstone : row.tombstoneOf = none
  hash : row.textHash = env.sha256Hex row.text
  tier : (Tier.ofSql? row.tier).isSome
  kind : (Kind.ofSql? row.kind).isSome
  status : (Status.ofSql? row.status).isSome
  source : (SourceKind.ofSql? row.provenance.sourceKind).isSome
  confidence : (F64.le (F64.ofRat 0) row.confidence && F64.le row.confidence (F64.ofRat 1)) = true

omit [F64 F] in
theorem tier_listed {s : String} (h : s ∈ TIERS) : (Tier.ofSql? s).isSome := by
  simp only [TIERS, List.mem_cons, List.not_mem_nil, or_false] at h
  rcases h with rfl | rfl | rfl | rfl <;> rfl

omit [F64 F] in
private theorem kind_listed {s : String} (h : s ∈ KINDS) : (Kind.ofSql? s).isSome := by
  simp only [KINDS, List.mem_cons, List.not_mem_nil, or_false] at h
  rcases h with rfl | rfl | rfl | rfl | rfl | rfl | rfl | rfl <;> rfl

omit [F64 F] in
private theorem status_listed {s : String} (h : s ∈ STATUSES) : (Status.ofSql? s).isSome := by
  simp only [STATUSES, List.mem_cons, List.not_mem_nil, or_false] at h
  rcases h with rfl | rfl | rfl <;> rfl

omit [F64 F] in
private theorem source_listed {s : String} (h : s ∈ SOURCES) : (SourceKind.ofSql? s).isSome := by
  simp only [SOURCES, List.mem_cons, List.not_mem_nil, or_false] at h
  rcases h with rfl | rfl | rfl | rfl | rfl | rfl <;> rfl

omit [F64 F] in
theorem passed {c : Prop} [Decidable c] {e : Error} {x : Except Error Unit}
    (h : (if c then .error e else x) = .ok ()) : ¬ c ∧ x = .ok () := by
  by_cases hc : c
  · rw [if_pos hc] at h
    cases h
  · rw [if_neg hc] at h
    exact ⟨hc, h⟩

theorem vetted_of_validate {lineNo : Nat} {row : ExportRow F} {schema : Int}
    (h : validateRow env lineNo row schema = .ok ()) : Vetted env row := by
  unfold validateRow at h
  obtain ⟨htombstone, h⟩ := passed h
  obtain ⟨_, h⟩ := passed h
  obtain ⟨_, h⟩ := passed h
  obtain ⟨_, h⟩ := passed h
  obtain ⟨hash, h⟩ := passed h
  obtain ⟨htier, h⟩ := passed h
  obtain ⟨hkind, h⟩ := passed h
  obtain ⟨hstatus, h⟩ := passed h
  obtain ⟨_, h⟩ := passed h
  obtain ⟨hsource, h⟩ := passed h
  obtain ⟨hconfidence, h⟩ := passed h
  constructor
  case tombstone => exact Option.not_isSome_iff_eq_none.mp htombstone
  case hash => exact not_not.mp hash
  case tier => exact tier_listed (not_not.mp htier)
  case kind => exact kind_listed (not_not.mp hkind)
  case status => exact status_listed (not_not.mp hstatus)
  case source => exact source_listed (not_not.mp hsource)
  case confidence =>
    by_contra hout
    rw [Bool.eq_false_iff.mpr hout] at hconfidence
    exact hconfidence rfl

/-- An embedder that answers every call with vectors of a store's dimension. -/
def Answers (emb : Embedder F) (dim : Nat) : Prop :=
  0 < emb.dim → ∀ n texts, ∃ vectors, emb.embed n texts = .ok vectors ∧
    ∀ vec ∈ vectors, vec.length = dim

omit [F64 F] in
private theorem mem_embedPlan {dim : Nat} {fates : List Fate} {vectors : List (List F)} {vec : List F}
    (h : some vec ∈ embedPlan dim fates vectors) : vec ∈ vectors := by
  induction fates generalizing vectors with
  | nil => cases h
  | cons fate fates ih =>
    cases fate with
    | insert =>
      rw [embedPlan] at h
      split at h
      · rcases List.mem_cons.mp h with hhead | htail
        · exact List.mem_of_mem_head? hhead.symm
        · exact List.mem_of_mem_tail (ih htail)
      · rcases List.mem_cons.mp h with hhead | htail
        · cases hhead
        · exact ih htail
    | bump id =>
      rcases List.mem_cons.mp h with hhead | htail
      · cases hhead
      · exact ih htail
    | conflict id =>
      rcases List.mem_cons.mp h with hhead | htail
      · cases hhead
      · exact ih htail

omit [F64 F] in
/-- The vectors that are stored are among those the embedder returned. -/
private theorem planned_dim {emb : Embedder F} {dim d : Nat} {batch : List (Nat × ExportRow F)}
    {fates : List Fate} {vectors : List (List F)} (hdim : ∀ vec ∈ vectors, vec.length = d)
    {p : PlannedRow F} (hp : p ∈ planRows batch fates (embedPlan dim fates vectors)) :
    ∀ vec ∈ (embedding emb dim p.vector).2, vec.length = d := by
  intro vec hvec
  rcases embedding_cases emb dim p.vector with ⟨stored, hvector, _, hstored⟩ | ⟨_, hnone⟩
  · rw [hstored] at hvec
    obtain rfl := Option.some.inj hvec
    exact hdim _ (mem_embedPlan (hvector ▸ (mem_planRows hp).2))
  · rw [hnone] at hvec
    cases hvec

omit [F64 F] in
private theorem embedFresh_succeeds {emb : Embedder F} {dim : Nat} (h : Answers emb dim)
    {inputs : List String} {s : Conn F} :
    Succeeds (embedFresh emb (if 0 < emb.dim then dim else 0) inputs) s := by
  by_cases hpos : 0 < emb.dim
  · rw [if_pos hpos, embedFresh]
    split
    · obtain ⟨vectors, hvectors, _⟩ := h hpos s.sent.length inputs
      exact ⟨vectors, _, by rw [call_run, hvectors]⟩
    · exact succeeds_pure [] s
  · rw [if_neg hpos]
    exact succeeds_pure [] s

omit [F64 F] in
private theorem embedFresh_dim {emb : Embedder F} {dim : Nat} (h : Answers emb dim)
    {inputs : List String} {vectors : List (List F)} {s t : Conn F}
    (hrun : embedFresh emb (if 0 < emb.dim then dim else 0) inputs s = (.ok vectors, t)) :
    ∀ vec ∈ vectors, vec.length = dim := by
  by_cases hpos : 0 < emb.dim
  · rw [if_pos hpos, embedFresh] at hrun
    split at hrun
    · obtain ⟨vectors', hvectors, hdim⟩ := h hpos s.sent.length inputs
      rw [(call_ok hrun).1] at hvectors
      rw [Except.ok.inj hvectors]
      exact hdim
    · rw [← (pure_ok hrun).1]
      exact List.forall_mem_nil _
  · rw [if_neg hpos] at hrun
    have hnone : (pure [] : Write F (List (List F))) s = (.ok vectors, t) := hrun
    rw [← (pure_ok hnone).1]
    exact List.forall_mem_nil _

/-- The rows still to be written, and the state to write them in. -/
structure Writable (env : Env F) (emb : Embedder F) (agent : String) (dim d : Nat)
    (ps : List (PlannedRow F)) (s : Conn F) : Prop where
  wellformed : Wellformed env s.db
  embedDim : s.db.embedDim = d
  vetted : ∀ p ∈ ps, Vetted env p.row
  vectors : ∀ p ∈ ps, ∀ vec ∈ (embedding emb dim p.vector).2, vec.length = d
  there : ∀ p ∈ ps, ∀ id ∈ Catalogue.target p.fate, (catalogueOf agent s.db).Has id
  allowed : ((catalogueOf agent s.db).writeAll (ps.map PlannedRow.keyed)).isSome

omit [F64 F] in
theorem memory?_of_has {agent : String} {db : Db F} {id : Int} (h : (catalogueOf agent db).Has id) :
    ∃ m, db.memory? id = some m := by
  apply memory?_found.mpr
  have hids : (catalogueOf agent db).entries.map Entry.id = db.memories.map Memory.id := by
    rw [catalogueOf, List.map_map]
    rfl
  exact hids ▸ h

/-- What a batch may store: every row is hashed, and the vectors are those of the embedder. -/
abbrev importGrant : Grant := .storing (fun _ => True) True

private theorem writeRow_edits (emb : Embedder F) (agent : String) (dim : Nat) (now : Int)
    {p : PlannedRow F} (hash : p.row.textHash = env.sha256Hex p.row.text) :
    Moves (Edits env importGrant) (writeRow env emb agent dim now p) := by
  unfold writeRow
  split
  · exact moves_bump (.inr trivial)
  · exact moves_pure ()
  · exact moves_insertRow trivial hash trivial

private theorem writeRow_rest {emb : Embedder F} {agent : String} {dim : Nat} {now : Int}
    {p : PlannedRow F} : Moves (OnDb SameRest) (writeRow env emb agent dim now p) := by
  unfold writeRow
  split
  · exact rest_bump
  · exact moves_pure ()
  · exact rest_insertRow

theorem Writable.next {emb : Embedder F} {agent : String} {dim d : Nat} {now : Int}
    {p : PlannedRow F} {ps : List (PlannedRow F)} {s t : Conn F}
    (h : Writable env emb agent dim d (p :: ps) s)
    (hrun : writeRow env emb agent dim now p s = (.ok (), t)) :
    Writable env emb agent dim d ps t := by
  have hedits := writeRow_edits emb agent dim now
    (h.vetted p List.mem_cons_self).hash s
  have hrest : SameRest s.db (writeRow env emb agent dim now p s).2.db := writeRow_rest s
  rw [hrun] at hedits hrest
  have hwrite := writeRow_ok hrun
  refine ⟨preserves_of_edits hedits.db (fun _ _ => Edit.wellformed) h.wellformed,
    hrest.embedDim.trans h.embedDim, fun q hq => h.vetted q (List.mem_cons_of_mem _ hq),
    fun q hq => h.vectors q (List.mem_cons_of_mem _ hq), fun q hq id hid => ?_, ?_⟩
  · exact Catalogue.has_write hwrite (h.there q (List.mem_cons_of_mem _ hq) id hid)
  · have hall := h.allowed
    rw [List.map_cons, Catalogue.writeAll, PlannedRow.keyed, hwrite, Option.bind_some] at hall
    exact hall

section

variable (hfault : ∀ n, env.fault n = false)

include hfault

private theorem insertRow_succeeds {emb : Embedder F} {agent : String} {dim : Nat} {now : Int}
    {p : PlannedRow F} {s : Conn F} (hdb : Wellformed env s.db) (hrow : Vetted env p.row)
    (hname : ∀ m ∈ s.db.memories, m.publicId ≠ p.row.publicId)
    (hvec : ∀ vec ∈ (embedding emb dim p.vector).2, vec.length = s.db.embedDim) :
    Succeeds (insertRow env emb agent dim now p) s := by
  have haccepted : (importedRow agent (embedding emb dim p.vector).1 p.row).Accepted s.db :=
    ⟨hrow.tier, hrow.kind, hrow.status, hrow.source, hrow.confidence, hname⟩
  obtain ⟨m, db, hm⟩ := haccepted.insert
  rw [insertRow_eq]
  refine succeeds_bind (succeeds_exec hfault ⟨_, hm⟩) fun m s₁ hrow => ?_
  have hversion := insertVersion_fresh hdb (exec_ok hrow) (v := importedVersion p.row now m) rfl
  refine succeeds_bind (succeeds_exec hfault ⟨_, hversion⟩) fun _ s₂ hs₂ => ?_
  have hs₂ := exec_ok hs₂
  rw [hversion] at hs₂
  cases hstored : (embedding emb dim p.vector).2 with
  | none => exact succeeds_pure () _
  | some vec =>
    apply succeeds_exec hfault
    rw [← (Prod.mk.inj (Except.ok.inj hs₂)).2]
    exact ⟨_, insertVec_fresh hdb (exec_ok hrow) rfl (hvec vec hstored)⟩

private theorem writeRow_succeeds {emb : Embedder F} {agent : String} {dim d : Nat} {now : Int}
    {p : PlannedRow F} {ps : List (PlannedRow F)} {s : Conn F}
    (h : Writable env emb agent dim d (p :: ps) s) :
    Succeeds (writeRow env emb agent dim now p) s := by
  have hvetted := h.vetted p List.mem_cons_self
  have hallowed := h.allowed
  rw [List.map_cons, Catalogue.writeAll, Option.isSome_iff_exists] at hallowed
  obtain ⟨_, hall⟩ := hallowed
  obtain ⟨cat, hcat, _⟩ := Option.bind_eq_some_iff.mp hall
  have hthere := h.there p List.mem_cons_self
  unfold writeRow
  unfold Catalogue.write PlannedRow.keyed at hcat
  cases hfate : p.fate with
  | bump id =>
    obtain ⟨m, hm⟩ := memory?_of_has (hthere id (by rw [hfate]; rfl))
    exact bump_succeeds hfault hm rfl hvetted.source
  | conflict id => exact succeeds_pure () s
  | insert =>
    rw [hfate] at hcat
    refine insertRow_succeeds hfault h.wellformed hvetted (fun m hm heq => ?_) fun vec hvec => ?_
    · unfold Catalogue.add at hcat
      rw [if_pos] at hcat
      · cases hcat
      · exact List.any_eq_true.mpr ⟨entryOf agent m, List.mem_map_of_mem hm, decide_eq_true heq⟩
    · rw [h.embedDim]
      exact h.vectors p List.mem_cons_self vec hvec

private theorem writeAll_succeeds {emb : Embedder F} (agent : String) {dim : Nat} (d : Nat)
    {now : Int}
    {ps : List (PlannedRow F)} {s : Conn F} (h : Writable env emb agent dim d ps s) :
    Succeeds (forEach ps (writeRow env emb agent dim now)) s :=
  succeeds_forEach (P := Writable env emb agent dim d)
    (fun _ _ _ hs => writeRow_succeeds hfault hs) (fun _ _ _ _ hs hrun => hs.next hrun) h

omit [F64 F] in
private theorem reviseAll_succeeds (agent : String) {ps : List (PlannedRow F)} {s : Conn F}
    (hvetted : ∀ p ∈ ps, p.row.textHash = env.sha256Hex p.row.text ∧
      (SourceKind.ofSql? p.row.provenance.sourceKind).isSome)
    (hthere : ∀ p ∈ ps, ∀ id ∈ Catalogue.target p.fate, (catalogueOf agent s.db).Has id) :
    Succeeds (forEach ps (versionConflict env)) s := by
  induction ps generalizing s with
  | nil => exact succeeds_pure () s
  | cons p ps ih =>
    refine succeeds_bind ?_ fun _ t hrun => ?_
    · unfold versionConflict
      cases hfate : p.fate with
      | bump id => exact succeeds_pure () s
      | insert => exact succeeds_pure () s
      | conflict id =>
        obtain ⟨m, hm⟩ := memory?_of_has (hthere p List.mem_cons_self id (by rw [hfate]; rfl))
        refine succeeds_bind (update_succeeds hfault hm fun k hk => ?_) fun _ _ _ =>
          succeeds_pure () _
        obtain rfl := Option.some.inj hk
        exact (hvetted p List.mem_cons_self).2
    · refine ih (fun q hq => hvetted q (List.mem_cons_of_mem _ hq)) fun q hq id hid => ?_
      rw [versionConflict_ok (hvetted p List.mem_cons_self).1 hrun]
      exact Catalogue.has_revise.mpr (hthere q (List.mem_cons_of_mem _ hq) id hid)

/-- Without faults a batch goes through when the catalogue lets it. -/
theorem processBatch_succeeds {emb : Embedder F} {agent : String}
    {batch : List (Nat × ExportRow F)} {s : Conn F} (hdb : Wellformed env s.db)
    (hvetted : ∀ r ∈ batch, Vetted env r.2) (hemb : Answers emb s.db.embedDim)
    (hcat : ((catalogueOf agent s.db).batch (keysOf batch)).isSome) :
    Succeeds (processBatch env emb agent s.db.embedDim batch false) s := by
  obtain ⟨⟨fates, cat⟩, hbatch⟩ := Option.isSome_iff_exists.mp hcat
  obtain ⟨fates', hfates, hwritten⟩ := Option.bind_eq_some_iff.mp hbatch
  obtain ⟨written, hwrite, heq⟩ := Option.map_eq_some_iff.mp hwritten
  obtain ⟨rfl, rfl⟩ := Prod.mk.inj heq
  unfold processBatch
  refine succeeds_bind (succeeds_query hfault ⟨_, classifyAll_ok_iff.mpr hfates⟩)
    fun fates s₁ hread => ?_
  obtain ⟨hclass, hs₁⟩ := query_ok hread
  obtain rfl := Option.some.inj (hfates.symm.trans (classifyAll_ok_iff.mp hclass))
  rw [if_neg Bool.false_ne_true]
  refine succeeds_bind (embedFresh_succeeds hemb) fun vectors s₂ hembed => ?_
  refine succeeds_bind ⟨_, _, rfl⟩ fun now s₃ hnow => ?_
  have hs₃ : s₃.db = s.db := by
    rw [← (Prod.mk.inj hnow).2, embedFresh_db hembed, hs₁]
  have hvetted' : ∀ p ∈ planRows batch fates'
      (embedPlan (if 0 < emb.dim then s.db.embedDim else 0) fates' vectors), Vetted env p.row := by
    intro p hp
    obtain ⟨⟨r, hr, hpr⟩, _⟩ := mem_planRows hp
    exact hpr ▸ hvetted r hr
  have hthere : ∀ p ∈ planRows batch fates'
      (embedPlan (if 0 < emb.dim then s.db.embedDim else 0) fates' vectors),
      ∀ id ∈ Catalogue.target p.fate, (catalogueOf agent s.db).Has id := by
    intro p hp
    have hkeyed := List.mem_map_of_mem (f := PlannedRow.keyed) hp
    rw [planRows_keyed] at hkeyed
    exact Catalogue.has_of_fates hfates _ hkeyed
  refine succeeds_bind (writeAll_succeeds hfault agent s.db.embedDim ?_)
    fun _ s₄ hs₄ => ?_
  · refine ⟨hs₃ ▸ hdb, by rw [hs₃], hvetted', fun p hp => ?_, hs₃ ▸ hthere, ?_⟩
    · exact planned_dim (embedFresh_dim hemb hembed) hp
    · rw [planRows_keyed, hs₃, hwrite]
      rfl
  have hwritten := writeAll_ok hs₄
  rw [hs₃] at hwritten
  refine succeeds_bind (reviseAll_succeeds hfault agent
    (fun p hp => ⟨(hvetted' p hp).hash, (hvetted' p hp).source⟩) fun p hp id hid => ?_)
    fun _ _ _ => succeeds_pure _ _
  exact Catalogue.has_writeAll hwritten (hthere p hp id hid)

end

end AgosMemory.Export
