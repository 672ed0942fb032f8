import AgosMemory.System
import AgosMemory.Storage.Edits

/-!
# The edits of each operation

The programs above the store, down to one step of a run, for any relation `R` that holds along the
edits of a grant. Everything the persist paths and the Markdown ingest store or send is redacted
first. Between two statements of a closure `R` may fail to hold, so the closures whose statements
belong together are left to rules of their own.
-/

namespace AgosMemory

open Library Library.Program Store

variable {F : Type} [F64 F] {env : Env F} {G : Grant}

private theorem moves_call {emb : Embedder F} {texts : List String} (h : ∀ t ∈ texts, G.text t) :
    Moves (Edits env G) (emb.call texts) := by
  intro s
  refine ⟨rfl, .refl, fun batch hb => ?_⟩
  rcases List.mem_append.mp hb with hb | hb
  · exact .inl hb
  · obtain rfl := List.mem_singleton.mp hb
    exact .inr h

omit [F64 F] in
theorem call_ok {emb : Embedder F} {texts : List String} {s t : Conn F} {vecs : List (List F)}
    (h : emb.call texts s = (.ok vecs, t)) :
    emb.embed s.sent.length texts = .ok vecs ∧ t.db = s.db := by
  obtain ⟨hvecs, rfl⟩ := Prod.mk.inj h
  exact ⟨hvecs, rfl⟩

/-- The vector of a planned row is what the embedder answered for the text of the row. -/
def Answered (emb : Embedder F) (p : Export.PlannedRow F) : Prop :=
  ∀ vec ∈ p.vector, ∃ n texts vecs, ∃ i : Nat, emb.embed n texts = .ok vecs ∧
    texts[i]? = some p.row.text ∧ vecs[i]? = some vec

/-- The closures that belong together keep a relation. -/
structure Rules (env : Env F) (G : Grant) (R : Conn F → Conn F → Prop) : Prop where
  edits : ∀ c c', Edits env G c c' → R c c'
  redacted : ∀ t, G.text (Redact.redact t)
  bump : ∀ shape id source now, Moves R (bump env shape id source now)
  update : ∀ id text source reason createdBy, G.text text →
    Moves R (updateMemoryWithProvenance env id text source reason createdBy)

/-- The inserts of embedded rows keep a relation. -/
structure Inserts (env : Env F) (G : Grant) (R : Conn F → Conn F → Prop) (emb : Embedder F) :
    Prop where
  fresh : ∀ n (cand : Persist.Candidate F) ev sk pending vecs now,
    emb.embed n [Redact.redact cand.text] = .ok vecs →
    Moves R (Persist.insertEmbedded env emb cand (Redact.redact cand.text) ev sk pending
      (vecs.headD []) now)
  row : ∀ agent dim now (p : Export.PlannedRow F), Answered emb p → G.text p.row.text →
    p.row.textHash = env.sha256Hex p.row.text →
    Moves R (Export.insertRow env emb agent dim now p)

section Persist

open Persist

private theorem moves_insertFresh {cand : Candidate F} {text ev sk : String} {pending : F}
    {e : Embedded}
    {now : Int} (htext : G.text text) (he : e.status ≠ .ok ∨ G.embedded) :
    Moves (Edits env G) (insertFresh env cand text ev sk pending e now) := by
  unfold insertFresh
  refine moves_bind moves_newUuid fun publicId => ?_
  refine moves_bind moves_get fun c => ?_
  refine moves_bind (moves_exec fun db row db' h => .insertRow h htext rfl rfl he) fun row => ?_
  refine moves_bind (moves_exec fun db _ db' h => .insertVersion h (.inl htext) rfl) fun _ => ?_
  exact moves_pure row

/-- The two statements behind a fresh row. -/
theorem insertFresh_ok {cand : Candidate F} {text ev sk : String} {pending : F} {e : Embedded}
    {now : Int} {s t : Conn F} {m : Memory F}
    (h : insertFresh env cand text ev sk pending e now s = (.ok m, t)) :
    ∃ publicId db, insertMemoryRow (freshRow env s.agentId publicId cand text ev sk pending e now)
        s.db = .ok (m, db) ∧
      insertVersion { memoryId := m.id, version := 1, text, textHash := env.sha256Hex text
                      createdAt := now } db = .ok ((), t.db) ∧ t.agentId = s.agentId := by
  unfold insertFresh at h
  obtain ⟨publicId, s₁, hid, h⟩ := bind_ok h
  obtain ⟨_, rfl⟩ := Prod.mk.inj hid
  obtain ⟨c, s₂, hc, h⟩ := bind_ok h
  obtain ⟨rfl, rfl⟩ := get_ok hc
  obtain ⟨row, s₃, hrow, h⟩ := bind_ok h
  obtain ⟨_, s₄, hversion, h⟩ := bind_ok h
  obtain ⟨rfl, rfl⟩ := pure_ok h
  have hrow' := exec_ok hrow
  refine ⟨_, _, hrow', exec_ok hversion, ?_⟩
  rw [(exec_cases hversion).1, (exec_cases hrow).1]

/-- The statements of a fresh row, and what follows them. -/
theorem insertFresh_bind {α : Type} {cand : Candidate F} {text ev sk : String} {pending : F}
    {e : Embedded} {now : Int} {k : Memory F → Write F α} {s : Conn F} :
    (insertFresh env cand text ev sk pending e now >>= k) s =
      (exec env (insertMemoryRow (freshRow env s.agentId (env.uuid s.uuids) cand text ev sk pending
          e now)) >>= fun m => exec env (insertVersion {
            memoryId := m.id, version := 1, text, textHash := env.sha256Hex text
            createdAt := now }) >>= fun _ => k m) { s with uuids := s.uuids + 1 } := by
  unfold insertFresh
  simp only [bind_assoc]
  rfl

theorem moves_insertEmbedded {emb : Embedder F} {cand : Candidate F} {text ev sk : String}
    {pending : F} {vec : List F} {now : Int} (htext : G.text text) (hok : G.embedded) :
    Moves (Edits env G) (insertEmbedded env emb cand text ev sk pending vec now) := by
  unfold insertEmbedded
  refine moves_bind_from
    (fun m (c : Conn F) => m ∈ c.db.memories ∧ m.embedStatus = .ok ∧ m.pinned = 0)
    (moves_insertFresh htext (.inr hok)) (fun s m t h => ?_) fun m => ?_
  · obtain ⟨publicId, db, hrow, hversion, _⟩ := insertFresh_ok h
    obtain ⟨hbuilt, _, rfl⟩ := insertMemoryRow_ok hrow
    exact ⟨memories_of_insertVersion hversion ▸ List.mem_append_right _ (List.mem_singleton_self m),
      hbuilt.embedStatus, hbuilt.pinned⟩
  · refine movesFrom_bind (fun _ _ => True) (movesFrom_exec fun c _ db' hc h => ?_)
      (fun _ _ _ _ _ => trivial) fun _ => (moves_pure _).from
    rw [← hc.2.2] at h
    exact .insertVec hc.1 hc.2.1 h

section

variable {R : Conn F → Conn F → Prop} [Std.Refl R] [IsTrans (Conn F) R] (hR : Rules env G R)

include hR

theorem moves_persistFull {emb : Embedder F} {cand : Candidate F} {ev sk : String}
    {pending dedup : F} (hins : Inserts env G R emb) :
    Moves R (persistCandidateFull env emb cand ev sk pending dedup) := by
  unfold persistCandidateFull
  refine moves_bind_from
    (fun vecs _ => ∃ n, emb.embed n [Redact.redact cand.text] = .ok vecs)
    ((moves_call fun t ht => List.mem_singleton.mp ht ▸ hR.redacted _).mono hR.edits)
    (fun s vecs t h => ⟨_, (call_ok h).1⟩) fun vecs => ?_
  intro s hn
  obtain ⟨n, hn⟩ := hn
  refine moves_bind (moves_nowMillis.mono hR.edits) (fun now => ?_) s
  refine moves_bind (moves_query.mono hR.edits) fun chosen => ?_
  cases chosen with
  | none => exact hins.fresh n cand ev sk pending vecs now hn
  | some rowid =>
    refine moves_bind (hR.bump _ _ _ _) fun _ => ?_
    exact moves_bind (moves_query.mono hR.edits) fun row => moves_pure _

theorem moves_persistNoVector {cand : Candidate F} {ev sk : String} {pending : F}
    {status : EmbedStatus} (hstatus : status ≠ .ok) :
    Moves R (persistCandidateNoVector env cand ev sk pending status) := by
  unfold persistCandidateNoVector
  refine moves_bind (moves_nowMillis.mono hR.edits) fun now => ?_
  refine moves_bind (moves_query.mono hR.edits) fun chosen => ?_
  cases chosen with
  | none =>
    refine moves_bind ((moves_insertFresh (hR.redacted _) (.inl hstatus)).mono hR.edits)
      fun row => ?_
    exact moves_pure _
  | some id =>
    refine moves_bind (hR.bump _ _ _ _) fun _ => ?_
    exact moves_bind (moves_query.mono hR.edits) fun row => moves_pure _

private theorem moves_remember {emb : Embedder F} {cand : Candidate F} {ev sk : String}
    {pending dedup : F} (hins : Inserts env G R emb) :
    Moves R (remember env emb cand ev sk pending dedup) := by
  unfold remember
  refine moves_bind (moves_attempt (moves_persistFull hR hins)) fun outcome => ?_
  split
  · exact moves_pure _
  · refine moves_bind (moves_persistNoVector hR (by decide)) fun report => ?_
    exact moves_pure _
  · exact moves_fail _

end

end Persist

section Import

open Export

omit [F64 F] in
/-- A row of an import is marked as embedded exactly when it comes with a vector. -/
theorem embedding_cases (emb : Embedder F) (dim : Nat) (vector : Option (List F)) :
    (∃ vec, vector = some vec ∧ (embedding emb dim vector).1.status = .ok ∧
        (embedding emb dim vector).2 = some vec) ∨
      ((embedding emb dim vector).1.status ≠ .ok ∧ (embedding emb dim vector).2 = none) := by
  unfold embedding
  split
  · exact .inr ⟨nofun, rfl⟩
  · split
    · exact .inl ⟨_, rfl, rfl, rfl⟩
    · exact .inr ⟨nofun, rfl⟩

theorem moves_insertRow {emb : Embedder F} {agent : String} {dim : Nat} {now : Int}
    {p : PlannedRow F} (htext : G.text p.row.text)
    (hash : p.row.textHash = env.sha256Hex p.row.text) (hok : G.embedded) :
    Moves (Edits env G) (insertRow env emb agent dim now p) := by
  unfold insertRow
  refine moves_bind_from (fun m (c : Conn F) => m ∈ c.db.memories ∧
      m.embedStatus = (embedding emb dim p.vector).1.status ∧ m.pinned = p.row.pinned)
    (moves_exec fun db m db' h => .insertRow h htext hash rfl (.inr hok)) (fun s m t h => ?_)
    fun m => ?_
  · obtain ⟨hbuilt, _, hdb⟩ := insertMemoryRow_ok (exec_ok h)
    exact ⟨hdb ▸ List.mem_append_right _ (List.mem_singleton_self m), hbuilt.embedStatus,
      hbuilt.pinned⟩
  refine movesFrom_bind (fun _ c => m ∈ c.db.memories ∧
      m.embedStatus = (embedding emb dim p.vector).1.status ∧ m.pinned = p.row.pinned)
    (moves_exec fun db _ db' h => .insertVersion h (.inl htext) hash).from
    (fun s _ t hs h => ⟨memories_of_insertVersion (exec_ok h) ▸ hs.1, hs.2⟩) fun _ => ?_
  rcases embedding_cases emb dim p.vector with ⟨vec, _, hok, hstored⟩ | ⟨_, hstored⟩
  · rw [hstored]
    refine movesFrom_exec fun c _ db' hc h => ?_
    rw [← hc.2.2] at h
    exact .insertVec hc.1 (hc.2.1.trans hok) h
  · rw [hstored]
    exact (moves_pure ()).from

/-! The vectors are handed out in the order in which the texts were sent. -/

omit [F64 F] in
private theorem planRows_answered {emb : Embedder F} {dim n : Nat} (hdim : 0 < dim)
    {texts : List String}
    {vecs : List (List F)} (hvecs : emb.embed n texts = .ok vecs) {batch : List (Nat × ExportRow F)}
    {fates : List Fate} {k : Nat} (htexts : texts.drop k = freshTexts batch fates) :
    ∀ p ∈ planRows batch fates (embedPlan dim fates (vecs.drop k)), Answered emb p := by
  induction batch generalizing fates k with
  | nil => intro p hp; cases hp
  | cons r batch ih =>
    cases fates with
    | nil => intro p hp; cases hp
    | cons fate fates =>
      cases fate with
      | insert =>
        have hdrop : texts.drop k = r.2.text :: freshTexts batch fates := htexts
        rw [embedPlan, if_pos hdim, List.tail_drop]
        intro p hp
        rcases List.mem_cons.mp hp with rfl | hp
        · intro vec hvec
          refine ⟨n, texts, vecs, k, hvecs, ?_, ?_⟩
          · rw [← List.head?_drop, hdrop, List.head?_cons]
          · rw [← List.head?_drop]
            exact hvec
        · refine ih ?_ p hp
          rw [← List.tail_drop, hdrop, List.tail_cons]
      | bump id =>
        intro p hp
        rcases List.mem_cons.mp hp with rfl | hp
        · intro vec hvec; cases hvec
        · exact ih htexts p hp
      | conflict id =>
        intro p hp
        rcases List.mem_cons.mp hp with rfl | hp
        · intro vec hvec; cases hvec
        · exact ih htexts p hp

omit [F64 F] in
private theorem embedPlan_nil {dim : Nat} (fates : List Fate) :
    ∀ vec ∈ embedPlan (F := F) dim fates [], vec = none := by
  induction fates with
  | nil => intro vec h; cases h
  | cons fate fates ih =>
    cases fate with
    | insert =>
      rw [embedPlan]
      split <;> exact List.forall_mem_cons.mpr ⟨rfl, ih⟩
    | bump id => exact List.forall_mem_cons.mpr ⟨rfl, ih⟩
    | conflict id => exact List.forall_mem_cons.mpr ⟨rfl, ih⟩

omit [F64 F] in
theorem mem_planRows {batch : List (Nat × ExportRow F)} {fates : List Fate}
    {vectors : List (Option (List F))} {p : PlannedRow F} (hp : p ∈ planRows batch fates vectors) :
    (∃ r ∈ batch, p.row = r.2) ∧ p.vector ∈ vectors := by
  induction batch generalizing fates vectors with
  | nil => cases hp
  | cons r batch ih =>
    cases fates with
    | nil => cases hp
    | cons fate fates =>
      cases vectors with
      | nil => cases hp
      | cons vector vectors =>
        rcases List.mem_cons.mp hp with rfl | hp
        · exact ⟨⟨r, List.mem_cons_self, rfl⟩, List.mem_cons_self⟩
        · obtain ⟨⟨r', hr', hrow⟩, hvec⟩ := ih hp
          exact ⟨⟨r', List.mem_cons_of_mem _ hr', hrow⟩, List.mem_cons_of_mem _ hvec⟩

omit [F64 F] in
private theorem embedFresh_answered {emb : Embedder F} {dim : Nat} {batch : List (Nat × ExportRow F)}
    {fates : List Fate} {vectors : List (List F)} {s t : Conn F}
    (h : embedFresh emb dim (freshTexts batch fates) s = (.ok vectors, t)) :
    ∀ p ∈ planRows batch fates (embedPlan dim fates vectors), Answered emb p := by
  unfold embedFresh at h
  split at h
  · next hcall => exact planRows_answered (k := 0) hcall.1 (call_ok h).1 rfl
  · obtain ⟨rfl, _⟩ := pure_ok h
    intro p hp vec hvec
    rw [embedPlan_nil fates _ (mem_planRows hp).2] at hvec
    cases hvec

/-- A row that was validated and whose text is granted. -/
def Admitted (env : Env F) (G : Grant) (row : ExportRow F) : Prop :=
  G.text row.text ∧ row.textHash = env.sha256Hex row.text

theorem validateRow_hash {lineNo : Nat} {row : ExportRow F} {schema : Int}
    (h : validateRow env lineNo row schema = .ok ()) : row.textHash = env.sha256Hex row.text := by
  unfold validateRow at h
  by_contra hne
  repeat' split at h
  all_goals cases h

section

variable {R : Conn F → Conn F → Prop} [Std.Refl R] [IsTrans (Conn F) R] (hR : Rules env G R)

include hR

omit [IsTrans (Conn F) R] in
private theorem moves_embedFresh {emb : Embedder F} {dim : Nat} {inputs : List String}
    (h : ∀ t ∈ inputs, G.text t) : Moves R (embedFresh emb dim inputs) := by
  unfold embedFresh
  split
  · exact (moves_call h).mono hR.edits
  · exact moves_pure []

omit [IsTrans (Conn F) R] in
private theorem moves_writeRow {emb : Embedder F} {agent : String} {dim : Nat} {now : Int}
    {p : PlannedRow F} (hins : Inserts env G R emb) (hp : Answered emb p)
    (hrow : Admitted env G p.row) : Moves R (writeRow env emb agent dim now p) := by
  unfold writeRow
  split
  · exact hR.bump _ _ _ _
  · exact moves_pure ()
  · exact hins.row agent dim now p hp hrow.1 hrow.2

private theorem moves_versionConflict {p : PlannedRow F} (hrow : Admitted env G p.row) :
    Moves R (versionConflict env p) := by
  unfold versionConflict
  split
  · refine moves_bind (hR.update _ _ _ _ _ hrow.1) fun _ => ?_
    exact moves_pure ()
  all_goals exact moves_pure ()

theorem moves_processBatch {emb : Embedder F} {agent : String} {dim : Nat}
    {batch : List (Nat × ExportRow F)} {dryRun : Bool} (hins : Inserts env G R emb)
    (hbatch : ∀ r ∈ batch, Admitted env G r.2) :
    Moves R (processBatch env emb agent dim batch dryRun) := by
  unfold processBatch
  refine moves_bind (moves_query.mono hR.edits) fun fates => ?_
  split
  · exact moves_pure _
  have hfresh : ∀ t ∈ freshTexts batch fates, G.text t := by
    intro t ht
    obtain ⟨q, hq, rfl⟩ := List.mem_map.mp ht
    exact (hbatch q.1 (List.of_mem_zip (List.mem_filter.mp hq).1).1).1
  dsimp only
  generalize (if 0 < emb.dim then dim else 0) = effectiveDim
  refine moves_bind_from
    (fun vectors _ => ∀ p ∈ planRows batch fates (embedPlan effectiveDim fates vectors),
      Answered emb p) (moves_embedFresh hR hfresh) (fun s vectors t h => embedFresh_answered h)
    fun vectors => ?_
  · intro s hplan
    have hrow : ∀ p ∈ planRows batch fates (embedPlan effectiveDim fates vectors),
        Admitted env G p.row := by
      intro p hp
      obtain ⟨⟨r, hr, hpr⟩, _⟩ := mem_planRows hp
      exact hpr ▸ hbatch r hr
    refine moves_bind (moves_nowMillis.mono hR.edits) (fun now => ?_) s
    refine moves_bind (moves_forEach fun p hp =>
      moves_writeRow hR hins (hplan p hp) (hrow p hp)) fun _ => ?_
    refine moves_bind (moves_forEach fun p hp =>
      moves_versionConflict hR (hrow p hp)) fun _ => ?_
    exact moves_pure _

theorem moves_importLines {emb : Embedder F} {agent : String} {dim : Nat} {schema : Int}
    {dryRun : Bool} (hins : Inserts env G R emb) {lines : List (ImportLine F)}
    (hlines : ∀ row, some (.ok row) ∈ lines → G.text row.text) {lineNo : Nat}
    {batch : List (Nat × ExportRow F)} (hbatch : ∀ r ∈ batch, Admitted env G r.2)
    {stats : ImportStats} :
    Moves R (importLines env emb agent dim schema dryRun lines lineNo batch stats) := by
  induction lines generalizing lineNo batch stats with
  | nil =>
    rw [importLines]
    split
    · exact moves_pure _
    · exact moves_bind (moves_processBatch hR hins hbatch) fun _ => moves_pure _
  | cons line lines ih =>
    have htail : ∀ row, some (.ok row) ∈ lines → G.text row.text :=
      fun row h => hlines row (List.mem_cons_of_mem _ h)
    rcases line with _ | msg | row
    · exact ih htail hbatch
    · exact moves_fail _
    · rw [importLines]
      refine moves_bind_from (fun _ _ => row.textHash = env.sha256Hex row.text) (moves_lift _)
        (fun s _ t h => validateRow_hash (lift_ok h).1) fun _ => ?_
      · intro s hash
        have hall : ∀ r ∈ batch ++ [(lineNo, row)], Admitted env G r.2 := by
          intro r hr
          rcases List.mem_append.mp hr with hr | hr
          · exact hbatch r hr
          · rw [List.mem_singleton.mp hr]
            exact ⟨hlines row List.mem_cons_self, hash⟩
        dsimp only
        split
        · exact moves_bind (moves_processBatch hR hins hall)
            (fun done => ih htail (List.forall_mem_nil _)) s
        · exact ih htail hall s

end

end Import

section Ingest

open Ingest

theorem moves_openSession {agentId : String} :
    Moves (Edits env G) (Sessions.openSession env agentId) := by
  unfold Sessions.openSession
  split
  · exact moves_fail _
  · refine moves_bind moves_newUuid fun publicId => ?_
    refine moves_bind moves_nowMillis fun now => ?_
    refine moves_exec fun db session db' h => ?_
    split at h
    · cases h
    · obtain ⟨_, rfl⟩ := Prod.mk.inj (Except.ok.inj h)
      exact .other ⟨rfl, rfl, rfl, rfl, rfl, rfl, rfl, rfl, rfl, rfl⟩

theorem moves_appendTurn {sessionId : Int} {role content : String} :
    Moves (Edits env G) (Sessions.appendTurn env sessionId role content) := by
  unfold Sessions.appendTurn
  split
  · exact moves_fail _
  split
  · exact moves_fail _
  refine moves_bind moves_nowMillis fun now => ?_
  refine moves_bind moves_query fun found => ?_
  split
  · exact moves_fail _
  refine moves_bind moves_query fun seq => ?_
  refine moves_bind (moves_run fun db =>
    .other ⟨rfl, rfl, rfl, rfl, rfl, rfl, rfl, rfl, rfl, rfl⟩) fun _ => ?_
  exact moves_pure _

private theorem moves_recordDailyTurn {item : ParsedItem} :
    Moves (Edits env G) (recordDailyTurn env item) := by
  unfold recordDailyTurn
  refine moves_bind moves_get fun c => ?_
  refine moves_bind moves_query fun session => ?_
  have hturn : ∀ session : Session, Moves (Edits env G) (Sessions.appendTurn env session.id "tool"
      ("[untrusted-file " ++ item.sourceRef ++ "] " ++ Redact.redact item.text) >>= fun _ =>
        pure ()) :=
    fun session => moves_bind moves_appendTurn fun _ => moves_pure ()
  cases session with
  | some session => exact hturn session
  | none => exact moves_bind moves_openSession hturn

private theorem moves_namedMemory {publicId : Option String} :
    Moves (Edits env G) (namedMemory env publicId) := by
  cases publicId with
  | none => exact moves_pure none
  | some publicId =>
    refine moves_bind moves_query fun found => ?_
    cases found with
    | none => exact moves_pure none
    | some _ => exact moves_query

private theorem moves_validateEmbedDim {emb : Embedder F} :
    Moves (Edits env G) (validateEmbedDim env emb) := by
  refine moves_bind moves_embedDim fun dim => ?_
  split
  · exact moves_fail _
  · exact moves_pure ()

section

variable {R : Conn F → Conn F → Prop} [Std.Refl R] [IsTrans (Conn F) R] (hR : Rules env G R)

include hR

private theorem moves_rewriteItem {item : ParsedItem} {id : Int} :
    Moves R (rewriteItem env item id) := by
  unfold rewriteItem
  refine moves_bind (hR.update _ _ _ _ _ (hR.redacted item.text)) fun updated => ?_
  refine moves_bind (moves_setSourceRef.mono hR.edits) fun _ => ?_
  exact moves_pure _

private theorem moves_writeEmbedded {cfg : IngestConfig F} {emb : Embedder F} {item : ParsedItem}
    (hins : Inserts env G R emb) : Moves R (writeEmbedded env cfg emb item) :=
  moves_bind (moves_validateEmbedDim.mono hR.edits) fun _ => moves_persistFull hR hins

private theorem moves_writeItem {cfg : IngestConfig F} {item : ParsedItem}
    (hins : ∀ emb ∈ cfg.provider.embedder, Inserts env G R emb) :
    Moves R (writeItem env cfg item) := by
  unfold writeItem
  cases hprovider : cfg.provider with
  | none => exact moves_persistNoVector hR (by decide)
  | hash emb =>
    rw [hprovider] at hins
    exact moves_writeEmbedded hR (hins emb rfl)
  | openAiCompat model emb =>
    rw [hprovider] at hins
    dsimp only
    split
    · exact moves_fail _
    · exact moves_writeEmbedded hR (hins emb rfl)

private theorem moves_storeItem {cfg : IngestConfig F} {item : ParsedItem}
    (hins : ∀ emb ∈ cfg.provider.embedder, Inserts env G R emb) :
    Moves R (storeItem env cfg item) := by
  unfold storeItem
  refine moves_bind (moves_writeItem hR hins) fun report => ?_
  refine moves_bind (moves_onlyIf (moves_setSourceRef.mono hR.edits)) fun _ => ?_
  exact moves_pure _

private theorem moves_ingestStep {cfg : IngestConfig F} {manifest : Manifest} {p : PlannedItem}
    (hins : ∀ emb ∈ cfg.provider.embedder, Inserts env G R emb) :
    Moves R (ingestStep env cfg manifest p) := by
  unfold ingestStep
  split
  · exact moves_pure _
  unfold ingestItem
  refine moves_bind (moves_namedMemory.mono hR.edits) fun named => ?_
  have hrest : ∀ publicId : String, Moves R (onlyIf p.item.daily (recordDailyTurn env p.item) >>=
      fun _ => pure (setEntry manifest p.item.sourceRef ⟨p.hash, publicId⟩)) := fun publicId =>
    moves_bind (moves_onlyIf (moves_recordDailyTurn.mono hR.edits)) fun _ => moves_pure _
  cases named with
  | some row => exact moves_bind (moves_rewriteItem hR) hrest
  | none => exact moves_bind (moves_storeItem hR hins) hrest

private theorem moves_ingest {cfg : IngestConfig F} {tree : Tree} {dryRun : Bool}
    (hins : ∀ emb ∈ cfg.provider.embedder, Inserts env G R emb) :
    Moves R (Ingest.ingest env cfg tree dryRun) := by
  unfold Ingest.ingest
  refine moves_bind (moves_lift _) fun files => ?_
  split
  · exact moves_fail _
  refine moves_bind (moves_query.mono hR.edits) fun manifest => ?_
  refine moves_bind (moves_lift _) fun parsed => ?_
  dsimp only
  split
  · exact moves_pure _
  refine moves_bind (moves_foldEach fun _ p _ => moves_ingestStep hR hins) fun next => ?_
  refine moves_bind ((moves_run fun db => ?_).mono hR.edits) fun _ => moves_pure _
  exact .other ⟨rfl, rfl, rfl, rfl, rfl, rfl, rfl, rfl, rfl, rfl⟩

end

end Ingest

/-! ## One step, whole runs -/

omit [F64 F] in
theorem moves_effect {α : Type} {R : Conn F → Conn F → Prop} [Std.Refl R] [IsTrans (Conn F) R]
    {m : Write F α} (h : Moves R m) : Moves R (Op.effect m) :=
  moves_bind h fun _ => moves_pure ()

/-- The closures that only operations call, one each. -/
structure StepRules (env : Env F) (G : Grant) (R : Conn F → Conn F → Prop) : Prop
    extends Rules env G R where
  openAs : ∀ c agentId, R c { c with agentId }
  rollback : ∀ id version createdBy, Moves R (rollbackMemory env id version createdBy)
  pin : ∀ id pinned requester, Moves R (setMemoryPinned env id pinned requester)
  restate : G.restate
  purge : G.purge

/-- A relation that holds along all edits needs no rule of its own. -/
theorem StepRules.of_edits {R : Conn F → Conn F → Prop} (hR : ∀ c c', Edits env G c c' → R c c')
    (hopen : ∀ c agentId, R c { c with agentId }) (redacted : ∀ t, G.text (Redact.redact t))
    (hretext : ∀ id, G.retext id) (hmirror : G.mirror) (restate : G.restate) (purge : G.purge) :
    StepRules env G R where
  edits := hR
  redacted := redacted
  bump _ _ _ _ := (moves_bump (.inr hmirror)).mono hR
  update _ _ _ _ _ htext := (moves_update (hretext _) hmirror htext).mono hR
  openAs := hopen
  rollback _ _ _ := (moves_rollback (hretext _) hmirror).mono hR
  pin _ _ _ := (moves_setMemoryPinned hmirror).mono hR
  restate := restate
  purge := purge

theorem Inserts.of_edits {R : Conn F → Conn F → Prop} (hR : ∀ c c', Edits env G c c' → R c c')
    (redacted : ∀ t, G.text (Redact.redact t)) (hok : G.embedded) (emb : Embedder F) :
    Inserts env G R emb where
  fresh _ _ _ _ _ _ _ _ := (moves_insertEmbedded (redacted _) hok).mono hR
  row _ _ _ _ _ htext hash := (moves_insertRow htext hash hok).mono hR

section

variable {R : Conn F → Conn F → Prop} [Std.Refl R] [IsTrans (Conn F) R] (hR : StepRules env G R)

include hR

/-- A step of a run, whose operation stores granted texts. -/
theorem moves_step {op : Op F} (htext : ∀ t, op.storesText t → G.text t)
    (hins : ∀ emb ∈ op.embedder, Inserts env G R emb) : Moves R (op.step env) := by
  have hrules : Rules env G R := hR.toRules
  cases op with
  | openAs agentId => exact fun c => hR.openAs c agentId
  | insertMemory m => exact moves_effect ((moves_insertMemory (htext _ rfl)).mono hR.edits)
  | persistFull emb cand ev sk pending dedup =>
    exact moves_effect (moves_persistFull hrules (hins emb rfl))
  | persistDegraded cand ev sk pending =>
    exact moves_effect (moves_persistNoVector hrules (by decide))
  | persistUnembedded cand ev sk pending =>
    exact moves_effect (moves_persistNoVector hrules (by decide))
  | remember emb cand ev sk pending dedup =>
    exact moves_effect (moves_remember hrules (hins emb rfl))
  | update id new source reason createdBy =>
    exact moves_effect (hR.update _ _ _ _ _ (htext _ rfl))
  | rollback id version createdBy => exact moves_effect (hR.rollback id version createdBy)
  | setPinned id pinned requester => exact moves_effect (hR.pin id pinned requester)
  | setSourceRef id sourceRef => exact moves_setSourceRef.mono hR.edits
  | setSummary id summary tokens => exact moves_setSummary.mono hR.edits
  | importFile emb schema file dryRun =>
    refine moves_effect (moves_bind (moves_lift _) fun _ => ?_)
    refine moves_bind moves_get fun c => ?_
    refine moves_bind (moves_embedDim.mono hR.edits) fun dim => ?_
    exact moves_importLines hrules (hins emb rfl) (fun row h => htext _ ⟨row, h, rfl⟩)
      (List.forall_mem_nil _)
  | ingest cfg tree dryRun => exact moves_effect (moves_ingest hrules hins)
  | deprecateMemory id deletedBy => exact (moves_deprecate hR.restate).mono hR.edits
  | deprecateForTtl id => exact (moves_deprecate hR.restate).mono hR.edits
  | restoreMemory id restoredBy => exact (moves_restore hR.restate).mono hR.edits
  | hardPurgeMemory id deletedBy reason => exact (moves_hardPurge hR.purge).mono hR.edits
  | hardPurgeForTtl id => exact (moves_hardPurge hR.purge).mono hR.edits
  | setDedupCluster id clusterId => exact moves_setDedupCluster.mono hR.edits
  | bumpRefCount id => exact moves_bumpRefCount.mono hR.edits

/-- A whole run. -/
theorem runOps_moves {ops : List (Op F)} (htext : ∀ op ∈ ops, ∀ t, op.storesText t → G.text t)
    (hins : ∀ op ∈ ops, ∀ emb ∈ op.embedder, Inserts env G R emb) (c : Conn F) :
    R c (runOps env ops c) := by
  induction ops generalizing c with
  | nil => exact Std.Refl.refl c
  | cons op ops ih =>
    have hstep := moves_step hR (htext op List.mem_cons_self) (hins op List.mem_cons_self) c
    exact IsTrans.trans _ _ _ hstep (ih (fun o ho => htext o (List.mem_cons_of_mem _ ho))
      (fun o ho => hins o (List.mem_cons_of_mem _ ho)) _)

end

/-- What a run does to the database and sends, whoever the agent is. -/
structure Ran (env : Env F) (G : Grant) (c c' : Conn F) : Prop where
  db : Relation.ReflTransGen (Edit env G) c.db c'.db
  sent : ∀ texts ∈ c'.sent, texts ∈ c.sent ∨ ∀ t ∈ texts, G.text t

instance : Std.Refl (Ran env G) where
  refl _ := ⟨.refl, fun _ h => .inl h⟩

instance : IsTrans (Conn F) (Ran env G) where
  trans a b c hab hbc := by
    refine ⟨hab.db.trans hbc.db, fun texts ht => ?_⟩
    rcases hbc.sent texts ht with hb | hgranted
    · exact hab.sent texts hb
    · exact .inr hgranted

theorem Ran.preserves {c c' : Conn F} (h : Ran env G c c') {P : Db F → Prop}
    (step : ∀ db db', Edit env G db db' → P db → P db') (hc : P c.db) : P c'.db :=
  preserves_of_edits h.db step hc

theorem ran_of_edits (c c' : Conn F) (h : Edits env G c c') : Ran env G c c' := ⟨h.db, h.sent⟩

theorem stepRules_ran {text : String → Prop} (redacted : ∀ t, text (Redact.redact t)) :
    StepRules env (.storing text True) (Ran env (.storing text True)) :=
  .of_edits ran_of_edits (fun _ _ => ⟨.refl, fun _ h => .inl h⟩) redacted (fun _ => trivial) trivial
    trivial trivial

theorem inserts_ran {text : String → Prop} (redacted : ∀ t, text (Redact.redact t))
    (emb : Embedder F) : Inserts env (.storing text True) (Ran env (.storing text True)) emb :=
  .of_edits ran_of_edits redacted trivial emb

/-- A run whose operations store texts with a property that redaction guarantees. -/
theorem runOps_ran {text : String → Prop} (redacted : ∀ t, text (Redact.redact t))
    {ops : List (Op F)} (htext : ∀ op ∈ ops, ∀ t, op.storesText t → text t) (c : Conn F) :
    Ran env (.storing text True) c (runOps env ops c) :=
  runOps_moves (stepRules_ran redacted) htext (fun _ _ emb _ => inserts_ran redacted emb) c

end AgosMemory
