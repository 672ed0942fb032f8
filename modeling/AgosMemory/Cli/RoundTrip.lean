import AgosMemory.Cli.Plan
import AgosMemory.Cli.Wire

/-!
# Import and export again

Fewer rows than a batch, imported into an empty store, come back from its export in the same order
and equal in every field, but for the trust, which is derived from the source kind, and the schema
version, which is the store's.
-/

namespace AgosMemory.Export

open Library Library.Program Store

variable {F : Type} [F64 F] {env : Env F}

/-- What the store makes of a row of the file. -/
def rederived (schema : Int) (row : ExportRow F) : ExportRow F :=
  { row with
    schemaVersion := schema, trust := (trustForSourceKind row.provenance.sourceKind).sql }

/-- A store without memories. -/
structure Empty (db : Db F) : Prop where
  memories : db.memories = []
  versions : db.versions = []
  vecs : db.vecs = []
  tombstones : db.tombstones = []
  seq : 0 ≤ db.memorySeq

/-! ## The catalogue of an empty store -/

namespace Catalogue

private theorem fates_of_empty {cat : Catalogue} (hentries : cat.entries = [])
    (hpurged : cat.purged = [])
    (ks : List Key) : cat.fates ks = some (ks.map fun _ => .insert) := by
  induction ks with
  | nil => rfl
  | cons k ks ih =>
    have hfate : cat.fate k = some .insert := by
      unfold Catalogue.fate
      rw [hentries, hpurged]
      rfl
    rw [Catalogue.fates, hfate, ih]
    rfl

/-- Fresh rows with public ids of their own are all added. -/
private theorem writeAll_inserts {cat : Catalogue} {ks : List Key}
    (hids : (cat.entries.map Entry.publicId ++ ks.map Key.publicId).Nodup) :
    (cat.writeAll (ks.zip (ks.map fun _ => .insert))).isSome := by
  induction ks generalizing cat with
  | nil => rfl
  | cons k ks ih =>
    have hunused : ¬ (cat.entries.any fun e => e.publicId = k.publicId) = true := by
      rw [List.any_eq_true]
      rintro ⟨e, he, heq⟩
      rw [List.nodup_append] at hids
      exact hids.2.2 _ (List.mem_map_of_mem he) _ List.mem_cons_self (of_decide_eq_true heq)
    rw [List.map_cons, List.zip_cons_cons, writeAll]
    show ((cat.add k).bind _).isSome
    rw [add, if_neg hunused, Option.bind_some]
    apply ih
    rw [List.map_append, List.map_singleton, List.append_assoc]
    exact hids

end Catalogue

/-! ## The rows that an import leaves -/

/-- A stored row is what the statements of the import make of a row of the file. -/
def Imported (agent : String) (row : ExportRow F) (m : Memory F) : Prop :=
  ∃ embedded, (importedRow agent embedded row).build m.id = .ok m

/-- Rows of one batch, added under increasing ids. -/
structure Added (agent : String) (rows : List (ExportRow F)) (db db' : Db F)
    (ms : List (Memory F)) : Prop where
  memories : db'.memories = db.memories ++ ms
  rows : List.Forall₂ (Imported agent) rows ms
  above : ∀ m ∈ ms, db.memorySeq < m.id
  sorted : ms.Pairwise fun a b => a.id < b.id
  seq : db.memorySeq ≤ db'.memorySeq

private theorem insertAll_ok {emb : Embedder F} {agent : String} {dim : Nat} {now : Int}
    {ps : List (PlannedRow F)} (hfresh : ∀ p ∈ ps, p.fate = .insert) {s t : Conn F}
    (h : forEach ps (writeRow env emb agent dim now) s = (.ok (), t)) :
    ∃ ms, Added agent (ps.map PlannedRow.row) s.db t.db ms := by
  induction ps generalizing s with
  | nil =>
    obtain ⟨_, rfl⟩ := pure_ok h
    exact ⟨[], (List.append_nil _).symm, .nil, List.forall_mem_nil _, .nil, Int.le_refl _⟩
  | cons p ps ih =>
    obtain ⟨_, u, hrow, hrest⟩ := bind_ok h
    have hinsert : insertRow env emb agent dim now p s = (.ok (), u) := by
      rw [writeRow, hfresh p List.mem_cons_self] at hrow
      exact hrow
    obtain ⟨m, hbuilt, hbuild, _, hu⟩ := insertRow_ok hinsert
    obtain ⟨ms, hms⟩ := ih (fun q hq => hfresh q (List.mem_cons_of_mem _ hq)) hrest
    have hid : m.id = s.db.memorySeq + 1 := hbuilt.id
    have hmemories : u.db.memories = s.db.memories ++ [m] := by rw [hu]; rfl
    have hseq : u.db.memorySeq = m.id := by rw [hu]; rfl
    refine ⟨m :: ms, ?_, .cons ⟨_, hid ▸ hbuild⟩ hms.rows, ?_, ?_, ?_⟩
    · rw [hms.memories, hmemories, List.append_assoc]
      rfl
    · intro m' hm'
      rcases List.mem_cons.mp hm' with rfl | hm'
      · omega
      · have := hms.above m' hm'
        omega
    · exact .cons (fun m' hm' => hseq ▸ hms.above m' hm') hms.sorted
    · have := hms.seq
      omega

/-! ## The rows that an export writes -/

private theorem exportRow_imported {agent : String} {row : ExportRow F} {m : Memory F} (schema : Int)
    (htombstone : row.tombstoneOf = none) (h : Imported agent row m) :
    exportRow schema m = rederived schema row := by
  obtain ⟨embedded, hbuild⟩ := h
  obtain ⟨tier, kind, status, source, htier, hkind, hstatus, hsource, _, hm⟩ := build_ok hbuild
  have htier := Tier.sql_of_ofSql? htier
  have hkind := Kind.sql_of_ofSql? hkind
  have hstatus := Status.sql_of_ofSql? hstatus
  have hsource := SourceKind.sql_of_ofSql? hsource
  rw [hm]
  unfold exportRow NewRow.row rederived
  simp only [htier, hkind, hstatus, hsource, htombstone, importedRow, Option.getD_some]

omit [F64 F] in
/-- Fewer rows than a batch are exported by the first read. -/
private theorem exportLoop_short {db : Db F} {agent : String} (schema : Int) (addr : Nat → Int)
    (hsorted : db.memories.Pairwise fun a b => a.id < b.id)
    (hpositive : ∀ m ∈ db.memories, 0 < m.id)
    (heligible : ∀ m ∈ db.memories, eligible db agent "" m = true)
    (hlen : db.memories.length < BATCH) (fuel : Nat) :
    exportLoop db schema agent "" addr (fuel + 1) 0 0 0 [] =
      some (db.memories.map (exportRow schema), db.memories.length) := by
  have hfilter : db.memories.filter (fun m => eligible db agent "" m && (0 : Int) < m.id) =
      db.memories := by
    rw [List.filter_eq_self]
    intro m hm
    rw [heligible m hm, Bool.true_and]
    exact decide_eq_true (hpositive m hm)
  have hrows : batchRows db agent "" 0 = db.memories := by
    unfold batchRows
    rw [hfilter, (hsorted.imp fun hab => Int.le_of_lt hab).insertionSort_eq,
      List.take_of_length_le (Nat.le_of_lt hlen)]
  unfold exportLoop
  rw [hrows]
  dsimp only
  split
  · next hempty =>
    rw [List.map_eq_nil_iff.mp (List.isEmpty_iff.mp hempty)]
    rfl
  · rw [List.length_map, if_pos hlen, List.nil_append, Nat.zero_add]

theorem Imported.agentId {agent : String} {row : ExportRow F} {m : Memory F}
    (h : Imported agent row m) : m.agentId = agent := by
  obtain ⟨embedded, hbuild⟩ := h
  exact (built_of_build hbuild).agentId

theorem Imported.status {agent : String} {row : ExportRow F} {m : Memory F}
    (h : Imported agent row m) : m.status.sql = row.status := by
  obtain ⟨embedded, hbuild⟩ := h
  exact (built_of_build hbuild).status

omit [F64 F] in
private theorem eligible_exported {db : Db F} {agent : String} (htombstones : db.tombstones = [])
    {m : Memory F} (hagent : m.agentId = agent)
    {status : String} (hsql : m.status.sql = status)
    (hstatus : status = "active" ∨ status = "deprecated") : eligible db agent "" m = true := by
  have hlisted : (m.status = .active || m.status = .deprecated) = true := by
    subst hsql
    cases hm : m.status with
    | active => rfl
    | deprecated => rfl
    | pending => rw [hm] at hstatus; exact absurd hstatus (by decide)
    | deleted => rw [hm] at hstatus; exact absurd hstatus (by decide)
  unfold eligible
  rw [htombstones, hagent, hlisted]
  simp

private theorem exported_rows {agent : String} {rows : List (ExportRow F)} {ms : List (Memory F)}
    (schema : Int) (htombstone : ∀ row ∈ rows, row.tombstoneOf = none)
    (h : List.Forall₂ (Imported agent) rows ms) :
    ms.map (exportRow schema) = rows.map (rederived schema) := by
  induction h with
  | nil => rfl
  | cons hrow _ ih =>
    rw [List.map_cons, List.map_cons, exportRow_imported schema (htombstone _ List.mem_cons_self)
      hrow, ih fun row hmem => htombstone row (List.mem_cons_of_mem _ hmem)]

private theorem imported_of_mem {agent : String} {rows : List (ExportRow F)} {ms : List (Memory F)}
    (h : List.Forall₂ (Imported agent) rows ms) {m : Memory F} (hm : m ∈ ms) :
    ∃ row ∈ rows, Imported agent row m := by
  induction h with
  | nil => cases hm
  | cons hrow _ ih =>
    rcases List.mem_cons.mp hm with rfl | hm
    · exact ⟨_, List.mem_cons_self, hrow⟩
    · obtain ⟨row, hmem, himported⟩ := ih hm
      exact ⟨row, List.mem_cons_of_mem _ hmem, himported⟩

/-! ## The file of the rows -/

/-- The numbered rows of a file. -/
def numbered (lineNo : Nat) : List (ExportRow F) → List (Nat × ExportRow F)
  | [] => []
  | row :: rows => (lineNo, row) :: numbered (lineNo + 1) rows

omit [F64 F] in
private theorem numbered_rows (lineNo : Nat) (rows : List (ExportRow F)) :
    (numbered lineNo rows).map Prod.snd = rows := by
  induction rows generalizing lineNo with
  | nil => rfl
  | cons row rows ih => exact congrArg (row :: ·) (ih (lineNo + 1))

/-- Valid rows, fewer than a batch, are one batch. -/
private theorem planLines_short {schema : Int} {rows : List (ExportRow F)} {lineNo : Nat}
    {batch : List (Nat × ExportRow F)}
    (hvalid : ∀ row ∈ rows, ∀ n, validateRow env n row schema = .ok ())
    (hlen : batch.length + rows.length < BATCH) :
    planLines env schema BATCH (rows.map fun row => some (.ok row)) lineNo batch =
      ⟨if (batch ++ numbered lineNo rows).isEmpty then [] else [batch ++ numbered lineNo rows],
        none⟩ := by
  induction rows generalizing lineNo batch with
  | nil =>
    rw [List.map_nil, planLines, numbered, List.append_nil]
  | cons row rows ih =>
    rw [List.length_cons] at hlen
    rw [List.map_cons, planLines, hvalid row List.mem_cons_self]
    dsimp only
    rw [List.length_append, List.length_singleton, if_neg (by omega),
      ih (fun r hr => hvalid r (List.mem_cons_of_mem _ hr))
        (by rw [List.length_append, List.length_singleton]; omega)]
    rw [List.append_assoc]
    rfl

private theorem readFile_lines (explain : Json F → String) (name : String) (header : Json F)
    (rows : List (ExportRow F)) :
    (readFile explain name header (rows.map ExportRow.toJson)).lines =
      rows.map fun row => some (.ok row) := by
  rw [readFile, List.map_map]
  refine List.map_congr_left fun row _ => ?_
  show some (parsed explain ExportRow.ofJson? row.toJson) = _
  rw [parsed, row_roundTrip]

private theorem tally_fresh (ks : List Key) :
    tally (ks.map fun _ => Fate.insert) = (ks.length, 0, 0) := by
  induction ks with
  | nil => rfl
  | cons k ks ih =>
    obtain ⟨hinsert, hrest⟩ := Prod.mk.inj ih
    obtain ⟨hbump, hconflict⟩ := Prod.mk.inj hrest
    rw [List.map_cons, tally, List.countP_cons, hinsert, List.countP_cons, hbump, List.countP_cons,
      hconflict]
    rfl

/-- One batch of fresh rows. -/
private theorem processBatch_fresh (hfault : ∀ n, env.fault n = false) {emb : Embedder F}
    (agent : String)
    {batch : List (Nat × ExportRow F)} {s : Conn F} (hdb : Wellformed env s.db)
    (hempty : Empty s.db) (hvetted : ∀ r ∈ batch, Vetted env r.2)
    (hids : (batch.map fun r => r.2.publicId).Nodup) (hemb : Answers emb s.db.embedDim) :
    ∃ t ms, processBatch env emb agent s.db.embedDim batch false s =
        (.ok (batch.length, 0, 0), t) ∧ Added agent (batch.map Prod.snd) s.db t.db ms := by
  have hentries : (catalogueOf agent s.db).entries = [] := by
    rw [catalogueOf, hempty.memories]
    rfl
  have hfates := Catalogue.fates_of_empty hentries
    (by rw [catalogueOf, hempty.tombstones]; rfl) (keysOf batch)
  have hnames : (keysOf batch).map Key.publicId = batch.map fun r => r.2.publicId := by
    rw [keysOf, List.map_map]
    rfl
  have hcat : ((catalogueOf agent s.db).batch (keysOf batch)).isSome := by
    have hwrite : ((catalogueOf agent s.db).writeAll
        ((keysOf batch).zip ((keysOf batch).map fun _ => .insert))).isSome :=
      Catalogue.writeAll_inserts (by rw [hentries, hnames]; exact hids)
    rw [Catalogue.batch, hfates, Option.bind_some, Option.isSome_map]
    exact hwrite
  obtain ⟨done, t, hrun⟩ := processBatch_succeeds hfault hdb hvetted hemb hcat
  obtain ⟨fates, ps, now, u, v, hclass, hu, hkeyed, hrows, hwrite, hversion, hdone⟩ :=
    processBatch_phases hrun
  obtain rfl := Option.some.inj (hfates.symm.trans (classifyAll_ok_iff.mp hclass))
  have hfresh : ∀ p ∈ ps, p.fate = .insert := by
    intro p hp
    have hmem := List.mem_map_of_mem (f := PlannedRow.keyed) hp
    rw [hkeyed] at hmem
    obtain ⟨k, _, hk⟩ := List.mem_map.mp (List.of_mem_zip hmem).2
    exact hk.symm
  obtain ⟨ms, hms⟩ := insertAll_ok hfresh hwrite
  rw [hrows, hu] at hms
  have hunconflicted : ∀ p ∈ ps, ∀ id, p.fate ≠ .conflict id := fun p hp id heq => by
    rw [hfresh p hp] at heq
    cases heq
  rw [versionAll_unconflicted hunconflicted] at hversion
  obtain rfl := (Prod.mk.inj hversion).2
  refine ⟨v, ms, ?_, hms⟩
  rw [hrun, hdone, tally_fresh, keysOf, List.length_map]

/-- The rows of a valid file, in a store that had none. -/
private theorem import_fresh (hfault : ∀ n, env.fault n = false) {emb : Embedder F} {schema : Int}
    (explain : Json F → String) (name : String) {header : Header}
    (hformat : header.format = FORMAT) (hversion : header.formatVersion = FORMAT_VERSION)
    {rows : List (ExportRow F)} (hlen : rows.length < BATCH)
    (hvalid : ∀ row ∈ rows, ∀ n, validateRow env n row schema = .ok ())
    (hids : (rows.map ExportRow.publicId).Nodup) {c : Conn F} (hdb : Wellformed env c.db)
    (hempty : Empty c.db) (hemb : Answers emb c.db.embedDim) :
    ∃ c' ms, importFile env emb schema
        (readFile explain name header.toJson (rows.map ExportRow.toJson)) false c =
          (.ok ⟨rows.length, rows.length, 0, 0, false⟩, c') ∧
      Added c.agentId rows c.db c'.db ms := by
  have hheader : checkHeader name (some (parsed explain Header.ofJson? header.toJson)) = .ok () := by
    rw [parsed, header_roundTrip header (by rw [hversion]; decide), checkHeader, if_neg]
    rw [hformat, hversion]
    simp
  have hdim : query env (fun db => .ok db.embedDim) c =
      (.ok c.db.embedDim, { c with stmts := c.stmts + 1 }) := query_of_noFault (hfault _)
  have hplan : planFile env schema BATCH
      (readFile explain name header.toJson (rows.map ExportRow.toJson)) =
        ⟨if (numbered 2 rows).isEmpty then [] else [numbered 2 rows], none⟩ := by
    rw [planFile, readFile_lines]
    exact planLines_short hvalid (by simpa using hlen)
  rw [importFile_eq, importFileBy_run hheader, dimRead_of_noFault (hfault _), hplan]
  cases rows with
  | nil =>
    exact ⟨_, [], rfl, (List.append_nil _).symm, .nil, List.forall_mem_nil _, .nil, Int.le_refl _⟩
  | cons row rows =>
    have hrows : (numbered 2 (row :: rows)).map Prod.snd = row :: rows := numbered_rows 2 _
    have hvetted : ∀ r ∈ numbered 2 (row :: rows), Vetted env r.2 := by
      intro r hr
      have hmem : r.2 ∈ row :: rows := hrows ▸ List.mem_map_of_mem hr
      exact vetted_of_validate (hvalid r.2 hmem 2)
    have hnames : ((numbered 2 (row :: rows)).map fun r => r.2.publicId).Nodup := by
      have hcomp : (numbered 2 (row :: rows)).map (fun r => r.2.publicId) =
          ((numbered 2 (row :: rows)).map Prod.snd).map ExportRow.publicId := by
        rw [List.map_map]
        rfl
      rw [hcomp, hrows]
      exact hids
    have hcount : (numbered 2 (row :: rows)).length = (row :: rows).length := by
      rw [← List.length_map (f := Prod.snd), hrows]
    obtain ⟨t, ms, hrun, hms⟩ := processBatch_fresh hfault c.agentId
      (s := { c with stmts := c.stmts + 1 }) hdb hempty hvetted hnames hemb
    rw [hrows] at hms
    rw [hcount] at hrun
    refine ⟨t, ms, ?_, hms⟩
    rw [if_neg (by simp [numbered]), runPlan_cons, bind_of_ok _ hrun]
    show (Except.ok (ImportStats.addBatch _ _ _), t) = _
    simp only [ImportStats.addBatch, ImportStats.add, hcount, Nat.zero_add]

/-- The rows of a file are imported into an empty store and exported again: the same rows in the
same order, under the trust of their source and the schema of the store, and each exported line
reads back as its row. -/
theorem import_export (hfault : ∀ n, env.fault n = false) (emb : Embedder F) (schema : Int)
    (explain : Json F → String) (name : String) (header : Header)
    (hformat : header.format = FORMAT) (hversion : header.formatVersion = FORMAT_VERSION)
    (rows : List (ExportRow F)) (hlen : rows.length < BATCH)
    (hvalid : ∀ row ∈ rows, ∀ n, validateRow env n row schema = .ok ())
    (hstatus : ∀ row ∈ rows, row.status = "active" ∨ row.status = "deprecated")
    (hids : (rows.map ExportRow.publicId).Nodup) (c : Conn F) (hdb : Wellformed env c.db)
    (hempty : Empty c.db) (hemb : Answers emb c.db.embedDim) :
    ∃ c', importFile env emb schema
        (readFile explain name header.toJson (rows.map ExportRow.toJson)) false c =
          (.ok ⟨rows.length, rows.length, 0, 0, false⟩, c') ∧
      (∀ addr fuel, exportJsonl c'.db schema c.agentId none addr (fuel + 1) =
        .ok (some (rows.map (rederived schema), rows.length))) ∧
      ∀ row ∈ rows.map (rederived schema), ExportRow.ofJson? row.toJson = some row := by
  obtain ⟨c', ms, hrun, hms⟩ := import_fresh hfault explain name hformat hversion
    hlen hvalid hids hdb hempty hemb
  refine ⟨c', hrun, fun addr fuel => ?_, fun row _ => row_roundTrip row⟩
  have hmemories : c'.db.memories = ms := by
    rw [hms.memories, hempty.memories, List.nil_append]
  have hrest : SameRest c.db (importFile env emb schema
      (readFile explain name header.toJson (rows.map ExportRow.toJson)) false c).2.db :=
    rest_importFile c
  rw [hrun] at hrest
  have hvetted : ∀ row ∈ rows, Vetted env row := fun row hrow =>
    vetted_of_validate (hvalid row hrow 2)
  have hexported : ms.map (exportRow schema) = rows.map (rederived schema) :=
    exported_rows schema (fun row hrow => (hvetted row hrow).tombstone) hms.rows
  show Except.ok (exportLoop c'.db schema c.agentId "" addr (fuel + 1) 0 0 0 []) = _
  rw [exportLoop_short schema addr, hmemories, hexported, hms.rows.length_eq]
  · exact hmemories ▸ hms.sorted
  · intro m hm
    have := hms.above m (hmemories ▸ hm)
    have := hempty.seq
    omega
  · intro m hm
    obtain ⟨row, hrow, himported⟩ := imported_of_mem hms.rows (hmemories ▸ hm)
    exact eligible_exported (hrest.tombstones.trans hempty.tombstones) himported.agentId
      himported.status (hstatus row hrow)
  · rw [hmemories, ← hms.rows.length_eq]
    exact hlen

/-! A file of two rows, one with every optional field. -/

def fullRow : ExportRow ℚ where
  schemaVersion := 3
  publicId := "a"
  tier := "semantic"
  kind := "fact"
  text := "tea"
  textHash := "tea"
  status := "active"
  trust := "trusted"
  confidence := 1
  summaryText := some "t"
  summaryTokens := 1
  provenance := ⟨"tool", some "log"⟩
  pinned := 1
  expiresAt := some 9
  createdAt := 2
  updatedAt := 3

def bareRow : ExportRow ℚ where
  schemaVersion := 5
  publicId := "b"
  tier := "episodic"
  kind := "note"
  text := "mug"
  textHash := "mug"
  status := "deprecated"
  trust := "untrusted"
  confidence := 0
  provenance := ⟨"user", none⟩
  createdAt := 0
  updatedAt := 0

private theorem sampleRows_valid :
    ∀ row ∈ [fullRow, bareRow], ∀ n, validateRow sampleEnv n row 5 = .ok () := by
  intro row hrow n
  simp only [List.mem_cons, List.not_mem_nil, or_false] at hrow
  rcases hrow with rfl | rfl <;> rfl

/-- The row of a tool comes back untrusted, and both under the schema of the store. -/
theorem import_export_two :
    ∃ c', importFile sampleEnv sampleEmbedder 5 (readFile (fun _ => "") "out.jsonl"
        (Header.toJson ⟨FORMAT, FORMAT_VERSION, 7, "other"⟩) ([fullRow, bareRow].map
          ExportRow.toJson)) false (emptyStore ℚ "a" 1) = (.ok ⟨2, 2, 0, 0, false⟩, c') ∧
      (∀ addr fuel, exportJsonl c'.db 5 "a" none addr (fuel + 1) =
        .ok (some ([{ fullRow with schemaVersion := 5, trust := "untrusted" },
          { bareRow with trust := "trusted" }], 2))) ∧
      ∀ row ∈ [fullRow, bareRow].map (rederived 5), ExportRow.ofJson? row.toJson = some row :=
  import_export (fun _ => rfl) sampleEmbedder 5 (fun _ => "") "out.jsonl"
    ⟨FORMAT, FORMAT_VERSION, 7, "other"⟩ rfl rfl [fullRow, bareRow] (by decide) sampleRows_valid
    (by decide) (by decide) (emptyStore ℚ "a" 1) (Wellformed.empty 1)
    ⟨rfl, rfl, rfl, rfl, Int.le_refl 0⟩ sampleEmbedder_answers

end AgosMemory.Export
