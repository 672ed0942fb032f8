import AgosMemory.Recall.Accounting
import AgosMemory.Recall.Surfaces
import AgosMemory.Runs.Trust

/-!
# The text under a label

A block shows the trust that gate 2 read and a text that is read afterwards, one row at a time, so
the two may come from different versions of the row. A block is right as long as every write between
the two reads that changes what is printed leaves the row in the filter, under the trust of the
label.
-/

namespace AgosMemory.Recall

open Library Store

variable {F : Type} [F64 F] {env : Env F}

/-! ## The store over time -/

/-- The databases that the store passes through, each some statements after the one before. -/
structure History (env : Env F) where
  db : Nat → Db F
  start : ∃ embedDim, db 0 = { embedDim }
  step : ∀ n, Relation.ReflTransGen (Edit env (.storing (fun _ => True) True)) (db n) (db (n + 1))

theorem History.sound (past : History env) (n : Nat) :
    Wellformed env (past.db n) ∧ Provenance (past.db n) := by
  induction n with
  | zero =>
    obtain ⟨embedDim, hstart⟩ := past.start
    rw [hstart]
    exact ⟨.empty embedDim, List.forall_mem_nil _, List.forall_mem_nil _⟩
  | succ n ih =>
    exact preserves_of_edits (P := fun db => Wellformed env db ∧ Provenance db) (past.step n)
      (fun db db' he h => ⟨he.wellformed h.1, he.provenance h.1 h.2⟩) ih

/-- The states between the operations of a run. -/
def historyOf (env : Env F) (ops : List (Op F)) (agentId : String) (embedDim : Nat) :
    History env where
  db n := (runOps env (ops.take n) (emptyStore F agentId embedDim)).db
  start := ⟨embedDim, rfl⟩
  step n := by
    have hlater : runOps env (ops.take (n + 1)) (emptyStore F agentId embedDim) =
        runOps env ((ops.drop n).take 1) (runOps env (ops.take n) (emptyStore F agentId embedDim)) := by
      rw [List.take_add]
      exact List.foldl_append
    rw [hlater]
    exact (runOps_ran (fun _ => trivial) (fun _ _ _ _ => trivial) _).db

/-! ## Labels -/

/-- What the recall tool prints for a row. -/
def mcpBody (m : Memory F) : String := m.summaryText.getD m.text

/-- A row of the hit's memory passes the filter with the trust of the label and this body, and if the
label says trusted, nobody but users and agents wrote it. -/
structure Passes (filter : HardFilter) (body : Memory F → String) (hit : RecallHit F)
    (text : String) (db : Db F) (m : Memory F) : Prop where
  mem : m ∈ db.memories
  publicId : m.publicId = hit.publicId
  admitted : filter.admits (rowFromSql db m) = true
  trust : m.trust = hit.trust
  body_eq : body m = text
  sources : hit.trust = .trusted → ∀ k, (m.id, k) ∈ db.merged → k = "user" ∨ k = "agent"

/-- Statements that give the hit's memory another body leave it in the filter under the label. -/
def KeepsLabel (filter : HardFilter) (body : Memory F → String) (hit : RecallHit F)
    (db db' : Db F) : Prop :=
  ∀ m' ∈ db'.memories, m'.publicId = hit.publicId →
    (∃ m ∈ db.memories, m.publicId = hit.publicId ∧ body m = body m') ∨
      filter.admits (rowFromSql db' m') = true ∧ m'.trust = hit.trust

/-- Statements that leave the hit's memory in the store. -/
def KeepsRow (hit : RecallHit F) (db db' : Db F) : Prop :=
  (∃ m ∈ db.memories, m.publicId = hit.publicId) →
    ∃ m' ∈ db'.memories, m'.publicId = hit.publicId

/-- A label from one gate's read that was true when it was read. -/
def Labels (filter : HardFilter) (hit : RecallHit F) (db : Db F) : Prop :=
  ∃ m ∈ db.memories, m.publicId = hit.publicId ∧ filter.admits (rowFromSql db m) = true ∧
    m.trust = hit.trust

section

variable {filter : HardFilter} {body : Memory F → String} {hit : RecallHit F}

/-- As long as every write keeps the label, what can be read has passed under it. -/
private theorem passes_of_keepsLabel (past : History env) {first : Nat}
    (hlabel : Labels filter hit (past.db first)) (later : Nat)
    (hkeeps : ∀ n, first ≤ n → n < first + later →
      KeepsLabel filter body hit (past.db n) (past.db (n + 1)))
    {m : Memory F} (hm : m ∈ (past.db (first + later)).memories)
    (hpid : m.publicId = hit.publicId) :
    ∃ n, first ≤ n ∧ n ≤ first + later ∧ ∃ m', Passes filter body hit (body m) (past.db n) m' := by
  have hsources : ∀ n, ∀ m ∈ (past.db n).memories, m.trust = hit.trust → hit.trust = .trusted →
      ∀ k, (m.id, k) ∈ (past.db n).merged → k = "user" ∨ k = "agent" :=
    fun n m hm ht htrusted => (past.sound n).2.sources m hm (ht.trans htrusted)
  induction later generalizing m with
  | zero =>
    obtain ⟨m₀, hm₀, hpid₀, hadmits, htrust⟩ := hlabel
    obtain rfl := List.inj_on_of_nodup_map (past.sound first).1.publicIds hm hm₀
      (hpid.trans hpid₀.symm)
    exact ⟨first, le_rfl, le_rfl, m, hm, hpid, hadmits, htrust, rfl,
      hsources first m hm htrust⟩
  | succ later ih =>
    rcases hkeeps (first + later) (by omega) (by omega) m hm hpid with
      ⟨m₀, hm₀, hpid₀, hbody⟩ | ⟨hadmits, htrust⟩
    · obtain ⟨n, hfirst, hlast, hpasses⟩ :=
        ih (fun n hn hlt => hkeeps n hn (by omega)) hm₀ hpid₀
      exact ⟨n, hfirst, by omega, hbody ▸ hpasses⟩
    · exact ⟨first + (later + 1), by omega, le_rfl, m, hm, hpid, hadmits, htrust, rfl,
        hsources _ m hm htrust⟩

omit [F64 F] in
private theorem row_of_keepsRow (db : Nat → Db F) {first : Nat}
    (hlabel : Labels filter hit (db first))
    (later : Nat)
    (hkeeps : ∀ n, first ≤ n → n < first + later → KeepsRow hit (db n) (db (n + 1))) :
    ∃ m ∈ (db (first + later)).memories, m.publicId = hit.publicId := by
  induction later with
  | zero =>
    obtain ⟨m, hm, hpid, _⟩ := hlabel
    exact ⟨m, hm, hpid⟩
  | succ later ih =>
    exact hkeeps (first + later) (by omega) (by omega)
      (ih fun n hn hlt => hkeeps n hn (by omega))

end

/-! ## Which writes keep a label -/

omit [F64 F] in
/-- A write to the row of the hit's memory keeps its label exactly when it does not change what is
printed, or leaves the row in the filter under the label. -/
private theorem keepsLabel_updateMemory_iff {filter : HardFilter} {body : Memory F → String}
    {hit : RecallHit F} {db db' : Db F} (hdb : (db.memories.map Memory.publicId).Nodup)
    {m : Memory F} (hmem : m ∈ db.memories) (hpid : m.publicId = hit.publicId)
    {f : Memory F → Memory F} (hf : ∀ m, (f m).publicId = m.publicId)
    (hdb' : db'.memories = (db.updateMemory m.id f).memories) :
    KeepsLabel filter body hit db db' ↔
      body (f m) = body m ∨
        filter.admits (rowFromSql db' (f m)) = true ∧ (f m).trust = hit.trust := by
  constructor
  · intro hkeeps
    have hrow : f m ∈ db'.memories :=
      hdb' ▸ mem_updateMemory.mpr ⟨m, hmem, (if_pos rfl).symm⟩
    rcases hkeeps _ hrow ((hf m).trans hpid) with ⟨m₀, hm₀, hpid₀, hbody₀⟩ | hpasses
    · obtain rfl := List.inj_on_of_nodup_map hdb hm₀ hmem (hpid₀.trans hpid.symm)
      exact .inl hbody₀.symm
    · exact .inr hpasses
  · intro hkeeps m' hm' hpid'
    obtain ⟨m₀, hm₀, rfl⟩ := mem_updateMemory.mp (hdb' ▸ hm')
    have hpid₀ : m₀.publicId = m.publicId := by
      rw [hpid, ← hpid']
      split
      · exact (hf m₀).symm
      · rfl
    obtain rfl := List.inj_on_of_nodup_map hdb hm₀ hmem hpid₀
    rw [if_pos rfl]
    exact hkeeps.imp_left fun heq => ⟨m₀, hm₀, hpid, heq.symm⟩

omit [F64 F] in
private theorem successorId_none {db : Db F} (hdb : Wellformed env db) (m : Memory F) :
    successorId db m = none := by
  unfold successorId
  rw [Option.map_eq_none_iff, List.find?_eq_none]
  intro s hs
  simp [(hdb.noSuccessor s hs).1]

/-- For an update, both are decided by the row before it. -/
theorem keepsLabel_retext_iff {filter : HardFilter} {body : Memory F → String}
    (hbody : ∀ m m' : Memory F, m.text = m'.text → m.summaryText = m'.summaryText → body m = body m')
    {hit : RecallHit F} {db db' : Db F} (hdb : Wellformed env db) {id : Int} {m : Memory F}
    (hm : db.memory? id = some m) (hpid : m.publicId = hit.publicId) {text : String}
    {source : Option String} {now : Int}
    (h : retext id text (env.sha256Hex text) (mergedTrust m source) (mergedKind m source) source
      now db = .ok ((), db')) :
    KeepsLabel filter body hit db db' ↔ body { m with text } = body m ∨
      filter.admits { rowFromSql db m with trust := mergedTrust m source } = true ∧
        mergedTrust m source = hit.trust := by
  have hedit : Edit env (.storing (fun _ => True) True) db db' :=
    .retext hm trivial (.inl trivial) h
  have hdb' := hedit.wellformed hdb
  obtain ⟨hmem, rfl⟩ := memory?_some hm
  obtain ⟨sk, _, heq⟩ := retext_ok hm h
  refine (keepsLabel_updateMemory_iff (f := fun m₀ => { m₀ with
    text, textHash := env.sha256Hex text, updatedAt := now, trust := mergedTrust m source
    sourceKind := sk }) hdb.publicIds hmem hpid (fun _ => rfl) (heq ▸ rfl)).trans ?_
  refine or_congr (Eq.congr_left (hbody _ _ rfl rfl)) (and_congr_left' ?_)
  simp only [HardFilter.admits, rowFromSql, successorId_none hdb, successorId_none hdb']

/-! ## Recall and render -/

/-- Each hit of a report is labelled with the trust that its row passed gate 2 with. -/
private theorem report_labels {reads : Reads F} {agentId : String} {q : RecallQuery F} {now : Int}
    {report : RecallReport F} (h : recallWithClock reads agentId q now = .ok report) {db : Db F}
    (hdb : reads.gate2 = .ok db) {hit : RecallHit F} (hm : hit ∈ report.hits) :
    Labels (.fromQuery agentId q now) hit db := by
  obtain ⟨rowids, vecHits, ftsHits, rows, surviving, hrows, _, rfl⟩ := recall_steps h
  have hcand : hit.unpack ∈ candidates (.fromQuery agentId q now) rows surviving
      (fuse (.fromQuery agentId q now) vecHits rows ftsHits) q := by
    have hmem := List.mem_map_of_mem (f := RecallHit.unpack) hm
    unfold packReport at hmem
    rw [pack_unpack fun c hc => (mem_candidates hc).2.2] at hmem
    exact mem_sortHits.mp hmem
  have hranked := List.mem_of_mem_take (List.mem_filter.mp hcand).1
  obtain ⟨fused, hfused, _, heq⟩ := mem_rerank hranked
  obtain ⟨acc, _, hacc⟩ := List.mem_filterMap.mp (mem_sortHits.mp (List.mem_filter.mp hfused).1)
  obtain ⟨row, hrow, rfl⟩ := Option.map_eq_some_iff.mp hacc
  obtain ⟨db', hdb', hload⟩ := mem_readKeys hrows (List.mem_of_find?_eq_some hrow)
  obtain rfl := Except.ok.inj (hdb.symm.trans hdb')
  obtain ⟨m, hm, _, rfl, hadmits⟩ := rowAt_loadByRowids hload hrow
  exact ⟨m, hm, (congrArg RecallHit.publicId heq).symm, hadmits, (congrArg RecallHit.trust heq).symm⟩

omit [F64 F] in
/-- A text that the recall command keeps was read for an injected hit. -/
private theorem mem_injectedTexts {read : ReadMemory} {hits : List (RecallHit F)} {out texts : Texts}
    (h : injectedTexts read hits out = .ok texts) {publicId text : String}
    (hm : (publicId, text) ∈ texts) : (publicId, text) ∈ out ∨
      ∃ hit ∈ hits, hit.injected = true ∧ hit.publicId = publicId ∧
        ∃ row, read publicId = .ok row ∧ text = (row.map MemoryRow.text).getD "" := by
  induction hits generalizing out with
  | nil =>
    obtain rfl := Except.ok.inj h
    exact .inl hm
  | cons hit hits ih =>
    have hlater : ∀ out', injectedTexts read hits out' = .ok texts →
        (publicId, text) ∈ out' ∨ ∃ hit' ∈ hit :: hits, hit'.injected = true ∧
          hit'.publicId = publicId ∧
          ∃ row, read publicId = .ok row ∧ text = (row.map MemoryRow.text).getD "" := by
      intro out' h'
      refine (ih h').imp_right ?_
      rintro ⟨hit', hmem, hrest⟩
      exact ⟨hit', List.mem_cons_of_mem _ hmem, hrest⟩
    unfold injectedTexts at h
    split at h
    · next hinjected =>
      cases hread : read hit.publicId with
      | error e => rw [hread] at h; cases h
      | ok row =>
        rw [hread] at h
        rcases hlater _ h with hmem | hfound
        · rcases List.mem_cons.mp hmem with heq | hmem
          · obtain ⟨rfl, rfl⟩ := Prod.mk.inj heq
            exact .inr ⟨hit, List.mem_cons_self, hinjected, rfl, row, hread, rfl⟩
          · exact .inl hmem
        · exact .inr hfound
    · exact hlater out h

omit [F64 F] in
private theorem mem_of_lookup {texts : Texts} {publicId text : String}
    (h : texts.lookup publicId = some text) : (publicId, text) ∈ texts := by
  obtain ⟨l₁, l₂, rfl, _⟩ := List.lookup_eq_some_iff.mp h
  exact List.mem_append_right _ List.mem_cons_self

omit [F64 F] in
/-- A block shows a hit of the report with the text kept under its public id. -/
private theorem mem_shownBlocks {report : RecallReport F} {texts : Texts} {b : RecallHit F × String}
    (h : b ∈ shownBlocks report texts) :
    b.1 ∈ report.hits ∧ texts.lookup b.1.publicId = some b.2 := by
  unfold shownBlocks at h
  split at h
  · cases h
  · obtain ⟨hit, hm, heq⟩ := List.mem_filterMap.mp h
    obtain ⟨text, htext, rfl⟩ := Option.map_eq_some_iff.mp heq
    exact ⟨hm, htext⟩

/-- The row behind a text that was read. -/
structure Shown (db : Db F) (body : Memory F → String) (publicId text : String) (m : Memory F) :
    Prop where
  mem : m ∈ db.memories
  publicId : m.publicId = publicId
  body_eq : body m = text

omit [F64 F] in
private theorem byPublicId?_some {db : Db F} {publicId : String} {m : Memory F}
    (h : db.byPublicId? publicId = some m) : m ∈ db.memories ∧ m.publicId = publicId :=
  ⟨List.mem_of_find?_eq_some h, by simpa using List.find?_some h⟩

/-- The reads of one rendering, each against the database of its own moment. It may also fail. -/
def ReadsAt (past : History env) (seen : String → Nat) (read : ReadMemory) : Prop :=
  ∀ publicId, read publicId = readMemory (past.db (seen publicId)) publicId ∨
    ∃ e, read publicId = .error e

section

variable {past : History env} {seen : String → Nat} {read : ReadMemory}
  {report : RecallReport F} {b : RecallHit F × String}

/-- The recall tool prints bodies of rows. -/
private theorem shown_mcp (hread : ReadsAt past seen read)
    (hb : b ∈ shownBlocks report (textsForReport read report)) :
    ∃ m, Shown (past.db (seen b.1.publicId)) mcpBody b.1.publicId b.2 m := by
  obtain ⟨hm, hlookup⟩ := mem_shownBlocks hb
  unfold textsForReport at hlookup
  rw [lookup_foldl RecallHit.publicId fun publicId => textOfRead (read publicId),
    if_pos (List.mem_map_of_mem hm), List.lookup_nil, Option.or_none] at hlookup
  rcases hread b.1.publicId with heq | ⟨e, heq⟩
  · rw [heq, readMemory] at hlookup
    cases hrow : (past.db (seen b.1.publicId)).byPublicId? b.1.publicId with
    | none => rw [hrow] at hlookup; cases hlookup
    | some m =>
      rw [hrow] at hlookup
      obtain ⟨hmem, hpid⟩ := byPublicId?_some hrow
      exact ⟨m, hmem, hpid, Option.some.inj hlookup⟩
  · rw [heq] at hlookup
    cases hlookup

/-- The recall command prints texts of rows, and an empty text for an injected hit without a row. -/
private theorem shown_cli (hread : ReadsAt past seen read) {texts : Texts}
    (htexts : injectedTexts read report.hits [] = .ok texts) (hb : b ∈ shownBlocks report texts) :
    ∃ hit ∈ report.hits, hit.injected = true ∧ hit.publicId = b.1.publicId ∧
      ((∃ m, Shown (past.db (seen b.1.publicId)) Memory.text b.1.publicId b.2 m) ∨
        ∀ m ∈ (past.db (seen b.1.publicId)).memories, m.publicId ≠ b.1.publicId) := by
  obtain ⟨_, hlookup⟩ := mem_shownBlocks hb
  rcases mem_injectedTexts htexts (mem_of_lookup hlookup) with hnil | ⟨hit, hm, hinjected, hpid,
    row, hrow, htext⟩
  · cases hnil
  refine ⟨hit, hm, hinjected, hpid, ?_⟩
  rcases hread b.1.publicId with heq | ⟨e, heq⟩
  · rw [heq] at hrow
    have hrow := Except.ok.inj hrow
    cases hfind : (past.db (seen b.1.publicId)).byPublicId? b.1.publicId with
    | none =>
      refine .inr fun m hm hpid => ?_
      exact absurd hpid (by simpa using List.find?_eq_none.mp hfind m hm)
    | some m =>
      rw [hfind] at hrow
      obtain ⟨hmem, hpid⟩ := byPublicId?_some hfind
      subst hrow
      exact .inl ⟨m, hmem, hpid, htext.symm⟩
  · rw [heq] at hrow
    cases hrow

end

/-- A block shows a text that the hit's memory had in a state, between gate 2 and the read of that
text, in which its row passed the filter under the label. -/
def Truthful (past : History env) (filter : HardFilter) (body : Memory F → String)
    (first last : Nat) (b : RecallHit F × String) : Prop :=
  ∃ n, first ≤ n ∧ n ≤ last ∧ ∃ m, Passes filter body b.1 b.2 (past.db n) m

/-- If every write between gate 2 and the reads of the texts keeps the labels, both surfaces print
only texts that have passed under their labels. The recall command also needs its rows to stay. -/
theorem printed_under_label {reads : Reads F} {agentId : String} {q : RecallQuery F} {now : Int}
    {report : RecallReport F} (h : recallWithClock reads agentId q now = .ok report)
    (past : History env) {first : Nat} (hgate2 : reads.gate2 = .ok (past.db first))
    {seen : String → Nat} (hseen : ∀ publicId, first ≤ seen publicId) {read : ReadMemory}
    (hread : ReadsAt past seen read) :
    ((∀ hit ∈ report.hits, ∀ n, first ≤ n → n < seen hit.publicId →
        KeepsLabel (.fromQuery agentId q now) mcpBody hit (past.db n) (past.db (n + 1))) →
      ∀ b ∈ shownBlocks report (textsForReport read report),
        Truthful past (.fromQuery agentId q now) mcpBody first (seen b.1.publicId) b) ∧
    ((∀ hit ∈ report.hits, hit.injected = true → ∀ n, first ≤ n → n < seen hit.publicId →
        KeepsLabel (.fromQuery agentId q now) Memory.text hit (past.db n) (past.db (n + 1)) ∧
          KeepsRow hit (past.db n) (past.db (n + 1))) →
      ∀ texts, injectedTexts read report.hits [] = .ok texts → ∀ b ∈ shownBlocks report texts,
        Truthful past (.fromQuery agentId q now) Memory.text first (seen b.1.publicId) b) := by
  have hlabels := fun hit (hm : hit ∈ report.hits) => report_labels h hgate2 hm
  have hlast : ∀ publicId, first + (seen publicId - first) = seen publicId := fun publicId =>
    Nat.add_sub_cancel' (hseen publicId)
  constructor
  · intro hkeeps b hb
    obtain ⟨m, hm, hpid, hbody⟩ := shown_mcp hread hb
    have hhit := (mem_shownBlocks hb).1
    have hpasses := passes_of_keepsLabel past (hlabels b.1 hhit) (seen b.1.publicId - first)
      (fun n hn hlt => hkeeps b.1 hhit n hn (hlast b.1.publicId ▸ hlt))
      (m := m) (by rw [hlast]; exact hm) hpid
    rw [hlast, hbody] at hpasses
    exact hpasses
  · intro hkeeps texts htexts b hb
    obtain ⟨hit, hm, hinjected, hpid, hshown⟩ := shown_cli hread htexts hb
    obtain rfl := List.inj_on_of_nodup_map
      (recall_matches h hgate2 (past.sound first).1.publicIds).distinct hm (mem_shownBlocks hb).1 hpid
    have hsteps := hkeeps b.1 hm hinjected
    rcases hshown with ⟨m, hmem, hpid, hbody⟩ | hgone
    · have hpasses := passes_of_keepsLabel past (hlabels b.1 hm) (seen b.1.publicId - first)
        (fun n hn hlt => (hsteps n hn (hlast b.1.publicId ▸ hlt)).1)
        (m := m) (by rw [hlast]; exact hmem) hpid
      rw [hlast, hbody] at hpasses
      exact hpasses
    · obtain ⟨m, hmem, hpid⟩ := row_of_keepsRow past.db (hlabels b.1 hm)
        (seen b.1.publicId - first) fun n hn hlt => (hsteps n hn (hlast b.1.publicId ▸ hlt)).2
      rw [hlast] at hmem
      exact absurd hpid (hgone m hmem)

/-! ## A write between the report and its texts -/

def raceStart : Op ℚ := .insertMemory ⟨"semantic", "fact", "the sky is blue", "user"⟩

/-- One more operation after the memory is inserted. -/
def racedBy (op : Op ℚ) : History sampleEnv := historyOf sampleEnv [raceStart, op] "default" 1

/-- A call that reads the store after the insert. -/
def raceReads : Reads ℚ where
  queryVec := none
  legs _ _ _ := .ok ([], [(1, "m0", .semantic, .trusted)])
  gate2 := .ok (runOps sampleEnv [raceStart] (emptyStore ℚ "default" 1)).db
  gate3 := .ok (runOps sampleEnv [raceStart] (emptyStore ℚ "default" 1)).db

private theorem raceReads_report : ∃ report hit, recallWithClock raceReads "default" sampleQuery 0 =
    .ok report ∧ report.noHit = false ∧ report.hits = [hit] ∧ hit.publicId = "m0" ∧
    hit.trust = .trusted ∧ hit.injected = true := by
  have hrun : ((recallWithClock raceReads "default" sampleQuery 0).toOption.map fun r =>
      (r.noHit, r.hits.map fun h => (h.publicId, h.trust, h.injected))) =
        some (false, [("m0", .trusted, true)]) := by decide +kernel
  cases hr : recallWithClock raceReads "default" sampleQuery 0 with
  | error e => rw [hr] at hrun; cases hrun
  | ok report =>
    rw [hr] at hrun
    obtain ⟨hnoHit, hhits⟩ := Prod.mk.inj (Option.some.inj hrun)
    obtain ⟨hit, hits, hreport, hhit, hnil⟩ := List.map_eq_cons_iff.mp hhits
    obtain rfl := List.map_eq_nil_iff.mp hnil
    obtain ⟨hpid, hrest⟩ := Prod.mk.inj hhit
    obtain ⟨htrust, hinjected⟩ := Prod.mk.inj hrest
    exact ⟨report, hit, rfl, hnoHit, hreport, hpid, htrust, hinjected⟩

/-- What both surfaces print for a report of one injected hit. -/
private theorem shownBlocks_single {report : RecallReport ℚ} {hit : RecallHit ℚ}
    (hnoHit : report.noHit = false) (hhits : report.hits = [hit]) (hinjected : hit.injected = true)
    {db : Db ℚ} {row : Option MemoryRow} (hrow : readMemory db hit.publicId = .ok row) :
    (∀ text, textOfRead (.ok row) = some text →
      (hit, text) ∈ shownBlocks report (textsForReport (readMemory db) report)) ∧
    ∃ texts, injectedTexts (readMemory db) report.hits [] = .ok texts ∧
      (hit, (row.map MemoryRow.text).getD "") ∈ shownBlocks report texts := by
  constructor
  · intro text htext
    simp [shownBlocks, hnoHit, hhits, blocks, textsForReport, hrow, htext, insertText]
  · refine ⟨[(hit.publicId, (row.map MemoryRow.text).getD "")], ?_, ?_⟩
    · simp [hhits, injectedTexts, hinjected, hrow, insertText, bind, Except.bind]
    · simp [shownBlocks, hnoHit, hhits, blocks]

/-- A rewrite by a source that is not trusted. -/
def rewriteFromWeb : Op ℚ := .update 1 "the sky is green" (some "web") none none

def rewriteByUser : Op ℚ := .update 1 "the sky is deep blue" (some "user") none none

def purgeOne : Op ℚ := .hardPurgeMemory 1 none none

/-- A text that no state pairs with the trust of the label. -/
private theorem not_truthful {op : Op ℚ} {body : Memory ℚ → String} {hit : RecallHit ℚ}
    {text : String}
    (hnever : ∀ n < 3, ∀ m ∈ ((racedBy op).db n).memories, body m = text → m.trust ≠ hit.trust) :
    ¬ Truthful (racedBy op) (.fromQuery "default" sampleQuery 0) body 0 2 (hit, text) := by
  rintro ⟨n, _, hn, m, hpasses⟩
  exact hnever n (by omega) m hpasses.mem hpasses.body_eq hpasses.trust

/-- The text of an untrusted source is printed as trusted, by both surfaces, and the recall command
prints an empty text for a purged memory. -/
theorem labels_broken : ∃ report hit,
    recallWithClock raceReads "default" sampleQuery 0 = .ok report ∧ hit.trust = .trusted ∧
    raceReads.gate2 = .ok ((racedBy rewriteFromWeb).db 1) ∧
    ((hit, "the sky is green") ∈ shownBlocks report
        (textsForReport (readMemory ((racedBy rewriteFromWeb).db 2)) report) ∧
      ¬ Truthful (racedBy rewriteFromWeb) (.fromQuery "default" sampleQuery 0) mcpBody 0 2
        (hit, "the sky is green")) ∧
    (∃ texts, injectedTexts (readMemory ((racedBy rewriteFromWeb).db 2)) report.hits [] = .ok texts ∧
      (hit, "the sky is green") ∈ shownBlocks report texts ∧
      ¬ Truthful (racedBy rewriteFromWeb) (.fromQuery "default" sampleQuery 0) Memory.text 0 2
        (hit, "the sky is green")) ∧
    ∃ texts, injectedTexts (readMemory ((racedBy purgeOne).db 2)) report.hits [] = .ok texts ∧
      (hit, "") ∈ shownBlocks report texts ∧
      ¬ Truthful (racedBy purgeOne) (.fromQuery "default" sampleQuery 0) Memory.text 0 2 (hit, "") := by
  obtain ⟨report, hit, hrun, hnoHit, hhits, hpid, htrust, hinjected⟩ := raceReads_report
  have hweb : ∃ row, readMemory ((racedBy rewriteFromWeb).db 2) "m0" = .ok (some row) ∧
      row.summaryText = none ∧ row.text = "the sky is green" := ⟨_, rfl, rfl, rfl⟩
  have hgone : readMemory ((racedBy purgeOne).db 2) "m0" = .ok none := rfl
  obtain ⟨row, hrow, hsummary, htext⟩ := hweb
  rw [← hpid] at hrow hgone
  obtain ⟨hmcp, texts, htexts, hcli⟩ := shownBlocks_single hnoHit hhits hinjected hrow
  obtain ⟨_, purged, hpurged, hempty⟩ := shownBlocks_single hnoHit hhits hinjected hgone
  refine ⟨report, hit, hrun, htrust, rfl, ⟨hmcp _ ?_, not_truthful ?_⟩,
    ⟨texts, htexts, htext ▸ hcli, not_truthful ?_⟩, purged, hpurged, hempty, not_truthful ?_⟩
  · rw [textOfRead, hsummary, htext]
    rfl
  all_goals
    rw [htrust]
    decide +kernel

/-- A rewrite by a user keeps the label. -/
theorem printed_under_label_sample : ∃ report hit,
    recallWithClock raceReads "default" sampleQuery 0 = .ok report ∧
    (hit, "the sky is deep blue") ∈ shownBlocks report
      (textsForReport (readMemory ((racedBy rewriteByUser).db 2)) report) ∧
    Truthful (racedBy rewriteByUser) (.fromQuery "default" sampleQuery 0) mcpBody 1 2
      (hit, "the sky is deep blue") ∧
    ∃ texts, injectedTexts (readMemory ((racedBy rewriteByUser).db 2)) report.hits [] = .ok texts ∧
      Truthful (racedBy rewriteByUser) (.fromQuery "default" sampleQuery 0) Memory.text 1 2
        (hit, "the sky is deep blue") := by
  obtain ⟨report, hit, hrun, hnoHit, hhits, hpid, htrust, hinjected⟩ := raceReads_report
  have huser : ∃ row, readMemory ((racedBy rewriteByUser).db 2) "m0" = .ok (some row) ∧
      row.summaryText = none ∧ row.text = "the sky is deep blue" := ⟨_, rfl, rfl, rfl⟩
  obtain ⟨row, hrow, hsummary, htext⟩ := huser
  rw [← hpid] at hrow
  obtain ⟨hmcp, texts, htexts, hcli⟩ := shownBlocks_single hnoHit hhits hinjected hrow
  have hblock := hmcp "the sky is deep blue" (by rw [textOfRead, hsummary, htext]; rfl)
  have hpasses : ∀ m ∈ ((racedBy rewriteByUser).db 2).memories,
      (HardFilter.fromQuery "default" sampleQuery 0).admits
        (rowFromSql ((racedBy rewriteByUser).db 2) m) = true ∧ m.trust = .trusted := by
    decide +kernel
  have hstays : ∃ m ∈ ((racedBy rewriteByUser).db 2).memories, m.publicId = "m0" := by
    decide +kernel
  have hkeeps : ∀ body, ∀ h ∈ report.hits, ∀ n, 1 ≤ n → n < 2 →
      KeepsLabel (.fromQuery "default" sampleQuery 0) body h ((racedBy rewriteByUser).db n)
        ((racedBy rewriteByUser).db (n + 1)) ∧
      KeepsRow h ((racedBy rewriteByUser).db n) ((racedBy rewriteByUser).db (n + 1)) := by
    intro body h hh n hn hlt
    obtain rfl : n = 1 := by omega
    obtain rfl := List.mem_singleton.mp (hhits ▸ hh)
    rw [KeepsRow, hpid]
    exact ⟨fun m hm _ => .inr (htrust ▸ hpasses m hm), fun _ => hstays⟩
  have hgate2 : raceReads.gate2 = .ok ((racedBy rewriteByUser).db 1) := rfl
  have hread : ReadsAt (racedBy rewriteByUser) (fun _ => 2)
      (readMemory ((racedBy rewriteByUser).db 2)) := fun _ => .inl rfl
  obtain ⟨hmcpRule, hcliRule⟩ :=
    printed_under_label hrun (racedBy rewriteByUser) hgate2 (fun _ => by omega) hread
  refine ⟨report, hit, hrun, hblock, ?_, texts, htexts, ?_⟩
  · exact hmcpRule (fun h hh n hn hlt => (hkeeps mcpBody h hh n hn hlt).1) _ hblock
  · exact hcliRule (fun h hh _ n hn hlt => hkeeps Memory.text h hh n hn hlt) texts htexts _
      (htext ▸ hcli)

end AgosMemory.Recall
