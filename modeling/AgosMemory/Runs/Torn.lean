import AgosMemory.Jobs.Queue
import AgosMemory.Runs.Halves
import AgosMemory.Runs.Pins

/-!
# Edits that tear

A rewrite, a pin and a soft change of a memory write several tables, and a failed job writes two. Each
comes apart unless all but one of its statements find what they would write.
-/

namespace AgosMemory.Halves

open Library Library.Faulty Store

variable {F : Type} [F64 F] {env : Env F} {c : Conn F}

/-! ## Rewrites -/

section

variable {id now : Int} {text : String} {source reason createdBy : Option String}

/-- The columns that a rewrite sets. -/
def revised (env : Env F) (text : String) (source : Option String) (now : Int) (m : Memory F)
    (kind : SourceKind) (r : Memory F) : Memory F :=
  { r with
    text, textHash := env.sha256Hex text, updatedAt := now, trust := mergedTrust m source
    sourceKind := kind }

/-- The statements of a rewrite from its new version on. -/
def reviseFrom (env : Env F) (id : Int) (text : String) (source : Option String) (now : Int)
    (v : MemoryVersion) : Write F MemoryRow := do
  exec env (insertVersion v)
  let current ← query env fun db => one (db.memory? id)
  exec env (retext id text (env.sha256Hex text) (mergedTrust current source)
    (mergedKind current source) source now)
  run env fun db => db.updateVec id fun v => { v with trust := (mergedTrust current source).code }
  query env fun db => (one (db.memory? id)).map rowOf

/-- The diff against the version before it. -/
def diffBefore (env : Env F) (c : Conn F) (id : Int) (text : String) : Option DiffJson :=
  ((c.db.versions.find? fun v => v.memoryId = id ∧ v.version = maxVersion c.db id).map
    MemoryVersion.text).map fun old =>
      let diff := Diff.computeLineDiff old text
      { oldHash := env.sha256Hex old, newHash := env.sha256Hex text, addedLines := diff.added
        removedLines := diff.removed, changed := !diff.added.isEmpty || !diff.removed.isEmpty }

/-- The version that a rewrite adds. -/
def nextVersion (env : Env F) (c : Conn F) (id : Int) (text : String)
    (reason createdBy : Option String) (diffJson : Option DiffJson) : MemoryVersion where
  memoryId := id
  version := maxVersion c.db id + 1
  text := text
  textHash := env.sha256Hex text
  supersedesVersion := if 0 < maxVersion c.db id then some (maxVersion c.db id) else none
  changeReason := reason
  diffJson := diffJson
  createdBy := createdBy
  createdAt := env.clock c.ticks

/-- The database with one more version. -/
def versioned (v : MemoryVersion) (db : Db F) : Db F := { db with versions := db.versions ++ [v] }

omit [F64 F] in
private theorem tables_recoded {w : Bool} {code : Int} {a b : Db F} (h : tables a = tables b) :
    tables (recoded w id code a) = tables (recoded w id code b) := by
  cases w with
  | false => exact h
  | true =>
    obtain ⟨hdim, hmemories, hseq, hversions, hlinks, hvecs, hrest⟩ := tables_eq_iff.mp h
    have hvecs' : (recoded true id code a).vecs = (recoded true id code b).vecs :=
      congrArg (List.map _) hvecs
    exact tables_eq_iff.mpr ⟨hdim, hmemories, hseq, hversions, hlinks, hvecs', hrest⟩

omit [F64 F] in
private theorem retext_accepted {m : Memory F} {kind : SourceKind} {db : Db F}
    (hm : db.memory? id = some m) (hkind : SourceKind.ofSql? (mergedKind m source) = some kind) :
    ∃ d, retext id text (env.sha256Hex text) (mergedTrust m source) (mergedKind m source) source now
        db = .ok ((), d) ∧
      tables d = tables (db.updateMemory id (revised env text source now m kind)) ∧
      d.vecs = db.vecs ∧ (d.memory? id).isSome := by
  obtain ⟨⟨⟨⟩, d⟩, hd⟩ : ∃ r, retext id text (env.sha256Hex text) (mergedTrust m source)
      (mergedKind m source) source now db = .ok r := retext_succeeds (Option.isSome_of_mem hkind)
  obtain ⟨kind', hkind', rfl⟩ := retext_ok hm hd
  obtain rfl : kind = kind' := Option.some.inj (hkind.symm.trans hkind')
  refine ⟨_, hd, rfl, rfl, ?_⟩
  refine found_of_ids (a := db) ?_ (Option.isSome_of_mem hm)
  exact map_updateMemory fun _ => rfl

omit [F64 F] in
private theorem retext_refused {m : Memory F} {db : Db F} (hm : db.memory? id = some m)
    (hkind : SourceKind.ofSql? (mergedKind m source) = none) :
    ∃ e, retext id text (env.sha256Hex text) (mergedTrust m source) (mergedKind m source) source now
      db = .error e := by
  unfold retext setProvenance
  rw [hm, hkind]
  exact ⟨_, rfl⟩

omit [F64 F] in
private theorem insertVersion_versioned {m : Memory F} {v : MemoryVersion} {db : Db F}
    (hm : db.memory? v.memoryId = some m) (hv : v.version = maxVersion db v.memoryId + 1) :
    insertVersion v db = .ok ((), versioned v db) := by
  obtain ⟨⟨⟨⟩, d⟩, hd⟩ := insertVersion_next hm hv
  rw [hd, (insertVersion_ok hd).2.2]
  rfl

variable (env now text source) in
omit [F64 F] in
/-- A new version, and then the row and its vector. -/
private theorem reviseFrom_runs {m : Memory F} {kind : SourceKind} {v : MemoryVersion}
    (hm : c.db.memory? id = some m) (hid : v.memoryId = id)
    (hv : v.version = maxVersion c.db id + 1)
    (hkind : SourceKind.ofSql? (mergedKind m source) = some kind) : ∃ row t,
      Runs Conn.stmts view (fun fault => reviseFrom (struck env fault) id text source now v) c
        [tables c.db, tables (versioned v c.db), tables (versioned v c.db),
          tables ((versioned v c.db).updateMemory id (revised env text source now m kind)),
          tables t.db] [(row, t)] ∧
      tables t.db = tables (recoded true id (mergedTrust m source).code
        ((versioned v c.db).updateMemory id (revised env text source now m kind))) := by
  subst hid
  have hversion := insertVersion_versioned hm hv
  have hm' : (versioned v c.db).memory? v.memoryId = some m := hm
  obtain ⟨d, hretext, htables, hvecs, hfound⟩ : ∃ d, retext v.memoryId text (env.sha256Hex text)
      (mergedTrust m source) (mergedKind m source) source now (versioned v c.db) = .ok ((), d) ∧
      tables d = tables ((versioned v c.db).updateMemory v.memoryId
        (revised env text source now m kind)) ∧
      d.vecs = (versioned v c.db).vecs ∧ (d.memory? v.memoryId).isSome := retext_accepted hm' hkind
  obtain ⟨last, hlast⟩ := Option.isSome_iff_exists.mp hfound
  refine ⟨rowOf last, { c with
    stmts := c.stmts + 5, db := recoded true v.memoryId (mergedTrust m source).code d }, ?_, ?_⟩
  · rw [← htables]
    unfold reviseFrom
    refine Runs.next (runs_exec hversion) rfl ?_
    refine Runs.next (runs_find hm') rfl ?_
    refine Runs.next (runs_exec (f := retext v.memoryId text (env.sha256Hex text)
      (mergedTrust m source) (mergedKind m source) source now) (a := ()) (d := d)
      (by exact hretext)) rfl ?_
    refine Runs.next (runs_run (f := recoded true v.memoryId (mergedTrust m source).code)) rfl ?_
    refine runs_query (a := rowOf last) ?_
    show (one (d.memory? v.memoryId)).map rowOf = _
    rw [hlast]
    rfl
  · exact tables_recoded htables

omit [F64 F] in
private theorem reviseFrom_missing {v : MemoryVersion} (hm : c.db.memory? v.memoryId = none) :
    Runs Conn.stmts view (fun fault => reviseFrom (struck env fault) id text source now v) c
      [tables c.db] [] := by
  unfold reviseFrom
  refine Runs.halt (halts_exec (e := .storage "FOREIGN KEY constraint failed") ?_) _
  unfold insertVersion
  rw [hm]
  rfl

omit [F64 F] in
/-- A source kind that the `CHECK` refuses leaves the new version behind. -/
private theorem reviseFrom_refused {m : Memory F} {v : MemoryVersion}
    (hm : c.db.memory? id = some m) (hid : v.memoryId = id)
    (hv : v.version = maxVersion c.db id + 1)
    (hkind : SourceKind.ofSql? (mergedKind m source) = none) :
    Runs Conn.stmts view (fun fault => reviseFrom (struck env fault) id text source now v) c
      [tables c.db, tables (versioned v c.db), tables (versioned v c.db)] [] := by
  subst hid
  have hm' : (versioned v c.db).memory? v.memoryId = some m := hm
  obtain ⟨e, he⟩ : ∃ e, retext v.memoryId text (env.sha256Hex text) (mergedTrust m source)
      (mergedKind m source) source now (versioned v c.db) = .error e := retext_refused hm' hkind
  unfold reviseFrom
  refine Runs.next (runs_exec (insertVersion_versioned hm hv)) rfl ?_
  refine Runs.next (runs_find hm') rfl ?_
  exact Runs.halt (halts_exec (f := retext v.memoryId text (env.sha256Hex text)
    (mergedTrust m source) (mergedKind m source) source now) (e := e) (by exact he)) _

variable (env c id text source reason createdBy) in
omit [F64 F] in
/-- A rewrite reads the text of the version before it, and if that fails it goes on without a diff. -/
private theorem update_runs (stops : Option DiffJson → List (Db F × Multiset Pin))
    (ends : Option DiffJson → List (MemoryRow × Conn F))
    (h : ∀ diff, Runs Conn.stmts view (fun fault => reviseFrom (struck env fault) id text source
        (env.clock c.ticks) (nextVersion env c id text reason createdBy diff))
      { c with stmts := c.stmts + 2, ticks := c.ticks + 1 } (stops diff) (ends diff)) :
    Runs Conn.stmts view (fun fault =>
        updateMemoryWithProvenance (struck env fault) id text source reason createdBy) c
      (tables c.db :: (stops none ++ stops (diffBefore env c id text)))
      (ends none ++ ends (diffBefore env c id text)) := by
  unfold updateMemoryWithProvenance
  refine Runs.next (runs_query (f := fun db => .ok (maxVersion db id)) rfl) rfl ?_
  refine Runs.fork (runs_attempt (fun _ hf => query_of_fault hf) (fun _ hf => query_of_noFault hf)
    rfl) rfl ?_ ?_
  · refine runs_now.next rfl ?_
    exact h none
  · refine runs_now.next rfl ?_
    exact h (diffBefore env c id text)

/-- If the row is there, the new version is all there is to write: the source kind passes the `CHECK`,
and the row and its vector have what they would be set to. -/
def UpdateAlone (env : Env F) (id : Int) (text : String) (source : Option String) (now : Int)
    (db : Db F) : Prop :=
  ∀ m, db.memory? id = some m → ∃ kind, SourceKind.ofSql? (mergedKind m source) = some kind ∧
    RowsKeep db id (revised env text source now m kind) ∧
    VecsKeep db id fun v => { v with trust := (mergedTrust m source).code }

omit [F64 F] in
private theorem tables_revised {v v' : MemoryVersion} {f : Memory F → Memory F} {code : Int}
    {db : Db F}
    (h : tables (versioned v db) =
      tables (recoded true id code ((versioned v' db).updateMemory id f))) :
    RowsKeep db id f ∧ VecsKeep db id fun v => { v with trust := code } := by
  obtain ⟨-, hmemories, -, -, -, hvecs, -⟩ := tables_eq_iff.mp h
  exact ⟨updateMemory_keep.mp hmemories.symm, updateVec_keep.mp hvecs.symm⟩

omit [F64 F] in
private theorem updateMemory_eq {f : Memory F → Memory F} {db : Db F} (h : RowsKeep db id f) :
    db.updateMemory id f = db := by
  show { db with memories := (db.updateMemory id f).memories } = db
  rw [updateMemory_keep.mpr h]

omit [F64 F] in
private theorem tables_versioned_ne {v : MemoryVersion} {db : Db F} :
    tables (versioned v db) ≠ tables db := by
  intro h
  have hlength := congrArg List.length (tables_eq_iff.mp h).2.2.2.1
  rw [versioned, List.length_append, List.length_singleton] at hlength
  omega

omit [F64 F] in
/-- Two ways to add a version, each followed by the row and its vector. -/
private theorem forked_atomic_iff {α : Type} {m : Env F → Write F α} {v v' : MemoryVersion} {a a' : α}
    {t t' : Conn F} {f : Memory F → Memory F} {code : Int}
    (h : Runs Conn.stmts view (fun fault => m (struck env fault)) c
      (tables c.db :: ([tables c.db, tables (versioned v c.db), tables (versioned v c.db),
          tables ((versioned v c.db).updateMemory id f), tables t.db] ++
        [tables c.db, tables (versioned v' c.db), tables (versioned v' c.db),
          tables ((versioned v' c.db).updateMemory id f), tables t'.db]))
      ([(a, t)] ++ [(a', t')]))
    (ht : tables t.db = tables (recoded true id code ((versioned v c.db).updateMemory id f)))
    (ht' : tables t'.db = tables (recoded true id code ((versioned v' c.db).updateMemory id f))) :
    Atomic env m c ↔
      RowsKeep c.db id f ∧ VecsKeep c.db id fun v => { v with trust := code } := by
  rw [atomic_iff h]
  constructor
  · intro hall
    rcases hall (tables (versioned v c.db)) (by simp) with hsame | ⟨p, hp, hsame⟩
    · exact absurd hsame tables_versioned_ne
    · rcases List.mem_append.mp hp with hp | hp <;> rw [List.mem_singleton.mp hp] at hsame
      · exact tables_revised (hsame.trans ht)
      · exact tables_revised (hsame.trans ht')
  · rintro ⟨hrows, hvecs⟩
    have hrevised : ∀ w, (versioned w c.db).updateMemory id f = versioned w c.db := fun w =>
      updateMemory_eq hrows
    have hrecoded : ∀ w, tables (recoded true id code (versioned w c.db)) = tables (versioned w c.db) :=
      fun w => tables_recoded_eq fun _ => hvecs
    rw [hrevised, hrecoded] at ht ht'
    rw [hrevised, hrevised, ht, ht']
    intro d hd
    have hplaces : d = tables c.db ∨ d = tables (versioned v c.db) ∨
        d = tables (versioned v' c.db) := by
      simp only [List.mem_cons, List.mem_append, List.not_mem_nil, or_false] at hd
      tauto
    rcases hplaces with rfl | rfl | rfl
    · exact .inl rfl
    · exact .inr ⟨(a, t), by simp, ht.symm⟩
    · exact .inr ⟨(a', t'), by simp, ht'.symm⟩

omit [F64 F] in
private theorem update_atomic_iff : Atomic env (fun env =>
      updateMemoryWithProvenance env id text source reason createdBy) c ↔
    UpdateAlone env id text source (env.clock c.ticks) c.db := by
  cases hm : c.db.memory? id with
  | none =>
    have hruns := update_runs env c id text source reason createdBy (fun _ => [tables c.db])
      (fun _ => []) fun diff => reviseFrom_missing hm
    refine iff_of_true (atomic_unwritten hruns fun d hd => ?_) fun m hm' => ?_
    · simpa using hd
    · rw [hm] at hm'
      cases hm'
  | some m =>
    cases hkind : SourceKind.ofSql? (mergedKind m source) with
    | none =>
      have hruns := update_runs env c id text source reason createdBy
        (fun diff => [tables c.db,
          tables (versioned (nextVersion env c id text reason createdBy diff) c.db),
          tables (versioned (nextVersion env c id text reason createdBy diff) c.db)])
        (fun _ => []) fun diff => reviseFrom_refused hm rfl rfl hkind
      rw [atomic_iff hruns]
      refine iff_of_false (fun hall => ?_) fun halone => ?_
      · rcases hall (tables (versioned (nextVersion env c id text reason createdBy none) c.db))
          (by simp) with hsame | ⟨p, hp, -⟩
        · exact tables_versioned_ne hsame
        · cases hp
      · obtain ⟨kind, hkind', -⟩ := halone m hm
        rw [hkind] at hkind'
        cases hkind'
    | some kind =>
      choose row t hrevise ht using fun diff => reviseFrom_runs env (env.clock c.ticks) text source
        (c := { c with stmts := c.stmts + 2, ticks := c.ticks + 1 })
        (v := nextVersion env c id text reason createdBy diff) hm rfl rfl hkind
      have hruns := update_runs env c id text source reason createdBy
        _ (fun diff => [(row diff, t diff)]) hrevise
      rw [forked_atomic_iff (c := c) hruns (ht _) (ht _)]
      constructor
      · intro hkeep m' hm'
        obtain rfl : m = m' := Option.some.inj (hm.symm.trans hm')
        exact ⟨kind, hkind, hkeep⟩
      · intro halone
        obtain ⟨kind', hkind', hkeep⟩ := halone m hm
        obtain rfl : kind = kind' := Option.some.inj (hkind.symm.trans hkind')
        exact hkeep

end

/-! ## Pins -/

section

variable {id now : Int} {pinned : Bool} {requester : String}

/-- The ledger has the entry of the pin, or none if it is cleared. -/
def PinsKeep (db : Db F) (id now : Int) (pinned : Bool) (requester : String) : Prop :=
  (db.pins.filter fun p => p.memoryId = id) = if pinned then [⟨id, now, requester⟩] else []

omit [F64 F] in
private theorem pinEntry_keep {db : Db F} :
    (pinEntry id now pinned requester db).pins.Perm db.pins ↔ PinsKeep db id now pinned requester := by
  have hsplit : ((db.pins.filter fun p => p.memoryId ≠ id) ++
      db.pins.filter fun p => p.memoryId = id).Perm db.pins := by
    have hperm := List.filter_append_perm (fun p : Pin => decide (p.memoryId ≠ id)) db.pins
    simpa using hperm
  have hcancel : (pinEntry id now pinned requester db).pins.Perm db.pins ↔
      (db.pins.filter fun p => p.memoryId = id).Perm
        (if pinned then [⟨id, now, requester⟩] else []) := by
    have hsame : ((db.pins.filter fun p => p.memoryId ≠ id) ++
          (db.pins.filter fun p => p.memoryId = id)).Perm
        ((db.pins.filter fun p => p.memoryId ≠ id) ++ if pinned then [⟨id, now, requester⟩] else []) ↔
        (db.pins.filter fun p => p.memoryId = id).Perm
          (if pinned then [⟨id, now, requester⟩] else []) := List.perm_append_left_iff _
    rw [← hsame]
    exact ⟨fun h => hsplit.trans h.symm, fun h => h.symm.trans hsplit⟩
  rw [hcancel]
  unfold PinsKeep
  cases pinned with
  | true => exact List.perm_singleton
  | false => exact List.perm_nil

omit [F64 F] in
private theorem recordPin_runs (h : c.db.memory? id ≠ none) :
    Runs Conn.stmts view (fun fault => recordPin (struck env fault) id now pinned requester) c
      [tables c.db] [((), { c with
        stmts := c.stmts + 1, db := pinEntry id now pinned requester c.db })] := by
  unfold recordPin pinEntry
  cases pinned with
  | true =>
    have hnone : ¬ (c.db.memory? id).isNone = true := by rwa [Option.isNone_iff_eq_none]
    simp only [if_true]
    refine runs_exec ?_
    exact if_neg hnone
  | false =>
    have hdelete : ({ c.db with pins := c.db.pins.filter fun p => p.memoryId ≠ id } : Db F) =
        { c.db with pins := (c.db.pins.filter fun p => p.memoryId ≠ id) ++
          if false = true then [⟨id, now, requester⟩] else [] } := by
      rw [if_neg Bool.false_ne_true, List.append_nil]
    rw [← hdelete]
    exact runs_run

variable (env id pinned requester) in
omit [F64 F] in
private theorem setMemoryPinned_runs {m : Memory F} (hm : c.db.memory? id = some m) :
    Runs Conn.stmts view (fun fault => setMemoryPinned (struck env fault) id pinned requester) c
      [tables c.db, tables (pinRow id (env.clock c.ticks) pinned c.db),
        tables (pinVec id pinned (pinRow id (env.clock c.ticks) pinned c.db))]
      [(true, { c with
        ticks := c.ticks + 1, stmts := c.stmts + 3
        db := pinEntry id (env.clock c.ticks) pinned requester
          (pinVec id pinned (pinRow id (env.clock c.ticks) pinned c.db)) })] := by
  simp only [setMemoryPinned_eq, pinRest]
  refine runs_now.next rfl ?_
  refine Runs.next (runs_exec (f := fun db => .ok ((db.memory? id).isSome,
    pinRow id (env.clock c.ticks) pinned db)) rfl) rfl ?_
  simp only [hm, Option.isSome_some, Bool.not_true, Bool.false_eq_true, if_false]
  refine Runs.next (runs_run (f := pinVec id pinned)) rfl ?_
  exact Runs.next (recordPin_runs (memory?_pinRow hm)) rfl (runs_pure true)

variable (env id pinned requester) in
omit [F64 F] in
private theorem setMemoryPinned_missing (hm : c.db.memory? id = none) :
    Runs Conn.stmts view (fun fault => setMemoryPinned (struck env fault) id pinned requester) c
      [tables c.db] [(false, { c with ticks := c.ticks + 1, stmts := c.stmts + 1 })] := by
  have hsame : pinRow id (env.clock c.ticks) pinned c.db = c.db := updateMemory_of_none hm _
  simp only [setMemoryPinned_eq]
  refine runs_now.next rfl ?_
  refine Runs.next (runs_exec (a := false) (d := c.db) ?_) rfl (runs_pure false)
  show Except.ok ((c.db.memory? id).isSome, pinRow id (env.clock c.ticks) pinned c.db) = _
  rw [hsame, hm]
  rfl

/-- The row has the flag and the time of the pin. -/
def FlagKeeps (db : Db F) (id now : Int) (pinned : Bool) : Prop :=
  RowsKeep db id fun m => { m with pinned := pinCode pinned, updatedAt := now }

/-- The vector has the flag. -/
def VecFlagKeeps (db : Db F) (id : Int) (pinned : Bool) : Prop :=
  VecsKeep db id fun v => { v with pinned := pinCode pinned }

section

variable {db : Db F}

omit [F64 F] in
private theorem pinRow_keep :
    tables (pinRow id now pinned db) = tables db ↔ FlagKeeps db id now pinned := by
  refine ⟨fun h => updateMemory_keep.mp (tables_eq_iff.mp h).2.1, fun h => ?_⟩
  rw [pinRow, updateMemory_eq h]

omit [F64 F] in
private theorem pinVec_keep : tables (pinVec id pinned (pinRow id now pinned db)) = tables db ↔
    FlagKeeps db id now pinned ∧ VecFlagKeeps db id pinned := by
  constructor
  · intro h
    obtain ⟨-, hmemories, -, -, -, hvecs, -⟩ := tables_eq_iff.mp h
    exact ⟨updateMemory_keep.mp hmemories, updateVec_keep.mp hvecs⟩
  · rintro ⟨hrow, hvec⟩
    exact tables_eq_iff.mpr ⟨rfl, updateMemory_keep.mpr hrow, rfl, rfl, rfl,
      updateVec_keep.mpr hvec, rfl, rfl, rfl, rfl, rfl, rfl, rfl, .refl _⟩

omit [F64 F] in
private theorem pinned_of_row : tables (pinRow id now pinned db) =
      tables (pinEntry id now pinned requester (pinVec id pinned (pinRow id now pinned db))) ↔
    VecFlagKeeps db id pinned ∧ PinsKeep db id now pinned requester := by
  constructor
  · intro h
    obtain ⟨-, -, -, -, -, hvecs, -, -, -, -, -, -, -, hpins⟩ := tables_eq_iff.mp h
    exact ⟨updateVec_keep.mp hvecs.symm, pinEntry_keep.mp hpins.symm⟩
  · rintro ⟨hvec, hledger⟩
    exact tables_eq_iff.mpr ⟨rfl, rfl, rfl, rfl, rfl, (updateVec_keep.mpr hvec).symm, rfl, rfl, rfl,
      rfl, rfl, rfl, rfl, (pinEntry_keep.mpr hledger).symm⟩

omit [F64 F] in
private theorem pinned_of_vec : tables (pinVec id pinned (pinRow id now pinned db)) =
      tables (pinEntry id now pinned requester (pinVec id pinned (pinRow id now pinned db))) ↔
    PinsKeep db id now pinned requester := by
  constructor
  · intro h
    obtain ⟨-, -, -, -, -, -, -, -, -, -, -, -, -, hpins⟩ := tables_eq_iff.mp h
    exact pinEntry_keep.mp hpins.symm
  · intro hledger
    exact tables_eq_iff.mpr ⟨rfl, rfl, rfl, rfl, rfl, rfl, rfl, rfl, rfl, rfl, rfl, rfl, rfl,
      (pinEntry_keep.mpr hledger).symm⟩

end

/-- If the row is there, at most one of the three places has anything to change. -/
def PinAlone (id : Int) (pinned : Bool) (requester : String) (now : Int) (db : Db F) : Prop :=
  db.memory? id ≠ none →
    FlagKeeps db id now pinned ∧ VecFlagKeeps db id pinned ∨
    FlagKeeps db id now pinned ∧ PinsKeep db id now pinned requester ∨
    VecFlagKeeps db id pinned ∧ PinsKeep db id now pinned requester

omit [F64 F] in
private theorem setMemoryPinned_atomic_iff :
    Atomic env (fun env => setMemoryPinned env id pinned requester) c ↔
      PinAlone id pinned requester (env.clock c.ticks) c.db := by
  cases hm : c.db.memory? id with
  | none =>
    refine iff_of_true (atomic_unwritten (setMemoryPinned_missing env id pinned requester hm)
      fun d hd => List.mem_singleton.mp hd) fun hfound => absurd hm hfound
  | some m =>
    rw [atomic_iff (setMemoryPinned_runs env id pinned requester hm)]
    simp only [List.forall_mem_cons, List.mem_singleton, exists_eq_left, true_or, true_and,
      forall_eq]
    rw [pinRow_keep, pinVec_keep, pinned_of_row, pinned_of_vec, PinAlone, hm]
    simp only [ne_eq, reduceCtorEq, not_false_eq_true, true_implies]
    tauto

end

/-! ## Soft changes -/

section

variable {id : Int} {action requester : String} {deletedBy reason : Option String} {status : Status}
  {change : Int → Memory F → Memory F}

omit [F64 F] in
private theorem restate_missing {g : Memory F → Memory F} {db : Db F} (hm : db.memory? id = none) :
    restate id status g db = db := by
  have hsame : (db.updateMemory id fun m => { g m with status }) = db := updateMemory_of_none hm _
  unfold restate
  rw [hm, hsame, Option.toList_none, List.map_nil, List.append_nil]

omit [F64 F] in
private theorem restate_keep {g : Memory F → Memory F} {db : Db F} :
    tables (restate id status g db) = tables db ↔ RowsKeep db id fun m => { g m with status } := by
  refine ⟨fun h => updateMemory_keep.mp (tables_eq_iff.mp h).2.1, fun h => ?_⟩
  exact tables_eq_iff.mpr ⟨rfl, updateMemory_keep.mpr h, rfl, rfl, rfl, rfl, rfl, rfl, rfl, rfl, rfl,
    rfl, rfl, .refl _⟩

variable (env c id action requester reason status change) in
omit [F64 F] in
private theorem softChange_missing (hm : c.db.memory? id = none) : Runs Conn.stmts view
    (fun fault => softChange (struck env fault) id action requester reason status change) c
    [tables c.db, tables c.db] [((), { c with ticks := c.ticks + 1, stmts := c.stmts + 2 })] := by
  have hsame : restate id status (change (env.clock c.ticks)) c.db = c.db := restate_missing hm
  have hid : (c.db.memory? id).map Memory.publicId = none := by rw [hm]; rfl
  unfold softChange
  refine runs_now.next rfl ?_
  refine Runs.next (runs_query (congrArg Except.ok hid)) rfl ?_
  refine Runs.next (runs_run (f := restate id status (change (env.clock c.ticks)))) rfl ?_
  simp only [hsame]
  exact runs_pure ()

variable (env c id action requester reason status change) in
omit [F64 F] in
/-- The audit row comes after the change. -/
private theorem softChange_runs {m : Memory F} (hm : c.db.memory? id = some m) :
    ∃ t, Runs Conn.stmts view
      (fun fault => softChange (struck env fault) id action requester reason status change) c
      [tables c.db, tables c.db, tables (restate id status (change (env.clock c.ticks)) c.db)]
      [((), t)] ∧
    t.db.forgetAudit.length = c.db.forgetAudit.length + 1 := by
  have hid : (c.db.memory? id).map Memory.publicId = some m.publicId := by rw [hm]; rfl
  refine ⟨{ c with
    ticks := c.ticks + 1, stmts := c.stmts + 3
    db := { restate id status (change (env.clock c.ticks)) c.db with
      forgetAudit := c.db.forgetAudit ++
        [⟨action, selectorJson id, m.publicId, requester, reason, env.clock c.ticks⟩] } }, ?_, ?_⟩
  · unfold softChange
    refine runs_now.next rfl ?_
    refine Runs.next (runs_query (congrArg Except.ok hid)) rfl ?_
    refine Runs.next (runs_run (f := restate id status (change (env.clock c.ticks)))) rfl ?_
    exact runs_run
  · exact List.length_append

/-- If the row is there, the audit row is all there is to write. -/
def SoftAlone (id : Int) (status : Status) (change : Memory F → Memory F) (db : Db F) : Prop :=
  db.memory? id ≠ none → RowsKeep db id fun m => { change m with status }

omit [F64 F] in
private theorem softChange_atomic_iff :
    Atomic env (fun env => softChange env id action requester reason status change) c ↔
      SoftAlone id status (change (env.clock c.ticks)) c.db := by
  cases hm : c.db.memory? id with
  | none =>
    refine iff_of_true (atomic_unwritten
      (softChange_missing env c id action requester reason status change hm) fun d hd => ?_)
      fun hfound => absurd hm hfound
    simpa using hd
  | some m =>
    obtain ⟨t, hruns, hlength⟩ :=
      softChange_runs env c id action requester reason status change hm
    have haudit : ∀ d : Db F, d.forgetAudit = c.db.forgetAudit → tables d ≠ tables t.db := by
      intro d hd hsame
      have hsameLength := congrArg List.length (tables_eq_iff.mp hsame).2.2.2.2.2.2.2.2.1
      rw [hlength, hd] at hsameLength
      omega
    rw [atomic_iff hruns]
    simp only [List.forall_mem_cons, List.mem_singleton, exists_eq_left, true_or, true_and,
      forall_eq]
    have hlast : tables (restate id status (change (env.clock c.ticks)) c.db) ≠ tables t.db :=
      haudit _ rfl
    rw [or_iff_left hlast, restate_keep, SoftAlone, hm]
    simp

end

/-! ## Every closure -/

/-- The writer closures that issue several statements. -/
inductive Closure (F : Type) where
  | insertMemory (m : NewMemory)
  | persistEmbedded (emb : Embedder F) (cand : Persist.Candidate F)
      (text extractorVersion sourceKind : String) (pending dedup : F) (vec : List F)
  | persistNoVector (cand : Persist.Candidate F) (extractorVersion sourceKind : String) (pending : F)
      (status : EmbedStatus)
  | update (id : Int) (text : String) (source reason createdBy : Option String)
  | pin (id : Int) (pinned : Bool) (requester : String)
  | deprecateWith (id : Int) (deletedBy : Option String) (action : String) (reason : Option String)
  | restore (id : Int) (restoredBy : Option String)

/-- The closure, without what it returns. -/
def Closure.run (env : Env F) : Closure F → Write F Unit
  | insertMemory m => do
    let _ ← Store.insertMemory env m
  | persistEmbedded emb cand text extractorVersion sourceKind pending dedup vec => do
    let _ ← AgosMemory.persistEmbedded env emb cand text extractorVersion sourceKind pending dedup vec
  | persistNoVector cand extractorVersion sourceKind pending status => do
    let _ ← Persist.persistCandidateNoVector env cand extractorVersion sourceKind pending status
  | update id text source reason createdBy => do
    let _ ← updateMemoryWithProvenance env id text source reason createdBy
  | pin id pinned requester => do
    let _ ← setMemoryPinned env id pinned requester
  | deprecateWith id deletedBy action reason => deprecateWithAction env id deletedBy action reason
  | restore id restoredBy => restoreMemory env id restoredBy

/-- At most one statement of the closure changes anything. -/
def Closure.Alone (env : Env F) (c : Conn F) : Closure F → Prop
  | insertMemory m => TooLong m ∨ Refused (memoryRow env c m) c.db
  | persistEmbedded emb cand text extractorVersion sourceKind pending dedup vec =>
    match Persist.duplicateOf env c.db vec cand.tier dedup with
    | some id => BumpAlone ⟨true, true, true⟩ id sourceKind c.db
    | none => Refused (candidateRow env c cand text extractorVersion sourceKind pending
        ⟨.ok, some emb.model, some vec.length⟩ (env.clock c.ticks)) c.db
  | persistNoVector cand extractorVersion sourceKind pending status =>
    match (Persist.sameHash c.db (env.sha256Hex (Redact.redact cand.text))).map Memory.id with
    | some id => BumpAlone ⟨false, false, true⟩ id sourceKind c.db
    | none => Refused (candidateRow env c cand (Redact.redact cand.text) extractorVersion sourceKind
        pending ⟨status, none, none⟩ (env.clock c.ticks)) c.db
  | update id text source _ _ => UpdateAlone env id text source (env.clock c.ticks) c.db
  | pin id pinned requester => PinAlone id pinned requester (env.clock c.ticks) c.db
  | deprecateWith id _ _ _ => SoftAlone id .deprecated (fun m =>
      { m with deletedAt := some (env.clock c.ticks), updatedAt := env.clock c.ticks }) c.db
  | restore id _ => SoftAlone id .active (fun m =>
      { m with deletedAt := none, updatedAt := env.clock c.ticks }) c.db

omit [F64 F] in
/-- What a closure returns has no part in what it leaves. -/
private theorem atomic_forget {α : Type} {m : Env F → Write F α} :
    Atomic env (fun env => do let _ ← m env) c ↔ Atomic env m c := by
  have hleft : ∀ fault, (do let _ ← m (struck env fault) : Write F Unit) c =
      (((m (struck env fault)) c).1.map fun _ => (), ((m (struck env fault)) c).2) := fun fault => by
    show (m (struck env fault) >>= fun _ => pure ()) c = _
    rw [Program.bind_run]
    cases m (struck env fault) c with
    | mk r t => cases r <;> rfl
  unfold Atomic AllOrNothing
  simp only [hleft]
  refine forall_congr' fun fault => or_congr_right (exists_congr fun fault' => ?_)
  constructor
  · rintro ⟨_, t, hrun, hsame⟩
    cases hm : m (struck env fault') c with
    | mk r u =>
      rw [hm] at hrun
      cases r with
      | ok a => exact ⟨a, u, rfl, hsame.trans (congrArg view (Prod.mk.inj hrun).2.symm)⟩
      | error e => cases (Prod.mk.inj hrun).1
  · rintro ⟨a, t, hrun, hsame⟩
    exact ⟨(), t, by rw [hrun]; rfl, hsame⟩

/-- A writer closure is all or nothing exactly if at most one of its statements changes anything. -/
theorem closure_atomic_iff (env : Env F) (closure : Closure F) (c : Conn F) :
    Atomic env (fun env => closure.run env) c ↔ closure.Alone env c := by
  cases closure with
  | insertMemory m => exact atomic_forget.trans (insertMemory_atomic_iff m)
  | persistEmbedded emb cand text ev sk pending dedup vec =>
    exact atomic_forget.trans (persistEmbedded_atomic_iff emb cand text ev sk pending dedup vec)
  | persistNoVector cand ev sk pending status =>
    exact atomic_forget.trans (persistNoVector_atomic_iff cand ev sk pending status)
  | update id text source reason createdBy => exact atomic_forget.trans update_atomic_iff
  | pin id pinned requester => exact atomic_forget.trans setMemoryPinned_atomic_iff
  | deprecateWith id deletedBy action reason => exact softChange_atomic_iff
  | restore id restoredBy => exact softChange_atomic_iff

/-! ## A failed job -/

/-- The job tables and the number of statements so far. -/
structure JobConn where
  queue : Jobs.Queue
  stmts : Nat := 0

/-- One statement on the job tables. -/
def jobStatement {α : Type} (fault : Nat → Bool)
    (f : Jobs.Queue → Except Error (α × Jobs.Queue)) : Program Error JobConn α := fun c =>
  if fault c.stmts then (.error (.storage "disk I/O error"), { c with stmts := c.stmts + 1 })
  else
    match f c.queue with
    | .ok (a, queue) => (.ok a, ⟨queue, c.stmts + 1⟩)
    | .error e => (.error e, { c with stmts := c.stmts + 1 })

/-- `jobs::fail` by its statements: the dead letter is written before the job is marked dead. -/
def failJob (jobId : Int) (err : String) (now : Int) : Faulty Error JobConn Unit := fun fault => do
  let j ← jobStatement fault fun q =>
    match q.job? jobId with
    | none => .error (.storage "Query returned no rows")
    | some j => .ok (j, q)
  if j.attempts < j.maxAttempts then
    jobStatement fault fun q => .ok ((), q.updateJob jobId (Jobs.Job.retried err j.attempts now))
  else do
    jobStatement fault fun q => .ok ((), { q with
      dead := q.dead ++ [⟨jobId, j.kind, j.payloadJson, err, j.attempts, now, none⟩] })
    jobStatement fault fun q => .ok ((), q.updateJob jobId (Jobs.Job.buried err now))

section

variable {jobId now : Int} {err : String} {s : JobConn}

private theorem jobStatement_of_ok {α : Type} {fault : Nat → Bool}
    {f : Jobs.Queue → Except Error (α × Jobs.Queue)} {a : α} {q : Jobs.Queue}
    (hfault : fault s.stmts = false) (h : f s.queue = .ok (a, q)) :
    jobStatement fault f s = (.ok a, ⟨q, s.stmts + 1⟩) := by
  unfold jobStatement
  rw [hfault, if_neg Bool.false_ne_true, h]

private theorem jobStatement_of_error {α : Type} {fault : Nat → Bool}
    {f : Jobs.Queue → Except Error (α × Jobs.Queue)} {e : Error}
    (hfault : fault s.stmts = false) (h : f s.queue = .error e) :
    jobStatement fault f s = (.error e, { s with stmts := s.stmts + 1 }) := by
  unfold jobStatement
  rw [hfault, if_neg Bool.false_ne_true, h]

private theorem jobStatement_of_fault {α : Type} {fault : Nat → Bool}
    {f : Jobs.Queue → Except Error (α × Jobs.Queue)} (hfault : fault s.stmts = true) :
    jobStatement fault f s =
      (.error (.storage "disk I/O error"), { s with stmts := s.stmts + 1 }) := by
  unfold jobStatement
  rw [hfault, if_pos rfl]

private theorem runs_job {α : Type} {f : Jobs.Queue → Except Error (α × Jobs.Queue)} {a : α}
    {q : Jobs.Queue} (h : f s.queue = .ok (a, q)) :
    Runs JobConn.stmts JobConn.queue (fun fault => jobStatement fault f) s [s.queue]
      [(a, ⟨q, s.stmts + 1⟩)] :=
  runs_statement {
    faulty := fun _ hfault => ⟨_, _, jobStatement_of_fault hfault, rfl⟩
    plain := fun _ hfault => jobStatement_of_ok hfault h
    next := rfl }

private theorem halts_job {α : Type} {f : Jobs.Queue → Except Error (α × Jobs.Queue)} {e : Error}
    (h : f s.queue = .error e) :
    Runs JobConn.stmts JobConn.queue (fun fault => jobStatement fault f) s [s.queue] [] := by
  refine runs_refused (t := { s with stmts := s.stmts + 1 }) (e := e) ?_ rfl
  exact {
    faulty := fun _ hfault => ⟨_, _, jobStatement_of_fault hfault, rfl⟩
    plain := fun _ hfault => jobStatement_of_error hfault h
    next := rfl }

/-- Without faults the statements are the closure of the queue. -/
theorem failJob_fail (jobId : Int) (err : String) (now : Int) (s : JobConn) : ∃ n,
    failJob jobId err now (fun _ => false) s =
      ((Jobs.fail jobId err now s.queue).1, ⟨(Jobs.fail jobId err now s.queue).2, n⟩) := by
  unfold failJob Jobs.fail
  cases hj : s.queue.job? jobId with
  | none =>
    refine ⟨s.stmts + 1, Program.bind_of_error _ (jobStatement_of_error rfl ?_)⟩
    simp only [hj]
  | some j =>
    rw [Program.bind_of_ok _ (jobStatement_of_ok (a := j) (q := s.queue) rfl (by simp only [hj]))]
    by_cases hretry : j.attempts < j.maxAttempts
    · simp only [if_pos hretry]
      exact ⟨_, jobStatement_of_ok rfl rfl⟩
    · simp only [if_neg hretry]
      rw [Program.bind_of_ok _ (jobStatement_of_ok rfl rfl)]
      exact ⟨_, jobStatement_of_ok rfl rfl⟩

private theorem failJob_missing (hj : s.queue.job? jobId = none) :
    Runs JobConn.stmts JobConn.queue (failJob jobId err now) s [s.queue] [] := by
  unfold failJob
  exact Runs.halt (halts_job (e := .storage "Query returned no rows") (by simp only [hj])) _

private theorem failJob_found {j : Jobs.Job} (hj : s.queue.job? jobId = some j) :
    Runs JobConn.stmts JobConn.queue (fun fault => jobStatement fault fun q =>
      match q.job? jobId with
      | none => .error (.storage "Query returned no rows")
      | some j => .ok (j, q)) s [s.queue] [(j, ⟨s.queue, s.stmts + 1⟩)] :=
  runs_job (by simp only [hj])

private theorem failJob_retried {j : Jobs.Job} (hj : s.queue.job? jobId = some j)
    (hretry : j.attempts < j.maxAttempts) :
    Runs JobConn.stmts JobConn.queue (failJob jobId err now) s [s.queue, s.queue]
      [((), ⟨s.queue.updateJob jobId (Jobs.Job.retried err j.attempts now), s.stmts + 2⟩)] := by
  refine (failJob_found hj).next rfl ?_
  simp only [if_pos hretry]
  exact runs_job rfl

/-- The dead letter of a job. -/
def letter (jobId : Int) (err : String) (now : Int) (j : Jobs.Job) : Jobs.JobDead :=
  ⟨jobId, j.kind, j.payloadJson, err, j.attempts, now, none⟩

private theorem failJob_buried {j : Jobs.Job} (hj : s.queue.job? jobId = some j)
    (hlast : ¬ j.attempts < j.maxAttempts) :
    Runs JobConn.stmts JobConn.queue (failJob jobId err now) s
      [s.queue, s.queue, { s.queue with dead := s.queue.dead ++ [letter jobId err now j] }]
      [((), ⟨{ s.queue.updateJob jobId (Jobs.Job.buried err now) with
        dead := s.queue.dead ++ [letter jobId err now j] }, s.stmts + 3⟩)] := by
  refine (failJob_found hj).next rfl ?_
  simp only [if_neg hlast]
  exact Runs.next (runs_job rfl) rfl (runs_job rfl)

private theorem lettered_ne (q : Jobs.Queue) (d : Jobs.JobDead) :
    ({ q with dead := q.dead ++ [d] } : Jobs.Queue) ≠ q := by
  intro h
  have hlength := congrArg (fun q => q.dead.length) h
  simp at hlength

private theorem lettered_eq_buried (q : Jobs.Queue) (d : Jobs.JobDead) :
    ({ q with dead := q.dead ++ [d] } : Jobs.Queue) =
        { q.updateJob jobId (Jobs.Job.buried err now) with dead := q.dead ++ [d] } ↔
      ∀ i ∈ q.jobs, i.id = jobId → i.buried err now = i := by
  rw [Jobs.Queue.mk.injEq, eq_comm]
  exact (and_iff_left ⟨rfl, rfl⟩).trans map_ite_eq_self

/-- A failed job is recorded as a whole exactly if it is retried, or is marked dead already, or is not
there. A failure leaves the queue as it was or, of a job on its last attempt, the dead letter beside the
rows as they were, and nothing else. -/
theorem failJob_atomic_iff (jobId : Int) (err : String) (now : Int) (s : JobConn) :
    (AllOrNothing JobConn.queue (failJob jobId err now) s ↔
      ∀ j, s.queue.job? jobId = some j → j.attempts < j.maxAttempts ∨
        ∀ i ∈ s.queue.jobs, i.id = jobId → i.buried err now = i) ∧
    ∀ q, (∃ fault e t, failJob jobId err now fault s = (.error e, t) ∧ t.queue = q) ↔
      q = s.queue ∨ ∃ j, s.queue.job? jobId = some j ∧ j.maxAttempts ≤ j.attempts ∧
        q = { s.queue with dead := s.queue.dead ++ [letter jobId err now j] } := by
  cases hj : s.queue.job? jobId with
  | none =>
    have hruns : Runs JobConn.stmts JobConn.queue (failJob jobId err now) s [s.queue] [] :=
      failJob_missing hj
    refine ⟨?_, fun q => ?_⟩
    · rw [hruns.allOrNothing_iff]
      exact iff_of_true (fun d hd => .inl (List.mem_singleton.mp hd)) fun j hj => by cases hj
    · rw [hruns.stopped_iff]
      simp
  | some j =>
    by_cases hretry : j.attempts < j.maxAttempts
    · have hruns : Runs JobConn.stmts JobConn.queue (failJob jobId err now) s _ _ :=
        failJob_retried hj hretry
      refine ⟨?_, fun q => ?_⟩
      · rw [hruns.allOrNothing_iff]
        refine iff_of_true (fun d hd => .inl ?_) fun i hi => .inl (Option.some.inj hi ▸ hretry)
        simpa using hd
      · rw [hruns.stopped_iff]
        simp [hretry]
    · have hruns : Runs JobConn.stmts JobConn.queue (failJob jobId err now) s _ _ :=
        failJob_buried hj hretry
      refine ⟨?_, fun q => ?_⟩
      · rw [hruns.allOrNothing_iff]
        simp only [List.forall_mem_cons, List.mem_singleton, exists_eq_left, true_or, true_and,
          forall_eq, or_iff_right (lettered_ne _ _), lettered_eq_buried]
        constructor
        · intro hkeep i hi
          exact .inr hkeep
        · intro hkeep
          exact (hkeep j rfl).resolve_left hretry
      · rw [hruns.stopped_iff]
        simp [Int.not_lt.mp hretry]

end

end AgosMemory.Halves
