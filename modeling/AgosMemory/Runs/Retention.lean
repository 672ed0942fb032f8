import AgosMemory.Memory.Reaper
import AgosMemory.SystemStatements

/-!
# Retention

A row is deprecated exactly when it has a deletion time. Every writer sets the two together, apart from
an import, which takes over the status of its line and leaves the deletion time empty: a row that was
exported as deprecated is never past its grace period.
-/

namespace AgosMemory

open Library Library.Program Store Reaper

variable {F : Type} [F64 F] {env : Env F}

/-- Deprecated rows are the ones with a deletion time. -/
def Retained (db : Db F) : Prop :=
  ∀ m ∈ db.memories, m.status = .deprecated ↔ m.deletedAt.isSome

/-- A line that brings a row which is not deprecated. -/
def NotDeprecated (row : Export.ExportRow F) : Prop := row.status ≠ "deprecated"

section

variable {db db' : Db F}

omit [F64 F] in
theorem Retained.of_memories (h : Retained db) (hsame : db'.memories = db.memories) :
    Retained db' := fun m hm => h m (hsame ▸ hm)

omit [F64 F] in
theorem Retained.updateMemory (h : Retained db) {id : Int} {f : Memory F → Memory F}
    (hmem : db'.memories = (db.updateMemory id f).memories)
    (hf : ∀ m, (m.status = .deprecated ↔ m.deletedAt.isSome) →
      ((f m).status = .deprecated ↔ (f m).deletedAt.isSome)) : Retained db' := by
  intro m' hm'
  rw [hmem] at hm'
  obtain ⟨m, hm, rfl⟩ := mem_updateMemory.mp hm'
  split
  · exact hf m (h m hm)
  · exact h m hm

/-- A new row has no deletion time. -/
theorem Retained.insertRow (h : Retained db) {r : NewRow F} {m : Memory F}
    (hr : r.status ≠ "deprecated") (hrow : insertMemoryRow r db = .ok (m, db')) :
    Retained db' := by
  obtain ⟨tier, kind, status, source, _, _, hstatus, _, _, hm⟩ := build_ok (build_of_insert hrow)
  obtain ⟨_, _, rfl⟩ := insertMemoryRow_ok hrow
  intro m' hm'
  rcases List.mem_append.mp hm' with hm' | hm'
  · exact h m' hm'
  · rw [List.mem_singleton.mp hm', hm]
    have hsql := Status.sql_of_ofSql? hstatus
    have hne : status ≠ .deprecated := fun heq => hr (by rw [← hsql, heq]; rfl)
    exact ⟨fun heq => absurd heq hne, fun hsome => by cases hsome⟩

end

omit [F64 F] in
private theorem retained_idle {f : Memory F → Memory F} (hf : Idle f) (m : Memory F)
    (h : m.status = .deprecated ↔ m.deletedAt.isSome) :
    (f m).status = .deprecated ↔ (f m).deletedAt.isSome := by
  rw [hf.status, hf.deletedAt]
  exact h

private theorem statements_retained :
    Statements (fun r : NewRow F => r.status ≠ "deprecated") (Preserves Retained) where
  plain r hr := by rcases hr.status with h | h <;> rw [h] <;> decide
  insertRow r m db db' hr hrow h := h.insertRow hr hrow
  insertVersion v db db' hv h := h.of_memories (memories_of_insertVersion hv)
  insertVec m embedding db db' _ hv h := by
    obtain ⟨_, rfl⟩ := insertVec_ok hv
    exact h.of_memories rfl
  merge shape id trust kept source cluster now db db' hmerge h := by
    obtain ⟨sk, merged, bumps, rfl⟩ := mergeSource_update hmerge
    exact h.updateMemory rfl fun m hm => hm
  link id now db db' hlink h := h.of_memories (memories_of_linkRefines hlink)
  retext id text hash trust kept source now db db' hr h := by
    obtain ⟨sk, merged, rewrites, rfl⟩ := retext_update hr
    exact h.updateMemory rfl fun m hm => hm
  vecTrust rowid trust db h := h.of_memories rfl
  touch id f db hf h := h.updateMemory rfl (retained_idle hf)
  deprecated id now db h := by
    refine h.updateMemory (f := fun m => { m with
      deletedAt := some now, updatedAt := now, status := .deprecated }) rfl fun m _ => ?_
    exact ⟨fun _ => rfl, fun _ => rfl⟩
  restored id now db h := by
    refine h.updateMemory (f := fun m => { m with
      deletedAt := none, updatedAt := now, status := .active }) rfl fun m _ => ?_
    exact ⟨fun heq => (by cases heq), fun hsome => (by cases hsome)⟩
  purged id db db' hd h := by
    rw [deletePhase_ok hd]
    exact fun m hm => h m (List.mem_filter.mp hm).1
  other db db' same h := h.of_memories same.memories

/-- A pin leaves status and deletion time alone, and so does a summary. -/
private theorem retained_step {op : Op F} :
    MovesFrom (op.AddsOnly NotDeprecated env) (OnDb (Preserves Retained)) (op.step env) := by
  by_cases hop : op.ordinary = true
  · exact (statements_retained.stamped.onDb_step hop).from
  cases op with
  | setPinned id pinned requester =>
    refine Moves.from (moves_effect (onDb_setMemoryPinned (fun db code now h => ?_)
      (fun db code h => h.of_memories rfl) fun db entry _ h => h.of_memories rfl))
    exact h.updateMemory (f := fun m => { m with pinned := code, updatedAt := now }) rfl
      fun m hm => hm
  | setSummary id summary tokens =>
    refine Moves.from (moves_bind onDb_nowMillis fun now => onDb_run fun db h => ?_)
    exact h.updateMemory (f := fun m => { m with
      summaryText := some summary, summaryTokens := some tokens, updatedAt := now }) rfl
      fun m hm => hm
  | importFile emb schema file dryRun =>
    exact statements_retained.stamped.onDb_importFile fun row hrow r hr => hr.status ▸ hrow
  | _ => exact absurd rfl hop

omit [F64 F] in
theorem deprecatedPastGrace_run {grace : Int} {c : Conn F} (hread : env.fault c.stmts = false) :
    deprecatedPastGrace env grace c =
      (.ok ((c.db.memories.filter (pastGrace grace (env.clock c.ticks))).map fun m =>
        (m.id, m.publicId)), { c with stmts := c.stmts + 1, ticks := c.ticks + 1 }) := by
  unfold deprecatedPastGrace
  rw [bind_of_ok _ (nowMillis_run env c)]
  exact query_of_noFault hread

/-- In every run whose imports add no deprecated row, the deprecated rows are the ones with a deletion
time. So a row is due for its purge from the moment the clock passes its deletion time and the grace
period, and no other row ever is. -/
theorem deprecated_rows_retained (env : Env F) (ops : List (Op F)) (agentId : String)
    (embedDim : Nat) (hadds : ∀ pre op post, ops = pre ++ op :: post →
      op.AddsOnly NotDeprecated env (runOps env pre (emptyStore F agentId embedDim))) :
    let c := runOps env ops (emptyStore F agentId embedDim)
    (∀ m ∈ c.db.memories, m.status = .deprecated ↔ m.deletedAt.isSome) ∧
    ∀ grace : Int, env.fault c.stmts = false →
      ∃ rows c', deprecatedPastGrace env grace c = (.ok rows, c') ∧ ∀ m ∈ c.db.memories,
        (m.status = .deprecated → ∃ t, m.deletedAt = some t ∧
          (t + grace < env.clock c.ticks → (m.id, m.publicId) ∈ rows)) ∧
        (m.status ≠ .deprecated → (m.id, m.publicId) ∉ rows) := by
  intro c
  have hretained : Retained c.db :=
    runOps_preserves (fun op => retained_step) hadds (List.forall_mem_nil _)
  have hwf : Wellformed env c.db := (runOps_ran (fun _ : String => trivial)
    (fun _ _ _ _ => trivial) _).preserves (fun _ _ => Edit.wellformed) (.empty embedDim)
  refine ⟨hretained, fun grace hread => ?_⟩
  refine ⟨_, _, deprecatedPastGrace_run hread, fun m hm => ⟨fun hstatus => ?_, ?_⟩⟩
  · obtain ⟨t, ht⟩ := Option.isSome_iff_exists.mp ((hretained m hm).mp hstatus)
    refine ⟨t, ht, fun hpast => List.mem_map_of_mem (List.mem_filter.mpr ⟨hm, ?_⟩)⟩
    simp only [pastGrace, hstatus, ht, Option.any_some, hpast, decide_true, and_self]
  · intro hstatus hrow
    obtain ⟨m', hm', hrow⟩ := List.mem_map.mp hrow
    obtain ⟨hm', hpast⟩ := List.mem_filter.mp hm'
    obtain rfl := List.inj_on_of_nodup_map hwf.ids hm' hm (Prod.mk.inj hrow).1
    exact hstatus (of_decide_eq_true hpast).1

/-- One line of an export, with a status and a pin. -/
def importedRow (status : String) (pinned : Int) : Export.ExportRow ℚ :=
  { Export.plainRow "a" "tea" with status, pinned }

/-- The import of one line. -/
def importOf (row : Export.ExportRow ℚ) : Op ℚ :=
  .importFile sampleEmbedder 1 (Export.plainFile [row]) false

theorem importOf_addsOnly {env : Env ℚ} {P : Export.ExportRow ℚ → Prop} {row : Export.ExportRow ℚ}
    (h : P row) (c : Conn ℚ) : (importOf row).AddsOnly P env c := by
  refine Op.AddsOnly.of_file (fun row' hrow => ?_) c
  obtain ⟨r, hr, heq⟩ := List.mem_map.mp hrow
  rw [← Except.ok.inj (Option.some.inj heq), List.mem_singleton.mp hr]
  exact h

/-- An active row is imported and deprecated, and its grace period passes. -/
theorem deprecated_rows_sample : ∃ rows c', deprecatedPastGrace sampleEnv (-10)
    (runOps sampleEnv [importOf (importedRow "active" 0), .deprecateMemory 1 none]
      (emptyStore ℚ "a" 1)) = (.ok rows, c') := by
  have hadds : ∀ pre op post,
      [importOf (importedRow "active" 0), .deprecateMemory 1 none] = pre ++ op :: post →
      op.AddsOnly NotDeprecated sampleEnv (runOps sampleEnv pre (emptyStore ℚ "a" 1)) := by
    intro pre op post hsplit
    have hmem : op ∈ [importOf (importedRow "active" 0), .deprecateMemory 1 none] :=
      hsplit ▸ List.mem_append_right _ List.mem_cons_self
    rcases List.mem_cons.mp hmem with rfl | hmem
    · exact importOf_addsOnly (show (importedRow "active" 0).status ≠ "deprecated" by decide) _
    · obtain rfl := List.mem_singleton.mp hmem
      trivial
  obtain ⟨rows, c', hread, _⟩ :=
    (deprecated_rows_retained sampleEnv _ "a" 1 hadds).2 (-10) (by decide +kernel)
  exact ⟨rows, c', hread⟩

/-- A line with the status "deprecated" becomes a deprecated row without a deletion time. -/
theorem import_deprecated_unpurgeable :
    ¬ ∀ ops : List (Op ℚ), Retained (runOps sampleEnv ops (emptyStore ℚ "a" 1)).db := by
  intro h
  have hrows : (runOps sampleEnv [importOf (importedRow "deprecated" 0)]
      (emptyStore ℚ "a" 1)).db.memories.map (fun m => (m.status, m.deletedAt)) =
        [(.deprecated, none)] := by decide +kernel
  have hrow := List.mem_singleton_self ((.deprecated, none) : Status × Option Int)
  rw [← hrows] at hrow
  obtain ⟨m, hm, hpair⟩ := List.mem_map.mp hrow
  obtain ⟨hstatus, hdeleted⟩ := Prod.mk.inj hpair
  have hsome := (h [importOf (importedRow "deprecated" 0)] m hm).mp hstatus
  rw [hdeleted] at hsome
  cases hsome

end AgosMemory
