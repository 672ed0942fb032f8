import AgosMemory.Recall.Decay
import AgosMemory.Runs.Retention

/-!
# The ages of the rows of a run

The age of a row is measured from its last reference, else from its creation. Every writer takes these
times from the clock, apart from an import, which takes over the creation time of its line: only a file
can bring a row whose age is out of range.
-/

namespace AgosMemory

open Library Library.Program Store Recall

variable {F : Type} [F64 F] {env : Env F} {lo hi : Int}

/-- Every row is measured from an instant whose distance from every current time is an `i64`. -/
def AllDated (lo hi : Int) (db : Db F) : Prop :=
  ∀ m ∈ db.memories, Dated lo hi (rowFromSql db m).base

/-- A line that brings such a row. -/
def DatedLine (lo hi : Int) (row : Export.ExportRow F) : Prop := Dated lo hi row.createdAt

/-- The clock reads current times, which span less than the range of an `i64`. -/
structure Current (env : Env F) (lo hi : Int) : Prop where
  span : hi - lo < 9223372036854775808
  reads : ∀ n, lo ≤ env.clock n ∧ env.clock n ≤ hi

namespace AllDated

variable {db db' : Db F}

omit [F64 F] in
theorem of_memories (h : AllDated lo hi db) (hsame : db'.memories = db.memories) :
    AllDated lo hi db' := fun m hm => h m (hsame ▸ hm)

omit [F64 F] in
theorem updateMemory (h : AllDated lo hi db) {id : Int} {f : Memory F → Memory F}
    (hmem : db'.memories = (db.updateMemory id f).memories)
    (hf : ∀ m, Dated lo hi (m.lastReferencedAt.getD m.createdAt) →
      Dated lo hi ((f m).lastReferencedAt.getD (f m).createdAt)) : AllDated lo hi db' := by
  intro m' hm'
  rw [hmem] at hm'
  obtain ⟨m, hm, rfl⟩ := mem_updateMemory.mp hm'
  split
  · exact hf m (h m hm)
  · exact h m hm

/-- A new row was not referenced yet. -/
theorem insertRow (h : AllDated lo hi db) {r : NewRow F} {m : Memory F}
    (hr : Dated lo hi r.createdAt) (hrow : insertMemoryRow r db = .ok (m, db')) :
    AllDated lo hi db' := by
  obtain ⟨hbuilt, _, rfl⟩ := insertMemoryRow_ok hrow
  intro m' hm'
  rcases List.mem_append.mp hm' with hm' | hm'
  · exact h m' hm'
  · rw [List.mem_singleton.mp hm']
    show Dated lo hi (m.lastReferencedAt.getD m.createdAt)
    rw [hbuilt.lastReferencedAt, hbuilt.createdAt]
    exact hr

omit [F64 F] in
theorem referenced (hcurrent : Current env lo hi) {f : Memory F → Memory F} (href : Referenced env f)
    (hcreated : ∀ m, (f m).createdAt = m.createdAt) (m : Memory F)
    (h : Dated lo hi (m.lastReferencedAt.getD m.createdAt)) :
    Dated lo hi ((f m).lastReferencedAt.getD (f m).createdAt) := by
  rcases href with hsame | ⟨now, ⟨n, rfl⟩, hnow⟩
  · rw [hsame, hcreated]
    exact h
  · rw [hnow]
    exact dated_self hcurrent.span (hcurrent.reads n).1 (hcurrent.reads n).2

end AllDated

private theorem stamped_allDated (hcurrent : Current env lo hi) :
    Stamped env (fun r : NewRow F => Dated lo hi r.createdAt) (Preserves (AllDated lo hi)) where
  plain r _ hnow := by
    obtain ⟨n, hn⟩ := hnow
    rw [← hn]
    exact dated_self hcurrent.span (hcurrent.reads n).1 (hcurrent.reads n).2
  insertRow r m db db' hr hrow h := h.insertRow hr hrow
  insertVersion v db db' hv h := h.of_memories (memories_of_insertVersion hv)
  insertVec m embedding db db' _ hv h := by
    obtain ⟨_, rfl⟩ := insertVec_ok hv
    exact h.of_memories rfl
  merge shape id trust kept source cluster now db db' hnow hmerge h := by
    obtain ⟨sk, merged, bumps, rfl⟩ := mergeSource_update hmerge
    exact h.updateMemory rfl
      (AllDated.referenced hcurrent (.inr ⟨now, hnow, fun _ => rfl⟩) fun _ => rfl)
  link id now db db' hlink h := h.of_memories (memories_of_linkRefines hlink)
  retext id text hash trust kept source now db db' hr h := by
    obtain ⟨sk, merged, rewrites, rfl⟩ := retext_update hr
    exact h.updateMemory rfl fun m hm => hm
  vecTrust rowid trust db h := h.of_memories rfl
  touch id f db hf href h :=
    h.updateMemory rfl (AllDated.referenced hcurrent href fun m => (hf.core m).createdAt)
  deprecated id now db h := by
    exact h.updateMemory (f := fun m => { m with
      deletedAt := some now, updatedAt := now, status := .deprecated }) rfl fun m hm => hm
  restored id now db h := by
    exact h.updateMemory (f := fun m => { m with
      deletedAt := none, updatedAt := now, status := .active }) rfl fun m hm => hm
  purged id db db' hd h := by
    rw [deletePhase_ok hd]
    exact fun m hm => h m (List.mem_filter.mp hm).1
  other db db' same h := h.of_memories same.memories

/-- A pin and a summary leave both times alone. -/
private theorem allDated_step (hcurrent : Current env lo hi) {op : Op F} :
    MovesFrom (op.AddsOnly (DatedLine lo hi) env) (OnDb (Preserves (AllDated lo hi)))
      (op.step env) := by
  have hstamped := stamped_allDated hcurrent
  by_cases hop : op.ordinary = true
  · exact (hstamped.onDb_step hop).from
  cases op with
  | setPinned id pinned requester =>
    refine Moves.from (moves_effect (onDb_setMemoryPinned (fun db code now h => ?_)
      (fun db code h => h.of_memories rfl) fun db entry _ h => h.of_memories rfl))
    exact h.updateMemory (f := fun m => { m with pinned := code, updatedAt := now }) rfl
      fun m hm => hm
  | setSummary id summary tokens =>
    refine Moves.from (moves_bind onDb_nowMillis fun now => onDb_run fun db h => ?_)
    exact h.updateMemory (f := fun m => { m with
      summaryText := some summary, summaryTokens := some tokens, updatedAt := now }) rfl
      fun m hm => hm
  | importFile emb schema file dryRun =>
    exact hstamped.onDb_importFile fun row hrow r hr => (congrArg (Dated lo hi) hr.createdAt).mpr hrow
  | _ => exact absurd rfl hop

section

variable {F : Type} [Field F] [LinearOrder F] [IsStrictOrderedRing F] [F64 F] [Exact F] [HalfPower F]

/-- What the decay of a row is at every current time from now on. -/
structure Ages (lo hi : Int) (row : CanonicalRow F) (now : Int) : Prop where
  fits : InI64 (now - row.base)
  exact : ∀ tier hl, decay tier hl row now = decayAt tier hl (now - row.base)
  pos : ∀ tier hl, 0 < decay tier hl row now
  le_one : ∀ tier hl, decay tier hl row now ≤ 1
  anti : ∀ tier hl later, now ≤ later → later ≤ hi →
    decay tier hl row later ≤ decay tier hl row now

private theorem ages_of_dated {row : CanonicalRow F} (h : Dated lo hi row.base) {now : Int}
    (hlo : lo ≤ now)
    (hhi : now ≤ hi) : Ages lo hi row now := by
  have hfits := (dated_iff (hlo.trans hhi)).mp h
  refine ⟨hfits now hlo hhi, fun tier hl => decay_exact (hfits now hlo hhi), fun tier hl => ?_,
    fun tier hl => ?_, fun tier hl later hle hlater => ?_⟩
  · rw [decay_eq]
    exact decayAt_pos _
  · rw [decay_eq]
    exact decayAt_le_one _
  · rw [decay_exact (hfits now hlo hhi), decay_exact (hfits later (hlo.trans hle) hlater)]
    exact decayAt_anti (by omega)

/-- The age of a row that is inserted is in range at every current time exactly if its creation time
is near enough to all of them. In a run whose imports add only such rows, every row of every state
decays by its age, to something in `(0, 1]`, and never grows. -/
theorem ages_exact (env : Env F) (lo hi : Int) (hcurrent : Current env lo hi) :
    (∀ (r : NewRow F) (m : Memory F) (db db' : Db F), insertMemoryRow r db = .ok (m, db') →
      ((∀ now, lo ≤ now → now ≤ hi → InI64 (now - (rowFromSql db' m).base)) ↔
        Dated lo hi r.createdAt)) ∧
    ∀ (ops : List (Op F)) (agentId : String) (embedDim : Nat),
      (∀ pre op post, ops = pre ++ op :: post →
        op.AddsOnly (DatedLine lo hi) env (runOps env pre (emptyStore F agentId embedDim))) →
      ∀ m ∈ (runOps env ops (emptyStore F agentId embedDim)).db.memories, ∀ now,
        lo ≤ now → now ≤ hi →
        Ages lo hi (rowFromSql (runOps env ops (emptyStore F agentId embedDim)).db m) now := by
  have hrange : lo ≤ hi := (hcurrent.reads 0).1.trans (hcurrent.reads 0).2
  refine ⟨fun r m db db' h => ?_, fun ops agentId embedDim hadds m hm now hlo hhi => ?_⟩
  · obtain ⟨hbuilt, _, _⟩ := insertMemoryRow_ok h
    have hbase : (rowFromSql db' m).base = r.createdAt := by
      show m.lastReferencedAt.getD m.createdAt = _
      rw [hbuilt.lastReferencedAt, hbuilt.createdAt]
      rfl
    rw [hbase, dated_iff hrange]
  · have hdated : AllDated lo hi (runOps env ops (emptyStore F agentId embedDim)).db :=
      runOps_preserves (fun op => allDated_step hcurrent) hadds (List.forall_mem_nil _)
    exact ages_of_dated (hdated m hm) hlo hhi

end

/-- The half-lives of the default configuration, in hours, with one day for working memories. -/
def sampleHalfLives : RecallHalfLives ℚ := ⟨24, 0, 0, 0⟩

/-- A clock that stands still, and a row from a file that was created before it. -/
theorem ages_exact_sample :
    let env : Env ℚ := { sampleEnv with clock := fun _ => 5 }
    let db := (runOps env [importOf (importedRow "active" 0)] (emptyStore ℚ "a" 1)).db
    ∀ m ∈ db.memories, ∀ now, 0 ≤ now → now ≤ 9 → Ages 0 9 (rowFromSql db m) now := by
  intro env
  refine (ages_exact env 0 9 ⟨by decide, fun _ => show (0 : Int) ≤ 5 ∧ (5 : Int) ≤ 9 by decide⟩).2
    [importOf (importedRow "active" 0)] "a" 1 fun pre op post hsplit => ?_
  have hmem : op ∈ [importOf (importedRow "active" 0)] :=
    hsplit ▸ List.mem_append_right _ List.mem_cons_self
  rw [List.mem_singleton.mp hmem]
  exact importOf_addsOnly (P := DatedLine 0 9) ⟨by decide, by decide⟩ _

/-- The import of one row of a given creation time. -/
def importAt (createdAt : Int) : Op ℚ := importOf { Export.plainRow "a" "tea" with createdAt }

/-- The store after it. -/
def importedAt (createdAt : Int) : Conn ℚ :=
  runOps sampleEnv [importAt createdAt] (emptyStore ℚ "a" 1)

/-- A row that its file dates to the first instant of an `i64` overflows at the present, and counts as
new. -/
theorem ancient_counts_as_new : ∃ (ops : List (Op ℚ)) (m : Memory ℚ) (now : Int),
    0 ≤ now ∧ now < 9223372036854775808 ∧
    m ∈ (runOps sampleEnv ops (emptyStore ℚ "a" 1)).db.memories ∧
    ¬ InI64 (now - (rowFromSql (runOps sampleEnv ops (emptyStore ℚ "a" 1)).db m).base) ∧
    decay .working sampleHalfLives
      (rowFromSql (runOps sampleEnv ops (emptyStore ℚ "a" 1)).db m) now = 1 := by
  refine ⟨[importAt (-9223372036854775808)], ?_⟩
  have hstore : runOps sampleEnv [importAt (-9223372036854775808)] (emptyStore ℚ "a" 1) =
      importedAt (-9223372036854775808) := rfl
  rw [hstore]
  have hrows : (importedAt (-9223372036854775808)).db.memories.map (fun m =>
      (decide (InI64 (1767225600000 -
        (rowFromSql (importedAt (-9223372036854775808)).db m).base)),
      decay .working sampleHalfLives (rowFromSql (importedAt (-9223372036854775808)).db m)
        1767225600000)) = [(false, 1)] := by
    decide +kernel
  have hrow := List.mem_singleton_self ((false, 1) : Bool × ℚ)
  rw [← hrows] at hrow
  obtain ⟨m, hm, hpair⟩ := List.mem_map.mp hrow
  obtain ⟨hout, hone⟩ := Prod.mk.inj hpair
  exact ⟨m, 1767225600000, by decide, by decide, hm, of_decide_eq_false hout, hone⟩

end AgosMemory
