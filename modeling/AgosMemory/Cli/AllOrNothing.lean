import AgosMemory.Cli.DryRun
import Mathlib.Algebra.Order.BigOperators.Group.List

/-!
# What a failed import leaves behind

Nothing undoes the statements of an import. Each one that writes adds a row or counts a reference,
so a measure of the store grows with the first and never falls again: the store is as it was exactly
when the import ends before the first write of its first batch.
-/

namespace AgosMemory.Export

open Library Library.Program Store

variable {F : Type} [F64 F] {env : Env F}

/-! ## A measure of what was written -/

/-- The rows of the two tables that only grow, and the references. -/
def weight (db : Db F) : Int :=
  db.memories.length + db.versions.length + (db.memories.map Memory.refCount).sum

def Grows (db db' : Db F) : Prop := weight db ≤ weight db'

instance : Std.Refl (Grows (F := F)) where
  refl _ := Int.le_refl _

instance : IsTrans (Db F) Grows where
  trans _ _ _ hab hbc := Int.le_trans hab hbc

omit [F64 F] in
private theorem refCounts_updateMemory (db : Db F) (id : Int) (f : Memory F → Memory F) :
    (db.updateMemory id f).memories.map Memory.refCount =
      db.memories.map fun m => if m.id = id then (f m).refCount else m.refCount := by
  rw [Db.updateMemory, List.map_map]
  refine List.map_congr_left fun m _ => ?_
  show Memory.refCount (if m.id = id then f m else m) = _
  split <;> rfl

omit [F64 F] in
private theorem weight_updateMemory {db : Db F} {id : Int} {f : Memory F → Memory F}
    (hf : ∀ m, m.refCount ≤ (f m).refCount) : weight db ≤ weight (db.updateMemory id f) := by
  have hsum : (db.memories.map Memory.refCount).sum ≤
      ((db.updateMemory id f).memories.map Memory.refCount).sum := by
    rw [refCounts_updateMemory]
    refine List.sum_le_sum fun m _ => ?_
    split
    · exact hf m
    · exact Int.le_refl _
  have hlen : (db.updateMemory id f).memories.length = db.memories.length := List.length_map _
  have hversions : (db.updateMemory id f).versions = db.versions := rfl
  unfold weight
  rw [hlen, hversions]
  omega

omit [F64 F] in
/-- A reference to a row that is there is counted. -/
private theorem weight_referenced {db : Db F} {id : Int} {f : Memory F → Memory F}
    (hf : ∀ m, m.refCount < (f m).refCount) {m : Memory F} (hm : db.memory? id = some m) :
    weight db < weight (db.updateMemory id f) := by
  obtain ⟨hmem, hid⟩ := memory?_some hm
  have hsum : (db.memories.map Memory.refCount).sum <
      ((db.updateMemory id f).memories.map Memory.refCount).sum := by
    rw [refCounts_updateMemory]
    refine List.sum_lt_sum _ _ (fun m _ => ?_) ⟨m, hmem, ?_⟩
    · split
      · exact Int.le_of_lt (hf m)
      · exact Int.le_refl _
    · rw [if_pos hid]
      exact hf m
  have hlen : (db.updateMemory id f).memories.length = db.memories.length := List.length_map _
  have hversions : (db.updateMemory id f).versions = db.versions := rfl
  unfold weight
  rw [hlen, hversions]
  omega

private theorem weight_inserted {r : NewRow F} {m : Memory F} {db db' : Db F}
    (h : insertMemoryRow r db = .ok (m, db')) : weight db < weight db' := by
  obtain ⟨_, _, hdb'⟩ := insertMemoryRow_ok h
  obtain ⟨_, _, _, _, _, _, _, _, _, hm⟩ := build_ok (build_of_insert h)
  have hcount : m.refCount = 0 := by rw [hm]; rfl
  rw [hdb']
  unfold weight
  simp only [List.length_append, List.length_singleton, List.map_append, List.map_singleton,
    List.sum_append, List.sum_singleton, hcount]
  omega

omit [F64 F] in
private theorem weight_versioned {v : MemoryVersion} {db db' : Db F}
    (h : insertVersion v db = .ok ((), db')) : weight db < weight db' := by
  obtain ⟨_, _, rfl⟩ := insertVersion_ok h
  unfold weight
  simp only [List.length_append, List.length_singleton]
  omega

/-! ## It never falls -/

omit [F64 F] in
private theorem grows_bump {shape : BumpShape} {id now : Int} {source : String} :
    Moves (OnDb Grows) (bump env shape id source now) := by
  refine onDb_bump (fun db _ _ _ _ h => ?_) (fun _ _ => Int.le_refl _) fun _ _ h => ?_
  · obtain ⟨sk, merged, bumps, rfl⟩ := mergeSource_update h
    exact weight_updateMemory fun m => by show m.refCount ≤ m.refCount + 1; omega
  · obtain ⟨links, rfl⟩ := linkRefines_ok h
    exact Int.le_refl _

omit [F64 F] in
private theorem grows_update {id : Int} {text : String} {source reason createdBy : Option String} :
    Moves (OnDb Grows) (updateMemoryWithProvenance env id text source reason createdBy) := by
  refine onDb_update (fun _ _ _ h => Int.le_of_lt (weight_versioned h))
    (fun db _ _ _ _ h => ?_) fun _ _ => Int.le_refl _
  obtain ⟨sk, merged, rewrites, rfl⟩ := retext_update h
  exact weight_updateMemory fun m => Int.le_refl m.refCount

private theorem grows_insertRow {emb : Embedder F} {agent : String} {dim : Nat} {now : Int}
    {p : PlannedRow F} : Moves (OnDb Grows) (insertRow env emb agent dim now p) := by
  rw [insertRow_eq]
  refine moves_bind (onDb_exec fun _ _ _ h => Int.le_of_lt (weight_inserted h)) fun m => ?_
  refine moves_bind (onDb_exec fun _ _ _ h => Int.le_of_lt (weight_versioned h)) fun _ => ?_
  cases (embedding emb dim p.vector).2 with
  | none => exact moves_pure ()
  | some vec =>
    refine onDb_exec fun _ _ _ h => ?_
    obtain ⟨_, rfl⟩ := insertVec_ok h
    exact Int.le_refl _

private theorem grows_writeRow {emb : Embedder F} {agent : String} {dim : Nat} {now : Int}
    {p : PlannedRow F} : Moves (OnDb Grows) (writeRow env emb agent dim now p) := by
  unfold writeRow
  split
  · exact grows_bump
  · exact moves_pure ()
  · exact grows_insertRow

omit [F64 F] in
private theorem grows_versionConflict {p : PlannedRow F} :
    Moves (OnDb Grows) (versionConflict env p) := by
  unfold versionConflict
  split
  · exact moves_bind grows_update fun _ => moves_pure ()
  · exact moves_pure ()
  · exact moves_pure ()

private theorem grows_processBatch {emb : Embedder F} {agent : String} {dim : Nat}
    {batch : List (Nat × ExportRow F)} {dryRun : Bool} :
    Moves (OnDb Grows) (processBatch env emb agent dim batch dryRun) := by
  unfold processBatch
  refine moves_bind onDb_query fun fates => ?_
  split
  · exact moves_pure _
  refine moves_bind onDb_embedFresh fun vectors => ?_
  refine moves_bind onDb_nowMillis fun now => ?_
  refine moves_bind (moves_forEach fun p _ => grows_writeRow) fun _ => ?_
  refine moves_bind (moves_forEach fun p _ => grows_versionConflict) fun _ => ?_
  exact moves_pure _

/-! ## Programs that stop at once, and programs that have written -/

/-- The program fails and leaves the database as it was. -/
def Stops {α : Type} (m : Write F α) (s : Conn F) : Prop :=
  ∃ e t, m s = (.error e, t) ∧ t.db = s.db

/-- The program has written when it ends. -/
def Writes {α : Type} (m : Write F α) (s : Conn F) : Prop := weight s.db < weight (m s).2.db

section

variable {α β : Type} {m : Write F α} {k : α → Write F β} {s t : Conn F}

omit [F64 F]

theorem Stops.bind (h : Stops m s) : Stops (m >>= k) s := by
  obtain ⟨e, t, hrun, hdb⟩ := h
  exact ⟨e, t, bind_of_error k hrun, hdb⟩

theorem Stops.of_run {m' : Write F α} (hrun : m s = m' t) (hdb : t.db = s.db) (h : Stops m' t) :
    Stops m s := by
  obtain ⟨e, u, hrun', hdb'⟩ := h
  exact ⟨e, u, hrun.trans hrun', hdb'.trans hdb⟩

theorem Writes.bind (h : Writes m s) (hk : ∀ a, Moves (OnDb Grows) (k a)) :
    Writes (m >>= k) s := by
  unfold Writes at h ⊢
  rw [bind_run]
  cases hrun : m s with
  | mk r u =>
    rw [hrun] at h
    cases r with
    | ok a => exact Int.lt_of_lt_of_le h (hk a u)
    | error e => exact h

theorem Writes.of_run {m' : Write F α} (hrun : m s = m' t) (hdb : t.db = s.db)
    (h : Writes m' t) : Writes m s := by
  unfold Writes at h ⊢
  rw [hrun, ← hdb]
  exact h

private theorem stops_exec {f : Db F → Except Error (α × Db F)} (h : env.fault s.stmts = true) :
    Stops (exec env f) s := ⟨_, _, exec_of_fault h, rfl⟩

private theorem writes_exec {f : Db F → Except Error (α × Db F)} {a : α} {db : Db F}
    (h : env.fault s.stmts = false) (hf : f s.db = .ok (a, db)) (hlt : weight s.db < weight db) :
    Writes (exec env f) s := by
  unfold Writes
  rw [exec_of_ok h hf]
  exact hlt

end

/-! ## The first write of a batch -/

/-- The statements, counted from the first of the write phase, whose failure keeps the batch from
writing anything: those up to its first write. -/
def opening : List Fate → List Nat
  | [] => [0, 2]
  | .insert :: _ => [0]
  | .bump _ :: _ => [0, 1]
  | .conflict _ :: fates => opening fates

/-- A fault in one of the statements. -/
def FaultAt (env : Env F) (stmts : Nat) (offsets : List Nat) : Prop :=
  ∃ n ∈ offsets, env.fault (stmts + n) = true

/-- The write phases of a batch. -/
def applyPlanned (env : Env F) (emb : Embedder F) (agent : String) (dim : Nat) (now : Int)
    (ps : List (PlannedRow F)) : Write F Unit := do
  forEach ps (writeRow env emb agent dim now)
  forEach ps (versionConflict env)

/-- A planned row fits the store: fresh rows are new to it, and the others name one of its rows. -/
structure Planned (env : Env F) (db : Db F) (p : PlannedRow F) : Prop where
  vetted : Vetted env p.row
  fresh : p.fate = .insert → ∀ m ∈ db.memories, m.publicId ≠ p.row.publicId
  there : ∀ id ∈ Catalogue.target p.fate, ∃ m, db.memory? id = some m

private theorem insertRow_first (emb : Embedder F) (agent : String) (dim : Nat) (now : Int)
    {p : PlannedRow F} {s : Conn F} (hp : Planned env s.db p) (hfate : p.fate = .insert) :
    (FaultAt env s.stmts [0] → Stops (insertRow env emb agent dim now p) s) ∧
      (¬ FaultAt env s.stmts [0] → Writes (insertRow env emb agent dim now p) s) := by
  rw [insertRow_eq]
  constructor
  · rintro ⟨n, hn, hfault⟩
    obtain rfl := List.mem_singleton.mp hn
    exact (stops_exec hfault).bind
  · intro hnone
    have hok : env.fault s.stmts = false :=
      Bool.eq_false_iff.mpr fun h => hnone ⟨0, List.mem_singleton_self 0, h⟩
    have haccepted : (importedRow agent (embedding emb dim p.vector).1 p.row).Accepted s.db :=
      ⟨hp.vetted.tier, hp.vetted.kind, hp.vetted.status, hp.vetted.source, hp.vetted.confidence,
        hp.fresh hfate⟩
    obtain ⟨m, db, hm⟩ := haccepted.insert
    refine (writes_exec hok hm (weight_inserted hm)).bind fun m => ?_
    refine moves_bind (onDb_exec fun _ _ _ h => Int.le_of_lt (weight_versioned h)) fun _ => ?_
    cases (embedding emb dim p.vector).2 with
    | none => exact moves_pure ()
    | some vec =>
      refine onDb_exec fun _ _ _ h => ?_
      obtain ⟨_, rfl⟩ := insertVec_ok h
      exact Int.le_refl _

omit [F64 F] in
/-- A bump of a row that is there, once the row is read. -/
private theorem bump_found {id : Int} (now : Int) (source : String) {s : Conn F} {m : Memory F}
    (hread : env.fault s.stmts = false) (hm : s.db.memory? id = some m) :
    bumpImported env id source now s =
      (exec env (mergeSource ⟨false, true, false⟩ id (trustAfterSource m.trust source)
          (sourceKindAfter m source) source none now) >>= fun _ =>
        run env (fun db => db.updateVec id fun v =>
          { v with trust := (trustAfterSource m.trust source).code }) >>= fun _ => pure ())
        { s with stmts := s.stmts + 1 } := by
  have hquery : query env (fun db => one (db.memory? id)) s =
      (.ok m, { s with stmts := s.stmts + 1 }) := by
    rw [query_of_noFault hread, one_some hm]
  unfold bumpImported bump
  rw [bind_of_ok _ hquery]
  rfl

omit [F64 F] in
private theorem bump_first {id : Int} (now : Int) {source : String} {s : Conn F} {m : Memory F}
    (hm : s.db.memory? id = some m) (hsource : (SourceKind.ofSql? source).isSome) :
    (FaultAt env s.stmts [0, 1] → Stops (bumpImported env id source now) s) ∧
      (¬ FaultAt env s.stmts [0, 1] → Writes (bumpImported env id source now) s) := by
  by_cases hread : env.fault s.stmts = true
  · refine ⟨fun _ => ?_, fun hnone => absurd ⟨0, by simp, hread⟩ hnone⟩
    unfold bumpImported bump
    exact Stops.bind ⟨_, _, query_of_fault hread, rfl⟩
  have hrun := bump_found now source (Bool.eq_false_iff.mpr hread) hm
  constructor
  · rintro ⟨n, hn, hfault⟩
    have hone : env.fault (s.stmts + 1) = true := by
      rcases List.mem_cons.mp hn with rfl | hn
      · exact absurd hfault hread
      · obtain rfl := List.mem_singleton.mp hn
        exact hfault
    exact .of_run hrun rfl (stops_exec hone).bind
  · intro hnone
    have hok : env.fault (s.stmts + 1) = false :=
      Bool.eq_false_iff.mpr fun h => hnone ⟨1, by simp, h⟩
    have hmerges : ∃ r, mergeSource ⟨false, true, false⟩ id (trustAfterSource m.trust source)
        (sourceKindAfter m source) source none now s.db = .ok r :=
      mergeSource_succeeds (sourceKindAfter_listed hsource)
    obtain ⟨⟨⟨⟩, db⟩, hmerge⟩ := hmerges
    obtain ⟨sk, merged, bumps, hdb⟩ := mergeSource_update hmerge
    have hlt : weight s.db < weight db := by
      rw [hdb]
      exact weight_referenced (fun m => by show m.refCount < m.refCount + 1; omega) hm
    have hwrites := writes_exec (s := { s with stmts := s.stmts + 1 }) hok hmerge hlt
    exact .of_run hrun rfl (hwrites.bind fun _ =>
      moves_bind (onDb_run fun _ => Int.le_refl _) fun _ => moves_pure ())

omit [F64 F] in
/-- An update, once the versions are read: whether the old one could be read or not, the new one is
the first thing written. -/
private theorem update_found (id : Int) (text : String) (source reason createdBy : Option String)
    {s : Conn F} (hread : env.fault s.stmts = false) :
    ∃ v t, ∃ k : Unit → Write F MemoryRow,
      updateMemoryWithProvenance env id text source reason createdBy s =
        (exec env (insertVersion v) >>= k) t ∧
      v.memoryId = id ∧ v.version = maxVersion s.db id + 1 ∧ t.db = s.db ∧
      t.stmts = s.stmts + 2 ∧ ∀ u, Moves (OnDb Grows) (k u) := by
  have hquery : query env (fun db => .ok (maxVersion db id)) s =
      (.ok (maxVersion s.db id), { s with stmts := s.stmts + 1 }) := query_of_noFault hread
  have hprev : ∃ prev, attempt (getMemoryVersion env id (maxVersion s.db id))
      { s with stmts := s.stmts + 1 } = (.ok prev, { s with stmts := s.stmts + 1 + 1 }) := by
    refine ⟨_, Prod.ext rfl ?_⟩
    unfold attempt getMemoryVersion
    by_cases hfault : env.fault (s.stmts + 1) = true
    · rw [query_of_fault hfault]
    · rw [query_of_noFault (Bool.eq_false_iff.mpr hfault)]
  obtain ⟨prev, hprev⟩ := hprev
  unfold updateMemoryWithProvenance
  rw [bind_of_ok _ hquery]
  dsimp only
  rw [bind_of_ok _ hprev, bind_of_ok _ (nowMillis_run _ _)]
  refine ⟨_, _, _, rfl, rfl, rfl, rfl, rfl, fun _ => ?_⟩
  refine moves_bind onDb_query fun current => ?_
  refine moves_bind (onDb_exec fun db _ _ h => ?_) fun _ => ?_
  · obtain ⟨sk, merged, rewrites, rfl⟩ := retext_update h
    exact weight_updateMemory fun m => Int.le_refl m.refCount
  · exact moves_bind (onDb_run fun _ => Int.le_refl _) fun _ => onDb_query

omit [F64 F] in
private theorem update_first {id : Int} (text : String) (source reason createdBy : Option String)
    {s : Conn F} {m : Memory F} (hm : s.db.memory? id = some m) :
    (FaultAt env s.stmts [0, 2] →
        Stops (updateMemoryWithProvenance env id text source reason createdBy) s) ∧
      (¬ FaultAt env s.stmts [0, 2] →
        Writes (updateMemoryWithProvenance env id text source reason createdBy) s) := by
  by_cases hread : env.fault s.stmts = true
  · refine ⟨fun _ => ?_, fun hnone => absurd ⟨0, by simp, hread⟩ hnone⟩
    unfold updateMemoryWithProvenance
    exact Stops.bind ⟨_, _, query_of_fault hread, rfl⟩
  obtain ⟨v, t, k, hrun, hid, hversion, hdb, hstmts, hk⟩ := update_found id text source
    reason createdBy (Bool.eq_false_iff.mpr hread)
  constructor
  · rintro ⟨n, hn, hfault⟩
    have htwo : env.fault t.stmts = true := by
      rcases List.mem_cons.mp hn with rfl | hn
      · exact absurd hfault hread
      · obtain rfl := List.mem_singleton.mp hn
        exact hstmts ▸ hfault
    exact .of_run hrun hdb (stops_exec htwo).bind
  · intro hnone
    have hok : env.fault t.stmts = false := by
      rw [hstmts]
      exact Bool.eq_false_iff.mpr fun h => hnone ⟨2, by simp, h⟩
    have hinsert : ∃ r, insertVersion v t.db = .ok r := by
      apply insertVersion_next (m := m)
      · rw [hid, hdb, hm]
      · rw [hversion, hid, hdb]
    obtain ⟨⟨⟨⟩, db⟩, hinsert⟩ := hinsert
    exact .of_run hrun hdb ((writes_exec hok hinsert (weight_versioned hinsert)).bind hk)

/-! ## A batch -/

private theorem writeAll_first (emb : Embedder F) (agent : String) (dim : Nat) (now : Int)
    {ps : List (PlannedRow F)} {s : Conn F} (hps : ∀ p ∈ ps, Planned env s.db p)
    (hsome : ∃ p ∈ ps, ∀ id, p.fate ≠ .conflict id) :
    (FaultAt env s.stmts (opening (ps.map PlannedRow.fate)) →
        Stops (forEach ps (writeRow env emb agent dim now)) s) ∧
      (¬ FaultAt env s.stmts (opening (ps.map PlannedRow.fate)) →
        Writes (forEach ps (writeRow env emb agent dim now)) s) := by
  induction ps with
  | nil =>
    obtain ⟨p, hp, _⟩ := hsome
    cases hp
  | cons p ps ih =>
    have hp := hps p List.mem_cons_self
    have hrest : ∀ u, Moves (OnDb Grows)
        ((fun _ : Unit => forEach ps (writeRow env emb agent dim now)) u) := fun _ =>
      moves_forEach fun _ _ => grows_writeRow
    rw [List.map_cons, forEach]
    cases hfate : p.fate with
    | insert =>
      have hrow : writeRow env emb agent dim now p = insertRow env emb agent dim now p := by
        rw [writeRow, hfate]
      obtain ⟨hstops, hwrites⟩ := insertRow_first emb agent dim now hp hfate
      rw [hrow]
      exact ⟨fun h => (hstops h).bind, fun h => (hwrites h).bind hrest⟩
    | bump id =>
      have hrow : writeRow env emb agent dim now p =
          bumpImported env id p.row.provenance.sourceKind now := by
        rw [writeRow, hfate]
      obtain ⟨m, hm⟩ := hp.there id (by rw [hfate]; rfl)
      obtain ⟨hstops, hwrites⟩ := bump_first now hm hp.vetted.source
      rw [hrow]
      exact ⟨fun h => (hstops h).bind, fun h => (hwrites h).bind hrest⟩
    | conflict id =>
      have hrow : writeRow env emb agent dim now p s = (.ok (), s) := by
        rw [writeRow, hfate]
        rfl
      have hothers : ∃ q ∈ ps, ∀ id, q.fate ≠ .conflict id := by
        obtain ⟨q, hq, hnot⟩ := hsome
        rcases List.mem_cons.mp hq with rfl | hq
        · exact absurd hfate (hnot id)
        · exact ⟨q, hq, hnot⟩
      obtain ⟨hstops, hwrites⟩ := ih (fun q hq => hps q (List.mem_cons_of_mem _ hq)) hothers
      have hrun := bind_of_ok (fun _ => forEach ps (writeRow env emb agent dim now)) hrow
      exact ⟨fun h => (hstops h).of_run hrun rfl, fun h => (hwrites h).of_run hrun rfl⟩

private theorem writeAll_conflicts (emb : Embedder F) (agent : String) (dim : Nat) (now : Int)
    {ps : List (PlannedRow F)} (h : ∀ p ∈ ps, ∃ id, p.fate = .conflict id) (s : Conn F) :
    forEach ps (writeRow env emb agent dim now) s = (.ok (), s) ∧
      opening (ps.map PlannedRow.fate) = [0, 2] := by
  induction ps with
  | nil => exact ⟨rfl, rfl⟩
  | cons p ps ih =>
    obtain ⟨id, hfate⟩ := h p List.mem_cons_self
    obtain ⟨hrest, hopening⟩ := ih fun q hq => h q (List.mem_cons_of_mem _ hq)
    have hrow : writeRow env emb agent dim now p s = (.ok (), s) := by
      rw [writeRow, hfate]
      rfl
    refine ⟨(bind_of_ok _ hrow).trans hrest, ?_⟩
    rw [List.map_cons, hfate, opening, hopening]

/-- The write phases of a batch stop at once, or write. -/
private theorem applyPlanned_first (emb : Embedder F) (agent : String) (dim : Nat) (now : Int)
    {ps : List (PlannedRow F)} (hne : ps ≠ []) {s : Conn F}
    (hps : ∀ p ∈ ps, Planned env s.db p) :
    (FaultAt env s.stmts (opening (ps.map PlannedRow.fate)) →
        Stops (applyPlanned env emb agent dim now ps) s) ∧
      (¬ FaultAt env s.stmts (opening (ps.map PlannedRow.fate)) →
        Writes (applyPlanned env emb agent dim now ps) s) := by
  unfold applyPlanned
  by_cases hsome : ∃ p ∈ ps, ∀ id, p.fate ≠ .conflict id
  · obtain ⟨hstops, hwrites⟩ := writeAll_first emb agent dim now hps hsome
    exact ⟨fun h => (hstops h).bind, fun h => (hwrites h).bind fun _ =>
      moves_forEach fun _ _ => grows_versionConflict⟩
  · have hall : ∀ p ∈ ps, ∃ id, p.fate = .conflict id := by
      intro p hp
      by_contra hnot
      exact hsome ⟨p, hp, fun id hid => hnot ⟨id, hid⟩⟩
    obtain ⟨hwritten, hopening⟩ := writeAll_conflicts (F := F) emb agent dim now hall s
    rw [hopening]
    cases ps with
    | nil => exact absurd rfl hne
    | cons p ps =>
      obtain ⟨id, hfate⟩ := hall p List.mem_cons_self
      obtain ⟨m, hm⟩ := (hps p List.mem_cons_self).there id (by rw [hfate]; rfl)
      obtain ⟨hstops, hwrites⟩ := update_first (F := F) p.row.text
        (some p.row.provenance.sourceKind) (some "import: conflicting text") (some "import") hm
      have hrow : versionConflict env p = (updateMemoryWithProvenance env id p.row.text
          (some p.row.provenance.sourceKind) (some "import: conflicting text") (some "import") >>=
            fun _ => pure ()) := by
        rw [versionConflict, hfate]
      have hrun := bind_of_ok (fun _ => forEach (p :: ps) (versionConflict env)) hwritten
      refine ⟨fun h => .of_run hrun rfl ?_, fun h => .of_run hrun rfl ?_⟩
      · rw [forEach, hrow]
        exact (hstops h).bind.bind
      · rw [forEach, hrow]
        refine ((hwrites h).bind fun _ => moves_pure ()).bind fun _ => ?_
        exact moves_forEach fun _ _ => grows_versionConflict

/-- The embedder is asked for the fresh texts of a batch and refuses. -/
def Refuses (emb : Embedder F) (dim sent : Nat) (inputs : List String) : Prop :=
  0 < emb.dim ∧ 0 < dim ∧ inputs ≠ [] ∧ (emb.embed sent inputs).isOk = false

omit [F64 F] in
private theorem embedFresh_first (emb : Embedder F) (dim : Nat) (inputs : List String) (s : Conn F) :
    (Refuses emb dim s.sent.length inputs →
        Stops (embedFresh emb (if 0 < emb.dim then dim else 0) inputs) s) ∧
      (¬ Refuses emb dim s.sent.length inputs → ∃ vectors t,
        embedFresh emb (if 0 < emb.dim then dim else 0) inputs s = (.ok vectors, t) ∧
          t.db = s.db ∧ t.stmts = s.stmts) := by
  unfold Refuses embedFresh
  by_cases hasked : 0 < (if 0 < emb.dim then dim else 0) ∧ inputs ≠ []
  · rw [if_pos hasked]
    have hdim : 0 < emb.dim ∧ 0 < dim := by
      obtain ⟨hpos, _⟩ := hasked
      split at hpos
      · exact ⟨by assumption, hpos⟩
      · cases hpos
    cases hembed : emb.embed s.sent.length inputs with
    | error e =>
      have hcall := call_run emb inputs s
      rw [hembed] at hcall
      exact ⟨fun _ => ⟨e, _, hcall, rfl⟩, fun hnot =>
        absurd ⟨hdim.1, hdim.2, hasked.2, rfl⟩ hnot⟩
    | ok vectors =>
      have hcall := call_run emb inputs s
      rw [hembed] at hcall
      exact ⟨fun ⟨_, _, _, hrefused⟩ => (by cases hrefused), fun _ => ⟨vectors, _, hcall, rfl, rfl⟩⟩
  · rw [if_neg hasked]
    refine ⟨fun ⟨hemb, hdim, hinputs, _⟩ => absurd ?_ hasked, fun _ => ⟨[], s, rfl, rfl, rfl⟩⟩
    exact ⟨by rw [if_pos hemb]; exact hdim, hinputs⟩

/-- A batch ends before its first write: its classification is not read or refuses a row, the
embedder refuses, or one of the statements up to the first write fails. -/
def EarlyBatch (env : Env F) (emb : Embedder F) (agent : String) (dim : Nat)
    (batch : List (Nat × ExportRow F)) (s : Conn F) : Prop :=
  env.fault s.stmts = true ∨ ∀ fates, classifyAll s.db agent batch = .ok fates →
    Refuses emb dim s.sent.length (freshTexts batch fates) ∨
      FaultAt env (s.stmts + 1) (opening fates)

/-- Every row of a classified batch fits the store. -/
private theorem planned_of_fates {agent : String} {batch : List (Nat × ExportRow F)} {db : Db F}
    (hvetted : ∀ r ∈ batch, Vetted env r.2) {fates : List Fate}
    (hfates : (catalogueOf agent db).fates (keysOf batch) = some fates) (dim : Nat)
    (vectors : List (List F)) :
    ∀ p ∈ planRows batch fates (embedPlan dim fates vectors), Planned env db p := by
  intro p hp
  obtain ⟨⟨r, hr, hpr⟩, _⟩ := mem_planRows hp
  have hkeyed := List.mem_map_of_mem (f := PlannedRow.keyed) hp
  rw [planRows_keyed] at hkeyed
  have hfate := Catalogue.fate_of_zip hfates _ hkeyed
  refine ⟨hpr ▸ hvetted r hr, fun hinsert m hm heq => ?_, fun id hid => ?_⟩
  · have hnew : (catalogueOf agent db).fate p.row.key = some .insert := hinsert ▸ hfate
    exact Catalogue.fate_insert hnew _ (List.mem_map_of_mem hm) heq
  · exact memory?_of_has (Catalogue.has_of_fates hfates _ hkeyed id hid)

omit [F64 F] in
private theorem planRows_fates (dim : Nat) {batch : List (Nat × ExportRow F)} {fates : List Fate}
    (vectors : List (List F)) (hlen : fates.length = batch.length) :
    (planRows batch fates (embedPlan dim fates vectors)).map PlannedRow.fate = fates := by
  have hsnd : (planRows batch fates (embedPlan dim fates vectors)).map PlannedRow.fate =
      ((planRows batch fates (embedPlan dim fates vectors)).map PlannedRow.keyed).map Prod.snd := by
    rw [List.map_map]
    rfl
  rw [hsnd, planRows_keyed, List.map_snd_zip]
  rw [hlen, keysOf, List.length_map]

/-- A classified batch: the embedder, and the statements up to the first write. -/
private theorem classified_first (emb : Embedder F) {agent : String} (dim : Nat)
    {batch : List (Nat × ExportRow F)}
    (hne : batch ≠ []) (hvetted : ∀ r ∈ batch, Vetted env r.2) {s : Conn F}
    (hread : env.fault s.stmts = false) {fates : List Fate}
    (hclass : classifyAll s.db agent batch = .ok fates) :
    (Refuses emb dim s.sent.length (freshTexts batch fates) ∨
          FaultAt env (s.stmts + 1) (opening fates) →
        Stops (processBatch env emb agent dim batch false) s) ∧
      (¬ (Refuses emb dim s.sent.length (freshTexts batch fates) ∨
          FaultAt env (s.stmts + 1) (opening fates)) →
        Writes (processBatch env emb agent dim batch false) s) := by
  have hquery : query env (fun db => classifyAll db agent batch) s =
      (.ok fates, { s with stmts := s.stmts + 1 }) := by
    rw [query_of_noFault hread, hclass]
  have hfates := classifyAll_ok_iff.mp hclass
  have hlen : fates.length = batch.length := by
    rw [Catalogue.fates_length hfates, keysOf, List.length_map]
  have hrun : processBatch env emb agent dim batch false s =
      (embedFresh emb (if 0 < emb.dim then dim else 0) (freshTexts batch fates) >>=
        fun vectors => nowMillis env >>= fun now =>
          applyPlanned env emb agent (if 0 < emb.dim then dim else 0) now
            (planRows batch fates
              (embedPlan (if 0 < emb.dim then dim else 0) fates vectors)) >>= fun _ =>
          pure (fates.countP Fate.isInsert, fates.countP Fate.isBump,
            fates.countP Fate.isConflict)) { s with stmts := s.stmts + 1 } := by
    unfold processBatch
    rw [bind_of_ok _ hquery]
    dsimp only
    rw [if_neg Bool.false_ne_true]
    simp only [applyPlanned, Program.bind_assoc]
  obtain ⟨hrefused, hanswered⟩ := embedFresh_first emb dim (freshTexts batch fates)
    { s with stmts := s.stmts + 1 }
  by_cases hrefuses : Refuses emb dim s.sent.length (freshTexts batch fates)
  · exact ⟨fun _ => .of_run hrun rfl (hrefused hrefuses).bind,
      fun hloud => absurd (.inl hrefuses) hloud⟩
  obtain ⟨vectors, t, hembed, hdb, hstmts⟩ := hanswered hrefuses
  rw [bind_of_ok _ hembed, bind_of_ok _ (nowMillis_run env t)] at hrun
  have hplanned : ∀ p ∈ planRows batch fates
      (embedPlan (if 0 < emb.dim then dim else 0) fates vectors), Planned env t.db p := by
    rw [hdb]
    exact planned_of_fates hvetted hfates _ vectors
  have hplan := planRows_fates (if 0 < emb.dim then dim else 0) vectors hlen
  have hnonempty : planRows batch fates
      (embedPlan (if 0 < emb.dim then dim else 0) fates vectors) ≠ [] := by
    intro hnil
    rw [hnil] at hplan
    rw [← hplan] at hlen
    exact hne (List.length_eq_zero_iff.mp hlen.symm)
  obtain ⟨hstops, hwrites⟩ := applyPlanned_first emb agent
    (if 0 < emb.dim then dim else 0) (env.clock t.ticks) hnonempty
    (s := { t with ticks := t.ticks + 1 }) hplanned
  rw [hplan] at hstops hwrites
  rw [← show t.stmts = s.stmts + 1 from hstmts]
  refine ⟨fun hquiet => .of_run hrun hdb (hstops ?_).bind,
    fun hloud => .of_run hrun hdb ((hwrites ?_).bind fun _ => moves_pure _)⟩
  · exact hquiet.resolve_left hrefuses
  · exact fun hfault => hloud (.inr hfault)

/-- A batch ends early or writes. -/
private theorem processBatch_first (emb : Embedder F) (agent : String) (dim : Nat)
    {batch : List (Nat × ExportRow F)} (hne : batch ≠ []) (hvetted : ∀ r ∈ batch, Vetted env r.2) {s : Conn F} :
    (EarlyBatch env emb agent dim batch s →
        Stops (processBatch env emb agent dim batch false) s) ∧
      (¬ EarlyBatch env emb agent dim batch s →
        Writes (processBatch env emb agent dim batch false) s) := by
  unfold EarlyBatch
  by_cases hread : env.fault s.stmts = true
  · refine ⟨fun _ => ?_, fun hloud => absurd (.inl hread) hloud⟩
    unfold processBatch
    exact Stops.bind ⟨_, _, query_of_fault hread, rfl⟩
  have hok := Bool.eq_false_iff.mpr hread
  cases hclass : classifyAll s.db agent batch with
  | error e =>
    refine ⟨fun _ => ?_, fun hloud => absurd (.inr fun fates h => (by cases h)) hloud⟩
    have hquery := query_of_noFault (f := fun db => classifyAll db agent batch) hok
    rw [hclass] at hquery
    unfold processBatch
    exact Stops.bind ⟨_, _, hquery, rfl⟩
  | ok fates =>
    obtain ⟨hstops, hwrites⟩ := classified_first emb dim hne hvetted hok hclass
    refine ⟨fun hquiet => hstops ?_, fun hloud => hwrites fun hcase => ?_⟩
    · exact (hquiet.resolve_left hread) fates rfl
    · exact hloud (.inr fun fates' heq => Except.ok.inj heq ▸ hcase)

/-! ## The import -/

/-- The tables of two databases are equal. -/
structure SameTables (db db' : Db F) : Prop where
  memories : db'.memories = db.memories
  memorySeq : db'.memorySeq = db.memorySeq
  versions : db'.versions = db.versions
  links : db'.links = db.links
  vecs : db'.vecs = db.vecs
  pins : db'.pins = db.pins
  recallItems : db'.recallItems = db.recallItems
  tombstones : db'.tombstones = db.tombstones
  forgetAudit : db'.forgetAudit = db.forgetAudit
  sessions : db'.sessions = db.sessions
  sessionSeq : db'.sessionSeq = db.sessionSeq
  turns : db'.turns = db.turns
  manifest : db'.manifest = db.manifest

/-- The import ends before its first write: it is a dry run, the header stops it, no batch is
complete, or the first batch ends before it writes. -/
def Early (env : Env F) (emb : Embedder F) (schema : Int) (file : ImportFile F) (dryRun : Bool)
    (c : Conn F) : Prop :=
  dryRun = true ∨ checkHeader file.name file.header ≠ .ok () ∨
    ∀ batch ∈ (planFile env schema BATCH file).batches.head?,
      EarlyBatch env emb c.agentId (dimRead env c) batch { c with stmts := c.stmts + 1 }

private theorem grows_runPlan {emb : Embedder F} {agent : String} {dim : Nat} {dryRun : Bool}
    {plan : Plan F} {stats : ImportStats} :
    Moves (OnDb Grows) (runPlan env emb agent dim dryRun plan stats) := by
  unfold runPlan
  refine moves_bind (moves_foldEach fun stats b _ => ?_) fun stats => ?_
  · exact moves_bind grows_processBatch fun _ => moves_pure _
  · cases plan.stop with
    | none => exact moves_pure stats
    | some e => exact moves_fail e

omit [F64 F] in
theorem SameTables.of_eq {db db' : Db F} (h : db' = db) : SameTables db db' := by
  rw [h]
  constructor <;> rfl

omit [F64 F] in
theorem SameTables.weight {db db' : Db F} (h : SameTables db db') : weight db' = weight db := by
  unfold Export.weight
  rw [h.memories, h.versions]

/-- The import of a file whose first batch is known. -/
private theorem runPlan_first (emb : Embedder F) (agent : String) (dim : Nat) {schema : Int}
    {batch : List (Nat × ExportRow F)} (hbatch : Validated env schema batch)
    (batches : List (List (Nat × ExportRow F))) (stop : Option Error) (stats : ImportStats)
    (s : Conn F) :
    SameTables s.db (runPlan env emb agent dim false ⟨batch :: batches, stop⟩ stats s).2.db
      ↔ EarlyBatch env emb agent dim batch s := by
  obtain ⟨hstops, hwrites⟩ := processBatch_first emb agent dim (s := s)
    hbatch.nonempty hbatch.vetted
  rw [runPlan_cons]
  constructor
  · intro hsame
    by_contra hloud
    have hlt : Writes (processBatch env emb agent dim batch false >>= fun done =>
        runPlan env emb agent dim false ⟨batches, stop⟩ (stats.addBatch batch done)) s :=
      (hwrites hloud).bind fun _ => grows_runPlan
    exact absurd hsame.weight (Int.ne_of_gt hlt)
  · intro hquiet
    obtain ⟨e, t, hrun, hdb⟩ := (hstops hquiet).bind (k := fun done =>
      runPlan env emb agent dim false ⟨batches, stop⟩ (stats.addBatch batch done))
    rw [hrun]
    exact .of_eq hdb

/-- A failed import leaves the tables as they were if and only if it ends before its first write. -/
theorem import_unwritten_iff (env : Env F) (emb : Embedder F) (schema : Int) (file : ImportFile F)
    (dryRun : Bool) (c c' : Conn F) (e : Error)
    (h : importFile env emb schema file dryRun c = (.error e, c')) :
    SameTables c.db c'.db ↔ Early env emb schema file dryRun c := by
  have hc' : c' = (importFile env emb schema file dryRun c).2 := by rw [h]
  unfold Early
  cases dryRun with
  | true =>
    rw [hc', dryRun_db]
    exact ⟨fun _ => .inl rfl, fun _ => .of_eq rfl⟩
  | false =>
    rw [hc', importFile_eq]
    cases hheader : checkHeader file.name file.header with
    | error e =>
      rw [importFileBy_header hheader]
      exact ⟨fun _ => .inr (.inl fun h => (by cases h)), fun _ => .of_eq rfl⟩
    | ok u =>
      rw [importFileBy_run hheader]
      simp only [Bool.false_eq_true, ne_eq, not_true_eq_false, false_or]
      cases hplan : planFile env schema BATCH file with
      | mk batches stop =>
        cases batches with
        | nil =>
          refine ⟨fun _ batch hbatch => (by cases hbatch), fun _ => .of_eq ?_⟩
          cases stop <;> rfl
        | cons batch batches =>
          have hfirst : batch ∈ (planFile env schema BATCH file).batches := by
            rw [hplan]
            exact List.mem_cons_self
          have hvalid := planFile_validated batch hfirst
          have hiff := runPlan_first emb c.agentId (dimRead env c) hvalid batches stop
            ⟨0, 0, 0, 0, false⟩ { c with stmts := c.stmts + 1 }
          refine hiff.trans ?_
          constructor
          · intro hquiet b hb
            obtain rfl := Option.some.inj hb
            exact hquiet
          · intro hall
            exact hall batch rfl

/-- A reference and a new row, whose text the embedder refuses. -/
theorem import_unwritten_iff_bad :
    SameTables teaStore.db (importFile sampleEnv
      { sampleEmbedder with embed := fun _ _ => .error (.embedder "timeout") } 1
      (plainFile [plainRow "a" "tea", plainRow "b" "mug"]) false teaStore).2.db := by
  have hfails : (importFile sampleEnv
      { sampleEmbedder with embed := fun _ _ => .error (.embedder "timeout") } 1
      (plainFile [plainRow "a" "tea", plainRow "b" "mug"]) false teaStore).1 =
        .error (.embedder "timeout") := by
    decide +kernel
  refine (import_unwritten_iff sampleEnv
    { sampleEmbedder with embed := fun _ _ => .error (.embedder "timeout") } 1
    (plainFile [plainRow "a" "tea", plainRow "b" "mug"]) false teaStore _ _
    (Prod.ext hfails rfl)).mpr (.inr (.inr fun batch hbatch => .inr fun fates hfates => .inl ?_))
  obtain rfl := Option.some.inj hbatch
  obtain rfl := Except.ok.inj hfates
  exact ⟨by decide, by decide, by decide, by decide⟩

/-- One new id twice: the import fails at the second row, and the first one stays. -/
theorem import_half_written :
    (importFile sampleEnv sampleEmbedder 1 (plainFile [plainRow "a" "tea", plainRow "a" "mug"])
        false (emptyStore ℚ "a" 1)).1.isOk = false ∧
      (importFile sampleEnv sampleEmbedder 1 (plainFile [plainRow "a" "tea", plainRow "a" "mug"])
        false (emptyStore ℚ "a" 1)).2.db.memories.map Memory.text = ["tea"] := by
  decide +kernel

end AgosMemory.Export
