import AgosMemory.Storage.Open

/-!
# Preparing the database

What one opener does to a database that openers have left, if it runs alone and may be cut off anywhere. The
schema is that of the version and part of the text index, so each migration finds what it refers to and
nothing that it creates; the virtual table and its row in `meta` agree on the dimension.
-/

namespace AgosMemory.Opening

open Library Client Program Exclusive
open Library.Ddl (Stands made schemaAt fits)

/-! ## The database between two statements -/

/-- The virtual table of the text index and its triggers. -/
def IsRepair (o : Ddl.Object String) : Prop := o ∈ made FTS_DDL

/-- What any sequence of openers leaves, complete or not: the schema of the version, part of the text index,
and one embedding dimension. -/
structure Written (db : Db) : Prop where
  nonneg : 0 ≤ db.userVersion
  supported : db.userVersion ≤ SCHEMA_VERSION
  schema : Stands IsRepair (schemaAt MIGRATIONS db.userVersion.toNat) db.catalog
  unpinned : db.vecDim = none → db.embedDim = none
  pinned : ∀ d, db.vecDim = some d → 0 < d ∧ d ≤ 8192 ∧
    (db.embedDim = some (d : Int) ∨ db.embedDim = none ∧ d = 1536)

/-- What one step may do. -/
structure Moves (db db' : Db) : Prop where
  version : db'.userVersion = db.userVersion ∨ db'.userVersion = db.userVersion + 1
  catalog : ∀ o ∈ db.catalog, o ∈ db'.catalog
  vecDim : ∀ d, db.vecDim = some d → db'.vecDim = some d
  embedDim : ∀ d, db.embedDim = some d → db'.embedDim = some d
  agents : db.agents <+: db'.agents

/-- What an open store stands on. -/
structure Ready (o : Opener) (db : Db) : Prop where
  version : db.userVersion = SCHEMA_VERSION
  schema : ∀ x, x ∈ made MIGRATIONS.flatten ∨ IsRepair x → x ∈ db.catalog
  dim : ∃ d : Nat, db.vecDim = some d ∧ db.embedDim = some (d : Int)
  agent : ∃ t, (o.agentId, t) ∈ db.agents

theorem Moves.refl (db : Db) : Moves db db :=
  ⟨.inl rfl, fun _ h => h, fun _ h => h, fun _ h => h, List.prefix_rfl⟩

private theorem fits_migrations : fits [] MIGRATIONS.flatten = true := by decide +kernel

private theorem not_repair {o : Ddl.Object String} (ho : o ∈ made MIGRATIONS.flatten) :
    ¬ IsRepair o := by
  have hall : ((made MIGRATIONS.flatten).all fun o => !(made FTS_DDL).contains o) = true := by
    decide +kernel
  have hno := List.all_eq_true.mp hall o ho
  rwa [Bool.not_eq_true', ← Bool.not_eq_true, List.contains_iff_mem] at hno

private theorem repairs_fit {s : Ddl.Statement String} (hs : s ∈ FTS_DDL) :
    s.repeatable = true ∧ ∀ o ∈ s.needs, o ∈ schemaAt MIGRATIONS SCHEMA_VERSION.toNat := by
  have hall : (FTS_DDL.all fun s => s.repeatable &&
      s.needs.all (schemaAt MIGRATIONS SCHEMA_VERSION.toNat).contains) = true := by decide +kernel
  have hfit := List.all_eq_true.mp hall s hs
  rw [Bool.and_eq_true, List.all_eq_true] at hfit
  exact ⟨hfit.1, fun o ho => List.contains_iff_mem.mp (hfit.2 o ho)⟩

private theorem schemaAt_latest :
    schemaAt MIGRATIONS SCHEMA_VERSION.toNat = made MIGRATIONS.flatten := rfl

theorem Written.there {db : Db} (h : Written db) (hversion : db.userVersion = SCHEMA_VERSION)
    {o : Ddl.Object String} (ho : o ∈ made MIGRATIONS.flatten) : o ∈ db.catalog := by
  refine h.schema.there o ?_
  rwa [hversion, schemaAt_latest]

/-! ## Statement by statement -/

/-- One opener that nobody interferes with. -/
abbrev Runs {α : Type} (P : Except Error α → Db → Prop) (c : Client Error Db α) (db : Db) : Prop :=
  c.Secure Written Eq Moves P db

/-- The client succeeds, and `P` holds of the result. -/
def Done {α : Type} (P : α → Db → Prop) (r : Except Error α) (db : Db) : Prop :=
  ∃ a, r = .ok a ∧ P a db

section

variable {α β : Type} {db : Db} {P : α → Db → Prop} {o : Opener}

private theorem runs_call {m : Program Error Db α} {a : α} {db' : Db} (hm : m db = (.ok a, db'))
    (hwritten : Written db → Written db') (hmoves : Written db → Moves db db')
    (hP : Written db → P a db') : Runs (Done P) (call m) db := by
  refine secure_call fun t ht hst => ?_
  subst hst
  rw [hm]
  exact ⟨⟨hwritten ht, hmoves ht⟩, a, rfl, hP ht⟩

theorem runs_bind {c : Client Error Db β} {k : β → Client Error Db α} {Q : β → Db → Prop}
    (hc : Runs (Done Q) c db) (hk : ∀ b db, Q b db → Runs (Done P) (k b) db) :
    Runs (Done P) (c >>= k) db := by
  refine Secure.bind hc ?_ ?_
  · rintro e db ⟨b, hb, -⟩
    cases hb
  · rintro b db ⟨b', hb, hQ⟩
    cases hb
    exact hk b db hQ

private theorem runs_applyPragmas : Runs (Done fun _ _ => True) (call applyPragmas) db :=
  runs_call rfl (fun h => ⟨h.nonneg, h.supported, h.schema, h.unpinned, h.pinned⟩)
    (fun _ => ⟨.inl rfl, fun _ h => h, fun _ h => h, fun _ h => h, List.prefix_rfl⟩) fun _ => trivial

private theorem runs_checkSchemaSupported :
    Runs (Done fun _ db => 0 ≤ db.userVersion ∧ db.userVersion ≤ SCHEMA_VERSION)
      (call checkSchemaSupported) db := by
  refine secure_call fun t ht _ => ?_
  unfold checkSchemaSupported
  rw [if_neg (Int.not_lt.mpr ht.supported)]
  exact ⟨⟨ht, Moves.refl t⟩, (), rfl, ht.nonneg, ht.supported⟩

/-- The migration of the current version succeeds, and the version is the next one. -/
private theorem runs_applyMigration {v : Int} {sql : List (Ddl.Statement String)}
    (hv : v = db.userVersion) (hlt : v < SCHEMA_VERSION) (hnonneg : 0 ≤ v)
    (hsql : MIGRATIONS[v.toNat]? = some sql) :
    Runs (Done fun _ db => db.userVersion = v + 1) (call (applyMigration v sql)) db := by
  subst hv
  refine secure_call fun t ht hst => ?_
  subst hst
  obtain ⟨catalog, hrun, hstands⟩ := ht.schema.upgrade fits_migrations (fun _ => not_repair) hsql
  unfold applyMigration
  rw [hrun]
  have hnext : (db.userVersion + 1).toNat = db.userVersion.toNat + 1 := by omega
  refine ⟨⟨⟨by dsimp only; omega, by dsimp only; omega, ?_, ht.unpinned, ht.pinned⟩, .inr rfl,
    Ddl.runScript_keeps hrun, fun _ h => h, fun _ h => h, List.prefix_rfl⟩, (), rfl, rfl⟩
  dsimp only
  rwa [hnext]

/-- The loop ends at the newest version, within a round for each migration and one more. -/
private theorem runs_migrateLoop {rounds : Nat} (hrounds : SCHEMA_VERSION - db.userVersion < rounds)
    (hle : db.userVersion ≤ SCHEMA_VERSION) :
    Runs (Done fun _ db => Written db ∧ db.userVersion = SCHEMA_VERSION) (migrateLoop rounds) db := by
  induction rounds generalizing db with
  | zero => omega
  | succ rounds ih =>
    refine secure_call_bind fun t ht hst => ⟨t.userVersion, t, rfl, ⟨ht, Moves.refl t⟩, ?_⟩
    subst hst
    split
    · next hlatest => exact ⟨(), rfl, ht, Int.le_antisymm hle hlatest⟩
    · next hlt =>
      have hnonneg := ht.nonneg
      have hidx : db.userVersion.toNat < MIGRATIONS.length := by
        show db.userVersion.toNat < 5
        unfold SCHEMA_VERSION at hlt
        omega
      rw [if_pos hnonneg, List.getElem?_eq_getElem hidx]
      refine runs_bind (runs_applyMigration rfl (Int.not_le.mp hlt) hnonneg
        (List.getElem?_eq_getElem hidx)) fun _ db' hdb' => ih ?_ ?_
      · omega
      · omega

/-- The repairs of the text index, run again or not. -/
private theorem runs_repairs {ss : List (Ddl.Statement String)} (hss : ∀ s ∈ ss, s ∈ FTS_DDL)
    (hversion : db.userVersion = SCHEMA_VERSION) :
    Runs (Done fun _ db' => db'.userVersion = SCHEMA_VERSION ∧ (∀ x ∈ db.catalog, x ∈ db'.catalog) ∧
      ∀ x ∈ made ss, x ∈ db'.catalog) (forEach ss fun s => call (execute s)) db := by
  induction ss generalizing db with
  | nil => exact ⟨(), rfl, hversion, fun _ hx => hx, fun _ hx => (by cases hx)⟩
  | cons s ss ih =>
    have hs := hss s List.mem_cons_self
    refine secure_call_bind fun t ht hst => ?_
    subst hst
    obtain ⟨hrepeatable, hneeds⟩ := repairs_fit hs
    obtain ⟨catalog, hrun, hstands, hmem⟩ := ht.schema.repeatable
      (fun o ho => .inl (by rw [hversion]; exact hneeds o ho)) hrepeatable
      fun o ho => List.mem_flatMap.mpr ⟨s, hs, ho⟩
    have hexec : execute s db = (.ok (), { db with catalog }) := by
      unfold execute
      rw [hrun]
    refine ⟨(), _, hexec, ⟨⟨ht.nonneg, ht.supported, hstands, ht.unpinned, ht.pinned⟩, .inl rfl,
      fun x hx => (hmem x).mpr (.inl hx), fun _ h => h, fun _ h => h, List.prefix_rfl⟩, ?_⟩
    have hrest := @ih { db with catalog } (fun s' hs' => hss s' (List.mem_cons_of_mem _ hs')) hversion
    refine hrest.mono ?_
    rintro r db' ⟨_, rfl, hlatest, hkept, hmade⟩
    refine ⟨(), rfl, hlatest, fun x hx => hkept x ((hmem x).mpr (.inl hx)), fun x hx => ?_⟩
    rw [made, List.flatMap_cons, List.mem_append] at hx
    exact hx.elim (fun hx => hkept x ((hmem x).mpr (.inr hx))) (hmade x)

/-- What a migrated database has. -/
structure Migrated (db : Db) : Prop where
  version : db.userVersion = SCHEMA_VERSION
  schema : ∀ x, x ∈ made MIGRATIONS.flatten ∨ IsRepair x → x ∈ db.catalog

private theorem runs_migrate : Runs (Done fun _ => Migrated) migrate db := by
  unfold migrate
  refine runs_bind runs_checkSchemaSupported fun _ db hdb => ?_
  refine runs_bind (runs_migrateLoop ?_ hdb.2) fun _ db hlatest => ?_
  · show SCHEMA_VERSION - db.userVersion < ((5 + 1 : Nat) : Int)
    have hnonneg := hdb.1
    unfold SCHEMA_VERSION
    omega
  · refine (runs_repairs (fun _ hs => hs) hlatest.2).mono ?_
    rintro r db' ⟨_, rfl, hversion, hkept, hmade⟩
    refine ⟨(), rfl, hversion, fun x hx => ?_⟩
    exact hx.elim (fun hx => hkept x (hlatest.1.there hlatest.2 hx)) (hmade x)

/-- The dimension read is the one of the table, or the default. -/
private theorem runs_readDim (h : Migrated db) : Runs (Done fun dim db => Migrated db ∧
    dim = db.vecDim.getD 1536 ∧ 0 < dim ∧ dim ≤ 8192) (call readDim) db := by
  refine runs_call rfl id (fun _ => Moves.refl db) fun hwritten => ⟨h, ?_⟩
  cases hvec : db.vecDim with
  | none =>
    rw [hwritten.unpinned hvec]
    exact ⟨rfl, by decide, by decide⟩
  | some d =>
    obtain ⟨hpos, hle, hembed | ⟨hembed, rfl⟩⟩ := hwritten.pinned d hvec
    · have hread : (if ((d : Int) = 0) then 1536 else ((d : Int) % 2 ^ 32).toNat) = d := by
        rw [if_neg (by omega)]
        omega
      rw [hembed, Option.getD_some, hread]
      exact ⟨rfl, hpos, hle⟩
    · rw [hembed]
      exact ⟨rfl, by decide, by decide⟩

private theorem runs_createVecTable {dim : Nat} (h : Migrated db) (hdim : dim = db.vecDim.getD 1536)
    (hpos : 0 < dim) (hle : dim ≤ 8192) :
    Runs (Done fun _ db => Migrated db ∧ db.vecDim = some dim) (call (createVecTable dim)) db := by
  cases hvec : db.vecDim with
  | some d =>
    have hrun : createVecTable dim db = (.ok (), db) := by
      unfold createVecTable
      rw [hvec]
      rfl
    rw [hvec, Option.getD_some] at hdim
    exact runs_call hrun id (fun _ => Moves.refl db) fun _ => ⟨h, hdim ▸ hvec⟩
  | none =>
    rw [hvec, Option.getD_none] at hdim
    subst hdim
    have hrun : createVecTable 1536 db = (.ok (), { db with vecDim := some 1536 }) := by
      unfold createVecTable
      rw [hvec]
      rfl
    refine runs_call hrun (fun hw => ⟨hw.nonneg, hw.supported, hw.schema, fun hno => (by cases hno),
      fun d hd => ?_⟩) (fun _ => ⟨.inl rfl, fun _ h => h, fun d hd => ?_, fun _ h => h,
      List.prefix_rfl⟩) fun _ => ⟨⟨h.version, h.schema⟩, rfl⟩
    · obtain rfl := Option.some.inj hd
      exact ⟨by decide, by decide, .inr ⟨hw.unpinned hvec, rfl⟩⟩
    · rw [hvec] at hd
      cases hd

private theorem runs_recordEmbedDim {dim : Nat} (h : Migrated db) (hdim : db.vecDim = some dim) :
    Runs (Done fun _ db => Migrated db ∧ db.vecDim = some dim ∧ db.embedDim = some (dim : Int))
      (call (recordEmbedDim dim)) db := by
  have hmeta : db.catalog.contains (.table "meta") = true :=
    List.contains_iff_mem.mpr (h.schema _ (.inl (by decide +kernel)))
  have hrun : recordEmbedDim dim db = (.ok (), { db with embedDim := some (dim : Int) }) := by
    unfold recordEmbedDim
    rw [if_pos hmeta]
  refine runs_call hrun (fun hw => ⟨hw.nonneg, hw.supported, hw.schema, fun hno => ?_, fun d hd => ?_⟩)
    (fun hw => ⟨.inl rfl, fun _ h => h, fun _ h => h, fun d hd => ?_, List.prefix_rfl⟩)
    fun _ => ⟨⟨h.version, h.schema⟩, hdim, rfl⟩
  · rw [hdim] at hno
    cases hno
  · obtain rfl := Option.some.inj (hdim.symm.trans hd)
    obtain ⟨hpos, hle, _⟩ := hw.pinned dim hdim
    exact ⟨hpos, hle, .inl rfl⟩
  · obtain ⟨-, -, hembed | ⟨hembed, -⟩⟩ := hw.pinned dim hdim
    · exact hembed.symm.trans hd
    · rw [hembed] at hd
      cases hd

private theorem runs_ensureVecTable {dim : Nat} (h : Migrated db) (hdim : dim = db.vecDim.getD 1536)
    (hpos : 0 < dim) (hle : dim ≤ 8192) :
    Runs (Done fun _ db => Migrated db ∧ db.vecDim = some dim ∧ db.embedDim = some (dim : Int))
      (ensureVecTable dim) db :=
  runs_bind (runs_createVecTable h hdim hpos hle) fun _ _ hvec => runs_recordEmbedDim hvec.1 hvec.2

private theorem runs_seedAgent (h : Migrated db)
    (hdim : ∃ d : Nat, db.vecDim = some d ∧ db.embedDim = some (d : Int)) :
    Runs (Done fun _ => Ready o) (call (seedAgent o)) db := by
  have hagents : (!db.catalog.contains (.table "agents")) = false := by
    rw [Bool.not_eq_false', List.contains_iff_mem]
    exact h.schema _ (.inl (by decide +kernel))
  by_cases hthere : (db.agents.any fun a => a.1 = o.agentId) = true
  · have hrun : seedAgent o db = (.ok (), db) := by
      unfold seedAgent
      rw [hagents, if_neg (by decide), if_pos hthere]
    obtain ⟨a, ha, hid⟩ := List.any_eq_true.mp hthere
    exact runs_call hrun id (fun _ => Moves.refl db) fun _ =>
      ⟨h.version, h.schema, hdim, a.2, of_decide_eq_true hid ▸ ha⟩
  · have hrun : seedAgent o db = (.ok (), { db with agents := db.agents ++ [(o.agentId, o.now)] }) := by
      unfold seedAgent
      rw [hagents, if_neg (by decide), if_neg hthere]
    exact runs_call hrun (fun hw => ⟨hw.nonneg, hw.supported, hw.schema, hw.unpinned, hw.pinned⟩)
      (fun _ => ⟨.inl rfl, fun _ h => h, fun _ h => h, fun _ h => h, List.prefix_append _ _⟩)
      fun _ => ⟨h.version, h.schema, hdim, o.now, List.mem_append_right _ List.mem_cons_self⟩

/-- Alone and not cut off, an opener brings every database that openers may have left to its end. -/
theorem runs_prepare : Runs (Done fun _ => Ready o) (prepare o) db := by
  unfold prepare
  refine runs_bind runs_applyPragmas fun _ db _ => ?_
  refine runs_bind runs_migrate fun _ db hmigrated => ?_
  refine runs_bind (runs_readDim hmigrated) fun dim db hdim => ?_
  obtain ⟨hmigrated, hdim, hpos, hle⟩ := hdim
  exact runs_bind (runs_ensureVecTable hmigrated hdim hpos hle) fun _ db hpinned =>
    runs_seedAgent hpinned.1 ⟨dim, hpinned.2⟩

end

end AgosMemory.Opening
