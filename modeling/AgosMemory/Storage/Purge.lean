import AgosMemory.Library.TextIndex
import AgosMemory.Storage.Frame
import AgosMemory.Storage.Wellformed

/-!
# The delete phase of a purge

The first writer closure of a hard purge, statement by statement, over the tables and the full-text
index that the triggers of `memories` maintain. The deletes are one transaction, so any of them may
fail without a trace. `Store.deletePhase` is the effect of the transaction on the tables.
-/

namespace AgosMemory.Purge

open Library Library.Program Store

variable {F : Type} [F64 F]

/-- A connection, and the contents of `fts_memories` beside it. -/
structure Indexed (F : Type) where
  conn : Conn F
  fts : TextIndex.Index Int String

abbrev Indexed.db (s : Indexed F) : Db F := s.conn.db

/-- A program over the tables and the index. -/
abbrev Purging (F α : Type) := Program Error (Indexed F) α

/-- A statement that fires no trigger of the index. -/
def onConn {α : Type} (m : Write F α) : Purging F α := fun s =>
  ((m s.conn).1, { s with conn := (m s.conn).2 })

/-! ## Statements -/

/-- A row with a foreign key on the memory, apart from the memory's own. -/
def referenced (db : Db F) (id : Int) : Bool :=
  (db.versions.any fun v => v.memoryId = id) ||
  (db.links.any fun l => l.fromMemoryId = id ∨ l.toMemoryId = id) ||
  (db.recallItems.any fun r => r.memoryId = id) ||
  (db.pins.any fun p => p.memoryId = id) ||
  db.memories.any fun m => m.id ≠ id ∧ (m.supersedesId = some id ∨ m.supersededById = some id)

/-- `DELETE FROM memories WHERE id = ?1`; returns the rows for which the trigger fires. -/
def deleteMemoryRow (id : Int) (db : Db F) : Except Error (List (Memory F) × Db F) :=
  if (db.memory? id).isSome && referenced db id then
    .error (.storage "FOREIGN KEY constraint failed")
  else .ok (db.memories.filter fun m => m.id = id,
    { db with memories := db.memories.filter fun m => m.id ≠ id })

/-- What the index knows of a row. -/
def docOf (m : Memory F) : Int × String := (m.id, m.text)

/-- The delete with its trigger `memories_ad`, which hands the old text to the index. -/
def deleteMemory (env : Env F) (terms : String → List String) (id : Int) : Purging F Unit := fun s =>
  match exec env (deleteMemoryRow id) s.conn with
  | (.ok old, conn) => (.ok (), ⟨conn, (old.map docOf).foldl (TextIndex.delete terms) s.fts⟩)
  | (.error e, conn) => (.error e, { s with conn })

/-- `BEGIN ... COMMIT`; whatever fails in it, the commit included, is rolled back. -/
def transaction (env : Env F) (m : Purging F Unit) : Purging F Unit :=
  atomically (fun s t => { t with conn := { t.conn with db := s.db }, fts := s.fts }) do
    onConn (run env id)
    m
    onConn (run env id)

/-! The statements `DELETE FROM ... WHERE` of the tables that mention a memory. -/

def deleteLinks (id : Int) (db : Db F) : Db F :=
  { db with links := db.links.filter fun l => ¬ (l.fromMemoryId = id ∨ l.toMemoryId = id) }

def deleteVersions (id : Int) (db : Db F) : Db F :=
  { db with versions := db.versions.filter fun v => v.memoryId ≠ id }

def deleteRecallItems (id : Int) (db : Db F) : Db F :=
  { db with recallItems := db.recallItems.filter fun r => r.memoryId ≠ id }

def deletePins (id : Int) (db : Db F) : Db F :=
  { db with pins := db.pins.filter fun p => p.memoryId ≠ id }

def deleteVecs (id : Int) (db : Db F) : Db F :=
  { db with vecs := db.vecs.filter fun v => v.rowid ≠ id, vecLog := db.vecLog ++ [.delete id] }

/-- The delete statements, children first. -/
def deletes (env : Env F) (terms : String → List String) (id : Int) : Purging F Unit := do
  onConn (run env (deleteLinks id))
  onConn (run env (deleteVersions id))
  onConn (run env (deleteRecallItems id))
  onConn (run env (deletePins id))
  onConn (run env (deleteVecs id))
  deleteMemory env terms id

/-- What the closure hands to the tombstone. -/
structure Evidence where
  publicId : String
  textHash : String
  rowcountBefore : Nat
  deriving DecidableEq, Repr

def count (env : Env F) (f : Db F → Nat) : Purging F Nat := onConn (query env fun db => .ok (f db))

/-- The closure up to the commit: existence gate, counts, deletes. -/
def purgeRows (env : Env F) (terms : String → List String) (id : Int) : Purging F Evidence := do
  let m ← onConn (query env fun db => one (db.memory? id))
  let versions ← count env fun db => (db.versions.filter fun v => v.memoryId = id).length
  let links ← count env fun db =>
    (db.links.filter fun l => l.fromMemoryId = id ∨ l.toMemoryId = id).length
  let recallItems ← count env fun db => (db.recallItems.filter fun r => r.memoryId = id).length
  let pins ← count env fun db => (db.pins.filter fun p => p.memoryId = id).length
  let vecs ← count env fun db => (db.vecs.filter fun v => v.rowid = id).length
  transaction env (deletes env terms id)
  return ⟨m.publicId, m.textHash, 1 + versions + links + recallItems + pins + vecs⟩

/-! ## What a committed purge leaves -/

/-- The schema's guarantees on a store: the primary key, and an index kept by its triggers. -/
structure Consistent (terms : String → List String) (s : Indexed F) : Prop where
  ids : (s.db.memories.map Memory.id).Nodup
  index : s.fts = TextIndex.exact terms (s.db.memories.map docOf)

/-- No row, and no posting of the index, mentions the memory. -/
structure Silent (id : Int) (s : Indexed F) : Prop where
  memories : ∀ m ∈ s.db.memories, m.id ≠ id ∧ m.supersedesId ≠ some id ∧ m.supersededById ≠ some id
  versions : ∀ v ∈ s.db.versions, v.memoryId ≠ id
  links : ∀ l ∈ s.db.links, l.fromMemoryId ≠ id ∧ l.toMemoryId ≠ id
  recallItems : ∀ r ∈ s.db.recallItems, r.memoryId ≠ id
  pins : ∀ p ∈ s.db.pins, p.memoryId ≠ id
  vecs : ∀ v ∈ s.db.vecs, v.rowid ≠ id
  fts : ∀ p ∈ s.fts, p.doc ≠ id

/-- The rows of the six tables that a purge counts. -/
def rows (db : Db F) : Nat :=
  db.memories.length + db.versions.length + db.links.length + db.recallItems.length +
    db.pins.length + db.vecs.length

/-- The tables without the rows that belong to the memory. -/
def without (id : Int) (db : Db F) : Db F :=
  { db with
    links := db.links.filter fun l => ¬ (l.fromMemoryId = id ∨ l.toMemoryId = id)
    versions := db.versions.filter fun v => v.memoryId ≠ id
    recallItems := db.recallItems.filter fun r => r.memoryId ≠ id
    pins := db.pins.filter fun p => p.memoryId ≠ id
    vecs := db.vecs.filter fun v => v.rowid ≠ id
    vecLog := db.vecLog ++ [.delete id]
    memories := db.memories.filter fun m => m.id ≠ id }

/-- A committed purge. The last two fields are its frame: each table keeps its other rows in order,
every other table is as it was, and the index is that of the remaining texts. -/
structure Committed (terms : String → List String) (id : Int) (evidence : Evidence)
    (s s' : Indexed F) : Prop where
  found : ∃ m, s.db.memory? id = some m ∧ evidence.publicId = m.publicId ∧
    evidence.textHash = m.textHash
  silent : Silent id s'
  rowcount : rows s.db = rows s'.db + evidence.rowcountBefore
  counted : evidence.rowcountBefore = 1 + ((mentions s.db id).dropLast.tail.map Prod.snd).sum
  verified : ∀ entry ∈ mentions s'.db id, entry.2 = 0
  effect : deletePhase id s.db = .ok ((), s'.db)
  others : s'.db = without id s.db
  index : s'.fts = TextIndex.exact terms (s'.db.memories.map docOf)

/-! ## The closure leaves everything as it is until the commit -/

/-- The tables and the index are as they were. -/
structure Unchanged (s t : Indexed F) : Prop where
  db : t.db = s.db
  fts : t.fts = s.fts

omit [F64 F] in
instance : Std.Refl (Unchanged (F := F)) where
  refl _ := ⟨rfl, rfl⟩

omit [F64 F] in
instance : IsTrans (Indexed F) Unchanged where
  trans _ _ _ hab hbc := ⟨hbc.db.trans hab.db, hbc.fts.trans hab.fts⟩

/-- A failure leaves no trace. -/
def Traceless {α : Type} (m : Purging F α) : Prop :=
  ∀ s e t, m s = (.error e, t) → Unchanged s t

omit [F64 F] in
private theorem unchanged_query {env : Env F} {α : Type} {f : Db F → Except Error α} :
    Moves Unchanged (onConn (query env f)) :=
  fun s => ⟨query_db f s.conn, rfl⟩

omit [F64 F] in
private theorem traceless_bind {α β : Type} {m : Purging F α} {k : α → Purging F β}
    (hm : Moves Unchanged m) (hk : ∀ a, Traceless (k a)) : Traceless (m >>= k) := by
  intro s e t h
  have hs := hm s
  rw [bind_run] at h
  cases hms : m s with
  | mk r u =>
    rw [hms] at h hs
    cases r with
    | ok a => exact IsTrans.trans _ _ _ hs (hk a u e t h)
    | error e' =>
      obtain ⟨_, rfl⟩ := Prod.mk.inj h
      exact hs

omit [F64 F] in
private theorem traceless_bind_pure {α β : Type} {m : Purging F α} {f : α → β} (hm : Traceless m) :
    Traceless (m >>= fun a => pure (f a)) := by
  intro s e t h
  rw [bind_run] at h
  cases hms : m s with
  | mk r u =>
    rw [hms] at h
    cases r with
    | ok a => cases h
    | error e' =>
      obtain ⟨_, rfl⟩ := Prod.mk.inj h
      exact hm s e' u hms

omit [F64 F] in
private theorem traceless_transaction {env : Env F} {m : Purging F Unit} :
    Traceless (transaction env m) := by
  intro s e t h
  obtain ⟨u, _, rfl⟩ := atomically_error h
  exact ⟨rfl, rfl⟩

omit [F64 F] in
private theorem traceless_purgeRows {env : Env F} {terms : String → List String} {id : Int} :
    Traceless (purgeRows env terms id) := by
  unfold purgeRows count
  refine traceless_bind unchanged_query fun m => ?_
  refine traceless_bind unchanged_query fun versions => ?_
  refine traceless_bind unchanged_query fun links => ?_
  refine traceless_bind unchanged_query fun recallItems => ?_
  refine traceless_bind unchanged_query fun pins => ?_
  refine traceless_bind unchanged_query fun vecs => ?_
  exact traceless_bind_pure traceless_transaction

/-! ## What the statements did when the closure returns -/

omit [F64 F] in
private theorem onConn_run_ok {env : Env F} {f : Db F → Db F} {s t : Indexed F}
    (h : onConn (run env f) s = (.ok (), t)) : t.db = f s.db ∧ t.fts = s.fts := by
  obtain ⟨hr, ht⟩ := Prod.mk.inj h
  have hrun : run env f s.conn = (.ok (), t.conn) := Prod.ext hr (congrArg Indexed.conn ht)
  exact ⟨(Prod.mk.inj (Except.ok.inj (exec_ok hrun))).2.symm, (congrArg Indexed.fts ht).symm⟩

omit [F64 F] in
private theorem onConn_query_ok {env : Env F} {α : Type} {f : Db F → Except Error α} {s t : Indexed F}
    {a : α} (h : onConn (query env f) s = (.ok a, t)) : f s.db = .ok a ∧ Unchanged s t := by
  obtain ⟨hr, ht⟩ := Prod.mk.inj h
  have hquery : query env f s.conn = (.ok a, t.conn) := Prod.ext hr (congrArg Indexed.conn ht)
  obtain ⟨hf, hdb⟩ := query_ok hquery
  exact ⟨hf, hdb, (congrArg Indexed.fts ht).symm⟩

omit [F64 F] in
private theorem count_ok {env : Env F} {f : Db F → Nat} {s t : Indexed F} {n : Nat}
    (h : count env f s = (.ok n, t)) : n = f s.db ∧ Unchanged s t := by
  obtain ⟨hf, hst⟩ := onConn_query_ok h
  exact ⟨(Except.ok.inj hf).symm, hst⟩

omit [F64 F] in
private theorem deleteMemory_ok {env : Env F} {terms : String → List String} {id : Int}
    {s t : Indexed F}
    (h : deleteMemory env terms id s = (.ok (), t)) :
    ((s.db.memory? id).isSome → referenced s.db id = false) ∧
      t.db = { s.db with memories := s.db.memories.filter fun m => m.id ≠ id } ∧
      t.fts = ((s.db.memories.filter fun m => m.id = id).map docOf).foldl
        (TextIndex.delete terms) s.fts := by
  unfold deleteMemory at h
  cases hrun : exec env (deleteMemoryRow id) s.conn with
  | mk r conn =>
    rw [hrun] at h
    cases r with
    | error e => cases h
    | ok old =>
      have hstmt := exec_ok hrun
      obtain ⟨_, rfl⟩ := Prod.mk.inj h
      unfold deleteMemoryRow at hstmt
      split at hstmt
      · cases hstmt
      · next hfree =>
        obtain ⟨rfl, hdb⟩ := Prod.mk.inj (Except.ok.inj hstmt)
        refine ⟨fun hfound => ?_, hdb.symm, rfl⟩
        rw [hfound, Bool.true_and, Bool.not_eq_true] at hfree
        exact hfree

omit [F64 F] in
/-- The deletes of a transaction that committed. -/
private theorem deletes_ok {env : Env F} {terms : String → List String} {id : Int} {s t : Indexed F}
    (h : transaction env (deletes env terms id) s = (.ok (), t)) :
    t.db = without id s.db ∧
      ((s.db.memory? id).isSome → ∀ m ∈ s.db.memories, m.id ≠ id →
        m.supersedesId ≠ some id ∧ m.supersededById ≠ some id) ∧
      t.fts = ((s.db.memories.filter fun m => m.id = id).map docOf).foldl
        (TextIndex.delete terms) s.fts := by
  obtain ⟨_, s₀, hbegin, h⟩ := bind_ok (atomically_ok h)
  obtain ⟨_, s₆, hdeletes, hcommit⟩ := bind_ok h
  obtain ⟨_, s₁, hlinks, h⟩ := bind_ok hdeletes
  obtain ⟨_, s₂, hversions, h⟩ := bind_ok h
  obtain ⟨_, s₃, hrecallItems, h⟩ := bind_ok h
  obtain ⟨_, s₄, hpins, h⟩ := bind_ok h
  obtain ⟨_, s₅, hvecs, hmemory⟩ := bind_ok h
  obtain ⟨hdb₀, hfts₀⟩ := onConn_run_ok hbegin
  obtain ⟨hdb₁, hfts₁⟩ := onConn_run_ok hlinks
  obtain ⟨hdb₂, hfts₂⟩ := onConn_run_ok hversions
  obtain ⟨hdb₃, hfts₃⟩ := onConn_run_ok hrecallItems
  obtain ⟨hdb₄, hfts₄⟩ := onConn_run_ok hpins
  obtain ⟨hdb₅, hfts₅⟩ := onConn_run_ok hvecs
  obtain ⟨hfree, hdb₆, hfts₆⟩ := deleteMemory_ok hmemory
  obtain ⟨hdb₇, hfts₇⟩ := onConn_run_ok hcommit
  have hmemories : s₅.db.memories = s.db.memories := by
    rw [hdb₅, hdb₄, hdb₃, hdb₂, hdb₁, hdb₀]
    rfl
  have hchildren : s₅.db = deleteVecs id (deletePins id (deleteRecallItems id (deleteVersions id
      (deleteLinks id s.db)))) := by
    rw [hdb₅, hdb₄, hdb₃, hdb₂, hdb₁, hdb₀]
    rfl
  refine ⟨?_, fun hfound m hm hne => ?_, ?_⟩
  · rw [show t.db = s₆.db from hdb₇, hdb₆, hmemories, hchildren]
    rfl
  · have hunreferenced := hfree (by rw [Db.memory?, hmemories]; exact hfound)
    rw [referenced, Bool.or_eq_false_iff] at hunreferenced
    have hnone := List.any_eq_false.mp hunreferenced.2 m (hmemories ▸ hm)
    rw [decide_eq_true_eq] at hnone
    exact ⟨fun heq => hnone ⟨hne, .inl heq⟩, fun heq => hnone ⟨hne, .inr heq⟩⟩
  · rw [hfts₇, hfts₆, hmemories, hfts₅, hfts₄, hfts₃, hfts₂, hfts₁, hfts₀]

/-! ## The committed purge -/

section

variable {terms : String → List String} {id : Int} {db : Db F}

omit [F64 F] in
private theorem length_split {α : Type} (p : α → Prop) [DecidablePred p] (l : List α) :
    l.length = (l.filter fun a => ¬ p a).length + (l.filter fun a => p a).length := by
  induction l with
  | nil => rfl
  | cons a l ih =>
    by_cases hp : p a
    · rw [List.filter_cons_of_neg (by simp [hp]), List.filter_cons_of_pos (by simp [hp]),
        List.length_cons, List.length_cons, ih]
      omega
    · rw [List.filter_cons_of_pos (by simp [hp]), List.filter_cons_of_neg (by simp [hp]),
        List.length_cons, List.length_cons, ih]
      omega

omit [F64 F] in
/-- The primary key finds one row. -/
private theorem filter_memory (hids : (db.memories.map Memory.id).Nodup) {m : Memory F}
    (hm : db.memory? id = some m) : db.memories.filter (fun m => m.id = id) = [m] := by
  obtain ⟨hmem, hid⟩ := memory?_some hm
  have hnodup : (db.memories.filter fun m => m.id = id).Nodup := (List.Nodup.of_map _ hids).filter _
  have hin : m ∈ db.memories.filter fun m => m.id = id :=
    List.mem_filter.mpr ⟨hmem, decide_eq_true hid⟩
  refine (List.perm_singleton.mp ?_)
  refine (List.perm_ext_iff_of_nodup hnodup (List.nodup_singleton m)).mpr fun m' => ?_
  rw [List.mem_singleton]
  refine ⟨fun hm' => ?_, fun heq => heq ▸ hin⟩
  obtain ⟨hmem', hid'⟩ := List.mem_filter.mp hm'
  exact List.inj_on_of_nodup_map hids hmem' hmem ((of_decide_eq_true hid').trans hid.symm)

omit [F64 F] in
private theorem rows_without (hids : (db.memories.map Memory.id).Nodup) {m : Memory F}
    (hm : db.memory? id = some m) :
    rows db = rows (without id db) + (1 + (db.versions.filter fun v => v.memoryId = id).length +
      (db.links.filter fun l => l.fromMemoryId = id ∨ l.toMemoryId = id).length +
      (db.recallItems.filter fun r => r.memoryId = id).length +
      (db.pins.filter fun p => p.memoryId = id).length +
      (db.vecs.filter fun v => v.rowid = id).length) := by
  have hmemories := length_split (fun m => m.id = id) db.memories
  rw [filter_memory hids hm, List.length_singleton] at hmemories
  have hversions := length_split (fun v => v.memoryId = id) db.versions
  have hlinks := length_split (fun l => l.fromMemoryId = id ∨ l.toMemoryId = id) db.links
  have hrecallItems := length_split (fun r => r.memoryId = id) db.recallItems
  have hpins := length_split (fun p => p.memoryId = id) db.pins
  have hvecs := length_split (fun v => v.rowid = id) db.vecs
  simp only [rows, without, ne_eq]
  omega

omit [F64 F] in
/-- What the trigger leaves of an index that was exact. -/
private theorem index_without :
    ((db.memories.filter fun m => m.id = id).map docOf).foldl (TextIndex.delete terms)
        (TextIndex.exact terms (db.memories.map docOf)) =
      TextIndex.exact terms ((without id db).memories.map docOf) := by
  have hold : (db.memories.filter fun m => m.id = id).map docOf =
      (db.memories.map docOf).filter fun d => d.1 = id := by
    rw [List.filter_map]
    rfl
  have hkept : (without id db).memories.map docOf =
      (db.memories.map docOf).filter fun d => !decide (d.1 = id) := by
    rw [List.filter_map, without]
    simp only [decide_not]
    rfl
  rw [hold, hkept]
  exact TextIndex.delete_exact _ _

omit [F64 F] in
private theorem silent_without {s : Indexed F} (hdb : s.db = without id db)
    (hindex : s.fts = TextIndex.exact terms (s.db.memories.map docOf))
    (hsupersedes : ∀ m ∈ db.memories, m.id ≠ id →
      m.supersedesId ≠ some id ∧ m.supersededById ≠ some id) : Silent id s := by
  have hmemories : ∀ m ∈ s.db.memories,
      m.id ≠ id ∧ m.supersedesId ≠ some id ∧ m.supersededById ≠ some id := by
    intro m hm
    rw [hdb] at hm
    obtain ⟨hmem, hne⟩ := List.mem_filter.mp hm
    exact ⟨of_decide_eq_true hne, hsupersedes m hmem (of_decide_eq_true hne)⟩
  refine ⟨hmemories, ?_, ?_, ?_, ?_, ?_, ?_⟩
  · intro v hv
    rw [hdb] at hv
    exact of_decide_eq_true (List.mem_filter.mp hv).2
  · intro l hl
    rw [hdb] at hl
    exact not_or.mp (of_decide_eq_true (List.mem_filter.mp hl).2)
  · intro r hr
    rw [hdb] at hr
    exact of_decide_eq_true (List.mem_filter.mp hr).2
  · intro p hp
    rw [hdb] at hp
    exact of_decide_eq_true (List.mem_filter.mp hp).2
  · intro v hv
    rw [hdb] at hv
    exact of_decide_eq_true (List.mem_filter.mp hv).2
  · intro p hp
    rw [hindex] at hp
    obtain ⟨doc, hdoc, heq⟩ := TextIndex.mem_exact hp
    obtain ⟨m, hm, rfl⟩ := List.mem_map.mp hdoc
    rw [heq]
    exact (hmemories m hm).1

omit [F64 F] in
/-- The verification of the closure finds nothing. -/
theorem mentions_without : ∀ entry ∈ mentions (without id db) id, entry.2 = 0 := by
  have hempty : ∀ {α : Type} (p : α → Prop) [DecidablePred p] (l : List α),
      ((l.filter fun a => ¬ p a).filter fun a => p a).length = 0 := fun p _ l => by
    rw [List.length_eq_zero_iff, List.filter_eq_nil_iff]
    intro a ha hp
    exact of_decide_eq_true (List.mem_filter.mp ha).2 (of_decide_eq_true hp)
  intro entry he
  simp only [mentions, List.mem_cons, List.not_mem_nil, or_false] at he
  rcases he with rfl | rfl | rfl | rfl | rfl | rfl | rfl
  · exact hempty (fun m : Memory F => m.id = id) _
  · exact hempty (fun v : MemoryVersion => v.memoryId = id) _
  · exact hempty (fun l : MemoryLink => l.fromMemoryId = id ∨ l.toMemoryId = id) _
  · exact hempty (fun r : RecallItemRow => r.memoryId = id) _
  · exact hempty (fun p : Pin => p.memoryId = id) _
  · exact hempty (fun v : VecRow F => v.rowid = id) _
  · exact hempty (fun m : Memory F => m.id = id) _

omit [F64 F] in
private theorem deletePhase_without (hsupersedes : ∀ m ∈ db.memories, m.id ≠ id →
    m.supersedesId ≠ some id ∧ m.supersededById ≠ some id) :
    deletePhase id db = .ok ((), without id db) := by
  unfold deletePhase
  rw [if_neg]
  · rfl
  · intro hany
    obtain ⟨m, hm, hp⟩ := List.any_eq_true.mp hany
    obtain ⟨hne, hrefs⟩ := of_decide_eq_true hp
    obtain ⟨hold, hnew⟩ := hsupersedes m hm hne
    exact hrefs.elim hold hnew

end

omit [F64 F] in
/-- From every consistent store: a purge that commits leaves no mention of the memory, counts exactly
what it removed and touches nothing else; one that fails before the commit leaves no trace. -/
theorem purge_complete (env : Env F) (terms : String → List String) (id : Int) (s : Indexed F)
    (hs : Consistent terms s) :
    (∀ evidence s', purgeRows env terms id s = (.ok evidence, s') →
      Committed terms id evidence s s') ∧
    ∀ e s', purgeRows env terms id s = (.error e, s') → Unchanged s s' := by
  refine ⟨fun evidence s' h => ?_, fun e s' h => traceless_purgeRows s e s' h⟩
  obtain ⟨m, s₁, hm, h⟩ := bind_ok h
  obtain ⟨versions, s₂, hversions, h⟩ := bind_ok h
  obtain ⟨links, s₃, hlinks, h⟩ := bind_ok h
  obtain ⟨recallItems, s₄, hrecallItems, h⟩ := bind_ok h
  obtain ⟨pins, s₅, hpins, h⟩ := bind_ok h
  obtain ⟨vecs, s₆, hvecs, h⟩ := bind_ok h
  obtain ⟨_, s₇, hdeletes, h⟩ := bind_ok h
  obtain ⟨rfl, rfl⟩ := pure_ok h
  obtain ⟨hfound, h₁⟩ := onConn_query_ok hm
  obtain ⟨rfl, h₂⟩ := count_ok hversions
  obtain ⟨rfl, h₃⟩ := count_ok hlinks
  obtain ⟨rfl, h₄⟩ := count_ok hrecallItems
  obtain ⟨rfl, h₅⟩ := count_ok hpins
  obtain ⟨rfl, h₆⟩ := count_ok hvecs
  have hdb₂ := h₂.db.trans h₁.db
  have hdb₃ := h₃.db.trans hdb₂
  have hdb₄ := h₄.db.trans hdb₃
  have hdb₅ := h₅.db.trans hdb₄
  have hdb₆ := h₆.db.trans hdb₅
  have hfts₆ : s₆.fts = s.fts :=
    h₆.fts.trans (h₅.fts.trans (h₄.fts.trans (h₃.fts.trans (h₂.fts.trans h₁.fts))))
  have hmemory := one_ok hfound
  obtain ⟨hdb, hsupersedes, hfts⟩ := deletes_ok hdeletes
  rw [hdb₆] at hdb hsupersedes hfts
  rw [hfts₆, hs.index, index_without, ← hdb] at hfts
  have hrefs := hsupersedes (by rw [hmemory]; rfl)
  exact {
    found := ⟨m, hmemory, rfl, rfl⟩
    silent := silent_without hdb hfts hrefs
    rowcount := by
      rw [h₁.db, hdb₂, hdb₃, hdb₄, hdb₅, hdb]
      exact rows_without hs.ids hmemory
    counted := by
      rw [h₁.db, hdb₂, hdb₃, hdb₄, hdb₅]
      simp only [mentions, List.dropLast, List.tail_cons, List.map_cons, List.map_nil,
        List.sum_cons, List.sum_nil]
      omega
    verified := by rw [hdb]; exact mentions_without
    effect := by rw [hdb]; exact deletePhase_without hrefs
    others := hdb
    index := hfts }

/-! ## A pinned and recalled memory beside another one -/

def sampleEnv : Env ℚ where
  sha256Hex s := s
  distance _ _ := 0
  uuid _ := "m"
  clock _ := 0
  fault _ := false

def sampleMemory (id : Int) (text : String) : Memory ℚ where
  id := id
  publicId := "m" ++ toString id
  agentId := "a"
  tier := .semantic
  kind := .fact
  text := text
  textHash := text
  importanceCurrent := 1 / 2
  confidence := 1
  status := .active
  trust := .trusted
  sourceKind := .user
  createdAt := 0
  updatedAt := 0

def sampleWords (text : String) : List String := [text]

def sampleStore : Indexed ℚ :=
  let memories := [sampleMemory 1 "sky", sampleMemory 2 "sea"]
  { conn := { agentId := "a", db := {
      memories, memorySeq := 2
      versions := [{ memoryId := 1, version := 1, text := "sky", textHash := "sky", createdAt := 0 },
        { memoryId := 2, version := 1, text := "sea", textHash := "sea", createdAt := 0 }]
      links := [⟨1, 2, "refines", 0⟩], recallItems := [⟨1, 1⟩], pins := [⟨1, 0, "user"⟩] } }
    fts := TextIndex.exact sampleWords (memories.map docOf) }

/-- The purge of the first memory commits. -/
theorem purge_sample : Committed sampleWords 1 ⟨"m1", "sky", 5⟩ sampleStore
    (purgeRows sampleEnv sampleWords 1 sampleStore).2 := by
  have hok : (purgeRows sampleEnv sampleWords 1 sampleStore).1 = .ok ⟨"m1", "sky", 5⟩ := by
    decide +kernel
  exact (purge_complete sampleEnv sampleWords 1 sampleStore ⟨by decide +kernel, rfl⟩).1 _ _
    (Prod.ext hok rfl)

end AgosMemory.Purge
