import AgosMemory.Library.Faulty
import AgosMemory.Runs.Clients
import AgosMemory.Storage.Succeeds
import Mathlib.Data.Multiset.Filter

/-!
# Half-done writes

A writer closure runs in autocommit mode, so each of its statements is a transaction of its own, and a
failure or a crash leaves what the statements before it wrote. What is left is all or nothing exactly if
at most one of the statements writes anything.
-/

namespace AgosMemory.Halves

open Library Library.Faulty Store Persist

variable {F : Type} [F64 F]

/-- The tables of a database. No order is kept for the pins, whose upsert is not an insert. -/
def tables (db : Db F) : Db F × Multiset Pin :=
  ({ db with vecLog := [], pins := [], merged := [], rewrites := [], bumps := [], restated := [] },
    ↑db.pins)

def view (c : Conn F) : Db F × Multiset Pin := tables c.db

/-- An environment whose statements fail where they are told to. -/
def struck (env : Env F) (fault : Nat → Bool) : Env F := { env with fault }

/-- Whatever statement fails, and wherever the process dies, the closure has done nothing or all of its
work. -/
def Atomic {α : Type} (env : Env F) (m : Env F → Write F α) (c : Conn F) : Prop :=
  AllOrNothing view (fun fault => m (struck env fault)) c

/-! ## Tables -/

section

variable {a b : Db F}

omit [F64 F] in
theorem tables_eq_iff : tables a = tables b ↔ a.embedDim = b.embedDim ∧ a.memories = b.memories ∧
    a.memorySeq = b.memorySeq ∧ a.versions = b.versions ∧ a.links = b.links ∧ a.vecs = b.vecs ∧
    a.recallItems = b.recallItems ∧ a.tombstones = b.tombstones ∧ a.forgetAudit = b.forgetAudit ∧
    a.sessions = b.sessions ∧ a.sessionSeq = b.sessionSeq ∧ a.turns = b.turns ∧
    a.manifest = b.manifest ∧ a.pins.Perm b.pins := by
  unfold tables
  simp only [Prod.mk.injEq, Db.mk.injEq, Multiset.coe_eq_coe, true_and, and_true, and_assoc]

/-- Nothing is written to the rows with an id. -/
def RowsKeep (db : Db F) (id : Int) (f : Memory F → Memory F) : Prop :=
  ∀ m ∈ db.memories, m.id = id → f m = m

def VecsKeep (db : Db F) (id : Int) (f : VecRow F → VecRow F) : Prop :=
  ∀ v ∈ db.vecs, v.rowid = id → f v = v

theorem map_ite_eq_self {γ : Type} {l : List γ} {p : γ → Prop} [DecidablePred p] {f : γ → γ} :
    l.map (fun x => if p x then f x else x) = l ↔ ∀ x ∈ l, p x → f x = x := by
  induction l with
  | nil => exact iff_of_true rfl (List.forall_mem_nil _)
  | cons x l ih =>
    rw [List.map_cons, List.cons.injEq, ih, List.forall_mem_cons]
    by_cases hx : p x
    · rw [if_pos hx, forall_prop_of_true hx]
    · rw [if_neg hx, forall_prop_of_false hx, eq_self_iff_true]

omit [F64 F] in
theorem updateMemory_keep {id : Int} {f : Memory F → Memory F} :
    (a.updateMemory id f).memories = a.memories ↔ RowsKeep a id f := map_ite_eq_self

omit [F64 F] in
theorem updateVec_keep {id : Int} {f : VecRow F → VecRow F} :
    (a.updateVec id f).vecs = a.vecs ↔ VecsKeep a id f := map_ite_eq_self

end

/-! ## Statements -/

section

variable {env : Env F} {c : Conn F}

omit [F64 F] in
private theorem statement_exec {α : Type} (f : Db F → Except Error (α × Db F)) :
    Statement Conn.stmts view (fun fault => exec (struck env fault) f) c
      (exec (struck env fun _ => false) f c) where
  faulty fault h := ⟨_, _, exec_of_fault h, rfl⟩
  plain fault h := by
    cases hf : f c.db with
    | ok p => exact (exec_of_ok h hf).trans (exec_of_ok rfl hf).symm
    | error e => exact (exec_of_error h hf).trans (exec_of_error rfl hf).symm
  next := exec_stmts f c

omit [F64 F] in
theorem runs_exec {α : Type} {f : Db F → Except Error (α × Db F)} {a : α} {d : Db F}
    (h : f c.db = .ok (a, d)) :
    Runs Conn.stmts view (fun fault => exec (struck env fault) f) c [tables c.db]
      [(a, { c with stmts := c.stmts + 1, db := d })] := by
  have hrun : exec (struck env fun _ => false) f c =
      (.ok a, { c with stmts := c.stmts + 1, db := d }) := exec_of_ok rfl h
  refine runs_statement ?_
  rw [← hrun]
  exact statement_exec f

omit [F64 F] in
theorem halts_exec {α : Type} {f : Db F → Except Error (α × Db F)} {e : Error}
    (h : f c.db = .error e) :
    Runs Conn.stmts view (fun fault => exec (struck env fault) f) c [tables c.db] [] := by
  have hrun : exec (struck env fun _ => false) f c = (.error e, { c with stmts := c.stmts + 1 }) :=
    exec_of_error rfl h
  have hstatement : Statement Conn.stmts view (fun fault => exec (struck env fault) f) c _ :=
    statement_exec f
  rw [hrun] at hstatement
  exact runs_refused hstatement rfl

omit [F64 F] in
theorem runs_query {α : Type} {f : Db F → Except Error α} {a : α} (h : f c.db = .ok a) :
    Runs Conn.stmts view (fun fault => query (struck env fault) f) c [tables c.db]
      [(a, { c with stmts := c.stmts + 1 })] := by
  have hexec : (fun db => (f db).map fun a => (a, db)) c.db = .ok (a, c.db) := by
    dsimp only
    rw [h]
    rfl
  exact runs_exec hexec

omit [F64 F] in
private theorem halts_query {α : Type} {f : Db F → Except Error α} {e : Error}
    (h : f c.db = .error e) :
    Runs Conn.stmts view (fun fault => query (struck env fault) f) c [tables c.db] [] := by
  have hexec : (fun db => (f db).map fun a => (a, db)) c.db = .error e := by
    dsimp only
    rw [h]
    rfl
  exact halts_exec hexec

omit [F64 F] in
theorem runs_run {f : Db F → Db F} :
    Runs Conn.stmts view (fun fault => run (struck env fault) f) c [tables c.db]
      [((), { c with stmts := c.stmts + 1, db := f c.db })] := runs_exec rfl

omit [F64 F] in
theorem runs_now : Runs Conn.stmts view (fun fault => nowMillis (struck env fault)) c []
    [(env.clock c.ticks, { c with ticks := c.ticks + 1 })] := runs_free (fun _ => rfl) rfl

omit [F64 F] in
private theorem runs_uuid : Runs Conn.stmts view (fun fault => newUuid (struck env fault)) c []
    [(env.uuid c.uuids, { c with uuids := c.uuids + 1 })] := runs_free (fun _ => rfl) rfl

omit [F64 F] in
private theorem runs_get :
    Runs Conn.stmts view (fun _ => (Program.get : Write F (Conn F))) c [] [(c, c)] :=
  runs_free (fun _ => rfl) rfl

omit [F64 F] in
theorem runs_pure {α : Type} (a : α) :
    Runs Conn.stmts view (fun _ => (pure a : Write F α)) c [] [(a, c)] := runs_free (fun _ => rfl) rfl

/-! ## Inserts -/

/-- The `INSERT INTO memories` is refused. -/
def Refused (r : NewRow F) (db : Db F) : Prop := ∃ e, insertMemoryRow r db = .error e

section

variable {α : Type} {m : Env F → Write F α} {stops : List (Db F × Multiset Pin)}
  {ends : List (α × Conn F)}

omit [F64 F] in
theorem atomic_iff (h : Runs Conn.stmts view (fun fault => m (struck env fault)) c stops ends) :
    Atomic env m c ↔ ∀ d ∈ stops, d = tables c.db ∨ ∃ p ∈ ends, d = tables p.2.db :=
  h.allOrNothing_iff

omit [F64 F] in
theorem atomic_unwritten
    (h : Runs Conn.stmts view (fun fault => m (struck env fault)) c stops ends)
    (hstops : ∀ d ∈ stops, d = tables c.db) : Atomic env m c :=
  (atomic_iff h).mpr fun d hd => .inl (hstops d hd)

/-- A closure that may stop between a row and its first version. -/
private theorem not_atomic_inserted {r : NewRow F} {d : Db F} {row : Memory F}
    (h : Runs Conn.stmts view (fun fault => m (struck env fault)) c stops ends)
    (hrow : insertMemoryRow r c.db = .ok (row, d)) (hd : tables d ∈ stops)
    (hends : ∀ p ∈ ends, p.2.db.versions.length = d.versions.length + 1) :
    ¬ Atomic env m c := by
  intro hatomic
  rcases (atomic_iff h).mp hatomic _ hd with hsame | ⟨p, hp, hsame⟩
  · have hlength := congrArg List.length (tables_eq_iff.mp hsame).2.1
    obtain ⟨-, -, rfl⟩ := insertMemoryRow_ok hrow
    rw [List.length_append, List.length_singleton] at hlength
    omega
  · have hlength := congrArg List.length (tables_eq_iff.mp hsame).2.2.2.1
    rw [hends p hp] at hlength
    omega

end

/-- The row of `insert_memory`. -/
def memoryRow (env : Env F) (c : Conn F) (m : NewMemory) : NewRow F where
  publicId := env.uuid c.uuids
  agentId := c.agentId
  tier := m.tier
  kind := m.kind
  text := m.text
  textHash := env.sha256Hex m.text
  confidence := F64.ofRat 1
  status := "active"
  trust := trustForSourceKind m.sourceKind
  sourceKind := m.sourceKind
  createdAt := env.clock c.ticks
  updatedAt := env.clock c.ticks

/-- A text or a name that is too long. -/
def TooLong (m : NewMemory) : Prop :=
  maxMemoryTextSize < m.text.utf8ByteSize ∨ 64 < m.tier.utf8ByteSize ∨ 64 < m.kind.utf8ByteSize ∨
    64 < m.sourceKind.utf8ByteSize

private theorem insertMemory_tooLong {m : NewMemory} (h : TooLong m) :
    Runs Conn.stmts view (fun fault => insertMemory (struck env fault) m) c [tables c.db] [] := by
  unfold insertMemory
  by_cases htext : maxMemoryTextSize < m.text.utf8ByteSize
  · simp only [if_pos htext]
    exact runs_fail (fun _ => rfl) rfl
  · simp only [if_neg htext, if_pos (h.resolve_left htext)]
    exact runs_fail (fun _ => rfl) rfl

private theorem insertMemory_refused {m : NewMemory} (hsize : ¬ TooLong m)
    (h : Refused (memoryRow env c m) c.db) :
    Runs Conn.stmts view (fun fault => insertMemory (struck env fault) m) c [tables c.db] [] := by
  obtain ⟨htext, hnames⟩ := not_or.mp hsize
  obtain ⟨e, he⟩ := h
  unfold insertMemory
  simp only [if_neg htext, if_neg hnames]
  refine runs_uuid.next rfl ?_
  refine runs_now.next rfl ?_
  refine runs_get.next rfl ?_
  exact Runs.halt (halts_exec (f := insertMemoryRow (memoryRow env c m)) (e := e) (by exact he)) _

/-- The first version of a row. -/
def firstVersion (env : Env F) (id : Int) (text : String) (now : Int) : MemoryVersion where
  memoryId := id
  version := 1
  text := text
  textHash := env.sha256Hex text
  createdAt := now

private theorem insertMemory_runs {m : NewMemory} (hsize : ¬ TooLong m) {row : Memory F} {d : Db F}
    (h : insertMemoryRow (memoryRow env c m) c.db = .ok (row, d)) : ∃ ends,
      Runs Conn.stmts view (fun fault => insertMemory (struck env fault) m) c
        [tables c.db, tables d] ends ∧
      ∀ p ∈ ends, p.2.db.versions.length = d.versions.length + 1 := by
  obtain ⟨htext, hnames⟩ := not_or.mp hsize
  unfold insertMemory
  simp only [if_neg htext, if_neg hnames]
  cases hversion : insertVersion (firstVersion env row.id m.text (env.clock c.ticks)) d with
  | error e =>
    refine ⟨[], ?_, List.forall_mem_nil _⟩
    refine runs_uuid.next rfl ?_
    refine runs_now.next rfl ?_
    refine runs_get.next rfl ?_
    refine Runs.next (runs_exec (f := insertMemoryRow (memoryRow env c m)) (a := row) (d := d)
      (by exact h)) rfl ?_
    exact Runs.halt (halts_exec (f := insertVersion (firstVersion env row.id m.text
      (env.clock c.ticks))) (e := e) (by exact hversion)) _
  | ok r =>
    obtain ⟨⟨⟩, d'⟩ := r
    refine ⟨[(rowOf row, { c with
      stmts := c.stmts + 2, ticks := c.ticks + 1, uuids := c.uuids + 1, db := d' })], ?_, ?_⟩
    · refine runs_uuid.next rfl ?_
      refine runs_now.next rfl ?_
      refine runs_get.next rfl ?_
      refine Runs.next (runs_exec (f := insertMemoryRow (memoryRow env c m)) (a := row) (d := d)
        (by exact h)) rfl ?_
      refine Runs.next (runs_exec (f := insertVersion (firstVersion env row.id m.text
        (env.clock c.ticks))) (a := ()) (d := d') (by exact hversion)) rfl ?_
      exact runs_pure _
    · refine List.forall_mem_singleton.mpr ?_
      rw [(insertVersion_ok hversion).2.2]
      exact List.length_append

theorem insertMemory_atomic_iff (m : NewMemory) :
    Atomic env (fun env => insertMemory env m) c ↔
      TooLong m ∨ Refused (memoryRow env c m) c.db := by
  by_cases hsize : TooLong m
  · have hnone : Atomic env (fun env => insertMemory env m) c :=
      atomic_unwritten (insertMemory_tooLong hsize) fun d hd => List.mem_singleton.mp hd
    exact iff_of_true hnone (.inl hsize)
  cases hrow : insertMemoryRow (memoryRow env c m) c.db with
  | error e =>
    have hrefused : Refused (memoryRow env c m) c.db := ⟨e, hrow⟩
    have hnone : Atomic env (fun env => insertMemory env m) c :=
      atomic_unwritten (insertMemory_refused hsize hrefused) fun d hd => List.mem_singleton.mp hd
    exact iff_of_true hnone (.inr hrefused)
  | ok r =>
    obtain ⟨row, d⟩ := r
    have haccepted : ¬ Refused (memoryRow env c m) c.db := by
      rintro ⟨e, he⟩
      rw [hrow] at he
      cases he
    obtain ⟨ends, hruns, hends⟩ := insertMemory_runs hsize hrow
    have hstop := List.mem_cons_of_mem (tables c.db) (List.mem_singleton_self (tables d))
    exact iff_of_false (not_atomic_inserted hruns hrow hstop hends) (not_or.mpr ⟨hsize, haccepted⟩)

section

variable {cand : Candidate F} {text ev sk : String} {pending : F} {embedded : Embedded} {now : Int}

/-- The row of a fresh candidate. -/
def candidateRow (env : Env F) (c : Conn F) (cand : Candidate F) (text ev sk : String) (pending : F)
    (embedded : Embedded) (now : Int) : NewRow F :=
  freshRow env c.agentId (env.uuid c.uuids) cand text ev sk pending embedded now

private theorem insertFresh_refused
    (h : Refused (candidateRow env c cand text ev sk pending embedded now) c.db) :
    Runs Conn.stmts view
      (fun fault => insertFresh (struck env fault) cand text ev sk pending embedded now) c
      [tables c.db] [] := by
  obtain ⟨e, he⟩ := h
  unfold insertFresh
  refine runs_uuid.next rfl ?_
  refine runs_get.next rfl ?_
  exact Runs.halt (halts_exec (f := insertMemoryRow (candidateRow env c cand text ev sk pending
    embedded now)) (e := e) (by exact he)) _

/-- The row is there before its first version. -/
private theorem insertFresh_runs {row : Memory F} {d : Db F}
    (h : insertMemoryRow (candidateRow env c cand text ev sk pending embedded now) c.db =
      .ok (row, d)) : ∃ ends,
    Runs Conn.stmts view
      (fun fault => insertFresh (struck env fault) cand text ev sk pending embedded now) c
      [tables c.db, tables d] ends ∧
    (ends = [] ∨ ∃ t, ends = [(row, t)] ∧ t.db.versions.length = d.versions.length + 1) := by
  unfold insertFresh
  cases hversion : insertVersion (firstVersion env row.id text now) d with
  | error e =>
    refine ⟨[], ?_, .inl rfl⟩
    refine runs_uuid.next rfl ?_
    refine runs_get.next rfl ?_
    refine Runs.next (runs_exec (f := insertMemoryRow (candidateRow env c cand text ev sk pending
      embedded now)) (a := row) (d := d) (by exact h)) rfl ?_
    exact Runs.halt (halts_exec (f := insertVersion (firstVersion env row.id text now)) (e := e)
      (by exact hversion)) _
  | ok r =>
    obtain ⟨⟨⟩, d'⟩ := r
    refine ⟨[(row, { c with stmts := c.stmts + 2, uuids := c.uuids + 1, db := d' })], ?_,
      .inr ⟨_, rfl, ?_⟩⟩
    · refine runs_uuid.next rfl ?_
      refine runs_get.next rfl ?_
      refine Runs.next (runs_exec (f := insertMemoryRow (candidateRow env c cand text ev sk pending
        embedded now)) (a := row) (d := d) (by exact h)) rfl ?_
      refine Runs.next (runs_exec (f := insertVersion (firstVersion env row.id text now)) (a := ())
        (d := d') (by exact hversion)) rfl ?_
      exact runs_pure _
    · rw [(insertVersion_ok hversion).2.2]
      exact List.length_append

/-- A closure that looks for a duplicate, finds none and inserts is atomic only if the insert is
refused: it may stop between the row and its first version. -/
private theorem fresh_atomic_iff {α : Type} {m : Env F → Write F α}
    {f : Db F → Except Error (Option Int)}
    {other : (Nat → Bool) → Int → Int → Write F α} {rest : (Nat → Bool) → Memory F → Write F α}
    (hm : ∀ fault, m (struck env fault) = do
      let now ← nowMillis (struck env fault)
      match ← query (struck env fault) f with
      | some id => other fault now id
      | none => do
        let row ← insertFresh (struck env fault) cand text ev sk pending embedded now
        rest fault row)
    (hfind : f c.db = .ok none)
    (hrest : ∀ row t, ∃ stops ends,
      Runs Conn.stmts view (fun fault => rest fault row) t stops ends ∧
      ∀ p ∈ ends, p.2.db.versions = t.db.versions) :
    Atomic env m c ↔
      Refused (candidateRow env c cand text ev sk pending embedded (env.clock c.ticks)) c.db := by
  have hstart : ∀ {stops : List (Db F × Multiset Pin)} {ends : List (α × Conn F)},
      Runs Conn.stmts view (fun fault => insertFresh (struck env fault) cand text ev sk pending
          embedded (env.clock c.ticks) >>= rest fault)
        { c with ticks := c.ticks + 1, stmts := c.stmts + 1 } stops ends →
      Runs Conn.stmts view (fun fault => m (struck env fault)) c (tables c.db :: stops) ends :=
    fun h => by
      rw [funext hm]
      refine runs_now.next rfl ?_
      refine Runs.next (runs_query (f := f) (a := none) (by exact hfind)) rfl ?_
      exact h
  cases hrow : insertMemoryRow (candidateRow env c cand text ev sk pending embedded
      (env.clock c.ticks)) c.db with
  | error e =>
    have hfresh : Runs Conn.stmts view (fun fault => insertFresh (struck env fault) cand text ev sk
        pending embedded (env.clock c.ticks))
        { c with ticks := c.ticks + 1, stmts := c.stmts + 1 } [tables c.db] [] :=
      insertFresh_refused ⟨e, hrow⟩
    have hnone : Atomic env m c := atomic_unwritten (hstart (hfresh.halt _)) fun d hd => by
      rcases List.mem_cons.mp hd with rfl | hd
      · rfl
      · exact List.mem_singleton.mp hd
    exact iff_of_true hnone ⟨e, hrow⟩
  | ok r =>
    obtain ⟨row, d⟩ := r
    refine iff_of_false ?_ (by rintro ⟨e, he⟩; rw [hrow] at he; cases he)
    obtain ⟨ends, hfresh, rfl | ⟨t, rfl, hlength⟩⟩ :=
      insertFresh_runs (c := { c with ticks := c.ticks + 1, stmts := c.stmts + 1 }) hrow
    · refine not_atomic_inserted (hstart (hfresh.halt _)) hrow ?_ (List.forall_mem_nil _)
      exact List.mem_cons_of_mem _ (List.mem_cons_of_mem _ List.mem_cons_self)
    · obtain ⟨stops, ends', hruns, hends⟩ := hrest row t
      refine not_atomic_inserted (hstart (hfresh.next rfl hruns)) hrow ?_ fun p hp => ?_
      · exact List.mem_cons_of_mem _ (List.mem_cons_of_mem _ List.mem_cons_self)
      · rw [hends p hp]
        exact hlength

end

/-! ## Bumps -/

section

variable {id now : Int} {sk : String} {shape : BumpShape}

/-- A memory with its `refines` link to itself. -/
def Linked (db : Db F) (id : Int) : Prop :=
  ∃ l ∈ db.links, l.fromMemoryId = id ∧ l.toMemoryId = id ∧ l.kind = "refines"

/-- What `linkRefines` leaves of a memory that is there. -/
def linked (b : Bool) (id now : Int) (db : Db F) : Db F :=
  if b ∧ ¬ db.links.any fun l => l.fromMemoryId = id ∧ l.toMemoryId = id ∧ l.kind = "refines" then
    { db with links := db.links ++ [⟨id, id, "refines", now⟩] }
  else db

/-- What setting the trust code of a vector leaves. -/
def recoded (b : Bool) (id code : Int) (db : Db F) : Db F :=
  if b then db.updateVec id fun v => { v with trust := code } else db

omit [F64 F] in
private theorem linkRefines_eq {db : Db F} (h : (db.memory? id).isSome) :
    linkRefines id now db = .ok ((), linked true id now db) := by
  unfold linkRefines linked
  rw [if_neg (by rw [Option.isNone_iff_eq_none]; exact Option.isSome_iff_ne_none.mp h)]
  by_cases hany : (db.links.any fun l =>
      l.fromMemoryId = id ∧ l.toMemoryId = id ∧ l.kind = "refines") = true
  · rw [if_pos hany, if_neg fun hnot => hnot.2 hany]
  · rw [if_neg hany, if_pos ⟨rfl, hany⟩]

omit [F64 F] in
private theorem linked_keep {b : Bool} {db : Db F} :
    (linked b id now db).links = db.links ↔ (b = true → Linked db id) := by
  unfold linked
  by_cases hany : (db.links.any fun l =>
      l.fromMemoryId = id ∧ l.toMemoryId = id ∧ l.kind = "refines") = true
  · rw [if_neg fun hnot => hnot.2 hany]
    refine iff_of_true rfl fun _ => ?_
    obtain ⟨l, hl, heq⟩ := List.any_eq_true.mp hany
    exact ⟨l, hl, of_decide_eq_true heq⟩
  · cases b with
    | false =>
      rw [if_neg fun hnot => Bool.false_ne_true hnot.1]
      exact iff_of_true rfl nofun
    | true =>
      rw [if_pos ⟨rfl, hany⟩]
      refine iff_of_false (fun hsame => ?_) fun hlink => hany ?_
      · have hlength := congrArg List.length hsame
        rw [List.length_append, List.length_singleton] at hlength
        omega
      · obtain ⟨l, hl, heq⟩ := hlink rfl
        exact List.any_eq_true.mpr ⟨l, hl, decide_eq_true heq⟩

omit [F64 F] in
private theorem recoded_keep {b : Bool} {code : Int} {db : Db F} :
    (recoded b id code db).vecs = db.vecs ↔
      (b = true → VecsKeep db id fun v => { v with trust := code }) := by
  cases b with
  | false => exact iff_of_true rfl nofun
  | true => exact updateVec_keep.trans ⟨fun h _ => h, fun h => h rfl⟩

variable (env now) in
omit [F64 F] in
/-- The statements of a bump after its `UPDATE`. -/
private theorem tail_runs (vec link : Bool) {code : Int} (h : (c.db.memory? id).isSome) : ∃ stops t,
    Runs Conn.stmts view (fun fault => do
        Program.onlyIf vec (run (struck env fault) fun db => db.updateVec id fun v =>
          { v with trust := code })
        Program.onlyIf link (exec (struck env fault) (linkRefines id now))) c stops [((), t)] ∧
      t.db = linked link id now (recoded vec id code c.db) ∧
      ∀ d, d ∈ stops ↔ vec = true ∧ d = tables c.db ∨
        link = true ∧ d = tables (recoded vec id code c.db) := by
  cases vec with
  | false =>
    cases link with
    | false =>
      refine ⟨[], c, Runs.next (runs_pure ()) rfl (runs_pure ()), rfl, fun d => ?_⟩
      simp
    | true =>
      refine ⟨[tables c.db], { c with stmts := c.stmts + 1, db := linked true id now c.db },
        Runs.next (runs_pure ()) rfl ?_, rfl, fun d => ?_⟩
      · exact runs_exec (f := linkRefines id now) (linkRefines_eq h)
      · simp [recoded]
  | true =>
    cases link with
    | false =>
      refine ⟨[tables c.db], { c with stmts := c.stmts + 1, db := recoded true id code c.db },
        ?_, rfl, fun d => ?_⟩
      · refine Runs.next (runs_run (f := recoded true id code)) rfl ?_
        exact runs_pure ()
      · simp
    | true =>
      refine ⟨[tables c.db, tables (recoded true id code c.db)], { c with
          stmts := c.stmts + 2, db := linked true id now (recoded true id code c.db) },
        ?_, rfl, fun d => ?_⟩
      · refine Runs.next (runs_run (f := recoded true id code)) rfl ?_
        exact runs_exec (f := linkRefines id now) (linkRefines_eq (by exact h))
      · simp

omit [F64 F] in
theorem tables_recoded_eq {b : Bool} {code : Int} {db : Db F}
    (h : b = true → VecsKeep db id fun v => { v with trust := code }) :
    tables (recoded b id code db) = tables db := by
  cases b with
  | false => rfl
  | true =>
    exact tables_eq_iff.mpr ⟨rfl, rfl, rfl, rfl, rfl, updateVec_keep.mpr (h rfl), rfl, rfl, rfl, rfl,
      rfl, rfl, rfl, .refl _⟩

omit [F64 F] in
private theorem linked_eq {b : Bool} {db : Db F} (h : b = true → Linked db id) :
    linked b id now db = db := by
  unfold linked
  refine if_neg fun hnot => ?_
  obtain ⟨l, hl, heq⟩ := h hnot.1
  exact hnot.2 (List.any_eq_true.mpr ⟨l, hl, decide_eq_true heq⟩)

omit [F64 F] in
private theorem tables_linked {b : Bool} {db : Db F} :
    tables db = tables (linked b id now db) ↔ (b = true → Linked db id) := by
  refine ⟨fun h => linked_keep.mp (tables_eq_iff.mp h).2.2.2.2.1.symm, fun h => ?_⟩
  rw [linked_eq h]

omit [F64 F] in
private theorem tables_tail {vec link : Bool} {code : Int} {db : Db F} :
    tables db = tables (linked link id now (recoded vec id code db)) ↔
      (vec = true → VecsKeep db id fun v => { v with trust := code }) ∧
        (link = true → Linked db id) := by
  have hlinks : (recoded vec id code db).links = db.links := by
    unfold recoded
    split <;> rfl
  constructor
  · intro h
    have hvecs : (linked link id now (recoded vec id code db)).vecs = (recoded vec id code db).vecs := by
      unfold linked
      split <;> rfl
    obtain ⟨-, -, -, -, hsame, hkeep, -⟩ := tables_eq_iff.mp h
    refine ⟨recoded_keep.mp (hvecs.symm.trans hkeep.symm), fun hlink => ?_⟩
    obtain ⟨l, hl, heq⟩ := linked_keep.mp (hsame.symm.trans hlinks.symm) hlink
    exact ⟨l, hlinks ▸ hl, heq⟩
  · rintro ⟨hvec, hlink⟩
    have hlink' : link = true → Linked (recoded vec id code db) id := fun h => by
      obtain ⟨l, hl, heq⟩ := hlink h
      exact ⟨l, hlinks ▸ hl, heq⟩
    rw [linked_eq hlink', tables_recoded_eq hvec]

omit [F64 F] in
private theorem mergeSource_refused {trust : Trust} {kept incoming : String} {cluster : Option String}
    {db : Db F} {m : Memory F} (hm : db.memory? id = some m) (h : SourceKind.ofSql? kept = none) :
    ∃ e, mergeSource shape id trust kept incoming cluster now db = .error e := by
  unfold mergeSource setProvenance
  rw [hm, h]
  exact ⟨_, rfl⟩

omit [F64 F] in
private theorem clusterOf_runs (env : Env F) (shape : BumpShape) (id : Int) (c : Conn F) :
    ∃ cluster stops t,
    Runs Conn.stmts view (fun fault => clusterOf (struck env fault) shape id) c stops
      [(cluster, t)] ∧ t.db = c.db ∧ ∀ d ∈ stops, d = tables c.db := by
  unfold clusterOf
  cases shape.cluster with
  | false => exact ⟨none, [], c, runs_pure none, rfl, List.forall_mem_nil _⟩
  | true => exact ⟨_, _, _, runs_query rfl, rfl, fun d hd => List.mem_singleton.mp hd⟩

omit [F64 F] in
theorem runs_find {m : Memory F} (hm : c.db.memory? id = some m) :
    Runs Conn.stmts view (fun fault => query (struck env fault) fun db => one (db.memory? id)) c
      [tables c.db] [(m, { c with stmts := c.stmts + 1 })] := by
  refine runs_query ?_
  rw [hm]
  rfl

omit [F64 F] in
private theorem halts_find (hm : c.db.memory? id = none) :
    Runs Conn.stmts view (fun fault => query (struck env fault) fun db => one (db.memory? id)) c
      [tables c.db] [] := by
  refine halts_query (e := noRows) ?_
  rw [hm]
  rfl

omit [F64 F] in
/-- A bump that does not get to write. -/
private theorem bump_refused (h : ∀ m, c.db.memory? id = some m →
    SourceKind.ofSql? (sourceKindAfter m sk) = none) : ∃ stops,
      Runs Conn.stmts view (fun fault => bump (struck env fault) shape id sk now) c stops [] ∧
      ∀ d ∈ stops, d = tables c.db := by
  unfold bump
  cases hm : c.db.memory? id with
  | none => exact ⟨_, (halts_find hm).halt _, fun d hd => List.mem_singleton.mp hd⟩
  | some m =>
    obtain ⟨cluster, stops, t, hcluster, hdb, hstops⟩ :=
      clusterOf_runs env shape id { c with stmts := c.stmts + 1 }
    obtain ⟨e, he⟩ : ∃ e, mergeSource shape id (trustAfterSource m.trust sk) (sourceKindAfter m sk)
        sk cluster now t.db = .error e := mergeSource_refused (hdb ▸ hm) (h m hm)
    refine ⟨_, (runs_find hm).next rfl (hcluster.next rfl ((halts_exec he).halt _)), fun d hd => ?_⟩
    rcases List.mem_append.mp hd with hd | hd
    · exact List.mem_singleton.mp hd
    rcases List.mem_append.mp hd with hd | hd
    · exact hstops d hd
    · rw [List.mem_singleton.mp hd, hdb]

omit [F64 F] in
theorem found_of_ids {a b : Db F} (hsame : b.memories.map Memory.id = a.memories.map Memory.id)
    (h : (a.memory? id).isSome) : (b.memory? id).isSome := by
  rw [Option.isSome_iff_exists, memory?_found] at h ⊢
  rw [hsame]
  exact h

omit [F64 F] in
private theorem mergeSource_accepted {trust : Trust} {kept incoming : String} {kind : SourceKind}
    {cluster : Option String} {db : Db F} {m : Memory F} (hm : db.memory? id = some m)
    (h : SourceKind.ofSql? kept = some kind) : ∃ d,
      mergeSource shape id trust kept incoming cluster now db = .ok ((), d) ∧
      d.memories ≠ db.memories ∧ d.vecs = db.vecs ∧ d.links = db.links ∧ (d.memory? id).isSome := by
  obtain ⟨⟨⟨⟩, d⟩, hd⟩ :
      ∃ r, mergeSource shape id trust kept incoming cluster now db = .ok r :=
    mergeSource_succeeds (Option.isSome_of_mem h)
  obtain ⟨hmem, hid⟩ := memory?_some hm
  obtain ⟨sk, -, rfl⟩ := mergeSource_ok hm hd
  refine ⟨_, hd, fun hsame => ?_, rfl, rfl, ?_⟩
  · have hcount := congrArg Memory.refCount (updateMemory_keep.mp hsame m hmem hid)
    have hmore : m.refCount + 1 = m.refCount := hcount
    omega
  · refine found_of_ids (a := db) ?_ (Option.isSome_of_mem hm)
    exact map_updateMemory fun _ => rfl

variable (env shape now) in
omit [F64 F] in
/-- A bump that writes: the row, and then what its shape says. -/
private theorem bump_runs {m : Memory F} {kind : SourceKind} (hm : c.db.memory? id = some m)
    (hkind : SourceKind.ofSql? (sourceKindAfter m sk) = some kind) : ∃ d stops t,
      Runs Conn.stmts view (fun fault => bump (struck env fault) shape id sk now) c stops [((), t)] ∧
      d.memories ≠ c.db.memories ∧ d.vecs = c.db.vecs ∧ d.links = c.db.links ∧
      t.db = linked shape.link id now
        (recoded shape.vec id (trustAfterSource m.trust sk).code d) ∧
      (t.db.memory? id).isSome ∧
      ∀ x, x ∈ stops ↔ x = tables c.db ∨ shape.vec = true ∧ x = tables d ∨
        shape.link = true ∧
          x = tables (recoded shape.vec id (trustAfterSource m.trust sk).code d) := by
  obtain ⟨cluster, stops, t, hcluster, hdb, hstops⟩ :=
    clusterOf_runs env shape id { c with stmts := c.stmts + 1 }
  have hm' : t.db.memory? id = some m := hdb ▸ hm
  obtain ⟨d, hmerge, hmemories, hvecs, hlinks, hfound⟩ : ∃ d, mergeSource shape id
      (trustAfterSource m.trust sk) (sourceKindAfter m sk) sk cluster now t.db = .ok ((), d) ∧
      d.memories ≠ t.db.memories ∧ d.vecs = t.db.vecs ∧ d.links = t.db.links ∧
      (d.memory? id).isSome := mergeSource_accepted hm' hkind
  rw [hdb] at hmemories hvecs hlinks
  obtain ⟨stops', t', htail, hdb', hstops'⟩ := tail_runs env now
    (c := { t with stmts := t.stmts + 1, db := d }) shape.vec shape.link hfound
  have hruns : Runs Conn.stmts view (fun fault => bump (struck env fault) shape id sk now) c
      ([tables c.db] ++ (stops ++ ([tables t.db] ++ stops'))) [((), t')] :=
    (runs_find hm).next rfl (hcluster.next rfl (Runs.next (runs_exec hmerge) rfl htail))
  refine ⟨d, _, t', hruns, hmemories, hvecs, hlinks, hdb', ?_, fun x => ?_⟩
  · rw [hdb']
    refine found_of_ids (a := d) ?_ hfound
    unfold linked recoded
    split <;> split <;> rfl
  · rw [List.mem_append, List.mem_append, List.mem_append, List.mem_singleton, List.mem_singleton,
      hstops', hdb]
    constructor
    · rintro (hx | hx | hx | hx)
      · exact .inl hx
      · exact .inl (hstops x hx)
      · exact .inl hx
      · exact .inr hx
    · rintro (hx | hx)
      · exact .inl hx
      · exact .inr (.inr (.inr hx))

/-- If the row is there and its source kind passes the `CHECK`, its `UPDATE` is all there is to write:
the vector has the trust code already, and the link is there. -/
def BumpAlone (shape : BumpShape) (id : Int) (sk : String) (db : Db F) : Prop :=
  ∀ m, db.memory? id = some m → SourceKind.ofSql? (sourceKindAfter m sk) ≠ none →
    (shape.vec = true →
      VecsKeep db id fun v => { v with trust := (trustAfterSource m.trust sk).code }) ∧
    (shape.link = true → Linked db id)

omit [F64 F] in
/-- A closure that looks for a duplicate and bumps the one it finds is atomic only if the bump writes
one row or none. -/
private theorem repeat_atomic_iff {m : Env F → Write F PersistReport}
    {f : Db F → Except Error (Option Int)} {fresh : (Nat → Bool) → Int → Write F PersistReport}
    (hm : ∀ fault, m (struck env fault) = do
      let now ← nowMillis (struck env fault)
      match ← query (struck env fault) f with
      | some id => do
        bump (struck env fault) shape id sk now
        let row ← query (struck env fault) fun db => one (db.memory? id)
        pure ⟨rowOf row, true⟩
      | none => fresh fault now)
    (hfind : f c.db = .ok (some id)) : Atomic env m c ↔ BumpAlone shape id sk c.db := by
  have hstart : ∀ {stops : List (Db F × Multiset Pin)} {ends : List (PersistReport × Conn F)},
      Runs Conn.stmts view (fun fault => do
          bump (struck env fault) shape id sk (env.clock c.ticks)
          let row ← query (struck env fault) fun db => one (db.memory? id)
          pure ⟨rowOf row, true⟩)
        { c with ticks := c.ticks + 1, stmts := c.stmts + 1 } stops ends →
      Runs Conn.stmts view (fun fault => m (struck env fault)) c (tables c.db :: stops) ends :=
    fun h => by
      rw [funext hm]
      refine runs_now.next rfl ?_
      refine Runs.next (runs_query (f := f) (a := some id) (by exact hfind)) rfl ?_
      exact h
  by_cases hwrites : ∃ m kind, c.db.memory? id = some m ∧
      SourceKind.ofSql? (sourceKindAfter m sk) = some kind
  · obtain ⟨row, kind, hrow, hkind⟩ := hwrites
    obtain ⟨d, stops, t, hbump, hmemories, hvecs, hlinks, hdb, hfound, hstops⟩ :=
      bump_runs env (env.clock c.ticks) shape
        (c := { c with ticks := c.ticks + 1, stmts := c.stmts + 1 }) hrow hkind
    obtain ⟨last, hlast⟩ := Option.isSome_iff_exists.mp hfound
    rw [atomic_iff (hstart (hbump.next rfl ((runs_find hlast).next rfl (runs_pure _))))]
    have hlinked : ∀ {b : Db F}, b.links = c.db.links → (Linked b id ↔ Linked c.db id) :=
      fun hsame => by
        unfold Linked
        rw [hsame]
    have hrecoded : ∀ b code, (recoded b id code d).links = c.db.links := fun b code => by
      rw [← hlinks]
      unfold recoded
      split <;> rfl
    constructor
    · intro hall row' hrow' _
      obtain rfl : row = row' := Option.some.inj (hrow.symm.trans hrow')
      have hend : ∀ x, x ≠ tables c.db → x ∈ stops → x = tables t.db := fun x hne hx => by
        rcases hall x (List.mem_cons_of_mem _ (List.mem_append_left _ hx)) with hsame | ⟨p, hp, hsame⟩
        · exact absurd hsame hne
        · rwa [List.mem_singleton.mp hp] at hsame
      rw [hdb] at hend
      refine ⟨fun hvec => ?_, fun hlink => ?_⟩
      · have hsame := hend (tables d) (fun h => hmemories (tables_eq_iff.mp h).2.1)
          ((hstops _).mpr (.inr (.inl ⟨hvec, rfl⟩)))
        have hkeep := (tables_tail.mp hsame).1 hvec
        unfold VecsKeep at hkeep ⊢
        rwa [hvecs] at hkeep
      · have hsame := hend _ (fun h => hmemories ?_) ((hstops _).mpr (.inr (.inr ⟨hlink, rfl⟩)))
        · exact (hlinked (hrecoded _ _)).mp (tables_linked.mp hsame hlink)
        · refine Eq.trans ?_ (tables_eq_iff.mp h).2.1
          unfold recoded
          split <;> rfl
    · intro halone
      obtain ⟨hvec, hlink⟩ := halone row hrow (by rw [hkind]; exact Option.some_ne_none _)
      have hvec' : shape.vec = true → VecsKeep d id fun v =>
          { v with trust := (trustAfterSource row.trust sk).code } := fun h => by
        have hkeep := hvec h
        unfold VecsKeep at hkeep ⊢
        rwa [hvecs]
      intro x hx
      rcases List.mem_cons.mp hx with rfl | hx
      · exact .inl rfl
      refine Or.imp_right (fun hsame => ⟨_, List.mem_singleton_self _, hsame⟩) ?_
      show x = tables c.db ∨ x = tables t.db
      rw [hdb]
      rcases List.mem_append.mp hx with hx | hx
      · rcases (hstops x).mp hx with rfl | ⟨_, rfl⟩ | ⟨_, rfl⟩
        · exact .inl rfl
        · exact .inr (tables_tail.mpr ⟨hvec', fun h => (hlinked hlinks).mpr (hlink h)⟩)
        · exact .inr (tables_linked.mpr fun h => (hlinked (hrecoded _ _)).mpr (hlink h))
      · rw [List.mem_append, List.mem_singleton] at hx
        refine .inr ?_
        rw [← hdb]
        exact hx.resolve_right (List.not_mem_nil)
  · have hnone : ∀ m, c.db.memory? id = some m →
        SourceKind.ofSql? (sourceKindAfter m sk) = none := fun m hm => by
      by_contra hkind
      obtain ⟨kind, hkind⟩ := Option.ne_none_iff_exists'.mp hkind
      exact hwrites ⟨m, kind, hm, hkind⟩
    obtain ⟨stops, hbump, hstops⟩ : ∃ stops, Runs Conn.stmts view (fun fault =>
        bump (struck env fault) shape id sk (env.clock c.ticks))
        { c with ticks := c.ticks + 1, stmts := c.stmts + 1 } stops [] ∧
        ∀ d ∈ stops, d = tables c.db := bump_refused hnone
    have hunwritten : Atomic env m c := atomic_unwritten (hstart (hbump.halt _)) fun d hd => by
      rcases List.mem_cons.mp hd with rfl | hd
      · rfl
      · exact hstops d hd
    exact iff_of_true hunwritten fun m hm hkind => absurd (hnone m hm) hkind

end

/-! ## Candidates -/

theorem persistEmbedded_atomic_iff (emb : Embedder F) (cand : Candidate F) (text ev sk : String)
    (pending dedup : F) (vec : List F) :
    Atomic env (fun env => persistEmbedded env emb cand text ev sk pending dedup vec) c ↔
      match duplicateOf env c.db vec cand.tier dedup with
      | some id => BumpAlone ⟨true, true, true⟩ id sk c.db
      | none => Refused (candidateRow env c cand text ev sk pending
          ⟨.ok, some emb.model, some vec.length⟩ (env.clock c.ticks)) c.db := by
  cases hfind : duplicateOf env c.db vec cand.tier dedup with
  | some id =>
    exact repeat_atomic_iff (f := fun db => .ok (duplicateOf env db vec cand.tier dedup))
      (fun fault => rfl) (congrArg Except.ok hfind)
  | none =>
    refine fresh_atomic_iff (f := fun db => .ok (duplicateOf env db vec cand.tier dedup))
      (fun fault => rfl) (congrArg Except.ok hfind) fun row t => ?_
    -- the vector leaves the versions as they are
    cases hvec : insertVec ⟨row.id, vec, row.tier, row.status.code, row.trust.code, row.kind, 0⟩
        t.db with
    | error e => exact ⟨_, _, (halts_exec hvec).halt _, List.forall_mem_nil _⟩
    | ok r =>
      obtain ⟨⟨⟩, d⟩ := r
      refine ⟨_, _, (runs_exec hvec).next rfl (runs_pure _), List.forall_mem_singleton.mpr ?_⟩
      rw [(insertVec_ok hvec).2]

theorem persistNoVector_atomic_iff (cand : Candidate F) (ev sk : String) (pending : F)
    (status : EmbedStatus) :
    Atomic env (fun env => persistCandidateNoVector env cand ev sk pending status) c ↔
      match (sameHash c.db (env.sha256Hex (Redact.redact cand.text))).map Memory.id with
      | some id => BumpAlone ⟨false, false, true⟩ id sk c.db
      | none => Refused (candidateRow env c cand (Redact.redact cand.text) ev sk pending
          ⟨status, none, none⟩ (env.clock c.ticks)) c.db := by
  cases hfind : (sameHash c.db (env.sha256Hex (Redact.redact cand.text))).map Memory.id with
  | some id =>
    exact repeat_atomic_iff
      (f := fun db => .ok ((sameHash db (env.sha256Hex (Redact.redact cand.text))).map Memory.id))
      (fun fault => rfl) (congrArg Except.ok hfind)
  | none =>
    refine fresh_atomic_iff
      (f := fun db => .ok ((sameHash db (env.sha256Hex (Redact.redact cand.text))).map Memory.id))
      (fun fault => rfl) (congrArg Except.ok hfind) fun row t => ?_
    exact ⟨_, _, runs_pure _, List.forall_mem_singleton.mpr rfl⟩

end

end AgosMemory.Halves
