import AgosMemory.Memory.Forget
import AgosMemory.SystemStatements

/-!
# The audit of forget requests

Requests of the three surfaces and of the reaper run beside the other operations. Each that reports
success is read against its own steps: the one that changed the memory and the one that appended to
`forget_audit`. The row is the right one exactly when no reason was given with a soft change or a
restore, and the memory that was looked up is still there when such a change is written.
-/

namespace AgosMemory.Forget

open Library Store
open Library.Client hiding fail lift onlyIf forEach foldEach attempt
open Library.Program (Moves bind_of_ok bind_of_error)

variable {F : Type} [F64 F] {env : Env F}

/-! ## Public ids -/

/-- A row keeps its public id, and a new row has a new id. -/
structure NamesKept (db db' : Db F) : Prop where
  seq : db.memorySeq ≤ db'.memorySeq
  names : ∀ m' ∈ db'.memories,
    db.memorySeq < m'.id ∨ ∃ m ∈ db.memories, m.id = m'.id ∧ m.publicId = m'.publicId

omit [F64 F] in
instance : Std.Refl (NamesKept (F := F)) where
  refl _ := ⟨Int.le_refl _, fun m' hm' => .inr ⟨m', hm', rfl, rfl⟩⟩

omit [F64 F] in
instance : IsTrans (Db F) NamesKept where
  trans a b c hab hbc := by
    refine ⟨Int.le_trans hab.seq hbc.seq, fun m'' hm'' => ?_⟩
    have hseq := hab.seq
    rcases hbc.names m'' hm'' with hgt | ⟨m', hm', hid', hname'⟩
    · exact .inl (by omega)
    rcases hab.names m' hm' with hgt | ⟨m, hm, hid, hname⟩
    · exact .inl (by omega)
    · exact .inr ⟨m, hm, hid.trans hid', hname.trans hname'⟩

section

variable {db db' : Db F}

omit [F64 F] in
private theorem named_same (hmem : db'.memories = db.memories) (hseq : db'.memorySeq = db.memorySeq) :
    Within Keyed NamesKept db db' := fun h =>
  ⟨h.congr hmem hseq, Int.le_of_eq hseq.symm, fun m' hm' => .inr ⟨m', hmem ▸ hm', rfl, rfl⟩⟩

omit [F64 F] in
private theorem named_updateMemory {id : Int} {f : Memory F → Memory F}
    (hmem : db'.memories = (db.updateMemory id f).memories) (hseq : db'.memorySeq = db.memorySeq)
    (hid : ∀ m, (f m).id = m.id) (hname : ∀ m, (f m).publicId = m.publicId) :
    Within Keyed NamesKept db db' := by
  refine fun h => ⟨h.updateMemory hmem hseq hid, Int.le_of_eq hseq.symm, fun m' hm' => .inr ?_⟩
  rw [hmem] at hm'
  obtain ⟨m, hm, rfl⟩ := mem_updateMemory.mp hm'
  refine ⟨m, hm, ?_⟩
  split
  · exact ⟨(hid m).symm, (hname m).symm⟩
  · exact ⟨rfl, rfl⟩

private theorem named_insertRow {r : NewRow F} {m : Memory F}
    (hrow : insertMemoryRow r db = .ok (m, db')) :
    Within Keyed NamesKept db db' := by
  refine fun h => ⟨h.insertRow hrow, ?_⟩
  obtain ⟨hbuilt, _, rfl⟩ := insertMemoryRow_ok hrow
  have hid : m.id = db.memorySeq + 1 := hbuilt.id
  refine ⟨?_, fun m' hm' => ?_⟩
  · show db.memorySeq ≤ m.id
    omega
  · rcases List.mem_append.mp hm' with hm' | hm'
    · exact .inr ⟨m', hm', rfl, rfl⟩
    · rw [List.mem_singleton.mp hm']
      exact .inl (by omega)

end

private theorem statements_named :
    Statements (fun _ : NewRow F => True) (Within Keyed NamesKept) where
  plain _ _ := trivial
  insertRow r m db db' _ hrow := named_insertRow hrow
  insertVersion v db db' hv := by
    obtain ⟨_, _, rfl⟩ := insertVersion_ok hv
    exact named_same rfl rfl
  insertVec m embedding db db' _ hv := by
    obtain ⟨_, rfl⟩ := insertVec_ok hv
    exact named_same rfl rfl
  merge shape id trust kept source cluster now db db' hmerge := by
    obtain ⟨sk, merged, bumps, rfl⟩ := mergeSource_update hmerge
    exact named_updateMemory rfl rfl (fun _ => rfl) fun _ => rfl
  link id now db db' hlink := by
    obtain ⟨links, rfl⟩ := linkRefines_ok hlink
    exact named_same rfl rfl
  retext id text hash trust kept source now db db' hr := by
    obtain ⟨sk, merged, rewrites, rfl⟩ := retext_update hr
    exact named_updateMemory rfl rfl (fun _ => rfl) fun _ => rfl
  vecTrust rowid trust db := named_same rfl rfl
  touch id f db hf := named_updateMemory rfl rfl (fun m => (hf.core m).id)
    fun m => (hf.core m).publicId
  deprecated id now db := named_updateMemory (f := fun m => { m with
    deletedAt := some now, updatedAt := now, status := .deprecated }) rfl rfl (fun _ => rfl)
    fun _ => rfl
  restored id now db := named_updateMemory (f := fun m => { m with
    deletedAt := none, updatedAt := now, status := .active }) rfl rfl (fun _ => rfl) fun _ => rfl
  purged id db db' hd h := by
    refine ⟨h.purge hd, ?_⟩
    rw [deletePhase_ok hd]
    exact ⟨Int.le_refl _, fun m' hm' => .inr ⟨m', (List.mem_filter.mp hm').1, rfl, rfl⟩⟩
  other db db' same := named_same same.memories same.memorySeq

private theorem closures_named :
    Closures env autocommit Keyed (NamesKept (F := F)) fun _ => True where
  toWriterClosures := statements_named.stamped.writerClosures _ fun id pinned requester =>
    onDb_setMemoryPinned
      (fun db code now => named_updateMemory (f := fun m => { m with
        pinned := code, updatedAt := now }) rfl rfl (fun _ => rfl) fun _ => rfl)
      (fun _ _ => named_same rfl rfl) fun _ _ _ => named_same rfl rfl
  summary id summary tokens := by
    refine Program.moves_bind (R := OnDb (Within Keyed NamesKept)) onDb_nowMillis fun now => ?_
    refine onDb_run fun db => ?_
    exact named_updateMemory (f := fun m => { m with
      summaryText := some summary, summaryTokens := some tokens, updatedAt := now }) rfl rfl
      (fun _ => rfl) fun _ => rfl

omit [F64 F] in
/-- The row with an id has the public id it had. -/
theorem NamesKept.memory? {db db' : Db F} (h : NamesKept db db') (hkeyed : Keyed db)
    {m m' : Memory F} (hm : m ∈ db.memories) (hm' : db'.memory? m.id = some m') :
    m'.publicId = m.publicId := by
  obtain ⟨hmem, hid⟩ := memory?_some hm'
  rcases h.names m' hmem with hgt | ⟨m₀, hm₀, hid₀, hname⟩
  · have hbound := hkeyed.idBound m hm
    omega
  · rw [← hname, hkeyed.row_eq hm₀ hm (hid₀.trans hid)]

/-! ## What a request owes -/

/-- The steps of a request, each with the states around it. -/
abbrev Steps (F : Type) := List (Conn F × Conn F)

def Target.names : Target → Memory F → Prop
  | .publicId name, m => m.publicId = name
  | .row id, m => m.id = id

/-- The row that a request works on, as the store has it when the request begins. -/
def Target.row? (db : Db F) : Target → Option Int
  | .publicId name => (db.byPublicId? name).map Memory.id
  | .row id => some id

/-- The change, made to one row. -/
def Change.Made (id : Int) (db db' : Db F) : Change → Prop
  | soft => ∃ now, db' = { db.updateMemory id fun m => { m with
      status := .deprecated, deletedAt := some now, updatedAt := now } with
      restated := db'.restated, forgetAudit := db'.forgetAudit }
  | restore => ∃ now, db' = { db.updateMemory id fun m => { m with
      status := .active, deletedAt := none, updatedAt := now } with
      restated := db'.restated, forgetAudit := db'.forgetAudit }
  | hard => deletePhase id db = .ok ((), db')

/-- An audit row that says what was asked for. -/
structure Logged (a : Asked) (m : Memory F) (row : ForgetAudit) : Prop where
  action : row.action = a.action
  memoryIds : row.memoryIds = m.publicId
  requester : row.requester = a.requester
  reason : row.reason = a.reason

/-- One step changed the memory as asked, and no other step changed any. -/
def Changed (a : Asked) (m : Memory F) (steps : Steps F) : Prop :=
  ∃ pre s s' post, steps = pre ++ (s, s') :: post ∧ m ∈ s.db.memories ∧ a.target.names m ∧
    a.change.Made m.id s.db s'.db ∧ ∀ t ∈ pre ++ post, t.2.db.memories = t.1.db.memories

/-- The named memory was changed, and one step appended one audit row, which says so, and no other
step appended any. -/
def Served (a : Asked) (steps : Steps F) : Prop :=
  ∃ m : Memory F, Changed a m steps ∧
    ∃ pre u u' post row, steps = pre ++ (u, u') :: post ∧ Logged a m row ∧
      u'.db.forgetAudit = u.db.forgetAudit ++ [row] ∧
      ∀ t ∈ pre ++ post, t.2.db.forgetAudit = t.1.db.forgetAudit

def SameAudit (db db' : Db F) : Prop := db'.forgetAudit = db.forgetAudit

/-- No step touched the audit. -/
def Silent (steps : Steps F) : Prop := ∀ t ∈ steps, OnDb SameAudit t.1 t.2

/-- A request that succeeds is served, and one that fails appends nothing. -/
def Faithful {α : Type} (a : Asked) (steps : Steps F) : Except Error α → Prop
  | .ok _ => Served a steps
  | .error _ => Silent steps

/-- The reason of a request, if it has one, is one that the ledger gets. -/
def Request.ReasonKept : Request F → Prop
  | api args | mcp args => args.action = some "hard" ∨ args.reason = none
  | cli (.soft _ reason) => reason = none
  | cli _ | op _ => True

/-- The row that a soft change or a restore found is there when its last step begins. -/
def Asked.Present (a : Asked) (steps : Steps F) : Prop :=
  a.change = .hard ∨ ∃ first ∈ steps.head?, ∃ last ∈ steps.getLast?,
    ∃ id ∈ a.target.row? first.1.db, (last.1.db.memory? id).isSome

/-! ## The closures -/

/-- What a soft change that succeeds did: nothing where the row is gone, else the update and its
audit row. -/
inductive Softened (id : Int) (status : Status) (columns : Int → Memory F → Memory F)
    (action requester : String) (reason : Option String) (db db' : Db F) : Prop
  | gone (h : db.memory? id = none) (same : db' = db)
  | changed (m : Memory F) (now : Int) (h : db.memory? id = some m)
      (hdb : db' = { restate id status (columns now) db with
        forgetAudit := db.forgetAudit ++
          [⟨action, selectorJson id, m.publicId, requester, reason, now⟩] })

section

variable {id : Int} {action requester : String} {reason : Option String} {status : Status}
  {columns : Int → Memory F → Memory F} {c c' : Conn F}

omit [F64 F] in
private theorem restate_of_none {f : Memory F → Memory F} {db : Db F} (h : db.memory? id = none) :
    restate id status f db = db := by
  unfold restate
  rw [updateMemory_of_none h, h, Option.toList_none, List.map_nil, List.append_nil]

omit [F64 F] in
instance : Std.Refl (SameAudit (F := F)) where
  refl _ := rfl

omit [F64 F] in
instance : IsTrans (Db F) SameAudit where
  trans _ _ _ hab hbc := Eq.trans hbc hab

omit [F64 F] in
/-- A soft change, whatever its outcome: only its last statement appends to the audit. -/
private theorem softChange_cases {x : Except Error Unit}
    (h : softChange env id action requester reason status columns c = (x, c')) :
    (∃ e, x = .error e) ∧ OnDb SameAudit c c' ∨
      x = .ok () ∧ Softened id status columns action requester reason c.db c'.db := by
  unfold softChange at h
  rw [bind_of_ok _ (nowMillis_run env c)] at h
  cases hread : env.fault c.stmts with
  | true =>
    rw [bind_of_error _ (query_of_fault (c := { c with ticks := c.ticks + 1 }) hread)] at h
    obtain ⟨rfl, rfl⟩ := Prod.mk.inj h
    exact .inl ⟨⟨_, rfl⟩, rfl⟩
  | false =>
    have hquery := query_of_noFault (c := { c with ticks := c.ticks + 1 }) hread
      (f := fun db : Db F => .ok ((db.memory? id).map Memory.publicId))
    rw [bind_of_ok _ hquery] at h
    cases hupdate : env.fault (c.stmts + 1) with
    | true =>
      rw [bind_of_error _ (run_of_fault
        (c := { c with ticks := c.ticks + 1, stmts := c.stmts + 1 }) hupdate)] at h
      obtain ⟨rfl, rfl⟩ := Prod.mk.inj h
      exact .inl ⟨⟨_, rfl⟩, rfl⟩
    | false =>
      rw [bind_of_ok _ (run_of_noFault
        (c := { c with ticks := c.ticks + 1, stmts := c.stmts + 1 }) hupdate)] at h
      cases hfound : c.db.memory? id with
      | none =>
        rw [hfound] at h
        obtain ⟨rfl, rfl⟩ := Prod.mk.inj h
        exact .inr ⟨rfl, .gone hfound (restate_of_none hfound)⟩
      | some m =>
        rw [hfound] at h
        let before : Conn F := { c with
          ticks := c.ticks + 1, stmts := c.stmts + 2
          db := restate id status (columns (env.clock c.ticks)) c.db }
        cases haudit : env.fault (c.stmts + 2) with
        | true =>
          obtain ⟨rfl, rfl⟩ := Prod.mk.inj ((run_of_fault (c := before) haudit).symm.trans h)
          exact .inl ⟨⟨_, rfl⟩, rfl⟩
        | false =>
          obtain ⟨rfl, rfl⟩ := Prod.mk.inj ((run_of_noFault (c := before) haudit).symm.trans h)
          exact .inr ⟨rfl, .changed m _ hfound rfl⟩

omit [F64 F] in
/-- The first job of a purge deletes the row it found. -/
private theorem deleteJob_ok {e : Tombstones.Evidence}
    (h : Tombstones.deleteJob env id c = (.ok e, c')) :
    ∃ m, c.db.memory? id = some m ∧ e.publicId = m.publicId ∧
      deletePhase id c.db = .ok ((), c'.db) := by
  unfold Tombstones.deleteJob at h
  obtain ⟨m, c₁, hone, h⟩ := Program.bind_ok h
  obtain ⟨before, c₂, hbefore, h⟩ := Program.bind_ok h
  obtain ⟨_, c₃, hdelete, h⟩ := Program.bind_ok h
  obtain ⟨_, c₄, hverify, h⟩ := Program.bind_ok h
  obtain ⟨he, rfl⟩ := Program.pure_ok h
  obtain ⟨hfound, hdb₁⟩ := query_ok hone
  have hdb₂ := (query_ok hbefore).2
  have hdb₄ := (query_ok hverify).2
  have hd := exec_ok hdelete
  rw [hdb₂, hdb₁] at hd
  refine ⟨m, ?_, congrArg Tombstones.Evidence.publicId he.symm, hdb₄ ▸ hd⟩
  cases hm : c.db.memory? id with
  | none => rw [hm] at hfound; cases hfound
  | some m' => rw [hm] at hfound; rw [Except.ok.inj hfound]

omit [F64 F] in
private theorem sameAudit_deleteJob :
    Moves (OnDb SameAudit) (Tombstones.deleteJob (F := F) env id) := by
  unfold Tombstones.deleteJob
  refine Program.moves_bind onDb_query fun m => ?_
  refine Program.moves_bind onDb_query fun before => ?_
  refine Program.moves_bind (onDb_exec fun db _ db' h => ?_) fun _ => ?_
  · obtain rfl := deletePhase_ok h
    exact rfl
  · exact Program.moves_bind onDb_query fun _ => Program.moves_pure _

omit [F64 F] in
private theorem vacuumJob_db : (Tombstones.vacuumJob env c).2.db = c.db := by
  unfold Tombstones.vacuumJob
  cases hfault : env.fault c.stmts with
  | true => rw [run_of_fault hfault]
  | false => rw [run_of_noFault hfault]; rfl

omit [F64 F] in
/-- The last job of a purge, whatever its outcome. -/
private theorem recordJob_cases {r : Tombstones.Request} {e : Tombstones.Evidence}
    {x : Except Error Unit}
    (h : Tombstones.recordJob env r e c = (x, c')) : c'.db.memories = c.db.memories ∧
      ((∃ err, x = .error err) ∧ OnDb SameAudit c c' ∨
        x = .ok () ∧ c'.db.forgetAudit = c.db.forgetAudit ++ [Tombstones.auditOf r e]) := by
  unfold Tombstones.recordJob appendAudit at h
  cases hfirst : env.fault c.stmts with
  | true =>
    rw [bind_of_error _ (run_of_fault hfirst)] at h
    obtain ⟨rfl, rfl⟩ := Prod.mk.inj h
    exact ⟨rfl, .inl ⟨⟨_, rfl⟩, rfl⟩⟩
  | false =>
    rw [bind_of_ok _ (run_of_noFault hfirst)] at h
    cases hsecond : env.fault (c.stmts + 1) with
    | true =>
      rw [run_of_fault hsecond] at h
      obtain ⟨rfl, rfl⟩ := Prod.mk.inj h
      exact ⟨rfl, .inl ⟨⟨_, rfl⟩, rfl⟩⟩
    | false =>
      rw [run_of_noFault hsecond] at h
      obtain ⟨rfl, rfl⟩ := Prod.mk.inj h
      exact ⟨rfl, .inr ⟨rfl, rfl⟩⟩

end

/-! ## One request -/

/-- What is shown of every request that ended. -/
def Audited {α : Type} (r : Request F) (steps : Steps F) (outcome : Except Error α) : Prop :=
  ∀ a, r.asked? = some a →
    (Faithful a steps outcome ↔ (outcome.isOk = true → r.ReasonKept ∧ a.Present steps))

/-- A request at work, after some steps. -/
abbrev Serving {α : Type} (r : Request F) (c : Work F α) (steps : Steps F) (s : Conn F) : Prop :=
  c.Serves (fun c => Keyed c.db) (OnDb NamesKept) (Audited r) steps s

/-- The row of a request is known: what it did so far changed nothing, and the row keeps the name. -/
structure Found (target : Target) (id : Int) (steps : Steps F) (s : Conn F) : Prop where
  quiet : ∀ t ∈ steps, t.2.db = t.1.db
  row : ∀ t : Conn F × Conn F, ∃ first, (steps ++ [t]).head? = some first ∧
    target.row? first.1.db = some id
  named : ∀ t : Conn F, OnDb NamesKept s t → ∀ m, t.db.memory? id = some m → target.names m

section

variable {r : Request F} {a : Asked} {steps : Steps F} {s t u : Conn F} {id : Int}

omit [F64 F] in
private theorem audited_error {α : Type} (h : Silent steps) (e : Error) :
    Audited r steps (.error e : Except Error α) := fun _ _ =>
  ⟨fun _ hok => (by cases hok), fun _ => h⟩

omit [F64 F] in
theorem Found.silent {target : Target} (h : Found target id steps s) : Silent steps :=
  fun t ht => congrArg Db.forgetAudit (h.quiet t ht)

omit [F64 F] in
theorem Silent.concat (h : Silent steps) (hlast : OnDb SameAudit t u) :
    Silent (steps ++ [(t, u)]) := by
  intro p hp
  rcases List.mem_append.mp hp with hp | hp
  · exact h p hp
  · rw [List.mem_singleton.mp hp]
    exact hlast

omit [F64 F] in
theorem Found.present (h : Found a.target id steps s) (hchange : a.change ≠ .hard) :
    a.Present (steps ++ [(t, u)]) ↔ (t.db.memory? id).isSome := by
  obtain ⟨first, hhead, hrow⟩ := h.row (t, u)
  constructor
  · rintro (hhard | ⟨first', hfirst', last, hlast, id', hid', hsome⟩)
    · exact absurd hhard hchange
    · rw [List.getLast?_concat] at hlast
      obtain rfl := Option.some.inj hlast
      obtain rfl := Option.some.inj (hhead.symm.trans hfirst')
      obtain rfl := Option.some.inj (hrow.symm.trans hid')
      exact hsome
  · exact fun hsome =>
      .inr ⟨first, hhead, (t, u), List.getLast?_concat, id, hrow, hsome⟩

omit [F64 F] in
/-- Whether a soft change is served is read off its last step. -/
theorem Found.served_iff (h : Found a.target id steps s) (hst : OnDb NamesKept s t)
    {status : Status} {columns : Int → Memory F → Memory F} {requester : String}
    {reason : Option String}
    (hsoft : Softened id status columns a.action requester reason t.db u.db)
    (hmade : ∀ now db', db' = { restate id status (columns now) t.db with
      forgetAudit := db'.forgetAudit } → a.change.Made id t.db db') :
    Served a (steps ++ [(t, u)]) ↔
      (requester = a.requester ∧ reason = a.reason) ∧ (t.db.memory? id).isSome := by
  constructor
  · rintro ⟨m, _, pre, w, w', post, row, hsplit, hlogged, happend, _⟩
    have hne : ¬ SameAudit w.db w'.db := by
      intro hsame
      cases List.append_right_eq_self.mp (happend.symm.trans hsame)
    have hmem : (w, w') ∈ steps ++ [(t, u)] :=
      hsplit ▸ List.mem_append_right _ List.mem_cons_self
    rcases List.mem_append.mp hmem with hmem | hmem
    · exact absurd (h.silent _ hmem) hne
    obtain ⟨rfl, rfl⟩ := Prod.mk.inj (List.mem_singleton.mp hmem)
    cases hsoft with
    | gone hgone same => exact absurd (congrArg Db.forgetAudit same) hne
    | changed m' now hfound hdb =>
      have haudit : w'.db.forgetAudit = w.db.forgetAudit ++
          [⟨a.action, selectorJson id, m'.publicId, requester, reason, now⟩] := by rw [hdb]
      have hrow := List.append_cancel_left (haudit.symm.trans happend)
      obtain rfl := (List.cons.inj hrow).1
      exact ⟨⟨hlogged.requester, hlogged.reason⟩, by rw [hfound]; rfl⟩
  · rintro ⟨⟨rfl, rfl⟩, hsome⟩
    cases hsoft with
    | gone hgone same => rw [hgone] at hsome; cases hsome
    | changed m now hfound hdb =>
      obtain ⟨hmem, hid⟩ := memory?_some hfound
      refine ⟨m, ⟨steps, t, u, [], rfl, hmem, h.named t hst m hfound, ?_, fun p hp => ?_⟩,
        steps, t, u, [], _, rfl, ⟨rfl, rfl, rfl, rfl⟩, by rw [hdb], fun p hp => ?_⟩
      · rw [hid]
        exact hmade now u.db (by rw [hdb])
      · rw [List.append_nil] at hp
        rw [h.quiet p hp]
      · rw [List.append_nil] at hp
        exact h.silent p hp

omit [F64 F] in
/-- A soft change or a restore, once its row is known. -/
private theorem serving_soft {α : Type} (b : α) (h : Found a.target id steps s)
    (hr : r.asked? = some a)
    (hchange : a.change ≠ .hard) {status : Status} {columns : Int → Memory F → Memory F}
    {requester : String} {reason : Option String}
    (hmoves : Moves (Inside Keyed NamesKept)
      (softChange env id a.action requester reason status columns))
    (hmade : ∀ now db db', db' = { restate id status (columns now) db with
      forgetAudit := db'.forgetAudit } → a.change.Made id db db')
    (hkept : requester = a.requester ∧ reason = a.reason ↔ r.ReasonKept) :
    Serving r (call (softChange env id a.action requester reason status columns) >>= fun _ => pure b)
      steps s := by
  refine serves_call_bind hmoves (fun t e u _ _ hrun => ?_) fun t _ u _ hst hrun => ?_
  · have hcases := softChange_cases hrun
    rcases hcases with ⟨_, haudit⟩ | ⟨hok, _⟩
    · exact audited_error (h.silent.concat haudit) e
    · cases hok
  · have hcases := softChange_cases hrun
    rcases hcases with ⟨⟨e, he⟩, _⟩ | ⟨_, hsoft⟩
    · cases he
    intro a' ha'
    obtain rfl := Option.some.inj (hr.symm.trans ha')
    have hserved := h.served_iff hst hsoft fun now db' => hmade now t.db db'
    rw [h.present hchange, ← hkept]
    exact ⟨fun hs _ => hserved.mp hs, fun hs => hserved.mpr (hs rfl)⟩

omit [F64 F] in
theorem Found.concat {target : Target} (h : Found target id steps s) (hst : OnDb NamesKept s t)
    (hdb : u.db = t.db) : Found target id (steps ++ [(t, u)]) u := by
  refine ⟨fun p hp => ?_, fun p => ?_, fun t' ht' => h.named t' ?_⟩
  · rcases List.mem_append.mp hp with hp | hp
    · exact h.quiet p hp
    · rw [List.mem_singleton.mp hp]
      exact hdb
  · obtain ⟨first, hhead, hrow⟩ := h.row (t, u)
    refine ⟨first, ?_, hrow⟩
    rw [List.head?_append, hhead]
    rfl
  · exact IsTrans.trans s t t' hst (show NamesKept t.db t'.db from hdb ▸ ht')

omit [F64 F] in
theorem Changed.concat {m : Memory F} (h : Changed a m steps)
    (hmem : u.db.memories = t.db.memories) : Changed a m (steps ++ [(t, u)]) := by
  obtain ⟨pre, w, w', post, rfl, hm, hnamed, hmade, hrest⟩ := h
  refine ⟨pre, w, w', post ++ [(t, u)], by simp, hm, hnamed, hmade, fun p hp => ?_⟩
  rw [← List.append_assoc] at hp
  rcases List.mem_append.mp hp with hp | hp
  · exact hrest p hp
  · rw [List.mem_singleton.mp hp]
    exact hmem

omit [F64 F] in
/-- The audit row of a purge is appended once its memory is gone. -/
theorem Changed.served {m : Memory F} (h : Changed a m steps) (hsilent : Silent steps)
    (hmem : u.db.memories = t.db.memories) {row : ForgetAudit} (hrow : Logged a m row)
    (happend : u.db.forgetAudit = t.db.forgetAudit ++ [row]) : Served a (steps ++ [(t, u)]) := by
  refine ⟨m, h.concat hmem, steps, t, u, [], row, rfl, hrow, happend, fun p hp => ?_⟩
  rw [List.append_nil] at hp
  exact hsilent p hp

omit [F64 F] in
theorem Found.purged (h : Found a.target id steps s) (hst : OnDb NamesKept s t)
    (hchange : a.change = .hard) {m : Memory F} (hfound : t.db.memory? id = some m)
    (hgone : deletePhase id t.db = .ok ((), u.db)) : Changed a m (steps ++ [(t, u)]) := by
  obtain ⟨hmem, hid⟩ := memory?_some hfound
  refine ⟨steps, t, u, [], rfl, hmem, h.named t hst m hfound, ?_, fun p hp => ?_⟩
  · rw [hchange, hid]
    exact hgone
  · rw [List.append_nil] at hp
    rw [h.quiet p hp]

omit [F64 F] in
/-- `VACUUM` or the checkpoint of a purge. -/
private theorem serves_vacuum {m : Memory F} {k : Unit → Work F Unit} (hchanged : Changed a m steps)
    (hsilent : Silent steps)
    (hk : ∀ steps s, Changed a m steps → Silent steps →
      (k ()).Serves (fun c => Keyed c.db) (OnDb NamesKept) (Faithful a) steps s) :
    (call (Tombstones.vacuumJob env) >>= k).Serves (fun c => Keyed c.db) (OnDb NamesKept)
      (Faithful a) steps s := by
  have hdb : ∀ {t u x}, Tombstones.vacuumJob env t = (x, u) → u.db = t.db := fun {t u x} hrun => by
    have hsame : (Tombstones.vacuumJob env t).2.db = t.db := vacuumJob_db
    rwa [hrun] at hsame
  refine serves_call_bind (inside_same fun _ => vacuumJob_db) (fun t e u _ _ hrun => ?_)
    fun t _ u _ _ hrun => ?_
  · exact hsilent.concat (congrArg Db.forgetAudit (hdb hrun))
  · exact hk _ u (hchanged.concat (congrArg Db.memories (hdb hrun)))
      (hsilent.concat (congrArg Db.forgetAudit (hdb hrun)))

/-- The ledger entries of a purge. -/
private theorem serves_record {m : Memory F} {r : Tombstones.Request} {e : Tombstones.Evidence}
    (hchanged : Changed a m steps) (hsilent : Silent steps)
    (hrow : Logged a m (Tombstones.auditOf r e)) :
    (call (Tombstones.recordJob env r e)).Serves (fun c => Keyed c.db) (OnDb NamesKept)
      (Faithful a) steps s := by
  refine serves_call (closures_named.record _ _) fun t _ _ => ?_
  cases hrun : Tombstones.recordJob env r e t with
  | mk x u =>
    obtain ⟨hmem, ⟨⟨e, rfl⟩, haudit⟩ | ⟨rfl, happend⟩⟩ := recordJob_cases hrun
    · exact hsilent.concat haudit
    · exact hchanged.served hsilent hmem hrow happend

private theorem serves_hardPurge {deletedBy reason : Option String} (h : Found a.target id steps s)
    (hchange : a.change = .hard) (hrequester : a.requester = deletedBy.getD "agent")
    (hreason : a.reason = reason) :
    (hardPurgeClient env autocommit id deletedBy reason a.action).Serves (fun c => Keyed c.db)
      (OnDb NamesKept) (Faithful a) steps s := by
  unfold hardPurgeClient
  refine serves_call_bind (inside_same fun _ => rfl) (fun t e u _ _ hrun => (by cases hrun))
    fun t now u _ hst hnow => ?_
  obtain ⟨_, rfl⟩ := Prod.mk.inj hnow
  have hnamed := h.concat (u := { t with ticks := t.ticks + 1 }) hst rfl
  refine serves_call_bind (inside_same fun _ => rfl) (fun t e u _ _ hrun => (by cases hrun))
    fun t₁ c u₁ _ hst₁ hget => ?_
  obtain ⟨rfl, rfl⟩ := Program.get_ok hget
  replace hnamed := hnamed.concat (u := t₁) hst₁ rfl
  have haudit : ∀ {t u x}, Tombstones.deleteJob env id t = (x, u) → OnDb SameAudit t u :=
    fun {t u x} hrun => by
      have hsame : OnDb SameAudit t (Tombstones.deleteJob env id t).2 := sameAudit_deleteJob t
      rwa [hrun] at hsame
  refine serves_call_bind (closures_named.delete id trivial)
    (fun t e u _ _ hrun => hnamed.silent.concat (haudit hrun)) fun t₂ e u₂ _ hst₂ hdelete => ?_
  -- the row is gone
  obtain ⟨m, hfound, hname, hgone⟩ := deleteJob_ok hdelete
  refine serves_vacuum (hnamed.purged hst₂ hchange hfound hgone)
    (hnamed.silent.concat (haudit hdelete)) fun steps₃ s₃ hchanged₃ hsilent₃ => ?_
  refine serves_vacuum hchanged₃ hsilent₃ fun steps₄ s₄ hchanged hsilent => ?_
  exact serves_record hchanged hsilent ⟨rfl, hname, hrequester.symm, hreason.symm⟩

/-- A hard purge, once its row is known. -/
private theorem serving_hard {α : Type} (b : α) {deletedBy : Option String}
    (h : Found a.target id steps s) (hr : r.asked? = some a) (hchange : a.change = .hard)
    (hrequester : a.requester = deletedBy.getD "agent") (hkept : r.ReasonKept) :
    Serving r (hardPurgeClient env autocommit id deletedBy a.reason a.action >>= fun _ => pure b)
      steps s := by
  refine (serves_hardPurge h hchange hrequester rfl).bind (fun log e hsilent => ?_)
    fun log _ s hserved a' ha' => ?_
  · exact audited_error hsilent e
  · obtain rfl := Option.some.inj (hr.symm.trans ha')
    exact ⟨fun _ _ => ⟨hkept, .inl hchange⟩, fun _ => hserved⟩

end

/-! ## The surfaces -/

section

variable {r : Request F} {steps : Steps F} {s : Conn F}

omit [F64 F] in
/-- A request that asks for no change owes nothing. -/
theorem Keeps.serving {α : Type} {c : Work F α} (hr : r.asked? = none)
    (h : c.Keeps (fun c => Keyed c.db) (OnDb NamesKept)) : Serving r c steps s :=
  h.serves fun _ _ a ha => by rw [hr] at ha; cases ha

omit [F64 F] in
private theorem serving_lookup {α : Type} {name : String} {missing : Error} {k : MemoryRow → Work F α}
    (hk : ∀ (m : Memory F) steps s, Found (.publicId name) m.id steps s →
      Serving r (k (rowOf m)) steps s) : Serving r (lookup env name missing >>= k) [] s := by
  unfold lookup
  rw [Client.bind_assoc]
  refine serves_call_bind (inside_same (query_db _)) (fun t e u _ _ hrun => ?_)
    fun t found u ht _ hrun => ?_
  · have hdb : (query env (fun db => .ok ((db.byPublicId? name).map rowOf)) t).2.db = t.db :=
      query_db _ t
    rw [show query env _ t = (.error e, u) from hrun] at hdb
    refine audited_error ?_ e
    exact Silent.concat (List.forall_mem_nil _) (congrArg Db.forgetAudit hdb)
  · obtain ⟨hfound, hdb⟩ := query_ok hrun
    obtain rfl := Except.ok.inj hfound
    cases hm : t.db.byPublicId? name with
    | none =>
      refine audited_error ?_ missing
      exact Silent.concat (List.forall_mem_nil _) (congrArg Db.forgetAudit hdb)
    | some m =>
      have hmem : m ∈ u.db.memories := hdb ▸ List.mem_of_find?_eq_some hm
      have hname : m.publicId = name := by simpa using List.find?_some hm
      refine hk m _ u ⟨fun p hp => ?_, fun p => ⟨(t, u), rfl, ?_⟩, fun t' ht' m' hm' => ?_⟩
      · rw [List.mem_singleton.mp hp]
        exact hdb
      · show (t.db.byPublicId? name).map Memory.id = some m.id
        rw [hm]
        rfl
      · have hkeyed : Keyed u.db := hdb ▸ ht
        exact (ht'.memory? hkeyed hmem hm').trans hname

/-- What the API and the tool do with a row. -/
private theorem serving_perform {args : ForgetInput} {m : Memory F} (hr : r.asked? = args.asked?)
    (hkept : r.ReasonKept ↔ args.action = some "hard" ∨ args.reason = none)
    (h : Found (.publicId args.id) m.id steps s) : Serving r (perform env args (rowOf m)) steps s := by
  have haction : ∀ {name : String}, name ≠ "soft" → args.action.getD "soft" = name →
      args.action = some name := by
    intro name hne heq
    cases haction : args.action with
    | none => rw [haction] at heq; exact absurd heq.symm hne
    | some action => rw [haction] at heq; exact congrArg some heq
  unfold perform
  unfold ForgetInput.asked? at hr
  dsimp only at hr ⊢
  split
  · next hsoft =>
    rw [if_pos hsoft] at hr
    have hnot : args.action ≠ some "hard" := by
      intro heq
      rw [heq] at hsoft
      exact absurd hsoft (by decide)
    refine serving_soft _ (a := ⟨.publicId args.id, .soft, "deprecate", "agent", args.reason⟩) h hr
      (fun hhard => (by cases hhard)) (closures_named.retire _ _ _ _) (fun now db db' hdb => ⟨now, ?_⟩) ?_
    · rw [hdb]
      rfl
    · rw [hkept, or_iff_right hnot]
      cases args.reason with
      | none => exact ⟨fun _ => rfl, fun _ => ⟨rfl, rfl⟩⟩
      | some reason => exact ⟨fun heq => (by cases heq.2), fun heq => (by cases heq)⟩
  next hsoft =>
  rw [if_neg hsoft] at hr
  split
  · next hrestore =>
    rw [if_pos hrestore] at hr
    have hnot : args.action ≠ some "hard" := by
      intro heq
      rw [heq] at hrestore
      exact absurd hrestore (by decide)
    refine serving_soft _ (a := ⟨.publicId args.id, .restore, "restore", "agent", args.reason⟩) h hr
      (fun hhard => (by cases hhard)) (closures_named.restore _ _) (fun now db db' hdb => ⟨now, ?_⟩) ?_
    · rw [hdb]
      rfl
    · rw [hkept, or_iff_right hnot]
      exact ⟨fun heq => heq.2.symm, fun heq => ⟨rfl, heq.symm⟩⟩
  next hrestore =>
  rw [if_neg hrestore] at hr
  split
  · next hhard =>
    rw [if_pos hhard] at hr
    exact serving_hard _ (a := ⟨.publicId args.id, .hard, "hard_delete", "agent", args.reason⟩) h hr
      rfl rfl (hkept.mpr (.inl (haction (by decide) hhard)))
  next hhard =>
  rw [if_neg hhard] at hr
  split
  · refine Keeps.serving hr ?_
    split
    · exact keeps_fail _
    · split
      · exact keeps_fail _
      · exact keeps_bind (keeps_rollback closures_named.toWriterClosures) fun _ => keeps_pure _
  · exact Keeps.serving hr (keeps_fail _)

omit [F64 F] in
/-- What is done with the outcome takes no step. -/
theorem Serving.map {α β : Type} {c : Work F α} (h : Serving r c steps s) (f : α → β) :
    Serving r (c >>= fun a => pure (f a)) steps s :=
  h.bind (fun _ _ haudited => haudited) fun _ _ _ haudited => haudited

private theorem serving_forgetCmd (cmd : ForgetCmd) :
    Serving (.cli cmd) (forgetCmd env cmd) ([] : Steps F) s := by
  cases cmd with
  | soft id reason =>
    refine serving_lookup fun m steps s h => ?_
    refine serving_soft _ (a := ⟨.publicId id, .soft, "deprecate", "agent", reason⟩) h rfl
      (fun hhard => (by cases hhard)) (closures_named.retire _ _ _ _) (fun now db db' hdb => ⟨now, ?_⟩) ?_
    · rw [hdb]
      rfl
    · exact ⟨fun heq => heq.2.symm, fun heq => ⟨rfl, Eq.symm heq⟩⟩
  | restore id =>
    refine serving_lookup fun m steps s h => ?_
    refine serving_soft _ (a := ⟨.publicId id, .restore, "restore", "agent", none⟩) h rfl
      (fun hhard => (by cases hhard)) (closures_named.restore _ _) (fun now db db' hdb => ⟨now, ?_⟩) ?_
    · rw [hdb]
      rfl
    · exact ⟨fun _ => trivial, fun _ => ⟨rfl, rfl⟩⟩
  | hard id reason =>
    refine serving_lookup fun m steps s h => ?_
    exact serving_hard _ (a := ⟨.publicId id, .hard, "hard_delete", "agent", reason⟩) h rfl rfl rfl
      trivial
  | rollback id toVersion =>
    refine serving_lookup fun m steps s _ => Keeps.serving rfl ?_
    split
    · exact keeps_fail _
    · exact keeps_bind (keeps_rollback closures_named.toWriterClosures) fun _ => keeps_pure _

omit [F64 F] in
/-- The reaper names a row by its id. -/
private theorem found_row (id : Int) (s : Conn F) : Found (.row id) id [] s where
  quiet := List.forall_mem_nil _
  row t := ⟨t, rfl, rfl⟩
  named _ _ _ hm := (memory?_some hm).2

private theorem serving_deprecateForTtl (id : Int) :
    Serving (.op (.deprecateForTtl id)) (call (deprecateForTtl env id)) ([] : Steps F) s := by
  rw [← Client.bind_pure (call (deprecateForTtl env id))]
  refine serving_soft () (a := ⟨.row id, .soft, "ttl_deprecate", "ttl-reaper", some "TTL expired"⟩)
    (found_row id s) rfl (fun hhard => (by cases hhard)) (closures_named.retire _ _ _ _)
    (fun now db db' hdb => ⟨now, ?_⟩) ⟨fun _ => trivial, fun _ => ⟨rfl, rfl⟩⟩
  rw [hdb]
  rfl

private theorem serving_request (r : Request F) (s : Conn F) : Serving r (r.client env) [] s := by
  cases r with
  | api args =>
    refine Serving.map (serving_lookup fun m steps s h => ?_) fun _ => ()
    exact serving_perform rfl Iff.rfl h
  | mcp args =>
    refine Serving.map (serving_lookup fun m steps s h => ?_) fun _ => ()
    exact Serving.map (serving_perform rfl Iff.rfl h) fun outcome => (outcome.text, outcome)
  | cli cmd => exact Serving.map (serving_forgetCmd cmd) fun _ => ()
  | op o =>
    by_cases hasked : (Request.op o).asked? = none
    · exact Keeps.serving hasked (keeps_client closures_named fun _ _ => trivial)
    cases o with
    | deprecateForTtl id => exact serving_deprecateForTtl id
    | hardPurgeForTtl id =>
      show Serving _ (hardPurgeClient env autocommit id _ _ _) [] s
      rw [← Client.bind_pure (hardPurgeClient env autocommit id _ _ _)]
      exact serving_hard () (a := ⟨.row id, .hard, "ttl_purge", "ttl-reaper",
        some "TTL grace period expired"⟩) (found_row id s) rfl rfl rfl trivial
    | _ => exact absurd rfl hasked

end

/-! ## Whole runs -/

/-- The store and the requests at work on it. -/
abbrev Forgetting (F : Type) := Pool (Request F) Error (Conn F) Unit

def newForgetting (F : Type) (agentId : String) (embedDim : Nat) : Forgetting F :=
  ⟨emptyStore F agentId embedDim, []⟩

/-- In every interleaving, a request of the three surfaces or of the reaper that has ended kept to
what it was asked for, and to the audit of it, exactly if its reason is one that the ledger gets and,
for a soft change or a restore, the row that it found was still there at its last step, or if it
failed. -/
theorem forget_audited (env : Env F) (agentId : String) (embedDim : Nat)
    (events : List (Pool.Event (Request F))) (k : Nat) (r : Request F) (a : Asked)
    (outcome : Except Error Unit)
    (hended : (Pool.run (Request.client env) events (newForgetting F agentId embedDim)).clients[k]? =
      some (r, .done outcome)) (hasked : r.asked? = some a) :
    Faithful a (Pool.stepsOf (Request.client env) events (newForgetting F agentId embedDim) k)
        outcome ↔
      (outcome.isOk = true → r.ReasonKept ∧
        a.Present
          (Pool.stepsOf (Request.client env) events (newForgetting F agentId embedDim) k)) :=
  Pool.serves_run serving_request (.empty embedDim) hended a hasked

/-- A memory is stored, and one request of the API follows. -/
def sampleForget (args : ForgetInput) : List (Pool.Event (Request ℚ)) :=
  [.start (.op (.insertMemory ⟨"semantic", "fact", "sky", "user"⟩)), .advance 0,
    .start (.api args), .advance 1, .advance 1]

def sampleSteps (args : ForgetInput) : Steps ℚ :=
  Pool.stepsOf (Request.client sampleEnv) (sampleForget args) (newForgetting ℚ "a" 1) 1

theorem forget_audited_sample :
    Served ⟨.publicId "m0", .soft, "deprecate", "agent", none⟩ (sampleSteps { id := "m0" }) := by
  refine (forget_audited sampleEnv "a" 1 (sampleForget { id := "m0" }) 1 (.api { id := "m0" }) _
    (.ok ()) rfl rfl).mpr fun _ => ⟨.inr rfl, .inr ⟨_, rfl, _, rfl, 1, rfl, ?_⟩⟩
  decide +kernel

/-- A reason for a soft change is taken for the requester. -/
theorem soft_reason_misfiled :
    ¬ ∀ (events : List (Pool.Event (Request ℚ))) (k : Nat) (r : Request ℚ) (a : Asked)
      (outcome : Except Error Unit),
      (Pool.run (Request.client sampleEnv) events (newForgetting ℚ "a" 1)).clients[k]? =
        some (r, .done outcome) → r.asked? = some a →
      Faithful a (Pool.stepsOf (Request.client sampleEnv) events (newForgetting ℚ "a" 1) k)
        outcome := by
  intro h
  let args : ForgetInput := { id := "m0", reason := some "obsolete" }
  have hserved : Served ⟨.publicId "m0", .soft, "deprecate", "agent", some "obsolete"⟩
      (sampleSteps args) := h (sampleForget args) 1 (.api args) _ (.ok ()) rfl rfl
  obtain ⟨m, _, pre, u, u', post, row, hsplit, hlogged, happend, _⟩ := hserved
  have hnone : ∀ t ∈ sampleSteps args, ∀ row ∈ t.2.db.forgetAudit, row.reason = none := by
    decide +kernel
  have hmem : (u, u') ∈ sampleSteps args := hsplit ▸ List.mem_append_right _ List.mem_cons_self
  have hrow : row ∈ u'.db.forgetAudit :=
    happend ▸ List.mem_append_right _ (List.mem_singleton_self row)
  have hreason := hlogged.reason
  rw [hnone _ hmem row hrow] at hreason
  cases hreason

end AgosMemory.Forget
