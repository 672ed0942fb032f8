import AgosMemory.Runs.Retention

/-!
# Pins

The pin of a memory is kept in three places: its row, the metadata of its vector and the ledger. The
writers keep the three in step, apart from an import, which takes over the pin of its line without an
entry in the ledger, and a pin that the storage layer stops between its statements.
-/

namespace AgosMemory

open Library Library.Program Store

variable {F : Type} [F64 F] {env : Env F}

/-- The three places agree. -/
structure PinsAgree (db : Db F) : Prop where
  once : (db.pins.map Pin.memoryId).Nodup
  flag : ∀ m ∈ db.memories, m.pinned ≠ 0 ↔ ∃ p ∈ db.pins, p.memoryId = m.id
  mirror : ∀ m ∈ db.memories, ∀ v ∈ db.vecs, v.rowid = m.id → v.pinned = m.pinned

/-- The three places agree, and mention no id that has not been given out. -/
structure PinLedger (db : Db F) : Prop where
  once : (db.pins.map Pin.memoryId).Nodup
  flag : ∀ m ∈ db.memories, m.pinned ≠ 0 ↔ ∃ p ∈ db.pins, p.memoryId = m.id
  mirror : ∀ m ∈ db.memories, ∀ v ∈ db.vecs, v.rowid = m.id → v.pinned = m.pinned
  ids : (db.memories.map Memory.id).Nodup
  idBound : ∀ m ∈ db.memories, m.id ≤ db.memorySeq
  pinBound : ∀ p ∈ db.pins, p.memoryId ≤ db.memorySeq
  vecBound : ∀ v ∈ db.vecs, v.rowid ≤ db.memorySeq

/-- A line that brings a row which is not pinned. -/
def NotPinned (row : Export.ExportRow F) : Prop := row.pinned = 0

section

variable {db db' : Db F}

omit [F64 F] in
theorem PinLedger.empty (embedDim : Nat) : PinLedger (F := F) { embedDim } := by
  constructor <;> simp

omit [F64 F] in
/-- An update that keeps ids and pins, whatever else it does. -/
theorem PinLedger.updateMemory (h : PinLedger db) {id : Int} {f : Memory F → Memory F}
    (hmem : db'.memories = (db.updateMemory id f).memories) (hseq : db'.memorySeq = db.memorySeq)
    (hpins : db'.pins = db.pins) (hvecs : db'.vecs = db.vecs) (hid : ∀ m, (f m).id = m.id)
    (hpinned : ∀ m ∈ db.memories, m.id = id → (f m).pinned = m.pinned) : PinLedger db' := by
  have hback : ∀ m' ∈ db'.memories, ∃ m ∈ db.memories, m.id = m'.id ∧ m.pinned = m'.pinned := by
    intro m' hm'
    rw [hmem] at hm'
    obtain ⟨m, hm, rfl⟩ := mem_updateMemory.mp hm'
    refine ⟨m, hm, ?_⟩
    split
    · next heq => exact ⟨(hid m).symm, (hpinned m hm heq).symm⟩
    · exact ⟨rfl, rfl⟩
  have hids : db'.memories.map Memory.id = db.memories.map Memory.id := by
    rw [hmem]
    exact map_updateMemory hid
  constructor
  case once => exact hpins ▸ h.once
  case ids => exact hids ▸ h.ids
  case flag =>
    intro m' hm'
    obtain ⟨m, hm, hid', hpinned'⟩ := hback m' hm'
    rw [hpins, ← hid', ← hpinned']
    exact h.flag m hm
  case mirror =>
    intro m' hm' v hv hrowid
    obtain ⟨m, hm, hid', hpinned'⟩ := hback m' hm'
    rw [← hpinned']
    exact h.mirror m hm v (hvecs ▸ hv) (hrowid.trans hid'.symm)
  case idBound =>
    intro m' hm'
    obtain ⟨m, hm, hid', _⟩ := hback m' hm'
    rw [hseq, ← hid']
    exact h.idBound m hm
  case pinBound => exact fun p hp => hseq ▸ h.pinBound p (hpins ▸ hp)
  case vecBound => exact fun v hv => hseq ▸ h.vecBound v (hvecs ▸ hv)

omit [F64 F] in
/-- A change of other tables. -/
theorem PinLedger.congr (h : PinLedger db) (hmem : db'.memories = db.memories)
    (hseq : db'.memorySeq = db.memorySeq) (hpins : db'.pins = db.pins)
    (hvecs : db'.vecs.map (fun v => (v.rowid, v.pinned)) =
      db.vecs.map fun v => (v.rowid, v.pinned)) : PinLedger db' := by
  have hback : ∀ v' ∈ db'.vecs, ∃ v ∈ db.vecs, v.rowid = v'.rowid ∧ v.pinned = v'.pinned := by
    intro v' hv'
    have hkey := List.mem_map_of_mem (f := fun v : VecRow F => (v.rowid, v.pinned)) hv'
    rw [hvecs] at hkey
    obtain ⟨v, hv, heq⟩ := List.mem_map.mp hkey
    exact ⟨v, hv, Prod.mk.inj heq⟩
  constructor
  case once => exact hpins ▸ h.once
  case ids => exact hmem ▸ h.ids
  case flag =>
    intro m hm
    rw [hpins]
    exact h.flag m (hmem ▸ hm)
  case mirror =>
    intro m hm v' hv' hrowid
    obtain ⟨v, hv, hrowid', hpinned⟩ := hback v' hv'
    rw [← hpinned]
    exact h.mirror m (hmem ▸ hm) v hv (hrowid'.trans hrowid)
  case idBound => exact fun m hm => hseq ▸ h.idBound m (hmem ▸ hm)
  case pinBound => exact fun p hp => hseq ▸ h.pinBound p (hpins ▸ hp)
  case vecBound =>
    intro v' hv'
    obtain ⟨v, hv, hrowid, _⟩ := hback v' hv'
    rw [hseq, ← hrowid]
    exact h.vecBound v hv

/-- A new row that is not pinned has a new id, so the ledger has nothing about it. -/
theorem PinLedger.insertRow (h : PinLedger db) {r : NewRow F} {m : Memory F} (hr : r.pinned = 0)
    (hrow : insertMemoryRow r db = .ok (m, db')) : PinLedger db' := by
  obtain ⟨hbuilt, _, rfl⟩ := insertMemoryRow_ok hrow
  have hid : m.id = db.memorySeq + 1 := hbuilt.id
  have hpinned : m.pinned = 0 := hbuilt.pinned.trans hr
  constructor
  case once => exact h.once
  case ids =>
    rw [List.map_append, List.nodup_append]
    refine ⟨h.ids, List.nodup_singleton _, fun i hi j hj heq => ?_⟩
    obtain ⟨m', hm', rfl⟩ := List.mem_map.mp hi
    have hbound := h.idBound m' hm'
    have hj : j = m.id := List.mem_singleton.mp hj
    omega
  case flag =>
    intro m' hm'
    rcases List.mem_append.mp hm' with hm' | hm'
    · exact h.flag m' hm'
    · rw [List.mem_singleton.mp hm']
      refine ⟨fun hne => absurd hpinned hne, fun ⟨p, hp, heq⟩ => ?_⟩
      have hbound := h.pinBound p hp
      omega
  case mirror =>
    intro m' hm' v hv hrowid
    rcases List.mem_append.mp hm' with hm' | hm'
    · exact h.mirror m' hm' v hv hrowid
    · have hbound := h.vecBound v hv
      rw [List.mem_singleton.mp hm'] at hrowid
      omega
  case idBound =>
    intro m' hm'
    show m'.id ≤ m.id
    rcases List.mem_append.mp hm' with hm' | hm'
    · have hbound := h.idBound m' hm'
      omega
    · rw [List.mem_singleton.mp hm']
  case pinBound =>
    intro p hp
    have hbound := h.pinBound p hp
    show p.memoryId ≤ m.id
    omega
  case vecBound =>
    intro v hv
    have hbound := h.vecBound v hv
    show v.rowid ≤ m.id
    omega

omit [F64 F] in
/-- A vector takes over the pin of its row. -/
theorem PinLedger.insertVec (h : PinLedger db) {m : Memory F} {embedding : List F}
    (hm : m ∈ db.memories) (hv : insertVec (vecRowOf m embedding) db = .ok ((), db')) :
    PinLedger db' := by
  obtain ⟨_, rfl⟩ := insertVec_ok hv
  refine ⟨h.once, h.flag, fun m' hm' v hv hrowid => ?_, h.ids, h.idBound, h.pinBound,
    fun v hv => ?_⟩
  · rcases List.mem_append.mp hv with hv | hv
    · exact h.mirror m' hm' v hv hrowid
    · obtain rfl := List.mem_singleton.mp hv
      rw [List.inj_on_of_nodup_map h.ids hm' hm hrowid.symm]
      rfl
  · rcases List.mem_append.mp hv with hv | hv
    · exact h.vecBound v hv
    · rw [List.mem_singleton.mp hv]
      exact h.idBound m hm

omit [F64 F] in
theorem PinLedger.purge (h : PinLedger db) {id : Int} (hd : deletePhase id db = .ok ((), db')) :
    PinLedger db' := by
  rw [deletePhase_ok hd]
  constructor
  case once => exact h.once.sublist (List.filter_sublist.map _)
  case ids => exact h.ids.sublist (List.filter_sublist.map _)
  case flag =>
    intro m hm
    obtain ⟨hm, hne⟩ := List.mem_filter.mp hm
    rw [h.flag m hm]
    constructor
    · rintro ⟨p, hp, heq⟩
      exact ⟨p, List.mem_filter.mpr ⟨hp, by rw [heq]; exact hne⟩, heq⟩
    · rintro ⟨p, hp, heq⟩
      exact ⟨p, (List.mem_filter.mp hp).1, heq⟩
  case mirror =>
    exact fun m hm v hv hrowid =>
      h.mirror m (List.mem_filter.mp hm).1 v (List.mem_filter.mp hv).1 hrowid
  case idBound => exact fun m hm => h.idBound m (List.mem_filter.mp hm).1
  case pinBound => exact fun p hp => h.pinBound p (List.mem_filter.mp hp).1
  case vecBound => exact fun v hv => h.vecBound v (List.mem_filter.mp hv).1

end

private theorem statements_pinLedger :
    Statements (fun r : NewRow F => r.pinned = 0) (Preserves PinLedger) where
  plain r hr := hr.pinned
  insertRow r m db db' hr hrow h := h.insertRow hr hrow
  insertVersion v db db' hv h := by
    obtain ⟨_, _, rfl⟩ := insertVersion_ok hv
    exact h.congr rfl rfl rfl rfl
  insertVec m embedding db db' hm hv h := h.insertVec hm hv
  merge shape id trust kept source cluster now db db' hmerge h := by
    obtain ⟨sk, merged, bumps, rfl⟩ := mergeSource_update hmerge
    exact h.updateMemory rfl rfl rfl rfl (fun _ => rfl) fun _ _ _ => rfl
  link id now db db' hlink h := by
    obtain ⟨links, rfl⟩ := linkRefines_ok hlink
    exact h.congr rfl rfl rfl rfl
  retext id text hash trust kept source now db db' hr h := by
    obtain ⟨sk, merged, rewrites, rfl⟩ := retext_update hr
    exact h.updateMemory rfl rfl rfl rfl (fun _ => rfl) fun _ _ _ => rfl
  vecTrust rowid trust db h := h.congr rfl rfl rfl (map_updateVec fun _ => rfl)
  touch id f db hf h :=
    h.updateMemory rfl rfl rfl rfl (fun m => (hf.core m).id) fun m _ _ => hf.pinned m
  deprecated id now db h := h.updateMemory (f := fun m => { m with
    deletedAt := some now, updatedAt := now, status := .deprecated }) rfl rfl rfl rfl
    (fun _ => rfl) fun _ _ _ => rfl
  restored id now db h := h.updateMemory (f := fun m => { m with
    deletedAt := none, updatedAt := now, status := .active }) rfl rfl rfl rfl
    (fun _ => rfl) fun _ _ _ => rfl
  purged id db db' hd h := h.purge hd
  other db db' same h :=
    h.congr same.memories same.memorySeq same.pins (by rw [same.vecs])

/-! ## The pin itself -/

/-- The flag that a pin writes. -/
def pinCode (pinned : Bool) : Int := if pinned then 1 else 0

/-- The first statement of a pin, of the row. -/
def pinRow (id now : Int) (pinned : Bool) (db : Db F) : Db F :=
  db.updateMemory id fun m => { m with pinned := pinCode pinned, updatedAt := now }

/-- The second one, of the vector. -/
def pinVec (id : Int) (pinned : Bool) (db : Db F) : Db F :=
  db.updateVec id fun v => { v with pinned := pinCode pinned }

/-- The last one, of the ledger. -/
def pinEntry (id now : Int) (pinned : Bool) (requester : String) (db : Db F) : Db F :=
  { db with pins := (db.pins.filter fun p => p.memoryId ≠ id) ++
      if pinned then [⟨id, now, requester⟩] else [] }

omit [F64 F] in
private theorem recordPin_run {id now : Int} {pinned : Bool} {requester : String} {c : Conn F}
    (hfound : c.db.memory? id ≠ none) :
    (recordPin env id now pinned requester c).2.db =
      if env.fault c.stmts then c.db else pinEntry id now pinned requester c.db := by
  unfold recordPin pinEntry
  cases hfault : env.fault c.stmts with
  | true =>
    cases pinned with
    | true => rw [if_pos rfl, exec_of_fault hfault]; rfl
    | false => rw [if_neg Bool.false_ne_true, run_of_fault hfault]; rfl
  | false =>
    cases pinned with
    | true =>
      rw [if_pos rfl, exec_of_ok hfault (if_neg (by rwa [Option.isNone_iff_eq_none]))]
      rfl
    | false =>
      rw [if_neg Bool.false_ne_true, run_of_noFault hfault]
      simp

/-- How far a pin of an existing row comes. -/
inductive Pinned (env : Env F) (id : Int) (pinned : Bool) (requester : String) (c : Conn F) :
    Db F → Prop
  | nothing : Pinned env id pinned requester c c.db
  | row {m : Memory F} (hm : c.db.memory? id = some m) (hran : env.fault c.stmts = false)
      (hcut : env.fault (c.stmts + 1) = true) :
      Pinned env id pinned requester c (pinRow id (env.clock c.ticks) pinned c.db)
  | vec {m : Memory F} (hm : c.db.memory? id = some m) (hran : env.fault c.stmts = false)
      (hcut : env.fault (c.stmts + 2) = true) :
      Pinned env id pinned requester c
        (pinVec id pinned (pinRow id (env.clock c.ticks) pinned c.db))
  | all {m : Memory F} (hm : c.db.memory? id = some m) :
      Pinned env id pinned requester c (pinEntry id (env.clock c.ticks) pinned requester
        (pinVec id pinned (pinRow id (env.clock c.ticks) pinned c.db)))

omit [F64 F] in
theorem memory?_pinRow {id now : Int} {pinned : Bool} {db : Db F} {m : Memory F}
    (hm : db.memory? id = some m) : (pinRow id now pinned db).memory? id ≠ none := by
  obtain ⟨hmem, hid⟩ := memory?_some hm
  intro hnone
  refine memory?_eq_none.mp hnone { m with pinned := pinCode pinned, updatedAt := now } ?_ hid
  exact mem_updateMemory.mpr ⟨m, hmem, by rw [if_pos hid]⟩

/-- The statements after the first, for a row that exists. -/
def pinRest (env : Env F) (id now : Int) (pinned : Bool) (requester : String) : Write F Bool := do
  run env (pinVec id pinned)
  recordPin env id now pinned requester
  return true

omit [F64 F] in
theorem setMemoryPinned_eq (id : Int) (pinned : Bool) (requester : String) :
    setMemoryPinned env id pinned requester = (nowMillis env >>= fun now =>
      exec env (fun db => .ok ((db.memory? id).isSome, pinRow id now pinned db)) >>= fun changed =>
        if !changed then pure false else pinRest env id now pinned requester) := rfl

omit [F64 F] in
private theorem pinRest_db {id now : Int} {pinned : Bool} {requester : String} {c : Conn F}
    (hfound : c.db.memory? id ≠ none) :
    (pinRest env id now pinned requester c).2.db =
      if env.fault c.stmts then c.db
      else if env.fault (c.stmts + 1) then pinVec id pinned c.db
      else pinEntry id now pinned requester (pinVec id pinned c.db) := by
  unfold pinRest
  cases hfirst : env.fault c.stmts with
  | true =>
    rw [bind_of_error _ (run_of_fault hfirst)]
    rfl
  | false =>
    rw [bind_of_ok _ (run_of_noFault hfirst)]
    have hrest : (recordPin env id now pinned requester
        { c with stmts := c.stmts + 1, db := pinVec id pinned c.db }).2.db =
        if env.fault (c.stmts + 1) then pinVec id pinned c.db
        else pinEntry id now pinned requester (pinVec id pinned c.db) := recordPin_run hfound
    rw [if_neg Bool.false_ne_true, ← hrest, bind_run]
    cases recordPin env id now pinned requester
      { c with stmts := c.stmts + 1, db := pinVec id pinned c.db } with
    | mk r t => cases r <;> rfl

omit [F64 F] in
private theorem setMemoryPinned_pinned {id : Int} {pinned : Bool} {requester : String} (c : Conn F) :
    Pinned env id pinned requester c (setMemoryPinned env id pinned requester c).2.db := by
  rw [setMemoryPinned_eq, bind_of_ok _ (nowMillis_run env c)]
  cases hfirst : env.fault c.stmts with
  | true =>
    rw [bind_of_error _ (exec_of_fault (c := { c with ticks := c.ticks + 1 }) hfirst)]
    exact .nothing
  | false =>
    rw [bind_of_ok _ (exec_of_ok (c := { c with ticks := c.ticks + 1 }) hfirst rfl)]
    cases hfound : c.db.memory? id with
    | none =>
      have hsame : pinRow id (env.clock c.ticks) pinned c.db = c.db :=
        updateMemory_of_none hfound _
      rw [Option.isSome_none, if_pos (by rfl)]
      show Pinned env id pinned requester c (pinRow id (env.clock c.ticks) pinned c.db)
      rw [hsame]
      exact .nothing
    | some m =>
      rw [Option.isSome_some, if_neg (by decide), pinRest_db (memory?_pinRow hfound)]
      split
      · next hcut => exact .row hfound hfirst hcut
      split
      · next hcut => exact .vec hfound hfirst hcut
      · exact .all hfound

/-- A pin that changes the flag of its row is not stopped after its first statement. -/
def Op.NotCut (env : Env F) : Op F → Conn F → Prop
  | .setPinned id pinned _, c => ∀ m, c.db.memory? id = some m → m.pinned ≠ pinCode pinned →
      env.fault c.stmts = false → env.fault (c.stmts + 1) = false ∧ env.fault (c.stmts + 2) = false
  | _, _ => True

section

variable {db : Db F} {id now : Int} {pinned : Bool} {requester : String} {m : Memory F}

omit [F64 F] in
/-- With unique ids, the row that was found is the only one with its id. -/
theorem PinLedger.row_eq (h : PinLedger db) (hm : db.memory? id = some m) {m' : Memory F}
    (hm' : m' ∈ db.memories) (hid : m'.id = id) : m' = m := by
  obtain ⟨hmem, hid'⟩ := memory?_some hm
  exact List.inj_on_of_nodup_map h.ids hm' hmem (hid.trans hid'.symm)

omit [F64 F] in
theorem PinLedger.stopRow (h : PinLedger db) (hm : db.memory? id = some m)
    (hsame : m.pinned = pinCode pinned) : PinLedger (pinRow id now pinned db) := by
  refine h.updateMemory rfl rfl rfl rfl (fun _ => rfl) fun m' hm' hid => ?_
  rw [h.row_eq hm hm' hid]
  exact hsame.symm

omit [F64 F] in
/-- A vector whose row has the flag already is left as it is. -/
theorem PinLedger.stopVec (h : PinLedger db) (hrow : ∃ m ∈ db.memories, m.id = id ∧
    m.pinned = pinCode pinned) : PinLedger (pinVec id pinned db) := by
  obtain ⟨m, hm, hid, hpinned⟩ := hrow
  refine h.congr rfl rfl rfl ?_
  show (db.vecs.map _).map _ = _
  rw [List.map_map]
  refine List.map_congr_left fun v hv => ?_
  simp only [Function.comp_apply]
  split
  · next hrowid => rw [h.mirror m hm v hv (hrowid.trans hid.symm), hpinned]
  · rfl

omit [F64 F] in
private theorem mem_pinRow {m' : Memory F} (hm' : m' ∈ (pinRow id now pinned db).memories) :
    m'.id = id ∧ m'.pinned = pinCode pinned ∨ m'.id ≠ id ∧ m' ∈ db.memories := by
  obtain ⟨m₀, hm₀, rfl⟩ := mem_updateMemory.mp hm'
  by_cases heq : m₀.id = id
  · rw [if_pos heq]
    exact .inl ⟨heq, rfl⟩
  · rw [if_neg heq]
    exact .inr ⟨heq, hm₀⟩

omit [F64 F] in
private theorem mem_pinVec {v : VecRow F} (hv : v ∈ (pinVec id pinned db).vecs) :
    v.rowid = id ∧ v.pinned = pinCode pinned ∨ v.rowid ≠ id ∧ v ∈ db.vecs := by
  obtain ⟨v₀, hv₀, rfl⟩ := mem_updateVec.mp hv
  by_cases heq : v₀.rowid = id
  · rw [if_pos heq]
    exact .inl ⟨heq, rfl⟩
  · rw [if_neg heq]
    exact .inr ⟨heq, hv₀⟩

omit [F64 F] in
private theorem mem_pinEntry {p : Pin} : p ∈ (pinEntry id now pinned requester db).pins ↔
    p.memoryId ≠ id ∧ p ∈ db.pins ∨ pinned = true ∧ p = ⟨id, now, requester⟩ := by
  cases pinned <;> simp [pinEntry, and_comm]

omit [F64 F] in
/-- All statements of a pin together. -/
theorem PinLedger.complete (h : PinLedger db) (hm : db.memory? id = some m) :
    PinLedger (pinEntry id now pinned requester (pinVec id pinned (pinRow id now pinned db))) := by
  obtain ⟨hmem, hid⟩ := memory?_some hm
  have hids : ((pinRow id now pinned db).memories.map Memory.id) = db.memories.map Memory.id := by
    exact map_updateMemory fun _ => rfl
  constructor
  case once =>
    show ((_ ++ _ : List Pin).map Pin.memoryId).Nodup
    rw [List.map_append, List.nodup_append]
    refine ⟨h.once.sublist (List.filter_sublist.map _), ?_, fun i hi j hj heq => ?_⟩
    · split
      · exact List.nodup_singleton _
      · exact List.nodup_nil
    · obtain ⟨p, hp, rfl⟩ := List.mem_map.mp hi
      have hne := of_decide_eq_true (List.mem_filter.mp hp).2
      split at hj
      · exact hne (heq.trans (List.mem_singleton.mp hj))
      · cases hj
  case flag =>
    intro m' hm'
    rcases mem_pinRow hm' with ⟨hid', hpinned⟩ | ⟨hne, hold⟩
    · rw [hpinned, hid']
      cases pinned with
      | true => exact ⟨fun _ => ⟨_, mem_pinEntry.mpr (.inr ⟨rfl, rfl⟩), rfl⟩, fun _ => by decide⟩
      | false =>
        refine ⟨fun hne => absurd rfl hne, fun ⟨p, hp, heq⟩ => ?_⟩
        rcases mem_pinEntry.mp hp with ⟨hne, _⟩ | ⟨hfalse, _⟩
        · exact absurd heq hne
        · cases hfalse
    · rw [h.flag m' hold]
      constructor
      · rintro ⟨p, hp, heq⟩
        exact ⟨p, mem_pinEntry.mpr (.inl ⟨heq ▸ hne, hp⟩), heq⟩
      · rintro ⟨p, hp, heq⟩
        rcases mem_pinEntry.mp hp with ⟨_, hp⟩ | ⟨_, rfl⟩
        · exact ⟨p, hp, heq⟩
        · exact absurd heq.symm hne
  case mirror =>
    intro m' hm' v hv hrowid
    rcases mem_pinRow hm' with ⟨hid', hpinned⟩ | ⟨hne, hold⟩
    · rcases mem_pinVec hv with ⟨_, hvec⟩ | ⟨hother, _⟩
      · rw [hvec, hpinned]
      · exact absurd (hrowid.trans hid') hother
    · rcases mem_pinVec hv with ⟨hrow, _⟩ | ⟨_, hv⟩
      · exact absurd (hrowid.symm.trans hrow) hne
      · exact h.mirror m' hold v hv hrowid
  case ids =>
    show ((pinRow id now pinned db).memories.map Memory.id).Nodup
    rw [hids]
    exact h.ids
  case idBound =>
    intro m' hm'
    rcases mem_pinRow hm' with ⟨hid', _⟩ | ⟨_, hold⟩
    · rw [hid', ← hid]
      exact h.idBound m hmem
    · exact h.idBound m' hold
  case pinBound =>
    intro p hp
    rcases mem_pinEntry.mp hp with ⟨_, hp⟩ | ⟨_, rfl⟩
    · exact h.pinBound p hp
    · exact hid ▸ h.idBound m hmem
  case vecBound =>
    intro v hv
    rcases mem_pinVec hv with ⟨hrow, _⟩ | ⟨_, hv⟩
    · rw [hrow, ← hid]
      exact h.idBound m hmem
    · exact h.vecBound v hv

end

omit [F64 F] in
/-- A pin that is stopped has not changed the flag. -/
private theorem pinLedger_setMemoryPinned {id : Int} {pinned : Bool} {requester : String} :
    MovesFrom (Op.NotCut env (.setPinned id pinned requester)) (OnDb (Preserves PinLedger))
      (setMemoryPinned env id pinned requester) := by
  intro c hcut h
  have hflag : ∀ m, c.db.memory? id = some m → env.fault c.stmts = false →
      env.fault (c.stmts + 1) = true ∨ env.fault (c.stmts + 2) = true →
      m.pinned = pinCode pinned := by
    intro m hm hran hstop
    by_contra hne
    obtain ⟨hsecond, hthird⟩ := hcut m hm hne hran
    rcases hstop with hstop | hstop
    · exact absurd hstop (by rw [hsecond]; decide)
    · exact absurd hstop (by rw [hthird]; decide)
  have hreached : Pinned env id pinned requester c
      (setMemoryPinned env id pinned requester c).2.db := setMemoryPinned_pinned c
  show PinLedger (setMemoryPinned env id pinned requester c).2.db
  generalize (setMemoryPinned env id pinned requester c).2.db = db' at hreached ⊢
  cases hreached with
  | nothing => exact h
  | row hm hran hstop => exact h.stopRow hm (hflag _ hm hran (.inl hstop))
  | vec hm hran hstop =>
    have hsame := hflag _ hm hran (.inr hstop)
    obtain ⟨hmem, hid⟩ := memory?_some hm
    refine (h.stopRow hm hsame).stopVec ⟨_, mem_updateMemory.mpr ⟨_, hmem, rfl⟩, ?_⟩
    rw [if_pos hid]
    exact ⟨hid, rfl⟩
  | all hm => exact h.complete hm

private theorem pinLedger_step {op : Op F} :
    MovesFrom (fun c => op.AddsOnly NotPinned env c ∧ op.NotCut env c)
      (OnDb (Preserves PinLedger)) (op.step env) := by
  by_cases hop : op.ordinary = true
  · exact (statements_pinLedger.stamped.onDb_step hop).from
  cases op with
  | setPinned id pinned requester =>
    exact movesFrom_bind (fun _ _ => True) (fun c hc => pinLedger_setMemoryPinned c hc.2)
      (fun _ _ _ _ _ => trivial) fun _ => (moves_pure ()).from
  | setSummary id summary tokens =>
    refine Moves.from (moves_bind onDb_nowMillis fun now => onDb_run fun db h => ?_)
    exact h.updateMemory (f := fun m => { m with
      summaryText := some summary, summaryTokens := some tokens, updatedAt := now }) rfl rfl rfl
      rfl (fun _ => rfl) fun _ _ _ => rfl
  | importFile emb schema file dryRun =>
    exact fun c hc => statements_pinLedger.stamped.onDb_importFile
      (fun row hrow r hr => hr.pinned.trans hrow) c hc.1
  | _ => exact absurd rfl hop

/-! ## What else a pin changes -/

/-- A row without its pin and the time of its last change, if it is the one with the id. -/
def unpinned (id : Int) (m : Memory F) : Memory F :=
  if m.id = id then { m with pinned := 0, updatedAt := 0 } else m

/-- A vector without its pin, if it is the one of the id. -/
def unpinnedVec (id : Int) (v : VecRow F) : VecRow F :=
  if v.rowid = id then { v with pinned := 0 } else v

/-- Two databases that agree apart from the pin of a row, in its three places, and its time. -/
structure OnlyPin (id : Int) (db db' : Db F) : Prop where
  rest : db' = { db with
    memories := db'.memories, vecs := db'.vecs, vecLog := db'.vecLog, pins := db'.pins }
  memories : db'.memories.map (unpinned id) = db.memories.map (unpinned id)
  vecs : db'.vecs.map (unpinnedVec id) = db.vecs.map (unpinnedVec id)
  pins : (db'.pins.filter fun p => p.memoryId ≠ id) = db.pins.filter fun p => p.memoryId ≠ id

omit [F64 F] in
instance (id : Int) : Std.Refl (OnlyPin (F := F) id) where
  refl _ := ⟨rfl, rfl, rfl, rfl⟩

omit [F64 F] in
instance (id : Int) : IsTrans (Db F) (OnlyPin id) where
  trans a b c hab hbc := by
    refine ⟨?_, hbc.memories.trans hab.memories, hbc.vecs.trans hab.vecs, hbc.pins.trans hab.pins⟩
    rw [hbc.rest, hab.rest]

omit [F64 F] in
private theorem onlyPin_setMemoryPinned {id : Int} {pinned : Bool} {requester : String} :
    Moves (OnDb (OnlyPin id)) (setMemoryPinned env id pinned requester) := by
  refine onDb_setMemoryPinned (fun db code now => ⟨rfl, ?_, rfl, rfl⟩)
    (fun db code => ⟨rfl, rfl, ?_, rfl⟩) fun db entry hentry => ⟨rfl, rfl, rfl, ?_⟩
  · show (db.memories.map _).map _ = _
    rw [List.map_map]
    refine List.map_congr_left fun m _ => ?_
    simp only [Function.comp_apply, unpinned]
    split
    · next heq => simp only [heq]
    · rfl
  · show (db.vecs.map _).map _ = _
    rw [List.map_map]
    refine List.map_congr_left fun v _ => ?_
    simp only [Function.comp_apply, unpinnedVec]
    split
    · next heq => simp only [heq]
    · rfl
  · have hnone : (entry.filter fun p => p.memoryId ≠ id) = [] := by
      rw [List.filter_eq_nil_iff]
      exact fun p hp => by simp [hentry p hp]
    rw [List.filter_append, hnone, List.append_nil, List.filter_filter]
    simp only [Bool.and_self]

/-! ## Whole runs -/

/-- In every run whose imports add no pinned row, and in which no pin that changes a flag is stopped
between its statements, the three places agree. A pin, whatever becomes of it, changes nothing else. -/
theorem pins_agree (env : Env F) (ops : List (Op F)) (agentId : String) (embedDim : Nat)
    (hadds : ∀ pre op post, ops = pre ++ op :: post →
      op.AddsOnly NotPinned env (runOps env pre (emptyStore F agentId embedDim)))
    (hcut : ∀ pre op post, ops = pre ++ op :: post →
      op.NotCut env (runOps env pre (emptyStore F agentId embedDim))) :
    PinsAgree (runOps env ops (emptyStore F agentId embedDim)).db ∧
      ∀ (c : Conn F) (id : Int) (pinned : Bool) (requester : String),
        OnlyPin id c.db (setMemoryPinned env id pinned requester c).2.db := by
  refine ⟨?_, fun c id pinned requester => onlyPin_setMemoryPinned c⟩
  have hledger : PinLedger (runOps env ops (emptyStore F agentId embedDim)).db :=
    runOps_preserves (fun op => pinLedger_step)
      (fun pre op post hsplit => ⟨hadds pre op post hsplit, hcut pre op post hsplit⟩)
      (.empty embedDim)
  exact ⟨hledger.once, hledger.flag, hledger.mirror⟩

/-- An unpinned row is imported, pinned and unpinned. -/
theorem pins_agree_sample : PinsAgree (runOps sampleEnv
    [importOf (importedRow "active" 0), .setPinned 1 true "user", .setPinned 1 false "user"]
    (emptyStore ℚ "a" 1)).db := by
  refine (pins_agree sampleEnv _ "a" 1 (fun pre op post hsplit => ?_)
    (fun pre op post hsplit => ?_)).1
  all_goals
    have hmem : op ∈ [importOf (importedRow "active" 0), .setPinned 1 true "user",
        .setPinned 1 false "user"] := hsplit ▸ List.mem_append_right _ List.mem_cons_self
    simp only [List.mem_cons, List.not_mem_nil, or_false] at hmem
    rcases hmem with rfl | rfl | rfl
  · exact importOf_addsOnly (show (importedRow "active" 0).pinned = 0 by decide) _
  · trivial
  · trivial
  · trivial
  · exact fun _ _ _ _ => ⟨rfl, rfl⟩
  · exact fun _ _ _ _ => ⟨rfl, rfl⟩

/-- A line with a pin becomes a pinned row that the ledger does not know. -/
theorem import_pinned_unledgered :
    ¬ ∀ ops : List (Op ℚ), PinsAgree (runOps sampleEnv ops (emptyStore ℚ "a" 1)).db := by
  intro h
  have hrows : (runOps sampleEnv [importOf (importedRow "active" 1)]
      (emptyStore ℚ "a" 1)).db.memories.map Memory.pinned = [1] := by decide +kernel
  have hpins : (runOps sampleEnv [importOf (importedRow "active" 1)]
      (emptyStore ℚ "a" 1)).db.pins = [] := by decide +kernel
  have hrow := List.mem_singleton_self (1 : Int)
  rw [← hrows] at hrow
  obtain ⟨m, hm, hpinned⟩ := List.mem_map.mp hrow
  obtain ⟨p, hp, _⟩ := ((h [importOf (importedRow "active" 1)]).flag m hm).mp (by omega)
  rw [hpins] at hp
  cases hp

end AgosMemory
