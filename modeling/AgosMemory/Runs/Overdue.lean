import AgosMemory.Runs.Clients
import AgosMemory.Runs.Reaping

/-!
# The reaper among others

The reaper reads a list of rows and then works it off, one writer job for each row and four for a
purge, and no job looks at its row again. What the others do in between decides whether a row that
is written is still the one that was listed.
-/

namespace AgosMemory.Reaper

open Library Store
open Library.Client (call Records)

variable {F : Type} [F64 F]

/-! ## The call -/

/-- Both lists are reads of their own. -/
def reaperClient (env : Env F) (cfg : MemoryConfig) : Work F ReaperReport := do
  let now ← call (nowMillis env)
  let expired ← call (expiredMemories env now cfg)
  Client.forEach expired fun id => call (autocommit (deprecateForTtl env id))
  let pastGrace ← call (deprecatedPastGrace env (cfg.ttlGraceDays * DAY_MILLIS))
  Client.forEach pastGrace fun row =>
    hardPurgeClient env autocommit row.1 (some "ttl-reaper") (some "TTL grace period expired")
      "ttl_purge"
  return ⟨expired.length, pastGrace.length⟩

omit [F64 F] in
theorem alone_reaper (env : Env F) (cfg : MemoryConfig) :
    (reaperClient env cfg).alone = runTtlReaper env cfg := by
  unfold reaperClient runTtlReaper
  simp only [Client.alone_bind, Client.alone_call, Client.alone_forEach, Client.alone_pure,
    alone_hardPurge]
  rfl

/-- A run of the reaper, or any operation. -/
inductive Request (F : Type) where
  | reap (cfg : MemoryConfig)
  | op (op : Op F)

def clientOf (env : Env F) : Request F → Work F Unit
  | .reap cfg => Client.effect (reaperClient env cfg)
  | .op op => op.client env autocommit

/-! ## What is asked of it -/

/-- The steps of one run, each with the states around it. -/
abbrev Log (F : Type) := List (Conn F × Conn F)

/-- A row that a step removes is past its grace period then, and a row that it changes is active and
expired then. -/
structure Warranted (env : Env F) (cfg : MemoryConfig) (step : Conn F × Conn F) : Prop where
  purged : ∀ m ∈ step.1.db.memories, (∀ m' ∈ step.2.db.memories, m'.id ≠ m.id) →
    pastGrace (cfg.ttlGraceDays * DAY_MILLIS) (env.clock step.1.ticks) m = true
  deprecated : ∀ m ∈ step.1.db.memories, m ∉ step.2.db.memories →
    (∃ m' ∈ step.2.db.memories, m'.id = m.id) → expiredAt cfg (env.clock step.1.ticks) m = true

/-- What the lists go by. -/
def retention (m : Memory F) : Status × Tier × Int × Option Int :=
  (m.status, m.tier, m.createdAt, m.deletedAt)

/-- The clock has not gone back since the list was read, and who has the row's id is as the row
was. -/
def AsListed (env : Env F) (instant : Int) (m : Memory F) (c : Conn F) : Prop :=
  instant ≤ env.clock c.ticks ∧ ∀ m' ∈ c.db.memories, m'.id = m.id → retention m' = retention m

instance (env : Env F) (instant : Int) (m : Memory F) (c : Conn F) :
    Decidable (AsListed env instant m c) :=
  inferInstanceAs (Decidable (_ ∧ ∀ m' ∈ c.db.memories, m'.id = m.id → retention m' = retention m))

/-- The rows on the first list of a run. -/
def expiredRows (env : Env F) (cfg : MemoryConfig) : Log F → List (Memory F)
  | first :: list :: _ => list.1.db.memories.filter (expiredAt cfg (env.clock first.1.ticks))
  | _ => []

/-- The step that reads the second list, after one for each row on the first. -/
def graceStep (env : Env F) (cfg : MemoryConfig) (log : Log F) : Option (Conn F × Conn F) :=
  log[2 + (expiredRows env cfg log).length]?

/-- The rows on the second list. -/
def dueRows (env : Env F) (cfg : MemoryConfig) (list : Conn F × Conn F) : List (Memory F) :=
  list.1.db.memories.filter
    (pastGrace (cfg.ttlGraceDays * DAY_MILLIS) (env.clock list.1.ticks))

/-- No listed row has changed in status, tier, creation or deletion time when its turn comes. A
purge takes six steps, and the third one deletes. -/
structure Undisturbed (env : Env F) (cfg : MemoryConfig) (log : Log F) : Prop where
  expired : ∀ first ∈ log[0]?, ∀ p ∈ (expiredRows env cfg log).zipIdx, ∀ u ∈ log[2 + p.2]?,
    AsListed env (env.clock first.1.ticks) p.1 u.1
  due : ∀ list ∈ graceStep env cfg log, ∀ p ∈ (dueRows env cfg list).zipIdx,
    ∀ u ∈ log[3 + (expiredRows env cfg log).length + 6 * p.2 + 2]?,
      AsListed env (env.clock list.1.ticks) p.1 u.1

/-! ## Single steps -/

section

variable {env : Env F} {cfg : MemoryConfig}

omit [F64 F] in
private theorem expiredAt_later {instant instant' : Int} {m m' : Memory F}
    (hsame : retention m' = retention m) (hle : instant ≤ instant')
    (h : expiredAt cfg instant m = true) : expiredAt cfg instant' m' = true := by
  obtain ⟨hstatus, hsame⟩ := Prod.mk.inj hsame
  obtain ⟨htier, hsame⟩ := Prod.mk.inj hsame
  obtain ⟨hcreated, -⟩ := Prod.mk.inj hsame
  obtain ⟨hactive, hlife, hpast⟩ := of_decide_eq_true h
  refine decide_eq_true ⟨hstatus.trans hactive, ?_, ?_⟩
  · rw [htier]
    exact hlife
  · rw [htier, hcreated]
    exact lt_of_lt_of_le hpast hle

omit [F64 F] in
private theorem pastGrace_later {grace instant instant' : Int} {m m' : Memory F}
    (hsame : retention m' = retention m) (hle : instant ≤ instant')
    (h : pastGrace grace instant m = true) : pastGrace grace instant' m' = true := by
  obtain ⟨hstatus, hsame⟩ := Prod.mk.inj hsame
  obtain ⟨-, hsame⟩ := Prod.mk.inj hsame
  obtain ⟨-, hdeleted⟩ := Prod.mk.inj hsame
  obtain ⟨hdeprecated, hpast⟩ := of_decide_eq_true h
  refine decide_eq_true ⟨hstatus.trans hdeprecated, ?_⟩
  rw [hdeleted]
  cases hwhen : m.deletedAt with
  | none =>
    rw [hwhen] at hpast
    cases hpast
  | some t =>
    rw [hwhen] at hpast
    exact decide_eq_true (lt_of_lt_of_le (of_decide_eq_true hpast) hle)

omit [F64 F] in
/-- A step that leaves the rows as they are. -/
private theorem warranted_same {u v : Conn F} (h : v.db.memories = u.db.memories) :
    Warranted env cfg (u, v) where
  purged m hm hgone := absurd rfl (hgone m (h ▸ hm))
  deprecated _ hm hnot := absurd (h ▸ hm) hnot

/-- Every row is still there under its id, and the ones with another id are as they were. -/
structure Rewrites (id : Int) (db db' : Db F) : Prop where
  there : ∀ m ∈ db.memories, ∃ m' ∈ db'.memories, m'.id = m.id
  others : ∀ m ∈ db.memories, m.id ≠ id → m ∈ db'.memories

omit [F64 F] in
theorem Rewrites.of_memories {id : Int} {db db' : Db F} (h : db'.memories = db.memories) :
    Rewrites id db db' where
  there m hm := ⟨m, h ▸ hm, rfl⟩
  others _ hm _ := h ▸ hm

instance {id : Int} : Std.Refl (Rewrites (F := F) id) where
  refl _ := .of_memories rfl

instance {id : Int} : IsTrans (Db F) (Rewrites id) where
  trans _ _ _ hab hbc :=
    { there := fun m hm => by
        obtain ⟨m', hm', hid⟩ := hab.there m hm
        obtain ⟨m'', hm'', hid'⟩ := hbc.there m' hm'
        exact ⟨m'', hm'', hid'.trans hid⟩
      others := fun m hm hne => hbc.others m (hab.others m hm hne) hne }

omit [F64 F] in
private theorem rewrites_deprecate (id : Int) :
    Program.Moves (OnDb (Rewrites id)) (deprecateForTtl env id) := by
  refine onDb_softChange (fun db now => ⟨fun m hm => ?_, fun m hm hne => ?_⟩)
    fun db row _ => .of_memories rfl
  · refine ⟨_, mem_updateMemory.mpr ⟨m, hm, rfl⟩, ?_⟩
    split <;> rfl
  · exact mem_updateMemory.mpr ⟨m, hm, (if_neg hne).symm⟩

/-- The rows with one id are gone, or nothing is. -/
def Removes (id : Int) (db db' : Db F) : Prop :=
  db'.memories = db.memories ∨ db'.memories = db.memories.filter fun m => m.id ≠ id

instance {id : Int} : Std.Refl (Removes (F := F) id) where
  refl _ := .inl rfl

instance {id : Int} : IsTrans (Db F) (Removes id) where
  trans _ _ _ hab hbc := by
    unfold Removes
    rcases hab with hab | hab <;> rcases hbc with hbc | hbc <;> rw [hbc, hab]
    · exact .inl rfl
    · exact .inr rfl
    · exact .inr rfl
    · refine .inr ?_
      rw [List.filter_filter]
      simp only [Bool.and_self]

omit [F64 F] in
private theorem removes_delete (id : Int) :
    Program.Moves (OnDb (Removes id)) (Tombstones.deleteJob env id) := by
  unfold Tombstones.deleteJob
  refine Program.moves_bind onDb_query fun m => ?_
  refine Program.moves_bind onDb_query fun before => ?_
  refine Program.moves_bind (onDb_exec fun db _ db' h => ?_) fun _ => ?_
  · rw [deletePhase_ok h]
    exact .inr rfl
  · exact Program.moves_bind onDb_query fun _ => Program.moves_pure _

/-- The same rows. -/
def SameRows (db db' : Db F) : Prop := db'.memories = db.memories

instance : Std.Refl (SameRows (F := F)) where
  refl _ := rfl

instance : IsTrans (Db F) SameRows where
  trans _ _ _ hab hbc := Eq.trans hbc hab

omit [F64 F] in
private theorem sameRows_vacuum : Program.Moves (OnDb SameRows) (Tombstones.vacuumJob env) :=
  onDb_run fun _ => rfl

omit [F64 F] in
private theorem sameRows_record (r : Tombstones.Request) (e : Tombstones.Evidence) :
    Program.Moves (OnDb SameRows) (Tombstones.recordJob env r e) :=
  Program.moves_bind (onDb_run fun _ => rfl) fun _ => onDb_run fun _ => rfl

omit [F64 F] in
private theorem warranted_rewrites {id : Int} {u v : Conn F} (h : OnDb (Rewrites id) u v)
    (hrow : ∀ m ∈ u.db.memories, m.id = id → expiredAt cfg (env.clock u.ticks) m = true) :
    Warranted env cfg (u, v) where
  purged m hm hgone := by
    obtain ⟨m', hm', hid⟩ := h.there m hm
    exact absurd hid (hgone m' hm')
  deprecated m hm hnot _ := by
    refine hrow m hm ?_
    by_contra hne
    exact hnot (h.others m hm hne)

omit [F64 F] in
private theorem warranted_removes {id : Int} {u v : Conn F} (h : OnDb (Removes id) u v)
    (hrow : ∀ m ∈ u.db.memories, m.id = id →
      pastGrace (cfg.ttlGraceDays * DAY_MILLIS) (env.clock u.ticks) m = true) :
    Warranted env cfg (u, v) := by
  rcases h with hsame | hgone
  · exact warranted_same hsame
  have hmem : ∀ m, m ∈ v.db.memories ↔ m ∈ u.db.memories ∧ m.id ≠ id := fun m => by
    rw [hgone, List.mem_filter, decide_eq_true_iff]
  refine ⟨fun m hm hremoved => hrow m hm ?_, fun m hm hnot hleft => ?_⟩
  · by_contra hne
    exact hremoved m ((hmem m).mpr ⟨hm, hne⟩) rfl
  · -- a row with the same id is left, so the id is another one
    obtain ⟨m', hm', hid⟩ := hleft
    exact absurd ((hmem m).mpr ⟨hm, hid ▸ ((hmem m').mp hm').2⟩) hnot

end

/-! ## Whole runs -/

section

variable {env : Env F} {cfg : MemoryConfig} {log : Log F}

omit [F64 F] in
private theorem expiredRows_append (h : 2 ≤ log.length) (rest : Log F) :
    expiredRows env cfg (log ++ rest) = expiredRows env cfg log := by
  match log, h with
  | first :: list :: log, _ => rfl

omit [F64 F] in
private theorem graceStep_append (h : 2 + (expiredRows env cfg log).length < log.length)
    (rest : Log F) :
    graceStep env cfg (log ++ rest) = graceStep env cfg log := by
  unfold graceStep
  rw [expiredRows_append (by omega), List.getElem?_append_left h]

omit [F64 F] in
/-- What a log says of its lists, a longer one says as well. -/
theorem Undisturbed.of_append {rest : Log F} (h : Undisturbed env cfg (log ++ rest)) :
    Undisturbed env cfg log := by
  have hlonger : ∀ {n : Nat} {u}, u ∈ log[n]? → u ∈ (log ++ rest)[n]? := fun {n u} hu => by
    have hlt : n < log.length := (List.getElem?_eq_some_iff.mp hu).1
    rw [List.getElem?_append_left hlt]
    exact hu
  rcases Nat.lt_or_ge log.length 2 with hshort | hlong
  · have hnone : expiredRows env cfg log = [] := by
      match log, hshort with
      | [], _ => rfl
      | [_], _ => rfl
    refine ⟨fun first _ p hp => ?_, fun list hlist => ?_⟩
    · rw [hnone] at hp
      cases hp
    · unfold graceStep at hlist
      rw [hnone, List.getElem?_eq_none (by simpa using Nat.le_of_lt hshort)] at hlist
      cases hlist
  · have hrows : expiredRows env cfg (log ++ rest) = expiredRows env cfg log :=
      expiredRows_append hlong rest
    refine ⟨fun first hfirst p hp u hu => ?_, fun list hlist p hp u hu => ?_⟩
    · exact h.expired first (hlonger hfirst) p (hrows ▸ hp) u (hlonger hu)
    · have hgrace : list ∈ graceStep env cfg (log ++ rest) := by
        unfold graceStep
        rw [hrows]
        exact hlonger hlist
      exact h.due list hgrace p hp u (by rw [hrows]; exact hlonger hu)

/-- If no listed row was disturbed so far, every step had a reason to remove and to change what it did. -/
def Retains (env : Env F) (cfg : MemoryConfig) (log : Log F) : Prop :=
  Undisturbed env cfg log → ∀ step ∈ log, Warranted env cfg step

omit [F64 F] in
theorem Retains.concat (h : Retains env cfg log) {step : Conn F × Conn F}
    (hstep : Undisturbed env cfg (log ++ [step]) → Warranted env cfg step) :
    Retains env cfg (log ++ [step]) := by
  intro hcalm p hp
  rcases List.mem_append.mp hp with hp | hp
  · exact h hcalm.of_append p hp
  · rw [List.mem_singleton.mp hp]
    exact hstep hcalm

/-- A run that works its first list off: so many rows are done. -/
structure Deprecating (env : Env F) (cfg : MemoryConfig) (first : Conn F × Conn F)
    (rows : List (Memory F)) (n : Nat) (log : Log F) : Prop where
  head : log[0]? = some first
  expired : expiredRows env cfg log = rows
  length : log.length = 2 + n
  kept : Retains env cfg log

/-- A run that works its second list off: so many steps are done. -/
structure Purging (env : Env F) (cfg : MemoryConfig) (rows : List (Memory F))
    (list : Conn F × Conn F) (n : Nat) (log : Log F) : Prop where
  expired : expiredRows env cfg log = rows
  list : graceStep env cfg log = some list
  length : log.length = 3 + rows.length + n
  kept : Retains env cfg log

section

variable {first list step : Conn F × Conn F} {rows : List (Memory F)} {n : Nat}

omit [F64 F] in
theorem Deprecating.next (h : Deprecating env cfg first rows n log)
    (hkept : Retains env cfg (log ++ [step])) :
    Deprecating env cfg first rows (n + 1) (log ++ [step]) where
  head := by rw [List.getElem?_append_left (by rw [h.length]; omega), h.head]
  expired := by rw [expiredRows_append (by rw [h.length]; omega), h.expired]
  length := by rw [List.length_append, h.length]; rfl
  kept := hkept

omit [F64 F] in
theorem Purging.next (h : Purging env cfg rows list n log)
    (hkept : Retains env cfg (log ++ [step])) :
    Purging env cfg rows list (n + 1) (log ++ [step]) where
  expired := by rw [expiredRows_append (by rw [h.length]; omega), h.expired]
  list := by rw [graceStep_append (by rw [h.expired, h.length]; omega), h.list]
  length := by rw [List.length_append, h.length]; rfl
  kept := hkept

end

section

variable {β : Type} {first list : Conn F × Conn F} {rows : List (Memory F)}

omit [F64 F] in
private theorem records_deprecations {k : Unit → Work F β}
    (hlisted : ∀ m ∈ rows, expiredAt cfg (env.clock first.1.ticks) m = true)
    (hk : ∀ log, Deprecating env cfg first rows rows.length log →
      (k ()).Records (Retains env cfg) log) (before todo : List (Memory F)) {log : Log F}
    (hrows : rows = before ++ todo) (h : Deprecating env cfg first rows before.length log) :
    (Client.forEach (todo.map Memory.id) (fun id => call (autocommit (deprecateForTtl env id))) >>=
      k).Records (Retains env cfg) log := by
  induction todo generalizing before log with
  | nil =>
    rw [List.append_nil] at hrows
    exact hk log (hrows ▸ h)
  | cons m todo ih =>
    have hturn : rows[before.length]? = some m := by
      rw [hrows, List.getElem?_append_right (Nat.le_refl _), Nat.sub_self]
      rfl
    have hkept : ∀ t, Retains env cfg (log ++ [(t, (deprecateForTtl env m.id t).2)]) := fun t => by
      refine h.kept.concat fun hcalm => warranted_rewrites (rewrites_deprecate m.id t) ?_
      intro m' hm' hid
      obtain ⟨hle, hsame⟩ := hcalm.expired first
        (by rw [List.getElem?_append_left (by rw [h.length]; omega)]; exact h.head)
        (m, before.length)
        (by
          rw [expiredRows_append (by rw [h.length]; omega), h.expired]
          exact List.mk_mem_zipIdx_iff_getElem?.mpr hturn)
        (t, (deprecateForTtl env m.id t).2)
        (by rw [← h.length]; exact List.getElem?_concat_length)
      exact expiredAt_later (hsame m' hm' hid) hle (hlisted m (List.mem_of_getElem? hturn))
    rw [List.map_cons, Client.forEach, Client.bind_assoc]
    refine Client.records_call_bind hkept fun t _ u hrun => ?_
    have hu : u = (deprecateForTtl env m.id t).2 := (congrArg Prod.snd hrun).symm
    refine ih (before ++ [m]) (by rw [hrows, List.append_assoc]; rfl) ?_
    rw [List.length_append, hu]
    exact h.next (hkept t)

omit [F64 F] in
private theorem records_quiet {α : Type} {m : Write F α} {k : α → Work F β} {n : Nat} {log : Log F}
    (hm : Program.Moves (OnDb SameRows) m) (h : Purging env cfg rows list n log)
    (hk : ∀ a log, Purging env cfg rows list (n + 1) log → (k a).Records (Retains env cfg) log) :
    (call m >>= k).Records (Retains env cfg) log := by
  have hkept : ∀ t, Retains env cfg (log ++ [(t, (m t).2)]) := fun t =>
    h.kept.concat fun _ => warranted_same (hm t)
  refine Client.records_call_bind hkept fun t a u hrun => hk a _ (h.next ?_)
  rw [show u = (m t).2 from (congrArg Prod.snd hrun).symm]
  exact hkept t

omit [F64 F] in
private theorem records_purges {k : Unit → Work F β}
    (hk : ∀ log, Purging env cfg rows list (6 * (dueRows env cfg list).length) log →
      (k ()).Records (Retains env cfg) log) (before todo : List (Memory F)) {log : Log F}
    (hrows : dueRows env cfg list = before ++ todo)
    (h : Purging env cfg rows list (6 * before.length) log) :
    (Client.forEach (todo.map fun m => (m.id, m.publicId)) (fun row =>
      hardPurgeClient env autocommit row.1 (some "ttl-reaper") (some "TTL grace period expired")
        "ttl_purge") >>= k).Records (Retains env cfg) log := by
  induction todo generalizing before log with
  | nil =>
    rw [List.append_nil] at hrows
    exact hk log (hrows ▸ h)
  | cons m todo ih =>
    have hturn : (dueRows env cfg list)[before.length]? = some m := by
      rw [hrows, List.getElem?_append_right (Nat.le_refl _), Nat.sub_self]
      rfl
    rw [List.map_cons, Client.forEach, Client.bind_assoc]
    unfold hardPurgeClient
    simp only [Client.bind_assoc]
    refine records_quiet (Store.onDb_same fun _ => rfl) h fun now log h => ?_
    refine records_quiet (Store.onDb_same fun _ => rfl) h fun c log h => ?_
    -- the third step deletes
    have hkept : ∀ t, Retains env cfg (log ++ [(t, (Tombstones.deleteJob env m.id t).2)]) :=
      fun t => by
        refine h.kept.concat fun hcalm => warranted_removes (removes_delete m.id t) ?_
        intro m' hm' hid
        have hlt : 2 + (expiredRows env cfg log).length < log.length := by
          rw [h.expired, h.length]
          omega
        obtain ⟨hle, hsame⟩ := hcalm.due list
          (by rw [graceStep_append hlt]; exact h.list)
          (m, before.length) (List.mk_mem_zipIdx_iff_getElem?.mpr hturn)
          (t, (Tombstones.deleteJob env m.id t).2)
          (by
            rw [expiredRows_append (by omega), h.expired, Nat.add_assoc _ _ 2, ← h.length]
            exact List.getElem?_concat_length)
        exact pastGrace_later (hsame m' hm' hid) hle
          (List.mem_filter.mp (List.mem_of_getElem? hturn)).2
    refine Client.records_call_bind hkept fun t e u hrun => ?_
    have hu : u = (Tombstones.deleteJob env m.id t).2 := (congrArg Prod.snd hrun).symm
    have hdeleted := h.next (hkept t)
    rw [← hu] at hdeleted
    refine records_quiet sameRows_vacuum hdeleted fun _ log h => ?_
    refine records_quiet sameRows_vacuum h fun _ log h => ?_
    refine records_quiet (sameRows_record _ _) h fun _ log h => ?_
    refine ih (before ++ [m]) (by rw [hrows, List.append_assoc]; rfl) ?_
    rw [List.length_append, Nat.mul_add]
    exact h

end

omit [F64 F] in
private theorem records_reaper (env : Env F) (cfg : MemoryConfig) :
    (reaperClient env cfg).Records (Retains env cfg) [] := by
  have hstart : Retains env cfg ([] : Log F) := fun _ => List.forall_mem_nil _
  unfold reaperClient
  refine Client.records_call_bind (fun t => hstart.concat fun _ => warranted_same rfl)
    fun t now u hnow => ?_
  obtain ⟨hok, rfl⟩ := Prod.mk.inj hnow
  obtain rfl := Except.ok.inj hok
  have hfirst : Retains env cfg [(t, { t with ticks := t.ticks + 1 })] :=
    hstart.concat fun _ => warranted_same rfl
  have hquery : ∀ t' : Conn F, Retains env cfg ([(t, { t with ticks := t.ticks + 1 })] ++
      [(t', (expiredMemories env (env.clock t.ticks) cfg t').2)]) := fun t' =>
    hfirst.concat fun _ => warranted_same (congrArg Db.memories (query_db _ t'))
  refine Client.records_call_bind hquery fun t' ids u hlist => ?_
  have hkept := hquery t'
  rw [hlist] at hkept
  obtain ⟨-, rfl⟩ := expiredMemories_ok hlist
  have hlisted : Deprecating env cfg (t, { t with ticks := t.ticks + 1 })
      (t'.db.memories.filter (expiredAt cfg (env.clock t.ticks))) 0
      ([(t, { t with ticks := t.ticks + 1 })] ++ [(t', u)]) := ⟨rfl, rfl, rfl, hkept⟩
  refine records_deprecations (fun m hm => (List.mem_filter.mp hm).2) (fun log h => ?_) [] _ rfl
    hlisted
  have hsecond : ∀ t, Retains env cfg (log ++
      [(t, (deprecatedPastGrace env (cfg.ttlGraceDays * DAY_MILLIS) t).2)]) := fun t =>
    h.kept.concat fun _ => warranted_same (congrArg Db.memories (query_db _ _))
  refine Client.records_call_bind hsecond fun b rows v hdue => ?_
  have hkept' := hsecond b
  rw [hdue] at hkept'
  obtain ⟨-, rfl⟩ := deprecatedPastGrace_ok hdue
  have hlength : 2 ≤ log.length := by
    rw [h.length]
    exact Nat.le_add_right _ _
  have hgrace : graceStep env cfg (log ++ [(b, v)]) = some (b, v) := by
    unfold graceStep
    rw [expiredRows_append hlength, h.expired, ← h.length]
    exact List.getElem?_concat_length
  have hpurging : Purging env cfg (t'.db.memories.filter (expiredAt cfg (env.clock t.ticks))) (b, v)
      0 (log ++ [(b, v)]) := by
    refine ⟨(expiredRows_append hlength _).trans h.expired, hgrace, ?_, hkept'⟩
    rw [List.length_append, h.length, List.length_singleton]
    dsimp only
    omega
  refine records_purges (fun log _ => ?_) [] _ rfl hpurging
  exact trivial

/-- What each request owes. -/
def Owed (env : Env F) : Request F → Log F → Prop
  | .reap cfg => Retains env cfg
  | .op _ => fun _ => True

/-- In every interleaving, as long as no listed row changes in status, tier, creation or deletion
time before its turn, a reaper purges only rows that are past their grace period then, and deprecates
only rows that are active and expired then. -/
theorem reaper_warranted (env : Env F) (s : Conn F) (events : List (Pool.Event (Request F)))
    {k : Nat} {cfg : MemoryConfig} {c : Work F Unit}
    (hk : (Pool.run (clientOf env) events ⟨s, []⟩).clients[k]? = some (.reap cfg, c)) :
    let log := Pool.stepsOf (clientOf env) events ⟨s, []⟩ k
    Undisturbed env cfg log → ∀ step ∈ log, Warranted env cfg step := by
  refine Pool.records_run (Q := Owed env) (fun r => ?_) (fun r => ?_) hk
  · cases r with
    | reap cfg => exact fun _ => List.forall_mem_nil _
    | op op => trivial
  · cases r with
    | reap cfg => exact (records_reaper env cfg).bind fun _ _ => trivial
    | op op => exact Client.records_of_forall _ fun _ => trivial

end

/-! ## Two runs -/

/-- A clock that is read every hundred days. -/
def hundredDays : Env ℚ := { sampleEnv with clock := fun n => n * (100 * DAY_MILLIS) }

/-- A memory that was deprecated a hundred days after it was saved. -/
def deprecatedStore : Conn ℚ :=
  runOps hundredDays [.insertMemory ⟨"working", "fact", "tea", "user"⟩, .deprecateMemory 1 none]
    (emptyStore ℚ "a" 1)

/-- An operation between the second list and the delete. -/
def beforeDelete (op : Op ℚ) : List (Pool.Event (Request ℚ)) :=
  [.start (.reap ⟨30, 90, 0, 0, 30⟩), .start (.op op)] ++ List.replicate 5 (.advance 0) ++
    [.advance 1, .advance 0]

/-- The steps of the reaper. -/
def reaped (op : Op ℚ) : Log ℚ :=
  Pool.stepsOf (clientOf hundredDays) (beforeDelete op) ⟨deprecatedStore, []⟩ 0

/-- A pin in between changes nothing, and the row is purged. -/
theorem reaper_warranted_sample :
    ((reaped (.setPinned 1 true "a")).map fun step => step.2.db.memories.length) =
        [1, 1, 1, 1, 1, 0] ∧
      ∀ step ∈ reaped (.setPinned 1 true "a"), Warranted hundredDays ⟨30, 90, 0, 0, 30⟩ step := by
  have hcalm : Undisturbed hundredDays ⟨30, 90, 0, 0, 30⟩ (reaped (.setPinned 1 true "a")) :=
    ⟨by decide +kernel, by decide +kernel⟩
  exact ⟨by decide +kernel,
    reaper_warranted hundredDays deprecatedStore (beforeDelete (.setPinned 1 true "a")) (k := 0)
      rfl hcalm⟩

/-- A memory that is restored in between is purged all the same. -/
theorem restored_purged :
    ¬ ∀ step ∈ reaped (.restoreMemory 1 none), Warranted hundredDays ⟨30, 90, 0, 0, 30⟩ step := by
  intro h
  have hlost : ∃ step ∈ reaped (.restoreMemory 1 none),
      (∃ m ∈ step.1.db.memories, m.status = .active) ∧ step.2.db.memories.length = 0 := by
    decide +kernel
  obtain ⟨step, hstep, ⟨m, hm, hactive⟩, hnone⟩ := hlost
  have hpast := (h step hstep).purged m hm fun m' hm' => by
    rw [List.length_eq_zero_iff.mp hnone] at hm'
    cases hm'
  have hdeprecated := (of_decide_eq_true hpast).1
  rw [hactive] at hdeprecated
  cases hdeprecated

end AgosMemory.Reaper
