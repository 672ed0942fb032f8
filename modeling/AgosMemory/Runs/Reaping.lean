import AgosMemory.Runs.Retention

/-!
# What a reaper run does

With nobody else at work a run deprecates the rows that its first instant finds expired, then purges
the rows that its second instant finds past their grace period, the ones it has just deprecated
included. Both instants are readings of the clock, one for each statement that stamps a row in between.
-/

namespace AgosMemory.Reaper

open Library Library.Program Store

variable {F : Type} {env : Env F}

/-! ## One row -/

/-- An active row past the lifetime of its tier. -/
def expiredAt (cfg : MemoryConfig) (instant : Int) (m : Memory F) : Bool :=
  m.status = .active ∧ 0 < cfg.ttlForTier m.tier ∧
    m.createdAt + cfg.ttlForTier m.tier * DAY_MILLIS < instant

/-- A row that is deprecated at an instant. -/
def deprecatedAt (instant : Int) (m : Memory F) : Memory F :=
  { m with status := .deprecated, deletedAt := some instant, updatedAt := instant }

/-- The audit row of a deprecation. -/
def deprecation (instant : Int) (m : Memory F) : ForgetAudit :=
  ⟨"ttl_deprecate", selectorJson m.id, m.publicId, "ttl-reaper", some "TTL expired", instant⟩

/-- The audit row of a purge. -/
def purgeEntry (instant : Int) (m : Memory F) : ForgetAudit :=
  ⟨"ttl_purge", selectorJson m.id, m.publicId, "ttl-reaper", some "TTL grace period expired", instant⟩

/-- The tombstone of a purge that removed some number of rows. -/
def tombstone (agentId : String) (instant rows : Int) (m : Memory F) : Tombstone :=
  ⟨m.publicId, agentId, some m.id, m.textHash, instant, some "ttl-reaper",
    some "TTL grace period expired", rows, 0⟩

/-- A store without the rows of some memories. -/
def withoutAll (ids : List Int) (db : Db F) : Db F := { db with
  links := db.links.filter fun l => ¬ (l.fromMemoryId ∈ ids ∨ l.toMemoryId ∈ ids)
  versions := db.versions.filter fun v => v.memoryId ∉ ids
  recallItems := db.recallItems.filter fun r => r.memoryId ∉ ids
  pins := db.pins.filter fun p => p.memoryId ∉ ids
  vecs := db.vecs.filter fun v => v.rowid ∉ ids
  vecLog := db.vecLog ++ ids.map .delete
  memories := db.memories.filter fun m => m.id ∉ ids }

/-- A deprecation reads the clock once, stamps the row and appends to the audit. -/
private theorem deprecateForTtl_ok {m : Memory F} {c c' : Conn F} (hm : c.db.memory? m.id = some m)
    (h : deprecateForTtl env m.id c = (.ok (), c')) :
    c'.ticks = c.ticks + 1 ∧ c'.agentId = c.agentId ∧
      c'.db = { restate m.id .deprecated (fun m => { m with
          deletedAt := some (env.clock c.ticks), updatedAt := env.clock c.ticks }) c.db with
        forgetAudit := c.db.forgetAudit ++ [deprecation (env.clock c.ticks) m] } := by
  unfold deprecateForTtl deprecateWithAction softChange at h
  rw [bind_of_ok _ (nowMillis_run env c)] at h
  obtain ⟨publicId, c₁, hread, h⟩ := bind_ok h
  obtain ⟨hc₁, hfound⟩ := exec_ok_conn hread
  obtain ⟨_, c₂, hupdate, h⟩ := bind_ok h
  obtain ⟨hc₂, hstate⟩ := exec_ok_conn hupdate
  have hdb₁ := (query_ok hread).2
  have hid := Except.ok.inj (query_ok hread).1
  rw [hm, Option.map_some] at hid
  obtain rfl := hid
  obtain ⟨hc', haudit⟩ := exec_ok_conn (f := fun db => .ok ((), { db with
    forgetAudit := db.forgetAudit ++ [deprecation (env.clock c.ticks) m] })) h
  have hdb₂ := (Prod.mk.inj (Except.ok.inj hstate)).2
  have hdb' := (Prod.mk.inj (Except.ok.inj haudit)).2
  refine ⟨?_, ?_, ?_⟩
  · rw [hc', hc₂, hc₁]
  · rw [hc', hc₂, hc₁]
  · rw [← hdb', ← hdb₂, hdb₁]
    rfl

/-- A purge that succeeds reads the clock once and leaves a tombstone and an audit row. -/
private theorem hardPurgeForTtl_ok {m : Memory F} {c c' : Conn F} (hm : c.db.memory? m.id = some m)
    (h : hardPurgeForTtl env m.id c = (.ok (), c')) :
    c'.ticks = c.ticks + 1 ∧ c'.agentId = c.agentId ∧ ∃ rows,
      c'.db = { withoutAll [m.id] c.db with
        tombstones := c.db.tombstones ++ [tombstone c.agentId (env.clock c.ticks) rows m]
        forgetAudit := c.db.forgetAudit ++ [purgeEntry (env.clock c.ticks) m] } := by
  unfold hardPurgeForTtl hardPurgeWithAction at h
  rw [bind_of_ok _ (nowMillis_run env c)] at h
  obtain ⟨conn, c₁, hget, h⟩ := bind_ok h
  obtain ⟨rfl, rfl⟩ := get_ok hget
  obtain ⟨found, c₂, hfind, h⟩ := bind_ok h
  obtain ⟨before, c₃, hbefore, h⟩ := bind_ok h
  obtain ⟨_, c₄, hdelete, h⟩ := bind_ok h
  obtain ⟨_, c₅, hverify, h⟩ := bind_ok h
  obtain ⟨_, c₆, hvacuum, h⟩ := bind_ok h
  obtain ⟨_, c₇, hcheckpoint, h⟩ := bind_ok h
  obtain ⟨_, c₈, htombstone, h⟩ := bind_ok h
  obtain ⟨hfound, hdb₂⟩ := query_ok hfind
  obtain rfl := Option.some.inj (hm.symm.trans (one_ok hfound))
  have hdb₃ := (query_ok hbefore).2
  obtain ⟨hc₄, hdelete⟩ := exec_ok_conn hdelete
  have hdb₅ := (query_ok hverify).2
  have hdb₆ := (Prod.mk.inj (Except.ok.inj (exec_ok hvacuum))).2
  have hdb₇ := (Prod.mk.inj (Except.ok.inj (exec_ok hcheckpoint))).2
  have hdb₈ := (Prod.mk.inj (Except.ok.inj (exec_ok htombstone))).2
  have haudit : exec env (fun db => .ok ((), { db with
    forgetAudit := db.forgetAudit ++ [purgeEntry (env.clock c.ticks) m] })) c₈ = (.ok (), c') := h
  have hdb' := (Prod.mk.inj (Except.ok.inj (exec_ok haudit))).2
  have hconn : c'.ticks = c.ticks + 1 ∧ c'.agentId = c.agentId := by
    rw [(exec_ok_conn haudit).1, (exec_ok_conn htombstone).1, (exec_ok_conn hcheckpoint).1,
      (exec_ok_conn hvacuum).1, (exec_ok_conn hverify).1, hc₄, (exec_ok_conn hbefore).1,
      (exec_ok_conn hfind).1]
    exact ⟨rfl, rfl⟩
  refine ⟨hconn.1, hconn.2, 1 + before, ?_⟩
  have hwithout : c₄.db = withoutAll [m.id] c.db := by
    rw [deletePhase_ok hdelete, hdb₃, hdb₂]
    unfold withoutAll
    simp only [List.mem_singleton, List.map_singleton]
  rw [← hdb', ← hdb₈, ← hdb₇, ← hdb₆, hdb₅, hwithout]
  rfl

/-! ## The loops -/

/-- The instant that a row of a loop is stamped with: one reading for each row, from reading `k` on. -/
def stampOf (env : Env F) (k : Nat) (rows : List (Memory F)) (m : Memory F) : Int :=
  env.clock (k + (rows.map Memory.id).idxOf m.id)

private theorem stampOf_head {k : Nat} {m m' : Memory F} {rows : List (Memory F)} (h : m'.id = m.id) :
    stampOf env k (m :: rows) m' = env.clock k := by
  rw [stampOf, List.map_cons, h, List.idxOf_cons_self, Nat.add_zero]

private theorem stampOf_tail {k : Nat} {m m' : Memory F} {rows : List (Memory F)} (h : m'.id ≠ m.id) :
    stampOf env k (m :: rows) m' = stampOf env (k + 1) rows m' := by
  rw [stampOf, stampOf, List.map_cons, List.idxOf_cons_ne _ h.symm, Nat.add_right_comm, Nat.add_assoc]

/-- The entries of a loop, row by row. -/
private theorem map_stampOf {β : Type} {k : Nat} {m : Memory F} {rows : List (Memory F)}
    (hfresh : m.id ∉ rows.map Memory.id) (entry : Int → Memory F → β) :
    (m :: rows).map (fun m' => entry (stampOf env k (m :: rows) m') m') =
      entry (env.clock k) m :: rows.map fun m' => entry (stampOf env (k + 1) rows m') m' := by
  rw [List.map_cons, stampOf_head rfl]
  refine congrArg _ (List.map_congr_left fun m' hm' => ?_)
  rw [stampOf_tail fun heq => hfresh (List.mem_map.mpr ⟨m', hm', heq⟩)]

private theorem deprecateLoop_ok (rows : List (Memory F)) {c c' : Conn F}
    (hids : (c.db.memories.map Memory.id).Nodup) (hrows : ∀ m ∈ rows, m ∈ c.db.memories)
    (hnodup : (rows.map Memory.id).Nodup)
    (h : forEach (rows.map Memory.id) (deprecateForTtl env) c = (.ok (), c')) :
    c'.ticks = c.ticks + rows.length ∧ c'.agentId = c.agentId ∧ ∃ restated,
      c'.db = { c.db with
        memories := c.db.memories.map fun m =>
          if m.id ∈ rows.map Memory.id then deprecatedAt (stampOf env c.ticks rows m) m else m
        forgetAudit := c.db.forgetAudit ++
          rows.map fun m => deprecation (stampOf env c.ticks rows m) m
        restated } := by
  induction rows generalizing c with
  | nil =>
    obtain ⟨_, rfl⟩ := pure_ok h
    refine ⟨rfl, rfl, c.db.restated, ?_⟩
    have hsame : c.db.memories.map (fun m => if m.id ∈ ([] : List (Memory F)).map Memory.id then
        deprecatedAt (stampOf env c.ticks [] m) m else m) = c.db.memories := by
      simp
    rw [hsame, List.map_nil, List.append_nil]
  | cons m rows ih =>
    obtain ⟨hfresh, hnodup⟩ := List.nodup_cons.mp hnodup
    obtain ⟨hm, hrows⟩ := List.forall_mem_cons.mp hrows
    obtain ⟨_, c₁, hstep, hloop⟩ := bind_ok h
    obtain ⟨hticks₁, hagent₁, hdb₁⟩ := deprecateForTtl_ok (memory?_of_nodup hids hm) hstep
    have hother : ∀ m' ∈ rows, m'.id ≠ m.id := fun m' hm' heq =>
      hfresh (List.mem_map.mpr ⟨m', hm', heq⟩)
    have hmem₁ : c₁.db.memories = c.db.memories.map fun m' =>
        if m'.id = m.id then deprecatedAt (env.clock c.ticks) m' else m' := by
      rw [hdb₁]
      rfl
    have hids₁ : (c₁.db.memories.map Memory.id).Nodup := by
      have hsame : c₁.db.memories.map Memory.id = c.db.memories.map Memory.id := by
        rw [hmem₁, List.map_map]
        refine List.map_congr_left fun m' _ => ?_
        rw [Function.comp_apply]
        split <;> rfl
      rwa [hsame]
    have hrows₁ : ∀ m' ∈ rows, m' ∈ c₁.db.memories := fun m' hm' => by
      rw [hmem₁]
      exact List.mem_map.mpr ⟨m', hrows m' hm', if_neg (hother m' hm')⟩
    obtain ⟨hticks, hagent, restated, hdb⟩ := ih hids₁ hrows₁ hnodup hloop
    refine ⟨by rw [hticks, hticks₁, List.length_cons, Nat.add_assoc, Nat.add_comm 1], hagent.trans hagent₁,
      restated, ?_⟩
    have hmemories : c₁.db.memories.map (fun m' => if m'.id ∈ rows.map Memory.id then
          deprecatedAt (stampOf env c₁.ticks rows m') m' else m') =
        c.db.memories.map fun m' => if m'.id ∈ (m :: rows).map Memory.id then
          deprecatedAt (stampOf env c.ticks (m :: rows) m') m' else m' := by
      rw [hmem₁, List.map_map, hticks₁]
      refine List.map_congr_left fun m' _ => ?_
      rw [Function.comp_apply, List.map_cons]
      by_cases hself : m'.id = m.id
      · have hgone : (deprecatedAt (env.clock c.ticks) m').id ∉ rows.map Memory.id := by
          rw [show (deprecatedAt (env.clock c.ticks) m').id = m.id from hself]
          exact hfresh
        rw [if_pos hself, if_neg hgone, if_pos (List.mem_cons.mpr (.inl hself)),
          stampOf_head hself]
      · rw [if_neg hself, stampOf_tail hself]
        simp only [List.mem_cons, hself, false_or]
    rw [hdb, hmemories, hticks₁, map_stampOf hfresh, hdb₁, List.append_assoc]
    rfl

private theorem withoutAll_nil (db : Db F) : withoutAll [] db = db := by
  simp [withoutAll]

/-- Memories are removed one after the other. -/
private theorem withoutAll_cons (id : Int) (ids : List Int) (db : Db F) :
    withoutAll ids (withoutAll [id] db) = withoutAll (id :: ids) db := by
  unfold withoutAll
  simp only [List.filter_filter, List.append_assoc, ← List.map_append, List.singleton_append]
  congr 1 <;> refine List.filter_congr fun a _ => ?_ <;> grind

private theorem purgeLoop_ok (rows : List (Memory F)) {c c' : Conn F}
    (hids : (c.db.memories.map Memory.id).Nodup) (hrows : ∀ m ∈ rows, m ∈ c.db.memories)
    (hnodup : (rows.map Memory.id).Nodup)
    (h : forEach (rows.map fun m => (m.id, m.publicId)) (fun row => hardPurgeForTtl env row.1) c =
      (.ok (), c')) :
    ∃ removed : Int → Int, c'.db = { withoutAll (rows.map Memory.id) c.db with
      tombstones := c.db.tombstones ++
        rows.map fun m => tombstone c.agentId (stampOf env c.ticks rows m) (removed m.id) m
      forgetAudit := c.db.forgetAudit ++
        rows.map fun m => purgeEntry (stampOf env c.ticks rows m) m } := by
  induction rows generalizing c with
  | nil =>
    obtain ⟨_, rfl⟩ := pure_ok h
    refine ⟨fun _ => 0, ?_⟩
    rw [List.map_nil, withoutAll_nil, List.map_nil, List.map_nil, List.append_nil, List.append_nil]
  | cons m rows ih =>
    obtain ⟨hfresh, hnodup⟩ := List.nodup_cons.mp hnodup
    obtain ⟨hm, hrows⟩ := List.forall_mem_cons.mp hrows
    obtain ⟨_, c₁, hstep, hloop⟩ := bind_ok h
    obtain ⟨hticks₁, hagent₁, gone, hdb₁⟩ := hardPurgeForTtl_ok (memory?_of_nodup hids hm) hstep
    have hother : ∀ m' ∈ rows, m'.id ≠ m.id := fun m' hm' heq =>
      hfresh (List.mem_map.mpr ⟨m', hm', heq⟩)
    have hmem₁ : c₁.db.memories = c.db.memories.filter fun m' => m'.id ∉ [m.id] := by
      rw [hdb₁]
      rfl
    have hids₁ : (c₁.db.memories.map Memory.id).Nodup := by
      rw [hmem₁]
      exact (List.filter_sublist.map _).nodup hids
    have hrows₁ : ∀ m' ∈ rows, m' ∈ c₁.db.memories := fun m' hm' => by
      rw [hmem₁, List.mem_filter]
      exact ⟨hrows m' hm', by simpa using hother m' hm'⟩
    obtain ⟨removed, hdb⟩ := ih hids₁ hrows₁ hnodup hloop
    refine ⟨Function.update removed m.id gone, ?_⟩
    have htombs : (m :: rows).map (fun m' => tombstone c.agentId (stampOf env c.ticks (m :: rows) m')
          (Function.update removed m.id gone m'.id) m') =
        tombstone c.agentId (env.clock c.ticks) gone m ::
          rows.map fun m' => tombstone c.agentId (stampOf env (c.ticks + 1) rows m')
            (removed m'.id) m' := by
      rw [map_stampOf hfresh fun instant m' =>
        tombstone c.agentId instant (Function.update removed m.id gone m'.id) m',
        Function.update_self]
      refine congrArg _ (List.map_congr_left fun m' hm' => ?_)
      rw [Function.update_of_ne (hother m' hm')]
    rw [hdb, htombs, map_stampOf hfresh, hdb₁, hticks₁, hagent₁, List.map_cons,
      ← withoutAll_cons m.id (rows.map Memory.id) c.db]
    simp only [List.append_assoc, List.singleton_append]
    rfl

/-- With distinct ids, the rows found by a test are those whose id is found. -/
private theorem mem_ids_iff {rows : List (Memory F)} (hids : (rows.map Memory.id).Nodup)
    {p : Memory F → Bool} {m : Memory F} (hm : m ∈ rows) :
    m.id ∈ (rows.filter p).map Memory.id ↔ p m = true := by
  constructor
  · intro h
    obtain ⟨m', hm', hid⟩ := List.mem_map.mp h
    obtain ⟨hm', hp⟩ := List.mem_filter.mp hm'
    rwa [← List.inj_on_of_nodup_map hids hm' hm hid]
  · exact fun hp => List.mem_map_of_mem (List.mem_filter.mpr ⟨hm, hp⟩)

/-- The first pass, over the rows that a test finds. -/
private theorem deprecatePass_ok (p : Memory F → Bool) {c c' : Conn F}
    (hids : (c.db.memories.map Memory.id).Nodup)
    (h : forEach ((c.db.memories.filter p).map Memory.id) (deprecateForTtl env) c = (.ok (), c')) :
    c'.ticks = c.ticks + (c.db.memories.filter p).length ∧ c'.agentId = c.agentId ∧
      c'.db.memories.map Memory.id = c.db.memories.map Memory.id ∧ ∃ restated,
      c'.db = { c.db with
        memories := c.db.memories.map fun m =>
          if p m then deprecatedAt (stampOf env c.ticks (c.db.memories.filter p) m) m else m
        forgetAudit := c.db.forgetAudit ++ (c.db.memories.filter p).map fun m =>
          deprecation (stampOf env c.ticks (c.db.memories.filter p) m) m
        restated } := by
  obtain ⟨hticks, hagent, restated, hdb⟩ := deprecateLoop_ok (c.db.memories.filter p) hids
    (fun m hm => (List.mem_filter.mp hm).1) ((List.filter_sublist.map _).nodup hids) h
  have hmemories : c.db.memories.map (fun m => if m.id ∈ (c.db.memories.filter p).map Memory.id then
        deprecatedAt (stampOf env c.ticks (c.db.memories.filter p) m) m else m) =
      c.db.memories.map fun m => if p m then
        deprecatedAt (stampOf env c.ticks (c.db.memories.filter p) m) m else m := by
    refine List.map_congr_left fun m hm => ?_
    simp only [mem_ids_iff hids hm]
  rw [hmemories] at hdb
  refine ⟨hticks, hagent, ?_, restated, hdb⟩
  rw [hdb, List.map_map]
  refine List.map_congr_left fun m _ => ?_
  rw [Function.comp_apply]
  split <;> rfl

/-- The second pass. -/
private theorem purgePass_ok (p : Memory F → Bool) {c c' : Conn F}
    (hids : (c.db.memories.map Memory.id).Nodup)
    (h : forEach ((c.db.memories.filter p).map fun m => (m.id, m.publicId))
      (fun row => hardPurgeForTtl env row.1) c = (.ok (), c')) :
    ∃ removed : Int → Int,
      c'.db = { withoutAll ((c.db.memories.filter p).map Memory.id) c.db with
        memories := c.db.memories.filter fun m => !p m
        tombstones := c.db.tombstones ++ (c.db.memories.filter p).map fun m =>
          tombstone c.agentId (stampOf env c.ticks (c.db.memories.filter p) m) (removed m.id) m
        forgetAudit := c.db.forgetAudit ++ (c.db.memories.filter p).map fun m =>
          purgeEntry (stampOf env c.ticks (c.db.memories.filter p) m) m } := by
  obtain ⟨removed, hdb⟩ := purgeLoop_ok (c.db.memories.filter p) hids
    (fun m hm => (List.mem_filter.mp hm).1) ((List.filter_sublist.map _).nodup hids) h
  refine ⟨removed, hdb.trans ?_⟩
  have hkept : (withoutAll ((c.db.memories.filter p).map Memory.id) c.db).memories =
      c.db.memories.filter fun m => !p m := by
    refine List.filter_congr fun m hm => ?_
    rw [decide_not]
    simp only [mem_ids_iff hids hm, Bool.decide_eq_true]
  rw [← hkept]

/-! ## Runs -/

/-- What a run that succeeds did. `mid` is the store between the two passes; the second pass reads
the clock for itself, after one reading for each row of the first. -/
structure Reaped (env : Env F) (cfg : MemoryConfig) (c c' : Conn F) (mid : Db F)
    (expired due : List (Memory F)) : Prop where
  listed : expired = c.db.memories.filter (expiredAt cfg (env.clock c.ticks))
  deprecated : ∃ restated, mid = { c.db with
    memories := c.db.memories.map fun m => if expiredAt cfg (env.clock c.ticks) m then
      deprecatedAt (stampOf env (c.ticks + 1) expired m) m else m
    forgetAudit := c.db.forgetAudit ++
      expired.map fun m => deprecation (stampOf env (c.ticks + 1) expired m) m
    restated }
  graced : due = mid.memories.filter
    (pastGrace (cfg.ttlGraceDays * DAY_MILLIS) (env.clock (c.ticks + 1 + expired.length)))
  purged : ∃ removed : Int → Int, c'.db = { withoutAll (due.map Memory.id) mid with
    memories := mid.memories.filter fun m => !pastGrace (cfg.ttlGraceDays * DAY_MILLIS)
      (env.clock (c.ticks + 1 + expired.length)) m
    tombstones := mid.tombstones ++ due.map fun m => tombstone c.agentId
      (stampOf env (c.ticks + 2 + expired.length) due m) (removed m.id) m
    forgetAudit := mid.forgetAudit ++
      due.map fun m => purgeEntry (stampOf env (c.ticks + 2 + expired.length) due m) m }

private theorem query_ok_conn {α : Type} {f : Db F → Except Error α} {s t : Conn F} {a : α}
    (h : query env f s = (.ok a, t)) : t = { s with stmts := s.stmts + 1 } ∧ f s.db = .ok a := by
  obtain ⟨hf, hdb⟩ := query_ok h
  refine ⟨?_, hf⟩
  rw [(exec_ok_conn h).1, hdb]

theorem expiredMemories_ok {cfg : MemoryConfig} {instant : Int} {c c' : Conn F} {ids : List Int}
    (h : expiredMemories env instant cfg c = (.ok ids, c')) :
    c' = { c with stmts := c.stmts + 1 } ∧
      ids = (c.db.memories.filter (expiredAt cfg instant)).map Memory.id := by
  obtain ⟨hconn, hids⟩ := query_ok_conn h
  exact ⟨hconn, (Except.ok.inj hids).symm⟩

theorem deprecatedPastGrace_ok {grace : Int} {c c' : Conn F} {rows : List (Int × String)}
    (h : deprecatedPastGrace env grace c = (.ok rows, c')) :
    c' = { c with stmts := c.stmts + 1, ticks := c.ticks + 1 } ∧
      rows = (c.db.memories.filter (pastGrace grace (env.clock c.ticks))).map fun m =>
        (m.id, m.publicId) := by
  unfold deprecatedPastGrace at h
  rw [bind_of_ok _ (nowMillis_run env c)] at h
  obtain ⟨hconn, hrows⟩ := query_ok_conn h
  exact ⟨hconn, (Except.ok.inj hrows).symm⟩

private theorem runTtlReaper_ok {cfg : MemoryConfig} {c c' : Conn F} {report : ReaperReport}
    (hids : (c.db.memories.map Memory.id).Nodup)
    (h : runTtlReaper env cfg c = (.ok report, c')) :
    ∃ mid expired due, Reaped env cfg c c' mid expired due ∧
      report = ⟨expired.length, due.length⟩ := by
  unfold runTtlReaper at h
  rw [bind_of_ok _ (nowMillis_run env c)] at h
  obtain ⟨ids, c₁, hexpired, h⟩ := bind_ok h
  obtain ⟨_, c₂, hfirst, h⟩ := bind_ok h
  obtain ⟨rows, c₃, hdue, h⟩ := bind_ok h
  obtain ⟨_, c₄, hsecond, h⟩ := bind_ok h
  obtain ⟨rfl, rfl⟩ := pure_ok h
  obtain ⟨rfl, rfl⟩ := expiredMemories_ok hexpired
  obtain ⟨rfl, rfl⟩ := deprecatedPastGrace_ok hdue
  obtain ⟨hticks, hagent, hsame, restated, hmid⟩ :=
    deprecatePass_ok (expiredAt cfg (env.clock c.ticks))
      (c := { c with ticks := c.ticks + 1, stmts := c.stmts + 1 }) hids hfirst
  obtain ⟨removed, hend⟩ :=
    purgePass_ok (pastGrace (cfg.ttlGraceDays * DAY_MILLIS) (env.clock c₂.ticks))
      (c := { c₂ with ticks := c₂.ticks + 1, stmts := c₂.stmts + 1 }) (hsame ▸ hids) hsecond
  refine ⟨c₂.db, c.db.memories.filter (expiredAt cfg (env.clock c.ticks)),
    c₂.db.memories.filter (pastGrace (cfg.ttlGraceDays * DAY_MILLIS) (env.clock c₂.ticks)),
    ⟨rfl, ⟨restated, hmid⟩, ?_, removed, ?_⟩, ?_⟩
  · rw [hticks]
  · have hnext : c₂.ticks + 1 =
        c.ticks + 2 + (c.db.memories.filter (expiredAt cfg (env.clock c.ticks))).length := by
      rw [hticks]
      dsimp only
      omega
    rw [← hnext, ← hagent, show c.ticks + 1 + _ = c₂.ticks from hticks.symm]
    exact hend
  · rw [List.length_map, List.length_map]

/-- Where neither instant finds a row, a run changes nothing and only the storage can make it fail. -/
private theorem runTtlReaper_idle {cfg : MemoryConfig} {c : Conn F}
    (hexpired : c.db.memories.filter (expiredAt cfg (env.clock c.ticks)) = [])
    (hgrace : c.db.memories.filter
      (pastGrace (cfg.ttlGraceDays * DAY_MILLIS) (env.clock (c.ticks + 1))) = []) :
    ∃ r t, runTtlReaper env cfg c = (r, t) ∧ t.db = c.db ∧
      (r = .ok ⟨0, 0⟩ ∨ (∃ e, r = .error e) ∧ ∃ n, env.fault n = true) := by
  unfold runTtlReaper
  rw [bind_of_ok _ (nowMillis_run env c)]
  cases hfault : env.fault c.stmts with
  | true =>
    have hread : expiredMemories env (env.clock c.ticks) cfg { c with ticks := c.ticks + 1 } = _ :=
      query_of_fault hfault
    rw [bind_of_error _ hread]
    exact ⟨_, _, rfl, rfl, .inr ⟨⟨_, rfl⟩, _, hfault⟩⟩
  | false =>
    have hread : expiredMemories env (env.clock c.ticks) cfg { c with ticks := c.ticks + 1 } =
        (.ok ((c.db.memories.filter (expiredAt cfg (env.clock c.ticks))).map Memory.id),
          { c with ticks := c.ticks + 1, stmts := c.stmts + 1 }) := query_of_noFault hfault
    rw [hexpired, List.map_nil] at hread
    rw [bind_of_ok _ hread, forEach, bind_of_ok _ (pure_run () _)]
    cases hfault' : env.fault (c.stmts + 1) with
    | true =>
      have hdue : deprecatedPastGrace env (cfg.ttlGraceDays * DAY_MILLIS)
          { c with ticks := c.ticks + 1, stmts := c.stmts + 1 } = _ :=
        (bind_of_ok _ (nowMillis_run env _)).trans (query_of_fault hfault')
      rw [bind_of_error _ hdue]
      exact ⟨_, _, rfl, rfl, .inr ⟨⟨_, rfl⟩, _, hfault'⟩⟩
    | false =>
      have hdue : deprecatedPastGrace env (cfg.ttlGraceDays * DAY_MILLIS)
          { c with ticks := c.ticks + 1, stmts := c.stmts + 1 } = _ :=
        deprecatedPastGrace_run hfault'
      dsimp only at hdue
      rw [hgrace, List.map_nil] at hdue
      rw [bind_of_ok _ hdue, forEach, bind_of_ok _ (pure_run () _)]
      exact ⟨_, _, rfl, rfl, .inl rfl⟩

/-- After a run neither of its instants finds a row. -/
theorem Reaped.settled {cfg : MemoryConfig} {c c' : Conn F} {mid : Db F}
    {expired due : List (Memory F)} (h : Reaped env cfg c c' mid expired due) :
    c'.db.memories.filter (expiredAt cfg (env.clock c.ticks)) = [] ∧
      c'.db.memories.filter (pastGrace (cfg.ttlGraceDays * DAY_MILLIS)
        (env.clock (c.ticks + 1 + expired.length))) = [] := by
  obtain ⟨restated, hmid⟩ := h.deprecated
  obtain ⟨removed, hend⟩ := h.purged
  have hmemories : c'.db.memories = mid.memories.filter fun m => !pastGrace
      (cfg.ttlGraceDays * DAY_MILLIS) (env.clock (c.ticks + 1 + expired.length)) m := by
    rw [hend]
  rw [hmemories, List.filter_eq_nil_iff, List.filter_eq_nil_iff]
  refine ⟨fun m hm hactive => ?_, fun m hm hpast => ?_⟩
  · obtain ⟨hm, _⟩ := List.mem_filter.mp hm
    rw [hmid] at hm
    obtain ⟨m₀, _, rfl⟩ := List.mem_map.mp hm
    split at hactive
    · cases (of_decide_eq_true hactive).1
    · next hkept => exact hkept hactive
  · have hkept := (List.mem_filter.mp hm).2
    rw [hpast] at hkept
    cases hkept

/-- A run that succeeds does what its two instants call for and reports it, and a second run with the
same instants finds nothing left to do, however short the grace period is. -/
theorem reaper_exact (env : Env F) (cfg : MemoryConfig) {c c' : Conn F} {report : ReaperReport}
    (hids : (c.db.memories.map Memory.id).Nodup) (h : runTtlReaper env cfg c = (.ok report, c')) :
    ∃ mid expired due, Reaped env cfg c c' mid expired due ∧
      report = ⟨expired.length, due.length⟩ ∧
      ∀ (env' : Env F) (c₂ : Conn F), c₂.db = c'.db → env'.clock c₂.ticks = env.clock c.ticks →
        env'.clock (c₂.ticks + 1) = env.clock (c.ticks + 1 + expired.length) →
        ∃ r t, runTtlReaper env' cfg c₂ = (r, t) ∧ t.db = c₂.db ∧
          (r = .ok ⟨0, 0⟩ ∨ (∃ e, r = .error e) ∧ ∃ n, env'.fault n = true) := by
  obtain ⟨mid, expired, due, hreaped, hreport⟩ := runTtlReaper_ok hids h
  refine ⟨mid, expired, due, hreaped, hreport, fun env' c₂ hdb hfirst hsecond => ?_⟩
  obtain ⟨hexpired, hgrace⟩ := hreaped.settled
  exact runTtlReaper_idle (by rwa [hdb, hfirst]) (by rwa [hdb, hsecond])

/-- The clock stands at zero for the first four readings and 40 days later from then on. -/
def lateEnv : Env ℚ := { sampleEnv with clock := fun n => if n < 4 then 0 else 40 * DAY_MILLIS }

/-- Two working rows, one of them deprecated, and a semantic one. -/
def lateStore : Conn ℚ :=
  runOps lateEnv [.insertMemory ⟨"working", "fact", "tea", "user"⟩,
    .insertMemory ⟨"working", "fact", "mug", "user"⟩,
    .insertMemory ⟨"semantic", "fact", "cup", "user"⟩, .deprecateMemory 2 "user"]
    (emptyStore ℚ "a" 1)

/-- After 40 days the active working row is deprecated, and the other one purged. -/
theorem reaper_exact_sample : ∃ mid expired due,
    Reaped lateEnv ⟨30, 90, 0, 0, 30⟩ lateStore (runTtlReaper lateEnv ⟨30, 90, 0, 0, 30⟩ lateStore).2
      mid expired due ∧ (⟨1, 1⟩ : ReaperReport) = ⟨expired.length, due.length⟩ ∧
      (runTtlReaper lateEnv ⟨30, 90, 0, 0, 30⟩ lateStore).2.db.memories.map
        (fun m => (m.text, m.status)) = [("tea", .deprecated), ("cup", .active)] := by
  have hids : (lateStore.db.memories.map Memory.id).Nodup := by decide +kernel
  obtain ⟨mid, expired, due, hreaped, hreport, _⟩ :=
    reaper_exact lateEnv ⟨30, 90, 0, 0, 30⟩ hids (run_of_outcome (r := .ok ⟨1, 1⟩) (by decide +kernel))
  exact ⟨mid, expired, due, hreaped, hreport, by decide +kernel⟩

end AgosMemory.Reaper
