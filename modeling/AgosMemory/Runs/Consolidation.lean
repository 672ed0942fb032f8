import AgosMemory.Library.Leaders
import AgosMemory.Memory.Consolidate
import AgosMemory.Storage.Frame
import AgosMemory.Storage.Wellformed
import AgosMemory.System

/-!
# Consolidation twice

A consolidation that completes leaves nothing to summarize and no orphan. Its dedup pass does not
read what it wrote, so a second run makes the same merges as the first one: it changes nothing exactly
if there were none to make.
-/

namespace AgosMemory.Consolidate

open Library Store Summarize
open Library.Client hiding fail lift onlyIf forEach foldEach attempt
open Library.Program (bind_ok bind_of_ok)

variable {F : Type} [F64 F] {env : Env F} {tools : Tools F} {cfg : Config F}

/-- A consolidation with nobody else at work. -/
def consolidate (env : Env F) (tools : Tools F) (cfg : Config F) : Run F ConsolidateReport :=
  (runConsolidationJob env tools cfg).alone

/-! ## What a consolidation leaves alone -/

/-- A row without the columns that a consolidation writes. -/
def core (m : Memory F) : Memory F := { m with
  summaryText := none, summaryTokens := none, refCount := 0, lastReferencedAt := none
  dedupClusterId := none, updatedAt := 0 }

/-- The same row, with a summary if it had one. -/
structure SameCore (m m' : Memory F) : Prop where
  core : core m' = core m
  summary : m.summaryText.isSome → m'.summaryText.isSome

/-- Two databases with the same rows apart from these columns, and the same other tables. -/
structure Steady (db db' : Db F) : Prop where
  rest : db' = { db with memories := db'.memories, versions := db'.versions }
  core : db'.memories.map core = db.memories.map core
  rows : ∀ m' ∈ db'.memories, ∃ m ∈ db.memories, SameCore m m'

section

omit [F64 F]

variable {db db' : Db F}

theorem SameCore.refl (m : Memory F) : SameCore m m := ⟨rfl, id⟩

instance : Std.Refl (Steady (F := F)) where
  refl _ := ⟨rfl, rfl, fun m hm => ⟨m, hm, .refl m⟩⟩

instance : IsTrans (Db F) Steady where
  trans a b c hab hbc := by
    refine ⟨?_, hbc.core.trans hab.core, fun m'' hm'' => ?_⟩
    · rw [hbc.rest, hab.rest]
    · obtain ⟨m', hm', hsame'⟩ := hbc.rows m'' hm''
      obtain ⟨m, hm, hsame⟩ := hab.rows m' hm'
      exact ⟨m, hm, hsame'.core.trans hsame.core, fun hs => hsame'.summary (hsame.summary hs)⟩

private theorem steady_updateMemory {id : Int} {f : Memory F → Memory F}
    (hf : ∀ m, SameCore m (f m)) :
    Steady db (db.updateMemory id f) := by
  refine ⟨rfl, map_updateMemory fun m => (hf m).core, fun m' hm' => ?_⟩
  obtain ⟨m, hm, rfl⟩ := mem_updateMemory.mp hm'
  refine ⟨m, hm, ?_⟩
  split
  · exact hf m
  · exact .refl m

/-- The listing of the dedup pass reads none of the columns that a consolidation writes. -/
theorem Steady.dedupRows (h : Steady db db') : dedupRows db' = dedupRows db := by
  have hvecs : db'.vecs = db.vecs := by rw [h.rest]
  have hrows : ∀ memories : List (Memory F), ∀ vecs : List (VecRow F),
      ((memories.filter fun m => m.status = .active).insertionSort dedupOrder).map (fun m =>
        (⟨m.id, m.publicId, m.tier, m.text, m.textHash,
          (vecs.find? fun v => v.rowid = m.id).map VecRow.embedding⟩ : DedupRow F)) =
      (((memories.map Consolidate.core).filter fun m => m.status = .active).insertionSort
        dedupOrder).map fun m => ⟨m.id, m.publicId, m.tier, m.text, m.textHash,
          (vecs.find? fun v => v.rowid = m.id).map VecRow.embedding⟩ := by
    intro memories vecs
    rw [List.filter_map, ← List.map_insertionSort (r := dedupOrder) (s := dedupOrder)
      Consolidate.core _ (fun _ _ _ _ => Iff.rfl), List.map_map]
    rfl
  unfold Consolidate.dedupRows
  rw [hrows, hrows db.memories, h.core, hvecs]

/-- The ids of the rows. -/
theorem Steady.ids (h : Steady db db') : db'.memories.map Memory.id = db.memories.map Memory.id := by
  have hid : ∀ memories : List (Memory F),
      memories.map Memory.id = (memories.map Consolidate.core).map Memory.id := fun memories => by
    rw [List.map_map]
    rfl
  rw [hid, hid db.memories, h.core]

end

/-! ## Summarization -/

/-- A row that a summarization of a tier picks. -/
def Due (tier : String) (cutoff : Int) (m : Memory F) : Prop :=
  m.tier.sql = tier ∧ m.summaryText = none ∧ m.status ≠ .deleted ∧ m.createdAt < cutoff

omit [F64 F] in
theorem SameCore.id {m m' : Memory F} (h : SameCore m m') : m'.id = m.id :=
  (congrArg Memory.id h.core :)

omit [F64 F] in
/-- A row that is due now was due before. -/
theorem SameCore.due {m m' : Memory F} (h : SameCore m m') {tier : String} {cutoff : Int}
    (hdue : Due tier cutoff m') : Due tier cutoff m := by
  obtain ⟨htier, hnone, hstatus, hcreated⟩ := hdue
  have hmtier : m'.tier = m.tier := (congrArg Memory.tier h.core :)
  have hmstatus : m'.status = m.status := (congrArg Memory.status h.core :)
  have hmcreated : m'.createdAt = m.createdAt := (congrArg Memory.createdAt h.core :)
  refine ⟨hmtier ▸ htier, ?_, hmstatus ▸ hstatus, hmcreated ▸ hcreated⟩
  cases hsome : m.summaryText with
  | none => rfl
  | some text =>
    have hkept := h.summary (by rw [hsome]; rfl)
    rw [hnone] at hkept
    cases hkept

/-- The cutoff of each tier that is summarized, read off the clock when its turn comes. -/
def cutoffs (env : Env F) (tools : Tools F) (cfg : MemoryConfig) :
    List String → Desk F → List (String × Int)
  | [], _ => []
  | tier :: tiers, d =>
    (if cfg.summarizeAfterDays tier = 0 then []
      else [(tier, env.clock d.conn.ticks - cfg.summarizeAfterDays tier * DAY_MILLIS)]) ++
    cutoffs env tools cfg tiers ((summarizeTier env tools cfg tier).alone d).2

section

omit [F64 F]

variable {d d' : Desk F}

private theorem onConn_ok {α : Type} {m : Write F α} {a : α} (h : onConn m d = (.ok a, d')) :
    m d.conn = (.ok a, d'.conn) := by
  unfold onConn at h
  obtain ⟨ha, rfl⟩ := Prod.mk.inj h
  exact Prod.ext ha rfl

private theorem writeSummary_ok {memory : MemoryRow} {summary : String} {tokens : Int}
    (h : writeSummary env memory summary tokens d = (.ok (), d')) :
    ∃ now, d'.conn.db = d.conn.db.updateMemory memory.id fun m => { m with
      summaryText := some summary, summaryTokens := some tokens, updatedAt := now } := by
  unfold writeSummary at h
  cases hset : setSummary env memory.id summary tokens d.conn with
  | mk x c =>
    rw [hset] at h
    cases x with
    | error e => cases h
    | ok u =>
      obtain ⟨_, rfl⟩ := Prod.mk.inj h
      unfold setSummary at hset
      obtain ⟨now, c', hnow, hrun⟩ := bind_ok hset
      obtain ⟨_, rfl⟩ := Prod.mk.inj hnow
      have hexec := exec_ok hrun
      exact ⟨now, (Prod.mk.inj (Except.ok.inj hexec)).2.symm⟩

/-- A row that was summarized has a summary. -/
private theorem summarizeRow_ok {memory : MemoryRow} {overwrote : Bool} {report : SummarizeReport F}
    (h : (summarizeRow env tools memory overwrote).alone d = (.ok report, d')) :
    Steady d.conn.db d'.conn.db ∧
      ∀ m ∈ d'.conn.db.memories, m.id = memory.id → m.summaryText.isSome := by
  unfold summarizeRow generateSummary at h
  simp only [alone_bind, alone_call, alone_pure] at h
  obtain ⟨summary, d₁, hgenerate, h⟩ := bind_ok h
  obtain ⟨reply, d₂, hcomplete, hreply⟩ := bind_ok hgenerate
  obtain ⟨_, rfl⟩ := Program.pure_ok hreply
  obtain ⟨_, rfl⟩ := Prod.mk.inj hcomplete
  obtain ⟨_, d₃, hwrite, h⟩ := bind_ok h
  obtain ⟨found, d₄, hget, h⟩ := bind_ok h
  obtain ⟨now, hdb₃⟩ := writeSummary_ok hwrite
  have hdb₄ := (query_ok (onConn_ok hget)).2
  have hlast : d' = d₄ := by
    cases found with
    | none => cases h
    | some updated => exact (Program.pure_ok h).2.symm
  rw [hlast, hdb₄, hdb₃]
  refine ⟨steady_updateMemory fun m => ⟨rfl, fun _ => rfl⟩, fun m hm hid => ?_⟩
  obtain ⟨m₀, _, rfl⟩ := mem_updateMemory.mp hm
  split
  · rfl
  · next hne => rw [if_neg hne] at hid; exact absurd hid hne

private theorem summarizeRows_ok {memories : List MemoryRow} {reports all : List (SummarizeReport F)}
    (h : Program.foldEach memories reports (fun reports memory =>
      (summarizeRow env tools memory false).alone >>= fun report =>
        pure (reports ++ [report])) d = (.ok all, d')) :
    Steady d.conn.db d'.conn.db ∧ ∀ memory ∈ memories, ∀ m ∈ d'.conn.db.memories,
      m.id = memory.id → m.summaryText.isSome := by
  induction memories generalizing reports d with
  | nil =>
    obtain ⟨_, rfl⟩ := Program.pure_ok h
    exact ⟨Std.Refl.refl _, List.forall_mem_nil _⟩
  | cons memory memories ih =>
    obtain ⟨reports', d₁, hstep, hrest⟩ := bind_ok h
    obtain ⟨report, d₂, hrow, hpure⟩ := bind_ok hstep
    obtain ⟨_, rfl⟩ := Program.pure_ok hpure
    obtain ⟨hsteady, hsummary⟩ := summarizeRow_ok hrow
    obtain ⟨hsteady', hall⟩ := ih hrest
    refine ⟨IsTrans.trans _ _ _ hsteady hsteady', fun memory' hmem m' hm' hid => ?_⟩
    rcases List.mem_cons.mp hmem with rfl | hmem
    · obtain ⟨m, hm, hsame⟩ := hsteady'.rows m' hm'
      exact hsame.summary (hsummary m hm (hsame.id.symm.trans hid))
    · exact hall memory' hmem m' hm' hid

/-- A tier that was summarized has no row left that is due. -/
private theorem summarizeTier_ok {cfg : MemoryConfig} {tier : String}
    {reports : List (SummarizeReport F)}
    (h : (summarizeTier env tools cfg tier).alone d = (.ok reports, d')) :
    Steady d.conn.db d'.conn.db ∧ (cfg.summarizeAfterDays tier ≠ 0 → ∀ m ∈ d'.conn.db.memories,
      ¬ Due tier (env.clock d.conn.ticks - cfg.summarizeAfterDays tier * DAY_MILLIS) m) := by
  unfold summarizeTier at h
  dsimp only at h
  split at h
  · next hdays =>
    obtain ⟨_, rfl⟩ := Program.pure_ok h
    exact ⟨Std.Refl.refl _, fun hne => absurd hdays hne⟩
  · simp only [alone_bind, alone_call, alone_foldEach, alone_pure] at h
    obtain ⟨now, d₁, hnow, h⟩ := bind_ok h
    obtain ⟨memories, d₂, hlisting, hrows⟩ := bind_ok h
    obtain ⟨hclock, rfl⟩ := Prod.mk.inj hnow
    obtain rfl := Except.ok.inj hclock
    obtain ⟨hlist, hdb⟩ := query_ok (onConn_ok hlisting)
    obtain ⟨hsteady, hall⟩ := summarizeRows_ok hrows
    rw [hdb] at hsteady
    refine ⟨hsteady, fun _ m' hm' hdue => ?_⟩
    obtain ⟨m, hm, hsame⟩ := hsteady.rows m' hm'
    have hlisted : rowOf m ∈ memories := by
      obtain rfl := Except.ok.inj hlist
      refine List.mem_map_of_mem ((List.mem_insertionSort _).mpr (List.mem_filter.mpr ⟨hm, ?_⟩))
      rw [decide_eq_true_eq]
      exact hsame.due hdue
    have hsome := hall (rowOf m) hlisted m' hm' hsame.id
    rw [hdue.2.1] at hsome
    cases hsome

/-- Summarize tiers, one after the other. -/
def tierPass (env : Env F) (tools : Tools F) (cfg : MemoryConfig) (total : Nat) (tier : String) :
    Task F Nat := do
  let reports ← summarizeTier env tools cfg tier
  return total + reports.length

private theorem runSummarizationJob_alone (cfg : MemoryConfig) :
    (runSummarizationJob env tools cfg).alone =
      Program.foldEach TIERS 0 fun total tier => (tierPass env tools cfg total tier).alone :=
  alone_foldEach _ _ _

private theorem tierPass_ok {cfg : MemoryConfig} {total n : Nat} {tier : String}
    (h : (tierPass env tools cfg total tier).alone d = (.ok n, d')) :
    ∃ reports, (summarizeTier env tools cfg tier).alone d = (.ok reports, d') := by
  unfold tierPass at h
  rw [alone_bind] at h
  obtain ⟨reports, d₁, hrun, hpure⟩ := bind_ok h
  obtain ⟨_, rfl⟩ := Program.pure_ok hpure
  exact ⟨reports, hrun⟩

/-- After a summarization that completes no row is due at the cutoffs it used. -/
private theorem tiers_ok {cfg : MemoryConfig} {tiers : List String} {total n : Nat}
    (h : Program.foldEach tiers total (fun total tier => (tierPass env tools cfg total tier).alone) d =
      (.ok n, d')) :
    Steady d.conn.db d'.conn.db ∧ ∀ p ∈ cutoffs env tools cfg tiers d,
      ∀ m ∈ d'.conn.db.memories, ¬ Due p.1 p.2 m := by
  induction tiers generalizing total d with
  | nil =>
    obtain ⟨_, rfl⟩ := Program.pure_ok h
    exact ⟨Std.Refl.refl _, List.forall_mem_nil _⟩
  | cons tier tiers ih =>
    obtain ⟨total', d₁, hpass, hrest⟩ := bind_ok h
    obtain ⟨reports, hrun⟩ := tierPass_ok hpass
    obtain ⟨hsteady, hdone⟩ := summarizeTier_ok hrun
    obtain ⟨hsteady', hall⟩ := ih hrest
    refine ⟨IsTrans.trans _ _ _ hsteady hsteady', fun p hp m' hm' => ?_⟩
    unfold cutoffs at hp
    rw [hrun] at hp
    rcases List.mem_append.mp hp with hp | hp
    · split at hp
      · cases hp
      · next hdays =>
        rw [List.mem_singleton.mp hp]
        obtain ⟨m, hm, hsame⟩ := hsteady'.rows m' hm'
        exact fun hdue => hdone hdays m hm (hsame.due hdue)
    · exact hall p hp m' hm'

/-- From here on no statement fails. -/
def NoFaultLeft (env : Env F) (c : Conn F) : Prop := ∀ n, c.stmts ≤ n → env.fault n = false

theorem NoFaultLeft.later {c c' : Conn F} (h : NoFaultLeft env c) (hle : c.stmts ≤ c'.stmts) :
    NoFaultLeft env c' :=
  fun n hn => h n (Nat.le_trans hle hn)

variable (tools) in
/-- A tier without a row that is due is left as it is. -/
private theorem tierPass_nothing {cfg : MemoryConfig} (total : Nat) {tier : String}
    (hnofault : NoFaultLeft env d.conn) (hnone : cfg.summarizeAfterDays tier ≠ 0 →
      ∀ m ∈ d.conn.db.memories,
        ¬ Due tier (env.clock d.conn.ticks - cfg.summarizeAfterDays tier * DAY_MILLIS) m) :
    ∃ d', (summarizeTier env tools cfg tier).alone d = (.ok [], d') ∧
      (tierPass env tools cfg total tier).alone d = (.ok total, d') ∧
      d'.conn.db = d.conn.db ∧ d.conn.stmts ≤ d'.conn.stmts := by
  have hrun : ∃ d', (summarizeTier env tools cfg tier).alone d = (.ok [], d') ∧
      d'.conn.db = d.conn.db ∧ d.conn.stmts ≤ d'.conn.stmts := by
    unfold summarizeTier
    dsimp only
    split
    · exact ⟨d, rfl, rfl, Nat.le_refl _⟩
    · next hdays =>
      have hempty : (d.conn.db.memories.filter fun m => m.tier.sql = tier ∧ m.summaryText = none ∧
          m.status ≠ .deleted ∧
          m.createdAt < env.clock d.conn.ticks - cfg.summarizeAfterDays tier * DAY_MILLIS) = [] := by
        rw [List.filter_eq_nil_iff]
        intro m hm hdue
        rw [decide_eq_true_eq] at hdue
        exact hnone hdays m hm hdue
      have hdue : dueRows env tier
          (env.clock d.conn.ticks - cfg.summarizeAfterDays tier * DAY_MILLIS)
          { d.conn with ticks := d.conn.ticks + 1 } =
          (.ok [], { d.conn with ticks := d.conn.ticks + 1, stmts := d.conn.stmts + 1 }) := by
        unfold dueRows
        rw [query_of_noFault (c := { d.conn with ticks := d.conn.ticks + 1 })
          (hnofault _ (Nat.le_refl _))]
        dsimp only
        rw [hempty]
        rfl
      refine ⟨{ d with conn := { d.conn with
        ticks := d.conn.ticks + 1, stmts := d.conn.stmts + 1 } }, ?_, rfl, Nat.le_succ _⟩
      simp only [alone_bind, alone_call, alone_foldEach]
      have hclock : onConn (nowMillis env) d = (.ok (env.clock d.conn.ticks),
          { d with conn := { d.conn with ticks := d.conn.ticks + 1 } }) := rfl
      rw [bind_of_ok _ hclock]
      have hlist : onConn (dueRows env tier
          (env.clock d.conn.ticks - cfg.summarizeAfterDays tier * DAY_MILLIS))
          { d with conn := { d.conn with ticks := d.conn.ticks + 1 } } =
          (.ok [], { d with conn := { d.conn with
            ticks := d.conn.ticks + 1, stmts := d.conn.stmts + 1 } }) := by
        unfold onConn
        rw [hdue]
      rw [bind_of_ok _ hlist]
      rfl
  obtain ⟨d', hrun, hdb, hle⟩ := hrun
  refine ⟨d', hrun, ?_, hdb, hle⟩
  unfold tierPass
  rw [alone_bind, bind_of_ok _ hrun]
  rfl

variable (tools) in
private theorem tiers_nothing {cfg : MemoryConfig} {tiers : List String} (total : Nat)
    (hnofault : NoFaultLeft env d.conn) (hnone : ∀ p ∈ cutoffs env tools cfg tiers d,
      ∀ m ∈ d.conn.db.memories, ¬ Due p.1 p.2 m) :
    ∃ d', Program.foldEach tiers total
        (fun total tier => (tierPass env tools cfg total tier).alone) d = (.ok total, d') ∧
      d'.conn.db = d.conn.db ∧ d.conn.stmts ≤ d'.conn.stmts := by
  induction tiers generalizing d with
  | nil => exact ⟨d, rfl, rfl, Nat.le_refl _⟩
  | cons tier tiers ih =>
    unfold cutoffs at hnone
    obtain ⟨d₁, hrun, hpass, hdb, hle⟩ := tierPass_nothing tools total hnofault
      fun hdays => hnone (tier, _) (by
        rw [if_neg hdays]
        exact List.mem_append_left _ (List.mem_singleton_self _))
    rw [hrun] at hnone
    obtain ⟨d₂, hrest, hdb₂, hle₂⟩ := ih (hnofault.later hle) fun p hp m hm =>
      hnone p (List.mem_append_right _ hp) m (hdb ▸ hm)
    refine ⟨d₂, ?_, hdb₂.trans hdb, Nat.le_trans hle hle₂⟩
    rw [Program.foldEach, bind_of_ok _ hpass]
    exact hrest

variable (env tools) in
/-- The tiers that are summarized, in the order of their turns. -/
private theorem map_cutoffs (cfg : MemoryConfig) (tiers : List String) (d : Desk F) :
    (cutoffs env tools cfg tiers d).map Prod.fst =
      tiers.filter fun tier => cfg.summarizeAfterDays tier ≠ 0 := by
  induction tiers generalizing d with
  | nil => rfl
  | cons tier tiers ih =>
    rw [cutoffs, List.map_append, ih]
    by_cases hdays : cfg.summarizeAfterDays tier = 0
    · rw [if_pos hdays, List.filter_cons_of_neg (by simpa using hdays)]
      rfl
    · rw [if_neg hdays, List.filter_cons_of_pos (by simpa using hdays)]
      rfl

end

/-! ## Dedup -/

section

variable {c c' : Conn F} {threshold : F}

/-- The rows that are compared, each with its vector of the given dimension. -/
def members (cfg : Config F) (dim : Nat) (db : Db F) : List (Member F) :=
  (dedupRows db).map (memberOf cfg dim)

omit [F64 F] in
theorem Steady.members {dim : Nat} {db db' : Db F} (h : Steady db db') :
    members cfg dim db' = members cfg dim db := by
  unfold Consolidate.members
  rw [h.dedupRows]

omit [F64 F] in
theorem setDedupCluster_ok {id : Int} {clusterId : String}
    (h : setDedupCluster env id clusterId c = (.ok (), c')) : ∃ now,
    c'.db = c.db.updateMemory id fun m => { m with
      dedupClusterId := some clusterId, updatedAt := now } := by
  obtain ⟨now, c₁, hnow, hrun⟩ := bind_ok h
  obtain ⟨_, rfl⟩ := Prod.mk.inj hnow
  exact ⟨now, (Prod.mk.inj (Except.ok.inj (exec_ok hrun))).2.symm⟩

omit [F64 F] in
theorem bumpRefCount_ok {id : Int} (h : bumpRefCount env id c = (.ok (), c')) : ∃ now,
    c'.db = c.db.updateMemory id fun m => { m with
      refCount := m.refCount + 1, lastReferencedAt := some now } := by
  obtain ⟨now, c₁, hnow, hrun⟩ := bind_ok h
  obtain ⟨_, rfl⟩ := Prod.mk.inj hnow
  exact ⟨now, (Prod.mk.inj (Except.ok.inj (exec_ok hrun))).2.symm⟩

theorem dedupStep_join {st : List (Cluster F) × Nat} {m : Member F} {cluster : Cluster F}
    (h : st.1.find? (near threshold m) = some cluster) :
    (dedupStep env threshold st m).alone = (do
      bumpRefCount env cluster.ownerId
      setDedupCluster env m.id cluster.clusterId
      return (st.1, st.2 + 1)) := by
  unfold dedupStep
  rw [h]
  simp only [alone_bind, alone_call, alone_pure]

theorem dedupStep_lead {st : List (Cluster F) × Nat} {m : Member F}
    (h : st.1.find? (near threshold m) = none) :
    (dedupStep env threshold st m).alone = (do
      setDedupCluster env m.id (clusterIdOf env m.publicId)
      return (st.1 ++ [clusterOf env m], st.2)) := by
  unfold dedupStep
  rw [h]
  simp only [alone_bind, alone_call, alone_pure]

/-- A pass that completes counts the rows that join a cluster. -/
private theorem dedupPass_ok {ms : List (Member F)} {st st' : List (Cluster F) × Nat}
    (h : Program.foldEach ms st (fun st m => (dedupStep env threshold st m).alone) c =
      (.ok st', c')) :
    (Steady c.db c'.db ∧ c'.db.versions = c.db.versions) ∧
      st'.2 = st.2 + Leaders.merges (near threshold) (clusterOf env) st.1 ms := by
  induction ms generalizing st c with
  | nil =>
    obtain ⟨rfl, rfl⟩ := Program.pure_ok h
    exact ⟨⟨Std.Refl.refl _, rfl⟩, rfl⟩
  | cons m ms ih =>
    obtain ⟨st₁, c₁, hstep, hrest⟩ := bind_ok h
    obtain ⟨⟨hsteady, hversions⟩, hcount⟩ := ih hrest
    replace hstep : (dedupStep env threshold st m).alone c = (.ok st₁, c₁) := hstep
    cases hfind : st.1.find? (near threshold m) with
    | some cluster =>
      rw [dedupStep_join hfind] at hstep
      obtain ⟨_, c₂, hbump, hstep⟩ := bind_ok hstep
      obtain ⟨_, c₃, htag, hpure⟩ := bind_ok hstep
      obtain ⟨rfl, rfl⟩ := Program.pure_ok hpure
      obtain ⟨now, hdb₂⟩ := bumpRefCount_ok hbump
      obtain ⟨now', hdb₃⟩ := setDedupCluster_ok htag
      refine ⟨⟨?_, by rw [hversions, hdb₃, Db.updateMemory, hdb₂]; rfl⟩, ?_⟩
      · refine IsTrans.trans _ c₃.db _ ?_ hsteady
        rw [hdb₃]
        refine IsTrans.trans _ c₂.db _ ?_ (steady_updateMemory fun _ => ⟨rfl, id⟩)
        rw [hdb₂]
        exact steady_updateMemory fun _ => ⟨rfl, id⟩
      · replace hcount : st'.2 = st.2 + 1 +
          Leaders.merges (near threshold) (clusterOf env) st.1 ms := hcount
        rw [hcount, Leaders.merges_of_join hfind]
        omega
    | none =>
      rw [dedupStep_lead hfind] at hstep
      obtain ⟨_, c₂, htag, hpure⟩ := bind_ok hstep
      obtain ⟨rfl, rfl⟩ := Program.pure_ok hpure
      obtain ⟨now, hdb₂⟩ := setDedupCluster_ok htag
      refine ⟨⟨?_, by rw [hversions, hdb₂]; rfl⟩, ?_⟩
      · refine IsTrans.trans _ c₂.db _ ?_ hsteady
        rw [hdb₂]
        exact steady_updateMemory fun _ => ⟨rfl, id⟩
      · rw [hcount, Leaders.merges_of_lead hfind]

omit [F64 F] in
private theorem setDedupCluster_run {id : Int} {clusterId : String} (h : env.fault c.stmts = false) :
    setDedupCluster env id clusterId c = (.ok (), { c with
      ticks := c.ticks + 1, stmts := c.stmts + 1
      db := c.db.updateMemory id fun m => { m with
        dedupClusterId := some clusterId, updatedAt := env.clock c.ticks } }) := by
  unfold setDedupCluster
  rw [bind_of_ok _ (nowMillis_run env c)]
  exact run_of_noFault (c := { c with ticks := c.ticks + 1 }) h

omit [F64 F] in
private theorem bumpRefCount_run {id : Int} (h : env.fault c.stmts = false) :
    bumpRefCount env id c = (.ok (), { c with
      ticks := c.ticks + 1, stmts := c.stmts + 1
      db := c.db.updateMemory id fun m => { m with
        refCount := m.refCount + 1, lastReferencedAt := some (env.clock c.ticks) } }) := by
  unfold bumpRefCount
  rw [bind_of_ok _ (nowMillis_run env c)]
  exact run_of_noFault (c := { c with ticks := c.ticks + 1 }) h

/-- Without failures a pass completes. -/
private theorem dedupPass_completes (threshold : F) (ms : List (Member F))
    (st : List (Cluster F) × Nat)
    (hnofault : NoFaultLeft env c) : ∃ st' c', Program.foldEach ms st
      (fun st m => (dedupStep env threshold st m).alone) c = (.ok st', c') ∧ c.stmts ≤ c'.stmts := by
  induction ms generalizing st c with
  | nil => exact ⟨st, c, rfl, Nat.le_refl _⟩
  | cons m ms ih =>
    have hstep : ∃ st₁ c₁, (dedupStep env threshold st m).alone c = (.ok st₁, c₁) ∧
        c.stmts ≤ c₁.stmts := by
      have hfirst := hnofault c.stmts (Nat.le_refl _)
      cases hfind : st.1.find? (near threshold m) with
      | some cluster =>
        rw [dedupStep_join hfind, bind_of_ok _ (bumpRefCount_run hfirst),
          bind_of_ok _ (setDedupCluster_run (hnofault (c.stmts + 1) (Nat.le_succ _)))]
        exact ⟨_, _, rfl, by dsimp only; omega⟩
      | none =>
        rw [dedupStep_lead hfind, bind_of_ok _ (setDedupCluster_run hfirst)]
        exact ⟨_, _, rfl, Nat.le_succ _⟩
    obtain ⟨st₁, c₁, hrun, hle⟩ := hstep
    obtain ⟨st₂, c₂, hrest, hle₂⟩ := ih st₁ (hnofault.later hle)
    exact ⟨st₂, c₂, by rw [Program.foldEach, bind_of_ok _ hrun]; exact hrest, Nat.le_trans hle hle₂⟩

/-- The tag that a pass without merges leaves on a row, if it is listed. -/
def tagOf (env : Env F) : List (Member F) → Int → Option String
  | [], _ => none
  | m :: ms, id => (tagOf env ms id).or (if id = m.id then some (clusterIdOf env m.publicId) else none)

/-- A row apart from the time of its last change. -/
def timeless (m : Memory F) : Memory F := { m with updatedAt := 0 }

/-- A row as a pass without merges tags it. -/
def tagged (env : Env F) (ms : List (Member F)) (m : Memory F) : Memory F :=
  { m with dedupClusterId := (tagOf env ms m.id).or m.dedupClusterId }

/-- A pass without merges tags each row with a cluster of its own. -/
private theorem dedupPass_tags {ms : List (Member F)} {st st' : List (Cluster F) × Nat}
    (h : Program.foldEach ms st (fun st m => (dedupStep env threshold st m).alone) c =
      (.ok st', c')) (hnone : Leaders.merges (near threshold) (clusterOf env) st.1 ms = 0) :
    c'.db = { c.db with memories := c'.db.memories } ∧
      c'.db.memories.map timeless = c.db.memories.map fun m => timeless (tagged env ms m) := by
  induction ms generalizing st c with
  | nil =>
    obtain ⟨rfl, rfl⟩ := Program.pure_ok h
    exact ⟨rfl, List.map_congr_left fun m _ => rfl⟩
  | cons m ms ih =>
    obtain ⟨st₁, c₁, hstep, hrest⟩ := bind_ok h
    replace hstep : (dedupStep env threshold st m).alone c = (.ok st₁, c₁) := hstep
    cases hfind : st.1.find? (near threshold m) with
    | some cluster =>
      rw [Leaders.merges_of_join hfind] at hnone
      cases hnone
    | none =>
      rw [Leaders.merges_of_lead hfind] at hnone
      rw [dedupStep_lead hfind] at hstep
      obtain ⟨_, c₂, htag, hpure⟩ := bind_ok hstep
      obtain ⟨rfl, rfl⟩ := Program.pure_ok hpure
      obtain ⟨now, hdb₂⟩ := setDedupCluster_ok htag
      obtain ⟨hrows, htags⟩ := ih hrest hnone
      refine ⟨by rw [hrows, hdb₂]; rfl, ?_⟩
      rw [htags, hdb₂]
      show (c.db.memories.map _).map _ = _
      rw [List.map_map]
      refine List.map_congr_left fun row _ => ?_
      simp only [Function.comp_apply, tagged, tagOf, timeless]
      split
      · rw [Option.or_assoc, Option.some_or]
      · rw [Option.or_none]

omit [F64 F] in
/-- A listed row is tagged with its own cluster. -/
private theorem tagOf_of_mem {ms : List (Member F)} (hids : (ms.map Member.id).Nodup) {m : Member F}
    (hm : m ∈ ms) : tagOf env ms m.id = some (clusterIdOf env m.publicId) := by
  have hnone : ∀ {ms : List (Member F)} {id : Int}, id ∉ ms.map Member.id → tagOf env ms id = none := by
    intro ms id hid
    induction ms with
    | nil => rfl
    | cons m ms ih =>
      rw [List.map_cons, List.mem_cons, not_or] at hid
      rw [tagOf, ih hid.2, if_neg hid.1, Option.or_none]
  induction ms with
  | nil => cases hm
  | cons m' ms ih =>
    obtain ⟨hnew, hids⟩ := List.nodup_cons.mp hids
    rw [tagOf]
    rcases List.mem_cons.mp hm with rfl | hm
    · rw [hnone hnew, if_pos rfl, Option.none_or]
    · rw [ih hids hm, Option.some_or]

omit [F64 F] in
/-- Tagging again changes nothing. -/
private theorem tagged_tagged (ms : List (Member F)) (m : Memory F) :
    tagged env ms (tagged env ms m) = tagged env ms m := by
  unfold tagged
  dsimp only
  rw [← Option.or_assoc, Option.or_self]

/-- A step tags its row with the cluster that it joins or starts, and no other row. -/
private theorem dedupStep_tags {st st' : List (Cluster F) × Nat} {m : Member F}
    (h : (dedupStep env threshold st m).alone c = (.ok st', c')) {r' : Memory F}
    (hr' : r' ∈ c'.db.memories) :
    (r'.id ≠ m.id → ∃ r ∈ c.db.memories, r.id = r'.id ∧ r.dedupClusterId = r'.dedupClusterId) ∧
      (r'.id = m.id → r'.dedupClusterId =
        some ((st.1.find? (near threshold m)).getD (clusterOf env m)).clusterId) := by
  have htagged : ∀ {id clusterId c₁ c₂}, setDedupCluster env id clusterId c₁ = (.ok (), c₂) →
      ∀ r₂ ∈ c₂.db.memories, ∃ r₁ ∈ c₁.db.memories, r₁.id = r₂.id ∧ r₂.dedupClusterId =
        if r₁.id = id then some clusterId else r₁.dedupClusterId := by
    intro id clusterId c₁ c₂ hset r₂ hr₂
    obtain ⟨now, hdb⟩ := setDedupCluster_ok hset
    rw [hdb] at hr₂
    obtain ⟨r₁, hr₁, rfl⟩ := mem_updateMemory.mp hr₂
    refine ⟨r₁, hr₁, ?_⟩
    split <;> exact ⟨rfl, rfl⟩
  cases hfind : st.1.find? (near threshold m) with
  | some cluster =>
    rw [dedupStep_join hfind] at h
    obtain ⟨_, c₁, hbump, h⟩ := bind_ok h
    obtain ⟨_, c₂, hset, hpure⟩ := bind_ok h
    obtain ⟨rfl, rfl⟩ := Program.pure_ok hpure
    obtain ⟨now, hdb⟩ := bumpRefCount_ok hbump
    obtain ⟨r₁, hr₁, hid, htag⟩ := htagged hset r' hr'
    rw [hdb] at hr₁
    obtain ⟨r, hr, rfl⟩ := mem_updateMemory.mp hr₁
    have hkept : (if r.id = cluster.ownerId then { r with
        refCount := r.refCount + 1, lastReferencedAt := some now } else r).id = r.id ∧
        (if r.id = cluster.ownerId then { r with
          refCount := r.refCount + 1, lastReferencedAt := some now } else r).dedupClusterId =
            r.dedupClusterId := by
      split <;> exact ⟨rfl, rfl⟩
    rw [hkept.1] at hid htag
    rw [hkept.2] at htag
    refine ⟨fun hne => ⟨r, hr, hid, ?_⟩, fun heq => ?_⟩
    · rw [htag, if_neg (hid ▸ hne)]
    · rw [htag, if_pos (hid.trans heq)]
      rfl
  | none =>
    rw [dedupStep_lead hfind] at h
    obtain ⟨_, c₁, hset, hpure⟩ := bind_ok h
    obtain ⟨rfl, rfl⟩ := Program.pure_ok hpure
    obtain ⟨r, hr, hid, htag⟩ := htagged hset r' hr'
    refine ⟨fun hne => ⟨r, hr, hid, ?_⟩, fun heq => ?_⟩
    · rw [htag, if_neg (hid ▸ hne)]
    · rw [htag, if_pos (hid.trans heq)]
      rfl

/-- A pass leaves the tags of the rows that it does not list. -/
private theorem dedupPass_frame {ms : List (Member F)} {st st' : List (Cluster F) × Nat}
    (h : Program.foldEach ms st (fun st m => (dedupStep env threshold st m).alone) c =
      (.ok st', c')) {r' : Memory F} (hr' : r' ∈ c'.db.memories) (hid : r'.id ∉ ms.map Member.id) :
    ∃ r ∈ c.db.memories, r.id = r'.id ∧ r.dedupClusterId = r'.dedupClusterId := by
  induction ms generalizing st c with
  | nil =>
    obtain ⟨rfl, rfl⟩ := Program.pure_ok h
    exact ⟨r', hr', rfl, rfl⟩
  | cons m ms ih =>
    obtain ⟨st₁, c₁, hstep, hrest⟩ := bind_ok h
    rw [List.map_cons, List.mem_cons, not_or] at hid
    obtain ⟨r₁, hr₁, hid₁, htag₁⟩ := ih hrest hid.2
    obtain ⟨r, hr, hid', htag⟩ := (dedupStep_tags hstep hr₁).1 (hid₁ ▸ hid.1)
    exact ⟨r, hr, hid'.trans hid₁, htag.trans htag₁⟩

/-- Each listed row is tagged with a cluster of its own. -/
def OwnTags (env : Env F) (ms : List (Member F)) (db : Db F) : Prop :=
  ∀ m ∈ ms, ∃ r ∈ db.memories, r.id = m.id ∧ r.dedupClusterId = some (clusterIdOf env m.publicId)

/-- A pass that leaves each row with a cluster of its own merges none, if the clusters of different rows
have different names. -/
private theorem merges_of_ownTags {ms : List (Member F)} {st st' : List (Cluster F) × Nat}
    (h : Program.foldEach ms st (fun st m => (dedupStep env threshold st m).alone) c =
      (.ok st', c')) (hids : (ms.map Member.id).Nodup) (howns : OwnTags env ms c'.db)
    (hnames : (st.1.map Cluster.clusterId ++ ms.map fun m => clusterIdOf env m.publicId).Nodup) :
    Leaders.merges (near threshold) (clusterOf env) st.1 ms = 0 := by
  induction ms generalizing st c with
  | nil => rfl
  | cons m ms ih =>
    obtain ⟨st₁, c₁, hstep, hrest⟩ := bind_ok h
    replace hstep : (dedupStep env threshold st m).alone c = (.ok st₁, c₁) := hstep
    obtain ⟨hnew, hids⟩ := List.nodup_cons.mp hids
    obtain ⟨hown, howns⟩ := List.forall_mem_cons.mp howns
    obtain ⟨r', hr', hid', hown⟩ := hown
    obtain ⟨r₁, hr₁, hid₁, htag₁⟩ := dedupPass_frame hrest hr' (hid' ▸ hnew)
    have htag := (dedupStep_tags hstep hr₁).2 (hid₁.trans hid')
    rw [htag₁, hown, Option.some.injEq] at htag
    cases hfind : st.1.find? (near threshold m) with
    | some cluster =>
      rw [hfind, Option.getD_some] at htag
      have hcluster := List.mem_map_of_mem (f := Cluster.clusterId) (List.mem_of_find?_eq_some hfind)
      exact absurd htag.symm ((List.nodup_append.mp hnames).2.2 _ hcluster _ List.mem_cons_self)
    | none =>
      rw [dedupStep_lead hfind] at hstep
      obtain ⟨_, c₂, _, hpure⟩ := bind_ok hstep
      obtain ⟨rfl, rfl⟩ := Program.pure_ok hpure
      rw [Leaders.merges_of_lead hfind]
      refine ih hrest hids howns ?_
      rw [List.map_append, List.append_assoc]
      exact hnames

private theorem dedupConsolidation_alone : (dedupConsolidation env cfg).alone = (do
    let dim ← embedDim env
    let memories ← allActiveMemoriesForDedup env
    let st ← Program.foldEach (memories.map (memberOf cfg dim)) ([], 0)
      fun st m => (dedupStep env cfg.dedupThreshold st m).alone
    return st.2) := by
  unfold dedupConsolidation
  simp only [alone_bind, alone_call, alone_foldEach, alone_pure]

/-- The pass works on the rows that the store has when it begins. -/
theorem dedupConsolidation_ok {merged : Nat}
    (h : (dedupConsolidation env cfg).alone c = (.ok merged, c')) :
    ∃ c₀ st, c₀.db = c.db ∧ Program.foldEach (members cfg (dimRead env c) c.db) ([], 0)
      (fun st m => (dedupStep env cfg.dedupThreshold st m).alone) c₀ = (.ok st, c') ∧
      merged = st.2 := by
  rw [dedupConsolidation_alone] at h
  obtain ⟨dim, c₁, hdim, h⟩ := bind_ok h
  obtain ⟨rows, c₂, hrows, h⟩ := bind_ok h
  obtain ⟨st, c₃, hpass, hpure⟩ := bind_ok h
  obtain ⟨rfl, rfl⟩ := Program.pure_ok hpure
  obtain ⟨rfl, hdb₁⟩ := embedDim_ok hdim
  obtain ⟨hrows, hdb₂⟩ := query_ok hrows
  obtain rfl := Except.ok.inj hrows
  rw [hdb₁] at hpass
  exact ⟨c₂, st, hdb₂.trans hdb₁, hpass, rfl⟩

theorem merged_eq {merged : Nat} (h : (dedupConsolidation env cfg).alone c = (.ok merged, c')) :
    (Steady c.db c'.db ∧ c'.db.versions = c.db.versions) ∧ merged =
      Leaders.merges (near cfg.dedupThreshold) (clusterOf env) []
        (members cfg (dimRead env c) c.db) := by
  obtain ⟨c₀, st, hdb, hpass, rfl⟩ := dedupConsolidation_ok h
  obtain ⟨hsteady, hcount⟩ := dedupPass_ok hpass
  refine ⟨hdb ▸ hsteady, ?_⟩
  rw [hcount]
  exact Nat.zero_add _

variable (cfg) in
private theorem dedupConsolidation_completes (hnofault : NoFaultLeft env c) : ∃ merged c',
    (dedupConsolidation env cfg).alone c = (.ok merged, c') ∧ c.stmts ≤ c'.stmts := by
  rw [dedupConsolidation_alone]
  have hdim : embedDim env c = (.ok c.db.embedDim, { c with stmts := c.stmts + 1 }) := by
    rw [← dimRead_of_noFault (hnofault c.stmts (Nat.le_refl _))]
    rfl
  rw [bind_of_ok _ hdim]
  have hrows := query_of_noFault (f := fun db : Db F => .ok (dedupRows db))
    (c := { c with stmts := c.stmts + 1 }) (hnofault (c.stmts + 1) (Nat.le_succ _))
  rw [allActiveMemoriesForDedup, bind_of_ok _ hrows]
  have hlater : NoFaultLeft env { c with stmts := c.stmts + 1 + 1 } :=
    hnofault.later (by dsimp only; omega)
  obtain ⟨st, c', hpass, hle⟩ := dedupPass_completes cfg.dedupThreshold
    ((dedupRows c.db).map (memberOf cfg c.db.embedDim)) ([], 0) hlater
  rw [bind_of_ok _ hpass]
  exact ⟨st.2, c', rfl, by dsimp only at hle; omega⟩

end

/-! ## Orphans -/

section

omit [F64 F]

variable {c c' : Conn F} {db db' : Db F}

private theorem deleteOrphanedVersions_ok {n : Nat} (h : deleteOrphanedVersions env c = (.ok n, c')) :
    n = (orphans c.db).length ∧ c'.db = { c.db with
      versions := c.db.versions.filter fun v => v.memoryId ∈ c.db.memories.map Memory.id } := by
  have hexec := Prod.mk.inj (Except.ok.inj (exec_ok h))
  exact ⟨hexec.1.symm, hexec.2.symm⟩

private theorem orphans_of_deleted (h : db' = { db with
    versions := db.versions.filter fun v => v.memoryId ∈ db.memories.map Memory.id }) :
    orphans db' = [] := by
  rw [h]
  unfold orphans
  rw [List.filter_filter, List.filter_eq_nil_iff]
  intro v _ hv
  simp only [decide_eq_true_eq, Bool.and_eq_true] at hv
  exact hv.1 hv.2

theorem Steady.orphans (h : Steady db db') (hversions : db'.versions = db.versions) :
    orphans db' = orphans db := by
  unfold Consolidate.orphans
  rw [hversions, h.ids]

/-- Without orphans every version stays. -/
private theorem versions_of_orphans (h : orphans db = []) :
    (db.versions.filter fun v => v.memoryId ∈ db.memories.map Memory.id) = db.versions := by
  rw [List.filter_eq_self]
  intro v hv
  have hnot := List.filter_eq_nil_iff.mp h v hv
  simpa using hnot

end

/-! ## The job -/

section

variable {d d' : Desk F}

private theorem consolidate_eq : consolidate env tools cfg = (do
    let summaries ← (runSummarizationJob env tools cfg.memory).alone
    let merged ← ((dedupConsolidation env cfg).zoom Desk.conn
      (fun d conn => { d with conn }) : Task F Nat).alone
    let deleted ← onConn (deleteOrphanedVersions env)
    return ⟨summaries, merged, deleted⟩) := by
  unfold consolidate runConsolidationJob
  simp only [alone_bind, alone_call, alone_pure]

variable (env cfg) in
private theorem zoom_alone (d : Desk F) : ((dedupConsolidation env cfg).zoom Desk.conn
    (fun d conn => { d with conn }) : Task F Nat).alone d =
    (((dedupConsolidation env cfg).alone d.conn).1,
      { d with conn := ((dedupConsolidation env cfg).alone d.conn).2 }) := by
  apply alone_zoom
  · exact fun _ _ => rfl
  · exact fun _ _ _ => rfl
  · exact fun _ => rfl

/-- The three parts of a consolidation that completes. -/
private theorem consolidate_ok {report : ConsolidateReport}
    (h : consolidate env tools cfg d = (.ok report, d')) : ∃ d₁ c₂,
    Program.foldEach TIERS 0 (fun total tier => (tierPass env tools cfg.memory total tier).alone) d =
      (.ok report.summariesGenerated, d₁) ∧
    (dedupConsolidation env cfg).alone d₁.conn = (.ok report.dedupClustersMerged, c₂) ∧
    deleteOrphanedVersions env c₂ = (.ok report.orphansDeleted, d'.conn) := by
  rw [consolidate_eq] at h
  obtain ⟨summaries, d₁, hsummaries, h⟩ := bind_ok h
  obtain ⟨merged, d₂, hmerged, h⟩ := bind_ok h
  obtain ⟨deleted, d₃, hdeleted, hpure⟩ := bind_ok h
  obtain ⟨rfl, rfl⟩ := Program.pure_ok hpure
  rw [zoom_alone] at hmerged
  obtain ⟨houtcome, rfl⟩ := Prod.mk.inj hmerged
  rw [runSummarizationJob_alone] at hsummaries
  exact ⟨d₁, _, hsummaries, Program.run_of_outcome houtcome, onConn_ok hdeleted⟩

/-- A consolidation that completes leaves nothing due and no orphan. -/
private theorem consolidate_leaves {report : ConsolidateReport}
    (h : consolidate env tools cfg d = (.ok report, d')) :
    Steady d.conn.db d'.conn.db ∧ orphans d'.conn.db = [] ∧
      ∀ p ∈ cutoffs env tools cfg.memory TIERS d, ∀ m ∈ d'.conn.db.memories, ¬ Due p.1 p.2 m := by
  obtain ⟨d₁, c₂, htiers, hdedup, hdelete⟩ := consolidate_ok h
  obtain ⟨hsteady₁, hdone⟩ := tiers_ok htiers
  obtain ⟨⟨hsteady₂, _⟩, _⟩ := merged_eq hdedup
  obtain ⟨_, hdb⟩ := deleteOrphanedVersions_ok hdelete
  have hsteady₃ : Steady c₂.db d'.conn.db := by
    rw [hdb]
    exact ⟨rfl, rfl, fun m hm => ⟨m, hm, .refl m⟩⟩
  have hlater := IsTrans.trans (r := Steady) _ _ _ hsteady₂ hsteady₃
  refine ⟨IsTrans.trans _ _ _ hsteady₁ hlater, orphans_of_deleted hdb, fun p hp m' hm' => ?_⟩
  obtain ⟨m, hm, hsame⟩ := hlater.rows m' hm'
  exact fun hdue => hdone p hp m hm (hsame.due hdue)

/-- Two rows of a tier that the pass would merge are not both listed. -/
def Apart (cfg : Config F) (dim : Nat) (db : Db F) : Prop :=
  (members cfg dim db).Pairwise fun a b =>
    a.tier = b.tier → F64.le cfg.dedupThreshold (cosineSimilarity b.vec a.vec) = false

theorem merges_eq_zero_iff (dim : Nat) (db : Db F) :
    Leaders.merges (near cfg.dedupThreshold) (clusterOf env) [] (members cfg dim db) = 0 ↔
      Apart cfg dim db := by
  rw [Leaders.merges_eq_zero]
  refine ⟨fun h => h.2.imp fun {a b} hfar htier => ?_, fun h => ⟨fun _ _ => List.forall_mem_nil _,
    h.imp fun {a b} hfar => ?_⟩⟩
  · simpa [near, clusterOf, htier] using hfar
  · rw [near, Bool.and_eq_false_imp, decide_eq_true_eq]
    exact hfar

/-- Every row that the second run would summarize was old enough for the first one. -/
def NothingNew (env : Env F) (tools : Tools F) (cfg : MemoryConfig) (d d' : Desk F) : Prop :=
  ∀ tier before after, (tier, before) ∈ cutoffs env tools cfg TIERS d →
    (tier, after) ∈ cutoffs env tools cfg TIERS d' →
    ∀ m ∈ d'.conn.db.memories, Due tier after m → m.createdAt < before

omit [F64 F] in
/-- What was due for the first run is done, and nothing else is due for the second. -/
private theorem nothing_due {cfg : MemoryConfig} {d d' : Desk F} (hnew : NothingNew env tools cfg d d')
    (hdone : ∀ p ∈ cutoffs env tools cfg TIERS d, ∀ m ∈ d'.conn.db.memories, ¬ Due p.1 p.2 m) :
    ∀ p ∈ cutoffs env tools cfg TIERS d', ∀ m ∈ d'.conn.db.memories, ¬ Due p.1 p.2 m := by
  intro p hp m hm hdue
  have htier : p.1 ∈ (cutoffs env tools cfg TIERS d).map Prod.fst := by
    rw [map_cutoffs, ← map_cutoffs env tools cfg TIERS d']
    exact List.mem_map_of_mem hp
  obtain ⟨p', hp', htiers⟩ := List.mem_map.mp htier
  have hbefore : (p.1, p'.2) ∈ cutoffs env tools cfg TIERS d := htiers ▸ hp'
  have hold := hnew p.1 p'.2 p.2 hbefore hp m hm hdue
  exact hdone _ hbefore m hm ⟨hdue.1, hdue.2.1, hdue.2.2.1, hold⟩

/-- Two databases that are the same apart from the times of the last changes. -/
structure Unchanged (db db' : Db F) : Prop where
  rest : db' = { db with memories := db'.memories }
  memories : db'.memories.map timeless = db.memories.map timeless

/-- A pass over rows that are apart only tags them. -/
private theorem dedupConsolidation_tags {c c' : Conn F} {merged : Nat}
    (h : (dedupConsolidation env cfg).alone c = (.ok merged, c'))
    (hapart : Apart cfg (dimRead env c) c.db) :
    c'.db = { c.db with memories := c'.db.memories } ∧ c'.db.memories.map timeless =
      (c.db.memories.map timeless).map (tagged env (members cfg (dimRead env c) c.db)) := by
  obtain ⟨c₀, st, hdb, hpass, _⟩ := dedupConsolidation_ok h
  obtain ⟨hrows, htags⟩ := dedupPass_tags hpass ((merges_eq_zero_iff _ c.db).mpr hapart)
  rw [hdb] at hrows htags
  refine ⟨hrows, ?_⟩
  rw [htags, List.map_map]
  rfl

omit [F64 F] in
/-- What the listed rows have as a key, all rows have. -/
private theorem members_map_nodup {β : Type} (f : Int → String → β) (dim : Nat) {db : Db F}
    (h : (db.memories.map fun r => f r.id r.publicId).Nodup) :
    ((members cfg dim db).map fun m => f m.id m.publicId).Nodup := by
  have hperm : ((members cfg dim db).map fun m => f m.id m.publicId).Perm
      ((db.memories.filter fun r => r.status = .active).map fun r => f r.id r.publicId) := by
    unfold members dedupRows
    rw [List.map_map, List.map_map]
    exact (List.perm_insertionSort dedupOrder _).map _
  exact hperm.nodup_iff.mpr (h.sublist (List.filter_sublist.map _))

omit [F64 F] in
/-- A listed row is in the table. -/
private theorem exists_of_member {dim : Nat} {db : Db F} {m : Member F} (hm : m ∈ members cfg dim db) :
    ∃ r ∈ db.memories, r.id = m.id := by
  unfold members dedupRows at hm
  rw [List.map_map] at hm
  obtain ⟨r, hr, rfl⟩ := List.mem_map.mp hm
  exact ⟨r, (List.mem_filter.mp ((List.mem_insertionSort _).mp hr)).1, rfl⟩

/-- A run with nothing due and no orphan is its dedup pass. -/
private theorem consolidate_again (hnofault : NoFaultLeft env d.conn)
    (hnone : ∀ p ∈ cutoffs env tools cfg.memory TIERS d,
      ∀ m ∈ d.conn.db.memories, ¬ Due p.1 p.2 m) (horphans : orphans d.conn.db = []) :
    ∃ merged c c' d', consolidate env tools cfg d = (.ok ⟨0, merged, 0⟩, d') ∧
      c.db = d.conn.db ∧ dimRead env c = d.conn.db.embedDim ∧
      (dedupConsolidation env cfg).alone c = (.ok merged, c') ∧ d'.conn.db = c'.db := by
  obtain ⟨d₁, htiers, hdb₁, hle₁⟩ := tiers_nothing tools 0 hnofault hnone
  have hnofault₁ := hnofault.later hle₁
  obtain ⟨merged, c', hdedup, hle⟩ := dedupConsolidation_completes cfg hnofault₁
  obtain ⟨⟨hsteady, hversions⟩, _⟩ := merged_eq hdedup
  have hno : orphans c'.db = [] := by rw [hsteady.orphans hversions, hdb₁, horphans]
  have hdim : dimRead env d₁.conn = d.conn.db.embedDim := by
    rw [dimRead_of_noFault (hnofault₁ _ (Nat.le_refl _)), hdb₁]
  refine ⟨merged, d₁.conn, c', { d₁ with conn := { c' with stmts := c'.stmts + 1 } }, ?_, hdb₁,
    hdim, hdedup, rfl⟩
  have hzoom := zoom_alone env cfg d₁
  rw [hdedup] at hzoom
  have hdelete : deleteOrphanedVersions env c' = (.ok 0, { c' with stmts := c'.stmts + 1 }) := by
    refine (exec_of_ok (hnofault₁ _ hle) rfl).trans ?_
    rw [hno, versions_of_orphans hno]
    rfl
  have hlast : onConn (deleteOrphanedVersions env) { d₁ with conn := c' } =
      (.ok 0, { d₁ with conn := { c' with stmts := c'.stmts + 1 } }) := by
    unfold onConn
    rw [hdelete]
  rw [consolidate_eq, runSummarizationJob_alone, bind_of_ok _ htiers, bind_of_ok _ hzoom,
    bind_of_ok _ hlast]
  rfl

omit [F64 F] in
/-- The tags do not depend on the vectors. -/
private theorem tagOf_members (cfg : Config F) (dim dim' : Nat) (db : Db F) :
    tagOf env (members cfg dim db) = tagOf env (members cfg dim' db) := by
  funext id
  unfold members
  induction dedupRows db with
  | nil => rfl
  | cons row rows ih =>
    show (tagOf env (rows.map (memberOf cfg dim)) id).or _ = (tagOf env (rows.map _) id).or _
    rw [ih]
    rfl

/-- Of two passes over the same rows that merge none, both only tag, and the tags are the same. -/
private theorem unchanged_of_apart {c c₁ c₂ c₃ : Conn F} {n n' : Nat}
    (hfirst : (dedupConsolidation env cfg).alone c = (.ok n, c₁))
    (hsecond : (dedupConsolidation env cfg).alone c₂ = (.ok n', c₃))
    (hrows : c₂.db.memories = c₁.db.memories)
    (hmembers : ∀ dim, members cfg dim c₂.db = members cfg dim c.db)
    (hapart : Apart cfg (dimRead env c) c.db) (hapart₂ : Apart cfg (dimRead env c₂) c₂.db) :
    Unchanged c₂.db c₃.db := by
  obtain ⟨_, htags⟩ := dedupConsolidation_tags hfirst hapart
  obtain ⟨hrest, htags₂⟩ := dedupConsolidation_tags hsecond hapart₂
  have hagree : tagged env (members cfg (dimRead env c₂) c₂.db) =
      tagged env (members cfg (dimRead env c) c.db) := by
    funext m
    unfold tagged
    rw [hmembers, tagOf_members]
  refine ⟨hrest, ?_⟩
  rw [htags₂, hrows, htags, hagree, List.map_map]
  exact List.map_congr_left fun m _ => tagged_tagged _ m

/-- Of two passes over the same rows, of which the second merges none and changes nothing, the first
merges none either: it would have tagged a row with the cluster of another one. -/
private theorem apart_of_unchanged {c c₁ c₂ c₃ : Conn F} {n n' : Nat}
    (hfirst : (dedupConsolidation env cfg).alone c = (.ok n, c₁))
    (hsecond : (dedupConsolidation env cfg).alone c₂ = (.ok n', c₃))
    (hrows : c₂.db.memories = c₁.db.memories)
    (hmembers : ∀ dim, members cfg dim c₂.db = members cfg dim c.db)
    (hids : (c.db.memories.map Memory.id).Nodup)
    (hnames : (c.db.memories.map fun r => env.sha256Hex r.publicId).Nodup)
    (hapart : Apart cfg (dimRead env c₂) c₂.db)
    (hsame : c₃.db.memories.map timeless = c₂.db.memories.map timeless) :
    Apart cfg (dimRead env c) c.db := by
  obtain ⟨c₀, st, hdb, hpass, _⟩ := dedupConsolidation_ok hfirst
  obtain ⟨_, htags⟩ := dedupConsolidation_tags hsecond hapart
  have hlisted : ((members cfg (dimRead env c) c.db).map Member.id).Nodup :=
    members_map_nodup (fun id _ => id) _ hids
  have howns : OwnTags env (members cfg (dimRead env c) c.db) c₁.db := by
    intro m hm
    obtain ⟨r, hr, hid⟩ := exists_of_member (hmembers (dimRead env c) ▸ hm)
    refine ⟨r, hrows ▸ hr, hid, ?_⟩
    have hfixed : (c₂.db.memories.map timeless).map
        (tagged env (members cfg (dimRead env c₂) c₂.db)) = (c₂.db.memories.map timeless).map id := by
      rw [← htags, hsame, List.map_id]
    have htag := congrArg Memory.dedupClusterId
      (List.map_inj_left.mp hfixed _ (List.mem_map_of_mem hr))
    have hagree : tagOf env (members cfg (dimRead env c₂) c₂.db) r.id =
        some (clusterIdOf env m.publicId) := by
      rw [tagOf_members cfg _ (dimRead env c), hmembers, hid, tagOf_of_mem hlisted hm]
    unfold tagged timeless at htag
    dsimp only [id] at htag
    rw [hagree, Option.some_or] at htag
    exact htag.symm
  have hclusters : ((members cfg (dimRead env c) c.db).map fun m => clusterIdOf env m.publicId).Nodup := by
    have hhashes : ((members cfg (dimRead env c) c.db).map fun m =>
        env.sha256Hex m.publicId).Nodup :=
      members_map_nodup (fun _ publicId => env.sha256Hex publicId) _ hnames
    have hmarked := hhashes.map (f := fun hash => "dedup-" ++ hash) fun a b hab =>
      (String.append_right_inj _).mp hab
    rwa [List.map_map] at hmarked
  exact (merges_eq_zero_iff _ c.db).mp (merges_of_ownTags hpass hlisted howns hclusters)

/-- The dimension that the dedup pass of a run reads, after the summaries. -/
def passDim (env : Env F) (tools : Tools F) (cfg : Config F) (d : Desk F) : Nat :=
  dimRead env ((runSummarizationJob env tools cfg.memory).alone d).2.conn

/-- The second of two runs that complete, with nothing newly due in between, summarizes nothing and
finds no orphan. It reports no merge exactly if no active row was near to an earlier one of its tier in
the first place, and it changes nothing but times exactly if, besides, the first run merged none, which
differs only where that one could not read the dimension of the store. -/
theorem consolidation_idempotent (env : Env F) (tools : Tools F) (cfg : Config F)
    (d d₁ : Desk F) (report : ConsolidateReport)
    (hfirst : consolidate env tools cfg d = (.ok report, d₁))
    (hnew : NothingNew env tools cfg.memory d d₁)
    (hnofault : ∀ n, d₁.conn.stmts ≤ n → env.fault n = false) :
    ∃ again d₂, consolidate env tools cfg d₁ = (.ok again, d₂) ∧
      again.summariesGenerated = 0 ∧ again.orphansDeleted = 0 ∧
      (again.dedupClustersMerged = 0 ↔ Apart cfg d.conn.db.embedDim d.conn.db) ∧
      (Apart cfg d.conn.db.embedDim d.conn.db → Apart cfg (passDim env tools cfg d) d.conn.db →
        Unchanged d₁.conn.db d₂.conn.db) ∧
      ((d.conn.db.memories.map Memory.id).Nodup →
        (d.conn.db.memories.map fun m => env.sha256Hex m.publicId).Nodup →
        (again.dedupClustersMerged = 0 ∧ Unchanged d₁.conn.db d₂.conn.db ↔
          Apart cfg d.conn.db.embedDim d.conn.db ∧
            Apart cfg (passDim env tools cfg d) d.conn.db)) := by
  obtain ⟨hsteady, horphans, hdone⟩ := consolidate_leaves hfirst
  obtain ⟨merged, c, c', d₂, hagain, hdb, hdim, hdedup, hdb₂⟩ :=
    consolidate_again hnofault (nothing_due hnew hdone) horphans
  have hread : dimRead env c = d.conn.db.embedDim := by rw [hdim, hsteady.rest]
  have hmembers : ∀ dim, members cfg dim c.db = members cfg dim d.conn.db := fun dim => by
    rw [hdb, hsteady.members]
  have hzero : merged = 0 ↔ Apart cfg d.conn.db.embedDim d.conn.db := by
    rw [(merged_eq hdedup).2, hread, hmembers]
    exact merges_eq_zero_iff _ d.conn.db
  obtain ⟨ds, c₂, htiers, hfirstDedup, hdelete⟩ := consolidate_ok hfirst
  have hpass : passDim env tools cfg d = dimRead env ds.conn := by
    unfold passDim
    rw [runSummarizationJob_alone, htiers]
  have hsteady₁ : Steady d.conn.db ds.conn.db := (tiers_ok htiers).1
  have hmembers₁ : ∀ dim, members cfg dim ds.conn.db = members cfg dim d.conn.db := fun dim =>
    hsteady₁.members
  have hrows : c.db.memories = c₂.db.memories := by
    rw [hdb, (deleteOrphanedVersions_ok hdelete).2]
  have hsteps : ∀ dim, members cfg dim c.db = members cfg dim ds.conn.db := fun dim =>
    (hmembers dim).trans (hmembers₁ dim).symm
  have hagain₂ : Apart cfg d.conn.db.embedDim d.conn.db → Apart cfg (dimRead env c) c.db := fun h => by
    rwa [Apart, hmembers, hread]
  have hkept : Apart cfg d.conn.db.embedDim d.conn.db → Apart cfg (passDim env tools cfg d) d.conn.db →
      Unchanged d₁.conn.db d₂.conn.db := by
    intro hapart hfirstApart
    rw [← hdb, hdb₂]
    refine unchanged_of_apart hfirstDedup hdedup hrows hsteps ?_ (hagain₂ hapart)
    rwa [Apart, hmembers₁, ← hpass]
  refine ⟨_, d₂, hagain, rfl, rfl, hzero, hkept, fun hids hnames => ⟨fun ⟨hnomerge, hunchanged⟩ => ?_,
    fun ⟨hapart, hfirstApart⟩ => ⟨hzero.mpr hapart, hkept hapart hfirstApart⟩⟩⟩
  have hapart := hzero.mp hnomerge
  refine ⟨hapart, ?_⟩
  have hnames₁ : (ds.conn.db.memories.map fun m => env.sha256Hex m.publicId) =
      d.conn.db.memories.map fun m => env.sha256Hex m.publicId := by
    have hcore := congrArg (List.map fun m => env.sha256Hex m.publicId) hsteady₁.core
    rwa [List.map_map, List.map_map] at hcore
  have hfirstApart := apart_of_unchanged hfirstDedup hdedup hrows hsteps (hsteady₁.ids ▸ hids)
    (hnames₁ ▸ hnames) (hagain₂ hapart) (by rw [← hdb₂, hunchanged.memories, hdb])
  rwa [Apart, hmembers₁, ← hpass] at hfirstApart

end

/-! ## Two stores -/

def sampleTools : Tools ℚ where
  chat := ⟨fun _ _ => .ok "short"⟩
  count text := text.length
  rougeL _ _ := 0

/-- Rows without a vector are compared by the length of their text; working rows are due after a
day. -/
def sampleConfig : Config ℚ where
  memory := ⟨1, 0, 0, 0⟩
  dedupThreshold := 9 / 10
  hashToUnitVector text _ := if text.length = 3 then [1, 0] else [0, 1]

def sampleRow (id : Int) (text : String) : Memory ℚ where
  id
  publicId := "m" ++ toString id
  agentId := "a"
  tier := .semantic
  kind := .fact
  text
  textHash := text
  importanceCurrent := 1 / 2
  confidence := 1
  status := .active
  trust := .trusted
  sourceKind := .user
  createdAt := 0
  updatedAt := 0

/-- Two active rows of one tier, and a version whose memory is gone. -/
def sampleDesk (text : String) : Desk ℚ where
  conn := { agentId := "a", db := {
    memories := [sampleRow 1 "sky", sampleRow 2 text], memorySeq := 3
    versions := [{ memoryId := 3, version := 1, text := "ice", textHash := "ice", createdAt := 0 }] } }

theorem consolidation_idempotent_sample : ∃ report d₁,
    consolidate sampleEnv sampleTools sampleConfig (sampleDesk "the sea") = (.ok report, d₁) ∧
    ∃ again d₂, consolidate sampleEnv sampleTools sampleConfig d₁ = (.ok again, d₂) ∧
      again.summariesGenerated = 0 ∧ again.orphansDeleted = 0 ∧
      again.dedupClustersMerged = 0 ∧ Unchanged d₁.conn.db d₂.conn.db := by
  have hfirst : (consolidate sampleEnv sampleTools sampleConfig (sampleDesk "the sea")).1 =
      .ok ⟨0, 0, 1⟩ := by decide +kernel
  refine ⟨⟨0, 0, 1⟩, _, Prod.ext hfirst rfl, ?_⟩
  have hnew : NothingNew sampleEnv sampleTools sampleConfig.memory (sampleDesk "the sea")
      (consolidate sampleEnv sampleTools sampleConfig (sampleDesk "the sea")).2 := by
    intro tier before after _ hafter m hm hdue
    have htiers : ∀ p ∈ cutoffs sampleEnv sampleTools sampleConfig.memory TIERS
        (consolidate sampleEnv sampleTools sampleConfig (sampleDesk "the sea")).2,
        p.1 = "working" := by decide +kernel
    have hrows : ∀ m ∈ (consolidate sampleEnv sampleTools sampleConfig
        (sampleDesk "the sea")).2.conn.db.memories, m.tier.sql ≠ "working" := by decide +kernel
    exact absurd (hdue.1.trans (htiers _ hafter)) (hrows m hm)
  have hapart : Apart sampleConfig 1536 (sampleDesk "the sea").conn.db := by
    unfold Apart
    decide +kernel
  obtain ⟨again, d₂, hagain, hsummaries, horphans, _, _, hiff⟩ := consolidation_idempotent sampleEnv
    sampleTools sampleConfig (sampleDesk "the sea") _ _ (Prod.ext hfirst rfl) hnew fun _ _ => rfl
  exact ⟨again, d₂, hagain, hsummaries, horphans,
    (hiff (by decide) (by decide)).mpr ⟨hapart, hapart⟩⟩

/-- Two rows with one text are merged by each run, and each bumps the first one. -/
theorem consolidation_repeats_merges : ∃ d₁ d₂,
    consolidate sampleEnv sampleTools sampleConfig (sampleDesk "sky") = (.ok ⟨0, 1, 1⟩, d₁) ∧
    consolidate sampleEnv sampleTools sampleConfig d₁ = (.ok ⟨0, 1, 0⟩, d₂) ∧
    d₁.conn.db.memories.map Memory.refCount = [1, 0] ∧
    d₂.conn.db.memories.map Memory.refCount = [2, 0] := by
  have hfirst : (consolidate sampleEnv sampleTools sampleConfig (sampleDesk "sky")).1 =
      .ok ⟨0, 1, 1⟩ := by decide +kernel
  have hagain : (consolidate sampleEnv sampleTools sampleConfig
      (consolidate sampleEnv sampleTools sampleConfig (sampleDesk "sky")).2).1 =
      .ok ⟨0, 1, 0⟩ := by decide +kernel
  exact ⟨_, _, Prod.ext hfirst rfl, Prod.ext hagain rfl, by decide +kernel, by decide +kernel⟩

end AgosMemory.Consolidate
