import AgosMemory.Memory.Persist
import AgosMemory.Recall.Legs
import AgosMemory.Recall.Nearest
import AgosMemory.Recall.Predicate
import AgosMemory.Storage.Wellformed
import AgosMemory.SystemEdits

/-!
# The vectors of a run in chunks

Every run of the store issues statements on `vec_memories`, which the database lists. The chunks that
they leave hold the vectors of the memories that are embedded and nothing of a purged one, and the
searches of the store are those over these chunks.
-/

namespace AgosMemory.Vec0

open Library Ranking Store Recall

variable {F : Type} [F64 F]

/-! ## The statements of a run -/

section

variable {env : Env F} {G : Grant} {dim : Nat} {db db' : Db F}

private theorem outcomes_append {α σ : Type} {run : Statement α → σ → Except Error σ}
    (ss ss' : List (Statement α)) (state : σ) : outcomes run (ss ++ ss') state =
      outcomes run ss state ++ outcomes run ss' (final run ss state) := by
  induction ss generalizing state with
  | nil => rfl
  | cons s ss ih => exact congrArg (_ :: ·) (ih _)

private theorem final_append {α σ : Type} {run : Statement α → σ → Except Error σ}
    (ss ss' : List (Statement α)) (state : σ) :
    final run (ss ++ ss') state = final run ss' (final run ss state) := by
  induction ss generalizing state with
  | nil => rfl
  | cons s ss ih => exact ih _

/-- Every vector that was inserted is there, or was deleted. -/
def Accounted (db : Db F) : Prop :=
  ∀ v, .insert v ∈ db.vecLog → v.rowid ∈ db.vecs.map VecRow.rowid ∨ .delete v.rowid ∈ db.vecLog

/-- The statements so far, on a plain list: none failed, and they leave the vectors of the database. -/
structure Logged (dim : Nat) (db : Db F) : Prop where
  embedDim : db.embedDim = dim
  succeed : ∀ o ∈ outcomes (Statement.plain (vecLayout F dim)) (statements db) [], o = .ok ()
  rows : final (Statement.plain (vecLayout F dim)) (statements db) [] = db.vecs.map rowOfVec
  accounted : Accounted db

/-- One more statement. -/
theorem Logged.next (h : Logged dim db) (hdim : db'.embedDim = db.embedDim) {s : VecStatement F}
    (hlog : db'.vecLog = db.vecLog ++ [s]) (haccounted : Accounted db')
    (hs : (shadow s).plain (vecLayout F dim) (db.vecs.map rowOfVec) =
      .ok (db'.vecs.map rowOfVec)) : Logged dim db' := by
  have hstatements : statements db' = statements db ++ [shadow s] := by
    unfold statements
    rw [hlog, List.map_append, List.map_singleton]
  refine ⟨hdim.trans h.embedDim, ?_, ?_, haccounted⟩
  · rw [hstatements, outcomes_append, h.rows]
    refine List.forall_mem_append.mpr ⟨h.succeed, fun o ho => ?_⟩
    unfold outcomes at ho
    rw [hs] at ho
    exact List.mem_singleton.mp ho
  · rw [hstatements, final_append, h.rows]
    unfold final
    rw [hs]
    rfl

theorem Logged.same (h : Logged dim db) (hdim : db'.embedDim = db.embedDim) (hvecs : db'.vecs = db.vecs)
    (hlog : db'.vecLog = db.vecLog) : Logged dim db' := by
  have hstatements : statements db' = statements db := congrArg (List.map shadow) hlog
  refine ⟨hdim.trans h.embedDim, ?_, ?_, ?_⟩
  · rw [hstatements]
    exact h.succeed
  · rw [hstatements, hvecs]
    exact h.rows
  · unfold Accounted
    rw [hvecs, hlog]
    exact h.accounted

theorem Logged.insertVec (h : Logged dim db) {v : VecRow F} (hrun : Store.insertVec v db = .ok ((), db')) :
    Logged dim db' := by
  have hdim : v.embedding.length = db.embedDim := by
    unfold Store.insertVec at hrun
    by_contra hne
    rw [if_pos hne] at hrun
    cases hrun
  obtain ⟨hunique, rfl⟩ := insertVec_ok hrun
  refine h.next rfl rfl (fun w hw => ?_) ?_
  · show w.rowid ∈ (db.vecs ++ [v]).map VecRow.rowid ∨ _ ∈ db.vecLog ++ [.insert v]
    rw [List.map_append, List.mem_append, List.mem_append]
    rcases List.mem_append.mp hw with hw | hw
    · exact (h.accounted w hw).imp .inl .inl
    · obtain rfl := VecStatement.insert.inj (List.mem_singleton.mp hw)
      exact .inl (.inr List.mem_cons_self)
  · have hcheck : (vecLayout F dim).check (columnsOf v) = .ok () :=
      if_neg (not_not_intro (hdim.trans h.embedDim))
    have hany : ¬ ((db.vecs.map rowOfVec).any fun row => row.1 = v.rowid) = true := by
      rw [List.any_eq_true]
      rintro ⟨row, hrow, heq⟩
      obtain ⟨v', hv', rfl⟩ := List.mem_map.mp hrow
      exact hunique v' hv' (of_decide_eq_true heq)
    unfold shadow Statement.plain
    dsimp only
    rw [hcheck]
    dsimp only
    rw [if_neg hany, List.map_append]
    rfl

theorem Logged.updateVec (h : Logged dim db) {rowid : Int} {f : VecRow F → VecRow F}
    (same : ∀ v, SameVec v (f v)) : Logged dim (db.updateVec rowid f) := by
  have hrowids : (db.updateVec rowid f).vecs.map VecRow.rowid = db.vecs.map VecRow.rowid := by
    unfold Db.updateVec
    rw [List.map_map]
    refine List.map_congr_left fun v _ => ?_
    rw [Function.comp_apply]
    split
    · exact (same v).1
    · rfl
  refine h.next rfl rfl (fun w hw => ?_) (congrArg Except.ok ?_)
  · rw [hrowids]
    rcases List.mem_append.mp hw with hw | hw
    · exact (h.accounted w hw).imp_right fun hdelete => List.mem_append_left _ hdelete
    · cases List.mem_singleton.mp hw
  · unfold Db.updateVec
    rw [List.map_map, List.map_map]
    refine List.map_congr_left fun v _ => ?_
    show (if v.rowid = rowid then _ else _) = rowOfVec (if v.rowid = rowid then f v else v)
    by_cases hid : v.rowid = rowid
    · have hcolumns : ((vecOf? v.rowid (columnsOf v)).map fun v => columnsOf (f v)).getD (columnsOf v) =
          columnsOf (f v) := by
        rw [vecOf?_columnsOf]
        rfl
      subst hid
      rw [if_pos rfl, if_pos rfl]
      exact Prod.ext (same v).1.symm hcolumns
    · rw [if_neg hid, if_neg hid]

theorem Logged.deletePhase (h : Logged dim db) {id : Int} (hrun : Store.deletePhase id db = .ok ((), db')) :
    Logged dim db' := by
  rw [deletePhase_ok hrun]
  refine h.next (s := .delete id) rfl rfl (fun w hw => ?_) (congrArg Except.ok ?_)
  · rcases List.mem_append.mp hw with hw | hw
    · rcases h.accounted w hw with hthere | hdeleted
      · by_cases hid : w.rowid = id
        · exact .inr (List.mem_append_right _ (hid ▸ List.mem_singleton_self _))
        · obtain ⟨v, hv, heq⟩ := List.mem_map.mp hthere
          refine .inl (List.mem_map.mpr ⟨v, List.mem_filter.mpr ⟨hv, ?_⟩, heq⟩)
          exact decide_eq_true (heq ▸ hid)
      · exact .inr (List.mem_append_left _ hdeleted)
    · cases List.mem_singleton.mp hw
  · rw [List.filter_map]
    rfl

/-- What one edit of a database does to the vectors, its statements do. -/
theorem Logged.edit (h : Logged dim db) (he : Edit env G db db') : Logged dim db' := by
  cases he with
  | insertRow hrow =>
    obtain ⟨_, _, rfl⟩ := insertMemoryRow_ok hrow
    exact h.same rfl rfl rfl
  | insertVersion hv =>
    obtain ⟨_, _, rfl⟩ := insertVersion_ok hv
    exact h.same rfl rfl rfl
  | insertVec _ _ hv => exact h.insertVec hv
  | retext _ _ _ hr =>
    obtain ⟨_, _, _, rfl⟩ := retext_update hr
    exact h.same rfl rfl rfl
  | bump _ _ hr =>
    obtain ⟨_, _, _, rfl⟩ := mergeSource_update hr
    exact h.same rfl rfl rfl
  | restate => exact h.same rfl rfl rfl
  | touch => exact h.same rfl rfl rfl
  | updateVec _ same => exact h.updateVec same
  | purge _ hd => exact h.deletePhase hd
  | other same => exact h.same same.embedDim same.vecs same.vecLog

/-- Every run leaves what its statements leave. -/
private theorem logged_runOps (env : Env F) (ops : List (Op F)) (agentId : String) (embedDim : Nat) :
    Logged embedDim (runOps env ops (emptyStore F agentId embedDim)).db := by
  have hrun : Ran env (.storing (fun _ => True) True) (emptyStore F agentId embedDim)
      (runOps env ops (emptyStore F agentId embedDim)) :=
    runOps_moves (stepRules_ran fun _ => trivial) (fun _ _ _ _ => trivial)
      (fun _ _ emb _ => inserts_ran (fun _ => trivial) emb) _
  exact hrun.preserves (P := Logged embedDim) (fun _ _ he h => h.edit he) ⟨rfl, nofun, rfl, nofun⟩

theorem Logged.stores (h : Logged dim db) : Stores (vecLayout F dim) (shadowTables db)
    (db.vecs.map rowOfVec) := by
  have hstores := ((stores_empty (vecLayout F dim)).run (statements db)).2
  rw [h.rows] at hstores
  unfold shadowTables
  rwa [h.embedDim]

theorem Logged.outcomes (h : Logged dim db) :
    ∀ o ∈ Vec0.outcomes (Statement.run (vecLayout F dim)) (statements db) {}, o = .ok () := by
  rw [((stores_empty (vecLayout F dim)).run (statements db)).1]
  exact h.succeed

theorem Logged.follows (h : Logged dim db) : Follows (positions db) (shadowTables db) := by
  unfold positions shadowTables
  rw [h.embedDim]
  exact follows_empty.run (stores_empty _) h.outcomes

/-- The statements of a run, executed on chunks: each succeeds, the chunks hold the vectors of the
database, whatever was inserted, recoded and purged, and a vector that was inserted and is not among them
was deleted. -/
theorem runs_chunked (env : Env F) (ops : List (Op F)) (agentId : String) (embedDim : Nat) :
    let db := (runOps env ops (emptyStore F agentId embedDim)).db
    (∀ o ∈ outcomes (Statement.run (vecLayout F embedDim)) (statements db) {}, o = .ok ()) ∧
      Intact (vecLayout F embedDim) (shadowTables db) (db.vecs.map rowOfVec) ∧
      ∀ v, .insert v ∈ db.vecLog → v.rowid ∉ db.vecs.map VecRow.rowid →
        .delete v.rowid ∈ db.vecLog ∧ read (shadowTables db) v.rowid = .ok none := by
  intro db
  have h : Logged embedDim db := logged_runOps env ops agentId embedDim
  have hintact : Intact (vecLayout F embedDim) (shadowTables db) (db.vecs.map rowOfVec) := by
    have hintact := (run_intact (vecLayout F embedDim) (statements db)).2
    rw [h.rows] at hintact
    unfold shadowTables
    rwa [h.embedDim]
  refine ⟨h.outcomes, hintact, fun v hv hgone => ⟨(h.accounted v hv).resolve_left hgone, ?_⟩⟩
  rw [hintact.read]
  have hnone : (db.vecs.map rowOfVec).find? (fun row => row.1 = v.rowid) = none := by
    rw [List.find?_eq_none]
    rintro row hrow heq
    obtain ⟨w, hw, rfl⟩ := List.mem_map.mp hrow
    exact hgone (List.mem_map.mpr ⟨w, hw, of_decide_eq_true heq⟩)
  rw [hnone]
  rfl

end

/-! ## The searches of the store -/

section

variable {env : Env F} {dim : Nat} {db : Db F}

def Near.pair (n : Near F) : Int × F := (n.rowid, n.distance)

/-- The distance that a search computes at a row. -/
def distanceTo (env : Env F) (query : List F) (c : Columns F) : F := env.distance c.embedding query

/-- The metadata constraints of a recall. -/
def vecFilters (F : Type) (filter : HardFilter) : List (Columns F → Bool) :=
  [fun c => c.tier ∈ filter.tiers.map Tier.sql, fun c => c.status ∈ filter.statuses.map Status.code,
    fun c => c.trust ∈ filter.trusts.map Trust.code]

/-- What the near duplicate query keeps of an answer: the rows whose distance is a number, by distance,
and nothing of an error. -/
def kept (answer : Except Error (List (Near F))) : List (Int × F) :=
  match answer with
  | .error _ => []
  | .ok found =>
    ((found.filter fun n => F64.le n.distance n.distance).map Near.pair).insertionSort fun a b =>
      F64.le a.2 b.2

/-- The engine that lists the nearest vectors at their positions. -/
def searching (env : Env F) (db : Db F) (engine : Engine F) : Engine F :=
  { engine with nearest := fun query vecs =>
      (rank nearer (vecs.map (cellOf (positions db) fun embedding =>
        env.distance embedding query))).map fun c => c.near.pair }

/-- What the store asks of the chunks: the near duplicates of a write, and the vector leg of a recall. -/
structure ChunkSearches (env : Env F) (db : Db F) (t : Table (Columns F)) : Prop where
  dedup : ∀ query tier, Persist.knn env db query tier =
    kept (knn (vecLayout F db.embedDim) db.embedDim (distanceTo env) query 3
      [fun c => decide (c.tier = tier)] t)
  leg : ∀ engine filter pool query, query.length = db.embedDim → query ≠ [] →
    pool ≤ SQLITE_VEC_VEC0_K_MAX →
    (∀ v ∈ db.vecs, filter.vecMetadataPredicate v = true → Number (env.distance v.embedding query)) →
    (knn (vecLayout F db.embedDim) db.embedDim (distanceTo env) query pool (vecFilters F filter)
        t).map (fun found => found.map Near.pair) =
      vecLeg (searching env db engine) db filter pool query

omit [F64 F] in
/-- The rows that pass filters on the columns, at their positions. -/
private theorem located_admitted {filters : List (Columns F → Bool)} {admits : VecRow F → Bool}
    (hfilters : ∀ v, (filters.all fun p => p (columnsOf v)) = admits v) (p : Positions) (query : List F) :
    (admitted filters (db.vecs.map rowOfVec)).map (located p (distanceTo env query)) =
      (db.vecs.filter admits).map (cellOf p fun embedding => env.distance embedding query) := by
  unfold admitted
  rw [List.filter_map, List.map_map]
  congr 1
  exact List.filter_congr fun v _ => hfilters v

theorem Logged.dedup (h : Logged dim db) (env : Env F) (query : List F) (tier : String) :
    Persist.knn env db query tier = kept (knn (vecLayout F dim) dim (distanceTo env) query 3
      [fun c => decide (c.tier = tier)] (shadowTables db)) := by
  obtain ⟨rfl⟩ : db.embedDim = dim := h.embedDim
  unfold Persist.knn
  by_cases hquery : query.length = 0 ∨ query.length ≠ db.embedDim
  · rw [if_pos hquery]
    unfold knn
    rcases hquery with hempty | hdim
    · rw [if_pos hempty]
      rfl
    · by_cases hempty : query.length = 0
      · rw [if_pos hempty]
        rfl
      · rw [if_neg hempty, if_pos hdim]
        rfl
  · obtain ⟨hempty, hdim⟩ := not_or.mp hquery
    rw [if_neg hquery, h.stores.knn_located h.follows (not_not.mp hdim) (not_not.mp hdim ▸ hempty)
      (by decide) (by decide)]
    have hfilters : ∀ v : VecRow F, ([fun c : Columns F => decide (c.tier = tier)].all
        fun p => p (columnsOf v)) = decide (v.tier.sql = tier) := fun v => Bool.and_true _
    rw [located_admitted hfilters]
    rfl

variable [F64.Ordered F]

theorem Logged.leg (h : Logged dim db) (env : Env F) (engine : Engine F) (filter : HardFilter)
    {pool : Nat} {query : List F} (hquery : query.length = dim) (hne : query ≠ [])
    (hpool : pool ≤ SQLITE_VEC_VEC0_K_MAX)
    (hnum : ∀ v ∈ db.vecs, filter.vecMetadataPredicate v = true →
      Number (env.distance v.embedding query)) :
    (knn (vecLayout F dim) dim (distanceTo env) query pool (vecFilters F filter)
        (shadowTables db)).map (fun found => found.map Near.pair) =
      vecLeg (searching env db engine) db filter pool query := by
  have hfilters : ∀ v : VecRow F, ((vecFilters F filter).all fun p => p (columnsOf v)) =
      filter.vecMetadataPredicate v := by
    intro v
    have htier : v.tier.sql ∈ filter.tiers.map Tier.sql ↔ v.tier ∈ filter.tiers :=
      List.mem_map_of_injective sql_injective_tier
    rw [Bool.eq_iff_iff]
    simp only [vecFilters, List.all_cons, List.all_nil, Bool.and_true, columnsOf,
      HardFilter.vecMetadataPredicate, Bool.and_eq_true, decide_eq_true_eq, htier, and_assoc]
  have hadmitted : ∀ row ∈ admitted (vecFilters F filter) (db.vecs.map rowOfVec),
      Number (distanceTo env query row.2) := by
    intro row hrow
    obtain ⟨hrow, hall⟩ := List.mem_filter.mp hrow
    obtain ⟨v, hv, rfl⟩ := List.mem_map.mp hrow
    exact hnum v hv ((hfilters v).symm.trans hall)
  have hdim : dim ≠ 0 := fun hzero => hne (List.length_eq_zero_iff.mp (hquery.trans hzero))
  rw [h.stores.knn_ranked h.follows hquery hdim (Int.natCast_nonneg pool) (by exact_mod_cast hpool)
    hadmitted, located_admitted hfilters]
  generalize hcells : (db.vecs.filter filter.vecMetadataPredicate).map
    (cellOf (positions db) fun embedding => env.distance embedding query) = cells
  have hlisted : (searching env db engine).nearest query (db.vecs.filter filter.vecMetadataPredicate) =
      (rank nearer cells).map fun c => c.near.pair := by
    rw [← hcells]
    rfl
  have hnumbers : (((rank nearer cells).map fun c => c.near.pair).take pool).all
      (fun hit => F64.le hit.2 hit.2) = true := by
    rw [List.all_eq_true]
    intro hit hhit
    obtain ⟨cell, hcell, rfl⟩ := List.mem_map.mp (List.mem_of_mem_take hhit)
    rw [(rank_perm nearer cells).mem_iff, ← hcells] at hcell
    obtain ⟨v, hv, rfl⟩ := List.mem_map.mp hcell
    obtain ⟨hv, hpred⟩ := List.mem_filter.mp hv
    exact hnum v hv hpred
  unfold vecLeg
  rw [if_neg (not_not_intro (hquery.trans h.embedDim.symm)), if_neg (Nat.not_lt.mpr hpool), hlisted]
  dsimp only
  rw [if_pos hnumbers, Int.toNat_natCast, ← List.map_take]
  show Except.ok ((_ : List (Near F)).map Near.pair) = _
  rw [List.map_map]
  rfl

/-- In every run the searches of the store are those over the chunks that the statements of the run
leave: equal distances are in the order of the positions that the statements gave the rows. -/
theorem runs_serve (env : Env F) (ops : List (Op F)) (agentId : String) (embedDim : Nat) :
    let db := (runOps env ops (emptyStore F agentId embedDim)).db
    ChunkSearches env db (shadowTables db) := by
  intro db
  have h : Logged embedDim db := logged_runOps env ops agentId embedDim
  constructor
  · intro query tier
    rw [h.embedDim]
    exact h.dedup env query tier
  · intro engine filter pool query hquery hne hpool hnum
    rw [h.embedDim] at hquery ⊢
    exact h.leg env engine filter hquery hne hpool hnum

/-- Three memories with texts of one length, which are equally far from any query; the first is purged. -/
def sampleOps : List (Op ℚ) :=
  [.remember sampleEmbedder ⟨"semantic", "fact", "sky", 1⟩ "v1" "user" 0 1,
    .remember sampleEmbedder ⟨"semantic", "fact", "sea", 1⟩ "v1" "user" 0 1,
    .remember sampleEmbedder ⟨"semantic", "fact", "ash", 1⟩ "v1" "web" 0 1,
    .hardPurgeMemory 1 none none]

/-- The chunks list the later one first, and so does the query for near duplicates. -/
theorem runs_serve_sample :
    let db := (runOps sampleEnv sampleOps (emptyStore ℚ "a" 1)).db
    kept (knn (vecLayout ℚ db.embedDim) db.embedDim (distanceTo sampleEnv) [3] 3
        [fun c => decide (c.tier = "semantic")] (shadowTables db)) = [(3, 0), (2, 0)] := by
  intro db
  rw [← (runs_serve sampleEnv sampleOps "a" 1).dedup [3] "semantic"]
  decide +kernel

end

end AgosMemory.Vec0
