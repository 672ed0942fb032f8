import AgosMemory.Recall.Filter
import AgosMemory.Runs.History

/-!
# Vector metadata and canonical rows

A vector row copies tier, status, trust, kind and pin of its memory. Bumps with a vector, updates,
rollbacks and pins write the copy after the row. Deprecate, restore and the bump of the path without a
vector write only the row, so the copy stays current exactly as long as they change nothing it holds.
-/

namespace AgosMemory

open Library Library.Program Store

variable {F : Type} [F64 F] {env : Env F} {G : Grant}

/-- A vector row holds the codes of a memory. -/
structure Mirrors (v : VecRow F) (m : Memory F) : Prop where
  rowid : v.rowid = m.id
  tier : v.tier = m.tier
  status : v.status = m.status.code
  trust : v.trust = m.trust.code
  kind : v.kind = m.kind
  pinned : v.pinned = m.pinned

def Mirrored (db : Db F) : Prop := ∀ v ∈ db.vecs, ∃ m ∈ db.memories, Mirrors v m

/-- Of an embedded row, a status change keeps the status and a bump without a vector the trust. -/
def sameMetadata : Watch F where
  rewrite _ _ := True
  bump m shape source :=
    shape.vec = false → m.embedStatus = .ok → trustAfterSource m.trust source = m.trust
  restate m status := m.embedStatus = .ok → status = m.status

section

variable {db db' : Db F}

omit [F64 F] in
/-- The row of a vector is marked as embedded, and the only one of its id. -/
theorem Mirrored.row (h : Mirrored db) (hdb : Wellformed env db) {v : VecRow F} (hv : v ∈ db.vecs) :
    ∃ m ∈ db.memories, Mirrors v m ∧ m.embedStatus = .ok := by
  obtain ⟨m, hm, hmirror⟩ := h v hv
  obtain ⟨m', hm', hid, hok, _⟩ := hdb.vecs v hv
  obtain rfl := List.inj_on_of_nodup_map hdb.ids hm' hm (hid.trans hmirror.rowid)
  exact ⟨m', hm, hmirror, hok⟩

omit [F64 F] in
/-- A row and its vector are updated in step. -/
theorem Mirrored.update (h : Mirrored db) (hdb : Wellformed env db) {id : Int}
    {f : Memory F → Memory F} {g : VecRow F → VecRow F}
    (hmem : db'.memories = (db.updateMemory id f).memories)
    (hvecs : db'.vecs = (db.updateVec id g).vecs)
    (hstep : ∀ m ∈ db.memories, m.id = id → m.embedStatus = .ok → ∀ v, Mirrors v m →
      Mirrors (g v) (f m)) : Mirrored db' := by
  intro v' hv'
  rw [hvecs] at hv'
  rw [hmem]
  obtain ⟨v, hv, rfl⟩ := mem_updateVec.mp hv'
  obtain ⟨m, hm, hmirror, hok⟩ := h.row hdb hv
  refine ⟨_, mem_updateMemory.mpr ⟨m, hm, rfl⟩, ?_⟩
  by_cases hid : m.id = id
  · rw [if_pos hid, if_pos (hmirror.rowid.trans hid)]
    exact hstep m hm hid hok v hmirror
  · rw [if_neg hid, if_neg (hmirror.rowid ▸ hid)]
    exact hmirror

omit [F64 F] in
private theorem updateVec_id (db : Db F) (id : Int) :
    (db.updateVec id fun v => v).vecs = db.vecs := by
  simp [Db.updateVec]

omit [F64 F] in
/-- A row is updated alone. -/
theorem Mirrored.updateMemory (h : Mirrored db) (hdb : Wellformed env db) {id : Int}
    {f : Memory F → Memory F} (hmem : db'.memories = (db.updateMemory id f).memories)
    (hvecs : db'.vecs = db.vecs) (core : ∀ m, (f m).id = m.id ∧ (f m).tier = m.tier ∧
      (f m).kind = m.kind ∧ (f m).pinned = m.pinned)
    (hstatus : ∀ m ∈ db.memories, m.id = id → m.embedStatus = .ok → (f m).status = m.status)
    (htrust : ∀ m ∈ db.memories, m.id = id → m.embedStatus = .ok → (f m).trust = m.trust) :
    Mirrored db' := by
  refine h.update hdb hmem (hvecs.trans (updateVec_id db id).symm) fun m hm hid hok v hv => ?_
  obtain ⟨hid', htier, hkind, hpinned⟩ := core m
  exact ⟨hv.rowid.trans hid'.symm, hv.tier.trans htier.symm,
    hv.status.trans (congrArg Status.code (hstatus m hm hid hok).symm),
    hv.trust.trans (congrArg Trust.code (htrust m hm hid hok).symm), hv.kind.trans hkind.symm,
    hv.pinned.trans hpinned.symm⟩

omit [F64 F] in
theorem Mirrored.subset (h : Mirrored db) (hmem : ∀ m ∈ db.memories, m ∈ db'.memories)
    (hvecs : db'.vecs = db.vecs) : Mirrored db' := by
  intro v hv
  obtain ⟨m, hm, hmirror⟩ := h v (hvecs ▸ hv)
  exact ⟨m, hmem m hm, hmirror⟩

/-- The edits that write only one of the two tables, or neither. -/
theorem Store.Edit.mirrored (he : Edit env G db db') (hretext : ∀ id, ¬ G.retext id)
    (hmirror : ¬ G.mirror) (hdb : Wellformed env db) (hclean : sameMetadata.Clean db')
    (h : Mirrored db) : Mirrored db' := by
  cases he with
  | insertRow hrow _ _ _ _ =>
    obtain ⟨_, _, rfl⟩ := insertMemoryRow_ok hrow
    exact h.subset (fun m hm => List.mem_append_left _ hm) rfl
  | insertVersion hv _ _ =>
    obtain ⟨_, _, rfl⟩ := insertVersion_ok hv
    exact h
  | insertVec hm _ hv =>
    obtain ⟨_, rfl⟩ := insertVec_ok hv
    intro v hv
    rcases List.mem_append.mp hv with hv | hv
    · exact h v hv
    · rw [List.mem_singleton.mp hv]
      exact ⟨_, hm, rfl, rfl, rfl, rfl, rfl, rfl⟩
  | retext _ hid _ _ => exact absurd hid (hretext _)
  | bump hm hshape hr =>
    obtain ⟨sk, _, rfl⟩ := mergeSource_ok hm hr
    have hvec := hshape.resolve_right hmirror
    refine h.updateMemory hdb rfl rfl (fun _ => ⟨rfl, rfl, rfl, rfl⟩) (fun _ _ _ _ => rfl)
      fun m' hm' heq hok => ?_
    have hsame := hdb.memory? hm'
    rw [heq, hm] at hsame
    obtain rfl := Option.some.inj hsame
    exact hclean.bumps _ (List.mem_append_right _ (List.mem_singleton_self _)) hvec hok
  | restate _ core hpinned =>
    refine h.updateMemory hdb rfl rfl
      (fun m => ⟨(core m).id, (core m).tier, (core m).kind, hpinned m⟩) (fun m hm heq hok => ?_)
      fun m _ _ _ => (core m).trust
    have hrow := hdb.memory? hm
    refine hclean.restated (m, _) (List.mem_append_right _ ?_) hok
    rw [heq] at hrow
    rw [hrow]
    exact List.mem_singleton_self _
  | touch core hstatus hpinned =>
    exact h.updateMemory hdb rfl rfl (fun m => ⟨(core m).id, (core m).tier, (core m).kind,
      hpinned.resolve_right hmirror m⟩) (fun m _ _ _ => hstatus m) fun m _ _ _ => (core m).trust
  | updateVec allowed _ => exact absurd allowed hmirror
  | purge _ hd =>
    rw [deletePhase_ok hd]
    intro v hv
    obtain ⟨hv, hne⟩ := List.mem_filter.mp hv
    obtain ⟨m, hm, hmir⟩ := h v hv
    exact ⟨m, List.mem_filter.mpr ⟨hm, by rw [← hmir.rowid]; exact hne⟩, hmir⟩
  | other same => exact h.subset (fun m hm => same.memories ▸ hm) same.vecs

end

/-! ## Closures that write both tables -/

/-- Everything but a rewrite of a row and a write to a vector's copy. -/
def Store.Grant.unmirrored : Grant := ⟨fun _ => True, fun _ => False, True, True, True, False⟩

/-- Everything. -/
abbrev Store.Grant.all : Grant := .storing (fun _ => True) True

/-- The relation of a fault-free run. -/
abbrev KeepsMirror (env : Env F) : Conn F → Conn F → Prop := Keeps env sameMetadata Mirrored

private theorem keepsMirror_of_edits (c c' : Conn F) (he : Edits env .unmirrored c c') :
    KeepsMirror env c c' :=
  keeps_of_edits he fun _ _ hedit hdb hclean h =>
    hedit.mirrored (fun _ => id) id hdb hclean h

section

variable (hfault : ∀ n, env.fault n = false)

include hfault

private theorem keepsMirror_bump {shape : BumpShape} {id : Int} {source : String} {now : Int} :
    Moves (KeepsMirror env) (bump env shape id source now) := by
  by_cases hvec : shape.vec = false
  · exact (moves_bump (.inl hvec)).mono keepsMirror_of_edits
  have hvec : shape.vec = true := by rwa [Bool.not_eq_false] at hvec
  unfold bump
  refine moves_bind_from (fun m (c : Conn F) => c.db.memory? id = some m)
    (moves_query.mono keepsMirror_of_edits) (fun s m t h => ?_) fun m => ?_
  · obtain ⟨hm, hdb⟩ := query_ok h
    exact hdb ▸ one_ok hm
  refine movesFrom_bind (fun _ c => c.db.memory? id = some m)
    (moves_clusterOf.mono keepsMirror_of_edits).from (fun s _ t hs h => ?_) fun cluster => ?_
  · rw [← clusterOf_db env shape id s, h] at hs
    exact hs
  have honly : ∀ m : Write F Unit, onlyIf true m = m := fun _ => rfl
  rw [hvec, honly, ← bind_assoc]
  refine movesFrom_bind (fun _ _ => True) (keeps_exec_run hfault (G := .all) ?_ ?_)
    (fun _ _ _ _ _ => trivial) fun _ =>
      ((moves_onlyIf moves_linkRefines).mono keepsMirror_of_edits).from
  · refine movesFrom_bind (fun _ _ => True)
      (movesFrom_exec fun c _ db' hc h => .bump hc (.inr trivial) h) (fun _ _ _ _ _ => trivial)
      fun _ => Moves.from (moves_updateVec trivial fun v => ⟨rfl, rfl, rfl, rfl⟩)
  · intro s _ db hm hr hdb _ h
    obtain ⟨sk, _, rfl⟩ := mergeSource_ok hm hr
    refine h.update hdb rfl rfl fun m' hm' heq _ v hv => ?_
    have hsame := hdb.memory? hm'
    rw [heq, hm] at hsame
    obtain rfl := Option.some.inj hsame
    exact ⟨hv.rowid, hv.tier, hv.status, rfl, hv.kind, hv.pinned⟩

private theorem keepsMirror_update {id : Int} {text : String}
    {source reason createdBy : Option String} :
    Moves (KeepsMirror env) (updateMemoryWithProvenance env id text source reason createdBy) := by
  unfold updateMemoryWithProvenance
  refine moves_bind (moves_query.mono keepsMirror_of_edits) fun version => ?_
  refine moves_bind ((moves_attempt moves_query).mono keepsMirror_of_edits) fun prev => ?_
  refine moves_bind (moves_nowMillis.mono keepsMirror_of_edits) fun now => ?_
  refine moves_bind ((moves_exec fun db _ db' hv =>
    .insertVersion hv (.inl trivial) rfl).mono keepsMirror_of_edits) fun _ => ?_
  refine moves_bind_from (fun m (c : Conn F) => c.db.memory? id = some m)
    (moves_query.mono keepsMirror_of_edits) (fun s m t h => ?_) fun m => ?_
  · obtain ⟨hm, hdb⟩ := query_ok h
    exact hdb ▸ one_ok hm
  dsimp only
  rw [← bind_assoc]
  refine movesFrom_bind (fun _ _ => True) (keeps_exec_run hfault (G := .all) ?_ ?_)
    (fun _ _ _ _ _ => trivial) fun _ => (moves_query.mono keepsMirror_of_edits).from
  · refine movesFrom_bind (fun _ _ => True)
      (movesFrom_exec fun c _ db' hc h => .retext hc trivial (.inl trivial) h)
      (fun _ _ _ _ _ => trivial)
      fun _ => Moves.from (moves_updateVec trivial fun v => ⟨rfl, rfl, rfl, rfl⟩)
  · intro s _ db hm hr hdb _ h
    obtain ⟨sk, _, rfl⟩ := retext_ok hm hr
    refine h.update hdb rfl rfl fun m' _ _ _ v hv => ?_
    exact ⟨hv.rowid, hv.tier, hv.status, rfl, hv.kind, hv.pinned⟩

private theorem keepsMirror_rollback {id version : Int} {createdBy : Option String} :
    Moves (KeepsMirror env) (rollbackMemory env id version createdBy) := by
  unfold rollbackMemory
  refine moves_bind (moves_query.mono keepsMirror_of_edits) fun target => ?_
  cases target with
  | none => exact moves_fail _
  | some v => exact keepsMirror_update hfault

omit hfault in
/-- The two updates of a pin, once the row is found. -/
private theorem keepsMirror_pinned {id code now : Int} {s u : Conn F}
    (hdb : u.db = (s.db.updateMemory id fun m => { m with pinned := code, updatedAt := now }).updateVec
      id fun v => { v with pinned := code }) : KeepsMirror env s u := by
  have htouch : Edit env .all s.db
      (s.db.updateMemory id fun m => { m with pinned := code, updatedAt := now }) :=
    .touch (fun m => by constructor <;> rfl) (fun _ => rfl) (.inr trivial)
  have hvec : Edit env .all (s.db.updateMemory id fun m => { m with pinned := code, updatedAt := now })
      u.db := hdb ▸ .updateVec trivial fun v => ⟨rfl, rfl, rfl, rfl⟩
  refine ⟨carries_of_edits (.tail (.single htouch) hvec), fun hwf _ h => ?_⟩
  rw [hdb]
  refine h.update hwf rfl rfl fun m _ _ _ v hv => ?_
  exact ⟨hv.rowid, hv.tier, hv.status, hv.trust, hv.kind, rfl⟩

private theorem keepsMirror_pin {id : Int} {pinned : Bool} {requester : String} :
    Moves (KeepsMirror env) (setMemoryPinned env id pinned requester) := by
  unfold setMemoryPinned
  refine moves_bind (moves_nowMillis.mono keepsMirror_of_edits) fun now => ?_
  intro s
  dsimp only
  generalize (if pinned then (1 : Int) else 0) = code
  rcases exec_noFault hfault (f := fun db : Db F => .ok ((db.memory? id).isSome,
    db.updateMemory id fun m => { m with pinned := code, updatedAt := now })) s with
    ⟨changed, t, ht, hf⟩ | ⟨e, _, _, he, _⟩
  swap
  · cases he
  obtain ⟨hchanged, ht'⟩ := Prod.mk.inj (Except.ok.inj hf)
  rw [bind_of_ok _ ht]
  cases changed with
  | false =>
    -- no row has the id, so nothing was updated
    show KeepsMirror env s t
    have htouch : Edit env .all s.db t.db := by
      rw [← ht']
      exact .touch (fun m => by constructor <;> rfl) (fun _ => rfl) (.inr trivial)
    refine ⟨carries_of_edits (.single htouch), fun hwf _ h => ?_⟩
    have hnone : s.db.memory? id = none :=
      Option.not_isSome_iff_eq_none.mp (by rw [hchanged]; decide)
    rw [← ht']
    exact h.update (g := fun v => v) hwf rfl (updateVec_id _ id).symm fun m hm heq =>
      absurd heq (memory?_eq_none.mp hnone m hm)
  | true =>
    obtain ⟨u, hu, hu'⟩ := run_noFault hfault
      (f := fun db : Db F => db.updateVec id fun v => { v with pinned := code }) t
    have hpinned : KeepsMirror env s u := keepsMirror_pinned (hu'.trans (by rw [ht']))
    have hrest : Moves (KeepsMirror env) (recordPin env id now pinned requester >>= fun _ =>
        pure true) :=
      (moves_bind moves_recordPin fun _ => moves_pure true).mono keepsMirror_of_edits
    show KeepsMirror env s ((run env _ >>= fun _ => _) t).2
    rw [bind_of_ok _ hu]
    exact IsTrans.trans _ _ _ hpinned (hrest u)

end

/-! ## Runs -/

private theorem stepRules_mirror (hfault : ∀ n, env.fault n = false) :
    StepRules env .unmirrored (KeepsMirror env) where
  edits := keepsMirror_of_edits
  redacted _ := trivial
  bump _ _ _ _ := keepsMirror_bump hfault
  update _ _ _ _ _ _ := keepsMirror_update hfault
  openAs _ _ := ⟨⟨id, .of_eq rfl rfl rfl rfl⟩, fun _ _ h => h⟩
  rollback _ _ _ := keepsMirror_rollback hfault
  pin _ _ _ := keepsMirror_pin hfault
  restate := trivial
  purge := trivial

omit [F64 F] in
/-- The canonical predicate implies its metadata subset on the codes of the row. -/
private theorem vecMetadataPredicate_of_mirrors {filter : Recall.HardFilter} {db : Db F}
    {m : Memory F}
    {v : VecRow F} (hv : Mirrors v m) (h : filter.predicate db m = true) :
    filter.vecMetadataPredicate v = true := by
  simp only [Recall.HardFilter.predicate, Bool.and_eq_true, decide_eq_true_eq] at h
  obtain ⟨⟨⟨⟨⟨⟨⟨_, htier⟩, hstatus⟩, htrust⟩, _⟩, _⟩, _⟩, _⟩ := h
  simp only [Recall.HardFilter.vecMetadataPredicate, Bool.and_eq_true, decide_eq_true_eq]
  refine ⟨⟨hv.tier ▸ htier, ?_⟩, ?_⟩
  · rw [hv.status]
    exact List.mem_map_of_mem hstatus
  · rw [hv.trust]
    exact List.mem_map_of_mem htrust

/-- In every run without storage faults: as long as each status change of an embedded row keeps its
status, and each bump of one on the path without a vector its trust, the vectors hold the codes of
their rows, and no admissible vector is excluded inside the scan. -/
theorem mirrored_of_same_metadata (env : Env F) (hfault : ∀ n, env.fault n = false)
    (ops : List (Op F)) (agentId : String) (embedDim : Nat)
    (hbumps : ∀ p ∈ (runOps env ops (emptyStore F agentId embedDim)).db.bumps,
      p.2.1.vec = false → p.1.embedStatus = .ok → trustAfterSource p.1.trust p.2.2 = p.1.trust)
    (hrestated : ∀ p ∈ (runOps env ops (emptyStore F agentId embedDim)).db.restated,
      p.1.embedStatus = .ok → p.2 = p.1.status) :
    Mirrored (runOps env ops (emptyStore F agentId embedDim)).db ∧
      ∀ filter : Recall.HardFilter, ∀ m ∈ (runOps env ops (emptyStore F agentId embedDim)).db.memories,
        ∀ v ∈ (runOps env ops (emptyStore F agentId embedDim)).db.vecs, v.rowid = m.id →
          filter.predicate (runOps env ops (emptyStore F agentId embedDim)).db m = true →
          filter.vecMetadataPredicate v = true := by
  have hrun := runOps_moves (stepRules_mirror hfault) (fun op (_ : op ∈ ops) _ _ => trivial)
    (fun _ _ emb _ => .of_edits keepsMirror_of_edits (fun _ => trivial) trivial emb)
    (emptyStore F agentId embedDim)
  have hwf := hrun.carries.wellformed (.empty embedDim)
  have hmirrored := hrun.keeps (.empty embedDim) ⟨fun _ _ => trivial, hbumps, hrestated⟩
    (List.forall_mem_nil _)
  refine ⟨hmirrored, fun filter m hm v hv hrowid hpredicate => ?_⟩
  obtain ⟨m', hm', hmirrors⟩ := hmirrored v hv
  obtain rfl := List.inj_on_of_nodup_map hwf.ids hm' hm (hmirrors.rowid.symm.trans hrowid)
  exact vecMetadataPredicate_of_mirrors hmirrors hpredicate

/-- A pin and an update from the web, after which the copies agree. -/
theorem mirrored_sample : Mirrored (runOps sampleEnv
    [.remember sampleEmbedder ⟨"semantic", "fact", "sky", 1⟩ "v1" "user" 0 (1 / 2),
      .setPinned 1 true "user", .update 1 "sea" (some "web") none none] (emptyStore ℚ "a" 1)).db := by
  have hbumps : (runOps sampleEnv
      [.remember sampleEmbedder ⟨"semantic", "fact", "sky", 1⟩ "v1" "user" 0 (1 / 2),
        .setPinned 1 true "user", .update 1 "sea" (some "web") none none]
      (emptyStore ℚ "a" 1)).db.bumps.length = 0 := by decide +kernel
  have hrestated : (runOps sampleEnv
      [.remember sampleEmbedder ⟨"semantic", "fact", "sky", 1⟩ "v1" "user" 0 (1 / 2),
        .setPinned 1 true "user", .update 1 "sea" (some "web") none none]
      (emptyStore ℚ "a" 1)).db.restated.length = 0 := by decide +kernel
  refine (mirrored_of_same_metadata sampleEnv (fun _ => rfl) _ "a" 1 ?_ ?_).1
  · rw [List.eq_nil_of_length_eq_zero hbumps]
    exact List.forall_mem_nil _
  · rw [List.eq_nil_of_length_eq_zero hrestated]
    exact List.forall_mem_nil _

/-- A pending row that was deprecated and restored is active; its vector stays pending, and a recall
of active rows skips it. -/
theorem restore_leaves_vector :
    ¬ ∀ ops : List (Op ℚ), Mirrored (runOps sampleEnv ops (emptyStore ℚ "a" 1)).db := by
  intro h
  have hmirrored := h [.remember sampleEmbedder ⟨"semantic", "fact", "sky", 0⟩ "v1" "user" (1 / 2)
    (1 / 2), .deprecateMemory 1 none, .restoreMemory 1 none]
  have hrows : (runOps sampleEnv [.remember sampleEmbedder ⟨"semantic", "fact", "sky", 0⟩ "v1"
      "user" (1 / 2) (1 / 2), .deprecateMemory 1 none, .restoreMemory 1 none]
      (emptyStore ℚ "a" 1)).db.memories.map Memory.status = [.active] := by decide +kernel
  have hvecs : (runOps sampleEnv [.remember sampleEmbedder ⟨"semantic", "fact", "sky", 0⟩ "v1"
      "user" (1 / 2) (1 / 2), .deprecateMemory 1 none, .restoreMemory 1 none]
      (emptyStore ℚ "a" 1)).db.vecs.map VecRow.status = [1] := by decide +kernel
  have hvec := List.mem_singleton_self (1 : Int)
  rw [← hvecs] at hvec
  obtain ⟨v, hv, hcode⟩ := List.mem_map.mp hvec
  obtain ⟨m, hm, hmirrors⟩ := hmirrored v hv
  have hstatus := List.mem_map_of_mem (f := Memory.status) hm
  rw [hrows, List.mem_singleton] at hstatus
  have hcopy := hmirrors.status
  rw [hcode, hstatus] at hcopy
  exact absurd hcopy (by decide)

end AgosMemory
