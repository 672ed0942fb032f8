import AgosMemory.Storage.Edits
import Mathlib.Data.List.Nodup

/-!
# Well-formed databases

What the schema's keys and the writers together guarantee of every state: ids come from one counter
and are never used twice, every vector belongs to a row of its tier and kind that is marked as
embedded, and the hash of a row is the hash of its text. Each edit keeps it.
-/

namespace AgosMemory.Store

open Library Library.Program

variable {F : Type} [F64 F]

structure Wellformed (env : Env F) (db : Db F) : Prop where
  ids : (db.memories.map Memory.id).Nodup
  idBound : ∀ m ∈ db.memories, m.id ≤ db.memorySeq
  publicIds : (db.memories.map Memory.publicId).Nodup
  versionBound : ∀ v ∈ db.versions, v.memoryId ≤ db.memorySeq
  mergedBound : ∀ p ∈ db.merged, p.1 ≤ db.memorySeq
  vecIds : (db.vecs.map VecRow.rowid).Nodup
  vecs : ∀ v ∈ db.vecs, ∃ m ∈ db.memories, m.id = v.rowid ∧ m.embedStatus = .ok ∧
    m.tier = v.tier ∧ m.kind = v.kind
  hash : ∀ m ∈ db.memories, m.textHash = env.sha256Hex m.text
  noSuccessor : ∀ m ∈ db.memories, m.supersedesId = none ∧ m.supersededById = none

/-! ## Lookups -/

omit [F64 F] in
theorem memory?_some {db : Db F} {id : Int} {m : Memory F} (h : db.memory? id = some m) :
    m ∈ db.memories ∧ m.id = id := by
  have hid := List.find?_some h
  exact ⟨List.mem_of_find?_eq_some h, of_decide_eq_true hid⟩

omit [F64 F] in
theorem memory?_eq_none {db : Db F} {id : Int} :
    db.memory? id = none ↔ ∀ m ∈ db.memories, m.id ≠ id := by
  rw [Db.memory?, List.find?_eq_none]
  exact forall₂_congr fun m _ => by rw [decide_eq_true_eq]

omit [F64 F] in
theorem memory?_of_nodup {db : Db F} (h : (db.memories.map Memory.id).Nodup) {m : Memory F}
    (hm : m ∈ db.memories) : db.memory? m.id = some m := by
  cases hfound : db.memory? m.id with
  | none => exact absurd rfl (memory?_eq_none.mp hfound m hm)
  | some m' =>
    obtain ⟨hm', hid⟩ := memory?_some hfound
    rw [List.inj_on_of_nodup_map h hm' hm hid]

omit [F64 F] in
theorem Wellformed.memory? {env : Env F} {db : Db F} (h : Wellformed env db) {m : Memory F}
    (hm : m ∈ db.memories) : db.memory? m.id = some m := memory?_of_nodup h.ids hm

/-! ## Rows after an edit -/

omit [F64 F] in
theorem mem_updateMemory {db : Db F} {id : Int} {f : Memory F → Memory F} {m' : Memory F} :
    m' ∈ (db.updateMemory id f).memories ↔
      ∃ m ∈ db.memories, m' = if m.id = id then f m else m := by
  simp only [Db.updateMemory, List.mem_map, eq_comm]

omit [F64 F] in
theorem map_updateMemory {β : Type} {g : Memory F → β} {db : Db F} {id : Int}
    {f : Memory F → Memory F} (h : ∀ m, g (f m) = g m) :
    (db.updateMemory id f).memories.map g = db.memories.map g := by
  simp only [Db.updateMemory, List.map_map]
  refine List.map_congr_left fun m _ => ?_
  simp only [Function.comp_apply]
  split
  · exact h m
  · rfl

omit [F64 F] in
theorem mem_updateVec {db : Db F} {rowid : Int} {f : VecRow F → VecRow F} {v' : VecRow F} :
    v' ∈ (db.updateVec rowid f).vecs ↔ ∃ v ∈ db.vecs, v' = if v.rowid = rowid then f v else v := by
  simp only [Db.updateVec, List.mem_map, eq_comm]

omit [F64 F] in
theorem map_updateVec {β : Type} {g : VecRow F → β} {db : Db F} {rowid : Int}
    {f : VecRow F → VecRow F} (h : ∀ v, g (f v) = g v) :
    (db.updateVec rowid f).vecs.map g = db.vecs.map g := by
  simp only [Db.updateVec, List.map_map]
  refine List.map_congr_left fun v _ => ?_
  simp only [Function.comp_apply]
  split
  · exact h v
  · rfl

omit [F64 F] in
private theorem setProvenance_ok {id : Int} {trust : Trust} {sourceKind : String}
    {incoming : Option String}
    {g : Memory F → Memory F} {db db' : Db F} {m : Memory F} (hm : db.memory? id = some m)
    (h : setProvenance id trust sourceKind incoming g db = .ok ((), db')) :
    ∃ sk, SourceKind.ofSql? sourceKind = some sk ∧
      db' = { db.updateMemory id fun m => { g m with trust, sourceKind := sk } with
        merged := db.merged ++ (incoming.map fun k => (id, k)).toList } := by
  unfold setProvenance at h
  rw [hm] at h
  simp only [Option.isNone_some, Bool.false_eq_true, if_false] at h
  split at h
  · cases h
  · next sk hsk => exact ⟨sk, hsk, (Prod.mk.inj (Except.ok.inj h)).2.symm⟩

omit [F64 F] in
theorem mergeSource_ok {shape : BumpShape} {id : Int} {trust : Trust} {sourceKind incoming : String}
    {cluster : Option String} {now : Int} {db db' : Db F} {m : Memory F}
    (hm : db.memory? id = some m)
    (h : mergeSource shape id trust sourceKind incoming cluster now db = .ok ((), db')) :
    ∃ sk, SourceKind.ofSql? sourceKind = some sk ∧
      db' = { db.updateMemory id fun m =>
          { countReference cluster now m with trust, sourceKind := sk } with
        merged := db.merged ++ [(id, incoming)]
        bumps := db.bumps ++ [(m, shape, incoming)] } := by
  unfold mergeSource at h
  simp only [bind, Except.bind, pure, Except.pure] at h
  split at h
  · cases h
  · next u hu =>
    obtain ⟨sk, hsk, hdb⟩ := setProvenance_ok hm hu
    refine ⟨sk, hsk, ?_⟩
    obtain ⟨_, rfl⟩ := Prod.mk.inj (Except.ok.inj h)
    rw [hdb, hm]
    rfl

omit [F64 F] in
private theorem onlyIf_ok {b : Bool} {m : Write F Unit} {s t : Conn F}
    (h : onlyIf b m s = (.ok (), t)) :
    m s = (.ok (), t) ∨ s = t := by
  unfold onlyIf at h
  split at h
  · exact .inl h
  · exact .inr (pure_ok h).2

omit [F64 F] in
theorem memories_of_linkRefines {id now : Int} {db db' : Db F}
    (h : linkRefines id now db = .ok ((), db')) : db'.memories = db.memories := by
  obtain ⟨links, rfl⟩ := linkRefines_ok h
  rfl

omit [F64 F] in
/-- The row that a successful bump leaves. -/
theorem bump_ok {env : Env F} {shape : BumpShape} {id : Int} {source : String} {now : Int}
    {s t : Conn F} (h : bump env shape id source now s = (.ok (), t)) :
    ∃ m sk cluster, s.db.memory? id = some m ∧
      t.db.memories = (s.db.updateMemory id fun m' => { countReference cluster now m' with
        trust := trustAfterSource m.trust source, sourceKind := sk }).memories := by
  unfold bump at h
  obtain ⟨m, s₁, hm, h⟩ := bind_ok h
  obtain ⟨hfound, hs₁⟩ := query_ok hm
  have hfound := one_ok hfound
  obtain ⟨cluster, s₂, hcluster, h⟩ := bind_ok h
  have hs₂ : s₂.db = s₁.db := by rw [← clusterOf_db env shape id s₁, hcluster]
  obtain ⟨_, s₃, hmerge, h⟩ := bind_ok h
  obtain ⟨_, s₄, hvec, h⟩ := bind_ok h
  have hmerged := exec_ok hmerge
  rw [hs₂, hs₁] at hmerged
  obtain ⟨sk, _, hs₃⟩ := mergeSource_ok hfound hmerged
  refine ⟨m, sk, cluster, hfound, ?_⟩
  have hs₄ : s₄.db.memories = s₃.db.memories := by
    rcases onlyIf_ok hvec with hrun | rfl
    · rw [← (Prod.mk.inj (Except.ok.inj (exec_ok hrun))).2]
      rfl
    · rfl
  have ht : t.db.memories = s₄.db.memories := by
    rcases onlyIf_ok h with hlink | rfl
    · exact memories_of_linkRefines (exec_ok hlink)
    · rfl
  rw [ht, hs₄, hs₃]

omit [F64 F] in
theorem retext_ok {id : Int} {text textHash : String} {trust : Trust} {sourceKind : String}
    {incoming : Option String} {now : Int} {db db' : Db F} {m : Memory F}
    (hm : db.memory? id = some m)
    (h : retext id text textHash trust sourceKind incoming now db = .ok ((), db')) :
    ∃ sk, SourceKind.ofSql? sourceKind = some sk ∧
      db' = { db.updateMemory id fun m =>
          { m with text, textHash, updatedAt := now, trust, sourceKind := sk } with
        merged := db.merged ++ (incoming.map fun k => (id, k)).toList
        rewrites := db.rewrites ++ [(m, text)] } := by
  unfold retext at h
  simp only [bind, Except.bind, pure, Except.pure] at h
  split at h
  · cases h
  · next u hu =>
    obtain ⟨sk, hsk, hdb⟩ := setProvenance_ok hm hu
    refine ⟨sk, hsk, ?_⟩
    obtain ⟨_, rfl⟩ := Prod.mk.inj (Except.ok.inj h)
    rw [hdb, hm]
    rfl

/-- What a successful update did: a version more, and the row with its text. -/
structure Updated (env : Env F) (id : Int) (text : String) (source : Option String)
    (db db' : Db F) (m : Memory F) (v : MemoryVersion) : Prop where
  found : db.memory? id = some m
  memoryId : v.memoryId = id
  version : v.version = maxVersion db id + 1
  supersedes : v.supersedesVersion =
    if 0 < maxVersion db id then some (maxVersion db id) else none
  versionText : v.text = text
  versionHash : v.textHash = env.sha256Hex text
  versions : db'.versions = db.versions ++ [v]
  memorySeq : db'.memorySeq = db.memorySeq
  memories : ∃ sk now, SourceKind.ofSql? (mergedKind m source) = some sk ∧
    db'.memories = (db.updateMemory id fun m' => { m' with
      text, textHash := env.sha256Hex text, updatedAt := now, trust := mergedTrust m source
      sourceKind := sk }).memories

omit [F64 F] in
theorem update_ok {env : Env F} {id : Int} {text : String}
    {source reason createdBy : Option String} {s t : Conn F} {row : MemoryRow}
    (h : updateMemoryWithProvenance env id text source reason createdBy s = (.ok row, t)) :
    ∃ m v, Updated env id text source s.db t.db m v := by
  unfold updateMemoryWithProvenance at h
  obtain ⟨current, s₁, hcurrent, h⟩ := bind_ok h
  obtain ⟨hmax, hs₁⟩ := query_ok hcurrent
  obtain rfl := Except.ok.inj hmax
  obtain ⟨prev, s₂, hprev, h⟩ := bind_ok h
  have hs₂ := attempt_query_ok hprev
  obtain ⟨now, s₃, hnow, h⟩ := bind_ok h
  obtain ⟨_, rfl⟩ := Prod.mk.inj hnow
  obtain ⟨_, s₄, hversion, h⟩ := bind_ok h
  obtain ⟨_, _, hs₄⟩ := insertVersion_ok (exec_ok hversion)
  obtain ⟨m, s₅, hm, h⟩ := bind_ok h
  obtain ⟨hfound, hs₅⟩ := query_ok hm
  have hfound := one_ok hfound
  obtain ⟨_, s₆, hretext, h⟩ := bind_ok h
  obtain ⟨sk, hsk, hs₆⟩ := retext_ok (hs₅ ▸ hfound) (exec_ok hretext)
  obtain ⟨_, s₇, hvec, h⟩ := bind_ok h
  have hs₇ := (Prod.mk.inj (Except.ok.inj (exec_ok hvec))).2
  obtain ⟨_, ht⟩ := query_ok h
  have hbase : s₂.db = s.db := hs₂.trans hs₁
  dsimp only at hs₄
  rw [hbase] at hs₄
  rw [ht, ← hs₇, hs₆, hs₅, hs₄]
  rw [hs₄] at hfound
  exact ⟨m, _, hfound, rfl, rfl, rfl, rfl, rfl, rfl, rfl, sk, now, hsk, rfl⟩

omit [F64 F] in
theorem deletePhase_ok {id : Int} {db db' : Db F} (h : deletePhase id db = .ok ((), db')) :
    db' = { db with
      links := db.links.filter fun l => ¬ (l.fromMemoryId = id ∨ l.toMemoryId = id)
      versions := db.versions.filter fun v => v.memoryId ≠ id
      recallItems := db.recallItems.filter fun r => r.memoryId ≠ id
      pins := db.pins.filter fun p => p.memoryId ≠ id
      vecs := db.vecs.filter fun v => v.rowid ≠ id
      vecLog := db.vecLog ++ [.delete id]
      memories := db.memories.filter fun m => m.id ≠ id } := by
  unfold deletePhase at h
  split at h
  · cases h
  · exact (Prod.mk.inj (Except.ok.inj h)).2.symm

/-! ## Every edit keeps a database well-formed -/

section

variable {env : Env F} {G : Grant} {db db' : Db F}

omit [F64 F] in
theorem Wellformed.empty (embedDim : Nat) : Wellformed env { embedDim } := by
  constructor <;> simp

/-- An update that keeps the keys of a row, and its hash in step with its text. -/
structure KeepsKeys (env : Env F) (f : Memory F → Memory F) : Prop where
  id : ∀ m, (f m).id = m.id
  publicId : ∀ m, (f m).publicId = m.publicId
  tier : ∀ m, (f m).tier = m.tier
  kind : ∀ m, (f m).kind = m.kind
  embedStatus : ∀ m, (f m).embedStatus = m.embedStatus
  hash : ∀ m, m.textHash = env.sha256Hex m.text → (f m).textHash = env.sha256Hex (f m).text
  supersedesId : ∀ m, (f m).supersedesId = m.supersedesId
  supersededById : ∀ m, (f m).supersededById = m.supersededById

omit [F64 F] in
theorem Wellformed.updateMemory (h : Wellformed env db) {id : Int} {f : Memory F → Memory F}
    (hf : KeepsKeys env f) : Wellformed env (db.updateMemory id f) where
  ids := by rw [map_updateMemory hf.id]; exact h.ids
  publicIds := by rw [map_updateMemory hf.publicId]; exact h.publicIds
  versionBound := h.versionBound
  mergedBound := h.mergedBound
  vecIds := h.vecIds
  idBound := by
    intro m' hm'
    obtain ⟨m, hm, rfl⟩ := mem_updateMemory.mp hm'
    split
    · rw [hf.id]; exact h.idBound m hm
    · exact h.idBound m hm
  vecs := by
    intro v hv
    obtain ⟨m, hm, hrow, hkeys⟩ := h.vecs v hv
    refine ⟨_, mem_updateMemory.mpr ⟨m, hm, rfl⟩, ?_⟩
    split
    · rw [hf.id, hf.embedStatus, hf.tier, hf.kind]; exact ⟨hrow, hkeys⟩
    · exact ⟨hrow, hkeys⟩
  hash := by
    intro m' hm'
    obtain ⟨m, hm, rfl⟩ := mem_updateMemory.mp hm'
    split
    · exact hf.hash m (h.hash m hm)
    · exact h.hash m hm
  noSuccessor := by
    intro m' hm'
    obtain ⟨m, hm, rfl⟩ := mem_updateMemory.mp hm'
    split
    · rw [hf.supersedesId, hf.supersededById]; exact h.noSuccessor m hm
    · exact h.noSuccessor m hm

omit [F64 F] in
/-- A change to the ledgers of a well-formed database. -/
theorem Wellformed.congr (h : Wellformed env db) (hm : db'.memories = db.memories)
    (hseq : db'.memorySeq = db.memorySeq) (hversions : db'.versions = db.versions)
    (hvecs : db'.vecs = db.vecs) (hmerged : ∀ p ∈ db'.merged, p.1 ≤ db.memorySeq) :
    Wellformed env db' where
  ids := hm ▸ h.ids
  idBound := by rw [hm, hseq]; exact h.idBound
  publicIds := hm ▸ h.publicIds
  versionBound := by rw [hversions, hseq]; exact h.versionBound
  mergedBound := by rw [hseq]; exact hmerged
  vecIds := hvecs ▸ h.vecIds
  vecs := by rw [hm, hvecs]; exact h.vecs
  hash := hm ▸ h.hash
  noSuccessor := hm ▸ h.noSuccessor

omit [F64 F] in
theorem Wellformed.merge (h : Wellformed env db) {id : Int} {m : Memory F}
    (hm : db.memory? id = some m) (incoming : Option String) :
    ∀ p ∈ db.merged ++ (incoming.map fun k => (id, k)).toList, p.1 ≤ db.memorySeq := by
  intro p hp
  rcases List.mem_append.mp hp with hp | hp
  · exact h.mergedBound p hp
  · obtain ⟨k, _, rfl⟩ := Option.map_eq_some_iff.mp (Option.mem_toList.mp hp)
    obtain ⟨hmem, rfl⟩ := memory?_some hm
    exact h.idBound m hmem

theorem Wellformed.insertRow (h : Wellformed env db) {r : NewRow F} {m : Memory F}
    (hrow : insertMemoryRow r db = .ok (m, db')) (hash : r.textHash = env.sha256Hex r.text) :
    Wellformed env db' := by
  obtain ⟨hbuilt, hunique, rfl⟩ := insertMemoryRow_ok hrow
  have hid : m.id = db.memorySeq + 1 := hbuilt.id
  have hseq : ∀ i : Int, i ≤ db.memorySeq → i ≤ m.id := fun i hi => by omega
  exact {
    ids := by
      rw [List.map_append, List.map_singleton, List.nodup_append]
      refine ⟨h.ids, List.nodup_singleton _, fun i hi j hj => ?_⟩
      obtain ⟨m', hm', rfl⟩ := List.mem_map.mp hi
      have := h.idBound m' hm'
      rw [List.mem_singleton.mp hj]
      omega
    idBound := by
      intro m' hm'
      rcases List.mem_append.mp hm' with hm' | hm'
      · exact hseq _ (h.idBound m' hm')
      · rw [List.mem_singleton.mp hm']
    publicIds := by
      rw [List.map_append, List.map_singleton, List.nodup_append]
      refine ⟨h.publicIds, List.nodup_singleton _, fun p hp q hq => ?_⟩
      obtain ⟨m', hm', rfl⟩ := List.mem_map.mp hp
      rw [List.mem_singleton.mp hq]
      exact hunique m' hm'
    versionBound := fun v hv => hseq _ (h.versionBound v hv)
    mergedBound := by
      intro p hp
      rcases List.mem_append.mp hp with hp | hp
      · exact hseq _ (h.mergedBound p hp)
      · rw [List.mem_singleton.mp hp]
    vecIds := h.vecIds
    vecs := by
      intro v hv
      obtain ⟨m', hm', hkeys⟩ := h.vecs v hv
      exact ⟨m', List.mem_append_left _ hm', hkeys⟩
    hash := by
      intro m' hm'
      rcases List.mem_append.mp hm' with hm' | hm'
      · exact h.hash m' hm'
      · rw [List.mem_singleton.mp hm', hbuilt.textHash, hbuilt.text, hash]
    noSuccessor := by
      intro m' hm'
      rcases List.mem_append.mp hm' with hm' | hm'
      · exact h.noSuccessor m' hm'
      · rw [List.mem_singleton.mp hm']
        exact ⟨hbuilt.supersedesId, hbuilt.supersededById⟩ }

omit [F64 F] in
theorem Wellformed.insertVec (h : Wellformed env db) {m : Memory F} (hm : m ∈ db.memories)
    (hok : m.embedStatus = .ok) {v : VecRow F} (hid : v.rowid = m.id) (htier : v.tier = m.tier)
    (hkind : v.kind = m.kind) (hv : insertVec v db = .ok ((), db')) : Wellformed env db' := by
  obtain ⟨hunique, rfl⟩ := insertVec_ok hv
  exact {
    h with
    vecIds := by
      rw [List.map_append, List.map_singleton, List.nodup_append]
      refine ⟨h.vecIds, List.nodup_singleton _, fun i hi j hj => ?_⟩
      obtain ⟨v', hv', rfl⟩ := List.mem_map.mp hi
      rw [List.mem_singleton.mp hj]
      exact hunique v' hv'
    vecs := by
      intro v' hv'
      rcases List.mem_append.mp hv' with hv' | hv'
      · exact h.vecs v' hv'
      · rw [List.mem_singleton.mp hv']
        exact ⟨m, hm, hid.symm, hok, htier.symm, hkind.symm⟩ }

omit [F64 F] in
theorem Wellformed.purge (h : Wellformed env db) {id : Int}
    (hdelete : deletePhase id db = .ok ((), db')) : Wellformed env db' := by
  rw [deletePhase_ok hdelete]
  exact {
    ids := h.ids.sublist (List.filter_sublist.map _)
    idBound := fun m hm => h.idBound m (List.mem_filter.mp hm).1
    publicIds := h.publicIds.sublist (List.filter_sublist.map _)
    versionBound := fun v hv => h.versionBound v (List.mem_filter.mp hv).1
    mergedBound := h.mergedBound
    vecIds := h.vecIds.sublist (List.filter_sublist.map _)
    vecs := by
      intro v hv
      obtain ⟨hv, hne⟩ := List.mem_filter.mp hv
      obtain ⟨m, hm, hid, hkeys⟩ := h.vecs v hv
      exact ⟨m, List.mem_filter.mpr ⟨hm, by rw [hid]; exact hne⟩, hid, hkeys⟩
    hash := fun m hm => h.hash m (List.mem_filter.mp hm).1
    noSuccessor := fun m hm => h.noSuccessor m (List.mem_filter.mp hm).1 }

omit [F64 F] in
theorem Wellformed.insertVersion (h : Wellformed env db) {v : MemoryVersion}
    (hv : insertVersion v db = .ok ((), db')) : Wellformed env db' := by
  obtain ⟨⟨m, hm⟩, _, rfl⟩ := insertVersion_ok hv
  obtain ⟨hmem, hid⟩ := memory?_some hm
  refine { h with versionBound := fun v' hv' => ?_ }
  rcases List.mem_append.mp hv' with hv' | hv'
  · exact h.versionBound v' hv'
  · rw [List.mem_singleton.mp hv', ← hid]
    exact h.idBound m hmem

omit [F64 F] in
theorem Wellformed.updateVec (h : Wellformed env db) {rowid : Int} {f : VecRow F → VecRow F}
    (same : ∀ v, SameVec v (f v)) : Wellformed env (db.updateVec rowid f) := by
  refine { h with vecIds := ?_, vecs := fun v' hv' => ?_ }
  · rw [map_updateVec fun v => (same v).rowid]
    exact h.vecIds
  · obtain ⟨v, hv, rfl⟩ := mem_updateVec.mp hv'
    split
    · rw [(same v).rowid, (same v).tier, (same v).kind]; exact h.vecs v hv
    · exact h.vecs v hv

omit [F64 F] in
private theorem keepsKeys_retext {text : String} {trust : Trust} {sk : SourceKind} {now : Int} :
    KeepsKeys env fun m : Memory F =>
      { m with text, textHash := env.sha256Hex text, updatedAt := now, trust, sourceKind := sk } := by
  constructor <;> intros <;> rfl

omit [F64 F] in
private theorem keepsKeys_bump {cluster : Option String} {now : Int} {trust : Trust}
    {sk : SourceKind} :
    KeepsKeys env fun m : Memory F =>
      { countReference cluster now m with trust, sourceKind := sk } := by
  constructor
  case hash => exact fun m hm => hm
  all_goals intros; rfl

omit [F64 F] in
private theorem keepsKeys_touch {f : Memory F → Memory F} (core : ∀ m, SameCore m (f m)) :
    KeepsKeys env f where
  id m := (core m).id
  publicId m := (core m).publicId
  tier m := (core m).tier
  kind m := (core m).kind
  embedStatus m := (core m).embedStatus
  hash m hm := by rw [(core m).textHash, (core m).text, hm]
  supersedesId m := (core m).supersedesId
  supersededById m := (core m).supersededById

omit [F64 F] in
private theorem keepsKeys_restate {f : Memory F → Memory F} {status : Status}
    (core : ∀ m, SameCore m (f m)) : KeepsKeys env fun m => { f m with status } where
  id m := (core m).id
  publicId m := (core m).publicId
  tier m := (core m).tier
  kind m := (core m).kind
  embedStatus m := (core m).embedStatus
  hash m hm := by
    show (f m).textHash = env.sha256Hex (f m).text
    rw [(core m).textHash, (core m).text, hm]
  supersedesId m := (core m).supersedesId
  supersededById m := (core m).supersededById

theorem Edit.wellformed (he : Edit env G db db') (h : Wellformed env db) : Wellformed env db' := by
  cases he with
  | insertRow hrow _ hash => exact h.insertRow hrow hash
  | insertVersion hv => exact h.insertVersion hv
  | insertVec hm hok hv => exact h.insertVec hm hok rfl rfl rfl hv
  | retext hm _ _ hr =>
    obtain ⟨sk, _, rfl⟩ := retext_ok hm hr
    exact (h.updateMemory keepsKeys_retext).congr rfl rfl rfl rfl (h.merge hm _)
  | bump hm _ hr =>
    obtain ⟨sk, _, rfl⟩ := mergeSource_ok hm hr
    exact (h.updateMemory keepsKeys_bump).congr rfl rfl rfl rfl (h.merge hm (some _))
  | restate _ core _ =>
    exact (h.updateMemory (keepsKeys_restate core)).congr rfl rfl rfl rfl h.mergedBound
  | touch core _ _ => exact h.updateMemory (keepsKeys_touch core)
  | updateVec _ same => exact h.updateVec same
  | purge _ hd => exact h.purge hd
  | other same =>
    exact h.congr same.memories same.memorySeq same.versions same.vecs
      (same.merged ▸ h.mergedBound)

end

end AgosMemory.Store
