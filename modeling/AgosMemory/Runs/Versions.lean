import AgosMemory.Runs.Clients

/-!
# Version chains

Four writers append versions, each under the largest number of its memory plus one. A closure that
takes effect as a whole turns chained databases into chained ones, so the chain holds at every
interleaving of the operations; a rollback relies on nothing but that versions are never changed.
-/

namespace AgosMemory.Versions

open Library Store
open Library.Client (Within Keeps)
open Library.Program (Moves Yields moves_bind yields_bind)

variable {F : Type} [F64 F]

/-- The versions of a memory, in the order in which they were written. -/
def versionsOf (db : Db F) (id : Int) : List MemoryVersion :=
  db.versions.filter fun v => v.memoryId = id

/-- The versions `vs` of a memory are 1 to n, each supersedes the one before it, and the last one is
the memory's text. -/
structure Chain (env : Env F) (m : Memory F) (vs : List MemoryVersion) : Prop where
  numbered : vs.map MemoryVersion.version = (List.range vs.length).map fun i : Nat => (i : Int) + 1
  supersedes : vs.map MemoryVersion.supersedesVersion =
    (List.range vs.length).map fun i : Nat => if i = 0 then none else some (i : Int)
  hashed : ∀ v ∈ vs, v.textHash = env.sha256Hex v.text
  head : ∃ v, vs.getLast? = some v ∧ v.text = m.text ∧ v.textHash = m.textHash

structure Chained (env : Env F) (db : Db F) : Prop where
  ids : (db.memories.map Memory.id).Nodup
  idBound : ∀ m ∈ db.memories, m.id ≤ db.memorySeq
  owned : ∀ v ∈ db.versions, ∃ m ∈ db.memories, m.id = v.memoryId
  chain : ∀ m ∈ db.memories, Chain env m (versionsOf db m.id)

/-- A version stays as it is until a purge removes it, and the id of its memory is not used again. -/
structure Kept (P : Int → Prop) (db db' : Db F) : Prop where
  seq : db.memorySeq ≤ db'.memorySeq
  old : ∀ v ∈ db.versions, v.memoryId ≤ db.memorySeq →
    v ∈ db'.versions ∨ P v.memoryId ∧ ∀ v' ∈ db'.versions, v'.memoryId ≠ v.memoryId
  fresh : ∀ v' ∈ db'.versions,
    (∃ v ∈ db.versions, v.memoryId = v'.memoryId) ∨ db.memorySeq < v'.memoryId

variable {P : Int → Prop} {env : Env F}

section

omit [F64 F]

instance : Std.Refl (Kept (F := F) P) where
  refl _ := ⟨Int.le_refl _, fun _ hv _ => .inl hv, fun v' hv' => .inl ⟨v', hv', rfl⟩⟩

instance : IsTrans (Db F) (Kept P) where
  trans a b c hab hbc := by
    refine ⟨Int.le_trans hab.seq hbc.seq, fun v hv hbound => ?_, fun v'' hv'' => ?_⟩
    · rcases hab.old v hv hbound with hkept | ⟨hP, hgone⟩
      · exact hbc.old v hkept (Int.le_trans hbound hab.seq)
      · refine .inr ⟨hP, fun v'' hv'' heq => ?_⟩
        rcases hbc.fresh v'' hv'' with ⟨v', hv', heq'⟩ | hnew
        · exact hgone v' hv' (heq'.trans heq)
        · have := hab.seq
          omega
    · rcases hbc.fresh v'' hv'' with ⟨v', hv', heq⟩ | hnew
      · rw [← heq]
        exact hab.fresh v' hv'
      · have := hab.seq
        exact .inr (by omega)

theorem Chained.bound {db : Db F} (h : Chained env db) :
    ∀ v ∈ db.versions, v.memoryId ≤ db.memorySeq := by
  intro v hv
  obtain ⟨m, hm, heq⟩ := h.owned v hv
  rw [← heq]
  exact h.idBound m hm

private theorem mem_versionsOf {db : Db F} {id : Int} {v : MemoryVersion} :
    v ∈ versionsOf db id ↔ v ∈ db.versions ∧ v.memoryId = id := by
  rw [versionsOf, List.mem_filter, decide_eq_true_eq]

/-! ## Chains -/

theorem Chain.maxVersion {m : Memory F} {db : Db F} {id : Int}
    (h : Chain env m (versionsOf db id)) : maxVersion db id = (versionsOf db id).length := by
  unfold Store.maxVersion
  show ((versionsOf db id).map MemoryVersion.version).max?.getD 0 = _
  rw [h.numbered, max?_range]

/-- One version more. -/
theorem Chain.append {m m' : Memory F} {vs : List MemoryVersion} {v : MemoryVersion}
    (h : Chain env m vs) (hversion : v.version = (vs.length : Int) + 1)
    (hsupersedes : v.supersedesVersion = some (vs.length : Int))
    (hash : v.textHash = env.sha256Hex v.text) (htext : m'.text = v.text)
    (htextHash : m'.textHash = v.textHash) : Chain env m' (vs ++ [v]) where
  numbered := by
    rw [List.map_append, h.numbered, List.length_append, List.length_singleton, List.range_succ,
      List.map_append, List.map_singleton, List.map_singleton, hversion]
  supersedes := by
    have hne : vs.length ≠ 0 := by
      obtain ⟨last, hlast, _⟩ := h.head
      intro hnil
      rw [List.length_eq_zero_iff.mp hnil] at hlast
      cases hlast
    rw [List.map_append, h.supersedes, List.length_append, List.length_singleton, List.range_succ,
      List.map_append, List.map_singleton, List.map_singleton, hsupersedes, if_neg hne]
  hashed := by
    intro v' hv'
    rcases List.mem_append.mp hv' with hv' | hv'
    · exact h.hashed v' hv'
    · rw [List.mem_singleton.mp hv', hash]
  head := ⟨v, List.getLast?_concat, htext.symm, htextHash.symm⟩

theorem Chain.single {m : Memory F} {v : MemoryVersion} (hversion : v.version = 1)
    (hsupersedes : v.supersedesVersion = none) (hash : v.textHash = env.sha256Hex v.text)
    (htext : m.text = v.text) (htextHash : m.textHash = v.textHash) : Chain env m [v] where
  numbered := by
    rw [List.map_singleton, hversion]
    rfl
  supersedes := by
    rw [List.map_singleton, hsupersedes]
    rfl
  hashed v' hv' := by rw [List.mem_singleton.mp hv', hash]
  head := ⟨v, rfl, htext.symm, htextHash.symm⟩

/-- The chain of a memory whose other columns changed. -/
theorem Chain.congr {m m' : Memory F} {vs : List MemoryVersion} (h : Chain env m vs)
    (htext : m'.text = m.text) (htextHash : m'.textHash = m.textHash) : Chain env m' vs := by
  obtain ⟨v, hv, hvtext, hvhash⟩ := h.head
  exact { h with head := ⟨v, hv, hvtext.trans htext.symm, hvhash.trans htextHash.symm⟩ }

end

/-! ## Closures that add no version -/

/-- What the chain of a memory reads of its row. -/
def key (m : Memory F) : Int × String × String := (m.id, m.text, m.textHash)

structure SameTexts (db db' : Db F) : Prop where
  versions : db'.versions = db.versions
  memorySeq : db'.memorySeq = db.memorySeq
  memories : db'.memories.map key = db.memories.map key

/-- A step of the database that keeps the chains. -/
abbrev Step (env : Env F) (P : Int → Prop) : Conn F → Conn F → Prop := Inside (Chained env) (Kept P)

section

omit [F64 F]

instance : Std.Refl (SameTexts (F := F)) where
  refl _ := ⟨rfl, rfl, rfl⟩

instance : IsTrans (Db F) SameTexts where
  trans _ _ _ hab hbc := ⟨hbc.versions.trans hab.versions, hbc.memorySeq.trans hab.memorySeq,
    hbc.memories.trans hab.memories⟩

theorem SameTexts.of_memories {db db' : Db F} (hversions : db'.versions = db.versions)
    (hseq : db'.memorySeq = db.memorySeq) (hmemories : db'.memories = db.memories) :
    SameTexts db db' := ⟨hversions, hseq, by rw [hmemories]⟩

private theorem sameTexts_updateMemory {db db' : Db F} {id : Int} {f : Memory F → Memory F}
    (hkey : ∀ m, key (f m) = key m) (hversions : db'.versions = db.versions)
    (hseq : db'.memorySeq = db.memorySeq)
    (hmemories : db'.memories = (db.updateMemory id f).memories) : SameTexts db db' :=
  ⟨hversions, hseq, by rw [hmemories, map_updateMemory hkey]⟩

theorem SameTexts.kept {db db' : Db F} (h : SameTexts db db') : Kept P db db' where
  seq := Int.le_of_eq h.memorySeq.symm
  old _ hv _ := .inl (h.versions ▸ hv)
  fresh v' hv' := .inl ⟨v', h.versions ▸ hv', rfl⟩

theorem SameTexts.mem {db db' : Db F} (h : SameTexts db db') {m' : Memory F}
    (hm' : m' ∈ db'.memories) : ∃ m ∈ db.memories, key m = key m' := by
  have hmem : key m' ∈ db.memories.map key := h.memories ▸ List.mem_map_of_mem hm'
  exact List.mem_map.mp hmem

theorem SameTexts.chained {db db' : Db F} (h : SameTexts db db') (hdb : Chained env db) :
    Chained env db' where
  ids := by
    have hids : ∀ ms : List (Memory F), ms.map Memory.id = (ms.map key).map Prod.fst := fun ms => by
      rw [List.map_map]
      rfl
    rw [hids, h.memories, ← hids]
    exact hdb.ids
  idBound m' hm' := by
    obtain ⟨m, hm, heq⟩ := h.mem hm'
    rw [h.memorySeq, ← (Prod.mk.inj heq).1]
    exact hdb.idBound m hm
  owned v hv := by
    obtain ⟨m, hm, heq⟩ := hdb.owned v (h.versions ▸ hv)
    have hmem : key m ∈ db'.memories.map key := h.memories ▸ List.mem_map_of_mem hm
    obtain ⟨m', hm', hkey⟩ := List.mem_map.mp hmem
    exact ⟨m', hm', (Prod.mk.inj hkey).1.trans heq⟩
  chain m' hm' := by
    obtain ⟨m, hm, heq⟩ := h.mem hm'
    obtain ⟨hid, hrest⟩ := Prod.mk.inj heq
    obtain ⟨htext, hhash⟩ := Prod.mk.inj hrest
    have hsame : versionsOf db' m'.id = versionsOf db m.id := by
      rw [versionsOf, versionsOf, h.versions, hid]
    rw [hsame]
    exact (hdb.chain m hm).congr htext.symm hhash.symm

private theorem step_of_sameTexts {α : Type} {m : Write F α} (h : Moves (OnDb SameTexts) m) :
    Moves (Step env P) m := fun s hs => ⟨(h s).chained hs, (h s).kept⟩

private theorem sameTexts_bump {shape : BumpShape} {id now : Int} {source : String} :
    Moves (OnDb SameTexts) (bump env shape id source now) := by
  refine onDb_bump (fun _ _ _ _ _ h => ?_) (fun _ _ => .of_memories rfl rfl rfl)
    fun _ _ h => ?_
  · obtain ⟨sk, merged, bumps, rfl⟩ := mergeSource_update h
    exact sameTexts_updateMemory (by exact fun _ => rfl) rfl rfl rfl
  · obtain ⟨links, rfl⟩ := linkRefines_ok h
    exact .of_memories rfl rfl rfl

private theorem sameTexts_touch {id : Int} {f : Memory F → Memory F} (hkey : ∀ m, key (f m) = key m) :
    Moves (OnDb SameTexts) (run env fun db => db.updateMemory id f) :=
  onDb_run fun _ => sameTexts_updateMemory hkey rfl rfl rfl

private theorem sameTexts_setSourceRef {id : Int} {sourceRef : String} :
    Moves (OnDb SameTexts) (setSourceRef env id sourceRef) := by
  unfold setSourceRef
  split
  · exact Program.moves_fail _
  · exact moves_bind onDb_nowMillis fun now => sameTexts_touch fun _ => rfl

private theorem sameTexts_setSummary {id : Int} {summary : String} {tokens : Int} :
    Moves (OnDb SameTexts) (setSummary env id summary tokens) := by
  refine moves_bind onDb_nowMillis fun now => sameTexts_touch ?_
  exact fun _ => rfl

private theorem sameTexts_setDedupCluster {id : Int} {clusterId : String} :
    Moves (OnDb SameTexts) (setDedupCluster env id clusterId) := by
  refine moves_bind onDb_nowMillis fun now => sameTexts_touch ?_
  exact fun _ => rfl

private theorem sameTexts_bumpRefCount {id : Int} :
    Moves (OnDb SameTexts) (bumpRefCount env id) := by
  refine moves_bind onDb_nowMillis fun now => sameTexts_touch ?_
  exact fun _ => rfl

private theorem sameTexts_setMemoryPinned {id : Int} {pinned : Bool} {requester : String} :
    Moves (OnDb SameTexts) (setMemoryPinned env id pinned requester) := by
  refine onDb_setMemoryPinned (fun db code now => ?_) (fun _ _ => .of_memories rfl rfl rfl)
    fun _ _ _ => .of_memories rfl rfl rfl
  exact sameTexts_updateMemory (f := fun m => { m with pinned := code, updatedAt := now })
    (fun _ => rfl) rfl rfl rfl

private theorem sameTexts_recordJob {r : Tombstones.Request} {e : Tombstones.Evidence} :
    Moves (OnDb SameTexts) (Tombstones.recordJob env r e) := by
  unfold Tombstones.recordJob
  refine moves_bind (onDb_run fun db => .of_memories rfl rfl rfl) fun _ => ?_
  exact onDb_run fun db => .of_memories rfl rfl rfl

private theorem sameTexts_softChange {id : Int} {action requester : String} {reason : Option String}
    {status : Status} {change : Int → Memory F → Memory F}
    (hkey : ∀ now m, key (change now m) = key m) :
    Moves (OnDb SameTexts) (softChange env id action requester reason status change) := by
  refine onDb_softChange (fun db now => ?_) fun _ _ _ => .of_memories rfl rfl rfl
  have hset : ∀ m, key { change now m with status } = key m := hkey now
  exact sameTexts_updateMemory hset rfl rfl rfl

private theorem sameTexts_retire {id : Int} {deletedBy reason : Option String} {action : String} :
    Moves (OnDb SameTexts) (deprecateWithAction env id deletedBy action reason) := by
  unfold deprecateWithAction
  refine sameTexts_softChange ?_
  exact fun _ _ => rfl

private theorem sameTexts_restore {id : Int} {restoredBy : Option String} :
    Moves (OnDb SameTexts) (restoreMemory env id restoredBy) := by
  unfold restoreMemory
  refine sameTexts_softChange ?_
  exact fun _ _ => rfl

/-! ## Inserts, updates and purges -/

private theorem versionsOf_append {db db' : Db F} {v : MemoryVersion}
    (hversions : db'.versions = db.versions ++ [v]) (id : Int) :
    versionsOf db' id = if v.memoryId = id then versionsOf db id ++ [v] else versionsOf db id := by
  rw [versionsOf, hversions, List.filter_append]
  split
  · next heq => simp [versionsOf, heq]
  · next hne => simp [versionsOf, hne]

theorem Kept.append {db db' : Db F} {v : MemoryVersion} (hseq : db.memorySeq ≤ db'.memorySeq)
    (hversions : db'.versions = db.versions ++ [v])
    (hv : (∃ v' ∈ db.versions, v'.memoryId = v.memoryId) ∨ db.memorySeq < v.memoryId) :
    Kept P db db' where
  seq := hseq
  old v' hv' _ := .inl (hversions ▸ List.mem_append_left _ hv')
  fresh v' hv' := by
    rw [hversions] at hv'
    rcases List.mem_append.mp hv' with hv' | hv'
    · exact .inl ⟨v', hv', rfl⟩
    · rw [List.mem_singleton.mp hv']
      exact hv

/-- A row with its first version. -/
theorem Chained.insert {db db' : Db F} (h : Chained env db) {m : Memory F} {v : MemoryVersion}
    (hid : m.id = db.memorySeq + 1) (howner : v.memoryId = m.id) (hversion : v.version = 1)
    (hsupersedes : v.supersedesVersion = none) (hash : v.textHash = env.sha256Hex v.text)
    (htext : m.text = v.text) (htextHash : m.textHash = v.textHash)
    (hmemories : db'.memories = db.memories ++ [m]) (hseq : db'.memorySeq = m.id)
    (hversions : db'.versions = db.versions ++ [v]) : Chained env db' ∧ Kept P db db' := by
  have hnone : versionsOf db m.id = [] := by
    rw [versionsOf, List.filter_eq_nil_iff]
    intro v' hv'
    have := h.bound v' hv'
    rw [decide_eq_true_eq]
    omega
  refine ⟨⟨?_, fun m' hm' => ?_, fun v' hv' => ?_, fun m' hm' => ?_⟩,
    .append (by omega) hversions (.inr (by omega))⟩
  · rw [hmemories, List.map_append, List.map_singleton, List.nodup_append]
    refine ⟨h.ids, List.nodup_singleton _, fun i hi j hj => ?_⟩
    obtain ⟨m', hm', rfl⟩ := List.mem_map.mp hi
    have := h.idBound m' hm'
    rw [List.mem_singleton.mp hj]
    omega
  · rw [hmemories] at hm'
    rcases List.mem_append.mp hm' with hm' | hm'
    · have := h.idBound m' hm'
      omega
    · rw [List.mem_singleton.mp hm', hseq]
  · rw [hversions] at hv'
    rw [hmemories]
    rcases List.mem_append.mp hv' with hv' | hv'
    · obtain ⟨m', hm', heq⟩ := h.owned v' hv'
      exact ⟨m', List.mem_append_left _ hm', heq⟩
    · rw [List.mem_singleton.mp hv']
      exact ⟨m, List.mem_append_right _ (List.mem_singleton_self m), howner.symm⟩
  · rw [versionsOf_append hversions]
    rw [hmemories] at hm'
    rcases List.mem_append.mp hm' with hm' | hm'
    · have := h.idBound m' hm'
      rw [if_neg (by omega)]
      exact h.chain m' hm'
    · rw [List.mem_singleton.mp hm', if_pos howner, hnone]
      exact .single hversion hsupersedes hash htext htextHash

/-- A version more, and the row with its text. -/
theorem Chained.update {id : Int} {text : String} {source : Option String} {db db' : Db F}
    {m : Memory F} {v : MemoryVersion} (h : Chained env db)
    (hupdated : Updated env id text source db db' m v) :
    Chained env db' ∧ Kept P db db' := by
  obtain ⟨hmem, rfl⟩ := memory?_some hupdated.found
  have hchain := h.chain m hmem
  have hmax := hchain.maxVersion
  obtain ⟨sk, now, _, hmemories⟩ := hupdated.memories
  obtain ⟨last, hlast, _⟩ := hchain.head
  have hlast := mem_versionsOf.mp (List.mem_of_getLast? hlast)
  have hpos : 0 < maxVersion db m.id := by
    rw [hmax]
    have : versionsOf db m.id ≠ [] := by
      intro hnil
      have := mem_versionsOf.mpr hlast
      rw [hnil] at this
      cases this
    have := List.length_pos_iff.mpr this
    omega
  have hids : db'.memories.map Memory.id = db.memories.map Memory.id := by
    rw [hmemories]
    exact map_updateMemory fun _ => rfl
  have hrow : ∀ m' ∈ db'.memories, ∃ m₀ ∈ db.memories, m₀.id = m'.id ∧
      (m'.id = m.id → m'.text = text ∧ m'.textHash = env.sha256Hex text) ∧
      (m'.id ≠ m.id → m'.text = m₀.text ∧ m'.textHash = m₀.textHash) := by
    intro m' hm'
    rw [hmemories] at hm'
    obtain ⟨m₀, hm₀, rfl⟩ := mem_updateMemory.mp hm'
    refine ⟨m₀, hm₀, ?_⟩
    split
    · next heq => exact ⟨rfl, fun _ => ⟨rfl, rfl⟩, fun hne => absurd heq hne⟩
    · next hne => exact ⟨rfl, fun heq => absurd heq hne, fun _ => ⟨rfl, rfl⟩⟩
  refine ⟨⟨hids ▸ h.ids, fun m' hm' => ?_, fun v' hv' => ?_, fun m' hm' => ?_⟩,
    .append (Int.le_of_eq hupdated.memorySeq.symm) hupdated.versions
      (.inl ⟨last, hlast.1, hlast.2.trans hupdated.memoryId.symm⟩)⟩
  · obtain ⟨m₀, hm₀, hid, _⟩ := hrow m' hm'
    rw [hupdated.memorySeq, ← hid]
    exact h.idBound m₀ hm₀
  · have howner : ∃ m₀ ∈ db.memories, m₀.id = v'.memoryId := by
      rw [hupdated.versions] at hv'
      rcases List.mem_append.mp hv' with hv' | hv'
      · exact h.owned v' hv'
      · rw [List.mem_singleton.mp hv', hupdated.memoryId]
        exact ⟨m, hmem, rfl⟩
    obtain ⟨m₀, hm₀, heq⟩ := howner
    have hin : v'.memoryId ∈ db'.memories.map Memory.id := by
      rw [hids, ← heq]
      exact List.mem_map_of_mem hm₀
    exact List.mem_map.mp hin
  · obtain ⟨m₀, hm₀, hid, hsame, hother⟩ := hrow m' hm'
    rw [versionsOf_append hupdated.versions, hupdated.memoryId]
    split
    · next heq =>
      obtain ⟨htext, htextHash⟩ := hsame heq.symm
      rw [← heq]
      refine hchain.append ?_ ?_ ?_ ?_ ?_
      · rw [hupdated.version, hmax]
      · rw [hupdated.supersedes, if_pos hpos, hmax]
      · rw [hupdated.versionHash, hupdated.versionText]
      · rw [htext, hupdated.versionText]
      · rw [htextHash, hupdated.versionHash]
    · next hne =>
      obtain ⟨htext, htextHash⟩ := hother fun heq => hne heq.symm
      rw [← hid]
      exact (h.chain m₀ hm₀).congr htext htextHash

theorem Chained.delete {id : Int} (hP : P id) {db db' : Db F} (h : Chained env db)
    (hdelete : deletePhase id db = .ok ((), db')) : Chained env db' ∧ Kept P db db' := by
  obtain rfl := deletePhase_ok hdelete
  have hmem : ∀ {m : Memory F}, m ∈ db.memories.filter (fun m => m.id ≠ id) ↔
      m ∈ db.memories ∧ m.id ≠ id := fun {m} => by rw [List.mem_filter, decide_eq_true_eq]
  have hver : ∀ {v : MemoryVersion}, v ∈ db.versions.filter (fun v => v.memoryId ≠ id) ↔
      v ∈ db.versions ∧ v.memoryId ≠ id := fun {v} => by rw [List.mem_filter, decide_eq_true_eq]
  refine ⟨⟨h.ids.sublist (List.filter_sublist.map _), fun m hm => h.idBound m (hmem.mp hm).1,
    fun v hv => ?_, fun m hm => ?_⟩, ⟨Int.le_refl _, fun v hv _ => ?_, fun v hv => ?_⟩⟩
  · obtain ⟨hv, hne⟩ := hver.mp hv
    obtain ⟨m, hm, heq⟩ := h.owned v hv
    exact ⟨m, hmem.mpr ⟨hm, heq ▸ hne⟩, heq⟩
  · obtain ⟨hm, hne⟩ := hmem.mp hm
    have hsame : ((db.versions.filter fun v => v.memoryId ≠ id).filter fun v => v.memoryId = m.id) =
        versionsOf db m.id := by
      rw [List.filter_filter, versionsOf]
      refine List.filter_congr fun v _ => ?_
      by_cases heq : v.memoryId = m.id
      · simp [heq, hne]
      · simp [heq]
    have hchain := h.chain m hm
    rw [← hsame] at hchain
    exact hchain
  · by_cases heq : v.memoryId = id
    · exact .inr ⟨heq ▸ hP, fun v' hv' => heq ▸ (hver.mp hv').2⟩
    · exact .inl (hver.mpr ⟨hv, heq⟩)
  · exact .inl ⟨v, (hver.mp hv).1, rfl⟩

end

/-! ## The writer closures -/

omit [F64 F] in
private theorem step_same {α : Type} {m : Write F α} (h : ∀ s, (m s).2.db = s.db) :
    Yields (Step env P) m := (inside_same h).yields

/-- The two statements of an insert, and what follows them. -/
private theorem step_insert {α : Type} {r : NewRow F} {v : Memory F → MemoryVersion}
    {k : Memory F → Write F α} (hash : r.textHash = env.sha256Hex r.text)
    (howner : ∀ m, (v m).memoryId = m.id) (hversion : ∀ m, (v m).version = 1)
    (hsupersedes : ∀ m, (v m).supersedesVersion = none) (htext : ∀ m, (v m).text = r.text)
    (htextHash : ∀ m, (v m).textHash = r.textHash) (hk : ∀ m, Yields (Step env P) (k m)) :
    Yields (Step env P) (exec env (insertMemoryRow r) >>= fun m =>
      exec env (insertVersion (v m)) >>= fun _ => k m) := by
  intro s a t h
  obtain ⟨m, s₁, hrow, h⟩ := Program.bind_ok h
  obtain ⟨_, s₂, hv, h⟩ := Program.bind_ok h
  obtain ⟨hbuilt, _, hs₁⟩ := insertMemoryRow_ok (exec_ok hrow)
  obtain ⟨_, _, hs₂⟩ := insertVersion_ok (exec_ok hv)
  rw [hs₁] at hs₂
  have hinsert : Step env P s s₂ := fun hs =>
    Chained.insert hs hbuilt.id (howner m) (hversion m) (hsupersedes m)
      (by rw [htextHash, htext, hash]) (by rw [hbuilt.text, htext])
      (by rw [hbuilt.textHash, htextHash]) (by rw [hs₂]) (by rw [hs₂]) (by rw [hs₂])
  exact IsTrans.trans _ _ _ hinsert (hk m s₂ a t h)

private theorem step_insertFresh {α : Type} {cand : Persist.Candidate F} {text ev sk : String}
    {pending : F} {e : Persist.Embedded} {now : Int} {k : Memory F → Write F α}
    (hk : ∀ m, Yields (Step env P) (k m)) :
    Yields (Step env P) (Persist.insertFresh env cand text ev sk pending e now >>= k) := by
  intro s a t h
  rw [insertFresh_bind] at h
  have hstep : Step env P { s with uuids := s.uuids + 1 } t :=
    step_insert (v := fun m => { memoryId := m.id, version := 1, text
                                 textHash := env.sha256Hex text, createdAt := now })
      rfl (fun _ => rfl) (fun _ => rfl) (fun _ => rfl) (fun _ => rfl) (fun _ => rfl) hk _ a t h
  exact hstep

omit [F64 F] in
private theorem step_insertVec {v : VecRow F} : Yields (Step env P) (exec env (insertVec v)) := by
  refine (step_of_sameTexts (onDb_exec fun db _ db' h => ?_)).yields
  obtain ⟨_, rfl⟩ := insertVec_ok h
  exact .of_memories rfl rfl rfl

private theorem step_insertMemory {m : NewMemory} : Yields (Step env P) (insertMemory env m) := by
  unfold insertMemory
  split
  · exact (Program.moves_fail _).yields
  split
  · exact (Program.moves_fail _).yields
  refine yields_bind (step_same fun _ => rfl) fun publicId => ?_
  refine yields_bind (step_same fun _ => rfl) fun now => ?_
  refine yields_bind (step_same fun _ => rfl) fun c => ?_
  exact step_insert rfl (fun _ => rfl) (fun _ => rfl) (fun _ => rfl) (fun _ => rfl) (fun _ => rfl)
    fun m => (Program.moves_pure _).yields

omit [F64 F] in
private theorem step_bumpThenRead {α : Type} {shape : BumpShape} {id now : Int} {source : String}
    {k : Memory F → α} : Yields (Step env P) (bump env shape id source now >>= fun _ =>
      query env (fun db => one (db.memory? id)) >>= fun m => pure (k m)) := by
  refine yields_bind (step_of_sameTexts sameTexts_bump).yields fun _ => ?_
  exact yields_bind (step_same (query_db _)) fun m => (Program.moves_pure _).yields

private theorem step_persistEmbedded {emb : Embedder F} {cand : Persist.Candidate F}
    {text ev sk : String} {pending dedup : F} {vec : List F} :
    Yields (Step env P) (persistEmbedded env emb cand text ev sk pending dedup vec) := by
  unfold persistEmbedded
  refine yields_bind (step_same fun _ => rfl) fun now => ?_
  refine yields_bind (step_same (query_db _)) fun chosen => ?_
  cases chosen with
  | some rowid => exact step_bumpThenRead
  | none =>
    refine step_insertFresh fun m => ?_
    exact yields_bind step_insertVec fun _ => (Program.moves_pure _).yields

private theorem step_persistNoVector {cand : Persist.Candidate F} {ev sk : String} {pending : F}
    {status : EmbedStatus} :
    Yields (Step env P) (Persist.persistCandidateNoVector env cand ev sk pending status) := by
  unfold Persist.persistCandidateNoVector
  refine yields_bind (step_same fun _ => rfl) fun now => ?_
  refine yields_bind (step_same (query_db _)) fun chosen => ?_
  cases chosen with
  | some id => exact step_bumpThenRead
  | none => exact step_insertFresh fun m => (Program.moves_pure _).yields

omit [F64 F] in
private theorem step_update {id : Int} {text : String} {source reason createdBy : Option String} :
    Yields (Step env P) (updateMemoryWithProvenance env id text source reason createdBy) := by
  intro s row t h hs
  obtain ⟨m, v, hupdated⟩ := update_ok h
  exact hs.update hupdated

private theorem step_writeRow {emb : Embedder F} {agent : String} {dim : Nat} {now : Int}
    {p : Export.PlannedRow F} (hash : p.row.textHash = env.sha256Hex p.row.text) :
    Yields (Step env P) (Export.writeRow env emb agent dim now p) := by
  unfold Export.writeRow
  split
  · exact (step_of_sameTexts sameTexts_bump).yields
  · exact (Program.moves_pure ()).yields
  unfold Export.insertRow
  refine step_insert hash (fun _ => rfl) (fun _ => rfl) (fun _ => rfl) (fun _ => rfl)
    (fun _ => rfl) fun m => ?_
  split
  · exact (Program.moves_pure ()).yields
  · exact step_insertVec

omit [F64 F] in
private theorem step_deleteJob {id : Int} (hP : P id) :
    Yields (Step env P) (Tombstones.deleteJob env id) := by
  unfold Tombstones.deleteJob
  refine yields_bind (step_same (query_db _)) fun m => ?_
  refine yields_bind (step_same (query_db _)) fun before => ?_
  refine yields_bind (fun s _ t h hs => Chained.delete hP hs (exec_ok h)) fun _ => ?_
  exact yields_bind (step_same (query_db _)) fun _ => (Program.moves_pure _).yields

/-- Every closure keeps the chains. -/
private theorem closures (env : Env F) (P : Int → Prop) :
    Closures env transaction (Chained env) (Kept P) P where
  insertMemory _ := moves_transaction step_insertMemory
  persistEmbedded _ _ _ _ _ _ _ := moves_transaction step_persistEmbedded
  persistNoVector _ _ _ _ _ := moves_transaction step_persistNoVector
  update _ _ _ _ _ := moves_transaction step_update
  writeRows _ _ _ _ hash := moves_transaction <|
    yields_bind (step_same fun _ => rfl) fun _ =>
      Program.yields_forEach fun p hp => step_writeRow (hash p hp)
  versionConflict p := by
    refine moves_transaction ?_
    unfold Export.versionConflict
    split
    · exact yields_bind step_update fun _ => (Program.moves_pure ()).yields
    all_goals exact (Program.moves_pure ()).yields
  pin _ _ _ := moves_transaction (step_of_sameTexts sameTexts_setMemoryPinned).yields
  sourceRef _ _ := moves_transaction (step_of_sameTexts sameTexts_setSourceRef).yields
  summary _ _ _ := moves_transaction (step_of_sameTexts sameTexts_setSummary).yields
  retire _ _ _ _ := moves_transaction (step_of_sameTexts sameTexts_retire).yields
  restore _ _ := moves_transaction (step_of_sameTexts sameTexts_restore).yields
  dedupCluster _ _ := moves_transaction (step_of_sameTexts sameTexts_setDedupCluster).yields
  refCount _ := moves_transaction (step_of_sameTexts sameTexts_bumpRefCount).yields
  openSession _ := moves_transaction
    (step_of_sameTexts (onDb_openSession fun _ _ _ => .of_memories rfl rfl rfl)).yields
  appendTurn _ _ _ := moves_transaction
    (step_of_sameTexts (onDb_appendTurn fun _ _ => .of_memories rfl rfl rfl)).yields
  manifest _ := by
    refine moves_transaction (step_of_sameTexts (onDb_run fun db => ?_)).yields
    exact .of_memories rfl rfl rfl
  delete _ hP := moves_transaction (step_deleteJob hP)
  record _ _ := moves_transaction (step_of_sameTexts sameTexts_recordJob).yields

/-! ## Rollback -/

/-- A new head with the text of version `target` of the memory. -/
def RolledBack (id target : Int) (db db' : Db F) : Prop :=
  ∃ old ∈ versionsOf db id, ∃ new, old.version = target ∧ new.text = old.text ∧
    new.version = ((versionsOf db id).length : Int) + 1 ∧ versionsOf db' id = versionsOf db id ++ [new]

/-- What the last step of an operation did, when it returns. -/
def Wrote : Op F → Unit → Conn F → Conn F → Prop
  | .rollback id target _, _, c, c' => RolledBack id target c.db c'.db
  | _, _, _, _ => True

omit [F64 F] in
/-- The update behind a rollback that read `old`, whatever came in between. -/
private theorem rolledBack_update {id : Int} {old : MemoryVersion} {read db db' : Db F}
    {source : Option String} {m : Memory F} {v : MemoryVersion} (hread : Chained env read)
    (hold : old ∈ versionsOf read id) (hkept : Kept P read db) (hdb : Chained env db)
    (hupdated : Updated env id old.text source db db' m v) :
    RolledBack id old.version db db' := by
  obtain ⟨hold, howner⟩ := mem_versionsOf.mp hold
  obtain ⟨hmem, hid⟩ := memory?_some hupdated.found
  have hchain := hdb.chain m hmem
  rw [hid] at hchain
  have hstill : old ∈ versionsOf db id := by
    rcases hkept.old old hold (hread.bound old hold) with hstill | ⟨_, hgone⟩
    · exact mem_versionsOf.mpr ⟨hstill, howner⟩
    · -- the memory is there, so its versions are
      obtain ⟨last, hlast, _⟩ := hchain.head
      obtain ⟨hin, heq⟩ := mem_versionsOf.mp (List.mem_of_getLast? hlast)
      exact absurd (heq.trans howner.symm) (hgone last hin)
  refine ⟨old, hstill, v, rfl, hupdated.versionText, ?_, ?_⟩
  · rw [hupdated.version, hchain.maxVersion]
  · rw [versionsOf_append hupdated.versions, if_pos hupdated.memoryId]

omit [F64 F] in
private theorem safe_rollback {id target : Int} {createdBy : Option String} (s : Conn F) :
    (Client.effect (rollbackClient env transaction id target createdBy)).Safe
      (fun c => Chained env c.db) (OnDb (Kept P)) (Wrote (.rollback id target createdBy)) s := by
  unfold Client.effect rollbackClient
  rw [Client.bind_assoc]
  refine Client.safe_call_bind (inside_same (query_db _)) (fun found _ _ _ _ _ _ hend => ?_)
    fun found t u ht _ hread => ?_
  · cases found <;> cases hend
  · obtain ⟨hfound, hu⟩ := query_ok hread
    cases found with
    | none => trivial
    | some old =>
      have hread : old ∈ versionsOf u.db id ∧ old.version = target := by
        have hfind := Except.ok.inj hfound
        have hkey := List.find?_some hfind
        rw [decide_eq_true_eq] at hkey
        exact ⟨mem_versionsOf.mpr ⟨hu ▸ List.mem_of_find?_eq_some hfind, hkey.1⟩, hkey.2⟩
      have hchained : Chained env u.db := hu ▸ ht
      refine Client.safe_call_bind (moves_transaction step_update)
        (fun row t' u' _ ht' hkept hupdate _ => ?_) fun _ _ _ _ _ _ => trivial
      obtain ⟨m, v, hupdated⟩ := update_ok (Program.atomically_ok hupdate)
      show RolledBack id target t'.db u'.db
      rw [← hread.2]
      exact rolledBack_update hchained hread.1 hkept ht' hupdated

/-! ## Every interleaving -/

/-- The memories that a run is asked to purge. -/
def Purged (events : List (Pool.Event (Op F))) (id : Int) : Prop :=
  ∃ op, .start op ∈ events ∧ id ∈ op.purgeId

private theorem safe_client {op : Op F} (hP : ∀ id ∈ op.purgeId, P id) (s : Conn F) :
    (op.client env transaction).Safe (fun c => Chained env c.db) (OnDb (Kept P)) (Wrote op) s := by
  have hkeeps := keeps_client (closures env P) hP
  cases op with
  | rollback id target createdBy => exact safe_rollback s
  | _ => exact hkeeps.safe (fun _ _ _ => trivial) s

/-- A store with no operation at work. -/
def idle (F : Type) (agentId : String) (embedDim : Nat) :
    Pool (Op F) Error (Conn F) Unit := ⟨emptyStore F agentId embedDim, []⟩

abbrev runPool (env : Env F) (events : List (Pool.Event (Op F)))
    (p : Pool (Op F) Error (Conn F) Unit) : Pool (Op F) Error (Conn F) Unit :=
  p.run (fun op => op.client env transaction) events

omit [F64 F] in
private theorem chained_empty (env : Env F) (embedDim : Nat) : Chained env { embedDim } := by
  constructor <;> simp

private theorem run_safe {events : List (Pool.Event (Op F))}
    {p : Pool (Op F) Error (Conn F) Unit}
    (hP : ∀ id, Purged events id → P id)
    (h : p.Safe (fun c => Chained env c.db) (OnDb (Kept P)) Wrote) :
    (runPool env events p).Safe (fun c => Chained env c.db) (OnDb (Kept P)) Wrote ∧
      Kept P p.shared.db (runPool env events p).shared.db :=
  h.run fun op hop => safe_client fun id hid => hP id ⟨op, hop, hid⟩

omit [F64 F] in
/-- A version is known by its number. -/
theorem Chain.injective {m : Memory F} {vs : List MemoryVersion} (h : Chain env m vs)
    {v v' : MemoryVersion} (hv : v ∈ vs) (hv' : v' ∈ vs) (heq : v.version = v'.version) : v = v' := by
  have hnodup : (vs.map MemoryVersion.version).Nodup := by
    rw [h.numbered]
    exact List.nodup_range.map fun i j hij => by
      have : (i : Int) + 1 = (j : Int) + 1 := hij
      omega
  exact List.inj_on_of_nodup_map hnodup hv hv' heq

omit [F64 F] in
theorem Kept.unchanged {db db' : Db F} (h : Kept P db db') (hdb : Chained env db)
    (hdb' : Chained env db') {v v' : MemoryVersion} (hv : v ∈ db.versions)
    (hv' : v' ∈ db'.versions) (howner : v'.memoryId = v.memoryId)
    (heq : v'.version = v.version) : v' = v := by
  rcases h.old v hv (hdb.bound v hv) with hstill | ⟨_, hgone⟩
  · obtain ⟨m, hm, hid⟩ := hdb'.owned v hstill
    have hchain := hdb'.chain m hm
    exact hchain.injective (mem_versionsOf.mpr ⟨hv', howner.trans hid.symm⟩)
      (mem_versionsOf.mpr ⟨hstill, hid.symm⟩) heq
  · exact absurd howner (hgone v' hv')

/-- In every state of every interleaving the versions of a memory are its chain; a version stays as
it is until its memory is purged; and a rollback that returns has appended the text of its target,
whatever was written between its read and its write. -/
theorem version_chains (env : Env F) (events later : List (Pool.Event (Op F))) (agentId : String)
    (embedDim : Nat) :
    (∀ m ∈ (runPool env events (idle F agentId embedDim)).shared.db.memories,
      Chain env m (versionsOf (runPool env events (idle F agentId embedDim)).shared.db m.id)) ∧
    (∀ v ∈ (runPool env events (idle F agentId embedDim)).shared.db.versions,
      (v ∈ (runPool env (events ++ later) (idle F agentId embedDim)).shared.db.versions ∨
        Purged (events ++ later) v.memoryId) ∧
      ∀ v' ∈ (runPool env (events ++ later) (idle F agentId embedDim)).shared.db.versions,
        v'.memoryId = v.memoryId → v'.version = v.version → v' = v) ∧
    ∀ k id target createdBy c,
      (runPool env events (idle F agentId embedDim)).Returns k (.rollback id target createdBy) () c →
        RolledBack id target (runPool env events (idle F agentId embedDim)).shared.db c.db := by
  have hidle : (idle F agentId embedDim).Safe (fun c => Chained env c.db)
      (OnDb (Kept (Purged (events ++ later)))) Wrote :=
    ⟨chained_empty env embedDim, List.forall_mem_nil _⟩
  have hpurged : ∀ part : List (Pool.Event (Op F)), part ⊆ events ++ later →
      ∀ id, Purged part id → Purged (events ++ later) id := fun part hpart id ⟨op, hop, hid⟩ =>
    ⟨op, hpart hop, hid⟩
  obtain ⟨hsafe, _⟩ := run_safe (hpurged events (List.subset_append_left _ _)) hidle
  obtain ⟨hlater, hkept⟩ := run_safe (hpurged later (List.subset_append_right _ _)) hsafe
  have happend : runPool env later (runPool env events (idle F agentId embedDim)) =
      runPool env (events ++ later) (idle F agentId embedDim) := (List.foldl_append).symm
  rw [happend] at hlater hkept
  refine ⟨hsafe.shared.chain, fun v hv => ⟨?_, fun v' hv' howner heq => ?_⟩,
    fun k id target createdBy c hreturns => hsafe.returns hreturns⟩
  · rcases hkept.old v hv (hsafe.shared.bound v hv) with hstill | ⟨hP, _⟩
    · exact .inl hstill
    · exact .inr hP
  · exact hkept.unchanged hsafe.shared hlater.shared hv hv' howner heq

-- an update between the read and the write of a rollback
example :
    (runPool sampleEnv [.start (.insertMemory ⟨"semantic", "fact", "sky", "user"⟩), .advance 0,
      .start (.update 1 "sea" none none none), .advance 1, .start (.rollback 1 1 none), .advance 2,
      .start (.update 1 "sun" none none none), .advance 3, .advance 2]
      (idle ℚ "a" 1)).shared.db.versions.map (fun v => (v.version, v.supersedesVersion, v.text)) =
    [(1, none, "sky"), (2, some 1, "sea"), (3, some 2, "sun"), (4, some 3, "sky")] := by
  decide +kernel

end AgosMemory.Versions
