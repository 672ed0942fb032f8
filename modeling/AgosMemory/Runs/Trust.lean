import AgosMemory.SystemEdits
import AgosMemory.Storage.Wellformed

/-!
# Trust over whole runs

Trust follows from the source kind of the row, only ever falls, and stays trusted only while every
merged source is a user or an agent. Ids are never used twice, so a row keeps its name in all later
states.
-/

namespace AgosMemory

open Library Store

variable {F : Type} [F64 F] {env : Env F} {G : Grant} {db db' : Db F}

/-- What trust says about where a row came from. -/
structure Provenance (db : Db F) : Prop where
  derived : ∀ m ∈ db.memories, m.trust = trustForSourceKind m.sourceKind.sql
  sources : ∀ m ∈ db.memories, m.trust = .trusted →
    ∀ k, (m.id, k) ∈ db.merged → k = "user" ∨ k = "agent"

/-! ## Merging a source -/

private theorem trustForSourceKind_trusted {k : String} (h : trustForSourceKind k = .trusted) :
    k = "user" ∨ k = "agent" := by
  unfold trustForSourceKind at h
  by_contra hk
  rw [if_neg hk] at h
  cases h

private theorem trustForSourceKind_cases (k : String) :
    trustForSourceKind k = .trusted ∨ trustForSourceKind k = .untrusted := by
  unfold trustForSourceKind
  split
  · exact .inl rfl
  · exact .inr rfl

omit [F64 F] in
/-- The pair of a merge stays in step. -/
private theorem merge_derived {m : Memory F} {k : String}
    (h : m.trust = trustForSourceKind m.sourceKind.sql) :
    trustAfterSource m.trust k = trustForSourceKind (sourceKindAfter m k) := by
  unfold trustAfterSource sourceKindAfter
  by_cases hm : m.trust = .untrusted
  · rw [if_pos (.inl hm), if_pos hm, ← h, hm]
  · rw [if_neg hm]
    rcases trustForSourceKind_cases k with hk | hk
    · have htrusted : m.trust = .trusted := by
        rcases trustForSourceKind_cases m.sourceKind.sql with hs | hs
        · exact h.trans hs
        · exact absurd (h.trans hs) hm
      rw [hk, htrusted]
      rfl
    · rw [if_pos (.inr hk), hk]

private theorem trustAfterSource_trusted {t : Trust} {k : String}
    (h : trustAfterSource t k = .trusted) :
    t = .trusted ∧ (k = "user" ∨ k = "agent") := by
  unfold trustAfterSource at h
  split at h
  · cases h
  next hne =>
  split at h
  · cases h
  next hsystem =>
  rw [not_or] at hne
  refine ⟨?_, ?_⟩
  · cases t with
    | trusted => rfl
    | untrusted => exact absurd rfl hne.1
    | system => exact absurd rfl hsystem
  · rcases trustForSourceKind_cases k with hk | hk
    · exact trustForSourceKind_trusted hk
    · exact absurd hk hne.2

omit [F64 F] in
private theorem mergedTrust_derived {m : Memory F} {source : Option String}
    (h : m.trust = trustForSourceKind m.sourceKind.sql) :
    mergedTrust m source = trustForSourceKind (mergedKind m source) := by
  cases source with
  | none => exact h
  | some k => exact merge_derived h

omit [F64 F] in
private theorem mergedTrust_trusted {m : Memory F} {source : Option String}
    (h : mergedTrust m source = .trusted) :
    m.trust = .trusted ∧ ∀ k ∈ source, k = "user" ∨ k = "agent" := by
  cases source with
  | none => exact ⟨h, fun k hk => by cases hk⟩
  | some s =>
    obtain ⟨ht, hs⟩ := trustAfterSource_trusted h
    exact ⟨ht, fun k hk => Option.some.inj hk ▸ hs⟩

omit [F64 F] in
private theorem mergedTrust_untrusted {m : Memory F} (h : m.trust = .untrusted)
    (source : Option String) :
    mergedTrust m source = .untrusted := by
  cases source with
  | none => exact h
  | some k =>
    show trustAfterSource m.trust k = .untrusted
    rw [trustAfterSource, if_pos (.inl h)]

/-! ## Each edit -/

omit [F64 F] in
/-- A statement that merges a source into one row. -/
theorem Provenance.merge (h : Provenance db) {id : Int} {m : Memory F}
    (hm : db.memory? id = some m) {s : Option String} {sk : SourceKind}
    (hsk : sk.sql = mergedKind m s) {f : Memory F → Memory F}
    (hmem : db'.memories = (db.updateMemory id f).memories) (hid : ∀ m, (f m).id = m.id)
    (htrust : ∀ m', (f m').trust = mergedTrust m s) (hkind : ∀ m', (f m').sourceKind = sk)
    (hmerged : db'.merged = db.merged ++ (s.map fun k => (id, k)).toList) :
    Provenance db' := by
  obtain ⟨hmem_m, rfl⟩ := memory?_some hm
  constructor
  · intro m' hm'
    rw [hmem] at hm'
    obtain ⟨m₀, hm₀, rfl⟩ := mem_updateMemory.mp hm'
    split
    · rw [htrust, hkind, hsk]
      exact mergedTrust_derived (h.derived m hmem_m)
    · exact h.derived m₀ hm₀
  · intro m' hm' ht k hk
    rw [hmem] at hm'
    rw [hmerged] at hk
    obtain ⟨m₀, hm₀, rfl⟩ := mem_updateMemory.mp hm'
    split at ht
    · next heq =>
      rw [if_pos heq, hid] at hk
      rw [htrust] at ht
      obtain ⟨htrusted, hsource⟩ := mergedTrust_trusted ht
      rcases List.mem_append.mp hk with hk | hk
      · exact h.sources m hmem_m htrusted k (heq ▸ hk)
      · obtain ⟨k', hk', heq'⟩ := Option.map_eq_some_iff.mp (Option.mem_toList.mp hk)
        exact (Prod.mk.inj heq').2 ▸ hsource k' hk'
    · next hne =>
      rw [if_neg hne] at hk
      rcases List.mem_append.mp hk with hk | hk
      · exact h.sources m₀ hm₀ ht k hk
      · obtain ⟨k', _, heq'⟩ := Option.map_eq_some_iff.mp (Option.mem_toList.mp hk)
        exact absurd (Prod.mk.inj heq').1.symm hne

omit [F64 F] in
/-- A statement that sets neither trust nor source kind. -/
theorem Provenance.updateMemory (h : Provenance db) {id : Int} {f : Memory F → Memory F}
    (hmem : db'.memories = (db.updateMemory id f).memories) (hid : ∀ m, (f m).id = m.id)
    (htrust : ∀ m, (f m).trust = m.trust) (hkind : ∀ m, (f m).sourceKind = m.sourceKind)
    (hmerged : db'.merged = db.merged) :
    Provenance db' := by
  constructor
  · intro m' hm'
    rw [hmem] at hm'
    obtain ⟨m, hm, rfl⟩ := mem_updateMemory.mp hm'
    split
    · rw [htrust, hkind]; exact h.derived m hm
    · exact h.derived m hm
  · intro m' hm' ht k hk
    rw [hmem] at hm'
    rw [hmerged] at hk
    obtain ⟨m, hm, rfl⟩ := mem_updateMemory.mp hm'
    split at ht
    · next heq =>
      rw [if_pos heq, hid] at hk
      exact h.sources m hm (htrust m ▸ ht) k hk
    · next hne =>
      rw [if_neg hne] at hk
      exact h.sources m hm ht k hk

theorem Provenance.insertRow (h : Provenance db) (hdb : Wellformed env db) {r : NewRow F}
    {m : Memory F} (hrow : insertMemoryRow r db = .ok (m, db'))
    (htrust : r.trust = trustForSourceKind r.sourceKind) : Provenance db' := by
  obtain ⟨hbuilt, _, rfl⟩ := insertMemoryRow_ok hrow
  have hderived : m.trust = trustForSourceKind m.sourceKind.sql := by
    rw [hbuilt.trust, hbuilt.sourceKind, htrust]
  have hnew : db.memorySeq < m.id := by rw [hbuilt.id]; omega
  constructor
  · intro m' hm'
    rcases List.mem_append.mp hm' with hm' | hm'
    · exact h.derived m' hm'
    · rw [List.mem_singleton.mp hm']; exact hderived
  · intro m' hm' ht k hk
    rcases List.mem_append.mp hk with hk | hk
    · rcases List.mem_append.mp hm' with hm' | hm'
      · exact h.sources m' hm' ht k hk
      · have hle := hdb.mergedBound _ hk
        rw [List.mem_singleton.mp hm'] at hle
        exact absurd hle (by dsimp only; omega)
    · obtain ⟨hid, rfl⟩ := Prod.mk.inj (List.mem_singleton.mp hk)
      rcases List.mem_append.mp hm' with hm' | hm'
      · have hle := hdb.idBound m' hm'
        exact absurd hid (by omega)
      · obtain rfl := List.mem_singleton.mp hm'
        exact trustForSourceKind_trusted (hderived ▸ ht)

theorem Store.Edit.provenance (he : Edit env G db db') (hdb : Wellformed env db) (h : Provenance db) :
    Provenance db' := by
  cases he with
  | insertRow hrow _ _ htrust _ => exact h.insertRow hdb hrow htrust
  | insertVersion hv =>
    rw [(insertVersion_ok hv).2.2]
    exact ⟨h.derived, h.sources⟩
  | insertVec _ _ hv =>
    rw [(insertVec_ok hv).2]
    exact ⟨h.derived, h.sources⟩
  | retext hm _ _ hr =>
    obtain ⟨sk, hsk, rfl⟩ := retext_ok hm hr
    exact h.merge hm (SourceKind.sql_of_ofSql? hsk) rfl (fun _ => rfl) (fun _ => rfl)
      (fun _ => rfl) rfl
  | bump hm _ hr =>
    obtain ⟨sk, hsk, rfl⟩ := mergeSource_ok hm hr
    exact h.merge (s := some _) hm (SourceKind.sql_of_ofSql? hsk) rfl (fun _ => rfl)
      (fun _ => rfl) (fun _ => rfl) rfl
  | restate _ core _ =>
    exact h.updateMemory rfl (fun m => (core m).id) (fun m => (core m).trust)
      (fun m => (core m).sourceKind) rfl
  | touch core _ _ =>
    exact h.updateMemory rfl (fun m => (core m).id) (fun m => (core m).trust)
      (fun m => (core m).sourceKind) rfl
  | updateVec _ _ => exact ⟨h.derived, h.sources⟩
  | purge _ hd =>
    rw [deletePhase_ok hd]
    exact ⟨fun m hm => h.derived m (List.mem_filter.mp hm).1,
      fun m hm => h.sources m (List.mem_filter.mp hm).1⟩
  | other same =>
    refine ⟨?_, ?_⟩
    · rw [same.memories]; exact h.derived
    · rw [same.memories, same.merged]; exact h.sources

/-- Every row of an id is untrusted; also when the row is gone. -/
def Untrusted (db : Db F) (id : Int) : Prop := ∀ m ∈ db.memories, m.id = id → m.trust = .untrusted

omit [F64 F] in
theorem Untrusted.updateMemory {i id : Int} (h : Untrusted db i) {f : Memory F → Memory F}
    (hid : ∀ m, (f m).id = m.id)
    (htrust : ∀ m ∈ db.memories, m.id = id → m.trust = .untrusted → (f m).trust = .untrusted) :
    Untrusted (db.updateMemory id f) i := by
  intro m' hm' hi
  obtain ⟨m, hm, rfl⟩ := mem_updateMemory.mp hm'
  split at hi
  · next heq =>
    rw [if_pos heq]
    exact htrust m hm heq (h m hm ((hid m).symm.trans hi))
  · next hne =>
    rw [if_neg hne]
    exact h m hm hi

theorem Store.Edit.untrusted (he : Edit env G db db') (hdb : Wellformed env db) {i : Int}
    (hi : i ≤ db.memorySeq) (h : Untrusted db i) : Untrusted db' i ∧ i ≤ db'.memorySeq := by
  cases he with
  | insertRow hrow _ _ _ _ =>
    obtain ⟨hbuilt, _, rfl⟩ := insertMemoryRow_ok hrow
    have hid := hbuilt.id
    refine ⟨fun m' hm' heq => ?_, by dsimp only; omega⟩
    rcases List.mem_append.mp hm' with hm' | hm'
    · exact h m' hm' heq
    · rw [List.mem_singleton.mp hm'] at heq
      omega
  | insertVersion hv =>
    rw [(insertVersion_ok hv).2.2]
    exact ⟨h, hi⟩
  | insertVec _ _ hv =>
    rw [(insertVec_ok hv).2]
    exact ⟨h, hi⟩
  | retext hm _ _ hr =>
    obtain ⟨sk, _, rfl⟩ := retext_ok hm hr
    refine ⟨h.updateMemory (fun _ => rfl) fun m' hm' heq ht => ?_, hi⟩
    have hsame := hdb.memory? hm'
    rw [heq, hm] at hsame
    exact mergedTrust_untrusted (Option.some.inj hsame ▸ ht) _
  | bump hm _ hr =>
    obtain ⟨sk, _, rfl⟩ := mergeSource_ok hm hr
    refine ⟨h.updateMemory (fun _ => rfl) fun m' hm' heq ht => ?_, hi⟩
    have hsame := hdb.memory? hm'
    rw [heq, hm] at hsame
    exact mergedTrust_untrusted (Option.some.inj hsame ▸ ht) (some _)
  | restate _ core _ =>
    refine ⟨h.updateMemory (fun m => (core m).id) fun m _ _ ht => ?_, hi⟩
    exact (core m).trust.trans ht
  | touch core _ _ =>
    exact ⟨h.updateMemory (fun m => (core m).id) fun m _ _ ht => (core m).trust.trans ht, hi⟩
  | updateVec _ _ => exact ⟨h, hi⟩
  | purge _ hd =>
    rw [deletePhase_ok hd]
    exact ⟨fun m hm => h m (List.mem_filter.mp hm).1, hi⟩
  | other same =>
    refine ⟨fun m hm => h m (same.memories ▸ hm), ?_⟩
    rw [same.memorySeq]
    exact hi

/-! ## Runs -/

/-- In every run, from an empty store: an untrusted row is untrusted in all later states, a trusted
row has only had users and agents merged into it, and trust is what the source kind says. -/
theorem trust_monotone (env : Env F) (ops later : List (Op F)) (agentId : String)
    (embedDim : Nat) :
    (∀ m ∈ (runOps env ops (emptyStore F agentId embedDim)).db.memories, m.trust = .untrusted →
      ∀ m' ∈ (runOps env (ops ++ later) (emptyStore F agentId embedDim)).db.memories,
        m'.id = m.id → m'.trust = .untrusted) ∧
    (∀ m ∈ (runOps env ops (emptyStore F agentId embedDim)).db.memories, m.trust = .trusted →
      ∀ k, (m.id, k) ∈ (runOps env ops (emptyStore F agentId embedDim)).db.merged →
        k = "user" ∨ k = "agent") ∧
    ∀ m ∈ (runOps env ops (emptyStore F agentId embedDim)).db.memories,
      m.trust = trustForSourceKind m.sourceKind.sql := by
  have hrun : ∀ ops (c : Conn F), Ran env (.storing (fun _ => True) True) c (runOps env ops c) :=
    fun ops c => runOps_ran (fun _ => trivial) (fun _ _ _ _ => trivial) c
  have hlater : runOps env (ops ++ later) (emptyStore F agentId embedDim) =
      runOps env later (runOps env ops (emptyStore F agentId embedDim)) := List.foldl_append
  obtain ⟨hdb, hprovenance⟩ := (hrun ops (emptyStore F agentId embedDim)).preserves
    (P := fun db => Wellformed env db ∧ Provenance db)
    (fun db db' he h => ⟨he.wellformed h.1, he.provenance h.1 h.2⟩)
    ⟨.empty embedDim, List.forall_mem_nil _, List.forall_mem_nil _⟩
  refine ⟨fun m hm ht m' hm' hid => ?_, hprovenance.sources, hprovenance.derived⟩
  rw [hlater] at hm'
  -- ids are unique, so the row is the only one of its id
  have hfirst : Untrusted (runOps env ops (emptyStore F agentId embedDim)).db m.id := by
    intro m₀ hm₀ heq
    rw [List.inj_on_of_nodup_map hdb.ids hm₀ hm heq]
    exact ht
  obtain ⟨_, hlast, _⟩ := (hrun later _).preserves
    (P := fun db => Wellformed env db ∧ Untrusted db m.id ∧ m.id ≤ db.memorySeq)
    (fun db db' he h => ⟨he.wellformed h.1, he.untrusted h.1 h.2.2 h.2.1⟩)
    ⟨hdb, hfirst, hdb.idBound m hm⟩
  exact hlast m' hm' hid

end AgosMemory
