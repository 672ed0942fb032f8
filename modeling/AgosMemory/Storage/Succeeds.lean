import AgosMemory.Storage.Frame
import AgosMemory.Storage.Wellformed

/-!
# When a closure succeeds

Without faults, a statement fails only when the schema refuses it. A bump or a rewrite of a row that
is there succeeds when the source kind is one of the vocabulary.
-/

namespace AgosMemory.Store

open Library Library.Program

variable {F : Type} {env : Env F}

private theorem source_sql (k : SourceKind) : SourceKind.ofSql? k.sql = some k := by
  cases k <;> rfl

theorem sourceKindAfter_listed {m : Memory F} {source : String}
    (h : (SourceKind.ofSql? source).isSome) :
    (SourceKind.ofSql? (sourceKindAfter m source)).isSome := by
  unfold sourceKindAfter
  split
  · exact Option.isSome_of_mem (source_sql m.sourceKind)
  · exact h

private theorem mergedKind_listed {m : Memory F} {source : Option String}
    (h : ∀ k ∈ source, (SourceKind.ofSql? k).isSome) :
    (SourceKind.ofSql? (mergedKind m source)).isSome := by
  cases source with
  | none => exact Option.isSome_of_mem (source_sql m.sourceKind)
  | some k => exact sourceKindAfter_listed (h k rfl)

private theorem setProvenance_succeeds (id : Int) (trust : Trust) {sourceKind : String}
    (incoming : Option String) (g : Memory F → Memory F) (db : Db F)
    (h : (SourceKind.ofSql? sourceKind).isSome) :
    ∃ r, setProvenance id trust sourceKind incoming g db = .ok r := by
  obtain ⟨sk, hsk⟩ := Option.isSome_iff_exists.mp h
  unfold setProvenance
  rw [hsk]
  split
  · exact ⟨_, rfl⟩
  · exact ⟨_, rfl⟩

theorem mergeSource_succeeds {shape : BumpShape} {id : Int} {trust : Trust}
    {sourceKind incoming : String} {cluster : Option String} {now : Int} {db : Db F}
    (h : (SourceKind.ofSql? sourceKind).isSome) :
    ∃ r, mergeSource shape id trust sourceKind incoming cluster now db = .ok r := by
  obtain ⟨r, hr⟩ := setProvenance_succeeds id trust (some incoming) (countReference cluster now)
    db h
  unfold mergeSource
  rw [hr]
  exact ⟨_, rfl⟩

theorem retext_succeeds {id : Int} {text textHash : String} {trust : Trust} {sourceKind : String}
    {incoming : Option String} {now : Int} {db : Db F}
    (h : (SourceKind.ofSql? sourceKind).isSome) :
    ∃ r, retext id text textHash trust sourceKind incoming now db = .ok r := by
  unfold retext
  obtain ⟨r, hr⟩ := setProvenance_succeeds id trust incoming
    (fun m => { m with text, textHash, updatedAt := now }) db h
  rw [hr]
  exact ⟨_, rfl⟩

private theorem le_maxVersion {db : Db F} {v : MemoryVersion} (hv : v ∈ db.versions) :
    v.version ≤ maxVersion db v.memoryId := by
  have hmem : v.version ∈ (db.versions.filter fun v' => v'.memoryId = v.memoryId).map
      MemoryVersion.version :=
    List.mem_map_of_mem (List.mem_filter.mpr ⟨hv, decide_eq_true rfl⟩)
  unfold maxVersion
  cases hmax : ((db.versions.filter fun v' => v'.memoryId = v.memoryId).map
      MemoryVersion.version).max? with
  | none =>
    rw [List.max?_eq_none_iff.mp hmax] at hmem
    cases hmem
  | some n => exact (List.max?_eq_some_iff.mp hmax).2 _ hmem

/-- The next version of a row that is there is always free. -/
theorem insertVersion_next {db : Db F} {m : Memory F} {v : MemoryVersion}
    (hm : db.memory? v.memoryId = some m) (hv : v.version = maxVersion db v.memoryId + 1) :
    ∃ r, insertVersion v db = .ok r := by
  unfold insertVersion
  rw [hm, if_neg (by simp), if_neg]
  · exact ⟨_, rfl⟩
  · rw [List.any_eq_true]
    rintro ⟨v', hv', heq⟩
    obtain ⟨hid, hversion⟩ := of_decide_eq_true heq
    have hle := le_maxVersion hv'
    rw [hid] at hle
    omega

theorem memory?_found {db : Db F} {id : Int} :
    (∃ m, db.memory? id = some m) ↔ id ∈ db.memories.map Memory.id := by
  constructor
  · rintro ⟨m, hm⟩
    obtain ⟨hmem, rfl⟩ := memory?_some hm
    exact List.mem_map_of_mem hmem
  · intro hmem
    obtain ⟨m, hm, rfl⟩ := List.mem_map.mp hmem
    cases hfound : db.memory? m.id with
    | none => exact absurd rfl (memory?_eq_none.mp hfound m hm)
    | some m' => exact ⟨m', rfl⟩

theorem one_some {α : Type} {x : Option α} {a : α} (h : x = some a) : one x = .ok a := by
  rw [h]
  rfl

section

variable (hfault : ∀ n, env.fault n = false)

include hfault

theorem succeeds_exec {α : Type} {f : Db F → Except Error (α × Db F)} {s : Conn F}
    (h : ∃ r, f s.db = .ok r) : Succeeds (exec env f) s := by
  obtain ⟨r, hr⟩ := h
  exact ⟨_, _, exec_of_ok (hfault _) hr⟩

theorem succeeds_query {α : Type} {f : Db F → Except Error α} {s : Conn F}
    (h : ∃ a, f s.db = .ok a) : Succeeds (query env f) s := by
  obtain ⟨a, ha⟩ := h
  rw [Succeeds, query_of_noFault (hfault _), ha]
  exact ⟨_, _, rfl⟩

theorem succeeds_run {f : Db F → Db F} {s : Conn F} : Succeeds (run env f) s :=
  succeeds_exec hfault ⟨_, rfl⟩

theorem bump_succeeds {shape : BumpShape} {id now : Int} {source : String} {s : Conn F}
    {m : Memory F} (hm : s.db.memory? id = some m) (hlink : shape.link = false)
    (hsource : (SourceKind.ofSql? source).isSome) :
    Succeeds (bump env shape id source now) s := by
  unfold bump
  refine succeeds_bind (succeeds_query hfault ⟨m, one_some hm⟩) fun m s₁ hread => ?_
  refine succeeds_bind ?_ fun cluster s₂ _ => ?_
  · unfold clusterOf
    split
    · exact succeeds_query hfault ⟨_, rfl⟩
    · exact succeeds_pure none _
  refine succeeds_bind (succeeds_exec hfault
    (mergeSource_succeeds (sourceKindAfter_listed hsource))) fun _ s₃ _ => ?_
  refine succeeds_bind (succeeds_onlyIf (succeeds_run hfault)) fun _ s₄ _ => ?_
  rw [hlink]
  exact succeeds_pure () _

theorem update_succeeds {id : Int} {text : String} {source reason createdBy : Option String}
    {s : Conn F} {m : Memory F} (hm : s.db.memory? id = some m)
    (hsource : ∀ k ∈ source, (SourceKind.ofSql? k).isSome) :
    Succeeds (updateMemoryWithProvenance env id text source reason createdBy) s := by
  unfold updateMemoryWithProvenance
  refine succeeds_bind (succeeds_query hfault ⟨_, rfl⟩) fun version s₁ hversion => ?_
  refine succeeds_bind (succeeds_attempt _ _) fun prev s₂ hprev => ?_
  refine succeeds_bind ⟨_, _, rfl⟩ fun now s₃ hnow => ?_
  obtain ⟨hmax, hs₁⟩ := query_ok hversion
  have hs₃ : s₃.db = s.db := by
    rw [← (Prod.mk.inj hnow).2, attempt_query_ok hprev, hs₁]
  rw [← hs₃] at hm hmax
  refine succeeds_bind (succeeds_exec hfault (insertVersion_next hm ?_)) fun _ s₄ hs₄ => ?_
  · rw [← Except.ok.inj hmax]
  have hm₄ : s₄.db.memory? id = some m := by
    rw [Db.memory?, memories_of_insertVersion (exec_ok hs₄)]
    exact hm
  refine succeeds_bind (succeeds_query hfault ⟨m, one_some hm₄⟩) fun current s₅ hcurrent => ?_
  obtain ⟨hfound, hs₅⟩ := query_ok hcurrent
  refine succeeds_bind (succeeds_exec hfault (retext_succeeds (mergedKind_listed hsource)))
    fun _ s₆ hs₆ => ?_
  refine succeeds_bind (succeeds_run hfault) fun _ s₇ hs₇ => ?_
  apply succeeds_query hfault
  obtain ⟨sk, merged, rewrites, hretext⟩ := retext_update (exec_ok hs₆)
  have hmemories : s₇.db.memories = s₆.db.memories := by
    rw [← (Prod.mk.inj (Except.ok.inj (exec_ok hs₇))).2]
    rfl
  have hthere : id ∈ s₇.db.memories.map Memory.id := by
    rw [hmemories, hretext, map_updateMemory (by exact fun _ => rfl), hs₅]
    exact memory?_found.mp ⟨m, hm₄⟩
  obtain ⟨m', hm'⟩ := memory?_found.mpr hthere
  rw [one_some hm']
  exact ⟨_, rfl⟩

end

end AgosMemory.Store
