import AgosMemory.SystemEdits
import AgosMemory.Storage.Wellformed
import AgosMemory.Memory.RedactFixpoint

/-!
# Stored text and redaction

Remember, extraction and the Markdown ingest redact what they store and send. The other write paths
store the text they are given: `insert_memory`, `update_memory` and both halves of an import.
-/

namespace AgosMemory

open Library Store Redact

variable {F : Type} [F64 F] {env : Env F} {G : Grant} {db db' : Db F}

/-- Every stored text, current or past, has a property. -/
structure StoredTexts (p : String → Prop) (db : Db F) : Prop where
  memories : ∀ m ∈ db.memories, p m.text
  versions : ∀ v ∈ db.versions, p v.text

theorem Store.Edit.storedTexts (he : Edit env G db db') (h : StoredTexts G.text db) :
    StoredTexts G.text db' := by
  have hstorable : ∀ text, Storable G db text → G.text text := by
    intro text htext
    rcases htext with htext | ⟨v, hv, rfl⟩
    · exact htext
    · exact h.versions v hv
  -- a row that is updated keeps its text, or gets a granted one
  have hupdate : ∀ {id : Int} {f : Memory F → Memory F}, (∀ m, G.text m.text → G.text (f m).text) →
      ∀ m ∈ (db.updateMemory id f).memories, G.text m.text := by
    intro id f hf m' hm'
    obtain ⟨m, hm, rfl⟩ := mem_updateMemory.mp hm'
    split
    · exact hf m (h.memories m hm)
    · exact h.memories m hm
  cases he with
  | insertRow hrow htext _ _ _ =>
    obtain ⟨hbuilt, _, rfl⟩ := insertMemoryRow_ok hrow
    refine ⟨fun m hm => ?_, h.versions⟩
    rcases List.mem_append.mp hm with hm | hm
    · exact h.memories m hm
    · rw [List.mem_singleton.mp hm, hbuilt.text]
      exact htext
  | insertVersion hv htext _ =>
    obtain ⟨_, _, rfl⟩ := insertVersion_ok hv
    refine ⟨h.memories, fun v hv => ?_⟩
    rcases List.mem_append.mp hv with hv | hv
    · exact h.versions v hv
    · rw [List.mem_singleton.mp hv]
      exact hstorable _ htext
  | insertVec _ _ hv =>
    rw [(insertVec_ok hv).2]
    exact ⟨h.memories, h.versions⟩
  | retext hm _ htext hr =>
    obtain ⟨sk, _, rfl⟩ := retext_ok hm hr
    exact ⟨hupdate fun _ _ => hstorable _ htext, h.versions⟩
  | bump hm _ hr =>
    obtain ⟨sk, _, rfl⟩ := mergeSource_ok hm hr
    exact ⟨hupdate fun _ hm => hm, h.versions⟩
  | restate _ core _ => exact ⟨hupdate fun m hm => (core m).text ▸ hm, h.versions⟩
  | touch core _ _ => exact ⟨hupdate fun m hm => (core m).text ▸ hm, h.versions⟩
  | updateVec _ _ => exact ⟨h.memories, h.versions⟩
  | purge _ hd =>
    rw [deletePhase_ok hd]
    exact ⟨fun m hm => h.memories m (List.mem_filter.mp hm).1,
      fun v hv => h.versions v (List.mem_filter.mp hv).1⟩
  | other same => exact ⟨same.memories ▸ h.memories, same.versions ▸ h.versions⟩

/-- Redaction reaches its fixed point in one pass. No secret is left in what it returns, and a row
that is inserted with a redacted text is stored with the hash that a second pass would give it. -/
theorem redaction_settled (env : Env F) (t : String) :
    redact (redact t) = redact t ∧ containsSecret (redact t) = false ∧
      env.sha256Hex (redact (redact t)) = env.sha256Hex (redact t) ∧
      ∀ cand ev sk pending e now (c c' : Conn F) m,
        Persist.insertFresh env cand (redact t) ev sk pending e now c = (.ok m, c') →
          m ∈ c'.db.memories ∧ m.text = redact t ∧ m.textHash = env.sha256Hex (redact m.text) := by
  refine ⟨redact_redact t, containsSecret_redact t, ?_, ?_⟩
  · rw [redact_redact]
  · intro cand ev sk pending e now c c' m h
    obtain ⟨publicId, db, hrow, hversion, _⟩ := insertFresh_ok h
    obtain ⟨hbuilt, _, rfl⟩ := insertMemoryRow_ok hrow
    have htext : m.text = redact t := hbuilt.text
    refine ⟨?_, htext, ?_⟩
    · rw [memories_of_insertVersion hversion]
      exact List.mem_append_right _ (List.mem_singleton_self m)
    · rw [htext, redact_redact]
      exact hbuilt.textHash

/-- No text of the store, and no text that was sent to an embedder, contains a secret. -/
structure Redacted (c : Conn F) : Prop where
  stored : StoredTexts (fun t => containsSecret t = false) c.db
  sent : ∀ texts ∈ c.sent, ∀ t ∈ texts, containsSecret t = false

/-- In every run whose `insert_memory`, `update_memory` and import texts carry no secret, all stored
and all sent texts are fixed points of redaction. -/
theorem redacted_of_clean_inputs (env : Env F) (ops : List (Op F)) (agentId : String)
    (embedDim : Nat)
    (hclean : ∀ op ∈ ops, ∀ t, op.storesText t → containsSecret t = false) :
    Redacted (runOps env ops (emptyStore F agentId embedDim)) := by
  have hran := @runOps_ran F _ env _ containsSecret_redact ops hclean
    (emptyStore F agentId embedDim)
  constructor
  · exact hran.preserves (fun db db' he h => he.storedTexts h)
      ⟨List.forall_mem_nil _, List.forall_mem_nil _⟩
  · intro texts ht
    rcases hran.sent texts ht with hempty | hsent
    · cases hempty
    · exact hsent

/-- A run with a remembered secret and a harmless update. -/
theorem redacted_sample : Redacted (runOps sampleEnv
    [.persistDegraded ⟨"semantic", "fact", "pw Password=hunter2!", 1⟩ "v1" "user" 0,
      .update 1 "the password is set" none none none] (emptyStore ℚ "a" 1)) := by
  refine redacted_of_clean_inputs _ _ _ _ fun op hop t ht => ?_
  rcases List.mem_cons.mp hop with rfl | hop
  · cases ht
  · obtain rfl := List.mem_singleton.mp hop
    obtain rfl : t = "the password is set" := ht
    decide +kernel

/-- `insert_memory` stores a secret as it is. -/
theorem insert_keeps_secret :
    ¬ ∀ ops : List (Op ℚ), Redacted (runOps sampleEnv ops (emptyStore ℚ "a" 1)) := by
  intro h
  have hstored := (h [.insertMemory ⟨"semantic", "fact", "sk-abcdefgh", "user"⟩]).stored.memories
  have htext : (runOps sampleEnv [.insertMemory ⟨"semantic", "fact", "sk-abcdefgh", "user"⟩]
      (emptyStore ℚ "a" 1)).db.memories.map Memory.text = ["sk-abcdefgh"] := by decide +kernel
  have hmem := List.mem_singleton_self "sk-abcdefgh"
  rw [← htext] at hmem
  obtain ⟨m, hm, hsecret⟩ := List.mem_map.mp hmem
  have hclean := hstored m hm
  rw [hsecret] at hclean
  exact absurd hclean (by decide +kernel)

end AgosMemory
