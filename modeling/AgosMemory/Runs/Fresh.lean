import AgosMemory.Runs.History

/-!
# Stored vectors and current texts

A vector is written once, with its row. An update, a rollback, an edited source item or an import
conflict rewrites the text and leaves the vector, so the vector stays current exactly as long as every
rewrite of an embedded row keeps its embedding.
-/

namespace AgosMemory

open Library Library.Program Store

variable {F : Type} [F64 F] {env : Env F} {G : Grant}

/-- Every row marked as embedded has a vector, the embedding of its current text. -/
def Fresh (embed : String → List F) (db : Db F) : Prop :=
  ∀ m ∈ db.memories, m.embedStatus = .ok →
    ∃ v ∈ db.vecs, v.rowid = m.id ∧ v.embedding = embed m.text

/-- A rewrite of an embedded row keeps its embedding. -/
def sameEmbedding (embed : String → List F) : Watch F where
  rewrite m text := m.embedStatus = .ok → embed text = embed m.text
  bump _ _ _ := True
  restate _ _ := True

section

variable {embed : String → List F} {db db' : Db F}

omit [F64 F] in
/-- An update that keeps id and mark, and the embedding of each row that is marked. -/
theorem Fresh.updateMemory (h : Fresh embed db) {id : Int} {f : Memory F → Memory F}
    (hmem : db'.memories = (db.updateMemory id f).memories) (hvecs : db'.vecs = db.vecs)
    (hid : ∀ m, (f m).id = m.id) (hstatus : ∀ m, (f m).embedStatus = m.embedStatus)
    (htext : ∀ m ∈ db.memories, m.id = id → m.embedStatus = .ok →
      embed (f m).text = embed m.text) : Fresh embed db' := by
  intro m' hm' hok
  rw [hmem] at hm'
  rw [hvecs]
  obtain ⟨m, hm, rfl⟩ := mem_updateMemory.mp hm'
  split at hok
  · next heq =>
    rw [hstatus] at hok
    obtain ⟨v, hv, hrowid, hembed⟩ := h m hm hok
    rw [if_pos heq, hid, htext m hm heq hok]
    exact ⟨v, hv, hrowid, hembed⟩
  · next hne =>
    rw [if_neg hne]
    exact h m hm hok

omit [F64 F] in
theorem Fresh.insertRow (h : Fresh embed db) {m : Memory F} {vecs : List (VecRow F)}
    (hmem : db'.memories = db.memories ++ [m]) (hvecs : db'.vecs = db.vecs ++ vecs)
    (hnew : m.embedStatus = .ok → ∃ v ∈ vecs, v.rowid = m.id ∧ v.embedding = embed m.text) :
    Fresh embed db' := by
  intro m' hm' hok
  rw [hmem] at hm'
  rw [hvecs]
  rcases List.mem_append.mp hm' with hm' | hm'
  · obtain ⟨v, hv, hrow⟩ := h m' hm' hok
    exact ⟨v, List.mem_append_left _ hv, hrow⟩
  · obtain rfl := List.mem_singleton.mp hm'
    obtain ⟨v, hv, hrow⟩ := hnew hok
    exact ⟨v, List.mem_append_right _ hv, hrow⟩

theorem Store.Edit.fresh (he : Edit env G db db') (hG : ¬ G.embedded)
    (hdb : Wellformed env db) (hclean : (sameEmbedding embed).Clean db') (h : Fresh embed db) :
    Fresh embed db' := by
  cases he with
  | insertRow hrow _ _ _ hstatus =>
    obtain ⟨hbuilt, _, rfl⟩ := insertMemoryRow_ok hrow
    refine h.insertRow rfl (List.append_nil _).symm fun hok => ?_
    rcases hstatus with hstatus | hembedded
    · exact absurd (hbuilt.embedStatus.symm.trans hok) hstatus
    · exact absurd hembedded hG
  | insertVersion hv _ _ =>
    obtain ⟨_, _, rfl⟩ := insertVersion_ok hv
    exact h
  | insertVec _ _ hv =>
    obtain ⟨_, rfl⟩ := insertVec_ok hv
    intro m hm hok
    obtain ⟨v, hv, hrow⟩ := h m hm hok
    exact ⟨v, List.mem_append_left _ hv, hrow⟩
  | retext hm _ _ hr =>
    obtain ⟨sk, _, rfl⟩ := retext_ok hm hr
    refine h.updateMemory rfl rfl (fun _ => rfl) (fun _ => rfl) fun m' hm' heq hok => ?_
    have hsame := hdb.memory? hm'
    rw [heq, hm] at hsame
    obtain rfl := Option.some.inj hsame
    exact hclean.rewrites _ (List.mem_append_right _ (List.mem_singleton_self _)) hok
  | bump hm _ hr =>
    obtain ⟨sk, _, rfl⟩ := mergeSource_ok hm hr
    exact h.updateMemory rfl rfl (fun _ => rfl) (fun _ => rfl) fun _ _ _ _ => rfl
  | restate _ core _ =>
    refine h.updateMemory rfl rfl (fun m => (core m).id) (fun m => (core m).embedStatus)
      fun m _ _ _ => ?_
    exact congrArg embed (core m).text
  | touch core _ _ =>
    refine h.updateMemory rfl rfl (fun m => (core m).id) (fun m => (core m).embedStatus)
      fun m _ _ _ => ?_
    exact congrArg embed (core m).text
  | updateVec _ same =>
    intro m hm hok
    obtain ⟨v, hv, hrowid, hembed⟩ := h m hm hok
    refine ⟨_, mem_updateVec.mpr ⟨v, hv, rfl⟩, ?_⟩
    split
    · rw [(same v).rowid, (same v).embedding]; exact ⟨hrowid, hembed⟩
    · exact ⟨hrowid, hembed⟩
  | purge _ hd =>
    rw [deletePhase_ok hd]
    intro m hm hok
    obtain ⟨hm, hne⟩ := List.mem_filter.mp hm
    obtain ⟨v, hv, hrowid, hembed⟩ := h m hm hok
    exact ⟨v, List.mem_filter.mpr ⟨hv, by rw [hrowid]; exact hne⟩, hrowid, hembed⟩
  | other same =>
    intro m hm hok
    rw [same.vecs]
    exact h m (same.memories ▸ hm) hok

end

/-! ## Embedded inserts -/

/-- Freshness of a store whose vectors have `embedDim` components. -/
def FreshDim (embed : String → List F) (embedDim : Nat) (db : Db F) : Prop :=
  db.embedDim = embedDim ∧ Fresh embed db

section

variable {embed : String → List F} {embedDim : Nat}

private theorem keeps_insertEmbedded (hfault : ∀ n, env.fault n = false) {emb : Embedder F}
    {cand : Persist.Candidate F} {text ev sk : String} {pending : F} {now : Int}
    (hdim : (embed text).length = embedDim) :
    Moves (Keeps env (sameEmbedding embed) (FreshDim embed embedDim))
      (Persist.insertEmbedded env emb cand text ev sk pending (embed text) now) := by
  refine keeps_closure (G := .storing (fun _ => True) True)
    (moves_insertEmbedded trivial trivial) fun s hdb _ h => ?_
  unfold Persist.insertEmbedded
  rw [insertFresh_bind]
  refine insertRow_version hfault (P := fun r => FreshDim embed embedDim r.2.db) (fun _ => rfl)
    hdb (fun e t hs => ?_) fun m db t hrow ht => ?_
  · show FreshDim embed embedDim t.db
    rw [hs]
    exact h
  · obtain ⟨hbuilt, _, hdb'⟩ := insertMemoryRow_ok hrow
    obtain ⟨u, hu, hu'⟩ := exec_insertVec_fresh hfault hdb hrow
      (v := ⟨m.id, embed text, m.tier, m.status.code, m.trust.code, m.kind, 0⟩) rfl
      (hdim.trans h.1.symm) ht
    rw [bind_of_ok _ hu]
    show FreshDim embed embedDim u.db
    rw [hu', hdb']
    refine ⟨h.1, h.2.insertRow rfl rfl fun _ => ⟨_, List.mem_singleton_self _, rfl, ?_⟩⟩
    rw [hbuilt.text]
    rfl

omit [F64 F] in
private theorem answered_embed {emb : Embedder F}
    (hembed : ∀ n texts vecs, emb.embed n texts = .ok vecs → vecs = texts.map embed)
    {p : Export.PlannedRow F} (hp : Answered emb p) {vec : List F} (hvec : p.vector = some vec) :
    vec = embed p.row.text := by
  obtain ⟨n, texts, vecs, i, hanswer, htext, hi⟩ := hp vec hvec
  rw [hembed n texts vecs hanswer, List.getElem?_map, htext] at hi
  exact (Option.some.inj hi).symm

/-- The fresh row of an import, whose vector is what the embedder answered for its text. -/
private theorem keeps_insertRow (hfault : ∀ n, env.fault n = false) {emb : Embedder F}
    (hembed : ∀ n texts vecs, emb.embed n texts = .ok vecs → vecs = texts.map embed)
    (hdim : ∀ t, (embed t).length = embedDim) {agent : String} {dim : Nat} {now : Int}
    {p : Export.PlannedRow F} (hp : Answered emb p)
    (hash : p.row.textHash = env.sha256Hex p.row.text) :
    Moves (Keeps env (sameEmbedding embed) (FreshDim embed embedDim))
      (Export.insertRow env emb agent dim now p) := by
  refine keeps_closure (G := .storing (fun _ => True) True)
    (moves_insertRow trivial hash trivial) fun s hdb _ h => ?_
  unfold Export.insertRow
  refine insertRow_version hfault (P := fun r => FreshDim embed embedDim r.2.db) (fun _ => rfl)
    hdb (fun e t hs => ?_) fun m db t hrow ht => ?_
  · show FreshDim embed embedDim t.db
    rw [hs]
    exact h
  obtain ⟨hbuilt, _, hdb'⟩ := insertMemoryRow_ok hrow
  have hmark : m.embedStatus = (Export.embedding emb dim p.vector).1.status := hbuilt.embedStatus
  rcases embedding_cases emb dim p.vector with ⟨vec, hvec, _, hstored⟩ | ⟨hne, hstored⟩
  · have hvec := answered_embed hembed hp hvec
    obtain ⟨u, hu, hu'⟩ := exec_insertVec_fresh hfault hdb hrow
      (v := ⟨m.id, vec, m.tier, m.status.code, m.trust.code, m.kind, p.row.pinned⟩) rfl
      (hvec ▸ (hdim _).trans h.1.symm) ht
    rw [hstored]
    show FreshDim embed embedDim (exec env (insertVec _) t).2.db
    rw [hu]
    show FreshDim embed embedDim u.db
    rw [hu', hdb']
    refine ⟨h.1, h.2.insertRow rfl rfl fun _ => ⟨_, List.mem_singleton_self _, rfl, ?_⟩⟩
    rw [hbuilt.text]
    exact hvec
  · rw [hstored]
    show FreshDim embed embedDim t.db
    rw [ht, hdb']
    refine ⟨h.1, h.2.insertRow rfl (List.append_nil _).symm fun hok => ?_⟩
    exact absurd (hmark.symm.trans hok) hne

end

/-- In every run without storage faults, with embedders that answer with one function of the text and
the store's dimension: as long as no rewrite changes the embedding of an embedded row, every such row
has the vector of its current text. -/
theorem fresh_of_same_embedding (env : Env F) (hfault : ∀ n, env.fault n = false)
    (embed : String → List F) (embedDim : Nat) (hdim : ∀ t, (embed t).length = embedDim)
    (ops : List (Op F)) (agentId : String)
    (hembed : ∀ op ∈ ops, ∀ emb ∈ op.embedder, ∀ n texts vecs,
      emb.embed n texts = .ok vecs → vecs = texts.map embed)
    (hsame : ∀ p ∈ (runOps env ops (emptyStore F agentId embedDim)).db.rewrites,
      p.1.embedStatus = .ok → embed p.2 = embed p.1.text) :
    Fresh embed (runOps env ops (emptyStore F agentId embedDim)).db := by
  have hR : ∀ c c' : Conn F, Edits env (.storing (fun _ => True) False) c c' →
      Keeps env (sameEmbedding embed) (FreshDim embed embedDim) c c' := fun c c' he =>
    keeps_of_edits he fun db db' hedit hdb hclean h =>
      ⟨hedit.grows.embedDim.trans h.1, hedit.fresh id hdb hclean h.2⟩
  have hrun := runOps_moves (R := Keeps env (sameEmbedding embed) (FreshDim embed embedDim))
    (.of_edits hR (fun c _ => ⟨⟨id, .of_eq rfl rfl rfl rfl⟩, fun _ _ h => h⟩) (fun _ => trivial)
      (fun _ => trivial) trivial trivial trivial)
    (fun op (_ : op ∈ ops) _ _ => trivial) (fun op hop emb hemb => ?_)
    (emptyStore F agentId embedDim)
  · refine (hrun.keeps (.empty embedDim) ⟨hsame, ?_, ?_⟩ ⟨rfl, List.forall_mem_nil _⟩).2
    · exact fun _ _ => trivial
    · exact fun _ _ => trivial
  · constructor
    · intro n cand ev sk pending vecs now hvecs
      rw [hembed op hop emb hemb n _ vecs hvecs]
      exact keeps_insertEmbedded hfault (hdim _)
    · intro agent dim now p hp _ hash
      exact keeps_insertRow hfault (hembed op hop emb hemb) hdim hp hash

/-- A rewrite that keeps the embedding. -/
theorem fresh_sample : Fresh sampleEmbed (runOps sampleEnv
    [.remember sampleEmbedder ⟨"semantic", "fact", "sky", 1⟩ "v1" "user" 0 (1 / 2),
      .update 1 "sea" none none none] (emptyStore ℚ "a" 1)).db := by
  refine fresh_of_same_embedding sampleEnv (fun _ => rfl) sampleEmbed 1 (fun _ => rfl) _ _
    (fun op hop emb hemb => ?_) fun p hp _ => ?_
  · rcases List.mem_cons.mp hop with rfl | hop
    · obtain rfl := Option.some.inj hemb
      exact fun _ _ _ h => (Except.ok.inj h).symm
    · rw [List.mem_singleton.mp hop] at hemb
      cases hemb
  · have hrewrites : (runOps sampleEnv
        [.remember sampleEmbedder ⟨"semantic", "fact", "sky", 1⟩ "v1" "user" 0 (1 / 2),
          .update 1 "sea" none none none] (emptyStore ℚ "a" 1)).db.rewrites.map
        (fun p => (p.1.text, p.2)) = [("sky", "sea")] := by decide +kernel
    have hmem := List.mem_map_of_mem (f := fun p : Memory ℚ × String => (p.1.text, p.2)) hp
    rw [hrewrites] at hmem
    obtain ⟨hold, hnew⟩ := Prod.mk.inj (List.mem_singleton.mp hmem)
    rw [hold, hnew]
    rfl

/-- After an update the vector is that of the text before. -/
theorem update_keeps_vector :
    ¬ ∀ ops : List (Op ℚ), (∀ op ∈ ops, ∀ emb ∈ op.embedder, emb = sampleEmbedder) →
      Fresh sampleEmbed (runOps sampleEnv ops (emptyStore ℚ "a" 1)).db := by
  intro h
  have hfresh := h [.remember sampleEmbedder ⟨"semantic", "fact", "sky", 1⟩ "v1" "user" 0 (1 / 2),
    .update 1 "ocean" none none none] fun op hop emb hemb => ?_
  · have hrows : (runOps sampleEnv
        [.remember sampleEmbedder ⟨"semantic", "fact", "sky", 1⟩ "v1" "user" 0 (1 / 2),
          .update 1 "ocean" none none none] (emptyStore ℚ "a" 1)).db.memories.map
        (fun m => (m.embedStatus, m.text)) = [(.ok, "ocean")] := by decide +kernel
    have hvecs : (runOps sampleEnv
        [.remember sampleEmbedder ⟨"semantic", "fact", "sky", 1⟩ "v1" "user" 0 (1 / 2),
          .update 1 "ocean" none none none] (emptyStore ℚ "a" 1)).db.vecs.map VecRow.embedding =
        [[3]] := by decide +kernel
    have hrow := List.mem_singleton_self ((.ok, "ocean") : EmbedStatus × String)
    rw [← hrows] at hrow
    obtain ⟨m, hm, hkeys⟩ := List.mem_map.mp hrow
    obtain ⟨hok, htext⟩ := Prod.mk.inj hkeys
    obtain ⟨v, hv, _, hembed⟩ := hfresh m hm hok
    have hvec := List.mem_map_of_mem (f := VecRow.embedding) hv
    rw [hvecs, List.mem_singleton, hembed, htext] at hvec
    exact absurd hvec (by decide)
  · rcases List.mem_cons.mp hop with rfl | hop
    · exact (Option.some.inj hemb).symm
    · rw [List.mem_singleton.mp hop] at hemb
      cases hemb

end AgosMemory
