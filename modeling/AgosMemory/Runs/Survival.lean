import AgosMemory.Recall.Filter
import AgosMemory.SystemEdits
import AgosMemory.Storage.Wellformed

/-!
# What a successful remember leaves behind

A fresh insert always leaves a row that holds the fact. A duplicate leaves the row it was merged into,
and that row is picked by vector distance or text hash alone: neither its agent nor, on the vector
path, its status or current text is looked at, and on the hash path not its tier.
-/

namespace AgosMemory

open Library Library.Program Store Persist Recall

variable {F : Type} [F64 F] {env : Env F} {G : Grant}

/-- Some recall of the agent, at some instant, admits a row. -/
def Reachable (agentId : String) (db : Db F) (m : Memory F) : Prop :=
  ∃ (q : RecallQuery F) (now : Int),
    (HardFilter.fromQuery agentId q now).admits (rowFromSql db m) = true

/-- The surviving row of a remember: the agent's, live, of the candidate's tier, holding the text or
one that is near it, and within reach of recall. -/
structure Survives (near : String → Prop) (agent tier text : String) (db : Db F)
    (m : Memory F) : Prop where
  agentId : m.agentId = agent
  live : m.status.live = true
  tier : m.tier.sql = tier
  text : m.text = text ∨ near m.text
  reachable : Reachable agent db m

/-- The row that a report names survives. -/
def Kept (near : String → Prop) (agent tier text : String) (db : Db F) (row : MemoryRow) : Prop :=
  ∃ m ∈ db.memories, rowOf m = row ∧ Survives near agent tier text db m

/-- The query that excludes the least. -/
def widestQuery : RecallQuery F where
  text := ""
  k := 0
  budgetTokens := 0
  includeEpisodic := true
  includePending := true
  trustPolicy := .fenced
  minScore := F64.ofRat 0
  weights := ⟨F64.ofRat 0, F64.ofRat 0, F64.ofRat 0⟩
  halfLife := ⟨F64.ofRat 0, F64.ofRat 0, F64.ofRat 0, F64.ofRat 0⟩
  budgetSplit := ⟨F64.ofRat 0, F64.ofRat 0, F64.ofRat 0, F64.ofRat 0⟩

private theorem all_iff {α : Type} {o : Option α} {p : α → Bool} :
    o.all p = true ↔ ∀ a ∈ o, p a = true := by
  cases o <;> simp

/-- Without superseded rows, a live row of the agent is out of reach only if it was referenced before
it was created. -/
private theorem reachable_iff {db : Db F} (hdb : Wellformed env db) {agent : String} {m : Memory F}
    (hm : m ∈ db.memories) (hagent : m.agentId = agent) (hlive : m.status.live = true) :
    Reachable agent db m ↔ ∀ t ∈ m.lastReferencedAt, m.createdAt ≤ t := by
  have hsuccessor : successorId db m = none := by
    rw [successorId, Option.map_eq_none_iff, List.find?_eq_none]
    intro s hs hsome
    rw [(hdb.noSuccessor s hs).1] at hsome
    exact absurd (of_decide_eq_true hsome) (by simp)
  constructor
  · rintro ⟨q, now, h⟩ t ht
    have hlast := all_iff.mp (Bool.and_eq_true_iff.mp h).2
    exact of_decide_eq_true (hlast t ht)
  · intro h
    refine ⟨widestQuery, m.expiresAt.getD 0 - 1, ?_⟩
    have hexpires : (m.expiresAt.all fun e => decide (m.expiresAt.getD 0 - 1 < e)) = true := by
      cases m.expiresAt with
      | none => rfl
      | some e => exact decide_eq_true (by show e - 1 < e; omega)
    have hlast : (m.lastReferencedAt.all fun t => decide (m.createdAt ≤ t)) = true :=
      all_iff.mpr fun t ht => decide_eq_true (h t ht)
    have htier : m.tier ∈ eligibleTiers true := by cases m.tier <;> decide
    have htrust : m.trust ∈ eligibleTrusts .fenced := by cases m.trust <;> decide
    have hstatus : m.status ∈ eligibleStatuses true := by
      revert hlive
      cases m.status <;> decide
    have hsuperseded : m.supersededById.isNone = true := by rw [(hdb.noSuccessor m hm).2]; rfl
    have hfollowed : (successorId db m).isNone = true := by rw [hsuccessor]; rfl
    simp only [HardFilter.admits, Bool.and_eq_true, decide_eq_true_eq]
    exact ⟨⟨⟨⟨⟨⟨⟨hagent, htier⟩, hstatus⟩, htrust⟩, hexpires⟩, hsuperseded⟩, hfollowed⟩, hlast⟩

/-! ## The row of a fresh insert -/

private theorem live_of_fresh {status : Status} {low : Bool}
    (h : status.sql = if low then "pending" else "active") : status.live = true := by
  cases low <;> cases status <;> first | rfl | exact absurd h (by decide)

private theorem kept_of_fresh {near : String → Prop} {cand : Candidate F}
    {text ev sk publicId : String}
    {pending : F} {e : Embedded} {now : Int} {agent : String} {db' : Db F} {m : Memory F}
    (hbuilt : ∃ id, Built (freshRow env agent publicId cand text ev sk pending e now) id m)
    (hm : m ∈ db'.memories) (hdb' : Wellformed env db') :
    Kept near agent cand.tier text db' (rowOf m) := by
  obtain ⟨id, hbuilt⟩ := hbuilt
  have hlive : m.status.live = true := live_of_fresh hbuilt.status
  refine ⟨m, hm, rfl, hbuilt.agentId, hlive, hbuilt.tier, .inl hbuilt.text,
    (reachable_iff hdb' hm hbuilt.agentId hlive).mpr fun t ht => ?_⟩
  rw [hbuilt.lastReferencedAt] at ht
  cases ht

/-! ## The row of a bump -/

/-- What a row must be for a duplicate to be merged into it without losing the fact. -/
structure Mergeable (near : String → Prop) (agent tier text : String) (now : Int)
    (m : Memory F) : Prop where
  agentId : m.agentId = agent
  live : m.status.live = true
  tier : m.tier.sql = tier
  text : m.text = text ∨ near m.text
  created : m.createdAt ≤ now

private theorem kept_bump_iff {near : String → Prop} {shape : BumpShape} {id : Int} {source : String}
    {now : Int} {agent tier text : String} {s t : Conn F} {m m' : Memory F}
    (hs : Wellformed env s.db) (ht : Wellformed env t.db)
    (h : bump env shape id source now s = (.ok (), t)) (hm : s.db.memory? id = some m)
    (hm' : t.db.memory? id = some m') :
    Kept near agent tier text t.db (rowOf m') ↔ Mergeable near agent tier text now m := by
  obtain ⟨m₀, sk, cluster, hm₀, hmem⟩ := bump_ok h
  obtain rfl := Option.some.inj (hm.symm.trans hm₀)
  obtain ⟨hmem', hid'⟩ := memory?_some hm'
  -- the row after the bump is the chosen row, referenced now
  obtain ⟨m₁, hm₁, hrow⟩ := mem_updateMemory.mp (hmem ▸ hmem')
  have hid₁ : m₁.id = id := by
    rw [hrow] at hid'
    split at hid'
    · assumption
    · exact hid'
  have hsame : m₁ = m := by
    have hfound := hs.memory? hm₁
    rw [hid₁, hm] at hfound
    exact (Option.some.inj hfound).symm
  rw [if_pos hid₁, hsame] at hrow
  have hagentId : m'.agentId = m.agentId := by rw [hrow]; rfl
  have hstatus : m'.status = m.status := by rw [hrow]; rfl
  have htier : m'.tier = m.tier := by rw [hrow]; rfl
  have htext : m'.text = m.text := by rw [hrow]; rfl
  have hcreated : m'.createdAt = m.createdAt := by rw [hrow]; rfl
  have hlast : m'.lastReferencedAt = some now := by rw [hrow]; rfl
  have hreach : m'.agentId = agent → m'.status.live = true →
      (Reachable agent t.db m' ↔ m.createdAt ≤ now) := by
    intro hagent hlive
    rw [reachable_iff ht hmem' hagent hlive, hlast, hcreated]
    exact ⟨fun hall => hall now rfl, fun hle u hu => Option.some.inj hu ▸ hle⟩
  constructor
  · rintro ⟨m₂, hm₂, hrowOf, hsurvives⟩
    have hid₂ : m₂.id = m'.id := congrArg MemoryRow.id hrowOf
    obtain rfl := List.inj_on_of_nodup_map ht.ids hm₂ hmem' hid₂
    exact ⟨hagentId ▸ hsurvives.agentId, hstatus ▸ hsurvives.live, htier ▸ hsurvives.tier,
      htext ▸ hsurvives.text, (hreach hsurvives.agentId hsurvives.live).mp hsurvives.reachable⟩
  · intro hmerge
    have hagent : m'.agentId = agent := hagentId.trans hmerge.agentId
    have hlive : m'.status.live = true := hstatus ▸ hmerge.live
    exact ⟨m', hmem', rfl, hagent, hlive, htier ▸ hmerge.tier, htext ▸ hmerge.text,
      (hreach hagent hlive).mpr hmerge.created⟩

/-! ## Both paths -/

/-- The chosen row has a vector of the candidate's tier. -/
private theorem duplicateOf_some {db : Db F} {q : List F} {tier : String} {dedup : F} {id : Int}
    (h : duplicateOf env db q tier dedup = some id) :
    ∃ v ∈ db.vecs, v.rowid = id ∧ v.tier.sql = tier := by
  unfold duplicateOf at h
  split at h
  · next rowid dist hhead =>
    split at h
    · obtain rfl := Option.some.inj h
      obtain ⟨v, hv, htier, heq⟩ := mem_knn (List.mem_of_mem_head? hhead)
      exact ⟨v, hv, (Prod.mk.inj heq).1.symm, htier⟩
    · cases h
  · cases h

section

variable {near : String → Prop} {c c' : Conn F} {report : PersistReport} {cand : Candidate F}
  {ev sk : String} {pending : F}

/-- A duplicate that was bumped and read back. -/
private theorem kept_of_bump {shape : BumpShape} {id : Int} {now : Int} {agent tier text : String}
    {s t : Conn F} (hs : Wellformed env s.db) (ht : Wellformed env t.db)
    (h : (bump env shape id sk now >>= fun _ => query env (fun db => one (db.memory? id)) >>= fun row =>
      pure ⟨rowOf row, true⟩) s = (.ok report, t)) {m : Memory F} (hm : s.db.memory? id = some m) :
    Kept near agent tier text t.db report.row ↔ Mergeable near agent tier text now m := by
  obtain ⟨_, s₁, hbump, h⟩ := bind_ok h
  obtain ⟨row, s₂, hquery, h⟩ := bind_ok h
  obtain ⟨rfl, rfl⟩ := pure_ok h
  obtain ⟨hfound, hs₂⟩ := query_ok hquery
  have hrow := one_ok hfound
  rw [hs₂] at ht ⊢
  exact kept_bump_iff hs ht hbump hm hrow

/-- What the vector path must find: the agent's own live row, whose current text is the fact or near
it. The tier is that of the vector. -/
structure GoodNeighbour (near : String → Prop) (agent text : String) (now : Int) (m : Memory F) :
    Prop where
  agentId : m.agentId = agent
  live : m.status.live = true
  text : m.text = text ∨ near m.text
  created : m.createdAt ≤ now

private theorem persistFull_kept_iff (hdb : Wellformed env c.db) {emb : Embedder F}
    {embed : String → List F}
    (hembed : ∀ n texts vecs, emb.embed n texts = .ok vecs → vecs = texts.map embed) {dedup : F}
    (h : persistCandidateFull env emb cand ev sk pending dedup c = (.ok report, c')) :
    Kept near c.agentId cand.tier (Redact.redact cand.text) c'.db report.row ↔
      ∀ id ∈ duplicateOf env c.db (embed (Redact.redact cand.text)) cand.tier dedup,
        ∀ m ∈ c.db.memory? id,
          GoodNeighbour near c.agentId (Redact.redact cand.text) (env.clock c.ticks) m := by
  have hdb' : Wellformed env c'.db := by
    have hran : Ran env (.storing (fun _ => True) True) c
        (persistCandidateFull env emb cand ev sk pending dedup c).2 :=
      moves_persistFull (stepRules_ran fun _ => trivial).toRules (inserts_ran (fun _ => trivial) emb) c
    rw [h] at hran
    exact hran.preserves (fun _ _ => Edit.wellformed) hdb
  unfold persistCandidateFull at h
  obtain ⟨vecs, s₁, hcall, h⟩ := bind_ok h
  obtain ⟨hvecs, rfl⟩ := Prod.mk.inj hcall
  obtain rfl := hembed _ _ _ hvecs
  obtain ⟨now, s₂, hnow, h⟩ := bind_ok h
  obtain ⟨hclock, rfl⟩ := Prod.mk.inj hnow
  obtain rfl := Except.ok.inj hclock
  obtain ⟨chosen, s₃, hchosen', h⟩ := bind_ok h
  obtain ⟨hchosen, hs₃⟩ := query_ok hchosen'
  have hchosen : duplicateOf env c.db (embed (Redact.redact cand.text)) cand.tier dedup = chosen :=
    Except.ok.inj hchosen
  have hs₃ : s₃.db = c.db := hs₃
  have hagent : s₃.agentId = c.agentId := (exec_cases hchosen').1
  cases chosen with
  | none =>
    refine iff_of_true ?_ fun id hid => ?_
    · obtain ⟨m, s₄, hfresh, h⟩ := bind_ok h
      obtain ⟨publicId, db, hrow, hversion, -⟩ := insertFresh_ok hfresh
      obtain ⟨_, s₅, hvec, h⟩ := bind_ok h
      obtain ⟨rfl, rfl⟩ := pure_ok h
      obtain ⟨hbuilt, _, hdb₄⟩ := insertMemoryRow_ok hrow
      have hmem : m ∈ s₅.db.memories := by
        rw [(insertVec_ok (exec_ok hvec)).2, memories_of_insertVersion hversion, hdb₄]
        exact List.mem_append_right _ (List.mem_singleton_self m)
      rw [hagent] at hbuilt
      exact kept_of_fresh ⟨_, hbuilt⟩ hmem hdb'
    · rw [hchosen] at hid
      cases hid
  | some id =>
    have hdb₃ : Wellformed env s₃.db := hs₃ ▸ hdb
    obtain ⟨_, s₄, hbump, _⟩ := bind_ok h
    obtain ⟨m, _, _, hm, _⟩ := bump_ok hbump
    have hmc : c.db.memory? id = some m := hs₃ ▸ hm
    rw [kept_of_bump hdb₃ hdb' h hm]
    have htier : m.tier.sql = cand.tier := by
      obtain ⟨v, hv, hrowid, htier⟩ := duplicateOf_some hchosen
      obtain ⟨m', hm', hid', _, htier', _⟩ := hdb.vecs v hv
      obtain ⟨hmem, hid⟩ := memory?_some hmc
      obtain rfl := List.inj_on_of_nodup_map hdb.ids hm' hmem
        (hid'.trans (hrowid.trans hid.symm))
      rw [htier', htier]
    constructor
    · intro hmerge id' hid' m' hm'
      obtain rfl := Option.some.inj (hchosen.symm.trans hid')
      obtain rfl := Option.some.inj (hmc.symm.trans hm')
      exact ⟨hmerge.agentId, hmerge.live, hmerge.text, hmerge.created⟩
    · intro hgood
      have hgood := hgood id hchosen m hmc
      exact ⟨hgood.agentId, hgood.live, htier, hgood.text, hgood.created⟩

/-- What the hash path must find: the agent's own row of the candidate's tier, with the text that
the hash stands for. -/
structure GoodMatch (near : String → Prop) (agent tier text : String) (now : Int) (m : Memory F) :
    Prop where
  agentId : m.agentId = agent
  tier : m.tier.sql = tier
  text : m.text = text ∨ near m.text
  created : m.createdAt ≤ now

private theorem persistNoVector_kept_iff (hdb : Wellformed env c.db)
    {status : EmbedStatus} (hstatus : status ≠ .ok)
    (h : persistCandidateNoVector env cand ev sk pending status c = (.ok report, c')) :
    Kept near c.agentId cand.tier (Redact.redact cand.text) c'.db report.row ↔
      ∀ m ∈ sameHash c.db (env.sha256Hex (Redact.redact cand.text)),
        GoodMatch near c.agentId cand.tier (Redact.redact cand.text) (env.clock c.ticks) m := by
  have hdb' : Wellformed env c'.db := by
    have hran : Ran env (.storing (fun _ => True) True) c
        (persistCandidateNoVector env cand ev sk pending status c).2 :=
      moves_persistNoVector (stepRules_ran fun _ => trivial).toRules hstatus c
    rw [h] at hran
    exact hran.preserves (fun _ _ => Edit.wellformed) hdb
  unfold persistCandidateNoVector at h
  obtain ⟨now, s₂, hnow, h⟩ := bind_ok h
  obtain ⟨hclock, rfl⟩ := Prod.mk.inj hnow
  obtain rfl := Except.ok.inj hclock
  obtain ⟨chosen, s₃, hchosen', h⟩ := bind_ok h
  obtain ⟨hchosen, hs₃⟩ := query_ok hchosen'
  have hchosen : (sameHash c.db (env.sha256Hex (Redact.redact cand.text))).map Memory.id = chosen :=
    Except.ok.inj hchosen
  have hs₃ : s₃.db = c.db := hs₃
  have hagent : s₃.agentId = c.agentId := (exec_cases hchosen').1
  cases hfound : sameHash c.db (env.sha256Hex (Redact.redact cand.text)) with
  | none =>
    rw [hfound] at hchosen
    obtain rfl := hchosen
    refine iff_of_true ?_ fun m hm => by cases hm
    obtain ⟨m, s₄, hfresh, h⟩ := bind_ok h
    obtain ⟨publicId, db, hrow, hversion, -⟩ := insertFresh_ok hfresh
    obtain ⟨rfl, rfl⟩ := pure_ok h
    obtain ⟨hbuilt, _, hdb₄⟩ := insertMemoryRow_ok hrow
    have hmem : m ∈ s₄.db.memories := by
      rw [memories_of_insertVersion hversion, hdb₄]
      exact List.mem_append_right _ (List.mem_singleton_self m)
    rw [hagent] at hbuilt
    exact kept_of_fresh ⟨_, hbuilt⟩ hmem hdb'
  | some m =>
    rw [hfound] at hchosen
    obtain rfl := hchosen
    have hmem := List.mem_of_find?_eq_some hfound
    have hmatch := List.find?_some hfound
    obtain ⟨-, hlive⟩ := of_decide_eq_true hmatch
    have hm : s₃.db.memory? m.id = some m := hs₃ ▸ hdb.memory? hmem
    rw [kept_of_bump (hs₃ ▸ hdb) hdb' h hm]
    constructor
    · intro hmerge m' hm'
      obtain rfl := Option.some.inj hm'
      exact ⟨hmerge.agentId, hmerge.tier, hmerge.text, hmerge.created⟩
    · intro hgood
      have hgood := hgood m rfl
      exact ⟨hgood.agentId, hlive, hgood.tier, hgood.text, hgood.created⟩

end

/-! ## Over every history of the store -/

/-- A text whose embedding passes the dedup threshold against that of `text`. -/
def Near (env : Env F) (embed : String → List F) (dedup : F) (text other : String) : Prop :=
  F64.lt dedup (similarity (env.distance (embed other) (embed text))) = true

/-- In every reachable store a successful remember leaves the fact in the store and within reach
exactly when the row it was merged into, if any, was a fit one. -/
theorem remember_keeps_iff (env : Env F) (ops : List (Op F)) (agentId : String) (embedDim : Nat)
    (emb : Embedder F) (embed : String → List F)
    (hembed : ∀ n texts vecs, emb.embed n texts = .ok vecs → vecs = texts.map embed)
    (cand : Candidate F) (ev sk : String) (pending dedup : F) :
    let c := runOps env ops (emptyStore F agentId embedDim)
    let text := Redact.redact cand.text
    let near := Near env embed dedup text
    (∀ report c', persistCandidateFull env emb cand ev sk pending dedup c = (.ok report, c') →
      (Kept near c.agentId cand.tier text c'.db report.row ↔
        ∀ id ∈ duplicateOf env c.db (embed text) cand.tier dedup, ∀ m ∈ c.db.memory? id,
          GoodNeighbour near c.agentId text (env.clock c.ticks) m)) ∧
    ∀ status, status ≠ .ok → ∀ report c',
      persistCandidateNoVector env cand ev sk pending status c = (.ok report, c') →
      (Kept near c.agentId cand.tier text c'.db report.row ↔
        ∀ m ∈ sameHash c.db (env.sha256Hex text),
          GoodMatch near c.agentId cand.tier text (env.clock c.ticks) m) := by
  intro c text near
  have hran : Ran env (.storing (fun _ => True) True) (emptyStore F agentId embedDim) c :=
    runOps_ran (fun _ => trivial) (fun _ _ _ _ => trivial) _
  have hc : Wellformed env c.db :=
    hran.preserves (fun _ _ => Edit.wellformed) (Wellformed.empty embedDim)
  exact ⟨fun report c' h => persistFull_kept_iff hc hembed h,
    fun status hstatus report c' h => persistNoVector_kept_iff hc hstatus h⟩

private theorem sampleEmbedder_ok (n : Nat) (texts : List String) (vecs : List (List ℚ))
    (h : sampleEmbedder.embed n texts = .ok vecs) : vecs = texts.map sampleEmbed :=
  (Except.ok.inj h).symm

/-- The second of two equal facts is kept in the row of the first. -/
theorem remember_keeps_sample :
    let fact : Candidate ℚ := ⟨"semantic", "fact", "sky", 1⟩
    let c := runOps sampleEnv [.remember sampleEmbedder fact "v1" "user" 0 (1 / 2)]
      (emptyStore ℚ "a" 1)
    ∃ report c', persistCandidateFull sampleEnv sampleEmbedder fact "v1" "user" 0 (1 / 2) c =
        (.ok report, c') ∧
      Kept (Near sampleEnv sampleEmbed (1 / 2) (Redact.redact "sky")) "a" "semantic"
        (Redact.redact "sky") c'.db report.row := by
  intro fact c
  have hok : (persistCandidateFull sampleEnv sampleEmbedder fact "v1" "user" 0 (1 / 2)
      c).1.toOption.isSome = true := by decide +kernel
  have hgood : ∀ id ∈ duplicateOf sampleEnv c.db (sampleEmbed (Redact.redact "sky")) "semantic"
      (1 / 2), ∀ m ∈ c.db.memory? id, m.agentId = "a" ∧ m.status.live = true ∧
        m.text = Redact.redact "sky" ∧ m.createdAt ≤ sampleEnv.clock c.ticks := by decide +kernel
  cases hrun : persistCandidateFull sampleEnv sampleEmbedder fact "v1" "user" 0 (1 / 2) c with
  | mk r c' =>
    rw [hrun] at hok
    cases r with
    | error e => cases hok
    | ok report =>
      refine ⟨report, c', rfl, ?_⟩
      have hkept := (remember_keeps_iff sampleEnv
        [.remember sampleEmbedder fact "v1" "user" 0 (1 / 2)] "a" 1 sampleEmbedder sampleEmbed
        sampleEmbedder_ok fact "v1" "user" 0 (1 / 2)).1 report c' hrun
      refine hkept.mpr fun id hid m hm => ?_
      obtain ⟨hagent, hlive, htext, hcreated⟩ := hgood id hid m hm
      exact ⟨hagent, hlive, .inl htext, hcreated⟩

/-- A fact that was deprecated and is remembered again is merged into the deprecated row. -/
theorem remember_into_deprecated :
    ¬ ∀ (ops : List (Op ℚ)) (cand : Candidate ℚ) (report : PersistReport) (c' : Conn ℚ),
      persistCandidateFull sampleEnv sampleEmbedder cand "v1" "user" 0 (1 / 2)
        (runOps sampleEnv ops (emptyStore ℚ "a" 1)) = (.ok report, c') →
      Kept (Near sampleEnv sampleEmbed (1 / 2) (Redact.redact cand.text)) "a" cand.tier
        (Redact.redact cand.text) c'.db report.row := by
  intro h
  have hrow : (persistCandidateFull sampleEnv sampleEmbedder ⟨"semantic", "fact", "sky", 1⟩ "v1"
      "user" 0 (1 / 2) (runOps sampleEnv
        [.remember sampleEmbedder ⟨"semantic", "fact", "sky", 1⟩ "v1" "user" 0 (1 / 2),
          .deprecateMemory 1 none] (emptyStore ℚ "a" 1))).1.toOption.map (fun r => r.row.status) =
        some .deprecated := by decide +kernel
  cases hrun : persistCandidateFull sampleEnv sampleEmbedder ⟨"semantic", "fact", "sky", 1⟩ "v1"
      "user" 0 (1 / 2) (runOps sampleEnv
        [.remember sampleEmbedder ⟨"semantic", "fact", "sky", 1⟩ "v1" "user" 0 (1 / 2),
          .deprecateMemory 1 none] (emptyStore ℚ "a" 1)) with
  | mk r c' =>
    rw [hrun] at hrow
    cases r with
    | error e => cases hrow
    | ok report =>
      obtain ⟨m, _, hm, hsurvives⟩ := h _ _ report c' hrun
      have hrow : report.row.status = .deprecated := Option.some.inj hrow
      have hstatus : m.status = .deprecated := (congrArg MemoryRow.status hm).trans hrow
      have hlive := hsurvives.live
      rw [hstatus] at hlive
      cases hlive

end AgosMemory
