import AgosMemory.Recall.Pack
import AgosMemory.Text

/-!
# Hybrid recall

One call makes four separate reads: the query embedding, the two legs, the canonical rows of the
listed rowids (gate 2) and the fused public ids (gate 3). Other writers may commit between any two
of them, so each gate has a database of its own, and nothing is assumed about what the legs list.
-/

namespace AgosMemory.Recall

variable {F : Type} [F64 F]

/-- What the reads of one call see. A read may fail. -/
structure Reads (F : Type) where
  queryVec : Option (List F)
  legs : HardFilter → Nat → Option (List F) → Except Error (List (VecLegHit F) × List FtsLegHit)
  gate2 : Except Error (Db F)
  gate3 : Except Error (Db F)

/-- Outcome of one recall call, the measured latency aside. -/
structure RecallReport (F : Type) where
  hits : List (RecallHit F)
  tokensUsed : Nat
  tierTokens : TierTokens
  noHit : Bool
  degraded : Bool

/-- `ceil(chars / 4) * 1.15`, rounded up, with a floor of one token. -/
def heuristicCount (F : Type) [F64 F] (text : String) : Nat :=
  if text = "" then 0
  else
    let base := (text.toList.length + 3) / 4
    max 1 (F64.ceilToU64 (F64.mul (F64.ofRat base : F) (F64.ofRat (115 / 100))))

/-- A read behind a key list, which is skipped for an empty list. -/
def readKeys {κ α : Type} (db : Except Error (Db F)) (keys : List κ)
    (f : Db F → List κ → Except Error (List α)) : Except Error (List α) :=
  if keys.isEmpty then .ok [] else db.bind fun db => f db keys

/-- The candidates that rerank scores: fused from the legs and admitted by both gates. -/
def candidates (filter : HardFilter) (rows : List (CanonicalRow F)) (surviving : List String)
    (fused : List (RecallHit F)) (q : RecallQuery F) : List (RecallHit F) :=
  let admitted := fused.filter fun h => h.publicId ∈ surviving
  let hits := rerank q.weights q.halfLife filter.now admitted rows
  (hits.take q.k).filter fun h => F64.le q.minScore h.score

def packReport (q : RecallQuery F) (rows : List (CanonicalRow F)) (hits : List (RecallHit F))
    (degraded : Bool) : RecallReport F :=
  let packed := pack (heuristicCount F) q.budgetSplit q.budgetTokens hits rows
  { hits := packed.hits, tokensUsed := packed.tokensUsed, tierTokens := packed.tierTokens
    noHit := packed.hits.all fun h => !h.injected
    degraded }

/-- Run one hybrid recall at the instant `now`. -/
def recallWithClock (reads : Reads F) (agentId : String) (q : RecallQuery F) (now : Int) :
    Except Error (RecallReport F) := do
  if Text.trim q.text = "" then throw (.invalidInput "recall query text is empty")
  let filter := HardFilter.fromQuery agentId q now
  let pool := saturatingMul (max 1 q.k) RERANK_POOL_FACTOR
  let (vecHits, ftsHits) ← reads.legs filter pool reads.queryVec
  let rowids := (vecHits.map Prod.fst ++ ftsHits.map Prod.fst).dedup
  let rows ← readKeys reads.gate2 rowids (loadByRowids filter)
  let fused := fuse filter vecHits rows ftsHits
  let surviving ← readKeys reads.gate3 (fused.map RecallHit.publicId) (survivingPublicIds filter)
  return packReport q rows (candidates filter rows surviving fused q) reads.queryVec.isNone

/-! ## The steps of a successful call -/

omit [F64 F] in
theorem mem_readKeys {κ α : Type} {db : Except Error (Db F)} {keys : List κ}
    {f : Db F → List κ → Except Error (List α)} {out : List α} (h : readKeys db keys f = .ok out)
    {a : α} (ha : a ∈ out) : ∃ db', db = .ok db' ∧ f db' keys = .ok out := by
  unfold readKeys at h
  split at h
  · obtain rfl := Except.ok.inj h
    cases ha
  · cases db with
    | error e => cases h
    | ok db' => exact ⟨db', rfl, h⟩

theorem recall_steps {reads : Reads F} {agentId : String} {q : RecallQuery F} {now : Int}
    {report : RecallReport F} (h : recallWithClock reads agentId q now = .ok report) :
    ∃ rowids vecHits ftsHits rows surviving,
      readKeys reads.gate2 rowids (loadByRowids (.fromQuery agentId q now)) = .ok rows ∧
      readKeys reads.gate3 ((fuse (.fromQuery agentId q now) vecHits rows ftsHits).map
        RecallHit.publicId) (survivingPublicIds (.fromQuery agentId q now)) = .ok surviving ∧
      report = packReport q rows (candidates (.fromQuery agentId q now) rows surviving
        (fuse (.fromQuery agentId q now) vecHits rows ftsHits) q) reads.queryVec.isNone := by
  unfold recallWithClock at h
  split at h
  · cases h
  · simp only [bind, Except.bind, pure, Except.pure] at h
    split at h
    · cases h
    · next legs _ =>
      split at h
      · cases h
      · next rows hrows =>
        split at h
        · cases h
        · next surviving hsurviving =>
          exact ⟨_, legs.1, legs.2, rows, surviving, hrows, hsurviving, (Except.ok.inj h).symm⟩

/-- A candidate has a row in the gate-2 map and a public id that gate 3 returned. -/
theorem mem_candidates {filter : HardFilter} {vecHits : List (VecLegHit F)}
    {rows : List (CanonicalRow F)} {ftsHits : List FtsLegHit} {surviving : List String}
    {q : RecallQuery F} {h : RecallHit F}
    (hm : h ∈ candidates filter rows surviving (fuse filter vecHits rows ftsHits) q) :
    (∃ row, rowAt rows h.rowid = some row ∧ h.publicId = row.publicId) ∧ h.publicId ∈ surviving ∧
      h.placement = .unpacked ∧ h.tokens = 0 := by
  have hranked := List.mem_of_mem_take (List.mem_filter.mp hm).1
  obtain ⟨hit, hhit, row, rfl⟩ := mem_rerank hranked
  obtain ⟨hfused, hsurviving⟩ := List.mem_filter.mp hhit
  obtain ⟨row', hrow', hpid, hplacement, htokens⟩ := mem_fuse hfused
  exact ⟨⟨row', hrow', hpid⟩, of_decide_eq_true hsurviving, hplacement, htokens⟩

theorem candidates_nodup (filter : HardFilter) (vecHits : List (VecLegHit F))
    (rows : List (CanonicalRow F)) (ftsHits : List FtsLegHit) (surviving : List String)
    (q : RecallQuery F) :
    ((candidates filter rows surviving (fuse filter vecHits rows ftsHits) q).map
      RecallHit.rowid).Nodup := by
  have hadmitted : (((fuse filter vecHits rows ftsHits).filter fun h => h.publicId ∈ surviving).map
      RecallHit.rowid).Nodup :=
    (fuse_nodup filter vecHits rows ftsHits).sublist (List.filter_sublist.map _)
  have hranked := rerank_nodup q.weights q.halfLife filter.now rows hadmitted
  exact hranked.sublist ((List.filter_sublist.trans (List.take_sublist _ _)).map _)

/-- Packing neither adds a candidate nor changes its ids. -/
theorem mem_packReport {q : RecallQuery F} {rows : List (CanonicalRow F)}
    {hits : List (RecallHit F)} {degraded : Bool}
    (hunpacked : ∀ h ∈ hits, h.placement = .unpacked ∧ h.tokens = 0) {h : RecallHit F}
    (hm : h ∈ (packReport q rows hits degraded).hits) :
    ∃ hit ∈ hits, h.rowid = hit.rowid ∧ h.publicId = hit.publicId := by
  have hpacked := pack_packed (heuristicCount F) q.budgetSplit q.budgetTokens rows hunpacked
  have hids : h.ids ∈ (sortHits (injectionOrder rows) hits).map RecallHit.ids := by
    rw [← hpacked.ids_eq]
    exact List.mem_map_of_mem hm
  obtain ⟨hit, hhit, heq⟩ := List.mem_map.mp hids
  obtain ⟨hrowid, hpid⟩ := Prod.mk.inj heq
  exact ⟨hit, mem_sortHits.mp hhit, hrowid.symm, hpid.symm⟩

/-! ## Zero leak -/

/-- Some row of `db` with this key is admitted by the filter. -/
def AdmittedAt {κ : Type} (filter : HardFilter) (db : Db F) (key : Memory F → κ) (k : κ) : Prop :=
  ∃ m ∈ db.memories, key m = k ∧ filter.admits (rowFromSql db m) = true

omit [F64 F] in
/-- Under a unique key the admitted row is the only one. -/
theorem AdmittedAt.unique {κ : Type} {filter : HardFilter} {db : Db F} {key : Memory F → κ} {k : κ}
    (h : AdmittedAt filter db key k) (hunique : (db.memories.map key).Nodup) {m : Memory F}
    (hm : m ∈ db.memories) (hkey : key m = k) : filter.admits (rowFromSql db m) = true := by
  obtain ⟨m', hm', hkey', hadmits⟩ := h
  obtain rfl := List.inj_on_of_nodup_map hunique hm hm' (hkey.trans hkey'.symm)
  exact hadmits

/-- Every hit of a report has a rowid whose row was admitted at the gate-2 read and a public id whose
row was admitted at the gate-3 read, whatever the legs listed and whatever was written between the
reads. Public ids are unique, so one that is absent or not admitted at the gate-3 read is in no
report. -/
theorem recall_zero_leak {reads : Reads F} {agentId : String} {q : RecallQuery F} {now : Int}
    {report : RecallReport F} (h : recallWithClock reads agentId q now = .ok report)
    {hit : RecallHit F} (hm : hit ∈ report.hits) :
    ∃ db₂ db₃, reads.gate2 = .ok db₂ ∧ reads.gate3 = .ok db₃ ∧
      AdmittedAt (.fromQuery agentId q now) db₂ Memory.id hit.rowid ∧
      AdmittedAt (.fromQuery agentId q now) db₃ Memory.publicId hit.publicId ∧
      ((db₃.memories.map Memory.publicId).Nodup → ∀ m ∈ db₃.memories, m.publicId = hit.publicId →
        (HardFilter.fromQuery agentId q now).admits (rowFromSql db₃ m) = true) := by
  obtain ⟨rowids, vecHits, ftsHits, rows, surviving, hrows, hsurviving, rfl⟩ := recall_steps h
  obtain ⟨cand, hcand, hrowid, hpid⟩ := mem_packReport
    (fun c hc => (mem_candidates hc).2.2) hm
  obtain ⟨⟨row, hrow, _⟩, hpublic, _⟩ := mem_candidates hcand
  obtain ⟨db₂, hdb₂, hload₂⟩ := mem_readKeys hrows (List.mem_of_find?_eq_some hrow)
  obtain ⟨db₃, hdb₃, hload₃⟩ := mem_readKeys hsurviving hpublic
  obtain ⟨m₂, hm₂, hid, rfl, hadmits₂⟩ := rowAt_loadByRowids hload₂ hrow
  obtain ⟨m₃, hm₃, hpid₃, hadmits₃⟩ := mem_survivingPublicIds hload₃ hpublic
  have hgate3 : AdmittedAt (.fromQuery agentId q now) db₃ Memory.publicId hit.publicId :=
    ⟨m₃, hm₃, hpid₃.trans hpid.symm, hadmits₃⟩
  exact ⟨db₂, db₃, hdb₂, hdb₃, ⟨m₂, hm₂, hid.trans hrowid.symm, hadmits₂⟩, hgate3,
    fun hunique m hm hmp => hgate3.unique hunique hm hmp⟩

/-! ## A call with a write between its gates -/

def sampleMemory (id : Int) (publicId : String) (status : Status) : Memory ℚ where
  id
  publicId
  agentId := "default"
  tier := .semantic
  kind := .fact
  text := "the sky is blue"
  textHash := "hash"
  importanceCurrent := 1 / 2
  confidence := 1
  status
  trust := .trusted
  sourceKind := .user
  createdAt := 0
  updatedAt := 0

def sampleQuery : RecallQuery ℚ where
  text := "sky"
  k := 8
  budgetTokens := 100
  includeEpisodic := false
  includePending := false
  trustPolicy := .strict
  minScore := 0
  weights := ⟨7 / 10, 2 / 10, 1 / 10⟩
  halfLife := ⟨0, 0, 0, 0⟩
  budgetSplit := ⟨4 / 10, 3 / 10, 2 / 10, 1 / 10⟩

/-- Both legs list the rows `1` and `2` and a rowid without a row; `2` is deprecated before gate 3. -/
def sampleReads : Reads ℚ where
  queryVec := none
  legs _ _ _ := .ok ([(2, 0), (1, 0), (9, 0)], [(1, "m1", .semantic, .trusted)])
  gate2 := .ok { memories := [sampleMemory 1 "m1" .active, sampleMemory 2 "m2" .active] }
  gate3 := .ok { memories := [sampleMemory 1 "m1" .active, sampleMemory 2 "m2" .deprecated] }

private theorem sampleReads_report :
    ∃ report hit, recallWithClock sampleReads "default" sampleQuery 0 =
    .ok report ∧ hit ∈ report.hits ∧ hit.publicId = "m1" := by
  have hrun : ((recallWithClock sampleReads "default" sampleQuery 0).toOption.map fun r =>
      r.hits.map RecallHit.publicId) = some ["m1"] := by decide +kernel
  obtain ⟨report, hreport, hids⟩ := Option.map_eq_some_iff.mp hrun
  obtain ⟨hit, hm, hpid⟩ := List.mem_map.mp (hids ▸ List.mem_singleton_self "m1")
  refine ⟨report, hit, ?_, hm, hpid⟩
  cases hr : recallWithClock sampleReads "default" sampleQuery 0 with
  | error e => rw [hr] at hreport; cases hreport
  | ok r => rw [hr] at hreport; exact congrArg Except.ok (Option.some.inj hreport)

theorem recall_zero_leak_sample : ∃ (hit : RecallHit ℚ) (db₂ db₃ : Db ℚ), hit.publicId = "m1" ∧
    sampleReads.gate2 = .ok db₂ ∧ sampleReads.gate3 = .ok db₃ ∧
    AdmittedAt (.fromQuery "default" sampleQuery 0) db₂ Memory.id hit.rowid ∧
    AdmittedAt (.fromQuery "default" sampleQuery 0) db₃ Memory.publicId hit.publicId := by
  obtain ⟨report, hit, hrun, hm, hpid⟩ := sampleReads_report
  obtain ⟨db₂, db₃, hdb₂, hdb₃, hgate2, hgate3, _⟩ := recall_zero_leak hrun hm
  exact ⟨hit, db₂, db₃, hpid, hdb₂, hdb₃, hgate2, hgate3⟩

end AgosMemory.Recall
