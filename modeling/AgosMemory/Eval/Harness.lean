import AgosMemory.Cli.Plan
import AgosMemory.Recall.Recall

/-!
# The eval harness

Cases are validated, each one seeds a store of its own through the write path and is answered by recall,
and the outcomes are scored twice: per case, and over all cases for the gate.
-/

namespace AgosMemory.Eval

open Library Library.Program Store

variable {F : Type} [F64 F]

/-! ## Cases -/

/-- One candidate memory available to a case. -/
structure CorpusItem where
  id : String
  text : String
  sourceKind : String := "user"
  deprecated : Bool := false

structure EvalCase where
  id : String
  query : String
  relevant : List String
  forbidden : List String := []
  corpus : List CorpusItem
  k : Option Nat := none

def rejected (case : EvalCase) (msg : String) : Error :=
  .invalidInput ("eval case '" ++ case.id ++ "': " ++ msg)

/-- The items of a corpus: the ids seen, or the first item with an empty text or an id seen before. -/
def validateCorpus (case : EvalCase) : List CorpusItem → List String → Except Error (List String)
  | [], seen => .ok seen
  | item :: corpus, seen =>
    if Text.trim item.text = "" then
      .error (rejected case ("corpus item '" ++ item.id ++ "' has empty text"))
    else if item.id ∈ seen then .error (rejected case ("duplicate corpus id '" ++ item.id ++ "'"))
    else validateCorpus case corpus (seen ++ [item.id])

def validateCase (case : EvalCase) : Except Error Unit :=
  if case.corpus.isEmpty then
    .error (rejected case "corpus is empty — the case cannot be searched")
  else if case.relevant.isEmpty then
    .error (rejected case "relevant set is empty — nothing to score")
  else do
    let seen ← validateCorpus case case.corpus []
    match (case.relevant ++ case.forbidden).find? fun id => id ∉ seen with
    | some id => .error (rejected case ("id '" ++ id ++ "' is referenced but not in the corpus"))
    | none =>
      match case.relevant.find? fun id => id ∈ case.forbidden with
      | some dup => .error (rejected case ("id '" ++ dup ++ "' is both relevant and forbidden"))
      | none => if case.k = some 0 then .error (rejected case "k must be > 0") else .ok ()

/-- Reject fixtures that cannot produce a meaningful score. -/
def validateCases : List EvalCase → Except Error Unit
  | [] => .ok ()
  | case :: cases => do
    validateCase case
    validateCases cases

/-! ## Scores -/

/-- A count `as f64`. -/
def ofCount (n : Nat) : F := F64.ofRat n

structure CaseResult where
  returned : List String
  relevant : List String
  forbidden : List String

structure Metrics (F : Type) where
  precision : F
  «recall» : F
  mrr : F
  leaks : Nat
  cases : Nat

/-- The sums of the aggregation loop. -/
structure Sums (F : Type) where
  precision : F
  «recall» : F
  mrr : F
  leaks : Nat

def Sums.zero : Sums F := ⟨F64.ofRat 0, F64.ofRat 0, F64.ofRat 0, 0⟩

/-- One pass of the loop. -/
def Sums.add (s : Sums F) (r : CaseResult) : Sums F :=
  let hits : F := ofCount (r.returned.countP fun id => id ∈ r.relevant)
  { precision := if r.returned.isEmpty then s.precision
      else F64.add s.precision (F64.div hits (ofCount r.returned.length))
    «recall» := if r.relevant.isEmpty then s.«recall»
      else F64.add s.«recall» (F64.div hits (ofCount r.relevant.length))
    mrr := match r.returned.findIdx? fun id => id ∈ r.relevant with
      | none => s.mrr
      | some rank => F64.add s.mrr (F64.div (F64.ofRat 1) (ofCount (rank + 1)))
    leaks := s.leaks + r.returned.countP fun id => id ∈ r.forbidden }

def Metrics.aggregate (results : List CaseResult) : Metrics F :=
  let n : F := ofCount results.length
  let sums := results.foldl Sums.add Sums.zero
  { precision := F64.div sums.precision n
    «recall» := F64.div sums.«recall» n
    mrr := F64.div sums.mrr n
    leaks := sums.leaks
    cases := results.length }

/-- Check against thresholds; a failure description when one is unmet. -/
def Metrics.check (m : Metrics F) (minPrecision minRecall minMrr : F) : Except String Unit :=
  if m.leaks ≠ 0 then
    .error (toString m.leaks ++ " forbidden leak(s) — forbidden ids must never surface")
  else if F64.lt m.precision minPrecision then
    .error ("precision " ++ F64.fixed 3 m.precision ++ " < " ++ F64.fixed 3 minPrecision)
  else if F64.lt m.«recall» minRecall then
    .error ("recall " ++ F64.fixed 3 m.«recall» ++ " < " ++ F64.fixed 3 minRecall)
  else if F64.lt m.mrr minMrr then
    .error ("mrr " ++ F64.fixed 3 m.mrr ++ " < " ++ F64.fixed 3 minMrr)
  else .ok ()

/-- One case's scored outcome. -/
structure CaseOutcome where
  id : String
  query : String
  returned : List String
  relevant : List String
  forbidden : List String
  missed : List String
  leaked : List String
  deriving DecidableEq

/-- Precision at the injected set. -/
def CaseOutcome.precision (o : CaseOutcome) : F :=
  if o.returned.isEmpty then F64.ofRat 0
  else F64.div (ofCount (o.returned.countP fun id => id ∈ o.relevant)) (ofCount o.returned.length)

/-- Recall over the relevant set. -/
def CaseOutcome.«recall» (o : CaseOutcome) : F :=
  if o.relevant.isEmpty then F64.ofRat 0
  else F64.div (ofCount (o.relevant.countP fun id => id ∈ o.returned)) (ofCount o.relevant.length)

/-! ## The runner -/

/-- What the run of one case calls: its store, its embedder, the two legs and the settings. -/
structure Lab (F : Type) where
  env : Env F
  emb : Embedder F
  agentId : String
  embedDim : Nat
  now : Int
  queryVec : Option (List F)
  legs : Db F → Recall.HardFilter → Nat → Option (List F) →
    Except Error (List (Recall.VecLegHit F) × List Recall.FtsLegHit)
  pendingThreshold : F
  dedupThreshold : F
  /-- `[recall]`, where `k` is `top_k`. -/
  «recall» : Recall.RecallQuery F

def EVAL_EXTRACTOR_VERSION : String := "eval-v1"

/-- `HashMap::insert` of fixture id to stored id. -/
def assign (mapping : List (String × String)) (logical publicId : String) : List (String × String) :=
  (mapping.filter fun e => e.1 ≠ logical) ++ [(logical, publicId)]

/-- The reverse lookup. Stored ids are unique, so at most one entry has this one. -/
def logicalOf (mapping : List (String × String)) (publicId : String) : Option String :=
  (mapping.find? fun e => e.2 = publicId).map Prod.fst

def candidateOf (item : CorpusItem) : Persist.Candidate F :=
  ⟨"semantic", "fact", item.text, F64.ofRat 1⟩

/-- Seed one item of the corpus. -/
def seedItem (lab : Lab F) (case : EvalCase) (mapping : List (String × String)) (item : CorpusItem) :
    Write F (List (String × String)) := do
  let report ← Persist.persistCandidateFull lab.env lab.emb (candidateOf item) EVAL_EXTRACTOR_VERSION
    item.sourceKind lab.pendingThreshold lab.dedupThreshold
  if report.deduped then
    fail (rejected case ("corpus item '" ++ item.id ++ "' deduped into an earlier item — " ++
      "corpus items must be distinct enough to store separately"))
  else do
    onlyIf item.deprecated (deprecateMemory lab.env report.row.id (some "eval-fixture"))
    return assign mapping item.id report.row.publicId

/-- The reads of the recall: nothing else writes to the store of a case. -/
def readsOf (lab : Lab F) (db : Db F) : Recall.Reads F := ⟨lab.queryVec, lab.legs db, .ok db, .ok db⟩

/-- The query of a case, with its injection target. -/
def queryOf (lab : Lab F) (case : EvalCase) : Recall.RecallQuery F :=
  { lab.«recall» with text := case.query, k := max (case.k.getD lab.«recall».k) 1 }

/-- The fixture ids of what was injected, in order. -/
def returnedIds (mapping : List (String × String)) (report : Recall.RecallReport F) : List String :=
  (report.hits.filter Recall.RecallHit.injected).filterMap fun h => logicalOf mapping h.publicId

def outcomeOf (case : EvalCase) (returned : List String) : CaseOutcome where
  id := case.id
  query := case.query
  returned
  relevant := case.relevant
  forbidden := case.forbidden
  missed := case.relevant.filter fun id => id ∉ returned
  leaked := case.forbidden.filter fun id => id ∈ returned

/-- One case: fresh database, seed the corpus, recall, score. -/
def runCase (lab : Lab F) (case : EvalCase) : Except Error CaseOutcome :=
  if lab.embedDim ≠ lab.emb.dim then
    .error (.embeddingMismatch lab.emb.model lab.embedDim lab.emb.model lab.emb.dim)
  else
    match foldEach case.corpus [] (seedItem lab case) (emptyStore F lab.agentId lab.embedDim) with
    | (.error e, _) => .error e
    | (.ok mapping, c) => do
      let report ← Recall.recallWithClock (readsOf lab c.db) lab.agentId (queryOf lab case) lab.now
      return outcomeOf case (returnedIds mapping report)

/-- Run every case, each in a lab of its own. -/
def runAll (labs : Nat → Lab F) : List EvalCase → Nat → Except Error (List CaseOutcome)
  | [], _ => .ok []
  | case :: cases, n => do
    let outcome ← runCase (labs n) case
    let outcomes ← runAll labs cases (n + 1)
    return outcome :: outcomes

/-- Map per-case outcomes onto the scoring form. -/
def aggregatedResults (outcomes : List CaseOutcome) : List CaseResult :=
  outcomes.map fun o => ⟨o.returned, o.relevant, o.forbidden⟩

structure EvalRun (F : Type) where
  metrics : Metrics F
  outcomes : List CaseOutcome

def run (labs : Nat → Lab F) (cases : List EvalCase) : Except Error (EvalRun F) := do
  let outcomes ← runAll labs cases 0
  return ⟨Metrics.aggregate (aggregatedResults outcomes), outcomes⟩

/-! ## What the runner produces -/

/-- An outcome as the runner builds it: nothing is returned twice, and what was missed and what leaked
is read off what was returned. -/
structure Produced (case : EvalCase) (o : CaseOutcome) : Prop where
  nodup : o.returned.Nodup
  eq : o = outcomeOf case o.returned

private theorem assign_keys {mapping : List (String × String)} (h : (mapping.map Prod.fst).Nodup)
    (logical publicId : String) : ((assign mapping logical publicId).map Prod.fst).Nodup := by
  unfold assign
  rw [List.map_append, List.nodup_append]
  refine ⟨h.sublist (List.filter_sublist.map _), List.nodup_singleton _, fun a ha b hb => ?_⟩
  obtain ⟨e, he, rfl⟩ := List.mem_map.mp ha
  obtain rfl := List.mem_singleton.mp hb
  exact of_decide_eq_true (List.mem_filter.mp he).2

/-- A fixture id stands for one stored id. -/
private theorem logicalOf_inj {mapping : List (String × String)} (h : (mapping.map Prod.fst).Nodup)
    {p q logical : String} (hp : logicalOf mapping p = some logical)
    (hq : logicalOf mapping q = some logical) : p = q := by
  obtain ⟨e, he, hel⟩ := Option.map_eq_some_iff.mp hp
  obtain ⟨e', he', hel'⟩ := Option.map_eq_some_iff.mp hq
  have hmem := List.mem_of_find?_eq_some he
  have hmem' := List.mem_of_find?_eq_some he'
  obtain rfl := List.inj_on_of_nodup_map h hmem hmem' (hel.trans hel'.symm)
  have hep : e.2 = p := by simpa using List.find?_some he
  have heq : e.2 = q := by simpa using List.find?_some he'
  exact hep.symm.trans heq

/-- The seeded store is sound, and each fixture id stands for one stored id. -/
private theorem seed_ok {lab : Lab F} {case : EvalCase} {corpus : List CorpusItem}
    {mapping mapping' : List (String × String)} {c c' : Conn F}
    (hkeys : (mapping.map Prod.fst).Nodup) (hdb : Wellformed lab.env c.db)
    (h : foldEach corpus mapping (seedItem lab case) c = (.ok mapping', c')) :
    (mapping'.map Prod.fst).Nodup ∧ Wellformed lab.env c'.db := by
  induction corpus generalizing mapping c with
  | nil =>
    obtain ⟨rfl, rfl⟩ := pure_ok h
    exact ⟨hkeys, hdb⟩
  | cons item corpus ih =>
    obtain ⟨next, c₁, hitem, hrest⟩ := bind_ok h
    have hmoves : Moves (Edits lab.env Export.importGrant) (seedItem lab case mapping item) := by
      unfold seedItem
      refine moves_bind (moves_persistFull Export.importRules
        (Inserts.of_edits (fun _ _ h => h) (fun _ => trivial) trivial lab.emb)) fun report => ?_
      split
      · exact moves_fail _
      · exact moves_bind (moves_onlyIf (moves_deprecate trivial)) fun _ => moves_pure _
    have hedits := (hmoves c).db
    rw [hitem] at hedits
    have hdb₁ : Wellformed lab.env c₁.db :=
      preserves_of_edits hedits (fun _ _ => Edit.wellformed) hdb
    have hkeys₁ : (next.map Prod.fst).Nodup := by
      unfold seedItem at hitem
      obtain ⟨report, _, _, hitem⟩ := bind_ok hitem
      split at hitem
      · cases hitem
      · obtain ⟨_, _, _, hitem⟩ := bind_ok hitem
        rw [← (pure_ok hitem).1]
        exact assign_keys hkeys _ _
    exact ih hkeys₁ hdb₁ hrest

/-- The hits of a recall on one store have different stored ids. -/
private theorem report_nodup {lab : Lab F} {db : Db F} (hdb : Wellformed lab.env db)
    {agentId : String}
    {q : Recall.RecallQuery F} {now : Int} {report : Recall.RecallReport F}
    (h : Recall.recallWithClock (readsOf lab db) agentId q now = .ok report) :
    (report.hits.map Recall.RecallHit.publicId).Nodup := by
  obtain ⟨rowids, vecHits, ftsHits, rows, surviving, hrows, _, rfl⟩ := Recall.recall_steps h
  have hunpacked : ∀ c ∈ Recall.candidates (.fromQuery agentId q now) rows surviving
      (Recall.fuse (.fromQuery agentId q now) vecHits rows ftsHits) q,
      c.placement = .unpacked ∧ c.tokens = 0 := fun c hc => (Recall.mem_candidates hc).2.2
  -- a hit is one of the candidates, and its ids are those of a stored row
  have hstored : ∀ hit ∈ (Recall.packReport q rows (Recall.candidates (.fromQuery agentId q now) rows
      surviving (Recall.fuse (.fromQuery agentId q now) vecHits rows ftsHits) q)
      (readsOf lab db).queryVec.isNone).hits, ∃ m ∈ db.memories, m.id = hit.rowid ∧
        m.publicId = hit.publicId := by
    intro hit hm
    obtain ⟨cand, hcand, hrowid, hpid⟩ := Recall.mem_packReport hunpacked hm
    obtain ⟨⟨row, hrow, hrowPid⟩, _⟩ := Recall.mem_candidates hcand
    obtain ⟨db', hdb', hload⟩ := Recall.mem_readKeys hrows (List.mem_of_find?_eq_some hrow)
    obtain rfl := Except.ok.inj hdb'
    obtain ⟨m, hmem, hid, rfl, _⟩ := Recall.rowAt_loadByRowids hload hrow
    exact ⟨m, hmem, hid.trans hrowid.symm, (hrowPid.symm.trans hpid.symm : _)⟩
  have hrowids : ((Recall.packReport q rows (Recall.candidates (.fromQuery agentId q now) rows
      surviving (Recall.fuse (.fromQuery agentId q now) vecHits rows ftsHits) q)
      (readsOf lab db).queryVec.isNone).hits.map Recall.RecallHit.rowid).Nodup := by
    have hpacked := Recall.pack_packed (Recall.heuristicCount F) q.budgetSplit q.budgetTokens rows
      hunpacked
    have hperm : (Recall.sortHits (Recall.injectionOrder rows) (Recall.candidates
        (.fromQuery agentId q now) rows surviving (Recall.fuse (.fromQuery agentId q now) vecHits
        rows ftsHits) q)).Perm _ := List.perm_insertionSort _ _
    have hids : ∀ hits : List (Recall.RecallHit F),
        hits.map Recall.RecallHit.rowid = (hits.map Recall.RecallHit.ids).map Prod.fst := by
      intro hits
      rw [List.map_map]
      rfl
    have hsame := congrArg (List.map Prod.fst) hpacked.ids_eq
    rw [← hids, ← hids] at hsame
    show ((Recall.pack _ q.budgetSplit q.budgetTokens _ rows).hits.map _).Nodup
    rw [hsame]
    exact (hperm.map Recall.RecallHit.rowid).nodup_iff.mpr
      (Recall.candidates_nodup (.fromQuery agentId q now) vecHits rows ftsHits surviving q)
  refine List.Nodup.map_on (fun a ha b hb hsame => ?_) hrowids.of_map
  obtain ⟨m, hm, hid, hpid⟩ := hstored a ha
  obtain ⟨m', hm', hid', hpid'⟩ := hstored b hb
  obtain rfl := List.inj_on_of_nodup_map hdb.publicIds hm hm' (hpid.trans (hsame.trans hpid'.symm))
  exact List.inj_on_of_nodup_map hrowids ha hb (hid.symm.trans hid')

private theorem runCase_produced {lab : Lab F} {case : EvalCase} {o : CaseOutcome}
    (h : runCase lab case = .ok o) : Produced case o := by
  unfold runCase at h
  split at h
  · cases h
  · split at h
    · cases h
    · next mapping c hseed =>
      have hkeys : (([] : List (String × String)).map Prod.fst).Nodup := List.nodup_nil
      obtain ⟨hkeys, hdb⟩ := seed_ok hkeys (Wellformed.empty _) hseed
      cases hrun : Recall.recallWithClock (readsOf lab c.db) lab.agentId (queryOf lab case)
          lab.now with
      | error e =>
        rw [hrun] at h
        cases h
      | ok report =>
        rw [hrun] at h
        obtain rfl := Except.ok.inj h
        refine ⟨?_, rfl⟩
        show (returnedIds mapping report).Nodup
        have hhits : ((report.hits.filter Recall.RecallHit.injected).map
            Recall.RecallHit.publicId).Nodup :=
          (report_nodup hdb hrun).sublist (List.filter_sublist.map _)
        have heq : returnedIds mapping report =
            ((report.hits.filter Recall.RecallHit.injected).map
              Recall.RecallHit.publicId).filterMap (logicalOf mapping) := by
          rw [List.filterMap_map]
          rfl
        rw [heq]
        exact hhits.filterMap fun p q logical hp hq => logicalOf_inj hkeys hp hq

theorem runAll_produced {labs : Nat → Lab F} {cases : List EvalCase} {n : Nat}
    {outcomes : List CaseOutcome} (h : runAll labs cases n = .ok outcomes) :
    List.Forall₂ Produced cases outcomes := by
  induction cases generalizing n outcomes with
  | nil =>
    obtain rfl := Except.ok.inj h
    exact .nil
  | cons case cases ih =>
    unfold runAll at h
    cases hcase : runCase (labs n) case with
    | error e =>
      rw [hcase] at h
      cases h
    | ok o =>
      cases hrest : runAll labs cases (n + 1) with
      | error e =>
        rw [hcase, hrest] at h
        cases h
      | ok rest =>
        rw [hcase, hrest] at h
        obtain rfl := Except.ok.inj h
        exact .cons (runCase_produced hcase) (ih hrest)

/-- A case that is accepted has something to score. -/
theorem relevant_of_validate {cases : List EvalCase} (h : validateCases cases = .ok ()) :
    ∀ case ∈ cases, case.relevant ≠ [] := by
  induction cases with
  | nil => exact List.forall_mem_nil _
  | cons case cases ih =>
    unfold validateCases at h
    cases hcase : validateCase case with
    | error e =>
      rw [hcase] at h
      cases h
    | ok u =>
      rw [hcase] at h
      refine List.forall_mem_cons.mpr ⟨?_, ih h⟩
      intro hempty
      unfold validateCase at hcase
      rw [hempty] at hcase
      split at hcase <;> cases hcase

end AgosMemory.Eval
