import AgosMemory.Storage.Schema

/-!
# Hard filter

What may reach scoring: the SQL predicate evaluated on the table, and its Rust mirror evaluated on a
resolved row. Both gates apply the two together.
-/

namespace AgosMemory.Recall

variable {F : Type}

inductive TrustPolicy where
  | strict | fenced
  deriving DecidableEq, Repr

/-- Weights of the score blend. -/
structure RecallWeights (F : Type) where
  sim : F
  importance : F
  decay : F

/-- Per-tier half-life in hours. `0` means no decay. -/
structure RecallHalfLives (F : Type) where
  workingHours : F
  episodicHours : F
  semanticHours : F
  proceduralHours : F

/-- Fraction of the token budget reserved per tier. -/
structure BudgetSplit (F : Type) where
  working : F
  episodic : F
  semantic : F
  procedural : F

/-- One recall request. -/
structure RecallQuery (F : Type) where
  text : String
  k : Nat
  budgetTokens : Nat
  includeEpisodic : Bool
  includePending : Bool
  trustPolicy : TrustPolicy
  minScore : F
  weights : RecallWeights F
  halfLife : RecallHalfLives F
  budgetSplit : BudgetSplit F

/-- A resolved `memories` row plus the two DB-derived supersede signals. -/
structure CanonicalRow (F : Type) where
  rowid : Int
  publicId : String
  agentId : String
  tier : Tier
  status : Status
  trust : Trust
  expiresAt : Option Int
  supersededById : Option Int
  successorId : Option Int
  createdAt : Int
  lastReferencedAt : Option Int
  importanceCurrent : F
  confidence : F
  pinned : Bool
  text : String
  sourceKind : SourceKind
  sourceRef : Option String
  summaryText : Option String
  summaryTokens : Option Int

/-- `SELECT s.id FROM memories s WHERE s.supersedes_id = m.id LIMIT 1` -/
def successorId (db : Db F) (m : Memory F) : Option Int :=
  (db.memories.find? fun s => s.supersedesId = some m.id).map Memory.id

/-- Map one row of the canonical columns. -/
def rowFromSql (db : Db F) (m : Memory F) : CanonicalRow F where
  rowid := m.id
  publicId := m.publicId
  agentId := m.agentId
  tier := m.tier
  status := m.status
  trust := m.trust
  expiresAt := m.expiresAt
  supersededById := m.supersededById
  successorId := successorId db m
  createdAt := m.createdAt
  lastReferencedAt := m.lastReferencedAt
  importanceCurrent := m.importanceCurrent
  confidence := m.confidence
  pinned := m.pinned ≠ 0
  text := m.text
  sourceKind := m.sourceKind
  sourceRef := m.sourceRef
  summaryText := m.summaryText
  summaryTokens := m.summaryTokens

/-- Eligible tiers for a query: `episodic` is opt-in. -/
def eligibleTiers (includeEpisodic : Bool) : List Tier :=
  if includeEpisodic then [.working, .episodic, .semantic, .procedural]
  else [.working, .semantic, .procedural]

/-- Eligible statuses for a query: `pending` is opt-in. -/
def eligibleStatuses (includePending : Bool) : List Status :=
  if includePending then [.active, .pending] else [.active]

/-- Eligible trusts for a query. -/
def eligibleTrusts : TrustPolicy → List Trust
  | .strict => [.trusted, .system]
  | .fenced => [.trusted, .system, .untrusted]

/-- An immutable, fully-resolved hard filter for one recall call. -/
structure HardFilter where
  agentId : String
  tiers : List Tier
  statuses : List Status
  trusts : List Trust
  now : Int

namespace HardFilter

/-- Build the filter a query implies, evaluated at `now`. -/
def fromQuery (agentId : String) (q : RecallQuery F) (now : Int) : HardFilter where
  agentId
  tiers := eligibleTiers q.includeEpisodic
  statuses := eligibleStatuses q.includePending
  trusts := eligibleTrusts q.trustPolicy
  now

/-- The canonical predicate, as SQLite evaluates it on a row of the table. -/
def predicate (filter : HardFilter) (db : Db F) (m : Memory F) : Bool :=
  m.agentId = filter.agentId && m.tier ∈ filter.tiers && m.status ∈ filter.statuses &&
    m.trust ∈ filter.trusts && (m.expiresAt.all fun e => filter.now < e) &&
    m.supersededById.isNone && (!db.memories.any fun s => s.supersedesId = some m.id) &&
    m.lastReferencedAt.all fun lr => m.createdAt ≤ lr

/-- The subset of the predicate that the `vec0` metadata columns can express. -/
def vecMetadataPredicate (filter : HardFilter) (v : VecRow F) : Bool :=
  v.tier ∈ filter.tiers && v.status ∈ filter.statuses.map Status.code &&
    v.trust ∈ filter.trusts.map Trust.code

/-- Rust mirror of the predicate, evaluated on a resolved row. -/
def admits (filter : HardFilter) (row : CanonicalRow F) : Bool :=
  row.agentId = filter.agentId && row.tier ∈ filter.tiers && row.status ∈ filter.statuses &&
    row.trust ∈ filter.trusts && (row.expiresAt.all fun e => filter.now < e) &&
    row.supersededById.isNone && row.successorId.isNone &&
    row.lastReferencedAt.all fun lr => row.createdAt ≤ lr

end HardFilter

/-- `Connection::prepare` of a statement with these quoted literals: SQLite reads a statement up to
U+0000, which leaves the literal around it open. -/
def prepare (literals : List String) : Except Error Unit :=
  if literals.any fun s => s.toList.contains '\x00' then .error (.storage "unrecognized token")
  else .ok ()

/-- The rows behind `extra` that pass the predicate in SQL and then the mirror. -/
def admittedRows (filter : HardFilter) (db : Db F) (extra : Memory F → Bool) :
    List (CanonicalRow F) :=
  ((db.memories.filter fun m => filter.predicate db m && extra m).map (rowFromSql db)).filter
    filter.admits

/-- Load the rows behind `extra`, which is written with `literals`, that satisfy the hard filter. -/
def loadAdmitted (filter : HardFilter) (db : Db F) (literals : List String)
    (extra : Memory F → Bool) : Except Error (List (CanonicalRow F)) :=
  (prepare (filter.agentId :: literals)).map fun _ => admittedRows filter db extra

/-- Resolve rowids to admitted canonical rows. -/
def loadByRowids (filter : HardFilter) (db : Db F) (rowids : List Int) :
    Except Error (List (CanonicalRow F)) :=
  if rowids.isEmpty then .ok [] else loadAdmitted filter db [] fun m => m.id ∈ rowids

/-- Re-apply the hard filter to a fused id set. -/
def survivingPublicIds (filter : HardFilter) (db : Db F) (publicIds : List String) :
    Except Error (List String) :=
  if publicIds.isEmpty then .ok []
  else (loadAdmitted filter db publicIds fun m => m.publicId ∈ publicIds).map
    (List.map CanonicalRow.publicId)

/-- Look a row up in the map keyed by rowid. -/
def rowAt (rows : List (CanonicalRow F)) (rowid : Int) : Option (CanonicalRow F) :=
  rows.find? fun r => r.rowid = rowid

theorem prepare_ok_iff {literals : List String} :
    prepare literals = .ok () ↔ ∀ s ∈ literals, '\x00' ∉ s.toList := by
  have hany : (literals.any fun s => s.toList.contains '\x00') = true ↔
      ∃ s ∈ literals, '\x00' ∈ s.toList := by
    rw [List.any_eq_true]
    simp only [List.contains_iff_mem]
  unfold prepare
  split
  · next h =>
    obtain ⟨s, hs, hnul⟩ := hany.mp h
    exact iff_of_false nofun fun hplain => hplain s hs hnul
  · next h => exact iff_of_true rfl fun s hs hnul => h (hany.mpr ⟨s, hs, hnul⟩)

private theorem loadAdmitted_ok_iff {filter : HardFilter} {db : Db F} {literals : List String}
    {extra : Memory F → Bool} {rows : List (CanonicalRow F)} :
    loadAdmitted filter db literals extra = .ok rows ↔
      (∀ s ∈ filter.agentId :: literals, '\x00' ∉ s.toList) ∧
        admittedRows filter db extra = rows := by
  rw [← prepare_ok_iff]
  unfold loadAdmitted
  cases prepare (filter.agentId :: literals) with
  | error e => exact iff_of_false nofun nofun
  | ok _ => exact ⟨fun h => ⟨rfl, Except.ok.inj h⟩, fun h => congrArg Except.ok h.2⟩

theorem mem_admittedRows {filter : HardFilter} {db : Db F} {extra : Memory F → Bool}
    {row : CanonicalRow F} (h : row ∈ admittedRows filter db extra) :
    ∃ m ∈ db.memories, extra m = true ∧ row = rowFromSql db m ∧ filter.admits row = true := by
  obtain ⟨hrow, hadmits⟩ := List.mem_filter.mp h
  obtain ⟨m, hm, rfl⟩ := List.mem_map.mp hrow
  obtain ⟨hmem, hpred⟩ := List.mem_filter.mp hm
  exact ⟨m, hmem, (Bool.and_eq_true_iff.mp hpred).2, rfl, hadmits⟩

private theorem admittedRows_nil {filter : HardFilter} {db : Db F} {extra : Memory F → Bool}
    (h : ∀ m, extra m = false) : admittedRows filter db extra = [] := by
  rw [List.eq_nil_iff_forall_not_mem]
  intro row hrow
  obtain ⟨m, _, hm, _⟩ := mem_admittedRows hrow
  exact absurd (hm.symm.trans (h m)) Bool.noConfusion

theorem loadByRowids_ok_iff {filter : HardFilter} {db : Db F} {rowids : List Int}
    {rows : List (CanonicalRow F)} : loadByRowids filter db rowids = .ok rows ↔
      (rowids ≠ [] → '\x00' ∉ filter.agentId.toList) ∧
        admittedRows filter db (fun m => m.id ∈ rowids) = rows := by
  unfold loadByRowids
  split
  · next hnil =>
    rw [List.isEmpty_iff] at hnil
    subst hnil
    rw [admittedRows_nil fun m => decide_eq_false List.not_mem_nil, Except.ok.injEq]
    exact ⟨fun h => ⟨fun hne => absurd rfl hne, h⟩, And.right⟩
  · next hne =>
    rw [List.isEmpty_iff] at hne
    rw [loadAdmitted_ok_iff, forall_prop_of_true hne, List.forall_mem_singleton]

theorem survivingPublicIds_ok_iff {filter : HardFilter} {db : Db F}
    {publicIds surviving : List String} :
    survivingPublicIds filter db publicIds = .ok surviving ↔
      (publicIds ≠ [] → ∀ s ∈ filter.agentId :: publicIds, '\x00' ∉ s.toList) ∧
        (admittedRows filter db fun m => m.publicId ∈ publicIds).map CanonicalRow.publicId =
          surviving := by
  unfold survivingPublicIds
  split
  · next hnil =>
    rw [List.isEmpty_iff] at hnil
    subst hnil
    rw [admittedRows_nil fun m => decide_eq_false List.not_mem_nil, Except.ok.injEq]
    exact ⟨fun h => ⟨fun hne => absurd rfl hne, h⟩, And.right⟩
  · next hne =>
    rw [List.isEmpty_iff] at hne
    rw [forall_prop_of_true hne]
    have hload : ∀ rows, loadAdmitted filter db publicIds (fun m => m.publicId ∈ publicIds) =
        .ok rows ↔ _ := fun rows => loadAdmitted_ok_iff
    cases hrows : loadAdmitted filter db publicIds fun m => m.publicId ∈ publicIds with
    | error e =>
      refine iff_of_false nofun fun h => ?_
      have hok := (hload _).mpr ⟨h.1, rfl⟩
      rw [hrows] at hok
      cases hok
    | ok rows =>
      obtain ⟨hplain, rfl⟩ := (hload rows).mp hrows
      exact ⟨fun h => ⟨hplain, Except.ok.inj h⟩, fun h => congrArg Except.ok h.2⟩

/-- A row of the gate-2 map is the canonical row of its rowid, and the filter admits it. -/
theorem rowAt_loadByRowids {filter : HardFilter} {db : Db F} {rowids : List Int} {rowid : Int}
    {rows : List (CanonicalRow F)} (hrows : loadByRowids filter db rowids = .ok rows)
    {row : CanonicalRow F} (h : rowAt rows rowid = some row) :
    ∃ m ∈ db.memories, m.id = rowid ∧ row = rowFromSql db m ∧ filter.admits row = true := by
  have hid : row.rowid = rowid := by simpa using List.find?_some h
  obtain ⟨-, rfl⟩ := loadByRowids_ok_iff.mp hrows
  obtain ⟨m, hm, _, rfl, hadmits⟩ := mem_admittedRows (List.mem_of_find?_eq_some h)
  exact ⟨m, hm, hid, rfl, hadmits⟩

theorem mem_survivingPublicIds {filter : HardFilter} {db : Db F} {publicIds surviving : List String}
    (hsurviving : survivingPublicIds filter db publicIds = .ok surviving) {publicId : String}
    (h : publicId ∈ surviving) :
    ∃ m ∈ db.memories, m.publicId = publicId ∧ filter.admits (rowFromSql db m) = true := by
  obtain ⟨-, rfl⟩ := survivingPublicIds_ok_iff.mp hsurviving
  obtain ⟨row, hrow, rfl⟩ := List.mem_map.mp h
  obtain ⟨m, hm, _, rfl, hadmits⟩ := mem_admittedRows hrow
  exact ⟨m, hm, rfl, hadmits⟩

end AgosMemory.Recall
