import AgosMemory.Library.Sql
import AgosMemory.Recall.Filter

/-!
# The predicate in SQL and its mirror

`HardFilter::predicate` as the condition it writes, over the columns of `memories` with their
`NULL`s, and the row that the canonical columns read back. The rows that SQLite selects are those
the mirror admits.
-/

namespace AgosMemory.Recall

open Library.Sql

variable {F : Type}

/-- The columns of `memories` that the predicate and its subqueries name. -/
inductive MemoryColumn where
  | id | agentId | tier | status | trust | expiresAt | supersededById | supersedesId | createdAt
  | lastReferencedAt
  deriving DecidableEq, Repr

def memoryColumn (m : Memory F) : MemoryColumn → Value
  | .id => .int m.id
  | .agentId => .text m.agentId
  | .tier => .text m.tier.sql
  | .status => .text m.status.sql
  | .trust => .text m.trust.sql
  | .expiresAt => .ofInt? m.expiresAt
  | .supersededById => .ofInt? m.supersededById
  | .supersedesId => .ofInt? m.supersedesId
  | .createdAt => .int m.createdAt
  | .lastReferencedAt => .ofInt? m.lastReferencedAt

/-- The column of the outermost row. -/
def col (c : MemoryColumn) : Operand MemoryColumn := .column 0 c

/-- `s.supersedes_id = m.id`, where `s` is the row of the subquery. -/
def supersedesOuter : Cond MemoryColumn := .cmp .eq (.column 0 .supersedesId) (.column 1 .id)

/-- The condition written by `predicate`, in a statement that is prepared: a quoted literal stands for
its value. `prepare` refuses the statement when there is U+0000 in the agent's id, and no row is tested
then. -/
def HardFilter.condition (filter : HardFilter) : Cond MemoryColumn :=
  .and (.cmp .eq (col .agentId) (.lit (.text filter.agentId)))
  <| .and (.isIn (col .tier) ((filter.tiers.map Tier.sql).map .text))
  <| .and (.isIn (col .status) ((filter.statuses.map Status.sql).map .text))
  <| .and (.isIn (col .trust) ((filter.trusts.map Trust.sql).map .text))
  <| .and (.or (.isNull (col .expiresAt)) (.cmp .gt (col .expiresAt) (.lit (.int filter.now))))
  <| .and (.isNull (col .supersededById))
  <| .and (.not (.existsRow supersedesOuter))
    (.or (.isNull (col .lastReferencedAt)) (.cmp .ge (col .lastReferencedAt) (col .createdAt)))

/-- The predicate on a row, in three-valued logic. -/
def HardFilter.truth (filter : HardFilter) (db : Db F) (m : Memory F) : Truth :=
  filter.condition.eval memoryColumn db.memories [m]

/-- `(SELECT s.id FROM memories s WHERE s.supersedes_id = m.id LIMIT 1)` -/
def successorColumn (db : Db F) (m : Memory F) : Value :=
  selectFirst memoryColumn db.memories .id supersedesOuter [m]

/-- Map one row of the canonical columns, its nullable ones from the values SQLite returns. -/
def canonicalRow (db : Db F) (m : Memory F) : CanonicalRow F :=
  { rowFromSql db m with
    expiresAt := (memoryColumn m .expiresAt).toInt?
    supersededById := (memoryColumn m .supersededById).toInt?
    successorId := (successorColumn db m).toInt?
    lastReferencedAt := (memoryColumn m .lastReferencedAt).toInt? }

/-! ## The subqueries -/

private theorem supersedesOuter_true {table : List (Memory F)} {m s : Memory F} :
    supersedesOuter.eval memoryColumn table [s, m] = some true ↔ s.supersedesId = some m.id :=
  eval_eq_int

private theorem successorColumn_toInt? (db : Db F) (m : Memory F) :
    (successorColumn db m).toInt? = successorId db m := by
  have hfind : (fun s => decide (supersedesOuter.eval memoryColumn db.memories [s, m] =
      some true)) = fun s => decide (s.supersedesId = some m.id) := by
    funext s
    exact decide_eq_decide.mpr supersedesOuter_true
  unfold successorColumn selectFirst successorId
  rw [hfind]
  cases db.memories.find? fun s => decide (s.supersedesId = some m.id) <;> rfl

/-- Reading a nullable column gives it back. -/
private theorem toInt?_ofInt? (x : Option Int) : (Value.ofInt? x).toInt? = x := by cases x <;> rfl

private theorem canonicalRow_eq (db : Db F) (m : Memory F) : canonicalRow db m = rowFromSql db m := by
  unfold canonicalRow
  rw [successorColumn_toInt?]
  simp only [memoryColumn, toInt?_ofInt?]
  rfl

/-! ## Conjunct by conjunct -/

theorem sql_injective_tier : Function.Injective Tier.sql := by
  intro a b
  cases a <;> cases b <;> decide

private theorem sql_injective_status : Function.Injective Status.sql := by
  intro a b
  cases a <;> cases b <;> decide

private theorem sql_injective_trust : Function.Injective Trust.sql := by
  intro a b
  cases a <;> cases b <;> decide

/-- `x IN (...)` over the texts of an enumeration. -/
private theorem isIn_sql {α : Type} {sql : α → String} (hsql : Function.Injective sql)
    {table rows : List (Memory F)} {c : MemoryColumn} {a : α} {items : List α}
    (ha : (col c).eval memoryColumn rows = .text (sql a)) :
    (Cond.isIn (col c) ((items.map sql).map .text)).eval memoryColumn table rows = some true ↔
      a ∈ items := by
  rw [eval_isIn_text ha]
  exact List.mem_map_of_injective hsql

/-- `x IS NULL OR x > now` -/
private theorem isNull_or_gt (table : List (Memory F)) (m : Memory F) (now : Int) :
    (Cond.or (.isNull (col .expiresAt)) (.cmp .gt (col .expiresAt) (.lit (.int now)))).eval
        memoryColumn table [m] = some true ↔
      (m.expiresAt.all fun e => decide (now < e)) = true := by
  have hgt : (Cond.cmp .gt (col .expiresAt) (.lit (.int now))).eval memoryColumn table [m] =
      some true ↔ ∃ n, m.expiresAt = some n ∧ now < n := eval_gt_int
  have hnull : (Cond.isNull (col .expiresAt)).eval memoryColumn table [m] = some true ↔
      m.expiresAt = none := eval_isNull.trans Value.ofInt?_eq_null
  simp only [Cond.eval, Truth.or_eq_true] at hgt hnull ⊢
  rw [hgt, hnull]
  cases m.expiresAt <;> simp

/-- `x IS NULL OR x >= created_at` -/
private theorem isNull_or_ge (table : List (Memory F)) (m : Memory F) :
    (Cond.or (.isNull (col .lastReferencedAt))
        (.cmp .ge (col .lastReferencedAt) (col .createdAt))).eval memoryColumn table [m] =
        some true ↔
      (m.lastReferencedAt.all fun lr => decide (m.createdAt ≤ lr)) = true := by
  have hge : (Cond.cmp .ge (col .lastReferencedAt) (col .createdAt)).eval memoryColumn table [m] =
      some true ↔ ∃ n, m.lastReferencedAt = some n ∧ m.createdAt ≤ n := eval_ge_int
  have hnull : (Cond.isNull (col .lastReferencedAt)).eval memoryColumn table [m] = some true ↔
      m.lastReferencedAt = none := eval_isNull.trans Value.ofInt?_eq_null
  simp only [Cond.eval, Truth.or_eq_true] at hge hnull ⊢
  rw [hge, hnull]
  cases m.lastReferencedAt <;> simp

/-- The predicate of the model holds of the rows of which the condition is true. -/
private theorem truth_iff (filter : HardFilter) (db : Db F) (m : Memory F) :
    filter.truth db m = some true ↔ filter.predicate db m = true := by
  have hagent : (Cond.cmp .eq (col .agentId) (.lit (.text filter.agentId))).eval memoryColumn
      db.memories [m] = some true ↔ m.agentId = filter.agentId := eval_eq_text
  have htier : (Cond.isIn (col .tier) ((filter.tiers.map Tier.sql).map .text)).eval memoryColumn
      db.memories [m] = some true ↔ m.tier ∈ filter.tiers := isIn_sql sql_injective_tier rfl
  have hstatus : (Cond.isIn (col .status) ((filter.statuses.map Status.sql).map .text)).eval
      memoryColumn db.memories [m] = some true ↔ m.status ∈ filter.statuses :=
    isIn_sql sql_injective_status rfl
  have htrust : (Cond.isIn (col .trust) ((filter.trusts.map Trust.sql).map .text)).eval
      memoryColumn db.memories [m] = some true ↔ m.trust ∈ filter.trusts :=
    isIn_sql sql_injective_trust rfl
  have hexpires := isNull_or_gt db.memories m filter.now
  have hsuperseded : (Cond.isNull (col .supersededById)).eval memoryColumn db.memories [m] =
      some true ↔ m.supersededById = none := eval_isNull.trans Value.ofInt?_eq_null
  have hsuccessor : (Cond.not (.existsRow supersedesOuter)).eval memoryColumn db.memories [m] =
      some true ↔ ∀ s ∈ db.memories, s.supersedesId ≠ some m.id := by
    rw [eval_not_existsRow]
    simp only [ne_eq, supersedesOuter_true]
  have hlast := isNull_or_ge db.memories m
  unfold HardFilter.truth HardFilter.condition
  rw [Cond.eval, Truth.and_eq_true, hagent, Cond.eval, Truth.and_eq_true, htier, Cond.eval,
    Truth.and_eq_true, hstatus, Cond.eval, Truth.and_eq_true, htrust, Cond.eval, Truth.and_eq_true,
    hexpires, Cond.eval, Truth.and_eq_true, hsuperseded, Cond.eval, Truth.and_eq_true, hsuccessor,
    hlast]
  simp only [HardFilter.predicate, Bool.and_eq_true, decide_eq_true_eq, Option.isNone_iff_eq_none,
    Bool.not_eq_true', List.any_eq_false, and_assoc, ne_eq]

/-- The mirror on the row read back agrees with the predicate of the model. -/
theorem admits_rowFromSql (filter : HardFilter) (db : Db F) (m : Memory F) :
    filter.admits (rowFromSql db m) = filter.predicate db m := by
  have hsuccessor : (successorId db m).isNone =
      !db.memories.any fun s => s.supersedesId = some m.id := by
    unfold successorId
    rw [Option.isNone_map, ← Option.not_isSome, List.isSome_find?]
  unfold HardFilter.admits HardFilter.predicate
  rw [← hsuccessor]
  rfl

/-- The condition is true of exactly the rows whose canonical row the mirror admits. -/
theorem truth_iff_admits (filter : HardFilter) (db : Db F) (m : Memory F) :
    filter.truth db m = some true ↔ filter.admits (canonicalRow db m) = true := by
  rw [canonicalRow_eq, admits_rowFromSql, truth_iff]

end AgosMemory.Recall
