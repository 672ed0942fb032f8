import Mathlib.Tactic.Common

/-!
# Conditions of a `WHERE` clause

Truth has three values, and a comparison with `NULL` is neither true nor false. A condition is
evaluated against a stack of rows, the innermost first, so that a subquery may refer to the row of
the query around it. A row is selected when its condition is true, not when it is unknown.
-/

namespace Library.Sql

/-! ## Truth -/

/-- `none` is unknown. -/
abbrev Truth := Option Bool

namespace Truth

def and : Truth → Truth → Truth
  | some false, _ => some false
  | _, some false => some false
  | some true, some true => some true
  | _, _ => none

def or : Truth → Truth → Truth
  | some true, _ => some true
  | _, some true => some true
  | some false, some false => some false
  | _, _ => none

def not : Truth → Truth := Option.map Bool.not

@[simp] theorem and_eq_true {a b : Truth} :
    a.and b = some true ↔ a = some true ∧ b = some true := by
  rcases a with _ | _ | _ <;> rcases b with _ | _ | _ <;> decide

@[simp] theorem or_eq_true {a b : Truth} : a.or b = some true ↔ a = some true ∨ b = some true := by
  rcases a with _ | _ | _ <;> rcases b with _ | _ | _ <;> decide

@[simp] theorem not_eq_true {a : Truth} : a.not = some true ↔ a = some false := by
  rcases a with _ | _ | _ <;> decide

end Truth

/-! ## Values -/

inductive Value where
  | null | int (n : Int) | text (s : String)
  deriving DecidableEq, Repr

/-- Numbers come before texts, and `NULL` is not compared. -/
def Value.compare? : Value → Value → Option Ordering
  | .int a, .int b => some (compare a b)
  | .text a, .text b => some (compare a b)
  | .int _, .text _ => some .lt
  | .text _, .int _ => some .gt
  | .null, _ => none
  | _, .null => none

/-- A nullable integer column. -/
def Value.ofInt? : Option Int → Value
  | none => .null
  | some n => .int n

/-- Read a nullable integer back. -/
def Value.toInt? : Value → Option Int
  | .int n => some n
  | _ => none

@[simp] theorem Value.ofInt?_eq_null {x : Option Int} : Value.ofInt? x = .null ↔ x = none := by
  cases x <;> simp [Value.ofInt?]

inductive CmpOp where
  | eq | gt | ge
  deriving DecidableEq, Repr

def CmpOp.holds : CmpOp → Ordering → Bool
  | .eq, o => o == .eq
  | .gt, o => o == .gt
  | .ge, o => o != .lt

def CmpOp.eval (op : CmpOp) (a b : Value) : Truth := (Value.compare? a b).map op.holds

theorem eval_eq_int {a : Option Int} {b : Int} :
    CmpOp.eq.eval (.ofInt? a) (.int b) = some true ↔ a = some b := by
  cases a <;> simp [CmpOp.eval, Value.ofInt?, Value.compare?, CmpOp.holds]

theorem eval_eq_text {a b : String} : CmpOp.eq.eval (.text a) (.text b) = some true ↔ a = b := by
  simp [CmpOp.eval, Value.compare?, CmpOp.holds]

theorem eval_gt_int {a : Option Int} {b : Int} :
    CmpOp.gt.eval (.ofInt? a) (.int b) = some true ↔ ∃ n, a = some n ∧ b < n := by
  cases a <;> simp [CmpOp.eval, Value.ofInt?, Value.compare?, CmpOp.holds, Int.compare_eq_gt]

theorem eval_ge_int {a : Option Int} {b : Int} :
    CmpOp.ge.eval (.ofInt? a) (.int b) = some true ↔ ∃ n, a = some n ∧ b ≤ n := by
  cases a <;> simp [CmpOp.eval, Value.ofInt?, Value.compare?, CmpOp.holds, Int.compare_eq_lt]

/-! ## Conditions -/

/-- A literal, or a column of the row at a depth of the stack. -/
inductive Operand (κ : Type) where
  | column (depth : Nat) (c : κ)
  | lit (v : Value)

inductive Cond (κ : Type) where
  | cmp (op : CmpOp) (a b : Operand κ)
  | isNull (a : Operand κ)
  | isIn (a : Operand κ) (vs : List Value)
  | and (p q : Cond κ)
  | or (p q : Cond κ)
  | not (p : Cond κ)
  /-- `EXISTS (SELECT 1 FROM table WHERE p)`, with the row of `table` on top of the stack. -/
  | existsRow (p : Cond κ)

variable {κ ρ : Type}

def Operand.eval (get : ρ → κ → Value) (rows : List ρ) : Operand κ → Value
  | .column depth c => (rows[depth]?.map fun r => get r c).getD .null
  | .lit v => v

def Cond.eval (get : ρ → κ → Value) (table : List ρ) : Cond κ → List ρ → Truth
  | .cmp op a b, rows => op.eval (a.eval get rows) (b.eval get rows)
  | .isNull a, rows => some (a.eval get rows = .null)
  | .isIn a vs, rows => vs.foldr (fun v t => (CmpOp.eq.eval (a.eval get rows) v).or t) (some false)
  | .and p q, rows => (p.eval get table rows).and (q.eval get table rows)
  | .or p q, rows => (p.eval get table rows).or (q.eval get table rows)
  | .not p, rows => (p.eval get table rows).not
  | .existsRow p, rows => some (table.any fun r => p.eval get table (r :: rows) = some true)

/-- `(SELECT c FROM table WHERE p LIMIT 1)` -/
def selectFirst (get : ρ → κ → Value) (table : List ρ) (c : κ) (p : Cond κ) (rows : List ρ) :
    Value :=
  ((table.find? fun r => p.eval get table (r :: rows) = some true).map fun r => get r c).getD .null

section

variable {get : ρ → κ → Value} {table rows : List ρ}

theorem eval_isNull {a : Operand κ} :
    (Cond.isNull a).eval get table rows = some true ↔ a.eval get rows = .null := by
  simp [Cond.eval]

theorem eval_isIn {a : Operand κ} {vs : List Value} :
    (Cond.isIn a vs).eval get table rows = some true ↔
      ∃ v ∈ vs, CmpOp.eq.eval (a.eval get rows) v = some true := by
  simp only [Cond.eval]
  induction vs with
  | nil => simp
  | cons v vs ih => simp [ih]

/-- A text column is in a list of literals. -/
theorem eval_isIn_text {a : Operand κ} {s : String} {texts : List String}
    (ha : a.eval get rows = .text s) :
    (Cond.isIn a (texts.map Value.text)).eval get table rows = some true ↔ s ∈ texts := by
  rw [eval_isIn, ha]
  constructor
  · rintro ⟨v, hv, heq⟩
    obtain ⟨t, ht, rfl⟩ := List.mem_map.mp hv
    exact eval_eq_text.mp heq ▸ ht
  · intro hs
    exact ⟨.text s, List.mem_map_of_mem hs, eval_eq_text.mpr rfl⟩

theorem eval_not_existsRow {p : Cond κ} :
    (Cond.not (.existsRow p)).eval get table rows = some true ↔
      ∀ r ∈ table, p.eval get table (r :: rows) ≠ some true := by
  simp [Cond.eval]

end

end Library.Sql
