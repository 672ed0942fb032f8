import AgosMemory.Storage.Schema

/-!
# Line diff between versions

`compute_lcs` fills its table row by row and walks back from the last cell; `compute_line_diff`
lists the lines that the walk does not match.
-/

namespace AgosMemory.Diff

/-- The end of a line that a newline ends: one carriage return goes with the newline. -/
def stripCr (l : List Char) : List Char := if l.getLast? = some '\r' then l.dropLast else l

/-- `str::lines`: the pieces that a newline ends, and what follows the last newline unless it is
empty. -/
def lines (text : String) : List String :=
  let parts := text.toList.splitOnP (· == '\n')
  ((parts.dropLast.map stripCr) ++ parts.getLast?.toList.filter (· ≠ [])).map String.ofList

/-- The cells of one table row after the first, from the row above and the cell to the left. -/
def lcsCells (line : String) : List String → List Nat → Nat → List Nat
  | b :: new, diag :: up :: above, left =>
    let v := if line = b then diag + 1 else max up left
    v :: lcsCells line new (up :: above) v
  | _, _, _ => []

def lcsTable (new : List String) : List String → List Nat → List (List Nat)
  | [], above => [above]
  | a :: old, above => above :: lcsTable new old (0 :: lcsCells a new above 0)

def cell (dp : List (List Nat)) (i j : Nat) : Nat := (dp.getD i []).getD j 0

/-- The walk back from cell `(i, j)`; each step lowers `i + j`. -/
def backtrack (old new : List String) (dp : List (List Nat)) :
    Nat → Nat → Nat → List (Nat × Nat)
  | steps + 1, i + 1, j + 1 =>
    if old[i]? = new[j]? then backtrack old new dp steps i j ++ [(i, j)]
    else if cell dp (i + 1) j ≤ cell dp i (j + 1) then backtrack old new dp steps i (j + 1)
    else backtrack old new dp steps (i + 1) j
  | _, _, _ => []

/-- Index pairs of a longest common subsequence. -/
def computeLcs (old new : List String) : List (Nat × Nat) :=
  let dp := lcsTable new old (List.replicate (new.length + 1) 0)
  backtrack old new dp (old.length + new.length) old.length new.length

structure LineDiff where
  added : List String
  removed : List String
  deriving DecidableEq, Repr

def lineDiffFrom (old new : List String) : List (Nat × Nat) → Nat → Nat → LineDiff
  | [], i, j => ⟨new.drop j, old.drop i⟩
  | (a, b) :: lcs, i, j =>
    let rest := lineDiffFrom old new lcs (max i a + 1) (max j b + 1)
    ⟨(new.drop j).take (b - j) ++ rest.added, (old.drop i).take (a - i) ++ rest.removed⟩

def computeLineDiff (old new : String) : LineDiff :=
  lineDiffFrom (lines old) (lines new) (computeLcs (lines old) (lines new)) 0 0

example : computeLineDiff "a\nb\nc" "a\r\nc\nd\n" = ⟨["d"], ["b"]⟩ := by decide +kernel

example : lines "a\r\n\nb\r" = ["a", "", "b\r"] := by decide +kernel

end AgosMemory.Diff
