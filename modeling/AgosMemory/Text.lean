import Mathlib.Tactic.Common

/-!
# Text helpers

The string functions of the standard library that the code uses. White space is Unicode
`White_Space`, both for `\s` in a pattern and for `trim` and `split_whitespace`.
-/

namespace AgosMemory.Text

/-- The characters of Unicode `White_Space`. -/
def spaces : List Char :=
  ['\t', '\n', '\x0b', '\x0c', '\r', ' ', '\u0085', '\u00a0', '\u1680', '\u2000', '\u2001',
    '\u2002', '\u2003', '\u2004', '\u2005', '\u2006', '\u2007', '\u2008', '\u2009', '\u200a',
    '\u2028', '\u2029', '\u202f', '\u205f', '\u3000']

def isSpace (c : Char) : Bool := spaces.contains c

/-- `str::trim` -/
def trim (s : String) : String :=
  String.ofList ((s.toList.dropWhile isSpace).reverse.dropWhile isSpace).reverse

/-- `str::split_whitespace` -/
def splitWhitespace (s : String) : List String :=
  ((s.toList.splitOnP isSpace).filter (· ≠ [])).map String.ofList

/-- `[_]::join` -/
def join (sep : String) : List String → String
  | [] => ""
  | [w] => w
  | w :: ws => w ++ sep ++ join sep ws

/-- A property of characters checked along a list, rather than over all characters. -/
theorem forall_of_all {p : Char → Prop} [DecidablePred p] {l : List Char}
    (h : (l.all fun c => decide (p c)) = true) : ∀ c ∈ l, p c :=
  fun c hc => of_decide_eq_true (List.all_eq_true.mp h c hc)

end AgosMemory.Text
