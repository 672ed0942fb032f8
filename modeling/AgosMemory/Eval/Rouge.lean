import AgosMemory.Exact
import AgosMemory.Library.Subsequence
import Mathlib.Tactic.FieldSimp
import Mathlib.Tactic.Ring

/-!
# ROUGE-L

`lcs_len` keeps two rows of the table and lets them change places. What a row holds after each token of
the longer list is stated once, as longest common subsequences of prefixes; the score is then arithmetic
on one length.
-/

namespace AgosMemory.Rouge

open Library.Subsequence

/-! ## Tokens -/

/-- The character functions of the standard library that `tokenize` calls. -/
structure Letters where
  isAlphanumeric : Char → Bool
  toLowercase : Char → List Char

section Tokenize

variable (letters : Letters)

/-- The loop of `tokenize`, with the tokens found so far and the current one. -/
def tokenizeFrom : List Char → List String → List Char → List String
  | [], out, cur => if cur.isEmpty then out else out ++ [String.ofList cur]
  | c :: text, out, cur =>
    if letters.isAlphanumeric c then tokenizeFrom text out (cur ++ letters.toLowercase c)
    else if cur.isEmpty then tokenizeFrom text out cur
    else tokenizeFrom text (out ++ [String.ofList cur]) []

def tokenize (text : String) : List String := tokenizeFrom letters text.toList [] []

end Tokenize

/-! ## The rolling rows -/

/-- `curr[j + 1] = …` for the token `cr` in position `j` of the row. -/
def lcsCell (cb : String) (prev curr : List Nat) (entry : String × Nat) : List Nat :=
  curr.set (entry.2 + 1)
    (if cb = entry.1 then prev.getD entry.2 0 + 1
    else max (prev.getD (entry.2 + 1) 0) (curr.getD entry.2 0))

/-- One token of the column: the row is filled, the two rows change places, and the row to fill next is
zeroed. -/
def lcsRow (row : List String) (rows : List Nat × List Nat) (cb : String) : List Nat × List Nat :=
  (row.zipIdx.foldl (lcsCell cb rows.1) rows.2, rows.1.map fun _ => 0)

def lcsRows (row col : List String) : List Nat :=
  (col.foldl (lcsRow row)
    (List.replicate (row.length + 1) 0, List.replicate (row.length + 1) 0)).1

def lcsLen (a b : List String) : Nat :=
  if a.isEmpty || b.isEmpty then 0
  else if a.length ≤ b.length then (lcsRows a b).getD a.length 0
  else (lcsRows b a).getD b.length 0

/-- A row of the table: the longest common subsequences of what is read of the column and the first `n`
prefixes of the row. -/
structure Filled (read row : List String) (n : Nat) (cells : List Nat) : Prop where
  length : cells.length = row.length + 1
  cell : ∀ j ≤ n, LcsLength read (row.take j) (cells.getD j 0)

/-- A zeroed row is right in its first column, whatever is read. -/
private theorem filled_zero (read row : List String) {cells : List Nat}
    (hlength : cells.length = row.length + 1) (hzero : ∀ v ∈ cells, v = 0) :
    Filled read row 0 cells where
  length := hlength
  cell j hj := by
    obtain rfl : j = 0 := Nat.le_zero.mp hj
    have hlt : 0 < cells.length := by omega
    have hcell : cells.getD 0 0 = 0 := by
      rw [List.getD_eq_getElem?_getD, List.getElem?_eq_getElem hlt]
      exact hzero _ (List.getElem_mem hlt)
    rw [hcell, List.take_zero]
    exact .nil_right read

/-- Before any token of the column is read, zero is right everywhere. -/
private theorem filled_start (row : List String) :
    Filled [] row row.length (List.replicate (row.length + 1) 0) where
  length := List.length_replicate
  cell j hj := by
    rw [List.getD_eq_getElem?_getD, List.getElem?_replicate, if_pos (by omega)]
    exact .nil_left _

/-- One cell extends what is right of the row by one prefix. -/
theorem Filled.lcsCell {read row : List String} {cb cr : String} {prev curr : List Nat} {j : Nat}
    (hprev : Filled read row row.length prev) (hcurr : Filled (read ++ [cb]) row j curr)
    (hj : row[j]? = some cr) :
    Filled (read ++ [cb]) row (j + 1) (lcsCell cb prev curr (cr, j)) := by
  have hlt : j < row.length := (List.getElem?_eq_some_iff.mp hj).1
  have htake : row.take (j + 1) = row.take j ++ [cr] := by
    rw [List.take_add_one, hj]
    rfl
  refine ⟨by rw [Rouge.lcsCell, List.length_set, hcurr.length], fun i hi => ?_⟩
  rcases Nat.lt_or_eq_of_le hi with hi | rfl
  · have hkept : (Rouge.lcsCell cb prev curr (cr, j)).getD i 0 = curr.getD i 0 := by
      simp only [Rouge.lcsCell, List.getD_eq_getElem?_getD]
      rw [List.getElem?_set_ne (by omega)]
    rw [hkept]
    exact hcurr.cell i (Nat.le_of_lt_succ hi)
  · have hnew : (Rouge.lcsCell cb prev curr (cr, j)).getD (j + 1) 0 =
        if cb = cr then prev.getD j 0 + 1 else max (prev.getD (j + 1) 0) (curr.getD j 0) := by
      simp only [Rouge.lcsCell, List.getD_eq_getElem?_getD]
      rw [List.getElem?_set_self (by rw [hcurr.length]; omega)]
      rfl
    rw [hnew, htake]
    by_cases hsame : cb = cr
    · rw [if_pos hsame, ← hsame]
      exact (hprev.cell j hlt.le).concat_same cb
    · rw [if_neg hsame]
      refine .concat_ne hsame ?_ (hcurr.cell j le_rfl)
      rw [← htake]
      exact hprev.cell (j + 1) hlt

/-- The inner loop, from position `j` on. -/
private theorem filled_foldl {read row : List String} {cb : String} {prev : List Nat}
    (hprev : Filled read row row.length prev) (rest : List String) {j : Nat} {curr : List Nat}
    (hrest : row.drop j = rest) (hj : j ≤ row.length) (hcurr : Filled (read ++ [cb]) row j curr) :
    Filled (read ++ [cb]) row row.length ((rest.zipIdx j).foldl (lcsCell cb prev) curr) := by
  induction rest generalizing j curr with
  | nil =>
    have hend : row.length ≤ j := List.drop_eq_nil_iff.mp hrest
    obtain rfl : j = row.length := Nat.le_antisymm hj hend
    exact hcurr
  | cons cr rest ih =>
    have hcr : row[j]? = some cr := by
      have hhead : (row.drop j)[0]? = row[j + 0]? := List.getElem?_drop
      rw [hrest, Nat.add_zero] at hhead
      exact hhead.symm
    have hlt : j < row.length := (List.getElem?_eq_some_iff.mp hcr).1
    rw [List.zipIdx_cons, List.foldl_cons]
    refine ih ?_ hlt (hprev.lcsCell hcurr hcr)
    rw [← List.drop_drop, hrest]
    rfl

/-- The two rows between tokens of the column. -/
structure Rows (read row : List String) (rows : List Nat × List Nat) : Prop where
  prev : Filled read row row.length rows.1
  length : rows.2.length = row.length + 1
  zero : ∀ v ∈ rows.2, v = 0

theorem Rows.lcsRow {read row : List String} {rows : List Nat × List Nat} (h : Rows read row rows)
    (cb : String) : Rows (read ++ [cb]) row (lcsRow row rows cb) where
  prev := filled_foldl h.prev row (List.drop_zero (l := row)) (Nat.zero_le _)
    (filled_zero _ row h.length h.zero)
  length := by rw [Rouge.lcsRow, List.length_map, h.prev.length]
  zero v hv := by
    obtain ⟨_, _, rfl⟩ := List.mem_map.mp hv
    rfl

theorem Rows.foldl {row : List String} (col : List String) {read : List String}
    {rows : List Nat × List Nat} (h : Rows read row rows) :
    Rows (read ++ col) row (col.foldl (Rouge.lcsRow row) rows) := by
  induction col generalizing read rows with
  | nil => rwa [List.append_nil]
  | cons cb col ih =>
    rw [List.append_cons]
    exact ih (h.lcsRow cb)

/-- The last cell of the last row. -/
private theorem lcsRows_lcs (row col : List String) :
    LcsLength col row ((lcsRows row col).getD row.length 0) := by
  have hstart : Rows [] row
      (List.replicate (row.length + 1) 0, List.replicate (row.length + 1) 0) :=
    ⟨filled_start row, List.length_replicate, fun v hv => (List.mem_replicate.mp hv).2⟩
  have hend := (hstart.foldl col).prev.cell row.length le_rfl
  rwa [List.take_length, List.nil_append] at hend

/-- `lcs_len` is the length of a longest common subsequence. -/
private theorem lcsLen_lcs (a b : List String) : LcsLength a b (lcsLen a b) := by
  unfold lcsLen
  split
  · rename_i hempty
    rcases Bool.or_eq_true _ _ ▸ hempty with ha | hb
    · rw [List.isEmpty_iff.mp ha]
      exact .nil_left b
    · rw [List.isEmpty_iff.mp hb]
      exact .nil_right a
  · split
    · exact (lcsRows_lcs a b).comm
    · exact lcsRows_lcs b a

/-! ## The score -/

section Score

variable {F : Type} [F64 F]

/-- `==` on `f64`, false on NaN. -/
def same (x y : F) : Bool := F64.le x y && F64.le y x

/-- A count `as f64`. -/
def ofCount (n : Nat) : F := F64.ofRat n

def rougeL (letters : Letters) (reference candidate : String) : F :=
  let r := tokenize letters reference
  let c := tokenize letters candidate
  if r.isEmpty || c.isEmpty then F64.ofRat 0
  else
    let lcs : F := ofCount (lcsLen r c)
    let precision := F64.div lcs (ofCount c.length)
    let recall' := F64.div lcs (ofCount r.length)
    if same (F64.add precision recall') (F64.ofRat 0) then F64.ofRat 0
    else F64.div (F64.mul (F64.mul (F64.ofRat 2) precision) recall') (F64.add precision recall')

end Score

/-- The score of two token lists of which `lcs` is the longest common length. -/
def fMeasure (r c : List String) (lcs : Nat) : ℚ :=
  if r = [] ∨ c = [] then 0 else 2 * lcs / (r.length + c.length)

private theorem length_pos_rat {xs : List String} (h : xs ≠ []) : (0 : ℚ) < xs.length :=
  Nat.cast_pos.mpr (List.length_pos_iff.mpr h)

/-- The harmonic mean of precision and recall is twice the common length over both lengths. -/
private theorem harmonic_eq {l m n : ℚ} (hm : 0 < m) (hn : 0 < n) (hl : l ≠ 0) :
    2 * (l / n) * (l / m) / (l / n + l / m) = 2 * l / (m + n) := by
  have hsum : l / n + l / m = l * (m + n) / (n * m) := by
    field_simp
  have hpos : m + n ≠ 0 := (add_pos hm hn).ne'
  rw [hsum]
  field_simp

private theorem rougeL_eq (letters : Letters) (reference candidate : String) :
    (rougeL letters reference candidate : ℚ) =
      fMeasure (tokenize letters reference) (tokenize letters candidate)
        (lcsLen (tokenize letters reference) (tokenize letters candidate)) := by
  unfold rougeL fMeasure
  generalize tokenize letters reference = r
  generalize tokenize letters candidate = c
  dsimp only
  by_cases hempty : r = [] ∨ c = []
  · rw [if_pos hempty, if_pos (by simpa using hempty)]
    rfl
  · rw [if_neg hempty, if_neg (by simpa using hempty)]
    obtain ⟨hr, hc⟩ := not_or.mp hempty
    have hm := length_pos_rat hr
    have hn := length_pos_rat hc
    show (if same ((lcsLen r c : ℚ) / c.length + lcsLen r c / r.length) (0 : ℚ) then (0 : ℚ)
      else 2 * (lcsLen r c / c.length) * (lcsLen r c / r.length) /
        (lcsLen r c / c.length + lcsLen r c / r.length)) = _
    have hsame : same ((lcsLen r c : ℚ) / c.length + lcsLen r c / r.length) (0 : ℚ) = true ↔
        lcsLen r c = 0 := by
      have hp : 0 ≤ (lcsLen r c : ℚ) / c.length := div_nonneg (Nat.cast_nonneg _) hn.le
      have hq : 0 ≤ (lcsLen r c : ℚ) / r.length := div_nonneg (Nat.cast_nonneg _) hm.le
      show (decide _ && decide _) = true ↔ _
      rw [Bool.and_eq_true, decide_eq_true_eq, decide_eq_true_eq, ← le_antisymm_iff,
        add_eq_zero_iff_of_nonneg hp hq, div_eq_zero_iff, div_eq_zero_iff, Nat.cast_eq_zero]
      exact ⟨fun h => h.1.resolve_right hn.ne', fun h => ⟨.inl h, .inl h⟩⟩
    by_cases hzero : lcsLen r c = 0
    · rw [if_pos (hsame.mpr hzero), hzero, Nat.cast_zero, mul_zero, zero_div]
    · rw [if_neg (hsame.not.mpr hzero)]
      exact harmonic_eq hm hn (Nat.cast_ne_zero.mpr hzero)

/-! ## A similarity -/

private theorem fMeasure_nonneg (r c : List String) (lcs : Nat) : 0 ≤ fMeasure r c lcs := by
  unfold fMeasure
  split
  · exact le_rfl
  · positivity

private theorem fMeasure_comm (r c : List String) (lcs : Nat) :
    fMeasure c r lcs = fMeasure r c lcs := by
  unfold fMeasure
  simp only [or_comm, add_comm]

private theorem fMeasure_le_one {r c : List String} {lcs : Nat} (h : LcsLength r c lcs) :
    fMeasure r c lcs ≤ 1 := by
  unfold fMeasure
  split
  · exact zero_le_one
  · next hne =>
    have hpos := add_pos (length_pos_rat (not_or.mp hne).1) (length_pos_rat (not_or.mp hne).2)
    rw [div_le_one hpos]
    have hle : 2 * lcs ≤ r.length + c.length := by
      have hr := h.le_left
      have hc := h.le_right
      omega
    exact_mod_cast hle

/-- The score is one exactly for the same tokens, as long as there are any. -/
private theorem fMeasure_eq_one {r c : List String} {lcs : Nat} (h : LcsLength r c lcs) :
    fMeasure r c lcs = 1 ↔ r = c ∧ r ≠ [] := by
  unfold fMeasure
  split
  · next hempty =>
    refine iff_of_false zero_ne_one fun ⟨heq, hne⟩ => ?_
    rcases hempty with hr | hc
    · exact hne hr
    · exact hne (heq.trans hc)
  · next hne =>
    have hpos := add_pos (length_pos_rat (not_or.mp hne).1) (length_pos_rat (not_or.mp hne).2)
    have hfull : 2 * lcs = r.length + c.length ↔ r = c := by
      rw [← h.full_iff]
      have hr := h.le_left
      have hc := h.le_right
      omega
    rw [div_eq_one_iff_eq hpos.ne', and_iff_left (not_or.mp hne).1, ← hfull]
    exact_mod_cast Iff.rfl

/-- The score is zero exactly if no token is shared. -/
private theorem fMeasure_eq_zero {r c : List String} {lcs : Nat} (h : LcsLength r c lcs) :
    fMeasure r c lcs = 0 ↔ ∀ t ∈ r, t ∉ c := by
  rw [← h.zero_iff]
  unfold fMeasure
  split
  · next hempty =>
    refine iff_of_true rfl ?_
    rcases hempty with rfl | rfl
    · exact Nat.le_zero.mp h.le_left
    · exact Nat.le_zero.mp h.le_right
  · next hne =>
    have hpos := add_pos (length_pos_rat (not_or.mp hne).1) (length_pos_rat (not_or.mp hne).2)
    rw [div_eq_zero_iff, or_iff_left hpos.ne', mul_eq_zero, or_iff_right two_ne_zero,
      Nat.cast_eq_zero]

private theorem lcsLen_comm (a b : List String) : lcsLen b a = lcsLen a b :=
  (lcsLen_lcs b a).comm.unique (lcsLen_lcs a b)

/-- `lcs_len` is the length of a longest common subsequence in either order, and the score of two texts
is twice that over the number of tokens: symmetric, between zero and one, one for the same tokens only
and zero without a shared token only. -/
theorem rouge_similarity (letters : Letters) (reference candidate : String) :
    let r := tokenize letters reference
    let c := tokenize letters candidate
    let score : ℚ := rougeL letters reference candidate
    LcsLength r c (lcsLen r c) ∧ lcsLen c r = lcsLen r c ∧
    score = (if r = [] ∨ c = [] then 0 else 2 * (lcsLen r c : ℚ) / (r.length + c.length)) ∧
    rougeL letters candidate reference = score ∧ 0 ≤ score ∧ score ≤ 1 ∧
    (score = 1 ↔ r = c ∧ r ≠ []) ∧ (score = 0 ↔ ∀ t ∈ r, t ∉ c) := by
  intro r c score
  have hlcs : LcsLength r c (lcsLen r c) := lcsLen_lcs r c
  have hscore : score = fMeasure r c (lcsLen r c) := rougeL_eq letters reference candidate
  have hback : (rougeL letters candidate reference : ℚ) = score := by
    rw [hscore, rougeL_eq letters candidate reference, lcsLen_comm, fMeasure_comm]
  rw [hback, hscore]
  exact ⟨hlcs, lcsLen_comm r c, rfl, rfl, fMeasure_nonneg r c _, fMeasure_le_one hlcs,
    fMeasure_eq_one hlcs, fMeasure_eq_zero hlcs⟩

end AgosMemory.Rouge
