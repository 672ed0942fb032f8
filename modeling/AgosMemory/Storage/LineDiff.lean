import AgosMemory.Library.Subsequence
import AgosMemory.Storage.Frame
import AgosMemory.System

/-!
# The line diff is a shortest one

Each cell of the table is the length of a longest common subsequence of two prefixes, the walk back
collects as many pairs as its cell says, and the lines that it leaves unmatched are a shortest line
edit. It is empty exactly if the two texts have the same lines.
-/

namespace AgosMemory.Diff

open Library.Subsequence

/-! ## The table -/

/-- The entries of a table row, from the column of `seen` on: one for each prefix of what follows. -/
structure IsRow (xs seen rest : List String) (row : List Nat) : Prop where
  length : row.length = rest.length + 1
  entry : ∀ k v, row[k]? = some v → LcsLength xs (seen ++ rest.take k) v

theorem IsRow.head {xs seen rest : List String} {v : Nat} {row : List Nat}
    (h : IsRow xs seen rest (v :: row)) : LcsLength xs seen v := by
  have hv := h.entry 0 v rfl
  rwa [List.take_zero, List.append_nil] at hv

theorem IsRow.tail {xs seen rest : List String} {b : String} {v : Nat} {row : List Nat}
    (h : IsRow xs seen (b :: rest) (v :: row)) : IsRow xs (seen ++ [b]) rest row where
  length := Nat.succ.inj h.length
  entry k v hv := by
    have hnext := h.entry (k + 1) v hv
    rwa [List.take_succ_cons, List.append_cons] at hnext

/-- An entry in front of a row that starts one column later. -/
theorem IsRow.cons {xs seen rest : List String} {b : String} {v : Nat} {row : List Nat}
    (hv : LcsLength xs seen v) (h : IsRow xs (seen ++ [b]) rest row) :
    IsRow xs seen (b :: rest) (v :: row) where
  length := congrArg Nat.succ h.length
  entry k w hw := by
    cases k with
    | zero =>
      obtain rfl := Option.some.inj hw
      rwa [List.take_zero, List.append_nil]
    | succ k =>
      rw [List.take_succ_cons, List.append_cons]
      exact h.entry k w hw

/-- The cells computed for one more line of the old text are the next row. -/
private theorem isRow_lcsCells {xs : List String} {a : String} (new : List String)
    {seen : List String}
    {above : List Nat} {left : Nat} (habove : IsRow xs seen new above)
    (hleft : LcsLength (xs ++ [a]) seen left) :
    IsRow (xs ++ [a]) seen new (left :: lcsCells a new above left) := by
  induction new generalizing seen above left with
  | nil =>
    have hend : lcsCells a [] above left = [] := by unfold lcsCells; rfl
    rw [hend]
    refine ⟨rfl, fun k v hv => ?_⟩
    rw [List.take_nil, List.append_nil]
    cases k with
    | zero => exact Option.some.inj hv ▸ hleft
    | succ k => cases hv
  | cons b new ih =>
    obtain ⟨diag, up, row, rfl⟩ : ∃ diag up row, above = diag :: up :: row := by
      match above, habove.length with
      | diag :: up :: row, _ => exact ⟨diag, up, row, rfl⟩
    have hcell : LcsLength (xs ++ [a]) (seen ++ [b]) (if a = b then diag + 1 else max up left) := by
      by_cases hab : a = b
      · rw [if_pos hab, ← hab]
        exact habove.head.concat_same a
      · rw [if_neg hab]
        exact .concat_ne hab habove.tail.head hleft
    exact .cons hleft (ih habove.tail hcell)

/-- Row `i` of the table belongs to the first `i` lines of the old text. -/
private theorem isRow_lcsTable {new : List String} (old : List String) {xs : List String}
    {above : List Nat}
    (habove : IsRow xs [] new above) {i : Nat} (hi : i ≤ old.length) :
    IsRow (xs ++ old.take i) [] new ((lcsTable new old above).getD i []) := by
  induction old generalizing xs above i with
  | nil =>
    obtain rfl : i = 0 := Nat.le_zero.mp hi
    rw [List.take_zero, List.append_nil]
    exact habove
  | cons a old ih =>
    cases i with
    | zero =>
      rw [List.take_zero, List.append_nil]
      exact habove
    | succ i =>
      have hnext := ih (isRow_lcsCells new habove (.nil_right (xs ++ [a])))
        (Nat.le_of_succ_le_succ hi)
      rw [List.take_succ_cons, List.append_cons]
      exact hnext

/-- The table of two texts. -/
def tableOf (old new : List String) : List (List Nat) :=
  lcsTable new old (List.replicate (new.length + 1) 0)

private theorem cell_lcs {old new : List String} {i j : Nat} (hi : i ≤ old.length)
    (hj : j ≤ new.length) :
    LcsLength (old.take i) (new.take j) (cell (tableOf old new) i j) := by
  have hfirst : IsRow [] [] new (List.replicate (new.length + 1) 0) :=
    ⟨List.length_replicate, fun k v hv => by
      rw [(List.mem_replicate.mp (List.mem_of_getElem? hv)).2]
      exact .nil_left _⟩
  have hrow : IsRow (old.take i) [] new ((tableOf old new).getD i []) :=
    isRow_lcsTable old hfirst hi
  unfold cell
  generalize (tableOf old new).getD i [] = row at hrow
  have hlt : j < row.length := by
    have hlength := hrow.length
    omega
  refine hrow.entry j _ ?_
  rw [List.getD_eq_getElem?_getD, List.getElem?_eq_getElem hlt]
  rfl

/-! ## The walk back -/

/-- Pairs of positions of equal lines, increasing on both sides and before `(i, j)`. -/
structure Matching (old new : List String) (i j : Nat) (pairs : List (Nat × Nat)) : Prop where
  increasing : pairs.Pairwise fun p q => p.1 < q.1 ∧ p.2 < q.2
  equal : ∀ p ∈ pairs, ∃ line, old[p.1]? = some line ∧ new[p.2]? = some line
  before : ∀ p ∈ pairs, p.1 < i ∧ p.2 < j

theorem Matching.nil (old new : List String) (i j : Nat) : Matching old new i j [] :=
  ⟨List.Pairwise.nil, List.forall_mem_nil _, List.forall_mem_nil _⟩

theorem Matching.mono {old new : List String} {i i' j j' : Nat} {pairs : List (Nat × Nat)}
    (h : Matching old new i j pairs) (hi : i ≤ i') (hj : j ≤ j') : Matching old new i' j' pairs :=
  ⟨h.increasing, h.equal, fun p hp => ⟨Nat.lt_of_lt_of_le (h.before p hp).1 hi,
    Nat.lt_of_lt_of_le (h.before p hp).2 hj⟩⟩

theorem Matching.concat {old new : List String} {i j : Nat} {pairs : List (Nat × Nat)}
    (h : Matching old new i j pairs) {line : String} (hold : old[i]? = some line)
    (hnew : new[j]? = some line) : Matching old new (i + 1) (j + 1) (pairs ++ [(i, j)]) where
  increasing := List.pairwise_append.mpr ⟨h.increasing, List.pairwise_singleton _ _, fun p hp q hq =>
    List.mem_singleton.mp hq ▸ h.before p hp⟩
  equal p hp := by
    rcases List.mem_append.mp hp with hp | hp
    · exact h.equal p hp
    · rw [List.mem_singleton.mp hp]
      exact ⟨line, hold, hnew⟩
  before p hp := by
    rcases List.mem_append.mp hp with hp | hp
    · have hlt := h.before p hp
      omega
    · rw [List.mem_singleton.mp hp]
      omega

private theorem take_concat {xs : List String} {i : Nat} {a : String} (h : xs[i]? = some a) :
    xs.take (i + 1) = xs.take i ++ [a] := by
  rw [List.take_add_one, h]
  rfl

/-- From a cell on, the walk collects a matching of its length. -/
private theorem backtrack_spec {old new : List String} (steps : Nat) {i j : Nat}
    (hsteps : i + j ≤ steps)
    (hi : i ≤ old.length) (hj : j ≤ new.length) :
    Matching old new i j (backtrack old new (tableOf old new) steps i j) ∧
      LcsLength (old.take i) (new.take j)
        (backtrack old new (tableOf old new) steps i j).length := by
  induction steps generalizing i j with
  | zero =>
    obtain rfl : i = 0 := by omega
    exact ⟨.nil _ _ _ _, .nil_left _⟩
  | succ steps ih =>
    match i, j with
    | 0, j => exact ⟨.nil _ _ _ _, .nil_left _⟩
    | i + 1, 0 => exact ⟨.nil _ _ _ _, .nil_right _⟩
    | i + 1, j + 1 =>
      obtain ⟨a, ha⟩ : ∃ a, old[i]? = some a := ⟨_, List.getElem?_eq_getElem hi⟩
      obtain ⟨b, hb⟩ : ∃ b, new[j]? = some b := ⟨_, List.getElem?_eq_getElem hj⟩
      unfold backtrack
      by_cases hab : a = b
      · subst hab
        rw [if_pos (ha.trans hb.symm)]
        obtain ⟨hmatching, hlcs⟩ := ih (i := i) (j := j) (by omega) (by omega) (by omega)
        refine ⟨hmatching.concat ha hb, ?_⟩
        rw [take_concat ha, take_concat hb, List.length_append]
        exact hlcs.concat_same a
      · have hne : old[i]? ≠ new[j]? := by
          rw [ha, hb]
          exact fun h => hab (Option.some.inj h)
        rw [if_neg hne]
        -- the two neighbours are what the walk compares
        have hup := cell_lcs (i := i) (j := j + 1) (Nat.le_of_succ_le hi) hj
        have hleft := cell_lcs (i := i + 1) (j := j) hi (Nat.le_of_succ_le hj)
        have hmax : LcsLength (old.take (i + 1)) (new.take (j + 1))
            (max (cell (tableOf old new) i (j + 1)) (cell (tableOf old new) (i + 1) j)) := by
          rw [take_concat ha, take_concat hb] at *
          exact .concat_ne hab hup hleft
        split
        · next hle =>
          obtain ⟨hmatching, hlcs⟩ := ih (i := i) (j := j + 1) (by omega) (by omega) hj
          refine ⟨hmatching.mono (Nat.le_succ i) (Nat.le_refl _), ?_⟩
          rw [Nat.max_eq_left hle, hup.unique hlcs] at hmax
          exact hmax
        · next hlt =>
          obtain ⟨hmatching, hlcs⟩ := ih (i := i + 1) (j := j) (by omega) hi (by omega)
          refine ⟨hmatching.mono (Nat.le_refl _) (Nat.le_succ j), ?_⟩
          rw [Nat.max_eq_right (by omega), hleft.unique hlcs] at hmax
          exact hmax

private theorem computeLcs_spec (old new : List String) :
    Matching old new old.length new.length (computeLcs old new) ∧
      LcsLength old new (computeLcs old new).length := by
  have hspec := backtrack_spec (old.length + new.length) (Nat.le_refl _) (Nat.le_refl old.length)
    (Nat.le_refl new.length)
  rwa [List.take_length, List.take_length] at hspec

/-! ## The unmatched lines -/

/-- The lines whose positions are not listed. -/
def unmatched (xs : List String) (positions : List Nat) : List String :=
  (xs.zipIdx.filter fun p => p.2 ∉ positions).map Prod.fst

/-- What one side of the diff lists: the lines between the matched positions, from `i` on. -/
def gaps (xs : List String) : List Nat → Nat → List String
  | [], i => xs.drop i
  | a :: positions, i => (xs.drop i).take (a - i) ++ gaps xs positions (max i a + 1)

private theorem lineDiffFrom_eq (old new : List String) (pairs : List (Nat × Nat)) (i j : Nat) :
    lineDiffFrom old new pairs i j =
      ⟨gaps new (pairs.map Prod.snd) j, gaps old (pairs.map Prod.fst) i⟩ := by
  induction pairs generalizing i j with
  | nil => rfl
  | cons p pairs ih => simp only [lineDiffFrom, ih, List.map_cons, gaps]

/-- Increasing positions of a list, none before `i`. -/
structure Positions (xs : List String) (positions : List Nat) (i : Nat) : Prop where
  increasing : positions.Pairwise (· < ·)
  within : ∀ a ∈ positions, i ≤ a ∧ a < xs.length

theorem Positions.tail {xs : List String} {a i : Nat} {positions : List Nat}
    (h : Positions xs (a :: positions) i) : Positions xs positions (a + 1) where
  increasing := h.increasing.of_cons
  within b hb := ⟨List.rel_of_pairwise_cons h.increasing hb,
    (h.within b (List.mem_cons_of_mem _ hb)).2⟩

/-- The lines up to the first matched position, that position and the lines after it. -/
private theorem drop_split {xs : List String} {a i : Nat} {line : String} (hi : i ≤ a)
    (hline : xs[a]? = some line) :
    xs.drop i = (xs.drop i).take (a - i) ++ line :: xs.drop (a + 1) := by
  have hrest : xs.drop a = line :: xs.drop (a + 1) := by
    obtain ⟨hlt, hget⟩ := List.getElem?_eq_some_iff.mp hline
    rw [List.drop_eq_getElem_cons hlt, hget]
  calc xs.drop i = (xs.drop i).take (a - i) ++ (xs.drop i).drop (a - i) :=
        (List.take_append_drop _ _).symm
    _ = (xs.drop i).take (a - i) ++ line :: xs.drop (a + 1) := by
        rw [List.drop_drop, show i + (a - i) = a by omega, hrest]

/-- Deleting the lines between the positions leaves the lines at the positions. -/
private theorem gaps_deleting {xs : List String} {positions : List Nat} {i : Nat}
    (h : Positions xs positions i) :
    Deleting (xs.drop i) (gaps xs positions i) (positions.filterMap fun a => xs[a]?) := by
  induction positions generalizing i with
  | nil => exact .all _
  | cons a positions ih =>
    obtain ⟨hi, hlt⟩ := h.within a List.mem_cons_self
    have hline : xs[a]? = some xs[a] := List.getElem?_eq_getElem hlt
    rw [List.filterMap_cons_some hline, gaps, Nat.max_eq_right hi]
    have hsplit := (Deleting.all ((xs.drop i).take (a - i))).append ((ih h.tail).keep xs[a])
    rwa [← drop_split hi hline] at hsplit

/-- They are the lines at no position. -/
private theorem gaps_eq_filter {xs : List String} {positions : List Nat} {i : Nat}
    (h : Positions xs positions i) : gaps xs positions i =
      (((xs.drop i).zipIdx i).filter fun p => p.2 ∉ positions).map Prod.fst := by
  induction positions generalizing i with
  | nil =>
    have hall : ((xs.drop i).zipIdx i).filter (fun p => p.2 ∉ ([] : List Nat)) =
        (xs.drop i).zipIdx i := List.filter_eq_self.mpr fun p _ => by simp
    rw [hall, List.zipIdx_map_fst]
    rfl
  | cons a positions ih =>
    obtain ⟨hi, hlt⟩ := h.within a List.mem_cons_self
    have hline : xs[a]? = some xs[a] := List.getElem?_eq_getElem hlt
    have hlength : ((xs.drop i).take (a - i)).length = a - i := by
      rw [List.length_take, List.length_drop]
      omega
    have hbefore : (((xs.drop i).take (a - i)).zipIdx i).filter (fun p => p.2 ∉ a :: positions) =
        ((xs.drop i).take (a - i)).zipIdx i := by
      refine List.filter_eq_self.mpr fun p hp => ?_
      have hlt' := List.snd_lt_add_of_mem_zipIdx hp
      rw [decide_eq_true_eq]
      intro hmem
      rcases List.mem_cons.mp hmem with heq | hmem
      · omega
      · have := List.rel_of_pairwise_cons h.increasing hmem
        omega
    have hafter : ((xs.drop (a + 1)).zipIdx (a + 1)).filter (fun p => p.2 ∉ a :: positions) =
        ((xs.drop (a + 1)).zipIdx (a + 1)).filter (fun p => p.2 ∉ positions) := by
      refine List.filter_congr fun p hp => ?_
      have hle := List.le_snd_of_mem_zipIdx hp
      have hne : p.2 ≠ a := by omega
      simp only [List.mem_cons, hne, false_or]
    rw [gaps, Nat.max_eq_right hi, ih h.tail]
    conv_rhs => rw [drop_split hi hline]
    rw [List.zipIdx_append, hlength, show i + (a - i) = a by omega, List.zipIdx_cons,
      List.filter_append, hbefore, List.filter_cons_of_neg (by simp), hafter, List.map_append,
      List.zipIdx_map_fst]

theorem Matching.positions_fst {old new : List String} {i j : Nat} {pairs : List (Nat × Nat)}
    (h : Matching old new i j pairs) : Positions old (pairs.map Prod.fst) 0 where
  increasing := List.pairwise_map.mpr (h.increasing.imp And.left)
  within a ha := by
    obtain ⟨p, hp, rfl⟩ := List.mem_map.mp ha
    obtain ⟨line, hline, _⟩ := h.equal p hp
    exact ⟨Nat.zero_le _, (List.getElem?_eq_some_iff.mp hline).1⟩

theorem Matching.positions_snd {old new : List String} {i j : Nat} {pairs : List (Nat × Nat)}
    (h : Matching old new i j pairs) : Positions new (pairs.map Prod.snd) 0 where
  increasing := List.pairwise_map.mpr (h.increasing.imp And.right)
  within a ha := by
    obtain ⟨p, hp, rfl⟩ := List.mem_map.mp ha
    obtain ⟨line, _, hline⟩ := h.equal p hp
    exact ⟨Nat.zero_le _, (List.getElem?_eq_some_iff.mp hline).1⟩

/-- The lines at the matched positions are the same on both sides, one for each pair. -/
theorem Matching.common {old new : List String} {i j : Nat} {pairs : List (Nat × Nat)}
    (h : Matching old new i j pairs) :
    (pairs.map Prod.fst).filterMap (fun a => old[a]?) =
        (pairs.map Prod.snd).filterMap (fun a => new[a]?) ∧
      ((pairs.map Prod.fst).filterMap fun a => old[a]?).length = pairs.length := by
  have hequal := h.equal
  clear h
  induction pairs with
  | nil => exact ⟨rfl, rfl⟩
  | cons p pairs ih =>
    obtain ⟨line, hold, hnew⟩ := hequal p List.mem_cons_self
    obtain ⟨hsame, hlength⟩ := ih fun q hq => hequal q (List.mem_cons_of_mem _ hq)
    rw [List.map_cons, List.map_cons, List.filterMap_cons_some hold, List.filterMap_cons_some hnew]
    exact ⟨congrArg (line :: ·) hsame, congrArg Nat.succ hlength⟩

/-- Both deletions of a line diff, which leave what its pairs match. -/
private theorem computeLineDiff_deleting (old new : String) : ∃ common,
    Deleting (lines old) (computeLineDiff old new).removed common ∧
    Deleting (lines new) (computeLineDiff old new).added common ∧
    LcsLength (lines old) (lines new) common.length := by
  obtain ⟨hmatching, hlcs⟩ := computeLcs_spec (lines old) (lines new)
  obtain ⟨hsame, hlength⟩ := hmatching.common
  have hold := gaps_deleting hmatching.positions_fst
  have hnew := gaps_deleting hmatching.positions_snd
  refine ⟨_, ?_, ?_, hlength ▸ hlcs⟩
  · rw [computeLineDiff, lineDiffFrom_eq]
    exact hold
  · rw [computeLineDiff, lineDiffFrom_eq, hsame]
    exact hnew

/-- The pairs of `compute_lcs` match equal lines in increasing positions, and are as many as a longest
common subsequence is long. The line diff lists the lines that they leave unmatched, which is a
shortest line edit. -/
theorem line_diff_shortest :
    (∀ old new : List String,
      (computeLcs old new).Pairwise (fun p q => p.1 < q.1 ∧ p.2 < q.2) ∧
      (∀ p ∈ computeLcs old new, ∃ line, old[p.1]? = some line ∧ new[p.2]? = some line) ∧
      LcsLength old new (computeLcs old new).length) ∧
    ∀ old new : String,
      let pairs := computeLcs (lines old) (lines new)
      let diff := computeLineDiff old new
      diff.removed = unmatched (lines old) (pairs.map Prod.fst) ∧
      diff.added = unmatched (lines new) (pairs.map Prod.snd) ∧
      LineEdit (lines old) (lines new) diff.removed diff.added ∧
      Minimal (lines old) (lines new) diff.removed diff.added := by
  refine ⟨fun old new => ?_, fun old new => ?_⟩
  · obtain ⟨hmatching, hlcs⟩ := computeLcs_spec old new
    exact ⟨hmatching.increasing, hmatching.equal, hlcs⟩
  · obtain ⟨hmatching, _⟩ := computeLcs_spec (lines old) (lines new)
    obtain ⟨common, hold, hnew, hlcs⟩ := computeLineDiff_deleting old new
    refine ⟨?_, ?_, ⟨common, hold, hnew⟩, minimal_of_lcs hold hnew hlcs⟩
    · rw [computeLineDiff, lineDiffFrom_eq]
      exact gaps_eq_filter hmatching.positions_fst
    · rw [computeLineDiff, lineDiffFrom_eq]
      exact gaps_eq_filter hmatching.positions_snd

/-- The diff is empty exactly if the two texts have the same lines. -/
private theorem computeLineDiff_empty (old new : String) :
    (computeLineDiff old new).added = [] ∧ (computeLineDiff old new).removed = [] ↔
      lines old = lines new := by
  obtain ⟨common, hold, hnew, hlcs⟩ := computeLineDiff_deleting old new
  refine ⟨fun ⟨hadded, hremoved⟩ => ?_, fun hsame => ?_⟩
  · rw [hremoved] at hold
    rw [hadded] at hnew
    exact hold.eq_of_nil.symm.trans hnew.eq_of_nil
  · have hshort := minimal_of_lcs hold hnew hlcs [] [] ⟨lines old, .none _, hsame ▸ .none _⟩
    rw [List.length_nil] at hshort
    exact ⟨List.length_eq_zero_iff.mp (by omega), List.length_eq_zero_iff.mp (by omega)⟩

end AgosMemory.Diff

/-! ## The recorded flag -/

namespace AgosMemory.Store

open Library.Program

variable {F : Type} [F64 F] {env : Env F}

/-- The diff that an update records, from the text of the latest version. -/
def diffOf (env : Env F) (old new : String) : DiffJson :=
  let diff := Diff.computeLineDiff old new
  { oldHash := env.sha256Hex old, newHash := env.sha256Hex new
    addedLines := diff.added, removedLines := diff.removed
    changed := !diff.added.isEmpty || !diff.removed.isEmpty }

omit [F64 F] in
private theorem diffOf_changed (env : Env F) (old new : String) :
    (diffOf env old new).changed = true ↔ Diff.lines old ≠ Diff.lines new := by
  rw [Ne, ← Diff.computeLineDiff_empty]
  simp only [diffOf, Bool.or_eq_true, Bool.not_eq_true', List.isEmpty_eq_false_iff]
  by_cases hadded : (Diff.computeLineDiff old new).added = [] <;> simp [hadded]

/-- The latest version of a memory. -/
def latest? (db : Db F) (id : Int) : Option MemoryVersion :=
  db.versions.find? fun v => v.memoryId = id ∧ v.version = maxVersion db id

/-- What an update that stores a text leaves in the versions, whatever its outcome: at most one more,
which records the difference to the latest one if that was read. -/
def Records (env : Env F) (id : Int) (text : String) (c : Conn F)
    (x : Except Error MemoryRow × Conn F) : Prop :=
  x.2.db.versions = c.db.versions ∨ ∃ v, x.2.db.versions = c.db.versions ++ [v] ∧
    v.memoryId = id ∧ v.version = maxVersion c.db id + 1 ∧ v.text = text ∧
    v.diffJson = if !env.fault (c.stmts + 1) then
      (latest? c.db id).map fun old => diffOf env old.text text else none

def SameVersions (db db' : Db F) : Prop := db'.versions = db.versions

instance : Std.Refl (SameVersions (F := F)) := ⟨fun _ => rfl⟩

instance : IsTrans (Db F) SameVersions := ⟨fun _ _ _ h h' => h'.trans h⟩

omit [F64 F] in
/-- The read of the latest version, tried. -/
private theorem attempt_latest (id : Int) (c : Conn F) :
    (getMemoryVersion env id (maxVersion c.db id) c).1.toOption.join =
      if !env.fault c.stmts then latest? c.db id else none := by
  unfold getMemoryVersion
  cases hfault : env.fault c.stmts with
  | true => rw [query_of_fault hfault]; rfl
  | false => rw [query_of_noFault hfault]; rfl

variable (env) in
omit [F64 F] in
private theorem update_records (id : Int) (text : String) (source reason createdBy : Option String)
    (c : Conn F) :
    Records env id text c (updateMemoryWithProvenance env id text source reason createdBy c) := by
  unfold updateMemoryWithProvenance
  apply bind_cases (P := Records env id text c)
  · intro e t h
    have hdb : (query env (fun db => .ok (maxVersion db id)) c).2.db = c.db := query_db _ c
    rw [h] at hdb
    exact .inl (congrArg Db.versions hdb)
  intro version s₁ h₁
  obtain ⟨rfl, rfl⟩ : version = maxVersion c.db id ∧ s₁ = { c with stmts := c.stmts + 1 } := by
    cases hfault : env.fault c.stmts with
    | true =>
      rw [query_of_fault hfault] at h₁
      cases h₁
    | false =>
      rw [query_of_noFault hfault] at h₁
      obtain ⟨hversion, hs₁⟩ := Prod.mk.inj h₁
      exact ⟨(Except.ok.inj hversion).symm, hs₁.symm⟩
  apply bind_cases (P := Records env id text c)
  · intro e t h
    cases h
  intro prev s₂ h₂
  have hdb₂ : s₂.db = c.db := by
    rw [← (Prod.mk.inj h₂).2]
    exact query_db _ { c with stmts := c.stmts + 1 }
  have hprev : prev.toOption.join = if !env.fault (c.stmts + 1) then latest? c.db id else none := by
    rw [← Except.ok.inj (Prod.mk.inj h₂).1]
    exact attempt_latest id { c with stmts := c.stmts + 1 }
  rw [hprev]
  apply bind_cases (P := Records env id text c)
  · intro e t h
    cases h
  intro now s₃ h₃
  obtain ⟨_, rfl⟩ := Prod.mk.inj h₃
  apply bind_cases (P := Records env id text c)
  · intro e t h
    obtain ⟨_, _, ⟨_, hdb⟩ | ⟨_, hok, _⟩⟩ := exec_cases h
    · exact .inl (congrArg Db.versions (hdb.trans hdb₂))
    · cases hok
  intro _ s₄ h₄
  obtain ⟨_, _, hdb₄⟩ := insertVersion_ok (exec_ok h₄)
  -- what follows the version leaves the versions as they are
  have hrest : Moves (OnDb SameVersions) (do
      let current ← query env fun db => one (db.memory? id)
      let trust := (source.map (trustAfterSource current.trust)).getD current.trust
      let kept := (source.map (sourceKindAfter current)).getD current.sourceKind.sql
      exec env (retext id text (env.sha256Hex text) trust kept source now)
      run env fun db => db.updateVec id fun v => { v with trust := trust.code }
      query env fun db => (one (db.memory? id)).map rowOf) := by
    refine moves_bind onDb_query fun current => ?_
    refine moves_bind (onDb_exec fun db _ db' h => ?_) fun _ => ?_
    · obtain ⟨_, _, _, rfl⟩ := retext_update h
      rfl
    · exact moves_bind (onDb_run fun db => rfl) fun _ => onDb_query
  have hadded := congrArg Db.versions hdb₄
  dsimp only at hadded
  rw [hdb₂] at hadded
  refine .inr ⟨_, (hrest s₄).trans hadded, rfl, rfl, rfl, ?_⟩
  cases env.fault (c.stmts + 1) with
  | true => rfl
  | false => exact Option.map_map _ _ _

/-- The flag of a recorded difference is set exactly if the texts differ, that is, their hashes. -/
def Truthful (diff : DiffJson) (old new : String) : Prop :=
  (diff.changed = true ↔ old ≠ new) ∧ (diff.changed = true ↔ diff.oldHash ≠ diff.newHash)

omit [F64 F] in
private theorem truthful_iff (hinjective : Function.Injective env.sha256Hex) (old new : String) :
    Truthful (diffOf env old new) old new ↔ old = new ∨ Diff.lines old ≠ Diff.lines new := by
  have hhash : (diffOf env old new).oldHash ≠ (diffOf env old new).newHash ↔ old ≠ new :=
    hinjective.ne_iff
  rw [Truthful, hhash, and_self, diffOf_changed]
  by_cases hsame : old = new
  · simp [hsame]
  · simp [hsame]

omit [F64 F] in
/-- An update adds at most one version. The difference it records is between the text of the latest
version before it and the new one, and its flag is truthful exactly if the two texts are the same or
have different lines: texts that differ in carriage returns before newlines or in a newline at the end
count as unchanged. -/
theorem changed_truthful_iff (hinjective : Function.Injective env.sha256Hex) (id : Int)
    (text : String) (source reason createdBy : Option String) (c : Conn F) :
    let c' := (updateMemoryWithProvenance env id text source reason createdBy c).2
    c'.db.versions = c.db.versions ∨ ∃ v, c'.db.versions = c.db.versions ++ [v] ∧
      v.memoryId = id ∧ v.text = text ∧
      (∀ diff, v.diffJson = some diff → ∃ old, latest? c.db id = some old ∧
        (Truthful diff old.text text ↔
          old.text = text ∨ Diff.lines old.text ≠ Diff.lines text)) ∧
      (env.fault (c.stmts + 1) = false → (latest? c.db id).isSome → v.diffJson.isSome) := by
  dsimp only
  rcases update_records env id text source reason createdBy c with
    hsame | ⟨v, hadded, hid, _, htext, hdiff⟩
  · exact .inl hsame
  refine .inr ⟨v, hadded, hid, htext, fun diff hsome => ?_, fun hfault hlatest => ?_⟩
  · rw [hdiff] at hsome
    split at hsome
    · obtain ⟨old, hold, rfl⟩ := Option.map_eq_some_iff.mp hsome
      exact ⟨old, hold, truthful_iff hinjective old.text text⟩
    · cases hsome
  · rw [hdiff, hfault]
    show ((latest? c.db id).map _).isSome = true
    rw [Option.isSome_map]
    exact hlatest

/-- A memory with one version, about to get another. -/
def sampleText (text : String) : Conn ℚ :=
  runOps sampleEnv [.insertMemory ⟨"semantic", "fact", text, "user"⟩] (emptyStore ℚ "a" 1)

theorem changed_truthful_iff_sample : ∃ v diff,
    (updateMemoryWithProvenance sampleEnv 1 "grey" none none none (sampleText "blue")).2.db.versions =
      (sampleText "blue").db.versions ++ [v] ∧ v.diffJson = some diff ∧
    Truthful diff "blue" "grey" := by
  have hlatest : (latest? (sampleText "blue").db 1).map MemoryVersion.text = some "blue" := by
    decide +kernel
  have hcount : (updateMemoryWithProvenance sampleEnv 1 "grey" none none none
      (sampleText "blue")).2.db.versions.length ≠ (sampleText "blue").db.versions.length := by
    decide +kernel
  obtain ⟨old, hold, htext⟩ := Option.map_eq_some_iff.mp hlatest
  have hinjective : Function.Injective (sampleEnv : Env ℚ).sha256Hex := fun _ _ h => h
  rcases changed_truthful_iff hinjective 1 "grey" none none none (sampleText "blue") with
    hsame | ⟨v, hadded, _, _, hdiff, hsome⟩
  · exact absurd (congrArg List.length hsame) hcount
  obtain ⟨diff, hv⟩ := Option.isSome_iff_exists.mp (hsome rfl (by rw [hold]; rfl))
  obtain ⟨old', hold', htruthful⟩ := hdiff diff hv
  obtain rfl := Option.some.inj (hold.symm.trans hold')
  rw [htext] at htruthful
  exact ⟨v, diff, hadded, hv, htruthful.mpr (.inr (by decide +kernel))⟩

/-- A text that gains a newline at its end is recorded as unchanged. -/
theorem newline_unrecorded :
    (updateMemoryWithProvenance sampleEnv 1 "blue\n" none none none
      (sampleText "blue")).2.db.versions.map (fun v =>
        (v.text, v.diffJson.map fun diff => (diff.oldHash, diff.newHash, diff.changed))) =
    [("blue", none), ("blue\n", some ("blue", "blue\n", false))] := by
  decide +kernel

end AgosMemory.Store
