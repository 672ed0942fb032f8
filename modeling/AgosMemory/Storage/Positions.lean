import AgosMemory.Exact
import AgosMemory.Library.Selection
import AgosMemory.Storage.Vec0
import Mathlib.Data.List.Dedup

/-!
# The positions of the vectors

Where a row is in the chunks decides which of two equally distant rows a search prefers. `_rowids` and
the last id of a chunk say where the next row goes, so they can be followed through the statements
without the chunks. A search over the positions makes the turns of `min_idx` in each chunk and merges
the chunks in order.
-/

namespace AgosMemory.Vec0

open Library Selection

/-! ## Positions -/

/-- `_rowids`, and the last id that a chunk was given. -/
structure Positions where
  chunkSeq : Int := 0
  rowids : List RowidsRow := []
  deriving DecidableEq

namespace Positions

/-- Some row is at the position. -/
def used (p : Positions) (chunkId : Int) (i : Nat) : Bool :=
  p.rowids.any fun r => r.chunkId = chunkId && r.chunkOffset = i

def put (p : Positions) (rowid chunkId : Int) (i : Nat) : Positions :=
  { p with rowids := p.rowids ++ [⟨rowid, chunkId, i⟩] }

/-- The row goes to the first position of a new chunk. -/
def putFresh (p : Positions) (rowid : Int) : Positions :=
  { p with chunkSeq := p.chunkSeq + 1 }.put rowid (p.chunkSeq + 1) 0

/-- The first free position of the newest chunk, or a new chunk. -/
def insert (chunkSize : Nat) (rowid : Int) (p : Positions) : Positions :=
  match (p.rowids.map RowidsRow.chunkId).max? with
  | none => p.putFresh rowid
  | some latest =>
    match (List.range chunkSize).find? fun i => !p.used latest i with
    | none => p.putFresh rowid
    | some i => p.put rowid latest i

/-- What a statement does to the positions when it does not fail. -/
def step {α : Type} (chunkSize : Nat) (p : Positions) : Statement α → Positions
  | .insert rowid _ => p.insert chunkSize rowid
  | .update _ _ => p
  | .delete rowid => { p with rowids := p.rowids.filter fun r => r.rowid ≠ rowid }

/-- The position of a row; a `NULL` reads as `0`. -/
def of (p : Positions) (rowid : Int) : RowidsRow :=
  (p.rowids.find? fun r => r.rowid = rowid).getD ⟨rowid, 0, 0⟩

end Positions

/-! ## The search -/

/-- A rowid and its distance, as the query returns them. -/
structure Near (F : Type) where
  rowid : Int
  distance : F
  deriving DecidableEq

/-- A position of a chunk, with its row and the distance there. -/
structure Cell (F : Type) where
  chunkId : Int
  chunkOffset : Nat
  rowid : Int
  distance : F
  deriving DecidableEq

section

variable {F : Type}

def Cell.near (a : Cell F) : Near F := ⟨a.rowid, a.distance⟩

/-- By chunk, and in a chunk by position. -/
def Cell.Upto (a b : Cell F) : Prop :=
  a.chunkId < b.chunkId ∨ a.chunkId = b.chunkId ∧ a.chunkOffset ≤ b.chunkOffset

instance : DecidableRel (Cell.Upto (F := F)) := fun _ _ => inferInstanceAs (Decidable (_ ∨ _))

/-- The cells of each chunk in the order of their positions, chunk after chunk. -/
def byChunk (cells : List (Cell F)) : List (List (Cell F)) :=
  let sorted := cells.insertionSort Cell.Upto
  (sorted.map Cell.chunkId).dedup.map fun id => sorted.filter fun c => c.chunkId = id

variable [F64 F]

def closer (least c : Cell F) : Cell F := if F64.le c.distance least.distance then c else least

/-- A turn of `min_idx`: from the first position that is left, on to each that is not farther. -/
def pickCell : List (Cell F) → Option (Cell F × List (Cell F))
  | [] => none
  | first :: rest =>
    let least := rest.foldl closer first
    some (least, (first :: rest).filter fun c => c.chunkOffset ≠ least.chunkOffset)

/-- The `k` nearest of a chunk. -/
def chunkNearest (k : Nat) (cells : List (Cell F)) : List (Near F) :=
  (repeatPick pickCell k cells).map Cell.near

/-- `merge_sorted_lists` -/
def mergeSortedLists (k : Nat) (a b : List (Near F)) : List (Near F) :=
  mergeTake (fun x y => F64.le x.distance y.distance) k a b

/-- The `k` nearest of the chunks, one chunk after the other. -/
def nearest (chunkSize k : Nat) (chunks : List (List (Cell F))) : List (Near F) :=
  chunks.foldl (fun topk cells => mergeSortedLists k topk (chunkNearest (min k chunkSize) cells)) []

/-! ## What is found -/

variable {k chunkSize : Nat} {cells : List (Cell F)} {chunks : List (List (Cell F))}

theorem foldl_closer_mem (first : Cell F) (rest : List (Cell F)) :
    rest.foldl closer first ∈ first :: rest := by
  induction rest generalizing first with
  | nil => exact List.mem_cons_self
  | cons c rest ih =>
    rcases List.mem_cons.mp (ih (closer first c)) with hleast | hleast
    · rw [List.foldl_cons, hleast]
      unfold closer
      split
      · exact List.mem_cons_of_mem _ List.mem_cons_self
      · exact List.mem_cons_self
    · exact List.mem_cons_of_mem _ (List.mem_cons_of_mem _ hleast)

private theorem mem_chunkNearest {n : Near F} (hn : n ∈ chunkNearest k cells) :
    ∃ c ∈ cells, c.near = n := by
  obtain ⟨c, hc, rfl⟩ := List.mem_map.mp hn
  refine ⟨c, mem_repeatPick (fun cells => cells) (fun cells picked hpicked => ?_) hc, rfl⟩
  cases cells with
  | nil => cases hpicked
  | cons first rest =>
    obtain rfl := Option.some.inj hpicked
    exact ⟨foldl_closer_mem first rest, List.filter_sublist.subset⟩

/-- What a search finds is a cell of one of the chunks. -/
theorem mem_nearest {n : Near F} (hn : n ∈ nearest chunkSize k chunks) :
    ∃ cells ∈ chunks, ∃ c ∈ cells, c.near = n := by
  have hall : ∀ topk : List (Near F), n ∈ chunks.foldl (fun topk cells =>
      mergeSortedLists k topk (chunkNearest (min k chunkSize) cells)) topk →
      n ∈ topk ∨ ∃ cells ∈ chunks, ∃ c ∈ cells, c.near = n := by
    clear hn
    induction chunks with
    | nil => exact fun topk h => .inl h
    | cons cells chunks ih =>
      intro topk h
      rcases ih _ h with hmerged | ⟨cells', hcells', hc⟩
      · rcases mem_mergeTake hmerged with htopk | hchunk
        · exact .inl htopk
        · exact .inr ⟨cells, List.mem_cons_self, mem_chunkNearest hchunk⟩
      · exact .inr ⟨cells', List.mem_cons_of_mem _ hcells', hc⟩
  exact (hall [] hn).resolve_left List.not_mem_nil

omit [F64 F] in
theorem mem_byChunk {chunk : List (Cell F)} (hchunk : chunk ∈ byChunk cells) {c : Cell F}
    (hc : c ∈ chunk) : c ∈ cells := by
  obtain ⟨id, _, rfl⟩ := List.mem_map.mp hchunk
  exact (List.mem_insertionSort _).mp (List.mem_filter.mp hc).1

omit [F64 F] in
theorem exists_byChunk {c : Cell F} (hc : c ∈ cells) : ∃ chunk ∈ byChunk cells, c ∈ chunk := by
  have hsorted : c ∈ cells.insertionSort Cell.Upto := (List.mem_insertionSort _).mpr hc
  refine ⟨_, List.mem_map_of_mem (List.mem_dedup.mpr (List.mem_map_of_mem hsorted)), ?_⟩
  exact List.mem_filter.mpr ⟨hsorted, decide_eq_true rfl⟩

section

variable [F64.Ordered F]

private theorem foldl_closer_least {first : Cell F} {rest : List (Cell F)}
    (hnum : ∀ c ∈ first :: rest, F64.le c.distance c.distance = true) :
    ∀ c ∈ first :: rest, F64.le (rest.foldl closer first).distance c.distance = true := by
  induction rest generalizing first with
  | nil => exact fun c hc => List.mem_singleton.mp hc ▸ hnum first List.mem_cons_self
  | cons x rest ih =>
    obtain ⟨hfirst, hx, hrest⟩ : F64.le first.distance first.distance = true ∧
        F64.le x.distance x.distance = true ∧ ∀ c ∈ rest, F64.le c.distance c.distance = true := by
      rwa [List.forall_mem_cons, List.forall_mem_cons] at hnum
    have hcloser : F64.le (closer first x).distance first.distance = true ∧
        F64.le (closer first x).distance x.distance = true ∧
        F64.le (closer first x).distance (closer first x).distance = true := by
      unfold closer
      by_cases hle : F64.le x.distance first.distance = true
      · rw [if_pos hle]
        exact ⟨hle, hx, hx⟩
      · rw [if_neg hle]
        exact ⟨hfirst, (F64.Ordered.le_total _ _ hx hfirst).resolve_left hle, hfirst⟩
    have hleast := ih (List.forall_mem_cons.mpr ⟨hcloser.2.2, hrest⟩)
    have hhead := hleast _ List.mem_cons_self
    intro c hc
    rcases List.mem_cons.mp hc with rfl | hc
    · exact F64.Ordered.le_trans _ _ _ hhead hcloser.1
    · rcases List.mem_cons.mp hc with rfl | hc
      · exact F64.Ordered.le_trans _ _ _ hhead hcloser.2.1
      · exact hleast c (List.mem_cons_of_mem _ hc)

/-- A list of what was found among the cells starts with one that is not farther than any. -/
structure Starts (found : List (Near F)) (cells : List (Cell F)) : Prop where
  empty : found = [] → cells = []
  least : ∀ n, found.head? = some n → F64.le n.distance n.distance = true ∧
    ∀ c ∈ cells, F64.le n.distance c.distance = true

omit [F64.Ordered F] in
private theorem starts_nil : Starts ([] : List (Near F)) [] := ⟨fun _ => rfl, nofun⟩

omit [F64.Ordered F] in
private theorem starts_cons {n : Near F} {found : List (Near F)}
    (hn : F64.le n.distance n.distance = true)
    (hle : ∀ c ∈ cells, F64.le n.distance c.distance = true) : Starts (n :: found) cells where
  empty h := absurd h (List.cons_ne_nil n found)
  least n' hn' := by
    obtain rfl := Option.some.inj hn'
    exact ⟨hn, hle⟩

private theorem starts_chunkNearest (hk : 0 < k)
    (hnum : ∀ c ∈ cells, F64.le c.distance c.distance = true) : Starts (chunkNearest k cells) cells := by
  obtain ⟨k, rfl⟩ := Nat.exists_eq_add_of_le' hk
  cases cells with
  | nil => exact starts_nil
  | cons first rest =>
    exact starts_cons (hnum _ (foldl_closer_mem first rest)) (foldl_closer_least hnum)

theorem Starts.merge {a b : List (Near F)} {seen : List (Cell F)} (ha : Starts a seen)
    (hb : Starts b cells) : Starts (mergeSortedLists (k + 1) a b) (seen ++ cells) := by
  unfold mergeSortedLists
  cases a with
  | nil =>
    rw [ha.empty rfl, mergeTake_nil_left]
    cases b with
    | nil =>
      rw [hb.empty rfl]
      exact starts_nil
    | cons n b =>
      obtain ⟨hn, hcells⟩ := hb.least n rfl
      exact starts_cons hn hcells
  | cons m a =>
    obtain ⟨hm, hseen⟩ := ha.least m rfl
    cases b with
    | nil =>
      rw [hb.empty rfl, mergeTake_nil_right, List.append_nil]
      exact starts_cons hm hseen
    | cons n b =>
      obtain ⟨hn, hcells⟩ := hb.least n rfl
      unfold mergeTake
      split
      · next hle =>
        refine starts_cons hm (List.forall_mem_append.mpr ⟨hseen, fun c hc => ?_⟩)
        exact F64.Ordered.le_trans _ _ _ hle (hcells c hc)
      · next hle =>
        have hnear := (F64.Ordered.le_total _ _ hm hn).resolve_left hle
        refine starts_cons hn (List.forall_mem_append.mpr ⟨fun c hc => ?_, hcells⟩)
        exact F64.Ordered.le_trans _ _ _ hnear (hseen c hc)

/-- A search among distances that are numbers starts with the least of them. -/
theorem starts_nearest (hk : 0 < k) (hsize : 0 < chunkSize)
    (hnum : ∀ c ∈ chunks.flatten, F64.le c.distance c.distance = true) :
    Starts (nearest chunkSize k chunks) chunks.flatten := by
  have hmin : 0 < min k chunkSize := Nat.lt_min.mpr ⟨hk, hsize⟩
  obtain ⟨k, rfl⟩ := Nat.exists_eq_add_of_le' hk
  have hall : ∀ (topk : List (Near F)) (seen : List (Cell F)), Starts topk seen →
      Starts (chunks.foldl (fun topk cells =>
        mergeSortedLists (k + 1) topk (chunkNearest (min (k + 1) chunkSize) cells)) topk)
        (seen ++ chunks.flatten) := by
    induction chunks with
    | nil =>
      intro topk seen h
      rwa [List.flatten_nil, List.append_nil]
    | cons cells chunks ih =>
      intro topk seen h
      rw [List.flatten_cons] at hnum ⊢
      obtain ⟨hcells, hchunks⟩ := List.forall_mem_append.mp hnum
      rw [← List.append_assoc]
      exact ih hchunks _ _ (h.merge (starts_chunkNearest hmin hcells))
  exact hall [] [] starts_nil

end

end

end AgosMemory.Vec0
