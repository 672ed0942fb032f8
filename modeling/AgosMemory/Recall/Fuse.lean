import AgosMemory.Recall.Filter
import Mathlib.Data.List.Sort

/-!
# Reciprocal rank fusion

Each leg adds `1/(K + rank + 1)` to the rows it lists; a rowid without a canonical row that the
filter admits never reaches scoring. The accumulator is keyed by rowid and kept in order of first
appearance; the sort that follows fixes the order of the result.
-/

namespace AgosMemory.Recall

variable {F : Type} [F64 F]

/-- RRF constant. -/
def RRF_K : F := F64.ofRat 60

/-- Score decomposition carried through to rerank and explain. -/
structure RecallComponents (F : Type) where
  sim : Option F
  bm25Rank : Option Nat
  rrf : F
  simNorm : F
  importance : F
  confidence : F
  decay : F

/-- Why a candidate was not injected. -/
inductive DropReason where
  | tierBudget | totalBudget | unresolved
  deriving DecidableEq, Repr

/-- What packing did with one candidate. -/
inductive Placement where
  | unpacked | full | summary | dropped (reason : DropReason)
  deriving DecidableEq, Repr

/-- One candidate hit, post-fusion. -/
structure RecallHit (F : Type) where
  rowid : Int
  publicId : String
  tier : Tier
  trust : Trust
  score : F
  placement : Placement
  tokens : Nat
  sourceKind : SourceKind
  sourceRef : Option String
  components : RecallComponents F

/-- True when this hit was placed into the context (full text or summary). -/
def RecallHit.injected {F : Type} (h : RecallHit F) : Bool :=
  match h.placement with
  | .full | .summary => true
  | .unpacked | .dropped _ => false

/-- A vec-leg hit before id resolution: rowid and cosine distance. -/
abbrev VecLegHit (F : Type) := Int × F

/-- An FTS-leg hit before fusion: rowid, public id, tier and trust. -/
abbrev FtsLegHit := Int × String × Tier × Trust

/-- What the two legs contributed to one row. -/
structure Acc (F : Type) where
  rowid : Int
  rrf : F
  sim : Option F := none
  bm25Rank : Option Nat := none

/-- Update the entry of a rowid, which starts at zero. -/
def upsertAcc (rowid : Int) (f : Acc F → Acc F) : List (Acc F) → List (Acc F)
  | [] => [f { rowid, rrf := F64.ofRat 0 }]
  | a :: as => if a.rowid = rowid then f a :: as else a :: upsertAcc rowid f as

/-- The contribution of a rank. -/
def rrfTerm (rank : Nat) : F :=
  F64.div (F64.ofRat 1) (F64.add (F64.add RRF_K (F64.ofRat rank)) (F64.ofRat 1))

/-- Add one leg, best first: entries whose row is missing or not admitted are skipped. -/
def addLeg {α : Type} (filter : HardFilter) (rows : List (CanonicalRow F)) (rowid : α → Int)
    (mark : Nat → α → Acc F → Acc F) : List α → Nat → List (Acc F) → List (Acc F)
  | [], _, acc => acc
  | x :: xs, rank, acc =>
    match rowAt rows (rowid x) with
    | none => addLeg filter rows rowid mark xs (rank + 1) acc
    | some row =>
      if filter.admits row then
        addLeg filter rows rowid mark xs (rank + 1) (upsertAcc (rowid x)
          (fun a => mark rank x { a with rrf := F64.add a.rrf (rrfTerm rank) }) acc)
      else addLeg filter rows rowid mark xs (rank + 1) acc

def accumulate (filter : HardFilter) (vecHits : List (VecLegHit F)) (rows : List (CanonicalRow F))
    (ftsHits : List FtsLegHit) : List (Acc F) :=
  let acc := addLeg filter rows Prod.fst
    (fun _ x a => { a with sim := some (F64.sub (F64.ofRat 1) x.2) }) vecHits 0 []
  addLeg filter rows Prod.fst (fun rank _ a => { a with bm25Rank := some rank }) ftsHits 0 acc

/-- The hit of an accumulator entry, built from its canonical row. -/
def hitOf (rows : List (CanonicalRow F)) (a : Acc F) : Option (RecallHit F) :=
  (rowAt rows a.rowid).map fun row => {
    rowid := a.rowid, publicId := row.publicId, tier := row.tier, trust := row.trust
    score := F64.ofRat 0, placement := .unpacked, tokens := 0
    sourceKind := row.sourceKind, sourceRef := row.sourceRef
    components := {
      sim := a.sim, bm25Rank := a.bm25Rank, rrf := a.rrf, simNorm := F64.ofRat 0
      importance := F64.ofRat 0, confidence := F64.ofRat 0, decay := F64.ofRat 0 } }

/-- Best first by `key`, ties by public id. -/
def byKeyDesc (key : RecallHit F → F) (a b : RecallHit F) : Ordering :=
  ((F64.partialCmp (key b) (key a)).getD .eq).then (compare a.publicId b.publicId)

def sortHits (cmp : RecallHit F → RecallHit F → Ordering) (hits : List (RecallHit F)) :
    List (RecallHit F) :=
  hits.insertionSort fun a b => cmp a b ≠ .gt

/-- Fuse both legs' already-filtered candidates, best first. -/
def fuse (filter : HardFilter) (vecHits : List (VecLegHit F)) (rows : List (CanonicalRow F))
    (ftsHits : List FtsLegHit) : List (RecallHit F) :=
  sortHits (byKeyDesc fun h => h.components.rrf)
    ((accumulate filter vecHits rows ftsHits).filterMap (hitOf rows))

omit [F64 F] in
theorem mem_sortHits {cmp : RecallHit F → RecallHit F → Ordering} {hits : List (RecallHit F)}
    {h : RecallHit F} : h ∈ sortHits cmp hits ↔ h ∈ hits :=
  List.mem_insertionSort _

/-- A fused hit carries the rowid and the public id of one row of the map. -/
theorem mem_fuse {filter : HardFilter} {vecHits : List (VecLegHit F)}
    {rows : List (CanonicalRow F)} {ftsHits : List FtsLegHit} {h : RecallHit F}
    (hm : h ∈ fuse filter vecHits rows ftsHits) :
    ∃ row, rowAt rows h.rowid = some row ∧ h.publicId = row.publicId ∧
      h.placement = .unpacked ∧ h.tokens = 0 := by
  obtain ⟨a, _, ha⟩ := List.mem_filterMap.mp (mem_sortHits.mp hm)
  obtain ⟨row, hrow, rfl⟩ := Option.map_eq_some_iff.mp ha
  exact ⟨row, hrow, rfl, rfl, rfl⟩

/-! ## One hit for each rowid -/

/-- A `filterMap` that keeps a key leaves a sublist of the keys. -/
theorem map_filterMap_sublist {α β κ : Type} {f : α → Option β} {p : α → κ} {q : β → κ}
    (h : ∀ a b, f a = some b → q b = p a) (l : List α) :
    ((l.filterMap f).map q).Sublist (l.map p) := by
  induction l with
  | nil => exact List.Sublist.slnil
  | cons a l ih =>
    cases hf : f a with
    | none =>
      rw [List.filterMap_cons_none hf]
      exact ih.cons _
    | some b =>
      rw [List.filterMap_cons_some hf, List.map_cons, List.map_cons, h a b hf]
      exact ih.cons_cons _

theorem mem_upsertAcc_rowid {rowid : Int} {f : Acc F → Acc F} (hf : ∀ a, (f a).rowid = a.rowid)
    {acc : List (Acc F)} {x : Int} (hx : x ∈ (upsertAcc rowid f acc).map Acc.rowid) :
    x = rowid ∨ x ∈ acc.map Acc.rowid := by
  induction acc with
  | nil =>
    rw [upsertAcc, List.map_singleton, List.mem_singleton, hf] at hx
    exact .inl hx
  | cons a as ih =>
    unfold upsertAcc at hx
    split at hx
    · rw [List.map_cons, hf] at hx
      exact .inr hx
    · rw [List.map_cons, List.mem_cons] at hx ⊢
      rcases hx with hx | hx
      · exact .inr (.inl hx)
      · exact (ih hx).imp_right .inr

private theorem upsertAcc_nodup {rowid : Int} {f : Acc F → Acc F} (hf : ∀ a, (f a).rowid = a.rowid)
    {acc : List (Acc F)} (h : (acc.map Acc.rowid).Nodup) :
    ((upsertAcc rowid f acc).map Acc.rowid).Nodup := by
  induction acc with
  | nil => exact List.nodup_singleton _
  | cons a as ih =>
    obtain ⟨hnotin, has⟩ := List.nodup_cons.mp h
    unfold upsertAcc
    split
    · rw [List.map_cons, hf]
      exact h
    · next hne =>
      refine List.nodup_cons.mpr ⟨fun hin => ?_, ih has⟩
      rcases mem_upsertAcc_rowid hf hin with heq | hin
      · exact hne heq
      · exact hnotin hin

theorem addLeg_nodup {α : Type} {filter : HardFilter} {rows : List (CanonicalRow F)}
    {rowid : α → Int} {mark : Nat → α → Acc F → Acc F}
    (hmark : ∀ rank x a, (mark rank x a).rowid = a.rowid) {hits : List α} {rank : Nat}
    {acc : List (Acc F)} (h : (acc.map Acc.rowid).Nodup) :
    ((addLeg filter rows rowid mark hits rank acc).map Acc.rowid).Nodup := by
  induction hits generalizing rank acc with
  | nil => exact h
  | cons x xs ih =>
    unfold addLeg
    split
    · exact ih h
    · split
      · exact ih (upsertAcc_nodup (fun a => hmark rank x { a with rrf := F64.add a.rrf (rrfTerm rank) }) h)
      · exact ih h

/-- The hits of a fusion have distinct rowids. -/
theorem fuse_nodup (filter : HardFilter) (vecHits : List (VecLegHit F))
    (rows : List (CanonicalRow F)) (ftsHits : List FtsLegHit) :
    ((fuse filter vecHits rows ftsHits).map RecallHit.rowid).Nodup := by
  have hacc : ((accumulate filter vecHits rows ftsHits).map Acc.rowid).Nodup := by
    unfold accumulate
    apply addLeg_nodup
    · intro rank x a
      rfl
    apply addLeg_nodup
    · intro rank x a
      rfl
    exact List.nodup_nil
  have hhits : (((accumulate filter vecHits rows ftsHits).filterMap (hitOf rows)).map
      RecallHit.rowid).Nodup := by
    refine hacc.sublist (map_filterMap_sublist (fun a hit ha => ?_) _)
    obtain ⟨row, _, rfl⟩ := Option.map_eq_some_iff.mp ha
    rfl
  exact ((List.perm_insertionSort _ _).map _).nodup_iff.mpr hhits

end AgosMemory.Recall
