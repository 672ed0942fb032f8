import AgosMemory.Exact
import AgosMemory.Library.Ranking
import AgosMemory.Recall.Encoders
import AgosMemory.Recall.Order

/-!
# The two legs

The vector leg is a KNN query of `sqlite-vec`, the keyword leg a match of the full-text index joined to
the canonical rows. What the two indexes find is a parameter. The keyword statement has no `ORDER BY`,
so its rows come in any order, and its `LIMIT` cuts that order.
-/

namespace AgosMemory.Recall

open Library

variable {F : Type}

/-! ## The statements -/

/-- `FTS5` and `sqlite-vec`: the expressions that parse, the rows that match one, the score of a match,
larger for a better one, and the vectors of a scan from the nearest on. -/
structure Engine (F : Type) where
  accepts : String → Bool
  found : String → Memory F → Bool
  bm25 : String → Memory F → F
  nearest : List F → List (VecRow F) → List (VecLegHit F)

/-- The limit of `k` in a KNN query. -/
def SQLITE_VEC_VEC0_K_MAX : Nat := 4096

/-- The largest `LIMIT`. -/
def LIMIT_MAX : Nat := 2 ^ 63 - 1

/-- `SELECT rowid, distance ... WHERE embedding MATCH ?1 AND k = {pool} AND {vec_predicate}`. A distance
that is NaN comes back as `NULL`, which is no `f64`, and the first such row ends the leg. -/
def vecLeg [F64 F] (engine : Engine F) (db : Db F) (filter : HardFilter) (pool : Nat) (vec : List F) :
    Except Error (List (VecLegHit F)) :=
  if vec.length ≠ db.embedDim then
    .error (.storage ("Dimension mismatch for query vector for the \"embedding\" column. " ++
      s!"Expected {db.embedDim} dimensions but received {vec.length}."))
  else if SQLITE_VEC_VEC0_K_MAX < pool then
    .error (.storage (s!"k value in knn query too large, provided {pool} and the limit is " ++
      s!"{SQLITE_VEC_VEC0_K_MAX}"))
  else
    let listed := (engine.nearest vec (db.vecs.filter filter.vecMetadataPredicate)).take pool
    if listed.all fun h => F64.le h.2 h.2 then .ok listed
    else .error (.storage "Invalid column type Null at index: 1, name: distance")

/-- The admissible rows that match. -/
def keywordRows (engine : Engine F) (db : Db F) (filter : HardFilter) (expr : String) :
    List (Memory F) :=
  db.memories.filter fun m => engine.found expr m && filter.predicate db m

def ftsHit (m : Memory F) : FtsLegHit := (m.id, m.publicId, m.tier, m.trust)

/-- `SELECT ... WHERE fts_memories MATCH ?1 AND {predicate} LIMIT {pool}`: the rows in some order. -/
def keywordLeg (engine : Engine F) (order : List (Memory F) → List (Memory F)) (db : Db F)
    (filter : HardFilter) (expr : String) (pool : Nat) : Except Error (List FtsLegHit) := do
  prepare [filter.agentId]
  if LIMIT_MAX < pool then .error (.storage "datatype mismatch")
  else if engine.accepts expr = false then .error (.storage "fts5: syntax error")
  else .ok (((order (keywordRows engine db filter expr)).take pool).map ftsHit)

/-- Run both legs on one read connection. -/
def runLegs [F64 F] (engine : Engine F) (order : List (Memory F) → List (Memory F)) (db : Db F)
    (filter : HardFilter) (text : String) (pool : Nat) (queryVec : Option (List F)) :
    Except Error (List (VecLegHit F) × List FtsLegHit) := do
  let vecHits ← match queryVec with
    | none => pure []
    | some vec => vecLeg engine db filter pool vec
  let ftsHits ← keywordLeg engine order db filter (ftsMatchExpr text) pool
  return (vecHits, ftsHits)

theorem keywordLeg_ok_iff {engine : Engine F} {order : List (Memory F) → List (Memory F)} {db : Db F}
    {filter : HardFilter} {expr : String} {pool : Nat} {hits : List FtsLegHit} :
    keywordLeg engine order db filter expr pool = .ok hits ↔
      ('\x00' ∉ filter.agentId.toList ∧ engine.accepts expr = true ∧ pool ≤ LIMIT_MAX) ∧
        ((order (keywordRows engine db filter expr)).take pool).map ftsHit = hits := by
  have hprepare : prepare [filter.agentId] = .ok () ↔ '\x00' ∉ filter.agentId.toList := by
    rw [prepare_ok_iff, List.forall_mem_singleton]
  rw [← hprepare]
  unfold keywordLeg
  cases prepare [filter.agentId] with
  | error e => exact iff_of_false nofun fun h => by cases h.1.1
  | ok _ =>
    simp only [bind, Except.bind]
    by_cases hpool : LIMIT_MAX < pool
    · rw [if_pos hpool]
      exact iff_of_false nofun fun h => hpool.not_ge h.1.2.2
    · rw [if_neg hpool]
      cases engine.accepts expr with
      | false => exact iff_of_false nofun fun h => Bool.noConfusion h.1.2.1
      | true =>
        rw [if_neg (Bool.noConfusion : ¬true = false), Except.ok.injEq]
        exact ⟨fun h => ⟨⟨trivial, rfl, not_lt.mp hpool⟩, h⟩, And.right⟩

/-! ## The order of the keyword leg -/

/-- Best first by BM25. -/
def better [F64 F] (engine : Engine F) (expr : String) (a b : Memory F) : Prop :=
  F64.lt (engine.bm25 expr b) (engine.bm25 expr a) = true

instance [F64 F] (engine : Engine F) (expr : String) : DecidableRel (better engine expr) :=
  fun _ _ => inferInstanceAs (Decidable (_ = true))

/-- The keyword leg lists the best of the admissible matching rows, best first, and a fused hit carries
its position among them. -/
structure KeywordPool [F64 F] (engine : Engine F) (db : Db F) (filter : HardFilter) (expr : String)
    (pool : Nat) (hits : List FtsLegHit) : Prop where
  listed : ∃ listed, hits = listed.map ftsHit ∧
    Ranking.TopPool (better engine expr) (keywordRows engine db filter expr) listed pool
  rank : ∀ (vecHits : List (VecLegHit F)) rows, ∀ h ∈ fuse filter vecHits rows hits, ∀ rank,
    h.components.bm25Rank = some rank → hits[rank]?.map Prod.fst = some h.rowid

private theorem ftsHit_inj {db : Db F} (hids : (db.memories.map Memory.id).Nodup)
    {listed listed' : List (Memory F)} (hlisted : ∀ m ∈ listed, m ∈ db.memories)
    (hlisted' : ∀ m ∈ listed', m ∈ db.memories)
    (h : listed.map ftsHit = listed'.map ftsHit) : listed = listed' := by
  induction listed generalizing listed' with
  | nil => exact (List.map_eq_nil_iff.mp h.symm).symm
  | cons m listed ih =>
    cases listed' with
    | nil => cases h
    | cons m' listed' =>
      obtain ⟨hhit, hrest⟩ := List.cons.inj h
      have hid : m.id = m'.id := (Prod.mk.inj hhit).1
      obtain rfl := List.inj_on_of_nodup_map hids (hlisted m List.mem_cons_self)
        (hlisted' m' List.mem_cons_self) hid
      rw [ih (fun x hx => hlisted x (List.mem_cons_of_mem _ hx))
        (fun x hx => hlisted' x (List.mem_cons_of_mem _ hx)) hrest]

/-! ## Ranks -/

section

variable [F64 F]

private theorem upsertAcc_forall {P : Acc F → Prop} {rowid : Int} {f : Acc F → Acc F}
    (hfresh : P { rowid, rrf := F64.ofRat 0 }) (hf : ∀ a, P a → a.rowid = rowid → P (f a))
    {acc : List (Acc F)} (h : ∀ a ∈ acc, P a) : ∀ a ∈ upsertAcc rowid f acc, P a := by
  induction acc with
  | nil =>
    intro a ha
    rw [List.mem_singleton.mp ha]
    exact hf _ hfresh rfl
  | cons x acc ih =>
    obtain ⟨hx, hacc⟩ := List.forall_mem_cons.mp h
    unfold upsertAcc
    split
    · next heq => exact List.forall_mem_cons.mpr ⟨hf x hx heq, hacc⟩
    · exact List.forall_mem_cons.mpr ⟨hx, ih hacc⟩

/-- What holds of every entry of the accumulator after a leg; `pre` is what the leg lists before. -/
theorem addLeg_forall {α : Type} {P : Acc F → Prop} {filter : HardFilter}
    {rows : List (CanonicalRow F)} {rowid : α → Int} {mark : Nat → α → Acc F → Acc F}
    {all : List α} (hfresh : ∀ rowid, P { rowid, rrf := F64.ofRat 0 })
    (hmark : ∀ (rank : Nat) (x : α) (a : Acc F), all[rank]? = some x → a.rowid = rowid x → P a →
      P (mark rank x { a with rrf := F64.add a.rrf (rrfTerm rank) }))
    (pre : List α) {hits : List α} (hall : all = pre ++ hits) {acc : List (Acc F)} (h : ∀ a ∈ acc, P a) :
    ∀ a ∈ addLeg filter rows rowid mark hits pre.length acc, P a := by
  induction hits generalizing pre acc with
  | nil => exact h
  | cons x hits ih =>
    have hnext : all = (pre ++ [x]) ++ hits := by rw [hall, List.append_assoc]; rfl
    have hlength : pre.length + 1 = (pre ++ [x]).length := by simp
    have hx : all[pre.length]? = some x := by rw [hall]; simp
    rw [addLeg, hlength]
    split
    · exact ih _ hnext h
    · split
      · exact ih _ hnext (upsertAcc_forall (hfresh _)
          (fun a ha heq => hmark _ _ a hx heq ha) h)
      · exact ih _ hnext h

/-- The keyword rank of a fused hit is its position in the leg. -/
theorem fuse_bm25Rank {filter : HardFilter} {vecHits : List (VecLegHit F)}
    {rows : List (CanonicalRow F)} {ftsHits : List FtsLegHit} {h : RecallHit F}
    (hm : h ∈ fuse filter vecHits rows ftsHits) {rank : Nat}
    (hrank : h.components.bm25Rank = some rank) :
    ftsHits[rank]?.map Prod.fst = some h.rowid := by
  obtain ⟨a, ha, heq⟩ := List.mem_filterMap.mp (mem_sortHits.mp hm)
  obtain ⟨row, _, rfl⟩ := Option.map_eq_some_iff.mp heq
  have hranked : ∀ a ∈ accumulate filter vecHits rows ftsHits, ∀ rank,
      a.bm25Rank = some rank → ftsHits[rank]?.map Prod.fst = some a.rowid := by
    refine addLeg_forall (fun _ _ hnone => by cases hnone)
      (fun rank x a hx hrowid _ r hr => ?_) [] rfl ?_
    · obtain rfl := Option.some.inj hr
      rw [List.nil_append] at hx
      rw [hx]
      exact congrArg some hrowid.symm
    · refine addLeg_forall (fun _ _ hnone => by cases hnone)
        (fun rank x a _ _ ha r hr => ha r hr) [] rfl ?_
      exact fun a ha => by cases ha
  exact hranked a ha rank hrank

end

/-- The statement promises no order, so it lists the best of the pool in every order SQLite may choose
exactly if none of the admissible matching rows scores better than another. Where the agent id has
U+0000 it lists nothing. -/
theorem keyword_pool_iff [F64 F] [F64.Ordered F] (engine : Engine F) {db : Db F}
    (hids : (db.memories.map Memory.id).Nodup) (filter : HardFilter) {expr : String}
    (haccepts : engine.accepts expr = true) {pool : Nat} (hpool : pool ≤ LIMIT_MAX) :
    (∀ order : List (Memory F) → List (Memory F), (∀ l, (order l).Perm l) →
      ∀ hits, keywordLeg engine order db filter expr pool = .ok hits →
        KeywordPool engine db filter expr pool hits) ↔
    '\x00' ∈ filter.agentId.toList ∨ pool = 0 ∨ ∀ a ∈ keywordRows engine db filter expr,
      ∀ b ∈ keywordRows engine db filter expr, ¬better engine expr a b := by
  by_cases hnul : '\x00' ∈ filter.agentId.toList
  · refine iff_of_true (fun order _ hits hhits => ?_) (.inl hnul)
    exact absurd hnul (keywordLeg_ok_iff.mp hhits).1.1
  rw [or_iff_right hnul]
  have hleg : ∀ order : List (Memory F) → List (Memory F),
      keywordLeg engine order db filter expr pool =
        .ok (((order (keywordRows engine db filter expr)).take pool).map ftsHit) :=
    fun order => keywordLeg_ok_iff.mpr ⟨⟨hnul, haccepts, hpool⟩, rfl⟩
  have hirrefl : ∀ m : Memory F, ¬better engine expr m m := fun m hbetter => by
    rw [better, F64.lt_irrefl] at hbetter
    cases hbetter
  rcases Nat.eq_zero_or_pos pool with rfl | hpos
  · refine iff_of_true (fun order horder hits hhits => ?_) (.inl rfl)
    rw [hleg] at hhits
    obtain rfl := Except.ok.inj hhits
    refine ⟨⟨[], rfl, ?_⟩, fun _ _ _ hm _ => fuse_bm25Rank hm⟩
    exact ⟨List.nil_subperm, by simp, .nil, fun _ _ _ b hb => by cases hb⟩
  · rw [or_iff_right hpos.ne', ← Ranking.topPool_any_order hirrefl hpos]
    constructor
    · intro h listing hperm
      classical
      let order : List (Memory F) → List (Memory F) := fun l =>
        if l = keywordRows engine db filter expr then listing else l
      have horder : ∀ l, (order l).Perm l := by
        intro l
        by_cases hl : l = keywordRows engine db filter expr
        · rw [hl]
          simp only [order, if_true]
          exact hperm.symm
        · simp only [order, if_neg hl]
          exact .refl l
      have hlisting : order (keywordRows engine db filter expr) = listing := if_pos rfl
      obtain ⟨listed, hlisted, htop⟩ := (h order horder _ (hleg order)).listed
      rw [hlisting] at hlisted
      have hrows : ∀ m ∈ keywordRows engine db filter expr, m ∈ db.memories :=
        fun m hm => (List.mem_filter.mp hm).1
      rw [ftsHit_inj hids (fun m hm => hrows m (hperm.mem_iff.mpr (List.mem_of_mem_take hm)))
        (fun m hm => hrows m (htop.subperm.subset hm)) hlisted]
      exact htop
    · intro h order horder hits hhits
      rw [hleg] at hhits
      obtain rfl := Except.ok.inj hhits
      exact ⟨⟨_, rfl, h _ (horder _).symm⟩, fun _ _ _ hm _ => fuse_bm25Rank hm⟩

/-- Every row matches, and a longer text scores better. -/
def sampleEngine : Engine ℚ where
  accepts _ := true
  found _ _ := true
  bm25 _ m := m.text.length
  nearest _ vecs := vecs.map fun v => (v.rowid, 0)

/-- Two rows that score the same. -/
def sampleCorpus : Db ℚ where
  memories := [sampleMemory 1 "m1" .active, sampleMemory 2 "m2" .active]

theorem keyword_pool_iff_sample : ∃ hits,
    keywordLeg sampleEngine List.reverse sampleCorpus (.fromQuery "default" sampleQuery 0) "\"sky\"" 4 =
      .ok hits ∧
    KeywordPool sampleEngine sampleCorpus (.fromQuery "default" sampleQuery 0) "\"sky\"" 4 hits := by
  have hany : ∀ order : List (Memory ℚ) → List (Memory ℚ), (∀ l, (order l).Perm l) → ∀ hits,
      keywordLeg sampleEngine order sampleCorpus (.fromQuery "default" sampleQuery 0) "\"sky\"" 4 =
        .ok hits →
      KeywordPool sampleEngine sampleCorpus (.fromQuery "default" sampleQuery 0) "\"sky\"" 4
        hits := by
    refine (keyword_pool_iff sampleEngine (by decide) _ rfl (by decide)).mpr (.inr (.inr ?_))
    decide +kernel
  have hleg : ∃ hits, keywordLeg sampleEngine List.reverse sampleCorpus
      (.fromQuery "default" sampleQuery 0) "\"sky\"" 4 = .ok hits := ⟨_, rfl⟩
  obtain ⟨hits, hhits⟩ := hleg
  exact ⟨hits, hhits, hany List.reverse (fun l => List.reverse_perm l) hits hhits⟩

/-- Two rows of which the second scores better. -/
def unevenCorpus : Db ℚ where
  memories := [sampleMemory 1 "m1" .active,
    { sampleMemory 2 "m2" .active with text := "the sky is blue, so is the sea" }]

/-- Listed in the order of their ids the row of the better score has rank one. -/
theorem keyword_unordered : ∃ hits,
    keywordLeg sampleEngine id unevenCorpus (.fromQuery "default" sampleQuery 0) "\"sky\"" 4 =
      .ok hits ∧
    ¬KeywordPool sampleEngine unevenCorpus (.fromQuery "default" sampleQuery 0) "\"sky\"" 4
      hits := by
  have hrows : keywordRows sampleEngine unevenCorpus (.fromQuery "default" sampleQuery 0)
      "\"sky\"" = unevenCorpus.memories := List.filter_eq_self.mpr (by decide +kernel)
  refine ⟨unevenCorpus.memories.map ftsHit, ?_, fun h => ?_⟩
  · exact keywordLeg_ok_iff.mpr ⟨by decide, by rw [hrows]; rfl⟩
  · obtain ⟨listed, hlisted, htop⟩ := h.listed
    rw [hrows] at htop
    have hsame : unevenCorpus.memories = listed :=
      ftsHit_inj (by decide) (fun _ hm => hm) (fun m hm => htop.subperm.subset hm) hlisted
    rw [← hsame] at htop
    exact absurd htop.ordered (by decide +kernel)

end AgosMemory.Recall
