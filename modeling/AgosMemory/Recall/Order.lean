import AgosMemory.Exact
import AgosMemory.Library.Ranking
import AgosMemory.Recall.Recall
import Mathlib.Data.String.Basic

/-!
# Order independence

Between the legs and the report there are two hash maps, a hash set and three sorts. The maps and the
set are read by key alone, except for the accumulator of the fusion, which is listed in whatever order
it is kept. Public ids are unique, so with comparable scores that order is lost in the first sort.
-/

namespace AgosMemory.Recall

open Library

variable {F : Type} [F64 F]

/-! ## The sorts -/

omit [F64 F] in
private theorem sortHits_eq (cmp : RecallHit F → RecallHit F → Ordering) (hits : List (RecallHit F)) :
    sortHits cmp hits = Ranking.rank cmp hits := rfl

section

variable [Field F] [LinearOrder F] [IsStrictOrderedRing F] [Exact F]

private theorem byKeyDesc_eq (key : RecallHit F → F) :
    byKeyDesc key = Ranking.byDesc key RecallHit.publicId := by
  funext a b
  rw [byKeyDesc, F64.partialCmp_exact]
  rfl

instance (key : RecallHit F → F) : Std.TransCmp (byKeyDesc key) := by
  rw [byKeyDesc_eq]
  infer_instance

theorem before_byKeyDesc {key : RecallHit F → F} {a b : RecallHit F} :
    Ranking.before (byKeyDesc key) a b ↔
      key b < key a ∨ key a = key b ∧ a.publicId ≤ b.publicId := by
  rw [byKeyDesc_eq, Ranking.before_byDesc]

instance (rows : List (CanonicalRow F)) : Std.TransCmp (injectionOrder rows) := by
  have hpinned : Std.TransCmp fun a b : RecallHit F => compare (isPinned rows b) (isPinned rows a) :=
    Ranking.transCmp_opposite (compareOn (isPinned rows))
  have hlex := (inferInstance : Std.TransCmp (compareLex
    (fun a b : RecallHit F => compare (isPinned rows b) (isPinned rows a))
    (byKeyDesc RecallHit.score)))
  exact hlex

end

/-! ## Lookups -/

omit [F64 F] in
/-- A map keyed by rowid does not depend on the order its rows were read in. -/
private theorem rowAt_perm {rows rows' : List (CanonicalRow F)} (h : rows.Perm rows')
    (hids : (rows.map CanonicalRow.rowid).Nodup) : rowAt rows = rowAt rows' := by
  funext rowid
  have hids' : (rows'.map CanonicalRow.rowid).Nodup := (h.map _).nodup_iff.mp hids
  unfold rowAt
  cases hfind : rows.find? fun r => r.rowid = rowid with
  | none =>
    symm
    rw [List.find?_eq_none] at hfind ⊢
    exact fun r hr => hfind r (h.mem_iff.mpr hr)
  | some row =>
    have hrow : row.rowid = rowid := by simpa using List.find?_some hfind
    have hmem := h.mem_iff.mp (List.mem_of_find?_eq_some hfind)
    cases hfind' : rows'.find? fun r => r.rowid = rowid with
    | none => exact absurd (decide_eq_true hrow) (List.find?_eq_none.mp hfind' row hmem)
    | some row' =>
      have hrow' : row'.rowid = rowid := by simpa using List.find?_some hfind'
      rw [List.inj_on_of_nodup_map hids' hmem (List.mem_of_find?_eq_some hfind')
        (hrow.trans hrow'.symm)]

section

variable {rows rows' : List (CanonicalRow F)}

private theorem addLeg_congr (h : rowAt rows = rowAt rows') {α : Type} {filter : HardFilter}
    {rowid : α → Int} {mark : Nat → α → Acc F → Acc F} (hits : List α) (rank : Nat)
    (acc : List (Acc F)) :
    addLeg filter rows rowid mark hits rank acc = addLeg filter rows' rowid mark hits rank acc := by
  induction hits generalizing rank acc with
  | nil => rfl
  | cons x xs ih => simp only [addLeg, h, ih]

private theorem accumulate_congr (h : rowAt rows = rowAt rows') (filter : HardFilter)
    (vecHits : List (VecLegHit F)) (ftsHits : List FtsLegHit) :
    accumulate filter vecHits rows ftsHits = accumulate filter vecHits rows' ftsHits := by
  unfold accumulate
  rw [addLeg_congr h, addLeg_congr h]

private theorem hitOf_congr (h : rowAt rows = rowAt rows') : hitOf rows = hitOf rows' := by
  funext a
  unfold hitOf
  rw [h]

private theorem rerank_congr (h : rowAt rows = rowAt rows') (weights : RecallWeights F)
    (halfLife : RecallHalfLives F) (now : Int) (hits : List (RecallHit F)) :
    rerank weights halfLife now hits rows = rerank weights halfLife now hits rows' := by
  unfold rerank
  rw [h]

omit [F64 F] in
private theorem packTiers_congr (h : rowAt rows = rowAt rows') (count : String → Nat) (budget : Nat)
    (shares : TierTokens) (tiers : List Tier) (carry : Nat) (hits : List (RecallHit F))
    (t : Totals) : packTiers count budget rows shares tiers carry hits t =
      packTiers count budget rows' shares tiers carry hits t := by
  have hstep : tierStep count budget rows = tierStep count budget rows' := by
    funext tier hit s
    unfold tierStep
    rw [h]
  induction tiers generalizing carry hits t with
  | nil => rfl
  | cons tier tiers ih => simp only [packTiers, hstep, ih]

private theorem pack_congr (h : rowAt rows = rowAt rows') (count : String → Nat)
    (split : BudgetSplit F)
    (budget : Nat) (hits : List (RecallHit F)) :
    pack count split budget hits rows = pack count split budget hits rows' := by
  have hpinned : isPinned rows = isPinned rows' := by
    funext hit
    unfold isPinned
    rw [h]
  have horder : injectionOrder rows = injectionOrder rows' := by
    funext a b
    unfold injectionOrder
    rw [hpinned]
  have hstep : pinnedStep count budget rows = pinnedStep count budget rows' := by
    funext hit t
    unfold pinnedStep
    rw [h]
  unfold pack
  rw [horder, hstep]
  simp only [packTiers_congr h]

end

/-! ## The order of the accumulator -/

/-- Fusion with the accumulator listed in some order. -/
def fuseBy (order : List (Acc F) → List (Acc F)) (filter : HardFilter)
    (vecHits : List (VecLegHit F)) (rows : List (CanonicalRow F)) (ftsHits : List FtsLegHit) :
    List (RecallHit F) :=
  sortHits (byKeyDesc fun h => h.components.rrf)
    ((order (accumulate filter vecHits rows ftsHits)).filterMap (hitOf rows))

/-- From the legs to the packed hits: `gate3` returns the public ids that it finds. -/
def outcomeBy (order : List (Acc F) → List (Acc F)) (filter : HardFilter)
    (vecHits : List (VecLegHit F)) (rows : List (CanonicalRow F)) (ftsHits : List FtsLegHit)
    (gate3 : List String → List String) (q : RecallQuery F) : PackOutcome F :=
  let fused := fuseBy order filter vecHits rows ftsHits
  pack (heuristicCount F) q.budgetSplit q.budgetTokens
    (candidates filter rows (gate3 (fused.map RecallHit.publicId)) fused q) rows

/-- The model of a recall keeps the accumulator in the order of first appearance. -/
theorem packReport_eq (filter : HardFilter) (vecHits : List (VecLegHit F))
    (rows : List (CanonicalRow F)) (ftsHits : List FtsLegHit) (gate3 : List String → List String)
    (q : RecallQuery F) (degraded : Bool) :
    let fused := fuse filter vecHits rows ftsHits
    let report := packReport q rows
      (candidates filter rows (gate3 (fused.map RecallHit.publicId)) fused q) degraded
    let outcome := outcomeBy id filter vecHits rows ftsHits gate3 q
    report.hits = outcome.hits ∧ report.tokensUsed = outcome.tokensUsed ∧
      report.tierTokens = outcome.tierTokens := ⟨rfl, rfl, rfl⟩

/-- Every entry of the accumulator is listed once. -/
theorem accumulate_nodup (filter : HardFilter) (vecHits : List (VecLegHit F))
    (rows : List (CanonicalRow F)) (ftsHits : List FtsLegHit) :
    ((accumulate filter vecHits rows ftsHits).map Acc.rowid).Nodup := by
  unfold accumulate
  apply addLeg_nodup
  · intro rank x a
    rfl
  apply addLeg_nodup
  · intro rank x a
    rfl
  exact List.nodup_nil

/-- Hits with one public id are the same hit. -/
theorem hitOf_injective {rows : List (CanonicalRow F)}
    (hpids : (rows.map CanonicalRow.publicId).Nodup) {accs : List (Acc F)}
    (haccs : (accs.map Acc.rowid).Nodup) {h h' : RecallHit F} (hh : h ∈ accs.filterMap (hitOf rows))
    (hh' : h' ∈ accs.filterMap (hitOf rows)) (hpid : h.publicId = h'.publicId) : h = h' := by
  obtain ⟨a, ha, heq⟩ := List.mem_filterMap.mp hh
  obtain ⟨a', ha', heq'⟩ := List.mem_filterMap.mp hh'
  obtain ⟨row, hrow, rfl⟩ := Option.map_eq_some_iff.mp heq
  obtain ⟨row', hrow', rfl⟩ := Option.map_eq_some_iff.mp heq'
  obtain rfl : row = row' := List.inj_on_of_nodup_map hpids (List.mem_of_find?_eq_some hrow)
    (List.mem_of_find?_eq_some hrow') hpid
  have hrowid : a.rowid = a'.rowid := by
    have h₁ : row.rowid = a.rowid := by simpa using List.find?_some hrow
    have h₂ : row.rowid = a'.rowid := by simpa using List.find?_some hrow'
    exact h₁.symm.trans h₂
  rw [List.inj_on_of_nodup_map haccs ha ha' hrowid]

private theorem candidates_congr {rows rows' : List (CanonicalRow F)}
    (hrows : rowAt rows = rowAt rows')
    {surviving surviving' : List String} (hsurviving : ∀ p, p ∈ surviving ↔ p ∈ surviving')
    (filter : HardFilter) (fused : List (RecallHit F)) (q : RecallQuery F) :
    candidates filter rows surviving fused q = candidates filter rows' surviving' fused q := by
  have hadmitted : fused.filter (fun h => h.publicId ∈ surviving) =
      fused.filter (fun h => h.publicId ∈ surviving') :=
    List.filter_congr fun h _ => by simp only [hsurviving]
  unfold candidates
  dsimp only
  rw [hadmitted, rerank_congr hrows]

section

variable [Field F] [LinearOrder F] [IsStrictOrderedRing F] [Exact F]

/-- The order in which the accumulator is listed is lost in the sort of the fused hits. -/
private theorem fuseBy_eq {order order' : List (Acc F) → List (Acc F)}
    (horder : ∀ l, (order l).Perm l)
    (horder' : ∀ l, (order' l).Perm l) (filter : HardFilter) (vecHits : List (VecLegHit F))
    {rows rows' : List (CanonicalRow F)} (hrows : rowAt rows = rowAt rows')
    (hpids : (rows.map CanonicalRow.publicId).Nodup) (ftsHits : List FtsLegHit) :
    fuseBy order filter vecHits rows ftsHits = fuseBy order' filter vecHits rows' ftsHits := by
  unfold fuseBy
  rw [← hitOf_congr hrows, ← accumulate_congr hrows, sortHits_eq, sortHits_eq]
  apply Ranking.rank_eq_of_perm
  · exact ((horder _).trans (horder' _).symm).filterMap _
  · intro a ha b hb heq
    rw [byKeyDesc_eq, Ranking.byDesc_eq] at heq
    have haccs := ((horder _).map Acc.rowid).nodup_iff.mpr
      (accumulate_nodup filter vecHits rows ftsHits)
    exact hitOf_injective hpids haccs ha hb heq.2

/-- What a recall packs is the same for every order of the accumulator and every order in which the
two lookups return their rows. -/
theorem recall_order_independent (filter : HardFilter) (vecHits : List (VecLegHit F))
    (ftsHits : List FtsLegHit) (q : RecallQuery F) {rows rows' : List (CanonicalRow F)}
    (hrows : rows.Perm rows') (hids : (rows.map CanonicalRow.rowid).Nodup)
    (hpids : (rows.map CanonicalRow.publicId).Nodup) {gate3 gate3' : List String → List String}
    (hgate3 : ∀ ids, (gate3 ids).Perm (gate3' ids)) {order order' : List (Acc F) → List (Acc F)}
    (horder : ∀ l, (order l).Perm l) (horder' : ∀ l, (order' l).Perm l) :
    outcomeBy order filter vecHits rows ftsHits gate3 q =
      outcomeBy order' filter vecHits rows' ftsHits gate3' q := by
  have hlookup := rowAt_perm hrows hids
  have hfused := fuseBy_eq horder horder' filter vecHits hlookup hpids ftsHits
  unfold outcomeBy
  dsimp only
  rw [hfused, pack_congr hlookup, candidates_congr hlookup fun p => (hgate3 _).mem_iff]

end

/-- Two rows that both legs list, read in either order, with the accumulator reversed. -/
theorem recall_order_independent_sample :
    let rows := admittedRows (.fromQuery "default" sampleQuery 0)
      ({ memories := [sampleMemory 1 "m1" .active, sampleMemory 2 "m2" .active] } : Db ℚ) fun _ => true
    outcomeBy id (.fromQuery "default" sampleQuery 0) [(2, 0), (1, 0)] rows
        [(1, "m1", .semantic, .trusted)] id sampleQuery =
      outcomeBy List.reverse (.fromQuery "default" sampleQuery 0) [(2, 0), (1, 0)] rows.reverse
        [(1, "m1", .semantic, .trusted)] List.reverse sampleQuery := by
  refine recall_order_independent _ _ _ _ (List.reverse_perm _).symm ?_ ?_
    (fun _ => (List.reverse_perm _).symm) (fun _ => .refl _) List.reverse_perm
  · decide +kernel
  · decide +kernel

end AgosMemory.Recall
