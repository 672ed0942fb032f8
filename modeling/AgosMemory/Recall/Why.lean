import AgosMemory.Recall.Dominance
import AgosMemory.Recall.Legs
import AgosMemory.Server.Auth

/-!
# The signals of a hit

`why` lists the signals of a hit from its components. A component that is large counts only as far as
its weight does, and `validate` does not look at the weights.
-/

namespace AgosMemory.Recall

open Library

section

variable {F : Type} [F64 F]

/-- A key of the list, if it applies. -/
def named (applies : Bool) (key : String) : List String := if applies then [key] else []

/-- The signals that boosted the rank of a hit. -/
def why (hit : RecallHit F) : List String :=
  named hit.components.sim.isSome "vector" ++ named hit.components.bm25Rank.isSome "bm25" ++
    named (F64.le (F64.ofRat (7 / 10)) hit.components.importance) "important" ++
    named (F64.le (F64.ofRat (9 / 10)) hit.components.decay) "fresh" ++
    named hit.injected "in-budget"

/-- The score of a fused sum, an importance and a decay. -/
def blend (weights : RecallWeights F) (rrf importance decay : F) : F :=
  let simNorm := F64.clamp (F64.ofRat 0) (F64.ofRat 1) (F64.div rrf RRF_MAX)
  F64.add (F64.add (F64.mul weights.sim simNorm) (F64.mul weights.importance importance))
    (F64.mul weights.decay decay)

/-- The score that a hit would have without one of the terms of its sum. -/
def scoreWithout (weights : RecallWeights F) (term : F) (hit : RecallHit F) : F :=
  blend weights (F64.sub hit.components.rrf term) hit.components.importance hit.components.decay

/-- The decay that a row is scored with. -/
def decayOf (halfLife : RecallHalfLives F) (now : Int) (row : CanonicalRow F) : F :=
  if row.pinned then F64.ofRat 1 else decay row.tier halfLife row now

private theorem mem_named {applies : Bool} {key k : String} :
    k ∈ named applies key ↔ applies = true ∧ k = key := by
  cases applies <;> simp [named]

private theorem vector_mem_why {hit : RecallHit F} :
    "vector" ∈ why hit ↔ hit.components.sim.isSome = true := by
  simp [why, mem_named]

private theorem bm25_mem_why {hit : RecallHit F} :
    "bm25" ∈ why hit ↔ hit.components.bm25Rank.isSome = true := by
  simp [why, mem_named]

private theorem important_mem_why {hit : RecallHit F} : "important" ∈ why hit ↔
    F64.le (F64.ofRat (7 / 10)) hit.components.importance = true := by
  simp [why, mem_named]

private theorem fresh_mem_why {hit : RecallHit F} : "fresh" ∈ why hit ↔
    F64.le (F64.ofRat (9 / 10)) hit.components.decay = true := by
  simp [why, mem_named]

/-! ## Packing keeps the score -/

/-- The same hit but for what packing did with it. -/
def Repacked {F : Type} (hit h : RecallHit F) : Prop :=
  ∃ placement tokens, h = { hit with placement, tokens }

omit [F64 F] in
theorem Repacked.refl (hit : RecallHit F) : Repacked hit hit := ⟨hit.placement, hit.tokens, rfl⟩

omit [F64 F] in
theorem Repacked.trans {a b c : RecallHit F} (hab : Repacked a b) (hbc : Repacked b c) :
    Repacked a c := by
  obtain ⟨p, t, rfl⟩ := hab
  obtain ⟨p', t', rfl⟩ := hbc
  exact ⟨p', t', rfl⟩

omit [F64 F] in
private theorem pinnedStep_repacked (count : String → Nat) (budget : Nat)
    (rows : List (CanonicalRow F))
    (hit : RecallHit F) (t : Totals) : Repacked hit (pinnedStep count budget rows hit t).1 := by
  unfold pinnedStep
  split
  · exact ⟨.dropped .unresolved, hit.tokens, rfl⟩
  · split
    · exact ⟨_, _, rfl⟩
    · exact .refl hit

omit [F64 F] in
private theorem tierStep_repacked (count : String → Nat) (budget : Nat) (rows : List (CanonicalRow F))
    (tier : Tier) (hit : RecallHit F) (s : Totals × Nat) :
    Repacked hit (tierStep count budget rows tier hit s).1 := by
  unfold tierStep
  split
  · exact .refl hit
  · split
    · exact ⟨.dropped .unresolved, hit.tokens, rfl⟩
    · split
      · exact .refl hit
      · exact ⟨_, _, rfl⟩

omit [F64 F] in
private theorem mem_packTiers {count : String → Nat} {budget : Nat} {rows : List (CanonicalRow F)}
    {shares : TierTokens} {tiers : List Tier} {carry : Nat} {hits : List (RecallHit F)} {t : Totals}
    {h : RecallHit F} (hm : h ∈ (packTiers count budget rows shares tiers carry hits t).1) :
    ∃ hit ∈ hits, Repacked hit h := by
  induction tiers generalizing carry hits t with
  | nil => exact ⟨h, hm, .refl h⟩
  | cons tier tiers ih =>
    obtain ⟨mid, hmid, hrepacked⟩ := ih hm
    obtain ⟨hit, hhit, s, rfl⟩ := mem_passHits hmid
    exact ⟨hit, hhit, (tierStep_repacked count budget rows tier hit s).trans hrepacked⟩

/-- A packed hit is one of the hits, with a placement. -/
private theorem mem_pack_repacked {count : String → Nat} {split : BudgetSplit F} {budget : Nat}
    {rows : List (CanonicalRow F)} {hits : List (RecallHit F)} {h : RecallHit F}
    (hm : h ∈ (pack count split budget hits rows).hits) : ∃ hit ∈ hits, Repacked hit h := by
  have htiers : h ∈ (packTiers count budget rows (alloc split budget) TIER_ORDER 0
      (passHits (pinnedStep count budget rows) (sortHits (injectionOrder rows) hits) {}).1
      (passHits (pinnedStep count budget rows) (sortHits (injectionOrder rows) hits) {}).2).1 := hm
  obtain ⟨mid, hmid, hrepacked⟩ := mem_packTiers htiers
  obtain ⟨hit, hhit, t, rfl⟩ := mem_passHits hmid
  exact ⟨hit, mem_sortHits.mp hhit,
    (pinnedStep_repacked count budget rows hit t).trans hrepacked⟩

/-! ## Marks of the legs -/

/-- What a leg marks every entry with that it touches holds of all of them after it. -/
private theorem addLeg_marked {α : Type} {P : Acc F → Prop} {filter : HardFilter}
    {rows : List (CanonicalRow F)} {rowid : α → Int} {mark : Nat → α → Acc F → Acc F}
    (hmark : ∀ rank x a, P (mark rank x a)) {hits : List α} {rank : Nat} {acc : List (Acc F)}
    (h : ∀ a ∈ acc, P a) : ∀ a ∈ addLeg filter rows rowid mark hits rank acc, P a := by
  have hupsert : ∀ (x : α) (rank : Nat) (acc : List (Acc F)), (∀ a ∈ acc, P a) →
      ∀ a ∈ upsertAcc (rowid x) (scoreEntry mark rank x) acc, P a := by
    intro x rank acc
    induction acc with
    | nil =>
      intro _ a ha
      rw [List.mem_singleton.mp ha]
      exact hmark _ _ _
    | cons b acc ih =>
      intro hacc
      obtain ⟨hb, hrest⟩ := List.forall_mem_cons.mp hacc
      unfold upsertAcc
      split
      · exact List.forall_mem_cons.mpr ⟨hmark _ _ _, hrest⟩
      · exact List.forall_mem_cons.mpr ⟨hb, ih hrest⟩
  induction hits generalizing rank acc with
  | nil => exact h
  | cons x hits ih =>
    by_cases hscored : Scored filter rows (rowid x)
    · rw [addLeg_cons_scored hscored]
      exact ih (hupsert x rank acc h)
    · rw [addLeg_cons_skipped hscored]
      exact ih h

variable {filter : HardFilter} {vecHits : List (VecLegHit F)} {rows : List (CanonicalRow F)}
  {ftsHits : List FtsLegHit}

/-- Every fused hit is named by a leg. -/
private theorem fuse_marked {h : RecallHit F} (hm : h ∈ fuse filter vecHits rows ftsHits) :
    h.components.sim.isSome = true ∨ h.components.bm25Rank.isSome = true := by
  obtain ⟨a, ha, heq⟩ := List.mem_filterMap.mp (mem_sortHits.mp hm)
  obtain ⟨row, _, rfl⟩ := Option.map_eq_some_iff.mp heq
  have hall : ∀ a ∈ accumulate filter vecHits rows ftsHits,
      a.sim.isSome = true ∨ a.bm25Rank.isSome = true :=
    addLeg_marked (fun _ _ _ => .inr rfl) (addLeg_marked (fun _ _ _ => .inl rfl) nofun)
  exact hall a ha

/-- A hit with a similarity is listed by the vector leg. -/
private theorem fuse_sim_listed {h : RecallHit F} (hm : h ∈ fuse filter vecHits rows ftsHits)
    (hsim : h.components.sim.isSome = true) : h.rowid ∈ vecHits.map Prod.fst := by
  obtain ⟨a, ha, heq⟩ := List.mem_filterMap.mp (mem_sortHits.mp hm)
  obtain ⟨row, _, rfl⟩ := Option.map_eq_some_iff.mp heq
  have hall : ∀ a ∈ accumulate filter vecHits rows ftsHits,
      a.sim.isSome = true → a.rowid ∈ vecHits.map Prod.fst := by
    refine addLeg_forall (fun _ hnone => by cases hnone)
      (fun rank x a _ _ ha => ha) [] rfl ?_
    refine addLeg_forall (fun _ hnone => by cases hnone)
      (fun rank x a hx hrowid _ _ => ?_) [] rfl ?_
    · rw [List.nil_append] at hx
      show a.rowid ∈ _
      rw [hrowid]
      exact List.mem_map_of_mem (List.mem_of_getElem? hx)
    · exact fun a ha => by cases ha
  exact hall a ha hsim

private theorem fuse_rank_listed {h : RecallHit F} (hm : h ∈ fuse filter vecHits rows ftsHits)
    (hrank : h.components.bm25Rank.isSome = true) : h.rowid ∈ ftsHits.map Prod.fst := by
  obtain ⟨rank, hsome⟩ := Option.isSome_iff_exists.mp hrank
  obtain ⟨hit, hhit, hrowid⟩ := Option.map_eq_some_iff.mp (fuse_bm25Rank hm hsome)
  rw [← hrowid]
  exact List.mem_map_of_mem (List.mem_of_getElem? hhit)

end

/-! ## What the score is made of -/

section

variable {F : Type} [F64 F] [Field F] [LinearOrder F] [IsStrictOrderedRing F] [Exact F]

/-- The blend of a sum within the ceiling. -/
private theorem blend_exact {weights : RecallWeights F} {rrf importance decay : F} (hpos : 0 ≤ rrf)
    (hle : rrf ≤ RRF_MAX) : blend weights rrf importance decay =
      weights.sim * (rrf / RRF_MAX) + weights.importance * importance + weights.decay * decay := by
  have hmax : (0 : F) < RRF_MAX := by rw [rrfMax_exact]; positivity
  have hclamp : F64.clamp (F64.ofRat 0) (F64.ofRat 1) (F64.div rrf RRF_MAX) = rrf / (RRF_MAX : F) := by
    rw [Exact.div]
    refine F64.clamp_exact _ _ _ ?_ ?_
    · rw [Exact.ofRat, Rat.cast_zero]
      exact div_nonneg hpos hmax.le
    · rw [Exact.ofRat, Rat.cast_one]
      exact (div_le_one hmax).mpr hle
  unfold blend
  simp only [hclamp, Exact.add, Exact.mul]

variable {filter : HardFilter} {vecHits : List (VecLegHit F)} {rows : List (CanonicalRow F)}
  {ftsHits : List FtsLegHit}

/-- Without the term of a leg that lists it a hit scores lower exactly if similarity has weight. -/
private theorem blend_without_lt (weights : RecallWeights F) {rrf term : F} (importance decay : F)
    (hterm : 0 < term) (hle : term ≤ rrf) (hmax : rrf ≤ RRF_MAX) :
    blend weights (F64.sub rrf term) importance decay < blend weights rrf importance decay ↔
      0 < weights.sim := by
  have hceiling : (0 : F) < RRF_MAX := by rw [rrfMax_exact]; positivity
  rw [Exact.sub, blend_exact (sub_nonneg.mpr hle) ((sub_le_self rrf hterm.le).trans hmax),
    blend_exact (hterm.le.trans hle) hmax, add_lt_add_iff_right, add_lt_add_iff_right]
  have hlower : (rrf - term) / RRF_MAX < rrf / RRF_MAX :=
    (div_lt_div_iff_of_pos_right hceiling).mpr (sub_lt_self rrf hterm)
  constructor
  · intro h
    by_contra hsim
    exact h.not_ge (mul_le_mul_of_nonpos_left hlower.le (not_lt.mp hsim))
  · exact fun hsim => mul_lt_mul_of_pos_left hlower hsim

/-! ## Explanations -/

/-- Each signal named for a hit counted in its score. -/
structure Backed (vecIds ftsIds : List Int) (weights : RecallWeights F) (h : RecallHit F) : Prop where
  vector : "vector" ∈ why h → scoreWithout weights (legTerm vecIds h.rowid) h < h.score
  bm25 : "bm25" ∈ why h → scoreWithout weights (legTerm ftsIds h.rowid) h < h.score
  important : "important" ∈ why h → 0 < weights.importance * h.components.importance
  fresh : "fresh" ∈ why h → 0 < weights.decay * h.components.decay

/-- The weights of the signals that the row has are positive. -/
structure Weighted (weights : RecallWeights F) (halfLife : RecallHalfLives F) (now : Int)
    (row : CanonicalRow F) : Prop where
  sim : 0 < weights.sim
  importance : 7 / 10 ≤ importanceEff row → 0 < weights.importance
  decay : 9 / 10 ≤ decayOf halfLife now row → 0 < weights.decay

private theorem le_ofRat (q : ℚ) (x : F) : F64.le (F64.ofRat q) x = true ↔ (q : F) ≤ x := by
  rw [Exact.le, Exact.ofRat, decide_eq_true_eq]

/-- A signal above a positive bound counts exactly if its weight does. -/
private theorem signal_iff {q : ℚ} (hq : 0 < q) (weight x : F) :
    (F64.le (F64.ofRat q) x = true → 0 < weight * x) ↔ ((q : F) ≤ x → 0 < weight) := by
  rw [le_ofRat]
  refine imp_congr_right fun hx => ?_
  have hpos : 0 < x := (Rat.cast_pos.mpr hq).trans_le hx
  exact mul_pos_iff_of_pos_right hpos

omit [Field F] [IsStrictOrderedRing F] [Exact F] [LinearOrder F] in
/-- The hits that are scored: each a fused one, scored with its row. -/
private theorem mem_rerank_row {weights : RecallWeights F} {halfLife : RecallHalfLives F} {now : Int}
    {hits : List (RecallHit F)} {h : RecallHit F}
    (hm : h ∈ rerank weights halfLife now hits rows) :
    ∃ hit ∈ hits, ∃ row, rowAt rows hit.rowid = some row ∧
      h = scoreHit weights halfLife now row hit := by
  obtain ⟨hit, hhit, heq⟩ := List.mem_filterMap.mp (mem_sortHits.mp hm)
  obtain ⟨row, hrow, rfl⟩ := Option.map_eq_some_iff.mp heq
  exact ⟨hit, hhit, row, hrow, rfl⟩

/-- The settings, and those of the score, which `validate` does not read. -/
structure ScoredConfig (F : Type) extends Server.Config F where
  weights : RecallWeights F
  halfLife : RecallHalfLives F

/-- Of every hit that was fused, reranked and packed, the explanation is backed by the score exactly if
similarity has a positive weight, and importance and decay have one as far as the row has the signal. -/
theorem why_backed_iff (filter : HardFilter) (vecHits : List (VecLegHit F))
    (rows : List (CanonicalRow F)) (ftsHits : List FtsLegHit)
    (hvec : (vecHits.map Prod.fst).Nodup) (hfts : (ftsHits.map Prod.fst).Nodup)
    (cfg : ScoredConfig F) (now : Int)
    {hits ranked : List (RecallHit F)} (hhits : hits.Sublist (fuse filter vecHits rows ftsHits))
    (hranked : ranked.Sublist (rerank cfg.weights cfg.halfLife now hits rows)) (count : String → Nat)
    (split : BudgetSplit F) (budget : Nat) {h : RecallHit F}
    (hm : h ∈ (pack count split budget ranked rows).hits) :
    ∃ row, rowAt rows h.rowid = some row ∧
      (Backed (vecHits.map Prod.fst) (ftsHits.map Prod.fst) cfg.weights h ↔
        Weighted cfg.weights cfg.halfLife now row) := by
  obtain ⟨scored, hscored, placement, tokens, rfl⟩ := mem_pack_repacked hm
  obtain ⟨hit, hhit, row, hrow, rfl⟩ := mem_rerank_row (hranked.subset hscored)
  have hfused := hhits.subset hhit
  refine ⟨row, hrow, ?_⟩
  obtain ⟨_, hrrf⟩ := fuse_rrf hvec hfts hfused
  obtain ⟨_, hmax⟩ := fuse_rrf_bounds hvec hfts hfused
  have hvecTerm : (legTerm (vecHits.map Prod.fst) hit.rowid : F) ≤ hit.components.rrf :=
    hrrf ▸ le_add_of_nonneg_right (legTerm_nonneg _ _)
  have hftsTerm : (legTerm (ftsHits.map Prod.fst) hit.rowid : F) ≤ hit.components.rrf :=
    hrrf ▸ le_add_of_nonneg_left (legTerm_nonneg _ _)
  -- a leg that is named lists the row, so that its term is positive
  have hvector : hit.components.sim.isSome = true →
      (blend cfg.weights (F64.sub hit.components.rrf (legTerm (vecHits.map Prod.fst) hit.rowid))
        (importanceEff row) (decayOf cfg.halfLife now row) <
      blend cfg.weights hit.components.rrf (importanceEff row) (decayOf cfg.halfLife now row) ↔
        0 < cfg.weights.sim) := fun hsim =>
    blend_without_lt cfg.weights _ _ (legTerm_pos (fuse_sim_listed hfused hsim)) hvecTerm hmax
  have hbm25 : hit.components.bm25Rank.isSome = true →
      (blend cfg.weights (F64.sub hit.components.rrf (legTerm (ftsHits.map Prod.fst) hit.rowid))
        (importanceEff row) (decayOf cfg.halfLife now row) <
      blend cfg.weights hit.components.rrf (importanceEff row) (decayOf cfg.halfLife now row) ↔
        0 < cfg.weights.sim) := fun hrank =>
    blend_without_lt cfg.weights _ _ (legTerm_pos (fuse_rank_listed hfused hrank)) hftsTerm hmax
  have himportant := signal_iff (q := 7 / 10) (by norm_num) cfg.weights.importance
    (importanceEff row)
  have hfresh := signal_iff (q := 9 / 10) (by norm_num) cfg.weights.decay
    (decayOf cfg.halfLife now row)
  push_cast at himportant hfresh
  constructor
  · intro hbacked
    refine ⟨?_, himportant.mp fun himp => hbacked.important (important_mem_why.mpr himp),
      hfresh.mp fun hdec => hbacked.fresh (fresh_mem_why.mpr hdec)⟩
    rcases fuse_marked hfused with hsim | hrank
    · exact (hvector hsim).mp (hbacked.vector (vector_mem_why.mpr hsim))
    · exact (hbm25 hrank).mp (hbacked.bm25 (bm25_mem_why.mpr hrank))
  · intro hweighted
    refine ⟨fun hnamed => ?_, fun hnamed => ?_, fun hnamed => ?_, fun hnamed => ?_⟩
    · have hsim := vector_mem_why.mp hnamed
      exact (hvector hsim).mpr hweighted.sim
    · have hrank := bm25_mem_why.mp hnamed
      exact (hbm25 hrank).mpr hweighted.sim
    · exact himportant.mpr hweighted.importance (important_mem_why.mp hnamed)
    · exact hfresh.mpr hweighted.decay (fresh_mem_why.mp hnamed)

end

/-! ## One recall -/

/-- Accepted settings in which age does not count. -/
def agelessConfig : ScoredConfig ℚ where
  dbPath := "agos.db"
  agentId := "default"
  session := ⟨30⟩
  memory := ⟨4 / 10, 92 / 100⟩
  «recall» := ⟨8, 1500, 35 / 100, ⟨4 / 10, 3 / 10, 2 / 10, 1 / 10⟩⟩
  server := ⟨"127.0.0.1:8710", ""⟩
  weights := ⟨6 / 10, 25 / 100, 0⟩
  halfLife := ⟨6, 504, 0, 0⟩

/-- The same settings with the default weights. -/
def weightedConfig : ScoredConfig ℚ := { agelessConfig with weights := ⟨6 / 10, 25 / 100, 15 / 100⟩ }

def packedSample (cfg : ScoredConfig ℚ) : List (RecallHit ℚ) :=
  (pack (heuristicCount ℚ) cfg.«recall».budgetSplit cfg.«recall».budgetTokens
    (rerank cfg.weights cfg.halfLife 0 sampleFused sampleRows) sampleRows).hits

private theorem packed_weighted_ne_nil : packedSample weightedConfig ≠ [] := by decide +kernel

private theorem packed_ageless_ne_nil : packedSample agelessConfig ≠ [] := by decide +kernel

theorem why_backed_sample : ∃ h ∈ packedSample weightedConfig,
    why h = ["vector", "bm25", "fresh", "in-budget"] ∧
      Backed (sampleVecHits.map Prod.fst) (sampleFtsHits.map Prod.fst) weightedConfig.weights h := by
  have hhead := List.head_mem packed_weighted_ne_nil
  refine ⟨(packedSample weightedConfig).head packed_weighted_ne_nil, hhead, by decide +kernel, ?_⟩
  obtain ⟨row, hrow, hiff⟩ := why_backed_iff (.fromQuery "default" sampleQuery 0) sampleVecHits
    sampleRows sampleFtsHits (by decide) (by decide) weightedConfig 0 (.refl sampleFused) (.refl _)
    (heuristicCount ℚ) _ _ hhead
  exact hiff.mpr ⟨by decide +kernel, fun _ => by decide +kernel, fun _ => by decide +kernel⟩

/-- The settings are accepted, and the explanation names the age of a hit, which has no weight. -/
theorem why_unbacked : agelessConfig.validate = .ok () ∧ ∃ h ∈ packedSample agelessConfig,
    "fresh" ∈ why h ∧ agelessConfig.weights.decay * h.components.decay = 0 := by
  exact ⟨by decide +kernel, _, List.head_mem packed_ageless_ne_nil, by decide +kernel,
    by decide +kernel⟩

end AgosMemory.Recall
