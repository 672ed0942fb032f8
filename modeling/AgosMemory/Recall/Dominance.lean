import AgosMemory.Recall.Order
import Mathlib.Tactic.Positivity
import Mathlib.Tactic.Linarith
import Mathlib.Tactic.FieldSimp
import Mathlib.Tactic.GCongr

/-!
# Rank dominance

In exact arithmetic the accumulator holds for each rowid the sum of what the two legs give its ranks. A
row that no leg ranks worse, and that neither importance nor decay puts behind, is not scored lower.
-/

namespace AgosMemory.Recall

open Library

variable {F : Type} [F64 F]

/-! ## Entries that reach scoring -/

section

variable {α : Type} {filter : HardFilter} {rows : List (CanonicalRow F)} {rowid : α → Int}
  {mark : Nat → α → Acc F → Acc F}

/-- A mark adds what a leg reports besides the rank. -/
def Marks (mark : Nat → α → Acc F → Acc F) : Prop :=
  ∀ rank x a, (mark rank x a).rowid = a.rowid ∧ (mark rank x a).rrf = a.rrf

/-- What one entry of a leg does to the accumulator of its row. -/
def scoreEntry (mark : Nat → α → Acc F → Acc F) (rank : Nat) (x : α) (a : Acc F) : Acc F :=
  mark rank x { a with rrf := F64.add a.rrf (rrfTerm rank) }

theorem Marks.scoreEntry_rowid (h : Marks mark) (rank : Nat) (x : α) (a : Acc F) :
    (scoreEntry mark rank x a).rowid = a.rowid := (h rank x _).1

theorem Marks.scoreEntry_rrf (h : Marks mark) (rank : Nat) (x : α) (a : Acc F) :
    (scoreEntry mark rank x a).rrf = F64.add a.rrf (rrfTerm rank) := (h rank x _).2

/-- The rowids that reach scoring. -/
def Scored (filter : HardFilter) (rows : List (CanonicalRow F)) (rowid : Int) : Prop :=
  ∃ row, rowAt rows rowid = some row ∧ filter.admits row = true

/-- One entry of a leg that reaches scoring adds the term of its rank. -/
theorem addLeg_cons_scored {x : α} (h : Scored filter rows (rowid x)) (xs : List α) (rank : Nat)
    (acc : List (Acc F)) :
    addLeg filter rows rowid mark (x :: xs) rank acc =
      addLeg filter rows rowid mark xs (rank + 1)
        (upsertAcc (rowid x) (scoreEntry mark rank x) acc) := by
  obtain ⟨row, hrow, hadmits⟩ := h
  rw [addLeg, hrow]
  exact if_pos hadmits

theorem addLeg_cons_skipped {x : α} (h : ¬Scored filter rows (rowid x)) (xs : List α) (rank : Nat)
    (acc : List (Acc F)) :
    addLeg filter rows rowid mark (x :: xs) rank acc =
      addLeg filter rows rowid mark xs (rank + 1) acc := by
  rw [addLeg]
  split
  · rfl
  · next row hrow => exact if_neg fun hadmits => h ⟨row, hrow, hadmits⟩

/-- A leg brings in rowids that it lists and that reach scoring. -/
theorem mem_addLeg (hmark : Marks mark) {hits : List α} {offset : Nat} {acc : List (Acc F)}
    {x : Int} (hx : x ∈ (addLeg filter rows rowid mark hits offset acc).map Acc.rowid) :
    x ∈ acc.map Acc.rowid ∨ x ∈ hits.map rowid ∧ Scored filter rows x := by
  induction hits generalizing offset acc with
  | nil => exact .inl hx
  | cons y ys ih =>
    by_cases hscored : Scored filter rows (rowid y)
    · rw [addLeg_cons_scored hscored] at hx
      rcases ih hx with hacc | ⟨hlisted, hx⟩
      · rcases mem_upsertAcc_rowid (hmark.scoreEntry_rowid offset y) hacc with rfl | hacc
        · exact .inr ⟨List.mem_cons_self, hscored⟩
        · exact .inl hacc
      · exact .inr ⟨List.mem_cons_of_mem _ hlisted, hx⟩
    · rw [addLeg_cons_skipped hscored] at hx
      exact (ih hx).imp_right fun ⟨hlisted, hx⟩ => ⟨List.mem_cons_of_mem _ hlisted, hx⟩

end

variable [Field F] [LinearOrder F] [IsStrictOrderedRing F] [Exact F]

/-! ## What a leg gives -/

private theorem rrfTerm_exact (rank : Nat) : (rrfTerm rank : F) = 1 / (61 + rank) := by
  unfold rrfTerm RRF_K
  simp only [Exact.ofRat, Exact.add, Exact.div]
  push_cast
  congr 1
  ring

theorem rrfMax_exact : (RRF_MAX : F) = 2 / 61 := by
  unfold RRF_MAX RRF_K
  simp only [Exact.ofRat, Exact.add, Exact.div]
  norm_num

/-- What a leg of distinct rowids gives a row: the term of its rank. -/
def legTerm (ids : List Int) (rowid : Int) : F :=
  if rowid ∈ ids then rrfTerm (ids.idxOf rowid) else 0

theorem rrfTerm_pos (rank : Nat) : 0 < (rrfTerm rank : F) := by
  rw [rrfTerm_exact]
  positivity

private theorem rrfTerm_anti {i j : Nat} (h : i ≤ j) : (rrfTerm j : F) ≤ rrfTerm i := by
  rw [rrfTerm_exact, rrfTerm_exact]
  have hcast : (i : F) ≤ j := Nat.cast_le.mpr h
  gcongr

theorem legTerm_nonneg (ids : List Int) (rowid : Int) : 0 ≤ (legTerm ids rowid : F) := by
  unfold legTerm
  split
  · exact (rrfTerm_pos _).le
  · exact le_rfl

theorem legTerm_pos {ids : List Int} {rowid : Int} (h : rowid ∈ ids) :
    0 < (legTerm ids rowid : F) := by
  rw [legTerm, if_pos h]
  exact rrfTerm_pos _

/-- The best a leg gives is the term of the first rank. -/
theorem legTerm_le (ids : List Int) (rowid : Int) : (legTerm ids rowid : F) ≤ 1 / 61 := by
  have hfirst : (rrfTerm 0 : F) = 1 / 61 := by rw [rrfTerm_exact]; simp
  unfold legTerm
  split
  · exact hfirst ▸ rrfTerm_anti (Nat.zero_le _)
  · positivity

/-- Where the leg lists `b` it lists `a`, and not after it. -/
def Leads (ids : List Int) (a b : Int) : Prop := b ∈ ids → a ∈ ids ∧ ids.idxOf a ≤ ids.idxOf b

instance (ids : List Int) (a b : Int) : Decidable (Leads ids a b) :=
  inferInstanceAs (Decidable (_ → _))

theorem Leads.legTerm_le {ids : List Int} {a b : Int} (h : Leads ids a b) :
    (legTerm ids b : F) ≤ legTerm ids a := by
  by_cases hb : b ∈ ids
  · obtain ⟨ha, hrank⟩ := h hb
    rw [legTerm, legTerm, if_pos hb, if_pos ha]
    exact rrfTerm_anti hrank
  · rw [legTerm, if_neg hb]
    exact legTerm_nonneg ids a

/-! ## What the accumulator holds -/

/-- The sum accumulated for a rowid. -/
def rrfAt (acc : List (Acc F)) (rowid : Int) : F :=
  match acc.find? fun a => a.rowid = rowid with
  | none => 0
  | some a => a.rrf

omit [F64 F] [LinearOrder F] [IsStrictOrderedRing F] [Exact F] in
private theorem rrfAt_cons (a : Acc F) (acc : List (Acc F)) (rowid : Int) :
    rrfAt (a :: acc) rowid = if a.rowid = rowid then a.rrf else rrfAt acc rowid := by
  unfold rrfAt
  by_cases h : a.rowid = rowid <;> simp [h]

omit [F64 F] [LinearOrder F] [IsStrictOrderedRing F] [Exact F] in
theorem rrfAt_of_mem {acc : List (Acc F)} (hnodup : (acc.map Acc.rowid).Nodup) {a : Acc F}
    (ha : a ∈ acc) : rrfAt acc a.rowid = a.rrf := by
  induction acc with
  | nil => cases ha
  | cons x acc ih =>
    obtain ⟨hx, hacc⟩ := List.nodup_cons.mp hnodup
    rw [rrfAt_cons]
    rcases List.mem_cons.mp ha with rfl | ha
    · rw [if_pos rfl]
    · have hne : x.rowid ≠ a.rowid := fun heq => hx (heq ▸ List.mem_map_of_mem ha)
      rw [if_neg hne, ih hacc ha]

theorem rrfAt_upsertAcc {rowid : Int} {f : Acc F → Acc F} {term : F}
    (hrowid : ∀ a, (f a).rowid = a.rowid) (hrrf : ∀ a, (f a).rrf = F64.add a.rrf term)
    (acc : List (Acc F)) (x : Int) :
    rrfAt (upsertAcc rowid f acc) x = rrfAt acc x + if rowid = x then term else 0 := by
  induction acc with
  | nil =>
    rw [upsertAcc, rrfAt_cons, hrowid, hrrf, Exact.add, Exact.ofRat]
    by_cases h : rowid = x <;> simp [h, rrfAt]
  | cons a acc ih =>
    unfold upsertAcc
    by_cases ha : a.rowid = rowid
    · rw [if_pos ha, rrfAt_cons, rrfAt_cons, hrowid, hrrf, Exact.add, ha]
      by_cases hx : rowid = x <;> simp [hx]
    · rw [if_neg ha, rrfAt_cons, rrfAt_cons, ih]
      by_cases hx : a.rowid = x
      · have hne : rowid ≠ x := fun h => ha (hx.trans h.symm)
        rw [if_pos hx, if_pos hx, if_neg hne, add_zero]
      · rw [if_neg hx, if_neg hx]

variable {α : Type} {filter : HardFilter} {rows : List (CanonicalRow F)} {rowid : α → Int}
  {mark : Nat → α → Acc F → Acc F}

/-- The entry that follows `offset` others is one of rank `offset`. -/
private theorem rrfAt_addLeg (hmark : Marks mark) {hits : List α} (hnodup : (hits.map rowid).Nodup)
    {x : Int} (hx : Scored filter rows x) (offset : Nat) (acc : List (Acc F)) :
    rrfAt (addLeg filter rows rowid mark hits offset acc) x = rrfAt acc x +
      if x ∈ hits.map rowid then rrfTerm (offset + (hits.map rowid).idxOf x) else 0 := by
  induction hits generalizing offset acc with
  | nil => simp [addLeg]
  | cons y ys ih =>
    obtain ⟨hy, hys⟩ := List.nodup_cons.mp hnodup
    rw [List.map_cons]
    by_cases hscored : Scored filter rows (rowid y)
    · rw [addLeg_cons_scored hscored, ih hys, rrfAt_upsertAcc
        (hmark.scoreEntry_rowid offset y) (hmark.scoreEntry_rrf offset y), add_assoc]
      congr 1
      by_cases heq : rowid y = x
      · subst heq
        rw [if_pos rfl, if_neg hy, if_pos List.mem_cons_self, List.idxOf_cons_self, add_zero,
          Nat.add_zero]
      · rw [if_neg heq, zero_add, List.idxOf_cons_ne _ heq]
        simp only [List.mem_cons, Ne.symm heq, false_or]
        rw [Nat.add_right_comm, Nat.add_assoc]
    · have heq : rowid y ≠ x := fun h => hscored (h ▸ hx)
      rw [addLeg_cons_skipped hscored, ih hys, List.idxOf_cons_ne _ heq]
      simp only [List.mem_cons, Ne.symm heq, false_or]
      rw [Nat.add_right_comm, Nat.add_assoc]

/-! ## Fused hits -/

variable {vecHits : List (VecLegHit F)} {ftsHits : List FtsLegHit}

/-- A fused hit reached scoring and carries what the two legs give it. -/
theorem fuse_rrf (hvec : (vecHits.map Prod.fst).Nodup) (hfts : (ftsHits.map Prod.fst).Nodup)
    {h : RecallHit F} (hm : h ∈ fuse filter vecHits rows ftsHits) :
    (h.rowid ∈ vecHits.map Prod.fst ∨ h.rowid ∈ ftsHits.map Prod.fst) ∧
      h.components.rrf =
        legTerm (vecHits.map Prod.fst) h.rowid + legTerm (ftsHits.map Prod.fst) h.rowid := by
  obtain ⟨a, ha, heq⟩ := List.mem_filterMap.mp (mem_sortHits.mp hm)
  obtain ⟨row, hrow, rfl⟩ := Option.map_eq_some_iff.mp heq
  have hsum := rrfAt_of_mem (accumulate_nodup filter vecHits rows ftsHits) ha
  have hmem := List.mem_map_of_mem (f := Acc.rowid) ha
  unfold accumulate at hsum hmem
  dsimp only at hsum hmem
  have hmarkVec : Marks fun _ (x : VecLegHit F) a =>
      { a with sim := some (F64.sub (F64.ofRat 1) x.2) } := fun _ _ _ => ⟨rfl, rfl⟩
  have hmarkFts : Marks fun rank (_ : FtsLegHit) (a : Acc F) =>
      { a with bm25Rank := some rank } := fun _ _ _ => ⟨rfl, rfl⟩
  have hlisted : (a.rowid ∈ vecHits.map Prod.fst ∨ a.rowid ∈ ftsHits.map Prod.fst) ∧
      Scored filter rows a.rowid := by
    rcases mem_addLeg hmarkFts hmem with hmem | ⟨hlisted, hscored⟩
    · rcases mem_addLeg hmarkVec hmem with hmem | ⟨hlisted, hscored⟩
      · cases hmem
      · exact ⟨.inl hlisted, hscored⟩
    · exact ⟨.inr hlisted, hscored⟩
  refine ⟨hlisted.1, ?_⟩
  rw [rrfAt_addLeg hmarkFts hfts hlisted.2, rrfAt_addLeg hmarkVec hvec hlisted.2] at hsum
  simp only [Nat.zero_add] at hsum
  rw [← hsum]
  simp [legTerm, rrfAt]

/-- The fused sum lies between zero and the ceiling. -/
theorem fuse_rrf_bounds (hvec : (vecHits.map Prod.fst).Nodup)
    (hfts : (ftsHits.map Prod.fst).Nodup) {h : RecallHit F}
    (hm : h ∈ fuse filter vecHits rows ftsHits) :
    0 < h.components.rrf ∧ h.components.rrf ≤ RRF_MAX := by
  obtain ⟨hlisted, hrrf⟩ := fuse_rrf hvec hfts hm
  have hvecLe : (legTerm (vecHits.map Prod.fst) h.rowid : F) ≤ 1 / 61 := legTerm_le _ _
  have hftsLe : (legTerm (ftsHits.map Prod.fst) h.rowid : F) ≤ 1 / 61 := legTerm_le _ _
  rw [hrrf, rrfMax_exact]
  constructor
  · rcases hlisted with hlisted | hlisted
    · exact add_pos_of_pos_of_nonneg (legTerm_pos hlisted) (legTerm_nonneg _ _)
    · exact add_pos_of_nonneg_of_pos (legTerm_nonneg _ _) (legTerm_pos hlisted)
  · linarith

private theorem fuse_rrf_mono (hvec : (vecHits.map Prod.fst).Nodup)
    (hfts : (ftsHits.map Prod.fst).Nodup)
    {a b : RecallHit F} (ha : a ∈ fuse filter vecHits rows ftsHits)
    (hb : b ∈ fuse filter vecHits rows ftsHits)
    (hleadsVec : Leads (vecHits.map Prod.fst) a.rowid b.rowid)
    (hleadsFts : Leads (ftsHits.map Prod.fst) a.rowid b.rowid) :
    b.components.rrf ≤ a.components.rrf := by
  rw [(fuse_rrf hvec hfts ha).2, (fuse_rrf hvec hfts hb).2]
  exact add_le_add hleadsVec.legTerm_le hleadsFts.legTerm_le

/-! ## Reranked hits -/

variable {weights : RecallWeights F} {halfLife : RecallHalfLives F} {now : Int}
  {hits : List (RecallHit F)}

/-- A reranked hit is a fused one whose clamp had nothing to do. -/
private theorem mem_rerank_fuse (hvec : (vecHits.map Prod.fst).Nodup)
    (hfts : (ftsHits.map Prod.fst).Nodup)
    (hsub : hits.Sublist (fuse filter vecHits rows ftsHits)) {h : RecallHit F}
    (hm : h ∈ rerank weights halfLife now hits rows) :
    ∃ hit ∈ fuse filter vecHits rows ftsHits, h.rowid = hit.rowid ∧ h.publicId = hit.publicId ∧
      h.components.rrf = hit.components.rrf ∧
      h.components.simNorm = F64.div hit.components.rrf RRF_MAX ∧
      h.score = weights.sim * h.components.simNorm + weights.importance * h.components.importance +
        weights.decay * h.components.decay := by
  obtain ⟨hit, hhit, row, rfl⟩ := mem_rerank hm
  obtain ⟨hpos, hle⟩ := fuse_rrf_bounds hvec hfts (hsub.subset hhit)
  have hmax : 0 < (RRF_MAX : F) := hpos.trans_le hle
  refine ⟨hit, hsub.subset hhit, rfl, rfl, rfl, ?_, ?_⟩
  · refine F64.clamp_exact _ _ _ ?_ ?_
    · rw [Exact.ofRat, Exact.div, Rat.cast_zero]
      exact (div_pos hpos hmax).le
    · rw [Exact.ofRat, Exact.div, Rat.cast_one]
      exact (div_le_one hmax).mpr hle
  · simp only [scoreHit, Exact.add, Exact.mul]

/-- The blend is monotone in its three terms. -/
private theorem rerank_score_mono (hvec : (vecHits.map Prod.fst).Nodup)
    (hfts : (ftsHits.map Prod.fst).Nodup)
    (hsub : hits.Sublist (fuse filter vecHits rows ftsHits)) (hsim : 0 ≤ weights.sim)
    (himportance : 0 ≤ weights.importance) (hdecay : 0 ≤ weights.decay) {a b : RecallHit F}
    (ha : a ∈ rerank weights halfLife now hits rows)
    (hb : b ∈ rerank weights halfLife now hits rows)
    (hleadsVec : Leads (vecHits.map Prod.fst) a.rowid b.rowid)
    (hleadsFts : Leads (ftsHits.map Prod.fst) a.rowid b.rowid)
    (himp : b.components.importance ≤ a.components.importance)
    (hdec : b.components.decay ≤ a.components.decay) : b.score ≤ a.score := by
  obtain ⟨hita, hhita, hrowa, _, _, hnorma, hscorea⟩ := mem_rerank_fuse hvec hfts hsub ha
  obtain ⟨hitb, hhitb, hrowb, _, _, hnormb, hscoreb⟩ := mem_rerank_fuse hvec hfts hsub hb
  rw [hrowa, hrowb] at hleadsVec hleadsFts
  have hrrf := fuse_rrf_mono hvec hfts hhita hhitb hleadsVec hleadsFts
  have hmax : 0 ≤ (RRF_MAX : F) := by rw [rrfMax_exact]; positivity
  have hnorm : b.components.simNorm ≤ a.components.simNorm := by
    rw [hnorma, hnormb, Exact.div, Exact.div]
    exact div_le_div_of_nonneg_right hrrf hmax
  rw [hscorea, hscoreb]
  gcongr

omit [Field F] [LinearOrder F] [IsStrictOrderedRing F] [Exact F] in
/-- With distinct public ids two reranked hits that share theirs are one hit. -/
private theorem rerank_publicId_inj (hsub : hits.Sublist (fuse filter vecHits rows ftsHits))
    (hpids : (rows.map CanonicalRow.publicId).Nodup) {a b : RecallHit F}
    (ha : a ∈ rerank weights halfLife now hits rows)
    (hb : b ∈ rerank weights halfLife now hits rows) (hpid : a.publicId = b.publicId) : a = b := by
  have hnodup : ((rerank weights halfLife now hits rows).map RecallHit.rowid).Nodup :=
    rerank_nodup weights halfLife now rows
      ((fuse_nodup filter vecHits rows ftsHits).sublist (hsub.map _))
  obtain ⟨hita, hhita, rowa, rfl⟩ := mem_rerank ha
  obtain ⟨hitb, hhitb, rowb, rfl⟩ := mem_rerank hb
  have heq : hita = hitb := hitOf_injective hpids (accumulate_nodup filter vecHits rows ftsHits)
    (mem_sortHits.mp (hsub.subset hhita)) (mem_sortHits.mp (hsub.subset hhitb)) hpid
  have hrowid : hita.rowid = hitb.rowid := congrArg RecallHit.rowid heq
  exact List.inj_on_of_nodup_map hnodup ha hb hrowid

/-- The sums of the fused hits are within the ceiling, so the clamp changes nothing; and for
non-negative weights a hit that leads another in both legs, and is behind it in neither importance nor
decay, scores at least as high and stands before it unless the scores are equal and the public id
decides. -/
theorem rank_dominance (filter : HardFilter) (vecHits : List (VecLegHit F))
    (rows : List (CanonicalRow F)) (ftsHits : List FtsLegHit)
    (hvec : (vecHits.map Prod.fst).Nodup) (hfts : (ftsHits.map Prod.fst).Nodup) :
    (∀ h ∈ fuse filter vecHits rows ftsHits,
      0 < h.components.rrf ∧ h.components.rrf ≤ RRF_MAX) ∧
    ∀ weights halfLife now (hits : List (RecallHit F)),
      hits.Sublist (fuse filter vecHits rows ftsHits) →
      let ranked := rerank weights halfLife now hits rows
      (∀ h ∈ ranked, h.components.simNorm = F64.div h.components.rrf RRF_MAX) ∧
      (0 ≤ weights.sim → 0 ≤ weights.importance → 0 ≤ weights.decay → ∀ a ∈ ranked, ∀ b ∈ ranked,
        Leads (vecHits.map Prod.fst) a.rowid b.rowid →
        Leads (ftsHits.map Prod.fst) a.rowid b.rowid →
        b.components.importance ≤ a.components.importance →
        b.components.decay ≤ a.components.decay →
        b.score ≤ a.score ∧
          ([b, a].Sublist ranked → b.score = a.score ∧ b.publicId ≤ a.publicId ∧
            ((rows.map CanonicalRow.publicId).Nodup → b.publicId < a.publicId))) := by
  refine ⟨fun h hm => fuse_rrf_bounds hvec hfts hm, ?_⟩
  intro weights halfLife now hits hsub ranked
  refine ⟨fun h hm => ?_, ?_⟩
  · obtain ⟨hit, _, _, _, hrrf, hnorm, _⟩ := mem_rerank_fuse hvec hfts hsub hm
    rw [hnorm, hrrf]
  · intro hsim himportance hdecay a ha b hb hleadsVec hleadsFts himp hdec
    have hle := rerank_score_mono hvec hfts hsub hsim himportance hdecay ha hb hleadsVec hleadsFts
      himp hdec
    refine ⟨hle, fun hprec => ?_⟩
    have hordered : ranked.Pairwise (Ranking.before (byKeyDesc RecallHit.score)) :=
      Ranking.rank_pairwise _ _
    have hbefore := List.pairwise_iff_forall_sublist.mp hordered hprec
    rcases before_byKeyDesc.mp hbefore with hlt | ⟨heq, hpid⟩
    · exact absurd hle hlt.not_ge
    · refine ⟨heq, hpid, fun hpids => lt_of_le_of_ne hpid fun hsame => ?_⟩
      have hnodup : (ranked.map RecallHit.rowid).Nodup :=
        rerank_nodup weights halfLife now rows
          ((fuse_nodup filter vecHits rows ftsHits).sublist (hsub.map _))
      have hne : b ≠ a := by
        have hpair := (List.Nodup.of_map _ hnodup).sublist hprec
        simpa using hpair
      exact hne (rerank_publicId_inj hsub hpids hb ha hsame)

def sampleRows : List (CanonicalRow ℚ) :=
  admittedRows (.fromQuery "default" sampleQuery 0)
    { memories := [sampleMemory 1 "m1" .active, sampleMemory 2 "m2" .active] } fun _ => true

def sampleVecHits : List (VecLegHit ℚ) := [(1, 0), (2, 0)]

def sampleFtsHits : List FtsLegHit := [(1, "m1", .semantic, .trusted)]

def sampleFused : List (RecallHit ℚ) :=
  fuse (.fromQuery "default" sampleQuery 0) sampleVecHits sampleRows sampleFtsHits

def sampleRanked : List (RecallHit ℚ) :=
  rerank sampleQuery.weights sampleQuery.halfLife 0 sampleFused sampleRows

private theorem sampleRanked_ne_nil : sampleRanked ≠ [] := by decide +kernel

/-- Both legs list the first row first; the one that one leg lists after it does not precede it. -/
theorem rank_dominance_sample :
    ∃ a ∈ sampleRanked, ∃ b ∈ sampleRanked, a.publicId = "m1" ∧ b.publicId = "m2" ∧
      0 < b.components.rrf ∧ b.score ≤ a.score ∧ ¬[b, a].Sublist sampleRanked := by
  obtain ⟨-, hranked⟩ := rank_dominance (.fromQuery "default" sampleQuery 0) sampleVecHits sampleRows
    sampleFtsHits (by decide) (by decide)
  obtain ⟨-, hdominated⟩ := hranked sampleQuery.weights sampleQuery.halfLife 0 sampleFused (.refl _)
  obtain ⟨hle, hprec⟩ := hdominated (by decide +kernel) (by decide +kernel) (by decide +kernel)
    (sampleRanked.head sampleRanked_ne_nil) (List.head_mem sampleRanked_ne_nil)
    (sampleRanked.getLast sampleRanked_ne_nil) (List.getLast_mem sampleRanked_ne_nil)
    (by decide +kernel) (by decide +kernel) (by decide +kernel) (by decide +kernel)
  refine ⟨sampleRanked.head sampleRanked_ne_nil, List.head_mem sampleRanked_ne_nil,
    sampleRanked.getLast sampleRanked_ne_nil, List.getLast_mem sampleRanked_ne_nil,
    by decide +kernel, by decide +kernel, by decide +kernel, hle, ?_⟩
  intro hsub
  exact absurd (hprec hsub).2.1 (by decide +kernel)

end AgosMemory.Recall
