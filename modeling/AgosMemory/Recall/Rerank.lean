import AgosMemory.Recall.Fuse

/-!
# Rerank and decay

The score blends the normalized rank, the effective importance and the decay of the row.
-/

namespace AgosMemory.Recall

variable {F : Type} [F64 F]

/-- RRF ceiling for one query: both legs place the same row at rank 0. -/
def RRF_MAX : F := F64.div (F64.ofRat 2) (F64.add RRF_K (F64.ofRat 1))

/-- Candidate pool multiplier over `top_k`. -/
def RERANK_POOL_FACTOR : Nat := 4

/-- `usize::saturating_mul` -/
def saturatingMul (a b : Nat) : Nat := min (a * b) (2 ^ 64 - 1)

/-- Half-life of a tier in minutes; `<= 0` means no decay. -/
def halfLifeMinutes (tier : Tier) (hl : RecallHalfLives F) : F :=
  let hours := match tier with
    | .working => hl.workingHours
    | .episodic => hl.episodicHours
    | .semantic => hl.semanticHours
    | .procedural => hl.proceduralHours
  F64.mul hours (F64.ofRat 60)

/-- Exponential decay from the last reference, else from creation. The age is a difference of two
`i64`, which a release build does not check. -/
def decay (tier : Tier) (hl : RecallHalfLives F) (row : CanonicalRow F) (now : Int) : F :=
  let hlMin := halfLifeMinutes tier hl
  if F64.le hlMin (F64.ofRat 0) then F64.ofRat 1
  else
    let base := row.lastReferencedAt.getD row.createdAt
    let deltaMin := F64.max (F64.div (F64.ofRat (wrapI64 (now - base) : ℚ)) (F64.ofRat 60000))
      (F64.ofRat 0)
    F64.powf (F64.ofRat (1 / 2)) (F64.div deltaMin hlMin)

/-- Effective importance: discounted by confidence when the row is still pending. -/
def importanceEff (row : CanonicalRow F) : F :=
  if row.status = .pending then F64.mul row.importanceCurrent row.confidence
  else row.importanceCurrent

/-- Score one hit against its canonical row. -/
def scoreHit (weights : RecallWeights F) (halfLife : RecallHalfLives F) (now : Int)
    (row : CanonicalRow F) (hit : RecallHit F) : RecallHit F :=
  let simNorm := F64.clamp (F64.ofRat 0) (F64.ofRat 1) (F64.div hit.components.rrf RRF_MAX)
  let decayed := if row.pinned then F64.ofRat 1 else decay row.tier halfLife row now
  let importance := importanceEff row
  let score := F64.add (F64.add (F64.mul weights.sim simNorm) (F64.mul weights.importance importance))
    (F64.mul weights.decay decayed)
  { hit with
    score
    components := { hit.components with
      simNorm, importance, confidence := row.confidence, decay := decayed } }

/-- Score and sort fused candidates, best first; a candidate without a row is dropped. -/
def rerank (weights : RecallWeights F) (halfLife : RecallHalfLives F) (now : Int)
    (hits : List (RecallHit F)) (rows : List (CanonicalRow F)) : List (RecallHit F) :=
  sortHits (byKeyDesc RecallHit.score) (hits.filterMap fun hit =>
    (rowAt rows hit.rowid).map fun row => scoreHit weights halfLife now row hit)

/-- Rerank rescores its hits and keeps the rest of each. -/
theorem mem_rerank {weights : RecallWeights F} {halfLife : RecallHalfLives F} {now : Int}
    {hits : List (RecallHit F)} {rows : List (CanonicalRow F)} {h : RecallHit F}
    (hm : h ∈ rerank weights halfLife now hits rows) :
    ∃ hit ∈ hits, ∃ row, h = scoreHit weights halfLife now row hit := by
  obtain ⟨hit, hhit, heq⟩ := List.mem_filterMap.mp (mem_sortHits.mp hm)
  obtain ⟨row, _, rfl⟩ := Option.map_eq_some_iff.mp heq
  exact ⟨hit, hhit, row, rfl⟩

/-- Rerank keeps the rowids of its hits distinct. -/
theorem rerank_nodup (weights : RecallWeights F) (halfLife : RecallHalfLives F) (now : Int)
    {hits : List (RecallHit F)} (rows : List (CanonicalRow F))
    (h : (hits.map RecallHit.rowid).Nodup) :
    ((rerank weights halfLife now hits rows).map RecallHit.rowid).Nodup := by
  refine ((List.perm_insertionSort _ _).map _).nodup_iff.mpr
    (h.sublist (map_filterMap_sublist (fun hit hit' heq => ?_) _))
  obtain ⟨row, _, rfl⟩ := Option.map_eq_some_iff.mp heq
  rfl

end AgosMemory.Recall
