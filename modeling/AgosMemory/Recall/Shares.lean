import AgosMemory.Recall.Accounting
import AgosMemory.Recall.Order

/-!
# Tier shares

Pass 2 gives each hit that is still unpacked one turn, when its tier is offered its share. The turns are
listed here beside the loops, as the offers are, with what the tier has left: what a tier leaves rolls
down and a pinned row takes nothing from it, so the turns of the first tiers take no more than those
tiers were allotted.
-/

namespace AgosMemory.Recall

open Library

variable {F : Type}

/-! ## Turns -/

/-- A turn of pass 2: the hit as it was met, its row, the totals before and what its tier has left. -/
structure Turn (F : Type) where
  hit : RecallHit F
  row : CanonicalRow F
  before : Totals
  available : Nat

/-- The turn that a hit gets while a tier is served. -/
def tierTurn (rows : List (CanonicalRow F)) (tier : Tier) (hit : RecallHit F) (s : Totals × Nat) :
    Option (Turn F) :=
  if hit.placement ≠ .unpacked then none
  else
    match rowAt rows hit.rowid with
    | none => none
    | some row => if row.tier ≠ tier then none else some ⟨hit, row, s.1, s.2⟩

/-- What is left of the ceiling. -/
def Turn.remaining (budget : Nat) (turn : Turn F) : Nat := budget - turn.before.tokensUsed

/-- The offer made in a turn: what the tier has left or what is left of the ceiling. -/
def Turn.offer (budget : Nat) (turn : Turn F) : Offer F :=
  if turn.available ≤ turn.remaining budget then
    ⟨turn.hit, turn.row, turn.before, turn.available, .tierBudget⟩
  else ⟨turn.hit, turn.row, turn.before, turn.remaining budget, .totalBudget⟩

def Turn.placed (count : String → Nat) (budget : Nat) (turn : Turn F) : Placement × Nat :=
  (turn.offer budget).place count

/-- The turns of one tier. -/
def passTurns (count : String → Nat) (budget : Nat) (rows : List (CanonicalRow F)) (tier : Tier) :
    List (RecallHit F) → Totals × Nat → List (Turn F)
  | [], _ => []
  | hit :: hits, s =>
    (tierTurn rows tier hit s).toList ++
      passTurns count budget rows tier hits (tierStep count budget rows tier hit s).2

def tierTurns (count : String → Nat) (budget : Nat) (rows : List (CanonicalRow F))
    (shares : TierTokens) : List Tier → Nat → List (RecallHit F) → Totals → List (Turn F)
  | [], _, _, _ => []
  | tier :: tiers, carry, hits, t =>
    let available := saturatingAdd (shares.get tier) carry
    let (hits', t', left) := passHits (tierStep count budget rows tier) hits (t, available)
    passTurns count budget rows tier hits (t, available) ++
      tierTurns count budget rows shares tiers left hits' t'

/-- Every turn of a pack, in order. -/
def packTurns [F64 F] (count : String → Nat) (split : BudgetSplit F) (budget : Nat)
    (hits : List (RecallHit F)) (rows : List (CanonicalRow F)) : List (Turn F) :=
  let sorted := sortHits (injectionOrder rows) hits
  let (pinned, t) := passHits (pinnedStep count budget rows) sorted {}
  tierTurns count budget rows (alloc split budget) TIER_ORDER 0 pinned t

section

variable {count : String → Nat} {budget : Nat} {rows : List (CanonicalRow F)} {tier : Tier}

/-- The offers of pass 2 are those made in its turns. -/
private theorem tierOffer_eq (hit : RecallHit F) (s : Totals × Nat) :
    tierOffer budget rows tier hit s = (tierTurn rows tier hit s).map (Turn.offer budget) := by
  unfold tierOffer tierTurn
  by_cases hp : hit.placement ≠ .unpacked
  · rw [if_pos hp, if_pos hp]
    rfl
  · rw [if_neg hp, if_neg hp]
    cases rowAt rows hit.rowid with
    | none => rfl
    | some row =>
      by_cases htier : row.tier ≠ tier
      · simp only [if_pos htier, Option.map_none]
      · simp only [if_neg htier, Option.map_some]
        by_cases hle : s.2 ≤ budget - s.1.tokensUsed
        · rw [if_pos hle]
          exact congrArg some (if_pos hle).symm
        · rw [if_neg hle]
          exact congrArg some (if_neg hle).symm

private theorem passOffers_eq (hits : List (RecallHit F)) (s : Totals × Nat) :
    passOffers (tierStep count budget rows tier) (tierOffer budget rows tier) hits s =
      (passTurns count budget rows tier hits s).map (Turn.offer budget) := by
  induction hits generalizing s with
  | nil => rfl
  | cons hit hits ih =>
    rw [passOffers, passTurns, List.map_append, ih, tierOffer_eq]
    cases tierTurn rows tier hit s <;> rfl

private theorem tierOffers_eq (shares : TierTokens) (tiers : List Tier) (carry : Nat)
    (hits : List (RecallHit F)) (t : Totals) :
    tierOffers count budget rows shares tiers carry hits t =
      (tierTurns count budget rows shares tiers carry hits t).map (Turn.offer budget) := by
  induction tiers generalizing carry hits t with
  | nil => rfl
  | cons tier tiers ih =>
    simp only [tierOffers, tierTurns, List.map_append, ih, passOffers_eq]

theorem Turn.offer_hit (budget : Nat) (turn : Turn F) : (turn.offer budget).hit = turn.hit := by
  unfold Turn.offer
  split <;> rfl

theorem Turn.offer_row (budget : Nat) (turn : Turn F) : (turn.offer budget).row = turn.row := by
  unfold Turn.offer
  split <;> rfl

theorem Turn.placed_le (count : String → Nat) (budget : Nat) (turn : Turn F) :
    (turn.placed count budget).2 ≤ turn.available := by
  refine (place_le count _ _ _).trans ?_
  unfold Turn.offer
  split
  · exact Nat.le_refl _
  · next hlt => exact (Nat.lt_of_not_le hlt).le

/-- What a turn is about. -/
structure Turn.Valid (rows : List (CanonicalRow F)) (turn : Turn F) : Prop where
  unpacked : turn.hit.placement = .unpacked
  row : rowAt rows turn.hit.rowid = some turn.row

variable (count budget rows tier) in
/-- A hit gets a turn, which takes from the tier what it places, or the tier keeps what it has. -/
private theorem tierStep_cases (hit : RecallHit F) (s : Totals × Nat) :
    (∃ turn, tierTurn rows tier hit s = some turn ∧ turn.hit = hit ∧ turn.available = s.2 ∧
      turn.Valid rows ∧ turn.row.tier = tier ∧
      (tierStep count budget rows tier hit s).2.2 = s.2 - (turn.placed count budget).2) ∨
    (tierTurn rows tier hit s = none ∧ (tierStep count budget rows tier hit s).2 = s) := by
  unfold tierTurn tierStep
  by_cases hp : hit.placement ≠ .unpacked
  · rw [if_pos hp, if_pos hp]
    exact .inr ⟨rfl, rfl⟩
  · rw [if_neg hp, if_neg hp]
    cases hrow : rowAt rows hit.rowid with
    | none => exact .inr ⟨rfl, rfl⟩
    | some row =>
      by_cases htier : row.tier ≠ tier
      · refine .inr ⟨if_pos htier, ?_⟩
        simp only [if_pos htier]
      · simp only [if_neg htier]
        refine .inl ⟨_, rfl, rfl, rfl, ⟨not_not.mp hp, hrow⟩, not_not.mp htier, ?_⟩
        unfold Turn.placed Turn.offer Turn.remaining Offer.place
        by_cases hle : s.2 ≤ budget - s.1.tokensUsed
        · simp only [if_pos hle]
        · simp only [if_neg hle]

/-! ## What a tier has left -/

/-- The tokens that some turns placed. -/
def spent (count : String → Nat) (budget : Nat) (turns : List (Turn F)) : Nat :=
  (turns.map fun turn => (turn.placed count budget).2).sum

private theorem spent_append (turns turns' : List (Turn F)) :
    spent count budget (turns ++ turns') = spent count budget turns + spent count budget turns' := by
  rw [spent, List.map_append, List.sum_append]
  rfl

private theorem spent_cons (turn : Turn F) (turns : List (Turn F)) :
    spent count budget (turn :: turns) =
      (turn.placed count budget).2 + spent count budget turns := by
  rw [spent, List.map_cons, List.sum_cons]
  rfl

variable (count budget rows tier) in
/-- The turns of a tier take from what it began with, and the rest is left. -/
private theorem passTurns_spent (hits : List (RecallHit F)) (s : Totals × Nat) :
    spent count budget (passTurns count budget rows tier hits s) +
      (passHits (tierStep count budget rows tier) hits s).2.2 = s.2 := by
  induction hits generalizing s with
  | nil => exact Nat.zero_add _
  | cons hit hits ih =>
    have hrest := ih (tierStep count budget rows tier hit s).2
    obtain ⟨turn, hturn, _, havailable, _, _, hleft⟩ | ⟨hnone, hsame⟩ :=
      tierStep_cases count budget rows tier hit s
    · have hle := turn.placed_le count budget
      simp only [passTurns, passHits, hturn, Option.toList_some, List.singleton_append, spent_cons]
      omega
    · simp only [passTurns, passHits, hnone, Option.toList_none, List.nil_append]
      rw [hsame] at hrest ⊢
      exact hrest

/-- At its turn a hit finds what the earlier turns of its tier have not taken. -/
private theorem passTurns_available (hits : List (RecallHit F)) (s : Totals × Nat)
    {pre post : List (Turn F)} {turn : Turn F}
    (h : passTurns count budget rows tier hits s = pre ++ turn :: post) :
    turn.available + spent count budget pre = s.2 := by
  induction hits generalizing s pre with
  | nil => simp [passTurns] at h
  | cons hit hits ih =>
    obtain ⟨first, hfirst, _, havailable, _, _, hleft⟩ | ⟨hnone, hsame⟩ :=
      tierStep_cases count budget rows tier hit s
    · have hle := first.placed_le count budget
      simp only [passTurns, hfirst, Option.toList_some, List.singleton_append] at h
      cases pre with
      | nil =>
        obtain ⟨rfl, _⟩ := List.cons.inj h
        exact havailable
      | cons head pre =>
        obtain ⟨rfl, hpre⟩ := List.cons.inj h
        have hrest := ih _ hpre
        rw [spent_cons]
        omega
    · simp only [passTurns, hnone, Option.toList_none, List.nil_append, hsame] at h
      exact ih s h

private theorem mem_passTurns {hits : List (RecallHit F)} {s : Totals × Nat} {turn : Turn F}
    (h : turn ∈ passTurns count budget rows tier hits s) :
    turn.Valid rows ∧ turn.row.tier = tier := by
  induction hits generalizing s with
  | nil => cases h
  | cons hit hits ih =>
    rcases List.mem_append.mp h with h | h
    · have h := Option.mem_toList.mp h
      obtain ⟨first, hfirst, _, _, hvalid, htier, _⟩ | ⟨hnone, _⟩ :=
        tierStep_cases count budget rows tier hit s
      · obtain rfl := Option.some.inj (hfirst.symm.trans h)
        exact ⟨hvalid, htier⟩
      · rw [hnone] at h
        cases h
    · exact ih h

private theorem mem_tierTurns {shares : TierTokens} {tiers : List Tier} {carry : Nat}
    {hits : List (RecallHit F)} {t : Totals} {turn : Turn F}
    (h : turn ∈ tierTurns count budget rows shares tiers carry hits t) :
    turn.Valid rows ∧ turn.row.tier ∈ tiers := by
  induction tiers generalizing carry hits t with
  | nil => cases h
  | cons tier tiers ih =>
    rcases List.mem_append.mp h with h | h
    · obtain ⟨hvalid, htier⟩ := mem_passTurns h
      exact ⟨hvalid, htier ▸ List.mem_cons_self⟩
    · exact (ih h).imp_right (List.mem_cons_of_mem _)

/-! ## What the first tiers take -/

/-- The turns of the tiers of a list. -/
def turnsOf (tiers : List Tier) (turns : List (Turn F)) : List (Turn F) :=
  turns.filter fun turn => turn.row.tier ∈ tiers

private theorem turnsOf_cons (tiers : List Tier) (turn : Turn F) (turns : List (Turn F)) :
    turnsOf tiers (turn :: turns) =
      if turn.row.tier ∈ tiers then turn :: turnsOf tiers turns else turnsOf tiers turns := by
  unfold turnsOf
  rw [List.filter_cons]
  simp only [decide_eq_true_eq]

def allotted (shares : TierTokens) (tiers : List Tier) : Nat := (tiers.map shares.get).sum

variable (count budget rows) in
/-- What the first tiers take is within what they were allotted and what had rolled down to them. -/
private theorem tierTurns_spent (shares : TierTokens) {tiers first : List Tier} (hnodup : tiers.Nodup)
    (hfirst : first <+: tiers) (carry : Nat) (hits : List (RecallHit F)) (t : Totals) :
    spent count budget
      (turnsOf first (tierTurns count budget rows shares tiers carry hits t)) ≤
      carry + allotted shares first := by
  induction tiers generalizing first carry hits t with
  | nil => exact Nat.zero_le _
  | cons tier tiers ih =>
    obtain ⟨hnotin, hnodup⟩ := List.nodup_cons.mp hnodup
    rcases List.prefix_cons_iff.mp hfirst with rfl | ⟨first, rfl, hrest⟩
    · have hnone : turnsOf [] (tierTurns count budget rows shares (tier :: tiers) carry hits t) =
          [] := List.filter_eq_nil_iff.mpr fun turn _ => by simp
      rw [hnone]
      exact Nat.zero_le _
    · have hallotted : allotted shares (tier :: first) = shares.get tier + allotted shares first :=
        List.sum_cons
      have hsat : saturatingAdd (shares.get tier) carry ≤ shares.get tier + carry :=
        Nat.min_le_left _ _
      have hpass := passTurns_spent count budget rows tier hits
        (t, saturatingAdd (shares.get tier) carry)
      have hhere : turnsOf (tier :: first) (passTurns count budget rows tier hits
          (t, saturatingAdd (shares.get tier) carry)) = passTurns count budget rows tier hits
          (t, saturatingAdd (shares.get tier) carry) :=
        List.filter_eq_self.mpr fun turn hturn => by simp [(mem_passTurns hturn).2]
      have hlater : ∀ carry hits t,
          turnsOf (tier :: first) (tierTurns count budget rows shares tiers carry hits t) =
            turnsOf first (tierTurns count budget rows shares tiers carry hits t) := by
        intro carry hits t
        refine List.filter_congr fun turn hturn => ?_
        have hne : turn.row.tier ≠ tier := fun heq => hnotin (heq ▸ (mem_tierTurns hturn).2)
        simp [hne]
      rw [tierTurns]
      generalize passHits (tierStep count budget rows tier) hits
        (t, saturatingAdd (shares.get tier) carry) = passed at hpass
      obtain ⟨hits', t', left⟩ := passed
      have hspent := ih hnodup hrest left hits' t'
      rw [turnsOf, List.filter_append, ← turnsOf, ← turnsOf, spent_append, hhere, hlater, hallotted]
      dsimp only at hpass
      omega

/-- An element of a concatenation lies in its second part or in its first. -/
private theorem split_append_cons {α : Type} {l l' pre post : List α} {a : α}
    (h : l ++ l' = pre ++ a :: post) :
    (∃ mid, pre = l ++ mid ∧ l' = mid ++ a :: post) ∨ ∃ rest, l = pre ++ a :: rest := by
  rcases List.append_eq_append_iff.mp h with hlater | ⟨rest, hl, hrest⟩
  · exact .inl hlater
  · cases rest with
    | nil => exact .inl ⟨[], by simpa using hl.symm, hrest.symm⟩
    | cons b rest =>
      obtain ⟨rfl, _⟩ := List.cons.inj hrest
      exact .inr ⟨rest, hl⟩

private theorem saturatingAdd_eq {a b : Nat} (h : a + b < 2 ^ 64) : saturatingAdd a b = a + b := by
  unfold saturatingAdd
  omega

/-- At its turn a hit finds at most what was allotted so far and has not been taken, and exactly that
where the sum of the shares fits. -/
private theorem tierTurns_available {shares : TierTokens} {tiers : List Tier} {carry : Nat}
    {hits : List (RecallHit F)} {t : Totals} {pre post : List (Turn F)} {turn : Turn F}
    (h : tierTurns count budget rows shares tiers carry hits t = pre ++ turn :: post) :
    ∃ first, first ++ [turn.row.tier] <+: tiers ∧
      turn.available + spent count budget pre ≤
        carry + allotted shares (first ++ [turn.row.tier]) ∧
      (carry + allotted shares (first ++ [turn.row.tier]) < 2 ^ 64 →
        turn.available + spent count budget pre =
          carry + allotted shares (first ++ [turn.row.tier])) := by
  induction tiers generalizing carry hits t pre with
  | nil => simp [tierTurns] at h
  | cons tier tiers ih =>
    have hsat : saturatingAdd (shares.get tier) carry ≤ shares.get tier + carry :=
      Nat.min_le_left _ _
    have hexact := saturatingAdd_eq (a := shares.get tier) (b := carry)
    have hpass := passTurns_spent count budget rows tier hits
      (t, saturatingAdd (shares.get tier) carry)
    rw [tierTurns] at h
    generalize passHits (tierStep count budget rows tier) hits
      (t, saturatingAdd (shares.get tier) carry) = passed at h hpass
    obtain ⟨hits', t', left⟩ := passed
    dsimp only at h hpass
    rcases split_append_cons h with ⟨pre', rfl, hlater⟩ | ⟨post', hhere⟩
    · obtain ⟨first, hfirst, hle, heq⟩ := ih hlater
      have hallotted : allotted shares (tier :: first ++ [turn.row.tier]) =
          shares.get tier + allotted shares (first ++ [turn.row.tier]) := List.sum_cons
      refine ⟨tier :: first, (List.prefix_cons_inj tier).mpr hfirst, ?_, fun hfits => ?_⟩
      · rw [spent_append, hallotted]
        omega
      · rw [hallotted] at hfits ⊢
        rw [spent_append]
        have hsum := hexact (by omega)
        have hrest := heq (by omega)
        omega
    · have hmem : turn ∈ passTurns count budget rows tier hits
          (t, saturatingAdd (shares.get tier) carry) := by simp [hhere]
      have htier : turn.row.tier = tier := (mem_passTurns hmem).2
      have havailable := passTurns_available _ _ hhere
      have hallotted : allotted shares ([] ++ [turn.row.tier]) = shares.get tier := by
        simp [allotted, htier]
      refine ⟨[], ?_, ?_, fun hfits => ?_⟩
      · rw [htier]
        exact ⟨tiers, rfl⟩
      · rw [hallotted]
        dsimp only at havailable
        omega
      · rw [hallotted] at hfits ⊢
        have hsum := hexact (by omega)
        dsimp only at havailable
        omega

/-! ## What the hits carry -/

/-- The tokens of a hit whose row is of a kind. -/
def creditBy (p : CanonicalRow F → Bool) (rows : List (CanonicalRow F)) (h : RecallHit F) : Nat :=
  if (rowAt rows h.rowid).any p then h.tokens else 0

/-- The tokens that an offer gives a row of a kind. -/
def Offer.creditBy (p : CanonicalRow F → Bool) (count : String → Nat) (o : Offer F) : Nat :=
  if p o.row then (o.place count).2 else 0

/-- Hits that nothing has placed carry nothing. -/
def Fresh (hits : List (RecallHit F)) : Prop := ∀ h ∈ hits, h.placement = .unpacked → h.tokens = 0

section

variable {σ : Type} {step : RecallHit F → σ → RecallHit F × σ}
  {offer : RecallHit F → σ → Option (Offer F)} {totals : σ → Totals}

private theorem passHits_fresh (h : AnswersAll count budget rows step offer totals)
    {hits : List (RecallHit F)} (hfresh : Fresh hits) (s : σ) :
    Fresh (passHits step hits s).1 := by
  intro x hx hunpacked
  rcases mem_passHits_cases h hx with hmem | ⟨o, _, rfl⟩ | ⟨_, hdropped⟩
  · exact hfresh x hmem hunpacked
  · exact absurd hunpacked (place_ne_unpacked count o.row o.cap o.reason)
  · rw [hdropped] at hunpacked
    cases hunpacked

/-- A loop adds to a kind of rows what its offers give them. -/
private theorem passHits_credit (h : AnswersAll count budget rows step offer totals)
    (p : CanonicalRow F → Bool) {hits : List (RecallHit F)} (s : σ)
    (hfree : ∀ hit ∈ hits, ∀ s, (offer hit s).isSome → hit.tokens = 0) :
    ((passHits step hits s).1.map (creditBy p rows)).sum =
      (hits.map (creditBy p rows)).sum +
        ((passOffers step offer hits s).map (Offer.creditBy p count)).sum := by
  induction hits generalizing s with
  | nil => rfl
  | cons hit hits ih =>
    have hrest := ih (step hit s).2 fun x hx => hfree x (List.mem_cons_of_mem _ hx)
    simp only [passHits, passOffers, List.map_cons, List.map_append, List.sum_cons,
      List.sum_append, hrest]
    obtain ⟨o, ho, rfl, _, hrow, _, hstep, _⟩ | ⟨hno, hstep, _⟩ | ⟨hno, hrow, hstep, _⟩ :=
      h.cases hit s
    · have hbefore : creditBy p rows o.hit = 0 := by
        rw [creditBy, hfree _ List.mem_cons_self s (ho ▸ rfl), ite_self]
      have hafter : creditBy p rows (o.answer count).1 = o.creditBy p count := by
        show (if (rowAt rows o.hit.rowid).any p then (o.place count).2 else 0) = _
        rw [hrow]
        rfl
      rw [ho, hstep, hbefore, hafter]
      simp only [Option.toList_some, List.map_cons, List.map_nil, List.sum_cons, List.sum_nil]
      omega
    · rw [hno, hstep]
      simp only [Option.toList_none, List.map_nil, List.sum_nil]
      omega
    · have hbefore : creditBy p rows hit = 0 := by
        rw [creditBy, hrow]
        rfl
      have hafter : creditBy p rows { hit with placement := .dropped .unresolved } = 0 := by
        show (if (rowAt rows hit.rowid).any p then hit.tokens else 0) = 0
        rw [hrow]
        rfl
      rw [hno, hstep, hbefore, hafter]
      simp only [Option.toList_none, List.map_nil, List.sum_nil]
      omega

/-- What nothing has placed. -/
def unpackedHits (hits : List (RecallHit F)) : List (RecallHit F) :=
  hits.filter fun h => h.placement = .unpacked

private theorem unpackedHits_cons (h : RecallHit F) (hits : List (RecallHit F)) :
    unpackedHits (h :: hits) =
      if h.placement = .unpacked then h :: unpackedHits hits else unpackedHits hits := by
  unfold unpackedHits
  rw [List.filter_cons]
  simp only [decide_eq_true_eq]

/-- What a loop leaves unpacked it leaves as it was. -/
private theorem unpackedHits_sublist (h : AnswersAll count budget rows step offer totals)
    (hits : List (RecallHit F)) (s : σ) :
    (unpackedHits (passHits step hits s).1).Sublist (unpackedHits hits) := by
  induction hits generalizing s with
  | nil => exact .slnil
  | cons hit hits ih =>
    have hrest := ih (step hit s).2
    have hskip := hrest.trans (show (unpackedHits hits).Sublist (unpackedHits (hit :: hits)) from
      (List.sublist_cons_self _ _).filter _)
    simp only [passHits]
    obtain ⟨o, _, _, _, _, _, hstep, _⟩ | ⟨_, hstep, _⟩ | ⟨_, _, hstep, _⟩ := h.cases hit s
    · have hplaced : (o.answer count).1.placement ≠ .unpacked :=
        place_ne_unpacked count o.row o.cap o.reason
      rw [hstep, unpackedHits_cons (o.answer count).1, if_neg hplaced]
      exact hskip
    · rw [hstep, unpackedHits_cons, unpackedHits_cons]
      split
      · exact hrest.cons_cons _
      · exact hrest
    · rw [hstep, unpackedHits_cons { hit with placement := .dropped .unresolved },
        if_neg (fun hp => by cases hp)]
      exact hskip

end

variable (count budget rows tier) in
private theorem tierStep_answersAll :
    AnswersAll count budget rows (tierStep count budget rows tier) (tierOffer budget rows tier)
      Prod.fst := tierStep_answers tier

variable (count budget rows) in
private theorem packTiers_credit (p : CanonicalRow F → Bool) (shares : TierTokens) (tiers : List Tier)
    (carry : Nat) {hits : List (RecallHit F)} (hfresh : Fresh hits) (t : Totals) :
    ((packTiers count budget rows shares tiers carry hits t).1.map (creditBy p rows)).sum =
      (hits.map (creditBy p rows)).sum +
        ((tierOffers count budget rows shares tiers carry hits t).map
          (Offer.creditBy p count)).sum := by
  induction tiers generalizing carry hits t with
  | nil => rfl
  | cons tier tiers ih =>
    have hpass := passHits_credit (tierStep_answersAll count budget rows tier) p
      (t, saturatingAdd (shares.get tier) carry)
      fun hit hmem _ hoffer => hfresh hit hmem (tierOffer_unpacked hoffer)
    have hnext := passHits_fresh (tierStep_answersAll count budget rows tier) hfresh
      (t, saturatingAdd (shares.get tier) carry)
    simp only [packTiers, tierOffers, List.map_append, List.sum_append]
    rw [ih _ hnext, hpass, Nat.add_assoc]

/-! ## The order of the turns -/

private theorem passTurns_sublist (hits : List (RecallHit F)) (s : Totals × Nat) :
    ((passTurns count budget rows tier hits s).map Turn.hit).Sublist (unpackedHits hits) := by
  induction hits generalizing s with
  | nil => exact .slnil
  | cons hit hits ih =>
    have hrest := ih (tierStep count budget rows tier hit s).2
    rw [passTurns, unpackedHits_cons]
    obtain ⟨turn, hturn, rfl, _, hvalid, _, _⟩ | ⟨hnone, _⟩ :=
      tierStep_cases count budget rows tier hit s
    · rw [hturn, if_pos hvalid.unpacked]
      exact hrest.cons_cons _
    · rw [hnone]
      split
      · exact hrest.cons _
      · exact hrest

/-- The turns of one tier follow the order of the hits. -/
private theorem tierTurns_sublist (shares : TierTokens) {tiers : List Tier} (hnodup : tiers.Nodup)
    (carry : Nat) (hits : List (RecallHit F)) (t : Totals) :
    ((turnsOf [tier] (tierTurns count budget rows shares tiers carry hits t)).map
      Turn.hit).Sublist (unpackedHits hits) := by
  induction tiers generalizing carry hits t with
  | nil => exact List.nil_sublist _
  | cons first tiers ih =>
    obtain ⟨hnotin, hnodup⟩ := List.nodup_cons.mp hnodup
    rw [tierTurns, turnsOf, List.filter_append, ← turnsOf, ← turnsOf]
    by_cases htier : first = tier
    · subst htier
      have hlater : ∀ carry hits t,
          turnsOf [first] (tierTurns count budget rows shares tiers carry hits t) = [] := by
        intro carry hits t
        refine List.filter_eq_nil_iff.mpr fun turn hturn => ?_
        have hne : turn.row.tier ≠ first := fun heq => hnotin (heq ▸ (mem_tierTurns hturn).2)
        simp [hne]
      rw [hlater, List.append_nil]
      exact (List.filter_sublist.map _).trans (passTurns_sublist hits _)
    · have hhere : turnsOf [tier] (passTurns count budget rows first hits
          (t, saturatingAdd (shares.get first) carry)) = [] := by
        refine List.filter_eq_nil_iff.mpr fun turn hturn => ?_
        have hne : turn.row.tier ≠ tier := fun heq => htier ((mem_passTurns hturn).2 ▸ heq)
        simp [hne]
      rw [hhere, List.nil_append]
      exact (ih hnodup _ _ _).trans
        (unpackedHits_sublist (tierStep_answersAll count budget rows first) hits _)

end

/-! ## Scores that compare -/

/-- `!x.is_nan()` -/
def Number [F64 F] (x : F) : Prop := F64.le x x = true

section

variable [F64 F] [F64.Ordered F]

/-- Numbers compare by the order, the larger first. -/
instance : Std.TransCmp fun a b : { x : F // Number x } =>
    (F64.partialCmp b.val a.val).getD .eq where
  eq_swap {a b} := by
    unfold F64.partialCmp
    by_cases hab : F64.lt a.val b.val = true
    · simp [hab, F64.lt_asymm hab]
    · by_cases hba : F64.lt b.val a.val = true
      · simp [hab, hba]
      · by_cases h₁ : F64.le a.val b.val = true <;> by_cases h₂ : F64.le b.val a.val = true <;>
          simp [hab, hba, h₁, h₂]
  isLE_trans {a b c} hab hbc := by
    have hisLE : ∀ x y : { x : F // Number x },
        ((F64.partialCmp y.val x.val).getD .eq).isLE = true ↔ F64.le y.val x.val = true := by
      intro x y
      have hlt := F64.Ordered.lt_iff y.val x.val
      have hgt := F64.Ordered.lt_iff x.val y.val
      have htotal := F64.Ordered.le_total x.val y.val x.property y.property
      unfold F64.partialCmp
      cases h₁ : F64.le x.val y.val <;> cases h₂ : F64.le y.val x.val <;>
        cases h₃ : F64.lt y.val x.val <;> cases h₄ : F64.lt x.val y.val <;> simp_all
    rw [hisLE] at *
    exact F64.Ordered.le_trans _ _ _ hbc hab

end

/-- The larger score first, then the smaller public id. -/
def ScoreOrder [F64 F] (a b : RecallHit F) : Prop :=
  F64.lt b.score a.score = true ∨ F64.lt a.score b.score = false ∧ a.publicId ≤ b.publicId

private theorem before_score [F64 F] {a b : RecallHit F} :
    Ranking.before (byKeyDesc RecallHit.score) a b ↔ ScoreOrder a b := by
  unfold Ranking.before byKeyDesc ScoreOrder F64.partialCmp
  by_cases hba : F64.lt b.score a.score = true
  · simp [hba]
  · by_cases hab : F64.lt a.score b.score = true
    · simp [hab, hba]
    · have hpid : compare a.publicId b.publicId ≠ .gt ↔ a.publicId ≤ b.publicId := by
        rw [Ne, compare_gt_iff_gt, not_lt]
      by_cases hle : F64.le b.score a.score = true <;> simp [hab, hba, hle, hpid]

/-- The order of injection: pinned hits first. -/
def InjectionOrder [F64 F] (rows : List (CanonicalRow F)) (a b : RecallHit F) : Prop :=
  (isPinned rows b = true → isPinned rows a = true) ∧
    (isPinned rows a = isPinned rows b → ScoreOrder a b)

private theorem before_injectionOrder [F64 F] {rows : List (CanonicalRow F)} {a b : RecallHit F}
    (h : Ranking.before (injectionOrder rows) a b) : InjectionOrder rows a b := by
  unfold Ranking.before injectionOrder at h
  rw [Ne, Ordering.then_eq_gt, not_or, not_and] at h
  obtain ⟨hpinned, hscore⟩ := h
  constructor
  · intro hb
    cases ha : isPinned rows a with
    | true => rfl
    | false =>
      rw [ha, hb] at hpinned
      exact absurd rfl hpinned
  · intro heq
    rw [heq] at hscore
    exact before_score.mp (hscore (by simp))

instance [F64 F] [F64.Ordered F] (rows : List (CanonicalRow F)) :
    Std.TransCmp fun a b : { h : RecallHit F // Number h.score } =>
      injectionOrder rows a.val b.val := by
  have hscore : Std.TransCmp fun a b : { h : RecallHit F // Number h.score } =>
      (F64.partialCmp b.val.score a.val.score).getD .eq :=
    Ranking.transCmp_comap (fun a b : { x : F // Number x } =>
      (F64.partialCmp b.val a.val).getD .eq)
      fun h : { h : RecallHit F // Number h.score } => ⟨h.val.score, h.property⟩
  have hpid : Std.TransCmp fun a b : { h : RecallHit F // Number h.score } =>
      compare a.val.publicId b.val.publicId :=
    Ranking.transCmp_comap compare
      fun h : { h : RecallHit F // Number h.score } => h.val.publicId
  have hpinned : Std.TransCmp fun a b : { h : RecallHit F // Number h.score } =>
      compare (isPinned rows b.val) (isPinned rows a.val) :=
    Ranking.transCmp_opposite
      (compareOn fun h : { h : RecallHit F // Number h.score } => isPinned rows h.val)
  have hkey : Std.TransCmp (compareLex (fun a b : { h : RecallHit F // Number h.score } =>
      (F64.partialCmp b.val.score a.val.score).getD .eq)
      fun a b => compare a.val.publicId b.val.publicId) := inferInstance
  have hlex := (inferInstance : Std.TransCmp (compareLex
    (fun a b : { h : RecallHit F // Number h.score } =>
      compare (isPinned rows b.val) (isPinned rows a.val)) (compareLex
        (fun a b : { h : RecallHit F // Number h.score } =>
          (F64.partialCmp b.val.score a.val.score).getD .eq)
        fun a b => compare a.val.publicId b.val.publicId)))
  exact hlex

/-! ## The outcome -/

/-- Neither the full text nor a usable summary is within the cap. -/
def TooDear (count : String → Nat) (row : CanonicalRow F) (cap : Nat) : Prop :=
  cap < count row.text ∧ ∀ cost, summaryCost count row = some cost → cap < cost

private theorem place_tooDear {count : String → Nat} {row : CanonicalRow F} {cap : Nat}
    {reason reason' : DropReason} (h : (place count row cap reason).1 = .dropped reason') :
    reason' = reason ∧ TooDear count row cap := by
  unfold place at h
  by_cases hfull : count row.text ≤ cap
  · rw [if_pos hfull] at h
    cases h
  · rw [if_neg hfull] at h
    cases hcost : summaryCost count row with
    | none =>
      rw [hcost] at h
      cases h
      exact ⟨rfl, Nat.lt_of_not_le hfull, fun cost hsome => by rw [hcost] at hsome; cases hsome⟩
    | some summary =>
      rw [hcost] at h
      by_cases hfits : summary ≤ cap
      · simp only [if_pos hfits] at h
        cases h
      · simp only [if_neg hfits] at h
        cases h
        refine ⟨rfl, Nat.lt_of_not_le hfull, fun cost hsome => ?_⟩
        obtain rfl := Option.some.inj (hcost.symm.trans hsome)
        exact Nat.lt_of_not_le hfits

/-- The turn of a hit, and why it was dropped where it was. -/
structure Turn.Served (count : String → Nat) (budget : Nat) (turn : Turn F) (h : RecallHit F)
    (row : CanonicalRow F) : Prop where
  hit : turn.hit.rowid = h.rowid
  row_eq : turn.row = row
  placement : h.placement = (turn.placed count budget).1
  tokens : h.tokens = (turn.placed count budget).2
  tierBudget : h.placement = .dropped .tierBudget → TooDear count row turn.available
  totalBudget : h.placement = .dropped .totalBudget →
    TooDear count row (turn.remaining budget) ∧ turn.remaining budget < turn.available

theorem Turn.served (count : String → Nat) (budget : Nat) (turn : Turn F) :
    turn.Served count budget ((turn.offer budget).answer count).1 turn.row := by
  have hrowid : turn.hit.rowid = (turn.offer budget).hit.rowid := by rw [turn.offer_hit]
  refine ⟨hrowid, rfl, rfl, rfl, fun h => ?_, fun h => ?_⟩
  · change (place count _ _ _).1 = _ at h
    obtain ⟨hreason, hdear⟩ := place_tooDear h
    rw [turn.offer_row] at hdear
    unfold Turn.offer at hreason hdear
    split at hreason
    · next hle =>
      rw [if_pos hle] at hdear
      exact hdear
    · cases hreason
  · change (place count _ _ _).1 = _ at h
    obtain ⟨hreason, hdear⟩ := place_tooDear h
    rw [turn.offer_row] at hdear
    unfold Turn.offer at hreason hdear
    split at hreason
    · cases hreason
    · next hlt =>
      rw [if_neg hlt] at hdear
      exact ⟨hdear, Nat.lt_of_not_le hlt⟩

/-- A row that takes from the shares of some tiers. -/
def takesFrom (tiers : List Tier) (row : CanonicalRow F) : Bool := !row.pinned && row.tier ∈ tiers

/-- How a pack shares its budget out among the tiers. -/
structure TiersShared [F64 F] (count : String → Nat) (split : BudgetSplit F) (budget : Nat)
    (hits : List (RecallHit F)) (rows : List (CanonicalRow F)) (o : PackOutcome F) : Prop where
  /-- The first tiers place no more than they were allotted. -/
  first_tiers : ∀ first, first <+: TIER_ORDER →
    (o.hits.map (creditBy (takesFrom first) rows)).sum ≤ allotted (alloc split budget) first
  /-- The pinned hits are offered their caps before the first turn. -/
  pinned_first : ∃ pinned, packOffers count split budget hits rows =
      pinned ++ (packTurns count split budget hits rows).map (Turn.offer budget) ∧
    (∀ offer ∈ pinned, offer.row.pinned = true) ∧
    ∀ turn ∈ packTurns count split budget hits rows, turn.row.pinned = false
  /-- Within a tier the turns go by score and public id. -/
  ordered : ∀ tier,
    ((turnsOf [tier] (packTurns count split budget hits rows)).map Turn.hit).Pairwise ScoreOrder
  listed : o.hits.Pairwise (InjectionOrder rows)
  /-- A tier has what its share and the earlier ones leave. -/
  available : ∀ pre turn post, packTurns count split budget hits rows = pre ++ turn :: post →
    ∃ first, first ++ [turn.row.tier] <+: TIER_ORDER ∧
      turn.available + spent count budget pre ≤
        allotted (alloc split budget) (first ++ [turn.row.tier]) ∧
      (allotted (alloc split budget) (first ++ [turn.row.tier]) < 2 ^ 64 →
        turn.available + spent count budget pre =
          allotted (alloc split budget) (first ++ [turn.row.tier]))
  /-- A hit that is not pinned had one turn, which says why it was dropped. -/
  once : ((packTurns count split budget hits rows).map fun turn => turn.hit.rowid).Nodup
  served : ∀ h ∈ o.hits, ∀ row, rowAt rows h.rowid = some row → row.pinned = false →
    ∃ turn ∈ packTurns count split budget hits rows, turn.Served count budget h row

section

variable {count : String → Nat} {split : BudgetSplit F} {budget : Nat}
  {hits : List (RecallHit F)} {rows : List (CanonicalRow F)}

variable (count budget rows) in
private theorem pinnedStep_answersAll :
    AnswersAll count budget rows (pinnedStep count budget rows) (pinnedOffer budget rows) id :=
  pinnedStep_answers

/-- Pass 1 leaves no pinned hit unpacked. -/
private theorem pinned_unpacked {sorted : List (RecallHit F)} {t : Totals} {h : RecallHit F}
    (hm : h ∈ unpackedHits (passHits (pinnedStep count budget rows) sorted t).1) :
    isPinned rows h = false := by
  obtain ⟨hmem, hunpacked⟩ := List.mem_filter.mp hm
  have hunpacked := of_decide_eq_true hunpacked
  obtain ⟨hit, _, t, rfl⟩ := mem_passHits hmem
  unfold pinnedStep at hunpacked ⊢
  cases hrow : rowAt rows hit.rowid with
  | none =>
    rw [hrow] at hunpacked
    cases hunpacked
  | some row =>
    rw [hrow] at hunpacked
    dsimp only at hunpacked ⊢
    by_cases hpinned : row.pinned = true
    · rw [if_pos hpinned] at hunpacked
      exact absurd hunpacked (place_ne_unpacked count row _ _)
    · rw [if_neg hpinned, isPinned, hrow]
      simpa using hpinned

variable [F64 F]

variable (count split budget hits rows) in
/-- The turns of a tier are met in the order of injection, and none of them is pinned. -/
private theorem packTurns_sublist (tier : Tier) :
    ((turnsOf [tier] (packTurns count split budget hits rows)).map Turn.hit).Sublist
      (unpackedHits (passHits (pinnedStep count budget rows)
        (sortHits (injectionOrder rows) hits) {}).1) :=
  tierTurns_sublist _ (by decide) _ _ _

private theorem packTurns_unpinned {turn : Turn F}
    (h : turn ∈ packTurns count split budget hits rows) :
    turn.row.pinned = false := by
  have hmem : turn.hit ∈ (turnsOf [turn.row.tier] (packTurns count split budget hits rows)).map
      Turn.hit := List.mem_map_of_mem (List.mem_filter.mpr ⟨h, by simp⟩)
  have hpinned := pinned_unpacked ((packTurns_sublist count split budget hits rows _).subset hmem)
  rw [isPinned, (mem_tierTurns h).1.row] at hpinned
  exact hpinned

omit [F64 F] in
private theorem pinnedOffers_pinned {sorted : List (RecallHit F)} {t : Totals} {o : Offer F}
    (ho : o ∈ passOffers (pinnedStep count budget rows) (pinnedOffer budget rows) sorted t) :
    o.row.pinned = true := by
  obtain ⟨_, t', hoffer, _⟩ := mem_passOffers (pinnedStep_answersAll count budget rows) ho
  unfold pinnedOffer at hoffer
  split at hoffer
  · cases hoffer
  · split at hoffer
    · next hpinned =>
      rw [← Option.some.inj hoffer]
      exact hpinned
    · cases hoffer

variable (count budget) in
omit [F64 F] in
private theorem turns_credit {first : List Tier} {turns : List (Turn F)}
    (hunpinned : ∀ turn ∈ turns, turn.row.pinned = false) :
    ((turns.map (Turn.offer budget)).map (Offer.creditBy (takesFrom first) count)).sum =
      spent count budget (turnsOf first turns) := by
  induction turns with
  | nil => rfl
  | cons turn turns ih =>
    have hrest := ih fun x hx => hunpinned x (List.mem_cons_of_mem _ hx)
    have hturn := hunpinned turn List.mem_cons_self
    simp only [List.map_cons, List.sum_cons, hrest]
    by_cases htier : turn.row.tier ∈ first
    · have hcredit : (turn.offer budget).creditBy (takesFrom first) count =
          (turn.placed count budget).2 := by
        rw [Offer.creditBy, turn.offer_row, takesFrom, hturn, decide_eq_true htier]
        rfl
      rw [turnsOf_cons, if_pos htier, spent_cons, hcredit]
    · have hcredit : (turn.offer budget).creditBy (takesFrom first) count = 0 := by
        rw [Offer.creditBy, turn.offer_row, takesFrom, hturn, decide_eq_false htier]
        rfl
      rw [turnsOf_cons, if_neg htier, hcredit, Nat.zero_add]

/-- What the rows that are not pinned take is what their turns place. -/
private theorem pack_credit (hunpacked : ∀ h ∈ hits, h.placement = .unpacked ∧ h.tokens = 0)
    (first : List Tier) :
    ((pack count split budget hits rows).hits.map (creditBy (takesFrom first) rows)).sum =
      spent count budget (turnsOf first (packTurns count split budget hits rows)) := by
  obtain ⟨-, hsorted⟩ := sorted_packed count budget rows hunpacked
  have hfresh : Fresh (sortHits (injectionOrder rows) hits) := fun h hm _ => (hsorted h hm).2
  have hzero : ((sortHits (injectionOrder rows) hits).map (creditBy (takesFrom first) rows)).sum =
      0 := by
    refine List.sum_eq_zero fun n hn => ?_
    obtain ⟨h, hm, rfl⟩ := List.mem_map.mp hn
    rw [creditBy, (hsorted h hm).2, ite_self]
  have hpinned : ((passOffers (pinnedStep count budget rows) (pinnedOffer budget rows)
      (sortHits (injectionOrder rows) hits) {}).map
        (Offer.creditBy (takesFrom first) count)).sum = 0 := by
    refine List.sum_eq_zero fun n hn => ?_
    obtain ⟨o, ho, rfl⟩ := List.mem_map.mp hn
    rw [Offer.creditBy, takesFrom, pinnedOffers_pinned ho]
    rfl
  have hpass := passHits_credit (pinnedStep_answersAll count budget rows) (takesFrom first) {}
    fun h hm _ _ => (hsorted h hm).2
  have hfirst := passHits_fresh (pinnedStep_answersAll count budget rows) hfresh {}
  have htiers := packTiers_credit count budget rows (takesFrom first) (alloc split budget)
    TIER_ORDER 0 hfirst
    (passHits (pinnedStep count budget rows) (sortHits (injectionOrder rows) hits) {}).2
  have hturns : (((packTurns count split budget hits rows).map (Turn.offer budget)).map
      (Offer.creditBy (takesFrom first) count)).sum =
        spent count budget (turnsOf first (packTurns count split budget hits rows)) :=
    turns_credit count budget fun turn => packTurns_unpinned
  rw [tierOffers_eq] at htiers
  have hall := htiers.trans (congrArg₂ (· + ·) hpass hturns)
  rw [hzero, hpinned, Nat.zero_add] at hall
  exact hall

omit [F64 F] in
/-- The order of injection does not depend on what a pack writes on a hit. -/
theorem InjectionOrder.of_unpack [F64 F] {a b : RecallHit F}
    (h : InjectionOrder rows a.unpack b.unpack) : InjectionOrder rows a b := h

/-- The minimum score keeps NaN out of the candidates of a recall. -/
theorem candidates_numbers [F64.Ordered F] {filter : HardFilter} {surviving : List String}
    {fused : List (RecallHit F)} {q : RecallQuery F} {h : RecallHit F}
    (hm : h ∈ candidates filter rows surviving fused q) : Number h.score :=
  (F64.Ordered.not_nan _ _ (List.mem_filter.mp hm).2).2

/-- For every counter, split, budget, candidates with numeric scores and rows the tiers share as they
should. -/
theorem pack_tiers_shared [F64.Ordered F] (count : String → Nat) (split : BudgetSplit F)
    (budget : Nat) (hits : List (RecallHit F)) (rows : List (CanonicalRow F))
    (hunpacked : ∀ h ∈ hits, h.placement = .unpacked ∧ h.tokens = 0)
    (hrowids : (hits.map RecallHit.rowid).Nodup) (hscores : ∀ h ∈ hits, Number h.score) :
    TiersShared count split budget hits rows (pack count split budget hits rows) := by
  have hsorted : (sortHits (injectionOrder rows) hits).Pairwise
      (Ranking.before (injectionOrder rows)) := Ranking.rank_pairwise_on hscores
  have hoffers : packOffers count split budget hits rows =
      passOffers (pinnedStep count budget rows) (pinnedOffer budget rows)
        (sortHits (injectionOrder rows) hits) {} ++
      (packTurns count split budget hits rows).map (Turn.offer budget) :=
    congrArg _ (tierOffers_eq _ _ _ _ _)
  constructor
  case first_tiers =>
    intro first hfirst
    have hspent := tierTurns_spent count budget rows (alloc split budget)
      (by decide : TIER_ORDER.Nodup) hfirst 0
      (passHits (pinnedStep count budget rows) (sortHits (injectionOrder rows) hits) {}).1
      (passHits (pinnedStep count budget rows) (sortHits (injectionOrder rows) hits) {}).2
    rw [Nat.zero_add] at hspent
    rw [pack_credit hunpacked]
    exact hspent
  case pinned_first =>
    exact ⟨_, hoffers, fun o ho => pinnedOffers_pinned ho, fun turn => packTurns_unpinned⟩
  case ordered =>
    intro tier
    have hsub := packTurns_sublist count split budget hits rows tier
    have hpairwise := (hsorted.sublist (hsub.trans
      ((unpackedHits_sublist (pinnedStep_answersAll count budget rows) _ {}).trans
        List.filter_sublist)))
    refine hpairwise.imp_of_mem fun {a b} ha hb hab => ?_
    have hpinned := fun h hm => pinned_unpacked (hsub.subset (a := h) hm)
    exact (before_injectionOrder hab).2 ((hpinned a ha).trans (hpinned b hb).symm)
  case listed =>
    rw [← @pack_unpack F _ count split budget hits rows hunpacked] at hsorted
    exact (List.pairwise_map.mp hsorted).imp fun hab => (before_injectionOrder hab).of_unpack
  case available =>
    intro pre turn post h
    have havailable := tierTurns_available h
    simp only [Nat.zero_add] at havailable
    exact havailable
  case once =>
    have hnodup := @packOffers_nodup F _ count split budget hits rows hunpacked hrowids
    rw [hoffers, List.map_append] at hnodup
    have hturns := (List.nodup_append.mp hnodup).2.1
    rw [List.map_map] at hturns
    have hrowid : ∀ turn : Turn F, (turn.offer budget).hit.rowid = turn.hit.rowid :=
      fun turn => by rw [turn.offer_hit]
    simpa only [Function.comp_def, hrowid] using hturns
  case served =>
    intro h hm row hrow hpinned
    rcases mem_pack_cases hunpacked hm with ⟨o, ho, rfl⟩ | ⟨hnone, _⟩
    · rw [hoffers] at ho
      rcases List.mem_append.mp ho with ho | ho
      · have hvalid := (mem_passOffers (pinnedStep_answersAll count budget rows) ho).1
        obtain rfl := Option.some.inj (hvalid.row.symm.trans hrow)
        rw [pinnedOffers_pinned ho] at hpinned
        cases hpinned
      · obtain ⟨turn, hturn, rfl⟩ := List.mem_map.mp ho
        have hrow' : rowAt rows turn.hit.rowid = some row := by
          rw [← hrow, ← turn.offer_hit budget]
          rfl
        obtain rfl := Option.some.inj ((mem_tierTurns hturn).1.row.symm.trans hrow')
        exact ⟨turn, hturn, turn.served count budget⟩
    · rw [hnone] at hrow
      cases hrow

end

/-- A semantic row of seven tokens that is not pinned. -/
def looseRow : CanonicalRow ℚ :=
  { pinnedRow with rowid := 2, publicId := "m2", tier := .semantic, pinned := false }

def looseHit : RecallHit ℚ := { pinnedHit with rowid := 2, publicId := "m2", tier := .semantic }

/-- The pinned row leaves two of nine tokens, so the other is dropped with four left of its share. -/
theorem pack_tiers_shared_sample :
    let o := pack String.length ⟨0, 0, 4 / 9, 5 / 9⟩ 9 [looseHit, pinnedHit] [pinnedRow, looseRow]
    o.hits.map RecallHit.placement = [.full, .dropped .totalBudget] ∧
      TiersShared String.length ⟨0, 0, 4 / 9, 5 / 9⟩ 9 [looseHit, pinnedHit] [pinnedRow, looseRow]
        o := by
  refine ⟨by decide +kernel, pack_tiers_shared _ _ _ _ _ ?_ (by decide) ?_⟩
  · intro h hm
    rcases List.mem_pair.mp hm with rfl | rfl <;> exact ⟨rfl, rfl⟩
  · intro h _
    exact decide_eq_true le_rfl

end AgosMemory.Recall
