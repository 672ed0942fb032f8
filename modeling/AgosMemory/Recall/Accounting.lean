import AgosMemory.Recall.Pack
import Mathlib.Data.List.Perm.Subperm

/-!
# Accounting of a pack

Every placement answers one offer: a hit that nothing has placed yet, the totals so far and the cap
that binds it. The offers of a pack are listed here beside its loops, and the outcome is read off
them: what each hit carries, what each tier and the whole add up to, and that no sum overflows.
-/

namespace AgosMemory.Recall

variable {F : Type}

/-- One call of `place`: the hit as it was met, its row, the totals before and the cap. -/
structure Offer (F : Type) where
  hit : RecallHit F
  row : CanonicalRow F
  before : Totals
  cap : Nat
  reason : DropReason

def Offer.place (count : String → Nat) (o : Offer F) : Placement × Nat :=
  Recall.place count o.row o.cap o.reason

/-- The hit and the totals that answer an offer. -/
def Offer.answer (count : String → Nat) (o : Offer F) : RecallHit F × Totals :=
  apply o.hit o.row.tier (o.place count) o.before

/-- The offer of pass 1: what is left of the ceiling. -/
def pinnedOffer (budget : Nat) (rows : List (CanonicalRow F)) (hit : RecallHit F) (t : Totals) :
    Option (Offer F) :=
  match rowAt rows hit.rowid with
  | none => none
  | some row =>
    if row.pinned then some ⟨hit, row, t, budget - t.tokensUsed, .totalBudget⟩ else none

/-- The offer of pass 2: what is left of the tier's offer or of the ceiling, whichever binds. -/
def tierOffer (budget : Nat) (rows : List (CanonicalRow F)) (tier : Tier) (hit : RecallHit F)
    (s : Totals × Nat) : Option (Offer F) :=
  if hit.placement ≠ .unpacked then none
  else
    match rowAt rows hit.rowid with
    | none => none
    | some row =>
      if row.tier ≠ tier then none
      else if s.2 ≤ budget - s.1.tokensUsed then some ⟨hit, row, s.1, s.2, .tierBudget⟩
      else some ⟨hit, row, s.1, budget - s.1.tokensUsed, .totalBudget⟩

/-- The offers made while a loop runs. -/
def passOffers {σ : Type} (step : RecallHit F → σ → RecallHit F × σ)
    (offer : RecallHit F → σ → Option (Offer F)) : List (RecallHit F) → σ → List (Offer F)
  | [], _ => []
  | hit :: hits, s => (offer hit s).toList ++ passOffers step offer hits (step hit s).2

def tierOffers (count : String → Nat) (budget : Nat) (rows : List (CanonicalRow F))
    (shares : TierTokens) : List Tier → Nat → List (RecallHit F) → Totals → List (Offer F)
  | [], _, _, _ => []
  | tier :: tiers, carry, hits, t =>
    let available := saturatingAdd (shares.get tier) carry
    let (hits', t', left) := passHits (tierStep count budget rows tier) hits (t, available)
    passOffers (tierStep count budget rows tier) (tierOffer budget rows tier) hits (t, available) ++
      tierOffers count budget rows shares tiers left hits' t'

/-- Every offer that `pack` makes, in order. -/
def packOffers [F64 F] (count : String → Nat) (split : BudgetSplit F) (budget : Nat)
    (hits : List (RecallHit F)) (rows : List (CanonicalRow F)) : List (Offer F) :=
  let sorted := sortHits (injectionOrder rows) hits
  let (pinned, t) := passHits (pinnedStep count budget rows) sorted {}
  passOffers (pinnedStep count budget rows) (pinnedOffer budget rows) sorted {} ++
    tierOffers count budget rows (alloc split budget) TIER_ORDER 0 pinned t

section

variable {count : String → Nat} {budget : Nat} {rows : List (CanonicalRow F)}

/-! ## A step answers its offer -/

/-- What a step does with its offer: it answers it, and without one it leaves the totals alone and at
most marks a hit that has no row. -/
inductive Answers (count : String → Nat) (budget : Nat) (rows : List (CanonicalRow F))
    (hit : RecallHit F) (before : Totals) : Option (Offer F) → RecallHit F × Totals → Prop
  | placed (row : CanonicalRow F) (hrow : rowAt rows hit.rowid = some row) (cap : Nat)
      (hcap : cap ≤ budget - before.tokensUsed) (reason : DropReason) :
      Answers count budget rows hit before (some ⟨hit, row, before, cap, reason⟩)
        (Offer.answer count ⟨hit, row, before, cap, reason⟩)
  | kept : Answers count budget rows hit before none (hit, before)
  | unresolved (hrow : rowAt rows hit.rowid = none) : Answers count budget rows hit before none
      ({ hit with placement := .dropped .unresolved }, before)

theorem pinnedStep_answers (hit : RecallHit F) (t : Totals) :
    Answers count budget rows hit t (pinnedOffer budget rows hit t)
      (pinnedStep count budget rows hit t) := by
  unfold pinnedOffer pinnedStep
  cases hrow : rowAt rows hit.rowid with
  | none => exact .unresolved hrow
  | some row =>
    by_cases hpinned : row.pinned = true
    · simp only [if_pos hpinned]
      exact .placed row hrow _ (Nat.le_refl _) _
    · simp only [if_neg hpinned]
      exact .kept

theorem tierStep_answers (tier : Tier) (hit : RecallHit F) (s : Totals × Nat) :
    Answers count budget rows hit s.1 (tierOffer budget rows tier hit s)
      ((tierStep count budget rows tier hit s).1, (tierStep count budget rows tier hit s).2.1) := by
  unfold tierOffer tierStep
  by_cases hp : hit.placement ≠ .unpacked
  · simp only [if_pos hp]
    exact .kept
  · simp only [if_neg hp]
    cases hrow : rowAt rows hit.rowid with
    | none => exact .unresolved hrow
    | some row =>
      by_cases htier : row.tier ≠ tier
      · simp only [if_pos htier]
        exact .kept
      · simp only [if_neg htier]
        by_cases hle : s.2 ≤ budget - s.1.tokensUsed
        · simp only [if_pos hle]
          exact .placed row hrow _ hle _
        · simp only [if_neg hle]
          exact .placed row hrow _ (Nat.le_refl _) _

/-! ## The offers of a loop -/

variable {σ : Type} {step : RecallHit F → σ → RecallHit F × σ}
  {offer : RecallHit F → σ → Option (Offer F)} {totals : σ → Totals}

/-- Every step of a loop answers its offer. -/
def AnswersAll (count : String → Nat) (budget : Nat) (rows : List (CanonicalRow F))
    (step : RecallHit F → σ → RecallHit F × σ) (offer : RecallHit F → σ → Option (Offer F))
    (totals : σ → Totals) : Prop :=
  ∀ hit s, Answers count budget rows hit (totals s) (offer hit s)
    ((step hit s).1, totals (step hit s).2)

/-- A hit as fusion left it. -/
def RecallHit.unpack (h : RecallHit F) : RecallHit F := { h with placement := .unpacked, tokens := 0 }

/-- What the answer to an offer is, case by case. -/
theorem AnswersAll.cases (h : AnswersAll count budget rows step offer totals) (hit : RecallHit F)
    (s : σ) :
    (∃ o, offer hit s = some o ∧ o.hit = hit ∧ o.before = totals s ∧
      rowAt rows hit.rowid = some o.row ∧ o.cap ≤ budget - (totals s).tokensUsed ∧
      (step hit s).1 = (o.answer count).1 ∧ totals (step hit s).2 = (o.answer count).2) ∨
    (offer hit s = none ∧ (step hit s).1 = hit ∧ totals (step hit s).2 = totals s) ∨
    (offer hit s = none ∧ rowAt rows hit.rowid = none ∧
      (step hit s).1 = { hit with placement := .dropped .unresolved } ∧
      totals (step hit s).2 = totals s) := by
  have hans := h hit s
  generalize hoffer : offer hit s = off at hans
  generalize hout : ((step hit s).1, totals (step hit s).2) = out at hans
  cases hans with
  | placed row hrow cap hcap reason =>
    obtain ⟨hhit, htotals⟩ := Prod.mk.inj hout
    exact .inl ⟨_, rfl, rfl, rfl, hrow, hcap, hhit, htotals⟩
  | kept =>
    obtain ⟨hhit, htotals⟩ := Prod.mk.inj hout
    exact .inr (.inl ⟨rfl, hhit, htotals⟩)
  | unresolved hrow =>
    obtain ⟨hhit, htotals⟩ := Prod.mk.inj hout
    exact .inr (.inr ⟨rfl, hrow, hhit, htotals⟩)

private theorem passHits_unpack (h : AnswersAll count budget rows step offer totals)
    (hits : List (RecallHit F)) (s : σ) :
    (passHits step hits s).1.map RecallHit.unpack = hits.map RecallHit.unpack := by
  induction hits generalizing s with
  | nil => rfl
  | cons hit hits ih =>
    have hhit : (step hit s).1.unpack = hit.unpack := by
      obtain ⟨o, _, rfl, _, _, _, hstep, _⟩ | ⟨_, hstep, _⟩ | ⟨_, _, hstep, _⟩ := h.cases hit s <;>
        rw [hstep] <;> rfl
    simp only [passHits, List.map_cons, hhit, ih]

/-- A hit of the outcome is as it was, answers an offer, or has no row. -/
theorem mem_passHits_cases (h : AnswersAll count budget rows step offer totals)
    {hits : List (RecallHit F)} {s : σ} {x : RecallHit F} (hx : x ∈ (passHits step hits s).1) :
    x ∈ hits ∨ (∃ o ∈ passOffers step offer hits s, x = (o.answer count).1) ∨
      (rowAt rows x.rowid = none ∧ x.placement = .dropped .unresolved) := by
  induction hits generalizing s with
  | nil => cases hx
  | cons hit hits ih =>
    rcases List.mem_cons.mp hx with rfl | hx
    · obtain ⟨o, ho, _, _, _, _, hstep, _⟩ | ⟨_, hstep, _⟩ | ⟨_, hrow, hstep, _⟩ := h.cases hit s
      · refine .inr (.inl ⟨o, ?_, hstep⟩)
        simp only [passOffers, ho]
        exact List.mem_append_left _ (List.mem_singleton_self o)
      · rw [hstep]
        exact .inl List.mem_cons_self
      · rw [hstep]
        exact .inr (.inr ⟨hrow, rfl⟩)
    · rcases ih hx with hmem | ⟨o, ho, hxo⟩ | hnone
      · exact .inl (List.mem_cons_of_mem _ hmem)
      · exact .inr (.inl ⟨o, List.mem_append_right _ ho, hxo⟩)
      · exact .inr (.inr hnone)

/-- An offer is about the hit it names and the row of that hit. -/
structure Offer.Valid (budget : Nat) (rows : List (CanonicalRow F)) (o : Offer F) : Prop where
  row : rowAt rows o.hit.rowid = some o.row
  cap : o.cap ≤ budget - o.before.tokensUsed

theorem mem_passOffers (h : AnswersAll count budget rows step offer totals)
    {hits : List (RecallHit F)} {s : σ} {o : Offer F} (ho : o ∈ passOffers step offer hits s) :
    o.Valid budget rows ∧ ∃ t, offer o.hit t = some o ∧ o.hit ∈ hits := by
  induction hits generalizing s with
  | nil => cases ho
  | cons hit hits ih =>
    rcases List.mem_append.mp ho with ho | ho
    · have ho := Option.mem_toList.mp ho
      obtain ⟨o', ho', rfl, hbefore, hrow, hcap, _⟩ | ⟨hno, _⟩ | ⟨hno, _⟩ := h.cases hit s
      · obtain rfl := Option.some.inj (ho'.symm.trans ho)
        exact ⟨⟨hrow, hbefore ▸ hcap⟩, s, ho, List.mem_cons_self⟩
      · rw [hno] at ho
        cases ho
      · rw [hno] at ho
        cases ho
    · obtain ⟨hvalid, t, hoffer, hmem⟩ := ih ho
      exact ⟨hvalid, t, hoffer, List.mem_cons_of_mem _ hmem⟩

/-! ## The totals -/

def TierTokens.total (t : TierTokens) : Nat := t.working + t.episodic + t.semantic + t.procedural

theorem TierTokens.get_add (t : TierTokens) (tier tier' : Tier) (n : Nat) :
    (t.add tier n).get tier' = t.get tier' + if tier = tier' then n else 0 := by
  cases tier <;> cases tier' <;> rfl

theorem TierTokens.total_add (t : TierTokens) (tier : Tier) (n : Nat) :
    (t.add tier n).total = t.total + n := by
  cases tier <;> simp only [TierTokens.add, TierTokens.total] <;> omega

theorem TierTokens.get_le_total (t : TierTokens) (tier : Tier) : t.get tier ≤ t.total := by
  cases tier <;> simp only [TierTokens.get, TierTokens.total] <;> omega

/-- The tiers add up to the whole, which is within the ceiling. -/
structure Balanced (budget : Nat) (t : Totals) : Prop where
  total : t.tierTokens.total = t.tokensUsed
  within : t.tokensUsed ≤ budget

theorem Balanced.answer {o : Offer F} (h : Balanced budget o.before)
    (ho : o.cap ≤ budget - o.before.tokensUsed) : Balanced budget (o.answer count).2 := by
  have hle := place_le count o.row o.cap o.reason
  have hwithin := h.within
  constructor
  · simp only [Offer.answer, apply, TierTokens.total_add, h.total]
  · simp only [Offer.answer, apply, Offer.place]
    omega

/-- The totals stay balanced, and are so before and after every placement. -/
private theorem passHits_balanced (h : AnswersAll count budget rows step offer totals)
    (hits : List (RecallHit F)) (s : σ) (hs : Balanced budget (totals s)) :
    Balanced budget (totals (passHits step hits s).2) ∧
      ∀ o ∈ passOffers step offer hits s,
        Balanced budget o.before ∧ Balanced budget (o.answer count).2 := by
  induction hits generalizing s with
  | nil => exact ⟨hs, fun o ho => by cases ho⟩
  | cons hit hits ih =>
    obtain ⟨o, ho, _, hbefore, _, hcap, _, htotals⟩ | ⟨hno, _, htotals⟩ | ⟨hno, _, _, htotals⟩ :=
      h.cases hit s
    · have hbalanced : Balanced budget o.before := hbefore ▸ hs
      have hanswer : Balanced budget (o.answer count).2 := hbalanced.answer (hbefore ▸ hcap)
      obtain ⟨hlast, hrest⟩ := ih (step hit s).2 (htotals ▸ hanswer)
      refine ⟨hlast, fun o' ho' => ?_⟩
      simp only [passOffers, ho] at ho'
      rcases List.mem_cons.mp ho' with rfl | ho'
      · exact ⟨hbalanced, hanswer⟩
      · exact hrest o' ho'
    all_goals
      obtain ⟨hlast, hrest⟩ := ih (step hit s).2 (htotals ▸ hs)
      refine ⟨hlast, fun o' ho' => ?_⟩
      simp only [passOffers, hno] at ho'
      exact hrest o' ho'

/-! ## The tiers -/

/-- What a hit adds to a tier: its tokens, when its row is of that tier. -/
def credit (rows : List (CanonicalRow F)) (tier : Tier) (h : RecallHit F) : Nat :=
  if (rowAt rows h.rowid).any fun row => row.tier = tier then h.tokens else 0

/-- Each tier's entry is the sum over the hits whose row has that tier. -/
def Tallied (rows : List (CanonicalRow F)) (hits : List (RecallHit F)) (t : Totals) : Prop :=
  ∀ tier, t.tierTokens.get tier = (hits.map (credit rows tier)).sum

private theorem tallied_step (h : AnswersAll count budget rows step offer totals)
    {pre rest : List (RecallHit F)} {hit : RecallHit F} {s : σ}
    (ht : Tallied rows (pre ++ hit :: rest) (totals s))
    (hfree : (offer hit s).isSome → hit.tokens = 0) :
    Tallied rows (pre ++ (step hit s).1 :: rest) (totals (step hit s).2) := by
  intro tier
  have htier := ht tier
  simp only [List.map_append, List.map_cons, List.sum_append, List.sum_cons] at htier ⊢
  obtain ⟨o, ho, rfl, hbefore, hrow, _, hhit, htotals⟩ | ⟨_, hhit, htotals⟩ |
    ⟨_, hrow, hhit, htotals⟩ := h.cases hit s
  · have hzero : credit rows tier o.hit = 0 := by
      unfold credit
      rw [hfree (ho ▸ rfl), ite_self]
    have hcredit : credit rows tier (o.answer count).1 =
        if o.row.tier = tier then (o.place count).2 else 0 := by
      show (if (rowAt rows o.hit.rowid).any _ then (o.place count).2 else 0) = _
      rw [hrow]
      simp only [Option.any_some, decide_eq_true_eq]
    rw [hhit, htotals, hcredit]
    simp only [Offer.answer, apply, TierTokens.get_add, hbefore]
    omega
  · rw [hhit, htotals, htier]
  · have hcredit : ∀ p n, credit rows tier { hit with placement := p, tokens := n } = 0 := by
      intro p n
      unfold credit
      rw [hrow]
      rfl
    have hold : credit rows tier hit = 0 := hcredit hit.placement hit.tokens
    rw [hhit, htotals, htier, hold]
    rw [hcredit (.dropped .unresolved) hit.tokens]

/-! ## One offer for each hit -/

/-- The rowids that no pass has placed. -/
def unpackedIds (hits : List (RecallHit F)) : List Int :=
  (hits.filter fun h => h.placement = .unpacked).map RecallHit.rowid

private theorem unpackedIds_cons (h : RecallHit F) (hits : List (RecallHit F)) :
    unpackedIds (h :: hits) =
      if h.placement = .unpacked then h.rowid :: unpackedIds hits else unpackedIds hits := by
  unfold unpackedIds
  rw [List.filter_cons]
  simp only [decide_eq_true_eq]
  split <;> rfl

/-- A loop offers only what is unpacked, and leaves nothing it offered unpacked. -/
private theorem passOffers_subperm (h : AnswersAll count budget rows step offer totals)
    {hits : List (RecallHit F)} (s : σ)
    (hunpacked : ∀ hit ∈ hits, ∀ s, (offer hit s).isSome → hit.placement = .unpacked) :
    ((passOffers step offer hits s).map (fun o => o.hit.rowid) ++
      unpackedIds (passHits step hits s).1).Subperm (unpackedIds hits) := by
  induction hits generalizing s with
  | nil => exact List.Subperm.refl _
  | cons hit hits ih =>
    have hrest := ih (step hit s).2 fun x hx => hunpacked x (List.mem_cons_of_mem _ hx)
    simp only [passOffers, passHits, unpackedIds_cons, List.map_append]
    obtain ⟨o, ho, rfl, _, _, _, hstep, _⟩ | ⟨hno, hstep, _⟩ | ⟨hno, _, hstep, _⟩ := h.cases hit s
    · have hplaced : (o.answer count).1.placement ≠ .unpacked :=
        place_ne_unpacked count o.row o.cap o.reason
      rw [ho, hstep, if_neg hplaced, if_pos (hunpacked _ List.mem_cons_self s (ho ▸ rfl))]
      exact (List.subperm_cons _).mpr hrest
    · rw [hno, hstep]
      split
      · exact List.perm_middle.subperm.trans ((List.subperm_cons _).mpr hrest)
      · exact hrest
    · rw [hno, hstep, if_neg (fun hp => by cases hp)]
      split
      · exact hrest.trans (List.sublist_cons_self _ _).subperm
      · exact hrest

/-! ## Loops after one another -/

/-- A stretch of a pack: the hits and totals before and after it, and the offers made in it. -/
structure Stretch (count : String → Nat) (budget : Nat) (rows : List (CanonicalRow F))
    (hits : List (RecallHit F)) (t : Totals) (offers : List (Offer F)) (hits' : List (RecallHit F))
    (t' : Totals) : Prop where
  unpack : hits'.map RecallHit.unpack = hits.map RecallHit.unpack
  cases : ∀ x ∈ hits', x ∈ hits ∨ (∃ o ∈ offers, x = (o.answer count).1) ∨
    (rowAt rows x.rowid = none ∧ x.placement = .dropped .unresolved)
  valid : ∀ o ∈ offers, o.Valid budget rows ∧ o.hit.placement = .unpacked
  balanced : Balanced budget t → Balanced budget t' ∧
    ∀ o ∈ offers, Balanced budget o.before ∧ Balanced budget (o.answer count).2
  once : (offers.map (fun o => o.hit.rowid) ++ unpackedIds hits').Subperm (unpackedIds hits)

theorem Stretch.trans {hits hits' hits'' : List (RecallHit F)} {t t' t'' : Totals}
    {offers offers' : List (Offer F)} (h : Stretch count budget rows hits t offers hits' t')
    (h' : Stretch count budget rows hits' t' offers' hits'' t'') :
    Stretch count budget rows hits t (offers ++ offers') hits'' t'' where
  unpack := h'.unpack.trans h.unpack
  cases x hx := by
    rcases h'.cases x hx with hx | ⟨o, ho, hxo⟩ | hnone
    · rcases h.cases x hx with hx | ⟨o, ho, hxo⟩ | hnone
      · exact .inl hx
      · exact .inr (.inl ⟨o, List.mem_append_left _ ho, hxo⟩)
      · exact .inr (.inr hnone)
    · exact .inr (.inl ⟨o, List.mem_append_right _ ho, hxo⟩)
    · exact .inr (.inr hnone)
  valid o ho := (List.mem_append.mp ho).elim (h.valid o) (h'.valid o)
  balanced ht := by
    obtain ⟨ht', ho⟩ := h.balanced ht
    obtain ⟨ht'', ho'⟩ := h'.balanced ht'
    exact ⟨ht'', fun o hmem => (List.mem_append.mp hmem).elim (ho o) (ho' o)⟩
  once := by
    rw [List.map_append, List.append_assoc]
    exact ((List.subperm_append_left _).mpr h'.once).trans h.once

theorem AnswersAll.stretch (h : AnswersAll count budget rows step offer totals)
    {hits : List (RecallHit F)} (s : σ)
    (hunpacked : ∀ hit ∈ hits, ∀ s, (offer hit s).isSome → hit.placement = .unpacked) :
    Stretch count budget rows hits (totals s) (passOffers step offer hits s)
      (passHits step hits s).1 (totals (passHits step hits s).2) where
  unpack := passHits_unpack h hits s
  cases _ hx := mem_passHits_cases h hx
  valid o ho := by
    obtain ⟨hvalid, t, hoffer, hmem⟩ := mem_passOffers h ho
    exact ⟨hvalid, hunpacked _ hmem t (hoffer ▸ rfl)⟩
  balanced hs := passHits_balanced h hits s hs
  once := passOffers_subperm h s hunpacked

theorem tierOffer_unpacked {tier : Tier} {hit : RecallHit F} {s : Totals × Nat}
    (h : (tierOffer budget rows tier hit s).isSome) : hit.placement = .unpacked := by
  by_contra hp
  rw [tierOffer, if_pos hp] at h
  cases h

private theorem packTiers_stretch (shares : TierTokens) (tiers : List Tier) (carry : Nat)
    (hits : List (RecallHit F)) (t : Totals) :
    Stretch count budget rows hits t (tierOffers count budget rows shares tiers carry hits t)
      (packTiers count budget rows shares tiers carry hits t).1
      (packTiers count budget rows shares tiers carry hits t).2 := by
  induction tiers generalizing carry hits t with
  | nil =>
    exact ⟨rfl, fun x hx => .inl hx, (fun o ho => by cases ho),
      fun ht => ⟨ht, fun o ho => by cases ho⟩, List.Subperm.refl _⟩
  | cons tier tiers ih =>
    have hans : AnswersAll count budget rows (tierStep count budget rows tier)
        (tierOffer budget rows tier) Prod.fst := tierStep_answers tier
    have hpass := hans.stretch (t, saturatingAdd (shares.get tier) carry)
      fun hit (_ : hit ∈ hits) _ h => tierOffer_unpacked h
    exact hpass.trans (ih _ _ _)

private theorem packTiers_tallied {ids : List (Int × String)} {shares : TierTokens}
    {tiers : List Tier}
    {carry : Nat} {hits : List (RecallHit F)} {t : Totals}
    (hpacked : Packed count budget rows ids hits t.tokensUsed) (ht : Tallied rows hits t) :
    Tallied rows (packTiers count budget rows shares tiers carry hits t).1
      (packTiers count budget rows shares tiers carry hits t).2 := by
  induction tiers generalizing carry hits t with
  | nil => exact ht
  | cons tier tiers ih =>
    have hpass := passHits_keeps (P := fun pre rest (s : Totals × Nat) =>
      Packed count budget rows ids (pre ++ rest) s.1.tokensUsed ∧ Tallied rows (pre ++ rest) s.1)
      (fun pre hit rest s h => by
        refine ⟨tierStep_keeps tier pre hit rest s h.1, ?_⟩
        rw [List.append_assoc, List.singleton_append]
        exact tallied_step (tierStep_answers tier) h.2
          fun hoffer => h.1.unpacked_free (tierOffer_unpacked hoffer))
      [] hits (t, saturatingAdd (shares.get tier) carry) ⟨hpacked, ht⟩
    simp only [List.append_nil, List.nil_append] at hpass
    exact ih hpass.1 hpass.2

/-! ## What a placement carries -/

private theorem place_full {row : CanonicalRow F} {cap : Nat} {reason : DropReason}
    (h : (place count row cap reason).1 = .full) :
    (place count row cap reason).2 = count row.text ∧ count row.text ≤ cap := by
  obtain ⟨he, hle⟩ | ⟨_, _, he, _⟩ | he := place_cases count row cap reason
  · exact ⟨by rw [he], hle⟩
  · rw [he] at h
    cases h
  · rw [he] at h
    cases h

/-- A summary is placed only where the full text does not fit. -/
private theorem place_summary {row : CanonicalRow F} {cap : Nat} {reason : DropReason}
    (h : (place count row cap reason).1 = .summary) :
    cap < count row.text ∧ (place count row cap reason).2 ≤ cap ∧
      ∃ text, row.summaryText = some text ∧ text ≠ "" ∧
        (place count row cap reason).2 = max (row.summaryTokens.getD 0).toNat (count text) := by
  have hle := place_le count row cap reason
  unfold place at h hle ⊢
  by_cases hfull : count row.text ≤ cap
  · rw [if_pos hfull] at h
    cases h
  · rw [if_neg hfull] at h hle ⊢
    refine ⟨by omega, hle, ?_⟩
    unfold summaryCost at h ⊢
    cases htext : row.summaryText with
    | none =>
      rw [htext] at h
      cases h
    | some text =>
      by_cases hempty : text = ""
      · simp only [htext, if_pos hempty] at h
        cases h
      · simp only [htext, if_neg hempty] at h ⊢
        by_cases hfits : max (row.summaryTokens.getD 0).toNat (count text) ≤ cap
        · rw [if_pos hfits]
          exact ⟨text, rfl, hempty, rfl⟩
        · rw [if_neg hfits] at h
          cases h

end

/-! ## The outcome -/

/-- The books of a pack: every hit is settled by its one offer, or has no row, and the totals are
what the hits carry. -/
structure Accounted [F64 F] (count : String → Nat) (split : BudgetSplit F) (budget : Nat)
    (hits : List (RecallHit F)) (rows : List (CanonicalRow F)) (o : PackOutcome F) : Prop where
  perm : (o.hits.map RecallHit.unpack).Perm hits
  settled : ∀ h ∈ o.hits, h.placement ≠ .unpacked
  /-- No hit is offered a cap twice, and each offer is within what is left of the ceiling. -/
  once : ((packOffers count split budget hits rows).map fun offer => offer.hit.rowid).Nodup
  valid : ∀ offer ∈ packOffers count split budget hits rows, offer.Valid budget rows
  full : ∀ h ∈ o.hits, h.placement = .full → ∃ offer ∈ packOffers count split budget hits rows,
    offer.hit.rowid = h.rowid ∧ h.tokens = count offer.row.text ∧ h.tokens ≤ offer.cap
  summary : ∀ h ∈ o.hits, h.placement = .summary →
    ∃ offer ∈ packOffers count split budget hits rows, offer.hit.rowid = h.rowid ∧
      offer.cap < count offer.row.text ∧ h.tokens ≤ offer.cap ∧
      ∃ text, offer.row.summaryText = some text ∧ text ≠ "" ∧
        h.tokens = max (offer.row.summaryTokens.getD 0).toNat (count text)
  dropped : ∀ h ∈ o.hits, ∀ reason, h.placement = .dropped reason → h.tokens = 0
  total : o.tokensUsed = (o.hits.map RecallHit.tokens).sum
  tiers_total : o.tokensUsed = o.tierTokens.total
  tiers : ∀ tier, o.tierTokens.get tier = (o.hits.map (credit rows tier)).sum
  within : o.tokensUsed ≤ budget
  no_overflow : ∀ offer ∈ packOffers count split budget hits rows,
    offer.before.tokensUsed + (offer.place count).2 < 2 ^ 64 ∧
      offer.before.tierTokens.get offer.row.tier + (offer.place count).2 < 2 ^ 64

variable [F64 F] {count : String → Nat} {split : BudgetSplit F} {budget : Nat}
  {hits : List (RecallHit F)} {rows : List (CanonicalRow F)}

private theorem pack_stretch (hunpacked : ∀ h ∈ hits, h.placement = .unpacked ∧ h.tokens = 0) :
    ∃ t, Stretch count budget rows (sortHits (injectionOrder rows) hits) {}
      (packOffers count split budget hits rows) (pack count split budget hits rows).hits t ∧
      t.tokensUsed = (pack count split budget hits rows).tokensUsed ∧
      t.tierTokens = (pack count split budget hits rows).tierTokens := by
  have hans : AnswersAll count budget rows (pinnedStep count budget rows) (pinnedOffer budget rows)
      id := pinnedStep_answers
  have hpinned := hans.stretch {} fun hit (hmem : hit ∈ sortHits (injectionOrder rows) hits) _ _ =>
    (hunpacked hit (mem_sortHits.mp hmem)).1
  exact ⟨_, hpinned.trans (packTiers_stretch (alloc split budget) TIER_ORDER 0 _ _), rfl, rfl⟩

/-- The total of a pack is the sum of the tiers. -/
theorem pack_balanced (hunpacked : ∀ h ∈ hits, h.placement = .unpacked ∧ h.tokens = 0) :
    (pack count split budget hits rows).tokensUsed =
      (pack count split budget hits rows).tierTokens.total := by
  obtain ⟨t, hstretch, hused, htiers⟩ := @pack_stretch F _ count split budget hits rows hunpacked
  have hzero : Balanced budget ({} : Totals) := ⟨rfl, Nat.zero_le _⟩
  rw [← hused, ← htiers, (hstretch.balanced hzero).1.total]

/-- No hit is offered a cap twice. -/
theorem packOffers_nodup (hunpacked : ∀ h ∈ hits, h.placement = .unpacked ∧ h.tokens = 0)
    (hrowids : (hits.map RecallHit.rowid).Nodup) :
    ((packOffers count split budget hits rows).map fun offer => offer.hit.rowid).Nodup := by
  obtain ⟨_, hstretch, _, _⟩ := @pack_stretch F _ count split budget hits rows hunpacked
  have hids : (unpackedIds (sortHits (injectionOrder rows) hits)).Nodup := by
    have hperm : (sortHits (injectionOrder rows) hits).Perm hits := List.perm_insertionSort _ _
    exact ((hperm.map RecallHit.rowid).nodup_iff.mpr hrowids).sublist (List.filter_sublist.map _)
  obtain ⟨l, hl, hsub⟩ := (List.sublist_append_left _ _).subperm.trans hstretch.once
  exact hl.nodup_iff.mp (hids.sublist hsub)

private theorem pack_tallied (hunpacked : ∀ h ∈ hits, h.placement = .unpacked ∧ h.tokens = 0) :
    ∀ tier, (pack count split budget hits rows).tierTokens.get tier =
      ((pack count split budget hits rows).hits.map (credit rows tier)).sum := by
  obtain ⟨hstart, hsorted⟩ := sorted_packed count budget rows hunpacked
  have htally : Tallied rows (sortHits (injectionOrder rows) hits) {} := by
    intro tier
    have hzero : ∀ n ∈ (sortHits (injectionOrder rows) hits).map (credit rows tier), n = 0 := by
      intro n hn
      obtain ⟨h, hm, rfl⟩ := List.mem_map.mp hn
      rw [credit, (hsorted h hm).2, ite_self]
    rw [List.sum_eq_zero hzero]
    cases tier <;> rfl
  have hpinned := passHits_keeps (P := fun pre rest (t : Totals) =>
    (Packed count budget rows ((sortHits (injectionOrder rows) hits).map RecallHit.ids) (pre ++ rest)
      t.tokensUsed ∧ ∀ x ∈ rest, x.placement = .unpacked) ∧ Tallied rows (pre ++ rest) t)
    (fun pre hit rest t h => by
      refine ⟨pinnedStep_keeps pre hit rest t h.1, ?_⟩
      rw [List.append_assoc, List.singleton_append]
      exact tallied_step pinnedStep_answers h.2
        fun _ => h.1.1.unpacked_free (h.1.2 hit List.mem_cons_self))
    [] _ {} ⟨⟨hstart, fun h hm => (hsorted h hm).1⟩, htally⟩
  simp only [List.nil_append, List.append_nil] at hpinned
  unfold pack
  exact packTiers_tallied hpinned.1.1 hpinned.2

omit [F64 F] in
private theorem unpack_of_unpacked {h : RecallHit F} (hp : h.placement = .unpacked ∧ h.tokens = 0) :
    h.unpack = h := by
  unfold RecallHit.unpack
  rw [← hp.1, ← hp.2]

/-- Packing reorders its candidates and writes only placements and tokens. -/
theorem pack_unpack (hunpacked : ∀ h ∈ hits, h.placement = .unpacked ∧ h.tokens = 0) :
    (pack count split budget hits rows).hits.map RecallHit.unpack =
      sortHits (injectionOrder rows) hits := by
  obtain ⟨_, hstretch, _, _⟩ := @pack_stretch F _ count split budget hits rows hunpacked
  obtain ⟨-, hsorted⟩ := sorted_packed count budget rows hunpacked
  have hunpack : (sortHits (injectionOrder rows) hits).map RecallHit.unpack =
      sortHits (injectionOrder rows) hits :=
    (List.map_congr_left fun h hm => unpack_of_unpacked (hsorted h hm)).trans (List.map_id _)
  exact hstretch.unpack.trans hunpack

/-- A settled hit is the answer to an offer, or has no row. -/
theorem mem_pack_cases (hunpacked : ∀ h ∈ hits, h.placement = .unpacked ∧ h.tokens = 0)
    {h : RecallHit F} (hm : h ∈ (pack count split budget hits rows).hits) :
    (∃ o ∈ packOffers count split budget hits rows, h = (o.answer count).1) ∨
      (rowAt rows h.rowid = none ∧ h.placement = .dropped .unresolved) := by
  obtain ⟨_, hstretch, _, _⟩ := @pack_stretch F _ count split budget hits rows hunpacked
  obtain ⟨-, hsorted⟩ := sorted_packed count budget rows hunpacked
  rcases hstretch.cases h hm with hmem | hanswer
  · exact absurd (hsorted h hmem).1 (pack_settled hm)
  · exact hanswer

/-- For every budget of 64 bits, shares, counter, candidates and rows the books of a pack are in
order. -/
theorem pack_accounted (count : String → Nat) (split : BudgetSplit F) (budget : Nat)
    (hbudget : budget < 2 ^ 64) (hits : List (RecallHit F)) (rows : List (CanonicalRow F))
    (hunpacked : ∀ h ∈ hits, h.placement = .unpacked ∧ h.tokens = 0)
    (hrowids : (hits.map RecallHit.rowid).Nodup) :
    Accounted count split budget hits rows (pack count split budget hits rows) := by
  obtain ⟨_, hstretch, _, _⟩ := @pack_stretch F _ count split budget hits rows hunpacked
  have hpacked := pack_packed count split budget rows hunpacked
  have hzero : Balanced budget ({} : Totals) := ⟨rfl, Nat.zero_le _⟩
  obtain ⟨_, hoffers⟩ := hstretch.balanced hzero
  have hcases := fun h hm => @mem_pack_cases F _ count split budget hits rows hunpacked h hm
  constructor
  case perm =>
    rw [pack_unpack hunpacked]
    exact List.perm_insertionSort _ _
  case settled => exact fun h hm => pack_settled hm
  case once => exact packOffers_nodup hunpacked hrowids
  case valid => exact fun o ho => (hstretch.valid o ho).1
  case full =>
    intro h hm hfull
    rcases hcases h hm with ⟨o, ho, rfl⟩ | ⟨_, hdropped⟩
    · obtain ⟨htokens, hcap⟩ := place_full (h := hfull)
      exact ⟨o, ho, rfl, htokens, htokens.trans_le hcap⟩
    · rw [hdropped] at hfull
      cases hfull
  case summary =>
    intro h hm hsummary
    rcases hcases h hm with ⟨o, ho, rfl⟩ | ⟨_, hdropped⟩
    · obtain ⟨hcap, hfits, text, htext, hempty, htokens⟩ := place_summary (h := hsummary)
      exact ⟨o, ho, rfl, hcap, hfits, text, htext, hempty, htokens⟩
    · rw [hdropped] at hsummary
      cases hsummary
  case dropped =>
    intro h hm reason hdropped
    refine (hpacked.placed h hm).free ?_
    rw [RecallHit.injected, hdropped]
  case total => exact hpacked.total
  case tiers_total => exact pack_balanced hunpacked
  case tiers => exact pack_tallied hunpacked
  case within => exact hpacked.within
  case no_overflow =>
    intro o ho
    obtain ⟨hbefore, hafter⟩ := hoffers o ho
    have hwithin := hafter.within
    have htier := o.before.tierTokens.get_le_total o.row.tier
    rw [hbefore.total] at htier
    simp only [Offer.answer, apply] at hwithin
    omega

/-- A pinned procedural row of seven tokens. -/
def pinnedRow : CanonicalRow ℚ where
  rowid := 1
  publicId := "m1"
  agentId := "a"
  tier := .procedural
  status := .active
  trust := .trusted
  expiresAt := none
  supersededById := none
  successorId := none
  createdAt := 0
  lastReferencedAt := none
  importanceCurrent := 1
  confidence := 1
  pinned := true
  text := "the sky"
  sourceKind := .user
  sourceRef := none
  summaryText := none
  summaryTokens := none

def pinnedHit : RecallHit ℚ where
  rowid := 1
  publicId := "m1"
  tier := .procedural
  trust := .trusted
  score := 1
  placement := .unpacked
  tokens := 0
  sourceKind := .user
  sourceRef := none
  components := ⟨none, none, 0, 0, 0, 0, 0⟩

/-- A row of each tier: the semantic one has a summary. -/
def mixedRows : List (CanonicalRow ℚ) :=
  [pinnedRow,
    { pinnedRow with
      rowid := 2, publicId := "m2", tier := .semantic, pinned := false
      text := "the sky over the sea is blue", summaryText := some "blue sky" },
    { pinnedRow with
      rowid := 3, publicId := "m3", tier := .episodic, pinned := false
      text := "a long walk along the sea" },
    { pinnedRow with rowid := 4, publicId := "m4", tier := .working, pinned := false, text := "tea" }]

/-- Their hits, and one whose row is gone. -/
def mixedHits : List (RecallHit ℚ) :=
  [pinnedHit, { pinnedHit with rowid := 2, publicId := "m2", tier := .semantic },
    { pinnedHit with rowid := 3, publicId := "m3", tier := .episodic },
    { pinnedHit with rowid := 4, publicId := "m4", tier := .working },
    { pinnedHit with rowid := 5, publicId := "m5" }]

/-- With ten tokens for each tier, two rows are placed in full and one by its summary, one is too
long, and one hit has no row. -/
theorem pack_accounted_mixed :
    let report := pack String.length ⟨1 / 4, 1 / 4, 1 / 4, 1 / 4⟩ 40 mixedHits mixedRows
    (report.hits.map fun h => (h.rowid, h.placement, h.tokens)) =
        [(1, .full, 7), (2, .summary, 8), (3, .dropped .tierBudget, 0), (4, .full, 3),
          (5, .dropped .unresolved, 0)] ∧
      Accounted String.length ⟨1 / 4, 1 / 4, 1 / 4, 1 / 4⟩ 40 mixedHits mixedRows report := by
  refine ⟨by decide +kernel, pack_accounted _ _ _ (by decide) _ _ ?_ (by decide)⟩
  intro h hm
  revert h
  decide

end AgosMemory.Recall
