import AgosMemory.Recall.Rerank

/-!
# Token packing

Pinned rows claim budget first, then each tier is offered its share in declared order and what it
leaves rolls down. An item is placed whole, replaced by its summary, or dropped. The ceiling is
checked against a running total on every placement.
-/

namespace AgosMemory.Recall

variable {F : Type} [F64 F]

/-- Declared tier order. -/
def TIER_ORDER : List Tier := [.working, .episodic, .semantic, .procedural]

/-- `u64::saturating_add` -/
def saturatingAdd (a b : Nat) : Nat := min (a + b) (2 ^ 64 - 1)

/-- Tokens per tier. -/
structure TierTokens where
  working : Nat := 0
  episodic : Nat := 0
  semantic : Nat := 0
  procedural : Nat := 0
  deriving DecidableEq, Repr

def TierTokens.get (t : TierTokens) : Tier → Nat
  | .working => t.working
  | .episodic => t.episodic
  | .semantic => t.semantic
  | .procedural => t.procedural

def TierTokens.add (t : TierTokens) (tier : Tier) (tokens : Nat) : TierTokens :=
  match tier with
  | .working => { t with working := t.working + tokens }
  | .episodic => { t with episodic := t.episodic + tokens }
  | .semantic => { t with semantic := t.semantic + tokens }
  | .procedural => { t with procedural := t.procedural + tokens }

/-- Per-tier shares for `budget`, rounded to the nearest token. -/
def alloc (split : BudgetSplit F) (budget : Nat) : TierTokens :=
  let share (f : F) := F64.roundToU64 (F64.mul (F64.ofRat budget) f)
  ⟨share split.working, share split.episodic, share split.semantic, share split.procedural⟩

/-- Cost of a usable summary: the larger of the recorded and the measured count. -/
def summaryCost (count : String → Nat) (row : CanonicalRow F) : Option Nat :=
  match row.summaryText with
  | none => none
  | some text =>
    if text = "" then none
    else some (max (row.summaryTokens.getD 0).toNat (count text))

/-- Place one item against `cap`: the full text, else the summary, else a drop. -/
def place (count : String → Nat) (row : CanonicalRow F) (cap : Nat) (reason : DropReason) :
    Placement × Nat :=
  let full := count row.text
  if full ≤ cap then (.full, full)
  else
    match summaryCost count row with
    | some summary => if summary ≤ cap then (.summary, summary) else (.dropped reason, 0)
    | none => (.dropped reason, 0)

/-- Running totals of a pack. -/
structure Totals where
  tokensUsed : Nat := 0
  tierTokens : TierTokens := {}

/-- Record a placement on the hit and roll it into the running totals. -/
def apply (hit : RecallHit F) (tier : Tier) (placed : Placement × Nat) (t : Totals) :
    RecallHit F × Totals :=
  ({ hit with placement := placed.1, tokens := placed.2 },
    ⟨t.tokensUsed + placed.2, t.tierTokens.add tier placed.2⟩)

/-- A loop over the hits in place that threads a state. -/
def passHits {F σ : Type} (step : RecallHit F → σ → RecallHit F × σ) :
    List (RecallHit F) → σ → List (RecallHit F) × σ
  | [], s => ([], s)
  | hit :: hits, s =>
    let (hit', s') := step hit s
    let (hits', s'') := passHits step hits s'
    (hit' :: hits', s'')

def isPinned (rows : List (CanonicalRow F)) (hit : RecallHit F) : Bool :=
  (rowAt rows hit.rowid).any CanonicalRow.pinned

/-- Injection order: pinned first, then best score, ties by public id. -/
def injectionOrder (rows : List (CanonicalRow F)) (a b : RecallHit F) : Ordering :=
  (compare (isPinned rows b) (isPinned rows a)).then (byKeyDesc RecallHit.score a b)

/-- Pass 1: pinned rows, bound by the ceiling and not by their tier. -/
def pinnedStep (count : String → Nat) (budget : Nat) (rows : List (CanonicalRow F))
    (hit : RecallHit F) (t : Totals) : RecallHit F × Totals :=
  match rowAt rows hit.rowid with
  | none => ({ hit with placement := .dropped .unresolved }, t)
  | some row =>
    if row.pinned then
      apply hit row.tier (place count row (budget - t.tokensUsed) .totalBudget) t
    else (hit, t)

/-- Pass 2, one tier: the state adds what is left of the tier's offer. -/
def tierStep (count : String → Nat) (budget : Nat) (rows : List (CanonicalRow F)) (tier : Tier)
    (hit : RecallHit F) (s : Totals × Nat) : RecallHit F × Totals × Nat :=
  if hit.placement ≠ .unpacked then (hit, s)
  else
    match rowAt rows hit.rowid with
    | none => ({ hit with placement := .dropped .unresolved }, s)
    | some row =>
      if row.tier ≠ tier then (hit, s)
      else
        let (t, available) := s
        let byTotal := budget - t.tokensUsed
        let placed :=
          if available ≤ byTotal then place count row available .tierBudget
          else place count row byTotal .totalBudget
        let (hit', t') := apply hit row.tier placed t
        (hit', t', available - placed.2)

/-- Pass 2: the tiers in declared order, the unused offer rolling down. -/
def packTiers (count : String → Nat) (budget : Nat) (rows : List (CanonicalRow F))
    (shares : TierTokens) : List Tier → Nat → List (RecallHit F) → Totals →
    List (RecallHit F) × Totals
  | [], _, hits, t => (hits, t)
  | tier :: tiers, carry, hits, t =>
    let available := saturatingAdd (shares.get tier) carry
    let (hits', t', left) := passHits (tierStep count budget rows tier) hits (t, available)
    packTiers count budget rows shares tiers left hits' t'

/-- What packing produced. -/
structure PackOutcome (F : Type) where
  hits : List (RecallHit F)
  tokensUsed : Nat
  tierTokens : TierTokens

/-- Pack `hits` into `budget` tokens using `split` for the tier shares. -/
def pack (count : String → Nat) (split : BudgetSplit F) (budget : Nat) (hits : List (RecallHit F))
    (rows : List (CanonicalRow F)) : PackOutcome F :=
  let sorted := sortHits (injectionOrder rows) hits
  let (pinned, t) := passHits (pinnedStep count budget rows) sorted {}
  let (packed, t') := packTiers count budget rows (alloc split budget) TIER_ORDER 0 pinned t
  ⟨packed, t'.tokensUsed, t'.tierTokens⟩

/-! ## Loops over the hits -/

section

variable {F σ : Type}

/-- A property of the hits done, the hits to do and the state that every step keeps. -/
theorem passHits_keeps {step : RecallHit F → σ → RecallHit F × σ}
    {P : List (RecallHit F) → List (RecallHit F) → σ → Prop}
    (hstep : ∀ pre hit rest s, P pre (hit :: rest) s →
      P (pre ++ [(step hit s).1]) rest (step hit s).2) (pre hits : List (RecallHit F)) (s : σ)
    (h : P pre hits s) : P (pre ++ (passHits step hits s).1) [] (passHits step hits s).2 := by
  induction hits generalizing pre s with
  | nil => rw [passHits, List.append_nil]; exact h
  | cons hit hits ih =>
    have hnext := ih (pre ++ [(step hit s).1]) (step hit s).2 (hstep pre hit hits s h)
    rw [List.append_assoc] at hnext
    exact hnext

theorem mem_passHits {step : RecallHit F → σ → RecallHit F × σ} {hits : List (RecallHit F)} {s : σ}
    {h : RecallHit F} (hm : h ∈ (passHits step hits s).1) :
    ∃ hit ∈ hits, ∃ t, h = (step hit t).1 := by
  induction hits generalizing s with
  | nil => cases hm
  | cons hit hits ih =>
    rcases List.mem_cons.mp hm with rfl | hm
    · exact ⟨hit, List.mem_cons_self, s, rfl⟩
    · obtain ⟨other, hother, t, ht⟩ := ih hm
      exact ⟨other, List.mem_cons_of_mem _ hother, t, ht⟩

end

/-! ## What every pass keeps -/

/-- The two ids of a hit. -/
def RecallHit.ids {F : Type} (h : RecallHit F) : Int × String := (h.rowid, h.publicId)

/-- The row of a hit bears its placement out: what was placed cost what was counted. -/
structure Placed (count : String → Nat) (rows : List (CanonicalRow F)) (h : RecallHit F) :
    Prop where
  full : h.placement = .full → ∃ row, rowAt rows h.rowid = some row ∧ h.tokens = count row.text
  summary : h.placement = .summary → ∃ row text, rowAt rows h.rowid = some row ∧
    row.summaryText = some text ∧ count text ≤ h.tokens
  free : h.injected = false → h.tokens = 0

/-- The hits and the total of a pack under way: the ids are those it began with, every placement is
borne out by its row, and the total is the tokens placed and within the budget. -/
structure Packed (count : String → Nat) (budget : Nat) (rows : List (CanonicalRow F))
    (ids : List (Int × String)) (hits : List (RecallHit F)) (tokensUsed : Nat) : Prop where
  ids_eq : hits.map RecallHit.ids = ids
  placed : ∀ h ∈ hits, Placed count rows h
  total : tokensUsed = (hits.map RecallHit.tokens).sum
  within : tokensUsed ≤ budget

section

omit [F64 F]

variable {count : String → Nat} {budget : Nat} {rows : List (CanonicalRow F)}
  {ids : List (Int × String)}

/-- A candidate that no pass has reached. -/
private theorem placed_unpacked {h : RecallHit F} (hp : h.placement = .unpacked) (ht : h.tokens = 0) :
    Placed count rows h :=
  ⟨fun hf => absurd (hp.symm.trans hf) nofun, fun hs => absurd (hp.symm.trans hs) nofun,
    fun _ => ht⟩

theorem place_cases (count : String → Nat) (row : CanonicalRow F) (cap : Nat) (reason : DropReason) :
    (place count row cap reason = (.full, count row.text) ∧ count row.text ≤ cap) ∨
    (∃ text n, place count row cap reason = (.summary, n) ∧ row.summaryText = some text ∧
      count text ≤ n ∧ n ≤ cap) ∨
    place count row cap reason = (.dropped reason, 0) := by
  unfold place
  simp only
  split
  · next hfull => exact .inl ⟨rfl, hfull⟩
  · cases hcost : summaryCost count row with
    | none => exact .inr (.inr rfl)
    | some n =>
      simp only
      split
      · next hn =>
        unfold summaryCost at hcost
        split at hcost
        · cases hcost
        · next text htext =>
          split at hcost
          · cases hcost
          · obtain rfl := Option.some.inj hcost
            exact .inr (.inl ⟨text, _, rfl, htext, Nat.le_max_right _ _, hn⟩)
      · exact .inr (.inr rfl)

theorem place_le (count : String → Nat) (row : CanonicalRow F) (cap : Nat) (reason : DropReason) :
    (place count row cap reason).2 ≤ cap := by
  obtain ⟨he, hle⟩ | ⟨_, _, he, _, _, hle⟩ | he := place_cases count row cap reason
  · rw [he]; exact hle
  · rw [he]; exact hle
  · rw [he]; exact Nat.zero_le cap

theorem place_ne_unpacked (count : String → Nat) (row : CanonicalRow F) (cap : Nat) (reason : DropReason) :
    (place count row cap reason).1 ≠ .unpacked := by
  obtain ⟨he, _⟩ | ⟨_, _, he, _⟩ | he := place_cases count row cap reason <;>
    rw [he] <;> simp

/-- Placing the row of a hit gives a placement its row bears out. -/
private theorem placed_place {row : CanonicalRow F} {h : RecallHit F}
    (hrow : rowAt rows h.rowid = some row)
    (cap : Nat) (reason : DropReason) :
    Placed count rows { h with
      placement := (place count row cap reason).1, tokens := (place count row cap reason).2 } := by
  obtain ⟨he, _⟩ | ⟨text, n, he, htext, hn, _⟩ | he := place_cases count row cap reason
  · rw [he]
    exact ⟨fun _ => ⟨row, hrow, rfl⟩, nofun, nofun⟩
  · rw [he]
    exact ⟨nofun, fun _ => ⟨row, text, hrow, htext, hn⟩, nofun⟩
  · rw [he]
    exact ⟨nofun, nofun, fun _ => rfl⟩

/-- Replacing a hit that cost nothing by one whose tokens are added to the total. -/
theorem Packed.replace {pre rest : List (RecallHit F)} {hit : RecallHit F} {used : Nat}
    (h : Packed count budget rows ids (pre ++ hit :: rest) used) (hit' : RecallHit F)
    (hids : hit'.ids = hit.ids) (hfree : hit.tokens = 0) (hplaced : Placed count rows hit')
    (hfits : used + hit'.tokens ≤ budget) :
    Packed count budget rows ids (pre ++ hit' :: rest) (used + hit'.tokens) where
  ids_eq := by
    rw [← h.ids_eq]
    simp only [List.map_append, List.map_cons, hids]
  placed := fun x hx => by
    rcases List.mem_append.mp hx with hx | hx
    · exact h.placed x (List.mem_append_left _ hx)
    · rcases List.mem_cons.mp hx with rfl | hx
      · exact hplaced
      · exact h.placed x (List.mem_append_right _ (List.mem_cons_of_mem _ hx))
  total := by
    have htotal := h.total
    simp only [List.map_append, List.map_cons, List.sum_append, List.sum_cons] at htotal ⊢
    omega
  within := hfits

/-- An unpacked hit has cost nothing. -/
theorem Packed.unpacked_free {pre rest : List (RecallHit F)} {hit : RecallHit F} {used : Nat}
    (h : Packed count budget rows ids (pre ++ hit :: rest) used) (hp : hit.placement = .unpacked) :
    hit.tokens = 0 :=
  (h.placed hit (List.mem_append_right _ List.mem_cons_self)).free
    (by unfold RecallHit.injected; rw [hp])

/-- Marking a hit without a row as dropped costs nothing. -/
theorem Packed.unresolved {pre rest : List (RecallHit F)} {hit : RecallHit F} {used : Nat}
    (h : Packed count budget rows ids (pre ++ hit :: rest) used) (hfree : hit.tokens = 0) :
    Packed count budget rows ids
      (pre ++ { hit with placement := .dropped .unresolved } :: rest) used := by
  have hnew := h.replace { hit with placement := .dropped .unresolved } rfl hfree
    ⟨nofun, nofun, fun _ => hfree⟩ (by simp only [hfree]; exact h.within)
  simpa only [hfree, Nat.add_zero] using hnew

/-- Placing a hit within what is left of the budget. -/
theorem Packed.apply {pre rest : List (RecallHit F)} {hit : RecallHit F} {t : Totals}
    {row : CanonicalRow F} (h : Packed count budget rows ids (pre ++ hit :: rest) t.tokensUsed)
    (hfree : hit.tokens = 0) (hrow : rowAt rows hit.rowid = some row) (tier : Tier) {cap : Nat}
    (hcap : cap ≤ budget - t.tokensUsed) (reason : DropReason) :
    Packed count budget rows ids
      (pre ++ (apply hit tier (place count row cap reason) t).1 :: rest)
      (Recall.apply hit tier (place count row cap reason) t).2.tokensUsed := by
  refine h.replace (Recall.apply hit tier (place count row cap reason) t).1 rfl hfree
    (placed_place hrow cap reason) ?_
  have hle := place_le count row cap reason
  have hwithin := h.within
  simp only [Recall.apply]
  omega

theorem pinnedStep_keeps (pre : List (RecallHit F)) (hit : RecallHit F) (rest : List (RecallHit F))
    (t : Totals)
    (h : Packed count budget rows ids (pre ++ hit :: rest) t.tokensUsed ∧
      ∀ x ∈ hit :: rest, x.placement = .unpacked) :
    Packed count budget rows ids (pre ++ [(pinnedStep count budget rows hit t).1] ++ rest)
      (pinnedStep count budget rows hit t).2.tokensUsed ∧ ∀ x ∈ rest, x.placement = .unpacked := by
  obtain ⟨hpacked, hunpacked⟩ := h
  refine ⟨?_, fun x hx => hunpacked x (List.mem_cons_of_mem _ hx)⟩
  have hfree := hpacked.unpacked_free (hunpacked hit List.mem_cons_self)
  rw [List.append_assoc, List.singleton_append]
  unfold pinnedStep
  split
  · exact hpacked.unresolved hfree
  · next row hrow =>
    split
    · exact hpacked.apply hfree hrow row.tier (Nat.le_refl _) _
    · exact hpacked

theorem tierStep_keeps (tier : Tier) (pre : List (RecallHit F)) (hit : RecallHit F)
    (rest : List (RecallHit F)) (s : Totals × Nat)
    (h : Packed count budget rows ids (pre ++ hit :: rest) s.1.tokensUsed) :
    Packed count budget rows ids (pre ++ [(tierStep count budget rows tier hit s).1] ++ rest)
      (tierStep count budget rows tier hit s).2.1.tokensUsed := by
  rw [List.append_assoc, List.singleton_append]
  unfold tierStep
  split
  · exact h
  · next hp =>
    have hfree := h.unpacked_free (Classical.not_not.mp hp)
    split
    · exact h.unresolved hfree
    · next row hrow =>
      split
      · exact h
      · obtain ⟨t, available⟩ := s
        simp only
        split
        · next hle => exact h.apply hfree hrow row.tier hle _
        · exact h.apply hfree hrow row.tier (Nat.le_refl _) _

private theorem packTiers_keeps {shares : TierTokens} {tiers : List Tier} {carry : Nat}
    {hits : List (RecallHit F)} {t : Totals} (h : Packed count budget rows ids hits t.tokensUsed) :
    Packed count budget rows ids (packTiers count budget rows shares tiers carry hits t).1
      (packTiers count budget rows shares tiers carry hits t).2.tokensUsed := by
  induction tiers generalizing carry hits t with
  | nil => exact h
  | cons tier tiers ih =>
    have hpass := passHits_keeps (P := fun pre rest (s : Totals × Nat) =>
      Packed count budget rows ids (pre ++ rest) s.1.tokensUsed)
      (tierStep_keeps tier) [] hits (t, saturatingAdd (shares.get tier) carry) h
    simp only [List.append_nil, List.nil_append] at hpass
    exact ih hpass

/-! ## No hit is left unpacked -/

private theorem tierStep_unpacked {tier : Tier} {hit : RecallHit F} {s : Totals × Nat}
    (h : (tierStep count budget rows tier hit s).1.placement = .unpacked) :
    hit.placement = .unpacked ∧ (tierStep count budget rows tier hit s).1 = hit ∧
      ∃ row, rowAt rows hit.rowid = some row ∧ row.tier ≠ tier := by
  unfold tierStep at h ⊢
  split at h
  · next hp => exact absurd h hp
  · next hp =>
    rw [if_neg hp]
    split at h
    · cases h
    · next row hrow =>
      split at h
      · next htier =>
        rw [hrow]
        exact ⟨h, by simp only [if_pos htier], row, rfl, htier⟩
      · simp only [apply] at h
        split at h
        · exact absurd h (place_ne_unpacked count row _ _)
        · exact absurd h (place_ne_unpacked count row _ _)

/-- A hit that the tier passes leave unpacked has a row of no tier offered. -/
private theorem packTiers_unpacked {shares : TierTokens} {tiers : List Tier} {carry : Nat}
    {hits : List (RecallHit F)} {t : Totals} {h : RecallHit F}
    (hm : h ∈ (packTiers count budget rows shares tiers carry hits t).1)
    (hp : h.placement = .unpacked) :
    h ∈ hits ∧ ∀ tier ∈ tiers, ∃ row, rowAt rows h.rowid = some row ∧ row.tier ≠ tier := by
  induction tiers generalizing carry hits t with
  | nil => exact ⟨hm, nofun⟩
  | cons tier tiers ih =>
    obtain ⟨hpass, htiers⟩ := ih hm
    obtain ⟨hit, hhit, s, rfl⟩ := mem_passHits hpass
    obtain ⟨_, hsame, hrow⟩ := tierStep_unpacked hp
    rw [hsame] at htiers ⊢
    exact ⟨hhit, List.forall_mem_cons.mpr ⟨hrow, htiers⟩⟩

private theorem mem_TIER_ORDER (tier : Tier) : tier ∈ TIER_ORDER := by
  cases tier <;> decide

end

/-! ## The outcome -/

/-- The candidates in injection order, before any pass. -/
theorem sorted_packed (count : String → Nat) (budget : Nat) {hits : List (RecallHit F)}
    (rows : List (CanonicalRow F)) (hunpacked : ∀ h ∈ hits, h.placement = .unpacked ∧ h.tokens = 0) :
    Packed count budget rows ((sortHits (injectionOrder rows) hits).map RecallHit.ids)
        (sortHits (injectionOrder rows) hits) 0 ∧
      ∀ h ∈ sortHits (injectionOrder rows) hits, h.placement = .unpacked ∧ h.tokens = 0 := by
  have hsorted : ∀ h ∈ sortHits (injectionOrder rows) hits, h.placement = .unpacked ∧ h.tokens = 0 :=
    fun h hm => hunpacked h (mem_sortHits.mp hm)
  refine ⟨⟨rfl, fun h hm => placed_unpacked (hsorted h hm).1 (hsorted h hm).2, ?_, Nat.zero_le _⟩,
    hsorted⟩
  have hzero : ∀ n ∈ (sortHits (injectionOrder rows) hits).map RecallHit.tokens, n = 0 := by
    intro n hn
    obtain ⟨h, hm, rfl⟩ := List.mem_map.mp hn
    exact (hsorted h hm).2
  exact (List.sum_eq_zero hzero).symm

/-- Packing keeps the candidates, places each as its row bears out, and stays within the budget. -/
theorem pack_packed (count : String → Nat) (split : BudgetSplit F) (budget : Nat)
    {hits : List (RecallHit F)} (rows : List (CanonicalRow F))
    (hunpacked : ∀ h ∈ hits, h.placement = .unpacked ∧ h.tokens = 0) :
    Packed count budget rows ((sortHits (injectionOrder rows) hits).map RecallHit.ids)
      (pack count split budget hits rows).hits (pack count split budget hits rows).tokensUsed := by
  obtain ⟨hstart, hsorted⟩ := sorted_packed count budget rows hunpacked
  have hpinned := passHits_keeps (P := fun pre rest (t : Totals) =>
    Packed count budget rows ((sortHits (injectionOrder rows) hits).map RecallHit.ids) (pre ++ rest)
      t.tokensUsed ∧ ∀ x ∈ rest, x.placement = .unpacked)
    pinnedStep_keeps [] _ {} ⟨hstart, fun h hm => (hsorted h hm).1⟩
  simp only [List.nil_append, List.append_nil] at hpinned
  unfold pack
  exact packTiers_keeps hpinned.1

/-- Every candidate is placed, replaced by its summary or dropped. -/
theorem pack_settled {count : String → Nat} {split : BudgetSplit F} {budget : Nat}
    {hits : List (RecallHit F)} {rows : List (CanonicalRow F)} {h : RecallHit F}
    (hm : h ∈ (pack count split budget hits rows).hits) : h.placement ≠ .unpacked := by
  intro hp
  unfold pack at hm
  obtain ⟨_, htiers⟩ := packTiers_unpacked hm hp
  obtain ⟨row, hrow, _⟩ := htiers .working (mem_TIER_ORDER _)
  obtain ⟨row', hrow', hne⟩ := htiers row.tier (mem_TIER_ORDER _)
  rw [hrow] at hrow'
  exact hne (congrArg CanonicalRow.tier (Option.some.inj hrow').symm)

end AgosMemory.Recall
