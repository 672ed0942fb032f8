import AgosMemory.Eval.Harness
import AgosMemory.Library.Extended
import Mathlib.Algebra.BigOperators.Group.List.Basic
import Mathlib.Algebra.Order.BigOperators.Group.List
import Mathlib.Data.List.Dedup
import Mathlib.Tactic.FieldSimp
import Mathlib.Tactic.Linarith

/-!
# The eval gate

The scores are taken over exact numbers with NaN. As long as there is a case the sums are numbers, and
everything is arithmetic on counts: the gate counts what was returned, an outcome counts what was
relevant, and the two counts differ exactly by the repetitions among the relevant ids.
-/

namespace AgosMemory.Eval

open Library

variable {F : Type} [F64 F]

/-! ## Exact numbers -/

/-- A number as `f` prints it, and the special values. -/
def printed (f : ℚ → String) : Extended → String
  | .nan => "NaN"
  | .inf negative => if negative then "-inf" else "inf"
  | .fin a => f a

/-- The integer of a saturating cast. -/
def saturated (f : ℚ → Nat) : Extended → Nat
  | .nan => 0
  | .inf negative => if negative then 0 else 2 ^ 64 - 1
  | .fin a => f a

instance : F64 Extended where
  ofRat := .fin
  add := .add
  sub := .sub
  mul := .mul
  div := .div
  powf
    | .fin a, .fin b => .fin (a ^ b.floor)
    | _, _ => .nan
  lt := Extended.lt
  le := Extended.le
  roundToU64 := saturated F64.roundToU64
  ceilToU64 := saturated F64.ceilToU64
  fixed n := printed (F64.fixed n)
  display := printed F64.display
  fixed_plain n x := by
    have hnan : '"' ∉ "NaN".toList := by decide
    have hinf : '"' ∉ "-inf".toList ∧ '"' ∉ "inf".toList := by decide
    match x with
    | .nan => exact hnan
    | .inf true => exact hinf.1
    | .inf false => exact hinf.2
    | .fin a => exact F64.fixed_plain n a

/-- Sums of numbers. -/
def Sums.fin (s : Sums ℚ) : Sums Extended :=
  ⟨.fin s.precision, .fin s.«recall», .fin s.mrr, s.leaks⟩

private theorem count_ne_zero {xs : List String} (h : xs.isEmpty = false) : (xs.length : ℚ) ≠ 0 := by
  rw [Nat.cast_ne_zero]
  exact (List.length_pos_iff.mpr (List.isEmpty_eq_false_iff.mp h)).ne'

/-- A quotient of counts is a number, since nothing is divided by the length of an empty list. -/
private theorem div_count (n : Nat) {xs : List String} (h : xs.isEmpty = false) :
    F64.div (ofCount n : Extended) (ofCount xs.length) = .fin ((n : ℚ) / xs.length) :=
  Extended.div_fin _ (count_ne_zero h)

theorem Sums.add_fin (s : Sums ℚ) (r : CaseResult) : s.fin.add r = (s.add r).fin := by
  unfold Sums.add Sums.fin
  simp only [Sums.mk.injEq, and_true]
  refine ⟨?_, ?_, ?_⟩
  · split
    · rfl
    · next h => rw [div_count _ (Bool.eq_false_iff.mpr h)]; rfl
  · split
    · rfl
    · next h => rw [div_count _ (Bool.eq_false_iff.mpr h)]; rfl
  · split
    · rfl
    · next rank _ =>
      have hrank : F64.div (F64.ofRat 1 : Extended) (ofCount (rank + 1)) =
          .fin (1 / ((rank + 1 : Nat) : ℚ)) :=
        Extended.div_fin _ (Nat.cast_ne_zero.mpr (Nat.succ_ne_zero _))
      rw [hrank]
      rfl

theorem Sums.foldl_fin (results : List CaseResult) (s : Sums ℚ) :
    results.foldl Sums.add s.fin = (results.foldl Sums.add s).fin := by
  induction results generalizing s with
  | nil => rfl
  | cons r results ih => rw [List.foldl_cons, Sums.add_fin, ih, List.foldl_cons]

/-- As long as there is a case the aggregate is that of the rational numbers. -/
private theorem aggregate_fin {results : List CaseResult} (h : results ≠ []) :
    (Metrics.aggregate results : Metrics Extended) =
      let m : Metrics ℚ := Metrics.aggregate results
      ⟨.fin m.precision, .fin m.«recall», .fin m.mrr, m.leaks, m.cases⟩ := by
  have hlength : ((results.length : Nat) : ℚ) ≠ 0 :=
    Nat.cast_ne_zero.mpr (List.length_pos_iff.mpr h).ne'
  have hsums : results.foldl Sums.add (Sums.zero : Sums Extended) =
      (results.foldl Sums.add (Sums.zero : Sums ℚ)).fin := Sums.foldl_fin results Sums.zero
  unfold Metrics.aggregate
  rw [hsums]
  have hdiv : ∀ a : ℚ, F64.div (.fin a) (ofCount results.length : Extended) =
      .fin (a / (results.length : Nat)) := fun a => Extended.div_fin a hlength
  simp only [Sums.fin, hdiv]
  rfl

/-! ## Counts -/

/-- The returned ids that are relevant are counted once each, the relevant ids that were returned as
often as they are listed. -/
private theorem hits_le {returned relevant : List String} (h : returned.Nodup) :
    (returned.countP fun id => id ∈ relevant) ≤ relevant.countP fun id => id ∈ returned := by
  rw [List.countP_eq_length_filter, List.countP_eq_length_filter]
  refine (List.subperm_of_subset (h.sublist List.filter_sublist) fun id hid => ?_).length_le
  obtain ⟨hreturned, hrelevant⟩ := List.mem_filter.mp hid
  exact List.mem_filter.mpr ⟨of_decide_eq_true hrelevant, decide_eq_true hreturned⟩

private theorem hits_eq_iff {returned relevant : List String} (h : returned.Nodup) :
    (returned.countP fun id => id ∈ relevant) = (relevant.countP fun id => id ∈ returned) ↔
      ∀ id ∈ returned, relevant.count id ≤ 1 := by
  rw [List.countP_eq_length_filter, List.countP_eq_length_filter]
  have hperm : (returned.filter fun id => id ∈ relevant).Perm
      (relevant.filter fun id => id ∈ returned).dedup := by
    refine (List.perm_ext_iff_of_nodup (h.sublist List.filter_sublist) (List.nodup_dedup _)).mpr
      fun id => ?_
    rw [List.mem_dedup, List.mem_filter, List.mem_filter, decide_eq_true_eq, decide_eq_true_eq,
      and_comm]
  rw [hperm.length_eq]
  have hsub := List.dedup_sublist (relevant.filter fun id => id ∈ returned)
  have hcount : ∀ id ∈ returned,
      (relevant.filter fun id => id ∈ returned).count id = relevant.count id := fun id hid =>
    List.count_filter (decide_eq_true hid)
  constructor
  · intro heq id hid
    have hnodup := hsub.eq_of_length heq ▸ List.nodup_dedup _
    rw [← hcount id hid]
    exact List.nodup_iff_count_le_one.mp hnodup id
  · intro hone
    have hnodup : (relevant.filter fun id => id ∈ returned).Nodup := by
      refine List.nodup_iff_count_le_one.mpr fun id => ?_
      by_cases hid : id ∈ returned
      · rw [hcount id hid]
        exact hone id hid
      · have hzero : (relevant.filter fun id => id ∈ returned).count id = 0 :=
          List.count_eq_zero.mpr fun hmem => hid (of_decide_eq_true (List.mem_filter.mp hmem).2)
        rw [hzero]
        exact Nat.zero_le 1
    rw [hnodup.dedup]

/-! ## Shares -/

/-- The recall that a case adds to the sum. -/
def recallShare (r : CaseResult) : ℚ :=
  if r.relevant.isEmpty then 0
  else (r.returned.countP fun id => id ∈ r.relevant) / r.relevant.length

def precisionShare (r : CaseResult) : ℚ :=
  if r.returned.isEmpty then 0
  else (r.returned.countP fun id => id ∈ r.relevant) / r.returned.length

def mrrShare (r : CaseResult) : ℚ :=
  match r.returned.findIdx? fun id => id ∈ r.relevant with
  | none => 0
  | some rank => 1 / ((rank + 1 : Nat) : ℚ)

theorem Sums.add_shares (s : Sums ℚ) (r : CaseResult) :
    s.add r = ⟨s.precision + precisionShare r, s.«recall» + recallShare r, s.mrr + mrrShare r,
      s.leaks + r.returned.countP fun id => id ∈ r.forbidden⟩ := by
  unfold Sums.add precisionShare recallShare mrrShare
  simp only [Sums.mk.injEq, and_true]
  refine ⟨?_, ?_, ?_⟩
  · split
    · exact (add_zero _).symm
    · rfl
  · split
    · exact (add_zero _).symm
    · rfl
  · cases r.returned.findIdx? fun id => decide (id ∈ r.relevant) with
    | none => exact (add_zero _).symm
    | some rank => rfl

/-- A field of the sums that grows by a share of each case. -/
theorem Sums.foldl_share {M : Type} [AddMonoid M] {f : Sums ℚ → M} {share : CaseResult → M}
    (h : ∀ s r, f (Sums.add s r) = f s + share r) (results : List CaseResult) (s : Sums ℚ) :
    f (results.foldl Sums.add s) = f s + (results.map share).sum := by
  induction results generalizing s with
  | nil => exact (add_zero _).symm
  | cons r results ih => rw [List.foldl_cons, ih, h, List.map_cons, List.sum_cons, add_assoc]

/-- A share of a case is a number between zero and one. -/
def Fraction (x : ℚ) : Prop := 0 ≤ x ∧ x ≤ 1

private theorem fraction_div {n m : Nat} (h : n ≤ m) : Fraction ((n : ℚ) / m) :=
  ⟨div_nonneg (Nat.cast_nonneg n) (Nat.cast_nonneg m),
    div_le_one_of_le₀ (Nat.cast_le.mpr h) (Nat.cast_nonneg m)⟩

private theorem fraction_zero : Fraction 0 := ⟨le_rfl, zero_le_one⟩

private theorem precisionShare_fraction (r : CaseResult) : Fraction (precisionShare r) := by
  unfold precisionShare
  split
  · exact fraction_zero
  · exact fraction_div List.countP_le_length

private theorem recallShare_fraction {r : CaseResult} (h : r.returned.Nodup) :
    Fraction (recallShare r) := by
  unfold recallShare
  split
  · exact fraction_zero
  · exact fraction_div ((hits_le h).trans List.countP_le_length)

private theorem mrrShare_fraction (r : CaseResult) : Fraction (mrrShare r) := by
  unfold mrrShare
  split
  · exact fraction_zero
  · next rank _ =>
    have hone := fraction_div (Nat.succ_le_succ (Nat.zero_le rank))
    rwa [Nat.cast_one] at hone

private theorem fraction_mean {xs : List ℚ} (h : ∀ x ∈ xs, Fraction x) :
    Fraction (xs.sum / xs.length) := by
  have hle := List.sum_le_card_nsmul xs 1 fun x hx => (h x hx).2
  rw [nsmul_one] at hle
  exact ⟨div_nonneg (List.sum_nonneg fun x hx => (h x hx).1) (Nat.cast_nonneg _),
    div_le_one_of_le₀ hle (Nat.cast_nonneg _)⟩

/-- The aggregate is the mean of the shares. -/
private theorem aggregate_shares (results : List CaseResult) :
    (Metrics.aggregate results : Metrics ℚ) =
      ⟨(results.map precisionShare).sum / results.length, (results.map recallShare).sum / results.length,
        (results.map mrrShare).sum / results.length,
        (results.map fun r => r.returned.countP fun id => id ∈ r.forbidden).sum, results.length⟩ := by
  have hprecision : (results.foldl Sums.add Sums.zero).precision =
      0 + (results.map precisionShare).sum :=
    Sums.foldl_share (fun s r => by rw [Sums.add_shares]) results Sums.zero
  have hrecall : (results.foldl Sums.add Sums.zero).«recall» = 0 + (results.map recallShare).sum :=
    Sums.foldl_share (fun s r => by rw [Sums.add_shares]) results Sums.zero
  have hmrr : (results.foldl Sums.add Sums.zero).mrr = 0 + (results.map mrrShare).sum :=
    Sums.foldl_share (fun s r => by rw [Sums.add_shares]) results Sums.zero
  have hleaks : (results.foldl Sums.add (Sums.zero : Sums ℚ)).leaks =
      0 + (results.map fun r => r.returned.countP fun id => id ∈ r.forbidden).sum :=
    Sums.foldl_share (fun s r => by rw [Sums.add_shares]) results Sums.zero
  rw [zero_add] at hprecision hrecall hmrr hleaks
  unfold Metrics.aggregate
  simp only [hprecision, hrecall, hmrr, hleaks]
  rfl

/-! ## Outcomes -/

/-- An outcome as the aggregation reads it. -/
def CaseOutcome.result (o : CaseOutcome) : CaseResult := ⟨o.returned, o.relevant, o.forbidden⟩

/-- What the case adds to the three sums, and its leaks. -/
def CaseOutcome.contribution (o : CaseOutcome) : Sums F := Sums.add Sums.zero o.result

/-- The mean of one score per outcome. -/
def mean (xs : List F) : F := F64.div (xs.foldl F64.add (F64.ofRat 0)) (ofCount xs.length)

/-- A number between zero and one. -/
def Score (x : Extended) : Prop := ∃ q, x = .fin q ∧ Fraction q

/-- A number that is at least the threshold. -/
def Reaches (x threshold : Extended) : Prop :=
  ∃ q, x = .fin q ∧ Extended.le threshold (.fin q) = true

/-- What is asked of the gate, for the outcomes of one run. -/
structure Sound (outcomes : List CaseOutcome) (m : Metrics Extended) : Prop where
  scores : Score m.precision ∧ Score m.«recall» ∧ Score m.mrr
  complete : ∀ o ∈ outcomes, (o.contribution : Sums Extended).«recall» = .fin 1 ↔ o.missed = []
  precision : m.precision = mean (outcomes.map CaseOutcome.precision)
  recalled : m.«recall» = mean (outcomes.map CaseOutcome.«recall»)
  gate : ∀ minPrecision minRecall minMrr : Extended,
    minPrecision ≠ .nan → minRecall ≠ .nan → minMrr ≠ .nan →
    m.check minPrecision minRecall minMrr = .ok () →
    (∀ o ∈ outcomes, o.leaked = []) ∧ Reaches m.precision minPrecision ∧
      Reaches m.«recall» minRecall ∧ Reaches m.mrr minMrr

private theorem precision_fin (o : CaseOutcome) :
    (o.precision : Extended) = .fin (precisionShare o.result) := by
  unfold CaseOutcome.precision precisionShare CaseOutcome.result
  split
  · rfl
  · next h => exact div_count _ (Bool.eq_false_iff.mpr h)

/-- The recall of an outcome by itself. -/
def ownRecall (o : CaseOutcome) : ℚ :=
  if o.relevant.isEmpty then 0
  else (o.relevant.countP fun id => id ∈ o.returned) / o.relevant.length

private theorem recall_fin (o : CaseOutcome) : (o.«recall» : Extended) = .fin (ownRecall o) := by
  unfold CaseOutcome.«recall» ownRecall
  split
  · rfl
  · next h => exact div_count _ (Bool.eq_false_iff.mpr h)

private theorem contribution_recall (o : CaseOutcome) :
    (o.contribution : Sums Extended).«recall» = .fin (recallShare o.result) := by
  have hfin : (o.contribution : Sums Extended) = (Sums.zero.add o.result).fin :=
    Sums.add_fin (Sums.zero : Sums ℚ) o.result
  rw [hfin, Sums.add_shares]
  exact congrArg Extended.fin (zero_add _)

private theorem mean_fin {xs : List ℚ} (h : xs ≠ []) :
    mean (xs.map Extended.fin) = .fin (xs.sum / xs.length) := by
  have hfold : ∀ (ys : List ℚ) (a : ℚ),
      (ys.map Extended.fin).foldl F64.add (.fin a) = .fin (a + ys.sum) := by
    intro ys
    induction ys with
    | nil => exact fun a => congrArg Extended.fin (add_zero a).symm
    | cons y ys ih =>
      intro a
      rw [List.map_cons, List.foldl_cons, List.sum_cons, ← add_assoc]
      exact ih (a + y)
  have hlength : ((xs.length : Nat) : ℚ) ≠ 0 :=
    Nat.cast_ne_zero.mpr (List.length_pos_iff.mpr h).ne'
  have hsum := hfold xs 0
  rw [zero_add] at hsum
  unfold mean
  rw [List.length_map]
  exact (congrArg (F64.div · _) hsum).trans (Extended.div_fin _ hlength)

/-- The aggregate of the outcomes of a run that has a case. -/
private theorem aggregate_outcomes {outcomes : List CaseOutcome} (h : outcomes ≠ []) :
    (Metrics.aggregate (aggregatedResults outcomes) : Metrics Extended) =
      ⟨.fin ((outcomes.map fun o => precisionShare o.result).sum / outcomes.length),
        .fin ((outcomes.map fun o => recallShare o.result).sum / outcomes.length),
        .fin ((outcomes.map fun o => mrrShare o.result).sum / outcomes.length),
        (outcomes.map fun o => o.returned.countP fun id => id ∈ o.forbidden).sum,
        outcomes.length⟩ := by
  have hresults : aggregatedResults outcomes = outcomes.map CaseOutcome.result := rfl
  have hne : outcomes.map CaseOutcome.result ≠ [] := fun hnil => h (List.map_eq_nil_iff.mp hnil)
  rw [hresults, aggregate_fin hne, aggregate_shares]
  simp only [List.map_map, List.length_map]
  rfl

/-! ## The gate -/

private theorem missed_nil_iff {case : EvalCase} {o : CaseOutcome} (h : Produced case o) :
    o.missed = [] ↔ (o.relevant.countP fun id => id ∈ o.returned) = o.relevant.length := by
  have hmissed : o.missed = o.relevant.filter fun id => id ∉ o.returned := by
    rw [h.eq]
    rfl
  rw [hmissed, List.filter_eq_nil_iff, List.countP_eq_length]
  simp

private theorem leaked_nil_iff {case : EvalCase} {o : CaseOutcome} (h : Produced case o) :
    o.leaked = [] ↔ (o.returned.countP fun id => id ∈ o.forbidden) = 0 := by
  have hleaked : o.leaked = o.forbidden.filter fun id => id ∈ o.returned := by
    rw [h.eq]
    rfl
  rw [hleaked, List.filter_eq_nil_iff, List.countP_eq_zero]
  simp only [decide_eq_true_eq]
  exact ⟨fun hnone id hreturned hforbidden => hnone id hforbidden hreturned,
    fun hnone id hforbidden hreturned => hnone id hreturned hforbidden⟩

/-- The two counts of a case, and which ids they differ by. -/
private theorem share_le {case : EvalCase} {o : CaseOutcome} (h : Produced case o)
    (hrelevant : o.relevant ≠ []) : recallShare o.result ≤ ownRecall o ∧
      (recallShare o.result = ownRecall o ↔ ∀ id ∈ o.returned, o.relevant.count id ≤ 1) := by
  have hempty : o.relevant.isEmpty = false := List.isEmpty_eq_false_iff.mpr hrelevant
  have hlength : (0 : ℚ) < (o.relevant.length : Nat) :=
    Nat.cast_pos.mpr (List.length_pos_iff.mpr hrelevant)
  have hshare : recallShare o.result =
      ((o.returned.countP fun id => id ∈ o.relevant : Nat) : ℚ) / (o.relevant.length : Nat) :=
    if_neg (Bool.eq_false_iff.mp hempty)
  have hown : ownRecall o =
      ((o.relevant.countP fun id => id ∈ o.returned : Nat) : ℚ) / (o.relevant.length : Nat) :=
    if_neg (Bool.eq_false_iff.mp hempty)
  rw [hshare, hown]
  refine ⟨(div_le_div_iff_of_pos_right hlength).mpr (Nat.cast_le.mpr (hits_le h.nodup)), ?_⟩
  rw [div_left_inj' hlength.ne', Nat.cast_inj, hits_eq_iff h.nodup]

private theorem ownRecall_one_iff {case : EvalCase} {o : CaseOutcome} (h : Produced case o)
    (hrelevant : o.relevant ≠ []) : ownRecall o = 1 ↔ o.missed = [] := by
  have hlength : ((o.relevant.length : Nat) : ℚ) ≠ 0 :=
    Nat.cast_ne_zero.mpr (List.length_pos_iff.mpr hrelevant).ne'
  have hown : ownRecall o =
      ((o.relevant.countP fun id => id ∈ o.returned : Nat) : ℚ) / (o.relevant.length : Nat) :=
    if_neg (Bool.eq_false_iff.mp (List.isEmpty_eq_false_iff.mpr hrelevant))
  rw [hown, div_eq_one_iff_eq hlength, Nat.cast_inj, missed_nil_iff h]

private theorem reaches_of_check {q : ℚ} {threshold : Extended} (hnan : threshold ≠ .nan)
    (h : ¬ F64.lt (.fin q) threshold = true) : Reaches (.fin q) threshold := by
  refine ⟨q, rfl, ?_⟩
  match threshold with
  | .nan => exact absurd rfl hnan
  | .inf true => rfl
  | .inf false => exact absurd rfl h
  | .fin t =>
    refine decide_eq_true (not_lt.mp fun hlt => h ?_)
    exact decide_eq_true hlt

/-- What a check that passes has compared. -/
theorem check_ok {m : Metrics F} {minPrecision minRecall minMrr : F}
    (h : m.check minPrecision minRecall minMrr = .ok ()) :
    m.leaks = 0 ∧ ¬ F64.lt m.precision minPrecision = true ∧ ¬ F64.lt m.«recall» minRecall = true ∧
      ¬ F64.lt m.mrr minMrr = true := by
  unfold Metrics.check at h
  split at h
  · cases h
  · next hleaks =>
    split at h
    · cases h
    · next hprecision =>
      split at h
      · cases h
      · next hrecall =>
        split at h
        · cases h
        · next hmrr => exact ⟨not_not.mp hleaks, hprecision, hrecall, hmrr⟩

/-- The threshold that a comparison with `x < threshold` asks for. -/
def asked : Extended → Extended
  | .nan => .inf true
  | threshold => threshold

private theorem lt_asked (x threshold : Extended) :
    F64.lt x (asked threshold) = F64.lt x threshold := by
  match threshold with
  | .nan => cases x with
    | inf s => exact Bool.and_false s
    | nan | fin => rfl
  | .inf _ | .fin _ => rfl

/-- A NaN threshold asks for nothing, like one at negative infinity. -/
theorem check_asked (m : Metrics Extended) (minPrecision minRecall minMrr : Extended) :
    m.check minPrecision minRecall minMrr = .ok () ↔
      m.check (asked minPrecision) (asked minRecall) (asked minMrr) = .ok () := by
  unfold Metrics.check
  simp only [lt_asked]
  split_ifs <;> simp

/-- Every outcome of a run belongs to a case, and has something relevant. -/
private theorem outcome_of_run {labs : Nat → Lab F} {cases : List EvalCase} {r : EvalRun F}
    (hvalid : validateCases cases = .ok ()) (hrun : run labs cases = .ok r) :
    (r.outcomes = [] ↔ cases = []) ∧
      ∀ o ∈ r.outcomes, o.relevant ≠ [] ∧ ∃ case, Produced case o := by
  have houtcomes : runAll labs cases 0 = .ok r.outcomes := by
    unfold run at hrun
    cases hall : runAll labs cases 0 with
    | error e =>
      rw [hall] at hrun
      cases hrun
    | ok outcomes =>
      rw [hall] at hrun
      rw [← Except.ok.inj hrun]
  have hproduced := runAll_produced houtcomes
  constructor
  · rw [← List.length_eq_zero_iff, ← List.length_eq_zero_iff, hproduced.length_eq]
  · intro o ho
    obtain ⟨i, rfl⟩ := List.mem_iff_get.mp ho
    have hi : i.val < cases.length := hproduced.length_eq.symm ▸ i.isLt
    have hp := (List.forall₂_iff_get.mp hproduced).2 i.val hi i.isLt
    refine ⟨?_, cases.get ⟨i.val, hi⟩, hp⟩
    have hrelevant := relevant_of_validate hvalid _ (List.get_mem cases ⟨i.val, hi⟩)
    have heq : (r.outcomes.get i).relevant = (cases.get ⟨i.val, hi⟩).relevant :=
      congrArg CaseOutcome.relevant hp.eq
    rwa [heq]

/-- Over the outcomes of a run with a case, the gate is sound as soon as the two recalls agree. -/
private theorem sound_iff {outcomes : List CaseOutcome} (hne : outcomes ≠ [])
    (hcases : ∀ o ∈ outcomes, o.relevant ≠ [] ∧ ∃ case, Produced case o) :
    Sound outcomes (Metrics.aggregate (aggregatedResults outcomes)) ↔
      ∀ o ∈ outcomes, ∀ id ∈ o.returned, o.relevant.count id ≤ 1 := by
  have hlength : ((outcomes.length : Nat) : ℚ) ≠ 0 :=
    Nat.cast_ne_zero.mpr (List.length_pos_iff.mpr hne).ne'
  have hrecalls : outcomes.map (CaseOutcome.«recall» : CaseOutcome → Extended) =
      (outcomes.map ownRecall).map Extended.fin := by
    rw [List.map_map]
    exact List.map_congr_left fun o _ => recall_fin o
  have hprecisions : outcomes.map (CaseOutcome.precision : CaseOutcome → Extended) =
      (outcomes.map fun o => precisionShare o.result).map Extended.fin := by
    rw [List.map_map]
    exact List.map_congr_left fun o _ => precision_fin o
  rw [aggregate_outcomes hne]
  constructor
  · intro h o ho
    obtain ⟨hrelevant, case, hp⟩ := hcases o ho
    refine (share_le hp hrelevant).2.mp (not_not.mp fun hdiffer => ?_)
    -- one share below its recall makes the aggregate smaller than the mean
    have hlt : (outcomes.map fun o => recallShare o.result).sum < (outcomes.map ownRecall).sum :=
      List.sum_lt_sum _ _ (fun o ho => (share_le (hcases o ho).2.choose_spec (hcases o ho).1).1)
        ⟨o, ho, lt_of_le_of_ne (share_le hp hrelevant).1 hdiffer⟩
    have hmean := h.recalled
    rw [hrecalls, mean_fin (by simpa using hne), List.length_map] at hmean
    exact hlt.ne (div_left_inj' hlength |>.mp (Extended.fin.inj hmean))
  · intro hone
    have hshares : ∀ o ∈ outcomes, recallShare o.result = ownRecall o := fun o ho =>
      (share_le (hcases o ho).2.choose_spec (hcases o ho).1).2.mpr (hone o ho)
    have hscore : ∀ share : CaseOutcome → ℚ, (∀ o ∈ outcomes, Fraction (share o)) →
        Score (.fin ((outcomes.map share).sum / outcomes.length)) := by
      intro share hshare
      refine ⟨_, rfl, ?_⟩
      have hmean := fraction_mean (List.forall_mem_map.mpr hshare)
      rwa [List.length_map] at hmean
    refine ⟨⟨hscore _ fun o _ => precisionShare_fraction _, hscore _ fun o ho => ?_,
      hscore _ fun o _ => mrrShare_fraction _⟩, fun o ho => ?_, ?_, ?_, ?_⟩
    · exact recallShare_fraction (hcases o ho).2.choose_spec.nodup
    · rw [contribution_recall, hshares o ho, Extended.fin.injEq]
      exact ownRecall_one_iff (hcases o ho).2.choose_spec (hcases o ho).1
    · rw [hprecisions, mean_fin (by simpa using hne), List.length_map]
    · rw [hrecalls, mean_fin (by simpa using hne), List.length_map, List.map_congr_left hshares]
    · intro minPrecision minRecall minMrr hp hr hq hok
      obtain ⟨hleaks, hprecision, hrecall, hmrr⟩ := check_ok hok
      refine ⟨fun o ho => ?_, reaches_of_check hp hprecision, reaches_of_check hr hrecall,
        reaches_of_check hq hmrr⟩
      refine (leaked_nil_iff (hcases o ho).2.choose_spec).mpr ?_
      exact List.sum_eq_zero_iff.mp hleaks _ (List.mem_map_of_mem ho)

/-- The gate is sound on a run exactly when there is a case and no returned id is listed twice among
the relevant ids of its case. -/
theorem gate_sound_iff (labs : Nat → Lab F) (cases : List EvalCase) (r : EvalRun F)
    (hvalid : validateCases cases = .ok ()) (hrun : run labs cases = .ok r) :
    Sound r.outcomes (Metrics.aggregate (aggregatedResults r.outcomes)) ↔
      cases ≠ [] ∧ ∀ o ∈ r.outcomes, ∀ id ∈ o.returned, o.relevant.count id ≤ 1 := by
  obtain ⟨hempty, hcases⟩ := outcome_of_run hvalid hrun
  by_cases hnil : cases = []
  · refine ⟨fun h => ?_, fun h => absurd hnil h.1⟩
    -- with no case every aggregate is zero over zero
    obtain ⟨⟨q, hq, _⟩, _⟩ := h.scores
    rw [hempty.mpr hnil] at hq
    cases hq
  · rw [sound_iff (fun h => hnil (hempty.mp h)) hcases]
    exact ⟨fun h => ⟨hnil, h⟩, And.right⟩

/-! ## One run -/

/-- A lab with no vector leg, whose keyword leg lists every row. -/
def sampleLab : Lab ℚ where
  env := sampleEnv
  emb := sampleEmbedder
  agentId := "eval"
  embedDim := 1
  now := 0
  queryVec := none
  legs db _ _ _ := .ok ([], db.memories.map fun m => (m.id, m.publicId, .semantic, .trusted))
  pendingThreshold := 0
  dedupThreshold := 1 / 2
  «recall» := Recall.sampleQuery

def sampleCase (relevant : List String) : EvalCase where
  id := "c"
  query := "sky"
  relevant
  corpus := [{ id := "a", text := "sky" }, { id := "b", text := "water" }]

private theorem sampleCase_runs :
    (run (fun _ => sampleLab) [sampleCase ["a", "b"]]).map EvalRun.outcomes =
    .ok [outcomeOf (sampleCase ["a", "b"]) ["a", "b"]] := by
  decide +kernel

theorem gate_sound_sample : validateCases [sampleCase ["a", "b"]] = .ok () ∧
    ∃ r, run (fun _ => sampleLab) [sampleCase ["a", "b"]] = .ok r ∧
      Sound r.outcomes (Metrics.aggregate (aggregatedResults r.outcomes)) := by
  have hvalid : validateCases [sampleCase ["a", "b"]] = .ok () := by decide +kernel
  have houtcomes := sampleCase_runs
  cases hrun : run (fun _ => sampleLab) [sampleCase ["a", "b"]] with
  | error e =>
    rw [hrun] at houtcomes
    cases houtcomes
  | ok r =>
    rw [hrun] at houtcomes
    refine ⟨hvalid, r, rfl, (gate_sound_iff _ _ r hvalid hrun).mpr ⟨List.cons_ne_nil _ _, ?_⟩⟩
    rw [Except.ok.inj houtcomes]
    decide +kernel

/-- Without a case every score is NaN, and the gate passes it against any threshold. With an id listed
twice a case that missed nothing scores a half. -/
theorem gate_unsound :
    (validateCases [] = .ok () ∧
      run (fun _ => sampleLab) [] = .ok ⟨Metrics.aggregate (aggregatedResults []), []⟩ ∧
      (Metrics.aggregate (aggregatedResults []) : Metrics Extended).precision = .nan ∧
      (Metrics.aggregate (aggregatedResults []) : Metrics Extended).check (.fin 1) (.fin 1) (.fin 1) =
        .ok ()) ∧
    (validateCases [sampleCase ["a", "a"]] = .ok () ∧
      (run (fun _ => sampleLab) [sampleCase ["a", "a"]]).map EvalRun.outcomes =
        .ok [outcomeOf (sampleCase ["a", "a"]) ["a", "b"]] ∧
      (outcomeOf (sampleCase ["a", "a"]) ["a", "b"]).missed = [] ∧
      (Metrics.aggregate (aggregatedResults [outcomeOf (sampleCase ["a", "a"]) ["a", "b"]]) :
        Metrics Extended).«recall» = .fin (1 / 2)) := by
  refine ⟨⟨rfl, rfl, rfl, rfl⟩, ?_, ?_, ?_, ?_⟩
  · decide +kernel
  · decide +kernel
  · decide +kernel
  · decide +kernel

end AgosMemory.Eval
