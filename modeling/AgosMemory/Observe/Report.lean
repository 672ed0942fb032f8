import AgosMemory.Observe.Ledger

/-!
# The cost report adds up

The report asks for the same sums twice, over all rows in its scope and by purpose. An integer sum is exact
or an error, so a report that is there at all agrees with itself.
-/

namespace AgosMemory.Ledger

variable {F : Type} [F64 F]

/-! ## Sums -/

theorem sumNat_eq (column : List Nat) : sumNat column =
    if column.sum < 2 ^ 63 then .ok (column.sum : Int) else .error (.storage "integer overflow") := by
  suffices h : ∀ (l : List Nat) (n : Nat), n < 2 ^ 63 →
      (l.map fun n : Nat => (n : Int)).foldlM addI64 (n : Int) =
        if n + l.sum < 2 ^ 63 then .ok ((n + l.sum : Nat) : Int)
        else .error (.storage "integer overflow") by
    have hsum := h column 0 (by decide)
    rw [Nat.zero_add] at hsum
    exact hsum
  intro l
  induction l with
  | nil =>
    intro n hn
    rw [List.sum_nil, Nat.add_zero, if_pos hn]
    rfl
  | cons m l ih =>
    intro n hn
    rw [List.map_cons, List.foldlM_cons, List.sum_cons]
    unfold addI64
    by_cases hm : n + m < 2 ^ 63
    · have hin : InI64 ((n : Int) + (m : Int)) := by
        unfold InI64
        omega
      rw [if_pos hin]
      have hrest := ih (n + m) hm
      rw [Nat.cast_add] at hrest
      refine hrest.trans ?_
      rw [Nat.add_assoc]
    · have hout : ¬ InI64 ((n : Int) + (m : Int)) := by
        unfold InI64
        omega
      rw [if_neg hout, if_neg (by omega)]
      rfl

private theorem sumNat_ok {column : List Nat} {n : Int} (h : sumNat column = .ok n) :
    n.toNat = column.sum := by
  rw [sumNat_eq] at h
  split at h
  · rw [← Except.ok.inj h, Int.toNat_natCast]
  · cases h

private theorem sumNat_lt {column : List Nat} {n : Int} (h : sumNat column = .ok n) :
    column.sum < 2 ^ 63 := by
  rw [sumNat_eq] at h
  split at h
  · assumption
  · cases h

/-- What holds of each element holds of the list that `mapM` makes of them. -/
private theorem mapM_ok_map {A B C E : Type} {f : A → Except E B} {g : B → C} {v : A → C}
    (hf : ∀ a b, f a = .ok b → g b = v a) {l : List A} {ys : List B} (h : l.mapM f = .ok ys) :
    ys.map g = l.map v := by
  induction l generalizing ys with
  | nil =>
    cases h
    rfl
  | cons a l ih =>
    rw [List.mapM_cons] at h
    cases ha : f a with
    | error e =>
      rw [ha] at h
      cases h
    | ok b =>
      cases hl : l.mapM f with
      | error e =>
        rw [ha, hl] at h
        cases h
      | ok bs =>
        rw [ha, hl] at h
        cases h
        rw [List.map_cons, List.map_cons, hf a b ha, ih hl]

/-- Leaving out what counts for nothing. -/
private theorem sum_filter_of_zero {A : Type} (l : List A) (p : A → Bool) (f : A → Nat)
    (h : ∀ a ∈ l, p a = false → f a = 0) : ((l.filter p).map f).sum = (l.map f).sum := by
  induction l with
  | nil => rfl
  | cons a l ih =>
    have hrest := ih fun b hb => h b (List.mem_cons_of_mem _ hb)
    rw [List.map_cons, List.sum_cons, ← hrest]
    cases hp : p a with
    | true => rw [List.filter_cons_of_pos hp, List.map_cons, List.sum_cons]
    | false => rw [List.filter_cons_of_neg (by simp [hp]), h a List.mem_cons_self hp, Nat.zero_add]

/-! ## Groups -/

/-- The rows of one purpose. -/
def ofPurpose (rows : List (LlmCall F)) (p : Purpose) : List (LlmCall F) :=
  rows.filter fun c => c.purpose == p

/-- Each purpose is in the list once. -/
private theorem sum_of_purpose (q : Purpose) (x : Nat) :
    (PURPOSES.map fun p => if q == p then x else 0).sum = x := by
  cases q <;> simp [PURPOSES]

omit [F64 F] in
/-- Every row has one purpose, and the purposes are all there. -/
private theorem sum_purposes (rows : List (LlmCall F)) (g : LlmCall F → Nat) :
    (PURPOSES.map fun p => ((ofPurpose rows p).map g).sum).sum = (rows.map g).sum := by
  induction rows with
  | nil => rfl
  | cons c rows ih =>
    have hsplit : ∀ p, ((ofPurpose (c :: rows) p).map g).sum =
        (if c.purpose == p then g c else 0) + ((ofPurpose rows p).map g).sum := by
      intro p
      unfold ofPurpose
      rw [List.filter_cons]
      split
      · rw [List.map_cons, List.sum_cons]
      · rw [Nat.zero_add]
    rw [List.map_cons, List.sum_cons, ← ih, List.map_congr_left fun p _ => hsplit p, List.sum_map_add,
      sum_of_purpose]

omit [F64 F] in
/-- The sums of the groups are the sum of all rows: a purpose without rows has no group and counts for
nothing. -/
private theorem sum_groups (rows : List (LlmCall F)) (g : LlmCall F → Nat) :
    ((PURPOSES.filter fun p => rows.any fun c => c.purpose == p).map fun p =>
      ((ofPurpose rows p).map g).sum).sum = (rows.map g).sum := by
  rw [← sum_purposes rows g]
  refine sum_filter_of_zero _ _ _ fun p _ hnone => ?_
  have hempty : ofPurpose rows p = [] := List.filter_eq_nil_iff.mpr fun c hc hp =>
    absurd hp (List.any_eq_false.mp hnone c hc)
  rw [hempty]
  rfl

/-- What the rollup counts. -/
structure Counts (rows : List (LlmCall F)) (r : PurposeCost F) : Prop where
  calls : r.calls = rows.length
  failed : r.failedCalls = (rows.map fun c => if c.ok then 0 else 1).sum
  prompt : r.promptTokens = (rows.map LlmCall.promptTokens).sum
  completion : r.completionTokens = (rows.map LlmCall.completionTokens).sum
  total : r.totalTokens = (rows.map LlmCall.totalTokens).sum
  fits : r.totalTokens < 2 ^ 63

private theorem rollup_ok {agg : Aggregates F} {purpose : String} {rows : List (LlmCall F)}
    {r : PurposeCost F} (h : rollup agg purpose rows = .ok r) : r.purpose = purpose ∧ Counts rows r := by
  unfold rollup at h
  cases hfailed : sumNat (rows.map fun c => if c.ok then 0 else 1) with
  | error e => rw [hfailed] at h; cases h
  | ok failed =>
  cases hprompt : sumNat (rows.map LlmCall.promptTokens) with
  | error e => rw [hfailed, hprompt] at h; cases h
  | ok prompt =>
  cases hcompletion : sumNat (rows.map LlmCall.completionTokens) with
  | error e => rw [hfailed, hprompt, hcompletion] at h; cases h
  | ok completion =>
  cases htotal : sumNat (rows.map LlmCall.totalTokens) with
  | error e => rw [hfailed, hprompt, hcompletion, htotal] at h; cases h
  | ok total =>
    rw [hfailed, hprompt, hcompletion, htotal] at h
    cases h
    exact ⟨rfl, rfl, sumNat_ok hfailed, sumNat_ok hprompt, sumNat_ok hcompletion, sumNat_ok htotal,
      (sumNat_ok htotal).trans_lt (sumNat_lt htotal)⟩

/-- The groups of a report and its totals. -/
structure AddsUp (groups : List (PurposeCost F)) (calls failed prompt completion total : Nat) : Prop where
  purposes : (groups.map PurposeCost.purpose).Sublist (PURPOSES.map Purpose.asStr)
  calls : (groups.map PurposeCost.calls).sum = calls
  failed : (groups.map PurposeCost.failedCalls).sum = failed
  prompt : (groups.map PurposeCost.promptTokens).sum = prompt
  completion : (groups.map PurposeCost.completionTokens).sum = completion
  total : (groups.map PurposeCost.totalTokens).sum = total

private theorem byPurpose_adds_up {agg : Aggregates F} {rows : List (LlmCall F)}
    {groups : List (PurposeCost F)}
    {all : PurposeCost F} (hgroups : byPurpose agg rows = .ok groups) (hall : Counts rows all) :
    AddsUp groups all.calls all.failedCalls all.promptTokens all.completionTokens all.totalTokens where
  purposes := by
    rw [mapM_ok_map (g := PurposeCost.purpose) (v := Purpose.asStr)
      (fun p r hr => (rollup_ok hr).1) hgroups]
    exact List.Sublist.map _ List.filter_sublist
  calls := by
    have hones : ∀ l : List (LlmCall F), l.length = (l.map fun _ => 1).sum := fun l => by simp
    rw [mapM_ok_map (g := PurposeCost.calls) (v := fun p => ((ofPurpose rows p).map fun _ => 1).sum)
      (fun p r hr => (rollup_ok hr).2.calls.trans (hones _)) hgroups, hall.calls, hones, sum_groups]
  failed := by
    rw [mapM_ok_map (fun p r hr => (rollup_ok hr).2.failed) hgroups, hall.failed]
    exact sum_groups rows _
  prompt := by
    rw [mapM_ok_map (fun p r hr => (rollup_ok hr).2.prompt) hgroups, hall.prompt]
    exact sum_groups rows _
  completion := by
    rw [mapM_ok_map (fun p r hr => (rollup_ok hr).2.completion) hgroups, hall.completion]
    exact sum_groups rows _
  total := by
    rw [mapM_ok_map (fun p r hr => (rollup_ok hr).2.total) hgroups, hall.total]
    exact sum_groups rows _

/-- A report that is there adds up when no call in its scope was recorded while it was made, and its
session budget is about its own total. -/
theorem costReport_ok {agg : Aggregates F} {calls callsThen : List (LlmCall F)}
    {ledger : List (Recall.LedgerRow F)} {sessionId : Option Int} {since : Int} {ceiling : Nat}
    {r : CostReport F} (h : costReport agg calls callsThen ledger sessionId since ceiling = .ok r) :
    (callsInScope sessionId since callsThen = callsInScope sessionId since calls →
      AddsUp r.byPurpose r.calls r.failedCalls r.promptTokens r.completionTokens r.totalTokens) ∧
      r.totalTokens = ((callsInScope sessionId since calls).map LlmCall.totalTokens).sum ∧
      r.totalTokens < 2 ^ 63 ∧
      r.sessionBudget = sessionId.map fun _ => sessionBudget ceiling r.totalTokens := by
  unfold costReport at h
  cases hall : rollup agg "" (callsInScope sessionId since calls) with
  | error e => rw [hall] at h; cases h
  | ok all =>
  cases hgroups : byPurpose agg (callsInScope sessionId since callsThen) with
  | error e => rw [hall, hgroups] at h; cases h
  | ok groups =>
  cases hrecall : recallBudget
      (ledger.filter fun row => inScope sessionId since row.sessionId row.createdAt) with
  | error e => rw [hall, hgroups, hrecall] at h; cases h
  | ok summary =>
    rw [hall, hgroups, hrecall] at h
    cases h
    have hcounts := (rollup_ok hall).2
    exact ⟨fun hsame => byPurpose_adds_up (hsame ▸ hgroups) hcounts, hcounts.total, hcounts.fits, rfl⟩

end AgosMemory.Ledger
