import AgosMemory.Library.Ranking

/-!
# The first few of a ranking

The first `k` of a ranking, found without ranking: by taking the least again and again, and by merging
the first `k` of parts.
-/

namespace Library.Selection

open Ranking

variable {α β : Type} {cmp : α → α → Ordering} {l l' s t : List α} {k m n : Nat}

section

variable {P : α → Prop} [Std.TransCmp fun a b : { x // P x } => cmp a.val b.val]

theorem eq_of_before {a b : α} (ha : P a) (hb : P b) (hab : before cmp a b) (hba : before cmp b a) :
    cmp a b = .eq := by
  have hswap : cmp a b = (cmp b a).swap :=
    @Std.OrientedCmp.eq_swap _ (fun a b : { x // P x } => cmp a.val b.val) _ ⟨a, ha⟩ ⟨b, hb⟩
  unfold before at hab hba
  cases hcmp : cmp a b with
  | eq => rfl
  | gt => exact absurd hcmp hab
  | lt =>
    rw [hcmp] at hswap
    cases hrev : cmp b a with
    | gt => exact absurd hrev hba
    | lt => rw [hrev] at hswap; cases hswap
    | eq => rw [hrev] at hswap; cases hswap

theorem before_total {a b : α} (ha : P a) (hb : P b) (hab : ¬ before cmp a b) : before cmp b a := by
  have htotal := (inferInstance : Std.Total (before fun a b : { x // P x } => cmp a.val b.val)).total
    ⟨a, ha⟩ ⟨b, hb⟩
  exact htotal.resolve_left hab

theorem before_trans {a b c : α} (ha : P a) (hb : P b) (hc : P c) (hab : before cmp a b)
    (hbc : before cmp b c) : before cmp a c :=
  (inferInstance : IsTrans { x // P x } (before fun a b : { x // P x } => cmp a.val b.val)).trans
    ⟨a, ha⟩ ⟨b, hb⟩ ⟨c, hc⟩ hab hbc

/-- Without ties there is one ranked list of given elements. -/
theorem eq_of_ranked (hperm : s.Perm t) (hs : s.Pairwise (before cmp)) (ht : t.Pairwise (before cmp))
    (hP : ∀ a ∈ s, P a) (hties : Resolved cmp s) : s = t := by
  refine hperm.eq_of_pairwise (fun a b ha hb hab hba => ?_) hs ht
  have hb' := hperm.mem_iff.mpr hb
  exact hties a ha b hb' (eq_of_before (hP a ha) (hP b hb') hab hba)

theorem Resolved.perm (h : Resolved cmp l) (hperm : l.Perm l') : Resolved cmp l' :=
  fun a ha b hb => h a (hperm.mem_iff.mpr ha) b (hperm.mem_iff.mpr hb)

/-- The ranking of a list with a least element. -/
theorem rank_eq_cons [DecidableEq α] (hP : ∀ a ∈ l, P a) (hties : Resolved cmp l) {a : α}
    (ha : a ∈ l) (hleast : ∀ b ∈ l, before cmp a b) : rank cmp l = a :: rank cmp (l.erase a) := by
  have herase : ∀ b ∈ rank cmp (l.erase a), b ∈ l := fun b hb =>
    List.mem_of_mem_erase ((rank_perm cmp _).mem_iff.mp hb)
  have hperm : (rank cmp l).Perm (a :: rank cmp (l.erase a)) :=
    (rank_perm cmp l).trans ((List.perm_cons_erase ha).trans ((rank_perm cmp _).symm.cons a))
  refine eq_of_ranked hperm (rank_pairwise_on hP) ?_
    (fun b hb => hP b ((rank_perm cmp l).mem_iff.mp hb)) (Resolved.perm hties (rank_perm cmp l).symm)
  refine List.pairwise_cons.mpr ⟨fun b hb => hleast b (herase b hb), ?_⟩
  exact rank_pairwise_on fun b hb => hP b (List.mem_of_mem_erase hb)

end

/-! ## The least again and again -/

variable {σ : Type}

/-- The elements that are picked in up to `k` turns. -/
def repeatPick (pick : σ → Option (α × σ)) : Nat → σ → List α
  | 0, _ => []
  | k + 1, state =>
    match pick state with
    | none => []
    | some picked => picked.1 :: repeatPick pick k picked.2

/-- What is picked was there to pick. -/
theorem mem_repeatPick (left : σ → List α) {pick : σ → Option (α × σ)}
    (hpick : ∀ s picked, pick s = some picked → picked.1 ∈ left s ∧ left picked.2 ⊆ left s)
    {state : σ} {a : α} (ha : a ∈ repeatPick pick k state) : a ∈ left state := by
  induction k generalizing state with
  | zero => cases ha
  | succ k ih =>
    unfold repeatPick at ha
    cases hs : pick state with
    | none =>
      rw [hs] at ha
      cases ha
    | some picked =>
      rw [hs] at ha
      obtain ⟨hmem, hsub⟩ := hpick state picked hs
      rcases List.mem_cons.mp ha with rfl | ha
      · exact hmem
      · exact hsub (ih ha)

/-- Turns on two sides that pick the same, seen through `f` and `g`. -/
theorem repeatPick_map {τ : Type} {pick : σ → Option (α × σ)} {pick' : τ → Option (β × τ)}
    {f : σ → τ} {g : α → β} {I : σ → Prop}
    (hpick : ∀ s, I s → pick' (f s) = (pick s).map fun picked => (g picked.1, f picked.2))
    (hinv : ∀ s, I s → ∀ picked, pick s = some picked → I picked.2) {state : σ} (hI : I state) :
    (repeatPick pick k state).map g = repeatPick pick' k (f state) := by
  induction k generalizing state with
  | zero => rfl
  | succ k ih =>
    unfold repeatPick
    rw [hpick state hI]
    cases hs : pick state with
    | none => rfl
    | some picked => exact congrArg (g picked.1 :: ·) (ih (hinv state hI picked hs))

/-- Each turn takes the least of what is left. -/
structure PicksLeast [DecidableEq α] (cmp : α → α → Ordering) (pick : σ → Option (α × σ))
    (left : σ → List α) (state : σ) : Prop where
  nothing : pick state = none → left state = []
  least : ∀ picked, pick state = some picked → picked.1 ∈ left state ∧
    (∀ b ∈ left state, before cmp picked.1 b) ∧ (left picked.2).Perm ((left state).erase picked.1)

theorem repeatPick_rank [DecidableEq α] (left : σ → List α) {P : α → Prop}
    [Std.TransCmp fun a b : { x // P x } => cmp a.val b.val] {pick : σ → Option (α × σ)}
    {I : σ → Prop} (hpicks : ∀ s, I s → PicksLeast cmp pick left s)
    (hinv : ∀ s, I s → ∀ picked, pick s = some picked → I picked.2) {state : σ} (hI : I state)
    (hP : ∀ a ∈ left state, P a) (hties : Resolved cmp (left state)) :
    repeatPick pick k state = (rank cmp (left state)).take k := by
  induction k generalizing state with
  | zero => rfl
  | succ k ih =>
    unfold repeatPick
    cases hpick : pick state with
    | none =>
      rw [(hpicks state hI).nothing hpick]
      rfl
    | some picked =>
      obtain ⟨hmem, hleast, hleft⟩ := (hpicks state hI).least picked hpick
      have herase : ∀ b ∈ left picked.2, b ∈ left state := fun b hb =>
        List.mem_of_mem_erase (hleft.mem_iff.mp hb)
      have hties' : Resolved cmp (left picked.2) := fun a ha b hb =>
        hties a (herase a ha) b (herase b hb)
      have hrank : rank cmp (left picked.2) = rank cmp ((left state).erase picked.1) := by
        refine eq_of_ranked (((rank_perm cmp _).trans hleft).trans (rank_perm cmp _).symm)
          (rank_pairwise_on fun a ha => hP a (herase a ha))
          (rank_pairwise_on fun a ha => hP a (List.mem_of_mem_erase ha))
          (fun a ha => hP a (herase a ((rank_perm cmp _).mem_iff.mp ha)))
          (Resolved.perm hties' (rank_perm cmp _).symm)
      show picked.1 :: repeatPick pick k picked.2 = _
      rw [rank_eq_cons hP hties hmem hleast, List.take_succ_cons, ← hrank,
        ih (hinv state hI picked hpick) (fun a ha => hP a (herase a ha)) hties']

/-! ## Merging -/

/-- The first `k` of a merge, one after the other. -/
def mergeTake (first : α → α → Bool) : Nat → List α → List α → List α
  | 0, _, _ => []
  | _ + 1, [], [] => []
  | k + 1, [], b :: t => b :: mergeTake first k [] t
  | k + 1, a :: s, [] => a :: mergeTake first k s []
  | k + 1, a :: s, b :: t =>
    if first a b then a :: mergeTake first k s (b :: t) else b :: mergeTake first k (a :: s) t

variable {first : α → α → Bool}

theorem mergeTake_nil_left : mergeTake first k [] t = t.take k := by
  induction k generalizing t with
  | zero => rfl
  | succ k ih =>
    cases t with
    | nil => rfl
    | cons b t => exact congrArg (b :: ·) ih

theorem mergeTake_nil_right : mergeTake first k s [] = s.take k := by
  induction k generalizing s with
  | zero => rfl
  | succ k ih =>
    cases s with
    | nil => rfl
    | cons a s => exact congrArg (a :: ·) ih

theorem mergeTake_eq (first : α → α → Bool) (k : Nat) (s t : List α) :
    mergeTake first k s t = (s.merge t first).take k := by
  induction k generalizing s t with
  | zero => rfl
  | succ k ih =>
    cases s with
    | nil => rw [mergeTake_nil_left, List.nil_merge]
    | cons a s =>
      cases t with
      | nil => rw [mergeTake_nil_right, List.merge_right]
      | cons b t =>
        unfold mergeTake
        rw [List.cons_merge_cons]
        split
        · rw [ih, List.take_succ_cons]
        · rw [ih, List.take_succ_cons]

theorem mem_mergeTake {a : α} (ha : a ∈ mergeTake first k s t) : a ∈ s ∨ a ∈ t := by
  rw [mergeTake_eq] at ha
  exact List.mem_merge.mp (List.mem_of_mem_take ha)

theorem length_mergeTake_le : (mergeTake first k s t).length ≤ k := by
  rw [mergeTake_eq]
  exact List.length_take_le _ _

/-- Only the first `k` of each side matter. -/
theorem mergeTake_take (hm : k ≤ m) (hn : k ≤ n) :
    mergeTake first k (s.take m) (t.take n) = mergeTake first k s t := by
  induction k generalizing s t m n with
  | zero => rfl
  | succ k ih =>
    obtain ⟨m, rfl⟩ := Nat.exists_eq_add_of_le' hm
    obtain ⟨n, rfl⟩ := Nat.exists_eq_add_of_le' hn
    cases s with
    | nil =>
      rw [List.take_nil, mergeTake_nil_left, mergeTake_nil_left, List.take_take,
        Nat.min_eq_left hn]
    | cons a s =>
      cases t with
      | nil =>
        rw [List.take_nil, mergeTake_nil_right, mergeTake_nil_right, List.take_take,
          Nat.min_eq_left hm]
      | cons b t =>
        have hleft : mergeTake first k (s.take (m + k)) ((b :: t).take (n + k + 1)) =
            mergeTake first k s (b :: t) := ih (by omega) (by omega)
        have hright : mergeTake first k ((a :: s).take (m + k + 1)) (t.take (n + k)) =
            mergeTake first k (a :: s) t := ih (by omega) (by omega)
        show (if first a b then _ else _) = if first a b then _ else _
        exact if_congr Iff.rfl (congrArg (a :: ·) hleft) (congrArg (b :: ·) hright)

theorem mergeTake_map {first' : β → β → Bool} {f : α → β} (h : ∀ a b, first' (f a) (f b) = first a b) :
    mergeTake first' k (s.map f) (t.map f) = (mergeTake first k s t).map f := by
  induction k generalizing s t with
  | zero => rfl
  | succ k ih =>
    cases s with
    | nil => rw [List.map_nil, mergeTake_nil_left, mergeTake_nil_left, List.map_take]
    | cons a s =>
      cases t with
      | nil => rw [List.map_nil, mergeTake_nil_right, mergeTake_nil_right, List.map_take]
      | cons b t =>
        show (if first' (f a) (f b) then _ else _) = (if first a b then _ else _ : List α).map f
        rw [h]
        have hleft : mergeTake first' k (s.map f) ((b :: t).map f) = _ := ih
        have hright : mergeTake first' k ((a :: s).map f) (t.map f) = _ := ih
        split
        · exact congrArg (f a :: ·) hleft
        · exact congrArg (f b :: ·) hright

section

variable {P : α → Prop} [Std.TransCmp fun a b : { x // P x } => cmp a.val b.val]

/-- A merge of ranked lists that asks, of an element of each, which is before the other. -/
theorem merge_pairwise (hs : s.Pairwise (before cmp)) (ht : t.Pairwise (before cmp))
    (hPs : ∀ a ∈ s, P a) (hPt : ∀ b ∈ t, P b)
    (hfirst : ∀ a ∈ s, ∀ b ∈ t, first a b = true ↔ before cmp a b) :
    (s.merge t first).Pairwise (before cmp) := by
  induction s generalizing t with
  | nil => rwa [List.nil_merge]
  | cons a s ihs =>
    induction t with
    | nil => rwa [List.merge_right]
    | cons b t iht =>
      obtain ⟨has, hs'⟩ := List.pairwise_cons.mp hs
      obtain ⟨hbt, ht'⟩ := List.pairwise_cons.mp ht
      obtain ⟨hPa, hPs'⟩ := List.forall_mem_cons.mp hPs
      obtain ⟨hPb, hPt'⟩ := List.forall_mem_cons.mp hPt
      have hab := hfirst a List.mem_cons_self b List.mem_cons_self
      rw [List.cons_merge_cons]
      by_cases hfirst' : first a b = true
      · rw [if_pos hfirst']
        have hbefore := hab.mp hfirst'
        refine List.pairwise_cons.mpr ⟨fun x hx => ?_, ihs hs' ht hPs' hPt fun x hx y hy =>
          hfirst x (List.mem_cons_of_mem _ hx) y hy⟩
        rcases List.mem_merge.mp hx with hx | hx
        · exact has x hx
        · rcases List.mem_cons.mp hx with rfl | hx
          · exact hbefore
          · exact before_trans hPa hPb (hPt' x hx) hbefore (hbt x hx)
      · rw [if_neg hfirst']
        have hbefore := before_total hPa hPb (mt hab.mpr hfirst')
        refine List.pairwise_cons.mpr ⟨fun x hx => ?_, iht ht' hPt' fun x hx y hy =>
          hfirst x hx y (List.mem_cons_of_mem _ hy)⟩
        rcases List.mem_merge.mp hx with hx | hx
        · rcases List.mem_cons.mp hx with rfl | hx
          · exact hbefore
          · exact before_trans hPb hPa (hPs' x hx) hbefore (has x hx)
        · exact hbt x hx

/-- The first `k` of a whole from the first `k` of two parts. -/
theorem mergeTake_rank (hP : ∀ a ∈ l ++ l', P a) (hties : Resolved cmp (l ++ l'))
    (hfirst : ∀ a ∈ l, ∀ b ∈ l', first a b = true ↔ before cmp a b) :
    mergeTake first k ((rank cmp l).take k) ((rank cmp l').take k) =
      (rank cmp (l ++ l')).take k := by
  obtain ⟨hPl, hPl'⟩ := List.forall_mem_append.mp hP
  have hmem : ∀ {x : List α} {a}, a ∈ rank cmp x → a ∈ x := fun ha => (rank_perm cmp _).mem_iff.mp ha
  have hmerge : (rank cmp l).merge (rank cmp l') first = rank cmp (l ++ l') := by
    have hperm : ((rank cmp l).merge (rank cmp l') first).Perm (l ++ l') :=
      (List.merge_perm_append first).trans ((rank_perm cmp l).append (rank_perm cmp l'))
    refine eq_of_ranked (hperm.trans (rank_perm cmp _).symm) ?_ (rank_pairwise_on hP)
      (fun a ha => hP a (hperm.mem_iff.mp ha)) (Resolved.perm hties hperm.symm)
    exact merge_pairwise (rank_pairwise_on hPl) (rank_pairwise_on hPl')
      (fun a ha => hPl a (hmem ha)) (fun b hb => hPl' b (hmem hb))
      fun a ha b hb => hfirst a (hmem ha) b (hmem hb)
  rw [mergeTake_take (Nat.le_refl k) (Nat.le_refl k), mergeTake_eq, hmerge]

end

end Library.Selection
