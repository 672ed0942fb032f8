import Mathlib.Data.List.Sort
import Mathlib.Order.Compare

/-!
# Rankings

Sorting by a comparison that is a total preorder. The result is ordered, and where only an element
itself compares equal to it, the result depends on what is sorted and not on the order it arrives in.
-/

namespace Library.Ranking

variable {α κ τ : Type} {cmp : α → α → Ordering} {l l' : List α}

/-- `a` may stand before `b`. -/
def before (cmp : α → α → Ordering) (a b : α) : Prop := cmp a b ≠ .gt

instance : DecidableRel (before cmp) := fun a b => inferInstanceAs (Decidable (cmp a b ≠ .gt))

theorem before_iff_isLE {a b : α} : before cmp a b ↔ (cmp a b).isLE = true :=
  Ordering.isLE_iff_ne_gt.symm

instance [Std.OrientedCmp cmp] : Std.Total (before cmp) where
  total a b := by
    unfold before
    have hswap : cmp b a = (cmp a b).swap := Std.OrientedCmp.eq_swap
    rw [hswap]
    cases cmp a b <;> simp

instance [Std.TransCmp cmp] : IsTrans α (before cmp) where
  trans _ _ _ hab hbc := before_iff_isLE.mpr
    (Std.TransCmp.isLE_trans (before_iff_isLE.mp hab) (before_iff_isLE.mp hbc))

variable (cmp) in
theorem transCmp_comap {β : Type} (f : β → α) [h : Std.TransCmp cmp] :
    Std.TransCmp fun a b => cmp (f a) (f b) where
  eq_swap := h.eq_swap
  isLE_trans := h.isLE_trans

variable (cmp) in
theorem transCmp_opposite [h : Std.TransCmp cmp] : Std.TransCmp fun a b => cmp b a where
  eq_swap := h.eq_swap
  isLE_trans hab hbc := h.isLE_trans hbc hab

/-- A list in the order of a comparison. -/
def rank (cmp : α → α → Ordering) (l : List α) : List α := l.insertionSort (before cmp)

theorem rank_perm (cmp : α → α → Ordering) (l : List α) : (rank cmp l).Perm l :=
  List.perm_insertionSort _ l

variable (cmp) in
theorem rank_pairwise [Std.TransCmp cmp] (l : List α) : (rank cmp l).Pairwise (before cmp) :=
  List.pairwise_insertionSort _ l

/-- A comparison that is a total preorder on some elements orders a list of these. -/
theorem rank_pairwise_on {P : α → Prop}
    [h : Std.TransCmp fun a b : { x // P x } => cmp a.val b.val] (hl : ∀ a ∈ l, P a) :
    (rank cmp l).Pairwise (before cmp) := by
  have hsorted := rank_pairwise (fun a b : { x // P x } => cmp a.val b.val) (l.attachWith P hl)
  have hmap : (rank (fun a b : { x // P x } => cmp a.val b.val) (l.attachWith P hl)).map
      Subtype.val = rank cmp l := by
    unfold rank
    rw [List.map_insertionSort (before fun a b : { x // P x } => cmp a.val b.val) (before cmp)
      Subtype.val _ fun a _ b _ => Iff.rfl, List.attachWith_map_subtype_val]
  rw [← hmap]
  exact hsorted.map Subtype.val fun _ _ hab => hab

/-- Elements that compare equal and are not the same. -/
def Resolved (cmp : α → α → Ordering) (l : List α) : Prop :=
  ∀ a ∈ l, ∀ b ∈ l, cmp a b = .eq → a = b

/-- A ranking without ties does not depend on the order of what is ranked. -/
theorem rank_eq_of_perm [Std.TransCmp cmp] (h : l.Perm l') (hties : Resolved cmp l) :
    rank cmp l = rank cmp l' := by
  refine List.Perm.eq_of_pairwise (fun a b ha hb hab hba => ?_) (rank_pairwise cmp l)
    (rank_pairwise cmp l') (((rank_perm cmp l).trans h).trans (rank_perm cmp l').symm)
  refine hties a ((rank_perm cmp l).mem_iff.mp ha) b
    (h.mem_iff.mpr ((rank_perm cmp l').mem_iff.mp hb)) ?_
  have hswap : cmp a b = (cmp b a).swap := Std.OrientedCmp.eq_swap
  unfold before at hab hba
  cases hcmp : cmp a b with
  | eq => rfl
  | gt => exact absurd hcmp hab
  | lt =>
    rw [hcmp] at hswap
    cases hrev : cmp b a with
    | gt => exact absurd hrev hba
    | lt => rw [hrev] at hswap; cases hswap
    | eq => rw [hrev] at hswap; cases hswap

/-! ## Best first -/

section

variable [LinearOrder κ] [LinearOrder τ] {key : α → κ} {tie : α → τ}

/-- The larger key first, then the smaller tie breaker. -/
def byDesc (key : α → κ) (tie : α → τ) (a b : α) : Ordering :=
  (compare (key b) (key a)).then (compare (tie a) (tie b))

theorem byDesc_eq {a b : α} : byDesc key tie a b = .eq ↔ key a = key b ∧ tie a = tie b := by
  unfold byDesc
  rw [Ordering.then_eq_eq, compare_eq_iff_eq, compare_eq_iff_eq, eq_comm]

theorem before_byDesc {a b : α} :
    before (byDesc key tie) a b ↔ key b < key a ∨ key a = key b ∧ tie a ≤ tie b := by
  unfold before byDesc
  rw [Ne, Ordering.then_eq_gt, not_or, compare_gt_iff_gt, not_and, compare_eq_iff_eq,
    compare_gt_iff_gt]
  rcases lt_trichotomy (key a) (key b) with hlt | heq | hgt
  · simp [hlt, hlt.not_gt, hlt.ne]
  · simp [heq]
  · simp [hgt, hgt.not_gt, hgt.ne]

instance : Std.TransCmp (byDesc key tie) where
  eq_swap {a b} := by
    unfold byDesc
    rw [Ordering.swap_then, ← Std.OrientedCmp.eq_swap, ← Std.OrientedCmp.eq_swap]
  isLE_trans {a b c} hab hbc := by
    rw [← before_iff_isLE, before_byDesc] at *
    rcases hab with hab | ⟨hab, htab⟩
    · rcases hbc with hbc | ⟨hbc, _⟩
      · exact .inl (hbc.trans hab)
      · exact .inl (hbc ▸ hab)
    · rcases hbc with hbc | ⟨hbc, htbc⟩
      · exact .inl (hab ▸ hbc)
      · exact .inr ⟨hab.trans hbc, htab.trans htbc⟩

end

/-! ## The best of some rows -/

section

variable {better : α → α → Prop} {rows listed : List α} {n : Nat}

/-- `listed` are the best `n` of some rows, best first. -/
structure TopPool (better : α → α → Prop) (rows listed : List α) (n : Nat) : Prop where
  subperm : listed.Subperm rows
  length : listed.length = min n rows.length
  ordered : listed.Pairwise fun a b => ¬better b a
  complete : ∀ a ∈ rows, a ∉ listed → ∀ b ∈ listed, ¬better a b

/-- The first rows of an ordered listing are the best. -/
theorem topPool_of_ordered (h : rows.Pairwise fun a b => ¬better b a) :
    TopPool better rows (rows.take n) n where
  subperm := (List.take_sublist n rows).subperm
  length := List.length_take
  ordered := h.sublist (List.take_sublist n rows)
  complete a ha hnot b hb := by
    rw [← List.take_append_drop n rows] at h ha
    rcases List.mem_append.mp ha with ha | ha
    · exact absurd ha hnot
    · exact (List.pairwise_append.mp h).2.2 b hb a ha

theorem TopPool.perm {rows' : List α} (h : TopPool better rows listed n) (hperm : rows.Perm rows') :
    TopPool better rows' listed n where
  subperm := h.subperm.trans hperm.subperm
  length := by rw [h.length, hperm.length_eq]
  ordered := h.ordered
  complete a ha := h.complete a (hperm.mem_iff.mpr ha)

/-- The first rows of a listing in no particular order are the best whatever the order, exactly if none
of the rows is better than another. -/
theorem topPool_any_order (hirrefl : ∀ a, ¬better a a) (hn : 0 < n) :
    (∀ order, rows.Perm order → TopPool better rows (order.take n) n) ↔
      ∀ a ∈ rows, ∀ b ∈ rows, ¬better a b := by
  classical
  constructor
  · intro h a ha b hb hbetter
    have hne : a ≠ b := fun heq => hirrefl a (heq ▸ hbetter)
    -- list `b` first and `a` right after it
    have ha' : a ∈ rows.erase b := (List.mem_erase_of_ne hne).mpr ha
    have hperm : rows.Perm (b :: a :: (rows.erase b).erase a) :=
      (List.perm_cons_erase hb).trans ((List.perm_cons_erase ha').cons b)
    have htop := h _ hperm
    obtain ⟨n, rfl⟩ := Nat.exists_eq_succ_of_ne_zero hn.ne'
    rw [List.take_succ_cons] at htop
    by_cases hlisted : a ∈ (a :: (rows.erase b).erase a).take n
    · exact (List.pairwise_cons.mp htop.ordered).1 a hlisted hbetter
    · have hout : a ∉ b :: (a :: (rows.erase b).erase a).take n := by
        rw [List.mem_cons, not_or]
        exact ⟨hne, hlisted⟩
      exact htop.complete a ha hout b List.mem_cons_self hbetter
  · intro h order hperm
    have hordered : order.Pairwise fun a b => ¬better b a :=
      List.pairwise_iff_forall_sublist.mpr fun {a b} hsub => by
        have hmem := hsub.subset
        exact h b (hperm.mem_iff.mpr (hmem (by simp))) a (hperm.mem_iff.mpr (hmem (by simp)))
    exact (topPool_of_ordered hordered).perm hperm.symm

end

/-- Along a list that never goes down, what holds of earlier and later elements holds of smaller and
larger ones. -/
theorem pairwise_along {lt R : α → α → Prop} (hirrefl : ∀ a, ¬lt a a)
    (hl : l.Pairwise fun a b => ¬lt b a) :
    (l.Pairwise fun a b => lt a b → R a b) ↔ ∀ a ∈ l, ∀ b ∈ l, lt a b → R a b := by
  refine ⟨fun h => ?_, fun h => List.pairwise_of_forall_mem_list h⟩
  induction l with
  | nil => exact List.forall_mem_nil _
  | cons x l ih =>
    obtain ⟨hx, hl⟩ := List.pairwise_cons.mp hl
    obtain ⟨hfirst, h⟩ := List.pairwise_cons.mp h
    intro a ha b hb hlt
    rcases List.mem_cons.mp ha with rfl | ha'
    · rcases List.mem_cons.mp hb with rfl | hb'
      · exact absurd hlt (hirrefl _)
      · exact hfirst b hb' hlt
    · rcases List.mem_cons.mp hb with rfl | hb'
      · exact absurd hlt (hx a ha')
      · exact ih hl h a ha' b hb' hlt

end Library.Ranking
