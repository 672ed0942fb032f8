import Mathlib.Data.List.Pairwise
import Mathlib.Logic.Basic

/-!
# Leader clustering

One pass over a list: an item joins the first leader that it is near to, and leads a new cluster if
there is none. Nearness need not be symmetric or transitive.
-/

namespace Library.Leaders

variable {α β : Type} (near : α → β → Bool) (lead : α → β)

/-- How many items of the rest join a leader. -/
def merges : List β → List α → Nat
  | _, [] => 0
  | leaders, a :: as =>
    match leaders.find? (near a) with
    | some _ => merges leaders as + 1
    | none => merges (leaders ++ [lead a]) as

/-- The items of the rest that lead a new cluster. -/
def founders : List β → List α → List α
  | _, [] => []
  | leaders, a :: as =>
    match leaders.find? (near a) with
    | some _ => founders leaders as
    | none => a :: founders (leaders ++ [lead a]) as

/-- Each item of the rest with the leader of its cluster. -/
def homes : List β → List α → List (α × β)
  | _, [] => []
  | leaders, a :: as =>
    match leaders.find? (near a) with
    | some l => (a, l) :: homes leaders as
    | none => (a, lead a) :: homes (leaders ++ [lead a]) as

variable {near lead}

theorem merges_of_join {leaders : List β} {a : α} {as : List α} {l : β}
    (h : leaders.find? (near a) = some l) :
    merges near lead leaders (a :: as) = merges near lead leaders as + 1 := by
  rw [merges, h]

theorem merges_of_lead {leaders : List β} {a : α} {as : List α}
    (h : leaders.find? (near a) = none) :
    merges near lead leaders (a :: as) = merges near lead (leaders ++ [lead a]) as := by
  rw [merges, h]

/-- Nothing is merged exactly if no item is near to a leader or to an earlier item. -/
theorem merges_eq_zero {leaders : List β} {as : List α} :
    merges near lead leaders as = 0 ↔
      (∀ a ∈ as, ∀ l ∈ leaders, near a l = false) ∧
        as.Pairwise fun a b => near b (lead a) = false := by
  induction as generalizing leaders with
  | nil => exact ⟨fun _ => ⟨List.forall_mem_nil _, .nil⟩, fun _ => rfl⟩
  | cons a as ih =>
    cases hfind : leaders.find? (near a) with
    | some l =>
      rw [merges_of_join hfind]
      refine ⟨fun h => absurd h (Nat.succ_ne_zero _), fun ⟨hfar, _⟩ => ?_⟩
      have hnear := List.find?_some hfind
      rw [hfar a List.mem_cons_self l (List.mem_of_find?_eq_some hfind)] at hnear
      cases hnear
    | none =>
      have hfar : ∀ l ∈ leaders, near a l = false := fun l hl =>
        Bool.eq_false_iff.mpr (List.find?_eq_none.mp hfind l hl)
      rw [merges_of_lead hfind, ih, List.pairwise_cons]
      constructor
      · rintro ⟨hrest, hpairs⟩
        refine ⟨fun b hb l hl => ?_, fun b hb => ?_, hpairs⟩
        · rcases List.mem_cons.mp hb with rfl | hb
          · exact hfar l hl
          · exact hrest b hb l (List.mem_append_left _ hl)
        · exact hrest b hb (lead a) (List.mem_append_right _ (List.mem_singleton_self _))
      · rintro ⟨hall, hfirst, hpairs⟩
        refine ⟨fun b hb l hl => ?_, hpairs⟩
        rcases List.mem_append.mp hl with hl | hl
        · exact hall b (List.mem_cons_of_mem _ hb) l hl
        · rw [List.mem_singleton.mp hl]
          exact hfirst b hb

/-! ## The clusters as a cover -/

section

variable {leaders : List β} {a : α} {as : List α}

theorem founders_of_join {l : β} (h : leaders.find? (near a) = some l) :
    founders near lead leaders (a :: as) = founders near lead leaders as := by
  rw [founders, h]

theorem founders_of_lead (h : leaders.find? (near a) = none) :
    founders near lead leaders (a :: as) = a :: founders near lead (leaders ++ [lead a]) as := by
  rw [founders, h]

theorem homes_of_join {l : β} (h : leaders.find? (near a) = some l) :
    homes near lead leaders (a :: as) = (a, l) :: homes near lead leaders as := by
  rw [homes, h]

theorem homes_of_lead (h : leaders.find? (near a) = none) :
    homes near lead leaders (a :: as) =
      (a, lead a) :: homes near lead (leaders ++ [lead a]) as := by
  rw [homes, h]

/-- An item is merged or leads. -/
theorem merges_add_founders (leaders : List β) (as : List α) :
    merges near lead leaders as + (founders near lead leaders as).length = as.length := by
  induction as generalizing leaders with
  | nil => rfl
  | cons a as ih =>
    cases hfind : leaders.find? (near a) with
    | some l =>
      rw [merges_of_join hfind, founders_of_join hfind, List.length_cons, ← ih leaders]
      omega
    | none =>
      rw [merges_of_lead hfind, founders_of_lead hfind, List.length_cons, List.length_cons,
        ← ih (leaders ++ [lead a])]
      omega

theorem founders_sublist (leaders : List β) (as : List α) :
    (founders near lead leaders as).Sublist as := by
  induction as generalizing leaders with
  | nil => exact List.Sublist.refl _
  | cons a as ih =>
    cases hfind : leaders.find? (near a) with
    | some l =>
      rw [founders_of_join hfind]
      exact (ih leaders).cons a
    | none =>
      rw [founders_of_lead hfind]
      exact (ih (leaders ++ [lead a])).cons_cons a

theorem map_homes (leaders : List β) (as : List α) :
    (homes near lead leaders as).map Prod.fst = as := by
  induction as generalizing leaders with
  | nil => rfl
  | cons a as ih =>
    cases hfind : leaders.find? (near a) with
    | some l => rw [homes_of_join hfind, List.map_cons, ih]
    | none => rw [homes_of_lead hfind, List.map_cons, ih]

/-- No founder is near to a leader or to an earlier founder. -/
theorem founders_far (leaders : List β) (as : List α) :
    (∀ a ∈ founders near lead leaders as, ∀ l ∈ leaders, near a l = false) ∧
      (founders near lead leaders as).Pairwise fun a b => near b (lead a) = false := by
  induction as generalizing leaders with
  | nil => exact ⟨List.forall_mem_nil _, .nil⟩
  | cons a as ih =>
    cases hfind : leaders.find? (near a) with
    | some l =>
      rw [founders_of_join hfind]
      exact ih leaders
    | none =>
      rw [founders_of_lead hfind]
      obtain ⟨hfar, hpairs⟩ := ih (leaders ++ [lead a])
      have ha : ∀ l ∈ leaders, near a l = false := fun l hl =>
        Bool.eq_false_iff.mpr (List.find?_eq_none.mp hfind l hl)
      refine ⟨List.forall_mem_cons.mpr ⟨ha, fun b hb l hl => ?_⟩,
        List.pairwise_cons.mpr ⟨fun b hb => ?_, hpairs⟩⟩
      · exact hfar b hb l (List.mem_append_left _ hl)
      · exact hfar b hb (lead a) (List.mem_append_right _ (List.mem_singleton_self _))

/-- The home of an item leads a cluster; it is a leader that the item is near to, or the item's own. -/
theorem mem_homes {p : α × β} (h : p ∈ homes near lead leaders as) :
    p.2 ∈ leaders ++ (founders near lead leaders as).map lead ∧
      (near p.1 p.2 = true ∨ p.1 ∈ founders near lead leaders as ∧ p.2 = lead p.1) := by
  induction as generalizing leaders with
  | nil => cases h
  | cons a as ih =>
    cases hfind : leaders.find? (near a) with
    | some l =>
      rw [homes_of_join hfind] at h
      rw [founders_of_join hfind]
      rcases List.mem_cons.mp h with rfl | h
      · exact ⟨List.mem_append_left _ (List.mem_of_find?_eq_some hfind),
          .inl (List.find?_some hfind)⟩
      · exact ih h
    | none =>
      rw [homes_of_lead hfind] at h
      rw [founders_of_lead hfind, List.map_cons]
      rcases List.mem_cons.mp h with rfl | h
      · exact ⟨List.mem_append_right _ List.mem_cons_self, .inr ⟨List.mem_cons_self, rfl⟩⟩
      · obtain ⟨hmem, hnear⟩ := ih h
        rw [List.append_assoc, List.singleton_append] at hmem
        exact ⟨hmem, hnear.imp_right fun ⟨hf, heq⟩ => ⟨List.mem_cons_of_mem _ hf, heq⟩⟩

/-- A founder is at home with itself. -/
theorem founder_home (h : a ∈ founders near lead leaders as) :
    (a, lead a) ∈ homes near lead leaders as := by
  induction as generalizing leaders with
  | nil => cases h
  | cons b as ih =>
    cases hfind : leaders.find? (near b) with
    | some l =>
      rw [founders_of_join hfind] at h
      rw [homes_of_join hfind]
      exact List.mem_cons_of_mem _ (ih h)
    | none =>
      rw [founders_of_lead hfind] at h
      rw [homes_of_lead hfind]
      rcases List.mem_cons.mp h with rfl | h
      · exact List.mem_cons_self
      · exact List.mem_cons_of_mem _ (ih h)

/-- What a leader has over the items after it, it has over those of its cluster. -/
theorem homes_before {R : β → α → Prop} (hself : ∀ a, R (lead a) a)
    (hleaders : ∀ l ∈ leaders, ∀ a ∈ as, R l a) (has : as.Pairwise fun a b => R (lead a) b) :
    ∀ p ∈ homes near lead leaders as, R p.2 p.1 := by
  induction as generalizing leaders with
  | nil => exact List.forall_mem_nil _
  | cons a as ih =>
    obtain ⟨hfirst, hrest⟩ := List.pairwise_cons.mp has
    have hlater : ∀ l ∈ leaders, ∀ b ∈ as, R l b := fun l hl b hb =>
      hleaders l hl b (List.mem_cons_of_mem _ hb)
    cases hfind : leaders.find? (near a) with
    | some l =>
      rw [homes_of_join hfind]
      exact List.forall_mem_cons.mpr
        ⟨hleaders l (List.mem_of_find?_eq_some hfind) a List.mem_cons_self, ih hlater hrest⟩
    | none =>
      rw [homes_of_lead hfind]
      refine List.forall_mem_cons.mpr ⟨hself a, ih (fun l hl b hb => ?_) hrest⟩
      rcases List.mem_append.mp hl with hl | hl
      · exact hlater l hl b hb
      · rw [List.mem_singleton.mp hl]
        exact hfirst b hb

end

end Library.Leaders
