import Mathlib.Data.List.Basic

/-!
# Common subsequences

The length of a longest common subsequence is given by its defining property, with one rule for each
way two lists can end. A deletion splits a list into what goes and what stays; two lists that keep the
same elements are a line edit, and the shortest edits keep a longest common subsequence.
-/

namespace Library.Subsequence

variable {α : Type}

/-! ## The longest length -/

/-- Some common subsequence has this length, and none is longer. -/
structure LcsLength (xs ys : List α) (n : Nat) : Prop where
  attained : ∃ zs : List α, zs.Sublist xs ∧ zs.Sublist ys ∧ zs.length = n
  longest : ∀ zs : List α, zs.Sublist xs → zs.Sublist ys → zs.length ≤ n

theorem LcsLength.unique {xs ys : List α} {n m : Nat} (h : LcsLength xs ys n)
    (h' : LcsLength xs ys m) : n = m := by
  obtain ⟨zs, hx, hy, rfl⟩ := h.attained
  obtain ⟨zs', hx', hy', rfl⟩ := h'.attained
  exact Nat.le_antisymm (h'.longest zs hx hy) (h.longest zs' hx' hy')

theorem LcsLength.nil_left (ys : List α) : LcsLength [] ys 0 where
  attained := ⟨[], List.nil_sublist _, List.nil_sublist _, rfl⟩
  longest _ hx _ := hx.length_le

theorem LcsLength.nil_right (xs : List α) : LcsLength xs [] 0 where
  attained := ⟨[], List.nil_sublist _, List.nil_sublist _, rfl⟩
  longest _ _ hy := hy.length_le

theorem LcsLength.comm {xs ys : List α} {n : Nat} (h : LcsLength xs ys n) : LcsLength ys xs n where
  attained := by
    obtain ⟨zs, hx, hy, hn⟩ := h.attained
    exact ⟨zs, hy, hx, hn⟩
  longest zs hy hx := h.longest zs hx hy

theorem LcsLength.le_left {xs ys : List α} {n : Nat} (h : LcsLength xs ys n) : n ≤ xs.length := by
  obtain ⟨zs, hx, _, rfl⟩ := h.attained
  exact hx.length_le

theorem LcsLength.le_right {xs ys : List α} {n : Nat} (h : LcsLength xs ys n) : n ≤ ys.length :=
  h.comm.le_left

/-- As long as both lists, it is both lists. -/
theorem LcsLength.full_iff {xs ys : List α} {n : Nat} (h : LcsLength xs ys n) :
    (n = xs.length ∧ n = ys.length) ↔ xs = ys := by
  constructor
  · rintro ⟨hx, hy⟩
    obtain ⟨zs, hzx, hzy, hn⟩ := h.attained
    exact (hzx.eq_of_length (hn.trans hx)).symm.trans (hzy.eq_of_length (hn.trans hy))
  · rintro rfl
    have hn := Nat.le_antisymm h.le_left (h.longest xs (.refl xs) (.refl xs))
    exact ⟨hn, hn⟩

/-- Two lists without a common element have no common subsequence. -/
theorem LcsLength.zero_iff {xs ys : List α} {n : Nat} (h : LcsLength xs ys n) :
    n = 0 ↔ ∀ a ∈ xs, a ∉ ys := by
  constructor
  · intro hzero a hx hy
    have hle := h.longest [a] (List.singleton_sublist.mpr hx) (List.singleton_sublist.mpr hy)
    rw [hzero] at hle
    exact absurd hle (Nat.not_succ_le_zero 0)
  · intro hdisjoint
    obtain ⟨zs, hx, hy, rfl⟩ := h.attained
    cases zs with
    | nil => rfl
    | cons a zs =>
      exact absurd (hy.subset List.mem_cons_self) (hdisjoint a (hx.subset List.mem_cons_self))

/-- A sublist of a list with a last element either avoids that element or ends in it. -/
theorem sublist_concat {zs xs : List α} {a : α} (h : zs.Sublist (xs ++ [a])) :
    zs.Sublist xs ∨ ∃ ws : List α, zs = ws ++ [a] ∧ ws.Sublist xs := by
  obtain ⟨ws, last, rfl, hws, hlast⟩ := List.sublist_append_iff.mp h
  rcases List.sublist_singleton.mp hlast with rfl | rfl
  · rw [List.append_nil]
    exact .inl hws
  · exact .inr ⟨ws, rfl, hws⟩

/-- A common last element belongs to some longest common subsequence. -/
theorem LcsLength.concat_same {xs ys : List α} {n : Nat} (h : LcsLength xs ys n) (a : α) :
    LcsLength (xs ++ [a]) (ys ++ [a]) (n + 1) where
  attained := by
    obtain ⟨zs, hx, hy, rfl⟩ := h.attained
    exact ⟨zs ++ [a], hx.append_right _, hy.append_right _, by rw [List.length_append]; rfl⟩
  longest zs hx hy := by
    rcases sublist_concat hx with hx | ⟨ws, rfl, hws⟩
    · rcases sublist_concat hy with hy | ⟨vs, rfl, hvs⟩
      · exact Nat.le_succ_of_le (h.longest zs hx hy)
      · have hle := h.longest vs ((List.sublist_append_left _ _).trans hx) hvs
        rw [List.length_append]
        exact Nat.succ_le_succ hle
    · have hvs : ws.Sublist ys := by
        rcases sublist_concat hy with hy | ⟨vs, hvs, hsub⟩
        · exact (List.sublist_append_left _ _).trans hy
        · rwa [List.append_inj_left' hvs rfl]
      rw [List.length_append]
      exact Nat.succ_le_succ (h.longest ws hws hvs)

/-- Of two different last elements one is left out. -/
theorem LcsLength.concat_ne {xs ys : List α} {a b : α} {n m : Nat} (hne : a ≠ b)
    (hx : LcsLength xs (ys ++ [b]) n) (hy : LcsLength (xs ++ [a]) ys m) :
    LcsLength (xs ++ [a]) (ys ++ [b]) (max n m) where
  attained := by
    obtain ⟨zs, hzx, hzy, hn⟩ := hx.attained
    obtain ⟨ws, hwx, hwy, hm⟩ := hy.attained
    by_cases hle : n ≤ m
    · exact ⟨ws, hwx, hwy.trans (List.sublist_append_left _ _), by omega⟩
    · exact ⟨zs, hzx.trans (List.sublist_append_left _ _), hzy, by omega⟩
  longest zs hzx hzy := by
    rcases sublist_concat hzx with hx' | ⟨ws, hws, _⟩
    · exact Nat.le_trans (hx.longest zs hx' hzy) (Nat.le_max_left _ _)
    · rcases sublist_concat hzy with hy' | ⟨vs, hvs, _⟩
      · exact Nat.le_trans (hy.longest zs hzx hy') (Nat.le_max_right _ _)
      · have hlast : [a] = [b] := (List.append_inj' (hws.symm.trans hvs) rfl).2
        exact absurd (List.singleton_inj.mp hlast) hne

/-! ## Deletions -/

/-- Deleting `gone` from the first list leaves `rest`, both in order. -/
inductive Deleting : List α → List α → List α → Prop
  | nil : Deleting [] [] []
  | keep (a : α) {xs gone rest : List α} : Deleting xs gone rest →
      Deleting (a :: xs) gone (a :: rest)
  | drop (a : α) {xs gone rest : List α} : Deleting xs gone rest →
      Deleting (a :: xs) (a :: gone) rest

namespace Deleting

variable {xs ys gone rest gone' rest' : List α}

theorem sublist (h : Deleting xs gone rest) : rest.Sublist xs := by
  induction h with
  | nil => exact List.Sublist.slnil
  | keep a _ ih => exact ih.cons_cons a
  | drop a _ ih => exact ih.cons a

theorem length (h : Deleting xs gone rest) : xs.length = gone.length + rest.length := by
  induction h with
  | nil => rfl
  | keep a _ ih => simp only [List.length_cons, ih]; omega
  | drop a _ ih => simp only [List.length_cons, ih]; omega

theorem append (h : Deleting xs gone rest) (h' : Deleting ys gone' rest') :
    Deleting (xs ++ ys) (gone ++ gone') (rest ++ rest') := by
  induction h with
  | nil => exact h'
  | keep a _ ih => exact ih.keep a
  | drop a _ ih => exact ih.drop a

theorem all (xs : List α) : Deleting xs xs [] := by
  induction xs with
  | nil => exact .nil
  | cons a xs ih => exact ih.drop a

theorem none (xs : List α) : Deleting xs [] xs := by
  induction xs with
  | nil => exact .nil
  | cons a xs ih => exact ih.keep a

/-- Deleting nothing leaves the list. -/
theorem eq_of_nil (h : Deleting xs [] rest) : rest = xs := by
  have hlength := h.length
  rw [List.length_nil, Nat.zero_add] at hlength
  exact h.sublist.eq_of_length hlength.symm

end Deleting

/-- Two deletions that leave the same sequence. -/
def LineEdit (old new removed added : List α) : Prop :=
  ∃ common, Deleting old removed common ∧ Deleting new added common

/-- No line edit of the two lists is shorter. -/
def Minimal (old new removed added : List α) : Prop :=
  ∀ removed' added' : List α, LineEdit old new removed' added' →
    added.length + removed.length ≤ added'.length + removed'.length

/-- An edit that keeps a longest common subsequence is a shortest one. -/
theorem minimal_of_lcs {old new removed added common : List α} (hold : Deleting old removed common)
    (hnew : Deleting new added common) (hlcs : LcsLength old new common.length) :
    Minimal old new removed added := by
  rintro removed' added' ⟨common', hold', hnew'⟩
  have hle := hlcs.longest common' hold'.sublist hnew'.sublist
  have h₁ := hold.length
  have h₂ := hnew.length
  have h₃ := hold'.length
  have h₄ := hnew'.length
  omega

end Library.Subsequence
