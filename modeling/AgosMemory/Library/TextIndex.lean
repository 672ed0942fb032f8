import Mathlib.Algebra.BigOperators.Group.Multiset.Basic
import Mathlib.Algebra.Order.Sub.Basic
import Mathlib.Data.Multiset.AddSub

/-!
# Text indexes

An index over documents that are stored elsewhere: a bag of postings, one for each term of each
document. The index does not know the texts, so a deletion has to name the text that was indexed;
with any other text it leaves postings behind. `delete_exact` says what a correct deletion leaves.
-/

namespace Library.TextIndex

/-- One occurrence of a term in a document. -/
structure Posting (κ τ : Type) where
  doc : κ
  position : Nat
  term : τ
  deriving DecidableEq

/-- The contents of an index. -/
abbrev Index (κ τ : Type) := Multiset (Posting κ τ)

variable {κ τ : Type} {terms : String → List τ}

/-- The postings of one document, for a tokenizer. -/
def postings (terms : String → List τ) (doc : κ × String) : Index κ τ :=
  ↑((terms doc.2).zipIdx.map fun t => (⟨doc.1, t.2, t.1⟩ : Posting κ τ))

/-- The index of a list of documents. -/
def exact (terms : String → List τ) (docs : List (κ × String)) : Index κ τ :=
  (docs.map (postings terms)).sum

/-- Remove a document, given the text it was indexed with. -/
def delete [DecidableEq κ] [DecidableEq τ] (terms : String → List τ) (index : Index κ τ)
    (doc : κ × String) : Index κ τ := index - postings terms doc

theorem exact_cons (doc : κ × String) (docs : List (κ × String)) :
    exact terms (doc :: docs) = postings terms doc + exact terms docs :=
  List.sum_cons

theorem mem_exact {docs : List (κ × String)} {p : Posting κ τ} (h : p ∈ exact terms docs) :
    ∃ doc ∈ docs, p.doc = doc.1 := by
  induction docs with
  | nil => exact absurd h (Multiset.notMem_zero p)
  | cons doc docs ih =>
    rw [exact_cons, Multiset.mem_add] at h
    rcases h with h | h
    · obtain ⟨t, _, rfl⟩ := List.mem_map.mp (Multiset.mem_coe.mp h)
      exact ⟨doc, List.mem_cons_self, rfl⟩
    · obtain ⟨doc', hmem, heq⟩ := ih h
      exact ⟨doc', List.mem_cons_of_mem _ hmem, heq⟩

/-- The documents that satisfy a predicate, and the others, make up the index. -/
theorem exact_filter (p : κ × String → Bool) (docs : List (κ × String)) :
    exact terms docs = exact terms (docs.filter p) + exact terms (docs.filter fun d => !p d) := by
  induction docs with
  | nil => rfl
  | cons doc docs ih =>
    rw [exact_cons, ih]
    by_cases hp : p doc
    · rw [List.filter_cons_of_pos hp, List.filter_cons_of_neg (by simp [hp]), exact_cons, add_assoc]
    · rw [List.filter_cons_of_neg hp, List.filter_cons_of_pos (by simp [hp]), exact_cons,
        add_left_comm]

variable [DecidableEq κ] [DecidableEq τ]

theorem foldl_delete (docs : List (κ × String)) (index : Index κ τ) :
    docs.foldl (delete terms) index = index - exact terms docs := by
  induction docs generalizing index with
  | nil => exact (tsub_zero index).symm
  | cons doc docs ih => rw [List.foldl_cons, ih, delete, exact_cons, tsub_add_eq_tsub_tsub]

/-- Deleting some documents of an exact index leaves the exact index of the others. -/
theorem delete_exact (p : κ × String → Bool) (docs : List (κ × String)) :
    (docs.filter p).foldl (delete terms) (exact terms docs) =
      exact terms (docs.filter fun d => !p d) := by
  rw [foldl_delete, exact_filter p docs, add_tsub_cancel_left]

end Library.TextIndex
