import AgosMemory.Library.Clients

/-!
# Erasing a part of the state

A client may keep books beside the state that its work is about. `Erases` says that such a client, run
alone, does with the part `part` of its state what a program does that knows of no books: their outcomes
are related, and so is what they leave. A step that succeeds and leaves the part alone is erased.
-/

namespace Library

/-- Related values, or related errors. -/
inductive Related {ε δ α β : Type} (E : ε → δ → Prop) (R : α → β → Prop) :
    Except ε α → Except δ β → Prop
  | ok {a : α} {b : β} (h : R a b) : Related E R (.ok a) (.ok b)
  | error {e : ε} {d : δ} (h : E e d) : Related E R (.error e) (.error d)

namespace Client

open Program

variable {ε δ τ σ α β γ κ : Type} {part : τ → σ} {E : ε → δ → Prop} {R : α → β → Prop}
  {Q : γ → κ → Prop}

def Erases (part : τ → σ) (E : ε → δ → Prop) (R : α → β → Prop) (c : Client ε τ α)
    (m : Program δ σ β) : Prop :=
  ∀ t, Related E R (c.alone t).1 (m (part t)).1 ∧ part (c.alone t).2 = (m (part t)).2

theorem erases_pure {a : α} {b : β} (h : R a b) :
    Erases part E R (pure a : Client ε τ α) (pure b) := fun _ => ⟨.ok h, rfl⟩

theorem erases_fail {e : ε} {d : δ} (h : E e d) :
    Erases part E R (fail e : Client ε τ α) (Program.fail d) := fun _ => ⟨.error h, rfl⟩

theorem erases_lift {r : Except ε α} {r' : Except δ β} (h : Related E R r r') :
    Erases part E R (lift r : Client ε τ α) (Program.lift r') := by
  cases h with
  | ok h => exact erases_pure h
  | error h => exact erases_fail h

theorem erases_bind {c : Client ε τ α} {k : α → Client ε τ γ} {m : Program δ σ β}
    {n : β → Program δ σ κ} (hc : Erases part E R c m)
    (hk : ∀ a b, R a b → Erases part E Q (k a) (n b)) :
    Erases part E Q (c >>= k) (m >>= n) := by
  intro t
  obtain ⟨hrelated, hpart⟩ := hc t
  rw [alone_bind]
  cases hrun : c.alone t with
  | mk r u =>
    cases hrun' : m (part t) with
    | mk r' v =>
      rw [hrun, hrun'] at hrelated hpart
      obtain rfl : part u = v := hpart
      cases hrelated with
      | ok h =>
        rw [Program.bind_of_ok _ hrun, Program.bind_of_ok _ hrun']
        exact hk _ _ h u
      | error h =>
        rw [Program.bind_of_error _ hrun, Program.bind_of_error _ hrun']
        exact ⟨.error h, rfl⟩

/-- A step that is not erased. -/
theorem erases_call {p : Program ε τ α} {m : Program δ σ β}
    (h : ∀ t, Related E R (p t).1 (m (part t)).1 ∧ part (p t).2 = (m (part t)).2) :
    Erases part E R (call p) m := h

/-- A step that is. -/
theorem erases_silent {p : Program ε τ α} {k : α → Client ε τ γ} {n : Program δ σ κ}
    (h : ∀ t, ∃ a u, p t = (.ok a, u) ∧ part u = part t) (hk : ∀ a, Erases part E Q (k a) n) :
    Erases part E Q (call p >>= k) n := by
  intro t
  obtain ⟨a, u, hrun, hpart⟩ := h t
  rw [alone_bind, alone_call, Program.bind_of_ok _ hrun, ← hpart]
  exact hk a u

theorem erases_attempt {c : Client ε τ α} {m : Program δ σ β} (h : Erases part E R c m) :
    Erases part E (Related E R) c.attempt (Program.attempt m) := by
  intro t
  rw [alone_attempt]
  exact ⟨.ok (h t).1, (h t).2⟩

theorem erases_foldEach {as : List γ} {f : α → γ → Client ε τ α} {g : β → γ → Program δ σ β}
    (h : ∀ a b c, R a b → Erases part E R (f a c) (g b c)) {a : α} {b : β} (hab : R a b) :
    Erases part E R (foldEach as a f) (Program.foldEach as b g) := by
  induction as generalizing a b with
  | nil => exact erases_pure hab
  | cons c as ih => exact erases_bind (h a b c hab) fun _ _ hrest => ih hrest

end Client

end Library
