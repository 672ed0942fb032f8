import Mathlib.Tactic.Common
import Mathlib.Order.Defs.Unbundled

/-!
# Programs that keep their state when they fail

A program maps a state to an outcome and the state it reached. A failure does not undo anything,
which is how a sequence of statements behaves outside a transaction. `Moves R` says that every
outcome relates the two states by `R`; with a reflexive and transitive `R` it composes along the
program text, so an invariant or a monotone quantity is checked once for each statement.
-/

namespace Library

def Program (ε σ α : Type) : Type := σ → Except ε α × σ

namespace Program

variable {ε σ α β : Type}

instance : Monad (Program ε σ) where
  pure a := fun s => (.ok a, s)
  bind m k := fun s =>
    match m s with
    | (.ok a, s') => k a s'
    | (.error e, s') => (.error e, s')

def fail (e : ε) : Program ε σ α := fun s => (.error e, s)

def get : Program ε σ σ := fun s => (.ok s, s)

def lift : Except ε α → Program ε σ α
  | .ok a => pure a
  | .error e => fail e

/-- Run a program and hand its failure to the caller as a value. -/
def attempt (m : Program ε σ α) : Program ε σ (Except ε α) := fun s => (.ok (m s).1, (m s).2)

/-- All or nothing: `back s t` is what remains of a failure that went from `s` to `t`. -/
def atomically (back : σ → σ → σ) (m : Program ε σ α) : Program ε σ α := fun s =>
  match m s with
  | (.ok a, t) => (.ok a, t)
  | (.error e, t) => (.error e, back s t)

/-- An `if` without an `else`. -/
def onlyIf (b : Bool) (m : Program ε σ Unit) : Program ε σ Unit := if b then m else pure ()

def forEach : List α → (α → Program ε σ Unit) → Program ε σ Unit
  | [], _ => pure ()
  | a :: as, f => f a >>= fun _ => forEach as f

/-- A loop that threads a value. -/
def foldEach : List α → β → (β → α → Program ε σ β) → Program ε σ β
  | [], b, _ => pure b
  | a :: as, b, f => f b a >>= fun b' => foldEach as b' f

theorem bind_run (m : Program ε σ α) (k : α → Program ε σ β) (s : σ) :
    (m >>= k) s = match m s with
      | (.ok a, s') => k a s'
      | (.error e, s') => (.error e, s') := rfl

theorem bind_ok {m : Program ε σ α} {k : α → Program ε σ β} {s s' : σ} {b : β}
    (h : (m >>= k) s = (.ok b, s')) :
    ∃ a t, m s = (.ok a, t) ∧ k a t = (.ok b, s') := by
  rw [bind_run] at h
  cases hm : m s with
  | mk r t =>
    rw [hm] at h
    cases r with
    | ok a => exact ⟨a, t, rfl, h⟩
    | error e => cases h

theorem bind_of_ok {m : Program ε σ α} (k : α → Program ε σ β) {s t : σ} {a : α}
    (h : m s = (.ok a, t)) : (m >>= k) s = k a t := by
  rw [bind_run, h]

theorem bind_of_error {m : Program ε σ α} (k : α → Program ε σ β) {s t : σ} {e : ε}
    (h : m s = (.error e, t)) : (m >>= k) s = (.error e, t) := by
  rw [bind_run, h]

/-- What holds of the end of a sequence: of the first failure, or of the rest from where the first
program left off. -/
theorem bind_cases {m : Program ε σ α} {k : α → Program ε σ β} {s : σ} {P : Except ε β × σ → Prop}
    (herror : ∀ e t, m s = (.error e, t) → P (.error e, t))
    (hok : ∀ a t, m s = (.ok a, t) → P (k a t)) : P ((m >>= k) s) := by
  cases hm : m s with
  | mk r t =>
    cases r with
    | ok a =>
      rw [bind_of_ok k hm]
      exact hok a t hm
    | error e =>
      rw [bind_of_error k hm]
      exact herror e t hm

theorem bind_assoc {γ : Type} (m : Program ε σ α) (k : α → Program ε σ β)
    (l : β → Program ε σ γ) : (m >>= k) >>= l = m >>= fun a => k a >>= l := by
  funext s
  simp only [bind_run]
  cases m s with
  | mk r t => cases r <;> rfl

@[simp] theorem pure_run (a : α) (s : σ) : (pure a : Program ε σ α) s = (.ok a, s) := rfl

@[simp] theorem get_run (s : σ) : (get : Program ε σ σ) s = (.ok s, s) := rfl

theorem pure_ok {s t : σ} {a b : α} (h : (pure a : Program ε σ α) s = (.ok b, t)) :
    a = b ∧ s = t :=
  ⟨Except.ok.inj (Prod.mk.inj h).1, (Prod.mk.inj h).2⟩

theorem get_ok {s t c : σ} (h : (get : Program ε σ σ) s = (.ok c, t)) : s = c ∧ s = t := pure_ok h

theorem lift_ok {x : Except ε α} {s t : σ} {a : α}
    (h : (lift x : Program ε σ α) s = (.ok a, t)) : x = .ok a ∧ s = t := by
  cases x with
  | ok b =>
    obtain ⟨rfl, rfl⟩ := pure_ok h
    exact ⟨rfl, rfl⟩
  | error e => cases h

theorem atomically_ok {back : σ → σ → σ} {m : Program ε σ α} {s t : σ} {a : α}
    (h : atomically back m s = (.ok a, t)) : m s = (.ok a, t) := by
  unfold atomically at h
  cases hm : m s with
  | mk r u =>
    rw [hm] at h
    cases r with
    | ok b => exact h
    | error e => cases h

theorem atomically_error {back : σ → σ → σ} {m : Program ε σ α} {s t : σ} {e : ε}
    (h : atomically back m s = (.error e, t)) : ∃ u, m s = (.error e, u) ∧ t = back s u := by
  unfold atomically at h
  cases hm : m s with
  | mk r u =>
    rw [hm] at h
    cases r with
    | ok b => cases h
    | error e' =>
      obtain ⟨he, rfl⟩ := Prod.mk.inj h
      exact ⟨u, by rw [Except.error.inj he], rfl⟩

/-- The run of a program whose outcome is known. -/
theorem run_of_outcome {m : Program ε σ α} {s : σ} {r : Except ε α} (h : (m s).1 = r) :
    m s = (r, (m s).2) := by
  subst h
  rfl

/-! ## Success

A program succeeds from a state. What it leaves is read off the run, so the rule for a sequence hands
the run of the first program to the second. -/

def Succeeds (m : Program ε σ α) (s : σ) : Prop := ∃ a t, m s = (.ok a, t)

theorem succeeds_pure (a : α) (s : σ) : Succeeds (pure a : Program ε σ α) s := ⟨a, s, rfl⟩

theorem succeeds_iff_isOk {m : Program ε σ α} {s : σ} : Succeeds m s ↔ (m s).1.isOk = true := by
  constructor
  · rintro ⟨a, t, h⟩
    rw [h]
    rfl
  · intro h
    cases hrun : m s with
    | mk r t =>
      cases r with
      | ok a => exact ⟨a, t, hrun⟩
      | error e => rw [hrun] at h; cases h

theorem succeeds_attempt (m : Program ε σ α) (s : σ) : Succeeds (attempt m) s := ⟨_, _, rfl⟩

theorem succeeds_bind {m : Program ε σ α} {k : α → Program ε σ β} {s : σ} (hm : Succeeds m s)
    (hk : ∀ a t, m s = (.ok a, t) → Succeeds (k a) t) : Succeeds (m >>= k) s := by
  obtain ⟨a, t, hrun⟩ := hm
  obtain ⟨b, u, hnext⟩ := hk a t hrun
  exact ⟨b, u, (bind_of_ok k hrun).trans hnext⟩

theorem succeeds_onlyIf {b : Bool} {m : Program ε σ Unit} {s : σ} (h : Succeeds m s) :
    Succeeds (onlyIf b m) s := by
  cases b with
  | true => exact h
  | false => exact succeeds_pure () s

/-- A loop succeeds when each step does, from states that the rest of the list allows. -/
theorem succeeds_forEach {f : α → Program ε σ Unit} {P : List α → σ → Prop}
    (hstep : ∀ a as s, P (a :: as) s → Succeeds (f a) s)
    (hkeep : ∀ a as s t, P (a :: as) s → f a s = (.ok (), t) → P as t) {as : List α} {s : σ}
    (h : P as s) : Succeeds (forEach as f) s := by
  induction as generalizing s with
  | nil => exact succeeds_pure () s
  | cons a as ih =>
    exact succeeds_bind (hstep a as s h) fun _ t hrun => ih (hkeep a as s t h hrun)

/-! ## Relations between the first and the last state -/

/-- Every run that succeeds relates the state it starts in to the one it ends in. -/
def Yields (R : σ → σ → Prop) (m : Program ε σ α) : Prop := ∀ s a t, m s = (.ok a, t) → R s t

/-- Every run from a state with `P` relates that state to the one it ends in, failing or not. -/
def MovesFrom (P : σ → Prop) (R : σ → σ → Prop) (m : Program ε σ α) : Prop :=
  ∀ s, P s → R s (m s).2

/-- Every run relates the state it starts in to the state it ends in. -/
def Moves (R : σ → σ → Prop) (m : Program ε σ α) : Prop := ∀ s, R s (m s).2

/-- The relation of an invariant: it holds after, if it held before. -/
def Preserves (I : σ → Prop) (s t : σ) : Prop := I s → I t

instance (I : σ → Prop) : Std.Refl (Preserves I) where
  refl _ h := h

instance (I : σ → Prop) : IsTrans σ (Preserves I) where
  trans _ _ _ hst htu h := htu (hst h)

section

variable {P : σ → Prop} {R : σ → σ → Prop}

theorem Moves.from {m : Program ε σ α} (h : Moves R m) : MovesFrom P R m := fun s _ => h s

theorem Moves.mono {R' : σ → σ → Prop} (h : ∀ s t, R s t → R' s t) {m : Program ε σ α}
    (hm : Moves R m) : Moves R' m := fun s => h _ _ (hm s)

/-- The continuation starts from what a successful first program leaves. -/
theorem movesFrom_bind [IsTrans σ R] {m : Program ε σ α} {k : α → Program ε σ β}
    (Q : α → σ → Prop) (hm : MovesFrom P R m)
    (hpost : ∀ s a t, P s → m s = (.ok a, t) → Q a t) (hk : ∀ a, MovesFrom (Q a) R (k a)) :
    MovesFrom P R (m >>= k) := by
  intro s hs
  rw [bind_run]
  have h := hm s hs
  cases hms : m s with
  | mk r t =>
    rw [hms] at h
    cases r with
    | ok a => exact IsTrans.trans _ _ _ h (hk a t (hpost s a t hs hms))
    | error e => exact h

theorem moves_bind_from [IsTrans σ R] {m : Program ε σ α} {k : α → Program ε σ β}
    (Q : α → σ → Prop) (hm : Moves R m) (hpost : ∀ s a t, m s = (.ok a, t) → Q a t)
    (hk : ∀ a, MovesFrom (Q a) R (k a)) : Moves R (m >>= k) := fun s =>
  movesFrom_bind Q (P := fun _ => True) hm.from (fun s a t _ => hpost s a t) hk s trivial

theorem moves_bind [IsTrans σ R] {m : Program ε σ α} {k : α → Program ε σ β} (hm : Moves R m)
    (hk : ∀ a, Moves R (k a)) : Moves R (m >>= k) :=
  moves_bind_from (fun _ _ => True) hm (fun _ _ _ _ => trivial) fun a => (hk a).from

theorem moves_pure [Std.Refl R] (a : α) : Moves R (pure a : Program ε σ α) :=
  fun s => Std.Refl.refl s

theorem moves_fail [Std.Refl R] (e : ε) : Moves R (fail e : Program ε σ α) :=
  fun s => Std.Refl.refl s

theorem moves_get [Std.Refl R] : Moves R (get : Program ε σ σ) := fun s => Std.Refl.refl s

theorem moves_lift [Std.Refl R] (x : Except ε α) : Moves R (lift x : Program ε σ α) := by
  cases x with
  | ok a => exact moves_pure a
  | error e => exact moves_fail e

theorem Moves.yields {m : Program ε σ α} (h : Moves R m) : Yields R m := by
  intro s a t hm
  have hs := h s
  rw [hm] at hs
  exact hs

theorem yields_bind [IsTrans σ R] {m : Program ε σ α} {k : α → Program ε σ β} (hm : Yields R m)
    (hk : ∀ a, Yields R (k a)) : Yields R (m >>= k) := by
  intro s b u h
  obtain ⟨a, t, hms, hkt⟩ := bind_ok h
  exact IsTrans.trans _ _ _ (hm s a t hms) (hk a t b u hkt)

theorem yields_forEach [Std.Refl R] [IsTrans σ R] {as : List α} {f : α → Program ε σ Unit}
    (h : ∀ a ∈ as, Yields R (f a)) : Yields R (forEach as f) := by
  induction as with
  | nil => exact (moves_pure ()).yields
  | cons a as ih =>
    exact yields_bind (h a List.mem_cons_self) fun _ =>
      ih fun b hb => h b (List.mem_cons_of_mem _ hb)

/-- Nothing is asked of the failures of an atomic program but that they go back along `R`. -/
theorem moves_atomically {back : σ → σ → σ} {m : Program ε σ α} (h : Yields R m)
    (hback : ∀ s t, R s (back s t)) : Moves R (atomically back m) := by
  intro s
  cases hrun : atomically back m s with
  | mk r t =>
    cases r with
    | ok a => exact h s a t (atomically_ok hrun)
    | error e =>
      obtain ⟨u, _, rfl⟩ := atomically_error hrun
      exact hback s u

theorem moves_attempt {m : Program ε σ α} (h : Moves R m) : Moves R (attempt m) := h

theorem moves_onlyIf [Std.Refl R] {b : Bool} {m : Program ε σ Unit} (h : Moves R m) :
    Moves R (onlyIf b m) := by
  unfold onlyIf
  split
  · exact h
  · exact moves_pure ()

theorem moves_forEach [Std.Refl R] [IsTrans σ R] {as : List α} {f : α → Program ε σ Unit}
    (h : ∀ a ∈ as, Moves R (f a)) : Moves R (forEach as f) := by
  induction as with
  | nil => exact moves_pure ()
  | cons a as ih =>
    exact moves_bind (h a List.mem_cons_self) fun _ =>
      ih fun b hb => h b (List.mem_cons_of_mem _ hb)

theorem moves_foldEach [Std.Refl R] [IsTrans σ R] {as : List α} {b : β}
    {f : β → α → Program ε σ β} (h : ∀ b, ∀ a ∈ as, Moves R (f b a)) :
    Moves R (foldEach as b f) := by
  induction as generalizing b with
  | nil => exact moves_pure b
  | cons a as ih =>
    exact moves_bind (h b a List.mem_cons_self) fun b' =>
      ih fun c d hd => h c d (List.mem_cons_of_mem _ hd)

end

end Program

end Library
