import AgosMemory.Library.Program
import Mathlib.Data.List.Induction

/-!
# Clients of a shared state

A client is a sequence of atomic steps on a state that it shares with others, where the outcome of a
step decides how the client goes on. In a pool any client may make the next step. The rule is of the
rely and guarantee kind with one preorder for both: between two of its steps a client only knows that
the invariant held and that the others moved along `R`, and each of its own steps must do the same.
-/

namespace Library

inductive Client (ε σ α : Type) where
  | done (r : Except ε α)
  | step (act : σ → σ) (next : σ → Client ε σ α)

namespace Client

open Program

variable {ε σ α β : Type}

protected def bind : Client ε σ α → (α → Client ε σ β) → Client ε σ β
  | done (.ok a), k => k a
  | done (.error e), _ => done (.error e)
  | step act next, k => step act fun s => (next s).bind k

instance : Monad (Client ε σ) where
  pure a := done (.ok a)
  bind := Client.bind

def fail (e : ε) : Client ε σ α := done (.error e)

def lift (r : Except ε α) : Client ε σ α := done r

/-- A program as one atomic step. -/
def call (m : Program ε σ α) : Client ε σ α := step (fun s => (m s).2) fun s => done (m s).1

/-- Hand a failure to the rest of the client as a value. -/
def attempt : Client ε σ α → Client ε σ (Except ε α)
  | done r => done (.ok r)
  | step act next => step act fun s => (next s).attempt

def onlyIf (b : Bool) (c : Client ε σ Unit) : Client ε σ Unit := if b then c else pure ()

def forEach : List α → (α → Client ε σ Unit) → Client ε σ Unit
  | [], _ => pure ()
  | a :: as, f => f a >>= fun _ => forEach as f

def foldEach : List α → β → (β → α → Client ε σ β) → Client ε σ β
  | [], b, _ => pure b
  | a :: as, b, f => f b a >>= fun b' => foldEach as b' f

/-- A client of a part of the state. -/
def zoom {τ : Type} (part : τ → σ) (put : τ → σ → τ) : Client ε σ α → Client ε τ α
  | done r => done r
  | step act next => step (fun t => put t (act (part t))) fun t => (next (part t)).zoom part put

theorem bind_assoc {γ : Type} (c : Client ε σ α) (k : α → Client ε σ β) (l : β → Client ε σ γ) :
    (c >>= k) >>= l = c >>= fun a => k a >>= l := by
  induction c with
  | done r => cases r <;> rfl
  | step act next ih => exact congrArg (step act) (funext ih)

theorem bind_pure (c : Client ε σ α) : (c >>= pure) = c := by
  induction c with
  | done r => cases r <;> rfl
  | step act next ih => exact congrArg (step act) (funext ih)

/-! ## A client that nobody interrupts -/

def alone : Client ε σ α → Program ε σ α
  | done r => fun s => (r, s)
  | step act next => fun s => (next s).alone (act s)

@[simp] theorem alone_pure (a : α) : (pure a : Client ε σ α).alone = pure a := rfl

@[simp] theorem alone_fail (e : ε) : (fail e : Client ε σ α).alone = Program.fail e := rfl

@[simp] theorem alone_lift (r : Except ε α) : (lift r : Client ε σ α).alone = Program.lift r := by
  cases r <;> rfl

@[simp] theorem alone_call (m : Program ε σ α) : (call m).alone = m := rfl

@[simp] theorem alone_bind (c : Client ε σ α) (k : α → Client ε σ β) :
    (c >>= k).alone = c.alone >>= fun a => (k a).alone := by
  induction c with
  | done r => cases r <;> rfl
  | step act next ih =>
    funext s
    exact congrFun (ih s) (act s)

@[simp] theorem alone_attempt (c : Client ε σ α) : c.attempt.alone = Program.attempt c.alone := by
  induction c with
  | done r => rfl
  | step act next ih =>
    funext s
    exact congrFun (ih s) (act s)

@[simp] theorem alone_onlyIf (b : Bool) (c : Client ε σ Unit) :
    (onlyIf b c).alone = Program.onlyIf b c.alone := by
  cases b <;> rfl

@[simp] theorem alone_forEach (as : List α) (f : α → Client ε σ Unit) :
    (forEach as f).alone = Program.forEach as fun a => (f a).alone := by
  induction as with
  | nil => rfl
  | cons a as ih => rw [forEach, alone_bind, ih, Program.forEach]

@[simp] theorem alone_foldEach (as : List α) (b : β) (f : β → α → Client ε σ β) :
    (foldEach as b f).alone = Program.foldEach as b fun b a => (f b a).alone := by
  induction as generalizing b with
  | nil => rfl
  | cons a as ih =>
    rw [foldEach, alone_bind, Program.foldEach]
    congr
    funext b'
    exact ih b'

/-- Alone, a client of a part of the state leaves the rest of it. -/
theorem alone_zoom {τ : Type} {part : τ → σ} {put : τ → σ → τ}
    (hpart : ∀ t s, part (put t s) = s) (hput : ∀ t s s', put (put t s) s' = put t s')
    (hself : ∀ t, put t (part t) = t) (c : Client ε σ α) (t : τ) :
    (c.zoom part put).alone t = ((c.alone (part t)).1, put t (c.alone (part t)).2) := by
  induction c generalizing t with
  | done r => exact Prod.ext rfl (hself t).symm
  | step act next ih =>
    have hnext := ih (part t) (put t (act (part t)))
    rw [hpart, hput] at hnext
    exact hnext

/-! ## Rely and guarantee -/

/-- A step keeps the invariant, and moves along `R`. -/
def Within (I : σ → Prop) (R : σ → σ → Prop) (s t : σ) : Prop := I s → I t ∧ R s t

section

variable {I : σ → Prop} {R : σ → σ → Prop}

instance [Std.Refl R] : Std.Refl (Within I R) where
  refl s hs := ⟨hs, Std.Refl.refl s⟩

instance [IsTrans σ R] : IsTrans σ (Within I R) where
  trans _ _ _ hab hbc ha :=
    ⟨(hbc (hab ha).1).1, IsTrans.trans _ _ _ (hab ha).2 (hbc (hab ha).1).2⟩

/-- From a state the others leave along `R`, every step stays within `I` and `R`, and a last step
that succeeds relates the states around it by `W`. -/
def Safe (I : σ → Prop) (R : σ → σ → Prop) (W : α → σ → σ → Prop) : Client ε σ α → σ → Prop
  | done _, _ => True
  | step act next, s => ∀ t, I t → R s t →
    (I (act t) ∧ R t (act t)) ∧ (∀ a, next t = done (.ok a) → W a t (act t)) ∧
      (next t).Safe I R W (act t)

theorem Safe.later [IsTrans σ R] {W : α → σ → σ → Prop} {c : Client ε σ α} {s t : σ}
    (h : c.Safe I R W s) (hst : R s t) : c.Safe I R W t := by
  cases c with
  | done r => trivial
  | step act next => exact fun u hu htu => h u hu (IsTrans.trans _ _ _ hst htu)

/-- A first step, whose success hands over to the rest of the client or ends it. -/
theorem safe_call_bind {m : Program ε σ α} {k : α → Client ε σ β} {W : β → σ → σ → Prop} {s : σ}
    (hm : Moves (Within I R) m)
    (hlast : ∀ a t u b, I t → R s t → m t = (.ok a, u) → k a = done (.ok b) → W b t u)
    (hk : ∀ a t u, I t → R s t → m t = (.ok a, u) → (k a).Safe I R W u) :
    (call m >>= k).Safe I R W s := by
  intro t ht hst
  refine ⟨hm t ht, ?_⟩
  show (∀ b, Client.bind (done (m t).1) k = done (.ok b) → W b t (m t).2) ∧
    (Client.bind (done (m t).1) k).Safe I R W (m t).2
  cases hrun : m t with
  | mk r u =>
    cases r with
    | ok a => exact ⟨fun b hb => hlast a t u b ht hst hrun hb, hk a t u ht hst hrun⟩
    | error e => exact ⟨fun b hb => (by cases hb), trivial⟩

/-- A client whose steps stay within `I` and `R`, from any state. -/
def Keeps (I : σ → Prop) (R : σ → σ → Prop) : Client ε σ α → Prop
  | done _ => True
  | step act next => ∀ s, Within I R s (act s) ∧ (next s).Keeps I R

theorem keeps_pure (a : α) : (pure a : Client ε σ α).Keeps I R := trivial

theorem keeps_fail (e : ε) : (fail e : Client ε σ α).Keeps I R := trivial

theorem keeps_lift (r : Except ε α) : (lift r : Client ε σ α).Keeps I R := trivial

theorem keeps_call {m : Program ε σ α} (h : Moves (Within I R) m) : (call m).Keeps I R :=
  fun s => ⟨h s, trivial⟩

theorem keeps_bind {c : Client ε σ α} {k : α → Client ε σ β} (hc : c.Keeps I R)
    (hk : ∀ a, (k a).Keeps I R) : (c >>= k).Keeps I R := by
  induction c with
  | done r =>
    cases r with
    | ok a => exact hk a
    | error e => trivial
  | step act next ih => exact fun s => ⟨(hc s).1, ih s (hc s).2⟩

/-- The rest of a client may use what a first step without effect returned. -/
theorem keeps_bind_lift {r : Except ε α} {k : α → Client ε σ β}
    (hk : ∀ a, r = .ok a → (k a).Keeps I R) : (lift r >>= k).Keeps I R := by
  cases r with
  | ok a => exact hk a rfl
  | error e => trivial

/-- The rest of a client may use that a first step returned what it did. -/
theorem keeps_call_bind {m : Program ε σ α} {k : α → Client ε σ β} (h : Moves (Within I R) m)
    (hk : ∀ s a t, m s = (.ok a, t) → (k a).Keeps I R) : (call m >>= k).Keeps I R := by
  intro s
  refine ⟨h s, ?_⟩
  show (Client.bind (done (m s).1) k).Keeps I R
  cases hrun : m s with
  | mk r t =>
    cases r with
    | ok a => exact hk s a t hrun
    | error e => trivial

theorem keeps_attempt {c : Client ε σ α} (h : c.Keeps I R) : c.attempt.Keeps I R := by
  induction c with
  | done r => trivial
  | step act next ih => exact fun s => ⟨(h s).1, ih s (h s).2⟩

theorem keeps_onlyIf {b : Bool} {c : Client ε σ Unit} (h : c.Keeps I R) :
    (onlyIf b c).Keeps I R := by
  unfold onlyIf
  split
  · exact h
  · exact keeps_pure ()

theorem keeps_forEach {as : List α} {f : α → Client ε σ Unit} (h : ∀ a ∈ as, (f a).Keeps I R) :
    (forEach as f).Keeps I R := by
  induction as with
  | nil => trivial
  | cons a as ih =>
    exact keeps_bind (h a List.mem_cons_self) fun _ =>
      ih fun b hb => h b (List.mem_cons_of_mem _ hb)

theorem keeps_foldEach {as : List α} {b : β} {f : β → α → Client ε σ β}
    (h : ∀ b, ∀ a ∈ as, (f b a).Keeps I R) : (foldEach as b f).Keeps I R := by
  induction as generalizing b with
  | nil => trivial
  | cons a as ih =>
    exact keeps_bind (h b a List.mem_cons_self) fun b' =>
      ih fun c d hd => h c d (List.mem_cons_of_mem _ hd)

/-- What a client keeps of its part, it keeps of the whole. -/
theorem keeps_zoom {τ : Type} {part : τ → σ} {put : τ → σ → τ} {J : τ → Prop} {Q : τ → τ → Prop}
    (hpart : ∀ t s, Within I R (part t) s → Within J Q t (put t s)) {c : Client ε σ α}
    (h : c.Keeps I R) : (c.zoom part put).Keeps J Q := by
  induction c with
  | done r => trivial
  | step act next ih => exact fun t => ⟨hpart t _ (h (part t)).1, ih (part t) (h (part t)).2⟩

/-- Every step stays within `I` and `R`, and when the client ends, `Q` holds of its steps, each with
the states around it, and of the outcome. `log` is what it did so far. -/
def Serves (I : σ → Prop) (R : σ → σ → Prop) (Q : List (σ × σ) → Except ε α → Prop) :
    Client ε σ α → List (σ × σ) → σ → Prop
  | done r, log, _ => Q log r
  | step act next, log, s => ∀ t, I t → R s t →
    (I (act t) ∧ R t (act t)) ∧ (next t).Serves I R Q (log ++ [(t, act t)]) (act t)

section

variable {Q : List (σ × σ) → Except ε α → Prop} {log : List (σ × σ)} {s : σ}

theorem Serves.later [IsTrans σ R] {c : Client ε σ α} {t : σ} (h : c.Serves I R Q log s)
    (hst : R s t) : c.Serves I R Q log t := by
  cases c with
  | done r => exact h
  | step act next => exact fun u hu htu => h u hu (IsTrans.trans _ _ _ hst htu)

theorem serves_call {m : Program ε σ α} (hm : Moves (Within I R) m)
    (hQ : ∀ t, I t → R s t → Q (log ++ [(t, (m t).2)]) (m t).1) :
    (call m).Serves I R Q log s := fun t ht hst => ⟨hm t ht, hQ t ht hst⟩

theorem serves_call_bind {m : Program ε σ β} {k : β → Client ε σ α} (hm : Moves (Within I R) m)
    (herror : ∀ t e u, I t → R s t → m t = (.error e, u) → Q (log ++ [(t, u)]) (.error e))
    (hok : ∀ t b u, I t → R s t → m t = (.ok b, u) →
      (k b).Serves I R Q (log ++ [(t, u)]) u) : (call m >>= k).Serves I R Q log s := by
  intro t ht hst
  refine ⟨hm t ht, ?_⟩
  show (Client.bind (done (m t).1) k).Serves I R Q (log ++ [(t, (m t).2)]) (m t).2
  cases hrun : m t with
  | mk r u =>
    cases r with
    | ok b => exact hok t b u ht hst hrun
    | error e => exact herror t e u ht hst hrun

theorem Keeps.serves {c : Client ε σ α} (h : c.Keeps I R) (hQ : ∀ log r, Q log r) :
    c.Serves I R Q log s := by
  induction c generalizing log s with
  | done r => exact hQ log r
  | step act next ih => exact fun t ht _ => ⟨(h t).1 ht, ih t (h t).2⟩

/-- What follows a client reads its steps and its outcome. -/
theorem Serves.bind {c : Client ε σ β} {k : β → Client ε σ α}
    {P : List (σ × σ) → Except ε β → Prop} (hc : c.Serves I R P log s)
    (herror : ∀ log e, P log (.error e) → Q log (.error e))
    (hok : ∀ log b s, P log (.ok b) → (k b).Serves I R Q log s) :
    (c >>= k).Serves I R Q log s := by
  induction c generalizing log s with
  | done r =>
    cases r with
    | ok b => exact hok log b s hc
    | error e => exact herror log e hc
  | step act next ih => exact fun t ht hst => ⟨(hc t ht hst).1, ih t (hc t ht hst).2⟩

end

/-- Without a demand on the last step, a client that keeps `I` and `R` is safe anywhere. -/
theorem Keeps.safe {c : Client ε σ α} (h : c.Keeps I R) {W : α → σ → σ → Prop}
    (hW : ∀ a s t, W a s t) (s : σ) : c.Safe I R W s := by
  induction c generalizing s with
  | done r => trivial
  | step act next ih =>
    exact fun t ht _ => ⟨(h t).1 ht, fun a _ => hW a _ _, ih t (h t).2 _⟩

end

/-- Whatever the others do in between, `Q` holds of the steps made so far after each of them. -/
def Records (Q : List (σ × σ) → Prop) : Client ε σ α → List (σ × σ) → Prop
  | done _, _ => True
  | step act next, log => ∀ t, Q (log ++ [(t, act t)]) ∧ (next t).Records Q (log ++ [(t, act t)])

section

variable {Q : List (σ × σ) → Prop} {log : List (σ × σ)}

theorem records_call_bind {m : Program ε σ β} {k : β → Client ε σ α}
    (hm : ∀ t, Q (log ++ [(t, (m t).2)]))
    (hk : ∀ t b u, m t = (.ok b, u) → (k b).Records Q (log ++ [(t, u)])) :
    (call m >>= k).Records Q log := by
  intro t
  refine ⟨hm t, ?_⟩
  show (Client.bind (done (m t).1) k).Records Q (log ++ [(t, (m t).2)])
  cases hrun : m t with
  | mk r u =>
    cases r with
    | ok b => exact hk t b u hrun
    | error e => trivial

theorem Records.bind {c : Client ε σ β} {k : β → Client ε σ α} (hc : c.Records Q log)
    (hk : ∀ b log, (k b).Records Q log) : (c >>= k).Records Q log := by
  induction c generalizing log with
  | done r =>
    cases r with
    | ok b => exact hk b log
    | error e => trivial
  | step act next ih => exact fun t => ⟨(hc t).1, ih t (hc t).2⟩

theorem records_of_forall (c : Client ε σ α) (hQ : ∀ log, Q log) : c.Records Q log := by
  induction c generalizing log with
  | done r => trivial
  | step act next ih => exact fun t => ⟨hQ _, ih t⟩

end

/-! ## What every step does -/

def outcome? : Client ε σ α → Option (Except ε α)
  | done r => some r
  | step _ _ => none

/-- Every step, from any state, relates the states around it by `G`, which also reads the outcome
when the step is the last one. -/
def Obeys (G : Option (Except ε α) → σ → σ → Prop) : Client ε σ α → Prop
  | done _ => True
  | step act next => ∀ s, G (next s).outcome? s (act s) ∧ (next s).Obeys G

section

variable {G : Option (Except ε α) → σ → σ → Prop}

/-- What a client keeps is a relation that it obeys. -/
theorem Keeps.obeys {I : σ → Prop} {R : σ → σ → Prop} {c : Client ε σ α} (h : c.Keeps I R) :
    c.Obeys fun _ => Within I R := by
  induction c with
  | done r => trivial
  | step act next ih => exact fun s => ⟨(h s).1, ih s (h s).2⟩

theorem obeys_fail (e : ε) : (fail e : Client ε σ α).Obeys G := trivial

theorem obeys_call {m : Program ε σ α} (h : ∀ s, G (some (m s).1) s (m s).2) :
    (call m).Obeys G := fun s => ⟨h s, trivial⟩

theorem obeys_call_bind {m : Program ε σ β} {k : β → Client ε σ α}
    (hfail : ∀ s e t, m s = (.error e, t) → G (some (.error e)) s t)
    (hok : ∀ s b t, m s = (.ok b, t) → G (k b).outcome? s t) (hk : ∀ b, (k b).Obeys G) :
    (call m >>= k).Obeys G := by
  intro s
  show G (Client.bind (done (m s).1) k).outcome? s (m s).2 ∧
    (Client.bind (done (m s).1) k).Obeys G
  cases hrun : m s with
  | mk r t =>
    cases r with
    | ok b => exact ⟨hok s b t hrun, hk b⟩
    | error e => exact ⟨hfail s e t hrun, trivial⟩

end

end Client

/-! ## Pools -/

/-- A shared state, and the clients at work on it, each with the request it serves. -/
structure Pool (ι ε σ α : Type) where
  shared : σ
  clients : List (ι × Client ε σ α) := []

/-- A request arrives, or a client makes its next step. -/
inductive Pool.Event (ι : Type) where
  | start (i : ι)
  | advance (k : Nat)
  deriving DecidableEq, Repr

namespace Pool

variable {ι ε σ α : Type}

def step (client : ι → Client ε σ α) (p : Pool ι ε σ α) : Event ι → Pool ι ε σ α
  | .start i => { p with clients := p.clients ++ [(i, client i)] }
  | .advance k =>
    match p.clients[k]? with
    | some (i, .step act next) =>
      ⟨act p.shared, p.clients.set k (i, next p.shared)⟩
    | some (_, .done _) | none => p

def run (client : ι → Client ε σ α) (events : List (Event ι)) (p : Pool ι ε σ α) : Pool ι ε σ α :=
  events.foldl (step client) p

/-- What an event does to the shared state. -/
theorem step_shared (p : Pool ι ε σ α) (client : ι → Client ε σ α) (e : Event ι) :
    (p.step client e).shared = p.shared ∨
      ∃ k i act next, e = .advance k ∧ p.clients[k]? = some (i, .step act next) ∧
        (p.step client e).shared = act p.shared := by
  cases e with
  | start i => exact .inl rfl
  | advance k =>
    unfold Pool.step
    dsimp only
    split
    · next i act next hk => exact .inr ⟨k, i, act, next, rfl, hk, rfl⟩
    · exact .inl rfl
    · exact .inl rfl

/-- The step of client `k` serves `i` and returns `a`. -/
def Returns (p : Pool ι ε σ α) (k : Nat) (i : ι) (a : α) (s : σ) : Prop :=
  ∃ act next, p.clients[k]? = some (i, .step act next) ∧ next p.shared = .done (.ok a) ∧
    s = act p.shared

/-- Every client obeys the relation of its request. -/
def Obeys (G : ι → Option (Except ε α) → σ → σ → Prop) (p : Pool ι ε σ α) : Prop :=
  ∀ c ∈ p.clients, c.2.Obeys (G c.1)

section

variable {G : ι → Option (Except ε α) → σ → σ → Prop} {client : ι → Client ε σ α}

theorem Obeys.shared {p : Pool ι ε σ α} (h : p.Obeys G) (client : ι → Client ε σ α) (e : Event ι) :
    (p.step client e).shared = p.shared ∨
      ∃ k i act next, e = .advance k ∧ p.clients[k]? = some (i, .step act next) ∧
        (p.step client e).shared = act p.shared ∧
        G i (next p.shared).outcome? p.shared (act p.shared) := by
  rcases step_shared p client e with hsame | ⟨k, i, act, next, he, hk, hshared⟩
  · exact .inl hsame
  · exact .inr ⟨k, i, act, next, he, hk, hshared,
      (h _ (List.mem_of_getElem? hk) p.shared).1⟩

theorem Obeys.step {p : Pool ι ε σ α} (h : p.Obeys G) (hclient : ∀ i, (client i).Obeys (G i))
    (e : Event ι) : (p.step client e).Obeys G := by
  cases e with
  | start i =>
    intro c hc
    rcases List.mem_append.mp hc with hc | hc
    · exact h c hc
    · rw [List.mem_singleton.mp hc]
      exact hclient i
  | advance k =>
    unfold Pool.step
    dsimp only
    split
    · next i act next hk =>
      intro c hc
      rcases List.mem_or_eq_of_mem_set hc with hc | rfl
      · exact h c hc
      · exact (h _ (List.mem_of_getElem? hk) p.shared).2
    · exact h
    · exact h

theorem Obeys.run {p : Pool ι ε σ α} (h : p.Obeys G) (hclient : ∀ i, (client i).Obeys (G i))
    (events : List (Event ι)) : (p.run client events).Obeys G := by
  induction events generalizing p with
  | nil => exact h
  | cons e events ih => exact ih (h.step hclient e)

end

variable {I : σ → Prop} {R : σ → σ → Prop} {W : ι → α → σ → σ → Prop}

/-- The invariant of a pool. -/
structure Safe (I : σ → Prop) (R : σ → σ → Prop) (W : ι → α → σ → σ → Prop) (p : Pool ι ε σ α) :
    Prop where
  shared : I p.shared
  clients : ∀ c ∈ p.clients, c.2.Safe I R (W c.1) p.shared

theorem Safe.returns [Std.Refl R] {p : Pool ι ε σ α} (h : p.Safe I R W) {k : Nat} {i : ι} {a : α}
    {s : σ} (hreturns : p.Returns k i a s) : W i a p.shared s := by
  obtain ⟨act, next, hk, hnext, rfl⟩ := hreturns
  exact (h.clients _ (List.mem_of_getElem? hk) _ h.shared (Std.Refl.refl _)).2.1 a hnext

variable [Std.Refl R] [IsTrans σ R] {client : ι → Client ε σ α}

theorem Safe.step {p : Pool ι ε σ α} (h : p.Safe I R W) {e : Event ι}
    (hclient : ∀ i, e = .start i → ∀ s, (client i).Safe I R (W i) s) :
    (p.step client e).Safe I R W ∧ R p.shared (p.step client e).shared := by
  cases e with
  | start i =>
    refine ⟨⟨h.shared, fun c hc => ?_⟩, Std.Refl.refl _⟩
    rcases List.mem_append.mp hc with hc | hc
    · exact h.clients c hc
    · rw [List.mem_singleton.mp hc]
      exact hclient i rfl _
  | advance k =>
    unfold Pool.step
    dsimp only
    split
    · next i act next hk =>
      obtain ⟨⟨hinv, hmove⟩, _, hnext⟩ :=
        h.clients _ (List.mem_of_getElem? hk) _ h.shared (Std.Refl.refl _)
      refine ⟨⟨hinv, fun c hc => ?_⟩, hmove⟩
      rcases List.mem_or_eq_of_mem_set hc with hc | rfl
      · exact (h.clients c hc).later hmove
      · exact hnext
    · exact ⟨h, Std.Refl.refl _⟩
    · exact ⟨h, Std.Refl.refl _⟩

/-- Every interleaving of safe clients keeps the invariant and moves along `R`. -/
theorem Safe.run {events : List (Event ι)} {p : Pool ι ε σ α} (h : p.Safe I R W)
    (hclient : ∀ i, .start i ∈ events → ∀ s, (client i).Safe I R (W i) s) :
    (p.run client events).Safe I R W ∧ R p.shared (p.run client events).shared := by
  induction events generalizing p with
  | nil => exact ⟨h, Std.Refl.refl _⟩
  | cons e events ih =>
    obtain ⟨hstep, hmove⟩ := h.step fun i hi => hclient i (hi ▸ List.mem_cons_self)
    obtain ⟨hrun, hmoves⟩ := ih hstep fun i hi => hclient i (List.mem_cons_of_mem _ hi)
    exact ⟨hrun, IsTrans.trans _ _ _ hmove hmoves⟩

/-! ## What one client did -/

/-- The step of client `k` that an event is, with the states around it. -/
def stepOf (p : Pool ι ε σ α) (e : Event ι) (k : Nat) : List (σ × σ) :=
  match e, p.clients[k]? with
  | .advance j, some (_, .step act _) => if j = k then [(p.shared, act p.shared)] else []
  | _, _ => []

/-- The steps of client `k` in a run. -/
def stepsOf (client : ι → Client ε σ α) : List (Event ι) → Pool ι ε σ α → Nat → List (σ × σ)
  | [], _, _ => []
  | e :: events, p, k => p.stepOf e k ++ stepsOf client events (p.step client e) k

/-- The invariant of a pool whose clients have done what is in `logs`. -/
structure Serving (I : σ → Prop) (R : σ → σ → Prop) (Q : ι → List (σ × σ) → Except ε α → Prop)
    (logs : Nat → List (σ × σ)) (p : Pool ι ε σ α) : Prop where
  shared : I p.shared
  clients : ∀ (k : Nat) (i : ι) (c : Client ε σ α), p.clients[k]? = some (i, c) →
    c.Serves I R (Q i) (logs k) p.shared
  idle : ∀ k, p.clients.length ≤ k → logs k = []

section

variable {I : σ → Prop} {R : σ → σ → Prop} {Q : ι → List (σ × σ) → Except ε α → Prop}
  {logs : Nat → List (σ × σ)} {client : ι → Client ε σ α} {p : Pool ι ε σ α}

theorem stepOf_of_ne {e : Event ι} {k : Nat} (h : e ≠ .advance k) : p.stepOf e k = [] := by
  unfold stepOf
  split
  · next j _ _ _ _ => exact if_neg fun heq => h (congrArg Event.advance heq)
  · rfl

theorem stepOf_of_step {k : Nat} {i : ι} {act : σ → σ} {next : σ → Client ε σ α}
    (hk : p.clients[k]? = some (i, .step act next)) :
    p.stepOf (.advance k) k = [(p.shared, act p.shared)] := by
  unfold stepOf
  rw [hk]
  exact if_pos rfl

theorem stepOf_eq_nil {e : Event ι} {k : Nat}
    (h : ∀ i act next, p.clients[k]? ≠ some (i, .step act next)) : p.stepOf e k = [] := by
  unfold stepOf
  split
  · next i act next hk => exact absurd hk (h i act next)
  · rfl

/-- Where a client stands after an event: it has made its step, or it is new, or nothing happened to
it. -/
theorem step_client {p : Pool ι ε σ α} {e : Event ι} {k : Nat} {i : ι} {c : Client ε σ α}
    (h : (p.step client e).clients[k]? = some (i, c)) :
    (∃ act next, p.clients[k]? = some (i, .step act next) ∧ c = next p.shared ∧
        p.stepOf e k = [(p.shared, act p.shared)] ∧ (p.step client e).shared = act p.shared) ∨
      (k = p.clients.length ∧ c = client i ∧ p.stepOf e k = []) ∨
      (p.clients[k]? = some (i, c) ∧ p.stepOf e k = []) := by
  cases e with
  | start j =>
    have hquiet : p.stepOf (.start j) k = [] := stepOf_of_ne fun hk => (by cases hk)
    rcases Nat.lt_or_ge k p.clients.length with hlt | hge
    · exact .inr (.inr ⟨(List.getElem?_append_left hlt).symm.trans h, hquiet⟩)
    · have hnew : [(j, client j)][k - p.clients.length]? = some (i, c) :=
        (List.getElem?_append_right hge).symm.trans h
      have hk : k - p.clients.length < 1 := (List.getElem?_eq_some_iff.mp hnew).1
      obtain ⟨rfl, rfl⟩ := Prod.mk.inj (List.mem_singleton.mp (List.mem_of_getElem? hnew))
      exact .inr (.inl ⟨by omega, rfl, hquiet⟩)
  | advance j =>
    unfold Pool.step at h ⊢
    dsimp only at h ⊢
    split at h
    · next i' act next hj =>
      by_cases heq : k = j
      · subst heq
        rw [List.getElem?_set_self (List.getElem?_eq_some_iff.mp hj).1] at h
        obtain ⟨rfl, rfl⟩ := Prod.mk.inj (Option.some.inj h)
        exact .inl ⟨act, next, hj, rfl, stepOf_of_step hj, rfl⟩
      · rw [List.getElem?_set_ne (Ne.symm heq)] at h
        exact .inr (.inr ⟨h, stepOf_of_ne fun h => heq (Event.advance.inj h).symm⟩)
    · next i' r hj =>
      refine .inr (.inr ⟨h, ?_⟩)
      by_cases heq : k = j
      · exact stepOf_eq_nil fun i act next hstep => by rw [heq, hj] at hstep; cases hstep
      · exact stepOf_of_ne fun h => heq (Event.advance.inj h).symm
    · next hj =>
      refine .inr (.inr ⟨h, ?_⟩)
      by_cases heq : k = j
      · exact stepOf_eq_nil fun i act next hstep => by rw [heq, hj] at hstep; cases hstep
      · exact stepOf_of_ne fun h => heq (Event.advance.inj h).symm

theorem stepOf_idle {p : Pool ι ε σ α} {k : Nat} (h : p.clients.length ≤ k) (e : Event ι) :
    p.stepOf e k = [] := by
  refine stepOf_eq_nil fun i act next hk => ?_
  rw [List.getElem?_eq_none h] at hk
  cases hk

theorem length_step (p : Pool ι ε σ α) (e : Event ι) :
    p.clients.length ≤ (p.step client e).clients.length := by
  cases e with
  | start i =>
    show _ ≤ (p.clients ++ [(i, client i)]).length
    rw [List.length_append]
    exact Nat.le_add_right _ _
  | advance k =>
    unfold Pool.step
    dsimp only
    split
    · exact Nat.le_of_eq (List.length_set ..).symm
    · exact Nat.le_refl _
    · exact Nat.le_refl _

theorem Serving.step [IsTrans σ R] [Std.Refl R] (h : p.Serving I R Q logs)
    (hclient : ∀ i s, (client i).Serves I R (Q i) [] s) (e : Event ι) :
    (p.step client e).Serving I R Q fun k => logs k ++ p.stepOf e k := by
  have hmoved : I (p.step client e).shared ∧ R p.shared (p.step client e).shared := by
    rcases step_shared p client e with hsame | ⟨k, i, act, next, -, hk, hshared⟩
    · rw [hsame]
      exact ⟨h.shared, Std.Refl.refl _⟩
    · rw [hshared]
      exact (h.clients k i _ hk _ h.shared (Std.Refl.refl _)).1
  refine ⟨hmoved.1, fun k i c hk => ?_, fun k hlength => ?_⟩
  · rcases step_client hk with ⟨act, next, hbefore, rfl, hstep, hshared⟩ | ⟨hnew, rfl, hstep⟩ |
      ⟨hbefore, hstep⟩
    · rw [hstep, hshared]
      exact (h.clients k i _ hbefore _ h.shared (Std.Refl.refl _)).2
    · rw [hstep, h.idle k (Nat.le_of_eq hnew.symm)]
      exact hclient i _
    · rw [hstep, List.append_nil]
      exact (h.clients k i c hbefore).later hmoved.2
  · have hbefore := Nat.le_trans (length_step p e) hlength
    rw [stepOf_idle hbefore, List.append_nil]
    exact h.idle k hbefore

theorem Serving.run [IsTrans σ R] [Std.Refl R] (h : p.Serving I R Q logs)
    (hclient : ∀ i s, (client i).Serves I R (Q i) [] s) (events : List (Event ι)) :
    (p.run client events).Serving I R Q fun k => logs k ++ stepsOf client events p k := by
  induction events generalizing p logs with
  | nil =>
    have hsame : (fun k => logs k ++ stepsOf client [] p k) = logs :=
      funext fun k => List.append_nil _
    rw [hsame]
    exact h
  | cons e events ih =>
    have hsame : (fun k => logs k ++ stepsOf client (e :: events) p k) =
        fun k => (logs k ++ p.stepOf e k) ++ stepsOf client events (p.step client e) k :=
      funext fun k => (List.append_assoc _ _ _).symm
    rw [hsame]
    exact ih (h.step hclient e)

/-- In every run, what a client that ended did meets its postcondition. -/
theorem serves_run [IsTrans σ R] [Std.Refl R] (hclient : ∀ i s, (client i).Serves I R (Q i) [] s)
    {s : σ} (hs : I s) {events : List (Event ι)} {k : Nat} {i : ι} {r : Except ε α}
    (hk : (Pool.run client events ⟨s, []⟩).clients[k]? = some (i, .done r)) :
    Q i (stepsOf client events ⟨s, []⟩ k) r := by
  have hstart : Pool.Serving I R Q (fun _ => []) (⟨s, []⟩ : Pool ι ε σ α) :=
    ⟨hs, fun k i c hc => (by cases hc), fun _ _ => rfl⟩
  exact (hstart.run hclient events).clients k i _ hk

end

/-! ## At every point of a run -/

section

variable {client : ι → Client ε σ α}

theorem stepsOf_concat (events : List (Event ι)) (p : Pool ι ε σ α) (e : Event ι) (k : Nat) :
    stepsOf client (events ++ [e]) p k =
      stepsOf client events p k ++ (p.run client events).stepOf e k := by
  induction events generalizing p with
  | nil => exact List.append_nil _
  | cons e' events ih =>
    show p.stepOf e' k ++ stepsOf client (events ++ [e]) (p.step client e') k = _
    rw [ih, ← List.append_assoc]
    rfl

theorem run_concat (events : List (Event ι)) (p : Pool ι ε σ α) (e : Event ι) :
    p.run client (events ++ [e]) = (p.run client events).step client e := List.foldl_append

/-- At every point of every run, `Q` holds of what a client has done. -/
theorem records_run {Q : ι → List (σ × σ) → Prop} (hnil : ∀ i, Q i [])
    (hclient : ∀ i, (client i).Records (Q i) []) {s : σ} {events : List (Event ι)} {k : Nat} {i : ι}
    {c : Client ε σ α} (hk : (Pool.run client events ⟨s, []⟩).clients[k]? = some (i, c)) :
    Q i (stepsOf client events ⟨s, []⟩ k) := by
  have hidle : ∀ events : List (Event ι), ∀ k,
      (Pool.run client events (⟨s, []⟩ : Pool ι ε σ α)).clients.length ≤ k →
        stepsOf client events ⟨s, []⟩ k = [] := by
    intro events
    induction events using List.reverseRecOn with
    | nil => exact fun _ _ => rfl
    | append_singleton events e ih =>
      intro k hlength
      rw [run_concat] at hlength
      have hbefore := Nat.le_trans (length_step _ e) hlength
      rw [stepsOf_concat, ih k hbefore, stepOf_idle hbefore]
      rfl
  have hall : ∀ (events : List (Event ι)) (k : Nat) (i : ι) (c : Client ε σ α),
      (Pool.run client events ⟨s, []⟩).clients[k]? = some (i, c) →
        Q i (stepsOf client events ⟨s, []⟩ k) ∧ c.Records (Q i) (stepsOf client events ⟨s, []⟩ k) := by
    intro events
    induction events using List.reverseRecOn with
    | nil => exact fun k i c hk => by cases hk
    | append_singleton events e ih =>
      intro k i c hk
      rw [run_concat] at hk
      rw [stepsOf_concat]
      rcases step_client hk with ⟨act, next, hbefore, rfl, hstep, -⟩ | ⟨rfl, rfl, hstep⟩ |
        ⟨hbefore, hstep⟩
      · rw [hstep]
        exact (ih k _ _ hbefore).2 _
      · rw [hstep, hidle events _ (Nat.le_refl _)]
        exact ⟨hnil i, hclient i⟩
      · rw [hstep, List.append_nil]
        exact ih k i c hbefore
  exact (hall events k i c hk).1

end

end Pool

end Library
