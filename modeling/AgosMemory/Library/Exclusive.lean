import AgosMemory.Library.Clients

/-!
# Clients behind a lock

Clients share a state and one lock, which a client takes if it is free and has until it stops. A client may
stop anywhere; what it did stays, and the lock it had is free again. A client is judged by its own rely and
guarantee. With the rule that only the holder of the lock touches what the lock guards, the rely of a holder
says that nothing happens in between, so its steps are those of a sequential program that may be cut off.
-/

namespace Library

namespace Client

variable {ε σ α β : Type} {I : σ → Prop} {R G : σ → σ → Prop} {Q : Except ε α → σ → Prop} {s t : σ}

/-- From a state that the others change along `R`, every step keeps `I` and moves along `G`, and the end
satisfies `Q`. -/
def Secure (I : σ → Prop) (R G : σ → σ → Prop) (Q : Except ε α → σ → Prop) : Client ε σ α → σ → Prop
  | done r, s => Q r s
  | step act next, s => ∀ t, I t → R s t → (I (act t) ∧ G t (act t)) ∧
    (next t).Secure I R G Q (act t)

theorem Secure.later [IsTrans σ R] (hQ : ∀ r s t, R s t → Q r s → Q r t) {c : Client ε σ α}
    (h : c.Secure I R G Q s) (hst : R s t) : c.Secure I R G Q t := by
  cases c with
  | done r => exact hQ r s t hst h
  | step act next => exact fun u hu htu => h u hu (IsTrans.trans _ _ _ hst htu)

theorem Secure.mono {Q' : Except ε α → σ → Prop} (hQ : ∀ r s, Q r s → Q' r s) {c : Client ε σ α}
    (h : c.Secure I R G Q s) : c.Secure I R G Q' s := by
  induction c generalizing s with
  | done r => exact hQ r s h
  | step act next ih => exact fun t ht hst => ⟨(h t ht hst).1, ih t (h t ht hst).2⟩

theorem secure_call {m : Program ε σ α}
    (h : ∀ t, I t → R s t → (I (m t).2 ∧ G t (m t).2) ∧ Q (m t).1 (m t).2) :
    (call m).Secure I R G Q s := h

theorem Secure.bind {c : Client ε σ β} {k : β → Client ε σ α} {P : Except ε β → σ → Prop}
    (hc : c.Secure I R G P s) (herror : ∀ e s, P (.error e) s → Q (.error e) s)
    (hok : ∀ b s, P (.ok b) s → (k b).Secure I R G Q s) : (c >>= k).Secure I R G Q s := by
  induction c generalizing s with
  | done r =>
    cases r with
    | ok b => exact hok b s hc
    | error e => exact herror e s hc
  | step act next ih => exact fun t ht hst => ⟨(hc t ht hst).1, ih t (hc t ht hst).2⟩

/-- Every client is secure where nothing is asked. -/
theorem secure_trivial (c : Client ε σ α) :
    c.Secure (fun _ => True) R (fun _ _ => True) (fun _ _ => True) s := by
  induction c generalizing s with
  | done r => trivial
  | step act next ih => exact fun _ _ _ => ⟨⟨trivial, trivial⟩, ih _⟩

/-- A first step that cannot fail here. -/
theorem secure_call_bind {m : Program ε σ β} {k : β → Client ε σ α}
    (h : ∀ t, I t → R s t → ∃ b u, m t = (.ok b, u) ∧ (I u ∧ G t u) ∧ (k b).Secure I R G Q u) :
    (call m >>= k).Secure I R G Q s := by
  intro t ht hst
  obtain ⟨b, u, hm, hstep, hk⟩ := h t ht hst
  show (I (m t).2 ∧ G t (m t).2) ∧ (Client.bind (done (m t).1) k).Secure I R G Q (m t).2
  rw [hm]
  exact ⟨hstep, hk⟩

/-- Nobody else is there. -/
theorem Secure.alone {c : Client ε σ α} (h : c.Secure I Eq G Q s) (hs : I s) :
    Q (c.alone s).1 (c.alone s).2 := by
  induction c generalizing s with
  | done r => exact h
  | step act next ih => exact ih s (h s hs rfl).2 (h s hs rfl).1.1

end Client

namespace Exclusive

open Client Program

/-- A state, who holds the lock on it, and the requests of all that have taken the lock so far. -/
structure Locked (ι σ : Type) where
  shared : σ
  holder : Option Nat := none
  taken : List ι := []

variable {ι ε σ α : Type}

/-- Take the lock unless somebody has it. -/
def tryLock (k : Nat) (i : ι) : Program ε (Locked ι σ) Bool := fun s =>
  match s.holder with
  | none => (.ok true, { s with holder := some k, taken := s.taken ++ [i] })
  | some _ => (.ok false, s)

def release (k : Nat) (s : Locked ι σ) : Locked ι σ :=
  if s.holder = some k then { s with holder := none } else s

/-- A program of the shared state. -/
def shared (m : Program ε σ α) : Program ε (Locked ι σ) α := fun s =>
  ((m s.shared).1, { s with shared := (m s.shared).2 })

/-! ## What clients see of each other -/

/-- What client `k` may rely on: nobody gives it the lock or takes the lock from it, and while it has the
lock what the lock guards stays the same. -/
structure Kept (same : σ → σ → Prop) (k : Nat) (s t : Locked ι σ) : Prop where
  taken : ∃ l, t.taken = s.taken ++ l
  holder : t.holder = some k ↔ s.holder = some k
  shared : s.holder = some k → same s.shared t.shared

/-- What a step of client `k` may do: it leaves the lock to whoever has it, and changes what the lock
guards only if it is the holder. -/
structure Fair (same : σ → σ → Prop) (k : Nat) (s t : Locked ι σ) : Prop where
  taken : ∃ l, t.taken = s.taken ++ l
  holder : ∀ j, j ≠ k → (t.holder = some j ↔ s.holder = some j)
  shared : s.holder ≠ some k → same s.shared t.shared

section

variable {same : σ → σ → Prop} {j k : Nat} {s t : Locked ι σ}

instance [Std.Refl same] : Std.Refl (Kept (ι := ι) same k) where
  refl _ := ⟨⟨[], (List.append_nil _).symm⟩, Iff.rfl, fun _ => Std.Refl.refl _⟩

instance [IsTrans σ same] : IsTrans (Locked ι σ) (Kept same k) where
  trans _ _ _ hst htu := by
    obtain ⟨⟨l, hl⟩, hholder, hshared⟩ := hst
    obtain ⟨⟨l', hl'⟩, hholder', hshared'⟩ := htu
    refine ⟨⟨l ++ l', by rw [hl', hl, List.append_assoc]⟩, hholder'.trans hholder, fun h => ?_⟩
    exact IsTrans.trans _ _ _ (hshared h) (hshared' (hholder.mpr h))

theorem Fair.kept (h : Fair same j s t) (hne : k ≠ j) : Kept same k s t :=
  ⟨h.taken, h.holder k hne, fun hk => h.shared fun hj =>
    hne (Option.some.inj (hk.symm.trans hj))⟩

@[simp] theorem release_shared : (release k s).shared = s.shared := by
  unfold release
  split <;> rfl

@[simp] theorem release_taken : (release k s).taken = s.taken := by
  unfold release
  split <;> rfl

theorem release_holder : (release k s).holder = some j ↔ s.holder = some j ∧ j ≠ k := by
  unfold release
  split
  · next hk =>
    refine ⟨fun h => (by cases h), fun ⟨hj, hne⟩ => ?_⟩
    exact absurd (Option.some.inj (hj.symm.trans hk)) hne
  · next hk => exact ⟨fun h => ⟨h, fun hjk => hk (hjk ▸ h)⟩, And.left⟩

theorem kept_release [Std.Refl same] (hne : k ≠ j) : Kept same k s (release j s) :=
  ⟨⟨[], by rw [release_taken, List.append_nil]⟩, by
    rw [release_holder]
    exact and_iff_left hne, fun _ => by
    rw [release_shared]
    exact Std.Refl.refl _⟩

end

end Exclusive

/-! ## Runs -/

open Client Exclusive

/-- The clients around a locked state, each with its request; those that have stopped have no program
left. -/
structure Hall (ι ε σ α : Type) where
  locked : Locked ι σ
  clients : List (ι × Option (Client ε (Locked ι σ) α)) := []

/-- A client arrives, makes its next step, or stops, whether it is at its end or not. -/
inductive Hall.Event (ι : Type) where
  | start (i : ι)
  | advance (k : Nat)
  | stop (k : Nat)
  deriving DecidableEq, Repr

namespace Hall

variable {ι ε σ α : Type}

/-- `client k i` is the program of client number `k`, which serves `i`. -/
def step (client : Nat → ι → Client ε (Locked ι σ) α) (h : Hall ι ε σ α) : Event ι → Hall ι ε σ α
  | .start i => { h with clients := h.clients ++ [(i, some (client h.clients.length i))] }
  | .advance k =>
    match h.clients[k]? with
    | some (i, some (.step act next)) =>
      ⟨act h.locked, h.clients.set k (i, some (next h.locked))⟩
    | some (_, some (.done _)) | some (_, none) | none => h
  | .stop k =>
    match h.clients[k]? with
    | some (i, some _) => ⟨release k h.locked, h.clients.set k (i, none)⟩
    | some (_, none) | none => h

def run (client : Nat → ι → Client ε (Locked ι σ) α) (events : List (Event ι)) (h : Hall ι ε σ α) :
    Hall ι ε σ α := events.foldl (step client) h

/-- The shared states of a run after its events. -/
def trace (client : Nat → ι → Client ε (Locked ι σ) α) : List (Event ι) → Hall ι ε σ α → List σ
  | [], _ => []
  | e :: events, h => (h.step client e).locked.shared :: trace client events (h.step client e)

/-- Client `k` serves `i`, and this is what is left of its program. -/
def At (h : Hall ι ε σ α) (k : Nat) (i : ι) (c : Client ε (Locked ι σ) α) : Prop :=
  h.clients[k]? = some (i, some c)

/-- The guarantee of client `k`, with the relation `G` of shared states that every step obeys. -/
def Guarantee (same G : σ → σ → Prop) (k : Nat) (s t : Locked ι σ) : Prop :=
  Fair same k s t ∧ G s.shared t.shared

/-- Of a part of what the lock guards, the holder is a sequential client that may be cut off. -/
theorem secure_zoom {τ : Type} {part : σ → τ} {put : σ → τ → σ} {I : Locked ι σ → Prop}
    {J : τ → Prop} {same G : σ → σ → Prop} {D : τ → τ → Prop} {P : Except ε α → τ → Prop}
    {Q : Except ε α → Locked ι σ → Prop} {k : Nat} (hpart : ∀ s d, part (put s d) = d)
    (hsame : ∀ s t, same s t → part t = part s) (hJ : ∀ l, I l → J (part l.shared))
    (hI : ∀ l d, I l → J d → I { l with shared := put l.shared d })
    (hG : ∀ s d, D (part s) d → G s (put s d)) {c : Client ε τ α} {l : Locked ι σ}
    (hQ : ∀ r l', l'.holder = some k → (∃ more, l'.taken = l.taken ++ more) → P r (part l'.shared) →
      Q r l') (hk : l.holder = some k) (hc : c.Secure J Eq D P (part l.shared)) :
    (c.zoom (fun l : Locked ι σ => part l.shared) fun l d =>
      { l with shared := put l.shared d }).Secure I (Kept same k) (Guarantee same G k) Q l := by
  induction c generalizing l with
  | done r => exact hQ r l hk ⟨[], (List.append_nil _).symm⟩ hc
  | step act next ih =>
    intro t ht hkept
    obtain ⟨more, hmore⟩ := hkept.taken
    have hheld := hkept.holder.mpr hk
    have hsamePart := hsame _ _ (hkept.shared hk)
    obtain ⟨⟨hj, hd⟩, hnext⟩ := hc (part t.shared) (hJ t ht) hsamePart.symm
    refine ⟨⟨hI t _ ht hj, ⟨⟨[], (List.append_nil _).symm⟩, fun _ _ => Iff.rfl, fun hno =>
      absurd hheld hno⟩, hG _ _ hd⟩, ih _ (fun r l' hk' ⟨more', hmore'⟩ => ?_) hheld ?_⟩
    · exact hQ r l' hk' ⟨more ++ more', by rw [hmore', ← List.append_assoc, ← hmore]⟩
    · rw [hpart]
      exact hnext

/-- The invariant of a hall. -/
structure Sound (I : Locked ι σ → Prop) (same G : σ → σ → Prop)
    (Q : Nat → ι → Except ε α → Locked ι σ → Prop) (h : Hall ι ε σ α) : Prop where
  locked : I h.locked
  clients : ∀ (k : Nat) (i : ι) (c : Client ε (Locked ι σ) α), h.At k i c →
    c.Secure I (Kept same k) (Guarantee same G k) (Q k i) h.locked
  holder : ∀ k, h.locked.holder = some k → ∃ i c, h.At k i c

/-- What is asked of the clients. -/
structure Rules (client : Nat → ι → Client ε (Locked ι σ) α) (I : Locked ι σ → Prop)
    (same G : σ → σ → Prop) (Q : Nat → ι → Except ε α → Locked ι σ → Prop) : Prop where
  refl : ∀ s, G s s
  released : ∀ k s, I s → I (release k s)
  stable : ∀ k i r s t, Kept same k s t → Q k i r s → Q k i r t
  secure : ∀ k i s, s.holder ≠ some k →
    (client k i).Secure I (Kept same k) (Guarantee same G k) (Q k i) s

section

variable {client : Nat → ι → Client ε (Locked ι σ) α} {I : Locked ι σ → Prop} {same G : σ → σ → Prop}
  {Q : Nat → ι → Except ε α → Locked ι σ → Prop} {h : Hall ι ε σ α}

theorem at_append_iff {k : Nat} {i j : ι} {c d : Client ε (Locked ι σ) α} :
    At { h with clients := h.clients ++ [(j, some d)] } k i c ↔
      h.At k i c ∨ k = h.clients.length ∧ i = j ∧ c = d := by
  unfold At
  dsimp only
  rcases Nat.lt_or_ge k h.clients.length with hlt | hge
  · rw [List.getElem?_append_left hlt]
    exact ⟨.inl, fun hk => hk.resolve_right fun hk => absurd hk.1 (Nat.ne_of_lt hlt)⟩
  · rw [List.getElem?_append_right hge, List.getElem?_eq_none hge]
    constructor
    · intro hk
      have hlt : k - h.clients.length < 1 := (List.getElem?_eq_some_iff.mp hk).1
      obtain ⟨rfl, heq⟩ := Prod.mk.inj (List.mem_singleton.mp (List.mem_of_getElem? hk))
      exact .inr ⟨by omega, rfl, Option.some.inj heq⟩
    · rintro (hk | ⟨rfl, rfl, rfl⟩)
      · cases hk
      · rw [Nat.sub_self]
        rfl

theorem at_set_iff {l : Locked ι σ} {k j : Nat} {i i' : ι} {c : Client ε (Locked ι σ) α}
    {o o' : Option (Client ε (Locked ι σ) α)} (hk : h.clients[j]? = some (i', o')) :
    At ⟨l, h.clients.set j (i', o)⟩ k i c ↔ (k = j ∧ i = i' ∧ o = some c) ∨ (k ≠ j ∧ h.At k i c) := by
  unfold At
  dsimp only
  by_cases hkj : k = j
  · subst hkj
    rw [List.getElem?_set_self (List.getElem?_eq_some_iff.mp hk).1]
    constructor
    · intro hk
      obtain ⟨rfl, rfl⟩ := Prod.mk.inj (Option.some.inj hk)
      exact .inl ⟨rfl, rfl, rfl⟩
    · rintro (⟨_, rfl, rfl⟩ | ⟨hne, _⟩)
      · rfl
      · exact absurd rfl hne
  · rw [List.getElem?_set_ne (Ne.symm hkj)]
    exact ⟨fun hk => .inr ⟨hkj, hk⟩, fun hk => (hk.resolve_left fun hk => hkj hk.1).2⟩

variable [Std.Refl same] [IsTrans σ same]

theorem Sound.step (hs : h.Sound I same G Q) (hr : Rules client I same G Q) (e : Event ι) :
    (h.step client e).Sound I same G Q ∧ G h.locked.shared (h.step client e).locked.shared := by
  cases e with
  | start i =>
    refine ⟨⟨hs.locked, fun k j c hk => ?_, fun k hk => ?_⟩, hr.refl _⟩
    · rcases at_append_iff.mp hk with hk | ⟨rfl, rfl, rfl⟩
      · exact hs.clients k j c hk
      · -- a number that nobody had is not the holder's
        refine hr.secure _ _ _ fun hholder => ?_
        obtain ⟨_, _, hat⟩ := hs.holder _ hholder
        exact absurd (List.getElem?_eq_some_iff.mp hat).1 (Nat.lt_irrefl _)
    · obtain ⟨j, c, hat⟩ := hs.holder k hk
      exact ⟨j, c, at_append_iff.mpr (.inl hat)⟩
  | advance k =>
    unfold Hall.step
    dsimp only
    split
    · next i act next hk =>
      obtain ⟨⟨hI, hfair, hG⟩, hnext⟩ := hs.clients k i _ hk _ hs.locked (Std.Refl.refl _)
      refine ⟨⟨hI, fun j i' c hj => ?_, fun j hj => ?_⟩, hG⟩
      · rcases (at_set_iff hk).mp hj with ⟨rfl, rfl, hc⟩ | ⟨hne, hat⟩
        · exact Option.some.inj hc ▸ hnext
        · exact (hs.clients j i' c hat).later (hr.stable j i') (hfair.kept hne)
      · by_cases hjk : j = k
        · exact ⟨i, next h.locked, (at_set_iff hk).mpr (.inl ⟨hjk, rfl, rfl⟩)⟩
        · obtain ⟨i', c, hat⟩ := hs.holder j ((hfair.holder j hjk).mp hj)
          exact ⟨i', c, (at_set_iff hk).mpr (.inr ⟨hjk, hat⟩)⟩
    · exact ⟨hs, hr.refl _⟩
    · exact ⟨hs, hr.refl _⟩
    · exact ⟨hs, hr.refl _⟩
  | stop k =>
    unfold Hall.step
    dsimp only
    split
    · next i c hk =>
      refine ⟨⟨hr.released k _ hs.locked, fun j i' d hj => ?_, fun j hj => ?_⟩, ?_⟩
      · rcases (at_set_iff hk).mp hj with ⟨_, _, hd⟩ | ⟨hne, hat⟩
        · cases hd
        · exact (hs.clients j i' d hat).later (hr.stable j i') (kept_release hne)
      · obtain ⟨hholder, hne⟩ := release_holder.mp hj
        obtain ⟨i', d, hat⟩ := hs.holder j hholder
        exact ⟨i', d, (at_set_iff hk).mpr (.inr ⟨hne, hat⟩)⟩
      · rw [release_shared]
        exact hr.refl _
    · exact ⟨hs, hr.refl _⟩
    · exact ⟨hs, hr.refl _⟩

/-- Whatever the order of the steps and wherever clients stop, the invariant holds in the end, and each
shared state follows from the one before. -/
theorem Sound.run (hs : h.Sound I same G Q) (hr : Rules client I same G Q) (events : List (Event ι)) :
    (h.run client events).Sound I same G Q ∧
      List.IsChain G (h.locked.shared :: h.trace client events) := by
  induction events generalizing h with
  | nil => exact ⟨hs, List.IsChain.singleton _⟩
  | cons e events ih =>
    obtain ⟨hstep, hG⟩ := hs.step hr e
    obtain ⟨hrun, hchain⟩ := ih hstep
    exact ⟨hrun, List.IsChain.cons_cons hG hchain⟩

omit [Std.Refl same] [IsTrans σ same] in
theorem sound_empty {l : Locked ι σ} (hl : I l) (hfree : l.holder = none) :
    Sound I same G Q (⟨l, []⟩ : Hall ι ε σ α) where
  locked := hl
  clients _ _ _ hk := by cases hk
  holder k hk := by
    rw [hfree] at hk
    cases hk

end

theorem run_append (client : Nat → ι → Client ε (Locked ι σ) α) (es es' : List (Event ι))
    (h : Hall ι ε σ α) : h.run client (es ++ es') = (h.run client es).run client es' :=
  List.foldl_append

theorem trace_getLast? (client : Nat → ι → Client ε (Locked ι σ) α) (events : List (Event ι))
    (h : Hall ι ε σ α) : (h.locked.shared :: h.trace client events).getLast? =
      some (h.run client events).locked.shared := by
  induction events generalizing h with
  | nil => rfl
  | cons e events ih =>
    rw [trace, List.getLast?_cons_cons]
    exact ih (h.step client e)

/-- A client that nobody interrupts comes to its end. -/
theorem run_alone (client : Nat → ι → Client ε (Locked ι σ) α) {h : Hall ι ε σ α} {k : Nat} {i : ι}
    {c : Client ε (Locked ι σ) α} (hk : h.At k i c) :
    ∃ n, (h.run client (List.replicate n (.advance k))).At k i (.done (c.alone h.locked).1) ∧
      (h.run client (List.replicate n (.advance k))).locked = (c.alone h.locked).2 := by
  induction c generalizing h with
  | done r => exact ⟨0, hk, rfl⟩
  | step act next ih =>
    have hstep : h.step client (.advance k) =
        ⟨act h.locked, h.clients.set k (i, some (next h.locked))⟩ := by
      unfold Hall.step
      dsimp only
      rw [hk]
    have hat : (h.step client (.advance k)).At k i (next h.locked) := by
      rw [hstep]
      exact (at_set_iff hk).mpr (.inl ⟨rfl, rfl, rfl⟩)
    obtain ⟨n, hdone, hlocked⟩ := ih h.locked hat
    have hact : (h.step client (.advance k)).locked = act h.locked := by rw [hstep]
    refine ⟨n + 1, ?_, ?_⟩
    · rw [hact] at hdone
      exact hdone
    · rw [hact] at hlocked
      exact hlocked

end Hall

end Library
