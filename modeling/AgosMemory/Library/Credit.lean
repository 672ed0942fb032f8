import AgosMemory.Library.Exclusive
import Mathlib.Algebra.BigOperators.Group.Finset.Basic
import Mathlib.Algebra.Order.BigOperators.Group.Finset

/-!
# Clients with an account

A check that is not in one step with what it permits lets clients act on what was true before. An account
for each client makes the gap a number: a check puts something on it, what it permitted takes it off, and
the accounts of all clients at work, summed up, are how far the shared state may still go. A rule for the
single step, which sees one account and the sum of the others, is enough for every run.
-/

namespace Library

namespace Client

open Program

variable {ε σ α β : Type} {P : σ → Nat → σ → Nat → Prop} {fin : Except ε α → Nat → Prop} {d : Nat}

/-- With `d` on its account, every step changes the state and the account along `P`, and what is on it at
the end satisfies `fin`. -/
def Holds (P : σ → Nat → σ → Nat → Prop) (fin : Except ε α → Nat → Prop) : Client ε σ α → Nat → Prop
  | done r, d => fin r d
  | step act next, d => ∀ s, ∃ d', P s d (act s) d' ∧ (next s).Holds P fin d'

theorem Holds.bind {c : Client ε σ β} {k : β → Client ε σ α} {mid : Except ε β → Nat → Prop}
    (hc : c.Holds P mid d) (herror : ∀ e d, mid (.error e) d → fin (.error e) d)
    (hok : ∀ b d, mid (.ok b) d → (k b).Holds P fin d) : (c >>= k).Holds P fin d := by
  induction c generalizing d with
  | done r =>
    cases r with
    | ok b => exact hok b d hc
    | error e => exact herror e d hc
  | step act next ih =>
    intro s
    obtain ⟨d', hP, hnext⟩ := hc s
    exact ⟨d', hP, ih s hnext⟩

theorem holds_call_bind {m : Program ε σ β} {k : β → Client ε σ α}
    (herror : ∀ s e t, m s = (.error e, t) → ∃ d', P s d t d' ∧ fin (.error e) d')
    (hok : ∀ s b t, m s = (.ok b, t) → ∃ d', P s d t d' ∧ (k b).Holds P fin d') :
    (call m >>= k).Holds P fin d := by
  intro s
  show ∃ d', P s d (m s).2 d' ∧ (Client.bind (done (m s).1) k).Holds P fin d'
  cases hrun : m s with
  | mk r t =>
    cases r with
    | ok b => exact hok s b t hrun
    | error e => exact herror s e t hrun

/-- A client whose steps are along `R` leaves its account alone where `P` has room for that. -/
theorem Keeps.holds {R : σ → σ → Prop} {c : Client ε σ α} (h : c.Keeps (fun _ => True) R)
    (hP : ∀ s t, R s t → P s d t d) (hfin : ∀ r, fin r d) : c.Holds P fin d := by
  induction c with
  | done r => exact hfin r
  | step act next ih => exact fun s => ⟨d, hP _ _ ((h s).1 trivial).2, ih s (h s).2⟩

/-- A client of a part of the state, which alone the accounts are about. -/
theorem Holds.zoom {τ : Type} {part : τ → σ} {put : τ → σ → τ} (hpart : ∀ t s, part (put t s) = s)
    {c : Client ε σ α} (h : c.Holds P fin d) :
    (c.zoom part put).Holds (fun t d u d' => P (part t) d (part u) d') fin d := by
  induction c generalizing d with
  | done r => exact h
  | step act next ih =>
    intro t
    obtain ⟨d', hP, hnext⟩ := h (part t)
    refine ⟨d', ?_, ih (part t) hnext⟩
    show P (part t) d (part (put t (act (part t)))) d'
    rw [hpart]
    exact hP

end Client

namespace Hall

open Client Exclusive

variable {ι ε σ α : Type}

/-- Client `k` has a step to make. -/
def Working (h : Hall ι ε σ α) (k : Nat) : Prop := ∃ i act next, h.At k i (.step act next)

/-- What is on the accounts together. -/
def total (h : Hall ι ε σ α) (owed : Nat → Nat) : Nat := ∑ k ∈ Finset.range h.clients.length, owed k

/-- Each client at work is as its account says, with an amount on it that `cap` allows; nobody else has
one; and what ended did as `E` says. -/
structure Carried (P : ι → σ → Nat → σ → Nat → Prop) (fin : ι → Except ε α → Nat → Prop)
    (cap : ι → Nat → Prop) (E : Nat → ι → Except ε α → Prop) (h : Hall ι ε σ α) (owed : Nat → Nat) :
    Prop where
  working : ∀ (k : Nat) (i : ι) (act : Locked ι σ → Locked ι σ)
    (next : Locked ι σ → Client ε (Locked ι σ) α), h.At k i (.step act next) →
    (Client.step act next).Holds (fun s d t d' => P i s.shared d t.shared d') (fin i) (owed k) ∧
      cap i (owed k)
  idle : ∀ k, ¬ h.Working k → owed k = 0
  ended : ∀ (k : Nat) (i : ι) (r : Except ε α), h.At k i (.done r) → E k i r

/-- What is asked of the clients and of the invariant, which reads the state and the sum of the accounts.
`bound` is what the run is known to keep that sum to. -/
structure Account (client : Nat → ι → Client ε (Locked ι σ) α) (P : ι → σ → Nat → σ → Nat → Prop)
    (fin : ι → Except ε α → Nat → Prop) (cap : ι → Nat → Prop) (E : Nat → ι → Except ε α → Prop)
    (bound : Nat → Prop) (Inv : σ → Nat → Prop) : Prop where
  fresh : ∀ k i, (client k i).Holds (fun s d t d' => P i s.shared d t.shared d') (fin i) 0 ∧ cap i 0
  capped : ∀ i s d t d', cap i d → P i s d t d' → cap i d'
  opens : ∀ k i r, fin i r 0 → E k i r
  ends : ∀ k i r s t d d' rest, Inv s (d + rest) → P i s d t d' → fin i r d' → E k i r
  moves : ∀ i s t d d' rest, Inv s (d + rest) → P i s d t d' → bound (d' + rest) → Inv t (d' + rest)
  closes : ∀ i r s t d d' rest, Inv s (d + rest) → P i s d t d' → fin i r d' → bound rest → Inv t rest

/-- Clients that stop take with them what they have on their accounts. -/
def Forgets (Inv : σ → Nat → Prop) : Prop := ∀ s d rest, Inv s (d + rest) → Inv s rest

theorem not_working_of_none {h : Hall ι ε σ α} {k : Nat} (hk : h.clients.length ≤ k) :
    ¬ h.Working k := by
  rintro ⟨i, act, next, hat⟩
  exact absurd (List.getElem?_eq_some_iff.mp hat).1 (Nat.not_lt.mpr hk)

/-- The sum of the accounts is one of them and the others. -/
theorem total_split (h : Hall ι ε σ α) (owed : Nat → Nat) {k : Nat} (hk : k < h.clients.length) :
    ∃ rest, h.total owed = owed k + rest ∧ ∀ (h' : Hall ι ε σ α) (d : Nat),
      h'.clients.length = h.clients.length → h'.total (Function.update owed k d) = d + rest := by
  have hmem : k ∈ Finset.range h.clients.length := Finset.mem_range.mpr hk
  refine ⟨∑ j ∈ (Finset.range h.clients.length).erase k, owed j, ?_, fun h' d hlen => ?_⟩
  · exact (Finset.add_sum_erase _ _ hmem).symm
  · unfold total
    rw [hlen, ← Finset.add_sum_erase _ _ hmem, Function.update_self]
    congr 1
    refine Finset.sum_congr rfl fun j hj => ?_
    rw [Function.update_of_ne (Finset.ne_of_mem_erase hj)]

section

variable {client : Nat → ι → Client ε (Locked ι σ) α} {P : ι → σ → Nat → σ → Nat → Prop}
  {fin : ι → Except ε α → Nat → Prop} {cap : ι → Nat → Prop} {E : Nat → ι → Except ε α → Prop}
  {bound : Nat → Prop} {Inv : σ → Nat → Prop} {h : Hall ι ε σ α} {owed : Nat → Nat}

/-- The account of a client that is no longer at work is cleared. -/
theorem Carried.clear {k : Nat} {i : ι} {o : Option (Client ε (Locked ι σ) α)}
    (hc : h.Carried P fin cap E owed) (hk : h.clients[k]? = some (i, o)) (l : Locked ι σ)
    (o' : Option (Client ε (Locked ι σ) α)) (hidle : ∀ act next, o' ≠ some (.step act next))
    (hended : ∀ r, o' = some (.done r) → E k i r) :
    Carried P fin cap E ⟨l, h.clients.set k (i, o')⟩ (Function.update owed k 0) where
  working j i' act next hj := by
    rcases (at_set_iff hk).mp hj with ⟨_, _, ho⟩ | ⟨hne, hat⟩
    · exact absurd ho (hidle act next)
    · rw [Function.update_of_ne hne]
      exact hc.working j i' act next hat
  idle j hj := by
    by_cases hjk : j = k
    · rw [hjk, Function.update_self]
    · rw [Function.update_of_ne hjk]
      refine hc.idle j fun ⟨i', act, next, hat⟩ => hj ⟨i', act, next, ?_⟩
      exact (at_set_iff hk).mpr (.inr ⟨hjk, hat⟩)
  ended j i' r hj := by
    rcases (at_set_iff hk).mp hj with ⟨rfl, rfl, ho⟩ | ⟨_, hat⟩
    · exact hended r ho
    · exact hc.ended j i' r hat

/-- A client that goes on has its new account. -/
theorem Carried.go {k d : Nat} {i : ι} {o : Option (Client ε (Locked ι σ) α)}
    {act : Locked ι σ → Locked ι σ} {next : Locked ι σ → Client ε (Locked ι σ) α}
    (hc : h.Carried P fin cap E owed) (hk : h.clients[k]? = some (i, o)) (l : Locked ι σ)
    (hnext : (Client.step act next).Holds (fun s d t d' => P i s.shared d t.shared d') (fin i) d)
    (hcap : cap i d) :
    Carried P fin cap E ⟨l, h.clients.set k (i, some (.step act next))⟩ (Function.update owed k d) where
  working j i' act' next' hj := by
    rcases (at_set_iff hk).mp hj with ⟨rfl, rfl, ho⟩ | ⟨hne, hat⟩
    · obtain ⟨rfl, rfl⟩ := Client.step.inj (Option.some.inj ho)
      rw [Function.update_self]
      exact ⟨hnext, hcap⟩
    · rw [Function.update_of_ne hne]
      exact hc.working j i' act' next' hat
  idle j hj := by
    by_cases hjk : j = k
    · subst hjk
      exact absurd ⟨i, act, next, (at_set_iff hk).mpr (.inl ⟨rfl, rfl, rfl⟩)⟩ hj
    · rw [Function.update_of_ne hjk]
      refine hc.idle j fun ⟨i', act', next', hat⟩ => hj ⟨i', act', next', ?_⟩
      exact (at_set_iff hk).mpr (.inr ⟨hjk, hat⟩)
  ended j i' r hj := by
    rcases (at_set_iff hk).mp hj with ⟨_, _, ho⟩ | ⟨_, hat⟩
    · cases Option.some.inj ho
    · exact hc.ended j i' r hat

theorem Carried.arrive (hc : h.Carried P fin cap E owed) (ha : Account client P fin cap E bound Inv)
    (i : ι) : (h.step client (.start i)).Carried P fin cap E owed ∧
      (h.step client (.start i)).total owed = h.total owed := by
  have hnew : owed h.clients.length = 0 := hc.idle _ (not_working_of_none (Nat.le_refl _))
  refine ⟨⟨fun k j act next hk => ?_, fun k hk => ?_, fun k j r hk => ?_⟩, ?_⟩
  · rcases at_append_iff.mp hk with hat | ⟨rfl, rfl, hstep⟩
    · exact hc.working k j act next hat
    · rw [hnew, hstep]
      exact ha.fresh _ _
  · refine hc.idle k fun ⟨j, act, next, hat⟩ => hk ⟨j, act, next, ?_⟩
    exact at_append_iff.mpr (.inl hat)
  · rcases at_append_iff.mp hk with hat | ⟨rfl, rfl, hdone⟩
    · exact hc.ended k j r hat
    · have hfin := (ha.fresh h.clients.length j).1
      rw [← hdone] at hfin
      exact ha.opens _ _ _ hfin
  · show ∑ k ∈ Finset.range (h.clients ++ [(i, some (client h.clients.length i))]).length, owed k = _
    rw [List.length_append, List.length_singleton, Finset.sum_range_succ, hnew, Nat.add_zero]
    rfl

/-- One event. -/
theorem Carried.step (hc : h.Carried P fin cap E owed) (ha : Account client P fin cap E bound Inv)
    (hinv : Inv h.locked.shared (h.total owed)) (e : Event ι)
    (hstop : ∀ k, e = .stop k → Forgets Inv)
    (hbound : ∀ owed', (h.step client e).Carried P fin cap E owed' →
      bound ((h.step client e).total owed')) :
    ∃ owed', (h.step client e).Carried P fin cap E owed' ∧
      Inv (h.step client e).locked.shared ((h.step client e).total owed') := by
  cases e with
  | start i =>
    obtain ⟨hcarried, htotal⟩ := hc.arrive ha i
    refine ⟨owed, hcarried, ?_⟩
    rw [htotal]
    exact hinv
  | advance k =>
    unfold Hall.step at hbound ⊢
    dsimp only at hbound ⊢
    split
    · next i act next hk =>
      simp only [hk] at hbound
      obtain ⟨rest, hsum, hupdate⟩ := total_split h owed (List.getElem?_eq_some_iff.mp hk).1
      obtain ⟨hholds, hcap⟩ := hc.working k i act next hk
      obtain ⟨d', hP, hnext⟩ := hholds h.locked
      rw [hsum] at hinv
      have hlen : (h.clients.set k (i, some (next h.locked))).length = h.clients.length :=
        List.length_set
      cases hrest : next h.locked with
      | done r =>
        rw [hrest] at hnext hbound hlen
        have hcarried := hc.clear hk (act h.locked) (some (.done r)) (fun _ _ => by simp)
          fun r' hr' => by
            cases Option.some.inj hr'
            exact ha.ends k i r _ _ _ _ _ hinv hP hnext
        have htotal := hupdate ⟨act h.locked, h.clients.set k (i, some (.done r))⟩ 0 hlen
        rw [Nat.zero_add] at htotal
        refine ⟨_, hcarried, ?_⟩
        rw [htotal]
        exact ha.closes i r _ _ _ _ _ hinv hP hnext (htotal ▸ hbound _ hcarried)
      | step act' next' =>
        rw [hrest] at hnext hbound hlen
        have hcarried := hc.go hk (act h.locked) hnext (ha.capped i _ _ _ _ hcap hP)
        have htotal := hupdate ⟨act h.locked, h.clients.set k (i, some (.step act' next'))⟩ d' hlen
        refine ⟨_, hcarried, ?_⟩
        rw [htotal]
        exact ha.moves i _ _ _ _ _ hinv hP (htotal ▸ hbound _ hcarried)
    · exact ⟨owed, hc, hinv⟩
    · exact ⟨owed, hc, hinv⟩
    · exact ⟨owed, hc, hinv⟩
  | stop k =>
    unfold Hall.step
    dsimp only
    split
    · next i c hk =>
      obtain ⟨rest, hsum, hupdate⟩ := total_split h owed (List.getElem?_eq_some_iff.mp hk).1
      have hcarried := hc.clear hk (release k h.locked) none (fun _ _ => by simp)
        fun _ hr => by cases hr
      refine ⟨_, hcarried, ?_⟩
      rw [hupdate ⟨release k h.locked, h.clients.set k (i, none)⟩ 0 List.length_set, release_shared,
        Nat.zero_add]
      rw [hsum] at hinv
      exact hstop k rfl _ _ _ hinv
    · exact ⟨owed, hc, hinv⟩
    · exact ⟨owed, hc, hinv⟩

/-- A run, with `bound` for the sum of the accounts after each number of its events. -/
theorem Carried.run (events : List (Event ι)) (hc : h.Carried P fin cap E owed)
    (ha : Account client P fin cap E bound Inv) (hinv : Inv h.locked.shared (h.total owed))
    (hstop : ∀ k, .stop k ∈ events → Forgets Inv)
    (hbound : ∀ n owed', (h.run client (events.take n)).Carried P fin cap E owed' →
      bound ((h.run client (events.take n)).total owed')) :
    ∃ owed', (h.run client events).Carried P fin cap E owed' ∧
      Inv (h.run client events).locked.shared ((h.run client events).total owed') := by
  induction events generalizing h owed with
  | nil => exact ⟨owed, hc, hinv⟩
  | cons e events ih =>
    obtain ⟨owed', hstep, hinv'⟩ := hc.step ha hinv e
      (fun k hk => hstop k (hk ▸ List.mem_cons_self)) fun owed' h' => hbound 1 owed' h'
    exact ih hstep hinv' (fun k hk => hstop k (List.mem_cons_of_mem _ hk))
      fun n owed'' h' => hbound (n + 1) owed'' h'

end

/-! ## Counting the clients at work -/

/-- There is a step to make. -/
def atWork : Option (Client ε (Locked ι σ) α) → Bool
  | some (.step _ _) => true
  | some (.done _) | none => false

/-- How many clients are at work on requests that `p` picks. -/
def busy (p : ι → Bool) (h : Hall ι ε σ α) : Nat := h.clients.countP fun c => p c.1 && atWork c.2

theorem sum_le_countP {A : Type} (l : List A) (q : A → Bool) (owed : Nat → Nat) (T : Nat)
    (h : ∀ k a, l[k]? = some a → owed k ≤ if q a then T else 0) :
    ∑ k ∈ Finset.range l.length, owed k ≤ l.countP q * T := by
  induction l using List.reverseRecOn with
  | nil => exact Nat.zero_le _
  | append_singleton l a ih =>
    have hinit := ih fun k b hk => h k b (by
      rw [List.getElem?_append_left (List.getElem?_eq_some_iff.mp hk).1]
      exact hk)
    have hlast := h l.length a (by rw [List.getElem?_append_right (Nat.le_refl _), Nat.sub_self]; rfl)
    rw [List.length_append, List.length_singleton, Finset.sum_range_succ, List.countP_append,
      List.countP_singleton, Nat.add_mul]
    refine Nat.add_le_add hinit (hlast.trans ?_)
    split <;> omega

def Event.isStart : Event ι → Bool
  | .start _ => true
  | .advance _ | .stop _ => false

theorem length_run (client : Nat → ι → Client ε (Locked ι σ) α) (events : List (Event ι))
    (h : Hall ι ε σ α) :
    (h.run client events).clients.length = h.clients.length + events.countP Event.isStart := by
  induction events generalizing h with
  | nil => rfl
  | cons e events ih =>
    have hstep : (h.step client e).clients.length =
        h.clients.length + if e.isStart = true then 1 else 0 := by
      cases e with
      | start i => exact List.length_append
      | advance k | stop k =>
        unfold Hall.step
        dsimp only
        split
        · exact List.length_set
        all_goals rfl
    have hrest := ih (h.step client e)
    rw [hstep, Nat.add_assoc] at hrest
    rw [List.countP_cons, Nat.add_comm (events.countP _)]
    exact hrest

/-- No more are at work than were there and have arrived. -/
theorem busy_run_le (client : Nat → ι → Client ε (Locked ι σ) α) (p : ι → Bool) (h : Hall ι ε σ α)
    (events : List (Event ι)) :
    (h.run client events).busy p ≤ h.clients.length + events.countP Event.isStart :=
  List.countP_le_length.trans (Nat.le_of_eq (length_run client events h))

section

variable {P : ι → σ → Nat → σ → Nat → Prop} {fin : ι → Except ε α → Nat → Prop}
  {cap : ι → Nat → Prop} {E : Nat → ι → Except ε α → Prop} {h : Hall ι ε σ α} {owed : Nat → Nat}

theorem carried_empty (l : Locked ι σ) : Carried P fin cap E (⟨l, []⟩ : Hall ι ε σ α) fun _ => 0 where
  working _ _ _ _ hk := by cases hk
  idle _ _ := rfl
  ended _ _ _ hk := by cases hk

/-- Where only the requests that `p` picks may have anything on their accounts, and at most `T`. -/
theorem Carried.total_le (hc : h.Carried P fin cap E owed) {p : ι → Bool} {T : Nat}
    (hcap : ∀ i d, cap i d → d ≤ if p i then T else 0) : h.total owed ≤ h.busy p * T := by
  refine sum_le_countP _ _ _ _ fun k a hk => ?_
  rcases a with ⟨i, _ | _ | ⟨act, next⟩⟩
  · exact Nat.le_trans (Nat.le_of_eq (hc.idle k fun ⟨j, act, next, hat⟩ => by
      unfold At at hat
      rw [hk] at hat
      cases hat)) (Nat.zero_le _)
  · exact Nat.le_trans (Nat.le_of_eq (hc.idle k fun ⟨j, act, next, hat⟩ => by
      unfold At at hat
      rw [hk] at hat
      cases hat)) (Nat.zero_le _)
  · have hle := hcap i _ (hc.working k i act next hk).2
    simpa [atWork] using hle

/-- Nobody is at work on a request that may have anything on its account. -/
theorem Carried.total_eq_zero (hc : h.Carried P fin cap E owed) {p : ι → Bool}
    (hcap : ∀ i d, cap i d → p i = false → d = 0) (hbusy : h.busy p = 0) : h.total owed = 0 := by
  have hle := sum_le_countP h.clients (fun c => p c.1 && atWork c.2) owed (h.total owed) fun k a hk => by
    by_cases hq : (p a.1 && atWork a.2) = true
    · rw [if_pos hq]
      exact Finset.single_le_sum (fun j _ => Nat.zero_le _)
        (Finset.mem_range.mpr (List.getElem?_eq_some_iff.mp hk).1)
    · rw [if_neg hq]
      refine Nat.le_of_eq ?_
      by_cases hwork : h.Working k
      · obtain ⟨i, act, next, hat⟩ := hwork
        unfold At at hat
        rw [hk] at hat
        cases Option.some.inj hat
        exact hcap i _ (hc.working k i act next hk).2 (by simpa [atWork] using hq)
      · exact hc.idle k hwork
  have hzero : h.clients.countP (fun c => p c.1 && atWork c.2) = 0 := hbusy
  rw [hzero, Nat.zero_mul] at hle
  exact Nat.le_zero.mp hle

end

end Hall

end Library
