import AgosMemory.Library.Program

/-!
# Where a program may stop

A statement may fail for a reason of its own. For a program that runs under any choice of such faults,
`Runs` lists what is left where it can fail, and the results it can reach, so that whether the program
does all of its work or nothing is read off two lists.
-/

namespace Library

/-- A program under a choice of faults, one for each statement by its number. -/
abbrev Faulty (ε σ α : Type) := (Nat → Bool) → Program ε σ α

namespace Faulty

open Program

variable {ε σ τ α β : Type}

/-- Whatever fails, the program leaves what was there, or what a complete run of it leaves. -/
def AllOrNothing (view : σ → τ) (m : Faulty ε σ α) (s : σ) : Prop :=
  ∀ fault, view (m fault s).2 = view s ∨
    ∃ fault' a t, m fault' s = (.ok a, t) ∧ view (m fault s).2 = view t

/-- From `s` the program fails with one of `stops` left, or ends with one of `ends`. Each of these
happens, and none depends on the faults of statements that are not its own. -/
structure Runs (count : σ → Nat) (view : σ → τ) (m : Faulty ε σ α) (s : σ) (stops : List τ)
    (ends : List (α × σ)) : Prop where
  cover : ∀ fault, (∃ e t, m fault s = (.error e, t) ∧ view t ∈ stops) ∨
    ∃ p ∈ ends, m fault s = (.ok p.1, p.2)
  stop : ∀ d ∈ stops, ∃ fault₀ : Nat → Bool, ∀ fault, (∀ i, count s ≤ i → fault i = fault₀ i) →
    ∃ e t, m fault s = (.error e, t) ∧ view t = d
  reach : ∀ p ∈ ends, count s ≤ count p.2 ∧ ∃ fault₀ : Nat → Bool, ∀ fault,
    (∀ i, count s ≤ i → i < count p.2 → fault i = fault₀ i) → m fault s = (.ok p.1, p.2)

/-- One statement: a fault leaves everything as it was, and without one the outcome is `r`. -/
structure Statement (count : σ → Nat) (view : σ → τ) (m : Faulty ε σ α) (s : σ)
    (r : Except ε α × σ) : Prop where
  faulty : ∀ fault, fault (count s) = true → ∃ e t, m fault s = (.error e, t) ∧ view t = view s
  plain : ∀ fault, fault (count s) = false → m fault s = r
  next : count r.2 = count s + 1

section

variable {count : σ → Nat} {view : σ → τ} {m : Faulty ε σ α} {s t : σ}

theorem Runs.allOrNothing_iff {stops : List τ} {ends : List (α × σ)}
    (h : Runs count view m s stops ends) :
    AllOrNothing view m s ↔ ∀ d ∈ stops, d = view s ∨ ∃ p ∈ ends, d = view p.2 := by
  constructor
  · intro hall d hd
    obtain ⟨fault, hfault⟩ := h.stop d hd
    obtain ⟨e, u, hrun, rfl⟩ := hfault fault fun _ _ => rfl
    have hout := hall fault
    rw [hrun] at hout
    rcases hout with hsame | ⟨fault', a, v, hrun', hsame⟩
    · exact .inl hsame
    · rcases h.cover fault' with ⟨e', u', herror, -⟩ | ⟨p, hp, hok⟩
      · rw [hrun'] at herror
        cases herror
      · rw [hrun'] at hok
        obtain ⟨-, rfl⟩ := Prod.mk.inj hok
        exact .inr ⟨p, hp, hsame⟩
  · intro hall fault
    rcases h.cover fault with ⟨e, u, hrun, hmem⟩ | ⟨p, -, hrun⟩
    · rw [hrun]
      rcases hall _ hmem with hsame | ⟨p, hp, hsame⟩
      · exact .inl hsame
      · obtain ⟨-, fault', hreach⟩ := h.reach p hp
        exact .inr ⟨fault', p.1, p.2, hreach fault' fun _ _ _ => rfl, hsame⟩
    · exact .inr ⟨fault, p.1, p.2, hrun, by rw [hrun]⟩

/-- What a failure may leave. -/
theorem Runs.stopped_iff {stops : List τ} {ends : List (α × σ)} (h : Runs count view m s stops ends)
    (d : τ) : (∃ fault e t, m fault s = (.error e, t) ∧ view t = d) ↔ d ∈ stops := by
  constructor
  · rintro ⟨fault, e, t, hrun, rfl⟩
    rcases h.cover fault with ⟨e', u, herror, hmem⟩ | ⟨p, -, hok⟩
    · obtain ⟨-, rfl⟩ := Prod.mk.inj (hrun.symm.trans herror)
      exact hmem
    · rw [hrun] at hok
      cases hok
  · intro hd
    obtain ⟨fault, hstop⟩ := h.stop d hd
    obtain ⟨e, t, hrun, hview⟩ := hstop fault fun _ _ => rfl
    exact ⟨fault, e, t, hrun, hview⟩

theorem runs_statement {a : α} (h : Statement count view m s (.ok a, t)) :
    Runs count view m s [view s] [(a, t)] where
  cover fault := by
    cases hfault : fault (count s) with
    | true =>
      obtain ⟨e, u, hrun, hsame⟩ := h.faulty fault hfault
      exact .inl ⟨e, u, hrun, List.mem_singleton.mpr hsame⟩
    | false => exact .inr ⟨_, List.mem_singleton_self _, h.plain fault hfault⟩
  stop d hd := by
    rw [List.mem_singleton.mp hd]
    exact ⟨fun _ => true, fun fault hf => h.faulty fault (hf _ (Nat.le_refl _))⟩
  reach p hp := by
    rw [List.mem_singleton.mp hp]
    have hlt : count s < count t := Nat.lt_of_succ_le (Nat.le_of_eq h.next.symm)
    refine ⟨Nat.le_of_lt hlt, fun _ => false, fun fault hf => ?_⟩
    exact h.plain fault (hf _ (Nat.le_refl _) hlt)

/-- A statement that is refused. -/
theorem runs_refused {e : ε} (h : Statement count view m s (.error e, t)) (hview : view t = view s) :
    Runs count view m s [view s] [] where
  cover fault := by
    refine .inl ?_
    cases hfault : fault (count s) with
    | true =>
      obtain ⟨e, u, hrun, hsame⟩ := h.faulty fault hfault
      exact ⟨e, u, hrun, List.mem_singleton.mpr hsame⟩
    | false => exact ⟨e, t, h.plain fault hfault, List.mem_singleton.mpr hview⟩
  stop d hd := by
    rw [List.mem_singleton.mp hd]
    exact ⟨fun _ => true, fun fault hf => h.faulty fault (hf _ (Nat.le_refl _))⟩
  reach p hp := by cases hp

/-- A statement whose failure the program takes as an answer. -/
theorem runs_attempt {e : ε} {r : Except ε α}
    (hfault : ∀ fault, fault (count s) = true → m fault s = (.error e, t))
    (hplain : ∀ fault, fault (count s) = false → m fault s = (r, t)) (hnext : count t = count s + 1) :
    Runs count view (fun fault => attempt (m fault)) s [] [(.error e, t), (r, t)] where
  cover fault := by
    refine .inr ?_
    cases hf : fault (count s) with
    | true =>
      refine ⟨_, List.mem_cons_self, ?_⟩
      unfold attempt
      rw [hfault fault hf]
    | false =>
      refine ⟨_, List.mem_cons_of_mem _ List.mem_cons_self, ?_⟩
      unfold attempt
      rw [hplain fault hf]
  stop d hd := by cases hd
  reach p hp := by
    have hlt : count s < count t := Nat.lt_of_succ_le (Nat.le_of_eq hnext.symm)
    rcases List.mem_cons.mp hp with rfl | hp
    · refine ⟨Nat.le_of_lt hlt, fun _ => true, fun fault hf => ?_⟩
      unfold attempt
      rw [hfault fault (hf _ (Nat.le_refl _) hlt)]
    · obtain rfl := List.mem_singleton.mp hp
      refine ⟨Nat.le_of_lt hlt, fun _ => false, fun fault hf => ?_⟩
      unfold attempt
      rw [hplain fault (hf _ (Nat.le_refl _) hlt)]

/-- A step that is no statement. -/
theorem runs_free {a : α} (h : ∀ fault, m fault s = (.ok a, t)) (hcount : count t = count s) :
    Runs count view m s [] [(a, t)] where
  cover fault := .inr ⟨_, List.mem_singleton_self _, h fault⟩
  stop d hd := by cases hd
  reach p hp := by
    rw [List.mem_singleton.mp hp]
    exact ⟨Nat.le_of_eq hcount.symm, fun _ => false, fun fault _ => h fault⟩

/-- A refusal that is no statement. -/
theorem runs_fail {e : ε} (h : ∀ fault, m fault s = (.error e, t)) (hview : view t = view s) :
    Runs count view m s [view s] [] where
  cover fault := .inl ⟨e, t, h fault, List.mem_singleton.mpr hview⟩
  stop d hd := by
    rw [List.mem_singleton.mp hd]
    exact ⟨fun _ => false, fun fault _ => ⟨e, t, h fault, hview⟩⟩
  reach p hp := by cases hp

/-- A program and what follows each of its ends: `w` lists an end with the stops and the ends of
what follows it. -/
theorem runs_bind {k : α → Faulty ε σ β} {stops : List τ}
    {w : List ((α × σ) × List τ × List (β × σ))}
    (h : Runs count view m s stops (w.map Prod.fst))
    (hk : ∀ way ∈ w, Runs count view (k way.1.1) way.1.2 way.2.1 way.2.2) :
    Runs count view (fun fault => m fault >>= fun a => k a fault) s
      (stops ++ w.flatMap fun way => way.2.1) (w.flatMap fun way => way.2.2) where
  cover fault := by
    rcases h.cover fault with ⟨e, u, hrun, hmem⟩ | ⟨p, hp, hrun⟩
    · rw [bind_of_error _ hrun]
      exact .inl ⟨e, u, rfl, List.mem_append_left _ hmem⟩
    · obtain ⟨way, hw, rfl⟩ := List.mem_map.mp hp
      rw [bind_of_ok _ hrun]
      rcases (hk way hw).cover fault with ⟨e, u, hrun', hmem⟩ | ⟨q, hq, hrun'⟩
      · exact .inl ⟨e, u, hrun', List.mem_append_right _ (List.mem_flatMap.mpr ⟨way, hw, hmem⟩)⟩
      · exact .inr ⟨q, List.mem_flatMap.mpr ⟨way, hw, hq⟩, hrun'⟩
  stop d hd := by
    rcases List.mem_append.mp hd with hd | hd
    · obtain ⟨fault₀, hstop⟩ := h.stop d hd
      refine ⟨fault₀, fun fault hf => ?_⟩
      obtain ⟨e, u, hrun, hview⟩ := hstop fault hf
      exact ⟨e, u, bind_of_error _ hrun, hview⟩
    · obtain ⟨way, hw, hd⟩ := List.mem_flatMap.mp hd
      obtain ⟨hle, fault₀, hreach⟩ := h.reach way.1 (List.mem_map_of_mem hw)
      obtain ⟨fault₁, hstop⟩ := (hk way hw).stop d hd
      -- the faults of the first part, then those of the rest
      refine ⟨fun i => if i < count way.1.2 then fault₀ i else fault₁ i, fun fault hf => ?_⟩
      have hfirst : m fault s = (.ok way.1.1, way.1.2) := hreach fault fun i hi hlt =>
        (hf i hi).trans (if_pos hlt)
      obtain ⟨e, u, hrun, hview⟩ := hstop fault fun i hi =>
        (hf i (Nat.le_trans hle hi)).trans (if_neg (Nat.not_lt.mpr hi))
      exact ⟨e, u, (bind_of_ok _ hfirst).trans hrun, hview⟩
  reach q hq := by
    obtain ⟨way, hw, hq⟩ := List.mem_flatMap.mp hq
    obtain ⟨hle, fault₀, hreach⟩ := h.reach way.1 (List.mem_map_of_mem hw)
    obtain ⟨hle', fault₁, hreach'⟩ := (hk way hw).reach q hq
    refine ⟨Nat.le_trans hle hle', fun i => if i < count way.1.2 then fault₀ i else fault₁ i,
      fun fault hf => ?_⟩
    have hfirst : m fault s = (.ok way.1.1, way.1.2) := hreach fault fun i hi hlt =>
      (hf i hi (Nat.lt_of_lt_of_le hlt hle')).trans (if_pos hlt)
    exact (bind_of_ok _ hfirst).trans (hreach' fault fun i hi hlt =>
      (hf i (Nat.le_trans hle hi) hlt).trans (if_neg (Nat.not_lt.mpr hi)))

/-- No way on. -/
theorem Runs.halt {stops : List τ} (h : Runs count view m s stops []) (k : α → Faulty ε σ β) :
    Runs count view (fun fault => m fault >>= fun a => k a fault) s stops [] := by
  have hbind : Runs count view (fun fault => m fault >>= fun a => k a fault) s (stops ++ []) [] :=
    runs_bind (w := []) h (List.forall_mem_nil _)
  rwa [List.append_nil] at hbind

/-- One way on. -/
theorem Runs.next {k : α → Faulty ε σ β} {a : α} {stops stops' all : List τ}
    {ends' : List (β × σ)} (h : Runs count view m s stops [(a, t)]) (hall : all = stops ++ stops')
    (hk : Runs count view (k a) t stops' ends') :
    Runs count view (fun fault => m fault >>= fun a => k a fault) s all ends' := by
  have hbind : Runs count view (fun fault => m fault >>= fun a => k a fault) s
      (stops ++ (stops' ++ [])) (ends' ++ []) :=
    runs_bind (w := [((a, t), stops', ends')]) h (List.forall_mem_singleton.mpr hk)
  rw [hall]
  rwa [List.append_nil, List.append_nil] at hbind

/-- Two ways on. -/
theorem Runs.fork {k : α → Faulty ε σ β} {a b : α} {u : σ} {stops stops₁ stops₂ all : List τ}
    {ends₁ ends₂ : List (β × σ)} (h : Runs count view m s stops [(a, t), (b, u)])
    (hall : all = stops ++ (stops₁ ++ stops₂)) (ha : Runs count view (k a) t stops₁ ends₁)
    (hb : Runs count view (k b) u stops₂ ends₂) :
    Runs count view (fun fault => m fault >>= fun a => k a fault) s all (ends₁ ++ ends₂) := by
  have hbind : Runs count view (fun fault => m fault >>= fun a => k a fault) s
      (stops ++ (stops₁ ++ (stops₂ ++ []))) (ends₁ ++ (ends₂ ++ [])) :=
    runs_bind (w := [((a, t), stops₁, ends₁), ((b, u), stops₂, ends₂)]) h
      (List.forall_mem_cons.mpr ⟨ha, List.forall_mem_singleton.mpr hb⟩)
  rw [hall]
  rwa [List.append_nil, List.append_nil] at hbind

end

end Faulty

end Library
