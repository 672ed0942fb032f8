import AgosMemory.Runs.Charges

/-!
# What sessions may spend

Any number of extractions, of remembered facts and of other calls are at work, their steps in any order,
and each of them may be cut off. What is recorded for a session may pass its ceiling only by the calls
that were under way when it was reached. After that nothing is asked or recorded for the session again.
What its answered calls cost is what is recorded, but for answers that did not parse.
-/

namespace AgosMemory.Budget

open Library Client Ledger Exclusive

variable {F : Type} [F64 F] {env : Env F} {cfg : Config F} {tools : Tools F} {sid : Int}

/-! ## Calls at work on one ledger -/

/-- The request is an extraction of the session. -/
def serves (tools : Tools F) (sid : Int) : Request F → Bool
  | .extract payload =>
    match payloadSession tools payload with
    | .ok other => other == sid
    | .error _ => false
  | .rememberInput _ | .runRemember _ _ | .summary _ | .session _ | .work _ => false

/-- The calls at work, which share the ledger and lock nothing. -/
abbrev Office (F : Type) := Hall (Request F) Error (Billing F) Unit

def client (env : Env F) (cfg : Config F) (tools : Tools F) (_ : Nat) (i : Request F) :
    Client Error (Locked (Request F) (Billing F)) Unit :=
  (job env cfg tools i).zoom Locked.shared fun l s => { l with shared := s }

/-- Nobody is at work. -/
def idle (s : Billing F) : Office F := ⟨⟨s, none, []⟩, []⟩

omit [F64 F] in
private theorem idle_carried (s : Billing F)
    {P : Request F → Billing F → Nat → Billing F → Nat → Prop}
    {fin : Request F → Except Error Unit → Nat → Prop} {cap : Request F → Nat → Prop}
    {E : Nat → Request F → Except Error Unit → Prop} :
    Hall.Carried P fin cap E (idle s) fun _ => 0 := Hall.carried_empty _

omit [F64 F] in
private theorem serves_extract {payload : String} (h : serves tools sid (.extract payload) = true) :
    payloadSession tools payload = .ok sid := by
  unfold serves at h
  dsimp only at h
  cases hpayload : payloadSession tools payload with
  | error e =>
    rw [hpayload] at h
    cases h
  | ok other =>
    rw [hpayload] at h
    rw [eq_of_beq h]

section

-- both begin with a test for blank text, which unification would evaluate
attribute [local irreducible] rememberInput payloadSession

private theorem apart_job {i : Request F} (h : serves tools sid i = false) :
    Apart sid (job env cfg tools i) := by
  cases i with
  | rememberInput args => exact keeps_bind apart_rememberInput fun _ => keeps_pure ()
  | runRemember cand sourceKind => exact keeps_bind apart_runRemember fun _ => keeps_pure ()
  | summary text => exact keeps_bind apart_generateSummary fun _ => keeps_pure ()
  | session c => exact keeps_bind (apart_ofWork _) fun _ => keeps_pure ()
  | work c => exact apart_ofWork c
  | extract payload =>
    refine keeps_bind (apart_onStore _) fun dim => keeps_bind (apart_onStore _) fun _ => ?_
    refine keeps_bind_lift fun other hok => keeps_bind apart_checkSessionBudget fun _ => ?_
    have hother : other ≠ sid := by
      rintro rfl
      unfold serves at h
      dsimp only at h
      cases hpayload : payloadSession tools payload with
      | error e =>
        rw [hpayload] at hok
        cases hok
      | ok named =>
        rw [hpayload] at h hok
        cases Except.ok.inj hok
        simp at h
    exact keeps_bind (apart_extractSession hother) fun _ => keeps_pure ()

end

/-- What a call may do to the session's part: one that serves it as `P` says, any other nothing. -/
def through (tools : Tools F) (sid : Int) (P : Billing F → Nat → Billing F → Nat → Prop)
    (i : Request F) (s : Billing F) (d : Nat) (t : Billing F) (d' : Nat) : Prop :=
  if serves tools sid i then P s d t d' else Same sid s t ∧ d' = d

/-- What is on an account at the end, or at any time. -/
def onlyServing (tools : Tools F) (sid : Int) (ok : Nat → Prop) (i : Request F) (d : Nat) : Prop :=
  if serves tools sid i then ok d else d = 0

/-- What a run keeps of the accounts of extractions of a session, from client number `first` on. -/
structure Tariff (cfg : Config F) (tools : Tools F) (sid : Int)
    (P : Billing F → Nat → Billing F → Nat → Prop) (fin : Except Error Unit → Nat → Prop)
    (ok bound : Nat → Prop) (Q : Except Error Unit → Prop) (Inv : Billing F → Nat → Prop) : Prop where
  zero : ok 0
  within : ∀ s d t d', ok d → P s d t d' → ok d'
  refused : ∀ e, Refusal cfg e → fin (.error e) 0
  same : ∀ s t d, Inv s d → Same sid s t → Inv t d
  moves : ∀ s t d d' rest, Inv s (d + rest) → P s d t d' → bound (d' + rest) → Inv t (d' + rest)
  closes : ∀ r s t d d' rest, Inv s (d + rest) → P s d t d' → fin r d' → bound rest → Inv t rest
  opens : ∀ r, fin r 0 → Q r
  ends : ∀ r s t d d' rest, Inv s (d + rest) → P s d t d' → fin r d' → Q r

section

variable {P : Billing F → Nat → Billing F → Nat → Prop} {granted closed : Nat}
  {pending : String → String → Nat} {fin : Except Error Unit → Nat → Prop} {ok bound : Nat → Prop}
  {Q : Except Error Unit → Prop} {Inv : Billing F → Nat → Prop}

theorem Charges.account (h : Charges cfg tools sid P granted pending closed) (env : Env F)
    (ht : Tariff cfg tools sid P fin ok bound Q Inv) (hclosed : ∀ r, fin r closed) (first : Nat) :
    Hall.Account (client env cfg tools) (through tools sid P)
      (fun i r => onlyServing tools sid (fin r) i) (onlyServing tools sid ok)
      (fun k i r => first ≤ k → serves tools sid i = true → Q r) bound Inv where
  fresh k i := by
    unfold client onlyServing through
    cases hserves : serves tools sid i with
    | true =>
      refine ⟨?_, by simpa using ht.zero⟩
      cases i with
      | extract payload =>
        have hjob : (job env cfg tools (.extract payload)).Holds P fin 0 :=
          h.runExtractJob (serves_extract hserves) ht.refused hclosed
        simpa using hjob.zoom fun _ _ => rfl
      | _ => cases hserves
    | false =>
      refine ⟨?_, by simp⟩
      have hapart : (job env cfg tools i).Holds (fun s d t d' => Same sid s t ∧ d' = d)
          (fun _ d => d = 0) 0 :=
        (apart_job hserves).holds (fun s t hsame => ⟨hsame, rfl⟩) fun _ => rfl
      simpa using hapart.zoom fun _ _ => rfl
  capped i s d t d' hok hP := by
    unfold onlyServing through at *
    split at hok <;> simp_all
    exact ht.within s d t d' hok hP
  opens k i r hfin hfirst hserves := by
    unfold onlyServing at hfin
    rw [if_pos hserves] at hfin
    exact ht.opens r hfin
  ends k i r s t d d' rest hinv hP hfin hfirst hserves := by
    unfold onlyServing through at *
    rw [if_pos hserves] at hP hfin
    exact ht.ends r s t d d' rest hinv hP hfin
  moves i s t d d' rest hinv hP hbound := by
    unfold through at hP
    split at hP
    · exact ht.moves s t d d' rest hinv hP hbound
    · exact hP.2 ▸ ht.same s t _ hinv hP.1
  closes i r s t d d' rest hinv hP hfin hbound := by
    unfold through onlyServing at *
    split at hP
    · next hserves =>
      rw [if_pos hserves] at hfin
      exact ht.closes r s t d d' rest hinv hP hfin hbound
    · next hserves =>
      rw [if_neg hserves] at hfin
      obtain ⟨hsame, rfl⟩ := hP
      rw [hfin, Nat.zero_add] at hinv
      exact ht.same s t _ hinv hsame

end

private theorem promptLines_size {used : Nat} (turns : List Turn)
    (h : used ≤ Extract.MAX_PROMPT_CHARS) :
    used + (String.join (Extract.promptLines used turns)).utf8ByteSize ≤ Extract.MAX_PROMPT_CHARS := by
  induction turns generalizing used with
  | nil => exact h
  | cons t turns ih =>
    rw [Extract.promptLines]
    split
    · exact h
    · next hfits =>
      rw [String.join_cons, String.utf8ByteSize_append, ← Nat.add_assoc]
      exact ih (Nat.not_lt.mp hfits)

/-- The longest prompt of an extraction. -/
def LONGEST_PROMPT : Nat := Extract.promptHeader.utf8ByteSize + Extract.MAX_PROMPT_CHARS

private theorem buildPrompt_size (turns : List Turn) :
    (Extract.buildPrompt turns).utf8ByteSize ≤ LONGEST_PROMPT := by
  have hlines := promptLines_size (Extract.recent turns) (Nat.zero_le Extract.MAX_PROMPT_CHARS)
  rw [Nat.zero_add] at hlines
  unfold LONGEST_PROMPT
  rw [Extract.buildPrompt, String.utf8ByteSize_append]
  exact Nat.add_le_add_left hlines _

/-! ## The ceiling -/

/-- What is recorded and what may yet be stays within a grant, and a grant is only made below the
ceiling. -/
def Ceiled (ceiling T : Nat) (sid : Int) (s : Billing F) (d : Nat) (t : Billing F) (d' : Nat) : Prop :=
  (recorded t sid + d' ≤ recorded s sid + d ∨
    recorded t sid = recorded s sid ∧ recorded s sid < ceiling) ∧ (d ≤ T → d' ≤ T)

private theorem ceiled_charges {T : Nat} (hceiling : 0 < cfg.maxTokensPerSession)
    (hT : ∀ prompt response, Exchange tools prompt response → charge F prompt response ≤ T) :
    Charges cfg tools sid (Ceiled cfg.maxTokensPerSession T sid) T (fun _ _ => T) 0 where
  same s t d h := ⟨.inl (Nat.le_of_eq (by rw [h.recorded])), id⟩
  unlimited h := absurd h (Nat.ne_of_gt hceiling)
  grant s t h hbelow := ⟨.inr ⟨h.recorded, hbelow⟩, fun _ => Nat.le_refl T⟩
  leave s t h := ⟨.inl (by rw [h.recorded]; omega), fun _ => Nat.zero_le T⟩
  failed s t prompt h := by
    have hsame : recorded t sid = recorded s sid := by unfold recorded callsOf; rw [h.calls]
    exact ⟨.inl (by omega), fun _ => Nat.zero_le T⟩
  garbled s t prompt response _ _ h := by
    have hsame : recorded t sid = recorded s sid := by unfold recorded callsOf; rw [h.calls]
    exact ⟨.inl (by omega), fun _ => Nat.zero_le T⟩
  answer s t prompt response _ _ h := by
    have hsame : recorded t sid = recorded s sid := by unfold recorded callsOf; rw [h.calls]
    exact ⟨.inl (by omega), id⟩
  settle s t prompt response entry hexchange hsid htokens h := by
    have hle := hT prompt response hexchange
    refine ⟨.inl ?_, fun _ => Nat.zero_le T⟩
    rcases (h.recorded hsid).2 with ⟨hrecorded, _⟩ | ⟨hcalls, _⟩
    · omega
    · unfold recorded
      rw [hcalls]
      omega

omit [F64 F] in
private theorem ceiled_tariff (T n start : Nat) :
    Tariff cfg tools sid (Ceiled (F := F) cfg.maxTokensPerSession T sid) (fun _ d => d = 0) (· ≤ T)
      (· ≤ n * T) (fun _ => True)
      (fun s d => recorded s sid + d ≤ max start (cfg.maxTokensPerSession - 1) + n * T) where
  zero := Nat.zero_le T
  within s d t d' hd h := h.2 hd
  refused _ _ := rfl
  same s t d hinv h := by rwa [h.recorded]
  moves s t d d' rest hinv h hbound := by
    rcases h.1 with hle | ⟨hsame, hbelow⟩ <;> omega
  closes r s t d d' rest hinv h hfin hbound := by
    rcases h.1 with hle | ⟨hsame, hbelow⟩ <;> omega
  opens _ _ := trivial
  ends _ _ _ _ _ _ _ _ _ := trivial

/-- While never more than `n` extractions of a session are at work at a time, and no call is charged more
than `T`, what is recorded for the session passes its ceiling by at most `n` such calls. -/
theorem ceiling_overshoot (start : Billing F) (events : List (Hall.Event (Request F))) {n T : Nat}
    (hceiling : 0 < cfg.maxTokensPerSession)
    (hbusy : ∀ j, ((idle start).run (client env cfg tools) (events.take j)).busy (serves tools sid) ≤ n)
    (hcharge : ∀ k prompt response, prompt.utf8ByteSize ≤ LONGEST_PROMPT →
      tools.chat.complete k prompt = .ok response → charge F prompt response ≤ T) :
    recorded ((idle start).run (client env cfg tools) events).locked.shared sid ≤
      max (recorded start sid) (cfg.maxTokensPerSession - 1) + n * T := by
  have hcharges : Charges cfg tools sid (Ceiled cfg.maxTokensPerSession T sid) T (fun _ _ => T) 0 :=
    ceiled_charges hceiling fun prompt response h => by
      obtain ⟨fresh, k, rfl, hcomplete⟩ := h
      exact hcharge k _ response (buildPrompt_size fresh) hcomplete
  have haccount := hcharges.account env (ceiled_tariff T n (recorded start sid)) (fun _ => rfl) 0
  have hstart : recorded start sid + 0 ≤
      max (recorded start sid) (cfg.maxTokensPerSession - 1) + n * T := by omega
  obtain ⟨owed, -, hinv⟩ := Hall.Carried.run events (idle_carried start) haccount
    hstart (fun _ _ s d rest hinv => by omega) fun j owed hcarried => by
      refine (hcarried.total_le fun i d hok => ?_).trans (Nat.mul_le_mul_right T (hbusy j))
      unfold onlyServing at hok
      split at hok <;> simp_all
  exact (Nat.le_add_right _ _).trans hinv

private theorem length_le_size (text : String) : text.toList.length ≤ text.utf8ByteSize := by
  suffices h : ∀ l : List Char, l.length ≤ (String.ofList l).utf8ByteSize by
    have hle := h text.toList
    rwa [String.ofList_toList] at hle
  intro l
  induction l with
  | nil => exact Nat.zero_le _
  | cons c l ih =>
    rw [String.ofList_cons, String.utf8ByteSize_append, String.utf8ByteSize_singleton,
      List.length_cons, Nat.add_comm]
    exact Nat.add_le_add c.utf8Size_pos ih

/-- With exact numbers: the characters in fours, with the safety factor, rounded up. -/
private theorem heuristicCount_le (text : String) :
    Recall.heuristicCount ℚ text ≤ (text.utf8ByteSize + 3) / 4 * 115 / 100 + 1 := by
  have hbase : (text.toList.length + 3) / 4 ≤ (text.utf8ByteSize + 3) / 4 :=
    Nat.div_le_div_right (Nat.add_le_add_right (length_le_size text) 3)
  have hfactor : (text.toList.length + 3) / 4 * 115 ≤
      ((text.utf8ByteSize + 3) / 4 * 115 / 100 + 1) * 100 := by omega
  unfold Recall.heuristicCount
  split
  · exact Nat.zero_le _
  · dsimp only
    refine Nat.max_le.mpr ⟨Nat.le_add_left 1 _, ?_⟩
    refine (Nat.min_le_left _ _).trans (Int.toNat_le.mpr (Rat.ceil_le_iff.mpr ?_))
    show (((text.toList.length + 3) / 4 : ℕ) : ℚ) * (115 / 100) ≤ _
    rw [Int.cast_natCast]
    have hcast := (Nat.cast_le (α := ℚ)).mpr hfactor
    rw [Nat.cast_mul, Nat.cast_mul] at hcast
    norm_num at hcast ⊢
    linarith

/-- A store with one session of one turn. -/
def sampleStart : Billing ℚ where
  ext := { conn := { agentId := "a", db := {
    embedDim := 1, sessions := [{ id := 1, publicId := "s", agentId := "a", startedAt := 0 }]
    turns := [⟨1, 1, "user", "hi", "hi", 0⟩] } } }

/-- The chat client answers nothing, which no reader objects to, and every payload names session one. -/
def sampleTools : Tools ℚ where
  chat := ⟨fun _ _ => .ok ""⟩
  chatModel := "silent"
  json _ := .ok []
  payload _ := .ok (some 1)
  embedder _ := sampleEmbedder
  serverEmbedder := sampleEmbedder
  elapsed _ := 0
  recordedAt _ := .ok 7

def sampleConfig : Config ℚ := ⟨100, .hash, "", 0, 0⟩

/-- Two extractions that both pass the gate before either has recorded its call. -/
def sampleEvents : List (Hall.Event (Request ℚ)) :=
  [.start (.extract "1"), .start (.extract "1")] ++ List.replicate 5 (.advance 0) ++
    List.replicate 9 (.advance 1) ++ List.replicate 4 (.advance 0)

private theorem sampleEvents_starts : sampleEvents.countP Hall.Event.isStart = 2 := rfl

/-- The most that a prompt is charged. -/
def DEAREST : Nat := (LONGEST_PROMPT + 3) / 4 * 115 / 100 + 1

private theorem sample_charge {k : Nat} {prompt response : String}
    (hsize : prompt.utf8ByteSize ≤ LONGEST_PROMPT)
    (hresponse : sampleTools.chat.complete k prompt = .ok response) :
    charge ℚ prompt response ≤ DEAREST := by
  have hempty : "" = response := Except.ok.inj hresponse
  have hcount := heuristicCount_le prompt
  unfold charge
  rw [← hempty, Recall.heuristicCount, Recall.heuristicCount, if_pos rfl]
  unfold Recall.heuristicCount at hcount
  unfold DEAREST
  omega

theorem ceiling_overshoot_sample :
    recorded ((idle sampleStart).run (client sampleEnv sampleConfig sampleTools)
      sampleEvents).locked.shared 1 ≤
        max (recorded sampleStart 1) (sampleConfig.maxTokensPerSession - 1) + 2 * DEAREST := by
  refine ceiling_overshoot sampleStart sampleEvents (by decide) (fun j => ?_) fun _ _ _ => sample_charge
  have hstarts := (List.take_sublist j sampleEvents).countP_le (p := Hall.Event.isStart)
  have hbusy := Hall.busy_run_le (client sampleEnv sampleConfig sampleTools) (serves sampleTools 1)
    (idle sampleStart) (sampleEvents.take j)
  rw [sampleEvents_starts] at hstarts
  have hnobody : (idle sampleStart).clients.length = 0 := rfl
  omega

/-! ## After the ceiling -/

/-- Whoever has not passed the gate leaves the session alone, and passes it below the ceiling only. -/
def Shut (ceiling : Nat) (sid : Int) (s : Billing F) (d : Nat) (t : Billing F) (d' : Nat) : Prop :=
  (d = 0 → Same sid s t ∧ (d' = 0 ∨ recorded s sid < ceiling)) ∧ (d ≤ 1 → d' ≤ 1)

def Refused (cfg : Config F) (r : Except Error Unit) : Prop := ∃ e, r = .error e ∧ Refusal cfg e

private theorem shut_charges (hceiling : 0 < cfg.maxTokensPerSession) :
    Charges cfg tools sid (Shut cfg.maxTokensPerSession sid) 1 (fun _ _ => 1) 1 where
  same s t d h := ⟨fun hd => ⟨h, .inl hd⟩, id⟩
  unlimited h := absurd h (Nat.ne_of_gt hceiling)
  grant s t h hbelow := ⟨fun _ => ⟨h, .inr hbelow⟩, fun _ => Nat.le_refl 1⟩
  leave s t _ := ⟨fun h => absurd h (by decide), id⟩
  failed s t _ _ := ⟨fun h => absurd h (by decide), id⟩
  garbled s t _ _ _ _ _ := ⟨fun h => absurd h (by decide), id⟩
  answer s t _ _ _ _ _ := ⟨fun h => absurd h (by decide), id⟩
  settle s t _ _ _ _ _ _ _ := ⟨fun h => absurd h (by decide), id⟩

omit [F64 F] in
/-- As long as nobody has passed the gate, `s₀` is still the state of the session. -/
private theorem shut_tariff (reached : Prop) (s₀ : Billing F)
    (hreached : reached → cfg.maxTokensPerSession ≤ recorded s₀ sid) :
    Tariff cfg tools sid (Shut (F := F) cfg.maxTokensPerSession sid)
      (fun r d => d = 0 → Refused cfg r) (· ≤ 1) (fun _ => True) (fun r => reached → Refused cfg r)
      (fun s d => reached → d = 0 ∧ Same sid s₀ s) where
  zero := Nat.zero_le 1
  within s d t d' hd h := h.2 hd
  refused e he _ := ⟨e, rfl, he⟩
  same s t d hinv h hr := ⟨(hinv hr).1, (hinv hr).2.trans h⟩
  moves s t d d' rest hinv h _ hr := by
    obtain ⟨hzero, hsame⟩ := hinv hr
    obtain ⟨hkept, hd' | hbelow⟩ := h.1 (by omega)
    · exact ⟨by omega, hsame.trans hkept⟩
    · have := hreached hr
      rw [hsame.recorded] at hbelow
      omega
  closes r s t d d' rest hinv h _ _ hr := by
    obtain ⟨hzero, hsame⟩ := hinv hr
    exact ⟨by omega, hsame.trans (h.1 (by omega)).1⟩
  opens r hfin _ := hfin rfl
  ends r s t d d' rest hinv h hfin hr := by
    obtain ⟨hzero, hsame⟩ := hinv hr
    obtain ⟨-, hd' | hbelow⟩ := h.1 (by omega)
    · exact hfin hd'
    · have := hreached hr
      rw [hsame.recorded] at hbelow
      omega

/-- Once a session is at its ceiling and no extraction of it is at work, the chat client is never asked
for it again, its part of the ledger stays as it is, and every extraction of it that begins is refused. -/
theorem closed_for_good (start : Billing F) (events later : List (Hall.Event (Request F)))
    (hceiling : 0 < cfg.maxTokensPerSession) {h : Office F}
    (hrun : (idle start).run (client env cfg tools) events = h)
    (hreached : cfg.maxTokensPerSession ≤ recorded h.locked.shared sid)
    (hbusy : h.busy (serves tools sid) = 0) :
    Same sid h.locked.shared (h.run (client env cfg tools) later).locked.shared ∧
      ∀ k i r, h.clients.length ≤ k → (h.run (client env cfg tools) later).At k i (.done r) →
        serves tools sid i = true → Refused cfg r := by
  have hcharges : Charges cfg tools sid (Shut cfg.maxTokensPerSession sid) 1 (fun _ _ => 1) 1 :=
    shut_charges hceiling
  have hclosed : ∀ r : Except Error Unit, (1 : Nat) = 0 → Refused cfg r := fun _ h => absurd h (by decide)
  -- up to `h` nothing is known of the session
  obtain ⟨owed, hcarried, -⟩ := Hall.Carried.run events (idle_carried start)
    (hcharges.account env (shut_tariff False start False.elim) hclosed 0) False.elim
    (fun _ _ _ _ _ _ => False.elim) fun _ _ _ => trivial
  rw [hrun] at hcarried
  have htotal : h.total owed = 0 := hcarried.total_eq_zero (fun i d hok hserves => by
    unfold onlyServing at hok
    rw [hserves] at hok
    exact hok) hbusy
  -- from `h` on nobody passes the gate
  have haccount := hcharges.account env (shut_tariff True h.locked.shared fun _ => hreached) hclosed
    h.clients.length
  obtain ⟨owed', hcarried', hinv⟩ := Hall.Carried.run later
    ⟨hcarried.working, hcarried.idle, fun k i r hat hk =>
      absurd (List.getElem?_eq_some_iff.mp hat).1 (Nat.not_lt.mpr hk)⟩
    haccount (fun _ => ⟨htotal, Same.refl _⟩)
    (fun _ _ s d rest hforget hr => ⟨by have := (hforget hr).1; omega, (hforget hr).2⟩)
    fun _ _ _ => trivial
  exact ⟨(hinv trivial).2, fun k i r hk hat hserves => hcarried'.ended k i r hat hk hserves trivial⟩

/-- The same store after calls of 120 tokens for its session. -/
def spentStart : Billing ℚ := { sampleStart with
  calls := [⟨1, .extract, some 1, "silent", 118, 2, 120, 5, true, 0, 7⟩], callSeq := 1 }

theorem closed_for_good_sample :
    Same 1 spentStart ((idle spentStart).run (client sampleEnv sampleConfig sampleTools)
        sampleEvents).locked.shared ∧
      ∀ k i r, 0 ≤ k → ((idle spentStart).run (client sampleEnv sampleConfig sampleTools)
        sampleEvents).At k i (.done r) → serves sampleTools 1 i = true → Refused sampleConfig r :=
  closed_for_good spentStart [] sampleEvents (by decide) rfl (by decide) rfl

/-! ## What answers cost -/

/-- What an answered call is charged. -/
def cost (F : Type) [F64 F] (a : Int × String × Option String) : Nat :=
  match a.2.2 with
  | some response => charge F a.2.1 response
  | none => 0

/-- There was no answer, or one that parses. -/
def readable (tools : Tools F) (a : Int × String × Option String) : Bool := a.2.2.all (Parses tools)

/-- What the answered calls for the session are charged. -/
def spent (s : Billing F) (sid : Int) : Nat := ((askedOf s sid).map (cost F)).sum

/-- The same of those whose answer parses. -/
def billable (tools : Tools F) (s : Billing F) (sid : Int) : Nat :=
  (((askedOf s sid).filter (readable tools)).map (cost F)).sum

section

omit [F64 F]

theorem Asked.recorded {prompt : String} {answer : Option String} {s t : Billing F}
    (h : Asked sid prompt answer s t) : Budget.recorded t sid = Budget.recorded s sid := by
  unfold Budget.recorded callsOf
  rw [h.calls]

theorem Asked.warnedOf {prompt : String} {answer : Option String} {s t : Billing F}
    (h : Asked sid prompt answer s t) : Budget.warnedOf t sid = Budget.warnedOf s sid := by
  unfold Budget.warnedOf
  rw [h.warned]

theorem Asked.askedOf {prompt : String} {answer : Option String} {s t : Billing F}
    (h : Asked sid prompt answer s t) :
    Budget.askedOf t sid = Budget.askedOf s sid ++ [(sid, prompt, answer)] := by
  unfold Budget.askedOf
  rw [h.asked, List.filter_append, List.filter_cons_of_pos (by simp), List.filter_nil]

private theorem billable_append {prompt : String} {answer : Option String} {s t : Billing F} [F64 F]
    (h : Asked sid prompt answer s t) : billable tools t sid = billable tools s sid +
      if readable tools (sid, prompt, answer) then cost F (sid, prompt, answer) else 0 := by
  unfold billable
  rw [h.askedOf, List.filter_append, List.map_append, List.sum_append]
  cases hreadable : readable tools (sid, prompt, answer) with
  | true => rw [List.filter_cons_of_pos hreadable, List.filter_nil, List.map_singleton,
      List.sum_singleton, if_pos rfl]
  | false => rw [List.filter_cons_of_neg (by simp [hreadable]), List.filter_nil, List.map_nil,
      List.sum_nil, if_neg (by decide)]

end

/-- Whatever was charged was more than nothing. -/
structure Positive (s : Billing F) (sid : Int) : Prop where
  asked : ∀ a ∈ askedOf s sid, a.2.2.isSome = true → 0 < cost F a
  warned : ∀ e ∈ warnedOf s sid, 0 < entryTokens e

theorem Positive.same {s t : Billing F} (h : Positive s sid) (hsame : Same sid s t) :
    Positive t sid where
  asked := hsame.asked ▸ h.asked
  warned := hsame.warned ▸ h.warned

private theorem buildPrompt_ne (turns : List Turn) : Extract.buildPrompt turns ≠ "" := by
  intro h
  have hsize := congrArg String.utf8ByteSize h
  rw [Extract.buildPrompt, String.utf8ByteSize_append] at hsize
  have hheader : 0 < Extract.promptHeader.utf8ByteSize := by decide +kernel
  have hempty : ("" : String).utf8ByteSize = 0 := rfl
  omega

private theorem charge_pos {prompt response : String} (h : Exchange tools prompt response) :
    0 < charge F prompt response := by
  obtain ⟨fresh, n, rfl, -⟩ := h
  exact Nat.add_pos_left (heuristicCount_pos (buildPrompt_ne fresh)) _

/-- What is billed is recorded, named by a warning, or still on an account. -/
def Balanced (tools : Tools F) (sid : Int) (s : Billing F) (d : Nat) (t : Billing F) (d' : Nat) : Prop :=
  recorded t sid + warned t sid + d' + billable tools s sid =
    recorded s sid + warned s sid + d + billable tools t sid ∧ (Positive s sid → Positive t sid)

theorem Asked.positive {prompt : String} {answer : Option String} {s t : Billing F}
    (h : Asked sid prompt answer s t) (hs : Positive s sid)
    (hanswer : ∀ response, answer = some response → 0 < charge F prompt response) :
    Positive t sid where
  asked a ha hsome := by
    rw [h.askedOf] at ha
    rcases List.mem_append.mp ha with ha | ha
    · exact hs.asked a ha hsome
    · cases List.mem_singleton.mp ha
      obtain ⟨response, rfl⟩ := Option.isSome_iff_exists.mp hsome
      exact hanswer response rfl
  warned := h.warnedOf ▸ hs.warned

private theorem balanced_charges :
    Charges cfg tools sid (Balanced tools sid) 0 (charge F) 0 where
  same s t d h := by
    refine ⟨?_, fun hs => hs.same h⟩
    unfold billable
    rw [h.recorded, h.warnedTokens, h.asked]
  unlimited _ := rfl
  grant s t h _ := by
    refine ⟨?_, fun hs => hs.same h⟩
    unfold billable
    rw [h.recorded, h.warnedTokens, h.asked]
  leave s t h := by
    refine ⟨?_, fun hs => hs.same h⟩
    unfold billable
    rw [h.recorded, h.warnedTokens, h.asked]
  failed s t prompt h := by
    refine ⟨?_, fun hs => h.positive hs fun _ hsome => by cases hsome⟩
    unfold warned
    rw [h.recorded, h.warnedOf, billable_append h]
    rfl
  garbled s t prompt response hexchange hparses h := by
    refine ⟨?_, fun hs => h.positive hs fun r hr => Option.some.inj hr ▸ charge_pos hexchange⟩
    have hunreadable : readable tools (sid, prompt, some response) = false := hparses
    unfold warned
    rw [h.recorded, h.warnedOf, billable_append h, hunreadable]
    rfl
  answer s t prompt response hexchange hparses h := by
    refine ⟨?_, fun hs => h.positive hs fun r hr => Option.some.inj hr ▸ charge_pos hexchange⟩
    have hreadable : readable tools (sid, prompt, some response) = true := hparses
    unfold warned
    rw [h.recorded, h.warnedOf, billable_append h, if_pos hreadable]
    simp only [cost]
    omega
  settle s t prompt response entry hexchange hsid htokens h := by
    obtain ⟨hasked, hentry⟩ := h.recorded hsid
    have hbillable : billable tools t sid = billable tools s sid := by
      unfold billable
      rw [hasked]
    unfold Balanced
    rw [← htokens, hbillable]
    rcases hentry with ⟨hrecorded, hwarned⟩ | ⟨hcalls, hwarned⟩
    · refine ⟨?_, fun hs => ⟨hasked ▸ hs.asked, hwarned ▸ hs.warned⟩⟩
      unfold warned
      rw [hrecorded, hwarned]
      omega
    · refine ⟨?_, fun hs => ⟨hasked ▸ hs.asked, fun e he => ?_⟩⟩
      · unfold warned recorded
        rw [hcalls, hwarned, List.map_append, List.sum_append, List.map_singleton, List.sum_singleton]
        omega
      · rw [hwarned] at he
        rcases List.mem_append.mp he with he | he
        · exact hs.warned e he
        · rw [List.mem_singleton.mp he, htokens]
          exact charge_pos hexchange

/-- `calm` says that no call is cut off. -/
def Accounted (tools : Tools F) (sid : Int) (calm : Prop) (s : Billing F) (d : Nat) : Prop :=
  recorded s sid + warned s sid + d ≤ billable tools s sid ∧
    (calm → recorded s sid + warned s sid + d = billable tools s sid) ∧ Positive s sid

private theorem balanced_tariff (calm : Prop) :
    Tariff cfg tools sid (Balanced tools sid) (fun _ d => d = 0) (fun _ => True) (fun _ => True)
      (fun _ => True) (Accounted tools sid calm) where
  zero := trivial
  within _ _ _ _ _ _ := trivial
  refused _ _ := rfl
  same s t d hinv h := by
    obtain ⟨hle, heq, hs⟩ := hinv
    have hbillable : billable tools t sid = billable tools s sid := by
      unfold billable
      rw [h.asked]
    rw [Accounted, h.recorded, h.warnedTokens, hbillable]
    exact ⟨hle, heq, hs.same h⟩
  moves s t d d' rest hinv h _ := by
    obtain ⟨hle, heq, hs⟩ := hinv
    obtain ⟨hbalance, hpos⟩ := h
    refine ⟨by omega, fun hcalm => ?_, hpos hs⟩
    have := heq hcalm
    omega
  closes r s t d d' rest hinv h hfin _ := by
    obtain ⟨hle, heq, hs⟩ := hinv
    obtain ⟨hbalance, hpos⟩ := h
    refine ⟨by omega, fun hcalm => ?_, hpos hs⟩
    have := heq hcalm
    omega
  opens _ _ := trivial
  ends _ _ _ _ _ _ _ _ _ := trivial

/-- A sum over some of a list is the sum over all of it when it leaves out nothing that counts. -/
private theorem sum_filter_eq_iff {A : Type} (l : List A) (p : A → Bool) (f : A → Nat)
    (hpos : ∀ a ∈ l, p a = false → 0 < f a) :
    ((l.filter p).map f).sum = (l.map f).sum ↔ ∀ a ∈ l, p a = true := by
  induction l with
  | nil => simp
  | cons a l ih =>
    have hrest := ih fun b hb => hpos b (List.mem_cons_of_mem _ hb)
    have hle : ((l.filter p).map f).sum ≤ (l.map f).sum :=
      List.Sublist.sum_le_sum (List.Sublist.map f List.filter_sublist) fun _ _ => Nat.zero_le _
    rw [List.forall_mem_cons, List.map_cons, List.sum_cons]
    cases hp : p a with
    | true =>
      rw [List.filter_cons_of_pos hp, List.map_cons, List.sum_cons, Nat.add_left_cancel_iff, hrest]
      exact ⟨fun h => ⟨rfl, h⟩, And.right⟩
    | false =>
      have hfa := hpos a List.mem_cons_self hp
      rw [List.filter_cons_of_neg (by simp [hp])]
      refine ⟨fun h => by omega, fun h => absurd h.1 (by decide)⟩

/-- What a session's extractions are recorded and warned of never exceeds what its readable answers cost,
and is that cost when no call is cut off or at work. So the ceiling is then compared with what was really
spent exactly if every answer could be read and every call recorded. -/
theorem recorded_spending (start : Billing F) (events : List (Hall.Event (Request F))) {h : Office F}
    (hrun : (idle start).run (client env cfg tools) events = h)
    (hnew : callsOf start sid = [] ∧ warnedOf start sid = [] ∧ askedOf start sid = []) :
    recorded h.locked.shared sid + warned h.locked.shared sid ≤ billable tools h.locked.shared sid ∧
      ((∀ k, .stop k ∉ events) → h.busy (serves tools sid) = 0 →
        recorded h.locked.shared sid + warned h.locked.shared sid =
          billable tools h.locked.shared sid ∧
        (recorded h.locked.shared sid = spent h.locked.shared sid ↔
          (∀ a ∈ askedOf h.locked.shared sid, readable tools a = true) ∧
            warnedOf h.locked.shared sid = [])) := by
  obtain ⟨hcalls, hwarned, hasked⟩ := hnew
  have hstart : Accounted tools sid (∀ k, .stop k ∉ events) start 0 := by
    have hrecorded : recorded start sid = 0 := by rw [recorded, hcalls]; rfl
    have hwarnings : warned start sid = 0 := by rw [warned, hwarned]; rfl
    have hbillable : billable tools start sid = 0 := by rw [billable, hasked]; rfl
    refine ⟨by omega, fun _ => by omega, fun a ha => ?_, fun e he => ?_⟩
    · rw [hasked] at ha
      cases ha
    · rw [hwarned] at he
      cases he
  obtain ⟨owed, hcarried, hle, heq, hpos⟩ := Hall.Carried.run events (idle_carried start)
    (balanced_charges.account env (balanced_tariff (∀ k, .stop k ∉ events)) (fun _ => rfl) 0) hstart
    (fun k hk s d rest hinv => ⟨by have := hinv.1; omega, fun hcalm => absurd hk (hcalm k), hinv.2.2⟩)
    fun _ _ _ => trivial
  rw [hrun] at hcarried hle heq hpos
  refine ⟨by omega, fun hcalm hbusy => ?_⟩
  have hzero : h.total owed = 0 := hcarried.total_eq_zero (fun i d hok hserves => by
    unfold onlyServing at hok
    rw [hserves] at hok
    exact hok) hbusy
  have hbalance := heq hcalm
  rw [hzero, Nat.add_zero] at hbalance
  refine ⟨hbalance, ?_⟩
  have hreadable := sum_filter_eq_iff (askedOf h.locked.shared sid) (readable tools) (cost F)
    fun a ha hunreadable => hpos.asked a ha (by
      unfold readable at hunreadable
      cases hanswer : a.2.2 with
      | none =>
        rw [hanswer] at hunreadable
        cases hunreadable
      | some response => rfl)
  have hsome : billable tools h.locked.shared sid ≤ spent h.locked.shared sid :=
    List.Sublist.sum_le_sum (List.Sublist.map _ List.filter_sublist) fun _ _ => Nat.zero_le _
  have hnone : warned h.locked.shared sid = 0 ↔ warnedOf h.locked.shared sid = [] := by
    unfold warned
    rw [List.sum_eq_zero_iff]
    refine ⟨fun hall => List.eq_nil_iff_forall_not_mem.mpr fun e he => ?_, fun hnil => by simp [hnil]⟩
    have := hall _ (List.mem_map_of_mem he)
    exact absurd (hpos.warned e he) (by omega)
  rw [← hreadable, ← hnone]
  unfold billable at hbalance hsome
  unfold spent at hsome ⊢
  omega

theorem recorded_spending_sample :
    let h := (idle sampleStart).run (client sampleEnv sampleConfig sampleTools) sampleEvents
    recorded h.locked.shared 1 + warned h.locked.shared 1 =
        billable sampleTools h.locked.shared 1 ∧
      recorded h.locked.shared 1 = spent h.locked.shared 1 ∧
      (askedOf h.locked.shared 1).length = 2 := by
  intro h
  have hstops : ∀ k, Hall.Event.stop k ∉ sampleEvents := by
    intro k
    simp [sampleEvents]
  have hdone : h.busy (serves sampleTools 1) = 0 := by decide +kernel
  obtain ⟨hbalance, hall⟩ :=
    (recorded_spending sampleStart sampleEvents rfl ⟨rfl, rfl, rfl⟩).2 hstops hdone
  exact ⟨hbalance, hall.mpr ⟨by decide +kernel, by decide +kernel⟩, by decide +kernel⟩

/-! ## The report and the gate -/

/-- The gate lets no extraction of the session pass. -/
def Refuses (env : Env F) (cfg : Config F) (sid : Int) (s : Billing F) : Prop :=
  ∃ e, ((checkSessionBudget env cfg (some sid)).alone s).1 = .error e

omit [F64 F] in
private theorem refuses_iff {s : Billing F} (hceiling : 0 < cfg.maxTokensPerSession)
    (hread : env.fault s.ext.conn.stmts = false) :
    Refuses env cfg sid s ↔ cfg.maxTokensPerSession ≤ recorded s sid ∨ 2 ^ 63 ≤ recorded s sid := by
  have htokens : (readTokens env sid s).1 = (tokensForSession s.calls sid).mapError .other := by
    unfold readTokens onStore onExt Extract.onConn Store.query Store.exec
    simp only [hread]
    rfl
  have hsum : tokensForSession s.calls sid = if recorded s sid < 2 ^ 63 then .ok (recorded s sid)
      else .error (.storage "integer overflow") := by
    unfold tokensForSession
    rw [sumNat_eq]
    unfold recorded callsOf
    split <;> rfl
  unfold Refuses checkSessionBudget
  dsimp only
  rw [if_neg (Nat.ne_of_gt hceiling), alone_bind, alone_call, Program.bind_run]
  cases hrun : readTokens env sid s with
  | mk r t =>
    rw [hrun, hsum] at htokens
    dsimp only at htokens
    by_cases hsmall : recorded s sid < 2 ^ 63
    · rw [if_pos hsmall] at htokens
      subst htokens
      show (∃ e, ((if cfg.maxTokensPerSession ≤ recorded s sid then
        Client.fail (.budgetExceeded _ _) else pure () : Job F Unit).alone t).1 = .error e) ↔ _
      by_cases hover : cfg.maxTokensPerSession ≤ recorded s sid
      · rw [if_pos hover]
        exact ⟨fun _ => .inl hover, fun _ => ⟨_, rfl⟩⟩
      · rw [if_neg hover]
        refine ⟨fun ⟨e, he⟩ => (by cases he), fun hor => ?_⟩
        omega
    · rw [if_neg hsmall] at htokens
      subst htokens
      exact ⟨fun _ => .inr (Nat.not_lt.mp hsmall), fun _ => ⟨_, rfl⟩⟩

omit [F64 F] in
/-- The rows of a session's report are some of the rows that the gate counts, and all of them when it goes
back far enough. -/
private theorem scope_sum (s : Billing F) (since : Int) :
    ((callsInScope (some sid) since s.calls).map LlmCall.totalTokens).sum ≤ recorded s sid ∧
      ((∀ c ∈ callsOf s sid, since ≤ c.createdAt) →
        ((callsInScope (some sid) since s.calls).map LlmCall.totalTokens).sum = recorded s sid) := by
  have hrows : callsInScope (some sid) since s.calls =
      (callsOf s sid).filter fun c => decide (since ≤ c.createdAt) := by
    unfold callsInScope callsOf
    rw [List.filter_filter]
    refine List.filter_congr fun c _ => ?_
    unfold inScope
    rw [Option.all_some]
    by_cases hsid : c.sessionId = some sid <;> simp [hsid]
  rw [hrows]
  refine ⟨?_, fun hall => ?_⟩
  · exact List.Sublist.sum_le_sum (List.Sublist.map _ List.filter_sublist) fun _ _ => Nat.zero_le _
  · rw [List.filter_eq_self.mpr fun c hc => decide_eq_true (hall c hc)]
    rfl

/-- Whatever is written between the `SELECT`s of a session's cost report, over budget in it means that
the gate refuses the session where the first of them read, whatever the report's window; a window over all
its calls shows nothing left exactly if the gate refuses it, and over budget exactly if extractions under
way went past the ceiling. The report adds up by purpose if no call of the session was recorded between the
first `SELECT` and the second. -/
theorem report_matches_gate (s : Billing F) {agg : Aggregates F} {callsThen : List (LlmCall F)}
    {ledger : List (Recall.LedgerRow F)} {since : Int} {r : CostReport F}
    (hceiling : 0 < cfg.maxTokensPerSession) (hread : env.fault s.ext.conn.stmts = false)
    (hreport : costReport agg s.calls callsThen ledger (some sid) since
      cfg.maxTokensPerSession = .ok r) :
    (callsInScope (some sid) since callsThen = callsInScope (some sid) since s.calls →
      AddsUp r.byPurpose r.calls r.failedCalls r.promptTokens r.completionTokens r.totalTokens) ∧
      ∃ b, r.sessionBudget = some b ∧ (b.overBudget = true → Refuses env cfg sid s) ∧
        ((∀ c ∈ callsOf s sid, since ≤ c.createdAt) →
          (b.remainingTokens = some 0 ↔ Refuses env cfg sid s) ∧
          (b.overBudget = true ↔ cfg.maxTokensPerSession < recorded s sid)) := by
  obtain ⟨hadds, htotal, hfits, hbudget⟩ := costReport_ok hreport
  obtain ⟨hle, heq⟩ := scope_sum s since
  rw [← htotal] at hle heq
  refine ⟨hadds, _, hbudget, fun hover => ?_, fun hall => ?_⟩
  · rw [refuses_iff hceiling hread]
    have hmore : cfg.maxTokensPerSession < r.totalTokens := by
      simpa [sessionBudget, hceiling] using hover
    omega
  · rw [refuses_iff hceiling hread, ← heq hall]
    unfold sessionBudget
    dsimp only
    rw [if_pos hceiling]
    refine ⟨⟨fun h => .inl ?_, fun h => ?_⟩, by simp [hceiling]⟩
    · have := Option.some.inj h
      omega
    · rw [Nat.sub_eq_zero_of_le (h.resolve_right (Nat.not_le.mpr hfits))]

/-- The report of the session that has spent 120 tokens. -/
def sampleReport : CostReport ℚ where
  sessionId := some 1
  sinceMillis := 0
  calls := 1
  failedCalls := 0
  promptTokens := 118
  completionTokens := 2
  totalTokens := 120
  meanLatencyMs := 5
  costUsdEst := 0
  byPurpose := [⟨"extract", 1, 0, 118, 2, 120, 5, 0⟩]
  recallBudget := ⟨0, 0, 0, 0, 0⟩
  maxTokensPerSession := 100
  sessionBudget := some ⟨100, 120, some 0, true⟩
  pricing := ⟨true, USD_PER_1M_TOKENS⟩

theorem report_matches_gate_sample :
    AddsUp sampleReport.byPurpose 1 0 118 2 120 ∧ Refuses sampleEnv sampleConfig 1 spentStart ∧
      sampleConfig.maxTokensPerSession < recorded spentStart 1 := by
  have hreport : costReport ⟨fun _ => 0, fun _ => 5⟩ spentStart.calls spentStart.calls [] (some 1) 0
      sampleConfig.maxTokensPerSession = .ok sampleReport := rfl
  have hwindow : ∀ c ∈ callsOf spentStart 1, (0 : Int) ≤ c.createdAt := by decide +kernel
  obtain ⟨hadds, b, hb, -, hall⟩ := report_matches_gate spentStart (by decide)
    (show sampleEnv.fault 0 = false from rfl) hreport
  obtain ⟨hleft, hover⟩ := hall hwindow
  obtain rfl := Option.some.inj hb
  exact ⟨hadds rfl, hleft.mp rfl, hover.mp rfl⟩

end AgosMemory.Budget
