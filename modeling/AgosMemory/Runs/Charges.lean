import AgosMemory.Library.Credit
import AgosMemory.Memory.Budget
import AgosMemory.Observe.Report

/-!
# What calls do to the ledger of a session

Of one session there is a part of the ledger, of the warnings and of what was asked. A call that does not
serve the session leaves that part alone, whatever it does. An extraction of the session passes the gate,
asks, and records what it was answered, and an account of it is told by what these steps put on it.
-/

namespace AgosMemory.Budget

open Library Store Ledger
open Library.Client hiding fail lift onlyIf forEach foldEach attempt
open Library.Program (Moves)

variable {F : Type} [F64 F] {env : Env F} {cfg : Config F} {tools : Tools F} {sid : Int}

/-! ## What a state says about one session -/

section

omit [F64 F]

def callsOf (s : Billing F) (sid : Int) : List (LlmCall F) :=
  s.calls.filter fun c => c.sessionId = some sid

def warnedOf (s : Billing F) (sid : Int) : List (LedgerEntry F) :=
  s.warned.filter fun e => e.sessionId = some sid

def askedOf (s : Billing F) (sid : Int) : List (Int × String × Option String) :=
  s.asked.filter fun a => a.1 = sid

/-- The tokens in the ledger. -/
def recorded (s : Billing F) (sid : Int) : Nat := ((callsOf s sid).map LlmCall.totalTokens).sum

def entryTokens (e : LedgerEntry F) : Nat := e.promptTokens + e.completionTokens

/-- The tokens that a warning names. -/
def warned (s : Billing F) (sid : Int) : Nat := ((warnedOf s sid).map entryTokens).sum

/-- The session's part of the ledger, of the warnings and of what was asked is what it was. -/
structure Same (sid : Int) (s t : Billing F) : Prop where
  calls : callsOf t sid = callsOf s sid
  warned : warnedOf t sid = warnedOf s sid
  asked : askedOf t sid = askedOf s sid

theorem Same.refl (s : Billing F) : Same sid s s := ⟨rfl, rfl, rfl⟩

theorem Same.trans {s t u : Billing F} (h : Same sid s t) (h' : Same sid t u) : Same sid s u :=
  ⟨h'.calls.trans h.calls, h'.warned.trans h.warned, h'.asked.trans h.asked⟩

theorem Same.recorded {s t : Billing F} (h : Same sid s t) : recorded t sid = recorded s sid := by
  unfold Budget.recorded
  rw [h.calls]

theorem Same.warnedTokens {s t : Billing F} (h : Same sid s t) :
    Budget.warned t sid = Budget.warned s sid := by
  unfold Budget.warned
  rw [h.warned]

end

/-- What a call is charged. -/
def charge (F : Type) [F64 F] (prompt response : String) : Nat :=
  Recall.heuristicCount F prompt + Recall.heuristicCount F response

theorem heuristicCount_pos {text : String} (h : text ≠ "") : 0 < Recall.heuristicCount F text := by
  unfold Recall.heuristicCount
  rw [if_neg h]
  exact Nat.le_max_left 1 _

section

omit [F64 F]

/-- What the gate reads is what is recorded. -/
private theorem tokensForSession_ok {s : Billing F} {used : Nat}
    (h : tokensForSession s.calls sid = .ok used) : used = recorded s sid := by
  unfold tokensForSession at h
  rw [sumNat_eq] at h
  split at h
  · exact (Except.ok.inj h).symm
  · cases h

/-! ## Steps -/

/-- The ledger and the histories are what they were. -/
structure Untouched (s t : Billing F) : Prop where
  calls : t.calls = s.calls
  warned : t.warned = s.warned
  asked : t.asked = s.asked

theorem Untouched.same {s t : Billing F} (h : Untouched s t) : Same sid s t where
  calls := by rw [callsOf, callsOf, h.calls]
  warned := by rw [warnedOf, warnedOf, h.warned]
  asked := by rw [askedOf, askedOf, h.asked]

private theorem onExt_untouched {α : Type} {m : Extract.Run F α} {s t : Billing F}
    {r : Except Error α}
    (h : onExt m s = (r, t)) : Untouched s t := by
  obtain ⟨-, rfl⟩ := Prod.mk.inj h
  exact ⟨rfl, rfl, rfl⟩

private theorem onExt_error {α : Type} {m : Extract.Run F α} {s t : Billing F} {e : Error}
    (h : onExt m s = (.error e, t)) : ∃ e', e = .other e' := by
  obtain ⟨hr, -⟩ := Prod.mk.inj h
  cases hm : (m s.ext).1 with
  | ok a =>
    rw [hm] at hr
    cases hr
  | error e' =>
    rw [hm] at hr
    exact ⟨e', (Except.error.inj hr).symm⟩

/-- A prompt for a session is noted with its answer, and nothing else. -/
structure Asked (sid : Int) (prompt : String) (answer : Option String) (s t : Billing F) : Prop where
  calls : t.calls = s.calls
  warned : t.warned = s.warned
  asked : t.asked = s.asked ++ [(sid, prompt, answer)]

/-- A question for another session is nothing to this one. -/
theorem Asked.same {other : Int} {prompt : String} {answer : Option String} {s t : Billing F}
    (h : Asked other prompt answer s t) (hother : other ≠ sid) : Same sid s t where
  calls := by rw [callsOf, callsOf, h.calls]
  warned := by rw [warnedOf, warnedOf, h.warned]
  asked := by
    unfold askedOf
    rw [h.asked, List.filter_append, List.filter_cons_of_neg (by simpa using hother),
      List.filter_nil, List.append_nil]

/-- The entry is recorded, or a warning names it. -/
structure Settled (entry : LedgerEntry F) (s t : Billing F) : Prop where
  asked : t.asked = s.asked
  entry : (∃ id now, t.calls = s.calls ++ [entry.row id now] ∧ t.warned = s.warned) ∨
    (t.calls = s.calls ∧ t.warned = s.warned ++ [entry])

/-- The chat client was given a prompt for turns and answered it. -/
def Exchange (tools : Tools F) (prompt response : String) : Prop :=
  ∃ fresh n, prompt = Extract.buildPrompt fresh ∧ tools.chat.complete n prompt = .ok response

private theorem timed_complete {prompt : String} {s t : Billing F} {r : Except Error (String × Nat)}
    (h : timed tools (onExt (Extract.complete tools.chat prompt)) s = (r, t)) :
    Untouched s t ∧ ∀ a, r = .ok a → ∃ n, tools.chat.complete n prompt = .ok a.1 := by
  obtain ⟨hr, rfl⟩ := Prod.mk.inj h
  refine ⟨⟨rfl, rfl, rfl⟩, fun a ha => ⟨s.ext.prompts.length, ?_⟩⟩
  rw [ha] at hr
  unfold onExt Extract.complete at hr
  dsimp only at hr
  cases hresponse : tools.chat.complete s.ext.prompts.length prompt with
  | error e =>
    rw [hresponse] at hr
    cases hr
  | ok response =>
    rw [hresponse] at hr
    rw [← Except.ok.inj hr]

private theorem ask_ok {prompt : String} {s t : Billing F} {a : String × Nat}
    (h : ask tools sid prompt s = (.ok a, t)) :
    Asked sid prompt (some a.1) s t ∧ ∃ n, tools.chat.complete n prompt = .ok a.1 := by
  unfold ask at h
  cases hrun : timed tools (onExt (Extract.complete tools.chat prompt)) s with
  | mk r u =>
    obtain ⟨hsame, hanswer⟩ := timed_complete hrun
    rw [hrun] at h
    cases r with
    | error e => cases h
    | ok b =>
      cases h
      exact ⟨⟨hsame.calls, hsame.warned, by rw [hsame.asked]⟩, hanswer _ rfl⟩

private theorem ask_error {prompt : String} {s t : Billing F} {e : Error}
    (h : ask tools sid prompt s = (.error e, t)) : Asked sid prompt none s t := by
  unfold ask at h
  cases hrun : timed tools (onExt (Extract.complete tools.chat prompt)) s with
  | mk r u =>
    have hsame := (timed_complete hrun).1
    rw [hrun] at h
    cases r with
    | ok b => cases h
    | error e' =>
      cases h
      exact ⟨hsame.calls, hsame.warned, by rw [hsame.asked]⟩

private theorem recordEntry_cases (tools : Tools F) (entry : LedgerEntry F) (s : Billing F) :
    (∃ now, recordEntry tools entry s = (.ok (), { s with
        recordings := s.recordings + 1
        calls := s.calls ++ [entry.row (s.callSeq + 1) now], callSeq := s.callSeq + 1 })) ∨
      ∃ e, recordEntry tools entry s =
        (.error (.other e), { s with recordings := s.recordings + 1 }) := by
  unfold recordEntry
  dsimp only
  cases tools.recordedAt s.recordings with
  | error e => exact .inr ⟨e, rfl⟩
  | ok now =>
    cases hsession : checkSession s.ext.conn.db entry.sessionId with
    | error e => exact .inr ⟨e, rfl⟩
    | ok _ => exact .inl ⟨now, rfl⟩

theorem recordOrWarn_settled {entry : LedgerEntry F} {s t : Billing F} {r : Except Error Unit}
    (h : recordOrWarn tools entry s = (r, t)) :
    r = .ok () ∧ t.ext = s.ext ∧ Settled entry s t := by
  unfold recordOrWarn at h
  rcases recordEntry_cases tools entry s with ⟨now, hrun⟩ | ⟨e, hrun⟩
  · rw [hrun] at h
    obtain ⟨rfl, rfl⟩ := Prod.mk.inj h
    exact ⟨rfl, rfl, rfl, .inl ⟨_, now, rfl, rfl⟩⟩
  · rw [hrun] at h
    obtain ⟨rfl, rfl⟩ := Prod.mk.inj h
    exact ⟨rfl, rfl, rfl, .inr ⟨rfl, rfl⟩⟩

private theorem readTokens_untouched {s t : Billing F} {r : Except Error Nat}
    (h : readTokens env sid s = (r, t)) :
    Untouched s t ∧ ∀ used, r = .ok used → used = recorded s sid := by
  unfold readTokens onStore at h
  cases hrun : onExt (Extract.onConn (query env fun _ => .ok ())) s with
  | mk r' u =>
    have hsame := onExt_untouched hrun
    rw [hrun] at h
    cases r' with
    | error e =>
      obtain ⟨rfl, rfl⟩ := Prod.mk.inj h
      exact ⟨hsame, fun used hused => by cases hused⟩
    | ok _ =>
      obtain ⟨rfl, rfl⟩ := Prod.mk.inj h
      refine ⟨hsame, fun used hused => ?_⟩
      rw [hsame.calls] at hused
      cases htokens : tokensForSession s.calls sid with
      | error e =>
        rw [htokens] at hused
        cases hused
      | ok n =>
        rw [htokens] at hused
        rw [← Except.ok.inj hused]
        exact tokensForSession_ok htokens

private theorem readTokens_error {s t : Billing F} {e : Error}
    (h : readTokens env sid s = (.error e, t)) :
    ∃ e', e = .other e' := by
  unfold readTokens onStore at h
  cases hrun : onExt (Extract.onConn (query env fun _ => .ok ())) s with
  | mk r u =>
    rw [hrun] at h
    cases r with
    | error e' =>
      obtain ⟨hr, -⟩ := Prod.mk.inj h
      exact Except.error.inj hr ▸ onExt_error hrun
    | ok _ =>
      obtain ⟨hr, -⟩ := Prod.mk.inj h
      cases htokens : tokensForSession u.calls sid with
      | ok n =>
        rw [htokens] at hr
        cases hr
      | error e' =>
        rw [htokens] at hr
        exact ⟨e', (Except.error.inj hr).symm⟩

/-- An entry of no session, or of another one, is nothing to this one. -/
theorem Settled.same {entry : LedgerEntry F} {s t : Billing F} (h : Settled entry s t)
    (hother : entry.sessionId ≠ some sid) : Same sid s t where
  calls := by
    unfold callsOf
    rcases h.entry with ⟨id, now, hcalls, _⟩ | ⟨hcalls, _⟩
    · rw [hcalls, List.filter_append, List.filter_cons_of_neg (by simp [hother]), List.filter_nil,
        List.append_nil]
    · rw [hcalls]
  warned := by
    unfold warnedOf
    rcases h.entry with ⟨_, _, _, hwarned⟩ | ⟨_, hwarned⟩
    · rw [hwarned]
    · rw [hwarned, List.filter_append, List.filter_cons_of_neg (by simpa using hother), List.filter_nil,
        List.append_nil]
  asked := by rw [askedOf, askedOf, h.asked]

/-- An entry of this session. -/
theorem Settled.recorded {entry : LedgerEntry F} {s t : Billing F} (h : Settled entry s t)
    (hsid : entry.sessionId = some sid) : askedOf t sid = askedOf s sid ∧
      ((recorded t sid = Budget.recorded s sid + entryTokens entry ∧ warnedOf t sid = warnedOf s sid) ∨
        (callsOf t sid = callsOf s sid ∧ warnedOf t sid = warnedOf s sid ++ [entry])) := by
  refine ⟨by rw [askedOf, askedOf, h.asked], ?_⟩
  rcases h.entry with ⟨id, now, hcalls, hwarned⟩ | ⟨hcalls, hwarned⟩
  · refine .inl ⟨?_, by rw [warnedOf, warnedOf, hwarned]⟩
    have hrows : callsOf t sid = callsOf s sid ++ [entry.row id now] := by
      unfold callsOf
      rw [hcalls, List.filter_append, List.filter_cons_of_pos (by simp [hsid]), List.filter_nil]
    unfold Budget.recorded
    rw [hrows, List.map_append, List.sum_append]
    rfl
  · refine .inr ⟨by rw [callsOf, callsOf, hcalls], ?_⟩
    unfold warnedOf
    rw [hwarned, List.filter_append, List.filter_cons_of_pos (by simpa using hsid), List.filter_nil]

/-! ## Clients that are nothing to the session -/

/-- A client that leaves the session's part alone. -/
abbrev Apart {α : Type} (sid : Int) (c : Job F α) : Prop :=
  c.Keeps (fun _ => True) (Same sid)

private theorem apart_call {α : Type} {m : Bill F α} (h : ∀ s, Same sid s (m s).2) :
    Apart sid (call m) :=
  keeps_call fun s _ => ⟨trivial, h s⟩

private theorem apart_onExt {α : Type} (m : Extract.Run F α) : Apart sid (call (onExt m)) :=
  apart_call fun _ => (onExt_untouched rfl).same

theorem apart_onStore {α : Type} (m : Write F α) : Apart sid (call (onStore m)) := apart_onExt _

private theorem apart_get : Apart sid (call (Program.get : Bill F (Billing F))) :=
  apart_call fun s => .refl s

private theorem apart_timed {α : Type} (m : Extract.Run F α) :
    Apart sid (call (timed tools (onExt m))) :=
  apart_call fun _ => ⟨rfl, rfl, rfl⟩

private theorem apart_record {entry : LedgerEntry F} (h : entry.sessionId ≠ some sid) :
    Apart sid (call (recordOrWarn tools entry)) :=
  apart_call fun _ => (recordOrWarn_settled rfl).2.2.same h

private theorem apart_readTokens {other : Int} : Apart sid (call (readTokens env other)) :=
  apart_call fun _ => (readTokens_untouched rfl).1.same

theorem apart_ofWork {α : Type} (c : Work F α) : Apart sid (ofWork c) := by
  induction c with
  | done r => trivial
  | step act next ih => exact fun s => ⟨fun _ => ⟨trivial, rfl, rfl, rfl⟩, ih s.ext.conn⟩

theorem apart_checkSessionBudget {other : Option Int} :
    Apart sid (checkSessionBudget env cfg other) := by
  unfold checkSessionBudget
  split
  · exact keeps_pure ()
  split
  · exact keeps_pure ()
  refine keeps_bind apart_readTokens fun used => ?_
  split
  · exact keeps_fail _
  · exact keeps_pure ()

end

omit [F64 F] in
private theorem apart_checkOpenSessionBudget : Apart sid (checkOpenSessionBudget env cfg) :=
  keeps_bind apart_get fun _ => keeps_bind (apart_onStore _) fun _ => apart_checkSessionBudget

private theorem apart_persistCandidateFull {emb : Embedder F} {cand : Persist.Candidate F}
    {extractorVersion sourceKind : String} {pendingThreshold dedupThreshold : F} :
    Apart sid (persistCandidateFull env tools emb cand extractorVersion sourceKind pendingThreshold
      dedupThreshold) :=
  keeps_bind (apart_timed _) fun _ =>
    keeps_bind (apart_record fun h => by cases h) fun _ => apart_onStore _

private theorem apart_remember {emb : Embedder F} {cand : Persist.Candidate F} {sourceKind : String} :
    Apart sid (remember env cfg tools emb cand sourceKind) := by
  refine keeps_bind (keeps_attempt apart_persistCandidateFull) fun r => ?_
  rcases r with (_ | e) | _
  · exact keeps_fail _
  · cases e with
    | embedder => exact keeps_bind (apart_onStore _) fun _ => keeps_pure _
    | _ => exact keeps_fail _
  · exact keeps_pure _

private theorem apart_rememberEmbedded {cand : Persist.Candidate F} {sourceKind : String} :
    Apart sid (rememberEmbedded env cfg tools cand sourceKind) :=
  keeps_bind (apart_onStore _) fun _ => keeps_bind (apart_onStore _) fun _ => apart_remember

theorem apart_rememberInput {args : RememberInput F} :
    Apart sid (rememberInput env cfg tools args) := by
  unfold rememberInput
  split
  · exact keeps_fail _
  refine keeps_bind apart_checkOpenSessionBudget fun _ => ?_
  cases cfg.provider with
  | none => exact apart_onStore _
  | hash | openAiCompat => exact apart_remember

theorem apart_runRemember {cand : Persist.Candidate F} {sourceKind : String} :
    Apart sid (runRemember env cfg tools cand sourceKind) := by
  refine keeps_bind apart_checkOpenSessionBudget fun _ => ?_
  cases cfg.provider with
  | none => exact apart_onStore _
  | hash => exact apart_rememberEmbedded
  | openAiCompat =>
    dsimp only
    split
    · exact keeps_fail _
    · exact apart_rememberEmbedded

theorem apart_generateSummary {text : String} : Apart sid (generateSummary tools text) :=
  keeps_bind (apart_timed _) fun _ =>
    keeps_bind (apart_record fun h => by cases h) fun _ => keeps_pure _

private theorem apart_consume {emb : Embedder F} {other upto : Int} {fresh : List Turn}
    {report : Extract.ParseReport F} : Apart sid (consume env tools emb other upto fresh report) :=
  keeps_bind (keeps_foldEach fun _ _ _ =>
    keeps_bind apart_persistCandidateFull fun _ => keeps_pure _) fun _ =>
  keeps_bind (apart_onExt _) fun _ => keeps_bind (apart_onExt _) fun _ => keeps_pure _

/-- An extraction of another session. -/
theorem apart_extractSession {emb : Embedder F} {other : Int} (hother : other ≠ sid) :
    Apart sid (extractSession env tools emb other) := by
  refine keeps_bind (apart_onStore _) fun turns => keeps_bind (apart_onExt _) fun upto => ?_
  dsimp only
  split
  · exact keeps_pure _
  refine keeps_bind (apart_call fun s => ?_) fun response => keeps_bind (keeps_lift _) fun report =>
    keeps_bind (apart_record fun h => hother (Option.some.inj h)) fun _ => apart_consume
  cases hrun : ask tools other (Extract.buildPrompt _) s with
  | mk r t =>
    cases r with
    | error e => exact (ask_error hrun).same hother
    | ok a => exact (ask_ok hrun).1.same hother

/-! ## An extraction of the session -/

/-- The answer is one that the extractor can read. -/
def Parses (tools : Tools F) (response : String) : Bool :=
  match tools.json (Text.trim response) with
  | .ok _ => true
  | .error _ => false

private theorem parseOutput_of_parses {response : String} (h : Parses tools response = true) :
    ∃ report, Extract.parseOutput tools.json response = .ok report := by
  unfold Parses at h
  unfold Extract.parseOutput
  cases hjson : tools.json (Text.trim response) with
  | ok memories => exact ⟨_, rfl⟩
  | error e =>
    rw [hjson] at h
    cases h

private theorem parseOutput_of_not_parses {response : String} (h : Parses tools response = false) :
    ∃ e, Extract.parseOutput tools.json response = .error e := by
  unfold Parses at h
  unfold Extract.parseOutput
  cases hjson : tools.json (Text.trim response) with
  | ok memories =>
    rw [hjson] at h
    cases h
  | error e => exact ⟨_, rfl⟩

/-- An extraction that did not get past the gate. -/
def Refusal (cfg : Config F) (e : Error) : Prop :=
  (∃ used, e = .budgetExceeded used cfg.maxTokensPerSession ∧ cfg.maxTokensPerSession ≤ used) ∨
    ∃ e', e = .other e'

/-- An account of extractions of a session: `granted` is put on it when the gate lets one pass,
`pending` is on it between an answer that parses and its record, and `closed` is left. -/
structure Charges (cfg : Config F) (tools : Tools F) (sid : Int)
    (P : Billing F → Nat → Billing F → Nat → Prop) (granted : Nat) (pending : String → String → Nat)
    (closed : Nat) : Prop where
  same : ∀ s t d, Same sid s t → P s d t d
  unlimited : cfg.maxTokensPerSession = 0 → granted = 0
  grant : ∀ s t, Same sid s t → recorded s sid < cfg.maxTokensPerSession → P s 0 t granted
  leave : ∀ s t, Same sid s t → P s granted t closed
  failed : ∀ s t prompt, Asked sid prompt none s t → P s granted t closed
  garbled : ∀ s t prompt response, Exchange tools prompt response → Parses tools response = false →
    Asked sid prompt (some response) s t → P s granted t closed
  answer : ∀ s t prompt response, Exchange tools prompt response → Parses tools response = true →
    Asked sid prompt (some response) s t → P s granted t (pending prompt response)
  settle : ∀ s t prompt response (entry : LedgerEntry F), Exchange tools prompt response →
    entry.sessionId = some sid → entryTokens entry = charge F prompt response → Settled entry s t →
    P s (pending prompt response) t closed

section

variable {P : Billing F → Nat → Billing F → Nat → Prop} {granted closed : Nat}
  {pending : String → String → Nat}

theorem Charges.extractFresh (h : Charges cfg tools sid P granted pending closed) {emb : Embedder F}
    {upto : Int} {fresh : List Turn} :
    (extractFresh env tools emb sid upto fresh).Holds P (fun _ d => d = closed) granted := by
  refine holds_call_bind (fun s e t hrun => ⟨closed, h.failed s t _ (ask_error hrun), rfl⟩)
    fun s a t hrun => ?_
  obtain ⟨hanswered, n, hcomplete⟩ := ask_ok hrun
  have hexchange : Exchange tools (Extract.buildPrompt fresh) a.1 := ⟨fresh, n, rfl, hcomplete⟩
  cases hparses : Parses tools a.1 with
  | false =>
    obtain ⟨e, he⟩ := parseOutput_of_not_parses hparses
    refine ⟨closed, h.garbled s t _ _ hexchange hparses hanswered, ?_⟩
    rw [he]
    exact rfl
  | true =>
    obtain ⟨report, hreport⟩ := parseOutput_of_parses hparses
    refine ⟨pending (Extract.buildPrompt fresh) a.1, h.answer s t _ _ hexchange hparses hanswered, ?_⟩
    rw [hreport]
    refine holds_call_bind (fun s e t hrun => ?_) fun s _ t hrun => ⟨closed, ?_, ?_⟩
    · cases (recordOrWarn_settled hrun).1
    · exact h.settle s t _ _ _ hexchange rfl rfl (recordOrWarn_settled hrun).2.2
    · exact apart_consume.holds (fun s t => h.same s t closed) fun _ => rfl

theorem Charges.extractSession (h : Charges cfg tools sid P granted pending closed)
    {emb : Embedder F} :
    (extractSession env tools emb sid).Holds P (fun _ d => d = closed) granted := by
  refine holds_call_bind (fun s e t hrun => ⟨closed, h.leave s t (onExt_untouched hrun).same, rfl⟩)
    fun s turns t hrun => ⟨granted, h.same s t _ (onExt_untouched hrun).same, ?_⟩
  refine holds_call_bind (fun s e t hrun => ⟨closed, h.leave s t (onExt_untouched hrun).same, rfl⟩)
    fun s upto t hrun => ?_
  dsimp only
  by_cases hfresh : (turns.filter fun t => upto < t.seq).isEmpty = true
  · rw [if_pos hfresh]
    exact ⟨closed, h.leave s t (onExt_untouched hrun).same, rfl⟩
  · rw [if_neg hfresh]
    exact ⟨granted, h.same s t _ (onExt_untouched hrun).same, h.extractFresh⟩

/-- The gate: past it the account has what was granted. -/
theorem Charges.checkSessionBudget (h : Charges cfg tools sid P granted pending closed) :
    (checkSessionBudget env cfg (some sid)).Holds P (fun r d => match r with
      | .ok _ => d = granted
      | .error e => d = 0 ∧ Refusal cfg e) 0 := by
  unfold Budget.checkSessionBudget
  dsimp only
  by_cases hzero : cfg.maxTokensPerSession = 0
  · rw [if_pos hzero]
    exact (h.unlimited hzero).symm
  rw [if_neg hzero]
  refine holds_call_bind (fun s e t hrun => ?_) fun s used t hrun => ?_
  · refine ⟨0, h.same s t 0 (readTokens_untouched hrun).1.same, rfl, .inr ?_⟩
    exact readTokens_error hrun
  · obtain ⟨hsame, hused⟩ := readTokens_untouched hrun
    by_cases hover : cfg.maxTokensPerSession ≤ used
    · rw [if_pos hover]
      exact ⟨0, h.same s t 0 hsame.same, rfl, .inl ⟨used, rfl, hover⟩⟩
    · rw [if_neg hover]
      refine ⟨granted, h.grant s t hsame.same ?_, rfl⟩
      rw [← hused used rfl]
      exact Nat.not_le.mp hover

/-- A whole job. `fin` may tell those that were refused from the others. -/
theorem Charges.runExtractJob (h : Charges cfg tools sid P granted pending closed) {payload : String}
    (hpayload : payloadSession tools payload = .ok sid) {fin : Except Error Unit → Nat → Prop}
    (hrefused : ∀ e, Refusal cfg e → fin (.error e) 0) (hclosed : ∀ r, fin r closed) :
    (runExtractJob env cfg tools payload).Holds P fin 0 := by
  refine holds_call_bind (fun s e t hrun => ?_) fun s dim t hrun => ?_
  · exact ⟨0, h.same s t 0 (onExt_untouched hrun).same, hrefused e (.inr (onExt_error hrun))⟩
  refine ⟨0, h.same s t 0 (onExt_untouched hrun).same, ?_⟩
  refine holds_call_bind (fun s e t hrun => ?_) fun s _ t hrun => ?_
  · exact ⟨0, h.same s t 0 (onExt_untouched hrun).same, hrefused e (.inr (onExt_error hrun))⟩
  refine ⟨0, h.same s t 0 (onExt_untouched hrun).same, ?_⟩
  rw [hpayload]
  refine h.checkSessionBudget.bind (fun e d hd => hd.1 ▸ hrefused e hd.2) fun _ d hd => ?_
  rw [show d = granted from hd]
  refine h.extractSession.bind (fun e d hd => ?_) fun _ d hd => ?_
  · rw [show d = closed from hd]
    exact hclosed _
  · rw [show d = closed from hd]
    exact hclosed _

end

end AgosMemory.Budget
