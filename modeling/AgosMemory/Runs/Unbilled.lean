import AgosMemory.Library.Erasure
import AgosMemory.Runs.Charges

/-!
# What is left without the ledger

The calls that are charged to a session are those of the other modules with a recording after each
provider call, and sometimes a gate before it. Without the ledger, an extraction, a remembered fact and a
summary that are charged do with the store and the prompts what they do there.
-/

namespace AgosMemory.Budget

open Library Store
open Library.Client hiding fail lift onlyIf forEach foldEach attempt

variable {F : Type} [F64 F] {env : Env F} {cfg : Config F} {tools : Tools F}

section

omit [F64 F]

/-- The client does what the program does, but for the ledger. -/
abbrev Unbilled {α β : Type} (R : α → β → Prop) (c : Job F α) (m : Extract.Run F β) : Prop :=
  c.Erases Billing.ext (fun e d => e = .other d) R m

private theorem related_mapError {α : Type} (r : Except AgosMemory.Error α) :
    Related (fun e d => e = Error.other d) Eq (r.mapError .other) r := by
  cases r with
  | ok a => exact .ok rfl
  | error e => exact .error rfl

private theorem eq_mapError {α : Type} {r : Except Error α} {r' : Except AgosMemory.Error α}
    (h : Related (fun e d => e = Error.other d) Eq r r') : r = r'.mapError .other := by
  cases h with
  | ok h => exact congrArg Except.ok h
  | error h => exact congrArg Except.error h

/-- Equal answers, and the state that is left but for the ledger. -/
theorem Unbilled.alone {α : Type} {c : Job F α} {m : Extract.Run F α} (h : Unbilled Eq c m)
    (s : Billing F) : (c.alone s).1 = (m s.ext).1.mapError .other ∧
      (c.alone s).2.ext = (m s.ext).2 :=
  (h s).imp_left eq_mapError

private theorem unbilled_onExt {α : Type} (m : Extract.Run F α) : Unbilled Eq (call (onExt m)) m :=
  erases_call fun s => ⟨related_mapError (m s.ext).1, rfl⟩

private theorem unbilled_timed {α : Type} (tools : Tools F) (m : Extract.Run F α) :
    Unbilled (fun a b => a.1 = b) (call (timed tools (onExt m))) m := by
  refine erases_call fun s => ⟨?_, rfl⟩
  show Related _ _ (((m s.ext).1.mapError Error.other).map _) (m s.ext).1
  cases (m s.ext).1 with
  | ok a => exact .ok rfl
  | error e => exact .error rfl

private theorem unbilled_ask (sessionId : Int) (prompt : String) :
    Unbilled (fun a b => a.1 = b) (call (ask tools sessionId prompt))
      (Extract.complete tools.chat prompt) := by
  refine erases_call fun s => ?_
  obtain ⟨hrelated, hext⟩ := unbilled_timed tools (Extract.complete tools.chat prompt) s
  rw [alone_call] at hrelated hext
  unfold ask
  cases hrun : timed tools (onExt (Extract.complete tools.chat prompt)) s with
  | mk r t =>
    rw [hrun] at hrelated hext
    cases r <;> exact ⟨hrelated, hext⟩

/-- A recording is erased, whether it succeeds or not. -/
private theorem unbilled_record {α β : Type} {R : α → β → Prop} {entry : Ledger.LedgerEntry F}
    {c : Job F α} {m : Extract.Run F β} (h : Unbilled R c m) :
    Unbilled R (call (recordOrWarn tools entry) >>= fun _ => c) m := by
  refine erases_silent (fun s => ?_) fun _ => h
  cases hrun : recordOrWarn tools entry s with
  | mk r t =>
    obtain ⟨rfl, hext, -⟩ := recordOrWarn_settled hrun
    exact ⟨(), t, rfl, hext⟩

private theorem onConn_bind {α β : Type} (m : Write F α) (k : α → Write F β) :
    Extract.onConn (m >>= k) = Extract.onConn m >>= fun a => Extract.onConn (k a) := by
  funext s
  cases hrun : m s.conn with
  | mk r c =>
    have hfirst : Extract.onConn m s = (r, { s with conn := c }) := by
      unfold Extract.onConn
      rw [hrun]
    cases r with
    | ok a =>
      rw [Program.bind_of_ok _ hfirst]
      unfold Extract.onConn
      rw [Program.bind_of_ok _ hrun]
    | error e =>
      rw [Program.bind_of_error _ hfirst]
      unfold Extract.onConn
      rw [Program.bind_of_error _ hrun]

private theorem onConn_attempt {α : Type} (m : Write F α) :
    Extract.onConn (Program.attempt m) = Program.attempt (Extract.onConn m) := rfl

end

/-! ## Remember -/

private theorem persistCandidateFull_unbilled (emb : Embedder F) (cand : Persist.Candidate F)
    (extractorVersion sourceKind : String) (pendingThreshold dedupThreshold : F) :
    Unbilled Eq (persistCandidateFull env tools emb cand extractorVersion sourceKind
        pendingThreshold dedupThreshold)
      (Extract.onConn (Persist.persistCandidateFull env emb cand extractorVersion sourceKind
        pendingThreshold dedupThreshold)) := by
  have hsplit : Persist.persistCandidateFull env emb cand extractorVersion sourceKind
      pendingThreshold dedupThreshold = emb.call [Redact.redact cand.text] >>= fun vecs =>
        persistEmbedded env emb cand (Redact.redact cand.text) extractorVersion sourceKind
          pendingThreshold dedupThreshold (vecs.headD []) := rfl
  rw [hsplit, onConn_bind]
  refine erases_bind (unbilled_timed _ _) fun vecs _ hvecs => unbilled_record ?_
  rw [← hvecs]
  exact unbilled_onExt _

theorem remember_unbilled (emb : Embedder F) (cand : Persist.Candidate F) (sourceKind : String) :
    Unbilled Eq (remember env cfg tools emb cand sourceKind)
      (Extract.onConn (Persist.remember env emb cand Extract.EXTRACTOR_VERSION sourceKind
        cfg.pendingThreshold cfg.dedupThreshold)) := by
  unfold Persist.remember
  rw [onConn_bind, onConn_attempt]
  refine erases_bind (erases_attempt (persistCandidateFull_unbilled emb cand _ _ _ _))
    fun outcome outcome' hrelated => ?_
  cases hrelated with
  | ok h =>
    obtain rfl := h
    exact erases_pure rfl
  | error h =>
    obtain rfl := h
    next e =>
      cases e with
      | embedder msg =>
        dsimp only
        rw [onConn_bind]
        refine erases_bind (unbilled_onExt _) fun report _ hreport => ?_
        obtain rfl := hreport
        exact erases_pure rfl
      | _ => exact erases_fail rfl

/-! ## Extract -/

private theorem persistAll_unbilled (emb : Embedder F) (candidates : List (Extract.Candidate F)) :
    Unbilled Eq (persistAll env tools emb candidates)
      (Extract.persistAll env emb candidates) := by
  refine erases_foldEach (fun n n' c hn => ?_) rfl
  obtain rfl := hn
  exact erases_bind (persistCandidateFull_unbilled emb _ _ _ _ _) fun _ _ _ => erases_pure rfl

private theorem extractFresh_unbilled (emb : Embedder F) (sessionId upto : Int) (fresh : List Turn) :
    Unbilled Eq (extractFresh env tools emb sessionId upto fresh)
      (Extract.extractFresh env tools.chat tools.json emb sessionId upto fresh) := by
  refine erases_bind (unbilled_ask _ _) fun answered response hresponse => ?_
  obtain rfl : answered.1 = response := hresponse
  refine erases_bind (erases_lift (related_mapError _)) fun report _ hreport => unbilled_record ?_
  obtain rfl := hreport
  refine erases_bind (persistAll_unbilled emb _) fun inserted _ hinserted => ?_
  obtain rfl := hinserted
  refine erases_bind (unbilled_onExt _) fun _ _ _ => ?_
  exact erases_bind (unbilled_onExt _) fun _ _ _ => erases_pure rfl

/-- An extraction that is charged is an extraction. -/
theorem extractSession_unbilled (emb : Embedder F) (sessionId : Int) :
    Unbilled Eq (extractSession env tools emb sessionId)
      (Extract.extractSession env tools.chat tools.json emb sessionId) := by
  refine erases_bind (unbilled_onExt _) fun turns _ hturns => ?_
  obtain rfl := hturns
  refine erases_bind (unbilled_onExt _) fun upto _ hupto => ?_
  obtain rfl := hupto
  dsimp only
  split
  · exact erases_pure rfl
  · exact extractFresh_unbilled emb sessionId _ _

/-! ## Summarize -/

/-- Whatever else is in the state. -/
private theorem ask_then_trim {σ : Type} (m : Program AgosMemory.Error σ String) (s : σ) :
    (m >>= fun response => pure (Text.trim response)) s = ((m s).1.map Text.trim, (m s).2) := by
  rw [Program.bind_run]
  cases m s with
  | mk r t => cases r <;> rfl

/-- A summary that is charged is the summary of a desk with the same store and prompts. -/
theorem generateSummary_unbilled (text : String) (s : Billing F) (d : Summarize.Desk F)
    (hconn : d.conn = s.ext.conn) (hprompts : d.prompts = s.ext.prompts) :
    let charged := (generateSummary tools text).alone s
    let plain := (Summarize.generateSummary tools.chat text).alone d
    charged.1 = plain.1.mapError .other ∧ charged.2.ext.conn = plain.2.conn ∧
      charged.2.ext.prompts = plain.2.prompts := by
  intro charged plain
  have hunbilled : Unbilled Eq (generateSummary tools text)
      (Extract.complete tools.chat (Summarize.promptFor text) >>= fun response =>
        pure (Text.trim response)) := by
    refine erases_bind (unbilled_timed _ _) fun answered response hresponse => ?_
    obtain rfl : answered.1 = response := hresponse
    exact unbilled_record (erases_pure rfl)
  obtain ⟨hanswer, hext⟩ := hunbilled.alone s
  have hplain : plain = ((tools.chat.complete d.prompts.length (Summarize.promptFor text)).map
      Text.trim, { d with prompts := d.prompts ++ [Summarize.promptFor text] }) := by
    show (Summarize.generateSummary tools.chat text).alone d = _
    unfold Summarize.generateSummary
    rw [alone_bind, alone_call]
    exact ask_then_trim _ d
  rw [ask_then_trim] at hanswer hext
  rw [hplain, hprompts]
  refine ⟨hanswer, ?_, congrArg Extract.Extraction.prompts hext⟩
  exact (congrArg Extract.Extraction.conn hext).trans hconn.symm

end AgosMemory.Budget
