import AgosMemory.Memory.Summarize
import AgosMemory.Recall.Accounting
import AgosMemory.Runs.Clients
import AgosMemory.SystemStatements

/-!
# Summaries and current texts

Summarizations run beside the other operations, each cut into its reads, calls and writes. A summary
that a summarization wrote stays the summary of the row's text exactly as long as no text is rewritten
under it and each write finds the text that was read: nothing in the code clears a summary, and the
write goes by the id alone.
-/

namespace AgosMemory.Summarize

open Library Store
open Library.Client hiding fail lift onlyIf forEach foldEach attempt
open Library.Program (Moves moves_bind moves_pure)

variable {F : Type} [F64 F] {env : Env F}

/-! ## What the other operations do to texts and summaries -/

/-- Summaries are kept, and a text only changes by a rewrite that the history has. -/
structure Tracked (db db' : Db F) : Prop where
  seq : db.memorySeq ≤ db'.memorySeq
  texts : ∃ new, db'.rewrites = db.rewrites ++ new ∧ ∀ m' ∈ db'.memories,
    db.memorySeq < m'.id ∨ ∃ m ∈ db.memories, m.id = m'.id ∧ m'.summaryText = m.summaryText ∧
      (m'.text = m.text ∨ ∃ p ∈ new, p.1.id = m'.id ∧ p.2 ≠ p.1.text)

section

omit [F64 F]

variable {db db' : Db F}

instance : Std.Refl (Tracked (F := F)) where
  refl _ := ⟨Int.le_refl _, [], (List.append_nil _).symm,
    fun m hm => .inr ⟨m, hm, rfl, rfl, .inl rfl⟩⟩

instance : IsTrans (Db F) Tracked where
  trans a b c hab hbc := by
    obtain ⟨new, hnew, hold⟩ := hab.texts
    obtain ⟨later, hlater, hmid⟩ := hbc.texts
    refine ⟨Int.le_trans hab.seq hbc.seq, new ++ later, ?_, fun m'' hm'' => ?_⟩
    · rw [hlater, hnew, List.append_assoc]
    have hseq := hab.seq
    rcases hmid m'' hm'' with hgt | ⟨m', hm', hid', hsummary', htext'⟩
    · exact .inl (by omega)
    rcases hold m' hm' with hgt | ⟨m, hm, hid, hsummary, htext⟩
    · exact .inl (by omega)
    refine .inr ⟨m, hm, hid.trans hid', hsummary'.trans hsummary, ?_⟩
    rcases htext' with htext' | ⟨p, hp, hpid, hne⟩
    · rcases htext with htext | ⟨p, hp, hpid, hne⟩
      · exact .inl (htext'.trans htext)
      · exact .inr ⟨p, List.mem_append_left _ hp, hpid.trans hid', hne⟩
    · exact .inr ⟨p, List.mem_append_right _ hp, hpid, hne⟩

/-- A statement that keeps ids, and tracks texts and summaries. -/
abbrev Tracks : Db F → Db F → Prop := Client.Within Keyed Tracked

private theorem tracks_same (hmem : db'.memories = db.memories) (hseq : db'.memorySeq = db.memorySeq)
    (hrewrites : db'.rewrites = db.rewrites) : Tracks db db' := by
  refine fun h => ⟨h.congr hmem hseq, ?_⟩
  refine ⟨Int.le_of_eq hseq.symm, [], by rw [hrewrites, List.append_nil], fun m hm => ?_⟩
  exact .inr ⟨m, hmem ▸ hm, rfl, rfl, .inl rfl⟩

/-- An update that keeps the id, and text and summary too. -/
private theorem tracks_updateMemory {id : Int} {f : Memory F → Memory F}
    (hmem : db'.memories = (db.updateMemory id f).memories) (hseq : db'.memorySeq = db.memorySeq)
    (hrewrites : db'.rewrites = db.rewrites) (hid : ∀ m, (f m).id = m.id)
    (hsummary : ∀ m, (f m).summaryText = m.summaryText) (htext : ∀ m, (f m).text = m.text) :
    Tracks db db' := by
  intro h
  have hback : ∀ m' ∈ db'.memories, ∃ m ∈ db.memories, m.id = m'.id ∧
      m'.summaryText = m.summaryText ∧ m'.text = m.text := by
    intro m' hm'
    rw [hmem] at hm'
    obtain ⟨m, hm, rfl⟩ := mem_updateMemory.mp hm'
    refine ⟨m, hm, ?_⟩
    split
    · exact ⟨(hid m).symm, hsummary m, htext m⟩
    · exact ⟨rfl, rfl, rfl⟩
  refine ⟨h.updateMemory hmem hseq hid, Int.le_of_eq hseq.symm, [], ?_, fun m' hm' => ?_⟩
  · rw [hrewrites, List.append_nil]
  · obtain ⟨m, hm, heq, hsummary', htext'⟩ := hback m' hm'
    exact .inr ⟨m, hm, heq, hsummary', .inl htext'⟩

/-- A rewrite is in the history, with the row as it was. -/
private theorem tracks_retext {id : Int} {text hash : String} {trust : Trust} {kept : String}
    {source : Option String} {now : Int}
    (hr : retext id text hash trust kept source now db = .ok ((), db')) : Tracks db db' := by
  intro h
  cases hfound : db.memory? id with
  | none =>
    have hsame : db' = { db with rewrites := db.rewrites ++ [] } := by
      unfold retext setProvenance at hr
      rw [hfound] at hr
      exact (Prod.mk.inj (Except.ok.inj hr)).2.symm
    rw [hsame]
    exact tracks_same rfl rfl (List.append_nil _) h
  | some m =>
    obtain ⟨sk, _, rfl⟩ := retext_ok hfound hr
    obtain ⟨hm, hid⟩ := memory?_some hfound
    refine ⟨h.updateMemory rfl rfl (f := fun m =>
      { m with text, textHash := hash, updatedAt := now, trust, sourceKind := sk }) fun _ => rfl,
      Int.le_refl _, [(m, text)], rfl, fun m' hm' => .inr ?_⟩
    · obtain ⟨m₀, hm₀, rfl⟩ := mem_updateMemory.mp hm'
      refine ⟨m₀, hm₀, ?_⟩
      split
      · next heq =>
        obtain rfl := h.row_eq hm₀ hm (heq.trans hid.symm)
        refine ⟨rfl, rfl, ?_⟩
        by_cases htext : text = m₀.text
        · exact .inl htext
        · exact .inr ⟨_, List.mem_singleton_self _, rfl, htext⟩
      · exact ⟨rfl, rfl, .inl rfl⟩

end

private theorem tracks_insertRow {r : NewRow F} {m : Memory F} {db db' : Db F}
    (hrow : insertMemoryRow r db = .ok (m, db')) : Tracks db db' := by
  intro h
  refine ⟨h.insertRow hrow, ?_⟩
  obtain ⟨hbuilt, _, rfl⟩ := insertMemoryRow_ok hrow
  have hid : m.id = db.memorySeq + 1 := hbuilt.id
  refine ⟨?_, [], (List.append_nil _).symm, fun m' hm' => ?_⟩
  · show db.memorySeq ≤ m.id
    omega
  · rcases List.mem_append.mp hm' with hm' | hm'
    · exact .inr ⟨m', hm', rfl, rfl, .inl rfl⟩
    · rw [List.mem_singleton.mp hm']
      exact .inl (by omega)

omit [F64 F] in
private theorem tracks_purge {id : Int} {db db' : Db F} (hd : deletePhase id db = .ok ((), db')) :
    Tracks db db' := by
  intro h
  refine ⟨h.purge hd, ?_⟩
  rw [deletePhase_ok hd]
  exact ⟨Int.le_refl _, [], (List.append_nil _).symm,
    fun m hm => .inr ⟨m, (List.mem_filter.mp hm).1, rfl, rfl, .inl rfl⟩⟩

private theorem statements_tracks : Statements (fun _ : NewRow F => True) Tracks where
  plain _ _ := trivial
  insertRow r m db db' _ hrow := tracks_insertRow hrow
  insertVersion v db db' hv := by
    obtain ⟨_, _, rfl⟩ := insertVersion_ok hv
    exact tracks_same rfl rfl rfl
  insertVec m embedding db db' _ hv := by
    obtain ⟨_, rfl⟩ := insertVec_ok hv
    exact tracks_same rfl rfl rfl
  merge shape id trust kept source cluster now db db' hmerge := by
    obtain ⟨sk, merged, bumps, rfl⟩ := mergeSource_update hmerge
    exact tracks_updateMemory rfl rfl rfl (fun _ => rfl) (fun _ => rfl) fun _ => rfl
  link id now db db' hlink := by
    obtain ⟨links, rfl⟩ := linkRefines_ok hlink
    exact tracks_same rfl rfl rfl
  retext id text hash trust kept source now db db' hr := tracks_retext hr
  vecTrust rowid trust db := tracks_same rfl rfl rfl
  touch id f db hf := tracks_updateMemory rfl rfl rfl (fun m => (hf.core m).id) hf.summaryText
    fun m => (hf.core m).text
  deprecated id now db := tracks_updateMemory (f := fun m => { m with
    deletedAt := some now, updatedAt := now, status := .deprecated }) rfl rfl rfl (fun _ => rfl)
    (fun _ => rfl) fun _ => rfl
  restored id now db := tracks_updateMemory (f := fun m => { m with
    deletedAt := none, updatedAt := now, status := .active }) rfl rfl rfl (fun _ => rfl)
    (fun _ => rfl) fun _ => rfl
  purged id db db' hd := tracks_purge hd
  other db db' same := tracks_same same.memories same.memorySeq same.rewrites

omit [F64 F] in
/-- A pin touches neither. -/
private theorem tracks_setMemoryPinned {id : Int} {pinned : Bool} {requester : String} :
    Moves (OnDb Tracks) (setMemoryPinned (F := F) env id pinned requester) := by
  refine onDb_setMemoryPinned (fun db code now => ?_) (fun _ _ => tracks_same rfl rfl rfl)
    fun _ _ _ => tracks_same rfl rfl rfl
  exact tracks_updateMemory (f := fun m => { m with pinned := code, updatedAt := now }) rfl rfl rfl
    (fun _ => rfl) (fun _ => rfl) fun _ => rfl

private theorem writerClosures_tracks :
    WriterClosures env autocommit Keyed (Tracked (F := F)) fun _ => True :=
  statements_tracks.stamped.writerClosures _ fun _ _ _ => tracks_setMemoryPinned

/-! ## Requests -/

/-- A call on the store beside the summarizations, or a summarization. -/
inductive Request (F : Type) where
  | op (op : { op : Op F // op.summarizes = false })
  | byId (id : Int) (force : Bool)
  | tier (cfg : MemoryConfig) (name : String)
  | all (cfg : MemoryConfig)
  | job (cfg : MemoryConfig)

def Request.client (env : Env F) (tools : Tools F) : Request F → Task F Unit
  | op o => (o.1.client env autocommit).zoom Desk.conn fun d conn => { d with conn }
  | byId id force => summarizeById env tools id force >>= fun _ => pure ()
  | tier cfg name => summarizeTier env tools cfg name >>= fun _ => pure ()
  | all cfg => summarizeAll env tools cfg >>= fun _ => pure ()
  | job cfg => runSummarizationJob env tools cfg >>= fun _ => pure ()

/-- The text is what the client answered when it was asked for a summary of the other one. -/
def SummaryOf (tools : Tools F) (text summary : String) : Prop :=
  ∃ n reply, tools.chat.complete n (promptFor text) = .ok reply ∧ summary = Text.trim reply

/-- Ids are used once, and the summaries written were answers. -/
structure Sound (tools : Tools F) (d : Desk F) : Prop where
  keyed : Keyed d.conn.db
  bound : ∀ w ∈ d.written, w.id ≤ d.conn.db.memorySeq
  answered : ∀ w ∈ d.written, SummaryOf tools w.text w.summary

/-- The row with a summary, as the write leaves it. -/
def summarized (w : Written) (tokens now : Int) (m : Memory F) : Memory F :=
  { m with summaryText := some w.summary, summaryTokens := some tokens, updatedAt := now }

/-- What one step of a client does: it tracks texts and summaries, or writes a summary. -/
inductive Progress (d d' : Desk F) : Prop
  | work (hdb : Tracked d.conn.db d'.conn.db) (hwritten : d'.written = d.written)
  | summary (w : Written) (m : Memory F) (tokens now : Int)
      (hfound : d.conn.db.memory? w.id = some m)
      (hdb : d'.conn.db = d.conn.db.updateMemory w.id (summarized w tokens now))
      (hwritten : d'.written = d.written ++ [w])

omit [F64 F] in
instance : Std.Refl (Progress (F := F)) where
  refl _ := .work (Std.Refl.refl _) rfl

section

omit [F64 F]

variable {tools : Tools F} {d d' : Desk F}

private theorem within_work (hdb : Tracks d.conn.db d'.conn.db) (hwritten : d'.written = d.written) :
    Within (Sound tools) Progress d d' := by
  intro h
  obtain ⟨hkeyed, htracked⟩ := hdb h.keyed
  refine ⟨⟨hkeyed, fun w hw => ?_, fun w hw => h.answered w (hwritten ▸ hw)⟩,
    .work htracked hwritten⟩
  exact Int.le_trans (h.bound w (hwritten ▸ hw)) htracked.seq

private theorem keeps_onConn {α : Type} {m : Write F α} (h : ∀ c, (m c).2.db = c.db) :
    (call (onConn m)).Keeps (Sound tools) Progress :=
  keeps_call fun d => within_work (h d.conn ▸ Std.Refl.refl (r := Tracks) _) rfl

private theorem keeps_complete {prompt : String} :
    Moves (Within (Sound tools) Progress) (complete (F := F) tools.chat prompt) :=
  fun _ => within_work (Std.Refl.refl (r := Tracks) _) rfl

/-- The write of a summary. -/
private theorem within_writeSummary {memory : MemoryRow} {summary : String} {tokens : Int}
    (hreply : SummaryOf tools memory.text summary) :
    Moves (Within (Sound tools) Progress) (writeSummary env memory summary tokens) := by
  intro d h
  unfold writeSummary setSummary
  rw [Program.bind_of_ok _ (nowMillis_run env d.conn)]
  cases hfault : env.fault d.conn.stmts with
  | true =>
    rw [run_of_fault (c := { d.conn with ticks := d.conn.ticks + 1 }) hfault]
    exact within_work (Std.Refl.refl (r := Tracks) _) rfl h
  | false =>
    rw [run_of_noFault (c := { d.conn with ticks := d.conn.ticks + 1 }) hfault]
    dsimp only
    cases hfound : d.conn.db.memory? memory.id with
    | none =>
      refine within_work ?_ (List.append_nil _) h
      rw [updateMemory_of_none hfound]
      exact Std.Refl.refl (r := Tracks) _
    | some m =>
      have hid := (memory?_some hfound).2
      refine ⟨⟨?_, fun w hw => ?_, fun w hw => ?_⟩, ?_⟩
      · exact h.keyed.updateMemory rfl rfl
          (f := summarized ⟨memory.id, memory.text, summary⟩ tokens (env.clock d.conn.ticks))
          fun _ => rfl
      · rcases List.mem_append.mp hw with hw | hw
        · exact h.bound w hw
        · rw [List.mem_singleton.mp hw, ← hid]
          exact h.keyed.idBound m (memory?_some hfound).1
      · rcases List.mem_append.mp hw with hw | hw
        · exact h.answered w hw
        · rw [List.mem_singleton.mp hw]
          exact hreply
      · exact .summary ⟨memory.id, memory.text, summary⟩ m tokens _ hfound rfl rfl

private theorem keeps_summarizeRow {memory : MemoryRow} {overwrote : Bool} :
    (summarizeRow env tools memory overwrote).Keeps (Sound tools) Progress := by
  unfold summarizeRow generateSummary
  rw [Client.bind_assoc]
  refine keeps_call_bind keeps_complete fun d reply t hreply => ?_
  have hanswer : SummaryOf tools memory.text (Text.trim reply) :=
    ⟨_, reply, (Prod.mk.inj hreply).1, rfl⟩
  show (call (writeSummary env memory (Text.trim reply) (tools.count (Text.trim reply))) >>=
    _).Keeps _ _
  refine keeps_bind (keeps_call (within_writeSummary hanswer)) fun _ => ?_
  refine keeps_bind (keeps_onConn (query_db _)) fun found => ?_
  cases found with
  | none => exact keeps_fail _
  | some updated => exact keeps_pure _

private theorem keeps_summarizeById {id : Int} {force : Bool} :
    (summarizeById env tools id force).Keeps (Sound tools) Progress := by
  unfold summarizeById
  refine keeps_bind (keeps_onConn (query_db _)) fun found => ?_
  cases found with
  | none => exact keeps_fail _
  | some memory =>
    dsimp only
    split
    · exact keeps_fail _
    · exact keeps_summarizeRow

private theorem keeps_summarizeTier {cfg : MemoryConfig} {tier : String} :
    (summarizeTier env tools cfg tier).Keeps (Sound tools) Progress := by
  unfold summarizeTier
  dsimp only
  split
  · exact keeps_pure _
  refine keeps_bind (keeps_onConn fun _ => rfl) fun now => ?_
  refine keeps_bind (keeps_onConn (query_db _)) fun memories => ?_
  refine keeps_foldEach fun reports memory _ => ?_
  exact keeps_bind keeps_summarizeRow fun report => keeps_pure _

end

private theorem keeps_request {tools : Tools F} (r : Request F) :
    (r.client env tools).Keeps (Sound tools) Progress := by
  cases r with
  | op o =>
    refine keeps_zoom (fun d conn hconn => ?_)
      (keeps_writer writerClosures_tracks (fun _ _ => trivial) o.2)
    exact within_work hconn rfl
  | byId id force => exact keeps_bind keeps_summarizeById fun _ => keeps_pure ()
  | tier cfg name => exact keeps_bind keeps_summarizeTier fun _ => keeps_pure ()
  | all cfg =>
    refine keeps_bind (keeps_foldEach fun all tier _ => ?_) fun _ => keeps_pure ()
    exact keeps_bind keeps_summarizeTier fun _ => keeps_pure _
  | job cfg =>
    refine keeps_bind (keeps_foldEach fun total tier _ => ?_) fun _ => keeps_pure ()
    exact keeps_bind keeps_summarizeTier fun _ => keeps_pure _

/-! ## Freshness -/

/-- The last summary that a summarization wrote to a row. -/
def lastWritten (d : Desk F) (id : Int) : Option Written :=
  (d.written.filter fun w => w.id = id).getLast?

/-- The summaries written by summarizations are those of the current texts. -/
def Fresh (d : Desk F) : Prop :=
  ∀ m ∈ d.conn.db.memories, ∀ w, lastWritten d m.id = some w →
    m.summaryText = some w.summary ∧ m.text = w.text

/-- No text is rewritten under a summary, and a summary is written to the text that was read. -/
structure Undisturbed (d d' : Desk F) : Prop where
  rewrites : ∀ p ∈ d'.conn.db.rewrites.drop d.conn.db.rewrites.length,
    (lastWritten d p.1.id).isSome → p.2 = p.1.text
  written : ∀ w ∈ d'.written.drop d.written.length, ∀ m, d.conn.db.memory? w.id = some m →
    m.text = w.text

omit [F64 F] in
private theorem undisturbed_iff {d d' : Desk F} : Undisturbed d d' ↔
    (∀ p ∈ d'.conn.db.rewrites.drop d.conn.db.rewrites.length,
      (lastWritten d p.1.id).isSome → p.2 = p.1.text) ∧
    ∀ w ∈ d'.written.drop d.written.length, ∀ m ∈ (d.conn.db.memory? w.id).toList,
      m.text = w.text := by
  constructor
  · exact fun h => ⟨h.rewrites, fun w hw m hm => h.written w hw m (Option.mem_toList.mp hm)⟩
  · exact fun h => ⟨h.1, fun w hw m hm => h.2 w hw m (Option.mem_toList.mpr hm)⟩

instance (d d' : Desk F) : Decidable (Undisturbed d d') := decidable_of_iff _ undisturbed_iff.symm

section

omit [F64 F]

variable {tools : Tools F} {d d' : Desk F}

private theorem lastWritten_mem {id : Int} {w : Written} (h : lastWritten d id = some w) :
    w ∈ d.written ∧ w.id = id := by
  obtain ⟨hw, hid⟩ := List.mem_filter.mp (List.mem_of_getLast? h)
  exact ⟨hw, of_decide_eq_true hid⟩

private theorem fresh_progress (hsound : Sound tools d) (hstep : Progress d d')
    (hmeets : Undisturbed d d') (h : Fresh d) : Fresh d' := by
  intro m' hm' w hw
  cases hstep with
  | work hdb hwritten =>
    have hlast : lastWritten d m'.id = some w := by
      unfold lastWritten at hw ⊢
      rw [← hwritten]
      exact hw
    obtain ⟨hmem, hid⟩ := lastWritten_mem hlast
    obtain ⟨new, hnew, htexts⟩ := hdb.texts
    rcases htexts m' hm' with hgt | ⟨m, hm, heq, hsummary, htext⟩
    · have hbound := hsound.bound w hmem
      omega
    obtain ⟨hs, ht⟩ := h m hm w (heq ▸ hlast)
    refine ⟨hsummary.trans hs, ?_⟩
    rcases htext with htext | ⟨p, hp, hpid, hne⟩
    · exact htext.trans ht
    · refine absurd (hmeets.rewrites p ?_ (by rw [hpid, hlast]; rfl)) hne
      rw [hnew, List.drop_left]
      exact hp
  | summary w' m tokens now hfound hdb hwritten =>
    have hsame : m.text = w'.text := hmeets.written w' (by
      rw [hwritten, List.drop_left]
      exact List.mem_singleton_self w') m hfound
    rw [hdb] at hm'
    obtain ⟨m₀, hm₀, rfl⟩ := mem_updateMemory.mp hm'
    unfold lastWritten at hw
    rw [hwritten, List.filter_append] at hw
    by_cases heq : m₀.id = w'.id
    · rw [if_pos heq] at hw ⊢
      have hrow : m₀ = m := hsound.keyed.row_eq hm₀ (memory?_some hfound).1
        (heq.trans (memory?_some hfound).2.symm)
      have hlast : w = w' := by
        simp only [summarized, heq, decide_true, List.filter_cons_of_pos, List.filter_nil,
          List.getLast?_append, List.getLast?_singleton, Option.some_or, Option.some.injEq] at hw
        exact hw.symm
      rw [hlast, hrow]
      exact ⟨rfl, hsame⟩
    · rw [if_neg heq] at hw ⊢
      refine h m₀ hm₀ w ?_
      have hnone : ([w'].filter fun w => w.id = m₀.id) = [] := by
        rw [List.filter_eq_nil_iff]
        intro w₀ hw₀
        rw [List.mem_singleton.mp hw₀, decide_eq_true_eq]
        exact fun hid => heq hid.symm
      rw [hnone, List.append_nil] at hw
      exact hw

end

/-! ## Whole runs -/

/-- A new database, before the first request. -/
def newDesk (F : Type) (agentId : String) (embedDim : Nat) : Desk F :=
  { conn := emptyStore F agentId embedDim }

/-- The desk and the requests at work on it. -/
abbrev Office (F : Type) := Pool (Request F) Error (Desk F) Unit

def runOffice (env : Env F) (tools : Tools F) (agentId : String) (embedDim : Nat)
    (events : List (Pool.Event (Request F))) : Office F :=
  Pool.run (Request.client env tools) events ⟨newDesk F agentId embedDim, []⟩

section

variable {tools : Tools F} {agentId : String} {embedDim : Nat}

private theorem runOffice_succ {events : List (Pool.Event (Request F))} {n : Nat}
    (hn : n < events.length) :
    runOffice env tools agentId embedDim (events.take (n + 1)) =
      (runOffice env tools agentId embedDim (events.take n)).step (Request.client env tools)
        events[n] := by
  unfold runOffice Pool.run
  rw [List.take_succ_eq_append_getElem hn, List.foldl_append]
  rfl

private theorem runOffice_obeys (events : List (Pool.Event (Request F))) :
    (runOffice env tools agentId embedDim events).Obeys
      fun _ _ => Within (Sound tools) Progress := by
  refine Pool.Obeys.run ?_ (fun r => (keeps_request r).obeys) events
  exact fun c hc => (by cases hc)

omit [F64 F] in
private theorem sound_newDesk : Sound tools (newDesk F agentId embedDim) where
  keyed := .empty embedDim
  bound _ hw := (by cases hw)
  answered _ hw := (by cases hw)

/-- One event of a run. -/
private theorem office_step {p : Office F} (hp : p.Obeys fun _ _ => Within (Sound tools) Progress)
    (h : Sound tools p.shared) (e : Pool.Event (Request F)) :
    Sound tools (p.step (Request.client env tools) e).shared ∧
      Progress p.shared (p.step (Request.client env tools) e).shared := by
  rcases hp.shared (Request.client env tools) e with
    hsame | ⟨k, r, act, next, _, _, hshared, hwithin⟩
  · rw [hsame]
    exact ⟨h, Std.Refl.refl _⟩
  · rw [hshared]
    exact hwithin h

private theorem office_sound (events : List (Pool.Event (Request F))) {n : Nat}
    (hn : n ≤ events.length) :
    Sound tools (runOffice env tools agentId embedDim (events.take n)).shared := by
  induction n with
  | zero => exact sound_newDesk
  | succ n ih =>
    rw [runOffice_succ (by omega)]
    exact (office_step (runOffice_obeys _) (ih (by omega)) _).1

private theorem office_fresh (events : List (Pool.Event (Request F)))
    (hmeets : ∀ n < events.length,
      Undisturbed (runOffice env tools agentId embedDim (events.take n)).shared
        (runOffice env tools agentId embedDim (events.take (n + 1))).shared)
    {n : Nat} (hn : n ≤ events.length) :
    Fresh (runOffice env tools agentId embedDim (events.take n)).shared := by
  induction n with
  | zero => exact fun m hm => (by cases hm)
  | succ n ih =>
    have hlt : n < events.length := by omega
    have hsound : Sound tools (runOffice env tools agentId embedDim (events.take n)).shared :=
      office_sound events (Nat.le_of_lt hlt)
    have hstep : Progress (runOffice env tools agentId embedDim (events.take n)).shared
        (runOffice env tools agentId embedDim (events.take (n + 1))).shared := by
      rw [runOffice_succ hlt]
      exact (office_step (runOffice_obeys _) hsound _).2
    exact fresh_progress hsound hstep (hmeets n hlt) (ih (Nat.le_of_lt hlt))

end

/-- In a row that a summarization wrote a summary to, it is a summary of the text, and a pack that
places the summary of the row places a summary of that text. -/
def SummariesCurrent (tools : Tools F) (d : Desk F) : Prop :=
  ∀ m ∈ d.conn.db.memories, (lastWritten d m.id).isSome →
    (∃ summary, m.summaryText = some summary ∧ SummaryOf tools m.text summary) ∧
    let row := Recall.rowFromSql d.conn.db m
    ∀ cap reason, (Recall.place tools.count row cap reason).1 = .summary →
      ∃ summary, row.summaryText = some summary ∧ SummaryOf tools row.text summary

/-- In every interleaving of summarizations with the other operations in which no text is rewritten
under a summary and each summary is written to the text that was read, the summaries that
summarizations wrote are summaries of the current texts. -/
theorem summaries_current (env : Env F) (tools : Tools F) (agentId : String) (embedDim : Nat)
    (events : List (Pool.Event (Request F)))
    (hmeets : ∀ n < events.length,
      Undisturbed (runOffice env tools agentId embedDim (events.take n)).shared
        (runOffice env tools agentId embedDim (events.take (n + 1))).shared) :
    SummariesCurrent tools (runOffice env tools agentId embedDim events).shared := by
  have hsound : Sound tools (runOffice env tools agentId embedDim events).shared := by
    rw [← List.take_length (l := events)]
    exact office_sound events (Nat.le_refl _)
  have hfresh := office_fresh events hmeets (Nat.le_refl _)
  rw [List.take_length] at hfresh
  intro m hm hwritten
  obtain ⟨w, hw⟩ := Option.isSome_iff_exists.mp hwritten
  obtain ⟨hsummary, htext⟩ := hfresh m hm w hw
  have hof : SummaryOf tools m.text w.summary := htext ▸ hsound.answered w (lastWritten_mem hw).1
  exact ⟨⟨_, hsummary, hof⟩, fun _ _ _ => ⟨_, hsummary, hof⟩⟩

/-- A client that tells two texts apart. -/
def sampleTools : Tools ℚ where
  chat := ⟨fun _ prompt => .ok (if prompt = promptFor "the sky is blue" then "blue" else "grey")⟩
  count text := text.length
  rougeL _ _ := 0

/-- A memory is stored and summarized. -/
def sampleEvents : List (Pool.Event (Request ℚ)) :=
  [.start (.op ⟨.insertMemory ⟨"semantic", "fact", "the sky is blue", "web"⟩, rfl⟩), .advance 0,
    .start (.byId 1 false), .advance 1, .advance 1, .advance 1, .advance 1]

theorem summaries_current_sample :
    (runOffice sampleEnv sampleTools "a" 1 sampleEvents).shared.conn.db.memories.map
      (fun m => (m.text, m.summaryText)) = [("the sky is blue", some "blue")] ∧
    SummariesCurrent sampleTools (runOffice sampleEnv sampleTools "a" 1 sampleEvents).shared := by
  refine ⟨by decide +kernel, summaries_current sampleEnv sampleTools "a" 1 sampleEvents ?_⟩
  decide +kernel

/-- A text that is updated after it was summarized keeps the summary of the old one. -/
theorem update_outdates_summary :
    ¬ ∀ events : List (Pool.Event (Request ℚ)),
      SummariesCurrent sampleTools (runOffice sampleEnv sampleTools "a" 1 events).shared := by
  intro h
  let events := sampleEvents ++
    [.start (.op ⟨.update 1 "the sky is grey" none none none, rfl⟩), .advance 2]
  have hrows : (runOffice sampleEnv sampleTools "a" 1 events).shared.conn.db.memories.map
      (fun m => (m.id, m.text, m.summaryText)) = [(1, "the sky is grey", some "blue")] := by
    decide +kernel
  have hlast : (lastWritten (runOffice sampleEnv sampleTools "a" 1 events).shared 1).isSome := by
    decide +kernel
  have hrow := List.mem_singleton_self ((1 : Int), "the sky is grey", some "blue")
  rw [← hrows] at hrow
  obtain ⟨m, hm, heq⟩ := List.mem_map.mp hrow
  obtain ⟨hid, htext, hsummary⟩ : m.id = 1 ∧ m.text = "the sky is grey" ∧
      m.summaryText = some "blue" := by simpa using heq
  obtain ⟨⟨summary, hstored, n, reply, hreply, rfl⟩, _⟩ := h events m hm (hid ▸ hlast)
  have hgrey : reply = "grey" := by
    have hprompt : promptFor "the sky is grey" ≠ promptFor "the sky is blue" := by decide +kernel
    rw [htext] at hreply
    exact (Except.ok.inj hreply).symm.trans (if_neg hprompt)
  rw [hsummary, hgrey] at hstored
  exact absurd hstored (by decide +kernel)

end AgosMemory.Summarize
