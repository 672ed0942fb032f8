import AgosMemory.Recall.Explain

/-!
# What is rendered is what was packed

Packing decides which hits are shown and with which body; the two surfaces look the bodies up again
by public id. The exact condition under which each of them shows what was packed is proved for every
report and every store that bears it out, and reports of `recallWithClock` are such reports.
-/

namespace AgosMemory.Recall

open Store

variable {F : Type}

/-! ## Reports that a store bears out -/

/-- The row of a hit bears its placement out. -/
structure PlacedIn (count : String → Nat) (m : Memory F) (h : RecallHit F) : Prop where
  full : h.placement = .full → h.tokens = count m.text
  summary : h.placement = .summary → ∃ text, m.summaryText = some text ∧ count text ≤ h.tokens

/-- A packed report and a store that still holds the rows it was packed from. -/
structure Matches (count : String → Nat) (budget : Nat) (db : Db F) (report : RecallReport F) :
    Prop where
  placed : ∀ h ∈ report.hits, ∃ m, db.byPublicId? h.publicId = some m ∧ PlacedIn count m h
  settled : ∀ h ∈ report.hits, h.placement ≠ .unpacked
  distinct : (report.hits.map RecallHit.publicId).Nodup
  total : report.tokensUsed = (report.hits.map RecallHit.tokens).sum
  within : report.tokensUsed ≤ budget
  noHit_eq : report.noHit = report.hits.all fun h => !h.injected

/-- The block that packing decided on for one hit. -/
def packedBlock (db : Db F) (h : RecallHit F) : Option (RecallHit F × String) :=
  (db.byPublicId? h.publicId).bind fun m =>
    match h.placement with
    | .full => some (h, m.text)
    | .summary => m.summaryText.map fun text => (h, text)
    | .unpacked | .dropped _ => none

/-- One block for each injected hit, in report order, with the body that packing placed; so the
counted tokens of the bodies stay within the report's total and the budget. -/
structure ShowsPacked (count : String → Nat) (budget : Nat) (db : Db F) (report : RecallReport F)
    (shown : List (RecallHit F × String)) : Prop where
  blocks_eq : shown = report.hits.filterMap (packedBlock db)
  counted : (shown.map fun b => count b.2).sum ≤ report.tokensUsed
  within : report.tokensUsed ≤ budget

/-- Rows placed in full have no summary that differs from their text. -/
def FullUnsummarized (db : Db F) (report : RecallReport F) : Prop :=
  ∀ h ∈ report.hits, h.placement = .full → ∀ m, db.byPublicId? h.publicId = some m →
    m.summaryText.getD m.text = m.text

/-- Rows placed as summaries have a summary that equals their text. -/
def SummaryIsText (db : Db F) (report : RecallReport F) : Prop :=
  ∀ h ∈ report.hits, h.placement = .summary → ∀ m, db.byPublicId? h.publicId = some m →
    m.summaryText = some m.text

/-! ## Lists of blocks -/

/-- When `g` keeps no element that `f` leaves out, equal results are equal element by element. -/
private theorem filterMap_eq_iff {α β : Type} {f g : α → Option β} {l : List α}
    (h : ∀ a ∈ l, (g a).isSome → (f a).isSome) :
    l.filterMap f = l.filterMap g ↔ ∀ a ∈ l, f a = g a := by
  refine ⟨fun heq => ?_, List.filterMap_congr⟩
  have hshort : ∀ l : List α, (∀ a ∈ l, (g a).isSome → (f a).isSome) →
      (l.filterMap g).length ≤ (l.filterMap f).length := by
    intro l hl
    rw [List.length_filterMap_eq_countP, List.length_filterMap_eq_countP]
    exact List.countP_mono_left hl
  induction l with
  | nil => exact nofun
  | cons a l ih =>
    have hrest : ∀ b ∈ l, (g b).isSome → (f b).isSome := fun b hb =>
      h b (List.mem_cons_of_mem _ hb)
    have hlen := hshort l hrest
    rw [List.forall_mem_cons]
    cases hg : g a with
    | none =>
      rw [List.filterMap_cons_none hg] at heq
      cases hf : f a with
      | none => exact ⟨rfl, ih hrest (by rw [← heq, List.filterMap_cons_none hf])⟩
      | some b =>
        rw [List.filterMap_cons_some hf] at heq
        have := congrArg List.length heq
        rw [List.length_cons] at this
        omega
    | some b =>
      obtain ⟨b', hf⟩ := Option.isSome_iff_exists.mp (h a List.mem_cons_self (by rw [hg]; rfl))
      rw [List.filterMap_cons_some hf, List.filterMap_cons_some hg] at heq
      obtain ⟨rfl, htail⟩ := List.cons.inj heq
      exact ⟨hf, ih hrest htail⟩

/-! ## Looking the texts up -/

/-- A map filled by a loop returns, for an id of the loop, what was found for it. -/
theorem lookup_foldl {α : Type} (id : α → String) (find : String → Option String) (l : List α)
    (out : Texts) (k : String) :
    (l.foldl (fun out a => insertText out (id a) (find (id a))) out).lookup k =
      if k ∈ l.map id then (find k).or (out.lookup k) else out.lookup k := by
  induction l generalizing out with
  | nil => simp
  | cons a l ih =>
    rw [List.foldl_cons, ih, List.map_cons]
    by_cases hk : k = id a
    · subst hk
      cases hfind : find (id a) with
      | none => simp [insertText]
      | some text => simp [insertText]
    · cases find (id a) with
      | none => simp [insertText, hk]
      | some text => simp [insertText, hk, List.lookup_cons, beq_false_of_ne hk]

/-- What the recall command finds for a public id. -/
def cliText (db : Db F) (publicId : String) : Option String :=
  some (((db.byPublicId? publicId).map Memory.text).getD "")

private theorem injectedTexts_eq (db : Db F) (hits : List (RecallHit F)) (out : Texts) :
    injectedTexts (readMemory db) hits out =
      .ok ((hits.filter RecallHit.injected).foldl
        (fun out hit => insertText out hit.publicId (cliText db hit.publicId)) out) := by
  induction hits generalizing out with
  | nil => rfl
  | cons hit hits ih =>
    unfold injectedTexts
    by_cases hi : hit.injected = true
    · rw [if_pos hi, List.filter_cons_of_pos hi, List.foldl_cons, ← ih]
      simp only [readMemory, bind, Except.bind, cliText]
      cases db.byPublicId? hit.publicId <;> rfl
    · rw [if_neg hi, List.filter_cons_of_neg hi, ih]

/-- The texts that the recall command builds over an undisturbed store. -/
def cliTexts (db : Db F) (report : RecallReport F) : Texts :=
  (report.hits.filter RecallHit.injected).foldl
    (fun out hit => insertText out hit.publicId (cliText db hit.publicId)) []

section

variable {count : String → Nat} {budget : Nat} {db : Db F} {report : RecallReport F}

private theorem lookup_textsForReport {hit : RecallHit F} (hm : hit ∈ report.hits) {m : Memory F}
    (hrow : db.byPublicId? hit.publicId = some m) :
    (textsForReport (readMemory db) report).lookup hit.publicId =
      some (m.summaryText.getD m.text) := by
  unfold textsForReport
  rw [lookup_foldl RecallHit.publicId fun publicId => textOfRead (readMemory db publicId),
    if_pos (List.mem_map_of_mem hm)]
  simp only [readMemory, hrow, Option.map_some, textOfRead, rowOf, Option.some_or]

private theorem lookup_cliTexts (h : Matches count budget db report) {hit : RecallHit F}
    (hm : hit ∈ report.hits) {m : Memory F} (hrow : db.byPublicId? hit.publicId = some m) :
    (cliTexts db report).lookup hit.publicId = if hit.injected then some m.text else none := by
  have hmem : hit.publicId ∈ (report.hits.filter RecallHit.injected).map RecallHit.publicId ↔
      hit.injected = true := by
    constructor
    · intro hpid
      obtain ⟨hit', hhit', heq⟩ := List.mem_map.mp hpid
      obtain ⟨hm', hinjected⟩ := List.mem_filter.mp hhit'
      obtain rfl := List.inj_on_of_nodup_map h.distinct hm' hm heq
      exact hinjected
    · exact fun hinjected => List.mem_map_of_mem (List.mem_filter.mpr ⟨hm, hinjected⟩)
  unfold cliTexts
  rw [lookup_foldl RecallHit.publicId (cliText db)]
  by_cases hinjected : hit.injected = true
  · rw [if_pos (hmem.mpr hinjected), if_pos hinjected]
    simp only [cliText, hrow, Option.map_some, Option.getD_some, Option.some_or]
  · rw [if_neg (mt hmem.mp hinjected), if_neg hinjected]
    rfl

/-! ## The packed blocks -/

private theorem packedBlock_isSome (h : Matches count budget db report) {hit : RecallHit F}
    (hm : hit ∈ report.hits) : (packedBlock db hit).isSome = hit.injected := by
  obtain ⟨m, hrow, hplaced⟩ := h.placed hit hm
  unfold packedBlock RecallHit.injected
  rw [hrow, Option.bind_some]
  cases hp : hit.placement with
  | unpacked | full | dropped _ => rfl
  | summary =>
    obtain ⟨text, htext, _⟩ := hplaced.summary hp
    simp only [htext, Option.map_some, Option.isSome_some]

private theorem count_packedBlock (h : Matches count budget db report) {hit : RecallHit F}
    (hm : hit ∈ report.hits) {b : RecallHit F × String} (hb : packedBlock db hit = some b) :
    count b.2 ≤ hit.tokens := by
  obtain ⟨m, hrow, hplaced⟩ := h.placed hit hm
  unfold packedBlock at hb
  rw [hrow, Option.bind_some] at hb
  cases hp : hit.placement with
  | unpacked => rw [hp] at hb; cases hb
  | dropped reason => rw [hp] at hb; cases hb
  | full =>
    rw [hp] at hb
    obtain rfl := Option.some.inj hb
    exact (hplaced.full hp).ge
  | summary =>
    obtain ⟨text, htext, hle⟩ := hplaced.summary hp
    rw [hp] at hb
    simp only [htext, Option.map_some, Option.some.injEq] at hb
    obtain rfl := hb
    exact hle

/-- The bodies that packing placed cost what it counted. -/
private theorem count_packedBlocks (h : Matches count budget db report) :
    ((report.hits.filterMap (packedBlock db)).map fun b => count b.2).sum ≤ report.tokensUsed := by
  rw [h.total]
  have hall := fun hit (hm : hit ∈ report.hits) b => count_packedBlock h hm (b := b)
  generalize report.hits = hits at hall
  induction hits with
  | nil => exact Nat.le_refl _
  | cons hit hits ih =>
    have hrest := ih fun x hx => hall x (List.mem_cons_of_mem _ hx)
    rw [List.map_cons, List.sum_cons]
    cases hb : packedBlock db hit with
    | none =>
      rw [List.filterMap_cons_none hb]
      omega
    | some b =>
      have hle := hall hit List.mem_cons_self b hb
      rw [List.filterMap_cons_some hb, List.map_cons, List.sum_cons]
      omega

private theorem showsPacked_iff (h : Matches count budget db report)
    (shown : List (RecallHit F × String)) :
    ShowsPacked count budget db report shown ↔
      shown = report.hits.filterMap (packedBlock db) := by
  refine ⟨ShowsPacked.blocks_eq, fun heq => ⟨heq, ?_, h.within⟩⟩
  rw [heq]
  exact count_packedBlocks h

/-- A no-hit report has nothing to show, and shows nothing. -/
private theorem showsPacked_noHit (h : Matches count budget db report) (hno : report.noHit = true)
    (texts : Texts) : ShowsPacked count budget db report (shownBlocks report texts) := by
  rw [showsPacked_iff h, shownBlocks, if_pos hno, eq_comm, List.filterMap_eq_nil_iff]
  intro hit hm
  have hall := List.all_eq_true.mp (h.noHit_eq ▸ hno) hit hm
  rw [← Option.isNone_iff_eq_none, ← Option.not_isSome, packedBlock_isSome h hm]
  exact hall

/-- Away from the no-hit line a surface shows what was packed exactly when each hit has the block,
or no block, that packing decided on. -/
private theorem showsPacked_shownBlocks (h : Matches count budget db report) {texts : Texts}
    (hno : report.noHit = false)
    (hshown : ∀ hit ∈ report.hits, hit.injected → (texts.lookup hit.publicId).isSome) :
    ShowsPacked count budget db report (shownBlocks report texts) ↔
      ∀ hit ∈ report.hits,
        (texts.lookup hit.publicId).map (fun text => (hit, text)) = packedBlock db hit := by
  rw [showsPacked_iff h, shownBlocks, if_neg (by simp [hno]), blocks, filterMap_eq_iff]
  intro hit hm hsome
  rw [packedBlock_isSome h hm] at hsome
  rw [Option.isSome_map]
  exact hshown hit hm hsome

/-- One block of the recall tool: right for an injected hit whose full text is not replaced. -/
private theorem mcp_block_iff (h : Matches count budget db report) {hit : RecallHit F}
    (hm : hit ∈ report.hits) {m : Memory F} (hrow : db.byPublicId? hit.publicId = some m) :
    some (hit, m.summaryText.getD m.text) = packedBlock db hit ↔
      hit.injected = true ∧ (hit.placement = .full → m.summaryText.getD m.text = m.text) := by
  obtain ⟨m', hrow', hplaced⟩ := h.placed hit hm
  obtain rfl := Option.some.inj (hrow.symm.trans hrow')
  unfold packedBlock RecallHit.injected
  rw [hrow, Option.bind_some]
  cases hp : hit.placement with
  | unpacked | dropped _ => simp
  | full => simp
  | summary =>
    obtain ⟨text, htext, _⟩ := hplaced.summary hp
    simp [htext]

/-- One block of the recall command: right unless a summary was placed and differs from the text. -/
private theorem cli_block_iff (h : Matches count budget db report) {hit : RecallHit F}
    (hm : hit ∈ report.hits) {m : Memory F} (hrow : db.byPublicId? hit.publicId = some m) :
    (if hit.injected then some m.text else none).map (fun text => (hit, text)) =
        packedBlock db hit ↔
      (hit.placement = .summary → m.summaryText = some m.text) := by
  obtain ⟨m', hrow', hplaced⟩ := h.placed hit hm
  obtain rfl := Option.some.inj (hrow.symm.trans hrow')
  unfold packedBlock RecallHit.injected
  rw [hrow, Option.bind_some]
  cases hp : hit.placement with
  | unpacked | dropped _ => simp
  | full => simp
  | summary =>
    obtain ⟨text, htext, _⟩ := hplaced.summary hp
    simp [htext, eq_comm]

/-- The recall tool shows what was packed exactly for a no-hit report, or when nothing was dropped
and no row placed in full has a summary of its own; the recall command exactly for a no-hit report,
or when every summary placed is the text itself. -/
theorem surfaces_show_packed [F64 F] (h : Matches count budget db report) (query : String)
    (minScore : F) :
    (mcpRecallText (readMemory db) report query minScore =
        renderReport report (textsForReport (readMemory db) report) query minScore ∧
      (ShowsPacked count budget db report
          (shownBlocks report (textsForReport (readMemory db) report)) ↔
        report.noHit = true ∨
          ((∀ hit ∈ report.hits, hit.injected = true) ∧ FullUnsummarized db report))) ∧
    (cliRecallText (readMemory db) report query minScore =
        .ok (renderReport report (cliTexts db report) query minScore) ∧
      (ShowsPacked count budget db report (shownBlocks report (cliTexts db report)) ↔
        report.noHit = true ∨ SummaryIsText db report)) := by
  refine ⟨⟨rfl, ?_⟩, ?_, ?_⟩
  · cases hno : report.noHit with
    | true => exact iff_of_true (showsPacked_noHit h hno _) (.inl rfl)
    | false =>
      rw [showsPacked_shownBlocks h hno fun hit hm _ => by
        obtain ⟨m, hrow, _⟩ := h.placed hit hm
        rw [lookup_textsForReport hm hrow]; rfl]
      rw [FullUnsummarized, ← forall₂_and]
      simp only [Bool.false_eq_true, false_or]
      refine forall₂_congr fun hit hm => ?_
      obtain ⟨m, hrow, _⟩ := h.placed hit hm
      rw [lookup_textsForReport hm hrow, Option.map_some, mcp_block_iff h hm hrow]
      simp only [hrow, Option.some.injEq, forall_eq']
  · unfold cliRecallText
    split
    · next hno => rw [renderReport, if_pos hno]
    · rw [injectedTexts_eq]
      rfl
  · cases hno : report.noHit with
    | true => exact iff_of_true (showsPacked_noHit h hno _) (.inl rfl)
    | false =>
      rw [showsPacked_shownBlocks h hno fun hit hm hinjected => by
        obtain ⟨m, hrow, _⟩ := h.placed hit hm
        rw [lookup_cliTexts h hm hrow, if_pos hinjected]; rfl]
      simp only [Bool.false_eq_true, false_or, SummaryIsText]
      refine forall₂_congr fun hit hm => ?_
      obtain ⟨m, hrow, _⟩ := h.placed hit hm
      rw [lookup_cliTexts h hm hrow, cli_block_iff h hm hrow]
      simp only [hrow, Option.some.injEq, forall_eq']

end

/-! ## Reports of `recallWithClock` -/

private theorem byPublicId?_of_mem {db : Db F} (hunique : (db.memories.map Memory.publicId).Nodup)
    {m : Memory F} (hm : m ∈ db.memories) : db.byPublicId? m.publicId = some m := by
  cases hfind : db.byPublicId? m.publicId with
  | none => exact absurd (List.find?_eq_none.mp hfind m hm) (by simp)
  | some m' =>
    have hpid : m'.publicId = m.publicId := by simpa using List.find?_some hfind
    have hmem := List.mem_of_find?_eq_some hfind
    rw [List.inj_on_of_nodup_map hunique hmem hm hpid]

/-- What the rows of gate 2 say about a placed hit, read off the store they came from. -/
private theorem placedIn_of_placed {count : String → Nat} {db : Db F} {rows : List (CanonicalRow F)}
    {h : RecallHit F} {m : Memory F} (hplaced : Placed count rows h)
    (hrow : rowAt rows h.rowid = some (rowFromSql db m)) :
    PlacedIn count m h where
  full hfull := by
    obtain ⟨row, hrow', htokens⟩ := hplaced.full hfull
    obtain rfl := Option.some.inj (hrow.symm.trans hrow')
    exact htokens
  summary hsummary := by
    obtain ⟨row, text, hrow', htext, hle⟩ := hplaced.summary hsummary
    obtain rfl := Option.some.inj (hrow.symm.trans hrow')
    exact ⟨text, htext, hle⟩

/-- The gate-2 row of a candidate is a row of the store under both its ids. -/
structure RowOf (db : Db F) (rows : List (CanonicalRow F)) (cand : RecallHit F) (m : Memory F) :
    Prop where
  mem : m ∈ db.memories
  id_eq : m.id = cand.rowid
  row_eq : rowAt rows cand.rowid = some (rowFromSql db m)
  publicId_eq : cand.publicId = m.publicId

/-- Packing candidates whose rows come from `db` gives a report that `db` bears out. -/
private theorem packReport_matches [F64 F] {q : RecallQuery F} {db : Db F}
    {rows : List (CanonicalRow F)}
    {cands : List (RecallHit F)} {degraded : Bool}
    (hunique : (db.memories.map Memory.publicId).Nodup)
    (hrow : ∀ cand ∈ cands, ∃ m, RowOf db rows cand m)
    (hunpacked : ∀ cand ∈ cands, cand.placement = .unpacked ∧ cand.tokens = 0)
    (hnodup : (cands.map RecallHit.rowid).Nodup) :
    Matches (heuristicCount F) q.budgetTokens db (packReport q rows cands degraded) := by
  have hpacked := pack_packed (heuristicCount F) q.budgetSplit q.budgetTokens rows hunpacked
  have hpids : (cands.map RecallHit.publicId).Nodup := by
    refine List.Nodup.map_on (fun a ha b hb heq => ?_) hnodup.of_map
    obtain ⟨m, hm⟩ := hrow a ha
    obtain ⟨m', hm'⟩ := hrow b hb
    obtain rfl := List.inj_on_of_nodup_map hunique hm.mem hm'.mem
      (by rw [← hm.publicId_eq, ← hm'.publicId_eq, heq])
    exact List.inj_on_of_nodup_map hnodup ha hb (hm.id_eq.symm.trans hm'.id_eq)
  have hdistinct : ((pack (heuristicCount F) q.budgetSplit q.budgetTokens cands rows).hits.map
      RecallHit.publicId).Nodup := by
    have hids := congrArg (List.map Prod.snd) hpacked.ids_eq
    rw [List.map_map, List.map_map] at hids
    refine (congrArg List.Nodup hids).mpr ?_
    exact ((List.perm_insertionSort _ _).map _).nodup_iff.mpr hpids
  have hfrom : ∀ hit ∈ (packReport q rows cands degraded).hits,
      ∃ cand ∈ cands, hit.rowid = cand.rowid ∧ hit.publicId = cand.publicId :=
    fun _ hm => mem_packReport hunpacked hm
  simp only [packReport] at hfrom ⊢
  refine ⟨fun hit hm => ?_, fun hit hm => pack_settled hm, hdistinct, hpacked.total,
    hpacked.within, rfl⟩
  obtain ⟨cand, hcand, hrowid, hpid⟩ := hfrom hit hm
  obtain ⟨m, hm'⟩ := hrow cand hcand
  have hrow' := hm'.row_eq
  rw [← hrowid] at hrow'
  refine ⟨m, ?_, placedIn_of_placed (hpacked.placed hit hm) hrow'⟩
  rw [hpid, hm'.publicId_eq]
  exact byPublicId?_of_mem hunique hm'.mem

/-- The report of a call and the store its gate 2 read, under the keys of the schema. -/
theorem recall_matches [F64 F] {reads : Reads F} {agentId : String} {q : RecallQuery F} {now : Int}
    {report : RecallReport F} (h : recallWithClock reads agentId q now = .ok report) {db : Db F}
    (hdb : reads.gate2 = .ok db) (hunique : (db.memories.map Memory.publicId).Nodup) :
    Matches (heuristicCount F) q.budgetTokens db report := by
  obtain ⟨rowids, vecHits, ftsHits, rows, surviving, hrows, _, rfl⟩ := recall_steps h
  refine packReport_matches hunique (fun cand hcand => ?_)
    (fun cand hcand => (mem_candidates hcand).2.2) (candidates_nodup _ _ _ _ _ _)
  obtain ⟨⟨row, hrow, hpid⟩, _⟩ := mem_candidates hcand
  obtain ⟨db', hdb', hload⟩ := mem_readKeys hrows (List.mem_of_find?_eq_some hrow)
  obtain rfl := Except.ok.inj (hdb.symm.trans hdb')
  obtain ⟨m, hm, hid, rfl, _⟩ := rowAt_loadByRowids hload hrow
  exact ⟨m, hm, hid, hrow, hpid⟩

/-! ## A report with every placement -/

def mixedRow (id : Int) (publicId text : String) (summaryText : Option String) : Memory ℚ :=
  { sampleMemory id publicId .active with text, summaryText }

def mixedDb : Db ℚ := { memories := [
  mixedRow 1 "m1" "the sky is blue" (some "sky: blue"),
  mixedRow 2 "m2" "the grass is green in spring and in summer" (some "grass: green"),
  mixedRow 3 "m3" "the sea is grey in winter" none] }

def mixedHit (rowid : Int) (publicId : String) (placement : Placement) (tokens : Nat) :
    RecallHit ℚ where
  rowid
  publicId
  tier := .semantic
  trust := .trusted
  score := 1 / 2
  placement
  tokens
  sourceKind := .user
  sourceRef := none
  components := ⟨none, some 0, 1 / 61, 1 / 2, 1 / 2, 1, 1⟩

def reportOf (hits : List (RecallHit ℚ)) (tokensUsed : Nat) : RecallReport ℚ :=
  ⟨hits, tokensUsed, { semantic := tokensUsed }, false, true⟩

/-- One full text, one summary and one dropped hit in a budget of nine tokens. -/
def mixedReport : RecallReport ℚ := reportOf [mixedHit 1 "m1" .full 5, mixedHit 2 "m2" .summary 4,
  mixedHit 3 "m3" (.dropped .totalBudget) 0] 9

private theorem mixedReport_matches : Matches (heuristicCount ℚ) 9 mixedDb mixedReport where
  placed := by
    simp only [mixedReport, reportOf, List.forall_mem_cons, List.not_mem_nil, false_imp_iff,
      implies_true, and_true]
    refine ⟨⟨_, rfl, ?_, nofun⟩, ⟨_, rfl, nofun, fun _ => ⟨_, rfl, ?_⟩⟩, ⟨_, rfl, nofun, nofun⟩⟩
    · intro _
      decide +kernel
    · decide +kernel
  settled := by decide
  distinct := by decide
  total := by decide
  within := by decide
  noHit_eq := by decide

/-- The recall tool shows three bodies, two of them not those packed; the recall command shows the
full text in place of the summary. -/
theorem surfaces_miss_packed : Matches (heuristicCount ℚ) 9 mixedDb mixedReport ∧
    ¬ ShowsPacked (heuristicCount ℚ) 9 mixedDb mixedReport
      (shownBlocks mixedReport (textsForReport (readMemory mixedDb) mixedReport)) ∧
    ¬ ShowsPacked (heuristicCount ℚ) 9 mixedDb mixedReport
      (shownBlocks mixedReport (cliTexts mixedDb mixedReport)) := by
  refine ⟨mixedReport_matches, fun h => ?_, fun h => ?_⟩
  · exact absurd (congrArg (List.map Prod.snd) h.blocks_eq) (by decide)
  · exact absurd (congrArg (List.map Prod.snd) h.blocks_eq) (by decide)

/-- A row without a summary in full, one by its summary, and nothing dropped. -/
def toolReport : RecallReport ℚ where
  hits := [{ mixedHit 3 "m3" .full 9 with tier := .episodic }, mixedHit 2 "m2" .summary 4]
  tokensUsed := 13
  tierTokens := { episodic := 9, semantic := 4 }
  noHit := false
  degraded := true

private theorem toolReport_matches : Matches (heuristicCount ℚ) 13 mixedDb toolReport where
  placed := by
    simp only [toolReport, List.forall_mem_cons, List.not_mem_nil, false_imp_iff, implies_true,
      and_true]
    refine ⟨⟨_, rfl, ?_, nofun⟩, ⟨_, rfl, nofun, fun _ => ⟨_, rfl, ?_⟩⟩⟩
    · intro _
      decide +kernel
    · decide +kernel
  settled := by decide
  distinct := by decide
  total := by decide
  within := by decide
  noHit_eq := by decide

/-- Two rows in full, one of them with a summary, and one dropped. -/
def commandReport : RecallReport ℚ where
  hits := [mixedHit 1 "m1" .full 5, { mixedHit 3 "m3" .full 9 with tier := .episodic },
    mixedHit 2 "m2" (.dropped .tierBudget) 0]
  tokensUsed := 14
  tierTokens := { episodic := 9, semantic := 5 }
  noHit := false
  degraded := true

private theorem commandReport_matches : Matches (heuristicCount ℚ) 14 mixedDb commandReport where
  placed := by
    simp only [commandReport, List.forall_mem_cons, List.not_mem_nil, false_imp_iff, implies_true,
      and_true]
    refine ⟨⟨_, rfl, ?_, nofun⟩, ⟨_, rfl, ?_, nofun⟩, ⟨_, rfl, nofun, nofun⟩⟩
    · intro _
      decide +kernel
    · intro _
      decide +kernel
  settled := by decide
  distinct := by decide
  total := by decide
  within := by decide
  noHit_eq := by decide

/-- The tool shows a summary as packed while nothing is dropped, and the command leaves a dropped
row out while no summary is placed. -/
theorem surfaces_show_packed_each :
    ShowsPacked (heuristicCount ℚ) 13 mixedDb toolReport
      (shownBlocks toolReport (textsForReport (readMemory mixedDb) toolReport)) ∧
    ShowsPacked (heuristicCount ℚ) 14 mixedDb commandReport
      (shownBlocks commandReport (cliTexts mixedDb commandReport)) := by
  obtain ⟨⟨_, hmcp⟩, _⟩ := surfaces_show_packed toolReport_matches "sea" 0
  obtain ⟨_, _, hcli⟩ := surfaces_show_packed commandReport_matches "sea" 0
  refine ⟨hmcp.mpr (.inr ⟨by decide, ?_⟩), hcli.mpr (.inr ?_)⟩
  · intro hit hm hp m hrow
    rcases List.mem_cons.mp hm with rfl | hm
    · obtain rfl := Option.some.inj hrow
      rfl
    · obtain rfl := List.mem_singleton.mp hm
      cases hp
  · simp only [SummaryIsText, commandReport, List.forall_mem_cons, List.not_mem_nil, false_imp_iff,
      implies_true, and_true]
    exact ⟨nofun, nofun, nofun⟩

end AgosMemory.Recall
