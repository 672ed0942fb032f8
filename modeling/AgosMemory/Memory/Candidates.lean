import AgosMemory.Memory.Extract
import AgosMemory.Memory.RedactFixpoint
import AgosMemory.SystemEdits

/-!
# Candidates and the columns that hold them

`validate` and the `CHECK`s of the table are written apart. They agree on the tier and the scores;
the kind of an item is any short text to the one and a word of a list to the other.
-/

namespace AgosMemory.Extract

open Library Library.Program Store

variable {F : Type} [F64 F]

/-! ## What the table takes -/

/-- The `CHECK`s on the columns of a candidate, and a text that is still there once redacted. -/
structure Storable (c : Persist.Candidate F) : Prop where
  tier : (Tier.ofSql? c.tier).isSome
  kind : (Kind.ofSql? c.kind).isSome
  confidence : inUnit c.confidence = true
  text : Redact.redact c.text ≠ ""

/-! ## What validation lets through -/

/-- Everything that `validate` asks of an item but its kind. -/
structure OtherwiseValid (item : RawCandidate F) : Prop where
  text : ∃ t, item.text = some t ∧ Text.trim t ≠ "" ∧
    (Text.trim t).utf8ByteSize ≤ MAX_CANDIDATE_CHARS
  tier : item.tier.getD "episodic" ∈ TIERS
  importance : inUnit (item.importance.getD (F64.ofRat (1 / 2))) = true
  confidence : inUnit (item.confidence.getD (F64.ofRat (1 / 2))) = true

/-- The kind of an item: `fact` when it names none. -/
def RawCandidate.kindOr (item : RawCandidate F) : String := item.kind.getD "fact"

/-- A kind that is dropped. -/
def BadKind (kind : String) : Prop := Text.trim kind = "" ∨ 64 < kind.utf8ByteSize

/-- The candidate that a kept item with this text becomes. -/
def RawCandidate.candidate (item : RawCandidate F) (text : String) : Candidate F where
  tier := item.tier.getD "episodic"
  kind := item.kindOr
  text := Text.trim text
  importance := item.importance.getD (F64.ofRat (1 / 2))
  confidence := item.confidence.getD (F64.ofRat (1 / 2))
  sessionIndependent := item.sessionIndependent.getD false
  sourceSeq := 0

/-- An item is kept when it is sound and its kind is not a bad one. -/
private theorem validate_iff {item : RawCandidate F} {c : Candidate F} :
    validate item = some c ↔ OtherwiseValid item ∧ ¬ BadKind item.kindOr ∧
      ∃ t, item.text = some t ∧ item.candidate t = c := by
  unfold validate
  simp only [Option.bind_eq_bind]
  cases htext : item.text with
  | none => simp
  | some t =>
    rw [Option.bind_some]
    split
    · next hbad =>
      refine ⟨fun h => (by cases h), fun ⟨hsound, _⟩ => ?_⟩
      obtain ⟨t', ht', hne, hlen⟩ := hsound.text
      obtain rfl := Option.some.inj (htext.symm.trans ht')
      rcases hbad with hempty | hlong
      · exact absurd hempty hne
      · omega
    next htextFits =>
    split
    · next hbad => exact ⟨fun h => (by cases h), fun ⟨hsound, _⟩ => absurd hsound.tier hbad⟩
    next htier =>
    split
    · next hbad => exact ⟨fun h => (by cases h), fun ⟨_, hkind, _⟩ => absurd hbad hkind⟩
    next hkind =>
    split
    · next hbad =>
      refine ⟨fun h => (by cases h), fun ⟨hsound, _⟩ => ?_⟩
      rw [hsound.importance, hsound.confidence] at hbad
      cases hbad
    next hscores =>
    rw [Bool.or_eq_true, not_or, Bool.not_eq_true', Bool.not_eq_true', Bool.not_eq_false,
      Bool.not_eq_false] at hscores
    obtain ⟨hempty, hlong⟩ := not_or.mp htextFits
    have hsound : OtherwiseValid item :=
      ⟨⟨t, htext, hempty, Nat.le_of_not_lt hlong⟩, not_not.mp htier, hscores.1, hscores.2⟩
    constructor
    · intro h
      exact ⟨hsound, hkind, t, rfl, Option.some.inj h⟩
    · rintro ⟨_, _, t', ht', rfl⟩
      rw [Option.some.inj ht']
      rfl

omit [F64 F] in
/-- The tier that is stored is one of the table. -/
theorem tier_listed {c : Candidate F} (h : c.tier ∈ TIERS) :
    (Tier.ofSql? (adjustTier c).tier).isSome := by
  have hall : ∀ tier ∈ TIERS, (Tier.ofSql? tier).isSome := by decide
  unfold adjustTier
  split
  · exact hall "episodic" (by decide)
  · exact hall _ h

/-- A kept candidate has all that the table asks for, but perhaps a kind. -/
private theorem storable_iff {item : RawCandidate F} {c : Candidate F} (h : validate item = some c) :
    Storable (adjustTier c) ↔ (Kind.ofSql? item.kindOr).isSome := by
  obtain ⟨hsound, _, t, htext, rfl⟩ := validate_iff.mp h
  refine ⟨Storable.kind, fun hkind => ⟨tier_listed hsound.tier, hkind, hsound.confidence, ?_⟩⟩
  obtain ⟨t', ht', hne, _⟩ := hsound.text
  obtain rfl := Option.some.inj (htext.symm.trans ht')
  exact Redact.redact_ne_empty hne

/-- Every candidate of an answer can be stored exactly when each sound item of it names a kind of
the table, or one that is dropped. -/
theorem output_storable_iff {json : Json F} {text : String} {report : ParseReport F}
    (h : parseOutput json text = .ok report) :
    (∀ c ∈ report.candidates, Storable (adjustTier c)) ↔
      ∀ items, json (Text.trim text) = .ok items → ∀ item ∈ items, OtherwiseValid item →
        BadKind item.kindOr ∨ (Kind.ofSql? item.kindOr).isSome := by
  unfold parseOutput at h
  split at h
  · cases h
  next items hitems =>
  obtain rfl := Except.ok.inj h
  constructor
  · intro hall items' hitems' item hitem hsound
    obtain rfl := Except.ok.inj (hitems.symm.trans hitems')
    by_cases hbad : BadKind item.kindOr
    · exact .inl hbad
    · obtain ⟨t, htext, _⟩ := hsound.text
      have hkept : validate item = some (item.candidate t) :=
        validate_iff.mpr ⟨hsound, hbad, t, htext, rfl⟩
      exact .inr ((storable_iff hkept).mp (hall _ (List.mem_filterMap.mpr ⟨item, hitem, hkept⟩)))
  · intro hkinds c hc
    obtain ⟨item, hitem, hkept⟩ := List.mem_filterMap.mp hc
    obtain ⟨hsound, hgood, _⟩ := validate_iff.mp hkept
    exact (storable_iff hkept).mpr ((hkinds items hitems item hitem hsound).resolve_left hgood)

def sampleAnswer : String :=
  "\x7b\"memories\":[\x7b\"text\":\"ships on Friday\",\"kind\":\"event\"\x7d," ++
    "\x7b\"text\":\"the sky is blue\"\x7d]\x7d"

/-- What the JSON reader makes of `sampleAnswer`, with the kind of the first item as a parameter. -/
def sampleJson (kind : String) : Json ℚ := fun _ =>
  .ok [{ text := some "ships on Friday", kind := some kind }, { text := some "the sky is blue" }]

def sampleCandidate (kind text : String) : Candidate ℚ :=
  ⟨"episodic", kind, text, 1 / 2, 1 / 2, false, 0⟩

def sampleReport (kind : String) : ParseReport ℚ :=
  ⟨[sampleCandidate kind "ships on Friday", sampleCandidate "fact" "the sky is blue"], 0⟩

deriving instance DecidableEq for Candidate, ParseReport

/-- Both kinds of the answer are listed. -/
theorem output_storable_sample :
    parseOutput (sampleJson "fact") sampleAnswer = .ok (sampleReport "fact") ∧
      ∀ c ∈ (sampleReport "fact").candidates, Storable (adjustTier c) := by
  have hparsed : parseOutput (sampleJson "fact") sampleAnswer = .ok (sampleReport "fact") := by
    decide +kernel
  refine ⟨hparsed, (output_storable_iff hparsed).mpr fun items hitems item hitem _ => .inr ?_⟩
  obtain rfl := Except.ok.inj hitems
  rcases List.mem_cons.mp hitem with rfl | hitem
  · decide
  · obtain rfl := List.mem_singleton.mp hitem
    decide

/-- An answer whose first item is an `event` is accepted whole, and storing it fails before the
second item is reached. -/
theorem event_blocks_answer :
    parseOutput (sampleJson "event") sampleAnswer = .ok (sampleReport "event") ∧
      (¬ ∀ c ∈ (sampleReport "event").candidates, Storable (adjustTier c)) ∧
      ∃ s, extractFresh sampleEnv ⟨fun _ _ => .ok sampleAnswer⟩ (sampleJson "event") sampleEmbedder
          1 0 [⟨1, 1, "user", "hi", "hi", 1⟩] { conn := emptyStore ℚ "a" 1 } =
        (.error (.storage "CHECK constraint failed: kind"), s) ∧ s.conn.db.memories = [] := by
  refine ⟨by decide +kernel, fun hall => ?_, _, run_of_outcome (by decide +kernel), ?_⟩
  · have hkind := (hall _ List.mem_cons_self).kind
    exact absurd hkind (by decide)
  · exact List.length_eq_zero_iff.mp (by decide +kernel)

end AgosMemory.Extract
