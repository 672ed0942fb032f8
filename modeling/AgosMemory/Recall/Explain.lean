import AgosMemory.Recall.Recall
import AgosMemory.Storage.Store

/-!
# Rendering

A report becomes text in one place, `renderReport`: fenced blocks in injection order, or the no-hit
line. The map of texts it takes is built twice, by the recall tool and by the recall command.
-/

namespace AgosMemory.Recall

open Store

variable {F : Type} [F64 F]

/-! ## Wire format -/

/-- Render one injected hit as a fenced `<memory>` block. -/
def renderItem (hit : RecallHit F) (text : String) : String :=
  "<memory id=\"" ++ hit.publicId ++ "\" tier=\"" ++ hit.tier.sql ++ "\" trust=\"" ++
    hit.trust.sql ++ "\" score=\"" ++ F64.fixed 4 hit.score ++ "\">" ++ text ++ "</memory>"

/-- Render the no-hit outcome. -/
def renderNoHit (query : String) (minScore : F) (candidates : Nat) : String :=
  "No useful memories for \"" ++ query ++ "\" (min_score=" ++ F64.display minScore ++
    ", candidates=" ++ toString candidates ++ ")"

/-- Texts by public id; the entry inserted last comes first. -/
abbrev Texts := List (String × String)

/-- `if let Some(text)` inserted under a public id. -/
def insertText (out : Texts) (publicId : String) : Option String → Texts
  | some text => (publicId, text) :: out
  | none => out

/-- The hits that have a text, each with it. -/
def blocks {F : Type} (hits : List (RecallHit F)) (texts : Texts) : List (RecallHit F × String) :=
  hits.filterMap fun hit => (texts.lookup hit.publicId).map fun text => (hit, text)

def renderBlocks : List (RecallHit F × String) → String
  | [] => ""
  | b :: bs => renderItem b.1 b.2 ++ "\n" ++ renderBlocks bs

/-- What a report shows as blocks: none when it is a no-hit. -/
def shownBlocks {F : Type} (report : RecallReport F) (texts : Texts) :
    List (RecallHit F × String) :=
  if report.noHit then [] else blocks report.hits texts

/-- Render a whole report. -/
def renderReport (report : RecallReport F) (texts : Texts) (query : String) (minScore : F) :
    String :=
  if report.noHit then renderNoHit query minScore report.hits.length
  else renderBlocks (blocks report.hits texts)

/-! ## The two surfaces -/

/-- A read of one memory by public id. -/
abbrev ReadMemory := String → Except Error (Option MemoryRow)

/-- Reads of a database that nothing disturbs. -/
def readMemory {F : Type} (db : Db F) : ReadMemory := fun publicId =>
  .ok ((db.byPublicId? publicId).map rowOf)

/-- The recall tool: the summary of a row if it has one, else its text. A read that fails leaves the
hit out. -/
def textOfRead : Except Error (Option MemoryRow) → Option String
  | .ok (some row) => some (row.summaryText.getD row.text)
  | .ok none => none
  | .error _ => none

/-- Texts for a report's hits, dropped ones included. -/
def textsForReport {F : Type} (read : ReadMemory) (report : RecallReport F) : Texts :=
  report.hits.foldl
    (fun out hit => insertText out hit.publicId (textOfRead (read hit.publicId))) []

def mcpRecallText (read : ReadMemory) (report : RecallReport F) (query : String) (minScore : F) :
    String :=
  renderReport report (textsForReport read report) query minScore

/-- The recall command: the full text of every injected hit, empty if the row is gone. -/
def injectedTexts {F : Type} (read : ReadMemory) :
    List (RecallHit F) → Texts → Except Error Texts
  | [], out => .ok out
  | hit :: hits, out =>
    if hit.injected then do
      let row ← read hit.publicId
      injectedTexts read hits
        (insertText out hit.publicId (some ((row.map MemoryRow.text).getD "")))
    else injectedTexts read hits out

def cliRecallText (read : ReadMemory) (report : RecallReport F) (query : String) (minScore : F) :
    Except Error String :=
  if report.noHit then .ok (renderNoHit query minScore report.hits.length)
  else do
    let texts ← injectedTexts read report.hits []
    return renderReport report texts query minScore

theorem renderReport_eq (report : RecallReport F) (texts : Texts) (query : String) (minScore : F) :
    renderReport report texts query minScore =
      if report.noHit then renderNoHit query minScore report.hits.length
      else renderBlocks (shownBlocks report texts) := by
  unfold renderReport shownBlocks
  split <;> rfl

end AgosMemory.Recall
