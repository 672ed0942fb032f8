import AgosMemory.Memory.Persist
import AgosMemory.Memory.Sessions

/-!
# Markdown ingest

A tree of Markdown files is parsed into items keyed by `file:line`. The manifest maps each key to the
hash of its item and the public id of its memory: an unchanged item is skipped, an edited one
rewrites the memory its entry names, and a new one goes through the normal write path.
-/

namespace AgosMemory.Ingest

open Library Library.Program Store Persist

variable {F : Type} [F64 F]

def MAX_MARKDOWN_BYTES : Nat := 1048576
def MAX_ITEMS_PER_FILE : Nat := 10000
def MAX_ITEM_CHARS : Nat := 4000

structure ParsedItem where
  text : String
  sourceRef : String
  daily : Bool
  deriving DecidableEq, Repr

inductive Action where
  | new | update | unchanged
  deriving DecidableEq, Repr

structure PlannedItem where
  item : ParsedItem
  hash : String
  action : Action
  oldPublicId : Option String
  deriving DecidableEq, Repr

structure IngestReport where
  seen : Nat
  new : Nat
  updated : Nat
  unchanged : Nat
  stale : Nat
  skipped : Nat
  dryRun : Bool
  deriving DecidableEq, Repr

/-! ## Files -/

/-- What the path names: one file with its name, a directory with the contents of its `MEMORY.md`
and of the files under `memory/` by name, or nothing. -/
inductive Tree where
  | file (path name contents : String)
  | dir (path : String) (memory : Option String) (daily : List (String × String))
  | missing (path : String)
  deriving Repr

def Tree.path : Tree → String
  | .file path _ _ | .dir path _ _ | .missing path => path

structure MarkdownFile where
  path : String
  relative : String
  contents : String
  deriving DecidableEq, Repr

/-- `YYYY-MM-DD.md` -/
def isDailyMarkdown (name : String) : Bool :=
  match name.toList.reverse with
  | 'd' :: 'm' :: '.' :: stem =>
    let bytes := stem.reverse
    bytes.length = 10 && bytes[4]? = some '-' && bytes[7]? = some '-' &&
      (bytes.zipIdx.all fun p => p.2 = 4 || p.2 = 7 || p.1.isDigit)
  | _ => false

/-- The files of a tree: `MEMORY.md`, then the daily files by name. -/
def discoverFiles : Tree → Except Error (List MarkdownFile)
  | .file path name contents => .ok [⟨path, name, contents⟩]
  | .missing path => .error (.invalidInput
      ("ingest path does not exist or is not a file/directory: " ++ path))
  | .dir path memory daily =>
    let daily := (daily.filter fun f => isDailyMarkdown f.1).map fun f =>
      ⟨path ++ "/memory/" ++ f.1, "memory/" ++ f.1, f.2⟩
    .ok ((memory.toList.map fun contents => ⟨path ++ "/MEMORY.md", "MEMORY.md", contents⟩) ++
      daily.insertionSort fun a b => a.relative ≤ b.relative)

/-! ## Items -/

def normalizeText (text : String) : String := Text.join " " (Text.splitWhitespace text)

/-- The text after a list marker: `- `, `* `, `+ ` or digits and a dot. -/
def listItem (line : String) : Option String :=
  match line.toList with
  | '-' :: ' ' :: rest | '*' :: ' ' :: rest | '+' :: ' ' :: rest =>
    some (Text.trim (String.ofList rest))
  | chars =>
    match chars.dropWhile Char.isDigit with
    | '.' :: rest =>
      if (chars.takeWhile Char.isDigit).isEmpty then none
      else some (String.ofList (rest.dropWhile Text.isSpace))
    | _ => none

/-- Items found so far, and how many were left out. -/
structure Parsed where
  items : List ParsedItem := []
  skipped : Nat := 0
  deriving DecidableEq, Repr

/-- Add one item, unless its text is empty or too long. -/
def Parsed.push (p : Parsed) (relative : String) (line : Nat) (text : String) : Parsed :=
  if text = "" ∨ MAX_ITEM_CHARS < text.toList.length then { p with skipped := p.skipped + 1 }
  else { p with items := p.items ++
    [⟨text, relative ++ ":" ++ toString line, relative.startsWith "memory/"⟩] }

/-- End the open paragraph. -/
def flush (relative : String) (paragraph : Option (Nat × List String)) (p : Parsed) : Parsed :=
  match paragraph with
  | none => p
  | some (line, lines) => p.push relative line (normalizeText (Text.join " " lines))

/-- The lines of a file from number `line` on, with the paragraph that is open. -/
def parseLines (relative : String) :
    List String → Nat → Option (Nat × List String) → Parsed → Parsed
  | [], _, paragraph, p => flush relative paragraph p
  | raw :: rest, line, paragraph, p =>
    let trimmed := Text.trim raw
    if trimmed = "" ∨ trimmed.startsWith "#" then
      parseLines relative rest (line + 1) none (flush relative paragraph p)
    else
      match listItem trimmed with
      | some text => parseLines relative rest (line + 1) none
          ((flush relative paragraph p).push relative line (normalizeText text))
      | none =>
        let (start, lines) := paragraph.getD (line, [])
        parseLines relative rest (line + 1) (some (start, lines ++ [trimmed])) p

def parseFile (file : MarkdownFile) : Except Error Parsed :=
  if MAX_MARKDOWN_BYTES < file.contents.utf8ByteSize then
    .error (.invalidInput ("Markdown file " ++ file.path ++ " exceeds " ++
      toString MAX_MARKDOWN_BYTES ++ " bytes"))
  else
    let parsed := parseLines file.relative (Diff.lines file.contents) 1 none {}
    if MAX_ITEMS_PER_FILE < parsed.items.length then
      .error (.invalidInput ("Markdown file " ++ file.path ++ " contains more than " ++
        toString MAX_ITEMS_PER_FILE ++ " items"))
    else .ok parsed

/-! ## Planning -/

abbrev Manifest := List (String × ManifestEntry)

def sourceHash (env : Env F) (text sourceRef : String) : String :=
  env.sha256Hex (Text.trim text ++ "\n" ++ sourceRef)

def planItem (env : Env F) (manifest : Manifest) (item : ParsedItem) : PlannedItem :=
  let hash := sourceHash env item.text item.sourceRef
  let entry := manifest.lookup item.sourceRef
  { item, hash
    action := match entry with
      | some e => if e.hash = hash then .unchanged else .update
      | none => .new
    oldPublicId := entry.map ManifestEntry.publicId }

/-- The items of one file; a source reference that was already seen ends the run. -/
def seeItems : List ParsedItem → List String → Except Error (List String)
  | [], seen => .ok seen
  | item :: items, seen =>
    if item.sourceRef ∈ seen then
      .error (.invalidInput ("duplicate source reference " ++ item.sourceRef))
    else seeItems items (item.sourceRef :: seen)

/-- Parse file after file: the items in order, and how many were left out. -/
def parseFiles : List MarkdownFile → List String → Except Error Parsed
  | [], _ => .ok {}
  | file :: files, seen => do
    let parsed ← parseFile file
    let seen ← seeItems parsed.items seen
    let rest ← parseFiles files seen
    return ⟨parsed.items ++ rest.items, parsed.skipped + rest.skipped⟩

def sortPlanned (planned : List PlannedItem) : List PlannedItem :=
  planned.insertionSort fun a b => a.item.sourceRef ≤ b.item.sourceRef

/-! ## Writing -/

/-- `embed.provider` with the embedder it builds; an OpenAI-compatible one names its model. -/
inductive Provider (F : Type) where
  | none
  | hash (emb : Embedder F)
  | openAiCompat (model : String) (emb : Embedder F)

def Provider.embedder {F : Type} : Provider F → Option (Embedder F)
  | .none => Option.none
  | .hash emb | .openAiCompat _ emb => some emb

/-- The configuration that ingest reads. -/
structure IngestConfig (F : Type) where
  provider : Provider F
  pendingThreshold : F
  dedupThreshold : F

/-- `validate_embed_dim` -/
def validateEmbedDim (env : Env F) (emb : Embedder F) : Write F Unit := do
  let dim ← embedDim env
  if dim ≠ emb.dim then fail (.embeddingMismatch emb.model dim emb.model emb.dim) else pure ()

def itemCandidate (item : ParsedItem) : Candidate F :=
  { tier := "semantic", kind := "fact", text := item.text, confidence := F64.ofRat (9 / 10) }

def writeEmbedded (env : Env F) (cfg : IngestConfig F) (emb : Embedder F) (item : ParsedItem) :
    Write F PersistReport := do
  validateEmbedDim env emb
  persistCandidateFull env emb (itemCandidate item) "openclaw-ingest-v1" "file"
    cfg.pendingThreshold cfg.dedupThreshold

/-- Persist one new item through the normal write path. -/
def writeItem (env : Env F) (cfg : IngestConfig F) (item : ParsedItem) : Write F PersistReport :=
  match cfg.provider with
  | .none => persistCandidateDegraded env (itemCandidate item) "openclaw-ingest-v1" "file"
      cfg.pendingThreshold
  | .hash emb => writeEmbedded env cfg emb item
  | .openAiCompat model emb =>
    if model = "" then
      fail (.config "embed.model is empty; set [embed] model or use provider = 'none'")
    else writeEmbedded env cfg emb item

/-- Append a daily item to the session log. -/
def recordDailyTurn (env : Env F) (item : ParsedItem) : Write F Unit := do
  let c ← get
  let session ← match ← Sessions.getOpenSession env c.agentId with
    | some session => pure session
    | none => Sessions.openSession env c.agentId
  let content := "[untrusted-file " ++ item.sourceRef ++ "] " ++ Redact.redact item.text
  let _ ← Sessions.appendTurn env session.id "tool" content
  return ()

/-- Rewrite the memory that the entry of an edited item names. -/
def rewriteItem (env : Env F) (item : ParsedItem) (id : Int) : Write F String := do
  let updated ← updateMemoryWithProvenance env id (Redact.redact item.text) (some "file")
    (some "openclaw ingest: edited source item") (some "openclaw-ingest")
  setSourceRef env updated.id item.sourceRef
  return updated.publicId

/-- Write an item that has no memory; returns the public id of the surviving row. -/
def storeItem (env : Env F) (cfg : IngestConfig F) (item : ParsedItem) : Write F String := do
  let report ← writeItem env cfg item
  onlyIf (!report.deduped) (setSourceRef env report.row.id item.sourceRef)
  return report.row.publicId

/-- The memory an entry names, looked up twice as the code does. -/
def namedMemory (env : Env F) : Option String → Write F (Option MemoryRow)
  | none => pure none
  | some publicId => do
    match ← getMemory env publicId with
    | none => return none
    | some _ => getMemory env publicId

def setEntry (manifest : Manifest) (sourceRef : String) (entry : ManifestEntry) : Manifest :=
  (sourceRef, entry) :: manifest.filter fun e => e.1 ≠ sourceRef

/-- One item that is new or edited; returns the manifest with its entry. -/
def ingestItem (env : Env F) (cfg : IngestConfig F) (manifest : Manifest) (p : PlannedItem) :
    Write F Manifest := do
  let publicId ← match ← namedMemory env p.oldPublicId with
    | some row => rewriteItem env p.item row.id
    | none => storeItem env cfg p.item
  onlyIf p.item.daily (recordDailyTurn env p.item)
  return setEntry manifest p.item.sourceRef ⟨p.hash, publicId⟩

/-- The loop over the planned items. -/
def ingestStep (env : Env F) (cfg : IngestConfig F) (manifest : Manifest) (p : PlannedItem) :
    Write F Manifest :=
  if p.action = .unchanged then pure manifest else ingestItem env cfg manifest p

/-- Ingest a tree and return the report. -/
def ingest (env : Env F) (cfg : IngestConfig F) (tree : Tree) (dryRun : Bool) :
    Write F IngestReport := do
  let files ← lift (discoverFiles tree)
  if files.isEmpty then
    fail (.invalidInput ("no OpenClaw Markdown files found under " ++ tree.path))
  else do
    let manifest ← query env fun db => .ok db.manifest
    let parsed ← lift (parseFiles files [])
    let planned := sortPlanned (parsed.items.map (planItem env manifest))
    let report : IngestReport := {
      seen := planned.length
      new := planned.countP fun p => p.action = .new
      updated := planned.countP fun p => p.action = .update
      unchanged := planned.countP fun p => p.action = .unchanged
      stale := manifest.countP fun e => e.1 ∉ parsed.items.map ParsedItem.sourceRef
      skipped := parsed.skipped
      dryRun }
    if dryRun then return report
    else do
      let next ← foldEach planned manifest (ingestStep env cfg)
      run env fun db => { db with manifest := next }
      return report

end AgosMemory.Ingest
