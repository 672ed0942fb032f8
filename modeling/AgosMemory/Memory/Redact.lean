import AgosMemory.Library.Replace
import AgosMemory.Text

/-!
# Redaction of secrets

The four patterns run in order, each over the output of the one before. Texts are lists of
characters here; `redact` and `containsSecret` are the functions on strings the write paths call.
-/

namespace AgosMemory.Redact

open Library Library.Regex Text

/-- Replacement marker. -/
def REDACTED : String := "[REDACTED]"

/-- The replacement string of a pass, with or without a leading `${1}`. -/
structure Replacement where
  firstGroup : Bool
  text : String

def Replacement.expand {β : Type} (t : Replacement) (ins : Char → β) (m : Match β) : List β :=
  (if t.firstGroup then m.group.getD [] else []) ++ t.text.toList.map ins

/-! ## Character classes -/

/-- Simple case folding, on the characters whose fold is an ASCII letter. -/
def fold (c : Char) : Char :=
  if c = '\u017F' then 's' else if c = '\u212A' then 'k' else c.toLower

/-- `[A-Za-z0-9_-]` -/
def isKeyChar (c : Char) : Bool := c.isAlphanum || c == '_' || c == '-'

/-- `(?i)[A-Za-z0-9._~+/=-]` -/
def isTokenChar (c : Char) : Bool :=
  (fold c).isAlphanum || ['.', '_', '~', '+', '/', '=', '-'].contains c

/-- `[A-Z ]` -/
def isPemLabelChar (c : Char) : Bool := c.isUpper || c == ' '

def isSeparator (c : Char) : Bool := c == ':' || c == '='

/-! ## Patterns -/

def literal : List Char → Regex Char
  | [] => .eps
  | c :: cs => .seq (.one (· == c)) (literal cs)

/-- A lower-case literal under `(?i)`. -/
def foldedLiteral : List Char → Regex Char
  | [] => .eps
  | c :: cs => .seq (.one (fold · == c)) (foldedLiteral cs)

def openAiKey : Regex Char := .seq (literal "sk-".toList) (.reps true 8 isKeyChar)

def bearerLead : Regex Char := .seq (foldedLiteral "bearer".toList) (.reps true 1 isSpace)

def bearerToken : Regex Char := .seq bearerLead (.reps true 4 isTokenChar)

def pemBoundary (word : String) : Regex Char :=
  .seq (literal word.toList)
    (.seq (.reps true 0 isPemLabelChar) (literal "PRIVATE KEY-----".toList))

def pemBlock : Regex Char :=
  .seq (pemBoundary "-----BEGIN ")
    (.seq (.reps false 0 fun _ => true) (pemBoundary "-----END "))

def label : Regex Char :=
  .alt (foldedLiteral "password".toList)
    (.alt (foldedLiteral "passwd".toList)
      (.alt (foldedLiteral "secret".toList)
        (.seq (foldedLiteral "api".toList)
          (.seq (.alt (.one fun c => c == '_' || c == '-') .eps) (foldedLiteral "key".toList)))))

/-- `label\s*[:=]\s*` with the label captured. -/
def pairLead : Regex Char :=
  .seq (.group label) (.seq (.reps true 0 isSpace)
    (.seq (.one isSeparator) (.reps true 0 isSpace)))

def labelledValue : Regex Char := .seq pairLead (.reps true 1 fun c => !isSpace c)

def patterns : List (Regex Char × Replacement) :=
  [(openAiKey, ⟨false, REDACTED⟩), (bearerToken, ⟨false, REDACTED⟩),
   (pemBlock, ⟨false, REDACTED⟩), (labelledValue, ⟨true, "=[REDACTED]"⟩)]

def redactChars (text : List Char) : List Char :=
  patterns.foldl (fun out p => replaceAll p.1 (p.2.expand id) out) text

/-- Redact secrets in `text`; returns the redacted copy. -/
def redact (text : String) : String := String.ofList (redactChars text.toList)

/-- True when redaction changed the text (a secret was present). -/
def containsSecret (text : String) : Bool := redact text != text

example : redact "auth Bearer token1234!" = "auth [REDACTED]!" := by decide +kernel
example : redact "pw Password=hunter2!" = "pw Password=[REDACTED]" := by decide +kernel

end AgosMemory.Redact
