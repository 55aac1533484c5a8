/-
Diagnostics: what is reported about a text that could not be read as it stands.
-/

set_option autoImplicit false

namespace Stylesheet

/-- What kind of trouble a diagnostic reports. -/
inductive Trouble where
  /-- Text that the grammar could not read. -/
  | syntaxError
  /-- Something that the grammar had to put in. -/
  | missingNode
  /-- A file that could not be read. -/
  | unreadable
  deriving DecidableEq, Repr

/-- The word for a kind of trouble. -/
def Trouble.word : Trouble → String
  | .syntaxError => "SYNTAX_ERROR"
  | .missingNode => "MISSING_NODE"
  | .unreadable => "READ_ERROR"

/-- How grave a trouble is. -/
inductive Severity where
  | high
  | low
  deriving DecidableEq, Repr

/-- The word for a severity. -/
def Severity.word : Severity → String
  | .high => "high"
  | .low => "low"

/-- One report. -/
structure Diagnostic where
  trouble : Trouble
  severity : Severity
  message : String
  line : Int
  column : Int
  offset : Int
  /-- An excerpt of the text in question. -/
  text : String
  /-- The kind of the node around it. -/
  parentKind : Option String
  deriving DecidableEq, Repr

/-- The warning that stands for a report when it is tolerated. -/
def Diagnostic.warning (d : Diagnostic) : String :=
  d.message ++ " at " ++ toString d.line ++ ":" ++ toString d.column

/-- The report of a file that could not be read. -/
def Diagnostic.ofUnreadable (message : String) : Diagnostic where
  trouble := .unreadable
  severity := .high
  message := message
  line := 1
  column := 1
  offset := 0
  text := ""
  parentKind := none

end Stylesheet
