/-
The result of reading one stylesheet.

A result is usable if it has a tree and no errors. Read strictly, a text with errors has no
tree; read tolerantly, its errors become warnings and the tree that the grammar recovered is
kept.
-/
import Stylesheet.Diagnostic
import Stylesheet.File.Path
import Stylesheet.Json.Value
import Stylesheet.Node.Basic

set_option autoImplicit false

namespace Stylesheet

/-- The result of reading a stylesheet, with errors of some type. -/
structure Parsed (ε : Type) where
  path : Option Path
  text : String
  tree : Option Node
  comments : List Node
  /-- How long it took. -/
  seconds : Number
  /-- The size of what was read, in bytes. -/
  size : Nat
  hash : String
  version : String
  errors : List ε
  /-- Whether errors were tolerated. -/
  recovered : Bool
  warnings : List String

namespace Parsed

variable {ε : Type}

/-- The language of every stylesheet. -/
def language : String := "css"

/-- A result without anything read. -/
def blank (path : Option Path) : Parsed ε where
  path := path
  text := ""
  tree := none
  comments := []
  seconds := .double (.ofDecimal false 0 0)
  size := 0
  hash := ""
  version := ""
  errors := []
  recovered := false
  warnings := []

/-- Whether there is a tree and no error. -/
def ok (r : Parsed ε) : Bool :=
  r.tree.isSome && r.errors.isEmpty

/-- The result with one more warning. -/
def addWarning (r : Parsed ε) (message : String) : Parsed ε :=
  { r with warnings := r.warnings ++ [message] }

/-- The result with one more error. -/
def addError (r : Parsed ε) (error : ε) : Parsed ε :=
  { r with errors := r.errors ++ [error] }

/-- The result with one more comment. -/
def addComment (r : Parsed ε) (comment : Node) : Parsed ε :=
  { r with comments := r.comments ++ [comment] }

/-- The result in short: what it is of, and how much of everything it has. -/
def summary (r : Parsed ε) : Fields :=
  [("file_path", match r.path with
      | some path => .string path.toText
      | none => .null),
   ("language", .string language),
   ("ok", .bool r.ok),
   ("comment_count", .number (.whole r.comments.length)),
   ("errors", .number (.whole r.errors.length)),
   ("warnings", .number (.whole r.warnings.length)),
   ("parse_time_ms", .number r.seconds.thousandfold)]

/-- The result with its errors treated as they are to be: tolerated or not. -/
def settle (r : Parsed Diagnostic) (tolerant : Bool) : Parsed Diagnostic :=
  if r.errors.isEmpty then r
  else if tolerant then
    { r with
      errors := []
      warnings := r.warnings ++ r.errors.map Diagnostic.warning
      recovered := true }
  else { r with tree := none }

end Parsed

end Stylesheet
