/-
Faults of a concrete tree: the regions the grammar could not read, and the nodes it had
to put in.

Below a region that could not be read nothing is reported, since it would repeat the same
region; below a node that was put in the search goes on. At most fifty faults of a tree
are reported, the first ones in the order of the walk: the search takes what it has found along
with it and looks no further once it has enough.
-/
import Stylesheet.Concrete.Basic
import Stylesheet.Diagnostic
import Stylesheet.Source.Basic
import Stylesheet.Text.Blank

set_option autoImplicit false

namespace Stylesheet

/-- A faulty node, and the kind of the node around it. -/
structure Fault where
  node : Concrete
  parentKind : Option String

namespace Concrete

/-! ## Finding faults -/

/-- Whether a node covers text that the grammar could not read. -/
def isError (c : Concrete) : Bool :=
  c.kind == "ERROR"

mutual

/-- Whether there is a fault at a node or below it. -/
def hasFault : Concrete → Bool
  | node k _ _ _ m cs => k == "ERROR" || m || anyFault cs

/-- Whether there is a fault at or below one of several nodes. -/
def anyFault : List Concrete → Bool
  | [] => false
  | c :: cs => hasFault c || anyFault cs

end

/-- The most faults that are reported. -/
def maxFaults : Nat := 50

mutual

/-- The faults found so far, with those found in a tree whose root stands below a node of the
given kind. Once enough are found, nothing more is looked at. -/
def findFaults (parentKind : Option String) (found : List Fault) : Concrete → List Fault
  | node k s e n m cs =>
    if maxFaults ≤ found.length then found
    else
      let found :=
        if k == "ERROR" || m then found ++ [⟨node k s e n m cs, parentKind⟩] else found
      if k == "ERROR" then found else findFaultsInAll (some k) found cs

/-- The faults found so far, with those found in several trees below a node of the given kind,
one after the other. -/
def findFaultsInAll (parentKind : Option String) (found : List Fault) : List Concrete → List Fault
  | [] => found
  | c :: cs => findFaultsInAll parentKind (findFaults parentKind found c) cs

end

/-- The faults of a tree that are reported. -/
def faults (c : Concrete) : List Fault :=
  if c.hasFault then c.findFaults none [] else []

end Concrete

/-! ## Reporting them -/

namespace Fault

/-- The most characters of a faulty text that are shown. -/
def maxExcerpt : Nat := 50

/-- The start of a text, marked if it was cut. -/
def shorten (cs : List Char) : List Char :=
  if cs.length > maxExcerpt then cs.take maxExcerpt ++ ['.', '.', '.'] else cs

/-- A text with its line feeds, and the carriage returns before them, shown as an escape. -/
def showLineFeeds : List Char → List Char
  | [] => []
  | '\r' :: '\n' :: rest => '\\' :: 'n' :: showLineFeeds rest
  | '\n' :: rest => '\\' :: 'n' :: showLineFeeds rest
  | c :: rest => c :: showLineFeeds rest

/-- The excerpt of a faulty text. -/
def excerpt (src : Source) (c : Concrete) : String :=
  String.ofList (showLineFeeds (shorten (src.excerpt c.start c.stop).toList))

/-- Faults at the top of a stylesheet are grave. -/
def severity (f : Fault) : Severity :=
  match f.parentKind with
  | none => .high
  | some kind => if kind = "stylesheet" then .high else .low

/-- What is said about a fault with the given excerpt. -/
def message (f : Fault) (text : String) : String :=
  if f.node.missing then
    "Missing " ++ f.node.kind ++ " in " ++ f.parentKind.getD "unknown"
  else if Text.isBlankText text then "Unexpected empty syntax error"
  else "Syntax error in css: '" ++ text ++ "'"

/-- The report of a fault. -/
def report (src : Source) (f : Fault) : Diagnostic :=
  let text := excerpt src f.node
  let position := src.ruler.position f.node.start
  { trouble := if f.node.isError then .syntaxError else .missingNode
    severity := f.severity
    message := f.message text
    line := position.line
    column := position.column
    offset := position.offset
    text := text
    parentKind := f.parentKind }

end Fault

/-- The reports of the faults of a tree over a source. -/
def Concrete.diagnostics (src : Source) (c : Concrete) : List Diagnostic :=
  c.faults.map (·.report src)

end Stylesheet
