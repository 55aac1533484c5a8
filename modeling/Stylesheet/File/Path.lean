/-
Paths of files, as text.

A path is a root and the names below it. Empty names and single points between slashes say
nothing and are left out; double points are kept, since what they mean depends on the
directories that are there.
-/
import Stylesheet.Text.Letter
import Stylesheet.Text.Split

set_option autoImplicit false

namespace Stylesheet

/-- A path: nothing or slashes at its root, and names. -/
structure Path where
  root : String
  names : List String
  deriving DecidableEq, Repr

namespace Path

/-- The path that a text spells. Two slashes at the start, and no more, are a root of
their own. -/
def ofText (text : String) : Path :=
  let cs := text.toList
  let slashes := (cs.takeWhile (· == '/')).length
  let root := if slashes = 0 then "" else if slashes = 2 then "//" else "/"
  let names := (Text.splitOn '/' cs).filter fun part => !part.isEmpty && part != ['.']
  ⟨root, names.map String.ofList⟩

/-- The text of a path. -/
def toText (path : Path) : String :=
  if path.root = "" ∧ path.names = [] then "."
  else path.root ++ "/".intercalate path.names

/-- The last name of a path; nothing for a root. -/
def name (path : Path) : String :=
  path.names.getLast?.getD ""

/-- The suffix of the last name: from its last point on, if something comes before the
point and something after it. -/
def suffix (path : Path) : String :=
  let cs := path.name.toList
  let after := (cs.reverse.takeWhile (· != '.')).length
  if after = 0 ∨ cs.length ≤ after + 1 then ""
  else String.ofList (cs.drop (cs.length - after - 1))

/-- The suffixes of the files that hold stylesheets. -/
def stylesheetSuffixes : List String := [".css"]

/-- Whether a path has the suffix of a stylesheet, in any case. -/
def isStylesheet (path : Path) : Bool :=
  stylesheetSuffixes.contains (Text.lower path.suffix)

end Path

end Stylesheet
