/-
The files and directories below a working directory.

A place is what is left of a path when its points and double points are worked out by name
alone: the names from the working directory down, after double points for every level that
the path climbs above it. Of what lies above the working directory nothing is known.
-/
import Stylesheet.Assoc
import Stylesheet.File.Reading

set_option autoImplicit false

namespace Stylesheet

/-! ## Places -/

/-- Names from the working directory down. -/
abbrev Place := List String

namespace Place

/-- The place after one more name of a path. -/
def step (place : Place) (name : String) : Place :=
  if name = ".." then
    match place.getLast? with
    | none => [".."]
    | some last => if last = ".." then place ++ [".."] else place.dropLast
  else place ++ [name]

/-- The place that a path leads to. -/
def ofPath (path : Path) : Place :=
  path.names.foldl step (if path.root = "" then [] else [path.root])

/-- The place that the text of a path leads to. -/
def ofText (text : String) : Place := ofPath (.ofText text)

/-- The text of a place. -/
def toText (place : Place) : String :=
  Path.toText ⟨"", place⟩

end Place

/-! ## Files -/

/-- What stands in the way of working with a file. -/
inductive FileError where
  | missing
  | isDirectory
  | notDirectory
  deriving DecidableEq, Repr

/-- What is at each place below the working directory. -/
structure FileTree where
  entries : Assoc Place Entry

namespace FileTree

/-- A working directory with nothing in it. -/
def empty : FileTree := ⟨[]⟩

/-- What is at a place; the working directory is always there. -/
def find? (tree : FileTree) (place : Place) : Option Entry :=
  if place = [] then some .directory else Assoc.get? tree.entries place

/-- Whether a directory is at a place, or what stands in the way of using it as one. -/
def checkDirectory (tree : FileTree) (place : Place) : Except FileError Unit :=
  match tree.find? place with
  | some .directory => .ok ()
  | some (.file _) => .error .notDirectory
  | none => .error .missing

/-- The tree with a directory at a place, and with those it lies in. -/
def makeDirectory (tree : FileTree) (place : Place) : Except FileError FileTree :=
  ((List.range place.length).map fun n => place.take (n + 1)).foldlM (fun tree place =>
    match tree.find? place with
    | some .directory => .ok tree
    | some (.file _) => .error .notDirectory
    | none => .ok ⟨Assoc.put tree.entries place .directory⟩) tree

/-- The tree with a file at a place. The directory it lies in has to be there. -/
def write (tree : FileTree) (place : Place) (content : ByteArray) : Except FileError FileTree :=
  match tree.find? place with
  | some .directory => .error .isDirectory
  | _ => do
    tree.checkDirectory place.dropLast
    return ⟨Assoc.put tree.entries place (.file content)⟩

/-- The content of the file at a place. -/
def read (tree : FileTree) (place : Place) : Except FileError ByteArray :=
  match tree.find? place with
  | some (.file content) => .ok content
  | some .directory => .error .isDirectory
  | none => .error .missing

end FileTree

end Stylesheet
