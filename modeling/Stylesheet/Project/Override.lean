/-
Overrides: values from the environment, put into the configuration of a project.

The text of a variable becomes a value by its look: a word for yes or no, a number, or else
the text itself. The value is put under a path of keys; objects that are not there yet are
made on the way.
-/
import Stylesheet.Options.Settings
import Stylesheet.Text.Split

set_option autoImplicit false

namespace Stylesheet

/-! ## The value of a variable -/

/-- What the text of a variable stands for. -/
inductive EnvValue where
  | bool (b : Bool)
  | whole (n : Int)
  | double (x : Binary64)
  | text (s : String)
  deriving DecidableEq, Repr

namespace EnvValue

/-- What a text stands for. Only a text with a point in it can be a double. -/
def ofText (s : String) : EnvValue :=
  let word := Text.lower s
  if ["true", "yes", "on"].contains word then .bool true
  else if ["false", "no", "off"].contains word then .bool false
  else if s.toList.contains '.' then
    match Numeral.decimal? s with
    | some x => .double x
    | none => .text s
  else
    match Numeral.integer? s with
    | some n => .whole n
    | none => .text s

/-- The value as it stands in a document. -/
def toJson : EnvValue → Json
  | .bool b => .bool b
  | .whole n => .number (.whole n)
  | .double x => .number (.double x)
  | .text s => .string s

end EnvValue

/-! ## Putting a value under a path -/

/-- A value on the way of a path that is not an object. -/
structure NotAnObject where
  deriving DecidableEq, Repr

/-- The fields with a value under the path that starts with `key` and goes on with the
other keys. -/
def Json.setField (new : Json) (key : String) (fields : Fields) :
    List String → Except NotAnObject Fields
  | [] => .ok (Assoc.put fields key new)
  | next :: keys =>
    match (Assoc.get? fields key).getD (.object []) with
    | .object inner => do
      return Assoc.put fields key (.object (← setField new next inner keys))
    | _ => .error ⟨⟩

/-- The document with a value under a path of keys. -/
def Json.setAt (document new : Json) (keys : List String) : Except NotAnObject Json :=
  match keys, document with
  | [], _ => .ok new
  | key :: keys, .object fields => (setField new key fields keys).map .object
  | _, _ => .error ⟨⟩

/-- The document with the text of a variable put under a path, its keys parted by points. -/
def Json.override (document : Json) (path text : String) : Except NotAnObject Json :=
  document.setAt (EnvValue.ofText text).toJson
    ((Text.splitOn '.' path.toList).map String.ofList)

end Stylesheet
