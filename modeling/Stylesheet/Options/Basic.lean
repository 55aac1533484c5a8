/-
Options for reading a stylesheet.

Options say whether errors that the grammar recovers from are tolerated, and how large a
file may be, in megabytes from one to a hundred. Options that are given in part are a patch:
the fields that are given, to be laid over other options.
-/
import Stylesheet.Options.Field

set_option autoImplicit false

namespace Stylesheet

/-- A number of megabytes that can be a limit. -/
abbrev Megabytes := { n : Nat // 1 ≤ n ∧ n ≤ 100 }

/-- The limit when none is given. -/
def Megabytes.standard : Megabytes := ⟨10, by decide⟩

/-- Options for reading a stylesheet. -/
structure Options where
  tolerant : Bool
  maxFileSize : Megabytes
  deriving DecidableEq

/-- The fields of options that are given. -/
structure OptionsPatch where
  tolerant : Option Bool
  maxFileSize : Option Megabytes
  deriving DecidableEq

namespace Options

/-- The name of the field for tolerance. -/
def tolerantField : String := "tolerant"

/-- The name of the field for the limit. -/
def maxFileSizeField : String := "max_file_size_mb"

/-- The options when nothing is given. -/
def standard : Options where
  tolerant := false
  maxFileSize := .standard

/-- The limit in bytes. -/
def maxFileBytes (o : Options) : Nat :=
  o.maxFileSize.val * 1024 * 1024

/-- The options with the fields of a patch laid over them. -/
def patch (o : Options) (p : OptionsPatch) : Options where
  tolerant := p.tolerant.getD o.tolerant
  maxFileSize := p.maxFileSize.getD o.maxFileSize

/-- The fields of options, all given. -/
def fields (o : Options) : Fields :=
  [(tolerantField, .bool o.tolerant), (maxFileSizeField, .number (.whole o.maxFileSize.val))]

/-- The patch that gives every field. -/
def toPatch (o : Options) : OptionsPatch where
  tolerant := some o.tolerant
  maxFileSize := some o.maxFileSize

end Options

/-! ## Validation -/

/-- A number as a limit. -/
def Megabytes.ofInt (n : Int) : Except FieldProblem Megabytes :=
  if h : n < 1 then .error .tooSmall
  else if h' : 100 < n then .error .tooLarge
  else .ok ⟨n.toNat, by omega⟩

/-- The limit that a value stands for. -/
def Megabytes.ofJson (value : Json) : Except FieldProblem Megabytes :=
  (laxInt value).bind Megabytes.ofInt

namespace OptionsPatch

/-- The patch that gives nothing. -/
def standard : OptionsPatch := ⟨none, none⟩

/-- What comes of a field: its value if it is given and right, or what is wrong with it. -/
def field {α : Type} (given : Fields) (name : String) (rule : Json → Except FieldProblem α) :
    Except (List FieldError) (Option α) :=
  match Assoc.get? given name with
  | none => .ok none
  | some value =>
    match rule value with
    | .ok x => .ok (some x)
    | .error problem => .error [⟨name, problem⟩]

/-- What is wrong with a result. -/
def problems {α : Type} : Except (List FieldError) α → List FieldError
  | .ok _ => []
  | .error errors => errors

/-- The given fields that are not fields of options. -/
def unknown (given : Fields) : List FieldError :=
  (given.filter fun f => f.1 != Options.tolerantField && f.1 != Options.maxFileSizeField).map
    fun f => ⟨f.1, .extra⟩

/-- The patch that given fields make. All that is wrong is reported: the fields in their
own order, then those that are not known in the order given. -/
def ofFields (given : Fields) : Except (List FieldError) OptionsPatch :=
  let tolerant := field given Options.tolerantField strictBool
  let maxFileSize := field given Options.maxFileSizeField Megabytes.ofJson
  match tolerant, maxFileSize, unknown given with
  | .ok tolerant, .ok maxFileSize, [] => .ok ⟨tolerant, maxFileSize⟩
  | tolerant, maxFileSize, unknown =>
    .error (problems tolerant ++ problems maxFileSize ++ unknown)

end OptionsPatch

/-- Why a field is not set. -/
inductive SetError where
  /-- The value is wrong, or the field is not known. -/
  | invalid (errors : List FieldError)
  /-- The field is worked out from others. -/
  | derived
  deriving DecidableEq, Repr

namespace Options

/-- The options that given fields make, the rest being standard. -/
def ofFields (given : Fields) : Except (List FieldError) Options :=
  (OptionsPatch.ofFields given).map standard.patch

/-- The names of what is worked out from options: it can be asked for and not set. -/
def derivedFields : List String :=
  ["max_file_size_bytes", "model_extra", "model_fields_set"]

/-- The options with one field set. Only that field is looked at. A name that begins with an
underscore is a private note on the options, which changes none of them. -/
def set (o : Options) (name : String) (value : Json) : Except SetError Options :=
  if name = tolerantField then
    match strictBool value with
    | .ok b => .ok { o with tolerant := b }
    | .error problem => .error (.invalid [⟨name, problem⟩])
  else if name = maxFileSizeField then
    match Megabytes.ofJson value with
    | .ok n => .ok { o with maxFileSize := n }
    | .error problem => .error (.invalid [⟨name, problem⟩])
  else if Text.startsWith name "_" then .ok o
  else if derivedFields.contains name then .error .derived
  else .error (.invalid [⟨name, .noSuchAttribute⟩])

end Options

end Stylesheet
