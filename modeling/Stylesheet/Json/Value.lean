/-
Documents in JSON: the values, and objects as lists of fields in their order.

A number keeps whether it was written as a whole number or with a fraction or an
exponent, since the two are not checked alike.
-/
import Stylesheet.Assoc
import Stylesheet.Number.Binary64

set_option autoImplicit false

namespace Stylesheet

/-- A JSON value. -/
inductive Json where
  | null
  | bool (b : Bool)
  | number (n : Number)
  | string (s : String)
  | array (items : List Json)
  | object (fields : List (String × Json))

/-- The fields of an object, in order. -/
abbrev Fields := Assoc String Json

end Stylesheet
