/-
The outcome of matching a value against the grammar of its property.

The matching itself is done elsewhere; here is what it reports, and how reports are told
apart. What stands in a report need not be what it should be.
-/
import Stylesheet.Json.Value

set_option autoImplicit false

namespace Stylesheet

/-- What a match can report instead of a value. -/
inductive MatchError where
  /-- The value does not match: where it stops matching, the grammar, and the value. -/
  | mismatch (offset length grammar value : Json)
  /-- The grammar of a property by that name is not known. -/
  | unknownProperty (name : Json)
  | other (report : Json)

namespace MatchError

/-- Whether a report is of a value that does not match a grammar given as text. -/
def isMismatch : MatchError → Bool
  | .mismatch _ _ (.string _) _ => true
  | _ => false

/-- Whether a report is of a property that is not known, named by a text. -/
def isUnknownProperty : MatchError → Bool
  | .unknownProperty (.string _) => true
  | _ => false

end MatchError

/-- The outcome of matching a value. -/
structure MatchOutcome where
  matched : Json
  error : Option MatchError

/-- Whether nothing was reported. -/
def MatchOutcome.ok (m : MatchOutcome) : Bool := m.error.isNone

end Stylesheet
