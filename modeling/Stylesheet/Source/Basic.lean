/-
A source: the octets of a text, and its ruler.

This is all that reading a concrete tree needs of the text. Excerpts are cut from the
octets, so a cut may fall inside a character; what is left of the character then reads
as U+FFFD.
-/
import Stylesheet.Source.Ruler
import Stylesheet.Text.Slice

set_option autoImplicit false

namespace Stylesheet

/-- A text as the trees over it are read. -/
structure Source where
  octets : List UInt8
  ruler : Ruler

namespace Source

/-- The source of a text. -/
def ofText (text : String) : Source :=
  let cs := text.toList
  { octets := Text.Utf8.encode cs, ruler := .ofChars cs }

/-- The text between two octet offsets. -/
def excerpt (src : Source) (start stop : Int) : String :=
  String.ofList (Text.Utf8.decodeLossy (slice src.octets start stop))

/-- The location between two octet offsets. -/
def location (src : Source) (start stop : Int) : Except LocationError Location :=
  src.ruler.location start stop

end Source

end Stylesheet
