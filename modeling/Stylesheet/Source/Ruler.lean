/-
From octets to characters, lines and columns.

A concrete tree counts octets of the UTF-8 form of a text; the syntax tree counts
characters, and gives each place its line and column. The ruler of a text does the
change of units. A line ends after a carriage return with a line feed, after either of
them alone, and after a form feed.

For a text in ASCII the two units are one, and an octet offset is taken as it is, even
one that lies outside the text. For any other text the character offset is the number
of characters that begin before the octet, where the end of the text counts as one more.
-/
import Stylesheet.Source.Location
import Stylesheet.Text.Utf8

set_option autoImplicit false

namespace Stylesheet

/-- What the change of units needs to know of a text. -/
structure Ruler where
  /-- The character offset at which each line begins. -/
  lineStarts : List Nat
  /-- The octet offset at which each character begins, and that of the end; not kept
  for a text in ASCII. -/
  charStarts : Option (List Nat)
  deriving DecidableEq, Repr

namespace Ruler

/-! ## Measuring a text -/

/-- Whether a character ends a line. -/
def endsLine (c : Char) : Bool :=
  c == '\r' || c == '\n' || c == '\x0c'

/-- The starts of the lines after the first, put before `found` in reverse, for text
that begins at the offset `i`. -/
def lineStartsFrom (i : Nat) (found : List Nat) : List Char → List Nat
  | [] => found.reverse
  | '\r' :: '\n' :: rest => lineStartsFrom (i + 2) ((i + 2) :: found) rest
  | c :: rest => lineStartsFrom (i + 1) (if endsLine c then (i + 1) :: found else found) rest

/-- The octet offsets at which the characters of a text begin, and that of its end, put
before `found` in reverse, for text that begins at the octet `i`. -/
def charStartsFrom (i : Nat) (found : List Nat) : List Char → List Nat
  | [] => (i :: found).reverse
  | c :: rest => charStartsFrom (i + c.utf8Size) (i :: found) rest

/-- Whether all characters are ASCII. -/
def isAscii (cs : List Char) : Bool :=
  cs.all fun c => c.toNat < 128

/-- The ruler of a text. -/
def ofChars (cs : List Char) : Ruler where
  lineStarts := lineStartsFrom 0 [0] cs
  charStarts := if isAscii cs then none else some (charStartsFrom 0 [] cs)

/-! ## Reading off a place -/

/-- The character offset of an octet offset. -/
def charOffset (r : Ruler) (octet : Int) : Int :=
  match r.charStarts with
  | none => octet
  | some starts => (starts.countP fun start : Nat => decide ((start : Int) < octet) : Nat)

/-- How many lines begin at an offset or before it. -/
def linesUpTo (r : Ruler) (offset : Int) : Nat :=
  r.lineStarts.countP fun start : Nat => decide ((start : Int) ≤ offset)

/-- The start of the line with a number; a place before the first line is measured from
the start of the last one. -/
def lineStart (r : Ruler) (line : Nat) : Nat :=
  (if line = 0 then r.lineStarts.getLast? else r.lineStarts[line - 1]?).getD 0

/-- The position of an octet offset. -/
def position (r : Ruler) (octet : Int) : Position :=
  let offset := r.charOffset octet
  let line := r.linesUpTo offset
  { offset, line, column := offset - r.lineStart line + 1 }

/-- The location between two octet offsets. -/
def location (r : Ruler) (start stop : Int) : Except LocationError Location :=
  Location.between (r.position start) (r.position stop)

end Ruler

end Stylesheet
