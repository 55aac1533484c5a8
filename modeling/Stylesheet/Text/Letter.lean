/-
Letter case, for the comparisons that ignore it.

Every word this library compares without regard to case is spelled with ASCII
letters. Going down to small letters, no character outside ASCII becomes one of
the letters of those words, so folding ASCII is enough. Going up to capitals two
do: the dotless i and the long s.
-/

set_option autoImplicit false

namespace Stylesheet.Text

/-- The text with its ASCII capitals made small. -/
def lower (s : String) : String :=
  String.ofList (s.toList.map Char.toLower)

/-- The capital of a small ASCII letter, and of the two other letters whose
capital is an ASCII letter; every other character as it is. -/
def capital (c : Char) : Char :=
  if c = 'ı' then 'I' else if c = 'ſ' then 'S' else c.toUpper

/-- The text with its small letters made capitals. -/
def upper (s : String) : String :=
  String.ofList (s.toList.map capital)

/-- Whether a text begins with the characters of another. -/
def startsWith (s start : String) : Bool :=
  start.toList.isPrefixOf s.toList

end Stylesheet.Text
