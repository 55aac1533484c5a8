/-
Blank characters and trimming.

Two sets are in use. The narrow one is the Unicode property White_Space; numbers
read from text are trimmed by it. The wide one adds the four information
separators U+001C to U+001F; names and excerpts are trimmed by that one.
-/

set_option autoImplicit false

namespace Stylesheet.Text

/-! ## The two sets -/

/-- The characters with the Unicode property White_Space. -/
def isSpace (c : Char) : Bool :=
  let n := c.toNat
  (9 ≤ n && n ≤ 13) || n == 32 || n == 0x85 || n == 0xA0 || n == 0x1680
    || (0x2000 ≤ n && n ≤ 0x200A) || n == 0x2028 || n == 0x2029 || n == 0x202F
    || n == 0x205F || n == 0x3000

/-- White space together with the information separators. -/
def isBlank (c : Char) : Bool :=
  isSpace c || (0x1C ≤ c.toNat && c.toNat ≤ 0x1F)

/-! ## Trimming -/

/-- A list without the members at its end that satisfy the test. -/
def trimEndBy (p : Char → Bool) (cs : List Char) : List Char :=
  (cs.reverse.dropWhile p).reverse

/-- A list without the members at both ends that satisfy the test. -/
def trimBy (p : Char → Bool) (cs : List Char) : List Char :=
  trimEndBy p (cs.dropWhile p)

/-- A text without the blank characters at its ends. -/
def strip (s : String) : String :=
  String.ofList (trimBy isBlank s.toList)

/-- A text with nothing but blank characters in it. -/
def isBlankText (s : String) : Bool :=
  s.toList.all isBlank

end Stylesheet.Text
