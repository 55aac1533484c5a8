/-
Numbers read from text.

A numeral may stand between white space, have a sign, and have single underscores
between its digits; the digits may be of any script. A whole numeral has at most
4300 digits. A decimal numeral has digits on at least one side of its point, and
perhaps an exponent.
-/
import Stylesheet.Number.Binary64
import Stylesheet.Text.Blank
import Stylesheet.Text.Digit

set_option autoImplicit false

namespace Stylesheet.Numeral

open Stylesheet.Text

/-! ## Digits and underscores -/

/-- The ASCII digit for a decimal digit of any script, and other characters as they are. -/
def asciiOf (c : Char) : Char :=
  match digitValue? c with
  | some d => Char.ofNat (48 + d)
  | none => c

/-- A numeral without its underscores, if each stands between two digits. The first
argument says whether the character before is a digit. -/
def ungroup (afterDigit : Bool) : List Char → Option (List Char)
  | [] => some []
  | '_' :: rest =>
    match rest with
    | c :: _ => if afterDigit && c.isDigit then ungroup false rest else none
    | [] => none
  | c :: rest => (ungroup c.isDigit rest).map (c :: ·)

/-- A numeral's characters: trimmed, in ASCII digits, without underscores. -/
def chars? (s : String) : Option (List Char) :=
  ungroup false ((trimBy isSpace s.toList).map asciiOf)

/-- The sign of a numeral, and the rest of it. -/
def sign : List Char → Bool × List Char
  | '-' :: rest => (true, rest)
  | '+' :: rest => (false, rest)
  | cs => (false, cs)

/-- The value of a list of ASCII digits, if it has at least one and no other character. -/
def digits? (cs : List Char) : Option Nat :=
  if !cs.isEmpty && cs.all Char.isDigit then some (ofDigits (cs.map fun c => c.toNat - 48))
  else none

/-! ## Whole numerals -/

/-- The most digits that a whole numeral may have. -/
def maxDigits : Nat := 4300

/-- The whole number that a text spells. -/
def integer? (s : String) : Option Int := do
  let (negative, cs) := sign (← chars? s)
  if cs.length > maxDigits then none
  else
    let n ← digits? cs
    return if negative then -(n : Int) else n

/-! ## Decimal numerals -/

/-- The value of the exponent part, which may be missing. -/
def exponent? : List Char → Option Int
  | [] => some 0
  | c :: cs =>
    if c = 'e' ∨ c = 'E' then
      let (negative, ds) := sign cs
      (digits? ds).map fun n => if negative then -(n : Int) else n
    else none

/-- The double nearest to the decimal number that a text spells. -/
def decimal? (s : String) : Option Binary64 := do
  let (negative, cs) := sign (← chars? s)
  let whole := cs.takeWhile Char.isDigit
  let rest := cs.dropWhile Char.isDigit
  let (fraction, rest) :=
    match rest with
    | '.' :: after => (after.takeWhile Char.isDigit, after.dropWhile Char.isDigit)
    | _ => ([], rest)
  let digits ← digits? (whole ++ fraction)
  let power ← exponent? rest
  return .ofDecimal negative digits (power - fraction.length)

end Stylesheet.Numeral
