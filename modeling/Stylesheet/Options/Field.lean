/-
Rules for the value of one field, and what is wrong with a value that breaks its rule.

A rule is strict if it takes values of one type only, and lax if it also takes values that
stand for one: the words for yes and no, or a whole number written as text.
-/
import Stylesheet.Json.Value
import Stylesheet.Number.Numeral
import Stylesheet.Text.Letter

set_option autoImplicit false

namespace Stylesheet

/-! ## What can be wrong -/

/-- What is wrong with the value of a field. -/
inductive FieldProblem where
  /-- Neither true nor false, nor anything that can stand for it. -/
  | boolType
  /-- A text or a number that stands for neither true nor false. -/
  | boolParsing
  | intType
  /-- A text that does not spell a whole number. -/
  | intParsing
  /-- A whole double beyond 64 bits, or a text of too many digits. -/
  | intParsingSize
  /-- A double with a fraction. -/
  | intFromFloat
  /-- Infinite, or not a number. -/
  | finiteNumber
  | tooSmall
  | tooLarge
  | stringType
  /-- A text that is none of those allowed. -/
  | stringPattern
  /-- A field that is not known, when all fields are given. -/
  | extra
  /-- A field that is not known, when one field is set. -/
  | noSuchAttribute
  deriving DecidableEq, Repr

/-- The word for a problem. -/
def FieldProblem.word : FieldProblem → String
  | .boolType => "bool_type"
  | .boolParsing => "bool_parsing"
  | .intType => "int_type"
  | .intParsing => "int_parsing"
  | .intParsingSize => "int_parsing_size"
  | .intFromFloat => "int_from_float"
  | .finiteNumber => "finite_number"
  | .tooSmall => "greater_than_equal"
  | .tooLarge => "less_than_equal"
  | .stringType => "string_type"
  | .stringPattern => "string_pattern_mismatch"
  | .extra => "extra_forbidden"
  | .noSuchAttribute => "no_such_attribute"

/-- A field and what is wrong with its value. -/
structure FieldError where
  field : String
  problem : FieldProblem
  deriving DecidableEq, Repr

/-! ## True and false -/

/-- Only true and false themselves. -/
def strictBool : Json → Except FieldProblem Bool
  | .bool b => .ok b
  | _ => .error .boolType

/-- The words for false. -/
def falseWords : List String := ["0", "off", "f", "false", "n", "no"]

/-- The words for true. -/
def trueWords : List String := ["1", "on", "t", "true", "y", "yes"]

/-- The least whole number above those of 64 bits, two to the power of 63. -/
def wordEnd : Int := 9223372036854775808

/-- Whether a whole number has 64 bits. -/
def isWord (n : Int) : Bool := -wordEnd ≤ n && n < wordEnd

/-- Whether a whole double stands for a whole number of 64 bits. The least such number is left
out, since doubles just below it are rounded to it. -/
def isWordDouble (n : Int) : Bool := -wordEnd < n && n < wordEnd

/-- What a whole number stands for. -/
def boolOfInt (n : Int) : Except FieldProblem Bool :=
  if n = 0 then .ok false else if n = 1 then .ok true else .error .boolParsing

/-- True and false, the numbers one and zero, and the words for them in any case. A number with
a fraction or beyond 64 bits is not taken for a number here. -/
def laxBool : Json → Except FieldProblem Bool
  | .bool b => .ok b
  | .number (.whole n) => if isWord n then boolOfInt n else .error .boolType
  | .number (.double x) =>
    match x.toInt? with
    | some n => if isWordDouble n then boolOfInt n else .error .boolType
    | none => .error .boolType
  | .string s =>
    let word := Text.lower s
    if falseWords.contains word then .ok false
    else if trueWords.contains word then .ok true
    else .error .boolParsing
  | _ => .error .boolType

/-! ## Whole numbers -/

/-- The text of a numeral from the last of its leading zeros on, or from the first character
that is none. Underscores between the zeros go with them, and a minus sign may come after
them. The first argument says what the numeral is if it ends here. -/
def afterZeros (last : Char) : List Char → Option (List Char)
  | [] => some [last]
  | c :: cs =>
    if c = '0' ∨ c = '_' then afterZeros c cs
    else if c = '.' then some (last :: c :: cs)
    else if c = '-' ∨ c.isDigit then some (c :: cs)
    else none

/-- The text of a numeral without its leading zeros, but for one that is all there is before
the end or the point. A numeral starts with a digit or a minus sign. -/
def withoutZeros : List Char → Option (List Char)
  | '0' :: cs => afterZeros '0' cs
  | c :: cs => if c = '-' ∨ c.isDigit then some (c :: cs) else none
  | [] => none

/-- The text of a numeral without a point that has zeros and nothing else after it. -/
def withoutFraction (cs : List Char) : List Char :=
  match cs.dropWhile (· != '.') with
  | _ :: c :: fraction => if (c :: fraction).all (· == '0') then cs.takeWhile (· != '.') else cs
  | _ => cs

/-- The characters of a numeral between white space that count. An underscore that is left
after the leading zeros has to stand between two digits, so none follows a sign. -/
def wholeChars? (s : String) : Option (List Char) := do
  let cs := Text.trimBy Text.isSpace s.toList
  let cs ←
    match cs with
    | '+' :: '-' :: _ => none
    | '+' :: rest => some rest
    | _ => some cs
  Numeral.ungroup false (withoutFraction (← withoutZeros cs))

/-- The whole number that a text spells: a sign, ASCII digits with single underscores between
them, and perhaps a point with zeros after it. Leading zeros do not count for the length. -/
def wholeOfText (s : String) : Except FieldProblem Int :=
  match wholeChars? s with
  | none => .error .intParsing
  | some cs =>
    if Numeral.maxDigits < (String.ofList cs).utf8ByteSize then .error .intParsingSize
    else
      let (negative, digits) := Numeral.sign cs
      match Numeral.digits? digits with
      | some n => .ok (if negative then -(n : Int) else n)
      | none => .error .intParsing

/-- Whole numbers, true and false as one and zero, whole doubles within 64 bits, and texts
that spell a whole number. -/
def laxInt : Json → Except FieldProblem Int
  | .bool b => .ok (if b then 1 else 0)
  | .number (.whole n) => .ok n
  | .number (.double (.finite negative m e)) =>
    match Binary64.toInt? (.finite negative m e) with
    | none => .error .intFromFloat
    | some n => if isWordDouble n then .ok n else .error .intParsingSize
  | .number (.double _) => .error .finiteNumber
  | .string s => wholeOfText s
  | _ => .error .intType

end Stylesheet
