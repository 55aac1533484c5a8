/-
Writing a JSON document, on one line or one field to a line.

Characters outside ASCII are written as themselves. Only the quote, the backslash and
the control characters below U+0020 are escaped.
-/
import Stylesheet.Json.Value

set_option autoImplicit false

namespace Stylesheet.Json

/-! ## Leaves -/

/-- The hexadecimal digit for a number below sixteen. -/
def hexChar (n : Nat) : Char :=
  Char.ofNat (if n < 10 then 48 + n else 87 + n)

/-- A character as it stands inside a string. -/
def escapeChar (c : Char) : List Char :=
  if c = '"' then ['\\', '"']
  else if c = '\\' then ['\\', '\\']
  else if c = '\n' then ['\\', 'n']
  else if c = '\r' then ['\\', 'r']
  else if c = '\t' then ['\\', 't']
  else if c = '\x08' then ['\\', 'b']
  else if c = '\x0c' then ['\\', 'f']
  else if c.toNat < 0x20 then
    ['\\', 'u', '0', '0', hexChar (c.toNat / 16), hexChar (c.toNat % 16)]
  else [c]

/-- A text between quotes. -/
def quote (s : String) : String :=
  String.ofList ('"' :: s.toList.flatMap escapeChar ++ ['"'])

/-- The text of a number. -/
def numberText : Number → String
  | .whole n => toString n
  | .double .nan => "NaN"
  | .double (.infinite negative) => if negative then "-Infinity" else "Infinity"
  | .double x => x.toText

/-! ## On one line -/

mutual

/-- A value on one line. -/
def toLine : Json → String
  | .null => "null"
  | .bool b => if b then "true" else "false"
  | .number n => numberText n
  | .string s => quote s
  | .array items => "[" ++ itemsLine items ++ "]"
  | .object fields => "\x7b" ++ fieldsLine fields ++ "\x7d"

/-- Values with commas between them. -/
def itemsLine : List Json → String
  | [] => ""
  | [item] => toLine item
  | item :: rest => toLine item ++ ("," ++ itemsLine rest)

/-- Fields with commas between them. -/
def fieldsLine : List (String × Json) → String
  | [] => ""
  | [(key, value)] => quote key ++ (":" ++ toLine value)
  | (key, value) :: rest => quote key ++ (":" ++ (toLine value ++ ("," ++ fieldsLine rest)))

end

/-! ## One field to a line -/

/-- A new line, indented by two blanks a level. -/
def lineBreak (level : Nat) : String :=
  String.ofList ('\n' :: List.replicate (2 * level) ' ')

mutual

/-- A value that begins at a level of indentation; what it holds stands one level further in. -/
def toLines (level : Nat) : Json → String
  | .array [] => "[]"
  | .array items => "[" ++ itemsLines (level + 1) items ++ (lineBreak level ++ "]")
  | .object [] => "\x7b\x7d"
  | .object fields => "\x7b" ++ fieldsLines (level + 1) fields ++ (lineBreak level ++ "\x7d")
  | .null => "null"
  | .bool b => if b then "true" else "false"
  | .number n => numberText n
  | .string s => quote s

/-- Values, each on lines of its own. -/
def itemsLines (level : Nat) : List Json → String
  | [] => ""
  | [item] => lineBreak level ++ toLines level item
  | item :: rest => lineBreak level ++ (toLines level item ++ ("," ++ itemsLines level rest))

/-- Fields, each on lines of its own. -/
def fieldsLines (level : Nat) : List (String × Json) → String
  | [] => ""
  | [(key, value)] => lineBreak level ++ (quote key ++ (": " ++ toLines level value))
  | (key, value) :: rest =>
    lineBreak level ++ (quote key ++ (": " ++ (toLines level value ++ ("," ++ fieldsLines level rest))))

end

/-- The document of a value, one field to a line. -/
def toDocument (value : Json) : String :=
  toLines 0 value

end Stylesheet.Json
