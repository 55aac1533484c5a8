/-
Values as messages show them.

A message quotes a text with single quotes, or with double ones if the text holds a
single quote and no double one. A character that is not shown as itself is escaped by
its code point.
-/
import Stylesheet.Json.Writer
import Stylesheet.Text.Shown

set_option autoImplicit false

namespace Stylesheet.Json

/-- The last `count` hexadecimal digits of a number. -/
def hexDigits (count n : Nat) : List Char :=
  (List.range count).map fun i => hexChar (n / Nat.pow 16 (count - 1 - i) % 16)

/-- A character of a quoted text. -/
def literalChar (mark c : Char) : List Char :=
  if c = mark ∨ c = '\\' then ['\\', c]
  else if c = '\n' then ['\\', 'n']
  else if c = '\r' then ['\\', 'r']
  else if c = '\t' then ['\\', 't']
  else if Text.isShown c then [c]
  else if c.toNat < 0x100 then '\\' :: 'x' :: hexDigits 2 c.toNat
  else if c.toNat < 0x10000 then '\\' :: 'u' :: hexDigits 4 c.toNat
  else '\\' :: 'U' :: hexDigits 8 c.toNat

/-- The quotation mark that a text is put between. -/
def quotationMark (s : String) : Char :=
  let cs := s.toList
  if cs.contains '\'' && !cs.contains '"' then '"' else '\''

/-- A quoted text. -/
def literalText (s : String) : String :=
  let mark := quotationMark s
  String.ofList (mark :: s.toList.flatMap (literalChar mark) ++ [mark])

/-- The text of a number in a message. -/
def literalNumber : Number → String
  | .whole n => toString n
  | .double x => x.toText

mutual

/-- A value in a message. -/
def literal : Json → String
  | .null => "None"
  | .bool b => if b then "True" else "False"
  | .number n => literalNumber n
  | .string s => literalText s
  | .array items => "[" ++ literalItems items ++ "]"
  | .object fields => "\x7b" ++ literalFields fields ++ "\x7d"

/-- Values with commas between them. -/
def literalItems : List Json → String
  | [] => ""
  | [item] => literal item
  | item :: rest => literal item ++ (", " ++ literalItems rest)

/-- Fields with commas between them. -/
def literalFields : List (String × Json) → String
  | [] => ""
  | [(key, value)] => literalText key ++ (": " ++ literal value)
  | (key, value) :: rest =>
    literalText key ++ (": " ++ (literal value ++ (", " ++ literalFields rest)))

end

end Stylesheet.Json
