/-
Reading a JSON document.

Beside the standard the reader takes the words NaN, Infinity and -Infinity for
numbers. A key that comes twice has its last value in its first place. A whole
number of more than 4300 digits is refused. Escapes of surrogates that do not pair
up read as U+FFFD, since a text holds characters only.

Each reading function takes what is left of the text and gives back a value with
what is left after it. Values nest no deeper than the text is long, which is the
bound that the recursion counts down.
-/
import Stylesheet.Json.Value
import Stylesheet.Number.Numeral

set_option autoImplicit false

namespace Stylesheet.Json

/-! ## Tokens -/

/-- The text after the white space at its start. -/
def skipSpace (cs : List Char) : List Char :=
  cs.dropWhile fun c => c == ' ' || c == '\t' || c == '\n' || c == '\r'

/-- What is left after a word, if the text begins with it. -/
def afterWord? : List Char → List Char → Option (List Char)
  | [], cs => some cs
  | _ :: _, [] => none
  | w :: word, c :: cs => if w = c then afterWord? word cs else none

/-- What a hexadecimal digit counts. -/
def hexDigit? (c : Char) : Option Nat :=
  if '0' ≤ c ∧ c ≤ '9' then some (c.toNat - 48)
  else if 'a' ≤ c ∧ c ≤ 'f' then some (c.toNat - 87)
  else if 'A' ≤ c ∧ c ≤ 'F' then some (c.toNat - 55)
  else none

/-- The four hexadecimal digits of an escape, and what is left. -/
def hexEscape? : List Char → Option (Nat × List Char)
  | a :: b :: c :: d :: rest => do
    let a ← hexDigit? a
    let b ← hexDigit? b
    let c ← hexDigit? c
    let d ← hexDigit? d
    return (((a * 16 + b) * 16 + c) * 16 + d, rest)
  | _ => none

/-- The character of an escaped unit; a pair of surrogates is one character. -/
def escaped? (cs : List Char) : Option (Char × List Char) := do
  let (unit, rest) ← hexEscape? cs
  if 0xD800 ≤ unit ∧ unit ≤ 0xDBFF then
    match rest with
    | '\\' :: 'u' :: after =>
      match hexEscape? after with
      | some (second, left) =>
        if 0xDC00 ≤ second ∧ second ≤ 0xDFFF then
          return (Char.ofNat (0x10000 + (unit - 0xD800) * 0x400 + (second - 0xDC00)), left)
        else return ('\uFFFD', rest)
      | none => return ('\uFFFD', rest)
    | _ => return ('\uFFFD', rest)
  else if 0xDC00 ≤ unit ∧ unit ≤ 0xDFFF then return ('\uFFFD', rest)
  else return (Char.ofNat unit, rest)

/-- The character that a backslash and a letter stand for. -/
def shortEscape? : Char → Option Char
  | '"' => some '"'
  | '\\' => some '\\'
  | '/' => some '/'
  | 'b' => some '\x08'
  | 'f' => some '\x0c'
  | 'n' => some '\n'
  | 'r' => some '\r'
  | 't' => some '\t'
  | _ => none

/-- The characters of a string up to its closing quote, and what is left. The bound
counts characters read. -/
def stringBody? : Nat → List Char → List Char → Option (List Char × List Char)
  | 0, _, _ => none
  | _ + 1, _, [] => none
  | bound + 1, read, c :: cs =>
    if c = '"' then some (read.reverse, cs)
    else if c = '\\' then
      match cs with
      | [] => none
      | e :: rest =>
        if e = 'u' then
          match escaped? rest with
          | some (d, left) => stringBody? bound (d :: read) left
          | none => none
        else
          match shortEscape? e with
          | some d => stringBody? bound (d :: read) rest
          | none => none
    else if c.toNat < 0x20 then none
    else stringBody? bound (c :: read) cs

/-- The string whose opening quote has been read, and what is left. -/
def string? (cs : List Char) : Option (String × List Char) :=
  (stringBody? (cs.length + 1) [] cs).map fun (body, rest) => (String.ofList body, rest)

/-! ## Numbers -/

/-- The digits at the start of the text, and what is left. -/
def takeDigits (cs : List Char) : List Char × List Char :=
  (cs.takeWhile Char.isDigit, cs.dropWhile Char.isDigit)

/-- The fraction after the whole digits, if a point with digits after it stands there. -/
def fractionPart (cs : List Char) : List Char × List Char :=
  match cs with
  | '.' :: after =>
    let (digits, rest) := takeDigits after
    if digits.isEmpty then ([], cs) else (digits, rest)
  | _ => ([], cs)

/-- The exponent, if there is one with digits in it. -/
def exponentPart (cs : List Char) : Option Int × List Char :=
  match cs with
  | [] => (none, cs)
  | c :: after =>
    if c = 'e' ∨ c = 'E' then
      let (negative, after) := Numeral.sign after
      let (digits, rest) := takeDigits after
      match Numeral.digits? digits with
      | some n => (some (if negative then -(n : Int) else n), rest)
      | none => (none, cs)
    else (none, cs)

/-- A number whose sign has been read, and what is left. -/
def magnitude? (negative : Bool) (cs : List Char) : Option (Number × List Char) := do
  let (whole, rest) :=
    match cs with
    | '0' :: rest => (['0'], rest)
    | _ => takeDigits cs
  let digits ← Numeral.digits? whole
  let (fraction, rest) := fractionPart rest
  let (exponent, rest) := exponentPart rest
  if fraction.isEmpty && exponent.isNone then
    if whole.length > Numeral.maxDigits then none
    else return (.whole (if negative then -(digits : Int) else digits), rest)
  else
    let digits := Text.ofDigits ((whole ++ fraction).map fun c => c.toNat - 48)
    let power := exponent.getD 0 - fraction.length
    return (.double (.ofDecimal negative digits power), rest)

/-- A number, and what is left. -/
def number? : List Char → Option (Number × List Char)
  | '-' :: cs =>
    match afterWord? "Infinity".toList cs with
    | some rest => some (.double (.infinite true), rest)
    | none => magnitude? true cs
  | cs => magnitude? false cs

/-! ## Values -/

mutual

/-- A value, which white space may come before, and what is left. -/
def value? : Nat → List Char → Option (Json × List Char)
  | 0, _ => none
  | bound + 1, cs =>
    match skipSpace cs with
    | '"' :: rest => (string? rest).map fun (s, rest) => (.string s, rest)
    | '[' :: rest =>
      match skipSpace rest with
      | ']' :: rest => some (.array [], rest)
      | rest => (items? bound rest).map fun (items, rest) => (.array items, rest)
    | '\x7b' :: rest =>
      match skipSpace rest with
      | '\x7d' :: rest => some (.object [], rest)
      | rest => (fields? bound [] rest).map fun (fields, rest) => (.object fields, rest)
    | 'n' :: rest => (afterWord? "ull".toList rest).map fun rest => (.null, rest)
    | 't' :: rest => (afterWord? "rue".toList rest).map fun rest => (.bool true, rest)
    | 'f' :: rest => (afterWord? "alse".toList rest).map fun rest => (.bool false, rest)
    | 'N' :: rest => (afterWord? "aN".toList rest).map fun rest => (.number (.double .nan), rest)
    | 'I' :: rest =>
      (afterWord? "nfinity".toList rest).map fun rest =>
        (.number (.double (.infinite false)), rest)
    | rest => (number? rest).map fun (n, rest) => (.number n, rest)

/-- One or more values with commas between them, up to the closing bracket. -/
def items? : Nat → List Char → Option (List Json × List Char)
  | 0, _ => none
  | bound + 1, cs =>
    match value? bound cs with
    | none => none
    | some (item, rest) =>
      match skipSpace rest with
      | ']' :: rest => some ([item], rest)
      | ',' :: rest => (items? bound rest).map fun (items, rest) => (item :: items, rest)
      | _ => none

/-- One or more fields with commas between them, up to the closing brace, put over
those already read. -/
def fields? : Nat → Fields → List Char → Option (Fields × List Char)
  | 0, _, _ => none
  | bound + 1, read, cs =>
    match skipSpace cs with
    | '"' :: rest =>
      match string? rest with
      | none => none
      | some (key, rest) =>
        match skipSpace rest with
        | ':' :: rest =>
          match value? bound rest with
          | none => none
          | some (value, rest) =>
            let read := Assoc.put read key value
            match skipSpace rest with
            | '\x7d' :: rest => some (read, rest)
            | ',' :: rest => fields? bound read rest
            | _ => none
        | _ => none
    | _ => none

end

/-- The value that a text is the document of. -/
def ofText? (s : String) : Option Json :=
  let cs := s.toList
  match value? (cs.length + 1) cs with
  | some (value, rest) => if (skipSpace rest).isEmpty then some value else none
  | none => none

end Stylesheet.Json
