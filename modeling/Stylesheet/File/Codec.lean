/-
Codecs: how the octets of a file are read as characters.

Every codec is strict, so a file that does not fit it is refused as a whole. Latin-1 gives
each octet the character of its own number and therefore refuses nothing.

An encoding that is asked for by its name may have no codec. Then it refuses every file, like one
that does not fit. But an encoding may also break a reading off, so that nothing else is tried.
-/
import Stylesheet.Text.Utf8
import Stylesheet.Text.Letter

set_option autoImplicit false

namespace Stylesheet

/-- A way to read octets as characters. -/
inductive Codec where
  /-- UTF-8, with one byte order mark left out if the file begins with it. -/
  | utf8
  | latin1
  | windows1252
  /-- UTF-16 in the order its byte order mark says, little endian without one. -/
  | utf16
  | utf16le
  | utf16be
  deriving DecidableEq, Repr

namespace Codec

/-! ## Single octets -/

/-- The characters of windows-1252 for the octets from 0x80 to 0x9F; zero for none. -/
def windows1252Upper : List Nat :=
  [0x20AC, 0, 0x201A, 0x0192, 0x201E, 0x2026, 0x2020, 0x2021, 0x02C6, 0x2030, 0x0160, 0x2039,
   0x0152, 0, 0x017D, 0, 0, 0x2018, 0x2019, 0x201C, 0x201D, 0x2022, 0x2013, 0x2014, 0x02DC,
   0x2122, 0x0161, 0x203A, 0x0153, 0, 0x017E, 0x0178]

/-- The character of an octet in windows-1252. -/
def windows1252Char? (octet : UInt8) : Option Char :=
  let n := octet.toNat
  if 0x80 ≤ n ∧ n ≤ 0x9F then
    match windows1252Upper.getD (n - 0x80) 0 with
    | 0 => none
    | code => some (Char.ofNat code)
  else some (Char.ofNat n)

/-! ## Pairs of octets -/

/-- The units of sixteen bits, put before `read` in reverse; none if an octet is left over. -/
def units? (bigEndian : Bool) (read : List Nat) : List UInt8 → Option (List Nat)
  | [] => some read.reverse
  | [_] => none
  | a :: b :: rest =>
    let unit := if bigEndian then a.toNat * 256 + b.toNat else b.toNat * 256 + a.toNat
    units? bigEndian (unit :: read) rest

/-- The characters of units of sixteen bits, put before `read` in reverse; none if a
surrogate stands alone. -/
def ofUnits? (read : List Char) : List Nat → Option (List Char)
  | [] => some read.reverse
  | unit :: rest =>
    if 0xD800 ≤ unit ∧ unit ≤ 0xDBFF then
      match rest with
      | low :: rest =>
        if 0xDC00 ≤ low ∧ low ≤ 0xDFFF then
          ofUnits? (Char.ofNat (0x10000 + (unit - 0xD800) * 0x400 + (low - 0xDC00)) :: read) rest
        else none
      | [] => none
    else if 0xDC00 ≤ unit ∧ unit ≤ 0xDFFF then none
    else ofUnits? (Char.ofNat unit :: read) rest

/-- The characters of octets in UTF-16 without a mark. -/
def utf16? (bigEndian : Bool) (octets : List UInt8) : Option (List Char) :=
  (units? bigEndian [] octets).bind (ofUnits? [])

/-! ## Reading -/

/-- The characters of the octets, if they fit the codec. -/
def decode? : Codec → List UInt8 → Option (List Char)
  | .utf8, 0xEF :: 0xBB :: 0xBF :: rest => Text.Utf8.decode? rest
  | .utf8, octets => Text.Utf8.decode? octets
  | .latin1, octets => some (octets.map fun octet => Char.ofNat octet.toNat)
  | .windows1252, octets => octets.mapM windows1252Char?
  | .utf16, 0xFF :: 0xFE :: rest => utf16? false rest
  | .utf16, 0xFE :: 0xFF :: rest => utf16? true rest
  | .utf16, octets => utf16? false octets
  | .utf16le, octets => utf16? false octets
  | .utf16be, octets => utf16? true octets

/-- The codec that a name in small letters stands for. -/
def named? (name : String) : Option Codec :=
  if ["latin-1", "latin1", "iso-8859-1", "iso8859-1"].contains name then some .latin1
  else if ["windows-1252", "cp1252"].contains name then some .windows1252
  else if ["utf-16", "utf16"].contains name then some .utf16
  else if ["utf-16-le", "utf-16le"].contains name then some .utf16le
  else if ["utf-16-be", "utf-16be"].contains name then some .utf16be
  else none

end Codec

/-! ## Encodings by name -/

/-- What comes of reading octets in an encoding. -/
inductive Attempt where
  /-- The octets fit, and these are their characters. -/
  | read (cs : List Char)
  /-- The octets do not fit, and something else can be tried. -/
  | refused
  /-- The reading is broken off for a reason. -/
  | broken (reason : String)
  deriving DecidableEq, Repr

/-- The encodings that are known: for a name in small letters, what comes of reading octets. -/
abbrev Encodings := String → Option (List UInt8 → Attempt)

/-- Reading octets with a codec. -/
def Codec.attempt (codec : Codec) (octets : List UInt8) : Attempt :=
  match codec.decode? octets with
  | some cs => .read cs
  | none => .refused

namespace Encodings

/-- What is said by the encoding that is there to have no characters. -/
def undefinedReason : String :=
  "decoding with 'undefined' codec failed (UnicodeError: undefined encoding)"

/-- The encodings that are known here: those of the codecs above by their names, and the one that
breaks every reading off. There are more encodings in the world than these. A name of any other
counts as unknown, so that a guess of it comes to nothing; what does not depend on this is stated
for all `Encodings`. -/
def standard : Encodings := fun name =>
  if name = "undefined" then some fun _ => .broken undefinedReason
  else (Codec.named? name).map Codec.attempt

end Encodings

end Stylesheet
