/-
UTF-8, octet by octet.

The reader is a machine that owes a number of continuation octets and knows the
least and the greatest octet that may come next. What it reads is a list of
pieces: a piece is a character, or a longest run of octets that starts like a
character and cannot be completed. Strict reading refuses a list with a broken
piece in it; lenient reading puts U+FFFD in its place, one for each.
-/

set_option autoImplicit false

namespace Stylesheet.Text.Utf8

/-! ## Writing -/

/-- The octets of a list of characters. -/
def encode (cs : List Char) : List UInt8 :=
  cs.flatMap String.utf8EncodeChar

/-! ## The machine -/

/-- Where the reader stands: between characters, or inside one. -/
inductive State where
  /-- Between characters. -/
  | ready
  /-- Inside a character: so many octets owed, the next from `low` to `high`,
  the bits read so far. -/
  | pending (owed low high value : Nat)
  deriving DecidableEq, Repr

/-- The pieces read so far, last first, and the state. -/
structure Progress where
  state : State
  pieces : List (Option Char)

/-- The octet that begins a character, or a broken piece of its own. -/
def Progress.begin (b : Nat) (pieces : List (Option Char)) : Progress :=
  if b ≤ 0x7F then ⟨.ready, some (Char.ofNat b) :: pieces⟩
  else if 0xC2 ≤ b ∧ b ≤ 0xDF then ⟨.pending 1 0x80 0xBF (b - 0xC0), pieces⟩
  else if b = 0xE0 then ⟨.pending 2 0xA0 0xBF 0, pieces⟩
  else if b = 0xED then ⟨.pending 2 0x80 0x9F 0xD, pieces⟩
  else if 0xE1 ≤ b ∧ b ≤ 0xEF then ⟨.pending 2 0x80 0xBF (b - 0xE0), pieces⟩
  else if b = 0xF0 then ⟨.pending 3 0x90 0xBF 0, pieces⟩
  else if 0xF1 ≤ b ∧ b ≤ 0xF3 then ⟨.pending 3 0x80 0xBF (b - 0xF0), pieces⟩
  else if b = 0xF4 then ⟨.pending 3 0x80 0x8F 4, pieces⟩
  else ⟨.ready, none :: pieces⟩

/-- One octet. An octet that cannot continue the character breaks it off and
begins another. -/
def Progress.step (p : Progress) (octet : UInt8) : Progress :=
  let b := octet.toNat
  match p.state with
  | .ready => .begin b p.pieces
  | .pending owed low high value =>
    if low ≤ b ∧ b ≤ high then
      let value := value * 64 + (b - 0x80)
      if owed ≤ 1 then ⟨.ready, some (Char.ofNat value) :: p.pieces⟩
      else ⟨.pending (owed - 1) 0x80 0xBF value, p.pieces⟩
    else .begin b (none :: p.pieces)

/-- All pieces, in order; a character broken off by the end is a broken piece. -/
def Progress.finish (p : Progress) : List (Option Char) :=
  match p.state with
  | .ready => p.pieces.reverse
  | .pending .. => (none :: p.pieces).reverse

/-! ## Reading -/

/-- The pieces of a list of octets: characters, and a `none` for each broken one. -/
def pieces (octets : List UInt8) : List (Option Char) :=
  (octets.foldl Progress.step ⟨.ready, []⟩).finish

/-- The characters of the octets, if every piece is a character. -/
def decode? (octets : List UInt8) : Option (List Char) :=
  let read := pieces octets
  if read.all Option.isSome then some (read.filterMap id) else none

/-- What stands for a broken piece. -/
def replacement : Char := '\uFFFD'

/-- The characters of the octets, with U+FFFD for each broken piece. -/
def decodeLossy (octets : List UInt8) : List Char :=
  (pieces octets).map (·.getD replacement)

end Stylesheet.Text.Utf8
