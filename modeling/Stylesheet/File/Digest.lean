/-
The digest that identifies the content of a file: SHA-256, as FIPS 180-4 lays it down.

The message is read with its padding in place, without making a padded copy: an octet past
the end of the message is the mark 0x80, a zero, or a part of the length in bits.
-/

set_option autoImplicit false

namespace Stylesheet.Digest

/-- The eight words of a digest in the making. -/
structure State where
  a : UInt32
  b : UInt32
  c : UInt32
  d : UInt32
  e : UInt32
  f : UInt32
  g : UInt32
  h : UInt32
  deriving DecidableEq, Repr

/-- The words that a digest starts from. -/
def initial : State :=
  ⟨0x6a09e667, 0xbb67ae85, 0x3c6ef372, 0xa54ff53a, 0x510e527f, 0x9b05688c, 0x1f83d9ab,
   0x5be0cd19⟩

/-- The constant of each round. -/
def roundConstants : Array UInt32 :=
  #[0x428a2f98, 0x71374491, 0xb5c0fbcf, 0xe9b5dba5, 0x3956c25b, 0x59f111f1, 0x923f82a4,
    0xab1c5ed5, 0xd807aa98, 0x12835b01, 0x243185be, 0x550c7dc3, 0x72be5d74, 0x80deb1fe,
    0x9bdc06a7, 0xc19bf174, 0xe49b69c1, 0xefbe4786, 0x0fc19dc6, 0x240ca1cc, 0x2de92c6f,
    0x4a7484aa, 0x5cb0a9dc, 0x76f988da, 0x983e5152, 0xa831c66d, 0xb00327c8, 0xbf597fc7,
    0xc6e00bf3, 0xd5a79147, 0x06ca6351, 0x14292967, 0x27b70a85, 0x2e1b2138, 0x4d2c6dfc,
    0x53380d13, 0x650a7354, 0x766a0abb, 0x81c2c92e, 0x92722c85, 0xa2bfe8a1, 0xa81a664b,
    0xc24b8b70, 0xc76c51a3, 0xd192e819, 0xd6990624, 0xf40e3585, 0x106aa070, 0x19a4c116,
    0x1e376c08, 0x2748774c, 0x34b0bcb5, 0x391c0cb3, 0x4ed8aa4a, 0x5b9cca4f, 0x682e6ff3,
    0x748f82ee, 0x78a5636f, 0x84c87814, 0x8cc70208, 0x90befffa, 0xa4506ceb, 0xbef9a3f7,
    0xc67178f2]

/-- A word turned to the right by a number of bits below 32. -/
def rotate (x n : UInt32) : UInt32 := (x >>> n) ||| (x <<< (32 - n))

/-! ## The padded message -/

/-- The number of blocks of a padded message. -/
def blockCount (size : Nat) : Nat := (size + 9 + 63) / 64

/-- An octet of the padded message. -/
def octetAt (message : ByteArray) (i : Nat) : UInt8 :=
  if h : i < message.size then message[i]
  else if i = message.size then 0x80
  else
    let total := 64 * blockCount message.size
    if total - 8 ≤ i then UInt8.ofNat (8 * message.size / Nat.pow 256 (total - 1 - i)) else 0

/-- A word of the padded message, its first octet the most significant. -/
def wordAt (message : ByteArray) (i : Nat) : UInt32 :=
  let octet := fun k => (octetAt message (4 * i + k)).toUInt32
  (octet 0 <<< 24) ||| (octet 1 <<< 16) ||| (octet 2 <<< 8) ||| octet 3

/-! ## Compression -/

/-- The words of all rounds for one block. -/
def schedule (message : ByteArray) (block : Nat) : Array UInt32 :=
  let first := Nat.fold 16 (fun t _ (w : Array UInt32) => w.push (wordAt message (16 * block + t)))
    (Array.mkEmpty 64)
  Nat.fold 48 (fun k _ (w : Array UInt32) =>
    let t := k + 16
    let x := w.getD (t - 15) 0
    let y := w.getD (t - 2) 0
    let s0 := rotate x 7 ^^^ rotate x 18 ^^^ (x >>> 3)
    let s1 := rotate y 17 ^^^ rotate y 19 ^^^ (y >>> 10)
    w.push (w.getD (t - 16) 0 + s0 + w.getD (t - 7) 0 + s1)) first

/-- One round, with its constant and its word. -/
def State.round (s : State) (k w : UInt32) : State :=
  let s1 := rotate s.e 6 ^^^ rotate s.e 11 ^^^ rotate s.e 25
  let choice := (s.e &&& s.f) ^^^ (~~~s.e &&& s.g)
  let t1 := s.h + s1 + choice + k + w
  let s0 := rotate s.a 2 ^^^ rotate s.a 13 ^^^ rotate s.a 22
  let majority := (s.a &&& s.b) ^^^ (s.a &&& s.c) ^^^ (s.b &&& s.c)
  ⟨t1 + s0 + majority, s.a, s.b, s.c, s.d + t1, s.e, s.f, s.g⟩

/-- One block. -/
def State.absorb (s : State) (message : ByteArray) (block : Nat) : State :=
  let w := schedule message block
  let r := Nat.fold 64 (fun t _ r => State.round r (roundConstants.getD t 0) (w.getD t 0)) s
  ⟨s.a + r.a, s.b + r.b, s.c + r.c, s.d + r.d, s.e + r.e, s.f + r.f, s.g + r.g, s.h + r.h⟩

/-- The digest of a message. -/
def ofBytes (message : ByteArray) : State :=
  Nat.fold (blockCount message.size) (fun block _ s => State.absorb s message block) initial

/-! ## The short name of a content -/

/-- A word in eight hexadecimal digits. -/
def hexWord (w : UInt32) : List Char :=
  (List.range 8).map fun i =>
    let d := w.toNat / Nat.pow 16 (7 - i) % 16
    Char.ofNat (if d < 10 then 48 + d else 87 + d)

/-- The first sixteen hexadecimal digits of the digest of a content. -/
def short (content : ByteArray) : String :=
  let s := ofBytes content
  String.ofList (hexWord s.a ++ hexWord s.b)

end Stylesheet.Digest
