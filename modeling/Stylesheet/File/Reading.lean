/-
Reading the file of a stylesheet.

A file is tried as UTF-8 first, then in the encoding that a detector guesses from its first
octets, if the detector is certain enough and guesses something new, and as Latin-1 last.
What the guess is good for depends on the encodings that are known by name. Byte order marks
at the start of the text are left out. A file larger than the limit is not read at all.
-/
import Stylesheet.File.Codec
import Stylesheet.File.Digest
import Stylesheet.File.Path
import Stylesheet.Json.Literal

set_option autoImplicit false

namespace Stylesheet

/-- What is found under a path. -/
inductive Entry where
  | file (content : ByteArray)
  | directory

/-- What a detector guesses of a file's encoding. -/
structure Detection where
  encoding : Option String
  confidence : Number
  deriving DecidableEq, Repr

/-- Why a file is not read. -/
inductive ReadError where
  | missing (path : Path)
  | tooLarge (size : Nat)
  | isDirectory (path : Path)
  | undecodable (path : Path)
  /-- The encoding that was guessed broke the reading off. -/
  | broken (reason : String)
  deriving DecidableEq, Repr

/-- What is said about it. -/
def ReadError.message : ReadError → String
  | .missing path =>
    "Cannot read file stats: [Errno 2] No such file or directory: " ++ Json.literalText path.toText
  | .tooLarge size => "File too large: " ++ toString size ++ " bytes"
  | .isDirectory path => "[Errno 21] Is a directory: " ++ Json.literalText path.toText
  | .undecodable path => "Unable to decode " ++ path.toText
  | .broken reason => reason

/-- A file that has been read. -/
structure Content where
  text : String
  hash : String
  size : Nat
  deriving DecidableEq, Repr

namespace Content

/-! ## The encoding -/

/-- The most octets that the detector is shown. -/
def sampleSize : Nat := 8192

/-- The octets that the detector is shown. -/
def sample (content : ByteArray) : ByteArray :=
  content.extract 0 sampleSize

/-- A guess counts if its confidence is greater. -/
def certainty : Binary64 := .ofDecimal false 7 (-1)

/-- The names of encodings that are tried anyway. -/
def triedAnyway : List String := ["ascii", "utf-8", "utf-8-sig", "latin-1"]

/-- What is tried because of a guess. -/
def guessed? (known : Encodings) (d : Detection) : Option (List UInt8 → Attempt) :=
  match d.encoding with
  | none => none
  | some encoding =>
    let name := Text.lower encoding
    if encoding ≠ "" ∧ d.confidence.exceeds certainty ∧ !triedAnyway.contains name then
      known name
    else none

/-- What is tried, in order. -/
def candidates (known : Encodings) (d : Detection) : List (List UInt8 → Attempt) :=
  Codec.utf8.attempt :: ((guessed? known d).toList ++ [Codec.latin1.attempt])

/-- A text without byte order marks at its start. -/
def withoutMarks (cs : List Char) : List Char :=
  cs.dropWhile (· == '\uFEFF')

/-- What comes of the first attempt that does not refuse the octets. -/
def tryInOrder (octets : List UInt8) : List (List UInt8 → Attempt) → Attempt
  | [] => .refused
  | attempt :: rest =>
    match attempt octets with
    | .read cs => .read (withoutMarks cs)
    | .refused => tryInOrder octets rest
    | .broken reason => .broken reason

/-- The characters of a file, without byte order marks at the start. -/
def decode (known : Encodings) (d : Detection) (octets : List UInt8) : Attempt :=
  tryInOrder octets (candidates known d)

/-! ## Reading -/

/-- Reads what is under a path, where encodings are known by name. -/
def readWith (known : Encodings) (path : Path) (entry : Option Entry) (maxSize : Int)
    (detect : ByteArray → Detection) : Except ReadError Content :=
  match entry with
  | none => .error (.missing path)
  | some .directory => .error (.isDirectory path)
  | some (.file content) =>
    if maxSize < content.size then .error (.tooLarge content.size)
    else
      match decode known (detect (sample content)) content.data.toList with
      | .read cs => .ok ⟨String.ofList cs, Digest.short content, content.size⟩
      | .refused => .error (.undecodable path)
      | .broken reason => .error (.broken reason)

/-- Reads what is under a path. -/
def read (path : Path) (entry : Option Entry) (maxSize : Int)
    (detect : ByteArray → Detection) : Except ReadError Content :=
  readWith .standard path entry maxSize detect

end Content

end Stylesheet
