/-
The file `.env`: variables that are kept beside a project.

The file is a sequence of bindings, each a name with perhaps a sign of equality and a value after
it. A value without quotes ends with its line or before a comment; a value in quotes may go over
several lines, and a few characters are escaped in it by a backslash. A line that is no binding
is passed over from where it stops being one, and what follows is read as if it were not there.

In a value, `${name}` stands for the value of another variable, one of the file before one of the
environment, and `${name:-text}` for the text if there is no such variable.
-/
import Stylesheet.Options.Environment
import Stylesheet.Text.Blank

set_option autoImplicit false

namespace Stylesheet.Dotenv

open Stylesheet.Text

/-! ## Lines -/

/-- The text with every end of a line written as one line feed. -/
def withLineFeeds : List Char → List Char
  | '\r' :: '\n' :: cs => '\n' :: withLineFeeds cs
  | '\r' :: cs => '\n' :: withLineFeeds cs
  | c :: cs => c :: withLineFeeds cs
  | [] => []

/-- Whether a character is blank and does not end a line. -/
def isInnerBlank (c : Char) : Bool := isBlank c && c != '\n'

/-- The text after the blanks of a line. -/
def skipBlanks (cs : List Char) : List Char := cs.dropWhile isInnerBlank

/-- The text after the end of the line. -/
def skipLine (cs : List Char) : List Char := (cs.dropWhile (· != '\n')).tail

/-- The text after the word `export` and the blanks that part it from a name. -/
def skipExport (cs : List Char) : List Char :=
  if "export".toList.isPrefixOf cs then
    match cs.drop 6 with
    | c :: rest => if isInnerBlank c then skipBlanks rest else cs
    | [] => cs
  else cs

/-- A part of the text that has been read with the text after it, or the text from which on
nothing could be read. -/
abbrev Reading (α : Type) := Except (List Char) (α × List Char)

/-! ## Names -/

/-- Whether a character can stand in a name without quotes. -/
def isNameChar (c : Char) : Bool := !isBlank c && c != '=' && c != '#'

/-- A name, which may stand in single quotes. -/
def readName (cs : List Char) : Reading String :=
  match cs with
  | '\'' :: rest =>
    match rest.takeWhile (· != '\''), rest.dropWhile (· != '\'') with
    | c :: quoted, _ :: after => .ok (String.ofList (c :: quoted), after)
    | _, _ => .error cs
  | _ =>
    match cs.takeWhile isNameChar with
    | [] => .error cs
    | c :: plain => .ok (String.ofList (c :: plain), cs.dropWhile isNameChar)

/-! ## Values -/

/-- The text before the quote that closes a value, and the text after that quote. The first quote
without a backslash before it closes the value, or else the last quote. -/
def closeAt (quote : Char) (afterBackslash : Bool) : List Char → Option (List Char × List Char)
  | [] => none
  | c :: cs =>
    if c = quote ∧ !afterBackslash then some ([], cs)
    else
      match closeAt quote (c == '\\') cs with
      | some (quoted, after) => some (c :: quoted, after)
      | none => if c = quote then some ([], cs) else none

/-- The text with every escape replaced that is in the table. -/
def unescape (escapes : List (Char × Char)) : List Char → List Char
  | '\\' :: c :: cs =>
    match escapes.lookup c with
    | some meant => meant :: unescape escapes cs
    | none => '\\' :: unescape escapes (c :: cs)
  | c :: cs => c :: unescape escapes cs
  | [] => []

/-- The escapes between single quotes. -/
def singleEscapes : List (Char × Char) := [('\\', '\\'), ('\'', '\'')]

/-- The escapes between double quotes. -/
def doubleEscapes : List (Char × Char) :=
  singleEscapes ++ [('"', '"'), ('a', '\x07'), ('b', '\x08'), ('f', '\x0c'), ('n', '\n'),
    ('r', '\r'), ('t', '\t'), ('v', '\x0b')]

/-- A text without the comment that starts at a hash after a blank. -/
def withoutComment (afterBlank : Bool) : List Char → List Char
  | [] => []
  | c :: cs => if c = '#' ∧ afterBlank then [] else c :: withoutComment (isBlank c) cs

/-- A value between quotes, of which the first has been read. -/
def quotedValue (quote : Char) (escapes : List (Char × Char)) (cs : List Char) :
    Reading (List Char) :=
  match closeAt quote false cs with
  | some (quoted, after) => .ok (unescape escapes quoted, after)
  | none => .error cs

/-- A value, with quotes or without. -/
def readValue (cs : List Char) : Reading (List Char) :=
  match cs with
  | '\'' :: rest => quotedValue '\'' singleEscapes rest
  | '"' :: rest => quotedValue '"' doubleEscapes rest
  | _ =>
    let line := cs.takeWhile (· != '\n')
    .ok (trimEndBy isBlank (withoutComment false line), cs.dropWhile (· != '\n'))

/-! ## Bindings -/

/-- A name and the value bound to it; a name may stand alone. -/
structure Binding where
  name : String
  value : Option (List Char)

/-- The end of a line with nothing but a comment before it. -/
def lineEnd (cs : List Char) : Reading Unit :=
  match skipBlanks cs with
  | [] => .ok ((), [])
  | c :: rest =>
    if c = '\n' then .ok ((), rest)
    else if c = '#' then .ok ((), skipLine rest)
    else .error cs

/-- The value after a sign of equality, if there is one. -/
def assigned (cs : List Char) : Reading (Option (List Char)) :=
  match cs with
  | '=' :: rest => (readValue (skipBlanks rest)).map fun read => (some read.1, read.2)
  | _ => .ok (none, cs)

/-- A binding up to the end of its line. -/
def binding (cs : List Char) : Reading Binding :=
  match readName cs with
  | .error stop => .error stop
  | .ok (name, cs) =>
    match assigned (skipBlanks cs) with
    | .error stop => .error stop
    | .ok (value, cs) => (lineEnd cs).map fun read => (⟨name, value⟩, read.2)

/-- The binding that a text starts with, if it does, and the text to go on with. -/
def firstBinding (cs : List Char) : Option Binding × List Char :=
  let cs := skipExport cs
  if cs.head? = some '#' then (none, skipLine cs)
  else
    match binding cs with
    | .ok (b, rest) => (some b, rest)
    | .error rest => (none, skipLine rest)

/-! ## Reading goes forward -/

/-- The text that is left after reading, or where reading stopped. -/
def left {α : Type} : Reading α → List Char
  | .ok (_, rest) => rest
  | .error stop => stop

theorem left_map {α β : Type} (f : α → β) (r : Reading α) :
    left (r.map fun read => (f read.1, read.2)) = left r := by
  cases r <;> rfl

theorem length_dropWhile_le {α : Type} (p : α → Bool) (xs : List α) :
    (xs.dropWhile p).length ≤ xs.length :=
  (List.dropWhile_suffix p).length_le

/-- A line, even one that has only its end, takes a character of the text. -/
theorem length_skipLine (cs : List Char) : (skipLine cs).length ≤ cs.length - 1 := by
  have := length_dropWhile_le (· != '\n') cs
  simp only [skipLine, List.length_tail]
  omega

theorem length_skipExport (cs : List Char) : (skipExport cs).length ≤ cs.length := by
  unfold skipExport
  split
  · split
    · rename_i c rest h
      have h := congrArg List.length h
      have := length_dropWhile_le isInnerBlank rest
      simp only [List.length_drop, List.length_cons] at h
      split
      · simp only [skipBlanks]
        omega
      · omega
    · omega
  · omega

/-- A name takes at least one character. -/
theorem length_of_readName {cs rest : List Char} {s : String} (h : readName cs = .ok (s, rest)) :
    rest.length < cs.length := by
  unfold readName at h
  split at h
  · rename_i quoted
    split at h
    · rename_i c name q after _ hd
      obtain ⟨-, rfl⟩ := Prod.mk.inj (Except.ok.inj h)
      have hd := congrArg List.length hd
      have := length_dropWhile_le (· != '\'') quoted
      simp only [List.length_cons] at hd ⊢
      omega
    · simp at h
  · split at h
    · simp at h
    · rename_i c plain ht
      obtain ⟨-, rfl⟩ := Prod.mk.inj (Except.ok.inj h)
      have ht := congrArg List.length ht
      have := congrArg List.length (List.takeWhile_append_dropWhile (p := isNameChar) (l := cs))
      simp only [List.length_append, List.length_cons] at ht this
      omega

/-- Where no name can be read, reading stays where it is. -/
theorem eq_of_readName_error {cs stop : List Char} (h : readName cs = .error stop) :
    stop = cs := by
  unfold readName at h
  split at h
  · split at h
    · simp at h
    · exact (Except.error.inj h).symm
  · split at h
    · exact (Except.error.inj h).symm
    · simp at h

theorem length_of_closeAt {quote : Char} {b : Bool} {cs quoted after : List Char}
    (h : closeAt quote b cs = some (quoted, after)) : after.length < cs.length := by
  induction cs generalizing b quoted with
  | nil => simp [closeAt] at h
  | cons c cs ih => grind [closeAt]

theorem length_left_readValue (cs : List Char) : (left (readValue cs)).length ≤ cs.length := by
  have quoted : ∀ q table rest, (left (quotedValue q table rest)).length ≤ rest.length := by
    intro q table rest
    unfold quotedValue
    split
    · rename_i h
      exact Nat.le_of_lt (length_of_closeAt h)
    · exact Nat.le_refl _
  unfold readValue
  split
  · exact Nat.le_succ_of_le (quoted _ _ _)
  · exact Nat.le_succ_of_le (quoted _ _ _)
  · exact length_dropWhile_le _ _

theorem length_left_assigned (cs : List Char) : (left (assigned cs)).length ≤ cs.length := by
  unfold assigned
  split
  · rename_i rest
    rw [left_map (fun v => some v)]
    have := length_left_readValue (skipBlanks rest)
    have : (skipBlanks rest).length ≤ rest.length := length_dropWhile_le _ _
    simp only [List.length_cons]
    omega
  · exact Nat.le_refl _

theorem length_left_lineEnd (cs : List Char) : (left (lineEnd cs)).length ≤ cs.length := by
  have blanks : (skipBlanks cs).length ≤ cs.length := length_dropWhile_le _ _
  unfold lineEnd
  split
  · exact Nat.zero_le _
  · rename_i c rest h
    have line := length_skipLine rest
    rw [h, List.length_cons] at blanks
    split
    · simp only [left]
      omega
    · split <;> simp only [left] <;> omega

/-- Reading a binding goes forward, if only by a character, or fails where it began. -/
theorem length_left_binding (cs : List Char) :
    (left (binding cs)).length < cs.length ∨ binding cs = .error cs := by
  unfold binding
  split
  · rename_i stop h
    exact Or.inr (congrArg _ (eq_of_readName_error h))
  · rename_i name rest h
    have := length_of_readName h
    have value := length_left_assigned (skipBlanks rest)
    have : (skipBlanks rest).length ≤ rest.length := length_dropWhile_le _ _
    refine Or.inl ?_
    split
    · rename_i stop hv
      rw [hv] at value
      simp only [left] at value ⊢
      omega
    · rename_i v after hv
      rw [hv] at value
      rw [left_map (fun _ => (⟨name, v⟩ : Binding))]
      have := length_left_lineEnd after
      simp only [left] at value
      omega

/-- The first binding, or the line that is none, takes a character of the text. -/
theorem length_firstBinding {cs : List Char} (h : cs ≠ []) :
    (firstBinding cs).2.length < cs.length := by
  have some := List.length_pos_iff.2 h
  have word := length_skipExport cs
  unfold firstBinding
  simp only
  split
  · have := length_skipLine (skipExport cs)
    simp only
    omega
  · have forward := length_left_binding (skipExport cs)
    split
    · rename_i b rest hb
      simp only [hb, left, reduceCtorEq, or_false] at forward
      simp only
      omega
    · rename_i stop hb
      have line := length_skipLine stop
      have : stop.length ≤ (skipExport cs).length := by
        rcases forward with h | h
        · simpa [hb, left] using Nat.le_of_lt h
        · exact Nat.le_of_eq (congrArg List.length (Except.error.inj (hb.symm.trans h)))
      simp only
      omega

/-! ## The whole file -/

/-- All bindings of a text, in order. -/
def bindings (cs : List Char) : List Binding :=
  match cs.dropWhile isBlank, length_dropWhile_le isBlank cs with
  | [], _ => []
  | c :: rest, blanks =>
    let first := firstBinding (c :: rest)
    have : first.2.length < cs.length :=
      Nat.lt_of_lt_of_le (length_firstBinding (List.cons_ne_nil c rest)) blanks
    first.1.toList ++ bindings first.2
termination_by cs.length

/-! ## Values that name others -/

/-- A reference at the start of a text to the value of another variable: its name, the text for
want of it, and the number of characters of the reference. -/
def reference? : List Char → Option (String × List Char × Nat)
  | '$' :: '\x7b' :: cs =>
    let name := cs.takeWhile fun c => c != '\x7d' && c != ':'
    match cs.drop name.length with
    | '\x7d' :: _ => some (String.ofList name, [], name.length + 3)
    | ':' :: '-' :: rest =>
      let text := rest.takeWhile (· != '\x7d')
      if text.length < rest.length then
        some (String.ofList name, text, name.length + text.length + 5)
      else none
    | _ => none
  | _ => none

/-- A text with every reference in it replaced by what it means. The first argument counts the
characters of a reference that are still to be passed over. -/
def expand (meaning : String → List Char → List Char) : Nat → List Char → List Char
  | _, [] => []
  | skip + 1, _ :: cs => expand meaning skip cs
  | 0, c :: cs =>
    match reference? (c :: cs) with
    | some (name, text, length) => meaning name text ++ expand meaning (length - 1) cs
    | none => c :: expand meaning 0 cs

/-- The names that a file binds. A name that stands alone has no value, and neither has one whose
last binding is such. -/
abbrev Variables := Assoc String (Option String)

/-- What a reference means: the value of a variable of the file, or one of the environment, or
else the text. A name of the file that has no value means nothing. -/
def meaning (found : Variables) (env : Environment) (name : String) (text : List Char) :
    List Char :=
  match Assoc.get? found name with
  | some value => (value.getD "").toList
  | none =>
    match Assoc.get? env name with
    | some value => value.toList
    | none => text

/-- The variables that a file binds. A name that is bound again keeps its place. -/
def read (env : Environment) (text : String) : Variables :=
  (bindings (withLineFeeds text.toList)).foldl (fun found b =>
    Assoc.put found b.name
      (b.value.map fun cs => String.ofList (expand (meaning found env) 0 cs))) []

end Stylesheet.Dotenv
