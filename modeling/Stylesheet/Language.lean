/-
The language: reading texts and files of stylesheets with a grammar and with options.

The grammar gives the concrete tree of a text, or none. Options may be given with each
reading; what they leave out is as the language has it.
-/
import Stylesheet.Concrete.Fault
import Stylesheet.Concrete.Items
import Stylesheet.File.Reading
import Stylesheet.Node.Numbering
import Stylesheet.Options.Basic
import Stylesheet.Parsed

set_option autoImplicit false

namespace Stylesheet

/-! ## Options given from outside -/

/-- Options as they can be given. -/
inductive OptionsInput where
  | nothing
  | fields (given : Fields)
  | patch (patch : OptionsPatch)

/-- What is wrong with options. -/
inductive OptionsError where
  /-- The field for tolerance is given and is neither true nor false. -/
  | notBoolean
  | invalid (errors : List FieldError)
  deriving DecidableEq, Repr

/-- What is said about a tolerance that is neither true nor false. -/
def OptionsError.notBooleanMessage : String :=
  "Expected a boolean value for 'tolerant' option."

/-- The patch that the given options make. -/
def OptionsInput.toPatch : OptionsInput → Except OptionsError OptionsPatch
  | .nothing => .ok ⟨none, none⟩
  | .patch p => .ok p
  | .fields given =>
    let invalid : Except OptionsError OptionsPatch :=
      match OptionsPatch.ofFields given with
      | .ok p => .ok p
      | .error errors => .error (.invalid errors)
    match Assoc.get? given Options.tolerantField with
    | none => invalid
    | some (.bool _) => invalid
    | some _ => .error .notBoolean

/-! ## Grammars -/

/-- Why there is no grammar for a language. -/
inductive GrammarError where
  | unsupported (language : String)
  /-- The module of the grammar has no name. -/
  | unnamed (language : String)
  | notInstalled (module : String)
  deriving DecidableEq, Repr

/-- What is said about it. -/
def GrammarError.message : GrammarError → String
  | .unsupported language => "Unsupported language: " ++ language
  | .unnamed language => "Cannot initialize " ++ language ++ " parser: Empty module name"
  | .notInstalled module =>
    "Tree-sitter language module '" ++ module ++ "' not installed. Install with: pip install "
      ++ String.ofList (module.toList.map fun c => if c = '_' then '-' else c)

namespace Grammar

/-- The modules that hold the grammars of languages. -/
def modules : Assoc String String := [("css", "tree_sitter_css")]

/-- The modules that are there. -/
def installed : List String := ["tree_sitter_css"]

/-- The module of the grammar of a language, where some languages have other modules. -/
def find (others : Assoc String String) (language : String) : Except GrammarError String :=
  match Assoc.get? (Assoc.merge modules others) language with
  | none => .error (.unsupported language)
  | some module =>
    if module = "" then .error (.unnamed language)
    else if installed.contains module then .ok module
    else .error (.notInstalled module)

end Grammar

/-! ## Reading -/

/-- A grammar, and the options that are given for what is not said otherwise. -/
structure Language where
  grammar : String → Option Concrete
  given : OptionsPatch

/-- Why reading a text has no result. -/
inductive ParseError where
  | options (reason : OptionsError)
  /-- The grammar gave no tree. -/
  | noTree
  | tree (reason : TreeError)
  deriving DecidableEq, Repr

/-- What is said about the grammar giving no tree. -/
def ParseError.noTreeMessage : String := "Tree-sitter parsing failed"

namespace Language

/-- The version of the reader. -/
def version : String := "1.0.0"

/-- The language with the given options for its defaults. -/
def ofInput (grammar : String → Option Concrete) (input : OptionsInput) :
    Except OptionsError Language :=
  input.toPatch.map fun p => ⟨grammar, p⟩

/-- The options for what is not said otherwise. -/
def defaults (language : Language) : Options :=
  Options.standard.patch language.given

/-- The options for one reading. -/
def resolve (language : Language) (input : OptionsInput) : Except OptionsError Options :=
  input.toPatch.map language.defaults.patch

/-- The options for one reading, as they are handed on to another. Where nothing is given they
are those of the language, with the same fields given; otherwise all their fields are given. -/
def handOn (language : Language) (input : OptionsInput) (options : Options) : OptionsInput :=
  match input with
  | .nothing => .patch language.given
  | .fields _ | .patch _ => .patch options.toPatch

/-- The result of reading a text, with its errors as they are found. -/
def parseText (grammar : String → Option Concrete) (text : String) (path : Option Path) :
    Except ParseError (Parsed Diagnostic) :=
  match grammar text with
  | none => .error .noTree
  | some c =>
    let src := Source.ofText text
    let made : Made (Node × List Node) := do
      let tree ← c.stylesheet src
      let comments ← c.comments src
      return (tree, comments)
    match made with
    | .error reason => .error (.tree reason)
    | .ok (tree, comments) =>
      let blank : Parsed Diagnostic := .blank path
      .ok { blank with
        text := text
        tree := some tree.numbered
        comments := comments
        size := src.octets.length
        hash := Digest.short ⟨src.octets.toArray⟩
        version := version
        errors := c.diagnostics src }

/-- Reads a text. -/
def parse (language : Language) (text : String) (path : Option Path) (input : OptionsInput) :
    Except ParseError (Parsed Diagnostic) :=
  match language.resolve input with
  | .error reason => .error (.options reason)
  | .ok options =>
    (parseText language.grammar text path).map fun r => r.settle options.tolerant

/-- Reads a file. If it cannot be read, the result says so in its errors. -/
def parseFile (language : Language) (path : Path) (entry : Option Entry)
    (detect : ByteArray → Detection) (input : OptionsInput) :
    Except ParseError (Parsed Diagnostic) :=
  match language.resolve input with
  | .error reason => .error (.options reason)
  | .ok options =>
    match Content.read path entry options.maxFileBytes detect with
    | .error reason =>
      .ok ((Parsed.blank (some path)).addError (Diagnostic.ofUnreadable reason.message))
    | .ok content =>
      (language.parse content.text (some path) (language.handOn input options)).map fun r =>
        { r with hash := content.hash, size := content.size }

end Language

end Stylesheet
