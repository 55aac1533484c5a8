/-
The options of projects.

A project is a directory. Its options stand in a configuration file; what the file leaves
out is standard, and variables of the environment go before it. A file that is not as it
should be counts for nothing: then, as without a file, the settings are used, again after
the environment.

A loader keeps the options of every project that it has loaded or saved, so that a project
is looked at once until the loader is cleared.
-/
import Stylesheet.Json.Reader
import Stylesheet.Project.FileTree
import Stylesheet.Project.Override

set_option autoImplicit false

namespace Stylesheet

/-! ## What a configuration says -/

namespace Configuration

/-- The name of the configuration file of a project. -/
def fileName : String := ".css-source.json"

/-- The version that is written into a configuration file. -/
def version : String := "1.0.0"

/-- The key under which a configuration holds options. -/
def optionsKey : String := "language_options"

/-- The variables that go before a configuration, and where in it their values belong. -/
def overriding : List (String × String) :=
  [("CSS_SOURCE_DEFAULT_TOLERANT", "language_options.tolerant"),
   ("CSS_SOURCE_MAX_FILE_SIZE_MB", "language_options.max_file_size_mb")]

/-- The configuration with the variables that are set put into it. -/
def override (env : Environment) (document : Json) : Except NotAnObject Json :=
  overriding.foldlM (fun document (entry : String × String) =>
    match Assoc.get? env entry.1 with
    | some text => document.override entry.2 text
    | none => .ok document) document

/-- The fields of options that a configuration gives, if it gives them as an object. -/
def givenOptions? : Json → Option Fields
  | .object fields =>
    match (Assoc.get? fields optionsKey).getD (.object []) with
    | .object given => some given
    | _ => none
  | _ => none

/-- The options of the settings, after the environment. -/
def ofSettings (settings : Settings) (env : Environment) : Except (List FieldError) Options :=
  let document : Json := .object [(optionsKey, .object settings.options.fields)]
  let given := (override env document).toOption.bind givenOptions?
  Options.ofFields (given.getD [])

/-- The options that the content of a configuration file gives, after the environment, if
it is as it should be. -/
def ofContent? (env : Environment) (content : ByteArray) : Option Options := do
  let text ← Text.Utf8.decode? content.data.toList
  match ← Json.ofText? (String.ofList text) with
  | .object fields =>
    let document ← (override env (.object fields)).toOption
    let given ← givenOptions? document
    (Options.ofFields (Assoc.merge Options.standard.fields given)).toOption
  | _ => none

/-- The document that a configuration file holds for options. -/
def document (options : Options) : Json :=
  .object [("version", .string version), (optionsKey, .object options.fields)]

end Configuration

/-! ## The loader -/

/-- Why the options of a project are not loaded. -/
inductive LoadError where
  /-- The name of the configuration file is that of a directory. -/
  | isDirectory
  /-- The settings and the environment together make no options. -/
  | invalid (errors : List FieldError)
  deriving DecidableEq, Repr

/-- Why a field of the options of a project is not set. -/
inductive AssignError where
  | load (reason : LoadError)
  | set (reason : SetError)
  deriving DecidableEq, Repr

/-- Settings, and the options of the projects that are known. -/
structure Loader where
  settings : Settings
  cache : Assoc Place Options

namespace Loader

/-- A loader that knows no projects yet. -/
def ofSettings (settings : Settings) : Loader := ⟨settings, []⟩

/-- The place of the configuration file of a project. -/
def configFile (project : Place) : Place :=
  project ++ [Configuration.fileName]

/-- The options of a project, as its file, the settings and the environment give them now. -/
def current (settings : Settings) (tree : FileTree) (env : Environment) (project : Place) :
    Except LoadError Options :=
  let fallback : Except LoadError Options :=
    match Configuration.ofSettings settings env with
    | .ok options => .ok options
    | .error errors => .error (.invalid errors)
  match tree.find? (configFile project) with
  | some .directory => .error .isDirectory
  | some (.file content) =>
    match Configuration.ofContent? env content with
    | some options => .ok options
    | none => fallback
  | none => fallback

/-- The options of a project: those that are known, or else the current ones, which are
then known. -/
def load (loader : Loader) (tree : FileTree) (env : Environment) (project : Place) :
    Except LoadError Options × Loader :=
  match Assoc.get? loader.cache project with
  | some options => (.ok options, loader)
  | none =>
    match current loader.settings tree env project with
    | .ok options => (.ok options, { loader with cache := Assoc.put loader.cache project options })
    | .error reason => (.error reason, loader)

/-- Writes the configuration file of a project. If that succeeds, the options are known, under
the directory that the file lies in. -/
def save (loader : Loader) (tree : FileTree) (project : Place) (options : Options) :
    Bool × FileTree × Loader :=
  let file := configFile project
  let text := (Configuration.document options).toDocument
  match tree.write file text.toUTF8 with
  | .ok tree => (true, tree, { loader with cache := Assoc.put loader.cache file.dropLast options })
  | .error _ => (false, tree, loader)

/-- The loader without what it knows. -/
def clear (loader : Loader) : Loader := { loader with cache := [] }

/-- Loads the options of a project and sets a field of them, in what is known as well. -/
def assign (loader : Loader) (tree : FileTree) (env : Environment) (project : Place)
    (field : String) (value : Json) : Except AssignError Options × Loader :=
  match loader.load tree env project with
  | (.ok options, loader) =>
    match options.set field value with
    | .ok options => (.ok options, { loader with cache := Assoc.put loader.cache project options })
    | .error reason => (.error (.set reason), loader)
  | (.error reason, loader) => (.error (.load reason), loader)

/-- Loads two projects, and says whether one entry of what is known answers both. -/
def loadBoth (loader : Loader) (tree : FileTree) (env : Environment) (first second : Place) :
    Except LoadError Bool × Loader :=
  match loader.load tree env first with
  | (.ok _, loader) =>
    match loader.load tree env second with
    | (.ok _, loader) => (.ok (first == second), loader)
    | (.error reason, loader) => (.error reason, loader)
  | (.error reason, loader) => (.error reason, loader)

end Loader

end Stylesheet
