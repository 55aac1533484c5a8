/-
Settings: defaults that come from outside a project.

A setting is taken from where it is found first: the settings given, the environment, the
file `.env`, its standard value. Names may be written in any case; in the environment and in the
file they have the prefix CSS_SOURCE_. Names that are not known are left alone.
-/
import Stylesheet.Options.Basic
import Stylesheet.Options.Dotenv

set_option autoImplicit false

namespace Stylesheet

/-! ## Levels of logging -/

/-- How much is logged. -/
inductive LogLevel where
  | debug
  | info
  | warning
  | error
  | critical
  deriving DecidableEq, Repr

/-- The name of a level. -/
def LogLevel.name : LogLevel → String
  | .debug => "DEBUG"
  | .info => "INFO"
  | .warning => "WARNING"
  | .error => "ERROR"
  | .critical => "CRITICAL"

/-- The level that a name stands for. -/
def LogLevel.ofName? (name : String) : Option LogLevel :=
  [.debug, .info, .warning, .error, .critical].find? fun level => level.name == name

/-- The level that a value stands for: a text between blanks, in any case. -/
def LogLevel.ofJson : Json → Except FieldProblem LogLevel
  | .string s =>
    match ofName? (Text.upper (Text.strip s)) with
    | some level => .ok level
    | none => .error .stringPattern
  | _ => .error .stringType

/-! ## Settings -/

/-- Defaults that come from outside a project. -/
structure Settings where
  tolerant : Bool
  maxFileSize : Megabytes
  logLevel : LogLevel
  deriving DecidableEq

namespace Settings

/-- The names of the settings. -/
def tolerantField : String := "default_tolerant"

@[inherit_doc tolerantField]
def maxFileSizeField : String := "max_file_size_mb"

@[inherit_doc tolerantField]
def logLevelField : String := "log_level"

/-- The settings when nothing is given. -/
def standard : Settings where
  tolerant := false
  maxFileSize := .standard
  logLevel := .info

/-- Where settings are looked for. -/
structure Sources where
  given : Fields
  env : Environment
  dotenv : Dotenv.Variables

/-- The value of a setting, from where it is found first. -/
def Sources.find? (sources : Sources) (field : String) : Option Json :=
  let name := "css_source_" ++ field
  Assoc.getAnyCase? sources.given field
    <|> (Assoc.getAnyCase? sources.env name).map .string
    <|> (Assoc.getAnyCase? sources.dotenv name).join.map .string

/-- One setting, by its rule. -/
def Sources.field {α : Type} (sources : Sources) (name : String) (standard : α)
    (rule : Json → Except FieldProblem α) : Except (List FieldError) α :=
  match sources.find? name with
  | none => .ok standard
  | some value =>
    match rule value with
    | .ok x => .ok x
    | .error problem => .error [⟨name, problem⟩]

/-- The settings that are found. All that is wrong is reported. -/
def ofSources (sources : Sources) : Except (List FieldError) Settings :=
  let tolerant := sources.field tolerantField standard.tolerant laxBool
  let maxFileSize := sources.field maxFileSizeField standard.maxFileSize Megabytes.ofJson
  let logLevel := sources.field logLevelField standard.logLevel LogLevel.ofJson
  match tolerant, maxFileSize, logLevel with
  | .ok tolerant, .ok maxFileSize, .ok logLevel => .ok ⟨tolerant, maxFileSize, logLevel⟩
  | tolerant, maxFileSize, logLevel =>
    .error (OptionsPatch.problems tolerant ++ OptionsPatch.problems maxFileSize
      ++ OptionsPatch.problems logLevel)

/-- The settings of an environment alone. -/
def ofEnvironment (env : Environment) : Except (List FieldError) Settings :=
  ofSources ⟨[], env, []⟩

/-- The options that the settings stand for. -/
def options (s : Settings) : Options where
  tolerant := s.tolerant
  maxFileSize := s.maxFileSize

end Settings

/-! ## Logging -/

/-- What logging is set up with. -/
structure LogSetup where
  level : Nat
  format : String
  deriving DecidableEq, Repr

namespace LogSetup

/-- The number of the level that a name stands for; that of INFO for any other name. -/
def levelNumber (name : String) : Nat :=
  match [("CRITICAL", 50), ("FATAL", 50), ("ERROR", 40), ("WARNING", 30), ("WARN", 30),
      ("INFO", 20), ("DEBUG", 10), ("NOTSET", 0)].lookup (Text.upper name) with
  | some n => n
  | none => 20

/-- The format of a logged line. -/
def lineFormat : String := "%(asctime)s - %(name)s - %(levelname)s - %(message)s"

/-- The setup for a level by name. -/
def ofName (name : String) : LogSetup := ⟨levelNumber name, lineFormat⟩

/-- The setup for a level by name, or, without one, for the level of the settings. Where
no settings are given either, those of the environment are used. -/
def choose (level : Option String) (settings : Option Settings) (env : Environment) :
    Except (List FieldError) LogSetup :=
  match level, settings with
  | some name, _ => .ok (ofName name)
  | none, some s => .ok (ofName s.logLevel.name)
  | none, none => (Settings.ofEnvironment env).map fun s => ofName s.logLevel.name

end LogSetup

end Stylesheet
