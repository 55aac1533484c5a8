/-
Environments: the variables that a program is started with.

The names of variables are told apart by the case of their letters. Whoever looks for a name in
any case gets the variable that comes last under one of its spellings.
-/
import Stylesheet.Assoc
import Stylesheet.Text.Letter

set_option autoImplicit false

namespace Stylesheet

/-- The value under the last key that is the given one in small letters. -/
def Assoc.getAnyCase? {α : Type} (entries : Assoc String α) (key : String) : Option α :=
  (entries.reverse.find? fun e => Text.lower e.1 == key).map (·.2)

/-- The variables of an environment; no name comes twice. -/
abbrev Environment := Assoc String String

/-- The environment with a variable set, or without it. -/
def Environment.set (env : Environment) (name : String) (value : Option String) : Environment :=
  match value with
  | some value => Assoc.put env name value
  | none => Assoc.erase env name

end Stylesheet
