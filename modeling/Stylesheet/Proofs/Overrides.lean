/-
Variables of the environment over the options of a configuration.

A configuration is a document, and the variables are put into it under paths of keys before the
options in it are looked at. What comes out does not depend on the document: it is the fields that
the document gives, if it gives any, with the values of the variables put over them
(`given_override`). This holds also where putting fails on the way, since a value on the way that
is not an object gives no fields either.

So laying the environment over options is a function of options alone (`underEnvironment`). It
looks at each of the two fields by itself: the field has the value of its variable if that is set,
by the rule of the field, and else the value that it had (`underEnvironment_eq_ok`).
-/
import Stylesheet.Project.Loader
import Stylesheet.Proofs.Numerals

set_option autoImplicit false

namespace Stylesheet.Configuration

/-! ## Fields with values of variables -/

/-- The variable that goes before the tolerance of a configuration. -/
def tolerantVariable : String := "CSS_SOURCE_DEFAULT_TOLERANT"

/-- The variable that goes before the limit of a configuration. -/
def maxFileSizeVariable : String := "CSS_SOURCE_MAX_FILE_SIZE_MB"

/-- Fields with the value of a variable put over one of them, if the variable is set. -/
def putVariable (env : Environment) (name field : String) (given : Fields) : Fields :=
  match Assoc.get? env name with
  | some text => Assoc.put given field (EnvValue.ofText text).toJson
  | none => given

/-- Fields of options with the values of all variables put over them. -/
def overridden (env : Environment) (given : Fields) : Fields :=
  putVariable env maxFileSizeVariable Options.maxFileSizeField
    (putVariable env tolerantVariable Options.tolerantField given)

/-- A document with the value of a variable put into it, if the variable is set. -/
def overrideWith (env : Environment) (name path : String) (document : Json) :
    Except NotAnObject Json :=
  match Assoc.get? env name with
  | some text => document.override path text
  | none => .ok document

theorem override_eq (env : Environment) (document : Json) :
    override env document
      = (overrideWith env tolerantVariable "language_options.tolerant" document).bind
          (overrideWith env maxFileSizeVariable "language_options.max_file_size_mb") := by
  simp only [override, overriding, List.foldlM_cons, List.foldlM_nil, bind_pure]
  rfl

/-- A value that is put under the key of options and a field is put over the field. Where that
fails, there are no fields. -/
theorem given_setAt (document new : Json) (field : String) :
    (document.setAt new [optionsKey, field]).toOption.bind givenOptions?
      = (givenOptions? document).map fun given => Assoc.put given field new := by
  cases document with
  | object fields =>
      simp only [Json.setAt, Json.setField, givenOptions?]
      cases (Assoc.get? fields optionsKey).getD (.object []) with
      | object given =>
          show givenOptions?
            (.object (Assoc.put fields optionsKey (.object (Assoc.put given field new)))) = _
          rw [givenOptions?, Assoc.get?_put_self]
          rfl
      | _ => rfl
  | _ => rfl

/-- A variable that is put into a document is put over the field that its path leads to. -/
theorem given_overrideWith (env : Environment) (name : String) {path field : String}
    (hpath : (Text.splitOn '.' path.toList).map String.ofList = [optionsKey, field])
    (document : Json) :
    (overrideWith env name path document).toOption.bind givenOptions?
      = (givenOptions? document).map (putVariable env name field) := by
  unfold overrideWith putVariable
  cases Assoc.get? env name with
  | none =>
      show givenOptions? document = _
      cases givenOptions? document <;> rfl
  | some text =>
      simp only [Json.override, hpath]
      exact given_setAt document _ field

/-- **The variables over a document** are the variables over the fields that it gives. -/
theorem given_override (env : Environment) (document : Json) :
    (override env document).toOption.bind givenOptions?
      = (givenOptions? document).map (overridden env) := by
  have htolerant : (Text.splitOn '.' "language_options.tolerant".toList).map String.ofList
      = [optionsKey, Options.tolerantField] := by decide
  have hmaxFileSize :
      (Text.splitOn '.' "language_options.max_file_size_mb".toList).map String.ofList
        = [optionsKey, Options.maxFileSizeField] := by decide
  have hfirst := given_overrideWith env tolerantVariable htolerant document
  rw [override_eq]
  cases hdocument : overrideWith env tolerantVariable "language_options.tolerant" document with
  | error e =>
      -- what does not let a variable in gives no fields
      rw [hdocument] at hfirst
      have hnone : givenOptions? document = none := Option.map_eq_none_iff.1 hfirst.symm
      rw [hnone]
      rfl
  | ok d =>
      rw [hdocument] at hfirst
      have hsecond := given_overrideWith env maxFileSizeVariable hmaxFileSize d
      show (overrideWith env maxFileSizeVariable _ d).toOption.bind givenOptions? = _
      have hfirst : givenOptions? d = _ := hfirst
      rw [hsecond, hfirst, Option.map_map]
      rfl

/-! ## Options under an environment -/

/-- Options with the values of all variables laid over them, if these make options. -/
def underEnvironment (env : Environment) (o : Options) : Except (List FieldError) Options :=
  Options.ofFields (overridden env o.fields)

/-- The fields of options that the content of a configuration file gives. -/
def contentOptions? (content : ByteArray) : Option Fields :=
  (Text.Utf8.decode? content.data.toList).bind fun text =>
    (Json.ofText? (String.ofList text)).bind givenOptions?

theorem ofSettings_eq (settings : Settings) (env : Environment) :
    ofSettings settings env = underEnvironment env settings.options := by
  have hgiven := given_override env (.object [(optionsKey, .object settings.options.fields)])
  simp only [ofSettings, hgiven]
  rfl

/-- With a file there are the fields that it gives, with the values of the variables put over them,
and standard values for the others. -/
theorem ofContent?_eq (env : Environment) (content : ByteArray) :
    ofContent? env content = (contentOptions? content).bind fun given =>
      (Options.ofFields (Assoc.merge Options.standard.fields (overridden env given))).toOption := by
  simp only [ofContent?, contentOptions?, Option.bind_eq_bind, Option.bind_assoc]
  congr
  funext text
  cases hdocument : Json.ofText? (String.ofList text) with
  | none => rfl
  | some document =>
      simp only [Option.bind_some]
      cases document with
      | object fields =>
          simp only
          rw [← Option.bind_assoc, given_override, Option.bind_map]
          rfl
      | _ => rfl

/-- The tolerance of options under an environment. -/
def tolerantUnder (env : Environment) (o : Options) : Except FieldProblem Bool :=
  match Assoc.get? env tolerantVariable with
  | some text => strictBool (EnvValue.ofText text).toJson
  | none => .ok o.tolerant

/-- The limit of options under an environment. -/
def maxFileSizeUnder (env : Environment) (o : Options) : Except FieldProblem Megabytes :=
  match Assoc.get? env maxFileSizeVariable with
  | some text => Megabytes.ofJson (EnvValue.ofText text).toJson
  | none => .ok o.maxFileSize

/-- The two fields of options, given as any values, are looked at one by one. -/
theorem ofFields_pair (first second : Json) :
    Options.ofFields [(Options.tolerantField, first), (Options.maxFileSizeField, second)]
      = match strictBool first, Megabytes.ofJson second with
        | .ok tolerant, .ok maxFileSize => .ok ⟨tolerant, maxFileSize⟩
        | .error problem, .ok _ => .error [⟨Options.tolerantField, problem⟩]
        | .ok _, .error problem => .error [⟨Options.maxFileSizeField, problem⟩]
        | .error problem, .error problem' =>
          .error [⟨Options.tolerantField, problem⟩, ⟨Options.maxFileSizeField, problem'⟩] := by
  have hfirst : Assoc.get? [(Options.tolerantField, first), (Options.maxFileSizeField, second)]
      Options.tolerantField = some first := rfl
  have hsecond : Assoc.get? [(Options.tolerantField, first), (Options.maxFileSizeField, second)]
      Options.maxFileSizeField = some second := rfl
  have hunknown : OptionsPatch.unknown
      [(Options.tolerantField, first), (Options.maxFileSizeField, second)] = [] := rfl
  simp only [Options.ofFields, OptionsPatch.ofFields, OptionsPatch.field, hfirst, hsecond, hunknown]
  cases strictBool first <;> cases Megabytes.ofJson second <;> rfl

/-- With the variables over them, the fields of options are still the two fields, in order. -/
theorem exists_overridden_eq (env : Environment) (o : Options) :
    ∃ first second, overridden env o.fields
        = [(Options.tolerantField, first), (Options.maxFileSizeField, second)]
      ∧ strictBool first = tolerantUnder env o
      ∧ Megabytes.ofJson second = maxFileSizeUnder env o := by
  unfold overridden putVariable tolerantUnder maxFileSizeUnder
  cases Assoc.get? env tolerantVariable <;> cases Assoc.get? env maxFileSizeVariable
  · exact ⟨_, _, rfl, rfl, Megabytes.ofInt_val o.maxFileSize⟩
  · exact ⟨_, _, rfl, rfl, rfl⟩
  · exact ⟨_, _, rfl, rfl, Megabytes.ofInt_val o.maxFileSize⟩
  · exact ⟨_, _, rfl, rfl, rfl⟩

theorem underEnvironment_eq (env : Environment) (o : Options) :
    underEnvironment env o
      = match tolerantUnder env o, maxFileSizeUnder env o with
        | .ok tolerant, .ok maxFileSize => .ok ⟨tolerant, maxFileSize⟩
        | .error problem, .ok _ => .error [⟨Options.tolerantField, problem⟩]
        | .ok _, .error problem => .error [⟨Options.maxFileSizeField, problem⟩]
        | .error problem, .error problem' =>
          .error [⟨Options.tolerantField, problem⟩, ⟨Options.maxFileSizeField, problem'⟩] := by
  obtain ⟨first, second, hfields, htolerant, hmaxFileSize⟩ := exists_overridden_eq env o
  rw [underEnvironment, hfields, ofFields_pair, htolerant, hmaxFileSize]

/-- **Options under an environment** have each field under the environment by itself. -/
theorem underEnvironment_eq_ok {env : Environment} {o o' : Options} :
    underEnvironment env o = .ok o'
      ↔ tolerantUnder env o = .ok o'.tolerant ∧ maxFileSizeUnder env o = .ok o'.maxFileSize := by
  rw [underEnvironment_eq]
  obtain ⟨tolerant, maxFileSize⟩ := o'
  cases tolerantUnder env o <;> cases maxFileSizeUnder env o <;> simp

theorem underEnvironment_of_refused {env : Environment} {o : Options} {problem : FieldProblem}
    {n : Megabytes} (htolerant : tolerantUnder env o = .error problem)
    (hmaxFileSize : maxFileSizeUnder env o = .ok n) :
    underEnvironment env o = .error [⟨Options.tolerantField, problem⟩] := by
  rw [underEnvironment_eq, htolerant, hmaxFileSize]

/-- A field is the same for all options if its variable is set, and else it is as it was. -/
theorem under_cases (env : Environment) (o o' : Options) :
    (tolerantUnder env o = tolerantUnder env o'
        ∨ tolerantUnder env o = .ok o.tolerant ∧ tolerantUnder env o' = .ok o'.tolerant)
      ∧ (maxFileSizeUnder env o = maxFileSizeUnder env o'
        ∨ maxFileSizeUnder env o = .ok o.maxFileSize
          ∧ maxFileSizeUnder env o' = .ok o'.maxFileSize) := by
  unfold tolerantUnder maxFileSizeUnder
  constructor
  · cases Assoc.get? env tolerantVariable with
    | none => exact .inr ⟨rfl, rfl⟩
    | some text => exact .inl rfl
  · cases Assoc.get? env maxFileSizeVariable with
    | none => exact .inr ⟨rfl, rfl⟩
    | some text => exact .inl rfl

/-- Where no options come out, the reason is in the variables, so none come out of any others. -/
theorem underEnvironment_eq_error {env : Environment} {o : Options} {errors : List FieldError}
    (h : underEnvironment env o = .error errors) (o' : Options) :
    underEnvironment env o' = .error errors := by
  rw [underEnvironment_eq] at h ⊢
  obtain ⟨htolerant | ⟨htolerant, htolerant'⟩, hmaxFileSize | ⟨hmaxFileSize, hmaxFileSize'⟩⟩ :=
    under_cases env o o'
  · rw [← htolerant, ← hmaxFileSize]
    exact h
  · rw [← htolerant, hmaxFileSize']
    rw [hmaxFileSize] at h
    cases hrefused : tolerantUnder env o with
    | ok b =>
        rw [hrefused] at h
        cases h
    | error problem =>
        rw [hrefused] at h
        exact h
  · rw [htolerant', ← hmaxFileSize]
    rw [htolerant] at h
    cases hrefused : maxFileSizeUnder env o with
    | ok n =>
        rw [hrefused] at h
        cases h
    | error problem =>
        rw [hrefused] at h
        exact h
  · rw [htolerant, hmaxFileSize] at h
    cases h

end Stylesheet.Configuration
