/-
Variables that two readers share.

The settings take their defaults from variables of the environment, and a loader with these
settings lays the same variables over them once more. The settings read a variable by the lax rule
of its field. The loader takes its text for what it looks like, and reads that by the rule of the
field of options.

For the limit the two come to the same (`Megabytes.ofJson_ofText`). For the tolerance they do not:
the rule of the options is strict, so what looks like a number or like a text is refused, while the
settings take one, zero and single letters for yes or no. So the readers agree exactly if the
variable, where it is set, is one of the six words that both know.
-/
import Stylesheet.Proofs.Overrides

set_option autoImplicit false

namespace Stylesheet

/-! ## Words -/

namespace EnvValue

/-- A word by its look is the same by the lax rule. -/
theorem exists_bool_of_mem_words {text : String} (h : Text.lower text ∈ words) :
    ∃ b, ofText text = .bool b ∧ laxBool (.string text) = .ok b := by
  simp only [words, List.mem_cons, List.not_mem_nil, or_false] at h
  simp only [ofText, laxBool]
  rcases h with h | h | h | h | h | h <;> rw [h]
  · exact ⟨true, rfl, rfl⟩
  · exact ⟨true, rfl, rfl⟩
  · exact ⟨true, rfl, rfl⟩
  · exact ⟨false, rfl, rfl⟩
  · exact ⟨false, rfl, rfl⟩
  · exact ⟨false, rfl, rfl⟩

theorem strictBool_of_notMem_words {text : String} (h : Text.lower text ∉ words) :
    strictBool (ofText text).toJson = .error .boolType := by
  rw [ofText_of_notMem_words h]
  split
  · cases Numeral.decimal? text <;> rfl
  · cases Numeral.integer? text <;> rfl

end EnvValue

/-! ## The settings of an environment -/

/-- Where a variable is set under a name, no other spelling of the name that comes after it says
something else. -/
def Environment.Unrivalled (env : Environment) (name : String) : Prop :=
  ∀ text, Assoc.get? env name = some text → Assoc.getAnyCase? env (Text.lower name) = some text

namespace Settings

variable {sources : Sources} {s : Settings} {env : Environment} {dotenv : Dotenv.Variables}

/-- Settings that are found have every field by its rule. -/
theorem fields_of_ofSources (h : ofSources sources = .ok s) :
    sources.field tolerantField standard.tolerant laxBool = .ok s.tolerant
      ∧ sources.field maxFileSizeField standard.maxFileSize Megabytes.ofJson
        = .ok s.maxFileSize := by
  rw [ofSources] at h
  cases htolerant : sources.field tolerantField standard.tolerant laxBool with
  | error e =>
      rw [htolerant] at h
      cases h
  | ok tolerant =>
      cases hmaxFileSize :
          sources.field maxFileSizeField standard.maxFileSize Megabytes.ofJson with
      | error e =>
          rw [htolerant, hmaxFileSize] at h
          cases h
      | ok maxFileSize =>
          rw [htolerant, hmaxFileSize] at h
          cases hlevel : sources.field logLevelField standard.logLevel LogLevel.ofJson with
          | error e =>
              rw [hlevel] at h
              cases h
          | ok level =>
              rw [hlevel] at h
              obtain rfl := Except.ok.inj h
              exact ⟨rfl, rfl⟩

/-- Where nothing is given, a variable that is set goes before all else. -/
theorem rule_of_field {α : Type} {name field text : String} {standard x : α}
    {rule : Json → Except FieldProblem α} (hname : Text.lower name = "css_source_" ++ field)
    (hrivals : env.Unrivalled name) (hset : Assoc.get? env name = some text)
    (h : Sources.field ⟨[], env, dotenv⟩ field standard rule = .ok x) :
    rule (.string text) = .ok x := by
  have hfound : Sources.find? ⟨[], env, dotenv⟩ field = some (.string text) := by
    have hany := hrivals text hset
    rw [hname] at hany
    rw [Sources.find?]
    simp only [hany]
    rfl
  rw [Sources.field, hfound] at h
  simp only at h
  split at h
  · rename_i y hy
    obtain rfl := Except.ok.inj h
    exact hy
  · cases h

end Settings

/-! ## Two readers -/

namespace Loader

variable {env : Environment} {dotenv : Dotenv.Variables} {s : Settings} {tree : FileTree}
  {project : Place}

/-- Without a configuration file a loader makes the options of its settings under the environment,
which are then known, or it learns nothing. -/
theorem load_of_noFile (hfile : tree.find? (configFile project) = none) :
    (ofSettings s).load tree env project
      = match Configuration.underEnvironment env s.options with
        | .ok o => (.ok o, ⟨s, [(project, o)]⟩)
        | .error errors => (.error (.invalid errors), ofSettings s) := by
  simp only [load, ofSettings, Assoc.get?, current, hfile]
  rw [Configuration.ofSettings_eq]
  cases Configuration.underEnvironment env s.options <;> rfl

/-- **The settings and a loader with these settings** read two variables of one environment. Where
there is no configuration file, the loader makes the options of the settings exactly if the
variable for the tolerance, where it is set, is one of the six words that both readers know. For
any other text it refuses the tolerance, and learns nothing. The variable for the limit never
matters: whatever the settings take for a limit, the loader takes for the same limit. -/
theorem load_eq_settings_iff (hread : Settings.ofSources ⟨[], env, dotenv⟩ = .ok s)
    (htolerant : env.Unrivalled Configuration.tolerantVariable)
    (hmaxFileSize : env.Unrivalled Configuration.maxFileSizeVariable)
    (hfile : tree.find? (configFile project) = none) :
    (((ofSettings s).load tree env project).1 = .ok s.options
        ↔ ∀ text, Assoc.get? env Configuration.tolerantVariable = some text →
          Text.lower text ∈ EnvValue.words)
      ∧ ∀ text, Assoc.get? env Configuration.tolerantVariable = some text →
        Text.lower text ∉ EnvValue.words →
        (ofSettings s).load tree env project
          = (.error (.invalid [⟨Options.tolerantField, .boolType⟩]), ofSettings s) := by
  obtain ⟨hfirst, hsecond⟩ := Settings.fields_of_ofSources hread
  have hlimit : Configuration.maxFileSizeUnder env s.options = .ok s.maxFileSize := by
    unfold Configuration.maxFileSizeUnder
    split
    · rename_i text hset
      exact Megabytes.ofJson_ofText (Settings.rule_of_field (by decide) hmaxFileSize hset hsecond)
    · rfl
  -- the two parts differ only in whether the tolerance comes through
  have hagree : Configuration.tolerantUnder env s.options = .ok s.tolerant →
      ((ofSettings s).load tree env project).1 = .ok s.options := by
    intro hthrough
    have hunder : Configuration.underEnvironment env s.options = .ok s.options :=
      Configuration.underEnvironment_eq_ok.2 ⟨hthrough, hlimit⟩
    rw [load_of_noFile hfile, hunder]
  have hrefuse : ∀ text, Assoc.get? env Configuration.tolerantVariable = some text →
      Text.lower text ∉ EnvValue.words →
      (ofSettings s).load tree env project
        = (.error (.invalid [⟨Options.tolerantField, .boolType⟩]), ofSettings s) := by
    intro text hset hword
    have hrefused : Configuration.tolerantUnder env s.options = .error .boolType := by
      rw [Configuration.tolerantUnder, hset]
      exact EnvValue.strictBool_of_notMem_words hword
    rw [load_of_noFile hfile, Configuration.underEnvironment_of_refused hrefused hlimit]
  refine ⟨⟨?_, ?_⟩, hrefuse⟩
  · intro hload text hset
    by_contra hword
    rw [hrefuse text hset hword] at hload
    cases hload
  · intro hwords
    apply hagree
    cases hset : Assoc.get? env Configuration.tolerantVariable with
    | none =>
        rw [Configuration.tolerantUnder, hset]
        rfl
    | some text =>
        obtain ⟨b, hlook, hlax⟩ := EnvValue.exists_bool_of_mem_words (hwords text hset)
        have hsettings := Settings.rule_of_field (by decide) htolerant hset hfirst
        rw [Configuration.tolerantUnder, hset]
        simp only [hlook, EnvValue.toJson, strictBool]
        exact congrArg Except.ok (Except.ok.inj (hlax.symm.trans hsettings))

section Words

/-- An environment that sets both variables: the limit with white space around it, a leading zero,
an underscore and a fraction of zeros. -/
private def spelledOut : Environment :=
  [("CSS_SOURCE_DEFAULT_TOLERANT", "Yes"), ("CSS_SOURCE_MAX_FILE_SIZE_MB", " 02_0.00\n")]

/-- Both readers take such an environment for tolerance and twenty megabytes. -/
theorem load_spelledOut :
    Settings.ofSources ⟨[], spelledOut, []⟩ = .ok ⟨true, ⟨20, by decide⟩, .info⟩
      ∧ spelledOut.Unrivalled Configuration.tolerantVariable
      ∧ spelledOut.Unrivalled Configuration.maxFileSizeVariable
      ∧ FileTree.empty.find? (configFile ["site"]) = none
      ∧ ((ofSettings ⟨true, ⟨20, by decide⟩, .info⟩).load .empty spelledOut ["site"]).1
        = .ok ⟨true, ⟨20, by decide⟩⟩ := by
  have hread : Settings.ofSources ⟨[], spelledOut, []⟩ = .ok ⟨true, ⟨20, by decide⟩, .info⟩ := by
    decide +kernel
  have hfirst : spelledOut.Unrivalled Configuration.tolerantVariable := by
    intro text hset
    obtain rfl := Option.some.inj hset
    decide
  have hsecond : spelledOut.Unrivalled Configuration.maxFileSizeVariable := by
    intro text hset
    obtain rfl := Option.some.inj hset
    decide
  have hfile : FileTree.empty.find? (configFile ["site"]) = none := rfl
  refine ⟨hread, hfirst, hsecond, hfile, ?_⟩
  apply (load_eq_settings_iff hread hfirst hsecond hfile).1.2
  intro text hset
  obtain rfl := Option.some.inj hset
  decide

end Words

/-- **One reader takes a text that the other refuses**: with `1` for the tolerance there are
settings that tolerate errors, and a loader with these settings loads nothing. -/
theorem load_one_refused :
    ∃ s, Settings.ofSources ⟨[], [("CSS_SOURCE_DEFAULT_TOLERANT", "1")], []⟩ = .ok s
      ∧ s.options = ⟨true, .standard⟩
      ∧ ((ofSettings s).load .empty [("CSS_SOURCE_DEFAULT_TOLERANT", "1")] []).1
        = .error (.invalid [⟨"tolerant", .boolType⟩]) := by
  refine ⟨⟨true, .standard, .info⟩, ?_, rfl, ?_⟩
  · decide +kernel
  · decide +kernel

end Loader

end Stylesheet
