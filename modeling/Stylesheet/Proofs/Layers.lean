/-
The layers that the options of a project are made of.

Three layers are laid one over the other: what holds without a file, the fields that a configuration
file gives, and the values of the variables that are set. The program puts the variables into the
document of the file before it lays anything over standard values, and takes the fields out of the
document again. Since no key of a document comes twice, laying over is associative
(`Assoc.merge_assoc`), so it comes to the same as laying the variables over all the rest.

What holds without a file is one thing below a file and another instead of it. A file that counts
is laid over standard values; where no file counts, the settings stand in its place, and nothing of
the file is left in what comes out (`Loader.load_of_file`). So a field that a file leaves out is not
as it would be without the file: it is standard, whatever the settings say, unless its variable is
set (`Loader.leftOut_of_load`).
-/
import Stylesheet.Proofs.DistinctKeys
import Stylesheet.Proofs.Documents
import Stylesheet.Proofs.SharedVariables

set_option autoImplicit false

namespace Stylesheet

/-! ## Laying over

Laying one list over another puts the entries of the upper one into the lower one after the other.
A value that is put under a key that is there stays in its place, and one under a new key goes to
the end. The order of the entries is part of what is compared, and this is why putting values
commutes only under conditions. -/

namespace Assoc

variable {κ α : Type} [DecidableEq κ] {entries below above : Assoc κ α} {key other : κ}

theorem mem_of_get?_eq_some {value : α} (h : get? entries key = some value) :
    (key, value) ∈ entries := by
  induction entries with
  | nil => cases h
  | cons e rest ih =>
      obtain ⟨k, v⟩ := e
      by_cases hk : k = key
      · rw [get?, if_pos hk] at h
        rw [hk, Option.some.inj h]
        exact List.mem_cons_self
      · rw [get?, if_neg hk] at h
        exact List.mem_cons_of_mem _ (ih h)

theorem get?_eq_none_of_notMem (h : key ∉ keys entries) : get? entries key = none := by
  rwa [← get?_isSome_iff_mem_keys, Option.not_isSome_iff_eq_none] at h

theorem put_put_self (entries : Assoc κ α) (key : κ) (first second : α) :
    put (put entries key first) key second = put entries key second := by
  induction entries with
  | nil => simp [put]
  | cons e rest ih =>
      obtain ⟨k, v⟩ := e
      by_cases h : k = key
      · simp [put, h]
      · simp [put, h, ih]

/-- Two values may be put in any order if one of them only replaces what was under its key: else
the order of two new keys would tell. -/
theorem put_comm (hkey : key ∈ keys entries) (hne : key ≠ other) (value value' : α) :
    put (put entries key value) other value' = put (put entries other value') key value := by
  induction entries with
  | nil => cases hkey
  | cons e rest ih =>
      obtain ⟨k, v⟩ := e
      by_cases hk : k = key
      · subst hk
        simp [put, hne]
      · rw [keys, List.map_cons, List.mem_cons] at hkey
        have hrest : key ∈ keys rest := hkey.resolve_left (Ne.symm hk)
        by_cases ho : k = other
        · subst ho
          simp [put, hk]
        · simp [put, hk, ho, ih hrest]

theorem mem_keys_put_self (entries : Assoc κ α) (key : κ) (value : α) :
    key ∈ keys (put entries key value) := by
  rw [← get?_isSome_iff_mem_keys, get?_put_self]
  rfl

/-- A value under a key that is there may be put before or after all values of a list that has not
this key. -/
theorem merge_put_of_notMem (hkey : key ∈ keys below) (hnot : key ∉ keys above) (value : α) :
    merge (put below key value) above = put (merge below above) key value := by
  induction above generalizing below with
  | nil => rfl
  | cons e rest ih =>
      obtain ⟨k, v⟩ := e
      rw [keys, List.map_cons, List.mem_cons, not_or] at hnot
      have hkept : key ∈ keys (put below k v) := by
        rw [← get?_isSome_iff_mem_keys, get?_put_of_ne (Ne.symm hnot.1),
          get?_isSome_iff_mem_keys]
        exact hkey
      show merge (put (put below key value) k v) rest = put (merge (put below k v) rest) key value
      rw [put_comm hkey hnot.1]
      exact ih hkept hnot.2

/-- A value that is put into the upper list is put over both. If the upper list had its key twice,
the later of the two would be laid over the value. -/
theorem merge_put (habove : (keys above).Nodup) (key : κ) (value : α) :
    merge below (put above key value) = put (merge below above) key value := by
  induction above generalizing below with
  | nil => rfl
  | cons e rest ih =>
      obtain ⟨k, v⟩ := e
      obtain ⟨hk, hrest⟩ := List.nodup_cons.1 habove
      by_cases h : k = key
      · -- the key is laid first, and nothing behind it has it
        subst h
        rw [put, if_pos rfl]
        show merge (put below k value) rest = put (merge (put below k v) rest) k value
        rw [← merge_put_of_notMem (mem_keys_put_self below k v) hk, put_put_self]
      · rw [put, if_neg h]
        exact ih hrest

/-- **Laying over is associative** where the list in the middle has no key twice. -/
theorem merge_assoc {middle : Assoc κ α} (hmiddle : (keys middle).Nodup)
    (below above : Assoc κ α) :
    merge below (merge middle above) = merge (merge below middle) above := by
  induction above generalizing middle with
  | nil => rfl
  | cons e rest ih =>
      show merge below (merge (put middle e.1 e.2) rest)
        = merge (put (merge below middle) e.1 e.2) rest
      rw [ih (nodup_keys_put hmiddle e.1 e.2), merge_put hmiddle]

theorem get?_merge (habove : (keys above).Nodup) (below : Assoc κ α) (key : κ) :
    get? (merge below above) key = (get? above key).or (get? below key) := by
  induction above generalizing below with
  | nil => rfl
  | cons e rest ih =>
      obtain ⟨k, v⟩ := e
      obtain ⟨hk, hrest⟩ := List.nodup_cons.1 habove
      show get? (merge (put below k v) rest) key = _
      rw [ih hrest]
      by_cases h : k = key
      · subst h
        rw [get?_eq_none_of_notMem hk, get?_put_self, get?, if_pos rfl]
        rfl
      · rw [get?_put_of_ne h, get?, if_neg h]

end Assoc

/-! ## The layers

Each of the variables goes before one field, so that what is set in the environment is a layer of
its own, and has no key twice. Neither has the layer that a file gives, which was read from a
document. -/

namespace Configuration

/-- The variables with the fields of options that they go before. -/
def overriddenFields : List (String × String) :=
  [(tolerantVariable, Options.tolerantField), (maxFileSizeVariable, Options.maxFileSizeField)]

/-- The uppermost layer: for each variable that is set, what its text stands for. -/
def overrides (env : Environment) : Fields :=
  overriddenFields.filterMap fun entry =>
    (Assoc.get? env entry.1).map fun text => (entry.2, (EnvValue.ofText text).toJson)

theorem overridden_eq (env : Environment) (given : Fields) :
    overridden env given = Assoc.merge given (overrides env) := by
  simp only [overridden, putVariable, overrides, overriddenFields, List.filterMap_cons,
    List.filterMap_nil]
  cases Assoc.get? env tolerantVariable <;> cases Assoc.get? env maxFileSizeVariable <;> rfl

theorem nodup_keys_overrides (env : Environment) : (Assoc.keys (overrides env)).Nodup := by
  have hdistinct : Options.tolerantField ≠ Options.maxFileSizeField := by decide
  simp only [overrides, overriddenFields, List.filterMap_cons, List.filterMap_nil]
  cases Assoc.get? env tolerantVariable <;> cases Assoc.get? env maxFileSizeVariable <;>
    simp [Assoc.keys, hdistinct]

/-- The content of a configuration file gives fields of options: it is the text of a document, the
document is an object, and these are the fields of the object that it has under the key of options,
or none if it has nothing there. -/
def Gives (content : ByteArray) (given : Fields) : Prop :=
  ∃ text fields, Text.Utf8.decode? content.data.toList = some text
    ∧ Json.ofText? (String.ofList text) = some (.object fields)
    ∧ (Assoc.get? fields optionsKey = some (.object given)
      ∨ Assoc.get? fields optionsKey = none ∧ given = [])

/-- A document gives fields if it is an object with an object, or nothing, under the key. -/
theorem givenOptions?_eq_some {document : Json} {given : Fields} :
    givenOptions? document = some given
      ↔ ∃ fields, document = .object fields
        ∧ (Assoc.get? fields optionsKey = some (.object given)
          ∨ Assoc.get? fields optionsKey = none ∧ given = []) := by
  constructor
  · intro h
    rw [givenOptions?.eq_def] at h
    split at h
    · rename_i fields
      refine ⟨fields, rfl, ?_⟩
      split at h
      · rename_i given' hgiven
        obtain rfl := Option.some.inj h
        cases hfound : Assoc.get? fields optionsKey with
        | none =>
            rw [hfound] at hgiven
            obtain rfl := Json.object.inj hgiven
            exact .inr ⟨rfl, rfl⟩
        | some value =>
            rw [hfound] at hgiven
            exact .inl (congrArg some hgiven)
      · cases h
    · cases h
  · rintro ⟨fields, rfl, hfound | ⟨hfound, rfl⟩⟩
    · rw [givenOptions?, hfound]
      rfl
    · rw [givenOptions?, hfound]
      rfl

theorem contentOptions?_eq_some {content : ByteArray} {given : Fields} :
    contentOptions? content = some given ↔ Gives content given := by
  simp only [contentOptions?, Option.bind_eq_some_iff, givenOptions?_eq_some]
  constructor
  · rintro ⟨text, htext, document, hread, fields, rfl, hfound⟩
    exact ⟨text, fields, htext, hread, hfound⟩
  · rintro ⟨text, fields, htext, hread, hfound⟩
    exact ⟨text, htext, .object fields, hread, fields, rfl, hfound⟩

/-- A file gives no field twice. -/
theorem Gives.nodup {content : ByteArray} {given : Fields} (h : Gives content given) :
    (Assoc.keys given).Nodup := by
  obtain ⟨text, fields, -, hread, hfound | ⟨-, rfl⟩⟩ := h
  · cases Json.distinct_of_ofText? hread with
    | object _ hmembers =>
        have hgiven : Json.Distinct (.object given) :=
          hmembers _ (Assoc.mem_of_get?_eq_some hfound)
        cases hgiven with
        | object hkeys _ => exact hkeys
  · exact List.nodup_nil

/-- All three layers, with standard values below. -/
def layered (env : Environment) (given : Fields) : Fields :=
  Assoc.merge (Assoc.merge Options.standard.fields given) (overrides env)

theorem ofContent?_of_gives (env : Environment) {content : ByteArray} {given : Fields}
    (h : Gives content given) :
    ofContent? env content = (Options.ofFields (layered env given)).toOption := by
  rw [ofContent?_eq, contentOptions?_eq_some.2 h, Option.bind_some, overridden_eq,
    Assoc.merge_assoc h.nodup]
  rfl

/-- A file counts if it gives fields that make options in their layer. -/
theorem ofContent?_eq_some {env : Environment} {content : ByteArray} {o : Options} :
    ofContent? env content = some o
      ↔ ∃ given, Gives content given ∧ Options.ofFields (layered env given) = .ok o := by
  constructor
  · intro h
    have hfound := h
    rw [ofContent?_eq] at hfound
    obtain ⟨given, hgiven, -⟩ := Option.bind_eq_some_iff.1 hfound
    have hgives : Gives content given := contentOptions?_eq_some.1 hgiven
    rw [ofContent?_of_gives env hgives] at h
    refine ⟨given, hgives, ?_⟩
    cases hmade : Options.ofFields (layered env given) with
    | error errors =>
        rw [hmade] at h
        cases h
    | ok o' =>
        rw [hmade] at h
        exact congrArg Except.ok (Option.some.inj h)
  · rintro ⟨given, hgives, hmade⟩
    rw [ofContent?_of_gives env hgives, hmade]
    rfl

/-! ## Single fields -/

/-- What is found of a field: its value by a rule, or else a value that stands for it. -/
def fieldIn {α : Type} (fields : Fields) (name : String) (rule : Json → Except FieldProblem α)
    (standard : α) : Except FieldProblem α :=
  match Assoc.get? fields name with
  | some value => rule value
  | none => .ok standard

section Field

variable {α : Type} {rule : Json → Except FieldProblem α} {name : String} {standard : α}

/-- A field that is right has the value that is found of it. -/
theorem fieldIn_of_field {fields : Fields} {x : Option α}
    (h : OptionsPatch.field fields name rule = .ok x) (standard : α) :
    fieldIn fields name rule standard = .ok (x.getD standard) := by
  unfold OptionsPatch.field at h
  unfold fieldIn
  cases hfound : Assoc.get? fields name with
  | none =>
      rw [hfound] at h
      obtain rfl := Except.ok.inj h
      rfl
  | some value =>
      rw [hfound] at h
      simp only at h ⊢
      split at h
      · rename_i y hy
        obtain rfl := Except.ok.inj h
        exact hy
      · cases h

/-- What is found under a name in all three layers is found in the uppermost that has it. -/
theorem get?_layered (env : Environment) {given : Fields} (hgiven : (Assoc.keys given).Nodup)
    (name : String) :
    Assoc.get? (layered env given) name
      = (Assoc.get? (overrides env) name).or
        ((Assoc.get? given name).or (Assoc.get? Options.standard.fields name)) := by
  rw [layered, Assoc.get?_merge (nodup_keys_overrides env), Assoc.get?_merge hgiven]

/-- If a field is right in all three layers, what is found of it in the uppermost is the same if it
is there, and else whatever stands for it. -/
theorem fieldIn_overrides {env : Environment} {given : Fields} {value : α}
    (hgiven : (Assoc.keys given).Nodup)
    (h : fieldIn (layered env given) name rule standard = .ok value) (other : α) :
    fieldIn (overrides env) name rule other
      = .ok (if Assoc.has (overrides env) name then value else other) := by
  rw [fieldIn, get?_layered env hgiven] at h
  rw [fieldIn, Assoc.has]
  cases hfound : Assoc.get? (overrides env) name with
  | none => rfl
  | some v =>
      rw [hfound] at h
      exact h

theorem fieldIn_layered_of_leftOut {env : Environment} {given : Fields} {v : Json}
    (hgiven : (Assoc.keys given).Nodup) (hleft : name ∉ Assoc.keys given)
    (hbelow : Assoc.get? Options.standard.fields name = some v) (hrule : rule v = .ok standard) :
    fieldIn (layered env given) name rule standard = fieldIn (overrides env) name rule standard := by
  rw [fieldIn, fieldIn, get?_layered env hgiven, Assoc.get?_eq_none_of_notMem hleft, Option.none_or,
    hbelow]
  cases Assoc.get? (overrides env) name with
  | none => exact hrule
  | some value => rfl

end Field

/-- What stands for a field in the uppermost layer is what its variable stands for. -/
theorem get?_overrides (env : Environment) {name field : String}
    (h : (name, field) ∈ overriddenFields) :
    Assoc.get? (overrides env) field
      = (Assoc.get? env name).map fun text => (EnvValue.ofText text).toJson := by
  simp only [overriddenFields, List.mem_cons, List.not_mem_nil, or_false, Prod.mk.injEq] at h
  simp only [overrides, overriddenFields, List.filterMap_cons, List.filterMap_nil]
  rcases h with ⟨rfl, rfl⟩ | ⟨rfl, rfl⟩
  · cases Assoc.get? env tolerantVariable <;> cases Assoc.get? env maxFileSizeVariable <;> rfl
  · cases Assoc.get? env tolerantVariable <;> cases Assoc.get? env maxFileSizeVariable <;> rfl

/-- Options that are made of fields have each field by its rule. -/
theorem fieldIn_of_ofFields {fields : Fields} {o : Options} (h : Options.ofFields fields = .ok o) :
    fieldIn fields Options.tolerantField strictBool Options.standard.tolerant = .ok o.tolerant
      ∧ fieldIn fields Options.maxFileSizeField Megabytes.ofJson Options.standard.maxFileSize
        = .ok o.maxFileSize := by
  simp only [Options.ofFields, OptionsPatch.ofFields] at h
  split at h
  · rename_i htolerant hmaxFileSize _
    obtain rfl := Except.ok.inj h
    exact ⟨fieldIn_of_field htolerant _, fieldIn_of_field hmaxFileSize _⟩
  · cases h

/-- The fields of which the variables are set, from some options, and the other fields from
others. -/
def laid (env : Environment) (o below : Options) : Options where
  tolerant := if Assoc.has (overrides env) Options.tolerantField then o.tolerant
    else below.tolerant
  maxFileSize := if Assoc.has (overrides env) Options.maxFileSizeField then o.maxFileSize
    else below.maxFileSize

theorem get?_fields_laid (env : Environment) (o below : Options) (field : String) :
    Assoc.get? (laid env o below).fields field
      = if Assoc.has (overrides env) field then Assoc.get? o.fields field
        else Assoc.get? below.fields field := by
  by_cases htolerant : Options.tolerantField = field
  · subst htolerant
    simp only [laid, Options.fields, Assoc.get?, if_pos]
    split <;> rfl
  by_cases hmaxFileSize : Options.maxFileSizeField = field
  · subst hmaxFileSize
    simp only [laid, Options.fields, Assoc.get?, if_neg htolerant, if_pos]
    split <;> rfl
  · simp only [Options.fields, Assoc.get?, if_neg htolerant, if_neg hmaxFileSize, ite_self]

variable {env : Environment} {given : Fields} {o : Options}

/-- For the loader, a variable that is set is all that a field is made of. -/
theorem under_eq_fieldIn (env : Environment) (o : Options) :
    tolerantUnder env o = fieldIn (overrides env) Options.tolerantField strictBool o.tolerant
      ∧ maxFileSizeUnder env o
        = fieldIn (overrides env) Options.maxFileSizeField Megabytes.ofJson o.maxFileSize := by
  constructor
  · rw [fieldIn, get?_overrides env List.mem_cons_self, tolerantUnder]
    cases Assoc.get? env tolerantVariable <;> rfl
  · rw [fieldIn, get?_overrides env (List.mem_cons_of_mem _ List.mem_cons_self), maxFileSizeUnder]
    cases Assoc.get? env maxFileSizeVariable <;> rfl

/-- If the three layers make options, the variables are right, so any options under the
environment are options. -/
theorem underEnvironment_of_layered (hgiven : (Assoc.keys given).Nodup)
    (h : Options.ofFields (layered env given) = .ok o) (below : Options) :
    underEnvironment env below = .ok (laid env o below) := by
  obtain ⟨htolerant, hmaxFileSize⟩ := fieldIn_of_ofFields h
  obtain ⟨hfirst, hsecond⟩ := under_eq_fieldIn env below
  rw [underEnvironment_eq_ok, hfirst, hsecond]
  exact ⟨fieldIn_overrides hgiven htolerant _, fieldIn_overrides hgiven hmaxFileSize _⟩

/-- **A field that a file leaves out has the value of its variable**, by the rule of the field, or
else the standard one: it is as it is under the environment alone. -/
theorem under_of_leftOut (hgiven : (Assoc.keys given).Nodup)
    (h : Options.ofFields (layered env given) = .ok o) :
    (Options.tolerantField ∉ Assoc.keys given →
        tolerantUnder env Options.standard = .ok o.tolerant)
      ∧ (Options.maxFileSizeField ∉ Assoc.keys given →
        maxFileSizeUnder env Options.standard = .ok o.maxFileSize) := by
  obtain ⟨htolerant, hmaxFileSize⟩ := fieldIn_of_ofFields h
  obtain ⟨hfirst, hsecond⟩ := under_eq_fieldIn env Options.standard
  constructor
  · intro hleft
    have hrule : strictBool (.bool Options.standard.tolerant) = .ok Options.standard.tolerant := rfl
    rw [hfirst, ← fieldIn_layered_of_leftOut hgiven hleft rfl hrule]
    exact htolerant
  · intro hleft
    have hrule := Megabytes.ofInt_val Options.standard.maxFileSize
    rw [hsecond, ← fieldIn_layered_of_leftOut hgiven hleft rfl hrule]
    exact hmaxFileSize

/-- A field that a file leaves out, and of which the variable is not set, is standard. -/
theorem get?_fields_of_leftOut (hgiven : (Assoc.keys given).Nodup)
    (h : Options.ofFields (layered env given) = .ok o) {field : String}
    (hleft : field ∉ Assoc.keys given) (hunset : Assoc.has (overrides env) field = false) :
    Assoc.get? o.fields field = Assoc.get? Options.standard.fields field := by
  have hnone : Assoc.get? (overrides env) field = none := by simpa [Assoc.has] using hunset
  obtain ⟨hfirst, hsecond⟩ := under_of_leftOut hgiven h
  obtain ⟨htolerantUnder, hmaxFileSizeUnder⟩ := under_eq_fieldIn env Options.standard
  by_cases htolerant : Options.tolerantField = field
  · subst htolerant
    have hvalue := hfirst hleft
    rw [htolerantUnder, fieldIn, hnone] at hvalue
    simp only [Options.fields, Assoc.get?, if_pos, Except.ok.inj hvalue]
  by_cases hmaxFileSize : Options.maxFileSizeField = field
  · subst hmaxFileSize
    have hvalue := hsecond hleft
    rw [hmaxFileSizeUnder, fieldIn, hnone] at hvalue
    simp only [Options.fields, Assoc.get?, if_neg htolerant, if_pos, Except.ok.inj hvalue]
  · simp only [Options.fields, Assoc.get?, if_neg htolerant, if_neg hmaxFileSize]

end Configuration

/-! ## Loading -/

namespace Loader

variable {loader : Loader} {tree : FileTree} {env : Environment} {project : Place}
  {content : ByteArray}

/-- **A file counts as a whole or not at all.** The options of a project that is not known and has
a configuration file are those of the three layers, if the file gives fields that make options
there. In any other case they are the settings with the variables laid over them, so nothing of the
file is left. If these make no options either, that is what is reported, and nothing is learnt. -/
theorem load_of_file (hnew : Assoc.get? loader.cache project = none)
    (hfile : tree.find? (configFile project) = some (.file content)) :
    (∀ given o, Configuration.Gives content given →
        Options.ofFields (Assoc.merge (Assoc.merge Options.standard.fields given)
          (Configuration.overrides env)) = .ok o →
        loader.load tree env project
          = (.ok o, { loader with cache := Assoc.put loader.cache project o }))
      ∧ ((∀ given o, Configuration.Gives content given →
          Options.ofFields (Assoc.merge (Assoc.merge Options.standard.fields given)
            (Configuration.overrides env)) ≠ .ok o) →
        loader.load tree env project
          = match Options.ofFields (Assoc.merge loader.settings.options.fields
              (Configuration.overrides env)) with
            | .ok o => (.ok o, { loader with cache := Assoc.put loader.cache project o })
            | .error errors => (.error (.invalid errors), loader)) := by
  constructor
  · intro given o hgives hmade
    have hcounts : Configuration.ofContent? env content = some o :=
      Configuration.ofContent?_eq_some.2 ⟨given, hgives, hmade⟩
    simp only [load, hnew, current, hfile, hcounts]
  · intro hnot
    -- whatever was wrong with the content, the loader is told no more than that it does not count
    have hcounts : Configuration.ofContent? env content = none := by
      rw [Option.eq_none_iff_forall_ne_some]
      intro o hcounts
      obtain ⟨given, hgives, hmade⟩ := Configuration.ofContent?_eq_some.1 hcounts
      exact hnot given o hgives hmade
    simp only [load, hnew, current, hfile, hcounts]
    rw [Configuration.ofSettings_eq, Configuration.underEnvironment, Configuration.overridden_eq]
    cases Options.ofFields (Assoc.merge loader.settings.options.fields
      (Configuration.overrides env)) <;> rfl

/-- The content of a configuration file that gives some fields and says nothing else. -/
private def contentOf (given : Fields) : ByteArray :=
  (Json.object [(Configuration.optionsKey, .object given)]).toDocument.toUTF8

/-- Such a file gives these fields, and no others, if they are read back as they were written. -/
private theorem contentOptions?_contentOf {given : Fields} (h : (Json.object given).Plain) :
    Configuration.contentOptions? (contentOf given) = some given := by
  have hdocument : (Json.object [(Configuration.optionsKey, .object given)]).Plain := by
    refine .object (by decide : [Configuration.optionsKey].Nodup) fun field hfield => ?_
    obtain rfl := List.mem_singleton.1 hfield
    exact h
  rw [Configuration.contentOptions?, contentOf, Text.Utf8.toList_toUTF8,
    Text.Utf8.decode?_encode, Option.bind_some, String.ofList_toList,
    Json.ofText?_toDocument hdocument]
  rfl

/-- The working directory with such a file in it. -/
private def directoryWith (given : Fields) : FileTree :=
  ⟨[([Configuration.fileName], .file (contentOf given))]⟩

/-- A loader of which the settings are tolerant. -/
private def tolerantLoader : Loader := ofSettings ⟨true, .standard, .info⟩

/-- An environment with a limit of eight megabytes. -/
private def eightMegabytes : Environment := [("CSS_SOURCE_MAX_FILE_SIZE_MB", "8")]

/-- A field that says not to be tolerant. -/
private def strictFields : Fields := [(Options.tolerantField, .bool false)]

/-- The same, with a field beside it that options do not have. -/
private def strangeFields : Fields := [(Options.tolerantField, .bool false), ("limit", .null)]

/-- A file that says not to be tolerant counts, under a limit of the environment; with one field
too many it does not, and the settings are tolerant. -/
theorem load_strictFile :
    (tolerantLoader.load (directoryWith strictFields) eightMegabytes []).1
        = .ok ⟨false, ⟨8, by decide⟩⟩
      ∧ (tolerantLoader.load (directoryWith strangeFields) eightMegabytes []).1
        = .ok ⟨true, ⟨8, by decide⟩⟩ := by
  have hstrict : (Json.object strictFields).Plain := by
    refine .object (by decide) fun field hfield => ?_
    obtain rfl := List.mem_singleton.1 hfield
    exact .bool false
  have hstrange : (Json.object strangeFields).Plain := by
    refine .object (by decide) fun field hfield => ?_
    rcases List.mem_cons.1 hfield with rfl | hfield
    · exact .bool false
    · obtain rfl := List.mem_singleton.1 hfield
      exact .null
  have hnew : Assoc.get? tolerantLoader.cache [] = none := rfl
  constructor
  · have hfile : (directoryWith strictFields).find? (configFile [])
        = some (.file (contentOf strictFields)) := rfl
    have hmade : Options.ofFields (Assoc.merge (Assoc.merge Options.standard.fields strictFields)
        (Configuration.overrides eightMegabytes)) = .ok ⟨false, ⟨8, by decide⟩⟩ := by
      decide +kernel
    rw [(load_of_file hnew hfile).1 strictFields _
      (Configuration.contentOptions?_eq_some.1 (contentOptions?_contentOf hstrict)) hmade]
  · have hfile : (directoryWith strangeFields).find? (configFile [])
        = some (.file (contentOf strangeFields)) := rfl
    have hnot : ∀ given o, Configuration.Gives (contentOf strangeFields) given →
        Options.ofFields (Assoc.merge (Assoc.merge Options.standard.fields given)
          (Configuration.overrides eightMegabytes)) ≠ .ok o := by
      intro given o hgives hmade
      have hgiven := contentOptions?_contentOf hstrange
      rw [Configuration.contentOptions?_eq_some.2 hgives] at hgiven
      obtain rfl := Option.some.inj hgiven
      have hrefused : (Options.ofFields (Assoc.merge (Assoc.merge Options.standard.fields
          strangeFields) (Configuration.overrides eightMegabytes))).toOption = none := by
        decide +kernel
      rw [hmade] at hrefused
      cases hrefused
    have hmade : Options.ofFields (Assoc.merge tolerantLoader.settings.options.fields
        (Configuration.overrides eightMegabytes)) = .ok ⟨true, ⟨8, by decide⟩⟩ := by
      decide +kernel
    rw [(load_of_file hnew hfile).2 hnot, hmade]

/-- **What a file leaves out is standard.** Where a file counts, a field that it does not name has the
value of its variable, by the rule of the field, and the standard value if that is not set. So it is
as it would be without the file under the same variables and standard settings. Under the settings
of the loader it would be the same exactly if its variable is set or the settings have the standard
value for it. -/
theorem leftOut_of_load {bare : FileTree} {elsewhere : Place} {given : Fields} {o : Options}
    (hnew : Assoc.get? loader.cache project = none)
    (hfile : tree.find? (configFile project) = some (.file content))
    (hgives : Configuration.Gives content given)
    (hmade : Options.ofFields (Assoc.merge (Assoc.merge Options.standard.fields given)
      (Configuration.overrides env)) = .ok o)
    (hnew' : Assoc.get? loader.cache elsewhere = none)
    (hbare : bare.find? (configFile elsewhere) = none) :
    (loader.load tree env project).1 = .ok o
      ∧ (Options.tolerantField ∉ Assoc.keys given →
        Configuration.tolerantUnder env Options.standard = .ok o.tolerant)
      ∧ (Options.maxFileSizeField ∉ Assoc.keys given →
        Configuration.maxFileSizeUnder env Options.standard = .ok o.maxFileSize)
      ∧ ∃ without standard, (loader.load bare env elsewhere).1 = .ok without
        ∧ ((ofSettings .standard).load bare env elsewhere).1 = .ok standard
        ∧ ∀ field, field ∉ Assoc.keys given →
          Assoc.get? o.fields field = Assoc.get? standard.fields field
            ∧ (Assoc.get? o.fields field = Assoc.get? without.fields field
              ↔ Assoc.has (Configuration.overrides env) field
                ∨ Assoc.get? loader.settings.options.fields field
                  = Assoc.get? Options.standard.fields field) := by
  have hcounts : Configuration.ofContent? env content = some o :=
    Configuration.ofContent?_eq_some.2 ⟨given, hgives, hmade⟩
  have hunder := Configuration.underEnvironment_of_layered hgives.nodup hmade
  have hload : (loader.load tree env project).1 = .ok o := by
    simp only [load, hnew, current, hfile, hcounts]
  have hwithout : (loader.load bare env elsewhere).1
      = .ok (Configuration.laid env o loader.settings.options) := by
    simp only [load, hnew', current, hbare, Configuration.ofSettings_eq, hunder]
  have hstandard : ((ofSettings .standard).load bare env elsewhere).1
      = .ok (Configuration.laid env o Options.standard) := by
    rw [load_of_noFile hbare, hunder]
    rfl
  obtain ⟨htolerant, hmaxFileSize⟩ := Configuration.under_of_leftOut hgives.nodup hmade
  refine ⟨hload, htolerant, hmaxFileSize, _, _, hwithout, hstandard, ?_⟩
  intro field hleft
  -- both loads without the file differ from the one with it below the variables only
  rw [Configuration.get?_fields_laid, Configuration.get?_fields_laid]
  cases hset : Assoc.has (Configuration.overrides env) field with
  | true => exact ⟨rfl, iff_of_true rfl (.inl rfl)⟩
  | false =>
      have hvalue : Assoc.get? o.fields field = Assoc.get? Options.standard.fields field :=
        Configuration.get?_fields_of_leftOut hgives.nodup hmade hleft hset
      rw [hvalue]
      refine ⟨rfl, ?_⟩
      simp only [Bool.false_eq_true, if_false, false_or]
      exact eq_comm

/-- A limit of four megabytes. -/
private def limitFields : Fields := [(Options.maxFileSizeField, .number (.whole 4))]

private theorem gives_limitFields : Configuration.Gives (contentOf limitFields) limitFields := by
  have hplain : (Json.object limitFields).Plain := by
    refine .object (by decide) fun field hfield => ?_
    obtain rfl := List.mem_singleton.1 hfield
    exact .whole (by decide)
  exact Configuration.contentOptions?_eq_some.1 (contentOptions?_contentOf hplain)

/-- The file leaves the tolerance out, which is as under standard settings, and would be as under
the settings of the loader if these were not tolerant, or if the variable were set. -/
theorem leftOut_limitFile :
    (tolerantLoader.load (directoryWith limitFields) [] []).1 = .ok ⟨false, ⟨4, by decide⟩⟩
      ∧ Configuration.tolerantUnder [] Options.standard = .ok false
      ∧ ∃ without standard, (tolerantLoader.load .empty [] []).1 = .ok without
        ∧ ((ofSettings .standard).load .empty [] []).1 = .ok standard
        ∧ standard.tolerant = false
        ∧ (false = without.tolerant ↔ tolerantLoader.settings.options.tolerant = false) := by
  have hmade : Options.ofFields (Assoc.merge (Assoc.merge Options.standard.fields limitFields)
      (Configuration.overrides [])) = .ok ⟨false, ⟨4, by decide⟩⟩ := by
    decide +kernel
  have hleft : Options.tolerantField ∉ Assoc.keys limitFields := by decide
  have hnew : Assoc.get? tolerantLoader.cache [] = none := rfl
  have hfile : (directoryWith limitFields).find? (configFile [])
      = some (.file (contentOf limitFields)) := rfl
  have hbare : FileTree.empty.find? (configFile []) = none := rfl
  obtain ⟨hload, hvalue, -, without, standard, hwithout, hstandard, hfields⟩ :=
    leftOut_of_load hnew hfile gives_limitFields hmade hnew hbare
  obtain ⟨hsame, hiff⟩ := hfields Options.tolerantField hleft
  refine ⟨hload, hvalue hleft, without, standard, hwithout, hstandard, ?_, ?_⟩
  · exact (Json.bool.inj (Option.some.inj hsame)).symm
  · constructor
    · intro h
      have hvalue := (hiff.1 (congrArg (fun b => some (Json.bool b)) h)).resolve_left nofun
      exact Json.bool.inj (Option.some.inj hvalue)
    · intro h
      have hvalue := hiff.2 (.inr (congrArg (fun b => some (Json.bool b)) h))
      exact Json.bool.inj (Option.some.inj hvalue)

/-- **With tolerant settings the tolerance is not what it would be without the file**, which does
not name it. -/
theorem leftOut_tolerantSettings :
    Configuration.Gives (contentOf limitFields) limitFields
      ∧ Options.tolerantField ∉ Assoc.keys limitFields
      ∧ (tolerantLoader.load (directoryWith limitFields) [] []).1 = .ok ⟨false, ⟨4, by decide⟩⟩
      ∧ (tolerantLoader.load .empty [] []).1 = .ok ⟨true, .standard⟩ := by
  refine ⟨gives_limitFields, by decide, ?_, ?_⟩
  · decide +kernel
  · decide +kernel

end Loader

end Stylesheet
