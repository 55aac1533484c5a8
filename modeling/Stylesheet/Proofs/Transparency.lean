/-
When a loader answers as one that knows nothing.

A loader looks at a project once. This is meant not to show, as long as no one but the loader writes
configuration files: a project that was loaded was looked at under the environment, and its file has
not changed since. But a save keeps the options as they were given, and what it wrote is read back
under the environment. So the loader answers like a new one exactly if the environment leaves the
options alone that were saved last for the project, counted from when the loader was last cleared.

The file that a save wrote is read back without loss (`Json.ofText?_toDocument`), so what a new
loader answers after a save is known: the saved options under the environment. What the loader
itself answers follows from an invariant of its runs (`Coherent`), which each of the things that a
step can do keeps.
-/
import Stylesheet.Proofs.Documents
import Stylesheet.Proofs.History
import Stylesheet.Proofs.Overrides

set_option autoImplicit false

namespace Stylesheet

/-! ## Files that were saved -/

namespace Configuration

/-- What is written for options is plain. -/
theorem plain_document (o : Options) : (document o).Plain := by
  have hsize : (Nat.toDigits 10 (o.maxFileSize.val : Int).natAbs).length ≤ Numeral.maxDigits := by
    have hthree := (Nat.length_toDigits_le_iff (b := 10) (n := o.maxFileSize.val) (k := 3)
      (by omega) (by omega)).2 (by have := o.maxFileSize.property.2; omega)
    rw [Int.natAbs_natCast, Numeral.maxDigits]
    omega
  have hfields : (Json.object o.fields).Plain := by
    have hkeys : [Options.tolerantField, Options.maxFileSizeField].Nodup := by decide
    refine .object hkeys fun field hfield => ?_
    rcases List.mem_cons.1 hfield with rfl | hfield
    · exact .bool o.tolerant
    · obtain rfl := List.mem_singleton.1 hfield
      exact .whole hsize
  have hkeys : ["version", optionsKey].Nodup := by decide
  refine .object hkeys fun field hfield => ?_
  rcases List.mem_cons.1 hfield with rfl | hfield
  · exact .string version
  · obtain rfl := List.mem_singleton.1 hfield
    exact hfields

theorem contentOptions?_document (o : Options) :
    contentOptions? (document o).toDocument.toUTF8 = some o.fields := by
  rw [contentOptions?, Text.Utf8.toList_toUTF8, Text.Utf8.decode?_encode, Option.bind_some,
    String.ofList_toList, Json.ofText?_toDocument (plain_document o)]
  rfl

theorem ofContent?_document (env : Environment) (o : Options) :
    ofContent? env (document o).toDocument.toUTF8 = (underEnvironment env o).toOption := by
  obtain ⟨first, second, hfields, -⟩ := exists_overridden_eq env o
  rw [ofContent?_eq, contentOptions?_document, Option.bind_some, underEnvironment, hfields]
  rfl

end Configuration

namespace Loader

/-- What is current of a project whose file was written for options: these options under the
environment, or what is wrong with it. -/
theorem current_of_document {settings : Settings} {tree : FileTree} {env : Environment}
    {project : Place} {o : Options}
    (hfile : tree.find? (configFile project)
      = some (.file (Configuration.document o).toDocument.toUTF8)) :
    current settings tree env project
      = (Configuration.underEnvironment env o).mapError LoadError.invalid := by
  rw [current, hfile]
  simp only [Configuration.ofContent?_document]
  cases hunder : Configuration.underEnvironment env o with
  | ok o' => rfl
  | error errors =>
      -- then there are no options of the settings either, for the same reason
      rw [Configuration.ofSettings_eq,
        Configuration.underEnvironment_eq_error hunder settings.options]
      rfl

/-! ## Runs without doings from outside

As long as nobody else writes files or sets variables, what the loader knows, what its files hold
and what its history says go together. Each of its own steps keeps this so. -/

/-- A step that the loader itself takes. -/
def Step.IsOwn : Step → Prop
  | .outside _ _ => False
  | _ => True

/-- The options that an event saves for a project. -/
def Event.saved? (resolve : String → Place) (project : Place) : Event → Option Options
  | .saved path options true => if resolve path = project then some options else none
  | _ => none

variable {resolve : String → Place} {settings : Settings} {env : Environment}
  {history : List Event} {w : World}

/-- What is known and what the files hold, by the history of the loader's own steps. A project that
was saved is known by the options that were saved last, and these stand in its file. What else is
known is current. -/
structure Coherent (resolve : String → Place) (settings : Settings) (env : Environment)
    (history : List Event) (w : World) : Prop where
  settings_eq : w.loader.settings = settings
  env_eq : w.env = env
  saved : ∀ {project : Place} {o : Options}, Latest (Event.saved? resolve project) history o →
    Assoc.get? w.loader.cache project = some o
      ∧ w.tree.find? (configFile project)
        = some (.file (Configuration.document o).toDocument.toUTF8)
  known : ∀ {project : Place} {o : Options}, Assoc.get? w.loader.cache project = some o →
    Latest (Event.saved? resolve project) history o
      ∨ current settings w.tree env project = .ok o

theorem coherent_start (resolve : String → Place) (settings : Settings) (tree : FileTree)
    (env : Environment) : Coherent resolve settings env [] (.start settings tree env) :=
  ⟨rfl, rfl, fun h => absurd h not_latest_nil, nofun⟩

theorem Coherent.quiet (h : Coherent resolve settings env history w) {event : Event}
    (hsaved : ∀ project, event.saved? resolve project = none) (hcleared : event ≠ .cleared) :
    Coherent resolve settings env (history ++ [event]) w where
  settings_eq := h.settings_eq
  env_eq := h.env_eq
  saved hlatest := h.saved ((latest_concat_of_none (hsaved _) hcleared).1 hlatest)
  known hknown := (h.known hknown).imp_left (latest_concat_of_none (hsaved _) hcleared).2

theorem Coherent.remember (h : Coherent resolve settings env history w) {project : Place}
    {o : Options} (hunknown : Assoc.get? w.loader.cache project = none)
    (hcurrent : current settings w.tree env project = .ok o) :
    Coherent resolve settings env history (w.learn project o) where
  settings_eq := h.settings_eq
  env_eq := h.env_eq
  saved := by
    intro other o' hlatest
    obtain ⟨hknown, hfile⟩ := h.saved hlatest
    have hne : project ≠ other := by
      rintro rfl
      rw [hunknown] at hknown
      cases hknown
    exact ⟨(w.known_learn_of_ne hne o).trans hknown, hfile⟩
  known := by
    intro other o' hknown
    by_cases hne : project = other
    · subst hne
      rw [w.known_learn_self] at hknown
      obtain rfl := Option.some.inj hknown
      exact .inr hcurrent
    · rw [w.known_learn_of_ne hne] at hknown
      exact h.known hknown

theorem Coherent.write (h : Coherent resolve settings env history w) {path : String} {o : Options}
    {tree : FileTree}
    (hwrite : w.tree.write (configFile (resolve path))
      (Configuration.document o).toDocument.toUTF8 = .ok tree) :
    Coherent resolve settings env (history ++ [.saved path o true])
      { w.learn (resolve path) o with tree := tree } where
  settings_eq := h.settings_eq
  env_eq := h.env_eq
  saved := by
    intro project o' hlatest
    rw [latest_concat] at hlatest
    by_cases hne : resolve path = project
    · subst hne
      rw [Event.saved?, if_pos rfl] at hlatest
      obtain rfl := Option.some.inj (hlatest.resolve_right nofun)
      exact ⟨w.known_learn_self _ _, FileTree.find?_write_self hwrite⟩
    · rw [Event.saved?, if_neg hne] at hlatest
      obtain ⟨hknown, hfile⟩ := h.saved (hlatest.resolve_left nofun).2.2
      refine ⟨(w.known_learn_of_ne hne o).trans hknown, ?_⟩
      exact (FileTree.find?_write_of_ne hwrite (configFile_ne hne)).trans hfile
  known := by
    intro project o' hknown
    rw [latest_concat]
    by_cases hne : resolve path = project
    · subst hne
      rw [Event.saved?, if_pos rfl]
      exact .inl (.inl ((w.known_learn_self _ o).symm.trans hknown))
    · rw [Event.saved?, if_neg hne]
      have hbefore := (w.known_learn_of_ne hne o).symm.trans hknown
      refine (h.known hbefore).imp (fun hlatest => .inr ⟨rfl, nofun, hlatest⟩) fun hcurrent => ?_
      -- the file of another project is not touched
      rw [current, FileTree.find?_write_of_ne hwrite (configFile_ne hne)]
      exact hcurrent

/-- **One step** of the loader itself. -/
theorem Coherent.take (h : Coherent resolve settings env history w) {step : Step}
    (hown : step.IsOwn) :
    Coherent resolve settings env (history ++ [(w.take resolve step).1])
      (w.take resolve step).2 := by
  have hdoes := w.does_take resolve step
  generalize w.take resolve step = result at hdoes ⊢
  cases hdoes with
  | answered hknown => exact h.quiet (fun _ => rfl) nofun
  | learned hunknown hcurrent =>
      rw [h.settings_eq, h.env_eq] at hcurrent
      exact (h.remember hunknown hcurrent).quiet (fun _ => rfl) nofun
  | refused hunknown hcurrent => exact h.quiet (fun _ => rfl) nofun
  | written hwrite => exact h.write hwrite
  | unwritten hwrite => exact h.quiet (fun _ => rfl) nofun
  | cleared =>
      -- nothing has been saved since the loader was cleared, and nothing is known
      refine ⟨h.settings_eq, h.env_eq, fun hlatest => ?_, nofun⟩
      rw [latest_concat] at hlatest
      exact absurd rfl (hlatest.resolve_left nofun).2.1
  | changed => cases hown

/-- **A whole run** of the loader itself. -/
theorem coherent_run (resolve : String → Place) (settings : Settings) (tree : FileTree)
    (env : Environment) {steps : List Step} (hown : ∀ step ∈ steps, step.IsOwn) :
    Coherent resolve settings env ((World.start settings tree env).run resolve steps).1
      ((World.start settings tree env).run resolve steps).2 := by
  induction steps using List.reverseRecOn with
  | nil => exact coherent_start resolve settings tree env
  | append_singleton steps step ih =>
      rw [World.run_concat]
      have hbefore := ih fun s hs => hown s (List.mem_append_left _ hs)
      exact hbefore.take (hown step (List.mem_append_right _ List.mem_cons_self))

/-! ## The answer of a new loader -/

/-- **A loader that works alone** answers like a new one with the same settings under the same
environment, exactly if the options that were saved last for the project, since the loader was last
cleared, are options that the environment leaves as they are. Otherwise it answers with the saved
options as they were given, and a new loader with these options under the environment. -/
theorem load_eq_fresh_iff {tree : FileTree} {steps : List Step}
    (hrun : (World.start settings tree env).run resolve steps = (history, w))
    (hown : ∀ step ∈ steps, step.IsOwn) (path : String) :
    ((w.take resolve (.load path)).1
          = ((World.start settings w.tree env).take resolve (.load path)).1
        ↔ ∀ o, Latest (Event.saved? resolve (resolve path)) history o →
          Configuration.underEnvironment env o = .ok o)
      ∧ ∀ o, Latest (Event.saved? resolve (resolve path)) history o →
        (w.take resolve (.load path)).1 = .loaded path (.ok o)
          ∧ ((World.start settings w.tree env).take resolve (.load path)).1
            = .loaded path ((Configuration.underEnvironment env o).mapError .invalid) := by
  have hcoherent : Coherent resolve settings env history w := by
    have h := coherent_run resolve settings tree env hown
    rw [hrun] at h
    exact h
  have hfresh : ((World.start settings w.tree env).take resolve (.load path)).1
      = .loaded path (current settings w.tree env (resolve path)) :=
    congrArg (Event.loaded path) (World.answer_start settings w.tree env _)
  have hsaved : ∀ o, Latest (Event.saved? resolve (resolve path)) history o →
      (w.take resolve (.load path)).1 = .loaded path (.ok o)
        ∧ ((World.start settings w.tree env).take resolve (.load path)).1
          = .loaded path ((Configuration.underEnvironment env o).mapError .invalid) := by
    intro o hlatest
    obtain ⟨hknown, hfile⟩ := hcoherent.saved hlatest
    rw [hfresh, current_of_document hfile]
    exact ⟨congrArg (Event.loaded path) (World.answer_of_known hknown), rfl⟩
  refine ⟨⟨?_, ?_⟩, hsaved⟩
  · intro heq o hlatest
    obtain ⟨hloaded, hnew⟩ := hsaved o hlatest
    rw [hloaded, hnew, Event.loaded.injEq] at heq
    cases hunder : Configuration.underEnvironment env o with
    | ok o' =>
        rw [hunder] at heq
        have hsame : o = o' := Except.ok.inj heq.2
        rw [hsame]
    | error errors =>
        rw [hunder] at heq
        cases heq.2
  · intro hleft
    by_cases hlatest : ∃ o, Latest (Event.saved? resolve (resolve path)) history o
    · obtain ⟨o, ho⟩ := hlatest
      obtain ⟨hloaded, hnew⟩ := hsaved o ho
      rw [hloaded, hnew, hleft o ho]
      rfl
    · rw [hfresh]
      -- what was not saved is current, whether it is known or not
      apply congrArg (Event.loaded path)
      show w.answer (resolve path) = _
      cases hknown : Assoc.get? w.loader.cache (resolve path) with
      | some o =>
          rw [World.answer_of_known hknown]
          exact ((hcoherent.known hknown).resolve_left fun h => hlatest ⟨o, h⟩).symm
      | none =>
          rw [World.answer_of_unknown hknown, hcoherent.settings_eq, hcoherent.env_eq]

section Seven

/-- An environment with a limit of seven megabytes. -/
private def sevenMegabytes : Environment := [("CSS_SOURCE_MAX_FILE_SIZE_MB", "7")]

private theorem seven_admitted : 1 ≤ 7 ∧ 7 ≤ 100 := by decide

/-- Options with this limit, and more. -/
private def limitedToSeven : Options := ⟨true, ⟨7, seven_admitted⟩⟩

/-- A new loader under this environment, in a working directory with nothing in it, saves options
there. -/
private def savedUnderSeven (o : Options) : List Event × World :=
  (World.start .standard .empty sevenMegabytes).run Place.ofText [.load ".", .save "" o]

/-- After saving options with this limit the loader answers like a new one. -/
theorem load_limitedToSeven :
    ((savedUnderSeven limitedToSeven).2.take Place.ofText (.load ".")).1
      = ((World.start .standard (savedUnderSeven limitedToSeven).2.tree sevenMegabytes).take
          Place.ofText (.load ".")).1 := by
  have hrun : (World.start .standard .empty sevenMegabytes).run Place.ofText
      [.load ".", .save "" limitedToSeven]
        = ((savedUnderSeven limitedToSeven).1, (savedUnderSeven limitedToSeven).2) := rfl
  have hown : ∀ step ∈ [Step.load ".", .save "" limitedToSeven], step.IsOwn := by
    simp [Step.IsOwn]
  apply (load_eq_fresh_iff hrun hown ".").1.2
  intro o hlatest
  have hhistory : (savedUnderSeven limitedToSeven).1
      = [.loaded "." (.ok ⟨false, ⟨7, by decide⟩⟩)] ++ [.saved "" limitedToSeven true] := by
    decide +kernel
  have hsaved : (Event.saved "" limitedToSeven true).saved? Place.ofText (Place.ofText ".")
      = some limitedToSeven := by decide +kernel
  rw [hhistory, latest_concat, hsaved] at hlatest
  obtain rfl := Option.some.inj (hlatest.resolve_right nofun)
  decide +kernel

/-- **A save hides the environment**: after saving options with another limit the loader answers
with that limit, and a new one with the limit of the environment. Nothing is wrong with the
environment, under which the settings make options. -/
theorem load_three_under_seven :
    Configuration.ofSettings .standard sevenMegabytes = .ok ⟨false, ⟨7, by decide⟩⟩
      ∧ ((savedUnderSeven ⟨false, ⟨3, by decide⟩⟩).2.take Place.ofText (.load ".")).1
        = .loaded "." (.ok ⟨false, ⟨3, by decide⟩⟩)
      ∧ ((World.start .standard (savedUnderSeven ⟨false, ⟨3, by decide⟩⟩).2.tree
          sevenMegabytes).take Place.ofText (.load ".")).1
        = .loaded "." (.ok ⟨false, ⟨7, by decide⟩⟩) := by
  decide +kernel

end Seven

end Loader

end Stylesheet
