/-
What a loader answers, told from the history of its steps.

Two things write into what a loader knows: a load, under the place of the project, and a save,
under the directory of the file that it wrote. The two are the same place, so under each place
stands what the latest of them left there, unless the loader was cleared after it (`Latest`). What a
step can do is said once (`World.Does`); from this one step keeps what is known in line with the
history (`known_take`), and so does a run (`known_run`).

Around the loader everything may change at any time. What the answer about a project depends on is
little: what is known of it, the settings, the environment, its configuration file, and whether its
directory is there (`World.SameAt`). A step on another project leaves all this as it is, also where
the file that it writes stands in the place of the directory.
-/
import Mathlib.Data.List.Induction
import Stylesheet.Project.Loader

set_option autoImplicit false

namespace Stylesheet

/-! ## Files that are written

A file is found where it was written. Nothing else changes by that: all other places hold what
they held, and no directory appears or goes. The place of a configuration is that of its project
and a name, so that two projects have two. -/

namespace FileTree

variable {tree tree' : FileTree} {place other : Place} {content : ByteArray}

theorem write_eq_ok :
    tree.write place content = .ok tree'
      ↔ tree.find? place ≠ some .directory ∧ tree.find? place.dropLast = some .directory
        ∧ tree' = ⟨Assoc.put tree.entries place (.file content)⟩ := by
  have hchecked : (do tree.checkDirectory place.dropLast
                      return (⟨Assoc.put tree.entries place (.file content)⟩ : FileTree))
        = .ok tree'
      ↔ tree.find? place.dropLast = some .directory
        ∧ tree' = ⟨Assoc.put tree.entries place (.file content)⟩ := by
    rw [checkDirectory]
    rcases tree.find? place.dropLast with _ | _ | _
    · exact ⟨nofun, nofun⟩
    · exact ⟨nofun, nofun⟩
    · exact ⟨fun h => ⟨rfl, (Except.ok.inj h).symm⟩, fun h => h.2 ▸ rfl⟩
  rw [write]
  rcases hplace : tree.find? place with _ | _ | _
  · exact hchecked.trans ⟨fun h => ⟨nofun, h⟩, And.right⟩
  · exact hchecked.trans ⟨fun h => ⟨nofun, h⟩, And.right⟩
  · exact ⟨nofun, fun h => absurd rfl h.1⟩

theorem find?_write_self (h : tree.write place content = .ok tree') :
    tree'.find? place = some (.file content) := by
  obtain ⟨hplace, -, rfl⟩ := write_eq_ok.1 h
  have hroot : place ≠ [] := by
    rintro rfl
    exact hplace (if_pos rfl)
  rw [find?, if_neg hroot, Assoc.get?_put_self]

theorem find?_write_of_ne (h : tree.write place content = .ok tree') (hne : place ≠ other) :
    tree'.find? other = tree.find? other := by
  obtain ⟨-, -, rfl⟩ := write_eq_ok.1 h
  rw [find?, find?, Assoc.get?_put_of_ne hne]

theorem find?_write_eq_directory (h : tree.write place content = .ok tree') (other : Place) :
    tree'.find? other = some .directory ↔ tree.find? other = some .directory := by
  by_cases hne : place = other
  · subst hne
    obtain ⟨hplace, -⟩ := write_eq_ok.1 h
    rw [find?_write_self h]
    exact ⟨nofun, fun hd => absurd hd hplace⟩
  · rw [find?_write_of_ne h hne]

end FileTree

namespace Loader

theorem dropLast_configFile (project : Place) : (configFile project).dropLast = project :=
  List.dropLast_concat

theorem configFile_ne {project other : Place} (h : project ≠ other) :
    configFile project ≠ configFile other :=
  fun heq => h (List.append_cancel_right heq)

/-! ## Runs -/

/-- One thing that happens to a loader or around it. The projects are told by the texts of
paths. -/
inductive Step where
  | load (path : String)
  | save (path : String) (options : Options)
  | clear
  /-- Files, directories and variables come to be others, by no doing of the loader. -/
  | outside (tree : FileTree) (env : Environment)

/-- What a step came to. -/
inductive Event where
  | loaded (path : String) (answer : Except LoadError Options)
  | saved (path : String) (options : Options) (done : Bool)
  | cleared
  | changed
  deriving DecidableEq

/-- A loader and what is around it. -/
structure World where
  loader : Loader
  tree : FileTree
  env : Environment

variable (resolve : String → Place)

namespace World

/-- A loader that knows nothing, in the world as it is. -/
def start (settings : Settings) (tree : FileTree) (env : Environment) : World :=
  ⟨ofSettings settings, tree, env⟩

/-- What a load of a project would answer now. -/
def answer (w : World) (project : Place) : Except LoadError Options :=
  (w.loader.load w.tree w.env project).1

/-- One step: what it comes to, and the world after it. -/
def take (w : World) : Step → Event × World
  | .load path =>
    let (answer, loader) := w.loader.load w.tree w.env (resolve path)
    (.loaded path answer, { w with loader := loader })
  | .save path options =>
    let (done, tree, loader) := w.loader.save w.tree (resolve path) options
    (.saved path options done, { w with loader := loader, tree := tree })
  | .clear => (.cleared, { w with loader := w.loader.clear })
  | .outside tree env => (.changed, { w with tree := tree, env := env })

/-- One step after the other: what they come to, and the world after them. -/
def run (w : World) : List Step → List Event × World
  | [] => ([], w)
  | step :: steps =>
    let first := w.take resolve step
    let rest := first.2.run steps
    (first.1 :: rest.1, rest.2)

/-- A run with one more step is the run, and then the step. -/
theorem run_concat (w : World) (steps : List Step) (step : Step) :
    w.run resolve (steps ++ [step])
      = ((w.run resolve steps).1 ++ [((w.run resolve steps).2.take resolve step).1],
        ((w.run resolve steps).2.take resolve step).2) := by
  induction steps generalizing w with
  | nil => rfl
  | cons s steps ih =>
      rw [List.cons_append, run, run, ih]
      rfl

/-- The world after the loader has come to know options of a project. -/
def learn (w : World) (project : Place) (o : Options) : World :=
  { w with loader := { w.loader with cache := Assoc.put w.loader.cache project o } }

theorem known_learn_self (w : World) (project : Place) (o : Options) :
    Assoc.get? (w.learn project o).loader.cache project = some o :=
  Assoc.get?_put_self _ _ _

theorem known_learn_of_ne (w : World) {project other : Place} (hne : project ≠ other)
    (o : Options) :
    Assoc.get? (w.learn project o).loader.cache other = Assoc.get? w.loader.cache other :=
  Assoc.get?_put_of_ne hne _ _

/-- All that one step can come to, and when it does. -/
inductive Does (w : World) : Step → Event × World → Prop where
  /-- A project that is known is answered, and nothing changes. -/
  | answered {path : String} {o : Options}
      (hknown : Assoc.get? w.loader.cache (resolve path) = some o) :
      Does w (.load path) (.loaded path (.ok o), w)
  /-- A project that is not known is looked at, and known from then on. -/
  | learned {path : String} {o : Options}
      (hunknown : Assoc.get? w.loader.cache (resolve path) = none)
      (hcurrent : current w.loader.settings w.tree w.env (resolve path) = .ok o) :
      Does w (.load path) (.loaded path (.ok o), w.learn (resolve path) o)
  /-- Nothing is learned of a project that has no options now. -/
  | refused {path : String} {reason : LoadError}
      (hunknown : Assoc.get? w.loader.cache (resolve path) = none)
      (hcurrent : current w.loader.settings w.tree w.env (resolve path) = .error reason) :
      Does w (.load path) (.loaded path (.error reason), w)
  /-- Options that can be written are known from then on. -/
  | written {path : String} {o : Options} {tree : FileTree}
      (hwrite : w.tree.write (configFile (resolve path))
        (Configuration.document o).toDocument.toUTF8 = .ok tree) :
      Does w (.save path o) (.saved path o true, { w.learn (resolve path) o with tree := tree })
  /-- Nothing changes if they cannot. -/
  | unwritten {path : String} {o : Options} {e : FileError}
      (hwrite : w.tree.write (configFile (resolve path))
        (Configuration.document o).toDocument.toUTF8 = .error e) :
      Does w (.save path o) (.saved path o false, w)
  | cleared : Does w .clear (.cleared, { w with loader := w.loader.clear })
  | changed {tree : FileTree} {env : Environment} :
      Does w (.outside tree env) (.changed, { w with tree := tree, env := env })

/-- A step does one of these things. -/
theorem does_take (w : World) (step : Step) : w.Does resolve step (w.take resolve step) := by
  cases step with
  | load path =>
      rw [take, load]
      cases hknown : Assoc.get? w.loader.cache (resolve path) with
      | some o => exact .answered hknown
      | none =>
          cases hcurrent : current w.loader.settings w.tree w.env (resolve path) with
          | ok o => exact .learned hknown hcurrent
          | error reason => exact .refused hknown hcurrent
  | save path o =>
      rw [take, save]
      simp only [dropLast_configFile]
      cases hwrite : w.tree.write (configFile (resolve path))
          (Configuration.document o).toDocument.toUTF8 with
      | ok tree => exact .written hwrite
      | error e => exact .unwritten hwrite
  | clear => exact .cleared
  | outside tree env => exact .changed

variable {resolve} in
/-- And what it does is determined. -/
theorem Does.eq_take {w : World} {step : Step} {result : Event × World}
    (h : w.Does resolve step result) : result = w.take resolve step := by
  cases h with
  | answered hknown => rw [World.take, load, hknown]
  | learned hunknown hcurrent =>
      rw [World.take, load, hunknown]
      simp only [hcurrent]
      rfl
  | refused hunknown hcurrent =>
      rw [World.take, load, hunknown]
      simp only [hcurrent]
  | written hwrite =>
      rw [World.take, save]
      simp only [hwrite, dropLast_configFile]
      rfl
  | unwritten hwrite =>
      rw [World.take, save]
      simp only [hwrite]
  | cleared => rfl
  | changed => rfl

end World

/-! ## The latest event -/

namespace Event

/-- The options that an event leaves known of a project: those that were loaded, or saved with
success, under any path that leads to it. -/
def left? (project : Place) : Event → Option Options
  | .loaded path (.ok options) => if resolve path = project then some options else none
  | .saved path options true => if resolve path = project then some options else none
  | _ => none

/-- An event that is a load or a save without success. -/
def Failed : Event → Prop
  | .loaded _ (.error _) => True
  | .saved _ _ false => True
  | _ => False

end Event

/-- The latest event in which something is found, since the loader was last cleared, has found
`a`. -/
def Latest {α : Type} (found : Event → Option α) (history : List Event) (a : α) : Prop :=
  ∃ before event after, history = before ++ event :: after ∧ found event = some a
    ∧ ∀ e ∈ after, found e = none ∧ e ≠ .cleared

section Latest

variable {α : Type} {found : Event → Option α} {history : List Event} {a : α}

theorem not_latest_nil : ¬ Latest found [] a := by
  rintro ⟨before, event, after, h, -⟩
  cases before <;> cases h

/-- With one more event, this is the latest, or else the one before still is. -/
theorem latest_concat {event : Event} :
    Latest found (history ++ [event]) a
      ↔ found event = some a
        ∨ (found event = none ∧ event ≠ .cleared ∧ Latest found history a) := by
  constructor
  · rintro ⟨before, e, after, h, hfound, hafter⟩
    rcases List.eq_nil_or_concat after with rfl | ⟨middle, last, rfl⟩
    · obtain ⟨-, hlast⟩ := List.append_inj' h rfl
      obtain rfl := List.singleton_inj.1 hlast
      exact .inl hfound
    · rw [List.concat_eq_append] at h hafter
      rw [← List.cons_append, ← List.append_assoc] at h
      obtain ⟨rfl, hlast⟩ := List.append_inj' h rfl
      obtain rfl := List.singleton_inj.1 hlast
      obtain ⟨hnone, hcleared⟩ := hafter event (List.mem_append_right _ List.mem_cons_self)
      refine .inr ⟨hnone, hcleared, before, e, middle, rfl, hfound, ?_⟩
      exact fun e' he' => hafter e' (List.mem_append_left _ he')
  · rintro (hfound | ⟨hnone, hcleared, before, e, after, rfl, hfound, hafter⟩)
    · exact ⟨history, event, [], rfl, hfound, nofun⟩
    · refine ⟨before, e, after ++ [event], by rw [List.append_assoc]; rfl, hfound, ?_⟩
      intro e' he'
      rcases List.mem_append.1 he' with he' | he'
      · exact hafter e' he'
      · obtain rfl := List.mem_singleton.1 he'
        exact ⟨hnone, hcleared⟩

/-- An event in which nothing is found changes nothing, unless it clears the loader. -/
theorem latest_concat_of_none {event : Event} (hfound : found event = none)
    (hcleared : event ≠ .cleared) :
    Latest found (history ++ [event]) a ↔ Latest found history a := by
  rw [latest_concat, hfound]
  exact ⟨fun h => (h.resolve_left nofun).2.2, fun h => .inr ⟨rfl, hcleared, h⟩⟩

end Latest

/-! ## What is known -/

section Known

variable {resolve : String → Place}

/-- What is known after something was learned is that, if it is of the same project, and else what
was known. -/
theorem known_learn (w : World) {place project : Place} {o o' : Options} :
    Assoc.get? (w.learn place o).loader.cache project = some o'
      ↔ (if place = project then some o else none) = some o'
        ∨ ((if place = project then some o else none) = none
          ∧ Assoc.get? w.loader.cache project = some o') := by
  by_cases h : place = project
  · subst h
    rw [World.known_learn_self, if_pos rfl]
    exact ⟨.inl, fun h => h.resolve_right nofun⟩
  · rw [World.known_learn_of_ne w h, if_neg h]
    exact ⟨fun h => .inr ⟨rfl, h⟩, fun h => (h.resolve_left nofun).2⟩

/-- **One step.** What is known of a project after a step is what the step leaves of it. If the
step leaves nothing of it, and is not one that clears the loader, it is what was known before. -/
theorem known_take (w : World) (step : Step) (project : Place) (o : Options) :
    Assoc.get? (w.take resolve step).2.loader.cache project = some o
      ↔ (w.take resolve step).1.left? resolve project = some o
        ∨ ((w.take resolve step).1.left? resolve project = none
          ∧ (w.take resolve step).1 ≠ .cleared
          ∧ Assoc.get? w.loader.cache project = some o) := by
  have hsame : ∀ e : Event, e.left? resolve project = none → e ≠ .cleared →
      (Assoc.get? w.loader.cache project = some o
        ↔ e.left? resolve project = some o
          ∨ (e.left? resolve project = none ∧ e ≠ .cleared
            ∧ Assoc.get? w.loader.cache project = some o)) := by
    intro e hleft hcleared
    simp [hleft, hcleared]
  have hdoes := w.does_take resolve step
  generalize w.take resolve step = result at hdoes ⊢
  cases hdoes with
  | @answered path known hknown =>
      by_cases h : resolve path = project
      · -- what is known is left once more
        subst h
        rw [Event.left?, if_pos rfl, hknown]
        simp
      · exact hsame _ (if_neg h) (by simp)
  | learned hunknown hcurrent => simp [Event.left?, known_learn]
  | refused hunknown hcurrent => exact hsame _ rfl (by simp)
  | written hwrite => simp [Event.left?, known_learn]
  | unwritten hwrite => exact hsame _ rfl (by simp)
  | cleared => simp [Event.left?, Loader.clear, Assoc.get?]
  | changed => exact hsame _ rfl (by simp)

/-- **A whole run.** What is known of a project is what the latest step left of it since the
loader was last cleared. -/
theorem known_run (resolve : String → Place) (settings : Settings) (tree : FileTree)
    (env : Environment) (steps : List Step) (project : Place) (o : Options) :
    Assoc.get? ((World.start settings tree env).run resolve steps).2.loader.cache project = some o
      ↔ Latest (Event.left? resolve project) ((World.start settings tree env).run resolve steps).1
          o := by
  induction steps using List.reverseRecOn with
  | nil => exact ⟨nofun, fun h => absurd h not_latest_nil⟩
  | append_singleton steps step ih => rw [World.run_concat, known_take, latest_concat, ih]

theorem settings_take (w : World) (step : Step) :
    (w.take resolve step).2.loader.settings = w.loader.settings := by
  have hdoes := w.does_take resolve step
  generalize w.take resolve step = result at hdoes ⊢
  cases hdoes <;> rfl

theorem settings_run (resolve : String → Place) (w : World) (steps : List Step) :
    (w.run resolve steps).2.loader.settings = w.loader.settings := by
  induction steps generalizing w with
  | nil => rfl
  | cons step steps ih => exact (ih (w.take resolve step).2).trans (settings_take w step)

theorem loader_take_of_failed {w : World} {step : Step}
    (h : (w.take resolve step).1.Failed) : (w.take resolve step).2.loader = w.loader := by
  have hdoes := w.does_take resolve step
  generalize w.take resolve step = result at hdoes h ⊢
  cases hdoes with
  | refused hunknown hcurrent => rfl
  | unwritten hwrite => rfl
  | answered | learned | written | cleared | changed => cases h

end Known

/-! ## Other projects

Two worlds may differ in what concerns other projects: in what is known of them, and in their
files. As far as one project goes they stay the same if both take the same step, and also if one
of them takes a step on another project. -/

section Elsewhere

/-- A step that has to do with a project: not a load or a save of another. -/
def Step.concerns (project : Place) : Step → Bool
  | .load path | .save path _ => resolve path == project
  | .clear | .outside _ _ => true

variable {resolve : String → Place}

/-- Two worlds that are the same as far as one project goes. -/
structure World.SameAt (project : Place) (w w' : World) : Prop where
  settings : w.loader.settings = w'.loader.settings
  known : Assoc.get? w.loader.cache project = Assoc.get? w'.loader.cache project
  env : w.env = w'.env
  file : w.tree.find? (configFile project) = w'.tree.find? (configFile project)
  directory : w.tree.find? project = some .directory ↔ w'.tree.find? project = some .directory

namespace World.SameAt

variable {project : Place} {w w' w'' : World}

theorem refl (w : World) : SameAt project w w := ⟨rfl, rfl, rfl, rfl, .rfl⟩

theorem trans (h : SameAt project w w') (h' : SameAt project w' w'') : SameAt project w w'' :=
  ⟨h.settings.trans h'.settings, h.known.trans h'.known, h.env.trans h'.env,
    h.file.trans h'.file, h.directory.trans h'.directory⟩

theorem symm (h : SameAt project w w') : SameAt project w' w :=
  ⟨h.settings.symm, h.known.symm, h.env.symm, h.file.symm, h.directory.symm⟩

theorem current_eq (h : SameAt project w w') :
    current w.loader.settings w.tree w.env project
      = current w'.loader.settings w'.tree w'.env project := by
  simp only [current, h.settings, h.env, h.file]

theorem answer_eq (h : SameAt project w w') : w.answer project = w'.answer project := by
  simp only [answer, load, h.known, h.current_eq]
  cases Assoc.get? w'.loader.cache project with
  | some known => rfl
  | none => cases current w'.loader.settings w'.tree w'.env project <;> rfl

theorem write_ok (h : SameAt project w w') {content : ByteArray} {tree : FileTree}
    (hwrite : w.tree.write (configFile project) content = .ok tree) :
    ∃ tree', w'.tree.write (configFile project) content = .ok tree' := by
  obtain ⟨hfile, hdirectory, -⟩ := FileTree.write_eq_ok.1 hwrite
  rw [dropLast_configFile] at hdirectory
  refine ⟨_, FileTree.write_eq_ok.2 ⟨h.file ▸ hfile, ?_, rfl⟩⟩
  rw [dropLast_configFile]
  exact h.directory.1 hdirectory

theorem learn_of_ne {other : Place} (hne : other ≠ project) (o : Options) :
    SameAt project w (w.learn other o) :=
  ⟨rfl, (known_learn_of_ne w hne o).symm, rfl, rfl, .rfl⟩

theorem learn (h : SameAt project w w') (o : Options) :
    SameAt project (w.learn project o) (w'.learn project o) := by
  refine ⟨h.settings, ?_, h.env, h.file, h.directory⟩
  rw [known_learn_self, known_learn_self]

/-- A load or save of another project leaves the world the same for this one. -/
theorem take_elsewhere (w : World) {step : Step} (h : step.concerns resolve project = false) :
    SameAt project w (w.take resolve step).2 := by
  have hdoes := w.does_take resolve step
  generalize w.take resolve step = result at hdoes ⊢
  cases hdoes with
  | answered | refused | unwritten => exact refl w
  | learned hunknown hcurrent =>
      rw [Step.concerns, beq_eq_false_iff_ne] at h
      exact learn_of_ne h _
  | written hwrite =>
      -- the file that is written may stand in the place of this project, but no directory can
      rw [Step.concerns, beq_eq_false_iff_ne] at h
      obtain ⟨hsettings, hknown, henv, -, -⟩ := learn_of_ne (w := w) h _
      exact ⟨hsettings, hknown, henv,
        (FileTree.find?_write_of_ne hwrite (configFile_ne h)).symm,
        (FileTree.find?_write_eq_directory hwrite project).symm⟩
  | cleared | changed => cases h

theorem take (h : SameAt project w w') {step : Step}
    (hconcerns : step.concerns resolve project = true) :
    SameAt project (w.take resolve step).2 (w'.take resolve step).2 := by
  have hdoes := w.does_take resolve step
  generalize w.take resolve step = result at hdoes ⊢
  cases hdoes with
  | answered hknown =>
      obtain rfl := eq_of_beq hconcerns
      rw [h.known] at hknown
      rw [← (Does.answered hknown).eq_take]
      exact h
  | learned hunknown hcurrent =>
      obtain rfl := eq_of_beq hconcerns
      rw [h.known] at hunknown
      rw [h.current_eq] at hcurrent
      rw [← (Does.learned hunknown hcurrent).eq_take]
      exact h.learn _
  | refused hunknown hcurrent =>
      obtain rfl := eq_of_beq hconcerns
      rw [h.known] at hunknown
      rw [h.current_eq] at hcurrent
      rw [← (Does.refused hunknown hcurrent).eq_take]
      exact h
  | written hwrite =>
      obtain rfl := eq_of_beq hconcerns
      obtain ⟨tree', hwrite'⟩ := h.write_ok hwrite
      rw [← (Does.written hwrite').eq_take]
      refine ⟨h.settings, (h.learn _).known, h.env, ?_, ?_⟩
      · rw [FileTree.find?_write_self hwrite, FileTree.find?_write_self hwrite']
      · rw [FileTree.find?_write_eq_directory hwrite, FileTree.find?_write_eq_directory hwrite']
        exact h.directory
  | @unwritten path o e hwrite =>
      obtain rfl := eq_of_beq hconcerns
      cases hwrite' : w'.tree.write (configFile (resolve path))
          (Configuration.document o).toDocument.toUTF8 with
      | ok tree' =>
          obtain ⟨tree, hok⟩ := h.symm.write_ok hwrite'
          rw [hwrite] at hok
          cases hok
      | error e' =>
          rw [← (Does.unwritten hwrite').eq_take]
          exact h
  | cleared => exact ⟨h.settings, rfl, h.env, h.file, h.directory⟩
  | changed => exact ⟨h.settings, h.known, rfl, rfl, .rfl⟩

/-- **A whole run** keeps two worlds the same if one of them leaves out what is done to other
projects. -/
theorem run_filter (h : SameAt project w w') (resolve : String → Place) (steps : List Step) :
    SameAt project (w.run resolve steps).2
      (w'.run resolve (steps.filter (Step.concerns resolve project))).2 := by
  induction steps generalizing w w' with
  | nil => exact h
  | cons step steps ih =>
      cases hconcerns : step.concerns resolve project with
      | true =>
          rw [List.filter_cons_of_pos hconcerns]
          exact ih (h.take hconcerns)
      | false =>
          rw [List.filter_cons_of_neg (by rw [hconcerns]; nofun)]
          exact ih ((take_elsewhere w hconcerns).symm.trans h)

end World.SameAt

end Elsewhere

/-! ## The answer -/

section Answer

variable {resolve : String → Place} {settings : Settings} {tree : FileTree} {env : Environment}
  {steps : List Step} {history : List Event} {w : World}

theorem World.answer_of_known {project : Place} {o : Options}
    (h : Assoc.get? w.loader.cache project = some o) : w.answer project = .ok o := by
  simp only [answer, load, h]

theorem World.answer_of_unknown {project : Place}
    (h : Assoc.get? w.loader.cache project = none) :
    w.answer project = current w.loader.settings w.tree w.env project := by
  simp only [answer, load, h]
  cases current w.loader.settings w.tree w.env project <;> rfl

theorem World.answer_start (settings : Settings) (tree : FileTree) (env : Environment)
    (project : Place) :
    (World.start settings tree env).answer project = current settings tree env project :=
  World.answer_of_unknown (w := .start settings tree env) rfl

/-- **What a load answers after a run.** Under any path that leads to a project, a load answers
with the options of the latest load of it, or save to it with success, since the loader was last
cleared. If there was none, it answers with what the file, the settings and the environment give
now. The answer is the same without the steps on other projects, and a step without success leaves
the loader as it was. -/
theorem answer_of_run (hrun : (World.start settings tree env).run resolve steps = (history, w))
    (path : String) :
    (∀ o, Latest (Event.left? resolve (resolve path)) history o →
        (w.take resolve (.load path)).1 = .loaded path (.ok o))
      ∧ ((∀ o, ¬ Latest (Event.left? resolve (resolve path)) history o) →
        (w.take resolve (.load path)).1
          = .loaded path (current settings w.tree w.env (resolve path)))
      ∧ (((World.start settings tree env).run resolve
            (steps.filter (Step.concerns resolve (resolve path)))).2.take resolve (.load path)).1
          = (w.take resolve (.load path)).1
      ∧ ∀ step, (w.take resolve step).1.Failed → (w.take resolve step).2.loader = w.loader := by
  have hknown := known_run resolve settings tree env steps (resolve path)
  have hsettings : w.loader.settings = settings := by
    have h := settings_run resolve (World.start settings tree env) steps
    rw [hrun] at h
    exact h
  have hstart : World.SameAt (resolve path) (World.start settings tree env)
    (World.start settings tree env) := .refl _
  have hsame := hstart.run_filter resolve steps
  rw [hrun] at hknown hsame
  refine ⟨?_, ?_, ?_, fun step => loader_take_of_failed⟩
  · intro o hlatest
    exact congrArg (Event.loaded path) (World.answer_of_known ((hknown o).2 hlatest))
  · intro hnone
    have hunknown : Assoc.get? w.loader.cache (resolve path) = none := by
      rw [Option.eq_none_iff_forall_ne_some]
      intro o ho
      exact hnone o ((hknown o).1 ho)
    rw [← hsettings]
    exact congrArg (Event.loaded path) (World.answer_of_unknown hunknown)
  · exact congrArg (Event.loaded path) hsame.answer_eq.symm

/-- Two directories below the working directory. -/
private def twoDirectories : FileTree := ⟨[(["site"], .directory), (["lib"], .directory)]⟩

/-- Options that are nowhere standard. -/
private def tolerantSeven : Options := ⟨true, ⟨7, by decide⟩⟩

/-- The options of one directory are saved and those of another are loaded, before all files are
gone and a variable is set. -/
private def savedThenGone : List Step :=
  [.save "site" tolerantSeven, .load "lib",
    .outside .empty [("CSS_SOURCE_MAX_FILE_SIZE_MB", "3")]]

/-- A new loader goes through steps among the two directories. -/
private def runOf (steps : List Step) : List Event × World :=
  (World.start .standard twoDirectories []).run Place.ofText steps

/-- What was saved is answered under another path to the directory, although nothing can be saved
there any more. Once the loader is cleared, the variable is heard. -/
theorem answer_savedThenGone :
    ((runOf savedThenGone).2.take Place.ofText (.load "lib/.././site/")).1
        = .loaded "lib/.././site/" (.ok tolerantSeven)
      ∧ ((runOf savedThenGone).2.take Place.ofText (.save "site" .standard)).2.loader
        = (runOf savedThenGone).2.loader
      ∧ ((runOf (savedThenGone ++ [.clear])).2.take Place.ofText (.load "site")).1
        = .loaded "site" (.ok ⟨false, ⟨3, by decide⟩⟩) := by
  have hlatest : Latest (Event.left? Place.ofText (Place.ofText "lib/.././site/"))
      (runOf savedThenGone).1 tolerantSeven := by
    refine ⟨[], .saved "site" tolerantSeven true, [.loaded "lib" (.ok .standard), .changed], ?_⟩
    decide +kernel
  have hfailed :
      ((runOf savedThenGone).2.take Place.ofText (.save "site" .standard)).1.Failed := by
    have hevent : ((runOf savedThenGone).2.take Place.ofText (.save "site" .standard)).1
        = .saved "site" .standard false := by decide +kernel
    rw [hevent]
    trivial
  have hnone : ∀ o, ¬ Latest (Event.left? Place.ofText (Place.ofText "site"))
      (runOf (savedThenGone ++ [.clear])).1 o := by
    intro o h
    rw [runOf, World.run_concat, latest_concat] at h
    exact (h.resolve_left nofun).2.1 rfl
  have hrun : ∀ steps, (World.start .standard twoDirectories []).run Place.ofText steps
      = ((runOf steps).1, (runOf steps).2) := fun _ => rfl
  obtain ⟨hknown, -, -, hstays⟩ := answer_of_run (hrun savedThenGone) "lib/.././site/"
  obtain ⟨-, hunknown, -, -⟩ := answer_of_run (hrun (savedThenGone ++ [.clear])) "site"
  refine ⟨hknown _ hlatest, hstays _ hfailed, (hunknown hnone).trans ?_⟩
  have hcurrent : current .standard (runOf (savedThenGone ++ [.clear])).2.tree
      (runOf (savedThenGone ++ [.clear])).2.env (Place.ofText "site")
        = .ok ⟨false, ⟨3, by decide⟩⟩ := by decide +kernel
  rw [hcurrent]

end Answer

end Loader

end Stylesheet
