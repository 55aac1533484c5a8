/-
Reading strictly and reading tolerantly.

The two readings of a text share everything up to the settling of the result, and settling looks
at the errors that were found and at nothing else. So they differ exactly if there is an error,
and there is one exactly if a node of the concrete tree is faulty (`diagnostics_eq_nil_iff`).
-/
import Stylesheet.Language
import Stylesheet.Proofs.FaultSearch
import Stylesheet.Proofs.ParsedTree

set_option autoImplicit false

namespace Stylesheet

/-! ## Settling a result

Settling looks at one option only. Errors that are tolerated become warnings and the tree stays,
and errors that are not take the tree away; without errors there is nothing to settle. -/

namespace Parsed

variable {r : Parsed Diagnostic}

theorem settle_of_nil (h : r.errors = []) (tolerant : Bool) : r.settle tolerant = r := by
  rw [settle, h, List.isEmpty_nil, if_pos rfl]

theorem settle_strict (h : r.errors ≠ []) : r.settle false = { r with tree := none } := by
  rw [settle, List.isEmpty_eq_false_iff.2 h]
  rfl

theorem settle_tolerant (h : r.errors ≠ []) :
    r.settle true
      = { r with
          errors := []
          warnings := r.warnings ++ r.errors.map Diagnostic.warning
          recovered := true } := by
  rw [settle, List.isEmpty_eq_false_iff.2 h]
  rfl

theorem tree_settle_true (r : Parsed Diagnostic) : (r.settle true).tree = r.tree := by
  by_cases h : r.errors = []
  · rw [settle_of_nil h]
  · rw [settle_tolerant h]

end Parsed

/-! ## Two readings -/

namespace Language

variable {language : Language} {text : String} {path : Option Path} {input : OptionsInput}
  {c : Concrete} {r : Parsed Diagnostic}

/-- A reading with the given options tolerates errors, or it does not. -/
def Tolerates (language : Language) (input : OptionsInput) (tolerant : Bool) : Prop :=
  ∃ options, language.resolve input = .ok options ∧ options.tolerant = tolerant

/-- Whatever a language tolerates by itself, the field for it decides for a reading. -/
theorem tolerates_of_field (language : Language) (tolerant : Bool) :
    language.Tolerates (.fields [(Options.tolerantField, .bool tolerant)]) tolerant :=
  ⟨language.defaults.patch ⟨some tolerant, none⟩, rfl, rfl⟩

theorem parse_of_parseText (hread : parseText language.grammar text path = .ok r)
    {tolerant : Bool} (h : language.Tolerates input tolerant) :
    language.parse text path input = .ok (r.settle tolerant) := by
  obtain ⟨options, hresolve, rfl⟩ := h
  rw [parse, hresolve, hread]
  rfl

/-- Before a result is settled, it has the errors that are reported of its tree, and no
warnings. -/
theorem parseText_errors {grammar : String → Option Concrete} (hgrammar : grammar text = some c)
    (h : parseText grammar text path = .ok r) :
    r.errors = c.diagnostics (.ofText text) ∧ r.warnings = [] ∧ r.recovered = false := by
  rw [parseText, hgrammar] at h
  simp only at h
  split at h
  · cases h
  · obtain rfl := Except.ok.inj h
    exact ⟨rfl, rfl, rfl⟩

/-- **Strict and tolerant readings** differ in how errors are presented, and in nothing else. -/
theorem parse_strict_tolerant {strictly tolerantly : OptionsInput}
    (hgrammar : language.grammar text = some c)
    (hstrict : language.Tolerates strictly false) (htolerant : language.Tolerates tolerantly true)
    (hread : parseText language.grammar text path = .ok r) :
    ∃ s t, language.parse text path strictly = .ok s
      ∧ language.parse text path tolerantly = .ok t
      -- when they are usable
      ∧ (s.ok = true ↔ ∀ d ∈ c.walk, d.isError = false ∧ d.missing = false)
      ∧ t.ok = true
      ∧ (s.ok = true → s = t)
      -- what there is if the strict one is not
      ∧ (s.ok = false →
          s.tree = none ∧ s.warnings = [] ∧ s.recovered = false ∧ s.errors ≠ []
          ∧ (∃ tree, c.stylesheet (.ofText text) = .ok tree ∧ t.tree = some tree.numbered)
          ∧ t.errors = [] ∧ t.recovered = true
          ∧ t.warnings = s.errors.map fun e =>
              e.message ++ " at " ++ toString e.line ++ ":" ++ toString e.column)
      -- what never differs
      ∧ s.text = t.text ∧ s.comments = t.comments ∧ s.size = t.size ∧ s.hash = t.hash
      ∧ s.path = t.path := by
  obtain ⟨tree, hmade, htree, -⟩ := parseText_tree hgrammar hread
  obtain ⟨herrors, hwarnings, hrecovered⟩ := parseText_errors hgrammar hread
  refine ⟨r.settle false, r.settle true, parse_of_parseText hread hstrict,
    parse_of_parseText hread htolerant, ?_⟩
  rw [← Concrete.diagnostics_eq_nil_iff (.ofText text), ← herrors]
  by_cases hnone : r.errors = []
  · have hok : r.ok = true := by
      rw [Parsed.ok, htree, hnone]
      rfl
    simp only [Parsed.settle_of_nil hnone, hok, hnone]
    simp
  · have hok : ({ r with tree := none } : Parsed Diagnostic).ok = false := rfl
    rw [Parsed.settle_strict hnone, Parsed.settle_tolerant hnone]
    refine ⟨by simp [hok, hnone], ?_, fun h => ?_, fun _ => ?_, rfl, rfl, rfl, rfl, rfl⟩
    · simp [Parsed.ok, htree]
    · rw [hok] at h
      cases h
    · refine ⟨rfl, hwarnings, hrecovered, hnone, ⟨tree, hmade, htree⟩, rfl, rfl, ?_⟩
      rw [hwarnings, List.nil_append]
      rfl

section StrayComma

/-- The concrete tree of a rule with a comma behind its only selector. -/
private def strayCommaTree : Concrete :=
  .node "stylesheet" 0 4 true false [.node "rule_set" 0 4 true false
    [.node "selectors" 0 1 true false [.node "tag_name" 0 1 true false []],
      .node "ERROR" 1 2 true false [.node "," 1 2 false false []],
      .node "block" 2 4 true false
        [.node "\x7b" 2 3 false false [], .node "\x7d" 3 4 false false []]]]

/-- A language that knows this tree only, and tolerates nothing by itself. -/
private def strayCommaLanguage : Language := ⟨fun _ => some strayCommaTree, .standard⟩

/-- The text of that rule has no tree when it is read strictly, and a tree with a warning when it
is read tolerantly. -/
theorem parse_strayComma :
    strayCommaLanguage.Tolerates .nothing false
      ∧ strayCommaLanguage.Tolerates (.fields [("tolerant", .bool true)]) true
      ∧ ∃ r s t, parseText strayCommaLanguage.grammar "a,\x7b\x7d" none = .ok r
        ∧ strayCommaLanguage.parse "a,\x7b\x7d" none .nothing = .ok s
        ∧ strayCommaLanguage.parse "a,\x7b\x7d" none (.fields [("tolerant", .bool true)]) = .ok t
        ∧ s.ok = false ∧ s.tree = none ∧ s.errors.map (·.message) = ["Syntax error in css: ','"]
        ∧ t.ok = true ∧ t.tree.isSome ∧ t.warnings = ["Syntax error in css: ',' at 1:2"] := by
  have hstrict : strayCommaLanguage.Tolerates .nothing false := ⟨_, rfl, rfl⟩
  have htolerant : strayCommaLanguage.Tolerates (.fields [("tolerant", .bool true)]) true :=
    tolerates_of_field strayCommaLanguage true
  have hrun : (parseText strayCommaLanguage.grammar "a,\x7b\x7d" none).toOption.map
      (fun r => (r.errors.map (·.message), r.errors.map Diagnostic.warning))
      = some (["Syntax error in css: ','"], ["Syntax error in css: ',' at 1:2"]) := by
    decide +kernel
  obtain ⟨r, hr, herrors⟩ := Option.map_eq_some_iff.1 hrun
  obtain ⟨hmessages, hreported⟩ := Prod.mk.inj herrors
  have hread := eq_ok_of_toOption hr
  obtain ⟨s, t, hs, ht, hsok, htok, -, hdiffer, -⟩ :=
    parse_strict_tolerant rfl hstrict htolerant hread
  have hfault : ¬ ∀ d ∈ strayCommaTree.walk, d.isError = false ∧ d.missing = false := by
    decide
  have hnot : s.ok = false := Bool.eq_false_iff.2 fun h => hfault (hsok.1 h)
  obtain ⟨htree, -, -, -, ⟨tree, -, ht'⟩, -, -, hwarnings⟩ := hdiffer hnot
  have hsame : s.errors = r.errors := by
    have hsome : r.errors ≠ [] := fun hnil => by
      rw [hnil] at hmessages
      cases hmessages
    obtain rfl := Except.ok.inj (hs.symm.trans (parse_of_parseText hread hstrict))
    rw [Parsed.settle_strict hsome]
  rw [hsame] at hwarnings
  exact ⟨hstrict, htolerant, r, s, t, hread, hs, ht, hnot, htree, hsame ▸ hmessages, htok,
    by rw [ht']; rfl, hwarnings.trans hreported⟩

end StrayComma

end Language

end Stylesheet
