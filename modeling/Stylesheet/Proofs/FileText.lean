/-
Reading a file and reading its text.

A file goes a longer way than a text: its octets are decoded, marks at the start of what was
decoded are left out, its size and its digest are taken from the octets as they are, and the
options for the reading are made twice, once for the limit on the size and once, from what the
first time left, for the reading itself. For the octets that are written for a text each of these
is undone or does nothing: UTF-8 is tried before all that a detector could guess, there is no
mark to leave out, a text is measured by the octets that are written for it, and options that are
made from made options are those options again (`resolve_handOn`), whichever of their fields count
as given.
-/
import Stylesheet.Proofs.ByteOrderMarks
import Stylesheet.Proofs.ParsedTree

set_option autoImplicit false

namespace Stylesheet

open Text

/-! ## Options that are made twice -/

/-- A patch that has been laid over options changes nothing the second time. -/
theorem Options.patch_patch (o : Options) (p : OptionsPatch) : (o.patch p).patch p = o.patch p := by
  obtain ⟨tolerant, maxFileSize⟩ := p
  cases tolerant <;> cases maxFileSize <;> rfl

namespace Language

variable {language : Language} {text : String} {path : Option Path} {input : OptionsInput}

/-- **Options that are handed on** are not changed by being made again. -/
theorem resolve_handOn {options : Options} (h : language.resolve input = .ok options) :
    language.resolve (language.handOn input options) = .ok options := by
  cases input with
  | nothing =>
      -- only the fields that were given to the language count as given here
      obtain rfl := Except.ok.inj h
      exact congrArg Except.ok (Options.patch_patch .standard language.given)
  | fields given => rfl
  | patch p => rfl

/-- Of the options for a reading only what is made of them counts. -/
theorem parse_congr {other : OptionsInput} (h : language.resolve input = language.resolve other) :
    language.parse text path input = language.parse text path other := by
  rw [parse, parse, h]

/-! ## Size and digest -/

theorem measured_settle (r : Parsed Diagnostic) (tolerant : Bool) :
    (r.settle tolerant).hash = r.hash ∧ (r.settle tolerant).size = r.size := by
  rw [Parsed.settle]
  split
  · exact ⟨rfl, rfl⟩
  · split <;> exact ⟨rfl, rfl⟩

/-- A text is measured by the octets that are written for it. -/
theorem measured_of_parseText {grammar : String → Option Concrete} {r : Parsed Diagnostic}
    (h : parseText grammar text path = .ok r) :
    r.hash = Digest.short text.toUTF8 ∧ r.size = text.toUTF8.size := by
  have hoctets : (⟨(Source.ofText text).octets.toArray⟩ : ByteArray) = text.toUTF8 := by
    rw [Source.ofText, ← Utf8.toList_toUTF8]
  rw [parseText] at h
  split at h
  · cases h
  · simp only at h
    split at h
    · cases h
    · obtain rfl := Except.ok.inj h
      refine ⟨congrArg Digest.short hoctets, ?_⟩
      rw [← hoctets]
      rfl

theorem measured_of_parse {r : Parsed Diagnostic} (h : language.parse text path input = .ok r) :
    r.hash = Digest.short text.toUTF8 ∧ r.size = text.toUTF8.size := by
  obtain ⟨options, read, -, hread, rfl⟩ := parse_eq_ok h
  obtain ⟨hhash, hsize⟩ := measured_of_parseText hread
  obtain ⟨hhash', hsize'⟩ := measured_settle read options.tolerant
  exact ⟨hhash'.trans hhash, hsize'.trans hsize⟩

/-! ## Two ways to read -/

/-- **A file and its text** are read alike. Whatever a detector guesses, and whatever options are
given for the reading and for the language, the file that holds the octets of a text is read with
the same outcome as the text, if the text does not begin with a byte order mark and its octets are
within the limit of the options. -/
theorem parseFile_eq_parse (language : Language) (path : Path) (detect : ByteArray → Detection)
    (input : OptionsInput) {s : String} (hmark : s.toList.head? ≠ some '\uFEFF')
    (hfits : ∀ options, language.resolve input = .ok options →
      s.toUTF8.size ≤ options.maxFileBytes) :
    language.parseFile path (some (.file s.toUTF8)) detect input
        = language.parse s (some path) input
      -- what is handed on to the reading of the text comes out as it was
      ∧ ∀ options, language.resolve input = .ok options →
        language.resolve (language.handOn input options) = .ok options := by
  refine ⟨?_, fun options h => resolve_handOn h⟩
  rw [parseFile]
  split
  · rename_i reason hinvalid
    rw [parse, hinvalid]
  · rename_i options hresolve
    have hsame : language.parse s (some path) (language.handOn input options)
        = language.parse s (some path) input :=
      parse_congr ((resolve_handOn hresolve).trans hresolve.symm)
    rw [Content.read_toUTF8 hmark (hfits options hresolve)]
    simp only
    rw [hsame]
    cases hparse : language.parse s (some path) input with
    | error e => rfl
    | ok r =>
        obtain ⟨hhash, hsize⟩ := measured_of_parse hparse
        rw [Except.map, ← hhash, ← hsize]

section Umlaut

/-- The concrete tree of a rule for `ü` with a comma behind its only selector. -/
private def umlautTree : Concrete :=
  .node "stylesheet" 0 5 true false [.node "rule_set" 0 5 true false
    [.node "selectors" 0 2 true false [.node "tag_name" 0 2 true false []],
      .node "ERROR" 2 3 true false [.node "," 2 3 false false []],
      .node "block" 3 5 true false
        [.node "\x7b" 3 4 false false [], .node "\x7d" 4 5 false false []]]]

/-- A language that knows this tree only. Tolerance is all that is given to it. -/
private def umlautLanguage : Language := ⟨fun _ => some umlautTree, ⟨some true, none⟩⟩

/-- The file of that rule is read as its text although a detector is certain of another encoding:
with its five octets for four characters, and with the tolerance of the language. -/
theorem parseFile_umlaut :
    "ü,\x7b\x7d".toList.head? ≠ some '\uFEFF'
      ∧ (∀ options, umlautLanguage.resolve .nothing = .ok options →
          "ü,\x7b\x7d".toUTF8.size ≤ options.maxFileBytes)
      ∧ ∃ r, umlautLanguage.parseFile (.ofText "a.css") (some (.file "ü,\x7b\x7d".toUTF8))
            (fun _ => ⟨some "utf-16", .whole 1⟩) .nothing = .ok r
          ∧ umlautLanguage.parse "ü,\x7b\x7d" (some (.ofText "a.css")) .nothing = .ok r
          ∧ r.ok = true ∧ r.size = 5 ∧ r.recovered = true
          ∧ r.warnings = ["Syntax error in css: ',' at 1:2"] := by
  have hmark : "ü,\x7b\x7d".toList.head? ≠ some '\uFEFF' := by decide
  have hfits : ∀ options, umlautLanguage.resolve .nothing = .ok options →
      "ü,\x7b\x7d".toUTF8.size ≤ options.maxFileBytes := by
    intro options hresolve
    obtain rfl := Except.ok.inj hresolve
    decide
  have hrun : (umlautLanguage.parse "ü,\x7b\x7d" (some (.ofText "a.css")) .nothing).toOption.map
      (fun r => (r.ok, r.size, r.recovered, r.warnings))
      = some (true, 5, true, ["Syntax error in css: ',' at 1:2"]) := by
    decide +kernel
  obtain ⟨r, hr, hfound⟩ := Option.map_eq_some_iff.1 hrun
  have hparse := eq_ok_of_toOption hr
  obtain ⟨hfile, -⟩ := parseFile_eq_parse umlautLanguage (.ofText "a.css")
    (fun _ => ⟨some "utf-16", .whole 1⟩) .nothing hmark hfits
  simp only [Prod.mk.injEq] at hfound
  obtain ⟨hok, hsize, hrecovered, hwarnings⟩ := hfound
  exact ⟨hmark, hfits, r, hfile.trans hparse, hparse, hok, hsize, hrecovered, hwarnings⟩

end Umlaut

end Language

end Stylesheet
