/-
What becomes of the regions that the grammar could not read.

Where a builder comes upon such a region it keeps the text of it (`kept_of_isError`). So a region is
kept if it is reached from the root from part to part, or if it stands in a part whose text is kept
as a whole (`Kept`): then the tree has a leaf over it, by induction on the way to it. A region that
stands beside the parts of a node vanishes without a trace, as between the name of a property and
its colon (`parse_escapedName`).
-/
import Stylesheet.Proofs.Parts
import Stylesheet.Proofs.Tolerance

set_option autoImplicit false

namespace Stylesheet

open Made

namespace Concrete

/-! ## From part to part -/

/-- A node is kept below another that is built in a role: it stands in a part whose text is kept,
or it is kept below a part that is built in turn. -/
inductive Kept (src : Source) : Role → Concrete → Concrete → Prop where
  | text {role : Role} {c d e : Concrete} (hpart : .text d ∈ parts src role c) (he : e ∈ d.walk) :
      Kept src role c e
  | built {role role' : Role} {c d e : Concrete} (hpart : .built role' d ∈ parts src role c)
      (h : Kept src role' d e) : Kept src role c e

/-- **A region that could not be read is kept as text** wherever it is built as an item, a keyframe,
a selector, a value or a part of a prelude. -/
theorem kept_of_isError {src : Source} {e : Concrete} (herror : e.isError = true)
    (hnamed : e.named = true) {role : Role}
    (hrole : role ∈ [Role.item, .keyframe, .selector, .value, .prelude]) : Kept src role e e := by
  have hkind : e.kind = "ERROR" := eq_of_beq herror
  have hself := self_mem_walk e
  have hvalue : Kept src .value e e :=
    .text (d := e) (by simp [parts, valueForm, hkind, hnamed]) hself
  simp only [List.mem_cons, List.not_mem_nil, or_false] at hrole
  rcases hrole with rfl | rfl | rfl | rfl | rfl
  · exact .text (d := e) (by simp [parts, itemForm, atruleKinds, hkind, hnamed]) hself
  · exact .text (d := e) (by simp [parts, hkind, hnamed]) hself
  · exact .text (d := e) (by simp [parts, selectorForm, hkind]) hself
  · exact hvalue
  · exact .built (by simp [parts, hkind]) hvalue

variable {src : Source} {root : Concrete} {length : Nat}

theorem Covers.within (hnest : root.WellNested length) {ns : List Node} {c e : Concrete}
    (hc : c ∈ root.walk) (he : e ∈ c.walk) (h : Covers src ns c) : Covers src ns e := by
  obtain ⟨n, hn, m, value, start, stop, hmem, hmark, hlo, hhi⟩ := h
  have hrange := hnest.within c hc (hnest.range hc).2.1 he
  exact ⟨n, hn, m, value, start, stop, hmem, hmark, Int.le_trans hlo hrange.1,
    Int.le_trans hrange.2.2 hhi⟩

/-- **All steps**: what is kept below a node is covered by what the node makes. -/
theorem Kept.covered (hnest : root.WellNested length) {role : Role} {c e : Concrete}
    (h : Kept src role c e) (hc : c ∈ root.walk) {ns : List Node}
    (hmade : make src role c = .ok ns) : Covers src ns e := by
  induction h generalizing ns with
  | text hpart he =>
      obtain ⟨hd, hcovers⟩ := keeps_parts hnest hc hmade _ hpart
      exact hcovers.within hnest hd he
  | built hpart _ ih =>
      obtain ⟨hd, ms, hms, hbelow⟩ := keeps_parts hnest hc hmade _ hpart
      exact (ih hd hms).mono hbelow

end Concrete

/-! ## The tree of a text -/

/-- A tree has a leaf with text that was kept, over all that a concrete node covers. -/
def Node.HasRawOver (src : Source) (tree : Node) (c : Concrete) : Prop :=
  ∃ m value loc, .leaf m (.raw value) ∈ tree.preorder ∧ m.loc = some loc
    ∧ loc.start.offset ≤ src.ruler.charOffset c.start
    ∧ src.ruler.charOffset c.stop ≤ loc.stop.offset

open Concrete

/-- What is kept below the root of a concrete tree is under a leaf of the numbered tree that it
makes. -/
theorem hasRawOver_numbered {src : Source} {c e : Concrete} {length : Nat} {tree : Node}
    (hnest : c.WellNested length) (hkept : Kept src .stylesheet c e)
    (hmade : c.stylesheet src = .ok tree) : tree.numbered.HasRawOver src e := by
  have hmake : make src .stylesheet c = .ok [tree] := by
    rw [make, hmade]
    rfl
  obtain ⟨n, hn, m, value, start, stop, hmem, hmark, hlo, hhi⟩ :=
    hkept.covered hnest (self_mem_walk c) hmake
  obtain rfl := List.mem_singleton.1 hn
  obtain ⟨loc, hloc, hstart, hstop⟩ := Source.markAt_eq_ok hmark
  have hbare : (Node.leaf m (.raw value)).bare ∈ n.numbered.bare.preorder := by
    rw [Node.bare_numbered, Node.preorder_bare]
    exact List.mem_map_of_mem hmem
  rw [Node.preorder_bare] at hbare
  obtain ⟨leaf, hleaf, hsame⟩ := List.mem_map.1 hbare
  obtain ⟨m', rfl, hloc'⟩ := Node.bare_eq_leaf hsame
  refine ⟨m', value, loc, hleaf, hloc'.trans hloc, ?_, ?_⟩
  · rw [hstart]
    exact src.ruler.charOffset_mono hlo
  · rw [hstop]
    exact src.ruler.charOffset_mono hhi

namespace Language

variable {language : Language} {text : String} {path : Option Path} {input : OptionsInput}
  {c e : Concrete} {p : Parsed Diagnostic}

/-- **Regions that builders come upon are kept.** If a text is read and errors are tolerated, the
tree has a leaf over every node of the concrete tree that is kept below its root: over every region
that could not be read and is built as an item, a keyframe, a selector or a value, or stands in
text that is kept as a whole. -/
theorem hasRawOver_of_kept (hgrammar : language.grammar text = some c)
    (hnest : c.WellNested (Source.ofText text).octets.length)
    (htolerant : language.Tolerates input true) (hparse : language.parse text path input = .ok p)
    (hkept : Kept (.ofText text) .stylesheet c e) :
    ∃ tree, p.tree = some tree ∧ tree.HasRawOver (.ofText text) e := by
  obtain ⟨options, r, hresolve, hread, rfl⟩ := parse_eq_ok hparse
  obtain ⟨options', hresolve', htrue⟩ := htolerant
  obtain rfl := Except.ok.inj (hresolve.symm.trans hresolve')
  obtain ⟨tree, hmade, htree, -⟩ := parseText_tree hgrammar hread
  refine ⟨tree.numbered, ?_, hasRawOver_numbered hnest hkept hmade⟩
  rw [htrue, Parsed.tree_settle_true, htree]

section StarredName

/-- A declaration with a star before its name, which the grammar cannot read. -/
private def starredName : Concrete :=
  .node "ERROR" 2 6 true false
    [.node "universal_selector" 2 3 true false [.node "*" 2 3 false false []],
      .node "identifier" 3 4 true false [], .node ":" 4 5 false false [],
      .node "ERROR" 5 6 true false []]

/-- The block of a rule with nothing else in it. -/
private def starredBlock : Concrete :=
  .node "block" 1 7 true false
    [.node "\x7b" 1 2 false false [], starredName, .node "\x7d" 6 7 false false []]

/-- That rule. -/
private def starredRule : Concrete :=
  .node "rule_set" 0 7 true false
    [.node "selectors" 0 1 true false [.node "tag_name" 0 1 true false []], starredBlock]

/-- The concrete tree of a text with that rule only. -/
private def starredTree : Concrete :=
  .node "stylesheet" 0 7 true false [starredRule]

/-- That text. -/
private def starredText : String := "a\x7b*b:c\x7d"

/-- A language that knows this tree only. -/
private def starredLanguage : Language := ⟨fun _ => some starredTree, .standard⟩

/-- In a block a region that could not be read is built as an item, so it is kept. -/
theorem hasRawOver_starredName :
    starredTree.WellNested (Source.ofText starredText).octets.length
      ∧ Kept (.ofText starredText) .stylesheet starredTree starredName
      ∧ ∃ p tree, starredLanguage.parse starredText none (.fields [("tolerant", .bool true)])
          = .ok p
        ∧ p.tree = some tree ∧ tree.HasRawOver (.ofText starredText) starredName := by
  have hnest : starredTree.WellNested (Source.ofText starredText).octets.length := by
    decide +kernel
  have hkept : Kept (.ofText starredText) .stylesheet starredTree starredName := by
    have hrule : .built .item starredRule ∈ parts (.ofText starredText) .stylesheet starredTree :=
      List.mem_singleton_self _
    have hblock : .built .block starredBlock ∈ parts (.ofText starredText) .item starredRule :=
      List.mem_cons_of_mem _ (List.mem_singleton_self _)
    have hitem : .built .item starredName ∈ parts (.ofText starredText) .block starredBlock :=
      List.mem_singleton_self _
    exact .built hrule (.built hblock (.built hitem (kept_of_isError rfl rfl (by decide))))
  have htolerant : starredLanguage.Tolerates (.fields [("tolerant", .bool true)]) true :=
    tolerates_of_field starredLanguage true
  have hrun : (parseText starredLanguage.grammar starredText none).toOption.isSome := by
    decide +kernel
  obtain ⟨r, hr⟩ := Option.isSome_iff_exists.1 hrun
  have hparse := parse_of_parseText (eq_ok_of_toOption hr) htolerant
  obtain ⟨tree, htree, hover⟩ := hasRawOver_of_kept rfl hnest htolerant hparse hkept
  exact ⟨hnest, hkept, _, tree, hparse, htree, hover⟩

end StarredName

section EscapedName

/-- A colon that belongs to a name, and the rest of the name, which the grammar cannot read. -/
private def escapedRest : Concrete :=
  .node "ERROR" 3 6 true false
    [.node "escape_sequence" 3 5 true false [], .node "ERROR" 5 6 true false []]

/-- The concrete tree of a rule with one declaration, in the name of which a colon is escaped. -/
private def escapedTree : Concrete :=
  .node "stylesheet" 0 9 true false [.node "rule_set" 0 9 true false
    [.node "selectors" 0 1 true false [.node "tag_name" 0 1 true false []],
      .node "block" 1 9 true false
        [.node "\x7b" 1 2 false false [],
          .node "declaration" 2 8 true false
            [.node "property_name" 2 3 true false [], escapedRest,
              .node ":" 6 7 false false [], .node "plain_value" 7 8 true false []],
          .node "\x7d" 8 9 false false []]]]

/-- The text of that rule. -/
private def escapedText : String := "a\x7bb\\:c:d\x7d"

/-- A language that knows this tree only. -/
private def escapedLanguage : Language := ⟨fun _ => some escapedTree, .standard⟩

/-- **Between a property and its colon a region vanishes**: the declaration makes nothing of it, and
there is no leaf over it, though it is in no other such region and in no comment. -/
theorem parse_escapedName :
    escapedTree.WellNested (Source.ofText escapedText).octets.length
      ∧ escapedRest ∈ escapedTree.walk ∧ escapedRest.isError = true
      ∧ (∀ d ∈ escapedTree.walk, d.isError = true ∨ d.isComment = true →
          ∀ f ∈ d.children, escapedRest ∉ f.walk)
      ∧ ∃ p tree, escapedLanguage.parse escapedText none (.fields [("tolerant", .bool true)])
          = .ok p
        ∧ p.tree = some tree ∧ ¬ tree.HasRawOver (.ofText escapedText) escapedRest := by
  have hnest : escapedTree.WellNested (Source.ofText escapedText).octets.length := by
    decide +kernel
  have hmem : escapedRest ∈ escapedTree.walk := by
    simp [escapedTree, walk, walkAll, self_mem_walk]
  have houtermost : ∀ d ∈ escapedTree.walk, d.isError = true ∨ d.isComment = true →
      ∀ f ∈ d.children, ∀ x ∈ f.walk, ¬ (x.start = 3 ∧ x.stop = 6) := by
    decide +kernel
  have hrun : (parseText escapedLanguage.grammar escapedText none).toOption.map (fun r =>
      r.tree.map fun tree => tree.preorder.all fun n => n.kind != .raw) = some (some true) := by
    decide +kernel
  obtain ⟨r, hr, hnone⟩ := Option.map_eq_some_iff.1 hrun
  obtain ⟨tree, htree, hall⟩ := Option.map_eq_some_iff.1 hnone
  have hparse := parse_of_parseText (eq_ok_of_toOption hr) (tolerates_of_field escapedLanguage true)
  refine ⟨hnest, hmem, rfl, fun d hd hcovers f hf hin => ?_, _, tree, hparse, ?_, ?_⟩
  · exact houtermost d hd hcovers f hf _ hin ⟨rfl, rfl⟩
  · rw [Parsed.tree_settle_true, htree]
  · rintro ⟨m, value, loc, hleaf, -⟩
    have hkind := List.all_eq_true.1 hall _ hleaf
    cases hkind

end EscapedName

end Language

end Stylesheet
