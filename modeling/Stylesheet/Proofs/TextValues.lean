/-
Custom properties hold text, and every tree that was read can be asked anything.

Whatever the concrete tree is like, what is made of it is well formed in two ways that everything
later rests on. No comment stands in the tree, and preludes and blocks are groups; so there is a
walk, and no question fails (`Walk.exists_answer`). And the value of a declaration is text exactly
if the property is custom, for which its name alone is looked at; so a custom property has no calls,
and substituting in it changes nothing.

Both are known of the tree as it was made. The tree that is asked is numbered, and it may have been
asked before, so what is done here is to carry the two over: numbering changes identities alone, and
a session that was asked answers like a new one.
-/
import Stylesheet.Proofs.Substituted

set_option autoImplicit false

namespace Stylesheet

/-! ## Made values -/

/-- The kind of the value of a property. -/
def Node.valueKind (property : String) : Kind :=
  if isCustomName property then .raw else .value

/-- Text from some nodes is a leaf with a location. -/
theorem Source.exists_leaf_of_rawSpan {src : Source} {cs : List Concrete} {octet : Int} {n : Node}
    (h : src.rawSpan cs octet = .ok n) :
    ∃ m text loc, n = .leaf m (.raw text) ∧ m.loc = some loc := by
  rw [rawSpan] at h
  split at h
  · obtain ⟨m, hm, rfl⟩ := rawAt_eq_ok.1 h
    obtain ⟨loc, hloc, -⟩ := markAt_eq_ok hm
    exact ⟨m, _, loc, rfl, hloc⟩
  · obtain ⟨m, hm, rfl⟩ := emptyRaw_eq_ok.1 h
    obtain ⟨loc, hloc, -⟩ := markAt_eq_ok hm
    exact ⟨m, _, loc, rfl, hloc⟩

namespace Concrete

variable {src : Source} {b : Concrete} {made : Node}

theorem exists_leaf_of_declaredValue (hcustom : Node.isCustomName (b.propertyName src) = true)
    (h : b.declaredValue src = .ok made) :
    ∃ m text loc, made = .leaf m (.raw text) ∧ m.loc = some loc := by
  rw [declaredValue, if_pos hcustom] at h
  exact Source.exists_leaf_of_rawSpan h

/-- The value of any property is made with a location, and of the kind that the property asks
for. -/
theorem kind_of_declaredValue (h : b.declaredValue src = .ok made) :
    made.kind = Node.valueKind (b.propertyName src) ∧ ∃ loc, made.loc = some loc := by
  by_cases hcustom : Node.isCustomName (b.propertyName src) = true
  · obtain ⟨m, text, loc, rfl, hloc⟩ := exists_leaf_of_declaredValue hcustom h
    rw [Node.valueKind, if_pos hcustom]
    exact ⟨rfl, loc, hloc⟩
  · rw [declaredValue, if_neg hcustom] at h
    obtain ⟨members, -, m, hm, rfl⟩ := valueNode_eq_ok.1 h
    rw [Node.valueKind, if_neg hcustom]
    refine ⟨rfl, ?_⟩
    rcases valueMark_cases hm with ⟨first, last, -, -, hm⟩ | ⟨-, hm⟩
    · obtain ⟨loc, hloc, -⟩ := Source.markAt_eq_ok hm
      exact ⟨loc, hloc⟩
    · obtain ⟨loc, hloc, -⟩ := Source.markAt_eq_ok hm
      exact ⟨loc, hloc⟩

end Concrete

/-! ## Declarations of the numbered tree -/

/-- A declaration of the numbered tree has a value of the kind that its property asks for, and the
value has a location. Its calls are nodes with members, and if the property is custom there are
none. -/
theorem value_of_declaration {src : Source} {c : Concrete} {tree d : Node}
    (htree : c.stylesheet src = .ok tree) (hd : d ∈ tree.numbered.preorder)
    (hkind : d.kind = .declaration) :
    ∃ property value loc, d.declaration? = some (property, some value)
      ∧ d.held? = some (.node (some value)) ∧ value.kind = Node.valueKind property
      ∧ value.loc = some loc
      ∧ (∀ u ∈ (Walk.ofSteps (tree.numbered.steps none)).callsIn d, u.members?.isSome)
      ∧ (Node.isCustomName property = true →
        (Walk.ofSteps (tree.numbered.steps none)).callsIn d = []) := by
  obtain ⟨m, b, value, made, important, rfl, -, hmade, hbare, -, hcalls⟩ :=
    callsIn_numbered htree hd hkind
  obtain ⟨hvalueKind, loc, hloc⟩ := Concrete.kind_of_declaredValue hmade
  refine ⟨b.propertyName src, value, loc, rfl, rfl, ?_, ?_, ?_, ?_⟩
  · rw [← Node.kind_bare, hbare, Node.kind_bare, hvalueKind]
  · rw [← Node.loc_bare, hbare, Node.loc_bare, hloc]
  · intro u hu
    rw [hcalls] at hu
    exact Node.isVar.members?_isSome (List.mem_filter.1 hu).2
  · intro hcustom
    obtain ⟨m', text, -, rfl, -⟩ := Concrete.exists_leaf_of_declaredValue hcustom hmade
    obtain ⟨m'', rfl, -⟩ := Node.bare_eq_leaf hbare
    rw [hcalls, Node.preorder_eq]
    rfl

/-! ## Sessions for texts that were read -/

namespace Session

open Substitution

variable {grammar : String → Option Concrete} {text : String} {path : Option Path} {c : Concrete}
  {r : Parsed Diagnostic}

/-- **Any text that was read** has a tree without comments, and whatever has been asked of its
session before, every question has an answer. Each declaration of the tree has a value: text if the
property is custom, a list of values otherwise. Substituting in it always has a result. A custom
property has no calls, and its text is left as it stands, with nothing put in and no name unknown.
The concrete tree may be of any shape. -/
theorem parseText_wellFormed (hgrammar : grammar text = some c)
    (hread : Language.parseText grammar text path = .ok r) :
    ∃ s, ofParsed? r = some s ∧ r.tree = some s.root ∧ s.root.NoComment
      ∧ (∀ qs q, ∃ a, ((s.answers qs).2.answer q).1 = .ok a)
      ∧ ∀ d ∈ s.root.preorder, d.kind = .declaration →
          ∃ property value loc, d.declaration? = some (property, some value)
            ∧ value.kind = (if Node.isCustomName property then .raw else .value)
            ∧ value.loc = some loc
            ∧ ∀ qs, (∃ done, ((s.answers qs).2.substituteIn d).1 = .ok done)
              ∧ (Node.isCustomName property = true →
                ((s.answers qs).2.answer (.calls d)).1 = .ok (.nodes [])
                  ∧ ((s.answers qs).2.substituteIn d).1
                    = .ok (.unchanged (textAt text loc 0 0))) := by
  obtain ⟨tree, hmade, htree, htext⟩ := Language.parseText_tree hgrammar hread
  have henter := numbered_enterable hmade
  have hwalk := Walk.ofTree_of_noComment henter.noComment henter.preludesAreGroups
  have hsession : ofParsed? r = some (start text tree.numbered) := by
    rw [ofParsed?, htree, htext]
    rfl
  -- a session that has been asked still has its tree, so it answers by the walk through it
  have hsettled : ∀ qs, ((start text tree.numbered).answers qs).2.Settled := fun qs =>
    (answers_of_settled (start_settled text tree.numbered) qs).2
  have hkept : ∀ qs, ((start text tree.numbered).answers qs).2.text = text
      ∧ Walk.ofTree ((start text tree.numbered).answers qs).2.root
        = .ok (.ofSteps (tree.numbered.steps none)) := by
    intro qs
    obtain ⟨hsame, hroot⟩ := answers_text_root (start text tree.numbered) qs
    exact ⟨hsame, hroot ▸ hwalk⟩
  refine ⟨start text tree.numbered, hsession, htree, henter.noComment, ?_, ?_⟩
  · intro qs q
    rw [answer, tryAsk_of_settled (hsettled qs) (hkept qs).2]
    exact Walk.exists_answer henter.blocksAreGroups q
  · intro d hd hkind
    obtain ⟨property, value, loc, hdeclared, hheld, hvalueKind, hloc, hgroup, hcustom⟩ :=
      value_of_declaration hmade hd hkind
    refine ⟨property, value, loc, hdeclared, hvalueKind, hloc, ?_⟩
    intro qs
    have hrun := substituteIn_eq_ofValue (hsettled qs) (hkept qs).2 hheld hloc hgroup
    constructor
    · rw [hrun]
      exact exists_ofValue _ value fun u hu =>
        ⟨hgroup u hu, Walk.exists_closest henter.blocksAreGroups u⟩
    · intro hname
      constructor
      · rw [answer, tryAsk_of_settled (hsettled qs) (hkept qs).2]
        exact congrArg (fun calls => Except.ok (Answer.nodes calls)) (hcustom hname)
      · rw [hrun, hcustom hname, (hkept qs).1, ofValue]
        simp only [nodeText, hloc]
        rfl

section CustomCall

/-- The text of a rule in which a custom property has what looks like a call, and a comment. -/
private def customText : String := "a\x7b--x:var(--y)/**/\x7d"

/-- The concrete tree of that rule. -/
private def customTree : Concrete :=
  .node "stylesheet" 0 19 true false [.node "rule_set" 0 19 true false
    [.node "selectors" 0 1 true false [.node "tag_name" 0 1 true false []],
      .node "block" 1 19 true false
        [.node "\x7b" 1 2 false false [],
          .node "declaration" 2 18 true false
            [.node "property_name" 2 5 true false [], .node ":" 5 6 false false [],
              .node "call_expression" 6 14 true false
                [.node "function_name" 6 9 true false [],
                  .node "arguments" 9 14 true false
                    [.node "(" 9 10 false false [], .node "plain_value" 10 13 true false [],
                      .node ")" 13 14 false false []]],
              .node "comment" 14 18 true false []],
          .node "\x7d" 18 19 false false []]]]

/-- The call is text, so nothing is put in for it, also after other questions. -/
theorem parseText_wellFormed_customCall :
    ∃ r s d, Language.parseText (fun _ => some customTree) customText none = .ok r
      ∧ ofParsed? r = some s ∧ s.root.NoComment ∧ d ∈ s.root.preorder
      ∧ d.declaration?.map Prod.fst = some "--x"
      ∧ ((s.answers [.names, .calls d]).2.answer (.calls d)).1 = .ok (.nodes [])
      ∧ ((s.answers [.names, .calls d]).2.substituteIn d).1 = .ok (.unchanged "var(--y)") := by
  have hrun : (Language.parseText (fun _ => some customTree) customText none).toOption.bind
      (fun r => r.tree.map fun root =>
        (root.preorder.filter fun n => n.kind = .declaration).map fun d =>
          d.declaration?.map fun (property, value) =>
            (property, (value.bind Node.loc).map fun loc => textAt customText loc 0 0))
      = some [some ("--x", some "var(--y)")] := by
    decide +kernel
  obtain ⟨r, hr, hfound⟩ := Option.bind_eq_some_iff.1 hrun
  have hread := eq_ok_of_toOption hr
  obtain ⟨s, hs, htree, hcomment, -, hdeclarations⟩ := parseText_wellFormed rfl hread
  rw [htree, Option.map_some] at hfound
  obtain ⟨d, rest, hd, hshown, -⟩ := List.map_eq_cons_iff.1 (Option.some.inj hfound)
  have hmem : d ∈ s.root.preorder.filter fun n => n.kind = .declaration :=
    hd ▸ List.mem_cons_self
  obtain ⟨hmem, hkind⟩ := List.mem_filter.1 hmem
  obtain ⟨property, value, loc, hdeclared, -, hloc, hafter⟩ :=
    hdeclarations d hmem (of_decide_eq_true hkind)
  simp only [hdeclared, Option.map_some, Option.bind_some, hloc] at hshown
  obtain ⟨rfl, hown⟩ := Prod.mk.inj (Option.some.inj hshown)
  obtain ⟨-, htext⟩ := hafter [.names, .calls d]
  obtain ⟨hcalls, hdone⟩ := htext (by decide)
  rw [Option.some.inj hown] at hdone
  exact ⟨r, s, d, hread, hs, hcomment, hmem, by rw [hdeclared]; rfl, hcalls, hdone⟩

end CustomCall

end Session

end Stylesheet
