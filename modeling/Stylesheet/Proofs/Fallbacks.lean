/-
What the calls of a text that was read can come to.

A declaration has a list of values or text, and so has the initial value of a definition. What else
a call can come to is its fallback, which is its third member, whatever that is. Behind one value
and a comma the builder puts text there. But all values before the comma are kept, and without a
comma all values there are, so the third member can be the comma itself, or any value.

The forms that the members have are told from the concrete tree, without making them
(`Concrete.argumentForms`): operations come out flat, and everything else makes one value of its own
form. So it is told there, too, which calls have text for a fallback (`Concrete.FallbackIsText`), and
these are the calls that come to nothing but lists of values and text.
-/
import Stylesheet.Proofs.Candidates
import Stylesheet.Proofs.ParsedTree
import Stylesheet.Proofs.WellNested

set_option autoImplicit false

namespace Stylesheet

open Made Concrete

/-! ## The forms of values

The form of a value is told from the node that makes it before anything is made. It does not
depend on identities, and the forms of the values of several nodes follow one another as the nodes
do. -/

namespace Concrete

/-- The forms of the values that a node makes, with those of the parts of an operation one after the
other. -/
def forms (c : Concrete) : List ValueForm :=
  if c.valueForm = .operation then c.significant.attach.flatMap fun ⟨d, _⟩ => d.forms
  else [c.valueForm]
termination_by sizeOf c
decreasing_by exact sizeOf_lt_of_mem_significant ‹_›

theorem forms_eq (c : Concrete) :
    c.forms = if c.valueForm = .operation then c.significant.flatMap forms else [c.valueForm] := by
  rw [forms]
  simp

/-- The forms of the values before the first comma of a call, which are all if it has none. -/
def formsBeforeComma (c : Concrete) : List ValueForm :=
  (c.callArguments.takeWhile fun d => d.kind != ",").flatMap forms

/-- The forms of the members of a call of `var`: a comma is an operator, and text follows it. -/
def argumentForms (c : Concrete) : List ValueForm :=
  match c.callArguments.dropWhile fun d => d.kind != "," with
  | [] => c.formsBeforeComma
  | _ :: _ => c.formsBeforeComma ++ [.operator, .raw]

/-- A call that begins with a name has text for its third member, if it has one. -/
def FallbackIsText (c : Concrete) : Prop :=
  c.argumentForms.head? = some .identifier → ∀ form ∈ c.argumentForms[2]?, form = .raw

/-- With at most one value before the first comma a call has text for its fallback. -/
theorem fallbackIsText_of_length_le {c : Concrete} (h : c.formsBeforeComma.length ≤ 1) :
    c.FallbackIsText := by
  intro hhead form hform
  rw [argumentForms] at hhead hform
  cases hbefore : c.formsBeforeComma with
  | nil =>
      -- the first of the members is the comma, or there are none
      rw [hbefore] at hhead
      split at hhead <;> cases hhead
  | cons first rest =>
      obtain rfl : rest = [] := by
        rw [hbefore, List.length_cons] at h
        exact List.length_eq_zero_iff.1 (by omega)
      rw [hbefore] at hform
      split at hform
      · cases hform
      · exact (Option.some.inj hform).symm

end Concrete

/-- The form of value that a leaf is. -/
def Leaf.valueForm? : Leaf → Option ValueForm
  | .identifier _ => some .identifier
  | .number _ | .dimension .. | .percentage _ => some .number
  | .hash _ => some .hash
  | .string _ => some .string
  | .operator _ => some .operator
  | .raw _ => some .raw
  | .typeSelector _ | .classSelector _ | .idSelector _ | .nestingSelector | .combinator _ => none

/-- The form of value that a group is. -/
def Group.valueForm? : Group → Option ValueForm
  | .function _ => some .call
  | .parentheses => some .parentheses
  | .brackets => some .brackets
  | .stylesheet | .block | .atrulePrelude | .value | .selectorList | .selector
  | .pseudoClassSelector _ | .pseudoElementSelector _ => none

namespace Node

/-- The form of value that a node is. -/
def valueForm? : Node → Option ValueForm
  | leaf _ l => l.valueForm?
  | group _ g _ => g.valueForm?
  | rule .. | atrule .. | declaration .. | attributeSelector .. | comment .. => none

/-- A node that declarations can have for a value: a list of values, or text. -/
def IsPropertyValue (n : Node) : Prop := n.kind = .value ∨ n.kind = .raw

end Node

namespace Concrete

variable {src : Source}

theorem valueForm?_of_numberNode {c : Concrete} {n : Node} (h : numberNode src c = .ok n) :
    n.valueForm? = some .number := by
  rw [numberNode] at h
  split at h
  · obtain ⟨m, -, rfl⟩ := Source.leaf_eq_ok.1 h
    rfl
  · simp only at h
    split at h
    all_goals
      obtain ⟨m, -, rfl⟩ := Source.leaf_eq_ok.1 h
      rfl

/-- **Values have the forms** that their node has. -/
theorem map_valueForm?_of_values (c : Concrete) {ns : List Node} (h : values src c = .ok ns) :
    ns.map Node.valueForm? = c.forms.map some := by
  -- the induction is on the size of the node; only an operation has the forms of nodes below it
  rw [values_eq] at h
  rw [forms_eq]
  cases hform : c.valueForm
  all_goals simp only [hform, bind_eq_ok, pure_eq_ok] at h
  case operation =>
    rw [if_pos rfl, List.map_flatMap]
    apply map_concat ?_ h
    intro d hd made hmade
    have := sizeOf_lt_of_mem_significant hd
    exact map_valueForm?_of_values d hmade
  case identifier | hash | string | operator | raw =>
    obtain ⟨n, hn, rfl⟩ := h
    obtain ⟨m, -, rfl⟩ := Source.leaf_eq_ok.1 hn
    rfl
  case number =>
    obtain ⟨n, hn, rfl⟩ := h
    rw [List.map_singleton, valueForm?_of_numberNode hn]
    rfl
  case call =>
    obtain ⟨n, hn, rfl⟩ := h
    obtain ⟨members, -, m, -, rfl⟩ := callNode_eq_ok.1 hn
    rfl
  case parentheses | brackets =>
    obtain ⟨members, -, m, -, rfl⟩ := h
    rfl
termination_by sizeOf c

theorem map_valueForm?_of_valuesOfAll {cs : List Concrete} {ns : List Node}
    (h : valuesOfAll src cs = .ok ns) : ns.map Node.valueForm? = (cs.flatMap forms).map some := by
  rw [List.map_flatMap]
  exact map_concat (fun d _ _ hmade => map_valueForm?_of_values d hmade) h

theorem valueForm?_of_rawSpan {cs : List Concrete} {octet : Int} {n : Node}
    (h : src.rawSpan cs octet = .ok n) : n.valueForm? = some .raw := by
  rw [Source.rawSpan] at h
  split at h
  · obtain ⟨m, -, rfl⟩ := Source.rawAt_eq_ok.1 h
    rfl
  · obtain ⟨m, -, rfl⟩ := Source.emptyRaw_eq_ok.1 h
    rfl

/-- **The members of a call** of `var` have the forms of its arguments. -/
theorem map_valueForm?_of_callMembers {c : Concrete} {ns : List Node}
    (hvar : Text.lower (callee src c) = "var")
    (h : callMembers src c (c.callArguments.map fun d => ⟨d, values src d⟩) = .ok ns) :
    ns.map Node.valueForm? = c.argumentForms.map some := by
  have hsplit := List.takeWhile_append_dropWhile (p := fun d : Concrete => d.kind != ",")
    (l := c.callArguments)
  rw [callMembers_eq, if_pos hvar] at h
  rw [argumentForms, formsBeforeComma]
  cases hdrop : c.callArguments.dropWhile fun d => d.kind != "," with
  | nil =>
      -- without a comma all arguments come before it
      rw [hdrop, List.append_nil] at hsplit
      simp only [hdrop, hsplit] at h ⊢
      exact map_valueForm?_of_valuesOfAll h
  | cons comma after =>
      simp only [hdrop, bind_eq_ok, pure_eq_ok] at h ⊢
      obtain ⟨members, hmembers, operator, hop, fallback, hfall, rfl⟩ := h
      obtain ⟨m, -, rfl⟩ := Source.leaf_eq_ok.1 hop
      rw [List.map_append, List.map_append, map_valueForm?_of_valuesOfAll hmembers, List.map_cons,
        List.map_singleton, valueForm?_of_rawSpan hfall]
      rfl

/-- A node of a concrete tree makes a call, up to identities. -/
def MakesCall (src : Source) (c : Concrete) (n : Node) : Prop :=
  ∃ made, callNode src c (c.callArguments.map fun d => ⟨d, values src d⟩) = .ok made
    ∧ n.bare = made.bare

end Concrete

namespace Node

theorem valueForm?_bare (n : Node) : n.bare.valueForm? = n.valueForm? := by
  cases n <;> rw [bare] <;> rfl

theorem isPropertyValue_bare (n : Node) : n.bare.IsPropertyValue ↔ n.IsPropertyValue := by
  rw [IsPropertyValue, kind_bare]
  rfl

theorem isSome_identifier?_iff (n : Node) :
    n.identifier?.isSome ↔ n.valueForm? = some .identifier := by
  cases n with
  | leaf m l => cases l <;> simp [identifier?, valueForm?, Leaf.valueForm?]
  | group m g ns => cases g <;> simp [identifier?, valueForm?, Group.valueForm?]
  | _ => simp [identifier?, valueForm?]

theorem isPropertyValue_iff {n : Node} {form : ValueForm} (h : n.valueForm? = some form) :
    n.IsPropertyValue ↔ form = .raw := by
  cases n with
  | leaf m l => cases l <;> cases h <;> simp [IsPropertyValue, kind, Leaf.kind]
  | group m g ns => cases g <;> cases h <;> simp [IsPropertyValue, kind, Group.kind]
  | _ => cases h

/-! ## Calls that were made -/

section Call

variable {src : Source} {e : Concrete} {u : Node}

/-- **The members of a call** in a tree have the forms of the arguments it was made from. -/
theorem map_valueForm?_members (h : e.MakesCall src u) (hvar : u.isVar = true) :
    u.members.map valueForm? = e.argumentForms.map some := by
  obtain ⟨made, hmade, hbare⟩ := h
  obtain ⟨members, hmembers, m, -, rfl⟩ := callNode_eq_ok.1 hmade
  obtain ⟨m', ns, rfl, -, hns⟩ := bare_eq_group hbare
  have hname : Text.lower (callee src e) = "var" := by simpa [isVar] using hvar
  -- identities aside, the members are the ones that were made
  have hsame := congrArg (List.map valueForm?) hns
  simp only [List.map_map, Function.comp_def, valueForm?_bare] at hsame
  exact hsame.trans (map_valueForm?_of_callMembers hname hmembers)

/-- A call refers to a name exactly if the first form of its arguments is that of a name. -/
theorem isSome_referredName?_iff (h : e.MakesCall src u) (hvar : u.isVar = true) :
    u.referredName?.isSome ↔ e.argumentForms.head? = some .identifier := by
  have hforms := map_valueForm?_members h hvar
  -- both sides look at the first member alone
  rw [referredName?]
  cases hmembers : u.members with
  | nil =>
      rw [hmembers] at hforms
      rw [List.map_eq_nil_iff.1 hforms.symm]
      simp
  | cons first rest =>
      rw [hmembers, List.map_cons] at hforms
      obtain ⟨form, forms, hcons, hfirst, -⟩ := List.map_eq_cons_iff.1 hforms.symm
      rw [hcons, isSome_identifier?_iff, ← hfirst, List.head?_cons]

theorem map_valueForm?_fallback? (h : e.MakesCall src u) (hvar : u.isVar = true) :
    u.fallback?.map valueForm? = e.argumentForms[2]?.map some := by
  rw [fallback?, ← List.getElem?_map, map_valueForm?_members h hvar, List.getElem?_map]

/-- **The fallback of a call is text**, if the call refers to a name and has a fallback, exactly if
that can be told from the concrete tree. -/
theorem fallbackIsText_iff (h : e.MakesCall src u) (hvar : u.isVar = true) :
    e.FallbackIsText
      ↔ (u.referredName?.isSome → ∀ n, u.fallback? = some n → n.IsPropertyValue) := by
  have hfallback := map_valueForm?_fallback? h hvar
  rw [FallbackIsText, isSome_referredName?_iff h hvar]
  apply imp_congr_right
  intro _
  cases hform : e.argumentForms[2]? with
  | none =>
      rw [hform, Option.map_none, Option.map_eq_none_iff] at hfallback
      simp [hfallback]
  | some form =>
      rw [hform, Option.map_some, Option.map_eq_some_iff] at hfallback
      obtain ⟨n, hn, hnform⟩ := hfallback
      simp [hn, isPropertyValue_iff hnform]

end Call

/-! ## Values that were made -/

section Tree

variable {src : Source} {c : Concrete} {tree : Node}

/-- A call in a numbered tree was made from a node of the concrete tree. -/
theorem exists_makesCall (htree : c.stylesheet src = .ok tree) {u : Node}
    (hu : u ∈ tree.numbered.preorder) (hvar : u.isVar = true) :
    ∃ e ∈ c.walk, e.MakesCall src u := by
  -- the node before it was numbered
  obtain ⟨n, hn, hbare⟩ := exists_bare_eq_of_mem_numbered hu
  have horigin := stylesheet_origin htree n hn
  cases u with
  | group m g ns =>
      obtain ⟨m', ns', rfl, -, -⟩ := bare_eq_group hbare
      cases g with
      | function name =>
          obtain ⟨e, he, hmade⟩ := horigin
          exact ⟨e, he, _, hmade, hbare.symm⟩
      | _ => cases hvar
  | _ => cases hvar

/-- What a node of a concrete tree declares is a list of values, or text. -/
theorem isPropertyValue_of_declaredValue {e : Concrete} {n : Node}
    (h : e.declaredValue src = .ok n) : n.IsPropertyValue := by
  rw [declaredValue] at h
  split at h
  · -- a custom property keeps its text
    have hform := valueForm?_of_rawSpan h
    exact (isPropertyValue_iff hform).2 rfl
  · obtain ⟨members, -, m, -, rfl⟩ := valueNode_eq_ok.1 h
    exact .inl rfl

/-- **What is declared in a numbered tree** is a list of values, or text. -/
theorem isPropertyValue_of_declared? (htree : c.stylesheet src = .ok tree) {d : Node}
    (hd : d ∈ tree.numbered.preorder) {value : Option Node} (hvalue : d.declared? = some value) :
    ∃ n, value = some n ∧ n.IsPropertyValue := by
  cases d with
  | declaration m property v important =>
      obtain ⟨n, made, b, hchildren, -, -, hmade, hbare⟩ := declaration_numbered htree hd rfl
      obtain rfl := Option.some.inj hvalue
      refine ⟨n, ?_, ?_⟩
      · cases v with
        | none => cases hchildren
        | some v => exact congrArg some (List.singleton_inj.1 hchildren)
      · rw [← isPropertyValue_bare, hbare, isPropertyValue_bare]
        exact isPropertyValue_of_declaredValue hmade
  | _ => cases hvalue

theorem isPropertyValue_of_mem_candidates (htree : c.stylesheet src = .ok tree) {u : Node}
    {x : String} (hfallback : ∀ n, u.fallback? = some n → n.IsPropertyValue) {value : Option Node}
    (h : value ∈ ((Walk.ofSteps (tree.numbered.steps none)).usesOf x).candidates u) :
    ∃ n, value = some n ∧ n.IsPropertyValue := by
  rcases mem_candidates_cases h with ⟨d, hd, hdeclared⟩ | ⟨n, hn, rfl⟩
  · exact isPropertyValue_of_declared? htree hd hdeclared
  · exact ⟨n, rfl, hfallback n hn⟩

end Tree

end Node

namespace Session

/-! ## What a call comes to -/

/-- **A call of a text that was read comes to nothing but values and text** exactly if its fallback,
in case the call refers to a name and has a fallback, is text; and that can be told from the node of
the concrete tree that the call was made from. -/
theorem resolution_isPropertyValue_iff {grammar : String → Option Concrete} {text : String}
    {path : Option Path} {c : Concrete} {r : Parsed Diagnostic} {s : Session} {u : Node}
    (hgrammar : grammar text = some c) (hread : Language.parseText grammar text path = .ok r)
    (hs : ofParsed? r = some s) (hu : u ∈ s.root.preorder) (hvar : u.isVar = true) :
    ∃ e ∈ c.walk, e.MakesCall (.ofText text) u
      ∧ ∃ closest values, (s.answer (.closest u)).1 = .ok (.value closest)
        ∧ (s.answer (.values u)).1 = .ok (.values values)
        ∧ (((∀ n, closest = some n → n.IsPropertyValue)
            ∧ ∀ value ∈ values, ∃ n, value = some n ∧ n.IsPropertyValue)
          ↔ e.FallbackIsText) := by
  obtain ⟨tree, htree, hs'⟩ := Language.ofParsed?_parseText hgrammar hread
  obtain rfl := Option.some.inj (hs'.symm.trans hs)
  have henter := numbered_enterable htree
  obtain ⟨e, he, hcall⟩ := Node.exists_makesCall htree hu hvar
  refine ⟨e, he, hcall, ?_⟩
  have htext := Node.fallbackIsText_iff hcall hvar
  cases hx : u.referredName? with
  | none =>
      -- without a name nothing is asked of the fallback, and nothing is answered
      obtain ⟨hclosest, hvalues⟩ :=
        answers_of_no_name text henter.noComment henter.preludesAreGroups hx
      refine ⟨none, [], hclosest, hvalues, ?_⟩
      rw [htext, hx]
      simp
  | some x =>
      obtain ⟨hclosest, hvalues⟩ := answers_of_name text henter.noComment henter.preludesAreGroups
        henter.blocksAreGroups hx
      refine ⟨_, _, hclosest, hvalues, ?_⟩
      rw [htext, hx]
      constructor
      · -- the fallback is one of all values
        rintro ⟨-, hall⟩ - n hn
        obtain ⟨n', hn', hvalue⟩ := hall (some n) (Walk.fallback_mem_candidates hn)
        obtain rfl := Option.some.inj hn'
        exact hvalue
      · intro hfallback
        refine ⟨?_, fun value => Node.isPropertyValue_of_mem_candidates htree (hfallback rfl)⟩
        intro n hn
        -- so is the closest value
        have hmem := Walk.mem_candidates (Option.join_eq_some_iff.1 hn)
        obtain ⟨n', hn', hvalue⟩ :=
          Node.isPropertyValue_of_mem_candidates htree (hfallback rfl) hmem
        obtain rfl := Option.some.inj hn'
        exact hvalue

section Example

/-- The concrete tree of a rule with one declaration, whose value is a call with the arguments. -/
private def callTree (stop : Int) (arguments : List Concrete) : Concrete :=
  .node "stylesheet" 0 stop true false [.node "rule_set" 0 stop true false
    [.node "selectors" 0 1 true false [.node "tag_name" 0 1 true false []],
      .node "block" 1 stop true false
        [.node "\x7b" 1 2 false false [],
          .node "declaration" 2 (stop - 1) true false
            [.node "property_name" 2 3 true false [], .node ":" 3 4 false false [],
              .node "call_expression" 4 (stop - 1) true false
                [.node "function_name" 4 7 true false [],
                  .node "arguments" 7 (stop - 1) true false
                    (.node "(" 7 8 false false [] :: arguments
                      ++ [.node ")" (stop - 2) (stop - 1) false false []])]],
          .node "\x7d" (stop - 1) stop false false []]]]

/-- A call with a name before the comma. -/
private def nameText : String := "a\x7bc:var(--a, c)\x7d"

private def nameTree : Concrete := callTree 16
  [.node "plain_value" 8 11 true false [], .node "," 11 12 false false [],
    .node "plain_value" 13 14 true false []]

/-- A call with a name and a second value before the comma. -/
private def secondText : String := "a\x7bc:var(--a b, c)\x7d"

private def secondTree : Concrete := callTree 18
  [.node "plain_value" 8 11 true false [], .node "plain_value" 12 13 true false [],
    .node "," 13 14 false false [], .node "plain_value" 15 16 true false []]

/-- The two answers on a call. -/
private def twoAnswers? (s : Session) (u : Node) : Option (Option Node × List (Option Node)) :=
  match (s.answer (.closest u)).1, (s.answer (.values u)).1 with
  | .ok (.value closest), .ok (.values values) => some (closest, values)
  | _, _ => none

private theorem twoAnswers?_eq_some_iff {s : Session} {u : Node} {closest : Option Node}
    {values : List (Option Node)} : twoAnswers? s u = some (closest, values)
      ↔ (s.answer (.closest u)).1 = .ok (.value closest)
        ∧ (s.answer (.values u)).1 = .ok (.values values) := by
  rw [twoAnswers?]
  split
  · rename_i found all hclosest hvalues
    simp [hclosest, hvalues]
  · rename_i hnone
    simp only [reduceCtorEq, false_iff, not_and]
    exact fun hclosest hvalues => hnone closest values hclosest hvalues

/-- The kinds of the two answers on the first call of a text for which the grammar gives a tree. -/
private def kindsOnFirstCall (text : String) (c : Concrete) :
    Option (Option Kind × List (Option Kind)) := do
  let r ← (Language.parseText (fun _ => some c) text none).toOption
  let s ← ofParsed? r
  let u ← s.root.preorder.find? Node.isVar
  let (closest, values) ← twoAnswers? s u
  return (closest.map Node.kind, values.map (·.map Node.kind))

/-- These are the kinds of what is answered on a call of a text that was read. -/
private theorem exists_answers_of_kinds {text : String} {c : Concrete} {kind : Option Kind}
    {kinds : List (Option Kind)} (h : kindsOnFirstCall text c = some (kind, kinds)) :
    ∃ r s u closest values, Language.parseText (fun _ => some c) text none = .ok r
      ∧ ofParsed? r = some s ∧ u ∈ s.root.preorder ∧ u.isVar = true
      ∧ (s.answer (.closest u)).1 = .ok (.value closest)
      ∧ (s.answer (.values u)).1 = .ok (.values values)
      ∧ closest.map Node.kind = kind ∧ values.map (·.map Node.kind) = kinds := by
  simp only [kindsOnFirstCall, bind, Option.bind_eq_some_iff] at h
  obtain ⟨r, hr, s, hs, u, hu, ⟨closest, values⟩, hanswers, h⟩ := h
  obtain ⟨hclosest, hvalues⟩ := twoAnswers?_eq_some_iff.1 hanswers
  obtain ⟨hkind, hkinds⟩ := Prod.mk.inj (Option.some.inj h)
  exact ⟨r, s, u, closest, values, eq_ok_of_toOption hr, hs, List.mem_of_find?_eq_some hu,
    List.find?_some hu, hclosest, hvalues, hkind, hkinds⟩

/-- Behind one name and a comma the fallback is text, and it is all that the call comes to. -/
theorem resolution_nameAndComma :
    nameTree.WellNested (Text.Utf8.encode nameText.toList).length
      ∧ ∃ r s u closest values,
        Language.parseText (fun _ => some nameTree) nameText none = .ok r ∧ ofParsed? r = some s
        ∧ u ∈ s.root.preorder ∧ u.isVar = true
        ∧ (s.answer (.closest u)).1 = .ok (.value closest)
        ∧ (s.answer (.values u)).1 = .ok (.values values)
        ∧ closest.map Node.kind = some .raw ∧ values.length = 1
        ∧ ∀ value ∈ values, ∃ n, value = some n ∧ n.IsPropertyValue := by
  have hrun : kindsOnFirstCall nameText nameTree = some (some .raw, [some .raw]) := by
    decide +kernel
  have hshort : ∀ e ∈ nameTree.walk, e.formsBeforeComma.length ≤ 1 := by decide +kernel
  obtain ⟨r, s, u, closest, values, hread, hs, hu, hvar, hclosest, hvalues, hkind, hkinds⟩ :=
    exists_answers_of_kinds hrun
  obtain ⟨e, he, -, closest', values', -, hvalues', hiff⟩ :=
    resolution_isPropertyValue_iff (c := nameTree) rfl hread hs hu hvar
  obtain ⟨rfl⟩ := hvalues.symm.trans hvalues'
  refine ⟨by decide +kernel, r, s, u, closest, values, hread, hs, hu, hvar, hclosest, hvalues,
    hkind, ?_, ?_⟩
  · simpa using congrArg List.length hkinds
  · exact (hiff.2 (fallbackIsText_of_length_le (hshort e he))).2

/-- **With a second value before the comma the call comes to the comma.** -/
theorem resolution_secondValue :
    secondTree.WellNested (Text.Utf8.encode secondText.toList).length
      ∧ ∃ r s u comma values,
        Language.parseText (fun _ => some secondTree) secondText none = .ok r
        ∧ ofParsed? r = some s ∧ u ∈ s.root.preorder ∧ u.isVar = true
        ∧ (s.answer (.closest u)).1 = .ok (.value (some comma))
        ∧ (s.answer (.values u)).1 = .ok (.values values)
        ∧ comma.kind = .operator ∧ ¬ comma.IsPropertyValue
        ∧ values.map (·.map Node.kind) = [some .operator] := by
  have hrun : kindsOnFirstCall secondText secondTree = some (some .operator, [some .operator]) := by
    decide +kernel
  obtain ⟨r, s, u, closest, values, hread, hs, hu, hvar, hclosest, hvalues, hkind, hkinds⟩ :=
    exists_answers_of_kinds hrun
  obtain ⟨comma, rfl, hcomma⟩ := Option.map_eq_some_iff.1 hkind
  refine ⟨by decide +kernel, r, s, u, comma, values, hread, hs, hu, hvar, hclosest, hvalues,
    hcomma, ?_, hkinds⟩
  rw [Node.IsPropertyValue, hcomma]
  decide

end Example

end Session

end Stylesheet
