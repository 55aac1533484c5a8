/-
The index lists declarations and definitions in the order of the text.

The walk enters a rule before its prelude and its block, and a block before its items. So the order
in which declarations and at-rules are entered is the order of the text if the items of a block
stand in a row, and if all of them stand in blocks: what stands in a prelude, a selector or a value
may have its parts in any order, but there is no declaration and no at-rule in it (`…_inert`).

Of the declarations before a call the last in the index is taken. By the order of the text this is
the nearest one (`Walk.FallsThrough.nearest`).
-/
import Stylesheet.Proofs.Nesting

set_option autoImplicit false

namespace Stylesheet

open Made

/-! ## Selectors and preludes

No builder of selectors or preludes makes a rule, a declaration or an at-rule: what they make is
inert, all the way down. -/

namespace Concrete

variable {src : Source}

theorem rawAt_inert {start stop : Int} {n : Node} (h : src.rawAt start stop = .ok n) :
    n.Everywhere Node.Inert := by
  obtain ⟨m, -, rfl⟩ := Source.rawAt_eq_ok.1 h
  exact Node.everywhere_inert_leaf _ _

theorem emptyRaw_inert {octet : Int} {n : Node} (h : src.emptyRaw octet = .ok n) :
    n.Everywhere Node.Inert := by
  obtain ⟨m, -, rfl⟩ := Source.emptyRaw_eq_ok.1 h
  exact Node.everywhere_inert_leaf _ _

theorem pseudoNode_inert {c : Concrete} {mark : Mark} {group : String → Group} {n : Node}
    (h : pseudoNode src c mark group = .ok n) : n.Everywhere Node.Inert := by
  rcases pseudoNode_cases h with h | ⟨name, members, rfl, hmembers⟩
  · exact Source.leaf_inert h
  · apply Node.everywhere_inert_group
    intro m hm
    obtain ⟨d, -, harguments⟩ := hmembers m hm
    unfold selectorArguments at harguments
    split at harguments
    · exact rawAt_inert harguments
    · exact Source.leaf_inert harguments

theorem attributeNode_inert {cs : List Concrete} {mark : Mark} {n : Node}
    (h : attributeNode src cs mark = .ok n) : n.Everywhere Node.Inert := by
  obtain ⟨name, value, rfl, hvalue, hname⟩ := attributeNode_cases h
  refine Node.everywhere_iff.2 ⟨trivial, ?_⟩
  intro d hd
  rcases List.mem_append.1 hd with hd | hd
  · rw [List.mem_singleton.1 hd]
    rcases hname with ⟨e, -, hleaf⟩ | rfl
    · exact Source.leaf_inert hleaf
    · exact Node.everywhere_inert_leaf _ _
  · obtain rfl := Option.mem_toList.1 hd
    obtain ⟨e, -, others, hvalues⟩ := exists_values_of_attributeValue hvalue
    exact values_inert e hvalues d List.mem_cons_self

theorem lastPart_inert {c : Concrete} {form : PartForm} {n : Node}
    (h : lastPart src c form = .ok n) : n.Everywhere Node.Inert := by
  obtain ⟨mark, -, ⟨nameKind, leaf, h⟩ | ⟨group, h⟩ | h⟩ := lastPart_cases h
  · rcases namedPart_cases h with h | ⟨d, -, rfl⟩
    · exact Source.leaf_inert h
    · exact Node.everywhere_inert_leaf _ _
  · exact pseudoNode_inert h
  · exact attributeNode_inert h

/-- **The parts of a selector are inert.** -/
theorem selectorParts_inert (c : Concrete) {ns : List Node} (h : selectorParts src c = .ok ns) :
    ∀ n ∈ ns, n.Everywhere Node.Inert := by
  intro n hn
  rcases mem_selectorParts h hn with
    ⟨l, hleaf⟩ | ⟨left, right, mark, name, -, -, rfl⟩ | ⟨form, hlast⟩ | ⟨d, hd, made, hmade, hmem⟩
  · exact Source.leaf_inert hleaf
  · exact Node.everywhere_inert_leaf _ _
  · exact lastPart_inert hlast
  · have := sizeOf_lt_of_mem_significant hd
    exact selectorParts_inert d hmade n hmem
termination_by sizeOf c

theorem selectorNode_inert {c : Concrete} {n : Node} (h : selectorNode src c = .ok n) :
    n.Everywhere Node.Inert := by
  obtain ⟨parts, hparts, m, -, rfl⟩ := selectorNode_eq_ok.1 h
  exact Node.everywhere_inert_group (selectorParts_inert c hparts)

theorem selectorList_inert {c : Concrete} {n : Node} (h : selectorList src c = .ok n) :
    n.Everywhere Node.Inert := by
  obtain ⟨selectors, hselectors, m, -, rfl⟩ := selectorList_eq_ok.1 h
  apply Node.everywhere_inert_group
  intro d hd
  obtain ⟨e, -, hselector⟩ := mem_mapM hselectors d hd
  exact selectorNode_inert hselector

theorem rulePrelude_inert {c : Concrete} {n : Node} (h : rulePrelude src c = .ok n) :
    n.Everywhere Node.Inert := by
  unfold rulePrelude at h
  split at h
  · exact selectorList_inert h
  · exact emptyRaw_inert h

theorem keyframePrelude_inert {c : Concrete} {n : Node} (h : keyframePrelude src c = .ok n) :
    n.Everywhere Node.Inert := by
  unfold keyframePrelude at h
  split at h
  · exact Source.leaf_inert h
  · exact emptyRaw_inert h

theorem preludeNode_inert {cs : List Concrete} {n : Node} (h : preludeNode src cs = .ok (some n)) :
    n.Everywhere Node.Inert := by
  obtain ⟨members, m, hmembers, rfl⟩ := preludeNode_eq_ok h
  apply Node.everywhere_inert_group
  intro d hd
  obtain ⟨e, -, made, hmade, hmem⟩ := mem_concat hmembers d hd
  unfold preludeValues at hmade
  split at hmade
  · simp only [bind_eq_ok, pure_eq_ok] at hmade
    obtain ⟨leaf, hleaf, rfl⟩ := hmade
    rw [List.mem_singleton.1 hmem]
    exact Source.leaf_inert hleaf
  · exact values_inert e hmade d hmem

end Concrete

/-! ## The order of items

Declarations and at-rules are the nodes that can declare or define a property. An inert node is
neither, so it does not matter where inert children lie: only the items of a block have to be in a
row for the order of statements to be that of the text. -/

namespace Node

open Concrete

variable {src : Source} {root : Concrete}

/-- Whether a node is a declaration or an at-rule. -/
def isStatement (n : Node) : Bool :=
  n.kind == .declaration || n.kind == .atrule

theorem isStatement_bare (n : Node) : n.bare.isStatement = n.isStatement := by
  rw [isStatement, isStatement, kind_bare]

theorem isStatement_of_declares {n : Node} {x : String} (h : n.declares x = true) :
    n.isStatement = true := by
  cases n with
  | declaration => rfl
  | _ => cases h

theorem isStatement_of_defines {n : Node} {x : String} (h : n.defines x = true) :
    n.isStatement = true := by
  cases n with
  | atrule => rfl
  | _ => cases h

theorem Inert.isStatement_eq_false {n : Node} (h : n.Inert) : n.isStatement = false := by
  cases n with
  | leaf m l => cases l <;> rfl
  | group m g ns => cases g <;> rfl
  | attributeSelector => rfl
  | _ => exact h.elim

theorem orderly_of_inert {n : Node} (hloc : ∃ loc, n.loc = some loc)
    (h : ∀ c ∈ n.children, c.Everywhere Inert) : n.Orderly isStatement := by
  obtain ⟨loc, hloc⟩ := hloc
  refine ⟨loc, hloc, n.children, [], (List.append_nil _).symm, ?_, row_nil _ _⟩
  intro c hc m hm
  exact (h c hc m hm).isStatement_eq_false

/-- A node with inert children, and others behind them that are in a row, is orderly for
statements. -/
theorem orderly_of_prelude {n : Node} (hnested : n.Nested) {prelude body : Option Node}
    (hchildren : n.children = prelude.toList ++ body.toList)
    (h : ∀ p ∈ prelude, p.Everywhere Inert) : n.Orderly isStatement := by
  obtain ⟨loc, hloc, hin⟩ := hnested
  refine ⟨loc, hloc, prelude.toList, body.toList, hchildren, ?_, ?_⟩
  · intro p hp m hm
    exact (h p (Option.mem_toList.1 hp) m hm).isStatement_eq_false
  · cases body with
    | none => exact row_nil _ _
    | some b =>
        apply Within.row
        apply hin
        rw [hchildren]
        exact List.mem_append_right _ (List.mem_singleton_self b)

/-- **A node that is made is orderly** for statements. -/
theorem Origin.orderly (hnest : root.WellNested src.octets.length) {n : Node}
    (h : n.Origin src root) (hloc : ∃ loc, n.loc = some loc) : n.Orderly isStatement := by
  cases n with
  | leaf m l => exact orderly_of_inert hloc fun c hc => by cases hc
  | comment => exact h.elim
  | group m g ns =>
      cases g with
      | stylesheet | block => exact (h.tight_of_holdsItems hnest rfl).orderly
      | value | function | parentheses | brackets | atrulePrelude =>
          exact (h.tight_of_holdsValues hnest rfl).orderly
      | selectorList =>
          obtain ⟨c, -, h⟩ := h
          exact orderly_of_inert hloc (everywhere_iff.1 (selectorList_inert h)).2
      | selector =>
          obtain ⟨c, -, h⟩ := h
          exact orderly_of_inert hloc (everywhere_iff.1 (selectorNode_inert h)).2
      | pseudoClassSelector | pseudoElementSelector =>
          obtain ⟨c, -, -, h⟩ := h
          exact orderly_of_inert hloc (everywhere_iff.1 (pseudoNode_inert h)).2
  | rule m prelude body =>
      apply orderly_of_prelude (h.nested_rule hnest) rfl
      intro p hp
      obtain ⟨c, hc, h | h⟩ := h
      all_goals
        obtain ⟨p', hp', b, -, m', -, heq⟩ := ruleOf_eq_ok.1 h
        obtain ⟨-, rfl, -⟩ := rule.inj heq
        obtain rfl := Option.some.inj hp
      · exact rulePrelude_inert hp'
      · exact keyframePrelude_inert hp'
  | atrule m name prelude body =>
      apply orderly_of_prelude (h.nested_atrule hnest) rfl
      intro p hp
      obtain ⟨c, hc, h⟩ := h
      obtain ⟨⟨cs, -, hprelude⟩, -⟩ := atruleNode_cases h
      rw [Option.mem_def.1 hp] at hprelude
      exact preludeNode_inert hprelude
  | declaration m property value important =>
      apply orderly_of_inert hloc
      obtain ⟨c, hc, -, h⟩ := h
      obtain ⟨v, hv, m', -, heq⟩ := declarationNode_eq_ok.1 h
      obtain ⟨-, -, rfl, -⟩ := declaration.inj heq
      intro d hd
      rw [List.mem_singleton.1 hd]
      exact declaredValue_inert hv
  | attributeSelector m name matcher value =>
      obtain ⟨c, -, -, h⟩ := h
      exact orderly_of_inert hloc (everywhere_iff.1 (attributeNode_inert h)).2

end Node

/-- **Statements stand in the order of the text** in the tree that a concrete tree makes. -/
theorem Concrete.stylesheet_order {src : Source} {c : Concrete}
    (hnest : c.WellNested src.octets.length) {n : Node} (h : stylesheet src c = .ok n) :
    (n.preorder.filter Node.isStatement).Pairwise Node.StartsNoLater := by
  have hbetween := stylesheet_between hnest h
  have horderly : n.Everywhere (Node.Orderly Node.isStatement) := by
    intro m hm
    obtain ⟨loc, hloc, -⟩ := hbetween m hm
    exact (stylesheet_origin h m hm).orderly hnest ⟨loc, hloc⟩
  exact (Node.starts_of_orderly horderly (hbetween n (Node.self_mem_preorder n))).2

/-! ## The nearest declaration -/

namespace Walk

/-- A call comes to a declaration before it: its rule gives no value, it has no fallback, and the
declaration is the last one before it outside its rule. -/
structure FallsThrough (w : Walk) (uses : Uses) (reference d : Node) : Prop where
  noneInRule : w.valueInRule? uses reference = none
  noFallback : reference.fallback? = none
  last : w.declarationBefore? uses reference = some d

variable {w : Walk} {uses : Uses} {reference d : Node}

theorem FallsThrough.mem (h : w.FallsThrough uses reference d) : d ∈ uses.declarations :=
  (List.mem_filter.1 (List.mem_of_getLast? h.last)).1

theorem FallsThrough.closestOf (h : w.FallsThrough uses reference d) {value : Option Node}
    (hvalue : d.declared? = some value) : w.closestOf uses reference = .ok value := by
  have hbefore : w.valueBefore? uses reference = some value := by
    rw [valueBefore?_eq_bind, h.last, Option.bind_some, hvalue]
  rw [Walk.closestOf, h.noneInRule, h.noFallback, hbefore]

/-- **The declaration that a call comes to is the nearest.** If the index lists declarations in the
order of the text, the declaration starts before the call, and no other of them starts between the
two. -/
theorem FallsThrough.nearest (h : w.FallsThrough uses reference d)
    (hdecl : ∀ e ∈ uses.declarations, e.declared?.isSome)
    (horder : uses.declarations.Pairwise Node.StartsNoLater) {a b : Location}
    (ha : d.loc = some a) (hb : reference.loc = some b) :
    a.start.offset < b.start.offset
      ∧ ∀ e ∈ uses.declarations, ∀ l, e.loc = some l →
          ¬ (a.start.offset < l.start.offset ∧ l.start.offset < b.start.offset) := by
  have hstarts : ∀ (e : Node) (l : Location), e.loc = some l →
      e.startsBefore reference = decide (l.start.offset < b.start.offset) := by
    intro e l hl
    unfold Node.startsBefore
    rw [hb, hl]
    rfl
  have hlast := h.last
  rw [declarationBefore?_eq hdecl h.noneInRule] at hlast
  constructor
  · have hbefore := (List.mem_filter.1 (List.mem_of_getLast? hlast)).2
    rw [hstarts d a ha] at hbefore
    exact of_decide_eq_true hbefore
  · rintro e he l hl ⟨hafter, hbefore⟩
    have hmem : e ∈ uses.declarations.filter fun d => d.startsBefore reference := by
      apply List.mem_filter.2
      rw [hstarts e l hl]
      exact ⟨he, decide_eq_true hbefore⟩
    have hsorted : (uses.declarations.filter fun d => d.startsBefore reference).Pairwise
        Node.StartsNoLater := horder.filter _
    obtain ⟨init, hinit⟩ := List.getLast?_eq_some_iff.1 hlast
    rw [hinit] at hmem hsorted
    -- the other declaration is listed before the last one, or is it
    rcases List.mem_append.1 hmem with hmem | hmem
    · obtain ⟨l', a', hl', ha', hle⟩ :=
        (List.pairwise_append.1 hsorted).2.2 e hmem d (List.mem_singleton_self d)
      obtain rfl := Option.some.inj (hl.symm.trans hl')
      obtain rfl := Option.some.inj (ha.symm.trans ha')
      omega
    · rw [List.mem_singleton.1 hmem] at hl
      obtain rfl := Option.some.inj (ha.symm.trans hl)
      omega

end Walk

/-! ## Texts that were read -/

namespace Session

variable {grammar : String → Option Concrete} {text : String} {path : Option Path} {c : Concrete}
  {r : Parsed Diagnostic}

/-- **Uses in the order of the text.** In the session of a text that was read no declaration and no
definition of a property starts before one that is listed earlier. So the declaration that a call of
the property comes to, if its own rule and its fallback give nothing, is the nearest one: it starts
before the call, and no other declaration of the property starts between the two. -/
theorem uses_in_text_order (hgrammar : grammar text = some c)
    (hnest : c.WellNested (Text.Utf8.encode text.toList).length)
    (hread : Language.parseText grammar text path = .ok r) :
    ∃ s w, ofParsed? r = some s ∧ Walk.ofTree s.root = .ok w
      ∧ ∀ x uses, (s.answer (.uses x)).1 = .ok (.uses (some uses)) →
          uses.declarations.Pairwise Node.StartsNoLater
          ∧ uses.definitions.Pairwise Node.StartsNoLater
          ∧ ∀ u ∈ s.root.preorder, u.referredName? = some x →
              ∀ d, w.FallsThrough uses u d →
                ∃ value a b, d.declared? = some value ∧ d.loc = some a ∧ u.loc = some b
                  ∧ (s.answer (.closest u)).1 = .ok (.value value)
                  ∧ a.start.offset < b.start.offset
                  ∧ ∀ e ∈ s.root.preorder, e.declares x = true → ∀ l, e.loc = some l →
                      ¬ (a.start.offset < l.start.offset ∧ l.start.offset < b.start.offset) := by
  obtain ⟨tree, hmade, hsession⟩ := Language.ofParsed?_parseText hgrammar hread
  have henter := numbered_enterable hmade
  have hwalk := Walk.ofTree_of_noComment henter.noComment henter.preludesAreGroups
  have hbare := Node.bare_numbered tree
  have horder := Node.pairwise_filter_of_bare_eq Node.isStatement_bare hbare
    (Concrete.stylesheet_order hnest hmade)
  have hin := Node.everywhere_of_bare_eq (fun n => Node.within_bare n) hbare
    (Concrete.stylesheet_between hnest hmade)
  refine ⟨_, _, hsession, hwalk, ?_⟩
  intro x uses huses
  rw [answer, tryAsk_start_of_ok hwalk] at huses
  have huses : (Walk.ofSteps (tree.numbered.steps none)).uses? x = some uses :=
    Answer.uses.inj (Except.ok.inj huses)
  obtain ⟨hdecl, hdef⟩ := Walk.lists_of_uses?_ofSteps huses
  have hdeclared : ∀ e ∈ uses.declarations, e.declared?.isSome := by
    intro e he
    rw [hdecl] at he
    exact Node.declared?_isSome_of_declares (List.mem_filter.1 he).2
  have hsorted : uses.declarations.Pairwise Node.StartsNoLater := by
    rw [hdecl]
    exact horder.sublist (List.monotone_filter_right _ fun e => Node.isStatement_of_declares)
  refine ⟨hsorted, ?_, ?_⟩
  · rw [hdef]
    exact horder.sublist (List.monotone_filter_right _ fun e => Node.isStatement_of_defines)
  · intro u hu hx d hfalls
    have hd : d ∈ tree.numbered.preorder := by
      have hmem := hfalls.mem
      rw [hdecl] at hmem
      exact (List.mem_filter.1 hmem).1
    obtain ⟨value, hvalue⟩ := Option.isSome_iff_exists.1 (hdeclared d hfalls.mem)
    obtain ⟨a, ha, -⟩ := hin d hd
    obtain ⟨b, hb, -⟩ := hin u hu
    obtain ⟨hbefore, hnearest⟩ := hfalls.nearest hdeclared hsorted ha hb
    refine ⟨value, a, b, hvalue, ha, hb, ?_, hbefore, ?_⟩
    · rw [answer, tryAsk_start_of_ok hwalk, Question.answer, Walk.closest, hx]
      simp only [huses]
      rw [hfalls.closestOf hvalue]
      rfl
    · intro e he hdeclares
      apply hnearest
      rw [hdecl]
      exact List.mem_filter.2 ⟨he, hdeclares⟩

section TwoRules

/-- The text of two rules. The first declares a property twice, the second calls it. -/
private def twoRulesText : String := "a\x7b--x:1;--x:2\x7db\x7bc:var(--x)\x7d"

/-- A rule on a range, with one letter for its selector, and a block with declarations. -/
private def letterRule (start stop : Int) (declarations : List Concrete) : Concrete :=
  .node "rule_set" start stop true false
    [.node "selectors" start (start + 1) true false
        [.node "tag_name" start (start + 1) true false []],
      .node "block" (start + 1) stop true false
        (.node "\x7b" (start + 1) (start + 2) false false []
          :: declarations ++ [.node "\x7d" (stop - 1) stop false false []])]

/-- A declaration on a range, with a colon behind its property, and what follows the colon. -/
private def colonDeclaration (start colon stop : Int) (rest : List Concrete) : Concrete :=
  .node "declaration" start stop true false
    (.node "property_name" start colon true false []
      :: .node ":" colon (colon + 1) false false [] :: rest)

/-- The concrete tree of the two rules. -/
private def twoRulesTree : Concrete :=
  .node "stylesheet" 0 27 true false
    [letterRule 0 14
      [colonDeclaration 2 5 8
        [.node "integer_value" 6 7 true false [], .node ";" 7 8 false false []],
        colonDeclaration 8 11 13 [.node "integer_value" 12 13 true false []]],
      letterRule 14 27
        [colonDeclaration 16 17 26 [.node "call_expression" 18 26 true false
          [.node "function_name" 18 21 true false [],
            .node "arguments" 21 26 true false
              [.node "(" 21 22 false false [], .node "plain_value" 22 25 true false [],
                .node ")" 25 26 false false []]]]]]

/-- The uses of a property in the tree of a session, the first call of it, and the declaration that
the call comes to, if its rule and its fallback give nothing. -/
private def fallsTo? (s : Session) (x : String) : Option (Uses × Node × Node) := do
  let w ← (Walk.ofTree s.root).toOption
  let uses ← w.uses? x
  let u ← s.root.preorder.find? fun n => n.referredName? == some x
  let d ← w.declarationBefore? uses u
  if (w.valueInRule? uses u).isNone && u.fallback?.isNone then some (uses, u, d) else none

private theorem fallsTo?_eq_some {s : Session} {x : String} {uses : Uses} {u d : Node} {w : Walk}
    (h : fallsTo? s x = some (uses, u, d)) (hw : Walk.ofTree s.root = .ok w) :
    w.uses? x = some uses ∧ u ∈ s.root.preorder ∧ u.referredName? = some x
      ∧ w.FallsThrough uses u d := by
  simp only [fallsTo?, hw, bind, Option.bind_eq_some_iff] at h
  obtain ⟨w', hw', uses', huses, u', hu, d', hd, h⟩ := h
  obtain rfl := Option.some.inj hw'
  split at h
  · rename_i hnone
    rw [Bool.and_eq_true, Option.isNone_iff_eq_none, Option.isNone_iff_eq_none] at hnone
    obtain ⟨rfl, rfl, rfl⟩ := Option.some.inj h
    have hx : u.referredName? = some x := by simpa using List.find?_some hu
    exact ⟨huses, List.mem_of_find?_eq_some hu, hx, hnone.1, hnone.2, hd⟩
  · cases h

/-- Of the two declarations before the call, the second is the one that the call comes to. -/
theorem uses_in_text_order_twoRules :
    twoRulesTree.WellNested (Text.Utf8.encode twoRulesText.toList).length
      ∧ ∃ r s w uses u d value,
        Language.parseText (fun _ => some twoRulesTree) twoRulesText none = .ok r
        ∧ ofParsed? r = some s ∧ Walk.ofTree s.root = .ok w
        ∧ (s.answer (.uses "--x")).1 = .ok (.uses (some uses))
        ∧ uses.declarations.map Node.range? = [some (2, 7), some (8, 13)]
        ∧ uses.declarations.Pairwise Node.StartsNoLater
        ∧ u ∈ s.root.preorder ∧ u.referredName? = some "--x" ∧ w.FallsThrough uses u d
        ∧ d.range? = some (8, 13) ∧ u.range? = some (18, 26) ∧ d.declared? = some value
        ∧ (s.answer (.closest u)).1 = .ok (.value value) := by
  have hnest : twoRulesTree.WellNested (Text.Utf8.encode twoRulesText.toList).length := by
    decide +kernel
  have hrun : (Language.parseText (fun _ => some twoRulesTree) twoRulesText none).toOption.bind
      (fun r => (ofParsed? r).bind fun s => (fallsTo? s "--x").map fun found =>
        (found.1.declarations.map Node.range?, found.2.1.range?, found.2.2.range?))
      = some ([some (2, 7), some (8, 13)], some (18, 26), some (8, 13)) := by
    decide +kernel
  obtain ⟨r, hr, hfound⟩ := Option.bind_eq_some_iff.1 hrun
  have hread := eq_ok_of_toOption hr
  obtain ⟨s, w, hs, hw, horder⟩ := uses_in_text_order rfl hnest hread
  rw [hs, Option.bind_some] at hfound
  obtain ⟨⟨uses, u, d⟩, hfalls, hranges⟩ := Option.map_eq_some_iff.1 hfound
  obtain ⟨hdeclarations, hcall⟩ := Prod.mk.inj hranges
  obtain ⟨hu, hd⟩ := Prod.mk.inj hcall
  obtain ⟨huses, hmem, hx, hthrough⟩ := fallsTo?_eq_some hfalls hw
  have hanswer : (s.answer (.uses "--x")).1 = .ok (.uses (some uses)) := by
    obtain ⟨root, -, rfl⟩ := Option.map_eq_some_iff.1 hs
    have hw' : Walk.ofTree root = .ok w := hw
    rw [answer, tryAsk_start_of_ok hw']
    exact congrArg (fun found => Except.ok (Answer.uses found)) huses
  obtain ⟨hsorted, -, hnearest⟩ := horder "--x" uses hanswer
  obtain ⟨value, a, b, hvalue, -, -, hclosest, -⟩ := hnearest u hmem hx d hthrough
  exact ⟨hnest, r, s, w, uses, u, d, value, hread, hs, hw, hanswer, hdeclarations, hsorted, hmem,
    hx, hthrough, hd, hu, hvalue, hclosest⟩

end TwoRules

end Session

end Stylesheet
