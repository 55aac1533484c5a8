/-
The closest value of a call, by the places of the tree.

Four sources can give the closest value, and the first that gives one is taken. Here each of
them is said by places: which rule is around a place is read off its trail, and which
declaration comes last is read off the preorder. The session looks into tables instead, and
asks a declaration before the call, besides starting before it, not to stand in the rule of the
call. That second question is idle (`valueBefore?_eq`): it comes up only when no declaration
stands in that rule.

Only custom properties are indexed. A call that refers to another name has no declarations, and
nothing but its own fallback can be its value (`closest_plain_name_ignores_declaration`).
-/
import Stylesheet.Proofs.Conversation
import Stylesheet.Proofs.Index

set_option autoImplicit false

namespace Stylesheet

namespace Node

/-! ## The four sources -/

/-- The places of the declarations of a property, in preorder. -/
def declarationPlaces (root : Node) (x : String) : List Place :=
  root.places.filter fun p => p.node.declares x

/-- The offset at which a node starts, which is zero if it has no location. -/
def startOrZero (n : Node) : Int := n.loc.elim 0 fun loc => loc.start.offset

/-- The value of the last declaration whose innermost rule is the innermost rule of a place. -/
def valueInOwnRule? (root : Node) (above : List Node) (x : String) : Option (Option Node) :=
  (ruleOn? above).bind fun rule =>
    ((root.declarationPlaces x).filter fun p =>
      (ruleOn? p.above).any fun r => r.id == rule.id).getLast?.bind fun p => p.node.declared?

/-- The value of the last declaration that starts before a call. A declaration without a
location starts at zero, and a call without one after all declarations. -/
def valueStartingBefore? (root reference : Node) (x : String) : Option (Option Node) :=
  ((root.declarationPlaces x).filter fun p =>
    reference.loc.all fun loc => decide (p.node.startOrZero < loc.start.offset)).getLast?.bind
      fun p => p.node.declared?

/-- What is declared as the initial value directly inside the block of an at-rule. -/
def declaredInitially : Node → List (Option Node)
  | atrule _ _ _ (some block) =>
    (block.children.filter (declares "initial-value")).filterMap declared?
  | _ => []

/-- The first value declared as the initial one by a definition of a property. -/
def firstDeclaredInitially? (root : Node) (x : String) : Option (Option Node) :=
  ((root.preorder.filter (defines x)).flatMap declaredInitially).head?

/-- The value of the first of the four sources that gives one. -/
def closestByPlace (root : Node) (above : List Node) (reference : Node) (x : String) :
    Option Node :=
  ((root.valueInOwnRule? above x).or <|
    (reference.children[2]?.map some).or <|
      (root.valueStartingBefore? reference x).or <|
        root.firstDeclaredInitially? x).join

/-! ## Each source by the tables

The index holds nodes and not places, so that a rule is found by climbing the table of parents,
and compared by its identity. Source by source it is shown that this comes to the value that is
found by places. -/

theorem members_eq_children {n : Node} (h : n.members?.isSome) : n.members = n.children := by
  cases n with
  | group => rfl
  | _ => cases h

theorem isVar.members?_isSome {n : Node} (h : n.isVar = true) : n.members?.isSome := by
  cases n with
  | group => rfl
  | _ => cases h

theorem declared?_isSome_of_declares {n : Node} {x : String} (h : n.declares x = true) :
    n.declared?.isSome := by
  cases n with
  | declaration => rfl
  | _ => cases h

theorem startsBefore_eq (declaration reference : Node) :
    declaration.startsBefore reference
      = reference.loc.all fun loc => decide (declaration.startOrZero < loc.start.offset) := by
  rw [startsBefore]
  cases reference.loc <;> rfl

/-- The initial values of an at-rule whose block is a group are those declared in the block. -/
theorem initialValues_eq {n : Node}
    (h : ∀ m name p b, n = .atrule m name p (some b) → b.members?.isSome) :
    n.initialValues = .ok n.declaredInitially := by
  cases n with
  | atrule m name p b =>
      cases b with
      | none => rfl
      | some b =>
          have hgroup := h m name p b rfl
          obtain ⟨ns, hns⟩ := Option.isSome_iff_exists.1 hgroup
          have hchildren : b.children = ns := by
            rw [← members_eq_children hgroup, members, hns, Option.getD_some]
          rw [initialValues, declaredInitially, membersOf, hns, hchildren, List.filterMap_filter]
          refine congrArg Except.ok (List.filterMap_congr fun c _ => ?_)
          cases c <;> simp [declaration?, declares, declared?]
  | _ => rfl

end Node

/-- The first initial value of several definitions whose blocks are groups. -/
theorem firstInitialValue_eq {definitions : List Node}
    (h : ∀ n ∈ definitions, n.initialValues = .ok n.declaredInitially) :
    firstInitialValue definitions
      = .ok (definitions.flatMap Node.declaredInitially).head?.join := by
  induction definitions with
  | nil => rfl
  | cons d rest ih =>
      rw [firstInitialValue, h d List.mem_cons_self, List.flatMap_cons]
      cases d.declaredInitially with
      | nil => exact ih fun n hn => h n (List.mem_cons_of_mem _ hn)
      | cons v vs => rfl

namespace Walk

/-- The last declaration before a call, outside the rule it stands in. -/
def declarationBefore? (w : Walk) (uses : Uses) (reference : Node) : Option Node :=
  let outside := fun declaration : Node =>
    match w.enclosingRule? reference with
    | some rule => !w.standsIn declaration rule
    | none => true
  (uses.declarations.filter fun d => outside d && d.startsBefore reference).getLast?

theorem valueBefore?_eq_bind (w : Walk) (uses : Uses) (reference : Node) :
    w.valueBefore? uses reference
      = (w.declarationBefore? uses reference).bind Node.declared? := rfl

/-- If the rule of a call gives no value, no declaration stands in that rule. -/
theorem standsIn_eq_false {w : Walk} {uses : Uses} {reference rule : Node}
    (hdecl : ∀ d ∈ uses.declarations, d.declared?.isSome)
    (hnone : w.valueInRule? uses reference = none)
    (hrule : w.enclosingRule? reference = some rule) :
    ∀ d ∈ uses.declarations, w.standsIn d rule = false := by
  rw [valueInRule?, hrule, Option.bind_some] at hnone
  -- the last declaration in the rule would have given a value, so there is none
  have hempty : uses.declarations.filter (w.standsIn · rule) = [] := by
    cases hlast : (uses.declarations.filter (w.standsIn · rule)).getLast? with
    | none => exact List.getLast?_eq_none_iff.1 hlast
    | some last =>
        have hmem := (List.mem_filter.1 (List.mem_of_getLast? hlast)).1
        rw [hlast, Option.bind_some] at hnone
        have := hdecl last hmem
        rw [hnone] at this
        cases this
  intro d hd
  simpa using List.filter_eq_nil_iff.1 hempty d hd

/-- **The filter by rule is idle.** If the rule of a call holds no declaration of its property,
then a declaration before the call stands outside that rule anyway. -/
theorem declarationBefore?_eq {w : Walk} {uses : Uses} {reference : Node}
    (hdecl : ∀ d ∈ uses.declarations, d.declared?.isSome)
    (hnone : w.valueInRule? uses reference = none) :
    w.declarationBefore? uses reference
      = (uses.declarations.filter fun d => d.startsBefore reference).getLast? := by
  rw [declarationBefore?]
  refine congrArg List.getLast? (List.filter_congr fun d hd => ?_)
  cases hrule : w.enclosingRule? reference with
  | none => rfl
  | some rule =>
      have hout := standsIn_eq_false hdecl hnone hrule d hd
      show (!w.standsIn d rule && d.startsBefore reference) = d.startsBefore reference
      rw [hout, Bool.not_false, Bool.true_and]

theorem valueBefore?_eq {w : Walk} {uses : Uses} {reference : Node}
    (hdecl : ∀ d ∈ uses.declarations, d.declared?.isSome)
    (hnone : w.valueInRule? uses reference = none) :
    w.valueBefore? uses reference
      = ((uses.declarations.filter fun d => d.startsBefore reference).getLast?).bind
          Node.declared? := by
  rw [valueBefore?_eq_bind, declarationBefore?_eq hdecl hnone]

variable {root : Node} {x : String}

theorem filter_declares_eq (root : Node) (x : String) :
    root.preorder.filter (Node.declares x) = (root.declarationPlaces x).map Node.Place.node := by
  rw [← Node.map_node_placesBelow [] root, List.filter_map]
  rfl

/-- The value in the rule of a call, by the tables, is the one by places. -/
theorem valueInRule?_eq (hd : root.Distinct) {reference : Node} {above : List Node}
    (ht : root.Trail above reference) {uses : Uses}
    (huses : uses.declarations = root.preorder.filter (Node.declares x)) :
    (ofSteps (root.steps none)).valueInRule? uses reference
      = root.valueInOwnRule? above x := by
  rw [valueInRule?, Node.valueInOwnRule?, enclosingRule?_eq hd ht]
  cases Node.ruleOn? above with
  | none => rfl
  | some rule =>
      have hstands : ∀ p ∈ root.declarationPlaces x,
          (ofSteps (root.steps none)).standsIn p.node rule
            = (Node.ruleOn? p.above).any fun r => r.id == rule.id := by
        intro p hp
        have htrail := Node.mem_places_iff.1 (List.mem_filter.1 hp).1
        rw [standsIn, enclosingRule?_eq hd htrail]
        cases Node.ruleOn? p.above <;> simp
      rw [Option.bind_some, Option.bind_some, huses, filter_declares_eq, List.filter_map,
        List.getLast?_map, Option.bind_map]
      exact congrArg (fun l => (List.getLast? l).bind _) (List.filter_congr hstands)

theorem valueBefore?_eq_starting {reference : Node} {uses : Uses}
    (huses : uses.declarations = root.preorder.filter (Node.declares x)) :
    ((uses.declarations.filter fun d => d.startsBefore reference).getLast?).bind Node.declared?
      = root.valueStartingBefore? reference x := by
  rw [Node.valueStartingBefore?, huses, filter_declares_eq, List.filter_map, List.getLast?_map,
    Option.bind_map]
  simp only [Function.comp_def, Node.startsBefore_eq]

/-- What the first of the four sources gives that gives anything, by the tables. -/
def firstSource? (w : Walk) (uses : Uses) (reference : Node) : Option (Option Node) :=
  (w.valueInRule? uses reference).or <|
    (reference.fallback?.map some).or <|
      (w.valueBefore? uses reference).or <|
        (uses.definitions.flatMap Node.declaredInitially).head?

/-- The closest value is what the first source gives, if the blocks of the definitions are
groups. -/
theorem closestOf_eq_join (w : Walk) {uses : Uses} (reference : Node)
    (h : ∀ n ∈ uses.definitions, n.initialValues = .ok n.declaredInitially) :
    w.closestOf uses reference = .ok (w.firstSource? uses reference).join := by
  -- the sources are tried in turn, and each is asked only if those before it fail
  rw [closestOf, firstSource?]
  cases w.valueInRule? uses reference with
  | some value => rfl
  | none =>
      cases reference.fallback? with
      | some fallback => rfl
      | none =>
          cases w.valueBefore? uses reference with
          | some value => rfl
          | none => exact firstInitialValue_eq h

theorem initialValues_of_mem (hb : root.BlocksAreGroups) {definitions : List Node}
    (hdef : ∀ n ∈ definitions, n ∈ root.preorder) :
    ∀ n ∈ definitions, n.initialValues = .ok n.declaredInitially := by
  intro n hn
  apply Node.initialValues_eq
  intro m name p b heq
  exact hb m name p b (heq ▸ hdef n hn)

/-- **The sources of the tables are those of the places**, for the uses that the index has. -/
theorem closestOf_eq (hd : root.Distinct) (hb : root.BlocksAreGroups) {reference : Node}
    {above : List Node} (ht : root.Trail above reference) (hvar : reference.isVar = true)
    {uses : Uses} (hdecl : uses.declarations = root.preorder.filter (Node.declares x))
    (hdef : uses.definitions = root.preorder.filter (Node.defines x)) :
    (ofSteps (root.steps none)).closestOf uses reference
      = .ok (root.closestByPlace above reference x) := by
  have hfallback : reference.fallback? = reference.children[2]? := by
    rw [Node.fallback?, Node.members_eq_children (Node.isVar.members?_isSome hvar)]
  have hdefinitions : ∀ n ∈ uses.definitions, n.initialValues = .ok n.declaredInitially :=
    initialValues_of_mem hb fun n hn => (List.mem_filter.1 (hdef ▸ hn)).1
  have hdeclared : ∀ d ∈ uses.declarations, d.declared?.isSome := fun d hd =>
    Node.declared?_isSome_of_declares (List.mem_filter.1 (hdecl ▸ hd)).2
  rw [closestOf_eq_join _ reference hdefinitions, firstSource?, Node.closestByPlace,
    Node.firstDeclaredInitially?, ← valueInRule?_eq hd ht hdecl, hfallback, hdef]
  cases hown : (ofSteps (root.steps none)).valueInRule? uses reference with
  | some value => rfl
  | none =>
      rw [valueBefore?_eq hdeclared hown, valueBefore?_eq_starting hdecl]

end Walk

/-- The closest value by the walk of a tree. Under a name that is not custom the index has
nothing, and the fallback is all there is. -/
theorem Walk.closest_ofSteps_eq {root reference : Node} {above : List Node} {x : String}
    (hd : root.Distinct) (hb : root.BlocksAreGroups) (ht : root.Trail above reference)
    (hvar : reference.isVar = true) (hx : reference.referredName? = some x) :
    (ofSteps (root.steps none)).closest reference =
      .ok (if Node.isCustomName x = true then root.closestByPlace above reference x
        else reference.children[2]?) := by
  have hfallback : reference.fallback? = reference.children[2]? := by
    rw [Node.fallback?, Node.members_eq_children (Node.isVar.members?_isSome hvar)]
  have hused : ∃ n ∈ root.preorder, n.uses x = true :=
    ⟨reference, ht.mem_preorder, by simp [Node.uses, Node.refersTo, hvar, hx]⟩
  rw [closest, hx]
  -- the call itself is a use, so the index has its name if it is a custom one
  simp only [uses?_ofSteps]
  by_cases hcustom : Node.isCustomName x = true
  · rw [if_pos ⟨hcustom, hused⟩, if_pos hcustom]
    exact closestOf_eq hd hb ht hvar rfl rfl
  · rw [if_neg fun h => hcustom h.1, if_neg hcustom]
    exact congrArg Except.ok hfallback

/-- **The closest value of a call**, by the places of the tree. A call that refers to a custom
property comes to the value of the first of the four sources that gives one, and a call that
refers to any other name comes to its own fallback. -/
theorem closest_eq_by_place {text : String} {root reference : Node} {above : List Node}
    {x : String} (hd : root.Distinct) (hc : root.NoComment) (hp : root.PreludesAreGroups)
    (hb : root.BlocksAreGroups) (ht : root.Trail above reference)
    (hvar : reference.isVar = true) (hx : reference.referredName? = some x) :
    ((Session.start text root).answer (.closest reference)).1 =
      .ok (.value (if Node.isCustomName x = true then root.closestByPlace above reference x
        else reference.children[2]?)) := by
  have hwalk := Walk.ofTree_of_noComment hc hp
  rw [Session.answer, Session.tryAsk_start_of_ok hwalk, Question.answer,
    Walk.closest_ofSteps_eq hd hb ht hvar hx]
  rfl

/-! ## Two stylesheets -/

section Example

/-- The mark of a node between two offsets of the first line. -/
private def markOn (id start stop : Nat) (h : start ≤ stop) : Mark :=
  ⟨id, some (.onFirstLine start stop h)⟩

/-- A rule with a block of items. -/
private def ruleWith (id : Nat) (items : List Node) : Node :=
  .rule ⟨id, none⟩ none (some (.group ⟨id + 1, none⟩ .block items))

/-- A call to a property in a value of its own, and the declaration that has that value. -/
private def callTo (x : String) : Node :=
  .group (markOn 22 20 28 (by decide)) (.function "var") [.leaf ⟨23, none⟩ (.identifier x)]

private def valueOf (x : String) : Node := .group ⟨21, none⟩ .value [callTo x]

private def declarationOf (x : String) : Node := .declaration ⟨20, none⟩ "width" (valueOf x) false

/-- Two rules declare a property. The second has a rule inside it, with a call to the property
that starts between the two declarations. -/
private def nestedRules : Node :=
  .group ⟨0, none⟩ .stylesheet
    [ruleWith 1 [.declaration (markOn 3 3 8 (by decide)) "--a" (some (.leaf ⟨4, none⟩ (.raw "1")))
        false],
      ruleWith 5 [ruleWith 7 [declarationOf "--a"],
        .declaration (markOn 9 30 35 (by decide)) "--a" (some (.leaf ⟨10, none⟩ (.raw "2"))) false]]

/-- A rule declares `color` and calls it. -/
private def plainRule : Node :=
  .group ⟨0, none⟩ .stylesheet
    [ruleWith 1 [.declaration (markOn 3 3 8 (by decide)) "color" (some (.leaf ⟨4, none⟩ (.raw "1")))
        false, declarationOf "color"]]

/-- The rule inside has no declaration of the property and the call no fallback, so the call
comes to the declaration before it. The declaration after it stands in the rule around, which
is not the innermost. -/
theorem closest_nestedRules :
    nestedRules.Distinct ∧ nestedRules.NoComment ∧ nestedRules.PreludesAreGroups
      ∧ nestedRules.BlocksAreGroups ∧ (callTo "--a").isVar = true
      ∧ (callTo "--a").referredName? = some "--a"
      ∧ (∃ above, nestedRules.Trail above (callTo "--a"))
      ∧ ∃ value, ((Session.start "" nestedRules).answer (.closest (callTo "--a"))).1
          = .ok (.value value)
        ∧ value.map Node.id = some 4 := by
  have hd : nestedRules.Distinct := by unfold Node.Distinct; decide +kernel
  have hc : nestedRules.NoComment := by unfold Node.NoComment; decide +kernel
  have hatrule : ∀ n ∈ nestedRules.preorder, n.kind ≠ .atrule := by decide +kernel
  have hp : nestedRules.PreludesAreGroups := Node.preludesAreGroups_of_noAtrule hatrule
  have hb : nestedRules.BlocksAreGroups := Node.blocksAreGroups_of_noAtrule hatrule
  have hroot : nestedRules.Trail [] nestedRules := .here
  have hrule := hroot.down (List.Mem.tail _ (List.Mem.head _))
  have hinner := (hrule.down (List.Mem.head _)).down (List.Mem.head _)
  have hdeclaration := (hinner.down (List.Mem.head _)).down (List.Mem.head _)
  have ht := (hdeclaration.down (List.Mem.head _)).down (List.Mem.head _)
  have hcustom : Node.isCustomName "--a" = true := by decide +kernel
  have hclosest := @closest_eq_by_place "" _ _ _ _ hd hc hp hb ht rfl rfl
  rw [if_pos hcustom] at hclosest
  exact ⟨hd, hc, hp, hb, rfl, rfl, ⟨_, ht⟩, _, hclosest, by decide +kernel⟩

/-- A call to a property that is not custom does not come to the declaration of that property
in its own rule, nor to anything else. -/
theorem closest_plain_name_ignores_declaration :
    plainRule.Distinct ∧ plainRule.NoComment ∧ plainRule.PreludesAreGroups
      ∧ plainRule.BlocksAreGroups ∧ (callTo "color").isVar = true
      ∧ (callTo "color").referredName? = some "color"
      ∧ ∃ above, plainRule.Trail above (callTo "color")
        ∧ (plainRule.closestByPlace above (callTo "color") "color").isSome
        ∧ ((Session.start "" plainRule).answer (.closest (callTo "color"))).1
          = .ok (.value none) := by
  have hd : plainRule.Distinct := by unfold Node.Distinct; decide +kernel
  have hc : plainRule.NoComment := by unfold Node.NoComment; decide +kernel
  have hatrule : ∀ n ∈ plainRule.preorder, n.kind ≠ .atrule := by decide +kernel
  have hp : plainRule.PreludesAreGroups := Node.preludesAreGroups_of_noAtrule hatrule
  have hb : plainRule.BlocksAreGroups := Node.blocksAreGroups_of_noAtrule hatrule
  have hroot : plainRule.Trail [] plainRule := .here
  have hblock := (hroot.down (List.Mem.head _)).down (List.Mem.head _)
  have hdeclaration := hblock.down (List.Mem.tail _ (List.Mem.head _))
  have ht := (hdeclaration.down (List.Mem.head _)).down (List.Mem.head _)
  have hplain : ¬ Node.isCustomName "color" = true := by decide +kernel
  refine ⟨hd, hc, hp, hb, rfl, rfl, _, ht, by decide +kernel, ?_⟩
  rw [Session.answer, Session.tryAsk_start_of_ok (Walk.ofTree_of_noComment hc hp),
    Question.answer, Walk.closest_ofSteps_eq hd hb ht rfl rfl, if_neg hplain]
  rfl

end Example

end Stylesheet
