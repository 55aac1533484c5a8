/-
What a call of `var` comes to.

The closest value of a call is the value of the last declaration of its property in the rule
the call stands in, or else the call's own fallback, or else the value of the last declaration
before the call in any other rule, or else the initial value of a definition of the property.
All values of a call are the initial values, those of all declarations, and the fallback.

A rule is the one a node stands in if it is the nearest rule above the node.

A declaration of a tree put together by hand may lack its value, and the block of a definition
may be no group. A missing value counts as one; a block that is no group is an error, but only
for a question that gets to it.
-/
import Stylesheet.Session.Walk

set_option autoImplicit false

namespace Stylesheet

/-! ## Reading a call -/

namespace Node

/-- The name that a call refers to: that of its first member, if it is an identifier. -/
def referredName? (reference : Node) : Option String :=
  match reference.members with
  | first :: _ => first.identifier?
  | [] => none

/-- The fallback of a call: its third member. -/
def fallback? (reference : Node) : Option Node :=
  reference.members[2]?

/-- Whether a declaration starts before a call does. A declaration without a location
starts at zero, and a call without one after everything. -/
def startsBefore (declaration reference : Node) : Bool :=
  match reference.loc with
  | none => true
  | some loc => (declaration.loc.elim 0 (·.start.offset)) < loc.start.offset

/-- What stands as the value of a declaration, which may be nothing. -/
def declared? (declaration : Node) : Option (Option Node) :=
  declaration.declaration?.map (·.2)

/-- The values that an at-rule gives as initial ones, if it has a block. -/
def initialValues (definition : Node) : Except NodeError (List (Option Node)) :=
  match definition with
  | .atrule _ _ _ (some block) =>
    block.membersOf.map fun members =>
      members.filterMap fun n =>
        match n.declaration? with
        | some (property, value) => if property = "initial-value" then some value else none
        | none => none
  | _ => .ok []

end Node

/-! ## Values of a property -/

/-- The first initial value that definitions give. The definitions after the one that gives
it are not looked at. -/
def firstInitialValue : List Node → Except NodeError (Option Node)
  | [] => .ok none
  | definition :: rest =>
    match definition.initialValues with
    | .ok (value :: _) => .ok value
    | .ok [] => firstInitialValue rest
    | .error e => .error e

namespace Uses

/-- The first initial value that definitions of a property give. -/
def initialValue (uses : Uses) : Except NodeError (Option Node) :=
  firstInitialValue uses.definitions

/-- The initial values that definitions of a property give, in order. -/
def initialValues (uses : Uses) : Except NodeError (List (Option Node)) :=
  (uses.definitions.mapM Node.initialValues).map List.flatten

/-- The values that declarations of a property give, in order. -/
def declaredValues (uses : Uses) : List (Option Node) :=
  uses.declarations.filterMap Node.declared?

end Uses

namespace Walk

/-- The nearest rule above a node. -/
def enclosingRule? (w : Walk) (n : Node) : Option Node :=
  (w.above n).find? fun p => p.kind = .rule

/-- Whether a declaration stands in a rule. -/
def standsIn (w : Walk) (declaration rule : Node) : Bool :=
  (w.enclosingRule? declaration).map Node.id == some rule.id

/-- The initial value of a property. -/
def initialValue (w : Walk) (name : String) : Except NodeError (Option Node) :=
  match w.uses? name with
  | some uses => uses.initialValue
  | none => .ok none

/-- The closest value of a property by its name: that of its last declaration, or else its
initial value. -/
def closestByName (w : Walk) (name : String) : Except NodeError (Option Node) :=
  match w.uses? name with
  | some uses =>
    match uses.declaredValues.getLast? with
    | some value => .ok value
    | none => uses.initialValue
  | none => .ok none

/-- The value of the last declaration in the rule that a call stands in. -/
def valueInRule? (w : Walk) (uses : Uses) (reference : Node) : Option (Option Node) :=
  (w.enclosingRule? reference).bind fun rule =>
    ((uses.declarations.filter (w.standsIn · rule)).getLast?).bind Node.declared?

/-- The value of the last declaration before a call, outside the rule it stands in. -/
def valueBefore? (w : Walk) (uses : Uses) (reference : Node) : Option (Option Node) :=
  let outside := fun declaration : Node =>
    match w.enclosingRule? reference with
    | some rule => !w.standsIn declaration rule
    | none => true
  ((uses.declarations.filter fun d => outside d && d.startsBefore reference).getLast?).bind
    Node.declared?

/-- The closest value of a call to a property with uses. A declaration that has no value is
the closest one all the same, and then there is none. -/
def closestOf (w : Walk) (uses : Uses) (reference : Node) : Except NodeError (Option Node) :=
  match w.valueInRule? uses reference with
  | some value => .ok value
  | none =>
    match reference.fallback? with
    | some fallback => .ok (some fallback)
    | none =>
      match w.valueBefore? uses reference with
      | some value => .ok value
      | none => uses.initialValue

/-- The closest value of a call. -/
def closest (w : Walk) (reference : Node) : Except NodeError (Option Node) :=
  match reference.referredName? with
  | none => .ok none
  | some name =>
    match w.uses? name with
    | some uses => w.closestOf uses reference
    | none => .ok reference.fallback?

/-- All values of a call. -/
def values (w : Walk) (reference : Node) : Except NodeError (List (Option Node)) :=
  match reference.referredName? with
  | none => .ok []
  | some name =>
    let fallback := reference.fallback?.toList.map some
    match w.uses? name with
    | some uses => uses.initialValues.map fun initial =>
        initial ++ uses.declaredValues ++ fallback
    | none => .ok fallback

end Walk

end Stylesheet
