/-
The walk through a tree, and what is learnt on it.

The walk enters a node, walks through its children in the order of the layout, and leaves
the node. Its steps are a list; everything else is read off that list from its start to its
end: the first parent of each node, the uses of custom properties, and the calls of `var` in
each declaration. A node that hangs in several places is entered once for each.

A walk stops at a node that cannot be entered, and then the tree has no walk: at a comment,
and at a definition of a property whose prelude is no group.
-/
import Stylesheet.Assoc
import Stylesheet.Node.Basic

set_option autoImplicit false

namespace Stylesheet

/-! ## Steps -/

/-- Whether a step enters its node or leaves it. -/
inductive Phase where
  | enter
  | exit
  deriving DecidableEq, Repr

/-- The number of a phase. -/
def Phase.number : Phase → Nat
  | .enter => 1
  | .exit => 2

/-- One step of a walk. -/
structure Step where
  phase : Phase
  target : Node
  parent : Option Node

/-- Whether two steps are at the same node, below the same parent, in the same phase. -/
def Step.same (s t : Step) : Bool :=
  s.phase == t.phase && s.target.id == t.target.id
    && s.parent.map Node.id == t.parent.map Node.id

namespace Node

/-- The steps of the walk through a tree whose root stands below `parent`. -/
def steps (parent : Option Node) (n : Node) : List Step :=
  ⟨.enter, n, parent⟩
    :: ((n.children.attach.flatMap fun ⟨c, _⟩ => steps (some n) c) ++ [⟨.exit, n, parent⟩])
termination_by sizeOf n
decreasing_by exact sizeOf_lt_of_mem_children ‹_›

theorem steps_eq (parent : Option Node) (n : Node) :
    n.steps parent =
      ⟨.enter, n, parent⟩ :: (n.children.flatMap (steps (some n)) ++ [⟨.exit, n, parent⟩]) := by
  rw [steps]
  simp

end Node

/-! ## Uses of custom properties -/

/-- Where a custom property is used: declared, defined by an at-rule, and referred to. -/
structure Uses where
  declarations : List Node
  definitions : List Node
  references : List Node

/-- The name of the custom property that comes first among children. -/
def leadingCustomName? (members : List Node) : Option String :=
  match members with
  | first :: _ => first.identifier?.filter Node.isCustomName
  | [] => none

/-- Names with the nodes recorded under them, in the order of their first record. -/
abbrev Register := Assoc String (List Node)

/-- The register with one more node under a name. -/
def Register.record (r : Register) (name : String) (n : Node) : Register :=
  Assoc.put r name ((Assoc.get? r name).getD [] ++ [n])

/-- The nodes under a name. -/
def Register.nodes (r : Register) (name : String) : List Node :=
  (Assoc.get? r name).getD []

/-- The uses found so far. -/
structure UsesFound where
  declarations : Register
  definitions : Register
  references : Register

namespace UsesFound

/-- The uses with those of one more entered node. -/
def enter (found : UsesFound) (n : Node) : UsesFound :=
  match n with
  | .declaration _ property _ _ =>
    if Node.isCustomName property then
      { found with declarations := found.declarations.record property n }
    else found
  | .atrule _ name prelude _ =>
    if Text.lower name = "property" then
      match prelude.bind fun p => leadingCustomName? p.members with
      | some property => { found with definitions := found.definitions.record property n }
      | none => found
    else found
  | .group _ (.function _) members =>
    if n.isVar then
      match leadingCustomName? members with
      | some property => { found with references := found.references.record property n }
      | none => found
    else found
  | _ => found

/-- The uses under their names: first the names that are declared, then those that are only
defined, then those that are only referred to. -/
def byName (found : UsesFound) : Assoc String Uses :=
  let names := found.declarations.keys ++ found.definitions.keys ++ found.references.keys
  names.eraseDups.map fun name =>
    (name, ⟨found.declarations.nodes name, found.definitions.nodes name,
      found.references.nodes name⟩)

end UsesFound

/-! ## Calls in declarations -/

/-- The declarations that are open, innermost first, and the calls found in each so far. -/
structure CallsFound where
  openDeclarations : List Nat
  calls : Assoc Nat (List Node)

namespace CallsFound

/-- The calls after one more step. A declaration that is entered again starts anew. -/
def step (found : CallsFound) (s : Step) : CallsFound :=
  match s.phase, s.target with
  | .enter, .declaration m _ _ _ =>
    ⟨m.id :: found.openDeclarations, Assoc.put found.calls m.id []⟩
  | .exit, .declaration .. => { found with openDeclarations := found.openDeclarations.tail }
  | .enter, n =>
    if n.isVar then
      match found.openDeclarations with
      | d :: _ =>
        { found with calls := Assoc.put found.calls d ((Assoc.get? found.calls d).getD [] ++ [n]) }
      | [] => found
    else found
  | .exit, _ => found

end CallsFound

/-! ## The walk -/

/-- A walk, and what was learnt on it. -/
structure Walk where
  steps : List Step
  /-- The parent below which each node was entered first. -/
  parents : Assoc Nat Node
  /-- The uses of each custom property. -/
  properties : Assoc String Uses
  /-- The calls of `var` in each declaration. -/
  calls : Assoc Nat (List Node)

namespace Walk

/-- The entered nodes, in order. -/
def entered (steps : List Step) : List Node :=
  (steps.filter (·.phase = .enter)).map (·.target)

/-- The parents with that of one more step. -/
def addParent (parents : Assoc Nat Node) (s : Step) : Assoc Nat Node :=
  match s.phase, s.parent with
  | .enter, some p => if Assoc.has parents s.target.id then parents
    else Assoc.put parents s.target.id p
  | _, _ => parents

/-- What is learnt from the steps of a walk. -/
def ofSteps (steps : List Step) : Walk where
  steps := steps
  parents := steps.foldl addParent []
  properties := ((entered steps).foldl UsesFound.enter ⟨[], [], []⟩).byName
  calls := (steps.foldl CallsFound.step ⟨[], []⟩).calls

/-- Why a node cannot be entered, if it cannot: a comment has no layout, and the prelude of
a definition is read for its members. -/
def obstacle? : Node → Option NodeError
  | .comment .. => some (.shape .comment)
  | .atrule _ name (some prelude) _ =>
    if Text.lower name = "property" ∧ prelude.members?.isNone then some .noMembers else none
  | _ => none

/-- The walk through a tree. It fails at the first node that cannot be entered. -/
def ofTree (root : Node) : Except NodeError Walk :=
  match root.preorder.findSome? obstacle? with
  | some e => .error e
  | none => .ok (ofSteps (root.steps none))

/-! ## Asking -/

/-- The parent of a node; none for the root and for a node that was not met. -/
def parent? (w : Walk) (n : Node) : Option Node :=
  Assoc.get? w.parents n.id

/-- The parents above a node, the nearest first, at most so many. -/
def climb (w : Walk) : Nat → Node → List Node
  | 0, _ => []
  | bound + 1, n =>
    match w.parent? n with
    | some p => p :: climb w bound p
    | none => []

/-- The parents above a node, the nearest first. No chain of parents is longer than the
list of those that have one. -/
def above (w : Walk) (n : Node) : List Node :=
  w.climb w.parents.length n

/-- The ancestors of a node, from the root down. -/
def ancestors (w : Walk) (n : Node) : List Node :=
  (w.above n).reverse

/-- The uses of a custom property. -/
def uses? (w : Walk) (name : String) : Option Uses :=
  Assoc.get? w.properties name

/-- The names of the custom properties that are used. -/
def names (w : Walk) : List String :=
  w.properties.keys

/-- The calls of `var` in a declaration; none for a node that was not met. -/
def callsIn (w : Walk) (declaration : Node) : List Node :=
  (Assoc.get? w.calls declaration.id).getD []

end Walk

end Stylesheet
