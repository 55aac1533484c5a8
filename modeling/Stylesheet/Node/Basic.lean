/-
Syntax trees of stylesheets.

A node carries a mark: its identity and its location, if it has one. Two nodes with the
same text are told apart by their identities, and a node that hangs in several places of
a tree has the same identity in each. Leaves hold text only; groups hold any number of
children; the other nodes have a slot for each child.

The slots admit any node, or none, so that trees put together by hand can be looked at as
well as trees made from a concrete tree. A question that needs a part which such a tree does
not have ends with a node error.
-/
import Stylesheet.Node.Kind
import Stylesheet.Source.Location
import Stylesheet.Text.Letter

set_option autoImplicit false

namespace Stylesheet

/-! ## The tree -/

/-- The identity of a node, and where it stands in the text. -/
structure Mark where
  id : Nat
  loc : Option Location
  deriving DecidableEq, Repr

/-- The mark of a node that has a location and no identity yet. -/
def Mark.located (loc : Location) : Mark := ⟨0, some loc⟩

/-- A node without children. -/
inductive Leaf where
  | identifier (name : String)
  /-- Text that is kept as it is. -/
  | raw (value : String)
  | number (value : String)
  | dimension (value unit : String)
  | percentage (value : String)
  | hash (value : String)
  | string (value : String)
  | operator (value : String)
  | typeSelector (name : String)
  | classSelector (name : String)
  | idSelector (name : String)
  | nestingSelector
  | combinator (name : String)
  deriving DecidableEq, Repr

/-- A node with a list of children. -/
inductive Group where
  | stylesheet
  | block
  | atrulePrelude
  | value
  | function (name : String)
  | parentheses
  | brackets
  | selectorList
  | selector
  | pseudoClassSelector (name : String)
  | pseudoElementSelector (name : String)
  deriving DecidableEq, Repr

/-- A node of a syntax tree. -/
inductive Node where
  | leaf (mark : Mark) (leaf : Leaf)
  | group (mark : Mark) (group : Group) (members : List Node)
  | rule (mark : Mark) (prelude block : Option Node)
  | atrule (mark : Mark) (name : String) (prelude block : Option Node)
  | declaration (mark : Mark) (property : String) (value : Option Node) (important : Bool)
  | attributeSelector (mark : Mark) (name : Option Node) (matcher : Option String)
      (value : Option Node)
  | comment (mark : Mark) (value : String)

/-- The kind of a leaf. -/
def Leaf.kind : Leaf → Kind
  | .identifier _ => .identifier
  | .raw _ => .raw
  | .number _ => .number
  | .dimension .. => .dimension
  | .percentage _ => .percentage
  | .hash _ => .hash
  | .string _ => .string
  | .operator _ => .operator
  | .typeSelector _ => .typeSelector
  | .classSelector _ => .classSelector
  | .idSelector _ => .idSelector
  | .nestingSelector => .nestingSelector
  | .combinator _ => .combinator

/-- The kind of a group. -/
def Group.kind : Group → Kind
  | .stylesheet => .stylesheet
  | .block => .block
  | .atrulePrelude => .atrulePrelude
  | .value => .value
  | .function _ => .function
  | .parentheses => .parentheses
  | .brackets => .brackets
  | .selectorList => .selectorList
  | .selector => .selector
  | .pseudoClassSelector _ => .pseudoClassSelector
  | .pseudoElementSelector _ => .pseudoElementSelector

namespace Node

/-! ## Reading a node -/

/-- The mark of a node. -/
def mark : Node → Mark
  | leaf m _ => m
  | group m _ _ => m
  | rule m _ _ => m
  | atrule m _ _ _ => m
  | declaration m _ _ _ => m
  | attributeSelector m _ _ _ => m
  | comment m _ => m

/-- The identity of a node. -/
def id (n : Node) : Nat := n.mark.id

/-- Where a node stands in the text. -/
def loc (n : Node) : Option Location := n.mark.loc

/-- The start and end offsets of a node. -/
def range? (n : Node) : Option (Int × Int) := n.loc.map Location.range

/-- The kind of a node. -/
def kind : Node → Kind
  | leaf _ l => l.kind
  | group _ g _ => g.kind
  | rule .. => .rule
  | atrule .. => .atrule
  | declaration .. => .declaration
  | attributeSelector .. => .attributeSelector
  | comment .. => .comment

/-- The children in one slot. -/
def slot : Node → Slot → List Node
  | group _ _ ns, .children => ns
  | rule _ p _, .prelude => p.toList
  | rule _ _ b, .block => b.toList
  | atrule _ _ p _, .prelude => p.toList
  | atrule _ _ _ b, .block => b.toList
  | declaration _ _ v _, .value => v.toList
  | attributeSelector _ n _ _, .name => n.toList
  | attributeSelector _ _ _ v, .value => v.toList
  | _, _ => []

/-- All children, in visiting order. -/
def children : Node → List Node
  | leaf .. => []
  | group _ _ ns => ns
  | rule _ p b => p.toList ++ b.toList
  | atrule _ _ p b => p.toList ++ b.toList
  | declaration _ _ v _ => v.toList
  | attributeSelector _ n _ v => n.toList ++ v.toList
  | comment .. => []

/-- The members of a group. -/
def members? : Node → Option (List Node)
  | group _ _ ns => some ns
  | _ => none

/-- The members of a group; other nodes have none. -/
def members (n : Node) : List Node :=
  n.members?.getD []

/-- The children are those in the slots of the layout, slot by slot. -/
theorem children_eq_flatMap_slot (n : Node) :
    n.children = (n.kind.layout?.getD []).flatMap n.slot := by
  cases n with
  | leaf m l => cases l <;> rfl
  | group m g ns => cases g <;> simp [children, kind, Group.kind, Kind.layout?, slot]
  | rule m p b => simp [children, kind, Kind.layout?, slot]
  | atrule m a p b => simp [children, kind, Kind.layout?, slot]
  | declaration m p v i => simp [children, kind, Kind.layout?, slot]
  | attributeSelector m n o v => simp [children, kind, Kind.layout?, slot]
  | comment m v => rfl

/-- A child is smaller than its parent. -/
theorem sizeOf_lt_of_mem_children {n c : Node} (h : c ∈ n.children) : sizeOf c < sizeOf n := by
  cases n with
  | leaf m l => simp [children] at h
  | group m g ns =>
    have := List.sizeOf_lt_of_mem h
    simp only [children, group.sizeOf_spec] at *
    omega
  | rule m p b =>
    rcases List.mem_append.1 h with h | h <;>
      · obtain rfl := Option.mem_toList.1 h
        simp only [rule.sizeOf_spec, Option.some.sizeOf_spec]
        omega
  | atrule m a p b =>
    rcases List.mem_append.1 h with h | h <;>
      · obtain rfl := Option.mem_toList.1 h
        simp only [atrule.sizeOf_spec, Option.some.sizeOf_spec]
        omega
  | declaration m p v i =>
    obtain rfl := Option.mem_toList.1 h
    simp only [declaration.sizeOf_spec, Option.some.sizeOf_spec]
    omega
  | attributeSelector m a o v =>
    rcases List.mem_append.1 h with h | h <;>
      · obtain rfl := Option.mem_toList.1 h
        simp only [attributeSelector.sizeOf_spec, Option.some.sizeOf_spec]
        omega
  | comment m v => simp [children] at h

/-! ## Kinds that matter elsewhere -/

/-- Whether a name is that of a custom property. -/
def isCustomName (name : String) : Bool :=
  Text.startsWith name "--"

/-- The name of an identifier. -/
def identifier? : Node → Option String
  | leaf _ (.identifier name) => some name
  | _ => none

/-- The property of a declaration, and its value, which may be missing. -/
def declaration? : Node → Option (String × Option Node)
  | declaration _ property value _ => some (property, value)
  | _ => none

/-- What a node has for a value. -/
inductive Held where
  /-- A node, or a place for one. -/
  | node (value : Option Node)
  /-- Text of the node's own. -/
  | text (value : String)

/-- What a node has for a value, if it can have one. -/
def held? : Node → Option Held
  | declaration _ _ value _ => some (.node value)
  | attributeSelector _ _ _ value => some (.node value)
  | comment _ value => some (.text value)
  | leaf _ l =>
    match l with
    | .raw value | .number value | .dimension value _ | .percentage value | .hash value
    | .string value | .operator value => some (.text value)
    | .identifier _ | .typeSelector _ | .classSelector _ | .idSelector _ | .nestingSelector
    | .combinator _ => none
  | group .. | rule .. | atrule .. => none

/-- Whether a node is a call of the function `var`, its name in any case. -/
def isVar : Node → Bool
  | group _ (.function name) _ => Text.lower name == "var"
  | _ => false

/-! ## What can be missing -/

end Node

/-- Why a tree does not answer a question. -/
inductive NodeError where
  /-- A node of the tree has no layout. -/
  | shape (error : ShapeError)
  /-- A node whose members are asked for is no group. -/
  | noMembers
  /-- A node whose value is asked for has none that is a node. -/
  | noValue

namespace Node

/-- The members of a node that has to be a group. -/
def membersOf (n : Node) : Except NodeError (List Node) :=
  match n.members? with
  | some ns => .ok ns
  | none => .error .noMembers

/-! ## Preorder -/

/-- The whole tree below a node, each node before its children. -/
def preorder (n : Node) : List Node :=
  n :: n.children.attach.flatMap fun ⟨c, _⟩ => preorder c
termination_by sizeOf n
decreasing_by exact sizeOf_lt_of_mem_children ‹_›

theorem preorder_eq (n : Node) : n.preorder = n :: n.children.flatMap preorder := by
  rw [preorder]
  simp

end Node

end Stylesheet
