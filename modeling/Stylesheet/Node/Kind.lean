/-
The kinds of nodes of a syntax tree, and their layout.

The layout of a kind lists the slots in which a node of that kind holds its children, in
the order in which they are visited. A comment has no layout: comments are kept beside a
tree, and one inside a tree makes the tree malformed.
-/
import Stylesheet.Json.Literal

set_option autoImplicit false

namespace Stylesheet

/-! ## Kinds -/

/-- What a node of a syntax tree can be. -/
inductive Kind where
  | stylesheet
  | rule
  | atrule
  | atrulePrelude
  | block
  | declaration
  | value
  | raw
  | function
  | parentheses
  | brackets
  | identifier
  | number
  | dimension
  | percentage
  | hash
  | string
  | operator
  | selectorList
  | selector
  | typeSelector
  | classSelector
  | idSelector
  | attributeSelector
  | pseudoClassSelector
  | pseudoElementSelector
  | nestingSelector
  | combinator
  | comment
  deriving DecidableEq, Repr

namespace Kind

/-- All kinds. -/
def all : List Kind :=
  [.stylesheet, .rule, .atrule, .atrulePrelude, .block, .declaration, .value, .raw, .function,
   .parentheses, .brackets, .identifier, .number, .dimension, .percentage, .hash, .string,
   .operator, .selectorList, .selector, .typeSelector, .classSelector, .idSelector,
   .attributeSelector, .pseudoClassSelector, .pseudoElementSelector, .nestingSelector,
   .combinator, .comment]

/-- The tag that names a kind. -/
def tag : Kind → String
  | .stylesheet => "StyleSheet"
  | .rule => "Rule"
  | .atrule => "Atrule"
  | .atrulePrelude => "AtrulePrelude"
  | .block => "Block"
  | .declaration => "Declaration"
  | .value => "Value"
  | .raw => "Raw"
  | .function => "Function"
  | .parentheses => "Parentheses"
  | .brackets => "Brackets"
  | .identifier => "Identifier"
  | .number => "Number"
  | .dimension => "Dimension"
  | .percentage => "Percentage"
  | .hash => "Hash"
  | .string => "String"
  | .operator => "Operator"
  | .selectorList => "SelectorList"
  | .selector => "Selector"
  | .typeSelector => "TypeSelector"
  | .classSelector => "ClassSelector"
  | .idSelector => "IdSelector"
  | .attributeSelector => "AttributeSelector"
  | .pseudoClassSelector => "PseudoClassSelector"
  | .pseudoElementSelector => "PseudoElementSelector"
  | .nestingSelector => "NestingSelector"
  | .combinator => "Combinator"
  | .comment => "Comment"

/-- The kind that a tag names. -/
def ofTag? (tag : String) : Option Kind :=
  all.find? fun kind => kind.tag == tag

theorem mem_all (kind : Kind) : kind ∈ all := by
  cases kind <;> decide

end Kind

/-! ## Layout -/

/-- A place for children in a node. -/
inductive Slot where
  | children
  | prelude
  | block
  | name
  | value
  deriving DecidableEq, Repr

/-- The word for a slot. -/
def Slot.word : Slot → String
  | .children => "children"
  | .prelude => "prelude"
  | .block => "block"
  | .name => "name"
  | .value => "value"

/-- The slots of a kind in visiting order, if the kind has a layout. -/
def Kind.layout? : Kind → Option (List Slot)
  | .stylesheet | .atrulePrelude | .block | .value | .function | .parentheses | .brackets
  | .selectorList | .selector | .pseudoClassSelector | .pseudoElementSelector =>
    some [.children]
  | .rule | .atrule => some [.prelude, .block]
  | .declaration => some [.value]
  | .attributeSelector => some [.name, .value]
  | .raw | .identifier | .number | .dimension | .percentage | .hash | .string | .operator
  | .typeSelector | .classSelector | .idSelector | .nestingSelector | .combinator => some []
  | .comment => none

/-- What an object offers as its kind: one of the kinds, any other value, or nothing. -/
inductive KindClaim where
  | kind (kind : Kind)
  | other (value : Json)
  | nothing

/-- An object whose kind has no layout. -/
structure ShapeError where
  claim : KindClaim

/-- What is said about it. -/
def ShapeError.message (e : ShapeError) : String :=
  "No child layout defined for node type " ++
    match e.claim with
    | .kind _ => "<NodeType.COMMENT: 'Comment'>"
    | .other value => value.literal
    | .nothing => "None"

/-- The shape error of a comment inside a tree. -/
def ShapeError.comment : ShapeError := ⟨.kind .comment⟩

/-- The slots of an object by the kind it claims. -/
def KindClaim.slots : KindClaim → Except ShapeError (List Slot)
  | .kind k =>
    match k.layout? with
    | some slots => .ok slots
    | none => .error ⟨.kind k⟩
  | claim => .error ⟨claim⟩

theorem Kind.layout?_eq_none_iff (kind : Kind) : kind.layout? = none ↔ kind = .comment := by
  cases kind <;> simp [layout?]

end Stylesheet
