/-
The values of a concrete node.

Most nodes make one value. An operation makes the values of its operands and operators,
one after the other, so operations inside operations come out flat. A node of a kind that
has no rule of its own is kept as text.

Of the arguments of `var` all that follows the first comma is kept as text: it is the
fallback, and what it means depends on where it is put.
-/
import Stylesheet.Concrete.Piece

set_option autoImplicit false

namespace Stylesheet.Concrete

/-! ## What a node makes -/

/-- The rule by which a node makes values. -/
inductive ValueForm where
  | identifier
  | number
  | hash
  | string
  | call
  | operation
  | parentheses
  | brackets
  | operator
  | raw
  deriving DecidableEq, Repr

/-- The rule for a node. -/
def valueForm (c : Concrete) : ValueForm :=
  if c.kind = "plain_value" then .identifier
  else if c.kind = "integer_value" ∨ c.kind = "float_value" then .number
  else if c.kind = "color_value" then .hash
  else if c.kind = "string_value" then .string
  else if c.kind = "call_expression" then .call
  else if c.kind = "binary_expression" then .operation
  else if c.kind = "parenthesized_value" then .parentheses
  else if c.kind = "grid_value" then .brackets
  else if c.named then .raw
  else .operator

/-! ## Leaves -/

/-- A number, with its unit if the node has one. -/
def numberNode (src : Source) (c : Concrete) : Made Node :=
  match c.child? "unit" with
  | none => src.leaf c (.number (src.text c))
  | some unitNode =>
    let cs := (src.text c).toList
    let unit := src.text unitNode
    let value := String.ofList (slice cs 0 ((cs.length : Int) - unit.toList.length))
    if unit = "%" then src.leaf c (.percentage value)
    else src.leaf c (.dimension value unit)

/-- The text of a node after its first character. -/
def afterFirst (src : Source) (c : Concrete) : String :=
  String.ofList (src.text c).toList.tail

/-- The text of a node between its first and its last character. -/
def betweenEnds (src : Source) (c : Concrete) : String :=
  String.ofList (slice (src.text c).toList 1 (-1))

/-! ## Calls -/

/-- The name of the function that a node calls. -/
def callee (src : Source) (c : Concrete) : String :=
  match c.child? "function_name" with
  | some d => src.text d
  | none => ""

/-- The arguments of a call, without the brackets. -/
def callArguments (c : Concrete) : List Concrete :=
  match c.child? "arguments" with
  | some d => d.inner
  | none => []

theorem sizeOf_lt_of_mem_callArguments {c d : Concrete} (h : d ∈ c.callArguments) :
    sizeOf d < sizeOf c := by
  unfold callArguments at h
  split at h
  · exact Nat.lt_trans (sizeOf_lt_of_mem_inner h) (sizeOf_lt_of_child? ‹_›)
  · simp at h

/-- An argument of a call with the values it makes. -/
structure Argument where
  node : Concrete
  values : Made (List Node)

/-- The children of a call of `var`: the values before the first comma, the comma, and
the text after it. -/
def varMembers (src : Source) (arguments : List Argument) : Made (List Node) :=
  let before := arguments.takeWhile fun a => a.node.kind != ","
  match arguments.dropWhile fun a => a.node.kind != "," with
  | [] => .concat (before.map (·.values))
  | comma :: after => do
    let members ← .concat (before.map (·.values))
    let operator ← src.leaf comma.node (.operator ",")
    let fallback ← src.rawSpan (after.map (·.node)) comma.node.stop
    return members ++ [operator, fallback]

/-- A call, from its arguments and the values they make. -/
def callNode (src : Source) (c : Concrete) (arguments : List Argument) : Made Node := do
  let name := callee src c
  let members ←
    if Text.lower name = "var" then varMembers src arguments
    else .concat (arguments.map (·.values))
  return .group (← src.mark c) (.function name) members

/-! ## Values -/

/-- The values that a node makes. -/
def values (src : Source) (c : Concrete) : Made (List Node) :=
  match c.valueForm with
  | .identifier => return [← src.leaf c (.identifier (src.text c))]
  | .number => return [← numberNode src c]
  | .hash => return [← src.leaf c (.hash (afterFirst src c))]
  | .string => return [← src.leaf c (.string (betweenEnds src c))]
  | .call =>
    return [← callNode src c (c.callArguments.attach.map fun ⟨d, _⟩ => ⟨d, values src d⟩)]
  | .operation => .concat (c.significant.attach.map fun ⟨d, _⟩ => values src d)
  | .parentheses => do
    let members ← .concat (c.inner.attach.map fun ⟨d, _⟩ => values src d)
    return [.group (← src.mark c) .parentheses members]
  | .brackets => do
    let members ← .concat (c.inner.attach.map fun ⟨d, _⟩ => values src d)
    return [.group (← src.mark c) .brackets members]
  | .operator => return [← src.leaf c (.operator (src.text c))]
  | .raw => return [← src.raw c]
termination_by sizeOf c
decreasing_by
  · exact sizeOf_lt_of_mem_callArguments ‹_›
  · exact sizeOf_lt_of_mem_significant ‹_›
  · exact sizeOf_lt_of_mem_inner ‹_›
  · exact sizeOf_lt_of_mem_inner ‹_›

/-- The values of several nodes, one after the other. -/
def valuesOfAll (src : Source) (cs : List Concrete) : Made (List Node) :=
  .concat (cs.map (values src))

/-- The rule of each form, with the recursion written plainly. -/
theorem values_eq (src : Source) (c : Concrete) :
    values src c =
      match c.valueForm with
      | .identifier => return [← src.leaf c (.identifier (src.text c))]
      | .number => return [← numberNode src c]
      | .hash => return [← src.leaf c (.hash (afterFirst src c))]
      | .string => return [← src.leaf c (.string (betweenEnds src c))]
      | .call => return [← callNode src c (c.callArguments.map fun d => ⟨d, values src d⟩)]
      | .operation => valuesOfAll src c.significant
      | .parentheses => do
        let members ← valuesOfAll src c.inner
        return [.group (← src.mark c) .parentheses members]
      | .brackets => do
        let members ← valuesOfAll src c.inner
        return [.group (← src.mark c) .brackets members]
      | .operator => return [← src.leaf c (.operator (src.text c))]
      | .raw => return [← src.raw c] := by
  rw [values]
  cases c.valueForm <;> simp [valuesOfAll]

end Stylesheet.Concrete
