/-
Making nodes out of pieces of a source.

What is made from a concrete node is a node with the location of a range of octets. It
cannot be made if the range is reversed. Several results are put together in order, and
the first failure among them is the failure of the whole.
-/
import Stylesheet.Concrete.Basic
import Stylesheet.Node.Basic
import Stylesheet.Source.Basic

set_option autoImplicit false

namespace Stylesheet

/-- Why a concrete tree does not make a syntax tree. -/
inductive TreeError where
  /-- A range of octets is reversed. -/
  | location (reason : LocationError)
  /-- The value of an attribute selector is an operation without operands. -/
  | noAttributeValue
  deriving DecidableEq, Repr

/-- What is made from a concrete tree, or why nothing is. -/
abbrev Made (α : Type) := Except TreeError α

namespace Made

/-- The lists of several results, one after the other. -/
def concat {α : Type} : List (Made (List α)) → Made (List α)
  | [] => .ok []
  | r :: rs => do
    let xs ← r
    let ys ← concat rs
    return xs ++ ys

/-- The results that hold something, in order. -/
def present {α : Type} : List (Made (Option α)) → Made (List α)
  | [] => .ok []
  | r :: rs => do
    let x ← r
    let ys ← present rs
    return x.toList ++ ys

end Made

namespace Source

/-- The location of a range of octets. -/
def spot (src : Source) (start stop : Int) : Made Location :=
  match src.location start stop with
  | .ok loc => .ok loc
  | .error reason => .error (.location reason)

/-- The mark of a node made from a range of octets. -/
def markAt (src : Source) (start stop : Int) : Made Mark :=
  (src.spot start stop).map .located

/-- The mark of a node made from a whole concrete node. -/
def mark (src : Source) (c : Concrete) : Made Mark :=
  src.markAt c.start c.stop

/-- The text of a concrete node. -/
def text (src : Source) (c : Concrete) : String :=
  src.excerpt c.start c.stop

/-- A leaf made from a whole concrete node. -/
def leaf (src : Source) (c : Concrete) (l : Leaf) : Made Node := do
  return .leaf (← src.mark c) l

/-- The text of a whole concrete node, kept as it is. -/
def raw (src : Source) (c : Concrete) : Made Node :=
  src.leaf c (.raw (src.text c))

/-- The text of a range of octets, kept as it is. -/
def rawAt (src : Source) (start stop : Int) : Made Node := do
  return .leaf (← src.markAt start stop) (.raw (src.excerpt start stop))

/-- No text at an octet. -/
def emptyRaw (src : Source) (octet : Int) : Made Node := do
  return .leaf (← src.markAt octet octet) (.raw "")

/-- The text from the first of several concrete nodes to the last, or none at an octet if
there are no nodes. -/
def rawSpan (src : Source) (cs : List Concrete) (octet : Int) : Made Node :=
  match cs.head?, cs.getLast? with
  | some first, some last => src.rawAt first.start last.stop
  | _, _ => src.emptyRaw octet

end Source

end Stylesheet
