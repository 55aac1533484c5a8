/-
The parts of a selector.

A concrete selector nests: a compound selector holds the compound before its last part,
and a combinator holds the selectors on its two sides. The parts come out flat, in the
order of the text. The last part of a compound begins at its marker, which is the point,
the hash, the colon or the bracket that says what kind of part it is.

A selector without what its kind requires is kept as text, after the parts that were
found before it.
-/
import Stylesheet.Concrete.Values

set_option autoImplicit false

namespace Stylesheet.Concrete

/-! ## What a node makes -/

/-- What kind of part a compound selector ends with. -/
inductive PartForm where
  | className
  | idName
  | pseudoClass
  | pseudoElement
  | attribute
  deriving DecidableEq, Repr

/-- The rule by which a node makes parts of a selector. -/
inductive SelectorForm where
  | type
  | universal
  | nesting
  | combinator (name : String)
  | compound (last : PartForm)
  | raw
  deriving DecidableEq, Repr

/-- The rule for a node. -/
def selectorForm (c : Concrete) : SelectorForm :=
  if c.kind = "tag_name" then .type
  else if c.kind = "universal_selector" then .universal
  else if c.kind = "nesting_selector" then .nesting
  else if c.kind = "child_selector" then .combinator ">"
  else if c.kind = "descendant_selector" then .combinator " "
  else if c.kind = "sibling_selector" then .combinator "~"
  else if c.kind = "adjacent_sibling_selector" then .combinator "+"
  else if c.kind = "class_selector" then .compound .className
  else if c.kind = "id_selector" then .compound .idName
  else if c.kind = "pseudo_class_selector" then .compound .pseudoClass
  else if c.kind = "pseudo_element_selector" then .compound .pseudoElement
  else if c.kind = "attribute_selector" then .compound .attribute
  else .raw

/-! ## Compounds -/

/-- Whether a token begins the last part of a compound. -/
def isMarker (c : Concrete) : Bool :=
  !c.named && [".", "#", ":", "::", "["].contains c.kind

/-- The marker of a compound with all that follows it among the significant children. -/
def fromMarker (c : Concrete) : List Concrete :=
  c.significant.dropWhile fun d => !d.isMarker

/-- The named children before the marker: the compound that comes first. -/
def leading (c : Concrete) : List Concrete :=
  if c.fromMarker.isEmpty then []
  else (c.significant.takeWhile fun d => !d.isMarker).filter (·.named)

/-- The children that say what the last part is. -/
def trailing (c : Concrete) : List Concrete :=
  if c.fromMarker.isEmpty then c.significant else c.fromMarker.tail

/-- The octet at which the last part begins. -/
def partStart (c : Concrete) : Int :=
  match c.fromMarker with
  | marker :: _ => marker.start
  | [] => c.start

theorem sizeOf_lt_of_mem_leading {c d : Concrete} (h : d ∈ c.leading) : sizeOf d < sizeOf c := by
  unfold leading at h
  split at h
  · simp at h
  · exact sizeOf_lt_of_mem_significant
      ((List.takeWhile_sublist _).subset (List.mem_filter.1 h).1)

/-! ## The last part -/

/-- The arguments of a pseudo selector, as the text between the first opening and the last
closing bracket. -/
def selectorArguments (src : Source) (c : Concrete) : Made Node :=
  match c.significant.find? (·.kind == "("), c.significant.reverse.find? (·.kind == ")") with
  | some opening, some closing => src.rawAt opening.stop closing.start
  | _, _ => src.raw c

/-- The token that compares an attribute with a value. -/
def matcher? (cs : List Concrete) : Option Concrete :=
  cs.find? fun c => ["=", "~=", "^=", "|=", "*=", "$="].contains c.kind

/-- The value that an attribute is compared with: the first of those that the first named
node after the comparing token makes. -/
def attributeValue (src : Source) (cs : List Concrete) : Made (Option Node) :=
  match matcher? cs with
  | none => return none
  | some token =>
    match cs.find? fun c => c.named && decide (token.stop ≤ c.start) with
    | none => return none
    | some valueNode => do
      match ← values src valueNode with
      | value :: _ => return some value
      | [] => .error .noAttributeValue

/-- An attribute selector with the given mark, from the children after its marker. -/
def attributeNode (src : Source) (cs : List Concrete) (mark : Mark) : Made Node := do
  let value ← attributeValue src cs
  let name ←
    match cs.find? (·.kind == "attribute_name") with
    | some nameNode => src.leaf nameNode (.identifier (src.text nameNode))
    | none => pure (.leaf mark (.identifier ""))
  return .attributeSelector mark (some name) ((matcher? cs).map (·.kind)) value

/-- A pseudo selector with the given mark, if it has a name. -/
def pseudoNode (src : Source) (c : Concrete) (mark : Mark) (group : String → Group) :
    Made Node :=
  let named := c.trailing.filter (·.named)
  match named with
  | [] => src.raw c
  | nameNode :: _ => do
    let members ←
      match named.find? (·.kind == "arguments") with
      | some arguments => pure [← selectorArguments src arguments]
      | none => pure []
    return .group mark (group (src.text nameNode)) members

/-- A part that is a marker and a name, with the given mark. -/
def namedPart (src : Source) (c : Concrete) (mark : Mark) (nameKind : String)
    (leaf : String → Leaf) : Made Node :=
  match c.trailing.find? fun d => d.named && d.kind == nameKind with
  | some nameNode => return .leaf mark (leaf (src.text nameNode))
  | none => src.raw c

/-- The last part of a compound. -/
def lastPart (src : Source) (c : Concrete) (form : PartForm) : Made Node := do
  let mark ← src.markAt c.partStart c.stop
  match form with
  | .className => namedPart src c mark "class_name" .classSelector
  | .idName => namedPart src c mark "id_name" .idSelector
  | .pseudoClass => pseudoNode src c mark .pseudoClassSelector
  | .pseudoElement => pseudoNode src c mark .pseudoElementSelector
  | .attribute => attributeNode src c.trailing mark

/-! ## Combinators -/

/-- The two sides of a combinator, if it has exactly two. -/
def sides? (c : Concrete) : Option (Concrete × Concrete) :=
  match c.members with
  | [left, right] => some (left, right)
  | _ => none

theorem sizeOf_lt_of_sides? {c left right : Concrete} (h : c.sides? = some (left, right)) :
    sizeOf left < sizeOf c ∧ sizeOf right < sizeOf c := by
  unfold sides? at h
  split at h
  · rename_i l r hm
    obtain ⟨rfl, rfl⟩ := Prod.mk.inj (Option.some.inj h)
    have mem : ∀ d ∈ [l, r], sizeOf d < sizeOf c := fun d hd =>
      sizeOf_lt_of_mem_members (hm ▸ hd)
    exact ⟨mem l (by simp), mem r (by simp)⟩
  · cases h

/-- The mark of a combinator: its token, or the gap between its sides. -/
def combinatorMark (src : Source) (c left right : Concrete) : Made Mark :=
  match c.significant.find? fun d => !d.named with
  | some token => src.mark token
  | none => src.markAt left.stop right.start

/-! ## Parts -/

/-- The parts that a selector is made of. -/
def selectorParts (src : Source) (c : Concrete) : Made (List Node) :=
  match c.selectorForm with
  | .type => return [← src.leaf c (.typeSelector (src.text c))]
  | .universal => return [← src.leaf c (.typeSelector "*")]
  | .nesting => return [← src.leaf c .nestingSelector]
  | .combinator name =>
    match _h : c.sides? with
    | some (left, right) => do
      let mark ← combinatorMark src c left right
      let before ← selectorParts src left
      let after ← selectorParts src right
      return before ++ Node.leaf mark (.combinator name) :: after
    | none => return [← src.raw c]
  | .compound form => do
    let before ← .concat (c.leading.attach.map fun ⟨d, _⟩ => selectorParts src d)
    return before ++ [← lastPart src c form]
  | .raw => return [← src.raw c]
termination_by sizeOf c
decreasing_by
  · exact (sizeOf_lt_of_sides? ‹_›).1
  · exact (sizeOf_lt_of_sides? ‹_›).2
  · exact sizeOf_lt_of_mem_leading ‹_›

/-- The rule of each form, with the recursion written plainly. -/
theorem selectorParts_eq (src : Source) (c : Concrete) :
    selectorParts src c =
      match c.selectorForm with
      | .type => return [← src.leaf c (.typeSelector (src.text c))]
      | .universal => return [← src.leaf c (.typeSelector "*")]
      | .nesting => return [← src.leaf c .nestingSelector]
      | .combinator name =>
        match c.sides? with
        | some (left, right) => do
          let mark ← combinatorMark src c left right
          let before ← selectorParts src left
          let after ← selectorParts src right
          return before ++ Node.leaf mark (.combinator name) :: after
        | none => return [← src.raw c]
      | .compound form => do
        let before ← .concat (c.leading.map (selectorParts src))
        return before ++ [← lastPart src c form]
      | .raw => return [← src.raw c] := by
  rw [selectorParts]
  cases c.selectorForm <;> simp
  split <;> simp_all

/-- One selector. -/
def selectorNode (src : Source) (c : Concrete) : Made Node := do
  let parts ← selectorParts src c
  return .group (← src.mark c) .selector parts

/-- A list of selectors. -/
def selectorList (src : Source) (c : Concrete) : Made Node := do
  let selectors ← c.members.mapM (selectorNode src)
  return .group (← src.mark c) .selectorList selectors

end Stylesheet.Concrete
