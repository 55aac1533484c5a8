/-
Items of a stylesheet: rules, at-rules and declarations, and the blocks they hold.

A named node of any other kind is kept as text where an item is expected, so that what the
grammar could not read stays in the tree; an unnamed one is a token between items and makes
nothing.

A custom property may hold any text, so the value of its declaration is kept as text; the
value of any other declaration is a list of values.
-/
import Stylesheet.Concrete.Selectors

set_option autoImplicit false

namespace Stylesheet.Concrete

/-! ## What a node makes -/

/-- The rule by which a node makes an item. -/
inductive ItemForm where
  | rule
  | declaration
  | atrule
  | nothing
  | raw
  deriving DecidableEq, Repr

/-- The kinds of statements that begin with an at-keyword. -/
def atruleKinds : List String :=
  ["at_rule", "media_statement", "supports_statement", "import_statement", "charset_statement",
   "namespace_statement", "keyframes_statement", "postcss_statement", "scope_statement"]

/-- The rule for a node. -/
def itemForm (c : Concrete) : ItemForm :=
  if c.kind = "rule_set" then .rule
  else if c.kind = "declaration" then .declaration
  else if atruleKinds.contains c.kind then .atrule
  else if c.named then .raw
  else .nothing

/-! ## Declarations -/

/-- The name of the property that a node declares. -/
def propertyName (src : Source) (c : Concrete) : String :=
  match c.significant.find? (·.kind == "property_name") with
  | some d => src.text d
  | none => ""

/-- The first colon with all that follows it among the significant children. -/
def fromColon (c : Concrete) : List Concrete :=
  c.significant.dropWhile fun d => d.kind != ":"

/-- The nodes of a declared value. -/
def valueNodes (c : Concrete) : List Concrete :=
  c.fromColon.tail.filter fun d => d.kind != ";" && d.kind != "important"

/-- The octet at which a declared value can begin. -/
def valueStart (c : Concrete) : Int :=
  match c.fromColon with
  | colon :: _ => colon.stop
  | [] => c.stop

/-- The octet at which a declaration ends, its semicolon left out. -/
def declarationStop (c : Concrete) : Int :=
  match c.significant.reverse.find? (·.kind != ";") with
  | some last => last.stop
  | none => c.stop

/-- A value made of several nodes, or an empty one at an octet if there are none. -/
def valueNode (src : Source) (cs : List Concrete) (octet : Int) : Made Node := do
  let members ← valuesOfAll src cs
  let mark ←
    match cs.head?, cs.getLast? with
    | some first, some last => src.markAt first.start last.stop
    | _, _ => src.markAt octet octet
  return .group mark .value members

/-- A declaration. -/
def declarationNode (src : Source) (c : Concrete) : Made Node := do
  let property := propertyName src c
  let value ←
    if Node.isCustomName property then src.rawSpan c.valueNodes c.valueStart
    else valueNode src c.valueNodes c.valueStart
  let important := c.significant.any (·.kind == "important")
  return .declaration (← src.markAt c.start c.declarationStop) property (some value) important

/-! ## Rules -/

/-- A block without items, at an octet. -/
def emptyBlock (src : Source) (octet : Int) : Made Node := do
  return .group (← src.markAt octet octet) .block []

/-- A rule made from a whole node, from its prelude and its block, if it has one. -/
def ruleOf (src : Source) (c : Concrete) (prelude : Made Node) (block : Option (Made Node)) :
    Made Node := do
  let prelude ← prelude
  let block ← block.getD (emptyBlock src c.stop)
  return .rule (← src.mark c) (some prelude) (some block)

/-- The selectors of a rule. -/
def rulePrelude (src : Source) (c : Concrete) : Made Node :=
  match c.child? "selectors" with
  | some selectors => selectorList src selectors
  | none => src.emptyRaw c.start

/-- The selector of a keyframe: the first named part that is not the block. -/
def keyframePrelude (src : Source) (c : Concrete) : Made Node :=
  match c.significant.find? fun d => d.named && d.kind != "block" with
  | some selector => src.raw selector
  | none => src.emptyRaw c.start

/-- The block of a keyframe. -/
def keyframeBody? (c : Concrete) : Option Concrete :=
  c.significant.find? (·.kind == "block")

theorem sizeOf_lt_of_keyframeBody? {c d : Concrete} (h : c.keyframeBody? = some d) :
    sizeOf d < sizeOf c :=
  sizeOf_lt_of_mem_significant (List.mem_of_find?_eq_some h)

/-! ## At-rules -/

/-- What has been found of an at-rule among its children so far. -/
structure AtruleParts where
  name : String
  block : Option Node
  prelude : List Concrete

/-- Whether a child can give an at-rule its name. -/
def isAtKeyword (c : Concrete) : Bool :=
  c.kind == "at_keyword" || (!c.named && Text.startsWith c.kind "@")

/-- One more child, with the block it makes if it is one. -/
def AtruleParts.add (src : Source) (parts : AtruleParts) (c : Concrete)
    (block : Option (Made Node)) : Made AtruleParts :=
  if parts.name = "" ∧ c.isAtKeyword then
    return { parts with name := afterFirst src c }
  else
    match block with
    | some made => do return { parts with block := some (← made) }
    | none =>
      if c.kind = ";" then return parts
      else return { parts with prelude := parts.prelude ++ [c] }

/-- What one node of a prelude makes. -/
def preludeValues (src : Source) (c : Concrete) : Made (List Node) :=
  if ["keyword_query", "keyframes_name", "namespace_name"].contains c.kind then
    return [← src.leaf c (.identifier (src.text c))]
  else values src c

/-- The prelude made of several nodes, if there are any. -/
def preludeNode (src : Source) (cs : List Concrete) : Made (Option Node) :=
  match cs.head?, cs.getLast? with
  | some first, some last => do
    let members ← .concat (cs.map (preludeValues src))
    return some (.group (← src.markAt first.start last.stop) .atrulePrelude members)
  | _, _ => return none

/-- A child of an at-rule, with the block it makes if it is one. -/
structure AtruleChild where
  node : Concrete
  block : Option (Made Node)

/-- An at-rule, from its children. -/
def atruleNode (src : Source) (c : Concrete) (children : List AtruleChild) : Made Node := do
  let nothing : AtruleParts := ⟨"", none, []⟩
  let parts ← children.foldlM (fun parts d => parts.add src d.node d.block) nothing
  let prelude ← preludeNode src parts.prelude
  return .atrule (← src.mark c) parts.name prelude parts.block

/-! ## Items and blocks -/

mutual

/-- The item that a node makes, if it makes one. -/
def item (src : Source) (c : Concrete) : Made (Option Node) :=
  match c.itemForm with
  | .rule =>
    let block :=
      match _h : c.child? "block" with
      | some d => some (block src d)
      | none => none
    some <$> ruleOf src c (rulePrelude src c) block
  | .declaration => some <$> declarationNode src c
  | .atrule =>
    some <$> atruleNode src c (c.significant.attach.map fun ⟨d, _⟩ =>
      ⟨d, if d.kind = "block" then some (block src d)
        else if d.kind = "keyframe_block_list" then some (keyframes src d)
        else none⟩)
  | .nothing => return none
  | .raw => some <$> src.raw c
termination_by sizeOf c
decreasing_by
  · exact sizeOf_lt_of_child? ‹_›
  · exact sizeOf_lt_of_mem_significant ‹_›
  · exact sizeOf_lt_of_mem_significant ‹_›

/-- A block of items. -/
def block (src : Source) (c : Concrete) : Made Node := do
  let items ← .present (c.members.attach.map fun ⟨d, _⟩ => item src d)
  return .group (← src.mark c) .block items
termination_by sizeOf c
decreasing_by exact sizeOf_lt_of_mem_members ‹_›

/-- A block of keyframes, each of them a rule. -/
def keyframes (src : Source) (c : Concrete) : Made Node := do
  let rules ← .present (c.significant.attach.map fun ⟨d, _⟩ =>
    if d.kind = "keyframe_block" then
      let body :=
        match _h : d.keyframeBody? with
        | some b => some (block src b)
        | none => none
      some <$> ruleOf src d (keyframePrelude src d) body
    else if d.named then some <$> src.raw d
    else return none)
  return .group (← src.mark c) .block rules
termination_by sizeOf c
decreasing_by
  exact Nat.lt_trans (sizeOf_lt_of_keyframeBody? ‹_›) (sizeOf_lt_of_mem_significant ‹_›)

end

/-- The child of an at-rule that a node makes. -/
def atruleChild (src : Source) (c : Concrete) : AtruleChild :=
  ⟨c, if c.kind = "block" then some (block src c)
    else if c.kind = "keyframe_block_list" then some (keyframes src c)
    else none⟩

/-- What a member of a list of keyframes makes. -/
def keyframe (src : Source) (c : Concrete) : Made (Option Node) :=
  if c.kind = "keyframe_block" then
    some <$> ruleOf src c (keyframePrelude src c) (c.keyframeBody?.map (block src))
  else if c.named then some <$> src.raw c
  else return none

/-- The rule of each form, with the recursion written plainly. -/
theorem item_eq (src : Source) (c : Concrete) :
    item src c =
      match c.itemForm with
      | .rule => some <$> ruleOf src c (rulePrelude src c) ((c.child? "block").map (block src))
      | .declaration => some <$> declarationNode src c
      | .atrule => some <$> atruleNode src c (c.significant.map (atruleChild src))
      | .nothing => return none
      | .raw => some <$> src.raw c := by
  rw [item]
  cases c.itemForm with
  | rule =>
    simp only
    split <;> simp_all
  | atrule =>
    simp
    rfl
  | declaration => rfl
  | nothing => rfl
  | raw => rfl

theorem block_eq (src : Source) (c : Concrete) :
    block src c = do
      let items ← .present (c.members.map (item src))
      return .group (← src.mark c) .block items := by
  rw [block]
  simp

/-- A block of keyframes holds what its children make. -/
theorem keyframes_eq (src : Source) (c : Concrete) :
    keyframes src c = do
      let rules ← .present (c.significant.map (keyframe src))
      return .group (← src.mark c) .block rules := by
  have body : ∀ d : Concrete,
      (match _h : d.keyframeBody? with
        | some b => some (block src b)
        | none => none) = d.keyframeBody?.map (block src) := by
    intro d
    split <;> simp_all
  rw [keyframes]
  simp only [body]
  simp
  rfl

/-- The stylesheet that a tree makes: all its items, over the whole text. -/
def stylesheet (src : Source) (c : Concrete) : Made Node := do
  let items ← .present (c.significant.map (item src))
  return .group (← src.markAt 0 src.octets.length) .stylesheet items

/-! ## Comments -/

/-- The text of a comment, without its marks. -/
def commentText (text : String) : String :=
  let cs := text.toList
  let cs := if "/*".toList.isPrefixOf cs then cs.drop 2 else cs
  let cs := if "*/".toList.isSuffixOf cs then cs.take (cs.length - 2) else cs
  String.ofList cs

/-- The comments of a tree, in order. -/
def comments (src : Source) (c : Concrete) : Made (List Node) :=
  (c.ofKinds ["comment"]).mapM fun d => do
    return .comment (← src.mark d) (commentText (src.text d))

end Stylesheet.Concrete
