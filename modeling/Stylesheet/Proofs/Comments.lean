/-
Comments leave no trace in a syntax tree.

A comment may stand anywhere among the children of a concrete node, between operands, before a
colon, in a number, so it could be counted, taken for the first or the last of something, or
stand where a marker is looked for. It never is: a concrete tree and the same tree without its
comments make the same syntax tree, or fail for the same reason (`stylesheet_withoutComments`).

Nodes look at their children in two ways only. They go through the significant ones, which are no
comments, or they take the first child of a kind that is not the kind of a comment. So each choice
among the children of a tree without comments is the choice among those of the whole tree, with
the comments taken out of what is chosen. With these laws the builders are gone through one after
the other, and only values, selectors, items, blocks and keyframes need an induction.
-/
import Stylesheet.Concrete.Items

set_option autoImplicit false

namespace Stylesheet.Concrete

/-! ## Taking comments out

Without its comments a node has the root that it had: the kind, the range and the marks of it
stay. Of its children the significant ones stay, each without the comments below it, and these are
what builders look at. The equations are tagged for `simp`, which takes the comments out of all
that a builder reads off a node. -/

mutual

/-- The tree without the comments below its root, and without what stands below them. -/
def withoutComments : Concrete → Concrete
  | node k s e n m cs => node k s e n m (withoutCommentsAll cs)

/-- The trees that are no comments, without the comments below them. -/
def withoutCommentsAll : List Concrete → List Concrete
  | [] => []
  | c :: cs =>
    if c.isComment then withoutCommentsAll cs else withoutComments c :: withoutCommentsAll cs

end

theorem withoutCommentsAll_eq (cs : List Concrete) :
    withoutCommentsAll cs = (cs.filter fun c => !c.isComment).map withoutComments := by
  induction cs with
  | nil => rw [withoutCommentsAll, List.filter_nil, List.map_nil]
  | cons c cs ih =>
      rw [withoutCommentsAll, ih]
      cases hc : c.isComment <;> simp [hc]

theorem children_withoutComments (c : Concrete) :
    c.withoutComments.children = (c.children.filter fun d => !d.isComment).map withoutComments := by
  cases c with
  | node k s e n m cs => rw [withoutComments, children, withoutCommentsAll_eq, children]

@[simp] theorem kind_withoutComments (c : Concrete) : c.withoutComments.kind = c.kind := by
  cases c; rw [withoutComments]; rfl

@[simp] theorem start_withoutComments (c : Concrete) : c.withoutComments.start = c.start := by
  cases c; rw [withoutComments]; rfl

@[simp] theorem stop_withoutComments (c : Concrete) : c.withoutComments.stop = c.stop := by
  cases c; rw [withoutComments]; rfl

@[simp] theorem named_withoutComments (c : Concrete) : c.withoutComments.named = c.named := by
  cases c; rw [withoutComments]; rfl

@[simp] theorem missing_withoutComments (c : Concrete) :
    c.withoutComments.missing = c.missing := by
  cases c; rw [withoutComments]; rfl

@[simp] theorem isComment_withoutComments (c : Concrete) :
    c.withoutComments.isComment = c.isComment := by
  rw [isComment, isComment, kind_withoutComments]

/-! ## Choices among children -/

@[simp] theorem significant_withoutComments (c : Concrete) :
    c.withoutComments.significant = c.significant.map withoutComments := by
  rw [significant, significant, children_withoutComments, List.filter_map, List.filter_filter]
  congr 1
  refine List.filter_congr fun d _ => ?_
  cases hd : d.isComment <;> simp [hd]

@[simp] theorem inner_withoutComments (c : Concrete) :
    c.withoutComments.inner = c.inner.map withoutComments := by
  simp [inner, List.filter_map, Function.comp_def]

@[simp] theorem members_withoutComments (c : Concrete) :
    c.withoutComments.members = c.members.map withoutComments := by
  simp [members, List.filter_map, Function.comp_def]

/-- The first child of a kind stays, unless it is looked for among the comments. -/
theorem child?_withoutComments {kind : String} (hkind : kind ≠ "comment" ∧ kind ≠ "js_comment")
    (c : Concrete) : c.withoutComments.child? kind = (c.child? kind).map withoutComments := by
  rw [child?, child?, children_withoutComments, List.find?_map, List.find?_filter]
  refine congrArg (fun test => (c.children.find? test).map withoutComments) (funext fun d => ?_)
  -- a child of that kind is no comment, so leaving the comments out does not pass over it
  by_cases hd : d.kind = kind
  · have hno : d.isComment = false := by
      rw [isComment, hd, beq_false_of_ne hkind.1, beq_false_of_ne hkind.2]
      rfl
    simp [hd, hno]
  · simp [hd]

/-! ## Values

The text of a node depends on its range only. Where a builder is called again for smaller nodes,
as for the arguments of a call, it is given those without comments, and what they make is the same
by the induction on values. -/

@[simp] theorem text_withoutComments (src : Source) (c : Concrete) :
    src.text c.withoutComments = src.text c := by
  simp [Source.text]

@[simp] theorem leaf_withoutComments (src : Source) (c : Concrete) (l : Leaf) :
    src.leaf c.withoutComments l = src.leaf c l := by
  simp [Source.leaf, Source.mark]

@[simp] theorem mark_withoutComments (src : Source) (c : Concrete) :
    src.mark c.withoutComments = src.mark c := by
  simp [Source.mark]

@[simp] theorem raw_withoutComments (src : Source) (c : Concrete) :
    src.raw c.withoutComments = src.raw c := by
  simp [Source.raw]

@[simp] theorem rawSpan_map_withoutComments (src : Source) (cs : List Concrete) (octet : Int) :
    src.rawSpan (cs.map withoutComments) octet = src.rawSpan cs octet := by
  rw [Source.rawSpan, Source.rawSpan, List.head?_map, List.getLast?_map]
  cases cs.head? <;> cases cs.getLast? <;> simp

@[simp] theorem valueForm_withoutComments (c : Concrete) :
    c.withoutComments.valueForm = c.valueForm := by
  simp [valueForm]

theorem numberNode_withoutComments (src : Source) (c : Concrete) :
    numberNode src c.withoutComments = numberNode src c := by
  rw [numberNode, numberNode, child?_withoutComments (by decide)]
  cases c.child? "unit" <;> simp

theorem callee_withoutComments (src : Source) (c : Concrete) :
    callee src c.withoutComments = callee src c := by
  rw [callee, callee, child?_withoutComments (by decide)]
  cases c.child? "function_name" <;> simp

theorem callArguments_withoutComments (c : Concrete) :
    c.withoutComments.callArguments = c.callArguments.map withoutComments := by
  rw [callArguments, callArguments, child?_withoutComments (by decide)]
  cases c.child? "arguments" <;> simp

/-- The children of a call of `var` are the same if comments are taken out of its arguments and
not out of the values that these make. -/
theorem varMembers_withoutComments (src : Source) (arguments : List Argument) :
    varMembers src (arguments.map fun a => ⟨a.node.withoutComments, a.values⟩)
      = varMembers src arguments := by
  simp only [varMembers, List.takeWhile_map, List.dropWhile_map, Function.comp_def,
    kind_withoutComments, List.map_map]
  cases arguments.dropWhile fun a => a.node.kind != "," with
  | nil => rfl
  | cons comma after =>
      have hafter := rawSpan_map_withoutComments src (after.map (·.node)) comma.node.stop
      rw [List.map_map] at hafter
      simp only [List.map_cons, leaf_withoutComments, stop_withoutComments, List.map_map]
      rw [← hafter]
      rfl

theorem callNode_withoutComments (src : Source) (c : Concrete) (arguments : List Argument) :
    callNode src c.withoutComments (arguments.map fun a => ⟨a.node.withoutComments, a.values⟩)
      = callNode src c arguments := by
  rw [callNode, callNode, callee_withoutComments, varMembers_withoutComments, List.map_map,
    mark_withoutComments]
  rfl

/-- **Values** are the same without comments. -/
theorem values_withoutComments (src : Source) (c : Concrete) :
    values src c.withoutComments = values src c := by
  -- the induction is on the size of the node; each form names nodes below it
  have hall : ∀ ds : List Concrete, (∀ d ∈ ds, sizeOf d < sizeOf c) →
      valuesOfAll src (ds.map withoutComments) = valuesOfAll src ds := by
    intro ds hds
    rw [valuesOfAll, valuesOfAll, List.map_map]
    refine congrArg Made.concat (List.map_congr_left fun d hd => ?_)
    have := hds d hd
    exact values_withoutComments src d
  rw [values_eq, values_eq src c, valueForm_withoutComments]
  cases c.valueForm with
  | identifier | hash | string | operator | raw => simp [afterFirst, betweenEnds]
  | number => simp [numberNode_withoutComments]
  | call =>
      have harguments : (c.withoutComments.callArguments.map fun d => Argument.mk d (values src d))
          = (c.callArguments.map fun d => Argument.mk d (values src d)).map
              fun a => ⟨a.node.withoutComments, a.values⟩ := by
        rw [callArguments_withoutComments, List.map_map, List.map_map]
        refine List.map_congr_left fun d hd => ?_
        have := sizeOf_lt_of_mem_callArguments hd
        exact congrArg _ (values_withoutComments src d)
      rw [harguments, callNode_withoutComments]
  | operation =>
      simp only [significant_withoutComments]
      exact hall c.significant fun d => sizeOf_lt_of_mem_significant
  | parentheses | brackets =>
      simp only [inner_withoutComments, mark_withoutComments]
      rw [hall c.inner fun d => sizeOf_lt_of_mem_inner]
termination_by sizeOf c

theorem valuesOfAll_map_withoutComments (src : Source) (cs : List Concrete) :
    valuesOfAll src (cs.map withoutComments) = valuesOfAll src cs := by
  rw [valuesOfAll, valuesOfAll, List.map_map]
  exact congrArg Made.concat (List.map_congr_left fun d _ => values_withoutComments src d)

/-! ## Selectors

What a selector is told from are tokens among its significant children, and what stands before and
behind them. Where children are counted, as the two sides of a combinator are, comments are not
among those counted. -/

@[simp] theorem selectorForm_withoutComments (c : Concrete) :
    c.withoutComments.selectorForm = c.selectorForm := by
  simp [selectorForm]

@[simp] theorem isMarker_withoutComments (c : Concrete) :
    c.withoutComments.isMarker = c.isMarker := by
  simp [isMarker]

theorem fromMarker_withoutComments (c : Concrete) :
    c.withoutComments.fromMarker = c.fromMarker.map withoutComments := by
  simp [fromMarker, List.dropWhile_map, Function.comp_def]

theorem leading_withoutComments (c : Concrete) :
    c.withoutComments.leading = c.leading.map withoutComments := by
  rw [leading, leading, fromMarker_withoutComments, List.isEmpty_map]
  split
  · rfl
  · simp [List.takeWhile_map, List.filter_map, Function.comp_def]

theorem trailing_withoutComments (c : Concrete) :
    c.withoutComments.trailing = c.trailing.map withoutComments := by
  rw [trailing, trailing, fromMarker_withoutComments, List.isEmpty_map]
  split <;> simp

theorem partStart_withoutComments (c : Concrete) : c.withoutComments.partStart = c.partStart := by
  rw [partStart, partStart, fromMarker_withoutComments]
  cases c.fromMarker <;> simp

theorem selectorArguments_withoutComments (src : Source) (c : Concrete) :
    selectorArguments src c.withoutComments = selectorArguments src c := by
  simp only [selectorArguments, significant_withoutComments, ← List.map_reverse, List.find?_map,
    Function.comp_def, kind_withoutComments]
  cases c.significant.find? (·.kind == "(") <;>
    cases c.significant.reverse.find? (·.kind == ")") <;> simp

theorem matcher?_map_withoutComments (cs : List Concrete) :
    matcher? (cs.map withoutComments) = (matcher? cs).map withoutComments := by
  simp only [matcher?, List.find?_map, Function.comp_def, kind_withoutComments]

theorem attributeValue_map_withoutComments (src : Source) (cs : List Concrete) :
    attributeValue src (cs.map withoutComments) = attributeValue src cs := by
  rw [attributeValue, attributeValue, matcher?_map_withoutComments]
  cases matcher? cs with
  | none => rfl
  | some token =>
      simp only [Option.map_some, List.find?_map, Function.comp_def, named_withoutComments,
        start_withoutComments, stop_withoutComments]
      cases cs.find? fun c => c.named && decide (token.stop ≤ c.start) with
      | none => rfl
      | some valueNode => simp only [Option.map_some, values_withoutComments]

theorem attributeNode_map_withoutComments (src : Source) (cs : List Concrete) (mark : Mark) :
    attributeNode src (cs.map withoutComments) mark = attributeNode src cs mark := by
  have hkind : ((matcher? cs).map withoutComments).map (·.kind) = (matcher? cs).map (·.kind) := by
    rw [Option.map_map]
    exact Option.map_congr fun d _ => kind_withoutComments d
  rw [attributeNode, attributeNode, attributeValue_map_withoutComments,
    matcher?_map_withoutComments, hkind]
  simp only [List.find?_map, Function.comp_def, kind_withoutComments]
  cases cs.find? (·.kind == "attribute_name") <;> simp

theorem pseudoNode_withoutComments (src : Source) (c : Concrete) (mark : Mark)
    (group : String → Group) :
    pseudoNode src c.withoutComments mark group = pseudoNode src c mark group := by
  simp only [pseudoNode, trailing_withoutComments, List.filter_map, Function.comp_def,
    named_withoutComments, raw_withoutComments]
  cases c.trailing.filter (·.named) with
  | nil => rfl
  | cons nameNode rest =>
      rw [List.find?_map]
      simp only [Function.comp_def, kind_withoutComments, List.map_cons, text_withoutComments]
      cases (nameNode :: rest).find? (·.kind == "arguments") <;>
        simp [selectorArguments_withoutComments]

theorem namedPart_withoutComments (src : Source) (c : Concrete) (mark : Mark) (nameKind : String)
    (leaf : String → Leaf) :
    namedPart src c.withoutComments mark nameKind leaf = namedPart src c mark nameKind leaf := by
  simp only [namedPart, trailing_withoutComments, List.find?_map, Function.comp_def,
    named_withoutComments, kind_withoutComments, raw_withoutComments]
  cases c.trailing.find? fun d => d.named && d.kind == nameKind <;> simp

theorem lastPart_withoutComments (src : Source) (c : Concrete) (form : PartForm) :
    lastPart src c.withoutComments form = lastPart src c form := by
  rw [lastPart, lastPart, partStart_withoutComments, stop_withoutComments]
  refine bind_congr fun mark => ?_
  match form with
  | .className | .idName => exact namedPart_withoutComments src c mark _ _
  | .pseudoClass | .pseudoElement => exact pseudoNode_withoutComments src c mark _
  | .attribute =>
      simp only [trailing_withoutComments]
      exact attributeNode_map_withoutComments src c.trailing mark

/-- The sides of a combinator stay, since comments are not counted among them. -/
theorem sides?_withoutComments (c : Concrete) :
    c.withoutComments.sides?
      = c.sides?.map fun sides => (sides.1.withoutComments, sides.2.withoutComments) := by
  rw [sides?, sides?, members_withoutComments]
  rcases c.members with _ | ⟨left, _ | ⟨right, _ | ⟨third, rest⟩⟩⟩ <;> rfl

theorem combinatorMark_withoutComments (src : Source) (c left right : Concrete) :
    combinatorMark src c.withoutComments left.withoutComments right.withoutComments
      = combinatorMark src c left right := by
  simp only [combinatorMark, significant_withoutComments, List.find?_map, Function.comp_def,
    named_withoutComments]
  cases c.significant.find? fun d => !d.named <;> simp

/-- **The parts of a selector** are the same without comments. -/
theorem selectorParts_withoutComments (src : Source) (c : Concrete) :
    selectorParts src c.withoutComments = selectorParts src c := by
  rw [selectorParts_eq, selectorParts_eq src c, selectorForm_withoutComments]
  cases c.selectorForm with
  | type | universal | nesting | raw => simp
  | combinator name =>
      rw [sides?_withoutComments]
      cases hsides : c.sides? with
      | none => simp
      | some sides =>
          obtain ⟨left, right⟩ := sides
          obtain ⟨hleft, hright⟩ := sizeOf_lt_of_sides? hsides
          simp only [Option.map_some]
          rw [combinatorMark_withoutComments, selectorParts_withoutComments src left,
            selectorParts_withoutComments src right]
  | compound form =>
      have hleading : (c.withoutComments.leading.map (selectorParts src))
          = c.leading.map (selectorParts src) := by
        rw [leading_withoutComments, List.map_map]
        refine List.map_congr_left fun d hd => ?_
        have := sizeOf_lt_of_mem_leading hd
        exact selectorParts_withoutComments src d
      simp only [hleading, lastPart_withoutComments]
termination_by sizeOf c

theorem selectorList_withoutComments (src : Source) (c : Concrete) :
    selectorList src c.withoutComments = selectorList src c := by
  have hnode : ∀ d : Concrete, selectorNode src d.withoutComments = selectorNode src d := by
    intro d
    rw [selectorNode, selectorNode, selectorParts_withoutComments, mark_withoutComments]
  rw [selectorList, selectorList, members_withoutComments, List.mapM_map, mark_withoutComments]
  simp only [Function.comp_def, hnode]

/-! ## Declarations

A declaration is cut at its first colon and its semicolon. Its value begins behind the colon, also
if a comment stands there. -/

theorem propertyName_withoutComments (src : Source) (c : Concrete) :
    propertyName src c.withoutComments = propertyName src c := by
  simp only [propertyName, significant_withoutComments, List.find?_map, Function.comp_def,
    kind_withoutComments]
  cases c.significant.find? (·.kind == "property_name") <;> simp

theorem fromColon_withoutComments (c : Concrete) :
    c.withoutComments.fromColon = c.fromColon.map withoutComments := by
  simp [fromColon, List.dropWhile_map, Function.comp_def]

theorem valueNodes_withoutComments (c : Concrete) :
    c.withoutComments.valueNodes = c.valueNodes.map withoutComments := by
  rw [valueNodes, valueNodes, fromColon_withoutComments, ← List.map_tail, List.filter_map]
  simp only [Function.comp_def, kind_withoutComments]

theorem valueStart_withoutComments (c : Concrete) :
    c.withoutComments.valueStart = c.valueStart := by
  rw [valueStart, valueStart, fromColon_withoutComments]
  cases c.fromColon <;> simp

theorem declarationStop_withoutComments (c : Concrete) :
    c.withoutComments.declarationStop = c.declarationStop := by
  simp only [declarationStop, significant_withoutComments, ← List.map_reverse, List.find?_map,
    Function.comp_def, kind_withoutComments]
  cases c.significant.reverse.find? (·.kind != ";") <;> simp

theorem valueNode_map_withoutComments (src : Source) (cs : List Concrete) (octet : Int) :
    valueNode src (cs.map withoutComments) octet = valueNode src cs octet := by
  rw [valueNode, valueNode, valuesOfAll_map_withoutComments, List.head?_map, List.getLast?_map]
  cases cs.head? <;> cases cs.getLast? <;> simp

/-- **A declaration** is the same without comments. -/
theorem declarationNode_withoutComments (src : Source) (c : Concrete) :
    declarationNode src c.withoutComments = declarationNode src c := by
  have himportant : c.withoutComments.significant.any (·.kind == "important")
      = c.significant.any (·.kind == "important") := by
    simp [Function.comp_def]
  simp only [declarationNode, propertyName_withoutComments, valueNodes_withoutComments,
    valueStart_withoutComments, rawSpan_map_withoutComments, valueNode_map_withoutComments,
    start_withoutComments, declarationStop_withoutComments, himportant]

/-! ## Rules and at-rules

An at-rule gathers its parts child by child, and a child that is a comment adds nothing. The
builders of items, of blocks and of keyframes call each other for smaller nodes. So for each of
the three it is shown that it makes the same if the smaller nodes do, and the induction that joins
them comes last. -/

@[simp] theorem itemForm_withoutComments (c : Concrete) :
    c.withoutComments.itemForm = c.itemForm := by
  simp [itemForm]

theorem ruleOf_withoutComments (src : Source) (c : Concrete) (prelude : Made Node)
    (block : Option (Made Node)) :
    ruleOf src c.withoutComments prelude block = ruleOf src c prelude block := by
  rw [ruleOf, ruleOf, stop_withoutComments, mark_withoutComments]

theorem rulePrelude_withoutComments (src : Source) (c : Concrete) :
    rulePrelude src c.withoutComments = rulePrelude src c := by
  rw [rulePrelude, rulePrelude, child?_withoutComments (by decide)]
  cases c.child? "selectors" <;> simp [selectorList_withoutComments]

theorem keyframePrelude_withoutComments (src : Source) (c : Concrete) :
    keyframePrelude src c.withoutComments = keyframePrelude src c := by
  simp only [keyframePrelude, significant_withoutComments, List.find?_map, Function.comp_def,
    named_withoutComments, kind_withoutComments]
  cases c.significant.find? fun d => d.named && d.kind != "block" <;> simp

theorem keyframeBody?_withoutComments (c : Concrete) :
    c.withoutComments.keyframeBody? = c.keyframeBody?.map withoutComments := by
  simp only [keyframeBody?, significant_withoutComments, List.find?_map, Function.comp_def,
    kind_withoutComments]

/-- The parts of an at-rule, with the comments taken out of the nodes of its prelude. -/
def AtruleParts.withoutComments (parts : AtruleParts) : AtruleParts :=
  { parts with prelude := parts.prelude.map Concrete.withoutComments }

theorem add_withoutComments (src : Source) (parts : AtruleParts) (c : Concrete)
    (block : Option (Made Node)) :
    parts.withoutComments.add src c.withoutComments block
      = AtruleParts.withoutComments <$> parts.add src c block := by
  have hkeyword : c.withoutComments.isAtKeyword = c.isAtKeyword := by
    simp [isAtKeyword]
  have hname : afterFirst src c.withoutComments = afterFirst src c := by
    simp [afterFirst]
  unfold AtruleParts.add
  rw [hkeyword, hname, kind_withoutComments]
  have hsame : (parts.withoutComments.name = "" ∧ c.isAtKeyword = true)
      ↔ (parts.name = "" ∧ c.isAtKeyword = true) := Iff.rfl
  by_cases hnamed : parts.name = "" ∧ c.isAtKeyword = true
  · rw [if_pos (hsame.2 hnamed), if_pos hnamed]
    rfl
  · rw [if_neg (mt hsame.1 hnamed), if_neg hnamed]
    cases block with
    | some made => simp [AtruleParts.withoutComments]
    | none =>
        by_cases hsemicolon : c.kind = ";"
        · simp [hsemicolon, AtruleParts.withoutComments]
        · simp [hsemicolon, AtruleParts.withoutComments]

theorem foldlM_add_withoutComments (src : Source) (parts : AtruleParts)
    (children : List AtruleChild) :
    (children.map fun d => (⟨d.node.withoutComments, d.block⟩ : AtruleChild)).foldlM
        (fun parts d => parts.add src d.node d.block) parts.withoutComments
      = AtruleParts.withoutComments
          <$> children.foldlM (fun parts d => parts.add src d.node d.block) parts := by
  induction children generalizing parts with
  | nil => rfl
  | cons d children ih =>
      rw [List.map_cons, List.foldlM_cons, List.foldlM_cons, add_withoutComments, map_bind,
        bind_map_left]
      exact bind_congr fun next => ih next

theorem preludeValues_withoutComments (src : Source) (c : Concrete) :
    preludeValues src c.withoutComments = preludeValues src c := by
  simp [preludeValues, values_withoutComments]

theorem preludeNode_map_withoutComments (src : Source) (cs : List Concrete) :
    preludeNode src (cs.map withoutComments) = preludeNode src cs := by
  simp only [preludeNode, List.head?_map, List.getLast?_map, List.map_map, Function.comp_def,
    preludeValues_withoutComments]
  cases cs.head? <;> cases cs.getLast? <;> simp

/-- An at-rule is the same if comments are taken out of its children and not out of the blocks
that these make. -/
theorem atruleNode_withoutComments (src : Source) (c : Concrete) (children : List AtruleChild) :
    atruleNode src c.withoutComments (children.map fun d => ⟨d.node.withoutComments, d.block⟩)
      = atruleNode src c children := by
  have hfold := foldlM_add_withoutComments src ⟨"", none, []⟩ children
  simp only [AtruleParts.withoutComments, List.map_nil] at hfold
  rw [atruleNode, atruleNode, mark_withoutComments]
  simp only [hfold, bind_map_left]
  refine bind_congr fun parts => ?_
  simp only [AtruleParts.withoutComments, preludeNode_map_withoutComments]

/-! ## Items and blocks -/

/-- What a node makes, as an item, as a block or as a block of keyframes, is the same without
comments. -/
structure SameWithoutComments (src : Source) (c : Concrete) : Prop where
  item : item src c.withoutComments = item src c
  block : block src c.withoutComments = block src c
  keyframes : keyframes src c.withoutComments = keyframes src c

section Step

variable {src : Source} {c : Concrete}
  (ih : ∀ d : Concrete, sizeOf d < sizeOf c → SameWithoutComments src d)
include ih

theorem item_withoutComments : item src c.withoutComments = item src c := by
  rw [item_eq, item_eq src c, itemForm_withoutComments]
  cases c.itemForm with
  | rule =>
      have hblock : (c.withoutComments.child? "block").map (block src)
          = (c.child? "block").map (block src) := by
        rw [child?_withoutComments (by decide), Option.map_map]
        refine Option.map_congr fun d hd => ?_
        exact (ih d (sizeOf_lt_of_child? hd)).block
      simp only [rulePrelude_withoutComments, hblock, ruleOf_withoutComments]
  | declaration => simp only [declarationNode_withoutComments]
  | atrule =>
      have hchildren : c.withoutComments.significant.map (atruleChild src)
          = (c.significant.map (atruleChild src)).map
              fun d => ⟨d.node.withoutComments, d.block⟩ := by
        rw [significant_withoutComments, List.map_map, List.map_map]
        refine List.map_congr_left fun d hd => ?_
        have hd := ih d (sizeOf_lt_of_mem_significant hd)
        simp only [Function.comp_apply, atruleChild, kind_withoutComments, hd.block, hd.keyframes]
      simp only [hchildren, atruleNode_withoutComments]
  | nothing => rfl
  | raw => simp only [raw_withoutComments]

theorem block_withoutComments : block src c.withoutComments = block src c := by
  have hitems : (c.members.map withoutComments).map (item src) = c.members.map (item src) := by
    rw [List.map_map]
    exact List.map_congr_left fun d hd => (ih d (sizeOf_lt_of_mem_members hd)).item
  rw [block_eq, block_eq, members_withoutComments, hitems, mark_withoutComments]

theorem keyframes_withoutComments : keyframes src c.withoutComments = keyframes src c := by
  have hrules : (c.significant.map withoutComments).map (keyframe src)
      = c.significant.map (keyframe src) := by
    rw [List.map_map]
    refine List.map_congr_left fun d hd => ?_
    -- the body of a keyframe is two levels down
    have hbody : d.withoutComments.keyframeBody?.map (block src)
        = d.keyframeBody?.map (block src) := by
      rw [keyframeBody?_withoutComments, Option.map_map]
      refine Option.map_congr fun e he => ?_
      have hlt := Nat.lt_trans (sizeOf_lt_of_keyframeBody? he) (sizeOf_lt_of_mem_significant hd)
      exact (ih e hlt).block
    simp only [Function.comp_apply, keyframe, kind_withoutComments, named_withoutComments,
      keyframePrelude_withoutComments, hbody, ruleOf_withoutComments, raw_withoutComments]
  rw [keyframes_eq, keyframes_eq, significant_withoutComments, hrules, mark_withoutComments]

end Step

/-- **Items and blocks** are the same without comments. -/
theorem sameWithoutComments (src : Source) (c : Concrete) : SameWithoutComments src c := by
  have ih : ∀ d : Concrete, sizeOf d < sizeOf c → SameWithoutComments src d :=
    fun d _ => sameWithoutComments src d
  exact ⟨item_withoutComments ih, block_withoutComments ih, keyframes_withoutComments ih⟩
termination_by sizeOf c

/-- **Comments leave no trace**: a concrete tree and the same tree without the comments below its
root make the same syntax tree with the same locations, or fail for the same reason. -/
theorem stylesheet_withoutComments (src : Source) (c : Concrete) :
    stylesheet src c.withoutComments = stylesheet src c := by
  have hitems : (c.significant.map withoutComments).map (item src)
      = c.significant.map (item src) := by
    rw [List.map_map]
    exact List.map_congr_left fun d _ => (sameWithoutComments src d).item
  rw [stylesheet, stylesheet, significant_withoutComments, hitems]

end Stylesheet.Concrete
