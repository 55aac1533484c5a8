/-
Where the nodes of a tree come from.

Each node of a syntax tree that was made from a concrete tree is what one of the builders makes
of one node of the concrete tree, or of two edges of such nodes where text is kept as it is. This
is said node by node (`Node.Origin`), by the kind of the node alone: of a rule, that some node
makes it as a rule, of a number, that some node makes it as a number. So what is to be shown of
all numbers of a tree is shown of one function.

The children of a node that a builder makes are made by other builders, and it is enough to look
at one builder at a time (`Origin.children`). Only values and selectors are gone through by
induction, because operations and combinators inside one another come out as one list.
-/
import Stylesheet.Proofs.Built

set_option autoImplicit false

namespace Stylesheet

open Made Concrete

/-! ## What each kind of node is made from -/

/-- An octet at which a node of a tree begins or ends. -/
def Concrete.IsEdge (root : Concrete) (octet : Int) : Prop :=
  ∃ c ∈ root.walk, octet = c.start ∨ octet = c.stop

/-- Groups whose members are values. -/
def Group.holdsValues : Group → Bool
  | .value | .function _ | .parentheses | .brackets | .atrulePrelude => true
  | .stylesheet | .block | .selectorList | .selector | .pseudoClassSelector _
  | .pseudoElementSelector _ => false

namespace Node

/-- A node is what the builder of its kind makes of some node of a concrete tree. -/
def Origin (src : Source) (root : Concrete) : Node → Prop
  | leaf m (.raw value) =>
    ∃ start stop, root.IsEdge start ∧ root.IsEdge stop ∧ src.markAt start stop = .ok m
      ∧ value = src.excerpt start stop
  | leaf m (.identifier name) =>
    ∃ c ∈ root.walk, (src.mark c = .ok m ∧ name = src.text c)
      ∨ (src.markAt c.partStart c.stop = .ok m ∧ name = "")
  | leaf m (.number value) =>
    ∃ c ∈ root.walk, c.valueForm = .number ∧ numberNode src c = .ok (leaf m (.number value))
  | leaf m (.dimension value unit) =>
    ∃ c ∈ root.walk, c.valueForm = .number
      ∧ numberNode src c = .ok (leaf m (.dimension value unit))
  | leaf m (.percentage value) =>
    ∃ c ∈ root.walk, c.valueForm = .number ∧ numberNode src c = .ok (leaf m (.percentage value))
  | leaf m (.hash value) => ∃ c ∈ root.walk, src.mark c = .ok m ∧ value = afterFirst src c
  | leaf m (.string value) => ∃ c ∈ root.walk, src.mark c = .ok m ∧ value = betweenEnds src c
  | leaf m (.operator value) =>
    ∃ c ∈ root.walk, src.mark c = .ok m ∧ (value = src.text c ∨ value = ",")
  | leaf m (.typeSelector name) =>
    ∃ c ∈ root.walk, src.mark c = .ok m ∧ (name = src.text c ∨ name = "*")
  | leaf m (.classSelector name) =>
    ∃ c ∈ root.walk, src.markAt c.partStart c.stop = .ok m ∧ ∃ d ∈ c.trailing, name = src.text d
  | leaf m (.idSelector name) =>
    ∃ c ∈ root.walk, src.markAt c.partStart c.stop = .ok m ∧ ∃ d ∈ c.trailing, name = src.text d
  | leaf m .nestingSelector => ∃ c ∈ root.walk, src.mark c = .ok m
  | leaf m (.combinator name) =>
    ∃ c ∈ root.walk, c.selectorForm = .combinator name
      ∧ ∃ left right, c.sides? = some (left, right) ∧ combinatorMark src c left right = .ok m
  | group m .stylesheet ns => stylesheet src root = .ok (group m .stylesheet ns)
  | group m .block ns =>
    ∃ c ∈ root.walk, block src c = .ok (group m .block ns)
      ∨ keyframes src c = .ok (group m .block ns)
      ∨ emptyBlock src c.stop = .ok (group m .block ns)
  | group m .atrulePrelude ns =>
    ∃ c ∈ root.walk, ∃ cs, List.Sublist cs c.significant
      ∧ preludeNode src cs = .ok (some (group m .atrulePrelude ns))
  | group m .value ns =>
    ∃ c ∈ root.walk, valueNode src c.valueNodes c.valueStart = .ok (group m .value ns)
  | group m (.function name) ns =>
    ∃ c ∈ root.walk, callNode src c (c.callArguments.map fun d => ⟨d, values src d⟩)
      = .ok (group m (.function name) ns)
  | group m .parentheses ns =>
    ∃ c ∈ root.walk, src.mark c = .ok m ∧ valuesOfAll src c.inner = .ok ns
  | group m .brackets ns =>
    ∃ c ∈ root.walk, src.mark c = .ok m ∧ valuesOfAll src c.inner = .ok ns
  | group m .selectorList ns =>
    ∃ c ∈ root.walk, selectorList src c = .ok (group m .selectorList ns)
  | group m .selector ns => ∃ c ∈ root.walk, selectorNode src c = .ok (group m .selector ns)
  | group m (.pseudoClassSelector name) ns =>
    ∃ c ∈ root.walk, src.markAt c.partStart c.stop = .ok m
      ∧ pseudoNode src c m .pseudoClassSelector = .ok (group m (.pseudoClassSelector name) ns)
  | group m (.pseudoElementSelector name) ns =>
    ∃ c ∈ root.walk, src.markAt c.partStart c.stop = .ok m
      ∧ pseudoNode src c m .pseudoElementSelector = .ok (group m (.pseudoElementSelector name) ns)
  | rule m prelude body =>
    ∃ c ∈ root.walk,
      ruleOf src c (rulePrelude src c) ((c.child? "block").map (block src))
          = .ok (rule m prelude body)
        ∨ ruleOf src c (keyframePrelude src c) (c.keyframeBody?.map (block src))
          = .ok (rule m prelude body)
  | atrule m name prelude body =>
    ∃ c ∈ root.walk, atruleNode src c (c.significant.map (atruleChild src))
      = .ok (atrule m name prelude body)
  | declaration m property value important =>
    ∃ c ∈ root.walk, c.itemForm = .declaration
      ∧ declarationNode src c = .ok (declaration m property value important)
  | attributeSelector m name matcher value =>
    ∃ c ∈ root.walk, src.markAt c.partStart c.stop = .ok m
      ∧ attributeNode src c.trailing m = .ok (attributeSelector m name matcher value)
  | comment .. => False

/-- A node is made as a value: where it is an identifier, its name is the text of a whole node. -/
def ValueOrigin (src : Source) (root : Concrete) : Node → Prop
  | leaf m (.identifier name) => ∃ c ∈ root.walk, src.mark c = .ok m ∧ name = src.text c
  | n => n.Origin src root

variable {src : Source} {root : Concrete}

/-- What is made as a value is made. -/
theorem ValueOrigin.origin {n : Node} (h : n.ValueOrigin src root) : n.Origin src root := by
  cases n with
  | leaf m l =>
      cases l with
      | identifier name =>
          obtain ⟨c, hc, hwhole⟩ := h
          exact ⟨c, hc, .inl hwhole⟩
      | _ => exact h
  | _ => exact h

end Node

/-! ## Text kept as it is

Text that is kept goes from one edge of concrete nodes to another. This is also so where no text
is kept: then the two edges are one. -/

namespace Concrete

variable {src : Source} {root : Concrete}

theorem isEdge_start {c : Concrete} (hc : c ∈ root.walk) : root.IsEdge c.start :=
  ⟨c, hc, .inl rfl⟩

theorem isEdge_stop {c : Concrete} (hc : c ∈ root.walk) : root.IsEdge c.stop :=
  ⟨c, hc, .inr rfl⟩

end Concrete

namespace Source

variable {src : Source} {root : Concrete}

theorem excerpt_self (src : Source) (octet : Int) : src.excerpt octet octet = "" := by
  have hnone : slice src.octets octet octet = [] := by
    rw [slice, List.drop_eq_nil_iff, List.length_take]
    exact Nat.min_le_left _ _
  rw [excerpt, hnone]
  rfl

theorem rawAt_origin {start stop : Int} (hstart : root.IsEdge start) (hstop : root.IsEdge stop)
    {n : Node} (h : src.rawAt start stop = .ok n) : n.ValueOrigin src root := by
  obtain ⟨m, hm, rfl⟩ := rawAt_eq_ok.1 h
  exact ⟨start, stop, hstart, hstop, hm, rfl⟩

theorem raw_origin {c : Concrete} (hc : c ∈ root.walk) {n : Node} (h : src.raw c = .ok n) :
    n.ValueOrigin src root := by
  obtain ⟨m, hm, rfl⟩ := leaf_eq_ok.1 h
  exact ⟨c.start, c.stop, isEdge_start hc, isEdge_stop hc, hm, rfl⟩

theorem emptyRaw_origin {octet : Int} (hedge : root.IsEdge octet) {n : Node}
    (h : src.emptyRaw octet = .ok n) : n.ValueOrigin src root := by
  obtain ⟨m, hm, rfl⟩ := emptyRaw_eq_ok.1 h
  exact ⟨octet, octet, hedge, hedge, hm, (excerpt_self src octet).symm⟩

/-- Text from some nodes is made from edges, also if there are no nodes. -/
theorem rawSpan_origin {cs : List Concrete} (hcs : ∀ c ∈ cs, c ∈ root.walk) {octet : Int}
    (hedge : root.IsEdge octet) {n : Node} (h : src.rawSpan cs octet = .ok n) :
    n.ValueOrigin src root := by
  rw [rawSpan] at h
  split at h
  · rename_i first last hfirst hlast
    exact rawAt_origin (isEdge_start (hcs first (List.mem_of_head? hfirst)))
      (isEdge_stop (hcs last (List.mem_of_getLast? hlast))) h
  · exact emptyRaw_origin hedge h

end Source

namespace Concrete

variable {src : Source} {root : Concrete}

/-! ## Values

The values of several nodes are made if those of each node are, and so the children of a call are
if its arguments are. -/

theorem numberNode_origin {c : Concrete} (hc : c ∈ root.walk) (hform : c.valueForm = .number)
    {n : Node} (h : numberNode src c = .ok n) : n.ValueOrigin src root := by
  have hmade := h
  rw [numberNode] at h
  split at h
  · obtain ⟨m, -, rfl⟩ := Source.leaf_eq_ok.1 h
    exact ⟨c, hc, hform, hmade⟩
  · simp only at h
    split at h
    all_goals
      obtain ⟨m, -, rfl⟩ := Source.leaf_eq_ok.1 h
      exact ⟨c, hc, hform, hmade⟩

theorem valuesOfAll_origin_of {cs : List Concrete}
    (hvalues : ∀ c ∈ cs, ∀ ns, values src c = .ok ns → ∀ n ∈ ns, n.ValueOrigin src root)
    {ns : List Node} (h : valuesOfAll src cs = .ok ns) : ∀ n ∈ ns, n.ValueOrigin src root := by
  intro n hn
  obtain ⟨c, hc, made, hmade, hmem⟩ := mem_concat h n hn
  exact hvalues c hc made hmade n hmem

theorem callMembers_origin_of {c : Concrete} {ds : List Concrete} (hds : ∀ d ∈ ds, d ∈ root.walk)
    (hvalues : ∀ d ∈ ds, ∀ ns, values src d = .ok ns → ∀ n ∈ ns, n.ValueOrigin src root)
    {ns : List Node} (h : callMembers src c (ds.map fun d => ⟨d, values src d⟩) = .ok ns) :
    ∀ n ∈ ns, n.ValueOrigin src root := by
  rcases callMembers_cases h with
    h | ⟨before, comma, after, members, operator, fallback, rfl, hmembers, hop, hfall, rfl⟩
  · exact valuesOfAll_origin_of hvalues h
  · have hcomma : comma ∈ root.walk := hds comma (by simp)
    intro n hn
    rcases List.mem_append.1 hn with hn | hn
    · exact valuesOfAll_origin_of (fun d hd => hvalues d (List.mem_append_left _ hd)) hmembers n hn
    · rcases List.mem_pair.1 hn with rfl | rfl
      · obtain ⟨m, hm, rfl⟩ := Source.leaf_eq_ok.1 hop
        exact ⟨comma, hcomma, hm, .inr rfl⟩
      · exact Source.rawSpan_origin (fun d hd => hds d (by simp [hd])) (isEdge_stop hcomma) hfall

/-- **Values are made as values.** -/
theorem values_origin (c : Concrete) (hc : c ∈ root.walk) {ns : List Node}
    (h : values src c = .ok ns) : ∀ n ∈ ns, n.ValueOrigin src root := by
  have hone : ∀ {n : Node}, [n] = ns → n.ValueOrigin src root →
      ∀ n ∈ ns, n.ValueOrigin src root := by
    rintro n rfl hn
    simpa using hn
  rw [values_eq] at h
  cases hform : c.valueForm
  all_goals simp only [hform, bind_eq_ok, pure_eq_ok] at h
  case identifier | hash | string =>
    obtain ⟨n, hn, h⟩ := h
    obtain ⟨m, hm, rfl⟩ := Source.leaf_eq_ok.1 hn
    exact hone h ⟨c, hc, hm, rfl⟩
  case operator =>
    obtain ⟨n, hn, h⟩ := h
    obtain ⟨m, hm, rfl⟩ := Source.leaf_eq_ok.1 hn
    exact hone h ⟨c, hc, hm, .inl rfl⟩
  case number =>
    obtain ⟨n, hn, h⟩ := h
    exact hone h (numberNode_origin hc hform hn)
  case raw =>
    obtain ⟨n, hn, h⟩ := h
    exact hone h (Source.raw_origin hc hn)
  case call =>
    obtain ⟨n, hn, h⟩ := h
    obtain ⟨members, -, m, -, rfl⟩ := callNode_eq_ok.1 hn
    exact hone h ⟨c, hc, hn⟩
  case parentheses | brackets =>
    obtain ⟨members, hmembers, m, hm, h⟩ := h
    exact hone h ⟨c, hc, hm, hmembers⟩
  case operation =>
    refine valuesOfAll_origin_of (fun d hd ns hns => ?_) h
    have := sizeOf_lt_of_mem_significant hd
    exact values_origin d (mem_walk_of_mem_significant hc hd) hns
termination_by sizeOf c

theorem valuesOfAll_origin {cs : List Concrete} (hcs : ∀ c ∈ cs, c ∈ root.walk) {ns : List Node}
    (h : valuesOfAll src cs = .ok ns) : ∀ n ∈ ns, n.ValueOrigin src root :=
  valuesOfAll_origin_of (fun c hc _ => values_origin c (hcs c hc)) h

theorem preludeValues_origin {c : Concrete} (hc : c ∈ root.walk) {ns : List Node}
    (h : preludeValues src c = .ok ns) : ∀ n ∈ ns, n.ValueOrigin src root := by
  rw [preludeValues] at h
  split at h
  · simp only [bind_eq_ok, pure_eq_ok] at h
    obtain ⟨n, hn, rfl⟩ := h
    obtain ⟨m, hm, rfl⟩ := Source.leaf_eq_ok.1 hn
    rintro n hn
    obtain rfl := List.mem_singleton.1 hn
    exact ⟨c, hc, hm, rfl⟩
  · exact values_origin c hc h

/-! ## Selectors -/

theorem selectorArguments_origin {c : Concrete} (hc : c ∈ root.walk) {n : Node}
    (h : selectorArguments src c = .ok n) : n.Origin src root := by
  rw [selectorArguments] at h
  split at h
  · rename_i opening closing hopening hclosing
    have hfirst := mem_walk_of_mem_significant hc (List.mem_of_find?_eq_some hopening)
    have hlast := mem_walk_of_mem_significant hc
      (List.mem_reverse.1 (List.mem_of_find?_eq_some hclosing))
    exact (Source.rawAt_origin (isEdge_stop hfirst) (isEdge_start hlast) h).origin
  · exact (Source.raw_origin hc h).origin

theorem lastPart_origin {c : Concrete} (hc : c ∈ root.walk) {form : PartForm} {n : Node}
    (h : lastPart src c form = .ok n) : n.Origin src root := by
  simp only [lastPart, bind_eq_ok] at h
  obtain ⟨mark, hmark, h⟩ := h
  have hraw : src.raw c = .ok n → n.Origin src root := fun h => (Source.raw_origin hc h).origin
  cases form
  case className | idName =>
    rcases namedPart_cases h with h | ⟨d, hd, rfl⟩
    · exact hraw h
    · exact ⟨c, hc, hmark, d, hd, rfl⟩
  case pseudoClass | pseudoElement =>
    rcases pseudoNode_cases h with h' | ⟨name, members, rfl, -⟩
    · exact hraw h'
    · exact ⟨c, hc, hmark, h⟩
  case «attribute» =>
    obtain ⟨name, value, rfl, -, -⟩ := attributeNode_cases h
    exact ⟨c, hc, hmark, h⟩

/-- **Parts of selectors are made.** -/
theorem selectorParts_origin (c : Concrete) (hc : c ∈ root.walk) {ns : List Node}
    (h : selectorParts src c = .ok ns) : ∀ n ∈ ns, n.Origin src root := by
  have hone : ∀ {n : Node}, [n] = ns → n.Origin src root → ∀ n ∈ ns, n.Origin src root := by
    rintro n rfl hn
    simpa using hn
  rw [selectorParts_eq] at h
  cases hform : c.selectorForm
  all_goals simp only [hform, bind_eq_ok, pure_eq_ok] at h
  case type | universal =>
    obtain ⟨n, hn, h⟩ := h
    obtain ⟨m, hm, rfl⟩ := Source.leaf_eq_ok.1 hn
    exact hone h ⟨c, hc, hm, by simp⟩
  case nesting =>
    obtain ⟨n, hn, h⟩ := h
    obtain ⟨m, hm, rfl⟩ := Source.leaf_eq_ok.1 hn
    exact hone h ⟨c, hc, hm⟩
  case raw =>
    obtain ⟨n, hn, h⟩ := h
    exact hone h (Source.raw_origin hc hn).origin
  case combinator name =>
    split at h
    · rename_i left right hsides
      have hsmaller := sizeOf_lt_of_sides? hsides
      have hmem := mem_walk_of_sides? hc hsides
      simp only [bind_eq_ok, pure_eq_ok] at h
      obtain ⟨mark, hmark, before, hbefore, after, hafter, rfl⟩ := h
      intro n hn
      rcases List.mem_append.1 hn with hn | hn
      · have := hsmaller.1
        exact selectorParts_origin left hmem.1 hbefore n hn
      · rcases List.mem_cons.1 hn with rfl | hn
        · exact ⟨c, hc, hform, left, right, hsides, hmark⟩
        · have := hsmaller.2
          exact selectorParts_origin right hmem.2 hafter n hn
    · simp only [bind_eq_ok, pure_eq_ok] at h
      obtain ⟨n, hn, h⟩ := h
      exact hone h (Source.raw_origin hc hn).origin
  case compound form =>
    obtain ⟨before, hbefore, last, hlast, rfl⟩ := h
    intro n hn
    rcases List.mem_append.1 hn with hn | hn
    · obtain ⟨d, hd, made, hmade, hmem⟩ := mem_concat hbefore n hn
      have := sizeOf_lt_of_mem_leading hd
      exact selectorParts_origin d (mem_walk_of_mem_leading hc hd) hmade n hmem
    · obtain rfl := List.mem_singleton.1 hn
      exact lastPart_origin hc hlast
termination_by sizeOf c

theorem selectorNode_origin {c : Concrete} (hc : c ∈ root.walk) {n : Node}
    (h : selectorNode src c = .ok n) : n.Origin src root := by
  have hmade := h
  obtain ⟨parts, -, m, -, rfl⟩ := selectorNode_eq_ok.1 h
  exact ⟨c, hc, hmade⟩

/-! ## Items

One lemma for each builder: what it makes has the origin that is told for its kind. A prelude or a
block that was not there is made from an edge of the rule. -/

theorem rulePrelude_origin {c : Concrete} (hc : c ∈ root.walk) {n : Node}
    (h : rulePrelude src c = .ok n) : n.Origin src root := by
  rw [rulePrelude] at h
  split at h
  · rename_i d hd
    have hdw := mem_walk_of_mem_children hc (List.mem_of_find?_eq_some hd)
    have hmade := h
    obtain ⟨selectors, -, m, -, rfl⟩ := selectorList_eq_ok.1 h
    exact ⟨d, hdw, hmade⟩
  · exact (Source.emptyRaw_origin (isEdge_start hc) h).origin

theorem keyframePrelude_origin {c : Concrete} (hc : c ∈ root.walk) {n : Node}
    (h : keyframePrelude src c = .ok n) : n.Origin src root := by
  rw [keyframePrelude] at h
  split at h
  · rename_i d hd
    exact (Source.raw_origin
      (mem_walk_of_mem_significant hc (List.mem_of_find?_eq_some hd)) h).origin
  · exact (Source.emptyRaw_origin (isEdge_start hc) h).origin

theorem block_origin {c : Concrete} (hc : c ∈ root.walk) {n : Node} (h : block src c = .ok n) :
    n.Origin src root := by
  have hmade := h
  simp only [block_eq, bind_eq_ok, pure_eq_ok] at h
  obtain ⟨items, -, m, -, rfl⟩ := h
  exact ⟨c, hc, .inl hmade⟩

theorem keyframes_origin {c : Concrete} (hc : c ∈ root.walk) {n : Node}
    (h : keyframes src c = .ok n) : n.Origin src root := by
  have hmade := h
  simp only [keyframes_eq, bind_eq_ok, pure_eq_ok] at h
  obtain ⟨rules, -, m, -, rfl⟩ := h
  exact ⟨c, hc, .inr (.inl hmade)⟩

theorem body_origin {c : Concrete} (hc : c ∈ root.walk) {body : Option Concrete}
    (hbody : ∀ d ∈ body, d ∈ root.walk) {n : Node}
    (h : (body.map (block src)).getD (emptyBlock src c.stop) = .ok n) : n.Origin src root := by
  cases body with
  | none =>
      have hmade := h
      simp only [Option.map_none, Option.getD_none, emptyBlock, bind_eq_ok, pure_eq_ok] at h
      obtain ⟨m, -, rfl⟩ := h
      exact ⟨c, hc, .inr (.inr hmade)⟩
  | some d => exact block_origin (hbody d rfl) h

/-- **Items are made** from their nodes. -/
theorem item_origin {c : Concrete} (hc : c ∈ root.walk) {n : Node}
    (h : item src c = .ok (some n)) : n.Origin src root := by
  rw [item_eq] at h
  cases hform : c.itemForm
  all_goals simp only [hform] at h
  case rule =>
    have hmade := map_some_eq_ok.1 h
    obtain ⟨p, -, b, -, m, -, rfl⟩ := ruleOf_eq_ok.1 hmade
    exact ⟨c, hc, .inl hmade⟩
  case declaration =>
    have hmade := map_some_eq_ok.1 h
    obtain ⟨value, -, m, -, rfl⟩ := declarationNode_eq_ok.1 hmade
    exact ⟨c, hc, hform, hmade⟩
  case atrule =>
    have hmade := map_some_eq_ok.1 h
    have hparts := hmade
    simp only [atruleNode, bind_eq_ok, pure_eq_ok] at hparts
    obtain ⟨parts, -, prelude, -, m, -, rfl⟩ := hparts
    exact ⟨c, hc, hmade⟩
  case nothing => cases pure_eq_ok.1 h
  case raw => exact (Source.raw_origin hc (map_some_eq_ok.1 h)).origin

theorem keyframe_origin {c : Concrete} (hc : c ∈ root.walk) {n : Node}
    (h : keyframe src c = .ok (some n)) : n.Origin src root := by
  rw [keyframe] at h
  split at h
  · have hmade := map_some_eq_ok.1 h
    obtain ⟨p, -, b, -, m, -, rfl⟩ := ruleOf_eq_ok.1 hmade
    exact ⟨c, hc, .inr hmade⟩
  · split at h
    · exact (Source.raw_origin hc (map_some_eq_ok.1 h)).origin
    · cases pure_eq_ok.1 h

/-- A declared value begins at an edge, also if it is empty. -/
theorem isEdge_valueStart {c : Concrete} (hc : c ∈ root.walk) : root.IsEdge c.valueStart := by
  rw [valueStart]
  split
  · rename_i colon rest hcolon
    have hmem : colon ∈ c.fromColon := hcolon ▸ List.mem_cons_self
    exact isEdge_stop
      (mem_walk_of_mem_significant hc ((List.dropWhile_sublist _).subset hmem))
  · exact isEdge_stop hc

end Concrete

/-! ## From a node to its children -/

namespace Node

variable {src : Source} {root : Concrete}

/-- The members of a group of values are made as values. -/
theorem Origin.members_of_values {m : Mark} {g : Group} {ns : List Node}
    (h : (group m g ns).Origin src root) (hg : g.holdsValues = true) :
    ∀ n ∈ ns, n.ValueOrigin src root := by
  cases g with
  | value =>
      obtain ⟨c, hc, h⟩ := h
      obtain ⟨members, hmembers, m', -, heq⟩ := valueNode_eq_ok.1 h
      obtain ⟨-, -, rfl⟩ := group.inj heq
      exact valuesOfAll_origin (fun d hd => mem_walk_of_mem_valueNodes hc hd) hmembers
  | function name =>
      obtain ⟨c, hc, h⟩ := h
      obtain ⟨members, hmembers, m', -, heq⟩ := callNode_eq_ok.1 h
      obtain ⟨-, -, rfl⟩ := group.inj heq
      have hds : ∀ d ∈ c.callArguments, d ∈ root.walk := fun d hd =>
        mem_walk_of_mem_callArguments hc hd
      exact callMembers_origin_of hds (fun d hd _ => values_origin d (hds d hd)) hmembers
  | parentheses | brackets =>
      obtain ⟨c, hc, -, h⟩ := h
      exact valuesOfAll_origin (fun d hd => mem_walk_of_mem_inner hc hd) h
  | atrulePrelude =>
      obtain ⟨c, hc, cs, hcs, h⟩ := h
      obtain ⟨members, m', hmembers, heq⟩ := preludeNode_eq_ok h
      obtain ⟨-, -, rfl⟩ := group.inj heq
      intro n hn
      obtain ⟨d, hd, made, hmade, hmem⟩ := mem_concat hmembers n hn
      exact preludeValues_origin (mem_walk_of_mem_significant hc (hcs.subset hd)) hmade n hmem
  | _ => cases hg

theorem Origin.members {m : Mark} {g : Group} {ns : List Node}
    (h : (group m g ns).Origin src root) : ∀ n ∈ ns, n.Origin src root := by
  cases g with
  | value | function | parentheses | brackets | atrulePrelude =>
      exact fun n hn => (h.members_of_values rfl n hn).origin
  | stylesheet =>
      simp only [Origin, stylesheet, bind_eq_ok, pure_eq_ok] at h
      obtain ⟨items, hitems, m', -, heq⟩ := h
      obtain ⟨-, -, rfl⟩ := group.inj heq
      intro n hn
      obtain ⟨d, hd, hitem⟩ := mem_present hitems n hn
      exact item_origin (mem_walk_of_mem_significant (self_mem_walk root) hd) hitem
  | block =>
      obtain ⟨c, hc, h | h | h⟩ := h
      · simp only [block_eq, bind_eq_ok, pure_eq_ok] at h
        obtain ⟨items, hitems, m', -, heq⟩ := h
        obtain ⟨-, -, rfl⟩ := group.inj heq
        intro n hn
        obtain ⟨d, hd, hitem⟩ := mem_present hitems n hn
        exact item_origin (mem_walk_of_mem_members hc hd) hitem
      · simp only [keyframes_eq, bind_eq_ok, pure_eq_ok] at h
        obtain ⟨rules, hrules, m', -, heq⟩ := h
        obtain ⟨-, -, rfl⟩ := group.inj heq
        intro n hn
        obtain ⟨d, hd, hrule⟩ := mem_present hrules n hn
        exact keyframe_origin (mem_walk_of_mem_significant hc hd) hrule
      · simp only [emptyBlock, bind_eq_ok, pure_eq_ok] at h
        obtain ⟨m', -, heq⟩ := h
        obtain ⟨-, -, rfl⟩ := group.inj heq
        exact fun n hn => by cases hn
  | selectorList =>
      obtain ⟨c, hc, h⟩ := h
      obtain ⟨selectors, hselectors, m', -, heq⟩ := selectorList_eq_ok.1 h
      obtain ⟨-, -, rfl⟩ := group.inj heq
      intro n hn
      obtain ⟨d, hd, hselector⟩ := mem_mapM hselectors n hn
      exact selectorNode_origin (mem_walk_of_mem_members hc hd) hselector
  | selector =>
      obtain ⟨c, hc, h⟩ := h
      obtain ⟨parts, hparts, m', -, heq⟩ := selectorNode_eq_ok.1 h
      obtain ⟨-, -, rfl⟩ := group.inj heq
      exact selectorParts_origin c hc hparts
  | pseudoClassSelector | pseudoElementSelector =>
      obtain ⟨c, hc, -, h⟩ := h
      rcases pseudoNode_cases h with h | ⟨name, members, heq, hmembers⟩
      · obtain ⟨m', -, heq⟩ := Source.leaf_eq_ok.1 h
        cases heq
      · obtain ⟨-, -, rfl⟩ := group.inj heq
        intro n hn
        obtain ⟨d, hd, harguments⟩ := hmembers n hn
        exact selectorArguments_origin (mem_walk_of_mem_trailing hc hd) harguments

/-- **The children of a node that is made are made.** -/
theorem Origin.children {n : Node} (h : n.Origin src root) :
    ∀ d ∈ n.children, d.Origin src root := by
  cases n with
  | leaf | comment => exact fun d hd => by cases hd
  | group m g ns => exact h.members
  | rule m prelude body =>
      obtain ⟨c, hc, h | h⟩ := h
      all_goals
        obtain ⟨p, hp, b, hb, m', -, heq⟩ := ruleOf_eq_ok.1 h
        obtain ⟨-, rfl, rfl⟩ := rule.inj heq
        intro d hd
        rcases List.mem_pair.1 hd with rfl | rfl
      · exact rulePrelude_origin hc hp
      · exact body_origin hc
          (fun d hd => mem_walk_of_mem_children hc (List.mem_of_find?_eq_some hd)) hb
      · exact keyframePrelude_origin hc hp
      · exact body_origin hc (fun d hd => mem_walk_of_mem_keyframeBody? hc hd) hb
  | atrule m name prelude body =>
      obtain ⟨c, hc, h⟩ := h
      obtain ⟨⟨cs, hcs, hprelude⟩, hbody⟩ := atruleNode_cases h
      intro d hd
      rcases List.mem_append.1 hd with hd | hd
      · obtain rfl := Option.mem_toList.1 hd
        obtain ⟨members, m', -, rfl⟩ := preludeNode_eq_ok hprelude
        exact ⟨c, hc, cs, hcs, hprelude⟩
      · obtain ⟨e, he, h | h⟩ := hbody d (Option.mem_toList.1 hd)
        · exact block_origin (mem_walk_of_mem_significant hc he) h
        · exact keyframes_origin (mem_walk_of_mem_significant hc he) h
  | declaration m property value important =>
      obtain ⟨c, hc, -, h⟩ := h
      obtain ⟨v, hv, m', -, heq⟩ := declarationNode_eq_ok.1 h
      obtain ⟨-, -, rfl, -⟩ := declaration.inj heq
      intro d hd
      obtain rfl := List.mem_singleton.1 hd
      rw [declaredValue] at hv
      split at hv
      · exact (Source.rawSpan_origin (fun d hd => mem_walk_of_mem_valueNodes hc hd)
          (isEdge_valueStart hc) hv).origin
      · have hmade := hv
        obtain ⟨members, -, m', -, rfl⟩ := valueNode_eq_ok.1 hv
        exact ⟨c, hc, hmade⟩
  | attributeSelector m name matcher value =>
      obtain ⟨c, hc, hm, h⟩ := h
      obtain ⟨name', value', heq, hvalue, hname⟩ := attributeNode_cases h
      obtain ⟨-, rfl, -, rfl⟩ := attributeSelector.inj heq
      intro d hd
      rcases List.mem_append.1 hd with hd | hd
      · obtain rfl := List.mem_singleton.1 hd
        rcases hname with ⟨e, he, hleaf⟩ | rfl
        · obtain ⟨m', hm', rfl⟩ := Source.leaf_eq_ok.1 hleaf
          exact ⟨e, mem_walk_of_mem_trailing hc he, .inl ⟨hm', rfl⟩⟩
        · exact ⟨c, hc, .inr ⟨hm, rfl⟩⟩
      · obtain rfl := Option.mem_toList.1 hd
        obtain ⟨e, he, others, hvalues⟩ := exists_values_of_attributeValue hvalue
        exact (values_origin e (mem_walk_of_mem_trailing hc he) hvalues d List.mem_cons_self).origin

theorem Origin.everywhere {n : Node} (h : n.Origin src root) :
    n.Everywhere (Origin src root) := by
  induction n using induction_children with
  | h n ih => exact everywhere_iff.2 ⟨h, fun c hc => ih c hc (h.children c hc)⟩

end Node

/-- **Every node of the tree is made** from nodes of the concrete tree. -/
theorem Concrete.stylesheet_origin {src : Source} {c : Concrete} {n : Node}
    (h : stylesheet src c = .ok n) : n.Everywhere (Node.Origin src c) := by
  have hmade := h
  simp only [stylesheet, bind_eq_ok, pure_eq_ok] at h
  obtain ⟨items, -, m, -, rfl⟩ := h
  exact Node.Origin.everywhere hmade

/-! ## Declarations and at-rules -/

namespace Node

variable {src : Source} {root : Concrete}

/-- A node as it can stand in a tree made from a concrete tree. -/
def Shaped (src : Source) (root : Concrete) : Node → Prop
  | leaf .. | group .. | attributeSelector .. | rule .. => True
  | atrule _ _ prelude block =>
    (∀ p ∈ prelude, p.members?.isSome) ∧ ∀ b ∈ block, b.members?.isSome
  | declaration m property value important =>
    ∃ c ∈ root.walk, c.itemForm = .declaration
      ∧ c.declarationNode src = .ok (declaration m property value important)
  | comment .. => False

theorem Origin.shaped {n : Node} (h : n.Origin src root) : n.Shaped src root := by
  cases n with
  | atrule m name prelude body =>
      obtain ⟨c, hc, h⟩ := h
      obtain ⟨⟨cs, hcs, hprelude⟩, hbody⟩ := atruleNode_cases h
      refine ⟨fun p hp => ?_, fun b hb => ?_⟩
      · obtain rfl := Option.mem_def.1 hp
        obtain ⟨members, m', -, rfl⟩ := preludeNode_eq_ok hprelude
        rfl
      · obtain ⟨d, -, h | h⟩ := hbody b hb
        · simp only [block_eq, bind_eq_ok, pure_eq_ok] at h
          obtain ⟨items, -, m', -, rfl⟩ := h
          rfl
        · simp only [keyframes_eq, bind_eq_ok, pure_eq_ok] at h
          obtain ⟨rules, -, m', -, rfl⟩ := h
          rfl
  | declaration | comment => exact h
  | leaf | group | rule | attributeSelector => trivial

end Node

/-- **Every node of the tree is shaped** that a concrete tree makes. -/
theorem Concrete.stylesheet_shaped {src : Source} {c : Concrete} {n : Node}
    (h : stylesheet src c = .ok n) : n.Everywhere (Node.Shaped src c) :=
  (stylesheet_origin h).imp fun _ => Node.Origin.shaped

end Stylesheet
