/-
Nodes lie in their parents.

A builder gives what it makes the range of a node of the concrete tree, or one put together of the
ranges of its children: from a marker to the end, from the first node of a value to the last, or an
octet where something is missing. So it is enough to know of each builder that what it makes lies in
its node (`…_between`), and only selectors are gone through by induction. The children of a node of
the tree are then compared with the node itself, one kind after the other
(`Origin.nested_or_detached`).

One kind fails. A declaration ends before its semicolon, and an empty value without a colon to stand
behind is put at the end of the node, behind the semicolon (`Concrete.IsDetached`). Such a
declaration does not reach its own value, and it is the only node that does not reach its children.
-/
import Stylesheet.Proofs.ParsedTree
import Stylesheet.Proofs.WellNested

set_option autoImplicit false

namespace Stylesheet

open Made

namespace Node

/-! ## Nodes in nodes

A location is made from octets, which the ruler takes to characters in order. So a node with a
mark on a range lies between all octets around that range, and the only question about two nodes
is the order of their octets. -/

/-- A node lies between two octets of a source. -/
def Between (src : Source) (lo hi : Int) (n : Node) : Prop :=
  n.Within (src.ruler.charOffset lo) (src.ruler.charOffset hi)

/-- A node has a location, and its children lie in it. -/
def Nested (n : Node) : Prop :=
  ∃ loc, n.loc = some loc ∧ ∀ c ∈ n.children, c.Within loc.start.offset loc.stop.offset

theorem Between.mono {src : Source} {lo lo' hi hi' : Int} {n : Node} (h : n.Between src lo hi)
    (hlo : lo' ≤ lo) (hhi : hi ≤ hi') : n.Between src lo' hi' :=
  Within.mono h (src.ruler.charOffset_mono hlo) (src.ruler.charOffset_mono hhi)

theorem Tight.nested {n : Node} (h : n.Tight) : n.Nested := by
  obtain ⟨loc, hloc, hrow⟩ := h
  exact ⟨loc, hloc, hrow.1⟩

theorem nested_bare (n : Node) : n.bare.Nested ↔ n.Nested := by
  simp only [Nested, loc_bare, children_bare, List.forall_mem_map, within_bare]

end Node

namespace Source

variable {src : Source} {start stop lo hi : Int} {c : Concrete} {n : Node}

theorem between_of_markAt (h : src.markAt start stop = .ok n.mark) (hlo : lo ≤ start)
    (hhi : stop ≤ hi) : n.Between src lo hi :=
  within_of_markAt h rfl hlo hhi

theorem between_of_mark (h : src.mark c = .ok n.mark) : n.Between src c.start c.stop :=
  between_of_markAt h (Int.le_refl _) (Int.le_refl _)

theorem nested_of_markAt (h : src.markAt start stop = .ok n.mark)
    (hchildren : ∀ d ∈ n.children, d.Between src start stop) : n.Nested := by
  obtain ⟨loc, hloc, hstart, hstop⟩ := markAt_eq_ok h
  refine ⟨loc, hloc, ?_⟩
  rw [hstart, hstop]
  exact hchildren

theorem tight_of_markAt (h : src.markAt start stop = .ok n.mark)
    (hrow : Node.Row (src.ruler.charOffset start) (src.ruler.charOffset stop) n.children) :
    n.Tight := by
  obtain ⟨loc, hloc, hstart, hstop⟩ := markAt_eq_ok h
  refine ⟨loc, hloc, ?_⟩
  rw [hstart, hstop]
  exact hrow

theorem leaf_between {l : Leaf} (h : src.leaf c l = .ok n) : n.Between src c.start c.stop := by
  obtain ⟨m, hm, rfl⟩ := leaf_eq_ok.1 h
  exact between_of_mark hm

theorem rawAt_between (h : src.rawAt start stop = .ok n) (hlo : lo ≤ start) (hhi : stop ≤ hi) :
    n.Between src lo hi := by
  obtain ⟨m, hm, rfl⟩ := rawAt_eq_ok.1 h
  exact between_of_markAt hm hlo hhi

theorem emptyRaw_between {octet : Int} (h : src.emptyRaw octet = .ok n) (hlo : lo ≤ octet)
    (hhi : octet ≤ hi) : n.Between src lo hi := by
  obtain ⟨m, hm, rfl⟩ := emptyRaw_eq_ok.1 h
  exact between_of_markAt hm hlo hhi

end Source

namespace Concrete

variable {src : Source} {root : Concrete} {length : Nat}

/-! ## Selectors

What a builder of selectors makes lies in the concrete node that it was given: the parts of a
selector, the arguments of a pseudo selector, the combinator between two sides. -/

theorem WellNested.between (hnest : root.WellNested length) {c d : Concrete} (hc : c ∈ root.walk)
    (hd : d ∈ c.children) {n : Node} (h : n.Between src d.start d.stop) :
    n.Between src c.start c.stop := by
  have hin := (hnest.children c hc).1 d hd
  exact h.mono hin.1 hin.2.2

theorem WellNested.trailing (hnest : root.WellNested length) {c : Concrete} (hc : c ∈ root.walk) :
    c.start ≤ c.partStart ∧ c.partStart ≤ c.stop ∧ InRow c.partStart c.stop c.trailing := by
  have hrow := hnest.significant hc
  have hrange := hnest.range hc
  rw [Concrete.trailing, partStart]
  cases hmarker : c.fromMarker with
  | nil => exact ⟨Int.le_refl _, hrange.2.1, hrow⟩
  | cons marker rest =>
      have hfrom : InRow c.start c.stop (marker :: rest) := by
        rw [← hmarker]
        exact hrow.sublist (List.dropWhile_sublist _)
      obtain ⟨hlo, hle, hhi⟩ := hfrom.1 marker List.mem_cons_self
      have hrest := (@InRow.split _ _ [] rest marker hfrom).2
      exact ⟨hlo, Int.le_trans hle hhi, hrest.mono hle (Int.le_refl _)⟩

theorem selectorArguments_between (hnest : root.WellNested length) {c : Concrete}
    (hc : c ∈ root.walk) {n : Node} (h : selectorArguments src c = .ok n) :
    n.Between src c.start c.stop := by
  have hrow := hnest.significant hc
  unfold selectorArguments at h
  split at h
  · rename_i opening closing hopening hclosing
    have hfirst := hrow.1 opening (List.mem_of_find?_eq_some hopening)
    have hlast := hrow.1 closing (List.mem_reverse.1 (List.mem_of_find?_eq_some hclosing))
    apply Source.rawAt_between h <;> omega
  · exact Source.leaf_between h

theorem lastPart_between (hnest : root.WellNested length) {c : Concrete} (hc : c ∈ root.walk)
    {form : PartForm} {n : Node} (h : lastPart src c form = .ok n) :
    n.Between src c.start c.stop := by
  have hstart := (hnest.trailing hc).1
  obtain ⟨mark, hmark, h⟩ := lastPart_cases h
  have hmarked : n.mark = mark → n.Between src c.start c.stop := by
    rintro rfl
    exact Source.between_of_markAt hmark hstart (Int.le_refl _)
  rcases h with ⟨nameKind, leaf, h⟩ | ⟨group, h⟩ | h
  · rcases namedPart_cases h with h | ⟨d, -, rfl⟩
    · exact Source.leaf_between h
    · exact hmarked rfl
  · rcases pseudoNode_cases h with h | ⟨name, members, rfl, -⟩
    · exact Source.leaf_between h
    · exact hmarked rfl
  · obtain ⟨name, value, rfl, -, -⟩ := attributeNode_cases h
    exact hmarked rfl

theorem combinator_between (hnest : root.WellNested length) {c left right : Concrete}
    (hc : c ∈ root.walk) (hsides : c.sides? = some (left, right)) {mark : Mark}
    (hmark : combinatorMark src c left right = .ok mark) (name : String) :
    (Node.leaf mark (.combinator name)).Between src c.start c.stop := by
  have hrow := hnest.significant hc
  have hleft := hrow.1 left (mem_significant_of_sides? hsides).1
  have hright := hrow.1 right (mem_significant_of_sides? hsides).2
  unfold combinatorMark at hmark
  split at hmark
  · rename_i token htoken
    have hin := hrow.1 token (List.mem_of_find?_eq_some htoken)
    exact Source.between_of_markAt hmark hin.1 hin.2.2
  · apply Source.between_of_markAt hmark <;> omega

/-- **The parts of a selector lie in its node.** -/
theorem selectorParts_between (hnest : root.WellNested length) (c : Concrete) (hc : c ∈ root.walk)
    {ns : List Node} (h : selectorParts src c = .ok ns) :
    ∀ n ∈ ns, n.Between src c.start c.stop := by
  intro n hn
  rcases mem_selectorParts h hn with
    ⟨l, hleaf⟩ | ⟨left, right, mark, name, hsides, hmark, rfl⟩ | ⟨form, hlast⟩
    | ⟨d, hd, made, hmade, hmem⟩
  · exact Source.leaf_between hleaf
  · exact combinator_between hnest hc hsides hmark name
  · exact lastPart_between hnest hc hlast
  · have := sizeOf_lt_of_mem_significant hd
    -- what lies in a part below lies in the whole
    apply hnest.between hc (mem_children_of_mem_significant hd)
    exact selectorParts_between hnest d (mem_walk_of_mem_significant hc hd) hmade n hmem
termination_by sizeOf c

theorem mark_of_selectorNode {c : Concrete} {n : Node} (h : selectorNode src c = .ok n) :
    src.mark c = .ok n.mark := by
  obtain ⟨parts, -, m, hm, rfl⟩ := selectorNode_eq_ok.1 h
  exact hm

theorem mark_of_selectorList {c : Concrete} {n : Node} (h : selectorList src c = .ok n) :
    src.mark c = .ok n.mark := by
  obtain ⟨selectors, -, m, hm, rfl⟩ := selectorList_eq_ok.1 h
  exact hm

/-! ## Items

The same for rules, at-rules and their blocks. A block that a rule lacks is put at its end, and a
prelude that it lacks at its start, which both lie in it. -/

theorem mark_of_block {c : Concrete} {n : Node} (h : block src c = .ok n) :
    src.mark c = .ok n.mark := by
  simp only [block_eq, bind_eq_ok, pure_eq_ok] at h
  obtain ⟨items, -, m, hm, rfl⟩ := h
  exact hm

theorem mark_of_keyframes {c : Concrete} {n : Node} (h : keyframes src c = .ok n) :
    src.mark c = .ok n.mark := by
  simp only [keyframes_eq, bind_eq_ok, pure_eq_ok] at h
  obtain ⟨rules, -, m, hm, rfl⟩ := h
  exact hm

theorem rulePrelude_between (hnest : root.WellNested length) {c : Concrete} (hc : c ∈ root.walk)
    {n : Node} (h : rulePrelude src c = .ok n) : n.Between src c.start c.stop := by
  have hrange := hnest.range hc
  unfold rulePrelude at h
  split at h
  · rename_i selectors hselectors
    apply hnest.between hc (List.mem_of_find?_eq_some hselectors)
    exact Source.between_of_mark (mark_of_selectorList h)
  · exact Source.emptyRaw_between h (Int.le_refl _) hrange.2.1

theorem keyframePrelude_between (hnest : root.WellNested length) {c : Concrete}
    (hc : c ∈ root.walk) {n : Node} (h : keyframePrelude src c = .ok n) :
    n.Between src c.start c.stop := by
  have hrange := hnest.range hc
  unfold keyframePrelude at h
  split at h
  · rename_i selector hselector
    apply hnest.between hc (mem_children_of_mem_significant (List.mem_of_find?_eq_some hselector))
    exact Source.leaf_between h
  · exact Source.emptyRaw_between h (Int.le_refl _) hrange.2.1

/-- The block of a rule lies in it, also if it is put at its end. -/
theorem body_between (hnest : root.WellNested length) {c : Concrete} (hc : c ∈ root.walk)
    {body : Option Concrete} (hbody : ∀ d ∈ body, d ∈ c.children) {n : Node}
    (h : (body.map (block src)).getD (emptyBlock src c.stop) = .ok n) :
    n.Between src c.start c.stop := by
  cases body with
  | none =>
      have hrange := hnest.range hc
      simp only [Option.map_none, Option.getD_none, emptyBlock, bind_eq_ok, pure_eq_ok] at h
      obtain ⟨m, hm, rfl⟩ := h
      exact Source.between_of_markAt hm hrange.2.1 (Int.le_refl _)
  | some d =>
      apply hnest.between hc (hbody d rfl)
      exact Source.between_of_mark (mark_of_block h)

theorem item_between (hnest : root.WellNested length) {c : Concrete} (hc : c ∈ root.walk)
    {n : Node} (h : item src c = .ok (some n)) : n.Between src c.start c.stop := by
  rw [item_eq] at h
  cases hform : c.itemForm
  all_goals simp only [hform] at h
  case rule =>
    obtain ⟨p, -, b, -, m, hm, rfl⟩ := ruleOf_eq_ok.1 (map_some_eq_ok.1 h)
    exact Source.between_of_mark hm
  case declaration =>
    obtain ⟨value, -, m, hm, rfl⟩ := declarationNode_eq_ok.1 (map_some_eq_ok.1 h)
    exact Source.between_of_markAt hm (Int.le_refl _) (hnest.declarationStop hc).2
  case atrule =>
    have hmade := map_some_eq_ok.1 h
    simp only [atruleNode, bind_eq_ok, pure_eq_ok] at hmade
    obtain ⟨parts, -, prelude, -, m, hm, rfl⟩ := hmade
    exact Source.between_of_mark hm
  case nothing => cases pure_eq_ok.1 h
  case raw => exact Source.leaf_between (map_some_eq_ok.1 h)

theorem keyframe_between {c : Concrete} {n : Node} (h : keyframe src c = .ok (some n)) :
    n.Between src c.start c.stop := by
  unfold keyframe at h
  split at h
  · obtain ⟨p, -, b, -, m, hm, rfl⟩ := ruleOf_eq_ok.1 (map_some_eq_ok.1 h)
    exact Source.between_of_mark hm
  · split at h
    · exact Source.leaf_between (map_some_eq_ok.1 h)
    · cases pure_eq_ok.1 h

/-! ## Declarations -/

/-- A declaration without a colon that ends before its node does. Its value, which is empty, is put
at the end of the node. -/
def IsDetached (src : Source) (c : Concrete) : Prop :=
  c.fromColon = [] ∧ src.ruler.charOffset c.declarationStop < src.ruler.charOffset c.stop

instance (src : Source) (c : Concrete) : Decidable (c.IsDetached src) :=
  decidable_of_iff (c.fromColon.isEmpty = true
      ∧ src.ruler.charOffset c.declarationStop < src.ruler.charOffset c.stop)
    (by rw [IsDetached, List.isEmpty_iff])

theorem mark_of_declaredValue {c : Concrete} (hcolon : c.fromColon = []) {value : Node}
    (h : declaredValue src c = .ok value) : src.markAt c.stop c.stop = .ok value.mark := by
  have hnodes : c.valueNodes = [] := by rw [valueNodes, hcolon, List.tail_nil, List.filter_nil]
  have hstart : c.valueStart = c.stop := by rw [valueStart, hcolon]
  rw [declaredValue, hnodes, hstart] at h
  split at h
  · obtain ⟨m, hm, rfl⟩ := Source.emptyRaw_eq_ok.1 h
    exact hm
  · obtain ⟨members, -, m, hm, rfl⟩ := valueNode_eq_ok.1 h
    exact hm

/-- With a colon the value of a declaration lies before its semicolon. -/
theorem declaredValue_between (hnest : root.WellNested length) {c : Concrete} (hc : c ∈ root.walk)
    (hcolon : c.fromColon ≠ []) {value : Node} (h : declaredValue src c = .ok value) :
    value.Between src c.start c.declarationStop := by
  have hrow : InRow c.start c.declarationStop c.valueNodes := by
    refine ⟨fun d hd => ?_, (hnest.valueNodes hc).2⟩
    have hin := (hnest.valueNodes hc).1 d hd
    have hkind := (List.mem_filter.1 hd).2
    rw [Bool.and_eq_true, bne_iff_ne] at hkind
    have hsig := (List.dropWhile_sublist _).subset
      ((List.tail_sublist _).subset (List.mem_filter.1 hd).1)
    exact ⟨hin.1, hin.2.1, hnest.stop_le_declarationStop hc hsig hkind.1⟩
  have hstart : c.valueStart ≤ c.declarationStop := by
    rw [valueStart]
    cases hfrom : c.fromColon with
    | nil => exact absurd hfrom hcolon
    | cons colon rest =>
        have hsig : colon ∈ c.significant := by
          apply (List.dropWhile_sublist fun d : Concrete => d.kind != ":").subset
          show colon ∈ c.fromColon
          rw [hfrom]
          exact List.mem_cons_self
        have hkind : colon.kind = ":" := by
          have hhead := List.head?_dropWhile_not (fun d : Concrete => d.kind != ":") c.significant
          rw [← fromColon, hfrom] at hhead
          simpa using hhead
        apply hnest.stop_le_declarationStop hc hsig
        rw [hkind]
        decide
  exact (laid_declaredValue_of_row hnest hc hrow (hnest.valueStart hc).1 hstart h).1.1 value
    (List.mem_singleton_self value)

/-- **A detached declaration does not reach its value.** -/
theorem not_nested_of_isDetached {c : Concrete} (hdetached : c.IsDetached src) {n : Node}
    (h : declarationNode src c = .ok n) : ¬ n.Nested := by
  obtain ⟨value, hvalue, m, hm, rfl⟩ := declarationNode_eq_ok.1 h
  obtain ⟨loc, hloc, -, hstop⟩ := Source.markAt_eq_ok hm
  obtain ⟨loc', hloc', -, hstop'⟩ := Source.markAt_eq_ok (mark_of_declaredValue hdetached.1 hvalue)
  rintro ⟨l, hl, hchildren⟩
  obtain rfl := Option.some.inj (hl.symm.trans hloc)
  obtain ⟨l', hl', -, hle⟩ := hchildren value (List.mem_singleton_self value)
  obtain rfl := Option.some.inj (hl'.symm.trans hloc')
  have hlt := hdetached.2
  omega

theorem nested_of_not_isDetached (hnest : root.WellNested length) {c : Concrete}
    (hc : c ∈ root.walk) (hdetached : ¬ c.IsDetached src) {n : Node}
    (h : declarationNode src c = .ok n) : n.Nested := by
  obtain ⟨value, hvalue, m, hm, rfl⟩ := declarationNode_eq_ok.1 h
  apply Source.nested_of_markAt hm
  intro d hd
  rw [List.mem_singleton.1 hd]
  by_cases hcolon : c.fromColon = []
  · -- the value is put at the end of the node, and the declaration ends no earlier
    have hle : src.ruler.charOffset c.stop ≤ src.ruler.charOffset c.declarationStop := by
      have hnot : ¬ src.ruler.charOffset c.declarationStop < src.ruler.charOffset c.stop :=
        fun hlt => hdetached ⟨hcolon, hlt⟩
      omega
    have hend : value.Between src c.start c.stop :=
      Source.between_of_markAt (mark_of_declaredValue hcolon hvalue) (hnest.range hc).2.1
        (Int.le_refl _)
    exact Node.Within.mono hend (Int.le_refl _) hle
  · exact declaredValue_between hnest hc hcolon hvalue

end Concrete

/-! ## From a node to its children

For every kind of node its children are looked at once, by what they were made from. They lie in
the node, but for a declaration that is detached, and groups of values or of items even have
theirs in a row. -/

/-- Groups whose members are items. -/
def Group.holdsItems : Group → Bool
  | .stylesheet | .block => true
  | .value | .function _ | .parentheses | .brackets | .atrulePrelude | .selectorList | .selector
  | .pseudoClassSelector _ | .pseudoElementSelector _ => false

namespace Node

open Concrete

variable {src : Source} {root : Concrete}

theorem tight_of_laid {lo hi : Int} {n : Node} (h : Laid src lo hi [n]) : n.Tight :=
  h.2 n (List.mem_singleton_self n) n (self_mem_preorder n)

/-- **Values stand in a row** in the group that holds them. -/
theorem Origin.tight_of_holdsValues {length : Nat} (hnest : root.WellNested length) {m : Mark}
    {g : Group} {ns : List Node} (h : (group m g ns).Origin src root)
    (hg : g.holdsValues = true) : (group m g ns).Tight := by
  cases g with
  | value =>
      obtain ⟨c, hc, h⟩ := h
      have hstart := hnest.valueStart hc
      exact tight_of_laid (laid_valueNode hnest (fun d hd => mem_walk_of_mem_valueNodes hc hd)
        (hnest.valueNodes hc) hstart.1 hstart.2 h)
  | function name =>
      obtain ⟨c, hc, h⟩ := h
      obtain ⟨members, hmembers, m', hm, heq⟩ := callNode_eq_ok.1 h
      have hlaid := laid_callMembers (hnest.callArguments hc)
        (fun d hd ns => laid_values hnest d (mem_walk_of_mem_callArguments hc hd)) hmembers
      rw [← heq]
      exact tight_of_laid (laid_group hm hlaid)
  | parentheses | brackets =>
      obtain ⟨c, hc, hm, h⟩ := h
      have hlaid := laid_valuesOfAll hnest (fun d hd => mem_walk_of_mem_inner hc hd)
        (hnest.inner hc) h
      exact tight_of_laid (laid_group hm hlaid)
  | atrulePrelude =>
      obtain ⟨c, hc, cs, hcs, h⟩ := h
      exact tight_of_laid (laid_preludeNode hnest
        (fun d hd => mem_walk_of_mem_significant hc (hcs.subset hd))
        ((hnest.significant hc).sublist hcs) h)
  | _ => cases hg

/-- **Items stand in a row** in the stylesheet or the block that holds them. -/
theorem Origin.tight_of_holdsItems (hnest : root.WellNested src.octets.length) {m : Mark}
    {g : Group} {ns : List Node} (h : (group m g ns).Origin src root)
    (hg : g.holdsItems = true) : (group m g ns).Tight := by
  cases g with
  | stylesheet =>
      simp only [Origin, stylesheet, bind_eq_ok, pure_eq_ok] at h
      obtain ⟨items, hitems, m', hm, heq⟩ := h
      have hroot := self_mem_walk root
      have hrow := (hnest.significant hroot).mono hnest.start_nonneg hnest.stop_le
      rw [← heq]
      exact Source.tight_of_markAt hm (row_present hrow
        (fun d hd n => item_between hnest (mem_walk_of_mem_significant hroot hd)) hitems)
  | block =>
      obtain ⟨c, hc, h | h | h⟩ := h
      · simp only [block_eq, bind_eq_ok, pure_eq_ok] at h
        obtain ⟨items, hitems, m', hm, heq⟩ := h
        rw [← heq]
        exact Source.tight_of_markAt hm (row_present (hnest.members hc)
          (fun d hd n => item_between hnest (mem_walk_of_mem_members hc hd)) hitems)
      · simp only [keyframes_eq, bind_eq_ok, pure_eq_ok] at h
        obtain ⟨rules, hrules, m', hm, heq⟩ := h
        rw [← heq]
        exact Source.tight_of_markAt hm (row_present (hnest.significant hc)
          (fun d _ n => keyframe_between) hrules)
      · simp only [emptyBlock, bind_eq_ok, pure_eq_ok] at h
        obtain ⟨m', hm, heq⟩ := h
        rw [← heq]
        exact Source.tight_of_markAt hm (row_nil _ _)
  | _ => cases hg

/-- **The members of a group lie in it.** -/
theorem Origin.nested_group (hnest : root.WellNested src.octets.length) {m : Mark} {g : Group}
    {ns : List Node} (h : (group m g ns).Origin src root) : (group m g ns).Nested := by
  cases g with
  | value | function | parentheses | brackets | atrulePrelude =>
      exact (h.tight_of_holdsValues hnest rfl).nested
  | stylesheet | block => exact (h.tight_of_holdsItems hnest rfl).nested
  | selectorList =>
      obtain ⟨c, hc, h⟩ := h
      apply Source.nested_of_markAt (mark_of_selectorList h)
      obtain ⟨selectors, hselectors, m', -, heq⟩ := selectorList_eq_ok.1 h
      obtain ⟨-, -, rfl⟩ := group.inj heq
      intro n hn
      obtain ⟨d, hd, hselector⟩ := mem_mapM hselectors n hn
      apply hnest.between hc (mem_children_of_mem_significant (List.mem_filter.1 hd).1)
      exact Source.between_of_mark (mark_of_selectorNode hselector)
  | selector =>
      obtain ⟨c, hc, h⟩ := h
      apply Source.nested_of_markAt (mark_of_selectorNode h)
      obtain ⟨parts, hparts, m', -, heq⟩ := selectorNode_eq_ok.1 h
      obtain ⟨-, -, rfl⟩ := group.inj heq
      exact selectorParts_between hnest c hc hparts
  | pseudoClassSelector | pseudoElementSelector =>
      obtain ⟨c, hc, hm, h⟩ := h
      apply Source.nested_of_markAt hm
      rcases pseudoNode_cases h with h | ⟨name, members, heq, hmembers⟩
      · obtain ⟨m', -, heq⟩ := Source.leaf_eq_ok.1 h
        cases heq
      · obtain ⟨-, -, rfl⟩ := group.inj heq
        intro n hn
        obtain ⟨d, hd, harguments⟩ := hmembers n hn
        have hin := (hnest.trailing hc).2.2.1 d hd
        have hbetween := selectorArguments_between hnest (mem_walk_of_mem_trailing hc hd) harguments
        exact hbetween.mono hin.1 hin.2.2

theorem Origin.nested_rule {length : Nat} (hnest : root.WellNested length) {m : Mark}
    {prelude body : Option Node} (h : (rule m prelude body).Origin src root) :
    (rule m prelude body).Nested := by
  obtain ⟨c, hc, h | h⟩ := h
  all_goals
    obtain ⟨p, hp, b, hb, m', hm, heq⟩ := ruleOf_eq_ok.1 h
    obtain ⟨rfl, rfl, rfl⟩ := rule.inj heq
    refine Source.nested_of_markAt hm ?_
    intro d hd
    rcases List.mem_pair.1 hd with rfl | rfl
  · exact rulePrelude_between hnest hc hp
  · exact body_between hnest hc (fun d hd => List.mem_of_find?_eq_some hd) hb
  · exact keyframePrelude_between hnest hc hp
  · exact body_between hnest hc
      (fun d hd => mem_children_of_mem_significant (List.mem_of_find?_eq_some hd)) hb

theorem Origin.nested_atrule {length : Nat} (hnest : root.WellNested length) {m : Mark}
    {name : String} {prelude body : Option Node}
    (h : (atrule m name prelude body).Origin src root) : (atrule m name prelude body).Nested := by
  obtain ⟨c, hc, h⟩ := h
  have hm : src.mark c = .ok m := by
    simp only [atruleNode, bind_eq_ok, pure_eq_ok] at h
    obtain ⟨parts, -, made, -, m', hm, heq⟩ := h
    obtain ⟨rfl, -, -, -⟩ := atrule.inj heq
    exact hm
  obtain ⟨⟨cs, hcs, hprelude⟩, hbody⟩ := atruleNode_cases h
  refine Source.nested_of_markAt hm ?_
  intro d hd
  rcases List.mem_append.1 hd with hd | hd
  · obtain rfl := Option.mem_toList.1 hd
    have hlaid := laid_preludeNode hnest
      (fun e he => mem_walk_of_mem_significant hc (hcs.subset he))
      ((hnest.significant hc).sublist hcs) hprelude
    exact hlaid.1.1 d (List.mem_singleton_self d)
  · obtain ⟨e, he, h⟩ := hbody d (Option.mem_toList.1 hd)
    have hmark : src.mark e = .ok d.mark := h.elim mark_of_block mark_of_keyframes
    apply hnest.between hc (mem_children_of_mem_significant he)
    exact Source.between_of_mark hmark

theorem Origin.nested_attributeSelector {length : Nat} (hnest : root.WellNested length) {m : Mark}
    {name : Option Node} {matcher : Option String} {value : Option Node}
    (h : (attributeSelector m name matcher value).Origin src root) :
    (attributeSelector m name matcher value).Nested := by
  obtain ⟨c, hc, hm, h⟩ := h
  have hrow := (hnest.trailing hc).2.2
  obtain ⟨name', value', heq, hvalue, hname⟩ := attributeNode_cases h
  obtain ⟨-, rfl, -, rfl⟩ := attributeSelector.inj heq
  apply Source.nested_of_markAt hm
  intro d hd
  rcases List.mem_append.1 hd with hd | hd
  · rw [List.mem_singleton.1 hd]
    rcases hname with ⟨e, he, hleaf⟩ | rfl
    · have hin := hrow.1 e he
      exact (Source.leaf_between hleaf).mono hin.1 hin.2.2
    · exact Source.between_of_markAt hm (Int.le_refl _) (Int.le_refl _)
  · obtain rfl := Option.mem_toList.1 hd
    obtain ⟨e, he, others, hvalues⟩ := exists_values_of_attributeValue hvalue
    have hin := hrow.1 e he
    have hlaid := laid_values hnest e (mem_walk_of_mem_trailing hc he) hvalues
    exact (hlaid.mono hin.1 hin.2.2).1.1 d List.mem_cons_self

/-- A node is made from a declaration that does not reach its value. -/
def Detached (src : Source) (root : Concrete) (n : Node) : Prop :=
  ∃ c ∈ root.walk, c.itemForm = .declaration ∧ c.IsDetached src
    ∧ ∃ made, declarationNode src c = .ok made ∧ made.bare = n.bare

/-- **From a node to its children**: they lie in it, unless it is detached. -/
theorem Origin.nested_or_detached (hnest : root.WellNested src.octets.length) {n : Node}
    (h : n.Origin src root) (hloc : ∃ loc, n.loc = some loc) :
    n.Nested ∨ n.Detached src root := by
  cases n with
  | leaf m l =>
      obtain ⟨loc, hloc⟩ := hloc
      exact .inl ⟨loc, hloc, fun c hc => by cases hc⟩
  | group m g ns => exact .inl (h.nested_group hnest)
  | rule m prelude body => exact .inl (h.nested_rule hnest)
  | atrule m name prelude body => exact .inl (h.nested_atrule hnest)
  | declaration m property value important =>
      obtain ⟨c, hc, hform, h⟩ := h
      by_cases hdetached : c.IsDetached src
      · exact .inr ⟨c, hc, hform, hdetached, _, h, rfl⟩
      · exact .inl (nested_of_not_isDetached hnest hc hdetached h)
  | attributeSelector m name matcher value => exact .inl (h.nested_attributeSelector hnest)
  | comment => exact h.elim

theorem Detached.not_nested {n : Node} (h : n.Detached src root) : ¬ n.Nested := by
  obtain ⟨c, -, -, hdetached, made, hmade, hbare⟩ := h
  rw [← nested_bare, ← hbare, nested_bare]
  exact not_nested_of_isDetached hdetached hmade

/-- The children of a node of the text lie in the text, whether they lie in the node or not. -/
theorem Origin.children_between (hnest : root.WellNested src.octets.length) {n : Node}
    (h : n.Origin src root) (hn : n.Between src 0 src.octets.length) :
    ∀ d ∈ n.children, d.Between src 0 src.octets.length := by
  obtain ⟨loc, hloc, hstart, hstop⟩ := hn
  rcases h.nested_or_detached hnest ⟨loc, hloc⟩ with hnested | ⟨c, hc, -, -, made, hmade, hbare⟩
  · obtain ⟨loc', hloc', hchildren⟩ := hnested
    obtain rfl := Option.some.inj (hloc.symm.trans hloc')
    intro d hd
    exact (hchildren d hd).mono hstart hstop
  · obtain ⟨value, hvalue, m, -, rfl⟩ := declarationNode_eq_ok.1 hmade
    have hrange := hnest.range hc
    have hlaid := (laid_declaredValue hnest hc hvalue).mono hrange.1 hrange.2.2
    intro d hd
    -- the one child of the declaration is the value, but for identities
    have hmem : d.bare ∈ n.children.map bare := List.mem_map_of_mem hd
    rw [← children_bare, ← hbare, children_bare] at hmem
    apply (within_bare d).1
    rw [List.mem_singleton.1 hmem]
    exact (within_bare value).2 (hlaid.1.1 value (List.mem_singleton_self value))

theorem Origin.everywhere_between (hnest : root.WellNested src.octets.length) {n : Node}
    (h : n.Origin src root) (hn : n.Between src 0 src.octets.length) :
    n.Everywhere (Between src 0 src.octets.length) := by
  induction n using induction_children with
  | h n ih =>
      refine everywhere_iff.2 ⟨hn, ?_⟩
      intro c hc
      exact ih c hc (h.children c hc) (h.children_between hnest hn c hc)

end Node

/-! ## The tree of a text -/

/-- **Every node of the tree lies in the text.** -/
theorem Concrete.stylesheet_between {src : Source} {c : Concrete}
    (hnest : c.WellNested src.octets.length) {n : Node} (h : stylesheet src c = .ok n) :
    n.Everywhere (Node.Between src 0 src.octets.length) := by
  have horigin := stylesheet_origin h n (Node.self_mem_preorder n)
  apply horigin.everywhere_between hnest
  simp only [stylesheet, bind_eq_ok, pure_eq_ok] at h
  obtain ⟨items, -, m, hm, rfl⟩ := h
  exact Source.between_of_markAt hm (Int.le_refl _) (Int.le_refl _)

namespace Language

variable {grammar : String → Option Concrete} {text : String} {path : Option Path} {c : Concrete}
  {r : Parsed Diagnostic}

/-- **Locations nest.** Every node of the tree that is read of a text has a location in the text,
and its children lie in it exactly if it was not made from a detached declaration. -/
theorem parseText_nested (hgrammar : grammar text = some c)
    (hnest : c.WellNested (Text.Utf8.encode text.toList).length)
    (hread : parseText grammar text path = .ok r) :
    ∃ tree, r.tree = some tree ∧ ∀ n ∈ tree.preorder,
      n.Within 0 text.toList.length ∧ (n.Nested ↔ ¬ n.Detached (.ofText text) c) := by
  obtain ⟨tree, hmade, htree, -⟩ := parseText_tree hgrammar hread
  refine ⟨tree.numbered, htree, ?_⟩
  intro n hn
  -- the node before it was numbered
  obtain ⟨e, he, hbare⟩ := Node.exists_bare_eq_of_mem_numbered hn
  have hbetween := Concrete.stylesheet_between hnest hmade e he
  have ⟨loc, hloc, _⟩ := hbetween
  have hwithin : e.Within 0 text.toList.length :=
    Node.Within.mono hbetween (Ruler.charOffset_nonneg _ (Int.le_refl 0))
      (Ruler.charOffset_le (Int.le_refl _))
  have hcases := (Concrete.stylesheet_origin hmade e he).nested_or_detached hnest ⟨loc, hloc⟩
  refine ⟨?_, ?_, ?_⟩
  · rw [← Node.within_bare, ← hbare, Node.within_bare]
    exact hwithin
  · intro hnested hdetached
    exact hdetached.not_nested hnested
  · intro hdetached
    rw [← Node.nested_bare, ← hbare, Node.nested_bare]
    rcases hcases with hnested | ⟨d, hd, hform, his, made, hmade', heq⟩
    · exact hnested
    · exact absurd ⟨d, hd, hform, his, made, hmade', heq.trans hbare⟩ hdetached

section Semicolon

/-- The concrete tree of a rule with one declaration, in which a colon, which has no text of its own
if it is missing, stands between the property and its value. -/
private def semicolonTree (colon : Concrete) : Concrete :=
  .node "stylesheet" 0 7 true false [.node "rule_set" 0 7 true false
    [.node "selectors" 0 1 true false [.node "tag_name" 0 1 true false []],
      .node "block" 1 7 true false
        [.node "\x7b" 1 2 false false [],
          .node "declaration" 2 6 true false
            [.node "property_name" 2 3 true false [], colon,
              .node "integer_value" 4 5 true false [], .node ";" 5 6 false false []],
          .node "\x7d" 6 7 false false []]]]

/-- The tree of `a` with `b:1;` in its block. -/
private def colonTree : Concrete := semicolonTree (.node ":" 3 4 false false [])

/-- The tree of `a` with `b 1;` in its block. -/
private def missingColonTree : Concrete := semicolonTree (.node ":" 3 3 false true [])

/-- With its colon the declaration has its value in it, as all nodes of the tree have their
children. -/
theorem parseText_nested_colon :
    colonTree.WellNested (Text.Utf8.encode "a\x7bb:1;\x7d".toList).length
      ∧ ∃ r tree, parseText (fun _ => some colonTree) "a\x7bb:1;\x7d" none = .ok r
        ∧ r.tree = some tree ∧ ∀ n ∈ tree.preorder, n.Within 0 7 ∧ n.Nested := by
  have hnest : colonTree.WellNested (Text.Utf8.encode "a\x7bb:1;\x7d".toList).length := by
    decide +kernel
  have hnone : ∀ d ∈ colonTree.walk, d.itemForm = .declaration →
      ¬ d.IsDetached (.ofText "a\x7bb:1;\x7d") := by
    decide +kernel
  have hrun : (treeOf? colonTree "a\x7bb:1;\x7d").isSome := by decide +kernel
  obtain ⟨tree, htree⟩ := Option.isSome_iff_exists.1 hrun
  obtain ⟨r, hread, hr⟩ := treeOf?_eq_some htree
  obtain ⟨tree', hr', hnested⟩ := parseText_nested rfl hnest hread
  obtain rfl := Option.some.inj (hr.symm.trans hr')
  refine ⟨hnest, r, tree, hread, hr, ?_⟩
  intro n hn
  have hlength : "a\x7bb:1;\x7d".toList.length = 7 := by decide
  obtain ⟨hwithin, hiff⟩ := hnested n hn
  rw [hlength] at hwithin
  refine ⟨hwithin, hiff.2 ?_⟩
  rintro ⟨d, hd, hform, hdetached, -⟩
  exact hnone d hd hform hdetached

/-- **Without the colon the value lies behind its declaration**: the semicolon is no part of the
declaration, and the value is put behind the semicolon. -/
theorem parseText_missingColon :
    missingColonTree.WellNested (Text.Utf8.encode "a\x7bb 1;\x7d".toList).length
      ∧ ∃ r tree, parseText (fun _ => some missingColonTree) "a\x7bb 1;\x7d" none = .ok r
        ∧ r.tree = some tree ∧ ∃ d ∈ tree.preorder, ∃ value ∈ d.children,
          d.range? = some (2, 5) ∧ value.range? = some (6, 6) ∧ ¬ d.Nested := by
  have hnest : missingColonTree.WellNested (Text.Utf8.encode "a\x7bb 1;\x7d".toList).length := by
    decide +kernel
  have hrun : (treeOf? missingColonTree "a\x7bb 1;\x7d").map (fun tree => decide
      ((some (2, 5), [some (6, 6)]) ∈
        tree.preorder.map fun n => (n.range?, n.children.map Node.range?))) = some true := by
    decide +kernel
  obtain ⟨tree, htree, hmem⟩ := Option.map_eq_some_iff.1 hrun
  obtain ⟨r, hread, hr⟩ := treeOf?_eq_some htree
  obtain ⟨d, hd, hranges⟩ := List.mem_map.1 (of_decide_eq_true hmem)
  obtain ⟨hown, hbelow⟩ := Prod.mk.inj hranges
  obtain ⟨value, rest, hchildren, hvalue, -⟩ := List.map_eq_cons_iff.1 hbelow
  have hchild : value ∈ d.children := hchildren ▸ List.mem_cons_self
  refine ⟨hnest, r, tree, hread, hr, d, hd, value, hchild, hown, hvalue, ?_⟩
  rintro ⟨loc, hloc, hin⟩
  obtain ⟨loc', hloc', -, hstop⟩ := hin value hchild
  rw [Node.range?, hloc] at hown
  rw [Node.range?, hloc'] at hvalue
  have hend := (Prod.mk.inj (Option.some.inj hown)).2
  have hend' := (Prod.mk.inj (Option.some.inj hvalue)).2
  omega

end Semicolon

end Language

end Stylesheet
