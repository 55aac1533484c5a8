/-
The parts of a node that its builder looks at.

A builder looks only at the parts of a node that it has a use for. A rule has a use for its
selectors and its block, a declaration for what follows its colon, a number for its unit. Which
parts these are is listed here, builder by builder (`parts`), and for each part whether it is built
in turn or its text is kept as it is.

Nothing of such a part is lost: what it makes stands in what the whole makes, and text that is kept
is in a leaf whose range goes around the part (`keeps_parts`). What stands beside the parts is read
for a name or a number, or not at all. Not listed are operations in attribute selectors, of which
the builder takes the beginning only, and at-keywords behind the one that names an at-rule.
-/
import Stylesheet.Proofs.WellNested

set_option autoImplicit false

namespace Stylesheet

open Made

namespace Concrete

/-! ## The parts that builders look at -/

/-- What a node is built as. -/
inductive Role where
  | stylesheet
  | item
  | block
  | keyframes
  | keyframe
  | selectors
  | selector
  | prelude
  | value
  deriving DecidableEq, Repr

/-- What a builder does with a node that it looks at. -/
inductive Part where
  /-- It keeps the text. -/
  | text (node : Concrete)
  /-- It has the node built in turn. -/
  | built (role : Role) (node : Concrete)

/-- The child that makes the block of an at-rule: the last one that can. -/
def blockPart? (c : Concrete) : Option Part :=
  (c.significant.reverse.find? fun d => ["block", "keyframe_block_list"].contains d.kind).map
    fun d => .built (if d.kind = "block" then .block else .keyframes) d

/-- Whether a child of an at-rule belongs to its prelude, whatever stands before it. -/
def isPreludePart (c : Concrete) : Bool :=
  !c.isAtKeyword && !(["block", "keyframe_block_list", ";"].contains c.kind)

/-- The parts of the arguments of a pseudo selector. -/
def argumentParts (c : Concrete) : List Part :=
  match c.significant.find? (·.kind == "("), c.significant.reverse.find? (·.kind == ")") with
  | some opening, some closing =>
    (c.children.filter fun d => decide (opening.stop ≤ d.start ∧ d.stop ≤ closing.start)).map .text
  | _, _ => [.text c]

/-- The parts of a pseudo selector: its arguments, or the whole if it has no name. -/
def pseudoParts (c : Concrete) : List Part :=
  let named := c.trailing.filter (·.named)
  match named with
  | [] => [.text c]
  | _ :: _ => (named.find? (·.kind == "arguments")).toList.flatMap argumentParts

/-- The parts of a marker with a name: none, or the whole if it has no name. -/
def namedParts (c : Concrete) (nameKind : String) : List Part :=
  match c.trailing.find? fun d => d.named && d.kind == nameKind with
  | some _ => []
  | none => [.text c]

/-- The parts of an attribute selector: its value, unless that is an operation, of which only the
beginning is looked at. -/
def attributeParts (cs : List Concrete) : List Part :=
  match matcher? cs with
  | none => []
  | some token =>
    match cs.find? fun c => c.named && decide (token.stop ≤ c.start) with
    | none => []
    | some valueNode => if valueNode.valueForm = .operation then [] else [.built .value valueNode]

/-- The parts of the last part of a compound. -/
def lastParts (c : Concrete) : PartForm → List Part
  | .className => namedParts c "class_name"
  | .idName => namedParts c "id_name"
  | .pseudoClass => pseudoParts c
  | .pseudoElement => pseudoParts c
  | .attribute => attributeParts c.trailing

/-- The parts of a call: its arguments, but behind the first comma of `var` only their text. -/
def callParts (src : Source) (c : Concrete) : List Part :=
  if Text.lower (callee src c) = "var" then
    (c.callArguments.takeWhile fun d => d.kind != ",").map (.built .value)
      ++ (c.callArguments.dropWhile fun d => d.kind != ",").tail.map .text
  else c.callArguments.map (.built .value)

/-- **The parts of a node that its builder looks at**, or the node itself if its text is kept. -/
def parts (src : Source) : Role → Concrete → List Part
  | .stylesheet, c => c.significant.map (.built .item)
  | .item, c =>
    match c.itemForm with
    | .rule =>
      (c.child? "selectors").toList.map (.built .selectors)
        ++ (c.child? "block").toList.map (.built .block)
    | .declaration =>
      if Node.isCustomName (propertyName src c) then c.valueNodes.map .text
      else c.valueNodes.map (.built .value)
    | .atrule =>
      c.blockPart?.toList ++ (c.significant.filter isPreludePart).map (.built .prelude)
    | .nothing => []
    | .raw => [.text c]
  | .block, c => c.members.map (.built .item)
  | .keyframes, c => c.significant.map (.built .keyframe)
  | .keyframe, c =>
    if c.kind = "keyframe_block" then
      (c.significant.find? fun d => d.named && d.kind != "block").toList.map .text
        ++ c.keyframeBody?.toList.map (.built .block)
    else if c.named then [.text c]
    else []
  | .selectors, c => c.members.map (.built .selector)
  | .selector, c =>
    match c.selectorForm with
    | .type | .universal | .nesting => []
    | .combinator _ =>
      match c.sides? with
      | some (left, right) => [.built .selector left, .built .selector right]
      | none => [.text c]
    | .compound form => c.leading.map (.built .selector) ++ lastParts c form
    | .raw => [.text c]
  | .prelude, c =>
    if ["keyword_query", "keyframes_name", "namespace_name"].contains c.kind then []
    else [.built .value c]
  | .value, c =>
    match c.valueForm with
    | .call => callParts src c
    | .operation => c.significant.map (.built .value)
    | .parentheses | .brackets => c.inner.map (.built .value)
    | .identifier | .number | .hash | .string | .operator => []
    | .raw => [.text c]

/-! ## What is made of the parts

To stand below, to cover and to keep are all closed under going up: what holds of some nodes holds
of those in whose trees they stand. With this the keeping of a part is carried from the builder
that looks at it to the root. -/

/-- What a node makes in a role. -/
def make (src : Source) : Role → Concrete → Made (List Node)
  | .stylesheet, c => List.singleton <$> stylesheet src c
  | .item, c => Option.toList <$> item src c
  | .block, c => List.singleton <$> block src c
  | .keyframes, c => List.singleton <$> keyframes src c
  | .keyframe, c => Option.toList <$> keyframe src c
  | .selectors, c => List.singleton <$> selectorList src c
  | .selector, c => selectorParts src c
  | .prelude, c => preludeValues src c
  | .value, c => values src c

/-- Some nodes stand in the trees of others. -/
def Below (ms ns : List Node) : Prop := ∀ m ∈ ms, ∃ n ∈ ns, m ∈ n.preorder

/-- Among the trees of some nodes there is a leaf with text that was kept from a range around a
concrete node. -/
def Covers (src : Source) (ns : List Node) (c : Concrete) : Prop :=
  ∃ n ∈ ns, ∃ m value start stop, .leaf m (.raw value) ∈ n.preorder
    ∧ src.markAt start stop = .ok m ∧ start ≤ c.start ∧ c.stop ≤ stop

/-- Nodes keep a part of a tree: its text is in one of their leaves, or what it makes stands in
their trees. -/
def Keeps (src : Source) (root : Concrete) (ns : List Node) : Part → Prop
  | .text c => c ∈ root.walk ∧ Covers src ns c
  | .built role c => c ∈ root.walk ∧ ∃ ms, make src role c = .ok ms ∧ Below ms ns

variable {src : Source} {root : Concrete} {length : Nat}

theorem below_of_subset {ms ns : List Node} (h : ms ⊆ ns) : Below ms ns :=
  fun m hm => ⟨m, h hm, m.self_mem_preorder⟩

theorem below_children {ms : List Node} {n : Node} (h : ∀ m ∈ ms, m ∈ n.children) :
    Below ms [n] :=
  fun m hm => ⟨n, List.mem_singleton_self n, (Node.Trail.here.down (h m hm)).mem_preorder⟩

theorem Below.trans {ls ms ns : List Node} (h : Below ls ms) (h' : Below ms ns) : Below ls ns := by
  intro l hl
  obtain ⟨m, hm, hlm⟩ := h l hl
  obtain ⟨n, hn, hmn⟩ := h' m hm
  exact ⟨n, hn, Node.preorder_subset hmn l hlm⟩

theorem Covers.mono {ms ns : List Node} {c : Concrete} (h : Covers src ms c)
    (hbelow : Below ms ns) : Covers src ns c := by
  obtain ⟨m, hm, mark, value, start, stop, hmem, hrange⟩ := h
  obtain ⟨n, hn, hmn⟩ := hbelow m hm
  exact ⟨n, hn, mark, value, start, stop, Node.preorder_subset hmn _ hmem, hrange⟩

theorem Keeps.mono {ms ns : List Node} {part : Part} (h : Keeps src root ms part)
    (hbelow : Below ms ns) : Keeps src root ns part := by
  cases part with
  | text c => exact ⟨h.1, h.2.mono hbelow⟩
  | built role c =>
      obtain ⟨hc, ls, hmade, hls⟩ := h
      exact ⟨hc, ls, hmade, hls.trans hbelow⟩

/-! ## One builder at a time

Each builder keeps the parts that are told for its form. Text on a range keeps every node in that
range, and a list keeps what its members keep, so that most builders need no more than to be taken
apart. -/

theorem keeps_rawAt {start stop : Int} {n : Node} (h : src.rawAt start stop = .ok n)
    {c : Concrete} (hc : c ∈ root.walk) (hlo : start ≤ c.start) (hhi : c.stop ≤ stop) :
    Keeps src root [n] (.text c) := by
  obtain ⟨m, hm, rfl⟩ := Source.rawAt_eq_ok.1 h
  exact ⟨hc, _, List.mem_singleton_self _, m, _, start, stop, Node.self_mem_preorder _, hm, hlo,
    hhi⟩

theorem keeps_raw {c : Concrete} (hc : c ∈ root.walk) {n : Node} (h : src.raw c = .ok n) :
    Keeps src root [n] (.text c) := by
  obtain ⟨m, hm, rfl⟩ := Source.leaf_eq_ok.1 h
  exact ⟨hc, _, List.mem_singleton_self _, m, _, c.start, c.stop, Node.self_mem_preorder _, hm,
    Int.le_refl _, Int.le_refl _⟩

theorem keeps_rawSpan {lo hi : Int} {cs : List Concrete} (hrow : InRow lo hi cs)
    (hcs : ∀ c ∈ cs, c ∈ root.walk) {octet : Int} {n : Node} (h : src.rawSpan cs octet = .ok n) :
    ∀ part ∈ cs.map Part.text, Keeps src root [n] part := by
  rintro _ hpart
  obtain ⟨c, hc, rfl⟩ := List.mem_map.1 hpart
  obtain ⟨first, last, hfirst, hlast⟩ := exists_ends_of_mem hc
  have hrange := (hrow.tighten hfirst hlast).1 c hc
  rw [Source.rawSpan, hfirst, hlast] at h
  exact keeps_rawAt h (hcs c hc) hrange.1 hrange.2.2

theorem keeps_concat {role : Role} {cs : List Concrete} (hcs : ∀ c ∈ cs, c ∈ root.walk)
    {ns : List Node} (h : Made.concat (cs.map (make src role)) = .ok ns) :
    ∀ part ∈ cs.map (Part.built role), Keeps src root ns part := by
  rintro _ hpart
  obtain ⟨c, hc, rfl⟩ := List.mem_map.1 hpart
  obtain ⟨ms, hmade, hsub⟩ := subset_concat h hc
  exact ⟨hcs c hc, ms, hmade, below_of_subset hsub⟩

theorem keeps_present {role : Role} {f : Concrete → Made (Option Node)}
    (hf : ∀ c, make src role c = Option.toList <$> f c) {cs : List Concrete}
    (hcs : ∀ c ∈ cs, c ∈ root.walk) {ns : List Node} (h : Made.present (cs.map f) = .ok ns) :
    ∀ part ∈ cs.map (Part.built role), Keeps src root ns part := by
  rintro _ hpart
  obtain ⟨c, hc, rfl⟩ := List.mem_map.1 hpart
  obtain ⟨made, hmade, hsub⟩ := subset_present h hc
  refine ⟨hcs c hc, made.toList, ?_, below_of_subset hsub⟩
  rw [hf, hmade]
  rfl

theorem keeps_values {cs : List Concrete} (hcs : ∀ c ∈ cs, c ∈ root.walk) {ns : List Node}
    (h : valuesOfAll src cs = .ok ns) :
    ∀ part ∈ cs.map (Part.built .value), Keeps src root ns part :=
  keeps_concat hcs h

/-- The children of a call keep its parts. -/
theorem callParts_kept (hnest : root.WellNested length) {c : Concrete} (hc : c ∈ root.walk)
    {ns : List Node}
    (h : callMembers src c (c.callArguments.map fun d => ⟨d, values src d⟩) = .ok ns) :
    ∀ part ∈ callParts src c, Keeps src root ns part := by
  have hwalk : ∀ d ∈ c.callArguments, d ∈ root.walk := fun d hd =>
    mem_walk_of_mem_callArguments hc hd
  rw [callMembers_eq] at h
  rw [callParts]
  split at h
  · rename_i hvar
    rw [if_pos hvar]
    have hsplit := List.takeWhile_append_dropWhile (p := fun d : Concrete => d.kind != ",")
      (l := c.callArguments)
    split at h
    · rename_i hdrop
      rw [hdrop, List.append_nil] at hsplit
      rw [hdrop, hsplit, List.tail_nil, List.map_nil, List.append_nil]
      exact keeps_values hwalk h
    · rename_i comma after hdrop
      rw [hdrop] at hsplit ⊢
      simp only [bind_eq_ok, pure_eq_ok] at h
      obtain ⟨members, hmembers, operator, -, fallback, hfall, rfl⟩ := h
      have hafter := (hsplit ▸ hnest.callArguments hc).split.2
      intro part hpart
      rcases List.mem_append.1 hpart with hpart | hpart
      · have hbefore := keeps_values
          (fun d hd => hwalk d ((List.takeWhile_sublist _).subset hd)) hmembers part hpart
        exact hbefore.mono (below_of_subset (List.subset_append_left _ _))
      · have hfallback := keeps_rawSpan hafter
          (fun d hd => hwalk d (by rw [← hsplit]; simp [hd])) hfall part hpart
        exact hfallback.mono (below_of_subset (by simp))
  · rename_i hvar
    rw [if_neg hvar]
    exact keeps_values hwalk h

theorem values_keep_parts (hnest : root.WellNested length) {c : Concrete} (hc : c ∈ root.walk)
    {ns : List Node} (h : values src c = .ok ns) :
    ∀ part ∈ parts src .value c, Keeps src root ns part := by
  have hinner : ∀ d ∈ c.inner, d ∈ root.walk := fun d hd => mem_walk_of_mem_inner hc hd
  rw [values_eq] at h
  rw [parts]
  cases hform : c.valueForm
  all_goals simp only [hform, bind_eq_ok, pure_eq_ok] at h
  case raw =>
    obtain ⟨n, hn, rfl⟩ := h
    simpa using keeps_raw hc hn
  case call =>
    obtain ⟨n, hn, rfl⟩ := h
    obtain ⟨members, hmembers, m, -, rfl⟩ := callNode_eq_ok.1 hn
    exact fun part hpart =>
      (callParts_kept hnest hc hmembers part hpart).mono (below_children fun m hm => hm)
  case operation => exact keeps_values (fun d hd => mem_walk_of_mem_significant hc hd) h
  case parentheses | brackets =>
    obtain ⟨members, hmembers, m, -, rfl⟩ := h
    exact fun part hpart =>
      (keeps_values hinner hmembers part hpart).mono (below_children fun m hm => hm)
  all_goals exact fun part hpart => by cases hpart

theorem selectorArguments_keep_parts {c : Concrete} (hc : c ∈ root.walk) {n : Node}
    (h : selectorArguments src c = .ok n) : ∀ part ∈ argumentParts c, Keeps src root [n] part := by
  rw [selectorArguments] at h
  rw [argumentParts]
  cases hopening : c.significant.find? (·.kind == "(") with
  | none =>
      rw [hopening] at h
      simpa using keeps_raw hc h
  | some opening =>
      cases hclosing : c.significant.reverse.find? (·.kind == ")") with
      | none =>
          rw [hopening, hclosing] at h
          simpa using keeps_raw hc h
      | some closing =>
          rw [hopening, hclosing] at h
          intro part hpart
          obtain ⟨d, hd, rfl⟩ := List.mem_map.1 hpart
          obtain ⟨hd, hbetween⟩ := List.mem_filter.1 hd
          obtain ⟨hlo, hhi⟩ := of_decide_eq_true hbetween
          exact keeps_rawAt h (mem_walk_of_mem_children hc hd) hlo hhi

theorem namedPart_keeps_parts {c : Concrete} (hc : c ∈ root.walk) {mark : Mark} {nameKind : String}
    {leaf : String → Leaf} {n : Node} (h : namedPart src c mark nameKind leaf = .ok n) :
    ∀ part ∈ namedParts c nameKind, Keeps src root [n] part := by
  rw [namedPart] at h
  rw [namedParts]
  cases hname : c.trailing.find? fun d => d.named && d.kind == nameKind with
  | some nameNode => exact fun part hpart => by cases hpart
  | none =>
      rw [hname] at h
      simpa using keeps_raw hc h

theorem pseudoNode_keeps_parts {c : Concrete} (hc : c ∈ root.walk) {mark : Mark}
    {group : String → Group} {n : Node} (h : pseudoNode src c mark group = .ok n) :
    ∀ part ∈ pseudoParts c, Keeps src root [n] part := by
  simp only [pseudoNode] at h
  rw [pseudoParts]
  cases hnamed : c.trailing.filter (·.named) with
  | nil =>
      simp only [hnamed] at h ⊢
      simpa using keeps_raw hc h
  | cons nameNode rest =>
      simp only [hnamed] at h ⊢
      cases harguments : (nameNode :: rest).find? (·.kind == "arguments") with
      | none => exact fun part hpart => by cases hpart
      | some arguments =>
          simp only [harguments, bind_eq_ok, pure_eq_ok] at h
          obtain ⟨made, hmade, members, rfl, rfl⟩ := h
          have hmem : arguments ∈ c.trailing.filter (·.named) :=
            hnamed ▸ List.mem_of_find?_eq_some harguments
          have hwalk := mem_walk_of_mem_trailing hc (List.mem_filter.1 hmem).1
          intro part hpart
          rw [Option.toList_some, List.flatMap_singleton] at hpart
          exact (selectorArguments_keep_parts hwalk hmade part hpart).mono
            (below_children fun m hm => hm)

/-- A node that is no operation makes one value. -/
theorem values_eq_singleton {c : Concrete} (hform : c.valueForm ≠ .operation) {ns : List Node}
    (h : values src c = .ok ns) : ∃ n, ns = [n] := by
  rw [values_eq] at h
  cases hvalue : c.valueForm
  all_goals simp only [hvalue, bind_eq_ok, pure_eq_ok] at h
  case operation => exact absurd hvalue hform
  case parentheses | brackets =>
    obtain ⟨members, -, m, -, rfl⟩ := h
    exact ⟨_, rfl⟩
  all_goals
    obtain ⟨n, -, rfl⟩ := h
    exact ⟨n, rfl⟩

theorem attributeNode_keeps_parts {cs : List Concrete} (hcs : ∀ c ∈ cs, c ∈ root.walk) {mark : Mark}
    {n : Node} (h : attributeNode src cs mark = .ok n) :
    ∀ part ∈ attributeParts cs, Keeps src root [n] part := by
  obtain ⟨name, value, rfl, hvalue, -⟩ := attributeNode_cases h
  rw [attributeParts]
  rw [attributeValue] at hvalue
  cases htoken : matcher? cs with
  | none => exact fun part hpart => by cases hpart
  | some token =>
      rw [htoken] at hvalue
      simp only at hvalue ⊢
      cases hd : cs.find? fun c => c.named && decide (token.stop ≤ c.start) with
      | none => exact fun part hpart => by cases hpart
      | some d =>
          rw [hd] at hvalue
          simp only [bind_eq_ok] at hvalue ⊢
          by_cases hform : d.valueForm = .operation
          · rw [if_pos hform]
            exact fun part hpart => by cases hpart
          · rw [if_neg hform]
            obtain ⟨ns, hns, hvalue⟩ := hvalue
            obtain ⟨made, rfl⟩ := values_eq_singleton hform hns
            obtain rfl := pure_eq_ok.1 hvalue
            intro part hpart
            obtain rfl := List.mem_singleton.1 hpart
            refine ⟨hcs d (List.mem_of_find?_eq_some hd), [made], hns,
              below_children fun m hm => ?_⟩
            obtain rfl := List.mem_singleton.1 hm
            simp [Node.children]

theorem lastPart_keeps_parts {c : Concrete} (hc : c ∈ root.walk) {form : PartForm} {n : Node}
    (h : lastPart src c form = .ok n) : ∀ part ∈ lastParts c form, Keeps src root [n] part := by
  simp only [lastPart, bind_eq_ok] at h
  obtain ⟨mark, -, h⟩ := h
  cases form
  case className | idName => exact namedPart_keeps_parts hc h
  case pseudoClass | pseudoElement => exact pseudoNode_keeps_parts hc h
  case «attribute» =>
    exact attributeNode_keeps_parts (fun d hd => mem_walk_of_mem_trailing hc hd) h

theorem selectorParts_keep_parts {c : Concrete} (hc : c ∈ root.walk) {ns : List Node}
    (h : selectorParts src c = .ok ns) :
    ∀ part ∈ parts src .selector c, Keeps src root ns part := by
  rw [selectorParts_eq] at h
  rw [parts]
  cases hform : c.selectorForm
  all_goals simp only [hform, bind_eq_ok, pure_eq_ok] at h
  case raw =>
    obtain ⟨n, hn, rfl⟩ := h
    simpa using keeps_raw hc hn
  case combinator name =>
    cases hsides : c.sides? with
    | none =>
        simp only [hsides, bind_eq_ok, pure_eq_ok] at h ⊢
        obtain ⟨n, hn, rfl⟩ := h
        simpa using keeps_raw hc hn
    | some sides =>
        obtain ⟨left, right⟩ := sides
        have hmem := mem_walk_of_sides? hc hsides
        simp only [hsides, bind_eq_ok, pure_eq_ok] at h ⊢
        obtain ⟨mark, -, before, hbefore, after, hafter, rfl⟩ := h
        intro part hpart
        rcases List.mem_pair.1 hpart with rfl | rfl
        · exact ⟨hmem.1, before, hbefore, below_of_subset (List.subset_append_left _ _)⟩
        · refine ⟨hmem.2, after, hafter, below_of_subset fun n hn => ?_⟩
          exact List.mem_append_right _ (List.mem_cons_of_mem _ hn)
  case compound form =>
    obtain ⟨before, hbefore, last, hlast, rfl⟩ := h
    intro part hpart
    rcases List.mem_append.1 hpart with hpart | hpart
    · have hkept : ∀ part ∈ c.leading.map (Part.built .selector), Keeps src root before part :=
        keeps_concat (fun d hd => mem_walk_of_mem_leading hc hd) hbefore
      exact (hkept part hpart).mono (below_of_subset (List.subset_append_left _ _))
    · exact (lastPart_keeps_parts hc hlast part hpart).mono
        (below_of_subset (List.subset_append_right _ _))
  all_goals exact fun part hpart => by cases hpart

theorem preludeValues_keep_parts {c : Concrete} (hc : c ∈ root.walk) {ns : List Node}
    (h : preludeValues src c = .ok ns) :
    ∀ part ∈ parts src .prelude c, Keeps src root ns part := by
  rw [preludeValues] at h
  rw [parts]
  split at h
  · rename_i hname
    rw [if_pos hname]
    exact fun part hpart => by cases hpart
  · rename_i hname
    rw [if_neg hname]
    intro part hpart
    obtain rfl := List.mem_singleton.1 hpart
    exact ⟨hc, ns, h, below_of_subset (List.Subset.refl ns)⟩

theorem selectorList_keeps_parts {c : Concrete} (hc : c ∈ root.walk) {n : Node}
    (h : selectorList src c = .ok n) :
    ∀ part ∈ parts src .selectors c, Keeps src root [n] part := by
  obtain ⟨selectors, hselectors, m, -, rfl⟩ := selectorList_eq_ok.1 h
  intro part hpart
  obtain ⟨d, hd, rfl⟩ := List.mem_map.1 hpart
  obtain ⟨selector, hmem, hselector⟩ := exists_mem_mapM hselectors hd
  obtain ⟨ms, hms, m', -, rfl⟩ := selectorNode_eq_ok.1 hselector
  -- the parts stand below the selector, and the selector below the list
  have hbelow : Below ms [.group m' .selector ms] := below_children fun m hm => hm
  have hlist : Below [.group m' .selector ms] [.group m .selectorList selectors] :=
    below_children fun s hs => by rwa [List.mem_singleton.1 hs]
  exact ⟨mem_walk_of_mem_members hc hd, ms, hms, hbelow.trans hlist⟩

/-! ## Blocks and at-rules

A block keeps all of its items. An at-rule goes through its children, and a later block takes the
place of an earlier one, so that only the last is kept; what goes to the prelude stays. -/

theorem keeps_child {role : Role} {c : Concrete} (hc : c ∈ root.walk) {f : Concrete → Made Node}
    (hf : ∀ d, make src role d = List.singleton <$> f d) {n m : Node} (hmade : f c = .ok m)
    (hchild : m ∈ n.children) : Keeps src root [n] (.built role c) := by
  refine ⟨hc, [m], ?_, below_children fun x hx => by rwa [List.mem_singleton.1 hx]⟩
  rw [hf, hmade]
  rfl

theorem block_keeps_parts {c : Concrete} (hc : c ∈ root.walk) {n : Node} (h : block src c = .ok n) :
    ∀ part ∈ parts src .block c, Keeps src root [n] part := by
  simp only [block_eq, bind_eq_ok, pure_eq_ok] at h
  obtain ⟨items, hitems, m, -, rfl⟩ := h
  have hkept : ∀ part ∈ c.members.map (Part.built .item), Keeps src root items part :=
    keeps_present (fun _ => rfl) (fun d hd => mem_walk_of_mem_members hc hd) hitems
  exact fun part hpart => (hkept part hpart).mono (below_children fun m hm => hm)

theorem keyframes_keep_parts {c : Concrete} (hc : c ∈ root.walk) {n : Node}
    (h : keyframes src c = .ok n) : ∀ part ∈ parts src .keyframes c, Keeps src root [n] part := by
  simp only [keyframes_eq, bind_eq_ok, pure_eq_ok] at h
  obtain ⟨rules, hrules, m, -, rfl⟩ := h
  have hkept : ∀ part ∈ c.significant.map (Part.built .keyframe), Keeps src root rules part :=
    keeps_present (fun _ => rfl) (fun d hd => mem_walk_of_mem_significant hc hd) hrules
  exact fun part hpart => (hkept part hpart).mono (below_children fun m hm => hm)

theorem stylesheet_keeps_parts {c : Concrete} (hc : c ∈ root.walk) {n : Node}
    (h : stylesheet src c = .ok n) : ∀ part ∈ parts src .stylesheet c, Keeps src root [n] part := by
  simp only [stylesheet, bind_eq_ok, pure_eq_ok] at h
  obtain ⟨items, hitems, m, -, rfl⟩ := h
  have hkept : ∀ part ∈ c.significant.map (Part.built .item), Keeps src root items part :=
    keeps_present (fun _ => rfl) (fun d hd => mem_walk_of_mem_significant hc hd) hitems
  exact fun part hpart => (hkept part hpart).mono (below_children fun m hm => hm)

/-- Behind the last child that makes a block the block of an at-rule stays. -/
theorem foldlM_add_block_of_none {children : List AtruleChild} {parts parts' : AtruleParts}
    (h : children.foldlM (fun parts d => parts.add src d.node d.block) parts = .ok parts')
    (hnone : ∀ d ∈ children, d.block = none) : parts'.block = parts.block := by
  induction children generalizing parts with
  | nil =>
      obtain rfl := Except.ok.inj h
      rfl
  | cons d children ih =>
      simp only [List.foldlM_cons, bind_eq_ok] at h
      obtain ⟨next, hnext, hrest⟩ := h
      rw [ih hrest fun e he => hnone e (List.mem_cons_of_mem d he)]
      rcases add_cases hnext with ⟨-, rfl⟩ | ⟨made, b, hmade, -, rfl⟩ | ⟨-, -, rfl⟩ | ⟨-, -, rfl⟩
      · rfl
      · rw [hnone d List.mem_cons_self] at hmade
        cases hmade
      · rfl
      · rfl

/-- The nodes of a prelude stay in it, and every child is put into it that belongs there. -/
theorem foldlM_add_prelude {children : List AtruleChild} {parts parts' : AtruleParts}
    (h : children.foldlM (fun parts d => parts.add src d.node d.block) parts = .ok parts') :
    (∀ e ∈ parts.prelude, e ∈ parts'.prelude)
      ∧ ∀ d ∈ children, d.block = none → d.node.isPreludePart = true →
          d.node ∈ parts'.prelude := by
  induction children generalizing parts with
  | nil =>
      obtain rfl := Except.ok.inj h
      exact ⟨fun e he => he, by simp⟩
  | cons d children ih =>
      simp only [List.foldlM_cons, bind_eq_ok] at h
      obtain ⟨next, hnext, hrest⟩ := h
      obtain ⟨hstay, hput⟩ := ih hrest
      have hcases := add_cases hnext
      refine ⟨fun e he => hstay e ?_, fun e he hnone hpart => ?_⟩
      · rcases hcases with ⟨-, rfl⟩ | ⟨made, b, -, -, rfl⟩ | ⟨-, -, rfl⟩ | ⟨-, -, rfl⟩
        · exact he
        · exact he
        · exact he
        · exact List.mem_append_left _ he
      · rcases List.mem_cons.1 he with rfl | he
        · simp only [isPreludePart, Bool.and_eq_true, Bool.not_eq_true'] at hpart
          rcases hcases with ⟨hkeyword, -⟩ | ⟨made, b, hmade, -, -⟩ | ⟨-, hkind, -⟩ | ⟨-, -, rfl⟩
          · rw [hkeyword] at hpart
            cases hpart.1
          · rw [hnone] at hmade
            cases hmade
          · rw [hkind] at hpart
            cases hpart.2
          · exact hstay _ (List.mem_append_right _ (List.mem_singleton_self _))
        · exact hput e he hnone hpart

theorem isAtKeyword_eq_false {c : Concrete}
    (h : c.kind = "block" ∨ c.kind = "keyframe_block_list") : c.isAtKeyword = false := by
  have hblock : Text.startsWith "block" "@" = false := by decide
  have hkeyframes : Text.startsWith "keyframe_block_list" "@" = false := by decide
  rw [isAtKeyword]
  rcases h with h | h <;> simp [h, hblock, hkeyframes]

/-- **The block of an at-rule is the one that its last child makes** that can. -/
theorem foldlM_add_blockPart {c d : Concrete} {parts parts' : AtruleParts}
    (hlast : (c.significant.reverse.find? fun d =>
      ["block", "keyframe_block_list"].contains d.kind) = some d)
    (h : (c.significant.map (atruleChild src)).foldlM
      (fun parts d => parts.add src d.node d.block) parts = .ok parts') :
    ∃ b made, (atruleChild src d).block = some made ∧ made = .ok b ∧ parts'.block = some b := by
  obtain ⟨hd, after, before, hsplit, hafter⟩ := List.find?_eq_some_iff_append.1 hlast
  have hchildren : c.significant = before.reverse ++ d :: after.reverse := by
    rw [← List.reverse_reverse c.significant, hsplit]
    simp
  have hkind : d.kind = "block" ∨ d.kind = "keyframe_block_list" := by simpa using hd
  rw [hchildren, List.map_append, List.map_cons, List.foldlM_append] at h
  simp only [List.foldlM_cons, bind_eq_ok] at h
  obtain ⟨found, -, next, hnext, hrest⟩ := h
  -- no child behind this one makes a block
  have hnone : ∀ e ∈ after.reverse.map (atruleChild src), e.block = none := by
    intro e he
    obtain ⟨x, hx, rfl⟩ := List.mem_map.1 he
    have hother := hafter x (List.mem_reverse.1 hx)
    simp only [List.contains_cons, List.contains_nil, Bool.or_false, Bool.not_eq_true',
      Bool.or_eq_false_iff, beq_eq_false_iff_ne] at hother
    simp [atruleChild, hother.1, hother.2]
  have hsome : ∃ made, (atruleChild src d).block = some made := by
    rcases hkind with hkind | hkind <;> simp [atruleChild, hkind]
  obtain ⟨made, hmade⟩ := hsome
  have hstays := foldlM_add_block_of_none hrest hnone
  rcases add_cases hnext with ⟨hkeyword, -⟩ | ⟨made', b, hblock, hb, rfl⟩ | ⟨hblock, -, -⟩
    | ⟨hblock, -, -⟩
  · have hfalse := isAtKeyword_eq_false hkind
    rw [show (atruleChild src d).node = d from rfl] at hkeyword
    rw [hkeyword] at hfalse
    cases hfalse
  · exact ⟨b, made', hblock, hb, hstays⟩
  · rw [hmade] at hblock
    cases hblock
  · rw [hmade] at hblock
    cases hblock

theorem atruleNode_keeps_parts {c : Concrete} (hc : c ∈ root.walk) {n : Node}
    (h : atruleNode src c (c.significant.map (atruleChild src)) = .ok n) :
    ∀ part ∈ c.blockPart?.toList ++ (c.significant.filter isPreludePart).map (.built .prelude),
      Keeps src root [n] part := by
  simp only [atruleNode, bind_eq_ok, pure_eq_ok] at h
  obtain ⟨parts, hparts, prelude, hprelude, m, -, rfl⟩ := h
  intro part hpart
  rcases List.mem_append.1 hpart with hpart | hpart
  · obtain ⟨d, hd, rfl⟩ := Option.map_eq_some_iff.1 (Option.mem_toList.1 hpart)
    have hmem := List.mem_reverse.1 (List.mem_of_find?_eq_some hd)
    have hwalk := mem_walk_of_mem_significant hc hmem
    obtain ⟨b, made, hmade, rfl, hblock⟩ := foldlM_add_blockPart hd hparts
    rw [hblock]
    rw [atruleChild] at hmade
    simp only at hmade
    split at hmade
    · rename_i hkind
      rw [if_pos hkind]
      exact keeps_child hwalk (fun _ => rfl) (Option.some.inj hmade)
        (by simp [Node.children])
    · rename_i hkind
      rw [if_neg hkind]
      split at hmade
      · exact keeps_child hwalk (fun _ => rfl) (Option.some.inj hmade)
          (by simp [Node.children])
      · cases hmade
  · obtain ⟨d, hd, rfl⟩ := List.mem_map.1 hpart
    obtain ⟨hmem, hprt⟩ := List.mem_filter.1 hd
    have hnone : (atruleChild src d).block = none := by
      simp only [isPreludePart, Bool.and_eq_true, Bool.not_eq_true', List.contains_cons,
        Bool.or_eq_false_iff, beq_eq_false_iff_ne] at hprt
      simp [atruleChild, hprt.2.1, hprt.2.2.1]
    have hin := (foldlM_add_prelude hparts).2 _ (List.mem_map_of_mem hmem) hnone hprt
    obtain ⟨p, rfl⟩ := exists_prelude_of_mem hin hprelude
    obtain ⟨members, m', hmembers, rfl⟩ := preludeNode_eq_ok hprelude
    obtain ⟨ms, hms, hsub⟩ := subset_concat hmembers hin
    -- what the node makes stands in the prelude, and the prelude in the at-rule
    have hbelow : Below ms [.group m' .atrulePrelude members] := below_children fun x hx => hsub hx
    refine ⟨mem_walk_of_mem_significant hc hmem, ms, hms,
      hbelow.trans (below_children fun x hx => ?_)⟩
    rw [List.mem_singleton.1 hx]
    simp [Node.children]

/-! ## Rules and declarations -/

theorem declarationNode_keeps_parts (hnest : root.WellNested length) {c : Concrete}
    (hc : c ∈ root.walk) {n : Node} (h : declarationNode src c = .ok n) :
    ∀ part ∈ (if Node.isCustomName (propertyName src c) then c.valueNodes.map Part.text
        else c.valueNodes.map (Part.built .value)), Keeps src root [n] part := by
  have hwalk : ∀ d ∈ c.valueNodes, d ∈ root.walk := fun d hd => mem_walk_of_mem_valueNodes hc hd
  obtain ⟨value, hvalue, m, -, rfl⟩ := declarationNode_eq_ok.1 h
  have hbelow : Below [value] [.declaration m (propertyName src c) (some value)
      (c.significant.any (·.kind == "important"))] :=
    below_children fun x hx => by rw [List.mem_singleton.1 hx]; simp [Node.children]
  rw [declaredValue] at hvalue
  intro part hpart
  split at hpart
  · rename_i hcustom
    rw [if_pos hcustom] at hvalue
    exact (keeps_rawSpan (hnest.valueNodes hc) hwalk hvalue part hpart).mono hbelow
  · rename_i hcustom
    rw [if_neg hcustom] at hvalue
    obtain ⟨members, hmembers, m', -, rfl⟩ := valueNode_eq_ok.1 hvalue
    have hkept := (keeps_values hwalk hmembers part hpart).mono
      (below_children (n := .group m' .value members) fun x hx => hx)
    exact hkept.mono hbelow

theorem ruleOf_keeps_parts {c : Concrete} {prelude : Made Node} {body : Option Concrete}
    (hbody : ∀ d ∈ body, d ∈ root.walk) {ps : List Part}
    (hprelude : ∀ p, prelude = .ok p → ∀ part ∈ ps, Keeps src root [p] part) {n : Node}
    (h : ruleOf src c prelude (body.map (block src)) = .ok n) :
    ∀ part ∈ ps ++ body.toList.map (Part.built .block), Keeps src root [n] part := by
  obtain ⟨p, hp, b, hb, m, -, rfl⟩ := ruleOf_eq_ok.1 h
  intro part hpart
  rcases List.mem_append.1 hpart with hpart | hpart
  · exact (hprelude p hp part hpart).mono
      (below_children fun x hx => by rw [List.mem_singleton.1 hx]; simp [Node.children])
  · obtain ⟨d, hd, rfl⟩ := List.mem_map.1 hpart
    obtain rfl := Option.mem_toList.1 hd
    exact keeps_child (hbody d rfl) (fun _ => rfl) hb (by simp [Node.children])

/-- An item keeps its parts, and a node that makes none has none. -/
theorem item_keeps_parts (hnest : root.WellNested length) {c : Concrete} (hc : c ∈ root.walk)
    {made : Option Node} (h : item src c = .ok made) :
    ∀ part ∈ parts src .item c, Keeps src root made.toList part := by
  rw [item_eq] at h
  rw [parts]
  cases hform : c.itemForm
  all_goals simp only [hform] at h ⊢
  case rule =>
    obtain ⟨n, hn, rfl⟩ := map_eq_ok.1 h
    refine ruleOf_keeps_parts
      (fun d hd => mem_walk_of_mem_children hc (List.mem_of_find?_eq_some hd)) ?_ hn
    intro p hp part hpart
    obtain ⟨d, hd, rfl⟩ := List.mem_map.1 hpart
    have hsome := Option.mem_toList.1 hd
    rw [rulePrelude, hsome] at hp
    have hmade : selectorList src d = .ok p := hp
    refine ⟨mem_walk_of_mem_children hc (List.mem_of_find?_eq_some hsome), [p], ?_,
      below_of_subset (List.Subset.refl _)⟩
    rw [make, hmade]
    rfl
  case declaration =>
    obtain ⟨n, hn, rfl⟩ := map_eq_ok.1 h
    exact declarationNode_keeps_parts hnest hc hn
  case atrule =>
    obtain ⟨n, hn, rfl⟩ := map_eq_ok.1 h
    exact atruleNode_keeps_parts hc hn
  case nothing => exact fun part hpart => by cases hpart
  case raw =>
    obtain ⟨n, hn, rfl⟩ := map_eq_ok.1 h
    simpa using keeps_raw hc hn

/-- A keyframe keeps its parts, and a node that makes none has none. -/
theorem keyframe_keeps_parts {c : Concrete} (hc : c ∈ root.walk) {made : Option Node}
    (h : keyframe src c = .ok made) :
    ∀ part ∈ parts src .keyframe c, Keeps src root made.toList part := by
  rw [keyframe] at h
  rw [parts]
  split at h
  · rename_i hkind
    rw [if_pos hkind]
    obtain ⟨n, hn, rfl⟩ := map_eq_ok.1 h
    refine ruleOf_keeps_parts (fun d hd => mem_walk_of_mem_keyframeBody? hc hd) ?_ hn
    intro p hp part hpart
    obtain ⟨d, hd, rfl⟩ := List.mem_map.1 hpart
    have hsome := Option.mem_toList.1 hd
    rw [keyframePrelude, hsome] at hp
    exact keeps_raw (mem_walk_of_mem_significant hc (List.mem_of_find?_eq_some hsome)) hp
  · rename_i hkind
    rw [if_neg hkind]
    split at h
    · rename_i hnamed
      rw [if_pos hnamed]
      obtain ⟨n, hn, rfl⟩ := map_eq_ok.1 h
      simpa using keeps_raw hc hn
    · rename_i hnamed
      rw [if_neg hnamed]
      exact fun part hpart => by cases hpart

/-! ## All builders -/

/-- **One step**: what a node makes in a role keeps the parts that are looked at. -/
theorem keeps_parts (hnest : root.WellNested length) {role : Role} {c : Concrete}
    (hc : c ∈ root.walk) {ns : List Node} (h : make src role c = .ok ns) :
    ∀ part ∈ parts src role c, Keeps src root ns part := by
  cases role with
  | value => exact values_keep_parts hnest hc h
  | prelude => exact preludeValues_keep_parts hc h
  | selector => exact selectorParts_keep_parts hc h
  | selectors =>
      obtain ⟨n, hn, rfl⟩ := map_eq_ok.1 h
      exact selectorList_keeps_parts hc hn
  | block =>
      obtain ⟨n, hn, rfl⟩ := map_eq_ok.1 h
      exact block_keeps_parts hc hn
  | keyframes =>
      obtain ⟨n, hn, rfl⟩ := map_eq_ok.1 h
      exact keyframes_keep_parts hc hn
  | stylesheet =>
      obtain ⟨n, hn, rfl⟩ := map_eq_ok.1 h
      exact stylesheet_keeps_parts hc hn
  | item =>
      obtain ⟨made, hmade, rfl⟩ := map_eq_ok.1 h
      exact item_keeps_parts hnest hc hmade
  | keyframe =>
      obtain ⟨made, hmade, rfl⟩ := map_eq_ok.1 h
      exact keyframe_keeps_parts hc hmade

end Concrete

end Stylesheet
