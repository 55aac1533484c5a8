/-
A sensible concrete tree makes a tree.

Two things can keep a concrete tree from making one: a range that is reversed, and an attribute that
is compared with an operation without operands. If ranges are nested, every range that a builder
puts together is in order: from the first of some nodes to the last, from a marker to the end, from
the left side of a combinator to the right one, or an octet taken twice. The one exception is the
text between the brackets of a pseudo selector, which needs its first opening bracket to stand
before its last closing one. And values come out of every node but an operation that holds nothing
(`isHollow_of_values_eq_nil`).

That each builder succeeds is said builder by builder, as long as those it calls do. The items of a
tree go through it by the size of their nodes (`Concrete.Makes`).
-/
import Stylesheet.Proofs.Nesting

set_option autoImplicit false

namespace Stylesheet

/-! ## Steps that succeed

That there is a result goes from the parts to the whole, through each of the ways in which
builders put results together. -/

namespace Made

variable {α β : Type}

/-- There is a result. -/
def Succeeds (x : Made α) : Prop := ∃ a, x = .ok a

theorem Succeeds.bind {x : Made α} {f : α → Made β} (h : Succeeds x)
    (hf : ∀ a, x = .ok a → Succeeds (f a)) : Succeeds (x >>= f) := by
  obtain ⟨a, ha⟩ := h
  obtain ⟨b, hb⟩ := hf a ha
  exact ⟨b, bind_eq_ok.2 ⟨a, ha, hb⟩⟩

theorem succeeds_pure (a : α) : Succeeds (pure a) := ⟨a, rfl⟩

theorem Succeeds.into {x : Made α} (h : Succeeds x) {f : α → β} :
    Succeeds (do return f (← x)) := by
  apply h.bind
  intro a _
  exact succeeds_pure _

theorem Succeeds.map {x : Made α} (h : Succeeds x) (f : α → β) : Succeeds (f <$> x) := by
  obtain ⟨a, ha⟩ := h
  exact ⟨f a, map_eq_ok.2 ⟨a, ha, rfl⟩⟩

theorem succeeds_concat {as : List α} {f : α → Made (List β)}
    (h : ∀ a ∈ as, Succeeds (f a)) : Succeeds (concat (as.map f)) := by
  induction as with
  | nil => exact ⟨[], rfl⟩
  | cons a as ih =>
      apply (h a List.mem_cons_self).bind
      intro xs _
      exact (ih fun b hb => h b (List.mem_cons_of_mem a hb)).into

theorem succeeds_present {as : List α} {f : α → Made (Option β)}
    (h : ∀ a ∈ as, Succeeds (f a)) : Succeeds (present (as.map f)) := by
  rw [present_eq_concat, List.map_map]
  apply succeeds_concat
  intro a ha
  exact (h a ha).map Option.toList

theorem succeeds_mapM {as : List α} {f : α → Made β} (h : ∀ a ∈ as, Succeeds (f a)) :
    Succeeds (as.mapM f) := by
  induction as with
  | nil => exact ⟨[], rfl⟩
  | cons a as ih =>
      rw [List.mapM_cons]
      apply (h a List.mem_cons_self).bind
      intro b _
      exact (ih fun c hc => h c (List.mem_cons_of_mem a hc)).into

end Made

open Made

/-! ## Ranges in order

A mark is refused only for a range that ends before it begins. Nodes of a sensible tree, and nodes
in a row, have ranges in order, so leaves are made of them and text between them is kept. -/

namespace Source

variable {src : Source}

theorem succeeds_markAt {start stop : Int} (h : start ≤ stop) :
    Succeeds (src.markAt start stop) := by
  have hlocation := src.ruler.location_of_le (src.ruler.charOffset_mono h)
  unfold markAt spot location
  rw [hlocation]
  exact ⟨_, rfl⟩

theorem succeeds_leaf {c : Concrete} (h : c.start ≤ c.stop) (l : Leaf) :
    Succeeds (src.leaf c l) := by
  unfold leaf mark
  exact (succeeds_markAt h).into

theorem succeeds_rawAt {start stop : Int} (h : start ≤ stop) : Succeeds (src.rawAt start stop) := by
  unfold rawAt
  exact (succeeds_markAt h).into

theorem succeeds_emptyRaw (octet : Int) : Succeeds (src.emptyRaw octet) := by
  unfold emptyRaw
  exact (succeeds_markAt (Int.le_refl octet)).into

end Source

namespace Concrete

variable {src : Source} {root : Concrete} {length : Nat}

theorem InRow.start_le_stop {lo hi : Int} {cs : List Concrete} (h : InRow lo hi cs)
    {first last : Concrete} (hfirst : cs.head? = some first) (hlast : cs.getLast? = some last) :
    first.start ≤ last.stop := by
  have hin := (h.tighten hfirst hlast).1 first (List.mem_of_head? hfirst)
  exact Int.le_trans hin.2.1 hin.2.2

theorem succeeds_rawSpan {lo hi : Int} {cs : List Concrete} (hrow : InRow lo hi cs)
    (octet : Int) : Succeeds (src.rawSpan cs octet) := by
  unfold Source.rawSpan
  split
  · rename_i first last hfirst hlast
    exact Source.succeeds_rawAt (hrow.start_le_stop hfirst hlast)
  · exact Source.succeeds_emptyRaw octet

/-! ## Sensible trees -/

mutual

/-- An operation that holds nothing but operations that hold nothing, if it holds anything. -/
def isHollow : Concrete → Bool
  | node k _ _ _ _ cs => k == "binary_expression" && allHollow cs

/-- All of some nodes, comments and missing nodes left out, are such operations. -/
def allHollow : List Concrete → Bool
  | [] => true
  | c :: cs => (c.isComment || c.missing || isHollow c) && allHollow cs

end

/-- Whether an operation is hollow is told by its significant children. -/
theorem isHollow_eq (c : Concrete) :
    c.isHollow = (c.kind == "binary_expression" && c.significant.all isHollow) := by
  have hall : ∀ cs : List Concrete,
      allHollow cs = (cs.filter fun d => !d.isComment && !d.missing).all isHollow := by
    intro cs
    induction cs with
    | nil => rfl
    | cons d ds ih =>
        rw [allHollow, ih, List.filter_cons]
        cases d.isComment <;> cases d.missing <;> simp
  cases c with
  | node k s e n m cs => rw [isHollow, hall, kind, significant, children]

/-- If a node has both brackets among its significant children, some opening bracket stands before
some closing one. -/
def BracketsInOrder (c : Concrete) : Prop :=
  "(" ∈ c.significant.map kind → ")" ∈ c.significant.map kind →
    List.Sublist ["(", ")"] (c.significant.map kind)

instance (c : Concrete) : Decidable c.BracketsInOrder :=
  inferInstanceAs (Decidable (_ → _ → _))

/-- A tree with nested ranges, in the arguments of which brackets are in order, and in which every
operation holds something. -/
structure Sensible (root : Concrete) (length : Nat) : Prop where
  nested : root.WellNested length
  brackets : ∀ c ∈ root.walk, c.kind = "arguments" → c.BracketsInOrder
  operations : ∀ c ∈ root.walk, c.isHollow = false

instance (root : Concrete) (length : Nat) : Decidable (root.Sensible length) :=
  decidable_of_iff (root.WellNested length
      ∧ (∀ c ∈ root.walk, c.kind = "arguments" → c.BracketsInOrder)
      ∧ ∀ c ∈ root.walk, c.isHollow = false)
    ⟨fun ⟨hnested, hbrackets, hoperations⟩ => ⟨hnested, hbrackets, hoperations⟩,
      fun h => ⟨h.nested, h.brackets, h.operations⟩⟩

theorem Sensible.leaf (h : root.Sensible length) {c : Concrete} (hc : c ∈ root.walk) (l : Leaf) :
    Succeeds (src.leaf c l) :=
  Source.succeeds_leaf (h.nested.range hc).2.1 l

theorem Sensible.mark (h : root.Sensible length) {c : Concrete} (hc : c ∈ root.walk) :
    Succeeds (src.mark c) :=
  Source.succeeds_markAt (h.nested.range hc).2.1

/-! ## Values -/

theorem Sensible.numberNode (h : root.Sensible length) {c : Concrete} (hc : c ∈ root.walk) :
    Succeeds (numberNode src c) := by
  unfold Concrete.numberNode
  split
  · exact h.leaf hc _
  · simp only
    split <;> exact h.leaf hc _

theorem Sensible.callMembers (h : root.Sensible length) {c : Concrete} {lo hi : Int}
    {ds : List Concrete} (hds : ∀ d ∈ ds, d ∈ root.walk) (hrow : InRow lo hi ds)
    (hvalues : ∀ d ∈ ds, Succeeds (values src d)) :
    Succeeds (callMembers src c (ds.map fun d => ⟨d, values src d⟩)) := by
  have hsplit := List.takeWhile_append_dropWhile (p := fun d : Concrete => d.kind != ",") (l := ds)
  rw [callMembers_eq]
  split
  · split
    · exact succeeds_concat hvalues
    · -- behind the first comma only the ends of the text matter
      rename_i comma after hdrop
      rw [hdrop] at hsplit
      have hafter : InRow comma.stop hi after := by
        rw [← hsplit] at hrow
        exact hrow.split.2
      have hmem : ∀ d ∈ ds.takeWhile fun d => d.kind != ",", d ∈ ds := fun d hd =>
        (List.takeWhile_sublist _).subset hd
      have hcomma : comma ∈ ds := by
        rw [← hsplit]
        exact List.mem_append_right _ List.mem_cons_self
      apply (succeeds_concat fun d hd => hvalues d (hmem d hd)).bind
      intro members _
      apply (h.leaf (hds comma hcomma) _).bind
      intro operator _
      exact (succeeds_rawSpan hafter comma.stop).into
  · exact succeeds_concat hvalues

/-- **Every node makes values.** -/
theorem Sensible.values (h : root.Sensible length) (c : Concrete) (hc : c ∈ root.walk) :
    Succeeds (values src c) := by
  have hinner : Succeeds (valuesOfAll src c.inner) := by
    apply succeeds_concat
    intro d hd
    have := sizeOf_lt_of_mem_inner hd
    exact h.values d (mem_walk_of_mem_inner hc hd)
  rw [values_eq]
  cases c.valueForm with
  | identifier | hash | string | operator | raw => exact (h.leaf hc _).into
  | number => exact (h.numberNode hc).into
  | operation =>
      apply succeeds_concat
      intro d hd
      have := sizeOf_lt_of_mem_significant hd
      exact h.values d (mem_walk_of_mem_significant hc hd)
  | parentheses | brackets =>
      apply hinner.bind
      intro members _
      exact (h.mark hc).into
  | call =>
      have hmembers : Succeeds (Concrete.callMembers src c
          (c.callArguments.map fun d => ⟨d, Concrete.values src d⟩)) := by
        apply h.callMembers (fun d hd => mem_walk_of_mem_callArguments hc hd)
          (h.nested.callArguments hc)
        intro d hd
        have := sizeOf_lt_of_mem_callArguments hd
        exact h.values d (mem_walk_of_mem_callArguments hc hd)
      obtain ⟨members, hmembers⟩ := hmembers
      obtain ⟨m, hm⟩ : Succeeds (src.mark c) := h.mark hc
      have hcall : Succeeds (callNode src c
          (c.callArguments.map fun d => ⟨d, Concrete.values src d⟩)) :=
        ⟨_, callNode_eq_ok.2 ⟨members, hmembers, m, hm, rfl⟩⟩
      exact hcall.into
termination_by sizeOf c

theorem kind_of_valueForm_operation {c : Concrete} (h : c.valueForm = .operation) :
    c.kind = "binary_expression" := by
  unfold valueForm at h
  split_ifs at h
  assumption

/-- **Only a hollow operation makes no value.** -/
theorem isHollow_of_values_eq_nil (c : Concrete) (h : Concrete.values src c = .ok []) :
    c.isHollow = true := by
  rcases values_cases h with
    ⟨l, leaf, -, hnil⟩ | ⟨hform, hnil⟩ | ⟨m, g, members, -, -, hnil⟩ | ⟨m, members, -, -, hnil⟩
  · cases hnil
  · rw [isHollow_eq, kind_of_valueForm_operation hform, beq_self_eq_true, Bool.true_and,
      List.all_eq_true]
    intro d hd
    obtain ⟨made, hmade, hsub⟩ := subset_concat hnil hd
    rw [List.subset_nil.1 hsub] at hmade
    have := sizeOf_lt_of_mem_significant hd
    exact isHollow_of_values_eq_nil d hmade
  · cases hnil
  · cases hnil
termination_by sizeOf c

/-! ## Selectors

The arguments of a pseudo selector are the one place where the order of tokens matters: the text
between the first opening bracket and the last closing one has a range in order only if some
opening bracket stands before some closing one. -/

theorem mem_and_kind_of_find? {cs : List Concrete} {k : String} {d : Concrete}
    (h : cs.find? (·.kind == k) = some d) : d ∈ cs ∧ d.kind = k := by
  have hkind := List.find?_some h
  simp only [beq_iff_eq] at hkind
  exact ⟨List.mem_of_find?_eq_some h, hkind⟩

/-- Two kinds in order are not in order before the first node of the first kind, so the second is
found behind that node. -/
theorem mem_kinds_of_sublist {k l : String} {before after : List Concrete} {first : Concrete}
    (hbefore : ∀ d ∈ before, d.kind ≠ k)
    (hsub : List.Sublist [k, l] ((before ++ first :: after).map kind)) :
    l ∈ after.map kind := by
  induction before with
  | nil =>
      rw [List.nil_append, List.map_cons] at hsub
      rcases List.cons_sublist_cons'.1 hsub with hsub | ⟨-, hsub⟩
      · exact hsub.subset (by simp)
      · exact hsub.subset (by simp)
  | cons d before ih =>
      rw [List.cons_append, List.map_cons] at hsub
      rcases List.cons_sublist_cons'.1 hsub with hsub | ⟨heq, -⟩
      · exact ih (fun e he => hbefore e (List.mem_cons_of_mem d he)) hsub
      · exact absurd heq.symm (hbefore d List.mem_cons_self)

/-- The last node of a kind stands behind a node, if any of the kind does. -/
theorem mem_of_find?_reverse {k : String} {before after : List Concrete} {first last : Concrete}
    (hkind : k ∈ after.map kind)
    (hlast : (before ++ first :: after).reverse.find? (·.kind == k) = some last) :
    last ∈ after := by
  obtain ⟨d, hd, hk⟩ := List.mem_map.1 hkind
  rw [List.reverse_append, List.reverse_cons, List.append_assoc, List.find?_append] at hlast
  cases hfound : after.reverse.find? (·.kind == k) with
  | none =>
      have hnone := List.find?_eq_none.1 hfound d (List.mem_reverse.2 hd)
      exact absurd (beq_iff_eq.2 hk) hnone
  | some found =>
      rw [hfound] at hlast
      obtain rfl := Option.some.inj hlast
      exact List.mem_reverse.1 (List.mem_of_find?_eq_some hfound)

/-- If some opening bracket stands before a closing one, the first opening bracket ends before the
last closing one begins. -/
theorem InRow.brackets {lo hi : Int} {cs : List Concrete} (hrow : InRow lo hi cs)
    (hsub : List.Sublist ["(", ")"] (cs.map kind)) {opening closing : Concrete}
    (hopening : cs.find? (·.kind == "(") = some opening)
    (hclosing : cs.reverse.find? (·.kind == ")") = some closing) :
    opening.stop ≤ closing.start := by
  obtain ⟨-, before, after, rfl, hnone⟩ := List.find?_eq_some_iff_append.1 hopening
  have hbefore : ∀ d ∈ before, d.kind ≠ "(" := by
    intro d hd
    have hother := hnone d hd
    simpa using hother
  have hafter := mem_of_find?_reverse (mem_kinds_of_sublist hbefore hsub) hclosing
  exact (hrow.split.2.1 closing hafter).1

theorem Sensible.selectorArguments (h : root.Sensible length) {c : Concrete}
    (hc : c ∈ root.walk) (hkind : c.kind = "arguments") :
    Succeeds (selectorArguments src c) := by
  unfold Concrete.selectorArguments
  split
  · rename_i opening closing hopening hclosing
    obtain ⟨hfirst, hfirstKind⟩ := mem_and_kind_of_find? hopening
    obtain ⟨hlast, hlastKind⟩ := mem_and_kind_of_find? hclosing
    have hsub := h.brackets c hc hkind (List.mem_map.2 ⟨opening, hfirst, hfirstKind⟩)
      (List.mem_map.2 ⟨closing, List.mem_reverse.1 hlast, hlastKind⟩)
    exact Source.succeeds_rawAt ((h.nested.significant hc).brackets hsub hopening hclosing)
  · exact h.leaf hc _

theorem Sensible.attributeValue (h : root.Sensible length) {cs : List Concrete}
    (hcs : ∀ d ∈ cs, d ∈ root.walk) : Succeeds (attributeValue src cs) := by
  unfold Concrete.attributeValue
  split
  · exact succeeds_pure _
  · split
    · exact succeeds_pure _
    · rename_i d hfound
      have hd := hcs d (List.mem_of_find?_eq_some hfound)
      apply (h.values d hd).bind
      intro ns hns
      cases ns with
      | nil =>
          -- the first of no values is asked for only if the node is a hollow operation
          have hhollow := isHollow_of_values_eq_nil d hns
          rw [h.operations d hd] at hhollow
          cases hhollow
      | cons value others => exact succeeds_pure _

theorem Sensible.attributeNode (h : root.Sensible length) {cs : List Concrete}
    (hcs : ∀ d ∈ cs, d ∈ root.walk) (mark : Mark) : Succeeds (attributeNode src cs mark) := by
  unfold Concrete.attributeNode
  apply (h.attributeValue hcs).bind
  intro value _
  split
  · rename_i nameNode hname
    exact (h.leaf (hcs nameNode (List.mem_of_find?_eq_some hname)) _).into
  · exact succeeds_pure _

theorem Sensible.pseudoNode (h : root.Sensible length) {c : Concrete} (hc : c ∈ root.walk)
    (mark : Mark) (group : String → Group) : Succeeds (pseudoNode src c mark group) := by
  simp only [Concrete.pseudoNode]
  split
  · exact h.leaf hc _
  · split
    · rename_i named nameNode rest hnamed arguments hfound
      obtain ⟨hmem, hkind⟩ := mem_and_kind_of_find? hfound
      have harguments := mem_walk_of_mem_trailing hc (List.mem_filter.1 hmem).1
      exact (h.selectorArguments harguments hkind).into
    · exact succeeds_pure _

theorem Sensible.namedPart (h : root.Sensible length) {c : Concrete} (hc : c ∈ root.walk)
    (mark : Mark) (nameKind : String) (leaf : String → Leaf) :
    Succeeds (namedPart src c mark nameKind leaf) := by
  unfold Concrete.namedPart
  split
  · exact succeeds_pure _
  · exact h.leaf hc _

theorem Sensible.lastPart (h : root.Sensible length) {c : Concrete} (hc : c ∈ root.walk)
    (form : PartForm) : Succeeds (lastPart src c form) := by
  unfold Concrete.lastPart
  apply (Source.succeeds_markAt (h.nested.trailing hc).2.1).bind
  intro mark _
  cases form
  case className | idName => exact h.namedPart hc mark _ _
  case pseudoClass | pseudoElement => exact h.pseudoNode hc mark _
  case «attribute» => exact h.attributeNode (fun d hd => mem_walk_of_mem_trailing hc hd) mark

theorem Sensible.combinatorMark (h : root.Sensible length) {c left right : Concrete}
    (hc : c ∈ root.walk) (hsides : c.sides? = some (left, right)) :
    Succeeds (combinatorMark src c left right) := by
  unfold Concrete.combinatorMark
  split
  · rename_i token htoken
    exact h.mark (mem_walk_of_mem_significant hc (List.mem_of_find?_eq_some htoken))
  · -- without a token the mark is on the gap between the two sides
    have hrow := h.nested.members hc
    rw [members_of_sides? hsides] at hrow
    exact Source.succeeds_markAt ((List.pairwise_cons.1 hrow.2).1 right List.mem_cons_self)

/-- **The parts of every selector are made.** -/
theorem Sensible.selectorParts (h : root.Sensible length) (c : Concrete) (hc : c ∈ root.walk) :
    Succeeds (selectorParts src c) := by
  rw [selectorParts_eq]
  cases c.selectorForm with
  | type | universal | nesting | raw => exact (h.leaf hc _).into
  | combinator name =>
      simp only
      split
      · rename_i left right hsides
        have hlt := sizeOf_lt_of_sides? hsides
        have hwalk := mem_walk_of_sides? hc hsides
        have hleft := hlt.1
        have hright := hlt.2
        apply (h.combinatorMark hc hsides).bind
        intro mark _
        apply (h.selectorParts left hwalk.1).bind
        intro before _
        exact (h.selectorParts right hwalk.2).into
      · exact (h.leaf hc _).into
  | compound form =>
      have hleading : Succeeds (concat (c.leading.map (Concrete.selectorParts src))) := by
        apply succeeds_concat
        intro d hd
        have := sizeOf_lt_of_mem_leading hd
        exact h.selectorParts d (mem_walk_of_mem_leading hc hd)
      apply hleading.bind
      intro before _
      exact (h.lastPart hc form).into
termination_by sizeOf c

theorem Sensible.selectorList (h : root.Sensible length) {c : Concrete} (hc : c ∈ root.walk) :
    Succeeds (selectorList src c) := by
  have hnode : ∀ d ∈ c.members, Succeeds (selectorNode src d) := by
    intro d hd
    have hd := mem_walk_of_mem_members hc hd
    unfold selectorNode
    apply (h.selectorParts d hd).bind
    intro parts _
    exact (h.mark hd).into
  unfold Concrete.selectorList
  apply (succeeds_mapM hnode).bind
  intro selectors _
  exact (h.mark hc).into

/-! ## Declarations -/

theorem Sensible.valueNode (h : root.Sensible length) {cs : List Concrete}
    (hcs : ∀ d ∈ cs, d ∈ root.walk) {lo hi : Int} (hrow : InRow lo hi cs) (octet : Int) :
    Succeeds (valueNode src cs octet) := by
  have hmembers : Succeeds (valuesOfAll src cs) :=
    succeeds_concat fun d hd => h.values d (hcs d hd)
  unfold Concrete.valueNode
  apply hmembers.bind
  intro members _
  split
  · rename_i first last hfirst hlast
    exact (Source.succeeds_markAt (hrow.start_le_stop hfirst hlast)).into
  · exact (Source.succeeds_markAt (Int.le_refl octet)).into

/-- **Every declaration is made.** -/
theorem Sensible.declarationNode (h : root.Sensible length) {c : Concrete}
    (hc : c ∈ root.walk) : Succeeds (declarationNode src c) := by
  have hrow := h.nested.valueNodes hc
  have hvalue : Succeeds (declaredValue src c) := by
    unfold declaredValue
    split
    · exact succeeds_rawSpan hrow c.valueStart
    · exact h.valueNode (fun d hd => mem_walk_of_mem_valueNodes hc hd) hrow c.valueStart
  have hmark : Succeeds (src.markAt c.start c.declarationStop) :=
    Source.succeeds_markAt (h.nested.declarationStop hc).1
  obtain ⟨value, hvalue⟩ := hvalue
  obtain ⟨m, hm⟩ := hmark
  exact ⟨_, declarationNode_eq_ok.2 ⟨value, hvalue, m, hm, rfl⟩⟩

/-! ## Rules and at-rules

A rule needs its selectors and its block, an at-rule the blocks of its children; both are given
what the smaller nodes make. -/

theorem Sensible.ruleOf (h : root.Sensible length) {c : Concrete} (hc : c ∈ root.walk)
    {prelude : Made Node} (hprelude : Succeeds prelude) {body : Option (Made Node)}
    (hbody : ∀ made ∈ body, Succeeds made) : Succeeds (ruleOf src c prelude body) := by
  have hblock : Succeeds (body.getD (emptyBlock src c.stop)) := by
    cases body with
    | some made => exact hbody made rfl
    | none =>
        unfold emptyBlock
        exact (Source.succeeds_markAt (Int.le_refl c.stop)).into
  unfold Concrete.ruleOf
  apply hprelude.bind
  intro prelude _
  apply hblock.bind
  intro block _
  exact (h.mark hc).into

theorem Sensible.rulePrelude (h : root.Sensible length) {c : Concrete} (hc : c ∈ root.walk) :
    Succeeds (rulePrelude src c) := by
  unfold Concrete.rulePrelude
  split
  · rename_i selectors hselectors
    exact h.selectorList (mem_walk_of_mem_children hc (List.mem_of_find?_eq_some hselectors))
  · exact Source.succeeds_emptyRaw c.start

theorem Sensible.keyframePrelude (h : root.Sensible length) {c : Concrete}
    (hc : c ∈ root.walk) : Succeeds (keyframePrelude src c) := by
  unfold Concrete.keyframePrelude
  split
  · rename_i selector hselector
    exact h.leaf (mem_walk_of_mem_significant hc (List.mem_of_find?_eq_some hselector)) _
  · exact Source.succeeds_emptyRaw c.start

theorem succeeds_add (parts : AtruleParts) (d : Concrete) {block : Option (Made Node)}
    (hblock : ∀ made ∈ block, Succeeds made) : Succeeds (parts.add src d block) := by
  unfold AtruleParts.add
  split
  · exact succeeds_pure _
  · cases block with
    | some made => exact (hblock made rfl).into
    | none =>
        simp only
        split <;> exact succeeds_pure _

theorem succeeds_foldlM_add {children : List AtruleChild}
    (hblocks : ∀ d ∈ children, ∀ made ∈ d.block, Succeeds made) (parts : AtruleParts) :
    Succeeds (children.foldlM (fun parts d => parts.add src d.node d.block) parts) := by
  induction children generalizing parts with
  | nil => exact succeeds_pure parts
  | cons d children ih =>
      rw [List.foldlM_cons]
      apply (succeeds_add parts d.node (hblocks d List.mem_cons_self)).bind
      intro next _
      exact ih (fun e he => hblocks e (List.mem_cons_of_mem d he)) next

theorem Sensible.preludeNode (h : root.Sensible length) {cs : List Concrete}
    (hcs : ∀ d ∈ cs, d ∈ root.walk) {lo hi : Int} (hrow : InRow lo hi cs) :
    Succeeds (preludeNode src cs) := by
  have hmembers : Succeeds (concat (cs.map (preludeValues src))) := by
    apply succeeds_concat
    intro d hd
    unfold preludeValues
    split
    · exact (h.leaf (hcs d hd) _).into
    · exact h.values d (hcs d hd)
  unfold Concrete.preludeNode
  split
  · rename_i first last hfirst hlast
    apply hmembers.bind
    intro members _
    exact (Source.succeeds_markAt (hrow.start_le_stop hfirst hlast)).into
  · exact succeeds_pure _

/-- **Every at-rule is made**, as long as the blocks of its children are. -/
theorem Sensible.atruleNode (h : root.Sensible length) {c : Concrete} (hc : c ∈ root.walk)
    (hblocks : ∀ d ∈ c.significant, ∀ made ∈ (atruleChild src d).block, Succeeds made) :
    Succeeds (atruleNode src c (c.significant.map (atruleChild src))) := by
  have hchildren : ∀ d ∈ c.significant.map (atruleChild src), ∀ made ∈ d.block,
      Succeeds made := by
    intro d hd
    obtain ⟨e, he, rfl⟩ := List.mem_map.1 hd
    exact hblocks e he
  unfold Concrete.atruleNode
  apply (succeeds_foldlM_add hchildren _).bind
  intro parts hparts
  -- the nodes of the prelude are some of the children in their order, so they are in a row
  have hsub := prelude_sublist hparts
  have hrow : InRow c.start c.stop parts.prelude := (h.nested.significant hc).sublist hsub
  apply (h.preludeNode (fun d hd => mem_walk_of_mem_significant hc (hsub.subset hd)) hrow).bind
  intro prelude _
  exact (h.mark hc).into

/-! ## Items and blocks

Items, blocks and keyframes are made from each other, so each is made if the smaller nodes make
all three, and the induction comes last. -/

/-- A node makes an item or nothing, a block, and a block of keyframes. -/
structure Makes (src : Source) (c : Concrete) : Prop where
  item : Succeeds (item src c)
  block : Succeeds (block src c)
  keyframes : Succeeds (keyframes src c)

section Step

variable {c : Concrete} (h : root.Sensible length) (hc : c ∈ root.walk)
  (ih : ∀ d ∈ root.walk, sizeOf d < sizeOf c → Makes src d)
include h hc ih

theorem makes_item : Succeeds (item src c) := by
  rw [item_eq]
  cases c.itemForm with
  | rule =>
      have hbody : ∀ made ∈ (c.child? "block").map (block src), Succeeds made := by
        intro made hmade
        obtain ⟨d, hd, rfl⟩ := Option.map_eq_some_iff.1 hmade
        have hd' := mem_walk_of_mem_children hc (List.mem_of_find?_eq_some hd)
        exact (ih d hd' (sizeOf_lt_of_child? hd)).block
      exact (h.ruleOf hc (h.rulePrelude hc) hbody).map some
  | declaration => exact (h.declarationNode hc).map some
  | atrule =>
      have hblocks : ∀ d ∈ c.significant, ∀ made ∈ (atruleChild src d).block,
          Succeeds made := by
        intro d hd made hmade
        have hd' := ih d (mem_walk_of_mem_significant hc hd) (sizeOf_lt_of_mem_significant hd)
        rw [atruleChild] at hmade
        simp only at hmade
        split at hmade
        · obtain rfl := Option.some.inj hmade
          exact hd'.block
        · split at hmade
          · obtain rfl := Option.some.inj hmade
            exact hd'.keyframes
          · cases hmade
      exact (h.atruleNode hc hblocks).map some
  | nothing => exact succeeds_pure none
  | raw => exact (h.leaf hc _).map some

theorem makes_block : Succeeds (block src c) := by
  have hitems : Succeeds (present (c.members.map (item src))) := by
    apply succeeds_present
    intro d hd
    exact (ih d (mem_walk_of_mem_members hc hd) (sizeOf_lt_of_mem_members hd)).item
  rw [block_eq]
  apply hitems.bind
  intro items _
  exact (h.mark hc).into

theorem makes_keyframes : Succeeds (keyframes src c) := by
  have hrules : Succeeds (present (c.significant.map (keyframe src))) := by
    apply succeeds_present
    intro d hd
    have hd' := mem_walk_of_mem_significant hc hd
    have hbody : ∀ made ∈ d.keyframeBody?.map (block src), Succeeds made := by
      intro made hmade
      obtain ⟨e, he, rfl⟩ := Option.map_eq_some_iff.1 hmade
      -- the body of a keyframe is two levels down
      have hlt := Nat.lt_trans (sizeOf_lt_of_keyframeBody? he) (sizeOf_lt_of_mem_significant hd)
      exact (ih e (mem_walk_of_mem_keyframeBody? hd' he) hlt).block
    unfold keyframe
    split
    · exact (h.ruleOf hd' (h.keyframePrelude hd') hbody).map some
    · split
      · exact (h.leaf hd' _).map some
      · exact succeeds_pure none
  rw [keyframes_eq]
  apply hrules.bind
  intro rules _
  exact (h.mark hc).into

end Step

/-- **Items, blocks and keyframes are made.** -/
theorem Sensible.makes (h : root.Sensible length) (c : Concrete) (hc : c ∈ root.walk) :
    Makes src c := by
  have ih : ∀ d ∈ root.walk, sizeOf d < sizeOf c → Makes src d := fun d hd _ => h.makes d hd
  exact ⟨makes_item h hc ih, makes_block h hc ih, makes_keyframes h hc ih⟩
termination_by sizeOf c

/-- **A sensible tree makes a stylesheet.** -/
theorem Sensible.stylesheet (h : root.Sensible length) : Succeeds (stylesheet src root) := by
  have hitems : Succeeds (present (root.significant.map (item src))) := by
    apply succeeds_present
    intro d hd
    exact (h.makes d (mem_walk_of_mem_significant (self_mem_walk root) hd)).item
  unfold Concrete.stylesheet
  apply hitems.bind
  intro items _
  exact (Source.succeeds_markAt (Int.natCast_nonneg src.octets.length)).into

theorem Sensible.comments (h : root.Sensible length) : Succeeds (comments src root) := by
  unfold Concrete.comments
  apply succeeds_mapM
  intro d hd
  exact (h.mark (List.mem_filter.1 hd).1).into

end Concrete

namespace Language

/-- **A sensible tree is read**: of every text for which the grammar gives a sensible tree there is
a result, whatever the kinds of its nodes are, and whichever of them are missing or faulty. -/
theorem parseText_of_sensible {grammar : String → Option Concrete} {text : String} {c : Concrete}
    (hgrammar : grammar text = some c)
    (hsensible : c.Sensible (Text.Utf8.encode text.toList).length) (path : Option Path) :
    ∃ r tree, parseText grammar text path = .ok r ∧ r.tree = some tree := by
  obtain ⟨tree, htree⟩ : Succeeds (c.stylesheet (.ofText text)) := hsensible.stylesheet
  obtain ⟨comments, hcomments⟩ : Succeeds (c.comments (.ofText text)) := hsensible.comments
  have hmade : (do
      let tree ← c.stylesheet (.ofText text)
      let comments ← c.comments (.ofText text)
      return (tree, comments) : Made (Node × List Node)) = .ok (tree, comments) :=
    bind_eq_ok.2 ⟨tree, htree, bind_eq_ok.2 ⟨comments, hcomments, rfl⟩⟩
  unfold parseText
  rw [hgrammar]
  simp only [hmade]
  exact ⟨_, tree.numbered, rfl, rfl⟩

section Selector

/-- The tree of a rule for `a:is(b)[c=1+2]`, with a faulty text in its block. The kinds of the
brackets and the children of the operation are given. -/
private def selectorTree (opening closing : String) (operands : List Concrete) : Concrete :=
  .node "stylesheet" 0 17 true false [.node "rule_set" 0 17 true false
    [.node "selectors" 0 14 true false
        [.node "attribute_selector" 0 14 true false
          [.node "pseudo_class_selector" 0 7 true false
              [.node "tag_name" 0 1 true false [], .node ":" 1 2 false false [],
                .node "class_name" 2 4 true false [],
                .node "arguments" 4 7 true false
                  [.node opening 4 5 false false [], .node "tag_name" 5 6 true false [],
                    .node closing 6 7 false false []]],
            .node "[" 7 8 false false [], .node "attribute_name" 8 9 true false [],
            .node "=" 9 10 false false [], .node "binary_expression" 10 13 true false operands,
            .node "]" 13 14 false false []]],
      .node "block" 14 17 true false
        [.node "\x7b" 14 15 false false [], .node "ERROR" 15 16 true false [],
          .node "\x7d" 16 17 false false []]]]

/-- The operands of `1+2` in it, and the operator between them. -/
private def sum : List Concrete :=
  [.node "integer_value" 10 11 true false [], .node "+" 11 12 false false [],
    .node "integer_value" 12 13 true false []]

/-- A selector with brackets and with an operation is read, and so is the faulty text. -/
theorem parseText_of_sensible_selector :
    (selectorTree "(" ")" sum).Sensible (Text.Utf8.encode "a:is(b)[c=1+2]\x7b?\x7d".toList).length
      ∧ ∃ r tree, parseText (fun _ => some (selectorTree "(" ")" sum))
          "a:is(b)[c=1+2]\x7b?\x7d" none = .ok r ∧ r.tree = some tree := by
  have hsensible : (selectorTree "(" ")" sum).Sensible
      (Text.Utf8.encode "a:is(b)[c=1+2]\x7b?\x7d".toList).length := by
    decide +kernel
  exact ⟨hsensible, parseText_of_sensible rfl hsensible none⟩

/-- Why a tree makes no stylesheet over a text, if it makes none. -/
private def refusal? (c : Concrete) (text : String) : Option TreeError :=
  match c.stylesheet (.ofText text) with
  | .ok _ => none
  | .error reason => some reason

-- the last closing bracket before the first opening one leaves a reversed range between them
example : refusal? (selectorTree ")" "(" sum) "a:is)b([c=1+2]\x7b?\x7d"
    = some (.location .offsetsReversed) := by
  decide +kernel

-- an operation without operands leaves no value for the attribute
example : refusal? (selectorTree "(" ")" []) "a:is(b)[c=1+2]\x7b?\x7d"
    = some .noAttributeValue := by
  decide +kernel

end Selector

end Language

end Stylesheet
