/-
Two ways to cut the same text.

What is kept as text in a tree was cut from the octets of the text and read as UTF-8 afterwards.
The text that a session gives for a node is cut from the characters, between the offsets that the
ruler has put for the octets. If the cuts fall on boundaries of characters, both give the same
(`excerpt_eq`): what lies before a boundary is a list of characters, the ruler counts them, and
reading undoes writing. There is no need for the octets to be in order, since behind each other
both cuts are empty.

So a node that was made from a range, and that holds the excerpt of that range, says what stands in
the text (`nodeText_of_markAt`). Which nodes do that is read off their origin. A number with a unit
does not hold the excerpt but its two parts, and it is put together again only if the unit is the
end of the number.
-/
import Stylesheet.Proofs.Origin
import Stylesheet.Proofs.ParsedTree
import Stylesheet.Proofs.Utf8
import Stylesheet.Proofs.WellNested

set_option autoImplicit false

namespace Stylesheet

/-! ## Boundaries of characters -/

namespace Text.Utf8

/-- An octet lies between two characters of a text, or at one of its ends. -/
def Boundary (cs : List Char) (octet : Int) : Prop :=
  ∃ before, before <+: cs ∧ octet = (encode before).length

instance (cs : List Char) (octet : Int) : Decidable (Boundary cs octet) :=
  decidable_of_iff (∃ k < cs.length + 1, octet = (encode (cs.take k)).length) <| by
    constructor
    · rintro ⟨k, -, hoctet⟩
      exact ⟨cs.take k, List.take_prefix k cs, hoctet⟩
    · rintro ⟨before, hbefore, hoctet⟩
      refine ⟨before.length, Nat.lt_succ_of_le hbefore.length_le, ?_⟩
      rw [← List.prefix_iff_eq_take.1 hbefore, hoctet]

theorem encode_append (cs ds : List Char) : encode (cs ++ ds) = encode cs ++ encode ds := by
  rw [encode, List.flatMap_append]
  rfl

/-- **A cut between boundaries**: the octets between the ends of two first parts of a text are read
as the characters between them. -/
theorem decodeLossy_slice {cs p q : List Char} (hp : p <+: cs) (hq : q <+: cs) :
    decodeLossy (slice (encode cs) (encode p).length (encode q).length)
      = slice cs p.length q.length := by
  have hcut : ∀ {r : List Char}, r <+: cs →
      (encode r).length ≤ (encode cs).length ∧ (encode cs).take (encode r).length = encode r := by
    rintro r ⟨after, rfl⟩
    rw [encode_append, List.length_append, List.take_left]
    exact ⟨Nat.le_add_right _ _, rfl⟩
  rw [slice_ofNat _ (hcut hp).1 (hcut hq).1, (hcut hq).2, slice_ofNat _ hp.length_le hq.length_le,
    ← List.prefix_iff_eq_take.1 hq]
  rcases List.prefix_or_prefix_of_prefix hp hq with ⟨t, rfl⟩ | ⟨t, rfl⟩
  · rw [encode_append, List.drop_left, List.drop_left, decodeLossy_encode]
  · -- the second part ends before the first, so there is nothing between them
    rw [encode_append, List.drop_eq_nil_iff.2 (by simp), List.drop_eq_nil_iff.2 (by simp)]
    rfl

end Text.Utf8

open Text.Utf8 Made Concrete

/-- All nodes of a tree begin and end on boundaries of the characters of a text. -/
def Concrete.OnBoundaries (root : Concrete) (cs : List Char) : Prop :=
  ∀ c ∈ root.walk, Boundary cs c.start ∧ Boundary cs c.stop

instance (root : Concrete) (cs : List Char) : Decidable (root.OnBoundaries cs) :=
  inferInstanceAs (Decidable (∀ c ∈ root.walk, _))

theorem Concrete.OnBoundaries.boundary {root : Concrete} {cs : List Char}
    (h : root.OnBoundaries cs) {octet : Int} (hedge : root.IsEdge octet) : Boundary cs octet := by
  obtain ⟨c, hc, rfl | rfl⟩ := hedge
  · exact (h c hc).1
  · exact (h c hc).2

/-! ## Excerpts -/

namespace Source

variable {text : String}

theorem charOffset_encode_length {p : List Char} (hp : p <+: text.toList) :
    (ofText text).ruler.charOffset (encode p).length = p.length := by
  obtain ⟨after, hafter⟩ := hp
  rw [ofText, ← hafter]
  exact Ruler.charOffset_length_encode p after

/-- **Both cuts are the same** between boundaries. -/
theorem excerpt_eq {start stop : Int} (hstart : Boundary text.toList start)
    (hstop : Boundary text.toList stop) :
    (ofText text).excerpt start stop
      = String.ofList (slice text.toList ((ofText text).ruler.charOffset start)
        ((ofText text).ruler.charOffset stop)) := by
  obtain ⟨p, hp, rfl⟩ := hstart
  obtain ⟨q, hq, rfl⟩ := hstop
  rw [charOffset_encode_length hp, charOffset_encode_length hq, excerpt, ← decodeLossy_slice hp hq]
  rfl

/-- An excerpt up to the same boundary from a later one on is the end of the other. -/
theorem excerpt_suffix {start mid stop : Int} (hstart : Boundary text.toList start)
    (hmid : Boundary text.toList mid) (hstop : Boundary text.toList stop) (hle : start ≤ mid) :
    ((ofText text).excerpt mid stop).toList <:+ ((ofText text).excerpt start stop).toList := by
  have hoffset := (ofText text).ruler.charOffset_mono hle
  rw [excerpt_eq hmid hstop, excerpt_eq hstart hstop, String.toList_ofList, String.toList_ofList]
  obtain ⟨p, hp, rfl⟩ := hstart
  obtain ⟨q, hq, rfl⟩ := hmid
  obtain ⟨r, hr, rfl⟩ := hstop
  rw [charOffset_encode_length hp, charOffset_encode_length hq] at hoffset ⊢
  rw [charOffset_encode_length hr, slice_ofNat _ hq.length_le hr.length_le,
    slice_ofNat _ hp.length_le hr.length_le]
  exact List.drop_suffix_drop_left _ (Int.ofNat_le.1 hoffset)

end Source

/-- **A node on a range has the excerpt of that range for its text**, if the range lies between
boundaries. -/
theorem Session.nodeText_of_markAt {text : String} {start stop : Int} {m : Mark}
    (hmark : (Source.ofText text).markAt start stop = .ok m)
    (hstart : Boundary text.toList start) (hstop : Boundary text.toList stop) {n : Node}
    (hloc : n.loc = m.loc) : nodeText text n 0 0 = (Source.ofText text).excerpt start stop := by
  obtain ⟨loc, hm, hfirst, hlast⟩ := Source.markAt_eq_ok hmark
  have hnonneg : 0 ≤ (Source.ofText text).ruler.charOffset start := by
    obtain ⟨p, hp, rfl⟩ := hstart
    rw [Source.charOffset_encode_length hp]
    exact Int.natCast_nonneg _
  rw [Source.excerpt_eq hstart hstop]
  unfold nodeText
  rw [hloc, hm]
  simp only [textAt, Int.sub_zero, Int.add_zero, hfirst, hlast, Int.max_eq_left hnonneg]

/-! ## Numbers with units -/

namespace Concrete

/-- The first unit of a number lies in it and ends where it ends. -/
def UnitAtEnd (c : Concrete) : Prop :=
  ∃ w ∈ c.child? "unit", c.start ≤ w.start ∧ w.stop = c.stop

instance (c : Concrete) : Decidable c.UnitAtEnd :=
  inferInstanceAs (Decidable (∃ w ∈ c.child? "unit", _))

/-- A number makes a node, whatever the identity of the node. -/
def MakesNumber (src : Source) (c : Concrete) (n : Node) : Prop :=
  ∃ made, numberNode src c = .ok made ∧ made.bare = n.bare

/-- What is left of a text without its end, and the end, are the text. -/
theorem slice_append_suffix {cs unit : List Char} (h : unit <:+ cs) :
    slice cs 0 ((cs.length : Int) - unit.length) ++ unit = cs := by
  obtain ⟨value, rfl⟩ := h
  have hlength : ((value ++ unit).length : Int) - unit.length = (value.length : Nat) := by
    rw [List.length_append]
    omega
  have hcut := slice_ofNat (value ++ unit) (Nat.zero_le _) (b := value.length) (by simp)
  rw [hlength]
  exact congrArg (· ++ unit) (hcut.trans (by simp))

end Concrete

/-- A number with its unit as it is written. -/
def Leaf.withUnit? : Leaf → Option String
  | .dimension value unit => some (value ++ unit)
  | .percentage value => some (value ++ "%")
  | _ => none

variable {text : String} {c : Concrete}

/-- **A number and its unit are the text of their node**, if the unit is at its end. -/
theorem Concrete.numberNode_with_unit (hbound : c.OnBoundaries text.toList) {d : Concrete}
    (hd : d ∈ c.walk) (hend : d.UnitAtEnd) {n : Node}
    (h : numberNode (.ofText text) d = .ok n) :
    ∃ m l, (Source.ofText text).mark d = .ok m ∧ n = .leaf m l
      ∧ l.withUnit? = some ((Source.ofText text).text d) := by
  obtain ⟨w, hw, hle, hsame⟩ := hend
  have hunit := hbound w (mem_walk_of_mem_children hd (List.mem_of_find?_eq_some hw))
  have hsuffix : ((Source.ofText text).text w).toList <:+ ((Source.ofText text).text d).toList := by
    rw [Source.text, Source.text, hsame]
    exact Source.excerpt_suffix (hbound d hd).1 hunit.1 (hbound d hd).2 hle
  have hwhole := congrArg String.ofList (slice_append_suffix hsuffix)
  rw [String.ofList_append, String.ofList_toList, String.ofList_toList] at hwhole
  rw [numberNode, Option.mem_def.1 hw] at h
  simp only at h
  split at h
  · rename_i hpercent
    obtain ⟨m, hm, rfl⟩ := Source.leaf_eq_ok.1 h
    refine ⟨m, _, hm, rfl, ?_⟩
    rw [Leaf.withUnit?, ← hpercent, hwhole]
  · obtain ⟨m, hm, rfl⟩ := Source.leaf_eq_ok.1 h
    exact ⟨m, _, hm, rfl, congrArg some hwhole⟩

/-! ## The session of a text

A session cuts by characters and a builder by octets. For each form in which a node holds text,
what it holds is the excerpt of the range that its location was made from. -/

namespace Session

variable {n : Node}

theorem nodeText_of_mark (hbound : c.OnBoundaries text.toList) {d : Concrete} (hd : d ∈ c.walk)
    {m : Mark} (hmark : (Source.ofText text).mark d = .ok m) (hloc : n.loc = m.loc) :
    nodeText text n 0 0 = (Source.ofText text).text d :=
  nodeText_of_markAt hmark (hbound d hd).1 (hbound d hd).2 hloc

theorem nodeText_raw (hbound : c.OnBoundaries text.toList) {m : Mark} {value : String}
    (h : (Node.leaf m (.raw value)).Origin (.ofText text) c) (hloc : n.loc = m.loc) :
    nodeText text n 0 0 = value := by
  obtain ⟨start, stop, hstart, hstop, hmark, rfl⟩ := h
  exact nodeText_of_markAt hmark (hbound.boundary hstart) (hbound.boundary hstop) hloc

/-- A number without a unit is the text of its node. -/
theorem nodeText_number (hbound : c.OnBoundaries text.toList) {m : Mark} {value : String}
    (h : (Node.leaf m (.number value)).Origin (.ofText text) c) (hloc : n.loc = m.loc) :
    nodeText text n 0 0 = value := by
  obtain ⟨d, hd, -, hmade⟩ := h
  rw [numberNode] at hmade
  split at hmade
  · obtain ⟨m', hmark, heq⟩ := Source.leaf_eq_ok.1 hmade
    obtain ⟨rfl, hvalue⟩ := Node.leaf.inj heq
    rw [← Leaf.number.inj hvalue]
    exact nodeText_of_mark hbound hd hmark hloc
  · simp only at hmade
    split at hmade
    all_goals
      obtain ⟨m', -, heq⟩ := Source.leaf_eq_ok.1 hmade
      cases heq

theorem nodeText_identifier (hbound : c.OnBoundaries text.toList) {m : Mark} {name : String}
    (h : (Node.leaf m (.identifier name)).ValueOrigin (.ofText text) c) (hloc : n.loc = m.loc) :
    nodeText text n 0 0 = name := by
  obtain ⟨d, hd, hmark, rfl⟩ := h
  exact nodeText_of_mark hbound hd hmark hloc

/-- A number and its unit are the text of any number that makes them and has the unit at its
end. -/
theorem nodeText_with_unit (hbound : c.OnBoundaries text.toList) {d : Concrete} (hd : d ∈ c.walk)
    {m : Mark} {l : Leaf} (hmakes : d.MakesNumber (.ofText text) (.leaf m l)) (hend : d.UnitAtEnd)
    {whole : String} (hwhole : l.withUnit? = some whole) :
    nodeText text (.leaf m l) 0 0 = whole := by
  obtain ⟨made, hnumber, hbare⟩ := hmakes
  obtain ⟨m', l', hmark, rfl, htext⟩ := numberNode_with_unit hbound hd hend hnumber
  obtain ⟨m'', heq, hloc⟩ := Node.bare_eq_leaf hbare
  obtain ⟨rfl, rfl⟩ := Node.leaf.inj heq
  obtain rfl := Option.some.inj (hwhole.symm.trans htext)
  exact nodeText_of_mark hbound hd hmark hloc.symm

end Session

namespace Language

variable {grammar : String → Option Concrete} {path : Option Path} {r : Parsed Diagnostic}

/-- **Nodes say what stands in the text.** If the nodes of the concrete tree lie between boundaries
of characters, the text that the session gives for a node is what the node itself holds. -/
theorem textOf_eq_held (hgrammar : grammar text = some c) (hbound : c.OnBoundaries text.toList)
    (hread : parseText grammar text path = .ok r) :
    ∃ s, Session.ofParsed? r = some s
      ∧ (∀ m value, .leaf m (.raw value) ∈ s.root.preorder →
          s.textOf (.leaf m (.raw value)) = value)
      ∧ (∀ m value, .leaf m (.number value) ∈ s.root.preorder →
          s.textOf (.leaf m (.number value)) = value)
      ∧ (∀ m g ns, .group m g ns ∈ s.root.preorder → g.holdsValues = true →
          ∀ i name, .leaf i (.identifier name) ∈ ns → s.textOf (.leaf i (.identifier name)) = name)
      -- numbers with units, of which each is made from a number of the concrete tree
      ∧ (∀ m value unit, .leaf m (.dimension value unit) ∈ s.root.preorder →
          (∃ d ∈ c.walk, d.valueForm = .number
            ∧ d.MakesNumber (.ofText text) (.leaf m (.dimension value unit)))
          ∧ ∀ d ∈ c.walk, d.MakesNumber (.ofText text) (.leaf m (.dimension value unit)) →
              d.UnitAtEnd → s.textOf (.leaf m (.dimension value unit)) = value ++ unit)
      ∧ (∀ m value, .leaf m (.percentage value) ∈ s.root.preorder →
          (∃ d ∈ c.walk, d.valueForm = .number
            ∧ d.MakesNumber (.ofText text) (.leaf m (.percentage value)))
          ∧ ∀ d ∈ c.walk, d.MakesNumber (.ofText text) (.leaf m (.percentage value)) →
              d.UnitAtEnd → s.textOf (.leaf m (.percentage value)) = value ++ "%") := by
  obtain ⟨tree, hmade, hsession⟩ := ofParsed?_parseText hgrammar hread
  have horigin := stylesheet_origin hmade
  -- a leaf of the numbered tree is one that was made, on the same location
  have hleaf : ∀ m l, .leaf m l ∈ tree.numbered.preorder →
      ∃ m', (Node.leaf m' l).Origin (.ofText text) c ∧ (Node.leaf m l).loc = m'.loc
        ∧ (Node.leaf m' l).bare = (Node.leaf m l).bare := by
    intro m l hmem
    obtain ⟨e, he, hbare⟩ := Node.exists_bare_eq_of_mem_numbered hmem
    obtain ⟨m', rfl, hloc⟩ := Node.bare_eq_leaf hbare
    exact ⟨m', horigin _ he, hloc.symm, hbare⟩
  have hnumber : ∀ m l, .leaf m l ∈ tree.numbered.preorder →
      (∀ m', (Node.leaf m' l).Origin (.ofText text) c →
        ∃ d ∈ c.walk, d.valueForm = .number ∧ numberNode (.ofText text) d = .ok (.leaf m' l)) →
      ∃ d ∈ c.walk, d.valueForm = .number ∧ d.MakesNumber (.ofText text) (.leaf m l) := by
    intro m l hmem hof
    obtain ⟨m', hmade, -, hbare⟩ := hleaf m l hmem
    obtain ⟨d, hd, hform, hnumber⟩ := hof m' hmade
    exact ⟨d, hd, hform, _, hnumber, hbare⟩
  refine ⟨.start text tree.numbered, hsession, fun m value hmem => ?_, fun m value hmem => ?_,
    fun m g ns hmem hg i name hi => ?_,
    fun m value unit hmem => ⟨hnumber m _ hmem fun m' h => h, fun d hd hmakes hend =>
      Session.nodeText_with_unit hbound hd hmakes hend rfl⟩,
    fun m value hmem => ⟨hnumber m _ hmem fun m' h => h, fun d hd hmakes hend =>
      Session.nodeText_with_unit hbound hd hmakes hend rfl⟩⟩
  · obtain ⟨m', hmade, hloc, -⟩ := hleaf m _ hmem
    exact Session.nodeText_raw hbound hmade hloc
  · obtain ⟨m', hmade, hloc, -⟩ := hleaf m _ hmem
    exact Session.nodeText_number hbound hmade hloc
  · obtain ⟨e, he, hbare⟩ := Node.exists_bare_eq_of_mem_numbered hmem
    obtain ⟨m', ns', rfl, -, hns⟩ := Node.bare_eq_group hbare
    obtain ⟨i', hi', hsame⟩ := List.mem_map.1 (hns ▸ List.mem_map_of_mem hi)
    obtain ⟨im, rfl, hloc⟩ := Node.bare_eq_leaf hsame
    exact Session.nodeText_identifier hbound ((horigin _ he).members_of_values hg _ hi') hloc.symm

section Umlauts

/-- The concrete tree of a rule with a number and with names outside of ASCII. -/
private def umlautsTree : Concrete :=
  .node "stylesheet" 0 20 true false [.node "rule_set" 0 20 true false
    [.node "selectors" 0 2 true false [.node "tag_name" 0 2 true false []],
      .node "block" 2 20 true false
        [.node "\x7b" 2 3 false false [],
          .node "declaration" 3 13 true false
            [.node "property_name" 3 4 true false [], .node ":" 4 5 false false [],
              .node "plain_value" 5 7 true false [],
              .node "integer_value" 8 12 true false [.node "unit" 10 12 true false []],
              .node ";" 12 13 false false []],
          .node "declaration" 13 19 true false
            [.node "property_name" 13 16 true false [], .node ":" 16 17 false false [],
              .node "plain_value" 17 19 true false []],
          .node "\x7d" 19 20 false false []]]]

/-- The text of that rule. -/
private def umlautsText : String := "ü\x7bw:ß 10px;--x:é\x7d"

/-- What a leaf holds. -/
private def heldLeaf? : Node → Option Leaf
  | .leaf _ l => some l
  | _ => none

/-- What the leaves among the members of a group of values hold. -/
private def heldValues? : Node → Option (List Leaf)
  | .group _ g ns => if g.holdsValues then some (ns.filterMap heldLeaf?) else none
  | _ => none

private theorem exists_leaf_of_held {ns : List Node} {l : Leaf} (h : l ∈ ns.filterMap heldLeaf?) :
    ∃ m, .leaf m l ∈ ns := by
  obtain ⟨n, hn, hheld⟩ := List.mem_filterMap.1 h
  cases n with
  | leaf m l' => exact ⟨m, Option.some.inj hheld ▸ hn⟩
  | _ => cases hheld

/-- The text of that rule has text that was kept, a number with a unit and a name, and the session
gives for each of them what it holds. -/
theorem textOf_umlauts :
    umlautsTree.OnBoundaries umlautsText.toList
      ∧ ∃ r s, parseText (fun _ => some umlautsTree) umlautsText none = .ok r
        ∧ Session.ofParsed? r = some s
        ∧ (∃ m, .leaf m (.raw "é") ∈ s.root.preorder ∧ s.textOf (.leaf m (.raw "é")) = "é")
        ∧ (∃ m, .leaf m (.dimension "10" "px") ∈ s.root.preorder
          ∧ s.textOf (.leaf m (.dimension "10" "px")) = "10px")
        ∧ ∃ m g ns i, .group m g ns ∈ s.root.preorder ∧ .leaf i (.identifier "ß") ∈ ns
          ∧ s.textOf (.leaf i (.identifier "ß")) = "ß" := by
  have hbound : umlautsTree.OnBoundaries umlautsText.toList := by decide +kernel
  have hends : ∀ d ∈ umlautsTree.walk, d.valueForm = .number → d.UnitAtEnd := by decide +kernel
  have hrun : (parseText (fun _ => some umlautsTree) umlautsText none).toOption.map (fun r =>
      (Session.ofParsed? r).map fun s =>
        (s.root.preorder.filterMap heldLeaf?, s.root.preorder.filterMap heldValues?))
      = some (some ([.typeSelector "ü", .identifier "ß", .dimension "10" "px", .raw "é"],
          [[.identifier "ß", .dimension "10" "px"]])) := by
    decide +kernel
  obtain ⟨r, hr, hheld⟩ := Option.map_eq_some_iff.1 hrun
  have hread := eq_ok_of_toOption hr
  obtain ⟨s, hs, hraw, -, hidentifier, hdimension, -⟩ := textOf_eq_held rfl hbound hread
  rw [hs] at hheld
  obtain ⟨hleaves, hvalues⟩ := Prod.mk.inj (Option.some.inj hheld)
  have hleaf : ∀ l ∈ s.root.preorder.filterMap heldLeaf?, ∃ m, .leaf m l ∈ s.root.preorder :=
    fun l => exists_leaf_of_held
  rw [hleaves] at hleaf
  refine ⟨hbound, r, s, hread, hs, ?_, ?_, ?_⟩
  · obtain ⟨m, hm⟩ := hleaf (.raw "é") (by decide)
    exact ⟨m, hm, hraw m _ hm⟩
  · obtain ⟨m, hm⟩ := hleaf (.dimension "10" "px") (by decide)
    obtain ⟨⟨d, hd, hform, hmakes⟩, htext⟩ := hdimension m _ _ hm
    exact ⟨m, hm, htext d hd hmakes (hends d hd hform)⟩
  · have hmem : [.identifier "ß", .dimension "10" "px"] ∈ s.root.preorder.filterMap heldValues? :=
      hvalues ▸ List.mem_singleton_self _
    obtain ⟨n, hn, hgroup⟩ := List.mem_filterMap.1 hmem
    cases n with
    | group m g ns =>
        rw [heldValues?] at hgroup
        split at hgroup
        · rename_i hg
          have hlist := Option.some.inj hgroup
          have hheld : .identifier "ß" ∈ ns.filterMap heldLeaf? := hlist ▸ List.mem_cons_self
          obtain ⟨i, hi⟩ := exists_leaf_of_held hheld
          exact ⟨m, g, ns, i, hn, hi, hidentifier m g ns hn hg i _ hi⟩
        · cases hgroup
    | _ => cases hgroup

end Umlauts

end Language

end Stylesheet
