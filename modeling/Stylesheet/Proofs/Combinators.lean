/-
Combinators stand between the parts of a selector.

The parts of a selector come out flat, and from the list alone it has to be told what a combinator
combines: there is a part on each side of it, and neither is a combinator. This is said of the
kinds of the parts (`Kind.Separated`): there are some, the first and the last are no combinators,
and no two combinators are next to each other. None of the three goes through the induction without
the others. A combinator is next to the last part of its left side and to the first of its right
side, so that the sides have to have parts, and ends that are no combinators; and where the parts
of two nodes follow one another, as in a compound, their ends meet.

Nothing is assumed of the concrete tree. What does not have the form that its kind requires is kept
as text, and text is no combinator.
-/
import Stylesheet.Proofs.SelectorOrder
import Mathlib.Data.List.Chain

set_option autoImplicit false

namespace Stylesheet

open Made

namespace Kind

/-! ## Lists that combinators separate -/

/-- There are kinds, the first and the last are no combinators, and no two combinators are next to
each other. -/
structure Separated (kinds : List Kind) : Prop where
  nonempty : kinds ≠ []
  first : kinds.head? ≠ some .combinator
  last : kinds.getLast? ≠ some .combinator
  apart : kinds.IsChain fun k l => ¬ (k = .combinator ∧ l = .combinator)

instance (kinds : List Kind) : Decidable (Separated kinds) :=
  decidable_of_iff
    (kinds ≠ [] ∧ kinds.head? ≠ some .combinator ∧ kinds.getLast? ≠ some .combinator
      ∧ kinds.IsChain fun k l => ¬ (k = .combinator ∧ l = .combinator))
    ⟨fun h => ⟨h.1, h.2.1, h.2.2.1, h.2.2.2⟩, fun h => ⟨h.nonempty, h.first, h.last, h.apart⟩⟩

namespace Separated

variable {kind : Kind} {ks ls : List Kind}

theorem single (h : kind ≠ .combinator) : Separated [kind] where
  nonempty := List.cons_ne_nil kind []
  first := fun heq => h (Option.some.inj heq)
  last := fun heq => h (Option.some.inj heq)
  apart := .singleton kind

theorem not_meet (hk : Separated ks) :
    ∀ k ∈ ks.getLast?, ∀ l ∈ ls.head?, ¬ (k = .combinator ∧ l = .combinator) := by
  rintro k hlast l - ⟨rfl, -⟩
  exact hk.last hlast

theorem append (hk : Separated ks) (hl : Separated ls) : Separated (ks ++ ls) := by
  refine ⟨List.append_ne_nil_of_left_ne_nil hk.nonempty ls, ?_, ?_, ?_⟩
  · rw [List.head?_append_of_ne_nil ks hk.nonempty]
    exact hk.first
  · rw [List.getLast?_append_of_ne_nil ks hl.nonempty]
    exact hl.last
  · exact List.isChain_append.2 ⟨hk.apart, hl.apart, hk.not_meet⟩

/-- **A combinator may stand between separated kinds**, and so may any other kind. -/
theorem around (hk : Separated ks) (hl : Separated ls) (kind : Kind) :
    Separated (ks ++ kind :: ls) := by
  have hright : (kind :: ls).IsChain fun k l => ¬ (k = .combinator ∧ l = .combinator) := by
    refine List.isChain_cons.2 ⟨?_, hl.apart⟩
    rintro l hfirst ⟨-, rfl⟩
    exact hl.first hfirst
  refine ⟨List.append_ne_nil_of_left_ne_nil hk.nonempty _, ?_, ?_, ?_⟩
  · rw [List.head?_append_of_ne_nil ks hk.nonempty]
    exact hk.first
  · rw [List.getLast?_append_of_ne_nil ks (List.cons_ne_nil kind ls),
      List.getLast?_cons_of_ne_nil hl.nonempty]
    exact hl.last
  · exact List.isChain_append.2 ⟨hk.apart, hright, hk.not_meet⟩

-- a second combinator has no part on its left
example : ¬ Separated ([.typeSelector] ++ .combinator :: [.combinator, .typeSelector]) := by decide

end Separated

end Kind

namespace Concrete

open Kind (Separated)

variable {src : Source} {c : Concrete}

/-! ## Parts of selectors -/

theorem kind_of_raw {n : Node} (h : src.raw c = .ok n) : n.kind ≠ .combinator := by
  obtain ⟨m, -, rfl⟩ := Source.leaf_eq_ok.1 h
  intro hkind
  cases hkind

/-- The last part of a compound is no combinator, whatever it is. -/
theorem kind_of_lastPart {form : PartForm} {n : Node} (h : lastPart src c form = .ok n) :
    n.kind ≠ .combinator := by
  simp only [lastPart, bind_eq_ok] at h
  obtain ⟨mark, -, h⟩ := h
  intro hkind
  cases form with
  | className | idName =>
      rcases namedPart_cases h with hraw | ⟨d, -, rfl⟩
      · exact kind_of_raw hraw hkind
      · cases hkind
  | pseudoClass | pseudoElement =>
      rcases pseudoNode_cases h with hraw | ⟨name, members, rfl, -⟩
      · exact kind_of_raw hraw hkind
      · cases hkind
  | «attribute» =>
      obtain ⟨name, value, rfl, -⟩ := attributeNode_cases h
      cases hkind

/-- What some nodes make is separated with a part behind it, if what each of them makes is. There
may be no nodes, and then the part stands alone. -/
theorem separated_concat {cs : List Concrete}
    (hcs : ∀ d ∈ cs, ∀ ns, selectorParts src d = .ok ns → Separated (ns.map Node.kind))
    {before : List Node} (h : Made.concat (cs.map (selectorParts src)) = .ok before) {last : Node}
    (hlast : last.kind ≠ .combinator) : Separated ((before ++ [last]).map Node.kind) := by
  induction cs generalizing before with
  | nil =>
      obtain rfl := Except.ok.inj h
      exact .single hlast
  | cons d ds ih =>
      simp only [List.map_cons, Made.concat, bind_eq_ok, pure_eq_ok] at h
      obtain ⟨made, hmade, rest, hrest, rfl⟩ := h
      rw [List.append_assoc, List.map_append]
      apply (hcs d List.mem_cons_self made hmade).append
      exact ih (fun e he => hcs e (List.mem_cons_of_mem d he)) hrest

/-- **The parts of a selector are separated by its combinators.** The induction is on what it is
taken apart into. -/
theorem separated_selectorParts (c : Concrete) {ns : List Node}
    (h : selectorParts src c = .ok ns) : Separated (ns.map Node.kind) := by
  rcases selectorParts_cases h with
    ⟨-, -, n, rfl, hkind, -⟩ | ⟨name, left, right, mark, before, after, hjoined, -,
      hbefore, hafter, rfl⟩ | ⟨form, before, last, -, hbefore, hlast, rfl⟩
  · exact .single hkind
  · have hsmaller := sizeOf_lt_of_joined? hjoined
    have := hsmaller.1
    have := hsmaller.2
    rw [List.map_append, List.map_cons]
    exact (separated_selectorParts left hbefore).around (separated_selectorParts right hafter) _
  · have hoperands : ∀ d ∈ c.operands, ∀ ns, selectorParts src d = .ok ns →
        Separated (ns.map Node.kind) := by
      intro d hd ns hns
      have := sizeOf_lt_of_mem_operands hd
      exact separated_selectorParts d hns
    exact separated_concat hoperands hbefore (kind_of_lastPart hlast)
termination_by sizeOf c

/-- **Combinators stand between parts**, whatever the shape of the concrete tree: where parts are
made of a selector, there are some, the first and the last are no combinators, and no two
combinators are next to each other. What is made of a list of selectors has selectors for its
children, and the same is true of the children of each of them. -/
theorem selectorParts_separated (src : Source) (c : Concrete) :
    (∀ ns, selectorParts src c = .ok ns → Separated (ns.map Node.kind))
      ∧ ∀ list, selectorList src c = .ok list →
        ∀ n ∈ list.children, n.kind = .selector ∧ Separated (n.children.map Node.kind) := by
  refine ⟨fun ns => separated_selectorParts c, ?_⟩
  intro list h n hn
  obtain ⟨selectors, hselectors, m, -, rfl⟩ := selectorList_eq_ok.1 h
  obtain ⟨d, -, hd⟩ := mem_mapM hselectors n hn
  obtain ⟨parts, hparts, m, -, rfl⟩ := selectorNode_eq_ok.1 hd
  exact ⟨rfl, separated_selectorParts d hparts⟩

/-- A class without its name in `a>b c.`, which begins with two nodes: two tags with a combinator
between them, and one more tag. -/
private def damagedClass : Concrete :=
  .node "class_selector" 0 6 true false
    [.node "child_selector" 0 3 true false
      [.node "tag_name" 0 1 true false [], .node ">" 1 2 false false [],
        .node "tag_name" 2 3 true false []],
      .node "tag_name" 4 5 true false [], .node "." 5 6 false false []]

/-- The parts of the two nodes follow one another, and the whole stands behind them as text. -/
theorem selectorParts_damagedClass :
    ∃ ns, selectorParts (.ofText "a>b c.") damagedClass = .ok ns
      ∧ ns.map Node.kind = [.typeSelector, .combinator, .typeSelector, .typeSelector, .raw]
      ∧ Separated (ns.map Node.kind) := by
  have hrun : ((selectorParts (.ofText "a>b c.") damagedClass).toOption.map
      (List.map Node.kind)) = some [.typeSelector, .combinator, .typeSelector, .typeSelector, .raw]
    := by decide +kernel
  obtain ⟨ns, hns, hkinds⟩ := Option.map_eq_some_iff.1 hrun
  have hmade := eq_ok_of_toOption hns
  exact ⟨ns, hmade, hkinds, (selectorParts_separated _ damagedClass).1 ns hmade⟩

end Concrete

namespace Language

variable {grammar : String → Option Concrete} {text : String} {path : Option Path} {c : Concrete}
  {r : Parsed Diagnostic}

/-- **In every tree that is read of a text** the children of selectors are separated by their
combinators. -/
theorem separated_of_parseText (hgrammar : grammar text = some c)
    (hread : parseText grammar text path = .ok r) :
    ∃ tree, r.tree = some tree ∧ ∀ n ∈ tree.preorder, n.kind = .selector →
      Kind.Separated (n.children.map Node.kind) := by
  obtain ⟨tree, hmade, htree, -⟩ := parseText_tree hgrammar hread
  refine ⟨tree.numbered, htree, ?_⟩
  intro n hn hkind
  obtain ⟨e, he, hbare⟩ := Node.exists_bare_eq_of_mem_numbered hn
  have hkinds : n.children.map Node.kind = e.children.map Node.kind := by
    have hchildren : n.children.map Node.bare = e.children.map Node.bare := by
      rw [← Node.children_bare, ← Node.children_bare, hbare]
    have hmap := congrArg (List.map Node.kind) hchildren
    simpa only [List.map_map, Function.comp_def, Node.kind_bare] using hmap
  have hselector : e.kind = .selector := by
    rw [← Node.kind_bare, hbare, Node.kind_bare, hkind]
  obtain ⟨m, ns, rfl⟩ := Node.exists_eq_selector hselector
  obtain ⟨d, -, hd⟩ := Concrete.stylesheet_origin hmade _ he
  obtain ⟨parts, hparts, m', -, heq⟩ := Concrete.selectorNode_eq_ok.1 hd
  rw [hkinds, ← heq]
  exact Concrete.separated_selectorParts d hparts

end Language

end Stylesheet
