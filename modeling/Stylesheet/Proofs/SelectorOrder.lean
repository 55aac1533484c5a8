/-
The parts of a selector, in the order of the text.

A selector comes out flat, as the parts of the nodes that it is taken apart into with what it adds
of its own: a combinator between two sides, or the last part of a compound behind what it begins
with. The parts of each node lie in that node, and the nodes lie one behind the other, so the parts
can only run into one another where a selector adds its own. That happens in two ways. A compound
whose last part has no name is kept whole, as text, behind the parts of what it begins with
(`Concrete.IsDoubled`). And a combinator has its place from the first token among the children,
which may stand before or behind both sides (`Concrete.IsCrossed`).

So the parts of a selector are in order exactly if neither happens in it. What remains is to tell
where the parts of a node begin and end, which is not where the node does: only of parts in order is
it the first that begins first and the last that ends last (`Node.Spans`).
-/
import Stylesheet.Proofs.Nesting

set_option autoImplicit false

namespace Stylesheet

open Made

namespace Node

/-! ## Lists of nodes from their first to their last -/

variable {n m : Node} {a b c d : Int} {ns ms : List Node}

/-- Whether a node comes before another is told from their ranges. -/
theorem before_iff (hn : n.range? = some (a, b)) (hm : m.range? = some (c, d)) :
    n.Before m ↔ b ≤ c := by
  obtain ⟨loc, hloc, hrange⟩ := Option.map_eq_some_iff.1 hn
  obtain ⟨loc', hloc', hrange'⟩ := Option.map_eq_some_iff.1 hm
  obtain ⟨-, rfl⟩ := Prod.mk.inj hrange
  obtain ⟨rfl, -⟩ := Prod.mk.inj hrange'
  constructor
  · intro h
    exact h loc hloc loc' hloc'
  · intro h l hl l' hl'
    obtain rfl := Option.some.inj (hloc.symm.trans hl)
    obtain rfl := Option.some.inj (hloc'.symm.trans hl')
    exact h

/-- What comes before a node comes before all that the node comes before, if the node has a range:
without one it comes before and after everything. -/
theorem Before.trans {k : Node} (hm : m.range? = some (c, d)) (hn : n.Before m) (hk : m.Before k) :
    n.Before k := by
  obtain ⟨loc, hloc, -⟩ := Option.map_eq_some_iff.1 hm
  intro l hl l' hl'
  exact Int.le_trans (hn l hl loc hloc) (Int.le_trans loc.offset_le (hk loc hloc l' hl'))

/-- Nodes that all have a range: the first begins at one offset, and the last ends at another. -/
structure Spans (lo hi : Int) (ns : List Node) : Prop where
  located : ∀ n ∈ ns, ∃ range, n.range? = some range
  first : ∃ n stop, ns.head? = some n ∧ n.range? = some (lo, stop)
  last : ∃ n start, ns.getLast? = some n ∧ n.range? = some (start, hi)

namespace Spans

theorem single (h : n.range? = some (a, b)) : Spans a b [n] where
  located := fun _ hm => List.mem_singleton.1 hm ▸ ⟨_, h⟩
  first := ⟨n, b, rfl, h⟩
  last := ⟨n, a, rfl, h⟩

theorem append (hn : Spans a b ns) (hm : Spans c d ms) : Spans a d (ns ++ ms) := by
  obtain ⟨first, stop, hfirst, hrange⟩ := hn.first
  obtain ⟨last, start, hlast, hrange'⟩ := hm.last
  refine ⟨?_, ⟨first, stop, ?_, hrange⟩, ⟨last, start, ?_, hrange'⟩⟩
  · intro k hk
    exact (List.mem_append.1 hk).elim (hn.located k) (hm.located k)
  · rw [List.head?_append, hfirst]
    rfl
  · rw [List.getLast?_append, hlast]
    rfl

/-- **Nodes in order come before a node** exactly if the last of them does. -/
theorem forall_before_iff (h : Spans a b ns) (hpairwise : ns.Pairwise Before)
    (hm : m.range? = some (c, d)) : (∀ n ∈ ns, n.Before m) ↔ b ≤ c := by
  obtain ⟨last, start, hlast, hrange⟩ := h.last
  obtain ⟨init, rfl⟩ := List.getLast?_eq_some_iff.1 hlast
  rw [← before_iff hrange hm]
  constructor
  · intro hall
    exact hall last (by simp)
  · intro hbefore n hn
    rcases List.mem_append.1 hn with hn | hn
    · -- through the last, before which it comes
      have hinit := (List.pairwise_append.1 hpairwise).2.2 n hn last (by simp)
      exact hinit.trans hrange hbefore
    · rwa [List.mem_singleton.1 hn]

/-- **A node comes before nodes in order** exactly if it comes before the first of them. -/
theorem forall_after_iff (h : Spans a b ns) (hpairwise : ns.Pairwise Before)
    (hm : m.range? = some (c, d)) : (∀ n ∈ ns, m.Before n) ↔ d ≤ a := by
  obtain ⟨first, stop, hfirst, hrange⟩ := h.first
  obtain ⟨rest, rfl⟩ := List.head?_eq_some_iff.1 hfirst
  rw [← before_iff hm hrange]
  constructor
  · intro hall
    exact hall first List.mem_cons_self
  · intro hbefore n hn
    rcases List.mem_cons.1 hn with rfl | hn
    · exact hbefore
    · exact hbefore.trans hrange ((List.pairwise_cons.1 hpairwise).1 n hn)

/-- Nodes on both sides of a node are in order with it exactly if both sides are in order, the one
ends before the node and the other begins after it. -/
theorem pairwise_around_iff (hn : Spans a b ns) (hm : Spans c d ms) {k : Node} {start stop : Int}
    (hk : k.range? = some (start, stop)) :
    (ns ++ k :: ms).Pairwise Before
      ↔ (ns.Pairwise Before ∧ ms.Pairwise Before) ∧ b ≤ start ∧ stop ≤ c := by
  constructor
  · intro h
    obtain ⟨hleft, hright, hcross⟩ := List.pairwise_append.1 h
    obtain ⟨hafter, hright⟩ := List.pairwise_cons.1 hright
    refine ⟨⟨hleft, hright⟩, ?_, ?_⟩
    · exact (hn.forall_before_iff hleft hk).1 fun n hn => hcross n hn k List.mem_cons_self
    · exact (hm.forall_after_iff hright hk).1 hafter
  · rintro ⟨⟨hleft, hright⟩, hstart, hstop⟩
    have hbefore := (hn.forall_before_iff hleft hk).2 hstart
    have hafter := (hm.forall_after_iff hright hk).2 hstop
    refine List.pairwise_append.2 ⟨hleft, List.pairwise_cons.2 ⟨hafter, hright⟩, ?_⟩
    intro n hn m hm
    rcases List.mem_cons.1 hm with rfl | hm
    · exact hbefore n hn
    · exact (hbefore n hn).trans hk (hafter m hm)

end Spans

end Node

theorem Source.range?_of_markAt {src : Source} {start stop : Int} {n : Node}
    (h : src.markAt start stop = .ok n.mark) :
    n.range? = some (src.ruler.charOffset start, src.ruler.charOffset stop) := by
  obtain ⟨loc, hloc, hstart, hstop⟩ := markAt_eq_ok h
  rw [Node.range?, Node.loc, hloc, ← hstart, ← hstop]
  rfl

namespace Concrete

/-! ## Taking a selector apart

A combinator is taken apart into its two sides, and a compound into what it begins with. These are
significant children, and smaller than the selector, and each builder gives its own part a mark
that is told from the selector: from the marker to the end, or the whole of it. -/

/-- The two sides of a combinator. Other selectors have none. -/
def joined? (c : Concrete) : Option (Concrete × Concrete) :=
  match c.selectorForm with
  | .combinator _ => c.sides?
  | .type | .universal | .nesting | .compound _ | .raw => none

/-- The nodes that a selector is taken apart into: the two sides of a combinator, or what a compound
begins with. -/
def operands (c : Concrete) : List Concrete :=
  match c.selectorForm with
  | .combinator _ => c.joined?.toList.flatMap fun sides => [sides.1, sides.2]
  | .compound _ => c.leading
  | .type | .universal | .nesting | .raw => []

theorem operands_of_joined? {c left right : Concrete} (h : c.joined? = some (left, right)) :
    c.operands = [left, right] := by
  unfold operands
  split
  · rw [h]
    rfl
  all_goals
    rename_i hform
    rw [joined?, hform] at h
    cases h

theorem operands_of_compound {c : Concrete} {form : PartForm}
    (h : c.selectorForm = .compound form) : c.operands = c.leading := by
  rw [operands, h]

theorem joined?_of_compound {c : Concrete} {form : PartForm}
    (h : c.selectorForm = .compound form) : c.joined? = none := by
  rw [joined?, h]

theorem mem_significant_of_mem_operands {c d : Concrete} (h : d ∈ c.operands) :
    d ∈ c.significant := by
  unfold operands at h
  split at h
  · rename_i name hform
    rw [joined?, hform] at h
    obtain ⟨⟨left, right⟩, hsides, h⟩ := List.mem_flatMap.1 h
    have hsig := mem_significant_of_sides? (Option.mem_toList.1 hsides)
    rcases List.mem_pair.1 h with rfl | rfl
    · exact hsig.1
    · exact hsig.2
  · exact mem_significant_of_mem_leading h
  all_goals cases h

theorem sizeOf_lt_of_mem_operands {c d : Concrete} (h : d ∈ c.operands) : sizeOf d < sizeOf c :=
  sizeOf_lt_of_mem_significant (mem_significant_of_mem_operands h)

/-- All nodes that a selector is taken apart into, the selector itself first. -/
def flattened (c : Concrete) : List Concrete :=
  c :: c.operands.attach.flatMap fun ⟨d, _⟩ => flattened d
termination_by sizeOf c
decreasing_by exact sizeOf_lt_of_mem_operands ‹_›

theorem flattened_eq (c : Concrete) : c.flattened = c :: c.operands.flatMap flattened := by
  rw [flattened, List.flatMap_subtype fun _ _ => rfl, List.unattach_attach]

/-- Whether a compound lacks what its last part is told from. It is then kept whole, as text. -/
def isNameless (c : Concrete) : Bool :=
  match c.selectorForm with
  | .compound .className => (c.trailing.find? fun d => d.named && d.kind == "class_name").isNone
  | .compound .idName => (c.trailing.find? fun d => d.named && d.kind == "id_name").isNone
  | .compound .pseudoClass | .compound .pseudoElement => (c.trailing.filter (·.named)).isEmpty
  | .compound .attribute | .type | .universal | .nesting | .combinator _ | .raw => false

theorem isNameless_of_joined? {c : Concrete} {sides : Concrete × Concrete}
    (h : c.joined? = some sides) : c.isNameless = false := by
  unfold joined? at h
  split at h
  · rename_i name hform
    rw [isNameless, hform]
  all_goals cases h

/-- The octet at which the last part of a compound begins: at its marker, or at the start of the
whole. -/
def lastStart (c : Concrete) : Int :=
  if c.isNameless then c.start else c.partStart

/-- The octet at which what a selector adds of its own begins, if that is not a combinator. -/
def ownStart (c : Concrete) : Int :=
  match c.selectorForm with
  | .compound _ => c.lastStart
  | .type | .universal | .nesting | .combinator _ | .raw => c.start

/-- The octet at which the first part of a selector begins. -/
def partsStart (c : Concrete) : Int :=
  match _h : c.operands.head? with
  | some d => partsStart d
  | none => c.ownStart
termination_by sizeOf c
decreasing_by exact sizeOf_lt_of_mem_operands (List.mem_of_head? ‹_›)

theorem sizeOf_lt_of_joined? {c : Concrete} {sides : Concrete × Concrete}
    (h : c.joined? = some sides) : sizeOf sides.1 < sizeOf c ∧ sizeOf sides.2 < sizeOf c := by
  have hoperands := operands_of_joined? h
  constructor
  · exact sizeOf_lt_of_mem_operands (by simp [hoperands])
  · exact sizeOf_lt_of_mem_operands (by simp [hoperands])

/-- The octet at which the last part of a selector ends. -/
def partsStop (c : Concrete) : Int :=
  match _h : c.joined? with
  | some sides => partsStop sides.2
  | none => c.stop
termination_by sizeOf c
decreasing_by exact (sizeOf_lt_of_joined? ‹_›).2

/-- The octets of a combinator: of the first token among the children, or of the gap between the
sides. -/
def combinatorRange (c left right : Concrete) : Int × Int :=
  match c.significant.find? fun d => !d.named with
  | some token => (token.start, token.stop)
  | none => (left.stop, right.start)

/-! ## Parts that run into one another -/

/-- A compound is kept whole although some of what it begins with ends behind its start, and has
parts of its own: its text is there twice. -/
def IsDoubled (src : Source) (c : Concrete) : Prop :=
  c.isNameless = true
    ∧ ∃ d ∈ c.operands, src.ruler.charOffset c.start < src.ruler.charOffset d.partsStop

instance (src : Source) (c : Concrete) : Decidable (c.IsDoubled src) :=
  inferInstanceAs (Decidable (_ ∧ _))

/-- A combinator stands between the parts of its two sides, which may end before the sides do. -/
def IsBetween (src : Source) (c left right : Concrete) : Prop :=
  src.ruler.charOffset left.partsStop ≤ src.ruler.charOffset (c.combinatorRange left right).1
    ∧ src.ruler.charOffset (c.combinatorRange left right).2
      ≤ src.ruler.charOffset right.partsStart

instance (src : Source) (c left right : Concrete) : Decidable (c.IsBetween src left right) :=
  inferInstanceAs (Decidable (_ ∧ _))

/-- A combinator stands elsewhere. -/
def IsCrossed (src : Source) (c : Concrete) : Prop :=
  ∃ sides ∈ c.joined?, ¬ c.IsBetween src sides.1 sides.2

instance (src : Source) (c : Concrete) : Decidable (c.IsCrossed src) :=
  inferInstanceAs (Decidable (∃ sides ∈ c.joined?, _))

/-! ## What a selector is made of -/

variable {src : Source} {c : Concrete}

theorem mark_of_namedPart {mark : Mark} {nameKind : String} {leaf : String → Leaf} {n : Node}
    (hmark : src.markAt c.partStart c.stop = .ok mark)
    (h : namedPart src c mark nameKind leaf = .ok n) :
    src.markAt (if (c.trailing.find? fun d => d.named && d.kind == nameKind).isNone
      then c.start else c.partStart) c.stop = .ok n.mark := by
  rw [namedPart] at h
  cases hfind : c.trailing.find? fun d => d.named && d.kind == nameKind with
  | some d =>
      rw [hfind] at h
      obtain rfl := pure_eq_ok.1 h
      exact hmark
  | none =>
      rw [hfind] at h
      obtain ⟨m, hm, rfl⟩ := Source.leaf_eq_ok.1 h
      exact hm

theorem mark_of_pseudoNode {mark : Mark} {group : String → Group} {n : Node}
    (hmark : src.markAt c.partStart c.stop = .ok mark)
    (h : pseudoNode src c mark group = .ok n) :
    src.markAt (if (c.trailing.filter (·.named)).isEmpty then c.start else c.partStart) c.stop
      = .ok n.mark := by
  simp only [pseudoNode] at h
  cases hnamed : c.trailing.filter (·.named) with
  | nil =>
      rw [hnamed] at h
      obtain ⟨m, hm, rfl⟩ := Source.leaf_eq_ok.1 h
      exact hm
  | cons d ds =>
      rw [hnamed] at h
      simp only at h
      split at h
      · simp only [bind_eq_ok, pure_eq_ok] at h
        obtain ⟨arguments, -, members, -, rfl⟩ := h
        exact hmark
      · simp only [pure_bind, pure_eq_ok] at h
        rw [← h]
        exact hmark

/-- **The last part of a compound** goes from its marker to the end, or from the start if it has no
name. -/
theorem mark_of_lastPart {form : PartForm} (hform : c.selectorForm = .compound form) {n : Node}
    (h : lastPart src c form = .ok n) : src.markAt c.lastStart c.stop = .ok n.mark := by
  simp only [lastPart, bind_eq_ok] at h
  obtain ⟨mark, hmark, h⟩ := h
  rw [lastStart, isNameless, hform]
  cases form with
  | className | idName => exact mark_of_namedPart hmark h
  | pseudoClass | pseudoElement => exact mark_of_pseudoNode hmark h
  | «attribute» =>
      obtain ⟨name, value, rfl, -⟩ := attributeNode_cases h
      exact hmark

theorem mark_of_combinator {left right : Concrete} {mark : Mark}
    (h : combinatorMark src c left right = .ok mark) :
    src.markAt (c.combinatorRange left right).1 (c.combinatorRange left right).2 = .ok mark := by
  rw [combinatorMark] at h
  rw [combinatorRange]
  cases hfind : c.significant.find? fun d => !d.named with
  | some token =>
      rw [hfind] at h
      exact h
  | none =>
      rw [hfind] at h
      exact h

/-- **What a selector is made of**: one part of its own that is no combinator; a combinator between
the parts of the two sides; or the last part of a compound behind the parts of what it begins
with. -/
theorem selectorParts_cases {ns : List Node} (h : selectorParts src c = .ok ns) :
    (c.operands = [] ∧ c.joined? = none
        ∧ ∃ n, ns = [n] ∧ n.kind ≠ .combinator ∧ src.markAt c.ownStart c.stop = .ok n.mark)
      ∨ (∃ name left right mark before after, c.joined? = some (left, right)
        ∧ src.markAt (c.combinatorRange left right).1 (c.combinatorRange left right).2 = .ok mark
        ∧ selectorParts src left = .ok before ∧ selectorParts src right = .ok after
        ∧ ns = before ++ Node.leaf mark (.combinator name) :: after)
      ∨ ∃ form before last, c.selectorForm = .compound form
        ∧ Made.concat (c.operands.map (selectorParts src)) = .ok before
        ∧ lastPart src c form = .ok last ∧ ns = before ++ [last] := by
  rw [selectorParts_eq] at h
  cases hform : c.selectorForm
  all_goals simp only [hform, bind_eq_ok, pure_eq_ok] at h
  case type | universal | nesting | raw =>
    obtain ⟨n, hn, rfl⟩ := h
    obtain ⟨m, hm, rfl⟩ := Source.leaf_eq_ok.1 hn
    refine .inl ⟨by rw [operands, hform], by rw [joined?, hform], _, rfl, nofun, ?_⟩
    rw [ownStart, hform]
    exact hm
  case combinator name =>
    split at h
    · rename_i left right hsides
      simp only [bind_eq_ok, pure_eq_ok] at h
      obtain ⟨mark, hmark, before, hbefore, after, hafter, rfl⟩ := h
      have hjoined : c.joined? = some (left, right) := by rw [joined?, hform, hsides]
      exact .inr (.inl ⟨name, left, right, mark, before, after, hjoined,
        mark_of_combinator hmark, hbefore, hafter, rfl⟩)
    · rename_i hsides
      simp only [bind_eq_ok, pure_eq_ok] at h
      obtain ⟨n, hn, rfl⟩ := h
      obtain ⟨m, hm, rfl⟩ := Source.leaf_eq_ok.1 hn
      have hjoined : c.joined? = none := by rw [joined?, hform, hsides]
      refine .inl ⟨?_, hjoined, _, rfl, nofun, ?_⟩
      · rw [operands, hform, hjoined]
        rfl
      · rw [ownStart, hform]
        exact hm
  case compound form =>
    obtain ⟨before, hbefore, last, hlast, rfl⟩ := h
    exact .inr (.inr ⟨form, before, last, rfl, operands_of_compound hform ▸ hbefore, hlast, rfl⟩)

/-! ## Where the parts begin and end

The first part is that of the first operand, if there is one, and else what the selector adds of
its own. The last part of a combinator is that of its right side, and any other selector has its
own part for the last. -/

theorem partsStart_of_nil (h : c.operands = []) : c.partsStart = c.ownStart := by
  rw [partsStart]
  split
  · rename_i d hd
    rw [h] at hd
    cases hd
  · rfl

theorem partsStart_of_cons {d : Concrete} {ds : List Concrete} (h : c.operands = d :: ds) :
    c.partsStart = d.partsStart := by
  rw [partsStart]
  split
  · rename_i e he
    rw [h] at he
    rw [Option.some.inj he]
  · rename_i hnone
    rw [h] at hnone
    cases hnone

theorem partsStop_of_none (h : c.joined? = none) : c.partsStop = c.stop := by
  rw [partsStop]
  split
  · rename_i d hd
    rw [h] at hd
    cases hd
  · rfl

theorem partsStop_of_some {sides : Concrete × Concrete} (h : c.joined? = some sides) :
    c.partsStop = sides.2.partsStop := by
  rw [partsStop]
  split
  · rename_i sides' hsides
    rw [h] at hsides
    rw [Option.some.inj hsides]
  · rename_i hnone
    rw [h] at hnone
    cases hnone

/-- Parts of some nodes with one more behind them begin with the parts of the first node, and end
with that one. -/
theorem spans_concat {cs : List Concrete}
    (hcs : ∀ d ∈ cs, ∀ ns, selectorParts src d = .ok ns → Node.Spans
      (src.ruler.charOffset d.partsStart) (src.ruler.charOffset d.partsStop) ns)
    {before : List Node} (h : Made.concat (cs.map (selectorParts src)) = .ok before) {last : Node}
    {start stop : Int} (hlast : last.range? = some (start, stop)) :
    Node.Spans ((cs.head?.map fun d => src.ruler.charOffset d.partsStart).getD start) stop
      (before ++ [last]) := by
  induction cs generalizing before with
  | nil =>
      obtain rfl := Except.ok.inj h
      exact .single hlast
  | cons d ds ih =>
      simp only [List.map_cons, Made.concat, bind_eq_ok, pure_eq_ok] at h
      obtain ⟨made, hmade, rest, hrest, rfl⟩ := h
      -- the parts of the first node begin the whole, whatever the others begin with
      rw [List.append_assoc]
      exact (hcs d List.mem_cons_self made hmade).append
        (ih (fun e he => hcs e (List.mem_cons_of_mem d he)) hrest)

/-- **The parts of a selector** have ranges. The first begins and the last ends where it is told
from the concrete tree. -/
theorem spans_selectorParts (c : Concrete) {ns : List Node} (h : selectorParts src c = .ok ns) :
    Node.Spans (src.ruler.charOffset c.partsStart) (src.ruler.charOffset c.partsStop) ns := by
  rcases selectorParts_cases h with
    ⟨hnil, hnone, n, rfl, -, hn⟩ | ⟨name, left, right, mark, before, after, hjoined, hmark,
      hbefore, hafter, rfl⟩ | ⟨form, before, last, hform, hbefore, hlast, rfl⟩
  · rw [partsStart_of_nil hnil, partsStop_of_none hnone]
    exact .single (Source.range?_of_markAt hn)
  · have hsmaller := sizeOf_lt_of_joined? hjoined
    have := hsmaller.1
    have := hsmaller.2
    rw [partsStart_of_cons (operands_of_joined? hjoined), partsStop_of_some hjoined]
    have hmiddle : (Node.leaf mark (.combinator name)).range? = _ := Source.range?_of_markAt hmark
    exact (spans_selectorParts left hbefore).append
      ((Node.Spans.single hmiddle).append (spans_selectorParts right hafter))
  · have hspans := spans_concat (fun d hd made hmade =>
      have := sizeOf_lt_of_mem_operands hd
      spans_selectorParts d hmade) hbefore
      (Source.range?_of_markAt (mark_of_lastPart hform hlast))
    have hstart : (c.operands.head?.map fun d => src.ruler.charOffset d.partsStart).getD
        (src.ruler.charOffset c.lastStart) = src.ruler.charOffset c.partsStart := by
      cases hoperands : c.operands with
      | nil =>
          rw [partsStart_of_nil hoperands, ownStart, hform]
          rfl
      | cons d ds =>
          rw [partsStart_of_cons hoperands]
          rfl
    rw [hstart] at hspans
    rw [partsStop_of_none (joined?_of_compound hform)]
    exact hspans
termination_by sizeOf c

/-! ## Parts in order -/

/-- Nothing that a selector is taken apart into is doubled or crossed. -/
def IsOrderly (src : Source) (c : Concrete) : Prop :=
  ∀ d ∈ c.flattened, ¬ d.IsDoubled src ∧ ¬ d.IsCrossed src

instance (src : Source) (c : Concrete) : Decidable (c.IsOrderly src) :=
  inferInstanceAs (Decidable (∀ d ∈ c.flattened, _))

theorem isOrderly_iff : c.IsOrderly src
    ↔ (¬ c.IsDoubled src ∧ ¬ c.IsCrossed src) ∧ ∀ d ∈ c.operands, d.IsOrderly src := by
  rw [IsOrderly, flattened_eq, List.forall_mem_cons]
  simp only [List.mem_flatMap, forall_exists_index, and_imp, IsOrderly]
  exact and_congr_right' ⟨fun h d hd e he => h e d hd he, fun h e d hd he => h d hd e he⟩

variable {root : Concrete} {length : Nat}

theorem WellNested.leading (hnest : root.WellNested length) (hc : c ∈ root.walk) :
    InRow c.start c.partStart c.leading := by
  have hrow := hnest.significant hc
  rw [Concrete.leading, partStart]
  cases hmarker : c.fromMarker with
  | nil =>
      simp only [List.isEmpty_nil, if_true]
      exact ⟨by simp, .nil⟩
  | cons marker rest =>
      have hsplit : c.significant = c.significant.takeWhile (fun d => !d.isMarker)
          ++ marker :: rest := by
        rw [← hmarker, fromMarker, List.takeWhile_append_dropWhile]
      rw [hsplit] at hrow
      exact hrow.split.1.sublist List.filter_sublist

/-- What nodes in a row make is in order exactly if what each of them makes is. -/
theorem pairwise_concat_iff {lo hi : Int} {cs : List Concrete} (hrow : InRow lo hi cs)
    {f : Concrete → Made (List Node)}
    (hf : ∀ d ∈ cs, ∀ ns, f d = .ok ns → ∀ n ∈ ns, n.Between src d.start d.stop) {ns : List Node}
    (h : Made.concat (cs.map f) = .ok ns) :
    ns.Pairwise Node.Before ↔ ∀ d ∈ cs, ∀ made, f d = .ok made → made.Pairwise Node.Before := by
  induction cs generalizing lo ns with
  | nil =>
      obtain rfl := Except.ok.inj h
      simp
  | cons d ds ih =>
      simp only [List.map_cons, Made.concat, bind_eq_ok, pure_eq_ok] at h
      obtain ⟨first, hfirst, rest, hrest, rfl⟩ := h
      have hafter := (@InRow.split lo hi [] ds d hrow).2
      -- nodes in a row do not overlap, and what is made of a node stays in it
      have hcross : ∀ n ∈ first, ∀ m ∈ rest, n.Before m := by
        intro n hn m hm
        obtain ⟨e, he, made, hmade, hmem⟩ := mem_concat hrest m hm
        have hin := hafter.1 e he
        have hlater : m.Between src d.stop hi :=
          (hf e (List.mem_cons_of_mem d he) made hmade m hmem).mono hin.1 hin.2.2
        exact Node.Within.before (hf d List.mem_cons_self first hfirst n hn) hlater
      rw [List.pairwise_append, List.forall_mem_cons,
        ih hafter (fun e he => hf e (List.mem_cons_of_mem d he)) hrest]
      constructor
      · rintro ⟨hown, hothers, -⟩
        refine ⟨fun made hmade => ?_, hothers⟩
        obtain rfl := Except.ok.inj (hfirst.symm.trans hmade)
        exact hown
      · rintro ⟨hown, hothers⟩
        exact ⟨hown first hfirst, hothers, hcross⟩

/-- **The last part of a compound** stands behind all that it begins with exactly if the compound is
not doubled. This takes the parts of each operand to be in order, as only then the last of them
ends last. -/
theorem forall_before_last_iff (hnest : root.WellNested length) (hc : c ∈ root.walk)
    {form : PartForm} (hform : c.selectorForm = .compound form) {before : List Node}
    (hbefore : Made.concat (c.operands.map (selectorParts src)) = .ok before)
    (hpairwise : ∀ d ∈ c.operands, ∀ ns, selectorParts src d = .ok ns → ns.Pairwise Node.Before)
    {last : Node} (hlast : src.markAt c.lastStart c.stop = .ok last.mark) :
    (∀ n ∈ before, n.Before last) ↔ ¬ c.IsDoubled src := by
  have hrange := Source.range?_of_markAt hlast
  by_cases hname : c.isNameless = true
  · -- the last part is the whole compound
    rw [lastStart, if_pos hname] at hrange
    have hdoubled : ¬ c.IsDoubled src ↔ ∀ d ∈ c.operands,
        src.ruler.charOffset d.partsStop ≤ src.ruler.charOffset c.start := by
      constructor
      · intro hnot d hd
        by_contra hlt
        exact hnot ⟨hname, d, hd, Int.not_le.1 hlt⟩
      · rintro hle ⟨-, d, hd, hlt⟩
        exact Int.not_le.2 hlt (hle d hd)
    rw [hdoubled]
    constructor
    · intro hall d hd
      obtain ⟨ns, hns, hsub⟩ := subset_concat hbefore hd
      exact ((spans_selectorParts d hns).forall_before_iff (hpairwise d hd ns hns) hrange).1
        fun n hn => hall n (hsub hn)
    · intro hle n hn
      obtain ⟨d, hd, ns, hns, hmem⟩ := mem_concat hbefore n hn
      exact ((spans_selectorParts d hns).forall_before_iff (hpairwise d hd ns hns) hrange).2
        (hle d hd) n hmem
  · -- it begins at the marker, before which all operands end
    rw [lastStart, if_neg hname] at hlast
    refine iff_of_true ?_ fun hdoubled => hname hdoubled.1
    intro n hn
    -- a part may end before its operand does, but not behind it
    obtain ⟨d, hd, ns, hns, hmem⟩ := mem_concat hbefore n hn
    have hin := (hnest.leading hc).1 d (operands_of_compound hform ▸ hd)
    have hwalk := mem_walk_of_mem_significant hc (mem_significant_of_mem_operands hd)
    have hearlier : n.Between src d.start c.partStart :=
      (selectorParts_between hnest d hwalk hns n hmem).mono (Int.le_refl _) hin.2.2
    exact Node.Within.before hearlier
      (Source.between_of_markAt hlast (Int.le_refl _) (Int.le_refl _))

theorem isOrderly_of_nil (h : c.operands = []) (hjoined : c.joined? = none) :
    c.IsOrderly src := by
  refine isOrderly_iff.2 ⟨⟨?_, ?_⟩, ?_⟩
  · rintro ⟨-, d, hd, -⟩
    rw [h] at hd
    cases hd
  · rintro ⟨sides, hsides, -⟩
    rw [hjoined] at hsides
    cases hsides
  · intro d hd
    rw [h] at hd
    cases hd

/-- A combinator is orderly exactly if its two sides are, and it stands between their parts. -/
theorem isOrderly_combinator_iff {left right : Concrete}
    (hjoined : c.joined? = some (left, right)) : c.IsOrderly src
      ↔ (left.IsOrderly src ∧ right.IsOrderly src) ∧ c.IsBetween src left right := by
  have hdoubled : ¬ c.IsDoubled src := by
    rintro ⟨hname, -⟩
    rw [isNameless_of_joined? hjoined] at hname
    cases hname
  have hcrossed : ¬ c.IsCrossed src ↔ c.IsBetween src left right := by
    simp [IsCrossed, hjoined]
  have hsides : (∀ d ∈ c.operands, d.IsOrderly src)
      ↔ left.IsOrderly src ∧ right.IsOrderly src := by
    rw [operands_of_joined? hjoined, List.forall_mem_cons, List.forall_mem_singleton]
  have hsplit : c.IsOrderly src ↔ _ := isOrderly_iff
  rw [hsplit, hsides, hcrossed]
  exact ⟨fun h => ⟨h.2, h.1.2⟩, fun h => ⟨⟨hdoubled, h.2⟩, h.1⟩⟩

/-- A compound is orderly exactly if what it begins with is, and it is not doubled. -/
theorem isOrderly_compound_iff {form : PartForm} (hform : c.selectorForm = .compound form) :
    c.IsOrderly src ↔ (∀ d ∈ c.operands, d.IsOrderly src) ∧ ¬ c.IsDoubled src := by
  have hcrossed : ¬ c.IsCrossed src := by
    rintro ⟨sides, hsides, -⟩
    rw [joined?_of_compound hform] at hsides
    cases hsides
  have hsplit : c.IsOrderly src ↔ _ := isOrderly_iff
  rw [hsplit]
  exact ⟨fun h => ⟨h.2, h.1.1⟩, fun h => ⟨⟨h.2, hcrossed⟩, h.1⟩⟩

/-- **The parts of a compound are in order** exactly if those of each node that it begins with are,
and it is not doubled. -/
theorem pairwise_compound_iff (hnest : root.WellNested length) (hc : c ∈ root.walk)
    {form : PartForm} (hform : c.selectorForm = .compound form) {before : List Node}
    (hbefore : Made.concat (c.operands.map (selectorParts src)) = .ok before) {last : Node}
    (hlast : src.markAt c.lastStart c.stop = .ok last.mark) :
    (before ++ [last]).Pairwise Node.Before
      ↔ (∀ d ∈ c.operands, ∀ ns, selectorParts src d = .ok ns → ns.Pairwise Node.Before)
        ∧ ¬ c.IsDoubled src := by
  have hrow : InRow c.start c.partStart c.operands :=
    operands_of_compound hform ▸ hnest.leading hc
  have hinner := pairwise_concat_iff hrow (fun d hd ns hns =>
    selectorParts_between hnest d
      (mem_walk_of_mem_significant hc (mem_significant_of_mem_operands hd)) hns) hbefore
  rw [List.pairwise_append, hinner]
  constructor
  · rintro ⟨hpairwise, -, hcross⟩
    refine ⟨hpairwise, (forall_before_last_iff hnest hc hform hbefore hpairwise hlast).1 ?_⟩
    intro n hn
    exact hcross n hn last (List.mem_singleton_self last)
  · rintro ⟨hpairwise, hdoubled⟩
    refine ⟨hpairwise, List.pairwise_singleton _ _, ?_⟩
    intro n hn m hm
    rw [List.mem_singleton.1 hm]
    exact (forall_before_last_iff hnest hc hform hbefore hpairwise hlast).2 hdoubled n hn

/-- **The parts of a selector are in order** exactly if nothing in it is doubled or crossed. -/
theorem pairwise_selectorParts_iff (hnest : root.WellNested length) (c : Concrete)
    (hc : c ∈ root.walk) {ns : List Node} (h : selectorParts src c = .ok ns) :
    ns.Pairwise Node.Before ↔ c.IsOrderly src := by
  have hwalk : ∀ d ∈ c.operands, d ∈ root.walk := fun d hd =>
    mem_walk_of_mem_significant hc (mem_significant_of_mem_operands hd)
  rcases selectorParts_cases h with
    ⟨hnil, hnone, n, rfl, -⟩ | ⟨name, left, right, mark, before, after, hjoined, hmark,
      hbefore, hafter, rfl⟩ | ⟨form, before, last, hform, hbefore, hlast, rfl⟩
  · exact iff_of_true (List.pairwise_singleton _ _) (isOrderly_of_nil hnil hnone)
  · have hsmaller := sizeOf_lt_of_joined? hjoined
    have := hsmaller.1
    have := hsmaller.2
    have hoperands := operands_of_joined? hjoined
    have hmiddle : (Node.leaf mark (.combinator name)).range? = _ := Source.range?_of_markAt hmark
    rw [(spans_selectorParts left hbefore).pairwise_around_iff (spans_selectorParts right hafter)
        hmiddle,
      pairwise_selectorParts_iff hnest left (hwalk left (by simp [hoperands])) hbefore,
      pairwise_selectorParts_iff hnest right (hwalk right (by simp [hoperands])) hafter,
      isOrderly_combinator_iff hjoined, IsBetween]
  · rw [pairwise_compound_iff hnest hc hform hbefore (mark_of_lastPart hform hlast),
      isOrderly_compound_iff hform]
    -- every node that the compound begins with makes parts, or the compound would make none
    refine and_congr_left' (forall₂_congr fun d hd => ?_)
    have := sizeOf_lt_of_mem_operands hd
    obtain ⟨made, hmade, -⟩ := subset_concat hbefore hd
    have hiff := pairwise_selectorParts_iff hnest d (hwalk d hd) hmade
    constructor
    · intro hall
      exact hiff.1 (hall made hmade)
    · intro horderly made' hmade'
      obtain rfl := Except.ok.inj (hmade.symm.trans hmade')
      exact hiff.2 horderly
termination_by sizeOf c

end Concrete

namespace Node

open Concrete

/-! ## Selectors of the tree -/

variable {src : Source} {root : Concrete}

theorem exists_eq_selector {n : Node} (h : n.kind = .selector) :
    ∃ m ns, n = group m .selector ns := by
  cases n with
  | group m g ns =>
      cases g
      case selector => exact ⟨m, ns, rfl⟩
      all_goals cases h
  | leaf m l => cases l <;> cases h
  | rule | atrule | declaration | attributeSelector | comment => cases h

/-- A node is made from a selector in which something is doubled or crossed. -/
def Overlapping (src : Source) (root : Concrete) (n : Node) : Prop :=
  ∃ c ∈ root.walk, ¬ c.IsOrderly src ∧ ∃ made, selectorNode src c = .ok made ∧ made.bare = n.bare

/-- The children of a node, in order, each with a range. -/
def InOrder (n : Node) : Prop :=
  (∀ d ∈ n.children, ∃ range, d.range? = some range) ∧ n.children.Pairwise Before

theorem inOrder_bare (n : Node) : n.bare.InOrder ↔ n.InOrder := by
  simp only [InOrder, children_bare, List.forall_mem_map, List.pairwise_map, before_bare, range?,
    loc_bare]

/-- **The children of a selector** have ranges, and they are in order exactly if nothing in what it
was made from is doubled or crossed. -/
theorem inOrder_selectorNode_iff (hnest : root.WellNested src.octets.length) {c : Concrete}
    (hc : c ∈ root.walk) {n : Node} (h : selectorNode src c = .ok n) :
    n.InOrder ↔ c.IsOrderly src := by
  obtain ⟨parts, hparts, m, -, rfl⟩ := selectorNode_eq_ok.1 h
  have hlocated := (spans_selectorParts c hparts).located
  rw [← pairwise_selectorParts_iff hnest c hc hparts]
  exact and_iff_right hlocated

/-- An overlapping node is no other than one with children out of order. -/
theorem inOrder_iff_not_overlapping (hnest : root.WellNested src.octets.length) {n : Node}
    (h : ∃ c ∈ root.walk, ∃ made, selectorNode src c = .ok made ∧ made.bare = n.bare) :
    n.InOrder ↔ ¬ n.Overlapping src root := by
  obtain ⟨c, hc, made, hmade, hbare⟩ := h
  constructor
  · rintro hin ⟨d, hd, hnot, other, hother, heq⟩
    rw [← inOrder_bare, ← heq, inOrder_bare] at hin
    exact hnot ((inOrder_selectorNode_iff hnest hd hother).1 hin)
  · intro hnot
    rw [← inOrder_bare, ← hbare, inOrder_bare, inOrder_selectorNode_iff hnest hc hmade]
    by_contra horderly
    exact hnot ⟨c, hc, horderly, made, hmade, hbare⟩

end Node

namespace Language

variable {grammar : String → Option Concrete} {text : String} {path : Option Path} {c : Concrete}
  {r : Parsed Diagnostic}

/-- **The parts of selectors do not overlap.** The children of each selector of the tree that is
read of a text have ranges, one behind the other, exactly if the selector was not made from one in
which a compound is kept whole behind its own parts, or a combinator stands outside its sides. -/
theorem parseText_selectors (hgrammar : grammar text = some c)
    (hnest : c.WellNested (Text.Utf8.encode text.toList).length)
    (hread : parseText grammar text path = .ok r) :
    ∃ tree, r.tree = some tree ∧ ∀ n ∈ tree.preorder, n.kind = .selector →
      (n.InOrder ↔ ¬ n.Overlapping (.ofText text) c) := by
  obtain ⟨tree, hmade, htree, -⟩ := parseText_tree hgrammar hread
  refine ⟨tree.numbered, htree, ?_⟩
  intro n hn hkind
  -- the node before it was numbered
  obtain ⟨e, he, hbare⟩ := Node.exists_bare_eq_of_mem_numbered hn
  have hkind' : e.kind = .selector := by
    rw [← Node.kind_bare, hbare, Node.kind_bare, hkind]
  obtain ⟨m, ns, rfl⟩ := Node.exists_eq_selector hkind'
  obtain ⟨d, hd, hselector⟩ := Concrete.stylesheet_origin hmade _ he
  exact Node.inOrder_iff_not_overlapping hnest ⟨d, hd, _, hselector, hbare⟩

section Nameless

/-- The concrete tree of a rule with one selector and an empty block. -/
private def emptyRuleTree (selector : Concrete) (stop : Int) : Concrete :=
  .node "stylesheet" 0 (stop + 2) true false [.node "rule_set" 0 (stop + 2) true false
    [.node "selectors" 0 stop true false [selector],
      .node "block" stop (stop + 2) true false
        [.node "\x7b" stop (stop + 1) false false [],
          .node "\x7d" (stop + 1) (stop + 2) false false []]]]

/-- A class behind the name of a tag. -/
private def classOf (name : Concrete) : Concrete :=
  .node "class_selector" 0 name.stop true false
    [.node "tag_name" 0 1 true false [], .node "." 1 2 false false [], name]

/-- The tree of `a.b>c` with an empty block. -/
private def childTree : Concrete :=
  emptyRuleTree (.node "child_selector" 0 5 true false
    [classOf (.node "class_name" 2 3 true false []), .node ">" 3 4 false false [],
      .node "tag_name" 4 5 true false []]) 5

/-- The tree of `a.` with an empty block: the name of the class is missing. -/
private def namelessTree : Concrete :=
  emptyRuleTree (classOf (.node "class_name" 2 2 true true [])) 2

/-- A class, a combinator and a tag stand one behind the other. -/
theorem parseText_selectors_child :
    childTree.WellNested (Text.Utf8.encode "a.b>c\x7b\x7d".toList).length
      ∧ ∃ r tree, parseText (fun _ => some childTree) "a.b>c\x7b\x7d" none = .ok r
        ∧ r.tree = some tree ∧ ∀ n ∈ tree.preorder, n.kind = .selector → n.InOrder := by
  have hnest : childTree.WellNested (Text.Utf8.encode "a.b>c\x7b\x7d".toList).length := by
    decide +kernel
  have horderly : ∀ d ∈ childTree.walk, d.IsOrderly (.ofText "a.b>c\x7b\x7d") := by
    decide +kernel
  have hrun : (treeOf? childTree "a.b>c\x7b\x7d").isSome := by decide +kernel
  obtain ⟨tree, htree⟩ := Option.isSome_iff_exists.1 hrun
  obtain ⟨r, hread, hr⟩ := treeOf?_eq_some htree
  obtain ⟨tree', hr', hselectors⟩ := parseText_selectors rfl hnest hread
  obtain rfl := Option.some.inj (hr.symm.trans hr')
  refine ⟨hnest, r, tree, hread, hr, ?_⟩
  intro n hn hkind
  refine (hselectors n hn hkind).2 ?_
  rintro ⟨d, hd, hnot, -⟩
  exact hnot (horderly d hd)

/-- **Without its name a class is kept whole, behind the tag that it begins with**: `a` is there
twice, as a tag and in the text. -/
theorem parseText_namelessClass :
    namelessTree.WellNested (Text.Utf8.encode "a.\x7b\x7d".toList).length
      ∧ ∃ r tree, parseText (fun _ => some namelessTree) "a.\x7b\x7d" none = .ok r
        ∧ r.tree = some tree ∧ ∃ n ∈ tree.preorder, n.kind = .selector
          ∧ n.children.map Node.range? = [some (0, 1), some (0, 2)] ∧ ¬ n.InOrder := by
  have hnest : namelessTree.WellNested (Text.Utf8.encode "a.\x7b\x7d".toList).length := by
    decide +kernel
  have hrun : (treeOf? namelessTree "a.\x7b\x7d").map (fun tree => decide
      ((.selector, [some (0, 1), some (0, 2)]) ∈
        tree.preorder.map fun n => (n.kind, n.children.map Node.range?))) = some true := by
    decide +kernel
  obtain ⟨tree, htree, hmem⟩ := Option.map_eq_some_iff.1 hrun
  obtain ⟨r, hread, hr⟩ := treeOf?_eq_some htree
  obtain ⟨n, hn, hparts⟩ := List.mem_map.1 (of_decide_eq_true hmem)
  obtain ⟨hkind, hranges⟩ := Prod.mk.inj hparts
  refine ⟨hnest, r, tree, hread, hr, n, hn, hkind, hranges, ?_⟩
  rintro ⟨-, hpairwise⟩
  obtain ⟨tag, rest, hchildren, htag, hrest⟩ := List.map_eq_cons_iff.1 hranges
  obtain ⟨whole, others, rfl, hwhole, -⟩ := List.map_eq_cons_iff.1 hrest
  rw [hchildren] at hpairwise
  have hbefore := (List.pairwise_cons.1 hpairwise).1 whole List.mem_cons_self
  exact absurd ((Node.before_iff htag hwhole).1 hbefore) (by decide)

end Nameless

end Language

end Stylesheet
