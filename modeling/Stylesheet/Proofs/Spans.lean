/-
Nodes by their offsets: one inside another, one behind another.

A node is *tight* if it has a location and its children lie inside it, one behind the other. In a
tree of tight nodes two nodes never overlap unless one stands below the other, and the preorder
lists them in the order of the text (`pairwise_preorder_of_tight`). Where only some nodes matter,
less is needed: children in which there is none of them may lie anywhere (`starts_of_orderly`).
-/
import Stylesheet.Proofs.Numbering

set_option autoImplicit false

namespace Stylesheet.Node

/-! ## Nodes in a row

A row may be taken between wider offsets, and two rows of which the second begins where the first
may end are one row. -/

/-- A node has a location between two offsets. -/
def Within (lo hi : Int) (n : Node) : Prop :=
  ∃ loc, n.loc = some loc ∧ lo ≤ loc.start.offset ∧ loc.stop.offset ≤ hi

/-- A node ends before another begins, or where it begins. -/
def Before (n m : Node) : Prop :=
  ∀ a ∈ n.loc, ∀ b ∈ m.loc, a.stop.offset ≤ b.start.offset

/-- Nodes lie between two offsets, each ending before the next begins. -/
def Row (lo hi : Int) (ns : List Node) : Prop :=
  (∀ n ∈ ns, n.Within lo hi) ∧ ns.Pairwise Before

theorem Within.mono {lo lo' hi hi' : Int} {n : Node} (h : n.Within lo hi) (hlo : lo' ≤ lo)
    (hhi : hi ≤ hi') : n.Within lo' hi' := by
  obtain ⟨loc, hloc, hstart, hstop⟩ := h
  exact ⟨loc, hloc, Int.le_trans hlo hstart, Int.le_trans hstop hhi⟩

theorem Within.before {lo mid hi : Int} {n m : Node} (hn : n.Within lo mid)
    (hm : m.Within mid hi) : n.Before m := by
  obtain ⟨a, ha, -, hstop⟩ := hn
  obtain ⟨b, hb, hstart, -⟩ := hm
  intro a' ha' b' hb'
  obtain rfl := Option.some.inj (ha.symm.trans ha')
  obtain rfl := Option.some.inj (hb.symm.trans hb')
  exact Int.le_trans hstop hstart

theorem row_nil (lo hi : Int) : Row lo hi [] := ⟨by simp, .nil⟩

theorem Within.row {lo hi : Int} {n : Node} (h : n.Within lo hi) : Row lo hi [n] :=
  ⟨by simpa using h, List.pairwise_singleton _ _⟩

theorem Row.mono {lo lo' hi hi' : Int} {ns : List Node} (h : Row lo hi ns) (hlo : lo' ≤ lo)
    (hhi : hi ≤ hi') : Row lo' hi' ns :=
  ⟨fun n hn => (h.1 n hn).mono hlo hhi, h.2⟩

theorem Row.append {lo mid hi : Int} {ns ms : List Node} (hn : Row lo mid ns)
    (hm : Row mid hi ms) (hlo : lo ≤ mid) (hhi : mid ≤ hi) : Row lo hi (ns ++ ms) := by
  refine ⟨fun n h => ?_, List.pairwise_append.2
    ⟨hn.2, hm.2, fun n h m h' => (hn.1 n h).before (hm.1 m h')⟩⟩
  rcases List.mem_append.1 h with h | h
  · exact (hn.1 n h).mono (Int.le_refl lo) hhi
  · exact (hm.1 n h).mono hlo (Int.le_refl hi)

/-! ## Tight trees -/

/-- A node has a location, and its children are in a row in it. -/
def Tight (n : Node) : Prop :=
  ∃ loc, n.loc = some loc ∧ Row loc.start.offset loc.stop.offset n.children

/-- A node stands above another: the other is in the tree of one of its children. -/
def Above (n m : Node) : Prop := ∃ c ∈ n.children, m ∈ c.preorder

theorem Above.sizeOf_lt {n m : Node} (h : n.Above m) : sizeOf m < sizeOf n := by
  obtain ⟨c, hc, hm⟩ := h
  obtain ⟨above, ht⟩ := mem_preorder_iff.1 hm
  exact (ht.of_child hc).sizeOf_lt n (by simp)

theorem within_of_everywhere_tight {n : Node} (h : n.Everywhere Tight) {lo hi : Int}
    (hn : n.Within lo hi) : n.Everywhere (Within lo hi) := by
  induction n using induction_children generalizing lo hi with
  | h n ih =>
      obtain ⟨⟨loc, hloc, hrow⟩, hchildren⟩ := everywhere_iff.1 h
      refine everywhere_iff.2 ⟨hn, fun c hc => ih c hc (hchildren c hc) ?_⟩
      obtain ⟨loc', hloc', hstart, hstop⟩ := hn
      obtain rfl := Option.some.inj (hloc.symm.trans hloc')
      exact (hrow.1 c hc).mono hstart hstop

/-- **The order of the text.** Of two nodes of a tight tree the one that comes later in preorder
stands below the other, or begins behind it. -/
theorem pairwise_preorder_of_tight {n : Node} (h : n.Everywhere Tight) :
    n.preorder.Pairwise fun u v => u.Above v ∨ u.Before v := by
  induction n using induction_children with
  | h n ih =>
      obtain ⟨⟨loc, hloc, hrow⟩, hchildren⟩ := everywhere_iff.1 h
      rw [preorder_eq, List.pairwise_cons]
      refine ⟨fun v hv => .inl (List.mem_flatMap.1 hv), ?_⟩
      rw [List.pairwise_flatMap]
      refine ⟨fun c hc => ih c hc (hchildren c hc), ?_⟩
      -- nodes in the trees of two children lie where those children lie
      refine List.Pairwise.imp_of_mem ?_ hrow.2
      rintro a b ha hb hab u hu v hv
      obtain ⟨la, hla, -, -⟩ := hrow.1 a ha
      obtain ⟨lb, hlb, -, -⟩ := hrow.1 b hb
      have hu := within_of_everywhere_tight (hchildren a ha)
        ⟨la, hla, Int.le_refl _, hab la hla lb hlb⟩ u hu
      have hv := within_of_everywhere_tight (hchildren b hb)
        ⟨lb, hlb, Int.le_refl _, Int.le_refl _⟩ v hv
      exact .inr (hu.before hv)

/-! ## Chosen nodes by their starts -/

/-- A node starts where another starts, or before. -/
def StartsNoLater (n m : Node) : Prop :=
  ∃ a b, n.loc = some a ∧ m.loc = some b ∧ a.start.offset ≤ b.start.offset

/-- A node has a location, and its children are in a row in it, except for some that come first and
in which there is no chosen node. -/
def Orderly (chosen : Node → Bool) (n : Node) : Prop :=
  ∃ loc, n.loc = some loc ∧ ∃ before after, n.children = before ++ after
    ∧ (∀ c ∈ before, ∀ m ∈ c.preorder, chosen m = false)
    ∧ Row loc.start.offset loc.stop.offset after

theorem Tight.orderly {chosen : Node → Bool} {n : Node} (h : n.Tight) : n.Orderly chosen := by
  obtain ⟨loc, hloc, hrow⟩ := h
  exact ⟨loc, hloc, [], n.children, rfl, by simp, hrow⟩

/-- The chosen nodes of an orderly tree are its root, if that is chosen, and those in the children
that are in a row. -/
theorem filter_preorder_eq {chosen : Node → Bool} {n : Node} {before after : List Node}
    (hchildren : n.children = before ++ after)
    (hnone : ∀ c ∈ before, ∀ m ∈ c.preorder, chosen m = false) :
    n.preorder.filter chosen
      = [n].filter chosen ++ after.flatMap fun c => c.preorder.filter chosen := by
  have hbefore : before.flatMap (fun c => c.preorder.filter chosen) = [] := by
    apply List.flatMap_eq_nil_iff.2
    intro c hc
    apply List.filter_eq_nil_iff.2
    intro m hm
    rw [hnone c hc m hm]
    exact Bool.false_ne_true
  rw [preorder_eq, hchildren, ← List.singleton_append, List.filter_append, List.filter_flatMap,
    List.flatMap_append, hbefore, List.nil_append]

/-- **Chosen nodes in the order of the text.** The chosen nodes of an orderly tree lie where the
tree lies, and none starts before one that comes earlier in preorder. -/
theorem starts_of_orderly {chosen : Node → Bool} {n : Node} (h : n.Everywhere (Orderly chosen))
    {lo hi : Int} (hn : n.Within lo hi) :
    (∀ m ∈ n.preorder.filter chosen, m.Within lo hi)
      ∧ (n.preorder.filter chosen).Pairwise StartsNoLater := by
  induction n using induction_children generalizing lo hi with
  | h n ih =>
      obtain ⟨⟨loc, hloc, before, after, hchildren, hnone, hrow⟩, hbelow⟩ := everywhere_iff.1 h
      have ⟨loc', hloc', hstart, hstop⟩ := hn
      obtain rfl := Option.some.inj (hloc.symm.trans hloc')
      have hmem : ∀ c ∈ after, c ∈ n.children := by
        intro c hc
        rw [hchildren]
        exact List.mem_append_right before hc
      have hin : ∀ m ∈ after.flatMap (fun c => c.preorder.filter chosen),
          m.Within loc.start.offset loc.stop.offset := by
        intro m hm
        obtain ⟨c, hc, hm⟩ := List.mem_flatMap.1 hm
        exact (ih c (hmem c hc) (hbelow c (hmem c hc)) (hrow.1 c hc)).1 m hm
      rw [filter_preorder_eq hchildren hnone]
      constructor
      · intro m hm
        rcases List.mem_append.1 hm with hm | hm
        · rw [List.mem_singleton.1 (List.mem_filter.1 hm).1]
          exact hn
        · exact (hin m hm).mono hstart hstop
      · apply List.pairwise_append.2
        refine ⟨(List.pairwise_singleton _ n).filter chosen, ?_, ?_⟩
        · apply List.pairwise_flatMap.2
          refine ⟨fun c hc => (ih c (hmem c hc) (hbelow c (hmem c hc)) (hrow.1 c hc)).2, ?_⟩
          -- what is chosen in two children lies where those children lie
          refine List.Pairwise.imp_of_mem ?_ hrow.2
          intro a b ha hb hab u hu v hv
          obtain ⟨la, hla, -, -⟩ := hrow.1 a ha
          obtain ⟨lb, hlb, -, -⟩ := hrow.1 b hb
          obtain ⟨lu, hlu, -, hend⟩ := (ih a (hmem a ha) (hbelow a (hmem a ha))
            ⟨la, hla, Int.le_refl _, Int.le_refl _⟩).1 u hu
          obtain ⟨lv, hlv, hbegin, -⟩ := (ih b (hmem b hb) (hbelow b (hmem b hb))
            ⟨lb, hlb, Int.le_refl _, Int.le_refl _⟩).1 v hv
          have hle := lu.offset_le
          have hgap := hab la hla lb hlb
          exact ⟨lu, lv, hlu, hlv, by omega⟩
        · intro u hu v hv
          rw [List.mem_singleton.1 (List.mem_filter.1 hu).1]
          obtain ⟨lv, hlv, hbegin, -⟩ := hin v hv
          exact ⟨loc, lv, hloc, hlv, hbegin⟩

/-! ## Spans without identities

None of these notions looks at identities, so they hold of a numbered tree as of the tree that it
was. -/

theorem within_bare {lo hi : Int} (n : Node) : n.bare.Within lo hi ↔ n.Within lo hi := by
  rw [Within, Within, loc_bare]

theorem before_bare (n m : Node) : n.bare.Before m.bare ↔ n.Before m := by
  rw [Before, Before, loc_bare, loc_bare]

theorem tight_bare (n : Node) : n.bare.Tight ↔ n.Tight := by
  simp only [Tight, Row, loc_bare, children_bare, List.forall_mem_map, List.pairwise_map,
    within_bare, before_bare]

theorem startsNoLater_bare (n m : Node) : n.bare.StartsNoLater m.bare ↔ n.StartsNoLater m := by
  rw [StartsNoLater, StartsNoLater, loc_bare, loc_bare]

/-- Nodes that are chosen without regard to identities are in order in two trees that are the same
without identities, or in neither. -/
theorem pairwise_filter_of_bare_eq {chosen : Node → Bool} (hchosen : ∀ n, chosen n.bare = chosen n)
    {n m : Node} (heq : n.bare = m.bare)
    (h : (m.preorder.filter chosen).Pairwise StartsNoLater) :
    (n.preorder.filter chosen).Pairwise StartsNoLater := by
  have hbare : ∀ a : Node, a.bare.preorder.filter chosen = (a.preorder.filter chosen).map bare := by
    intro a
    rw [preorder_bare, List.filter_map]
    exact congrArg (List.map bare) (List.filter_congr fun b _ => hchosen b)
  have hmap : ((n.preorder.filter chosen).map bare).Pairwise StartsNoLater := by
    rw [← hbare, heq, hbare]
    exact List.pairwise_map.2 (h.imp fun hle => (startsNoLater_bare _ _).2 hle)
  exact (List.pairwise_map.1 hmap).imp fun hle => (startsNoLater_bare _ _).1 hle

end Stylesheet.Node
