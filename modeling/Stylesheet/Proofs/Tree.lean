/-
Places in a tree, and the trails that lead to them.

A place is a node with the nodes above it. The walk knows nothing of places: it keeps a table
of parents by identity, and what stands above a node is found by climbing that table. So the
statements about rules, ancestors and order are made here without the table, by trails from
the root, and the table is compared with them elsewhere.

Identity is a number in the mark of a node, and two facts about it are kept apart. A tree is
*identified* if a number stands for one node, which holds of anything that is built out of
objects. It is *distinct* if, besides, no node hangs in two places.

A node that hangs in several places has a *first* place, in preorder. First places hang together:
right above the first place of a node another node has its own (`find?_placesBelow_parent`), so the
nodes above a first place can be told one by one, each from its identity alone
(`aboveFirst_parent`).
-/
import Mathlib.Data.List.Nodup
import Stylesheet.Node.Basic

set_option autoImplicit false

namespace Stylesheet.Node

/-! ## Induction over a tree -/

@[elab_as_elim]
theorem induction_children {p : Node → Prop} (h : ∀ n : Node, (∀ c ∈ n.children, p c) → p n)
    (n : Node) : p n := by
  apply h
  intro c hc
  exact induction_children h c
termination_by sizeOf n
decreasing_by exact sizeOf_lt_of_mem_children hc

/-! ## Nodes by their kind -/

theorem exists_eq_declaration {n : Node} (h : n.kind = .declaration) :
    ∃ m property value important, n = declaration m property value important := by
  cases n with
  | declaration m property value important => exact ⟨m, property, value, important, rfl⟩
  | leaf m l => cases l <;> cases h
  | group m g ns => cases g <;> cases h
  | _ => cases h

theorem exists_eq_comment {n : Node} (h : n.kind = .comment) : ∃ m text, n = comment m text := by
  cases n with
  | comment m text => exact ⟨m, text, rfl⟩
  | leaf m l => cases l <;> cases h
  | group m g ns => cases g <;> cases h
  | _ => cases h

/-! ## Trails

A trail passes larger nodes the further up it goes, so it never comes back to its root. Trails are
put together at their ends, and split at a node that they pass. -/

/-- The nodes that are passed on the way from the root down to a node, the nearest to the
node first; the node itself is left out. -/
inductive Trail (root : Node) : List Node → Node → Prop where
  | here : Trail root [] root
  | down {above : List Node} {n c : Node} (h : Trail root above n) (hc : c ∈ n.children) :
      Trail root (n :: above) c

theorem Trail.trans {root n m : Node} {above way : List Node} (h : Trail root above n)
    (h' : Trail n way m) : Trail root (way ++ above) m := by
  induction h' with
  | here => exact h
  | down _ hc ih => exact ih.down hc

theorem Trail.of_child {root c m : Node} {way : List Node} (hc : c ∈ root.children)
    (h : Trail c way m) : Trail root (way ++ [root]) m :=
  (Trail.here.down hc).trans h

theorem Trail.sizeOf_lt {root n : Node} {above : List Node} (h : Trail root above n) :
    ∀ a ∈ above, sizeOf n < sizeOf a := by
  induction h with
  | here => simp
  | @down above p c h hc ih =>
      have hlt := sizeOf_lt_of_mem_children hc
      intro a ha
      rcases List.mem_cons.1 ha with rfl | ha
      · exact hlt
      · exact Nat.lt_trans hlt (ih a ha)

theorem Trail.sizeOf_le {root n : Node} {above : List Node} (h : root.Trail above n) :
    sizeOf n ≤ sizeOf root := by
  induction h with
  | here => exact Nat.le_refl _
  | down _ hc ih => exact Nat.le_trans (Nat.le_of_lt (sizeOf_lt_of_mem_children hc)) ih

theorem Trail.eq_root {root n : Node} (h : root.Trail [] n) : root = n := by
  cases h
  rfl

theorem Trail.eq_nil {root : Node} {above : List Node} (h : root.Trail above root) :
    above = [] := by
  cases h with
  | here => rfl
  | down h hc =>
      have hlt := sizeOf_lt_of_mem_children hc
      have hle := h.sizeOf_le
      omega

theorem Trail.split {root d n : Node} {inner outer : List Node}
    (h : root.Trail (inner ++ d :: outer) n) :
    root.Trail outer d ∧ d.Trail (inner ++ [d]) n := by
  induction inner generalizing n with
  | nil =>
      cases h with
      | down h hc => exact ⟨h, Trail.here.down hc⟩
  | cons p inner ih =>
      cases h with
      | down h hc => exact ⟨(ih h).1, (ih h).2.down hc⟩

theorem Trail.eq_concat {d n : Node} {above : List Node} (h : d.Trail above n) (hne : n ≠ d) :
    ∃ inner, above = inner ++ [d] := by
  induction h with
  | here => exact absurd rfl hne
  | @down above p c h hc ih =>
      by_cases hp : p = d
      · subst hp
        exact ⟨[], by rw [h.eq_nil]; rfl⟩
      · obtain ⟨inner, rfl⟩ := ih hp
        exact ⟨p :: inner, rfl⟩

/-! ## Places

The places of a tree are listed in preorder, each with the nodes above it, so that a node that is
shared has as many places as trails lead to it. Without the nodes above them the places are the
preorder. -/

/-- A node of a tree with the nodes above it, the nearest first. -/
structure Place where
  above : List Node
  node : Node

/-- The places of a tree whose root stands below others, in preorder. -/
def placesBelow (above : List Node) (n : Node) : List Place :=
  ⟨above, n⟩ :: n.children.attach.flatMap fun ⟨c, _⟩ => placesBelow (n :: above) c
termination_by sizeOf n
decreasing_by exact sizeOf_lt_of_mem_children ‹_›

/-- The places of a tree, in preorder. -/
def places (root : Node) : List Place := placesBelow [] root

theorem placesBelow_eq (above : List Node) (n : Node) :
    placesBelow above n = ⟨above, n⟩ :: n.children.flatMap (placesBelow (n :: above)) := by
  rw [placesBelow]
  simp

theorem map_node_placesBelow (above : List Node) (n : Node) :
    (placesBelow above n).map Place.node = n.preorder := by
  induction n using induction_children generalizing above with
  | h n ih =>
      rw [placesBelow_eq, preorder_eq, List.map_cons, List.map_flatMap]
      exact congrArg (n :: ·) (List.flatMap_congr fun c hc => ih c hc (n :: above))

theorem mem_placesBelow_child {n m c : Node} {above way : List Node}
    (h : (⟨way, m⟩ : Place) ∈ placesBelow above n) (hc : c ∈ m.children) :
    (⟨m :: way, c⟩ : Place) ∈ placesBelow above n := by
  induction n using induction_children generalizing above with
  | h n ih =>
      rw [placesBelow_eq] at h ⊢
      rcases List.mem_cons.1 h with h | h
      · obtain ⟨rfl, rfl⟩ := Place.mk.inj h
        refine List.mem_cons_of_mem _ (List.mem_flatMap.2 ⟨c, hc, ?_⟩)
        rw [placesBelow_eq]
        exact List.mem_cons_self
      · obtain ⟨d, hd, h⟩ := List.mem_flatMap.1 h
        exact List.mem_cons_of_mem _ (List.mem_flatMap.2 ⟨d, hd, ih d hd h⟩)

/-- **Places are ends of trails.** The places are exactly the nodes that a trail from the root
leads to, each with its trail. -/
theorem mem_placesBelow_iff {n m : Node} {above way : List Node} :
    (⟨way, m⟩ : Place) ∈ placesBelow above n ↔ ∃ t, Trail n t m ∧ way = t ++ above := by
  constructor
  · intro h
    induction n using induction_children generalizing above with
    | h n ih =>
        rw [placesBelow_eq] at h
        rcases List.mem_cons.1 h with h | h
        · obtain ⟨rfl, rfl⟩ := Place.mk.inj h
          exact ⟨[], .here, rfl⟩
        · obtain ⟨c, hc, h⟩ := List.mem_flatMap.1 h
          obtain ⟨t, ht, rfl⟩ := ih c hc h
          exact ⟨t ++ [n], ht.of_child hc, by simp⟩
  · rintro ⟨t, ht, rfl⟩
    -- the way back is along the trail, one child after the other
    induction ht with
    | here =>
        rw [placesBelow_eq]
        exact List.mem_cons_self
    | down _ hc ih => exact mem_placesBelow_child ih hc

theorem mem_places_iff {root n : Node} {above : List Node} :
    (⟨above, n⟩ : Place) ∈ root.places ↔ root.Trail above n := by
  rw [places, mem_placesBelow_iff]
  simp

theorem mem_preorder_iff {root n : Node} : n ∈ root.preorder ↔ ∃ above, root.Trail above n := by
  rw [← map_node_placesBelow [], List.mem_map]
  constructor
  · rintro ⟨p, hp, rfl⟩
    exact ⟨p.above, mem_places_iff.1 hp⟩
  · rintro ⟨above, h⟩
    exact ⟨⟨above, n⟩, mem_places_iff.2 h, rfl⟩

theorem Trail.mem_preorder {root n : Node} {above : List Node} (h : root.Trail above n) :
    n ∈ root.preorder :=
  mem_preorder_iff.2 ⟨above, h⟩

theorem Trail.above_mem_preorder {root n : Node} {above : List Node} (h : root.Trail above n) :
    ∀ a ∈ above, a ∈ root.preorder := by
  induction h with
  | here => simp
  | down h _ ih =>
      intro a ha
      rcases List.mem_cons.1 ha with rfl | ha
      · exact h.mem_preorder
      · exact ih a ha

theorem preorder_subset {root n : Node} (h : n ∈ root.preorder) :
    ∀ m ∈ n.preorder, m ∈ root.preorder := by
  intro m hm
  obtain ⟨above, ht⟩ := mem_preorder_iff.1 h
  obtain ⟨way, ht'⟩ := mem_preorder_iff.1 hm
  exact (ht.trans ht').mem_preorder

theorem mem_preorder_of_mem_children {root n c : Node} (h : n ∈ root.preorder)
    (hc : c ∈ n.children) : c ∈ root.preorder := by
  obtain ⟨above, ht⟩ := mem_preorder_iff.1 h
  exact (ht.down hc).mem_preorder

theorem self_mem_preorder (n : Node) : n ∈ n.preorder :=
  Trail.here.mem_preorder

/-! ## Every node of a tree -/

/-- A property of all nodes of a tree. -/
def Everywhere (p : Node → Prop) (n : Node) : Prop := ∀ m ∈ n.preorder, p m

theorem everywhere_iff {p : Node → Prop} {n : Node} :
    n.Everywhere p ↔ p n ∧ ∀ c ∈ n.children, c.Everywhere p := by
  simp only [Everywhere, preorder_eq n, List.mem_cons, List.mem_flatMap]
  constructor
  · exact fun h => ⟨h n (.inl rfl), fun c hc m hm => h m (.inr ⟨c, hc, hm⟩)⟩
  · rintro ⟨hn, hc⟩ m (rfl | ⟨c, hcmem, hm⟩)
    · exact hn
    · exact hc c hcmem m hm

theorem Everywhere.imp {p q : Node → Prop} {n : Node} (h : n.Everywhere p)
    (hpq : ∀ m, p m → q m) : n.Everywhere q :=
  fun m hm => hpq m (h m hm)

/-! ## Identity

An identity may stand for one node and the node still stand in several places, if it is shared. In
a tree without a node in two places the identities are those of single places, and one trail leads
to each node. -/

/-- An identity stands for one node of the tree only. -/
def Identified (root : Node) : Prop :=
  ∀ a ∈ root.preorder, ∀ b ∈ root.preorder, a.id = b.id → a = b

/-- No node stands in two places of the tree. -/
def Distinct (root : Node) : Prop :=
  (root.preorder.map id).Nodup

theorem Identified.of_mem {root n : Node} (hid : root.Identified) (hn : n ∈ root.preorder) :
    n.Identified := by
  intro a ha b hb
  exact hid a (preorder_subset hn a ha) b (preorder_subset hn b hb)

theorem Distinct.identified {root : Node} (h : root.Distinct) : root.Identified :=
  fun _ ha _ hb hid => List.inj_on_of_nodup_map h ha hb hid

theorem identified_of_everywhere {root : Node} (find : Nat → Node)
    (h : root.Everywhere fun n => find n.id = n) : root.Identified := by
  intro a ha b hb hid
  rw [← h a ha, ← h b hb, hid]

theorem Distinct.place_eq {root : Node} (h : root.Distinct) {p q : Place}
    (hp : p ∈ root.places) (hq : q ∈ root.places) (hid : p.node.id = q.node.id) : p = q := by
  have hn : (root.places.map fun p => p.node.id).Nodup := by
    have hmap := map_node_placesBelow [] root
    rw [Distinct, ← hmap, List.map_map] at h
    exact h
  exact List.inj_on_of_nodup_map hn hp hq hid

theorem Distinct.trail_unique {root n : Node} (h : root.Distinct) {above other : List Node}
    (ht : root.Trail above n) (ht' : root.Trail other n) : above = other :=
  congrArg Place.above (h.place_eq (mem_places_iff.2 ht) (mem_places_iff.2 ht') rfl)

/-- A node and those above it have identities of their own. -/
theorem Trail.nodup_ids {root n : Node} {above : List Node} (hid : root.Identified)
    (h : root.Trail above n) : ((n :: above).map id).Nodup := by
  induction h with
  | here => simp
  | @down above p c h hc ih =>
      have hlt := (h.down hc).sizeOf_lt
      rw [List.map_cons, List.nodup_cons]
      refine ⟨?_, ih⟩
      -- a node above with the identity of this one would be this one, and larger than itself
      intro hmem
      obtain ⟨a, ha, hac⟩ := List.mem_map.1 hmem
      have hroot := (h.down hc).above_mem_preorder a ha
      have heq : a = c := hid a hroot c (h.down hc).mem_preorder hac
      have := hlt a ha
      rw [heq] at this
      exact Nat.lt_irrefl _ this

/-! ## First places

The first place of an identity is found by going through the children in order. All that the walk
says of parents and ancestors is about first places. -/

/-- The first place of an identity is the root's if the root has it, and else it is the first
place in the first child that has one. -/
theorem find?_placesBelow (above : List Node) (n : Node) (k : Nat) :
    (placesBelow above n).find? (·.node.id == k) =
      if n.id = k then some ⟨above, n⟩
      else n.children.findSome? fun c => (placesBelow (n :: above) c).find? (·.node.id == k) := by
  rw [placesBelow_eq, List.find?_cons, List.find?_flatMap]
  by_cases h : n.id = k
  · simp [h]
  · rw [if_neg h, beq_eq_false_iff_ne.2 h]

theorem find?_placesBelow_eq_none_iff {above : List Node} {n : Node} {k : Nat} :
    (placesBelow above n).find? (·.node.id == k) = none ↔ ∀ m ∈ n.preorder, m.id ≠ k := by
  rw [← map_node_placesBelow above n]
  simp

theorem mem_placesBelow_parent {t n p : Node} {above rest : List Node}
    (h : (⟨p :: rest, n⟩ : Place) ∈ placesBelow above t) (hne : p :: rest ≠ above) :
    p ∈ t.preorder ∧ n ∈ p.children := by
  obtain ⟨way, ht, heq⟩ := mem_placesBelow_iff.1 h
  cases ht with
  | here => exact absurd heq hne
  | down ht hc =>
      rw [List.cons_append] at heq
      obtain ⟨rfl, -⟩ := List.cons.inj heq
      exact ⟨ht.mem_preorder, hc⟩

/-- **The parent of a first visit is on its own first visit.** Where a node has its first place,
the node right above it has its first place there too: had it stood earlier, so would all that
hangs below it. -/
theorem find?_placesBelow_parent {t n p : Node} {above rest : List Node} {k : Nat}
    (hid : t.Identified)
    (h : (placesBelow above t).find? (·.node.id == k) = some ⟨p :: rest, n⟩)
    (hne : p :: rest ≠ above) :
    (placesBelow above t).find? (·.node.id == p.id) = some ⟨rest, p⟩ := by
  induction t using induction_children generalizing above with
  | h t ih =>
      have hp := mem_placesBelow_parent (List.mem_of_find?_eq_some h) hne
      have hk : n.id = k := by simpa using List.find?_some h
      rw [find?_placesBelow] at h ⊢
      by_cases htk : t.id = k
      · -- the root itself was found, at the place above which nothing new stands
        rw [if_pos htk] at h
        exact absurd (Place.mk.inj (Option.some.inj h)).1.symm hne
      rw [if_neg htk, List.findSome?_eq_some_iff] at h
      obtain ⟨earlier, c, later, hchildren, hc, hearlier⟩ := h
      have hmem : ∀ d ∈ earlier ++ c :: later, d ∈ t.children := by
        intro d hd
        rw [hchildren]
        exact hd
      by_cases hroot : p :: rest = t :: above
      · obtain ⟨rfl, rfl⟩ := List.cons.inj hroot
        rw [if_pos rfl]
      · have hct : c ∈ t.children := hmem c (by simp)
        have hbelow := mem_placesBelow_parent (List.mem_of_find?_eq_some hc) hroot
        have hcid := hid.of_mem (mem_preorder_of_mem_children (self_mem_preorder t) hct)
        -- the parent is not the root, for it stands in one of the children of the root
        have htp : t.id ≠ p.id := by
          intro heq
          have : t = p := hid t (self_mem_preorder t) p hp.1 heq
          subst this
          obtain ⟨way, ht⟩ := mem_preorder_iff.1 hbelow.1
          have hlt := (ht.of_child hct).sizeOf_lt t (by simp)
          exact Nat.lt_irrefl _ hlt
        rw [if_neg htp, List.findSome?_eq_some_iff]
        refine ⟨earlier, c, later, hchildren, ih c hct hcid hc hroot, ?_⟩
        -- in an earlier child the parent would have brought the node with it
        intro d hd
        have hnone := find?_placesBelow_eq_none_iff.1 (hearlier d hd)
        rw [find?_placesBelow_eq_none_iff]
        intro q hq hqp
        have hdt : d ∈ t.children := hmem d (by simp [hd])
        have hsub := preorder_subset (mem_preorder_of_mem_children (self_mem_preorder t) hdt)
        have : q = p := hid q (hsub q hq) p hp.1 hqp
        subst this
        exact hnone n (mem_preorder_of_mem_children hq hbelow.2) hk

/-- The nodes above the first place, in preorder, of an identity, the nearest first. There are none
above the root, and none for an identity that no node of the tree has. -/
def aboveFirst (root : Node) (k : Nat) : List Node :=
  (root.places.find? (·.node.id == k)).elim [] Place.above

/-- Above the parent of a first visit stands what stands above the node, but for the parent. -/
theorem aboveFirst_parent {root p : Node} {rest : List Node} {k : Nat} (hid : root.Identified)
    (h : root.aboveFirst k = p :: rest) : root.aboveFirst p.id = rest := by
  rw [aboveFirst] at h
  cases hfind : root.places.find? (·.node.id == k) with
  | none =>
      rw [hfind] at h
      cases h
  | some q =>
      rw [hfind] at h
      obtain ⟨above, n⟩ := q
      obtain rfl : above = p :: rest := h
      rw [aboveFirst, places, find?_placesBelow_parent hid hfind (List.cons_ne_nil p rest)]
      rfl

/-- A trail leads to each node of the tree past the nodes above its first place. -/
theorem exists_trail_aboveFirst {root n : Node} (hid : root.Identified) (h : n ∈ root.preorder) :
    root.Trail (root.aboveFirst n.id) n := by
  rw [aboveFirst]
  cases hfind : root.places.find? (·.node.id == n.id) with
  | none => exact absurd rfl (find?_placesBelow_eq_none_iff.1 hfind n h)
  | some q =>
      have ht := mem_places_iff.1 (List.mem_of_find?_eq_some hfind)
      have hq : q.node.id = n.id := by simpa using List.find?_some hfind
      rw [hid q.node ht.mem_preorder n h hq] at ht
      exact ht

theorem aboveFirst_eq_nil {root : Node} {k : Nat} (h : ∀ m ∈ root.preorder, m.id ≠ k) :
    root.aboveFirst k = [] := by
  rw [aboveFirst, places, find?_placesBelow_eq_none_iff.2 h]
  rfl

theorem Distinct.aboveFirst_eq {root n : Node} (h : root.Distinct) {above : List Node}
    (ht : root.Trail above n) : root.aboveFirst n.id = above :=
  h.trail_unique (exists_trail_aboveFirst h.identified ht.mem_preorder) ht

end Stylesheet.Node
