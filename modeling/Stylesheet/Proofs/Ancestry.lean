/-
The steps of a walk are the places of the tree, and climbing the parents follows a trail.

A walk records the parent below which a node is entered first, under the identity of the node.
What is found in that table is therefore a question about the list of entering steps alone,
which `get?_foldl_addParent` answers for any list of steps. For the steps of a tree the list is
that of the places (`filter_enter_steps`), and the first place with a given identity decides
(`parent?_eq_head?`).

The table has one parent for each node, and a climb puts together what it has of several. That
this is a trail, and the one of the first visit, is a fact about first places
(`Node.aboveFirst_parent`), and the only thing asked of the tree is that an identity stands for
one node. Climbing has a bound, the length of the table. It is enough because the nodes passed on a
climb have different identities and all of them but the root have a parent, so the table has as
many entries as the climb has nodes (`length_le_parents`).
-/
import Mathlib.Data.List.Nodup
import Mathlib.Data.List.Perm.Subperm
import Stylesheet.Proofs.Tree
import Stylesheet.Session.Resolution

set_option autoImplicit false

namespace Stylesheet

/-! ## Steps and places -/

/-- The step that enters a node at its place. -/
def Node.Place.entering (p : Node.Place) : Step := ⟨.enter, p.node, p.above.head?⟩

namespace Node

/-- **Entering steps are places.** The steps by which a walk enters nodes are those at the
places of the tree, in the same order. -/
theorem filter_enter_steps (above : List Node) (n : Node) :
    (n.steps above.head?).filter (·.phase = .enter)
      = (placesBelow above n).map Place.entering := by
  induction n using induction_children generalizing above with
  | h n ih =>
      have hchildren : n.children.flatMap
            (fun c => (c.steps (some n)).filter (·.phase = .enter))
          = n.children.flatMap fun c => (placesBelow (n :: above) c).map Place.entering :=
        List.flatMap_congr fun c hc => ih c hc (n :: above)
      rw [steps_eq, placesBelow_eq, List.map_cons, List.map_flatMap, ← hchildren]
      simp [List.filter_flatMap, Place.entering]

theorem entered_steps (parent : Option Node) (n : Node) :
    Walk.entered (n.steps parent) = n.preorder := by
  have h := filter_enter_steps parent.toList n
  rw [Option.head?_toList] at h
  rw [Walk.entered, h, List.map_map, ← map_node_placesBelow parent.toList n]
  rfl

/-! ## Trees as they are meant -/

/-- No comment stands in the tree. -/
def NoComment (root : Node) : Prop :=
  ∀ n ∈ root.preorder, n.kind ≠ .comment

/-- The preludes of the at-rules in the tree are groups. -/
def PreludesAreGroups (root : Node) : Prop :=
  ∀ m name p b, Node.atrule m name (some p) b ∈ root.preorder → p.members?.isSome

/-- The blocks of the at-rules in the tree are groups. -/
def BlocksAreGroups (root : Node) : Prop :=
  ∀ m name p b, Node.atrule m name p (some b) ∈ root.preorder → b.members?.isSome

theorem preludesAreGroups_of_noAtrule {root : Node} (h : ∀ n ∈ root.preorder, n.kind ≠ .atrule) :
    root.PreludesAreGroups :=
  fun _ _ _ _ hm => absurd rfl (h _ hm)

theorem blocksAreGroups_of_noAtrule {root : Node} (h : ∀ n ∈ root.preorder, n.kind ≠ .atrule) :
    root.BlocksAreGroups :=
  fun _ _ _ _ hm => absurd rfl (h _ hm)

/-- The declarations in the tree have a value. -/
def DeclarationsHaveValues (root : Node) : Prop :=
  ∀ n ∈ root.preorder, ∀ value ∈ n.declared?, value.isSome

end Node

namespace Walk

/-! ## Walks that are made -/

/-- A tree has a walk exactly if every node of it can be entered, and then the walk is what is
learnt from its steps. -/
theorem ofTree_eq_ok_iff {root : Node} {w : Walk} :
    ofTree root = .ok w
      ↔ (∀ n ∈ root.preorder, obstacle? n = none) ∧ w = ofSteps (root.steps none) := by
  rw [ofTree]
  cases h : root.preorder.findSome? obstacle? with
  | none =>
      rw [List.findSome?_eq_none_iff] at h
      exact ⟨fun hw => ⟨h, (Except.ok.inj hw).symm⟩, fun hw => congrArg _ hw.2.symm⟩
  | some e =>
      constructor
      · intro hw
        cases hw
      · intro hw
        rw [List.findSome?_eq_none_iff.2 hw.1] at h
        cases h

theorem obstacle?_of_comment {n : Node} (h : n.kind = .comment) :
    obstacle? n = some (.shape .comment) := by
  obtain ⟨m, text, rfl⟩ := Node.exists_eq_comment h
  rfl

/-- Where the preludes are groups, every node but a comment can be entered. -/
theorem obstacle?_of_preludesAreGroups {root n : Node} (hp : root.PreludesAreGroups)
    (hn : n ∈ root.preorder) (hc : n.kind ≠ .comment) : obstacle? n = none := by
  cases n with
  | comment m v => exact absurd rfl hc
  | atrule m name p b =>
      cases p with
      | none => rfl
      | some p =>
          have hgroup := hp m name p b hn
          -- only a prelude without members stands in the way
          rw [obstacle?, if_neg]
          rintro ⟨-, hnone⟩
          rw [Option.isNone_iff_eq_none] at hnone
          rw [hnone] at hgroup
          cases hgroup
  | _ => rfl

theorem ofTree_of_noComment {root : Node} (hc : root.NoComment) (hp : root.PreludesAreGroups) :
    ofTree root = .ok (.ofSteps (root.steps none)) :=
  ofTree_eq_ok_iff.2 ⟨fun n hn => obstacle?_of_preludesAreGroups hp hn (hc n hn), rfl⟩

/-! ## The table of parents -/

/-- The parent that a step gives to the node with an identity. -/
def parentGiven? (k : Nat) (s : Step) : Option Node :=
  if s.target.id = k then s.parent else none

/-- **The table of parents.** Under an identity it holds what was there before, or else what the
first of the entering steps that gives that node a parent gives it. -/
theorem get?_foldl_addParent (steps : List Step) (parents : Assoc Nat Node) (k : Nat) :
    Assoc.get? (steps.foldl addParent parents) k
      = (Assoc.get? parents k).or
          ((steps.filter (·.phase = .enter)).findSome? (parentGiven? k)) := by
  induction steps generalizing parents with
  | nil => simp
  | cons s steps ih =>
      rw [List.foldl_cons, ih]
      obtain ⟨phase, target, parent⟩ := s
      cases phase with
      | exit => simp [addParent]
      | enter =>
          have hfilter : ((⟨.enter, target, parent⟩ : Step) :: steps).filter (·.phase = .enter)
              = ⟨.enter, target, parent⟩ :: steps.filter (·.phase = .enter) := by simp
          rw [hfilter, List.findSome?_cons]
          cases parent with
          | none => simp [addParent, parentGiven?]
          | some p =>
              simp only [addParent, parentGiven?]
              by_cases hhas : Assoc.has parents target.id = true
              · -- the node has its parent already, so a later one is not looked at
                rw [if_pos hhas]
                by_cases hk : target.id = k
                · subst hk
                  obtain ⟨q, hq⟩ := Option.isSome_iff_exists.1 hhas
                  simp [hq]
                · simp [hk]
              · rw [if_neg hhas]
                by_cases hk : target.id = k
                · subst hk
                  have hnone : Assoc.get? parents target.id = none := by
                    simpa [Assoc.has] using hhas
                  rw [Assoc.get?_put_self, hnone]
                  simp
                · rw [Assoc.get?_put_of_ne hk]
                  simp [hk]

theorem parentGiven?_entering (k : Nat) (p : Node.Place) :
    parentGiven? k p.entering = if p.node.id = k then p.above.head? else none := rfl

/-- The parent of a node is what the first place with its identity that is not the root's has
right above it. -/
theorem parent?_ofSteps (root n : Node) :
    (ofSteps (root.steps none)).parent? n
      = root.places.findSome? fun p => parentGiven? n.id p.entering := by
  have hsteps := Node.filter_enter_steps [] root
  rw [List.head?_nil] at hsteps
  rw [parent?, ofSteps, get?_foldl_addParent, hsteps, List.findSome?_map]
  rfl

/-- Places of other nodes give a node no parent. -/
private theorem findSome?_parentGiven?_eq_none {k : Nat} {places : List Node.Place}
    (h : ∀ p ∈ places, p.node.id = k → p.above = []) :
    places.findSome? (fun p => parentGiven? k p.entering) = none := by
  apply List.findSome?_eq_none_iff.2
  intro p hp
  rw [parentGiven?_entering]
  by_cases hk : p.node.id = k
  · rw [if_pos hk, h p hp hk]
    rfl
  · rw [if_neg hk]

/-- **The parent of a node** is the nearest of the nodes above its first place. -/
theorem parent?_eq_head? {root : Node} (hid : root.Identified) (n : Node) :
    (ofSteps (root.steps none)).parent? n = (root.aboveFirst n.id).head? := by
  rw [parent?_ofSteps, Node.aboveFirst]
  cases hfind : root.places.find? (·.node.id == n.id) with
  | none =>
      rw [List.find?_eq_none] at hfind
      apply findSome?_parentGiven?_eq_none
      intro p hp hk
      exact absurd hk (by simpa using hfind p hp)
  | some p =>
      obtain ⟨hp, earlier, later, hplaces, hearlier⟩ := List.find?_eq_some_iff_append.1 hfind
      have hpid : p.node.id = n.id := by simpa using hp
      have hnone : earlier.findSome? (fun q => parentGiven? n.id q.entering) = none := by
        apply findSome?_parentGiven?_eq_none
        intro q hq hk
        exact absurd hk (by simpa using hearlier q hq)
      rw [hplaces, List.findSome?_append, hnone, Option.none_or, List.findSome?_cons,
        parentGiven?_entering, if_pos hpid]
      show _ = p.above.head?
      cases habove : p.above with
      | cons q rest => rfl
      | nil =>
          -- the first place is the root's, and the root has no other
          have htrail : ∀ q ∈ p :: later, root.Trail q.above q.node := by
            intro q hq
            apply Node.mem_places_iff.1
            rw [hplaces]
            exact List.mem_append_right _ hq
          have hroot := htrail p List.mem_cons_self
          rw [habove] at hroot
          apply findSome?_parentGiven?_eq_none
          intro q hq hk
          have ht := htrail q (List.mem_cons_of_mem p hq)
          have hsame := hid q.node ht.mem_preorder p.node hroot.mem_preorder (hk.trans hpid.symm)
          rw [hsame, ← hroot.eq_root] at ht
          exact ht.eq_nil

/-! ## Climbing -/

variable {root : Node}

/-- A climb goes up the nodes above the first place as far as its bound lets it. -/
theorem climb_eq_take (hid : root.Identified) (n : Node) (bound : Nat) :
    (ofSteps (root.steps none)).climb bound n = (root.aboveFirst n.id).take bound := by
  induction bound generalizing n with
  | zero => rfl
  | succ bound ih =>
      rw [climb, parent?_eq_head? hid]
      cases habove : root.aboveFirst n.id with
      | nil => rfl
      | cons p rest =>
          -- the parent is on its first visit, so the climb from there goes on along the rest
          have hrest := Node.aboveFirst_parent hid habove
          show p :: climb _ bound p = _
          rw [ih, hrest, List.take_succ_cons]

/-- The nodes on a climb have entries in the table, all but the last, which is the root. -/
theorem ids_subset_keys (hid : root.Identified) {n : Node} {above : List Node}
    (habove : root.aboveFirst n.id = above) :
    ((n :: above).map Node.id).dropLast ⊆ Assoc.keys (ofSteps (root.steps none)).parents := by
  induction above generalizing n with
  | nil => simp
  | cons p rest ih =>
      intro k hk
      rw [List.map_cons, List.map_cons, List.dropLast_cons_cons] at hk
      rcases List.mem_cons.1 hk with rfl | hk
      · have hp := parent?_eq_head? hid n
        rw [habove, parent?] at hp
        rw [← Assoc.get?_isSome_iff_mem_keys, hp]
        rfl
      · exact ih (Node.aboveFirst_parent hid habove) hk

/-- There are no more nodes above a first place than there are entries in the table. -/
theorem length_le_parents (hid : root.Identified) (n : Node) :
    (root.aboveFirst n.id).length ≤ (ofSteps (root.steps none)).parents.length := by
  by_cases hn : ∀ m ∈ root.preorder, m.id ≠ n.id
  · rw [Node.aboveFirst_eq_nil hn]
    exact Nat.zero_le _
  · push Not at hn
    obtain ⟨m, hm, hmn⟩ := hn
    rw [← hmn]
    have hnodup := ((Node.exists_trail_aboveFirst hid hm).nodup_ids hid).sublist
      (List.dropLast_sublist _)
    have hle := (hnodup.subperm (ids_subset_keys hid rfl)).length_le
    simpa [Assoc.keys] using hle

/-- **A climb ends by itself** above the first place of a node, whatever the bound beyond the
length of the table. -/
theorem climb_eq_aboveFirst (hid : root.Identified) (n : Node) {bound : Nat}
    (hbound : (ofSteps (root.steps none)).parents.length ≤ bound) :
    (ofSteps (root.steps none)).climb bound n = root.aboveFirst n.id := by
  rw [climb_eq_take hid]
  exact List.take_of_length_le (Nat.le_trans (length_le_parents hid n) hbound)

end Walk

/-! ## Rules around a place -/

namespace Node

/-- The innermost rule on a trail. -/
def ruleOn? (above : List Node) : Option Node :=
  above.find? fun p => p.kind = .rule

end Node

theorem Walk.enclosingRule?_eq_ruleOn? {root : Node} (hid : root.Identified) (n : Node) :
    (ofSteps (root.steps none)).enclosingRule? n = Node.ruleOn? (root.aboveFirst n.id) := by
  rw [enclosingRule?, above, climb_eq_aboveFirst hid n (Nat.le_refl _)]
  rfl

theorem Walk.enclosingRule?_eq {root n : Node} {above : List Node} (hd : root.Distinct)
    (h : root.Trail above n) :
    (ofSteps (root.steps none)).enclosingRule? n = Node.ruleOn? above := by
  rw [enclosingRule?_eq_ruleOn? hd.identified, hd.aboveFirst_eq h]

end Stylesheet
