/-
A numbered tree is the tree it was, with identities of its own for all nodes.

Numbering touches nothing but identities: without them the two trees are the same
(`bare_numbered`). So whatever is known of a tree and does not speak of identities holds of the
numbered one. The identities themselves are consecutive numbers in preorder, and therefore no two
nodes have the same (`numbered_distinct`).
-/
import Stylesheet.Node.Numbering
import Stylesheet.Proofs.Tree

set_option autoImplicit false

namespace Stylesheet.Node

/-! ## Trees without identities

Whether two trees are the same but for identities is said by taking the identities away. All else
of a node stays: its location, its kind, its children and their order. So what does not depend on
identities holds of a numbered tree as it does of the tree before it was numbered. -/

mutual

/-- The tree with zero for all identities. -/
def bare : Node → Node
  | leaf m l => leaf ⟨0, m.loc⟩ l
  | group m g ns => group ⟨0, m.loc⟩ g (bareAll ns)
  | rule m p b => rule ⟨0, m.loc⟩ (bareSome p) (bareSome b)
  | atrule m a p b => atrule ⟨0, m.loc⟩ a (bareSome p) (bareSome b)
  | declaration m x v i => declaration ⟨0, m.loc⟩ x (bareSome v) i
  | attributeSelector m n o v => attributeSelector ⟨0, m.loc⟩ (bareSome n) o (bareSome v)
  | comment m v => comment ⟨0, m.loc⟩ v

/-- Several trees without identities. -/
def bareAll : List Node → List Node
  | [] => []
  | n :: ns => bare n :: bareAll ns

/-- A tree without identities that may be absent. -/
def bareSome : Option Node → Option Node
  | none => none
  | some n => some (bare n)

end

theorem bareAll_eq (ns : List Node) : bareAll ns = ns.map bare := by
  induction ns with
  | nil => rw [bareAll, List.map_nil]
  | cons n ns ih => rw [bareAll, ih, List.map_cons]

theorem bareSome_eq (n : Option Node) : bareSome n = n.map bare := by
  cases n with
  | none => rw [bareSome, Option.map_none]
  | some n => rw [bareSome, Option.map_some]

@[simp] theorem loc_bare (n : Node) : n.bare.loc = n.loc := by
  cases n <;> rw [bare] <;> rfl

@[simp] theorem kind_bare (n : Node) : n.bare.kind = n.kind := by
  cases n <;> rw [bare] <;> rfl

theorem children_bare (n : Node) : n.bare.children = n.children.map bare := by
  cases n <;> simp [bare, children, bareAll_eq, bareSome_eq, Option.toList_map]

theorem preorder_bare (n : Node) : n.bare.preorder = n.preorder.map bare := by
  induction n using induction_children with
  | h n ih =>
      rw [preorder_eq, preorder_eq n, children_bare, List.map_cons, List.map_flatMap,
        List.flatMap_map]
      exact congrArg (n.bare :: ·) (List.flatMap_congr ih)

theorem bare_eq_leaf {n : Node} {m : Mark} {l : Leaf} (h : n.bare = (leaf m l).bare) :
    ∃ m', n = leaf m' l ∧ m'.loc = m.loc := by
  cases n with
  | leaf m' l' =>
      rw [bare, bare] at h
      obtain ⟨hmark, rfl⟩ := leaf.inj h
      exact ⟨m', rfl, (Mark.mk.inj hmark).2⟩
  | _ =>
      rw [bare, bare] at h
      cases h

theorem bare_eq_group {n : Node} {m : Mark} {g : Group} {ns : List Node}
    (h : n.bare = (group m g ns).bare) :
    ∃ m' ns', n = group m' g ns' ∧ m'.loc = m.loc ∧ ns'.map bare = ns.map bare := by
  cases n with
  | group m' g' ns' =>
      rw [bare, bare, bareAll_eq, bareAll_eq] at h
      obtain ⟨hmark, rfl, hns⟩ := group.inj h
      exact ⟨m', ns', rfl, (Mark.mk.inj hmark).2, hns⟩
  | _ =>
      rw [bare, bare] at h
      cases h

/-- A property that does not depend on identities holds everywhere in two trees that are the same
without identities, or in neither. -/
theorem everywhere_of_bare_eq {p : Node → Prop} (hp : ∀ n : Node, p n.bare ↔ p n) {n m : Node}
    (heq : n.bare = m.bare) (h : m.Everywhere p) : n.Everywhere p := by
  intro a ha
  have hmem : a.bare ∈ m.bare.preorder := by
    rw [← heq, preorder_bare]
    exact List.mem_map_of_mem ha
  rw [preorder_bare] at hmem
  obtain ⟨b, hb, hab⟩ := List.mem_map.1 hmem
  rw [← hp, ← hab, hp]
  exact h b hb

/-! ## Numbering

Numbering hands the next number on from tree to tree, and the statements follow its recursion: for
one tree, for several, and for one that may be absent, which counts as a list of one or none. Two
lists one after the other are numbered like one, which is the case of a node with two children
that may be absent. -/

/-- What numbering does to a tree: the rest of it stays, its identities become consecutive
numbers in preorder, and the number after the last is handed on. -/
structure Numbered (next : Nat) (n : Node) (r : Node × Nat) : Prop where
  bare : r.1.bare = n.bare
  ids : r.1.preorder.map id = List.range' next n.preorder.length
  after : r.2 = next + n.preorder.length

/-- The same for several trees, numbered one after the other. -/
structure NumberedAll (next : Nat) (ns : List Node) (r : List Node × Nat) : Prop where
  bare : r.1.map Node.bare = ns.map Node.bare
  ids : (r.1.flatMap preorder).map id = List.range' next (ns.flatMap preorder).length
  after : r.2 = next + (ns.flatMap preorder).length

theorem numberedAll_spec {ns : List Node}
    (h : ∀ n ∈ ns, ∀ next, Numbered next n (numberedFrom next n)) (next : Nat) :
    NumberedAll next ns (numberedAll next ns) := by
  induction ns generalizing next with
  | nil =>
      rw [numberedAll]
      exact ⟨rfl, rfl, rfl⟩
  | cons n ns ih =>
      have hn := h n List.mem_cons_self next
      have hns := ih (fun m hm => h m (List.mem_cons_of_mem n hm)) (numberedFrom next n).2
      rw [numberedAll]
      refine ⟨?_, ?_, ?_⟩
      · simp only [List.map_cons, hn.bare, hns.bare]
      · simp only [List.flatMap_cons, List.map_append, List.length_append]
        rw [hn.ids, hns.ids, hn.after, List.range'_append_1]
      · simp only [List.flatMap_cons, List.length_append]
        rw [hns.after, hn.after, Nat.add_assoc]

theorem numberedSome_spec {n : Option Node}
    (h : ∀ m ∈ n, ∀ next, Numbered next m (numberedFrom next m)) (next : Nat) :
    NumberedAll next n.toList ((numberedSome next n).1.toList, (numberedSome next n).2) := by
  cases n with
  | none =>
      rw [numberedSome]
      exact ⟨rfl, rfl, rfl⟩
  | some n =>
      have hn := h n rfl next
      rw [numberedSome]
      refine ⟨?_, ?_, ?_⟩
      · simp [hn.bare]
      · simpa using hn.ids
      · simpa using hn.after

theorem NumberedAll.append {next mid after : Nat} {ns ms ns' ms' : List Node}
    (hn : NumberedAll next ns (ns', mid)) (hm : NumberedAll mid ms (ms', after)) :
    NumberedAll next (ns ++ ms) (ns' ++ ms', after) := by
  have hmid : mid = next + (ns.flatMap preorder).length := hn.after
  have hafter : after = mid + (ms.flatMap preorder).length := hm.after
  refine ⟨?_, ?_, ?_⟩
  · simp only [List.map_append, hn.bare, hm.bare]
  · simp only [List.flatMap_append, List.map_append, List.length_append]
    rw [hn.ids, hm.ids, hmid, List.range'_append_1]
  · simp only [List.flatMap_append, List.length_append]
    rw [hafter, hmid, Nat.add_assoc]

theorem NumberedAll.bareSome_eq {next after : Nat} {n n' : Option Node}
    (h : NumberedAll next n.toList (n'.toList, after)) : bareSome n' = bareSome n := by
  have hbare : n'.toList.map Node.bare = n.toList.map Node.bare := h.bare
  rw [Node.bareSome_eq, Node.bareSome_eq]
  simpa only [List.head?_map, Option.head?_toList] using congrArg List.head? hbare

theorem numberedTwo_spec {n m : Option Node}
    (h : ∀ c ∈ n.toList ++ m.toList, ∀ next, Numbered next c (numberedFrom next c)) (next : Nat) :
    let r := numberedSome next n
    let r' := numberedSome r.2 m
    NumberedAll next (n.toList ++ m.toList) (r.1.toList ++ r'.1.toList, r'.2)
      ∧ bareSome r.1 = bareSome n ∧ bareSome r'.1 = bareSome m := by
  have hn := numberedSome_spec (n := n)
    (fun c hc => h c (List.mem_append_left _ (Option.mem_toList.2 hc))) next
  have hm := numberedSome_spec (n := m)
    (fun c hc => h c (List.mem_append_right _ (Option.mem_toList.2 hc))) (numberedSome next n).2
  exact ⟨hn.append hm, hn.bareSome_eq, hm.bareSome_eq⟩

/-- A tree is numbered if its root has the first number and its children the following. -/
theorem NumberedAll.numbered {next after : Nat} {n n' : Node} (hid : n'.id = next)
    (hbare : n'.bare = n.bare) (h : NumberedAll (next + 1) n.children (n'.children, after)) :
    Numbered next n (n', after) := by
  refine ⟨hbare, ?_, ?_⟩
  · rw [preorder_eq, preorder_eq n, List.map_cons, List.length_cons, List.range'_succ, hid]
    exact congrArg (next :: ·) h.ids
  · rw [preorder_eq n, List.length_cons, h.after]
    omega

/-- **Numbering a tree.** -/
theorem numberedFrom_spec (n : Node) (next : Nat) : Numbered next n (numberedFrom next n) := by
  induction n using induction_children generalizing next with
  | h n ih =>
      cases n with
      | leaf m l | comment m v =>
          rw [numberedFrom]
          exact NumberedAll.numbered rfl (by rw [bare, bare]) ⟨rfl, rfl, rfl⟩
      | group m g ns =>
          have hns := numberedAll_spec ih (next + 1)
          rw [numberedFrom]
          -- the group has the first number, so its members are numbered from the next on
          refine NumberedAll.numbered rfl ?_ hns
          rw [bare, bare, bareAll_eq, bareAll_eq]
          exact congrArg _ hns.bare
      | declaration m x v i =>
          have hv := numberedSome_spec (fun c hc => ih c (Option.mem_toList.2 hc)) (next + 1)
          rw [numberedFrom]
          refine NumberedAll.numbered rfl ?_ hv
          rw [bare, bare, hv.bareSome_eq]
      | rule m p b | atrule m a p b | attributeSelector m p o b =>
          obtain ⟨hall, hp, hb⟩ := numberedTwo_spec ih (next + 1)
          rw [numberedFrom]
          refine NumberedAll.numbered rfl ?_ hall
          rw [bare, bare, hp, hb]

/-- A numbered tree is the tree it was, but for identities. -/
theorem bare_numbered (n : Node) : n.numbered.bare = n.bare :=
  (numberedFrom_spec n 0).bare

/-- A node of a numbered tree is one of the tree it was, but for identities. -/
theorem exists_bare_eq_of_mem_numbered {tree n : Node} (h : n ∈ tree.numbered.preorder) :
    ∃ e ∈ tree.preorder, e.bare = n.bare := by
  have hbare : n.bare ∈ tree.bare.preorder := by
    rw [← bare_numbered, preorder_bare]
    exact List.mem_map_of_mem h
  rw [preorder_bare] at hbare
  exact List.mem_map.1 hbare

/-- **No node stands in two places of a numbered tree.** -/
theorem numbered_distinct (n : Node) : n.numbered.Distinct := by
  rw [Distinct, numbered, (numberedFrom_spec n 0).ids]
  exact List.nodup_range'

end Stylesheet.Node
