/-
What builders make.

Each builder goes through parts of one node of a concrete tree, may fail on any of them, and puts
together what they make. Here each is read backwards: if it has a result, the parts have results,
and its result is made of theirs (`…_eq_ok`, `…_cases`).

The nodes that a builder names are nodes of the concrete tree (`mem_walk_of_…`), which is what an
argument about all made nodes needs to go from one builder to the next. One such argument is made
here, by induction on the concrete tree: values hold no item at all (`values_inert`).
-/
import Stylesheet.Concrete.Items
import Stylesheet.Proofs.Tree

set_option autoImplicit false

namespace Stylesheet

theorem eq_ok_of_toOption {α ε : Type} {x : Except ε α} {a : α} (h : x.toOption = some a) :
    x = .ok a := by
  cases x with
  | error e => cases h
  | ok b => exact congrArg Except.ok (Option.some.inj h)

namespace Made

/-! ## Results that are there

A builder puts together what smaller builders make, and any of them may fail. The ways of putting
together are read backwards here, from a result that is there to the results that it was made
from. Where a list is worked through there are two directions: whatever is in the result was made
by one of the members (`mem_…`), and whatever one of the members makes is in the result
(`subset_…`). -/

variable {α β : Type}

theorem bind_eq_ok {x : Made α} {f : α → Made β} {b : β} :
    (x >>= f) = .ok b ↔ ∃ a, x = .ok a ∧ f a = .ok b := by
  cases x <;> simp [bind, Except.bind]

theorem pure_eq_ok {a b : α} : (pure a : Made α) = .ok b ↔ a = b := by
  simp [pure, Except.pure]

theorem map_eq_ok {x : Made α} {f : α → β} {b : β} :
    (f <$> x) = .ok b ↔ ∃ a, x = .ok a ∧ f a = b := by
  cases x <;> simp [Functor.map, Except.map]

theorem map_some_eq_ok {x : Made α} {a : α} : (some <$> x) = .ok (some a) ↔ x = .ok a := by
  simp [map_eq_ok]

theorem mem_concat {as : List α} {f : α → Made (List β)} {bs : List β}
    (h : concat (as.map f) = .ok bs) : ∀ b ∈ bs, ∃ a ∈ as, ∃ made, f a = .ok made ∧ b ∈ made := by
  induction as generalizing bs with
  | nil =>
      obtain rfl := Except.ok.inj h
      simp
  | cons a as ih =>
      simp only [List.map_cons, concat, bind_eq_ok, pure_eq_ok] at h
      obtain ⟨first, hfirst, rest, hrest, rfl⟩ := h
      intro b hb
      rcases List.mem_append.1 hb with hb | hb
      · exact ⟨a, List.mem_cons_self, first, hfirst, hb⟩
      · obtain ⟨a', ha', hmade⟩ := ih hrest b hb
        exact ⟨a', List.mem_cons_of_mem a ha', hmade⟩

theorem subset_concat {as : List α} {f : α → Made (List β)} {bs : List β}
    (h : concat (as.map f) = .ok bs) {a : α} (ha : a ∈ as) :
    ∃ made, f a = .ok made ∧ made ⊆ bs := by
  induction as generalizing bs with
  | nil => cases ha
  | cons a' as ih =>
      simp only [List.map_cons, concat, bind_eq_ok, pure_eq_ok] at h
      obtain ⟨first, hfirst, rest, hrest, rfl⟩ := h
      rcases List.mem_cons.1 ha with rfl | ha
      · exact ⟨first, hfirst, List.subset_append_left _ _⟩
      · obtain ⟨made, hmade, hsub⟩ := ih hrest ha
        exact ⟨made, hmade, fun b hb => List.mem_append_right _ (hsub hb)⟩

/-- What can be told of the results of each of several things can be told of what they make in
order. -/
theorem map_concat {γ : Type} {as : List α} {f : α → Made (List β)} {g : β → γ} {k : α → List γ}
    {bs : List β} (hf : ∀ a ∈ as, ∀ made, f a = .ok made → made.map g = k a)
    (h : concat (as.map f) = .ok bs) : bs.map g = as.flatMap k := by
  induction as generalizing bs with
  | nil =>
      obtain rfl := Except.ok.inj h
      rfl
  | cons a as ih =>
      simp only [List.map_cons, concat, bind_eq_ok, pure_eq_ok] at h
      obtain ⟨first, hfirst, rest, hrest, rfl⟩ := h
      rw [List.map_append, List.flatMap_cons, hf a List.mem_cons_self first hfirst,
        ih (fun a' ha' => hf a' (List.mem_cons_of_mem a ha')) hrest]

theorem present_eq_concat (rs : List (Made (Option α))) :
    present rs = concat (rs.map (Option.toList <$> ·)) := by
  induction rs with
  | nil => rfl
  | cons r rs ih =>
      rw [present, List.map_cons, concat, ih]
      cases r <;> rfl

theorem mem_present {as : List α} {f : α → Made (Option β)} {bs : List β}
    (h : present (as.map f) = .ok bs) : ∀ b ∈ bs, ∃ a ∈ as, f a = .ok (some b) := by
  induction as generalizing bs with
  | nil =>
      obtain rfl := Except.ok.inj h
      simp
  | cons a as ih =>
      simp only [List.map_cons, present, bind_eq_ok, pure_eq_ok] at h
      obtain ⟨first?, hfirst, rest, hrest, rfl⟩ := h
      intro b hb
      rcases List.mem_append.1 hb with hb | hb
      · obtain rfl := Option.mem_toList.1 hb
        exact ⟨a, List.mem_cons_self, hfirst⟩
      · obtain ⟨a', ha', hmade⟩ := ih hrest b hb
        exact ⟨a', List.mem_cons_of_mem a ha', hmade⟩

theorem subset_present {as : List α} {f : α → Made (Option β)} {bs : List β}
    (h : present (as.map f) = .ok bs) {a : α} (ha : a ∈ as) :
    ∃ made, f a = .ok made ∧ made.toList ⊆ bs := by
  induction as generalizing bs with
  | nil => cases ha
  | cons a' as ih =>
      simp only [List.map_cons, present, bind_eq_ok, pure_eq_ok] at h
      obtain ⟨first?, hfirst, rest, hrest, rfl⟩ := h
      rcases List.mem_cons.1 ha with rfl | ha
      · exact ⟨first?, hfirst, List.subset_append_left _ _⟩
      · obtain ⟨made, hmade, hsub⟩ := ih hrest ha
        exact ⟨made, hmade, fun b hb => List.mem_append_right _ (hsub hb)⟩

theorem mem_mapM {f : α → Made β} {as : List α} {bs : List β} (h : as.mapM f = .ok bs) :
    ∀ b ∈ bs, ∃ a ∈ as, f a = .ok b := by
  induction as generalizing bs with
  | nil =>
      obtain rfl := Except.ok.inj h
      simp
  | cons a as ih =>
      simp only [List.mapM_cons, bind_eq_ok, pure_eq_ok] at h
      obtain ⟨b, hb, bs', hbs, rfl⟩ := h
      intro x hx
      rcases List.mem_cons.1 hx with rfl | hx
      · exact ⟨a, List.mem_cons_self, hb⟩
      · obtain ⟨a', ha', hx⟩ := ih hbs x hx
        exact ⟨a', List.mem_cons_of_mem a ha', hx⟩

theorem exists_mem_mapM {f : α → Made β} {as : List α} {bs : List β} (h : as.mapM f = .ok bs)
    {a : α} (ha : a ∈ as) : ∃ b ∈ bs, f a = .ok b := by
  induction as generalizing bs with
  | nil => cases ha
  | cons a' as ih =>
      simp only [List.mapM_cons, bind_eq_ok, pure_eq_ok] at h
      obtain ⟨b, hb, bs', hbs, rfl⟩ := h
      rcases List.mem_cons.1 ha with rfl | ha
      · exact ⟨b, List.mem_cons_self, hb⟩
      · obtain ⟨b', hb', hmade⟩ := ih hbs ha
        exact ⟨b', List.mem_cons_of_mem b hb', hmade⟩

end Made

open Made

namespace Node

/-! ## Inert nodes -/

/-- A node that can stand in a value. -/
def Inert : Node → Prop
  | leaf .. | group .. | attributeSelector .. => True
  | rule .. | atrule .. | declaration .. | comment .. => False

theorem everywhere_inert_leaf (m : Mark) (l : Leaf) : (leaf m l).Everywhere Inert :=
  everywhere_iff.2 ⟨trivial, fun c hc => by cases hc⟩

theorem everywhere_inert_group {m : Mark} {g : Group} {ns : List Node}
    (h : ∀ n ∈ ns, n.Everywhere Inert) : (group m g ns).Everywhere Inert :=
  everywhere_iff.2 ⟨trivial, h⟩

end Node

/-! ## Values

Leaves are made on the range they are given. What stands in a value is made of leaves and groups,
so it is inert: nothing in it declares or defines a property. -/

namespace Source

theorem leaf_eq_ok {src : Source} {c : Concrete} {l : Leaf} {n : Node} :
    src.leaf c l = .ok n ↔ ∃ m, src.mark c = .ok m ∧ .leaf m l = n := by
  simp only [leaf, bind_eq_ok, pure_eq_ok]

theorem rawAt_eq_ok {src : Source} {start stop : Int} {n : Node} :
    src.rawAt start stop = .ok n
      ↔ ∃ m, src.markAt start stop = .ok m ∧ .leaf m (.raw (src.excerpt start stop)) = n := by
  simp only [rawAt, bind_eq_ok, pure_eq_ok]

theorem emptyRaw_eq_ok {src : Source} {octet : Int} {n : Node} :
    src.emptyRaw octet = .ok n ↔ ∃ m, src.markAt octet octet = .ok m ∧ .leaf m (.raw "") = n := by
  simp only [emptyRaw, bind_eq_ok, pure_eq_ok]

theorem leaf_inert {src : Source} {c : Concrete} {l : Leaf} {n : Node} (h : src.leaf c l = .ok n) :
    n.Everywhere Node.Inert := by
  obtain ⟨m, -, rfl⟩ := leaf_eq_ok.1 h
  exact Node.everywhere_inert_leaf m l

theorem rawSpan_inert {src : Source} {cs : List Concrete} {octet : Int} {n : Node}
    (h : src.rawSpan cs octet = .ok n) : n.Everywhere Node.Inert := by
  rw [rawSpan] at h
  split at h
  · obtain ⟨m, -, rfl⟩ := rawAt_eq_ok.1 h
    exact Node.everywhere_inert_leaf _ _
  · obtain ⟨m, -, rfl⟩ := emptyRaw_eq_ok.1 h
    exact Node.everywhere_inert_leaf _ _

end Source

namespace Concrete

variable {src : Source}

theorem numberNode_eq_ok {c : Concrete} {n : Node} (h : numberNode src c = .ok n) :
    ∃ l, src.leaf c l = .ok n := by
  rw [numberNode] at h
  split at h
  · exact ⟨_, h⟩
  · simp only at h
    split at h <;> exact ⟨_, h⟩

/-- The children of a call, from its arguments and the values they make. -/
def callMembers (src : Source) (c : Concrete) (arguments : List Argument) : Made (List Node) :=
  if Text.lower (callee src c) = "var" then varMembers src arguments
  else .concat (arguments.map (·.values))

/-- **The children of a call**, with its arguments told by their nodes alone: the values of all of
them, or, behind the first comma of a call of `var`, the text. -/
theorem callMembers_eq (src : Source) (c : Concrete) (ds : List Concrete) :
    callMembers src c (ds.map fun d => ⟨d, values src d⟩) =
      if Text.lower (callee src c) = "var" then
        match ds.dropWhile fun d => d.kind != "," with
        | [] => valuesOfAll src ds
        | comma :: after => do
          let members ← valuesOfAll src (ds.takeWhile fun d => d.kind != ",")
          let operator ← src.leaf comma (.operator ",")
          let fallback ← src.rawSpan after comma.stop
          return members ++ [operator, fallback]
      else valuesOfAll src ds := by
  have hvalues : ∀ es : List Concrete,
      (es.map fun d => (⟨d, values src d⟩ : Argument)).map (·.values) = es.map (values src) :=
    fun es => List.map_map
  have hnodes : ∀ es : List Concrete,
      (es.map fun d => (⟨d, values src d⟩ : Argument)).map (·.node) = es :=
    fun es => List.map_map.trans (List.map_id es)
  have hsplit := List.takeWhile_append_dropWhile (p := fun d : Concrete => d.kind != ",") (l := ds)
  simp only [callMembers, varMembers, List.takeWhile_map, List.dropWhile_map, Function.comp_def,
    hvalues]
  cases hdrop : ds.dropWhile fun d => d.kind != "," with
  | nil =>
      rw [hdrop, List.append_nil] at hsplit
      simp only [List.map_nil, hsplit, valuesOfAll]
  | cons comma after => simp only [List.map_cons, hnodes, valuesOfAll]

/-- The children of a call are the values of all arguments, or those of the arguments before a
comma, the comma, and the text after it. -/
theorem callMembers_cases {c : Concrete} {ds : List Concrete} {ns : List Node}
    (h : callMembers src c (ds.map fun d => ⟨d, values src d⟩) = .ok ns) :
    valuesOfAll src ds = .ok ns
      ∨ ∃ before comma after members operator fallback,
        ds = before ++ comma :: after
          ∧ valuesOfAll src before = .ok members
          ∧ src.leaf comma (.operator ",") = .ok operator
          ∧ src.rawSpan after comma.stop = .ok fallback
          ∧ ns = members ++ [operator, fallback] := by
  have hsplit := List.takeWhile_append_dropWhile (p := fun d : Concrete => d.kind != ",") (l := ds)
  rw [callMembers_eq] at h
  split at h
  · split at h
    · exact .inl h
    · rename_i comma after hdrop
      rw [hdrop] at hsplit
      simp only [bind_eq_ok, pure_eq_ok] at h
      obtain ⟨members, hmembers, operator, hop, fallback, hfall, rfl⟩ := h
      exact .inr ⟨_, comma, after, members, operator, fallback, hsplit.symm, hmembers, hop, hfall,
        rfl⟩
  · exact .inl h

theorem callNode_eq_ok {c : Concrete} {arguments : List Argument} {n : Node} :
    callNode src c arguments = .ok n
      ↔ ∃ members, callMembers src c arguments = .ok members
        ∧ ∃ m, src.mark c = .ok m ∧ .group m (.function (callee src c)) members = n := by
  rw [callNode, callMembers]
  split <;> simp only [bind_eq_ok, pure_eq_ok]

/-- **What values are**: a leaf on the whole node; the values of the significant children; or a
group on the whole node, of the values in the brackets or of the children of a call. -/
theorem values_cases {c : Concrete} {ns : List Node} (h : values src c = .ok ns) :
    (∃ l n, src.leaf c l = .ok n ∧ ns = [n])
      ∨ (c.valueForm = .operation ∧ valuesOfAll src c.significant = .ok ns)
      ∨ (∃ m g members, src.mark c = .ok m ∧ valuesOfAll src c.inner = .ok members
        ∧ ns = [.group m g members])
      ∨ ∃ m members, src.mark c = .ok m
        ∧ callMembers src c (c.callArguments.map fun d => ⟨d, values src d⟩) = .ok members
        ∧ ns = [.group m (.function (callee src c)) members] := by
  rw [values_eq] at h
  cases hform : c.valueForm with
  | operation =>
      rw [hform] at h
      exact .inr (.inl ⟨rfl, h⟩)
  | parentheses | brackets =>
      rw [hform] at h
      simp only [bind_eq_ok, pure_eq_ok] at h
      obtain ⟨members, hmembers, m, hm, rfl⟩ := h
      exact .inr (.inr (.inl ⟨m, _, members, hm, hmembers, rfl⟩))
  | call =>
      rw [hform] at h
      simp only [bind_eq_ok, pure_eq_ok] at h
      obtain ⟨call, hcall, rfl⟩ := h
      obtain ⟨members, hmembers, m, hm, rfl⟩ := callNode_eq_ok.1 hcall
      exact .inr (.inr (.inr ⟨m, members, hm, hmembers, rfl⟩))
  | number =>
      rw [hform] at h
      simp only [bind_eq_ok, pure_eq_ok] at h
      obtain ⟨number, hnumber, rfl⟩ := h
      obtain ⟨l, hl⟩ := numberNode_eq_ok hnumber
      exact .inl ⟨l, number, hl, rfl⟩
  | identifier | hash | string | operator | raw =>
      rw [hform] at h
      simp only [bind_eq_ok, pure_eq_ok] at h
      obtain ⟨leaf, hleaf, rfl⟩ := h
      exact .inl ⟨_, leaf, hleaf, rfl⟩

theorem callMembers_inert {c : Concrete} {ds : List Concrete} {ns : List Node}
    (hvalues : ∀ d ∈ ds, ∀ ns, values src d = .ok ns → ∀ n ∈ ns, n.Everywhere Node.Inert)
    (h : callMembers src c (ds.map fun d => ⟨d, values src d⟩) = .ok ns) :
    ∀ n ∈ ns, n.Everywhere Node.Inert := by
  have hall : ∀ es : List Concrete, (∀ d ∈ es, d ∈ ds) → ∀ ns, valuesOfAll src es = .ok ns →
      ∀ n ∈ ns, n.Everywhere Node.Inert := by
    intro es hes ns hns n hn
    obtain ⟨d, hd, made, hmade, hmem⟩ := mem_concat hns n hn
    exact hvalues d (hes d hd) made hmade n hmem
  rcases callMembers_cases h with
    h | ⟨before, comma, after, members, operator, fallback, rfl, hmembers, hop, hfall, rfl⟩
  · exact hall ds (fun d hd => hd) ns h
  · intro n hn
    rcases List.mem_append.1 hn with hn | hn
    · exact hall before (fun d hd => List.mem_append_left _ hd) members hmembers n hn
    · rcases List.mem_pair.1 hn with rfl | rfl
      · exact Source.leaf_inert hop
      · exact Source.rawSpan_inert hfall

/-- **Values are inert.** -/
theorem values_inert (c : Concrete) {ns : List Node} (h : values src c = .ok ns) :
    ∀ n ∈ ns, n.Everywhere Node.Inert := by
  -- the induction is on the size of the node; each form names nodes below it
  have hall : ∀ ds : List Concrete, (∀ d ∈ ds, sizeOf d < sizeOf c) → ∀ ns,
      valuesOfAll src ds = .ok ns → ∀ n ∈ ns, n.Everywhere Node.Inert := by
    intro ds hds ns hns n hn
    obtain ⟨d, hd, made, hmade, hmem⟩ := mem_concat hns n hn
    have := hds d hd
    exact values_inert d hmade n hmem
  rcases values_cases h with
    ⟨l, leaf, hleaf, rfl⟩ | ⟨-, h⟩ | ⟨m, g, members, -, hmembers, rfl⟩
    | ⟨m, members, -, hmembers, rfl⟩
  · rintro n hn
    obtain rfl := List.mem_singleton.1 hn
    exact Source.leaf_inert hleaf
  · exact hall c.significant (fun d => sizeOf_lt_of_mem_significant) ns h
  · rintro n hn
    obtain rfl := List.mem_singleton.1 hn
    exact Node.everywhere_inert_group
      (hall c.inner (fun d => sizeOf_lt_of_mem_inner) members hmembers)
  · rintro n hn
    obtain rfl := List.mem_singleton.1 hn
    refine Node.everywhere_inert_group (callMembers_inert ?_ hmembers)
    intro d hd ns hns
    have := sizeOf_lt_of_mem_callArguments hd
    exact values_inert d hns
termination_by sizeOf c

theorem valuesOfAll_inert {cs : List Concrete} {ns : List Node}
    (h : valuesOfAll src cs = .ok ns) : ∀ n ∈ ns, n.Everywhere Node.Inert := by
  intro n hn
  obtain ⟨d, -, made, hmade, hmem⟩ := mem_concat h n hn
  exact values_inert d hmade n hmem

/-! ## The nodes of a concrete tree

A builder looks at some of the nodes below its own: the significant children, what stands between
brackets, the arguments of a call, the nodes of a declared value, both sides of a combinator, what
comes before the marker of a compound and behind it. All of these are children, or children of
children, and so nodes of the tree. -/

variable {root : Concrete}

theorem mem_walk_of_mem_children {root c d : Concrete} (h : c ∈ root.walk) (hd : d ∈ c.children) :
    d ∈ root.walk := by
  rw [walk_eq] at h ⊢
  rcases List.mem_cons.1 h with rfl | h
  · refine List.mem_cons_of_mem _ (List.mem_flatMap.2 ⟨d, hd, ?_⟩)
    rw [walk_eq]
    exact List.mem_cons_self
  · obtain ⟨b, hb, h⟩ := List.mem_flatMap.1 h
    have := sizeOf_lt_of_mem_children hb
    exact List.mem_cons_of_mem _ (List.mem_flatMap.2 ⟨b, hb, mem_walk_of_mem_children h hd⟩)
termination_by sizeOf root

theorem self_mem_walk (c : Concrete) : c ∈ c.walk := by
  rw [walk_eq]
  exact List.mem_cons_self

theorem mem_walk_of_mem_significant {c d : Concrete} (hc : c ∈ root.walk)
    (hd : d ∈ c.significant) : d ∈ root.walk :=
  mem_walk_of_mem_children hc (mem_children_of_mem_significant hd)

theorem mem_walk_of_mem_inner {c d : Concrete} (hc : c ∈ root.walk) (hd : d ∈ c.inner) :
    d ∈ root.walk :=
  mem_walk_of_mem_significant hc (List.mem_filter.1 hd).1

theorem mem_walk_of_mem_members {c d : Concrete} (hc : c ∈ root.walk) (hd : d ∈ c.members) :
    d ∈ root.walk :=
  mem_walk_of_mem_significant hc (List.mem_filter.1 hd).1

theorem mem_walk_of_mem_callArguments {c d : Concrete} (hc : c ∈ root.walk)
    (hd : d ∈ c.callArguments) : d ∈ root.walk := by
  rw [Concrete.callArguments] at hd
  cases hchild : c.child? "arguments" with
  | none =>
      rw [hchild] at hd
      cases hd
  | some e =>
      rw [hchild] at hd
      have he := mem_walk_of_mem_children hc (List.mem_of_find?_eq_some hchild)
      exact mem_walk_of_mem_inner he hd

theorem mem_walk_of_mem_valueNodes {c d : Concrete} (hc : c ∈ root.walk) (hd : d ∈ c.valueNodes) :
    d ∈ root.walk := by
  have hsub : List.Sublist c.valueNodes c.significant :=
    List.filter_sublist.trans <| (List.tail_sublist _).trans (List.dropWhile_sublist _)
  exact mem_walk_of_mem_significant hc (hsub.subset hd)

theorem mem_significant_of_mem_trailing {c d : Concrete} (hd : d ∈ c.trailing) :
    d ∈ c.significant := by
  rw [trailing] at hd
  split at hd
  · exact hd
  · exact ((List.tail_sublist _).trans (List.dropWhile_sublist _)).subset hd

theorem mem_walk_of_mem_trailing {c d : Concrete} (hc : c ∈ root.walk) (hd : d ∈ c.trailing) :
    d ∈ root.walk :=
  mem_walk_of_mem_significant hc (mem_significant_of_mem_trailing hd)

theorem mem_significant_of_mem_leading {c d : Concrete} (hd : d ∈ c.leading) :
    d ∈ c.significant := by
  rw [leading] at hd
  split at hd
  · simp at hd
  · exact (List.takeWhile_sublist _).subset (List.mem_filter.1 hd).1

theorem mem_walk_of_mem_leading {c d : Concrete} (hc : c ∈ root.walk) (hd : d ∈ c.leading) :
    d ∈ root.walk :=
  mem_walk_of_mem_significant hc (mem_significant_of_mem_leading hd)

theorem members_of_sides? {c left right : Concrete} (h : c.sides? = some (left, right)) :
    c.members = [left, right] := by
  unfold sides? at h
  split at h
  · rename_i l r hmembers
    obtain ⟨rfl, rfl⟩ := Prod.mk.inj (Option.some.inj h)
    exact hmembers
  · cases h

theorem mem_significant_of_sides? {c left right : Concrete} (h : c.sides? = some (left, right)) :
    left ∈ c.significant ∧ right ∈ c.significant := by
  have hmem : ∀ d ∈ c.members, d ∈ c.significant := fun d hd => (List.mem_filter.1 hd).1
  rw [members_of_sides? h] at hmem
  exact ⟨hmem left (by simp), hmem right (by simp)⟩

theorem mem_walk_of_sides? {c left right : Concrete} (hc : c ∈ root.walk)
    (h : c.sides? = some (left, right)) : left ∈ root.walk ∧ right ∈ root.walk :=
  ⟨mem_walk_of_mem_significant hc (mem_significant_of_sides? h).1,
    mem_walk_of_mem_significant hc (mem_significant_of_sides? h).2⟩

theorem mem_walk_of_mem_keyframeBody? {c d : Concrete} (hc : c ∈ root.walk)
    (hd : d ∈ c.keyframeBody?) : d ∈ root.walk :=
  mem_walk_of_mem_significant hc (List.mem_of_find?_eq_some hd)

/-! ## Selectors -/

theorem namedPart_cases {c : Concrete} {mark : Mark} {nameKind : String} {leaf : String → Leaf}
    {n : Node} (h : namedPart src c mark nameKind leaf = .ok n) :
    src.raw c = .ok n ∨ ∃ d ∈ c.trailing, n = .leaf mark (leaf (src.text d)) := by
  rw [namedPart] at h
  split at h
  · rename_i nameNode hname
    exact .inr ⟨nameNode, List.mem_of_find?_eq_some hname, (pure_eq_ok.1 h).symm⟩
  · exact .inl h

/-- A pseudo selector is a group of its arguments if it has any, or is kept as text. -/
theorem pseudoNode_cases {c : Concrete} {mark : Mark} {group : String → Group} {n : Node}
    (h : pseudoNode src c mark group = .ok n) :
    src.raw c = .ok n
      ∨ ∃ name members, n = .group mark (group name) members
        ∧ ∀ m ∈ members, ∃ d ∈ c.trailing, selectorArguments src d = .ok m := by
  simp only [pseudoNode] at h
  split at h
  · exact .inl h
  · split at h
    · rename_i named nameNode rest hnamed arguments harguments
      simp only [bind_eq_ok, pure_eq_ok] at h
      obtain ⟨made, hmade, members, rfl, rfl⟩ := h
      refine .inr ⟨_, _, rfl, fun m hm => ?_⟩
      obtain rfl := List.mem_singleton.1 hm
      exact ⟨arguments, (List.mem_filter.1 (List.mem_of_find?_eq_some harguments)).1, hmade⟩
    · simp only [pure_bind, pure_eq_ok] at h
      exact .inr ⟨_, [], h.symm, by simp⟩

/-- The value of an attribute is the first of those that one of the children makes. -/
theorem exists_values_of_attributeValue {cs : List Concrete} {value : Node}
    (h : attributeValue src cs = .ok (some value)) :
    ∃ d ∈ cs, ∃ others, values src d = .ok (value :: others) := by
  rw [attributeValue] at h
  split at h
  · cases h
  · split at h
    · cases h
    · rename_i d hd
      simp only [bind_eq_ok] at h
      obtain ⟨ns, hns, h⟩ := h
      cases ns with
      | nil => cases h
      | cons n others =>
          obtain rfl := Option.some.inj (pure_eq_ok.1 h)
          exact ⟨d, List.mem_of_find?_eq_some hd, others, hns⟩

/-- The name of an attribute is the text of one of the children, or is empty and stands for the
whole part. -/
theorem attributeNode_cases {cs : List Concrete} {mark : Mark} {n : Node}
    (h : attributeNode src cs mark = .ok n) :
    ∃ name value, n = .attributeSelector mark (some name) ((matcher? cs).map (·.kind)) value
      ∧ attributeValue src cs = .ok value
      ∧ ((∃ d ∈ cs, src.leaf d (.identifier (src.text d)) = .ok name)
        ∨ name = .leaf mark (.identifier "")) := by
  simp only [attributeNode, bind_eq_ok] at h
  obtain ⟨value, hvalue, h⟩ := h
  split at h
  · rename_i d hd
    simp only [bind_eq_ok, pure_eq_ok] at h
    obtain ⟨name, hname, rfl⟩ := h
    exact ⟨name, value, rfl, hvalue, .inl ⟨d, List.mem_of_find?_eq_some hd, hname⟩⟩
  · simp only [pure_bind, pure_eq_ok] at h
    exact ⟨_, value, h.symm, hvalue, .inr rfl⟩

/-- The last part of a compound has a mark from its marker on. It is a marker with a name, a pseudo
selector or an attribute selector. -/
theorem lastPart_cases {c : Concrete} {form : PartForm} {n : Node}
    (h : lastPart src c form = .ok n) :
    ∃ mark, src.markAt c.partStart c.stop = .ok mark
      ∧ ((∃ nameKind leaf, namedPart src c mark nameKind leaf = .ok n)
        ∨ (∃ group, pseudoNode src c mark group = .ok n)
        ∨ attributeNode src c.trailing mark = .ok n) := by
  simp only [lastPart, bind_eq_ok] at h
  obtain ⟨mark, hmark, h⟩ := h
  refine ⟨mark, hmark, ?_⟩
  cases form
  case className | idName => exact .inl ⟨_, _, h⟩
  case pseudoClass | pseudoElement => exact .inr (.inl ⟨_, h⟩)
  case «attribute» => exact .inr (.inr h)

/-- **Each part of a selector** is the whole selector, the combinator between its two sides, the
last part of a compound, or a part of one of the significant children. -/
theorem mem_selectorParts {c : Concrete} {ns : List Node} (h : selectorParts src c = .ok ns)
    {n : Node} (hn : n ∈ ns) :
    (∃ l, src.leaf c l = .ok n)
      ∨ (∃ left right mark name, c.sides? = some (left, right)
        ∧ combinatorMark src c left right = .ok mark ∧ n = .leaf mark (.combinator name))
      ∨ (∃ form, lastPart src c form = .ok n)
      ∨ ∃ d ∈ c.significant, ∃ made, selectorParts src d = .ok made ∧ n ∈ made := by
  have hone : ∀ {l : Leaf} {m : Node}, src.leaf c l = .ok m → [m] = ns →
      ∃ l, src.leaf c l = .ok n := by
    rintro l m hm rfl
    rw [List.mem_singleton.1 hn]
    exact ⟨l, hm⟩
  rw [selectorParts_eq] at h
  cases hform : c.selectorForm
  all_goals simp only [hform, bind_eq_ok, pure_eq_ok] at h
  case type | universal | nesting | raw =>
    obtain ⟨m, hm, h⟩ := h
    exact .inl (hone hm h)
  case combinator name =>
    split at h
    · rename_i left right hsides
      have hsig := mem_significant_of_sides? hsides
      simp only [bind_eq_ok, pure_eq_ok] at h
      obtain ⟨mark, hmark, before, hbefore, after, hafter, rfl⟩ := h
      rcases List.mem_append.1 hn with hn | hn
      · exact .inr (.inr (.inr ⟨left, hsig.1, before, hbefore, hn⟩))
      · rcases List.mem_cons.1 hn with rfl | hn
        · exact .inr (.inl ⟨left, right, mark, name, hsides, hmark, rfl⟩)
        · exact .inr (.inr (.inr ⟨right, hsig.2, after, hafter, hn⟩))
    · simp only [bind_eq_ok, pure_eq_ok] at h
      obtain ⟨m, hm, h⟩ := h
      exact .inl (hone hm h)
  case compound form =>
    obtain ⟨before, hbefore, last, hlast, rfl⟩ := h
    rcases List.mem_append.1 hn with hn | hn
    · obtain ⟨d, hd, made, hmade, hmem⟩ := mem_concat hbefore n hn
      exact .inr (.inr (.inr ⟨d, mem_significant_of_mem_leading hd, made, hmade, hmem⟩))
    · rw [List.mem_singleton.1 hn]
      exact .inr (.inr (.inl ⟨form, hlast⟩))

theorem selectorNode_eq_ok {c : Concrete} {n : Node} :
    selectorNode src c = .ok n
      ↔ ∃ parts, selectorParts src c = .ok parts
        ∧ ∃ m, src.mark c = .ok m ∧ .group m .selector parts = n := by
  simp only [selectorNode, bind_eq_ok, pure_eq_ok]

theorem selectorList_eq_ok {c : Concrete} {n : Node} :
    selectorList src c = .ok n
      ↔ ∃ selectors, c.members.mapM (selectorNode src) = .ok selectors
        ∧ ∃ m, src.mark c = .ok m ∧ .group m .selectorList selectors = n := by
  simp only [selectorList, bind_eq_ok, pure_eq_ok]

/-! ## Declarations -/

/-- The value of a declaration: text for a custom property, a list of values for any other. -/
def declaredValue (src : Source) (c : Concrete) : Made Node :=
  if Node.isCustomName (propertyName src c) then src.rawSpan c.valueNodes c.valueStart
  else valueNode src c.valueNodes c.valueStart

/-- The mark of a value: from its first node to its last, or an octet if there are none. -/
def valueMark (src : Source) (cs : List Concrete) (octet : Int) : Made Mark :=
  match cs.head?, cs.getLast? with
  | some first, some last => src.markAt first.start last.stop
  | _, _ => src.markAt octet octet

/-- The mark of a value is on a range of its nodes, or on an octet if it has none. -/
theorem valueMark_cases {cs : List Concrete} {octet : Int} {m : Mark}
    (h : valueMark src cs octet = .ok m) :
    (∃ first last, cs.head? = some first ∧ cs.getLast? = some last
        ∧ src.markAt first.start last.stop = .ok m)
      ∨ cs = [] ∧ src.markAt octet octet = .ok m := by
  rw [valueMark] at h
  cases cs with
  | nil => exact .inr ⟨rfl, h⟩
  | cons d ds =>
      cases hlast : (d :: ds).getLast? with
      | none => cases List.getLast?_eq_none_iff.1 hlast
      | some last =>
          rw [hlast] at h
          exact .inl ⟨d, last, rfl, rfl, h⟩

theorem valueNode_eq_ok {cs : List Concrete} {octet : Int} {n : Node} :
    valueNode src cs octet = .ok n
      ↔ ∃ members, valuesOfAll src cs = .ok members
        ∧ ∃ m, valueMark src cs octet = .ok m ∧ .group m .value members = n := by
  rw [valueNode, valueMark]
  generalize cs.head? = first
  generalize cs.getLast? = last
  cases first <;> cases last <;> simp only [bind_eq_ok, pure_eq_ok]

theorem declarationNode_eq_ok {c : Concrete} {n : Node} :
    declarationNode src c = .ok n
      ↔ ∃ value, declaredValue src c = .ok value
        ∧ ∃ m, src.markAt c.start c.declarationStop = .ok m
          ∧ .declaration m (propertyName src c) (some value)
            (c.significant.any (·.kind == "important")) = n := by
  rw [declarationNode, declaredValue]
  split <;> simp only [bind_eq_ok, pure_eq_ok]

theorem declaredValue_inert {c : Concrete} {n : Node} (h : declaredValue src c = .ok n) :
    n.Everywhere Node.Inert := by
  rw [declaredValue] at h
  split at h
  · exact Source.rawSpan_inert h
  · obtain ⟨members, hmembers, m, -, rfl⟩ := valueNode_eq_ok.1 h
    exact Node.everywhere_inert_group (valuesOfAll_inert hmembers)

/-! ## Rules and at-rules -/

theorem ruleOf_eq_ok {c : Concrete} {prelude : Made Node} {body : Option (Made Node)} {n : Node} :
    ruleOf src c prelude body = .ok n
      ↔ ∃ p, prelude = .ok p ∧ ∃ b, body.getD (emptyBlock src c.stop) = .ok b
        ∧ ∃ m, src.mark c = .ok m ∧ .rule m (some p) (some b) = n := by
  simp only [ruleOf, bind_eq_ok, pure_eq_ok]

theorem preludeNode_eq_ok {cs : List Concrete} {n : Node}
    (h : preludeNode src cs = .ok (some n)) :
    ∃ members m, Made.concat (cs.map (preludeValues src)) = .ok members
      ∧ n = .group m .atrulePrelude members := by
  rw [preludeNode] at h
  split at h
  · simp only [bind_eq_ok, pure_eq_ok] at h
    obtain ⟨members, hmembers, m, -, h⟩ := h
    exact ⟨members, m, hmembers, (Option.some.inj h).symm⟩
  · cases pure_eq_ok.1 h

/-- A list with a member has a first and a last one. -/
theorem exists_ends_of_mem {c : Concrete} {cs : List Concrete} (hc : c ∈ cs) :
    ∃ first last, cs.head? = some first ∧ cs.getLast? = some last := by
  cases hfirst : cs.head? with
  | none =>
      rw [List.head?_eq_none_iff.1 hfirst] at hc
      cases hc
  | some first =>
      cases hlast : cs.getLast? with
      | none =>
          rw [List.getLast?_eq_none_iff.1 hlast] at hc
          cases hc
      | some last => exact ⟨first, last, rfl, rfl⟩

theorem exists_prelude_of_mem {c : Concrete} {cs : List Concrete} (hc : c ∈ cs)
    {prelude : Option Node} (h : preludeNode src cs = .ok prelude) : ∃ n, prelude = some n := by
  obtain ⟨first, last, hfirst, hlast⟩ := exists_ends_of_mem hc
  rw [preludeNode, hfirst, hlast] at h
  simp only [bind_eq_ok, pure_eq_ok] at h
  obtain ⟨members, -, m, -, rfl⟩ := h
  exact ⟨_, rfl⟩

/-- **What one more child adds** to an at-rule: its name, its block, nothing if it is a semicolon,
or a node of the prelude. -/
theorem add_cases {parts parts' : AtruleParts} {d : Concrete} {block : Option (Made Node)}
    (h : parts.add src d block = .ok parts') :
    (d.isAtKeyword = true ∧ parts' = { parts with name := afterFirst src d })
      ∨ (∃ made b, block = some made ∧ made = .ok b ∧ parts' = { parts with block := some b })
      ∨ (block = none ∧ d.kind = ";" ∧ parts' = parts)
      ∨ (block = none ∧ d.kind ≠ ";"
        ∧ parts' = { parts with prelude := parts.prelude ++ [d] }) := by
  unfold AtruleParts.add at h
  split at h
  · rename_i hname
    exact .inl ⟨hname.2, (pure_eq_ok.1 h).symm⟩
  · split at h
    · rename_i made
      simp only [bind_eq_ok, pure_eq_ok] at h
      obtain ⟨b, hb, h⟩ := h
      exact .inr (.inl ⟨made, b, rfl, hb, h.symm⟩)
    · split at h
      · rename_i hsemicolon
        exact .inr (.inr (.inl ⟨rfl, hsemicolon, (pure_eq_ok.1 h).symm⟩))
      · rename_i hsemicolon
        exact .inr (.inr (.inr ⟨rfl, hsemicolon, (pure_eq_ok.1 h).symm⟩))

/-- The block that an at-rule has after several children was there before, or is what one of the
children makes; to the nodes of its prelude some of the children are added, in their order. -/
theorem foldlM_add_cases {children : List AtruleChild} {parts parts' : AtruleParts}
    (h : children.foldlM (fun parts d => parts.add src d.node d.block) parts = .ok parts') :
    (∀ b ∈ parts'.block, b ∈ parts.block ∨ ∃ d ∈ children, .ok b ∈ d.block)
      ∧ ∃ ds, List.Sublist ds (children.map (·.node)) ∧ parts'.prelude = parts.prelude ++ ds := by
  induction children generalizing parts with
  | nil =>
      obtain rfl := Except.ok.inj h
      exact ⟨fun b hb => .inl hb, [], .slnil, (List.append_nil _).symm⟩
  | cons d children ih =>
      simp only [List.foldlM_cons, bind_eq_ok] at h
      obtain ⟨next, hnext, hrest⟩ := h
      obtain ⟨hblock, ds, hsub, hprelude⟩ := ih hrest
      rw [List.map_cons]
      refine ⟨fun b hb => ?_, ?_⟩
      · rcases hblock b hb with hb | ⟨d', hd', hb⟩
        · rcases add_cases hnext with
            ⟨-, rfl⟩ | ⟨made, b', hmade, rfl, rfl⟩ | ⟨-, -, rfl⟩ | ⟨-, -, rfl⟩
          · exact .inl hb
          · obtain rfl := Option.some.inj hb
            exact .inr ⟨d, List.mem_cons_self, hmade⟩
          · exact .inl hb
          · exact .inl hb
        · exact .inr ⟨d', List.mem_cons_of_mem d hd', hb⟩
      · rcases add_cases hnext with
          ⟨-, rfl⟩ | ⟨made, b', -, -, rfl⟩ | ⟨-, -, rfl⟩ | ⟨-, -, rfl⟩
        · exact ⟨ds, hsub.cons _, hprelude⟩
        · exact ⟨ds, hsub.cons _, hprelude⟩
        · exact ⟨ds, hsub.cons _, hprelude⟩
        · refine ⟨d.node :: ds, hsub.cons_cons _, ?_⟩
          rw [hprelude, List.append_assoc, List.singleton_append]

/-- The prelude of an at-rule is made of some of the significant children in their order. -/
theorem prelude_sublist {c : Concrete} {parts : AtruleParts}
    (h : (c.significant.map (atruleChild src)).foldlM
      (fun parts d => AtruleParts.add src parts d.node d.block) ⟨"", none, []⟩ = .ok parts) :
    List.Sublist parts.prelude c.significant := by
  obtain ⟨-, ds, hsub, hprelude⟩ := foldlM_add_cases h
  have hnodes : (c.significant.map (atruleChild src)).map (·.node) = c.significant :=
    List.map_map.trans (List.map_id c.significant)
  rw [hnodes] at hsub
  rw [hprelude]
  exact hsub

/-- **What an at-rule has**: a prelude made of some of the significant children in their order, or
none, and the block or the block of keyframes that one of them makes, or none. -/
theorem atruleNode_cases {c : Concrete} {m : Mark} {name : String} {prelude body : Option Node}
    (h : atruleNode src c (c.significant.map (atruleChild src))
      = .ok (.atrule m name prelude body)) :
    (∃ cs, List.Sublist cs c.significant ∧ preludeNode src cs = .ok prelude)
      ∧ ∀ b ∈ body, ∃ d ∈ c.significant, block src d = .ok b ∨ keyframes src d = .ok b := by
  simp only [atruleNode, bind_eq_ok, pure_eq_ok] at h
  obtain ⟨parts, hparts, made, hmade, m', -, h⟩ := h
  obtain ⟨-, -, rfl, rfl⟩ := Node.atrule.inj h
  obtain ⟨hblocks, -⟩ := foldlM_add_cases hparts
  refine ⟨⟨parts.prelude, prelude_sublist hparts, hmade⟩, ?_⟩
  intro b hb
  rcases hblocks b hb with hb | ⟨child, hchild, hb⟩
  · cases hb
  · obtain ⟨d, hd, rfl⟩ := List.mem_map.1 hchild
    refine ⟨d, hd, ?_⟩
    -- a child makes a block of items or a block of keyframes, by its kind, or none
    rw [atruleChild] at hb
    simp only at hb
    split at hb
    · exact .inl (Option.some.inj hb)
    · split at hb
      · exact .inr (Option.some.inj hb)
      · cases hb

end Concrete

end Stylesheet
