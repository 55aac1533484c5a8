/-
A walk read with a stack.

Entering a node opens it, and leaving it closes it. Read from the start, the steps of a walk are a
bracketed list: what is left is always what was opened last, and what is given as the parent of a
node is what is open right below it.

The steps of a whole tree are read from an empty stack, but those of a tree inside it are not, and
the induction has to go through for them. So it is said of any stack that the steps of a tree leave
it as it was and never reach below it (`Balanced`). Lists that do so may be put one after the other
(`Balanced.append`) and into a pair of steps that opens and closes a node (`Balanced.wrap`), and the
steps of a tree are made in just these two ways.

Nothing of this minds a node that hangs in several places. Where none does, a step is known by its
node and its phase, and since the steps of a tree inside the whole stand in one piece there, all
steps below a node stand between the two of the node.
-/
import Mathlib.Data.List.Flatten
import Stylesheet.Proofs.Conversation

set_option autoImplicit false

namespace Stylesheet

/-! ## Open nodes -/

namespace Step

/-- The open nodes, the innermost first, after one more step. -/
def pass (stack : List Node) (s : Step) : List Node :=
  match s.phase with
  | .enter => s.target :: stack
  | .exit => stack.tail

/-- A step fits the open nodes: it leaves the innermost of them, and its parent is the node that
stands right below its target. -/
def Fits (s : Step) (stack : List Node) : Prop :=
  match s.phase with
  | .enter => s.parent = stack.head?
  | .exit => ∃ below, stack = s.target :: below ∧ s.parent = below.head?

end Step

namespace Walk

/-- The open nodes after some steps, the innermost first, where others were open before. -/
def openFrom (stack : List Node) (steps : List Step) : List Node :=
  steps.foldl Step.pass stack

/-- The open nodes after some steps from the start of a walk, the innermost first. -/
def openAfter (steps : List Step) : List Node := openFrom [] steps

theorem openFrom_append (stack : List Node) (xs ys : List Step) :
    openFrom stack (xs ++ ys) = openFrom (openFrom stack xs) ys :=
  List.foldl_append

/-- The nodes that a walk leaves, in order. -/
def left (steps : List Step) : List Node :=
  (steps.filter (·.phase = .exit)).map (·.target)

theorem length_entered_add_left (steps : List Step) :
    (entered steps).length + (left steps).length = steps.length := by
  induction steps with
  | nil => rfl
  | cons s steps ih =>
      rw [entered, left, List.length_map, List.length_map] at ih ⊢
      rw [List.filter_cons, List.filter_cons, List.length_cons, ← ih]
      cases hphase : s.phase with
      | enter => simp [Nat.add_right_comm]
      | exit => simp [Nat.add_assoc]

/-! ## Bracketed steps -/

/-- Steps are read as brackets: each fits the nodes that are open before it, none is open at the
end, and between the first step and the last some node is open. -/
structure WellBracketed (steps : List Step) : Prop where
  fits : ∀ before s after, steps = before ++ s :: after → s.Fits (openAfter before)
  closed : openAfter steps = []
  inside : ∀ before s after, steps = before ++ s :: after → before ≠ [] → openAfter before ≠ []

/-- Steps that may be taken with some nodes open: each fits, the open nodes stay open below
whatever else is opened, and in the end they are what is open. -/
structure Balanced (stack : List Node) (steps : List Step) : Prop where
  settled : openFrom stack steps = stack
  along : ∀ before s after, steps = before ++ s :: after →
    s.Fits (openFrom stack before) ∧ stack <:+ openFrom stack before

/-- Where two lists come one after the other, a member stands in the first or in the second. -/
private theorem split_append {α : Type} {xs ys before after : List α} {a : α}
    (h : xs ++ ys = before ++ a :: after) :
    (∃ rest, xs = before ++ a :: rest) ∨ ∃ begun, before = xs ++ begun ∧ ys = begun ++ a :: after := by
  rcases List.append_eq_append_iff.1 h with ⟨begun, hbefore, hys⟩ | ⟨rest, hxs, hrest⟩
  · exact .inr ⟨begun, hbefore, hys⟩
  · cases rest with
    | nil =>
        rw [List.append_nil] at hxs
        exact .inr ⟨[], by rw [hxs, List.append_nil], hrest.symm⟩
    | cons b rest =>
        obtain ⟨rfl, -⟩ := List.cons.inj hrest
        exact .inl ⟨rest, hxs⟩

variable {stack : List Node} {xs ys inner : List Step}

theorem Balanced.nil : Balanced stack [] :=
  ⟨rfl, fun before s after h => absurd h (by simp)⟩

theorem Balanced.append (hx : Balanced stack xs) (hy : Balanced stack ys) :
    Balanced stack (xs ++ ys) := by
  constructor
  · rw [openFrom_append, hx.settled, hy.settled]
  · intro before s after h
    rcases split_append h with ⟨rest, hxs⟩ | ⟨begun, rfl, hys⟩
    · exact hx.along before s rest hxs
    · rw [openFrom_append, hx.settled]
      exact hy.along begun s after hys

/-- With a node open on top, the steps before it is left fit, and it stays open. -/
theorem Balanced.along_exit {n : Node} (h : Balanced (n :: stack) inner) {before after : List Step}
    {s : Step} (hsplit : inner ++ [⟨.exit, n, stack.head?⟩] = before ++ s :: after) :
    s.Fits (openFrom (n :: stack) before) ∧ n :: stack <:+ openFrom (n :: stack) before := by
  rcases split_append hsplit with ⟨rest, hinner⟩ | ⟨begun, rfl, hexit⟩
  · exact h.along before s rest hinner
  · obtain ⟨rfl, hs⟩ : begun = [] ∧ s = ⟨.exit, n, stack.head?⟩ := by
      cases begun with
      | nil => exact ⟨rfl, (List.cons.inj hexit).1.symm⟩
      | cons b begun => simp at hexit
    rw [List.append_nil, h.settled, hs]
    exact ⟨⟨stack, rfl, rfl⟩, List.suffix_refl _⟩

theorem Balanced.wrap {n : Node} (h : Balanced (n :: stack) inner) :
    Balanced stack (⟨.enter, n, stack.head?⟩ :: (inner ++ [⟨.exit, n, stack.head?⟩])) := by
  constructor
  · have hinner : openFrom stack (⟨.enter, n, stack.head?⟩ :: inner) = n :: stack := h.settled
    rw [← List.cons_append, openFrom_append, hinner]
    rfl
  · intro before s after hsplit
    cases before with
    | nil =>
        rw [← (List.cons.inj hsplit).1]
        exact ⟨rfl, List.suffix_refl _⟩
    | cons b before =>
        obtain ⟨rfl, hrest⟩ := List.cons.inj hsplit
        obtain ⟨hfits, hopen⟩ := h.along_exit hrest
        exact ⟨hfits, (List.suffix_cons n stack).trans hopen⟩

end Walk

namespace Node

open Walk

/-! ## The steps of a tree -/

private theorem balanced_children {stack : List Node} {cs : List Node}
    (h : ∀ c ∈ cs, Balanced stack (c.steps stack.head?)) :
    Balanced stack (cs.flatMap (steps stack.head?)) := by
  induction cs with
  | nil => exact .nil
  | cons c cs ih =>
      rw [List.flatMap_cons]
      exact (h c List.mem_cons_self).append (ih fun d hd => h d (List.mem_cons_of_mem c hd))

/-- **The steps of a tree are balanced**, whatever is open around it. -/
theorem steps_balanced (stack : List Node) (n : Node) : Balanced stack (n.steps stack.head?) := by
  induction n using induction_children generalizing stack with
  | h n ih =>
      have hbelow : Balanced (n :: stack) (n.children.flatMap (steps (some n))) :=
        balanced_children fun c hc => ih c hc (n :: stack)
      rw [steps_eq]
      exact hbelow.wrap

/-- **The steps of a whole tree are well bracketed.** -/
theorem steps_wellBracketed (root : Node) : WellBracketed (root.steps none) := by
  have hroot := steps_balanced [] root
  refine ⟨fun before s after h => (hroot.along before s after h).1, hroot.settled, ?_⟩
  intro before s after h hbefore
  have hinner : Balanced [root] (root.children.flatMap (steps (some root))) :=
    balanced_children fun c _ => steps_balanced [root] c
  cases before with
  | nil => exact absurd rfl hbefore
  | cons b before =>
      -- after the first step the root itself is open until the last
      rw [steps_eq] at h
      obtain ⟨rfl, hrest⟩ := List.cons.inj h
      have hopen : [root] <:+ openFrom [root] before := (hinner.along_exit hrest).2
      show openFrom [root] before ≠ []
      intro hnil
      rw [hnil] at hopen
      exact List.cons_ne_nil root [] (List.suffix_nil.1 hopen)

/-! ## Preorder and postorder

The nodes that a walk enters come in preorder, and those that it leaves in postorder, which is
told from the tree alone. Both orders have the same nodes, each as often as it occurs in the tree,
so that there are two steps for each occurrence. -/

/-- The whole tree below a node, each node after its children. -/
def postorder (n : Node) : List Node :=
  (n.children.attach.flatMap fun ⟨c, _⟩ => postorder c) ++ [n]
termination_by sizeOf n
decreasing_by exact sizeOf_lt_of_mem_children ‹_›

theorem postorder_eq (n : Node) : n.postorder = n.children.flatMap postorder ++ [n] := by
  rw [postorder]
  simp

theorem left_steps (parent : Option Node) (n : Node) :
    Walk.left (n.steps parent) = n.postorder := by
  induction n using induction_children generalizing parent with
  | h n ih =>
      have hchildren : (n.children.flatMap fun c => Walk.left (c.steps (some n)))
          = n.children.flatMap postorder :=
        List.flatMap_congr fun c hc => ih c hc (some n)
      rw [postorder_eq, ← hchildren, steps_eq, Walk.left]
      simp [Walk.left, List.filter_flatMap, List.map_flatMap]

theorem postorder_perm (n : Node) : n.postorder.Perm n.preorder := by
  induction n using induction_children with
  | h n ih =>
      rw [postorder_eq, preorder_eq]
      exact (List.perm_append_singleton n _).trans ((List.Perm.flatMap_left _ ih).cons n)

theorem length_steps (root : Node) : (root.steps none).length = 2 * root.preorder.length := by
  rw [← length_entered_add_left, entered_steps, left_steps, (postorder_perm root).length_eq]
  omega

/-! ## A tree inside a tree -/

/-- The steps of a tree inside the whole stand in one piece there. -/
theorem Trail.exists_steps {root n : Node} {above : List Node} (h : root.Trail above n) :
    ∃ before after, root.steps none = before ++ (n.steps above.head? ++ after) := by
  induction h with
  | here => exact ⟨[], [], by simp⟩
  | @down above p c h hc ih =>
      obtain ⟨before, after, hsteps⟩ := ih
      obtain ⟨earlier, later, hchildren⟩ := List.append_of_mem hc
      rw [hsteps, p.steps_eq, hchildren, List.flatMap_append, List.flatMap_cons]
      refine ⟨before ++ ⟨.enter, p, above.head?⟩ :: earlier.flatMap (steps (some p)),
        later.flatMap (steps (some p)) ++ ([⟨.exit, p, above.head?⟩] ++ after), ?_⟩
      simp

/-- Each node of a tree is entered and left on a walk through it. -/
theorem exists_mem_steps {n m : Node} (hm : m ∈ n.preorder) (parent : Option Node) (phase : Phase) :
    ∃ s ∈ n.steps parent, s.phase = phase ∧ s.target = m := by
  have hwalk : (((n.steps parent).filter (·.phase = phase)).map (·.target)).Perm n.preorder := by
    cases phase with
    | enter => exact .of_eq (entered_steps parent n)
    | exit => exact (List.Perm.of_eq (left_steps parent n)).trans (postorder_perm n)
  obtain ⟨s, hs, rfl⟩ := List.mem_map.1 (hwalk.mem_iff.2 hm)
  obtain ⟨hs, hphase⟩ := List.mem_filter.1 hs
  exact ⟨s, hs, by simpa using hphase, rfl⟩

end Node

/-! ## Steps that are known by their node and phase -/

/-- The phase of a step and the identity of its node. -/
def Step.key (s : Step) : Phase × Nat := (s.phase, s.target.id)

namespace Walk

/-- If no node is entered twice and none is left twice, no two steps have a node and phase in
common. -/
theorem nodup_key {steps : List Step} (hentered : ((entered steps).map Node.id).Nodup)
    (hleft : ((left steps).map Node.id).Nodup) : (steps.map Step.key).Nodup := by
  have hphase : ∀ phase : Phase,
      ((steps.filter (·.phase = phase)).map fun s => s.target.id).Nodup := by
    rw [entered, List.map_map] at hentered
    rw [left, List.map_map] at hleft
    intro phase
    cases phase with
    | enter => exact hentered
    | exit => exact hleft
  rw [List.nodup_iff_sublist]
  intro key htwice
  -- two steps with one key would be two steps of one phase at one node
  obtain ⟨pair, hpair, hkeys⟩ := List.sublist_map_iff.1 htwice
  obtain ⟨s, rest, rfl, hs, hrest⟩ := List.map_eq_cons_iff.1 hkeys.symm
  obtain ⟨t, rest, rfl, ht, hnil⟩ := List.map_eq_cons_iff.1 hrest
  obtain rfl := List.map_eq_nil_iff.1 hnil
  have hsub := (hpair.filter (·.phase = key.1)).map fun s => s.target.id
  have hsame : ∀ u : Step, u.key = key → u.phase = key.1 ∧ u.target.id = key.2 := by
    intro u hu
    rw [← hu]
    exact ⟨rfl, rfl⟩
  simp only [List.filter_cons, hsame s hs, hsame t ht, decide_true, if_true, List.filter_nil,
    List.map_cons, List.map_nil] at hsub
  exact List.nodup_iff_sublist.1 (hphase key.1) key.2 hsub

/-- Steps without a node and phase in common are not the same. -/
theorem pairwise_not_same {steps : List Step} (h : (steps.map Step.key).Nodup) :
    steps.Pairwise fun s t => s.same t = false := by
  rw [List.Nodup, List.pairwise_map] at h
  apply h.imp
  intro s t hne
  by_contra hsame
  apply hne
  simp only [Bool.not_eq_false, Step.same, Bool.and_eq_true, beq_iff_eq] at hsame
  exact Prod.ext hsame.1.1 hsame.1.2

/-- A node has one step among others that enters it and one that leaves it, and all steps at nodes
below it stand between the two. -/
def Encloses (steps : List Step) (n : Node) : Prop :=
  ∃ parent before between after,
    steps = before ++ ⟨.enter, n, parent⟩ :: (between ++ ⟨.exit, n, parent⟩ :: after)
      ∧ (∀ s ∈ before ++ between ++ after, s.target.id ≠ n.id)
      ∧ ∀ s ∈ before ++ after, ∀ m ∈ n.preorder, s.target.id ≠ m.id

end Walk

namespace Node

theorem Distinct.nodup_key {root : Node} (hd : root.Distinct) :
    ((root.steps none).map Step.key).Nodup := by
  apply Walk.nodup_key
  · rw [entered_steps]
    exact hd
  · rw [left_steps]
    exact ((postorder_perm root).map id).nodup_iff.2 hd

/-- **The two steps of a node** enclose all steps below it, in a tree without a node in two
places. -/
theorem Distinct.encloses {root n : Node} (hd : root.Distinct) (hn : n ∈ root.preorder) :
    Walk.Encloses (root.steps none) n := by
  have hnodup := hd.nodup_key
  obtain ⟨above, ht⟩ := mem_preorder_iff.1 hn
  obtain ⟨before, after, hsteps⟩ := ht.exists_steps
  rw [hsteps, List.map_append, List.map_append] at hnodup
  obtain ⟨-, hright, hbefore⟩ := List.nodup_append.1 hnodup
  obtain ⟨hpiece, -, hafter⟩ := List.nodup_append.1 hright
  -- a step outside at a node below would be a second one at that node in its phase
  have houtside : ∀ s ∈ before ++ after, ∀ m ∈ n.preorder, s.target.id ≠ m.id := by
    intro s hs m hm hid
    obtain ⟨t, htmem, hphase, rfl⟩ := exists_mem_steps hm above.head? s.phase
    have hkey : s.key = t.key := Prod.ext hphase.symm hid
    have htkey := List.mem_map_of_mem htmem (f := Step.key)
    rcases List.mem_append.1 hs with hs | hs
    · exact hbefore _ (List.mem_map_of_mem hs) _ (List.mem_append_left _ htkey) hkey
    · exact hafter _ htkey _ (List.mem_map_of_mem hs) hkey.symm
  -- and inside, one at the node itself would be a second one too
  rw [steps_eq above.head? n] at hsteps hpiece
  refine ⟨above.head?, before, n.children.flatMap (steps (some n)), after, ?_, ?_, houtside⟩
  · rw [hsteps]
    simp
  · intro s hs hid
    rw [List.append_assoc] at hs
    rw [List.map_cons, List.nodup_cons, List.map_append, List.nodup_append] at hpiece
    obtain ⟨henter, -, -, hexit⟩ := hpiece
    by_cases hinner : s ∈ n.children.flatMap (steps (some n))
    · have hkey : s.key ∈ (n.children.flatMap (steps (some n))).map Step.key :=
        List.mem_map_of_mem hinner
      cases hphase : s.phase with
      | enter =>
          apply henter
          rw [show Step.key ⟨.enter, n, above.head?⟩ = s.key from Prod.ext hphase.symm hid.symm]
          exact List.mem_append_left _ hkey
      | exit => exact hexit _ hkey _ (List.mem_singleton_self _) (Prod.ext hphase hid)
    · refine houtside s ?_ n (self_mem_preorder n) hid
      simp only [List.mem_append] at hs ⊢
      tauto

end Node

/-! ## What a session gives -/

namespace Session

/-- **The steps that a session gives** are well bracketed for every tree whose nodes all have a
layout: read with a stack, each step that leaves a node leaves the one that was opened last, the
parent of a step stands right below its node, and some node is open all the while. The nodes are
entered in preorder and left in postorder, with two steps for each of their occurrences. In a tree
without a node in two places no two steps are the same, and the two steps of a node enclose those
of all nodes below it. -/
theorem traverse_wellBracketed (text : String) {root : Node}
    (hlayout : ∀ n ∈ root.preorder, n.kind.layout? ≠ none) (hp : root.PreludesAreGroups) :
    ∃ steps, ((start text root).answer .traverse).1 = .ok (.steps steps)
      ∧ Walk.WellBracketed steps
      ∧ Walk.entered steps = root.preorder ∧ Walk.left steps = root.postorder
      ∧ steps.length = 2 * root.preorder.length
      ∧ (root.Distinct → steps.Pairwise (fun s t => s.same t = false)
          ∧ ∀ n ∈ root.preorder, Walk.Encloses steps n) := by
  have hc : root.NoComment := by
    intro n hn hkind
    exact hlayout n hn ((Kind.layout?_eq_none_iff n.kind).2 hkind)
  refine ⟨root.steps none, ?_, root.steps_wellBracketed, root.entered_steps none,
    root.left_steps none, root.length_steps, fun hd => ?_⟩
  · rw [answer, tryAsk_start_of_ok (Walk.ofTree_of_noComment hc hp)]
    rfl
  · exact ⟨Walk.pairwise_not_same hd.nodup_key, fun n hn => hd.encloses hn⟩

section Example

/-- A stylesheet in which one identifier is the value of two declarations. -/
private def sharedValue : Node :=
  let value := Node.leaf ⟨3, none⟩ (.identifier "red")
  .group ⟨0, none⟩ .stylesheet [.declaration ⟨1, none⟩ "color" (some value) false,
    .declaration ⟨2, none⟩ "fill" (some value) false]

/-- A rule in the block of a rule. -/
private def ruleInRule : Node :=
  .group ⟨0, none⟩ .stylesheet [.rule ⟨1, none⟩ (some (.leaf ⟨2, none⟩ (.raw "a")))
    (some (.group ⟨3, none⟩ .block [.rule ⟨4, none⟩ none none]))]

/-- The value is entered and left in both of its places, and the steps are brackets all the same.
Where each node has a place of its own, its steps enclose those below it. -/
theorem traverse_sharedValue :
    (∀ n ∈ sharedValue.preorder, n.kind.layout? ≠ none) ∧ sharedValue.PreludesAreGroups
      ∧ ¬ sharedValue.Distinct
      ∧ (∃ steps, ((start "" sharedValue).answer .traverse).1 = .ok (.steps steps)
        ∧ Walk.WellBracketed steps ∧ (Walk.left steps).map Node.id = [3, 1, 3, 2, 0]
        ∧ steps.length = 10)
      ∧ (∀ n ∈ ruleInRule.preorder, n.kind.layout? ≠ none) ∧ ruleInRule.PreludesAreGroups
      ∧ ruleInRule.Distinct
      ∧ ∃ steps, ((start "" ruleInRule).answer .traverse).1 = .ok (.steps steps)
        ∧ ∀ n ∈ ruleInRule.preorder, Walk.Encloses steps n := by
  have hshared : ∀ n ∈ sharedValue.preorder, n.kind.layout? ≠ none := by decide +kernel
  have hnested : ∀ n ∈ ruleInRule.preorder, n.kind.layout? ≠ none := by decide +kernel
  have hp : sharedValue.PreludesAreGroups :=
    Node.preludesAreGroups_of_noAtrule (by decide +kernel)
  have hp' : ruleInRule.PreludesAreGroups :=
    Node.preludesAreGroups_of_noAtrule (by decide +kernel)
  have hd : ruleInRule.Distinct := by unfold Node.Distinct; decide +kernel
  obtain ⟨steps, hsteps, hbrackets, -, hleft, hlength, -⟩ :=
    traverse_wellBracketed "" hshared hp
  obtain ⟨steps', hsteps', -, -, -, -, hdistinct⟩ := traverse_wellBracketed "" hnested hp'
  have hnot : ¬ sharedValue.Distinct := by unfold Node.Distinct; decide +kernel
  refine ⟨hshared, hp, hnot, ⟨steps, hsteps, hbrackets, ?_, ?_⟩, hnested, hp', hd, steps', hsteps',
    (hdistinct hd).2⟩
  · rw [hleft]
    decide +kernel
  · rw [hlength]
    decide +kernel

end Example

end Session

end Stylesheet
