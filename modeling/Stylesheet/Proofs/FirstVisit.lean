/-
The ancestors of a node are what is open when it is entered first.

A session keeps one parent for each node, the one below which the node was entered first, and puts
its ancestors together out of several such parents. In a tree with shared nodes these come from
different visits, and it is not plain that the chain is a way through the tree at all. It is, and it
is the way of the first visit: a node that is entered for the first time has only nodes above it
that are in their own first visit (`Node.aboveFirst_parent`), because a visit ends with everything
below it visited.

What stands above the first place of a node is turned here into what is open before the first step
that enters it. Reading a walk with a stack gives the places of the tree, each with the stack as it
was (`entrances_steps`), so the first place with an identity is found where the walk first enters
it (`find?_entrances`).
-/
import Stylesheet.Proofs.Bracketing

set_option autoImplicit false

namespace Stylesheet

/-- Whether a step enters the node with an identity. -/
def Step.enters (k : Nat) (s : Step) : Bool :=
  s.phase = .enter && s.target.id == k

namespace Walk

/-! ## Places on a walk -/

/-- The places at which steps enter nodes, by the open nodes. -/
def entrances (stack : List Node) : List Step → List Node.Place
  | [] => []
  | s :: steps =>
    match s.phase with
    | .enter => ⟨stack, s.target⟩ :: entrances (s.target :: stack) steps
    | .exit => entrances stack.tail steps

/-- The places of two runs of steps, the second from what the first leaves open. -/
theorem entrances_append (stack : List Node) (xs ys : List Step) :
    entrances stack (xs ++ ys) = entrances stack xs ++ entrances (openFrom stack xs) ys := by
  induction xs generalizing stack with
  | nil => rfl
  | cons s xs ih =>
      rw [List.cons_append, entrances, entrances, openFrom, List.foldl_cons, Step.pass]
      cases s.phase with
      | enter => exact congrArg (_ :: ·) (ih (s.target :: stack))
      | exit => exact ih stack.tail

/-- Each child leaves the stack as it was, for the next to be read from. -/
private theorem entrances_children {stack : List Node} {cs : List Node}
    (h : ∀ c ∈ cs, entrances stack (c.steps stack.head?) = Node.placesBelow stack c) :
    entrances stack (cs.flatMap (Node.steps stack.head?))
      = cs.flatMap (Node.placesBelow stack) := by
  induction cs with
  | nil => rfl
  | cons c cs ih =>
      have hsettled : openFrom stack (c.steps stack.head?) = stack :=
        (Node.steps_balanced stack c).settled
      rw [List.flatMap_cons, List.flatMap_cons, entrances_append, hsettled, h c List.mem_cons_self,
        ih fun d hd => h d (List.mem_cons_of_mem c hd)]

/-- **The places on a walk** through a tree are those of the tree. -/
theorem entrances_steps (above : List Node) (n : Node) :
    entrances above (n.steps above.head?) = Node.placesBelow above n := by
  induction n using Node.induction_children generalizing above with
  | h n ih =>
      have hbelow : entrances (n :: above) (n.children.flatMap (Node.steps (some n)))
          = n.children.flatMap (Node.placesBelow (n :: above)) :=
        entrances_children fun c hc => ih c hc (n :: above)
      rw [Node.steps_eq, Node.placesBelow_eq, entrances, entrances_append, hbelow]
      simp [entrances]

/-! ## The first visit -/

/-- The open nodes, the innermost first, just before the first step that enters a node. -/
def openBefore (steps : List Step) (n : Node) : List Node :=
  openAfter (steps.takeWhile fun s => !s.enters n.id)

/-- **The first place on a walk** of an identity is where it is first entered, with what is open
there. -/
theorem find?_entrances (stack : List Node) (steps : List Step) (k : Nat) :
    ((entrances stack steps).find? (·.node.id == k)).map Node.Place.above =
      if steps.any (Step.enters k) then
        some (openFrom stack (steps.takeWhile fun s => !s.enters k))
      else none := by
  induction steps generalizing stack with
  | nil => rfl
  | cons s steps ih =>
      obtain ⟨phase, target, parent⟩ := s
      cases phase with
      | exit =>
          have henters : Step.enters k ⟨.exit, target, parent⟩ = false := rfl
          rw [List.any_cons, List.takeWhile_cons, henters]
          exact ih stack.tail
      | enter =>
          have henters : Step.enters k ⟨.enter, target, parent⟩ = (target.id == k) := rfl
          rw [List.any_cons, List.takeWhile_cons, henters, entrances, List.find?_cons]
          cases target.id == k with
          | true => rfl
          | false => exact ih (target :: stack)

/-- Above the first place of a node stands what is open before the first step that enters it, and
nothing if no step does. -/
theorem aboveFirst_eq_openBefore (root n : Node) :
    root.aboveFirst n.id =
      if (root.steps none).any (Step.enters n.id) then openBefore (root.steps none) n else [] := by
  have hplaces : entrances [] (root.steps none) = root.places := entrances_steps [] root
  have hfirst := find?_entrances [] (root.steps none) n.id
  rw [hplaces] at hfirst
  have hmap : root.aboveFirst n.id
      = ((root.places.find? (·.node.id == n.id)).map Node.Place.above).getD [] := by
    rw [Node.aboveFirst]
    cases root.places.find? (·.node.id == n.id) <;> rfl
  rw [hmap, hfirst]
  split <;> rfl

end Walk

namespace Session

/-! ## What a session answers -/

/-- A session answers with what stands above the first place of a node, from the root down, and
with the nearest of it. -/
theorem answers_aboveFirst (text : String) {root : Node} (hid : root.Identified)
    (hwalk : Walk.ofTree root = .ok (.ofSteps (root.steps none))) (n : Node) :
    ((start text root).answer (.ancestors n)).1 = .ok (.nodes (root.aboveFirst n.id).reverse)
      ∧ ((start text root).answer (.parent n)).1 = .ok (.parent (root.aboveFirst n.id).head?) := by
  constructor
  · rw [answer, tryAsk_start_of_ok hwalk, Question.answer, Walk.ancestors, Walk.above,
      Walk.climb_eq_aboveFirst hid n (Nat.le_refl _)]
  · rw [answer, tryAsk_start_of_ok hwalk, Question.answer, Walk.parent?_eq_head? hid]

/-- **The ancestors of a node** that the walk enters are the nodes that are open just before the
first step that enters it, from the root down, and its parent is the last of them. A node that is
never entered has neither. The climb that collects the ancestors ends by itself, whatever bound it
is given beyond the length of the table of parents. All this holds of trees with shared nodes, as
long as an identity stands for one node. -/
theorem ancestors_eq_open (text : String) {root : Node} (hid : root.Identified)
    (hc : root.NoComment) (hp : root.PreludesAreGroups) (n : Node) :
    ∃ w, Walk.ofTree root = .ok w
      ∧ ((start text root).answer .traverse).1 = .ok (.steps w.steps)
      ∧ (w.steps.any (Step.enters n.id) = true →
          ((start text root).answer (.ancestors n)).1
              = .ok (.nodes (Walk.openBefore w.steps n).reverse)
            ∧ ((start text root).answer (.parent n)).1
              = .ok (.parent (Walk.openBefore w.steps n).reverse.getLast?))
      ∧ (w.steps.any (Step.enters n.id) = false →
          ((start text root).answer (.ancestors n)).1 = .ok (.nodes [])
            ∧ ((start text root).answer (.parent n)).1 = .ok (.parent none))
      ∧ ∀ bound, w.parents.length ≤ bound → w.climb bound n = w.above n := by
  have hwalk := Walk.ofTree_of_noComment hc hp
  obtain ⟨hancestors, hparent⟩ := answers_aboveFirst text hid hwalk n
  have hfirst : root.aboveFirst n.id
      = if (Walk.ofSteps (root.steps none)).steps.any (Step.enters n.id) then
          Walk.openBefore (Walk.ofSteps (root.steps none)).steps n
        else [] := Walk.aboveFirst_eq_openBefore root n
  refine ⟨.ofSteps (root.steps none), hwalk, ?_, ?_, ?_, ?_⟩
  · rw [answer, tryAsk_start_of_ok hwalk]
    rfl
  · intro hentered
    rw [if_pos hentered] at hfirst
    rw [hancestors, hparent, hfirst, List.getLast?_reverse]
    exact ⟨rfl, rfl⟩
  · intro hentered
    rw [if_neg (ne_true_of_eq_false hentered)] at hfirst
    rw [hancestors, hparent, hfirst]
    exact ⟨rfl, rfl⟩
  · intro bound hbound
    rw [Walk.climb_eq_aboveFirst hid n hbound, Walk.above,
      Walk.climb_eq_aboveFirst hid n (Nat.le_refl _)]

section Example

/-- A word that is the value of two declarations, in a value that both share. -/
private def word : Node := .leaf ⟨4, none⟩ (.identifier "red")

private def valueOfWord : Node := .group ⟨3, none⟩ .value [word]

private def declaringWord (id : Nat) (property : String) : Node :=
  .declaration ⟨id, none⟩ property (some valueOfWord) false

private def sharedWord : Node :=
  .group ⟨0, none⟩ .stylesheet [declaringWord 1 "color", declaringWord 2 "fill"]

/-- A word that stands nowhere. -/
private def strayWord : Node := .leaf ⟨9, none⟩ (.identifier "red")

/-- The ancestors of a shared word are those of its first place, and a stray one has none. -/
theorem ancestors_sharedWord :
    sharedWord.Identified ∧ sharedWord.NoComment ∧ sharedWord.PreludesAreGroups
      ∧ (∃ ancestors, ((start "" sharedWord).answer (.ancestors word)).1 = .ok (.nodes ancestors)
        ∧ ancestors.map Node.id = [0, 1, 3])
      ∧ ((start "" sharedWord).answer (.ancestors strayWord)).1 = .ok (.nodes []) := by
  have hid : sharedWord.Identified := by
    apply Node.identified_of_everywhere fun k =>
      [sharedWord, declaringWord 1 "color", declaringWord 2 "fill", valueOfWord].getD k word
    simp [Node.Everywhere, Node.preorder_eq, sharedWord, declaringWord, valueOfWord, word,
      Node.children, Node.id, Node.mark]
  have hc : sharedWord.NoComment := by unfold Node.NoComment; decide +kernel
  have hatrule : ∀ n ∈ sharedWord.preorder, n.kind ≠ .atrule := by decide +kernel
  have hp : sharedWord.PreludesAreGroups := Node.preludesAreGroups_of_noAtrule hatrule
  obtain ⟨w, hw, -, hentered, -, -⟩ := ancestors_eq_open "" hid hc hp word
  obtain ⟨w', hw', -, -, hnever, -⟩ := ancestors_eq_open "" hid hc hp strayWord
  obtain ⟨-, rfl⟩ := Walk.ofTree_eq_ok_iff.1 hw
  obtain ⟨-, rfl⟩ := Walk.ofTree_eq_ok_iff.1 hw'
  refine ⟨hid, hc, hp, ⟨_, (hentered (by decide +kernel)).1, by decide +kernel⟩, ?_⟩
  exact (hnever (by decide +kernel)).1

end Example

end Session

end Stylesheet
