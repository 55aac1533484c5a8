/-
The list of the custom properties that are used, and its order.

What a walk finds of a property is what it enters that uses it (`uses_eq_usesAmong`), and the names
are those that something is found for, each once.

The names do not come in the order in which the walk meets them. There is one register for each
kind of use, each in the order of its own first records (`Register.keys_foldl_recordAt`), and the
names of the registers stand one after the other: all names that are declared come first,
then those that are only defined, then those that are only referred to. So a name that a call
mentions at the very start of a text comes behind every name that is declared anywhere.

Of two names, which comes first is asked with `firstOf`. It can be pulled through everything that
the list is made with, to the entered nodes, where it is a comparison of first indices.
-/
import Stylesheet.Proofs.Conversation
import Stylesheet.Proofs.Index
import Stylesheet.Proofs.ParsedTree
import Stylesheet.Proofs.WellNested

set_option autoImplicit false

namespace Stylesheet

/-! ## The first of two -/

/-- A comparison decides before all that follows it, unless the two indices are the same. -/
theorem ite_lt_or_eq_some_iff {β : Type} {x y : β} (hne : x ≠ y) (i j : Nat) (after : Option β) :
    (if i < j then some x else if j < i then some y else none).or after = some x
      ↔ i < j ∨ i = j ∧ after = some x := by
  by_cases hlt : i < j
  · simp [hlt]
  · by_cases hgt : j < i
    · simp [hlt, hgt, Nat.ne_of_gt hgt, Ne.symm hne]
    · simp [show i = j by omega]

section FirstOf

variable {α β : Type} [DecidableEq β] {x y : β}

/-- Which of two things comes first in a list, if one of them is there. -/
def firstOf (x y : β) (l : List β) : Option β := l.find? fun z => z = x ∨ z = y

/-- In two lists, one after the other, it is decided by the second only if neither is in the
first. -/
theorem firstOf_append (l m : List β) :
    firstOf x y (l ++ m) = (firstOf x y l).or (firstOf x y m) := by
  simp [firstOf]

/-- What comes first is no repetition. -/
theorem firstOf_eraseDups (l : List β) : firstOf x y l.eraseDups = firstOf x y l := by
  cases l with
  | nil => rfl
  | cons z l =>
      have hrest := firstOf_eraseDups (l.filter fun b => !b == z)
      rw [firstOf, firstOf, List.find?_filter] at hrest
      rw [List.eraseDups_cons, firstOf, firstOf, List.find?_cons, List.find?_cons, hrest]
      by_cases hz : z = x ∨ z = y
      · simp [hz]
      · -- the repetitions that are left out are of something else
        have hother : ∀ b : β, (b = x ∨ b = y) → b ≠ z := by
          rintro b hb rfl
          exact hz hb
        have hsame : (fun b => decide ((!b == z) = true ∧ decide (b = x ∨ b = y) = true))
            = fun b => decide (b = x ∨ b = y) := by
          funext b
          by_cases hb : b = x ∨ b = y
          · simp [hb, hother b hb]
          · simp [hb]
        simp only [hz, decide_false, hsame]
termination_by l.length
decreasing_by exact Nat.lt_succ_of_le (List.length_filter_le _ _)

theorem nodup_eraseDups (l : List β) : l.eraseDups.Nodup := by
  cases l with
  | nil => simp
  | cons z l =>
      rw [List.eraseDups_cons, List.nodup_cons, List.mem_eraseDups]
      exact ⟨by simp, nodup_eraseDups _⟩
termination_by l.length
decreasing_by exact Nat.lt_succ_of_le (List.length_filter_le _ _)

/-- **First indices.** Which of two names comes first, among the names that nodes have, is decided
by the first nodes that have them. -/
theorem firstOf_filterMap (hne : x ≠ y) (name? : α → Option β) (l : List α) :
    firstOf x y (l.filterMap name?) =
      if l.findIdx (name? · = some x) < l.findIdx (name? · = some y) then some x
      else if l.findIdx (name? · = some y) < l.findIdx (name? · = some x) then some y
      else none := by
  induction l with
  | nil => simp [firstOf]
  | cons a l ih =>
      rw [List.findIdx_cons, List.findIdx_cons]
      cases h : name? a with
      | none => simpa [h] using ih
      | some z =>
          by_cases hx : z = x
          · subst hx
            simp [firstOf, h, hne]
          · by_cases hy : z = y
            · subst hy
              simp [firstOf, h, hx]
            · simpa [firstOf, h, hx, hy] using ih

/-- The first of two things in a list has the smaller index there. -/
theorem idxOf_lt_idxOf_iff (hne : x ≠ y) (l : List β) :
    l.idxOf x < l.idxOf y ↔ firstOf x y l = some x := by
  have hidx : ∀ z, l.findIdx (fun a => some a = some z) = l.idxOf z := by
    intro z
    simp only [List.idxOf, Option.some.injEq, beq_eq_decide]
  have h := firstOf_filterMap hne some l
  rw [List.filterMap_some, hidx, hidx] at h
  rw [h]
  by_cases hlt : l.idxOf x < l.idxOf y
  · simp [hlt]
  · simp [hlt, Ne.symm hne]

end FirstOf

/-! ## The list of names -/

namespace Walk

theorem mem_names_iff {w : Walk} {x : String} : x ∈ w.names ↔ (w.uses? x).isSome :=
  (Assoc.get?_isSome_iff_mem_keys w.properties x).symm

theorem mem_names_ofSteps_iff {root : Node} {x : String} :
    x ∈ (ofSteps (root.steps none)).names
      ↔ Node.isCustomName x = true ∧ ∃ n ∈ root.preorder, n.uses x = true := by
  rw [mem_names_iff, uses?_ofSteps]
  split
  · rename_i h
    exact iff_of_true rfl h
  · rename_i h
    exact iff_of_false Bool.false_ne_true h

/-- The names of a walk: those that nodes declare, define and call, one list after the other. -/
theorem names_ofSteps (root : Node) :
    (ofSteps (root.steps none)).names =
      ((root.preorder.filterMap UsesFound.declaredName?).eraseDups
        ++ (root.preorder.filterMap UsesFound.definedName?).eraseDups
        ++ (root.preorder.filterMap UsesFound.calledName?).eraseDups).eraseDups := by
  have hnil : Assoc.keys ([] : Register) = ([] : List String).eraseDups := rfl
  rw [names, ofSteps, Node.entered_steps, UsesFound.foldl_enter, UsesFound.byName, Assoc.keys,
    List.map_map]
  simp only [Register.keys_foldl_recordAt _ _ hnil, List.nil_append]
  exact List.map_id _

end Walk

/-! ## What is found of a property -/

/-- Whether nothing is known of a property. -/
def Uses.isEmpty (uses : Uses) : Bool :=
  uses.declarations.isEmpty && uses.definitions.isEmpty && uses.references.isEmpty

namespace Node

/-- The uses of a property among nodes, those of each kind in order. -/
def usesAmong (ns : List Node) (x : String) : Uses where
  declarations := ns.filter (declares x)
  definitions := ns.filter (defines x)
  references := ns.filter (refersTo x)

/-- There are no uses among nodes of which none uses the property. -/
theorem isEmpty_usesAmong_eq_false_iff {ns : List Node} {x : String} :
    (usesAmong ns x).isEmpty = false ↔ ∃ n ∈ ns, n.uses x = true := by
  have hsome : ∀ p : Node → Bool,
      (ns.filter p).isEmpty = false ↔ ∃ n ∈ ns, p n = true := by
    intro p
    rw [List.isEmpty_eq_false_iff, ne_eq, List.filter_eq_nil_iff]
    push Not
    rfl
  simp only [Uses.isEmpty, usesAmong, uses, Bool.and_eq_false_iff, hsome, Bool.or_eq_true,
    and_or_left, exists_or]

end Node

namespace Session

/-- **The index of custom properties.** In a tree that can be walked, under a custom name stand
the nodes that the walk enters and that declare, define and call it, each list in the order of the
walk; under any other name, or if all three lists are empty, stands nothing. The list of names has
each of the names that something stands under, once. -/
theorem uses_eq_usesAmong (text : String) {root : Node} {steps : List Step}
    (hwalk : ((start text root).answer .traverse).1 = .ok (.steps steps)) :
    (∀ x, ((start text root).answer (.uses x)).1
        = .ok (.uses (if Node.isCustomName x && !(Node.usesAmong (Walk.entered steps) x).isEmpty
            then some (Node.usesAmong (Walk.entered steps) x) else none)))
      ∧ ∃ names, ((start text root).answer .names).1 = .ok (.names names) ∧ names.Nodup
        ∧ ∀ x, x ∈ names
          ↔ ∃ uses, ((start text root).answer (.uses x)).1 = .ok (.uses (some uses)) := by
  obtain ⟨hentered, hanswer⟩ := answer_of_traverse hwalk
  rw [hentered]
  refine ⟨fun x => ?_, (Walk.ofSteps (root.steps none)).names, hanswer .names, ?_, fun x => ?_⟩
  · rw [hanswer, Question.answer, Walk.uses?_ofSteps]
    simp only [Bool.and_eq_true, Bool.not_eq_true', Node.isEmpty_usesAmong_eq_false_iff]
    rfl
  · rw [Walk.names_ofSteps]
    exact nodup_eraseDups _
  · rw [hanswer, Question.answer, Walk.mem_names_iff, Option.isSome_iff_exists]
    simp only [Except.ok.injEq, Answer.uses.injEq]

section Example

/-- A definition, two calls and two declarations, one of them of a property that is not custom. -/
private def threeKinds : Node :=
  .group ⟨0, none⟩ .stylesheet
    [.atrule ⟨1, none⟩ "Property" (some (.group ⟨2, none⟩ .atrulePrelude
        [.leaf ⟨3, none⟩ (.identifier "--b")])) none,
      .declaration ⟨4, none⟩ "color" (some (.group ⟨5, none⟩ .value
        [.group ⟨6, none⟩ (.function "var") [.leaf ⟨7, none⟩ (.identifier "--b")],
          .group ⟨8, none⟩ (.function "VAR") [.leaf ⟨9, none⟩ (.identifier "--a")]])) false,
      .declaration ⟨10, none⟩ "--a" none false]

/-- The uses of the two custom properties are found, the property that is not custom is not. -/
theorem uses_threeKinds :
    ((start "" threeKinds).answer .traverse).1 = .ok (.steps (threeKinds.steps none))
      ∧ (∃ uses, ((start "" threeKinds).answer (.uses "--a")).1 = .ok (.uses (some uses))
        ∧ uses.declarations.map Node.id = [10] ∧ uses.definitions.map Node.id = []
        ∧ uses.references.map Node.id = [8])
      ∧ (∃ uses, ((start "" threeKinds).answer (.uses "--b")).1 = .ok (.uses (some uses))
        ∧ uses.declarations.map Node.id = [] ∧ uses.definitions.map Node.id = [1]
        ∧ uses.references.map Node.id = [6])
      ∧ ((start "" threeKinds).answer (.uses "color")).1 = .ok (.uses none)
      ∧ ∃ names, ((start "" threeKinds).answer .names).1 = .ok (.names names) ∧ names.Nodup
        ∧ "--a" ∈ names ∧ "--b" ∈ names ∧ "color" ∉ names := by
  have hwalk : ((start "" threeKinds).answer .traverse).1
      = .ok (.steps (threeKinds.steps none)) :=
    answer_traverse_of_noObstacle (by decide +kernel) ""
  obtain ⟨huses, names, hnames, hnodup, hmem⟩ := uses_eq_usesAmong "" hwalk
  have ha := huses "--a"
  have hb := huses "--b"
  have hcolor := huses "color"
  rw [if_pos (by decide +kernel)] at ha hb
  rw [if_neg (by decide +kernel)] at hcolor
  refine ⟨hwalk, ⟨_, ha, by decide +kernel, by decide +kernel, by decide +kernel⟩,
    ⟨_, hb, by decide +kernel, by decide +kernel, by decide +kernel⟩, hcolor, names, hnames, hnodup,
    (hmem _).2 ⟨_, ha⟩, (hmem _).2 ⟨_, hb⟩, fun h => ?_⟩
  obtain ⟨uses, h⟩ := (hmem "color").1 h
  rw [hcolor] at h
  cases h

end Example

end Session

/-! ## The order of the names

The three registers are listed one after the other, and a name that was listed is not repeated. So
the order of two names is decided by the first register that has one of them. A property is used
first where it is first declared, defined or called, whichever comes first. -/

namespace Node

/-- Whether one property stands before another in the list of names: it is declared first, or
neither is declared and it is defined first, or neither is declared or defined and it is called
first. The index of what is not there is the length of the list, so the indices of two properties
are the same only where neither is there. -/
def ListedBefore (ns : List Node) (x y : String) : Prop :=
  ns.findIdx (declares x) < ns.findIdx (declares y)
    ∨ ns.findIdx (declares x) = ns.findIdx (declares y)
      ∧ (ns.findIdx (defines x) < ns.findIdx (defines y)
        ∨ ns.findIdx (defines x) = ns.findIdx (defines y)
          ∧ ns.findIdx (refersTo x) < ns.findIdx (refersTo y))

/-- Whether a property falls behind another one that is used later: the other one is declared
first, or neither is declared and the other one is defined first. -/
def FallsBehind (ns : List Node) (x y : String) : Prop :=
  ns.findIdx (uses x) < ns.findIdx (uses y)
    ∧ (ns.findIdx (declares y) < ns.findIdx (declares x)
      ∨ ns.findIdx (declares y) = ns.findIdx (declares x)
        ∧ ns.findIdx (defines y) < ns.findIdx (defines x))

theorem findIdx_or {α : Type} (p q : α → Bool) (l : List α) :
    l.findIdx (fun a => p a || q a) = min (l.findIdx p) (l.findIdx q) := by
  induction l with
  | nil => rfl
  | cons a l ih =>
      rw [List.findIdx_cons, List.findIdx_cons, List.findIdx_cons, ih]
      cases p a <;> cases q a <;> simp [Nat.add_min_add_right]

theorem findIdx_uses (ns : List Node) (x : String) :
    ns.findIdx (uses x)
      = min (min (ns.findIdx (declares x)) (ns.findIdx (defines x)))
          (ns.findIdx (refersTo x)) := by
  rw [← findIdx_or, ← findIdx_or]
  rfl

/-- A node uses one property only. -/
theorem eq_of_uses {n : Node} {x y : String} (hx : n.uses x = true) (hy : n.uses y = true) :
    x = y := by
  cases n with
  | declaration m property value important =>
      simp only [uses, declares, defines, refersTo, isVar, Bool.false_and, Bool.or_false,
        beq_iff_eq] at hx hy
      exact hx.symm.trans hy
  | atrule m name prelude block =>
      cases prelude with
      | none => cases hx
      | some p =>
          simp only [uses, declares, defines, refersTo, isVar, Bool.false_and, Bool.false_or,
            Bool.or_false, Bool.and_eq_true, beq_iff_eq] at hx hy
          exact Option.some.inj (hx.2.symm.trans hy.2)
  | group m g ns =>
      simp only [uses, declares, defines, refersTo, Bool.false_or, Bool.and_eq_true,
        beq_iff_eq] at hx hy
      exact Option.some.inj (hx.2.symm.trans hy.2)
  | _ => cases hx

theorem findIdx_uses_ne {ns : List Node} {x y : String} (hne : x ≠ y)
    (hx : ∃ n ∈ ns, n.uses x = true) (hy : ∃ n ∈ ns, n.uses y = true) :
    ns.findIdx (uses x) ≠ ns.findIdx (uses y) := by
  intro heq
  have hfirst := List.findIdx_getElem (w := List.findIdx_lt_length.2 hx)
  have hother := List.findIdx_getElem (w := List.findIdx_lt_length.2 hy)
  simp only [heq] at hfirst
  exact hne (eq_of_uses hfirst hother)

/-- **Order of names and order of use.** The two agree on two properties exactly if neither of them
falls behind the other. -/
theorem listedBefore_iff {ns : List Node} {x y : String}
    (hne : ns.findIdx (uses x) ≠ ns.findIdx (uses y)) :
    (ListedBefore ns x y ↔ ns.findIdx (uses x) < ns.findIdx (uses y))
      ↔ ¬ FallsBehind ns x y ∧ ¬ FallsBehind ns y x := by
  -- the first use is the least of the three indices, so the calls decide only where it does
  simp only [ListedBefore, FallsBehind, findIdx_uses] at hne ⊢
  omega

end Node

theorem Walk.firstOf_names_eq_some_iff {root : Node} {x y : String} (hne : x ≠ y)
    (hx : Node.isCustomName x = true) (hy : Node.isCustomName y = true) :
    firstOf x y (ofSteps (root.steps none)).names = some x
      ↔ Node.ListedBefore root.preorder x y := by
  rw [names_ofSteps, firstOf_eraseDups, firstOf_append, firstOf_append, firstOf_eraseDups,
    firstOf_eraseDups, firstOf_eraseDups, firstOf_filterMap hne, firstOf_filterMap hne,
    firstOf_filterMap hne]
  simp only [UsesFound.declaredName?_eq_some_iff, UsesFound.definedName?_eq_some_iff,
    UsesFound.calledName?_eq_some_iff, hx, hy, and_true, Bool.decide_eq_true, Option.or_assoc]
  -- nothing follows the calls, which `none` says in the form of the others
  rw [ite_lt_or_eq_some_iff hne, ite_lt_or_eq_some_iff hne, ← @Option.or_none _ (ite _ _ _),
    ite_lt_or_eq_some_iff hne]
  simp [Node.ListedBefore]

namespace Session

/-- **The order of the names.** The list of names has first what is declared, then what is only
defined, then what is only called. So of two names the one that the walk comes upon first stands
first exactly if neither of them falls behind the other: if it is not the case that the one which
is used later is declared before the first declaration of the other, or, where neither is declared,
defined before the first definition of the other. -/
theorem names_firstUse_iff (text : String) {root : Node} {steps : List Step}
    (hwalk : ((start text root).answer .traverse).1 = .ok (.steps steps)) :
    ∃ names, ((start text root).answer .names).1 = .ok (.names names)
      ∧ ∀ x ∈ names, ∀ y ∈ names, x ≠ y →
        (names.idxOf x < names.idxOf y ↔ Node.ListedBefore (Walk.entered steps) x y)
          ∧ ((names.idxOf x < names.idxOf y
              ↔ (Walk.entered steps).findIdx (Node.uses x)
                < (Walk.entered steps).findIdx (Node.uses y))
            ↔ ¬ Node.FallsBehind (Walk.entered steps) x y
              ∧ ¬ Node.FallsBehind (Walk.entered steps) y x) := by
  obtain ⟨hentered, hanswer⟩ := answer_of_traverse hwalk
  rw [hentered]
  refine ⟨(Walk.ofSteps (root.steps none)).names, hanswer .names, fun x hx y hy hne => ?_⟩
  obtain ⟨hcustomx, husedx⟩ := Walk.mem_names_ofSteps_iff.1 hx
  obtain ⟨hcustomy, husedy⟩ := Walk.mem_names_ofSteps_iff.1 hy
  have hlisted : (Walk.ofSteps (root.steps none)).names.idxOf x
        < (Walk.ofSteps (root.steps none)).names.idxOf y
      ↔ Node.ListedBefore root.preorder x y := by
    rw [idxOf_lt_idxOf_iff hne, Walk.firstOf_names_eq_some_iff hne hcustomx hcustomy]
  refine ⟨hlisted, ?_⟩
  rw [hlisted]
  exact Node.listedBefore_iff (Node.findIdx_uses_ne hne husedx husedy)

section Example

/-- A declaration before a call of another property. -/
private def declaredThenCalled : Node :=
  .group ⟨0, none⟩ .stylesheet
    [.declaration ⟨1, none⟩ "--b" none false,
      .group ⟨2, none⟩ (.function "var") [.leaf ⟨3, none⟩ (.identifier "--a")]]

/-- Neither falls behind the other, so the names stand in the order of their first uses. -/
theorem names_declaredThenCalled :
    ((start "" declaredThenCalled).answer .traverse).1
        = .ok (.steps (declaredThenCalled.steps none))
      ∧ ((start "" declaredThenCalled).answer .names).1 = .ok (.names ["--b", "--a"])
      ∧ "--b" ≠ "--a"
      ∧ (["--b", "--a"].idxOf "--b" < ["--b", "--a"].idxOf "--a"
        ↔ (Walk.entered (declaredThenCalled.steps none)).findIdx (Node.uses "--b")
          < (Walk.entered (declaredThenCalled.steps none)).findIdx (Node.uses "--a")) := by
  have hwalk : ((start "" declaredThenCalled).answer .traverse).1
      = .ok (.steps (declaredThenCalled.steps none)) :=
    answer_traverse_of_noObstacle (by decide +kernel) ""
  have hlist : (Walk.ofSteps (declaredThenCalled.steps none)).names = ["--b", "--a"] := by
    decide +kernel
  obtain ⟨names, hnames, horder⟩ := names_firstUse_iff "" hwalk
  have hsame := hnames
  rw [(answer_of_traverse hwalk).2, Question.answer, hlist] at hsame
  obtain ⟨rfl⟩ := hsame
  refine ⟨hwalk, hnames, by decide, ?_⟩
  refine (horder "--b" (by decide) "--a" (by decide) (by decide)).2.2 ⟨?_, ?_⟩
  · unfold Node.FallsBehind
    decide +kernel
  · unfold Node.FallsBehind
    decide +kernel

/-- A call in the first declaration of a rule, and a declaration of another property after it. -/
private def calledText : String := "a\x7bc:var(--b);--a:x\x7d"

private def calledTree : Concrete :=
  .node "stylesheet" 0 19 true false [.node "rule_set" 0 19 true false
    [.node "selectors" 0 1 true false [.node "tag_name" 0 1 true false []],
      .node "block" 1 19 true false
        [.node "\x7b" 1 2 false false [],
          .node "declaration" 2 13 true false
            [.node "property_name" 2 3 true false [], .node ":" 3 4 false false [],
              .node "call_expression" 4 12 true false
                [.node "function_name" 4 7 true false [],
                  .node "arguments" 7 12 true false
                    [.node "(" 7 8 false false [], .node "plain_value" 8 11 true false [],
                      .node ")" 11 12 false false []]],
              .node ";" 12 13 false false []],
          .node "declaration" 13 18 true false
            [.node "property_name" 13 16 true false [], .node ":" 16 17 false false [],
              .node "plain_value" 17 18 true false []],
          .node "\x7d" 18 19 false false []]]]

/-- The names of a session, each with the index of the first node entered that uses it. -/
private def namesWithFirstUse (s : Session) : Option (List (String × Nat)) :=
  match (s.answer .traverse).1, (s.answer .names).1 with
  | .ok (.steps steps), .ok (.names names) =>
    some (names.map fun x => (x, (Walk.entered steps).findIdx (Node.uses x)))
  | _, _ => none

/-- What a session tells its names from. -/
private theorem exists_of_namesWithFirstUse {s : Session} {listed : List (String × Nat)}
    (h : namesWithFirstUse s = some listed) :
    ∃ steps names, (s.answer .traverse).1 = .ok (.steps steps)
      ∧ (s.answer .names).1 = .ok (.names names)
      ∧ names.map (fun x => (x, (Walk.entered steps).findIdx (Node.uses x))) = listed := by
  rw [namesWithFirstUse] at h
  split at h
  · rename_i steps names hsteps hnames
    exact ⟨steps, names, hsteps, hnames, Option.some.inj h⟩
  · cases h

/-- **A name that is called first stands behind one that is declared later.** -/
theorem names_calledFirst :
    calledTree.WellNested (Text.Utf8.encode calledText.toList).length
      ∧ ∃ r s steps names,
        Language.parseText (fun _ => some calledTree) calledText none = .ok r
        ∧ ofParsed? r = some s
        ∧ (s.answer .traverse).1 = .ok (.steps steps)
        ∧ (s.answer .names).1 = .ok (.names names)
        ∧ names = ["--a", "--b"]
        ∧ ¬ (names.idxOf "--a" < names.idxOf "--b"
          ↔ (Walk.entered steps).findIdx (Node.uses "--a")
            < (Walk.entered steps).findIdx (Node.uses "--b")) := by
  have hrun : ((Language.parseText (fun _ => some calledTree) calledText none).toOption.bind
      ofParsed?).bind namesWithFirstUse = some [("--a", 10), ("--b", 8)] := by
    decide +kernel
  obtain ⟨s, hs, hlisted⟩ := Option.bind_eq_some_iff.1 hrun
  obtain ⟨r, hread, hs⟩ := Option.bind_eq_some_iff.1 hs
  obtain ⟨steps, names, hsteps, hnames, hlisted⟩ := exists_of_namesWithFirstUse hlisted
  obtain ⟨a, rest, rfl, ha, hrest⟩ := List.map_eq_cons_iff.1 hlisted
  obtain ⟨b, rest, rfl, hb, hrest⟩ := List.map_eq_cons_iff.1 hrest
  obtain rfl := List.map_eq_nil_iff.1 hrest
  obtain ⟨rfl, ha⟩ := Prod.mk.inj ha
  obtain ⟨rfl, hb⟩ := Prod.mk.inj hb
  refine ⟨by decide +kernel, r, s, steps, _, eq_ok_of_toOption hread, hs, hsteps, hnames, rfl, ?_⟩
  rw [ha, hb]
  decide

end Example

end Session

end Stylesheet
