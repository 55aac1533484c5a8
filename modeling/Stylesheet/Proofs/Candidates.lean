/-
The closest value of a call is one of all its values.

The two questions go different ways. The one tries four sources in turn, two of which look only at
some declarations, and stops at the first that gives something; the other lists everything. What
they have in common is said once, as a list (`Uses.candidates`), and of the four sources it is shown
that what gives something gives a member of it (`Walk.mem_candidates`).

The other way round it takes more. That no source gives anything says of each declaration that it
neither stands in the rule of the call nor starts before it, and then the list has nothing but the
values of declarations like that (`Walk.of_firstSource?_eq_none`). A declaration of a tree put
together by hand may lack its value, and then nothing is what a source gives; so the last part is
about trees whose declarations have theirs.

A question can only go wrong at a definition, in whose block an initial value is looked for. All
definitions of the index come from the tree, so no question goes wrong in a tree of which every
block is a group (`Walk.exists_answer`).

The rule that a node stands in is read off the place where the node comes first, which for a node in
one place is its only one.
-/
import Stylesheet.Proofs.Closest
import Stylesheet.Proofs.FirstVisit

set_option autoImplicit false

namespace Stylesheet

/-! ## Everything a call can come to -/

/-- The uses under a name, which are empty where the index has none. -/
def Walk.usesOf (w : Walk) (x : String) : Uses :=
  (w.uses? x).getD ⟨[], [], []⟩

/-- What a call of a property can come to: what its definitions declare as initial values, what its
declarations declare, and the fallback of the call. -/
def Uses.candidates (uses : Uses) (reference : Node) : List (Option Node) :=
  uses.definitions.flatMap Node.declaredInitially ++ uses.declaredValues
    ++ reference.fallback?.toList.map some

namespace Walk

variable {w : Walk} {uses : Uses} {reference : Node}

/-- Where a call has a name, its closest value is looked for among the uses of that name. -/
theorem closest_eq_closestOf {x : String} (hx : reference.referredName? = some x) :
    w.closest reference = w.closestOf (w.usesOf x) reference := by
  rw [closest, hx, usesOf]
  cases huses : w.uses? x with
  | some uses => simp only [huses, Option.getD_some]
  | none =>
      -- without uses only the fallback is left
      simp only [huses, Option.getD_none, closestOf]
      have hown : w.valueInRule? ⟨[], [], []⟩ reference = none := by
        rw [valueInRule?]
        cases w.enclosingRule? reference <;> rfl
      rw [hown]
      cases reference.fallback? <;> rfl

/-- The initial values of several definitions whose blocks are groups. -/
theorem initialValues_eq_flatMap
    (h : ∀ n ∈ uses.definitions, n.initialValues = .ok n.declaredInitially) :
    uses.initialValues = .ok (uses.definitions.flatMap Node.declaredInitially) := by
  have hall : ∀ definitions : List Node,
      (∀ n ∈ definitions, n.initialValues = .ok n.declaredInitially) →
      definitions.mapM Node.initialValues = .ok (definitions.map Node.declaredInitially) := by
    intro definitions h
    induction definitions with
    | nil => rfl
    | cons d rest ih =>
        rw [List.mapM_cons, h d List.mem_cons_self, ih fun n hn => h n (List.mem_cons_of_mem d hn)]
        rfl
  rw [Uses.initialValues, hall uses.definitions h, List.flatMap_def]
  rfl

/-- Where a call has a name, all its values are the candidates. -/
theorem values_eq_candidates {x : String} (hx : reference.referredName? = some x)
    (h : ∀ n ∈ (w.usesOf x).definitions, n.initialValues = .ok n.declaredInitially) :
    w.values reference = .ok ((w.usesOf x).candidates reference) := by
  have hinitial := initialValues_eq_flatMap h
  rw [values, hx]
  rw [usesOf] at hinitial ⊢
  cases huses : w.uses? x with
  | some uses =>
      rw [huses, Option.getD_some] at hinitial
      simp only [huses, Option.getD_some, hinitial]
      rfl
  | none =>
      simp only [huses]
      rfl

theorem declared_mem_candidates {d : Node} {value : Option Node} (hd : d ∈ uses.declarations)
    (h : d.declared? = some value) : value ∈ uses.candidates reference := by
  apply List.mem_append_left
  apply List.mem_append_right
  exact List.mem_filterMap.2 ⟨d, hd, h⟩

theorem fallback_mem_candidates {fallback : Node} (h : reference.fallback? = some fallback) :
    some fallback ∈ uses.candidates reference := by
  apply List.mem_append_right
  rw [h]
  exact List.mem_singleton_self _

/-- **What a source gives is a candidate.** -/
theorem mem_candidates {value : Option Node} (h : w.firstSource? uses reference = some value) :
    value ∈ uses.candidates reference := by
  simp only [firstSource?, Option.or_eq_some_iff] at h
  -- the sources in their order; that the earlier ones give nothing does not matter here
  rcases h with h | ⟨-, h | ⟨-, h | ⟨-, h⟩⟩⟩
  · rw [valueInRule?, Option.bind_eq_some_iff] at h
    obtain ⟨rule, -, h⟩ := h
    obtain ⟨d, hd, hvalue⟩ := Option.bind_eq_some_iff.1 h
    exact declared_mem_candidates (List.mem_filter.1 (List.mem_of_getLast? hd)).1 hvalue
  · obtain ⟨fallback, hfallback, rfl⟩ := Option.map_eq_some_iff.1 h
    exact fallback_mem_candidates hfallback
  · rw [valueBefore?_eq_bind, declarationBefore?] at h
    obtain ⟨d, hd, hvalue⟩ := Option.bind_eq_some_iff.1 h
    exact declared_mem_candidates (List.mem_filter.1 (List.mem_of_getLast? hd)).1 hvalue
  · apply List.mem_append_left
    exact List.mem_append_left _ (List.mem_of_head? h)

/-- **If no source gives anything**, the call has no fallback, no definition declares an initial
value, and each declaration stands outside the rule of the call and does not start before it. -/
theorem of_firstSource?_eq_none (hdeclared : ∀ d ∈ uses.declarations, d.declared?.isSome)
    (h : w.firstSource? uses reference = none) :
    reference.fallback? = none ∧ uses.definitions.flatMap Node.declaredInitially = []
      ∧ ∀ d ∈ uses.declarations,
        (∀ rule, w.enclosingRule? reference = some rule → w.standsIn d rule = false)
          ∧ d.startsBefore reference = false := by
  simp only [firstSource?, Option.or_eq_none_iff, Option.map_eq_none_iff, List.head?_eq_none_iff] at h
  obtain ⟨hown, hfallback, hbefore, hinitial⟩ := h
  refine ⟨hfallback, hinitial, ?_⟩
  intro d hd
  refine ⟨fun rule hrule => standsIn_eq_false hdeclared hown hrule d hd, ?_⟩
  rw [valueBefore?_eq hdeclared hown] at hbefore
  -- a last declaration before the call would have given its value
  by_contra hstarts
  rw [Bool.not_eq_false] at hstarts
  have hmem : d ∈ uses.declarations.filter (·.startsBefore reference) :=
    List.mem_filter.2 ⟨hd, hstarts⟩
  cases hlast : (uses.declarations.filter (·.startsBefore reference)).getLast? with
  | none =>
      rw [List.getLast?_eq_none_iff.1 hlast] at hmem
      cases hmem
  | some last =>
      have hvalue := hdeclared last (List.mem_filter.1 (List.mem_of_getLast? hlast)).1
      rw [hlast, Option.bind_some] at hbefore
      rw [hbefore] at hvalue
      cases hvalue

/-! ## The uses in a tree -/

/-- The uses under a name are those in the tree, if it is the name of a custom property. -/
theorem usesOf_ofSteps (root : Node) (x : String) :
    (ofSteps (root.steps none)).usesOf x =
      ⟨root.preorder.filter fun n => Node.isCustomName x && n.declares x,
        root.preorder.filter fun n => Node.isCustomName x && n.defines x,
        root.preorder.filter fun n => Node.isCustomName x && n.refersTo x⟩ := by
  rw [usesOf, uses?_ofSteps]
  by_cases hused : Node.isCustomName x = true ∧ ∃ n ∈ root.preorder, n.uses x = true
  · rw [if_pos hused, Option.getD_some]
    simp only [hused.1, Bool.true_and]
  · -- of a name that is not used, or not custom, each list is empty
    have hempty : ∀ test : Node → Bool, (∀ n, test n = true → n.uses x = true) →
        root.preorder.filter (fun n => Node.isCustomName x && test n) = [] := by
      intro test htest
      rw [List.filter_eq_nil_iff]
      intro n hn hcontra
      rw [Bool.and_eq_true] at hcontra
      exact hused ⟨hcontra.1, n, hn, htest n hcontra.2⟩
    rw [if_neg hused, Option.getD_none, hempty (Node.declares x), hempty (Node.defines x),
      hempty (Node.refersTo x)]
    all_goals
      intro n hn
      simp [Node.uses, hn]

/-- The declarations under a name are those of the tree, if it is the name of a custom
property. -/
theorem mem_declarations_usesOf {root d : Node} {x : String} :
    d ∈ ((ofSteps (root.steps none)).usesOf x).declarations
      ↔ d ∈ root.preorder ∧ Node.isCustomName x = true ∧ d.declares x = true := by
  rw [usesOf_ofSteps, List.mem_filter, Bool.and_eq_true]

theorem mem_definitions_usesOf {root d : Node} {x : String} :
    d ∈ ((ofSteps (root.steps none)).usesOf x).definitions
      ↔ d ∈ root.preorder ∧ Node.isCustomName x = true ∧ d.defines x = true := by
  rw [usesOf_ofSteps, List.mem_filter, Bool.and_eq_true]

/-! ## Questions that always have an answer -/

variable {root : Node}

/-- The definitions under a name give the initial values declared in them, if the blocks of the tree
are groups. -/
theorem initialValues_usesOf (hb : root.BlocksAreGroups) (x : String) :
    ∀ n ∈ ((ofSteps (root.steps none)).usesOf x).definitions,
      n.initialValues = .ok n.declaredInitially :=
  initialValues_of_mem hb fun _ hn => (mem_definitions_usesOf.1 hn).1

theorem initialValue_usesOf (hb : root.BlocksAreGroups) (x : String) :
    ((ofSteps (root.steps none)).usesOf x).initialValue
      = .ok (((ofSteps (root.steps none)).usesOf x).definitions.flatMap
        Node.declaredInitially).head?.join :=
  firstInitialValue_eq (initialValues_usesOf hb x)

theorem exists_closest (hb : root.BlocksAreGroups) (reference : Node) :
    ∃ value?, (ofSteps (root.steps none)).closest reference = .ok value? := by
  cases hx : reference.referredName? with
  | none => exact ⟨none, by rw [closest, hx]⟩
  | some x =>
      rw [closest_eq_closestOf hx]
      exact ⟨_, closestOf_eq_join _ reference (initialValues_usesOf hb x)⟩

/-- **Every question has an answer** if the blocks of the tree are groups. Definitions are all that
an answer can fail on. -/
theorem exists_answer (hb : root.BlocksAreGroups) (q : Question) :
    ∃ a, q.answer (ofSteps (root.steps none)) = .ok a := by
  cases q with
  | traverse | parent | ancestors | uses | names | calls => exact ⟨_, rfl⟩
  | initialValue x =>
      have hvalue : (ofSteps (root.steps none)).initialValue x
          = ((ofSteps (root.steps none)).usesOf x).initialValue := by
        rw [initialValue, usesOf]
        cases (ofSteps (root.steps none)).uses? x <;> rfl
      rw [Question.answer, hvalue, initialValue_usesOf hb]
      exact ⟨_, rfl⟩
  | closestByName x =>
      have hinitial := initialValue_usesOf hb x
      rw [Question.answer, closestByName]
      cases huses : (ofSteps (root.steps none)).uses? x with
      | none => exact ⟨_, rfl⟩
      | some uses =>
          rw [usesOf, huses, Option.getD_some] at hinitial
          simp only
          cases uses.declaredValues.getLast? with
          | some value => exact ⟨_, rfl⟩
          | none =>
              rw [hinitial]
              exact ⟨_, rfl⟩
  | closest reference =>
      obtain ⟨value?, hvalue⟩ := exists_closest hb reference
      rw [Question.answer, hvalue]
      exact ⟨_, rfl⟩
  | values reference =>
      rw [Question.answer]
      cases hx : reference.referredName? with
      | none =>
          rw [values, hx]
          exact ⟨_, rfl⟩
      | some x =>
          rw [values_eq_candidates hx (initialValues_usesOf hb x)]
          exact ⟨_, rfl⟩

end Walk

namespace Node

/-! ## Where candidates come from -/

/-- What a definition of the tree declares initially is declared in the tree. -/
theorem exists_of_mem_declaredInitially {root n : Node} (hn : n ∈ root.preorder)
    {value : Option Node} (hvalue : value ∈ n.declaredInitially) :
    ∃ d ∈ root.preorder, d.declared? = some value := by
  cases n with
  | atrule m name p b =>
      cases b with
      | none => cases hvalue
      | some b =>
          obtain ⟨d, hd, hdeclared⟩ := List.mem_filterMap.1 hvalue
          have hb : b ∈ root.preorder :=
            mem_preorder_of_mem_children hn (List.mem_append_right _ (Option.mem_toList.2 rfl))
          exact ⟨d, mem_preorder_of_mem_children hb (List.mem_filter.1 hd).1, hdeclared⟩
  | _ => cases hvalue

/-- **A candidate is declared in the tree**, or it is the fallback of the call. -/
theorem mem_candidates_cases {root reference : Node} {x : String} {value : Option Node}
    (h : value ∈ ((Walk.ofSteps (root.steps none)).usesOf x).candidates reference) :
    (∃ d ∈ root.preorder, d.declared? = some value)
      ∨ ∃ fallback, reference.fallback? = some fallback ∧ value = some fallback := by
  simp only [Uses.candidates, List.mem_append] at h
  rcases h with (hinitial | hdeclared) | hfallback
  · obtain ⟨d, hd, hinitial⟩ := List.mem_flatMap.1 hinitial
    exact .inl (exists_of_mem_declaredInitially (Walk.mem_definitions_usesOf.1 hd).1 hinitial)
  · obtain ⟨d, hd, hdeclared⟩ := List.mem_filterMap.1 hdeclared
    exact .inl ⟨d, (Walk.mem_declarations_usesOf.1 hd).1, hdeclared⟩
  · obtain ⟨fallback, hmem, rfl⟩ := List.mem_map.1 hfallback
    exact .inr ⟨fallback, Option.mem_toList.1 hmem, rfl⟩

theorem DeclarationsHaveValues.isSome_of_mem_candidates {root reference : Node} {x : String}
    (hv : root.DeclarationsHaveValues) :
    ∀ value ∈ ((Walk.ofSteps (root.steps none)).usesOf x).candidates reference, value.isSome := by
  intro value hvalue
  rcases mem_candidates_cases hvalue with ⟨d, hd, hdeclared⟩ | ⟨fallback, -, rfl⟩
  · exact hv d hd value hdeclared
  · rfl

/-! ## Declarations that come too late -/

/-- The innermost rule around the first place of a node. -/
def ruleAround? (root n : Node) : Option Node := ruleOn? (root.aboveFirst n.id)

/-- A declaration comes too late for a call: it does not stand in the innermost rule around the
call, and the call starts no later than it does. -/
def TooLate (root declaration reference : Node) : Prop :=
  (∀ rule, root.ruleAround? reference = some rule → root.ruleAround? declaration ≠ some rule)
    ∧ ∃ loc, reference.loc = some loc ∧ loc.start.offset ≤ declaration.startOrZero

/-- What the tables say of a declaration that no source takes is that it comes too late. -/
theorem tooLate_of_tables {root d reference : Node} (hid : root.Identified)
    (hrule : ∀ rule, (Walk.ofSteps (root.steps none)).enclosingRule? reference = some rule →
      (Walk.ofSteps (root.steps none)).standsIn d rule = false)
    (hstarts : d.startsBefore reference = false) : root.TooLate d reference := by
  constructor
  · intro rule haround hsame
    rw [ruleAround?, ← Walk.enclosingRule?_eq_ruleOn? hid] at haround hsame
    have hnot := hrule rule haround
    rw [Walk.standsIn, hsame] at hnot
    simp at hnot
  · rw [startsBefore_eq] at hstarts
    cases hloc : reference.loc with
    | none =>
        rw [hloc] at hstarts
        cases hstarts
    | some loc =>
        rw [hloc, Option.all_some, decide_eq_false_iff_not, Int.not_lt] at hstarts
        exact ⟨loc, rfl, hstarts⟩

/-- **Where no closest value is found** for a name, in a tree whose declarations have their values,
there is none to be had: what is left of the candidates are the values of declarations that come too
late. -/
theorem of_closest_eq_none {root reference : Node} {x : String} (hid : root.Identified)
    (hv : root.DeclarationsHaveValues)
    (h : ((Walk.ofSteps (root.steps none)).firstSource?
      ((Walk.ofSteps (root.steps none)).usesOf x) reference).join = none) :
    reference.members.length < 3
      ∧ (Node.isCustomName x = true →
          ∀ n ∈ root.preorder, n.defines x = true → n.declaredInitially = [])
      ∧ ∀ value ∈ ((Walk.ofSteps (root.steps none)).usesOf x).candidates reference,
        ∃ d ∈ root.preorder, Node.isCustomName x = true
          ∧ d.declares x = true ∧ d.declared? = some value ∧ root.TooLate d reference := by
  -- a source that gave a missing value would have given a candidate that is no node
  have hnone : (Walk.ofSteps (root.steps none)).firstSource?
      ((Walk.ofSteps (root.steps none)).usesOf x) reference = none := by
    rcases Option.join_eq_none_iff.1 h with hnone | hmissing
    · exact hnone
    · have hsome := hv.isSome_of_mem_candidates none (Walk.mem_candidates hmissing)
      cases hsome
  have hdeclared : ∀ d ∈ ((Walk.ofSteps (root.steps none)).usesOf x).declarations,
      d.declared?.isSome := fun d hd =>
    declared?_isSome_of_declares (Walk.mem_declarations_usesOf.1 hd).2.2
  obtain ⟨hfallback, hinitial, hlate⟩ := Walk.of_firstSource?_eq_none hdeclared hnone
  refine ⟨?_, ?_, ?_⟩
  · exact Nat.lt_succ_of_le (List.getElem?_eq_none_iff.1 hfallback)
  · intro hx n hn hdefines
    exact List.flatMap_eq_nil_iff.1 hinitial n (Walk.mem_definitions_usesOf.2 ⟨hn, hx, hdefines⟩)
  · -- of the three parts of the list only the declared values are left
    intro value hvalue
    rw [Uses.candidates, hinitial, hfallback, List.nil_append, Option.toList_none, List.map_nil,
      List.append_nil] at hvalue
    obtain ⟨d, hd, hdvalue⟩ := List.mem_filterMap.1 hvalue
    obtain ⟨hdroot, hx, hdeclares⟩ := Walk.mem_declarations_usesOf.1 hd
    obtain ⟨houtside, hstarts⟩ := hlate d hd
    exact ⟨d, hdroot, hx, hdeclares, hdvalue, tooLate_of_tables hid houtside hstarts⟩

end Node

namespace Session

/-! ## The two answers -/

/-- The answers on a call with a name: what the first source gives that gives anything, and the
candidates. -/
theorem answers_of_name (text : String) {root reference : Node} {x : String} (hc : root.NoComment)
    (hp : root.PreludesAreGroups) (hb : root.BlocksAreGroups)
    (hx : reference.referredName? = some x) :
    ((start text root).answer (.closest reference)).1
        = .ok (.value ((Walk.ofSteps (root.steps none)).firstSource?
          ((Walk.ofSteps (root.steps none)).usesOf x) reference).join)
      ∧ ((start text root).answer (.values reference)).1
        = .ok (.values (((Walk.ofSteps (root.steps none)).usesOf x).candidates reference)) := by
  have hwalk := Walk.ofTree_of_noComment hc hp
  have hdefinitions := Walk.initialValues_usesOf hb x
  simp only [answer, tryAsk_start_of_ok hwalk, Question.answer]
  rw [Walk.closest_eq_closestOf hx, Walk.values_eq_candidates hx hdefinitions,
    Walk.closestOf_eq_join _ reference hdefinitions]
  exact ⟨rfl, rfl⟩

theorem answers_of_no_name (text : String) {root reference : Node} (hc : root.NoComment)
    (hp : root.PreludesAreGroups) (hx : reference.referredName? = none) :
    ((start text root).answer (.closest reference)).1 = .ok (.value none)
      ∧ ((start text root).answer (.values reference)).1 = .ok (.values []) := by
  have hwalk := Walk.ofTree_of_noComment hc hp
  simp only [answer, tryAsk_start_of_ok hwalk, Question.answer]
  rw [Walk.closest, Walk.values, hx]
  exact ⟨rfl, rfl⟩

/-- **The two answers agree**, for every node asked about, inside the tree or outside. The closest
value is one of all values, and there is none if there are no values. And where there is none for a
name, although all declarations of the tree have values, the call has no third member, no definition
that is indexed under the name declares an initial value, and all values are those of declarations
that are indexed under the name and come too late for the call. -/
theorem closest_mem_values (text : String) {root : Node} (hid : root.Identified)
    (hc : root.NoComment) (hp : root.PreludesAreGroups) (hb : root.BlocksAreGroups)
    (reference : Node) :
    ∃ closest values, ((start text root).answer (.closest reference)).1 = .ok (.value closest)
      ∧ ((start text root).answer (.values reference)).1 = .ok (.values values)
      ∧ (∀ n, closest = some n → some n ∈ values)
      ∧ (values = [] → closest = none)
      ∧ (root.DeclarationsHaveValues → ∀ x, reference.referredName? = some x → closest = none →
          reference.members.length < 3
            ∧ (Node.isCustomName x = true →
                ∀ n ∈ root.preorder, n.defines x = true → n.declaredInitially = [])
            ∧ ∀ value ∈ values, ∃ d ∈ root.preorder, Node.isCustomName x = true
              ∧ d.declares x = true ∧ d.declared? = some value ∧ root.TooLate d reference) := by
  cases hx : reference.referredName? with
  | none =>
      obtain ⟨hclosest, hvalues⟩ := answers_of_no_name text hc hp hx
      refine ⟨none, [], hclosest, hvalues, ?_⟩
      simp
  | some x =>
      obtain ⟨hclosest, hvalues⟩ := answers_of_name text hc hp hb hx
      refine ⟨_, _, hclosest, hvalues, ?_, ?_, ?_⟩
      · intro n hn
        exact Walk.mem_candidates (Option.join_eq_some_iff.1 hn)
      · intro hempty
        cases hfirst : (Walk.ofSteps (root.steps none)).firstSource? _ reference with
        | none => rfl
        | some value =>
            have hmem := Walk.mem_candidates hfirst
            rw [hempty] at hmem
            cases hmem
      · intro hv y hy hnone
        obtain rfl := Option.some.inj hy
        exact Node.of_closest_eq_none hid hv hnone

section Example

/-- A call to a property that is declared in a later rule. -/
private def earlyCall : Node :=
  .group ⟨5, some (.onFirstLine 8 16 (by decide))⟩ (.function "var")
    [.leaf ⟨6, none⟩ (.identifier "--a")]

private def lateDeclaration : Node :=
  .declaration ⟨9, some (.onFirstLine 20 25 (by decide))⟩ "--a" (some (.leaf ⟨10, none⟩ (.raw "1")))
    false

private def twoRules : Node :=
  .group ⟨0, none⟩ .stylesheet
    [.rule ⟨1, none⟩ none (some (.group ⟨2, none⟩ .block
      [.declaration ⟨3, none⟩ "width" (some (.group ⟨4, none⟩ .value [earlyCall])) false])),
    .rule ⟨7, none⟩ none (some (.group ⟨8, none⟩ .block [lateDeclaration]))]

/-- A call to the same property that stands nowhere and has no location. -/
private def looseCall : Node :=
  .group ⟨11, none⟩ (.function "var") [.leaf ⟨12, none⟩ (.identifier "--a")]

/-- The identities of the nodes that are answered. -/
private def answeredIds : Except NodeError Answer → List (Option Nat)
  | .ok (.value value) => [value.map Node.id]
  | .ok (.values values) => values.map (·.map Node.id)
  | _ => []

/-- The early call has no closest value, and the one value it could come to is declared too late.
The call without a location comes after everything, so that value is the closest to it. -/
theorem closest_twoRules :
    twoRules.Identified ∧ twoRules.NoComment ∧ twoRules.PreludesAreGroups
      ∧ twoRules.BlocksAreGroups ∧ twoRules.DeclarationsHaveValues
      ∧ earlyCall.referredName? = some "--a"
      ∧ (∃ values, ((start "" twoRules).answer (.closest earlyCall)).1 = .ok (.value none)
        ∧ ((start "" twoRules).answer (.values earlyCall)).1 = .ok (.values values)
        ∧ values.map (·.map Node.id) = [some 10]
        ∧ ∀ value ∈ values, ∃ d ∈ twoRules.preorder, Node.isCustomName "--a" = true
          ∧ d.declares "--a" = true ∧ d.declared? = some value ∧ twoRules.TooLate d earlyCall)
      ∧ ∃ value values,
        ((start "" twoRules).answer (.closest looseCall)).1 = .ok (.value (some value))
        ∧ ((start "" twoRules).answer (.values looseCall)).1 = .ok (.values values)
        ∧ some value ∈ values ∧ value.id = 10 := by
  have hd : twoRules.Distinct := by unfold Node.Distinct; decide +kernel
  have hc : twoRules.NoComment := by unfold Node.NoComment; decide +kernel
  have hatrule : ∀ n ∈ twoRules.preorder, n.kind ≠ .atrule := by decide +kernel
  have hp : twoRules.PreludesAreGroups := Node.preludesAreGroups_of_noAtrule hatrule
  have hb : twoRules.BlocksAreGroups := Node.blocksAreGroups_of_noAtrule hatrule
  have hv : twoRules.DeclarationsHaveValues := by
    unfold Node.DeclarationsHaveValues
    decide +kernel
  refine ⟨hd.identified, hc, hp, hb, hv, rfl, ?_, ?_⟩
  · obtain ⟨closest, values, hclosest, hvalues, -, -, hlate⟩ :=
      closest_mem_values "" hd.identified hc hp hb earlyCall
    have hid : answeredIds ((start "" twoRules).answer (.closest earlyCall)).1 = [none] := by
      decide +kernel
    have hids : answeredIds ((start "" twoRules).answer (.values earlyCall)).1 = [some 10] := by
      decide +kernel
    rw [hclosest] at hid
    rw [hvalues] at hids
    obtain rfl : closest = none := Option.map_eq_none_iff.1 (List.cons.inj hid).1
    exact ⟨values, hclosest, hvalues, hids, (hlate hv "--a" rfl rfl).2.2⟩
  · obtain ⟨closest, values, hclosest, hvalues, hmem, -, -⟩ :=
      closest_mem_values "" hd.identified hc hp hb looseCall
    have hid : answeredIds ((start "" twoRules).answer (.closest looseCall)).1 = [some 10] := by
      decide +kernel
    rw [hclosest] at hid
    obtain ⟨value, rfl, hvalue⟩ := Option.map_eq_some_iff.1 (List.cons.inj hid).1
    exact ⟨value, values, hclosest, hvalues, hmem value rfl, hvalue⟩

end Example

end Session

end Stylesheet
