/-
To which declaration a call belongs.

A declaration may stand inside the value of another one, and then the calls in it are its own and
not those of the declaration around. Seen from a declaration, its calls are those of the places in
its tree that no other declaration stands above (`Node.callsWithin`). The walk, which keeps a stack
of open declarations, comes to the calls that are loose below the declaration, however often it
comes by (`Walk.callsIn_ofSteps`); what is left for this file is to turn that list into places
(`Node.callsWithin_eq`).

A place in the tree of a declaration lies on a trail from the root through that declaration. So
where no node has two places, a call has one innermost declaration, and stands in the list of that
one only (`Node.Distinct.mem_callsWithin_iff`).
-/
import Stylesheet.Proofs.Calls
import Stylesheet.Proofs.Conversation

set_option autoImplicit false

namespace Stylesheet

namespace Node

/-! ## Calls by places -/

/-- Whether none of the nodes on a trail is a declaration. -/
def noDeclaration (above : List Node) : Bool := above.all fun a => a.kind != .declaration

/-- The calls of `var` in the tree of a declaration that have no other declaration between them and
this one, once for each of their places. -/
def callsWithin (d : Node) : List Node :=
  (d.places.filter fun p => p.node.isVar && noDeclaration p.above.dropLast).map Place.node

theorem isVar_eq_false_of_declaration {n : Node} (h : n.kind = .declaration) :
    n.isVar = false := by
  obtain ⟨m, property, value, important, rfl⟩ := exists_eq_declaration h
  rfl

/-- What is loose in a tree are the calls of its places above which no declaration stands, below
the last of the nodes that the tree stands under. -/
theorem filter_placesBelow (d : Node) (inner : List Node) (n : Node) :
    ((placesBelow (inner ++ [d]) n).filter fun p =>
        p.node.isVar && noDeclaration p.above.dropLast).map Place.node
      = if noDeclaration inner then n.looseCalls else [] := by
  induction n using induction_children generalizing inner with
  | h n ih =>
      have hbelow : (n.children.flatMap fun c =>
            (placesBelow (n :: (inner ++ [d])) c).filter fun p =>
              p.node.isVar && noDeclaration p.above.dropLast).map Place.node
          = if noDeclaration (n :: inner) then n.children.flatMap looseCalls else [] := by
        have hchild := fun c hc => ih c hc (n :: inner)
        rw [List.cons_append] at hchild
        rw [List.map_flatMap, List.flatMap_congr hchild]
        cases noDeclaration (n :: inner) <;> simp
      rw [placesBelow_eq, List.filter_cons, List.filter_flatMap, List.dropLast_concat]
      by_cases hn : n.kind = .declaration
      · -- the declaration is no call, and it stands above all that is below it
        have hbarred : noDeclaration (n :: inner) = false := by simp [noDeclaration, hn]
        rw [isVar_eq_false_of_declaration hn, Bool.false_and, if_neg Bool.false_ne_true, hbelow,
          hbarred, looseCalls_of_declaration hn, ite_self]
        rfl
      · have hsame : noDeclaration (n :: inner) = noDeclaration inner := by
          simp [noDeclaration, hn]
        rw [hsame] at hbelow
        rw [looseCalls_eq hn]
        cases hinner : noDeclaration inner with
        | false => simpa [hinner] using hbelow
        | true =>
            rw [hinner, if_pos rfl] at hbelow
            cases hvar : n.isVar <;> simp [hbelow]

/-- **The calls of a declaration** are the same whether they are gathered down the tree or read
off the places. -/
theorem callsWithin_eq {d : Node} (h : d.kind = .declaration) : d.callsWithin = d.ownCalls := by
  have hchildren : ∀ c ∈ d.children, ((placesBelow [d] c).filter fun p =>
      p.node.isVar && noDeclaration p.above.dropLast).map Place.node = c.looseCalls :=
    fun c _ => filter_placesBelow d [] c
  rw [callsWithin, places, placesBelow_eq, List.filter_cons, isVar_eq_false_of_declaration h,
    Bool.false_and, if_neg Bool.false_ne_true, List.filter_flatMap, List.map_flatMap,
    List.flatMap_congr hchildren, ownCalls]

/-- A node is in the list of a declaration if a trail without a declaration in between leads from
there to it, and it is a call. -/
theorem mem_callsWithin_iff {d n : Node} :
    n ∈ d.callsWithin
      ↔ n.isVar = true ∧ ∃ above, d.Trail above n ∧ noDeclaration above.dropLast = true := by
  simp only [callsWithin, List.mem_map, List.mem_filter, Bool.and_eq_true]
  constructor
  · rintro ⟨⟨above, m⟩, ⟨hp, hvar, habove⟩, rfl⟩
    exact ⟨hvar, above, mem_places_iff.1 hp, habove⟩
  · rintro ⟨hvar, above, ht, habove⟩
    exact ⟨⟨above, n⟩, ⟨mem_places_iff.2 ht, hvar, habove⟩, rfl⟩

/-! ## One declaration for each call -/

/-- The innermost declaration on a trail. -/
def declarationOn? (above : List Node) : Option Node :=
  above.find? fun a => a.kind = .declaration

theorem mem_callsWithin_of_declarationOn? {root d n : Node} {above : List Node}
    (ht : root.Trail above n) (hvar : n.isVar = true) (hd : declarationOn? above = some d) :
    n ∈ d.callsWithin := by
  obtain ⟨-, inner, outer, rfl, hinner⟩ := List.find?_eq_some_iff_append.1 hd
  refine mem_callsWithin_iff.2 ⟨hvar, inner ++ [d], ht.split.2, ?_⟩
  rw [List.dropLast_concat]
  simpa [noDeclaration] using hinner

/-- **One declaration for each call.** Where no node has two places, a call is in the list of a
declaration only if that is the innermost one on the trail to it. -/
theorem Distinct.mem_callsWithin_iff {root d n : Node} {above : List Node} (h : root.Distinct)
    (ht : root.Trail above n) (hmem : d ∈ root.preorder) (hd : d.kind = .declaration) :
    n ∈ d.callsWithin ↔ n.isVar = true ∧ declarationOn? above = some d := by
  refine ⟨fun hn => ?_, fun ⟨hvar, hn⟩ => mem_callsWithin_of_declarationOn? ht hvar hn⟩
  obtain ⟨hvar, way, hway, hbetween⟩ := Node.mem_callsWithin_iff.1 hn
  have hne : n ≠ d := by
    rintro rfl
    rw [isVar_eq_false_of_declaration hd] at hvar
    cases hvar
  obtain ⟨inner, rfl⟩ := hway.eq_concat hne
  rw [List.dropLast_concat] at hbetween
  -- the trail to the declaration, taken on, is the trail to the call
  obtain ⟨outer, hout⟩ := mem_preorder_iff.1 hmem
  have habove := h.trail_unique ht (hout.trans hway)
  rw [List.append_assoc] at habove
  refine ⟨hvar, ?_⟩
  rw [habove]
  exact List.find?_eq_some_iff_append.2
    ⟨by simpa using hd, inner, outer, rfl, by simpa [noDeclaration] using hbetween⟩

end Node

theorem Walk.callsIn_ofSteps_eq_nil {root n : Node}
    (h : ∀ d ∈ root.preorder, d.kind = .declaration → d.id ≠ n.id) :
    (ofSteps (root.steps none)).callsIn n = [] := by
  show ((root.steps none).foldl CallsFound.step ⟨[], []⟩).recorded n.id = []
  rw [CallsFound.recorded_foldl_steps root none h]
  rfl

namespace Session

/-- **The calls of a declaration.** In a tree that can be walked, the calls of each declaration are
those in its tree that no other declaration stands between, one for each of their places there
and in preorder, however often the declaration itself is visited. A node that is none of the
declarations visited has no calls. Where no node has two places, each call below a declaration is
among the calls of exactly one. -/
theorem calls_eq_callsWithin (text : String) {root : Node} (hid : root.Identified)
    {steps : List Step}
    (hwalk : ((start text root).answer .traverse).1 = .ok (.steps steps)) :
    (∀ d ∈ Walk.entered steps, d.kind = .declaration →
        ((start text root).answer (.calls d)).1 = .ok (.nodes d.callsWithin))
      ∧ (∀ n, (∀ d ∈ Walk.entered steps, d.kind = .declaration → d.id ≠ n.id) →
          ((start text root).answer (.calls n)).1 = .ok (.nodes []))
      ∧ (root.Distinct → ∀ p ∈ root.places, p.node.isVar = true →
          (∃ a ∈ p.above, a.kind = .declaration) →
            ∃! d, d ∈ Walk.entered steps ∧ d.kind = .declaration
              ∧ ∃ calls, ((start text root).answer (.calls d)).1 = .ok (.nodes calls)
                ∧ p.node ∈ calls) := by
  obtain ⟨hentered, hanswer⟩ := answer_of_traverse hwalk
  rw [hentered]
  have hcalls : ∀ d ∈ root.preorder, d.kind = .declaration →
      ((start text root).answer (.calls d)).1 = .ok (.nodes d.callsWithin) := by
    intro d hmem hd
    rw [hanswer, Node.callsWithin_eq hd, ← Walk.callsIn_ofSteps hid hmem hd]
    rfl
  refine ⟨hcalls, fun n hn => ?_, fun hdistinct p hp hvar hbelow => ?_⟩
  · rw [hanswer, ← Walk.callsIn_ofSteps_eq_nil hn]
    rfl
  · have ht : root.Trail p.above p.node := Node.mem_places_iff.1 hp
    -- the declaration is the innermost one above the call
    obtain ⟨d, hd⟩ : ∃ d, Node.declarationOn? p.above = some d := by
      rw [← Option.isSome_iff_exists, Node.declarationOn?, List.find?_isSome]
      simpa using hbelow
    have hkind : d.kind = .declaration := by simpa using List.find?_some hd
    have hmem : d ∈ root.preorder := ht.above_mem_preorder d (List.mem_of_find?_eq_some hd)
    refine ⟨d, ⟨hmem, hkind, _, hcalls d hmem hkind,
      Node.mem_callsWithin_of_declarationOn? ht hvar hd⟩, ?_⟩
    rintro e ⟨hemem, hekind, calls, he, hcall⟩
    -- a list that the call is in is that of a declaration the call belongs to
    obtain ⟨rfl⟩ := (hcalls e hemem hekind).symm.trans he
    have hinnermost := ((hdistinct.mem_callsWithin_iff ht hemem hekind).1 hcall).2
    exact Option.some.inj (hinnermost.symm.trans hd)

section Example

private def varNode (id : Nat) : Node :=
  .group ⟨id, none⟩ (.function "var") [.leaf ⟨id + 1, none⟩ (.identifier "--a")]

private def declaredNode (id : Nat) (value : List Node) : Node :=
  .declaration ⟨id, none⟩ "--b" (some (.group ⟨id + 1, none⟩ .value value)) false

private def innerDeclaration : Node := declaredNode 5 [varNode 7]

/-- A declaration with another one between two calls. -/
private def outerDeclaration : Node := declaredNode 1 [varNode 3, innerDeclaration, varNode 9]

private def declaredOnce : Node := .group ⟨0, none⟩ .stylesheet [outerDeclaration]

/-- The same declaration in two places. -/
private def declaredTwice : Node :=
  .group ⟨0, none⟩ .stylesheet [outerDeclaration, outerDeclaration]

/-- A declaration that stands nowhere. -/
private def strayDeclaration : Node := declaredNode 20 [varNode 22]

/-- A declaration in the value of another one keeps its call from it, also where both are walked
twice; and where they are walked once, that call is in one list. -/
theorem calls_nestedDeclarations :
    declaredTwice.Identified ∧ declaredOnce.Distinct
      ∧ (∃ calls, ((start "" declaredTwice).answer (.calls outerDeclaration)).1 = .ok (.nodes calls)
        ∧ calls.map Node.id = [3, 9])
      ∧ (∃ calls, ((start "" declaredTwice).answer (.calls innerDeclaration)).1 = .ok (.nodes calls)
        ∧ calls.map Node.id = [7])
      ∧ ((start "" declaredTwice).answer (.calls strayDeclaration)).1 = .ok (.nodes [])
      ∧ ∃! d, d ∈ Walk.entered (declaredOnce.steps none) ∧ d.kind = .declaration
          ∧ ∃ calls, ((start "" declaredOnce).answer (.calls d)).1 = .ok (.nodes calls)
            ∧ varNode 7 ∈ calls := by
  have hid : declaredTwice.Identified := by
    apply Node.identified_of_everywhere fun k =>
      ((declaredTwice :: outerDeclaration.preorder).find? (·.id == k)).getD declaredTwice
    simp [Node.Everywhere, Node.preorder_eq, declaredTwice, outerDeclaration, innerDeclaration,
      declaredNode, varNode, Node.children, Node.id, Node.mark]
  have hd : declaredOnce.Distinct := by unfold Node.Distinct; decide +kernel
  have htwice : ((start "" declaredTwice).answer .traverse).1
      = .ok (.steps (declaredTwice.steps none)) :=
    answer_traverse_of_noObstacle (by decide +kernel) ""
  have honce : ((start "" declaredOnce).answer .traverse).1
      = .ok (.steps (declaredOnce.steps none)) :=
    answer_traverse_of_noObstacle (by decide +kernel) ""
  have houter : outerDeclaration ∈ Walk.entered (declaredTwice.steps none) := by
    rw [Node.entered_steps]
    exact Node.mem_preorder_of_mem_children (Node.self_mem_preorder _) List.mem_cons_self
  have hinner : innerDeclaration ∈ Walk.entered (declaredTwice.steps none) := by
    rw [Node.entered_steps]
    simp [Node.preorder_eq, declaredTwice, outerDeclaration, innerDeclaration, declaredNode,
      varNode, Node.children]
  -- the call of the inner declaration with all that is above it
  obtain ⟨p, hp, hnode, habove⟩ : ∃ p ∈ declaredOnce.places, p.node = varNode 7
      ∧ innerDeclaration ∈ p.above := by
    simp [Node.places, Node.placesBelow_eq, declaredOnce, outerDeclaration, innerDeclaration,
      declaredNode, varNode, Node.children]
  obtain ⟨hcalls, hnone, -⟩ := calls_eq_callsWithin "" hid htwice
  obtain ⟨-, -, hone⟩ := calls_eq_callsWithin "" hd.identified honce
  rw [← hnode]
  exact ⟨hid, hd, ⟨_, hcalls _ houter rfl, by decide +kernel⟩,
    ⟨_, hcalls _ hinner rfl, by decide +kernel⟩,
    hnone strayDeclaration (by decide +kernel),
    hone hd p hp (by rw [hnode]; rfl) ⟨_, habove, rfl⟩⟩

end Example

end Session

end Stylesheet
