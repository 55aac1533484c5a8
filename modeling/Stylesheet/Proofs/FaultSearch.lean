/-
The search for faults, by the sites of a concrete tree.

A site is a node with the nodes above it, so whether something hides a fault can be read off its
site: a region above that could not be read does, and a node above that was put in does not. The
search knows nothing of sites. It goes down with what it has found, leaves out what stands below a
region, and stops when it has enough.

That it finds the first of the faults that nothing hides is an induction over the tree from any
list that the search may have come with (`findFaults_eq`): what is left to find in a child is what
the limit still allows after the children before it. Where the ranges of a tree are nested, the
order of the search is that of the text, and the ruler keeps it.
-/
import Stylesheet.Concrete.Fault
import Stylesheet.Proofs.WellNested

set_option autoImplicit false

namespace Stylesheet

namespace Concrete

/-! ## Faults of a tree -/

theorem anyFault_eq (cs : List Concrete) : anyFault cs = cs.any hasFault := by
  induction cs with
  | nil => rw [anyFault, List.any_nil]
  | cons c cs ih => rw [anyFault, ih, List.any_cons]

theorem hasFault_eq (c : Concrete) :
    c.hasFault = (c.isError || c.missing || c.children.any hasFault) := by
  cases c with
  | node k s e n m cs => rw [hasFault, anyFault_eq, isError, kind, missing, children]

/-- **A fault is a node of the tree** that covers what could not be read, or was put in. -/
theorem hasFault_iff (c : Concrete) :
    c.hasFault = true ↔ ∃ d ∈ c.walk, d.isError = true ∨ d.missing = true := by
  rw [hasFault_eq, walk_eq, Bool.or_eq_true, Bool.or_eq_true, List.any_eq_true]
  have hbelow : (∃ d ∈ c.children, d.hasFault = true)
      ↔ ∃ d ∈ c.children.flatMap walk, d.isError = true ∨ d.missing = true := by
    constructor
    · rintro ⟨d, hd, hfault⟩
      have := sizeOf_lt_of_mem_children hd
      obtain ⟨e, he, hfaulty⟩ := (hasFault_iff d).1 hfault
      exact ⟨e, List.mem_flatMap.2 ⟨d, hd, he⟩, hfaulty⟩
    · rintro ⟨e, he, hfaulty⟩
      obtain ⟨d, hd, he⟩ := List.mem_flatMap.1 he
      have := sizeOf_lt_of_mem_children hd
      exact ⟨d, hd, (hasFault_iff d).2 ⟨e, he, hfaulty⟩⟩
  rw [hbelow, List.exists_mem_cons_iff]
termination_by sizeOf c

/-! ## Sites -/

/-- A node of a concrete tree with the nodes above it, the nearest first. -/
structure Site where
  above : List Concrete
  node : Concrete

/-- The sites of a tree whose root stands below others, in preorder. -/
def sitesBelow (above : List Concrete) (c : Concrete) : List Site :=
  ⟨above, c⟩ :: c.children.attach.flatMap fun ⟨d, _⟩ => sitesBelow (c :: above) d
termination_by sizeOf c
decreasing_by exact sizeOf_lt_of_mem_children ‹_›

/-- The sites of a tree, in preorder. -/
def sites (c : Concrete) : List Site := sitesBelow [] c

theorem sitesBelow_eq (above : List Concrete) (c : Concrete) :
    sitesBelow above c = ⟨above, c⟩ :: c.children.flatMap (sitesBelow (c :: above)) := by
  rw [sitesBelow]
  simp

/-- The nodes of the sites are the walk. -/
theorem map_node_sitesBelow (above : List Concrete) (c : Concrete) :
    (sitesBelow above c).map Site.node = c.walk := by
  have hchildren : c.children.flatMap (fun d => (sitesBelow (c :: above) d).map Site.node)
      = c.children.flatMap walk := by
    apply List.flatMap_congr
    intro d hd
    have := sizeOf_lt_of_mem_children hd
    exact map_node_sitesBelow (c :: above) d
  rw [sitesBelow_eq, walk_eq, List.map_cons, List.map_flatMap, hchildren]
termination_by sizeOf c

/-- Whether none of the nodes above a site covers what could not be read. -/
def isClear (above : List Concrete) : Bool := above.all fun a => !a.isError

theorem isClear_cons (c : Concrete) (above : List Concrete) :
    isClear (c :: above) = (!c.isError && isClear above) := List.all_cons

namespace Site

/-- Whether a node is faulty and nothing above it hides that. -/
def isShown (s : Site) : Bool := (s.node.isError || s.node.missing) && isClear s.above

/-- The fault at a site. -/
def fault (s : Site) : Fault := ⟨s.node, s.above.head?.map kind⟩

end Site

/-! ## Faults that nothing hides -/

/-- The faults of a tree that nothing hides, where its root stands below others. -/
def shownFaults (above : List Concrete) (c : Concrete) : List Fault :=
  ((sitesBelow above c).filter Site.isShown).map Site.fault

/-- What is shown of a tree is its root, if nothing hides it and it is faulty, and what is shown of
its children. -/
theorem shownFaults_eq_append (above : List Concrete) (c : Concrete) :
    shownFaults above c
      = (if Site.isShown ⟨above, c⟩ then [⟨c, above.head?.map kind⟩] else [])
        ++ c.children.flatMap (shownFaults (c :: above)) := by
  have hroot : ([(⟨above, c⟩ : Site)].filter Site.isShown).map Site.fault
      = if Site.isShown ⟨above, c⟩ then [⟨c, above.head?.map kind⟩] else [] := by
    rw [List.filter_cons]
    split <;> rfl
  rw [shownFaults, sitesBelow_eq, ← List.singleton_append, List.filter_append, List.map_append,
    List.filter_flatMap, List.map_flatMap, hroot]
  rfl

/-- Below a region that could not be read nothing is shown. -/
theorem shownFaults_of_hidden {above : List Concrete} (h : isClear above = false) (c : Concrete) :
    shownFaults above c = [] := by
  have hroot : Site.isShown ⟨above, c⟩ = false := by rw [Site.isShown, h, Bool.and_false]
  have hrest : isClear (c :: above) = false := by rw [isClear_cons, h, Bool.and_false]
  have hbelow : ∀ d ∈ c.children, shownFaults (c :: above) d = [] := by
    intro d hd
    have := sizeOf_lt_of_mem_children hd
    exact shownFaults_of_hidden hrest d
  rw [shownFaults_eq_append, hroot, List.flatMap_eq_nil_iff.2 hbelow]
  rfl
termination_by sizeOf c

/-- Where nothing above hides them, the faults that are shown are the root, if it is faulty, and
those of its children, unless the root is a region that could not be read. -/
theorem shownFaults_eq {above : List Concrete} (h : isClear above = true) (c : Concrete) :
    shownFaults above c
      = (if c.isError || c.missing then [⟨c, above.head?.map kind⟩] else [])
        ++ if c.isError then [] else c.children.flatMap (shownFaults (c :: above)) := by
  rw [shownFaults_eq_append, Site.isShown, h, Bool.and_true]
  by_cases herror : c.isError = true
  · have hhidden : isClear (c :: above) = false := by
      rw [isClear_cons, herror, Bool.not_true, Bool.false_and]
    rw [if_pos herror, List.flatMap_eq_nil_iff.2 fun d _ => shownFaults_of_hidden hhidden d]
  · rw [if_neg herror]

/-- **Nothing hides the only fault**: some fault is shown of every tree that has one. -/
theorem shownFaults_eq_nil_iff (above : List Concrete) (h : isClear above = true) (c : Concrete) :
    shownFaults above c = [] ↔ c.hasFault = false := by
  rw [shownFaults_eq h, hasFault_eq, List.append_eq_nil_iff]
  cases herror : c.isError with
  | true => simp
  | false =>
      have hclear : isClear (c :: above) = true := by
        rw [isClear_cons, herror, h, Bool.not_false, Bool.and_true]
      have hbelow : (∀ d ∈ c.children, shownFaults (c :: above) d = [])
          ↔ ∀ d ∈ c.children, d.hasFault = false := by
        refine forall_congr' fun d => forall_congr' fun hd => ?_
        have := sizeOf_lt_of_mem_children hd
        exact shownFaults_eq_nil_iff (c :: above) hclear d
      cases hmissing : c.missing with
      | true => simp
      | false => simpa [List.any_eq_false] using hbelow
termination_by sizeOf c

/-! ## The search -/

/-- One step of the search: nothing once the limit is reached, and else the root, if it is faulty,
and then the children, unless the root is a region that could not be read. -/
theorem findFaults_step (parentKind : Option String) (found : List Fault) (c : Concrete) :
    findFaults parentKind found c
      = if maxFaults ≤ found.length then found
        else if c.isError then found ++ [⟨c, parentKind⟩]
        else findFaultsInAll (some c.kind)
          (if c.missing then found ++ [⟨c, parentKind⟩] else found) c.children := by
  cases c with
  | node k s e n m cs =>
      rw [findFaults, isError, kind, missing, children]
      cases hk : k == "ERROR" <;> simp

/-- The search through several trees, if the search through each finds what is shown of it as far
as the limit allows. -/
theorem findFaultsInAll_eq (above : List Concrete) {cs : List Concrete}
    (h : ∀ c ∈ cs, ∀ found, findFaults (above.head?.map kind) found c
      = found ++ (shownFaults above c).take (maxFaults - found.length)) (found : List Fault) :
    findFaultsInAll (above.head?.map kind) found cs
      = found ++ (cs.flatMap (shownFaults above)).take (maxFaults - found.length) := by
  induction cs generalizing found with
  | nil => rw [findFaultsInAll, List.flatMap_nil, List.take_nil, List.append_nil]
  | cons c cs ih =>
      -- what is found in the first tree is taken off what the limit allows for the others
      have hleft : maxFaults
            - (found ++ (shownFaults above c).take (maxFaults - found.length)).length
          = maxFaults - found.length - (shownFaults above c).length := by
        rw [List.length_append, List.length_take]
        omega
      rw [findFaultsInAll, h c List.mem_cons_self, ih fun d hd => h d (List.mem_cons_of_mem c hd),
        hleft, List.append_assoc, List.flatMap_cons, List.take_append]

/-- **The search goes on from what was found**: it adds what is shown of a tree, as far as the
limit allows. -/
theorem findFaults_eq (above : List Concrete) (h : isClear above = true) (c : Concrete)
    (found : List Fault) :
    findFaults (above.head?.map kind) found c
      = found ++ (shownFaults above c).take (maxFaults - found.length) := by
  have hbelow : c.isError = false → ∀ found, findFaultsInAll (some c.kind) found c.children
      = found ++ (c.children.flatMap (shownFaults (c :: above))).take
          (maxFaults - found.length) := by
    intro herror
    have hclear : isClear (c :: above) = true := by
      rw [isClear_cons, herror, h, Bool.not_false, Bool.and_true]
    refine findFaultsInAll_eq (c :: above) ?_
    intro d hd found
    have := sizeOf_lt_of_mem_children hd
    exact findFaults_eq (c :: above) hclear d found
  rw [findFaults_step]
  by_cases hfull : maxFaults ≤ found.length
  · rw [if_pos hfull, Nat.sub_eq_zero_of_le hfull, List.take_zero, List.append_nil]
  · rw [if_neg hfull, shownFaults_eq h]
    -- a faulty root takes one of the faults that the limit allows
    obtain ⟨room, hroom, hrest⟩ : ∃ room, maxFaults - found.length = room + 1
        ∧ maxFaults - (found.length + 1) = room := ⟨_, by omega, rfl⟩
    cases herror : c.isError with
    | true => simp [hroom]
    | false =>
        cases c.missing with
        | true => simp [hbelow herror, hroom, hrest]
        | false => simp [hbelow herror]
termination_by sizeOf c

/-- **What is reported** are the first faults that nothing hides, as many as the limit allows. -/
theorem faults_eq (c : Concrete) : c.faults = (shownFaults [] c).take maxFaults := by
  rw [faults]
  cases hfault : c.hasFault with
  | false => rw [(shownFaults_eq_nil_iff [] rfl c).2 hfault, List.take_nil]; rfl
  | true => exact findFaults_eq [] rfl c []

/-- **Nothing is reported** exactly if no node of the tree covers what could not be read or was
put in. -/
theorem diagnostics_eq_nil_iff (src : Source) (c : Concrete) :
    c.diagnostics src = [] ↔ ∀ d ∈ c.walk, d.isError = false ∧ d.missing = false := by
  have hnone : c.hasFault = false ↔ ∀ d ∈ c.walk, d.isError = false ∧ d.missing = false := by
    rw [← Bool.not_eq_true, hasFault_iff]
    simp only [not_exists, not_and, not_or, Bool.not_eq_true]
  rw [← hnone, ← shownFaults_eq_nil_iff [] rfl, diagnostics, List.map_eq_nil_iff,
    faults_eq, List.take_eq_nil_iff]
  simp [maxFaults]

/-! ## In the order of the text -/

/-- **The walk is in the order of the text**: in a well-nested tree no node starts before one that
comes earlier in preorder. -/
theorem WellNested.pairwise_start {root : Concrete} {length : Nat} (h : root.WellNested length)
    (c : Concrete) (hc : c ∈ root.walk) : c.walk.Pairwise fun a b => a.start ≤ b.start := by
  have hrow := h.children c hc
  have hroot : ∀ d ∈ c.children, d ∈ root.walk := fun d hd => mem_walk_of_mem_children hc hd
  rw [walk_eq, List.pairwise_cons, List.pairwise_flatMap]
  refine ⟨fun b hb => ?_, fun d hd => ?_, ?_⟩
  · have hb' : b ∈ c.walk := by
      rw [walk_eq]
      exact List.mem_cons_of_mem c hb
    exact (h.within c hc (h.range hc).2.1 hb').1
  · have := sizeOf_lt_of_mem_children hd
    exact h.pairwise_start d (hroot d hd)
  · -- nodes in two children lie where those children lie
    refine List.Pairwise.imp_of_mem ?_ hrow.2
    intro a b ha hb hab u hu v hv
    have hu := h.within a (hroot a ha) (hrow.1 a ha).2.1 hu
    have hv := h.within b (hroot b hb) (hrow.1 b hb).2.1 hv
    omega
termination_by sizeOf c

end Concrete

/-- A report stands no later in the text than another, by its offset as well as by its line and
column. -/
def Diagnostic.NoLater (a b : Diagnostic) : Prop :=
  a.offset ≤ b.offset ∧ (a.line < b.line ∨ a.line = b.line ∧ a.column ≤ b.column)

namespace Concrete

/-- **The reports of a tree** are those of the first fifty nodes, in preorder, that cover what could
not be read or were put in, and above which no node covers what could not be read. There are none
exactly if no node of the tree is faulty in either way. Where the tree is well nested within the
text, the reports are in the order of the text. -/
theorem diagnostics_eq_first_shown (text : String) (c : Concrete) :
    (c.sites.map Site.node = c.walk
        ∧ c.diagnostics (.ofText text)
          = ((c.sites.filter fun s => (s.node.isError || s.node.missing)
              && s.above.all fun a => !a.isError).take 50).map fun s =>
                (⟨s.node, s.above.head?.map kind⟩ : Fault).report (.ofText text))
      ∧ (c.diagnostics (.ofText text) = []
          ↔ ∀ d ∈ c.walk, d.isError = false ∧ d.missing = false)
      ∧ (c.WellNested (Source.ofText text).octets.length →
          (c.diagnostics (.ofText text)).Pairwise Diagnostic.NoLater) := by
  have hreports : c.diagnostics (.ofText text)
      = ((c.sites.filter Site.isShown).take maxFaults).map fun s =>
          s.fault.report (.ofText text) := by
    rw [diagnostics, faults_eq, shownFaults, ← List.map_take, List.map_map]
    rfl
  refine ⟨⟨map_node_sitesBelow [] c, hreports⟩, diagnostics_eq_nil_iff _ c, fun hnest => ?_⟩
  have hsites : c.sites.Pairwise fun s t => s.node.start ≤ t.node.start := by
    have hwalk := hnest.pairwise_start c (self_mem_walk c)
    rw [← map_node_sitesBelow [] c, List.pairwise_map] at hwalk
    exact hwalk
  rw [hreports, List.pairwise_map]
  have hshown : ((c.sites.filter Site.isShown).take maxFaults).Pairwise
      fun s t => s.node.start ≤ t.node.start :=
    hsites.sublist ((List.take_sublist _ _).trans List.filter_sublist)
  exact hshown.imp fun hle => Ruler.position_mono _ hle

section Example

/-- The text of two rules on two lines, in the second of which a name has an umlaut. -/
private def brokenText : String := "a,\x7b\x7d\nä\x7b\x7d"

/-- A concrete tree of it: a region that holds another one, and on the second line a selector that
was put in and a region below it. -/
private def brokenTree : Concrete :=
  .node "stylesheet" 0 9 true false
    [.node "rule_set" 0 4 true false
      [.node "selectors" 0 1 true false [],
        .node "ERROR" 1 2 true false [.node "ERROR" 1 2 true false []],
        .node "block" 2 4 true false []],
    .node "rule_set" 5 9 true false
      [.node "selectors" 5 7 true true [.node "ERROR" 5 7 true false []],
        .node "block" 7 9 true false []]]

/-- The inner region repeats the outer one and is not reported, but the region below the selector
that was put in is. The reports go down the text. -/
theorem diagnostics_brokenText :
    brokenTree.WellNested (Source.ofText brokenText).octets.length
      ∧ (brokenTree.diagnostics (.ofText brokenText)).Pairwise Diagnostic.NoLater
      ∧ (brokenTree.diagnostics (.ofText brokenText)).map (fun d => (d.trouble, d.parentKind))
        = [(.syntaxError, some "rule_set"), (.missingNode, some "rule_set"),
          (.syntaxError, some "selectors")]
      ∧ (brokenTree.diagnostics (.ofText brokenText)).map (fun d => (d.offset, d.line, d.column))
        = [(1, 1, 2), (5, 2, 1), (5, 2, 1)] := by
  have hnest : brokenTree.WellNested (Source.ofText brokenText).octets.length := by
    decide +kernel
  obtain ⟨⟨-, hreports⟩, -, horder⟩ := diagnostics_eq_first_shown brokenText brokenTree
  refine ⟨hnest, horder hnest, ?_, ?_⟩
  · rw [hreports]
    decide +kernel
  · rw [hreports]
    decide +kernel

end Example

end Concrete

end Stylesheet
