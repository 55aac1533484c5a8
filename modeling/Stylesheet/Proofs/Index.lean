/-
The index of custom properties holds the uses that are in the tree, and no others.

The index is made of three registers, one for declarations, one for definitions and one for
calls. A node is recorded in at most one of them, under at most one name; so each register is a
fold of `recordAt` with a function that says under which name a node is recorded, and two laws
about such folds serve all three: one says which nodes stand under a name (`nodes_foldl_recordAt`),
the other what the names are (`keys_foldl_recordAt`).

A name that does not begin like that of a custom property is never recorded, whatever is
declared under it.
-/
import Stylesheet.Proofs.Ancestry

set_option autoImplicit false

namespace Stylesheet

namespace Node

/-! ## Uses of a property, read off a node -/

/-- Whether a node is a declaration of a property. -/
def declares (x : String) : Node → Bool
  | declaration _ property _ _ => property == x
  | _ => false

/-- Whether a node is an at-rule named `property`, in any case, whose prelude begins with the
name of a property as an identifier. -/
def defines (x : String) : Node → Bool
  | atrule _ name (some prelude) _ =>
    Text.lower name == "property" && prelude.referredName? == some x
  | _ => false

/-- Whether a node is a call of `var` that begins with the name of a property as an
identifier. -/
def refersTo (x : String) (n : Node) : Bool :=
  n.isVar && n.referredName? == some x

end Node

theorem leadingCustomName?_eq_some_iff {n : Node} {x : String} :
    leadingCustomName? n.members = some x
      ↔ n.referredName? = some x ∧ Node.isCustomName x = true := by
  rw [Node.referredName?]
  cases n.members with
  | nil => simp [leadingCustomName?]
  | cons first rest =>
      simp only [leadingCustomName?, Option.filter_eq_some_iff]

namespace UsesFound

/-! ## Under which name a node is recorded -/

/-- The name under which a node is recorded as a declaration. -/
def declaredName? (n : Node) : Option String :=
  (n.declaration?.map (·.1)).filter Node.isCustomName

/-- The name under which a node is recorded as a definition. -/
def definedName? : Node → Option String
  | .atrule _ name prelude _ =>
    if Text.lower name = "property" then prelude.bind fun p => leadingCustomName? p.members
    else none
  | _ => none

/-- The name under which a node is recorded as a call. -/
def calledName? (n : Node) : Option String :=
  if n.isVar then leadingCustomName? n.members else none

theorem declaredName?_eq_some_iff {n : Node} {x : String} :
    declaredName? n = some x ↔ n.declares x = true ∧ Node.isCustomName x = true := by
  cases n <;> simp [declaredName?, Node.declaration?, Node.declares, Option.filter_eq_some_iff]

theorem definedName?_eq_some_iff {n : Node} {x : String} :
    definedName? n = some x ↔ n.defines x = true ∧ Node.isCustomName x = true := by
  cases n with
  | atrule m name prelude block =>
      rw [definedName?]
      cases prelude with
      | none => simp [Node.defines]
      | some p =>
          by_cases hname : Text.lower name = "property"
          · rw [if_pos hname, Option.bind_some, leadingCustomName?_eq_some_iff]
            simp [Node.defines, hname]
          · rw [if_neg hname]
            simp [Node.defines, hname]
  | _ => simp [definedName?, Node.defines]

theorem calledName?_eq_some_iff {n : Node} {x : String} :
    calledName? n = some x ↔ n.refersTo x = true ∧ Node.isCustomName x = true := by
  rw [calledName?, Node.refersTo]
  by_cases hvar : n.isVar = true
  · rw [if_pos hvar, leadingCustomName?_eq_some_iff]
    simp [hvar]
  · rw [if_neg hvar]
    simp [hvar]

end UsesFound

namespace Register

/-! ## Registers -/

/-- The register with a node recorded under a name, if there is a name for it. -/
def recordAt (r : Register) (name? : Option String) (n : Node) : Register :=
  match name? with
  | some name => r.record name n
  | none => r

theorem nodes_recordAt (r : Register) (name? : Option String) (n : Node) (x : String) :
    (r.recordAt name? n).nodes x = r.nodes x ++ if name? = some x then [n] else [] := by
  cases name? with
  | none => simp [recordAt]
  | some name =>
      rw [recordAt, record, nodes, nodes]
      by_cases h : name = x
      · rw [h, Assoc.get?_put_self]
        simp
      · rw [Assoc.get?_put_of_ne h]
        simp [h]

theorem keys_recordAt {r : Register} {names : List String} (h : r.keys = names.eraseDups)
    (name? : Option String) (n : Node) :
    (r.recordAt name? n).keys = (names ++ name?.toList).eraseDups := by
  cases name? with
  | none => simpa [recordAt] using h
  | some name =>
      rw [recordAt, record, Assoc.keys_put, h, Option.toList_some, List.eraseDups_append]
      by_cases hmem : name ∈ names
      · simp [List.removeAll, hmem]
      · simp [List.removeAll, hmem, List.eraseDups_cons]

variable (name? : Node → Option String)

/-- **The nodes of a register**: those recorded under the name, in order. -/
theorem nodes_foldl_recordAt (ns : List Node) (r : Register) (x : String) :
    (ns.foldl (fun r n => r.recordAt (name? n) n) r).nodes x
      = r.nodes x ++ ns.filter fun n => name? n = some x := by
  induction ns generalizing r with
  | nil => simp
  | cons n ns ih =>
      rw [List.foldl_cons, ih, nodes_recordAt, List.append_assoc]
      by_cases h : name? n = some x <;> simp [h]

/-- **The names of a register** are those of the nodes, each where it came first. -/
theorem keys_foldl_recordAt (ns : List Node) {r : Register} {names : List String}
    (h : r.keys = names.eraseDups) :
    (ns.foldl (fun r n => r.recordAt (name? n) n) r).keys
      = (names ++ ns.filterMap name?).eraseDups := by
  induction ns generalizing r names with
  | nil => simpa using h
  | cons n ns ih =>
      rw [List.foldl_cons, ih (keys_recordAt h (name? n) n), List.append_assoc]
      cases hn : name? n <;> simp [hn]

end Register

namespace UsesFound

/-! ## The three registers -/

/-- Entering a node records it in each register under its name there. -/
theorem enter_eq (found : UsesFound) (n : Node) :
    found.enter n =
      ⟨found.declarations.recordAt (declaredName? n) n,
        found.definitions.recordAt (definedName? n) n,
        found.references.recordAt (calledName? n) n⟩ := by
  -- a node of one kind has no name in the two registers of the other kinds
  cases n with
  | declaration m property v i =>
      by_cases h : Node.isCustomName property = true <;>
        simp [enter, declaredName?, definedName?, calledName?, Register.recordAt,
          Node.declaration?, Node.isVar, h, Option.filter]
  | atrule m name prelude block =>
      by_cases h : Text.lower name = "property"
      · cases hp : prelude.bind fun p => leadingCustomName? p.members <;>
          simp [enter, declaredName?, definedName?, calledName?, Register.recordAt,
            Node.declaration?, Node.isVar, h, hp]
      · simp [enter, declaredName?, definedName?, calledName?, Register.recordAt,
          Node.declaration?, Node.isVar, h]
  | group m g ns =>
      cases g with
      | function name =>
          by_cases h : (Node.group m (.function name) ns).isVar = true
          · cases hn : leadingCustomName? ns <;>
              simp [enter, declaredName?, definedName?, calledName?, Register.recordAt,
                Node.declaration?, Node.members, Node.members?, h, hn]
          · simp [enter, declaredName?, definedName?, calledName?, Register.recordAt,
              Node.declaration?, h]
      | _ =>
          simp [enter, declaredName?, definedName?, calledName?, Register.recordAt,
            Node.declaration?, Node.isVar]
  | _ =>
      simp [enter, declaredName?, definedName?, calledName?, Register.recordAt,
        Node.declaration?, Node.isVar]

theorem foldl_enter (ns : List Node) (found : UsesFound) :
    ns.foldl enter found =
      ⟨ns.foldl (fun r n => r.recordAt (declaredName? n) n) found.declarations,
        ns.foldl (fun r n => r.recordAt (definedName? n) n) found.definitions,
        ns.foldl (fun r n => r.recordAt (calledName? n) n) found.references⟩ := by
  induction ns generalizing found with
  | nil => rfl
  | cons n ns ih => rw [List.foldl_cons, ih, enter_eq]; rfl

theorem get?_byName (found : UsesFound) (x : String) :
    Assoc.get? found.byName x =
      if x ∈ found.declarations.keys ++ found.definitions.keys ++ found.references.keys then
        some ⟨found.declarations.nodes x, found.definitions.nodes x, found.references.nodes x⟩
      else none := by
  -- a name may stand in the list several times, always with the same uses
  have hmap : ∀ (names : List String) (f : String → Uses),
      Assoc.get? (names.map fun name => (name, f name)) x
        = if x ∈ names then some (f x) else none := by
    intro names f
    induction names with
    | nil => simp [Assoc.get?]
    | cons name names ih =>
        rw [List.map_cons, Assoc.get?, ih]
        by_cases h : name = x
        · simp [h]
        · simp [h, Ne.symm h]
  rw [byName, hmap]
  simp only [List.mem_eraseDups]

end UsesFound

/-! ## The index of a tree -/

/-- Whether a node declares, defines or refers to a property. -/
def Node.uses (x : String) (n : Node) : Bool :=
  n.declares x || n.defines x || n.refersTo x

/-- The names of the index are the custom names that some node uses. -/
theorem UsesFound.mem_keys_foldl_enter (ns : List Node) (x : String) :
    let found := ns.foldl enter ⟨[], [], []⟩
    x ∈ found.declarations.keys ++ found.definitions.keys ++ found.references.keys
      ↔ Node.isCustomName x = true ∧ ∃ n ∈ ns, n.uses x = true := by
  have hnil : Assoc.keys ([] : Register) = ([] : List String).eraseDups := rfl
  simp only [foldl_enter, Register.keys_foldl_recordAt _ _ hnil, List.nil_append, List.mem_append,
    List.mem_eraseDups, List.mem_filterMap, declaredName?_eq_some_iff, definedName?_eq_some_iff,
    calledName?_eq_some_iff, Node.uses, Bool.or_eq_true]
  constructor
  · rintro ((⟨n, hn, h, hx⟩ | ⟨n, hn, h, hx⟩) | ⟨n, hn, h, hx⟩)
    all_goals exact ⟨hx, n, hn, by simp [h]⟩
  · rintro ⟨hx, n, hn, (h | h) | h⟩
    · exact .inl (.inl ⟨n, hn, h, hx⟩)
    · exact .inl (.inr ⟨n, hn, h, hx⟩)
    · exact .inr ⟨n, hn, h, hx⟩

/-- Under a custom name each register holds the nodes that use it in the way of the
register. -/
theorem UsesFound.nodes_foldl_enter (ns : List Node) {x : String}
    (hx : Node.isCustomName x = true) :
    let found := ns.foldl enter ⟨[], [], []⟩
    found.declarations.nodes x = ns.filter (Node.declares x)
      ∧ found.definitions.nodes x = ns.filter (Node.defines x)
      ∧ found.references.nodes x = ns.filter (Node.refersTo x) := by
  have hnil : Register.nodes [] x = [] := rfl
  simp only [foldl_enter, Register.nodes_foldl_recordAt, declaredName?_eq_some_iff,
    definedName?_eq_some_iff, calledName?_eq_some_iff, hx, and_true, hnil, List.nil_append,
    Bool.decide_eq_true]

namespace Walk

/-- **The index is exact and complete.** Under a custom name stand the declarations, the
definitions and the calls of the tree with that name, each in preorder, unless there are none;
under any other name stands nothing. -/
theorem uses?_ofSteps (root : Node) (x : String) :
    (ofSteps (root.steps none)).uses? x =
      if Node.isCustomName x = true ∧ ∃ n ∈ root.preorder, n.uses x = true then
        some ⟨root.preorder.filter (Node.declares x), root.preorder.filter (Node.defines x),
          root.preorder.filter (Node.refersTo x)⟩
      else none := by
  have hkeys := UsesFound.mem_keys_foldl_enter root.preorder x
  rw [uses?, ofSteps, Node.entered_steps, UsesFound.get?_byName]
  by_cases hx : Node.isCustomName x = true ∧ ∃ n ∈ root.preorder, n.uses x = true
  · obtain ⟨hdecl, hdef, href⟩ := UsesFound.nodes_foldl_enter root.preorder hx.1
    rw [if_pos (hkeys.2 hx), if_pos hx, hdecl, hdef, href]
  · rw [if_neg fun h => hx (hkeys.1 h), if_neg hx]

/-- What stands under a name are its declarations and its definitions, each in preorder. -/
theorem lists_of_uses?_ofSteps {root : Node} {x : String} {uses : Uses}
    (h : (ofSteps (root.steps none)).uses? x = some uses) :
    uses.declarations = root.preorder.filter (Node.declares x)
      ∧ uses.definitions = root.preorder.filter (Node.defines x) := by
  rw [uses?_ofSteps] at h
  split at h
  · rw [← Option.some.inj h]
    exact ⟨rfl, rfl⟩
  · cases h

end Walk

end Stylesheet
