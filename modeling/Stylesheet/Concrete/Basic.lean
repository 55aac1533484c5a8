/-
Concrete trees: what a grammar makes of a text.

Each node has a kind, a range of octets, and children. A node is named if its kind is a
rule of the grammar, and not if it is a token spelled as its kind. A missing node has no
text: the grammar put it in to go on after an error. A node of the kind ERROR covers text
that the grammar could not read. Nothing is assumed of the ranges, nor of which kinds
stand below which.
-/

set_option autoImplicit false

namespace Stylesheet

/-- A node of a concrete tree. -/
inductive Concrete where
  | node (kind : String) (start stop : Int) (named missing : Bool) (children : List Concrete)

namespace Concrete

/-! ## Parts -/

/-- The kind of a node. -/
def kind : Concrete → String
  | node k _ _ _ _ _ => k

/-- The octet offset at which a node starts. -/
def start : Concrete → Int
  | node _ s _ _ _ _ => s

/-- The octet offset at which a node ends. -/
def stop : Concrete → Int
  | node _ _ e _ _ _ => e

/-- Whether the kind is a rule of the grammar. -/
def named : Concrete → Bool
  | node _ _ _ n _ _ => n

/-- Whether the grammar put the node in. -/
def missing : Concrete → Bool
  | node _ _ _ _ m _ => m

/-- The children, in order. -/
def children : Concrete → List Concrete
  | node _ _ _ _ _ cs => cs

theorem sizeOf_lt_of_mem_children {c d : Concrete} (h : d ∈ c.children) :
    sizeOf d < sizeOf c := by
  cases c with
  | node k s e n m cs =>
    have := List.sizeOf_lt_of_mem h
    simp only [children, node.sizeOf_spec] at *
    omega

/-! ## Choosing children -/

/-- Whether a node is a comment. -/
def isComment (c : Concrete) : Bool :=
  c.kind == "comment" || c.kind == "js_comment"

/-- The children that are neither comments nor missing. -/
def significant (c : Concrete) : List Concrete :=
  c.children.filter fun d => !d.isComment && !d.missing

/-- The significant children of a bracketed node, without the brackets. -/
def inner (c : Concrete) : List Concrete :=
  c.significant.filter fun d => d.named || !(["(", ")", "[", "]"].contains d.kind)

/-- The first child of a kind, whatever else it is. -/
def child? (c : Concrete) (kind : String) : Option Concrete :=
  c.children.find? fun d => d.kind == kind

/-- The significant children that are named. -/
def members (c : Concrete) : List Concrete :=
  c.significant.filter (·.named)

theorem mem_children_of_mem_significant {c d : Concrete} (h : d ∈ c.significant) :
    d ∈ c.children :=
  (List.mem_filter.1 h).1

theorem sizeOf_lt_of_mem_significant {c d : Concrete} (h : d ∈ c.significant) :
    sizeOf d < sizeOf c :=
  sizeOf_lt_of_mem_children (mem_children_of_mem_significant h)

theorem sizeOf_lt_of_mem_inner {c d : Concrete} (h : d ∈ c.inner) : sizeOf d < sizeOf c :=
  sizeOf_lt_of_mem_significant (List.mem_filter.1 h).1

theorem sizeOf_lt_of_mem_members {c d : Concrete} (h : d ∈ c.members) : sizeOf d < sizeOf c :=
  sizeOf_lt_of_mem_significant (List.mem_filter.1 h).1

theorem sizeOf_lt_of_child? {c d : Concrete} {kind : String} (h : c.child? kind = some d) :
    sizeOf d < sizeOf c :=
  sizeOf_lt_of_mem_children (List.mem_of_find?_eq_some h)

/-! ## The whole tree -/

mutual

/-- A node and all below it, each before its children. -/
def walk : Concrete → List Concrete
  | node k s e n m cs => node k s e n m cs :: walkAll cs

/-- The walks of several nodes, one after the other. -/
def walkAll : List Concrete → List Concrete
  | [] => []
  | c :: cs => walk c ++ walkAll cs

end

/-- The nodes of a tree that are of one of the kinds, in the order of the walk. -/
def ofKinds (c : Concrete) (kinds : List String) : List Concrete :=
  c.walk.filter fun d => kinds.contains d.kind

theorem walk_eq (c : Concrete) : c.walk = c :: c.children.flatMap walk := by
  have all : ∀ cs : List Concrete, walkAll cs = cs.flatMap walk := by
    intro cs
    induction cs with
    | nil => simp [walkAll]
    | cons d ds ih => simp [walkAll, ih]
  cases c with
  | node k s e n m cs => simp [walk, children, all]

end Concrete

end Stylesheet
