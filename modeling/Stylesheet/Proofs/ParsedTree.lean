/-
The session for a text that was read.

Its tree is the numbered tree that the concrete tree of the text makes, whether errors were
tolerated or there were none. So it has a walk, every question to it has an answer, and each of
its declarations has a value that was made, up to the identities, from some node of the concrete
tree.
-/
import Stylesheet.Language
import Stylesheet.Proofs.Closest
import Stylesheet.Proofs.Numbering
import Stylesheet.Proofs.Origin

set_option autoImplicit false

namespace Stylesheet

/-! ## From the text to the tree -/

/-- Settling a result may take its tree away, and nothing else of it but the errors. -/
theorem Parsed.settle_tree {r : Parsed Diagnostic} {tolerant : Bool} {tree : Node}
    (h : (r.settle tolerant).tree = some tree) :
    r.tree = some tree ∧ (r.settle tolerant).text = r.text := by
  unfold Parsed.settle at h ⊢
  split
  · rename_i hempty
    rw [if_pos hempty] at h
    exact ⟨h, rfl⟩
  · rename_i hempty
    rw [if_neg hempty] at h
    split
    · rename_i htolerant
      rw [if_pos htolerant] at h
      exact ⟨h, rfl⟩
    · rename_i htolerant
      rw [if_neg htolerant] at h
      cases h

namespace Language

variable {language : Language} {text : String} {path : Option Path} {input : OptionsInput}
  {c : Concrete} {p : Parsed Diagnostic} {s : Session}

/-- A text that is read has the numbered tree that its concrete tree makes. -/
theorem parseText_tree {grammar : String → Option Concrete} (hgrammar : grammar text = some c)
    {r : Parsed Diagnostic} (h : parseText grammar text path = .ok r) :
    ∃ tree, c.stylesheet (.ofText text) = .ok tree ∧ r.tree = some tree.numbered
      ∧ r.text = text := by
  rw [parseText, hgrammar] at h
  simp only at h
  split at h
  · cases h
  · rename_i tree comments hmade
    obtain rfl := Except.ok.inj h
    simp only [Made.bind_eq_ok, Made.pure_eq_ok] at hmade
    obtain ⟨tree', htree, comments', -, heq⟩ := hmade
    obtain ⟨rfl, rfl⟩ := Prod.mk.inj heq
    exact ⟨tree', htree, rfl, rfl⟩

theorem parse_eq_ok (hparse : language.parse text path input = .ok p) :
    ∃ options r, language.resolve input = .ok options
      ∧ parseText language.grammar text path = .ok r ∧ p = r.settle options.tolerant := by
  rw [parse] at hparse
  cases hresolve : language.resolve input with
  | error e =>
      rw [hresolve] at hparse
      cases hparse
  | ok options =>
      rw [hresolve] at hparse
      cases hr : parseText language.grammar text path with
      | error e =>
          rw [hr] at hparse
          cases hparse
      | ok r =>
          rw [hr] at hparse
          exact ⟨options, r, rfl, rfl, (Except.ok.inj hparse).symm⟩

/-- **The session for a text** has the numbered tree that the concrete tree of the text makes. -/
theorem ofParsed?_parse (hgrammar : language.grammar text = some c)
    (hparse : language.parse text path input = .ok p) (hs : Session.ofParsed? p = some s) :
    ∃ tree, c.stylesheet (.ofText text) = .ok tree ∧ s = .start text tree.numbered := by
  obtain ⟨root, hroot, rfl⟩ := Option.map_eq_some_iff.1 hs
  obtain ⟨options, r, -, hr, rfl⟩ := parse_eq_ok hparse
  obtain ⟨htree, htext⟩ := Parsed.settle_tree hroot
  obtain ⟨tree, hmade, hr', htext'⟩ := parseText_tree hgrammar hr
  obtain rfl := Option.some.inj (hr'.symm.trans htree)
  exact ⟨tree, hmade, by rw [htext, htext']⟩

/-- Before errors are settled there is a session for every text that was read, with the numbered
tree that the concrete tree of the text makes. -/
theorem ofParsed?_parseText {grammar : String → Option Concrete} {r : Parsed Diagnostic}
    (hgrammar : grammar text = some c) (hread : parseText grammar text path = .ok r) :
    ∃ tree, c.stylesheet (.ofText text) = .ok tree
      ∧ Session.ofParsed? r = some (.start text tree.numbered) := by
  obtain ⟨tree, hmade, htree, htext⟩ := parseText_tree hgrammar hread
  exact ⟨tree, hmade, by rw [Session.ofParsed?, htree, htext]; rfl⟩

/-- The tree that is read of a text for which the grammar gives one. -/
def treeOf? (c : Concrete) (text : String) : Option Node :=
  (parseText (fun _ => some c) text none).toOption.bind (·.tree)

theorem treeOf?_eq_some {c : Concrete} {text : String} {tree : Node}
    (h : treeOf? c text = some tree) :
    ∃ r, parseText (fun _ => some c) text none = .ok r ∧ r.tree = some tree := by
  obtain ⟨r, hr, htree⟩ := Option.bind_eq_some_iff.1 h
  exact ⟨r, eq_ok_of_toOption hr, htree⟩

end Language

/-! ## The numbered tree

What a concrete tree makes is shaped before it is numbered, and numbering changes neither kinds
nor groups. So every node of the numbered tree can be entered by a walk, and there is no comment
among them. -/

namespace Node

/-- A node that a walk can enter, and whose block can be searched if it is an at-rule. -/
def Enterable : Node → Prop
  | atrule _ _ prelude block =>
    (∀ p ∈ prelude, p.members?.isSome) ∧ ∀ b ∈ block, b.members?.isSome
  | comment .. => False
  | leaf .. | group .. | rule .. | declaration .. | attributeSelector .. => True

theorem members?_bare (n : Node) : n.bare.members? = n.members?.map (List.map bare) := by
  cases n with
  | group m g ns => rw [bare, bareAll_eq, members?, members?, Option.map_some]
  | _ =>
      rw [bare]
      rfl

theorem enterable_bare (n : Node) : n.bare.Enterable ↔ n.Enterable := by
  cases n with
  | atrule m a p b =>
      rw [bare, bareSome_eq, bareSome_eq]
      cases p <;> cases b <;> simp [Enterable, members?_bare]
  | _ =>
      rw [bare]
      rfl

theorem inert_bare (n : Node) : n.bare.Inert ↔ n.Inert := by
  cases n <;> rw [bare] <;> rfl

theorem Shaped.enterable {src : Source} {root : Concrete} {n : Node} (h : n.Shaped src root) :
    n.Enterable := by
  cases n with
  | atrule | comment => exact h
  | _ => trivial

theorem Inert.kind_ne {n : Node} (h : n.Inert) : n.kind ≠ .declaration := by
  cases n with
  | leaf m l => cases l <;> simp [kind, Leaf.kind]
  | group m g ns => cases g <;> simp [kind, Group.kind]
  | attributeSelector => simp [kind]
  | _ => exact h.elim

variable {n : Node}

theorem Everywhere.noComment (h : n.Everywhere Enterable) : n.NoComment := by
  intro m hm hkind
  obtain ⟨mark, text, rfl⟩ := exists_eq_comment hkind
  exact h _ hm

theorem Everywhere.preludesAreGroups (h : n.Everywhere Enterable) : n.PreludesAreGroups :=
  fun _ _ p _ hm => (h _ hm).1 p rfl

theorem Everywhere.blocksAreGroups (h : n.Everywhere Enterable) : n.BlocksAreGroups :=
  fun _ _ _ b hm => (h _ hm).2 b rfl

end Node

variable {src : Source} {c : Concrete} {tree : Node}

/-- **The numbered tree can be walked**: each of its nodes can be entered. -/
theorem numbered_enterable (h : c.stylesheet src = .ok tree) :
    tree.numbered.Everywhere Node.Enterable :=
  Node.everywhere_of_bare_eq Node.enterable_bare (Node.bare_numbered tree)
    ((Concrete.stylesheet_shaped h).imp fun _ => Node.Shaped.enterable)

/-- **A declaration of the numbered tree** was made from a node of the concrete tree: it has the
property that the node names and, but for identities, the value that the node declares. -/
theorem exists_declaration_numbered (h : c.stylesheet src = .ok tree) {d : Node}
    (hd : d ∈ tree.numbered.preorder) (hkind : d.kind = .declaration) :
    ∃ m b value made important, d = .declaration m (b.propertyName src) (some value) important
      ∧ b ∈ c.walk ∧ b.declaredValue src = .ok made ∧ value.bare = made.bare := by
  -- the node of the made tree that the declaration was before it was numbered
  obtain ⟨e, he, heq⟩ := Node.exists_bare_eq_of_mem_numbered hd
  have hkind' : e.kind = .declaration := by
    rw [← Node.kind_bare, heq, Node.kind_bare, hkind]
  obtain ⟨m, x, v, i, rfl⟩ := Node.exists_eq_declaration hkind
  obtain ⟨m', x', v', i', rfl⟩ := Node.exists_eq_declaration hkind'
  obtain ⟨b, hb, -, hmade⟩ := Concrete.stylesheet_shaped h _ he
  obtain ⟨made, hvalue, m'', -, hnode⟩ := Concrete.declarationNode_eq_ok.1 hmade
  obtain ⟨-, rfl, rfl, -⟩ := Node.declaration.inj hnode
  rw [Node.bare, Node.bare] at heq
  obtain ⟨-, rfl, hv, -⟩ := Node.declaration.inj heq
  rw [Node.bareSome_eq, Node.bareSome_eq, Option.map_some] at hv
  obtain ⟨value, rfl, hsame⟩ := Option.map_eq_some_iff.1 hv.symm
  exact ⟨m, b, value, made, i, rfl, hb, hvalue, hsame⟩

theorem declaration_numbered (h : c.stylesheet src = .ok tree) {d : Node}
    (hd : d ∈ tree.numbered.preorder) (hkind : d.kind = .declaration) :
    ∃ value made b, d.children = [value] ∧ d.held? = some (.node (some value))
      ∧ b ∈ c.walk ∧ b.declaredValue src = .ok made ∧ value.bare = made.bare := by
  obtain ⟨m, b, value, made, i, rfl, hb, hvalue, hsame⟩ := exists_declaration_numbered h hd hkind
  exact ⟨value, made, b, rfl, rfl, hb, hvalue, hsame⟩

end Stylesheet
