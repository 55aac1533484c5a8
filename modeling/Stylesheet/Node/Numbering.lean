/-
Giving the nodes of a tree their identities.

A tree that has just been made has no node in two places. Its nodes are numbered in
preorder, from a given number on.
-/
import Stylesheet.Node.Basic

set_option autoImplicit false

namespace Stylesheet.Node

mutual

/-- The tree with its nodes numbered from `next` on, and the number after the last. -/
def numberedFrom (next : Nat) : Node → Node × Nat
  | leaf m l => (leaf ⟨next, m.loc⟩ l, next + 1)
  | group m g ns =>
    let (ns, after) := numberedAll (next + 1) ns
    (group ⟨next, m.loc⟩ g ns, after)
  | rule m p b =>
    let (p, after) := numberedSome (next + 1) p
    let (b, after) := numberedSome after b
    (rule ⟨next, m.loc⟩ p b, after)
  | atrule m a p b =>
    let (p, after) := numberedSome (next + 1) p
    let (b, after) := numberedSome after b
    (atrule ⟨next, m.loc⟩ a p b, after)
  | declaration m p v i =>
    let (v, after) := numberedSome (next + 1) v
    (declaration ⟨next, m.loc⟩ p v i, after)
  | attributeSelector m n o v =>
    let (n, after) := numberedSome (next + 1) n
    let (v, after) := numberedSome after v
    (attributeSelector ⟨next, m.loc⟩ n o v, after)
  | comment m v => (comment ⟨next, m.loc⟩ v, next + 1)

/-- Several trees, numbered one after the other. -/
def numberedAll (next : Nat) : List Node → List Node × Nat
  | [] => ([], next)
  | n :: ns =>
    let (n, after) := numberedFrom next n
    let (ns, after) := numberedAll after ns
    (n :: ns, after)

/-- A tree that may be absent. -/
def numberedSome (next : Nat) : Option Node → Option Node × Nat
  | none => (none, next)
  | some n =>
    let (n, after) := numberedFrom next n
    (some n, after)

end

/-- The tree with its nodes numbered from zero on. -/
def numbered (n : Node) : Node := (numberedFrom 0 n).1

end Stylesheet.Node
