/-
Sessions: a text with its tree, and what has been kept of the walk through it.

The walk is made by the first question that needs it. Its steps and its three tables are kept
for all later questions, which read the tables without walking again. A tree that cannot be
walked is walked in vain by each question, and nothing is kept of it.
-/
import Stylesheet.Parsed
import Stylesheet.Session.Resolution
import Stylesheet.Text.Slice

set_option autoImplicit false

namespace Stylesheet

/-- A text with its tree, and what is kept of the walk through the tree. -/
structure Session where
  text : String
  root : Node
  /-- The steps of the walk, once it has been made. -/
  steps? : Option (List Step)
  /-- The parent below which each node was entered first. -/
  parents : Assoc Nat Node
  /-- The uses of each custom property. -/
  properties : Assoc String Uses
  /-- The calls of `var` in each declaration. -/
  calls : Assoc Nat (List Node)

namespace Session

/-- A session in which nothing has been asked. -/
def start (text : String) (root : Node) : Session := ⟨text, root, none, [], [], []⟩

/-- The session for a result of reading. A result without a tree has none. -/
def ofParsed? {ε : Type} (r : Parsed ε) : Option Session :=
  r.tree.map (start r.text)

/-- What is said of a result that has no session. -/
def noSessionMessage : String := "Cannot create source code from a failed parse"

/-! ## Text -/

/-- The characters of the text around a location: so many more before and after it. -/
def textAt (text : String) (loc : Location) (before after : Int) : String :=
  String.ofList (slice text.toList (max (loc.start.offset - before) 0) (loc.stop.offset + after))

/-- The text of a node with so many more characters before and after it. Text that was kept
as it is has its own, even without a location. -/
def nodeText (text : String) (n : Node) (before after : Int) : String :=
  match n.loc with
  | some loc => textAt text loc before after
  | none =>
    match n with
    | .leaf _ (.raw value) => value
    | _ => ""

/-- The text of a node. -/
def textOf (s : Session) (n : Node) : String :=
  nodeText s.text n 0 0

/-! ## Questions -/

/-- The session with a walk kept: its steps, and the tables made on it. -/
def keep (s : Session) (w : Walk) : Session :=
  { s with steps? := some w.steps, parents := w.parents, properties := w.properties,
           calls := w.calls }

/-- The steps of the walk, which is made now if it has not been made before. -/
def traverse (s : Session) : Except NodeError (List Step) × Session :=
  match s.steps? with
  | some steps => (.ok steps, s)
  | none =>
    match Walk.ofTree s.root with
    | .ok w => (.ok w.steps, s.keep w)
    | .error e => (.error e, s)

/-- A question to the walk that may have no answer. It is asked of the tables that are kept. -/
def tryAsk {α : Type} (s : Session) (question : Walk → Except NodeError α) :
    Except NodeError α × Session :=
  let (steps, s) := s.traverse
  (steps.bind fun steps => question ⟨steps, s.parents, s.properties, s.calls⟩, s)

/-- A question to the walk. -/
def ask {α : Type} (s : Session) (question : Walk → α) : Except NodeError α × Session :=
  s.tryAsk fun w => .ok (question w)

/-- Whether the steps at two places of the walk are the same, if there are such steps. -/
def stepsSame (s : Session) (a b : Int) : Except NodeError (Option Bool) × Session :=
  s.ask fun w =>
    match memberAt? w.steps a, memberAt? w.steps b with
    | some x, some y => some (x.same y)
    | _, _ => none

/-- The nodes that the walk enters and that satisfy the test, each once. -/
def enteredOnce (test : Node → Bool) (w : Walk) : List Node :=
  ((Walk.entered w.steps).foldl (fun found n =>
    if test n && !found.any (·.id == n.id) then n :: found else found) []).reverse

/-- A question about each call of `var` that the walk enters, with the call beside each
answer. -/
def askCalls {α : Type} (s : Session) (question : Walk → Node → Except NodeError α) :
    Except NodeError (List (Node × α)) × Session :=
  s.tryAsk fun w => (enteredOnce Node.isVar w).mapM fun call => (question w call).map (call, ·)

/-- The declarations that the walk enters, each once. -/
def declarations (s : Session) : Except NodeError (List Node) × Session :=
  s.ask (enteredOnce fun n => n.kind = .declaration)

end Session

end Stylesheet
