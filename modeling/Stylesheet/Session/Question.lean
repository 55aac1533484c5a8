/-
The questions that a session answers, and their answers.

Each question is about the walk. A conversation asks one question after the other, each of the
session as the one before it left it.
-/
import Stylesheet.Session.Basic

set_option autoImplicit false

namespace Stylesheet

/-- A question to a session. -/
inductive Question where
  /-- The steps of the walk. -/
  | traverse
  /-- The parent of a node. -/
  | parent (n : Node)
  /-- The ancestors of a node, from the root down. -/
  | ancestors (n : Node)
  /-- The uses of a custom property. -/
  | uses (name : String)
  /-- The names of the custom properties that are used. -/
  | names
  /-- The calls of `var` in a declaration. -/
  | calls (declaration : Node)
  /-- The initial value of a property. -/
  | initialValue (name : String)
  /-- The closest value of a call. -/
  | closest (reference : Node)
  /-- The closest value of a property by its name. -/
  | closestByName (name : String)
  /-- All values of a call. -/
  | values (reference : Node)

/-- What a question is answered with. -/
inductive Answer where
  | steps (steps : List Step)
  | parent (parent : Option Node)
  | nodes (nodes : List Node)
  | uses (uses : Option Uses)
  | names (names : List String)
  | value (value : Option Node)
  | values (values : List (Option Node))

/-- The answer of a walk to a question. -/
def Question.answer (q : Question) (w : Walk) : Except NodeError Answer :=
  match q with
  | traverse => .ok (.steps w.steps)
  | parent n => .ok (.parent (w.parent? n))
  | ancestors n => .ok (.nodes (w.ancestors n))
  | uses name => .ok (.uses (w.uses? name))
  | names => .ok (.names w.names)
  | calls declaration => .ok (.nodes (w.callsIn declaration))
  | initialValue name => (w.initialValue name).map .value
  | closest reference => (w.closest reference).map .value
  | closestByName name => (w.closestByName name).map .value
  | values reference => (w.values reference).map .values

namespace Session

/-- The answer to a question, and the session after it. -/
def answer (s : Session) (q : Question) : Except NodeError Answer × Session :=
  s.tryAsk q.answer

/-- The answers to several questions, and the session after them. A question without an answer
does not end the conversation. -/
def answers (s : Session) : List Question → List (Except NodeError Answer) × Session
  | [] => ([], s)
  | q :: qs =>
    let (first, s) := s.answer q
    let (rest, s) := s.answers qs
    (first :: rest, s)

end Session

end Stylesheet
