/-
Putting the closest values of calls into the text of a value.

The calls are taken one after the other, in the order given. The text of each is replaced
by that of its closest value without blanks at its ends, and the difference in length is
added to the offsets of all that come after. A call without a closest value stays, and the
name it refers to is listed. A call without a location stays, and so does one that lies
outside the value. What is given for a call has to be a group, since its name is read from its
members.
-/
import Stylesheet.Session.Basic
import Stylesheet.Text.Blank

set_option autoImplicit false

namespace Stylesheet

/-- A text with values put in. -/
structure Substitution where
  text : String
  /-- The offset at which each value was put in, with the location of the call it is for. -/
  offsets : Assoc Int Location
  /-- The names that calls without a closest value refer to. -/
  unknown : List String

namespace Substitution

/-- A text with nothing put in. -/
def unchanged (text : String) : Substitution := ⟨text, [], []⟩

/-- Whether anything was put in. -/
def substituted (s : Substitution) : Bool := !s.offsets.isEmpty

/-- The location of the call whose value was put in at an offset. -/
def locationAt (s : Substitution) (offset : Int) : Option Location :=
  Assoc.get? s.offsets offset

/-- The text with another put in between two offsets. -/
def splice (text new : List Char) (start stop : Int) : List Char :=
  slice text 0 start ++ (new ++ slice text stop text.length)

/-- A substitution that goes on: what has been made of the text, and by how much it has
grown. -/
structure Progress where
  done : Substitution
  growth : Int

/-- What every step needs to know of the value: its text as it was, and where it starts. -/
structure Frame where
  length : Nat
  start : Int

/-- The text with a value put in for a call that has a closest one. -/
def Progress.putIn (text : String) (frame : Frame) (p : Progress) (reference value : Node) :
    Progress :=
  match reference.loc with
  | none => p
  | some loc =>
    let new := (Text.strip (Session.nodeText text value 0 0)).toList
    let start := loc.start.offset - frame.start
    let stop := loc.stop.offset - frame.start
    if start < 0 ∨ (frame.length : Int) < stop then p
    else
      let spliced := splice p.done.text.toList new (start + p.growth) (stop + p.growth)
      { done :=
          { p.done with
            text := String.ofList spliced
            offsets := Assoc.put p.done.offsets (start + p.growth) loc }
        growth := p.growth + (new.length - (stop - start)) }

/-- The call listed as one without a closest value. -/
def Progress.giveUp (p : Progress) (reference : Node) : Progress :=
  let name := reference.referredName?.getD ""
  { p with done := { p.done with unknown := p.done.unknown ++ [name] } }

/-- One more call. -/
def Progress.step (text : String) (w : Walk) (frame : Frame) (p : Progress) (reference : Node) :
    Except NodeError Progress := do
  let _ ← reference.membersOf
  match ← w.closest reference with
  | none => return p.giveUp reference
  | some value => return p.putIn text frame reference value

/-- The text of a value with the closest values of calls put in. -/
def ofValue (text : String) (w : Walk) (value : Node) (references : List Node) :
    Except NodeError Substitution :=
  let own := Session.nodeText text value 0 0
  match value.loc with
  | none => .ok (unchanged own)
  | some loc =>
    let frame : Frame := ⟨own.toList.length, loc.start.offset⟩
    (references.foldlM (Progress.step text w frame) ⟨unchanged own, 0⟩).map (·.done)

end Substitution

namespace Session

/-- The text of a value with the closest values of calls put in. The walk is needed only if
the value has a location and there are calls, the first of which is looked at before. -/
def substitute (s : Session) (value : Node) (references : List Node) :
    Except NodeError Substitution × Session :=
  match value.loc, references with
  | some _, first :: _ =>
    match first.membersOf with
    | .ok _ => s.tryAsk fun w => Substitution.ofValue s.text w value references
    | .error e => (.error e, s)
  | _, _ => (.ok (.unchanged (s.textOf value)), s)

/-- The text of what a node has for a value, with the closest values of the calls in it put
in. Where the value is missing, the whole text stands for it. -/
def substituteIn (s : Session) (n : Node) : Except NodeError Substitution × Session :=
  match n.held? with
  | none => (.error .noValue, s)
  | some held =>
    match s.ask fun w => w.callsIn n with
    | (.error e, s) => (.error e, s)
    | (.ok references, s) =>
      match held with
      | .node (some value) => s.substitute value references
      | .node none => (.ok (.unchanged s.text), s)
      | .text _ => (.error .noValue, s)

/-- The substitutions of several nodes, with the node beside each. -/
def substituteInAll (s : Session) :
    List Node → Except NodeError (List (Node × Substitution)) × Session
  | [] => (.ok [], s)
  | n :: ns =>
    match s.substituteIn n with
    | (.error e, s) => (.error e, s)
    | (.ok done, s) =>
      match s.substituteInAll ns with
      | (.error e, s) => (.error e, s)
      | (.ok rest, s) => (.ok ((n, done) :: rest), s)

/-- The substitution of every declaration that the walk enters. -/
def substituteEach (s : Session) : Except NodeError (List (Node × Substitution)) × Session :=
  match s.declarations with
  | (.ok ns, s) => s.substituteInAll ns
  | (.error e, s) => (.error e, s)

end Session

end Stylesheet
