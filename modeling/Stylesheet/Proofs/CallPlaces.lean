/-
Calls stand in the value of their declaration, in the order of the text.

The members of a group of values are made from nodes that lie one behind the other, so the group is
tight, and so is all that stands below it. The calls of a declaration are collected from its whole
value, those in brackets and in the arguments of other calls included, and each of them lies in the
value. None begins before one that is collected earlier.

A substitution leaves a call alone that lies outside the text of the value. So this never comes up
for a declaration of a text that was read: the run that puts values in without looking where the
calls lie is the same run (`Substitution.ofValue_eq_anywhere`).
-/
import Stylesheet.Proofs.Nesting
import Stylesheet.Proofs.Substituted

set_option autoImplicit false

namespace Stylesheet

namespace Substitution

/-! ## Calls outside the text of a value -/

/-- A location begins before the text of a frame, or ends behind it. -/
def Frame.Excludes (frame : Frame) (loc : Location) : Prop :=
  loc.start.offset - frame.start < 0 ∨ (frame.length : Int) < loc.stop.offset - frame.start

instance (frame : Frame) (loc : Location) : Decidable (frame.Excludes loc) :=
  inferInstanceAs (Decidable (_ ∨ _))

/-- The text with a value put in at a location, wherever the location lies. -/
def Progress.cutIn (text : String) (frame : Frame) (p : Progress) (loc : Location)
    (value : Node) : Progress :=
  let new := (Text.strip (Session.nodeText text value 0 0)).toList
  let start := loc.start.offset - frame.start
  let stop := loc.stop.offset - frame.start
  let spliced := splice p.done.text.toList new (start + p.growth) (stop + p.growth)
  { done :=
      { p.done with
        text := String.ofList spliced
        offsets := Assoc.put p.done.offsets (start + p.growth) loc }
    growth := p.growth + (new.length - (stop - start)) }

/-- One more call, whose value is put in wherever the call lies. -/
def Progress.stepAnywhere (text : String) (w : Walk) (frame : Frame) (p : Progress)
    (reference : Node) : Except NodeError Progress := do
  let _ ← reference.membersOf
  match ← w.closest reference with
  | none => return p.giveUp reference
  | some value => return reference.loc.elim p fun loc => p.cutIn text frame loc value

variable {text : String} {frame : Frame} {reference value : Node} {loc : Location}

theorem putIn_eq (p : Progress) (hloc : reference.loc = some loc) :
    p.putIn text frame reference value
      = if frame.Excludes loc then p else p.cutIn text frame loc value := by
  unfold Progress.putIn
  rw [hloc]
  rfl

/-- A location in that of a value is not outside the text of the value. -/
theorem not_excludes_of_within {text : String} {value : Node} {own : Location}
    (hown : value.loc = some own) (hlo : 0 ≤ own.start.offset)
    (hhi : own.stop.offset ≤ text.toList.length) (hstart : own.start.offset ≤ loc.start.offset)
    (hstop : loc.stop.offset ≤ own.stop.offset) :
    ¬ Frame.Excludes ⟨(Session.nodeText text value 0 0).toList.length, own.start.offset⟩ loc := by
  have hlength := length_nodeText hown hlo hhi
  unfold Frame.Excludes
  simp only
  omega

/-- A step for a call in the text does not look where it lies. -/
theorem step_eq_anywhere {w : Walk} (p : Progress)
    (h : ∀ l, reference.loc = some l → ¬ frame.Excludes l) :
    p.step text w frame reference = p.stepAnywhere text w frame reference := by
  have hput : ∀ value : Node, p.putIn text frame reference value
      = reference.loc.elim p fun l => p.cutIn text frame l value := by
    intro value
    cases hloc : reference.loc with
    | none =>
        unfold Progress.putIn
        rw [hloc]
        rfl
    | some l =>
        rw [putIn_eq p hloc, if_neg (h l hloc)]
        rfl
  unfold Progress.step Progress.stepAnywhere
  apply bind_congr
  intro _
  apply bind_congr
  intro found
  cases found with
  | none => rfl
  | some value => exact congrArg pure (hput value)

/-- **A run over calls in the text** does not look where they lie. -/
theorem foldlM_step_eq_anywhere {w : Walk} {references : List Node}
    (h : ∀ u ∈ references, ∀ l, u.loc = some l → ¬ frame.Excludes l) (p : Progress) :
    references.foldlM (Progress.step text w frame) p
      = references.foldlM (Progress.stepAnywhere text w frame) p := by
  induction references generalizing p with
  | nil => rfl
  | cons u references ih =>
      rw [List.foldlM_cons, List.foldlM_cons, step_eq_anywhere p (h u List.mem_cons_self)]
      apply bind_congr
      intro next
      exact ih (fun v hv => h v (List.mem_cons_of_mem u hv)) next

/-- **The substitution of a value** whose calls lie in its text does not look where they lie. -/
theorem ofValue_eq_anywhere {w : Walk} {references : List Node} (hloc : value.loc = some loc)
    (h : ∀ u ∈ references, ∀ l, u.loc = some l →
      ¬ Frame.Excludes ⟨(Session.nodeText text value 0 0).toList.length, loc.start.offset⟩ l) :
    ofValue text w value references
      = (references.foldlM (Progress.stepAnywhere text w
          ⟨(Session.nodeText text value 0 0).toList.length, loc.start.offset⟩)
          ⟨unchanged (Session.nodeText text value 0 0), 0⟩).map (·.done) := by
  rw [ofValue, hloc]
  simp only [foldlM_step_eq_anywhere h]

end Substitution

/-! ## Texts that were read -/

namespace Session

open Substitution

variable {grammar : String → Option Concrete} {text : String} {path : Option Path} {c : Concrete}
  {r : Parsed Diagnostic}

/-- **Calls stand in the value of their declaration.** In the tree of a text that was read the
members of every group of values lie in it, one behind the other. The calls of a declaration lie in
its value, in the order of their starts, and none of them is outside the text of the value when the
substitution gets to it: with or without that question the substitution is the same. -/
theorem calls_stand_in_value (hgrammar : grammar text = some c)
    (hnest : c.WellNested (Text.Utf8.encode text.toList).length)
    (hread : Language.parseText grammar text path = .ok r) :
    ∃ s w, ofParsed? r = some s ∧ Walk.ofTree s.root = .ok w
      ∧ (∀ m g ns, .group m g ns ∈ s.root.preorder → g.holdsValues = true →
          (Node.group m g ns).Tight)
      ∧ ∀ d ∈ s.root.preorder, d.kind = .declaration →
          ∃ value loc calls, d.held? = some (.node (some value)) ∧ value.loc = some loc
            ∧ (s.ask (·.callsIn d)).1 = .ok calls
            ∧ (∀ u ∈ calls, u.Within loc.start.offset loc.stop.offset)
            ∧ calls.Pairwise Node.StartsNoLater
            ∧ (∀ u ∈ calls, ∀ l, u.loc = some l →
                ¬ Frame.Excludes ⟨(s.textOf value).toList.length, loc.start.offset⟩ l)
            ∧ (s.substituteIn d).1
              = (calls.foldlM (Progress.stepAnywhere s.text w
                  ⟨(s.textOf value).toList.length, loc.start.offset⟩)
                  ⟨unchanged (s.textOf value), 0⟩).map (·.done) := by
  obtain ⟨tree, hmade, hsession⟩ := Language.ofParsed?_parseText hgrammar hread
  have henter := numbered_enterable hmade
  have hwalk := Walk.ofTree_of_noComment henter.noComment henter.preludesAreGroups
  refine ⟨_, _, hsession, hwalk, ?_, ?_⟩
  · intro m g ns hmem hg
    obtain ⟨e, he, hbare⟩ := Node.exists_bare_eq_of_mem_numbered hmem
    obtain ⟨m', ns', rfl, -, -⟩ := Node.bare_eq_group hbare
    have htight := (Concrete.stylesheet_origin hmade _ he).tight_of_holdsValues hnest hg
    rw [← Node.tight_bare, ← hbare, Node.tight_bare]
    exact htight
  · intro d hd hkind
    obtain ⟨value, loc, hheld, hloc, hlo, hhi, htight, -, hcalls⟩ :=
      declaration_calls hnest hmade hd hkind
    obtain ⟨hwithin, hstarts⟩ := Node.starts_of_orderly
      (htight.imp fun n (h : n.Tight) => (h.orderly : n.Orderly Node.isVar))
      ⟨loc, hloc, Int.le_refl _, Int.le_refl _⟩
    have hin : ∀ u ∈ value.preorder.filter Node.isVar, ∀ l, u.loc = some l →
        ¬ Frame.Excludes ⟨(nodeText text value 0 0).toList.length, loc.start.offset⟩ l := by
      intro u hu l hl
      obtain ⟨l', hl', hstart, hstop⟩ := hwithin u hu
      obtain rfl := Option.some.inj (hl.symm.trans hl')
      exact not_excludes_of_within hloc hlo hhi hstart hstop
    have hgroup : ∀ u ∈ value.preorder.filter Node.isVar, u.members?.isSome := by
      intro u hu
      exact Node.isVar.members?_isSome (List.mem_filter.1 hu).2
    rw [← hcalls] at hwithin hstarts hin hgroup
    refine ⟨value, loc, _, hheld, hloc, ?_, hwithin, hstarts, hin, ?_⟩
    · rw [ask, tryAsk_start_of_ok hwalk]
    · rw [substituteIn_eq_ofValue (start_settled text tree.numbered) hwalk hheld hloc hgroup]
      exact ofValue_eq_anywhere hloc hin

section BracketedCall

/-- The text of a rule with a call in brackets in another call. -/
private def bracketedText : String := "a\x7bb:var(--x [var(--y)]);\x7d"

/-- A call of `var` on a range, with what stands in its brackets. -/
private def bracketedCall (start stop : Int) (arguments : List Concrete) : Concrete :=
  .node "call_expression" start stop true false
    [.node "function_name" start (start + 3) true false [],
      .node "arguments" (start + 3) stop true false
        (.node "(" (start + 3) (start + 4) false false []
          :: arguments ++ [.node ")" (stop - 1) stop false false []])]

/-- The concrete tree of that rule. -/
private def bracketedTree : Concrete :=
  .node "stylesheet" 0 25 true false [.node "rule_set" 0 25 true false
    [.node "selectors" 0 1 true false [.node "tag_name" 0 1 true false []],
      .node "block" 1 25 true false
        [.node "\x7b" 1 2 false false [],
          .node "declaration" 2 24 true false
            [.node "property_name" 2 3 true false [], .node ":" 3 4 false false [],
              bracketedCall 4 23
                [.node "plain_value" 8 11 true false [],
                  .node "grid_value" 12 22 true false
                    [.node "[" 12 13 false false [],
                      bracketedCall 13 21 [.node "plain_value" 17 20 true false []],
                      .node "]" 21 22 false false []]],
              .node ";" 23 24 false false []],
          .node "\x7d" 24 25 false false []]]]

/-- The call in brackets is collected behind the call around it. Both lie in the value. -/
theorem calls_stand_in_bracketedValue :
    bracketedTree.WellNested (Text.Utf8.encode bracketedText.toList).length
      ∧ ∃ r s d value loc calls,
        Language.parseText (fun _ => some bracketedTree) bracketedText none = .ok r
        ∧ ofParsed? r = some s ∧ d ∈ s.root.preorder ∧ d.kind = .declaration
        ∧ d.held? = some (.node (some value)) ∧ value.loc = some loc
        ∧ (s.ask (·.callsIn d)).1 = .ok calls
        ∧ calls.map Node.range? = [some (4, 23), some (13, 21)]
        ∧ (∀ u ∈ calls, u.Within loc.start.offset loc.stop.offset)
        ∧ calls.Pairwise Node.StartsNoLater
        ∧ ∀ u ∈ calls, ∀ l, u.loc = some l →
            ¬ Frame.Excludes ⟨(s.textOf value).toList.length, loc.start.offset⟩ l := by
  have hnest : bracketedTree.WellNested (Text.Utf8.encode bracketedText.toList).length := by
    decide +kernel
  have hrun : (Language.parseText (fun _ => some bracketedTree) bracketedText none).toOption.bind
      (fun r => (ofParsed? r).map fun s =>
        (s.root.preorder.filter fun n => n.kind = .declaration).map fun d =>
          ((s.ask (·.callsIn d)).1.toOption.getD []).map Node.range?)
      = some [[some (4, 23), some (13, 21)]] := by
    decide +kernel
  obtain ⟨r, hr, hfound⟩ := Option.bind_eq_some_iff.1 hrun
  have hread := eq_ok_of_toOption hr
  obtain ⟨s, w, hs, -, -, hcalls⟩ := calls_stand_in_value rfl hnest hread
  rw [hs] at hfound
  obtain ⟨d, rest, hd, hranges, -⟩ := List.map_eq_cons_iff.1 (Option.some.inj hfound)
  have hmem : d ∈ s.root.preorder.filter fun n => n.kind = .declaration :=
    hd ▸ List.mem_cons_self
  obtain ⟨hmem, hkind⟩ := List.mem_filter.1 hmem
  have hkind : d.kind = .declaration := of_decide_eq_true hkind
  obtain ⟨value, loc, calls, hheld, hloc, hask, hwithin, hstarts, hin, -⟩ := hcalls d hmem hkind
  rw [hask] at hranges
  exact ⟨hnest, r, s, d, value, loc, calls, hread, hs, hmem, hkind, hheld, hloc, hask,
    hranges, hwithin, hstarts, hin⟩

end BracketedCall

end Session

end Stylesheet
