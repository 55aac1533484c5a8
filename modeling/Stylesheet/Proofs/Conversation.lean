/-
A conversation with a session: no question is answered differently for those before it.

A session keeps four things of a walk: its steps, and three tables. Each of them could be filled
without the others, and a question that found only some of them would read empty tables. That
does not happen: at every point of a conversation a session is either as it was made, or it
keeps the whole of the one walk that its tree has (`Settled`). One question keeps that
(`tryAsk_settled`), so a whole conversation does, and a settled session answers like a new one
(`tryAsk_eq_start`).

A tree with a comment has no walk. Its sessions stay as they were made.
-/
import Stylesheet.Proofs.Ancestry
import Stylesheet.Session.Question

set_option autoImplicit false

namespace Stylesheet

namespace Session

/-! ## Settled sessions

A session just made is settled, and so is every session after a question. Whether it has kept a
walk can therefore be forgotten: it answers by the walk of its tree, if that has one, and else
with the reason why not. -/

/-- A session is as it was made, or keeps the whole of the walk of its tree. -/
def Settled (s : Session) : Prop :=
  s = start s.text s.root ∨ ∃ w, Walk.ofTree s.root = .ok w ∧ s = (start s.text s.root).keep w

/-- The session as a question leaves it that is asked of a session just made. -/
def touched (text : String) (root : Node) : Session :=
  match Walk.ofTree root with
  | .ok w => (start text root).keep w
  | .error _ => start text root

theorem start_settled (text : String) (root : Node) : (start text root).Settled := .inl rfl

theorem touched_settled (text : String) (root : Node) : (touched text root).Settled := by
  rw [touched]
  cases h : Walk.ofTree root with
  | ok w => exact .inr ⟨w, h, rfl⟩
  | error e => exact start_settled text root

variable {α : Type}

theorem tryAsk_start_of_ok {root : Node} {w : Walk} (h : Walk.ofTree root = .ok w)
    (text : String) (question : Walk → Except NodeError α) :
    (start text root).tryAsk question = (question w, (start text root).keep w) := by
  rw [tryAsk, traverse]
  simp only [start, h]
  rfl

theorem tryAsk_start_of_error {root : Node} {e : NodeError} (h : Walk.ofTree root = .error e)
    (text : String) (question : Walk → Except NodeError α) :
    (start text root).tryAsk question = (.error e, start text root) := by
  rw [tryAsk, traverse]
  simp only [start, h]
  rfl

theorem tryAsk_start_snd (text : String) (root : Node) (question : Walk → Except NodeError α) :
    ((start text root).tryAsk question).2 = touched text root := by
  rw [touched]
  cases h : Walk.ofTree root with
  | ok w => rw [tryAsk_start_of_ok h]
  | error e => rw [tryAsk_start_of_error h]

/-- **One question.** A settled session answers like one just made, and is left like one. -/
theorem tryAsk_eq_start {s : Session} (hs : s.Settled) (question : Walk → Except NodeError α) :
    s.tryAsk question = (start s.text s.root).tryAsk question := by
  rcases hs with hs | ⟨w, hw, hs⟩
  · rw [← hs]
  · rw [tryAsk_start_of_ok hw, hs]
    rfl

theorem tryAsk_of_settled {s : Session} {w : Walk} (hs : s.Settled)
    (hwalk : Walk.ofTree s.root = .ok w) (question : Walk → Except NodeError α) :
    s.tryAsk question = (question w, (start s.text s.root).keep w) := by
  rw [tryAsk_eq_start hs, tryAsk_start_of_ok hwalk]

theorem tryAsk_settled {s : Session} (hs : s.Settled) (question : Walk → Except NodeError α) :
    (s.tryAsk question).2.Settled := by
  rw [tryAsk_eq_start hs, tryAsk_start_snd]
  exact touched_settled s.text s.root

theorem tryAsk_text_root (s : Session) (question : Walk → Except NodeError α) :
    (s.tryAsk question).2.text = s.text ∧ (s.tryAsk question).2.root = s.root := by
  rw [tryAsk, traverse]
  cases s.steps? with
  | some steps => exact ⟨rfl, rfl⟩
  | none => cases Walk.ofTree s.root <;> exact ⟨rfl, rfl⟩

/-! ## Sessions that tell the steps -/

theorem answer_traverse_of_noObstacle {root : Node}
    (h : ∀ n ∈ root.preorder, Walk.obstacle? n = none) (text : String) :
    ((start text root).answer .traverse).1 = .ok (.steps (root.steps none)) := by
  rw [answer, tryAsk_start_of_ok (Walk.ofTree_eq_ok_iff.2 ⟨h, rfl⟩)]
  rfl

/-- A session that tells the steps answers all questions by the walk of its tree, and the nodes
that the steps enter are those of the tree. -/
theorem answer_of_traverse {text : String} {root : Node} {steps : List Step}
    (h : ((start text root).answer .traverse).1 = .ok (.steps steps)) :
    Walk.entered steps = root.preorder
      ∧ ∀ q : Question,
        ((start text root).answer q).1 = q.answer (.ofSteps (root.steps none)) := by
  cases hw : Walk.ofTree root with
  | error e =>
      rw [answer, tryAsk_start_of_error hw] at h
      cases h
  | ok w =>
      obtain ⟨hnone, rfl⟩ := Walk.ofTree_eq_ok_iff.1 hw
      rw [answer_traverse_of_noObstacle hnone] at h
      obtain ⟨rfl⟩ := h
      refine ⟨Node.entered_steps none root, fun q => ?_⟩
      rw [answer, tryAsk_start_of_ok hw]

/-! ## Conversations -/

/-- **A whole conversation.** Each question is answered as it is by a session just made, and the
session that is left is settled. -/
theorem answers_of_settled {s : Session} (hs : s.Settled) (qs : List Question) :
    (s.answers qs).1 = qs.map (fun q => ((start s.text s.root).answer q).1)
      ∧ (s.answers qs).2.Settled := by
  induction qs generalizing s with
  | nil => exact ⟨rfl, hs⟩
  | cons q qs ih =>
      -- the rest is a conversation with the session as the first question leaves it
      obtain ⟨htext, hroot⟩ := tryAsk_text_root s q.answer
      obtain ⟨hrest, hlast⟩ := ih (tryAsk_settled hs q.answer)
      have hfirst : (s.answer q).1 = ((start s.text s.root).answer q).1 :=
        congrArg Prod.fst (tryAsk_eq_start hs q.answer)
      rw [htext, hroot] at hrest
      refine ⟨?_, hlast⟩
      rw [List.map_cons, ← hfirst, ← hrest]
      rfl

theorem answers_text_root (s : Session) (qs : List Question) :
    (s.answers qs).2.text = s.text ∧ (s.answers qs).2.root = s.root := by
  induction qs generalizing s with
  | nil => exact ⟨rfl, rfl⟩
  | cons q qs ih =>
      obtain ⟨htext, hroot⟩ := tryAsk_text_root s q.answer
      obtain ⟨htext', hroot'⟩ := ih (s.answer q).2
      exact ⟨htext'.trans htext, hroot'.trans hroot⟩

/-- A conversation about a tree without a walk ends where it began, and each answer is the
reason why there is none. -/
theorem answers_of_error {root : Node} {e : NodeError} (h : Walk.ofTree root = .error e)
    (text : String) (qs : List Question) :
    (start text root).answers qs = (qs.map fun _ => .error e, start text root) := by
  induction qs with
  | nil => rfl
  | cons q qs ih =>
      have hq : (start text root).answer q = (.error e, start text root) :=
        tryAsk_start_of_error h text q.answer
      rw [answers, hq]
      simp only [ih, List.map_cons]

/-! ## Trees with a comment -/

/-- A tree with a node that has no layout has no walk. Where all preludes are groups, the reason
is the shape of a comment. -/
theorem ofTree_eq_error {root : Node} (h : ∃ n ∈ root.preorder, n.kind.layout? = none) :
    ∃ e, Walk.ofTree root = .error e
      ∧ (root.PreludesAreGroups → e = .shape .comment) := by
  obtain ⟨n, hn, hkind⟩ := h
  rw [Kind.layout?_eq_none_iff] at hkind
  rw [Walk.ofTree]
  cases hfind : root.preorder.findSome? Walk.obstacle? with
  | none =>
      have hnone := List.findSome?_eq_none_iff.1 hfind n hn
      rw [Walk.obstacle?_of_comment hkind] at hnone
      cases hnone
  | some e =>
      -- the first obstacle need not be that node, but among groups it is some comment
      refine ⟨e, rfl, fun hp => ?_⟩
      obtain ⟨o, ho, hobstacle⟩ := List.exists_of_findSome?_eq_some hfind
      by_cases hcomment : o.kind = .comment
      · rw [Walk.obstacle?_of_comment hcomment] at hobstacle
        exact (Option.some.inj hobstacle).symm
      · rw [Walk.obstacle?_of_preludesAreGroups hp ho hcomment] at hobstacle
        cases hobstacle

/-- **Questions do not disturb each other.** In every conversation each question is answered
exactly as by a session just made. If a node without a layout stands in the tree, every question
is answered with the same error, which is the shape of a comment where the preludes of at-rules
are groups, and the session is left with nothing kept, as it was made. -/
theorem answers_eq_fresh (text : String) (root : Node) (qs : List Question) :
    ((start text root).answers qs).1 = qs.map (fun q => ((start text root).answer q).1)
      ∧ ((∃ n ∈ root.preorder, n.kind.layout? = none) →
          ((start text root).answers qs).2 = start text root
            ∧ ∃ e, (∀ a ∈ ((start text root).answers qs).1, a = .error e)
              ∧ (root.PreludesAreGroups → e = .shape .comment)) := by
  refine ⟨(answers_of_settled (start_settled text root) qs).1, fun h => ?_⟩
  obtain ⟨e, he, hshape⟩ := ofTree_eq_error h
  rw [answers_of_error he]
  refine ⟨rfl, e, fun a ha => ?_, hshape⟩
  obtain ⟨q, -, rfl⟩ := List.mem_map.1 ha
  rfl

/-- A stylesheet in which a comment stands between two rules. -/
private def commented : Node :=
  .group ⟨0, none⟩ .stylesheet [.rule ⟨1, none⟩ none none, .comment ⟨2, none⟩ "a",
    .rule ⟨3, none⟩ none none]

/-- Whatever is asked about it, in whatever order, the answer is the shape of the comment. -/
theorem answers_commented :
    (∃ n ∈ commented.preorder, n.kind.layout? = none) ∧ commented.PreludesAreGroups
      ∧ (∀ a ∈ ((start "" commented).answers [.parent commented, .names, .traverse]).1,
          a = .error (.shape .comment))
      ∧ ((start "" commented).answers [.parent commented, .names, .traverse]).2
        = start "" commented := by
  have hcomment : ∃ n ∈ commented.preorder, n.kind.layout? = none := by decide +kernel
  have hatrule : ∀ n ∈ commented.preorder, n.kind ≠ .atrule := by decide +kernel
  have hp : commented.PreludesAreGroups := Node.preludesAreGroups_of_noAtrule hatrule
  obtain ⟨-, hall⟩ := answers_eq_fresh "" commented [.parent commented, .names, .traverse]
  obtain ⟨hsession, e, he, hshape⟩ := hall hcomment
  rw [hshape hp] at he
  exact ⟨hcomment, hp, he, hsession⟩

end Session

end Stylesheet
