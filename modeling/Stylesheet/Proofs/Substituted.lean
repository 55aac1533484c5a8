/-
Substituting in the declarations of a text that was read.

The calls of a declaration are found in the text, so they lie in the value, and none begins before
the end of an earlier one unless it stands in it. What is put in is therefore a plain splice as
long as no call that is replaced stands in another that is replaced. Then each recorded offset is
one at which the text put in for the recorded call begins, and whatever was not replaced is still
there.

A call among the arguments of another, not separated by a comma, is a call of the same
declaration, and both are replaced. The second is then cut into what has been put in for the
first, at an offset that may lie before the text (`substituteIn_callInCall`).
-/
import Stylesheet.Proofs.Calls
import Stylesheet.Proofs.Candidates
import Stylesheet.Proofs.ParsedTree
import Stylesheet.Proofs.Splice
import Stylesheet.Proofs.WellNested

set_option autoImplicit false

namespace Stylesheet

/-! ## The calls of a declaration -/

section Declaration

variable {text : String} {c : Concrete} {tree d : Node}

/-- The calls of a declaration of the numbered tree are those in the value that was made for it, in
preorder. -/
theorem callsIn_numbered {src : Source} (htree : c.stylesheet src = .ok tree)
    (hd : d ∈ tree.numbered.preorder) (hkind : d.kind = .declaration) :
    ∃ m b value made important, d = .declaration m (b.propertyName src) (some value) important
      ∧ b ∈ c.walk ∧ b.declaredValue src = .ok made ∧ value.bare = made.bare
      ∧ (∀ n ∈ value.preorder, n ∈ tree.numbered.preorder)
      ∧ (Walk.ofSteps (tree.numbered.steps none)).callsIn d = value.preorder.filter Node.isVar := by
  obtain ⟨m, b, value, made, important, rfl, hb, hmade, hbare⟩ :=
    exists_declaration_numbered htree hd hkind
  have hinert : value.Everywhere Node.Inert :=
    Node.everywhere_of_bare_eq Node.inert_bare hbare (Concrete.declaredValue_inert hmade)
  have hchild : value ∈ (Node.declaration m (b.propertyName src) (some value) important).children :=
    List.mem_singleton_self value
  refine ⟨m, b, value, made, important, rfl, hb, hmade, hbare, ?_, ?_⟩
  · exact Node.preorder_subset (Node.mem_preorder_of_mem_children hd hchild)
  · rw [Walk.callsIn_ofSteps (Node.numbered_distinct tree).identified hd hkind, Node.ownCalls]
    show [value].flatMap Node.looseCalls = _
    rw [List.flatMap_singleton]
    exact Node.looseCalls_eq_filter fun n hn => (hinert n hn).kind_ne

/-- What is known of a declaration of a text that was read: its value lies in the text and is
tight, and its calls are those in the value, in preorder. -/
theorem declaration_calls (hnest : c.WellNested (Text.Utf8.encode text.toList).length)
    (htree : c.stylesheet (.ofText text) = .ok tree) (hd : d ∈ tree.numbered.preorder)
    (hkind : d.kind = .declaration) :
    ∃ value loc, d.held? = some (.node (some value)) ∧ value.loc = some loc
      ∧ 0 ≤ loc.start.offset ∧ loc.stop.offset ≤ text.toList.length
      ∧ value.Everywhere Node.Tight ∧ (∀ m ∈ value.preorder, m ∈ tree.numbered.preorder)
      ∧ (Walk.ofSteps (tree.numbered.steps none)).callsIn d = value.preorder.filter Node.isVar := by
  obtain ⟨m, b, value, made, important, rfl, hb, hmade, hbare, hsub, hcalls⟩ :=
    callsIn_numbered htree hd hkind
  -- what was made lies in its declaration, and being numbered has not moved it
  obtain ⟨⟨hwithin, -⟩, htight⟩ := Concrete.laid_declaredValue hnest hb hmade
  have hrange := hnest.range hb
  have htight' : value.Everywhere Node.Tight :=
    Node.everywhere_of_bare_eq Node.tight_bare hbare (htight made (List.mem_singleton_self made))
  obtain ⟨loc, hloc, hlo, hhi⟩ := hwithin made (List.mem_singleton_self made)
  have hlocv : value.loc = some loc := by
    rw [← Node.loc_bare, hbare, Node.loc_bare, hloc]
  refine ⟨value, loc, rfl, hlocv, ?_, ?_, htight', hsub, hcalls⟩
  · exact Int.le_trans (Ruler.charOffset_nonneg _ hrange.1) hlo
  · exact Int.le_trans hhi (Ruler.charOffset_le hrange.2.2)

end Declaration

/-! ## What a substitution has to keep -/

/-- Whether a node covers the character at an offset. -/
def Node.covers (n : Node) (offset : Int) : Bool :=
  n.loc.any fun loc => decide (loc.start.offset ≤ offset) && decide (offset < loc.stop.offset)

namespace Session

open Substitution

/-- Whether a call is replaced: it has a closest value. -/
def replaces (s : Session) (reference : Node) : Bool :=
  match (s.tryAsk (·.closest reference)).1 with
  | .ok (some _) => true
  | _ => false

/-- The characters of a value, which starts at an offset, that no replaced call covers. -/
def untouched (s : Session) (value : Node) (start : Int) (calls : List Node) : List Char :=
  ((s.textOf value).toList.zipIdx.filter fun ci =>
    !calls.any fun u => s.replaces u && u.covers (start + ci.2)).map (·.1)

/-- A replaced call that stands in another replaced call does not begin before the end of the
other. A call is not empty, so this says that there are no such two. -/
def Apart (s : Session) (calls : List Node) : Prop :=
  ∀ u ∈ calls, ∀ v ∈ calls, u.Above v → s.replaces u = true → s.replaces v = true → u.Before v

/-- A substitution is faithful to a value and its calls: each recorded offset lies in the new text
and is one at which the text of the closest value of the recorded call begins, without blanks at
its ends; and all that no replaced call covers is still there, in order. -/
structure Faithful (s : Session) (value : Node) (start : Int) (calls : List Node)
    (r : Substitution) : Prop where
  inside : ∀ k loc, (k, loc) ∈ r.offsets → 0 ≤ k ∧ k ≤ r.text.toList.length
  begins : ∀ k loc, (k, loc) ∈ r.offsets → ∃ u ∈ calls, u.loc = some loc
    ∧ ∃ closest, (s.tryAsk (·.closest u)).1 = .ok (some closest)
      ∧ (Text.strip (s.textOf closest)).toList <+: r.text.toList.drop k.toNat
  kept : List.Sublist (s.untouched value start calls) r.text.toList

/-- Calls that are groups and have an answer are resolved, each by its answer. -/
theorem exists_resolved {w : Walk} {us : List Node}
    (h : ∀ u ∈ us, u.members?.isSome ∧ ∃ value?, w.closest u = .ok value?) :
    ∃ found, us.mapM (resolved w) = .ok found ∧ found.map Prod.fst = us
      ∧ ∀ f ∈ found, w.closest f.1 = .ok f.2 := by
  induction us with
  | nil => exact ⟨[], rfl, rfl, by simp⟩
  | cons u us ih =>
      obtain ⟨hgroup, value?, hvalue⟩ := h u List.mem_cons_self
      obtain ⟨found, hfound, hfst, hall⟩ := ih fun v hv => h v (List.mem_cons_of_mem u hv)
      refine ⟨(u, value?) :: found, ?_, by rw [List.map_cons, hfst], ?_⟩
      · rw [List.mapM_cons, resolved_eq hgroup, hvalue, hfound]
        rfl
      · intro f hf
        rcases List.mem_cons.1 hf with rfl | hf
        · exact hvalue
        · exact hall f hf

theorem replaces_eq {s : Session} {w : Walk} {u : Node} {value? : Option Node}
    (hw : (s.tryAsk (·.closest u)).1 = w.closest u) (h : w.closest u = .ok value?) :
    s.replaces u = value?.isSome := by
  rw [replaces, hw, h]
  cases value? <;> rfl

variable {s : Session} {w : Walk} {value : Node} {loc : Location} {calls : List Node}
  {found : List (Node × Option Node)}

/-- The calls of a tight value that are apart are in order, as far as they are replaced. -/
theorem ordered_of_apart (hw : ∀ u, (s.tryAsk (·.closest u)).1 = w.closest u)
    (hloc : value.loc = some loc) (htight : value.Everywhere Node.Tight)
    (hfst : found.map Prod.fst = value.preorder.filter Node.isVar)
    (hfound : ∀ f ∈ found, w.closest f.1 = .ok f.2)
    (hapart : s.Apart (value.preorder.filter Node.isVar)) :
    Ordered loc.start.offset loc.stop.offset found := by
  have hmem : ∀ f ∈ found, f.1 ∈ value.preorder.filter Node.isVar := fun f hf =>
    hfst ▸ List.mem_map_of_mem hf
  refine ⟨fun f hf _ => ?_, ?_⟩
  · have hwithin := Node.within_of_everywhere_tight htight
      ⟨loc, hloc, Int.le_refl _, Int.le_refl _⟩
    exact hwithin f.1 (List.mem_filter.1 (hmem f hf)).1
  · have hpairwise := (Node.pairwise_preorder_of_tight htight).sublist
      (List.filter_sublist (p := Node.isVar))
    rw [← hfst, List.pairwise_map] at hpairwise
    -- one call that stands in another is what being apart speaks of
    refine hpairwise.imp_of_mem fun {f g} hf hg h hsome hsome' => ?_
    rcases h with habove | hbefore
    · refine hapart f.1 (hmem f hf) g.1 (hmem g hg) habove ?_ ?_
      · rw [replaces_eq (hw f.1) (hfound f hf), hsome]
      · rw [replaces_eq (hw g.1) (hfound g hg), hsome']
    · exact hbefore

theorem covers_editAt {text : String} {start : Int} {closest u : Node} (hloc : u.loc = some loc)
    (hlo : start ≤ loc.start.offset) (i : Nat) :
    (editAt text start closest loc).covers i = u.covers (start + i) := by
  have hle := loc.offset_le
  rw [Node.covers, hloc, Option.any_some, Edit.covers, Bool.eq_iff_iff]
  simp only [Bool.and_eq_true, decide_eq_true_eq]
  simp only [editAt]
  omega

/-- The calls that are replaced cover the characters that the edits for them cover. -/
theorem any_covers_eq (hw : ∀ u, (s.tryAsk (·.closest u)).1 = w.closest u)
    (hfst : found.map Prod.fst = calls) (hfound : ∀ f ∈ found, w.closest f.1 = .ok f.2)
    {start hi : Int} (hord : Ordered start hi found) (text : String) (i : Nat) :
    (calls.any fun u => s.replaces u && u.covers (start + i))
      = (replacements text start found).any (·.covers i) := by
  rw [Bool.eq_iff_iff, List.any_eq_true, List.any_eq_true, ← hfst]
  constructor
  · rintro ⟨u, hu, hcovers⟩
    obtain ⟨f, hf, rfl⟩ := List.mem_map.1 hu
    rw [Bool.and_eq_true, replaces_eq (hw f.1) (hfound f hf)] at hcovers
    obtain ⟨hsome, hcovers⟩ := hcovers
    obtain ⟨l, hl, hlo, -⟩ := hord.1 f hf hsome
    obtain ⟨closest, hclosest⟩ := Option.isSome_iff_exists.1 hsome
    refine ⟨editAt text start closest l, mem_replacements.2 ⟨f, hf, closest, hclosest, l, hl, rfl⟩,
      ?_⟩
    rw [covers_editAt hl hlo, hcovers]
  · rintro ⟨e, he, hcovers⟩
    obtain ⟨f, hf, closest, hclosest, l, hl, rfl⟩ := mem_replacements.1 he
    have hsome : f.2.isSome := by rw [hclosest]; rfl
    -- the location that keeps the calls in order is the one that the edit is made at
    obtain ⟨l', hl', hlo, -⟩ := hord.1 f hf hsome
    obtain rfl := Option.some.inj (hl.symm.trans hl')
    refine ⟨f.1, List.mem_map_of_mem hf, ?_⟩
    rw [Bool.and_eq_true, replaces_eq (hw f.1) (hfound f hf), ← covers_editAt hl hlo]
    exact ⟨hsome, hcovers⟩

/-- **A plain splice is faithful** to the value and the calls it is made for. -/
theorem faithful_of_isSplice (hw : ∀ u, (s.tryAsk (·.closest u)).1 = w.closest u)
    (hfst : found.map Prod.fst = calls) (hfound : ∀ f ∈ found, w.closest f.1 = .ok f.2)
    {start : Int} {length : Nat} (hord : Ordered start (start + length) found)
    (hlength : (s.textOf value).toList.length = length) {r : Substitution}
    (hr : r.IsSplice (s.textOf value).toList (replacements s.text start found)
      (unresolved found)) :
    s.Faithful value start calls r := by
  refine ⟨fun k l hk => hr.offset_le hk, fun k l hk => ?_, ?_⟩
  · obtain ⟨before, e, after, hsplit, rfl, -, hbegins⟩ := hr.offsets k l hk
    have he : e ∈ replacements s.text start found := by
      rw [hsplit]
      exact List.mem_append_right _ List.mem_cons_self
    obtain ⟨f, hf, closest, hclosest, l, hl, rfl⟩ := mem_replacements.1 he
    have hmem : f.1 ∈ calls := hfst ▸ List.mem_map_of_mem hf
    refine ⟨f.1, hmem, hl, closest, ?_, ?_⟩
    · rw [hw, hfound f hf, hclosest]
    · simp only [editAt] at hbegins
      rw [textOf]
      exact hbegins
  · -- both ways of saying which characters are covered come to the same
    have hcovers := any_covers_eq hw hfst hfound hord s.text
    have hedits : editsOf s.text ⟨length, start⟩ found = replacements s.text start found
        ∧ InOrder length 0 (replacements s.text start found) :=
      editsOf_eq (Nat.zero_le length) (by simpa using hord)
    have hsub := uncovered_sublist (hlength.symm ▸ hedits.2)
    rw [hr.text, untouched]
    simp only [hcovers]
    exact hsub

/-! ## Texts that were read -/

/-- With an answer to every call a run cannot fail, however the calls lie. -/
theorem exists_ofValue (text : String) {w : Walk} (value : Node) {calls : List Node}
    (h : ∀ u ∈ calls, u.members?.isSome ∧ ∃ value?, w.closest u = .ok value?) :
    ∃ r, ofValue text w value calls = .ok r := by
  obtain ⟨found, hfound, -⟩ := exists_resolved h
  rw [ofValue]
  cases value.loc with
  | none => exact ⟨_, rfl⟩
  | some loc =>
      simp only [foldlM_step_eq, hfound]
      exact ⟨_, rfl⟩

/-- After any questions a session substitutes by the walk through its tree. -/
theorem substituteIn_eq_ofValue {s : Session} {d value : Node} {w : Walk} {loc : Location}
    (hs : s.Settled) (hwalk : Walk.ofTree s.root = .ok w)
    (hheld : d.held? = some (.node (some value))) (hloc : value.loc = some loc)
    (hgroup : ∀ u ∈ w.callsIn d, u.members?.isSome) :
    (s.substituteIn d).1 = ofValue s.text w value (w.callsIn d) := by
  rw [substituteIn, hheld]
  simp only [ask, tryAsk_of_settled hs hwalk]
  -- the walk has been made by the question for the calls, and the substitution finds it kept
  exact substitute_eq_ofValue (fun α question => rfl) hloc hgroup

/-- **Substituting in a declaration of a text that was read** always has a result. The result is
faithful to the value and its calls if the calls are apart. -/
theorem substituteIn_faithful {language : Language} {text : String} {path : Option Path}
    {input : OptionsInput} {c : Concrete} {p : Parsed Diagnostic} {s : Session} {d : Node}
    (hgrammar : language.grammar text = some c)
    (hnest : c.WellNested (Text.Utf8.encode text.toList).length)
    (hparse : language.parse text path input = .ok p) (hs : Session.ofParsed? p = some s)
    (hd : d ∈ s.root.preorder) (hkind : d.kind = .declaration) :
    ∃ value loc calls r, d.held? = some (.node (some value)) ∧ value.loc = some loc
      ∧ (s.ask (·.callsIn d)).1 = .ok calls ∧ (s.substituteIn d).1 = .ok r
      ∧ (s.Apart calls → s.Faithful value loc.start.offset calls r) := by
  obtain ⟨tree, htree, rfl⟩ := Language.ofParsed?_parse hgrammar hparse hs
  have henter := numbered_enterable htree
  have hwalk := Walk.ofTree_of_noComment henter.noComment henter.preludesAreGroups
  obtain ⟨value, loc, hheld, hloc, hlo, hhi, htight, -, hcalls⟩ :=
    declaration_calls hnest htree hd hkind
  -- before and after the walk is made, questions are answered by it
  have hask : ∀ (α : Type) (q : Walk → Except NodeError α),
      (start text tree.numbered).tryAsk q
        = (q (.ofSteps (tree.numbered.steps none)),
          (start text tree.numbered).keep (.ofSteps (tree.numbered.steps none))) :=
    fun α q => tryAsk_start_of_ok hwalk text q
  have hkept : ∀ (α : Type) (q : Walk → Except NodeError α),
      (((start text tree.numbered).keep (.ofSteps (tree.numbered.steps none))).tryAsk q).1
        = q (.ofSteps (tree.numbered.steps none)) := fun α q => rfl
  generalize hw : Walk.ofSteps (tree.numbered.steps none) = w at hcalls hask hkept
  have hanswers : ∀ u, ((start text tree.numbered).tryAsk (·.closest u)).1 = w.closest u :=
    fun u => by rw [hask]
  have hgroup : ∀ u ∈ value.preorder.filter Node.isVar, u.members?.isSome := fun u hu =>
    Node.isVar.members?_isSome (List.mem_filter.1 hu).2
  have hanswered : ∀ u ∈ value.preorder.filter Node.isVar,
      u.members?.isSome ∧ ∃ value?, w.closest u = .ok value? := fun u hu =>
    ⟨hgroup u hu, hw ▸ Walk.exists_closest henter.blocksAreGroups u⟩
  obtain ⟨found, hfound, hfst, hall⟩ := exists_resolved hanswered
  have hofValue : ((start text tree.numbered).substituteIn d).1
      = ofValue text w value (value.preorder.filter Node.isVar) := by
    rw [substituteIn, hheld]
    simp only [ask, hask, hcalls]
    exact substitute_eq_ofValue hkept hloc hgroup
  obtain ⟨r, hr⟩ := exists_ofValue text value hanswered
  refine ⟨value, loc, value.preorder.filter Node.isVar, r, hheld, hloc, ?_, ?_, ?_⟩
  · rw [ask, hask, hcalls]
  · rw [hofValue, hr]
  · intro hapart
    have hord := ordered_of_apart hanswers hloc htight hfst hall hapart
    obtain ⟨r', hr', hsplice⟩ := ofValue_isSplice hloc hlo hhi hfound hord
    obtain rfl := Except.ok.inj (hr.symm.trans hr')
    have hlength := length_nodeText hloc hlo hhi
    exact faithful_of_isSplice hanswers hfst hall (hlength.symm ▸ hord) rfl hsplice

/-! ## A call in a call -/

section Example

/-- A token of a concrete tree. -/
private def token (kind : String) (start stop : Int) : Concrete :=
  .node kind start stop false false []

/-- A named node of a concrete tree. -/
private def part (kind : String) (start stop : Int) (children : List Concrete) : Concrete :=
  .node kind start stop true false children

/-- A call of `var` with arguments. -/
private def callOn (start stop : Int) (arguments : List Concrete) : Concrete :=
  part "call_expression" start stop [part "function_name" start (start + 3) [],
    part "arguments" (start + 3) stop
      (token "(" (start + 3) (start + 4) :: arguments ++ [token ")" (stop - 1) stop])]

/-- A declaration with a colon and a semicolon. -/
private def declaring (start colon stop : Int) (value : Concrete) : Concrete :=
  part "declaration" start stop [part "property_name" start colon [],
    token ":" colon (colon + 1), value, token ";" (stop - 1) stop]

/-- A stylesheet of one rule, whose selector is one letter. -/
private def oneRule (stop : Int) (items : List Concrete) : Concrete :=
  part "stylesheet" 0 stop [part "rule_set" 0 stop
    [part "selectors" 0 1 [part "tag_name" 0 1 []],
      part "block" 1 stop (token "\x7b" 1 2 :: items ++ [token "\x7d" (stop - 1) stop])]]

/-- Two properties, and a call to the one in a call to the other. -/
private def knownText : String := "a\x7b--a:x;--b:y;c:var(--a var(--b));\x7d"

private def knownTree : Concrete := oneRule 35
  [declaring 2 5 8 (part "plain_value" 6 7 []), declaring 8 11 14 (part "plain_value" 12 13 []),
    declaring 14 15 34 (callOn 16 33 [part "plain_value" 20 23 [],
      callOn 24 32 [part "plain_value" 28 31 []]])]

/-- One property, and a call to it in a call to another that is declared nowhere. -/
private def unknownText : String := "a\x7b--a:x;c:var(--z var(--a));\x7d"

private def unknownTree : Concrete := oneRule 29
  [declaring 2 5 8 (part "plain_value" 6 7 []), declaring 8 9 28
    (callOn 10 27 [part "plain_value" 14 17 [], callOn 18 26 [part "plain_value" 22 25 []]])]

/-- The language whose grammar gives one tree for every text. -/
private def languageOf (c : Concrete) : Language := ⟨fun _ => some c, .standard⟩

/-- The session for a text, and its last declaration. -/
private def lastDeclaration? (text : String) (c : Concrete) : Option (Session × Node) := do
  let p ← ((languageOf c).parse text none .nothing).toOption
  let s ← ofParsed? p
  let d ← (s.root.preorder.filter fun n => n.kind = .declaration).getLast?
  return (s, d)

/-- A session that has a last declaration is that of a text that was read, and has it in its
tree. -/
private theorem lastDeclaration?_eq_some {text : String} {c : Concrete} {s : Session} {d : Node}
    (h : lastDeclaration? text c = some (s, d)) :
    ∃ p, (languageOf c).parse text none .nothing = .ok p ∧ ofParsed? p = some s
      ∧ d ∈ s.root.preorder ∧ d.kind = .declaration := by
  simp only [lastDeclaration?, bind, Option.bind_eq_some_iff] at h
  obtain ⟨p, hp, s', hs, d', hd, h⟩ := h
  obtain ⟨rfl, rfl⟩ := Prod.mk.inj (Option.some.inj h)
  have hmem := List.mem_filter.1 (List.mem_of_getLast? hd)
  exact ⟨p, eq_ok_of_toOption hp, hs, hmem.1, by simpa using hmem.2⟩

/-- The call in a call that is declared nowhere is replaced, and the other stays around it. -/
theorem substituteIn_callInUnknownCall :
    unknownTree.WellNested (Text.Utf8.encode unknownText.toList).length
      ∧ ∃ p s d value loc calls r,
        (languageOf unknownTree).parse unknownText none .nothing = .ok p ∧ ofParsed? p = some s
        ∧ d ∈ s.root.preorder ∧ d.kind = .declaration ∧ d.held? = some (.node (some value))
        ∧ value.loc = some loc ∧ (s.ask (·.callsIn d)).1 = .ok calls ∧ s.Apart calls
        ∧ (s.substituteIn d).1 = .ok r ∧ s.Faithful value loc.start.offset calls r
        ∧ r.text = "var(--z x)" := by
  have hnest : unknownTree.WellNested (Text.Utf8.encode unknownText.toList).length := by
    decide +kernel
  have hlast : ((lastDeclaration? unknownText unknownTree).map fun sd =>
      ((sd.1.ask (·.callsIn sd.2)).1.toOption.map (·.map sd.1.replaces),
        (sd.1.substituteIn sd.2).1.toOption.map (·.text)))
      = some (some [false, true], some "var(--z x)") := by
    decide +kernel
  obtain ⟨⟨s, d⟩, hsd, hrun⟩ := Option.map_eq_some_iff.1 hlast
  obtain ⟨hreplaces, htext⟩ := Prod.mk.inj hrun
  obtain ⟨p, hparse, hs, hd, hkind⟩ := lastDeclaration?_eq_some hsd
  obtain ⟨value, loc, calls, r, hheld, hloc, hcalls, hr, hfaithful⟩ :=
    substituteIn_faithful (c := unknownTree) rfl hnest hparse hs hd hkind
  rw [hcalls] at hreplaces
  rw [hr] at htext
  have hapart : s.Apart calls := by
    have hmap : calls.map s.replaces = [false, true] := Option.some.inj hreplaces
    obtain ⟨u, rest, rfl, hu, hrest⟩ := List.map_eq_cons_iff.1 hmap
    obtain ⟨v, rest, rfl, hv, hnil⟩ := List.map_eq_cons_iff.1 hrest
    obtain rfl := List.map_eq_nil_iff.1 hnil
    intro a ha b hb habove hra hrb
    rcases List.mem_pair.1 ha with rfl | rfl
    · rw [hu] at hra
      cases hra
    · rcases List.mem_pair.1 hb with rfl | rfl
      · rw [hu] at hrb
        cases hrb
      · exact absurd habove.sizeOf_lt (Nat.lt_irrefl _)
  exact ⟨hnest, p, s, d, value, loc, calls, r, hparse, hs, hd, hkind, hheld, hloc, hcalls, hapart,
    hr, hfaithful hapart, Option.some.inj htext⟩

/-- Where both calls are declared, both are replaced, although the one stands in the other: the
second is put in eight characters before the text, and the first no longer begins the text. -/
theorem substituteIn_callInCall :
    knownTree.WellNested (Text.Utf8.encode knownText.toList).length
      ∧ ∃ p s d r, (languageOf knownTree).parse knownText none .nothing = .ok p
        ∧ ofParsed? p = some s ∧ d ∈ s.root.preorder ∧ d.kind = .declaration
        ∧ (s.substituteIn d).1 = .ok r ∧ r.text = "yx" ∧ ∃ loc, (-8, loc) ∈ r.offsets := by
  have hlast : ((lastDeclaration? knownText knownTree).map fun sd =>
      (sd.1.substituteIn sd.2).1.toOption.map fun r => (r.text, r.offsets.map (·.1)))
      = some (some ("yx", [0, -8])) := by
    decide +kernel
  obtain ⟨⟨s, d⟩, hsd, hrun⟩ := Option.map_eq_some_iff.1 hlast
  obtain ⟨p, hparse, hs, hd, hkind⟩ := lastDeclaration?_eq_some hsd
  obtain ⟨r, hr, heq⟩ := Option.map_eq_some_iff.1 hrun
  obtain ⟨htext, hoffsets⟩ := Prod.mk.inj heq
  have hmem : (-8 : Int) ∈ r.offsets.map (·.1) := by
    rw [hoffsets]
    decide
  obtain ⟨⟨k, loc⟩, hk, rfl⟩ := List.mem_map.1 hmem
  exact ⟨by decide +kernel, p, s, d, r, hparse, hs, hd, hkind, eq_ok_of_toOption hr, htext, loc,
    hk⟩

end Example

end Session

end Stylesheet
