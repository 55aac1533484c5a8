/-
Putting values into a text one after the other is one plain splice.

Values are put into a text that changes under the hand: each is cut in at the offset of its call
in the old text plus what the text has grown by until then. The plain splice knows nothing of
growth. It copies the old text up to the first call, writes the value, goes on behind the call,
and so on (`spliced`).

The two agree as long as no call begins before the end of one whose value is put in already.
What carries the run is that the text so far is a part that is finished, followed by the old
text from some offset on, and that the growth is the difference between the two offsets at
which that old text begins (`Progress.Reached`). Nothing is assumed about the lengths of the
values, and calls without a value, without a location or outside the text may lie anywhere.
-/
import Stylesheet.Proofs.Spans
import Stylesheet.Session.Substitution

set_option autoImplicit false

namespace Stylesheet

namespace Substitution

/-! ## The plain splice -/

/-- What is put into a text: the location of the call it is put in for, the offsets in the text
between which it goes, and its characters. -/
structure Edit where
  loc : Location
  start : Nat
  stop : Nat
  new : List Char

/-- The text from one offset up to another, with edits between the two made. -/
def spliced (own : List Char) (i : Nat) (es : List Edit) (stop : Nat) : List Char :=
  match es with
  | [] => (own.take stop).drop i
  | e :: es => (own.take e.start).drop i ++ (e.new ++ spliced own e.stop es stop)

/-- Edits come one after the other, from an offset on and up to another. -/
def InOrder (length : Nat) (i : Nat) : List Edit → Prop
  | [] => i ≤ length
  | e :: es => i ≤ e.start ∧ e.start ≤ e.stop ∧ InOrder length e.stop es

/-- The edits with the offsets at which their characters begin in the new text, if `o`
characters of it are written when the offset `i` of the old one is reached. -/
def placed (i o : Nat) : List Edit → List (Nat × Edit)
  | [] => []
  | e :: es => (o + (e.start - i), e) :: placed e.stop (o + (e.start - i) + e.new.length) es

theorem InOrder.le {length i : Nat} {es : List Edit} (h : InOrder length i es) : i ≤ length := by
  induction es generalizing i with
  | nil => exact h
  | cons e es ih =>
      obtain ⟨hstart, hstop, hrest⟩ := h
      have := ih hrest
      omega

theorem drop_eq_append {own : List Char} {i j : Nat} (h : i ≤ j) :
    own.drop i = (own.take j).drop i ++ own.drop j := by
  have happend := List.take_append_drop (j - i) (own.drop i)
  rw [← List.drop_take, List.drop_drop, Nat.add_sub_cancel' h] at happend
  exact happend.symm

theorem InOrder.length_gap {own : List Char} {i : Nat} {e : Edit} {es : List Edit}
    (h : InOrder own.length i (e :: es)) :
    ((own.take e.start).drop i).length = e.start - i := by
  obtain ⟨-, hstop, hrest⟩ := h
  have := hrest.le
  rw [List.length_drop, List.length_take]
  omega

/-- The splice up to an edit, the edit, and the splice behind it make up the splice. -/
theorem spliced_append_cons (own : List Char) (i : Nat) (before : List Edit) (e : Edit)
    (after : List Edit) (stop : Nat) :
    spliced own i (before ++ e :: after) stop
      = spliced own i before e.start ++ (e.new ++ spliced own e.stop after stop) := by
  induction before generalizing i with
  | nil => rfl
  | cons d before ih =>
      rw [List.cons_append, spliced, ih, spliced]
      simp only [List.append_assoc]

/-- **Where an edit is placed**: behind the splice up to it. -/
theorem mem_placed {own : List Char} {i o : Nat} {es : List Edit}
    (h : InOrder own.length i es) {k : Nat} {e : Edit} (hmem : (k, e) ∈ placed i o es) :
    ∃ before after, es = before ++ e :: after
      ∧ k = o + (spliced own i before e.start).length := by
  induction es generalizing i o with
  | nil => cases hmem
  | cons d es ih =>
      have hgap := h.length_gap
      obtain ⟨hstart, hstop, hrest⟩ := h
      rw [placed] at hmem
      rcases List.mem_cons.1 hmem with heq | hmem
      · obtain ⟨rfl, rfl⟩ := Prod.mk.inj heq
        exact ⟨[], es, rfl, by rw [spliced, hgap]⟩
      · obtain ⟨before, after, rfl, rfl⟩ := ih hrest hmem
        refine ⟨d :: before, after, rfl, ?_⟩
        -- the gap before the first edit and its characters come before all the rest
        rw [spliced, List.length_append, List.length_append, hgap]
        omega

/-! ## One cut -/

/-- Cutting into the second of two texts leaves the first as it is. -/
theorem splice_append (out rest new : List Char) {a b : Nat} (hab : a ≤ b)
    (hb : b ≤ rest.length) :
    splice (out ++ rest) new ((out.length : Int) + a) ((out.length : Int) + b)
      = out ++ (rest.take a ++ new) ++ rest.drop b := by
  have hlen : (out ++ rest).length = out.length + rest.length := List.length_append
  have hleft : slice (out ++ rest) 0 ((out.length : Int) + a) = out ++ rest.take a := by
    have h := slice_ofNat (out ++ rest) (a := 0) (b := out.length + a) (Nat.zero_le _) (by omega)
    push_cast at h
    rw [h, List.drop_zero, List.take_append, List.take_of_length_le (Nat.le_add_right _ _),
      Nat.add_sub_cancel_left]
  have hright : slice (out ++ rest) ((out.length : Int) + b) (out ++ rest).length
      = rest.drop b := by
    have h := slice_ofNat (out ++ rest) (a := out.length + b) (b := (out ++ rest).length)
      (by omega) (Nat.le_refl _)
    push_cast at h
    rw [h, List.take_length, List.drop_append]
    simp
  rw [splice, hleft, hright]
  simp only [List.append_assoc]

/-! ## One call -/

/-- The edit that puts a value in at a location, in a text that starts at an offset. -/
def editAt (text : String) (start : Int) (value : Node) (loc : Location) : Edit :=
  ⟨loc, (loc.start.offset - start).toNat, (loc.stop.offset - start).toNat,
    (Text.strip (Session.nodeText text value 0 0)).toList⟩

/-- The edit that is made for a call with a closest value: none if the call has no location, or
lies outside the text. -/
def editOf? (text : String) (frame : Frame) (reference value : Node) : Option Edit :=
  reference.loc.bind fun loc =>
    if 0 ≤ loc.start.offset - frame.start ∧ loc.stop.offset - frame.start ≤ frame.length then
      some (editAt text frame.start value loc)
    else none

/-- What has been made of a text: a finished part, followed by the old text from an offset on;
and the growth is what the one offset is ahead of the other. -/
structure Progress.Reached (own : List Char) (i : Nat) (out : List Char) (p : Progress) : Prop where
  text : p.done.text.toList = out ++ own.drop i
  growth : p.growth = (out.length : Int) - i
  le : i ≤ own.length

/-- A call for which no edit is made changes nothing. -/
theorem putIn_of_none {text : String} {frame : Frame} {reference value : Node} (p : Progress)
    (h : editOf? text frame reference value = none) :
    p.putIn text frame reference value = p := by
  rw [Progress.putIn]
  rw [editOf?] at h
  cases hloc : reference.loc with
  | none => rfl
  | some loc =>
      rw [hloc, Option.bind_some] at h
      have hout : ¬ (0 ≤ loc.start.offset - frame.start
          ∧ loc.stop.offset - frame.start ≤ frame.length) := by
        intro hin
        rw [if_pos hin] at h
        cases h
      show (if _ then p else _) = p
      rw [if_pos (by omega)]

/-- **One edit** finishes the text up to the end of its call. -/
theorem putIn_reached {text : String} {frame : Frame} {reference value : Node} {p : Progress}
    {own out : List Char} {i : Nat} {e : Edit} (hlen : frame.length = own.length)
    (h : p.Reached own i out) (he : editOf? text frame reference value = some e)
    (hi : i ≤ e.start) :
    (p.putIn text frame reference value).Reached own e.stop
        (out ++ ((own.take e.start).drop i ++ e.new))
      ∧ (p.putIn text frame reference value).done.offsets
        = Assoc.put p.done.offsets ((out.length + (e.start - i) : Nat) : Int) e.loc
      ∧ (p.putIn text frame reference value).done.unknown = p.done.unknown := by
  rw [editOf?] at he
  obtain ⟨loc, hloc, he⟩ := Option.bind_eq_some_iff.1 he
  split at he
  case isFalse => cases he
  next hin =>
  obtain rfl := Option.some.inj he
  have hle := loc.offset_le
  obtain ⟨a, ha⟩ := Int.eq_ofNat_of_zero_le hin.1
  obtain ⟨b, hb⟩ : ∃ b : Nat, loc.stop.offset - frame.start = b :=
    ⟨(loc.stop.offset - frame.start).toNat, by omega⟩
  have hnotout : ¬ (loc.start.offset - frame.start < 0
      ∨ (frame.length : Int) < loc.stop.offset - frame.start) := by omega
  -- moved by the growth, both offsets lie behind the finished part, in what is left of the old text
  simp only [Progress.putIn, editAt, hloc, ha, hb, Int.toNat_natCast] at hi hnotout ⊢
  rw [if_neg hnotout]
  have hstart : (a : Int) + p.growth = (out.length : Int) + (a - i : Nat) := by
    rw [h.growth]
    omega
  have hstop : (b : Int) + p.growth = (out.length : Int) + (b - i : Nat) := by
    rw [h.growth]
    omega
  have hcut := splice_append out (own.drop i)
    (Text.strip (Session.nodeText text value 0 0)).toList (a := a - i) (b := b - i)
    (by omega) (by rw [List.length_drop]; omega)
  have hgap : (own.drop i).take (a - i) = (own.take a).drop i := by
    rw [List.drop_take]
  have hrest : (own.drop i).drop (b - i) = own.drop b := by
    rw [List.drop_drop]
    congr 1
    omega
  rw [hgap, hrest] at hcut
  refine ⟨⟨?_, ?_, by omega⟩, ?_, rfl⟩
  · simp only [h.text, hstart, hstop, hcut, String.toList_ofList]
  · have hlength : ((own.take a).drop i).length = a - i := by
      rw [List.length_drop, List.length_take]
      omega
    simp only [h.growth, List.length_append, hlength]
    push_cast
    omega
  · simp only [hstart]
    push_cast
    rfl

/-! ## All calls -/

/-- A call with its closest value. -/
def resolved (w : Walk) (reference : Node) : Except NodeError (Node × Option Node) := do
  let _ ← reference.membersOf
  let value? ← w.closest reference
  return (reference, value?)

/-- One more call whose closest value is known. -/
def Progress.take (text : String) (frame : Frame) (p : Progress) (found : Node × Option Node) :
    Progress :=
  match found.2 with
  | none => p.giveUp found.1
  | some value => p.putIn text frame found.1 value

/-- A step resolves the call and takes what it has found. -/
theorem step_eq (text : String) (w : Walk) (frame : Frame) (p : Progress) (reference : Node) :
    p.step text w frame reference = (resolved w reference).map (p.take text frame) := by
  rw [Progress.step, resolved]
  cases reference.membersOf with
  | error e => rfl
  | ok ns =>
      cases w.closest reference with
      | error e => simp [bind, Except.bind, Except.map]
      | ok value? => cases value? <;> simp [bind, Except.bind, Except.map, pure, Except.pure,
          Progress.take]

/-- The run of steps resolves all calls and then takes them one after the other. -/
theorem foldlM_step_eq (text : String) (w : Walk) (frame : Frame) (p : Progress)
    (references : List Node) :
    references.foldlM (Progress.step text w frame) p
      = (references.mapM (resolved w)).map
          fun found => found.foldl (Progress.take text frame) p := by
  induction references generalizing p with
  | nil => rfl
  | cons reference references ih =>
      rw [List.foldlM_cons, List.mapM_cons, step_eq]
      cases resolved w reference with
      | error e => rfl
      | ok found =>
          show references.foldlM _ (p.take text frame found) = _
          rw [ih]
          cases references.mapM (resolved w) <;> rfl

/-- The edits that are made for calls with what has been found for them. -/
def editsOf (text : String) (frame : Frame) (found : List (Node × Option Node)) : List Edit :=
  found.filterMap fun f => f.2.bind (editOf? text frame f.1)

/-- The names of the calls for which nothing has been found. -/
def unresolved (found : List (Node × Option Node)) : List String :=
  (found.filter (·.2.isNone)).map fun f => f.1.referredName?.getD ""

/-- Offsets with those of several edits put to them. -/
def recorded (offsets : Assoc Int Location) (ps : List (Nat × Edit)) : Assoc Int Location :=
  ps.foldl (fun offsets p => Assoc.put offsets (p.1 : Int) p.2.loc) offsets

/-- **The run.** From a text that is finished up to an offset, edits in order from there on make
the plain splice of the rest, each is recorded where the splice has it, and the names of the
calls without a value are listed in order. -/
theorem foldl_take {text : String} {frame : Frame} {own : List Char}
    (hlen : frame.length = own.length) (found : List (Node × Option Node)) {p : Progress}
    {out : List Char} {i : Nat} (h : p.Reached own i out)
    (ho : InOrder own.length i (editsOf text frame found)) :
    let q := found.foldl (Progress.take text frame) p
    q.done.text.toList = out ++ spliced own i (editsOf text frame found) own.length
      ∧ q.done.unknown = p.done.unknown ++ unresolved found
      ∧ q.done.offsets
        = recorded p.done.offsets (placed i out.length (editsOf text frame found)) := by
  induction found generalizing p out i with
  | nil => exact ⟨by simpa [editsOf, spliced] using h.text, by simp [unresolved], rfl⟩
  | cons f found ih =>
      obtain ⟨reference, value?⟩ := f
      rw [List.foldl_cons]
      cases value? with
      | none =>
          -- the name is listed, and the text is as finished as before
          obtain ⟨htext, hunknown, hoffsets⟩ := ih (p := p.giveUp reference)
            ⟨h.text, h.growth, h.le⟩ ho
          refine ⟨htext, ?_, hoffsets⟩
          rw [show p.take text frame (reference, none) = p.giveUp reference from rfl, hunknown]
          simp [unresolved, Progress.giveUp]
      | some value =>
          rw [show p.take text frame (reference, some value)
            = p.putIn text frame reference value from rfl]
          have hunresolved : unresolved ((reference, some value) :: found) = unresolved found := rfl
          cases he : editOf? text frame reference value with
          | none =>
              have hedits : editsOf text frame ((reference, some value) :: found)
                  = editsOf text frame found := by simp [editsOf, he]
              rw [putIn_of_none p he, hedits, hunresolved]
              rw [hedits] at ho
              exact ih h ho
          | some e =>
              have hedits : editsOf text frame ((reference, some value) :: found)
                  = e :: editsOf text frame found := by simp [editsOf, he]
              rw [hedits] at ho ⊢
              have hgap := ho.length_gap
              obtain ⟨hstart, hstop, hrest⟩ := ho
              -- the rest of the run starts from the text finished up to the end of this edit
              obtain ⟨hreached, hput, hkept⟩ := putIn_reached hlen h he hstart
              obtain ⟨htext, hunknown, hoffsets⟩ := ih hreached hrest
              refine ⟨?_, ?_, ?_⟩
              · rw [htext, spliced]
                simp only [List.append_assoc]
              · rw [hunknown, hkept, hunresolved]
              · rw [hoffsets, hput, placed, recorded, recorded, List.foldl_cons,
                  List.length_append, List.length_append, hgap, Nat.add_assoc]

/-! ## Calls in order -/

/-- The edits for calls that stand in a text from an offset on: one for each that has a value
and a location. -/
def replacements (text : String) (start : Int) (found : List (Node × Option Node)) : List Edit :=
  found.filterMap fun f => f.2.bind fun value => f.1.loc.map (editAt text start value)

theorem mem_replacements {text : String} {start : Int} {found : List (Node × Option Node)}
    {e : Edit} :
    e ∈ replacements text start found ↔ ∃ f ∈ found, ∃ value, f.2 = some value
      ∧ ∃ loc, f.1.loc = some loc ∧ editAt text start value loc = e := by
  simp only [replacements, List.mem_filterMap, Option.bind_eq_some_iff, Option.map_eq_some_iff]

/-- The calls that have a value stand between two offsets, and each ends before the next
begins. -/
def Ordered (lo hi : Int) (found : List (Node × Option Node)) : Prop :=
  (∀ f ∈ found, f.2.isSome → f.1.Within lo hi)
    ∧ found.Pairwise fun f g => f.2.isSome → g.2.isSome → f.1.Before g.1

/-- Of calls in order within the text, none is passed over, and their edits are in order. -/
theorem editsOf_eq {text : String} {frame : Frame} {found : List (Node × Option Node)} {i : Nat}
    (hi : i ≤ frame.length) (h : Ordered (frame.start + i) (frame.start + frame.length) found) :
    editsOf text frame found = replacements text frame.start found
      ∧ InOrder frame.length i (replacements text frame.start found) := by
  induction found generalizing i with
  | nil => exact ⟨rfl, hi⟩
  | cons f found ih =>
      obtain ⟨hwithin, hpairwise⟩ := h
      obtain ⟨hfirst, hrest⟩ := List.pairwise_cons.1 hpairwise
      have hlater := fun g hg => hwithin g (List.mem_cons_of_mem f hg)
      obtain ⟨reference, value?⟩ := f
      cases value? with
      | none => exact ih hi ⟨hlater, hrest⟩
      | some value =>
          obtain ⟨loc, hloc, hlo, hhi⟩ := hwithin _ List.mem_cons_self rfl
          replace hloc : reference.loc = some loc := hloc
          have hle := loc.offset_le
          have hin : 0 ≤ loc.start.offset - frame.start
              ∧ loc.stop.offset - frame.start ≤ frame.length := by omega
          have hedit : editOf? text frame reference value
              = some (editAt text frame.start value loc) := by
            rw [editOf?, hloc, Option.bind_some, if_pos hin]
          -- what comes later stands behind the end of this call
          have hbehind : ∀ g ∈ found, g.2.isSome → g.1.Within
              (frame.start + (loc.stop.offset - frame.start).toNat)
              (frame.start + frame.length) := by
            intro g hg hsome
            obtain ⟨other, hother, -, hend⟩ := hlater g hg hsome
            have hbefore := hfirst g hg rfl hsome loc hloc other hother
            exact ⟨other, hother, by omega, hend⟩
          obtain ⟨hedits, horder⟩ := ih (i := (loc.stop.offset - frame.start).toNat) (by omega)
            ⟨hbehind, hrest⟩
          have hcons : replacements text frame.start ((reference, some value) :: found)
              = editAt text frame.start value loc :: replacements text frame.start found := by
            simp [replacements, hloc]
          rw [hcons]
          refine ⟨?_, ?_⟩
          · rw [← hedits]
            simp [editsOf, hedit]
          · exact ⟨by simp only [editAt]; omega, by simp only [editAt]; omega, horder⟩

/-! ## The whole substitution

What is recorded, what is left in the text and what is listed is told for a run over calls whose
values are known. A session tells the values first, by one walk, and then makes that run. -/

/-- A substitution is the plain splice of a text: the edits are made and all else is kept. Each
offset is that at which the characters of an edit begin. -/
structure IsSplice (own : List Char) (es : List Edit) (unknown : List String)
    (r : Substitution) : Prop where
  text : r.text.toList = spliced own 0 es own.length
  unknown : r.unknown = unknown
  offsets : ∀ k loc, (k, loc) ∈ r.offsets → ∃ before e after, es = before ++ e :: after
    ∧ e.loc = loc ∧ k = (spliced own 0 before e.start).length
    ∧ e.new <+: r.text.toList.drop k.toNat

theorem IsSplice.offset_le {own : List Char} {es : List Edit} {unknown : List String}
    {r : Substitution} (h : r.IsSplice own es unknown) {k : Int} {loc : Location}
    (hmem : (k, loc) ∈ r.offsets) : 0 ≤ k ∧ k ≤ r.text.toList.length := by
  obtain ⟨before, e, after, rfl, -, rfl, -⟩ := h.offsets k loc hmem
  rw [h.text, spliced_append_cons, List.length_append]
  omega

/-- Whether an edit takes the place of the character at an offset. -/
def Edit.covers (e : Edit) (i : Nat) : Bool := decide (e.start ≤ i) && decide (i < e.stop)

/-- **What no edit covers is kept**: it stands in the splice, in order. -/
theorem uncovered_sublist {own : List Char} {i : Nat} {es : List Edit}
    (h : InOrder own.length i es) :
    List.Sublist ((((own.drop i).zipIdx i).filter fun ci => !es.any (·.covers ci.2)).map (·.1))
      (spliced own i es own.length) := by
  induction es generalizing i with
  | nil =>
      have hall : ((own.drop i).zipIdx i).filter (fun ci => !([] : List Edit).any (·.covers ci.2))
          = (own.drop i).zipIdx i := List.filter_eq_self.2 fun _ _ => rfl
      rw [hall, List.zipIdx_map_fst, spliced, List.take_length]
  | cons e es ih =>
      have hgap := h.length_gap
      obtain ⟨hstart, hstop, hrest⟩ := h
      have hle := hrest.le
      have hcovered : ((own.take e.stop).drop e.start).length = e.stop - e.start := by
        rw [List.length_drop, List.length_take]
        omega
      have hi : i + (e.start - i) = e.start := Nat.add_sub_cancel' hstart
      have hj : e.start + (e.stop - e.start) = e.stop := Nat.add_sub_cancel' hstop
      -- the text from the lower offset on is a gap, what the edit covers, and the rest
      rw [drop_eq_append hstart, List.zipIdx_append, hgap, hi, drop_eq_append hstop,
        List.zipIdx_append, hcovered, hj, List.filter_append, List.filter_append,
        List.map_append, List.map_append, spliced]
      refine List.Sublist.append ?_ (List.Sublist.append ?_ ?_)
      · have hsub := (List.filter_sublist (p := fun ci : Char × Nat =>
          !(e :: es).any (·.covers ci.2)) (l := ((own.take e.start).drop i).zipIdx i)).map (·.1)
        rwa [List.zipIdx_map_fst] at hsub
      · have hnone : (((own.take e.stop).drop e.start).zipIdx e.start).filter
            (fun ci => !(e :: es).any (·.covers ci.2)) = [] := by
          refine List.filter_eq_nil_iff.2 fun ci hci => ?_
          have hlo := List.le_snd_of_mem_zipIdx hci
          have hhi := List.snd_lt_add_of_mem_zipIdx hci
          rw [hcovered, hj] at hhi
          simp [Edit.covers, hlo, hhi]
        rw [hnone]
        exact List.nil_sublist _
      · refine List.Sublist.trans (List.Sublist.map _ ?_) (ih hrest)
        refine List.monotone_filter_right _ fun ci hci => ?_
        simp only [List.any_cons, Bool.not_or, Bool.and_eq_true] at hci
        exact hci.2

theorem mem_recorded {offsets : Assoc Int Location} {ps : List (Nat × Edit)} {k : Int}
    {loc : Location} (h : (k, loc) ∈ recorded offsets ps) :
    (k, loc) ∈ offsets ∨ ∃ p ∈ ps, k = (p.1 : Int) ∧ p.2.loc = loc := by
  induction ps generalizing offsets with
  | nil => exact .inl h
  | cons p ps ih =>
      rcases ih h with h | ⟨q, hq, hk⟩
      · rcases Assoc.mem_put h with h | h
        · obtain ⟨rfl, rfl⟩ := Prod.mk.inj h
          exact .inr ⟨p, List.mem_cons_self, rfl, rfl⟩
        · exact .inl h
      · exact .inr ⟨q, List.mem_cons_of_mem p hq, hk⟩

theorem length_nodeText {text : String} {value : Node} {loc : Location}
    (hloc : value.loc = some loc) (hlo : 0 ≤ loc.start.offset)
    (hhi : loc.stop.offset ≤ text.toList.length) :
    loc.start.offset + (Session.nodeText text value 0 0).toList.length = loc.stop.offset := by
  have hle := loc.offset_le
  obtain ⟨a, ha⟩ := Int.eq_ofNat_of_zero_le hlo
  obtain ⟨b, hb⟩ := Int.eq_ofNat_of_zero_le (Int.le_trans hlo hle)
  have hslice := slice_ofNat text.toList (a := a) (b := b) (by omega) (by omega)
  have hmax : max ((a : Int) - 0) 0 = a := by omega
  unfold Session.nodeText
  simp only [hloc, Session.textAt, ha, hb, hmax, Int.add_zero, hslice, String.toList_ofList,
    List.length_drop, List.length_take]
  omega

/-- **The run over a value** whose calls with a value are in order within it: their edits are in
order, the text is the plain splice, and each edit is recorded where the splice has it. -/
theorem ofValue_eq_recorded {text : String} {w : Walk} {value : Node} {references : List Node}
    {loc : Location} (hloc : value.loc = some loc) (hlo : 0 ≤ loc.start.offset)
    (hhi : loc.stop.offset ≤ text.toList.length) {found : List (Node × Option Node)}
    (hfound : references.mapM (resolved w) = .ok found)
    (hord : Ordered loc.start.offset loc.stop.offset found) :
    InOrder (Session.nodeText text value 0 0).toList.length 0
        (replacements text loc.start.offset found)
      ∧ ∃ r, ofValue text w value references = .ok r
        ∧ r.text.toList = spliced (Session.nodeText text value 0 0).toList 0
          (replacements text loc.start.offset found) (Session.nodeText text value 0 0).toList.length
        ∧ r.unknown = unresolved found
        ∧ r.offsets = recorded [] (placed 0 0 (replacements text loc.start.offset found)) := by
  have hlength := length_nodeText hloc hlo hhi
  rw [ofValue, hloc]
  simp only [foldlM_step_eq, hfound]
  generalize (Session.nodeText text value 0 0) = own at hlength ⊢
  obtain ⟨hedits, horder⟩ : editsOf text ⟨own.toList.length, loc.start.offset⟩ found
        = replacements text loc.start.offset found
      ∧ InOrder own.toList.length 0 (replacements text loc.start.offset found) :=
    editsOf_eq (Nat.zero_le _) (by simpa [hlength] using hord)
  have hreached : Progress.Reached own.toList 0 [] ⟨unchanged own, 0⟩ := ⟨rfl, rfl, Nat.zero_le _⟩
  obtain ⟨htext, hunknown, hoffsets⟩ :=
    foldl_take rfl found hreached (hedits.symm ▸ horder)
  rw [hedits] at htext hoffsets
  exact ⟨horder, _, rfl, htext, hunknown, hoffsets⟩

/-- **The substitution of a value** whose calls with a value are in order is the plain splice. -/
theorem ofValue_isSplice {text : String} {w : Walk} {value : Node} {references : List Node}
    {loc : Location} (hloc : value.loc = some loc) (hlo : 0 ≤ loc.start.offset)
    (hhi : loc.stop.offset ≤ text.toList.length) {found : List (Node × Option Node)}
    (hfound : references.mapM (resolved w) = .ok found)
    (hord : Ordered loc.start.offset loc.stop.offset found) :
    ∃ r, ofValue text w value references = .ok r
      ∧ r.IsSplice (Session.nodeText text value 0 0).toList
        (replacements text loc.start.offset found) (unresolved found) := by
  obtain ⟨horder, r, hr, htext, hunknown, hoffsets⟩ :=
    ofValue_eq_recorded hloc hlo hhi hfound hord
  refine ⟨r, hr, htext, hunknown, ?_⟩
  -- an offset is recorded where an edit is placed, and there its characters begin
  intro k l hmem
  rw [hoffsets] at hmem
  rcases mem_recorded hmem with hold | ⟨⟨o, e⟩, hplaced, rfl, rfl⟩
  · cases hold
  · obtain ⟨before, after, hsplit, ho⟩ := mem_placed (o := 0) horder hplaced
    rw [Nat.zero_add] at ho
    refine ⟨before, e, after, hsplit, rfl, congrArg Nat.cast ho, ?_⟩
    rw [htext, hsplit, spliced_append_cons, ho, Int.toNat_natCast, List.drop_left]
    exact List.prefix_append _ _

/-- What holds of any two members of a list in order holds of them paired with others. -/
theorem pairwise_zip_fst {α β : Type} {R : α → α → Prop} {as : List α} (h : as.Pairwise R)
    (bs : List β) : (as.zip bs).Pairwise fun a b => R a.1 b.1 := by
  induction h generalizing bs with
  | nil => simp
  | @cons a as ha _ ih =>
      cases bs with
      | nil => simp
      | cons b bs =>
          rw [List.zip_cons_cons, List.pairwise_cons]
          exact ⟨fun p hp => ha p.1 (List.of_mem_zip hp).1, ih bs⟩

theorem resolved_eq {w : Walk} {reference : Node} (h : reference.members?.isSome) :
    resolved w reference = (w.closest reference).map (reference, ·) := by
  obtain ⟨ns, hns⟩ := Option.isSome_iff_exists.1 h
  rw [resolved, Node.membersOf, hns]
  rfl

theorem mapM_resolved_eq {w : Walk} {references : List Node}
    (h : ∀ r ∈ references, r.members?.isSome) :
    references.mapM (resolved w) = (references.mapM w.closest).map (references.zip ·) := by
  induction references with
  | nil => rfl
  | cons r references ih =>
      rw [List.mapM_cons, List.mapM_cons, resolved_eq (h r List.mem_cons_self),
        ih fun r hr => h r (List.mem_cons_of_mem _ hr)]
      cases w.closest r with
      | error e => rfl
      | ok value? => cases references.mapM w.closest <;> rfl

end Substitution

namespace Session

open Substitution

theorem tryAsk_cases (s : Session) :
    (∃ e, ∀ (α : Type) (question : Walk → Except NodeError α), (s.tryAsk question).1 = .error e)
      ∨ ∃ w, ∀ (α : Type) (question : Walk → Except NodeError α),
        (s.tryAsk question).1 = question w := by
  simp only [tryAsk]
  cases s.traverse.1 with
  | error e => exact .inl ⟨e, fun _ _ => rfl⟩
  | ok steps => exact .inr ⟨_, fun _ _ => rfl⟩

theorem substitute_cons {s : Session} {value : Node} {loc : Location} {first : Node}
    {rest : List Node} (hloc : value.loc = some loc) (hfirst : first.members?.isSome) :
    s.substitute value (first :: rest)
      = s.tryAsk fun w => ofValue s.text w value (first :: rest) := by
  obtain ⟨ns, hns⟩ := Option.isSome_iff_exists.1 hfirst
  simp only [substitute, hloc, Node.membersOf, hns]

/-- A session that is answered by a walk substitutes by that walk. -/
theorem substitute_eq_ofValue {s : Session} {w : Walk}
    (hw : ∀ (α : Type) (question : Walk → Except NodeError α), (s.tryAsk question).1 = question w)
    {value : Node} {loc : Location} (hloc : value.loc = some loc) {references : List Node}
    (hgroup : ∀ r ∈ references, r.members?.isSome) :
    (s.substitute value references).1 = ofValue s.text w value references := by
  cases references with
  | nil =>
      rw [ofValue, hloc]
      simp only [substitute, hloc]
      rfl
  | cons first rest => rw [substitute_cons hloc (hgroup first List.mem_cons_self), hw]

/-- **Putting the closest values into a value.** The value lies inside the text, and the calls
inside the value, each ending before the next begins. If all closest values can be told, the
result is the plain splice: each call with a closest value is replaced by the text of that value
without blanks at its ends, and all else stays as it is. The names listed are those of the calls
without a closest value, and at each offset recorded one of the replacing texts begins. -/
theorem substitute_eq_splice (s : Session) {value : Node} {loc : Location}
    {references : List Node} (hloc : value.loc = some loc) (hlo : 0 ≤ loc.start.offset)
    (hhi : loc.stop.offset ≤ s.text.toList.length)
    (hgroup : ∀ r ∈ references, r.members?.isSome)
    (hin : ∀ r ∈ references, r.Within loc.start.offset loc.stop.offset)
    (hord : references.Pairwise Node.Before) :
    match references.mapM fun r => (s.tryAsk (·.closest r)).1 with
    | .error e => (s.substitute value references).1 = .error e
    | .ok values => ∃ r, (s.substitute value references).1 = .ok r
        ∧ r.IsSplice (s.textOf value).toList
          (replacements s.text loc.start.offset (references.zip values))
          (unresolved (references.zip values)) := by
  cases references with
  | nil =>
      refine ⟨.unchanged (s.textOf value), by simp [substitute], ?_, rfl, fun k l h => by cases h⟩
      simp [unchanged, replacements, spliced]
  | cons first rest =>
      rw [substitute_cons hloc (hgroup first List.mem_cons_self)]
      rcases s.tryAsk_cases with ⟨e, he⟩ | ⟨w, hw⟩
      · -- without a walk the first call has no answer, and the session substitutes nothing
        simp only [he, List.mapM_cons]
        rfl
      · have hmap : (fun r => (s.tryAsk (·.closest r)).1) = w.closest := funext fun r => hw _ _
        have hresolved := mapM_resolved_eq (w := w) hgroup
        rw [hmap, hw]
        cases hvalues : (first :: rest).mapM w.closest with
        | error e =>
            rw [hvalues] at hresolved
            show ofValue s.text w value (first :: rest) = .error e
            rw [ofValue, hloc]
            simp only [foldlM_step_eq, hresolved]
            rfl
        | ok values =>
            rw [hvalues] at hresolved
            refine ofValue_isSplice hloc hlo hhi hresolved ⟨?_, ?_⟩
            · rintro ⟨r, value?⟩ hmem -
              exact hin r (List.of_mem_zip hmem).1
            · refine List.Pairwise.imp (fun h _ _ => h) ?_
              exact pairwise_zip_fst hord values

section Example

/-- A call to a property between two offsets. -/
private def callAt (id start stop : Nat) (h : start ≤ stop) (x : String) : Node :=
  .group ⟨id, some (.onFirstLine start stop h)⟩ (.function "var")
    [.leaf ⟨id + 1, none⟩ (.identifier x)]

private def knownCall : Node := callAt 6 15 23 (by decide) "--a"

private def unknownCall : Node := callAt 8 24 32 (by decide) "--b"

private def calling : Node :=
  .group ⟨5, some (.onFirstLine 13 32 (by decide))⟩ .value [knownCall, unknownCall]

/-- A rule that declares one property, and calls that one and another in a value. -/
private def callingSession : Session :=
  .start "a\x7b--a: zz ;w:1 var(--a) var(--b)\x7d" <| .group ⟨0, none⟩ .stylesheet
    [.rule ⟨1, none⟩ none (some (.group ⟨2, none⟩ .block
      [.declaration ⟨3, none⟩ "--a"
        (some (.leaf ⟨4, some (.onFirstLine 6 10 (by decide))⟩ (.raw " zz "))) false,
      .declaration ⟨10, none⟩ "w" (some calling) false]))]

/-- The first call is replaced and the text becomes shorter; the second stays, and what it refers
to is listed. -/
theorem substitute_calling :
    (∀ r ∈ [knownCall, unknownCall], r.members?.isSome)
      ∧ (∀ r ∈ [knownCall, unknownCall], r.Within 13 32)
      ∧ [knownCall, unknownCall].Pairwise Node.Before
      ∧ ∃ values r, ([knownCall, unknownCall].mapM fun r =>
            (callingSession.tryAsk (·.closest r)).1) = .ok values
        ∧ (callingSession.substitute calling [knownCall, unknownCall]).1 = .ok r
        ∧ r.IsSplice (callingSession.textOf calling).toList
          (replacements callingSession.text 13 ([knownCall, unknownCall].zip values))
          (unresolved ([knownCall, unknownCall].zip values))
        ∧ r.text.toList = "1 zz var(--b)".toList ∧ r.unknown = ["--b"] := by
  have hgroup : ∀ r ∈ [knownCall, unknownCall], r.members?.isSome := by decide
  have hin : ∀ r ∈ [knownCall, unknownCall], r.Within 13 32 := by
    rintro r hr
    rcases List.mem_pair.1 hr with rfl | rfl
    · exact ⟨.onFirstLine 15 23 (by decide), rfl, by decide, by decide⟩
    · exact ⟨.onFirstLine 24 32 (by decide), rfl, by decide, by decide⟩
  have hord : [knownCall, unknownCall].Pairwise Node.Before := by
    refine List.pairwise_pair.2 ?_
    rintro a ha b hb
    obtain rfl := Option.mem_some_iff.1 ha
    obtain rfl := Option.mem_some_iff.1 hb
    decide
  have hloc : calling.loc = some (.onFirstLine 13 32 (by decide)) := rfl
  have hrun : ((callingSession.substitute calling [knownCall, unknownCall]).1.toOption.map
      fun r => (r.text.toList, r.unknown)) = some ("1 zz var(--b)".toList, ["--b"]) := by
    decide +kernel
  have h := substitute_eq_splice callingSession hloc (by decide) (by decide) hgroup hin hord
  cases hvalues : [knownCall, unknownCall].mapM fun r =>
    (callingSession.tryAsk (·.closest r)).1 with
  | error e =>
      rw [hvalues] at h
      rw [h] at hrun
      cases hrun
  | ok values =>
      rw [hvalues] at h
      obtain ⟨r, hr, hsplice⟩ := h
      rw [hr] at hrun
      obtain ⟨htext, hunknown⟩ := Prod.mk.inj (Option.some.inj hrun)
      exact ⟨hgroup, hin, hord, values, r, rfl, hr, hsplice, htext, hunknown⟩

end Example

end Session

end Stylesheet
