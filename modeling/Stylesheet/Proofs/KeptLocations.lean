/-
Which replacements keep their locations.

The offsets of a substitution are a table with one entry for an offset: a second location that is
recorded at the same offset takes the place of the first. So every replacement has its location
exactly if no two of them begin at the same offset of the new text.

Replacements are placed from left to right, each behind the characters of the one before it and what
stands between the two calls in the old text. Two that follow on each other begin at the same
offset only if the first has no characters and nothing stands between the calls, and then the
first one loses its location (`nodup_placed_iff`). An empty custom property is enough for that.
-/
import Stylesheet.Proofs.Built
import Stylesheet.Proofs.DistinctKeys
import Stylesheet.Proofs.Splice

set_option autoImplicit false

namespace Stylesheet

/-! ## Counting entries -/

/-- A table grows by one entry if the key is new, and not at all if it is there. -/
theorem Assoc.length_put {κ α : Type} [DecidableEq κ] (entries : Assoc κ α) (key : κ) (value : α) :
    (put entries key value).length
      = if key ∈ keys entries then entries.length else entries.length + 1 := by
  have hkeys := congrArg List.length (keys_put entries key value)
  have hlength : ∀ entries : Assoc κ α, (keys entries).length = entries.length :=
    fun entries => List.length_map _
  rw [apply_ite List.length, List.length_append, List.length_singleton, hlength, hlength] at hkeys
  exact hkeys

/-- What stands in a table without repeated keys is found under its key. -/
theorem Assoc.get?_of_mem {κ α : Type} [DecidableEq κ] {entries : Assoc κ α}
    (hkeys : (keys entries).Nodup) {key : κ} {value : α} (h : (key, value) ∈ entries) :
    get? entries key = some value := by
  induction entries with
  | nil => cases h
  | cons e rest ih =>
      obtain ⟨k, v⟩ := e
      obtain ⟨hfirst, hrest⟩ := List.nodup_cons.1 hkeys
      rcases List.mem_cons.1 h with heq | hmem
      · obtain ⟨rfl, rfl⟩ := Prod.mk.inj heq
        rw [get?, if_pos rfl]
      · have hne : k ≠ key := by
          rintro rfl
          exact hfirst (List.mem_map.2 ⟨_, hmem, rfl⟩)
        rw [get?, if_neg hne]
        exact ih hrest hmem

namespace Substitution

/-- The offsets at which edits are placed, as they are recorded. -/
def keysOf (ps : List (Nat × Edit)) : List Int := ps.map fun p => (p.1 : Int)

/-- There are never more entries than were recorded. -/
theorem length_recorded_le (offsets : Assoc Int Location) (ps : List (Nat × Edit)) :
    (recorded offsets ps).length ≤ offsets.length + ps.length := by
  induction ps generalizing offsets with
  | nil => exact Nat.le_refl _
  | cons p ps ih =>
      have hput := Assoc.length_put offsets (p.1 : Int) p.2.loc
      have hrest := ih (Assoc.put offsets (p.1 : Int) p.2.loc)
      rw [recorded, List.foldl_cons, List.length_cons]
      rw [recorded] at hrest
      split at hput <;> omega

/-- If all offsets are new and different, an entry is added for each. -/
theorem recorded_eq_append {offsets : Assoc Int Location} {ps : List (Nat × Edit)}
    (h : (Assoc.keys offsets ++ keysOf ps).Nodup) :
    recorded offsets ps = offsets ++ ps.map fun p => ((p.1 : Int), p.2.loc) := by
  induction ps generalizing offsets with
  | nil => rw [List.map_nil, List.append_nil]; rfl
  | cons p ps ih =>
      have hnew : (p.1 : Int) ∉ Assoc.keys offsets := by
        intro hold
        exact (List.nodup_append.1 h).2.2 _ hold _ List.mem_cons_self rfl
      have hput := Assoc.put_of_notMem_keys hnew p.2.loc
      have hkeys : (Assoc.keys (Assoc.put offsets (p.1 : Int) p.2.loc) ++ keysOf ps).Nodup := by
        rw [hput, Assoc.keys, List.map_append, List.append_assoc]
        exact h
      -- the first entry is put behind the ones that are there, and the others behind it
      show recorded (Assoc.put offsets (p.1 : Int) p.2.loc) ps = _
      rw [ih hkeys, hput, List.append_assoc]
      rfl

/-- **As many entries as were recorded** are there only if all offsets are new and different. -/
theorem nodup_of_length_recorded {offsets : Assoc Int Location} {ps : List (Nat × Edit)}
    (hkeys : (Assoc.keys offsets).Nodup)
    (h : (recorded offsets ps).length = offsets.length + ps.length) :
    (Assoc.keys offsets ++ keysOf ps).Nodup := by
  induction ps generalizing offsets with
  | nil => rwa [keysOf, List.map_nil, List.append_nil]
  | cons p ps ih =>
      have hput := Assoc.length_put offsets (p.1 : Int) p.2.loc
      have hrest : (recorded (Assoc.put offsets (p.1 : Int) p.2.loc) ps).length
          = offsets.length + (ps.length + 1) := h
      by_cases hold : (p.1 : Int) ∈ Assoc.keys offsets
      · -- the entry that is replaced is missing in the end
        have hle := length_recorded_le (Assoc.put offsets (p.1 : Int) p.2.loc) ps
        rw [if_pos hold] at hput
        omega
      · rw [if_neg hold] at hput
        have hnodup := ih (Assoc.nodup_keys_put hkeys (p.1 : Int) p.2.loc) (by omega)
        rw [Assoc.put_of_notMem_keys hold, Assoc.keys, List.map_append, List.append_assoc]
          at hnodup
        exact hnodup

/-! ## Where edits are placed -/

/-- No edit is placed before what is written already. -/
theorem le_of_mem_placed {i o : Nat} {es : List Edit} {p : Nat × Edit} (h : p ∈ placed i o es) :
    o ≤ p.1 := by
  induction es generalizing i o with
  | nil => cases h
  | cons e es ih =>
      rw [placed] at h
      rcases List.mem_cons.1 h with rfl | h
      · exact Nat.le_add_right _ _
      · have := ih h
        omega

theorem mem_placed_of_eq {own : List Char} {i o : Nat} {before : List Edit} {e : Edit}
    {after : List Edit} (h : InOrder own.length i (before ++ e :: after)) :
    (o + (spliced own i before e.start).length, e) ∈ placed i o (before ++ e :: after) := by
  induction before generalizing i o with
  | nil =>
      have hgap := h.length_gap
      rw [spliced, hgap]
      exact List.mem_cons_self
  | cons d before ih =>
      have hgap := h.length_gap
      obtain ⟨-, -, hrest⟩ := h
      have hmem := ih (o := o + (d.start - i) + d.new.length) hrest
      rw [spliced, List.length_append, List.length_append, hgap, ← Nat.add_assoc, ← Nat.add_assoc]
      exact List.mem_cons_of_mem _ hmem

/-- No edit without characters touches the edit that follows on it. -/
def Separate (es : List Edit) : Prop :=
  ∀ before d e after, es = before ++ d :: e :: after → d.new = [] → d.stop < e.start

theorem separate_singleton (d : Edit) : Separate [d] := by
  intro before c e after heq
  have := congrArg List.length heq
  simp only [List.length_append, List.length_cons, List.length_nil] at this
  omega

/-- Whether edits are separate is a matter of the first two, and of all but the first. -/
theorem separate_cons_cons_iff {d e : Edit} {es : List Edit} :
    Separate (d :: e :: es) ↔ (d.new = [] → d.stop < e.start) ∧ Separate (e :: es) := by
  constructor
  · intro h
    refine ⟨h [] d e es rfl, fun before d' e' after heq => ?_⟩
    exact h (d :: before) d' e' after (congrArg (d :: ·) heq)
  · rintro ⟨hfirst, hrest⟩ before d' e' after heq
    cases before with
    | nil =>
        simp only [List.nil_append, List.cons.injEq] at heq
        obtain ⟨rfl, rfl, -⟩ := heq
        exact hfirst
    | cons c before => exact hrest before d' e' after (List.cons.inj heq).2

/-- **Two edits are placed at one offset** exactly if an edit without characters touches the next
one. -/
theorem nodup_placed_iff {length i o : Nat} {es : List Edit} (h : InOrder length i es) :
    ((placed i o es).map (·.1)).Nodup ↔ Separate es := by
  induction es generalizing i o with
  | nil =>
      refine ⟨fun _ before d e after heq => ?_, fun _ => List.nodup_nil⟩
      exact absurd heq.symm (List.append_ne_nil_of_right_ne_nil _ (List.cons_ne_nil _ _))
  | cons d es ih =>
      obtain ⟨hstart, hstop, hrest⟩ := h
      have hlater := ih (o := o + (d.start - i) + d.new.length) hrest
      cases es with
      | nil => exact ⟨fun _ => separate_singleton d, fun _ => List.nodup_singleton _⟩
      | cons e es =>
          obtain ⟨hgap, -, -⟩ := hrest
          rw [placed, List.map_cons, List.nodup_cons, hlater, separate_cons_cons_iff]
          refine and_congr_left fun _ => ?_
          -- the edits behind the first are placed no earlier than the second one
          have hnext : ∀ k ∈ (placed d.stop (o + (d.start - i) + d.new.length) (e :: es)).map (·.1),
              o + (d.start - i) + d.new.length + (e.start - d.stop) ≤ k := by
            intro k hk
            obtain ⟨p, hp, rfl⟩ := List.mem_map.1 hk
            rw [placed] at hp
            rcases List.mem_cons.1 hp with rfl | hp
            · exact Nat.le_refl _
            · have := le_of_mem_placed hp
              omega
          constructor
          · intro hnew hempty
            by_contra htouch
            apply hnew
            rw [placed, List.map_cons, hempty, List.length_nil]
            have hsame : o + (d.start - i) = o + (d.start - i) + 0 + (e.start - d.stop) := by omega
            exact hsame ▸ List.mem_cons_self
          · intro hseparate hold
            have hle := hnext _ hold
            have hempty : d.new = [] := List.length_eq_zero_iff.1 (by omega)
            have := hseparate hempty
            omega

/-! ## Locations that are kept -/

/-- Each edit has an entry of its own: there are as many entries as edits, and at the offset at
which the characters of an edit begin in the new text stands the location that it is for. -/
structure KeepsLocations (own : List Char) (es : List Edit) (r : Substitution) : Prop where
  length : r.offsets.length = es.length
  locationAt : ∀ before e after, es = before ++ e :: after →
    r.locationAt (spliced own 0 before e.start).length = some e.loc

theorem length_placed (i o : Nat) (es : List Edit) : (placed i o es).length = es.length := by
  induction es generalizing i o with
  | nil => rfl
  | cons e es ih => rw [placed, List.length_cons, List.length_cons, ih]

/-- **Locations are kept** exactly if no edit without characters touches the next one. -/
theorem keepsLocations_iff {own : List Char} {es : List Edit} {r : Substitution}
    (horder : InOrder own.length 0 es) (hoffsets : r.offsets = recorded [] (placed 0 0 es)) :
    r.KeepsLocations own es ↔ Separate es := by
  have hkeys : (keysOf (placed 0 0 es)).Nodup ↔ Separate es := by
    have hcast : keysOf (placed 0 0 es) = ((placed 0 0 es).map (·.1)).map Int.ofNat := by
      rw [List.map_map]
      rfl
    rw [← nodup_placed_iff (o := 0) horder, hcast]
    exact List.nodup_map_iff fun _ _ => Int.ofNat.inj
  rw [← hkeys]
  constructor
  · -- the count alone tells that no entry was replaced
    rintro ⟨hlength, -⟩
    have hcount : (recorded [] (placed 0 0 es)).length
        = ([] : Assoc Int Location).length + (placed 0 0 es).length := by
      rw [← hoffsets, hlength, length_placed, List.length_nil, Nat.zero_add]
    have hempty : (Assoc.keys ([] : Assoc Int Location)).Nodup := List.nodup_nil
    exact nodup_of_length_recorded hempty hcount
  · intro hnodup
    have hnew : (Assoc.keys ([] : Assoc Int Location) ++ keysOf (placed 0 0 es)).Nodup := hnodup
    have hentries := recorded_eq_append hnew
    rw [List.nil_append, ← hoffsets] at hentries
    refine ⟨?_, ?_⟩
    · rw [hentries, List.length_map, length_placed]
    · rintro before e after rfl
      have hmem := mem_placed_of_eq (o := 0) horder
      rw [Nat.zero_add] at hmem
      rw [Substitution.locationAt]
      apply Assoc.get?_of_mem
      · rw [hentries, Assoc.keys, List.map_map]
        exact hnodup
      · rw [hentries]
        exact List.mem_map_of_mem hmem

end Substitution

namespace Session

open Substitution

/-- If the closest values of calls that are groups can be told, one walk tells them all, and
substitutes them; and if not, nothing is substituted. -/
theorem substitute_of_closest (s : Session) {value : Node} {loc : Location}
    {references : List Node} (hloc : value.loc = some loc)
    (hgroup : ∀ r ∈ references, r.members?.isSome) :
    match references.mapM fun r => (s.tryAsk (·.closest r)).1 with
    | .error e => (s.substitute value references).1 = .error e
    | .ok values => ∃ w, (s.substitute value references).1 = ofValue s.text w value references
        ∧ references.mapM (resolved w) = .ok (references.zip values) := by
  rcases s.tryAsk_cases with ⟨e, he⟩ | ⟨w, hw⟩
  · cases references with
    | nil =>
        -- without a call no walk is needed, and any will do
        refine ⟨⟨[], [], [], []⟩, ?_, rfl⟩
        rw [ofValue, hloc]
        simp only [substitute, hloc]
        rfl
    | cons first rest =>
        rw [substitute_cons hloc (hgroup first List.mem_cons_self)]
        simp only [he, List.mapM_cons]
        rfl
  · have hmap : (fun r => (s.tryAsk (·.closest r)).1) = w.closest := funext fun r => hw _ _
    have hresolved := mapM_resolved_eq (w := w) hgroup
    rw [hmap, substitute_eq_ofValue hw hloc hgroup]
    cases hvalues : references.mapM w.closest with
    | error e =>
        rw [hvalues] at hresolved
        show ofValue s.text w value references = .error e
        rw [ofValue, hloc]
        simp only [foldlM_step_eq, hresolved]
        rfl
    | ok values =>
        rw [hvalues] at hresolved
        exact ⟨w, rfl, hresolved⟩

/-- **Which replacements keep their locations.** The value lies inside the text, and the calls
inside the value, each ending before the next begins. If all closest values can be told, every
call that is replaced has an entry of its own among the offsets, and its location stands where
the text of its value begins, exactly if no call that is replaced by nothing touches the next one
that is replaced. -/
theorem substitute_keepsLocations_iff (s : Session) {value : Node} {loc : Location}
    {references : List Node} (hloc : value.loc = some loc) (hlo : 0 ≤ loc.start.offset)
    (hhi : loc.stop.offset ≤ s.text.toList.length)
    (hgroup : ∀ r ∈ references, r.members?.isSome)
    (hin : ∀ r ∈ references, r.Within loc.start.offset loc.stop.offset)
    (hord : references.Pairwise Node.Before) :
    match references.mapM fun r => (s.tryAsk (·.closest r)).1 with
    | .error e => (s.substitute value references).1 = .error e
    | .ok values =>
        let own := (s.textOf value).toList
        let es := replacements s.text loc.start.offset (references.zip values)
        ∃ r, (s.substitute value references).1 = .ok r
          ∧ r.text.toList = spliced own 0 es own.length
          ∧ (r.KeepsLocations own es ↔ Separate es) := by
  have hanswer := s.substitute_of_closest hloc hgroup
  cases hvalues : references.mapM fun r => (s.tryAsk (·.closest r)).1 with
  | error e =>
      rw [hvalues] at hanswer
      exact hanswer
  | ok values =>
      rw [hvalues] at hanswer
      obtain ⟨w, hw, hresolved⟩ := hanswer
      have hordered : Ordered loc.start.offset loc.stop.offset (references.zip values) := by
        refine ⟨?_, ?_⟩
        · rintro ⟨r, value?⟩ hmem -
          exact hin r (List.of_mem_zip hmem).1
        · exact (pairwise_zip_fst hord values).imp fun h _ _ => h
      obtain ⟨horder, r, hr, htext, -, hoffsets⟩ :=
        ofValue_eq_recorded hloc hlo hhi hresolved hordered
      exact ⟨r, hw.trans hr, htext, keepsLocations_iff horder hoffsets⟩

section Example

/-- A call between two offsets of the first line. -/
private def varBetween (id start stop : Nat) (h : start ≤ stop) (x : String) : Node :=
  .group ⟨id, some (.onFirstLine start stop h)⟩ (.function "var")
    [.leaf ⟨id + 1, none⟩ (.identifier x)]

/-- Two calls on the first line, the first of which ends before the second begins. -/
private theorem row_varBetween {i a b j c d : Nat} (h : a ≤ b) (h' : c ≤ d) (x y : String)
    (hle : b ≤ c) :
    Node.Row a d [varBetween i a b h x, varBetween j c d h' y] := by
  refine ⟨?_, List.pairwise_pair.2 ?_⟩
  · rintro r hr
    rcases List.mem_pair.1 hr with rfl | rfl
    · exact ⟨_, rfl, Int.le_refl _, Int.ofNat_le.2 (Nat.le_trans hle h')⟩
    · exact ⟨_, rfl, Int.ofNat_le.2 (Nat.le_trans h hle), Int.le_refl _⟩
  · rintro l hl m hm
    obtain rfl := Option.mem_some_iff.1 hl
    obtain rfl := Option.mem_some_iff.1 hm
    exact Int.ofNat_le.2 hle

/-- Calls to an empty property and to another, with a blank between them. -/
private def apart : List Node :=
  [varBetween 7 18 29 (by decide) "--none", varBetween 9 30 38 (by decide) "--b"]

/-- The same calls with nothing between them. -/
private def touching : List Node :=
  [varBetween 13 41 52 (by decide) "--none", varBetween 15 52 60 (by decide) "--b"]

private def apartValue : Node := .group ⟨6, some (.onFirstLine 18 38 (by decide))⟩ .value apart

private def touchingValue : Node :=
  .group ⟨12, some (.onFirstLine 41 60 (by decide))⟩ .value touching

/-- A rule that declares an empty property and another, and calls both in two values. -/
private def emptiedSession : Session :=
  .start "a\x7b--none:;--b:x;w:var(--none) var(--b);w:var(--none)var(--b)\x7d" <|
    .group ⟨0, none⟩ .stylesheet
      [.rule ⟨1, none⟩ none (some (.group ⟨2, none⟩ .block
        [.declaration ⟨3, none⟩ "--none"
          (some (.leaf ⟨4, some (.onFirstLine 9 9 (by decide))⟩ (.raw ""))) false,
        .declaration ⟨5, none⟩ "--b"
          (some (.leaf ⟨17, some (.onFirstLine 14 15 (by decide))⟩ (.raw "x"))) false,
        .declaration ⟨18, none⟩ "w" (some apartValue) false,
        .declaration ⟨19, none⟩ "w" (some touchingValue) false]))]

/-- The blank between two calls keeps the location of the first one, which is replaced by
nothing. -/
theorem substitute_apart :
    (∀ r ∈ apart, r.members?.isSome) ∧ Node.Row 18 38 apart
      ∧ ∃ values r, (apart.mapM fun r => (emptiedSession.tryAsk (·.closest r)).1) = .ok values
        ∧ (emptiedSession.substitute apartValue apart).1 = .ok r
        ∧ r.text.toList = [' ', 'x']
        ∧ r.KeepsLocations (emptiedSession.textOf apartValue).toList
          (replacements emptiedSession.text 18 (apart.zip values))
        ∧ r.offsets.map (fun o => (o.1, o.2.start.offset)) = [(0, 18), (1, 30)] := by
  have hgroup : ∀ r ∈ apart, r.members?.isSome := by decide
  have hrow : Node.Row 18 38 apart := row_varBetween _ _ _ _ (by decide)
  have hloc : apartValue.loc = some (.onFirstLine 18 38 (by decide)) := rfl
  have hrun : ((emptiedSession.substitute apartValue apart).1.toOption.map fun r =>
      (r.text.toList, r.offsets.map fun o => (o.1, o.2.start.offset)))
        = some ([' ', 'x'], [(0, 18), (1, 30)]) := by
    decide +kernel
  have hedits : ((apart.mapM fun r => (emptiedSession.tryAsk (·.closest r)).1).toOption.map
      fun values => (replacements emptiedSession.text 18 (apart.zip values)).map
        fun e => (e.start, e.stop)) = some [(0, 11), (12, 20)] := by
    decide +kernel
  have h := substitute_keepsLocations_iff emptiedSession hloc (by decide) (by decide) hgroup
    hrow.1 hrow.2
  cases hvalues : apart.mapM fun r => (emptiedSession.tryAsk (·.closest r)).1 with
  | error e =>
      rw [hvalues] at h
      rw [h] at hrun
      cases hrun
  | ok values =>
      rw [hvalues] at h hedits
      obtain ⟨r, hr, -, hkeeps⟩ := h
      rw [hr] at hrun
      obtain ⟨htext, hoffsets⟩ := Prod.mk.inj (Option.some.inj hrun)
      have hseparate : Separate (replacements emptiedSession.text 18 (apart.zip values)) := by
        -- one character stands between the two edits
        obtain ⟨d, es, hes, hd, htail⟩ := List.map_eq_cons_iff.1 (Option.some.inj hedits)
        obtain ⟨e, rfl, he⟩ := List.map_eq_singleton_iff.1 htail
        rw [hes, separate_cons_cons_iff, (Prod.mk.inj hd).2, (Prod.mk.inj he).1]
        exact ⟨fun _ => by decide, separate_singleton e⟩
      exact ⟨hgroup, hrow, values, r, rfl, hr, htext, hkeeps.2 hseparate, hoffsets⟩

/-- With nothing between the calls both are replaced at the beginning of the new text, and only
the location of the second one is kept. -/
theorem substitute_touching :
    (∀ r ∈ touching, r.members?.isSome) ∧ Node.Row 41 60 touching
      ∧ ∃ values r, (touching.mapM fun r => (emptiedSession.tryAsk (·.closest r)).1) = .ok values
        ∧ (emptiedSession.substitute touchingValue touching).1 = .ok r
        ∧ r.text.toList = ['x'] ∧ r.offsets.map (fun o => (o.1, o.2.start.offset)) = [(0, 52)]
        ∧ (replacements emptiedSession.text 41 (touching.zip values)).length = 2
        ∧ ¬ r.KeepsLocations (emptiedSession.textOf touchingValue).toList
          (replacements emptiedSession.text 41 (touching.zip values)) := by
  have hrun : ((emptiedSession.substitute touchingValue touching).1.toOption.map fun r =>
      (r.text.toList, r.offsets.map fun o => (o.1, o.2.start.offset)))
        = some (['x'], [(0, 52)]) := by
    decide +kernel
  have hedits : ((touching.mapM fun r => (emptiedSession.tryAsk (·.closest r)).1).toOption.map
      fun values => (replacements emptiedSession.text 41 (touching.zip values)).length)
        = some 2 := by
    decide +kernel
  obtain ⟨r, hr, hrun⟩ := Option.map_eq_some_iff.1 hrun
  obtain ⟨values, hvalues, hedits⟩ := Option.map_eq_some_iff.1 hedits
  obtain ⟨htext, hoffsets⟩ := Prod.mk.inj hrun
  refine ⟨by decide, row_varBetween _ _ _ _ (by decide), values, r, eq_ok_of_toOption hvalues,
    eq_ok_of_toOption hr, htext, hoffsets, hedits, ?_⟩
  rintro ⟨hlength, -⟩
  have hone := congrArg List.length hoffsets
  rw [List.length_map, hlength, hedits] at hone
  cases hone

end Example

end Session

end Stylesheet
