/-
Excerpts of faulty text, line by line.

The excerpt of a fault is cut first and shown afterwards: what is left of the text has its line
feeds escaped, and with them the carriage returns right before them. The dots behind a cut begin
with no line feed, so it makes no difference to what stands before them
(`toList_excerpt`), and an excerpt is told by the first fifty characters of the text and by whether
there are more.

Escaping takes no other character away (`mem_showLineFeeds_iff`). But the ruler ends a line after a
form feed too, and after a carriage return with nothing behind it. These stay, and the excerpt is on
one line exactly if there are none. A carriage return may also lose its line feed to the cut.
-/
import Stylesheet.Proofs.FaultSearch

set_option autoImplicit false

namespace Stylesheet

namespace Fault

/-! ## Characters that stay -/

/-- A character stands at some place of a text at which it is shown as it is: it is no line feed,
and no carriage return with a line feed behind it. -/
def Stays (c : Char) (cs : List Char) : Prop :=
  ∃ before after, cs = before ++ c :: after ∧ c ≠ '\n' ∧ (c = '\r' → after.head? ≠ some '\n')

/-- A character stays at the first place or behind it. -/
theorem stays_cons_iff {c d : Char} {cs : List Char} :
    Stays c (d :: cs)
      ↔ (d = c ∧ c ≠ '\n' ∧ (c = '\r' → cs.head? ≠ some '\n')) ∨ Stays c cs := by
  constructor
  · rintro ⟨before, after, heq, hline, hpair⟩
    cases before with
    | nil =>
        obtain ⟨rfl, rfl⟩ := List.cons.inj heq
        exact .inl ⟨rfl, hline, hpair⟩
    | cons e before => exact .inr ⟨before, after, (List.cons.inj heq).2, hline, hpair⟩
  · rintro (⟨rfl, hline, hpair⟩ | ⟨before, after, rfl, hline, hpair⟩)
    · exact ⟨[], cs, rfl, hline, hpair⟩
    · exact ⟨d :: before, after, rfl, hline, hpair⟩

theorem showLineFeeds_cons {c : Char} {cs : List Char} (hline : c ≠ '\n')
    (hpair : c = '\r' → cs.head? ≠ some '\n') :
    showLineFeeds (c :: cs) = c :: showLineFeeds cs := by
  refine showLineFeeds.eq_4 c cs ?_ hline
  intro rest hc hcs
  exact hpair hc (congrArg List.head? hcs)

/-- **What stays is what is shown**, but for the two characters that an escape is made of. -/
theorem mem_showLineFeeds_iff {c : Char} (hslash : c ≠ '\\') (hletter : c ≠ 'n')
    (cs : List Char) : c ∈ showLineFeeds cs ↔ Stays c cs := by
  have hescape : ∀ shown : List Char, c ∈ '\\' :: 'n' :: shown ↔ c ∈ shown := by
    intro shown
    rw [List.mem_cons, List.mem_cons, or_iff_right hslash, or_iff_right hletter]
  have hfeed : ∀ rest, Stays c ('\n' :: rest) ↔ Stays c rest := by
    intro rest
    rw [stays_cons_iff]
    exact or_iff_right fun h => h.2.1 h.1.symm
  fun_induction showLineFeeds cs with
  | case1 =>
      refine ⟨fun h => absurd h List.not_mem_nil, ?_⟩
      rintro ⟨before, after, h, -⟩
      exact absurd h.symm (List.append_ne_nil_of_right_ne_nil _ (List.cons_ne_nil _ _))
  | case2 rest ih =>
      -- the carriage return goes with the line feed behind it
      rw [hescape, stays_cons_iff, hfeed]
      exact ih.trans (or_iff_right fun h => h.2.2 h.1.symm rfl).symm
  | case3 rest ih =>
      rw [hescape, hfeed]
      exact ih
  | case4 d rest hpair hline ih =>
      -- no escape begins here, so the first character stays
      have hhead : d = '\r' → rest.head? ≠ some '\n' := by
        intro hd hrest
        obtain ⟨tail, rfl⟩ := List.head?_eq_some_iff.1 hrest
        exact hpair tail hd rfl
      rw [List.mem_cons, stays_cons_iff]
      refine or_congr ⟨?_, fun h => h.1.symm⟩ ih
      rintro rfl
      exact ⟨rfl, hline, hhead⟩

/-- **Nothing that is shown ends a line** exactly if there is no form feed, and behind every
carriage return a line feed. -/
theorem showLineFeeds_onOneLine_iff (cs : List Char) :
    (∀ c ∈ showLineFeeds cs, Ruler.endsLine c = false)
      ↔ '\x0c' ∉ cs ∧ ∀ before after, cs = before ++ '\r' :: after → after.head? = some '\n' := by
  constructor
  · intro hone
    have hgone : ∀ c, c ≠ '\\' → c ≠ 'n' → Ruler.endsLine c = true → ¬ Stays c cs := by
      intro c hslash hletter hends hstays
      have := hone c ((mem_showLineFeeds_iff hslash hletter cs).2 hstays)
      rw [hends] at this
      cases this
    refine ⟨fun hfeed => ?_, fun before after heq => ?_⟩
    · obtain ⟨before, after, heq⟩ := List.append_of_mem hfeed
      exact hgone '\x0c' (by decide) (by decide) (by decide)
        ⟨before, after, heq, by decide, fun h => absurd h (by decide)⟩
    · by_cases hpair : after.head? = some '\n'
      · exact hpair
      · exact absurd ⟨before, after, heq, by decide, fun _ => hpair⟩
          (hgone '\r' (by decide) (by decide) (by decide))
  · rintro ⟨hform, hreturn⟩ c hc
    -- of the three characters that end a line, none stays
    cases hends : Ruler.endsLine c with
    | false => rfl
    | true =>
        exfalso
        have hthree : c = '\r' ∨ c = '\n' ∨ c = '\x0c' := by
          simpa [Ruler.endsLine, or_assoc] using hends
        have hstays : Stays c cs := by
          refine (mem_showLineFeeds_iff ?_ ?_ cs).1 hc
          · rintro rfl
            exact absurd hends (by decide)
          · rintro rfl
            exact absurd hends (by decide)
        obtain ⟨before, after, heq, hline, hpair⟩ := hstays
        rcases hthree with rfl | rfl | rfl
        · exact hpair rfl (hreturn before after heq)
        · exact hline rfl
        · exact hform (heq ▸ List.mem_append_right _ List.mem_cons_self)

/-! ## The cut -/

/-- A text is shown piece by piece, if the second piece does not begin with a line feed. -/
theorem showLineFeeds_append (cs : List Char) {ds : List Char} (h : ds.head? ≠ some '\n') :
    showLineFeeds (cs ++ ds) = showLineFeeds cs ++ showLineFeeds ds := by
  fun_induction showLineFeeds cs with
  | case1 => rfl
  | case2 rest ih => rw [List.cons_append, List.cons_append, showLineFeeds, ih]; rfl
  | case3 rest ih => rw [List.cons_append, showLineFeeds, ih]; rfl
  | case4 c rest hpair hline ih =>
      -- what stands behind the last character of the first piece begins the second one
      have hhead : c = '\r' → (rest ++ ds).head? ≠ some '\n' := by
        intro hc hrest
        cases rest with
        | nil => exact h hrest
        | cons d rest =>
            obtain rfl := Option.some.inj hrest
            exact hpair rest hc rfl
      rw [List.cons_append, showLineFeeds_cons hline hhead, ih]
      rfl

/-- **The excerpt** is made of the first fifty characters, and dots if there are more. -/
theorem toList_excerpt (src : Source) (c : Concrete) :
    let cs := (src.excerpt c.start c.stop).toList
    (excerpt src c).toList
      = showLineFeeds (cs.take maxExcerpt)
        ++ if maxExcerpt < cs.length then ['.', '.', '.'] else [] := by
  intro cs
  rw [excerpt, String.toList_ofList, shorten]
  by_cases hlong : maxExcerpt < cs.length
  · rw [if_pos hlong, if_pos hlong, showLineFeeds_append _ (by decide)]
    rfl
  · rw [if_neg hlong, if_neg hlong, List.append_nil,
      List.take_of_length_le (Nat.le_of_not_lt hlong)]

/-- The dots end no line. -/
theorem excerpt_onOneLine_iff (src : Source) (c : Concrete) :
    (∀ x ∈ (excerpt src c).toList, Ruler.endsLine x = false)
      ↔ ∀ x ∈ showLineFeeds ((src.excerpt c.start c.stop).toList.take maxExcerpt),
        Ruler.endsLine x = false := by
  rw [toList_excerpt, List.forall_mem_append]
  refine and_iff_left ?_
  split
  · intro x hx
    obtain rfl : x = '.' := List.eq_of_mem_replicate (n := 3) hx
    decide
  · exact fun x hx => absurd hx List.not_mem_nil

end Fault

/-! ## Reports -/

namespace Concrete

open Fault

/-- A fault that is reported is one of the faulty nodes of the tree. -/
theorem mem_walk_of_mem_faults {c : Concrete} {f : Fault} (h : f ∈ c.faults) :
    f.node ∈ c.walk ∧ (f.node.isError = true ∨ f.node.missing = true) := by
  rw [faults_eq] at h
  obtain ⟨s, hs, rfl⟩ := List.mem_map.1 (List.mem_of_mem_take h)
  obtain ⟨hsite, hshown⟩ := List.mem_filter.1 hs
  rw [Site.isShown, Bool.and_eq_true, Bool.or_eq_true] at hshown
  refine ⟨?_, hshown.1⟩
  rw [← map_node_sitesBelow [] c]
  exact List.mem_map_of_mem hsite

/-- **The text of every report** is made of the first fifty characters of the text of a faulty
node, with dots behind them if there are more. There is no line feed in it. It is on one line, as
the ruler ends lines, exactly if among those characters there is no form feed, and no carriage
return without a line feed behind it. -/
theorem diagnostics_onOneLine_iff (text : String) (c : Concrete) :
    ∀ d ∈ c.diagnostics (.ofText text), ∃ f ∈ c.faults, f.report (.ofText text) = d
      ∧ f.node ∈ c.walk ∧ (f.node.isError = true ∨ f.node.missing = true)
      ∧ let cs := ((Source.ofText text).excerpt f.node.start f.node.stop).toList
        d.text.toList
            = showLineFeeds (cs.take 50) ++ (if 50 < cs.length then ['.', '.', '.'] else [])
        ∧ '\n' ∉ d.text.toList
        ∧ ((∀ x ∈ d.text.toList, Ruler.endsLine x = false)
          ↔ '\x0c' ∉ cs.take 50 ∧ ∀ before after, cs.take 50 = before ++ '\r' :: after →
            after.head? = some '\n') := by
  intro d hd
  obtain ⟨f, hf, rfl⟩ := List.mem_map.1 hd
  obtain ⟨hwalk, hfaulty⟩ := mem_walk_of_mem_faults hf
  have htext := toList_excerpt (.ofText text) f.node
  refine ⟨f, hf, rfl, hwalk, hfaulty, htext, ?_, ?_⟩
  · show '\n' ∉ (excerpt (.ofText text) f.node).toList
    rw [htext, List.mem_append, not_or]
    refine ⟨fun hfeed => ?_, ?_⟩
    · obtain ⟨_, _, -, hline, -⟩ := (mem_showLineFeeds_iff (by decide) (by decide) _).1 hfeed
      exact hline rfl
    · split <;> decide
  · exact (excerpt_onOneLine_iff (.ofText text) f.node).trans (showLineFeeds_onOneLine_iff _)

section Example

/-- A region over a whole text of a few characters. -/
private def unreadable (stop : Int) : Concrete := .node "ERROR" 0 stop true false []

private theorem exists_report {text : String} {c : Concrete} {texts : List (List Char)}
    (h : (c.diagnostics (.ofText text)).map (·.text.toList) = texts) {shown : List Char}
    (hmem : shown ∈ texts) : ∃ d ∈ c.diagnostics (.ofText text), d.text.toList = shown :=
  List.mem_map.1 (h ▸ hmem)

/-- A carriage return with a line feed is shown as one escape. -/
theorem diagnostics_pairedReturn :
    ∃ d ∈ (unreadable 4).diagnostics (.ofText "a\r\nb"),
      d.text.toList = ['a', '\\', 'n', 'b'] ∧ '\n' ∉ d.text.toList
        ∧ (d.text.toList.any Ruler.endsLine) = false := by
  have htexts : ((unreadable 4).diagnostics (.ofText "a\r\nb")).map (·.text.toList)
      = [['a', '\\', 'n', 'b']] := by decide +kernel
  obtain ⟨d, hd, htext⟩ := exists_report htexts (List.mem_singleton_self _)
  obtain ⟨f, -, -, -, -, -, hfeed, -⟩ := diagnostics_onOneLine_iff "a\r\nb" (unreadable 4) d hd
  refine ⟨d, hd, htext, hfeed, ?_⟩
  rw [htext]
  rfl

/-- A carriage return alone is shown as it is. -/
theorem diagnostics_loneReturn :
    ((unreadable 3).diagnostics (.ofText "a\rb")).map (·.text.toList) = [['a', '\r', 'b']]
      ∧ ¬ ∀ d ∈ (unreadable 3).diagnostics (.ofText "a\rb"), ∀ x ∈ d.text.toList,
        Ruler.endsLine x = false := by
  have htexts : ((unreadable 3).diagnostics (.ofText "a\rb")).map (·.text.toList)
      = [['a', '\r', 'b']] := by decide +kernel
  refine ⟨htexts, fun hone => ?_⟩
  obtain ⟨d, hd, htext⟩ := exists_report htexts (List.mem_singleton_self _)
  have hreturn : '\r' ∈ d.text.toList := by
    rw [htext]
    exact List.mem_cons_of_mem _ List.mem_cons_self
  have hends := hone d hd '\r' hreturn
  cases hends

end Example

end Concrete

end Stylesheet
