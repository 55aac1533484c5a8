/-
Character offsets follow octet offsets.

The ruler turns octets into characters in two ways, by taking the octet as it is for a text in
ASCII and by counting the characters that begin before it for any other. Either way a later octet
has no earlier character, no earlier line, and in one line no earlier column; and octets within the
text have characters within it. So there is a location between two octets exactly if their offsets
are in order.
-/
import Stylesheet.Source.Basic

set_option autoImplicit false

namespace Stylesheet

namespace Ruler

/-! ## Where characters begin -/

/-- The octet offsets at which characters begin, and that of their end, from an octet on. -/
def charStartsAt (i : Nat) : List Char → List Nat
  | [] => [i]
  | c :: cs => i :: charStartsAt (i + c.utf8Size) cs

theorem charStartsFrom_eq (i : Nat) (found : List Nat) (cs : List Char) :
    charStartsFrom i found cs = found.reverse ++ charStartsAt i cs := by
  induction cs generalizing i found with
  | nil => rw [charStartsFrom, List.reverse_cons, charStartsAt]
  | cons c cs ih =>
      rw [charStartsFrom, ih, List.reverse_cons, charStartsAt, List.append_assoc]
      rfl

theorem length_encode_cons (c : Char) (cs : List Char) :
    (Text.Utf8.encode (c :: cs)).length = c.utf8Size + (Text.Utf8.encode cs).length := by
  rw [Text.Utf8.encode, List.flatMap_cons, List.length_append, String.length_utf8EncodeChar]
  rfl

/-- A text in ASCII has as many octets as characters. -/
theorem length_encode_of_isAscii {cs : List Char} (h : isAscii cs = true) :
    (Text.Utf8.encode cs).length = cs.length := by
  induction cs with
  | nil => rfl
  | cons c cs ih =>
      rw [isAscii, List.all_cons, Bool.and_eq_true] at h
      have hc : c.toNat < 128 := by simpa using h.1
      have hsize : c.utf8Size = 1 := Char.utf8Size_eq_one_iff.2 (Nat.le_of_lt_succ hc)
      rw [length_encode_cons, ih h.2, hsize, List.length_cons, Nat.add_comm]

/-- No more characters begin before an octet within a text than the text has. -/
theorem countP_charStartsAt_le {i : Nat} {cs : List Char} {octet : Int}
    (h : octet ≤ i + (Text.Utf8.encode cs).length) :
    (charStartsAt i cs).countP (fun start : Nat => decide ((start : Int) < octet))
      ≤ cs.length := by
  induction cs generalizing i with
  | nil =>
      -- the end is listed with the starts, but no octet within the text lies behind it
      have hend : ¬ (i : Int) < octet := by
        simp only [Text.Utf8.encode, List.flatMap_nil, List.length_nil] at h
        omega
      simp [charStartsAt, hend]
  | cons c cs ih =>
      rw [length_encode_cons] at h
      have hrest := ih (i := i + c.utf8Size) (by push_cast at h ⊢; omega)
      rw [charStartsAt, List.countP_cons, List.length_cons]
      split <;> omega

/-- No character of a text begins before the text does. -/
theorem le_of_mem_charStartsAt {i start : Nat} {cs : List Char} (h : start ∈ charStartsAt i cs) :
    i ≤ start := by
  induction cs generalizing i with
  | nil =>
      rw [charStartsAt, List.mem_singleton] at h
      exact Nat.le_of_eq h.symm
  | cons c cs ih =>
      rw [charStartsAt, List.mem_cons] at h
      rcases h with rfl | h
      · exact Nat.le_refl _
      · exact Nat.le_trans (Nat.le_add_right i _) (ih h)

/-- The characters that begin before the end of a first part are those of that part. -/
theorem countP_charStartsAt_append (i : Nat) (before after : List Char) :
    (charStartsAt i (before ++ after)).countP
        (fun start : Nat => decide ((start : Int) < (i + (Text.Utf8.encode before).length : Nat)))
      = before.length := by
  induction before generalizing i with
  | nil =>
      refine List.countP_eq_zero.2 fun start hstart => ?_
      have hle := le_of_mem_charStartsAt hstart
      simp only [Text.Utf8.encode, List.flatMap_nil, List.length_nil, decide_eq_true_eq]
      omega
  | cons c before ih =>
      have hpos := c.utf8Size_pos
      have hrest := ih (i + c.utf8Size)
      have hfirst : (i : Int) < (i + (c.utf8Size + (Text.Utf8.encode before).length) : Nat) := by
        omega
      rw [Nat.add_assoc] at hrest
      rw [List.cons_append, charStartsAt, length_encode_cons, List.countP_cons, hrest,
        List.length_cons, if_pos (decide_eq_true hfirst)]

/-! ## Offsets -/

/-- A later octet has no earlier character. -/
theorem charOffset_mono (r : Ruler) {a b : Int} (h : a ≤ b) :
    r.charOffset a ≤ r.charOffset b := by
  rw [charOffset, charOffset]
  cases r.charStarts with
  | none => exact h
  | some starts =>
      refine Int.ofNat_le.2 (List.countP_mono_left fun start _ hstart => ?_)
      simp only [decide_eq_true_eq] at hstart ⊢
      omega

theorem charOffset_nonneg (r : Ruler) {a : Int} (h : 0 ≤ a) : 0 ≤ r.charOffset a := by
  rw [charOffset]
  cases r.charStarts with
  | none => exact h
  | some starts => exact Int.natCast_nonneg _

/-- An octet up to the end of a text has a character up to its end. -/
theorem charOffset_le {cs : List Char} {a : Int} (h : a ≤ (Text.Utf8.encode cs).length) :
    (ofChars cs).charOffset a ≤ cs.length := by
  rw [charOffset, ofChars]
  by_cases hascii : isAscii cs = true
  · rw [length_encode_of_isAscii hascii] at h
    simpa [hascii] using h
  · simp only [hascii, Bool.false_eq_true, if_false, charStartsFrom_eq, List.reverse_nil,
      List.nil_append]
    exact Int.ofNat_le.2 (countP_charStartsAt_le (by simpa using h))

/-- **The octets of a first part** of a text come to the characters of that part. -/
theorem charOffset_length_encode (before after : List Char) :
    (ofChars (before ++ after)).charOffset (Text.Utf8.encode before).length = before.length := by
  rw [charOffset, ofChars]
  by_cases hascii : isAscii (before ++ after) = true
  · have hbefore : isAscii before = true := by
      rw [isAscii, List.all_append, Bool.and_eq_true] at hascii
      exact hascii.1
    simp [hascii, length_encode_of_isAscii hbefore]
  · have hcount := countP_charStartsAt_append 0 before after
    rw [Nat.zero_add] at hcount
    simp only [hascii, Bool.false_eq_true, if_false, charStartsFrom_eq, List.reverse_nil,
      List.nil_append]
    exact congrArg Int.ofNat hcount

/-! ## Positions -/

theorem linesUpTo_mono (r : Ruler) {a b : Int} (h : a ≤ b) :
    r.linesUpTo a ≤ r.linesUpTo b := by
  apply List.countP_mono_left
  intro start _ hstart
  simp only [decide_eq_true_eq] at hstart ⊢
  omega

/-- **A later octet has no earlier position**: its offset is no smaller, nor is its line, and in one
line nor is its column. -/
theorem position_mono (r : Ruler) {a b : Int} (h : a ≤ b) :
    (r.position a).offset ≤ (r.position b).offset
      ∧ ((r.position a).line < (r.position b).line
        ∨ (r.position a).line = (r.position b).line
          ∧ (r.position a).column ≤ (r.position b).column) := by
  have hoffset : (r.position a).offset ≤ (r.position b).offset := r.charOffset_mono h
  refine ⟨hoffset, ?_⟩
  rcases Nat.lt_or_eq_of_le (r.linesUpTo_mono hoffset) with hline | hline
  · exact .inl (Int.ofNat_lt.2 hline)
  · -- in one line both columns are measured from one start
    refine .inr ⟨congrArg Int.ofNat hline, ?_⟩
    have hstart : r.lineStart (r.linesUpTo (r.charOffset a))
        = r.lineStart (r.linesUpTo (r.charOffset b)) := congrArg r.lineStart hline
    simp only [position] at hoffset ⊢
    rw [hstart]
    omega

/-! ## Locations -/

/-- Between octets whose offsets are in order there is a location, as their lines are in order
too. -/
theorem location_of_le (r : Ruler) {a b : Int} (h : r.charOffset a ≤ r.charOffset b) :
    r.location a b
      = .ok ⟨r.position a, r.position b, h, Int.ofNat_le.2 (r.linesUpTo_mono h)⟩ := by
  have hoffset : (r.position a).offset ≤ (r.position b).offset := h
  have hline : (r.position a).line ≤ (r.position b).line := Int.ofNat_le.2 (r.linesUpTo_mono h)
  unfold location Location.between
  rw [dif_pos hoffset, dif_pos hline]

/-- Between others there is none, because of their offsets. -/
theorem location_of_lt (r : Ruler) {a b : Int} (h : r.charOffset b < r.charOffset a) :
    r.location a b = .error .offsetsReversed := by
  have hoffset : ¬ (r.position a).offset ≤ (r.position b).offset := Int.not_le.2 h
  unfold location Location.between
  rw [dif_neg hoffset]

end Ruler

end Stylesheet
