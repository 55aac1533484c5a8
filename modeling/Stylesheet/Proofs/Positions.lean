/-
Positions, told from the characters alone.

A ruler is measured once, and positions are then looked up in its two lists: where the characters
of the text begin, in octets, and where its lines begin, in characters. Here a position is said
without the ruler, by the indices of the text: how many characters begin before an octet, how many
lines end before an offset, and which offset is the first on a line (`placeOf`).

What carries the file is that the scan for line ends, which takes a carriage return and the line
feed behind it in one step, finds the offsets behind the ends of lines, in increasing order
(`lineStarts_ofChars`). Such a list is cut by an offset (`isCut_countP`): the entries up to it are
those at the first indices, so that their number says which line the offset is on, and the last of
them where the line begins.

Octets outside the text have positions too. They are no places of the text, but they are in order
with all others, and this is why a location can only be refused for its offsets: lines follow
offsets, whatever the offsets are.
-/
import Stylesheet.Proofs.Ruler
import Mathlib.Data.Nat.Find

set_option autoImplicit false

namespace Stylesheet

namespace Ruler

variable {cs : List Char}

/-! ## Places told from the characters -/

/-- The octet at which the character with an index begins. At the length of the text, it is the
octet at which the text ends. -/
def octetOf (cs : List Char) (i : Nat) : Nat :=
  (Text.Utf8.encode (cs.take i)).length

/-- The number of characters that begin before an octet. -/
def charsBefore (cs : List Char) (octet : Nat) : Nat :=
  (List.range cs.length).countP fun i => decide (octetOf cs i < octet)

/-- A line ends with the character at an index: with a line feed, a form feed, or a carriage return
that has no line feed behind it. -/
def EndsLineAt (cs : List Char) (i : Nat) : Prop :=
  cs[i]? = some '\n' ∨ cs[i]? = some '\x0c' ∨ cs[i]? = some '\r' ∧ cs[i + 1]? ≠ some '\n'

instance (cs : List Char) (i : Nat) : Decidable (EndsLineAt cs i) :=
  inferInstanceAs (Decidable (_ ∨ _ ∨ _ ∧ _))

/-- The line of an offset: one more than the lines that end before it. -/
def lineOf (cs : List Char) (offset : Nat) : Nat :=
  1 + (List.range offset).countP fun i => decide (EndsLineAt cs i)

/-- The first offset on the line of an offset. -/
def startOfLine (cs : List Char) (offset : Nat) : Nat :=
  Nat.find (⟨offset, rfl⟩ : ∃ i, lineOf cs i = lineOf cs offset)

/-- An offset with its line, and with its column on that line. -/
def placeOf (cs : List Char) (offset : Nat) : Position where
  offset := offset
  line := lineOf cs offset
  column := offset - startOfLine cs offset + 1

theorem startOfLine_congr {a b : Nat} (h : lineOf cs a = lineOf cs b) :
    startOfLine cs a = startOfLine cs b := by
  unfold startOfLine
  simp only [h]

theorem startOfLine_le (cs : List Char) (offset : Nat) : startOfLine cs offset ≤ offset :=
  Nat.find_min' _ rfl

/-- **A line and a column are those of one offset.** -/
theorem eq_of_placeOf {a b : Nat} (hline : (placeOf cs a).line = (placeOf cs b).line)
    (hcolumn : (placeOf cs a).column = (placeOf cs b).column) : a = b := by
  have hstart := startOfLine_congr (Int.ofNat_inj.1 hline)
  simp only [placeOf] at hcolumn
  omega

/-! ## Lists in increasing order -/

/-- Of the indices of a text, those below one of them are the first so many. -/
theorem countP_range_lt (p : Nat → Bool) {o n : Nat} (h : o ≤ n) :
    (List.range n).countP (fun i => p i && decide (i < o)) = (List.range o).countP p := by
  obtain ⟨m, rfl⟩ := Nat.exists_eq_add_of_le h
  have hfirst : (List.range o).countP (fun i => p i && decide (i < o))
      = (List.range o).countP p := by
    refine List.countP_congr fun i hi => ?_
    have hlt : i < o := List.mem_range.1 hi
    simp [hlt]
  have hrest : ((List.range m).map (o + ·)).countP (fun i => p i && decide (i < o)) = 0 := by
    refine List.countP_eq_zero.2 ?_
    intro i hi
    obtain ⟨j, -, rfl⟩ := List.mem_map.1 hi
    simp
  rw [List.range_add, List.countP_append, hfirst, hrest, Nat.add_zero]

/-- A list is cut at an index by a property: the entries at lower indices have it, and the others
do not. In a list in increasing order this is what a search by halves comes to. -/
def IsCut (p : Nat → Prop) (l : List Nat) (k : Nat) : Prop :=
  k ≤ l.length ∧ ∀ i x, l[i]? = some x → (p x ↔ i < k)

/-- **Counting finds the cut**: if a property goes from a number to all smaller ones, a list in
increasing order is cut by it at the number of entries that have it. -/
theorem isCut_countP {p : Nat → Prop} [DecidablePred p] (hp : ∀ {x y}, x < y → p y → p x)
    {l : List Nat} (hl : l.Pairwise (· < ·)) : IsCut p l (l.countP fun x => decide (p x)) := by
  refine ⟨List.countP_le_length, ?_⟩
  intro i x hx
  induction l generalizing i with
  | nil => cases hx
  | cons a l ih =>
      obtain ⟨hfirst, hrest⟩ := List.pairwise_cons.1 hl
      by_cases ha : p a
      · rw [List.countP_cons_of_pos (by simpa using ha)]
        cases i with
        | zero =>
            obtain rfl := Option.some.inj hx
            exact iff_of_true ha (Nat.succ_pos _)
        | succ i =>
            rw [ih hrest i hx]
            omega
      · -- what is behind the first entry is larger, and has the property even less
        have hnone : ∀ b ∈ a :: l, ¬ p b := by
          intro b hb
          rcases List.mem_cons.1 hb with rfl | hb
          · exact ha
          · exact fun hpb => ha (hp (hfirst b hb) hpb)
        have hzero : (a :: l).countP (fun x => decide (p x)) = 0 := by
          refine List.countP_eq_zero.2 fun b hb => ?_
          rw [decide_eq_true_eq]
          exact hnone b hb
        rw [hzero]
        exact iff_of_false (hnone x (List.mem_of_getElem? hx)) (Nat.not_lt_zero i)

/-! ## Characters

The table of the characters lists the octets at which they begin. In ASCII there is no table,
since each character begins at the octet of its own index, and both come to the same count. -/

theorem octetOf_cons (c : Char) (cs : List Char) (i : Nat) :
    octetOf (c :: cs) (i + 1) = c.utf8Size + octetOf cs i := by
  rw [octetOf, List.take_succ_cons, length_encode_cons]
  rfl

/-- **The table of the characters** lists the octets at which they begin, index by index, and the
one at which the text ends. -/
theorem charStartsAt_eq (i : Nat) (cs : List Char) :
    charStartsAt i cs = (List.range (cs.length + 1)).map fun j => i + octetOf cs j := by
  induction cs generalizing i with
  | nil => rfl
  | cons c cs ih =>
      rw [charStartsAt, ih, List.length_cons, List.range_succ_eq_map (n := cs.length + 1),
        List.map_cons, List.map_map]
      refine congrArg (i :: ·) (List.map_congr_left fun j _ => ?_)
      rw [Function.comp_apply, Nat.succ_eq_add_one, octetOf_cons]
      omega

theorem octetOf_of_isAscii (h : isAscii cs = true) {i : Nat} (hi : i ≤ cs.length) :
    octetOf cs i = i := by
  have htake : isAscii (cs.take i) = true := by
    unfold isAscii at h ⊢
    rw [List.all_eq_true] at h ⊢
    intro c hc
    exact h c (List.mem_of_mem_take hc)
  rw [octetOf, length_encode_of_isAscii htake, List.length_take, Nat.min_eq_left hi]

theorem charsBefore_of_isAscii (h : isAscii cs = true) {octet : Nat} (hle : octet ≤ cs.length) :
    charsBefore cs octet = octet := by
  have hcount : charsBefore cs octet
      = (List.range cs.length).countP fun i => true && decide (i < octet) := by
    unfold charsBefore
    refine List.countP_congr fun i hi => ?_
    rw [octetOf_of_isAscii h (Nat.le_of_lt (List.mem_range.1 hi)), Bool.true_and]
  rw [hcount, countP_range_lt _ hle, List.countP_true, List.length_range]

theorem pairwise_charStartsAt (i : Nat) (cs : List Char) :
    (charStartsAt i cs).Pairwise (· < ·) := by
  induction cs generalizing i with
  | nil => exact List.pairwise_singleton _ i
  | cons c cs ih =>
      refine List.pairwise_cons.2 ⟨fun start hstart => ?_, ih (i + c.utf8Size)⟩
      have hpos := c.utf8Size_pos
      have hle := le_of_mem_charStartsAt hstart
      omega

/-- Of the entries of the table, as many are before an octet of the text as characters begin before
it. -/
theorem countP_charStarts {octet : Nat} (h : octet ≤ (Text.Utf8.encode cs).length) :
    (charStartsFrom 0 [] cs).countP (fun start => decide (start < octet))
      = charsBefore cs octet := by
  have htable : charStartsFrom 0 [] cs = (List.range (cs.length + 1)).map (octetOf cs) := by
    rw [charStartsFrom_eq, charStartsAt_eq]
    simp only [List.reverse_nil, List.nil_append, Nat.zero_add]
  -- the end is in the table too, but no octet of the text is behind it
  have hend : ¬ octetOf cs cs.length < octet := by
    rw [octetOf, List.take_length]
    omega
  rw [htable, List.countP_map, List.range_succ, List.countP_append, charsBefore]
  simp [Function.comp_def, hend]

/-- **The table of the characters is cut** by an octet of the text at the number of characters that
begin before it. -/
theorem isCut_charStarts {octet : Nat} (h : octet ≤ (Text.Utf8.encode cs).length) :
    IsCut (· < octet) (charStartsFrom 0 [] cs) (charsBefore cs octet) := by
  have hsorted : (charStartsFrom 0 [] cs).Pairwise (· < ·) := by
    rw [charStartsFrom_eq, List.reverse_nil, List.nil_append]
    exact pairwise_charStartsAt 0 cs
  rw [← countP_charStarts h]
  exact isCut_countP (fun hlt hy => Nat.lt_trans hlt hy) hsorted

/-- The ruler that looks every octet up in the table of the characters, also for a text in
ASCII. -/
def searching (cs : List Char) : Ruler :=
  { ofChars cs with charStarts := some (charStartsFrom 0 [] cs) }

theorem charOffset_searching {octet : Nat} (h : octet ≤ (Text.Utf8.encode cs).length) :
    (searching cs).charOffset octet = charsBefore cs octet := by
  unfold charOffset searching
  simp only [Int.ofNat_lt, countP_charStarts h]

/-- The character offset of an octet of the text is the number of characters that begin before it,
with the table or without. -/
theorem charOffset_ofChars {octet : Nat} (h : octet ≤ (Text.Utf8.encode cs).length) :
    (ofChars cs).charOffset octet = charsBefore cs octet := by
  by_cases hascii : isAscii cs = true
  · -- nothing is looked up: the octet is its own offset
    rw [length_encode_of_isAscii hascii] at h
    rw [charsBefore_of_isAscii hascii h]
    simp [charOffset, ofChars, hascii]
  · rw [← charOffset_searching h]
    simp [charOffset, searching, ofChars, hascii]

theorem charsBefore_le (cs : List Char) (octet : Nat) : charsBefore cs octet ≤ cs.length := by
  have hle := List.countP_le_length (p := fun i => decide (octetOf cs i < octet))
    (l := List.range cs.length)
  rwa [List.length_range] at hle

/-! ## Where lines begin -/

/-- The indices at which lines end. -/
def lineEnds (cs : List Char) : List Nat :=
  (List.range cs.length).filter fun i => decide (EndsLineAt cs i)

/-- The line ends of a text are those at its first character, and those of the rest. -/
theorem lineEnds_cons (c : Char) (cs : List Char) :
    lineEnds (c :: cs)
      = (if EndsLineAt (c :: cs) 0 then [0] else []) ++ (lineEnds cs).map (· + 1) := by
  have hrest : (fun i => decide (EndsLineAt (c :: cs) i)) ∘ Nat.succ
      = fun i => decide (EndsLineAt cs i) := rfl
  unfold lineEnds
  rw [List.length_cons, List.range_succ_eq_map, List.filter_cons, List.filter_map, hrest]
  by_cases hfirst : EndsLineAt (c :: cs) 0
  · simp [hfirst]
  · simp [hfirst]

/-- A character that ends lines ends one where it stands, if it is no carriage return with a line
feed behind it. -/
theorem endsLineAt_zero {c : Char} (hpair : c = '\r' → cs.head? ≠ some '\n') :
    EndsLineAt (c :: cs) 0 ↔ endsLine c = true := by
  have hhead : cs[0]? = cs.head? := List.head?_eq_getElem?.symm
  unfold EndsLineAt endsLine
  simp only [List.getElem?_cons_zero, List.getElem?_cons_succ, Option.some.injEq, hhead,
    Bool.or_eq_true, beq_iff_eq]
  constructor
  · rintro (h | h | ⟨h, -⟩)
    · exact .inl (.inr h)
    · exact .inr h
    · exact .inl (.inl h)
  · rintro ((h | h) | h)
    · exact .inr (.inr ⟨h, hpair h⟩)
    · exact .inl h
    · exact .inr (.inl h)

/-- **The scan** puts the offsets behind the line ends after those that were found. -/
theorem lineStartsFrom_eq (i : Nat) (found : List Nat) (cs : List Char) :
    lineStartsFrom i found cs = found.reverse ++ (lineEnds cs).map fun j => i + j + 1 := by
  fun_induction lineStartsFrom i found cs with
  | case1 i found => simp [lineEnds]
  | case2 i found rest ih =>
      -- no line ends with the carriage return, and one does with the line feed
      have hreturn : ¬ EndsLineAt ('\r' :: '\n' :: rest) 0 := by simp [EndsLineAt]
      have hfeed : EndsLineAt ('\n' :: rest) 0 := by simp [EndsLineAt]
      have hshift : ∀ j, i + 2 + j + 1 = i + (j + 1 + 1) + 1 := by omega
      rw [ih, lineEnds_cons, lineEnds_cons, if_neg hreturn, if_pos hfeed]
      simp [Function.comp_def, hshift]
  | case3 i found c rest hpair ih =>
      have hhead : c = '\r' → rest.head? ≠ some '\n' := by
        intro hc hrest
        obtain ⟨tail, rfl⟩ := List.head?_eq_some_iff.1 hrest
        exact hpair tail hc rfl
      have hends := endsLineAt_zero hhead
      have hshift : ∀ j, i + 1 + j + 1 = i + (j + 1) + 1 := by omega
      rw [ih, lineEnds_cons]
      by_cases h : endsLine c = true
      · simp [h, hends.2 h, Function.comp_def, hshift]
      · simp [h, mt hends.1 h, Function.comp_def, hshift]

/-- **The lines of a text** begin at its start, and behind each line end. -/
theorem lineStarts_ofChars (cs : List Char) :
    (ofChars cs).lineStarts = 0 :: (lineEnds cs).map (· + 1) := by
  rw [ofChars, lineStartsFrom_eq]
  simp only [List.reverse_singleton, List.singleton_append, Nat.zero_add]

theorem pairwise_lineStarts (cs : List Char) : (ofChars cs).lineStarts.Pairwise (· < ·) := by
  rw [lineStarts_ofChars, List.pairwise_cons]
  constructor
  · intro start hstart
    obtain ⟨i, -, rfl⟩ := List.mem_map.1 hstart
    exact Nat.succ_pos i
  · have hends : (lineEnds cs).Pairwise (· < ·) := List.pairwise_lt_range.filter _
    exact List.pairwise_map.2 (hends.imp fun h => Nat.succ_lt_succ h)

/-! ## Lines -/

/-- As many lines begin up to an offset of the text as end before it, and one. -/
theorem countP_lineStarts {offset : Nat} (h : offset ≤ cs.length) :
    (ofChars cs).lineStarts.countP (fun start => decide (start ≤ offset)) = lineOf cs offset := by
  have hends : ((lineEnds cs).map (· + 1)).countP (fun start => decide (start ≤ offset))
      = (List.range offset).countP fun i => decide (EndsLineAt cs i) := by
    rw [List.countP_map, lineEnds, List.countP_filter, ← countP_range_lt _ h]
    refine List.countP_congr fun i _ => ?_
    simp only [Function.comp_apply, Bool.and_eq_true, decide_eq_true_eq, Nat.succ_le_iff]
    exact And.comm
  have hzero : decide (0 ≤ offset) = true := decide_eq_true (Nat.zero_le offset)
  rw [lineStarts_ofChars, List.countP_cons, hends, if_pos hzero, lineOf, Nat.add_comm]

/-- **The line starts are cut** by an offset of the text at the number of its line. -/
theorem isCut_lineStarts {offset : Nat} (h : offset ≤ cs.length) :
    IsCut (· ≤ offset) (ofChars cs).lineStarts (lineOf cs offset) := by
  rw [← countP_lineStarts h]
  exact isCut_countP (fun hlt hy => Nat.le_trans (Nat.le_of_lt hlt) hy) (pairwise_lineStarts cs)

theorem linesUpTo_ofChars {offset : Nat} (h : offset ≤ cs.length) :
    (ofChars cs).linesUpTo offset = lineOf cs offset := by
  unfold linesUpTo
  simp only [Int.ofNat_le, countP_lineStarts h]

theorem lineOf_mono {a b : Nat} (h : a ≤ b) : lineOf cs a ≤ lineOf cs b := by
  have hsub : List.Sublist (List.range a) (List.range b) := List.range_sublist.2 h
  exact Nat.add_le_add_left hsub.countP_le 1

/-- What is looked up for the start of a line, if it is there. -/
def lineStart? (r : Ruler) (line : Nat) : Option Nat :=
  if line = 0 then r.lineStarts.getLast? else r.lineStarts[line - 1]?

/-- **The start of a line is always there**, whatever the offset: an offset before the text is
measured from the start of the last line. -/
theorem lineStart?_linesUpTo (cs : List Char) (offset : Int) :
    (ofChars cs).lineStart? ((ofChars cs).linesUpTo offset)
      = some ((ofChars cs).lineStart ((ofChars cs).linesUpTo offset)) := by
  have hfound : ∃ start, (ofChars cs).lineStart? ((ofChars cs).linesUpTo offset) = some start := by
    unfold lineStart?
    by_cases hzero : (ofChars cs).linesUpTo offset = 0
    · rw [if_pos hzero, lineStarts_ofChars]
      exact ⟨_, List.getLast?_cons⟩
    · have hle : (ofChars cs).linesUpTo offset ≤ (ofChars cs).lineStarts.length :=
        List.countP_le_length
      have hlt : (ofChars cs).linesUpTo offset - 1 < (ofChars cs).lineStarts.length := by omega
      rw [if_neg hzero]
      exact ⟨_, List.getElem?_eq_getElem hlt⟩
  obtain ⟨start, hstart⟩ := hfound
  have hget : (ofChars cs).lineStart ((ofChars cs).linesUpTo offset) = start :=
    congrArg (Option.getD · 0) hstart
  rw [hstart, hget]

/-- **What is looked up for the line of an offset** is the first offset on that line. -/
theorem lineStart_linesUpTo {offset : Nat} (h : offset ≤ cs.length) :
    (ofChars cs).lineStart ((ofChars cs).linesUpTo offset) = startOfLine cs offset := by
  have hpos : 0 < lineOf cs offset := by
    unfold lineOf
    omega
  have hstart := lineStart?_linesUpTo cs offset
  generalize (ofChars cs).lineStart ((ofChars cs).linesUpTo offset) = start at hstart ⊢
  rw [linesUpTo_ofChars h, lineStart?, if_neg (Nat.ne_of_gt hpos)] at hstart
  -- the start is the entry before the cut, for this offset as for any other on the line
  have hcut : ∀ i ≤ cs.length, start ≤ i ↔ lineOf cs offset ≤ lineOf cs i := by
    intro i hi
    have hindex : start ≤ i ↔ lineOf cs offset - 1 < lineOf cs i :=
      (isCut_lineStarts hi).2 _ start hstart
    omega
  have hle : start ≤ offset := (hcut offset h).2 (Nat.le_refl _)
  have hself : lineOf cs start = lineOf cs offset := by
    apply Nat.le_antisymm
    · exact lineOf_mono hle
    · exact (hcut start (by omega)).1 (Nat.le_refl start)
  unfold startOfLine
  symm
  refine (Nat.find_eq_iff _).2 ⟨hself, fun i hi heq => ?_⟩
  have := (hcut i (by omega)).2 (Nat.le_of_eq heq.symm)
  omega

/-! ## Positions -/

theorem position_ofChars {octet : Nat} (h : octet ≤ (Text.Utf8.encode cs).length) :
    (ofChars cs).position octet = placeOf cs (charsBefore cs octet) := by
  have hle := charsBefore_le cs octet
  unfold position placeOf
  simp only [charOffset_ofChars h, linesUpTo_ofChars hle, ← lineStart_linesUpTo hle]

end Ruler

namespace Source

open Ruler

/-- **The position of an octet of a text** is told by the characters: its offset is the number of
characters that begin before the octet, whether the octet is looked up in a table or, in ASCII,
taken as it is; its line is one more than the lines that end before the offset; and its column is
counted from the first offset on that line. This is where the octet cuts the table of the
characters, and the offset the line starts. Lines and columns are counted from one, and the two
together say which offset it is. -/
theorem position_eq_placeOf (text : String) (octet : Nat)
    (h : octet ≤ (ofText text).octets.length) :
    let cs := text.toList
    let r := (ofText text).ruler
    r.position octet = placeOf cs (charsBefore cs octet)
      ∧ (searching cs).charOffset octet = charsBefore cs octet
      ∧ IsCut (· < octet) (charStartsFrom 0 [] cs) (charsBefore cs octet)
      ∧ IsCut (· ≤ charsBefore cs octet) r.lineStarts (lineOf cs (charsBefore cs octet))
      ∧ 1 ≤ (r.position octet).line ∧ 1 ≤ (r.position octet).column
      ∧ ∀ other : Nat, other ≤ (ofText text).octets.length →
        (r.position other).line = (r.position octet).line →
        (r.position other).column = (r.position octet).column →
        (r.position other).offset = (r.position octet).offset := by
  intro cs r
  have hplace : ∀ b : Nat, b ≤ (ofText text).octets.length →
      r.position b = placeOf cs (charsBefore cs b) := fun b hb => position_ofChars hb
  refine ⟨hplace octet h, charOffset_searching h, isCut_charStarts h,
    isCut_lineStarts (charsBefore_le cs octet), ?_, ?_, ?_⟩
  · rw [hplace octet h]
    simp only [placeOf, lineOf]
    omega
  · have hstart := startOfLine_le cs (charsBefore cs octet)
    rw [hplace octet h]
    simp only [placeOf]
    omega
  · intro other hother hline hcolumn
    rw [hplace other hother, hplace octet h] at hline hcolumn ⊢
    exact congrArg Int.ofNat (eq_of_placeOf hline hcolumn)

/-- Between a carriage return and its line feed the line goes on, here behind a character of two
octets. -/
theorem position_insidePair :
    3 ≤ (ofText "é\r\nx").octets.length
      ∧ (ofText "é\r\nx").ruler.position 3 = ⟨2, 1, 3⟩
      ∧ placeOf "é\r\nx".toList (charsBefore "é\r\nx".toList 3) = ⟨2, 1, 3⟩
      ∧ (searching "é\r\nx".toList).charOffset 3 = 2 := by
  have h : 3 ≤ (ofText "é\r\nx").octets.length := by decide +kernel
  have hposition : (ofText "é\r\nx").ruler.position 3 = ⟨2, 1, 3⟩ := by decide +kernel
  have hcount : charsBefore "é\r\nx".toList 3 = 2 := by decide +kernel
  obtain ⟨hplace, hsearch, -⟩ := position_eq_placeOf "é\r\nx" 3 h
  refine ⟨h, hposition, ?_, ?_⟩
  · rw [← hplace]
    exact hposition
  · exact hsearch.trans (congrArg Int.ofNat hcount)

/-- **A location is refused for its offsets alone**: between two octets, within the text or not,
there is none exactly if the second one comes to an earlier offset than the first. A later octet
comes to no earlier offset and no earlier line, so none is refused between octets in order, and
none for its lines. What is looked up for the start of a line is always there, and a location that
is there has as many characters as its offsets are apart. -/
theorem location_refused_iff (text : String) (a b : Int) :
    let src := ofText text
    let r := src.ruler
    (∀ reason, src.location a b = .error reason ↔ r.charOffset b < r.charOffset a
        ∧ reason.message = "start offset cannot be greater than end offset")
      ∧ (a ≤ b → r.charOffset a ≤ r.charOffset b ∧ (r.position a).line ≤ (r.position b).line
        ∧ ∃ loc, src.location a b = .ok loc)
      ∧ (∀ octet, ∃ start, r.lineStart? (r.linesUpTo (r.charOffset octet)) = some start
        ∧ (r.position octet).column = r.charOffset octet - start + 1)
      ∧ ∀ loc, src.location a b = .ok loc → loc.start = r.position a ∧ loc.stop = r.position b
        ∧ loc.length = r.charOffset b - r.charOffset a ∧ 0 ≤ loc.length := by
  intro src r
  refine ⟨?_, ?_, ?_, ?_⟩
  · intro reason
    have hmessage : reason.message = "start offset cannot be greater than end offset"
        ↔ reason = .offsetsReversed := by
      cases reason <;> decide
    rw [hmessage]
    by_cases hle : r.charOffset a ≤ r.charOffset b
    · have hok : src.location a b = .ok _ := r.location_of_le hle
      rw [hok]
      exact iff_of_false (fun h => by cases h) (fun h => Int.not_le.2 h.1 hle)
    · have hlt := Int.not_le.1 hle
      have herror : src.location a b = .error .offsetsReversed := r.location_of_lt hlt
      rw [herror, Except.error.injEq, eq_comm]
      exact (and_iff_right hlt).symm
  · intro h
    have hle := r.charOffset_mono h
    exact ⟨hle, Int.ofNat_le.2 (r.linesUpTo_mono hle), _, r.location_of_le hle⟩
  · intro octet
    exact ⟨_, lineStart?_linesUpTo text.toList (r.charOffset octet), rfl⟩
  · intro loc hloc
    obtain ⟨hstart, hstop⟩ := Location.between_eq_ok hloc
    refine ⟨hstart, hstop, ?_, loc.length_nonneg⟩
    rw [Location.length, hstart, hstop]
    rfl

/-- The two octets of one character come to one offset each way round, so there is a location
between them, of no characters, even backwards; from the end back to the start there is none. -/
theorem location_backwards :
    ((ofText "é").location 2 1).toOption.map Location.length = some 0
      ∧ (ofText "é").location 2 0 = .error .offsetsReversed := by
  obtain ⟨hrefused, -⟩ := location_refused_iff "é" 2 0
  refine ⟨by decide +kernel, ?_⟩
  exact (hrefused .offsetsReversed).2 ⟨by decide +kernel, rfl⟩

end Source

end Stylesheet
