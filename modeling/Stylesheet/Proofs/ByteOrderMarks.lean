/-
Byte order marks, and reading as the inverse of writing.

A file in UTF-8 is read as its text without the byte order marks that the text begins with. One of
them is left out with its octets, before anything is decoded, and all others after that as
characters, but which of them is which makes no difference (`decode_encode`). So as many marks as
one likes can be put before the octets of a text, and the text comes back. Nothing of this depends
on the detector, since UTF-8 is tried before what it guesses.

That any other file is read as some text is due to the last codec, which refuses nothing. It is not
reached if the encoding that was guessed breaks the reading off: an encoding may be known by its
name and still have no way to say that octets do not fit it. Then its reason is what is reported,
and there is no other way to a report of that kind (`decode_eq_broken_iff`). What is known of
encodings is a parameter here, so that the guess may stand for any codec, for none, or for one of
that kind.
-/
import Stylesheet.File.Reading
import Stylesheet.Proofs.Utf8

set_option autoImplicit false

namespace Stylesheet

open Text

/-! ## Marks before octets

A mark may be put before the octets of a text or before its characters; that is the same, since
the octets of the mark are those that are written for it as a character. -/

/-- The octets of the byte order mark. -/
def Text.Utf8.mark : List UInt8 := [0xEF, 0xBB, 0xBF]

/-- A file with a number of byte order marks before its octets. -/
def Content.marked (k : Nat) (content : ByteArray) : ByteArray :=
  ⟨((List.replicate k Utf8.mark).flatten ++ content.data.toList).toArray⟩

namespace Text.Utf8

theorem encode_replicate_append (k : Nat) (cs : List Char) :
    encode (List.replicate k '\uFEFF' ++ cs) = (List.replicate k mark).flatten ++ encode cs := by
  induction k with
  | zero => rfl
  | succ k ih =>
      rw [List.replicate_succ, List.replicate_succ, List.flatten_cons, List.append_assoc, ← ih]
      rfl

/-- Octets that are not those of a text are not made so by a mark before them. -/
theorem mark_append_ne_encode {octets : List UInt8} (h : ∀ cs, octets ≠ encode cs)
    (cs : List Char) : mark ++ octets ≠ encode cs := by
  intro hmark
  cases cs with
  | nil => cases hmark
  | cons c cs =>
      rw [encode, List.flatMap_cons] at hmark
      obtain rfl := eq_mark_of_utf8EncodeChar hmark.symm
      exact h cs (List.append_cancel_left hmark)

theorem toList_eq_encode_iff {content : ByteArray} {s : String} :
    content.data.toList = encode s.toList ↔ content = s.toUTF8 := by
  rw [← toList_toUTF8]
  exact ⟨fun h => ByteArray.ext (Array.toList_inj.1 h), fun h => h ▸ rfl⟩

end Text.Utf8

namespace Content

theorem size_marked (k : Nat) (content : ByteArray) :
    (marked k content).size = 3 * k + content.size := by
  rw [← ByteArray.size_data, ← ByteArray.size_data, marked, List.size_toArray,
    List.length_append, List.length_flatten, List.map_replicate, List.sum_replicate_nat]
  simp [Utf8.mark, Nat.mul_comm]

theorem toList_marked_one (content : ByteArray) :
    (marked 1 content).data.toList = Utf8.mark ++ content.data.toList := by
  simp [marked]

end Content

/-! ## Files in UTF-8 -/

/-- The octets of a text that does not begin with a byte order mark fit the first codec as they
are. -/
theorem Codec.decode?_utf8_encode {cs : List Char} (h : cs.head? ≠ some '\uFEFF') :
    decode? .utf8 (Utf8.encode cs) = some cs := by
  have hplain : decode? .utf8 (Utf8.encode cs) = Utf8.decode? (Utf8.encode cs) := by
    rw [decode?]
    intro rest hmark
    cases cs with
    | nil => cases hmark
    | cons c cs =>
        rw [Utf8.encode, List.flatMap_cons] at hmark
        exact h (congrArg some (Utf8.eq_mark_of_utf8EncodeChar hmark))
  rw [hplain, Utf8.decode?_encode]

namespace Content

theorem withoutMarks_eq_self {cs : List Char} (h : cs.head? ≠ some '\uFEFF') :
    withoutMarks cs = cs := by
  cases cs with
  | nil => rfl
  | cons c cs =>
      have hc : ¬ (c == '\uFEFF') = true := by simpa using h
      exact List.dropWhile_cons_of_neg hc

/-- Marks before a text make no difference to what is left of it. -/
theorem withoutMarks_replicate_append (k : Nat) (cs : List Char) :
    withoutMarks (List.replicate k '\uFEFF' ++ cs) = withoutMarks cs := by
  induction k with
  | zero => rfl
  | succ k ih => exact ih

theorem head?_withoutMarks (cs : List Char) : (withoutMarks cs).head? ≠ some '\uFEFF' := by
  intro h
  have hnot := List.head?_dropWhile_not (· == '\uFEFF') cs
  rw [withoutMarks] at h
  rw [h] at hnot
  simp at hnot

/-- **A file in UTF-8** is read as its text without the marks at the start, whatever is guessed
of it. -/
theorem decode_encode (known : Encodings) (d : Detection) (cs : List Char) :
    decode known d (Utf8.encode cs) = .read (withoutMarks cs) := by
  obtain ⟨ds, hdecode, hsame⟩ : ∃ ds, Codec.decode? .utf8 (Utf8.encode cs) = some ds
      ∧ withoutMarks ds = withoutMarks cs := by
    by_cases h : cs.head? = some '\uFEFF'
    · obtain ⟨rest, rfl⟩ := List.head?_eq_some_iff.1 h
      -- the codec itself leaves out the first mark, and reads the rest as it is
      exact ⟨rest, Utf8.decode?_encode rest, rfl⟩
    · exact ⟨cs, Codec.decode?_utf8_encode h, rfl⟩
  rw [decode, candidates, tryInOrder, Codec.attempt, hdecode]
  exact congrArg Attempt.read hsame

theorem readWith_encode (known : Encodings) (path : Path) (detect : ByteArray → Detection)
    {content : ByteArray} {cs : List Char} (h : content.data.toList = Utf8.encode cs) {limit : Int}
    (hfits : content.size ≤ limit) :
    readWith known path (some (.file content)) limit detect
      = .ok ⟨String.ofList (withoutMarks cs), Digest.short content, content.size⟩ := by
  rw [readWith, if_neg (Int.not_lt.2 hfits), h, decode_encode]

/-- **A file that holds the octets of a text** is read as that text, if it is not too large. -/
theorem read_toUTF8 {s : String} (h : s.toList.head? ≠ some '\uFEFF') {limit : Nat}
    (hfits : s.toUTF8.size ≤ limit) (path : Path) (detect : ByteArray → Detection) :
    read path (some (.file s.toUTF8)) limit detect
      = .ok ⟨s, Digest.short s.toUTF8, s.toUTF8.size⟩ := by
  rw [read, readWith_encode .standard path detect (Utf8.toList_toUTF8 s) (Int.ofNat_le.2 hfits),
    withoutMarks_eq_self h, String.ofList_toList]

end Content

/-! ## Other files

What is not in UTF-8 is refused by the first codec, and left to the guess and to the last one. The
attempts are made in order, and the first that does not refuse decides. Since the last refuses
nothing, there is always one that decides, and marks are taken off whatever it reads. -/

/-- The first codec refuses what is not in UTF-8. -/
theorem Codec.decode?_utf8_eq_none {octets : List UInt8} (h : ∀ cs, octets ≠ Utf8.encode cs) :
    decode? .utf8 octets = none := by
  have hrefused : ∀ rest, (∀ cs, rest ≠ Utf8.encode cs) → Utf8.decode? rest = none := by
    intro rest hrest
    cases hdecode : Utf8.decode? rest with
    | none => rfl
    | some cs => exact absurd (Utf8.decode?_eq_some_iff.1 hdecode) (hrest cs)
  by_cases hmark : ∃ rest, octets = Utf8.mark ++ rest
  · obtain ⟨rest, rfl⟩ := hmark
    exact hrefused rest fun cs hcs => h ('\uFEFF' :: cs) (hcs ▸ rfl)
  · rw [decode?]
    · exact hrefused octets h
    · intro rest hrest
      exact hmark ⟨rest, hrest⟩

namespace Content

/-- Whether a file is in UTF-8: it holds the octets of a text. -/
def InUtf8 (content : ByteArray) : Prop := ∃ s : String, content = s.toUTF8

theorem ne_encode_of_not_inUtf8 {content : ByteArray} (h : ¬ InUtf8 content) (cs : List Char) :
    content.data.toList ≠ Utf8.encode cs := by
  intro hcs
  rw [← String.toList_ofList (l := cs)] at hcs
  exact h ⟨_, Utf8.toList_eq_encode_iff.1 hcs⟩

theorem decode_of_ne_encode (known : Encodings) (d : Detection) {octets : List UInt8}
    (h : ∀ cs, octets ≠ Utf8.encode cs) :
    decode known d octets
      = tryInOrder octets ((guessed? known d).toList ++ [Codec.latin1.attempt]) := by
  rw [decode, candidates, tryInOrder, Codec.attempt, Codec.decode?_utf8_eq_none h]

/-- The last codec reads whatever is left to it. -/
theorem tryInOrder_latin1 (octets : List UInt8) :
    tryInOrder octets [Codec.latin1.attempt]
      = .read (withoutMarks (octets.map fun octet => Char.ofNat octet.toNat)) := rfl

theorem tryInOrder_concat_latin1_ne_refused (octets : List UInt8)
    (attempts : List (List UInt8 → Attempt)) :
    tryInOrder octets (attempts ++ [Codec.latin1.attempt]) ≠ .refused := by
  induction attempts with
  | nil =>
      rw [List.nil_append, tryInOrder_latin1]
      exact Attempt.noConfusion
  | cons attempt attempts ih =>
      rw [List.cons_append, tryInOrder]
      cases attempt octets with
      | read cs => exact Attempt.noConfusion
      | refused => exact ih
      | broken reason => exact Attempt.noConfusion

theorem head?_of_tryInOrder {octets : List UInt8} {attempts : List (List UInt8 → Attempt)}
    {cs : List Char} (h : tryInOrder octets attempts = .read cs) : cs.head? ≠ some '\uFEFF' := by
  induction attempts with
  | nil => cases h
  | cons attempt attempts ih =>
      rw [tryInOrder] at h
      cases hattempt : attempt octets with
      | read ds =>
          rw [hattempt] at h
          obtain rfl := Attempt.read.inj h
          exact head?_withoutMarks ds
      | refused =>
          rw [hattempt] at h
          exact ih h
      | broken reason =>
          rw [hattempt] at h
          cases h

/-- A guess is tried exactly if the detector is certain of an encoding that is known by its name and
is not tried anyway. -/
theorem guessed?_eq_some {known : Encodings} {d : Detection} {attempt : List UInt8 → Attempt} :
    guessed? known d = some attempt
      ↔ ∃ encoding, d.encoding = some encoding ∧ encoding ≠ "" ∧ d.confidence.exceeds certainty
        ∧ lower encoding ∉ triedAnyway ∧ known (lower encoding) = some attempt := by
  rw [guessed?]
  cases d.encoding with
  | none => simp
  | some encoding => simp [and_assoc]

/-- A file is not in UTF-8, and the detector is certain of an encoding that is known by its name, is
not tried anyway, and breaks the reading of the file off for a reason. -/
def BreaksOff (known : Encodings) (d : Detection) (content : ByteArray) (reason : String) : Prop :=
  ¬ InUtf8 content ∧ ∃ encoding attempt, d.encoding = some encoding ∧ encoding ≠ ""
    ∧ d.confidence.exceeds certainty ∧ lower encoding ∉ triedAnyway
    ∧ known (lower encoding) = some attempt ∧ attempt content.data.toList = .broken reason

theorem breaksOff_iff {known : Encodings} {d : Detection} {content : ByteArray} {reason : String} :
    BreaksOff known d content reason
      ↔ ¬ InUtf8 content ∧ ∃ attempt, guessed? known d = some attempt
        ∧ attempt content.data.toList = .broken reason := by
  simp only [BreaksOff, guessed?_eq_some]
  refine and_congr_right fun _ => ⟨?_, ?_⟩
  · rintro ⟨encoding, attempt, hencoding, hne, hsure, hnew, hknown, hbroken⟩
    exact ⟨attempt, ⟨encoding, hencoding, hne, hsure, hnew, hknown⟩, hbroken⟩
  · rintro ⟨attempt, ⟨encoding, hencoding, hne, hsure, hnew, hknown⟩, hbroken⟩
    exact ⟨encoding, attempt, hencoding, hne, hsure, hnew, hknown, hbroken⟩

/-- **A reading is broken off by the guess**, for the reason that the guess has, and by nothing
else: neither the codec before it nor the one behind it can do more than refuse. -/
theorem decode_eq_broken_iff (known : Encodings) (d : Detection) (content : ByteArray)
    (reason : String) :
    decode known d content.data.toList = .broken reason ↔ BreaksOff known d content reason := by
  by_cases hutf8 : InUtf8 content
  · obtain ⟨s, rfl⟩ := hutf8
    rw [Utf8.toList_toUTF8, decode_encode]
    exact iff_of_false Attempt.noConfusion fun h => h.1 ⟨s, rfl⟩
  rw [decode_of_ne_encode known d (ne_encode_of_not_inUtf8 hutf8), breaksOff_iff,
    and_iff_right hutf8]
  cases guessed? known d with
  | none =>
      rw [Option.toList_none, List.nil_append, tryInOrder_latin1]
      simp
  | some attempt =>
      rw [Option.toList_some, List.singleton_append, tryInOrder]
      cases hattempt : attempt content.data.toList with
      | read cs => simp [hattempt]
      | refused => simp [hattempt, tryInOrder_latin1]
      | broken reason' => simp [hattempt]

/-! ## Reading undoes writing -/

/-- **Reading undoes writing**, whatever a detector answers and whatever encodings are known. A file
of byte order marks and the octets of a text that does not begin with one is read as that text. A
file within the limit is never too hard to decode. If the encoding that is guessed breaks the
reading of it off, what is reported is the reason for that, and it is reported for nothing else;
and in all other cases some text is read that does not begin with a mark. -/
theorem reading_undoes_writing (known : Encodings) (path : Path) (detect : ByteArray → Detection)
    (limit : Int) :
    (∀ (k : Nat) (s : String), s.toList.head? ≠ some '\uFEFF' →
        (marked k s.toUTF8).size ≤ limit →
        readWith known path (some (.file (marked k s.toUTF8))) limit detect
          = .ok ⟨s, Digest.short (marked k s.toUTF8), (marked k s.toUTF8).size⟩)
      ∧ ∀ content : ByteArray, content.size ≤ limit →
        readWith known path (some (.file content)) limit detect ≠ .error (.undecodable path)
        ∧ (∀ reason, readWith known path (some (.file content)) limit detect
            = .error (.broken reason)
          ↔ BreaksOff known (detect (sample content)) content reason)
        ∧ ((∃ c, readWith known path (some (.file content)) limit detect = .ok c
            ∧ c.text.toList.head? ≠ some '\uFEFF' ∧ c.size = content.size)
          ↔ ∀ reason, ¬ BreaksOff known (detect (sample content)) content reason) := by
  refine ⟨fun k s hs hfits => ?_, fun content hfits => ?_⟩
  · have hoctets : (marked k s.toUTF8).data.toList
        = Utf8.encode (List.replicate k '\uFEFF' ++ s.toList) := by
      rw [Utf8.encode_replicate_append, ← Utf8.toList_toUTF8, marked]
    rw [readWith_encode known path detect hoctets hfits, withoutMarks_replicate_append,
      withoutMarks_eq_self hs, String.ofList_toList]
  · have hbroken := decode_eq_broken_iff known (detect (sample content)) content
    simp only [← hbroken]
    rw [readWith, if_neg (Int.not_lt.2 hfits)]
    cases hdecode : decode known (detect (sample content)) content.data.toList with
    | read cs =>
        have hmark : cs.head? ≠ some '\uFEFF' := head?_of_tryInOrder hdecode
        simp [hmark]
    | refused =>
        -- the last codec is among the candidates, and refuses nothing
        have hlast := tryInOrder_concat_latin1_ne_refused content.data.toList
          (Codec.utf8.attempt :: (guessed? known (detect (sample content))).toList)
        exact absurd hdecode hlast
    | broken reason => simp

section Example

private theorem not_inUtf8_octet : ¬ InUtf8 ⟨#[0xFF]⟩ := by
  rintro ⟨s, hs⟩
  have hdecode := Utf8.decode?_encode s.toList
  rw [← Utf8.toList_eq_encode_iff.2 hs] at hdecode
  have hnone : (Utf8.decode? [0xFF]).isNone = true := by decide
  rw [hdecode] at hnone
  cases hnone

/-- Behind two marks a text is read although the detector is certain of an encoding that breaks
every reading off. The octet is read although nothing goes by the name that the detector gives, and
with that encoding it is not: its reason is what is reported. -/
theorem reading_undoes_writing_umlaut :
    "ü".toList.head? ≠ some '\uFEFF' ∧ ((marked 2 "ü".toUTF8).size : Int) ≤ 8
      ∧ readWith .standard (.ofText "a.css") (some (.file (marked 2 "ü".toUTF8))) 8
          (fun _ => ⟨some "undefined", .whole 1⟩)
        = .ok ⟨"ü", Digest.short (marked 2 "ü".toUTF8), (marked 2 "ü".toUTF8).size⟩
      ∧ ((ByteArray.mk #[0xFF]).size : Int) ≤ 8
      ∧ (∀ reason, ¬ BreaksOff .standard ⟨some "no-such-codec", .whole 1⟩ ⟨#[0xFF]⟩ reason)
      ∧ (∃ c, readWith .standard (.ofText "a.css") (some (.file ⟨#[0xFF]⟩)) 8
          (fun _ => ⟨some "no-such-codec", .whole 1⟩) = .ok c ∧ c.size = 1)
      ∧ BreaksOff .standard ⟨some "undefined", .whole 1⟩ ⟨#[0xFF]⟩ Encodings.undefinedReason
      ∧ readWith .standard (.ofText "a.css") (some (.file ⟨#[0xFF]⟩)) 8
          (fun _ => ⟨some "undefined", .whole 1⟩)
        = .error (.broken Encodings.undefinedReason) := by
  have hmark : "ü".toList.head? ≠ some '\uFEFF' := by decide
  have hfits : ((marked 2 "ü".toUTF8).size : Int) ≤ 8 := by decide
  have hone : ((ByteArray.mk #[0xFF]).size : Int) ≤ 8 := by decide
  have hunknown : ∀ reason,
      ¬ BreaksOff .standard ⟨some "no-such-codec", .whole 1⟩ ⟨#[0xFF]⟩ reason := by
    rintro reason ⟨-, encoding, attempt, hencoding, -, -, -, hknown, -⟩
    obtain rfl := Option.some.inj hencoding
    have hnone : (Encodings.standard (lower "no-such-codec")).isNone = true := by decide
    rw [hknown] at hnone
    cases hnone
  have hbreaks :
      BreaksOff .standard ⟨some "undefined", .whole 1⟩ ⟨#[0xFF]⟩ Encodings.undefinedReason := by
    have hknown : Encodings.standard (lower "undefined")
        = some fun _ => .broken Encodings.undefinedReason := if_pos (by decide)
    exact ⟨not_inUtf8_octet, "undefined", _, rfl, by decide, by decide, by decide, hknown, rfl⟩
  obtain ⟨hback, hundefined⟩ := reading_undoes_writing .standard (.ofText "a.css")
    (fun _ => ⟨some "undefined", .whole 1⟩) 8
  obtain ⟨-, htotal⟩ := reading_undoes_writing .standard (.ofText "a.css")
    (fun _ => ⟨some "no-such-codec", .whole 1⟩) 8
  obtain ⟨c, hread, -, hsize⟩ := (htotal ⟨#[0xFF]⟩ hone).2.2.2 hunknown
  have hbroken := ((hundefined ⟨#[0xFF]⟩ hone).2.1 Encodings.undefinedReason).2 hbreaks
  exact ⟨hmark, hfits, hback 2 "ü" hmark hfits, hone, hunknown, ⟨c, hread, hsize⟩, hbreaks,
    hbroken⟩

/-- The octet is not read if the detector is certain of the encoding that breaks every reading
off. -/
theorem read_undefinedEncoding :
    ((ByteArray.mk #[0xFF]).size : Int) ≤ 8
      ∧ ¬ ∃ c, read (.ofText "a.css") (some (.file ⟨#[0xFF]⟩)) 8
          (fun _ => ⟨some "undefined", .whole 1⟩) = .ok c := by
  refine ⟨by decide, ?_⟩
  rintro ⟨c, hread⟩
  have hfails : (read (.ofText "a.css") (some (.file ⟨#[0xFF]⟩)) 8
      (fun _ => ⟨some "undefined", .whole 1⟩)).toOption.isNone = true := by decide +kernel
  rw [hread] at hfails
  cases hfails

end Example

end Content

end Stylesheet
