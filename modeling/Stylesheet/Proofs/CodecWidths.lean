/-
Codecs by the number of octets that a character has.

The octets of the byte order mark are a mark in UTF-8 only. Any other file is read in another
encoding, where they are three characters or half of three, none of which is the mark, and so they
stay. It might still be that a file with the mark and the file without, read in two different
encodings, come to the same text by accident. What rules that out is how many octets a character
has (`withoutMarks_ne_of_mark`): with one octet for each the two texts have different lengths, with
two octets for each unit only one of the two files has an even number of them, and a text of the
one kind is too short for the other, or begins with a character that the other does not have.
-/
import Stylesheet.Proofs.ByteOrderMarks

set_option autoImplicit false

namespace Stylesheet

open Text

/-! ## How many octets a character has -/

namespace Codec

/-- No character of a single octet comes after the sign for a trade mark. -/
theorem toNat_le_of_octet (octet : UInt8) :
    (Char.ofNat octet.toNat).toNat ≤ 0x2122
      ∧ ∀ c ∈ windows1252Char? octet, c.toNat ≤ 0x2122 := by
  have hall : (List.range 256).all (fun n => decide ((Char.ofNat n).toNat ≤ 0x2122)
      && (windows1252Char? (UInt8.ofNat n)).all fun c => decide (c.toNat ≤ 0x2122)) = true := by
    decide +kernel
  have hoctet := List.all_eq_true.1 hall octet.toNat (List.mem_range.2 octet.toNat_lt)
  rw [UInt8.ofNat_toNat, Bool.and_eq_true, decide_eq_true_eq, Option.all_eq_true] at hoctet
  exact ⟨hoctet.1, fun c hc => of_decide_eq_true (hoctet.2 c hc)⟩

/-- A codec with one octet for each character has as many characters as there are octets, and none
of them comes after the sign for a trade mark. -/
theorem decode?_narrow {codec : Codec} (hcodec : codec = .latin1 ∨ codec = .windows1252)
    {octets : List UInt8} {cs : List Char} (h : codec.decode? octets = some cs) :
    cs.length = octets.length ∧ ∀ c ∈ cs, c.toNat ≤ 0x2122 := by
  rcases hcodec with rfl | rfl
  · obtain rfl := Option.some.inj h
    refine ⟨List.length_map _, fun c hc => ?_⟩
    obtain ⟨octet, -, rfl⟩ := List.mem_map.1 hc
    exact (toNat_le_of_octet octet).1
  · rw [decode?] at h
    induction octets generalizing cs with
    | nil =>
        obtain rfl := Option.some.inj h
        exact ⟨rfl, fun c hc => absurd hc List.not_mem_nil⟩
    | cons octet octets ih =>
        rw [List.mapM_cons] at h
        obtain ⟨c, hc, h⟩ := Option.bind_eq_some_iff.1 h
        obtain ⟨cs, hcs, h⟩ := Option.bind_eq_some_iff.1 h
        obtain rfl := Option.some.inj h
        obtain ⟨hlength, hall⟩ := ih hcs
        refine ⟨congrArg (· + 1) hlength, fun d hd => ?_⟩
        rcases List.mem_cons.1 hd with rfl | hd
        · exact (toNat_le_of_octet octet).2 d hc
        · exact hall d hd

theorem units?_eq_some {bigEndian : Bool} {read us : List Nat} {octets : List UInt8}
    (h : units? bigEndian read octets = some us) :
    ∃ later, us = read.reverse ++ later ∧ octets.length = 2 * later.length := by
  fun_induction units? bigEndian read octets with
  | case1 read => exact ⟨[], by rw [List.append_nil]; exact (Option.some.inj h).symm, rfl⟩
  | case2 => cases h
  | case3 read a b rest unit ih =>
      obtain ⟨later, rfl, hlength⟩ := ih h
      refine ⟨unit :: later, by simp, ?_⟩
      rw [List.length_cons, List.length_cons, List.length_cons, hlength]
      omega

theorem ofUnits?_eq_some {read cs : List Char} {us : List Nat} (h : ofUnits? read us = some cs) :
    ∃ later, cs = read.reverse ++ later ∧ later.length ≤ us.length := by
  fun_induction ofUnits? read us with
  | case1 read => exact ⟨[], by rw [List.append_nil]; exact (Option.some.inj h).symm, by simp⟩
  | case2 read unit hhigh low rest hlow ih =>
      obtain ⟨later, rfl, hlength⟩ := ih h
      refine ⟨_ :: later, by rw [List.reverse_cons, List.append_assoc]; rfl, ?_⟩
      simp only [List.length_cons]
      omega
  | case6 read unit rest hhigh hlow ih =>
      obtain ⟨later, rfl, hlength⟩ := ih h
      refine ⟨_ :: later, by rw [List.reverse_cons, List.append_assoc]; rfl, ?_⟩
      simp only [List.length_cons]
      omega
  | _ => cases h

/-- A codec with two octets for each unit reads an even number of them, and no more characters than
half of that. -/
theorem decode?_wide {codec : Codec} (hcodec : codec = .utf16 ∨ codec = .utf16le ∨ codec = .utf16be)
    {octets : List UInt8} {cs : List Char} (h : codec.decode? octets = some cs) :
    ∃ n, octets.length = 2 * n ∧ cs.length ≤ n := by
  have hunits : ∀ {bigEndian : Bool} {octets : List UInt8}, utf16? bigEndian octets = some cs →
      ∃ n, octets.length = 2 * n ∧ cs.length ≤ n := by
    intro bigEndian octets h
    obtain ⟨us, hus, hcs⟩ := Option.bind_eq_some_iff.1 h
    obtain ⟨units, hunits, hlength⟩ := units?_eq_some hus
    obtain ⟨chars, hchars, hle⟩ := ofUnits?_eq_some hcs
    rw [hunits] at hle
    rw [hchars]
    exact ⟨units.length, hlength, hle⟩
  rcases hcodec with rfl | rfl | rfl
  · -- a mark that says the order of the octets is two of them
    by_cases hlittle : ∃ rest, octets = 0xFF :: 0xFE :: rest
    · obtain ⟨rest, rfl⟩ := hlittle
      obtain ⟨n, hn, hle⟩ := hunits h
      exact ⟨n + 1, by rw [List.length_cons, List.length_cons, hn]; omega, by omega⟩
    by_cases hbig : ∃ rest, octets = 0xFE :: 0xFF :: rest
    · obtain ⟨rest, rfl⟩ := hbig
      obtain ⟨n, hn, hle⟩ := hunits h
      exact ⟨n + 1, by rw [List.length_cons, List.length_cons, hn]; omega, by omega⟩
    · rw [decode?] at h
      · exact hunits h
      · exact fun rest hrest => hlittle ⟨rest, hrest⟩
      · exact fun rest hrest => hbig ⟨rest, hrest⟩
  · exact hunits h
  · exact hunits h

/-- A first unit that is no half of a surrogate pair is the first character. -/
theorem exists_of_utf16?_cons {bigEndian : Bool} {a b : UInt8} {octets : List UInt8}
    {cs : List Char} (h : utf16? bigEndian (a :: b :: octets) = some cs) {unit : Nat}
    (hunit : (if bigEndian then a.toNat * 256 + b.toNat else b.toNat * 256 + a.toNat) = unit)
    (hwhole : unit < 0xD800 ∨ 0xDFFF < unit) : ∃ rest, cs = Char.ofNat unit :: rest := by
  obtain ⟨us, hus, hcs⟩ := Option.bind_eq_some_iff.1 h
  rw [units?] at hus
  simp only [hunit] at hus
  obtain ⟨later, rfl, -⟩ := units?_eq_some hus
  have hhigh : ¬ (0xD800 ≤ unit ∧ unit ≤ 0xDBFF) := by omega
  have hlow : ¬ (0xDC00 ≤ unit ∧ unit ≤ 0xDFFF) := by omega
  rw [List.reverse_singleton, List.singleton_append, ofUnits?.eq_def] at hcs
  simp only [if_neg hhigh, if_neg hlow] at hcs
  obtain ⟨rest, rfl, -⟩ := ofUnits?_eq_some hcs
  exact ⟨rest, rfl⟩

/-- With two octets for each unit the octets of the byte order mark begin a text with a character
that is no mark, and that no codec with one octet for each character has. -/
theorem decode?_wide_mark {codec : Codec}
    (hcodec : codec = .utf16 ∨ codec = .utf16le ∨ codec = .utf16be) {octets : List UInt8}
    {cs : List Char} (h : codec.decode? (Utf8.mark ++ octets) = some cs) :
    ∃ c rest, cs = c :: rest ∧ 0x2122 < c.toNat ∧ c ≠ '\uFEFF' := by
  have hlittle : utf16? false (Utf8.mark ++ octets) = some cs →
      ∃ c rest, cs = c :: rest ∧ 0x2122 < c.toNat ∧ c ≠ '\uFEFF' := by
    intro h
    obtain ⟨rest, rfl⟩ := exists_of_utf16?_cons h (show _ = 0xBBEF from rfl) (by omega)
    exact ⟨_, rest, rfl, by decide, by decide⟩
  rcases hcodec with rfl | rfl | rfl
  · exact hlittle h
  · exact hlittle h
  · obtain ⟨rest, rfl⟩ := exists_of_utf16?_cons h (show _ = 0xEFBB from rfl) (by omega)
    exact ⟨_, rest, rfl, by decide, by decide⟩

/-- **A mark is no mark to the other codecs.** The octets that a codec other than the first reads
are not read as the same text with the octets of the mark before them, by the same codec or by
another one. -/
theorem withoutMarks_ne_of_mark {codec codec' : Codec} (hcodec : codec ≠ .utf8)
    (hcodec' : codec' ≠ .utf8) {octets : List UInt8} {cs cs' : List Char}
    (h : codec.decode? octets = some cs) (h' : codec'.decode? (Utf8.mark ++ octets) = some cs') :
    Content.withoutMarks cs' ≠ Content.withoutMarks cs := by
  have hwidth : ∀ codec : Codec, codec ≠ .utf8 → (codec = .latin1 ∨ codec = .windows1252)
      ∨ (codec = .utf16 ∨ codec = .utf16le ∨ codec = .utf16be) := by
    intro codec hcodec
    cases codec <;> simp at hcodec ⊢
  -- a text in which all characters are small holds no marks
  have hnarrow : ∀ {cs : List Char}, (∀ c ∈ cs, c.toNat ≤ 0x2122) →
      Content.withoutMarks cs = cs := by
    intro cs hsmall
    refine Content.withoutMarks_eq_self fun hhead => ?_
    exact absurd (hsmall _ (List.mem_of_mem_head? hhead)) (by decide)
  have hlength : (Utf8.mark ++ octets).length = octets.length + 3 := by
    rw [List.length_append, Nat.add_comm]
    rfl
  intro hsame
  rcases hwidth codec hcodec with hn | hw <;> rcases hwidth codec' hcodec' with hn' | hw'
  · obtain ⟨hlen, hsmall⟩ := decode?_narrow hn h
    obtain ⟨hlen', hsmall'⟩ := decode?_narrow hn' h'
    rw [hnarrow hsmall, hnarrow hsmall'] at hsame
    have := congrArg List.length hsame
    omega
  · -- the text with the mark begins with a character that the other one does not have
    obtain ⟨-, hsmall⟩ := decode?_narrow hn h
    obtain ⟨c, rest, rfl, hlarge, hmark⟩ := decode?_wide_mark hw' h'
    rw [hnarrow hsmall, Content.withoutMarks_eq_self (by simpa using hmark)] at hsame
    have := hsmall c (hsame ▸ List.mem_cons_self)
    omega
  · -- half as many characters are fewer, and without marks they are fewer still
    obtain ⟨n, hn, hle⟩ := decode?_wide hw h
    obtain ⟨hlen', hsmall'⟩ := decode?_narrow hn' h'
    rw [hnarrow hsmall'] at hsame
    have hfewer := (List.dropWhile_sublist (l := cs) (· == '\uFEFF')).length_le
    have := congrArg List.length hsame
    rw [Content.withoutMarks] at this
    omega
  · obtain ⟨n, hn, -⟩ := decode?_wide hw h
    obtain ⟨n', hn', -⟩ := decode?_wide hw' h'
    omega

end Codec

/-! ## The codec of a text -/

namespace Content

/-- The guess is one of the other codecs, or breaks every reading off. -/
theorem guessed?_standard {d : Detection} {attempt : List UInt8 → Attempt}
    (h : guessed? .standard d = some attempt) :
    (∃ codec, codec ≠ .utf8 ∧ attempt = Codec.attempt codec)
      ∨ attempt = fun _ => .broken Encodings.undefinedReason := by
  have hnamed : ∀ {name : String} {codec : Codec}, Codec.named? name = some codec →
      codec ≠ .utf8 := by
    rintro name codec hcodec rfl
    unfold Codec.named? at hcodec
    repeat' split at hcodec
    all_goals cases hcodec
  obtain ⟨name, -, -, -, -, hknown⟩ := guessed?_eq_some.1 h
  rw [Encodings.standard] at hknown
  split at hknown
  · exact .inr (Option.some.inj hknown).symm
  · obtain ⟨codec, hcodec, rfl⟩ := Option.map_eq_some_iff.1 hknown
    exact .inl ⟨codec, hnamed hcodec, rfl⟩

/-- A text that is read of a file that is not in UTF-8 is what another codec makes of it. -/
theorem exists_codec_of_decode {d : Detection} {octets : List UInt8}
    (h : ∀ cs, octets ≠ Utf8.encode cs) {text : List Char}
    (hread : decode .standard d octets = .read text) :
    ∃ codec cs, codec ≠ .utf8 ∧ Codec.decode? codec octets = some cs
      ∧ text = withoutMarks cs := by
  have hlatin1 : ∀ {text : List Char}, tryInOrder octets [Codec.latin1.attempt] = .read text →
      ∃ codec cs, codec ≠ .utf8 ∧ Codec.decode? codec octets = some cs
        ∧ text = withoutMarks cs := by
    intro text hread
    rw [tryInOrder_latin1] at hread
    exact ⟨.latin1, _, by decide, rfl, (Attempt.read.inj hread).symm⟩
  rw [decode_of_ne_encode _ d h] at hread
  cases hguess : guessed? .standard d with
  | none =>
      rw [hguess] at hread
      exact hlatin1 hread
  | some attempt =>
      rw [hguess, Option.toList_some, List.singleton_append, tryInOrder] at hread
      rcases guessed?_standard hguess with ⟨codec, hcodec, rfl⟩ | rfl
      · rw [Codec.attempt] at hread
        cases hdecode : codec.decode? octets with
        | none =>
            rw [hdecode] at hread
            exact hlatin1 hread
        | some cs =>
            rw [hdecode] at hread
            exact ⟨codec, cs, hcodec, hdecode, (Attempt.read.inj hread).symm⟩
      · cases hread

/-! ## One more mark -/

/-- What is read of a file is what has been decoded. -/
theorem decode_of_readWith {known : Encodings} {path : Path} {detect : ByteArray → Detection}
    {content : ByteArray} {limit : Int} {c : Content}
    (h : readWith known path (some (.file content)) limit detect = .ok c) :
    decode known (detect (sample content)) content.data.toList = .read c.text.toList := by
  rw [readWith] at h
  split at h
  · cases h
  · split at h
    · rename_i hread
      obtain rfl := Except.ok.inj h
      rw [hread, String.toList_ofList]
    · cases h
    · cases h

/-- With a byte order mark before it a file is read as the same text as without. -/
def SameWithMark (known : Encodings) (path : Path) (detect : ByteArray → Detection) (limit : Int)
    (content : ByteArray) : Prop :=
  ∃ c c', readWith known path (some (.file content)) limit detect = .ok c
    ∧ readWith known path (some (.file (marked 1 content))) limit detect = .ok c'
    ∧ c'.text = c.text

/-- **A byte order mark does not matter to a file in UTF-8**, whatever encodings are known and
whatever a detector answers for the file and for the file with the mark. It matters to every other
file: no two of the standard encodings read both files as the same text. -/
theorem sameWithMark_iff (path : Path) (detect : ByteArray → Detection) (limit : Int)
    (content : ByteArray) (hfits : (marked 1 content).size ≤ limit) :
    (∀ known, InUtf8 content → SameWithMark known path detect limit content)
      ∧ (SameWithMark .standard path detect limit content ↔ InUtf8 content) := by
  have hutf8 : ∀ known, InUtf8 content → SameWithMark known path detect limit content := by
    rintro known ⟨s, rfl⟩
    have hmarked : (marked 1 s.toUTF8).data.toList = Utf8.encode ('\uFEFF' :: s.toList) := by
      rw [toList_marked_one, Utf8.toList_toUTF8]
      rfl
    have hsize : (s.toUTF8.size : Int) ≤ limit := by
      rw [size_marked] at hfits
      omega
    exact ⟨_, _, readWith_encode known path detect (Utf8.toList_toUTF8 s) hsize,
      readWith_encode known path detect hmarked hfits, rfl⟩
  refine ⟨hutf8, ?_, hutf8 _⟩
  rintro ⟨c, c', hread, hread', hsame⟩
  by_cases hnot : InUtf8 content
  · exact hnot
  exfalso
  have hplain := ne_encode_of_not_inUtf8 hnot
  have hmarked := Utf8.mark_append_ne_encode hplain
  obtain ⟨codec, cs, hcodec, hdecode, htext⟩ := exists_codec_of_decode hplain
    (decode_of_readWith hread)
  have hread' := decode_of_readWith hread'
  rw [toList_marked_one] at hread'
  obtain ⟨codec', cs', hcodec', hdecode', htext'⟩ := exists_codec_of_decode hmarked hread'
  refine Codec.withoutMarks_ne_of_mark hcodec hcodec' hdecode hdecode' ?_
  rw [← htext, ← htext', hsame]

section Example

/-- A letter of two octets is read with and without a mark. -/
theorem sameWithMark_umlaut :
    ((marked 1 "ü".toUTF8).size : Int) ≤ 8 ∧ InUtf8 "ü".toUTF8
      ∧ SameWithMark .standard (.ofText "a.css") (fun _ => ⟨some "utf-16", .whole 1⟩) 8
        "ü".toUTF8 := by
  have hfits : ((marked 1 "ü".toUTF8).size : Int) ≤ 8 := by decide
  have hutf8 : InUtf8 "ü".toUTF8 := ⟨"ü", rfl⟩
  have h := sameWithMark_iff (.ofText "a.css") (fun _ => ⟨some "utf-16", .whole 1⟩) 8
    "ü".toUTF8 hfits
  exact ⟨hfits, hutf8, h.1 .standard hutf8⟩

/-- An octet that is none of UTF-8 is one character, and with a mark before it there are four. -/
theorem read_markedOctet :
    ((marked 1 ⟨#[0xFF]⟩).size : Int) ≤ 8
      ∧ ((read (.ofText "a.css") (some (.file ⟨#[0xFF]⟩)) 8 fun _ => ⟨none, .whole 0⟩).toOption.map
          (·.text.toList)) = some ['ÿ']
      ∧ ((read (.ofText "a.css") (some (.file (marked 1 ⟨#[0xFF]⟩))) 8
          fun _ => ⟨none, .whole 0⟩).toOption.map (·.text.toList)) = some ['ï', '»', '¿', 'ÿ'] :=
  ⟨by decide, by decide +kernel, by decide +kernel⟩

end Example

end Content

end Stylesheet
