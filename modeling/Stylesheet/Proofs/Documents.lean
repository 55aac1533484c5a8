/-
Reading a document that was written.

A writer sets each field on a line of its own, indented; a reader takes any white space, and looks
only one character ahead. So a value is read back wherever it was written if something comes after
it that does not belong to it. This matters for numbers alone, which have no mark at their end, and
what the writer puts after a value is a comma or a new line (`Ends`).

Not every value comes back as it was. A key that comes twice is read as one field, and a whole
number that is too long is refused; of doubles nothing is said here. What is left is `Plain`, and a
plain value comes back at any level of indentation, with any bound above the length of its text
(`Plain.reads`). The proof follows the value; a list of values or fields is gone through from the
front, since that is how it is read.
-/
import Mathlib.Data.List.DropRight
import Stylesheet.Json.Reader
import Stylesheet.Json.Writer
import Stylesheet.Proofs.Numerals
import Stylesheet.Proofs.Utf8

set_option autoImplicit false

namespace Stylesheet.Json

/-! ## Strings -/

theorem hexDigit?_hexChar : ∀ n < 16, hexDigit? (hexChar n) = some n := by decide

/-- An escape of a control character stands for it. -/
theorem escaped?_control {c : Char} (h : c.toNat < 0x20) (rest : List Char) :
    escaped? ('0' :: '0' :: hexChar (c.toNat / 16) :: hexChar (c.toNat % 16) :: rest)
      = some (c, rest) := by
  have hhigh := hexDigit?_hexChar (c.toNat / 16) (by omega)
  have hlow := hexDigit?_hexChar (c.toNat % 16) (by omega)
  have hzero : hexDigit? '0' = some 0 := by decide
  have hunit : ((0 * 16 + 0) * 16 + c.toNat / 16) * 16 + c.toNat % 16 = c.toNat := by omega
  simp only [escaped?, hexEscape?, hzero, hhigh, hlow, Option.bind_eq_bind, Option.bind_some,
    Option.pure_def, hunit]
  rw [if_neg (by omega), if_neg (by omega), Char.ofNat_toNat]

/-- One character of a string is read as it was escaped. -/
theorem stringBody?_escapeChar (bound : Nat) (read : List Char) (c : Char) (rest : List Char) :
    stringBody? (bound + 1) read (escapeChar c ++ rest) = stringBody? bound (c :: read) rest := by
  unfold escapeChar
  by_cases hquote : c = '"'
  · subst hquote
    rfl
  by_cases hbackslash : c = '\\'
  · subst hbackslash
    rfl
  by_cases hn : c = '\n'
  · subst hn
    rfl
  by_cases hr : c = '\r'
  · subst hr
    rfl
  by_cases ht : c = '\t'
  · subst ht
    rfl
  by_cases hb : c = '\x08'
  · subst hb
    rfl
  by_cases hf : c = '\x0c'
  · subst hf
    rfl
  rw [if_neg hquote, if_neg hbackslash, if_neg hn, if_neg hr, if_neg ht, if_neg hb, if_neg hf]
  by_cases hcontrol : c.toNat < 0x20
  · rw [if_pos hcontrol]
    simp only [List.cons_append, List.nil_append, stringBody?, escaped?_control hcontrol]
    rfl
  · rw [if_neg hcontrol]
    simp only [List.cons_append, List.nil_append, stringBody?, if_neg hquote, if_neg hbackslash,
      if_neg hcontrol]

/-- The characters of a string are read up to its quote. -/
theorem stringBody?_flatMap (cs read rest : List Char) {bound : Nat} (h : cs.length < bound) :
    stringBody? bound read (cs.flatMap escapeChar ++ '"' :: rest)
      = some (read.reverse ++ cs, rest) := by
  induction cs generalizing read bound with
  | nil =>
      obtain ⟨bound, rfl⟩ := Nat.exists_eq_add_of_lt h
      simp [stringBody?]
  | cons c cs ih =>
      rw [List.length_cons] at h
      obtain ⟨bound, rfl⟩ : ∃ b, bound = b + 1 := ⟨bound - 1, by omega⟩
      rw [List.flatMap_cons, List.append_assoc, stringBody?_escapeChar, ih _ (by omega),
        List.reverse_cons, List.append_assoc]
      rfl

theorem length_le_flatMap_escapeChar (cs : List Char) :
    cs.length ≤ (cs.flatMap escapeChar).length := by
  induction cs with
  | nil => exact Nat.le_refl _
  | cons c cs ih =>
      have hc : 1 ≤ (escapeChar c).length := by
        unfold escapeChar
        split_ifs <;> simp
      rw [List.flatMap_cons, List.length_append, List.length_cons]
      omega

theorem string?_quote (s : String) (rest : List Char) :
    string? (s.toList.flatMap escapeChar ++ '"' :: rest) = some (s, rest) := by
  have hlength := length_le_flatMap_escapeChar s.toList
  rw [string?, stringBody?_flatMap]
  · simp
  · rw [List.length_append]
    omega

/-! ## Numbers

How far a number goes depends on what stands behind it. What may stand behind a value that was
written ends a number, since neither a comma nor a new line is a digit, a point or the letter of
an exponent. -/

/-- What may follow a value that was written: nothing, a comma, or a new line. -/
def Ends (rest : List Char) : Prop := ∀ c ∈ rest.head?, c = ',' ∨ c = '\n'

theorem Ends.nil : Ends [] := nofun

theorem Ends.comma (rest : List Char) : Ends (',' :: rest) := by
  intro c hc
  exact .inl (Option.some.inj hc).symm

theorem Ends.lineBreak (level : Nat) (rest : List Char) :
    Ends ((lineBreak level).toList ++ rest) := by
  intro c hc
  rw [Json.lineBreak, String.toList_ofList] at hc
  exact .inr (Option.some.inj hc).symm

theorem takeDigits_append {ds rest : List Char} (hds : ∀ c ∈ ds, c.isDigit = true)
    (hrest : Ends rest) : takeDigits (ds ++ rest) = (ds, rest) := by
  have hnone : rest.takeWhile Char.isDigit = [] ∧ rest.dropWhile Char.isDigit = rest := by
    cases rest with
    | nil => exact ⟨rfl, rfl⟩
    | cons c cs =>
        rcases hrest c rfl with rfl | rfl
        · exact ⟨rfl, rfl⟩
        · exact ⟨rfl, rfl⟩
  rw [takeDigits, List.takeWhile_append_of_pos hds, List.dropWhile_append_of_pos hds, hnone.1,
    hnone.2, List.append_nil]

theorem parts_of_ends {rest : List Char} (h : Ends rest) :
    fractionPart rest = ([], rest) ∧ exponentPart rest = (none, rest) := by
  cases rest with
  | nil => exact ⟨rfl, rfl⟩
  | cons c cs =>
      rcases h c rfl with rfl | rfl
      · exact ⟨rfl, rfl⟩
      · exact ⟨rfl, rfl⟩

/-- The digits of a number but zero do not begin with a zero. -/
theorem head_toDigits {n : Nat} (hn : n ≠ 0) : ∀ c ∈ (Nat.toDigits 10 n).head?, c ≠ '0' := by
  induction n using Nat.strongRecOn with
  | ind n ih =>
      by_cases hsmall : n < 10
      · rw [Nat.toDigits_of_lt_base hsmall]
        intro c hc
        obtain rfl := Option.some.inj hc
        have hall : ∀ d < 10, d ≠ 0 → Nat.digitChar d ≠ '0' := by decide
        exact hall n hsmall hn
      · rw [Nat.toDigits_of_base_le (by omega) (by omega),
          List.head?_append_of_ne_nil _ Nat.toDigits_ne_nil]
        exact ih (n / 10) (by omega) (by omega)

theorem digits?_toDigits (n : Nat) : Numeral.digits? (Nat.toDigits 10 n) = some n := by
  refine Numeral.digits?_eq_some.2 ⟨Nat.toDigits_ne_nil, ?_, ?_⟩
  · intro c hc
    exact Nat.isDigit_of_mem_toDigits (by omega) (by omega) hc
  · have hcount : Nat.ofDigitChars 10 (Nat.toDigits 10 n) 0 = n := Nat.ofDigitChars_ten_toDigits
    rw [Nat.ofDigitChars] at hcount
    rw [Text.ofDigits, List.foldl_map]
    simp only [Nat.mul_comm _ 10]
    exact hcount

/-- A whole number whose sign has been read is read as it was written. -/
theorem magnitude?_toDigits (negative : Bool) {n : Nat} {rest : List Char}
    (hn : (Nat.toDigits 10 n).length ≤ Numeral.maxDigits) (hrest : Ends rest) :
    magnitude? negative (Nat.toDigits 10 n ++ rest)
      = some (.whole (if negative then -(n : Int) else n), rest) := by
  obtain ⟨hfraction, hexponent⟩ := parts_of_ends hrest
  have hdigits := digits?_toDigits n
  have hlong : ¬ (Nat.toDigits 10 n).length > Numeral.maxDigits := by omega
  by_cases hzero : n = 0
  · subst hzero
    have hone : Numeral.digits? ['0'] = some 0 := hdigits
    simp only [magnitude?, Nat.toDigits_zero, List.cons_append, List.nil_append, hone, hfraction,
      hexponent, Option.bind_eq_bind, Option.bind_some]
    rfl
  · have htaken : takeDigits (Nat.toDigits 10 n ++ rest) = (Nat.toDigits 10 n, rest) :=
      takeDigits_append (fun c hc => Nat.isDigit_of_mem_toDigits (by omega) (by omega) hc) hrest
    have hhead := head_toDigits hzero
    cases hds : Nat.toDigits 10 n with
    | nil => exact absurd hds Nat.toDigits_ne_nil
    | cons d ds =>
        rw [hds] at htaken hhead hdigits hn
        have hd : d ≠ '0' := hhead d rfl
        rw [List.cons_append] at htaken ⊢
        simp [magnitude?, htaken, hd, hdigits, hfraction, hexponent]
        exact hn

theorem toList_toString (n : Int) :
    (toString n).toList = (if n < 0 then ['-'] else []) ++ Nat.toDigits 10 n.natAbs := by
  cases n with
  | ofNat m =>
      rw [if_neg (by simp)]
      exact Nat.toList_repr
  | negSucc m =>
      rw [if_pos (Int.negSucc_lt_zero m)]
      show ("-" ++ (m + 1).repr).toList = _
      rw [String.toList_append, Nat.toList_repr]
      rfl

/-- A whole number is read as it was written. -/
theorem number?_toString {n : Int} {rest : List Char}
    (hn : (Nat.toDigits 10 n.natAbs).length ≤ Numeral.maxDigits) (hrest : Ends rest) :
    number? ((toString n).toList ++ rest) = some (.whole n, rest) := by
  rw [toList_toString]
  have hmagnitude (negative : Bool) := magnitude?_toDigits negative hn hrest
  cases hds : Nat.toDigits 10 n.natAbs with
  | nil => exact absurd hds Nat.toDigits_ne_nil
  | cons d ds =>
      have hd : d.isDigit = true :=
        Nat.isDigit_of_mem_toDigits (b := 10) (n := n.natAbs) (by omega) (by omega)
          (hds ▸ List.mem_cons_self)
      rw [hds] at hmagnitude
      by_cases hneg : n < 0
      · have hword : afterWord? "Infinity".toList (d :: ds ++ rest) = none := by
          have hI : 'I' ≠ d := by
            rintro rfl
            cases hd
          show afterWord? ('I' :: "nfinity".toList) (d :: (ds ++ rest)) = none
          rw [afterWord?, if_neg hI]
        rw [if_pos hneg]
        show number? ('-' :: (d :: ds ++ rest)) = _
        rw [number?, hword]
        simp only [hmagnitude, if_true]
        congr 3
        omega
      · have hminus : d ≠ '-' := by
          rintro rfl
          cases hd
        rw [if_neg hneg, List.nil_append]
        have hrule : number? (d :: ds ++ rest) = magnitude? false (d :: ds ++ rest) := by
          rw [List.cons_append, number?]
          intro cs h
          exact hminus (List.cons.inj h).1
        rw [hrule, hmagnitude]
        simp
        omega

/-! ## White space

The writer begins each member of a list on a line of its own, behind blanks, and puts one blank
before the value of a field. Every reader skips them. -/

theorem skipSpace_skipSpace (cs : List Char) : skipSpace (skipSpace cs) = skipSpace cs :=
  List.dropWhile_idempotent _ _

/-- A new line with its blanks is skipped. -/
theorem skipSpace_lineBreak (level : Nat) (cs : List Char) :
    skipSpace ((lineBreak level).toList ++ cs) = skipSpace cs := by
  rw [lineBreak, String.toList_ofList, skipSpace]
  apply List.dropWhile_append_of_pos
  intro c hc
  rcases List.mem_cons.1 hc with rfl | hc
  · rfl
  · rw [List.eq_of_mem_replicate hc]
    rfl

theorem length_lineBreak (level : Nat) : 1 ≤ (lineBreak level).toList.length := by
  rw [lineBreak, String.toList_ofList, List.length_cons]
  omega

theorem value?_skipSpace (bound : Nat) (cs : List Char) :
    value? bound (skipSpace cs) = value? bound cs := by
  cases bound with
  | zero => rfl
  | succ bound => rw [value?, value?, skipSpace_skipSpace]

theorem value?_blank (bound : Nat) (cs : List Char) :
    value? bound (' ' :: cs) = value? bound cs := by
  rw [← value?_skipSpace, ← value?_skipSpace bound cs]
  rfl

theorem items?_skipSpace (bound : Nat) (cs : List Char) :
    items? bound (skipSpace cs) = items? bound cs := by
  cases bound with
  | zero => rfl
  | succ bound => rw [items?, items?, value?_skipSpace]

theorem fields?_skipSpace (bound : Nat) (read : Fields) (cs : List Char) :
    fields? bound read (skipSpace cs) = fields? bound read cs := by
  cases bound with
  | zero => rfl
  | succ bound => rw [fields?, fields?, skipSpace_skipSpace]

/-! ## Values -/

/-- A value that is written without loss: its numbers are whole and not too long to be read, and no
object has a key twice. -/
inductive Plain : Json → Prop where
  | null : Plain .null
  | bool (b : Bool) : Plain (.bool b)
  | whole {n : Int} (h : (Nat.toDigits 10 n.natAbs).length ≤ Numeral.maxDigits) :
      Plain (.number (.whole n))
  | string (s : String) : Plain (.string s)
  | array {items : List Json} (h : ∀ item ∈ items, Plain item) : Plain (.array items)
  | object {fields : Fields} (hkeys : (Assoc.keys fields).Nodup)
      (h : ∀ field ∈ fields, Plain field.2) : Plain (.object fields)

/-- A value is read from where it was written at any level, up to its end. -/
def Reads (v : Json) : Prop :=
  ∀ (level bound : Nat) (rest : List Char), Ends rest →
    (toLines level v).toList.length < bound →
      value? bound ((toLines level v).toList ++ rest) = some (v, rest)

theorem Reads.of_succ {v : Json}
    (h : ∀ (level bound : Nat) (rest : List Char), Ends rest →
      (toLines level v).toList.length ≤ bound →
        value? (bound + 1) ((toLines level v).toList ++ rest) = some (v, rest)) : Reads v := by
  intro level bound rest hrest hbound
  obtain ⟨bound, rfl⟩ : ∃ b, bound = b + 1 := ⟨bound - 1, by omega⟩
  exact h level bound rest hrest (Nat.le_of_lt_succ hbound)

/-! ### Lists of values

A list is read member by member. What comes behind a member tells whether another one follows, and
the bracket that would close an empty list is looked for before the first. -/

theorem items?_last {bound : Nat} {cs after rest : List Char} {item : Json}
    (h : value? bound cs = some (item, after)) (hafter : skipSpace after = ']' :: rest) :
    items? (bound + 1) cs = some ([item], rest) := by
  rw [items?, h]
  simp only [hafter]

theorem items?_more {bound : Nat} {cs after rest : List Char} {item : Json} {items : List Json}
    (h : value? bound cs = some (item, ',' :: after))
    (hitems : items? bound after = some (items, rest)) :
    items? (bound + 1) cs = some (item :: items, rest) := by
  have hskip : skipSpace (',' :: after) = ',' :: after := rfl
  rw [items?, h]
  simp only [hskip, hitems, Option.map_some]

theorem items?_close (bound : Nat) (rest : List Char) : items? bound (']' :: rest) = none := by
  cases bound with
  | zero => rfl
  | succ bound => cases bound <;> rfl

theorem value?_array {bound : Nat} {cs rest : List Char} {items : List Json}
    (h : items? bound cs = some (items, rest)) :
    value? (bound + 1) ('[' :: cs) = some (.array items, rest) := by
  have hskip : skipSpace ('[' :: cs) = '[' :: cs := rfl
  rw [← items?_skipSpace] at h
  rw [value?, hskip]
  simp only
  split
  · rename_i r hr
    rw [hr, items?_close] at h
    cases h
  · rw [h]
    rfl

/-- Values on lines of their own are read up to the closing bracket. -/
theorem items?_itemsLines {items : List Json} (hne : items ≠ []) (h : ∀ item ∈ items, Reads item)
    (level after : Nat) (rest : List Char) {bound : Nat}
    (hbound : (itemsLines level items).toList.length < bound) :
    items? bound ((itemsLines level items).toList ++ ((lineBreak after).toList ++ ']' :: rest))
      = some (items, rest) := by
  induction items generalizing bound with
  | nil => exact absurd rfl hne
  | cons item others ih =>
      have hitem := h item List.mem_cons_self
      have hbreak := length_lineBreak level
      cases others with
      | nil =>
          simp only [itemsLines, String.toList_append, List.length_append] at hbound
          obtain ⟨bound, rfl⟩ : ∃ b, bound = b + 1 := ⟨bound - 1, by omega⟩
          rw [itemsLines, String.toList_append, List.append_assoc, ← items?_skipSpace,
            skipSpace_lineBreak, items?_skipSpace]
          exact items?_last (hitem level bound _ (.lineBreak after _) (by omega))
            (skipSpace_lineBreak after _)
      | cons next others =>
          have hcomma : ",".toList = [','] := rfl
          simp only [itemsLines, String.toList_append, List.length_append, hcomma] at hbound
          obtain ⟨bound, rfl⟩ : ∃ b, bound = b + 1 := ⟨bound - 1, by omega⟩
          have hothers : items? bound ((itemsLines level (next :: others)).toList
              ++ ((lineBreak after).toList ++ ']' :: rest)) = some (next :: others, rest) :=
            ih nofun (fun i hi => h i (List.mem_cons_of_mem _ hi)) (by omega)
          simp only [itemsLines, String.toList_append, hcomma, List.append_assoc,
            List.cons_append, List.nil_append] at hothers ⊢
          rw [← items?_skipSpace, skipSpace_lineBreak, items?_skipSpace]
          exact items?_more (hitem level bound _ (.comma _) (by omega)) hothers

/-! ### Lists of fields

The same for fields, each of which is a key, a colon and a value. The fields that were read
already are handed on, and one that is new is put behind them. -/

theorem toList_quote (s : String) :
    (quote s).toList = '"' :: (s.toList.flatMap escapeChar ++ ['"']) := by
  rw [quote, String.toList_ofList]
  rfl

theorem fields?_last {bound : Nat} {read : Fields} {key : String} {cs after rest : List Char}
    {value : Json} (h : value? bound cs = some (value, after))
    (hafter : skipSpace after = '\x7d' :: rest) :
    fields? (bound + 1) read ((quote key).toList ++ ':' :: cs)
      = some (Assoc.put read key value, rest) := by
  have hquote (r : List Char) : skipSpace ('"' :: r) = '"' :: r := rfl
  have hcolon : skipSpace (':' :: cs) = ':' :: cs := rfl
  rw [toList_quote, List.cons_append, List.append_assoc, fields?]
  simp only [hquote, List.cons_append, List.nil_append, string?_quote, hcolon, h, hafter]

theorem fields?_more {bound : Nat} {read fields : Fields} {key : String}
    {cs after rest : List Char} {value : Json} (h : value? bound cs = some (value, ',' :: after))
    (hfields : fields? bound (Assoc.put read key value) after = some (fields, rest)) :
    fields? (bound + 1) read ((quote key).toList ++ ':' :: cs) = some (fields, rest) := by
  have hquote (r : List Char) : skipSpace ('"' :: r) = '"' :: r := rfl
  have hcolon : skipSpace (':' :: cs) = ':' :: cs := rfl
  have hcomma : skipSpace (',' :: after) = ',' :: after := rfl
  rw [toList_quote, List.cons_append, List.append_assoc, fields?]
  simp only [hquote, List.cons_append, List.nil_append, string?_quote, hcolon, h, hcomma, hfields]

theorem fields?_close (bound : Nat) (read : Fields) (rest : List Char) :
    fields? bound read ('\x7d' :: rest) = none := by
  cases bound <;> rfl

theorem value?_object {bound : Nat} {cs rest : List Char} {fields : Fields}
    (h : fields? bound [] cs = some (fields, rest)) :
    value? (bound + 1) ('\x7b' :: cs) = some (.object fields, rest) := by
  have hskip : skipSpace ('\x7b' :: cs) = '\x7b' :: cs := rfl
  rw [← fields?_skipSpace] at h
  rw [value?, hskip]
  simp only
  split
  · rename_i r hr
    rw [hr, fields?_close] at h
    cases h
  · rw [h]
    rfl

/-- Fields on lines of their own are read up to the closing brace, after those already read. -/
theorem fields?_fieldsLines {fields read : Fields} (hne : fields ≠ [])
    (h : ∀ field ∈ fields, Reads field.2) (hkeys : (Assoc.keys (read ++ fields)).Nodup)
    (level after : Nat) (rest : List Char) {bound : Nat}
    (hbound : (fieldsLines level fields).toList.length < bound) :
    fields? bound read
        ((fieldsLines level fields).toList ++ ((lineBreak after).toList ++ '\x7d' :: rest))
      = some (read ++ fields, rest) := by
  induction fields generalizing read bound with
  | nil => exact absurd rfl hne
  | cons field others ih =>
      obtain ⟨key, value⟩ := field
      have hvalue : Reads value := h (key, value) List.mem_cons_self
      have hbreak := length_lineBreak level
      have hcolon : ": ".toList = [':', ' '] := rfl
      -- the key is new, so its field comes last
      have hput : Assoc.put read key value = read ++ [(key, value)] := by
        apply Assoc.put_of_notMem_keys
        intro hkey
        rw [Assoc.keys, List.map_append, List.nodup_append] at hkeys
        exact hkeys.2.2 key hkey key List.mem_cons_self rfl
      cases others with
      | nil =>
          have hlast : skipSpace ((lineBreak after).toList ++ '\x7d' :: rest) = '\x7d' :: rest :=
            skipSpace_lineBreak after _
          simp only [fieldsLines, String.toList_append, List.length_append, hcolon] at hbound
          obtain ⟨bound, rfl⟩ : ∃ b, bound = b + 1 := ⟨bound - 1, by omega⟩
          simp only [fieldsLines, String.toList_append, hcolon, List.append_assoc,
            List.cons_append, List.nil_append]
          rw [← fields?_skipSpace, skipSpace_lineBreak, fields?_skipSpace, ← hput]
          have hread := hvalue level bound _ (.lineBreak after ('\x7d' :: rest)) (by omega)
          exact fields?_last ((value?_blank bound _).trans hread) hlast
      | cons next others =>
          have hcomma : ",".toList = [','] := rfl
          simp only [fieldsLines, String.toList_append, List.length_append, hcolon, hcomma]
            at hbound
          obtain ⟨bound, rfl⟩ : ∃ b, bound = b + 1 := ⟨bound - 1, by omega⟩
          have hothers : fields? bound (read ++ [(key, value)])
              ((fieldsLines level (next :: others)).toList
                ++ ((lineBreak after).toList ++ '\x7d' :: rest))
              = some (read ++ [(key, value)] ++ next :: others, rest) := by
            refine ih (List.cons_ne_nil next others) (fun f hf => h f (List.mem_cons_of_mem _ hf)) ?_ (by omega)
            rw [List.append_assoc]
            exact hkeys
          rw [List.append_assoc, ← hput] at hothers
          simp only [fieldsLines, String.toList_append, hcolon, hcomma, List.append_assoc,
            List.cons_append, List.nil_append] at hothers ⊢
          rw [← fields?_skipSpace, skipSpace_lineBreak, fields?_skipSpace]
          refine fields?_more ((value?_blank bound _).trans ?_) hothers
          exact hvalue level bound _ (.comma _) (by omega)

/-! ### Documents -/

theorem value?_of_digit {c : Char} (hc : c = '-' ∨ c.isDigit = true) (bound : Nat)
    (cs : List Char) :
    value? (bound + 1) (c :: cs) = (number? (c :: cs)).map fun (n, rest) => (.number n, rest) := by
  have hne (d : Char) (hminus : d ≠ '-') (hdigit : d.isDigit = false) : c ≠ d := by
    rintro rfl
    rcases hc with hc | hc
    · exact hminus hc
    · rw [hc] at hdigit
      cases hdigit
  have hskip : skipSpace (c :: cs) = c :: cs := by
    simp [skipSpace, hne]
  rw [value?, hskip]
  split
  case h_9 => rfl
  all_goals
    rename_i h
    exact absurd (List.cons.inj h).1 (hne _ (by decide) (by decide))

theorem value?_toString {n : Int} {rest : List Char} (bound : Nat)
    (hn : (Nat.toDigits 10 n.natAbs).length ≤ Numeral.maxDigits) (hrest : Ends rest) :
    value? (bound + 1) ((toString n).toList ++ rest) = some (.number (.whole n), rest) := by
  have hread := number?_toString hn hrest
  obtain ⟨c, cs, hcs, hc⟩ :
      ∃ c cs, (toString n).toList = c :: cs ∧ (c = '-' ∨ c.isDigit = true) := by
    rw [toList_toString]
    by_cases hneg : n < 0
    · rw [if_pos hneg]
      exact ⟨'-', _, rfl, .inl rfl⟩
    · have hne : Nat.toDigits 10 n.natAbs ≠ [] := Nat.toDigits_ne_nil
      rw [if_neg hneg]
      obtain ⟨c, cs, hcs⟩ := List.exists_cons_of_ne_nil hne
      refine ⟨c, cs, hcs, .inr ?_⟩
      exact Nat.isDigit_of_mem_toDigits (by omega) (by omega) (hcs ▸ List.mem_cons_self)
  rw [hcs, List.cons_append] at hread ⊢
  rw [value?_of_digit hc, hread]
  rfl

/-- **A plain value is read as it was written**, at any level. -/
theorem Plain.reads {v : Json} (h : Plain v) : Reads v := by
  induction h with
  | null =>
      refine .of_succ fun level bound rest hrest hbound => ?_
      rw [toLines]
      rfl
  | bool b =>
      refine .of_succ fun level bound rest hrest hbound => ?_
      rw [toLines]
      cases b <;> rfl
  | whole h =>
      refine .of_succ fun level bound rest hrest hbound => ?_
      rw [toLines]
      exact value?_toString bound h hrest
  | string s =>
      refine .of_succ fun level bound rest hrest hbound => ?_
      rw [toLines, toList_quote, List.cons_append, List.append_assoc]
      exact congrArg (Option.map _) (string?_quote s rest)
  | @array items h ih =>
      refine .of_succ fun level bound rest hrest hbound => ?_
      cases items with
      | nil =>
          rw [toLines]
          rfl
      | cons item others =>
          have hopen : "[".toList = ['['] := rfl
          have hclose : "]".toList = [']'] := rfl
          simp only [toLines, String.toList_append, List.length_append, hopen, hclose,
            List.length_singleton] at hbound
          simp only [toLines, String.toList_append, hopen, hclose, List.append_assoc,
            List.cons_append, List.nil_append]
          exact value?_array
            (items?_itemsLines (List.cons_ne_nil _ _) ih (level + 1) level rest (by omega))
  | @object fields hkeys h ih =>
      refine .of_succ fun level bound rest hrest hbound => ?_
      cases fields with
      | nil =>
          rw [toLines]
          rfl
      | cons field others =>
          have hopen : "\x7b".toList = ['\x7b'] := rfl
          have hclose : "\x7d".toList = ['\x7d'] := rfl
          simp only [toLines, String.toList_append, List.length_append, hopen, hclose,
            List.length_singleton] at hbound
          simp only [toLines, String.toList_append, hopen, hclose, List.append_assoc,
            List.cons_append, List.nil_append]
          exact value?_object
            (fields?_fieldsLines (List.cons_ne_nil _ _) ih hkeys (level + 1) level rest (by omega))

/-- **The document of a plain value** is read as that value. -/
theorem ofText?_toDocument {v : Json} (h : Plain v) : ofText? (toDocument v) = some v := by
  have hread := h.reads 0 ((toLines 0 v).toList.length + 1) [] .nil (Nat.lt_succ_self _)
  rw [List.append_nil] at hread
  rw [ofText?, toDocument, hread]
  rfl

end Stylesheet.Json
