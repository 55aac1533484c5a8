/-
Two readers of one numeral.

A limit that is written as text is read by one of two rules. The lax rule for whole numbers drops
leading zeros, underscores and a fraction of zeros; the rule by look takes a text with a point for
a double and any other text for a whole numeral. The rules accept different texts, and this file
is about the texts that both accept: there they see the same characters (`Spells`), and these are
perhaps a sign, digits, and perhaps a point with zeros after it.

For the whole numeral that is all there is to say. For the double there is the rounding: the digits
are scaled up by the zeros and divided by them again, so the quotient is the whole number itself,
and a whole number of at most 53 bits is a double (`Binary64.ofDecimal_whole`).
-/
import Mathlib.Data.List.TakeWhile
import Mathlib.Tactic.Positivity
import Mathlib.Tactic.Ring
import Stylesheet.Project.Override

set_option autoImplicit false

namespace Stylesheet

/-! ## Whole numbers that are doubles

A whole number of at most 53 bits is a double exactly. With a point and zeros behind it, it is
read as a quotient of two large numbers, which comes out even, however many zeros there are. -/

namespace Binary64

theorem twoTo_natCast (k : Nat) : twoTo k = 2 ^ k := rfl

theorem twoTo_neg_natCast (k : Nat) : twoTo (-(k : Int)) = 1 := by
  have hzero : (-(k : Int)).toNat = 0 := by omega
  rw [twoTo, hzero]

theorem roundDiv_mul (q : Nat) {den : Nat} (h : 0 < den) : roundDiv (q * den) den = q := by
  have hnone : 2 * 0 < den := by omega
  rw [roundDiv, Nat.mul_div_cancel q h, Nat.mul_mod_left]
  simp only [if_pos hnone]

/-- The bits of a product are those of its factors, or one more; a comparison tells which. -/
theorem level_cases {n den : Nat} (hn : 0 < n) (hden : 0 < den) :
    (n * den).log2 = den.log2 + n.log2 ∧ den * 2 ^ n.log2 ≤ n * den
      ∨ (n * den).log2 = den.log2 + (n.log2 + 1) ∧ ¬ den * 2 ^ (n.log2 + 1) ≤ n * den := by
  have hne : den * n ≠ 0 := Nat.mul_ne_zero (by omega) (by omega)
  have hlow : 2 ^ n.log2 ≤ n := (Nat.le_log2 (by omega)).1 (Nat.le_refl _)
  have hhigh : n < 2 ^ (n.log2 + 1) := (Nat.log2_lt (by omega)).1 (Nat.lt_succ_self _)
  have hdlow : 2 ^ den.log2 ≤ den := (Nat.le_log2 (by omega)).1 (Nat.le_refl _)
  have hdhigh : den < 2 ^ (den.log2 + 1) := (Nat.log2_lt (by omega)).1 (Nat.lt_succ_self _)
  have hbelow : den.log2 + n.log2 ≤ (den * n).log2 := by
    rw [Nat.le_log2 hne, Nat.pow_add]
    exact Nat.mul_le_mul hdlow hlow
  have habove : (den * n).log2 < den.log2 + n.log2 + 2 := by
    have hsplit : 2 ^ (den.log2 + n.log2 + 2) = 2 ^ (den.log2 + 1) * 2 ^ (n.log2 + 1) := by ring
    rw [Nat.log2_lt hne, hsplit]
    exact Nat.mul_lt_mul'' hdhigh hhigh
  rw [Nat.mul_comm n den, Nat.mul_le_mul_left_iff hden, Nat.mul_le_mul_left_iff hden]
  by_cases h : (den * n).log2 = den.log2 + n.log2
  · exact .inl ⟨h, hlow⟩
  · exact .inr ⟨by omega, by omega⟩

/-- A quotient that is a whole number of at most 53 bits is that number. -/
theorem ofRatio_mul (negative : Bool) {n den : Nat} (hn : 0 < n) (hsmall : n < 2 ^ 53)
    (hden : 0 < den) :
    ofRatio negative (n * den) den
      = .finite negative (n * 2 ^ (52 - n.log2)) (-((52 - n.log2 : Nat) : Int)) := by
  have hne : n * den ≠ 0 := Nat.mul_ne_zero (by omega) (by omega)
  have hhigh : n < 2 ^ (n.log2 + 1) := (Nat.log2_lt (by omega)).1 (Nat.lt_succ_self _)
  have hfits : n.log2 < 53 := (Nat.log2_lt (by omega)).2 hsmall
  -- whichever of the two lengths the quotient of lengths gives, the exponent comes out the same
  have hexponent :
      (if den * twoTo ((n * den).log2 - den.log2) ≤ n * den * twoTo (-((n * den).log2 - den.log2))
        then ((n * den).log2 : Int) - den.log2 - 52 else (n * den).log2 - den.log2 - 53)
        = -((52 - n.log2 : Nat) : Int) := by
    rcases level_cases hn hden with ⟨hlevel, hreaches⟩ | ⟨hlevel, hreaches⟩
    · have hdiff : ((n * den).log2 : Int) - den.log2 = (n.log2 : Nat) := by omega
      rw [hdiff, twoTo_natCast, twoTo_neg_natCast, Nat.mul_one, if_pos hreaches]
      omega
    · have hdiff : ((n * den).log2 : Int) - den.log2 = (n.log2 + 1 : Nat) := by omega
      rw [hdiff, twoTo_natCast, twoTo_neg_natCast, Nat.mul_one, if_neg hreaches]
      omega
  have hround : roundDiv (n * den * twoTo (-(-((52 - n.log2 : Nat) : Int))))
      (den * twoTo (-((52 - n.log2 : Nat) : Int))) = n * 2 ^ (52 - n.log2) := by
    rw [Int.neg_neg, twoTo_natCast, twoTo_neg_natCast, Nat.mul_one, Nat.mul_right_comm]
    exact roundDiv_mul _ hden
  have hmax : max (-((52 - n.log2 : Nat) : Int)) minExponent = -((52 - n.log2 : Nat) : Int) := by
    rw [minExponent]
    omega
  have hmantissa : n * 2 ^ (52 - n.log2) < 2 ^ 53 := by
    have hsum : 2 ^ (n.log2 + 1) * 2 ^ (52 - n.log2) = 2 ^ 53 := by
      rw [← Nat.pow_add]
      congr 1
      omega
    rw [← hsum]
    exact Nat.mul_lt_mul_of_pos_right hhigh (by positivity)
  have hover : ¬ n * 2 ^ (52 - n.log2) = twoTo 53 := by
    intro h
    rw [h] at hmantissa
    exact Nat.lt_irrefl _ hmantissa
  have htop : ¬ -((52 - n.log2 : Nat) : Int) > maxExponent := by
    rw [maxExponent]
    omega
  simp only [ofRatio]
  rw [if_neg hne, hexponent, hmax, hround, if_neg hover]
  simp only
  rw [if_neg htop]

theorem length_toDigits_mul {n : Nat} (k : Nat) (hn : 0 < n) (hsmall : n < 2 ^ 53) :
    k < (Nat.toDigits 10 (n * 10 ^ k)).length
      ∧ (Nat.toDigits 10 (n * 10 ^ k)).length ≤ 16 + k := by
  constructor
  · by_cases hk : k = 0
    · subst hk
      exact Nat.length_toDigits_pos
    · have hlong : ¬ (Nat.toDigits 10 (n * 10 ^ k)).length ≤ k := by
        rw [Nat.length_toDigits_le_iff (by omega) (by omega), Nat.not_lt]
        exact Nat.le_mul_of_pos_left _ hn
      omega
  · rw [Nat.length_toDigits_le_iff (by omega) (by omega), Nat.pow_add]
    exact Nat.mul_lt_mul_of_pos_right (Nat.lt_trans hsmall (by decide)) (by positivity)

/-- A whole number with a fraction of zeros is read as that number, however many zeros there
are. -/
theorem ofDecimal_whole (negative : Bool) {n : Nat} (k : Nat) (hn : 0 < n) (hsmall : n < 2 ^ 53) :
    ofDecimal negative (n * 10 ^ k) (-k)
      = .finite negative (n * 2 ^ (52 - n.log2)) (-((52 - n.log2 : Nat) : Int)) := by
  obtain ⟨hlong, hshort⟩ := length_toDigits_mul k hn hsmall
  have hpower : 0 < 10 ^ k := by positivity
  have hne : n * 10 ^ k ≠ 0 := Nat.mul_ne_zero (by omega) (by omega)
  have hinfinite : ¬ (((Nat.toDigits 10 (n * 10 ^ k)).length : Int) + -k) > 310 := by omega
  have hzero : ¬ (((Nat.toDigits 10 (n * 10 ^ k)).length : Int) + -k) < -330 := by omega
  have hup : tenTo (-(k : Int)) = 1 := by
    have hnone : (-(k : Int)).toNat = 0 := by omega
    rw [tenTo, hnone]
  have hdown : tenTo (-(-(k : Int))) = 10 ^ k := by
    rw [Int.neg_neg, tenTo, Int.toNat_natCast]
    rfl
  simp only [ofDecimal]
  rw [if_neg hne, if_neg hinfinite, if_neg hzero, hup, hdown, Nat.mul_one]
  exact ofRatio_mul negative hn hsmall hpower

theorem toInt?_finite {n : Nat} :
    (Binary64.finite false (n * 2 ^ (52 - n.log2)) (-((52 - n.log2 : Nat) : Int))).toInt?
      = some (n : Int) := by
  have hwhole : n * 2 ^ (52 - n.log2) % 2 ^ (52 - n.log2) = 0 := Nat.mul_mod_left _ _
  rw [toInt?]
  simp only [Int.neg_neg, twoTo_natCast, twoTo_neg_natCast, Nat.mul_one]
  rw [if_pos hwhole, Nat.mul_div_cancel _ (by positivity)]
  rfl

end Binary64

/-! ## Digits

Zeros before digits do not count, and zeros behind them scale the value up. A numeral begins with
at most one sign, and what is left of it is digits. -/

namespace Text

theorem ofDigits_zeros_append (k : Nat) (ds : List Nat) :
    ofDigits (List.replicate k 0 ++ ds) = ofDigits ds := by
  induction k with
  | zero => rfl
  | succ k ih =>
      rw [List.replicate_succ, List.cons_append, ofDigits, List.foldl_cons]
      exact ih

/-- A zero at the end counts ten times as much. -/
theorem ofDigits_append_zeros (k : Nat) (ds : List Nat) :
    ofDigits (ds ++ List.replicate k 0) = ofDigits ds * 10 ^ k := by
  induction k with
  | zero => simp
  | succ k ih =>
      rw [List.replicate_succ', ← List.append_assoc, ofDigits, List.foldl_append]
      show ofDigits (ds ++ List.replicate k 0) * 10 + 0 = _
      rw [ih]
      ring

end Text

namespace Numeral

variable {cs ds : List Char} {n : Nat}

theorem digits?_eq_some :
    digits? cs = some n ↔ cs ≠ [] ∧ (∀ c ∈ cs, c.isDigit = true)
      ∧ Text.ofDigits (cs.map fun c => c.toNat - 48) = n := by
  rw [digits?]
  by_cases hempty : cs = []
  · simp [hempty]
  · by_cases hall : ∀ c ∈ cs, c.isDigit = true
    · have htest : (!cs.isEmpty && cs.all Char.isDigit) = true := by
        simpa [hempty] using hall
      rw [if_pos htest, Option.some.injEq]
      exact ⟨fun h => ⟨hempty, hall, h⟩, fun h => h.2.2⟩
    · have htest : ¬ (!cs.isEmpty && cs.all Char.isDigit) = true := by
        simpa [hempty] using hall
      rw [if_neg htest]
      simp [hall]

theorem digits?_zeros_append (k : Nat) (h : digits? ds = some n) :
    digits? (List.replicate k '0' ++ ds) = some n := by
  obtain ⟨hne, hall, hvalue⟩ := digits?_eq_some.1 h
  refine digits?_eq_some.2 ⟨by simp [hne], ?_, ?_⟩
  · intro c hc
    rcases List.mem_append.1 hc with hzero | hc
    · rw [List.eq_of_mem_replicate hzero]
      rfl
    · exact hall c hc
  · rw [List.map_append, List.map_replicate]
    exact (Text.ofDigits_zeros_append k _).trans hvalue

theorem digits?_append_zeros (k : Nat) (h : digits? ds = some n) :
    digits? (ds ++ List.replicate k '0') = some (n * 10 ^ k) := by
  obtain ⟨hne, hall, hvalue⟩ := digits?_eq_some.1 h
  refine digits?_eq_some.2 ⟨by simp [hne], ?_, ?_⟩
  · intro c hc
    rcases List.mem_append.1 hc with hc | hzero
    · exact hall c hc
    · rw [List.eq_of_mem_replicate hzero]
      rfl
  · rw [List.map_append, List.map_replicate, ← hvalue]
    exact Text.ofDigits_append_zeros k _

theorem sign_cases (cs : List Char) :
    (∃ rest, cs = '-' :: rest ∧ sign cs = (true, rest))
      ∨ (∃ rest, cs = '+' :: rest ∧ sign cs = (false, rest)) ∨ sign cs = (false, cs) := by
  unfold sign
  split
  · exact .inl ⟨_, rfl, rfl⟩
  · exact .inr (.inl ⟨_, rfl, rfl⟩)
  · exact .inr (.inr rfl)

/-! ## Underscores and scripts -/

/-- Only underscores are left out. -/
theorem eq_filter_of_ungroup {afterDigit : Bool} {vs : List Char}
    (h : ungroup afterDigit cs = some vs) : vs = cs.filter (· ≠ '_') := by
  induction cs generalizing afterDigit vs with
  | nil => exact (Option.some.inj h).symm
  | cons c cs ih =>
      by_cases hc : c = '_'
      · subst hc
        cases cs with
        | nil => cases h
        | cons d cs =>
            rw [ungroup] at h
            split at h
            · exact ih h
            · cases h
      · rw [ungroup] at h
        · obtain ⟨us, hus, rfl⟩ := Option.map_eq_some_iff.1 h
          rw [List.filter_cons_of_pos (by simpa using hc), ← ih hus]
        · exact hc

/-- A numeral does not begin with an underscore, so its first character stays. -/
theorem exists_cons_of_ungroup {c : Char} {vs : List Char} (h : ungroup false (c :: cs) = some vs) :
    ∃ us, vs = c :: us := by
  by_cases hc : c = '_'
  · subst hc
    cases cs with
    | nil => cases h
    | cons d cs => cases h
  · rw [ungroup] at h
    · obtain ⟨us, -, rfl⟩ := Option.map_eq_some_iff.1 h
      exact ⟨us, rfl⟩
    · exact hc

/-- Characters of ASCII are digits of no other script. -/
theorem asciiOf_eq {c : Char} (h : c.toNat < 128) : asciiOf c = c := by
  have hothers : ∀ first ∈ Text.zeroDigits.tail, 128 ≤ first := by decide
  have hnone : Text.zeroDigits.tail.find?
      (fun first => first ≤ c.toNat && c.toNat < first + 10) = none := by
    rw [List.find?_eq_none]
    intro first hfirst
    have habove := hothers first hfirst
    simp only [Bool.and_eq_true, decide_eq_true_eq]
    omega
  have hvalue : Text.digitValue? c
      = if 48 ≤ c.toNat ∧ c.toNat < 58 then some (c.toNat - 48) else none := by
    have hsplit : Text.zeroDigits = 48 :: Text.zeroDigits.tail := rfl
    rw [Text.digitValue?, hsplit, List.find?_cons, hnone]
    by_cases hdigit : 48 ≤ c.toNat ∧ c.toNat < 58
    · simp [hdigit]
    · rw [if_neg hdigit]
      simp only [← Bool.decide_and, decide_eq_false hdigit]
      rfl
  rw [asciiOf, hvalue]
  by_cases hdigit : 48 ≤ c.toNat ∧ c.toNat < 58
  · have hback : 48 + (c.toNat - 48) = c.toNat := by omega
    rw [if_pos hdigit]
    simp only [hback]
    exact Char.ofNat_toNat c
  · rw [if_neg hdigit]

/-! ## What spells a whole number -/

/-- Characters without underscores that spell a whole number: perhaps a plus sign, digits, and
perhaps a point with zeros after it. -/
def Spells (cs : List Char) (n : Nat) : Prop :=
  ∃ plus ds zeros, cs = plus ++ ds ++ zeros ∧ (plus = [] ∨ plus = ['+']) ∧ digits? ds = some n
    ∧ (zeros = [] ∨ ∃ k, zeros = '.' :: List.replicate (k + 1) '0')

theorem Spells.ascii (h : Spells cs n) {c : Char} (hc : c ∈ cs) : c.toNat < 128 := by
  obtain ⟨plus, ds, zeros, rfl, hplus, hdigits, hzeros⟩ := h
  obtain ⟨-, hall, -⟩ := digits?_eq_some.1 hdigits
  rcases List.mem_append.1 hc with hc | hc
  · rcases List.mem_append.1 hc with hc | hc
    · rcases hplus with rfl | rfl
      · cases hc
      · rw [List.mem_singleton.1 hc]
        decide
    · have hdigit := hall c hc
      simp only [Char.isDigit, Bool.and_eq_true, decide_eq_true_eq, UInt32.le_iff_toNat_le]
        at hdigit
      have hval : c.val.toNat = c.toNat := rfl
      have hnine : '9'.val.toNat = 57 := rfl
      omega
  · rcases hzeros with rfl | ⟨k, rfl⟩
    · cases hc
    · rcases List.mem_cons.1 hc with rfl | hc
      · decide
      · rw [List.eq_of_mem_replicate hc]
        decide

theorem Spells.exists_digit (h : Spells cs n) : ∃ c ∈ cs, c.isDigit = true := by
  obtain ⟨plus, ds, zeros, rfl, -, hdigits, -⟩ := h
  obtain ⟨hne, hall, -⟩ := digits?_eq_some.1 hdigits
  obtain ⟨c, hc⟩ := List.exists_mem_of_ne_nil ds hne
  exact ⟨c, by simp [hc], hall c hc⟩

/-- A whole number without its sign is its digits, and perhaps a point with zeros after it. -/
theorem Spells.sign_eq (h : Spells cs n) :
    ∃ ds zeros, sign cs = (false, ds ++ zeros) ∧ digits? ds = some n
      ∧ (zeros = [] ∨ ∃ k, zeros = '.' :: List.replicate (k + 1) '0') := by
  obtain ⟨plus, ds, zeros, rfl, hplus, hdigits, hzeros⟩ := h
  refine ⟨ds, zeros, ?_, hdigits, hzeros⟩
  rcases hplus with rfl | rfl
  · obtain ⟨hne, hall, -⟩ := digits?_eq_some.1 hdigits
    cases ds with
    | nil => exact absurd rfl hne
    | cons d ds =>
        have hdigit : d.isDigit = true := hall d List.mem_cons_self
        -- a digit is no sign
        rw [List.nil_append, List.cons_append, sign]
        · rintro rest hsign
          obtain ⟨rfl, -⟩ := List.cons.inj hsign
          exact absurd hdigit (by decide)
        · rintro rest hsign
          obtain ⟨rfl, -⟩ := List.cons.inj hsign
          exact absurd hdigit (by decide)
  · rfl

/-- The characters of a numeral are those of the text that are left without underscores, if these
spell a whole number. -/
theorem Spells.chars?_eq {s : String} {vs : List Char}
    (h : Spells ((Text.trimBy Text.isSpace s.toList).filter (· ≠ '_')) n)
    (hvs : chars? s = some vs) : Spells vs n := by
  have hascii : (Text.trimBy Text.isSpace s.toList).map asciiOf
      = Text.trimBy Text.isSpace s.toList := by
    refine (List.map_congr_left fun c hc => ?_).trans (List.map_id _)
    by_cases hunder : c = '_'
    · rw [hunder]
      rfl
    · exact asciiOf_eq (h.ascii (List.mem_filter.2 ⟨hc, by simpa using hunder⟩))
  rw [chars?, hascii] at hvs
  rwa [eq_filter_of_ungroup hvs]

/-- A whole numeral has the value that it spells. -/
theorem Spells.integer?_eq {s : String} {m : Int}
    (h : Spells ((Text.trimBy Text.isSpace s.toList).filter (· ≠ '_')) n)
    (hm : integer? s = some m) : m = n := by
  simp only [integer?, Option.bind_eq_bind, Option.bind_eq_some_iff] at hm
  obtain ⟨vs, hvs, hm⟩ := hm
  obtain ⟨ds, zeros, hsign, hdigits, hzeros⟩ := (h.chars?_eq hvs).sign_eq
  rw [hsign] at hm
  simp only at hm
  by_cases hlong : (ds ++ zeros).length > maxDigits
  · rw [if_pos hlong] at hm
    cases hm
  · rw [if_neg hlong, Option.bind_eq_some_iff] at hm
    obtain ⟨v, hv, hm⟩ := hm
    rcases hzeros with rfl | ⟨k, rfl⟩
    · rw [List.append_nil, hdigits] at hv
      obtain rfl := Option.some.inj hv
      exact (Option.some.inj hm).symm
    · -- a whole numeral has no point
      obtain ⟨-, hall, -⟩ := digits?_eq_some.1 hv
      exact absurd (hall '.' (by simp)) (by decide)

/-- A decimal numeral that spells a whole number is the double for it. -/
theorem Spells.decimal?_eq {s : String} {x : Binary64} (hn : 0 < n) (hsmall : n < 2 ^ 53)
    (h : Spells ((Text.trimBy Text.isSpace s.toList).filter (· ≠ '_')) n)
    (hx : decimal? s = some x) :
    x = .finite false (n * 2 ^ (52 - n.log2)) (-((52 - n.log2 : Nat) : Int)) := by
  simp only [decimal?, Option.bind_eq_bind, Option.bind_eq_some_iff] at hx
  obtain ⟨vs, hvs, hx⟩ := hx
  obtain ⟨ds, zeros, hsign, hdigits, hzeros⟩ := (h.chars?_eq hvs).sign_eq
  obtain ⟨-, hall, -⟩ := digits?_eq_some.1 hdigits
  have hwhole : (ds ++ zeros).takeWhile Char.isDigit = ds := by
    rw [List.takeWhile_append_of_pos hall]
    rcases hzeros with rfl | ⟨k, rfl⟩
    · exact List.append_nil ds
    · exact List.append_nil ds
  have hrest : (ds ++ zeros).dropWhile Char.isDigit = zeros := by
    rw [List.dropWhile_append_of_pos hall]
    rcases hzeros with rfl | ⟨k, rfl⟩ <;> rfl
  rw [hsign] at hx
  simp only [hwhole, hrest] at hx
  obtain ⟨v, hv, power, hpower, hx⟩ := hx
  rw [← Option.some.inj hx]
  rcases hzeros with rfl | ⟨k, rfl⟩
  · rw [List.append_nil, hdigits] at hv
    obtain rfl := Option.some.inj hv
    obtain rfl := Option.some.inj hpower
    have hexact := Binary64.ofDecimal_whole false 0 hn hsmall
    rw [Nat.pow_zero, Nat.mul_one] at hexact
    exact hexact
  · have hzero : ∀ c ∈ List.replicate (k + 1) '0', c.isDigit = true := by
      intro c hc
      rw [List.eq_of_mem_replicate hc]
      rfl
    have hfraction : (List.replicate (k + 1) '0').takeWhile Char.isDigit
        = List.replicate (k + 1) '0' := List.takeWhile_eq_self_iff.2 hzero
    have hend : (List.replicate (k + 1) '0').dropWhile Char.isDigit = [] :=
      List.dropWhile_eq_nil_iff.2 hzero
    simp only [hfraction, hend] at hv hpower
    rw [digits?_append_zeros (k + 1) hdigits] at hv
    obtain rfl := Option.some.inj hv
    obtain rfl := Option.some.inj hpower
    have hexact := Binary64.ofDecimal_whole false (k + 1) hn hsmall
    simp only [hfraction, List.length_replicate, Int.zero_sub]
    exact hexact

end Numeral

/-! ## The lax rule -/

variable {cs zs : List Char}

theorem exists_filter_cons {last : Char} (hlast : last = '0' ∨ last = '_') (rest : List Char) :
    ∃ k, (last :: rest).filter (· ≠ '_') = List.replicate k '0' ++ rest.filter (· ≠ '_') := by
  rcases hlast with rfl | rfl
  · exact ⟨1, rfl⟩
  · exact ⟨0, rfl⟩

/-- What is dropped up to the last of the leading zeros is zeros and underscores, and what is left
begins with neither a plus sign nor a point. -/
theorem of_afterZeros {last : Char} (hlast : last = '0' ∨ last = '_')
    (h : afterZeros last cs = some zs) :
    (∃ k, (last :: cs).filter (· ≠ '_') = List.replicate k '0' ++ zs.filter (· ≠ '_'))
      ∧ ∃ c rest, zs = c :: rest ∧ c ≠ '+' ∧ c ≠ '.' := by
  have hplain : last ≠ '+' ∧ last ≠ '.' := by
    rcases hlast with rfl | rfl <;> decide
  induction cs generalizing last with
  | nil =>
      obtain rfl := Option.some.inj h
      exact ⟨⟨0, rfl⟩, last, [], rfl, hplain⟩
  | cons c cs ih =>
      rw [afterZeros] at h
      by_cases hzero : c = '0' ∨ c = '_'
      · rw [if_pos hzero] at h
        obtain ⟨⟨k, hk⟩, hleft⟩ := ih hzero h (by rcases hzero with rfl | rfl <;> decide)
        obtain ⟨j, hj⟩ := exists_filter_cons hlast (c :: cs)
        refine ⟨⟨j + k, ?_⟩, hleft⟩
        rw [hj, hk, ← List.append_assoc, ← List.replicate_add]
      rw [if_neg hzero] at h
      by_cases hpoint : c = '.'
      · rw [if_pos hpoint] at h
        obtain rfl := Option.some.inj h
        exact ⟨⟨0, by rw [hpoint]; rfl⟩, last, _, rfl, hplain⟩
      rw [if_neg hpoint] at h
      by_cases hfirst : c = '-' ∨ c.isDigit = true
      · rw [if_pos hfirst] at h
        obtain rfl := Option.some.inj h
        refine ⟨exists_filter_cons hlast (c :: cs), c, cs, rfl, ?_, hpoint⟩
        rcases hfirst with rfl | hdigit
        · decide
        · rintro rfl
          exact absurd hdigit (by decide)
      · rw [if_neg hfirst] at h
        cases h

/-- Without its leading zeros a numeral has the same characters but for zeros and underscores, and
begins with neither a plus sign nor a point. -/
theorem of_withoutZeros (h : withoutZeros cs = some zs) :
    (∃ k, cs.filter (· ≠ '_') = List.replicate k '0' ++ zs.filter (· ≠ '_'))
      ∧ ∃ c rest, zs = c :: rest ∧ c ≠ '+' ∧ c ≠ '.' := by
  cases cs with
  | nil => cases h
  | cons c cs =>
      by_cases hzero : c = '0'
      · subst hzero
        exact of_afterZeros (.inl rfl) h
      · rw [withoutZeros] at h
        · by_cases hfirst : c = '-' ∨ c.isDigit = true
          · rw [if_pos hfirst] at h
            obtain rfl := Option.some.inj h
            refine ⟨⟨0, rfl⟩, c, cs, rfl, ?_⟩
            rcases hfirst with rfl | hdigit
            · decide
            · constructor <;> rintro rfl <;> exact absurd hdigit (by decide)
          · rw [if_neg hfirst] at h
            cases h
        · exact hzero

/-- A fraction is left out as a whole, with its point, or not at all. -/
theorem withoutFraction_cases (cs : List Char) :
    withoutFraction cs = cs
      ∨ ∃ k, cs = withoutFraction cs ++ '.' :: List.replicate (k + 1) '0' := by
  have hsplit := List.takeWhile_append_dropWhile (p := fun c => c != '.') (l := cs)
  rw [withoutFraction]
  split
  · rename_i point c fraction hpoint
    by_cases hall : (c :: fraction).all (· == '0') = true
    · have hzeros : c :: fraction = List.replicate (fraction.length + 1) '0' := by
        refine List.eq_replicate_iff.2 ⟨rfl, fun d hd => ?_⟩
        simpa using List.all_eq_true.1 hall d hd
      have hmark : point = '.' := by
        have hhead := List.head?_dropWhile_not (fun c => c != '.') cs
        rw [hpoint] at hhead
        simpa using hhead
      subst hmark
      rw [if_pos hall]
      refine .inr ⟨fraction.length, ?_⟩
      rw [← hzeros, ← hpoint]
      exact hsplit.symm
    · rw [if_neg hall]
      exact .inl rfl
  · exact .inl rfl

/-- Only a first character that is no point keeps a numeral from losing its beginning. -/
theorem exists_cons_of_withoutFraction {c : Char} (hc : c ≠ '.') (rest : List Char) :
    ∃ rest', withoutFraction (c :: rest) = c :: rest' := by
  rcases withoutFraction_cases (c :: rest) with heq | ⟨k, heq⟩
  · exact ⟨rest, heq⟩
  · cases hw : withoutFraction (c :: rest) with
    | nil =>
        rw [hw] at heq
        exact absurd (List.cons.inj heq).1 hc
    | cons d rest' =>
        rw [hw] at heq
        rw [(List.cons.inj heq).1]
        exact ⟨rest', rfl⟩

/-- The characters that count of a numeral without a plus sign are those without underscores,
leading zeros and a fraction of zeros. -/
theorem of_counted {us : List Char}
    (h : (withoutZeros cs).bind (fun zs => Numeral.ungroup false (withoutFraction zs)) = some us) :
    (∃ k zeros, cs.filter (· ≠ '_') = (List.replicate k '0' ++ us) ++ zeros
        ∧ (zeros = [] ∨ ∃ k, zeros = '.' :: List.replicate (k + 1) '0'))
      ∧ us.head? ≠ some '+' := by
  obtain ⟨zs, hzs, hus⟩ := Option.bind_eq_some_iff.1 h
  obtain ⟨⟨k, hk⟩, c, rest, rfl, hplus, hpoint⟩ := of_withoutZeros hzs
  have hleft := Numeral.eq_filter_of_ungroup hus
  constructor
  · rcases withoutFraction_cases (c :: rest) with heq | ⟨j, heq⟩
    · rw [heq] at hleft
      exact ⟨k, [], by rw [hk, ← hleft, List.append_nil], .inl rfl⟩
    · have hzeros : ('.' :: List.replicate (j + 1) '0').filter (· ≠ '_')
          = '.' :: List.replicate (j + 1) '0' := by
        refine List.filter_eq_self.2 fun d hd => ?_
        rcases List.mem_cons.1 hd with rfl | hd
        · rfl
        · rw [List.eq_of_mem_replicate hd]
          rfl
      refine ⟨k, '.' :: List.replicate (j + 1) '0', ?_, .inr ⟨j, rfl⟩⟩
      rw [hk, heq, List.filter_append, hzeros, ← hleft, List.append_assoc]
  · obtain ⟨rest', hhead⟩ := exists_cons_of_withoutFraction hpoint rest
    rw [hhead] at hus
    obtain ⟨us', rfl⟩ := Numeral.exists_cons_of_ungroup hus
    simpa using hplus

/-- The characters that count are those without underscores, leading zeros, a plus sign and a
fraction of zeros. -/
theorem of_wholeChars? {s : String} {us : List Char} (h : wholeChars? s = some us) :
    (∃ plus k zeros, (Text.trimBy Text.isSpace s.toList).filter (· ≠ '_')
          = plus ++ (List.replicate k '0' ++ us) ++ zeros
        ∧ (plus = [] ∨ plus = ['+'])
        ∧ (zeros = [] ∨ ∃ k, zeros = '.' :: List.replicate (k + 1) '0'))
      ∧ us.head? ≠ some '+' := by
  simp only [wholeChars?, Option.bind_eq_bind] at h
  split at h
  · cases h
  · rename_i rest _ hcs
    obtain ⟨⟨k, zeros, hk, hzeros⟩, hhead⟩ := of_counted h
    refine ⟨⟨['+'], k, zeros, ?_, .inr rfl, hzeros⟩, hhead⟩
    rw [hcs, List.filter_cons_of_pos (by decide), hk]
    rfl
  · obtain ⟨⟨k, zeros, hk, hzeros⟩, hhead⟩ := of_counted h
    exact ⟨⟨[], k, zeros, hk, .inl rfl, hzeros⟩, hhead⟩

/-- **A text that is read as a positive whole number** spells that number. -/
theorem spells_of_wholeOfText {s : String} {n : Nat} (hn : 0 < n) (h : wholeOfText s = .ok n) :
    Numeral.Spells ((Text.trimBy Text.isSpace s.toList).filter (· ≠ '_')) n := by
  rw [wholeOfText] at h
  cases hus : wholeChars? s with
  | none =>
      rw [hus] at h
      cases h
  | some us =>
      rw [hus] at h
      simp only at h
      by_cases hlong : Numeral.maxDigits < (String.ofList us).utf8ByteSize
      · rw [if_pos hlong] at h
        cases h
      rw [if_neg hlong] at h
      cases hdigits : Numeral.digits? (Numeral.sign us).2 with
      | none =>
          rw [hdigits] at h
          cases h
      | some v =>
          rw [hdigits] at h
          have hvalue := Except.ok.inj h
          obtain ⟨⟨plus, k, zeros, hall, hplus, hzeros⟩, hhead⟩ := of_wholeChars? hus
          -- a minus sign makes no positive number, and there is no plus sign left
          have hsign : Numeral.sign us = (false, us) := by
            rcases Numeral.sign_cases us with ⟨rest, rfl, hminus⟩ | ⟨rest, rfl, -⟩ | hnone
            · rw [hminus] at hvalue
              simp only [if_true] at hvalue
              omega
            · exact absurd rfl hhead
            · exact hnone
          rw [hsign] at hdigits hvalue
          obtain rfl : v = n := by simpa using hvalue
          exact ⟨plus, List.replicate k '0' ++ us, zeros, hall, hplus,
            Numeral.digits?_zeros_append k hdigits, hzeros⟩

/-! ## The limit -/

theorem Text.mem_of_mem_trimBy {p : Char → Bool} {cs : List Char} {c : Char}
    (h : c ∈ Text.trimBy p cs) : c ∈ cs := by
  rw [Text.trimBy, Text.trimEndBy, List.mem_reverse] at h
  have h := (List.dropWhile_suffix p).mem h
  rw [List.mem_reverse] at h
  exact (List.dropWhile_suffix p).mem h

/-- The digits of a text are there in small letters too. -/
theorem Text.mem_lower_of_isDigit {s : String} {c : Char} (hc : c ∈ s.toList)
    (hdigit : c.isDigit = true) : c ∈ (Text.lower s).toList := by
  have hsame : c.toLower = c := by
    have hcapital : ¬ (c.val ≥ 'A'.val ∧ c.val ≤ 'Z'.val) := by
      have hnine : '9'.val.toNat = 57 := rfl
      have hfirst : 'A'.val.toNat = 65 := rfl
      simp only [Char.isDigit, Bool.and_eq_true, decide_eq_true_eq, UInt32.le_iff_toNat_le]
        at hdigit
      simp only [ge_iff_le, UInt32.le_iff_toNat_le]
      omega
    exact dif_neg hcapital
  rw [Text.lower, String.toList_ofList]
  exact List.mem_map.2 ⟨c, hc, hsame⟩

namespace EnvValue

/-- The words for yes and no that the look of a text tells. -/
def words : List String := ["true", "yes", "on", "false", "no", "off"]

/-- What does not look like a word is a number, with a point or without, or else a text. -/
theorem ofText_of_notMem_words {s : String} (h : Text.lower s ∉ words) :
    ofText s
      = if s.toList.contains '.' then
          match Numeral.decimal? s with
          | some x => .double x
          | none => .text s
        else
          match Numeral.integer? s with
          | some n => .whole n
          | none => .text s := by
  have htrue : ¬ ["true", "yes", "on"].contains (Text.lower s) = true := by
    rw [List.contains_iff_mem]
    exact fun hmem => h (List.mem_append_left ["false", "no", "off"] hmem)
  have hfalse : ¬ ["false", "no", "off"].contains (Text.lower s) = true := by
    rw [List.contains_iff_mem]
    exact fun hmem => h (List.mem_append_right ["true", "yes", "on"] hmem)
  exact (if_neg htrue).trans (if_neg hfalse)

theorem lower_notMem_words {s : String} {c : Char} (hc : c ∈ s.toList)
    (hdigit : c.isDigit = true) : Text.lower s ∉ words := by
  have hwords : words.all (fun word => word.toList.all fun d => !d.isDigit) = true := by decide
  intro hword
  have hletters := List.all_eq_true.1 (List.all_eq_true.1 hwords _ hword) c
    (Text.mem_lower_of_isDigit hc hdigit)
  rw [hdigit] at hletters
  cases hletters

end EnvValue

namespace Megabytes

/-- A limit is made of the positive whole number that a text spells. -/
theorem exists_whole_of_ofJson {s : String} {m : Megabytes} (h : ofJson (.string s) = .ok m) :
    wholeOfText s = .ok ((m.val : Nat) : Int) := by
  rw [ofJson, laxInt] at h
  cases hn : wholeOfText s with
  | error e =>
      rw [hn] at h
      cases h
  | ok n =>
      rw [hn] at h
      simp only [Except.bind, ofInt] at h
      split at h
      · cases h
      · split at h
        · cases h
        · obtain rfl := Except.ok.inj h
          simp only
          congr
          omega

/-- Every limit is the limit of its own number. -/
theorem ofInt_val (m : Megabytes) : ofInt m.val = .ok m := by
  have hlow : ¬ (m.val : Int) < 1 := by
    have := m.property.1
    omega
  have hhigh : ¬ 100 < (m.val : Int) := by
    have := m.property.2
    omega
  rw [ofInt, dif_neg hlow, dif_neg hhigh]
  congr

/-- **Two readers of a limit.** A text that is a limit by the lax rule is the same limit when it
is first taken for what it looks like. -/
theorem ofJson_ofText {s : String} {m : Megabytes} (h : ofJson (.string s) = .ok m) :
    ofJson (EnvValue.ofText s).toJson = .ok m := by
  have hpos : 0 < m.val := m.property.1
  have hsmall : m.val < 2 ^ 53 := Nat.lt_of_le_of_lt m.property.2 (by decide)
  have hspells := spells_of_wholeOfText hpos (exists_whole_of_ofJson h)
  obtain ⟨c, hc, hdigit⟩ := hspells.exists_digit
  have hin : c ∈ s.toList := Text.mem_of_mem_trimBy (List.mem_filter.1 hc).1
  rw [EnvValue.ofText_of_notMem_words (EnvValue.lower_notMem_words hin hdigit)]
  by_cases hpoint : s.toList.contains '.' = true
  · rw [if_pos hpoint]
    cases hx : Numeral.decimal? s with
    | none => exact h
    | some x =>
        have hword : isWordDouble m.val = true := by
          have hmost := m.property.2
          have hlow : -wordEnd < (m.val : Int) := by
            rw [wordEnd]
            omega
          have hhigh : (m.val : Int) < wordEnd := by
            rw [wordEnd]
            omega
          rw [isWordDouble, decide_eq_true hlow, decide_eq_true hhigh]
          rfl
        rw [hspells.decimal?_eq hpos hsmall hx]
        simp only [EnvValue.toJson, ofJson, laxInt, Binary64.toInt?_finite, hword, if_true]
        exact ofInt_val m
  · rw [if_neg hpoint]
    cases hn : Numeral.integer? s with
    | none => exact h
    | some n =>
        obtain rfl := hspells.integer?_eq hn
        exact ofInt_val m

end Megabytes

end Stylesheet
