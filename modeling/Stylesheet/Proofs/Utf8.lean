/-
Reading UTF-8 undoes writing it.

The machine that reads octets knows, inside a character, how many octets it owes and between
which bounds the next one lies. For each length of a character the first octet that is written
brings the machine into a state whose bounds admit the second one, and that is the whole point:
the narrow bounds behind E0, ED, F0 and F4 shut out spellings that are too long, halves of
surrogate pairs and numbers that are too large, none of which is ever written for a character.
All further octets have the same bounds, and each moves the number read so far by six bits.

So the octets of a character bring the machine from between characters to between characters with
that one character read (`foldl_step_utf8EncodeChar`), and a text comes back as it was, whether it
is read leniently (`decodeLossy_encode`) or strictly (`decode?_encode`). Of all characters only the
byte order mark is written with the octets of the byte order mark (`eq_mark_of_utf8EncodeChar`).

Strict reading is also no wider than writing (`decode?_eq_some_iff`). Backwards the machine is
followed from one character to the next: a broken piece stays among the pieces once it is there, so
where there is none each octet that is owed follows within its bounds, and the bounds of the second
octet say that the digits of the number are those that writing would have used.
-/
import Stylesheet.Text.Utf8

set_option autoImplicit false

namespace Stylesheet.Text.Utf8

variable {ps : List (Option Char)}

/-! ## The first octet of a character -/

theorem begin_of_two {k : Nat} (hlo : 2 ≤ k) (hhi : k < 32) :
    Progress.begin (k + 0xC0) ps = ⟨.pending 1 0x80 0xBF k, ps⟩ := by
  have hascii : ¬ k + 0xC0 ≤ 0x7F := by omega
  have hrange : 0xC2 ≤ k + 0xC0 ∧ k + 0xC0 ≤ 0xDF := by omega
  rw [Progress.begin, if_neg hascii, if_pos hrange, Nat.add_sub_cancel]

/-- The first of three octets. What may follow it is all that continues a character, but for
spellings that are too long and for halves of surrogate pairs. -/
theorem begin_of_three (k next : Nat) (hk : k < 16) (hlo : 0x80 ≤ next) (hhi : next ≤ 0xBF)
    (hlong : k = 0 → 0xA0 ≤ next) (hsurrogate : k = 13 → next ≤ 0x9F) :
    ∃ low high, Progress.begin (k + 0xE0) ps = ⟨.pending 2 low high k, ps⟩
      ∧ low ≤ next ∧ next ≤ high := by
  have hascii : ¬ k + 0xE0 ≤ 0x7F := by omega
  have htwo : ¬ (0xC2 ≤ k + 0xE0 ∧ k + 0xE0 ≤ 0xDF) := by omega
  rw [Progress.begin, if_neg hascii, if_neg htwo]
  by_cases hzero : k = 0
  · subst hzero
    exact ⟨0xA0, 0xBF, rfl, hlong rfl, hhi⟩
  by_cases hthirteen : k = 13
  · subst hthirteen
    exact ⟨0x80, 0x9F, rfl, hlo, hsurrogate rfl⟩
  · have he0 : ¬ k + 0xE0 = 0xE0 := by omega
    have hed : ¬ k + 0xE0 = 0xED := by omega
    have hrange : 0xE1 ≤ k + 0xE0 ∧ k + 0xE0 ≤ 0xEF := by omega
    rw [if_neg he0, if_neg hed, if_pos hrange, Nat.add_sub_cancel]
    exact ⟨0x80, 0xBF, rfl, hlo, hhi⟩

/-- The first of four octets. What may follow it is all that continues a character, but for
spellings that are too long and for numbers that are too large. -/
theorem begin_of_four (k next : Nat) (hk : k ≤ 4) (hlo : 0x80 ≤ next) (hhi : next ≤ 0xBF)
    (hlong : k = 0 → 0x90 ≤ next) (hlarge : k = 4 → next ≤ 0x8F) :
    ∃ low high, Progress.begin (k + 0xF0) ps = ⟨.pending 3 low high k, ps⟩
      ∧ low ≤ next ∧ next ≤ high := by
  have hascii : ¬ k + 0xF0 ≤ 0x7F := by omega
  have htwo : ¬ (0xC2 ≤ k + 0xF0 ∧ k + 0xF0 ≤ 0xDF) := by omega
  have he0 : ¬ k + 0xF0 = 0xE0 := by omega
  have hed : ¬ k + 0xF0 = 0xED := by omega
  have hthree : ¬ (0xE1 ≤ k + 0xF0 ∧ k + 0xF0 ≤ 0xEF) := by omega
  rw [Progress.begin, if_neg hascii, if_neg htwo, if_neg he0, if_neg hed, if_neg hthree]
  by_cases hzero : k = 0
  · subst hzero
    exact ⟨0x90, 0xBF, rfl, hlong rfl, hhi⟩
  by_cases hfour : k = 4
  · subst hfour
    exact ⟨0x80, 0x8F, rfl, hlo, hlarge rfl⟩
  · have hf0 : ¬ k + 0xF0 = 0xF0 := by omega
    have hrange : 0xF1 ≤ k + 0xF0 ∧ k + 0xF0 ≤ 0xF3 := by omega
    rw [if_neg hf0, if_pos hrange, Nat.add_sub_cancel]
    exact ⟨0x80, 0xBF, rfl, hlo, hhi⟩

/-! ## The octets behind it -/

theorem step_ready {n : Nat} (hn : n < 256) :
    (Progress.mk .ready ps).step (UInt8.ofNat n) = Progress.begin n ps := by
  rw [Progress.step, UInt8.toNat_ofNat_of_lt' hn]

theorem step_pending {owed low high value k : Nat} (hk : k < 64) (hlo : low ≤ k + 0x80)
    (hhi : k + 0x80 ≤ high) :
    (Progress.mk (.pending (owed + 2) low high value) ps).step (UInt8.ofNat (k + 0x80))
      = ⟨.pending (owed + 1) 0x80 0xBF (value * 64 + k), ps⟩ := by
  have hn : k + 0x80 < 256 := by omega
  have howed : ¬ owed + 2 ≤ 1 := by omega
  rw [Progress.step, UInt8.toNat_ofNat_of_lt' hn]
  simp only [if_pos (And.intro hlo hhi), if_neg howed, Nat.add_sub_cancel]
  rfl

theorem step_pending_last {low high value k : Nat} (hk : k < 64) (hlo : low ≤ k + 0x80)
    (hhi : k + 0x80 ≤ high) :
    (Progress.mk (.pending 1 low high value) ps).step (UInt8.ofNat (k + 0x80))
      = ⟨.ready, some (Char.ofNat (value * 64 + k)) :: ps⟩ := by
  have hn : k + 0x80 < 256 := by omega
  rw [Progress.step, UInt8.toNat_ofNat_of_lt' hn]
  simp only [if_pos (And.intro hlo hhi), Nat.le_refl, if_true, Nat.add_sub_cancel]

/-! ## Characters and texts

What was written for a character is read as that character, whatever was read before, and a text
is read character by character. So the octets of a text are never refused. -/

theorem toNat_valid (c : Char) :
    c.toNat < 0xD800 ∨ 0xDFFF < c.toNat ∧ c.toNat < 0x110000 :=
  c.valid

/-- **The octets of a character** are read as that character. -/
theorem foldl_step_utf8EncodeChar (c : Char) (ps : List (Option Char)) :
    (String.utf8EncodeChar c).foldl Progress.step ⟨.ready, ps⟩ = ⟨.ready, some c :: ps⟩ := by
  have hvalid := toNat_valid c
  have hback : Char.ofNat c.toNat = c := Char.ofNat_toNat c
  generalize hv : c.toNat = v at hvalid hback
  have hval : c.val.toNat = v := hv
  rw [String.utf8EncodeChar]
  simp only [hval]
  by_cases hone : v ≤ 0x7F
  · have hn : v < 256 := by omega
    rw [if_pos hone, List.foldl_cons, List.foldl_nil, step_ready hn, Progress.begin, if_pos hone,
      hback]
  rw [if_neg hone]
  by_cases htwo : v ≤ 0x7FF
  · have hfirst : v / 64 % 32 + 0xC0 < 256 := by omega
    have hsum : v / 64 % 32 * 64 + v % 64 = v := by omega
    rw [if_pos htwo, List.foldl_cons, List.foldl_cons, List.foldl_nil, step_ready hfirst,
      begin_of_two (by omega) (by omega), step_pending_last (by omega) (by omega) (by omega),
      hsum, hback]
  rw [if_neg htwo]
  by_cases hthree : v ≤ 0xFFFF
  · have hfirst : v / 4096 % 16 + 0xE0 < 256 := by omega
    have hsum : (v / 4096 % 16 * 64 + v / 64 % 64) * 64 + v % 64 = v := by omega
    -- the second octet is above A0 behind E0 because the number is not written in two octets
    obtain ⟨low, high, hbegin, hlo, hhi⟩ := begin_of_three (v / 4096 % 16) (v / 64 % 64 + 0x80)
      (by omega) (by omega) (by omega) (by omega) (by omega)
    rw [if_pos hthree, List.foldl_cons, List.foldl_cons, List.foldl_cons, List.foldl_nil,
      step_ready hfirst, hbegin, step_pending (by omega) hlo hhi,
      step_pending_last (by omega) (by omega) (by omega), hsum, hback]
  · have hfirst : v / 262144 % 8 + 0xF0 < 256 := by omega
    have hsum : ((v / 262144 % 8 * 64 + v / 4096 % 64) * 64 + v / 64 % 64) * 64 + v % 64 = v := by
      omega
    obtain ⟨low, high, hbegin, hlo, hhi⟩ := begin_of_four (v / 262144 % 8) (v / 4096 % 64 + 0x80)
      (by omega) (by omega) (by omega) (by omega) (by omega)
    rw [if_neg hthree, List.foldl_cons, List.foldl_cons, List.foldl_cons, List.foldl_cons,
      List.foldl_nil, step_ready hfirst, hbegin, step_pending (by omega) hlo hhi,
      step_pending (by omega) (by omega) (by omega),
      step_pending_last (by omega) (by omega) (by omega), hsum, hback]

/-- The octets of a text are read as its characters, behind those that were read before. -/
theorem foldl_step_encode (cs : List Char) (ps : List (Option Char)) :
    (encode cs).foldl Progress.step ⟨.ready, ps⟩ = ⟨.ready, (cs.map some).reverse ++ ps⟩ := by
  induction cs generalizing ps with
  | nil => rfl
  | cons c cs ih =>
      rw [encode, List.flatMap_cons, List.foldl_append, foldl_step_utf8EncodeChar]
      show (encode cs).foldl Progress.step _ = _
      rw [ih, List.map_cons, List.reverse_cons, List.append_assoc]
      rfl

theorem pieces_encode (cs : List Char) : pieces (encode cs) = cs.map some := by
  rw [pieces, foldl_step_encode, Progress.finish, List.append_nil, List.reverse_reverse]

/-- **Reading undoes writing.** -/
theorem decodeLossy_encode (cs : List Char) : decodeLossy (encode cs) = cs := by
  rw [decodeLossy, pieces_encode, List.map_map]
  exact List.map_id cs

theorem decode?_encode (cs : List Char) : decode? (encode cs) = some cs := by
  have hall : (cs.map some).all Option.isSome = true := by simp
  rw [decode?, pieces_encode]
  simp only [hall, if_true]
  rw [List.filterMap_map]
  simp

theorem toList_toUTF8 (s : String) : s.toUTF8.data.toList = encode s.toList := by
  have h : s.toByteArray = s.toList.utf8Encode := by
    rw [← String.toByteArray_ofList, String.ofList_toList]
  rw [String.toUTF8_eq_toByteArray, h, List.utf8Encode, encode]
  simp

/-! ## The octets of a character, by its digits -/

theorem toNat_ofNat {n : Nat} (h : n.isValidChar) : (Char.ofNat n).val.toNat = n := by
  rw [Char.ofNat, dif_pos h]
  rfl

/-- Two octets, by the digits they are made of. -/
theorem utf8EncodeChar_of_two {k j : Nat} (hlo : 2 ≤ k) (hhi : k < 32) (hj : j < 64) :
    String.utf8EncodeChar (Char.ofNat (k * 64 + j))
      = [UInt8.ofNat (k + 0xC0), UInt8.ofNat (j + 0x80)] := by
  have hv : (Char.ofNat (k * 64 + j)).val.toNat = k * 64 + j := toNat_ofNat (.inl (by omega))
  have hone : ¬ k * 64 + j ≤ 0x7F := by omega
  have htwo : k * 64 + j ≤ 0x7FF := by omega
  have hfirst : (k * 64 + j) / 64 % 32 = k := by omega
  have hsecond : (k * 64 + j) % 64 = j := by omega
  rw [String.utf8EncodeChar]
  simp only [hv, if_neg hone, if_pos htwo, hfirst, hsecond]

/-- Three octets, by the digits they are made of. -/
theorem utf8EncodeChar_of_three {k j i : Nat} (hk : k < 16) (hj : j < 64) (hi : i < 64)
    (hlong : k = 0 → 32 ≤ j) (hsurrogate : k = 13 → j < 32) :
    String.utf8EncodeChar (Char.ofNat ((k * 64 + j) * 64 + i))
      = [UInt8.ofNat (k + 0xE0), UInt8.ofNat (j + 0x80), UInt8.ofNat (i + 0x80)] := by
  have hvalid : ((k * 64 + j) * 64 + i).isValidChar := by
    rcases Nat.lt_or_ge k 13 with h | h
    · exact .inl (by omega)
    · by_cases h13 : k = 13
      · exact .inl (by have := hsurrogate h13; omega)
      · exact .inr ⟨by omega, by omega⟩
  have hv := toNat_ofNat hvalid
  have hone : ¬ (k * 64 + j) * 64 + i ≤ 0x7F := by omega
  have htwo : ¬ (k * 64 + j) * 64 + i ≤ 0x7FF := by omega
  have hthree : (k * 64 + j) * 64 + i ≤ 0xFFFF := by omega
  have hfirst : ((k * 64 + j) * 64 + i) / 4096 % 16 = k := by omega
  have hsecond : ((k * 64 + j) * 64 + i) / 64 % 64 = j := by omega
  have hthird : ((k * 64 + j) * 64 + i) % 64 = i := by omega
  rw [String.utf8EncodeChar]
  simp only [hv, if_neg hone, if_neg htwo, if_pos hthree, hfirst, hsecond, hthird]

/-- Four octets, by the digits they are made of. -/
theorem utf8EncodeChar_of_four {k j i h : Nat} (hk : k ≤ 4) (hj : j < 64) (hi : i < 64)
    (hh : h < 64) (hlong : k = 0 → 16 ≤ j) (hlarge : k = 4 → j < 16) :
    String.utf8EncodeChar (Char.ofNat (((k * 64 + j) * 64 + i) * 64 + h))
      = [UInt8.ofNat (k + 0xF0), UInt8.ofNat (j + 0x80), UInt8.ofNat (i + 0x80),
          UInt8.ofNat (h + 0x80)] := by
  have hv := toNat_ofNat (n := ((k * 64 + j) * 64 + i) * 64 + h) (.inr ⟨by omega, by omega⟩)
  have hone : ¬ ((k * 64 + j) * 64 + i) * 64 + h ≤ 0x7F := by omega
  have htwo : ¬ ((k * 64 + j) * 64 + i) * 64 + h ≤ 0x7FF := by omega
  have hthree : ¬ ((k * 64 + j) * 64 + i) * 64 + h ≤ 0xFFFF := by omega
  have hfirst : (((k * 64 + j) * 64 + i) * 64 + h) / 262144 % 8 = k := by omega
  have hsecond : (((k * 64 + j) * 64 + i) * 64 + h) / 4096 % 64 = j := by omega
  have hthird : (((k * 64 + j) * 64 + i) * 64 + h) / 64 % 64 = i := by omega
  have hfourth : (((k * 64 + j) * 64 + i) * 64 + h) % 64 = h := by omega
  rw [String.utf8EncodeChar]
  simp only [hv, if_neg hone, if_neg htwo, if_neg hthree, hfirst, hsecond, hthird, hfourth]

/-! ## Only what was written is read

A piece that was read never changes, so octets are read without a broken piece exactly if the
machine meets none from its state on. From each state it can be told what the next octet must be,
down to the last that is owed; put together, these octets are those of a character. -/

theorem begin_pieces (b : Nat) (qs : List (Option Char)) :
    Progress.begin b (qs ++ ps)
      = ⟨(Progress.begin b qs).state, (Progress.begin b qs).pieces ++ ps⟩ := by
  simp only [Progress.begin]
  repeat' split
  all_goals rfl

theorem step_pieces (state : State) (octet : UInt8) :
    (Progress.mk state ps).step octet
      = ⟨((Progress.mk state []).step octet).state,
          ((Progress.mk state []).step octet).pieces ++ ps⟩ := by
  cases state with
  | ready => exact begin_pieces octet.toNat []
  | pending owed low high value =>
      simp only [Progress.step]
      split
      · split <;> rfl
      · exact begin_pieces octet.toNat [none]

theorem finish_foldl_step (octets : List UInt8) (state : State) (ps : List (Option Char)) :
    (octets.foldl Progress.step ⟨state, ps⟩).finish
      = ps.reverse ++ (octets.foldl Progress.step ⟨state, []⟩).finish := by
  induction octets generalizing state ps with
  | nil => cases state <;> simp [Progress.finish]
  | cons octet octets ih =>
      rw [List.foldl_cons, List.foldl_cons, step_pieces, ih, ih _ (Progress.pieces _)]
      simp

/-- Whether octets are read from a state on without a broken piece. -/
def ReadsFrom (state : State) (octets : List UInt8) : Prop :=
  none ∉ (octets.foldl Progress.step ⟨state, []⟩).finish

theorem ReadsFrom.step {state : State} {octet : UInt8} {octets : List UInt8}
    (h : ReadsFrom state (octet :: octets)) :
    none ∉ ((Progress.mk state []).step octet).pieces
      ∧ ReadsFrom ((Progress.mk state []).step octet).state octets := by
  rw [ReadsFrom, List.foldl_cons, finish_foldl_step, List.mem_append, List.mem_reverse,
    not_or] at h
  exact h

theorem ReadsFrom.exists_owed {owed low high value : Nat} {octets : List UInt8}
    (h : ReadsFrom (.pending owed low high value) octets) (hlow : 0x80 ≤ low)
    (hhigh : high ≤ 0xBF) :
    ∃ k rest, k < 64 ∧ low ≤ k + 0x80 ∧ k + 0x80 ≤ high
      ∧ octets = UInt8.ofNat (k + 0x80) :: rest := by
  cases octets with
  | nil => simp [ReadsFrom, Progress.finish] at h
  | cons octet rest =>
      by_cases hbound : low ≤ octet.toNat ∧ octet.toNat ≤ high
      · have hback : octet.toNat - 0x80 + 0x80 = octet.toNat := by omega
        refine ⟨octet.toNat - 0x80, rest, by omega, by omega, by omega, ?_⟩
        rw [hback, UInt8.ofNat_toNat]
      · -- the character is broken off, and that is a broken piece
        have hnone := h.step.1
        rw [Progress.step] at hnone
        simp only [if_neg hbound] at hnone
        have hkept := @begin_pieces [none] octet.toNat []
        rw [List.nil_append] at hkept
        rw [hkept] at hnone
        simp at hnone

theorem ReadsFrom.owed_more {owed low high value : Nat} {octets : List UInt8}
    (h : ReadsFrom (.pending (owed + 2) low high value) octets) (hlow : 0x80 ≤ low)
    (hhigh : high ≤ 0xBF) :
    ∃ k rest, k < 64 ∧ low ≤ k + 0x80 ∧ k + 0x80 ≤ high
      ∧ octets = UInt8.ofNat (k + 0x80) :: rest
      ∧ ReadsFrom (.pending (owed + 1) 0x80 0xBF (value * 64 + k)) rest := by
  obtain ⟨k, rest, hk, hlo, hhi, rfl⟩ := h.exists_owed hlow hhigh
  have hrest := h.step.2
  rw [step_pending hk hlo hhi] at hrest
  exact ⟨k, rest, hk, hlo, hhi, rfl, hrest⟩

theorem ReadsFrom.owed_last {low high value : Nat} {octets : List UInt8}
    (h : ReadsFrom (.pending 1 low high value) octets) (hlow : 0x80 ≤ low)
    (hhigh : high ≤ 0xBF) :
    ∃ k rest, k < 64 ∧ low ≤ k + 0x80 ∧ k + 0x80 ≤ high
      ∧ octets = UInt8.ofNat (k + 0x80) :: rest ∧ ReadsFrom .ready rest := by
  obtain ⟨k, rest, hk, hlo, hhi, rfl⟩ := h.exists_owed hlow hhigh
  have hrest := h.step.2
  rw [step_pending_last hk hlo hhi] at hrest
  exact ⟨k, rest, hk, hlo, hhi, rfl, hrest⟩

/-- What the first octet of a character can be, and what is owed behind it. -/
theorem ReadsFrom.first {octet : UInt8} {octets : List UInt8}
    (h : ReadsFrom .ready (octet :: octets)) :
    (octet.toNat ≤ 0x7F ∧ ReadsFrom .ready octets)
      ∨ (∃ k, 2 ≤ k ∧ k < 32 ∧ octet = UInt8.ofNat (k + 0xC0)
        ∧ ReadsFrom (.pending 1 0x80 0xBF k) octets)
      ∨ (∃ k low high, k < 16 ∧ octet = UInt8.ofNat (k + 0xE0) ∧ 0x80 ≤ low ∧ high ≤ 0xBF
        ∧ (k = 0 → low = 0xA0) ∧ (k = 13 → high = 0x9F)
        ∧ ReadsFrom (.pending 2 low high k) octets)
      ∨ ∃ k low high, k ≤ 4 ∧ octet = UInt8.ofNat (k + 0xF0) ∧ 0x80 ≤ low ∧ high ≤ 0xBF
        ∧ (k = 0 → low = 0x90) ∧ (k = 4 → high = 0x8F)
        ∧ ReadsFrom (.pending 3 low high k) octets := by
  have hoctet : ∀ n, octet.toNat = n → octet = UInt8.ofNat n := by
    rintro n rfl
    exact UInt8.ofNat_toNat.symm
  obtain ⟨hpieces, hrest⟩ := h.step
  rw [Progress.step] at hpieces hrest
  simp only [Progress.begin] at hpieces hrest
  split at hrest
  · exact .inl ⟨by assumption, hrest⟩
  split at hrest
  · exact .inr (.inl ⟨octet.toNat - 0xC0, by omega, by omega, hoctet _ (by omega), hrest⟩)
  split at hrest
  · rename_i he0
    exact .inr (.inr (.inl ⟨0, 0xA0, 0xBF, by omega, hoctet _ he0,
      by omega, by omega, fun _ => rfl, by omega, hrest⟩))
  split at hrest
  · rename_i hed
    exact .inr (.inr (.inl ⟨13, 0x80, 0x9F, by omega, hoctet _ hed,
      by omega, by omega, by omega, fun _ => rfl, hrest⟩))
  split at hrest
  · exact .inr (.inr (.inl ⟨octet.toNat - 0xE0, 0x80, 0xBF, by omega, hoctet _ (by omega),
      by omega, by omega, by omega, by omega, hrest⟩))
  split at hrest
  · rename_i hf0
    exact .inr (.inr (.inr ⟨0, 0x90, 0xBF, by omega, hoctet _ hf0,
      by omega, by omega, fun _ => rfl, by omega, hrest⟩))
  split at hrest
  · exact .inr (.inr (.inr ⟨octet.toNat - 0xF0, 0x80, 0xBF, by omega, hoctet _ (by omega),
      by omega, by omega, by omega, by omega, hrest⟩))
  split at hrest
  · rename_i hf4
    exact .inr (.inr (.inr ⟨4, 0x80, 0x8F, by omega, hoctet _ hf4,
      by omega, by omega, by omega, fun _ => rfl, hrest⟩))
  · -- any other octet is a broken piece of its own
    rename_i hone htwo he0 hed hthree hf0 hfour hf4
    simp only [if_neg hone, if_neg htwo, if_neg he0, if_neg hed, if_neg hthree, if_neg hf0,
      if_neg hfour, if_neg hf4] at hpieces
    exact absurd (List.mem_singleton_self none) hpieces

/-- **Octets that are read without a broken piece** are those of a text. -/
theorem ReadsFrom.exists_encode (octets : List UInt8) (h : ReadsFrom .ready octets) :
    ∃ cs, octets = encode cs := by
  have happend : ∀ (c : Char) (written rest : List UInt8), String.utf8EncodeChar c = written →
      (∃ cs, rest = encode cs) → ∃ cs, written ++ rest = encode cs := by
    rintro c written rest rfl ⟨cs, rfl⟩
    exact ⟨c :: cs, List.flatMap_cons.symm⟩
  match octets, h with
  | [], _ => exact ⟨[], rfl⟩
  | octet :: octets, h =>
    rcases h.first with ⟨hascii, hrest⟩ | ⟨k, hlo, hhi, rfl, h1⟩
      | ⟨k, low, high, hk, rfl, hlow, hhigh, hlong, hsurrogate, h2⟩
      | ⟨k, low, high, hk, rfl, hlow, hhigh, hlong, hlarge, h3⟩
    · have hone : String.utf8EncodeChar (Char.ofNat octet.toNat) = [octet] := by
        have hv : (Char.ofNat octet.toNat).val.toNat = octet.toNat :=
          toNat_ofNat (.inl (by omega))
        rw [String.utf8EncodeChar]
        simp only [hv, if_pos hascii, UInt8.ofNat_toNat]
      exact happend _ [octet] _ hone hrest.exists_encode
    · obtain ⟨j, rest, hj, -, -, rfl, hrest⟩ := h1.owed_last (by omega) (by omega)
      exact happend _ [_, _] rest (utf8EncodeChar_of_two hlo hhi hj) hrest.exists_encode
    · -- the narrow bounds of the second octet are those of the numbers with three octets
      obtain ⟨j, rest, hj, hjlo, hjhi, rfl, h1⟩ := h2.owed_more hlow hhigh
      obtain ⟨i, rest, hi, -, -, rfl, hrest⟩ := h1.owed_last (by omega) (by omega)
      exact happend _ [_, _, _] rest
        (utf8EncodeChar_of_three hk hj hi (by omega) (by omega)) hrest.exists_encode
    · obtain ⟨j, rest, hj, hjlo, hjhi, rfl, h2⟩ := h3.owed_more hlow hhigh
      obtain ⟨i, rest, hi, -, -, rfl, h1⟩ := h2.owed_more (by omega) (by omega)
      obtain ⟨l, rest, hl, -, -, rfl, hrest⟩ := h1.owed_last (by omega) (by omega)
      exact happend _ [_, _, _, _] rest
        (utf8EncodeChar_of_four hk hj hi hl (by omega) (by omega)) hrest.exists_encode
termination_by octets.length

/-- **Strict reading accepts exactly what was written.** -/
theorem decode?_eq_some_iff {octets : List UInt8} {cs : List Char} :
    decode? octets = some cs ↔ octets = encode cs := by
  refine ⟨fun h => ?_, fun h => h ▸ decode?_encode cs⟩
  have hreads : ReadsFrom .ready octets := by
    intro hnone
    have hall : ¬ (pieces octets).all Option.isSome = true := by
      intro hall
      exact Bool.false_ne_true (List.all_eq_true.1 hall none hnone)
    rw [decode?] at h
    simp only [if_neg hall] at h
    cases h
  obtain ⟨ds, rfl⟩ := hreads.exists_encode
  rw [decode?_encode] at h
  rw [Option.some.inj h]

/-! ## The byte order mark -/

/-- Only the byte order mark is written with its octets. -/
theorem eq_mark_of_utf8EncodeChar {c : Char} {octets rest : List UInt8}
    (h : String.utf8EncodeChar c ++ octets = 0xEF :: 0xBB :: 0xBF :: rest) : c = '\uFEFF' := by
  have hvalid := toNat_valid c
  have hback : Char.ofNat c.toNat = c := Char.ofNat_toNat c
  generalize hv : c.toNat = v at hvalid hback
  have hval : c.val.toNat = v := hv
  rw [String.utf8EncodeChar] at h
  simp only [hval] at h
  -- the first octet alone says that the character has three
  by_cases hone : v ≤ 0x7F
  · rw [if_pos hone] at h
    have hfirst := congrArg UInt8.toNat (List.cons.inj h).1
    simp at hfirst
    omega
  rw [if_neg hone] at h
  by_cases htwo : v ≤ 0x7FF
  · rw [if_pos htwo] at h
    have hfirst := congrArg UInt8.toNat (List.cons.inj h).1
    simp at hfirst
    omega
  rw [if_neg htwo] at h
  by_cases hthree : v ≤ 0xFFFF
  · rw [if_pos hthree] at h
    simp only [List.cons_append, List.cons.injEq] at h
    obtain ⟨hfirst, hsecond, hthird, -⟩ := h
    have hfirst := congrArg UInt8.toNat hfirst
    have hsecond := congrArg UInt8.toNat hsecond
    have hthird := congrArg UInt8.toNat hthird
    simp at hfirst hsecond hthird
    have hmark : v = 0xFEFF := by omega
    rw [← hback, hmark]
  · rw [if_neg hthree] at h
    have hfirst := congrArg UInt8.toNat (List.cons.inj h).1
    simp at hfirst
    omega

end Stylesheet.Text.Utf8
