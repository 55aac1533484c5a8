/-
Slices of a list with bounds that may be any integers.

Every excerpt in this library is cut the same way, whether it is cut from the
octets of a file or from the characters of a text: a negative bound counts from
the end, a bound past either end is clamped to it, and a slice whose start is not
before its stop is empty. Locations read from a damaged tree need not fit the
text, so the bounds are integers and the cut is total.
-/

set_option autoImplicit false

namespace Stylesheet

variable {α : Type}

/-! ## Bounds -/

/-- The place in a list of the given length that a bound stands for. -/
def sliceBound (length : Nat) (bound : Int) : Nat :=
  if bound < 0 then (bound + length).toNat else min bound.toNat length

theorem sliceBound_ofNat {length n : Nat} (h : n ≤ length) : sliceBound length n = n := by
  unfold sliceBound
  split <;> omega

/-! ## The cut -/

/-- The members of a list from the start bound up to, not including, the stop bound. -/
def slice (xs : List α) (start stop : Int) : List α :=
  (xs.take (sliceBound xs.length stop)).drop (sliceBound xs.length start)

/-- The member of a list at a place, where a negative place counts from the end. -/
def memberAt? (xs : List α) (place : Int) : Option α :=
  if 0 ≤ place then xs[place.toNat]?
  else if 0 ≤ place + xs.length then xs[(place + xs.length).toNat]?
  else none

/-- Between two bounds inside the list the cut is a plain `drop` after a plain `take`. -/
theorem slice_ofNat (xs : List α) {a b : Nat} (ha : a ≤ xs.length) (hb : b ≤ xs.length) :
    slice xs a b = (xs.take b).drop a := by
  simp [slice, sliceBound_ofNat ha, sliceBound_ofNat hb]

end Stylesheet
