/-
Places in a text.

A position is an offset in characters, counted from zero, with its line and column,
counted from one. A location is a pair of positions whose offsets and whose lines are
in order, and carries the proof that they are. Positions come from trees that need not
fit the text, so their numbers may be any integers.
-/

set_option autoImplicit false

namespace Stylesheet

/-- A point in a text. -/
structure Position where
  offset : Int
  line : Int
  column : Int
  deriving DecidableEq, Repr

/-- A stretch of a text. -/
structure Location where
  start : Position
  stop : Position
  offset_le : start.offset ≤ stop.offset
  line_le : start.line ≤ stop.line
  deriving DecidableEq, Repr

/-- Why two positions do not make a location. -/
inductive LocationError where
  | offsetsReversed
  | linesReversed
  deriving DecidableEq, Repr

/-- What is said about it. -/
def LocationError.message : LocationError → String
  | .offsetsReversed => "start offset cannot be greater than end offset"
  | .linesReversed => "start line cannot be greater than end line"

namespace Location

/-- The location between two positions. The offsets are looked at before the lines. -/
def between (start stop : Position) : Except LocationError Location :=
  if h : start.offset ≤ stop.offset then
    if h' : start.line ≤ stop.line then .ok ⟨start, stop, h, h'⟩
    else .error .linesReversed
  else .error .offsetsReversed

/-- The location between two offsets of the first line. -/
def onFirstLine (start stop : Nat) (h : start ≤ stop) : Location :=
  ⟨⟨start, 1, start + 1⟩, ⟨stop, 1, stop + 1⟩, Int.ofNat_le.2 h, Int.le_refl 1⟩

/-- The number of characters in a location. -/
def length (loc : Location) : Int :=
  loc.stop.offset - loc.start.offset

/-- The start and end offsets. -/
def range (loc : Location) : Int × Int :=
  (loc.start.offset, loc.stop.offset)

theorem between_eq_ok {start stop : Position} {loc : Location}
    (h : between start stop = .ok loc) : loc.start = start ∧ loc.stop = stop := by
  unfold between at h
  split at h
  · split at h
    · obtain rfl := Except.ok.inj h
      exact ⟨rfl, rfl⟩
    · cases h
  · cases h

theorem length_nonneg (loc : Location) : 0 ≤ loc.length := by
  have := loc.offset_le
  simp only [length]
  omega

end Location

end Stylesheet
