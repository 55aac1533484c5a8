/-
Double precision numbers as exact values.

A finite number is a sign, a whole mantissa below 2^53 and a power of two, so
rounding, scaling and the choice of digits are arithmetic on natural numbers.
The printed form has the fewest digits that read back as the same number and,
among those, lies nearest to it.
-/

set_option autoImplicit false

namespace Stylesheet

/-- A number of the IEEE 754 format binary64: `mantissa * 2 ^ exponent` up to sign. -/
inductive Binary64 where
  | nan
  | infinite (negative : Bool)
  | finite (negative : Bool) (mantissa : Nat) (exponent : Int)
  deriving DecidableEq, Repr

namespace Binary64

/-! ## Rounding -/

/-- The whole number nearest to a quotient; of two the even one. -/
def roundDiv (num den : Nat) : Nat :=
  let q := num / den
  let r := num % den
  if 2 * r < den then q else if den < 2 * r then q + 1 else q + q % 2

/-- Two to a power, or one if the power is negative. -/
def twoTo (power : Int) : Nat := Nat.pow 2 power.toNat

/-- Ten to a power, or one if the power is negative. -/
def tenTo (power : Int) : Nat := Nat.pow 10 power.toNat

/-- The least power of two that a mantissa is multiplied with. -/
def minExponent : Int := -1074

/-- The greatest one. -/
def maxExponent : Int := 971

/-- The double nearest to a quotient of natural numbers; of two the one with the
even mantissa. -/
def ofRatio (negative : Bool) (num den : Nat) : Binary64 :=
  if num = 0 then .finite negative 0 minExponent
  else
    let level : Int := (num.log2 : Int) - den.log2
    let reaches := den * twoTo level ≤ num * twoTo (-level)
    let exponent := max (if reaches then level - 52 else level - 53) minExponent
    let m := roundDiv (num * twoTo (-exponent)) (den * twoTo exponent)
    let (m, exponent) := if m = twoTo 53 then (twoTo 52, exponent + 1) else (m, exponent)
    if exponent > maxExponent then .infinite negative else .finite negative m exponent

/-- The double nearest to `digits * 10 ^ power`. A number of so many digits that
no double reaches it is infinite, and one that no double comes near is zero. -/
def ofDecimal (negative : Bool) (digits : Nat) (power : Int) : Binary64 :=
  let size : Int := (Nat.toDigits 10 digits).length + power
  if digits = 0 then .finite negative 0 minExponent
  else if size > 310 then .infinite negative
  else if size < -330 then .finite negative 0 minExponent
  else ofRatio negative (digits * tenTo power) (tenTo (-power))

/-! ## Arithmetic and order -/

/-- The double nearest to a whole multiple of the number. -/
def scale (k : Nat) : Binary64 → Binary64
  | .finite negative m e => ofRatio negative (m * k * twoTo e) (twoTo (-e))
  | x => if k = 0 then .nan else x

/-- The whole number that a double is, if it is one. -/
def toInt? : Binary64 → Option Int
  | .finite negative m e =>
    let den := twoTo (-e)
    let num := m * twoTo e
    if num % den = 0 then
      some (if negative then -((num / den : Nat) : Int) else ((num / den : Nat) : Int))
    else none
  | _ => none

/-- A finite double as a quotient of whole numbers. -/
def ratio? : Binary64 → Option (Int × Nat)
  | .finite negative m e =>
    let num : Int := (m * twoTo e : Nat)
    some (if negative then -num else num, twoTo (-e))
  | _ => none

/-- Whether the first number is less than the second; nothing is less than NaN, and NaN
is less than nothing. -/
def lt (x y : Binary64) : Bool :=
  match x, y with
  | .nan, _ => false
  | _, .nan => false
  | .infinite negative, .infinite other => negative && !other
  | .infinite negative, _ => negative
  | _, .infinite other => !other
  | x, y =>
    match x.ratio?, y.ratio? with
    | some (a, b), some (c, d) => a * d < c * b
    | _, _ => false

/-! ## Fewest digits -/

/-- The decimal place of the first digit of `num / den`: the number lies from
`10 ^ (place - 1)` up to `10 ^ place`. -/
def place (num den : Nat) : Int :=
  if den ≤ num then (Nat.toDigits 10 (num / den)).length
  else
    let zeros := ((List.range 340).find? fun k => den ≤ num * Nat.pow 10 (k + 1)).getD 340
    Int.negOfNat zeros

/-- Of the decimals with so many digits the one nearest to the number, if it reads
back as the number: `(digits, power)` stands for `digits * 10 ^ power`. -/
def withDigits (m : Nat) (e : Int) (count : Nat) : Option (Nat × Int) :=
  let below := if m = twoTo 52 ∧ minExponent < e then 1 else 2
  let unit := e - 2
  let den := twoTo (-unit)
  let num := fun quarters : Nat => quarters * twoTo unit
  let power := place (num (4 * m)) den - count
  let up := tenTo power
  let down := tenTo (-power)
  let inside := fun d : Nat =>
    let at_ := d * up * den
    let low := num (4 * m - below) * down
    let high := num (4 * m + 2) * down
    if m % 2 = 0 then decide (low ≤ at_ ∧ at_ ≤ high) else decide (low < at_ ∧ at_ < high)
  let exact := num (4 * m) * down
  let floor := exact / (up * den)
  let gap := exact - floor * (up * den)
  match inside floor, inside (floor + 1) with
  | true, false => some (floor, power)
  | false, true => some (floor + 1, power)
  | true, true =>
    if 2 * gap < up * den then some (floor, power)
    else if up * den < 2 * gap then some (floor + 1, power)
    else some (floor + floor % 2, power)
  | false, false => none

/-- The fewest digits that read back as `m * 2 ^ e`. Seventeen always do. -/
def shortest (m : Nat) (e : Int) : Nat × Int :=
  ((List.range 17).findSome? fun n => withDigits m e (n + 1)).getD (0, 0)

/-! ## The printed form -/

/-- Digits without the zeros at their end. -/
def dropTrailingZeros (ds : List Char) : List Char :=
  (ds.reverse.dropWhile (· == '0')).reverse

/-- The text of digits whose decimal point stands after the first `point` of them:
positional from 10^-4 up to 10^16, with an exponent of at least two digits elsewhere. -/
def layout (ds : List Char) (point : Int) : List Char :=
  if -4 < point ∧ point ≤ 16 then
    if point ≤ 0 then '0' :: '.' :: (List.replicate (-point).toNat '0' ++ ds)
    else
      let n := point.toNat
      let whole := ds.take n ++ List.replicate (n - ds.length) '0'
      let rest := ds.drop n
      whole ++ '.' :: (if rest.isEmpty then ['0'] else rest)
  else
    let power := point - 1
    let size := Nat.toDigits 10 power.natAbs
    let size := if size.length < 2 then '0' :: size else size
    let rest := ds.drop 1
    ds.take 1 ++ (if rest.isEmpty then [] else '.' :: rest)
      ++ 'e' :: (if power < 0 then '-' else '+') :: size

/-- The printed form of a double. -/
def toText : Binary64 → String
  | .nan => "nan"
  | .infinite negative => if negative then "-inf" else "inf"
  | .finite negative m e =>
    let body :=
      if m = 0 then ['0', '.', '0']
      else
        let (digits, power) := shortest m e
        let ds := Nat.toDigits 10 digits
        layout (dropTrailingZeros ds) (ds.length + power)
    String.ofList (if negative then '-' :: body else body)

end Binary64

/-! ## Whole numbers and doubles together -/

/-- A number as documents write it: whole, or with a fraction or an exponent. -/
inductive Number where
  | whole (n : Int)
  | double (x : Binary64)
  deriving DecidableEq, Repr

namespace Number

/-- A thousand times the number. -/
def thousandfold : Number → Number
  | .whole n => .whole (n * 1000)
  | .double x => .double (x.scale 1000)

/-- Whether the number is greater than a double. -/
def exceeds (x : Number) (bound : Binary64) : Bool :=
  match x with
  | .double x => bound.lt x
  | .whole n =>
    match bound with
    | .nan => false
    | .infinite negative => negative
    | bound =>
      match bound.ratio? with
      | some (num, den) => num < n * den
      | none => false

end Number

end Stylesheet
