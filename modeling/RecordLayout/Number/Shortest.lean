import RecordLayout.Number.Binary64
import RecordLayout.Text.Basic

/-!
# The shortest decimal that reads back

Among the decimals that round to a given binary number, the ones with the fewest digits are taken,
of these the one nearest to the number, and of two equally near ones the one with an even last
digit.  Seventeen digits always suffice.

## Main definitions

* `Decimal`: a coefficient and a power of ten.
* `Decimal.readsBack`: whether a decimal rounds to a magnitude.
* `Binary64.shortest`: the decimal chosen for a magnitude.
-/

namespace RecordLayout

/-- The decimal `coefficient * 10 ^ exponent`. -/
structure Decimal where
  /-- The digits, read as a number. -/
  coefficient : Nat
  /-- The power of ten that the last digit counts. -/
  exponent : Int
  deriving DecidableEq, Repr, Inhabited

namespace Decimal

/-- A decimal as a ratio of units of `2 ^ (-1074)`: numerator and denominator. -/
def unitRatio (d : Decimal) : Nat × Nat :=
  if 0 ≤ d.exponent then (d.coefficient * 10 ^ d.exponent.toNat * 2 ^ 1074, 1)
  else (d.coefficient * 2 ^ 1074, 10 ^ (-d.exponent).toNat)

/-- Whether a decimal rounds to the magnitude of `units` units. -/
def readsBack (d : Decimal) (units : Nat) : Bool :=
  Binary64.roundUnits d.unitRatio.1 d.unitRatio.2 == units

/-- The decimal with the trailing zeros of its coefficient moved to the exponent. -/
def normal (d : Decimal) : Decimal :=
  if h : d.coefficient % 10 = 0 ∧ d.coefficient ≠ 0 then
    normal ⟨d.coefficient / 10, d.exponent + 1⟩
  else d
termination_by d.coefficient
decreasing_by omega

end Decimal

namespace Binary64

/-- The magnitude of `units` units as a multiple of `10 ^ exponent`: numerator and denominator. -/
def gridRatio (units : Nat) (exponent : Int) : Nat × Nat :=
  if 0 ≤ exponent then (units, 2 ^ 1074 * 10 ^ exponent.toNat)
  else (units * 10 ^ (-exponent).toNat, 2 ^ 1074)

/-- The power of ten that the first digit of a positive magnitude counts. -/
def leadingExponent (units : Nat) : Int :=
  if 2 ^ 1074 ≤ units then (Text.ofNat (units / 2 ^ 1074)).length - 1
  else -(((List.range 324).find? fun k => 2 ^ 1074 ≤ units * 10 ^ k).getD 324 : Nat)

/-- The decimals next to a magnitude on the grid of `exponent`, the nearer one first; a tie goes to
the even coefficient. -/
def neighbours (units : Nat) (exponent : Int) : List Decimal :=
  let (num, den) := gridRatio units exponent
  let low := num / den
  if 2 * (num % den) < den || (2 * (num % den) == den && low % 2 == 0) then
    [⟨low, exponent⟩, ⟨low + 1, exponent⟩]
  else [⟨low + 1, exponent⟩, ⟨low, exponent⟩]

/-- The shortest decimal that reads back as a positive magnitude. -/
def shortest (units : Nat) : Decimal :=
  let leading := leadingExponent units
  let onGrid (k : Nat) : Option Decimal :=
    (neighbours units (leading - k)).find? (·.readsBack units)
  (((List.range 17).findSome? onGrid).getD ⟨0, 0⟩).normal

end Binary64

end RecordLayout
