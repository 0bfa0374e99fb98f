import RecordLayout.Number.Shortest

/-!
# Decimal numerals of binary numbers

A number is written in one of two ways: with its shortest digits, in plain or scientific form as
its size asks for, or with a given number of places after the point.

## Main definitions

* `Decimal.plain`, `Decimal.scientific`: the two forms of a decimal.
* `Binary64.general`: the shortest digits in the form that the size asks for.
* `Binary64.fixed`: a number of places after the point, rounded, a tie to the even digit.
-/

namespace RecordLayout

/-- A run of zeros. -/
def Text.zeros (n : Nat) : Text := List.replicate n 0x30

namespace Decimal

/-- The power of ten that the first digit counts. -/
def leading (d : Decimal) : Int := d.exponent + (Text.ofNat d.coefficient).length - 1

/-- The plain form: digits, with a point before those that count fractions. -/
def plain (d : Decimal) : Text :=
  let digits := Text.ofNat d.coefficient
  if 0 ≤ d.exponent then digits ++ Text.zeros d.exponent.toNat
  else if 0 ≤ d.leading then
    let whole := d.leading.toNat + 1
    digits.take whole ++ "." ++ digits.drop whole
  else "0." ++ Text.zeros (-d.leading - 1).toNat ++ digits

/-- The scientific form: a point after the first of several digits, then the power of ten with its
sign and at least two digits. -/
def scientific (d : Decimal) : Text :=
  let digits := Text.ofNat d.coefficient
  let mantissa := if digits.length = 1 then digits else digits.take 1 ++ "." ++ digits.drop 1
  let power := Text.ofNat d.leading.natAbs
  let sign : Text := if d.leading < 0 then "-" else "+"
  mantissa ++ "e" ++ sign ++ (if power.length < 2 then "0" ++ power else power)

/-- The plain form from a ten-thousandth up to sixteen digits before the point, the scientific form
elsewhere. -/
def general (d : Decimal) : Text :=
  if -4 ≤ d.leading ∧ d.leading < 16 then d.plain else d.scientific

end Decimal

namespace Binary64

/-- A minus sign in front of a negative numeral. -/
def signed (negative : Bool) (numeral : Text) : Text :=
  if negative then "-" ++ numeral else numeral

/-- The numeral of a number with its shortest digits. -/
def general (x : Binary64) : Text :=
  match x.decode with
  | .nan negative => signed negative "nan"
  | .infinite negative => signed negative "inf"
  | .finite negative 0 => signed negative "0"
  | .finite negative units => signed negative (shortest units).general

/-- The numeral with `places` digits after the point, and no point if there are none.  A whole
number of units has no more than 1074 of them before there are only zeros. -/
def fixedUnits (units places : Nat) : Text :=
  let shown := min places 1074
  let scaled := divNearest (units * 10 ^ shown) (2 ^ 1074)
  let whole := Text.ofNat (scaled / 10 ^ shown)
  let part := Text.ofNat (scaled % 10 ^ shown)
  if places = 0 then whole
  else whole ++ "." ++ Text.zeros (shown - part.length) ++ part ++ Text.zeros (places - shown)

/-- The numeral of a number with `places` digits after the point. -/
def fixed (x : Binary64) (places : Nat) : Text :=
  match x.decode with
  | .nan negative => signed negative "nan"
  | .infinite negative => signed negative "inf"
  | .finite negative units => signed negative (fixedUnits units places)

end Binary64

end RecordLayout
