import RecordLayout.Number.Binary64
import RecordLayout.Number.Integer

/-!
# Reading binary numbers

The numerals of binary numbers: an optional sign, then a decimal numeral with an optional power of
ten, a hexadecimal one with an optional power of two, an infinity or a NaN.  Letters count in
either case.  White space may come first, and the rest of the text has to be the numeral.

A numeral is refused when its nearest number is infinite, or when it is below the normal range and
not held exactly.  Only one bit more than full precision is let go there, if nothing follows it: in
a hexadecimal numeral always, in a decimal one if it is among the first 1076 binary places.

## Main definitions

* `Text.Mantissa`: the digits of a numeral around its point.
* `Text.toDecimalNumber?`, `Text.toHexNumber?`, `Text.toNamedNumber?`: the kinds of numerals
  without a sign.
* `Text.toBinary64?`: the reader of a whole text.
-/

namespace RecordLayout

namespace Text

/-- A hexadecimal digit. -/
def isHexDigit (b : UInt8) : Bool :=
  isDigit b || (0x61 ≤ b && b ≤ 0x66) || (0x41 ≤ b && b ≤ 0x46)

/-- White space that may come before a numeral: a space, or one of the five control characters from
tab to carriage return. -/
def isNumeralSpace (b : UInt8) : Bool := b == 0x20 || (0x09 ≤ b && b ≤ 0x0D)

/-- The digits before and after the point of a numeral. -/
structure Mantissa where
  /-- All digits in order. -/
  digits : Text
  /-- How many of them come after the point. -/
  places : Nat
  /-- What follows the digits. -/
  rest : Text

/-- The digits at the start of a text, with a point before, between or after them. -/
def Mantissa.read (isDigitOf : UInt8 → Bool) (t : Text) : Mantissa :=
  let whole := t.takeWhile isDigitOf
  match t.dropWhile isDigitOf with
  | 0x2E :: t' =>
    let part := t'.takeWhile isDigitOf
    ⟨whole ++ part, part.length, t'.dropWhile isDigitOf⟩
  | rest => ⟨whole, 0, rest⟩

/-- A sign at the start of a text: whether it is a minus, and what follows. -/
def readSign : Text → Bool × Text
  | 0x2D :: t => (true, t)
  | 0x2B :: t => (false, t)
  | t => (false, t)

/-- The exponent that the rest of a numeral consists of: nothing, or the letter `mark` in either
case, an optional sign and decimal digits. -/
def readExponent (mark : UInt8) : Text → Option Int
  | [] => some 0
  | b :: t =>
    if lowerByte b = mark then
      let (negative, digits) := readSign t
      (toNat? digits).map fun n => if negative then -(n : Int) else n
    else none

/-- How many binary places below a unit of `2 ^ (-1074)` a decimal numeral is looked at. -/
def decimalPlaces : Nat := 2

/-- How many binary places below a unit of `2 ^ (-1074)` a hexadecimal numeral is looked at. -/
def hexPlaces : Nat := 53

/-- The number of a sign and decimal digits times `10 ^ exponent`.  A magnitude that is plainly out
of range is refused before any power is taken. -/
def ofDecimal (negative : Bool) (digits : Text) (exponent : Int) : Option Binary64 :=
  let digits := significant digits
  let size : Int := digits.length + exponent
  let coefficient := value 10 digits
  if digits.isEmpty then some (Binary64.ofUnits negative 0)
  else if size < -400 ∨ 400 < size then none
  else if 0 ≤ exponent then
    Binary64.ofRatio? negative decimalPlaces (coefficient * 10 ^ exponent.toNat * 2 ^ 1074) 1
  else Binary64.ofRatio? negative decimalPlaces (coefficient * 2 ^ 1074) (10 ^ (-exponent).toNat)

/-- The number of a sign and a magnitude `coefficient * 2 ^ exponent`. -/
def ofBinary (negative : Bool) (coefficient : Nat) (exponent : Int) : Option Binary64 :=
  let size : Int := coefficient.log2 + exponent
  if coefficient = 0 then some (Binary64.ofUnits negative 0)
  else if size < -1200 ∨ 1200 < size then none
  else if 0 ≤ exponent + 1074 then
    Binary64.ofRatio? negative hexPlaces (coefficient * 2 ^ (exponent + 1074).toNat) 1
  else Binary64.ofRatio? negative hexPlaces coefficient (2 ^ (-(exponent + 1074)).toNat)

/-- The number of a decimal numeral. -/
def toDecimalNumber? (negative : Bool) (t : Text) : Option Binary64 :=
  let m := Mantissa.read isDigit t
  if m.digits.isEmpty then none
  else (readExponent 0x65 m.rest).bind fun e =>
    ofDecimal negative m.digits (e - m.places)

/-- The number of a hexadecimal numeral, without the `0x` in front. -/
def toHexNumber? (negative : Bool) (t : Text) : Option Binary64 :=
  let m := Mantissa.read isHexDigit t
  if m.digits.isEmpty then none
  else (readExponent 0x70 m.rest).bind fun e =>
    ofBinary negative (value 16 m.digits) (e - 4 * m.places)

/-- Whether a text in lower case names a NaN: the word, alone or with letters, digits and
underscores in parentheses after it. -/
def isNaNName (t : Text) : Bool :=
  match ofString "nan" |>.isPrefixOf? t with
  | some [] => true
  | some (0x28 :: tag) => tag.getLast? == some 0x29 && tag.dropLast.all isWord
  | _ => false

/-- The number that a name stands for. -/
def toNamedNumber? (negative : Bool) (t : Text) : Option Binary64 :=
  let name := lowercase t
  if name = "inf" ∨ name = "infinity" then some (Binary64.infinity negative)
  else if isNaNName name then some (Binary64.nan negative)
  else none

/-- The number that a text stands for. -/
def toBinary64? (t : Text) : Option Binary64 :=
  let (negative, body) := readSign (t.dropWhile isNumeralSpace)
  match body with
  | 0x30 :: 0x78 :: hex | 0x30 :: 0x58 :: hex => toHexNumber? negative hex
  | body => (toNamedNumber? negative body).or (toDecimalNumber? negative body)

end Text

end RecordLayout
