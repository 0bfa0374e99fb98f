import RecordLayout.Number.Power

/-!
# Binary floating-point numbers

A number of the 64-bit binary interchange format is kept as its bits.  Every finite magnitude is a
whole number of *units*, the unit being the least positive magnitude `2 ^ (-1074)`; so values are
compared, rounded and written by arithmetic on natural numbers.

## Main definitions

* `Binary64`: the bits, a sign, an exponent field of 11 bits and a fraction of 52 bits.
* `Binary64.decode`: a sign with not a number, an infinity, or a magnitude in units.
* `Binary64.equal`: equality of values, where zeros are equal and no NaN equals anything.
* `Binary64.ofRatio?`: the finite number nearest to a ratio, a tie going to the even fraction,
  unless the ratio is too small to be kept.
-/

namespace RecordLayout

/-- A 64-bit binary floating-point number, given by its bits. -/
structure Binary64 where
  /-- Sign, exponent field and fraction, from the highest bit down. -/
  bits : UInt64
  deriving DecidableEq, Repr, Inhabited

namespace Binary64

/-- What a number is. -/
inductive Reading
  /-- Not a number, with its sign. -/
  | nan (negative : Bool)
  /-- An infinity, with its sign. -/
  | infinite (negative : Bool)
  /-- A sign and a magnitude in units of `2 ^ (-1074)`. -/
  | finite (negative : Bool) (units : Nat)
  deriving DecidableEq, Repr

/-- The sign bit. -/
def isNegative (x : Binary64) : Bool := 2 ^ 63 ≤ x.bits.toNat

/-- The exponent field. -/
def exponentField (x : Binary64) : Nat := x.bits.toNat / 2 ^ 52 % 2 ^ 11

/-- The fraction field. -/
def fraction (x : Binary64) : Nat := x.bits.toNat % 2 ^ 52

/-- What the bits say: a full exponent field marks infinities and NaNs, an empty one the numbers
without a leading bit. -/
def decode (x : Binary64) : Reading :=
  if x.exponentField = 2047 then
    if x.fraction = 0 then .infinite x.isNegative else .nan x.isNegative
  else if x.exponentField = 0 then .finite x.isNegative x.fraction
  else .finite x.isNegative ((2 ^ 52 + x.fraction) * 2 ^ (x.exponentField - 1))

/-- The bits of a sign over those of a magnitude. -/
def withSign (negative : Bool) (magnitude : Nat) : Binary64 :=
  ⟨UInt64.ofNat ((if negative then 2 ^ 63 else 0) + magnitude)⟩

/-- Positive zero. -/
def zero : Binary64 := ⟨0⟩

/-- The infinity of a sign. -/
def infinity (negative : Bool) : Binary64 := withSign negative (2047 * 2 ^ 52)

/-- A NaN of a sign. -/
def nan (negative : Bool) : Binary64 := withSign negative (2047 * 2 ^ 52 + 2 ^ 51)

/-- Whether a number is not a number. -/
def isNaN (x : Binary64) : Bool :=
  match x.decode with
  | .nan _ => true
  | _ => false

/-- Equality of values: a NaN equals nothing, and the two zeros are equal. -/
def equal (x y : Binary64) : Bool :=
  match x.decode, y.decode with
  | .infinite s, .infinite t => s == t
  | .finite s m, .finite t n => m == n && (s == t || m == 0)
  | _, _ => false

theorem equal_comm (x y : Binary64) : x.equal y = y.equal x := by
  unfold equal
  cases x.decode <;> cases y.decode <;> grind

theorem equal_self (x : Binary64) : x.equal x = !x.isNaN := by
  unfold equal isNaN
  cases x.decode <;> simp

theorem equal_trans {x y z : Binary64} (h : x.equal y = true) (k : y.equal z = true) :
    x.equal z = true := by
  unfold equal at *
  cases hx : x.decode <;> cases hy : y.decode <;> cases hz : z.decode <;> grind

/-- A NaN equals nothing. -/
theorem equal_of_isNaN {y : Binary64} (h : y.isNaN = true) (x : Binary64) : x.equal y = false := by
  cases hxy : x.equal y with
  | false => rfl
  | true =>
    have hself := equal_trans (equal_comm x y ▸ hxy) hxy
    rw [equal_self, h] at hself
    exact absurd hself (by simp)

/-! ### Rounding -/

/-- The quotient `num / den` to the nearest natural number, a tie to the even one. -/
def divNearest (num den : Nat) : Nat :=
  let q := num / den
  let r := num % den
  if 2 * r < den then q
  else if den < 2 * r then q + 1
  else q + q % 2

theorem divNearest_of_dvd {num den : Nat} (h : num % den = 0) (hden : 0 < den) :
    divNearest num den = num / den := by
  simp [divNearest, h, hden]

/-- The distance in units between neighbouring magnitudes from `units` upwards. -/
def spacing (units : Nat) : Nat := 2 ^ (units.log2 - 52)

/-- The magnitude in units nearest to `num / den` units, a tie to the even fraction, with no limit
upwards. -/
def roundUnits (num den : Nat) : Nat :=
  let step := spacing (num / den)
  divNearest num (den * step) * step

/-- The magnitudes from here on, in units, are infinite. -/
def unitsLimit : Nat := 2 ^ (1024 + 1074)

/-- The bits of a finite magnitude. -/
def magnitudeBits (units : Nat) : Nat :=
  if units < 2 ^ 52 then units
  else (units.log2 - 51) * 2 ^ 52 + (units / spacing units - 2 ^ 52)

/-- The number with a sign and a magnitude in units that the format holds. -/
def ofUnits (negative : Bool) (units : Nat) : Binary64 := withSign negative (magnitudeBits units)

/-- Whether a magnitude of `num / den` units counts as a whole number of units: it is one, or all
that is missing is the bit right after the 53 of full precision, at most `places` binary places
below a unit. -/
def isWhole (places num den : Nat) : Bool :=
  let units := num / den
  let place := 53 - units.log2
  num % den == 0 || (units != 0 && place ≤ places && num % den * 2 ^ place == den)

/-- Whether a positive magnitude of `num / den` units is lost on rounding: below the least normal
magnitude even when rounded to full precision, and not counted as a whole number of units. -/
def underflows (places num den : Nat) : Bool :=
  !isWhole places num den && 4 * num < (2 ^ 54 - 1) * den

/-- The number nearest to a sign and a magnitude of `num / den` units; none if that is infinite or
if the magnitude is lost, where `places` binary places below a unit are looked at. -/
def ofRatio? (negative : Bool) (places num den : Nat) : Option Binary64 :=
  let units := roundUnits num den
  if unitsLimit ≤ units || underflows places num den then none else some (ofUnits negative units)

theorem isWhole_of_dvd (places : Nat) {num den : Nat} (h : num % den = 0) :
    isWhole places num den = true := by
  simp [isWhole, h]

end Binary64

end RecordLayout
