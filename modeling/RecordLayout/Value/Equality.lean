import RecordLayout.Value.Basic

/-!
# Equality of values

Values are equal when they are of one kind and have the same content.  Floating-point numbers are
compared by value, so no NaN equals anything; records are compared as maps, so the order of their
keys does not count.

## Main definitions

* `Value.equal`, `Record.equal`: the comparison.
* `Value.within`: whether every field of a record is found in another with an equal value.
-/

namespace RecordLayout

namespace Value

mutual

/-- Equality of values: of one kind and the same content, where numbers are compared by value and
records as maps. -/
def equal : Value → Value → Bool
  | .null, .null => true
  | .bool a, .bool b => a == b
  | .int a, .int b => a == b
  | .float a, .float b => a.equal b
  | .text a, .text b => a == b
  | .record r, .record o => r.length == o.length && within r o
  | _, _ => false

/-- Whether every field of a record is found in another with an equal value. -/
def within : List (Text × Value) → Record → Bool
  | [], _ => true
  | (key, v) :: rest, o =>
    (match Listing.find? o key with
      | some w => v.equal w
      | none => false) && within rest o

end

end Value

namespace Record

/-- Equality of records as maps from keys to values. -/
def equal (r o : Record) : Bool := (Value.record r).equal (.record o)

end Record

end RecordLayout
