import RecordLayout.Listing
import RecordLayout.Number.Binary64

/-!
# Values and records

A value is nothing, a truth value, an integer, a floating-point number, a text or a record.  A
record is a list of keys with values, in the order in which the keys were first set.

## Main definitions

* `Value`, `Record`.
* `Value.Kind`: the kind of a value.
* `Value.bool?`, `Value.int?`, `Value.float?`, `Value.text?`, `Value.record?`: the content of a
  value of a kind, if it has that kind.
* `Value.expectBool`, …: the same, with a fault for any other kind.
* `Record.find?`, `Record.set`, `Record.get`: the values of a record by key.
-/

namespace RecordLayout

/-- A dynamic value. -/
inductive Value
  /-- Nothing: a value that is missing. -/
  | null
  /-- A truth value. -/
  | bool (b : Bool)
  /-- A 64-bit integer. -/
  | int (i : Int64)
  /-- A 64-bit floating-point number. -/
  | float (x : Binary64)
  /-- A text. -/
  | text (t : Text)
  /-- Keys with values, each key once. -/
  | record (fields : List (Text × Value))
  deriving Inhabited

/-- Keys with values, in the order in which the keys were first set. -/
abbrev Record := Listing Value

/-- The kinds of values. -/
inductive Value.Kind
  | null
  | bool
  | int
  | float
  | text
  | record
  deriving DecidableEq, Repr

/-- What messages call a value of a kind. -/
def Value.Kind.label : Value.Kind → Text
  | .null => "nothing"
  | .bool => "a bool"
  | .int => "an int64"
  | .float => "a double"
  | .text => "a string"
  | .record => "a record"

/-- A use of a value or record that it does not allow. -/
inductive Fault
  /-- A value is not of the kind asked for. -/
  | wrongKind (wanted : Value.Kind)
  /-- A record has no value for a key. -/
  | missingKey (key : Text)
  /-- A number is to be written with more digits after the point than can be counted. -/
  | tooManyPlaces (places : Nat)
  deriving DecidableEq, Repr

/-- The text of a fault. -/
def Fault.message : Fault → Text
  | .wrongKind wanted => "Value is not " ++ wanted.label
  | .missingKey key => "Record has no key: " ++ key
  | .tooManyPlaces _ => "number is too big"

namespace Value

/-- The kind of a value. -/
def kind : Value → Kind
  | .null => .null
  | .bool _ => .bool
  | .int _ => .int
  | .float _ => .float
  | .text _ => .text
  | .record _ => .record

/-- Whether a value is nothing. -/
def isNull (v : Value) : Bool := v.kind = .null

/-- The truth value that a value is. -/
def bool? : Value → Option Bool
  | .bool b => some b
  | _ => none

/-- The integer that a value is. -/
def int? : Value → Option Int64
  | .int i => some i
  | _ => none

/-- The floating-point number that a value is. -/
def float? : Value → Option Binary64
  | .float x => some x
  | _ => none

/-- The text that a value is. -/
def text? : Value → Option Text
  | .text t => some t
  | _ => none

/-- The record that a value is. -/
def record? : Value → Option Record
  | .record r => some r
  | _ => none

/-- The content that was asked for, or the fault of a wrong kind. -/
def demand {α : Type} (wanted : Kind) : Option α → Except Fault α
  | some a => .ok a
  | none => .error (.wrongKind wanted)

/-- The truth value that a value has to be. -/
def expectBool (v : Value) : Except Fault Bool := demand .bool v.bool?

/-- The integer that a value has to be. -/
def expectInt (v : Value) : Except Fault Int64 := demand .int v.int?

/-- The floating-point number that a value has to be. -/
def expectFloat (v : Value) : Except Fault Binary64 := demand .float v.float?

/-- The text that a value has to be. -/
def expectText (v : Value) : Except Fault Text := demand .text v.text?

/-- The record that a value has to be. -/
def expectRecord (v : Value) : Except Fault Record := demand .record v.record?

end Value

namespace Record

/-- The value of a key. -/
def find? (r : Record) (key : Text) : Option Value := Listing.find? r key

/-- The record in which a key has a value; a key that was there keeps its place. -/
def set (r : Record) (key : Text) (value : Value) : Record := Listing.set r key value

/-- The keys in order. -/
def keys (r : Record) : List Text := Listing.names r

/-- Whether a record has a key. -/
def contains (r : Record) (key : Text) : Bool := (r.find? key).isSome

/-- The value that a record has to have for a key. -/
def get (r : Record) (key : Text) : Except Fault Value :=
  match r.find? key with
  | some v => .ok v
  | none => .error (.missingKey key)

/-- The record that pairs build up, set one after the other. -/
def ofList (pairs : List (Text × Value)) : Record := pairs.foldl (fun r e => r.set e.1 e.2) []

end Record

end RecordLayout
