import RecordLayout.Column.Basic
import RecordLayout.Text.Padding

/-!
# Writing a slot

The text of a value is moved to one side of the slot and the rest is filled with padding.  A text
that is too wide is cut where the column says so, and refused otherwise.

## Main definitions

* `Column.numeral`, `Column.textFor`: the text of a number, and of any value.
* `Column.fit`: a text fitted into a width.
* `Column.format`: the slot for a value.
-/

namespace RecordLayout

namespace Column

/-- The greatest number of digits after the point: a signed 32-bit word counts them. -/
def maxPlaces : Nat := 2 ^ 31 - 1

/-- The numeral of a number, with as many digits after the point as the column says. -/
def numeral (c : Column) (x : Binary64) : Except Error Text :=
  match c.precision with
  | some places =>
    if places ≤ maxPlaces then .ok (x.fixed places) else .error (.fault (.tooManyPlaces places))
  | none => .ok x.general

/-- The text of a value, before it is fitted into the slot. -/
def textFor (c : Column) : Value → Except Error Text
  | .null => .ok []
  | .bool b => .ok (if b then "true" else "false")
  | .int i => .ok (Text.ofInt i.toInt)
  | .float x => c.numeral x
  | .text t => .ok t
  | .record _ => .error (.recordInColumn c.name)

/-- A text cut to a width, at the end that is away from its side. -/
def cut (left : Bool) (width : Nat) (text : Text) : Text :=
  if text.width ≤ width then text
  else if left then text.takeFront width
  else text.takeBack width

/-- A text moved to one side, with the rest of the width filled with padding. -/
def fit (left : Bool) (pad : Text) (width : Nat) (text : Text) : Text :=
  let fill := pad.copies (width - text.width)
  if left then cut left width text ++ fill else fill ++ cut left width text

/-- The slot for a value.  A filler holds its padding, whatever the value. -/
def format (c : Column) (value : Value) : Except Error Text := do
  let pad ← c.padding
  if c.isFiller then .ok (pad.copies c.width.toNat)
  else
    let text ← c.textFor value
    if c.width.toNat < text.width ∧ !c.truncates then
      .error (.tooWide text c.width c.name)
    else
      let left ← c.alignsLeft
      .ok (fit left pad c.width.toNat text)

end Column

end RecordLayout
