import RecordLayout.Column.Basic
import RecordLayout.Number.Reader
import RecordLayout.Text.Padding

/-!
# Reading a slot

The padding is taken off the side away from the text, all copies of it, and what is left is the
text, or the numeral with spaces around it that a number is read from.

## Main definitions

* `Column.readInteger`, `Column.parseNumber`: the numbers in a slot.
* `Column.parse`: the value in a slot.
-/

namespace RecordLayout

namespace Column

/-- The integer of a numeral that may have a plus sign, but not in front of a minus sign. -/
def readInteger (numeral : Text) : Option Int64 :=
  match numeral with
  | 0x2B :: 0x2D :: _ => none
  | 0x2B :: digits => Text.toInt64? digits
  | digits => Text.toInt64? digits

/-- The number in a slot `raw`, of which `text` is left without the padding.  Where nothing but
spaces is left, a slot of spaces only holds nothing, and any other slot holds zero. -/
def parseNumber (c : Column) (isInteger : Bool) (raw text : Text) : Except Error Value :=
  let numeral := text.trim Text.isSpace
  if numeral.isEmpty then
    if (raw.trim Text.isSpace).isEmpty then .ok .null
    else .ok (if isInteger then .int 0 else .float .zero)
  else if isInteger then
    match readInteger numeral with
    | some i => .ok (.int i)
    | none => .error (.unparsable c.name text "integer")
  else
    match numeral.toBinary64? with
    | some x => .ok (.float x)
    | none => .error (.unparsable c.name text "float")

/-- The value in a slot. -/
def parse (c : Column) (slot : Text) : Except Error Value :=
  if c.isFiller then .ok .null
  else do
    let pad ← c.padding
    if c.readsBlankAsNull && Text.isBlank pad slot then .ok .null
    else
      let left ← c.alignsLeft
      let text := if left then Text.dropTrailing pad slot else Text.dropLeading pad slot
      let type ← c.type
      if type = "string" then .ok (.text text)
      else c.parseNumber (type == Text.ofString "integer") slot text

end Column

end RecordLayout
