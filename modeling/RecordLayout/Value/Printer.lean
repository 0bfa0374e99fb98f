import RecordLayout.Number.Numeral
import RecordLayout.Value.Basic

/-!
# The text of a value

Values are shown in messages, and scalar values are written into lines that have no column for
them, by one text each.

## Main definitions

* `Value.toText`, `Record.toText`: the text.
-/

namespace RecordLayout

namespace Value

/-- A text between quotation marks. -/
def quoted (t : Text) : Text := [0x22] ++ t ++ [0x22]

/-- What stands between the fields of a record. -/
def separator : Text := ", "

mutual

/-- The text of a value: a word for nothing and the truth values, a numeral for a number, a text as
it is, and a record in braces. -/
def toText : Value → Text
  | .null => "NULL"
  | .bool true => "true"
  | .bool false => "false"
  | .int i => Text.ofInt i.toInt
  | .float x => x.general
  | .text t => t
  | .record fields => [0x7B] ++ fieldsText fields ++ [0x7D]

/-- The fields of a record with commas between them; a text is quoted there. -/
def fieldsText : List (Text × Value) → Text
  | [] => []
  | (key, v) :: rest =>
    let shown : Text := if v.kind = .text then quoted v.toText else v.toText
    let tail : Text := fieldsText rest
    key ++ ": " ++ shown ++ if rest.isEmpty then tail else separator ++ tail

end

end Value

namespace Record

/-- The text of a record. -/
def toText (r : Record) : Text := (Value.record r).toText

end Record

end RecordLayout
