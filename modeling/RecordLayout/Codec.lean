import RecordLayout.Column.Format
import RecordLayout.Column.Parse

/-!
# Codecs

The leaf fields of a schema: columns, and codecs that are made elsewhere.  A codec from elsewhere
has a name, a width, a group and ways to read and write its slot.  It may have options of its own,
which receive what is handed down to it, and may refuse it.

## Main definitions

* `CustomCodec`: a codec that is made elsewhere.
* `Codec`: a column or a codec from elsewhere.
* `Codec.table?`: its options.
* `Codec.inherit`, `Codec.takeOver`: what is handed down to it.
-/

namespace RecordLayout

/-- A codec that is made elsewhere. -/
structure CustomCodec where
  /-- The name under which a record holds the value. -/
  name : Text
  /-- The width of the slot in characters. -/
  width : UInt64
  /-- The group whose record holds the value, if it is not the record itself. -/
  group : Option Text
  /-- Whether the slot holds no value. -/
  isFiller : Bool
  /-- The options that receive what is handed down, if the codec takes any. -/
  options? : Option OptionTable
  /-- The value in a slot, as the options say. -/
  readWith : Option OptionTable → Text → Except Error Value
  /-- The slot for a value, as the options say. -/
  writeWith : Option OptionTable → Value → Except Error Text

namespace CustomCodec

/-- The value in a slot. -/
def parse (c : CustomCodec) : Text → Except Error Value := c.readWith c.options?

/-- The slot for a value. -/
def format (c : CustomCodec) : Value → Except Error Text := c.writeWith c.options?

/-- The codec with its options changed, and the error that ended this.  There is nothing to change
in a codec without options. -/
def adjust (change : OptionTable → OptionTable × Option Error) (c : CustomCodec) :
    CustomCodec × Option Error :=
  ({ c with options? := c.options?.map fun table => (change table).1 },
    c.options?.bind fun table => (change table).2)

end CustomCodec

/-- A leaf field of a schema. -/
inductive Codec
  /-- A column. -/
  | column (c : Column)
  /-- A codec from elsewhere. -/
  | custom (c : CustomCodec)

namespace Codec

/-- The name under which a record holds the value. -/
def name : Codec → Text
  | .column c => c.name
  | .custom c => c.name

/-- The width of the slot in characters. -/
def width : Codec → UInt64
  | .column c => c.width
  | .custom c => c.width

/-- The group whose record holds the value, if it is not the record itself. -/
def group : Codec → Option Text
  | .column c => c.group
  | .custom c => c.group

/-- Whether the slot holds no value. -/
def isFiller : Codec → Bool
  | .column c => c.isFiller
  | .custom c => c.isFiller

/-- The value in a slot. -/
def parse : Codec → Text → Except Error Value
  | .column c => c.parse
  | .custom c => c.parse

/-- The slot for a value. -/
def format : Codec → Value → Except Error Text
  | .column c => c.format
  | .custom c => c.format

/-- The options that receive what is handed down, if there are any. -/
def table? : Codec → Option OptionTable
  | .column c => some c.options
  | .custom c => c.options?

/-- The codec with the options of a table taken over, and the error that ended this. -/
def inherit (table : OptionTable) : Codec → Codec × Option Error
  | .column c => let (c, error?) := c.inherit table; (.column c, error?)
  | .custom c => let (c, error?) := c.adjust (·.merge table); (.custom c, error?)

/-- The codec with an option set taken over, and the error that ended this. -/
def takeOver (options : OptionMap) : Codec → Codec × Option Error
  | .column c => let (c, error?) := c.takeOver options; (.column c, error?)
  | .custom c => let (c, error?) := c.adjust (·.mergeValues options); (.custom c, error?)

theorem table?_inherit (table : OptionTable) (c : Codec) :
    (c.inherit table).1.table? = c.table?.map fun t => (t.merge table).1 := by
  cases c <;> rfl

theorem table?_takeOver (options : OptionMap) (c : Codec) :
    (c.takeOver options).1.table? = c.table?.map fun t => (t.mergeValues options).1 := by
  cases c <;> rfl

theorem inherit_snd (table : OptionTable) (c : Codec) :
    (c.inherit table).2 = c.table?.bind fun t => (t.merge table).2 := by
  cases c <;> rfl

theorem takeOver_snd (options : OptionMap) (c : Codec) :
    (c.takeOver options).2 = c.table?.bind fun t => (t.mergeValues options).2 := by
  cases c <;> rfl

end Codec

end RecordLayout
