import RecordLayout.Options.Standard

/-!
# Columns

A column is a slot of fixed width that holds one value.  Written, the value's text is moved to one
side and the rest of the slot is filled with padding; read, the padding is taken off the other side
and what is left is understood in the column's form.

## Main definitions

* `Column`: a name, a width in characters, a group and options.
* `Column.create`, `Column.createFiller`.
* `Column.padding`, `Column.alignsLeft`, `Column.type`, …: what its options say.
* `Column.inherit`, `Column.takeOver`: options taken over from elsewhere.
-/

namespace RecordLayout

/-- A slot of a record. -/
structure Column where
  /-- The name under which a record holds the value. -/
  name : Text
  /-- The width of the slot in characters. -/
  width : UInt64
  /-- The group whose record holds the value, if it is not the record itself. -/
  group : Option Text
  /-- Whether the slot holds no value, but padding only. -/
  isFiller : Bool
  /-- How values are written and read. -/
  options : OptionTable

namespace Column

/-- A value that has to be a text. -/
def textOf (v : Value) : Except Error Text := v.expectText.mapError .fault

/-- The column of a name and a width with options.  Name and width are options themselves, and
replace any that are given under their names. -/
def create (name : Text) (width : UInt64) (options : OptionMap) : Except Error Column := do
  let provided := (options.insert OptionName.name (.text name)).insert OptionName.length
    (.int width.toInt64)
  let table ← columnOptions.createTable provided
  let name ← textOf (table.get OptionName.name)
  let width ← (table.get OptionName.length).expectInt.mapError Error.fault
  return ⟨name, width.toUInt64, (table.get OptionName.group).text?, false, table⟩

/-- The filler of a name and a width; an empty padding stands for the default one. -/
def createFiller (name : Text) (width : UInt64) (padding : Text) : Except Error Column := do
  let options :=
    if padding.isEmpty then NameMap.empty
    else NameMap.empty.insert OptionName.padding (.text padding)
  let column ← create name width options
  return { column with isFiller := true }

/-! ### Options -/

/-- The text that fills up the slot. -/
def padding (c : Column) : Except Error Text := textOf (c.options.get OptionName.padding)

/-- Whether a value is at the left of its slot, with the padding at its right. -/
def alignsLeft (c : Column) : Except Error Bool :=
  (textOf (c.options.get OptionName.align)).map fun side => side == Text.ofString "left"

/-- The form of the values. -/
def type (c : Column) : Except Error Text := textOf (c.options.get OptionName.type)

/-- Whether an option is set to true. -/
def hasFlag (c : Column) (name : Text) : Bool := (c.options.get name).bool? == some true

/-- Whether a text that is too wide is cut. -/
def truncates (c : Column) : Bool := c.hasFlag OptionName.truncate

/-- Whether a blank slot is read as nothing. -/
def readsBlankAsNull (c : Column) : Bool := c.hasFlag OptionName.nilBlank

/-- The number of digits after the point, if it is fixed. -/
def precision (c : Column) : Option Nat :=
  (c.options.get OptionName.precision).int?.map (·.toInt.toNat)

/-! ### Options from elsewhere -/

/-- The column with the options of a table taken over, and the error that ended this. -/
def inherit (c : Column) (table : OptionTable) : Column × Option Error :=
  let (options, error?) := c.options.merge table
  ({ c with options }, error?)

/-- The column with an option set taken over, and the error that ended this. -/
def takeOver (c : Column) (options : OptionMap) : Column × Option Error :=
  let (options, error?) := c.options.mergeValues options
  ({ c with options }, error?)

end Column

end RecordLayout
