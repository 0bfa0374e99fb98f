import RecordLayout.Options.Rule
import RecordLayout.Options.Table

/-!
# The options of columns and schemas

The two option schemas of a layout.  Alignment, padding, truncation and the reading of blank slots
can be set on a schema or a definition too, from where columns inherit them.

## Main definitions

* `columnOptions`, `schemaOptions`: the option schemas.
* `OptionName`: the names of the options.
-/

namespace RecordLayout

namespace OptionName

/-- The name of a column or schema. -/
def name : Text := "name"

/-- The width of a column. -/
def length : Text := "length"

/-- The group of a column. -/
def group : Text := "group"

/-- The form of a column's values. -/
def type : Text := "type"

/-- The digits after the point in a column's numerals. -/
def precision : Text := "precision"

/-- The side to which a column's text is moved. -/
def align : Text := "align"

/-- The text that fills up a slot. -/
def padding : Text := "padding"

/-- Whether a text that is too wide is cut. -/
def truncate : Text := "truncate"

/-- Whether a blank slot is read as nothing. -/
def nilBlank : Text := "nil_blank"

/-- Whether records of a schema may be missing. -/
def optional : Text := "optional"

/-- Whether there is at most one record of a schema. -/
def singular : Text := "singular"

end OptionName

/-- The alignments that there are. -/
def alignments : List Text := ["left", "right"]

/-- The forms of values that there are. -/
def columnTypes : List Text := ["string", "integer", "float"]

/-- A truth value that is taken over from the enclosing scope. -/
def inheritedFlag (name : Text) (default? : Option Value) : OptionSpec where
  name := name
  accepts := OptionRule.isBool
  expected := "true or false"
  default? := default?
  readable := true
  inheritable := true

/-- An alignment that is taken over from the enclosing scope. -/
def alignSpec (default? : Option Value) : OptionSpec where
  name := OptionName.align
  transform := OptionRule.lowercase
  accepts := OptionRule.isOneOf alignments
  expected := "left or right"
  default? := default?
  readable := true
  inheritable := true

/-- A padding that is taken over from the enclosing scope. -/
def paddingSpec (default? : Option Value) : OptionSpec where
  name := OptionName.padding
  accepts := OptionRule.isCharacter
  expected := "a single character"
  default? := default?
  readable := true
  inheritable := true

/-- A required name. -/
def nameSpec : OptionSpec where
  name := OptionName.name
  transform := OptionRule.trim
  accepts := OptionRule.isIdentifier
  expected := "an identifier"
  required := true
  readable := true

/-- The options of schemas and definitions. -/
def schemaOptions : OptionSchema where
  serial := 1
  owner := "schema"
  specs := [
    nameSpec,
    { inheritedFlag OptionName.optional (some (.bool false)) with writable := true },
    { inheritedFlag OptionName.singular (some (.bool false)) with writable := true },
    alignSpec none,
    paddingSpec none,
    inheritedFlag OptionName.truncate none,
    inheritedFlag OptionName.nilBlank none]

/-- The options of columns. -/
def columnOptions : OptionSchema where
  serial := 2
  owner := "column"
  specs := [
    nameSpec,
    { name := OptionName.length
      accepts := OptionRule.isPositive
      expected := "a positive integer"
      required := true
      readable := true },
    { name := OptionName.group
      transform := OptionRule.trim
      accepts := OptionRule.isIdentifier
      expected := "an identifier"
      readable := true },
    { name := OptionName.type
      transform := OptionRule.lowercase
      accepts := OptionRule.isOneOf columnTypes
      expected := "string, integer or float"
      default? := some (.text "string")
      readable := true },
    { name := OptionName.precision
      accepts := OptionRule.isNonNegative
      expected := "a non-negative integer"
      readable := true },
    alignSpec (some (.text "right")),
    paddingSpec (some (.text " ")),
    inheritedFlag OptionName.truncate (some (.bool false)),
    inheritedFlag OptionName.nilBlank (some (.bool false))]

/-- The serial numbers from here on are free for the option schemas of others. -/
def firstFreeSerial : Nat := 3

end RecordLayout
