import RecordLayout.Text.Character
import RecordLayout.Text.Identifier
import RecordLayout.Value.Basic

/-!
# Rules for option values

The forms into which given values are brought, and the tests that they have to pass after that.

## Main definitions

* `OptionRule.trim`, `OptionRule.lowercase`: forms of texts.
* `OptionRule.isBool`, `OptionRule.isIdentifier`, …: tests of values.
-/

namespace RecordLayout

namespace OptionRule

/-- A text without white space at its ends; other values as they are. -/
def trim : Value → Value
  | .text t => .text (t.trim Text.isWhite)
  | v => v

/-- A text with its letters in lower case; other values as they are. -/
def lowercase : Value → Value
  | .text t => .text t.lowercase
  | v => v

/-- A truth value. -/
def isBool (v : Value) : Bool := v.bool?.isSome

/-- A text that is an identifier. -/
def isIdentifier (v : Value) : Bool := v.text?.any Text.isIdentifier

/-- An integer above zero. -/
def isPositive (v : Value) : Bool := v.int?.any (0 < ·)

/-- An integer not below zero. -/
def isNonNegative (v : Value) : Bool := v.int?.any (0 ≤ ·)

/-- A text of one character. -/
def isCharacter (v : Value) : Bool := v.text?.any fun t => t.width == 1

/-- One of some texts. -/
def isOneOf (allowed : List Text) (v : Value) : Bool := v.text?.any allowed.contains

end OptionRule

end RecordLayout
