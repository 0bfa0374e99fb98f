import RecordLayout.Text.Basic

/-!
# Identifiers

Fields, groups and schemas are named by identifiers.  Some identifiers are kept for the fields that
a layout names itself.

## Main definitions

* `Text.isIdentifier`: a letter or underscore, then letters, digits and underscores.
* `Text.isReserved`: an identifier that no declaration may use.
-/

namespace RecordLayout

namespace Text

/-- The greatest number of bytes in an identifier. -/
def maxIdentifierSize : Nat := 64

/-- Whether a text is an identifier: an ASCII letter or an underscore, then ASCII letters, digits
and underscores, at most `maxIdentifierSize` bytes in all. -/
def isIdentifier : Text → Bool
  | [] => false
  | b :: t =>
    (b :: t).length ≤ maxIdentifierSize && (isLetter b || b == 0x5F) && t.all isWord

@[simp] theorem isIdentifier_nil : isIdentifier [] = false := rfl

/-- How the names of fillers begin. -/
def spacerStem : Text := "spacer"

/-- How the names of repetitions begin. -/
def repeatStem : Text := "repeat"

/-- Whether a name begins like the names that a layout gives itself. -/
def isReserved (t : Text) : Bool := spacerStem.isPrefixOf t || repeatStem.isPrefixOf t

/-- The name of the `n`-th filler of a schema. -/
def spacerName (n : Nat) : Text := spacerStem ++ "_" ++ ofNat n

theorem isReserved_spacerName (n : Nat) : isReserved (spacerName n) = true := by
  simp [isReserved, spacerName, List.append_assoc]

end Text

end RecordLayout
