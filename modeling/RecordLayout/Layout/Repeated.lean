import RecordLayout.Layout.Width
import RecordLayout.Text.Padding

/-!
# Lines that need not be written out

A line may be given as copies of a text.  How many characters it has is then found without writing
it out, if none of them are counted; and so is whether it fits a schema, if that has no further
condition.

## Main definitions

* `Text.Repeated`: copies of a text.
* `Text.Repeated.width`, `Text.Repeated.trimmedWidth`: the number of characters, with or without
  white space at the end.
* `Layout.matchesRepeated`: whether such a line fits a schema.
-/

namespace RecordLayout

/-- Copies of a text, one after the other. -/
structure Text.Repeated where
  /-- The text that is copied. -/
  unit : Text
  /-- How many copies there are. -/
  count : Nat

namespace Text.Repeated

/-- The copies written out. -/
def text (r : Repeated) : Text := r.unit.copies r.count

/-- The number of characters.  The copies are written out only if some bytes of them are looked
at. -/
def width (r : Repeated) : Nat := if word32 (r.count * r.unit.length) = 0 then 0 else r.text.width

/-- The number of bytes without white space at the end.  If the text that is copied is not blank,
the last copy ends the line; otherwise nothing is left. -/
def trimmedLength (r : Repeated) : Nat :=
  match r.count with
  | 0 => 0
  | n + 1 =>
    if r.unit.trimEnd isWhite = [] then 0 else n * r.unit.length + (r.unit.trimEnd isWhite).length

/-- The number of characters without white space at the end, found in the same way. -/
def trimmedWidth (r : Repeated) : Nat :=
  if word32 r.trimmedLength = 0 then 0 else (r.text.trimEnd isWhite).width

end Text.Repeated

/-- Whether copies of a text fit a schema, as a line. -/
def Layout.matchesRepeated (s : SchemaId) (r : Text.Repeated) : Build Bool := do
  match ← Build.attempt (width s) with
  | .error _ => return false
  | .ok total =>
    let node ← Build.schema s
    return r.trimmedWidth ≤ total.toNat && node.condition?.all (· r.text)

end RecordLayout
