import RecordLayout.Text.Basic

/-!
# Version

The version of the layout rules that this library follows.
-/

namespace RecordLayout

/-- A version number. -/
structure Version where
  /-- Counts changes that break layouts. -/
  major : Nat
  /-- Counts additions. -/
  minor : Nat
  /-- Counts corrections. -/
  patch : Nat
  deriving DecidableEq, Repr

namespace Version

/-- The version of this library. -/
def current : Version := ⟨0, 1, 0⟩

/-- The three numbers with points between them. -/
def render (v : Version) : Text :=
  Text.joinWith "." [Text.ofNat v.major, Text.ofNat v.minor, Text.ofNat v.patch]

end Version

end RecordLayout
