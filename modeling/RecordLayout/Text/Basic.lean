import RecordLayout.Number.Power

/-!
# Texts

Record lines, names and messages are texts: sequences of bytes.  Nothing here asks them to be
well-formed UTF-8, because a line is read as it comes.

## Main definitions

* `Text`: a sequence of bytes; a character string stands for its UTF-8 bytes.
* `Text.trimStart`, `Text.trimEnd`, `Text.trim`: removal of unwanted bytes at the ends.
* `Text.lowercase`: the ASCII letters of a text in lower case.
* `Text.ofNat`, `Text.ofInt`: decimal numerals.
-/

namespace RecordLayout

/-- A text is a sequence of bytes, well-formed UTF-8 or not. -/
abbrev Text := List UInt8

namespace Text

/-- The UTF-8 bytes of a character string. -/
def ofString (s : String) : Text := s.toUTF8.data.toList

instance : Coe String Text := ⟨ofString⟩

instance : LawfulBEq Text := inferInstanceAs (LawfulBEq (List UInt8))

/-! ### Classes of bytes -/

/-- The space character. -/
def isSpace (b : UInt8) : Bool := b == 0x20

/-- A space, a tab, a carriage return or a newline. -/
def isWhite (b : UInt8) : Bool := b == 0x20 || b == 0x09 || b == 0x0D || b == 0x0A

/-- An ASCII decimal digit. -/
def isDigit (b : UInt8) : Bool := 0x30 ≤ b && b ≤ 0x39

/-- An ASCII capital letter. -/
def isUpper (b : UInt8) : Bool := 0x41 ≤ b && b ≤ 0x5A

/-- An ASCII small letter. -/
def isLower (b : UInt8) : Bool := 0x61 ≤ b && b ≤ 0x7A

/-- An ASCII letter. -/
def isLetter (b : UInt8) : Bool := isUpper b || isLower b

/-- An ASCII letter, a digit or an underscore. -/
def isWord (b : UInt8) : Bool := isLetter b || isDigit b || b == 0x5F

/-! ### Ends and letters -/

/-- The text without its leading bytes of the class `p`. -/
def trimStart (p : UInt8 → Bool) (t : Text) : Text := t.dropWhile p

/-- The text without its trailing bytes of the class `p`. -/
def trimEnd (p : UInt8 → Bool) (t : Text) : Text := (t.reverse.dropWhile p).reverse

/-- The text without its leading and trailing bytes of the class `p`. -/
def trim (p : UInt8 → Bool) (t : Text) : Text := trimEnd p (trimStart p t)

@[simp] theorem trimStart_nil (p : UInt8 → Bool) : trimStart p [] = [] := rfl

@[simp] theorem trimEnd_nil (p : UInt8 → Bool) : trimEnd p [] = [] := rfl

theorem trimEnd_concat (p : UInt8 → Bool) (t : Text) (b : UInt8) :
    trimEnd p (t ++ [b]) = if p b then trimEnd p t else t ++ [b] := by
  by_cases h : p b <;> simp [trimEnd, h]

/-- An ASCII capital letter becomes the small one; other bytes stay. -/
def lowerByte (b : UInt8) : UInt8 := if isUpper b then b + 0x20 else b

/-- The text with its ASCII letters in lower case. -/
def lowercase (t : Text) : Text := t.map lowerByte

@[simp] theorem length_lowercase (t : Text) : (lowercase t).length = t.length := by
  simp [lowercase]

/-! ### Numerals -/

/-- The numeral of a digit below ten. -/
def digit (d : Nat) : UInt8 := 0x30 + UInt8.ofNat d

/-- The decimal numeral of a natural number, without leading zeros. -/
def ofNat (n : Nat) : Text :=
  if n < 10 then [digit n] else ofNat (n / 10) ++ [digit (n % 10)]

/-- The decimal numeral of an integer; only a negative one carries a sign. -/
def ofInt (i : Int) : Text :=
  if i < 0 then "-" ++ ofNat i.natAbs else ofNat i.natAbs

/-- The texts of a list, one after the other, with `separator` between neighbours. -/
def joinWith (separator : Text) : List Text → Text
  | [] => []
  | [t] => t
  | t :: u :: rest => t ++ separator ++ joinWith separator (u :: rest)

end Text

end RecordLayout
