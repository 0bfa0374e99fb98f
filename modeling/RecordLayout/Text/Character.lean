import RecordLayout.Text.Basic

/-!
# Characters of a text

Widths and positions count characters, and a text may be malformed, so a character is defined for
every sequence of bytes.  A lead byte `C2` to `F4` begins a character and takes the trail bytes
that fit after it, one by one; the second byte has a narrower range after `E0`, `ED`, `F0` and
`F4`.  Every other byte is a character of its own, and a character also ends where the text ends.
On well-formed UTF-8 these are the encoded characters.

Positions are signed 32-bit words: of a longer text only as many bytes are looked at as the word
that holds its size says, and none when that word is negative.

## Main definitions

* `Text.Owed`: the trail bytes that the character so far would still take.
* `Text.width`: the number of characters.
* `Text.offset`: the number of bytes in the first characters.
* `Text.takeFront`, `Text.takeBack`, `Text.window`: cuts at characters.
-/

namespace RecordLayout

namespace Text

/-- The trail bytes that a character would still take: how many, and the range of the next. -/
structure Owed where
  /-- How many trail bytes are owed; none between characters. -/
  more : Nat
  /-- The least byte that the next one may be. -/
  least : UInt8
  /-- The greatest byte that the next one may be. -/
  greatest : UInt8
  deriving DecidableEq, Repr

namespace Owed

/-- Between characters. -/
def nothing : Owed := ⟨0, 0x80, 0xBF⟩

/-- What is owed after a byte that begins a character. -/
def afterLead (b : UInt8) : Owed :=
  if b < 0xC2 then nothing
  else if b < 0xE0 then ⟨1, 0x80, 0xBF⟩
  else if b = 0xE0 then ⟨2, 0xA0, 0xBF⟩
  else if b = 0xED then ⟨2, 0x80, 0x9F⟩
  else if b < 0xF0 then ⟨2, 0x80, 0xBF⟩
  else if b = 0xF0 then ⟨3, 0x90, 0xBF⟩
  else if b < 0xF4 then ⟨3, 0x80, 0xBF⟩
  else if b = 0xF4 then ⟨3, 0x80, 0x8F⟩
  else nothing

/-- Whether a byte continues the character, rather than beginning the next one. -/
def accepts (o : Owed) (b : UInt8) : Bool :=
  o.more != 0 && o.least ≤ b && b ≤ o.greatest

/-- What is owed after one more byte. -/
def next (o : Owed) (b : UInt8) : Owed :=
  if o.accepts b then ⟨o.more - 1, 0x80, 0xBF⟩ else afterLead b

@[simp] theorem accepts_nothing (b : UInt8) : nothing.accepts b = false := rfl

@[simp] theorem next_nothing (b : UInt8) : nothing.next b = afterLead b := rfl

end Owed

/-! ### Counting and measuring -/

/-- The number of characters that begin in a text, read on from `o`. -/
def countFrom : Owed → Text → Nat
  | _, [] => 0
  | o, b :: t => (if o.accepts b then 0 else 1) + countFrom (o.next b) t

/-- The number of bytes, read on from `o`, before the character begins that has `n` characters
before it in the text. -/
def offsetFrom : Owed → Nat → Text → Nat
  | _, _, [] => 0
  | o, n, b :: t =>
    if o.accepts b then 1 + offsetFrom (o.next b) n t
    else match n with
      | 0 => 0
      | n + 1 => 1 + offsetFrom (o.next b) n t

@[simp] theorem countFrom_nil (o : Owed) : countFrom o [] = 0 := rfl

@[simp] theorem countFrom_cons (o : Owed) (b : UInt8) (t : Text) :
    countFrom o (b :: t) = (if o.accepts b then 0 else 1) + countFrom (o.next b) t := rfl

@[simp] theorem offsetFrom_nil (o : Owed) (n : Nat) : offsetFrom o n [] = 0 := rfl

theorem offsetFrom_cons_zero (o : Owed) (b : UInt8) (t : Text) :
    offsetFrom o 0 (b :: t) = if o.accepts b then 1 + offsetFrom (o.next b) 0 t else 0 := rfl

theorem offsetFrom_cons_succ (o : Owed) (n : Nat) (b : UInt8) (t : Text) :
    offsetFrom o (n + 1) (b :: t)
      = if o.accepts b then 1 + offsetFrom (o.next b) (n + 1) t
        else 1 + offsetFrom (o.next b) n t := rfl

theorem offsetFrom_le (o : Owed) (n : Nat) (t : Text) : offsetFrom o n t ≤ t.length := by
  induction t generalizing o n with
  | nil => simp
  | cons b t ih =>
    cases n with
    | zero =>
      rw [offsetFrom_cons_zero]
      have := ih (o.next b) 0
      split <;> simp only [List.length_cons] <;> omega
    | succ n =>
      rw [offsetFrom_cons_succ]
      have h₁ := ih (o.next b) (n + 1)
      have h₂ := ih (o.next b) n
      split <;> simp only [List.length_cons] <;> omega

/-! ### The part looked at -/

/-- A size as a signed 32-bit word holds it, with zero for a negative word. -/
def word32 (size : Nat) : Nat :=
  if size % 2 ^ 32 < 2 ^ 31 then size % 2 ^ 32 else 0

/-- The bytes of a text that are looked at: all of them, unless there are `2 ^ 31` or more. -/
def scanned (t : Text) : Text := t.take (word32 t.length)

theorem word32_of_lt {size : Nat} (h : size < 2 ^ 31) : word32 size = size := by
  have hmod : size % 2 ^ 32 = size := Nat.mod_eq_of_lt (by omega)
  unfold word32
  rw [hmod, if_pos h]

theorem scanned_of_lt {t : Text} (h : t.length < 2 ^ 31) : scanned t = t := by
  unfold scanned
  rw [word32_of_lt h, List.take_length]

/-- The number of characters of a text. -/
def width (t : Text) : Nat := countFrom .nothing (scanned t)

/-- The number of bytes in the first `n` characters of a text. -/
def offset (t : Text) (n : Nat) : Nat := offsetFrom .nothing n (scanned t)

theorem offset_le (t : Text) (n : Nat) : t.offset n ≤ t.length := by
  calc t.offset n ≤ (scanned t).length := offsetFrom_le .nothing n (scanned t)
    _ ≤ t.length := List.length_take_le' _ _

/-! ### Cuts -/

/-- The first `n` characters of a text, all of it if there are fewer. -/
def takeFront (t : Text) (n : Nat) : Text := t.take (t.offset n)

/-- The last `n` characters of a text, all of it if there are fewer. -/
def takeBack (t : Text) (n : Nat) : Text :=
  if t.width ≤ n then t else t.drop (t.offset (t.width - n))

/-- The `count` characters of a text that follow its first `start`, as far as there are any. -/
def window (t : Text) (start count : Nat) : Text :=
  takeFront (t.drop (t.offset start)) count

end Text

end RecordLayout
