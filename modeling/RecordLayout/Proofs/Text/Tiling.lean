import RecordLayout.Proofs.Text.Windows

/-!
# Cuts tile a text

A cut at a character never tears one, so the characters on both sides of it are those that were
there before, however malformed the text is.  Hence the first characters, a window behind them and
what is left are the text again, and so are what is in front of the last characters and these.  All
of them have as many characters as were asked for, as far as there are any.

## Main results

* `Text.takeFront_eq_self`, `Text.rest_eq_nil`: cuts behind the last character.
* `Text.takeBack_eq_rest`: the last characters are what is left without those in front of them.
* `Text.takeFront_append_window_append`: the pieces before, in and behind a window fit together.
* `Text.window_window_eq`: a window of a window, which may reach over the end of the outer one.
* `Text.cuts_tile`: **cuts at characters tile every text**.
-/

namespace RecordLayout

namespace Text

open Owed

variable {t : Text} {m n : Nat}

/-! ### Nothing to cut -/

@[simp] theorem takeFront_zero (t : Text) : t.takeFront 0 = [] := by
  unfold takeFront offset
  rw [offsetFrom_zero (nothing_endsBefore _), List.take_zero]

@[simp] theorem takeFront_nil (n : Nat) : takeFront [] n = [] := List.take_nil

/-! ### Cuts behind the last character -/

/-- Nothing is left without all characters. -/
theorem rest_eq_nil (h : t.length < 2 ^ 31) (hn : t.width ≤ n) : t.rest n = [] := by
  have hle := length_rest_le t n
  have hwidth := width_rest h n
  exact (width_eq_zero_iff (by omega)).mp (by omega)

/-- A text with no more characters than are taken is taken whole. -/
theorem takeFront_eq_self (h : t.length < 2 ^ 31) (hn : t.width ≤ n) : t.takeFront n = t := by
  have hsplit := takeFront_append_rest t n
  rwa [rest_eq_nil h hn, List.append_nil] at hsplit

/-- **The last characters are what is left without those in front of them.** -/
theorem takeBack_eq_rest (h : t.length < 2 ^ 31) (n : Nat) :
    t.takeBack n = t.rest (t.width - min n t.width) := by
  unfold takeBack
  split
  · next hle => rw [Nat.min_eq_right hle, Nat.sub_self, rest_zero h]
  · next hlt =>
    rw [Nat.min_eq_left (by omega)]
    rfl

/-- What is in front of the last characters, and these. -/
theorem takeFront_append_takeBack (h : t.length < 2 ^ 31) (n : Nat) :
    t.takeFront (t.width - min n t.width) ++ t.takeBack n = t := by
  rw [takeBack_eq_rest h, takeFront_append_rest]

/-! ### Pieces side by side -/

theorem width_window (h : t.length < 2 ^ 31) (m n : Nat) :
    (t.window m n).width = min n (t.width - min m t.width) := by
  have hle := length_rest_le t m
  rw [window_eq_takeFront_rest, width_takeFront (by omega), width_rest h]
  omega

/-- The first characters and the window behind them are the first characters. -/
theorem takeFront_append_window (h : t.length < 2 ^ 31) (m n : Nat) :
    t.takeFront m ++ t.window m n = t.takeFront (m + n) := by
  have hfirst : (t.takeFront (m + n)).takeFront m = t.takeFront m :=
    takeFront_takeFront h (Nat.le_add_right m n)
  have hrest : (t.takeFront (m + n)).rest m = t.window m n := by
    rw [rest_takeFront h (Nat.le_add_right m n), Nat.add_sub_cancel_left]
    rfl
  calc t.takeFront m ++ t.window m n
      = (t.takeFront (m + n)).takeFront m ++ (t.takeFront (m + n)).rest m := by rw [hfirst, hrest]
    _ = t.takeFront (m + n) := takeFront_append_rest _ m

/-- A window as wide as the text is all that is left. -/
theorem window_width (h : t.length < 2 ^ 31) (m : Nat) : t.window m t.width = t.rest m := by
  have hle := length_rest_le t m
  have hwidth := width_rest h m
  rw [window_eq_takeFront_rest]
  exact takeFront_eq_self (by omega) (by omega)

/-- **The first characters, the window behind them and what is left are the text.** -/
theorem takeFront_append_window_append (h : t.length < 2 ^ 31) (m n : Nat) :
    t.takeFront m ++ (t.window m n ++ t.window (m + n) t.width) = t := by
  rw [window_width h, ← List.append_assoc, takeFront_append_window h, takeFront_append_rest]

/-- The first of the first characters, however many are taken first. -/
theorem takeFront_takeFront_min (h : t.length < 2 ^ 31) (m n : Nat) :
    (t.takeFront n).takeFront m = t.takeFront (min m n) := by
  rcases Nat.le_total m n with hle | hle
  · rw [Nat.min_eq_left hle, takeFront_takeFront h hle]
  · have hlen := length_takeFront_le t n
    have hwidth := width_takeFront h n
    rw [Nat.min_eq_right hle, takeFront_eq_self (by omega) (by omega)]

/-- **A window of a window is a window of the text**, cut off where the outer one ends. -/
theorem window_window_eq (h : t.length < 2 ^ 31) (first outer start count : Nat) :
    (t.window first outer).window start count
      = t.window (first + start) (min count (outer - start)) := by
  have hrest := length_rest_le t first
  have hfront := length_takeFront_le (t.rest first) outer
  have hwidth := width_takeFront (t := t.rest first) (by omega) outer
  rw [window_eq_takeFront_rest, window_eq_takeFront_rest, window_eq_takeFront_rest, rest_add h]
  rcases Nat.le_total start outer with hle | hle
  · have hinner := length_rest_le (t.rest first) start
    rw [rest_takeFront (by omega) hle, takeFront_takeFront_min (by omega)]
  · -- the inner window begins behind the outer one
    rw [rest_eq_nil (by omega) (by omega), Nat.sub_eq_zero_of_le hle, Nat.min_zero,
      takeFront_zero, takeFront_nil]

/-! ### The whole -/

/-- **Cuts at characters tile every text.**  The first characters and the last ones, and a window,
have as many as were asked for, as far as there are any; what is in front of a piece, the piece and
what is behind it are the text; and a window of a window is a window of the text. -/
theorem cuts_tile (h : t.length < 2 ^ 31) (a b c d : Nat) :
    (t.takeFront a).width = min a t.width
      ∧ (t.takeBack a <:+ t ∧ (t.takeBack a).width = min a t.width
        ∧ t.takeFront (t.width - min a t.width) ++ t.takeBack a = t)
      ∧ (t.window a b).width = min b (t.width - min a t.width)
      ∧ t.takeFront a ++ (t.window a b ++ t.window (a + b) t.width) = t
      ∧ (t.window a b).window c d = t.window (a + c) (min d (b - c)) := by
  have hback := takeFront_append_takeBack h a
  exact ⟨width_takeFront h a, ⟨⟨_, hback⟩, width_takeBack h a, hback⟩, width_window h a b,
    takeFront_append_window_append h a b, window_window_eq h a b c d⟩

/-- The letter between two torn characters, cut out by a window that reaches over the end. -/
theorem cuts_tile_torn :
    let t : Text := [0xE2, 0x82] ++ (("a€" : Text) ++ [0x80])
    t.width = 4 ∧ t.window 1 9 = ("a€" : Text) ++ [0x80] ∧ (t.window 1 9).window 1 20 = t.window 2 8
      ∧ t.takeFront 3 ++ t.takeBack 1 = t := by
  have htiled := cuts_tile (t := [0xE2, 0x82] ++ (("a€" : Text) ++ [0x80])) (by decide)
  refine ⟨by decide, by decide, (htiled 1 9 1 20).2.2.2.2, ?_⟩
  exact (htiled 1 9 1 20).2.1.2.2

end Text

end RecordLayout
