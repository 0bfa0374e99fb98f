import RecordLayout.Text.Character

/-!
# Counting characters

Reading a text byte by byte passes through what is owed at each place.  A text splits between two
characters exactly where the byte that follows is not one that is owed, and at such a place counts
and offsets add up.

## Main definitions

* `Text.Owed.afterText`: what is owed after a whole text.
* `Text.Owed.EndsBefore`: the character so far ends where a text begins.
* `Text.Apart`: no character of one text goes on into another.
* `Text.rest`: a text without its first characters.

## Main results

* `Text.width_append`: widths add up where texts are apart.
* `Text.rest_add`, `Text.takeFront_append_rest`: cuts at characters fit together.
* `Text.window_append`: the window at a place where a text was put is that text.
-/

namespace RecordLayout

namespace Text

namespace Owed

/-- What is owed after a whole text. -/
def afterText (o : Owed) (t : Text) : Owed := t.foldl next o

@[simp] theorem afterText_nil (o : Owed) : o.afterText [] = o := rfl

@[simp] theorem afterText_cons (o : Owed) (b : UInt8) (t : Text) :
    o.afterText (b :: t) = (o.next b).afterText t := rfl

theorem afterText_append (o : Owed) (s t : Text) :
    o.afterText (s ++ t) = (o.afterText s).afterText t := by
  unfold afterText
  rw [List.foldl_append]

/-- The character so far ends where a text begins. -/
def EndsBefore (o : Owed) (t : Text) : Prop := ∀ b ∈ t.head?, o.accepts b = false

theorem endsBefore_nil (o : Owed) : o.EndsBefore [] := by
  intro b hb
  simp at hb

theorem endsBefore_cons {o : Owed} {b : UInt8} {t : Text} :
    o.EndsBefore (b :: t) ↔ o.accepts b = false := by
  simp [EndsBefore]

theorem nothing_endsBefore (t : Text) : nothing.EndsBefore t := fun b _ => accepts_nothing b

/-- A byte that is not owed is read as between characters. -/
theorem next_of_not_accepts {o : Owed} {b : UInt8} (h : o.accepts b = false) :
    o.next b = nothing.next b := by
  unfold next
  rw [h, accepts_nothing]
  rfl

end Owed

open Owed

/-! ### Counts and offsets at a place between characters -/

theorem countFrom_append (o : Owed) (s t : Text) :
    countFrom o (s ++ t) = countFrom o s + countFrom (o.afterText s) t := by
  induction s generalizing o with
  | nil => simp
  | cons b s ih =>
    rw [List.cons_append, countFrom_cons, countFrom_cons, afterText_cons, ih]
    omega

theorem countFrom_of_endsBefore {o : Owed} {t : Text} (h : o.EndsBefore t) :
    countFrom o t = countFrom nothing t := by
  cases t with
  | nil => rfl
  | cons b t =>
    have hb := endsBefore_cons.mp h
    rw [countFrom_cons, countFrom_cons, hb, accepts_nothing, next_of_not_accepts hb]

theorem offsetFrom_of_endsBefore {o : Owed} {t : Text} (h : o.EndsBefore t) (n : Nat) :
    offsetFrom o n t = offsetFrom nothing n t := by
  cases t with
  | nil => rfl
  | cons b t =>
    have hb := endsBefore_cons.mp h
    cases n with
    | zero => rw [offsetFrom_cons_zero, offsetFrom_cons_zero, hb, accepts_nothing]; rfl
    | succ n =>
      rw [offsetFrom_cons_succ, offsetFrom_cons_succ, hb, accepts_nothing, next_of_not_accepts hb]

theorem offsetFrom_zero {o : Owed} {t : Text} (h : o.EndsBefore t) : offsetFrom o 0 t = 0 := by
  cases t with
  | nil => rfl
  | cons b t => rw [offsetFrom_cons_zero, endsBefore_cons.mp h]; rfl

/-- Past a text that ends with a character, an offset goes on into what follows. -/
theorem offsetFrom_append {o : Owed} {s t : Text} (h : (o.afterText s).EndsBefore t) (n : Nat) :
    offsetFrom o (countFrom o s + n) (s ++ t) = s.length + offsetFrom nothing n t := by
  induction s generalizing o with
  | nil =>
    rw [countFrom_nil, Nat.zero_add, List.nil_append, List.length_nil, Nat.zero_add]
    exact offsetFrom_of_endsBefore h n
  | cons b s ih =>
    have hs := ih (o := o.next b) h
    rw [List.cons_append, countFrom_cons, List.length_cons]
    by_cases hb : o.accepts b = true
    · rw [if_pos hb, Nat.zero_add]
      -- a byte that goes on with a character is passed also where no character is left to pass
      cases hn : countFrom (o.next b) s + n with
      | zero =>
        rw [offsetFrom_cons_zero, if_pos hb]
        rw [hn] at hs
        omega
      | succ m =>
        rw [offsetFrom_cons_succ, if_pos hb]
        rw [hn] at hs
        omega
    · have hone : 1 + countFrom (o.next b) s + n = (countFrom (o.next b) s + n) + 1 := by omega
      rw [if_neg hb, hone, offsetFrom_cons_succ, if_neg hb, hs]
      omega

/-- An offset lies between two characters. -/
theorem endsBefore_drop_offsetFrom (o : Owed) (n : Nat) (t : Text) :
    (o.afterText (t.take (offsetFrom o n t))).EndsBefore (t.drop (offsetFrom o n t)) := by
  induction t generalizing o n with
  | nil => exact endsBefore_nil _
  | cons b t ih =>
    by_cases hb : o.accepts b = true
    · have hstep : offsetFrom o n (b :: t) = offsetFrom (o.next b) n t + 1 := by
        cases n with
        | zero => rw [offsetFrom_cons_zero, if_pos hb, Nat.add_comm]
        | succ n => rw [offsetFrom_cons_succ, if_pos hb, Nat.add_comm]
      rw [hstep, List.take_succ_cons, List.drop_succ_cons, afterText_cons]
      exact ih (o.next b) n
    · cases n with
      | zero =>
        rw [offsetFrom_cons_zero, if_neg hb]
        exact endsBefore_cons.mpr (Bool.eq_false_iff.mpr hb)
      | succ n =>
        rw [offsetFrom_cons_succ, if_neg hb, Nat.add_comm 1, List.take_succ_cons,
          List.drop_succ_cons, afterText_cons]
        exact ih (o.next b) n

theorem countFrom_take_offsetFrom (o : Owed) (n : Nat) (t : Text) :
    countFrom o (t.take (offsetFrom o n t)) = min n (countFrom o t) := by
  induction t generalizing o n with
  | nil => simp
  | cons b t ih =>
    by_cases hb : o.accepts b = true
    · have hstep : offsetFrom o n (b :: t) = offsetFrom (o.next b) n t + 1 := by
        cases n with
        | zero => rw [offsetFrom_cons_zero, if_pos hb, Nat.add_comm]
        | succ n => rw [offsetFrom_cons_succ, if_pos hb, Nat.add_comm]
      rw [hstep, List.take_succ_cons, countFrom_cons, countFrom_cons, ih, if_pos hb]
      omega
    · cases n with
      | zero => rw [offsetFrom_cons_zero, if_neg hb, List.take_zero, countFrom_nil]; omega
      | succ n =>
        rw [offsetFrom_cons_succ, if_neg hb, Nat.add_comm 1, List.take_succ_cons, countFrom_cons,
          countFrom_cons, ih, if_neg hb]
        omega

/-- An offset can be measured in two parts, the second one from where the first ends. -/
theorem offsetFrom_add (o : Owed) (m n : Nat) (t : Text) :
    offsetFrom o (m + n) t
      = offsetFrom o m t + offsetFrom nothing n (t.drop (offsetFrom o m t)) := by
  have happart := endsBefore_drop_offsetFrom o m t
  have hcount := countFrom_take_offsetFrom o m t
  have hle := offsetFrom_le o m t
  have hsplit := List.take_append_drop (offsetFrom o m t) t
  by_cases hm : m ≤ countFrom o t
  · have happend := offsetFrom_append happart n
    rw [hcount, Nat.min_eq_left hm, hsplit, List.length_take, Nat.min_eq_left hle] at happend
    exact happend
  · -- there are fewer than `m` characters, so both offsets are the end of the text
    have hend (k : Nat) (hk : countFrom o t ≤ k) : offsetFrom o k t = t.length := by
      have hnil := offsetFrom_append (endsBefore_nil (o.afterText t)) (k - countFrom o t)
      rw [List.append_nil, offsetFrom_nil, Nat.add_sub_cancel' hk] at hnil
      exact hnil
    rw [hend m (by omega), hend (m + n) (by omega), List.drop_length, offsetFrom_nil]
    rfl

/-- Before the last character is reached, it does not matter how a text goes on. -/
theorem offsetFrom_append_of_lt {o : Owed} {n : Nat} {s : Text} (t : Text)
    (h : n < countFrom o s) : offsetFrom o n (s ++ t) = offsetFrom o n s := by
  induction s generalizing o n with
  | nil => simp at h
  | cons b s ih =>
    rw [countFrom_cons] at h
    rw [List.cons_append]
    by_cases hb : o.accepts b = true
    · rw [if_pos hb, Nat.zero_add] at h
      cases n with
      | zero => rw [offsetFrom_cons_zero, offsetFrom_cons_zero, ih h]
      | succ n => rw [offsetFrom_cons_succ, offsetFrom_cons_succ, if_pos hb, if_pos hb, ih h]
    · rw [if_neg hb] at h
      cases n with
      | zero => rw [offsetFrom_cons_zero, offsetFrom_cons_zero, if_neg hb, if_neg hb]
      | succ n =>
        rw [offsetFrom_cons_succ, offsetFrom_cons_succ, if_neg hb, if_neg hb, ih (by omega)]

/-! ### Texts side by side -/

/-- No character of one text goes on into another. -/
def Apart (s t : Text) : Prop := (nothing.afterText s).EndsBefore t

theorem apart_nil_right (s : Text) : Apart s [] := endsBefore_nil _

theorem width_of_lt {t : Text} (h : t.length < 2 ^ 31) : t.width = countFrom nothing t := by
  unfold width
  rw [scanned_of_lt h]

theorem offset_of_lt {t : Text} (h : t.length < 2 ^ 31) (n : Nat) :
    t.offset n = offsetFrom nothing n t := by
  unfold offset
  rw [scanned_of_lt h]

/-- A text of `2 ^ 31` bytes and more has no characters, as long as a word holds its size. -/
theorem width_uncounted {t : Text} (hlong : 2 ^ 31 ≤ t.length) (hlt : t.length < 2 ^ 32) :
    t.width = 0 := by
  have hword : word32 t.length = 0 := by
    unfold word32
    rw [Nat.mod_eq_of_lt hlt, if_neg (Nat.not_lt.mpr hlong)]
  unfold width scanned
  rw [hword]
  rfl

/-- The number of characters of two texts that are apart. -/
theorem countFrom_append_of_apart {s t : Text} (h : Apart s t) :
    countFrom nothing (s ++ t) = countFrom nothing s + countFrom nothing t := by
  rw [countFrom_append, countFrom_of_endsBefore h]

theorem width_append {s t : Text} (hlen : (s ++ t).length < 2 ^ 31) (h : Apart s t) :
    (s ++ t).width = s.width + t.width := by
  have hsum : (s ++ t).length = s.length + t.length := List.length_append
  rw [width_of_lt hlen, width_of_lt (by omega), width_of_lt (by omega),
    countFrom_append_of_apart h]

/-! ### Cuts -/

/-- The text without its first `n` characters. -/
def rest (t : Text) (n : Nat) : Text := t.drop (t.offset n)

theorem window_eq_takeFront_rest (t : Text) (start count : Nat) :
    t.window start count = (t.rest start).takeFront count := rfl

theorem takeFront_append_rest (t : Text) (n : Nat) : t.takeFront n ++ t.rest n = t :=
  List.take_append_drop (t.offset n) t

theorem length_rest_le (t : Text) (n : Nat) : (t.rest n).length ≤ t.length := by
  unfold rest
  rw [List.length_drop]
  omega

theorem length_takeFront_le (t : Text) (n : Nat) : (t.takeFront n).length ≤ t.length :=
  List.length_take_le' _ _

theorem apart_takeFront_rest {t : Text} (h : t.length < 2 ^ 31) (n : Nat) :
    Apart (t.takeFront n) (t.rest n) := by
  unfold takeFront rest
  rw [offset_of_lt h]
  exact endsBefore_drop_offsetFrom nothing n t

theorem width_takeFront {t : Text} (h : t.length < 2 ^ 31) (n : Nat) :
    (t.takeFront n).width = min n t.width := by
  have hle := length_takeFront_le t n
  rw [width_of_lt (by omega), width_of_lt h]
  unfold takeFront
  rw [offset_of_lt h]
  exact countFrom_take_offsetFrom nothing n t

theorem width_rest {t : Text} (h : t.length < 2 ^ 31) (n : Nat) :
    (t.rest n).width = t.width - n := by
  have hsplit := takeFront_append_rest t n
  have hwidth := width_append (s := t.takeFront n) (t := t.rest n) (by rw [hsplit]; exact h)
    (apart_takeFront_rest h n)
  rw [hsplit, width_takeFront h] at hwidth
  omega

/-- The last characters of a text are as many as are asked for. -/
theorem width_takeBack {t : Text} (h : t.length < 2 ^ 31) (n : Nat) :
    (t.takeBack n).width = min n t.width := by
  unfold takeBack
  split
  · omega
  · have hrest := width_rest h (t.width - n)
    unfold rest at hrest
    omega

theorem rest_zero {t : Text} (h : t.length < 2 ^ 31) : t.rest 0 = t := by
  unfold rest
  rw [offset_of_lt h, offsetFrom_zero (nothing_endsBefore t), List.drop_zero]

theorem rest_add {t : Text} (h : t.length < 2 ^ 31) (m n : Nat) :
    t.rest (m + n) = (t.rest m).rest n := by
  have hle := length_rest_le t m
  have hinner : (t.rest m).offset n = offsetFrom nothing n (t.rest m) := offset_of_lt (by omega) n
  have houter : t.rest m = t.drop (offsetFrom nothing m t) := by
    unfold rest
    rw [offset_of_lt h]
  calc t.rest (m + n)
      = t.drop (offsetFrom nothing m t + offsetFrom nothing n (t.rest m)) := by
        unfold rest
        rw [offset_of_lt h, offset_of_lt h, offsetFrom_add]
    _ = (t.rest m).drop (offsetFrom nothing n (t.rest m)) := by
        rw [← List.drop_drop, ← houter]
    _ = (t.rest m).rest n := by rw [← hinner]; rfl

theorem rest_append {s t : Text} (hlen : (s ++ t).length < 2 ^ 31) (h : Apart s t) :
    (s ++ t).rest s.width = t := by
  have hsum : (s ++ t).length = s.length + t.length := List.length_append
  have hoffset := offsetFrom_append h 0
  rw [Nat.add_zero, offsetFrom_zero (nothing_endsBefore t), Nat.add_zero] at hoffset
  unfold rest
  rw [offset_of_lt hlen, width_of_lt (by omega), hoffset, List.drop_left]

theorem takeFront_append {s t : Text} (hlen : (s ++ t).length < 2 ^ 31) (h : Apart s t) :
    (s ++ t).takeFront s.width = s := by
  have hsum : (s ++ t).length = s.length + t.length := List.length_append
  have hoffset := offsetFrom_append h 0
  rw [Nat.add_zero, offsetFrom_zero (nothing_endsBefore t), Nat.add_zero] at hoffset
  unfold takeFront
  rw [offset_of_lt hlen, width_of_lt (by omega), hoffset, List.take_left]

/-- **The window at a place where a text was put is that text.** -/
theorem window_append {before slot after : Text}
    (hlen : (before ++ (slot ++ after)).length < 2 ^ 31) (hbefore : Apart before (slot ++ after))
    (hafter : Apart slot after) :
    (before ++ (slot ++ after)).window before.width slot.width = slot := by
  have hsum : (before ++ (slot ++ after)).length = before.length + (slot ++ after).length :=
    List.length_append
  rw [window_eq_takeFront_rest, rest_append hlen hbefore, takeFront_append (by omega) hafter]

theorem countFrom_pos {t : Text} (hne : t ≠ []) : 0 < countFrom nothing t := by
  cases t with
  | nil => exact absurd rfl hne
  | cons b t =>
    rw [countFrom_cons, accepts_nothing]
    exact Nat.add_pos_left Nat.one_pos _

theorem width_eq_zero_iff {t : Text} (h : t.length < 2 ^ 31) : t.width = 0 ↔ t = [] := by
  constructor
  · intro hzero
    refine Classical.byContradiction fun hne => ?_
    have hpos := countFrom_pos hne
    rw [← width_of_lt h] at hpos
    omega
  · rintro rfl
    rfl

end Text

end RecordLayout
