import RecordLayout.Proofs.Text.Counting

/-!
# Windows of windows

A cut after some characters is found by reading up to it, so it stays where it is when the text is
cut off further behind.  Hence the first characters of a text can be cut again, and a window of a
window is a window of the text.  The bytes are arbitrary, and a window may reach over the end.

## Main results

* `Text.offsetFrom_take`: an offset does not depend on what is behind it.
* `Text.takeFront_takeFront`, `Text.rest_takeFront`: cuts of the first characters.
* `Text.window_window`: **a window of a window is a window of the text**.
* `Text.window_eq_take_drop`: a window consists of the bytes between two offsets.
* `Text.window_eq_nil_iff`: **a window is empty exactly if it begins behind the last character**.
-/

namespace RecordLayout

namespace Text

open Owed

variable {t : Text} {m n : Nat}

/-- **An offset does not depend on what is behind it.** -/
theorem offsetFrom_take (o : Owed) (h : m ≤ n) (t : Text) :
    offsetFrom o m (t.take (offsetFrom o n t)) = offsetFrom o m t := by
  induction t generalizing o m n with
  | nil => simp
  | cons b t ih =>
    by_cases hb : o.accepts b = true
    · have hstep (k : Nat) (u : Text) :
          offsetFrom o k (b :: u) = offsetFrom (o.next b) k u + 1 := by
        cases k with
        | zero => rw [offsetFrom_cons_zero, if_pos hb, Nat.add_comm]
        | succ k => rw [offsetFrom_cons_succ, if_pos hb, Nat.add_comm]
      rw [hstep, List.take_succ_cons, hstep, hstep, ih (o.next b) h]
    · cases m with
      | zero =>
        rw [offsetFrom_cons_zero, if_neg hb]
        apply offsetFrom_zero
        -- either nothing is left, or the first byte still begins a character
        cases hn : offsetFrom o n (b :: t) with
        | zero => exact endsBefore_nil o
        | succ k => exact endsBefore_cons.mpr (Bool.eq_false_iff.mpr hb)
      | succ m =>
        obtain ⟨n, rfl⟩ := Nat.exists_eq_add_of_lt h
        rw [show m + n + 1 = (m + n) + 1 from rfl, offsetFrom_cons_succ, if_neg hb, Nat.add_comm 1,
          List.take_succ_cons, offsetFrom_cons_succ, if_neg hb, offsetFrom_cons_succ, if_neg hb,
          ih (o.next b) (Nat.le_add_right m n)]

theorem offsetFrom_mono (o : Owed) (h : m ≤ n) (t : Text) :
    offsetFrom o m t ≤ offsetFrom o n t := by
  obtain ⟨k, rfl⟩ := Nat.exists_eq_add_of_le h
  rw [offsetFrom_add]
  exact Nat.le_add_right _ _

theorem takeFront_of_lt (h : t.length < 2 ^ 31) (n : Nat) :
    t.takeFront n = t.take (offsetFrom nothing n t) := by
  unfold takeFront
  rw [offset_of_lt h]

theorem rest_of_lt (h : t.length < 2 ^ 31) (n : Nat) :
    t.rest n = t.drop (offsetFrom nothing n t) := by
  unfold rest
  rw [offset_of_lt h]

/-- The first characters of the first characters. -/
theorem takeFront_takeFront (h : t.length < 2 ^ 31) (hmn : m ≤ n) :
    (t.takeFront n).takeFront m = t.takeFront m := by
  have hlen := length_takeFront_le t n
  rw [takeFront_of_lt (t := t.takeFront n) (by omega), takeFront_of_lt h n, takeFront_of_lt h m,
    offsetFrom_take nothing hmn, List.take_take, Nat.min_eq_left (offsetFrom_mono nothing hmn t)]

/-- What is left of the first characters are the first characters of what is left. -/
theorem rest_takeFront (h : t.length < 2 ^ 31) (hmn : m ≤ n) :
    (t.takeFront n).rest m = (t.rest m).takeFront (n - m) := by
  obtain ⟨k, rfl⟩ := Nat.exists_eq_add_of_le hmn
  have hlen := length_takeFront_le t (m + k)
  have hrest := length_rest_le t m
  rw [rest_of_lt (t := t.takeFront (m + k)) (by omega), takeFront_of_lt h (m + k),
    offsetFrom_take nothing hmn, takeFront_of_lt (t := t.rest m) (by omega), rest_of_lt h m,
    Nat.add_sub_cancel_left, offsetFrom_add, List.drop_take, Nat.add_sub_cancel_left]

/-- **A window of a window is a window of the text**, if it lies inside. -/
theorem window_window (h : t.length < 2 ^ 31) {start : Nat} (hle : start + m ≤ n) (first : Nat) :
    (t.window first n).window start m = t.window (first + start) m := by
  have hrest := length_rest_le t first
  have hrest' := length_rest_le (t.rest first) start
  rw [window_eq_takeFront_rest, window_eq_takeFront_rest, window_eq_takeFront_rest, rest_add h,
    rest_takeFront (t := t.rest first) (by omega) (by omega),
    takeFront_takeFront (t := (t.rest first).rest start) (by omega) (by omega)]

/-! ### Texts of any length -/

theorem length_scanned (t : Text) : (scanned t).length = word32 t.length := by
  have hle : word32 t.length ≤ t.length := by
    unfold word32
    split <;> omega
  unfold scanned
  rw [List.length_take, Nat.min_eq_left hle]

theorem width_le_countFrom (t : Text) : t.width ≤ countFrom nothing t := by
  have happend := countFrom_append nothing (scanned t) (t.drop (word32 t.length))
  rw [show scanned t ++ t.drop (word32 t.length) = t from List.take_append_drop _ t] at happend
  unfold width
  omega

/-- What is looked at of a text that goes on is what goes on of the part that is looked at. -/
theorem scanned_drop {t : Text} {n : Nat} (h : n ≤ (scanned t).length) :
    scanned (t.drop n) = (scanned t).drop n := by
  rw [length_scanned] at h
  have hword : word32 (t.drop n).length = word32 t.length - n := by
    rw [List.length_drop]
    unfold word32 at h ⊢
    split at h <;> split <;> omega
  unfold scanned
  rw [hword, List.drop_take]

theorem scanned_rest (t : Text) (m : Nat) :
    scanned (t.rest m) = (scanned t).drop (t.offset m) :=
  scanned_drop (offsetFrom_le nothing m (scanned t))

/-- An offset can be measured in two parts. -/
theorem offset_add (t : Text) (m n : Nat) :
    t.offset (m + n) = t.offset m + (t.rest m).offset n := by
  show offsetFrom nothing (m + n) (scanned t)
    = t.offset m + offsetFrom nothing n (scanned (t.rest m))
  rw [scanned_rest]
  exact offsetFrom_add nothing m n (scanned t)

theorem offset_mono (t : Text) (h : m ≤ n) : t.offset m ≤ t.offset n :=
  offsetFrom_mono nothing h (scanned t)

/-- A window consists of the bytes between two offsets. -/
theorem window_eq_take_drop (t : Text) (m n : Nat) :
    t.window m n = (t.drop (t.offset m)).take (t.offset (m + n) - t.offset m) := by
  rw [offset_add, Nat.add_sub_cancel_left]
  rfl

/-- Nothing is left behind the last character. -/
theorem drop_offset_eq_nil_iff (t : Text) (m : Nat) :
    (scanned t).drop (t.offset m) = [] ↔ t.width ≤ m := by
  have hcount : countFrom nothing ((scanned t).take (t.offset m)) = min m t.width :=
    countFrom_take_offsetFrom nothing m (scanned t)
  have happend := countFrom_append nothing ((scanned t).take (t.offset m))
    ((scanned t).drop (t.offset m))
  have happart : (nothing.afterText ((scanned t).take (t.offset m))).EndsBefore
      ((scanned t).drop (t.offset m)) := endsBefore_drop_offsetFrom nothing m (scanned t)
  rw [List.take_append_drop, countFrom_of_endsBefore happart, hcount] at happend
  have hwidth : t.width = countFrom nothing (scanned t) := rfl
  constructor
  · intro hnil
    rw [hnil, countFrom_nil] at happend
    omega
  · intro hle
    refine Classical.byContradiction fun hne => ?_
    have hpos := countFrom_pos hne
    omega

/-- A window that begins behind the last character is empty. -/
theorem window_eq_nil {t : Text} (h : t.width ≤ m) (n : Nat) : t.window m n = [] := by
  rw [window_eq_takeFront_rest]
  unfold takeFront offset
  rw [scanned_rest, (drop_offset_eq_nil_iff t m).mpr h, offsetFrom_nil, List.take_zero]

/-- **A window is empty exactly if it begins behind the last character.** -/
theorem window_eq_nil_iff (t : Text) (m : Nat) (hn : n ≠ 0) :
    t.window m n = [] ↔ t.width ≤ m := by
  refine ⟨fun hnil => ?_, fun h => window_eq_nil h n⟩
  rw [← drop_offset_eq_nil_iff, ← scanned_rest]
  obtain ⟨k, rfl⟩ := Nat.exists_eq_succ_of_ne_zero hn
  have hoffset : (t.rest m).offset (k + 1) = 0 := by
    have hlength := congrArg List.length hnil
    have hshort := offset_le (t.rest m) (k + 1)
    rw [window_eq_takeFront_rest] at hlength
    unfold takeFront at hlength
    rw [List.length_take, Nat.min_eq_left hshort] at hlength
    exact hlength
  cases hu : scanned (t.rest m) with
  | nil => rfl
  | cons b u =>
    unfold offset at hoffset
    rw [hu, offsetFrom_cons_succ, accepts_nothing] at hoffset
    simp at hoffset

end Text

end RecordLayout
