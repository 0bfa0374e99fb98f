import RecordLayout.Proofs.Text.WellFormed

/-!
# Seams

Where two texts meet, the second may begin with bytes that the first still owes.  Those bytes then
go on with a character instead of beginning one, so the whole has fewer characters than the two
texts; it has as many as both exactly where the texts are apart.  A text of one character, however
malformed, is apart from a copy of itself, so its copies always add up, and it has four bytes at
most.

## Main definitions

* `Text.IsCharacter`: a text of one character.

## Main results

* `Text.countFrom_append_le`, `Text.countFrom_append_eq_iff`: characters at a seam.
* `Text.IsCharacter.countFrom_copies`: copies of a character count one by one.
* `Text.IsCharacter.apart_copies_iff`, `Text.IsCharacter.copies_apart_iff`: copies meet a text as a
  single one does.
* `Text.length_le_countFrom`, `Text.countFrom_le_length`: a character has one byte to four.
-/

namespace RecordLayout

namespace Text

open Owed

variable {o : Owed} {s t pad : Text}

/-! ### Bytes that may be owed -/

/-- Only trail bytes are owed after a text. -/
theorem afterText_nothing_bounds (t : Text) :
    0x80 ≤ (nothing.afterText t).least ∧ (nothing.afterText t).greatest ≤ 0xBF :=
  afterText_bounds ⟨by decide, by decide⟩ t

/-- A byte that may be owed begins no character that owes more. -/
theorem afterLead_of_accepts (ho : 0x80 ≤ o.least ∧ o.greatest ≤ 0xBF) {b : UInt8}
    (hb : o.accepts b = true) : afterLead b = nothing := by
  unfold accepts at hb
  rw [Bool.and_eq_true, decide_eq_true_eq] at hb
  have hlt : b < 0xC2 := UInt8.lt_of_le_of_lt (UInt8.le_trans hb.2 ho.2) (by decide)
  unfold afterLead
  rw [if_pos hlt]

theorem next_bounds (ho : 0x80 ≤ o.least ∧ o.greatest ≤ 0xBF) (b : UInt8) :
    0x80 ≤ (o.next b).least ∧ (o.next b).greatest ≤ 0xBF :=
  afterText_bounds ho [b]

/-- No more characters begin in a text after one that owes something. -/
theorem countFrom_le (ho : 0x80 ≤ o.least ∧ o.greatest ≤ 0xBF) :
    countFrom o t ≤ countFrom nothing t := by
  induction t generalizing o with
  | nil => exact Nat.le_refl 0
  | cons b t ih =>
    rw [countFrom_cons, countFrom_cons, accepts_nothing, next_nothing]
    by_cases hb : o.accepts b = true
    · rw [if_pos hb, afterLead_of_accepts ho hb]
      have := ih (next_bounds ho b)
      omega
    · rw [next_of_not_accepts (Bool.eq_false_iff.mpr hb), next_nothing, if_neg hb]
      exact Nat.le_refl _

/-- As many begin as between characters only if no byte of the text is owed. -/
theorem countFrom_eq_iff (ho : 0x80 ≤ o.least ∧ o.greatest ≤ 0xBF) :
    countFrom o t = countFrom nothing t ↔ o.EndsBefore t := by
  refine ⟨fun h => ?_, countFrom_of_endsBefore⟩
  cases t with
  | nil => exact endsBefore_nil o
  | cons b t =>
    refine endsBefore_cons.mpr (Bool.eq_false_iff.mpr fun hb => ?_)
    -- the byte would be a character of its own between characters
    have hle := countFrom_le (t := t) (next_bounds ho b)
    rw [countFrom_cons, countFrom_cons, if_pos hb, accepts_nothing, next_nothing,
      afterLead_of_accepts ho hb] at h
    simp only [Bool.false_eq_true, if_false] at h
    omega

/-! ### Characters at a seam -/

theorem countFrom_append_le (s t : Text) :
    countFrom nothing (s ++ t) ≤ countFrom nothing s + countFrom nothing t := by
  rw [countFrom_append]
  exact Nat.add_le_add_left (countFrom_le (afterText_nothing_bounds s)) _

/-- **Two texts have as many characters together as each has alone exactly if they are apart.** -/
theorem countFrom_append_eq_iff :
    countFrom nothing (s ++ t) = countFrom nothing s + countFrom nothing t ↔ Apart s t := by
  rw [countFrom_append, Nat.add_left_cancel_iff]
  exact countFrom_eq_iff (afterText_nothing_bounds s)

/-- What is owed after a text that begins with a character does not depend on what was before. -/
theorem afterText_of_endsBefore (h : o.EndsBefore t) (hne : t ≠ []) :
    o.afterText t = nothing.afterText t := by
  cases t with
  | nil => exact absurd rfl hne
  | cons b t => rw [afterText_cons, afterText_cons, next_of_not_accepts (endsBefore_cons.mp h)]

/-- How a text meets another depends on the first byte of the other only. -/
theorem apart_append_iff (hne : t ≠ []) (u : Text) : Apart s (t ++ u) ↔ Apart s t := by
  cases t with
  | nil => exact absurd rfl hne
  | cons b t => exact endsBefore_cons.trans endsBefore_cons.symm

/-- A character has four bytes at most, and fewer by those that are still owed. -/
theorem length_le_countFrom_add (ho : o.more ≤ 3) : t.length ≤ 4 * countFrom o t + o.more := by
  induction t generalizing o with
  | nil => exact Nat.zero_le _
  | cons b t ih =>
    rw [countFrom_cons, List.length_cons]
    by_cases hb : o.accepts b = true
    · have hnext : (o.next b).more = o.more - 1 := by
        unfold next
        rw [if_pos hb]
      have hpos : o.more ≠ 0 := by
        intro hzero
        simp [accepts, hzero] at hb
      have := ih (o := o.next b) (by omega)
      rw [if_pos hb]
      omega
    · have hlead : (afterLead b).more ≤ 3 := by
        unfold afterLead
        repeat' split
        all_goals decide
      rw [if_neg hb, next_of_not_accepts (Bool.eq_false_iff.mpr hb), next_nothing]
      have := ih hlead
      omega

theorem length_le_countFrom (t : Text) : t.length ≤ 4 * countFrom nothing t :=
  length_le_countFrom_add (o := nothing) (by decide)

/-- Every character has a byte. -/
theorem countFrom_le_length (o : Owed) (t : Text) : countFrom o t ≤ t.length := by
  induction t generalizing o with
  | nil => exact Nat.le_refl 0
  | cons b t ih =>
    have := ih (o.next b)
    rw [countFrom_cons, List.length_cons]
    split <;> omega

theorem width_le_length (t : Text) : t.width ≤ t.length :=
  Nat.le_trans (countFrom_le_length nothing _) (List.length_take_le' _ _)

/-- No more characters are counted than a signed 32-bit word holds. -/
theorem width_lt (t : Text) : t.width < 2 ^ 31 := by
  have hcount : t.width ≤ (scanned t).length := countFrom_le_length nothing (scanned t)
  have htake : (scanned t).length ≤ word32 t.length := List.length_take_le _ _
  unfold word32 at htake
  split at htake <;> omega

/-! ### One character -/

/-- A text of one character, well-formed or not. -/
def IsCharacter (t : Text) : Prop := countFrom nothing t = 1

/-- A text that is counted as one character is one, unless a word does not hold its size. -/
theorem isCharacter_of_width (h : t.width = 1) (hlen : t.length < 2 ^ 32) : t.IsCharacter := by
  rcases Nat.lt_or_ge t.length (2 ^ 31) with hshort | hlong
  · rw [width_of_lt hshort] at h
    exact h
  · have hzero := width_uncounted hlong hlen
    omega

namespace IsCharacter

variable (hpad : pad.IsCharacter)

include hpad

theorem ne_nil : pad ≠ [] := by
  rintro rfl
  exact absurd (show countFrom nothing [] = 1 from hpad) (by decide)

theorem length_le : pad.length ≤ 4 := by
  have hle := length_le_countFrom pad
  rwa [show countFrom nothing pad = 1 from hpad] at hle

/-- A character is apart from a copy of itself: if its first byte may be owed, it is all of it. -/
theorem apart_self : Apart pad pad := by
  cases pad with
  | nil => exact apart_nil_right []
  | cons b u =>
    refine endsBefore_cons.mpr (Bool.eq_false_iff.mpr fun hb => ?_)
    have hlead := afterLead_of_accepts (afterText_nothing_bounds (b :: u)) hb
    have hcount : countFrom nothing (b :: u) = 1 + countFrom nothing u := by
      rw [countFrom_cons, accepts_nothing, next_nothing, hlead]
      rfl
    have hnil : u = [] := by
      refine Classical.byContradiction fun hne => ?_
      have hpos := countFrom_pos hne
      have hone : countFrom nothing (b :: u) = 1 := hpad
      omega
    rw [hnil, afterText_cons, next_nothing, hlead, afterText_nil, accepts_nothing] at hb
    exact Bool.false_ne_true hb

theorem apart_copies (n : Nat) : Apart pad (pad.copies n) := by
  cases n with
  | zero => exact apart_nil_right pad
  | succ n =>
    rw [copies_succ]
    exact (apart_append_iff hpad.ne_nil _).mpr hpad.apart_self

/-- **Copies of a character count one by one.** -/
theorem countFrom_copies (n : Nat) : countFrom nothing (pad.copies n) = n := by
  induction n with
  | zero => rfl
  | succ n ih =>
    rw [copies_succ, countFrom_append_of_apart (hpad.apart_copies n), ih,
      show countFrom nothing pad = 1 from hpad, Nat.add_comm]

theorem width_copies {n : Nat} (hn : 4 * n < 2 ^ 31) : (pad.copies n).width = n := by
  have hfour : (pad.copies n).length ≤ n * 4 := by
    rw [length_copies]
    exact Nat.mul_le_mul_left n hpad.length_le
  rw [width_of_lt (by omega), hpad.countFrom_copies]

/-- A text meets copies of a character as it meets one. -/
theorem apart_copies_iff {n : Nat} (hn : n ≠ 0) : Apart t (pad.copies n) ↔ Apart t pad := by
  obtain ⟨n, rfl⟩ := Nat.exists_eq_succ_of_ne_zero hn
  rw [copies_succ]
  exact apart_append_iff hpad.ne_nil _

/-- What is owed after copies of a character is owed after one. -/
theorem afterText_copies {n : Nat} (hn : n ≠ 0) :
    nothing.afterText (pad.copies n) = nothing.afterText pad := by
  obtain ⟨n, rfl⟩ := Nat.exists_eq_succ_of_ne_zero hn
  induction n with
  | zero => rw [copies_succ, copies_zero, List.append_nil]
  | succ n ih =>
    have hends : (nothing.afterText pad).EndsBefore (pad.copies (n + 1)) := hpad.apart_copies _
    have hne : pad.copies (n + 1) ≠ [] := by
      rw [copies_succ]
      exact List.append_ne_nil_of_left_ne_nil hpad.ne_nil _
    rw [copies_succ, afterText_append, afterText_of_endsBefore hends hne, ih n.succ_ne_zero]

/-- Copies of a character meet a text as one does. -/
theorem copies_apart_iff {n : Nat} (hn : n ≠ 0) : Apart (pad.copies n) t ↔ Apart pad t := by
  unfold Apart
  rw [hpad.afterText_copies hn]

end IsCharacter

/-- Copies of a padding that is counted as one character are as wide as they are many, if they are
not too long to be counted. -/
theorem countFrom_copies_of_width (hone : pad.width = 1) {n : Nat}
    (hlen : (pad.copies n).length < 2 ^ 31) : countFrom nothing (pad.copies n) = n := by
  rcases Nat.eq_zero_or_pos n with rfl | hpos
  · rfl
  · have hle : pad.length ≤ n * pad.length := Nat.le_mul_of_pos_left _ hpos
    rw [length_copies] at hlen
    exact (isCharacter_of_width hone (by omega)).countFrom_copies n

end Text

end RecordLayout
