import RecordLayout.Column.Parse
import RecordLayout.Proofs.Text.Naming

/-!
# The grammar of integers

The numerals that are read as integers, by their form alone: digits, with a sign in front or without
one.  The reader of a column accepts these and no others, as long as the number fits a signed 64-bit
word.  No numeral of a number is shorter than the one that is written, so a part of a numeral is
never read as the same number.

## Main definitions

* `Text.Digits`: decimal digits and the number that they stand for.
* `Text.Numeral`: digits with or without a sign, and the integer that they stand for.

## Main results

* `Column.readInteger_eq_some_iff`: **the reader accepts exactly the numerals of 64-bit integers**.
* `Text.numeral_ofInt`, `Text.Numeral.length_le`: the shortest numeral of an integer is the one that
  is written.
-/

namespace RecordLayout

namespace Text

variable {t u : Text} {n : Nat} {i j : Int}

/-- One digit or more, and the number that they stand for. -/
inductive Digits : Text → Nat → Prop
  | one {d : Nat} (hd : d < 10) : Digits [digit d] d
  | more {t : Text} {n d : Nat} (h : Digits t n) (hd : d < 10) :
    Digits (t ++ [digit d]) (10 * n + d)

/-- Digits that may have one sign in front, and the integer that they stand for. -/
inductive Numeral : Text → Int → Prop
  | plain {t : Text} {n : Nat} (h : Digits t n) : Numeral t n
  | plus {t : Text} {n : Nat} (h : Digits t n) : Numeral (0x2B :: t) n
  | minus {t : Text} {n : Nat} (h : Digits t n) : Numeral (0x2D :: t) (-n)

/-! ### Digits -/

/-- A digit is the numeral of its value. -/
theorem digit_digitValue {b : UInt8} (h : isDigit b = true) :
    digit (digitValue b) = b ∧ digitValue b < 10 := by
  have hvalue : digitValue b = b.toNat - 0x30 := if_pos h
  simp only [isDigit, Bool.and_eq_true, decide_eq_true_eq, UInt8.le_iff_toNat_le] at h
  have hlow : 0x30 ≤ b.toNat := h.1
  have hhigh : b.toNat ≤ 0x39 := h.2
  have hlt : digitValue b < 10 := by omega
  refine ⟨?_, hlt⟩
  rw [← UInt8.toNat_inj, toNat_digit hlt]
  omega

theorem Digits.all (h : Digits t n) : ∀ b ∈ t, isDigit b = true := by
  induction h with
  | one hd =>
    intro b hb
    rw [List.mem_singleton.mp hb]
    exact isDigit_digit hd
  | more _ hd ih =>
    intro b hb
    rcases List.mem_append.mp hb with hb | hb
    · exact ih b hb
    · rw [List.mem_singleton.mp hb]
      exact isDigit_digit hd

theorem Digits.ne_nil (h : Digits t n) : t ≠ [] := by
  cases h <;> simp

theorem Digits.value_eq (h : Digits t n) : value 10 t = n := by
  induction h with
  | one hd => simp [value, digitValue_digit hd]
  | more _ hd ih =>
    unfold value at ih ⊢
    rw [valueFrom_append, ih, valueFrom_cons, valueFrom_nil, digitValue_digit hd]
    omega

/-- Digits after digits are digits. -/
theorem Digits.append (h : Digits t n) (hu : ∀ b ∈ u, isDigit b = true) :
    Digits (t ++ u) (valueFrom 10 n u) := by
  induction u generalizing t n with
  | nil => simpa using h
  | cons b u ih =>
    obtain ⟨hdigit, hlt⟩ := digit_digitValue (hu b List.mem_cons_self)
    have hmore := h.more hlt
    rw [hdigit] at hmore
    have hrest := ih hmore fun c hc => hu c (List.mem_cons_of_mem b hc)
    rw [valueFrom_cons, Nat.mul_comm n 10]
    simpa using hrest

/-- **Digits are read as the number that they stand for**, and nothing else is read. -/
theorem toNat?_eq_some_iff : toNat? t = some n ↔ Digits t n := by
  unfold toNat?
  constructor
  · intro h
    cases t with
    | nil => simp at h
    | cons b t =>
      split at h
      · next hall =>
        have hdigits : ∀ c ∈ b :: t, isDigit c = true := by simpa using hall
        obtain ⟨hdigit, hlt⟩ := digit_digitValue (hdigits b List.mem_cons_self)
        have hone := Digits.one hlt
        rw [hdigit] at hone
        have hrest := hone.append fun c hc => hdigits c (List.mem_cons_of_mem b hc)
        rw [← Option.some.inj h]
        simpa [value] using hrest
      · exact absurd h (by simp)
  · intro h
    have hall : (!t.isEmpty && t.all isDigit) = true := by
      simpa [h.ne_nil] using h.all
    rw [if_pos hall, h.value_eq]

/-- A numeral without a sign begins with a digit. -/
theorem Digits.isDigit_head {b : UInt8} (h : Digits (b :: t) n) : isDigit b = true :=
  h.all b List.mem_cons_self

theorem not_digits_plus : ¬ Digits (0x2B :: t) n := fun h => absurd h.isDigit_head (by decide)

theorem not_digits_minus : ¬ Digits (0x2D :: t) n := fun h => absurd h.isDigit_head (by decide)

/-! ### Signs -/

theorem numeral_plus_iff : Numeral (0x2B :: t) i ↔ ∃ n : Nat, Digits t n ∧ i = n := by
  constructor
  · intro h
    cases h with
    | plain h => exact absurd h not_digits_plus
    | plus h => exact ⟨_, h, rfl⟩
  · rintro ⟨n, h, rfl⟩
    exact .plus h

theorem numeral_minus_iff : Numeral (0x2D :: t) i ↔ ∃ n : Nat, Digits t n ∧ i = -n := by
  constructor
  · intro h
    cases h with
    | plain h => exact absurd h not_digits_minus
    | minus h => exact ⟨_, h, rfl⟩
  · rintro ⟨n, h, rfl⟩
    exact .minus h

theorem numeral_plain_iff (hplus : ∀ u, t ≠ 0x2B :: u) (hminus : ∀ u, t ≠ 0x2D :: u) :
    Numeral t i ↔ ∃ n : Nat, Digits t n ∧ i = n := by
  constructor
  · intro h
    cases h with
    | plain h => exact ⟨_, h, rfl⟩
    | plus h => exact absurd rfl (hplus _)
    | minus h => exact absurd rfl (hminus _)
  · rintro ⟨n, h, rfl⟩
    exact .plain h

/-! ### Words -/

theorem inInt64_eq_some_iff {w : Int64} : inInt64 i = some w ↔ w.toInt = i := by
  unfold inInt64
  constructor
  · intro h
    split at h
    · next hrange =>
      rw [← Option.some.inj h, Int64.toInt_ofInt_of_le (by omega) (by omega)]
    · exact absurd h (by simp)
  · rintro rfl
    have hlow := w.le_toInt
    have hhigh := w.toInt_lt
    rw [if_pos ⟨hlow, hhigh⟩, Int64.ofInt_toInt]

theorem toInt64?_plain {w : Int64} (hminus : ∀ u, t ≠ 0x2D :: u) :
    toInt64? t = some w ↔ ∃ n : Nat, Digits t n ∧ w.toInt = n := by
  rw [toInt64?_eq]
  split
  · exact absurd rfl (hminus _)
  · simp only [Option.bind_eq_some_iff, toNat?_eq_some_iff, inInt64_eq_some_iff]

theorem toInt64?_minus {w : Int64} :
    toInt64? (0x2D :: t) = some w ↔ ∃ n : Nat, Digits t n ∧ w.toInt = -n := by
  rw [toInt64?_eq]
  simp only [Option.bind_eq_some_iff, toNat?_eq_some_iff, inInt64_eq_some_iff]

/-! ### Numerals that are written -/

theorem digits_ofNat (n : Nat) : Digits (ofNat n) n := toNat?_eq_some_iff.mp (toNat?_ofNat n)

theorem numeral_ofInt (i : Int) : Numeral (ofInt i) i := by
  unfold ofInt
  split
  · next h =>
    have habs : i = -(i.natAbs : Int) := by omega
    conv => rhs; rw [habs]
    exact .minus (digits_ofNat _)
  · next h =>
    have habs : i = (i.natAbs : Int) := by omega
    conv => rhs; rw [habs]
    exact .plain (digits_ofNat _)

theorem ofInt_natCast (n : Nat) : ofInt n = ofNat n := by
  unfold ofInt
  rw [if_neg (by omega), Int.natAbs_natCast]

/-- No digits of a number are fewer than those that are written. -/
theorem Digits.length_le (h : Digits t n) : (ofNat n).length ≤ t.length := by
  induction h with
  | @one d hd =>
    have hone : ofNat d = [digit d] := by rw [ofNat, if_pos hd]
    exact Nat.le_of_eq (congrArg List.length hone)
  | @more t n d _ hd ih =>
    rw [ofNat]
    split
    · simp
    · have hten : (10 * n + d) / 10 = n := by omega
      simp only [List.length_append, List.length_singleton, hten]
      omega

/-- **No numeral of an integer is shorter than the one that is written.** -/
theorem Numeral.length_le (h : Numeral t i) : (ofInt i).length ≤ t.length := by
  cases h with
  | plain h =>
    rw [ofInt_natCast]
    exact h.length_le
  | plus h =>
    rw [ofInt_natCast]
    exact Nat.le_succ_of_le h.length_le
  | @minus t n h =>
    have hle := h.length_le
    have hminus : (ofString "-").length = 1 := by decide
    unfold ofInt
    rw [Int.natAbs_neg, Int.natAbs_natCast, List.length_cons]
    split
    · rw [List.length_append]
      omega
    · omega

/-- There is no space in a numeral. -/
theorem not_mem_space_ofInt (i : Int) : 0x20 ∉ ofInt i := by
  have hdigits : (0x20 : UInt8) ∉ ofNat i.natAbs := fun h =>
    absurd (isDigit_of_mem_ofNat _ _ h) (by decide)
  have hminus : (0x20 : UInt8) ∉ ofString "-" := by decide
  unfold ofInt
  split
  · intro h
    exact (List.mem_append.mp h).elim hminus hdigits
  · exact hdigits

theorem ofInt_ne_nil (i : Int) : ofInt i ≠ [] := by
  unfold ofInt
  split
  · simp [ofNat_ne_nil]
  · exact ofNat_ne_nil _

end Text

namespace Column

open Text

/-- **The reader of a column accepts exactly the numerals of 64-bit integers.** -/
theorem readInteger_eq_some_iff {t : Text} {w : Int64} :
    readInteger t = some w ↔ Numeral t w.toInt := by
  unfold readInteger
  split
  · next digits =>
    -- a minus sign after a plus sign
    rw [numeral_plus_iff]
    refine iff_of_false (by simp) ?_
    rintro ⟨n, h, -⟩
    exact not_digits_minus h
  · next digits hnot =>
    rw [numeral_plus_iff, toInt64?_plain]
    rintro u rfl
    exact hnot u rfl
  · next hnot =>
    cases t with
    | nil => rw [numeral_plain_iff (by simp) (by simp), toInt64?_plain (by simp)]
    | cons b t =>
      have hplus : b ≠ 0x2B := by
        rintro rfl
        exact hnot t rfl
      by_cases hminus : b = 0x2D
      · subst hminus
        rw [numeral_minus_iff, toInt64?_minus]
      · have hplain : ∀ u, b :: t ≠ 0x2D :: u := by simp [hminus]
        rw [numeral_plain_iff (by simp [hplus]) hplain, toInt64?_plain hplain]

end Column

end RecordLayout
