import RecordLayout.Text.Basic

/-!
# Decimal integers in a text

The numeral of an integer that fits a signed 64-bit word: digits, with a minus sign in front of a
negative one.  The whole text has to be the numeral; leading zeros are allowed.

## Main definitions

* `Text.digitValue`, `Text.value`: the number that digits stand for in a base.
* `Text.significant`: digits without the zeros in front.
* `Text.toNat?`, `Text.toInt64?`: readers of a whole text.
-/

namespace RecordLayout

namespace Text

/-- The value of a digit or a letter as a digit of a base up to 36. -/
def digitValue (b : UInt8) : Nat :=
  if isDigit b then b.toNat - 0x30
  else if isLower b then b.toNat - 0x61 + 10
  else if isUpper b then b.toNat - 0x41 + 10
  else 0

/-- The number that digits stand for, after digits that stand for `high`. -/
def valueFrom (base high : Nat) (digits : Text) : Nat :=
  digits.foldl (fun n b => n * base + digitValue b) high

/-- The number that digits stand for in a base. -/
def value (base : Nat) (digits : Text) : Nat := valueFrom base 0 digits

@[simp] theorem valueFrom_nil (base high : Nat) : valueFrom base high [] = high := rfl

@[simp] theorem valueFrom_cons (base high : Nat) (b : UInt8) (t : Text) :
    valueFrom base high (b :: t) = valueFrom base (high * base + digitValue b) t := rfl

theorem valueFrom_append (base high : Nat) (s t : Text) :
    valueFrom base high (s ++ t) = valueFrom base (valueFrom base high s) t := by
  simp [valueFrom]

/-- The natural number that a text of decimal digits stands for. -/
def toNat? (t : Text) : Option Nat :=
  if !t.isEmpty && t.all isDigit then some (value 10 t) else none

/-- Digits without the zeros in front of them. -/
def significant (digits : Text) : Text := digits.dropWhile (· == 0x30)

/-- The natural number that a text of decimal digits stands for, if it has at most `size` digits
from its first one that is not zero. -/
def toNatWithin? (size : Nat) (t : Text) : Option Nat :=
  if (significant t).length ≤ size then toNat? t else none

/-- The word that holds an integer, if one does. -/
def inInt64 (i : Int) : Option Int64 :=
  if -2 ^ 63 ≤ i ∧ i < 2 ^ 63 then some (Int64.ofInt i) else none

/-- The 64-bit integer that a text stands for: decimal digits, after a minus sign or without, of a
value in range.  No more than 19 digits are in range. -/
def toInt64? (t : Text) : Option Int64 :=
  match t with
  | 0x2D :: digits => (toNatWithin? 19 digits).bind fun n => inInt64 (-(n : Int))
  | digits => (toNatWithin? 19 digits).bind fun n => inInt64 n

/-! ### Digits in front -/

theorem valueFrom_eq (base high : Nat) (t : Text) :
    valueFrom base high t = high * base ^ t.length + value base t := by
  induction t generalizing high with
  | nil => simp [value]
  | cons b t ih =>
    have hvalue : value base (b :: t) = valueFrom base (digitValue b) t := by
      simp [value]
    rw [valueFrom_cons, hvalue, ih, ih (digitValue b), List.length_cons, Nat.pow_succ]
    grind

theorem value_significant (base : Nat) (t : Text) : value base (significant t) = value base t := by
  induction t with
  | nil => rfl
  | cons b t ih =>
    by_cases hb : b = 0x30
    · subst hb
      have hdrop : significant (0x30 :: t) = significant t := rfl
      have hcons : value base (0x30 :: t) = value base t := by
        have hzero : digitValue 0x30 = 0 := rfl
        simp [value, hzero]
      rw [hdrop, hcons, ih]
    · have hdrop : significant (b :: t) = b :: t := by
        simp [significant, hb]
      rw [hdrop]

theorem pow_le_value {t : Text} {b : UInt8} {rest : Text} (hdigits : t.all isDigit = true)
    (h : significant t = b :: rest) : 10 ^ rest.length ≤ value 10 t := by
  have hmem : b ∈ t := (List.dropWhile_sublist _).subset (h ▸ List.mem_cons_self)
  have hdigit : isDigit b = true := List.all_eq_true.1 hdigits b hmem
  have hne : b ≠ 0x30 := by
    intro hb
    have hhead := List.head?_dropWhile_not (· == (0x30 : UInt8)) t
    unfold significant at h
    rw [h] at hhead
    simp [hb] at hhead
  have hpos : 1 ≤ digitValue b := by
    unfold digitValue
    rw [if_pos hdigit]
    simp only [isDigit, Bool.and_eq_true, decide_eq_true_eq] at hdigit
    have hlow : (0x30 : UInt8).toNat ≤ b.toNat := UInt8.le_iff_toNat_le.1 hdigit.1
    have hdiff : b.toNat ≠ (0x30 : UInt8).toNat := fun heq => hne (UInt8.toNat_inj.1 heq)
    have h48 : (0x30 : UInt8).toNat = 0x30 := rfl
    omega
  have hvalue : value 10 (b :: rest) = digitValue b * 10 ^ rest.length + value 10 rest := by
    rw [value, valueFrom_cons, valueFrom_eq]
    simp
  have hle := Nat.mul_le_mul_right (10 ^ rest.length) hpos
  rw [← value_significant, h, hvalue]
  omega

/-- A number of more than `size` digits is at least `10 ^ size`. -/
theorem pow_le_of_toNat? {size n : Nat} {t : Text} (h : toNat? t = some n)
    (hsize : size < (significant t).length) : 10 ^ size ≤ n := by
  unfold toNat? at h
  split at h
  · rename_i hd
    have hdigits : t.all isDigit = true := by
      cases hall : t.all isDigit <;> simp [hall] at hd ⊢
    rw [← Option.some.inj h]
    cases hsig : significant t with
    | nil => simp [hsig] at hsize
    | cons b rest =>
      rw [hsig, List.length_cons] at hsize
      exact Nat.le_trans (Nat.pow_le_pow_right (by omega) (by omega)) (pow_le_value hdigits hsig)
  · exact absurd h (by simp)

/-- A number of more than 19 digits is in range with neither sign. -/
theorem bind_toNatWithin? {α : Type} (f : Nat → Option α) (hf : ∀ n, 10 ^ 19 ≤ n → f n = none)
    (t : Text) : (toNatWithin? 19 t).bind f = (toNat? t).bind f := by
  unfold toNatWithin?
  split
  · rfl
  · rename_i hsize
    cases ht : toNat? t with
    | none => rfl
    | some n => exact (hf n (pow_le_of_toNat? ht (by omega))).symm

theorem inInt64_eq_none {i : Int} (h : i < -2 ^ 63 ∨ 2 ^ 63 ≤ i) : inInt64 i = none := by
  unfold inInt64
  rw [if_neg (by omega)]

/-- The limit on digits refuses no number that is in range. -/
theorem toInt64?_eq (t : Text) :
    toInt64? t
      = match t with
        | 0x2D :: digits => (toNat? digits).bind fun n => inInt64 (-(n : Int))
        | digits => (toNat? digits).bind fun n => inInt64 n := by
  unfold toInt64?
  split
  · exact bind_toNatWithin? _ (fun n hn => inInt64_eq_none (by omega)) _
  · exact bind_toNatWithin? _ (fun n hn => inInt64_eq_none (by omega)) _

end Text

end RecordLayout
