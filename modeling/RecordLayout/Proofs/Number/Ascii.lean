import RecordLayout.Number.Numeral

/-!
# Numerals are ASCII

Every numeral that is written, of an integer or of a floating-point number in either form, is made
of ASCII bytes.

## Main definitions

* `Text.IsAscii`: all bytes are below `0x80`.

## Main results

* `Text.isAscii_ofInt`, `Binary64.isAscii_general`, `Binary64.isAscii_fixed`.
-/

namespace RecordLayout

namespace Text

/-- All bytes are below `0x80`. -/
def IsAscii (t : Text) : Prop := ∀ b ∈ t, b < 0x80

instance (t : Text) : Decidable (IsAscii t) := inferInstanceAs (Decidable (∀ b ∈ t, b < 0x80))

theorem IsAscii.append {s t : Text} (hs : IsAscii s) (ht : IsAscii t) : IsAscii (s ++ t) := by
  intro b hb
  rcases List.mem_append.mp hb with hb | hb
  · exact hs b hb
  · exact ht b hb

theorem IsAscii.take {t : Text} (h : IsAscii t) (n : Nat) : IsAscii (t.take n) :=
  fun b hb => h b (List.mem_of_mem_take hb)

theorem IsAscii.drop {t : Text} (h : IsAscii t) (n : Nat) : IsAscii (t.drop n) :=
  fun b hb => h b (List.mem_of_mem_drop hb)

theorem isAscii_zeros (n : Nat) : IsAscii (zeros n) := by
  intro b hb
  rw [List.eq_of_mem_replicate hb]
  decide

theorem toNat_digit {d : Nat} (h : d < 10) : (digit d).toNat = 0x30 + d := by
  have hd : (UInt8.ofNat d).toNat = d := UInt8.toNat_ofNat_of_lt' (show d < 256 by omega)
  unfold digit
  rw [UInt8.toNat_add, hd]
  show (0x30 + d) % 256 = 0x30 + d
  omega

theorem isAscii_digit {d : Nat} (h : d < 10) : IsAscii [digit d] := by
  intro b hb
  rw [List.mem_singleton.mp hb, UInt8.lt_iff_toNat_lt, toNat_digit h]
  show 0x30 + d < 0x80
  omega

/-- What numerals have beside their digits is ASCII. -/
theorem isAscii_symbol : ∀ s ∈ [".", "0.", "e", "-", "+", "0", "nan", "inf"],
    IsAscii (ofString s) := by
  decide +kernel

theorem isAscii_minus : IsAscii (ofString "-") := isAscii_symbol "-" (by simp)

theorem isAscii_point : IsAscii (ofString ".") := isAscii_symbol "." (by simp)

theorem isAscii_ofNat (n : Nat) : IsAscii (ofNat n) := by
  fun_induction ofNat n with
  | case1 n h => exact isAscii_digit h
  | case2 n h ih => exact ih.append (isAscii_digit (Nat.mod_lt n (by decide)))

theorem isAscii_ofInt (i : Int) : IsAscii (ofInt i) := by
  unfold ofInt
  split
  · exact isAscii_minus.append (isAscii_ofNat _)
  · exact isAscii_ofNat _

end Text

open Text

namespace Decimal

theorem isAscii_plain (d : Decimal) : IsAscii d.plain := by
  have hdigits := isAscii_ofNat d.coefficient
  have hzero : IsAscii (ofString "0.") := isAscii_symbol _ (by simp)
  unfold plain
  dsimp only
  split
  · exact hdigits.append (isAscii_zeros _)
  split
  · exact ((hdigits.take _).append isAscii_point).append (hdigits.drop _)
  · exact (hzero.append (isAscii_zeros _)).append hdigits

theorem isAscii_scientific (d : Decimal) : IsAscii d.scientific := by
  have hdigits := isAscii_ofNat d.coefficient
  have hpower := isAscii_ofNat d.leading.natAbs
  have he : IsAscii (ofString "e") := isAscii_symbol _ (by simp)
  have hplus : IsAscii (ofString "+") := isAscii_symbol _ (by simp)
  have hzero : IsAscii (ofString "0") := isAscii_symbol _ (by simp)
  unfold scientific
  dsimp only
  refine IsAscii.append (IsAscii.append (IsAscii.append ?_ he) ?_) ?_
  · split
    · exact hdigits
    · exact ((hdigits.take _).append isAscii_point).append (hdigits.drop _)
  · split
    · exact isAscii_minus
    · exact hplus
  · split
    · exact hzero.append hpower
    · exact hpower

theorem isAscii_general (d : Decimal) : IsAscii d.general := by
  unfold general
  split
  · exact isAscii_plain d
  · exact isAscii_scientific d

end Decimal

namespace Binary64

theorem isAscii_signed {numeral : Text} (h : IsAscii numeral) (negative : Bool) :
    IsAscii (signed negative numeral) := by
  unfold signed
  split
  · exact isAscii_minus.append h
  · exact h

theorem isAscii_fixedUnits (units places : Nat) : IsAscii (fixedUnits units places) := by
  unfold fixedUnits
  dsimp only
  split
  · exact isAscii_ofNat _
  · exact ((((isAscii_ofNat _).append isAscii_point).append (isAscii_zeros _)).append
      (isAscii_ofNat _)).append (isAscii_zeros _)

/-- **The shortest numeral of a number is ASCII.** -/
theorem isAscii_general (x : Binary64) : IsAscii x.general := by
  unfold general
  split
  · exact isAscii_signed (isAscii_symbol "nan" (by simp)) _
  · exact isAscii_signed (isAscii_symbol "inf" (by simp)) _
  · exact isAscii_signed (isAscii_symbol "0" (by simp)) _
  · exact isAscii_signed (Decimal.isAscii_general _) _

/-- **A numeral with a fixed number of places is ASCII.** -/
theorem isAscii_fixed (x : Binary64) (places : Nat) : IsAscii (x.fixed places) := by
  unfold fixed
  split
  · exact isAscii_signed (isAscii_symbol "nan" (by simp)) _
  · exact isAscii_signed (isAscii_symbol "inf" (by simp)) _
  · exact isAscii_signed (isAscii_fixedUnits _ _) _

end Binary64

end RecordLayout
