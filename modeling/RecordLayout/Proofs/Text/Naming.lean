import RecordLayout.Number.Integer
import RecordLayout.Proofs.Number.Ascii
import RecordLayout.Text.Identifier

/-!
# Names that are given and names that are made

A name that may be declared is an identifier and not reserved, so there is no dot in it, and it is
not the name of a filler.  Fillers are numbered, and a numeral is read back as its number; so
fillers with different numbers have different names.

## Main definitions

* `Text.IsDeclarable`: a name that may be declared.

## Main results

* `Text.toNat?_ofNat`: **a numeral is read back as its number**.
* `Text.spacerName_injective`: **fillers with different numbers have different names**.
-/

namespace RecordLayout

namespace Text

/-! ### Numerals -/

theorem isDigit_digit {d : Nat} (h : d < 10) : isDigit (digit d) = true := by
  have hd := toNat_digit h
  have hlow : (0x30 : UInt8) ≤ digit d := by
    rw [UInt8.le_iff_toNat_le, hd]
    exact Nat.le_add_right 0x30 d
  have hhigh : digit d ≤ (0x39 : UInt8) := by
    rw [UInt8.le_iff_toNat_le, hd]
    show 0x30 + d ≤ 0x39
    omega
  simp [isDigit, hlow, hhigh]

theorem digitValue_digit {d : Nat} (h : d < 10) : digitValue (digit d) = d := by
  unfold digitValue
  rw [if_pos (isDigit_digit h), toNat_digit h]
  omega

theorem isDigit_of_mem_ofNat (n : Nat) : ∀ b ∈ ofNat n, isDigit b = true := by
  fun_induction ofNat n with
  | case1 n h =>
    intro b hb
    rw [List.mem_singleton.mp hb]
    exact isDigit_digit h
  | case2 n h ih =>
    intro b hb
    rcases List.mem_append.mp hb with hb | hb
    · exact ih b hb
    · rw [List.mem_singleton.mp hb]
      exact isDigit_digit (Nat.mod_lt n (by decide))

theorem value_ofNat (n : Nat) : value 10 (ofNat n) = n := by
  fun_induction ofNat n with
  | case1 n h => simp [value, digitValue_digit h]
  | case2 n h ih =>
    unfold value at ih ⊢
    rw [valueFrom_append, ih, valueFrom_cons, valueFrom_nil,
      digitValue_digit (Nat.mod_lt n (by decide))]
    omega

theorem ofNat_ne_nil (n : Nat) : ofNat n ≠ [] := by
  unfold ofNat
  split <;> simp

/-- **A numeral is read back as its number.** -/
theorem toNat?_ofNat (n : Nat) : toNat? (ofNat n) = some n := by
  have hdigits : (ofNat n).all isDigit = true := List.all_eq_true.mpr (isDigit_of_mem_ofNat n)
  unfold toNat?
  rw [if_pos (by simp [hdigits, ofNat_ne_nil]), value_ofNat]

theorem ofNat_injective : Function.Injective ofNat := by
  intro m n h
  have hread : toNat? (ofNat m) = toNat? (ofNat n) := congrArg toNat? h
  rw [toNat?_ofNat, toNat?_ofNat] at hread
  exact Option.some.inj hread

/-- **Fillers with different numbers have different names.** -/
theorem spacerName_injective : Function.Injective spacerName := fun _ _ h =>
  ofNat_injective (List.append_cancel_left h)

/-! ### Dots -/

theorem isWord_of_mem_of_isIdentifier {t : Text} (h : t.isIdentifier = true) :
    ∀ b ∈ t, isWord b = true := by
  intro b hb
  cases t with
  | nil => exact absurd hb List.not_mem_nil
  | cons c t =>
    unfold isIdentifier at h
    rw [Bool.and_eq_true, Bool.and_eq_true] at h
    rcases List.mem_cons.mp hb with rfl | hb
    · have hfirst := h.1.2
      unfold isWord
      rw [Bool.or_eq_true] at hfirst ⊢
      exact hfirst.imp (fun hletter => by rw [hletter]; rfl) id
    · exact List.all_eq_true.mp h.2 b hb

theorem dot_not_mem_of_isIdentifier {t : Text} (h : t.isIdentifier = true) :
    (0x2E : UInt8) ∉ t :=
  fun hdot => absurd (isWord_of_mem_of_isIdentifier h _ hdot) (by decide)

theorem dot_not_mem_spacerName (n : Nat) : (0x2E : UInt8) ∉ spacerName n := by
  have hstem : (0x2E : UInt8) ∉ spacerStem ++ "_" := by decide
  intro hdot
  rcases List.mem_append.mp hdot with hdot | hdot
  · exact hstem hdot
  · exact absurd (isDigit_of_mem_ofNat n _ hdot) (by decide)

/-! ### Names that may be declared -/

/-- A name that may be declared: an identifier that is not reserved. -/
structure IsDeclarable (t : Text) : Prop where
  identifier : t.isIdentifier = true
  free : t.isReserved = false

theorem IsDeclarable.dot_not_mem {t : Text} (h : t.IsDeclarable) : (0x2E : UInt8) ∉ t :=
  dot_not_mem_of_isIdentifier h.identifier

theorem IsDeclarable.ne_spacerName {t : Text} (h : t.IsDeclarable) (n : Nat) :
    t ≠ spacerName n := by
  rintro rfl
  exact absurd (h.free.symm.trans (isReserved_spacerName n)) (by simp)

end Text

end RecordLayout
