import RecordLayout.Proofs.Column.Integers

/-!
# Values that come back

A text or an integer is written with the padding beside it, and read back by taking the padding
off.  What can go wrong is that the text itself has a copy of the padding there, which comes off
too; and that the slot is blank, where blank slots are read as nothing.  A text is lost in both
cases.  Of the integers only zero survives the first one, because a slot of which nothing is left
holds zero; every other numeral gets shorter, and a shorter text is no numeral of the same integer.

## Main results

* `Column.parseNumber_stripped_iff`: what becomes of a numeral that is stripped.
* `Column.Fills.parse_beside_text_iff`: which texts are read back from beside the padding.
* `Column.Fills.parse_beside_integer_iff`: which integers are.
* `Column.Fills.parse_format_iff`: **which texts and integers come back from a column**.
* `Column.parse_format_overlong`: a blank text that comes back all the same.
-/

namespace RecordLayout

open Text

namespace Text

variable {pad t : Text} {i : Int}

theorem ofInt_zero : ofInt 0 = [0x30] := by
  rw [show (0 : Int) = (0 : Nat) from rfl, ofInt_natCast, ofNat, if_pos (by decide)]
  rfl

/-- The numeral of zero is blank only where zeros fill up. -/
theorem blank_zero_iff (hpad : pad ≠ []) : Blank pad (ofInt 0) ↔ pad = "0" := by
  rw [ofInt_zero, show ofString "0" = [0x30] by decide]
  constructor
  · intro h
    rcases h.begins (by simp) with hprefix | hhead
    · rcases List.prefix_cons_iff.mp hprefix with hnil | ⟨u, hu, hrest⟩
      · exact absurd hnil hpad
      · rw [hu, List.prefix_nil.mp hrest]
    · exact absurd hhead (by decide)
  · rintro rfl
    exact Blank.nil.copy

/-- A numeral that is blank bears the padding at either side. -/
theorem Blank.bears_ofInt (h : Blank pad (ofInt i)) (left : Bool) : Bears left pad (ofInt i) :=
  h.bears (ofInt_ne_nil i) (not_mem_space_ofInt i) left

/-- A shorter text is no numeral of the same integer. -/
theorem not_numeral_of_length_lt (h : t.length < (ofInt i).length) : ¬ Numeral t i :=
  fun hnumeral => Nat.not_lt.mpr hnumeral.length_le h

end Text

namespace Column

variable {c : Column} {left : Bool} {pad : Text}

/-- What is left of a numeral when the padding comes off is read as its integer if nothing came off,
or if the integer is zero; in a slot that has more than spaces. -/
theorem parseNumber_stripped_iff (hpad : pad ≠ []) {raw : Text} (hraw : ¬ ∀ b ∈ raw, b = 0x20)
    (w : Int64) : c.parseNumber true raw (stripped left pad (ofInt w.toInt)) = .ok (.int w)
      ↔ w = 0 ∨ ¬ Bears left pad (ofInt w.toInt) := by
  obtain ⟨rest, hrest⟩ : ∃ rest, rest = stripped left pad (ofInt w.toInt) := ⟨_, rfl⟩
  have htrim : trim isSpace rest = rest := by
    apply trim_of_not_mem
    intro hmem
    exact not_mem_space_ofInt _ (mem_of_mem_stripped (hrest ▸ hmem))
  rw [← hrest]
  by_cases hbears : Bears left pad (ofInt w.toInt)
  · rw [or_iff_left (not_not_intro hbears)]
    have hlt := length_stripped_lt hpad hbears
    rw [← hrest] at hlt
    by_cases hnil : rest = []
    · rw [parseNumber_nil (htrim.trans hnil) hraw]
      simp [eq_comm]
    · -- the numeral of zero has one digit, so nothing would be left of it
      have hne : w ≠ 0 := by
        rintro rfl
        rw [show (0 : Int64).toInt = 0 from rfl, ofInt_zero, List.length_singleton] at hlt
        exact hnil (List.eq_nil_of_length_eq_zero (by omega))
      rw [parseNumber_eq_int_iff (htrim.symm ▸ hnil), htrim]
      exact iff_of_false (not_numeral_of_length_lt hlt) hne
  · have hsame : rest = ofInt w.toInt :=
      hrest.trans ((stripped_eq_self_iff hpad left).mpr hbears)
    have hne : trim isSpace rest ≠ [] := by
      rw [htrim, hsame]
      exact ofInt_ne_nil _
    rw [parseNumber_eq_int_iff hne, htrim, hsame]
    exact iff_of_true (numeral_ofInt _) (.inr hbears)

namespace Fills

variable (hc : c.Fills left pad) (hfiller : c.isFiller = false)
  (hshort : c.readsBlankAsNull = true → pad.length < 2 ^ 32)

include hc hshort

/-- The padding beside a text does not make a slot blank, and does not keep it from being so. -/
theorem isBlank_beside_iff (t : Text) (k : Nat) :
    (c.readsBlankAsNull && isBlank pad (beside left t (pad.copies k))) = true
      ↔ c.readsBlankAsNull = true ∧ Blank pad t := by
  rw [hc.isBlank_iff hshort]
  refine and_congr_right fun hblank => ?_
  exact (hc.isCharacter (hshort hblank)).blank_beside_iff left k

include hfiller

/-- **A text is read back from beside the padding unless it has a copy of the padding there, or it
is blank and blank slots are read as nothing.** -/
theorem parse_beside_text_iff (htype : c.type = .ok "string") (s : Text) (k : Nat) :
    c.parse (beside left s (pad.copies k)) = .ok (.text s)
      ↔ ¬ Bears left pad s ∧ ¬ (c.readsBlankAsNull = true ∧ Blank pad s) := by
  rw [hc.parse_text hfiller htype, ← hc.isBlank_beside_iff hshort s k]
  by_cases hblank : (c.readsBlankAsNull && isBlank pad (beside left s (pad.copies k))) = true
  · rw [if_pos hblank]
    exact iff_of_false (by simp) fun h => h.2 hblank
  · rw [if_neg hblank, stripped_beside hc.pad_ne_nil, ← stripped_eq_self_iff hc.pad_ne_nil left]
    simp [hblank]

/-- **An integer is read back from beside the padding unless it is not zero and its numeral has a
copy of the padding there, or it is zero, zeros fill up, and blank slots are read as nothing.** -/
theorem parse_beside_integer_iff (htype : c.type = .ok "integer") (w : Int64) (k : Nat) :
    c.parse (beside left (ofInt w.toInt) (pad.copies k)) = .ok (.int w)
      ↔ (w = 0 ∨ ¬ Bears left pad (ofInt w.toInt))
        ∧ ¬ (c.readsBlankAsNull = true ∧ w = 0 ∧ pad = "0") := by
  have hzero : Blank pad (ofInt (0 : Int64).toInt) ↔ pad = "0" := blank_zero_iff hc.pad_ne_nil
  have hiff := hc.isBlank_beside_iff hshort (ofInt w.toInt) k
  rw [hc.parse_integer hfiller htype]
  by_cases hblank : c.readsBlankAsNull = true ∧ Blank pad (ofInt w.toInt)
  · -- a blank numeral is one of zeros, or it has a copy of the padding at either side
    rw [if_pos (hiff.mpr hblank)]
    refine iff_of_false (by simp) ?_
    rintro ⟨rfl | hbears, hnot⟩
    · exact hnot ⟨hblank.1, rfl, hzero.mp hblank.2⟩
    · exact hbears (hblank.2.bears_ofInt left)
  · have hnot : ¬ (c.readsBlankAsNull = true ∧ w = 0 ∧ pad = "0") := by
      rintro ⟨hnull, rfl, hpad⟩
      exact hblank ⟨hnull, hzero.mpr hpad⟩
    -- the numeral keeps the slot from being one of spaces
    have hspaces : ¬ ∀ b ∈ beside left (ofInt w.toInt) (pad.copies k), b = 0x20 := by
      intro hall
      obtain ⟨b, hb⟩ := List.exists_mem_of_ne_nil _ (ofInt_ne_nil w.toInt)
      exact not_mem_space_ofInt _ (hall b (mem_beside.mpr (.inl hb)) ▸ hb)
    rw [if_neg fun h => hblank (hiff.mp h), stripped_beside hc.pad_ne_nil, and_iff_left hnot]
    exact parseNumber_stripped_iff hc.pad_ne_nil hspaces w

/-- **Which texts and integers come back from a column.**  Every text and every numeral that is not
too wide is written.  A text comes back unless it has a copy of the padding where the slot is filled
up, or blank slots are read as nothing and it is blank.  An integer comes back unless its numeral
has a copy of the padding there and it is not zero, or blank slots are read as nothing, it is zero
and zeros fill up.  Where blank slots are read as nothing, the padding must not be too long to be
counted. -/
theorem parse_format_iff :
    (c.type = .ok "string" → ∀ s : Text, s.width ≤ c.width.toNat →
      ∃ slot, c.format (.text s) = .ok slot
        ∧ (c.parse slot = .ok (.text s)
          ↔ ¬ Bears left pad s ∧ ¬ (c.readsBlankAsNull = true ∧ Blank pad s)))
    ∧ (c.type = .ok "integer" → ∀ w : Int64, (ofInt w.toInt).length ≤ c.width.toNat →
      ∃ slot, c.format (.int w) = .ok slot
        ∧ (c.parse slot = .ok (.int w)
          ↔ (w = 0 ∨ ¬ Bears left pad (ofInt w.toInt))
            ∧ ¬ (c.readsBlankAsNull = true ∧ w = 0 ∧ pad = "0"))) := by
  refine ⟨fun htype s hle => ?_, fun htype w hle => ?_⟩
  · have hslot := hc.format_of_le hfiller (x := .text s) rfl hle
    exact ⟨_, hslot, hc.parse_beside_text_iff hfiller hshort htype s _⟩
  · have hwidth := Nat.le_trans (width_le_length (ofInt w.toInt)) hle
    have hslot := hc.format_of_le hfiller (x := .int w) rfl hwidth
    exact ⟨_, hslot, hc.parse_beside_integer_iff hfiller hshort htype w _⟩

end Fills

/-- From a column that is filled up with zeros an integer that ends with one comes back; zero does
not, if a blank slot is read as nothing. -/
theorem parse_format_zeroFilled : ∃ c, create "n" 5 zeroFilled = .ok c
    ∧ (∃ slot, c.format (.int 120) = .ok slot ∧ c.parse slot = .ok (.int 120))
    ∧ ∃ slot, c.format (.int 0) = .ok slot ∧ c.parse slot ≠ .ok (.int 0) := by
  obtain ⟨c, hcreate, hc, hfiller, hwidth, htype, hnil⟩ := exists_zeroFilled
  have hreturn := (hc.parse_format_iff hfiller fun _ => by decide).2 htype
  rw [hwidth] at hreturn
  refine ⟨c, hcreate, ?_, ?_⟩
  · obtain ⟨slot, hslot, hiff⟩ := hreturn 120 (by decide +kernel)
    refine ⟨slot, hslot, hiff.mpr ⟨.inr (by decide +kernel), ?_⟩⟩
    rintro ⟨-, hzero, -⟩
    exact absurd hzero (by decide)
  · obtain ⟨slot, hslot, hiff⟩ := hreturn 0 (by decide +kernel)
    refine ⟨slot, hslot, fun hparse => ?_⟩
    exact (hiff.mp hparse).2 ⟨hnil, rfl, rfl⟩

/-- **A space comes back although it is blank**, and blank slots are to be read as nothing: the
padding beside it is too long to be counted. -/
theorem parse_format_overlong : ∃ c, create "n" 2 (blankAtLeft "string" overlong) = .ok c
    ∧ c.Fills true overlong ∧ c.isFiller = false ∧ c.type = .ok "string"
    ∧ c.readsBlankAsNull = true ∧ countFrom .nothing " " ≤ c.width.toNat ∧ Blank overlong " "
    ∧ c.format (.text " ") = .ok (0x20 :: overlong)
    ∧ c.parse (0x20 :: overlong) = .ok (.text " ") := by
  obtain ⟨c, hcreate, hc, hfiller, hwidth, htype, hblank⟩ :=
    exists_blankAtLeft (.inl rfl) width_overlong
  have hslot := hc.format_of_le hfiller (x := .text " ") rfl (by rw [hwidth]; decide)
  rw [hwidth, show (2 : UInt64).toNat - (ofString " ").width = 1 by decide,
    beside_space] at hslot
  have hkept : stripped true overlong (ofString " ") = ofString " " := by
    refine (stripped_eq_self_iff hc.pad_ne_nil true).mpr fun hbears => ?_
    have hle := List.IsSuffix.length_le (show overlong <:+ ofString " " from hbears)
    rw [length_overlong] at hle
    exact absurd hle (by decide)
  refine ⟨c, hcreate, hc, hfiller, htype, hblank, by rw [hwidth]; decide, Blank.nil.space,
    hslot, ?_⟩
  rw [hc.parse_text hfiller htype, isBlank_overlong, Bool.and_false, if_neg Bool.false_ne_true,
    ← beside_space, stripped_beside hc.pad_ne_nil, hkept]

end Column

end RecordLayout
