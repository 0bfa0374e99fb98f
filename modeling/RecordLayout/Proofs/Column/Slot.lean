import RecordLayout.Proofs.Column.Fills
import RecordLayout.Proofs.Number.Ascii
import RecordLayout.Proofs.Text.Blank

/-!
# Slots

What a column writes for well-formed values is a well-formed text of the width of the column, as
long as the text is short enough to be counted; and a column of texts writes the very slot that it
has read.

## Main results

* `Column.format_wellFormed`: **a slot that is written is well-formed and as wide as the column**.
* `Column.width_cut`: a cut text has the width that it is cut to, whatever its bytes.
* `Column.length_format_le`: it is not too long to be counted, unless the text is.
* `Column.format_parse`: **a column of texts writes what it has read**.
-/

namespace RecordLayout

namespace Column

open Text Text.Owed

/-- No column reads a record. -/
theorem ne_record_of_parse {c : Column} {slot : Text} {v : Value} (h : c.parse slot = .ok v)
    (r : Record) : v ≠ .record r := by
  rintro rfl
  unfold parse at h
  split at h
  · exact absurd h nofun
  obtain ⟨pad, -, h⟩ := Success.of_bind h
  split at h
  · exact absurd h nofun
  obtain ⟨left, -, h⟩ := Success.of_bind h
  obtain ⟨type, -, h⟩ := Success.of_bind h
  split at h
  · exact absurd h nofun
  rcases c.parseNumber_cases _ slot _ with hread | ⟨i, hread⟩ | ⟨x, hread⟩ | ⟨form, hread⟩ <;>
    exact absurd (hread.symm.trans h) nofun

/-! ### Slots that are written -/

/-- The text of a value is well-formed. -/
theorem textFor_wellFormed {c : Column} {x : Value} (hx : ∀ t, x = .text t → WellFormed t)
    {text : Text} (h : c.textFor x = .ok text) : WellFormed text := by
  cases x with
  | null => exact Except.ok.inj h ▸ wellFormed_nil
  | bool b =>
    obtain rfl := Except.ok.inj h
    cases b <;> exact wellFormed_of_ascii (by decide +kernel)
  | int i => exact Except.ok.inj h ▸ wellFormed_of_ascii (isAscii_ofInt _)
  | float x =>
    change c.numeral x = .ok text at h
    unfold numeral at h
    split at h
    · split at h
      · exact Except.ok.inj h ▸ wellFormed_of_ascii (Binary64.isAscii_fixed x _)
      · exact absurd h (by simp)
    · exact Except.ok.inj h ▸ wellFormed_of_ascii (Binary64.isAscii_general x)
  | text t => exact Except.ok.inj h ▸ hx t rfl
  | record r => exact absurd h (by simp [textFor])

/-- A text that is too long to be counted is too long after a cut at its front too. -/
theorem length_takeBack {t : Text} {n : Nat} (h : (t.takeBack n).length < 2 ^ 31) :
    t.length < 2 ^ 31 := by
  unfold takeBack at h
  split at h
  · exact h
  · have hoffset : t.offset (t.width - n) ≤ word32 t.length := by
      refine Nat.le_trans (offsetFrom_le nothing _ (scanned t)) ?_
      exact List.length_take_le _ _
    rw [List.length_drop] at h
    unfold word32 at hoffset
    split at hoffset <;> omega

/-- A text that is cut lacks no more characters than are filled up. -/
theorem cut_wellFormed (left : Bool) (width : Nat) {text : Text} (h : WellFormed text)
    (hlen : (cut left width text).length < 2 ^ 31) : WellFormed (cut left width text)
      ∧ countFrom nothing (cut left width text) + (width - text.width) = width := by
  unfold cut at hlen ⊢
  split
  · next hle =>
    rw [if_pos hle] at hlen
    rw [← width_of_lt hlen]
    exact ⟨h, by omega⟩
  · next hgt =>
    rw [if_neg hgt] at hlen
    cases left with
    | true =>
      obtain ⟨hwell, hcount⟩ := takeFront_wellFormed h (Nat.lt_of_not_le hgt)
      exact ⟨hwell, by simp only [if_true]; omega⟩
    | false =>
      obtain ⟨hwell, hcount⟩ := takeBack_wellFormed h (length_takeBack hlen) (Nat.lt_of_not_le hgt)
      exact ⟨hwell, by simp only [Bool.false_eq_true, if_false]; omega⟩

theorem fit_wellFormed {left : Bool} {pad text : Text} {width : Nat} (hpad : WellFormed pad)
    (hone : pad.width = 1) (h : WellFormed text)
    (hlen : (fit left pad width text).length < 2 ^ 31) :
    WellFormed (fit left pad width text)
      ∧ countFrom nothing (fit left pad width text) = width := by
  have hfill := hpad.copies (width - text.width)
  have hcount := countFrom_copies_of_width (n := width - text.width) hone
  unfold fit at hlen ⊢
  cases left with
  | true =>
    simp only [if_true] at hlen ⊢
    rw [List.length_append] at hlen
    obtain ⟨hwell, hcut⟩ := cut_wellFormed true width h (by omega)
    refine ⟨hwell.append hfill, ?_⟩
    rw [countFrom_append_of_apart (hwell.apart_right _), hcount (by omega), hcut]
  | false =>
    simp only [Bool.false_eq_true, if_false] at hlen ⊢
    rw [List.length_append] at hlen
    obtain ⟨hwell, hcut⟩ := cut_wellFormed false width h (by omega)
    refine ⟨hfill.append hwell, ?_⟩
    rw [countFrom_append_of_apart (hfill.apart_right _), hcount (by omega), Nat.add_comm, hcut]

/-- **A slot that is written is well-formed and as wide as the column**, if it is not too long to be
counted. -/
theorem format_wellFormed {c : Column} (hc : c.Settled) {pad : Text} (hpad : c.padding = .ok pad)
    (hwell : WellFormed pad) {x : Value} (hx : ∀ t, x = .text t → WellFormed t) {slot : Text}
    (h : c.format x = .ok slot) (hlen : slot.length < 2 ^ 31) :
    WellFormed slot ∧ countFrom nothing slot = c.width.toNat := by
  obtain ⟨left, hfills⟩ := hc.fills_with hpad
  rcases hfills.format_ok h with ⟨-, rfl⟩ | ⟨-, text, htext, rfl⟩
  · exact ⟨hwell.copies _, countFrom_copies_of_width hfills.width_pad hlen⟩
  · exact fit_wellFormed hwell hfills.width_pad (textFor_wellFormed hx htext) hlen

/-! ### How long a slot is -/

theorem length_cut_le (left : Bool) (width : Nat) (text : Text) :
    (cut left width text).length ≤ text.length := by
  unfold cut
  split
  · exact Nat.le_refl _
  · split
    · exact List.length_take_le' _ _
    · unfold takeBack
      split
      · exact Nat.le_refl _
      · rw [List.length_drop]
        omega

variable {pad text : Text}

/-- **A cut text has the width that it is cut to**, whatever its bytes. -/
theorem width_cut (left : Bool) (width : Nat) (h : text.length < 2 ^ 31) :
    (cut left width text).width = min width text.width := by
  unfold cut
  split
  · omega
  · split
    · exact width_takeFront h width
    · exact width_takeBack h width

/-- A text that is fitted into a width takes four bytes for a character at most. -/
theorem length_fit_le (hpad : pad.IsCharacter) (hlen : text.length < 2 ^ 31) (left : Bool)
    (width : Nat) : (fit left pad width text).length ≤ 4 * width := by
  have hshort := length_cut_le left width text
  have hcut := length_le_countFrom (cut left width text)
  rw [← width_of_lt (by omega), width_cut left width hlen] at hcut
  have hcopies : (pad.copies (width - text.width)).length ≤ 4 * (width - text.width) := by
    rw [length_copies, Nat.mul_comm]
    exact Nat.mul_le_mul_right _ hpad.length_le
  unfold fit
  split <;> rw [List.length_append] <;> omega

/-- A slot takes four bytes for a character at most, if the text and the padding are not too long to
be counted themselves. -/
theorem length_format_le {c : Column} (hc : c.Settled) (hpad : c.padding = .ok pad)
    (hshort : pad.length < 2 ^ 31) {x : Value}
    (hlen : ∀ t, c.textFor x = .ok t → t.length < 2 ^ 31) {slot : Text}
    (h : c.format x = .ok slot) : slot.length ≤ 4 * c.width.toNat := by
  obtain ⟨left, hfills⟩ := hc.fills_with hpad
  have hchar := hfills.isCharacter (by omega)
  rcases hfills.format_ok h with ⟨-, rfl⟩ | ⟨-, text, htext, rfl⟩
  · rw [length_copies, Nat.mul_comm]
    exact Nat.mul_le_mul_right _ hchar.length_le
  · exact length_fit_le hchar (hlen text htext) left _

/-! ### Slots that are read -/

/-- **A column of texts writes what it has read.**  Where a blank slot is read as nothing, the
padding has to be a space. -/
theorem format_parse {c : Column} (hc : c.Settled) (hfiller : c.isFiller = false)
    (htype : c.type = .ok "string") {pad : Text} (hpad : c.padding = .ok pad)
    (hwell : WellFormed pad) (hblank : c.readsBlankAsNull = false ∨ pad = space) {slot : Text}
    (hlen : slot.length < 2 ^ 31) (hwidth : slot.width = c.width.toNat) :
    ∃ v, c.parse slot = .ok v ∧ c.format v = .ok slot := by
  obtain ⟨left, hfills⟩ := hc.fills_with hpad
  have hone := hfills.width_pad
  have hformat {v : Value} {text : Text} (htext : c.textFor v = .ok text)
      (hle : text.width ≤ slot.width) (hfit : fit left pad slot.width text = slot) :
      c.format v = .ok slot := by
    rw [hfills.format_fits hfiller htext (hwidth ▸ hle), ← hwidth, hfit]
  rw [hfills.parse_text hfiller htype]
  split
  · next hnull =>
    rw [Bool.and_eq_true] at hnull
    obtain rfl := hblank.resolve_left (by rw [hnull.1]; simp)
    exact ⟨.null, rfl, hformat rfl (Nat.zero_le _)
      (fit_nil_space (eq_space_of_isBlank hnull.2) hlen left)⟩
  · obtain ⟨k, -, hk⟩ := width_stripped hwell hone hlen left
    exact ⟨_, rfl, hformat rfl (by omega) (fit_stripped hwell hone hlen left)⟩

end Column

end RecordLayout
