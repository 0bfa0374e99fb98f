import RecordLayout.Proofs.Column.Slot

/-!
# Slots of any bytes

A slot is filled up for the characters that the text lacks, each counted on its own.  The text and
the padding may be malformed, and then bytes of one can go on with the last character of the other,
so that the slot has fewer characters than the column is wide.  This happens at one place only,
where the text meets the padding; every other slot is exactly as wide as its column.

## Main definitions

* `Column.Meets`: no character goes on from the text into the padding, or the other way round.

## Main results

* `Column.Fills.width_format_iff`: **which slots are as wide as their column**; none is wider.
* `Column.Fills.width_format`: with a well-formed padding or well-formed texts, all are.
* `Column.narrow_slot`: a column of width two that writes one character.
-/

namespace RecordLayout

open Text Text.Owed

namespace Column

variable {left : Bool} {pad text : Text} {width : Nat}

/-- No character goes on over the place where a text meets the padding. -/
def Meets (left : Bool) (pad text : Text) : Prop :=
  if left then Apart text pad else Apart pad text

theorem meets_of_wellFormed (h : WellFormed pad ∨ WellFormed text) : Meets left pad text := by
  unfold Meets
  split
  · exact h.elim (fun hpad => hpad.apart_left text) (fun htext => htext.apart_right pad)
  · exact h.elim (fun hpad => hpad.apart_right text) (fun htext => htext.apart_left pad)

/-- A text with copies of a character beside it has the characters of both if it meets one of them,
and fewer otherwise. -/
theorem countFrom_beside (hpad : pad.IsCharacter) {n : Nat} (hn : n ≠ 0) (left : Bool)
    (text : Text) :
    countFrom nothing (beside left text (pad.copies n)) ≤ countFrom nothing text + n
      ∧ (countFrom nothing (beside left text (pad.copies n)) = countFrom nothing text + n
        ↔ Meets left pad text) := by
  cases left with
  | true =>
    have hle := countFrom_append_le text (pad.copies n)
    have hiff := countFrom_append_eq_iff (s := text) (t := pad.copies n)
    rw [hpad.countFrom_copies] at hle hiff
    exact ⟨hle, hiff.trans (hpad.apart_copies_iff hn)⟩
  | false =>
    have hle := countFrom_append_le (pad.copies n) text
    have hiff := countFrom_append_eq_iff (s := pad.copies n) (t := text)
    rw [hpad.countFrom_copies, Nat.add_comm] at hle hiff
    exact ⟨hle, hiff.trans (hpad.copies_apart_iff hn)⟩

/-- A text that fills a width alone is cut to it. -/
theorem fit_of_le (h : width ≤ text.width) (left : Bool) :
    fit left pad width text = cut left width text := by
  simp [fit, Nat.sub_eq_zero_of_le h]

/-- **A fitted text is as wide as it should be if nothing is filled up, or if the text meets the
padding**; it is never wider. -/
theorem width_fit (hpad : pad.IsCharacter) (hlen : text.length < 2 ^ 31)
    (hwidth : 4 * width < 2 ^ 31) (left : Bool) : (fit left pad width text).width ≤ width
      ∧ ((fit left pad width text).width = width ↔ width ≤ text.width ∨ Meets left pad text) := by
  by_cases hfull : width ≤ text.width
  · rw [fit_of_le hfull, width_cut left width hlen, Nat.min_eq_left hfull]
    exact ⟨Nat.le_refl _, iff_of_true rfl (.inl hfull)⟩
  · have hlt : text.width < width := Nat.lt_of_not_le hfull
    have hfit := length_fit_le hpad hlen left width
    have hsum : countFrom nothing text + (width - text.width) = width := by
      rw [← width_of_lt hlen]
      omega
    obtain ⟨hle, hiff⟩ := countFrom_beside hpad (Nat.sub_ne_zero_of_lt hlt) left text
    rw [hsum] at hle hiff
    rw [width_of_lt (by omega), fit_eq_beside (Nat.le_of_lt hlt) left]
    exact ⟨hle, hiff.trans (or_iff_right hfull).symm⟩

/-! ### Slots that are written -/

namespace Fills

variable {c : Column} {x : Value} {slot : Text} (hc : c.Fills left pad)

include hc

/-- **A slot is as wide as its column exactly if the column is a filler, or the text leaves nothing
to be filled up, or the text meets the padding**; no slot is wider.  The bytes of the text and of
the padding are arbitrary. -/
theorem width_format_iff (hwidth : c.width.toNat < 2 ^ 29) (hshort : pad.length < 2 ^ 32)
    (hlen : ∀ text, c.textFor x = .ok text → text.length < 2 ^ 31) (h : c.format x = .ok slot) :
    slot.width ≤ c.width.toNat
      ∧ (slot.width = c.width.toNat ↔ c.isFiller = true
        ∨ ∃ text, c.textFor x = .ok text ∧ (c.width.toNat ≤ text.width ∨ Meets left pad text)) := by
  have hchar := hc.isCharacter hshort
  have hbytes : 4 * c.width.toNat < 2 ^ 31 := by omega
  rcases hc.format_ok h with ⟨hfiller, rfl⟩ | ⟨hfiller, text, htext, rfl⟩
  · rw [hchar.width_copies hbytes]
    exact ⟨Nat.le_refl _, iff_of_true rfl (.inl hfiller)⟩
  · obtain ⟨hle, hiff⟩ := width_fit hchar (hlen text htext) hbytes left
    refine ⟨hle, hiff.trans ⟨fun hfull => .inr ⟨text, htext, hfull⟩, ?_⟩⟩
    rintro (hyes | ⟨text', htext', hfull⟩)
    · exact absurd (hfiller.symm.trans hyes) (by simp)
    · obtain rfl := Except.ok.inj (htext.symm.trans htext')
      exact hfull

/-- **With a well-formed padding every slot is as wide as its column**, and with any padding the
slot of a value whose texts are well-formed is. -/
theorem width_format (hwidth : c.width.toNat < 2 ^ 29) (hshort : pad.length < 2 ^ 32)
    (hlen : ∀ text, c.textFor x = .ok text → text.length < 2 ^ 31) (h : c.format x = .ok slot)
    (hwell : WellFormed pad ∨ ∀ t, x = .text t → WellFormed t) : slot.width = c.width.toNat := by
  have hchar := hc.isCharacter hshort
  have hbytes : 4 * c.width.toNat < 2 ^ 31 := by omega
  rcases hc.format_ok h with ⟨hfiller, rfl⟩ | ⟨-, text, htext, rfl⟩
  · exact hchar.width_copies hbytes
  · apply (width_fit hchar (hlen text htext) hbytes left).2.mpr
    exact .inr (meets_of_wellFormed (hwell.imp_right fun hx => textFor_wellFormed hx htext))

end Fills

/-! ### A slot that is too narrow -/

/-- Texts are at the left, and the padding is a byte that goes on with a character. -/
def trailing : OptionMap :=
  (NameMap.empty.insert OptionName.align (.text "left")).insert OptionName.padding (.text [0x82])

theorem exists_trailing : ∃ c, create "a" 2 trailing = .ok c ∧ c.Fills true [0x82]
    ∧ c.isFiller = false ∧ c.width = 2 ∧ c.type = .ok "string" ∧ c.readsBlankAsNull = false :=
  exists_created (by decide)

/-- A letter with that padding beside it fills the column. -/
theorem width_format_trailing : ∃ c, create "a" 2 trailing = .ok c
    ∧ ∃ slot, c.format (.text "A") = .ok slot ∧ slot.width = c.width.toNat := by
  obtain ⟨c, hcreate, hc, hfiller, hwidth, -⟩ := exists_trailing
  have hlen (text : Text) (h : c.textFor (.text "A") = .ok text) : text.length < 2 ^ 31 := by
    rw [← Except.ok.inj h]
    decide
  have hslot := hc.format_of_le hfiller (x := .text "A") rfl (by rw [hwidth]; decide)
  refine ⟨c, hcreate, _, hslot, ?_⟩
  apply (hc.width_format_iff (by rw [hwidth]; decide) (by decide) hlen hslot).2.mpr
  exact .inr ⟨_, rfl, .inr (meets_of_wellFormed (.inr (wellFormed_of_ascii (by decide +kernel))))⟩

/-- **A byte that begins a character takes the padding for the rest of it**: the slot has one
character, and the column is two wide. -/
theorem narrow_slot : ∃ c, create "a" 2 trailing = .ok c ∧ c.width.toNat = 2
    ∧ c.format (.text [0xC3]) = .ok [0xC3, 0x82] ∧ Text.width [0xC3, 0x82] = 1 := by
  obtain ⟨c, hcreate, hc, hfiller, hwidth, -⟩ := exists_trailing
  have hslot := hc.format_of_le hfiller (x := .text [0xC3]) rfl (by rw [hwidth]; decide)
  rw [hwidth] at hslot
  exact ⟨c, hcreate, congrArg UInt64.toNat hwidth, hslot, by decide⟩

end Column

end RecordLayout
