import RecordLayout.Column.Format
import RecordLayout.Proofs.Text.Filling

/-!
# One side of a text

A slot has its text at one side and is filled up at the other; what is said of either side is said
here once, for a side that is given.  Stripping is characterised by what it leaves: the text is what
is left with some copies of the padding beside it, and what is left has no copy there any more.

## Main definitions

* `Text.beside`: a text at one side, with a filling at the other.
* `Text.Bears`: a text has a copy of the padding where it would be filled up.
* `Text.stripped`: a text without the copies there.
* `Text.Strips`, `Text.Trims`: what it is to be such a text, and one without spaces at either end.

## Main results

* `Text.stripped_beside`: copies that are put beside a text are stripped again.
* `Text.stripped_eq_self_iff`: stripping leaves a text alone exactly if it bears no copy.
* `Text.strips_iff`: **stripping takes all copies and nothing else**.
* `Text.trims_iff`: trimming is stripping of spaces at both sides.
* `Column.fit_stripped`: **filling up undoes stripping**, where the padding is one well-formed
  character.
-/

namespace RecordLayout

namespace Text

variable {left : Bool} {pad t u : Text}

/-- A text at its side, the left one or the right one, with a filling at the other. -/
def beside (left : Bool) (text fill : Text) : Text :=
  if left then text ++ fill else fill ++ text

/-- A text has `pad` where it would be filled up: at its end if it is at the left, at its beginning
if it is at the right. -/
def Bears (left : Bool) (pad t : Text) : Prop :=
  if left then pad <:+ t else pad <+: t

instance (left : Bool) (pad t : Text) : Decidable (Bears left pad t) :=
  inferInstanceAs (Decidable (if left then pad <:+ t else pad <+: t))

/-- A text without the copies of `pad` where it would be filled up. -/
def stripped (left : Bool) (pad t : Text) : Text :=
  if left then dropTrailing pad t else dropLeading pad t

/-- What is left of a text when all copies of `pad` are taken off where it would be filled up. -/
def Strips (left : Bool) (pad t rest : Text) : Prop :=
  (∃ k, t = beside left rest (pad.copies k)) ∧ ¬ Bears left pad rest

/-- What is left of a text when all spaces are taken off at both ends. -/
def Trims (t core : Text) : Prop := ∃ u, Strips false space t u ∧ Strips true space u core

@[simp] theorem beside_nil (left : Bool) (t : Text) : beside left t [] = t := by
  cases left <;> simp [beside]

theorem length_beside (left : Bool) (t u : Text) :
    (beside left t u).length = t.length + u.length := by
  cases left
  · simp [beside, Nat.add_comm]
  · simp [beside]

theorem mem_beside {b : UInt8} : b ∈ beside left t u ↔ b ∈ t ∨ b ∈ u := by
  cases left
  · simp [beside, or_comm]
  · simp [beside]

/-! ### Copies at the front -/

theorem dropLeading_copies_append (hpad : pad ≠ []) (k : Nat) (t : Text) :
    dropLeading pad (pad.copies k ++ t) = dropLeading pad t := by
  induction k with
  | zero => simp
  | succ k ih => rw [copies_succ, List.append_assoc, dropLeading_append hpad, ih]

theorem dropLeading_eq_self_iff (hpad : pad ≠ []) : dropLeading pad t = t ↔ ¬ pad <+: t := by
  constructor
  · intro hsame hprefix
    have hlt := length_dropLeading_lt hpad (List.isPrefixOf_iff_prefix.mpr hprefix)
    rw [hsame] at hlt
    exact Nat.lt_irrefl _ hlt
  · intro hnot
    apply dropLeading_of_not_isPrefixOf
    rw [Bool.eq_false_iff]
    intro hprefix
    exact hnot (List.isPrefixOf_iff_prefix.mp hprefix)

/-- No copy is left at the front. -/
theorem not_prefix_dropLeading (hpad : pad ≠ []) (t : Text) : ¬ pad <+: dropLeading pad t := by
  fun_induction dropLeading pad t with
  | case1 t h => exact absurd h hpad
  | case2 t _ rest hrest ih => exact ih
  | case3 t _ hnone =>
    rintro ⟨rest, rfl⟩
    rw [isPrefixOf?_append] at hnone
    exact absurd hnone (by simp)

/-! ### Stripping at a side -/

/-- **Copies that are put beside a text are stripped again.** -/
theorem stripped_beside (hpad : pad ≠ []) (left : Bool) (k : Nat) (t : Text) :
    stripped left pad (beside left t (pad.copies k)) = stripped left pad t := by
  cases left with
  | false => exact dropLeading_copies_append hpad k t
  | true =>
    simp only [stripped, beside, if_true, dropTrailing, List.reverse_append, reverse_copies]
    rw [dropLeading_copies_append (by simpa using hpad)]

theorem Bears.mem (h : Bears left pad t) {b : UInt8} (hb : b ∈ pad) : b ∈ t := by
  unfold Bears at h
  split at h
  · exact h.subset hb
  · exact h.subset hb

/-- **Stripping leaves a text alone exactly if it bears no copy.** -/
theorem stripped_eq_self_iff (hpad : pad ≠ []) (left : Bool) :
    stripped left pad t = t ↔ ¬ Bears left pad t := by
  cases left with
  | false => exact dropLeading_eq_self_iff hpad
  | true =>
    have hback := dropLeading_eq_self_iff (t := t.reverse) (List.reverse_ne_nil_iff.mpr hpad)
    rw [List.reverse_prefix] at hback
    simp only [stripped, Bears, if_true, dropTrailing]
    rw [← hback, List.reverse_eq_iff]

/-- A text is what is left of it, with copies beside. -/
theorem exists_beside_stripped (left : Bool) (pad t : Text) :
    ∃ k, t = beside left (stripped left pad t) (pad.copies k) := by
  cases left with
  | false => exact exists_copies_dropLeading pad t
  | true => exact exists_copies_dropTrailing pad t

theorem not_bears_stripped (hpad : pad ≠ []) (left : Bool) (t : Text) :
    ¬ Bears left pad (stripped left pad t) := by
  cases left with
  | false => exact not_prefix_dropLeading hpad t
  | true =>
    have hback := not_prefix_dropLeading (List.reverse_ne_nil_iff.mpr hpad) t.reverse
    intro hbears
    apply hback
    rwa [← List.reverse_suffix, List.reverse_reverse]

/-- **Stripping takes all copies and nothing else.** -/
theorem strips_iff (hpad : pad ≠ []) {rest : Text} :
    Strips left pad t rest ↔ stripped left pad t = rest := by
  constructor
  · rintro ⟨⟨k, rfl⟩, hbears⟩
    rw [stripped_beside hpad, (stripped_eq_self_iff hpad left).mpr hbears]
  · rintro rfl
    exact ⟨exists_beside_stripped left pad t, not_bears_stripped hpad left t⟩

/-- There is one text that is left. -/
theorem Strips.unique (hpad : pad ≠ []) {rest rest' : Text} (h : Strips left pad t rest)
    (h' : Strips left pad t rest') : rest = rest' :=
  ((strips_iff hpad).mp h).symm.trans ((strips_iff hpad).mp h')

theorem mem_of_mem_stripped {b : UInt8} (h : b ∈ stripped left pad t) : b ∈ t := by
  obtain ⟨k, hk⟩ := exists_beside_stripped left pad t
  rw [hk, mem_beside]
  exact .inl h

/-- Stripping makes a text shorter if it bears a copy. -/
theorem length_stripped_lt (hpad : pad ≠ []) (h : Bears left pad t) :
    (stripped left pad t).length < t.length := by
  obtain ⟨k, hk⟩ := exists_beside_stripped left pad t
  have hlength := congrArg List.length hk
  rw [length_beside] at hlength
  have hne : (pad.copies k).length ≠ 0 := by
    intro hzero
    rw [List.length_eq_zero_iff.mp hzero, beside_nil] at hk
    exact (stripped_eq_self_iff hpad left).mp hk.symm h
  omega

/-! ### Spaces at both sides -/

theorem space_ne_nil : space ≠ [] := List.cons_ne_nil _ _

theorem trimStart_isSpace (t : Text) : trimStart isSpace t = stripped false space t := by
  induction t with
  | nil => exact ((stripped_eq_self_iff space_ne_nil false).mpr (by simp [Bears, space])).symm
  | cons b t ih =>
    by_cases hb : b = 0x20
    · subst hb
      exact ih.trans (dropLeading_append space_ne_nil t).symm
    · have hstart : trimStart isSpace (b :: t) = b :: t := by simp [trimStart, isSpace, hb]
      have hbears : ¬ Bears false space (b :: t) := by simp [Bears, space, Ne.symm hb]
      rw [hstart, (stripped_eq_self_iff space_ne_nil false).mpr hbears]

theorem trimEnd_isSpace (t : Text) : trimEnd isSpace t = stripped true space t :=
  congrArg List.reverse (trimStart_isSpace t.reverse)

theorem trim_isSpace (t : Text) :
    trim isSpace t = stripped true space (stripped false space t) := by
  rw [trim, trimStart_isSpace, trimEnd_isSpace]

/-- **Trimming is stripping of spaces at both sides.** -/
theorem trims_iff {core : Text} : Trims t core ↔ trim isSpace t = core := by
  rw [trim_isSpace]
  constructor
  · rintro ⟨u, hu, hcore⟩
    rw [(strips_iff space_ne_nil).mp hu, (strips_iff space_ne_nil).mp hcore]
  · intro h
    exact ⟨_, (strips_iff space_ne_nil).mpr rfl, (strips_iff space_ne_nil).mpr h⟩

theorem mem_of_mem_copies {b : UInt8} {k : Nat} (h : b ∈ pad.copies k) : b ∈ pad := by
  obtain ⟨l, hl, hb⟩ := List.mem_flatten.mp h
  rwa [List.eq_of_mem_replicate hl] at hb

theorem eq_space_of_mem_copies {b : UInt8} {k : Nat} (h : b ∈ space.copies k) : b = 0x20 :=
  List.mem_singleton.mp (mem_of_mem_copies h)

/-- Nothing is left of a text exactly if it has spaces only. -/
theorem trim_eq_nil_iff : trim isSpace t = [] ↔ ∀ b ∈ t, b = 0x20 := by
  rw [trim_isSpace]
  constructor
  · intro h b hb
    obtain ⟨k, hk⟩ := exists_beside_stripped false space t
    obtain ⟨n, hn⟩ := exists_beside_stripped true space (stripped false space t)
    rw [hk, mem_beside, hn, h, mem_beside] at hb
    rcases hb with (hb | hb) | hb
    · exact absurd hb List.not_mem_nil
    · exact eq_space_of_mem_copies hb
    · exact eq_space_of_mem_copies hb
  · intro h
    have hcopies : t = beside false [] (space.copies t.length) := by
      rw [beside, if_neg Bool.false_ne_true, List.append_nil]
      exact eq_copies_space h
    have hnil (left : Bool) : stripped left space [] = [] :=
      (stripped_eq_self_iff space_ne_nil left).mpr (by cases left <;> simp [Bears, space])
    rw [hcopies, stripped_beside space_ne_nil, hnil, hnil]

/-- A text without spaces is left as it is. -/
theorem trim_of_not_mem (h : 0x20 ∉ t) : trim isSpace t = t := by
  have hbears (left : Bool) : ¬ Bears left space t := by
    intro hb
    apply h
    cases left with
    | false => exact List.IsPrefix.subset hb List.mem_cons_self
    | true => exact List.IsSuffix.subset hb List.mem_cons_self
  rw [trim_isSpace, (stripped_eq_self_iff space_ne_nil false).mpr (hbears false),
    (stripped_eq_self_iff space_ne_nil true).mpr (hbears true)]

end Text

namespace Column

open Text Text.Owed

variable {pad text slot : Text} {width : Nat}

theorem cut_of_le {left : Bool} (h : text.width ≤ width) : cut left width text = text := by
  unfold cut
  rw [if_pos h]

/-- A text that is not too wide is put beside the padding. -/
theorem fit_eq_beside (h : text.width ≤ width) (left : Bool) :
    fit left pad width text = beside left text (pad.copies (width - text.width)) := by
  unfold fit
  rw [cut_of_le h]
  rfl

/-- Copies of a well-formed character beside a text add as many characters as they are. -/
theorem width_beside (hpad : WellFormed pad) (hone : pad.width = 1) {left : Bool} {k : Nat}
    (hlen : (beside left text (pad.copies k)).length < 2 ^ 31) :
    (beside left text (pad.copies k)).width = text.width + k := by
  have hlength := length_beside left text (pad.copies k)
  have hcount : (pad.copies k).width = k := by
    rw [width_of_lt (by omega), countFrom_copies_of_width hone (by omega)]
  cases left with
  | true =>
    have hwidth := width_append hlen ((hpad.copies k).apart_left text)
    rwa [hcount] at hwidth
  | false =>
    have hwidth := width_append hlen ((hpad.copies k).apart_right text)
    rwa [hcount, Nat.add_comm] at hwidth

/-- What stripping takes off are as many copies as the text gets narrower. -/
theorem width_stripped (hpad : WellFormed pad) (hone : pad.width = 1) (hlen : slot.length < 2 ^ 31)
    (left : Bool) : ∃ k, slot = beside left (stripped left pad slot) (pad.copies k)
      ∧ slot.width = (stripped left pad slot).width + k := by
  obtain ⟨k, hk⟩ := exists_beside_stripped left pad slot
  have hbeside : (beside left (stripped left pad slot) (pad.copies k)).length < 2 ^ 31 := by
    rw [← hk]
    exact hlen
  have hwidth := width_beside hpad hone hbeside
  rw [← hk] at hwidth
  exact ⟨k, hk, hwidth⟩

/-- **Filling up undoes stripping.** -/
theorem fit_stripped (hpad : WellFormed pad) (hone : pad.width = 1) (hlen : slot.length < 2 ^ 31)
    (left : Bool) : fit left pad slot.width (stripped left pad slot) = slot := by
  obtain ⟨k, hk, hwidth⟩ := width_stripped hpad hone hlen left
  rw [fit_eq_beside (by omega), hwidth, Nat.add_sub_cancel_left]
  exact hk.symm

/-- A slot of spaces is what an empty text is filled up to. -/
theorem fit_nil_space (h : ∀ b ∈ slot, b = 0x20) (hlen : slot.length < 2 ^ 31) (left : Bool) :
    fit left space slot.width [] = slot := by
  have hcopies := eq_copies_space h
  have hwidth : slot.width = slot.length := by
    rw [width_of_lt hlen, hcopies, isCharacter_space.countFrom_copies, ← hcopies]
  have hnil : Text.width [] = 0 := rfl
  rw [fit_eq_beside (Nat.zero_le _), hnil, Nat.sub_zero, hwidth, ← hcopies]
  cases left with
  | true => rfl
  | false => exact List.append_nil slot

end Column

end RecordLayout
