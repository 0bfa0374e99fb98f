import RecordLayout.Column.Parse
import RecordLayout.Proofs.Layout.Declared
import RecordLayout.Proofs.Text.Sides

/-!
# What a column fills up with

A column with valid options has a padding of one character, a side and a form, so it can always be
written and read.  All that it writes and reads depends on the padding and on the side of its texts;
so the two are named together here, and writing and reading are said in their terms.

## Main definitions

* `Column.Settled`: the options of a column are valid.
* `Column.Fills`: a column with valid options has a side for its texts, and a padding.
* `Column.sayings?`: what a column says of its values.

## Main results

* `Column.Settled.accepted`: the padding, the side and the form are texts that are accepted.
* `Column.Settled.of_parse_error`, `Column.Settled.of_format_error`: what a column refuses.
* `Column.Settled.fills_with`: every column with valid options has a side.
* `Column.Fills.format_ok`, `Column.Fills.format_filler`, `Column.Fills.format_fits`: what is
  written.
* `Column.Fills.format_uncounted`: what is written for a text that is too long to be counted.
* `Column.Fills.parse_text`, `Column.Fills.parse_integer`: what is read.
-/

namespace RecordLayout

open Text

/-! ### Options that must be there -/

/-- The value of an option that is required or has a default is one that is accepted. -/
theorem OptionTable.Valid.accepts {t : OptionTable} (ht : t.Valid) {spec : OptionSpec}
    (hspec : t.schema.find? spec.name = some spec)
    (hpresent : spec.required = true ∨ spec.default?.isSome = true)
    (hdefault : ∀ v, spec.default? = some v → spec.accepts v = true) :
    spec.accepts (t.get spec.name) = true := by
  have hcontains := ht.filled spec (OptionSchema.mem_of_find? hspec) hpresent
  obtain ⟨slot, hslot⟩ := Option.isSome_iff_exists.mp hcontains
  obtain ⟨spec', hspec', hallows⟩ := ht.allowed spec.name slot hslot
  obtain rfl := Option.some.inj (hspec.symm.trans hspec')
  unfold OptionTable.get
  rw [show t.slots.find? spec.name = some slot from hslot]
  unfold OptionSpec.Allows at hallows
  split at hallows
  · exact hdefault slot.value hallows
  · obtain ⟨-, _, -, haccepts⟩ := hallows
    exact haccepts
  · obtain ⟨_, -, haccepts⟩ := hallows
    exact haccepts

namespace Column

/-- The options of a column are valid. -/
def Settled (c : Column) : Prop := c.options.Valid ∧ c.options.schema = columnOptions

theorem text_of_any {v : Value} {p : Text → Bool} (h : v.text?.any p = true) :
    ∃ t, v = .text t ∧ p t = true := by
  cases v with
  | text t => exact ⟨t, rfl, h⟩
  | null | bool | int | float | record => exact absurd h (by simp [Value.text?])

/-- What can be in a slot where a number is looked for. -/
theorem parseNumber_cases (c : Column) (isInteger : Bool) (raw text : Text) :
    c.parseNumber isInteger raw text = .ok .null
      ∨ (∃ i, c.parseNumber isInteger raw text = .ok (.int i))
      ∨ (∃ x, c.parseNumber isInteger raw text = .ok (.float x))
      ∨ ∃ form, c.parseNumber isInteger raw text = .error (.unparsable c.name text form) := by
  unfold parseNumber
  dsimp only
  split
  · split
    · exact .inl rfl
    · cases isInteger with
      | true => exact .inr (.inl ⟨0, rfl⟩)
      | false => exact .inr (.inr (.inl ⟨.zero, rfl⟩))
  · cases isInteger with
    | true =>
      cases readInteger (text.trim isSpace) with
      | some i => exact .inr (.inl ⟨i, rfl⟩)
      | none => exact .inr (.inr (.inr ⟨_, rfl⟩))
    | false =>
      cases (text.trim isSpace).toBinary64? with
      | some x => exact .inr (.inr (.inl ⟨x, rfl⟩))
      | none => exact .inr (.inr (.inr ⟨_, rfl⟩))

namespace Settled

variable {c : Column}

/-- The options that a column cannot do without have values that are accepted. -/
theorem accepted (hc : c.Settled) :
    OptionRule.isCharacter (c.options.get OptionName.padding) = true
      ∧ OptionRule.isOneOf alignments (c.options.get OptionName.align) = true
      ∧ OptionRule.isOneOf columnTypes (c.options.get OptionName.type) = true := by
  have hthere (spec : OptionSpec) (v : Value) (hspec : columnOptions.find? spec.name = some spec)
      (hv : spec.default? = some v) (haccepts : spec.accepts v = true) :
      spec.accepts (c.options.get spec.name) = true := by
    refine hc.1.accepts (hc.2 ▸ hspec) (.inr (by rw [hv]; rfl)) fun w hw => ?_
    rwa [← Option.some.inj (hv.symm.trans hw)]
  refine ⟨hthere (paddingSpec (some (.text " "))) _ rfl rfl (by decide),
    hthere (alignSpec (some (.text "right"))) _ rfl rfl (by decide), ?_⟩
  obtain ⟨spec, hspec, hname, hdefault, hrule⟩ : ∃ spec,
      columnOptions.find? OptionName.type = some spec ∧ spec.name = OptionName.type
        ∧ spec.default? = some (.text "string")
        ∧ spec.accepts = OptionRule.isOneOf columnTypes := ⟨_, rfl, rfl, rfl, rfl⟩
  have haccepts := hthere spec _ (hname ▸ hspec) hdefault (by rw [hrule]; decide)
  rwa [hname, hrule] at haccepts

/-- The padding is counted as one character. -/
theorem padding_width (hc : c.Settled) : ∃ pad, c.padding = .ok pad ∧ pad.width = 1 := by
  obtain ⟨pad, hpad, hone⟩ := text_of_any hc.accepted.1
  exact ⟨pad, congrArg textOf hpad, by simpa using hone⟩

theorem alignsLeft_ok (hc : c.Settled) : ∃ left, c.alignsLeft = .ok left := by
  obtain ⟨side, hside, -⟩ := text_of_any hc.accepted.2.1
  refine ⟨side == Text.ofString "left", ?_⟩
  unfold alignsLeft
  rw [hside]
  rfl

theorem type_ok (hc : c.Settled) : ∃ type, c.type = .ok type := by
  obtain ⟨type, htype, -⟩ := text_of_any hc.accepted.2.2
  exact ⟨type, congrArg textOf htype⟩

/-- A column refuses only slots in which it finds no numeral. -/
theorem of_parse_error (hc : c.Settled) {slot : Text} {e : Error} (h : c.parse slot = .error e) :
    ∃ text form, e = .unparsable c.name text form := by
  obtain ⟨pad, hpad, -⟩ := hc.padding_width
  obtain ⟨left, hleft⟩ := hc.alignsLeft_ok
  obtain ⟨type, htype⟩ := hc.type_ok
  unfold parse at h
  rw [hpad, hleft, htype] at h
  change (if c.isFiller then _ else if _ then _ else if type = _ then _ else
    c.parseNumber _ slot _) = _ at h
  split at h
  · exact absurd h nofun
  split at h
  · exact absurd h nofun
  split at h
  · exact absurd h nofun
  rcases c.parseNumber_cases _ slot _ with hread | ⟨i, hread⟩ | ⟨x, hread⟩ | ⟨form, hread⟩
  · exact absurd (hread.symm.trans h) nofun
  · exact absurd (hread.symm.trans h) nofun
  · exact absurd (hread.symm.trans h) nofun
  · exact ⟨_, form, (Except.error.inj (hread.symm.trans h)).symm⟩

/-- A column refuses only records, texts that are too wide, and numbers with more digits after the
point than can be counted. -/
theorem of_format_error (hc : c.Settled) {x : Value} {e : Error} (h : c.format x = .error e) :
    (∃ r, x = .record r ∧ e = .recordInColumn c.name)
      ∨ (∃ text, c.textFor x = .ok text ∧ e = .tooWide text c.width c.name)
      ∨ ∃ y places, x = .float y ∧ c.precision = some places ∧ maxPlaces < places
        ∧ e = .fault (.tooManyPlaces places) := by
  obtain ⟨pad, hpad, -⟩ := hc.padding_width
  obtain ⟨left, hleft⟩ := hc.alignsLeft_ok
  unfold format at h
  rw [hpad, hleft] at h
  change (if c.isFiller then _ else _) = _ at h
  split at h
  · exact absurd h nofun
  cases htext : c.textFor x with
  | ok text =>
    rw [htext] at h
    change (if c.width.toNat < text.width ∧ _ then _ else _) = _ at h
    split at h
    · exact .inr (.inl ⟨text, rfl, (Except.error.inj h).symm⟩)
    · exact absurd h nofun
  | error e' =>
    rw [htext] at h
    obtain rfl := Except.error.inj h
    cases x with
    | null | bool | int | text => exact absurd htext (by simp [textFor])
    | record r => exact .inl ⟨r, rfl, (Except.error.inj htext).symm⟩
    | float y =>
      change c.numeral y = _ at htext
      unfold numeral at htext
      split at htext
      · next places hplaces =>
        split at htext
        · exact absurd htext (by simp)
        · next hmore =>
          exact .inr (.inr ⟨y, places, rfl, hplaces, Nat.lt_of_not_le hmore,
            (Except.error.inj htext).symm⟩)
      · exact absurd htext (by simp)

end Settled

/-! ### Sides and paddings -/

/-- The options of a column are valid; its texts are at the given side, and `pad` fills up the
rest. -/
structure Fills (c : Column) (left : Bool) (pad : Text) : Prop where
  settled : c.Settled
  side : c.alignsLeft = .ok left
  padding : c.padding = .ok pad

theorem Settled.fills_with {c : Column} (hc : c.Settled) {pad : Text} (hpad : c.padding = .ok pad) :
    ∃ left, c.Fills left pad := by
  obtain ⟨left, hleft⟩ := hc.alignsLeft_ok
  exact ⟨left, hc, hleft, hpad⟩

namespace Fills

variable {c : Column} {left : Bool} {pad : Text} (hc : c.Fills left pad)

include hc

theorem width_pad : pad.width = 1 := by
  obtain ⟨pad', hpad', hone⟩ := hc.settled.padding_width
  obtain rfl := Except.ok.inj (hc.padding.symm.trans hpad')
  exact hone

/-- The padding is one character, unless it is so long that a word does not hold its size. -/
theorem isCharacter (hshort : pad.length < 2 ^ 32) : pad.IsCharacter :=
  isCharacter_of_width hc.width_pad hshort

theorem pad_ne_nil : pad ≠ [] := by
  rintro rfl
  exact absurd hc.width_pad (by decide)

/-! ### Slots that are written -/

/-- What a column writes: copies of its padding if it is a filler, and otherwise the text of the
value, fitted. -/
theorem format_ok {x : Value} {slot : Text} (h : c.format x = .ok slot) :
    c.isFiller = true ∧ slot = pad.copies c.width.toNat
      ∨ c.isFiller = false ∧ ∃ text, c.textFor x = .ok text
        ∧ slot = fit left pad c.width.toNat text := by
  unfold format at h
  rw [hc.padding, hc.side] at h
  change (if c.isFiller then _ else _) = _ at h
  by_cases hfiller : c.isFiller = true
  · rw [if_pos hfiller] at h
    exact .inl ⟨hfiller, (Except.ok.inj h).symm⟩
  · rw [if_neg hfiller] at h
    obtain ⟨text, htext, h⟩ := Success.of_bind h
    split at h
    · exact absurd h (by simp)
    · exact .inr ⟨Bool.eq_false_iff.mpr hfiller, text, htext, (Except.ok.inj h).symm⟩

theorem format_filler (hfiller : c.isFiller = true) (x : Value) :
    c.format x = .ok (pad.copies c.width.toNat) := by
  unfold format
  rw [hc.padding, hfiller]
  rfl

/-- A text that is not too wide is written. -/
theorem format_fits (hfiller : c.isFiller = false) {x : Value} {text : Text}
    (htext : c.textFor x = .ok text) (hle : text.width ≤ c.width.toNat) :
    c.format x = .ok (fit left pad c.width.toNat text) := by
  unfold format
  rw [hc.padding, hfiller, htext, hc.side]
  change (if c.width.toNat < text.width ∧ _ then _ else _) = _
  rw [if_neg (by omega)]
  rfl

/-- Such a text is written whole, with the padding beside it. -/
theorem format_of_le (hfiller : c.isFiller = false) {x : Value} {text : Text}
    (htext : c.textFor x = .ok text) (hle : text.width ≤ c.width.toNat) :
    c.format x = .ok (beside left text (pad.copies (c.width.toNat - text.width))) := by
  rw [hc.format_fits hfiller htext hle, fit_eq_beside hle]

/-- A text of `2 ^ 31` bytes and more is not counted, and goes into a column whole. -/
theorem format_uncounted (hfiller : c.isFiller = false) {t : Text} (hlong : 2 ^ 31 ≤ t.length)
    (hlt : t.length < 2 ^ 32) :
    c.format (.text t) = .ok (beside left t (pad.copies c.width.toNat)) := by
  have hwidth : t.width = 0 := width_uncounted hlong hlt
  have hslot := hc.format_of_le hfiller (x := .text t) rfl (hwidth ▸ Nat.zero_le _)
  rwa [hwidth, Nat.sub_zero] at hslot

/-! ### Slots that are read -/

variable (hfiller : c.isFiller = false)

include hfiller

/-- What a column of texts reads. -/
theorem parse_text (htype : c.type = .ok "string") (slot : Text) :
    c.parse slot = if c.readsBlankAsNull && isBlank pad slot then .ok .null
      else .ok (.text (stripped left pad slot)) := by
  unfold parse
  rw [hfiller, hc.padding, hc.side, htype]
  change (if c.readsBlankAsNull && isBlank pad slot then _ else _) = _
  rfl

/-- What a column of integers reads. -/
theorem parse_integer (htype : c.type = .ok "integer") (slot : Text) :
    c.parse slot = if c.readsBlankAsNull && isBlank pad slot then .ok .null
      else c.parseNumber true slot (stripped left pad slot) := by
  unfold parse
  rw [hfiller, hc.padding, hc.side, htype]
  change (if c.readsBlankAsNull && isBlank pad slot then _ else _) = _
  rfl

end Fills

/-! ### Columns that are made -/

/-- What a column says of its values: width, side, padding and form, and whether a blank slot is
read as nothing. -/
def sayings? (c : Column) : Option (UInt64 × Bool × Text × Text × Bool) :=
  match c.alignsLeft, c.padding, c.type with
  | .ok left, .ok pad, .ok type => some (c.width, left, pad, type, c.readsBlankAsNull)
  | _, _, _ => none

/-- A column that is made, by what it says. -/
theorem exists_created {name : Text} {width : UInt64} {options : OptionMap} {left : Bool}
    {pad type : Text} {blank : Bool} (h : (create name width options).toOption.bind sayings?
      = some (width, left, pad, type, blank)) :
    ∃ c, create name width options = .ok c ∧ c.Fills left pad ∧ c.isFiller = false
      ∧ c.width = width ∧ c.type = .ok type ∧ c.readsBlankAsNull = blank := by
  cases hcreate : create name width options with
  | error e => simp [hcreate, Except.toOption] at h
  | ok c =>
    obtain ⟨hvalid, hschema, hfiller⟩ := create_valid hcreate
    rw [hcreate] at h
    change c.sayings? = _ at h
    unfold sayings? at h
    split at h
    · next hleft hpad htype =>
      cases h
      exact ⟨c, rfl, ⟨⟨hvalid, hschema⟩, hleft, hpad⟩, hfiller, rfl, htype, rfl⟩
    · exact absurd h (by simp)

/-- A column is made as soon as there is a table for what is given: its name and its width are in
it. -/
theorem exists_of_createTable {name : Text} {width : UInt64} {options : OptionMap}
    {table : OptionTable} (h : columnOptions.createTable ((options.insert OptionName.name
      (.text name)).insert OptionName.length (.int width.toInt64)) = .ok table) :
    ∃ c, create name width options = .ok c ∧ c.options = table ∧ c.width = width := by
  have hname : table.get OptionName.name = .text (name.trim isWhite) := by
    have hgiven : OptionMap.given? ((options.insert OptionName.name (.text name)).insert
        OptionName.length (.int width.toInt64)) OptionName.name = some (.text name) := by
      rw [OptionMap.given?_eq_some_iff, NameMap.find?_insert, NameMap.find?_insert,
        if_neg (by decide), if_pos rfl]
      exact ⟨rfl, rfl⟩
    exact OptionTable.get_createTable OptionSchema.distinct_columnOptions h rfl hgiven
  have hlength : table.get OptionName.length = .int width.toInt64 := by
    have hgiven : OptionMap.given? ((options.insert OptionName.name (.text name)).insert
        OptionName.length (.int width.toInt64)) OptionName.length = some (.int width.toInt64) := by
      rw [OptionMap.given?_eq_some_iff, NameMap.find?_insert, if_pos rfl]
      exact ⟨rfl, rfl⟩
    exact OptionTable.get_createTable OptionSchema.distinct_columnOptions h rfl hgiven
  refine ⟨⟨name.trim isWhite, width, (table.get OptionName.group).text?, false, table⟩,
    ?_, rfl, rfl⟩
  unfold create
  dsimp only
  rw [h]
  show (textOf (table.get OptionName.name) >>= _) = _
  rw [hname, hlength]
  rfl

end Column

end RecordLayout
