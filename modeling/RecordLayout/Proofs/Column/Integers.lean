import RecordLayout.Proofs.Column.Fills
import RecordLayout.Proofs.Number.Grammar
import RecordLayout.Proofs.Text.Blank

/-!
# Columns of integers

A column of integers takes a slot apart in layers: a blank slot may count as nothing, then the
padding comes off at one side, then the spaces at both, and the rest has to be a numeral.  A padding
can be a digit, a sign or a space, and each layer takes what it can get; what the layers do together
is said here for every slot.

## Main results

* `Column.parseNumber_spaces`, `Column.parseNumber_nil`, `Column.parseNumber_numeral`: how what is
  left of a slot is read.
* `Column.Fills.parse_integer_iff`: **which slots hold which integers**, and what becomes of the
  others.
* `Column.parse_integer_overlong`: a blank slot that is not found to be one.
-/

namespace RecordLayout

open Text

namespace Column

variable {c : Column} {left : Bool} {pad raw text : Text}

/-- A slot of spaces holds nothing. -/
theorem parseNumber_spaces (h : trim isSpace text = []) (hraw : ∀ b ∈ raw, b = 0x20) :
    c.parseNumber true raw text = .ok .null := by
  unfold parseNumber
  simp [h, trim_eq_nil_iff.mpr hraw]

/-- Any other slot of which nothing is left holds zero. -/
theorem parseNumber_nil (h : trim isSpace text = []) (hraw : ¬ ∀ b ∈ raw, b = 0x20) :
    c.parseNumber true raw text = .ok (.int 0) := by
  have hne : trim isSpace raw ≠ [] := fun hnil => hraw (trim_eq_nil_iff.mp hnil)
  unfold parseNumber
  simp [h, hne]

/-- If something is left, it is read as a numeral. -/
theorem parseNumber_numeral (h : trim isSpace text ≠ []) : c.parseNumber true raw text
    = match readInteger (trim isSpace text) with
      | some w => .ok (.int w)
      | none => .error (.unparsable c.name text "integer") := by
  have hempty : ¬ (trim isSpace text).isEmpty = true := by simpa using h
  exact (if_neg hempty).trans rfl

/-- A numeral is read as its integer, and no integer is read from anything else. -/
theorem parseNumber_eq_int_iff (h : trim isSpace text ≠ []) {w : Int64} :
    c.parseNumber true raw text = .ok (.int w) ↔ Numeral (trim isSpace text) w.toInt := by
  rw [parseNumber_numeral h, ← readInteger_eq_some_iff]
  cases readInteger (trim isSpace text) with
  | none => simp
  | some v => simp

/-- What is no numeral of a word is refused. -/
theorem parseNumber_refuses (h : trim isSpace text ≠ [])
    (hnone : ∀ w : Int64, ¬ Numeral (trim isSpace text) w.toInt) :
    c.parseNumber true raw text = .error (.unparsable c.name text "integer") := by
  rw [parseNumber_numeral h]
  cases hread : readInteger (trim isSpace text) with
  | none => rfl
  | some w => exact absurd (readInteger_eq_some_iff.mp hread) (hnone w)

namespace Fills

variable (hc : c.Fills left pad)

include hc

/-- A slot is taken for a blank one exactly if the column asks for that and the slot is blank. -/
theorem isBlank_iff (hshort : c.readsBlankAsNull = true → pad.length < 2 ^ 32) (slot : Text) :
    (c.readsBlankAsNull && isBlank pad slot) = true
      ↔ c.readsBlankAsNull = true ∧ Blank pad slot := by
  rw [Bool.and_eq_true]
  refine and_congr_right fun hblank => ?_
  exact Text.isBlank_iff (hc.isCharacter (hshort hblank)).definite

/-- **Which slots hold which integers.**  A blank slot holds nothing where the column says so; the
padding must not be too long to be counted there.  Otherwise the padding comes off, all copies of
it, and then all spaces: a slot of spaces holds nothing, any other slot of which nothing is left
holds zero, and what is left is the integer of which it is a numeral, or it is refused. -/
theorem parse_integer_iff (hfiller : c.isFiller = false) (htype : c.type = .ok "integer")
    (hshort : c.readsBlankAsNull = true → pad.length < 2 ^ 32) (slot : Text) :
    (c.readsBlankAsNull = true ∧ Blank pad slot → c.parse slot = .ok .null)
    ∧ (¬ (c.readsBlankAsNull = true ∧ Blank pad slot) →
      ∃ rest core, Strips left pad slot rest ∧ Trims rest core
        ∧ ((∀ b ∈ slot, b = 0x20) → c.parse slot = .ok .null)
        ∧ (¬ (∀ b ∈ slot, b = 0x20) → core = [] → c.parse slot = .ok (.int 0))
        ∧ (core ≠ [] → ∀ w : Int64, c.parse slot = .ok (.int w) ↔ Numeral core w.toInt)
        ∧ (core ≠ [] → (∀ w : Int64, ¬ Numeral core w.toInt) →
          ∃ e, c.parse slot = .error e ∧ e = .unparsable c.name rest "integer"
            ∧ e.code = .invalidArgument)) := by
  have hparse := hc.parse_integer hfiller htype slot
  rw [← hc.isBlank_iff hshort slot]
  refine ⟨fun hblank => ?_, fun hblank => ?_⟩
  · rw [hparse, if_pos hblank]
  · rw [if_neg hblank] at hparse
    refine ⟨stripped left pad slot, trim isSpace (stripped left pad slot),
      (strips_iff hc.pad_ne_nil).mpr rfl, trims_iff.mpr rfl, ?_, ?_, ?_, ?_⟩
    · intro hspaces
      -- what is left of spaces are spaces
      have hnil : trim isSpace (stripped left pad slot) = [] :=
        trim_eq_nil_iff.mpr fun b hb => hspaces b (mem_of_mem_stripped hb)
      rw [hparse, parseNumber_spaces hnil hspaces]
    · intro hspaces hnil
      rw [hparse, parseNumber_nil hnil hspaces]
    · intro hcore w
      rw [hparse, parseNumber_eq_int_iff hcore]
    · intro hcore hnone
      exact ⟨_, hparse.trans (parseNumber_refuses hcore hnone), rfl, rfl⟩

end Fills

/-! ### A column that is filled up with zeros -/

/-- Integers with zeros in front; a blank slot is read as nothing. -/
def zeroFilled : OptionMap :=
  ((NameMap.empty.insert OptionName.type (.text "integer")).insert OptionName.padding
    (.text "0")).insert OptionName.nilBlank (.bool true)

theorem exists_zeroFilled : ∃ c, create "n" 5 zeroFilled = .ok c ∧ c.Fills false "0"
    ∧ c.isFiller = false ∧ c.width = 5 ∧ c.type = .ok "integer" ∧ c.readsBlankAsNull = true :=
  exists_created (by decide)

/-- Zeros and spaces are nothing to it, and zeros in front of a minus sign are padding. -/
theorem parse_integer_zeroFilled : ∃ c, create "n" 5 zeroFilled = .ok c
    ∧ c.parse "00 0 " = .ok .null ∧ c.parse "00-12" = .ok (.int (-12)) := by
  obtain ⟨c, hcreate, hc, hfiller, -, htype, hnil⟩ := exists_zeroFilled
  have hparse := hc.parse_integer_iff hfiller htype (fun _ => by decide)
  refine ⟨c, hcreate, (hparse _).1 ⟨hnil, ?_⟩, ?_⟩
  · exact Blank.nil.space.copy.space.copy.copy
  · have hblank : ¬ (c.readsBlankAsNull = true ∧ Blank (ofString "0") (ofString "00-12")) := by
      rintro ⟨-, h⟩
      have hmem := h.mem (show (0x2D : UInt8) ∈ ofString "00-12" by decide)
      exact absurd hmem (by decide)
    obtain ⟨rest, core, hrest, hcore, -, -, hint, -⟩ := (hparse _).2 hblank
    have hstrip : Strips false (ofString "0") (ofString "00-12") (ofString "-12") :=
      ⟨⟨2, by decide⟩, by decide⟩
    obtain rfl : ofString "-12" = rest := hstrip.unique hc.pad_ne_nil hrest
    rw [trims_iff, trim_of_not_mem (by decide)] at hcore
    subst hcore
    have htwelve : Digits [digit 1, digit 2] 12 := (Digits.one (by decide)).more (by decide)
    apply (hint (by decide) (-12)).mpr
    rw [show ofString "-12" = 0x2D :: [digit 1, digit 2] by decide]
    exact .minus htwelve

/-! ### A padding that is too long to be counted -/

/-- Values of a form at the left, before the padding; a blank slot is read as nothing. -/
def blankAtLeft (type pad : Text) : OptionMap :=
  .ofList [(OptionName.align, .text "left"), (OptionName.nilBlank, .bool true),
    (OptionName.padding, .text pad), (OptionName.type, .text type)]

/-- With every padding that is counted as one character there is such a column. -/
theorem exists_blankAtLeft {type pad : Text} (htype : type = "string" ∨ type = "integer")
    (hpad : pad.width = 1) : ∃ c, create "n" 2 (blankAtLeft type pad) = .ok c ∧ c.Fills true pad
      ∧ c.isFiller = false ∧ c.width = 2 ∧ c.type = .ok type ∧ c.readsBlankAsNull = true := by
  obtain ⟨provided, hprovided⟩ : ∃ provided : OptionMap, provided
    = ((blankAtLeft type pad).insert OptionName.name (.text "n")).insert OptionName.length
      (.int (2 : UInt64).toInt64) := ⟨_, rfl⟩
  have hform : OptionRule.lowercase (.text type) = .text type
      ∧ OptionRule.isOneOf columnTypes (.text type) = true := by
    rcases htype with rfl | rfl <;> exact ⟨by rfl, by decide⟩
  obtain ⟨table, htable⟩ : ∃ table, columnOptions.createTable provided = .ok table := by
    refine OptionSchema.exists_createTable OptionSchema.distinct_columnOptions (fun e he => ?_)
      fun spec hspec hrequired => ?_
    · have hentries : provided.entries = [(OptionName.align, .text "left"),
        (OptionName.length, .int 2), (OptionName.name, .text "n"),
        (OptionName.nilBlank, .bool true),
        (OptionName.padding, .text pad), (OptionName.type, .text type)] := hprovided ▸ rfl
      simp only [hentries, List.mem_cons, List.not_mem_nil, or_false] at he
      rcases he with rfl | rfl | rfl | rfl | rfl | rfl
      iterate 4 exact ⟨_, rfl, fun _ => by decide⟩
      · exact ⟨_, rfl, fun _ => beq_iff_eq.mpr hpad⟩
      · exact ⟨_, rfl, fun _ =>
          (congrArg (OptionRule.isOneOf columnTypes) hform.1).trans hform.2⟩
    · subst hprovided
      simp only [columnOptions, List.mem_cons, List.not_mem_nil, or_false] at hspec
      rcases hspec with rfl | rfl | rfl | rfl | rfl | rfl | rfl | rfl | rfl <;>
        first | rfl | exact absurd hrequired (by decide)
  subst hprovided
  have hget {key : Text} {v : Value} {spec : OptionSpec}
      (hspec : columnOptions.find? key = some spec) (hgiven : OptionMap.given? _ key = some v) :
      table.get key = spec.transform v :=
    OptionTable.get_createTable OptionSchema.distinct_columnOptions htable hspec hgiven
  have hpadding : table.get OptionName.padding = .text pad := (hget rfl rfl).trans rfl
  have hleft : table.get OptionName.align = .text "left" := (hget rfl rfl).trans rfl
  have hkind : table.get OptionName.type = .text type := (hget rfl rfl).trans hform.1
  have hblank : table.get OptionName.nilBlank = .bool true := (hget rfl rfl).trans rfl
  obtain ⟨c, hcreate, rfl, hwidth⟩ := exists_of_createTable htable
  obtain ⟨hvalid, hschema, hfiller⟩ := create_valid hcreate
  refine ⟨c, hcreate, ⟨⟨hvalid, hschema⟩, ?_, congrArg textOf hpadding⟩, hfiller, hwidth,
    congrArg textOf hkind, ?_⟩
  · unfold alignsLeft
    rw [hleft]
    rfl
  · unfold readsBlankAsNull hasFlag
    rw [hblank]
    rfl

/-- **A blank slot is read as zero**, although blank slots are to be read as nothing: it has a space
before a padding that is too long to be counted. -/
theorem parse_integer_overlong : ∃ c, create "n" 2 (blankAtLeft "integer" overlong) = .ok c
    ∧ c.Fills true overlong ∧ c.isFiller = false ∧ c.type = .ok "integer"
    ∧ c.readsBlankAsNull = true ∧ Blank overlong (0x20 :: overlong)
    ∧ c.parse (0x20 :: overlong) = .ok (.int 0) := by
  obtain ⟨c, hcreate, hc, hfiller, -, htype, hblank⟩ :=
    exists_blankAtLeft (.inr rfl) width_overlong
  refine ⟨c, hcreate, hc, hfiller, htype, hblank, blank_space_cons _, ?_⟩
  -- the padding comes off, and what is left of the slot are spaces
  have hspaces : ∀ b ∈ stripped true overlong (0x20 :: overlong), b = 0x20 := by
    rw [← beside_space, stripped_beside hc.pad_ne_nil]
    intro b hb
    exact List.mem_singleton.mp (mem_of_mem_stripped hb)
  have hmore : ¬ ∀ b ∈ (0x20 :: overlong : Text), b = 0x20 := by
    obtain ⟨t, ht⟩ := overlong_eq
    intro hall
    exact absurd (hall 0x61 (by simp [ht])) (by decide)
  rw [hc.parse_integer hfiller htype, isBlank_overlong, Bool.and_false, if_neg Bool.false_ne_true,
    parseNumber_nil (trim_eq_nil_iff.mpr hspaces) hmore]

end Column

end RecordLayout
