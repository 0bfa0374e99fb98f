import RecordLayout.Proofs.Column.Slot
import RecordLayout.Proofs.Layout.Declared
import RecordLayout.Proofs.Options.Runs

/-!
# Columns that are always understood

A column reads its padding, its side and its form from its table of options and takes them for
texts.  Tables keep only what their declarations allow, through all calls that change them, so
whatever is set and taken over, these three are texts that are accepted, and no slot is read or
written with a value of the wrong kind.

## Main definitions

* `Column.run`: a column after calls that change its options.
* `Column.Readable`: padding, side and form are as they should be, and are taken for what they are.

## Main results

* `Column.Settled.run`, `Column.Settled.readable`: such columns stay settled, and are readable.
* `OptionSchema.Built.run_allowed`: **what tables hold after all calls**, and columns for one.
-/

namespace RecordLayout

namespace Column

/-- A column whose options are changed by calls. -/
def run (c : Column) (calls : List OptionCall) : Column :=
  { c with options := c.options.run calls }

/-- Padding, side and form are texts that are accepted, and slots are never read or written with a
value of the wrong kind. -/
structure Readable (c : Column) : Prop where
  padding : ∃ pad, c.options.get OptionName.padding = .text pad ∧ pad.width = 1
  align : ∃ side ∈ alignments, c.options.get OptionName.align = .text side
  type : ∃ type ∈ columnTypes, c.options.get OptionName.type = .text type
  parse : ∀ slot kind, c.parse slot ≠ .error (.fault (.wrongKind kind))
  format : ∀ value kind, c.format value ≠ .error (.fault (.wrongKind kind))

theorem Settled.readable {c : Column} (hc : c.Settled) : c.Readable := by
  obtain ⟨hpadding, halign, htype⟩ := hc.accepted
  obtain ⟨pad, hpad, hone⟩ := text_of_any hpadding
  obtain ⟨side, hside, hsides⟩ := text_of_any halign
  obtain ⟨type, htypeText, htypes⟩ := text_of_any htype
  refine ⟨⟨pad, hpad, by simpa using hone⟩, ⟨side, List.contains_iff_mem.mp hsides, hside⟩,
    ⟨type, List.contains_iff_mem.mp htypes, htypeText⟩, fun slot kind h => ?_,
    fun value kind h => ?_⟩
  · obtain ⟨_, _, hunparsable⟩ := hc.of_parse_error h
    exact absurd hunparsable nofun
  · rcases hc.of_format_error h with ⟨_, -, h⟩ | ⟨_, -, h⟩ | ⟨_, _, -, -, -, h⟩ <;>
      exact absurd h nofun

/-- The options of a column that is made are those of a table that is made. -/
theorem create_complete {name : Text} {width : UInt64} {options : OptionMap} {c : Column}
    (h : create name width options = .ok c) :
    c.options.Complete ∧ c.options.schema = columnOptions := by
  obtain ⟨htable, -, -⟩ := create_ok h
  exact OptionTable.complete_createTable OptionSchema.distinct_columnOptions htable

/-- A filler has the options of the column that it is made from. -/
theorem createFiller_complete {name : Text} {width : UInt64} {padding : Text} {c : Column}
    (h : createFiller name width padding = .ok c) :
    c.options.Complete ∧ c.options.schema = columnOptions := by
  obtain ⟨column, hcolumn, -, rfl⟩ := createFiller_ok h
  exact create_complete (c := column) hcolumn

/-- Calls that change its options leave a column readable. -/
theorem readable_run {c : Column} (hc : c.options.Complete)
    (hschema : c.options.schema = columnOptions) (calls : List OptionCall) :
    (c.run calls).Readable := by
  obtain ⟨hrun, hrunSchema⟩ := hc.run calls
  exact Settled.readable ⟨hrun.valid, hrunSchema.trans hschema⟩

end Column

/-- **What tables hold after all calls.**  For every option schema, with any transforms and tests,
and every table made by it, whatever is set and taken over then, and whether that succeeds or not:

* what is stored is declared; a value from the owner or from elsewhere is a transformed one that is
  accepted, and one from elsewhere may be inherited; a default is the one of the declaration;
* what is required is there, and is no default.

So a column stays readable, whatever is done to its options. -/
theorem OptionSchema.Built.run_allowed {s : OptionSchema} (hs : s.Built) :
    (∀ provided t, s.createTable provided = .ok t → ∀ calls,
      (∀ name slot, (t.run calls).slots.find? name = some slot →
        ∃ spec, s.find? name = some spec
          ∧ (slot.origin ≠ .default →
            ∃ raw, spec.transform raw = slot.value ∧ spec.accepts slot.value = true)
          ∧ (slot.origin = .inherited → spec.inheritable = true)
          ∧ (slot.origin = .default → spec.default? = some slot.value))
      ∧ ∀ spec ∈ s.specs, spec.required = true →
        ∃ slot, (t.run calls).slots.find? spec.name = some slot ∧ slot.origin ≠ .default)
    ∧ (∀ name width options c, Column.create name width options = .ok c →
      ∀ calls, (c.run calls).Readable)
    ∧ ∀ name width padding c, Column.createFiller name width padding = .ok c →
      ∀ calls, (c.run calls).Readable := by
  refine ⟨fun provided t ht calls => ?_, fun name width options c hc calls => ?_,
    fun name width padding c hc calls => ?_⟩
  · obtain ⟨hcomplete, rfl⟩ := OptionTable.complete_createTable hs.distinct ht
    obtain ⟨hrun, hschema⟩ := hcomplete.run calls
    refine ⟨fun name slot hslot => ?_, fun spec hspec hrequired => ?_⟩
    · obtain ⟨spec, hspec, hallows⟩ := hrun.valid.allowed name slot hslot
      refine ⟨spec, hschema ▸ hspec, ?_⟩
      unfold OptionSpec.Allows at hallows
      split at hallows
      · next horigin => simp [horigin, hallows]
      · next horigin => exact ⟨fun _ => hallows.2, fun _ => hallows.1, by simp [horigin]⟩
      · next horigin => exact ⟨fun _ => hallows, by simp [horigin], by simp [horigin]⟩
    · exact OptionTable.isDefined_iff.mp (hrun.required spec (hschema.symm ▸ hspec) hrequired)
  · obtain ⟨hcomplete, hschema⟩ := Column.create_complete hc
    exact Column.readable_run hcomplete hschema calls
  · obtain ⟨hcomplete, hschema⟩ := Column.createFiller_complete hc
    exact Column.readable_run hcomplete hschema calls

/-- The options of a shelf: a name, which is required later than it is declared, and a side. -/
def shelfOptions : OptionSchema :=
  (((⟨3, "shelf", []⟩ : OptionSchema).define { nameSpec with required := false }).define
    (alignSpec (some (.text "left")))).configure [OptionName.name] [] [OptionName.align]

/-- The table of a shelf. -/
def shelf : OptionTable :=
  (shelfOptions.createTable (.ofList [(OptionName.name, .text "top")])).toOption.getD default

/-- A side set by the owner, a set with a side and with a padding that columns refuse, and a side
that is refused. -/
def shelfCalls : List OptionCall :=
  [.set OptionName.align (.text "RIGHT") true,
    .merge (.values (.ofList [(OptionName.align, .text "Left"), (OptionName.padding, .text "ab")]))
      ⟨.other, .defined⟩,
    .set OptionName.align (.int 4) true]

/-- After the calls, the side of a shelf is the one that was taken over, and its name is still
there; the column has taken over the side too, and refused the padding. -/
theorem OptionSchema.Built.run_allowed_shelf :
    (∃ raw, OptionRule.lowercase raw = .text "left"
        ∧ OptionRule.isOneOf alignments (.text "left") = true)
    ∧ (∃ slot, (shelf.run shelfCalls).slots.find? OptionName.name = some slot
        ∧ slot.origin ≠ .default)
    ∧ ∃ c, Column.create "a" 3 .empty = .ok c ∧ (c.run shelfCalls).Readable := by
  have hbuilt : shelfOptions.Built :=
    .configure (.define (.define (.start 3 "shelf") _) _) [OptionName.name] [] [OptionName.align]
  obtain ⟨htables, hcolumns, -⟩ := hbuilt.run_allowed
  obtain ⟨hstored, hrequired⟩ :=
    htables (.ofList [(OptionName.name, .text "top")]) shelf rfl shelfCalls
  refine ⟨?_, ?_, ⟨_, rfl, hcolumns "a" 3 .empty _ rfl shelfCalls⟩⟩
  · obtain ⟨spec, hspec, hheld, -⟩ :=
      hstored OptionName.align ⟨.text "left", .inherited⟩ rfl
    obtain rfl := Option.some.inj hspec
    exact hheld (by simp)
  · exact hrequired { nameSpec with required := true } List.mem_cons_self rfl

end RecordLayout
