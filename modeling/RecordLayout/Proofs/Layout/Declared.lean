import RecordLayout.Proofs.Options.Making

/-!
# What a declaration has checked

A field that is declared has passed all checks against the schema, and its options are valid.

## Main definitions

* `Column.Made`, `Codec.Made`: columns as they come about, and codecs that are such a column or are
  made elsewhere.
* `Codec.Inherited`, `Codec.Receptive`: a codec that has taken over what a table defines, and one
  whose options receive what schemas hand down.
* `Schema.Accepts`: what is known of a field that a schema has accepted, and of its key.

## Main results

* `Column.create_ok`, `Column.createFiller_ok`: what columns and fillers are made of.
* `Column.Made.valid`: **the options of a column are valid**.
* `Codec.receptive_of_column`: **a column receives what schemas hand down**.
* `Schema.codecField_ok`, `Schema.fillerField_ok`, `Schema.referenceField_ok`: what is checked
  before a field is added.
* `Schema.accepts_columnField`, `Schema.accepts_givenField`, `Schema.accepts_fillerField`,
  `Schema.accepts_referenceField`.
-/

namespace RecordLayout

/-! ### Columns -/

/-- The columns that there are: made from options, with options taken over since. -/
inductive Column.Made : Column → Prop
  | create {name : Text} {width : UInt64} {options : OptionMap} {c : Column}
    (h : Column.create name width options = .ok c) : Made c
  | createFiller {name : Text} {width : UInt64} {padding : Text} {c : Column}
    (h : Column.createFiller name width padding = .ok c) : Made c
  | inherit {c : Column} (hc : Made c) (table : OptionTable) : Made (c.inherit table).1
  | takeOver {c : Column} (hc : Made c) (values : OptionMap) : Made (c.takeOver values).1

/-- A codec whose options, if it has any, have taken over what a table defines. -/
def Codec.Inherited (c : Codec) (table : OptionTable) : Prop :=
  ∀ t ∈ c.table?, t.Ignores table.defined

/-- A codec whose options, if it has any, receive what schemas hand down. -/
def Codec.Receptive (c : Codec) : Prop := ∀ t ∈ c.table?, t.schema.Receives

/-- A column that was made, or a codec from elsewhere. -/
def Codec.Made : Codec → Prop
  | .column c => c.Made
  | .custom _ => True

namespace Column

/-- What a column is made of: a table of its options, with its name and its width among them. -/
theorem create_ok {name : Text} {width : UInt64} {options : OptionMap} {c : Column}
    (h : create name width options = .ok c) :
    columnOptions.createTable ((options.insert OptionName.name (.text name)).insert
        OptionName.length (.int width.toInt64)) = .ok c.options
      ∧ c.group = (c.options.get OptionName.group).text? ∧ c.isFiller = false := by
  unfold create at h
  obtain ⟨table, htable, h⟩ := Success.of_bind h
  obtain ⟨_, -, h⟩ := Success.of_bind h
  obtain ⟨_, -, h⟩ := Success.of_bind h
  obtain rfl := Except.ok.inj h
  exact ⟨htable, rfl, rfl⟩

theorem create_valid {name : Text} {width : UInt64} {options : OptionMap} {c : Column}
    (h : create name width options = .ok c) :
    c.options.Valid ∧ c.options.schema = columnOptions ∧ c.isFiller = false := by
  obtain ⟨htable, -, hfiller⟩ := create_ok h
  obtain ⟨hvalid, hschema⟩ :=
    OptionSchema.createTable_valid OptionSchema.distinct_columnOptions htable
  exact ⟨hvalid, hschema, hfiller⟩

/-- A column that is given no group has none. -/
theorem create_group_none {name : Text} {width : UInt64} {options : OptionMap} {c : Column}
    (h : create name width options = .ok c) (hgroup : options.find? OptionName.group = none) :
    c.group = none := by
  obtain ⟨htable, hread, -⟩ := create_ok h
  have hnone : c.options.slots.find? OptionName.group = none := by
    obtain ⟨spec, hspec, hdefault⟩ : ∃ spec, columnOptions.find? OptionName.group = some spec
        ∧ spec.default? = none := ⟨_, rfl, rfl⟩
    rw [OptionTable.find?_createTable OptionSchema.distinct_columnOptions htable hspec, hdefault]
    unfold OptionMap.given?
    rw [NameMap.find?_insert, if_neg (by decide), NameMap.find?_insert,
      if_neg (by decide), hgroup]
    rfl
  rw [hread]
  unfold OptionTable.get
  rw [hnone]
  rfl

/-- A filler is a column of no group that is marked as one. -/
theorem createFiller_ok {name : Text} {width : UInt64} {padding : Text} {c : Column}
    (h : createFiller name width padding = .ok c) :
    ∃ column : Column, create name width (if padding.isEmpty then NameMap.empty
        else NameMap.empty.insert OptionName.padding (.text padding)) = .ok column
      ∧ column.group = none ∧ c = { column with isFiller := true } := by
  unfold createFiller at h
  obtain ⟨column, hcolumn, h⟩ := Success.of_bind h
  refine ⟨column, hcolumn, create_group_none hcolumn ?_, (Except.ok.inj h).symm⟩
  split
  · rfl
  · rw [NameMap.find?_insert, if_neg (by decide)]
    rfl

theorem createFiller_valid {name : Text} {width : UInt64} {padding : Text} {c : Column}
    (h : createFiller name width padding = .ok c) :
    c.options.Valid ∧ c.options.schema = columnOptions ∧ c.isFiller = true ∧ c.group = none := by
  obtain ⟨column, hcolumn, hgroup, rfl⟩ := createFiller_ok h
  obtain ⟨hvalid, hschema, -⟩ := create_valid hcolumn
  exact ⟨hvalid, hschema, rfl, hgroup⟩

/-- **The options of a column are valid.** -/
theorem Made.valid {c : Column} (h : c.Made) :
    c.options.Valid ∧ c.options.schema = columnOptions := by
  induction h with
  | create h => exact ⟨(create_valid h).1, (create_valid h).2.1⟩
  | createFiller h => exact ⟨(createFiller_valid h).1, (createFiller_valid h).2.1⟩
  | inherit _ table ih =>
    obtain ⟨hvalid, hschema⟩ := ih.1.merge table
    exact ⟨hvalid, hschema.trans ih.2⟩
  | takeOver _ values ih =>
    obtain ⟨hvalid, hschema⟩ := ih.1.mergeValues values
    exact ⟨hvalid, hschema.trans ih.2⟩

end Column

namespace Codec

/-- **A column receives what schemas hand down.** -/
theorem receptive_of_column {c : Column} (h : c.Made) : (Codec.column c).Receptive := by
  intro t ht
  obtain rfl := Option.some.inj ht
  rw [h.valid.2]
  exact OptionSchema.receives_columnOptions

/-- Options go on to receive what is handed down, whatever they have taken over. -/
theorem Receptive.inherit {c : Codec} (h : c.Receptive) (table : OptionTable) :
    (c.inherit table).1.Receptive := by
  intro t ht
  rw [table?_inherit] at ht
  obtain ⟨old, hold, rfl⟩ := Option.map_eq_some_iff.mp ht
  rw [OptionTable.merge_eq, OptionTable.mergeValues_schema]
  exact h old hold

theorem Receptive.takeOver {c : Codec} (h : c.Receptive) (m : OptionMap) :
    (c.takeOver m).1.Receptive := by
  intro t ht
  rw [table?_takeOver] at ht
  obtain ⟨old, hold, rfl⟩ := Option.map_eq_some_iff.mp ht
  rw [OptionTable.mergeValues_schema]
  exact h old hold

/-- A codec that receives what is handed down refuses no set that schemas take. -/
theorem Receptive.takeOver_none {c : Codec} (h : c.Receptive) {m : OptionMap}
    (hm : schemaOptions.Takes m) : (c.takeOver m).2 = none := by
  rw [takeOver_snd]
  cases htable : c.table? with
  | none => rfl
  | some t => exact OptionTable.mergeValues_takes (hm.received (h t htable))

theorem Receptive.inherit_none {c : Codec} (h : c.Receptive) {table : OptionTable}
    (htable : schemaOptions.Takes table.defined) : (c.inherit table).2 = none := by
  rw [inherit_snd]
  cases hown : c.table? with
  | none => rfl
  | some t =>
    show (t.merge table).2 = none
    rw [OptionTable.merge_eq]
    exact OptionTable.mergeValues_takes (htable.received (h t hown))

theorem Made.inherit {c : Codec} (h : c.Made) (table : OptionTable) : (c.inherit table).1.Made := by
  cases c with
  | column c => exact Column.Made.inherit h table
  | custom c => trivial

theorem inherit_slot (c : Codec) (table : OptionTable) :
    (c.inherit table).1.name = c.name ∧ (c.inherit table).1.width = c.width
      ∧ (c.inherit table).1.group = c.group ∧ (c.inherit table).1.isFiller = c.isFiller := by
  cases c <;> exact ⟨rfl, rfl, rfl, rfl⟩

end Codec

theorem unlessRefused_eq_ok_iff {α : Type} {result : α × Option Error} {a : α} :
    unlessRefused result = .ok a ↔ result = (a, none) := by
  obtain ⟨b, error?⟩ := result
  cases error? <;> simp [unlessRefused]

theorem unlessRefused_ok {α : Type} {result : α × Option Error} {a : α}
    (h : unlessRefused result = .ok a) : result.1 = a :=
  congrArg Prod.fst (unlessRefused_eq_ok_iff.mp h)

/-- A table that was merged to its end has taken over what the other one defines. -/
theorem OptionTable.ignores_merge {t u : OptionTable} (h : (t.merge u).2 = none) :
    (t.merge u).1.Ignores u.defined := by
  rw [merge_eq] at h ⊢
  exact ignores_mergeValues h

theorem Codec.inherited_inherit {c : Codec} {table : OptionTable}
    (h : (c.inherit table).2 = none) : (c.inherit table).1.Inherited table := by
  intro t ht
  rw [table?_inherit] at ht
  obtain ⟨old, hold, rfl⟩ := Option.map_eq_some_iff.mp ht
  rw [inherit_snd, hold] at h
  exact OptionTable.ignores_merge h

theorem of_guard {p : Prop} [Decidable p] {e : Error} {β : Type} {x : Except Error β} {b : β}
    (h : (if p then .error e else x) = .ok b) : ¬ p ∧ x = .ok b := by
  split at h
  · exact absurd h (by simp)
  · next hp => exact ⟨hp, h⟩

namespace Schema

/-- A key that no field and no group of the schema has. -/
def Free (node : Schema) (key : Text) : Prop := node.find? key = none ∧ key ∉ node.groups

/-- What is known of a field that a schema has accepted under a key. -/
inductive Accepts (node : Schema) : Text → Entry → Prop
  /-- A codec under its own name, which is free. -/
  | ungrouped {c : Codec} (hmade : c.Made) (hname : c.name.isIdentifier = true)
    (hgroup : c.group = none) (hfree : node.Free c.name) (hinherited : c.Inherited node.options) :
    Accepts node c.name (.column c)
  /-- A codec of a group, which is not the name of a field. -/
  | grouped {c : Codec} {g : Text} (hmade : c.Made) (hname : c.name.isIdentifier = true)
    (hgroup : c.group = some g) (hg : g.isIdentifier = true) (hfield : node.find? g = none)
    (hmember : node.find? (memberKey g c.name) = none) (hinherited : c.Inherited node.options) :
    Accepts node (memberKey g c.name) (.column c)
  /-- A filler under a free name. -/
  | filler {c : Codec} {key : Text} (hmade : c.Made) (hfiller : c.isFiller = true)
    (hgroup : c.group = none) (hfree : node.Free key) (hinherited : c.Inherited node.options) :
    Accepts node key (.column c)
  /-- A reference under a free name, with options that schemas hold and without a target. -/
  | reference {schemaName key : Text} {passed : OptionMap} (hname : key.isIdentifier = true)
    (hfree : node.Free key) (hpassed : passed.Held) :
    Accepts node key (.reference (.create schemaName key passed))

theorem free_of_checkNewKey {node : Schema} {key : Text} (h : node.checkNewKey key = .ok ()) :
    node.Free key := by
  unfold checkNewKey at h
  obtain ⟨hfield, h⟩ := of_guard h
  obtain ⟨hgroup, -⟩ := of_guard h
  exact ⟨by simpa using hfield, hgroup⟩

/-- The key of a codec: its name if that is free, or a free one in its group. -/
theorem columnKey_ok {node : Schema} {codec : Codec} {key : Text}
    (h : node.columnKey codec = .ok key) :
    (codec.group = none ∧ node.Free codec.name ∧ key = codec.name)
      ∨ ∃ g, codec.group = some g ∧ node.find? g = none
        ∧ node.find? (memberKey g codec.name) = none ∧ key = memberKey g codec.name := by
  unfold columnKey at h
  split at h
  · next hnone =>
    obtain ⟨_, hfree, rfl⟩ := Success.of_map h
    exact .inl ⟨hnone, free_of_checkNewKey hfree, rfl⟩
  · next g hg =>
    obtain ⟨hfield, h⟩ := of_guard h
    obtain ⟨hmember, h⟩ := of_guard h
    exact .inr ⟨g, hg, by simpa using hfield, by simpa using hmember, (Except.ok.inj h).symm⟩

/-- What is checked of a codec that becomes a field: its name, its group and its key.  Then it
inherits. -/
theorem codecField_ok {node : Schema} {codec : Codec} {key : Text} {entry : Entry}
    (h : node.codecField codec = .ok (key, entry)) :
    checkName codec.name = .ok () ∧ checkGroup codec.group = .ok ()
      ∧ node.columnKey codec = .ok key ∧ entry = .column (codec.inherit node.options).1
      ∧ (codec.inherit node.options).2 = none := by
  unfold codecField at h
  obtain ⟨_, hname, h⟩ := Success.of_bind h
  obtain ⟨_, hgroup, h⟩ := Success.of_bind h
  obtain ⟨k, hkey, h⟩ := Success.of_bind h
  obtain ⟨codec', hcodec, h⟩ := Success.of_bind h
  obtain ⟨rfl, rfl⟩ := Prod.mk.inj (Except.ok.inj h)
  obtain hinherit := unlessRefused_eq_ok_iff.mp hcodec
  exact ⟨hname, hgroup, hkey, congrArg (Entry.column ·.1) hinherit.symm,
    congrArg Prod.snd hinherit⟩

/-- What is checked of a filler that becomes a field: the key of the next number.  Then it
inherits. -/
theorem fillerField_ok {node : Schema} {width : UInt64} {padding : Text} {key : Text}
    {entry : Entry} (h : node.fillerField width padding = .ok (key, entry)) :
    key = Text.spacerName (node.fillers + 1) ∧ node.Free key
      ∧ ∃ column, Column.createFiller key width padding = .ok column
        ∧ entry = .column ((Codec.column column).inherit node.options).1
        ∧ ((Codec.column column).inherit node.options).2 = none := by
  unfold fillerField at h
  obtain ⟨-, h⟩ := of_guard h
  obtain ⟨_, hfree, h⟩ := Success.of_bind h
  obtain ⟨column, hcolumn, h⟩ := Success.of_bind h
  obtain ⟨codec, hcodec, h⟩ := Success.of_bind h
  obtain ⟨rfl, rfl⟩ := Prod.mk.inj (Except.ok.inj h)
  obtain hinherit := unlessRefused_eq_ok_iff.mp hcodec
  exact ⟨rfl, free_of_checkNewKey hfree, column, hcolumn,
    congrArg (Entry.column ·.1) hinherit.symm, congrArg Prod.snd hinherit⟩

/-- What is checked of a reference that becomes a field: its key, that no nested schema has the name
that it looks for, and its options. -/
theorem referenceField_ok {node : Schema} {schemaName storeName : Text} {options : OptionMap}
    {key : Text} {entry : Entry}
    (h : node.referenceField schemaName storeName options = .ok (key, entry)) :
    checkName key = .ok () ∧ node.Free key
      ∧ (node.find? schemaName).bind Entry.nested? = none
      ∧ ∃ passed, referenceOptions key options = .ok passed
        ∧ entry = .reference (.create schemaName key passed) := by
  unfold referenceField at h
  obtain ⟨-, h⟩ := of_guard h
  obtain ⟨-, h⟩ := of_guard h
  obtain ⟨_, hname, h⟩ := Success.of_bind h
  obtain ⟨_, hfree, h⟩ := Success.of_bind h
  obtain ⟨hnested, h⟩ := of_guard h
  obtain ⟨passed, hpassed, h⟩ := Success.of_bind h
  obtain ⟨rfl, rfl⟩ := Prod.mk.inj (Except.ok.inj h)
  exact ⟨hname, free_of_checkNewKey hfree, by simpa using hnested, passed, hpassed, rfl⟩

/-! ### What a field has that is accepted -/

theorem accepts_codecField {node : Schema} {codec : Codec} (hmade : codec.Made) {key : Text}
    {entry : Entry} (h : node.codecField codec = .ok (key, entry)) : node.Accepts key entry := by
  obtain ⟨hname, hgroup, hkey, rfl, hrefused⟩ := codecField_ok h
  have hinherited := Codec.inherited_inherit hrefused
  obtain ⟨hident, -⟩ := (checkName_eq_ok_iff codec.name).mp hname
  obtain ⟨hsname, -, hsgroup, -⟩ := codec.inherit_slot node.options
  have hmade' := hmade.inherit node.options
  rcases columnKey_ok hkey with ⟨hnone, hfree, rfl⟩ | ⟨g, hg, hfield, hmember, rfl⟩
  · rw [← hsname] at hident hfree ⊢
    exact .ungrouped hmade' hident (hsgroup.trans hnone) hfree hinherited
  · rw [hg] at hgroup
    obtain ⟨hgident, -⟩ := (checkName_eq_ok_iff g).mp hgroup
    rw [← hsname] at hident hmember ⊢
    exact .grouped hmade' hident (hsgroup.trans hg) hgident hfield hmember hinherited

theorem accepts_columnField {node : Schema} {name : Text} {width : UInt64} {options : OptionMap}
    {key : Text} {entry : Entry} (h : node.columnField name width options = .ok (key, entry)) :
    node.Accepts key entry := by
  unfold columnField at h
  obtain ⟨column, hcolumn, h⟩ := Success.of_bind h
  exact @accepts_codecField _ (.column column) (Column.Made.create hcolumn) _ _ h

theorem accepts_givenField {node : Schema} {codec? : Option Codec}
    (hmade : ∀ c ∈ codec?, c.Made) {key : Text} {entry : Entry}
    (h : node.givenField codec? = .ok (key, entry)) : node.Accepts key entry := by
  unfold givenField at h
  split at h
  · exact absurd h (by simp)
  · next codec =>
    obtain ⟨-, h⟩ := of_guard h
    exact accepts_codecField (hmade codec rfl) h

theorem accepts_fillerField {node : Schema} {width : UInt64} {padding : Text} {key : Text}
    {entry : Entry} (h : node.fillerField width padding = .ok (key, entry)) :
    node.Accepts key entry := by
  obtain ⟨-, hfree, column, hcolumn, rfl, hrefused⟩ := fillerField_ok h
  have hinherited := Codec.inherited_inherit hrefused
  obtain ⟨-, -, hfiller, hgroup⟩ := Column.createFiller_valid hcolumn
  obtain ⟨-, -, hsgroup, hsfiller⟩ := (Codec.column column).inherit_slot node.options
  have hmade : (Codec.column column).Made := Column.Made.createFiller hcolumn
  exact .filler (hmade.inherit node.options) (hsfiller.trans hfiller) (hsgroup.trans hgroup)
    hfree hinherited

theorem accepts_referenceField {node : Schema} {schemaName storeName : Text} {options : OptionMap}
    {key : Text} {entry : Entry}
    (h : node.referenceField schemaName storeName options = .ok (key, entry)) :
    node.Accepts key entry := by
  obtain ⟨hname, hfree, -, passed, hpassed, rfl⟩ := referenceField_ok h
  exact .reference ((checkName_eq_ok_iff _).mp hname).1 hfree (held_referenceOptions hpassed)

end Schema

end RecordLayout
