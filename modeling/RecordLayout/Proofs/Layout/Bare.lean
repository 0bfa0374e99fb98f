import RecordLayout.Proofs.Layout.Fit

/-!
# Layouts without what is inherited

A bare layout is what is left of a layout without the options that may be inherited, and without the
traces of their travels.  A merge changes no more than such options, so it leaves everything bare as
it is; and a declaration looks at nothing else of a layout.

## Main definitions

* `OptionTable.bare`, `Codec.bare`, `Entry.bare`, `Schema.bare`, `Layout.bare`: what is left without
  inheritable options.

## Main results

* `OptionTable.bare_merge`: **a merge leaves the bare table as it is**.
* `Layout.bare_append`, `Layout.bare_push`, …: what is added to a layout is added to the bare one.
-/

namespace RecordLayout

/-! ### Tables -/

namespace NameMap

variable {α : Type}

/-- The entries whose names pass a test. -/
def restrict (m : NameMap α) (p : Text → Bool) : NameMap α :=
  ⟨m.entries.filter fun e => p e.1, m.sorted.filter _⟩

/-- A name that fails the test makes no difference. -/
theorem restrict_insert (m : NameMap α) {p : Text → Bool} {name : Text} (h : p name = false)
    (value : α) : (m.insert name value).restrict p = m.restrict p := by
  -- the entry goes in among others or takes the place of one, and neither is kept
  have hentries (l : List (Text × α)) :
      (insertEntry name value l).filter (fun e => p e.1) = l.filter fun e => p e.1 := by
    induction l with
    | nil => simp [insertEntry, h]
    | cons e l ih =>
      unfold insertEntry
      split
      · simp [h]
      · split
        · rw [List.filter_cons, List.filter_cons, ih]
        · next hle hge =>
          have hname : name = e.1 := by
            rcases Std.lt_trichotomy name e.1 with hlt | heq | hgt
            · exact absurd hlt hle
            · exact heq
            · exact absurd hgt hge
          simp [h, ← hname]
  unfold restrict insert
  simp only [hentries]

end NameMap

namespace OptionTable

variable {t u : OptionTable}

/-- A table without the options that may be inherited. -/
def bare (t : OptionTable) : OptionTable :=
  { t with slots := t.slots.restrict fun name => !t.inherits name }

theorem bare_store {name : Text} (h : t.inherits name = true) (slot : Slot) :
    (t.store name slot).bare = t.bare := by
  show OptionTable.mk t.schema ((t.slots.insert name slot).restrict _) = _
  rw [NameMap.restrict_insert _ (by simpa [inherits, store] using h)]
  rfl

theorem bare_takeOver {policy : MergePolicy} {name : Text} {value : Value}
    (h : t.takeOver policy name value = .ok u) : u.bare = t.bare := by
  unfold takeOver at h
  split at h
  · next spec hspec =>
    split at h
    · rw [Except.ok.inj h]
    · next hopen =>
      obtain ⟨stored, -, rfl⟩ := Success.of_map h
      refine bare_store ?_ _
      rw [OptionSchema.name_of_find? hspec]
      unfold inherits OptionSchema.inherits
      rw [hspec]
      simp_all
  · rw [Except.ok.inj h]

/-- **A merge leaves the bare table as it is.** -/
theorem bare_takeOverAll (policy : MergePolicy) (t : OptionTable) (l : List (Text × Value)) :
    (takeOverAll policy t l).1.bare = t.bare := by
  induction l generalizing t with
  | nil => rfl
  | cons e l ih =>
    obtain ⟨name, value⟩ := e
    rw [takeOverAll_cons]
    split
    · next u hu => exact (ih u).trans (bare_takeOver hu)
    · rfl

@[simp] theorem bare_merge (t u : OptionTable) (policy : MergePolicy) :
    (t.merge u policy).1.bare = t.bare := bare_takeOverAll policy t _

end OptionTable

/-! ### Fields -/

/-- A codec without the options that may be inherited. -/
def Codec.bare : Codec → Codec
  | .column c => .column { c with options := c.options.bare }
  | .custom c => .custom { c with options? := c.options?.map OptionTable.bare }

/-- A reference without the option sets that wait at it. -/
def Reference.bare (ref : Reference) : Reference := { ref with pending := [] }

/-- A field without the options that may be inherited. -/
def Entry.bare : Entry → Entry
  | .column codec => .column codec.bare
  | .nested s => .nested s
  | .reference ref => .reference ref.bare

namespace Codec

theorem bare_inherit (c : Codec) (table : OptionTable) : (c.inherit table).1.bare = c.bare := by
  cases c with
  | column c =>
    show Codec.column { c with options := (c.options.merge table).1.bare } = _
    rw [OptionTable.bare_merge]
    rfl
  | custom c =>
    show Codec.custom { c with
      options? := (c.options?.map fun t => (t.merge table).1).map OptionTable.bare } = _
    simp only [Option.map_map, Function.comp_def, OptionTable.bare_merge]
    rfl

@[simp] theorem group_bare (c : Codec) : c.bare.group = c.group := by cases c <;> rfl

@[simp] theorem width_bare (c : Codec) : c.bare.width = c.width := by cases c <;> rfl

end Codec

@[simp] theorem Entry.group_bare (e : Entry) :
    e.bare.codec?.bind (·.group) = e.codec?.bind (·.group) := by
  cases e with
  | column c => exact c.group_bare
  | nested | reference => rfl

@[simp] theorem Entry.nested?_bare (e : Entry) : e.bare.nested? = e.nested? := by cases e <;> rfl

theorem Listing.find?_map {α β : Type} (f : α → β) (l : Listing α) (key : Text) :
    find? (l.map fun e => (e.1, f e.2)) key = (find? l key).map f := by
  induction l with
  | nil => rfl
  | cons e l ih =>
    rw [List.map_cons, find?_cons, find?_cons, ih]
    split <;> rfl

namespace Schema

variable {a b : Schema}

/-- A schema without the options that may be inherited, and without what it has received. -/
def bare (a : Schema) : Schema :=
  { a with
    options := a.options.bare
    entries := a.entries.map fun e => (e.1, e.2.bare)
    received := [] }

theorem find?_bare (a : Schema) (key : Text) : a.bare.find? key = (a.find? key).map Entry.bare :=
  Listing.find?_map Entry.bare a.entries key

@[simp] theorem fields_bare (a : Schema) : a.bare.fields = a.fields := by
  unfold fields Listing.names bare
  rw [List.map_map]
  rfl

/-! ### What the checks of a declaration look at -/

theorem checkNewKey_bare (a : Schema) (key : Text) :
    a.bare.checkNewKey key = a.checkNewKey key := by
  unfold checkNewKey
  rw [find?_bare, Option.isSome_map]
  rfl

theorem columnKey_bare (a : Schema) (c : Codec) : a.bare.columnKey c = a.columnKey c := by
  unfold columnKey
  simp only [checkNewKey_bare, find?_bare, Option.isSome_map]
  rfl

theorem nested?_bare (a : Schema) (key : Text) :
    (a.bare.find? key).bind Entry.nested? = (a.find? key).bind Entry.nested? := by
  rw [find?_bare]
  cases a.find? key with
  | none => rfl
  | some e => exact e.nested?_bare

theorem clashingReference?_bare (a : Schema) (targetName : SchemaId → Text) (name : Text) :
    a.bare.clashingReference? targetName name = a.clashingReference? targetName name := by
  unfold clashingReference? bare
  dsimp only
  rw [← List.map_reverse, List.find?_map, Option.map_map]
  congr 1
  congr 1
  funext ⟨key, e⟩
  cases e <;> rfl

theorem referenceField_bare (a : Schema) (schemaName storeName : Text) (options : OptionMap) :
    a.bare.referenceField schemaName storeName options
      = a.referenceField schemaName storeName options := by
  unfold referenceField
  simp only [checkNewKey_bare, nested?_bare]
  rfl

/-! ### What a declaration makes -/

theorem name_of_bare (h : a.bare = b.bare) : a.name = b.name := by
  show a.bare.name = b.bare.name
  rw [h]

/-- A field with its key, without the options that may be inherited. -/
def bareField (made : Text × Entry) : Text × Entry := (made.1, made.2.bare)

theorem unlessRefused_of_none {α : Type} {result : α × Option Error} (h : result.2 = none) :
    unlessRefused result = .ok result.1 := by
  unfold unlessRefused
  rw [h]

/-- A codec that is refused by neither of two schemas becomes a field of both, or of none. -/
theorem codecField_bare (h : a.bare = b.bare) {c : Codec} (ha : (c.inherit a.options).2 = none)
    (hb : (c.inherit b.options).2 = none) :
    (a.codecField c).map bareField = (b.codecField c).map bareField := by
  have hkey : a.columnKey c = b.columnKey c := by
    rw [← columnKey_bare, h, columnKey_bare]
  unfold codecField
  rw [unlessRefused_of_none ha, unlessRefused_of_none hb, hkey]
  cases checkName c.name with
  | error e => rfl
  | ok _ =>
    cases checkGroup c.group with
    | error e => rfl
    | ok _ =>
      cases b.columnKey c with
      | error e => rfl
      | ok key =>
        show Except.ok (key, Entry.column (c.inherit a.options).1.bare)
          = Except.ok (key, Entry.column (c.inherit b.options).1.bare)
        rw [Codec.bare_inherit, Codec.bare_inherit]

/-- A filler is checked and made in the same way by two schemas that are bare the same, and neither
of them refuses it. -/
theorem fillerField_bare (h : a.bare = b.bare) (ha : a.options.defined.Held)
    (hb : b.options.defined.Held) (width : UInt64) (padding : Text) :
    (a.fillerField width padding).map bareField = (b.fillerField width padding).map bareField := by
  have hfillers : a.fillers = b.fillers := by
    show a.bare.fillers = b.bare.fillers
    rw [h]
  have hkey (key : Text) : a.checkNewKey key = b.checkNewKey key := by
    rw [← checkNewKey_bare, h, checkNewKey_bare]
  unfold fillerField
  dsimp only
  rw [name_of_bare h, hfillers, hkey]
  by_cases hwidth : width = 0
  · rw [if_pos hwidth, if_pos hwidth]
    rfl
  rw [if_neg hwidth, if_neg hwidth]
  cases b.checkNewKey (Text.spacerName (b.fillers + 1)) with
  | error e => rfl
  | ok _ =>
    cases hcolumn : Column.createFiller (Text.spacerName (b.fillers + 1)) width padding with
    | error e => rfl
    | ok column =>
      have hreceptive := Codec.receptive_of_column (.createFiller hcolumn)
      have htakenA := unlessRefused_of_none (hreceptive.inherit_none ha.sound.takes)
      have htakenB := unlessRefused_of_none (hreceptive.inherit_none hb.sound.takes)
      show (unlessRefused ((Codec.column column).inherit a.options) >>= _).map bareField
        = (unlessRefused ((Codec.column column).inherit b.options) >>= _).map bareField
      rw [htakenA, htakenB]
      show Except.ok (_, Entry.column ((Codec.column column).inherit a.options).1.bare)
        = Except.ok (_, Entry.column ((Codec.column column).inherit b.options).1.bare)
      rw [Codec.bare_inherit, Codec.bare_inherit]

/-- **A declaration makes the same of two schemas that are bare the same**: the same field, except
for what it inherits, or the same error. -/
theorem field_bare (h : a.bare = b.bare) (ha : a.options.defined.Held)
    (hb : b.options.defined.Held) {d : Declaration} (hd : d.Receptive) :
    (d.field a).map bareField = (d.field b).map bareField := by
  have hcodec {c : Codec} (hc : c.Receptive) :
      (a.codecField c).map bareField = (b.codecField c).map bareField :=
    codecField_bare h (hc.inherit_none ha.sound.takes) (hc.inherit_none hb.sound.takes)
  cases d with
  | column name width options =>
    show (a.columnField name width options).map bareField
      = (b.columnField name width options).map bareField
    unfold columnField
    cases hcolumn : Column.create name width options with
    | error e => rfl
    | ok column => exact @hcodec (.column column) (Codec.receptive_of_column (.create hcolumn))
  | codec codec? =>
    show (a.givenField codec?).map bareField = (b.givenField codec?).map bareField
    cases codec? with
    | none => exact congrArg (Except.error <| Error.missingCodec ·) (name_of_bare h)
    | some c =>
      unfold givenField
      dsimp only
      split
      · rfl
      · exact hcodec (hd c rfl)
  | filler width padding => exact fillerField_bare h ha hb width padding
  | reference schemaName storeName options =>
    show (a.referenceField schemaName storeName options).map bareField
      = (b.referenceField schemaName storeName options).map bareField
    rw [← referenceField_bare a, h, referenceField_bare]

end Schema

/-! ### Layouts -/

/-- A catalog without the options that may be inherited. -/
def Catalog.bare (c : Catalog) : Catalog := { c with options? := c.options?.map OptionTable.bare }

namespace Layout

open Schema

variable {L M : Layout} {s : SchemaId}

/-- A layout without the options that may be inherited, and without the traces of their travels. -/
def bare (L : Layout) : Layout :=
  { L with schemas := L.schemas.map Schema.bare, catalogs := L.catalogs.map Catalog.bare }

theorem schema_bare (L : Layout) (s : SchemaId) : L.bare.schema s = (L.schema s).bare := by
  unfold schema bare
  simp only [List.getD_eq_getElem?_getD, List.getElem?_map]
  cases L.schemas[s]? <;> rfl

theorem catalog_bare (L : Layout) (c : CatalogId) : L.bare.catalog c = (L.catalog c).bare := by
  unfold catalog bare
  simp only [List.getD_eq_getElem?_getD, List.getElem?_map]
  cases L.catalogs[c]? <;> rfl

@[simp] theorem length_bare (L : Layout) : L.bare.schemas.length = L.schemas.length :=
  List.length_map ..

/-! ### What keys stand for -/

theorem listedFor_bare (L : Layout) (s : SchemaId) : L.bare.listedFor s = L.listedFor s := by
  funext missing name
  unfold listedFor
  rw [schema_bare]
  simp only [catalog_bare]
  rfl

theorem standsFor_bare (L : Layout) (search : Text → Except Error SchemaId) (s : SchemaId)
    (ref : Reference) : L.bare.standsFor search s ref.bare = L.standsFor search s ref := by
  unfold standsFor
  rw [schema_bare]
  rfl

theorem seenFrom_bare (L : Layout) (above : Error → Text → Except Error SchemaId) (s : SchemaId)
    (name : Text) : L.bare.seenFrom above s name = L.seenFrom above s name := by
  unfold seenFrom
  rw [schema_bare, find?_bare]
  cases (L.schema s).find? name with
  | none => rfl
  | some e =>
    cases e with
    | column | nested => rfl
    | reference ref => exact L.standsFor_bare _ s ref

theorem seenIn_bare (L : Layout) (around : List SchemaId) (s : SchemaId) (name : Text) :
    L.bare.seenIn around s name = L.seenIn around s name := by
  induction around generalizing s name with
  | nil =>
    unfold seenIn
    rw [listedFor_bare, seenFrom_bare]
  | cons parent around ih =>
    unfold seenIn
    rw [seenFrom_bare, show L.bare.seenIn around parent = _ from funext (ih parent)]

theorem seenAbove_bare (L : Layout) (s : SchemaId) : L.bare.seenAbove s = L.seenAbove s := by
  funext name
  unfold seenAbove
  rw [schema_bare, listedFor_bare]
  rw [show (L.schema s).bare.ancestors = (L.schema s).ancestors from rfl]
  cases (L.schema s).ancestors with
  | nil => rfl
  | cons parent around => exact L.seenIn_bare around parent name

theorem target_bare (L : Layout) (s : SchemaId) (ref : Reference) :
    L.bare.target s ref.bare = L.target s ref := by
  unfold target
  rw [seenAbove_bare, standsFor_bare]

/-! ### What is added to a layout -/

theorem map_modify {α β : Type} {f : α → β} {g : α → α} {k : β → β}
    (h : ∀ a, f (g a) = k (f a)) (l : List α) (i : Nat) :
    (l.modify i g).map f = (l.map f).modify i k := by
  induction l generalizing i with
  | nil => simp
  | cons a l ih =>
    cases i with
    | zero => simp [h]
    | succ i => simp [ih]

theorem bare_modify {f g : Schema → Schema} (h : ∀ a, (f a).bare = g a.bare) (L : Layout)
    (s : SchemaId) : (L.modify s f).bare = L.bare.modify s g := by
  unfold modify bare
  simp only [map_modify h]

theorem bare_append (L : Layout) (s : SchemaId) (key : Text) (entry : Entry) :
    (L.append s key entry).bare = L.bare.append s key entry.bare := by
  have hmodified := bare_modify (L := L) (s := s)
    (f := fun a => { a with
      entries := a.entries ++ [(key, entry)]
      groups := insertGroup a.groups (entry.codec?.bind (·.group))
      knownWidth? := none })
    (g := fun a => { a with
      entries := a.entries ++ [(key, entry.bare)]
      groups := insertGroup a.groups (entry.bare.codec?.bind (·.group))
      knownWidth? := none }) fun a => by
    unfold Schema.bare
    rw [Entry.group_bare, List.map_append]
    rfl
  unfold append
  rw [← hmodified]
  rfl

theorem bare_push (L : Layout) (node : Schema) : (L.push node).bare = L.bare.push node.bare := by
  unfold push bare
  rw [List.map_append]
  rfl

theorem bare_pushCatalog (L : Layout) (added : Catalog) :
    (L.pushCatalog added).bare = L.bare.pushCatalog added.bare := by
  unfold pushCatalog bare
  rw [List.map_append]
  rfl

theorem bare_markBusy (L : Layout) (s : SchemaId) (busy : Bool) :
    (L.markBusy s busy).bare = L.bare.markBusy s busy :=
  bare_modify (f := fun a => { a with busy }) (g := fun a => { a with busy }) (fun _ => rfl) L s

theorem bare_enlist (L : Layout) (c : CatalogId) (s : SchemaId) :
    (L.enlist c s).bare = L.bare.enlist c s := by
  have hcatalogs (e : Text × Option SchemaId) := map_modify (f := Catalog.bare)
    (g := fun catalog => { catalog with listing := catalog.listing ++ [e] })
    (k := fun catalog => { catalog with listing := catalog.listing ++ [e] })
    (fun _ => rfl) L.catalogs c
  unfold enlist
  rw [schema_bare]
  unfold bare
  dsimp only
  rw [hcatalogs]
  rfl

theorem bare_add (d : Declaration) (L : Layout) (s : SchemaId) (key : Text) (entry : Entry) :
    (d.add L s key entry).bare = d.add L.bare s key entry.bare := by
  unfold Declaration.add
  split
  · rw [← bare_append]
    exact bare_modify (f := fun a => { a with fillers := a.fillers + 1 })
      (g := fun a => { a with fillers := a.fillers + 1 }) (fun _ => rfl) _ s
  · exact bare_append L s key entry

end Layout

end RecordLayout
