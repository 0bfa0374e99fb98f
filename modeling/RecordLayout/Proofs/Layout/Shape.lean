import RecordLayout.Proofs.Layout.Labelled
import RecordLayout.Proofs.Layout.Refilled

/-!
# The shape of records

Which keys a record has depends on the schema only, not on the line it is read from: in the order of
the fields, the names of the columns, the groups where their first columns are, and the names of the
schemas inside; and the same again in the records of these.  So whatever is read can be written, as
far as records are where records have to be.

## Main definitions

* `Entry.label?`, `Layout.labels`: the places of the fields of a schema in its records.
* `Layout.KeysAlong`: the keys of the record at a path in the records of a schema.
* `Error.isWrongKind`, `CustomCodec.Refuses`: errors about the kind of a value, and codecs from
  elsewhere that refuse what they have read.

## Main results

* `Layout.Unfolds.labels_eq`: the places of an outline are those of its schema.
* `Layout.KeysAlong.gather`: **what is read has the keys of the schema**, inside and out.
* `Outline.write_reread`: what is read is of the right kind to be written.
* `Session.Reached.parse_shape`: **the shape of the records that a validated schema reads**.
-/

namespace RecordLayout

open Layout

/-! ### The places of a schema -/

/-- Where the value of a field goes in a record; a filler has none. -/
def Entry.label? (L : Layout) : Entry → Option Label
  | .column c => c.label?
  | .nested t => some (.field (L.schema t).name)
  | .reference ref => some (.field ref.storeName)

/-- The record at a path in a record. -/
def Record.along : List Text → Record → Option Record
  | [], r => some r
  | key :: path, r =>
    match r.find? key with
    | some (.record i) => along path i
    | _ => none

theorem Record.along_cons {r i : Record} {key : Text} (h : r.find? key = some (.record i))
    (path : List Text) : r.along (key :: path) = i.along path := by
  rw [along, h]

namespace Layout

variable {L : Layout} {s : SchemaId} {o : Outline}

/-- The places of the fields of a schema, in order. -/
def labels (L : Layout) (s : SchemaId) : List Label :=
  (L.schema s).entries.filterMap fun e => e.2.label? L

/-- The place of the field that stands under a key. -/
def labelAt (L : Layout) (s : SchemaId) (key : Text) : Option Label :=
  ((L.schema s).find? key).bind (Entry.label? L)

/-- The keys, in order, of the record at a path in the records of a schema: those of the schema
itself, those of a group of its columns, and those of a schema inside. -/
inductive KeysAlong (L : Layout) : SchemaId → List Text → List Text → Prop
  /-- The names of the columns and of the schemas inside, and the groups where their first columns
  are. -/
  | here (s : SchemaId) : KeysAlong L s [] (Label.keys (L.labels s))
  /-- The names of the columns of a group. -/
  | group {s : SchemaId} {group name : Text} (h : .member group name ∈ L.labels s) :
    KeysAlong L s [group] (Label.namesIn group (L.labels s))
  /-- A nested schema, under its name. -/
  | nested {s t : SchemaId} {key : Text} {path keys : List Text}
    (h : (key, .nested t) ∈ (L.schema s).entries) (hrest : KeysAlong L t path keys) :
    KeysAlong L s ((L.schema t).name :: path) keys
  /-- The target of a reference, under the name of the reference. -/
  | reference {s t : SchemaId} {key : Text} {ref : Reference} {path keys : List Text}
    (h : (key, .reference ref) ∈ (L.schema s).entries) (ht : ref.target? = some t)
    (hrest : KeysAlong L t path keys) : KeysAlong L s (ref.storeName :: path) keys

theorem NestedNamed.develop {M : Layout} (h : L.NestedNamed) (hL : L.WellMade)
    (hLM : L.Develops M) : M.NestedNamed := by
  have hfollows := hLM.follows hL
  intro s key t hnested
  cases hfind : (L.schema s).find? key with
  | none => exact absurd (hnested.symm.trans (hfollows.find_none hfind)) (by simp)
  | some e =>
    obtain ⟨e', he', hentry⟩ := hfollows.find_some hfind
    obtain rfl := Option.some.inj (hnested.symm.trans he')
    cases hentry with
    | nested => exact (hfollows.schema t).name.trans (h s key t hfind)

/-- A schema inside has its key for a place. -/
theorem labelAt_of_known (hnested : L.NestedNamed) {key : Text} {f : Field}
    (h : L.known? s key = some f) {t : SchemaId} (ht : f.schema? = some t) :
    L.labelAt s key = some (.field f.key) := by
  unfold labelAt
  rcases known_schema_cases h ht with ⟨hfind, rfl⟩ | ⟨ref, hfind, -, rfl⟩
  · rw [hfind]
    exact congrArg (some ∘ Label.field) (hnested s key t hfind)
  · rw [hfind]
    rfl

theorem UnfoldsTo.labels_eq (hnested : L.NestedNamed) {keys : List Text}
    (ho : L.UnfoldsTo s keys o) : o.labels = keys.filterMap (L.labelAt s) := by
  induction ho with
  | nil => rfl
  | @column s key keys c rest h _ ih =>
    have hlabel : L.labelAt s key = c.label? := by
      rw [labelAt, find_of_known_column h]
      rfl
    rw [Outline.labels, ih]
    cases hc : c.label? with
    | none => rw [List.filterMap_cons_none (hlabel.trans hc)]; rfl
    | some label => rw [List.filterMap_cons_some (hlabel.trans hc)]; rfl
  | branch h ht _ _ _ ih =>
    rw [Outline.labels, ih, List.filterMap_cons_some (labelAt_of_known hnested h ht)]

/-- **The places of an outline are those of its schema.** -/
theorem Unfolds.labels_eq (hL : L.Named) (hnested : L.NestedNamed) (ho : L.Unfolds s o) :
    o.labels = L.labels s := by
  refine (UnfoldsTo.labels_eq hnested ho).trans ?_
  show ((L.schema s).entries.map (·.1)).filterMap _ = _
  rw [List.filterMap_map]
  refine List.filterMap_congr fun e he => ?_
  show L.labelAt s e.1 = e.2.label? L
  rw [labelAt, hL.find?_of_mem he]
  rfl

/-! ### What is read -/

/-- The record of a schema inside is gathered from what its outline reads. -/
theorem UnfoldsTo.items_inner {keys : List Text} (ho : L.UnfoldsTo s keys o)
    {slot : Nat → Nat → Text} {start : Nat} {items : List Item}
    (hread : o.itemsBy slot start = .ok items) {key : Text} (hkey : key ∈ keys) {f : Field}
    (hf : L.known? s key = some f) {t : SchemaId} (ht : f.schema? = some t) :
    ∃ i start' inside, L.Unfolds t i ∧ i.itemsBy slot start' = .ok inside
      ∧ .field f.key (.record (gather inside)) ∈ items := by
  induction ho generalizing start items with
  | nil => exact absurd hkey List.not_mem_nil
  | @column s key' keys c rest h _ ih =>
    have hrest : key ∈ keys := by
      rcases List.mem_cons.mp hkey with rfl | hkey
      · rw [Option.some.inj (hf.symm.trans h)] at ht
        exact absurd ht nofun
      · exact hkey
    rw [Outline.itemsBy] at hread
    split at hread
    · exact ih hread hrest hf
    · obtain ⟨value, -, hread⟩ := Success.of_bind hread
      obtain ⟨more, hmore, hread⟩ := Success.of_bind hread
      obtain rfl := Except.ok.inj hread
      obtain ⟨i, start', inside, hi, hinside, hmem⟩ := ih hmore hrest hf
      exact ⟨i, start', inside, hi, hinside, List.mem_cons_of_mem _ hmem⟩
  | @branch s u key' keys g inner rest h hu hinner _ _ ih =>
    rw [Outline.itemsBy] at hread
    obtain ⟨within, hwithin, hread⟩ := Success.of_bind hread
    obtain ⟨more, hmore, hread⟩ := Success.of_bind hread
    obtain rfl := Except.ok.inj hread
    rcases List.mem_cons.mp hkey with rfl | hkey
    · obtain rfl := Option.some.inj (hf.symm.trans h)
      obtain rfl := Option.some.inj (ht.symm.trans hu)
      exact ⟨inner, start, within, hinner, hwithin, List.mem_cons_self⟩
    · obtain ⟨i, start', inside, hi, hinside, hmem⟩ := ih hmore hkey hf
      exact ⟨i, start', inside, hi, hinside, List.mem_cons_of_mem _ hmem⟩

/-- What is read goes to the places of the schema, and these are told apart. -/
theorem Unfolds.labels_read (hL : L.Named) (hnested : L.NestedNamed) (ho : L.Unfolds s o)
    {slot : Nat → Nat → Text} {start : Nat} {items : List Item}
    (hread : o.itemsBy slot start = .ok items) :
    items.map Item.label = L.labels s ∧ Label.Distinct (items.map Item.label) := by
  have hlabels := Outline.labels_of_itemsBy hread
  exact ⟨hlabels.trans (ho.labels_eq hL hnested), hlabels ▸ ho.distinct hL⟩

/-- A path into a schema inside goes on in the record that is read for it. -/
theorem Unfolds.along_inner (hL : L.Named) (ho : L.Unfolds s o) {slot : Nat → Nat → Text}
    {start : Nat} {items : List Item} (hread : o.itemsBy slot start = .ok items) {key : Text}
    (hkey : key ∈ (L.schema s).fields) {f : Field} (hf : L.known? s key = some f) {t : SchemaId}
    (ht : f.schema? = some t) :
    ∃ i start' inside, L.Unfolds t i ∧ i.itemsBy slot start' = .ok inside
      ∧ ∀ path, (gather items).along (f.key :: path) = (gather inside).along path := by
  have hdistinct := Outline.labels_of_itemsBy hread ▸ ho.distinct hL
  obtain ⟨i, start', inside, hi, hinside, hmem⟩ := UnfoldsTo.items_inner ho hread hkey hf ht
  exact ⟨i, start', inside, hi, hinside,
    Record.along_cons ((find?_gather hdistinct f.key _).mpr (.inl hmem))⟩

/-- **What is read has the keys of the schema**, in its own record and in all records inside. -/
theorem KeysAlong.gather (hL : L.Named) (hnested : L.NestedNamed) {path keys : List Text}
    (h : L.KeysAlong s path keys) (ho : L.Unfolds s o) {slot : Nat → Nat → Text} {start : Nat}
    {items : List Item} (hread : o.itemsBy slot start = .ok items) :
    ∃ i, (RecordLayout.gather items).along path = some i ∧ i.keys = keys ∧ keys.Nodup := by
  induction h generalizing o start items with
  | here s =>
    obtain ⟨hlabels, hdistinct⟩ := ho.labels_read hL hnested hread
    have hkeys := keys_gather hdistinct
    rw [hlabels] at hkeys
    exact ⟨_, rfl, hkeys, hkeys ▸ nodup_gather hdistinct⟩
  | @group s group name hmember =>
    obtain ⟨hlabels, hdistinct⟩ := ho.labels_read hL hnested hread
    rw [← hlabels] at hmember
    -- the record of a group is there because one of its columns has been read
    have hmembers : Item.membersOf group items ≠ [] := by
      obtain ⟨item, hitem, hlabel⟩ := List.mem_map.mp hmember
      cases item with
      | field => exact absurd hlabel nofun
      | member g n v =>
        obtain ⟨rfl, rfl⟩ := Label.member.inj hlabel
        exact List.ne_nil_of_mem (Item.mem_membersOf (e := (n, v)).mpr hitem)
    have hnames := Item.names_membersOf group items
    rw [hlabels] at hnames
    have hfind := (find?_gather hdistinct group _).mpr (.inr ⟨hmembers, rfl⟩)
    refine ⟨Item.membersOf group items, Record.along_cons hfind [], hnames, ?_⟩
    exact hnames ▸ Item.names_membersOf_nodup hdistinct.nodup group
  | @nested s t key path keys h _ ih =>
    have hfind := hL.find?_of_mem h
    obtain ⟨i, start', inside, hi, hinside, halong⟩ :=
      ho.along_inner hL hread (List.mem_map_of_mem h) (known_of_nested hfind) rfl
    obtain ⟨r, hr, hkeys⟩ := ih hi hinside
    rw [hnested s key t hfind]
    exact ⟨r, (halong path).trans hr, hkeys⟩
  | @reference s t key ref path keys h ht _ ih =>
    have hfind := hL.find?_of_mem h
    obtain ⟨i, start', inside, hi, hinside, halong⟩ :=
      ho.along_inner hL hread (List.mem_map_of_mem h) (known_of_reference hfind ht) rfl
    obtain ⟨r, hr, hkeys⟩ := ih hi hinside
    exact ⟨r, (halong path).trans hr, hkeys⟩

end Layout

/-! ### What is read is of the right kind -/

/-- An error about a value of the wrong kind: there is no record where one is expected, or one where
none is. -/
def Error.isWrongKind : Error → Bool
  | .groupNotRecord .. | .fieldNotRecord .. | .recordInColumn _ | .fault (.wrongKind _) => true
  | _ => false

/-- A codec from elsewhere refuses what it has read itself, or nothing if it is a filler. -/
def CustomCodec.Refuses (c : CustomCodec) (e : Error) : Prop :=
  ∃ v, ((c.isFiller = true ∧ v = .null) ∨ ∃ slot, c.parse slot = .ok v) ∧ c.format v = .error e

/-- A codec writes what it has read, as far as the kind of the value matters. -/
theorem Codec.format_reread {c : Codec} (hsettled : ∀ col : Column, c = .column col → col.Settled)
    {v : Value} (hv : (c.isFiller = true ∧ v = .null) ∨ ∃ slot, c.parse slot = .ok v) {e : Error}
    (h : c.format v = .error e) (he : e.isWrongKind = true) :
    ∃ d : CustomCodec, c = .custom d ∧ d.Refuses e := by
  cases c with
  | custom d => exact ⟨d, rfl, v, hv, h⟩
  | column col =>
    rcases (hsettled col rfl).of_format_error h with
      ⟨r, rfl, -⟩ | ⟨_, -, rfl⟩ | ⟨_, _, -, -, -, rfl⟩
    · rcases hv with ⟨-, hnull⟩ | ⟨slot, hparse⟩
      · exact absurd hnull nofun
      · exact absurd rfl (Column.ne_record_of_parse hparse r)
    · exact absurd he nofun
    · exact absurd he nofun

namespace Outline

/-- The value that a record has for a codec is the one that was read. -/
theorem exists_reread {c : Codec} {rest : Outline} {slot : Nat → Nat → Text} {start : Nat}
    {items : List Item} (hread : (column c rest).itemsBy slot start = .ok items) {r : Record}
    (hr : ∀ item ∈ items, item.In r) :
    ∃ v more, c.valueIn r = some v ∧ ((c.isFiller = true ∧ v = .null) ∨ ∃ s, c.parse s = .ok v)
      ∧ rest.itemsBy slot (start + c.width.toNat) = .ok more ∧ ∀ item ∈ more, item.In r := by
  rw [itemsBy] at hread
  cases hfiller : c.isFiller with
  | true =>
    rw [hfiller, if_pos rfl] at hread
    exact ⟨.null, items, if_pos hfiller, .inl ⟨rfl, rfl⟩, hread, hr⟩
  | false =>
    rw [hfiller, if_neg Bool.false_ne_true] at hread
    obtain ⟨v, hparse, hread⟩ := Success.of_bind hread
    obtain ⟨more, hmore, hread⟩ := Success.of_bind hread
    obtain rfl := Except.ok.inj hread
    exact ⟨v, more, Codec.valueIn_of_item hfiller (hr _ List.mem_cons_self), .inr ⟨_, hparse⟩,
      hmore, fun item hitem => hr item (List.mem_cons_of_mem _ hitem)⟩

/-- **What is read is of the right kind to be written**: only a codec from elsewhere may refuse it
for that. -/
theorem write_reread {o : Outline}
    (hsettled : ∀ col : Column, .column col ∈ o.codecs → col.Settled) (hnamed : o.WellNamed)
    {slot : Nat → Nat → Text} {start : Nat} {items : List Item}
    (hread : o.itemsBy slot start = .ok items) {r : Record} (hr : ∀ item ∈ items, item.In r)
    {name : Text} {e : Error} (h : o.write name r = .error e) (he : e.isWrongKind = true) :
    ∃ c : CustomCodec, .custom c ∈ o.codecs ∧ c.Refuses e := by
  induction o generalizing start items r name with
  | done => exact absurd h nofun
  | column c rest ih =>
    obtain ⟨v, more, hv, hkind, hmore, hmoreIn⟩ := exists_reread hread hr
    rw [write_column, Codec.columnValue_eq hv] at h
    -- the column refuses its own value, or the rest of the outline does
    rcases Success.or_of_bind_error h with hfirst | ⟨_, -, h⟩
    · obtain ⟨d, rfl, hd⟩ := Codec.format_reread
        (fun col hcol => hsettled col (hcol ▸ List.mem_cons_self)) hkind hfirst he
      exact ⟨d, List.mem_cons_self, hd⟩
    · rcases Success.or_of_bind_error h with hrest | ⟨_, -, h⟩
      · obtain ⟨d, hd, hrefuses⟩ := ih (fun col hcol => hsettled col (List.mem_cons_of_mem _ hcol))
          hnamed hmore hmoreIn hrest
        exact ⟨d, List.mem_cons_of_mem _ hd, hrefuses⟩
      · exact absurd h nofun
  | branch key t inside inner rest ihinner ihrest =>
    obtain ⟨hdistinct, hnamedInner, hnamedRest⟩ := hnamed
    rw [itemsBy] at hread
    obtain ⟨within, hwithin, hread⟩ := Success.of_bind hread
    obtain ⟨more, hmore, hread⟩ := Success.of_bind hread
    obtain rfl := Except.ok.inj hread
    -- a record stands under the key, so no value there is of the wrong kind
    have hi : r.find? key = some (.record (gather within)) := hr _ List.mem_cons_self
    rw [write_branch, nestedRecord_of_find hi] at h
    rcases Success.or_of_bind_error h with hfirst | ⟨_, -, h⟩
    · rw [← labels_of_itemsBy hwithin] at hdistinct
      obtain ⟨d, hd, hrefuses⟩ :=
        ihinner (fun col hcol => hsettled col (List.mem_append_left _ hcol)) hnamedInner hwithin
          (in_gather hdistinct) hfirst
      exact ⟨d, List.mem_append_left _ hd, hrefuses⟩
    · rcases Success.or_of_bind_error h with hrest | ⟨_, -, h⟩
      · obtain ⟨d, hd, hrefuses⟩ :=
          ihrest (fun col hcol => hsettled col (List.mem_append_right _ hcol)) hnamedRest hmore
            (fun item hitem => hr item (List.mem_cons_of_mem _ hitem)) hrest
        exact ⟨d, List.mem_append_right _ hd, hrefuses⟩
      · exact absurd h nofun

end Outline

/-! ### Records of a validated schema -/

namespace Session

open Build

/-- **The shape of the records that a validated schema reads**, if builders have declared only
fields of the schema they build.  At every path through nested schemas and references, and to a
group of columns, there are certain keys in a certain order, each once, whatever the line and the
start are.  So the record can be written, as far as the kind of its values matters; only a codec
from elsewhere may refuse what it has read itself. -/
theorem Reached.parse_shape {S : Session} (hS : S.Reached Orderly) {s : SchemaId}
    (hs : s < S.layout.schemas.length) {M N : Layout} (hvalid : validate s S.layout = .ok () M)
    (hMN : M.Develops N) :
    ∃ o, N.Unfolds s o
      ∧ (∀ path keys, N.KeysAlong s path keys →
        ∀ line start r N', parse s line start N = .ok r N' →
          ∃ i : Record, r.along path = some i ∧ i.keys = keys ∧ keys.Nodup)
      ∧ ∀ line start r N', parse s line start N = .ok r N' →
        ∀ e N'', format s r N = .error e N'' → e.isWrongKind = true →
          ∃ c : CustomCodec, .custom c ∈ o.codecs ∧ c.Refuses e := by
  have hpossible := hS.mono fun _ _ h => h.1
  have hmade := hpossible.sane.layout.wellMade
  have hSN := (validate_ok hmade hs hvalid).1.trans hMN
  have hnested := hpossible.labelled.1.develop hmade hSN
  have hnamed := (hSN.keeps hmade).named hS.named.layout
  obtain ⟨o, ho, hsettled, hdistinct, hwellNamed⟩ := hS.settled hs hvalid hMN
  have hread {line : Text} {start : UInt64} {r : Record} {N' : Layout}
      (hparse : parse s line start N = .ok r N') :
      ∃ items, o.itemsBy line.wordWindow start.toNat = .ok items ∧ gather items = r := by
    have houtcome := (ho.reports_parse_word line start).outcome
    unfold Build.outcome at houtcome
    rw [hparse] at houtcome
    exact Success.of_map houtcome.symm
  refine ⟨o, ho.unfolds, fun path keys hkeys line start r N' hparse => ?_,
    fun line start r N' hparse e N'' hformat he => ?_⟩
  · obtain ⟨items, hitems, rfl⟩ := hread hparse
    exact hkeys.gather hnamed hnested ho.unfolds hitems
  · obtain ⟨items, hitems, rfl⟩ := hread hparse
    have houtcome := (ho.reports_format_word (gather items)).outcome
    unfold Build.outcome at houtcome
    rw [hformat] at houtcome
    rcases Success.or_of_bind_error houtcome.symm with hwrite | ⟨line', -, hwidth⟩
    · rw [← Outline.labels_of_itemsBy hitems] at hdistinct
      exact Outline.write_reread hsettled hwellNamed hitems (in_gather hdistinct) hwrite he
    · split at hwidth
      · exact absurd hwidth nofun
      · rw [← Except.error.inj hwidth] at he
        exact absurd he nofun

/-! ### A schema with a group, a nested schema and a reference -/

/-- A column of the centre. -/
def centred : OptionMap := NameMap.empty.insert OptionName.group (.text "centre")

/-- A shape has two columns of a group, with another column between them, and takes its extent from
another schema of the definition. -/
def drawing : Session :=
  [ .addDefinition "drawing" .empty,
    .addSchema 0 "size" .empty,
    .addSchema 0 "shape" .empty,
    .declare 0 (.column "radius" 2 .empty),
    .declare 1 (.column "x" 1 centred),
    .declare 1 (.column "label" 2 .empty),
    .declare 1 (.column "y" 1 centred),
    .declare 1 (.reference "size" "extent" .empty),
    .beginNested 1 "style" .empty,
    .declare 2 (.column "colour" 1 .empty),
    .finish true].foldl step ⟨[], .empty⟩

/-- Its layout after the shape has been validated. -/
def validatedDrawing : Layout := (validate 1).after drawing.layout

theorem orderly_drawing : drawing.Reached Orderly :=
  Reached.start.moves ⟨⟨trivial, trivial⟩,
    ⟨show 0 < List.length _ by decide, trivial⟩,
    ⟨show 0 < List.length _ by decide, trivial⟩,
    ⟨⟨by decide, trivial⟩, by decide⟩,
    ⟨⟨by decide, trivial⟩, by decide⟩,
    ⟨⟨by decide, trivial⟩, by decide⟩,
    ⟨⟨by decide, trivial⟩, by decide⟩,
    ⟨⟨by decide, trivial⟩, by decide⟩,
    ⟨show 1 < List.length _ by decide, by decide⟩,
    ⟨⟨by decide, trivial⟩, by decide⟩, ⟨trivial, trivial⟩, trivial⟩

theorem validate_drawing : validate 1 drawing.layout = .ok () validatedDrawing :=
  ok_of_gives (by decide +kernel)

/-- The reference of a shape has found its target. -/
theorem extent_drawing : ∃ ref : Reference, ref.storeName = "extent" ∧ ref.target? = some 0
    ∧ (("extent" : Text), Entry.reference ref) ∈ (validatedDrawing.schema 1).entries := by
  have hcheck : (((validatedDrawing.schema 1).find? "extent").bind Entry.reference?).any
      (fun ref => ref.storeName = Text.ofString "extent" && ref.target? = some 0) = true := by
    decide +kernel
  obtain ⟨ref, href, hfound⟩ := (Option.any_eq_true _ _).mp hcheck
  rw [Bool.and_eq_true, decide_eq_true_eq, decide_eq_true_eq] at hfound
  obtain ⟨e, he, hreference⟩ := Option.bind_eq_some_iff.mp href
  refine ⟨ref, hfound.1, hfound.2, ?_⟩
  cases e with
  | column | nested => exact absurd hreference nofun
  | reference ref' =>
    obtain rfl := Option.some.inj hreference
    exact Listing.mem_of_find? he

/-- The group stands where its first column is, and holds both columns; the extent is a record of
the other schema. -/
theorem parse_shape_drawing : validate 1 drawing.layout = .ok () validatedDrawing
    ∧ ∃ r N', parse 1 "1ab2345" 0 validatedDrawing = .ok r N'
      ∧ r.keys = [Text.ofString "centre", Text.ofString "label", Text.ofString "extent",
          Text.ofString "style"]
      ∧ (∃ i : Record, r.along ["centre"] = some i
        ∧ i.keys = [Text.ofString "x", Text.ofString "y"])
      ∧ ∃ i : Record, r.along ["extent"] = some i ∧ i.keys = [Text.ofString "radius"] := by
  obtain ⟨o, -, hkeys, -⟩ := orderly_drawing.parse_shape (s := 1)
    (show 1 < List.length _ by decide) validate_drawing (.refl _)
  have hread : ((parse 1 "1ab2345" 0).outcome validatedDrawing).isOk = true := by decide +kernel
  have hlabels : validatedDrawing.labels 1 = [.member "centre" "x", .field "label",
      .member "centre" "y", .field "extent", .field "style"] := by decide +kernel
  have hsize : validatedDrawing.labels 0 = [.field "radius"] := by decide +kernel
  cases hparse : parse 1 "1ab2345" 0 validatedDrawing with
  | error e N' =>
    unfold Build.outcome at hread
    rw [hparse] at hread
    exact absurd hread nofun
  | ok r N' =>
    have halong {path keys : List Text} (h : validatedDrawing.KeysAlong 1 path keys) :
        ∃ i : Record, r.along path = some i ∧ i.keys = keys := by
      obtain ⟨i, hi, hkeys, -⟩ := hkeys path keys h "1ab2345" 0 r N' hparse
      exact ⟨i, hi, hkeys⟩
    refine ⟨validate_drawing, r, N', rfl, ?_, ?_, ?_⟩
    · obtain ⟨i, hi, hhere⟩ := halong (.here 1)
      obtain rfl := Option.some.inj hi
      rw [hhere, hlabels]
      decide
    · have hmember : Label.member "centre" "x" ∈ validatedDrawing.labels 1 := by
        rw [hlabels]
        exact List.mem_cons_self
      obtain ⟨i, hi, hgroup⟩ := halong (.group hmember)
      rw [hlabels] at hgroup
      exact ⟨i, hi, hgroup⟩
    · obtain ⟨ref, hname, htarget, hmem⟩ := extent_drawing
      obtain ⟨i, hi, hinside⟩ := halong (.reference hmem htarget (.here 0))
      rw [hname] at hi
      rw [hsize] at hinside
      exact ⟨i, hi, hinside⟩

end Session

end RecordLayout
