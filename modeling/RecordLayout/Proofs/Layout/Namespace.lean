import RecordLayout.Proofs.Layout.Listed

/-!
# The names of a schema

Columns, codecs from elsewhere, fillers, nested schemas and references share the keys of a schema
with its groups, and each of them checks its key in its own way.  As long as builders only declare
fields of the schema they build, the checks suffice: no key is there twice, none is the name of a
group, and the name of the next filler is always free.

## Main definitions

* `Schema.Namespace`: what holds of the keys and groups of a schema to which fillers were added.

## Main results

* `Schema.Registered.names`: what the checks of all declarations come to.
* `Session.Allowed.namespaces`: **no two names meet**, in a schema or in a definition.
-/

namespace RecordLayout

namespace Schema

/-- What holds of the keys and groups of a schema to which a number of fillers were added. -/
structure Namespace (node : Schema) (added : Nat) : Prop where
  /-- No key is there twice. -/
  nodup : node.fields.Nodup
  /-- The keys that are listed are those of the fields. -/
  listed : ∀ key, key ∈ node.fields ↔ (node.find? key).isSome = true
  /-- A key is a name that may be declared, two such names with a dot between them, or the name of
  a filler. -/
  keys : ∀ key ∈ node.fields, key.IsDeclarable
    ∨ (∃ group name : Text, group.IsDeclarable ∧ name.IsDeclarable ∧ key = memberKey group name)
    ∨ ∃ n, key = Text.spacerName n
  /-- The fillers are numbered from one on. -/
  fillers : ∀ n, Text.spacerName n ∈ node.fields ↔ 0 < n ∧ n ≤ added
  /-- The groups are those of the codecs. -/
  groups : ∀ g, g ∈ node.groups ↔ ∃ key c, node.find? key = some (.column c) ∧ c.group = some g
  /-- No group has the name of a field. -/
  apart : ∀ g ∈ node.groups, g ∉ node.fields

variable {node : Schema}

/-- What stands in the places of a schema without a key twice is what is found under its keys. -/
theorem mem_places_iff (hnodup : node.fields.Nodup) {key : Text} {group? : Option Text} :
    (key, group?) ∈ node.places ↔ ∃ e, node.find? key = some e ∧ e.group? = group? := by
  unfold places
  rw [List.mem_map]
  constructor
  · rintro ⟨⟨k, e⟩, hmem, hplace⟩
    obtain ⟨rfl, rfl⟩ := Prod.mk.inj hplace
    exact ⟨e, (Listing.mem_iff_find? hnodup _ _).mp hmem, rfl⟩
  · rintro ⟨e, hfind, rfl⟩
    exact ⟨(key, e), (Listing.mem_iff_find? hnodup _ _).mpr hfind, rfl⟩

theorem mem_fields_iff {key : Text} : key ∈ node.fields ↔ (node.find? key).isSome = true := by
  have hnone : node.find? key = none ↔ key ∉ node.fields := Listing.find?_eq_none_iff _ _
  rw [← Option.ne_none_iff_isSome, Ne, hnone, Classical.not_not]

theorem group?_eq_some_iff {e : Entry} {g : Text} :
    e.group? = some g ↔ ∃ c, e = .column c ∧ c.group = some g := by
  cases e <;> simp [Entry.group?, Entry.codec?]

namespace Registered

/-- The groups of a schema may be declared. -/
theorem declarable (h : node.Registered) {g : Text} (hg : g ∈ node.groups) : g.IsDeclarable := by
  obtain ⟨key, hplace⟩ := (h.groups g).mp hg
  rcases h.keys key (some g) hplace with hchosen | ⟨-, hnone⟩
  · cases hchosen with
    | member hgroup => exact hgroup
  · exact absurd hnone (by simp)

/-- **What the checks of all declarations come to.** -/
theorem names (h : node.Registered) (hnamed : node.Named) : node.Namespace node.fillers := by
  have hnodup := hnamed.nodup
  refine ⟨hnodup, fun _ => mem_fields_iff, fun key hkey => ?_, h.fillers, fun g => ?_,
    fun g hg hfield => ?_⟩
  · rw [fields_eq_places] at hkey
    obtain ⟨⟨k, group?⟩, hplace, rfl⟩ := List.mem_map.mp hkey
    rcases h.keys k group? hplace with hchosen | ⟨hspacer, -⟩
    · cases hchosen with
      | own hname => exact .inl hname
      | member hgroup hname => exact .inr (.inl ⟨_, _, hgroup, hname, rfl⟩)
    · exact .inr (.inr hspacer)
  · rw [h.groups]
    refine exists_congr fun key => ?_
    rw [mem_places_iff hnodup]
    constructor
    · rintro ⟨e, hfind, hgroup⟩
      obtain ⟨c, rfl, hc⟩ := group?_eq_some_iff.mp hgroup
      exact ⟨c, hfind, hc⟩
    · rintro ⟨c, hfind, hc⟩
      exact ⟨.column c, hfind, hc⟩
  · -- a field with the name of a group has no group itself, so its name was checked against them
    obtain ⟨e, hfind⟩ := Option.isSome_iff_exists.mp (mem_fields_iff.mp hfield)
    have hplace := (mem_places_iff hnodup).mpr ⟨e, hfind, rfl⟩
    have hnone : e.group? = none := by
      rcases h.keys g e.group? hplace with hchosen | ⟨-, hnone⟩
      · exact hchosen.group_eq_none (h.declarable hg)
      · exact hnone
    exact hnamed.own g e hfind hnone hg

/-- The name of the next filler is free. -/
theorem checkNewKey_spacerName (h : node.Registered) :
    node.checkNewKey (Text.spacerName (node.fillers + 1)) = .ok () := by
  have hfield : Text.spacerName (node.fillers + 1) ∉ node.fields := by
    rw [h.fillers]
    omega
  have hgroup : Text.spacerName (node.fillers + 1) ∉ node.groups :=
    fun hg => (h.declarable hg).ne_spacerName _ rfl
  unfold checkNewKey
  rw [if_neg fun hsome => hfield (mem_fields_iff.mpr hsome), if_neg hgroup]

end Registered

end Schema

/-! ### Fillers that are refused -/

namespace Column

theorem code_of_mapError {α : Type} {x : Except Fault α} {e : Error}
    (h : x.mapError Error.fault = .error e) : e.code = .error := by
  cases x with
  | ok a => exact absurd h (by simp [Except.mapError])
  | error f =>
    rw [← Except.error.inj h]
    rfl

/-- A column fails to be made for its options, or for values of another kind than asked for. -/
theorem code_of_create {name : Text} {width : UInt64} {options : OptionMap} {e : Error}
    (h : create name width options = .error e) : e.code = .configError ∨ e.code = .error := by
  unfold create at h
  rcases Success.or_of_bind_error h with htable | ⟨table, -, h⟩
  · exact .inl (OptionSchema.code_of_createTable htable)
  rcases Success.or_of_bind_error h with hname | ⟨name, -, h⟩
  · exact .inr (code_of_mapError hname)
  rcases Success.or_of_bind_error h with hwidth | ⟨width, -, h⟩
  · exact .inr (code_of_mapError hwidth)
  exact absurd h (by simp [pure, Except.pure])

theorem code_of_createFiller {name : Text} {width : UInt64} {padding : Text} {e : Error}
    (h : createFiller name width padding = .error e) :
    e.code = .configError ∨ e.code = .error := by
  unfold createFiller at h
  rcases Success.or_of_bind_error h with hcolumn | ⟨column, -, h⟩
  · exact code_of_create hcolumn
  · exact absurd h (by simp [pure, Except.pure])

end Column

theorem refused_of_error {α : Type} {result : α × Option Error} {e : Error}
    (h : unlessRefused result = .error e) : result.2 = some e := by
  obtain ⟨a, error?⟩ := result
  cases error? with
  | none => exact absurd h (by simp [unlessRefused])
  | some e' => exact congrArg some (Except.error.inj h)

/-- **A filler is never refused for its name**: only for having no width, and for its options. -/
theorem Schema.Registered.code_of_fillerField {node : Schema} (h : node.Registered)
    {width : UInt64} {padding : Text} {e : Error}
    (hfield : node.fillerField width padding = .error e) :
    e.code = .schemaError ∨ e.code = .configError ∨ e.code = .error := by
  unfold fillerField at hfield
  split at hfield
  · rw [← Except.error.inj hfield]
    exact .inl rfl
  rcases Success.or_of_bind_error hfield with hkey | ⟨_, -, hfield⟩
  · exact absurd (h.checkNewKey_spacerName.symm.trans hkey) (by simp)
  rcases Success.or_of_bind_error hfield with hcolumn | ⟨column, -, hfield⟩
  · exact .inr (Column.code_of_createFiller hcolumn)
  rcases Success.or_of_bind_error hfield with hcodec | ⟨codec, -, hfield⟩
  · -- what the schema has defined is refused by the options of the filler
    have hmerge : ((Codec.column column).inherit node.options).2 = some e := refused_of_error hcodec
    exact .inr (.inl (OptionTable.code_of_merge hmerge))
  · exact absurd hfield (by simp [pure, Except.pure])

/-- A declaration fails because no field is made. -/
theorem Declaration.field_of_run_error {d : Declaration} {s : SchemaId} {L M : Layout} {e : Error}
    (h : d.run s L = .error e M) : d.field (L.schema s) = .error e := by
  rw [d.run_apply] at h
  cases hfield : d.field (L.schema s) with
  | ok made =>
    rw [hfield] at h
    exact absurd h (by simp)
  | error e' =>
    rw [hfield] at h
    rw [(EStateM.Result.error.inj h).1]

namespace Session

open Layout Build

/-! ### In a session -/

/-- **No two names meet.**  Whatever is done in a session whose builders only declare fields of the
schema they build, whether it succeeds or fails: the keys and groups of all schemas are apart, the
fillers that were added are numbered, no filler is refused because a name is taken, and the schemas
of a definition have different names. -/
theorem Allowed.namespaces {moves : List Move}
    (hmoves : Session.Allowed Contained ⟨[], .empty⟩ moves) :
    let L := (moves.foldl Session.step ⟨[], .empty⟩).layout
    (∀ s, (L.schema s).Namespace (fillersAdded s ⟨[], .empty⟩ moves)
        ∧ ∀ width padding e M, declareFiller s width padding L = .error e M →
          e.code ≠ .duplicateName)
      ∧ ∀ c, (L.catalog c).isDefinition = true →
        ((L.catalog c).schemas.map fun s => (L.schema s).name).Nodup := by
  intro L
  have hreached := Reached.start.moves hmoves
  have hnamed : L.Named := (hreached.mono fun _ _ h => h.1).named.layout
  have hregistered : L.Registered := (hreached.mono fun _ _ h => h.1.1).registered
  have hpossible : Session.Allowed Possible ⟨[], .empty⟩ moves := hmoves.mono fun _ _ h => h.1.1
  refine ⟨fun s => ⟨?_, fun width padding e M hfiller => ?_⟩, fun c hc => ?_⟩
  · -- the schema has counted the fillers that were added, from none on
    have hcount : (L.schema s).fillers = fillersAdded s ⟨[], .empty⟩ moves := by
      rw [show (L.schema s).fillers = _ from fillers_moves .start hpossible s]
      show (Layout.empty.schema s).fillers + _ = _
      rw [schema_of_le (L := .empty) (Nat.zero_le s)]
      exact Nat.zero_add _
    rw [← hcount]
    exact (hregistered.schema s).names (hnamed s)
  · have hrun : (Declaration.filler width padding).run s L = .error e M := hfiller
    have hfield : (L.schema s).fillerField width padding = .error e :=
      Declaration.field_of_run_error hrun
    rcases (hregistered.schema s).code_of_fillerField hfield with hcode | hcode | hcode <;>
      rw [hcode] <;> decide
  · have hlists := hreached.indexed.lists c hc
    rw [← hlists.names_eq]
    exact hlists.nodup

/-! ### A ledger -/

/-- A name that a column may have, with the option that puts it into a group. -/
def inGroup (group : Text) : OptionMap := NameMap.empty.insert OptionName.group (.text group)

/-- A definition with two schemas, after declarations that succeed and fail: a name is listed twice,
a filler has no width, and a column is to have the name of a group. -/
def ledger : List Move :=
  [.addDefinition "ledger" .empty, .addSchema 0 "line" .empty, .addSchema 0 "line" .empty,
    .declare 0 (.filler 2 []), .declare 0 (.column "amount" 3 (inGroup "total")),
    .declare 0 (.filler 0 []), .declare 0 (.column "total" 1 .empty),
    .beginNested 0 "inner" .empty, .declare 1 (.filler 1 []), .finish true,
    .declare 0 (.reference "other" [] .empty), .declare 0 (.filler 1 "*"),
    .beginListed 0 "other" .empty, .declare 2 (.column "last" 1 .empty), .finish true]

theorem contained_ledger : Session.Allowed Contained ⟨[], .empty⟩ ledger := by
  have hdeclare {S : Session} {s : SchemaId} {d : Declaration} (hs : s < S.layout.schemas.length)
      (hd : d.Made) (hsites : ∀ site ∈ S.sites.head?, site.schema = s) :
      S.Contained (.declare s d) :=
    ⟨⟨⟨hs, hd⟩, hsites⟩, trivial⟩
  have hlist {S : Session} {c : CatalogId} {name : Text} (hc : c < S.layout.catalogs.length)
      (hsites : ∀ site ∈ S.sites, site.catalog? ≠ some c) :
      S.Contained (.addSchema c name .empty) :=
    ⟨⟨hc, trivial⟩, hsites⟩
  refine ⟨⟨⟨trivial, trivial⟩, trivial⟩, hlist (by decide) (by decide),
    hlist (by decide) (by decide),
    hdeclare (by decide) trivial (by decide),
    hdeclare (by decide +kernel) trivial (by decide),
    hdeclare (by decide +kernel) trivial (by decide),
    hdeclare (by decide +kernel) trivial (by decide),
    ⟨⟨show 0 < List.length _ by decide +kernel, by decide⟩, trivial⟩,
    hdeclare (by decide +kernel) trivial (by decide +kernel), ⟨⟨trivial, trivial⟩, trivial⟩,
    hdeclare (by decide +kernel) trivial (by decide +kernel),
    hdeclare (by decide +kernel) trivial (by decide +kernel),
    ⟨⟨show 0 < List.length _ by decide +kernel, trivial⟩, by decide +kernel⟩,
    hdeclare (by decide +kernel) trivial (by decide +kernel),
    ⟨⟨trivial, trivial⟩, trivial⟩, trivial⟩

/-- Two fillers are in the one schema and one in the other; the name of the next one is free. -/
theorem namespaces_ledger :
    let L := (ledger.foldl Session.step ⟨[], .empty⟩).layout
    (L.schema 0).fields = ["spacer_1", "total.amount", "inner", "other", "spacer_2"]
      ∧ (L.schema 0).Namespace 2 ∧ (L.schema 1).Namespace 1
      ∧ (∀ e M, declareFiller 0 1 [] L = .error e M → e.code ≠ .duplicateName)
      ∧ ((L.catalog 0).schemas.map fun s => (L.schema s).name).Nodup := by
  intro L
  obtain ⟨hschemas, hdefinitions⟩ := Allowed.namespaces contained_ledger
  have houter := (hschemas 0).1
  have hinner := (hschemas 1).1
  rw [show fillersAdded 0 ⟨[], .empty⟩ ledger = 2 by decide +kernel] at houter
  rw [show fillersAdded 1 ⟨[], .empty⟩ ledger = 1 by decide +kernel] at hinner
  have hdefinition : (L.catalog 0).isDefinition = true := by
    decide +kernel
  exact ⟨by decide +kernel, houter, hinner, (hschemas 0).2 1 [], hdefinitions 0 hdefinition⟩

end Session

end RecordLayout
