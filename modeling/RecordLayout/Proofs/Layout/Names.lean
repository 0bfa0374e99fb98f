import RecordLayout.Proofs.Column.Slot
import RecordLayout.Proofs.Layout.Reached
import RecordLayout.Proofs.Layout.Transcript

/-!
# Fields under their names

In a schema whose keys are all different, every field stands under its own name, and no group has
the name of a field; so the places of its values in a record are different.  A schema stays so as
long as the fields that are added are still free when they are added.

## Main definitions

* `Codec.key`, `Entry.NamedBy`: the key of a codec, and fields that stand under their own.
* `Schema.Named`, `Layout.Named`: all fields of a schema, and of all schemas, are under their names.
* `Schema.Admits`: a field that may be added.
* `Layout.Keeps`: a layout that has grown out of another, by schemas without fields at most.
* `Outline.WellNamed`: no place is used twice, inside and out.

## Main results

* `Layout.Named.append`: **a field that may be added keeps the names apart**.
* `Layout.Unfolds.distinct`, `Layout.UnfoldsTo.wellNamed`: **in an outline no place is used twice**.
-/

namespace RecordLayout

/-! ### Fields of a schema -/

/-- The key under which a schema has a codec. -/
def Codec.key (c : Codec) : Text :=
  match c.group with
  | some group => Schema.memberKey group c.name
  | none => c.name

namespace Entry

/-- The group of a field. -/
def group? (e : Entry) : Option Text := e.codec?.bind (·.group)

/-- A field stands under its own name; a filler may stand under any. -/
def NamedBy (key : Text) : Entry → Prop
  | .column c => c.isFiller = false → c.key = key
  | .nested _ => True
  | .reference ref => ref.storeName = key

end Entry

namespace Schema

/-- All fields of a schema stand under their own names, and no group has the name of a field. -/
structure Named (node : Schema) : Prop where
  nodup : node.fields.Nodup
  named : ∀ key e, node.find? key = some e → e.NamedBy key
  own : ∀ key e, node.find? key = some e → e.group? = none → key ∉ node.groups
  grouped : ∀ key e g, node.find? key = some e → e.group? = some g → g ∈ node.groups

/-- A field that may be added under a key: neither the key nor the group is taken. -/
structure Admits (node : Schema) (key : Text) (e : Entry) : Prop where
  fresh : node.find? key = none
  named : e.NamedBy key
  own : e.group? = none → key ∉ node.groups
  apart : ∀ g, e.group? = some g → node.find? g = none

theorem Free.admits_nested {node : Schema} {key : Text} (h : node.Free key) (t : SchemaId) :
    node.Admits key (.nested t) :=
  ⟨h.1, trivial, fun _ => h.2, fun _ hg => absurd hg (by simp [Entry.group?, Entry.codec?])⟩

/-- What a schema accepts may be added. -/
theorem Accepts.admits {node : Schema} {key : Text} {e : Entry} (h : node.Accepts key e) :
    node.Admits key e := by
  have hgroup (c : Codec) : (Entry.column c).group? = c.group := rfl
  cases h with
  | ungrouped _ _ hnone hfree =>
    refine ⟨hfree.1, fun _ => ?_, fun _ => hfree.2, fun g hg => ?_⟩
    · unfold Codec.key
      rw [hnone]
    · rw [hgroup, hnone] at hg
      exact absurd hg (by simp)
  | grouped _ _ hsome _ hfield hmember =>
    refine ⟨hmember, fun _ => ?_, fun hg => ?_, fun g hg => ?_⟩
    · unfold Codec.key
      rw [hsome]
    · rw [hgroup, hsome] at hg
      exact absurd hg (by simp)
    · rw [hgroup, hsome] at hg
      exact Option.some.inj hg ▸ hfield
  | filler _ hfiller hnone hfree =>
    refine ⟨hfree.1, fun hc => ?_, fun _ => hfree.2, fun g hg => ?_⟩
    · exact absurd (hc.symm.trans hfiller) (by simp)
    · rw [hgroup, hnone] at hg
      exact absurd hg (by simp)
  | reference hname hfree _ =>
    refine ⟨hfree.1, ?_, fun _ => hfree.2,
      fun g hg => absurd hg (by simp [Entry.group?, Entry.codec?])⟩
    cases key with
    | nil => exact absurd hname (by decide)
    | cons b key => rfl

theorem named_of_no_entries {node : Schema} (h : node.entries = []) : node.Named := by
  have hnone (key : Text) (e : Entry) : node.find? key ≠ some e := by
    unfold find?
    rw [h]
    simp
  refine ⟨?_, fun key e he => absurd he (hnone key e), fun key e he => absurd he (hnone key e),
    fun key e g he => absurd he (hnone key e)⟩
  unfold fields
  rw [h]
  exact List.nodup_nil

/-- A schema whose fields have the same names and groups as those of another. -/
theorem Named.of_find? {a b : Schema} (h : a.Named) (hfields : b.fields = a.fields)
    (hgroups : b.groups = a.groups) (hfind : ∀ key e, b.find? key = some e →
      ∃ e', a.find? key = some e' ∧ e.group? = e'.group? ∧ (e'.NamedBy key → e.NamedBy key)) :
    b.Named := by
  refine ⟨hfields ▸ h.nodup, fun key e he => ?_, fun key e he hnone => ?_, fun key e g he hg => ?_⟩
  · obtain ⟨e', he', -, hnamed⟩ := hfind key e he
    exact hnamed (h.named key e' he')
  · obtain ⟨e', he', hsame, -⟩ := hfind key e he
    rw [hgroups]
    exact h.own key e' he' (hsame ▸ hnone)
  · obtain ⟨e', he', hsame, -⟩ := hfind key e he
    rw [hgroups]
    exact h.grouped key e' g he' (hsame ▸ hg)

end Schema

/-! ### Layouts that keep the names apart -/

namespace Layout

variable {L M N : Layout}

/-- All fields of all schemas stand under their own names. -/
def Named (L : Layout) : Prop := ∀ s, (L.schema s).Named

/-- Where fields stand under their own names, each is the one that is found. -/
theorem Named.find?_of_mem (hL : L.Named) {s : SchemaId} {key : Text} {e : Entry}
    (h : (key, e) ∈ (L.schema s).entries) : (L.schema s).find? key = some e :=
  (Listing.mem_iff_find? (hL s).nodup key e).mp h

theorem mem_insertGroup {groups : List Text} {group : Option Text} {g : Text} :
    g ∈ insertGroup groups group ↔ g ∈ groups ∨ group = some g := by
  cases group with
  | none => simp [insertGroup]
  | some h =>
    show g ∈ (if h ∈ groups then groups else groups ++ [h]) ↔ _
    split
    · next hmem =>
      constructor
      · exact .inl
      · rintro (hg | hg)
        · exact hg
        · exact Option.some.inj hg ▸ hmem
    · rw [List.mem_append, List.mem_singleton, Option.some.injEq]
      exact or_congr_right eq_comm

/-- **A field that may be added keeps the names apart.** -/
theorem Named.append (hL : L.Named) {s : SchemaId} {key : Text} {entry : Entry}
    (hadmits : (L.schema s).Admits key entry) : (L.append s key entry).Named := by
  intro t
  by_cases ht : s = t ∧ t < L.schemas.length
  · have hnode := hL t
    obtain rfl := ht.1
    have hgroups (g : Text) : g ∈ ((L.append s key entry).schema s).groups
        ↔ g ∈ (L.schema s).groups ∨ entry.group? = some g := by
      rw [schema_append, if_pos ht]
      exact mem_insertGroup
    -- every field of the schema is an old one, or the new one that is admitted
    refine ⟨?_, fun k e he => ?_, fun k e he hnone hk => ?_, fun k e g he hg => ?_⟩
    · rw [schema_append, if_pos ht]
      show (Listing.names ((L.schema s).entries ++ [(key, entry)])).Nodup
      have hfresh := (Listing.find?_eq_none_iff _ _).mp hadmits.fresh
      unfold Listing.names at hfresh ⊢
      rw [List.map_append]
      refine List.nodup_append.mpr ⟨hnode.nodup, by simp, fun a ha b hb => ?_⟩
      rintro rfl
      rw [List.mem_singleton.mp hb] at ha
      exact hfresh ha
    · rcases find?_append he with hold | ⟨-, rfl, rfl⟩
      · exact hnode.named k e hold
      · exact hadmits.named
    · rcases find?_append he with hold | ⟨-, rfl, rfl⟩
      · rcases (hgroups k).mp hk with hk | hk
        · exact hnode.own k e hold hnone hk
        · exact absurd ((hadmits.apart k hk).symm.trans hold) (by simp)
      · rcases (hgroups k).mp hk with hk | hk
        · exact hadmits.own hnone hk
        · exact absurd (hnone.symm.trans hk) (by simp)
    · rw [hgroups]
      rcases find?_append he with hold | ⟨-, -, rfl⟩
      · exact .inl (hnode.grouped k e g hold hg)
      · exact .inr hg
  · rw [schema_append, if_neg ht]
    exact hL t

/-- A layout that has grown out of another, by schemas without fields at most. -/
structure Keeps (L M : Layout) : Prop where
  length_le : L.schemas.length ≤ M.schemas.length
  name : ∀ t, t < L.schemas.length → (M.schema t).name = (L.schema t).name
  free : ∀ t key, t < L.schemas.length → (L.schema t).Free key → (M.schema t).Free key
  named : L.Named → M.Named

theorem Keeps.trans (h : L.Keeps M) (h' : M.Keeps N) : L.Keeps N where
  length_le := Nat.le_trans h.length_le h'.length_le
  name t ht := (h'.name t (Nat.lt_of_lt_of_le ht h.length_le)).trans (h.name t ht)
  free t key ht hfree := h'.free t key (Nat.lt_of_lt_of_le ht h.length_le) (h.free t key ht hfree)
  named hL := h'.named (h.named hL)

theorem Develops.keeps (h : L.Develops M) (hL : L.WellMade) : L.Keeps M := by
  have hfollows := h.follows hL
  refine ⟨Nat.le_of_eq hfollows.length.symm, fun t _ => (hfollows.schema t).name,
    fun t key _ hfree => ⟨hfollows.find_none hfree.1, ?_⟩, fun hnamed t => ?_⟩
  · rw [(hfollows.schema t).groups]
    exact hfree.2
  · refine (hnamed t).of_find? (hfollows.schema t).fields (hfollows.schema t).groups
      fun key e he => ?_
    cases hfind : (L.schema t).find? key with
    | none => exact absurd (he.symm.trans (hfollows.find_none hfind)) (by simp)
    | some e' =>
      obtain ⟨e'', he'', hentry⟩ := hfollows.find_some hfind
      obtain rfl := Option.some.inj (he.symm.trans he'')
      refine ⟨e', rfl, ?_⟩
      cases hentry with
      | column hsame =>
        refine ⟨hsame.group, fun hnamed hfiller => ?_⟩
        rw [← hnamed (hsame.isFiller ▸ hfiller)]
        unfold Codec.key
        rw [hsame.group, hsame.name]
      | nested => exact ⟨rfl, id⟩
      | reference hsame => exact ⟨rfl, hsame.storeName.trans⟩

theorem keeps_push (L : Layout) {node : Schema} (hnode : node.entries = []) :
    L.Keeps (L.push node) := by
  refine ⟨?_, fun t ht => ?_, fun t key ht hfree => ?_, fun hnamed t => ?_⟩
  · rw [length_push]
    exact Nat.le_succ _
  · rw [schema_push_of_lt L node ht]
  · rw [schema_push_of_lt L node ht]
    exact hfree
  · rw [schema_push]
    split
    · exact Schema.named_of_no_entries hnode
    · exact hnamed t

/-- A setting keeps the fields and the groups. -/
theorem keeps_modify (L : Layout) (s : SchemaId) {f : Schema → Schema}
    (hname : ∀ node, (f node).name = node.name) (hentries : ∀ node, (f node).entries = node.entries)
    (hgroups : ∀ node, (f node).groups = node.groups) : L.Keeps (L.modify s f) := by
  have hschema (t : SchemaId) : (L.modify s f).schema t = f (L.schema t)
      ∨ (L.modify s f).schema t = L.schema t := by
    rw [schema_modify]
    split
    · exact .inl rfl
    · exact .inr rfl
  have hfind (t : SchemaId) (key : Text) : (f (L.schema t)).find? key = (L.schema t).find? key := by
    unfold Schema.find?
    rw [hentries]
  refine ⟨Nat.le_of_eq (length_modify ..).symm, fun t _ => ?_, fun t key _ hfree => ?_,
    fun hnamed t => ?_⟩
  · rcases hschema t with h | h <;> rw [h]
    exact hname _
  · rcases hschema t with h | h <;> rw [h]
    · exact ⟨(hfind t key).trans hfree.1, by rw [hgroups]; exact hfree.2⟩
    · exact hfree
  · rcases hschema t with h | h <;> rw [h]
    · refine (hnamed t).of_find? ?_ (hgroups _) fun key e he =>
        ⟨e, (hfind t key).symm.trans he, rfl, id⟩
      unfold Schema.fields
      rw [hentries]
    · exact hnamed t

theorem keeps_markBusy (L : Layout) (s : SchemaId) (busy : Bool) : L.Keeps (L.markBusy s busy) :=
  keeps_modify L s (fun _ => rfl) (fun _ => rfl) fun _ => rfl

theorem keeps_of_schemas (h : M.schemas = L.schemas) : L.Keeps M := by
  have hschema (t : SchemaId) : M.schema t = L.schema t := by
    unfold schema
    rw [h]
  refine ⟨Nat.le_of_eq (by rw [h]), fun t _ => by rw [hschema], fun t key _ hfree => ?_,
    fun hnamed t => ?_⟩
  · rw [hschema]
    exact hfree
  · rw [hschema]
    exact hnamed t

theorem free_append {s : SchemaId} {key : Text} {entry : Entry} {t : SchemaId} (ht : t ≠ s)
    {k : Text} (h : (L.schema t).Free k) : ((L.append s key entry).schema t).Free k := by
  rw [schema_append, if_neg fun hs => ht hs.1.symm]
  exact h

theorem name_append (L : Layout) (s : SchemaId) (key : Text) (entry : Entry) (t : SchemaId) :
    ((L.append s key entry).schema t).name = (L.schema t).name := by
  rw [schema_append]
  split <;> rfl

end Layout

/-! ### Places in an outline -/

/-- The key under which a schema has the field of a place. -/
def Label.place : Label → Text
  | .field key => key
  | .member group name => Schema.memberKey group name

theorem Codec.place_label {c : Codec} {label : Label} (h : c.label? = some label) :
    label.place = c.key := by
  unfold label? at h
  unfold key
  split at h
  · exact absurd h (by simp)
  · obtain rfl := Option.some.inj h
    cases c.group <;> rfl

/-- The value of a codec stands in a field if the codec is in no group, and in the record of its
group otherwise. -/
theorem Codec.label_spec {c : Codec} {label : Label} (h : c.label? = some label) :
    c.isFiller = false ∧ (∀ key, label = .field key → c.group = none)
      ∧ ∀ group name, label = .member group name → c.group = some group := by
  unfold label? at h
  split at h
  · exact absurd h (by simp)
  · next hfiller =>
    obtain rfl := Option.some.inj h
    refine ⟨Bool.eq_false_iff.mpr hfiller, ?_⟩
    cases c.group with
    | none => exact ⟨fun _ _ => rfl, fun _ _ h => absurd h nofun⟩
    | some group => exact ⟨fun _ h => absurd h nofun, fun _ _ h => by rw [(Label.member.inj h).1]⟩

/-- No place is used twice inside the branches. -/
def Outline.WellNamed : Outline → Prop
  | .done => True
  | .column _ rest => rest.WellNamed
  | .branch _ _ _ inner rest =>
    Label.Distinct inner.labels ∧ inner.WellNamed ∧ rest.WellNamed

namespace Layout

variable {L : Layout}

theorem find_of_known_column {s : SchemaId} {key : Text} {c : Codec}
    (h : L.known? s key = some (.column c)) : (L.schema s).find? key = some (.column c) := by
  rcases known_cases h with ⟨d, hfind, hd⟩ | ⟨t, -, ht⟩ | ⟨ref, t, -, -, ht⟩
  · rw [hfind, Field.column.inj hd]
  · exact absurd ht nofun
  · exact absurd ht nofun

/-- What leads to a schema is no codec, and its records stand under its key. -/
theorem find_of_known_schema (hL : L.Named) {s : SchemaId} {key : Text} {f : Field}
    (h : L.known? s key = some f) {t : SchemaId} (ht : f.schema? = some t) :
    f.key = key ∧ key ∉ (L.schema s).groups := by
  rcases known_schema_cases h ht with ⟨hfind, rfl⟩ | ⟨ref, hfind, -, rfl⟩
  · exact ⟨rfl, (hL s).own key _ hfind rfl⟩
  · exact ⟨(hL s).named key _ hfind, (hL s).own key _ hfind rfl⟩

/-- The places of an outline are among its keys, and those of a group are in a group of the
schema. -/
theorem UnfoldsTo.places (hL : L.Named) {s : SchemaId} {keys : List Text} {o : Outline}
    (ho : L.UnfoldsTo s keys o) : (o.labels.map Label.place).Sublist keys
      ∧ (∀ key, .field key ∈ o.labels → key ∉ (L.schema s).groups)
      ∧ ∀ group name, .member group name ∈ o.labels → group ∈ (L.schema s).groups := by
  induction ho with
  | nil s =>
    exact ⟨List.Sublist.slnil, fun _ h => absurd h (by simp [Outline.labels]),
      fun _ _ h => absurd h (by simp [Outline.labels])⟩
  | @column s key keys c rest h _ ih =>
    obtain ⟨hsub, hfield, hmember⟩ := ih
    have hfind := find_of_known_column h
    unfold Outline.labels
    -- a filler has a key but no place, so the places are a part of the keys only
    cases hlabel : c.label? with
    | none => exact ⟨hsub.cons key, hfield, hmember⟩
    | some label =>
      obtain ⟨hfiller, hungrouped, hgrouped⟩ := Codec.label_spec hlabel
      have hplace : label.place = key :=
        (Codec.place_label hlabel).trans ((hL s).named key _ hfind hfiller)
      refine ⟨hplace ▸ hsub.cons_cons _, fun k hk => ?_, fun g n hk => ?_⟩
      · rcases List.mem_cons.mp hk with rfl | hk
        · rw [show k = key from hplace]
          exact (hL s).own key _ hfind (hungrouped k rfl)
        · exact hfield k hk
      · rcases List.mem_cons.mp hk with rfl | hk
        · exact (hL s).grouped key _ _ hfind (hgrouped g n rfl)
        · exact hmember g n hk
  | @branch s t key keys f inner rest h ht _ _ _ ih =>
    obtain ⟨hsub, hfield, hmember⟩ := ih
    obtain ⟨hkey, hgroups⟩ := find_of_known_schema hL h ht
    unfold Outline.labels
    refine ⟨?_, fun k hk => ?_, fun g n hk => ?_⟩
    · rw [List.map_cons]
      exact hkey ▸ hsub.cons_cons _
    · rcases List.mem_cons.mp hk with hk | hk
      · rw [Label.field.inj hk, hkey]
        exact hgroups
      · exact hfield k hk
    · rcases List.mem_cons.mp hk with hk | hk
      · exact absurd hk (by simp)
      · exact hmember g n hk

theorem Unfolds.distinct (hL : L.Named) {s : SchemaId} {o : Outline} (ho : L.Unfolds s o) :
    Label.Distinct o.labels := by
  obtain ⟨hsub, hfield, hmember⟩ := UnfoldsTo.places hL ho
  exact ⟨List.Nodup.of_map _ ((hL s).nodup.sublist hsub),
    fun key hkey name hname => hfield key hkey (hmember key name hname)⟩

/-- The columns of an outline have valid options. -/
theorem UnfoldsTo.codecs_settled (hL : L.Tabled) {s : SchemaId} {keys : List Text} {o : Outline}
    (ho : L.UnfoldsTo s keys o) : ∀ c : Column, .column c ∈ o.codecs → c.Settled := by
  induction ho with
  | nil => exact fun c hc => absurd hc (by simp [Outline.codecs])
  | column h _ ih =>
    intro c hc
    rcases List.mem_cons.mp hc with rfl | hc
    · exact hL.entry _ _ _ (find_of_known_column h)
    · exact ih c hc
  | branch _ _ _ _ ihinner ihrest =>
    intro c hc
    rcases List.mem_append.mp hc with hc | hc
    · exact ihinner c hc
    · exact ihrest c hc

/-- **In an outline no place is used twice.** -/
theorem UnfoldsTo.wellNamed (hL : L.Named) {s : SchemaId} {keys : List Text} {o : Outline}
    (ho : L.UnfoldsTo s keys o) : o.WellNamed := by
  induction ho with
  | nil => trivial
  | column _ _ ih => exact ih
  | branch _ _ hinner _ ihinner ihrest => exact ⟨Unfolds.distinct hL hinner, ihinner, ihrest⟩

end Layout

end RecordLayout
