import RecordLayout.Proofs.Layout.Growth
import RecordLayout.Proofs.Layout.Refusal

/-!
# What becomes of options

The table of a schema is reached from many sides: sets are propagated into it through the schemas
around and through references, at once or when a target is found, and some of them are refused on
the way.  But all of this fills slots that are open, and what is defined stays as it is, with its
value and its origin.  Only a setter changes it, and there are setters for two options of schemas;
the table of a column that belongs to a schema has none.

## Main definitions

* `OptionTable.Extends`: tables whose defined options are kept, but for those that are set.
* `Layout.KeepsTables`: all tables of a layout are there in another one, and are extended.
* `Move.Sets`: what is set in a run.

## Main results

* `Layout.Evolves.keepsTables`: queries and propagations only fill open slots.
* `Session.step_keepsTables`: **what one move does to the tables**.
* `Session.Reached.options_kept`: **defined options are kept over every run**, but for those that
  are set, and all others that change are inherited.
-/

namespace RecordLayout

/-! ### Tables -/

namespace OptionTable

variable {given given' : Text → Value → Prop} {t u v : OptionTable}

/-- A table that goes on from another: each option has the slot that it had; or it was not defined,
and is inherited now; or it has been set to one of the values that are `given`. -/
def Extends (given : Text → Value → Prop) (t u : OptionTable) : Prop :=
  ∀ name, u.slots.find? name = t.slots.find? name
    ∨ (t.isDefined name = false ∧ ∃ value, u.slots.find? name = some ⟨value, .inherited⟩)
    ∨ ∃ value, given name value ∧ u.slots.find? name = some ⟨value, .explicit⟩

namespace Extends

theorem refl (given : Text → Value → Prop) (t : OptionTable) : t.Extends given t :=
  fun _ => .inl rfl

theorem mono (h : t.Extends given u) (hgiven : ∀ name value, given name value → given' name value) :
    t.Extends given' u := by
  intro name
  rcases h name with hsame | hinherited | ⟨value, hvalue, hslot⟩
  · exact .inl hsame
  · exact .inr (.inl hinherited)
  · exact .inr (.inr ⟨value, hgiven name value hvalue, hslot⟩)

theorem trans (h : t.Extends given u) (h' : u.Extends given v) : t.Extends given v := by
  intro name
  rcases h' name with hsame' | ⟨hopen, hinherited⟩ | hset
  · rw [hsame']
    exact h name
  · -- only an option that has not been defined by the first change is inherited by the second
    rcases h name with hsame | ⟨-, value, hslot⟩ | ⟨value, -, hslot⟩
    · rw [isDefined_congr hsame] at hopen
      exact .inr (.inl ⟨hopen, hinherited⟩)
    · exact absurd (isDefined_of_find? hslot) (by simp [hopen])
    · exact absurd (isDefined_of_slot hslot (by simp)) (by simp [hopen])
  · exact .inr (.inr hset)

end Extends

/-- However far a merge comes, it only fills open slots. -/
theorem extends_mergeValues (given : Text → Value → Prop) (m : OptionMap) (t : OptionTable) :
    t.Extends given (t.mergeValues m).1 := by
  intro name
  rcases (partlyMerged_mergeValues m t).slot name with hsame | ⟨hopen, value, -, hslot⟩
  · exact .inl hsame
  · have hundefined : t.isDefined name = false := by
      unfold isOpen at hopen
      simpa using (Bool.and_eq_true_iff.mp hopen).2
    exact .inr (.inl ⟨hundefined, _, hslot⟩)

end OptionTable

/-- The options of a schema that may be set are two truth values. -/
theorem writable_schemaOptions {name : Text} {spec : OptionSpec}
    (h : schemaOptions.find? name = some spec) (hwritable : spec.writable = true) :
    (name = OptionName.optional ∨ name = OptionName.singular)
      ∧ spec.transform = id ∧ spec.accepts = OptionRule.isBool := by
  obtain rfl := OptionSchema.name_of_find? h
  have hmem := OptionSchema.mem_of_find? h
  simp only [schemaOptions, List.mem_cons, List.not_mem_nil, or_false] at hmem
  rcases hmem with rfl | rfl | rfl | rfl | rfl | rfl | rfl
  · exact absurd hwritable (by decide)
  · exact ⟨.inl rfl, rfl, rfl⟩
  · exact ⟨.inr rfl, rfl, rfl⟩
  all_goals exact absurd hwritable (by decide)

/-- What is set in a run: one of two options of a schema, to a truth value. -/
def Move.Sets (moves : List Move) (s : SchemaId) (name : Text) (value : Value) : Prop :=
  .setOption s name value ∈ moves ∧ (name = OptionName.optional ∨ name = OptionName.singular)
    ∧ ∃ b, value = .bool b

namespace OptionTable

variable {t u : OptionTable} {name : Text} {value : Value}

/-- A value that is set is put into its slot as it is. -/
theorem set_schemaOptions (h : t.set name value = .ok u) (hschema : t.schema = schemaOptions) :
    (name = OptionName.optional ∨ name = OptionName.singular) ∧ (∃ b, value = .bool b)
      ∧ u = t.store name ⟨value, .explicit⟩ := by
  unfold set at h
  rw [hschema] at h
  split at h
  · next spec hspec =>
    split at h
    · exact absurd h (by simp)
    · next hwritable =>
      obtain ⟨hname, htransform, haccepts⟩ :=
        writable_schemaOptions hspec (by simpa using hwritable)
      obtain ⟨v, hv, rfl⟩ := Success.of_map h
      obtain ⟨hvalue, hbool⟩ := (OptionSchema.normalize_eq_ok_iff _ spec value v).mp hv
      rw [htransform, haccepts] at hbool
      rw [htransform] at hvalue
      obtain rfl : value = v := hvalue
      refine ⟨hname, ?_, by rw [OptionSchema.name_of_find? hspec]⟩
      cases value with
      | bool b => exact ⟨b, rfl⟩
      | _ => exact absurd hbool (by simp [OptionRule.isBool, Value.bool?])
  · exact absurd h (by simp)

/-- **What setting an option does to a table.** -/
theorem extends_set (h : t.set name value = .ok u) (hschema : t.schema = schemaOptions)
    (s : SchemaId) : t.Extends (Move.Sets [.setOption s name value] s) u := by
  obtain ⟨hname, hbool, rfl⟩ := set_schemaOptions h hschema
  intro key
  have hslot : (t.store name ⟨value, .explicit⟩).slots.find? key
      = if key = name then some ⟨value, .explicit⟩ else t.slots.find? key :=
    NameMap.find?_insert ..
  rw [hslot]
  split
  · next hkey =>
    subst hkey
    exact .inr (.inr ⟨value, ⟨List.mem_singleton_self _, hname, hbool⟩, rfl⟩)
  · exact .inl rfl

end OptionTable

/-! ### Layouts -/

namespace Layout

open Build

variable {given given' : SchemaId → Text → Value → Prop} {r : Nat} {L M N : Layout}

/-- All tables of a layout are there in another one, and go on from what they were; what is `given`
goes into the tables of schemas only. -/
structure KeepsTables (given : SchemaId → Text → Value → Prop) (L M : Layout) : Prop where
  length_le : L.schemas.length ≤ M.schemas.length
  table : ∀ s < L.schemas.length, ∀ place t, L.table? s place = some t →
    ∃ u, M.table? s place = some u
      ∧ t.Extends (fun name value => place = none ∧ given s name value) u

namespace KeepsTables

theorem refl (given : SchemaId → Text → Value → Prop) (L : Layout) : L.KeepsTables given L :=
  ⟨Nat.le_refl _, fun _ _ _ t ht => ⟨t, ht, .refl _ t⟩⟩

theorem mono (h : L.KeepsTables given M)
    (hgiven : ∀ s name value, given s name value → given' s name value) :
    L.KeepsTables given' M := by
  refine ⟨h.length_le, fun s hs place t ht => ?_⟩
  obtain ⟨u, hu, hextends⟩ := h.table s hs place t ht
  exact ⟨u, hu, hextends.mono fun name value hv => ⟨hv.1, hgiven s name value hv.2⟩⟩

theorem trans (h : L.KeepsTables given M) (h' : M.KeepsTables given N) :
    L.KeepsTables given N := by
  refine ⟨Nat.le_trans h.length_le h'.length_le, fun s hs place t ht => ?_⟩
  obtain ⟨u, hu, hextends⟩ := h.table s hs place t ht
  obtain ⟨v, hv, hextends'⟩ := h'.table s (Nat.lt_of_lt_of_le hs h.length_le) place u hu
  exact ⟨v, hv, hextends.trans hextends'⟩

end KeepsTables

/-- Where options stay, and no field is taken away or replaced, all tables stay. -/
theorem keepsTables_of_find (given : SchemaId → Text → Value → Prop)
    (hlength : L.schemas.length ≤ M.schemas.length)
    (hoptions : ∀ s < L.schemas.length, (M.schema s).options = (L.schema s).options)
    (hfind : ∀ s < L.schemas.length, ∀ key e, (L.schema s).find? key = some e →
      (M.schema s).find? key = some e) : L.KeepsTables given M := by
  refine ⟨hlength, fun s hs place t ht => ⟨t, ?_, .refl _ t⟩⟩
  cases place with
  | none =>
    obtain rfl := Option.some.inj ht
    exact congrArg some (hoptions s hs)
  | some key =>
    rw [table?_field] at ht ⊢
    obtain ⟨e, he, htable⟩ := Option.bind_eq_some_iff.mp ht
    rw [hfind s hs key e he]
    exact htable

theorem keepsTables_push (given : SchemaId → Text → Value → Prop) (L : Layout) (node : Schema) :
    L.KeepsTables given (L.push node) := by
  refine keepsTables_of_find given ?_ (fun s hs => ?_) fun s hs key e he => ?_
  · rw [length_push]
    exact Nat.le_succ _
  · rw [schema_push_of_lt L node hs]
  · rwa [schema_push_of_lt L node hs]

theorem keepsTables_of_schemas (given : SchemaId → Text → Value → Prop)
    (h : M.schemas = L.schemas) : L.KeepsTables given M := by
  have hschema (s : SchemaId) : M.schema s = L.schema s := by
    unfold schema
    rw [h]
  refine keepsTables_of_find given (by rw [h]) (fun s _ => by rw [hschema]) fun s _ key e he => ?_
  rwa [hschema]

/-- A setting that is none of the options. -/
theorem keepsTables_setting (given : SchemaId → Text → Value → Prop) (L : Layout) (p : SchemaId)
    {f : Schema → Schema} (hentries : (f (L.schema p)).entries = (L.schema p).entries)
    (hoptions : (f (L.schema p)).options = (L.schema p).options) :
    L.KeepsTables given (L.modify p f) := by
  refine keepsTables_of_find given (Nat.le_of_eq (length_modify ..).symm) (fun s _ => ?_)
    fun s _ key e he => ?_
  · rw [schema_modify]
    split
    · next h => exact h.1 ▸ hoptions
    · rfl
  · rwa [find?_modify hentries]

theorem keepsTables_markBusy (given : SchemaId → Text → Value → Prop) (L : Layout) (s : SchemaId)
    (busy : Bool) : L.KeepsTables given (L.markBusy s busy) :=
  keepsTables_setting given L s rfl rfl

theorem keepsTables_append (given : SchemaId → Text → Value → Prop) (L : Layout) (p : SchemaId)
    (key : Text) (entry : Entry) : L.KeepsTables given (L.append p key entry) := by
  refine keepsTables_of_find given (Nat.le_of_eq (length_append ..).symm) (fun s _ => ?_)
    fun s _ k e he => ?_
  · rw [schema_append]
    split <;> rfl
  · rw [schema_append]
    split
    · show Listing.find? (_ ++ _) k = some e
      rw [Listing.find?_append, show Listing.find? _ k = _ from he]
      rfl
    · exact he

/-- **What one change does to the tables**: it fills open slots. -/
theorem Change.keepsTables (given : SchemaId → Text → Value → Prop) (h : Change r L M) :
    L.KeepsTables given M := by
  refine ⟨Nat.le_of_eq h.follows.length.symm, fun s _ place t ht => ?_⟩
  have hrel := h.rel_table? s place
  rw [ht] at hrel
  generalize htab : M.table? s place = tab? at hrel
  cases hrel with
  | @some _ u hu =>
    refine ⟨u, rfl, ?_⟩
    rcases hu with rfl | ⟨m, rfl⟩
    · exact .refl _ _
    · exact OptionTable.extends_mergeValues _ m t

/-- Queries and propagations only fill open slots. -/
theorem Evolves.keepsTables (given : SchemaId → Text → Value → Prop) (h : L.Evolves r M) :
    L.KeepsTables given M := by
  induction h with
  | refl => exact .refl given L
  | tail _ hchange ih => exact ih.trans (hchange.keepsTables given)

theorem Develops.keepsTables (given : SchemaId → Text → Value → Prop) (h : L.Develops M) :
    L.KeepsTables given M := by
  obtain ⟨r, h⟩ := h
  exact h.keepsTables given

/-- A declaration. -/
theorem keepsTables_add (given : SchemaId → Text → Value → Prop) (L : Layout) (d : Declaration)
    (s : SchemaId) (key : Text) (entry : Entry) :
    L.KeepsTables given (d.add L s key entry) :=
  d.add_induction (keepsTables_append given L s key entry) fun h =>
    h.trans (keepsTables_setting given _ s rfl rfl)

/-- An option that is set. -/
theorem keepsTables_setOption (hL : L.Tabled) {s : SchemaId} (hs : s < L.schemas.length)
    {name : Text} {value : Value} {table : OptionTable}
    (htable : (L.schema s).options.set name value = .ok table) :
    L.KeepsTables (Move.Sets [.setOption s name value])
      (L.modify s fun node => { node with options := table }) := by
  refine ⟨Nat.le_of_eq (length_modify ..).symm, fun t _ place tab htab => ?_⟩
  cases place with
  | none =>
    obtain rfl := Option.some.inj htab
    refine ⟨_, rfl, ?_⟩
    rw [schema_modify]
    split
    · next hsame =>
      obtain rfl := hsame.1
      exact (OptionTable.extends_set htable (hL.schema s hs).2 s).mono fun _ _ h => ⟨rfl, h⟩
    · exact .refl _ _
  | some key =>
    refine ⟨tab, ?_, .refl _ tab⟩
    rw [table?_field] at htab ⊢
    rwa [find?_modify rfl]

end Layout

namespace Session

open Layout Build

variable {S : Session} {m : Move}

/-! ### Moves -/

/-- **What one move does to the tables**: it fills open slots, or it sets an option of a schema. -/
theorem step_keepsTables (hS : S.Sane) (hm : S.Possible m) :
    S.layout.KeepsTables (Move.Sets [m]) (S.step m).layout := by
  have heffect := S.step_effect m
  generalize S.step m = T at heffect ⊢
  cases heffect with
  | refused => exact .refl _ _
  | created => exact keepsTables_push _ _ _
  | defined | cataloged => exact keepsTables_of_schemas _ rfl
  | listed => exact (keepsTables_push _ _ _).trans (keepsTables_of_schemas _ rfl)
  | declared => exact keepsTables_add _ _ _ _ _ _
  | set htable => exact keepsTables_setOption hS.layout.tabled hm htable
  | conditioned s condition? => exact keepsTables_setting _ _ s rfl rfl
  | propagated options s => exact (develops_propagate options s S.layout).keepsTables _
  | asked q => exact (q.develops hS.layout.wellMade).keepsTables _
  | begunNested | begunListed => exact (keepsTables_push _ _ _).trans (keepsTables_markBusy _ _ _ _)
  | begunSetup | closed => exact keepsTables_markBusy _ _ _ _
  | closedNested => exact (keepsTables_markBusy _ _ _ _).trans (keepsTables_append _ _ _ _ _)
  | closedListed => exact (keepsTables_markBusy _ _ _ _).trans (keepsTables_of_schemas _ rfl)

/-- **What a run does to the tables.** -/
theorem Reached.keepsTables_moves (hS : S.Reached Possible) {moves : List Move}
    (hmoves : S.Allowed Possible moves) :
    S.layout.KeepsTables (Move.Sets moves) (moves.foldl Session.step S).layout := by
  induction moves generalizing S with
  | nil => exact .refl _ _
  | cons m moves ih =>
    have hfirst := step_keepsTables hS.sane hmoves.1
    have hrest := ih (hS.step hmoves.1) hmoves.2
    refine (hfirst.mono fun s name value h => ?_).trans (hrest.mono fun s name value h => ?_)
    · exact ⟨List.mem_cons.mpr (.inl (List.mem_singleton.mp h.1)), h.2⟩
    · exact ⟨List.mem_cons_of_mem m h.1, h.2⟩

/-- **Defined options are kept over every run**, whatever is declared by builders, propagated with
success or without, looked up, read or written.  Each table of a schema, its own and those of its
columns, is there to the end, and for each of its options one of three things holds:

* it has the slot that it had, with the same value and origin, or none as before;
* it was absent or a default, and is inherited now;
* it is one of the two options that may be set, in the schema's own table, and it has been set in
  the run, to the value that it has. -/
theorem Reached.options_kept (hS : S.Reached Possible) {moves : List Move}
    (hmoves : S.Allowed Possible moves) {s : SchemaId} (hs : s < S.layout.schemas.length)
    {place : Option Text} {t : OptionTable} (ht : S.layout.table? s place = some t) :
    ∃ u, (moves.foldl Session.step S).layout.table? s place = some u ∧ ∀ name,
      u.slots.find? name = t.slots.find? name
        ∨ (t.isDefined name = false ∧ ∃ value, u.slots.find? name = some ⟨value, .inherited⟩)
        ∨ (place = none ∧ (name = OptionName.optional ∨ name = OptionName.singular)
          ∧ ∃ b, .setOption s name (.bool b) ∈ moves
            ∧ u.slots.find? name = some ⟨.bool b, .explicit⟩) := by
  obtain ⟨u, hu, hextends⟩ := (hS.keepsTables_moves hmoves).table s hs place t ht
  refine ⟨u, hu, fun name => ?_⟩
  rcases hextends name with hsame | hinherited | ⟨value, ⟨hplace, hset⟩, hslot⟩
  · exact .inl hsame
  · exact .inr (.inl hinherited)
  · obtain ⟨hmem, hname, b, rfl⟩ := hset
    exact .inr (.inr ⟨hplace, hname, b, hmem, hslot⟩)

/-- A schema that aligns to the left, with a column that has inherited this. -/
def ruled : Session :=
  [ .addDefinition "rules" .empty,
    .addSchema 0 "row" (NameMap.empty.insert OptionName.align (.text "left")),
    .declare 0 (.column "amount" 6 .empty)].foldl step ⟨[], .empty⟩

theorem reached_ruled : ruled.Reached Possible :=
  Reached.start.moves ⟨trivial, show 0 < List.length _ by decide,
    ⟨by decide, trivial⟩, trivial⟩

/-- A set that is refused for its padding, and an option that is set: the alignment stays, in the
schema and in its column. -/
theorem options_kept_ruled : ∃ t, ruled.layout.table? 0 (some "amount") = some t
    ∧ t.isDefined OptionName.align = true
    ∧ let L := ([.propagate ((NameMap.empty.insert OptionName.align (.text "right")).insert
          OptionName.padding (.text "ab")) 0, .setOption 0 OptionName.optional (.bool true)].foldl
            step ruled).layout
      (∃ u, L.table? 0 (some "amount") = some u
        ∧ u.slots.find? OptionName.align = t.slots.find? OptionName.align)
      ∧ ∃ u, L.table? 0 none = some u ∧ u.slots.find? OptionName.align
          = (ruled.layout.schema 0).options.slots.find? OptionName.align := by
  have hcolumn : (ruled.layout.table? 0 (some "amount")).any (·.isDefined OptionName.align)
      = true := by decide
  obtain ⟨t, ht, hdefined⟩ := (Option.any_eq_true _ _).mp hcolumn
  have hschema : (ruled.layout.schema 0).options.isDefined OptionName.align = true := by
    decide
  have hplace : 0 < ruled.layout.schemas.length := by decide
  have hallowed : ruled.Allowed Possible [.propagate ((NameMap.empty.insert OptionName.align
      (.text "right")).insert OptionName.padding (.text "ab")) 0,
        .setOption 0 OptionName.optional (.bool true)] :=
    ⟨hplace, show 0 < List.length _ by decide, trivial⟩
  refine ⟨t, ht, hdefined, ?_, ?_⟩
  · obtain ⟨u, hu, hslots⟩ := reached_ruled.options_kept hallowed hplace ht
    rcases hslots OptionName.align with hsame | ⟨hopen, -⟩ | ⟨hnone, -⟩
    · exact ⟨u, hu, hsame⟩
    · exact absurd hdefined (by simp [hopen])
    · exact absurd hnone (by simp)
  · obtain ⟨u, hu, hslots⟩ := reached_ruled.options_kept hallowed hplace
      (show ruled.layout.table? 0 none = some _ from rfl)
    rcases hslots OptionName.align with hsame | ⟨hopen, -⟩ | ⟨-, hname, -⟩
    · exact ⟨u, hu, hsame⟩
    · exact absurd hschema (by simp [hopen])
    · exact absurd hname (by decide)

end Session

end RecordLayout
