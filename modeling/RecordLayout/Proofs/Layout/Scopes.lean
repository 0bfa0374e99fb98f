import RecordLayout.Proofs.Layout.Closure
import RecordLayout.Proofs.Layout.Fit

/-!
# Where the options of a column come from

Align, padding, truncation and the reading of blank slots can be given to a column, to the schemas
around it and to a definition.  In a layout in which things have only been declared, a column has
what was given nearest: to itself, or to the innermost schema around it that was given anything, or
to the definition of the outermost; or else it has the default.

What has been given is kept beside the session, because a table does not tell it: there, what was
given to the schemas around is found under the same name as what a schema was given itself.

## Main definitions

* `Gifts`: what has been given, to schemas, definitions and columns.
* `Session.Declared`: a session in which things have only been declared, with what was given.
* `Session.give`, `Session.Giving`: moves that give options, one after the other.
* `Gifts.nearest?`, `Gifts.slot`: what is given nearest, and what a column makes of it.
* `Layout.Adds`, `Layout.Still`: what a declaring move adds, and what it leaves alone.
* `Gifts.Account`: the tables of a layout hold what has been given nearest.

## Main results

* `Session.step_adds`: **what a declaring move does**.
* `Layout.newSchema_slot`, `Column.MadeOf.slot_inherit`: **what a new schema and a new column
  hold**.
* `Session.Declared.account`: the tables hold what has been given nearest.
* `Session.Declared.innermost_given`: **of what is given to a column and around it, the innermost
  counts**.
-/

namespace RecordLayout

open Build

/-! ### What is given -/

/-- What has been given to schemas, to definitions and to columns. -/
structure Gifts where
  /-- What a schema was given. -/
  schema : SchemaId → OptionMap
  /-- What a definition was given. -/
  catalog : CatalogId → OptionMap
  /-- What the column under a key of a schema was given. -/
  column : SchemaId → Text → OptionMap

namespace Gifts

/-- Nothing has been given. -/
def nothing : Gifts := ⟨fun _ => .empty, fun _ => .empty, fun _ _ => .empty⟩

/-- What has been given once `options` go to all that is not there yet. -/
def next (g : Gifts) (L : Layout) (options : OptionMap) : Gifts where
  schema s := if s < L.schemas.length then g.schema s else options
  catalog c := if c < L.catalogs.length then g.catalog c else options
  column s key := if ((L.schema s).find? key).isSome then g.column s key else options

end Gifts

/-- A column whose options are those of one that is made of a set. -/
def Column.MadeOf (options : OptionMap) (c : Column) : Prop :=
  ∃ name width made, Column.create name width options = .ok made ∧ c.options = made.options

/-- The options of a catalog from elsewhere that are made of a set; where there are none, nothing is
given. -/
def OptionMap.Makes (given : OptionMap) : Option OptionTable → Prop
  | none => given = .empty
  | some table => schemaOptions.createTable given = .ok table

/-- The options that a declaration gives to its column, if it declares one. -/
def Declaration.Gives : Declaration → OptionMap → Prop
  | .column _ _ options, given => given = options
  | .codec (some (.column c)), given => c.MadeOf given
  | .filler _ padding, given =>
    given = if padding.isEmpty then .empty
      else NameMap.empty.insert OptionName.padding (.text padding)
  | .codec _, _ | .reference .., _ => True

/-- The options that a move gives to what it adds.  A move that passes options on, or that asks for
something and may find a target with it, is no declaring one. -/
def Move.Gives : Move → OptionMap → Prop
  | .createSchema _ _ options, given | .addDefinition _ options, given
  | .addSchema _ _ options, given | .beginNested _ _ options, given
  | .beginListed _ _ options, given => given = options
  | .addCatalog _ options? _, given => given.Makes options?
  | .declare _ d, given => d.Gives given
  | .setOption .., _ | .setCondition .., _ | .beginSetup _, _ | .finish _, _ => True
  | .propagate .., _ | .ask _, _ => False

/-- A session in which things have only been declared, with what was given. -/
inductive Session.Declared : Session → Gifts → Prop
  | start : Declared ⟨[], .empty⟩ .nothing
  | step {S : Session} {g : Gifts} (hS : Declared S g) {m : Move} (hm : S.Possible m)
    {given : OptionMap} (hgives : m.Gives given) : Declared (S.step m) (g.next S.layout given)

namespace Session

/-- A session, and what has been given, after a move that gives options. -/
def give (p : Session × Gifts) (m : Move × OptionMap) : Session × Gifts :=
  (p.1.step m.1, p.2.next p.1.layout m.2)

/-- Moves that declare something one after the other, with what they give. -/
def Giving : Session → List (Move × OptionMap) → Prop
  | _, [] => True
  | S, m :: moves => S.Possible m.1 ∧ m.1.Gives m.2 ∧ Giving (S.step m.1) moves

theorem Declared.moves {S : Session} {g : Gifts} (hS : S.Declared g)
    {moves : List (Move × OptionMap)} (h : S.Giving moves) :
    (moves.foldl give (S, g)).1.Declared (moves.foldl give (S, g)).2 := by
  induction moves generalizing S g with
  | nil => exact hS
  | cons m moves ih => exact ih (.step hS h.1 h.2.1) h.2.2

end Session

/-! ### What is given nearest -/

/-- An option that columns inherit, with its declaration: columns have a default for it, in form,
and schemas declare it in the same way but without a default. -/
structure Scoped (name : Text) (spec : OptionSpec) : Prop where
  column : columnOptions.find? name = some spec
  inheritable : spec.inheritable = true
  default : ∃ value, spec.default? = some value ∧ spec.transform value = value
  schema : ∃ around, schemaOptions.find? name = some around ∧ around.inheritable = true
    ∧ around.transform = spec.transform ∧ around.default? = none ∧ around.writable = false

/-- The options that columns inherit. -/
def scopedNames : List Text :=
  [OptionName.align, OptionName.padding, OptionName.truncate, OptionName.nilBlank]

theorem Scoped.of_mem {name : Text} (h : name ∈ scopedNames) : ∃ spec, Scoped name spec := by
  simp only [scopedNames, List.mem_cons, List.not_mem_nil, or_false] at h
  rcases h with rfl | rfl | rfl | rfl
  all_goals exact ⟨_, rfl, rfl, ⟨_, rfl, rfl⟩, ⟨_, rfl, rfl, rfl, rfl, rfl⟩⟩

/-- The definition that a schema belongs to: that of the outermost schema around it. -/
def Layout.definition? (L : Layout) (s : SchemaId) : Option CatalogId :=
  (L.schema ((L.schema s).ancestors.getLast?.getD s)).catalog?

namespace Gifts

/-- The value of an option that is given nearest to the fields of a schema: to the schema itself, or
to the innermost one around it that was given any, or to the definition. -/
def nearest? (g : Gifts) (L : Layout) (s : SchemaId) (name : Text) : Option Value :=
  ((s :: (L.schema s).ancestors).findSome? fun t => (g.schema t).given? name).or
    ((L.definition? s).bind fun c => (g.catalog c).given? name)

/-- The slot of an option in a column: what was given to the column is its own, what was given
nearest around it is inherited, and if there is neither it has the default. -/
def slot (g : Gifts) (L : Layout) (s : SchemaId) (key name : Text) (spec : OptionSpec) :
    Option Slot :=
  match (g.column s key).given? name, g.nearest? L s name with
  | some own, _ => some ⟨spec.transform own, .explicit⟩
  | none, some around => some ⟨spec.transform around, .inherited⟩
  | none, none => spec.default?.map (⟨spec.transform ·, .default⟩)

variable {g : Gifts} {L M : Layout}

/-- The first of some schemas that was given an option depends on what they were given only. -/
theorem findSome?_congr {g' : Gifts} {l : List SchemaId}
    (h : ∀ t ∈ l, g'.schema t = g.schema t) (name : Text) :
    (l.findSome? fun t => (g'.schema t).given? name)
      = l.findSome? fun t => (g.schema t).given? name := by
  induction l with
  | nil => rfl
  | cons t l ih =>
    rw [List.findSome?_cons, List.findSome?_cons, h t List.mem_cons_self,
      ih fun u hu => h u (List.mem_cons_of_mem t hu)]

/-- What is given nearest depends on what is given to the schema and around it, on nothing else. -/
theorem nearest?_congr {g' : Gifts} {s : SchemaId}
    (hancestors : (M.schema s).ancestors = (L.schema s).ancestors)
    (hdefinition : M.definition? s = L.definition? s)
    (hschema : ∀ t ∈ s :: (L.schema s).ancestors, g'.schema t = g.schema t)
    (hcatalog : ∀ c, L.definition? s = some c → g'.catalog c = g.catalog c) (name : Text) :
    g'.nearest? M s name = g.nearest? L s name := by
  have hbind := Option.bind_congr (o := L.definition? s)
    (f := fun c => (g'.catalog c).given? name) (g := fun c => (g.catalog c).given? name)
    fun c hc => by rw [hcatalog c hc]
  unfold nearest?
  rw [hancestors, hdefinition, findSome?_congr hschema, hbind]

end Gifts

/-! ### What a declaring move does -/

namespace Layout

variable {L M N : Layout} {given : OptionMap}

/-- What a declaring move adds to a layout, and what is given to it: nothing, or a new schema or
catalog, or a field. -/
inductive Adds (L : Layout) (given : OptionMap) : Layout → Prop
  | nothing : Adds L given L
  | schema {scope : Scope} (hscope : L.ScopeExists scope) {name : Text} {node : Schema}
    (h : L.newSchema scope name given = .ok node) : Adds L given (L.push node)
  | definition {name : Text} {definition : Catalog}
    (h : newDefinition name given = .ok definition) : Adds L given (L.pushCatalog definition)
  | catalog {added : Catalog} (hadded : given.Makes added.options?) :
    Adds L given (L.pushCatalog added)
  | field {s : SchemaId} {d : Declaration} (hd : d.Gives given) {key : Text} {entry : Entry}
    (h : d.field (L.schema s) = .ok (key, entry)) : Adds L given (d.add L s key entry)

/-- Layouts that have the same columns and options in the same scopes: the schemas around a schema,
its catalog, its columns, and what is in its table of the options that columns inherit. -/
structure Still (L M : Layout) : Prop where
  length : M.schemas.length = L.schemas.length
  catalogs : M.catalogs.length = L.catalogs.length
  options : ∀ c, (M.catalog c).options? = (L.catalog c).options?
  ancestors : ∀ s, (M.schema s).ancestors = (L.schema s).ancestors
  catalog : ∀ s, (M.schema s).catalog? = (L.schema s).catalog?
  column : ∀ s key c, (M.schema s).find? key = some (.column c) →
    (L.schema s).find? key = some (.column c)
  slot : ∀ s name spec, Scoped name spec →
    (M.schema s).options.slots.find? name = (L.schema s).options.slots.find? name

namespace Still

theorem refl (L : Layout) : L.Still L :=
  ⟨rfl, rfl, fun _ => rfl, fun _ => rfl, fun _ => rfl, fun _ _ _ => id, fun _ _ _ _ => rfl⟩

theorem trans (h : L.Still M) (h' : M.Still N) : L.Still N where
  length := h'.length.trans h.length
  catalogs := h'.catalogs.trans h.catalogs
  options c := (h'.options c).trans (h.options c)
  ancestors s := (h'.ancestors s).trans (h.ancestors s)
  catalog s := (h'.catalog s).trans (h.catalog s)
  column s key c hc := h.column s key c (h'.column s key c hc)
  slot s name spec hscoped := (h'.slot s name spec hscoped).trans (h.slot s name spec hscoped)

/-- A setting of a schema other than of options that columns inherit. -/
theorem modify (L : Layout) (s : SchemaId) {f : Schema → Schema}
    (halike : ∀ node, Alike node (f node))
    (hcatalog : ∀ node, (f node).catalog? = node.catalog?)
    (hslot : ∀ name spec, Scoped name spec →
      (f (L.schema s)).options.slots.find? name = (L.schema s).options.slots.find? name) :
    L.Still (L.modify s f) where
  length := length_modify ..
  catalogs := rfl
  options _ := rfl
  ancestors t := by
    rw [schema_modify]
    split
    · exact (halike _).ancestors
    · rfl
  catalog t := by
    rw [schema_modify]
    split
    · exact hcatalog _
    · rfl
  column t key c hc := by rwa [find?_modify (halike _).entries] at hc
  slot t name spec hscoped := by
    rw [schema_modify]
    split
    · next hst => exact hst.1 ▸ hslot name spec hscoped
    · rfl

theorem markBusy (L : Layout) (s : SchemaId) (busy : Bool) : L.Still (L.markBusy s busy) :=
  .modify L s (fun _ => ⟨rfl, rfl, rfl, rfl⟩) (fun _ => rfl) fun _ _ _ => rfl

theorem enlist (L : Layout) (c : CatalogId) (s : SchemaId) : L.Still (L.enlist c s) where
  length := rfl
  catalogs := List.length_modify ..
  options d := by
    rw [catalog_enlist]
    split <;> rfl
  ancestors _ := rfl
  catalog _ := rfl
  column _ _ _ := id
  slot _ _ _ _ := rfl

/-- A nested schema that becomes a field is no column. -/
theorem append (L : Layout) (s : SchemaId) (key : Text) (child : SchemaId) :
    L.Still (L.append s key (.nested child)) where
  length := length_append ..
  catalogs := rfl
  options _ := rfl
  ancestors t := ancestors_append ..
  catalog t := by
    rw [schema_append]
    split <;> rfl
  column t k c hc := by
    rw [schema_append] at hc
    split at hc
    · change Listing.find? ((L.schema t).entries ++ _) k = some (.column c) at hc
      rw [Listing.find?_append, Listing.find?_cons] at hc
      unfold Schema.find?
      cases hfind : Listing.find? (L.schema t).entries k with
      | some e => rwa [hfind] at hc
      | none =>
        rw [hfind] at hc
        split at hc <;> exact absurd hc nofun
    · exact hc
  slot t name spec _ := by
    rw [schema_append]
    split <;> rfl

end Still

end Layout

namespace Session

open Layout

variable {S : Session} {m : Move} {given : OptionMap}

/-- To set an option leaves those alone that columns inherit: they are not set later. -/
theorem still_setOption (hS : S.layout.Sane) {s : SchemaId} (hs : s < S.layout.schemas.length)
    {name : Text} {value : Value} {table : OptionTable}
    (hset : (S.layout.schema s).options.set name value = .ok table) :
    S.layout.Still (S.layout.modify s fun node => { node with options := table }) := by
  refine .modify S.layout s (fun _ => ⟨rfl, rfl, rfl, rfl⟩) (fun _ => rfl) ?_
  intro other spec hscoped
  obtain ⟨around, haround, -, -, -, hwritable⟩ := hscoped.schema
  have hschema := (hS.tabled.schema s hs).2
  unfold OptionTable.set at hset
  rw [hschema] at hset
  split at hset
  · next found hfound =>
    have hname := OptionSchema.name_of_find? hfound
    split at hset
    · exact absurd hset (by simp)
    · next hwrite =>
      simp only [Bool.not_true, Bool.false_and, Bool.false_eq_true, if_false] at hset
      obtain ⟨stored, -, rfl⟩ := Success.of_map hset
      show (NameMap.insert _ _ _).find? other = _
      rw [NameMap.find?_insert, if_neg]
      -- the option that was set can be written, and those that columns inherit cannot
      rintro rfl
      rw [hname] at haround
      rw [hfound] at haround
      obtain rfl := Option.some.inj haround
      exact hwrite (by rw [hwritable]; rfl)
  · exact absurd hset (by simp)

/-- **What a declaring move does**: it adds one thing, or nothing, and leaves the rest alone. -/
theorem step_adds (hS : S.layout.Sane) (hm : S.Possible m) (hgives : m.Gives given) :
    ∃ M, S.layout.Adds given M ∧ M.Still (S.step m).layout := by
  have heffect := S.step_effect m
  generalize S.step m = T at heffect ⊢
  cases heffect with
  | refused => exact ⟨_, .nothing, .refl _⟩
  | created hnode =>
    obtain rfl := hgives
    exact ⟨_, .schema hm hnode, .refl _⟩
  | defined hnew =>
    obtain rfl := hgives
    exact ⟨_, .definition hnew, .refl _⟩
  | cataloged name options? listing =>
    exact ⟨_, @Adds.catalog _ _ ⟨name, options?, listing, false⟩ hgives, .refl _⟩
  | @listed c name options node hopen hnode hfree =>
    obtain rfl := hgives
    exact ⟨_, .schema (show S.layout.ScopeExists (.under c) from hm) hnode, .enlist _ c _⟩
  | declared hfield => exact ⟨_, .field hgives hfield, .refl _⟩
  | set htable => exact ⟨_, .nothing, still_setOption hS hm htable⟩
  | conditioned s condition? =>
    exact ⟨_, .nothing, .modify S.layout s (fun _ => ⟨rfl, rfl, rfl, rfl⟩) (fun _ => rfl)
      fun _ _ _ => rfl⟩
  | propagated | asked => exact absurd hgives id
  | @begunNested parent name options node hopen hnode hkey =>
    obtain rfl := hgives
    exact ⟨_, .schema (show S.layout.ScopeExists (.within parent) from hm) hnode,
      .markBusy _ _ true⟩
  | @begunListed c name options node hopen hnode hfree =>
    obtain rfl := hgives
    exact ⟨_, .schema (show S.layout.ScopeExists (.under c) from hm) hnode, .markBusy _ _ true⟩
  | begunSetup => exact ⟨_, .nothing, .markBusy _ _ true⟩
  | closed => exact ⟨_, .nothing, .markBusy _ _ false⟩
  | closedNested => exact ⟨_, .nothing, (Still.markBusy _ _ false).trans (.append ..)⟩
  | closedListed => exact ⟨_, .nothing, (Still.markBusy _ _ false).trans (.enlist ..)⟩

end Session

/-! ### What new schemas and new columns hold -/

namespace Scoped

variable {name : Text} {spec : OptionSpec}

/-- What else is given to a schema or column, such as its name, is nothing that columns inherit. -/
theorem given?_insert (h : Scoped name spec) (options : OptionMap) {other : Text} (value : Value)
    (hother : (columnOptions.find? other).any (·.inheritable) = false) :
    OptionMap.given? (options.insert other value) name = options.given? name := by
  unfold OptionMap.given?
  rw [NameMap.find?_insert, if_neg]
  rintro rfl
  rw [h.column] at hother
  exact absurd h.inheritable (by simpa using hother)

end Scoped

/-- What the table of a schema or catalog holds that inherits nothing: what it is given. -/
theorem Scoped.find?_createTable {name : Text} {spec : OptionSpec} (hscoped : Scoped name spec)
    {given : OptionMap} {table : OptionTable} (h : schemaOptions.createTable given = .ok table) :
    table.defined.find? name = (given.given? name).map spec.transform := by
  obtain ⟨around, hfind, -, htransform, hdefault, -⟩ := hscoped.schema
  rw [OptionTable.find?_defined,
    OptionTable.find?_createTable OptionSchema.distinct_schemaOptions h hfind, hdefault, htransform]
  cases given.given? name <;> rfl

/-- The same if it has been given its name as well. -/
theorem Scoped.find?_createTitled {name : Text} {spec : OptionSpec} (hscoped : Scoped name spec)
    {given : OptionMap} {title : Text} {table : OptionTable}
    (h : schemaOptions.createTable (given.insert OptionName.name (.text title)) = .ok table) :
    table.defined.find? name = (given.given? name).map spec.transform := by
  rw [hscoped.find?_createTable h, hscoped.given?_insert _ _ rfl]

/-- **What a new schema holds**: what it is given, or else what is around it. -/
theorem Layout.newSchema_slot {L : Layout} (hL : L.Furnished) {scope : Scope} {title : Text}
    {given : OptionMap} {node : Schema} (h : L.newSchema scope title given = .ok node) {name : Text}
    {spec : OptionSpec} (hscoped : Scoped name spec) :
    node.options.defined.find? name = ((given.given? name).map spec.transform).or
      ((L.scopeOptions scope).bind (·.defined.find? name)) := by
  unfold newSchema at h
  obtain ⟨made, hmade, h⟩ := Success.of_bind h
  obtain ⟨_, -, h⟩ := Success.of_bind h
  obtain ⟨_, -, h⟩ := Success.of_bind h
  dsimp only at h
  cases hscope : L.scopeOptions scope with
  | none =>
    rw [hscope] at h
    obtain rfl := Except.ok.inj h
    show made.defined.find? name = _
    rw [hscoped.find?_createTitled hmade, Option.bind_none, Option.or_none]
  | some outer =>
    rw [hscope] at h
    obtain ⟨table, htable, h⟩ := Success.of_bind h
    obtain rfl := Except.ok.inj h
    obtain rfl := unlessRefused_ok htable
    obtain ⟨around, hfind, hinheritable, htransform, hdefault, -⟩ := hscoped.schema
    show (made.merge outer).1.defined.find? name = _
    rw [OptionTable.find?_defined,
      OptionTable.find?_merge (.inl rfl) hmade (hL.held_scope hscope) hfind hinheritable,
      hscoped.given?_insert _ _ rfl, hdefault, htransform, Option.bind_some]
    cases given.given? name with
    | some value => rfl
    | none => cases outer.defined.find? name <;> rfl

/-- What a column holds once it has inherited. -/
theorem Column.MadeOf.slot_inherit {given : OptionMap} {c : Column} (hc : c.MadeOf given)
    {table : OptionTable} (htable : table.defined.Held) {name : Text} {spec : OptionSpec}
    (hscoped : Scoped name spec) :
    (c.inherit table).1.options.slots.find? name
      = ((given.given? name).map (⟨spec.transform ·, .explicit⟩)).or
        (((table.defined.find? name).map (⟨·, .inherited⟩)).or
          (spec.default?.map (⟨·, .default⟩))) := by
  obtain ⟨title, width, made, hmade, hoptions⟩ := hc
  obtain ⟨hown, -, -⟩ := create_ok hmade
  show (c.options.merge table).1.slots.find? name = _
  rw [hoptions, OptionTable.find?_merge (.inr rfl) hown htable hscoped.column hscoped.inheritable,
    hscoped.given?_insert _ _ rfl, hscoped.given?_insert _ _ rfl]

/-- A column that a declaration makes is made of what it gives, and has inherited. -/
theorem Declaration.madeOf_field {d : Declaration} {given : OptionMap} (hd : d.Gives given)
    {node : Schema} {key : Text} {c : Column} (h : d.field node = .ok (key, .column (.column c))) :
    ∃ made : Column, made.MadeOf given ∧ c = (made.inherit node.options).1 := by
  have hinherit {made : Column}
      (h : Entry.column (.column c) = .column ((Codec.column made).inherit node.options).1) :
      c = (made.inherit node.options).1 := Codec.column.inj (Entry.column.inj h)
  cases d with
  | column name width options =>
    obtain rfl := hd
    obtain ⟨made, hmade, h⟩ := Success.of_bind h
    obtain ⟨-, -, -, hentry, -⟩ := Schema.codecField_ok h
    exact ⟨made, ⟨name, width, made, hmade, rfl⟩, hinherit hentry⟩
  | codec codec? =>
    rcases codec? with _ | made | made
    · exact absurd h (by simp [field, Schema.givenField])
    · obtain ⟨-, -, -, hentry, -⟩ := Schema.codecField_ok (of_guard h).2
      exact ⟨made, hd, hinherit hentry⟩
    · obtain ⟨-, -, -, hentry, -⟩ := Schema.codecField_ok (of_guard h).2
      exact absurd (Entry.column.inj hentry) (by simp [Codec.inherit])
  | filler width padding =>
    obtain ⟨-, -, column, hcolumn, hentry, -⟩ := Schema.fillerField_ok h
    obtain ⟨made, hmade, -, rfl⟩ := Column.createFiller_ok hcolumn
    exact ⟨{ made with isFiller := true }, ⟨_, width, made, hd ▸ hmade, rfl⟩, hinherit hentry⟩
  | reference schemaName storeName options =>
    obtain ⟨-, -, -, _, -, hentry⟩ := Schema.referenceField_ok h
    exact absurd hentry (by simp)

/-! ### What was there and what is new -/

namespace Layout.Adds

variable {L M : Layout} {given : OptionMap} {s : SchemaId} {c : CatalogId}

/-- A schema that was there has its options and stands where it stood. -/
theorem schema_old (h : L.Adds given M) (hs : s < L.schemas.length) :
    (M.schema s).options = (L.schema s).options ∧ (M.schema s).ancestors = (L.schema s).ancestors
      ∧ (M.schema s).catalog? = (L.schema s).catalog? := by
  cases h with
  | nothing | definition | catalog => exact ⟨rfl, rfl, rfl⟩
  | schema =>
    rw [schema_push, if_neg (Nat.ne_of_lt hs)]
    exact ⟨rfl, rfl, rfl⟩
  | field =>
    rw [schema_add]
    split <;> exact ⟨rfl, rfl, rfl⟩

theorem catalog_old (h : L.Adds given M) (hc : c < L.catalogs.length) :
    M.catalog c = L.catalog c := by
  cases h with
  | nothing | schema => rfl
  | definition | catalog =>
    unfold pushCatalog Layout.catalog
    simp [List.getElem?_append_left hc]
  | field =>
    unfold Layout.catalog
    rw [catalogs_add]

theorem catalogs_le (h : L.Adds given M) : L.catalogs.length ≤ M.catalogs.length := by
  cases h with
  | nothing | schema => exact Nat.le_refl _
  | definition | catalog => simp [pushCatalog]
  | field => rw [catalogs_add]

/-- A schema that was not there is the new one. -/
theorem schema_new (h : L.Adds given M) (hs : s < M.schemas.length) (hnew : L.schemas.length ≤ s) :
    ∃ scope name, L.ScopeExists scope ∧ L.newSchema scope name given = .ok (M.schema s) := by
  cases h with
  | nothing | definition | catalog => exact absurd hs (Nat.not_lt.mpr hnew)
  | field =>
    rw [length_add] at hs
    exact absurd hs (Nat.not_lt.mpr hnew)
  | @schema scope hscope name node h =>
    rw [length_push] at hs
    obtain rfl : s = L.schemas.length := Nat.le_antisymm (Nat.le_of_lt_succ hs) hnew
    exact ⟨scope, name, hscope, by rw [schema_push, if_pos rfl]; exact h⟩

theorem catalog_pushed {added : Catalog} (hc : c < (L.pushCatalog added).catalogs.length)
    (hnew : L.catalogs.length ≤ c) : (L.pushCatalog added).catalog c = added := by
  unfold pushCatalog Layout.catalog at *
  obtain rfl : c = L.catalogs.length := by
    simp only [List.length_append, List.length_singleton] at hc
    exact Nat.le_antisymm (Nat.le_of_lt_succ hc) hnew
  simp

/-- A catalog that was not there is the new one. -/
theorem catalog_new (h : L.Adds given M) (hc : c < M.catalogs.length)
    (hnew : L.catalogs.length ≤ c) :
    (∃ name, newDefinition name given = .ok (M.catalog c))
      ∨ given.Makes (M.catalog c).options? := by
  cases h with
  | nothing | schema => exact absurd hc (Nat.not_lt.mpr hnew)
  | field =>
    rw [catalogs_add] at hc
    exact absurd hc (Nat.not_lt.mpr hnew)
  | definition h =>
    rw [catalog_pushed hc hnew]
    exact .inl ⟨_, h⟩
  | catalog hadded =>
    rw [catalog_pushed hc hnew]
    exact .inr hadded

/-- If the catalogs of all schemas were there, they are. -/
theorem catalog_lt (h : L.Adds given M)
    (hwithin : ∀ s c, (L.schema s).catalog? = some c → c < L.catalogs.length)
    (hc : (M.schema s).catalog? = some c) : c < M.catalogs.length := by
  refine Nat.lt_of_lt_of_le ?_ h.catalogs_le
  rcases Nat.lt_or_ge s L.schemas.length with hold | hnew
  · exact hwithin s c ((h.schema_old hold).2.2 ▸ hc)
  · rcases Nat.lt_or_ge s M.schemas.length with hs | hout
    · obtain ⟨scope, name, hscope, hnode⟩ := h.schema_new hs hnew
      obtain ⟨_, _, hfresh, -⟩ := newSchema_ok hnode
      rw [hfresh] at hc
      cases scope with
      | detached | within => exact absurd hc nofun
      | under d => exact Option.some.inj hc ▸ hscope
    · rw [schema_of_le hout] at hc
      exact absurd hc nofun

/-- A column that there is was there before, or it is the new field. -/
theorem column (h : L.Adds given M) {key : Text} {c : Column}
    (hc : (M.schema s).find? key = some (.column (.column c))) :
    (L.schema s).find? key = some (.column (.column c))
      ∨ (L.schema s).find? key = none ∧ s < L.schemas.length
        ∧ ∃ d, Declaration.Gives d given
          ∧ d.field (L.schema s) = .ok (key, .column (.column c)) := by
  cases h with
  | nothing | definition | catalog => exact .inl hc
  | schema hscope h =>
    obtain ⟨_, _, rfl, -⟩ := newSchema_ok h
    rw [schema_push] at hc
    split at hc
    · exact absurd hc nofun
    · exact .inl hc
  | @field t d hd k entry h =>
    -- a key that was there keeps its field, so the new one is found under its own key only
    rw [find?_add] at hc
    split at hc
    · next hts =>
      obtain ⟨rfl, ht⟩ := hts
      cases hfind : (L.schema t).find? key with
      | some e =>
        rw [hfind] at hc
        exact .inl hc
      | none =>
        rw [hfind] at hc
        split at hc
        · next hkey =>
          obtain rfl := hkey
          obtain rfl := Option.some.inj hc
          exact .inr ⟨rfl, ht, d, hd, h⟩
        · exact absurd hc nofun
    · exact .inl hc

end Layout.Adds

/-! ### The tables hold what is given nearest -/

namespace Gifts

variable {g : Gifts} {L M : Layout} {given : OptionMap} {name : Text} {spec : OptionSpec}
  {s : SchemaId}

/-- The tables of catalogs, schemas and columns hold what has been given nearest. -/
structure Account (g : Gifts) (L : Layout) (name : Text) (spec : OptionSpec) : Prop where
  within : ∀ s c, (L.schema s).catalog? = some c → c < L.catalogs.length
  catalog : ∀ c < L.catalogs.length, (L.catalog c).options?.bind (·.defined.find? name)
    = ((g.catalog c).given? name).map spec.transform
  schema : ∀ s < L.schemas.length, (L.schema s).options.defined.find? name
    = (g.nearest? L s name).map spec.transform
  column : ∀ s key c, (L.schema s).find? key = some (.column (.column c)) →
    c.options.slots.find? name = g.slot L s key name spec

/-- What is given nearest to the fields of a schema with none around it. -/
theorem nearest?_outermost (h : (L.schema s).ancestors = []) (name : Text) :
    g.nearest? L s name = ((g.schema s).given? name).or
      ((L.schema s).catalog?.bind fun c => (g.catalog c).given? name) := by
  unfold nearest? Layout.definition?
  rw [h, List.findSome?_cons]
  cases (g.schema s).given? name <;> rfl

/-- What is given nearest to the fields of a nested schema: to itself, or else to its parent's. -/
theorem nearest?_nested {parent : SchemaId}
    (h : (L.schema s).ancestors = parent :: (L.schema parent).ancestors) (name : Text) :
    g.nearest? L s name = ((g.schema s).given? name).or (g.nearest? L parent name) := by
  have hdefinition : L.definition? s = L.definition? parent := by
    unfold Layout.definition?
    rw [h, List.getLast?_cons, Option.getD_some]
  unfold nearest?
  rw [h, hdefinition, List.findSome?_cons]
  cases (g.schema s).given? name <;> rfl

/-- What was given nearest stays so when something is added. -/
theorem nearest?_next (hL : L.Coherent)
    (hwithin : ∀ s c, (L.schema s).catalog? = some c → c < L.catalogs.length)
    (h : L.Adds given M) (hs : s < L.schemas.length) (name : Text) :
    (g.next L given).nearest? M s name = g.nearest? L s name := by
  have hlt (p : SchemaId) (hp : p ∈ s :: (L.schema s).ancestors) : p < L.schemas.length := by
    rcases List.mem_cons.mp hp with rfl | hp
    · exact hs
    · exact Nat.lt_trans (hL.ancestors_lt s p hp) hs
  obtain ⟨-, hancestors, -⟩ := h.schema_old hs
  refine nearest?_congr hancestors ?_ (fun p hp => if_pos (hlt p hp)) (fun c hc => ?_) name
  · unfold Layout.definition?
    rw [hancestors]
    refine (h.schema_old (hlt _ ?_)).2.2
    cases hlast : (L.schema s).ancestors.getLast? with
    | none => exact List.mem_cons_self
    | some p => exact List.mem_cons_of_mem _ (List.mem_of_getLast? hlast)
  · exact if_pos (hwithin _ c hc)

namespace Account

/-- A new schema holds what is given nearest to its fields. -/
theorem schema_new (ha : g.Account L name spec) (hL : L.Furnished) (hscoped : Scoped name spec)
    (h : L.Adds given M) (hs : s < M.schemas.length) (hnew : L.schemas.length ≤ s) :
    (M.schema s).options.defined.find? name
      = ((g.next L given).nearest? M s name).map spec.transform := by
  obtain ⟨scope, title, hscope, hnode⟩ := h.schema_new hs hnew
  have hown : (g.next L given).schema s = given := if_neg (Nat.not_lt.mpr hnew)
  rw [Layout.newSchema_slot hL hnode hscoped]
  obtain ⟨_, _, hfresh, -⟩ := Layout.newSchema_ok hnode
  have hancestors : (M.schema s).ancestors = L.scopeAncestors scope := by rw [hfresh]
  have hcatalog : (M.schema s).catalog? = Layout.scopeCatalog scope := by rw [hfresh]
  -- what is around the schema is accounted for already: it is older
  cases scope with
  | detached =>
    rw [nearest?_outermost hancestors, hown, hcatalog, Option.map_or]
    rfl
  | under c =>
    rw [nearest?_outermost hancestors, hown, hcatalog, Option.map_or]
    refine congrArg (Option.or _) ((ha.catalog c hscope).trans ?_)
    show _ = Option.map _ (((g.next L given).catalog c).given? name)
    rw [show (g.next L given).catalog c = g.catalog c from if_pos hscope]
  | within parent =>
    have hparent := (h.schema_old hscope).2.1
    have hnested := hancestors.trans (congrArg (parent :: ·) hparent.symm)
    rw [nearest?_nested hnested, hown, Option.map_or,
      nearest?_next hL.sane.wellMade.coherent ha.within h hscope]
    exact congrArg (Option.or _) (ha.schema parent hscope)

/-- What a column inherits and what it is given make the slot that it is to have. -/
theorem slot_eq (hscoped : Scoped name spec) (s : SchemaId) (key : Text) :
    (((g.column s key).given? name).map (⟨spec.transform ·, .explicit⟩)).or
      ((((g.nearest? L s name).map spec.transform).map (⟨·, .inherited⟩)).or
        (spec.default?.map (⟨·, .default⟩))) = g.slot L s key name spec := by
  obtain ⟨value, hdefault, hform⟩ := hscoped.default
  unfold slot
  cases (g.column s key).given? name with
  | some own => rfl
  | none =>
    cases g.nearest? L s name with
    | some around => rfl
    | none =>
      rw [hdefault]
      show some (Slot.mk value Origin.default) = some ⟨spec.transform value, .default⟩
      rw [hform]

/-- A definition holds what it was given, whether it was there or is new. -/
theorem catalog_next (ha : g.Account L name spec) (hscoped : Scoped name spec)
    (h : L.Adds given M) {c : CatalogId} (hc : c < M.catalogs.length) :
    (M.catalog c).options?.bind (·.defined.find? name)
      = (((g.next L given).catalog c).given? name).map spec.transform := by
  rcases Nat.lt_or_ge c L.catalogs.length with hold | hnew
  · rw [h.catalog_old hold, show (g.next L given).catalog c = g.catalog c from if_pos hold]
    exact ha.catalog c hold
  · rw [show (g.next L given).catalog c = given from if_neg (Nat.not_lt.mpr hnew)]
    rcases h.catalog_new hc hnew with ⟨title, hdefinition⟩ | hmakes
    · obtain ⟨table, htable, hoptions, -⟩ := Layout.newDefinition_ok hdefinition
      rw [hoptions]
      exact hscoped.find?_createTitled htable
    · cases hoptions : (M.catalog c).options? with
      | none =>
        rw [hoptions] at hmakes
        obtain rfl := hmakes
        rfl
      | some table =>
        rw [hoptions] at hmakes
        exact hscoped.find?_createTable hmakes

/-- A column has the slot that it is to have, whether it was there or is new. -/
theorem column_next (ha : g.Account L name spec) (hL : L.Furnished) (hscoped : Scoped name spec)
    (h : L.Adds given M) {key : Text} {c : Column}
    (hc : (M.schema s).find? key = some (.column (.column c))) :
    c.options.slots.find? name = (g.next L given).slot M s key name spec := by
  have hnearest (hs : s < L.schemas.length) :=
    nearest?_next (g := g) hL.sane.wellMade.coherent ha.within h hs name
  rcases h.column hc with hold | ⟨hfree, hs, d, hgives, hfield⟩
  · rw [ha.column s key c hold]
    unfold slot
    rw [hnearest (Layout.lt_of_find? hold),
      show (g.next L given).column s key = g.column s key from if_pos (by rw [hold]; rfl)]
  · obtain ⟨made, hmade, rfl⟩ := Declaration.madeOf_field hgives hfield
    -- the column has inherited from its schema, and the schema holds what is given nearest
    rw [← slot_eq hscoped, hmade.slot_inherit (hL.held s) hscoped, ha.schema s hs, hnearest hs]
    have hgiven : (g.next L given).column s key = given := if_neg (by rw [hfree]; simp)
    rw [hgiven]

/-- What has been added holds what is given nearest to it, and the rest what it held. -/
theorem adds (ha : g.Account L name spec) (hL : L.Furnished) (hscoped : Scoped name spec)
    (h : L.Adds given M) : (g.next L given).Account M name spec where
  within s c hc := h.catalog_lt ha.within hc
  catalog c hc := ha.catalog_next hscoped h hc
  schema s hs := by
    rcases Nat.lt_or_ge s L.schemas.length with hold | hnew
    · rw [(h.schema_old hold).1,
        nearest?_next hL.sane.wellMade.coherent ha.within h hold name]
      exact ha.schema s hold
    · exact ha.schema_new hL hscoped h hs hnew
  column s key c hc := ha.column_next hL hscoped h hc

/-- What is left alone holds what it held. -/
theorem still (ha : g.Account L name spec) (hscoped : Scoped name spec) (h : L.Still M) :
    g.Account M name spec := by
  have hnearest (s : SchemaId) : g.nearest? M s name = g.nearest? L s name := by
    refine nearest?_congr (h.ancestors s) ?_ (fun _ _ => rfl) (fun _ _ => rfl) name
    unfold Layout.definition?
    rw [h.ancestors, h.catalog]
  refine ⟨fun s c hc => ?_, fun c hc => ?_, fun s hs => ?_, fun s key c hc => ?_⟩
  · rw [h.catalogs]
    exact ha.within s c (h.catalog s ▸ hc)
  · rw [h.options]
    exact ha.catalog c (h.catalogs ▸ hc)
  · have hslot := h.slot s name spec hscoped
    rw [hnearest, ← ha.schema s (h.length ▸ hs), OptionTable.find?_defined,
      OptionTable.find?_defined]
    exact congrArg (Option.bind · _) hslot
  · rw [ha.column s key c (h.column s key _ hc)]
    unfold slot
    rw [hnearest]

end Account

end Gifts

namespace Session.Declared

variable {S : Session} {g : Gifts}

theorem reached (hS : S.Declared g) : S.Reached fun S m => S.Possible m ∧ m.Stocks := by
  induction hS with
  | start => exact .start
  | @step S g hS m hm given hgives ih =>
    refine .step ih ⟨hm, ?_⟩
    cases m with
    | addCatalog name options? listing =>
      intro table htable
      obtain rfl : options? = some table := htable
      exact OptionSchema.createTable_valid OptionSchema.distinct_schemaOptions hgives
    | _ => trivial

/-- The tables hold what has been given nearest: there are none at first, and moves keep it. -/
theorem account (hS : S.Declared g) {name : Text} {spec : OptionSpec} (hscoped : Scoped name spec) :
    g.Account S.layout name spec := by
  induction hS with
  | start =>
    refine ⟨fun s c hc => ?_, fun c hc => ?_, fun s hs => ?_, fun s key c hc => ?_⟩
    · exact absurd hc nofun
    · exact absurd hc (Nat.not_lt_zero c)
    · exact absurd hs (Nat.not_lt_zero s)
    · exact absurd hc nofun
  | @step S g hS m hm given hgives ih =>
    have hfurnished := hS.reached.furnished
    obtain ⟨M, hadds, hstill⟩ := step_adds hfurnished.sane hm hgives
    exact (ih.adds hfurnished hscoped hadds).still hscoped hstill

/-- **Of what is given to a column and around it, the innermost counts**, after it has been brought
into form: what the column was given itself, or else what was given nearest around it, or else the
default. -/
theorem innermost_given (hS : S.Declared g) {s : SchemaId} {key : Text} {c : Column}
    (hc : (S.layout.schema s).find? key = some (.column (.column c))) {name : Text}
    (hname : name ∈ scopedNames) :
    ∃ spec default, columnOptions.find? name = some spec ∧ spec.default? = some default
      ∧ c.options.slots.find? name = g.slot S.layout s key name spec := by
  obtain ⟨spec, hscoped⟩ := Scoped.of_mem hname
  obtain ⟨default, hdefault, -⟩ := hscoped.default
  exact ⟨spec, default, hscoped.column, hdefault, (hS.account hscoped).column s key c hc⟩

end Session.Declared

namespace Session

/-- A definition that lists a schema, with schemas nested in it two deep; options are given here and
there. -/
def shelving : List (Move × OptionMap) :=
  let dotted := NameMap.ofList [(OptionName.padding, Value.text ".")]
  let left := NameMap.ofList [(OptionName.align, Value.text "LEFT")]
  let zeros := NameMap.ofList [(OptionName.padding, Value.text "0")]
  let hashes := NameMap.ofList [(OptionName.padding, Value.text "#")]
  [(.addDefinition "shelf" dotted, dotted), (.beginListed 0 "outer" left, left),
    (.declare 0 (.column "a" 3 .empty), .empty), (.beginNested 0 "body" zeros, zeros),
    (.beginNested 1 "deep" .empty, .empty), (.declare 2 (.column "b" 3 .empty), .empty),
    (.declare 2 (.column "c" 3 hashes), hashes), (.finish true, .empty), (.finish true, .empty),
    (.finish true, .empty)]

/-- What it leads to. -/
def shelved : Session × Gifts := shelving.foldl give (⟨[], .empty⟩, .nothing)

/-- Of the padding, the column `c` has its own, and `b` that of the schema around the one it is in;
`b` is at the left, as the outermost schema says, and it is not cut, which no one says; the column
`a` has the padding of the definition. -/
theorem innermost_given_shelved : ∃ a b c : Column,
    (shelved.1.layout.schema 0).find? "a" = some (.column (.column a))
      ∧ (shelved.1.layout.schema 2).find? "b" = some (.column (.column b))
      ∧ (shelved.1.layout.schema 2).find? "c" = some (.column (.column c))
      ∧ c.options.slots.find? OptionName.padding = some ⟨.text "#", .explicit⟩
      ∧ b.options.slots.find? OptionName.padding = some ⟨.text "0", .inherited⟩
      ∧ b.options.slots.find? OptionName.align = some ⟨.text "left", .inherited⟩
      ∧ b.options.slots.find? OptionName.truncate = some ⟨.bool false, .default⟩
      ∧ a.options.slots.find? OptionName.padding = some ⟨.text ".", .inherited⟩ := by
  have hdeclared : shelved.1.Declared shelved.2 := by
    refine Declared.start.moves ⟨trivial, rfl, show 0 < _ by decide, rfl,
      ⟨by decide, trivial⟩, rfl, show 0 < _ by decide, rfl,
      show 1 < _ by decide, rfl, ⟨by decide, trivial⟩, rfl,
      ⟨by decide, trivial⟩, rfl, trivial, trivial, trivial, trivial, trivial, trivial,
      trivial⟩
  have hslot {s : SchemaId} {key : Text} {c : Column}
      (hc : (shelved.1.layout.schema s).find? key = some (.column (.column c))) {name : Text}
      (hname : name ∈ scopedNames) {spec : OptionSpec}
      (hspec : columnOptions.find? name = some spec) :
      c.options.slots.find? name = shelved.2.slot shelved.1.layout s key name spec := by
    obtain ⟨found, -, hfound, -, hslot⟩ := hdeclared.innermost_given hc hname
    obtain rfl := Option.some.inj (hfound.symm.trans hspec)
    exact hslot
  have ha : ∃ a : Column, (shelved.1.layout.schema 0).find? "a" = some (.column (.column a)) :=
    ⟨_, rfl⟩
  have hb : ∃ b : Column, (shelved.1.layout.schema 2).find? "b" = some (.column (.column b)) :=
    ⟨_, rfl⟩
  have hc : ∃ c : Column, (shelved.1.layout.schema 2).find? "c" = some (.column (.column c)) :=
    ⟨_, rfl⟩
  obtain ⟨a, ha⟩ := ha
  obtain ⟨b, hb⟩ := hb
  obtain ⟨c, hc⟩ := hc
  refine ⟨a, b, c, ha, hb, hc, (hslot hc (by decide) rfl).trans ?_,
    (hslot hb (by decide) rfl).trans ?_, (hslot hb (by decide) rfl).trans ?_,
    (hslot hb (by decide) rfl).trans ?_, (hslot ha (by decide) rfl).trans ?_⟩
  all_goals rfl

end Session

end RecordLayout
