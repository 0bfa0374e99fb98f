import RecordLayout.Layout.Basic

/-!
# Declaring schemas and fields

Every declaration is checked against its schema before anything is changed, so that one that fails
leaves no field behind.  A new schema inherits what it leaves unset from the schema around it, or
from the definition that lists it.

A nested schema is declared by a builder, which works on the new schema before it becomes a field.

## Main definitions

* `Scope`: where a new schema stands.
* `Layout.createSchema`: a schema that is no field of another.
* `Layout.declareColumn`, `Layout.declareCodec`, `Layout.declareFiller`, `Layout.declareReference`.
* `BuildWith`, `Builder`, `Layout.setup`, `Layout.declareNested`: builders and the schemas that they
  declare.
-/

namespace RecordLayout

/-- Where a new schema stands. -/
inductive Scope
  /-- Nowhere: its references cannot be resolved. -/
  | detached
  /-- Inside a schema. -/
  | within (parent : SchemaId)
  /-- At the top level, with a catalog to look references up in. -/
  | under (catalog : CatalogId)
  deriving DecidableEq, Repr

/-- A name that may be declared: an identifier that is not reserved. -/
def checkName (name : Text) : Except Error Unit :=
  if !name.isIdentifier then .error (.notIdentifier name)
  else if name.isReserved then .error (.reservedName name)
  else .ok ()

/-- A name, if there is one, that may be declared. -/
def checkGroup (group : Option Text) : Except Error Unit :=
  match group with
  | some g => checkName g
  | none => .ok ()

theorem checkName_eq_ok_iff (name : Text) :
    checkName name = .ok () ↔ name.isIdentifier = true ∧ name.isReserved = false := by
  unfold checkName
  cases name.isIdentifier <;> cases name.isReserved <;> simp

/-- What a merge gave, if nothing was refused in it. -/
def unlessRefused {α : Type} (result : α × Option Error) : Except Error α :=
  match result.2 with
  | some e => .error e
  | none => .ok result.1

namespace Schema

/-! ### Checks against the fields that are there -/

/-- A key that no field and no group has. -/
def checkNewKey (node : Schema) (key : Text) : Except Error Unit :=
  if (node.find? key).isSome then .error (.fieldExists key node.name)
  else if key ∈ node.groups then .error (.groupExists key node.name)
  else .ok ()

/-- The key of a column in a group. -/
def memberKey (group name : Text) : Text := group ++ "." ++ name

/-- The key of a new column, unless it is taken. -/
def columnKey (node : Schema) (codec : Codec) : Except Error Text :=
  match codec.group with
  | none => (node.checkNewKey codec.name).map fun _ => codec.name
  | some group =>
    let key := memberKey group codec.name
    if (node.find? group).isSome then .error (.groupMeetsField group node.name)
    else if (node.find? key).isSome then .error (.memberExists codec.name group node.name)
    else .ok key

/-- The reference that a nested schema of some name must not stand beside: to a schema of that
name, by its declaration or by its target.  Of several the latest is named. -/
def clashingReference? (node : Schema) (targetName : SchemaId → Text) (name : Text) : Option Text :=
  (node.entries.reverse.find? fun e =>
    match e.2 with
    | .reference r => r.schemaName == name || (r.target?.map targetName) == some name
    | _ => false).map (·.1)

/-! ### New fields -/

/-- A codec as a field of the schema, with its key. -/
def codecField (node : Schema) (codec : Codec) : Except Error (Text × Entry) := do
  checkName codec.name
  checkGroup codec.group
  let key ← node.columnKey codec
  let codec ← unlessRefused (codec.inherit node.options)
  return (key, .column codec)

/-- A new column as a field of the schema, with its key. -/
def columnField (node : Schema) (name : Text) (width : UInt64) (options : OptionMap) :
    Except Error (Text × Entry) := do
  let column ← Column.create name width options
  node.codecField (.column column)

/-- A codec made elsewhere as a field of the schema, with its key. -/
def givenField (node : Schema) (codec? : Option Codec) : Except Error (Text × Entry) :=
  match codec? with
  | none => .error (.missingCodec node.name)
  | some codec =>
    if codec.width = 0 then .error (.emptyColumn codec.name)
    else node.codecField codec

/-- The next filler as a field of the schema, with its key. -/
def fillerField (node : Schema) (width : UInt64) (padding : Text) :
    Except Error (Text × Entry) := do
  if width = 0 then throw (.emptyFiller node.name)
  let name := Text.spacerName (node.fillers + 1)
  node.checkNewKey name
  let column ← Column.createFiller name width padding
  let codec ← unlessRefused ((Codec.column column).inherit node.options)
  return (name, .column codec)

/-- The options of a reference as they are passed on: only inheritable schema options are, in their
stored form. -/
def referenceOptions (storeName : Text) (options : OptionMap) : Except Error OptionMap := do
  options.entries.forM fun e =>
    if (schemaOptions.find? e.1).any (·.inheritable) then Except.ok ()
    else .error (.unpassableOption e.1 storeName)
  let table ← schemaOptions.createTable (options.insert OptionName.name (.text storeName))
  return table.defined.erase OptionName.name

/-- A reference as a field of the schema, with its key.  It is stored under the name of the schema
that it refers to, unless another name is given. -/
def referenceField (node : Schema) (schemaName storeName : Text) (options : OptionMap) :
    Except Error (Text × Entry) := do
  if schemaName.isEmpty then throw (.missingTarget node.name)
  if !schemaName.isIdentifier then throw (.malformedTarget schemaName node.name)
  let key := if storeName.isEmpty then schemaName else storeName
  checkName key
  node.checkNewKey key
  if ((node.find? schemaName).bind Entry.nested?).isSome then
    throw (.referenceMeetsNested key schemaName node.name)
  let passed ← referenceOptions key options
  return (key, .reference (Reference.create schemaName key passed))

end Schema

namespace Layout

/-! ### Schemas -/

/-- The options that a new schema inherits. -/
def scopeOptions (L : Layout) : Scope → Option OptionTable
  | .detached => none
  | .within parent => some (L.schema parent).options
  | .under catalog => (L.catalog catalog).options?

/-- The schemas around a new schema. -/
def scopeAncestors (L : Layout) : Scope → List SchemaId
  | .within parent => parent :: (L.schema parent).ancestors
  | _ => []

/-- The catalog of a new schema. -/
def scopeCatalog : Scope → Option CatalogId
  | .under catalog => some catalog
  | _ => none

/-- A new schema.  The name is an option itself, and replaces one that is given under its name. -/
def newSchema (L : Layout) (scope : Scope) (name : Text) (options : OptionMap) :
    Except Error Schema := do
  let given ← schemaOptions.createTable (options.insert OptionName.name (.text name))
  let name ← Column.textOf (given.get OptionName.name)
  checkName name
  let table ←
    match L.scopeOptions scope with
    | some around => unlessRefused (given.merge around)
    | none => .ok given
  return { Schema.blank with
    name, options := table
    ancestors := L.scopeAncestors scope
    catalog? := scopeCatalog scope }

/-- Adds a schema that is no field of another, and gives its place. -/
def createSchema (scope : Scope) (name : Text) (options : OptionMap) : Build SchemaId := fun L =>
  match L.newSchema scope name options with
  | .ok node => .ok L.schemas.length (L.push node)
  | .error e => .error e L

/-! ### Fields -/

/-- Adds the field that is made of a schema, or fails with no change. -/
def declare (s : SchemaId) (field : Schema → Except Error (Text × Entry)) : Build Unit := fun L =>
  match field (L.schema s) with
  | .ok (key, entry) => .ok () (L.append s key entry)
  | .error e => .error e L

/-- Adds a column of a name and a width with options. -/
def declareColumn (s : SchemaId) (name : Text) (width : UInt64) (options : OptionMap) :
    Build Unit :=
  declare s fun node => node.columnField name width options

/-- Adds a codec made elsewhere. -/
def declareCodec (s : SchemaId) (codec? : Option Codec) : Build Unit :=
  declare s fun node => node.givenField codec?

/-- Adds a filler, named by its number. -/
def declareFiller (s : SchemaId) (width : UInt64) (padding : Text) : Build Unit := do
  declare s fun node => node.fillerField width padding
  modifyThe Layout (·.modify s fun node => { node with fillers := node.fillers + 1 })

/-- Adds a reference to a schema declared elsewhere. -/
def declareReference (s : SchemaId) (schemaName storeName : Text) (options : OptionMap) :
    Build Unit :=
  declare s fun node => node.referenceField schemaName storeName options

/-- Adds the schema that is to be nested in another, after all checks that come before its builder;
it becomes a field only when the builder is done. -/
def openNested (parent : SchemaId) (name : Text) (options : OptionMap) : Build SchemaId := fun L =>
  let outer := L.schema parent
  match L.newSchema (.within parent) name options with
  | .error e => .error e L
  | .ok node =>
    match outer.checkNewKey node.name with
    | .error e => .error e L
    | .ok _ =>
      match outer.clashingReference? (fun t => (L.schema t).name) node.name with
      | some reference => .error (.nestedMeetsReference node.name reference outer.name) L
      | none => .ok L.schemas.length (L.push node)

end Layout

/-! ### Builders -/

/-- What reads and changes a layout and may fail, and keeps notes beside it. -/
abbrev BuildWith (ρ : Type) := EStateM Error (Layout × ρ)

/-- What declares the fields of the schema that it is given, and keeps notes. -/
abbrev Builder (ρ : Type) := SchemaId → BuildWith ρ Unit

namespace Build

/-- A step that leaves the notes as they are. -/
def keepNotes {α ρ : Type} (x : Build α) : BuildWith ρ α := fun (L, notes) =>
  match x L with
  | .ok a L => .ok a (L, notes)
  | .error e L => .error e (L, notes)

end Build

namespace Layout

/-- The layout with a schema marked as being set up, or not. -/
def markBusy (L : Layout) (s : SchemaId) (busy : Bool) : Layout :=
  L.modify s fun node => { node with busy }

/-- Lets a builder work on a schema.  No other may work on it at the same time. -/
def setup {ρ : Type} (s : SchemaId) (builder : Option (Builder ρ)) : BuildWith ρ Unit :=
  fun (L, notes) =>
    match builder with
    | none => .error (.missingBuilder (L.schema s).name) (L, notes)
    | some build =>
      if (L.schema s).busy then .error (.alreadyBusy (L.schema s).name) (L, notes)
      else match build s (L.markBusy s true, notes) with
        | .ok _ (L, notes) => .ok () (L.markBusy s false, notes)
        | .error e (L, notes) => .error e (L.markBusy s false, notes)

/-- Adds a nested schema whose fields a builder declares.  It becomes a field when the builder has
succeeded; what else the builder did stays in any case. -/
def declareNested {ρ : Type} (parent : SchemaId) (name : Text) (options : OptionMap)
    (builder : Option (Builder ρ)) : BuildWith ρ SchemaId := do
  if builder.isNone then
    throw (.missingNestedBuilder name ((← get).1.schema parent).name)
  let child ← Build.keepNotes (openNested parent name options)
  setup child builder
  modifyThe (Layout × ρ) fun (L, notes) =>
    (L.append parent (L.schema child).name (.nested child), notes)
  return child

end Layout

end RecordLayout
