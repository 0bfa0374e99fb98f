import RecordLayout.Layout.Check
import RecordLayout.Layout.Declare
import RecordLayout.Layout.Format
import RecordLayout.Layout.Parse

/-!
# Definitions

A definition is a catalog in which schemas are declared: an ordered list of schemas with different
names, each of which describes one kind of line.  A line belongs to the first schema that it fits.

## Main definitions

* `Layout.addDefinition`, `Layout.addCatalog`.
* `Layout.declareSchema`: a schema in a definition.
* `Layout.definitionErrors`, `Layout.validateDefinition`.
* `Layout.schemaOfLine`, `Layout.recordOfLine`: the schema and the record of a line.
-/

namespace RecordLayout

namespace Layout

/-- Adds a catalog from elsewhere, with the options that schemas under it inherit, if there are
any. -/
def addCatalog (name : Text) (options? : Option OptionTable)
    (listing : Listing (Option SchemaId)) : Build CatalogId := fun L =>
  .ok L.catalogs.length (L.pushCatalog { name, options?, listing, isDefinition := false })

/-- A new definition, without schemas. -/
def newDefinition (name : Text) (options : OptionMap) : Except Error Catalog := do
  let table ← schemaOptions.createTable (options.insert OptionName.name (.text name))
  let name ← Column.textOf (table.get OptionName.name)
  return { name, options? := some table, listing := [], isDefinition := true }

/-- Adds a definition without schemas. -/
def addDefinition (name : Text) (options : OptionMap) : Build CatalogId := fun L =>
  match newDefinition name options with
  | .ok definition => .ok L.catalogs.length (L.pushCatalog definition)
  | .error e => .error e L

/-- Lists a schema at the end of a catalog, under its name. -/
def enlist (L : Layout) (c : CatalogId) (s : SchemaId) : Layout :=
  { L with catalogs := L.catalogs.modify c fun catalog =>
      { catalog with listing := catalog.listing ++ [((L.schema s).name, some s)] } }

/-- Adds the schema that is to be listed in a definition, unless its name is taken. -/
def openSchema (c : CatalogId) (name : Text) (options : OptionMap) : Build SchemaId := fun L =>
  match L.newSchema (.under c) name options with
  | .error e => .error e L
  | .ok node =>
    match (L.catalog c).find? node.name with
    | some _ => .error (.schemaExists node.name (L.catalog c).name) L
    | none => .ok L.schemas.length (L.push node)

/-- Adds a schema to a definition.  It is listed when its builder, if there is one, has
succeeded. -/
def declareSchema {ρ : Type} (c : CatalogId) (name : Text) (options : OptionMap)
    (builder : Option (Builder ρ)) : BuildWith ρ SchemaId := do
  let s ← Build.keepNotes (openSchema c name options)
  if builder.isSome then setup s builder
  modifyThe (Layout × ρ) fun (L, notes) => (L.enlist c s, notes)
  return s

/-- The schemas of a definition in order. -/
def definitionSchemas (c : CatalogId) : Build (List SchemaId) := fun L =>
  .ok (L.catalog c).schemas L

/-- All that is wrong with the schemas of a definition, each text once. -/
def definitionErrors (c : CatalogId) : Build (List Error) := do
  let found ← (← definitionSchemas c).foldlM (fun found s => (found ++ ·) <$> errors s) []
  return Error.distinct found

/-- Fails if anything is wrong with a schema of a definition. -/
def validateDefinition (c : CatalogId) : Build Unit := do
  match Error.summary (← definitionErrors c) with
  | some e => throw e
  | none => (← definitionSchemas c).forM validate

/-- The first of some schemas that a line fits. -/
def firstMatch (line : Text) : List SchemaId → Build (Option SchemaId)
  | [] => pure none
  | s :: rest => do
    if ← matchesLine s line then return some s
    else firstMatch line rest

/-- The first schema of a definition that a line fits. -/
def schemaOfLine (c : CatalogId) (line : Text) : Build SchemaId := do
  match ← firstMatch line (← definitionSchemas c) with
  | some s => return s
  | none => fun L => .error (.noMatch (L.catalog c).name) L

/-- The schema that a line belongs to, and the record that it reads from the line. -/
def recordOfLine (c : CatalogId) (line : Text) : Build (SchemaId × Record) := do
  let s ← schemaOfLine c line
  let record ← parse s line
  return (s, record)

end Layout

end RecordLayout
