import RecordLayout.Layout.Catalog

/-!
# Layouts

A layout holds schemas and the catalogs that list them.  Schemas are addressed by their place in
the layout, so that references may form cycles.  A schema that could not be declared to its end
keeps its place, but nothing leads to it.

## Main definitions

* `Layout`: schemas and catalogs by place.
* `Layout.schema`, `Layout.catalog`: what is at a place.
* `Layout.modify`, `Layout.modifyEntry`, `Layout.append`: changes to one schema.
* `Build`: what reads and changes a layout and may fail.
-/

namespace RecordLayout

/-- Schemas and catalogs. -/
structure Layout where
  /-- The schemas by place. -/
  schemas : List Schema
  /-- The catalogs by place. -/
  catalogs : List Catalog
  /-- Counts the fields that have been added anywhere. -/
  generation : Nat

namespace Layout

/-- The layout without schemas. -/
def empty : Layout := ⟨[], [], 1⟩

instance : Inhabited Layout := ⟨empty⟩

/-- The schema at a place; a place that is not taken has a schema without fields. -/
def schema (L : Layout) (s : SchemaId) : Schema := L.schemas.getD s .blank

/-- The catalog at a place. -/
def catalog (L : Layout) (c : CatalogId) : Catalog := L.catalogs.getD c default

/-- The layout with the schema at a place changed. -/
def modify (L : Layout) (s : SchemaId) (f : Schema → Schema) : Layout :=
  { L with schemas := L.schemas.modify s f }

/-- The layout with the field of a key changed. -/
def modifyEntry (L : Layout) (s : SchemaId) (key : Text) (f : Entry → Entry) : Layout :=
  L.modify s fun node => { node with entries := Listing.modify node.entries key f }

/-- The layout with one more schema, at the next place. -/
def push (L : Layout) (node : Schema) : Layout := { L with schemas := L.schemas ++ [node] }

/-- The layout with one more catalog, at the next place. -/
def pushCatalog (L : Layout) (catalog : Catalog) : Layout :=
  { L with catalogs := L.catalogs ++ [catalog] }

/-- The groups with one more, unless it is there. -/
def insertGroup (groups : List Text) (group : Option Text) : List Text :=
  match group with
  | some g => if g ∈ groups then groups else groups ++ [g]
  | none => groups

/-- The layout with one more field of a schema.  No width computed before is trusted after it. -/
def append (L : Layout) (s : SchemaId) (key : Text) (entry : Entry) : Layout :=
  let changed := L.modify s fun node =>
    { node with
      entries := node.entries ++ [(key, entry)]
      groups := insertGroup node.groups (entry.codec?.bind (·.group))
      knownWidth? := none }
  { changed with generation := L.generation + 1 }

theorem schema_modify (L : Layout) (s t : SchemaId) (f : Schema → Schema) :
    (L.modify s f).schema t
      = if s = t ∧ t < L.schemas.length then f (L.schema t) else L.schema t := by
  unfold modify schema
  simp only [List.getD_eq_getElem?_getD, List.getElem?_modify]
  by_cases ht : t < L.schemas.length
  · by_cases hs : s = t <;> simp [ht, hs]
  · simp [ht]

@[simp] theorem generation_modify (L : Layout) (s : SchemaId) (f : Schema → Schema) :
    (L.modify s f).generation = L.generation := rfl

@[simp] theorem catalogs_modify (L : Layout) (s : SchemaId) (f : Schema → Schema) :
    (L.modify s f).catalogs = L.catalogs := rfl

@[simp] theorem length_modify (L : Layout) (s : SchemaId) (f : Schema → Schema) :
    (L.modify s f).schemas.length = L.schemas.length := by
  simp [modify]

theorem schema_push (L : Layout) (node : Schema) (t : SchemaId) :
    (L.push node).schema t = if t = L.schemas.length then node else L.schema t := by
  unfold push schema
  simp only [List.getD_eq_getElem?_getD, List.getElem?_append]
  grind

end Layout

/-- What reads and changes a layout and may fail.  A failure keeps the changes made before it. -/
abbrev Build := EStateM Error Layout

namespace Build

/-- The result of a computation that does not touch the layout. -/
def ofExcept {α : Type} (x : Except Error α) : Build α := fun L =>
  match x with
  | .ok a => .ok a L
  | .error e => .error e L

/-- A step whose failure is its result.  One that does not end has no result. -/
def attempt {α : Type} (x : Build α) : Build (Except Error α) := fun L =>
  match x L with
  | .ok a L => .ok (.ok a) L
  | .error e L => if e.isEndless then .error e L else .ok (.error e) L

/-- Failure with an error, if there is one. -/
def settle : Option Error → Build Unit
  | none => pure ()
  | some e => throw e

/-- The schema at a place. -/
def schema (s : SchemaId) : Build Schema := fun L => .ok (L.schema s) L

end Build

end RecordLayout
