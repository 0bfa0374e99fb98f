import RecordLayout.Layout.Schema

/-!
# Catalogs

A catalog lists schemas by name.  A name may be listed more than once, and with no schema behind it.

## Main definitions

* `Catalog`: a name, options and a list of schemas.
* `Catalog.candidates`, `Catalog.find?`: what is listed under a name.
-/

namespace RecordLayout

/-- A list of schemas by name, in which references of top-level schemas are looked up. -/
structure Catalog where
  /-- The name of the catalog. -/
  name : Text
  /-- The options that top-level schemas inherit, if there are any. -/
  options? : Option OptionTable
  /-- The schemas in order, by the names that they are listed under. -/
  listing : Listing (Option SchemaId)
  /-- Whether schemas are declared in the catalog. -/
  isDefinition : Bool

instance : Inhabited Catalog :=
  ⟨{ name := [], options? := none, listing := [], isDefinition := false }⟩

namespace Catalog

/-- All that is listed under a name, in order. -/
def candidates (c : Catalog) (name : Text) : List (Option SchemaId) :=
  c.listing.filterMap fun e => if e.1 = name then some e.2 else none

/-- The first schema that is listed under a name. -/
def find? (c : Catalog) (name : Text) : Option SchemaId := (c.candidates name).findSome? id

/-- The schemas that are listed, in order. -/
def schemas (c : Catalog) : List SchemaId := c.listing.filterMap (·.2)

/-- The names that are listed, in order. -/
def names (c : Catalog) : List Text := Listing.names c.listing

end Catalog

end RecordLayout
