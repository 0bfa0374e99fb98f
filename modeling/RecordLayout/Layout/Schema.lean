import RecordLayout.Codec
import RecordLayout.Reference

/-!
# Schemas

A schema is an ordered list of fields: codecs, schemas nested in it, and references to schemas
declared elsewhere.  It keeps what has happened to it: the option sets that have reached it, and
the width that was last computed.

## Main definitions

* `Entry`: a field of a schema.
* `Schema`: the description of a record.
* `Schema.fields`, `Schema.find?`: the keys in order, and the field of a key.
* `Schema.hasReceived`, `Schema.trustedWidth?`: what has happened to it.
-/

namespace RecordLayout

/-- The place of a catalog in a layout. -/
abbrev CatalogId := Nat

/-- A field of a schema. -/
inductive Entry
  /-- A leaf. -/
  | column (codec : Codec)
  /-- A schema that belongs to this one. -/
  | nested (schema : SchemaId)
  /-- A schema declared elsewhere. -/
  | reference (ref : Reference)

namespace Entry

/-- The codec of a leaf. -/
def codec? : Entry → Option Codec
  | .column codec => some codec
  | _ => none

/-- The schema that is nested. -/
def nested? : Entry → Option SchemaId
  | .nested schema => some schema
  | _ => none

/-- The reference to a schema declared elsewhere. -/
def reference? : Entry → Option Reference
  | .reference ref => some ref
  | _ => none

end Entry

/-- The description of a record. -/
structure Schema where
  /-- The name of the schema. -/
  name : Text
  /-- The schemas around it, from the innermost outwards. -/
  ancestors : List SchemaId
  /-- The catalog that a schema without ancestors looks its references up in. -/
  catalog? : Option CatalogId
  /-- The options of the schema. -/
  options : OptionTable
  /-- A further condition on the lines that match, if there is one. -/
  condition? : Option (Text → Bool)
  /-- The fields in order.  A key may come twice; its first field answers for it. -/
  entries : Listing Entry
  /-- The groups of the columns. -/
  groups : List Text
  /-- The number of fillers that have been added. -/
  fillers : Nat
  /-- Whether a builder is at work on the schema. -/
  busy : Bool
  /-- The option sets that have been propagated into the schema. -/
  received : List OptionMap
  /-- The width that was last computed, and the generation of the layout at that time. -/
  knownWidth? : Option (UInt64 × Nat)

namespace Schema

/-- A schema without fields. -/
def blank : Schema where
  name := []
  ancestors := []
  catalog? := none
  options := .empty
  condition? := none
  entries := []
  groups := []
  fillers := 0
  busy := false
  received := []
  knownWidth? := none

instance : Inhabited Schema := ⟨blank⟩

/-- The keys of the fields in order. -/
def fields (s : Schema) : List Text := Listing.names s.entries

/-- The field of a key. -/
def find? (s : Schema) (key : Text) : Option Entry := Listing.find? s.entries key

/-- The codecs in order, one for each key that stands for a codec. -/
def columns (s : Schema) : List Codec :=
  s.fields.filterMap fun key => (s.find? key).bind Entry.codec?

/-- The nested schemas in order, one for each key that stands for a nested schema. -/
def schemas (s : Schema) : List SchemaId :=
  s.fields.filterMap fun key => (s.find? key).bind Entry.nested?

/-- Whether an option set has been propagated into the schema. -/
def hasReceived (s : Schema) (options : OptionMap) : Bool := s.received.any (·.equal options)

/-- The width computed in a generation of the layout, if it was computed in that one. -/
def trustedWidth? (s : Schema) (generation : Nat) : Option UInt64 :=
  match s.knownWidth? with
  | some (total, computedIn) => if computedIn = generation then some total else none
  | none => none

/-- The schema around this one. -/
def parent? (s : Schema) : Option SchemaId := s.ancestors.head?

/-- Whether records of the schema may be missing. -/
def isOptional (s : Schema) : Bool := (s.options.get OptionName.optional).bool? == some true

/-- Whether there is at most one record of the schema. -/
def isSingular (s : Schema) : Bool := (s.options.get OptionName.singular).bool? == some true

end Schema

end RecordLayout
