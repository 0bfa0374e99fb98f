import RecordLayout.Layout.Basic

/-!
# Settings of a schema

What can be read and changed of a schema besides its fields.

## Main definitions

* `Layout.option`, `Layout.setOptional`, `Layout.setSingular`, `Layout.setCondition`.
-/

namespace RecordLayout

namespace Layout

/-- The value of a readable option of a schema. -/
def option (s : SchemaId) (name : Text) : Build Value := fun L =>
  Build.ofExcept ((L.schema s).options.read name) L

/-- Sets an option of a schema. -/
def setOption (s : SchemaId) (name : Text) (value : Value) : Build Unit := fun L =>
  match (L.schema s).options.set name value with
  | .ok table => .ok () (L.modify s fun node => { node with options := table })
  | .error e => .error e L

/-- Says whether records of a schema may be missing. -/
def setOptional (s : SchemaId) (value : Bool) : Build Unit :=
  setOption s OptionName.optional (.bool value)

/-- Says whether there is at most one record of a schema. -/
def setSingular (s : SchemaId) (value : Bool) : Build Unit :=
  setOption s OptionName.singular (.bool value)

/-- Gives a schema a further condition on the lines that match, or takes it away. -/
def setCondition (s : SchemaId) (condition? : Option (Text → Bool)) : Build Unit := fun L =>
  .ok () (L.modify s fun node => { node with condition? })

end Layout

end RecordLayout
