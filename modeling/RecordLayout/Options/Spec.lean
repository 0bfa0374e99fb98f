import RecordLayout.Error
import RecordLayout.NameMap
import RecordLayout.Value.Equality
import RecordLayout.Value.Printer

/-!
# Option schemas

An option schema declares, in order, the options that its owner can have: how a value is brought
into form, which values are accepted, what holds when none is given, and who may do what with it.

## Main definitions

* `OptionSpec`: the declaration of one option.
* `OptionSchema`: the declarations of an owner.
* `OptionSchema.find?`, `OptionSchema.define`, `OptionSchema.configure`.
* `OptionSchema.normalize`: a value as the table stores it, if it is accepted.
* `OptionMap`: options as they are given.
-/

namespace RecordLayout

/-- Options as they are given: values by name. -/
abbrev OptionMap := NameMap Value

/-- Two option sets are equal when they give equal values to the same names. -/
def OptionMap.equal (m n : OptionMap) : Bool := NameMap.agrees Value.equal m n

/-- The declaration of an option. -/
structure OptionSpec where
  /-- The name of the option. -/
  name : Text
  /-- How a given value is brought into form. -/
  transform : Value → Value := id
  /-- Which values are accepted, after the transform. -/
  accepts : Value → Bool := fun _ => true
  /-- What messages say is accepted. -/
  expected : Text := []
  /-- What holds when no value is given. -/
  default? : Option Value := none
  /-- Whether a value has to be given. -/
  required : Bool := false
  /-- Whether the value may be read. -/
  readable : Bool := false
  /-- Whether the value may be set later. -/
  writable : Bool := false
  /-- Whether a value may be taken over from another table. -/
  inheritable : Bool := false

/-- The options that an owner can have. -/
structure OptionSchema where
  /-- Tells option schemas apart: only tables of one schema can be equal. -/
  serial : Nat
  /-- What messages call the owner. -/
  owner : Text
  /-- The declarations in order, each name once. -/
  specs : List OptionSpec := []

namespace OptionSchema

/-- The option schema of tables that have none: it declares nothing. -/
def none : OptionSchema := ⟨0, [], []⟩

/-- The declaration of an option. -/
def find? (s : OptionSchema) (name : Text) : Option OptionSpec :=
  s.specs.find? fun spec => spec.name = name

/-- The specs with one more, in the place of the one of its name or at the end. -/
def defineIn (spec : OptionSpec) : List OptionSpec → List OptionSpec
  | [] => [spec]
  | old :: rest => if old.name = spec.name then spec :: rest else old :: defineIn spec rest

/-- The schema with a declaration, in the place of the one of its name or at the end. -/
def define (s : OptionSchema) (spec : OptionSpec) : OptionSchema :=
  { s with specs := defineIn spec s.specs }

/-- The schema with more options required, readable and writable. -/
def configure (s : OptionSchema) (required reader writer : List Text) : OptionSchema :=
  { s with specs := s.specs.map fun spec =>
      { spec with
        required := spec.required || required.contains spec.name
        readable := spec.readable || reader.contains spec.name
        writable := spec.writable || writer.contains spec.name } }

/-- A given value as a table stores it: transformed, and accepted after that. -/
def normalize (s : OptionSchema) (spec : OptionSpec) (raw : Value) : Except Error Value :=
  let value := spec.transform raw
  if spec.accepts value then .ok value
  else .error (.invalidOption s.owner spec.name spec.expected value.toText)

theorem normalize_eq_ok_iff (s : OptionSchema) (spec : OptionSpec) (raw value : Value) :
    s.normalize spec raw = .ok value ↔
      spec.transform raw = value ∧ spec.accepts (spec.transform raw) = true := by
  unfold normalize
  by_cases h : spec.accepts (spec.transform raw) <;> simp [h]

end OptionSchema

end RecordLayout
