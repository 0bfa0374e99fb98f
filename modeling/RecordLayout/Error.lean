import RecordLayout.Status
import RecordLayout.Value.Basic

/-!
# Errors

The causes for which an operation on options, columns, schemas or definitions fails.  A cause holds
what its message speaks of; the code and the wording are given here for all of them.

## Main definitions

* `Error`: the causes.
* `Error.code`, `Error.message`, `Error.status`: how a cause is reported.
-/

namespace RecordLayout

/-- The causes of failures. -/
inductive Error
  /-- An option is given that the option schema of `owner` does not declare. -/
  | unknownOption (name owner : Text)
  /-- A required option is not given. -/
  | missingOption (name owner : Text)
  /-- A value of an option is refused; `shown` is the text of the value after its transform. -/
  | invalidOption (owner name expected shown : Text)
  /-- An option may not be read. -/
  | unreadableOption (name : Text)
  /-- An option may not be set. -/
  | unwritableOption (name : Text)
  /-- A slot does not hold a number of the form that its column asks for. -/
  | unparsable (column text form : Text)
  /-- A text does not fit its column. -/
  | tooWide (text : Text) (width : UInt64) (column : Text)
  /-- A record is put into a column. -/
  | recordInColumn (column : Text)
  /-- A value was used in a way that it does not allow. -/
  | fault (f : Fault)
  /-- A codec reports a failure of its own. -/
  | reported (code : StatusCode) (message : Text)
  /-- A name is no identifier. -/
  | notIdentifier (name : Text)
  /-- A name begins like the names that a layout gives itself. -/
  | reservedName (name : Text)
  /-- A schema is to be set up by no builder. -/
  | missingBuilder (schema : Text)
  /-- A schema is to be set up while it is being set up. -/
  | alreadyBusy (schema : Text)
  /-- A column is to be added that is not there. -/
  | missingCodec (schema : Text)
  /-- A column has no width. -/
  | emptyColumn (column : Text)
  /-- A filler has no width. -/
  | emptyFiller (schema : Text)
  /-- A nested schema is to be declared by no builder. -/
  | missingNestedBuilder (nested schema : Text)
  /-- A nested schema has the name of the target of a reference beside it. -/
  | nestedMeetsReference (nested reference schema : Text)
  /-- A reference names no schema. -/
  | missingTarget (schema : Text)
  /-- A reference names a schema by a text that is no identifier. -/
  | malformedTarget (target schema : Text)
  /-- A reference names a schema that is nested beside it. -/
  | referenceMeetsNested (reference target schema : Text)
  /-- An option cannot travel through a reference. -/
  | unpassableOption (name reference : Text)
  /-- A field of this name is there. -/
  | fieldExists (name schema : Text)
  /-- A group has the name that a field is to have. -/
  | groupExists (name schema : Text)
  /-- A field has the name that a group is to have. -/
  | groupMeetsField (name schema : Text)
  /-- A column of this name is there in its group. -/
  | memberExists (column group schema : Text)
  /-- A schema has no field of this name. -/
  | noField (name schema : Text)
  /-- A column has the name of the schema that was looked for. -/
  | columnInstead (name schema : Text)
  /-- A catalog lists no schema of this name. -/
  | notInCatalog (name catalog : Text)
  /-- No schema of this name encloses or stands beside a schema. -/
  | notVisible (name schema : Text)
  /-- References of a schema without parent and catalog have nowhere to look. -/
  | noParent (schema : Text)
  /-- A reference finds no target, for a reason. -/
  | unresolved (reference schema target : Text) (reason : Error)
  /-- Option sets would be handed round a cycle of references for ever, because one of them does
  not equal itself. -/
  | endlessPropagation (schema : Text)
  /-- A schema is met again inside itself. -/
  | cycle (schema : Text)
  /-- Schemas are nested deeper than `levels`. -/
  | tooDeep (schema : Text) (levels : Nat)
  /-- A group of columns is given a value that is no record. -/
  | groupNotRecord (group schema shown : Text)
  /-- A nested or referenced schema is given a value that is no record. -/
  | fieldNotRecord (field schema shown : Text)
  /-- A formatted line is not as wide as its schema. -/
  | wrongWidth (schema : Text) (actual : Nat) (expected : UInt64)
  /-- A schema of this name is there in the definition. -/
  | schemaExists (name definition : Text)
  /-- No schema of a definition matches a line. -/
  | noMatch (definition : Text)
  /-- An error and a number of further ones. -/
  | several (first : Error) (more : Nat)

namespace Error

/-- Whether a cause, or the reason for it, stands for what does not end, and so for no result at
all. -/
def isEndless : Error → Bool
  | .endlessPropagation _ => true
  | .unresolved _ _ _ reason => reason.isEndless
  | .several first _ => first.isEndless
  | _ => false

/-- What kind of failure a cause is. -/
def code : Error → StatusCode
  | .unknownOption .. | .missingOption .. | .invalidOption .. | .unreadableOption ..
  | .unwritableOption .. | .notIdentifier .. | .reservedName .. | .unpassableOption .. =>
    .configError
  | .unparsable .. | .tooWide .. | .recordInColumn .. | .groupNotRecord .. | .fieldNotRecord .. =>
    .invalidArgument
  | .fault .. => .error
  | .wrongWidth .. => .internal
  | .reported code _ => code
  | .missingBuilder .. | .alreadyBusy .. | .missingCodec .. | .emptyColumn ..
  | .emptyFiller .. | .missingNestedBuilder .. | .missingTarget .. | .malformedTarget ..
  | .columnInstead .. | .unresolved .. | .endlessPropagation .. | .cycle .. | .tooDeep .. =>
    .schemaError
  | .nestedMeetsReference .. | .referenceMeetsNested .. | .fieldExists .. | .groupExists ..
  | .groupMeetsField .. | .memberExists .. | .schemaExists .. => .duplicateName
  | .noField .. | .notInCatalog .. | .notVisible .. | .noParent .. | .noMatch .. => .notFound
  | .several first _ => first.code

/-- The message of a cause. -/
def message : Error → Text
  | .unknownOption name owner => "Unknown option '" ++ name ++ "' for " ++ owner
  | .missingOption name owner => "Missing required option '" ++ name ++ "' for " ++ owner
  | .invalidOption owner name expected shown =>
    let wanted : Text := if expected.isEmpty then [] else Text.ofString ": expected " ++ expected
    "Invalid value for " ++ owner ++ " option '" ++ name ++ "'" ++ wanted
      ++ ", got '" ++ shown ++ "'"
  | .unreadableOption name => "Option '" ++ name ++ "' is not readable"
  | .unwritableOption name => "Option '" ++ name ++ "' is not writable"
  | .unparsable column text form =>
    "Column '" ++ column ++ "': cannot parse '" ++ text ++ "' as " ++ form
  | .tooWide text width column =>
    "Formatted value '" ++ text ++ "' exceeds the " ++ Text.ofNat width.toNat
      ++ "-character width of column '" ++ column ++ "'"
  | .recordInColumn column => "Column '" ++ column ++ "' cannot format a nested record"
  | .fault f => f.message
  | .reported _ message => message
  | .notIdentifier name => "Invalid name: '" ++ name ++ "' is not an identifier"
  | .reservedName name => "Invalid name: '" ++ name ++ "' is a reserved keyword"
  | .missingBuilder schema => "Setup of schema '" ++ schema ++ "' requires a builder"
  | .alreadyBusy schema =>
    "Schema '" ++ schema ++ "' is already in setup; recursion forbidden"
  | .missingCodec schema => "Cannot add a null codec to schema '" ++ schema ++ "'"
  | .emptyColumn column => "Column '" ++ column ++ "' must have a positive length"
  | .emptyFiller schema => "Filler in schema '" ++ schema ++ "' must have a positive length"
  | .missingNestedBuilder nested schema =>
    "Nested schema '" ++ nested ++ "' in schema '" ++ schema ++ "' requires a builder"
  | .nestedMeetsReference nested reference schema =>
    "Nested schema '" ++ nested ++ "' conflicts with reference '" ++ reference
      ++ "' to a schema of the same name in '" ++ schema ++ "'"
  | .missingTarget schema => "Reference in schema '" ++ schema ++ "' is missing a schema name"
  | .malformedTarget target schema =>
    "Reference in schema '" ++ schema ++ "' has a malformed schema name '" ++ target ++ "'"
  | .referenceMeetsNested reference target schema =>
    "Reference '" ++ reference ++ "' targets '" ++ target ++ "', which is a nested schema of '"
      ++ schema ++ "'"
  | .unpassableOption name reference =>
    "Option '" ++ name ++ "' cannot be passed through reference '" ++ reference ++ "'"
  | .fieldExists name schema =>
    "A field named '" ++ name ++ "' is already defined in schema '" ++ schema ++ "'"
  | .groupExists name schema =>
    "A group named '" ++ name ++ "' is already defined in schema '" ++ schema
      ++ "'; a group and a field cannot share a name"
  | .groupMeetsField name schema =>
    "A field named '" ++ name ++ "' is already defined in schema '" ++ schema
      ++ "'; a group and a field cannot share a name"
  | .memberExists column group schema =>
    "A column named '" ++ column ++ "' is already defined in group '" ++ group
      ++ "' of schema '" ++ schema ++ "'"
  | .noField name schema => "Schema '" ++ schema ++ "' has no field named '" ++ name ++ "'"
  | .columnInstead name schema =>
    "found column '" ++ name ++ "' in schema '" ++ schema ++ "' instead of a schema"
  | .notInCatalog name catalog =>
    "no schema named '" ++ name ++ "' in catalog '" ++ catalog ++ "'"
  | .notVisible name schema =>
    "no schema named '" ++ name ++ "' is visible from schema '" ++ schema ++ "'"
  | .noParent schema => "schema '" ++ schema ++ "' has no parent"
  | .unresolved reference schema target reason =>
    "Cannot resolve reference '" ++ reference ++ "' in schema '" ++ schema
      ++ "' to a schema named '" ++ target ++ "': " ++ reason.message
  | .endlessPropagation schema =>
    "Options are propagated into schema '" ++ schema ++ "' without end"
  | .cycle schema => "Schema '" ++ schema ++ "' contains itself through a reference cycle"
  | .tooDeep schema levels =>
    "Schema '" ++ schema ++ "' is nested deeper than " ++ Text.ofNat levels ++ " levels"
  | .groupNotRecord group schema shown =>
    "Group '" ++ group ++ "' of schema '" ++ schema ++ "' expects a record, got '" ++ shown ++ "'"
  | .fieldNotRecord field schema shown =>
    "Field '" ++ field ++ "' of schema '" ++ schema ++ "' expects a record, got '" ++ shown ++ "'"
  | .wrongWidth schema actual expected =>
    "Formatted line for schema '" ++ schema ++ "' has " ++ Text.ofNat actual
      ++ " characters, expected " ++ Text.ofNat expected.toNat
  | .schemaExists name definition =>
    "Schema '" ++ name ++ "' is already defined in '" ++ definition ++ "'"
  | .noMatch definition => "No schema in '" ++ definition ++ "' matches the line"
  | .several first more => first.message ++ " (and " ++ Text.ofNat more ++ " more)"

/-- The code and message of a cause. -/
def status (e : Error) : Status := ⟨e.code, e.message⟩

/-- The errors of a list, each reported text once, in order of first occurrence. -/
def distinct (errors : List Error) : List Error :=
  errors.foldl
    (fun kept e =>
      if kept.any fun k => k.status.render == e.status.render then kept else kept ++ [e]) []

/-- One error for a list of them: the first, with the number of the others. -/
def summary : List Error → Option Error
  | [] => none
  | [e] => some e
  | e :: rest => some (.several e rest.length)

@[simp] theorem summary_eq_none_iff (errors : List Error) :
    summary errors = none ↔ errors = [] := by
  match errors with
  | [] => simp [summary]
  | [e] => simp [summary]
  | e :: f :: rest => simp [summary]

end Error

end RecordLayout
