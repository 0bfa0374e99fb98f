import RecordLayout.Layout.Propagate

/-!
# Resolution

Names travel up.  The target of a reference is looked for among the fields of the schemas around its
own, from the innermost outwards, and then in the catalog of the outermost.  A reference on the way
is resolved first and stands for its own target.

A reference that gets its target passes options on to it.

## Main definitions

* `Layout.bind`: a reference gets its target.
* `Layout.visibleSchema`: the schema of a name that is visible from a scope.
* `Layout.resolve`: the target of a reference, looked for if need be.
* `Field`, `Layout.field`: a field with its reference resolved.
-/

namespace RecordLayout

namespace Layout

/-- Passes options on to the target that a reference has just got: first those of the reference,
then those defined on its schema, then the sets that were waiting. -/
def passOptions (s : SchemaId) (ref : Reference) (queued : List OptionMap) (target : SchemaId) :
    Build Unit := do
  propagate ref.options target
  propagate (← Build.schema s).options.defined target
  queued.forM (propagate · target)

/-- Gives a reference its target. -/
def bind (s : SchemaId) (key : Text) (target : SchemaId) : Build Unit := fun L =>
  match (L.schema s).find? key with
  | some (.reference ref) =>
    let (queued, bound) := ref.bind target
    passOptions s ref queued target (L.modifyEntry s key fun _ => .reference bound)
  | _ => .ok () L

/-- Notes why a reference has no target, and fails with that. -/
def refuse (s : SchemaId) (key : Text) (ref : Reference) (reason : Error) : Build SchemaId :=
  fun L =>
    let error := Error.unresolved ref.storeName (L.schema s).name ref.schemaName reason
    .error error (L.modifyEntry s key fun
      | .reference ref => .reference (ref.fail error.message)
      | entry => entry)

/-- The target of a reference.  If it has none, `search` looks for one. -/
def resolveBy (search : Text → Build SchemaId) (s : SchemaId) (key : Text) (ref : Reference) :
    Build SchemaId :=
  match ref.target? with
  | some target => pure target
  | none => do
    match ← Build.attempt (search ref.schemaName) with
    | .ok target => do
      bind s key target
      pure target
    | .error reason => refuse s key ref reason

/-- The schema of a name in the catalog of a schema; `missing` is the error if there is none to
look in. -/
def listedSchema (s : SchemaId) (missing : Error) (name : Text) : Build SchemaId := fun L =>
  match (L.schema s).catalog? with
  | some c =>
    match (L.catalog c).find? name with
    | some target => .ok target L
    | none => .error (.notInCatalog name (L.catalog c).name) L
  | none => .error missing L

/-- Where the name of a target is looked for from a schema: among the fields of the schema itself,
and then by `above`, with the error if there is nothing above. -/
def visibleFrom (above : Error → Text → Build SchemaId) (s : SchemaId) (name : Text) :
    Build SchemaId := fun L =>
  let node := L.schema s
  match node.find? name with
  | some (.column _) => .error (.columnInstead name node.name) L
  | some (.nested child) => .ok child L
  | some (.reference ref) => resolveBy (above (.noParent node.name)) s name ref L
  | none => above (.notVisible name node.name) name L

/-- The schema of a name that is visible from a schema with the given ones around it. -/
def visibleIn : List SchemaId → SchemaId → Text → Build SchemaId
  | [], s => visibleFrom (listedSchema s) s
  | parent :: around, s => visibleFrom (fun _ => visibleIn around parent) s

/-- The schema of a name that is visible from a schema: one of its own fields, one of a schema
around it, or one in the catalog of the outermost. -/
def visibleSchema (s : SchemaId) (name : Text) : Build SchemaId := fun L =>
  visibleIn (L.schema s).ancestors s name L

/-- The schema of a name that is visible from outside a schema, where its references look. -/
def visibleAbove (s : SchemaId) (name : Text) : Build SchemaId := fun L =>
  match (L.schema s).ancestors with
  | [] => listedSchema s (.noParent (L.schema s).name) name L
  | parent :: around => visibleIn around parent name L

/-- The target of a reference, looked for if it has none. -/
def resolve (s : SchemaId) (key : Text) (ref : Reference) : Build SchemaId :=
  resolveBy (visibleAbove s) s key ref

end Layout

/-! ### Fields -/

/-- A field with its reference resolved. -/
inductive Field
  /-- A leaf. -/
  | column (codec : Codec)
  /-- A nested schema, with the key of its records. -/
  | nested (key : Text) (schema : SchemaId)
  /-- A referenced schema, with the key of its records. -/
  | reference (key : Text) (schema : SchemaId)

namespace Field

/-- The key under which a record holds the field. -/
def key : Field → Text
  | .column codec => codec.name
  | .nested key _ => key
  | .reference key _ => key

/-- The codec of a leaf. -/
def codec? : Field → Option Codec
  | .column codec => some codec
  | _ => none

/-- The schema of a field that is no leaf. -/
def schema? : Field → Option SchemaId
  | .column _ => none
  | .nested _ schema => some schema
  | .reference _ schema => some schema

end Field

/-- The field of a key, with its reference resolved. -/
def Layout.field (s : SchemaId) (key : Text) : Build Field := fun L =>
  match (L.schema s).find? key with
  | some (.column codec) => .ok (.column codec) L
  | some (.nested child) => .ok (.nested key child) L
  | some (.reference ref) => (Field.reference ref.storeName <$> Layout.resolve s key ref) L
  | none => .error (.noField key (L.schema s).name) L

end RecordLayout
