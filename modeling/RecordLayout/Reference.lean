import RecordLayout.Options.Spec

/-!
# References

A reference is a field that stands for a schema declared elsewhere.  It is resolved when it is first
looked up; the option sets that reach it before wait in a queue.

## Main definitions

* `SchemaId`: the place of a schema in a layout.
* `Reference`: the name of the target, options for it, and the state of the search.
* `Reference.bind`, `Reference.fail`, `Reference.enqueue`.
-/

namespace RecordLayout

/-- The place of a schema in a layout. -/
abbrev SchemaId := Nat

/-- The state of the search for a target. -/
inductive Resolution
  /-- The target has not been looked for. -/
  | unresolved
  /-- The target has been found. -/
  | resolved (target : SchemaId)
  /-- The last search failed, for a reason. -/
  | failed (reason : Text)
  deriving DecidableEq, Repr

/-- A field that stands for a schema declared elsewhere. -/
structure Reference where
  /-- The name of the schema that is referred to. -/
  schemaName : Text
  /-- The key under which a record holds what the target describes. -/
  storeName : Text
  /-- Options that are passed on to the target. -/
  options : OptionMap
  /-- The state of the search for the target. -/
  state : Resolution
  /-- Option sets that wait for the target. -/
  pending : List OptionMap

namespace Reference

/-- A reference to a schema, stored under its name unless another is given. -/
def create (schemaName storeName : Text) (options : OptionMap) : Reference :=
  ⟨schemaName, if storeName.isEmpty then schemaName else storeName, options, .unresolved, []⟩

/-- The target, once it has been found. -/
def target? (r : Reference) : Option SchemaId :=
  match r.state with
  | .resolved target => some target
  | _ => none

/-- Why the last search failed; empty if none did. -/
def failure (r : Reference) : Text :=
  match r.state with
  | .failed reason => reason
  | _ => []

/-- The reference with a target and an empty queue; the queue it had is returned. -/
def bind (r : Reference) (target : SchemaId) : List OptionMap × Reference :=
  (r.pending, { r with state := .resolved target, pending := [] })

/-- The reference after a search that failed. -/
def fail (r : Reference) (reason : Text) : Reference := { r with state := .failed reason }

/-- The reference with an option set in its queue, unless an equal one is waiting. -/
def enqueue (r : Reference) (options : OptionMap) : Reference :=
  if r.pending.any fun queued => queued.equal options then r
  else { r with pending := r.pending ++ [options] }

@[simp] theorem target?_bind (r : Reference) (target : SchemaId) :
    (r.bind target).2.target? = some target := rfl

@[simp] theorem failure_fail (r : Reference) (reason : Text) :
    (r.fail reason).failure = reason := rfl

end Reference

end RecordLayout
