import RecordLayout.Layout.Width

/-!
# Checking schemas

What keeps a schema from being used is found by one walk through it: references that cannot be
resolved, schemas that contain themselves, and schemas that are nested too deep.

## Main definitions

* `Layout.errors`: all that is wrong with a schema, each text once.
* `Layout.validate`: the first of it, with the number of the others.
-/

namespace RecordLayout

namespace Layout

/-- The errors behind a field, after those found before; `descend` gives those of a schema. -/
def fieldErrors (descend : SchemaId → Build (List Error)) (s : SchemaId) (found : List Error)
    (key : Text) : Build (List Error) := fun L =>
  match (L.schema s).find? key with
  | some (.nested child) => ((found ++ ·) <$> descend child) L
  | some (.reference ref) =>
    (do match ← Build.attempt (resolve s key ref) with
        | .ok target => (found ++ ·) <$> descend target
        | .error e => return found ++ [e] : Build (List Error)) L
  | _ => .ok found L

/-- The errors of a schema in the order of its fields, found on a walk along `path` that may enter
as many more schemas as `room` says. -/
def errorsWithin : Nat → List SchemaId → SchemaId → Build (List Error)
  | 0, path, s => fun L => .ok [L.blocked path s] L
  | room + 1, path, s => fun L =>
    if s ∈ path then .ok [.cycle (L.schema s).name] L
    else ((L.schema s).fields.foldlM
      (fieldErrors (errorsWithin room (s :: path)) s) []) L

/-- All that keeps a schema from being used, each text once. -/
def errors (s : SchemaId) : Build (List Error) := Error.distinct <$> errorsWithin maxDepth [] s

/-- Whether nothing keeps a schema from being used. -/
def isValid (s : SchemaId) : Build Bool := List.isEmpty <$> errors s

/-- Fails if anything keeps a schema from being used; otherwise its width is known afterwards. -/
def validate (s : SchemaId) : Build Unit := do
  match Error.summary (← errors s) with
  | some e => throw e
  | none => discard (width s)

end Layout

end RecordLayout
