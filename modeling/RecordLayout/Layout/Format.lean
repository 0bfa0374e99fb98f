import RecordLayout.Layout.Width

/-!
# Writing records

A record is written field by field, and the slots are put side by side.  Values that are missing are
written as nothing, and keys that no field has are passed over.

## Main definitions

* `Layout.format`: the line for a record.
-/

namespace RecordLayout

namespace Layout

/-- The value that a record has for a codec, or nothing.  The value of a group has to be a record,
if there is one. -/
def columnValue (schema : Text) (record : Record) (codec : Codec) : Except Error Value :=
  if codec.isFiller then .ok .null
  else match codec.group with
    | none => .ok ((record.find? codec.name).getD .null)
    | some group =>
      match record.find? group with
      | some (.record members) => .ok ((Record.find? members codec.name).getD .null)
      | some .null | none => .ok .null
      | some other => .error (.groupNotRecord group schema other.toText)

/-- The record that a record has under a key, or the empty one. -/
def nestedRecord (schema : Text) (record : Record) (key : Text) : Except Error Record :=
  match record.find? key with
  | some (.record inner) => .ok inner
  | some .null | none => .ok []
  | some other => .error (.fieldNotRecord key schema other.toText)

/-- The slot of a field; `descend` writes the record of a schema. -/
def formatField (descend : SchemaId → Record → Build Text) (record : Record) (s : SchemaId)
    (key : Text) : Build Text := do
  match ← field s key with
  | .column codec =>
    let node ← Build.schema s
    let value ← Build.ofExcept (columnValue node.name record codec)
    Build.ofExcept (codec.format value)
  | .nested key child | .reference key child =>
    let node ← Build.schema s
    let inner ← Build.ofExcept (nestedRecord node.name record key)
    descend child inner

/-- The text of a record of a schema, written on a walk along `path` that may enter as many more
schemas as `room` says. -/
def formatWithin : Nat → List SchemaId → SchemaId → Record → Build Text
  | 0, path, s, _ => fun L => .error (L.blocked path s) L
  | room + 1, path, s, record => fun L =>
    if s ∈ path then .error (.cycle (L.schema s).name) L
    else ((L.schema s).fields.foldlM
      (fun line key =>
        (line ++ ·) <$> formatField (formatWithin room (s :: path)) record s key) []) L

/-- The line that a schema writes for a record, as wide as the schema. -/
def format (s : SchemaId) (record : Record) : Build Text := do
  let line ← formatWithin maxDepth [] s record
  let total ← width s
  if line.width = total.toNat then return line
  else throw (.wrongWidth (← Build.schema s).name line.width total)

end Layout

end RecordLayout
