import RecordLayout.Layout.Width

/-!
# Reading records

A record is read from a line field by field.  A cursor counts the characters from the start of the
line; it is a 64-bit word.  Columns of one group are gathered into a record of their own, which
stands where the first of them does.

## Main definitions

* `Reading`: what has been read so far.
* `Layout.parse`: the record in a line.
-/

namespace RecordLayout

/-- What has been read of a record. -/
structure Reading where
  /-- The record, with nothing in the places of the groups. -/
  record : Record
  /-- The records of the groups, in order of their first columns. -/
  groups : Listing Record
  /-- The position of the next field. -/
  cursor : UInt64

namespace Reading

/-- Before the first field. -/
def start (cursor : UInt64) : Reading := ⟨[], [], cursor⟩

/-- After a field of some width whose value is not kept. -/
def skip (r : Reading) (width : UInt64) : Reading := { r with cursor := r.cursor + width }

/-- With a value under a key. -/
def put (r : Reading) (key : Text) (value : Value) : Reading :=
  { r with record := r.record.set key value }

/-- With a value under a key of a group.  The first value of a group keeps its place free. -/
def putInGroup (r : Reading) (group key : Text) (value : Value) : Reading :=
  match Listing.find? r.groups group with
  | some members => { r with groups := Listing.set r.groups group (members.set key value) }
  | none =>
    { r with
      record := r.record.set group .null
      groups := r.groups ++ [(group, Record.set [] key value)] }

/-- With the value of a codec, under its name in its group or in the record itself. -/
def putColumn (r : Reading) (codec : Codec) (value : Value) : Reading :=
  match codec.group with
  | some group => r.putInGroup group codec.name value
  | none => r.put codec.name value

/-- The whole record, with the groups in their places. -/
def finish (r : Reading) : Record :=
  r.groups.foldl (fun record g => record.set g.1 (.record g.2)) r.record

end Reading

namespace Layout

/-- The slot of a field of some width at the cursor. -/
def slotAt (line : Text) (cursor width : UInt64) : Text :=
  line.window cursor.toNat width.toNat

/-- What has been read after one more field; `descend` reads the record of a schema at a position,
and `measure` gives its width. -/
def parseField (descend : SchemaId → UInt64 → Build Record) (measure : SchemaId → Build UInt64)
    (line : Text) (s : SchemaId) (reading : Reading) (key : Text) : Build Reading := do
  match ← field s key with
  | .column codec =>
    if codec.isFiller then return reading.skip codec.width
    else
      let value ← Build.ofExcept (codec.parse (slotAt line reading.cursor codec.width))
      return (reading.putColumn codec value).skip codec.width
  | .nested key child | .reference key child =>
    let record ← descend child reading.cursor
    let width ← measure child
    return (reading.put key (.record record)).skip width

/-- The record of a schema at a position of a line, read on a walk along `path` that may enter as
many more schemas as `room` says. -/
def parseWithin (line : Text) : Nat → List SchemaId → SchemaId → UInt64 → Build Record
  | 0, path, s, _ => fun L => .error (L.blocked path s) L
  | room + 1, path, s, start => fun L =>
    if s ∈ path then .error (.cycle (L.schema s).name) L
    else (Reading.finish <$> (L.schema s).fields.foldlM
      (parseField (parseWithin line room (s :: path)) (widthWithin room (s :: path)) line s)
      (Reading.start start)) L

/-- The record that a schema reads from a line, from a position counted in characters. -/
def parse (s : SchemaId) (line : Text) (start : UInt64 := 0) : Build Record :=
  parseWithin line maxDepth [] s start

end Layout

end RecordLayout
