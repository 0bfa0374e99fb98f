import RecordLayout.Layout.Basic

/-!
# Propagation

Options travel down.  A set that is propagated into a schema is taken over by its columns and by the
schemas nested in it, and it goes on to the targets of its references; at a reference that has no
target yet it waits.  A schema does not take a set that it has had before, so a set that equals
itself comes to every schema once.

A set that is refused anywhere ends the propagation.  What was changed before stays.

## Main definitions

* `Layout.propagate`: an option set for a schema and all that it reaches.
-/

namespace RecordLayout

namespace Layout

/-- Merges an option set into the options of a schema. -/
def takeOverOptions (s : SchemaId) (options : OptionMap) : Build Unit := fun L =>
  let (table, error?) := (L.schema s).options.mergeValues options
  Build.settle error? (L.modify s fun node => { node with options := table })

/-- Merges an option set into the options of a codec. -/
def takeOverInCodec (s : SchemaId) (key : Text) (codec : Codec) (options : OptionMap) :
    Build Unit := fun L =>
  let (codec, error?) := codec.takeOver options
  Build.settle error? (L.modifyEntry s key fun _ => .column codec)

/-- Lets an option set wait at a reference. -/
def enqueue (s : SchemaId) (key : Text) (ref : Reference) (options : OptionMap) : Build Unit :=
  fun L => .ok () (L.modifyEntry s key fun _ => .reference (ref.enqueue options))

/-- Hands an option set to a field of a schema; `descend` takes it into another schema. -/
def propagateInto (descend : SchemaId → Build Unit) (options : OptionMap) (s : SchemaId)
    (key : Text) : Build Unit := fun L =>
  match (L.schema s).find? key with
  | some (.column codec) => takeOverInCodec s key codec options L
  | some (.nested child) => descend child L
  | some (.reference ref) =>
    match ref.target? with
    | some target => descend target L
    | none => enqueue s key ref options L
  | none => .ok () L

/-- Notes that an option set has been propagated into a schema. -/
def noteReceived (s : SchemaId) (options : OptionMap) : Build Unit := fun L =>
  .ok () (L.modify s fun node => { node with received := node.received ++ [options] })

/-- Propagates an option set along paths of at most `depth` schemas. -/
def propagateWithin : Nat → OptionMap → SchemaId → Build Unit
  | depth, options, s => fun L =>
    if options.isEmpty || (L.schema s).hasReceived options then .ok () L
    else match depth with
      | 0 => .error (.endlessPropagation (L.schema s).name) L
      | depth + 1 =>
        (do noteReceived s options
            takeOverOptions s options
            (L.schema s).fields.forM
              (propagateInto (propagateWithin depth options) options s) : Build Unit) L

/-- Propagates an option set into a schema and all that it reaches.  A set that equals itself takes
no path longer than the number of schemas, because it is taken once by each. -/
def propagate (options : OptionMap) (s : SchemaId) : Build Unit := fun L =>
  propagateWithin L.schemas.length options s L

end Layout

end RecordLayout
