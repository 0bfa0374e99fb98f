import RecordLayout.Layout.Resolve

/-!
# The width of a schema

The width of a schema is the sum of the widths of its fields, where a nested or referenced schema
counts with its own.  Sums are 64-bit words.  A width is kept with the generation of the layout in
which it was computed, and trusted as long as no field has been added anywhere.

A walk through a layout carries the schemas that it is inside of.  It refuses a schema that is one
of them, and it refuses to go deeper than `maxDepth` schemas.

## Main definitions

* `maxDepth`, `Layout.blocked`: what a walk refuses.
* `Layout.width`: the width of a schema.
-/

namespace RecordLayout

/-- The greatest number of schemas that a walk is inside of. -/
def maxDepth : Nat := 64

namespace Layout

/-- Why a walk that has gone as deep as it may does not enter a schema. -/
def blocked (L : Layout) (path : List SchemaId) (s : SchemaId) : Error :=
  if s ∈ path then .cycle (L.schema s).name else .tooDeep (L.schema s).name maxDepth

/-- Keeps a width that was computed in a generation of the layout. -/
def keepWidth (s : SchemaId) (total : UInt64) (generation : Nat) : Build Unit := fun L =>
  .ok () (L.modify s fun node => { node with knownWidth? := some (total, generation) })

/-- The width of a field; `descend` gives that of a schema. -/
def fieldWidth (descend : SchemaId → Build UInt64) (s : SchemaId) (key : Text) :
    Build UInt64 := do
  match ← field s key with
  | .column codec => pure codec.width
  | .nested _ child => descend child
  | .reference _ target => descend target

/-- The width of a schema, entered from a walk along `path` that may enter as many more schemas as
`room` says.  A width that is still trusted is given without entering. -/
def widthWithin : Nat → List SchemaId → SchemaId → Build UInt64
  | room, path, s => fun L =>
    match (L.schema s).trustedWidth? L.generation with
    | some total => .ok total L
    | none =>
      match room with
      | 0 => .error (L.blocked path s) L
      | room + 1 =>
        if s ∈ path then .error (.cycle (L.schema s).name) L
        else (do
          let total ← (L.schema s).fields.foldlM
            (fun total key =>
              (total + ·) <$> fieldWidth (widthWithin room (s :: path)) s key) 0
          keepWidth s total L.generation
          return total : Build UInt64) L

/-- The width of a schema in characters. -/
def width (s : SchemaId) : Build UInt64 := widthWithin maxDepth [] s

/-- Whether a line fits a schema: it is no wider than the schema, not counting white space at its
end, and it meets the schema's further condition, if there is one.  A schema whose width cannot be
computed matches nothing. -/
def matchesLine (s : SchemaId) (line : Text) : Build Bool := do
  match ← Build.attempt (width s) with
  | .error _ => return false
  | .ok total =>
    let node ← Build.schema s
    return (line.trimEnd Text.isWhite).width ≤ total.toNat && node.condition?.all (· line)

end Layout

end RecordLayout
