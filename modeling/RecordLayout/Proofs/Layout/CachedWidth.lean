import RecordLayout.Proofs.Layout.Reached

/-!
# Widths that are kept are right

The width of a schema is kept from one query to the next, although it depends on other schemas, and
a field can be added to any of them in between.  Whatever has been declared, propagated and asked
before, a width that is given is the sum of the widths of all codecs that the schema leads to now.

## Main results

* `Session.Reached.width_eq_outline`: **a width that is given is that of the current outline**.
-/

namespace RecordLayout

namespace Session

open Layout Build

/-- **A width that is given is the sum of the widths of the codecs of the schema, of its nested
schemas and of the targets that its references have now**, as a 64-bit word. -/
theorem Reached.width_eq_outline {S : Session} (hS : S.Reached Possible) {s : SchemaId} {n : UInt64}
    {M : Layout} (h : Layout.width s S.layout = .ok n M) :
    ∃ o, M.Unfolds s o ∧ n.toNat = o.width % 2 ^ 64 ∧ ∀ p, M.Unfolds s p → p = o := by
  obtain ⟨-, -, hweighed⟩ := (width_ends s hS.sane.layout.wellMade).of_ok h
  obtain ⟨o, ho, hn, -⟩ := hweighed n rfl
  refine ⟨o, ho, ?_, fun p hp => hp.unique ho⟩
  rw [hn]
  rfl

/-- A schema with a schema inside that gets a column after the outer width has been asked for. -/
def grownInside : Session :=
  [ .createSchema .detached "outer" .empty,
    .beginNested 0 "inner" .empty,
    .declare 1 (.column "first" 3 .empty),
    .finish true,
    .ask (.width 0),
    .declare 1 (.column "second" 4 .empty)].foldl step ⟨[], .empty⟩

/-- The column that was added inside is counted. -/
theorem width_eq_outline_grownInside : ∃ M, Layout.width 0 grownInside.layout = .ok 7 M
    ∧ ∃ o, M.Unfolds 0 o ∧ (7 : UInt64).toNat = o.width % 2 ^ 64 ∧ ∀ p, M.Unfolds 0 p → p = o := by
  have hreached : grownInside.Reached Possible :=
    Reached.start.moves ⟨trivial, show 0 < List.length _ by decide,
      ⟨by decide, trivial⟩, trivial, trivial, ⟨by decide +kernel, trivial⟩, trivial⟩
  have hwidth := ok_of_gives (x := Layout.width 0) (L := grownInside.layout) (a := 7)
    (by decide +kernel)
  exact ⟨_, hwidth, hreached.width_eq_outline hwidth⟩

end Session

end RecordLayout
